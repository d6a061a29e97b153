import Mathlib.Data.List.Flatten
import ComponentMacros.Proofs.Statements

/-!
# Removed imports

A program with macro imports but no usages keeps all its other statements as they
are written. They are read as they were only if each of them still ends where it
did: a statement that was ended by the import behind it, and by nothing else, goes
on into what follows the import.
-/

namespace ComponentMacros

/-! ## Reading what stays -/

deriving instance DecidableEq for Cursor
deriving instance DecidableEq for Context
deriving instance DecidableEq for ReadState

def stateAt (context : Context) (cursor : Cursor) (noted : Bool) : ReadState :=
  { ReadState.scan context cursor with moduleSyntax := noted }

namespace Stay

variable (rules : Rules) (context : Context) (stay : Stay) (offset : Nat) (back : List Char)

/-- At an offset in front of a text, the statement is read as it was, up to its end. -/
def Reads : Prop :=
  ∀ noted, ∃ noted', rules .statement (stateAt context ⟨stay.written ++ back, offset⟩ noted) =
    some (stay.statement.movedTo (offset + byteLength stay.gap),
      stateAt context ⟨back, offset + byteLength stay.written⟩ noted')

def Differs : Prop :=
  ∀ noted, (rules .statement (stateAt context ⟨stay.written ++ back, offset⟩ noted)).map Prod.fst ≠
    some (stay.statement.movedTo (offset + byteLength stay.gap))

/-- How it is read there does not depend on what was read before. -/
def Settled : Prop := stay.Reads rules context offset back ∨ stay.Differs rules context offset back

def ReadsAs (t : Tree) : Prop :=
  ∀ noted, ∃ noted', rules .statement (stateAt context ⟨stay.written ++ back, offset⟩ noted) =
    some (t, stateAt context ⟨back, offset + byteLength stay.written⟩ noted')

instance (t : Tree) : Decidable (stay.ReadsAs rules context offset back t) :=
  inferInstanceAs (Decidable (∀ _, ∃ _, _ = _))

def read? : Option Tree :=
  ((rules .statement (stateAt context ⟨stay.written ++ back, offset⟩ false)).map Prod.fst).filter
    (stay.ReadsAs rules context offset back ·)

def Decided : Prop :=
  (stay.read? rules context offset back).isSome = true ∨
    ∀ noted, rules .statement (stateAt context ⟨stay.written ++ back, offset⟩ noted) = none

instance : Decidable (stay.Reads rules context offset back) :=
  inferInstanceAs (Decidable (∀ _, ∃ _, _ = _))

instance : Decidable (stay.Decided rules context offset back) :=
  inferInstanceAs (Decidable (_ ∨ ∀ _, _ = _))

instance : Decidable (stay.Settled rules context offset back) :=
  inferInstanceAs (Decidable ((∀ _, ∃ _, _ = _) ∨ ∀ _, _ ≠ _))

end Stay

/-- Something holds of every statement that stays, at its offset and in front of what follows it. -/
def Along (P : Stay → Nat → List Char → Prop) (tail : List Char) : Nat → List Stay → Prop
  | _, [] => True
  | offset, stay :: stays =>
    P stay offset (stays.flatMap Stay.written ++ tail) ∧ Along P tail (offset + byteLength stay.written) stays

instance decidableAlong {P : Stay → Nat → List Char → Prop} [∀ stay offset back, Decidable (P stay offset back)]
    (tail : List Char) : ∀ (offset : Nat) (stays : List Stay), Decidable (Along P tail offset stays)
  | _, [] => inferInstanceAs (Decidable True)
  | offset, stay :: stays =>
    have := decidableAlong (P := P) tail (offset + byteLength stay.written) stays
    inferInstanceAs (Decidable (_ ∧ _))

/-- What statements are read as one after the other, each up to its end. -/
def readInTurn (rules : Rules) (context : Context) (tail : List Char) : Nat → List Stay → Option (List Tree)
  | _, [] => some []
  | offset, stay :: stays => do
    let t ← stay.read? rules context offset (stays.flatMap Stay.written ++ tail)
    let ts ← readInTurn rules context tail (offset + byteLength stay.written) stays
    return t :: ts

def laidOut : Nat → List Stay → List Tree
  | _, [] => []
  | offset, stay :: stays =>
    stay.statement.movedTo (offset + byteLength stay.gap) :: laidOut (offset + byteLength stay.written) stays

def statementStep (rules : Rules) : Reader (Option Tree) := do
  if (← Reader.token) = .done then return none
  return some (← rules .statement)

theorem Stay.read?_eq_some {rules : Rules} {context : Context} {stay : Stay} {offset : Nat} {back : List Char}
    {t : Tree} :
    stay.read? rules context offset back = some t ↔ stay.ReadsAs rules context offset back t := by
  rw [read?, Option.filter_eq_some_iff, decide_eq_true_eq]
  refine ⟨And.right, fun h => ⟨?_, h⟩⟩
  obtain ⟨noted', hread⟩ := h false
  rw [hread]
  rfl

theorem readInTurn_cons {rules : Rules} {context : Context} {tail : List Char} {offset : Nat} {stay : Stay}
    {stays : List Stay} {ts : List Tree} : readInTurn rules context tail offset (stay :: stays) = some ts ↔
      ∃ t rest, stay.ReadsAs rules context offset (stays.flatMap Stay.written ++ tail) t ∧
        readInTurn rules context tail (offset + byteLength stay.written) stays = some rest ∧ ts = t :: rest := by
  simp only [readInTurn, Option.bind_eq_bind, Option.bind_eq_some_iff, Stay.read?_eq_some, Option.pure_def,
    Option.some.injEq, ← exists_and_left, eq_comm (b := ts)]

theorem readInTurn_laidOut {rules : Rules} {context : Context} {tail : List Char} :
    ∀ {stays : List Stay} {offset : Nat}, Along (Stay.Reads rules context) tail offset stays →
      readInTurn rules context tail offset stays = some (laidOut offset stays)
  | [], _, _ => rfl
  | _ :: _, _, ⟨hreads, hrest⟩ => readInTurn_cons.mpr ⟨_, _, hreads, readInTurn_laidOut hrest, rfl⟩

theorem readLexeme_ne_done (c : Char) (cs : List Char) : (readLexeme (c :: cs)).token ≠ .done := by
  unfold readLexeme
  dsimp only
  repeat' split
  all_goals nofun

section
variable {rules : Rules} {context : Context} {tail : List Char}

theorem stateAt_standsAt {gap text : List Char} (hgap : isGap .absent gap = true)
    (htext : StartsToken context.pageComments text) (offset : Nat) (noted : Bool) :
    (stateAt context ⟨gap ++ text, offset⟩ noted).StandsAt text :=
  (@StartsToken.moveTo (stateAt context ⟨[], 0⟩ noted) gap text htext (isGap_of_plain hgap _) offset).1

theorem stateAt_done (htail : isTail tail = true) (offset : Nat) (noted : Bool) :
    (stateAt context ⟨tail, offset⟩ noted).token = .done := by
  obtain ⟨stop, line, hskip⟩ := isTail_skip htail context.pageComments offset (offset = 0)
  exact (@ReadState.moveTo_standsAt (stateAt context ⟨[], 0⟩ noted) _ _ _ _ _ hskip).1.token

theorem statementStep_done {s : ReadState} (h : s.token = .done) : statementStep rules s = some (none, s) := by
  rw [statementStep, Reader.bind_of_eq_some (p := Reader.token) rfl]
  simp only [h, if_true]
  rfl

theorem statementStep_eq {s : ReadState} (h : s.token ≠ .done) :
    statementStep rules s = (rules .statement s).map fun r => (some r.1, r.2) := by
  rw [statementStep, Reader.bind_of_eq_some (p := Reader.token) rfl]
  simp only [h, if_false]
  cases hread : rules .statement s with
  | none => exact Reader.bind_of_eq_none hread
  | some r => exact Reader.bind_of_eq_some hread

theorem stay_token {stay : Stay} (hgap : isGap .absent stay.gap = true) (hopens : opensStatement stay.text = true)
    (back : List Char) (offset : Nat) (noted : Bool) :
    (stateAt context ⟨stay.written ++ back, offset⟩ noted).token ≠ .done := by
  rw [Stay.written, List.append_assoc,
    (stateAt_standsAt hgap (startsToken_of_opensStatement hopens back) offset noted).token]
  cases htext : stay.text with
  | nil => rw [htext] at hopens; cases hopens
  | cons c cs => exact readLexeme_ne_done c _

/-- Statements that are each read up to its end are read one after the other, up to the end of the text. -/
theorem stays_read (htail : isTail tail = true) :
    ∀ {stays : List Stay} {ts : List Tree} {offset n : Nat} {noted : Bool}, AreApart stays → stays.length < n →
      readInTurn rules context tail offset stays = some ts →
        ∃ last noted', Reader.collect (statementStep rules) n
          (stateAt context ⟨stays.flatMap Stay.written ++ tail, offset⟩ noted) =
        some (ts, stateAt context ⟨tail, last⟩ noted')
  | [], ts, offset, n + 1, noted, _, _, hread => by
    cases hread
    exact ⟨offset, noted, Reader.collect_none (statementStep_done (stateAt_done htail offset noted)) n⟩
  | stay :: stays, ts, offset, n + 1, noted, hstays, hn, hread => by
    obtain ⟨t, rest, hreads, hrest, rfl⟩ := readInTurn_cons.mp hread
    obtain ⟨hgap, hopens⟩ := hstays stay (List.mem_cons_self ..)
    obtain ⟨noted', hread⟩ := hreads noted
    obtain ⟨last, noted'', hcollect⟩ := @stays_read htail stays rest _ n noted' (fun other hother => hstays other
      (List.mem_cons_of_mem _ hother)) (by simpa using hn) hrest
    refine ⟨last, noted'', ?_⟩
    rw [List.flatMap_cons, List.append_assoc]
    refine Reader.collect_some ?_ hcollect
    rw [statementStep_eq (stay_token hgap hopens _ offset noted), hread]
    rfl

/-- The first of the statements that are collected is read at the first one that stays. -/
theorem collect_stay {stay : Stay} (hgap : isGap .absent stay.gap = true)
    (hopens : opensStatement stay.text = true)
    {back : List Char} {offset n : Nat} {noted : Bool} {ts : List Tree} {last : ReadState}
    (h : Reader.collect (statementStep rules) (n + 1) (stateAt context ⟨stay.written ++ back, offset⟩ noted) =
      some (ts, last)) : ∃ t s rest, rules .statement (stateAt context ⟨stay.written ++ back, offset⟩ noted) =
        some (t, s) ∧
        Reader.collect (statementStep rules) n s = some (rest, last) ∧ ts = t :: rest := by
  have hstep := @statementStep_eq rules _ (@stay_token context stay hgap hopens back offset noted)
  cases hread : rules .statement (stateAt context ⟨stay.written ++ back, offset⟩ noted) with
  | none =>
    rw [hread] at hstep
    rw [Reader.collect_of_none hstep] at h
    cases h
  | some r =>
    rw [hread] at hstep
    rw [Reader.collect_of_some hstep, Option.map_eq_some_iff] at h
    obtain ⟨⟨rest, state⟩, hcollect, heq⟩ := h
    cases heq
    exact ⟨r.1, r.2, rest, rfl, hcollect, rfl⟩

/-- Only then are they read at all, if how each of them is read is settled. -/
theorem reads_of_stays_read {stays : List Stay} {offset n : Nat} {noted : Bool} {last : ReadState}
    (hstays : AreApart stays) (hn : stays.length < n)
    (hsettled : Along (Stay.Settled rules context) tail offset stays)
    (hcollect : Reader.collect (statementStep rules) n
      (stateAt context ⟨stays.flatMap Stay.written ++ tail, offset⟩ noted) = some (laidOut offset stays, last)) :
    Along (Stay.Reads rules context) tail offset stays := by
  induction stays generalizing offset n noted with
  | nil => trivial
  | cons stay stays ih =>
    obtain ⟨n, rfl⟩ : ∃ k, n = k + 1 := ⟨n - 1, by omega⟩
    obtain ⟨hgap, hopens⟩ := hstays stay (List.mem_cons_self ..)
    rw [List.flatMap_cons, List.append_assoc] at hcollect
    obtain ⟨t, s, rest, hread, hrest, heq⟩ := collect_stay hgap hopens hcollect
    rw [laidOut, List.cons.injEq] at heq
    obtain ⟨rfl, rfl⟩ := heq
    -- the first statement was read as it was, so it always is
    rcases hsettled.1 with hreads | hdiffers
    · obtain ⟨noted', hagain⟩ := hreads noted
      rw [hread, Option.some.injEq, Prod.mk.injEq] at hagain
      rw [hagain.2] at hrest
      exact ⟨hreads, ih (fun other hother => hstays other (List.mem_cons_of_mem _ hother)) (by simpa using hn)
        hsettled.2 hrest⟩
    · refine absurd ?_ (hdiffers noted)
      rw [hread]
      rfl

/-- What is collected is what they are read as in turn, if each of them is a statement or none. -/
theorem readInTurn_of_collect (htail : isTail tail = true) {stays : List Stay} {ts : List Tree} {offset n : Nat}
    {noted : Bool} {last : ReadState} (hstays : AreApart stays) (hn : stays.length < n)
    (hdecided : Along (Stay.Decided rules context) tail offset stays)
    (hcollect : Reader.collect (statementStep rules) n
      (stateAt context ⟨stays.flatMap Stay.written ++ tail, offset⟩ noted) = some (ts, last)) :
    readInTurn rules context tail offset stays = some ts := by
  induction stays generalizing offset n noted ts with
  | nil =>
    obtain ⟨n, rfl⟩ : ∃ k, n = k + 1 := ⟨n - 1, by omega⟩
    rw [List.flatMap_nil, List.nil_append,
      Reader.collect_none (statementStep_done (stateAt_done htail offset noted)) n]
      at hcollect
    cases hcollect
    rfl
  | cons stay stays ih =>
    obtain ⟨n, rfl⟩ : ∃ k, n = k + 1 := ⟨n - 1, by omega⟩
    obtain ⟨hgap, hopens⟩ := hstays stay (List.mem_cons_self ..)
    rw [List.flatMap_cons, List.append_assoc] at hcollect
    obtain ⟨t, s, rest, hread, hrest, rfl⟩ := collect_stay hgap hopens hcollect
    rcases hdecided.1 with hsome | hnone
    · obtain ⟨t', hread'⟩ := Option.isSome_iff_exists.mp hsome
      have hreads := Stay.read?_eq_some.mp hread'
      obtain ⟨noted', hagain⟩ := hreads noted
      rw [hread, Option.some.injEq, Prod.mk.injEq] at hagain
      obtain ⟨rfl, rfl⟩ := hagain
      exact readInTurn_cons.mpr
        ⟨t, rest, hreads, ih (fun other hother => hstays other (List.mem_cons_of_mem _ hother))
        (by simpa using hn) hdecided.2 hrest, rfl⟩
    · rw [hnone noted] at hread
      cases hread

theorem stays_le_length : ∀ {stays : List Stay}, (∀ stay ∈ stays, opensStatement stay.text = true) →
    stays.length ≤ (stays.flatMap Stay.written).length
  | [], _ => Nat.le_refl 0
  | stay :: stays, h => by
    have ih := @stays_le_length stays fun other hother => h other (List.mem_cons_of_mem _ hother)
    have hopens := h stay (List.mem_cons_self ..)
    rw [List.flatMap_cons, List.length_append, List.length_cons, Stay.written, List.length_append]
    cases htext : stay.text with
    | nil => rw [htext] at hopens; cases hopens
    | cons c cs => rw [List.length_cons]; omega

theorem stays_lt_rest {stays : List Stay}
    (hstays : AreApart stays) (offset : Nat) (noted : Bool) :
    stays.length < (stateAt context ⟨stays.flatMap Stay.written ++ tail, offset⟩ noted).start.rest.length + 1 := by
  cases stays with
  | nil => exact Nat.zero_lt_succ _
  | cons stay stays =>
    obtain ⟨hgap, hopens⟩ := hstays stay (List.mem_cons_self ..)
    have hrest := @stays_le_length stays fun other hother => (hstays other (List.mem_cons_of_mem _ hother)).2
    rw [List.flatMap_cons, Stay.written, List.append_assoc, List.append_assoc,
      (stateAt_standsAt hgap (startsToken_of_opensStatement hopens _) offset noted).rest]
    cases htext : stay.text with
    | nil => rw [htext] at hopens; cases hopens
    | cons c cs => simp only [List.length_cons, List.length_append]; omega

end

/-! ## Programs -/

def rulesFor (text : List Char) : Rules := readersTo (rulesPerCharacter * (text.length + 1))

def readingOf (dialect : Dialect) (text : List Char) : Reading :=
  if dialect.isModule || dialect.isUndecided &&
    (readProgram .script dialect text).any (·.2.moduleSyntax) then .module
  else .script

theorem parse_eq_readingOf (dialect : Dialect) (text : List Char) : parse dialect text =
    (readProgram (readingOf dialect text) dialect text).bind fun r =>
      if isSound dialect r.1 r.2 then some r.1 else none := by
  unfold parse readingOf
  cases hmodule : dialect.isModule with
  | true =>
    have hdecided : dialect.isUndecided = false := by simp [Dialect.isUndecided, hmodule]
    simp only [if_true, hdecided, Bool.false_and, Bool.true_or]
    cases readProgram .module dialect text <;> rfl
  | false =>
    simp only [Bool.false_or]
    cases hscript : readProgram .script dialect text with
    | none => simp [hscript]
    | some r =>
      cases hundecided : dialect.isUndecided <;> cases hnoted : r.2.moduleSyntax <;> simp [hnoted, hscript]

mutual

theorem any_shifted (p : Kind → Bool) (lo pos : Nat) : ∀ t : Tree, (t.shifted lo pos).any p = t.any p
  | .node kind span children => by rw [Tree.shifted, Tree.any, Tree.any, anyTree_shifted p lo pos children]

theorem anyTree_shifted (p : Kind → Bool) (lo pos : Nat) :
    ∀ ts : List Tree, anyTree p (shiftedAll lo pos ts) = anyTree p ts
  | [] => rfl
  | t :: ts => by rw [shiftedAll, anyTree, anyTree, any_shifted p lo pos t, anyTree_shifted p lo pos ts]

end

theorem anyTree_eq (p : Kind → Bool) : ∀ ts : List Tree, anyTree p ts = ts.any (Tree.any p)
  | [] => rfl
  | t :: ts => by rw [anyTree, List.any_cons, anyTree_eq p ts]

mutual

theorem boundNames_shifted (lo pos : Nat) : ∀ t : Tree, (t.shifted lo pos).boundNames = t.boundNames
  | .node kind span children => by
    cases kind <;> first | rfl | exact boundNamesOf_shifted lo pos children

theorem boundNamesOf_shifted (lo pos : Nat) :
    ∀ ts : List Tree, boundNamesOf (shiftedAll lo pos ts) = boundNamesOf ts
  | [] => rfl
  | t :: ts => by
    rw [shiftedAll, boundNamesOf, boundNamesOf, boundNames_shifted lo pos t, boundNamesOf_shifted lo pos ts]

end

theorem shiftedAll_eq (lo pos : Nat) : ∀ ts : List Tree, shiftedAll lo pos ts = ts.map (·.shifted lo pos)
  | [] => rfl
  | t :: ts => by rw [shiftedAll, shiftedAll_eq lo pos ts, List.map_cons]

theorem kind_shifted (lo pos : Nat) : ∀ t : Tree, (t.shifted lo pos).kind = t.kind
  | .node _ _ _ => rfl

theorem children_shifted (lo pos : Nat) :
    ∀ t : Tree, (t.shifted lo pos).children = t.children.map (·.shifted lo pos)
  | .node _ _ children => shiftedAll_eq lo pos children

theorem declaredNames_shifted (lo pos : Nat) (t : Tree) : (t.shifted lo pos).declaredNames = t.declaredNames := by
  unfold Tree.declaredNames
  rw [kind_shifted, boundNames_shifted, children_shifted, List.filterMap_map]
  simp only [Function.comp_def, kind_shifted]

theorem exportedName?_shifted (lo pos : Nat) (t : Tree) : (t.shifted lo pos).exportedName? = t.exportedName? := by
  unfold Tree.exportedName?
  rw [kind_shifted]

theorem exportedNames_shifted (lo pos : Nat) : ∀ t : Tree, (t.shifted lo pos).exportedNames = t.exportedNames
  | .node kind span children => by
    rw [Tree.shifted, shiftedAll_eq]
    cases kind with
    | exportNamed typeOnly =>
      simp only [Tree.exportedNames, List.flatMap_map, kind_shifted, declaredNames_shifted, children_shifted,
        List.getLast?_map, Option.bind_map, Function.comp_def, exportedName?_shifted]
    | exportAll typeOnly =>
      match children with
      | [] => rfl
      | [_] => rfl
      | name :: .node kind _ _ :: _ =>
        cases kind <;> simp [Tree.exportedNames, Tree.shifted, exportedName?_shifted]
    | _ => rfl

theorem laidOut_flatMap {β : Type} {f : Tree → List β} (hf : ∀ lo pos t, f (t.shifted lo pos) = f t) :
    ∀ (stays : List Stay) (offset : Nat), (laidOut offset stays).flatMap f = (stays.map Stay.statement).flatMap f
  | [], _ => rfl
  | stay :: stays, offset => by
    rw [laidOut, List.flatMap_cons, List.map_cons, List.flatMap_cons, laidOut_flatMap hf stays, Tree.movedTo, hf]

theorem laidOut_any (p : Kind → Bool) : ∀ (stays : List Stay) (offset : Nat),
    anyTree p (laidOut offset stays) = (stays.map Stay.statement).any (Tree.any p)
  | [], _ => rfl
  | stay :: stays, offset => by
    rw [laidOut, anyTree, List.map_cons, List.any_cons, laidOut_any p stays, Tree.movedTo, any_shifted]

def areSound (dialect : Dialect) (statements : List Tree) : Bool :=
  !anyTree (· = .defaultedProperty) statements && (dialect.typed || exportsOnce statements)

theorem isSound_program {dialect : Dialect} {program : Tree} {last : ReadState} (hk : program.kind = .program) :
    isSound dialect program last = (!last.faulty && areSound dialect program.children) := by
  obtain ⟨kind, span, children⟩ := program
  cases hk
  simp [isSound, areSound, Tree.any, Tree.children, Bool.and_assoc]

theorem areSound_laidOut {dialect : Dialect} {statements : List Tree} (h : areSound dialect statements = true)
    {stays : List Stay} (hstays : (stays.map Stay.statement).Sublist statements) (offset : Nat) :
    areSound dialect (laidOut offset stays) = true := by
  simp only [areSound, Bool.and_eq_true, Bool.or_eq_true, Bool.not_eq_true'] at h ⊢
  obtain ⟨hdefault, hexports⟩ := h
  refine ⟨?_, hexports.imp_right fun honce => ?_⟩
  · rw [laidOut_any]
    rw [anyTree_eq, List.any_eq_false] at hdefault
    exact List.any_eq_false.mpr fun t ht => hdefault t (hstays.subset ht)
  · rw [exportsOnce, decide_eq_true_eq] at honce ⊢
    rw [laidOut_flatMap exportedNames_shifted]
    exact honce.sublist (hstays.flatMap _)

section
variable {reading : Reading} {dialect : Dialect} {code tail : List Char} {stays : List Stay} {ts : List Tree}
  {offset : Nat}

theorem readProgram_collect {text : List Char} (hcode : skipInterpreterLine code = ⟨text, offset⟩) {program : Tree}
    {last : ReadState} (h : readProgram reading dialect code = some (program, last)) : program.kind = .program ∧
      Reader.collect (statementStep (rulesFor code))
        ((stateAt (reading.context dialect) ⟨text, offset⟩ false).start.rest.length + 1)
          (stateAt (reading.context dialect) ⟨text, offset⟩ false) = some (program.children, last) := by
  rw [readProgram] at h
  obtain ⟨⟨statements, state⟩, hstatements, h⟩ := Option.bind_eq_some_iff.mp h
  rw [hcode] at hstatements
  simp only at h
  split at h
  · cases h
  · cases h
    exact ⟨rfl, hstatements⟩

theorem parse_sound {program : Tree} (h : parse dialect code = some program) :
    areSound dialect program.children = true := by
  rw [parse_eq_readingOf] at h
  obtain ⟨⟨tree, last⟩, hread, h⟩ := Option.bind_eq_some_iff.mp h
  simp only [Option.ite_none_right_eq_some, Option.some.injEq] at h
  obtain ⟨hsound, rfl⟩ := h
  rw [isSound_program (readProgram_collect rfl hread).1, Bool.and_eq_true] at hsound
  exact hsound.2

variable (hcode : skipInterpreterLine code = ⟨stays.flatMap Stay.written ++ tail, offset⟩)
  (hstays : AreApart stays)
include hcode hstays

theorem readProgram_stays (htail : isTail tail = true)
    (hread : readInTurn (rulesFor code) (reading.context dialect) tail offset stays = some ts) :
    ∃ last, readProgram reading dialect code = some (.node .program ⟨0, byteLength code⟩ ts, last) ∧
      last.faulty = false := by
  obtain ⟨stop, noted, hcollect⟩ := @stays_read _ (reading.context dialect) _ htail _ _ _ _ false hstays
    (@stays_lt_rest (reading.context dialect) tail _ hstays offset false) hread
  refine ⟨stateAt (reading.context dialect) ⟨tail, stop⟩ noted, ?_, rfl⟩
  have hrun : (readStatements (rulesFor code)).run
    (ReadState.scan (reading.context dialect) (skipInterpreterLine code)) =
      some (ts, stateAt (reading.context dialect) ⟨tail, stop⟩ noted) := by
    rw [hcode]
    exact hcollect
  rw [rulesFor] at hrun
  rw [readProgram]
  simp only [hrun, Option.bind_eq_bind, Option.bind_some, stateAt_done htail, ne_eq, not_true, if_false]
  rfl

theorem reads_of_readProgram
    (hsettled : Along (Stay.Settled (rulesFor code) (reading.context dialect)) tail offset stays)
    {again : Tree} {last : ReadState} (hread : readProgram reading dialect code = some (again, last))
    (hagain : again.children = laidOut offset stays) :
    Along (Stay.Reads (rulesFor code) (reading.context dialect)) tail offset stays := by
  have hcollect := (readProgram_collect hcode hread).2
  rw [hagain] at hcollect
  exact @reads_of_stays_read _ _ _ _ _ _ false _ hstays
    (@stays_lt_rest (reading.context dialect) tail _ hstays offset false) hsettled hcollect

/-- Statements that are read in turn are a program if they are sound. -/
theorem parse_of_readInTurn (htail : isTail tail = true)
    (hread : readInTurn (rulesFor code) ((readingOf dialect code).context dialect) tail offset stays = some ts)
    (hsound : areSound dialect ts = true) :
      parse dialect code = some (.node .program ⟨0, byteLength code⟩ ts) := by
  obtain ⟨last, hprogram, hfaulty⟩ := readProgram_stays hcode hstays htail hread
  rw [parse_eq_readingOf, hprogram, Option.bind_some, if_pos]
  rw [isSound_program rfl, hfaulty]
  exact hsound

theorem readInTurn_of_parse (htail : isTail tail = true)
    (hdecided : Along (Stay.Decided (rulesFor code) ((readingOf dialect code).context dialect)) tail offset stays)
    {again : Tree} (h : parse dialect code = some again) :
    readInTurn (rulesFor code) ((readingOf dialect code).context dialect) tail offset stays =
      some again.children := by
  rw [parse_eq_readingOf] at h
  obtain ⟨⟨tree, last⟩, hread, h⟩ := Option.bind_eq_some_iff.mp h
  simp only [Option.ite_none_right_eq_some, Option.some.injEq] at h
  obtain ⟨-, rfl⟩ := h
  exact @readInTurn_of_collect _ _ _ htail _ _ _ _ false _ hstays
    (@stays_lt_rest ((readingOf dialect code).context dialect) tail _ hstays offset false) hdecided
      (readProgram_collect hcode hread).2

end

section
variable {options : Options} {text code : String} {program : Tree} {stays : List Stay} {tail : List Char}

/-- What a run leaves of a program that it changes. -/
theorem transform_rewritten {collected : Collected} {r : Transformed}
    (hparse : parse options.dialect text.toList = some program) (hlayout : Layout text.toList program)
    (hshape : Shape program) (hclosed : Closed program) (hstrewn : Strewn text.toList program)
    (h : transform options text = .ok r) (hactive : options.isInert text = false)
    (hcollect : collect? options program = some collected)
    (hleft : leftOver options text.toList program = (stays, tail)) :
    r.code.toList = interpreterLine text.toList ++
      ((stays.map (Setting.rewritten ⟨options, text.toList, collected⟩)).flatMap Stay.written ++ tail) := by
  obtain ⟨found, draft, hfound, hdraft, hcode⟩ := transform_active hparse h hactive
  rw [hcollect, Option.some.injEq] at hfound
  subst hfound
  have hrewrite :=
    @render_statements ⟨options, text.toList, collected⟩ _ _ hlayout hshape hclosed hcollect hdraft _ hcode
  have hcodeText := leftOver_rewrite hstrewn hrewrite
  rwa [hleft] at hcodeText

theorem unused_rewritten {collected : Collected} (hparse : parse options.dialect text.toList = some program)
    (hlayout : Layout text.toList program) (hshape : Shape program) (hclosed : Closed program)
    (hstrewn : Strewn text.toList program) (hmay : options.mayImportMacros text.toList = true)
    (hcollect : collect? options program = some collected) (hunused : collected.usages.pending = [])
    (hleft : leftOver options text.toList program = (stays, tail)) :
    ∃ code, transform options text = .ok ⟨code, true, 0⟩ ∧
      code.toList = interpreterLine text.toList ++ (stays.flatMap Stay.written ++ tail) := by
  obtain ⟨draft, hdraft⟩ := @expansion_unused ⟨options, text.toList, collected⟩ hunused
  have hrec := expansion_recorded hlayout.root hcollect hdraft
  obtain ⟨code, hcode⟩ :=
    render_ok (hrec.acyclic hlayout hshape) (hrec.inRange hlayout hshape) (hrec.tidy hlayout).point
  have htransform := transform_eq hmay hparse hcollect hdraft hcode
  rw [expansion_not_isEmpty hcollect hdraft, Usages.size, hunused] at htransform
  have hrewrite :=
    @render_statements ⟨options, text.toList, collected⟩ _ _ hlayout hshape hclosed hcollect hdraft _ hcode
  have hcodeText := leftOver_rewrite hstrewn hrewrite
  have hsame := @rewritten_leftOver ⟨options, text.toList, collected⟩ hunused program
  simp only [hleft] at hcodeText hsame
  rw [hsame] at hcodeText
  exact ⟨code, htransform, hcodeText⟩

variable (hleft : leftOver options text.toList program = (stays, tail))

include hleft

theorem left_statements :
    stays.map Stay.statement = program.children.filter fun t => (MacroImport.ofTree? options t).isNone := by
  have hstatements :=
    @withoutImports_statements options text.toList program.children [] (skipInterpreterLine text.toList).offset
  rwa [← leftOver, hleft] at hstatements

variable (hlayout : Layout text.toList program) (hstrewn : Strewn text.toList program)

include hlayout hstrewn

theorem left_apart : AreApart stays ∧ isTail tail = true := by
  have hapart := @leftOver_apart options _ _ hlayout hstrewn
  rwa [hleft] at hapart

/-- Whatever is left of the statements, it stands behind the interpreter line. -/
theorem left_line {others : List Stay} (hothers : AreApart others)
    (hgaps : others.map Stay.gap = stays.map Stay.gap)
    (hcode : code.toList = interpreterLine text.toList ++ (others.flatMap Stay.written ++ tail)) :
    skipInterpreterLine code.toList =
      ⟨others.flatMap Stay.written ++ tail, (skipInterpreterLine text.toList).offset⟩ := by
  obtain ⟨hstays, htail⟩ := left_apart hleft hlayout hstrewn
  have hfollows := @leftOver_follows options _ _ hlayout hstrewn
  rw [hleft] at hfollows
  have hline := skipInterpreterLine_append (followsLine_of_gaps hstays hothers htail hgaps hfollows)
  obtain ⟨-, -, hoffset, -⟩ := interpreterLine_split text.toList
  rwa [← hcode, ← hoffset] at hline

/-- If each statement that stays is read as it was, what is left is a program of them. -/
theorem parse_left (hcode : code.toList = interpreterLine text.toList ++ (stays.flatMap Stay.written ++ tail))
    (hparse : parse options.dialect text.toList = some program)
    (hreads : Along (Stay.Reads (rulesFor code.toList)
      ((readingOf options.dialect code.toList).context options.dialect)) tail
        (skipInterpreterLine text.toList).offset stays) :
    ∃ again, parse options.dialect code.toList = some again ∧
      again.children = laidOut (skipInterpreterLine text.toList).offset stays := by
  obtain ⟨hstays, htail⟩ := left_apart hleft hlayout hstrewn
  have hsub : (stays.map Stay.statement).Sublist program.children := by
    rw [left_statements hleft]
    exact List.filter_sublist
  exact ⟨_, parse_of_readInTurn (left_line hleft hlayout hstrewn hstays rfl hcode) hstays htail
    (readInTurn_laidOut hreads) (areSound_laidOut (parse_sound hparse) hsub _), rfl⟩

end

/-- Removing the macro imports of a program without usages leaves its other statements, if and only if none
of them goes on into what follows it now. Whatever stands around the imports, every other statement keeps
its text, and only blanks and comments stand between them. As long as how each of them is read does not
depend on what was read before, the result is a program of exactly these statements, in their order, if and
only if each is read as it was in front of what follows it without the imports; a statement that only
the import behind it ended is not. -/
theorem imports_removed_iff {options : Options} {text : String} {program : Tree} {collected : Collected}
    (hparse : parse options.dialect text.toList = some program) (hlayout : Layout text.toList program)
    (hshape : Shape program) (hclosed : Closed program) (hstrewn : Strewn text.toList program)
    (hmay : options.mayImportMacros text.toList = true) (hcollect : collect? options program = some collected)
    (hunused : collected.usages.pending = []) :
    ∃ code, transform options text = .ok ⟨code, true, 0⟩ ∧
      let (stays, tail) := leftOver options text.toList program
      let offset := (skipInterpreterLine text.toList).offset
      let context := (readingOf options.dialect code.toList).context options.dialect
      stays.map Stay.statement = program.children.filter (fun t => (MacroImport.ofTree? options t).isNone) ∧
      code.toList = interpreterLine text.toList ++ (stays.flatMap Stay.written ++ tail) ∧
      (Along (Stay.Settled (rulesFor code.toList) context) tail offset stays →
        ((∃ again, parse options.dialect code.toList = some again ∧ again.children = laidOut offset stays) ↔
          Along (Stay.Reads (rulesFor code.toList) context) tail offset stays)) := by
  obtain ⟨stays, tail, hleft⟩ : ∃ stays tail, leftOver options text.toList program = (stays, tail) := ⟨_, _, rfl⟩
  obtain ⟨code, htransform, hcode⟩ :=
    unused_rewritten hparse hlayout hshape hclosed hstrewn hmay hcollect hunused hleft
  refine ⟨code, htransform, ?_⟩
  rw [hleft]
  refine ⟨left_statements hleft, hcode, fun hsettled => ⟨?_, parse_left hleft hlayout hstrewn hcode hparse⟩⟩
  rintro ⟨again, hagain, hchildren⟩
  rw [parse_eq_readingOf] at hagain
  obtain ⟨⟨tree, last⟩, hread, hagain⟩ := Option.bind_eq_some_iff.mp hagain
  simp only [Option.ite_none_right_eq_some, Option.some.injEq] at hagain
  obtain ⟨-, rfl⟩ := hagain
  have hstays := (left_apart hleft hlayout hstrewn).1
  exact reads_of_readProgram (left_line hleft hlayout hstrewn hstays rfl hcode) hstays hsettled hread hchildren

def importSample (ended : Bool) : String :=
  "#!x\nimport 'm.macro'; // d\r\nconst a = b" ++ (if ended then ";" else "") ++ "\nimport 'm.macro';\r\n(c)"

def importsLeft (ended : Bool) : String :=
  "#!x\n // d\r\nconst a = b" ++ (if ended then ";" else "") ++ "\n(c)"

/-- Without its imports a sample is read as its two other statements if the first one is ended, and only then. -/
def LeavesStatements (ended : Bool) : Prop :=
  ∃ program, parse (Options.dialect {}) (importSample ended).toList = some program ∧
    transform {} (importSample ended) = .ok ⟨importsLeft ended, true, 0⟩ ∧
    ((∃ again, parse (Options.dialect {}) (importsLeft ended).toList = some again ∧
      again.children = laidOut 3 (leftOver {} (importSample ended).toList program).1) ↔ ended = true)

def showsStatements (ended : Bool) (program : Tree) : Bool :=
  let source := (importSample ended).toList
  let code := (importsLeft ended).toList
  let context := (readingOf (Options.dialect {}) code).context (Options.dialect {})
  let (stays, tail) := leftOver {} source program
  decide (Layout source program) && decide (Shape program) && decide (Closed program) &&
    decide (Strewn source program) &&
    (collect? {} program).any (·.usages.pending.isEmpty) &&
    code = interpreterLine source ++ (stays.flatMap Stay.written ++ tail) &&
    decide (Along (Stay.Settled (rulesFor code) context) tail 3 stays) &&
    decide (Along (Stay.Reads (rulesFor code) context) tail 3 stays) == ended

theorem imports_removed_iff_unended : LeavesStatements true ∧ LeavesStatements false := by
  have hsamples : ∀ ended, ((parse (Options.dialect {}) (importSample ended).toList).any
    (showsStatements ended)) = true ∧
      Options.mayImportMacros {} (importSample ended).toList = true ∧
      (skipInterpreterLine (importSample ended).toList).offset = 3 := by decide +kernel
  have hboth : ∀ ended, LeavesStatements ended := by
    intro ended
    obtain ⟨hsample, hmay, hoffset⟩ := hsamples ended
    obtain ⟨program, hparse, hshows⟩ := Option.any_eq_true _ _ |>.mp hsample
    unfold showsStatements at hshows
    simp only [Bool.and_eq_true, decide_eq_true_eq, beq_iff_eq, Option.any_eq_true, List.isEmpty_iff] at hshows
    obtain ⟨⟨⟨⟨⟨⟨⟨hlayout, hshape⟩, hclosed⟩, hstrewn⟩, collected, hcollect, hunused⟩, hleft⟩, hsettled⟩,
      hreads⟩ := hshows
    obtain ⟨code, htransform, hread⟩ :=
      imports_removed_iff hparse hlayout hshape hclosed hstrewn hmay hcollect hunused
    dsimp only at hread
    rw [hoffset] at hread
    obtain ⟨-, hcode, hiff⟩ := hread
    obtain rfl : code = importsLeft ended := String.toList_inj.mp (hcode.trans hleft.symm)
    refine ⟨program, hparse, htransform, (hiff hsettled).trans ?_⟩
    exact ⟨fun h => hreads.symm.trans (decide_eq_true h), fun h => of_decide_eq_true (hreads.trans h)⟩
  exact ⟨hboth true, hboth false⟩

end ComponentMacros
