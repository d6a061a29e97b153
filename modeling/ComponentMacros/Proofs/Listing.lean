import ComponentMacros.Proofs.Operands

/-!
# Lists of types

The text of a list of types is read as a list of what its parts are read as. What
follows a part is a comma or the bracket that ends the list, and neither goes on
with the part.
-/

namespace ComponentMacros

/-! ## Going on in a text -/

def partChars : List Char := ['N', 'B', 'S', 'F', 'O', 'A', 'n', 'v', '[', ',', ']']

theorem skipGap_part {c : Char} (hc : c ∈ partChars) (page : PageComments) (cs : List Char) (offset : Nat)
    (newline : Bool) : skipGap page .blank (c :: cs) offset newline = (⟨c :: cs, offset⟩, newline, true) := by
  simp only [partChars, List.mem_cons, List.not_mem_nil, or_false] at hc
  rcases hc with rfl | rfl | rfl | rfl | rfl | rfl | rfl | rfl | rfl | rfl | rfl <;>
    cases page <;> cases newline <;> rfl

def EndsPart : List Char → Bool
  | [] => false
  | c :: _ => c = ',' || c = ']'

theorem endsPart_cases {back : List Char} (h : EndsPart back = true) :
    ∃ rest, back = ',' :: rest ∨ back = ']' :: rest := by
  cases back with
  | nil => cases h
  | cons c back =>
    simp only [EndsPart, Bool.or_eq_true, decide_eq_true_eq] at h
    rcases h with rfl | rfl
    · exact ⟨back, Or.inl rfl⟩
    · exact ⟨back, Or.inr rfl⟩

section
variable {s : ReadState}

theorem moveTo_part {c : Char} (hc : c ∈ partChars) (cs : List Char) (offset : Nat) :
    (s.moveTo ⟨c :: cs, offset⟩).StandsAt (c :: cs) ∧ (s.moveTo ⟨c :: cs, offset⟩).start = ⟨c :: cs, offset⟩ :=
  ReadState.moveTo_standsAt (skipGap_part hc s.context.pageComments cs offset (offset = 0))

theorem moveTo_blank {c : Char} (hc : c ∈ partChars) (cs : List Char) (offset : Nat) :
    (s.moveTo ⟨' ' :: c :: cs, offset⟩).StandsAt (c :: cs) ∧
      (s.moveTo ⟨' ' :: c :: cs, offset⟩).start = ⟨c :: cs, offset + 1⟩ :=
  ReadState.moveTo_standsAt (skipGap_part hc s.context.pageComments cs (offset + 1) (offset = 0))

theorem past_part {back : List Char} (hback : EndsPart back = true) (text : List Char) :
    (s.past text back).StandsAt back ∧ (s.past text back).start = s.start.past text back := by
  obtain ⟨rest, rfl | rfl⟩ := endsPart_cases hback
  · exact moveTo_part (by decide) rest _
  · exact moveTo_part (by decide) rest _

theorem past_standsAt {back : List Char} (hback : EndsPart back = true) (text : List Char) :
    (s.past text back).StandsAt back :=
  (past_part hback text).1

end

namespace Reader

variable {rules : Rules} {s : ReadState}

theorem operator?_punct {text : String} {rest : List Char} (h : s.token = .punct text)
    (hangle : text ≠ "<" ∧ text ≠ ">") (hread : readPunct [text] s.start.rest = some (text, rest)) :
    operator? s = some (some (text, s.start.past text.toList rest), s) := by
  rw [operator?, bind_of_eq_some (p := get) rfl]
  dsimp only
  rw [h]
  simp only [hangle, if_false, hread]
  rfl

theorem operator?_of_endsPart {back : List Char} (hs : s.StandsAt back) (hback : EndsPart back = true) :
    ∃ text after, (text = "," ∨ text = "]") ∧ s.token = .punct text ∧
      operator? s = some (some (text, after), s) := by
  obtain ⟨rest, rfl | rfl⟩ := endsPart_cases hback
  · exact ⟨",", _, Or.inl rfl, hs.token, operator?_punct hs.token (by decide) (by rw [hs.rest]; rfl)⟩
  · exact ⟨"]", _, Or.inr rfl, hs.token, operator?_punct hs.token (by decide) (by rw [hs.rest]; rfl)⟩

theorem continuesOperand_of_endsPart {back : List Char} (hs : s.StandsAt back) (hback : EndsPart back = true) :
    s.token.continuesOperand = false := by
  obtain ⟨text, -, htext, htoken, -⟩ := operator?_of_endsPart hs hback
  rw [htoken]
  rcases htext with rfl | rfl <;> rfl

theorem within_eq {α : Type} {change : Context → Context} {p : Reader α} {a : α} {s₁ : ReadState}
    (h : p { s with context := change s.context } = some (a, s₁)) :
    within change p s = some (a, { s₁ with context := s.context }) := by
  rw [within, bind_of_eq_some (p := context) rfl, bind_of_eq_some (p := modify _) rfl, bind_of_eq_some h]
  rfl

theorem within_past {α : Type} {change : Context → Context} {p : Reader α} {a : α} {text back : List Char}
    (hpage : (change s.context).pageComments = s.context.pageComments)
    (h : p { s with context := change s.context } =
      some (a, ReadState.past { s with context := change s.context } text back)) :
    within change p s = some (a, s.past text back) := by
  rw [within_eq h]
  simp only [ReadState.past, ReadState.moveTo, ReadState.scan, hpage]

theorem enclosed_same {α : Type} {p : Reader α} {a : α}
    (h : ∀ context : Context, p { s with context := context } = some (a, { s with context := context })) :
    enclosed p s = some (a, s) := by
  rw [enclosed, within_eq (h _)]

theorem enclosed_past {α : Type} {p : Reader α} {a : α} {text back : List Char}
    (h : ∀ context : Context, p { s with context := context } =
      some (a, ReadState.past { s with context := context } text back)) : enclosed p s =
        some (a, s.past text back) :=
  within_past rfl (h _)

/-! ## From operands to elements -/

section
variable {t : Tree} {next : ReadState} {back : List Char} (hnext : next.StandsAt back)
  (hback : EndsPart back = true)
include hnext hback

theorem binaryRule_part {level : Nat} (hprivate : ∀ text, s.token ≠ .privateName text)
    (h : rules .unary s = some (t, next)) : binaryRule rules level s = some (t, next) := by
  obtain ⟨text, after, htext, -, hoperator⟩ := operator?_of_endsPart hnext hback
  have hstep : binaryStep rules s.start.offset level t next = some (none, next) := by
    rw [binaryStep, bind_of_eq_some hoperator]
    rcases htext with rfl | rfl <;> rfl
  rw [binaryRule, bind_of_eq_some (p := here) rfl, bind_of_eq_some (p := token) rfl]
  cases htoken : s.token with
  | privateName text => exact absurd htoken (hprivate text)
  | _ => exact (bind_of_eq_some h).trans (extend_of_none hstep)

end

/-- What starts here is neither a value handed out nor a private name nor an arrow function. -/
structure StartsPart (s : ReadState) : Prop where
  plain : s.token.isWord "yield" = false
  nameless : ∀ text, s.token ≠ .privateName text
  arrow : ∀ (rules : Rules) (colon : Bool), arrow? rules colon s = some (none, s)

theorem assignmentRule_part {t : Tree} {text back : List Char} (hback : EndsPart back = true)
    (hs : ∀ context : Context, StartsPart { s with context := context })
    (h : ∀ context : Context, rules (.binary 0) { s with context := context } =
      some (t, ReadState.past { s with context := context } text back)) :
    assignmentRule rules s = some (t, s.past text back) := by
  rw [assignmentRule, bind_of_eq_some (p := context) rfl]
  refine within_past rfl ?_
  generalize { s.context with arrowBeforeColon := false } = inner
  have hyield : isAtWord "yield" { s with context := inner } = some (false, { s with context := inner }) := by
    show some (s.token.isWord "yield", _) = _
    rw [(hs inner).plain]
  obtain ⟨text', after, htext, htoken, hoperator⟩ :=
    operator?_of_endsPart (past_standsAt (s := { s with context := inner }) hback text) hback
  have hquestion : isAt "?" (ReadState.past { s with context := inner } text back) =
      some (false, ReadState.past { s with context := inner } text back) := by
    apply isAt_of_ne
    rw [htoken]
    rcases htext with rfl | rfl <;> decide
  rw [bind_of_eq_some (p := context) rfl, bind_of_eq_some hyield, Bool.and_false, if_neg Bool.false_ne_true,
    bind_of_eq_some ((hs inner).arrow rules _)]
  dsimp only
  rw [bind_of_eq_some (p := here) rfl, bind_of_eq_some (h inner), bind_of_eq_some hquestion,
    if_neg Bool.false_ne_true, bind_of_eq_some hoperator]
  rcases htext with rfl | rfl <;> rfl

end Reader

/-- Where the goal is asked for, the text is read as the tree if a part of a list ends behind it. -/
def ReadsPart (goal : Goal) (text : List Char) (tree : Nat → Tree) : Prop :=
  ∃ least, ∀ (depth : Nat) (s : ReadState) (back : List Char), least ≤ depth → s.StandsAt (text ++ back) →
    EndsPart back = true → readersTo depth goal s = some (tree s.start.offset, s.past text back)

theorem ReadState.StandsAt.within {s : ReadState} {text : List Char} (hs : s.StandsAt text) (context : Context) :
    StandsAt { s with context := context } text :=
  ⟨hs.rest, hs.token, hs.after⟩

theorem ReadsPart.assignment {text : List Char} {tree : Nat → Tree} (h : ReadsPart .unary text tree)
    (hstart : ∀ (s : ReadState) (back : List Char), s.StandsAt (text ++ back) → EndsPart back = true →
      Reader.StartsPart s) : ReadsPart .assignment text tree := by
  obtain ⟨least, hunary⟩ := h
  refine ⟨least + 2, fun depth s back hdepth hs hback => ?_⟩
  obtain ⟨depth, rfl⟩ : ∃ d, depth = d + 2 := ⟨depth - 2, by omega⟩
  refine Reader.assignmentRule_part hback (fun context => hstart _ back (hs.within context) hback)
    fun context => ?_
  refine Reader.binaryRule_part (past_standsAt hback text) hback
    (hstart _ back (hs.within context) hback).nameless ?_
  exact hunary depth _ back (by omega) (hs.within context) hback

/-! ## Erased types and words -/

theorem detached_of_endsPart {back : List Char} (h : EndsPart back = true) : Detached back = true := by
  obtain ⟨rest, rfl | rfl⟩ := endsPart_cases h <;> rfl

theorem endsWord_of_endsPart {back : List Char} (h : EndsPart back = true) : EndsWord back = true :=
  (Bool.and_eq_true_iff.mp (detached_of_endsPart h)).1

theorem Reader.startsPart_of_opensOperand {s : ReadState} (h : s.token.opensOperand = true) : StartsPart s := by
  refine ⟨isWord_of_not_name (not_name_of_opensOperand h) (by decide), ?_, fun rules colon =>
    arrow?_of_opensOperand h⟩
  intro text htoken
  rw [htoken] at h
  simp [Token.opensOperand] at h

theorem erased_part : ReadsPart .assignment erasedText.toList voidZero := by
  have hunary : ReadsPart .unary erasedText.toList voidZero := by
    refine ⟨3, fun depth s back hdepth hs hback => ?_⟩
    obtain ⟨depth, rfl⟩ : ∃ d, depth = d + 3 := ⟨depth - 3, by omega⟩
    refine (readsErased hs).whole (detached_of_endsPart hback) ?_ depth
    exact Reader.continuesOperand_of_endsPart (past_standsAt hback _) hback
  refine hunary.assignment fun s back hs hback => Reader.startsPart_of_opensOperand ?_
  rw [token_void hs]
  decide

namespace Reader

variable {s : ReadState}

theorem binding_state : binding.Yields s fun _ s' => s' = s.following := by
  have hname : identifier?.Yields s fun _ s' => s' = s := by
    refine Yields.of_eq (p := context) rfl ?_
    refine Yields.of_eq (p := token) rfl ?_
    split
    · split
      · exact yields_pure rfl
      · exact yields_pure rfl
    · exact yields_pure rfl
  refine Yields.bind hname fun name? s₁ hs₁ => ?_
  subst hs₁
  cases name? with
  | none => exact yields_failure
  | some name =>
    refine Yields.of_eq (p := here) rfl ?_
    refine Yields.of_eq (p := skip) rfl ?_
    exact yields_node fun stop => rfl

theorem binding_without_arrow {α : Type} {last : Tree → Reader α} (hnext : s.following.token ≠ .punct "=>") :
    Yields (do
    let name ← binding
    require (!(← newline))
    expect "=>"
    last name) s fun _ _ => False := by
  refine Yields.bind binding_state fun name s₁ hs₁ => ?_
  subst hs₁
  refine Yields.of_eq (p := newline) rfl ?_
  refine Yields.bind (P := fun _ s' => s' = s.following) ?_ fun _ s₂ hs₂ => ?_
  · unfold require
    split
    · exact yields_pure rfl
    · exact yields_failure
  · subst hs₂
    exact Yields.none (bind_of_eq_none (expect_of_ne hnext))

theorem bareHead_of_word {text : String} (h : s.token = .word text false) (htext : text ≠ "async")
    (hnext : s.following.token ≠ .punct "=>") : bareHead s = none := by
  have hasync : eatWord "async" s = some (false, s) := by
    have hat : isAtWord "async" s = some (false, s) := by
      show some (s.token.isWord "async", s) = _
      rw [h, Token.isWord, decide_eq_false htext]
    rw [eatWord, bind_of_eq_some hat]
    rfl
  have hfails : bareHead.Yields s fun _ _ => False := by
    obtain ⟨b, hname⟩ := nextIs_state (fun next line => !line && isNameToken next) s
    refine Yields.of_eq (p := here) rfl ?_
    refine Yields.of_eq hname ?_
    -- whether a name could follow or not, the word itself is the parameter
    cases b with
    | true =>
      refine Yields.of_eq hasync ?_
      exact binding_without_arrow hnext
    | false =>
      refine Yields.of_eq (p := pure false) rfl ?_
      exact binding_without_arrow hnext
  cases hread : bareHead s with
  | none => rfl
  | some r => exact (hfails r.1 r.2 hread).elim

theorem startsPart_word {text : String} (htext : text ∈ runtimeWords) (h : s.token = .word text false)
    (hnext : s.following.token ≠ .punct "=>") : StartsPart s := by
  have hwords : text ≠ "yield" ∧ text ≠ "async" := by
    clear h
    revert text
    decide
  refine ⟨?_, by simp [h], fun rules colon => ?_⟩
  · rw [h, Token.isWord, decide_eq_false hwords.1]
  · have hchance : arrowChance s = some (.no, s) := by
      rw [arrowChance, bind_of_eq_some (p := token) rfl, h]
      refine congrFun (?_ : _ = (pure .no : Reader ArrowChance)) s
      split
      · rename_i heq; cases heq
      · rename_i heq; cases heq
      · rename_i heq
        exact absurd (Token.word.inj heq).1 hwords.2
      · rfl
    have hattempt : attempt bareHead s = some (none, s) := by
      rw [attempt, bareHead_of_word h hwords.2 hnext]
    rw [arrow?, bind_of_eq_some hchance]
    exact bind_of_eq_some hattempt

end Reader

theorem word_part {text : String} (htext : text ∈ runtimeWords) :
    ReadsPart .assignment text.toList (wordAt text) := by
  have hunary : ReadsPart .unary text.toList (wordAt text) := by
    refine ⟨2, fun depth s back hdepth hs hback => ?_⟩
    obtain ⟨depth, rfl⟩ : ∃ d, depth = d + 2 := ⟨depth - 2, by omega⟩
    refine (readsWord htext hs).whole (endsWord_of_endsPart hback) ?_ depth
    exact Reader.continuesOperand_of_endsPart (past_standsAt hback _) hback
  refine hunary.assignment fun s back hs hback => ?_
  have hends := endsWord_of_endsPart hback
  refine Reader.startsPart_word htext ((readsWord htext hs).token.mpr hends) ?_
  obtain ⟨next, -, hnext, htoken, -⟩ :=
    Reader.operator?_of_endsPart (past_standsAt (s := s) hback text.toList) hback
  rw [hs.following, readLexeme_runtimeWord htext hends, htoken]
  rcases hnext with rfl | rfl <;> simp

/-! ## Lists -/

def listText (members : List Tree) : String := "[" ++ ", ".intercalate (runtimeTypes members) ++ "]"

mutual

def runtimeTree : Tree → Nat → Tree
  | .node .parenthesizedType _ [inner], pos => runtimeTree inner pos
  | .node .unionType _ members, pos =>
    .node .array ⟨pos, pos + byteLength (listText members).toList⟩ (runtimeTrees members (pos + 1))
  | t, pos => if runtimeType t = erasedText then voidZero pos else wordAt (runtimeType t) pos

def runtimeTrees : List Tree → Nat → List Tree
  | [], _ => []
  | t :: ts, pos => runtimeTree t pos :: runtimeTrees ts (pos + byteLength (runtimeType t).toList + 2)

end

def listTree (members : List Tree) (pos : Nat) : Tree :=
  .node .array ⟨pos, pos + byteLength (listText members).toList⟩ (runtimeTrees members (pos + 1))

section
variable {t : Tree} (hinner : ∀ span inner, t ≠ .node .parenthesizedType span [inner])
  (hmembers : ∀ span members, t ≠ .node .unionType span members)
include hinner hmembers

theorem runtimeType_leaf : runtimeType t = erasedText ∨ runtimeType t ∈ runtimeWords := by
  unfold runtimeType
  split
  case h_11 span inner => exact absurd rfl (hinner span inner)
  case h_12 span members => exact absurd rfl (hmembers span members)
  case h_13 => exact Or.inl rfl
  all_goals exact Or.inr (by decide)

theorem runtimeTree_leaf (pos : Nat) :
    runtimeTree t pos = if runtimeType t = erasedText then voidZero pos else wordAt (runtimeType t) pos := by
  unfold runtimeTree
  split
  · exact absurd rfl (hinner _ _)
  · exact absurd rfl (hmembers _ _)
  · rfl

end

theorem runtimeType_cases (t : Tree) :
    (∃ members, (∀ m ∈ members, sizeOf m < sizeOf t) ∧
      runtimeType t = listText members ∧ runtimeTree t = listTree members) ∨
    runtimeType t = erasedText ∧ runtimeTree t = voidZero ∨
    runtimeType t ∈ runtimeWords ∧ runtimeTree t = wordAt (runtimeType t) := by
  by_cases hinner : ∃ span inner, t = .node .parenthesizedType span [inner]
  · obtain ⟨span, inner, rfl⟩ := hinner
    have htype : runtimeType (.node .parenthesizedType span [inner]) = runtimeType inner := by rw [runtimeType]
    have htree : runtimeTree (.node .parenthesizedType span [inner]) = runtimeTree inner := by
      funext pos
      rw [runtimeTree]
    rw [htype, htree]
    rcases runtimeType_cases inner with ⟨members, hsmall, hlist⟩ | h
    · refine Or.inl ⟨members, fun m hm => ?_, hlist⟩
      have := hsmall m hm
      simp only [Tree.node.sizeOf_spec, List.cons.sizeOf_spec]
      omega
    · exact Or.inr h
  by_cases hmembers : ∃ span members, t = .node .unionType span members
  · obtain ⟨span, members, rfl⟩ := hmembers
    refine Or.inl ⟨members, fun m hm => ?_, by rw [runtimeType, listText], by
        funext pos; rw [runtimeTree, listTree]⟩
    have := List.sizeOf_lt_of_mem hm
    simp only [Tree.node.sizeOf_spec]
    omega
  · simp only [not_exists] at hinner hmembers
    have htree := runtimeTree_leaf hinner hmembers
    rcases runtimeType_leaf hinner hmembers with herased | hword
    · refine Or.inr (Or.inl ⟨herased, funext fun pos => ?_⟩)
      rw [htree, if_pos herased]
    · refine Or.inr (Or.inr ⟨hword, funext fun pos => ?_⟩)
      have hne : runtimeType t ≠ erasedText := by
        intro heq
        rw [heq] at hword
        revert hword
        decide
      rw [htree, if_neg hne]

def partsText (members : List Tree) : List Char := (", ".intercalate (runtimeTypes members)).toList

theorem partsText_cons (t u : Tree) (ts : List Tree) :
    partsText (t :: u :: ts) = (runtimeType t).toList ++ ',' :: ' ' :: partsText (u :: ts) := by
  simp only [partsText, runtimeTypes, String.intercalate_cons_cons, String.toList_append, List.append_assoc]
  rfl

theorem byteLength_partsText (t u : Tree) (ts : List Tree) : byteLength (partsText (t :: u :: ts)) =
    byteLength (runtimeType t).toList + 2 + byteLength (partsText (u :: ts)) := by
  have hcomma : ','.utf8Size = 1 := rfl
  have hblank : ' '.utf8Size = 1 := rfl
  rw [partsText_cons, byteLength_append, byteLength_cons, byteLength_cons, hcomma, hblank]
  omega

theorem listText_toList (members : List Tree) :
    (listText members).toList = '[' :: (partsText members ++ [']']) := by
  simp only [listText, partsText, String.toList_append]
  rfl

theorem runtimeType_head (t : Tree) : ∃ c w, (runtimeType t).toList = c :: w ∧ c ∈ partChars := by
  have hwords : ∀ text ∈ runtimeWords, text.toList ≠ [] ∧ text.toList.head?.all (· ∈ partChars) = true := by decide
  rcases runtimeType_cases t with ⟨members, -, hlist, -⟩ | ⟨herased, -⟩ | ⟨hword, -⟩
  · rw [hlist, listText_toList]
    exact ⟨'[', _, rfl, by decide⟩
  · rw [herased]
    exact ⟨'v', _, rfl, by decide⟩
  · obtain ⟨hne, hhead⟩ := hwords _ hword
    cases htext : (runtimeType t).toList with
    | nil => exact absurd htext hne
    | cons c w =>
      rw [htext, List.head?_cons, Option.all_some, decide_eq_true_eq] at hhead
      exact ⟨c, w, rfl, hhead⟩

theorem partsText_head (t : Tree) (ts : List Tree) : ∃ c w, partsText (t :: ts) = c :: w ∧ c ∈ partChars := by
  obtain ⟨c, w, htext, hc⟩ := runtimeType_head t
  cases ts with
  | nil => exact ⟨c, w, by rw [partsText, runtimeTypes, runtimeTypes, String.intercalate_singleton, htext], hc⟩
  | cons u ts => exact ⟨c, _, by rw [partsText_cons, htext, List.cons_append], hc⟩

theorem length_le_partsText : ∀ members : List Tree, members.length ≤ (partsText members).length
  | [] => Nat.zero_le _
  | [t] => by
    obtain ⟨c, w, htext, -⟩ := partsText_head t []
    rw [htext]
    simp
  | t :: u :: ts => by
    have ih := length_le_partsText (u :: ts)
    rw [partsText_cons]
    simp only [List.length_cons, List.length_append] at ih ⊢
    omega

theorem token_list {s : ReadState} {members : List Tree} {back : List Char}
    (hs : s.StandsAt ((listText members).toList ++ back)) : s.token = .punct "[" := by
  rw [hs.token, listText_toList]
  rfl

theorem token_of_part {s : ReadState} {t : Tree} {back : List Char}
    (hs : s.StandsAt ((runtimeType t).toList ++ back))
    (hback : EndsPart back = true) : ∀ text ∈ ["]", ",", "..."], s.token ≠ .punct text := by
  rcases runtimeType_cases t with ⟨members, -, hlist, -⟩ | ⟨herased, -⟩ | ⟨hword, -⟩
  · rw [hlist] at hs
    rw [token_list hs]
    decide
  · rw [herased] at hs
    rw [token_void hs]
    decide
  · rw [(readsWord hword hs).token.mpr (endsWord_of_endsPart hback)]
    simp

namespace Reader

variable {rules : Rules} {s : ReadState}

theorem collect_none {α : Type} {step : Reader (Option α)} {s' : ReadState}
    (h : step s = some (none, s')) (n : Nat) :
    collect step (n + 1) s = some ([], s') := by
  rw [collect, bind_of_eq_some h]
  rfl

theorem collect_some {α : Type} {step : Reader (Option α)} {a : α} {as : List α} {s₁ s₂ : ReadState} {n : Nat}
    (h : step s = some (some a, s₁)) (hrest : collect step n s₁ = some (as, s₂)) :
    collect step (n + 1) s = some (a :: as, s₂) := by
  rw [collect, bind_of_eq_some h]
  dsimp only
  rw [bind_of_eq_some hrest]
  rfl

def elementStep (item : Reader Tree) : Reader (Option Tree) := do
  if ← isAt "]" then return none
  if ← isAt "," then return some (← leaf .hole)
  let element ← item
  unless ← eat "," do require (← isAt "]")
  return some element

theorem elementsWithHoles_eq (item : Reader Tree) :
    elementsWithHoles item s = collect (elementStep item) (s.start.rest.length + 1) s := rfl

theorem elementStep_end {item : Reader Tree} (h : s.token = .punct "]") : elementStep item s = some (none, s) := by
  rw [elementStep, bind_of_eq_some (isAt_of_eq h)]
  rfl

section
variable {item : Reader Tree} {t : Tree} {next : ReadState} (hclose : s.token ≠ .punct "]")
  (hcomma : s.token ≠ .punct ",") (hitem : item s = some (t, next))
include hclose hcomma hitem

theorem elementStep_comma (h : next.token = .punct ",") : elementStep item s = some (some t, next.following) := by
  rw [elementStep, bind_of_eq_some (isAt_of_ne hclose), if_neg Bool.false_ne_true,
    bind_of_eq_some (isAt_of_ne hcomma), if_neg Bool.false_ne_true, bind_of_eq_some hitem,
      bind_of_eq_some (eat_of_eq h)]
  rfl

theorem elementStep_last (h : next.token = .punct "]") : elementStep item s = some (some t, next) := by
  rw [elementStep, bind_of_eq_some (isAt_of_ne hclose), if_neg Bool.false_ne_true,
    bind_of_eq_some (isAt_of_ne hcomma), if_neg Bool.false_ne_true, bind_of_eq_some hitem,
      bind_of_eq_some (eat_of_ne (by simp [h])),
    if_neg Bool.false_ne_true, bind_of_eq_some (isAt_of_eq h)]
  rfl

end

theorem spreadable_of_ne (h : s.token ≠ .punct "...") : spreadable rules s = rules .assignment s := by
  rw [spreadable, bind_of_eq_some (isAt_of_ne h)]
  rfl

end Reader

theorem past_comma {s : ReadState} (text rest : List Char) : (s.past text (',' :: rest)).following =
    s.moveTo ⟨rest, s.start.offset + byteLength text + 1⟩ := by
  obtain ⟨hcomma, hstart⟩ := @past_part s (',' :: rest) rfl text
  rw [hcomma.following, ReadState.past, hstart]
  rfl

/-- The parts of a list are read one after the other, up to the bracket. -/
theorem parts_read : ∀ (ts : List Tree) (t : Tree),
    (∀ m ∈ t :: ts, ReadsPart .assignment (runtimeType m).toList (runtimeTree m)) →
      ∃ least, ∀ (depth : Nat) (s : ReadState) (back : List Char) (n : Nat), least ≤ depth → ts.length + 1 < n →
        s.StandsAt (partsText (t :: ts) ++ ']' :: back) →
          Reader.collect (Reader.elementStep (Reader.spreadable (readersTo depth))) n s =
            some (runtimeTrees (t :: ts) s.start.offset, s.past (partsText (t :: ts)) (']' :: back)) := by
  intro ts
  induction ts with
  | nil =>
    intro t h
    obtain ⟨least, hread⟩ := h t (List.mem_cons_self ..)
    have htext : partsText [t] = (runtimeType t).toList := by
      rw [partsText, runtimeTypes, runtimeTypes, String.intercalate_singleton]
    refine ⟨least, fun depth s back n hdepth hn hs => ?_⟩
    rw [htext] at hs ⊢
    obtain ⟨n, rfl⟩ : ∃ k, n = k + 2 := ⟨n - 2, by simp at hn; omega⟩
    have htoken := token_of_part hs rfl
    have hitem :=
      (Reader.spreadable_of_ne (htoken "..." (by simp))).trans (hread depth s (']' :: back) hdepth hs rfl)
    have hend : (s.past (runtimeType t).toList (']' :: back)).token = .punct "]" :=
      (@past_standsAt s (']' :: back) rfl _).token
    refine Reader.collect_some
      (Reader.elementStep_last (htoken "]" (by simp)) (htoken "," (by simp)) hitem hend) ?_
    exact Reader.collect_none (Reader.elementStep_end hend) n
  | cons u ts ih =>
    intro t h
    obtain ⟨least₁, hread⟩ := h t (List.mem_cons_self ..)
    obtain ⟨least₂, hrest⟩ := ih u fun m hm => h m (List.mem_cons_of_mem _ hm)
    refine ⟨max least₁ least₂, fun depth s back n hdepth hn hs => ?_⟩
    rw [Nat.max_le] at hdepth
    obtain ⟨n, rfl⟩ : ∃ k, n = k + 1 := ⟨n - 1, by omega⟩
    obtain ⟨c, w, hhead, hc⟩ := partsText_head u ts
    -- the comma and the blank behind the first part are passed
    rw [partsText_cons, List.append_assoc, List.cons_append, List.cons_append] at hs
    have htoken := token_of_part hs rfl
    have hitem := (Reader.spreadable_of_ne (htoken "..." (by simp))).trans (hread depth s _ hdepth.1 hs rfl)
    have hcomma : (s.past (runtimeType t).toList (',' :: ' ' :: (partsText (u :: ts) ++ ']' :: back))).token =
        .punct "," := (past_standsAt rfl _).token
    refine Reader.collect_some
      (Reader.elementStep_comma (htoken "]" (by simp)) (htoken "," (by simp)) hitem hcomma) ?_
    obtain ⟨hs₁, hstart₁⟩ := @moveTo_blank s c hc (w ++ ']' :: back)
      (s.start.offset + byteLength (runtimeType t).toList + 1)
    rw [← List.cons_append, ← hhead] at hs₁ hstart₁
    have hread₁ := hrest depth _ back n hdepth.2 (by simp at hn ⊢; omega) hs₁
    rw [past_comma, hread₁, ReadState.past, Cursor.past, hstart₁, ReadState.past, Cursor.past,
      byteLength_partsText, ← Nat.add_assoc, ← Nat.add_assoc]
    rfl

theorem elements_read (members : List Tree)
    (h : ∀ m ∈ members, ReadsPart .assignment (runtimeType m).toList (runtimeTree m)) :
    ∃ least, ∀ (depth : Nat) (s : ReadState) (back : List Char) (offset : Nat), least ≤ depth →
      Reader.enclosed (Reader.elementsWithHoles (Reader.spreadable (readersTo depth)))
          (s.moveTo ⟨partsText members ++ ']' :: back, offset⟩) =
        some (runtimeTrees members offset, s.moveTo ⟨']' :: back, offset + byteLength (partsText members)⟩) := by
  cases members with
  | nil =>
    refine ⟨0, fun depth s back offset _ => ?_⟩
    obtain ⟨hs, -⟩ := @moveTo_part s ']' (by decide) back offset
    exact Reader.enclosed_same fun context => (Reader.elementsWithHoles_eq _).trans
      (Reader.collect_none (Reader.elementStep_end (hs.within context).token) _)
  | cons t ts =>
    obtain ⟨least, hparts⟩ := parts_read ts t h
    refine ⟨least, fun depth s back offset hdepth => ?_⟩
    obtain ⟨c, w, hhead, hc⟩ := partsText_head t ts
    obtain ⟨hs, hstart⟩ := @moveTo_part s c hc (w ++ ']' :: back) offset
    rw [← List.cons_append, ← hhead] at hs hstart
    generalize hx : s.moveTo ⟨partsText (t :: ts) ++ ']' :: back, offset⟩ = x at hs hstart
    have hmany : ts.length + 1 < x.start.rest.length + 1 := by
      have := length_le_partsText (t :: ts)
      rw [hs.rest]
      simp only [List.length_cons, List.length_append] at this ⊢
      omega
    have hread : Reader.enclosed (Reader.elementsWithHoles (Reader.spreadable (readersTo depth))) x =
        some (runtimeTrees (t :: ts) x.start.offset, x.past (partsText (t :: ts)) (']' :: back)) :=
      Reader.enclosed_past fun context => (Reader.elementsWithHoles_eq _).trans
        (hparts depth _ back _ hdepth hmany (hs.within context))
    rw [hread, ReadState.past, Cursor.past, hstart, ← hx]
    rfl

/-- A list is read as an operand, whatever follows it. -/
theorem list_operand (members : List Tree)
    (h : ∀ m ∈ members, ReadsPart .assignment (runtimeType m).toList (runtimeTree m)) :
    ∃ least, ∀ (depth : Nat) (s : ReadState) (back : List Char), least ≤ depth →
      s.StandsAt ((listText members).toList ++ back) →
        Reader.primary (readersTo depth) s =
          some (listTree members s.start.offset, s.past (listText members).toList back) := by
  obtain ⟨least, helements⟩ := elements_read members h
  refine ⟨least, fun depth s back hdepth hs => ?_⟩
  have hlength : byteLength (listText members).toList = 1 + byteLength (partsText members) + 1 := by
    rw [listText_toList, byteLength_cons, byteLength_append]
    rfl
  rw [listText_toList, List.cons_append, List.append_assoc, List.singleton_append] at hs
  have hopen : s.token = .punct "[" := hs.token
  have hnext : s.following = s.moveTo ⟨partsText members ++ ']' :: back, s.start.offset + 1⟩ := by
    rw [hs.following]
    rfl
  obtain ⟨hclose, hstart⟩ := @moveTo_part s ']' (by decide) back
    (s.start.offset + 1 + byteLength (partsText members))
  have hlast : (s.moveTo ⟨']' :: back, s.start.offset + 1 + byteLength (partsText members)⟩).following =
      s.past (listText members).toList back := by
    rw [hclose.following, ReadState.past, hstart, ReadState.past, Cursor.past, Cursor.past, hlength,
      ← Nat.add_assoc, ← Nat.add_assoc]
    rfl
  rw [Reader.primary, Reader.bind_of_eq_some (p := Reader.token) rfl, hopen]
  show Reader.arrayLiteral (readersTo depth) s = _
  rw [Reader.arrayLiteral, Reader.bind_of_eq_some (p := Reader.here) rfl,
    Reader.bind_of_eq_some (Reader.expect_of_eq hopen), hnext,
      Reader.bind_of_eq_some (helements depth s back _ hdepth),
    Reader.bind_of_eq_some (Reader.expect_of_eq hclose.token), hlast]
  rfl

theorem list_part (members : List Tree)
    (h : ∀ m ∈ members, ReadsPart .assignment (runtimeType m).toList (runtimeTree m)) :
    ReadsPart .assignment (listText members).toList (listTree members) := by
  have hunary : ReadsPart .unary (listText members).toList (listTree members) := by
    obtain ⟨least, hoperand⟩ := list_operand members h
    refine ⟨least + 2, fun depth s back hdepth hs hback => ?_⟩
    obtain ⟨depth, rfl⟩ : ∃ d, depth = d + 2 := ⟨depth - 2, by omega⟩
    refine Reader.unary_whole (hoperand depth s back (by omega) hs)
      (Reader.unaryRule_of_opening (Or.inl rfl) (token_list hs)) ?_
    exact Reader.continuesOperand_of_endsPart (past_standsAt hback _) hback
  refine hunary.assignment fun s back hs hback => Reader.startsPart_of_opensOperand ?_
  rw [token_list hs]
  decide

/-- The text of every runtime type is read as an element of a list. -/
theorem runtime_part (t : Tree) : ReadsPart .assignment (runtimeType t).toList (runtimeTree t) := by
  rcases runtimeType_cases t with ⟨members, hsmall, htext, htree⟩ | ⟨htext, htree⟩ | ⟨htext, htree⟩
  · rw [htext, htree]
    exact list_part members fun m hm => runtime_part m
  · rw [htext, htree]
    exact erased_part
  · rw [htree]
    exact word_part htext
termination_by sizeOf t
decreasing_by exact hsmall m hm

theorem Reader.bracket_opens :
    ∀ depth, Opens (.punct "[") (Tree.LiteralAt .array .arrayTarget) (readersTo depth) := by
  refine opens_literal .array (by decide) (fun rules s hs => unaryRule_of_opening (Or.inl rfl) hs rules) ?_
  intro rules s hs
  refine Yields.of_eq (p := token) rfl ?_
  rw [hs]
  refine Yields.of_eq (p := here) rfl ?_
  refine Yields.skip fun _ s₁ => Yields.skip fun elements s₂ => Yields.skip fun _ s₃ => ?_
  exact yields_node fun stop => ⟨Or.inl rfl, rfl⟩

/-- How a list of types is read: as the list of what its parts are read as, wherever accesses and calls
are asked for, and with it at the start wherever an expression is asked for. -/
structure ReadState.ReadsList (s : ReadState) (members : List Tree) (back : List Char) : Prop where
  operand : ∃ least, ∀ depth : Nat, least ≤ depth → Reader.primary (readersTo depth) s =
    some (listTree members s.start.offset, s.past (listText members).toList back)
  loose : ∀ (depth : Nat) (goal : Goal) (t : Tree) (s' : ReadState), goal.asksExpression = true →
    readersTo depth goal s = some (t, s') → t.StartsWith (Tree.LiteralAt .array .arrayTarget s.start.offset)

theorem readsList {s : ReadState} {members : List Tree} {back : List Char}
    (hs : s.StandsAt ((listText members).toList ++ back)) : s.ReadsList members back := by
  constructor
  · obtain ⟨least, hoperand⟩ := list_operand members fun m _ => runtime_part m
    exact ⟨least, fun depth hdepth => hoperand depth s back hdepth hs⟩
  · intro depth goal t s' hgoal h
    exact Reader.bracket_opens depth goal hgoal s (token_list hs) t s' h

end ComponentMacros
