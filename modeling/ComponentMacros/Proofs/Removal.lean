import ComponentMacros.Proofs.Gap
import ComponentMacros.Proofs.Members
import ComponentMacros.Proofs.Slots

/-!
# Removed members

Members are removed one by one, each up to the next member; the last one goes with
the comma behind it, if only plain blanks stand between them. What is left is read
as the literal of the other members, unless the comma of a removed last member was
missed: a comma with no member before it is no literal.
-/

namespace ComponentMacros

/-! ## Moving trees -/

mutual

/-- The tree with offsets counted from `pos` instead of `lo`. -/
def Tree.shifted (lo pos : Nat) : Tree → Tree
  | .node kind span children =>
    .node kind ⟨pos + (span.start - lo), pos + (span.stop - lo)⟩ (shiftedAll lo pos children)

def shiftedAll (lo pos : Nat) : List Tree → List Tree
  | [] => []
  | t :: ts => t.shifted lo pos :: shiftedAll lo pos ts

end

def Tree.movedTo (t : Tree) (pos : Nat) : Tree := t.shifted t.span.start pos

/-! ## Spacing -/

/-- Every member starts with a token, and members have commas between them, with nothing but blanks and
comments around. -/
def areSpaced (page : PageComments) : List Slot → Bool
  | [] => true
  | [slot] => opensToken slot.text && (isGap page slot.behind || isSeparator page slot.behind)
  | slot :: next :: slots =>
    opensToken slot.text && isSeparator page slot.behind && areSpaced page (next :: slots)

/-- What a parser promises about the text between the members of an object literal. -/
def Tree.Spaced (page : PageComments) (source : List Char) (object : Tree) : Prop :=
  isGap page (object.lead source) = true ∧ areSpaced page (object.slots source) = true

instance (page : PageComments) (source : List Char) (object : Tree) : Decidable (object.Spaced page source) :=
  inferInstanceAs (Decidable (_ ∧ _))

def Slot.missesComma (page : PageComments) (slot : Slot) : Bool :=
  slot.taken.isEmpty && isSeparator page slot.behind

def leavesComma (page : PageComments) (indices : List Nat) (slots : List Slot) : Bool :=
  slots.getLast?.any fun slot => slot.index ∈ indices && slot.missesComma page

def keptSlots (indices : List Nat) (slots : List Slot) : List Slot :=
  slots.filter (·.index ∉ indices)

def placed : Nat → List Slot → List Tree
  | _, [] => []
  | pos, slot :: slots => slot.member.movedTo pos :: placed (pos + byteLength slot.written) slots

/-- Wherever the slot stands before the text `back`, its member is read there as it is. -/
def Slot.Reads (rules : Rules) (context : Context) (slot : Slot) (back : List Char) : Prop :=
  ∀ s : ReadState, s.context = context → s.StandsAt (slot.written ++ back) →
    ∃ flag, Reader.objectMember rules s = some (slot.member.movedTo s.start.offset,
      ({ s with moduleSyntax := flag }).past slot.text (slot.behind ++ back))

/-! ## What members take -/

/-- A last member takes nothing, or plain blanks and a comma. -/
def Slot.TakesComma (slot : Slot) : Prop :=
  slot.taken = [] ∨ ∃ blanks, slot.taken = blanks ++ [','] ∧ ∀ c ∈ blanks, isMemberBlank c = true

def LeavesLast : List Slot → Prop
  | [] => True
  | [slot] => slot.TakesComma
  | slot :: next :: slots => slot.left = [] ∧ LeavesLast (next :: slots)

theorem trailingCommaEnd_taken {source : List Char} {pos : Nat} (h : IsBoundary source pos) :
    textBetween source pos (trailingCommaEnd source pos) = [] ∨
      ∃ blanks, textBetween source pos (trailingCommaEnd source pos) = blanks ++ [','] ∧
        ∀ c ∈ blanks, isMemberBlank c = true := by
  obtain ⟨rest, hrest⟩ := isBoundary_iff.mp h
  have hbetween : ∀ taken after, rest = taken ++ after →
      textBetween source pos (pos + byteLength taken) = taken := by
    rintro taken after rfl
    rw [textBetween, slice?, if_pos (Nat.le_add_right ..), hrest, Option.bind_some, Nat.add_sub_cancel_left,
      takeBytes_append]
    rfl
  unfold trailingCommaEnd
  rw [hrest]
  dsimp only
  split
  · rename_i after hafter
    refine Or.inr ⟨rest.takeWhile isMemberBlank, ?_, fun c hc => List.all_eq_true.mp List.all_takeWhile c hc⟩
    rw [Nat.add_assoc]
    refine hbetween (rest.takeWhile isMemberBlank ++ [',']) after ?_ ▸ ?_
    · rw [List.append_assoc, List.singleton_append, ← hafter, List.prefix_iff_eq_append.mp
        (List.takeWhile_prefix _)]
    · rw [byteLength_append]
      rfl
  · exact Or.inl (hbetween [] rest rfl)

theorem slotsFrom_leavesLast {source : List Char} {stop : Nat} : ∀ {members : List Tree} {i : Nat},
    (∀ m ∈ members, IsBoundary source m.span.stop) → LeavesLast (slotsFrom source stop i members)
  | [], _, _ => trivial
  | [m], _, h => trailingCommaEnd_taken (h m (List.mem_singleton_self m))
  | [_, _], _, h => ⟨rfl, slotsFrom_leavesLast fun n hn => h n (List.mem_cons_of_mem _ hn)⟩
  | _ :: _ :: _ :: _, _, h => ⟨rfl, slotsFrom_leavesLast fun n hn => h n (List.mem_cons_of_mem _ hn)⟩

theorem Slot.TakesComma.left {slot : Slot} (h : slot.TakesComma) {page : PageComments}
    (hbehind : isGap page slot.behind = true ∨ isSeparator page slot.behind = true) :
    if slot.missesComma page then isSeparator page slot.left = true else isGap page slot.left = true := by
  unfold missesComma
  rcases h with hnone | ⟨blanks, htaken, hblanks⟩
  · have hleft : slot.behind = slot.left := by rw [behind, hnone, List.nil_append]
    rw [hnone, List.isEmpty_nil, Bool.true_and]
    split
    · rename_i hcomma
      rwa [← hleft]
    · rename_i hcomma
      rw [← hleft]
      exact hbehind.resolve_right hcomma
  · have htext : slot.behind = blanks ++ ',' :: slot.left := by
      rw [behind, htaken, List.append_assoc, List.singleton_append]
    rw [htaken, if_neg (by simp)]
    -- the blanks are the gap before the comma
    rcases hbehind with hgap | hcomma
    · have heq :=
        @isGap_unique page slot.behind blanks [','] (',' :: (slot.left ++ [','])) hgap (isGap_blank hblanks)
        rfl rfl (by rw [htext]; simp)
      simp at heq
    · obtain ⟨before, after, hsplit, hbefore, hafter⟩ := isSeparator_iff.mp hcomma
      have heq := isGap_unique (isGap_blank hblanks) hbefore rfl rfl (htext.symm.trans hsplit)
      rw [(List.cons.inj heq).2]
      exact hafter

/-! ## Reading what is left -/

theorem Reader.within_none {α : Type} {change : Context → Context} {p : Reader α} {s : ReadState}
    (h : p { s with context := change s.context } = none) : within change p s = none := by
  rw [within, bind_of_eq_some (p := context) rfl, bind_of_eq_some (p := modify _) rfl, bind_of_eq_none h]

/-- The state stands before a text at an offset, in a context, with as many mistakes noted as in `s`. -/
structure ReadState.ComesTo (s last : ReadState) (text : List Char) (offset : Nat) : Prop where
  stands : last.StandsAt text
  start : last.start = ⟨text, offset⟩
  context : last.context = s.context
  faulty : last.faulty = s.faulty

theorem ReadState.comesTo_gap (s : ReadState) {gap : List Char} (hgap : isGap s.context.pageComments gap = true)
    (text : List Char) (htext : opensToken text = true) (offset : Nat) :
    s.ComesTo (s.moveTo ⟨gap ++ text, offset⟩) text (offset + byteLength gap) := by
  obtain ⟨hstands, hstart⟩ := ReadState.moveTo_gap hgap htext offset
  exact ⟨hstands, hstart, rfl, rfl⟩

theorem ReadState.ComesTo.moveTo {s last : ReadState} {text : List Char} {offset : Nat}
    (h : s.ComesTo last text offset)
    (cursor : Cursor) : last.moveTo cursor = ({ s with moduleSyntax := last.moduleSyntax }).moveTo cursor := by
  simp only [ReadState.moveTo, h.context, h.faulty]

theorem spaced_cons {page : PageComments} {slot : Slot} {slots : List Slot}
    (h : areSpaced page (slot :: slots) = true)
    (hleaves : LeavesLast (slot :: slots)) : opensToken slot.text = true ∧
      (isSeparator page slot.behind = true ∨ slots = [] ∧ isGap page slot.behind = true) ∧
      areSpaced page slots = true ∧ LeavesLast slots := by
  cases slots with
  | nil =>
    simp only [areSpaced, Bool.and_eq_true, Bool.or_eq_true] at h
    exact ⟨h.1, h.2.symm.imp_right fun hgap => ⟨rfl, hgap⟩, rfl, trivial⟩
  | cons next slots =>
    simp only [areSpaced, Bool.and_eq_true] at h
    exact ⟨h.1.1, Or.inl h.1.2, h.2, hleaves.2⟩

theorem leavesComma_cons {page : PageComments} {indices : List Nat} {slot : Slot} {slots : List Slot}
    (h : slot.index ∉ indices) : leavesComma page indices (slot :: slots) = leavesComma page indices slots := by
  cases slots with
  | nil => simp [leavesComma, h]
  | cons next slots => rw [leavesComma, leavesComma, List.getLast?_cons_cons]

namespace Reader

variable {rules : Rules} {indices : List Nat} {back : List Char}

theorem commaStep_of_comma {s : ReadState} (h : s.token = .punct ",") :
    commaStep "\x7d" (objectMember rules) s = none :=
  commaStep_none (by simp [h]) (objectMember_punct h (by decide))

theorem member_read {s : ReadState} {slot : Slot} {rest : List Char} (hreads : slot.Reads rules s.context rest)
    (hs : s.StandsAt (slot.written ++ rest)) :
    (∀ before after, slot.behind = before ++ ',' :: after → isGap s.context.pageComments before = true →
      ∃ next : ReadState, next.context = s.context ∧ next.faulty = s.faulty ∧
        commaStep "\x7d" (objectMember rules) s =
        some (some (slot.member.movedTo s.start.offset),
          next.moveTo ⟨after ++ rest, s.start.offset + byteLength slot.text + byteLength before + 1⟩)) ∧
    (isGap s.context.pageComments slot.behind = true → ∀ {back}, rest = '\x7d' :: back →
      ∃ next, commaStep "\x7d" (objectMember rules) s = some (some (slot.member.movedTo s.start.offset), next) ∧
        s.ComesTo next rest (s.start.offset + byteLength slot.written)) := by
  obtain ⟨flag, hmember⟩ := hreads s rfl hs
  have hopen : s.token ≠ .punct "\x7d" := by
    intro hclose
    rw [objectMember_punct hclose (by decide)] at hmember
    cases hmember
  constructor
  · intro before after hbehind hgap
    have hcomes := ({ s with moduleSyntax := flag }).comesTo_gap hgap (',' :: (after ++ rest)) rfl
      (s.start.offset + byteLength slot.text)
    have hpast : ({ s with moduleSyntax := flag }).past slot.text (slot.behind ++ rest) =
        ({ s with moduleSyntax := flag }).moveTo
          ⟨before ++ ',' :: (after ++ rest), s.start.offset + byteLength slot.text⟩ := by
      rw [hbehind, List.append_assoc, List.cons_append]
      rfl
    rw [hpast] at hmember
    refine ⟨_, hcomes.context, hcomes.faulty, ?_⟩
    rw [commaStep_comma hopen hmember hcomes.stands.token, hcomes.stands.following, ReadState.past, hcomes.start]
    rfl
  · rintro hgap back rfl
    have hcomes := ({ s with moduleSyntax := flag }).comesTo_gap hgap ('\x7d' :: back) rfl
      (s.start.offset + byteLength slot.text)
    refine ⟨_, commaStep_last hopen hmember (by decide) hcomes.stands.token, hcomes.stands, ?_, rfl, rfl⟩
    rw [Slot.written, byteLength_append, ← Nat.add_assoc]
    exact hcomes.start

/-- Behind any gap, the members that are left are read one after the other, unless a comma is left behind them. -/
def ReadsRemains (rules : Rules) (indices : List Nat) (back : List Char) (s : ReadState) (n : Nat)
    (slots : List Slot) :
    Prop :=
  ∀ (gap : List Char) (offset : Nat), isGap s.context.pageComments gap = true →
    ∃ last, s.ComesTo last ('\x7d' :: back)
        (offset + byteLength gap + byteLength (slots.flatMap (Slot.remains indices))) ∧
      collect (commaStep "\x7d" (objectMember rules)) n
          (s.moveTo ⟨gap ++ (slots.flatMap (Slot.remains indices) ++ '\x7d' :: back), offset⟩) =
        if leavesComma s.context.pageComments indices slots then none
        else some (placed (offset + byteLength gap) (keptSlots indices slots), last)

section
variable {s : ReadState} {n : Nat} {slot : Slot} {slots : List Slot}

theorem readsRemains_nil : ReadsRemains rules indices back s (n + 1) [] := by
  intro gap offset hgap
  have hcomes := s.comesTo_gap hgap ('\x7d' :: back) rfl offset
  exact ⟨_, hcomes, collect_none (commaStep_end hcomes.stands.token) n⟩

theorem readsRemains_removed_last (hspaced : areSpaced s.context.pageComments [slot] = true)
    (hleaves : slot.TakesComma)
    (hgone : slot.index ∈ indices) : ReadsRemains rules indices back s (n + 1) [slot] := by
  intro gap offset hgap
  have hkept : keptSlots indices [slot] = [] := by simp [keptSlots, hgone]
  have hmisses : leavesComma s.context.pageComments indices [slot] = slot.missesComma s.context.pageComments := by
    simp [leavesComma, hgone]
  have hleft := hleaves.left (Bool.or_eq_true_iff.mp (Bool.and_eq_true_iff.mp hspaced).2)
  rw [List.flatMap_cons, Slot.remains, if_pos hgone, List.flatMap_nil, List.append_nil, hmisses, hkept]
  split at hleft
  · -- no member stands before the comma that is left
    rename_i hmiss
    obtain ⟨before, after, htext, hbefore, -⟩ := isSeparator_iff.mp hleft
    have hcomes := s.comesTo_gap (isGap_append hgap hbefore) (',' :: (after ++ '\x7d' :: back)) rfl offset
    refine ⟨_, s.comesTo_gap (isGap_nil _) ('\x7d' :: back) rfl _, ?_⟩
    rw [if_pos hmiss, htext, List.append_assoc before, List.cons_append, ← List.append_assoc gap]
    exact collect_of_none (commaStep_of_comma hcomes.stands.token) n
  · rename_i hmiss
    have hcomes := s.comesTo_gap (isGap_append hgap hleft) ('\x7d' :: back) rfl offset
    rw [← List.append_assoc gap, Nat.add_assoc offset, ← byteLength_append]
    refine ⟨_, hcomes, ?_⟩
    rw [if_neg hmiss]
    exact collect_none (commaStep_end hcomes.stands.token) n

theorem readsRemains_removed {next : Slot} (hleaves : slot.left = []) (hgone : slot.index ∈ indices)
    (h : ReadsRemains rules indices back s n (next :: slots)) :
    ReadsRemains rules indices back s n (slot :: next :: slots) := by
  intro gap offset hgap
  have hkept : keptSlots indices (slot :: next :: slots) = keptSlots indices (next :: slots) := by
    simp [keptSlots, hgone]
  have hlast : leavesComma s.context.pageComments indices (slot :: next :: slots) =
      leavesComma s.context.pageComments indices (next :: slots) := by
    rw [leavesComma, leavesComma, List.getLast?_cons_cons]
  rw [List.flatMap_cons, Slot.remains, if_pos hgone, hleaves, List.nil_append, hkept, hlast]
  exact h gap offset hgap

theorem readsRemains_kept (hopens : opensToken slot.text = true)
    (hbehind : isSeparator s.context.pageComments slot.behind = true) (hkept : slot.index ∉ indices)
    (hreads : slot.Reads rules s.context (slots.flatMap (Slot.remains indices) ++ '\x7d' :: back))
    (h : ∀ next : ReadState, next.context = s.context → ReadsRemains rules indices back next n slots) :
    ReadsRemains rules indices back s (n + 1) (slot :: slots) := by
  intro gap offset hgap
  have hslots : keptSlots indices (slot :: slots) = slot :: keptSlots indices slots := by simp [keptSlots, hkept]
  rw [List.flatMap_cons, Slot.remains, if_neg hkept, List.append_assoc, byteLength_append, ← Nat.add_assoc,
    leavesComma_cons hkept, hslots]
  have hcomes := s.comesTo_gap hgap (slot.written ++ (slots.flatMap (Slot.remains indices) ++ '\x7d' :: back))
    (by rw [Slot.written, List.append_assoc]; exact opensToken_append hopens _) offset
  obtain ⟨before, after, htext, hbefore, hafter⟩ := isSeparator_iff.mp hbehind
  obtain ⟨next, hcontext, hfaulty, hstep⟩ :=
    (member_read (s := s.moveTo ⟨_, offset⟩) hreads hcomes.stands).1 before after htext hbefore
  have hcontext : next.context = s.context := hcontext
  rw [hcomes.start] at hstep
  have hlength : offset + byteLength gap + byteLength slot.text + byteLength before + 1 + byteLength after =
      offset + byteLength gap + byteLength slot.written := by
    rw [Slot.written, htext]
    simp only [byteLength_append, byteLength_cons, show (',').utf8Size = 1 from rfl]
    omega
  -- the others are read from behind the comma
  obtain ⟨last, hlast, hcollect⟩ := h next hcontext after
    (offset + byteLength gap + byteLength slot.text + byteLength before + 1) (by rwa [hcontext])
  rw [hlength] at hlast hcollect
  refine ⟨last, ⟨hlast.stands, hlast.start, hlast.context.trans hcontext, hlast.faulty.trans hfaulty⟩, ?_⟩
  rw [collect_of_some hstep, hcollect, hcontext]
  split <;> rfl

theorem readsRemains_kept_last (hopens : opensToken slot.text = true)
    (hbehind : isGap s.context.pageComments slot.behind = true) (hkept : slot.index ∉ indices)
    (hreads : slot.Reads rules s.context ('\x7d' :: back)) : ReadsRemains rules indices back s (n + 2) [slot] := by
  intro gap offset hgap
  have hslots : keptSlots indices [slot] = [slot] := by simp [keptSlots, hkept]
  rw [List.flatMap_cons, Slot.remains, if_neg hkept, List.flatMap_nil, List.append_nil,
    leavesComma_cons hkept, hslots]
  have hcomes := s.comesTo_gap hgap (slot.written ++ '\x7d' :: back)
    (by rw [Slot.written, List.append_assoc]; exact opensToken_append hopens _) offset
  obtain ⟨next, hstep, hnext⟩ := (member_read (s := s.moveTo ⟨_, offset⟩) hreads hcomes.stands).2 hbehind rfl
  rw [hcomes.start] at hstep hnext
  refine ⟨next, ⟨hnext.stands, hnext.start, hnext.context, hnext.faulty⟩, ?_⟩
  rw [collect_of_some hstep, collect_none (commaStep_end hnext.stands.token)]
  rfl

end

theorem members_read : ∀ {slots : List Slot} {s : ReadState} {n : Nat},
    areSpaced s.context.pageComments slots = true → LeavesLast slots →
    (∀ pre slot post, slots = pre ++ slot :: post → slot.index ∉ indices →
      slot.Reads rules s.context (post.flatMap (Slot.remains indices) ++ '\x7d' :: back)) →
    (keptSlots indices slots).length < n → ReadsRemains rules indices back s n slots
  | _, _, 0, _, _, _, hn => absurd hn (Nat.not_lt_zero _)
  | [], _, _ + 1, _, _, _, _ => readsRemains_nil
  | slot :: slots, s, n + 1, hspaced, hleaves, hreads, hn => by
    obtain ⟨hopens, hbehind, hspacedRest, hleavesRest⟩ := spaced_cons hspaced hleaves
    have hlater : ∀ pre other post, slots = pre ++ other :: post → other.index ∉ indices →
        other.Reads rules s.context (post.flatMap (Slot.remains indices) ++ '\x7d' :: back) := by
      intro pre other post hsplit hindex
      exact hreads (slot :: pre) other post (by rw [hsplit, List.cons_append]) hindex
    by_cases hgone : slot.index ∈ indices
    · cases slots with
      | nil => exact readsRemains_removed_last hspaced hleaves hgone
      | cons next slots =>
        refine readsRemains_removed hleaves.1 hgone (members_read hspacedRest hleavesRest hlater ?_)
        simpa [keptSlots, hgone] using hn
    · have hcount : (keptSlots indices slots).length < n := by
        simpa [keptSlots, hgone] using hn
      have hread := hreads [] slot slots rfl hgone
      rcases hbehind with hseparator | ⟨rfl, hgap⟩
      · refine readsRemains_kept hopens hseparator hgone hread fun next hcontext => ?_
        rw [← hcontext] at hspacedRest hlater
        exact members_read hspacedRest hleavesRest hlater hcount
      · obtain ⟨n, rfl⟩ : ∃ k, n = k + 1 := ⟨n - 1, by omega⟩
        exact readsRemains_kept_last hopens hgap hgone hread

theorem kept_le_length {page : PageComments} :
    ∀ {slots : List Slot}, areSpaced page slots = true → LeavesLast slots →
    (keptSlots indices slots).length ≤ (slots.flatMap (Slot.remains indices)).length
  | [], _, _ => Nat.zero_le _
  | slot :: slots, hspaced, hleaves => by
    obtain ⟨hopens, -, hspaced, hleaves⟩ := spaced_cons hspaced hleaves
    have ih := kept_le_length hspaced hleaves
    have hpos : 0 < slot.written.length := by
      rw [Slot.written, List.length_append]
      exact Nat.add_pos_left (List.length_pos_iff.mpr fun hnil => by rw [hnil] at hopens; cases hopens) _
    unfold keptSlots at ih ⊢
    rw [List.flatMap_cons, List.length_append, List.filter_cons, Slot.remains]
    by_cases hgone : slot.index ∈ indices
    · rw [if_pos hgone, if_neg (by simpa using hgone)]
      omega
    · rw [if_neg hgone, if_pos (by simpa using hgone), List.length_cons]
      omega

theorem kept_le_rest : ∀ {slots : List Slot} {s : ReadState} {gap : List Char} {offset : Nat},
    areSpaced s.context.pageComments slots = true → LeavesLast slots → isGap s.context.pageComments gap = true →
      (keptSlots indices slots).length ≤
        (s.moveTo ⟨gap ++ (slots.flatMap (Slot.remains indices) ++ '\x7d' :: back), offset⟩).start.rest.length
  | [], _, _, _, _, _, _ => Nat.zero_le _
  | slot :: slots, s, gap, offset, hspaced, hleaves, hgap => by
    obtain ⟨hopens, -, hspacedRest, hleavesRest⟩ := spaced_cons hspaced hleaves
    have hcount := @kept_le_length indices _ _ hspaced hleaves
    rw [List.flatMap_cons, Slot.remains] at hcount ⊢
    split
    · rename_i hgone
      have hkept : keptSlots indices (slot :: slots) = keptSlots indices slots := by
        simp [keptSlots, hgone]
      rw [hkept]
      cases slots with
      | nil => exact Nat.zero_le _
      | cons next slots =>
        rw [hleaves.1, List.nil_append]
        exact kept_le_rest hspacedRest hleavesRest hgap
    · rename_i hgone
      have hcomes := s.comesTo_gap hgap (slot.written ++ slots.flatMap (Slot.remains indices) ++ '\x7d' :: back)
        (by rw [Slot.written]; simpa using opensToken_append hopens _) offset
      rw [if_neg hgone] at hcount
      rw [hcomes.start, List.length_append]
      exact Nat.le_trans hcount (Nat.le_add_right ..)

theorem members_enclosed {slots : List Slot} {s : ReadState} {gap : List Char} {offset : Nat}
    (hspaced : areSpaced s.context.pageComments slots = true) (hleaves : LeavesLast slots)
    (hgap : isGap s.context.pageComments gap = true)
    (hreads : ∀ pre slot post, slots = pre ++ slot :: post → slot.index ∉ indices →
      slot.Reads rules s.context.enclosed (post.flatMap (Slot.remains indices) ++ '\x7d' :: back)) :
    ∃ last, s.ComesTo last ('\x7d' :: back)
        (offset + byteLength gap + byteLength (slots.flatMap (Slot.remains indices))) ∧
      enclosed (commaItems "\x7d" (objectMember rules))
          (s.moveTo ⟨gap ++ (slots.flatMap (Slot.remains indices) ++ '\x7d' :: back), offset⟩) =
        if leavesComma s.context.pageComments indices slots then none
        else some (placed (offset + byteLength gap) (keptSlots indices slots), last) := by
  generalize hinner : ({ s with context := s.context.enclosed } : ReadState) = inner
  have hpage : inner.context.pageComments = s.context.pageComments := by rw [← hinner]; rfl
  rw [← hpage] at hspaced hgap ⊢
  obtain ⟨last, hlast, hcollect⟩ := @members_read rules indices back slots inner _ hspaced hleaves
    (by rw [← hinner]; exact hreads) (Nat.lt_succ_of_le (kept_le_rest hspaced hleaves hgap)) gap offset hgap
  subst hinner
  refine ⟨{ last with context := s.context }, ⟨hlast.stands.within _, hlast.start, rfl, hlast.faulty⟩, ?_⟩
  split at hcollect
  · rename_i hleft
    rw [if_pos hleft]
    exact within_none hcollect
  · rename_i hkept
    rw [if_neg hkept]
    exact within_eq hcollect

/-- What is left of a literal is read as the literal of the other members, unless a comma is left. -/
theorem objectLiteral_remains {slots : List Slot} {lead : List Char} {s : ReadState}
    (hspaced : areSpaced s.context.pageComments slots = true) (hleaves : LeavesLast slots)
    (hlead : isGap s.context.pageComments lead = true)
    (hreads : ∀ pre slot post, slots = pre ++ slot :: post → slot.index ∉ indices →
      slot.Reads rules s.context.enclosed (post.flatMap (Slot.remains indices) ++ '\x7d' :: back))
    {text : List Char} (htext : text = '\x7b' :: (lead ++ (slots.flatMap (Slot.remains indices) ++ ['\x7d'])))
    (hs : s.StandsAt (text ++ back)) :
    ∃ flag, objectLiteral rules s = if leavesComma s.context.pageComments indices slots then none else
      some (.node .object ⟨s.start.offset, s.start.offset + byteLength text⟩
        (placed (s.start.offset + 1 + byteLength lead) (keptSlots indices slots)),
        ({ s with moduleSyntax := flag }).past text back) := by
  have hlength : byteLength text =
      1 + byteLength lead + byteLength (slots.flatMap (Slot.remains indices)) + 1 := by
    rw [htext]
    simp only [byteLength_append, byteLength_cons, byteLength_nil, show ('\x7b').utf8Size = 1 from rfl,
      show ('\x7d').utf8Size = 1 from rfl]
    omega
  rw [htext, List.cons_append, List.append_assoc, List.append_assoc, List.singleton_append] at hs
  have hopen : s.token = .punct "\x7b" := hs.token
  have hnext : s.following =
      s.moveTo ⟨lead ++ (slots.flatMap (Slot.remains indices) ++ '\x7d' :: back), s.start.offset + 1⟩ := by
    rw [hs.following]
    rfl
  obtain ⟨last, hlast, hmembers⟩ := @members_enclosed _ _ _ _ s _ (s.start.offset + 1) hspaced hleaves hlead hreads
  refine ⟨last.moduleSyntax, ?_⟩
  rw [← hnext] at hmembers
  split at hmembers
  · rename_i hleft
    rw [if_pos hleft, objectLiteral, bind_of_eq_some (p := here) rfl, bind_of_eq_some (expect_of_eq hopen)]
    exact bind_of_eq_none hmembers
  · rename_i hkept
    have hcursor : last.start.past ['\x7d'] back = s.start.past text back := by
      rw [hlast.start, Cursor.past, Cursor.past, hlength]
      congr 1
      simp only [byteLength_cons, byteLength_nil, show ('\x7d').utf8Size = 1 from rfl]
      omega
    have hafter : last.after = s.start.past text back := hlast.stands.after.trans hcursor
    have hfollowing : last.following = last.moveTo (s.start.past text back) := by
      rw [hlast.stands.following, ReadState.past]
      show last.moveTo (last.start.past ['\x7d'] back) = _
      rw [hcursor]
    rw [if_neg hkept, objectLiteral_read hopen hmembers hlast.stands.token, hafter, hfollowing, hlast.moveTo]
    rfl

end Reader

section
variable {source : List Char} {program object : Tree}

theorem Layout.leavesLast (h : Layout source program) (ht : object ∈ program.nodes) :
    LeavesLast (object.slots source) :=
  slotsFrom_leavesLast fun _ hm => (h.fits (Tree.nodes_trans ht (Tree.child_mem_nodes hm))).2.2

theorem areSpaced_text {page : PageComments} : ∀ {slots : List Slot}, areSpaced page slots = true →
    ∀ slot ∈ slots, slot.text ≠ []
  | [], _ => by simp
  | [slot], h => by
    simp only [areSpaced, Bool.and_eq_true] at h
    intro other hother hnil
    rw [List.mem_singleton.mp hother] at hnil
    rw [hnil] at h
    cases h.1
  | slot :: next :: slots, h => by
    simp only [areSpaced, Bool.and_eq_true] at h
    intro other hother
    rcases List.mem_cons.mp hother with rfl | hother
    · intro hnil
      rw [hnil] at h
      cases h.1.1
    · exact areSpaced_text h.2 other hother

end

/-- Removing members of an object literal leaves exactly the others, if and only if no comma is missed.
Whichever members are removed, in whatever order, the text changes between the braces alone, and every
other member keeps its text. Where the literal is asked for and the others are read as they were, what is
left is read as the literal of the others, in their order; but if the last member is removed and the comma
behind it is hidden by a comment or by another blank than the plain ones, it is no literal at all. -/
theorem removal_leaves_others_iff {text : String} {program object : Tree} {page : PageComments}
    (hlayout : Layout text.toList program) (ht : object ∈ program.nodes) (ho : object.kind = .object)
    (hspaced : object.Spaced page text.toList) (indices : List Nat) :
    ∃ front back, object.StandsBetween text.toList front back ∧
      ((Draft.ofText text).recordAll (indices.flatMap (removeMember text.toList object.children))).render =
        .ok (String.ofList (front ++ (object.without text.toList indices ++ back))) ∧
      ∀ (rules : Rules) (s : ReadState), s.context.pageComments = page →
        s.StandsAt (object.without text.toList indices ++ back) →
        (∀ pre slot post, object.slots text.toList = pre ++ slot :: post → slot.index ∉ indices →
          slot.Reads rules s.context.enclosed (post.flatMap (Slot.remains indices) ++ '\x7d' :: back)) →
        ∃ flag, Reader.objectLiteral rules s =
          if leavesComma page indices (object.slots text.toList) then none else
          some (.node .object ⟨s.start.offset, s.start.offset + byteLength (object.without text.toList indices)⟩
            (placed (s.start.offset + 1 + byteLength (object.lead text.toList))
              (keptSlots indices (object.slots text.toList))),
            ({ s with moduleSyntax := flag }).past (object.without text.toList indices) back) := by
  obtain ⟨front, back, hstands⟩ := hlayout.standsBetween ht ho
  obtain ⟨hlead, hslots⟩ := hspaced
  refine ⟨front, back, hstands, ?_, ?_⟩
  · exact removals_rendered hlayout ht ho (areSpaced_text hslots) hstands indices
  · rintro rules s rfl hs hreads
    exact Reader.objectLiteral_remains hslots (hlayout.leavesLast ht) hlead hreads rfl hs

def commaSample (hidden : Bool) : String :=
  "x = \x7ba: Number, b: 1" ++ (if hidden then " /**/" else "  ") ++ ", \x7d;"

def isNumberPair : Tree → Bool
  | .node (.property .plain false false false) span
      [.node (.name "a") name [], .node (.identifier "Number") value []] =>
    span = ⟨5, 14⟩ && name = ⟨5, 6⟩ && value = ⟨8, 14⟩
  | _ => false

theorem numberPair_moved {t : Tree} (h : isNumberPair t = true) (pos : Nat) : t.movedTo pos =
    .node (.property .plain false false false) ⟨pos, pos + 9⟩
      [.node (.name "a") ⟨pos, pos + 1⟩ [], wordAt "Number" (pos + 3)] := by
  unfold isNumberPair at h
  split at h
  · simp only [Bool.and_eq_true, decide_eq_true_eq] at h
    obtain ⟨⟨rfl, rfl⟩, rfl⟩ := h
    rfl
  · cases h

theorem numberPair_reads {slot : Slot} {behind : List Char} (hmember : isNumberPair slot.member = true)
    (htext : slot.text = "a: Number".toList) (hbehind : slot.behind = ',' :: behind) :
    ∃ depth, ∀ (context : Context) (back : List Char), slot.Reads (readersTo depth) context back := by
  obtain ⟨least, hword⟩ := @word_part "Number" (by decide)
  refine ⟨least, fun context back s _ hs => ⟨s.moduleSyntax, ?_⟩⟩
  rw [Slot.written, htext, hbehind, List.append_assoc] at hs
  obtain ⟨next, hnext, hstands, hstart, hread⟩ := @Reader.objectMember_named (readersTo least) s "a"
    ("Number".toList ++ (',' :: behind ++ back)) (by decide) (by decide) rfl hs
  rw [hread, hword least next _ (Nat.le_refl _) hstands rfl, hstart, numberPair_moved hmember, htext, hbehind]
  have hpast : next.past "Number".toList (',' :: behind ++ back) =
      s.past "a: Number".toList (',' :: behind ++ back) := by
    rw [ReadState.past, hstart, hnext]
    rfl
  rw [hpast]
  rfl

def commaLeft (hidden : Bool) : String :=
  "\x7ba: Number, " ++ (if hidden then " /**/, \x7d;" else " \x7d;")

def showsPair (hidden : Bool) (object : Tree) : Bool :=
  let source := (commaSample hidden).toList
  decide (object.Spaced .absent source) && object.span.start = 4 &&
    decide (((Draft.ofText (commaSample hidden)).recordAll
      ([1].flatMap (removeMember source object.children))).render = .ok ("x = " ++ commaLeft hidden)) &&
    object.lead source = [] && object.without source [1] = (commaLeft hidden).toList.dropLast &&
    leavesComma .absent [1] (object.slots source) = hidden &&
    match object.slots source with
    | [first, second] => isNumberPair first.member && first.text = "a: Number".toList &&
      first.behind = [',', ' '] && first.index = 0 && second.index = 1
    | _ => false

def LeavesPair (hidden : Bool) : Prop :=
  ∃ program object, parse (Options.dialect {}) (commaSample hidden).toList = some program ∧
    Layout (commaSample hidden).toList program ∧ object ∈ program.nodes ∧ object.kind = .object ∧
    object.Spaced .absent (commaSample hidden).toList ∧
    ((Draft.ofText (commaSample hidden)).recordAll
      ([1].flatMap (removeMember (commaSample hidden).toList object.children))).render =
        .ok ("x = " ++ commaLeft hidden) ∧
    ∃ (depth : Nat) (s : ReadState), s.StandsAt (commaLeft hidden).toList ∧ s.start.offset = 4 ∧
      if hidden then Reader.objectLiteral (readersTo depth) s = none
      else ∃ s', Reader.objectLiteral (readersTo depth) s = some (.node .object ⟨4, 18⟩
        [.node (.property .plain false false false) ⟨5, 14⟩ [.node (.name "a") ⟨5, 6⟩ [], wordAt "Number" 8]], s')

theorem removal_leaves_others_iff_hidden : LeavesPair true ∧ LeavesPair false := by
  have hsamples : ∀ hidden, ((parse (Options.dialect {}) (commaSample hidden).toList).any fun program =>
      decide (Layout (commaSample hidden).toList program) &&
        program.nodes.any fun object => decide (object.kind = .object) && showsPair hidden object) = true := by
    decide +kernel
  have hboth : ∀ hidden, LeavesPair hidden := by
    intro hidden
    have hsample := hsamples hidden
    simp only [Option.any_eq_true, Bool.and_eq_true, decide_eq_true_eq, List.any_eq_true] at hsample
    obtain ⟨program, hparse, hlayout, object, ht, ho, hshows⟩ := hsample
    unfold showsPair at hshows
    simp only [Bool.and_eq_true, decide_eq_true_eq] at hshows
    obtain ⟨⟨⟨⟨⟨⟨hspaced, hstart⟩, hcode⟩, hlead⟩, hwithout⟩, hleaves⟩, hshows⟩ := hshows
    split at hshows
    · rename_i first second hslots
      simp only [Bool.and_eq_true, decide_eq_true_eq] at hshows
      obtain ⟨⟨⟨⟨hpair, htext⟩, hbehind⟩, hfirst⟩, hsecond⟩ := hshows
      obtain ⟨front, back, hstands, hrender, hread⟩ := removal_leaves_others_iff hlayout ht ho hspaced [1]
      obtain ⟨depth, hreads⟩ := numberPair_reads hpair htext hbehind
      -- what is left stands where the literal stood
      have hleft : object.without (commaSample hidden).toList [1] ++ back = (commaLeft hidden).toList := by
        have hdrop := dropBytes_append front (object.without (commaSample hidden).toList [1] ++ back) 0
        have hwhole : front ++ (object.without (commaSample hidden).toList [1] ++ back) =
            ("x = " ++ commaLeft hidden).toList := by
          rw [hcode, Except.ok.injEq] at hrender
          rw [hrender, String.toList_ofList]
        rw [Nat.add_zero, dropBytes_zero, hstands.start, hstart, hwhole, String.toList_append] at hdrop
        have hknown := dropBytes_append "x = ".toList (commaLeft hidden).toList 0
        rw [dropBytes_zero] at hknown
        exact Option.some.inj (hdrop.symm.trans hknown)
      generalize hs : (ReadState.scan { dialect := Options.dialect {} } ⟨[], 0⟩).moveTo
        ⟨(commaLeft hidden).toList, 4⟩ = s
      have hplace : s.StandsAt (commaLeft hidden).toList ∧ s.start = ⟨(commaLeft hidden).toList, 4⟩ := by
        rw [← hs]
        exact ReadState.moveTo_gap (isGap_nil _) (by cases hidden <;> rfl) 4
      have hfour : s.start.offset = 4 := by rw [hplace.2]
      obtain ⟨flag, hliteral⟩ := hread (readersTo depth) s (by rw [← hs]; rfl) (by rw [hleft]; exact hplace.1) (by
        intro pre slot post hsplit hindex
        rw [hslots] at hsplit
        cases pre with
        | nil =>
          cases hsplit
          exact hreads _ _
        | cons other pre =>
          obtain ⟨rfl, rfl, rfl⟩ : pre = [] ∧ second = slot ∧ post = [] := by
            cases pre with
            | nil => cases hsplit; exact ⟨rfl, rfl, rfl⟩
            | cons third pre => simp at hsplit
          exact absurd (by simp [hsecond]) hindex)
      refine ⟨program, object, hparse, hlayout, ht, ho, hspaced, hcode, depth, s, hplace.1, hfour, ?_⟩
      rw [hleaves] at hliteral
      cases hidden with
      | true => exact hliteral
      | false =>
        have hkept : keptSlots [1] [first, second] = [first] := by simp [keptSlots, hfirst, hsecond]
        rw [hwithout, hlead, hslots, hkept, hfour, placed, numberPair_moved hpair] at hliteral
        exact ⟨_, hliteral⟩
    · cases hshows
  exact ⟨hboth true, hboth false⟩

end ComponentMacros
