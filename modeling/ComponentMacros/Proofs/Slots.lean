import ComponentMacros.Proofs.Walk

/-!
# Members as they are written

An object literal holds its members one after the other, each with what stands
behind it up to the next one or the closing brace. A member that is removed takes
a part of that along. What is left of a literal is what the other members are
written with, and what the last one leaves behind if it goes.
-/

namespace ComponentMacros

/-! ## Texts between offsets -/

def textBetween (source : List Char) (lo hi : Nat) : List Char := (slice? source lo hi).getD []

theorem dropBytes_between {source rest : List Char} {lo hi : Nat} (h : dropBytes source lo = some rest)
    (hle : lo ≤ hi) (hhi : IsBoundary source hi) : ∃ after, dropBytes source hi = some after ∧
      rest = textBetween source lo hi ++ after ∧ lo + byteLength (textBetween source lo hi) = hi := by
  have hadd := dropBytes_add (b := hi - lo) h
  rw [Nat.add_sub_cancel' hle] at hadd
  have hrest : IsBoundary rest (hi - lo) := by
    unfold IsBoundary at hhi ⊢
    rwa [← hadd]
  obtain ⟨part, after, htake, hdrop, htext, hlength⟩ := hrest.cut
  have hpart : textBetween source lo hi = part := by
    rw [textBetween, slice?, if_pos hle, h, Option.bind_some, htake, Option.getD_some]
  rw [hpart]
  exact ⟨after, hadd.trans hdrop, htext, by omega⟩

/-! ## Slots -/

/-- A member of an object literal as it is written. -/
structure Slot where
  index : Nat
  member : Tree
  text : List Char
  taken : List Char
  left : List Char

namespace Slot

def behind (slot : Slot) : List Char := slot.taken ++ slot.left

def written (slot : Slot) : List Char := slot.text ++ slot.behind

def removal (slot : Slot) : Edit :=
  .remove slot.member.span.start (slot.member.span.stop + byteLength slot.taken)

def remains (indices : List Nat) (slot : Slot) : List Char :=
  if slot.index ∈ indices then slot.left else slot.written

end Slot

def slotsFrom (source : List Char) (stop : Nat) : Nat → List Tree → List Slot
  | _, [] => []
  | i, [m] =>
    let comma := trailingCommaEnd source m.span.stop
    [⟨i, m, textBetween source m.span.start m.span.stop, textBetween source m.span.stop comma,
      textBetween source comma stop⟩]
  | i, m :: next :: rest =>
    ⟨i, m, textBetween source m.span.start m.span.stop, textBetween source m.span.stop next.span.start, []⟩ ::
      slotsFrom source stop (i + 1) (next :: rest)

def Chained : Nat → List Slot → Prop
  | _, [] => True
  | pos, slot :: slots =>
    slot.member.span = ⟨pos, pos + byteLength slot.text⟩ ∧ Chained (pos + byteLength slot.written) slots

theorem Chained.le :
    ∀ {slots : List Slot} {pos : Nat}, Chained pos slots → ∀ slot ∈ slots, pos ≤ slot.removal.span.start
  | [], _, _ => by simp
  | first :: slots, pos, ⟨hspan, hrest⟩ => by
    intro slot hslot
    rcases List.mem_cons.mp hslot with rfl | hslot
    · simp [Slot.removal, Edit.remove, hspan]
    · exact Nat.le_trans (Nat.le_add_right ..) (hrest.le slot hslot)

theorem Chained.length : ∀ {slots : List Slot} {pos : Nat}, Chained pos slots →
    ∀ slot ∈ slots, slot.member.span.stop = slot.member.span.start + byteLength slot.text
  | [], _, _ => by simp
  | first :: slots, pos, ⟨hspan, hrest⟩ => by
    intro slot hslot
    rcases List.mem_cons.mp hslot with rfl | hslot
    · rw [hspan]
    · exact hrest.length slot hslot

theorem Chained.stop_le : ∀ {slots : List Slot} {pos : Nat}, Chained pos slots →
    ∀ slot ∈ slots, slot.removal.span.stop ≤ pos + byteLength (slots.flatMap Slot.written)
  | [], _, _ => by simp
  | first :: slots, pos, ⟨hspan, hrest⟩ => by
    intro slot hslot
    rw [List.flatMap_cons, byteLength_append]
    rcases List.mem_cons.mp hslot with rfl | hslot
    · simp only [Slot.removal, Edit.remove, hspan, Slot.written, Slot.behind, byteLength_append]
      omega
    · have := hrest.stop_le slot hslot
      omega

section
variable {source : List Char} {stop : Nat}

theorem slotsFrom_written : ∀ {members : List Tree} {m : Tree} {i lo : Nat} {rest : List Char},
    Ordered lo stop (m :: members) → (∀ n ∈ m :: members, n.span.Fits source) →
    (∀ n ∈ m :: members, n.span.stop ≤ trailingCommaEnd source n.span.stop ∧
      trailingCommaEnd source n.span.stop ≤ stop ∧ IsBoundary source (trailingCommaEnd source n.span.stop)) →
    IsBoundary source stop → dropBytes source m.span.start = some rest →
      ∃ after, dropBytes source stop = some after ∧
        rest = (slotsFrom source stop i (m :: members)).flatMap Slot.written ++ after ∧
        Chained m.span.start (slotsFrom source stop i (m :: members)) ∧
        m.span.start + byteLength ((slotsFrom source stop i (m :: members)).flatMap Slot.written) = stop
  | [], m, i, lo, rest, hordered, hfits, hcomma, hstop, hrest => by
    have hm := hfits m (List.mem_singleton_self m)
    have hc := hcomma m (List.mem_singleton_self m)
    obtain ⟨rest₁, h₁, htext₁, hlength₁⟩ := dropBytes_between hrest hm.1 hm.2.2
    obtain ⟨rest₂, h₂, htext₂, hlength₂⟩ := dropBytes_between h₁ hc.1 hc.2.2
    obtain ⟨rest₃, h₃, htext₃, hlength₃⟩ := dropBytes_between h₂ hc.2.1 hstop
    refine ⟨rest₃, h₃, ?_, ⟨?_, trivial⟩, ?_⟩
    · rw [htext₁, htext₂, htext₃]
      simp [slotsFrom, Slot.written, Slot.behind]
    · show m.span = _
      rw [hlength₁]
    · simp only [slotsFrom, Slot.written, Slot.behind, List.flatMap_cons, List.flatMap_nil, List.append_nil,
        byteLength_append]
      omega
  | next :: members, m, i, lo, rest, hordered, hfits, hcomma, hstop, hrest => by
    have hm := hfits m (List.mem_cons_self ..)
    have hnext := hfits next (by simp)
    have hle : m.span.stop ≤ next.span.start := hordered.2.2.1
    obtain ⟨rest₁, h₁, htext₁, hlength₁⟩ := dropBytes_between hrest hm.1 hm.2.2
    obtain ⟨rest₂, h₂, htext₂, hlength₂⟩ := dropBytes_between h₁ hle hnext.2.1
    obtain ⟨after, hafter, htext, hchained, hlength⟩ := @slotsFrom_written members next (i + 1) m.span.stop rest₂
      hordered.2.2 (fun n hn => hfits n (List.mem_cons_of_mem _ hn))
        (fun n hn => hcomma n (List.mem_cons_of_mem _ hn))
      hstop h₂
    have hwritten : byteLength (textBetween source m.span.start m.span.stop ++
        (textBetween source m.span.stop next.span.start ++ [])) = next.span.start - m.span.start := by
      rw [List.append_nil, byteLength_append]
      omega
    refine ⟨after, hafter, ?_, ⟨?_, ?_⟩, ?_⟩
    · rw [htext₁, htext₂, htext]
      simp [slotsFrom, Slot.written, Slot.behind]
    · show m.span = _
      rw [hlength₁]
    · show Chained (m.span.start + byteLength (_ ++ (_ ++ []))) _
      rw [hwritten, Nat.add_sub_cancel' (by have := hm.1; omega)]
      exact hchained
    · rw [slotsFrom, List.flatMap_cons, byteLength_append]
      show m.span.start + (byteLength (_ ++ (_ ++ [])) + _) = _
      rw [hwritten]
      have := hm.1
      omega

theorem slotsFrom_index :
    ∀ {members : List Tree} {i : Nat}, ∀ slot ∈ slotsFrom source stop i members, i ≤ slot.index
  | [], _ => by simp [slotsFrom]
  | [m], i => by simp [slotsFrom]
  | m :: next :: rest, i => by
    intro slot hslot
    rcases List.mem_cons.mp hslot with rfl | hslot
    · exact Nat.le_refl _
    · exact Nat.le_trans (Nat.le_succ i) (slotsFrom_index slot hslot)

theorem removeMember_iff : ∀ {members : List Tree} {m : Tree} {i k : Nat} {e : Edit},
    Ordered m.span.start stop (m :: members) → (∀ n ∈ m :: members, n.span.Fits source) →
    (∀ n ∈ m :: members, n.span.stop ≤ trailingCommaEnd source n.span.stop ∧
      IsBoundary source (trailingCommaEnd source n.span.stop)) →
      (e ∈ removeMember source (m :: members) k ↔
        ∃ slot ∈ slotsFrom source stop i (m :: members), slot.index = i + k ∧ e = slot.removal)
  | [], m, i, 0, e, hordered, hfits, hcomma => by
    have hc := hcomma m (List.mem_singleton_self m)
    obtain ⟨rest, hrest⟩ := isBoundary_iff.mp (hfits m (List.mem_singleton_self m)).2.2
    obtain ⟨-, -, -, hlength⟩ := dropBytes_between hrest hc.1 hc.2
    simp [slotsFrom, removeMember, Slot.removal, hlength]
  | [], m, i, k + 1, e, _, _, _ => by simp [slotsFrom, removeMember]
  | next :: members, m, i, 0, e, hordered, hfits, hcomma => by
    obtain ⟨rest, hrest⟩ := isBoundary_iff.mp (hfits m (List.mem_cons_self ..)).2.2
    obtain ⟨-, -, -, hlength⟩ := dropBytes_between hrest hordered.2.2.1 (hfits next (by simp)).2.1
    have hlater : ∀ slot ∈ slotsFrom source stop (i + 1) (next :: members), slot.index ≠ i := by
      intro slot hslot
      have := slotsFrom_index slot hslot
      omega
    simp only [slotsFrom, removeMember, List.getElem?_cons_zero, List.getElem?_cons_succ, Nat.zero_add,
      Nat.add_zero, List.mem_singleton, List.exists_mem_cons_iff, Slot.removal, true_and, hlength]
    refine ⟨Or.inl, ?_⟩
    rintro (h | ⟨slot, hslot, hindex, -⟩)
    · exact h
    · exact absurd hindex (hlater slot hslot)
  | next :: members, m, i, k + 1, e, hordered, hfits, hcomma => by
    have ih := @removeMember_iff members next (i + 1) k e
      ⟨Nat.le_refl _, hordered.2.2.2.1, hordered.2.2.2.2⟩ (fun n hn => hfits n (List.mem_cons_of_mem _ hn))
      (fun n hn => hcomma n (List.mem_cons_of_mem _ hn))
    simp only [removeMember, List.getElem?_cons_succ] at ih ⊢
    rw [ih, slotsFrom, List.exists_mem_cons_iff]
    have hhead : i ≠ i + (k + 1) := by omega
    simp only [hhead, false_and, false_or]
    rw [show i + 1 + k = i + (k + 1) by omega]

end

/-! ## What removals leave -/

namespace Edit

variable {calls : List Edit}

theorem unreplaced_append : ∀ (a b : List Char) (pos : Nat),
    unreplaced calls pos (a ++ b) = unreplaced calls pos a ++ unreplaced calls (pos + byteLength a) b
  | [], b, pos => rfl
  | c :: a, b, pos => by
    rw [List.cons_append, unreplaced, unreplaced, unreplaced_append a b, byteLength_cons, Nat.add_assoc]
    split <;> rfl

theorem unreplaced_kept : ∀ {text : List Char} {pos : Nat}, (∀ e ∈ calls, e.placement = .overwrite →
    e.span.stop ≤ pos ∨ pos + byteLength text ≤ e.span.start) → unreplaced calls pos text = text
  | [], _, _ => rfl
  | c :: text, pos, h => by
    have hsize := c.utf8Size_pos
    rw [unreplaced, if_neg, unreplaced_kept]
    · intro e he ho
      have := h e he ho
      rw [byteLength_cons] at this
      omega
    · intro hany
      obtain ⟨e, he, hin⟩ := List.any_eq_true.mp hany
      simp only [Bool.and_eq_true, decide_eq_true_eq] at hin
      have := h e he hin.1.1
      rw [byteLength_cons] at this
      omega

theorem unreplaced_gone {e : Edit} (he : e ∈ calls) (ho : e.placement = .overwrite) :
    ∀ {text : List Char} {pos : Nat}, e.span.start ≤ pos → pos + byteLength text ≤ e.span.stop →
      unreplaced calls pos text = []
  | [], _, _, _ => rfl
  | c :: text, pos, hlo, hhi => by
    have hsize := c.utf8Size_pos
    rw [byteLength_cons] at hhi
    rw [unreplaced, if_pos, unreplaced_gone he ho (by omega) (by omega)]
    have hstop : pos < e.span.stop := by omega
    exact List.any_eq_true.mpr ⟨e, he, by simp [ho, hlo, hstop]⟩

end Edit

theorem unreplaced_slots {calls : List Edit} {indices : List Nat} :
    ∀ {slots : List Slot} {pos : Nat}, Chained pos slots →
    (∀ e ∈ calls, e.span.stop ≤ pos ∨ ∃ slot ∈ slots, slot.index ∈ indices ∧ e = slot.removal) →
    (∀ slot ∈ slots, slot.index ∈ indices → slot.removal ∈ calls) →
      Edit.unreplaced calls pos (slots.flatMap Slot.written) = slots.flatMap (Slot.remains indices)
  | [], _, _, _, _ => rfl
  | slot :: slots, pos, ⟨hspan, hchained⟩, hcalls, hremoved => by
    have hrange : slot.removal.span = ⟨pos, pos + byteLength slot.text + byteLength slot.taken⟩ := by
      simp [Slot.removal, Edit.remove, hspan]
    have hlength : byteLength slot.written =
        byteLength slot.text + (byteLength slot.taken + byteLength slot.left) := by
      simp only [Slot.written, Slot.behind, byteLength_append]
    have hrest := unreplaced_slots hchained
      (fun e he => by
        rcases hcalls e he with hbefore | ⟨other, hother, hindex, rfl⟩
        · exact Or.inl (by omega)
        rcases List.mem_cons.mp hother with rfl | hother
        · exact Or.inl (by rw [hrange, hlength]; simp only; omega)
        · exact Or.inr ⟨other, hother, hindex, rfl⟩)
      (fun other hother => hremoved other (List.mem_cons_of_mem _ hother))
    rw [List.flatMap_cons, List.flatMap_cons, Edit.unreplaced_append, hrest]
    congr 1
    unfold Slot.remains
    split
    · -- the member goes with what it takes, and what it leaves is between two removals
      rename_i hgone
      have hmem := hremoved slot (List.mem_cons_self ..) hgone
      rw [Slot.written, Slot.behind, ← List.append_assoc, Edit.unreplaced_append,
        Edit.unreplaced_gone hmem rfl (by rw [hrange]) (by rw [hrange, byteLength_append]; simp only; omega),
        List.nil_append, Edit.unreplaced_kept]
      intro e he _
      rw [byteLength_append]
      rcases hcalls e he with hbefore | ⟨other, hother, -, rfl⟩
      · exact Or.inl (by omega)
      rcases List.mem_cons.mp hother with rfl | hother
      · exact Or.inl (by rw [hrange]; simp only; omega)
      · have := hchained.le other hother
        exact Or.inr (by omega)
    · rename_i hstays
      apply Edit.unreplaced_kept
      intro e he _
      rcases hcalls e he with hbefore | ⟨other, hother, hindex, rfl⟩
      · exact Or.inl hbefore
      rcases List.mem_cons.mp hother with rfl | hother
      · exact absurd hindex hstays
      · exact Or.inr (hchained.le other hother)

/-! ## Literals -/

namespace Tree

def slots (source : List Char) (object : Tree) : List Slot :=
  slotsFrom source (object.span.stop - 1) 0 object.children

def lead (source : List Char) (object : Tree) : List Char :=
  textBetween source (object.span.start + 1)
    (match object.children with
      | [] => object.span.stop - 1
      | first :: _ => first.span.start)

/-- What is left of an object literal if the members at the indices are removed. -/
def without (source : List Char) (object : Tree) (indices : List Nat) : List Char :=
  '\x7b' :: (object.lead source ++ ((object.slots source).flatMap (Slot.remains indices) ++ ['\x7d']))

/-- An object literal as it stands in a source. -/
structure StandsBetween (source : List Char) (object : Tree) (front back : List Char) : Prop where
  text : source =
    front ++ '\x7b' :: (object.lead source ++ ((object.slots source).flatMap Slot.written ++ '\x7d' :: back))
  start : byteLength front = object.span.start
  chained : Chained (object.span.start + 1 + byteLength (object.lead source)) (object.slots source)
  stop : object.span.start + 1 + byteLength (object.lead source) +
    byteLength ((object.slots source).flatMap Slot.written) = object.span.stop - 1

end Tree

section
variable {source : List Char} {program object : Tree}

theorem Layout.standsBetween (h : Layout source program) (ht : object ∈ program.nodes)
    (ho : object.kind = .object) :
    ∃ front back, object.StandsBetween source front back := by
  obtain ⟨hopen, hclose, hordered⟩ := h.object ht ho
  obtain ⟨front, rest, -, hrest, hsource, hstart⟩ := (h.fits ht).2.1.cut
  obtain ⟨inside, hopen⟩ := charAt_eq_some.mp hopen
  cases hrest.symm.trans hopen
  have hinside : dropBytes source (object.span.start + 1) = some inside := by
    rw [dropBytes_add hopen, dropBytes_cons _ _ (by decide)]
    exact dropBytes_zero inside
  have hstop : IsBoundary source (object.span.stop - 1) := .of_charAt hclose
  obtain ⟨back, hclose⟩ := charAt_eq_some.mp hclose
  cases hmembers : object.children with
  | nil =>
    rw [hmembers] at hordered
    obtain ⟨after, hafter, htext, hlength⟩ := dropBytes_between hinside hordered.le hstop
    have hlead : object.lead source = textBetween source (object.span.start + 1) (object.span.stop - 1) := by
      rw [Tree.lead, hmembers]
    have hslots : object.slots source = [] := by rw [Tree.slots, hmembers, slotsFrom]
    cases hafter.symm.trans hclose
    refine ⟨front, back, ?_, hstart, ?_, ?_⟩
    · rw [hlead, hslots]
      nth_rewrite 1 [hsource]
      rw [htext]
      rfl
    · rw [hslots]
      trivial
    · rw [hlead, hslots]
      exact hlength
  | cons m members =>
    have hm : object.span.start + 1 ≤ m.span.start :=
      (hordered.bounds m (by rw [hmembers]; exact List.mem_cons_self ..)).1
    have hfits : ∀ n ∈ m :: members, n.span.Fits source := by
      intro n hn
      rw [← hmembers] at hn
      exact h.fits (Tree.nodes_trans ht (Tree.child_mem_nodes hn))
    have hcomma := h.member_comma ht ho
    obtain ⟨-, hbrace, -⟩ := h.object ht ho
    rw [hmembers] at hordered hcomma
    obtain ⟨rest₁, h₁, htext₁, hlength₁⟩ := dropBytes_between hinside hm (hfits m (List.mem_cons_self ..)).2.1
    obtain ⟨after, hafter, htext, hchained, hlength⟩ :=
      @slotsFrom_written source _ members m 0 _ rest₁ hordered hfits
      (fun n hn => ⟨(hcomma n hn).1, (hcomma n hn).2,
        (trailingCommaEnd_bounds (hfits n hn).2.2 (hordered.bounds n hn).2.2 hbrace).2.2⟩) hstop h₁
    have hlead : object.lead source = textBetween source (object.span.start + 1) m.span.start := by
      rw [Tree.lead, hmembers]
    rw [← hmembers, ← Tree.slots] at htext hchained hlength
    cases hafter.symm.trans hclose
    refine ⟨front, back, ?_, hstart, ?_, ?_⟩
    · rw [hlead]
      nth_rewrite 1 [hsource]
      rw [htext₁, htext]
    · rw [hlead, hlength₁]
      exact hchained
    · rw [hlead, hlength₁]
      exact hlength

theorem removals_iff (h : Layout source program) (ht : object ∈ program.nodes) (ho : object.kind = .object)
    {indices : List Nat} {e : Edit} : e ∈ indices.flatMap (removeMember source object.children) ↔
      ∃ slot ∈ object.slots source, slot.index ∈ indices ∧ e = slot.removal := by
  rw [List.mem_flatMap, Tree.slots]
  obtain ⟨-, hbrace, hordered⟩ := h.object ht ho
  have hcomma := h.member_comma ht ho
  have hfits : ∀ n ∈ object.children, n.span.Fits source :=
    fun n hn => h.fits (Tree.nodes_trans ht (Tree.child_mem_nodes hn))
  cases hmembers : object.children with
  | nil => simp [removeMember, slotsFrom]
  | cons m members =>
    rw [hmembers] at hordered hcomma hfits
    have hiff := fun k => @removeMember_iff source (object.span.stop - 1) members m 0 k e
      ⟨Nat.le_refl _, hordered.2.1, hordered.2.2⟩ hfits fun n hn => ⟨(hcomma n hn).1,
        (trailingCommaEnd_bounds (hfits n hn).2.2 (hordered.bounds n hn).2.2 hbrace).2.2⟩
    constructor
    · rintro ⟨k, hk, he⟩
      obtain ⟨slot, hslot, hindex, rfl⟩ := (hiff k).mp he
      exact ⟨slot, hslot, by rw [hindex, Nat.zero_add]; exact hk, rfl⟩
    · rintro ⟨slot, hslot, hindex, rfl⟩
      exact ⟨slot.index, hindex, (hiff slot.index).mpr ⟨slot, hslot, (Nat.zero_add _).symm, rfl⟩⟩

theorem removals_plain (h : Layout source program) (ht : object ∈ program.nodes) (ho : object.kind = .object)
    (hproper : ∀ slot ∈ object.slots source, slot.text ≠ []) {front back : List Char}
    (hstands : object.StandsBetween source front back) (indices : List Nat) :
    Edit.Plain source (indices.flatMap (removeMember source object.children)) := by
  have hcomma := h.member_comma ht ho
  have hordered := (h.object ht ho).2.2
  have hranges : ∀ e ∈ indices.flatMap (removeMember source object.children),
      ∃ r ∈ memberRanges source object.children, e = .overwrite r "" := by
    intro e he
    obtain ⟨i, -, he⟩ := List.mem_flatMap.mp he
    exact removeMember_mem he
  refine ⟨?_, ?_, ?_, ?_, ?_⟩
  · intro e he range
    obtain ⟨r, -, rfl⟩ := hranges e he
    exact List.not_mem_nil
  · intro e he
    obtain ⟨r, hr, rfl⟩ := hranges e he
    exact h.cut_fits ht (.member ho hr)
  · intro e he hplacement
    obtain ⟨r, -, rfl⟩ := hranges e he
    exact absurd rfl hplacement
  · intro e he _
    obtain ⟨slot, hslot, -, rfl⟩ := (removals_iff h ht ho).mp he
    have hpos := byteLength_pos (hproper slot hslot)
    have hlength := hstands.chained.length slot hslot
    show slot.member.span.start < slot.member.span.stop + _
    omega
  · intro e he f hf _ _
    obtain ⟨r, hr, rfl⟩ := hranges e he
    obtain ⟨s, hs, rfl⟩ := hranges f hf
    rcases memberRanges_eq_or_apart hordered hcomma r hr s hs with rfl | hap
    · exact Or.inr (Or.inl (Span.contains_self _))
    · exact Or.inl hap

/-- Removing members leaves the literal without them, and nothing else changes. -/
theorem removals_rendered (h : Layout source program) (ht : object ∈ program.nodes) (ho : object.kind = .object)
    (hproper : ∀ slot ∈ object.slots source, slot.text ≠ []) {front back : List Char}
    (hstands : object.StandsBetween source front back) (indices : List Nat) :
    (Draft.recordAll ⟨source, []⟩ (indices.flatMap (removeMember source object.children))).render =
      .ok (String.ofList (front ++ (object.without source indices ++ back))) := by
  have hplain := removals_plain h ht ho hproper hstands indices
  have hiff := fun e => @removals_iff source program object h ht ho indices e
  generalize indices.flatMap (removeMember source object.children) = calls at hplain hiff ⊢
  have hblank : calls.map Edit.blank = calls := by
    conv_rhs => rw [← List.map_id calls]
    apply List.map_congr_left
    intro e he
    obtain ⟨slot, -, -, rfl⟩ := (hiff e).mp he
    rfl
  have hrender := hplain.blank.render_eq
  rw [hplain.walk_blank, hblank] at hrender
  rw [hrender]
  congr 2
  -- the slots are between texts that no removal reaches
  have hbounds : ∀ e ∈ calls, object.span.start + 1 + byteLength (object.lead source) ≤ e.span.start ∧
      e.span.stop ≤ object.span.stop - 1 := by
    intro e he
    have hlater := (hiff e).mp he
    obtain ⟨slot, hslot, -, rfl⟩ := hlater
    refine ⟨hstands.chained.le slot hslot, ?_⟩
    exact (hstands.chained.stop_le slot hslot).trans (Nat.le_of_eq hstands.stop)
  have hslots := unreplaced_slots hstands.chained (fun e he => Or.inr ((hiff e).mp he))
    (fun slot hslot hindex => (hiff _).mpr ⟨slot, hslot, hindex, rfl⟩)
  have hstart : byteLength (front ++ '\x7b' :: object.lead source) =
      object.span.start + 1 + byteLength (object.lead source) := by
    rw [byteLength_append, byteLength_cons, hstands.start, ← Nat.add_assoc]
    rfl
  have hfront : Edit.unreplaced calls 0 (front ++ '\x7b' :: object.lead source) =
      front ++ '\x7b' :: object.lead source := by
    apply Edit.unreplaced_kept
    intro e he _
    exact Or.inr (by rw [Nat.zero_add, hstart]; exact (hbounds e he).1)
  have hback : Edit.unreplaced calls (object.span.stop - 1) ('\x7d' :: back) = '\x7d' :: back := by
    apply Edit.unreplaced_kept
    intro e he _
    exact Or.inl (hbounds e he).2
  have htext : source =
      (front ++ '\x7b' :: object.lead source) ++
        ((object.slots source).flatMap Slot.written ++ '\x7d' :: back) := by
    rw [List.append_assoc, List.cons_append]
    exact hstands.text
  nth_rewrite 1 [htext]
  rw [Edit.unreplaced_append, hfront, Nat.zero_add, hstart, Edit.unreplaced_append, hslots, hstands.stop, hback,
    Tree.without]
  simp

end

end ComponentMacros
