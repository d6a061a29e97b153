import Mathlib.Data.List.Sort
import Mathlib.Data.Prod.Lex
import Mathlib.Order.Lattice
import ComponentMacros.Buffer
import ComponentMacros.Proofs.Recorded

/-!
# Numbered edits

A buffer arranges its edits by the numbers of their calls, its draft by the order in
which they came. Both arrangements are the same if the numbers grow, which they do up
to the last word. A buffer then renders what its draft does, if the length of the
source is a word too.
-/

namespace ComponentMacros

/-! ## Rendering order -/

theorem isLE_then_compare (m n : Nat) (o : Ordering) :
    ((compare m n).then o).isLE = true ↔ m < n ∨ m = n ∧ o.isLE = true := by
  rcases Nat.lt_trichotomy m n with hlt | rfl | hgt
  · simp [Nat.compare_eq_lt.mpr hlt, hlt]
  · simp
  · have hne : m ≠ n := Nat.ne_of_gt hgt
    simp [Nat.compare_eq_gt.mpr hgt, hne, Nat.le_of_lt hgt]

namespace NumberedEdit

variable {a b c : NumberedEdit}

def Before (a b : NumberedEdit) : Prop := (a.order b).isLE = true

def key (a : NumberedEdit) : ℕ ×ₗ ℕ ×ₗ ℤ ×ₗ ℤ :=
  toLex (a.edit.span.start, toLex (a.edit.placement.rank, toLex
    (if a.edit.placement = .overwrite then -(a.edit.span.stop : ℤ) else 0,
      if a.edit.placement = .prepend then -(a.number : ℤ) else a.number)))

theorem before_iff : a.Before b ↔ a.key ≤ b.key := by
  have hrank : a.edit.placement.rank = b.edit.placement.rank ↔ a.edit.placement = b.edit.placement :=
    ⟨Edit.rank_inj, congrArg Placement.rank⟩
  simp only [Before, order, key, Prod.Lex.toLex_le_toLex, isLE_then_compare, hrank]
  refine or_congr_right (and_congr_right fun _ => or_congr_right (and_congr_right fun hp => ?_))
  rw [← hp]
  cases a.edit.placement with
  | prepend | append => simp [Nat.isLE_compare]
  | overwrite =>
    simp only [isLE_then_compare, Nat.isLE_compare]
    simp
    omega

theorem Before.le (h : a.Before b) : a.edit.le b.edit = true := by
  rw [before_iff, key, key, Prod.Lex.toLex_le_toLex, Prod.Lex.toLex_le_toLex, Prod.Lex.toLex_le_toLex] at h
  rw [Edit.le_iff]
  refine h.imp_right (And.imp_right (Or.imp_right fun ⟨hrank, h⟩ => ⟨Edit.rank_inj hrank, fun ho => ?_⟩))
  have hboth := Edit.rank_inj hrank
  simp only [← hboth, ho, if_true] at h
  omega

/-- Edits that do not tie are rendered in their order, whatever their numbers. -/
theorem before_of_not_le (h : ¬ a.edit.le b.edit = true) : b.Before a := by
  rcases le_or_gt a.key b.key with hle | hlt
  · exact absurd (before_iff.mpr hle).le h
  · exact before_iff.mpr hlt.le

theorem before_of_le (h : a.edit.le b.edit = true)
    (hnumbers : if a.edit.placement = .prepend then b.number ≤ a.number else a.number ≤ b.number) :
      a.Before b := by
  rw [Edit.le_iff] at h
  rw [before_iff, key, key, Prod.Lex.toLex_le_toLex, Prod.Lex.toLex_le_toLex, Prod.Lex.toLex_le_toLex]
  refine h.imp_right (And.imp_right (Or.imp_right fun ⟨hp, hstop⟩ => ⟨congrArg Placement.rank hp, ?_⟩))
  rw [← hp]
  cases ha : a.edit.placement with
  | prepend | append =>
    simp only [ha] at hnumbers ⊢
    simp at hnumbers ⊢
    exact hnumbers
  | overwrite =>
    have hstop := hstop ha
    simp only [ha] at hnumbers ⊢
    simp at hnumbers ⊢
    omega

theorem Before.trans (hab : a.Before b) (hbc : b.Before c) : a.Before c :=
  before_iff.mpr ((before_iff.mp hab).trans (before_iff.mp hbc))

theorem before_total (a b : NumberedEdit) : ((a.order b).isLE || (b.order a).isLE) = true := by
  rw [Bool.or_eq_true]
  exact (le_total a.key b.key).imp before_iff.mpr before_iff.mpr

theorem number_eq (hab : a.Before b) (hba : b.Before a) : a.number = b.number := by
  have hkey := le_antisymm (before_iff.mp hab) (before_iff.mp hba)
  simp only [key, toLex_inj, Prod.mk.injEq] at hkey
  obtain ⟨-, hrank, -, hnumber⟩ := hkey
  rw [Edit.rank_inj hrank] at hnumber
  split at hnumber <;> omega

end NumberedEdit

/-! ## Arrangements -/

/-- Sorting by a coarser order keeps a finer one that the list follows wherever the coarser one ties. -/
theorem pairwise_insertionSort_of_ties {α : Type} {r s : α → α → Prop} [DecidableRel r]
    (htrans : ∀ a b c, r a b → r b c → r a c) (hcoarser : ∀ a b, s a b → r a b) (hapart : ∀ a b, ¬ r a b → s b a) :
    ∀ {l : List α}, l.Pairwise (fun a b => r a b → s a b) → (l.insertionSort r).Pairwise s
  | [], _ => List.Pairwise.nil
  | a :: l, h => by
    obtain ⟨hfirst, h⟩ := List.pairwise_cons.mp h
    have ih := pairwise_insertionSort_of_ties htrans hcoarser hapart h
    have hties : ∀ b ∈ l.insertionSort r, r a b → s a b := fun b hb => hfirst b ((List.mem_insertionSort r).mp hb)
    rw [List.insertionSort_cons]
    generalize l.insertionSort r = sorted at ih hties
    induction sorted with
    | nil => exact List.pairwise_singleton s a
    | cons b sorted ih' =>
      obtain ⟨hnext, hsorted⟩ := List.pairwise_cons.mp ih
      rw [List.orderedInsert_cons]
      split
      · rename_i hab
        refine List.pairwise_cons.mpr ⟨fun c hc => ?_, ih⟩
        rcases List.mem_cons.mp hc with rfl | hc'
        · exact hties _ (List.mem_cons_self ..) hab
        · exact hties c hc (htrans a b c hab (hcoarser b c (hnext c hc')))
      · rename_i hab
        refine List.pairwise_cons.mpr ⟨fun c hc => ?_, ih' hsorted fun c hc => hties c (List.mem_cons_of_mem _ hc)⟩
        rcases (List.mem_orderedInsert r).mp hc with rfl | hc
        · exact hapart _ _ hab
        · exact hnext c hc

namespace Buffer

def Numbered (kept : List NumberedEdit) : Prop :=
  kept.Pairwise fun a b => a.number < b.number

theorem Numbered.eq_of_number {kept : List NumberedEdit} (h : Numbered kept) {a b : NumberedEdit} (ha : a ∈ kept)
    (hb : b ∈ kept) (hnumber : a.number = b.number) : a = b := by
  have hnodup : (kept.map NumberedEdit.number).Nodup := List.pairwise_map.mpr (h.imp Nat.ne_of_lt)
  exact List.inj_on_of_nodup_map hnodup ha hb hnumber

def listed (kept : List NumberedEdit) : List NumberedEdit :=
  (kept.filter (·.edit.placement = .prepend)).reverse ++ kept.filter (·.edit.placement ≠ .prepend)

theorem listed_perm (kept : List NumberedEdit) : (listed kept).Perm kept := by
  refine ((List.reverse_perm _).append_right _).trans ?_
  simpa using List.filter_append_perm (·.edit.placement = .prepend) kept

theorem listed_map (kept : List NumberedEdit) : (listed kept).map NumberedEdit.edit =
    ((kept.map NumberedEdit.edit).filter (·.placement = .prepend)).reverse ++
      (kept.map NumberedEdit.edit).filter (·.placement ≠ .prepend) := by
  simp only [listed, List.map_append, List.map_reverse, List.filter_map, Function.comp_def]

theorem listed_ties {kept : List NumberedEdit} (h : Numbered kept) :
    (listed kept).Pairwise fun a b => a.edit.le b.edit = true → a.Before b := by
  refine List.pairwise_append.mpr ⟨List.pairwise_reverse.mpr ?_, ?_, ?_⟩
  · refine List.Pairwise.imp_of_mem (fun {a b} _ hb hlt hle => ?_) (h.filter _)
    have hprepend : b.edit.placement = .prepend := by simpa using (List.mem_filter.mp hb).2
    exact NumberedEdit.before_of_le hle (by rw [if_pos hprepend]; exact Nat.le_of_lt hlt)
  · refine List.Pairwise.imp_of_mem (fun {a b} ha _ hlt hle => ?_) (h.filter _)
    have hother : a.edit.placement ≠ .prepend := by simpa using (List.mem_filter.mp ha).2
    exact NumberedEdit.before_of_le hle (by rw [if_neg hother]; exact Nat.le_of_lt hlt)
  · intro a ha b hb hle
    have hprepend : a.edit.placement = .prepend := by simpa using (List.mem_filter.mp (List.mem_reverse.mp ha)).2
    have hother : b.edit.placement ≠ .prepend := by simpa using (List.mem_filter.mp hb).2
    -- a prepend ties with nothing else
    refine NumberedEdit.before_of_not_le fun hback => ?_
    rw [Edit.le_iff, hprepend] at hle hback
    rcases hback with hlt | ⟨hstart, hrank | ⟨heq, -⟩⟩
    · omega
    · exact absurd hrank (Nat.not_lt_zero _)
    · exact hother heq

/-- If the numbers grow, a buffer arranges its edits as its draft does. -/
theorem arrange_eq {kept : List NumberedEdit} (h : Numbered kept) :
    arrange kept = Edit.arrange (kept.map NumberedEdit.edit) := by
  have hmerged : (kept.mergeSort fun a b => (a.order b).isLE).Pairwise NumberedEdit.Before :=
    @List.pairwise_mergeSort _ (fun a b : NumberedEdit => (a.order b).isLE)
      (fun _ _ _ => NumberedEdit.Before.trans)
      NumberedEdit.before_total kept
  have hinserted : ((listed kept).insertionSort fun a b => a.edit.le b.edit = true).Pairwise NumberedEdit.Before :=
    @pairwise_insertionSort_of_ties _ (fun a b : NumberedEdit => a.edit.le b.edit = true) NumberedEdit.Before _
      (fun _ _ _ => Edit.le_trans) (fun _ _ => NumberedEdit.Before.le) (fun _ _ => NumberedEdit.before_of_not_le) _
      (listed_ties h)
  have hperm : (kept.mergeSort fun a b => (a.order b).isLE).Perm
      ((listed kept).insertionSort fun a b => a.edit.le b.edit = true) :=
    (List.mergeSort_perm kept _).trans ((listed_perm kept).symm.trans (List.perm_insertionSort _ _).symm)
  have hsorted := List.Perm.eq_of_pairwise (fun a b ha hb hab hba => ?_) hmerged hinserted hperm
  · rw [arrange, hsorted, Edit.arrange, ← listed_map, Edit.sort_eq]
    exact List.map_insertionSort _ _ _ _ fun _ _ _ _ => Iff.rfl
  · exact h.eq_of_number (List.mem_mergeSort.mp ha) ((listed_perm kept).subset ((List.mem_insertionSort _).mp hb))
      (NumberedEdit.number_eq hab hba)

/-! ## Rendering -/

theorem draft_record (buffer : Buffer) (e : Edit) : (buffer.record e).draft = buffer.draft.record e := by
  unfold record Draft.record
  split
  · rfl
  · simp [draft]

theorem draft_recordAll (calls : List Edit) : ∀ buffer : Buffer,
    (buffer.recordAll calls).draft = buffer.draft.recordAll calls := by
  induction calls with
  | nil => exact fun buffer => rfl
  | cons e calls ih =>
    intro buffer
    rw [recordAll, List.foldl_cons, ← recordAll, ih, draft_record]
    rfl

structure Counted (buffer : Buffer) : Prop where
  numbers : buffer.kept.map NumberedEdit.number = List.range buffer.kept.length
  next : buffer.next = word buffer.kept.length

theorem Counted.numbered {buffer : Buffer} (h : buffer.Counted) : Numbered buffer.kept := by
  have hrange : (buffer.kept.map NumberedEdit.number).Pairwise (· < ·) := h.numbers ▸ List.pairwise_lt_range
  exact List.pairwise_map.mp hrange

theorem Counted.record {buffer : Buffer} (h : buffer.Counted) (hroom : buffer.kept.length < UInt32.size)
    (e : Edit) :
    (buffer.record e).Counted := by
  unfold Buffer.record
  split
  · exact h
  · have hnext : buffer.next = buffer.kept.length := by rw [h.next, word_of_lt hroom]
    refine ⟨?_, ?_⟩
    · rw [List.map_append, h.numbers, List.length_append, List.length_singleton, List.range_succ, ← hnext]
      rfl
    · rw [List.length_append, List.length_singleton, hnext]

theorem length_record_le (buffer : Buffer) (e : Edit) :
    (buffer.record e).kept.length ≤ buffer.kept.length + 1 := by
  unfold record
  split
  · exact Nat.le_succ _
  · rw [List.length_append, List.length_singleton]

theorem Counted.recordAll : ∀ {calls : List Edit} {buffer : Buffer}, buffer.Counted →
    buffer.kept.length + calls.length ≤ UInt32.size → (buffer.recordAll calls).Counted
  | [], _, h, _ => h
  | e :: calls, buffer, h, hroom => by
    rw [List.length_cons] at hroom
    have hlength := buffer.length_record_le e
    exact (h.record (by omega) e).recordAll (by omega)

theorem renderRange_eq {buffer : Buffer} (h : Numbered buffer.kept) :
    ∀ (depth : Nat) (range : Span) (nested : Bool), buffer.renderRange depth range nested =
      buffer.draft.renderRange depth range nested
  | 0, _, _ => rfl
  | depth + 1, range, nested => by
    have ih : (fun inner => buffer.renderRange depth inner true) = fun inner =>
        buffer.draft.renderRange depth inner true :=
      funext fun inner => renderRange_eq h depth inner true
    rw [renderRange, Draft.renderRange, ih, arrange_eq (h.filter _), draft, List.filter_map]
    rfl

/-- While words are enough, a buffer renders what the draft of the same calls does. -/
theorem render_eq {source : String} {calls : List Edit} (hlength : byteLength source.toList < UInt32.size)
    (hcalls : calls.length ≤ UInt32.size) :
    ((ofText source).recordAll calls).render = ((Draft.ofText source).recordAll calls).render := by
  have hcounted : ((ofText source).recordAll calls).Counted :=
    Counted.recordAll ⟨rfl, rfl⟩ (by simpa [ofText] using hcalls)
  have hdraft : ((ofText source).recordAll calls).draft = (Draft.ofText source).recordAll calls :=
    draft_recordAll calls _
  have hsource : ((ofText source).recordAll calls).source = source.toList :=
    (congrArg Draft.source hdraft).trans (by simp [recordAll_eq, Draft.ofText])
  rw [← hdraft, render, Draft.render, renderRange_eq hcounted.numbered, hsource, word_of_lt hlength]
  simp [draft, hsource]

/-- The rest of a source that is too long is lost. -/
theorem render_wrapped {source : String} (h : byteLength source.toList = UInt32.size) :
    (ofText source).render = .ok "" := by
  have hlength : word (byteLength source.toList) = 0 := by rw [h]; rfl
  have hempty : slice? source.toList 0 0 = some [] := by simp [slice?, takeBytes]
  simp only [render, ofText, hlength]
  simp [renderRange, arrange, Draft.splice, Draft.slice, draft, hempty]
  rfl

end Buffer

end ComponentMacros
