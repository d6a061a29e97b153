import ComponentMacros.Proofs.Placement

/-!
# Where an edit ends up

An insertion comes out at its place in the rendering of a range, unless the place
lies strictly inside of a replaced range: between what the edits before it and the
edits behind it make of the source. The same holds of a replacement that no other
one covers. Of several insertions each comes out behind those before it in order.
-/

namespace ComponentMacros

/-- The insertion belongs to the rendering of a range, and nothing that is replaced there reaches over it. -/
def Draft.Reaches (draft : Draft) (range : Span) (nested : Bool) (e : Edit) : Prop :=
  e.isWithin range nested = true ∧ ∀ f ∈ draft.edits, f.isWithin range nested = true → f.placement = .overwrite →
    f.span.stop ≤ e.span.start ∨ e.span.start ≤ f.span.start

instance (draft : Draft) (range : Span) (nested : Bool) (e : Edit) : Decidable (draft.Reaches range nested e) :=
  inferInstanceAs (Decidable (_ ∧ ∀ f ∈ draft.edits, _ → _ → _))

/-- A splice shows an edit: the texts made of what comes before it and behind it stand around its content. -/
structure Draft.ShowsAt (draft : Draft) (inner : Span → Except RenderError (List Char)) (stop cursor : Nat)
    (es : List Edit) (e : Edit) (front content back text : List Char) (after : List Edit) : Prop where
  split : ∃ before, es = before ++ e :: after ∧ e ∉ before ∧ (∀ f ∈ before, f.span.stop ≤ e.span.start) ∧
    draft.splice inner e.span.start cursor before = .ok front
  own : renderContent inner e.content = .ok content
  rest : draft.splice inner stop e.span.stop after = .ok back
  whole : text = front ++ (content ++ back)

def Draft.ShowsIn (draft : Draft) (depth : Nat) (range : Span) (nested : Bool) (e : Edit)
    (front content back out : List Char) (after : List Edit) : Prop :=
  draft.ShowsAt (fun r => draft.renderRange depth r true) range.stop range.start (draft.arranged range nested) e
    front content back out after

def Draft.ShowsInOrder (draft : Draft) (depth : Nat) (range : Span) (nested : Bool) (e e' : Edit)
    (out : List Char) : Prop :=
  ∃ front content middle content' back after after',
    draft.ShowsIn depth range nested e front content (middle ++ (content' ++ back)) out after ∧
      draft.ShowsAt (fun r => draft.renderRange depth r true) range.stop e.span.stop after e' middle content' back
        (middle ++ (content' ++ back)) after'

/-- What is made of the source from a place on is the source itself up to another place, if nothing is changed
before that. -/
def Draft.Keeps (draft : Draft) (lo hi : Nat) (after : List Edit) (back : List Char) : Prop :=
  (∀ f ∈ after, hi ≤ f.span.start) → ∃ kept rest, slice? draft.source lo hi = some kept ∧ back = kept ++ rest

theorem mem_of_pair_sublist {α : Type} {a b : α} :
    ∀ {before after : List α}, [a, b].Sublist (before ++ a :: after) →
    a ∉ before → b ∈ after
  | [], after, h, _ => by
    cases h with
    | cons _ h => exact h.subset (by simp)
    | cons_cons _ h => exact h.subset (by simp)
  | x :: before, after, h, hnew => by
    cases h with
    | cons _ h => exact mem_of_pair_sublist h fun hmem => hnew (List.mem_cons_of_mem _ hmem)
    | cons_cons _ h => exact absurd (List.mem_cons_self ..) hnew

section
variable {draft : Draft} {inner : Span → Except RenderError (List Char)} {stop : Nat}

theorem Draft.Tidy.ends_before (h : draft.Tidy) {before after : List Edit} {e : Edit}
    (hes : ∀ f ∈ before, f ∈ draft.edits) (hsorted : (before ++ e :: after).Pairwise fun a b => a.le b = true)
    (hp : e.placement ≠ .overwrite)
    (hclear : ∀ f ∈ before, f.placement = .overwrite → f.span.stop ≤ e.span.start ∨ e.span.start ≤ f.span.start) :
    ∀ f ∈ before, f.span.stop ≤ e.span.start := by
  intro f hf
  have hle := (List.pairwise_append.mp hsorted).2.2 f hf e (List.mem_cons_self ..)
  have hstart := Edit.start_le_of_le hle
  by_cases hfo : f.placement = .overwrite
  · rcases hclear f hf hfo with hstop | hlater
    · exact hstop
    · -- at one place insertions come before replacements
      rcases Edit.le_iff.mp hle with hlt | ⟨-, hrank | ⟨hsame, -⟩⟩
      · omega
      · rw [hfo] at hrank
        cases hplacement : e.placement with
        | overwrite => exact absurd hplacement hp
        | prepend => rw [hplacement] at hrank; exact absurd hrank (by decide)
        | append => rw [hplacement] at hrank; exact absurd hrank (by decide)
      · exact absurd (hsame.symm.trans hfo) hp
  · rw [h.point f (hes f hf) hfo]
    exact hstart

theorem Draft.Tidy.splice_insertion (h : draft.Tidy) {es : List Edit} (hes : ∀ f ∈ es, f ∈ draft.edits)
    (hsorted : es.Pairwise fun a b => a.le b = true) {e : Edit} (he : e ∈ es) (hp : e.placement ≠ .overwrite)
    (hclear : ∀ f ∈ es, f.placement = .overwrite → f.span.stop ≤ e.span.start ∨ e.span.start ≤ f.span.start)
    {cursor : Nat} (hcursor : cursor ≤ e.span.start) {text : List Char}
    (htext : draft.splice inner stop cursor es = .ok text) :
    ∃ front content back after, draft.ShowsAt inner stop cursor es e front content back text after := by
  obtain ⟨before, after, rfl, hfresh⟩ := List.eq_append_cons_of_mem he
  have hbefore := h.ends_before (fun f hf => hes f (List.mem_append_left _ hf)) hsorted hp
    fun f hf => hclear f (List.mem_append_left _ hf)
  obtain ⟨front, content, back, hfront, hcontent, hback, rfl⟩ := splice_reaches hbefore hcursor htext
  exact ⟨front, content, back, after, ⟨before, rfl, hfresh, hbefore, hfront⟩, hcontent, hback, rfl⟩

theorem Draft.Tidy.insertion_in_place (h : draft.Tidy) {e : Edit} (he : e ∈ draft.edits)
    (hp : e.placement ≠ .overwrite) {depth : Nat} {range : Span} {nested : Bool}
    (hreach : draft.Reaches range nested e)
    {out : List Char} (hout : draft.renderRange (depth + 1) range nested = .ok out) :
    ∃ front content back after, draft.ShowsIn depth range nested e front content back out after := by
  have hcursor : range.start ≤ e.span.start := by
    have hin := hreach.1
    unfold Edit.isWithin at hin
    split at hin
    · exact absurd ‹_› hp
    · split at hin <;> simp only [Bool.and_eq_true, decide_eq_true_eq] at hin <;> omega
  apply h.splice_insertion (fun f hf => (mem_arranged.mp hf).1) (Edit.arrange_pairwise _)
    (mem_arranged.mpr ⟨he, hreach.1⟩)
    hp (fun f hf => hreach.2 f (mem_arranged.mp hf).1 (mem_arranged.mp hf).2) hcursor hout

theorem Draft.splice_keeps {cursor pos : Nat} (hpos : IsBoundary draft.source pos) (hcursor : cursor ≤ pos)
    (hstop : pos ≤ stop) {es : List Edit} (hes : ∀ e ∈ es, pos ≤ e.span.start) {text : List Char}
    (h : draft.splice inner stop cursor es = .ok text) :
    ∃ kept rest, slice? draft.source cursor pos = some kept ∧ text = kept ++ rest := by
  have hsplit : ∀ {hi : Nat} {part : List Char}, pos ≤ hi → slice? draft.source cursor hi = some part →
      ∃ kept rest, slice? draft.source cursor pos = some kept ∧ part = kept ++ rest := by
    intro hi part hhi hpart
    obtain ⟨-, hlow, hhigh⟩ := slice?_isSome_iff.mp (Option.isSome_of_mem hpart)
    obtain ⟨kept, hkept⟩ := Option.isSome_iff_exists.mp (slice?_isSome_iff.mpr ⟨hcursor, hlow, hpos⟩)
    obtain ⟨rest, hrest⟩ := Option.isSome_iff_exists.mp (slice?_isSome_iff.mpr ⟨hhi, hpos, hhigh⟩)
    exact ⟨kept, rest, hkept, Option.some.inj (hpart.symm.trans (slice?_append hkept hrest))⟩
  cases es with
  | nil => exact hsplit hstop (slice_eq_ok.mp h)
  | cons e es =>
    have hstart := hes e (List.mem_cons_self ..)
    obtain ⟨kept, own, rest, hkept, -, -, rfl⟩ := (splice_cons (Nat.le_trans hcursor hstart)).mp h
    obtain ⟨front, back, hfront, rfl⟩ := hsplit hstart (slice_eq_ok.mp hkept)
    exact ⟨front, back ++ (own ++ rest), hfront, List.append_assoc ..⟩

/-- An insertion of a text comes out in a rendering, and what is behind it is kept. -/
theorem Draft.Tidy.text_in_place (h : draft.Tidy) {e : Edit} (he : e ∈ draft.edits) (hp : e.placement ≠ .overwrite)
    (text : String) (hcontent : e.content = .ofText text) {depth : Nat} {range : Span} {nested : Bool}
    (hreach : draft.Reaches range nested e) {out : List Char}
    (hout : draft.renderRange (depth + 1) range nested = .ok out) {hi : Nat} (hhi : IsBoundary draft.source hi)
    (hle : e.span.stop ≤ hi) (hstop : hi ≤ range.stop) :
    ∃ front back after, draft.ShowsIn depth range nested e front text.toList back out after ∧
      draft.Keeps e.span.stop hi after back := by
  obtain ⟨front, content, back, after, hshows⟩ := h.insertion_in_place he hp hreach hout
  have hown := hshows.own
  rw [hcontent, Draft.renderContent_ofText] at hown
  cases hown
  exact ⟨front, back, after, hshows, fun hafter => Draft.splice_keeps hhi hle hstop hafter hshows.rest⟩

theorem Draft.Tidy.replacement_in_place (h : draft.Tidy) {e : Edit} (he : e ∈ draft.edits)
    (ho : e.placement = .overwrite) (hpos : e.span.start < e.span.stop) {depth : Nat} {range : Span}
    {nested : Bool}
    (hrange : range.contains e.span = true) (hcover : draft.Uncovered range nested e) {out : List Char}
    (hout : draft.renderRange (depth + 1) range nested = .ok out) :
    ∃ front content back after, draft.ShowsIn depth range nested e front content back out after := by
  have hin : e.isWithin range nested = true := by
    unfold Edit.isWithin
    rw [ho]
    exact hrange
  obtain ⟨before, after, front, content, back, hsplit, hbefore, hfront, hcontent, hback, rfl⟩ :=
    h.splice_around (fun f hf => (mem_arranged.mp hf).1) (Edit.arrange_pairwise _)
      (mem_arranged.mpr ⟨he, hin⟩) ho hpos
      (fun f hf => hcover f (mem_arranged.mp hf).1 (mem_arranged.mp hf).2) (Span.contains_iff.mp hrange).1 hout
  have hfresh : e ∉ before := by
    intro hmem
    have := hbefore e hmem
    omega
  exact ⟨front, content, back, after, ⟨before, hsplit, hfresh, hbefore, hfront⟩, hcontent, hback, rfl⟩

theorem Draft.Tidy.insertion_behind (h : draft.Tidy) {es : List Edit} (hes : ∀ f ∈ es, f ∈ draft.edits)
    (hsorted : es.Pairwise fun a b => a.le b = true) {e e' : Edit} (hp : e.placement ≠ .overwrite)
    (hp' : e'.placement ≠ .overwrite)
    (hclear : ∀ f ∈ es, f.placement = .overwrite → f.span.stop ≤ e'.span.start ∨ e'.span.start ≤ f.span.start)
    {cursor : Nat} {front content back text : List Char} {after : List Edit}
    (hshows : draft.ShowsAt inner stop cursor es e front content back text after) (he' : e' ∈ after) :
    ∃ front' content' back' after',
      draft.ShowsAt inner stop e.span.stop after e' front' content' back' back after' := by
  obtain ⟨before, rfl, -, -, -⟩ := hshows.split
  have hsub : ∀ f ∈ after, f ∈ before ++ e :: after :=
    fun f hf => List.mem_append_right _ (List.mem_cons_of_mem _ hf)
  have hafter := List.pairwise_cons.mp (List.pairwise_append.mp hsorted).2.1
  have hstart : e.span.stop ≤ e'.span.start := by
    rw [h.point e (hes e (List.mem_append_right _ (List.mem_cons_self ..))) hp]
    exact Edit.start_le_of_le (hafter.1 e' he')
  exact h.splice_insertion (fun f hf => hes f (hsub f hf)) hafter.2 he' hp'
    (fun f hf => hclear f (hsub f hf)) hstart
    hshows.rest

theorem Draft.Tidy.insertions_in_order (h : draft.Tidy) {depth : Nat} {range : Span} {nested : Bool} {e e' : Edit}
    (horder : [e, e'].Sublist (draft.arranged range nested)) (hp : e.placement ≠ .overwrite)
    (hp' : e'.placement ≠ .overwrite) (hreach : draft.Reaches range nested e)
    (hreach' : draft.Reaches range nested e')
    {out : List Char} (hout : draft.renderRange (depth + 1) range nested = .ok out) :
    draft.ShowsInOrder depth range nested e e' out := by
  obtain ⟨front, content, back, after, hshows⟩ :=
    h.insertion_in_place (mem_arranged.mp (horder.subset (List.mem_cons_self ..))).1 hp hreach hout
  obtain ⟨before, hsplit, hfresh, -⟩ := hshows.split
  rw [hsplit] at horder
  obtain ⟨middle, content', back', after', hbehind⟩ := h.insertion_behind (fun f hf => (mem_arranged.mp hf).1)
    (Edit.arrange_pairwise _) hp hp' (fun f hf => hreach'.2 f (mem_arranged.mp hf).1 (mem_arranged.mp hf).2) hshows
    (mem_of_pair_sublist horder hfresh)
  have hwhole := hbehind.whole
  subst hwhole
  exact ⟨front, content, middle, content', back', after, after', hshows, hbehind⟩

theorem Draft.pair_arranged {range : Span} {nested : Bool} {e e' : Edit} (he : e ∈ draft.edits)
    (he' : e' ∈ draft.edits)
    (hin : e.isWithin range nested = true) (hin' : e'.isWithin range nested = true) (hlater : e'.le e = false) :
    [e, e'].Sublist (draft.arranged range nested) := by
  have hsorted : (draft.arranged range nested).Pairwise fun a b => a.le b = true := Edit.arrange_pairwise _
  obtain ⟨before, after, hsplit⟩ := List.append_of_mem (mem_arranged.mpr ⟨he, hin⟩)
  have hmem' := mem_arranged.mpr ⟨he', hin'⟩
  rw [hsplit] at hsorted hmem' ⊢
  refine (List.Sublist.cons_cons e (List.singleton_sublist.mpr ?_)).trans (List.sublist_append_right ..)
  rcases List.mem_append.mp hmem' with hmem | hmem
  · rw [(List.pairwise_append.mp hsorted).2.2 e' hmem e (List.mem_cons_self ..)] at hlater
    cases hlater
  · rcases List.mem_cons.mp hmem with rfl | hmem
    · rw [Edit.le_iff.mpr (Or.inr ⟨rfl, Or.inr ⟨rfl, fun _ => Nat.le_refl _⟩⟩)] at hlater
      cases hlater
    · exact hmem

end

end ComponentMacros
