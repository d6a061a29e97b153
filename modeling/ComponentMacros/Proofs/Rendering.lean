import Mathlib.Data.List.Perm.Subperm
import Mathlib.Logic.Relation
import ComponentMacros.Proofs.RenderLog

/-!
# Renderings succeed

A reference is followed only as deep as the number of edits allows. That is
enough for every draft in which no edit refers, over however many others, to its
own range: a chain of references then visits no edit twice. If besides every
position is a character boundary, the draft has a rendering.
-/

namespace ComponentMacros

namespace Draft

def Selects (draft : Draft) (e f : Edit) : Prop :=
  e ∈ draft.edits ∧ f ∈ draft.edits ∧ e.selects f = true

/-- No chain of references leads back to the edit it starts from. -/
def Acyclic (draft : Draft) : Prop :=
  ∀ e, ¬ Relation.TransGen draft.Selects e e

/-- Every position and every reference can be cut out of the source. -/
structure InRange (draft : Draft) : Prop where
  span : ∀ e ∈ draft.edits, e.span.Fits draft.source
  reference : ∀ e ∈ draft.edits, ∀ range, .source range ∈ e.content → range.Fits draft.source

end Draft

theorem Fragment.source_not_mem_ofText {text : String} {range : Span} : .source range ∉ Fragment.ofText text := by
  unfold Fragment.ofText
  split <;> simp

namespace Edit

theorem selects_iff {e f : Edit} :
    e.selects f = true ↔ ∃ range, .source range ∈ e.content ∧ f.isWithin range true = true := by
  unfold selects
  rw [List.any_eq_true]
  constructor
  · rintro ⟨_ | range, hpiece, hin⟩
    · cases hin
    · exact ⟨range, hpiece, hin⟩
  · rintro ⟨range, hpiece, hin⟩
    exact ⟨.source range, hpiece, hin⟩

theorem isWithin_stop {e : Edit} (hpoint : e.placement ≠ .overwrite → e.span.stop = e.span.start) {range : Span}
    {nested : Bool} (h : e.isWithin range nested = true) : e.span.stop ≤ range.stop := by
  by_cases ho : e.placement = .overwrite
  · rw [isWithin, ho] at h
    exact (Span.contains_iff.mp h).2
  · rw [hpoint ho]
    unfold isWithin at h
    split at h
    · rename_i hp; exact absurd hp ho
    · split at h <;> simp only [Bool.and_eq_true, decide_eq_true_eq] at h <;> omega

end Edit

section
variable {draft : Draft} {inner : Span → Except RenderError (List Char)}

theorem slice_ok {range : Span} (h : range.Fits draft.source) : ∃ text, draft.slice range = .ok text := by
  obtain ⟨text, htext⟩ := Option.isSome_iff_exists.mp (slice?_isSome_iff.mpr h)
  exact ⟨text, by rw [Draft.slice, htext]⟩

theorem renderContent_ok :
    ∀ {content : Fragment}, (∀ range, .source range ∈ content → ∃ text, inner range = .ok text) →
    ∃ text, Draft.renderContent inner content = .ok text
  | [], _ => ⟨[], rfl⟩
  | .text t :: pieces, h => by
    obtain ⟨rest, hrest⟩ := renderContent_ok fun range hr => h range (List.mem_cons_of_mem _ hr)
    exact ⟨t.toList ++ rest, by rw [Draft.renderContent, hrest]; rfl⟩
  | .source range :: pieces, h => by
    obtain ⟨moved, hmoved⟩ := h range (List.mem_cons_self ..)
    obtain ⟨rest, hrest⟩ := renderContent_ok fun range hr => h range (List.mem_cons_of_mem _ hr)
    exact ⟨moved ++ rest, by rw [Draft.renderContent, hmoved, hrest]; rfl⟩

theorem splice_ok (hrange : draft.InRange) {stop : Nat} (hstop : IsBoundary draft.source stop) :
    ∀ (es : List Edit) (cursor : Nat), (∀ e ∈ es, e ∈ draft.edits ∧ e.span.stop ≤ stop) →
      (∀ e ∈ es, ∀ range, .source range ∈ e.content → ∃ text, inner range = .ok text) →
      IsBoundary draft.source cursor → cursor ≤ stop → ∃ text, draft.splice inner stop cursor es = .ok text
  | [], cursor, _, _, hcursor, hle => slice_ok ⟨hle, hcursor, hstop⟩
  | e :: es, cursor, hes, hinner, hcursor, hle => by
    have hlater : ∀ f ∈ es, f ∈ draft.edits ∧ f.span.stop ≤ stop := fun f hf => hes f (List.mem_cons_of_mem _ hf)
    have hinner' : ∀ f ∈ es, ∀ range, .source range ∈ f.content → ∃ text, inner range = .ok text :=
      fun f hf => hinner f (List.mem_cons_of_mem _ hf)
    rw [Draft.splice]
    split
    · exact splice_ok hrange hstop es cursor hlater hinner' hcursor hle
    · rename_i hlt
      obtain ⟨hmem, hend⟩ := hes e (List.mem_cons_self ..)
      have hfits := hrange.span e hmem
      obtain ⟨kept, hkept⟩ := @slice_ok draft ⟨cursor, e.span.start⟩ ⟨Nat.le_of_not_lt hlt, hcursor, hfits.2.1⟩
      obtain ⟨content, hcontent⟩ := renderContent_ok (hinner e (List.mem_cons_self ..))
      obtain ⟨rest, hrest⟩ := splice_ok hrange hstop es e.span.stop hlater hinner' hfits.2.2 hend
      exact ⟨kept ++ content ++ rest, by rw [hkept, hcontent, hrest]; rfl⟩

/-- The edits in `chain` are being rendered. Each leads to everything in the range, so none of them
is met again, and there are not more of them than edits. -/
theorem renderRange_ok (hacyclic : draft.Acyclic) (hrange : draft.InRange)
    (hpoint : ∀ e ∈ draft.edits, e.placement ≠ .overwrite → e.span.stop = e.span.start) :
    ∀ (depth : Nat) (range : Span) (nested : Bool) (chain : List Edit), chain.Nodup → chain ⊆ draft.edits →
      draft.edits.length + 1 ≤ depth + chain.length → range.Fits draft.source →
      (∀ c ∈ chain, ∀ e ∈ draft.edits, e.isWithin range nested = true → Relation.TransGen draft.Selects c e) →
      ∃ text, draft.renderRange depth range nested = .ok text := by
  intro depth
  induction depth with
  | zero =>
    intro range nested chain hnodup hsub hlen _ _
    have := (hnodup.subperm hsub).length_le
    omega
  | succ depth ih =>
    intro range nested chain hnodup hsub hlen hfits hreach
    rw [Draft.renderRange]
    have hmem : ∀ e ∈ Edit.arrange (draft.edits.filter (·.isWithin range nested)),
        e ∈ draft.edits ∧ e.isWithin range nested = true := by
      intro e he
      exact List.mem_filter.mp (Edit.mem_arrange.mp he)
    refine splice_ok hrange hfits.2.2 _ _ ?_ ?_ hfits.2.1 hfits.1
    · intro e he
      obtain ⟨hedit, hin⟩ := hmem e he
      exact ⟨hedit, Edit.isWithin_stop (hpoint e hedit) hin⟩
    · intro e he inner hinner
      obtain ⟨hedit, hin⟩ := hmem e he
      have hnew : e ∉ chain := fun hc => hacyclic e (hreach e hc e hedit hin)
      refine ih inner true (e :: chain) (List.nodup_cons.mpr ⟨hnew, hnodup⟩) (List.cons_subset.mpr ⟨hedit, hsub⟩)
        (by rw [List.length_cons]; omega) (hrange.reference e hedit inner hinner) ?_
      intro c hc f hf hfin
      have hstep : draft.Selects e f := ⟨hedit, hf, Edit.selects_iff.mpr ⟨inner, hinner, hfin⟩⟩
      rcases List.mem_cons.mp hc with rfl | hc
      · exact .single hstep
      · exact (hreach c hc e hedit hin).tail hstep

theorem render_ok (hacyclic : draft.Acyclic) (hrange : draft.InRange)
    (hpoint : ∀ e ∈ draft.edits, e.placement ≠ .overwrite → e.span.stop = e.span.start) :
    ∃ code, draft.render = .ok code := by
  obtain ⟨text, htext⟩ :=
    renderRange_ok hacyclic hrange hpoint (draft.edits.length + 1) ⟨0, byteLength draft.source⟩
    false [] List.nodup_nil (List.nil_subset _) (by simp) ⟨Nat.zero_le _, isBoundary_zero _, isBoundary_length _⟩
    (fun c hc => nomatch hc)
  exact ⟨String.ofList text, by rw [Draft.render, htext]; rfl⟩

end

end ComponentMacros
