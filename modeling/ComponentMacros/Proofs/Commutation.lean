import Mathlib.Data.List.Pairwise
import ComponentMacros.Proofs.Arrangement
import ComponentMacros.Proofs.Inlining
import ComponentMacros.Proofs.Recorded

/-!
# Edits that commute

Only edits of one kind for one place stack on each other. On all other edits the
rendering order is antisymmetric, so they are arranged alike in whatever order
they were recorded, at every level of nesting. Whether an edit is refused depends
on the edit alone.
-/

namespace ComponentMacros

/-! ## One arrangement -/

namespace Edit

/-- The edits do not stack: they are no insertions of one kind at one position and no replacements of one range. -/
def Independent (a b : Edit) : Prop :=
  a.placement = b.placement → if a.placement = .overwrite then a.span ≠ b.span else a.span.start ≠ b.span.start

instance (a b : Edit) : Decidable (Independent a b) :=
  inferInstanceAs (Decidable (_ → _))

theorem Independent.symm {a b : Edit} (h : Independent a b) : Independent b a := by
  intro hp
  have := h hp.symm
  rw [← hp] at this
  split at this <;> simp_all [eq_comm]

instance : Std.Symm Independent := ⟨fun _ _ => .symm⟩

theorem stop_le_of_le {a b : Edit} (h : a.le b = true) (hstart : a.span.start = b.span.start)
    (hp : a.placement = b.placement) (ho : a.placement = .overwrite) : b.span.stop ≤ a.span.stop := by
  rcases le_iff.mp h with hlt | ⟨-, hlt | ⟨-, hstop⟩⟩
  · omega
  · rw [hp] at hlt
    omega
  · exact hstop ho

theorem tie_of_le {a b : Edit} (hab : a.le b = true) (hba : b.le a = true) :
    a.placement = b.placement ∧ a.span.start = b.span.start ∧ (a.placement = .overwrite → a.span = b.span) := by
  have hab' := le_iff.mp hab
  have hba' := le_iff.mp hba
  have hstart : a.span.start = b.span.start := by omega
  have hp : a.placement = b.placement := by
    rcases hab' with hlt | ⟨-, hlt | ⟨hp, -⟩⟩
    · omega
    · rcases hba' with hlt' | ⟨-, hlt' | ⟨hp, -⟩⟩
      · omega
      · omega
      · exact hp.symm
    · exact hp
  refine ⟨hp, hstart, fun ho => congrArg₂ Span.mk hstart (Nat.le_antisymm ?_ ?_)⟩
  · exact stop_le_of_le hba hstart.symm hp.symm (hp ▸ ho)
  · exact stop_le_of_le hab hstart hp ho

theorem Independent.not_le {a b : Edit} (h : Independent a b) (hab : a.le b = true) : b.le a = false := by
  by_contra hba
  obtain ⟨hp, hstart, hspan⟩ := tie_of_le hab (Bool.eq_true_of_not_eq_false hba)
  have hne := h hp
  split at hne
  · exact hne (hspan ‹_›)
  · exact hne hstart

theorem arrange_eq_of_perm {es fs : List Edit} (hperm : es.Perm fs) (h : es.Pairwise Independent) :
    arrange es = arrange fs := by
  refine List.Perm.eq_of_pairwise (fun a b ha hb hab hba => ?_) (arrange_pairwise es) (arrange_pairwise fs) ?_
  · by_contra hne
    have hind := h.forall (mem_arrange.mp ha) (hperm.mem_iff.mpr (mem_arrange.mp hb)) hne
    rw [hind.not_le hab] at hba
    cases hba
  · exact (arrange_perm es).trans (hperm.trans (arrange_perm fs).symm)

end Edit

/-! ## One rendering -/

namespace Draft

theorem splice_source {draft other : Draft} (hsource : other.source = draft.source)
    (inner : Span → Except RenderError (List Char)) (stop : Nat) : ∀ (cursor : Nat) (es : List Edit),
      other.splice inner stop cursor es = draft.splice inner stop cursor es
  | cursor, [] => by simp only [splice, slice, hsource]
  | cursor, e :: es => by
    simp only [splice, slice, hsource, splice_source hsource inner stop]

theorem renderRange_perm {draft other : Draft} (hsource : other.source = draft.source)
    (hperm : draft.edits.Perm other.edits) (h : draft.edits.Pairwise Edit.Independent) :
    ∀ (depth : Nat) (range : Span) (nested : Bool),
      other.renderRange depth range nested = draft.renderRange depth range nested
  | 0, _, _ => rfl
  | depth + 1, range, nested => by
    have harranged := Edit.arrange_eq_of_perm (hperm.filter (·.isWithin range nested)) (h.filter _)
    rw [renderRange, renderRange, ← harranged, splice_source hsource]
    congr 1
    funext inner
    exact renderRange_perm hsource hperm h depth inner true

theorem render_perm {draft other : Draft} (hsource : other.source = draft.source)
    (hperm : draft.edits.Perm other.edits) (h : draft.edits.Pairwise Edit.Independent) :
    other.render = draft.render := by
  rw [render, render, hsource, ← hperm.length_eq, renderRange_perm hsource hperm h]

/-! ## No circle -/

section
variable {draft : Draft} {inner : Span → Except RenderError (List Char)}

theorem bind_ne_circular {α β : Type} {x : Except RenderError α} {f : α → Except RenderError β}
    (hx : x ≠ .error .circular) (hf : ∀ a, f a ≠ .error .circular) : x >>= f ≠ .error .circular := by
  cases x with
  | error e => simpa [bind, Except.bind] using hx
  | ok a => exact hf a

theorem pure_ne_circular {α : Type} (a : α) : (pure a : Except RenderError α) ≠ .error .circular := by
  simp [pure, Except.pure]

theorem slice_ne_circular (range : Span) : draft.slice range ≠ .error .circular := by
  unfold slice
  split <;> simp

theorem renderContent_ne_circular : ∀ {content : Fragment},
    (∀ range, .source range ∈ content → inner range ≠ .error .circular) →
      renderContent inner content ≠ .error .circular
  | [], _ => pure_ne_circular _
  | .text t :: pieces, h => by
    rw [renderContent]
    exact bind_ne_circular (renderContent_ne_circular fun range hr => h range (List.mem_cons_of_mem _ hr))
      fun _ => pure_ne_circular _
  | .source range :: pieces, h => by
    rw [renderContent]
    refine bind_ne_circular (h range (List.mem_cons_self ..)) fun moved => ?_
    exact bind_ne_circular (renderContent_ne_circular fun range hr => h range (List.mem_cons_of_mem _ hr))
      fun _ => pure_ne_circular _

theorem splice_ne_circular {stop : Nat} : ∀ {es : List Edit} {cursor : Nat},
    (∀ e ∈ es, ∀ range, .source range ∈ e.content → inner range ≠ .error .circular) →
      draft.splice inner stop cursor es ≠ .error .circular
  | [], cursor, _ => slice_ne_circular _
  | e :: es, cursor, h => by
    have hlater : ∀ cursor, draft.splice inner stop cursor es ≠ .error .circular :=
      fun cursor => splice_ne_circular fun f hf => h f (List.mem_cons_of_mem _ hf)
    rw [splice]
    split
    · exact hlater cursor
    · refine bind_ne_circular (slice_ne_circular _) fun kept => ?_
      refine bind_ne_circular (renderContent_ne_circular (h e (List.mem_cons_self ..))) fun content => ?_
      exact bind_ne_circular (hlater _) fun _ => pure_ne_circular _

theorem renderRange_ne_circular (hacyclic : draft.Acyclic) : ∀ (depth : Nat) (range : Span) (nested : Bool)
    (chain : List Edit), chain.Nodup → chain ⊆ draft.edits → draft.edits.length + 1 ≤ depth + chain.length →
      (∀ c ∈ chain, ∀ e ∈ draft.edits, e.isWithin range nested = true → Relation.TransGen draft.Selects c e) →
      draft.renderRange depth range nested ≠ .error .circular := by
  intro depth
  induction depth with
  | zero =>
    intro range nested chain hnodup hsub hlen _
    have := (hnodup.subperm hsub).length_le
    omega
  | succ depth ih =>
    intro range nested chain hnodup hsub hlen hreach
    rw [renderRange]
    refine splice_ne_circular fun e he inner hinner => ?_
    obtain ⟨hedit, hin⟩ := List.mem_filter.mp (Edit.mem_arrange.mp he)
    have hnew : e ∉ chain := fun hc => hacyclic e (hreach e hc e hedit hin)
    refine ih inner true (e :: chain) (List.nodup_cons.mpr ⟨hnew, hnodup⟩) (List.cons_subset.mpr ⟨hedit, hsub⟩)
      (by rw [List.length_cons]; omega) ?_
    intro c hc f hf hfin
    have hstep : draft.Selects e f := ⟨hedit, hf, Edit.selects_iff.mpr ⟨inner, hinner, hfin⟩⟩
    rcases List.mem_cons.mp hc with rfl | hc
    · exact .single hstep
    · exact (hreach c hc e hedit hin).tail hstep

theorem render_ne_circular (hacyclic : draft.Acyclic) : draft.render ≠ .error .circular := by
  have h := renderRange_ne_circular hacyclic (draft.edits.length + 1) ⟨0, byteLength draft.source⟩ false []
    List.nodup_nil (List.nil_subset _) (by simp) (fun c hc => absurd hc List.not_mem_nil)
  unfold render
  cases htext : draft.renderRange (draft.edits.length + 1) ⟨0, byteLength draft.source⟩ false with
  | ok text => exact pure_ne_circular _
  | error e =>
    rw [htext] at h
    simpa [Except.map] using h

end

end Draft

/-- Edits that do not stack commute. In whatever order they come, the same ones are refused and the others are
rendered to one text, overlaps and references included. If no references lead back to an edit, none of these
renderings runs in a circle. -/
theorem independent_edits_commute (source : List Char) {calls others : List Edit} (hperm : calls.Perm others)
    (hind : calls.Pairwise Edit.Independent) :
    (Draft.recordAll ⟨source, []⟩ others).isEmpty = (Draft.recordAll ⟨source, []⟩ calls).isEmpty ∧
    (Draft.recordAll ⟨source, []⟩ others).render = (Draft.recordAll ⟨source, []⟩ calls).render ∧
    ((Draft.recordAll ⟨source, []⟩ calls).Acyclic →
      (Draft.recordAll ⟨source, []⟩ others).render ≠ .error .circular) := by
  have hkept : (Draft.recordAll ⟨source, []⟩ calls).edits.Perm (Draft.recordAll ⟨source, []⟩ others).edits := by
    simpa [recordAll_eq] using hperm.filter fun e => !e.selects e
  have hsource : (Draft.recordAll ⟨source, []⟩ others).source = (Draft.recordAll ⟨source, []⟩ calls).source := by
    simp [recordAll_eq]
  have hindkept : (Draft.recordAll ⟨source, []⟩ calls).edits.Pairwise Edit.Independent := by
    simpa [recordAll_eq] using hind.filter fun e => !e.selects e
  have hrender := Draft.render_perm hsource hkept hindkept
  refine ⟨?_, hrender, fun hacyclic => ?_⟩
  · rw [Draft.isEmpty, Draft.isEmpty, hkept.isEmpty_eq]
  · rw [hrender]
    exact Draft.render_ne_circular hacyclic

/-- Two replacements overlap, two start together, one edit moves a range with an overlap in it, and one refers to
its own range. -/
def overlappingSample : List Edit :=
  [.overwrite ⟨1, 4⟩ "X", .overwrite ⟨3, 6⟩ "Y", .remove 3 5, .prepend 1 "<", .append 1 ">",
    ⟨.append, ⟨8, 8⟩, [.text "=", .source ⟨2, 7⟩]⟩, .overwrite ⟨5, 7⟩ "Z", ⟨.overwrite, ⟨2, 3⟩, [.source ⟨2, 3⟩]⟩]

theorem independent_edits_commute_sample :
    overlappingSample.Pairwise Edit.Independent ∧
      (Draft.recordAll ⟨"abcdefgh".toList, []⟩ overlappingSample).Acyclic ∧
      (Draft.recordAll ⟨"abcdefgh".toList, []⟩ overlappingSample.reverse).isEmpty = false ∧
      (Draft.recordAll ⟨"abcdefgh".toList, []⟩ overlappingSample.reverse).render = .ok "a<>XeZh=cYg" := by
  have hind : overlappingSample.Pairwise Edit.Independent := by decide
  have hacyclic : (Draft.recordAll ⟨"abcdefgh".toList, []⟩ overlappingSample).Acyclic := by
    refine Draft.acyclic_of_lt (fun e => e.span.start / 8) ?_
    decide
  obtain ⟨hempty, hrender, -⟩ :=
    independent_edits_commute "abcdefgh".toList overlappingSample.reverse_perm.symm hind
  refine ⟨hind, hacyclic, hempty.trans (by decide), hrender.trans (by decide +kernel)⟩

end ComponentMacros
