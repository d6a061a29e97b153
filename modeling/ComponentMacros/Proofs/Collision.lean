import ComponentMacros.Proofs.Recorded

/-!
# Replacements do not collide

Whatever macros a program combines, and however it nests them, the ranges that
the rules replace are apart or nested. A rendering therefore never meets an edit
that reaches out of text which is already replaced.
-/

namespace ComponentMacros

section
variable {source : List Char} {program : Tree}

theorem Moves.overwrite_span {member : KeyedMember} {value : Tree} {e : Edit} (h : Moves member value e)
    (ho : e.placement = .overwrite) : e.span = member.property.span := by
  cases h with
  | inPlace _ => rfl
  | intoList _ => cases ho

theorem Recorded.cut {e : Edit} (h : Recorded source program e) (ho : e.placement = .overwrite) :
    Cut source program e.span := by
  cases h with
  | replace hcut => exact hcut
  | prepend _ => cases ho
  | append _ => cases ho
  | move hs hm _ _ _ he =>
    rw [he.overwrite_span ho]
    obtain ⟨hmem, hk⟩ := keyedMember_property hs hm
    exact ⟨_, hmem, .whole (Or.inr (Or.inr hk))⟩

theorem Recorded.point {e : Edit} (h : Recorded source program e) (ho : e.placement ≠ .overwrite) :
    e.span.stop = e.span.start := by
  cases h with
  | replace _ => exact absurd rfl ho
  | prepend _ => rfl
  | append _ => rfl
  | move _ _ _ _ _ he =>
    cases he with
    | inPlace _ => exact absurd rfl ho
    | intoList _ => rfl

theorem Draft.Recorded.tidy (hl : Layout source program) {draft : Draft} (h : draft.Recorded source program) :
    draft.Tidy := by
  refine ⟨?_, fun e he => (h.edits e he).point, ?_⟩
  · intro e he
    by_cases ho : e.placement = .overwrite
    · obtain ⟨t, ht, hcut⟩ := (h.edits e he).cut ho
      exact (hl.cut_bounds ht hcut).2.1
    · exact Nat.le_of_eq ((h.edits e he).point ho).symm
  · intro e he f hf heo hfo
    exact hl.cuts_laminar ((h.edits e he).cut heo) ((h.edits f hf).cut hfo)

end

/-! ## Texts that expand -/

/-- The text is a program of the layout and shape that parsers promise, and its macros can be
expanded. -/
def Options.expands (options : Options) (text : List Char) : Bool :=
  match parse options.dialect text with
  | none => false
  | some program => decide (Layout text program) && decide (Shape program) &&
    match collect? options program with
    | none => false
    | some collected => (expansion ⟨options, text, collected⟩).isOk

theorem expands_spec {options : Options} {text : List Char} (h : options.expands text = true) :
    ∃ program collected draft, parse options.dialect text = some program ∧ Layout text program ∧ Shape program ∧
      collect? options program = some collected ∧ expansion ⟨options, text, collected⟩ = .ok draft := by
  unfold Options.expands at h
  cases hp : parse options.dialect text with
  | none => rw [hp] at h; cases h
  | some program =>
    rw [hp] at h
    simp only [Bool.and_eq_true, decide_eq_true_eq] at h
    obtain ⟨⟨hlayout, hshape⟩, h⟩ := h
    cases hc : collect? options program with
    | none => rw [hc] at h; cases h
    | some collected =>
      rw [hc] at h
      simp only at h
      cases hd : expansion ⟨options, text, collected⟩ with
      | error e => rw [hd] at h; cases h
      | ok draft => exact ⟨program, collected, draft, rfl, hlayout, hshape, hc, hd⟩

def nestedSample : List Char :=
  ("import \x7b component as c, type as t, INJECTIONS as I \x7d from 'm.macro';\n" ++
    "c(\x7b inject: 0, mixins: [], I: \x7b x: c(\x7b y: t() \x7d) \x7d \x7d);").toList

/-- The ranges an expansion replaces are apart or nested, and no rendering of any range, whole or
referred to, drops an edit that reaches past the cursor. -/
theorem replacements_never_collide {options : Options} {source : List Char} {program : Tree}
    {collected : Collected}
    {draft : Draft} (hlayout : Layout source program) (hcollect : collect? options program = some collected)
    (hdraft : expansion ⟨options, source, collected⟩ = .ok draft) :
    (∀ e ∈ draft.edits, ∀ f ∈ draft.edits, e.placement = .overwrite → f.placement = .overwrite →
      e.span.Laminar f.span) ∧
    ∀ (depth : Nat) (range : Span) (nested : Bool) (e : Edit) (cursor : Nat),
      .dropped e cursor ∈ draft.log depth range nested → ¬ (e.span.start < cursor ∧ cursor < e.span.stop) := by
  have htidy := (expansion_recorded hlayout.root hcollect hdraft).tidy hlayout
  refine ⟨htidy.laminar, ?_⟩
  intro depth range nested e cursor hevent ⟨_, hreach⟩
  have := htidy.dropped depth range nested _ hevent e cursor rfl
  omega

theorem replacements_never_collide_nested : ∃ program collected draft,
    parse (Options.dialect {}) nestedSample = some program ∧ Layout nestedSample program ∧
    collect? {} program = some collected ∧ expansion ⟨{}, nestedSample, collected⟩ = .ok draft ∧
    (∀ e ∈ draft.edits, ∀ f ∈ draft.edits, e.placement = .overwrite → f.placement = .overwrite →
      e.span.Laminar f.span) ∧
    ∀ (depth : Nat) (range : Span) (nested : Bool) (e : Edit) (cursor : Nat),
      .dropped e cursor ∈ draft.log depth range nested → ¬ (e.span.start < cursor ∧ cursor < e.span.stop) := by
  obtain ⟨program, collected, draft, hparse, hlayout, -, hcollect, hdraft⟩ :=
    @expands_spec {} nestedSample (by decide +kernel)
  exact ⟨program, collected, draft, hparse, hlayout, hcollect, hdraft,
    replacements_never_collide hlayout hcollect hdraft⟩

end ComponentMacros
