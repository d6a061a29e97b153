import Mathlib.Algebra.GroupWithZero.Nat
import Mathlib.Data.List.Forall2
import ComponentMacros.Proofs.Arrangement

/-!
# Inlined references

A reference stands for the text that its range is rendered to, with whatever the
edits in the range refer to in turn. Writing that text into the edit instead of
the reference changes no rendering of any range, and there is one reference less.
So every draft whose references lead back to no edit has the rendering of a draft
of texts alone.
-/

namespace ComponentMacros

/-! ## Edits side by side -/

namespace Edit

section
variable {R : Edit → Edit → Prop} (hle : ∀ {a a' b b' : Edit}, R a a' → R b b' → a.le b = a'.le b')
include hle

theorem insertArranged_forall₂ {e e' : Edit} (he : R e e') {es es' : List Edit} (h : List.Forall₂ R es es') :
    List.Forall₂ R (insertArranged e es) (insertArranged e' es') := by
  induction h with
  | nil => exact .cons he .nil
  | cons hf hfs ih =>
    simp only [insertArranged, hle he hf]
    split
    · exact .cons he (.cons hf hfs)
    · exact .cons hf ih

theorem sort_forall₂ {es es' : List Edit} (h : List.Forall₂ R es es') : List.Forall₂ R (sort es) (sort es') := by
  induction h with
  | nil => exact .nil
  | cons he _ ih => exact insertArranged_forall₂ hle he ih

theorem arrange_forall₂ (hplacement : ∀ {a a' : Edit}, R a a' → a.placement = a'.placement) {es es' : List Edit}
    (h : List.Forall₂ R es es') : List.Forall₂ R (arrange es) (arrange es') := by
  apply sort_forall₂ hle
  apply List.rel_append
  · apply List.forall₂_reverse_iff.mpr
    refine List.rel_filter (fun a a' ha => ?_) h
    simp [hplacement ha]
  · refine List.rel_filter (fun a a' ha => ?_) h
    simp [hplacement ha]

end

/-- Two edits for one place. What the one is rendered to with `inner`, the other is rendered to with `outer`. -/
structure Alike (inner outer : Span → Except RenderError (List Char)) (e e' : Edit) : Prop where
  placement : e.placement = e'.placement
  span : e.span = e'.span
  content : ∀ text, Draft.renderContent inner e.content = .ok text →
    Draft.renderContent outer e'.content = .ok text

section
variable {inner outer : Span → Except RenderError (List Char)}

theorem Alike.le {a a' b b' : Edit} (ha : Alike inner outer a a') (hb : Alike inner outer b b') :
    a.le b = a'.le b' := by
  simp only [Edit.le, ha.placement, ha.span, hb.placement, hb.span]

theorem Alike.isWithin {e e' : Edit} (h : Alike inner outer e e') (range : Span) (nested : Bool) :
    e.isWithin range nested = e'.isWithin range nested := by
  simp only [Edit.isWithin, h.placement, h.span]

theorem arranged_alike {es es' : List Edit} (h : List.Forall₂ (Alike inner outer) es es') (range : Span)
    (nested : Bool) :
    List.Forall₂ (Alike inner outer) (arrange (es.filter (·.isWithin range nested)))
      (arrange (es'.filter (·.isWithin range nested))) := by
  apply arrange_forall₂ Alike.le Alike.placement
  refine List.rel_filter (fun e e' he => ?_) h
  simp [he.isWithin]

end

end Edit

namespace Draft

section
variable {draft other : Draft} {inner outer : Span → Except RenderError (List Char)}

theorem splice_alike (hsource : other.source = draft.source) {stop : Nat} {es es' : List Edit}
    (h : List.Forall₂ (Edit.Alike inner outer) es es') : ∀ {cursor : Nat} {text : List Char},
      draft.splice inner stop cursor es = .ok text → other.splice outer stop cursor es' = .ok text := by
  induction h with
  | nil =>
    intro cursor text htext
    rw [splice, slice_eq_ok] at *
    rwa [hsource]
  | @cons e e' es es' he _ ih =>
    intro cursor text htext
    by_cases hlt : e.span.start < cursor
    · rw [splice, if_pos hlt] at htext
      rw [splice, if_pos (he.span ▸ hlt)]
      exact ih htext
    · rw [Nat.not_lt] at hlt
      obtain ⟨kept, content, rest, hkept, hcontent, hrest, rfl⟩ := (splice_cons hlt).mp htext
      apply (splice_cons (he.span ▸ hlt)).mpr
      refine ⟨kept, content, rest, ?_, he.content content hcontent, he.span ▸ ih hrest, rfl⟩
      rw [slice_eq_ok, ← he.span] at *
      rwa [hsource]

theorem renderContent_append {front back : Fragment} {text : List Char} :
    renderContent inner (front ++ back) = .ok text ↔ ∃ a b, renderContent inner front = .ok a ∧
      renderContent inner back = .ok b ∧ text = a ++ b := by
  induction front generalizing text with
  | nil => simp [renderContent]
  | cons piece front ih =>
    cases piece with
    | text t =>
      rw [List.cons_append, renderContent, renderContent]
      constructor
      · intro h
        obtain ⟨rest, hrest, h⟩ := bind_eq_ok h
        obtain ⟨a, b, ha, hb, rfl⟩ := ih.mp hrest
        cases h
        exact ⟨t.toList ++ a, b, by rw [ha]; rfl, hb, by simp⟩
      · rintro ⟨a, b, ha, hb, rfl⟩
        obtain ⟨rest, hrest, ha⟩ := bind_eq_ok ha
        cases ha
        rw [ih.mpr ⟨rest, b, hrest, hb, rfl⟩, List.append_assoc]
        rfl
    | source range =>
      rw [List.cons_append, renderContent, renderContent]
      constructor
      · intro h
        obtain ⟨moved, hmoved, h⟩ := bind_eq_ok h
        obtain ⟨rest, hrest, h⟩ := bind_eq_ok h
        obtain ⟨a, b, ha, hb, rfl⟩ := ih.mp hrest
        cases h
        exact ⟨moved ++ a, b, by rw [hmoved, ha]; rfl, hb, by simp⟩
      · rintro ⟨a, b, ha, hb, rfl⟩
        obtain ⟨moved, hmoved, ha⟩ := bind_eq_ok ha
        obtain ⟨rest, hrest, ha⟩ := bind_eq_ok ha
        cases ha
        rw [hmoved, ih.mpr ⟨rest, b, hrest, hb, rfl⟩, List.append_assoc]
        rfl

theorem renderRange_unique {depth depth' : Nat} {range : Span} {a b : List Char}
    (ha : draft.renderRange depth range true = .ok a) (hb : draft.renderRange depth' range true = .ok b) :
      a = b := by
  have agree : ∀ {depth depth' : Nat} {text : List Char}, depth ≤ depth' →
      draft.renderRange depth range true = .ok text → draft.renderRange depth' range true = .ok text := by
    intro depth depth' text hle h
    exact renderRange_agree rfl (P := fun _ => True) (fun _ _ => rfl) (fun _ _ _ _ => trivial) hle trivial h
  rcases Nat.le_total depth depth' with hle | hle
  · exact Except.ok.inj ((agree hle ha).symm.trans hb)
  · exact Except.ok.inj (ha.symm.trans (agree hle hb))

end

/-! ## One reference -/

def renderNested (draft : Draft) (range : Span) : Except RenderError (List Char) :=
  draft.renderRange (draft.edits.length + 1) range true

/-- One reference of one edit is replaced by the text of its range. -/
inductive Inlines : Draft → Draft → Prop where
  | reference {source : List Char} {before after : List Edit} {placement : Placement} {span : Span}
    {front back : Fragment} {range : Span} {text : List Char}
    (htext : renderNested ⟨source, before ++ ⟨placement, span, front ++ .source range :: back⟩ :: after⟩
      range = .ok text) :
    Inlines ⟨source, before ++ ⟨placement, span, front ++ .source range :: back⟩ :: after⟩
      ⟨source, before ++ ⟨placement, span, front ++ (.ofText (String.ofList text) ++ back)⟩ :: after⟩

def references (draft : Draft) : Nat :=
  ((draft.edits.flatMap (·.content)).filter fun
    | .text _ => false
    | .source _ => true).length

/-- No reference leads back to its own edit, everything is in range, and insertions are points. -/
structure Sound (draft : Draft) : Prop where
  acyclic : draft.Acyclic
  inRange : draft.InRange
  point : ∀ e ∈ draft.edits, e.placement ≠ .overwrite → e.span.stop = e.span.start

section
variable {draft next : Draft}

theorem Inlines.renderRange (h : draft.Inlines next) :
    ∀ {depth : Nat} {range : Span} {nested : Bool} {text : List Char}, draft.renderRange depth range nested =
      .ok text → next.renderRange depth range nested = .ok text := by
  intro depth
  induction depth with
  | zero => intro range nested text h; cases h
  | succ depth ih =>
    intro outer nested out hout
    rw [Draft.renderRange] at hout ⊢
    refine splice_alike (by cases h; rfl) (Edit.arranged_alike ?_ outer nested) hout
    have same : ∀ es : List Edit, List.Forall₂ (Edit.Alike (fun r => draft.renderRange depth r true)
        (fun r => next.renderRange depth r true)) es es := by
      intro es
      refine List.forall₂_same.mpr fun e _ => ⟨rfl, rfl, fun text => ?_⟩
      exact renderContent_mono fun range _ moved hmoved => ih hmoved
    cases h with
    | @reference source before after placement span front back range text htext =>
      refine List.rel_append (same before) (.cons ⟨rfl, rfl, ?_⟩ (same after))
      intro content hcontent
      obtain ⟨a, b, ha, hb, rfl⟩ := renderContent_append.mp hcontent
      rw [renderContent] at hb
      obtain ⟨moved, hmoved, hb⟩ := bind_eq_ok hb
      obtain ⟨c, hc, hb⟩ := bind_eq_ok hb
      cases hb
      rw [renderRange_unique hmoved htext]
      refine renderContent_append.mpr ⟨a, text ++ c, ?_, ?_, rfl⟩
      · exact renderContent_mono (fun range _ moved hmoved => ih hmoved) ha
      · refine renderContent_append.mpr ⟨text, c, ?_, ?_, rfl⟩
        · rw [renderContent_ofText, String.toList_ofList]
        · exact renderContent_mono (fun range _ moved hmoved => ih hmoved) hc

theorem Inlines.origin (h : draft.Inlines next) : ∃ f : Edit → Edit, ∀ e ∈ next.edits, f e ∈ draft.edits ∧
    (f e).placement = e.placement ∧ (f e).span = e.span ∧
      ∀ range, .source range ∈ e.content → .source range ∈ (f e).content := by
  cases h with
  | @reference source before after placement span front back range text htext =>
    refine ⟨fun e => if e = ⟨placement, span, front ++ (.ofText (String.ofList text) ++ back)⟩
      then ⟨placement, span, front ++ .source range :: back⟩ else e, fun e he => ?_⟩
    by_cases hnew : e = ⟨placement, span, front ++ (.ofText (String.ofList text) ++ back)⟩
    · subst hnew
      refine ⟨by simp, by simp, by simp, fun other hother => ?_⟩
      simp only [List.mem_append, Fragment.source_not_mem_ofText, false_or] at hother
      simp only [if_true, List.mem_append, List.mem_cons]
      exact hother.imp_right Or.inr
    · simp only [List.mem_append, List.mem_cons, hnew, false_or] at he
      simp only [hnew, if_false, List.mem_append, List.mem_cons, true_and]
      exact ⟨he.imp_right Or.inr, fun _ => id⟩

theorem Inlines.sound (h : draft.Inlines next) (hs : draft.Sound) : next.Sound := by
  obtain ⟨f, hf⟩ := h.origin
  have hsource : next.source = draft.source := by cases h; rfl
  refine ⟨fun e hcycle => ?_, ⟨fun e he => ?_, fun e he range hrange => ?_⟩, fun e he hplacement => ?_⟩
  · -- a way back to the edit was there before
    refine hs.acyclic (f e) (Relation.TransGen.lift f (fun a b hab => ?_) e e hcycle)
    obtain ⟨ha, hb, hselects⟩ := hab
    obtain ⟨range, hrange, hin⟩ := Edit.selects_iff.mp hselects
    obtain ⟨hfa, -, -, hreferences⟩ := hf a ha
    obtain ⟨hfb, hplacement, hspan, -⟩ := hf b hb
    refine ⟨hfa, hfb, Edit.selects_iff.mpr ⟨range, hreferences range hrange, ?_⟩⟩
    rwa [Edit.isWithin, hplacement, hspan]
  · obtain ⟨hfe, -, hspan, -⟩ := hf e he
    rw [hsource, ← hspan]
    exact hs.inRange.span _ hfe
  · obtain ⟨hfe, -, -, hreferences⟩ := hf e he
    rw [hsource]
    exact hs.inRange.reference _ hfe range (hreferences range hrange)
  · obtain ⟨hfe, hsame, hspan, -⟩ := hf e he
    rw [← hspan]
    exact hs.point _ hfe (hsame ▸ hplacement)

theorem Inlines.render (h : draft.Inlines next) {code : String} (hcode : draft.render = .ok code) :
    next.render = .ok code := by
  have hsource : next.source = draft.source := by cases h; rfl
  have hlength : next.edits.length = draft.edits.length := by
    cases h
    simp only [List.length_append, List.length_cons]
  have hout := h.renderRange (render_eq_ok hcode)
  rw [Draft.render, hsource, hlength, hout, ← String.ofList_toList (s := code)]
  simp [Except.map]

theorem references_eq (source : List Char) (es : List Edit) : references ⟨source, es⟩ = (es.map fun e =>
    (e.content.filter fun | .text _ => false | .source _ => true).length).sum := by
  rw [references, List.filter_flatMap, List.length_flatMap]

theorem Inlines.references (h : draft.Inlines next) : next.references + 1 = draft.references := by
  cases h with
  | @reference source before after placement span front back range text htext =>
    have hnone : (Fragment.ofText (String.ofList text)).filter
        (fun | .text _ => false | .source _ => true) = [] := by
      unfold Fragment.ofText
      split <;> rfl
    simp only [references_eq, List.map_append, List.map_cons, List.sum_append, List.sum_cons, List.filter_append,
      List.length_append, hnone, List.filter_cons, List.length_nil, if_true, List.length_cons]
    omega

theorem Sound.exists_inlines (h : draft.Sound) (hsome : draft.references ≠ 0) : ∃ next, draft.Inlines next := by
  have hne : (draft.edits.flatMap (·.content)).filter (fun | .text _ => false | .source _ => true) ≠ [] := by
    intro hnil
    rw [Draft.references, hnil] at hsome
    exact hsome rfl
  obtain ⟨piece, hpiece⟩ := List.exists_mem_of_ne_nil _ hne
  obtain ⟨hmem, hsource⟩ := List.mem_filter.mp hpiece
  obtain ⟨e, he, hcontent⟩ := List.mem_flatMap.mp hmem
  cases piece with
  | text t => cases hsource
  | source range =>
    obtain ⟨text, htext⟩ := renderRange_ok h.acyclic h.inRange h.point (draft.edits.length + 1) range true []
      List.nodup_nil (List.nil_subset _) (by simp) (h.inRange.reference e he range hcontent)
        (fun c hc => nomatch hc)
    obtain ⟨source, edits⟩ := draft
    obtain ⟨before, after, rfl⟩ := List.append_of_mem he
    obtain ⟨placement, span, content⟩ := e
    obtain ⟨front, back, rfl⟩ := List.append_of_mem hcontent
    exact ⟨_, .reference htext⟩

theorem Sound.exists_plain (h : draft.Sound) : ∃ plain, Relation.ReflTransGen Inlines draft plain ∧
    ∀ e ∈ plain.edits, ∀ range, .source range ∉ e.content := by
  generalize hn : draft.references = n
  induction n generalizing draft with
  | zero =>
    refine ⟨draft, .refl, fun e he range hrange => ?_⟩
    rw [Draft.references, List.length_eq_zero_iff, List.filter_eq_nil_iff] at hn
    exact hn (.source range) (List.mem_flatMap.mpr ⟨e, he, hrange⟩) rfl
  | succ n ih =>
    obtain ⟨next, hstep⟩ := h.exists_inlines (by omega)
    have hfewer := hstep.references
    obtain ⟨plain, hsteps, hplain⟩ := ih (hstep.sound h) (by omega)
    exact ⟨plain, .head hstep hsteps, hplain⟩

end

end Draft

/-- References are transparent. From a draft without circular references, replacing references by the texts of
their ranges, any of them and in any order, never changes what is rendered; each replacement leaves one reference
less, and it goes on until only texts are left. -/
theorem references_inlined {draft : Draft} (h : draft.Sound) : ∃ code, draft.render = .ok code ∧
    (∀ draft', Relation.ReflTransGen Draft.Inlines draft draft' → draft'.render = .ok code ∧
      (∀ next, draft'.Inlines next → next.references + 1 = draft'.references) ∧
      (draft'.references ≠ 0 → ∃ next, draft'.Inlines next)) ∧
    ∃ plain, Relation.ReflTransGen Draft.Inlines draft plain ∧
      (∀ e ∈ plain.edits, ∀ range, .source range ∉ e.content) ∧ plain.render = .ok code := by
  obtain ⟨code, hcode⟩ := render_ok h.acyclic h.inRange h.point
  have keeps : ∀ draft', Relation.ReflTransGen Draft.Inlines draft draft' → draft'.Sound ∧
      draft'.render = .ok code := by
    intro draft' hsteps
    induction hsteps with
    | refl => exact ⟨h, hcode⟩
    | tail _ hstep ih => exact ⟨hstep.sound ih.1, hstep.render ih.2⟩
  refine ⟨code, hcode, fun draft' hsteps => ?_, ?_⟩
  · obtain ⟨hsound, hrender⟩ := keeps draft' hsteps
    exact ⟨hrender, fun next hnext => hnext.references, hsound.exists_inlines⟩
  · obtain ⟨plain, hplain, hnone⟩ := h.exists_plain
    exact ⟨plain, hplain, hnone, (keeps plain hplain).2⟩

theorem Draft.acyclic_of_lt {draft : Draft} (rank : Edit → Nat)
    (h : ∀ e ∈ draft.edits, ∀ f ∈ draft.edits, e.selects f = true → rank f < rank e) : draft.Acyclic := by
  have hlt : ∀ {e f : Edit}, Relation.TransGen draft.Selects e f → rank f < rank e := by
    intro e f hchain
    induction hchain with
    | single hab => exact h _ hab.1 _ hab.2.1 hab.2.2
    | tail _ hbc ih => exact Nat.lt_trans (h _ hbc.1 _ hbc.2.1 hbc.2.2) ih
  exact fun e hcycle => Nat.lt_irrefl _ (hlt hcycle)

def referringSample : Draft :=
  ⟨"abcdefgh".toList, [.overwrite ⟨1, 2⟩ "B", ⟨.append, ⟨4, 4⟩, [.source ⟨0, 3⟩]⟩,
    ⟨.append, ⟨7, 7⟩, [.text "<", .source ⟨2, 6⟩, .text ">", .source ⟨0, 3⟩]⟩]⟩

theorem references_inlined_nested : referringSample.Sound ∧ referringSample.references = 3 ∧
    ∃ plain, Relation.ReflTransGen Draft.Inlines referringSample plain ∧
      (∀ e ∈ plain.edits, ∀ range, .source range ∉ e.content) ∧ plain.render = .ok "aBcdaBcefg<cdaBcef>aBch" := by
  have hreferences : ∀ e ∈ referringSample.edits, (e.content.all fun
      | .text _ => true
      | .source range => decide (range.Fits referringSample.source)) = true := by decide
  have hsound : referringSample.Sound := by
    refine ⟨Draft.acyclic_of_lt (·.span.start) (by decide), ⟨by decide, fun e he range hrange => ?_⟩, by decide⟩
    exact of_decide_eq_true (List.all_eq_true.mp (hreferences e he) _ hrange)
  obtain ⟨code, hcode, -, plain, hsteps, hplain, hrender⟩ := references_inlined hsound
  have hknown : referringSample.render = .ok "aBcdaBcefg<cdaBcef>aBch" := by decide +kernel
  cases hcode.symm.trans hknown
  exact ⟨hsound, rfl, plain, hsteps, hplain, hrender⟩

end ComponentMacros
