import ComponentMacros.Proofs.Completion
import ComponentMacros.Proofs.Coverage

/-!
# What is left of macros

A rendering copies no text of a usage and none of a macro import, whatever it
renders: the whole source, or a map that is moved out of it. A map inside of
replaced props or of a removed import is never rendered. The one way for a usage
to reach the output is the text of props that are reduced to their names.
-/

namespace ComponentMacros

section
variable {source : List Char} {program : Tree} {draft : Draft}

namespace Transfer

variable {member : KeyedMember} {key value : Tree}

theorem below_or_around (hl : Layout source program) (h : Transfer program member key value) {t : Tree}
    (ht : t ∈ program.nodes) (hmeet : ¬ t.span.Apart value.span) :
    t ∈ value.nodes ∨ t = member.property ∨ member.object ∈ t.nodes := by
  have hb := h.bounds hl
  rcases hl.nested ht h.value_mem hmeet with hin | hvt
  · exact Or.inl hin
  have htv := Span.contains_iff.mp (hl.contains ht hvt)
  have hmeet' : ¬ t.span.Apart member.object.span := by unfold Span.Apart; omega
  rcases hl.nested ht h.owner hmeet' with hto | hot
  · rcases Tree.mem_nodes.mp hto with rfl | ⟨d, hd, htd⟩
    · exact Or.inr (Or.inr (Tree.mem_nodes_self _))
    have hdt := Span.contains_iff.mp (hl.contains (Tree.nodes_trans h.owner (Tree.child_mem_nodes hd)) htd)
    obtain rfl : d = member.property := by
      rcases (hl.parts h.owner).eq_or_apart d hd _ h.child with heq | hap
      · exact heq
      · unfold Span.Apart at hap; omega
    rcases Tree.mem_nodes.mp htd with rfl | ⟨c, hc, htc⟩
    · exact Or.inr (Or.inl rfl)
    have hct := Span.contains_iff.mp (hl.contains (Tree.nodes_trans h.property_mem (Tree.child_mem_nodes hc)) htc)
    rw [h.parts, List.mem_cons, List.mem_singleton] at hc
    rcases hc with rfl | rfl
    · omega
    · exact Or.inl htc
  · exact Or.inr (Or.inr hot)

theorem owner_mem_statement (hl : Layout source program) (h : Transfer program member key value) {c : Tree}
    (hc : c ∈ program.children) (hmeet : ¬ c.span.Apart value.span) : member.object ∈ c.nodes := by
  have hb := h.bounds hl
  have hroot := Tree.mem_nodes_self program
  rcases Tree.mem_nodes.mp h.owner with heq | ⟨d, hd, hod⟩
  · have := h.object
    rw [heq, hl.root] at this; cases this
  · have hdo := Span.contains_iff.mp (hl.contains (Tree.nodes_trans hroot (Tree.child_mem_nodes hd)) hod)
    rcases (hl.parts hroot).eq_or_apart c hc d hd with rfl | hap
    · exact hod
    · unfold Span.Apart at hap hmeet; omega

end Transfer

theorem Moves.inside (hl : Layout source program) {member : KeyedMember} {key value : Tree}
    (ht : Transfer program member key value) {e : Edit} (h : Moves member value e) :
    member.object.span.start < e.span.start ∧ e.span.start < member.object.span.stop := by
  have hb := ht.bounds hl
  cases h with
  | inPlace _ => simp only; omega
  | intoList hmixins =>
    obtain ⟨q, hq, -, hqv⟩ := memberValue_mem hmixins
    have hmq := Tree.value?_mem hqv
    have hqp := Tree.nodes_trans ht.owner (Tree.child_mem_nodes hq)
    have hmp := Tree.nodes_trans hqp (Tree.child_mem_nodes hmq)
    have hqin := (hl.object ht.owner ht.object).bounds.2 q hq
    have hmin := (hl.parts hqp).bounds _ hmq
    have hlist := Span.contains_iff.mp (hl.contains hmp (Tree.stripParens_mem _))
    have hend := mixinEnd_bounds hl hmp
    simp only; omega

/-! ## Ranges that are rendered -/

/-- The edit replaces all of a node that nothing is rendered in: props, or a statement. -/
inductive Draft.Hides (program : Tree) (draft : Draft) (f : Edit) (t : Tree) : Prop where
  | props (hf : f ∈ draft.edits) (ho : f.placement = .overwrite) (ht : t ∈ program.nodes) (hk : t.kind = .object)
    (hspan : f.span = t.span)
  | statement (hf : f ∈ draft.edits) (ho : f.placement = .overwrite) (ht : t ∈ program.children)
    (hstart : f.span.start = t.span.start) (hstop : t.span.stop ≤ f.span.stop)

/-- The range is rendered: it is the whole source, or a moved map of an object that no edit hides. -/
inductive Draft.Open (source : List Char) (program : Tree) (draft : Draft) : Span → Bool → Prop where
  | whole : Open source program draft ⟨0, byteLength source⟩ false
  | moved {member : KeyedMember} {key value : Tree} (h : Transfer program member key value)
    (hfree : ∀ f t, draft.Hides program f t → member.object ∉ t.nodes) : Open source program draft value.span true

namespace Draft

theorem Hides.mem {f : Edit} {t : Tree} (h : draft.Hides program f t) :
    f ∈ draft.edits ∧ f.placement = .overwrite ∧ t ∈ program.nodes ∧ f.span.start = t.span.start ∧
      t.span.stop ≤ f.span.stop := by
  cases h with
  | props hf ho ht _ hspan => exact ⟨hf, ho, ht, by rw [hspan], by rw [hspan]⟩
  | statement hf ho ht hstart hstop => exact ⟨hf, ho, Tree.child_mem_nodes ht, hstart, hstop⟩

theorem Recorded.within_whole (hl : Layout source program) (h : draft.Recorded source program) {f : Edit}
    (hf : f ∈ draft.edits) (ho : f.placement = .overwrite) : f.isWithin ⟨0, byteLength source⟩ false = true := by
  rw [Edit.isWithin, ho]
  exact Span.contains_iff.mpr ⟨Nat.zero_le _, ((h.edits f hf).fits hl).2.2.le_length⟩

theorem Open.inner (hl : Layout source program) (hrec : draft.Recorded source program) {range : Span}
    {nested : Bool} (hopen : draft.Open source program range nested) {e : Edit} (he : e ∈ draft.edits)
    (hin : e.isWithin range nested = true)
    (hfree : ∀ f ∈ draft.edits, f.isWithin range nested = true → f.placement = .overwrite →
      f.span.start < e.span.start → f.span.stop ≤ e.span.start)
    {member : KeyedMember} {key value : Tree} (ht : Transfer program member key value)
    (hm : Moves member value e) :
    draft.Open source program value.span true := by
  refine .moved ht fun f t hhides hmem => ?_
  obtain ⟨hf, ho, htp, hstart, hstop⟩ := hhides.mem
  have hin' := Edit.isWithin_start ((hrec.tidy hl).ordered e he) hin
  have hinside := hm.inside hl ht
  have hto := Span.contains_iff.mp (hl.contains htp hmem)
  -- an edit that hides the object and belongs to this rendering drops the move
  have hout : f.isWithin range nested ≠ true := by
    intro hfin
    have := hfree f hf hfin ho (by omega)
    omega
  cases hopen with
  | whole => exact hout (hrec.within_whole hl hf ho)
  | @moved member₀ key₀ value₀ ht₀ hfree₀ =>
    have hmeet : ¬ t.span.Apart value₀.span := by unfold Span.Apart; omega
    cases hhides with
    | statement _ _ hc _ _ =>
      exact hfree₀ f t (.statement hf ho hc hstart hstop) (ht₀.owner_mem_statement hl hc hmeet)
    | props _ _ _ hk hspan =>
      rcases ht₀.below_or_around hl htp hmeet with hbelow | rfl | haround
      · refine hout ?_
        rw [Edit.isWithin, ho, hspan]
        exact hl.contains ht₀.value_mem hbelow
      · obtain ⟨a, c, s, m, hk'⟩ := Tree.isProperty_iff.mp ht₀.property
        rw [hk] at hk'; cases hk'
      · exact hfree₀ f t (.props hf ho htp hk hspan) haround

theorem Open.apart_site (hl : Layout source program) (hshape : Shape program)
    (hrec : draft.Recorded source program)
    {range : Span} {nested : Bool} (hopen : draft.Open source program range nested) {r : Span}
    (hr : range.contains r = true)
    (hcopied : ∀ f ∈ draft.edits, f.isWithin range nested = true → f.placement = .overwrite → r.Apart f.span)
    {site : Site} (hs : site.In program) (hcover : draft.Covers program site) : r.Apart site.span := by
  obtain ⟨e, he, hc⟩ := hcover
  -- it is enough that the replacement belongs to this rendering
  have done : e.isWithin range nested = true → r.Apart site.span := fun hin =>
    (hcopied e he hin hc.overwrite).mono (Span.contains_self r) hc.contains
  cases hopen with
  | whole => exact done (hrec.within_whole hl he hc.overwrite)
  | @moved member key value ht hfree =>
    by_cases hap : value.span.Apart site.span
    · exact hap.mono hr (Span.contains_self _)
    obtain ⟨n, hname, hleaf, hspan, hpos, hpath⟩ := hs.node hshape
    have hnv : value.span.contains site.span = true := by
      rw [← hspan] at hap ⊢
      rcases hl.nested ht.value_mem hpath.head_mem_nodes hap with hvn | hnv
      · rcases Tree.mem_nodes.mp hvn with rfl | ⟨c, hcn, -⟩
        · exact Span.contains_self _
        · rw [hleaf] at hcn; cases hcn
      · exact hl.contains ht.value_mem hnv
    have hwithin : value.span.contains e.span = true → e.isWithin value.span true = true := by
      intro h; rw [Edit.isWithin, hc.overwrite]; exact h
    rcases hc.host with hlocal | ⟨props, hp, hk, hspan'⟩
    · exact done (hwithin (hlocal value ht.value_mem ht.map hnv))
    · have hcs := Span.contains_iff.mp hc.contains
      have hvs := Span.contains_iff.mp hnv
      have hmeet : ¬ props.span.Apart value.span := by rw [← hspan']; unfold Span.Apart; omega
      rcases ht.below_or_around hl hp hmeet with hbelow | rfl | haround
      · exact done (hwithin (by rw [hspan']; exact hl.contains ht.value_mem hbelow))
      · obtain ⟨a, c, s, m, hk'⟩ := Tree.isProperty_iff.mp ht.property
        rw [hk] at hk'; cases hk'
      · exact absurd haround (hfree e props (.props he hc.overwrite hp hk hspan'))

theorem Open.apart_statement (hl : Layout source program) (hrec : draft.Recorded source program)
    {range : Span} {nested : Bool} (hopen : draft.Open source program range nested) {r : Span}
    (hr : range.contains r = true)
    (hcopied : ∀ f ∈ draft.edits, f.isWithin range nested = true → f.placement = .overwrite → r.Apart f.span)
    {f : Edit} {c : Tree} (hc : c ∈ program.children) (hhides : draft.Hides program f c) : r.Apart c.span := by
  obtain ⟨hf, ho, -, hstart, hstop⟩ := hhides.mem
  cases hopen with
  | whole =>
    refine (hcopied f hf (hrec.within_whole hl hf ho) ho).mono (Span.contains_self r) ?_
    exact Span.contains_iff.mpr ⟨Nat.le_of_eq hstart, hstop⟩
  | @moved member key value ht hfree =>
    by_cases hap : c.span.Apart value.span
    · exact (hap.mono (Span.contains_self _) hr).symm
    · exact absurd (ht.owner_mem_statement hl hc hap) (hfree f c hhides)

/-- No rendering of an open range copies text of a covered site or of a replaced statement. -/
theorem Open.copied (hl : Layout source program) (hshape : Shape program) (hrec : draft.Recorded source program) :
    ∀ (depth : Nat) (range : Span) (nested : Bool), draft.Open source program range nested →
      ∀ event ∈ draft.log depth range nested, ∀ r, event = .copied r →
        (∀ site : Site, site.In program → draft.Covers program site → r.Apart site.span) ∧
        ∀ f, ∀ c ∈ program.children, draft.Hides program f c → r.Apart c.span := by
  intro depth
  induction depth with
  | zero => intro range nested _ event hevent; cases hevent
  | succ depth ih =>
    intro range nested hopen
    refine log_forall (hrec.tidy hl) ?_ ?_ ?_ ?_
    · intro r hr hcopied r' heq
      cases heq
      exact ⟨fun site hs hcover => hopen.apart_site hl hshape hrec hr hcopied hs hcover,
        fun f c hc hhides => hopen.apart_statement hl hrec hr hcopied hc hhides⟩
    · intro e _ text _ r heq; cases heq
    · intro e _ cursor _ r heq; cases heq
    · intro e he hin hfree inner hinner
      obtain ⟨member, key, value, ht, hm⟩ := (hrec.edits e he).moves hl hshape hinner
      rw [hm.source_mem.mp hinner]
      exact ih _ _ (hopen.inner hl hrec he hin hfree ht hm)

end Draft

end

/-! ## Names of props -/

/-- The code that is the name of a prop: a computed key, or the value that is spread. -/
def propCode (member : Tree) : List Span :=
  match member with
  | .node (.property _ true _ _) _ (key :: _) => [key.span]
  | .node (.spread _) _ [argument] => [argument.span]
  | _ => []

def Draft.Reduces (options : Options) (program : Tree) (draft : Draft) (props : Tree) : Prop :=
  options.mode = .production ∧ props ∈ program.nodes ∧ props.kind = .object ∧
    ∃ e ∈ (collapseProps options draft.source .empty props).1, ∃ text, .written e text ∈ draft.renderLog

/-- Source text at `s` gets into the output: it is copied, or the name of a prop is made of it. -/
inductive Draft.Shows (options : Options) (program : Tree) (draft : Draft) (s : Span) : Prop where
  | copied {range : Span} (h : .copied range ∈ draft.renderLog) (hmeet : ¬ range.Apart s)
  | named {props member : Tree} {range : Span} (h : draft.Reduces options program props)
    (hm : member ∈ props.children) (hr : range ∈ propRanges member) (hmeet : ¬ range.Apart s)

section
variable {source : List Char} {program member : Tree} {range : Span}

theorem propCode_mem (h : range ∈ propCode member) : range ∈ propRanges member := by
  unfold propCode at h
  split at h
  · exact h
  · exact h
  · cases h

/-- A name that is made of a usage has it in its code: a key that is written out is no usage, or it is
not read from the source. -/
theorem propRanges_usage (hl : Layout source program) (hshape : Shape program) (hm : member ∈ program.nodes)
    (hr : range ∈ propRanges member) {site : Site} (hs : site.In program) (hmeet : ¬ range.Apart site.span) :
    range ∈ propCode member ∧ range.contains site.span = true := by
  obtain ⟨n, hname, hleaf, hspan, -, hpath⟩ := hs.node hshape
  -- the part of the member that is read has the usage below it
  have below : ∀ c ∈ member.children, range = c.span → n ∈ c.nodes := by
    rintro c hc rfl
    rw [← hspan] at hmeet
    rcases hl.nested (Tree.nodes_trans hm (Tree.child_mem_nodes hc)) hpath.head_mem_nodes hmeet with hcn | hnc
    · rcases Tree.mem_nodes.mp hcn with rfl | ⟨d, hd, -⟩
      · exact Tree.mem_nodes_self _
      · rw [hleaf] at hd; cases hd
    · exact hnc
  refine ⟨?_, ?_⟩
  · unfold propRanges at hr
    unfold propCode
    split at hr
    · exact hr
    · rename_i access shorthand isMethod span key rest
      split at hr
      · cases hr
      · cases hr
      · cases hr
      · rename_i hnotName hnotIdentifier _
        have hnk := below key (List.mem_cons_self ..) (List.mem_singleton.mp hr)
        have hkey := hshape.plainKey hm rfl rfl
        rcases Tree.mem_nodes.mp hnk with rfl | ⟨c, hc, -⟩
        · unfold Tree.isName at hname
          split at hname
          · rename_i hk; exact absurd hk (hnotIdentifier _)
          · rename_i hk; exact absurd hk (hnotName _)
          · cases hname
        · rw [hkey] at hc; cases hc
    · exact hr
    · cases hr
  · obtain ⟨c, hc, heq⟩ := propRanges_child hr
    rw [heq, ← hspan]
    exact hl.contains (Tree.nodes_trans hm (Tree.child_mem_nodes hc)) (below c hc heq)

theorem propCode_occurs (options : Options) (h : range ∈ propCode member) :
    (sourceText source range).toList <:+: (propName options source member).toList := by
  unfold propCode at h
  split at h
  · rw [List.mem_singleton.mp h]
    exact List.infix_refl _
  · rw [List.mem_singleton.mp h]
    change _ <:+: ("...Object.keys(" ++ sourceText source _ ++ ")").toList
    rw [String.toList_append, String.toList_append]
    exact List.infix_append _ _ _
  · cases h

theorem occurs_intercalate (sep : String) {text : String} : ∀ {texts : List String}, text ∈ texts →
    text.toList <:+: (sep.intercalate texts).toList
  | [t], h => by
    obtain rfl := List.mem_singleton.mp h
    simp only [String.intercalate_singleton, List.infix_refl]
  | t :: u :: texts, h => by
    rw [String.intercalate_cons_cons, String.toList_append, String.toList_append]
    rcases List.mem_cons.mp h with rfl | h
    · rw [List.append_assoc]; exact (List.prefix_append _ _).isInfix
    · exact (occurs_intercalate sep h).trans (List.suffix_append _ _).isInfix

end

/-! ## Survival -/

section
variable {options : Options} {source : List Char} {program : Tree} {collected : Collected} {draft : Draft}

theorem expansion_hides_imports (hl : Layout source program) (hc : collect? options program = some collected)
    (h : expansion ⟨options, source, collected⟩ = .ok draft) {imported : MacroImport}
    (himp : imported ∈ collected.imports) :
    ∃ f, ∃ c ∈ program.children, imported.span = c.span ∧ draft.Hides program f c := by
  obtain ⟨c, hcp, hspan⟩ := imports_statement hc himp
  have hline := lineBreakEnd_bounds (hl.fits (Tree.child_mem_nodes hcp)).2.2
  refine ⟨removeImport source imported, c, hcp, hspan,
    .statement (removeImport_mem h himp) rfl hcp (by rw [removeImport, hspan]; rfl) ?_⟩
  rw [removeImport, hspan]
  exact hline.1

theorem written_occurs {e : Edit} {text : String} (h : .written e text ∈ draft.renderLog) {code : String}
    (hcode : draft.render = .ok code) : text.toList <:+: code.toList := by
  rw [render_text hcode, String.toList_ofList, List.flatMap_def]
  exact List.infix_of_mem_flatten (List.mem_map_of_mem h)

theorem Draft.Reduces.occurs (htidy : draft.Tidy) {props : Tree} (h : draft.Reduces options program props)
    {code : String} (hcode : draft.render = .ok code) {member : Tree} (hm : member ∈ props.children) {range : Span}
    (hr : range ∈ propCode member) : (sourceText draft.source range).toList <:+: code.toList := by
  obtain ⟨-, -, -, e, he, text, hevent⟩ := h
  have htext := (htidy.written _ _ _ _ hevent e text rfl).2
  rw [List.mem_singleton.mp he] at htext
  have hname := (propCode_occurs options hr).trans
    (occurs_intercalate ", " (List.mem_map_of_mem (f := propName options draft.source) hm))
  refine List.IsInfix.trans ?_ (written_occurs hevent hcode)
  simp only [Edit.overwrite, Fragment.ofText] at htext
  split at htext
  · cases htext
  · rw [List.mem_singleton, Piece.text.injEq] at htext
    rw [htext, String.toList_append, String.toList_append]
    exact hname.trans (List.infix_append _ _ _)

end

/-- The output consists of what is copied and what is written. Nothing that is copied has text of a
macro import or of a usage, so a usage gets into the output exactly if it stands in a computed key or
a spread value of props that are reduced to their names; and there its text can be read. -/
theorem usage_survives_iff {options : Options} {source : List Char} {program : Tree} {collected : Collected}
    {draft : Draft} {code : String} (hlayout : Layout source program) (hshape : Shape program)
    (hcollect : collect? options program = some collected)
    (hdraft : expansion ⟨options, source, collected⟩ = .ok draft) (hcode : draft.render = .ok code) :
    code = String.ofList (draft.renderLog.flatMap (·.text source)) ∧
    (∀ imported ∈ collected.imports, ∀ range, .copied range ∈ draft.renderLog → range.Apart imported.span) ∧
    (∀ site ∈ collected.usages.pending, draft.Shows options program site.span ↔
      ∃ props, draft.Reduces options program props ∧
        ∃ member ∈ props.children, ∃ range ∈ propCode member, range.contains site.span = true) ∧
    ∀ props, draft.Reduces options program props → ∀ member ∈ props.children, ∀ range ∈ propCode member,
      (sourceText source range).toList <:+: code.toList := by
  have hrec := expansion_recorded hlayout.root hcollect hdraft
  have hcopied := Draft.Open.copied hlayout hshape hrec (draft.edits.length + 1) _ _ .whole
  rw [← hrec.source_eq] at hcopied
  refine ⟨?_, ?_, ?_, ?_⟩
  · rw [render_text hcode, hrec.source_eq]
  · intro imported himp range hevent
    obtain ⟨f, c, hc, hspan, hhides⟩ := expansion_hides_imports hlayout hcollect hdraft himp
    rw [hspan]
    exact (hcopied _ hevent range rfl).2 f c hc hhides
  · intro site hsite
    have hin := collect?_sites hcollect site hsite
    constructor
    · rintro (⟨hevent, hmeet⟩ | ⟨hreduces, hm, hr, hmeet⟩)
      · exact absurd ((hcopied _ hevent _ rfl).1 site hin
          (expansion_covers hlayout hshape hcollect hdraft site hsite)) hmeet
      · have hmp := Tree.nodes_trans hreduces.2.1 (Tree.child_mem_nodes hm)
        obtain ⟨hcodeRange, hcontains⟩ := propRanges_usage hlayout hshape hmp hr hin hmeet
        exact ⟨_, hreduces, _, hm, _, hcodeRange, hcontains⟩
    · rintro ⟨props, hreduces, member, hm, range, hr, hcontains⟩
      refine .named hreduces hm (propCode_mem hr) ?_
      obtain ⟨-, -, -, -, hpos, -⟩ := hin.node hshape
      rw [Span.contains_iff] at hcontains
      unfold Span.Apart
      omega
  · intro props hreduces member hm range hr
    rw [← hrec.source_eq]
    exact hreduces.occurs (hrec.tidy hlayout) hcode hm hr

def computedSample : String :=
  "import \x7b component, type \x7d from 'm.macro';\nconst A = component(\x7b props: \x7b [type()]: 1 \x7d \x7d);"

def computedOptions : Options := { mode := .production }

theorem usage_survives_iff_computed : ∃ program collected draft code,
    Layout computedSample.toList program ∧ Shape program ∧ collect? computedOptions program = some collected ∧
    expansion ⟨computedOptions, computedSample.toList, collected⟩ = .ok draft ∧ draft.render = .ok code ∧
    code = "const A = \x7b props: [type()] \x7d;" ∧
    ∀ site ∈ collected.usages.pending, draft.Shows computedOptions program site.span ↔
      ∃ props, draft.Reduces computedOptions program props ∧
        ∃ member ∈ props.children, ∃ range ∈ propCode member, range.contains site.span = true := by
  obtain ⟨program, collected, draft, hparse, hlayout, hshape, hcollect, hdraft⟩ :=
    @expands_spec computedOptions computedSample.toList (by decide +kernel)
  have hrec := expansion_recorded hlayout.root hcollect hdraft
  obtain ⟨code, hcode⟩ :=
    render_ok (hrec.acyclic hlayout hshape) (hrec.inRange hlayout hshape) (hrec.tidy hlayout).point
  have hrun : (transform computedOptions computedSample).toOption =
      some ⟨"const A = \x7b props: [type()] \x7d;", true, 2⟩ := by decide +kernel
  rw [transform_eq (by decide +kernel) hparse hcollect hdraft hcode] at hrun
  have heq : code = "const A = \x7b props: [type()] \x7d;" := congrArg Transformed.code (Option.some.inj hrun)
  exact ⟨program, collected, draft, code, hlayout, hshape, hcollect, hdraft, hcode, heq,
    (usage_survives_iff hlayout hshape hcollect hdraft hcode).2.2.1⟩

end ComponentMacros
