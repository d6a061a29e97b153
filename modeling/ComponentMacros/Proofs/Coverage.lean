import ComponentMacros.Proofs.Transfer

/-!
# Every usage is replaced

Expanding a site replaces a range around it. The range stays within every object
literal around the site, so a map that is moved takes the replacement with it,
unless the site went with the props it stood in. Sites are queued until they are
expanded or taken by such props, so in the end each one is covered.
-/

namespace ComponentMacros

/-- The edit replaces the text at `s`: it replaces whole props, or it stays within every literal
around `s`. -/
structure Cover (program : Tree) (s : Span) (e : Edit) : Prop where
  overwrite : e.placement = .overwrite
  contains : e.span.contains s = true
  host : (∀ v ∈ program.nodes, v.stripParens.kind = .object → v.span.contains s = true →
      v.span.contains e.span = true) ∨ ∃ props ∈ program.nodes, props.kind = .object ∧ e.span = props.span

def CoveredBy (program : Tree) (s : Span) (es : List Edit) : Prop :=
  ∃ e ∈ es, e.selects e = false ∧ Cover program s e

def Draft.Covers (program : Tree) (draft : Draft) (site : Site) : Prop :=
  ∃ e ∈ draft.edits, Cover program site.span e

section
variable {source : List Char} {program : Tree} {site : Site}

theorem Edit.overwrite_selects (r : Span) (text : String) (f : Edit) :
    (Edit.overwrite r text).selects f = false := by
  rw [← Bool.not_eq_true, Edit.selects_iff]
  rintro ⟨range, hr, -⟩
  exact Fragment.source_not_mem_ofText hr

theorem CutAt.cover (hl : Layout source program) {t : Tree} {r s : Span} (hcut : CutAt source t r)
    (ht : t ∈ program.nodes) (hc : r.contains s = true)
    (hbelow : ∀ v ∈ program.nodes, v.stripParens.kind = .object → v.span.contains s = true → t ∈ v.nodes)
    (content : Fragment) : Cover program s ⟨.overwrite, r, content⟩ := by
  refine ⟨rfl, hc, Or.inl ?_⟩
  intro v hv hmap hvs
  exact Span.contains_trans (hl.contains hv (hbelow v hv hmap hvs)) (hl.cut_contains ht hcut)

theorem removeMember_contains : ∀ {ms : List Tree} {lo hi i : Nat} {m : Tree}, Ordered lo hi ms →
    (∀ m ∈ ms, m.span.stop ≤ trailingCommaEnd source m.span.stop ∧ trailingCommaEnd source m.span.stop ≤ hi) →
    ms[i]? = some m → ∃ e ∈ removeMember source ms i, e.span.contains m.span = true
  | [], _, _, _, _, _, _, hm => by simp at hm
  | [m'], _, _, 0, m, _, ht, hm => by
    rw [List.getElem?_cons_zero, Option.some.injEq] at hm
    subst hm
    refine ⟨.remove m'.span.start (trailingCommaEnd source m'.span.stop), by simp [removeMember], ?_⟩
    exact Span.contains_iff.mpr ⟨Nat.le_refl _, (ht m' (List.mem_singleton_self _)).1⟩
  | m' :: next :: rest, _, _, 0, m, h, _, hm => by
    rw [List.getElem?_cons_zero, Option.some.injEq] at hm
    subst hm
    refine ⟨.remove m'.span.start next.span.start, by simp [removeMember], ?_⟩
    exact Span.contains_iff.mpr ⟨Nat.le_refl _, h.2.2.1⟩
  | m' :: rest, _, _, i + 1, m, h, ht, hm => by
    rw [removeMember_cons_succ]
    exact removeMember_contains h.2.2 (fun m hm => ht m (List.mem_cons_of_mem _ hm)) hm

theorem keyedMember_index {member : KeyedMember} (h : keyedMember site = .ok member) :
    ∃ m, member.object.children[member.index]? = some m ∧ m.span = member.property.span := by
  obtain ⟨-, -, hidx⟩ := keyedMember_spec h
  obtain ⟨hlt, hspan, -⟩ := List.findIdx?_eq_some_iff_getElem.mp hidx
  exact ⟨_, List.getElem?_eq_getElem hlt, by simpa using hspan⟩

theorem CoveredBy.append_right {s : Span} {es : List Edit} (h : CoveredBy program s es) (before : List Edit) :
    CoveredBy program s (before ++ es) := by
  obtain ⟨e, he, hcover⟩ := h
  exact ⟨e, List.mem_append_right _ he, hcover⟩

/-! ## Around a site -/

theorem Site.call?_parent {call : Tree} (h : site.call? = some call) : site.parent? = some call :=
  (Option.filter_eq_some_iff.mp h).1

theorem Site.keyProperty?_parent {property : Tree} (h : site.keyProperty? = some property) :
    site.parent? = some property := (Option.filter_eq_some_iff.mp h).1

theorem call_contains (hl : Layout source program) (hs : site.In program) {call : Tree}
    (h : site.call? = some call) :
    ∃ callee rest, call.children = callee :: rest ∧ callee.span.contains site.span = true := by
  obtain ⟨-, callee, rest, hcs, hspan⟩ := Site.call?_callee h
  have hcall := hs.ancestor_mem (Site.call?_mem h)
  have hchild : callee ∈ call.children := by rw [hcs]; exact List.mem_cons_self ..
  refine ⟨callee, rest, hcs, ?_⟩
  rw [← hspan]
  exact hl.contains (Tree.nodes_trans hcall (Tree.child_mem_nodes hchild)) callee.stripParens_mem

variable (hl : Layout source program) (hshape : Shape program) (hs : site.In program)
include hl hshape hs

theorem Site.In.parent_below {t : Tree} (ht : site.parent? = some t) {v : Tree} (hv : v ∈ program.nodes)
    (hmap : v.stripParens.kind = .object) (hc : v.span.contains site.span = true) : t ∈ v.nodes := by
  obtain ⟨n, hname, hleaf, hspan, hpos, hpath⟩ := hs.node hshape
  have hnp := hpath.head_mem_nodes
  have hkind : ∀ {k : Kind}, n.kind = k → k ≠ .parenthesized ∧ k ≠ .object := by
    rintro k rfl
    constructor <;> intro hk <;> rw [Tree.isName, hk] at hname <;> cases hname
  have hlit := Tree.nodes_trans hv v.stripParens_mem
  -- the site is inside of the literal, not its own bracket
  have hnlit : n ∈ v.stripParens.nodes := by
    rw [Span.contains_iff] at hc
    have hmeet : ¬ n.span.Apart v.span := by rw [hspan]; unfold Span.Apart; omega
    rcases hl.nested hnp hv hmeet with hin | hin
    · exact Tree.mem_stripParens_of_kind hin (hkind rfl).1
    · rcases Tree.mem_nodes.mp hin with rfl | ⟨c, hcn, -⟩
      · exact Tree.mem_stripParens_of_kind (Tree.mem_nodes_self _) (hkind rfl).1
      · rw [hleaf] at hcn; cases hcn
  have hother : v.stripParens.span ≠ site.span := by
    rcases Tree.mem_nodes.mp hnlit with heq | ⟨c, hcl, hnc⟩
    · exact absurd hmap (hkind (by rw [heq])).2
    · have hin := (hl.object hlit hmap).bounds.2 c hcl
      have hcn := Span.contains_iff.mp (hl.contains (Tree.nodes_trans hlit (Tree.child_mem_nodes hcl)) hnc)
      intro heq
      rw [heq, ← hspan] at hin
      omega
  have hanc : v.stripParens ∈ site.ancestors := by
    rcases List.mem_cons.mp (hpath.mem_of_below hl (hspan ▸ hpos) hlit hnlit) with heq | hmem
    · rw [heq] at hother; exact absurd hspan hother
    · exact hmem
  -- the search for a node around the site does not get past the literal
  obtain ⟨-, before, after, hsplit, hskipped⟩ := List.find?_eq_some_iff_append.mp ht
  have hrest : v.stripParens ∈ t :: after := by
    rw [hsplit] at hanc
    rcases List.mem_append.mp hanc with hmem | hmem
    · have := hskipped _ hmem
      simp [hother] at this
    · exact hmem
  have hsub : PathTo program (t :: after) := by
    rw [hsplit, ← List.cons_append] at hpath
    exact hpath.drop
  exact Tree.nodes_trans v.stripParens_mem (hsub.mem_of_mem _ hrest)

theorem Site.In.owner_below {member : KeyedMember} (hm : keyedMember site = .ok member) {v : Tree}
    (hv : v ∈ program.nodes)
    (hmap : v.stripParens.kind = .object) (hc : v.span.contains site.span = true) : member.object ∈ v.nodes := by
  obtain ⟨hkey, -, -⟩ := keyedMember_spec hm
  obtain ⟨hprop, hpk⟩ := keyedMember_property hs hm
  obtain ⟨-, -, -, -, hpos, -⟩ := hs.node hshape
  have hin := Span.contains_iff.mp (hs.contains hl (Site.keyProperty?_mem hkey))
  rcases Tree.eq_or_child_of_mem (hs.parent_below hl hshape (Site.keyProperty?_parent hkey) hv hmap hc) with
    rfl | ⟨u, hu, hpu⟩
  · obtain ⟨a, c, s, m, hk⟩ := Tree.isProperty_iff.mp hpk
    rw [Tree.stripParens_of_kind (by rw [hk]; exact fun h => nomatch h), hk] at hmap
    cases hmap
  · rw [hl.parent_unique (keyedMember_object hs hm).1 (Tree.nodes_trans hv hu)
      (keyedMember_child hl hshape hs hm) hpu
      (by omega)]
    exact hu

/-! ## Replacements by rule -/

theorem call_cover {call : Tree} (h : site.call? = some call) (text : String) :
    Cover program site.span (.overwrite call.span text) := by
  have hcall := hs.ancestor_mem (Site.call?_mem h)
  obtain ⟨callee, rest, hcs, hin⟩ := call_contains hl hs h
  have hchild : callee ∈ call.nodes := Tree.child_mem_nodes (by rw [hcs]; exact List.mem_cons_self ..)
  exact CutAt.cover hl (.whole (Or.inl (Site.call?_callee h).1)) hcall
    (Span.contains_trans (hl.contains hcall hchild) hin)
    (fun v hv hmap hc => hs.parent_below hl hshape (Site.call?_parent h) hv hmap hc) _

theorem front_cover {call argument : Tree} (h : definitionCall site = .ok (call, argument)) (text : String) :
    Cover program site.span (.overwrite ⟨call.span.start, argument.stripParens.span.start⟩ text) := by
  obtain ⟨hc, ha⟩ := definitionCall_spec h
  obtain ⟨hcall, hk, -, -⟩ := definitionCall_mem hs h
  obtain ⟨o, ho⟩ := Tree.isCall_iff.mp hk
  obtain ⟨callee, rest, hcs, hin⟩ := call_contains hl hs hc
  -- the callee comes before the argument
  have hparts := hl.parts hcall
  rw [hcs] at hparts
  have harg : argument ∈ rest := by
    have hmem : argument ∈ call.arguments := by rw [ha]; exact List.mem_singleton_self _
    have := (List.mem_filter.mp hmem).1
    rw [hcs] at this
    exact this
  have hafter := hparts.2.2.bounds argument harg
  have hstrip := Span.contains_iff.mp (hl.contains
    (Tree.nodes_trans hcall (Tree.child_mem_nodes (Tree.arguments_mem ha))) argument.stripParens_mem)
  have hcallee := Span.contains_iff.mp hin
  have hfirst := hparts.1
  refine CutAt.cover hl (.front ho ha) hcall (Span.contains_iff.mpr ⟨?_, ?_⟩)
    (fun v hv hmap hc' => hs.parent_below hl hshape (Site.call?_parent hc) hv hmap hc') _
  · simp only; omega
  · simp only; omega

theorem unwrap_cover {call argument : Tree} (h : definitionCall site = .ok (call, argument)) :
    CoveredBy program site.span (Definition.unwrap call argument.stripParens) := by
  refine ⟨_, List.mem_cons_self .., ?_⟩
  rw [Edit.remove_eq]
  exact ⟨Edit.overwrite_selects .., front_cover hl hshape hs h ""⟩

theorem member_cover {member : KeyedMember} (h : keyedMember site = .ok member) :
    CoveredBy program site.span (removeMember source member.object.children member.index) := by
  obtain ⟨hobj, hok⟩ := keyedMember_object hs h
  have hk := Tree.isObject_iff.mp hok
  obtain ⟨m, hm, hspan⟩ := keyedMember_index h
  obtain ⟨e, he, hcontains⟩ := removeMember_contains (hl.object hobj hk).2.2 (hl.member_comma hobj hk) hm
  obtain ⟨r, hr, rfl⟩ := removeMember_mem he
  refine ⟨_, he, Edit.overwrite_selects .., CutAt.cover hl (.member hk hr) hobj (Span.contains_trans hcontains ?_)
    (fun v hv hmap hc => hs.owner_below hl hshape h hv hmap hc) _⟩
  rw [hspan]
  exact hs.contains hl (Site.keyProperty?_mem (keyedMember_spec h).1)

theorem moveInjections_cover {member : KeyedMember} (h : keyedMember site = .ok member)
    (hplain : ∃ a c m, member.property.kind = .property a c false m) {value : Tree}
    (hvalue : member.property.value? = some value) (hmap : value.stripParens.isObject = true) :
    CoveredBy program site.span (moveInjections source member value) := by
  obtain ⟨key, ht, hkey⟩ := keyedMember_transfer hl hshape hs h hplain hvalue hmap
  have hb := ht.bounds hl
  obtain ⟨a, c, m, hk⟩ := hplain
  have hbelow : ∀ v ∈ program.nodes, v.stripParens.kind = .object → v.span.contains site.span = true →
      member.property ∈ v.nodes := by
    intro v hv hvm hc
    exact hs.parent_below hl hshape (Site.keyProperty?_parent (keyedMember_spec h).1) hv hvm hc
  unfold moveInjections
  split
  · refine ⟨_, List.mem_singleton_self _, Edit.overwrite_selects ..,
      CutAt.cover hl (.key hk hvalue) ht.property_mem ?_ hbelow _⟩
    rw [← hkey]
    exact Span.contains_iff.mpr ⟨hb.2.1, hb.2.2.2.1⟩
  · split
    · rename_i hnone
      refine ⟨_, List.mem_singleton_self _, ?_, CutAt.cover hl (.whole (Or.inr (Or.inr ht.property)))
        ht.property_mem
        (hs.contains hl (Site.keyProperty?_mem (keyedMember_spec h).1)) hbelow _⟩
      -- the property is not inside of its own map
      rw [← Bool.not_eq_true, Moves.selects_iff (.inPlace hnone)]
      intro hin
      have := Span.contains_iff.mp hin
      simp only at this
      omega
    · obtain ⟨e, he, hcover⟩ := member_cover hl hshape hs h
      exact ⟨e, List.mem_append_left _ he, hcover⟩

theorem annotate_cover (h : site.call?.isSome = true) :
    CoveredBy program site.span (annotate site) := by
  obtain ⟨call, hcall⟩ := Option.isSome_iff_exists.mp h
  simp only [annotate, hcall]
  exact ⟨_, List.mem_singleton_self _, Edit.overwrite_selects .., call_cover hl hshape hs hcall _⟩

end

theorem takeMatching_split {usages : Usages} (kind : Macro) (p : Site → Bool) {s : Site}
    (hs : s ∈ usages.pending) :
    s ∈ (usages.takeMatching kind p).2.pending ∨ s ∈ (usages.takeMatching kind p).1 := by
  by_cases h : (s.kind = kind && p s) = true
  · exact Or.inr (List.mem_filter.mpr ⟨hs, h⟩)
  · exact Or.inl (List.mem_filter.mpr ⟨hs, by rw [Bool.eq_false_of_not_eq_true h]; rfl⟩)

-- props take a site from the queue to replace it in them, or with them
theorem expandProps_cover {source : List Char} {program : Tree} (hl : Layout source program)
    (hshape : Shape program)
    (options : Options) {usages : Usages} (hu : ∀ s ∈ usages.pending, s.In program) {definition : Definition}
    (hd : definition.In program) : ∀ s ∈ usages.pending,
      s ∈ (expandProps options source usages definition).2.pending ∨
        CoveredBy program s.span (expandProps options source usages definition).1 := by
  intro s hs
  unfold expandProps
  split
  · exact Or.inl hs
  · rename_i props hprops
    obtain ⟨hin, hk⟩ := props?_mem hd hprops
    split
    · unfold annotateProps
      split
      · exact Or.inl hs
      · refine (takeMatching_split .type _ hs).imp_right ?_
        intro htaken
        have hp := (takeMatching_mem.1 s htaken).2.2
        simp only [Bool.and_eq_true] at hp
        obtain ⟨e, he, hcover⟩ := annotate_cover hl hshape (hu s hs) hp.2
        exact ⟨e, List.mem_flatMap.mpr ⟨s, htaken, he⟩, hcover⟩
    · refine (takeMatching_split .type _ hs).imp_right ?_
      intro htaken
      refine ⟨_, List.mem_singleton_self _, Edit.overwrite_selects .., rfl, (takeMatching_mem.1 s htaken).2.2, ?_⟩
      exact Or.inr ⟨props, hin, Tree.isObject_iff.mp hk, rfl⟩

/-! ## Runs -/

section
variable {program : Tree} {setting : Setting} {site : Site} {progress progress' : Progress}

theorem Draft.Covers.recordAll {draft : Draft} (h : draft.Covers program site) (es : List Edit) :
    (draft.recordAll es).Covers program site := by
  obtain ⟨e, he, hcover⟩ := h
  exact ⟨e, mem_recordAll.mpr (Or.inl he), hcover⟩

theorem Draft.Covers.of_mem {draft : Draft} {es : List Edit}
    (h : CoveredBy program site.span es) : (draft.recordAll es).Covers program site := by
  obtain ⟨e, he, hself, hcover⟩ := h
  exact ⟨e, mem_recordAll.mpr (Or.inr ⟨he, hself⟩), hcover⟩

def Progress.Handles (program : Tree) (site : Site) (progress progress' : Progress) : Prop :=
  progress'.draft.Covers program site ∧
    ∀ s ∈ progress.usages.pending, s ∈ progress'.usages.pending ∨ progress'.draft.Covers program s

theorem record_handles {es : List Edit} (h : CoveredBy program site.span es) :
    progress.Handles program site (progress.record es) :=
  ⟨.of_mem h, fun _ hs => Or.inl hs⟩

variable (hl : Layout setting.source program) (hshape : Shape program)
include hl hshape

theorem finishDefinition_handles {definition : Definition} (hd : definition.In program) (functional : Bool)
    (hu : ∀ s ∈ progress.usages.pending, s.In program) {outer : List Edit}
    (houter : CoveredBy program site.span outer) :
    progress.Handles program site
      (finishDefinition setting site definition functional (progress.record outer)) := by
  obtain ⟨front, -, hdraft, husages⟩ :=
    @finishDefinition_spec program setting site (progress.record outer) _ hd functional
  unfold Progress.Handles
  rw [hdraft, husages]
  refine ⟨(Draft.Covers.of_mem houter).recordAll _, ?_⟩
  intro s hs
  exact (expandProps_cover hl hshape setting.options hu hd s hs).imp_right fun h => .of_mem (h.append_right front)

theorem expandComponent_handles (hs : site.In program) (hu : ∀ s ∈ progress.usages.pending, s.In program)
    (h : expandComponent setting site progress = .ok progress') : progress.Handles program site progress' := by
  obtain ⟨call, argument, hcall, hobj, rfl⟩ := expandComponent_ok h
  obtain ⟨-, -, -, hin⟩ := definitionCall_mem hs hcall
  exact finishDefinition_handles hl hshape (ofObject_in hin hobj) false hu (unwrap_cover hl hshape hs hcall)

theorem expandFunctional_handles (hs : site.In program) (hu : ∀ s ∈ progress.usages.pending, s.In program)
    (h : expandFunctional setting site progress = .ok progress') : progress.Handles program site progress' := by
  obtain ⟨call, argument, factory, hcall, hcase⟩ := expandFunctional_ok h
  obtain ⟨-, -, -, hin⟩ := definitionCall_mem hs hcall
  rcases hcase with ⟨-, rfl⟩ | ⟨render, hobj, -, -, rfl⟩
  · refine finishDefinition_handles hl hshape ⟨.start hin, fun o ho => by cases ho⟩ true hu
      (CoveredBy.append_right ?_ factory)
    exact ⟨_, List.mem_cons_self .., Edit.overwrite_selects .., front_cover hl hshape hs hcall _⟩
  · exact finishDefinition_handles hl hshape (ofObject_in hin hobj) true hu
      ((unwrap_cover hl hshape hs hcall).append_right factory)

theorem stripKey_cover (hs : site.In program) {es : List Edit} (h : stripKey setting.source site = .ok es) :
    CoveredBy program site.span es := by
  unfold stripKey at h
  obtain ⟨member, hm, h⟩ := bind_eq_ok h
  cases h
  exact member_cover hl hshape hs hm

theorem expandInjections_cover (hs : site.In program) {es : List Edit}
    (h : expandInjections setting.source site = .ok es) : CoveredBy program site.span es := by
  obtain ⟨member, value, hm, hplain, hvalue, hmap, rfl⟩ := expandInjections_ok h
  exact (moveInjections_cover hl hshape hs hm hplain hvalue hmap).append_right _

theorem eraseType_cover (hs : site.In program) {es : List Edit} (h : eraseType site = .ok es) :
    CoveredBy program site.span es := by
  unfold eraseType at h
  split at h
  · rename_i call hcall
    cases h
    exact ⟨_, List.mem_singleton_self _, Edit.overwrite_selects .., call_cover hl hshape hs hcall _⟩
  · cases h

theorem expandSite_handles (hs : site.In program) (hu : ∀ s ∈ progress.usages.pending, s.In program)
    (h : expandSite setting progress site = .ok progress') : progress.Handles program site progress' := by
  unfold expandSite at h
  split at h
  · exact expandComponent_handles hl hshape hs hu h
  · exact expandFunctional_handles hl hshape hs hu h
  · obtain ⟨es, hes, rfl⟩ := record_map_ok h
    exact record_handles (stripKey_cover hl hshape hs hes)
  · obtain ⟨es, hes, rfl⟩ := record_map_ok h
    exact record_handles (stripKey_cover hl hshape hs hes)
  · obtain ⟨es, hes, rfl⟩ := record_map_ok h
    exact record_handles (stripKey_cover hl hshape hs hes)
  · obtain ⟨es, hes, rfl⟩ := record_map_ok h
    exact record_handles (expandInjections_cover hl hshape hs hes)
  · obtain ⟨es, hes, rfl⟩ := record_map_ok h
    exact record_handles (eraseType_cover hl hshape hs hes)

/-- After the sites of a macro are expanded, a site is covered or waits for a macro to come. -/
theorem expandMacro_covers {kind : Macro} {kinds : List Macro} {sites : List Site}
    (hu : ∀ s ∈ progress.usages.pending, s.In program)
    (hsites : ∀ s ∈ sites, progress.draft.Covers program s ∨ s ∈ progress.usages.pending ∧ s.kind ∈ kind :: kinds)
    (h : expandMacro setting progress kind = .ok progress') :
    (∀ s ∈ progress'.usages.pending, s.In program) ∧
      ∀ s ∈ sites, progress'.draft.Covers program s ∨ s ∈ progress'.usages.pending ∧ s.kind ∈ kinds := by
  unfold expandMacro at h
  have hend := foldlM_run (fun rest p => (∀ s ∈ rest, s.In program) ∧ (∀ s ∈ p.usages.pending, s.In program) ∧
    ∀ s ∈ sites, p.draft.Covers program s ∨ s ∈ rest ∨ s ∈ p.usages.pending ∧ s.kind ∈ kinds)
    ?_ _ _ _ ⟨?_, ?_, ?_⟩ h
  · refine ⟨hend.2.1, fun s hs => (hend.2.2 s hs).imp_right ?_⟩
    rintro (hrest | hwait)
    · cases hrest
    · exact hwait
  · rintro site rest p p' ⟨hrest, hup, hdone⟩ hstep
    have hsite := hrest site (List.mem_cons_self ..)
    obtain ⟨es, hdraft, -, hpending⟩ := expandSite_grows hsite hup hstep
    obtain ⟨hcover, hqueue⟩ := expandSite_handles hl hshape hsite hup hstep
    refine ⟨fun s hs => hrest s (List.mem_cons_of_mem _ hs), fun s hs => hup s (hpending s hs), ?_⟩
    intro s hs
    rcases hdone s hs with hcov | hmem | ⟨hwait, hkind⟩
    · rw [hdraft]; exact Or.inl (hcov.recordAll es)
    · rcases List.mem_cons.mp hmem with rfl | hmem
      · exact Or.inl hcover
      · exact Or.inr (Or.inl hmem)
    · rcases hqueue s hwait with hwait | hcov
      · exact Or.inr (Or.inr ⟨hwait, hkind⟩)
      · exact Or.inl hcov
  · intro s hs
    exact hu s (takeMatching_mem.1 s hs).1
  · intro s hs
    exact hu s (takeMatching_mem.2 s hs)
  · intro s hs
    refine (hsites s hs).imp_right ?_
    rintro ⟨hwait, hkind⟩
    by_cases hk : s.kind = kind
    · exact Or.inl (List.mem_filter.mpr ⟨hwait, by simp [hk]⟩)
    · exact Or.inr ⟨List.mem_filter.mpr ⟨hwait, by simp [hk]⟩, (List.mem_cons.mp hkind).resolve_left hk⟩

end

section
variable {options : Options} {source : List Char} {program : Tree} {collected : Collected} {draft : Draft}

/-- Every collected site is covered in the end. -/
theorem expansion_covers (hl : Layout source program) (hshape : Shape program)
    (hc : collect? options program = some collected) (h : expansion ⟨options, source, collected⟩ = .ok draft) :
    ∀ s ∈ collected.usages.pending, draft.Covers program s := by
  obtain ⟨progress, hall, rfl⟩ := expansion_ok h
  unfold expandAll at hall
  have hend := foldlM_run (fun kinds p => (∀ s ∈ p.usages.pending, s.In program) ∧ ∀ s ∈ collected.usages.pending,
    p.draft.Covers program s ∨ s ∈ p.usages.pending ∧ s.kind ∈ kinds) ?_ _ _ _ ⟨collect?_sites hc, ?_⟩ hall
  · intro s hs
    rcases hend.2 s hs with hcov | ⟨-, hkind⟩
    · exact hcov.recordAll _
    · cases hkind
  · rintro kind kinds p p' ⟨hu, hdone⟩ hstep
    exact expandMacro_covers hl hshape hu hdone hstep
  · intro s hs
    refine Or.inr ⟨hs, ?_⟩
    cases s.kind <;> decide

end

end ComponentMacros
