import ComponentMacros.Proofs.Ledger

/-!
# Hosts

What a rule records for a site stays inside one node around the site, its host:
the call that the site heads, or the object literal that has the site for a key.
A host is part of a statement, so no edit leaves the statement its site is in.
-/

namespace ComponentMacros

namespace Tree

/-- A call ends behind its parts, no statement is empty, and an import holds no call and no object. -/
def Closed (t : Tree) : Prop :=
  (t.isCall = true → ∀ c ∈ t.children, c.span.stop < t.span.stop) ∧
  (t.kind = .program → ∀ c ∈ t.children, c.span.start < c.span.stop) ∧
  (t.kind = .importDeclaration false → ∀ n ∈ t.nodes, n.isCall = false ∧ n.isObject = false)

instance (t : Tree) : Decidable t.Closed :=
  inferInstanceAs (Decidable (_ ∧ _ ∧ _))

end Tree

/-- What a parser promises about the ends of the nodes it makes. -/
structure Closed (program : Tree) : Prop where
  closed : ∀ t ∈ program.nodes, t.Closed

instance (program : Tree) : Decidable (Closed program) :=
  decidable_of_iff (∀ t ∈ program.nodes, t.Closed) ⟨fun h => ⟨h⟩, fun h => h.closed⟩

namespace Closed

variable {program t : Tree}

theorem call (h : Closed program) (ht : t ∈ program.nodes) (hk : t.isCall = true) {c : Tree}
    (hc : c ∈ t.children) :
    c.span.stop < t.span.stop := (h.closed t ht).1 hk c hc

theorem statement (h : Closed program) (hroot : program.kind = .program) {c : Tree} (hc : c ∈ program.children) :
    c.span.start < c.span.stop := (h.closed program (Tree.mem_nodes_self program)).2.1 hroot c hc

theorem imported (h : Closed program) (ht : t ∈ program.nodes) (hk : t.kind = .importDeclaration false) {n : Tree}
    (hn : n ∈ t.nodes) : n.isCall = false ∧ n.isObject = false := (h.closed t ht).2.2 hk n hn

end Closed

structure Edit.Inside (host : Span) (e : Edit) : Prop where
  from_start : host.start ≤ e.span.start
  before_stop : e.span.start < host.stop
  to_stop : e.span.stop ≤ host.stop
  refers : ∀ range, .source range ∈ e.content → host.start ≤ range.start ∧ range.stop < host.stop

theorem Edit.Inside.mono {host outer : Span} {e : Edit} (h : e.Inside host) (hc : outer.contains host = true) :
    e.Inside outer := by
  have hc := Span.contains_iff.mp hc
  refine ⟨Nat.le_trans hc.1 h.from_start, Nat.lt_of_lt_of_le h.before_stop hc.2, Nat.le_trans h.to_stop hc.2, ?_⟩
  intro range hr
  have := h.refers range hr
  omega

theorem Edit.Inside.overwrite {host r : Span} {text : String} (hstart : host.start ≤ r.start)
    (hbefore : r.start < host.stop) (hstop : r.stop ≤ host.stop) : (Edit.overwrite r text).Inside host :=
  ⟨hstart, hbefore, hstop, fun _ hr => absurd hr Fragment.source_not_mem_ofText⟩

/-! ## Recorded inside a tree -/

section
variable {source : List Char} {program : Tree}

theorem Anchor.bounds (hl : Layout source program) {t : Tree} (ht : t ∈ program.nodes) {pos : Nat}
    (h : Anchor t pos) : t.span.start ≤ pos ∧ pos ≤ t.span.stop := by
  have within : ∀ {n : Tree}, n ∈ t.nodes → t.span.start ≤ n.span.start ∧ n.span.stop ≤ t.span.stop := fun hn =>
    Span.contains_iff.mp (hl.contains ht hn)
  have above : ∀ {n : Tree}, n ∈ t.nodes → n ∈ program.nodes := Tree.nodes_trans ht
  cases h with
  | start hn =>
    have := within hn
    have := hl.ordered (above hn)
    omega
  | stop hn =>
    have := within hn
    have := hl.ordered (above hn)
    omega
  | opening hn hk =>
    have := within hn
    rcases hk with hk | hk
    · have := (hl.object (above hn) hk).bounds.1
      omega
    · have := (hl.array (above hn) hk).bounds.1
      omega
  | closing hn hk hp =>
    have := within hn
    have hpos := (hl.closing (above hn) hk hp).1
    rcases hl.parameters (above hn) hk with henc | hbare
    · have := henc.bounds.1
      omega
    · obtain ⟨c, hc, heq⟩ := List.map_eq_singleton_iff.mp hbare
      have hpar : c.kind = .parameter := congrArg Prod.fst heq
      simp [Tree.plainParameters, hc, hpar] at hp

theorem Recorded.inside (hl : Layout source program) {t : Tree} (ht : t ∈ program.nodes) {host : Span}
    (hstart : host.start ≤ t.span.start) (hstop : t.span.stop < host.stop) {e : Edit} (h : Recorded source t e) :
    e.Inside host := by
  have within : ∀ {n : Tree}, n ∈ t.nodes → t.span.start ≤ n.span.start ∧ n.span.stop ≤ t.span.stop := fun hn =>
    Span.contains_iff.mp (hl.contains ht hn)
  have notext : ∀ {text : String} {range : Span}, .source range ∈ Fragment.ofText text →
      host.start ≤ range.start ∧ range.stop < host.stop := fun hr => absurd hr Fragment.source_not_mem_ofText
  cases h with
  | replace hcut =>
    obtain ⟨n, hn, hcut⟩ := hcut
    have := within hn
    have := hl.cut_bounds (Tree.nodes_trans ht hn) hcut
    exact .overwrite (by omega) (by omega) (by omega)
  | prepend ha =>
    have := ha.bounds hl ht
    exact ⟨by simp only [Edit.prepend]; omega, by simp only [Edit.prepend]; omega,
      by simp only [Edit.prepend]; omega, fun _ => notext⟩
  | append ha =>
    have := ha.bounds hl ht
    exact ⟨by simp only [Edit.append]; omega, by simp only [Edit.append]; omega,
      by simp only [Edit.append]; omega, fun _ => notext⟩
  | move hs hm hplain hvalue hmap he =>
    have hprop := (keyedMember_property hs hm).1
    have hval := Tree.nodes_trans hprop (Tree.child_mem_nodes (Tree.value?_mem hvalue))
    have hpin := within hprop
    have hvin := within hval
    have hpord := hl.ordered (Tree.nodes_trans ht hprop)
    have hrefers : ∀ range, .source range ∈ e.content → host.start ≤ range.start ∧ range.stop < host.stop := by
      intro range hr
      rw [he.source_mem.mp hr]
      omega
    cases he with
    | inPlace _ => exact ⟨by simp only; omega, by simp only; omega, by simp only; omega, hrefers⟩
    | intoList hmixins =>
      obtain ⟨q, hq, -, hqv⟩ := memberValue_mem hmixins
      have hmix := Tree.nodes_trans (Tree.nodes_trans (keyedMember_object hs hm).1 (Tree.child_mem_nodes hq))
        (Tree.child_mem_nodes (Tree.value?_mem hqv))
      have hend := mixinEnd_bounds hl (Tree.nodes_trans ht hmix)
      have hlist := within (Tree.nodes_trans hmix (Tree.stripParens_mem _))
      exact ⟨by simp only; omega, by simp only; omega, by simp only; omega, hrefers⟩

/-! ## Calls -/

theorem call_inside (hl : Layout source program) (hclosed : Closed program) {site : Site} (hs : site.In program)
    {call : Tree} (h : site.call? = some call) (text : String) :
      (Edit.overwrite call.span text).Inside call.span := by
  have hmem := hs.ancestor_mem (Site.call?_mem h)
  obtain ⟨hk, callee, rest, hcs, -⟩ := Site.call?_callee h
  have hcallee : callee ∈ call.children := by rw [hcs]; exact List.mem_cons_self ..
  have := (hl.parts hmem).bounds callee hcallee
  have := hclosed.call hmem hk hcallee
  exact .overwrite (Nat.le_refl _) (by omega) (Nat.le_refl _)

inductive DefinitionEdit (source : List Char) (call argument : Tree) : Edit → Prop where
  | front (text : String) :
    DefinitionEdit source call argument (.overwrite ⟨call.span.start, argument.stripParens.span.start⟩ text)
  | back (text : String) :
    DefinitionEdit source call argument (.overwrite ⟨argument.stripParens.span.stop, call.span.stop⟩ text)
  | within {e : Edit} (h : Recorded source argument e) : DefinitionEdit source call argument e

theorem DefinitionEdit.inside (hl : Layout source program) (hclosed : Closed program) {call argument : Tree}
    (hc : call ∈ program.nodes) (hk : call.isCall = true) (ha : argument ∈ call.children) {e : Edit}
    (h : DefinitionEdit source call argument e) : e.Inside call.span := by
  have harg := Tree.nodes_trans hc (Tree.child_mem_nodes ha)
  have hstrip := Span.contains_iff.mp (hl.contains harg argument.stripParens_mem)
  have hord := hl.ordered (Tree.nodes_trans harg argument.stripParens_mem)
  have hin := (hl.parts hc).bounds argument ha
  have hend := hclosed.call hc hk ha
  cases h with
  | front text => exact .overwrite (Nat.le_refl _) (by simp only; omega) (by simp only; omega)
  | back text => exact .overwrite (by simp only; omega) (by simp only; omega) (Nat.le_refl _)
  | within h => exact h.inside hl harg hin.1 hend

end

section
variable {setting : Setting} {site : Site}

theorem finishDefinition_edits {definition : Definition} {tree : Tree} (hd : definition.In tree)
    (functional : Bool) (outer : List Edit) :
    ∀ e ∈ (finishDefinition setting site definition functional (setting.alone.record outer)).draft.edits,
      e ∈ outer ∨ Recorded setting.source tree e := by
  obtain ⟨front, hfront, hdraft, -⟩ :=
    @finishDefinition_spec tree setting site (setting.alone.record outer) _ hd functional
  have hprops := (@expandProps_spec tree setting.source setting.options (setting.alone.record outer).usages
    (fun s hs => nomatch hs) _ hd).1
  intro e he
  rw [hdraft] at he
  rcases mem_recordAll.mp he with he | ⟨he, -⟩
  · rcases mem_recordAll.mp he with he | ⟨he, -⟩
    · cases he
    · exact Or.inl he
  · rcases List.mem_append.mp he with he | he
    · exact Or.inr (hfront e he)
    · exact Or.inr (hprops e he)

theorem giveName_cases {options : Options} {definition : Definition} :
    (giveName options site definition).2.insertAt = definition.insertAt ∧
      ∀ e ∈ (giveName options site definition).1, ∃ text, e = .prepend definition.insertAt text := by
  unfold giveName
  split
  · exact ⟨rfl, by simp⟩
  · split
    · exact ⟨rfl, by simp⟩
    · exact ⟨rfl, fun e he => ⟨_, List.mem_singleton.mp he⟩⟩

theorem expandProps_cases {definition : Definition} {e : Edit}
    (he : e ∈ (expandProps setting.options setting.source .empty definition).1) :
    ∃ props text, definition.props? = some props ∧ e = .overwrite props.span text := by
  unfold expandProps at he
  split at he
  · cases he
  · rename_i props hprops
    split at he
    · cases he
    · exact ⟨props, _, hprops, List.mem_singleton.mp he⟩

/-- The last steps of a definition put texts before its members and replace its props. -/
theorem finishDefinition_cases {definition : Definition} {functional : Bool} {outer : List Edit} {e : Edit}
    (he : e ∈ (finishDefinition setting site definition functional (setting.alone.record outer)).draft.edits) :
    e ∈ outer ∨ (∃ text, e = .prepend definition.insertAt text) ∨
      ∃ props text, definition.props? = some props ∧ e = .overwrite props.span text := by
  obtain ⟨hinsert, hnamed⟩ := @giveName_cases site setting.options definition
  have hobj : (giveName setting.options site definition).2.object = definition.object := giveName_object ..
  simp only [finishDefinition, expandProps_congr setting.options setting.source _ hobj] at he
  rcases mem_recordAll.mp he with he | ⟨he, -⟩
  · rcases mem_recordAll.mp he with he | ⟨he, -⟩
    · cases he
    · exact Or.inl he
  · refine Or.inr ?_
    rcases List.mem_append.mp he with he | he
    · refine Or.inl ?_
      rcases List.mem_append.mp he with he | he
      · exact hnamed e he
      · split at he
        · rw [← hinsert]
          exact ⟨_, List.mem_singleton.mp he⟩
        · cases he
    · exact Or.inr (expandProps_cases he)

theorem unwrap_edits {call argument : Tree} : ∀ e ∈ Definition.unwrap call argument.stripParens,
    DefinitionEdit setting.source call argument e := by
  intro e he
  rcases mem_unwrap.mp he with rfl | rfl
  · exact .front ""
  · exact .back ""

/-- What the rule of a definition does: an object literal is unwrapped, and a function becomes a member
of a literal. -/
theorem definition_spec (hkind : site.kind = .component ∨ site.kind = .functional) {es : List Edit}
    (h : setting.ownEdits site = .ok es) : ∃ call argument factory, definitionCall site = .ok (call, argument) ∧
      ((argument.stripParens.isObject = true ∧ (factory = [] ∨
          ∃ render, (argument.stripParens.findMember? "render").bind (·.2.value?) = some render ∧
            injectFactory setting.isFactoryTaken site render = .ok factory) ∧
          es = (finishDefinition setting site (.ofObject call argument.stripParens) (site.kind = .functional)
            (setting.alone.record (factory ++ Definition.unwrap call argument.stripParens))).draft.edits) ∨
        (argument.stripParens.parameterList?.isSome = true ∧
          injectFactory setting.isFactoryTaken site argument.stripParens = .ok factory ∧
          es = (finishDefinition setting site ⟨call, none, argument.stripParens.span.start, true⟩
            (site.kind = .functional)
            (setting.alone.record (factory ++ wrapRender call.span argument.stripParens.span))).draft.edits)) := by
  unfold Setting.ownEdits at h
  cases hex : expandSite setting setting.alone site with
  | error err => rw [hex] at h; cases h
  | ok progress =>
    rw [hex] at h
    cases h
    unfold expandSite at hex
    rcases hkind with hkind | hkind <;> rw [hkind] at hex ⊢
    · obtain ⟨call, argument, hcall, hobj, rfl⟩ := expandComponent_ok hex
      exact ⟨call, argument, [], hcall, Or.inl ⟨hobj, Or.inl rfl, rfl⟩⟩
    · unfold expandFunctional at hex
      obtain ⟨⟨call, argument⟩, hcall, hex⟩ := bind_eq_ok hex
      simp only at hex
      split at hex
      · rename_i hlist
        obtain ⟨factory, hf, hex⟩ := bind_eq_ok hex
        cases hex
        exact ⟨call, argument, factory, hcall, Or.inr ⟨hlist, hf, rfl⟩⟩
      · split at hex
        · rename_i hobj
          split at hex
          · cases hex
          · rename_i render hrender
            obtain ⟨factory, hf, hex⟩ := bind_eq_ok hex
            cases hex
            exact ⟨call, argument, factory, hcall, Or.inl ⟨hobj, Or.inr ⟨render, hrender, hf⟩, rfl⟩⟩
        · cases hex

theorem definition_cases (hkind : site.kind = .component ∨ site.kind = .functional) {es : List Edit}
    (h : setting.ownEdits site = .ok es) : ∃ call argument factory functional,
      definitionCall site = .ok (call, argument) ∧
      ((argument.stripParens.isObject = true ∧ (factory = [] ∨
          ∃ render, (argument.stripParens.findMember? "render").bind (·.2.value?) = some render ∧
            injectFactory setting.isFactoryTaken site render = .ok factory) ∧
          es = (finishDefinition setting site (.ofObject call argument.stripParens) functional
            (setting.alone.record (factory ++ Definition.unwrap call argument.stripParens))).draft.edits) ∨
        (argument.stripParens.parameterList?.isSome = true ∧
          injectFactory setting.isFactoryTaken site argument.stripParens = .ok factory ∧
          es = (finishDefinition setting site ⟨call, none, argument.stripParens.span.start, true⟩ functional
            (setting.alone.record (factory ++ wrapRender call.span argument.stripParens.span))).draft.edits)) := by
  obtain ⟨call, argument, factory, hspec⟩ := definition_spec hkind h
  exact ⟨call, argument, factory, _, hspec⟩

theorem definition_edits (hkind : site.kind = .component ∨ site.kind = .functional) {es : List Edit}
    (h : setting.ownEdits site = .ok es) : ∃ call argument, definitionCall site = .ok (call, argument) ∧
      ∀ e ∈ es, DefinitionEdit setting.source call argument e := by
  obtain ⟨call, argument, factory, functional, hcall, hcases⟩ := definition_cases hkind h
  refine ⟨call, argument, hcall, fun e he => ?_⟩
  rcases hcases with ⟨hobj, hfactory, rfl⟩ | ⟨-, hf, rfl⟩
  · rcases finishDefinition_edits (ofObject_in argument.stripParens_mem hobj) functional _ e he with he | he
    · rcases List.mem_append.mp he with he | he
      · rcases hfactory with rfl | ⟨render, hrender, hf⟩
        · cases he
        · obtain ⟨p, hp, -, hpv⟩ := memberValue_mem hrender
          have hval := Tree.nodes_trans (Tree.nodes_trans argument.stripParens_mem (Tree.child_mem_nodes hp))
            (Tree.child_mem_nodes (Tree.value?_mem hpv))
          exact .within (injectFactory_recorded hval hf e he)
      · exact unwrap_edits e he
    · exact .within he
  · have hd : Definition.In argument ⟨call, none, argument.stripParens.span.start, true⟩ :=
      ⟨.start argument.stripParens_mem, fun o ho => nomatch ho⟩
    rcases finishDefinition_edits hd functional _ e he with he | he
    · rcases List.mem_append.mp he with he | he
      · exact .within (injectFactory_recorded argument.stripParens_mem hf e he)
      · rcases mem_wrapRender.mp he with rfl | rfl | rfl
        · exact .front _
        · exact .within (.prepend (.start argument.stripParens_mem))
        · exact .back _
    · exact .within he

end

/-! ## Keys -/

section
variable {source : List Char} {program : Tree}

theorem removeMember_inside (hl : Layout source program) {object : Tree} (ho : object ∈ program.nodes)
    (hk : object.kind = .object) {i : Nat} :
      ∀ e ∈ removeMember source object.children i, e.Inside object.span := by
  intro e he
  obtain ⟨r, hr, rfl⟩ := removeMember_mem he
  have hin := memberRanges_bounds (hl.object ho hk).2.2 (hl.member_comma ho hk) r hr
  have := (hl.object ho hk).bounds.1
  exact .overwrite (by omega) (by omega) (by omega)

theorem addMixin_inside (hl : Layout source program) {object mixins : Tree} (ho : object ∈ program.nodes)
    (hk : object.kind = .object) (hmixins : (object.findMember? "mixins").bind (·.2.value?) = some mixins)
    {moved : Span} (hmoved : object.span.start ≤ moved.start ∧ moved.stop < object.span.stop) :
    ∀ e ∈ addMixin mixins moved, e.Inside object.span := by
  obtain ⟨q, hq, -, hqv⟩ := memberValue_mem hmixins
  have hqp := Tree.nodes_trans ho (Tree.child_mem_nodes hq)
  have hmp := Tree.nodes_trans hqp (Tree.child_mem_nodes (Tree.value?_mem hqv))
  have hqin := (hl.object ho hk).bounds.2 q hq
  intro e he
  rcases addMixin_mem he with rfl | ⟨before, after, rfl⟩
  · have hanchor : Anchor q mixins.stripParens.span.start :=
      .start (Tree.mem_nodes_of_child (Tree.value?_mem hqv) mixins.stripParens_mem)
    exact Recorded.inside hl hqp (Nat.le_of_lt hqin.1) hqin.2.2 (.prepend hanchor)
  · have hend := mixinEnd_bounds hl hmp
    have hlist := Span.contains_iff.mp (hl.contains hmp mixins.stripParens_mem)
    have hmin := (hl.parts hqp).bounds mixins (Tree.value?_mem hqv)
    refine ⟨by simp only; omega, by simp only; omega, by simp only; omega, ?_⟩
    intro range hr
    obtain rfl : range = moved := by simpa [mixinOf] using hr
    exact hmoved

theorem moveInjections_inside (hl : Layout source program) {member : KeyedMember} {key value : Tree}
    (ht : Transfer program member key value) :
    ∀ e ∈ moveInjections source member value, e.Inside member.object.span := by
  have hb := ht.bounds hl
  intro e he
  unfold moveInjections at he
  split at he
  · rw [List.mem_singleton.mp he]
    exact .overwrite (by simp only; omega) (by simp only; omega) (by simp only; omega)
  · split at he
    · rw [List.mem_singleton.mp he]
      refine ⟨by simp only; omega, by simp only; omega, by simp only; omega, ?_⟩
      intro range hr
      obtain rfl : range = value.span := by simpa [mixinOf] using hr
      omega
    · rename_i mixins hmixins
      rcases List.mem_append.mp he with he | he
      · exact removeMember_inside hl ht.owner ht.object e he
      · exact addMixin_inside hl ht.owner ht.object hmixins (by omega) e he

theorem key_edits (hl : Layout source program) (hshape : Shape program) {site : Site} (hs : site.In program)
    {es : List Edit} (h : stripKey source site = .ok es ∨ expandInjections source site = .ok es) :
    ∃ object ∈ site.ancestors, object.kind = .object ∧ ∀ e ∈ es, e.Inside object.span := by
  have owner : ∀ {member : KeyedMember}, keyedMember site = .ok member → member.object ∈ site.ancestors :=
    fun hm => (Site.owner?_spec (keyedMember_spec hm).2.1).1
  rcases h with h | h
  · unfold stripKey at h
    obtain ⟨member, hm, h⟩ := bind_eq_ok h
    cases h
    obtain ⟨ho, hk⟩ := keyedMember_object hs hm
    exact ⟨member.object, owner hm, Tree.isObject_iff.mp hk, removeMember_inside hl ho (Tree.isObject_iff.mp hk)⟩
  · obtain ⟨member, value, hm, hplain, hvalue, hmap, rfl⟩ := expandInjections_ok h
    obtain ⟨key, ht, -⟩ := keyedMember_transfer hl hshape hs hm hplain hvalue hmap
    refine ⟨member.object, owner hm, ht.object, fun e he => ?_⟩
    rcases List.mem_append.mp he with he | he
    · -- the types of injections are removed inside of the property
      have hb := ht.bounds hl
      have hin := Tree.mem_nodes_of_child ht.value_child value.stripParens_mem
      exact Recorded.inside hl ht.property_mem (by omega) (by omega) (stripInjectionTypes_recorded hin e he)
    · exact moveInjections_inside hl ht e he

end

/-! ## Sites -/

def Site.Host (site : Site) (host : Tree) : Prop :=
  host ∈ site.ancestors ∧ (host.isCall = true ∨ host.isObject = true)

section
variable {setting : Setting} {program : Tree}

theorem ownEdits_cases {site : Site} {es : List Edit} (h : setting.ownEdits site = .ok es) :
    (site.kind = .component ∨ site.kind = .functional) ∨
    (∃ own, (stripKey setting.source site = .ok own ∨ expandInjections setting.source site = .ok own) ∧
      ∀ e, e ∈ es ↔ e ∈ own ∧ e.selects e = false) ∨
    ∃ call, site.call? = some call ∧ es = [.overwrite call.span erasedText] := by
  have recorded : ∀ {result : Except UsageError (List Edit)},
      (setting.alone.record <$> result).map (·.draft.edits) = .ok es →
        ∃ own, result = .ok own ∧ ∀ e, e ∈ es ↔ e ∈ own ∧ e.selects e = false := by
    intro result h
    cases result with
    | error err => cases h
    | ok own =>
      cases h
      refine ⟨own, rfl, fun e => mem_recordAll.trans ⟨fun he => he.resolve_left ?_, Or.inr⟩⟩
      exact List.not_mem_nil
  cases hkind : site.kind with
  | component => exact Or.inl (Or.inl rfl)
  | functional => exact Or.inl (Or.inr rfl)
  | events | states | scopedSlots =>
    simp only [Setting.ownEdits, expandSite, hkind] at h
    obtain ⟨own, hown, hsub⟩ := recorded h
    exact Or.inr (Or.inl ⟨own, Or.inl hown, hsub⟩)
  | injections =>
    simp only [Setting.ownEdits, expandSite, hkind] at h
    obtain ⟨own, hown, hsub⟩ := recorded h
    exact Or.inr (Or.inl ⟨own, Or.inr hown, hsub⟩)
  | type =>
    rw [ownEdits_type hkind, eraseType] at h
    cases hcall : site.call? with
    | none => rw [hcall] at h; cases h
    | some call =>
      rw [hcall, Except.ok.injEq] at h
      exact Or.inr (Or.inr ⟨call, rfl, h.symm⟩)

theorem ownEdits_host (hl : Layout setting.source program) (hshape : Shape program) (hclosed : Closed program)
    {site : Site} (hs : site.In program) {es : List Edit} (h : setting.ownEdits site = .ok es) :
    ∀ e ∈ es, ∃ host, site.Host host ∧ e.Inside host.span := by
  intro e he
  rcases ownEdits_cases h with hkind | ⟨own, hown, hsub⟩ | ⟨call, hcall, rfl⟩
  · obtain ⟨call, argument, hcall, hes⟩ := definition_edits hkind h
    obtain ⟨hc, hk, ha, -⟩ := definitionCall_mem hs hcall
    exact ⟨call, ⟨Site.call?_mem (definitionCall_spec hcall).1, Or.inl hk⟩,
      (hes e he).inside hl hclosed hc hk (Tree.arguments_mem ha)⟩
  · obtain ⟨object, hmem, hk, hin⟩ := key_edits hl hshape hs hown
    exact ⟨object, ⟨hmem, Or.inr (Tree.isObject_iff.mpr hk)⟩, hin e ((hsub e).mp he).1⟩
  · rw [List.mem_singleton.mp he]
    exact ⟨call, ⟨Site.call?_mem hcall, Or.inl (Site.call?_callee hcall).1⟩, call_inside hl hclosed hs hcall _⟩

theorem takenEdits_host (hl : Layout setting.source program) (hclosed : Closed program) {site : Site}
    (hs : site.In program) : ∀ e ∈ setting.takenEdits site, ∃ host, site.Host host ∧ e.Inside host.span := by
  intro e he
  unfold Setting.takenEdits at he
  split at he
  · cases he
  · cases hcall : site.call? with
    | none => simp [annotate, hcall] at he
    | some call =>
      rw [annotate_eq hcall, List.mem_singleton] at he
      rw [he]
      exact ⟨call, ⟨Site.call?_mem hcall, Or.inl (Site.call?_callee hcall).1⟩, call_inside hl hclosed hs hcall _⟩

theorem entry_host {es : List Edit} (hplay : setting.play setting.hands = .ok es)
    (hl : Layout setting.source program) (hshape : Shape program) (hclosed : Closed program)
    (hsites : ∀ s ∈ setting.collected.usages.pending, s.In program) {entry : Entry} (h : entry ∈ setting.ledger) :
    ∀ e ∈ entry.edits, ∃ host, entry.site.Host host ∧ e.Inside host.span := by
  have hs : entry.site.In program := hsites _ (ledger_sites_perm.subset (List.mem_map_of_mem h))
  rcases mem_ledger hplay h with ⟨-, hown, -⟩ | ⟨hedits, -⟩
  · exact ownEdits_host hl hshape hclosed hs hown
  · rw [hedits]
    exact takenEdits_host hl hclosed hs

end

/-! ## Statements -/

section
variable {source : List Char} {program : Tree} {site : Site}

theorem Site.In.statement (hs : site.In program) (hl : Layout source program) (hshape : Shape program) :
    ∃ c ∈ program.children, site.isWithin c.span = true ∧
      ∀ d ∈ program.children, site.isWithin d.span = true → d = c := by
  obtain ⟨n, hname, -, hspan, hpos, hpath⟩ := hs.node hshape
  have hroot := Tree.mem_nodes_self program
  rcases Tree.mem_nodes.mp hpath.head_mem_nodes with heq | ⟨c, hc, hnc⟩
  · rw [heq, Tree.isName, hl.root] at hname
    cases hname
  · have hin := hl.contains (Tree.nodes_trans hroot (Tree.child_mem_nodes hc)) hnc
    rw [hspan] at hin
    refine ⟨c, hc, hin, fun d hd hdin => ?_⟩
    rcases (hl.parts hroot).eq_or_apart d hd c hc with heq | hap
    · exact heq
    · have h₁ := Span.contains_iff.mp hin
      have h₂ := Span.contains_iff.mp hdin
      unfold Span.Apart at hap
      omega

theorem Site.Host.statement {host : Tree} (h : site.Host host) (hs : site.In program)
    (hl : Layout source program) :
    ∃ c ∈ program.children, host ∈ c.nodes ∧ c.span.contains host.span = true ∧ site.isWithin c.span = true := by
  have hroot := Tree.mem_nodes_self program
  have hmem := hs.ancestor_mem h.1
  rcases Tree.mem_nodes.mp hmem with heq | ⟨c, hc, hhc⟩
  · rcases h.2 with hk | hk
    · obtain ⟨o, hk⟩ := Tree.isCall_iff.mp hk
      rw [heq, hl.root] at hk
      cases hk
    · rw [heq, Tree.isObject_iff, hl.root] at hk
      cases hk
  · have hin := hl.contains (Tree.nodes_trans hroot (Tree.child_mem_nodes hc)) hhc
    exact ⟨c, hc, hhc, hin, Span.contains_trans hin (hs.contains hl h.1)⟩

end

end ComponentMacros
