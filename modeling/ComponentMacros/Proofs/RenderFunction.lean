import ComponentMacros.Proofs.Misuse
import ComponentMacros.Proofs.Opening
import ComponentMacros.Proofs.Placement

/-!
# Render functions

A functional component renders with a function: the definition itself, or the
value of its member `render`. An expansion records the edits that give this
function the element factory, unless it takes it already, and makes sure first
that nothing around or in the function is called like the factory.
-/

namespace ComponentMacros

def Site.render? (site : Site) : Option Tree :=
  match definitionCall site with
  | .error _ => none
  | .ok (_, argument) =>
    if argument.stripParens.parameterList?.isSome then some argument.stripParens
    else ((argument.stripParens.findMember? "render").bind (·.2.value?)).map Tree.stripParens

def Tree.takesFactory (list : Tree) : Bool :=
  list.plainParameters.head?.bind (·.parameterName?) = some factoryName

theorem Site.render?_mem {program function : Tree} {site : Site} (hin : site.In program)
    (h : site.render? = some function) : function ∈ program.nodes := by
  unfold render? at h
  split at h
  · cases h
  · rename_i call argument hcall
    have hargument := (definitionCall_mem hin hcall).2.2.2
    split at h
    · cases h
      exact hargument
    · obtain ⟨render, hrender, rfl⟩ := Option.map_eq_some_iff.mp h
      obtain ⟨property, hproperty, -, hvalue⟩ := memberValue_mem hrender
      exact Tree.nodes_trans (Tree.nodes_trans hargument (Tree.child_mem_nodes hproperty))
        (Tree.nodes_trans (Tree.child_mem_nodes (Tree.value?_mem hvalue)) render.stripParens_mem)

section
variable {setting : Setting} {site : Site} {draft : Draft}

theorem injectFactory_eq {render list : Tree} (hlist : render.stripParens.parameterList? = some list)
    {factory : List Edit} (h : injectFactory setting.isFactoryTaken site render = .ok factory) :
    list.takesFactory = true ∧ factory = [] ∨ list.takesFactory = false ∧
      setting.isFactoryTaken render.stripParens.span = false ∧ factory = prependFactory list := by
  unfold injectFactory at h
  simp only [hlist] at h
  split at h
  · rename_i htakes
    cases h
    exact Or.inl ⟨decide_eq_true htakes, rfl⟩
  · rename_i htakes
    split at h
    · cases h
    · rename_i hfree
      cases h
      exact Or.inr ⟨decide_eq_false htakes, Bool.eq_false_of_not_eq_true hfree, rfl⟩

theorem prependFactory_selects {list : Tree} : ∀ e ∈ prependFactory list, e.selects e = false := by
  unfold prependFactory
  split
  · simp [Edit.append_selects]
  · split <;> simp [Edit.append_selects, Edit.prepend_selects]
  · simp [Edit.prepend_selects]
  · simp [Edit.prepend_selects]

theorem finishDefinition_records {definition : Definition} {functional : Bool} {outer : List Edit} {e : Edit}
    (he : e ∈ outer) (hself : e.selects e = false) :
    e ∈ (finishDefinition setting site definition functional (setting.alone.record outer)).draft.edits :=
  mem_recordAll.mpr (Or.inl (mem_recordAll.mpr (Or.inr ⟨he, hself⟩)))

theorem functional_factory (hkind : site.kind = .functional) {es : List Edit} (h : setting.ownEdits site = .ok es)
    {function list : Tree} (hrender : site.render? = some function) (hlist : function.parameterList? = some list) :
    list.takesFactory = true ∨ list.takesFactory = false ∧ setting.isFactoryTaken function.span = false ∧
      ∀ e ∈ prependFactory list, e ∈ es := by
  unfold Setting.ownEdits at h
  cases hex : expandSite setting setting.alone site with
  | error err => rw [hex] at h; cases h
  | ok progress =>
    rw [hex] at h
    cases h
    unfold expandSite expandFunctional at hex
    rw [hkind] at hex
    obtain ⟨⟨call, argument⟩, hcall, hex⟩ := bind_eq_ok hex
    unfold Site.render? at hrender
    simp only [hcall] at hrender
    simp only at hex
    split at hex
    · rename_i hfunction
      rw [if_pos hfunction] at hrender
      cases hrender
      obtain ⟨factory, hfactory, hex⟩ := bind_eq_ok hex
      cases hex
      have hstrip := argument.stripParens_stripParens
      rcases injectFactory_eq (by rw [hstrip]; exact hlist) hfactory with ⟨htakes, -⟩ | ⟨htakes, hfree, rfl⟩
      · exact Or.inl htakes
      · refine Or.inr ⟨htakes, by rw [← hstrip]; exact hfree, fun e he => ?_⟩
        exact finishDefinition_records (List.mem_append_left _ he) (prependFactory_selects e he)
    · rename_i hfunction
      rw [if_neg hfunction] at hrender
      split at hex
      · split at hex
        · cases hex
        · rename_i render hvalue
          rw [hvalue] at hrender
          cases hrender
          obtain ⟨factory, hfactory, hex⟩ := bind_eq_ok hex
          cases hex
          rcases injectFactory_eq hlist hfactory with ⟨htakes, -⟩ | ⟨htakes, hfree, rfl⟩
          · exact Or.inl htakes
          · refine Or.inr ⟨htakes, hfree, fun e he => ?_⟩
            exact finishDefinition_records (List.mem_append_left _ he) (prependFactory_selects e he)
      · cases hex

theorem expansion_factory (hdraft : expansion setting = .ok draft) (hs : site ∈ setting.collected.usages.pending)
    (hkind : site.kind = .functional) {function list : Tree} (hrender : site.render? = some function)
    (hlist : function.parameterList? = some list) :
    list.takesFactory = true ∨ list.takesFactory = false ∧ setting.isFactoryTaken function.span = false ∧
      ∀ e ∈ prependFactory list, e ∈ draft.edits := by
  obtain ⟨entry, hentry, hown⟩ := own_entry hdraft hs (by rw [hkind]; decide)
  refine (functional_factory hkind hown hrender hlist).imp_right ?_
  rintro ⟨htakes, hfree, hedits⟩
  exact ⟨htakes, hfree, fun e he => entry_recorded hdraft hentry (hedits e he) (prependFactory_selects e he)⟩

end

/-! ## What a definition leaves alone -/

section
variable {setting : Setting} {site : Site} {program : Tree}

theorem props?_member {call object props : Tree} (h : (Definition.ofObject call object).props? = some props) :
    ∃ m ∈ object.children, m.staticName? = some "props" ∧ props ∈ m.nodes := by
  have hobject : (Definition.ofObject call object).object = some object := by
    unfold Definition.ofObject
    split <;> rfl
  unfold Definition.props? at h
  rw [hobject] at h
  simp only [Option.bind_eq_bind, Option.bind_some, Option.bind_eq_some_iff] at h
  obtain ⟨⟨i, m⟩, hfind, value, hvalue, hif⟩ := h
  obtain ⟨hget, hname⟩ := findMember?_mem hfind
  split at hif
  · cases hif
    exact ⟨m, List.mem_of_getElem? hget, hname,
      Tree.mem_nodes_of_child (Tree.value?_mem hvalue) value.stripParens_mem⟩
  · cases hif

theorem ofObject_insertAt_le {call object m : Tree} {lo hi : Nat} (hordered : Ordered lo hi object.children)
    (hm : m ∈ object.children) : (Definition.ofObject call object).insertAt ≤ m.span.start := by
  unfold Definition.ofObject
  cases hmembers : object.children with
  | nil => rw [hmembers] at hm; cases hm
  | cons first rest =>
    rw [hmembers] at hordered hm
    have hfirst : Ordered first.span.start hi (first :: rest) := ⟨Nat.le_refl _, hordered.2.1, hordered.2.2⟩
    exact (hfirst.bounds m hm).1

theorem props_apart {source : List Char} (hl : Layout source program) {call object props m : Tree}
    (ho : object ∈ program.nodes) (hprops : (Definition.ofObject call object).props? = some props)
    (hm : m ∈ object.children) (hname : m.staticName? ≠ some "props") : props.span.Apart m.span := by
  obtain ⟨other, hother, hcalled, hprops⟩ := props?_member hprops
  rcases (hl.parts ho).eq_or_apart other hother m hm with rfl | hapart
  · exact absurd hcalled hname
  · exact hapart.mono (hl.contains (Tree.nodes_trans ho (Tree.child_mem_nodes hother)) hprops)
      (Span.contains_self _)

def Edit.Spares (list : Tree) (e : Edit) : Prop :=
  e.span.Apart list.span ∨ list.takesFactory = false ∧ e ∈ prependFactory list

theorem factory_spares {render list : Tree} {factory : List Edit}
    (hlist : render.stripParens.parameterList? = some list)
    (h : injectFactory setting.isFactoryTaken site render = .ok factory) :
    ∀ e ∈ factory, e.Spares list := by
  intro e he
  rcases injectFactory_eq hlist h with ⟨-, rfl⟩ | ⟨htakes, -, rfl⟩
  · cases he
  · exact Or.inr ⟨htakes, he⟩

theorem literal_spares (hl : Layout setting.source program) {call object render list : Tree}
    (hmem : object ∈ program.nodes) (hobject : object.isObject = true)
    (hrender : (object.findMember? "render").bind (·.2.value?) = some render)
    (hlist : render.stripParens.parameterList? = some list) {factory : List Edit}
    (hfactory : ∀ e ∈ factory, e.Spares list)
    {functional : Bool} : ∀ e ∈ (finishDefinition setting site (.ofObject call object) functional
      (setting.alone.record (factory ++ Definition.unwrap call object))).draft.edits, e.Spares list := by
  intro e he
  obtain ⟨property, hproperty, hname, hvalue⟩ := memberValue_mem hrender
  have hmember : list ∈ property.nodes :=
    Tree.nodes_trans (Tree.child_mem_nodes (Tree.value?_mem hvalue))
      (Tree.nodes_trans render.stripParens_mem (Tree.child_mem_nodes (parameterList?_mem hlist).1))
  have hordered := (hl.object hmem (Tree.isObject_iff.mp hobject)).2.2
  have hcontains := hl.contains (Tree.nodes_trans hmem (Tree.child_mem_nodes hproperty)) hmember
  have hin := Span.contains_iff.mp hcontains
  have hbounds := hordered.bounds property hproperty
  rcases finishDefinition_cases he with houter | ⟨text, rfl⟩ | ⟨props, text, hprops, rfl⟩
  · rcases List.mem_append.mp houter with hmade | houter
    · exact hfactory e hmade
    · left
      rcases mem_unwrap.mp houter with rfl | rfl
      · exact Or.inl (by simp only [Edit.remove]; omega)
      · exact Or.inr (by simp only [Edit.remove]; omega)
  · left
    left
    exact Nat.le_trans (ofObject_insertAt_le hordered hproperty) hin.1
  · left
    exact (props_apart hl hmem hprops hproperty (by rw [hname]; decide)).mono (Span.contains_self _) hcontains

theorem function_spares (hl : Layout setting.source program) {call function list : Tree}
    (hmem : function ∈ program.nodes)
    (hlist : function.parameterList? = some list) {factory : List Edit} (hfactory : ∀ e ∈ factory, e.Spares list)
    {functional : Bool} : ∀ e ∈ (finishDefinition setting site ⟨call, none, function.span.start, true⟩ functional
      (setting.alone.record (factory ++ wrapRender call.span function.span))).draft.edits, e.Spares list := by
  intro e he
  have hinner := Span.contains_iff.mp (hl.contains hmem (Tree.child_mem_nodes (parameterList?_mem hlist).1))
  rcases finishDefinition_cases he with houter | ⟨text, rfl⟩ | ⟨props, text, hprops, -⟩
  · rcases List.mem_append.mp houter with hmade | houter
    · exact hfactory e hmade
    · left
      rcases mem_wrapRender.mp houter with rfl | rfl | rfl
      · exact Or.inl hinner.1
      · exact Or.inl hinner.1
      · exact Or.inr hinner.2
  · left
    left
    exact hinner.1
  · cases hprops

theorem functional_spares (hl : Layout setting.source program) (hin : site.In program)
    (hkind : site.kind = .functional)
    {es : List Edit} (h : setting.ownEdits site = .ok es) {function list : Tree}
    (hrender : site.render? = some function) (hlist : function.parameterList? = some list) :
    ∀ e ∈ es, e.span.Apart list.span ∨ list.takesFactory = false ∧ e ∈ prependFactory list := by
  obtain ⟨call, argument, factory, functional, hcall, hcase⟩ := definition_cases (Or.inr hkind) h
  obtain ⟨-, -, -, hargument⟩ := definitionCall_mem hin hcall
  unfold Site.render? at hrender
  simp only [hcall] at hrender
  rcases hcase with ⟨hobject, hmaker, rfl⟩ | ⟨hfunction, hmaker, rfl⟩
  · have hplain : argument.stripParens.parameterList?.isSome = false := by
      rw [Bool.eq_false_iff]
      intro hsome
      rw [isObject_of_parameterList hsome] at hobject
      cases hobject
    rw [hplain, if_neg Bool.false_ne_true] at hrender
    obtain ⟨render, hvalue, rfl⟩ := Option.map_eq_some_iff.mp hrender
    refine literal_spares hl hargument hobject hvalue hlist ?_
    rcases hmaker with rfl | ⟨render', hvalue', hinject⟩
    · simp
    · cases hvalue.symm.trans hvalue'
      exact factory_spares hlist hinject
  · rw [hfunction, if_pos rfl] at hrender
    cases hrender
    refine function_spares hl hargument hlist (factory_spares ?_ hmaker)
    rw [argument.stripParens_stripParens]
    exact hlist

end

end ComponentMacros
