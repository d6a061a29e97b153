import ComponentMacros.Proofs.RenderFunction
import ComponentMacros.Proofs.SiteOrder

/-!
# The names of components

A component is called like what it is declared or assigned to, or else like the
file that exports it by default. An expansion gives a definition this name once,
unless it has one already, and no other rule puts a name where it stands.
-/

namespace ComponentMacros

/-! ## What a definition is called -/

/-- What a declaration or an assignment binds: its target, if that is a plain name, and its value. -/
def Tree.binding? (t : Tree) : Option (Option String × Option Tree) :=
  match t with
  | .node (.declarator _) _ (target :: _) =>
    some (match target.kind with
      | .binding name => some name
      | _ => none, declaredValue? t)
  | .node (.assignment _) _ [target, value] =>
    some (match target.kind with
      | .identifier name => some name
      | _ => none, some value)
  | _ => none

/-- The nearest declaration or assignment around the site binds a plain name to the call. -/
def Site.BoundTo (site : Site) (call : Tree) (name : String) : Prop :=
  ∃ before binder after value, site.ancestors = before ++ binder :: after ∧ (∀ t ∈ before, t.binding? = none) ∧
    binder.binding? = some (some name, some value) ∧ call ∈ value.stripParens.nodes ∧
      value.stripParens.span = call.span

/-- The member has a key that is not computed: the name alone, as a word, or as a string. -/
inductive Tree.Keyed (name : String) : Tree → Prop where
  | alone {access : Access} {isMethod : Bool} {span place : Span} {parts : List Tree} :
    Keyed name (.node (.property access false true isMethod) span [.node (.identifier name) place parts])
  | word {access : Access} {isMethod : Bool} {span place : Span} {parts rest : List Tree} :
    Keyed name (.node (.property access false false isMethod) span (.node (.name name) place parts :: rest))
  | string {access : Access} {isMethod : Bool} {span place : Span} {parts rest : List Tree} :
    Keyed name (.node (.property access false false isMethod) span (.node (.string name) place parts :: rest))

/-- Nothing is to be named: nobody will look, or there is a name. -/
def Options.Silent (options : Options) (argument : Tree) : Prop :=
  options.production = true ∨ argument.isObject = true ∧ ∃ m ∈ argument.children, m.Keyed "name"

/-- The name that a definition is to be given. -/
inductive Naming (options : Options) (site : Site) (call argument : Tree) : Option String → Prop where
  | silent (h : options.Silent argument) : Naming options site call argument none
  | bound {name : String} (hsilent : ¬ options.Silent argument) (h : site.BoundTo call name) :
    Naming options site call argument (some name)
  | exported {stem : String} (hsilent : ¬ options.Silent argument) (hfree : ∀ name, ¬ site.BoundTo call name)
    (h : ∃ t ∈ site.ancestors, t.kind = .exportDefault) (hstem : options.fileStem? = some stem) :
    Naming options site call argument (some stem)
  | unnamed (hsilent : ¬ options.Silent argument) (hfree : ∀ name, ¬ site.BoundTo call name)
    (h : (∀ t ∈ site.ancestors, t.kind ≠ .exportDefault) ∨ options.fileStem? = none) :
    Naming options site call argument none

theorem nameGivenBy_eq (call : Span) (t : Tree) : nameGivenBy call t = t.binding?.map fun bound =>
    bound.2.bind fun value => if value.stripParens.span = call then bound.1 else none := by
  unfold nameGivenBy Tree.binding?
  split
  · rename_i target rest
    simp only [Option.map_some]
    split
    · rename_i name value hkind hvalue
      simp [hkind, hvalue]
    · rename_i hother
      cases hvalue : declaredValue? _ with
      | none => rfl
      | some value =>
        rw [Option.bind_some]
        split
        · split
          · rename_i name hkind
            exact (hother name value hkind hvalue).elim
          · rfl
        · rfl
  · simp only [Option.map_some, Option.bind_some]
    split <;> split <;> simp_all
  · simp_all

theorem Tree.staticName?_iff {m : Tree} {name : String} : m.staticName? = some name ↔ m.Keyed name := by
  constructor
  · intro h
    unfold staticName? at h
    split at h
    · cases h; exact .alone
    · cases h; exact .word
    · cases h; exact .string
    · cases h
  · rintro (_ | _ | _) <;> rfl

theorem Tree.hasMember_iff {object : Tree} {name : String} :
    object.hasMember name = true ↔ ∃ m ∈ object.children, m.Keyed name := by
  rw [hasMember, findMember?, Option.isSome_map, List.find?_isSome]
  simp only [decide_eq_true_eq, staticName?_iff]
  constructor
  · rintro ⟨⟨m, i⟩, hm, hkey⟩
    exact ⟨m, (List.mem_zipIdx' hm).2 ▸ List.getElem_mem _, hkey⟩
  · rintro ⟨m, hm, hkey⟩
    obtain ⟨i, hi, rfl⟩ := List.getElem_of_mem hm
    exact ⟨(object.children[i], i), List.mem_zipIdx_iff_getElem?.mpr (by simp [hi]), hkey⟩

def definitionOf (call argument : Tree) : Definition :=
  if argument.isObject then .ofObject call argument else ⟨call, none, argument.span.start, true⟩

theorem definitionOf_object {call argument : Tree} (h : argument.isObject = true) :
    definitionOf call argument = .ofObject call argument := if_pos h

theorem definitionOf_function {call argument : Tree} (h : argument.isObject = false) :
    definitionOf call argument = ⟨call, none, argument.span.start, true⟩ := by
  rw [definitionOf, h]
  rfl

theorem definitionOf_call (call argument : Tree) : (definitionOf call argument).call = call := by
  unfold definitionOf Definition.ofObject
  split
  · split <;> rfl
  · rfl

theorem silent_iff {options : Options} {call argument : Tree} :
    (options.production || (definitionOf call argument).hasMember "name") = true ↔ options.Silent argument := by
  have hobject : (definitionOf call argument).object = if argument.isObject then some argument else none := by
    unfold definitionOf Definition.ofObject
    split
    · split <;> rfl
    · rfl
  rw [Bool.or_eq_true, Options.Silent, Definition.hasMember, hobject]
  refine or_congr_right ?_
  split
  · rename_i h
    rw [Option.any_some, Tree.hasMember_iff, eq_true h, true_and]
  · rename_i h
    simp [h]

section
variable {source : List Char} {program : Tree} {options : Options} {site : Site} {call argument : Tree}

theorem call_mem_of_span (hl : Layout source program) (hclosed : Closed program) (hcall : call ∈ program.nodes)
    (hk : call.isCall = true) (hpos : call.span.start < call.span.stop) {value : Tree}
    (hvalue : value ∈ program.nodes) (hspan : value.span = call.span) : call ∈ value.nodes := by
  rcases hl.nested hvalue hcall (by unfold Span.Apart; rw [hspan]; omega) with hin | hin
  · rcases Tree.mem_nodes.mp hin with rfl | ⟨c, hc, hin⟩
    · exact Tree.mem_nodes_self _
    · have hend := hclosed.call hcall hk hc
      have hwithin := Span.contains_iff.mp (hl.contains (Tree.nodes_trans hcall (Tree.child_mem_nodes hc)) hin)
      rw [hspan] at hwithin
      omega
  · exact hin

theorem binding?_value {t value : Tree} {name : Option String} (h : t.binding? = some (name, some value)) :
    value ∈ t.children := by
  unfold Tree.binding? at h
  split at h
  · rw [Option.some.injEq, Prod.mk.injEq] at h
    exact List.mem_of_mem_tail (List.mem_of_find?_eq_some h.2)
  · cases h
    exact List.mem_cons_of_mem _ (List.mem_singleton_self _)
  · cases h

theorem boundTo_iff (hl : Layout source program) (hclosed : Closed program) (hs : site.In program)
    (hcall : call ∈ program.nodes) (hk : call.isCall = true) (hpos : call.span.start < call.span.stop)
    {name : String} :
    (site.ancestors.findSome? (nameGivenBy call.span)).join = some name ↔ site.BoundTo call name := by
  rw [Option.join_eq_some_iff, List.findSome?_eq_some_iff]
  simp only [nameGivenBy_eq, Option.map_eq_some_iff, Option.map_eq_none_iff, Option.bind_eq_some_iff,
    Option.ite_none_right_eq_some]
  constructor
  · rintro ⟨before, binder, after, hpath, ⟨⟨_, value?⟩, hbinds, value, rfl, hspan, rfl⟩, hnearest⟩
    refine ⟨before, binder, after, value, hpath, hnearest, hbinds, ?_, hspan⟩
    have hbinder := hs.ancestor_mem (t := binder) (by rw [hpath]; simp)
    refine call_mem_of_span hl hclosed hcall hk hpos ?_ hspan
    exact Tree.nodes_trans (Tree.nodes_trans hbinder (Tree.child_mem_nodes (binding?_value hbinds)))
      value.stripParens_mem
  · rintro ⟨before, binder, after, value, hpath, hnearest, hbinds, -, hspan⟩
    exact ⟨before, binder, after, hpath, ⟨_, hbinds, value, rfl, hspan, rfl⟩, hnearest⟩

def givenName? (options : Options) (site : Site) (definition : Definition) : Option String :=
  if options.production || definition.hasMember "name" then none else definitionName? options site definition

theorem naming_iff (hl : Layout source program) (hclosed : Closed program) (hs : site.In program)
    (hcall : call ∈ program.nodes) (hk : call.isCall = true) (hpos : call.span.start < call.span.stop)
    {name? : Option String} :
    Naming options site call argument name? ↔ givenName? options site (definitionOf call argument) = name? := by
  have hbound : ∀ {name : String},
      (site.ancestors.findSome? (nameGivenBy call.span)).join = some name ↔ site.BoundTo call name :=
    boundTo_iff hl hclosed hs hcall hk hpos
  have hexport : site.inDefaultExport = true ↔ ∃ t ∈ site.ancestors, t.kind = .exportDefault := by
    simp [Site.inDefaultExport]
  unfold givenName? definitionName?
  rw [definitionOf_call]
  by_cases hsilent : options.Silent argument
  · rw [if_pos (silent_iff.mpr hsilent)]
    constructor
    · rintro (_ | ⟨hsay, _⟩ | ⟨hsay, _⟩ | ⟨hsay, _⟩)
      · rfl
      all_goals exact absurd hsilent hsay
    · rintro rfl
      exact .silent hsilent
  rw [if_neg (mt silent_iff.mp hsilent)]
  cases hfound : (site.ancestors.findSome? (nameGivenBy call.span)).join with
  | some name =>
    have hto := hbound.mp hfound
    constructor
    · rintro (hsay | ⟨-, hother⟩ | ⟨-, hfree, _⟩ | ⟨-, hfree, _⟩)
      · exact absurd hsay hsilent
      · rw [← hfound, hbound.mpr hother]
        rfl
      all_goals exact absurd hto (hfree name)
    · rintro rfl
      exact .bound hsilent hto
  | none =>
    have hfree : ∀ name, ¬ site.BoundTo call name := by
      intro name hto
      rw [hbound.mpr hto] at hfound
      cases hfound
    rw [Option.none_or]
    constructor
    · rintro (hsay | ⟨-, hto⟩ | ⟨-, -, hdefault, hstem⟩ | ⟨-, -, hnone⟩)
      · exact absurd hsay hsilent
      · exact absurd hto (hfree _)
      · rw [if_pos (hexport.mpr hdefault), hstem]
      · rcases hnone with hnone | hnone
        · rw [if_neg fun h => ?_]
          obtain ⟨t, ht, hkind⟩ := hexport.mp h
          exact hnone t ht hkind
        · rw [hnone, ite_self]
    · rintro rfl
      split
      · rename_i hdefault
        cases hstem : options.fileStem? with
        | some stem => exact .exported hsilent hfree (hexport.mp hdefault) hstem
        | none => exact .unnamed hsilent hfree (Or.inr hstem)
      · rename_i hdefault
        exact .unnamed hsilent hfree (Or.inl fun t ht hkind => hdefault (hexport.mpr ⟨t, ht, hkind⟩))

end

/-! ## What a definition is given -/

def nameText (options : Options) (definition : Definition) (name : String) : String :=
  "name: " ++ options.quote name ++ if definition.hasMembers then ", " else ""

def markText (definition : Definition) (name? : Option String) : String :=
  "functional: true" ++ if definition.hasMembers || name?.isSome then ", " else ""

/-- What is put before the members of a definition, in the order it is recorded. -/
def gifts (options : Options) (definition : Definition) (functional : Bool) (name? : Option String) : List Edit :=
  (name?.toList.map fun name => .prepend definition.insertAt (nameText options definition name)) ++
    if functional then [.prepend definition.insertAt (markText definition name?)] else []

def isGift (text : String) : Bool :=
  "name: ".toList.isPrefixOf text.toList || "functional: ".toList.isPrefixOf text.toList

def Edit.gives (pos : Nat) (e : Edit) : Bool :=
  e.span.start = pos && e.content.any fun
    | .text text => isGift text
    | .source _ => false

def Edit.Quiet (e : Edit) : Prop := ∃ text, isGift text = false ∧ e.content = .ofText text

theorem gives_ofText {e : Edit} {text : String} (h : e.content = .ofText text) (pos : Nat) :
    e.gives pos = (decide (e.span.start = pos) && isGift text) := by
  unfold Edit.gives
  rw [h, Fragment.ofText]
  split
  · rename_i hempty
    have hnone : isGift text = false := by
      rw [String.isEmpty_iff.mp hempty]
      decide
    simp [hnone]
  · simp

theorem Edit.gives_prepend (p pos : Nat) (text : String) :
    (Edit.prepend p text).gives pos = (decide (p = pos) && isGift text) := gives_ofText rfl pos

theorem Edit.Quiet.gives {e : Edit} (h : e.Quiet) (pos : Nat) : e.gives pos = false := by
  obtain ⟨text, htext, hcontent⟩ := h
  rw [gives_ofText hcontent, htext, Bool.and_false]

theorem Edit.Quiet.refers {e : Edit} (h : e.Quiet) {range : Span} : .source range ∉ e.content := by
  obtain ⟨text, -, hcontent⟩ := h
  rw [hcontent]
  exact Fragment.source_not_mem_ofText

theorem isGift_nameText (options : Options) (definition : Definition) (name : String) :
    isGift (nameText options definition name) = true := by
  rw [isGift, nameText, String.append_assoc, String.toList_append, Bool.or_eq_true, List.isPrefixOf_iff_prefix]
  exact Or.inl (List.prefix_append ..)

theorem giveName_eq (options : Options) (site : Site) (definition : Definition) :
    giveName options site definition = ((givenName? options site definition).toList.map fun name =>
      .prepend definition.insertAt (nameText options definition name),
      { definition with hasMembers := definition.hasMembers || (givenName? options site definition).isSome }) := by
  unfold giveName givenName?
  split
  · simp
  · cases definitionName? options site definition with
    | none => simp
    | some name =>
      simp only [Definition.unshift, nameText, Option.toList_some, List.map_cons, List.map_nil, Option.isSome_some,
        Bool.or_true]
      split <;> simp [toString]

theorem finishDefinition_alone (setting : Setting) (site : Site) (definition : Definition) (functional : Bool)
    (outer : List Edit) :
    (finishDefinition setting site definition functional (setting.alone.record outer)).draft.edits =
      (outer ++ ((giveName setting.options site definition).1 ++
        (if functional then [((giveName setting.options site definition).2.unshift "functional" "true").1] else
          []) ++
        (expandProps setting.options setting.source .empty definition).1)).filter fun e => !e.selects e := by
  have hobject : (giveName setting.options site definition).2.object = definition.object := giveName_object ..
  have hprops := expandProps_congr setting.options setting.source .empty hobject
  simp only [finishDefinition, Progress.record, Setting.alone, recordAll_append]
  rw [hprops, recordAll_eq]
  simp only [List.nil_append, List.append_assoc]

theorem isGift_markText (definition : Definition) (name? : Option String) :
    isGift (markText definition name?) = true := by
  unfold markText
  split <;> decide

theorem markText_some (definition : Definition) (name : String) :
    markText definition (some name) = "functional: true, " := by
  unfold markText
  rw [Option.isSome_some, Bool.or_true, if_pos rfl]
  rfl

theorem gifts_prepend {options : Options} {definition : Definition} {functional : Bool}
    {name? : Option String} {e : Edit} (h : e ∈ gifts options definition functional name?) :
    ∃ text, isGift text = true ∧ e = .prepend definition.insertAt text := by
  rcases List.mem_append.mp h with h | h
  · obtain ⟨name, -, rfl⟩ := List.mem_map.mp h
    exact ⟨_, isGift_nameText .., rfl⟩
  · split at h
    · exact ⟨_, isGift_markText .., List.mem_singleton.mp h⟩
    · cases h

theorem gifts_gives {options : Options} {definition : Definition} {functional : Bool}
    {name? : Option String} {e : Edit} (h : e ∈ gifts options definition functional name?) (pos : Nat) :
    e.selects e = false ∧ e.gives pos = decide (definition.insertAt = pos) := by
  obtain ⟨text, htext, rfl⟩ := gifts_prepend h
  rw [Edit.gives_prepend, htext, Bool.and_true]
  exact ⟨Edit.prepend_selects .., rfl⟩

section
variable {setting : Setting} {site : Site} {pos : Nat}

theorem injectFactory_quiet {isTaken : Span → Bool} {render : Tree} {factory : List Edit}
    (h : injectFactory isTaken site render = .ok factory) : ∀ e ∈ factory, e.Quiet := by
  intro e he
  unfold injectFactory at h
  simp only at h
  split at h
  · cases h
    cases he
  · split at h
    · cases h
      cases he
    · split at h
      · cases h
      · cases h
        unfold prependFactory at he
        split at he
        · rw [List.mem_singleton.mp he]
          exact ⟨", h", by decide, rfl⟩
        · split at he
          · simp only [List.mem_cons, List.not_mem_nil, or_false] at he
            rcases he with rfl | rfl
            · exact ⟨"(h, ", by decide, rfl⟩
            · exact ⟨")", by decide, rfl⟩
          · rw [List.mem_singleton.mp he]
            exact ⟨"h, ", by decide, rfl⟩
        · rw [List.mem_singleton.mp he]
          exact ⟨"h, ", by decide, rfl⟩
        · rw [List.mem_singleton.mp he]
          exact ⟨factoryName, by decide, rfl⟩

theorem isGift_list (text : String) : isGift ("[" ++ text ++ "]") = false := by
  rw [isGift, String.append_assoc, String.toList_append]
  rfl

theorem expandProps_quiet {definition : Definition} :
    ∀ e ∈ (expandProps setting.options setting.source .empty definition).1, e.Quiet := by
  intro e he
  unfold expandProps at he
  split at he
  · cases he
  · split at he
    · cases he
    · rw [List.mem_singleton.mp he]
      exact ⟨_, isGift_list _, rfl⟩

theorem isGift_runtimeType (t : Tree) : isGift (runtimeType t) = false := by
  induction t using Tree.induction with
  | step t ih =>
    unfold runtimeType
    split
    case h_11 inner => exact ih inner (List.mem_singleton_self _)
    case h_12 members => exact isGift_list _
    all_goals decide

theorem annotate_quiet : ∀ e ∈ annotate site, e.Quiet := by
  intro e he
  unfold annotate at he
  split at he
  · cases he
  · rw [List.mem_singleton.mp he]
    refine ⟨_, ?_, rfl⟩
    cases site.typeArguments?.bind (·.children.head?) with
    | none => decide
    | some type => exact isGift_runtimeType type

theorem removeMember_quiet {source : List Char} {members : List Tree} {i : Nat} :
    ∀ e ∈ removeMember source members i, e.Quiet := by
  intro e he
  obtain ⟨r, -, rfl⟩ := removeMember_mem he
  exact ⟨"", by decide, rfl⟩

theorem stripInjectionTypes_quiet {source : List Char} {injections : Tree} :
    ∀ e ∈ stripInjectionTypes source injections, e.Quiet := by
  intro e he
  obtain ⟨injection, -, he⟩ := List.mem_flatMap.mp he
  split at he
  · cases he
  · simp only at he
    split at he
    · split at he
      · exact removeMember_quiet e he
      · cases he
    · cases he

theorem giveName_gifts (definition : Definition) (functional : Bool) :
    (giveName setting.options site definition).1 ++
        (if functional then [((giveName setting.options site definition).2.unshift "functional" "true").1] else []) =
      gifts setting.options definition functional (givenName? setting.options site definition) := by
  rw [giveName_eq, gifts]
  congr 1
  split
  · unfold Definition.unshift markText
    simp only
    split <;> rfl
  · rfl

theorem finishDefinition_gifts {definition : Definition} {functional : Bool} {outer : List Edit}
    (houter : ∀ e ∈ outer, e.Quiet) :
    ∃ front props, (∀ e ∈ front ++ props, e.Quiet) ∧
      (finishDefinition setting site definition functional (setting.alone.record outer)).draft.edits =
        front ++ gifts setting.options definition functional (givenName? setting.options site definition) ++
          props := by
  refine ⟨outer.filter fun e => !e.selects e,
    (expandProps setting.options setting.source .empty definition).1.filter fun e => !e.selects e, ?_, ?_⟩
  · intro e he
    rcases List.mem_append.mp he with he | he
    · exact houter e (List.mem_filter.mp he).1
    · exact expandProps_quiet e (List.mem_filter.mp he).1
  · rw [finishDefinition_alone, giveName_gifts, List.filter_append, List.filter_append, ← List.append_assoc]
    congr 2
    exact List.filter_eq_self.mpr fun e he => by simp [(gifts_gives he 0).1]

theorem definition_gifts (hkind : site.kind = .component ∨ site.kind = .functional) {es : List Edit}
    (h : setting.ownEdits site = .ok es) :
      ∃ call argument outer props, definitionCall site = .ok (call, argument) ∧
      argument.stripParens.isCall = false ∧ (∀ e ∈ outer ++ props, e.Quiet) ∧
      es = outer ++ gifts setting.options (definitionOf call argument.stripParens) (site.kind = .functional)
        (givenName? setting.options site (definitionOf call argument.stripParens)) ++ props := by
  obtain ⟨call, argument, factory, hcall, ⟨hobj, hfactory, hes⟩ | ⟨hlist, hfactory, hes⟩⟩ :=
    definition_spec hkind h
  · have houter : ∀ e ∈ factory ++ Definition.unwrap call argument.stripParens, e.Quiet := by
      intro e he
      rcases List.mem_append.mp he with he | he
      · rcases hfactory with rfl | ⟨render, -, hfactory⟩
        · cases he
        · exact injectFactory_quiet hfactory e he
      · rcases mem_unwrap.mp he with rfl | rfl <;> exact ⟨"", by decide, rfl⟩
    obtain ⟨outer, props, hquiet, hgifts⟩ := finishDefinition_gifts houter
    refine ⟨call, argument, outer, props, hcall, ?_, hquiet, ?_⟩
    · rw [Tree.isCall, Tree.isObject_iff.mp hobj]
    · rw [definitionOf_object hobj]
      exact hes.trans hgifts
  · have houter : ∀ e ∈ factory ++ wrapRender call.span argument.stripParens.span, e.Quiet := by
      intro e he
      rcases List.mem_append.mp he with he | he
      · exact injectFactory_quiet hfactory e he
      · rcases mem_wrapRender.mp he with rfl | rfl | rfl
        · exact ⟨"\x7b ", by decide, rfl⟩
        · exact ⟨"render: ", by decide, rfl⟩
        · exact ⟨" \x7d", by decide, rfl⟩
    obtain ⟨outer, props, hquiet, hgifts⟩ := finishDefinition_gifts houter
    refine ⟨call, argument, outer, props, hcall, ?_, hquiet, ?_⟩
    · by_contra hcalls
      obtain ⟨optional, hk⟩ := Tree.isCall_iff.mp (Bool.eq_true_of_not_eq_false hcalls)
      rw [Tree.parameterList?, hk] at hlist
      cases hlist
    · rw [definitionOf_function (isObject_of_parameterList hlist)]
      exact hes.trans hgifts

theorem mixinOf_gives {before after : String} (hbefore : isGift (before ++ "\x7b inject: ") = false)
    (hafter : isGift (" \x7d" ++ after) = false) {placement : Placement} {place span : Span} :
    Edit.gives pos ⟨placement, place, mixinOf span before after⟩ = false := by
  simp [Edit.gives, mixinOf, hbefore, hafter]

theorem addMixin_gives {mixins : Tree} {span : Span} : ∀ e ∈ addMixin mixins span, e.gives pos = false := by
  intro e he
  unfold addMixin at he
  simp only at he
  split at he
  · split at he <;>
    · rw [List.mem_singleton.mp he]
      exact mixinOf_gives (by decide) (by decide)
  · simp only [List.mem_cons, List.not_mem_nil, or_false] at he
    rcases he with rfl | rfl
    · exact Edit.Quiet.gives ⟨"[...", by decide, rfl⟩ pos
    · exact mixinOf_gives (by decide) (by decide)

theorem key_gives {source : List Char} {own : List Edit}
    (h : stripKey source site = .ok own ∨ expandInjections source site = .ok own) :
      ∀ e ∈ own, e.gives pos = false := by
  intro e he
  rcases h with h | h
  · obtain ⟨member, -, h⟩ := bind_eq_ok h
    cases h
    exact (removeMember_quiet e he).gives pos
  · obtain ⟨member, value, -, -, -, -, rfl⟩ := expandInjections_ok h
    rcases List.mem_append.mp he with he | he
    · exact (stripInjectionTypes_quiet e he).gives pos
    · unfold moveInjections at he
      split at he
      · rw [List.mem_singleton.mp he]
        exact Edit.Quiet.gives ⟨"inject: ", by decide, rfl⟩ pos
      · split at he
        · rw [List.mem_singleton.mp he]
          exact mixinOf_gives (by decide) (by decide)
        · rcases List.mem_append.mp he with he | he
          · exact (removeMember_quiet e he).gives pos
          · exact addMixin_gives e he

theorem entry_gives {es : List Edit} (hplay : setting.play setting.hands = .ok es) {entry : Entry}
    (hentry : entry ∈ setting.ledger) {e : Edit} (he : e ∈ entry.edits) (hgives : e.gives pos = true) :
    (entry.site.kind = .component ∨ entry.site.kind = .functional) ∧ ∃ call argument,
      definitionCall entry.site = .ok (call, argument) ∧ argument.stripParens.isCall = false ∧
        (definitionOf call argument.stripParens).insertAt = pos := by
  have quiet : e.gives pos = false → False := by simp [hgives]
  rcases mem_ledger hplay hentry with ⟨-, hown, -⟩ | ⟨htaken, -⟩
  · rcases ownEdits_cases hown with hkind | ⟨own, hkey, hsub⟩ | ⟨call, -, htype⟩
    · obtain ⟨call, argument, outer, props, hcall, hother, hquiet, hes⟩ := definition_gifts hkind hown
      refine ⟨hkind, call, argument, hcall, hother, ?_⟩
      rw [hes] at he
      rcases List.mem_append.mp he with he | he
      · rcases List.mem_append.mp he with he | he
        · exact (quiet ((hquiet e (List.mem_append_left _ he)).gives pos)).elim
        · rw [(gifts_gives he pos).2] at hgives
          exact of_decide_eq_true hgives
      · exact (quiet ((hquiet e (List.mem_append_right _ he)).gives pos)).elim
    · exact (quiet (key_gives hkey e ((hsub e).mp he).1)).elim
    · rw [htype] at he
      rw [List.mem_singleton.mp he] at quiet
      exact (quiet (Edit.Quiet.gives ⟨erasedText, by decide, rfl⟩ pos)).elim
  · rw [htaken] at he
    unfold Setting.takenEdits at he
    split at he
    · cases he
    · exact (quiet ((annotate_quiet e he).gives pos)).elim

end

end ComponentMacros
