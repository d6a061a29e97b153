import ComponentMacros.Proofs.FunctionScope
import ComponentMacros.Proofs.RenderFunction

/-!
# Nothing is captured

The element factory becomes a parameter of a render function only if nothing
that is called like it is bound in the function or around it. What is bound where
is said here by the rules of the language: declarations bind in their block,
`var` in the function around, and functions and classes bind their names in
themselves. The scopes of the walk may bind more, and no less.
-/

namespace ComponentMacros

/-! ## What the language binds -/

def Kind.isPattern : Kind → Bool
  | .objectPattern | .arrayPattern | .bindingProperty _ _ | .defaultPattern | .restElement => true
  | _ => false

mutual

def Tree.targets : Tree → List String
  | .node (.binding name) _ _ => [name]
  | .node kind _ parts => if kind.isPattern then targetsOf parts else []

def targetsOf : List Tree → List String
  | [] => []
  | t :: ts => t.targets ++ targetsOf ts

end

/-- The names that a node declares in the block around it: an import, a parameter, a variable that is no
`var`, a function or a class. -/
def Tree.declaration (t : Tree) : List String :=
  match t.kind with
  | .declarator keyword => if keyword = "var" then [] else targetsOf t.children
  | .importSpecifier _ _ | .importDefault | .importNamespace
  | .parameter | .restParameter | .catchParameter => targetsOf t.children
  | .function .declaration _ _ | .classNode true => t.boundName?.toList
  | _ => []

mutual

/-- The names that are declared in the block a node is part of. -/
def Tree.blockNames : Tree → List String
  | .node kind span parts =>
    (Tree.node kind span parts).declaration ++ (if kind.scope?.isSome then [] else blockNamesOf parts)

def blockNamesOf : List Tree → List String
  | [] => []
  | t :: ts => t.blockNames ++ blockNamesOf ts

end

def Kind.keepsVars : Kind → Bool
  | .program | .function _ _ _ | .arrow _ | .staticBlock | .moduleBody => true
  | _ => false

mutual

/-- The names that `var` declarations put into the function a node is part of. -/
def Tree.hoistedNames : Tree → List String
  | .node kind _ parts =>
    (if kind = .declarator "var" then targetsOf parts else []) ++
      (if kind.keepsVars then [] else hoistedNamesOf parts)

def hoistedNamesOf : List Tree → List String
  | [] => []
  | t :: ts => t.hoistedNames ++ hoistedNamesOf ts

end

def Kind.bindsItself : Kind → Bool
  | .function .expression _ _ | .classNode _ => true
  | _ => false

def Tree.binds (name : String) (t : Tree) : Bool :=
  t.kind.scope?.isSome && (blockNamesOf t.children).contains name ||
  t.kind.keepsVars && (hoistedNamesOf t.children).contains name ||
  t.kind.bindsItself && t.boundName? = some name

/-! ## The scopes of the walk bind them -/

mutual

theorem targets_scoped {name : String} :
    ∀ t : Tree, name ∈ t.targets → name ∈ t.scopedNames ∧ name ∈ t.patternNames
  | .node kind span parts, h => by
    unfold Tree.targets at h
    split at h
    · rename_i heq
      cases heq
      rw [List.mem_singleton.mp h]
      simp [Tree.scopedNames, Tree.patternNames, Tree.ownNames, Tree.ownPattern, Tree.kind]
    · rename_i heq
      cases heq
      split at h
      · rename_i hpattern
        obtain ⟨hscoped, hin⟩ := targetsOf_scoped parts h
        have hscope : kind.scope? = none := by cases kind <;> first | rfl | cases hpattern
        have hends : kind.endsDeclaration = false := by cases kind <;> first | rfl | cases hpattern
        simp [Tree.scopedNames, Tree.patternNames, hscope, hends, hscoped, hin]
      · cases h

theorem targetsOf_scoped {name : String} : ∀ ts : List Tree, name ∈ targetsOf ts →
    name ∈ scopedNamesOf ts ∧ name ∈ patternNamesOf ts
  | [], h => by rw [targetsOf] at h; cases h
  | t :: ts, h => by
    rw [targetsOf, List.mem_append] at h
    rw [scopedNamesOf, patternNamesOf, List.mem_append, List.mem_append]
    rcases h with h | h
    · exact (targets_scoped t h).imp Or.inl Or.inl
    · exact (targetsOf_scoped ts h).imp Or.inr Or.inr

end

theorem mem_scopedNamesOf {name : String} {ts : List Tree} :
    name ∈ scopedNamesOf ts ↔ ∃ t ∈ ts, name ∈ t.scopedNames := by
  induction ts with
  | nil => simp [scopedNamesOf]
  | cons t ts ih => simp [scopedNamesOf, ih]

theorem mem_varNamesOf {name : String} {ts : List Tree} : name ∈ varNamesOf ts ↔ ∃ t ∈ ts, name ∈ t.varNames := by
  induction ts with
  | nil => simp [varNamesOf]
  | cons t ts ih => simp [varNamesOf, ih]

theorem scopedNames_of_parts {name : String} {t : Tree} (hscope : t.kind.scope? = none)
    (h : name ∈ scopedNamesOf t.children) : name ∈ t.scopedNames := by
  obtain ⟨kind, span, parts⟩ := t
  simp only [Tree.kind] at hscope
  rw [Tree.scopedNames, hscope]
  exact List.mem_append_right _ h

theorem varNames_of_parts {name : String} {t : Tree} (hscope : t.kind.scope? ≠ some true)
    (h : name ∈ varNamesOf t.children) : name ∈ t.varNames := by
  obtain ⟨kind, span, parts⟩ := t
  simp only [Tree.kind] at hscope
  rw [Tree.varNames, if_neg hscope]
  exact List.mem_append_right _ h

theorem boundName?_scoped {name : String} {t : Tree} (h : t.boundName? = some name) :
    name ∈ scopedNamesOf t.children := by
  obtain ⟨⟨kind, span, parts⟩, hpart, hname⟩ := List.exists_of_findSome?_eq_some h
  refine mem_scopedNamesOf.mpr ⟨_, hpart, ?_⟩
  split at hname
  · rename_i own hkind
    cases hname
    cases hkind
    simp [Tree.scopedNames, Tree.ownNames, Tree.kind]
  · cases hname

theorem declaration_scoped {name : String} {t : Tree} (h : name ∈ t.declaration) : name ∈ t.scopedNames := by
  unfold Tree.declaration at h
  split at h
  · rename_i keyword hkind
    split at h
    · cases h
    · exact scopedNames_of_parts (by rw [hkind]; rfl) (targetsOf_scoped _ h).1
  iterate 6
    · rename_i hkind
      exact scopedNames_of_parts (by rw [hkind]; rfl) (targetsOf_scoped _ h).1
  · rename_i hkind
    obtain ⟨kind, span, parts⟩ := t
    cases hkind
    rw [Tree.scopedNames]
    exact List.mem_append_left _ h
  · rename_i hkind
    exact scopedNames_of_parts (by rw [hkind]; rfl) (boundName?_scoped (Option.mem_toList.mp h))
  · cases h

mutual

theorem blockNames_scoped {name : String} : ∀ t : Tree, name ∈ t.blockNames → name ∈ t.scopedNames
  | .node kind span parts, h => by
    rw [Tree.blockNames, List.mem_append] at h
    rcases h with h | h
    · exact declaration_scoped h
    · split at h
      · cases h
      · rename_i hscope
        exact scopedNames_of_parts (Option.not_isSome_iff_eq_none.mp hscope) (blockNamesOf_scoped parts h)

theorem blockNamesOf_scoped {name : String} : ∀ ts : List Tree, name ∈ blockNamesOf ts → name ∈ scopedNamesOf ts
  | [], h => by rw [blockNamesOf] at h; cases h
  | t :: ts, h => by
    rw [blockNamesOf, List.mem_append] at h
    rw [scopedNamesOf, List.mem_append]
    exact h.imp (blockNames_scoped t) (blockNamesOf_scoped ts)

end

mutual

theorem hoistedNames_vars {name : String} : ∀ t : Tree, name ∈ t.hoistedNames → name ∈ t.varNames
  | .node kind span parts, h => by
    rw [Tree.hoistedNames, List.mem_append] at h
    rcases h with h | h
    · rw [Tree.varNames, List.mem_append]
      split at h
      · rename_i hkind
        rw [if_pos hkind]
        exact Or.inl (targetsOf_scoped _ h).2
      · cases h
    · split at h
      · cases h
      · rename_i hkeeps
        have hscope : kind.scope? ≠ some true := by
          intro hscope
          cases kind <;> first | exact hkeeps rfl | cases hscope
        exact varNames_of_parts hscope (hoistedNamesOf_vars parts h)

theorem hoistedNamesOf_vars {name : String} : ∀ ts : List Tree, name ∈ hoistedNamesOf ts → name ∈ varNamesOf ts
  | [], h => by rw [hoistedNamesOf] at h; cases h
  | t :: ts, h => by
    rw [hoistedNamesOf, List.mem_append] at h
    rw [varNamesOf, List.mem_append]
    exact h.imp (hoistedNames_vars t) (hoistedNamesOf_vars ts)

end

theorem declares_iff {name : String} {t : Tree} :
    t.declares name = true ↔ ∃ hoisting, t.kind.scope? = some hoisting ∧
    (name ∈ scopedNamesOf t.children ∨ hoisting = true ∧ name ∈ varNamesOf t.children) := by
  unfold Tree.declares
  cases t.kind.scope? <;> simp

section
variable {program : Tree} {name : String}

theorem PathTo.scopedNames_declared (hroot : program.kind = .program) {path : List Tree}
    (h : PathTo program path) :
    ∀ {t : Tree} {around : List Tree}, path = t :: around → name ∈ t.scopedNames →
      ∃ v ∈ around, v.declares name = true := by
  induction h with
  | root =>
    intro t around hpath hname
    cases hpath
    obtain ⟨kind, span, parts⟩ := program
    cases hroot
    rw [Tree.scopedNames] at hname
    cases hname
  | @part c u rest hc _ ih =>
    intro t around hpath hname
    cases hpath
    have hparts := mem_scopedNamesOf.mpr ⟨c, hc, hname⟩
    cases hscope : u.kind.scope? with
    | some hoisting => exact ⟨u, List.mem_cons_self .., declares_iff.mpr ⟨hoisting, hscope, Or.inl hparts⟩⟩
    | none =>
      obtain ⟨v, hv, hdeclares⟩ := ih rfl (scopedNames_of_parts hscope hparts)
      exact ⟨v, List.mem_cons_of_mem _ hv, hdeclares⟩

/-- What `var` declarations in a node put into the function around it, some node around it declares. -/
theorem PathTo.varNames_declared (hroot : program.kind = .program) {path : List Tree} (h : PathTo program path) :
    ∀ {t : Tree} {around : List Tree}, path = t :: around → name ∈ t.varNames →
      ∃ v ∈ around, v.declares name = true := by
  induction h with
  | root =>
    intro t around hpath hname
    cases hpath
    obtain ⟨kind, span, parts⟩ := program
    cases hroot
    rw [Tree.varNames] at hname
    cases hname
  | @part c u rest hc _ ih =>
    intro t around hpath hname
    cases hpath
    have hparts := mem_varNamesOf.mpr ⟨c, hc, hname⟩
    by_cases hscope : u.kind.scope? = some true
    · exact ⟨u, List.mem_cons_self .., declares_iff.mpr ⟨true, hscope, Or.inr ⟨rfl, hparts⟩⟩⟩
    · obtain ⟨v, hv, hdeclares⟩ := ih rfl (varNames_of_parts hscope hparts)
      exact ⟨v, List.mem_cons_of_mem _ hv, hdeclares⟩

theorem binds_iff {t : Tree} : t.binds name = true ↔
    (∃ hoisting, t.kind.scope? = some hoisting ∧ name ∈ blockNamesOf t.children) ∨
    (t.kind.keepsVars = true ∧ name ∈ hoistedNamesOf t.children) ∨
    t.kind.bindsItself = true ∧ t.boundName? = some name := by
  simp [Tree.binds, or_assoc, Option.isSome_iff_exists]

theorem binds_function {t : Tree} (hfunction : t.isFunction = true) (h : t.binds name = true) :
    t.declares name = true := by
  have hscope := isFunction_scope? hfunction
  refine declares_iff.mpr ⟨true, hscope, ?_⟩
  rcases binds_iff.mp h with ⟨-, -, h⟩ | ⟨-, h⟩ | ⟨-, h⟩
  · exact Or.inl (blockNamesOf_scoped _ h)
  · exact Or.inr ⟨rfl, hoistedNamesOf_vars _ h⟩
  · exact Or.inl (boundName?_scoped h)

theorem PathTo.binds_declared (hroot : program.kind = .program) {t : Tree} {around : List Tree}
    (h : PathTo program (t :: around)) (hbinds : t.binds name = true) :
      ∃ v ∈ t :: around, v.declares name = true := by
  rcases binds_iff.mp hbinds with ⟨hoisting, hscope, hname⟩ | ⟨-, hname⟩ | ⟨-, hname⟩
  · exact ⟨t, List.mem_cons_self .., declares_iff.mpr ⟨hoisting, hscope, Or.inl (blockNamesOf_scoped _ hname)⟩⟩
  · -- a static block and a namespace leave their variables to the function around them
    have hvars := hoistedNamesOf_vars _ hname
    by_cases hscope : t.kind.scope? = some true
    · exact ⟨t, List.mem_cons_self .., declares_iff.mpr ⟨true, hscope, Or.inr ⟨rfl, hvars⟩⟩⟩
    · obtain ⟨v, hv, hdeclares⟩ := h.varNames_declared hroot rfl (varNames_of_parts hscope hvars)
      exact ⟨v, List.mem_cons_of_mem _ hv, hdeclares⟩
  · -- a class leaves its name to the scope around it
    have hscoped := boundName?_scoped hname
    cases hscope : t.kind.scope? with
    | some hoisting => exact ⟨t, List.mem_cons_self .., declares_iff.mpr ⟨hoisting, hscope, Or.inl hscoped⟩⟩
    | none =>
      obtain ⟨v, hv, hdeclares⟩ := h.scopedNames_declared hroot rfl (scopedNames_of_parts hscope hscoped)
      exact ⟨v, List.mem_cons_of_mem _ hv, hdeclares⟩

end

/-! ## The factory -/

def binder? (name : String) (around : List Tree) : Option Tree :=
  around.find? (·.binds name)

theorem binder?_eq_none {options : Options} {program : Tree} {collected : Collected}
    (hroot : program.kind = .program)
    (hapart : FunctionsApart program) (hcollect : collect? options program = some collected) {source : List Char}
    {function : Tree} {around : List Tree} (hpath : PathTo program (function :: around))
    (hfunction : function.isFunction = true)
    (hfree : Setting.isFactoryTaken ⟨options, source, collected⟩ function.span = false) :
    binder? factoryName (function :: around) = none := by
  rw [binder?, List.find?_eq_none]
  intro scope hscope hbinds
  obtain ⟨before, after, hsplit⟩ := List.append_of_mem hscope
  have hscopePath : PathTo program (before ++ scope :: after) := hsplit ▸ hpath
  obtain ⟨v, hv, hdeclares⟩ := hscopePath.drop.binds_declared hroot hbinds
  rw [(isFactoryTaken_iff hroot hapart hcollect hpath hfunction).mpr
    ⟨v, hsplit ▸ List.mem_append_right _ hv, hdeclares⟩] at hfree
  cases hfree

/-- The factory is made a parameter only of functions where its name is free: neither the function nor a
scope around it binds the name, so a name in the function that the parameter now binds was bound by nothing.
The check behind it finds the scope of every function, in which parameters and hoisted variables are bound. -/
theorem factory_captures_nothing {options : Options} {text : String} {program : Tree} {r : Transformed}
    (hparse : parse options.dialect text.toList = some program) (hapart : FunctionsApart program)
    (h : transform options text = .ok r) :
    (options.isInert text = true → r.code = text) ∧
    (options.isInert text = false → ∃ collected draft, collect? options program = some collected ∧
      expansion ⟨options, text.toList, collected⟩ = .ok draft ∧ draft.render = .ok r.code ∧
      (∀ site ∈ collected.usages.pending, site.kind = .functional → ∀ function list, site.render? = some function →
        function.parameterList? = some list → list.takesFactory = false →
          (∀ e ∈ prependFactory list, e ∈ draft.edits) ∧ (∃ around, PathTo program (function :: around)) ∧
          ∀ around, PathTo program (function :: around) → binder? factoryName (function :: around) = none ∧
            ∀ reference inner, PathTo program (reference :: inner ++ function :: around) →
              reference.kind = .identifier factoryName → binder? factoryName inner = none →
                binder? factoryName (inner ++ function :: around) = none) ∧
      ∀ function ∈ program.nodes, function.isFunction = true →
        ∃ id, collected.functionScope? function.span = some id ∧ collected.scopes.isHoisting id = true ∧
          ∀ name, function.binds name = true → collected.scopes.hasOwnBinding id name = true) := by
  have hroot := parse_kind hparse
  refine ⟨fun hinert => ?_, fun hactive => ?_⟩
  · rw [transform_of_isInert hinert] at h
    cases h
    rfl
  obtain ⟨collected, draft, hcollect, hdraft, hcode⟩ := transform_active hparse h hactive
  refine ⟨collected, draft, hcollect, hdraft, hcode, ?_, ?_⟩
  · intro site hs hkind function list hrender hlist htakes
    rcases expansion_factory hdraft hs hkind hrender hlist with hcontra | ⟨-, hfree, hedits⟩
    · rw [htakes] at hcontra
      cases hcontra
    refine ⟨hedits, PathTo.of_mem (Site.render?_mem (collect?_sites hcollect site hs) hrender), ?_⟩
    intro around hpath
    have hnone := binder?_eq_none hroot hapart hcollect hpath (parameterList?_isFunction hlist) hfree
    refine ⟨hnone, fun reference inner _ _ hinner => ?_⟩
    rw [binder?, List.find?_append, ← binder?, hinner, Option.none_or]
    exact hnone
  · intro function hfunction hisFunction
    obtain ⟨around, hpath⟩ := PathTo.of_mem hfunction
    obtain ⟨id, inner, hscope, hhoisting, -, hlinked⟩ :=
      functionScope?_eq_some hroot hapart hcollect hpath hisFunction
    refine ⟨id, hscope, hhoisting, fun name hbinds => ?_⟩
    cases hlinked with
    | plain hplain _ => rw [isFunction_scope? hisFunction] at hplain; cases hplain
    | scope _ _ hown _ _ =>
      rw [hown]
      exact binds_function hisFunction hbinds

def blockSample : String :=
  "import \x7bfunctional as f\x7d from 'm.macro';\nA = f(p => \x7b \x7b let h; h(p) \x7d return h(p) \x7d);"

def injectsFactory (collected : Collected) : Bool :=
  collected.usages.pending.any fun site => site.kind = .functional && site.render?.any fun function =>
    function.parameterList?.any fun list => !list.takesFactory

theorem factory_captures_nothing_block : ∃ program r collected draft function list around,
    parse (Options.dialect {}) blockSample.toList = some program ∧ FunctionsApart program ∧
    transform {} blockSample = .ok r ∧ Options.isInert {} blockSample = false ∧
    collect? {} program = some collected ∧ expansion ⟨{}, blockSample.toList, collected⟩ = .ok draft ∧
    function.parameterList? = some list ∧ (∀ e ∈ prependFactory list, e ∈ draft.edits) ∧
    PathTo program (function :: around) ∧ binder? factoryName (function :: around) = none := by
  have hsample : ((parse (Options.dialect {}) blockSample.toList).any fun program =>
      decide (FunctionsApart program) && (collect? {} program).any injectsFactory) = true ∧
      ((transform {} blockSample).toOption.any (·.changed)) = true := by decide +kernel
  obtain ⟨hgood, hok⟩ := hsample
  simp only [Option.any_eq_true, Bool.and_eq_true, decide_eq_true_eq] at hgood hok
  obtain ⟨program, hparse, hapart, collected, hcollect, hinjects⟩ := hgood
  obtain ⟨r, hr, hchanged⟩ := hok
  have hr := toOption_eq_some hr
  have hactive := not_isInert_of_changed hr hchanged
  obtain ⟨collected', draft, hcollect', hdraft, -, hfunctions, -⟩ :=
    (factory_captures_nothing hparse hapart hr).2 hactive
  cases hcollect.symm.trans hcollect'
  simp only [injectsFactory, List.any_eq_true, Bool.and_eq_true, decide_eq_true_eq, Option.any_eq_true,
    Bool.not_eq_true'] at hinjects
  obtain ⟨site, hs, hkind, function, hrender, list, hlist, htakes⟩ := hinjects
  obtain ⟨hedits, ⟨around, hpath⟩, hfree⟩ := hfunctions site hs hkind function list hrender hlist htakes
  exact ⟨program, r, collected, draft, function, list, around, hparse, hapart, hr, hactive, hcollect,
    hdraft, hlist, hedits, hpath, (hfree around hpath).1⟩

end ComponentMacros
