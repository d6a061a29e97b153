import Mathlib.Data.List.Find
import ComponentMacros.Proofs.FunctionScope
import ComponentMacros.Proofs.Ledger

/-!
# Usage errors

A site uses its macro as it must be used, or it has a fault: what is wrong, and
where. An expansion fails exactly if some site has a fault that nothing excuses,
and then it reports the fault of the first such site, in the order sites are
expanded.
-/

namespace ComponentMacros

/-! ## Uses and faults -/

def Tree.isSpread (t : Tree) : Bool :=
  match t.kind with
  | .spread _ => true
  | _ => false

/-- The site is the callee of a call with exactly one argument, which is not spread. -/
structure Site.Applies (site : Site) (call argument : Tree) : Prop where
  callee : site.call? = some call
  sole : call.arguments = [argument]
  whole : argument.isSpread = false

/-- The site is the key of a property of an object literal. -/
structure Site.Keyed (site : Site) (object property : Tree) : Prop where
  key : site.keyProperty? = some property
  owner : site.owner? property = some object

def Tree.HoldsMap (property : Tree) : Prop :=
  property.isPair = true ∧ ∃ value, property.value? = some value ∧ value.stripParens.isObject = true

namespace Setting

variable (setting : Setting)

/-- If the node is a function, its first parameter is the factory, or nothing in its scopes is called
like the factory. -/
def FactoryFree (function : Tree) : Prop :=
  ∀ list, function.parameterList? = some list →
    list.plainParameters.head?.bind (·.parameterName?) = some factoryName ∨
      setting.isFactoryTaken function.span = false

def Renders (definition : Tree) : Prop :=
  definition.parameterList?.isSome = true ∧ setting.FactoryFree definition ∨
  definition.isObject = true ∧ ∃ index property render, definition.findMember? "render" = some (index, property) ∧
    property.value? = some render ∧ setting.FactoryFree render.stripParens

def Fits (site : Site) : Prop :=
  match site.kind with
  | .component => ∃ call argument, site.Applies call argument ∧ argument.stripParens.isObject = true
  | .functional => ∃ call argument, site.Applies call argument ∧ setting.Renders argument.stripParens
  | .events | .states | .scopedSlots => ∃ object property, site.Keyed object property
  | .injections => ∃ object property, site.Keyed object property ∧ property.HoldsMap
  | .type => ∃ call, site.call? = some call

/-- What is wrong with a site, and where. -/
inductive Fault (site : Site) : Misuse → Span → Prop where
  | uncalled (hkind : site.kind.isKey = false) (hcall : site.call? = none) : Fault site .notCalled site.span
  | arity {call : Tree} (hkind : site.kind = .component ∨ site.kind = .functional) (hcall : site.call? = some call)
    (hargs : call.arguments.length ≠ 1) : Fault site .wrongArity call.span
  | spread {call argument : Tree} (hkind : site.kind = .component ∨ site.kind = .functional)
    (hcall : site.call? = some call) (hargs : call.arguments = [argument]) (hspread : argument.isSpread = true) :
    Fault site .notAnObject call.span
  | notAnObject {call argument : Tree} (hkind : site.kind = .component) (h : site.Applies call argument)
    (hobject : argument.stripParens.isObject = false) : Fault site .notAnObject argument.stripParens.span
  | notADefinition {call argument : Tree} (hkind : site.kind = .functional) (h : site.Applies call argument)
    (hfunction : argument.stripParens.parameterList? = none) (hobject : argument.stripParens.isObject = false) :
    Fault site .notADefinition argument.stripParens.span
  | missingRender {call argument : Tree} (hkind : site.kind = .functional) (h : site.Applies call argument)
    (hobject : argument.stripParens.isObject = true)
    (hrender : argument.stripParens.findMember? "render" = none) :
    Fault site .missingRender argument.stripParens.span
  | functionTaken {call argument : Tree} (hkind : site.kind = .functional) (h : site.Applies call argument)
    (htaken : ¬ setting.FactoryFree argument.stripParens) :
    Fault site .factoryNameTaken argument.stripParens.span
  | renderTaken {call argument property render : Tree} {index : Nat} (hkind : site.kind = .functional)
    (h : site.Applies call argument) (hobject : argument.stripParens.isObject = true)
    (hrender : argument.stripParens.findMember? "render" = some (index, property))
    (hvalue : property.value? = some render) (htaken : ¬ setting.FactoryFree render.stripParens) :
    Fault site .factoryNameTaken render.stripParens.span
  | notAKey (hkind : site.kind.isKey = true) (hkey : ¬ ∃ object property, site.Keyed object property) :
    Fault site .notAKey site.span
  | notAMap {object property : Tree} (hkind : site.kind = .injections) (hkey : site.Keyed object property)
    (hmap : ¬ property.HoldsMap) : Fault site .notAnInjectionMap property.span

def excuses (site : Site) : Bool :=
  setting.options.production && site.kind = .type && setting.collected.inProps site

/-- Something is wrong with the site, and nothing excuses it. -/
def Misused (site : Site) : Prop :=
  ¬ setting.Fits site ∧ setting.excuses site = false

end Setting

/-! ## The parts of a rule -/

section
variable {setting : Setting} {site : Site}

theorem definitionCall_applies {call argument : Tree} (h : site.Applies call argument) :
    definitionCall site = .ok (call, argument) := by
  unfold definitionCall
  rw [h.callee]
  simp only
  rw [h.sole]
  split
  · rename_i heq
    cases heq
    cases h.whole
  · rename_i heq
    cases heq
    rfl
  · rename_i hne
    exact absurd rfl (hne argument)

theorem definitionCall_arity {call : Tree} (hcall : site.call? = some call) (hargs : call.arguments.length ≠ 1) :
    definitionCall site = .error (.of .wrongArity site.name call.span) := by
  unfold definitionCall
  rw [hcall]
  simp only
  split
  · rename_i heq
    rw [heq] at hargs
    exact absurd rfl hargs
  · rename_i heq
    rw [heq] at hargs
    exact absurd rfl hargs
  · rfl

theorem definitionCall_spread {call argument : Tree} (hcall : site.call? = some call)
    (hargs : call.arguments = [argument]) (hspread : argument.isSpread = true) :
    definitionCall site = .error (.of .notAnObject site.name call.span) := by
  obtain ⟨kind, span, parts⟩ := argument
  unfold Tree.isSpread at hspread
  split at hspread
  · rename_i hkind
    cases hkind
    simp only [definitionCall, hcall, hargs]
  · cases hspread

theorem injectFactory_free {render : Tree} (h : setting.FactoryFree render.stripParens) :
    ∃ es, injectFactory setting.isFactoryTaken site render = .ok es := by
  unfold injectFactory
  simp only
  cases hlist : render.stripParens.parameterList? with
  | none => exact ⟨_, rfl⟩
  | some list =>
    by_cases hfirst : list.plainParameters.head?.bind (·.parameterName?) = some factoryName
    · simp only [hfirst, ite_true]
      exact ⟨_, rfl⟩
    · have hfree := (h list hlist).resolve_left hfirst
      simp only [hfirst, hfree, ite_false, Bool.false_eq_true]
      exact ⟨_, rfl⟩

theorem injectFactory_taken {render : Tree} (h : ¬ setting.FactoryFree render.stripParens) :
    render.stripParens.parameterList?.isSome = true ∧
      injectFactory setting.isFactoryTaken site render =
        .error (.of .factoryNameTaken site.name render.stripParens.span) := by
  unfold Setting.FactoryFree at h
  simp only [not_forall, not_or, Bool.not_eq_false] at h
  obtain ⟨list, hlist, hfirst, htaken⟩ := h
  refine ⟨by rw [hlist]; rfl, ?_⟩
  simp only [injectFactory, hlist, hfirst, htaken, ite_false, ite_true]

theorem keyedMember_keyed {object property : Tree} (h : site.Keyed object property) :
    ∃ index, keyedMember site = .ok ⟨object, index, property⟩ := by
  obtain ⟨-, -, c, hc, hspan⟩ := Site.owner?_spec h.owner
  cases hindex : object.children.findIdx? (·.span = property.span) with
  | none =>
    rw [List.findIdx?_eq_none_iff] at hindex
    have := hindex c hc
    simp [hspan] at this
  | some index =>
    refine ⟨index, ?_⟩
    simp [keyedMember, h.key, h.owner, hindex]

theorem keyedMember_unkeyed (h : ¬ ∃ object property, site.Keyed object property) :
    keyedMember site = .error (.of .notAKey site.name site.span) := by
  cases hmember : keyedMember site with
  | ok member =>
    obtain ⟨hkey, howner, -⟩ := keyedMember_spec hmember
    exact absurd ⟨member.object, member.property, hkey, howner⟩ h
  | error e =>
    unfold keyedMember at hmember
    simp only at hmember
    split at hmember
    · cases hmember
    · exact hmember.symm

theorem Tree.stripParens_stripParens (t : Tree) : t.stripParens.stripParens = t.stripParens := by
  fun_induction stripParens t with
  | case1 s inner ih => exact ih
  | case2 t h => rw [stripParens.eq_2 t h]

theorem findMember?_value {object property : Tree} {name : String} {index : Nat}
    (h : object.findMember? name = some (index, property)) : ∃ value, property.value? = some value := by
  have hname := (findMember?_mem h).2
  unfold Tree.staticName? at hname
  split at hname
  · exact ⟨_, rfl⟩
  · rename_i rest
    exact ⟨_, List.getLast?_eq_some_getLast (List.cons_ne_nil _ rest)⟩
  · rename_i rest
    exact ⟨_, List.getLast?_eq_some_getLast (List.cons_ne_nil _ rest)⟩
  · cases hname

theorem isObject_parameterList? {t : Tree} (h : t.isObject = true) : t.parameterList? = none := by
  rw [Tree.parameterList?, Tree.isObject_iff.mp h]

/-! ## Every site fits or has a fault -/

theorem ownEdits_ok {progress : Progress} (h : expandSite setting setting.alone site = .ok progress) :
    ∃ es, setting.ownEdits site = .ok es :=
  ⟨progress.draft.edits, by rw [Setting.ownEdits, h]; rfl⟩

theorem ownEdits_error {e : UsageError} (h : expandSite setting setting.alone site = .error e) :
    setting.ownEdits site = .error e := by
  rw [Setting.ownEdits, h]
  rfl

theorem expandFunctional_renders {call argument : Tree} (happlies : site.Applies call argument)
    (h : setting.Renders argument.stripParens) :
      ∃ progress, expandFunctional setting site setting.alone = .ok progress := by
  unfold expandFunctional
  simp only [definitionCall_applies happlies, bind, Except.bind]
  rcases h with ⟨hfunction, hfree⟩ | ⟨hobject, index, property, render, hmember, hvalue, hfree⟩
  · obtain ⟨es, hfactory⟩ := @injectFactory_free setting site argument.stripParens
      (by rw [Tree.stripParens_stripParens]; exact hfree)
    simp only [hfunction, ite_true, hfactory]
    exact ⟨_, rfl⟩
  · obtain ⟨es, hfactory⟩ := @injectFactory_free setting site render hfree
    simp only [isObject_parameterList? hobject, Option.isSome_none, Bool.false_eq_true, ite_false,
      hobject, ite_true, hmember, Option.bind_some, hvalue, hfactory]
    exact ⟨_, rfl⟩

theorem isPair_iff {t : Tree} : t.isPair = true ↔ ∃ a c m, t.kind = .property a c false m := by
  unfold Tree.isPair
  split
  · rename_i a c s m hk
    cases s <;> simp [hk]
  · rename_i hne
    simp only [Bool.false_eq_true, false_iff]
    rintro ⟨a, c, m, hk⟩
    exact hne a c false m hk

theorem expandInjections_map {source : List Char} {object property : Tree} (hkeyed : site.Keyed object property)
    (hmap : property.HoldsMap) : ∃ es, expandInjections source site = .ok es := by
  obtain ⟨index, hmember⟩ := keyedMember_keyed hkeyed
  obtain ⟨hpair, value, hvalue, hobject⟩ := hmap
  obtain ⟨a, c, m, hk⟩ := isPair_iff.mp hpair
  simp only [expandInjections, hmember, bind, Except.bind, hk, hvalue, hobject, ite_true]
  exact ⟨_, rfl⟩

theorem expandInjections_refused {source : List Char} {object property : Tree}
    (hkeyed : site.Keyed object property) (hmap : ¬ property.HoldsMap) :
    expandInjections source site = .error (.of .notAnInjectionMap site.name property.span) := by
  obtain ⟨index, hmember⟩ := keyedMember_keyed hkeyed
  simp only [expandInjections, hmember, bind, Except.bind]
  split
  · rename_i a c m value hk hvalue
    have hobject : ¬ value.stripParens.isObject = true :=
      fun hobject => hmap ⟨isPair_iff.mpr ⟨a, c, m, hk⟩, value, hvalue, hobject⟩
    rw [if_neg hobject]
    rfl
  · rfl

theorem Setting.Fits.ok (h : setting.Fits site) : ∃ es, setting.ownEdits site = .ok es := by
  unfold Setting.Fits at h
  suffices ∃ progress, expandSite setting setting.alone site = .ok progress from ownEdits_ok this.choose_spec
  unfold expandSite
  cases hkind : site.kind with
  | component =>
    rw [hkind] at h
    obtain ⟨call, argument, happlies, hobject⟩ := h
    simp only [expandComponent, definitionCall_applies happlies, bind, Except.bind, hobject, ite_true]
    exact ⟨_, rfl⟩
  | functional =>
    rw [hkind] at h
    obtain ⟨call, argument, happlies, hrenders⟩ := h
    exact expandFunctional_renders happlies hrenders
  | events | states | scopedSlots =>
    rw [hkind] at h
    obtain ⟨object, property, hkeyed⟩ := h
    obtain ⟨index, hmember⟩ := keyedMember_keyed hkeyed
    simp only [stripKey, hmember, bind, Except.bind]
    exact ⟨_, rfl⟩
  | injections =>
    rw [hkind] at h
    obtain ⟨object, property, hkeyed, hmap⟩ := h
    obtain ⟨es, hes⟩ := @expandInjections_map _ setting.source _ _ hkeyed hmap
    simp only [hes]
    exact ⟨_, rfl⟩
  | type =>
    rw [hkind] at h
    obtain ⟨call, hcall⟩ := h
    simp only [eraseType, hcall]
    exact ⟨_, rfl⟩

theorem Setting.Fault.error {misuse : Misuse} {span : Span} (h : setting.Fault site misuse span) :
    setting.ownEdits site = .error (.of misuse site.name span) := by
  apply ownEdits_error
  unfold expandSite
  cases h with
  | uncalled hkind hcall =>
    have hdefinition : definitionCall site = .error (.of .notCalled site.name site.span) := by
      simp only [definitionCall, hcall]
    cases hk : site.kind with
    | component => simp only [expandComponent, hdefinition]; rfl
    | functional => simp only [expandFunctional, hdefinition]; rfl
    | type => simp only [eraseType, hcall]; rfl
    | events | states | scopedSlots | injections => rw [hk] at hkind; cases hkind
  | arity hkind hcall hargs =>
    have hdefinition := definitionCall_arity hcall hargs
    rcases hkind with hk | hk
    · simp only [hk, expandComponent, hdefinition]; rfl
    · simp only [hk, expandFunctional, hdefinition]; rfl
  | spread hkind hcall hargs hspread =>
    have hdefinition := definitionCall_spread hcall hargs hspread
    rcases hkind with hk | hk
    · simp only [hk, expandComponent, hdefinition]; rfl
    · simp only [hk, expandFunctional, hdefinition]; rfl
  | notAnObject hkind h hobject =>
    simp only [hkind, expandComponent, definitionCall_applies h, bind, Except.bind, hobject]
    rfl
  | notADefinition hkind h hfunction hobject =>
    simp only [hkind, expandFunctional, definitionCall_applies h, bind, Except.bind, hfunction, hobject]
    rfl
  | missingRender hkind h hobject hrender =>
    simp only [hkind, expandFunctional, definitionCall_applies h, bind, Except.bind,
      isObject_parameterList? hobject, hobject, hrender]
    rfl
  | @functionTaken call argument hkind h htaken =>
    have hstrip := argument.stripParens_stripParens
    obtain ⟨hfunction, hfactory⟩ := @injectFactory_taken setting site argument.stripParens (by rwa [hstrip])
    rw [hstrip] at hfunction hfactory
    simp only [hkind, expandFunctional, definitionCall_applies h, bind, Except.bind, hfunction, hfactory, ite_true]
  | renderTaken hkind h hobject hrender hvalue htaken =>
    obtain ⟨-, hfactory⟩ := @injectFactory_taken setting site _ htaken
    simp only [hkind, expandFunctional, definitionCall_applies h, bind, Except.bind,
      isObject_parameterList? hobject, Option.isSome_none, Bool.false_eq_true, ite_false, hobject, ite_true,
        hrender, Option.bind_some, hvalue, hfactory]
  | notAKey hkind hkey =>
    have hmember := keyedMember_unkeyed hkey
    cases hk : site.kind with
    | component | functional | type => rw [hk] at hkind; cases hkind
    | events | states | scopedSlots => simp only [stripKey, hmember]; rfl
    | injections => simp only [expandInjections, hmember]; rfl
  | notAMap hkind hkey hmap =>
    simp only [hkind, expandInjections_refused hkey hmap]
    rfl

theorem applies_or_fault (setting : Setting) (hkind : site.kind = .component ∨ site.kind = .functional) :
    (∃ call argument, site.Applies call argument) ∨ ∃ misuse span, setting.Fault site misuse span := by
  cases hcall : site.call? with
  | none => exact Or.inr ⟨_, _, .uncalled (by rcases hkind with h | h <;> rw [h] <;> rfl) hcall⟩
  | some call =>
    by_cases hargs : call.arguments.length = 1
    · obtain ⟨argument, hsole⟩ := List.length_eq_one_iff.mp hargs
      cases hspread : argument.isSpread with
      | true => exact Or.inr ⟨_, _, .spread hkind hcall hsole hspread⟩
      | false => exact Or.inl ⟨call, argument, hcall, hsole, hspread⟩
    · exact Or.inr ⟨_, _, .arity hkind hcall hargs⟩

theorem renders_or_fault (setting : Setting) (hkind : site.kind = .functional) {call argument : Tree}
    (h : site.Applies call argument) :
    setting.Renders argument.stripParens ∨ ∃ misuse span, setting.Fault site misuse span := by
  by_cases hfree : setting.FactoryFree argument.stripParens
  · cases hlist : argument.stripParens.parameterList? with
    | some list => exact Or.inl (Or.inl ⟨by rw [hlist]; rfl, hfree⟩)
    | none =>
      cases hobject : argument.stripParens.isObject with
      | false => exact Or.inr ⟨_, _, .notADefinition hkind h hlist hobject⟩
      | true =>
        cases hrender : argument.stripParens.findMember? "render" with
        | none => exact Or.inr ⟨_, _, .missingRender hkind h hobject hrender⟩
        | some found =>
          obtain ⟨render, hvalue⟩ := findMember?_value hrender
          by_cases hfree : setting.FactoryFree render.stripParens
          · exact Or.inl (Or.inr ⟨hobject, found.1, found.2, render, hrender, hvalue, hfree⟩)
          · exact Or.inr ⟨_, _, .renderTaken hkind h hobject hrender hvalue hfree⟩
  · exact Or.inr ⟨_, _, .functionTaken hkind h hfree⟩

theorem fits_or_fault (setting : Setting) (site : Site) :
    setting.Fits site ∨ ∃ misuse span, setting.Fault site misuse span := by
  unfold Setting.Fits
  cases hkind : site.kind with
  | component =>
    rcases applies_or_fault setting (Or.inl hkind) with ⟨call, argument, happlies⟩ | hfault
    · cases hobject : argument.stripParens.isObject with
      | true => exact Or.inl ⟨call, argument, happlies, hobject⟩
      | false => exact Or.inr ⟨_, _, .notAnObject hkind happlies hobject⟩
    · exact Or.inr hfault
  | functional =>
    rcases applies_or_fault setting (Or.inr hkind) with ⟨call, argument, happlies⟩ | hfault
    · exact (renders_or_fault setting hkind happlies).imp_left fun h => ⟨call, argument, happlies, h⟩
    · exact Or.inr hfault
  | events | states | scopedSlots =>
    by_cases hkeyed : ∃ object property, site.Keyed object property
    · exact Or.inl hkeyed
    · exact Or.inr ⟨_, _, .notAKey (by rw [hkind]; rfl) hkeyed⟩
  | injections =>
    by_cases hkeyed : ∃ object property, site.Keyed object property
    · obtain ⟨object, property, hkeyed⟩ := hkeyed
      by_cases hmap : property.HoldsMap
      · exact Or.inl ⟨object, property, hkeyed, hmap⟩
      · exact Or.inr ⟨_, _, .notAMap hkind hkeyed hmap⟩
    · exact Or.inr ⟨_, _, .notAKey (by rw [hkind]; rfl) hkeyed⟩
  | type =>
    cases hcall : site.call? with
    | some call => exact Or.inl ⟨call, rfl⟩
    | none => exact Or.inr ⟨_, _, .uncalled (by rw [hkind]; rfl) hcall⟩

def Setting.refuses (setting : Setting) (site : Site) : Bool :=
  !(setting.ownEdits site).isOk

theorem refuses_iff : setting.refuses site = true ↔ ¬ setting.Fits site := by
  unfold Setting.refuses
  rcases fits_or_fault setting site with hfits | ⟨misuse, span, hfault⟩
  · obtain ⟨es, hes⟩ := hfits.ok
    simp [hes, hfits, Except.isOk, Except.toBool]
  · have hnot : ¬ setting.Fits site := by
      intro hfits
      obtain ⟨es, hes⟩ := hfits.ok
      rw [hfault.error] at hes
      cases hes
    simp [hfault.error, hnot, Except.isOk, Except.toBool]

theorem ownEdits_eq_error {e : UsageError} : setting.ownEdits site = .error e ↔
    ∃ misuse span, setting.Fault site misuse span ∧ e = .of misuse site.name span := by
  constructor
  · intro h
    rcases fits_or_fault setting site with hfits | ⟨misuse, span, hfault⟩
    · obtain ⟨es, hes⟩ := hfits.ok
      rw [h] at hes
      cases hes
    · rw [hfault.error, Except.error.injEq] at h
      exact ⟨misuse, span, hfault, h.symm⟩
  · rintro ⟨misuse, span, hfault, rfl⟩
    exact hfault.error

end

/-! ## The first fault -/

section
variable {setting : Setting}

theorem play_eq_error {e : UsageError} : ∀ {hands : List Hand}, setting.play hands = .error e ↔
    ∃ site, (hands.map Hand.site).find? setting.refuses = some site ∧ setting.ownEdits site = .error e
  | [] => by simp [Setting.play]
  | hand :: hands => by
    have ih := @play_eq_error e hands
    rw [Setting.play, List.map_cons, List.find?_cons]
    cases hown : setting.ownEdits hand.site with
    | error e' =>
      have hrefuses : setting.refuses hand.site = true := by rw [Setting.refuses, hown]; rfl
      simp only [hrefuses, Option.some.injEq, exists_eq_left', hown]
      rfl
    | ok own =>
      have hrefuses : setting.refuses hand.site = false := by rw [Setting.refuses, hown]; rfl
      simp only [hrefuses, ← ih]
      cases setting.play hands with
      | error e' => exact Iff.rfl
      | ok es => simp [bind, Except.bind, pure, Except.pure]

theorem deal_sites : ∀ sites types : List Site, (setting.deal sites types).map Hand.site = sites
  | [], _ => rfl
  | site :: sites, types => by rw [Setting.deal, List.map_cons, deal_sites sites]

theorem hands_sites : setting.hands.map Hand.site =
    setting.order ++ setting.unclaimed setting.order (setting.collected.usages.get .type) := by
  rw [Setting.hands, List.map_append, deal_sites, List.map_map]
  exact congrArg _ (List.map_id _)

theorem misused_iff {site : Site} (hkind : site.kind ≠ .type) : setting.Misused site ↔ ¬ setting.Fits site := by
  simp [Setting.Misused, Setting.excuses, hkind]

theorem misused_type_iff {site : Site} (hkind : site.kind = .type) : setting.Misused site ↔
    (∀ definition ∈ setting.order, setting.claims definition site = false) ∧ ¬ setting.Fits site := by
  have hclaimed := @claimed_iff setting site hkind
  have hfree : (∀ definition ∈ setting.order, setting.claims definition site = false) ↔
      ¬ ∃ definition ∈ setting.order, setting.claims definition site = true := by simp
  rw [hfree, hclaimed]
  unfold Setting.Misused Setting.excuses Setting.Fits
  rw [hkind]
  cases hcall : site.call? with
  | some call => simp
  | none => cases setting.options.production <;> simp

/-- The first site that is refused is the first one that is misused: a type that a definition takes is
called, or it is excused. -/
theorem find?_hands [DecidablePred setting.Misused] : (setting.hands.map Hand.site).find? setting.refuses =
    (Macro.expansionOrder.flatMap setting.collected.usages.get).find? (setting.Misused ·) := by
  rw [hands_sites, ← setting.order_append_types, List.find?_append, List.find?_append, Setting.unclaimed,
    List.find?_filter]
  -- nothing but a type is ever excused
  have hfront : setting.order.find? setting.refuses = setting.order.find? (setting.Misused ·) := by
    apply List.find?_congr
    intro site hsite
    rw [Bool.eq_iff_iff, refuses_iff, decide_eq_true_eq, misused_iff (Setting.mem_order.mp hsite).2]
  rw [hfront]
  -- a type is refused by its own rule only if it is left for it
  refine congrArg _ (List.find?_congr ?_)
  intro site hsite
  have hkind := of_decide_eq_true (List.mem_filter.mp hsite).2
  rw [decide_eq_decide, refuses_iff, misused_type_iff hkind]
  simp

theorem expandAll_eq_error {e : UsageError} : expandAll setting = .error e ↔
    ∃ before site after misuse span,
      Macro.expansionOrder.flatMap setting.collected.usages.get = before ++ site :: after ∧
      (∀ s ∈ before, ¬ setting.Misused s) ∧ setting.Misused site ∧ setting.Fault site misuse span ∧
      e = .of misuse site.name span := by
  classical
  have hplay : expandAll setting = .error e ↔ setting.play setting.hands = .error e := by
    rw [expandAll_eq]
    cases setting.play setting.hands <;> simp [Except.map]
  rw [hplay, play_eq_error, find?_hands]
  simp only [List.find?_eq_some_iff_append, decide_eq_true_eq, Bool.not_eq_true', decide_eq_false_iff_not,
    ownEdits_eq_error]
  constructor
  · rintro ⟨site, ⟨hmisused, before, after, horder, hbefore⟩, misuse, span, hfault, rfl⟩
    exact ⟨before, site, after, misuse, span, horder, hbefore, hmisused, hfault, rfl⟩
  · rintro ⟨before, site, after, misuse, span, horder, hbefore, hmisused, hfault, rfl⟩
    exact ⟨site, ⟨hmisused, before, after, horder, hbefore⟩, misuse, span, hfault, rfl⟩

theorem expandAll_fails_iff : (∃ e, expandAll setting = .error e) ↔
    ∃ site ∈ setting.collected.usages.pending, setting.Misused site := by
  classical
  have horder : ∀ site, site ∈ Macro.expansionOrder.flatMap setting.collected.usages.get ↔
      site ∈ setting.collected.usages.pending := by
    intro site
    rw [← setting.order_append_types]
    exact setting.order_perm.mem_iff
  constructor
  · rintro ⟨e, he⟩
    obtain ⟨before, site, after, -, -, hsplit, -, hmisused, -⟩ := expandAll_eq_error.mp he
    refine ⟨site, (horder site).mp ?_, hmisused⟩
    rw [hsplit]
    exact List.mem_append_right _ (List.mem_cons_self ..)
  · rintro ⟨site, hmem, hmisused⟩
    -- there is a first one, and it has a fault
    have hsome := (@List.find?_isSome _ _ (decide <| setting.Misused ·)).mpr
      ⟨site, (horder site).mpr hmem, decide_eq_true hmisused⟩
    obtain ⟨first, hfirst⟩ := Option.isSome_iff_exists.mp hsome
    obtain ⟨hmisused, before, after, hsplit, hbefore⟩ := List.find?_eq_some_iff_append.mp hfirst
    rw [decide_eq_true_eq] at hmisused
    obtain ⟨misuse, span, hfault⟩ := (fits_or_fault setting first).resolve_left hmisused.1
    refine ⟨_, expandAll_eq_error.mpr ⟨before, first, after, misuse, span, hsplit, ?_, hmisused, hfault, rfl⟩⟩
    simpa using hbefore

end

theorem transform_usage_error {options : Options} {text : String} {program : Tree} {collected : Collected}
    (hmay : options.mayImportMacros text.toList = true) (hparse : parse options.dialect text.toList = some program)
    (hcollect : collect? options program = some collected) {e : UsageError} :
    transform options text = .error (.usage e) ↔
      ∃ e', expandAll ⟨options, text.toList, collected⟩ = .error e' ∧ e = e'.locatedIn text.toList := by
  simp only [transform, hmay, hparse, hcollect, expansion, Bool.not_true, Bool.false_eq_true, ite_false]
  cases expandAll ⟨options, text.toList, collected⟩ with
  | error e' => simp [bind, Except.bind, eq_comm]
  | ok progress =>
    simp only [bind, Except.bind, pure, Except.pure]
    split <;> simp

/-! ## The factory's name -/

/-- If the node is a function, its first parameter is the factory, or neither the function nor a node around it
declares the name of the factory. -/
def Tree.LeavesFactory (program function : Tree) : Prop :=
  ∀ list, function.parameterList? = some list →
    list.plainParameters.head?.bind (·.parameterName?) = some factoryName ∨
      ∀ around, PathTo program (function :: around) → ∀ v ∈ function :: around, v.declares factoryName = false

/-- The scopes of the walk say so exactly if the declarations do. -/
theorem factoryFree_iff {options : Options} {source : List Char} {program function : Tree} {collected : Collected}
    (hroot : program.kind = .program) (hapart : FunctionsApart program)
    (hcollect : collect? options program = some collected) (hfunction : function ∈ program.nodes) :
    Setting.FactoryFree ⟨options, source, collected⟩ function ↔ program.LeavesFactory function := by
  refine forall₂_congr fun list hlist => or_congr_right ?_
  have hisFunction := parameterList?_isFunction hlist
  constructor
  · intro hfree around hpath v hv
    by_contra hdeclares
    rw [Bool.not_eq_false] at hdeclares
    have htaken : Setting.isFactoryTaken ⟨options, source, collected⟩ function.span = true :=
      (isFactoryTaken_iff hroot hapart hcollect hpath hisFunction).mpr ⟨v, hv, hdeclares⟩
    rw [hfree] at htaken
    cases htaken
  · intro hnone
    obtain ⟨around, hpath⟩ := PathTo.of_mem hfunction
    by_contra htaken
    rw [Bool.not_eq_false] at htaken
    obtain ⟨v, hv, hdeclares⟩ := (isFactoryTaken_iff hroot hapart hcollect hpath hisFunction).mp htaken
    rw [hnone around hpath v hv] at hdeclares
    cases hdeclares

/-- A program that imports macros is refused exactly if it misuses one, and the error is the fault of
the first misused site in the order of expansion. What the sites find by their spans is what they are:
callees of calls, and keys of members of object literals. What the scopes say of the factory's name is
what is declared in and around a function. -/
theorem usage_error_iff_misused {options : Options} {text : String} {program : Tree} {collected : Collected}
    (hmay : options.mayImportMacros text.toList = true) (hparse : parse options.dialect text.toList = some program)
    (hcollect : collect? options program = some collected) :
    let setting : Setting := ⟨options, text.toList, collected⟩
    ((∃ e, transform options text = .error (.usage e)) ↔
      ∃ site ∈ collected.usages.pending, setting.Misused site) ∧
    (∀ e, transform options text = .error (.usage e) ↔ ∃ before site after misuse span,
      Macro.expansionOrder.flatMap collected.usages.get = before ++ site :: after ∧
      (∀ s ∈ before, ¬ setting.Misused s) ∧ setting.Misused site ∧ setting.Fault site misuse span ∧
      e = (UsageError.of misuse site.name span).locatedIn text.toList) ∧
    (Layout text.toList program → Shape program → Heading program →
      (∀ site ∈ collected.usages.pending, (∀ call, site.call? = some call ↔ site.Heads call) ∧
        ∀ object property, site.Keyed object property ↔ site.Keys object property) ∧
      ∀ t ∈ program.nodes, t.parameterList?.isSome = t.isFunction) ∧
    (FunctionsApart program →
      ∀ function ∈ program.nodes, setting.FactoryFree function ↔ program.LeavesFactory function) := by
  intro setting
  have herror : ∀ e, transform options text = .error (.usage e) ↔
      ∃ e', expandAll setting = .error e' ∧ e = e'.locatedIn text.toList :=
    fun e => transform_usage_error hmay hparse hcollect
  refine ⟨?_, ?_, ?_, fun hapart function => factoryFree_iff (parse_kind hparse) hapart hcollect⟩
  · rw [← @expandAll_fails_iff setting]
    simp only [herror]
    exact ⟨fun ⟨_, e', he', _⟩ => ⟨e', he'⟩, fun ⟨e', he'⟩ => ⟨_, e', he', rfl⟩⟩
  · intro e
    rw [herror]
    simp only [expandAll_eq_error]
    constructor
    · rintro ⟨e', ⟨before, site, after, misuse, span, horder, hbefore, hmisused, hfault, rfl⟩, rfl⟩
      exact ⟨before, site, after, misuse, span, horder, hbefore, hmisused, hfault, rfl⟩
    · rintro ⟨before, site, after, misuse, span, horder, hbefore, hmisused, hfault, rfl⟩
      exact ⟨_, ⟨before, site, after, misuse, span, horder, hbefore, hmisused, hfault, rfl⟩, rfl⟩
  · intro hlayout hshape hheading
    refine ⟨?_, fun t ht => hheading.parameterList? ht⟩
    intro site hsite
    have hin := collect?_sites hcollect site hsite
    refine ⟨fun call => Site.call?_iff hlayout hshape hheading hin, ?_⟩
    intro object property
    rw [← Site.member_iff hlayout hshape hheading hin]
    exact ⟨fun h => ⟨h.key, h.owner⟩, fun h => ⟨h.1, h.2⟩⟩

def misuseSample : String :=
  "import \x7b component as c, type as t, EVENTS as E \x7d from 'm.macro';\nt; c(\x7b props: \x7b a: t \x7d \x7d); E;"

def misuseOptions : Options := { mode := .production }

theorem usage_error_iff_misused_late : ∃ program collected,
    parse misuseOptions.dialect misuseSample.toList = some program ∧
    collect? misuseOptions program = some collected ∧
    (∃ site ∈ collected.usages.pending, Setting.Misused ⟨misuseOptions, misuseSample.toList, collected⟩ site) ∧
    (∃ before site after, Macro.expansionOrder.flatMap collected.usages.get = before ++ site :: after ∧
      (∀ s ∈ before, ¬ Setting.Misused ⟨misuseOptions, misuseSample.toList, collected⟩ s) ∧ site.name = "E") ∧
    (∀ site ∈ collected.usages.pending, ∀ call, site.call? = some call ↔ site.Heads call) ∧
    ∀ function ∈ program.nodes,
      Setting.FactoryFree ⟨misuseOptions, misuseSample.toList, collected⟩ function ↔
        program.LeavesFactory function := by
  have hgood : (parse misuseOptions.dialect misuseSample.toList).any (fun program =>
      decide (Layout misuseSample.toList program) && decide (Shape program) && decide (Heading program) &&
        decide (FunctionsApart program) && (collect? misuseOptions program).isSome) = true := by decide +kernel
  simp only [Option.any_eq_true, Bool.and_eq_true, decide_eq_true_eq] at hgood
  obtain ⟨program, hparse, ⟨⟨⟨hlayout, hshape⟩, hheading⟩, hapart⟩, hsome⟩ := hgood
  obtain ⟨collected, hcollect⟩ := Option.isSome_iff_exists.mp hsome
  have hfails : (match transform misuseOptions misuseSample with
      | .error (.usage e) => some e.macroName
      | _ => none) = some "E" := by decide +kernel
  split at hfails
  · rename_i e he
    obtain ⟨hiff, hfirst, hplaces, hfactory⟩ := usage_error_iff_misused (by decide +kernel) hparse hcollect
    obtain ⟨before, site, after, misuse, span, horder, hbefore, -, -, rfl⟩ := (hfirst e).mp he
    exact ⟨program, collected, hparse, hcollect, hiff.mp ⟨_, he⟩,
      ⟨before, site, after, horder, hbefore, Option.some.inj hfails⟩,
      fun site hsite => ((hplaces hlayout hshape hheading).1 site hsite).1, hfactory hapart⟩
  · cases hfails

end ComponentMacros
