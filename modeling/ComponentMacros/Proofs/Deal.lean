import ComponentMacros.Proofs.Recorded

/-!
# Expansion without a queue

While macros are expanded, definitions take the types in their props from the
queue, so what a rule finds there depends on the rules that ran before it. The
types can as well be dealt out beforehand: each goes to the first definition that
claims it, the rest to the rule for types. A rule then works on its own site and
its hand of types, whatever the others did.
-/

namespace ComponentMacros

/-! ## Claims -/

def Site.literal? (site : Site) : Option Tree :=
  match site.kind, site.call?.map (·.arguments) with
  | .component, some [argument] | .functional, some [argument] =>
    if argument.stripParens.isObject then some argument.stripParens else none
  | _, _ => none

def Site.props? (site : Site) : Option Tree := do
  let object ← site.literal?
  let (_, property) ← object.findMember? "props"
  let value ← property.value?
  if value.stripParens.isObject then some value.stripParens else none

theorem Site.props?_eq_none {site : Site} (hc : site.kind ≠ .component) (hf : site.kind ≠ .functional) :
    site.props? = none := by
  have : site.literal? = none := by
    unfold literal?
    split
    · exact absurd ‹_› hc
    · exact absurd ‹_› hf
    · rfl
  simp [props?, this]

namespace Setting

variable (setting : Setting)

/-- The definition at one site takes the type at another. In production it takes all types in its
props, in development those that are called by the first name of the macro. -/
def claims (definition site : Site) : Bool :=
  site.kind = .type && definition.props?.any fun props => site.isWithin props.span &&
    (setting.options.production ||
      (some site.name = setting.collected.usages.typeAlias && site.call?.isSome))

def takenEdits (site : Site) : List Edit :=
  if setting.options.production then [] else annotate site

def alone : Progress := ⟨⟨setting.source, []⟩, .empty⟩

def ownEdits (site : Site) : Except UsageError (List Edit) :=
  (expandSite setting setting.alone site).map (·.draft.edits)

theorem claims_eq_false {definition : Site} (h : definition.props? = none) (site : Site) :
    setting.claims definition site = false := by
  simp [claims, h]

theorem claims_type {definition site : Site} (h : setting.claims definition site = true) : site.kind = .type := by
  simp only [claims, Bool.and_eq_true, decide_eq_true_eq] at h
  exact h.1

end Setting

def Usages.without (setting : Setting) (site : Site) (usages : Usages) : Usages :=
  { usages with pending := usages.pending.filter (!setting.claims site ·) }

def Progress.past (setting : Setting) (site : Site) (progress : Progress) (own : List Edit) : Progress :=
  ⟨progress.draft.recordAll
    (own ++ (progress.usages.pending.filter (setting.claims site)).flatMap setting.takenEdits),
    progress.usages.without setting site⟩

/-! ## One site -/

section
variable {setting : Setting} {site : Site} {progress : Progress}

theorem recordAll_recorded (draft : Draft) (source : List Char) (es fs : List Edit) :
    draft.recordAll ((Draft.recordAll ⟨source, []⟩ es).edits ++ fs) = draft.recordAll (es ++ fs) := by
  simp [recordAll_eq, List.filter_append]

theorem expandProps_eq {definition : Definition} (h : definition.props? = site.props?) {usages : Usages}
    (halias : usages.typeAlias = setting.collected.usages.typeAlias) :
    expandProps setting.options setting.source usages definition =
      ((expandProps setting.options setting.source .empty definition).1 ++
        (usages.pending.filter (setting.claims site)).flatMap setting.takenEdits,
        usages.without setting site) := by
  unfold expandProps
  rw [h]
  cases hprops : site.props? with
  | none => simp [setting.claims_eq_false hprops, Usages.without]
  | some props =>
    cases hmode : setting.options.mode with
    | production =>
      have hclaims : setting.claims site = fun s => decide (s.kind = .type) && s.isWithin props.span := by
        funext s
        simp [Setting.claims, hprops, Options.production, hmode]
      simp [collapseProps, Usages.takeMatching, Usages.without, hclaims, Setting.takenEdits,
        Options.production, hmode]
    | development =>
      have htaken : setting.takenEdits = annotate := by
        funext s
        simp [Setting.takenEdits, Options.production, hmode]
      cases hname : usages.typeAlias with
      | none =>
        -- without a name for the macro nothing is annotated, whatever is queued
        have hclaims : setting.claims site = fun _ => false := by
          funext s
          simp [Setting.claims, hprops, Options.production, hmode, ← halias, hname]
        have hsame : usages.without setting site = usages := by simp [Usages.without, hclaims]
        rw [hsame]
        simp [annotateProps, hname, hclaims, Usages.empty]
      | some name =>
        have hclaims : setting.claims site = fun s => decide (s.kind = .type) &&
            (decide (s.name = name) && s.isWithin props.span && s.call?.isSome) := by
          funext s
          simp [Setting.claims, hprops, Options.production, hmode, ← halias, hname, Bool.and_left_comm,
            Bool.and_assoc]
        simp [annotateProps, hname, Usages.takeMatching, hclaims, htaken, Usages.without, Usages.empty]

theorem giveName_object (options : Options) (definition : Definition) :
    (giveName options site definition).2.object = definition.object := by
  unfold giveName
  split
  · rfl
  · split <;> rfl

theorem finishDefinition_eq {definition : Definition} (h : definition.props? = site.props?)
    (halias : progress.usages.typeAlias = setting.collected.usages.typeAlias) (functional : Bool)
    (outer : List Edit) :
    finishDefinition setting site definition functional (progress.record outer) =
      progress.past setting site
        (finishDefinition setting site definition functional (setting.alone.record outer)).draft.edits := by
  have hnamed : (giveName setting.options site definition).2.props? = site.props? := by
    rw [← h]
    unfold Definition.props?
    rw [giveName_object]
  have hprops := @expandProps_eq setting site _ hnamed _ halias
  simp only [finishDefinition, Progress.record, Setting.alone, Progress.past, recordAll_append]
  rw [hprops, recordAll_recorded]
  simp only [List.append_assoc]

theorem ofObject_props? {call argument : Tree} (hkind : site.kind = .component ∨ site.kind = .functional)
    (hcall : definitionCall site = .ok (call, argument)) (hobject : argument.stripParens.isObject = true) :
    (Definition.ofObject call argument.stripParens).props? = site.props? := by
  obtain ⟨hc, ha⟩ := definitionCall_spec hcall
  have hliteral : site.literal? = some argument.stripParens := by
    rcases hkind with hk | hk <;> simp [Site.literal?, hk, hc, ha, hobject]
  have hof : (Definition.ofObject call argument.stripParens).object = some argument.stripParens := by
    unfold Definition.ofObject
    split <;> rfl
  rw [Definition.props?, hof, Site.props?, hliteral]

theorem function_props? {call argument : Tree} (hcall : definitionCall site = .ok (call, argument))
    (hfunction : argument.stripParens.parameterList?.isSome = true) (start : Nat) :
    (Definition.props? ⟨call, none, start, true⟩) = site.props? := by
  obtain ⟨hc, ha⟩ := definitionCall_spec hcall
  have hobject : argument.stripParens.isObject = false := by
    unfold Tree.parameterList? at hfunction
    unfold Tree.isObject
    split at hfunction <;> simp_all
  have hliteral : site.literal? = none := by
    unfold Site.literal?
    rw [hc, Option.map_some, ha]
    split <;> simp_all
  rw [Site.props?, hliteral]
  rfl

theorem expandComponent_eq (hkind : site.kind = .component)
    (halias : progress.usages.typeAlias = setting.collected.usages.typeAlias) :
    expandComponent setting site progress =
      (expandComponent setting site setting.alone).map (progress.past setting site ·.draft.edits) := by
  unfold expandComponent
  cases hcall : definitionCall site with
  | error e => rfl
  | ok result =>
    obtain ⟨call, argument⟩ := result
    by_cases hobject : argument.stripParens.isObject = true
    · have hprops := ofObject_props? (Or.inl hkind) hcall hobject
      simp only [bind, Except.bind, hobject, ite_true, Except.map, pure, Except.pure]
      rw [finishDefinition_eq hprops halias]
    · simp only [bind, Except.bind, hobject]
      rfl

theorem expandFunctional_eq (hkind : site.kind = .functional)
    (halias : progress.usages.typeAlias = setting.collected.usages.typeAlias) :
    expandFunctional setting site progress =
      (expandFunctional setting site setting.alone).map (progress.past setting site ·.draft.edits) := by
  unfold expandFunctional
  cases hcall : definitionCall site with
  | error e => rfl
  | ok result =>
    obtain ⟨call, argument⟩ := result
    by_cases hfunction : argument.stripParens.parameterList?.isSome = true
    · -- a literal is made up around the function, and it has no props
      have hprops := function_props? hcall hfunction argument.stripParens.span.start
      simp only [bind, Except.bind, hfunction, ite_true]
      cases injectFactory setting.isFactoryTaken site argument.stripParens with
      | error e => rfl
      | ok factory =>
        simp only [Except.map, pure, Except.pure]
        rw [finishDefinition_eq hprops halias]
    · simp only [bind, Except.bind, hfunction]
      by_cases hobject : argument.stripParens.isObject = true
      · have hprops := ofObject_props? (Or.inr hkind) hcall hobject
        simp only [hobject, ite_true]
        cases (argument.stripParens.findMember? "render").bind (·.2.value?) with
        | none => rfl
        | some render =>
          cases hinject : injectFactory setting.isFactoryTaken site render with
          | error e => simp only [hinject]; rfl
          | ok factory =>
            simp only [hinject, Except.map, pure, Except.pure]
            rw [finishDefinition_eq hprops halias]
            rfl
      · simp only [hobject]
        rfl

theorem record_eq (hprops : site.props? = none) (result : Except UsageError (List Edit)) :
    progress.record <$> result =
      (setting.alone.record <$> result).map (progress.past setting site ·.draft.edits) := by
  cases result with
  | error e => rfl
  | ok es =>
    have hclaims : setting.claims site = fun _ => false := funext (setting.claims_eq_false hprops)
    have h := recordAll_recorded progress.draft setting.source es []
    simp only [List.append_nil] at h
    simp [Functor.map, Except.map, Progress.past, Progress.record, Setting.alone, Usages.without, hclaims, h]

/-- What a rule does depends on the queue only by the types that its site takes. -/
theorem expandSite_eq (halias : progress.usages.typeAlias = setting.collected.usages.typeAlias) :
    expandSite setting progress site = (setting.ownEdits site).map (progress.past setting site) := by
  have hmap : (setting.ownEdits site).map (progress.past setting site) =
      (expandSite setting setting.alone site).map (progress.past setting site ·.draft.edits) := by
    unfold Setting.ownEdits
    cases expandSite setting setting.alone site <;> rfl
  rw [hmap]
  unfold expandSite
  cases hkind : site.kind with
  | component => exact expandComponent_eq hkind halias
  | functional => exact expandFunctional_eq hkind halias
  | type | events | states | scopedSlots | injections =>
    exact record_eq (Site.props?_eq_none (by simp [hkind]) (by simp [hkind])) _

end

/-! ## Dealing -/

structure Hand where
  site : Site
  types : List Site

namespace Setting

variable (setting : Setting)

def deal : List Site → List Site → List Hand
  | [], _ => []
  | site :: sites, types =>
    ⟨site, types.filter (setting.claims site)⟩ :: deal sites (types.filter (!setting.claims site ·))

def unclaimed (sites types : List Site) : List Site :=
  types.filter fun s => !sites.any (setting.claims · s)

def play : List Hand → Except UsageError (List Edit)
  | [] => .ok []
  | hand :: hands => do
    let own ← setting.ownEdits hand.site
    let rest ← play hands
    return own ++ hand.types.flatMap setting.takenEdits ++ rest

theorem unclaimed_cons (site : Site) (sites types : List Site) :
    setting.unclaimed (site :: sites) types = setting.unclaimed sites (types.filter (!setting.claims site ·)) := by
  simp [unclaimed, List.filter_filter, Bool.and_comm]

theorem deal_append : ∀ sites more types : List Site,
    setting.deal (sites ++ more) types = setting.deal sites types ++
      setting.deal more (setting.unclaimed sites types)
  | [], more, types => by simp [deal, unclaimed]
  | site :: sites, more, types => by
    rw [List.cons_append, deal, deal, deal_append sites, unclaimed_cons, List.cons_append]

theorem deal_nil : ∀ sites : List Site, setting.deal sites [] = sites.map (⟨·, []⟩)
  | [] => rfl
  | site :: sites => by rw [deal, List.filter_nil, List.filter_nil, deal_nil sites, List.map_cons]

theorem play_append : ∀ hands more : List Hand, setting.play (hands ++ more) = (do
    let first ← setting.play hands
    let rest ← setting.play more
    return first ++ rest)
  | [], more => by cases h : setting.play more <;> simp [play, h, bind, Except.bind, pure, Except.pure]
  | hand :: hands, more => by
    rw [List.cons_append, play, play, play_append hands more]
    cases setting.ownEdits hand.site with
    | error e => rfl
    | ok own =>
      cases setting.play hands with
      | error e => rfl
      | ok first => cases setting.play more <;> simp [bind, Except.bind, pure, Except.pure]

end Setting

/-! ## Runs -/

section
variable {setting : Setting}

theorem get_filter_claims (usages : Usages) (site : Site) :
    (usages.get .type).filter (setting.claims site) = usages.pending.filter (setting.claims site) := by
  rw [Usages.get, List.filter_filter]
  apply List.filter_congr
  intro s _
  by_cases h : setting.claims site s = true
  · simp [h, setting.claims_type h]
  · simp [h]

theorem expandSites_eq : ∀ (sites : List Site) (progress : Progress),
    progress.usages.typeAlias = setting.collected.usages.typeAlias →
    sites.foldlM (expandSite setting) progress =
      (setting.play (setting.deal sites (progress.usages.get .type))).map fun es =>
        ⟨progress.draft.recordAll es,
          { progress.usages with pending := setting.unclaimed sites progress.usages.pending }⟩
  | [], progress, _ => by
    simp [Setting.deal, Setting.play, Setting.unclaimed, Draft.recordAll, pure, Except.pure, Except.map]
  | site :: sites, progress, halias => by
    rw [List.foldlM_cons, expandSite_eq halias, Setting.deal, Setting.play]
    cases setting.ownEdits site with
    | error e => rfl
    | ok own =>
      have hrest := expandSites_eq sites (progress.past setting site own) halias
      have htypes : (progress.past setting site own).usages.get .type =
          (progress.usages.get .type).filter (!setting.claims site ·) := by
        simp [Progress.past, Usages.without, Usages.get, List.filter_filter, Bool.and_comm]
      simp only [Except.map, bind, Except.bind]
      rw [hrest, htypes]
      cases setting.play (setting.deal sites ((progress.usages.get .type).filter (!setting.claims site ·))) with
      | error e => rfl
      | ok es =>
        simp only [Except.map, pure, Except.pure, Progress.past, Usages.without, recordAll_append,
          get_filter_claims, Setting.unclaimed_cons]

def Usages.after (setting : Setting) (kind : Macro) (usages : Usages) : Usages :=
  { usages with pending := setting.unclaimed (usages.get kind) (usages.take kind).2.pending }

theorem take_pending (usages : Usages) (kind : Macro) :
    (usages.take kind).2.pending = usages.pending.filter fun s => decide (s.kind ≠ kind) := by
  simp [Usages.take, Usages.takeMatching]

theorem take_get_type (usages : Usages) {kind : Macro} (hkind : kind ≠ .type) :
    (usages.take kind).2.get .type = usages.get .type := by
  rw [Usages.get, Usages.get, take_pending, List.filter_filter]
  apply List.filter_congr
  intro s _
  by_cases hs : s.kind = .type
  · simp [hs, Ne.symm hkind]
  · simp [hs]

theorem expandMacro_eq {progress : Progress} (kind : Macro)
    (halias : progress.usages.typeAlias = setting.collected.usages.typeAlias) :
    expandMacro setting progress kind =
      (setting.play (setting.deal (progress.usages.get kind) ((progress.usages.take kind).2.get .type))).map
        fun es =>
        ⟨progress.draft.recordAll es, progress.usages.after setting kind⟩ := by
  have hget : (progress.usages.take kind).1 = progress.usages.get kind := by
    simp [Usages.take, Usages.takeMatching, Usages.get]
  unfold expandMacro
  simp only
  rw [hget]
  exact expandSites_eq (progress.usages.get kind) { progress with usages := (progress.usages.take kind).2 } halias

theorem unclaimed_append (sites more types : List Site) :
    setting.unclaimed (sites ++ more) types = setting.unclaimed more (setting.unclaimed sites types) := by
  simp [Setting.unclaimed, List.filter_filter, Bool.and_comm]

theorem unclaimed_filter (sites types : List Site) (p : Site → Bool) :
    (setting.unclaimed sites types).filter p = setting.unclaimed sites (types.filter p) := by
  simp [Setting.unclaimed, List.filter_filter, Bool.and_comm]

-- only types are ever claimed
theorem after_get {usages : Usages} {kind other : Macro} (htype : other ≠ .type) (hother : other ≠ kind) :
    (usages.after setting kind).get other = usages.get other := by
  rw [Usages.get, Usages.after, Usages.get, unclaimed_filter, take_pending, List.filter_filter, Setting.unclaimed,
    List.filter_filter]
  apply List.filter_congr
  intro s _
  by_cases hs : s.kind = other
  · have hnone : ∀ sites : List Site, sites.any (setting.claims · s) = false := by
      intro sites
      rw [List.any_eq_false]
      intro d _ hclaims
      exact htype (hs ▸ setting.claims_type hclaims)
    simp [hnone, hs, hother]
  · simp [hs]

theorem after_get_type {usages : Usages} {kind : Macro} (hkind : kind ≠ .type) :
    (usages.after setting kind).get .type = setting.unclaimed (usages.get kind) (usages.get .type) := by
  rw [Usages.get, Usages.after, unclaimed_filter]
  exact congrArg _ (take_get_type usages hkind)

theorem expandMacros_eq : ∀ (kinds : List Macro) (progress : Progress), kinds.Nodup → .type ∉ kinds →
    progress.usages.typeAlias = setting.collected.usages.typeAlias →
    kinds.foldlM (expandMacro setting) progress =
      (setting.play (setting.deal (kinds.flatMap progress.usages.get) (progress.usages.get .type))).map fun es =>
        ⟨progress.draft.recordAll es, { progress.usages with
          pending := setting.unclaimed (kinds.flatMap progress.usages.get)
            (progress.usages.pending.filter fun s => decide (s.kind ∉ kinds)) }⟩
  | [], progress, _, _, _ => by
    simp [Setting.deal, Setting.play, Setting.unclaimed, Draft.recordAll, pure, Except.pure, Except.map]
  | kind :: kinds, progress, hnodup, htype, halias => by
    obtain ⟨hkind, hnodup⟩ := List.nodup_cons.mp hnodup
    obtain ⟨hne, htype⟩ : kind ≠ .type ∧ .type ∉ kinds := by
      simpa only [List.mem_cons, not_or, eq_comm] using htype
    rw [List.foldlM_cons, expandMacro_eq kind halias, take_get_type _ hne, List.flatMap_cons, setting.deal_append,
      setting.play_append]
    cases setting.play (setting.deal (progress.usages.get kind) (progress.usages.get .type)) with
    | error e => rfl
    | ok first =>
      -- the macros to come find their own sites untouched, and the types that are left
      have hrest := expandMacros_eq kinds ⟨progress.draft.recordAll first, progress.usages.after setting kind⟩
        hnodup htype halias
      have hsites : kinds.flatMap (progress.usages.after setting kind).get =
          kinds.flatMap progress.usages.get := by
        apply List.flatMap_congr
        intro other hother
        exact after_get (fun h => htype (h ▸ hother)) (fun h => hkind (h ▸ hother))
      have hqueue : (progress.usages.after setting kind).pending.filter (fun s => decide (s.kind ∉ kinds)) =
          setting.unclaimed (progress.usages.get kind)
            (progress.usages.pending.filter fun s => decide (s.kind ∉ kind :: kinds)) := by
        rw [Usages.after, unclaimed_filter, take_pending, List.filter_filter]
        simp only [List.mem_cons, not_or, Bool.decide_and, Bool.and_comm]
      simp only [hsites, after_get_type hne, hqueue] at hrest
      simp only [Except.map, bind, Except.bind, hrest]
      cases setting.play (setting.deal (kinds.flatMap progress.usages.get)
        (setting.unclaimed (progress.usages.get kind) (progress.usages.get .type))) with
      | error e => rfl
      | ok es => simp only [pure, Except.pure, recordAll_append, unclaimed_append, Usages.after]

theorem expandTypes_eq (draft : Draft) {types : List Site} (htypes : ∀ s ∈ types, s.kind = .type) :
    expandMacro setting ⟨draft, { setting.collected.usages with pending := types }⟩ .type =
      (setting.play (types.map (⟨·, []⟩))).map fun es =>
        ⟨draft.recordAll es, { setting.collected.usages with pending := [] }⟩ := by
  have hget : types.filter (fun s => decide (s.kind = .type)) = types :=
    List.filter_eq_self.mpr fun s hs => decide_eq_true (htypes s hs)
  have hrest : types.filter (fun s => decide (s.kind ≠ .type)) = [] :=
    List.filter_eq_nil_iff.mpr fun s hs => by simp [htypes s hs]
  rw [expandMacro_eq .type rfl, Usages.after, Usages.get, Usages.get, take_pending, hget, hrest, List.filter_nil,
    setting.deal_nil]
  rfl

end

namespace Setting

variable (setting : Setting)

def order : List Site :=
  (Macro.expansionOrder.filter (· ≠ .type)).flatMap setting.collected.usages.get

def hands : List Hand :=
  setting.deal setting.order (setting.collected.usages.get .type) ++
    (setting.unclaimed setting.order (setting.collected.usages.get .type)).map (⟨·, []⟩)

end Setting

theorem expansionOrder_eq : Macro.expansionOrder = Macro.expansionOrder.filter (· ≠ .type) ++ [.type] := by decide

/-- An expansion plays the hands that were dealt, and leaves nothing in the queue. -/
theorem expandAll_eq (setting : Setting) :
    expandAll setting = (setting.play setting.hands).map fun es =>
      ⟨Draft.recordAll ⟨setting.source, []⟩ es, { setting.collected.usages with pending := [] }⟩ := by
  have hkinds : ∀ kind : Macro, kind ∉ Macro.expansionOrder.filter (· ≠ .type) ↔ kind = .type := by
    intro kind
    cases kind <;> decide
  have hfront : (Macro.expansionOrder.filter (· ≠ .type)).foldlM (expandMacro setting)
      ⟨⟨setting.source, []⟩, setting.collected.usages⟩ =
      (setting.play (setting.deal setting.order (setting.collected.usages.get .type))).map fun es =>
        ⟨Draft.recordAll ⟨setting.source, []⟩ es, { setting.collected.usages with
          pending := setting.unclaimed setting.order (setting.collected.usages.get .type) }⟩ := by
    rw [expandMacros_eq _ _ (by decide) (by decide) rfl]
    simp only [hkinds]
    rfl
  have hleft : ∀ s ∈ setting.unclaimed setting.order (setting.collected.usages.get .type), s.kind = .type := by
    intro s hs
    exact of_decide_eq_true (List.mem_filter.mp (List.mem_filter.mp hs).1).2
  unfold expandAll
  rw [expansionOrder_eq, List.foldlM_append, hfront, Setting.hands, setting.play_append]
  cases setting.play (setting.deal setting.order (setting.collected.usages.get .type)) with
  | error e => rfl
  | ok first =>
    simp only [Except.map, bind, Except.bind, List.foldlM_cons, List.foldlM_nil, expandTypes_eq _ hleft]
    cases setting.play ((setting.unclaimed setting.order (setting.collected.usages.get .type)).map (⟨·, []⟩)) with
    | error e => rfl
    | ok rest => simp only [pure, Except.pure, recordAll_append]

end ComponentMacros
