import ComponentMacros.Proofs.Coverage
import ComponentMacros.Proofs.Deal
import ComponentMacros.Proofs.Inert

/-!
# Every site is handled once

The ledger of an expansion has one entry for each site: the rule the site was
given to, and the edits that rule made for it. Its edits are those of the
expansion, and its sites are those that were collected, however definitions are
nested and in whatever order they claim the types in their props.
-/

namespace ComponentMacros

/-! ## Lists -/

theorem Setting.deal_perm (setting : Setting) : ∀ sites types : List Site,
    ((setting.deal sites types).flatMap (fun hand => hand.site :: hand.types) ++
      setting.unclaimed sites types).Perm (sites ++ types)
  | [], types => by simp [deal, unclaimed]
  | site :: sites, types => by
    rw [deal, unclaimed_cons, List.flatMap_cons, List.append_assoc, List.cons_append, List.cons_append]
    refine .cons site ?_
    refine ((deal_perm setting sites (types.filter (!setting.claims site ·))).append_left _).trans ?_
    refine (List.perm_append_comm_assoc ..).trans (.append_left sites ?_)
    exact List.filter_append_perm (setting.claims site) types

theorem Usages.get_perm (usages : Usages) : ∀ kinds : List Macro, kinds.Nodup →
    (kinds.flatMap usages.get).Perm (usages.pending.filter fun s => decide (s.kind ∈ kinds))
  | [], _ => by simp
  | kind :: kinds, hnodup => by
    obtain ⟨hkind, hnodup⟩ := List.nodup_cons.mp hnodup
    have hsplit := List.filter_append_perm (fun s : Site => decide (s.kind = kind))
      (usages.pending.filter fun s => decide (s.kind ∈ kind :: kinds))
    have hfirst : (usages.pending.filter fun s => decide (s.kind ∈ kind :: kinds)).filter
        (fun s => decide (s.kind = kind)) = usages.get kind := by
      rw [List.filter_filter, get]
      apply List.filter_congr
      intro s _
      by_cases hs : s.kind = kind <;> simp [hs]
    have hrest : (usages.pending.filter fun s => decide (s.kind ∈ kind :: kinds)).filter
        (fun s => !decide (s.kind = kind)) = usages.pending.filter fun s => decide (s.kind ∈ kinds) := by
      rw [List.filter_filter]
      apply List.filter_congr
      intro s _
      by_cases hs : s.kind = kind <;> simp [hs, hkind]
    rw [hfirst, hrest] at hsplit
    rw [List.flatMap_cons]
    exact ((get_perm usages kinds hnodup).append_left _).trans hsplit

theorem Setting.order_append_types (setting : Setting) : setting.order ++ setting.collected.usages.get .type =
    Macro.expansionOrder.flatMap setting.collected.usages.get := by
  rw [expansionOrder_eq, List.flatMap_append, List.flatMap_singleton]
  rfl

theorem Setting.order_perm (setting : Setting) :
    (setting.order ++ setting.collected.usages.get .type).Perm setting.collected.usages.pending := by
  have hall := setting.collected.usages.get_perm Macro.expansionOrder (by decide)
  have heach : setting.collected.usages.pending.filter (fun s => decide (s.kind ∈ Macro.expansionOrder)) =
      setting.collected.usages.pending := by
    apply List.filter_eq_self.mpr
    intro s _
    cases s.kind <;> decide
  rwa [heach, ← order_append_types] at hall

theorem Setting.mem_order {setting : Setting} {site : Site} :
    site ∈ setting.order ↔ site ∈ setting.collected.usages.pending ∧ site.kind ≠ .type := by
  unfold order Usages.get
  simp only [List.mem_flatMap, List.mem_filter, decide_eq_true_eq]
  constructor
  · rintro ⟨kind, ⟨-, hkind⟩, hmem, rfl⟩
    exact ⟨hmem, hkind⟩
  · rintro ⟨hmem, hkind⟩
    refine ⟨site.kind, ⟨?_, hkind⟩, hmem, rfl⟩
    cases site.kind <;> decide

/-! ## The ledger -/

/-- A site, the macro whose rule it was given to, and what that rule did for it. -/
structure Entry where
  site : Site
  rule : Macro
  edits : List Edit

/-- The entries of all hands: each for its own site, then for the types it takes. -/
def Setting.ledger (setting : Setting) : List Entry :=
  setting.hands.flatMap fun hand =>
    ⟨hand.site, hand.site.kind, (setting.ownEdits hand.site).toOption.getD []⟩ ::
      hand.types.map fun s => ⟨s, hand.site.kind, setting.takenEdits s⟩

section
variable {setting : Setting}

theorem ledger_sites_perm : (setting.ledger.map Entry.site).Perm setting.collected.usages.pending := by
  have hsites : setting.ledger.map Entry.site = setting.hands.flatMap fun hand => hand.site :: hand.types := by
    unfold Setting.ledger
    rw [List.map_flatMap]
    apply List.flatMap_congr
    intro hand _
    simp [Function.comp_def]
  rw [hsites, Setting.hands, List.flatMap_append]
  have hlast : ∀ types : List Site,
      (types.map (Hand.mk · [])).flatMap (fun hand => hand.site :: hand.types) = types := by
    intro types
    induction types with
    | nil => rfl
    | cons s types ih => simpa using ih
  rw [hlast]
  exact (setting.deal_perm _ _).trans setting.order_perm

theorem play_ok : ∀ {hands : List Hand} {es : List Edit}, setting.play hands = .ok es →
    (∀ hand ∈ hands, ∃ own, setting.ownEdits hand.site = .ok own) ∧
      es = hands.flatMap fun hand =>
        (setting.ownEdits hand.site).toOption.getD [] ++ hand.types.flatMap setting.takenEdits
  | [], es, h => by
    cases h
    simp
  | hand :: hands, es, h => by
    rw [Setting.play] at h
    obtain ⟨own, hown, h⟩ := bind_eq_ok h
    obtain ⟨rest, hrest, h⟩ := bind_eq_ok h
    cases h
    obtain ⟨hplayed, rfl⟩ := play_ok hrest
    refine ⟨?_, ?_⟩
    · intro other hother
      rcases List.mem_cons.mp hother with rfl | hother
      · exact ⟨own, hown⟩
      · exact hplayed other hother
    · rw [List.flatMap_cons, hown]
      rfl

theorem ledger_edits : setting.ledger.flatMap Entry.edits = setting.hands.flatMap fun hand =>
    (setting.ownEdits hand.site).toOption.getD [] ++ hand.types.flatMap setting.takenEdits := by
  unfold Setting.ledger
  rw [List.flatMap_assoc]
  apply List.flatMap_congr
  intro hand _
  rw [List.flatMap_cons, List.flatMap_map]

theorem mem_deal : ∀ {sites types : List Site} {hand : Hand}, hand ∈ setting.deal sites types →
    hand.site ∈ sites ∧ ∀ s ∈ hand.types, s ∈ types ∧ setting.claims hand.site s = true
  | [], _, _, h => nomatch h
  | site :: sites, types, hand, h => by
    rw [Setting.deal] at h
    rcases List.mem_cons.mp h with rfl | h
    · exact ⟨List.mem_cons_self .., fun s hs => List.mem_filter.mp hs⟩
    · obtain ⟨hsite, htypes⟩ := mem_deal h
      refine ⟨List.mem_cons_of_mem _ hsite, ?_⟩
      intro s hs
      obtain ⟨hs, hclaims⟩ := htypes s hs
      exact ⟨(List.mem_filter.mp hs).1, hclaims⟩

/-- An entry is for a site that its own rule got, or for a type that a definition took. -/
theorem mem_ledger {es : List Edit} (hplay : setting.play setting.hands = .ok es) {entry : Entry}
    (h : entry ∈ setting.ledger) :
    (entry.rule = entry.site.kind ∧ setting.ownEdits entry.site = .ok entry.edits ∧
      (entry.site.kind = .type → ∀ definition ∈ setting.order, setting.claims definition entry.site = false)) ∨
    (entry.edits = setting.takenEdits entry.site ∧ ∃ definition ∈ setting.order, definition.kind = entry.rule ∧
      setting.claims definition entry.site = true) := by
  obtain ⟨hand, hhand, hentry⟩ := List.mem_flatMap.mp h
  rcases List.mem_cons.mp hentry with rfl | htaken
  · obtain ⟨own, hown⟩ := (play_ok hplay).1 hand hhand
    refine Or.inl ⟨rfl, by rw [hown]; rfl, fun htype => ?_⟩
    rcases List.mem_append.mp hhand with hdealt | hleft
    · exact absurd htype (Setting.mem_order.mp (mem_deal hdealt).1).2
    · obtain ⟨s, hs, rfl⟩ := List.mem_map.mp hleft
      intro definition hdefinition
      have hnone := (List.mem_filter.mp hs).2
      rw [Bool.not_eq_true', List.any_eq_false] at hnone
      exact Bool.eq_false_of_not_eq_true (hnone definition hdefinition)
  · obtain ⟨s, hs, rfl⟩ := List.mem_map.mp htaken
    rcases List.mem_append.mp hhand with hdealt | hleft
    · obtain ⟨hsite, htypes⟩ := mem_deal hdealt
      exact Or.inr ⟨rfl, hand.site, hsite, rfl, (htypes s hs).2⟩
    · obtain ⟨t, -, rfl⟩ := List.mem_map.mp hleft
      cases hs

end

/-! ## Types -/

def Collected.inProps (collected : Collected) (site : Site) : Bool :=
  collected.usages.pending.any fun definition => definition.props?.any fun props => site.isWithin props.span

def Collected.firstTypeName? (collected : Collected) : Option String :=
  (collected.usages.get .type).head?.map (·.name)

def Tree.runtimeText (call : Tree) : String :=
  match call.typeArguments?.bind (·.children.head?) with
  | some type => runtimeType type
  | none => erasedText

section
variable {options : Options} {program : Tree} {collected : Collected}

theorem typeAlias_foldl_push : ∀ (sites : List Site) (usages : Usages),
    (sites.foldl Usages.push usages).typeAlias =
      usages.typeAlias.or ((sites.filter (·.kind = .type)).head?.map (·.name))
  | [], usages => by simp
  | site :: sites, usages => by
    rw [List.foldl_cons, typeAlias_foldl_push sites]
    by_cases hkind : site.kind = .type
    · simp [Usages.push, hkind]
    · simp [Usages.push, hkind]

theorem collect?_typeAlias (h : collect? options program = some collected) :
    collected.usages.typeAlias = collected.firstTypeName? := by
  unfold collect? at h
  simp only [Option.ite_none_left_eq_some, Option.some.injEq] at h
  obtain ⟨-, rfl⟩ := h
  simp only [Collected.firstTypeName?, Usages.get, pending_foldl_push, typeAlias_foldl_push, Usages.empty,
    List.nil_append, Option.none_or]

end

section
variable {setting : Setting}

/-- Some definition claims a type exactly if the type is in props and, in development, is called by
the first name of the macro. -/
theorem claimed_iff {site : Site} (hkind : site.kind = .type) :
    (∃ definition ∈ setting.order, setting.claims definition site = true) ↔
      setting.collected.inProps site = true ∧ (setting.options.production = true ∨
        some site.name = setting.collected.usages.typeAlias ∧ site.call?.isSome = true) := by
  simp only [Setting.claims, Collected.inProps, hkind, decide_true, Bool.true_and, Bool.and_eq_true,
    Bool.or_eq_true, List.any_eq_true, Option.any_eq_true, decide_eq_true_eq]
  constructor
  · rintro ⟨definition, hmem, props, hprops, hin, hmode⟩
    exact ⟨⟨definition, (Setting.mem_order.mp hmem).1, props, hprops, hin⟩, hmode⟩
  · rintro ⟨⟨definition, hmem, props, hprops, hin⟩, hmode⟩
    refine ⟨definition, Setting.mem_order.mpr ⟨hmem, ?_⟩, props, hprops, hin, hmode⟩
    -- what has props is no type
    intro htype
    rw [Site.props?_eq_none (by simp [htype]) (by simp [htype])] at hprops
    cases hprops

theorem ownEdits_type {site : Site} (hkind : site.kind = .type) : setting.ownEdits site = eraseType site := by
  unfold Setting.ownEdits expandSite eraseType
  simp only [hkind]
  cases site.call? with
  | none => rfl
  | some call =>
    have hself := Edit.overwrite_selects call.span erasedText (.overwrite call.span erasedText)
    simp [Functor.map, Except.map, Progress.record, Setting.alone, recordAll_eq, hself]

theorem annotate_eq {site : Site} {call : Tree} (hcall : site.call? = some call) :
    annotate site = [.overwrite call.span call.runtimeText] := by
  simp only [annotate, hcall, Site.typeArguments?, Option.bind_some, Tree.runtimeText]
  cases call.typeArguments?.bind (·.children.head?) <;> rfl

/-- Every type gets what its place asks for, whichever definition takes it. -/
theorem type_edits {es : List Edit} (hplay : setting.play setting.hands = .ok es)
    (halias : setting.collected.usages.typeAlias = setting.collected.firstTypeName?) {entry : Entry}
    (h : entry ∈ setting.ledger) (hkind : entry.site.kind = .type) :
    (setting.options.mode = .development → ∃ call, entry.site.call? = some call ∧
      entry.edits = [.overwrite call.span
        (if some entry.site.name = setting.collected.firstTypeName? ∧ setting.collected.inProps entry.site = true
          then call.runtimeText else erasedText)]) ∧
    (setting.options.mode = .production → if setting.collected.inProps entry.site then entry.edits = [] else
      ∃ call, entry.site.call? = some call ∧ entry.edits = [.overwrite call.span erasedText]) := by
  have hclaimed := @claimed_iff setting _ hkind
  rw [halias] at hclaimed
  rcases mem_ledger hplay h with ⟨-, hown, hfree⟩ | ⟨hedits, definition, hmem, -, hclaims⟩
  · -- the rule for types got it, so nobody claimed it and it is called
    have hnot : ¬ ∃ definition ∈ setting.order, setting.claims definition entry.site = true := by
      rintro ⟨definition, hmem, hclaims⟩
      rw [hfree hkind definition hmem] at hclaims
      cases hclaims
    rw [hclaimed] at hnot
    rw [ownEdits_type hkind, eraseType] at hown
    cases hcall : entry.site.call? with
    | none => rw [hcall] at hown; cases hown
    | some call =>
      rw [hcall, Except.ok.injEq] at hown
      constructor
      · intro hmode
        refine ⟨call, rfl, ?_⟩
        rw [← hown, if_neg]
        rintro ⟨hname, hin⟩
        exact hnot ⟨hin, Or.inr ⟨hname, by rw [hcall]; rfl⟩⟩
      · intro hmode
        have hout : setting.collected.inProps entry.site ≠ true :=
          fun hin => hnot ⟨hin, Or.inl (decide_eq_true hmode)⟩
        rw [if_neg hout]
        exact ⟨call, rfl, hown.symm⟩
  · obtain ⟨hin, hhow⟩ := hclaimed.mp ⟨definition, hmem, hclaims⟩
    constructor
    · intro hmode
      have hdev : setting.options.production = false := by simp [Options.production, hmode]
      obtain ⟨hname, hsome⟩ := hhow.resolve_left (by simp [hdev])
      obtain ⟨call, hcall⟩ := Option.isSome_iff_exists.mp hsome
      refine ⟨call, hcall, ?_⟩
      rw [hedits, Setting.takenEdits, hdev, if_neg Bool.false_ne_true, annotate_eq hcall, if_pos ⟨hname, hin⟩]
    · intro hmode
      have hprod : setting.options.production = true := decide_eq_true hmode
      rw [if_pos hin, hedits, Setting.takenEdits, if_pos hprod]

theorem type_edits_text {es : List Edit} (hplay : setting.play setting.hands = .ok es) {entry : Entry}
    (h : entry ∈ setting.ledger) (hkind : entry.site.kind = .type) :
    ∀ e ∈ entry.edits, ∃ range text, e = .overwrite range text := by
  intro e he
  rcases mem_ledger hplay h with ⟨-, hown, -⟩ | ⟨hedits, -⟩
  · rw [ownEdits_type hkind, eraseType] at hown
    split at hown
    · rw [Except.ok.injEq] at hown
      rw [← hown] at he
      exact ⟨_, _, List.mem_singleton.mp he⟩
    · cases hown
  · rw [hedits, Setting.takenEdits] at he
    split at he
    · cases he
    · unfold annotate at he
      split at he
      · cases he
      · exact ⟨_, _, List.mem_singleton.mp he⟩

end

/-! ## The whole expansion -/

theorem transform_usages {options : Options} {text : String} {program : Tree} {collected : Collected}
    {r : Transformed}
    (hparse : parse options.dialect text.toList = some program)
    (hcollect : collect? options program = some collected)
    (h : transform options text = .ok r) (hr : r.changed = true) : r.usages = collected.usages.pending.length := by
  unfold transform at h
  simp only [hparse, hcollect] at h
  split at h
  · cases h; cases hr
  · split at h
    · cases h
    · split at h
      · cases h
      · cases h; rfl

/-- Every site that was collected is given to exactly one rule, which leaves nothing queued. A type is
given to its own rule or to a definition that has it in its props. In development its call is replaced
by a runtime type if it is in props and called by the first name of the macro, and erased otherwise. In
production it is erased unless it is in props, where it needs no edit. Both modes count the same sites. -/
theorem sites_handled_once {options : Options} {text : String} {program : Tree} {collected : Collected}
    {progress : Progress} (hparse : parse options.dialect text.toList = some program)
    (hcollect : collect? options program = some collected)
    (hrun : expandAll ⟨options, text.toList, collected⟩ = .ok progress) :
    let setting : Setting := ⟨options, text.toList, collected⟩
    progress.usages.pending = [] ∧
    (setting.ledger.map Entry.site).Perm collected.usages.pending ∧
    progress.draft = Draft.recordAll ⟨text.toList, []⟩ (setting.ledger.flatMap Entry.edits) ∧
    (∀ entry ∈ setting.ledger,
      entry.rule = entry.site.kind ∧ setting.ownEdits entry.site = .ok entry.edits ∨
      entry.site.kind = .type ∧ ∃ definition ∈ collected.usages.pending, definition.kind = entry.rule ∧
        ∃ props, definition.props? = some props ∧ entry.site.isWithin props.span = true) ∧
    (∀ entry ∈ setting.ledger, entry.site.kind = .type →
      (options.mode = .development → ∃ call, entry.site.call? = some call ∧
        entry.edits = [.overwrite call.span
          (if some entry.site.name = collected.firstTypeName? ∧ collected.inProps entry.site = true
            then call.runtimeText else erasedText)]) ∧
      (options.mode = .production → if collected.inProps entry.site then entry.edits = [] else
        ∃ call, entry.site.call? = some call ∧ entry.edits = [.overwrite call.span erasedText]) ∧
      ∀ e ∈ entry.edits, e ∈ progress.draft.edits) ∧
    ∀ mode r, transform { options with mode } text = .ok r → r.changed = true →
      r.usages = collected.usages.pending.length := by
  intro setting
  rw [expandAll_eq] at hrun
  cases hplay : setting.play setting.hands with
  | error e => rw [hplay] at hrun; cases hrun
  | ok es =>
    rw [hplay] at hrun
    cases hrun
    have hedits := (play_ok hplay).2
    rw [← ledger_edits] at hedits
    refine ⟨rfl, ledger_sites_perm, by rw [← hedits], ?_, ?_, ?_⟩
    · intro entry hentry
      rcases mem_ledger hplay hentry with ⟨hrule, hown, -⟩ | ⟨-, definition, hmem, hkind, hclaims⟩
      · exact Or.inl ⟨hrule, hown⟩
      · have hin := (Bool.and_eq_true_iff.mp hclaims).2
        obtain ⟨props, hprops, hin⟩ := (Option.any_eq_true _ _).mp hin
        exact Or.inr ⟨setting.claims_type hclaims, definition, (Setting.mem_order.mp hmem).1, hkind, props, hprops,
          (Bool.and_eq_true_iff.mp hin).1⟩
    · intro entry hentry hkind
      obtain ⟨hdevelopment, hproduction⟩ := type_edits hplay (collect?_typeAlias hcollect) hentry hkind
      refine ⟨hdevelopment, hproduction, ?_⟩
      intro e he
      obtain ⟨range, text, rfl⟩ := type_edits_text hplay hentry hkind e he
      refine mem_recordAll.mpr (Or.inr ⟨?_, Edit.overwrite_selects ..⟩)
      rw [hedits]
      exact List.mem_flatMap.mpr ⟨entry, hentry, he⟩
    · intro mode r hr hchanged
      exact @transform_usages { options with mode } _ _ _ _ hparse hcollect hr hchanged

def ledgerSample : String :=
  "import \x7b component as c, type as t, type as u \x7d from 'm.macro';\n" ++
    "c(\x7b props: \x7b a: c(\x7b props: \x7b b: t<string>(), d: u<number>() \x7d \x7d) \x7d \x7d);\nt();"

theorem sites_handled_once_nested : ∃ program collected progress,
    parse (Options.dialect {}) ledgerSample.toList = some program ∧ collect? {} program = some collected ∧
    expandAll ⟨{}, ledgerSample.toList, collected⟩ = .ok progress ∧
    collected.usages.pending.length = 5 ∧ progress.usages.pending = [] ∧
    ((Setting.ledger ⟨{}, ledgerSample.toList, collected⟩).map Entry.site).Perm collected.usages.pending ∧
    ∀ mode r, transform { mode } ledgerSample = .ok r → r.changed = true → r.usages = 5 := by
  have hsample : (parse (Options.dialect {}) ledgerSample.toList).any (fun program => (collect? {} program).any
      fun collected => (expandAll ⟨{}, ledgerSample.toList, collected⟩).toOption.isSome &&
        decide (collected.usages.pending.length = 5)) = true := by decide +kernel
  simp only [Option.any_eq_true, Bool.and_eq_true, decide_eq_true_eq] at hsample
  obtain ⟨program, hparse, collected, hcollect, hok, hfive⟩ := hsample
  obtain ⟨progress, hrun⟩ := Option.isSome_iff_exists.mp hok
  have hrun := toOption_eq_some hrun
  obtain ⟨hempty, hperm, -, -, -, hcount⟩ := sites_handled_once hparse hcollect hrun
  exact ⟨program, collected, progress, hparse, hcollect, hrun, hfive, hempty, hperm, hfive ▸ hcount⟩

end ComponentMacros
