import ComponentMacros.Proofs.InsetRules
import ComponentMacros.Proofs.Naming
import ComponentMacros.Proofs.Placement

/-!
# Expansions in both texts

The rule of every site but that of the call itself records in the other text what
it records in this one, moved. So the hands that are dealt are the same, and the
edits of the two expansions differ only where the call is expanded.
-/

namespace ComponentMacros

def bareSetting (options : Options) (pre body post : List Char) (collected : Collected) : Setting :=
  ⟨options, bareText pre body post, collected⟩

def literalSetting (options : Options) (pre body post : List Char) (collected : Collected) (fn : Tree) : Setting :=
  ⟨options, literalText pre body post, collected.inset fn⟩

theorem insetResult_bind {α β α' β' : Type} {hole : Span} {f : α → α'} {g : β → β'} (result : Except UsageError α)
    (k : α → Except UsageError β) (k' : α' → Except UsageError β')
    (hk : ∀ a, result = .ok a → k' (f a) = insetResult hole g (k a)) :
    (insetResult hole f result >>= k') = insetResult hole g (result >>= k) := by
  cases result with
  | error e => rfl
  | ok a => exact hk a rfl

def soleObject? : List Tree → Option Tree
  | [argument] => if argument.stripParens.isObject then some argument.stripParens else none
  | _ => none

def Hand.inset (fn : Tree) (hand : Hand) : Hand :=
  ⟨hand.site.inset fn, hand.types.map (·.inset fn)⟩

theorem ofObject_object (call object : Tree) : (Definition.ofObject call object).object = some object := by
  unfold Definition.ofObject
  split <;> rfl

def memberText (key value : String) : String := s!"{key}: {value}, "

def memberTexts (options : Options) (site : Site) (call : Tree) : List String :=
  (if options.production then []
    else (definitionName? options site ⟨call, none, 0, true⟩).toList.map fun name =>
      memberText "name" (options.quote name)) ++
    [memberText "functional" "true"]

def unwrapLiteral (call hole : Span) : List Edit :=
  [.remove call.start hole.start, .remove (hole.stop + 12) (call.stop + 12)]

theorem newMembers_eq (options : Options) (site : Site) (definition : Definition)
    (hmembers : definition.hasMembers = true) (hname : definition.hasMember "name" = false) :
    (giveName options site definition).1 ++
      [((giveName options site definition).2.unshift "functional" "true").1] =
      (memberTexts options site definition.call).map (Edit.prepend definition.insertAt) := by
  have hsame : definitionName? options site definition = definitionName? options site ⟨definition.call, none, 0,
    true⟩ := rfl
  have hunshift : ∀ key value, (definition.unshift key value).1 =
      .prepend definition.insertAt (memberText key value) := by
    intro key value
    rw [Definition.unshift, hmembers]
    rfl
  unfold giveName memberTexts
  rw [hname, Bool.or_false, hsame]
  cases options.production with
  | true => simp [hunshift]
  | false =>
    cases definitionName? options site ⟨definition.call, none, 0, true⟩ with
    | none => simp [hunshift]
    | some name => simp [hunshift]; rfl

theorem filter_quiet {es : List Edit} (h : ∀ e ∈ es, e.selects e = false) :
    (es.filter fun e => !e.selects e) = es :=
  List.filter_eq_self.mpr fun e he => by simp [h e he]

theorem injectFactory_inserts {isTaken : Span → Bool} {site : Site} {render : Tree} {es : List Edit}
    (h : injectFactory isTaken site render = .ok es) :
    ∀ e ∈ es, ∃ pos text, e = .prepend pos text ∨ e = .append pos text := by
  have hlist : ∀ list : Tree, ∀ e ∈ prependFactory list, ∃ pos text, e = .prepend pos text ∨
      e = .append pos text := by
    intro list e he
    unfold prependFactory at he
    split at he
    · exact ⟨_, _, Or.inr (List.mem_singleton.mp he)⟩
    · split at he
      · rcases List.mem_cons.mp he with he | he
        · exact ⟨_, _, Or.inl he⟩
        · exact ⟨_, _, Or.inr (List.mem_singleton.mp he)⟩
      · exact ⟨_, _, Or.inl (List.mem_singleton.mp he)⟩
    · exact ⟨_, _, Or.inl (List.mem_singleton.mp he)⟩
    · exact ⟨_, _, Or.inl (List.mem_singleton.mp he)⟩
  unfold injectFactory at h
  dsimp only at h
  split at h
  · cases h
    nofun
  · split at h
    · cases h
      nofun
    · split at h <;> cases h
      exact hlist _

theorem injectFactory_selects {isTaken : Span → Bool} {site : Site} {render : Tree} {es : List Edit}
    (h : injectFactory isTaken site render = .ok es) : ∀ e ∈ es, e.selects e = false := by
  intro e he
  obtain ⟨pos, text, rfl | rfl⟩ := injectFactory_inserts h e he
  · exact Edit.prepend_selects ..
  · exact Edit.append_selects ..

theorem expansion_eq (setting : Setting) : expansion setting = (setting.play setting.hands).map fun es =>
    ⟨setting.source, (es ++ setting.collected.imports.map (removeImport setting.source)).filter fun e =>
      !e.selects e⟩ := by
  unfold expansion
  rw [expandAll_eq]
  cases setting.play setting.hands with
  | error e => rfl
  | ok es =>
    simp only [Except.map, bind, Except.bind, recordAll_eq, List.nil_append, List.filter_append]
    rfl

/-! ## Line breaks -/

def lineBreakWidth : List Char → Nat
  | '\r' :: '\n' :: _ => 2
  | '\r' :: _ | '\n' :: _ => 1
  | _ => 0

theorem lineBreakEnd_eq {text rest : List Char} {pos : Nat} (h : dropBytes text pos = some rest) :
    lineBreakEnd text pos = pos + lineBreakWidth rest := by
  unfold lineBreakEnd lineBreakWidth
  rw [h]
  split <;> simp_all

theorem lineBreakWidth_append {segment rest : List Char} (h : rest.head? ∉ [some '\r', some '\n']) :
    lineBreakWidth (segment ++ rest) = lineBreakWidth segment := by
  match segment with
  | [] =>
    match rest with
    | [] => rfl
    | c :: cs => unfold lineBreakWidth; split <;> simp_all
  | [c] =>
    match rest with
    | [] => rfl
    | d :: ds => unfold lineBreakWidth; split <;> simp_all
  | c :: d :: more =>
    by_cases hr : c = '\r' <;> by_cases hn : d = '\n' <;> by_cases hl : c = '\n' <;>
      simp [lineBreakWidth, hr, hn, hl]

theorem lineBreakEnd_level {pre body post : List Char} {lo hi : Nat} (hlevel : (holeOf pre body).Level lo hi)
    (hfits : Span.Fits (bareText pre body post) ⟨lo, hi⟩)
    (hline : charAt (bareText pre body post) hi ∉ [some '\r', some '\n'])
    (hline' : charAt (literalText pre body post) ((holeOf pre body).inset hi) ∉ [some '\r', some '\n']) :
    lineBreakEnd (literalText pre body post) ((holeOf pre body).inset lo) =
      (holeOf pre body).inset (lineBreakEnd (bareText pre body post) lo) := by
  obtain ⟨segment, rest, rest', hd, hd', hlength⟩ := dropBytes_inset hlevel hfits
  have hbound := lineBreakEnd_le hfits.2.1 hfits.1 hfits.2.2 hline
  have hhere := hlevel.inset_add (k := byteLength segment) (Nat.le_add_right ..) (by omega)
  rw [hlength] at hhere
  -- what follows the segment starts no line break, in either text
  have hnext : ∀ {text tail : List Char} {pos : Nat}, dropBytes text pos = some (segment ++ tail) →
      charAt text (pos + byteLength segment) = tail.head? := by
    intro text tail pos h
    have htail := dropBytes_append segment tail 0
    rw [Nat.add_zero, dropBytes_zero] at htail
    rw [charAt, dropBytes_add h, htail]
    rfl
  rw [← hlength, hnext hd] at hline
  rw [hhere, hnext hd'] at hline'
  rw [lineBreakEnd_eq hd, lineBreakWidth_append hline] at hbound ⊢
  rw [lineBreakEnd_eq hd', lineBreakWidth_append hline', hlevel.inset_add (Nat.le_add_right ..) hbound]

/-! ## The order of sites -/

/-- Behind a functional component come no other definitions but functional components further on in the text. -/
def Site.Precedes (a b : Site) : Prop :=
  a.kind = .functional → b.kind ≠ .component ∧ (b.kind = .functional → a.span.stop ≤ b.span.start)

theorem order_precedes {setting : Setting} {lo hi : Nat}
    (h : SitesBetween lo hi setting.collected.usages.pending) :
    setting.order.Pairwise Site.Precedes := by
  have hget : ∀ {kind : Macro} {s : Site}, s ∈ setting.collected.usages.get kind → s.kind = kind :=
    fun hs => of_decide_eq_true (List.mem_filter.mp hs).2
  have vacuous : ∀ {sites : List Site}, (∀ s ∈ sites, s.kind ≠ .functional) → sites.Pairwise Site.Precedes :=
    fun hno => List.pairwise_of_forall_mem_list fun a ha b _ hkind => absurd hkind (hno a ha)
  have hlater : ∀ s ∈ [Macro.events, .states, .scopedSlots, .injections].flatMap setting.collected.usages.get,
      s.kind ≠ .component ∧ s.kind ≠ .functional := by
    intro s hs
    obtain ⟨kind, hkind, hs⟩ := List.mem_flatMap.mp hs
    rw [hget hs]
    simp only [List.mem_cons, List.not_mem_nil, or_false] at hkind
    rcases hkind with rfl | rfl | rfl | rfl <;> decide
  have horder : setting.order = setting.collected.usages.get .component ++
    (setting.collected.usages.get .functional ++
      [Macro.events, .states, .scopedSlots, .injections].flatMap setting.collected.usages.get) := rfl
  rw [horder, List.pairwise_append, List.pairwise_append]
  refine ⟨vacuous fun s hs => ?_, ⟨?_, vacuous fun s hs => (hlater s hs).2, ?_⟩, ?_⟩
  · rw [hget hs]
    decide
  · refine (h.1.filter _).imp_of_mem fun {a b} _ hb hab _ => ⟨?_, fun _ => hab⟩
    rw [hget hb]
    decide
  · intro a _ b hb _
    exact ⟨(hlater b hb).1, fun hk => absurd hk (hlater b hb).2⟩
  · intro a ha b _ hkind
    rw [hget ha] at hkind
    cases hkind

theorem hands_precede (setting : Setting) {lo hi : Nat} (h : SitesBetween lo hi setting.collected.usages.pending) :
    (setting.hands.map Hand.site).Pairwise Site.Precedes := by
  rw [hands_sites, List.pairwise_append]
  have htype : ∀ s ∈ setting.unclaimed setting.order (setting.collected.usages.get .type), s.kind = .type :=
    fun s hs => of_decide_eq_true (List.mem_filter.mp (List.mem_filter.mp hs).1).2
  refine ⟨order_precedes h, List.pairwise_of_forall_mem_list fun a ha b _ hkind => ?_, fun a _ b hb _ => ?_⟩
  · rw [htype a ha] at hkind
    cases hkind
  · rw [htype b hb]
    exact ⟨nofun, nofun⟩

theorem hands_spans (setting : Setting) {lo hi : Nat} (h : SitesBetween lo hi setting.collected.usages.pending) :
    (setting.hands.map (·.site.span)).Nodup := by
  have hall := (setting.order_perm.map Site.span).nodup_iff.mpr h.nodup_spans
  have hsub : (setting.order ++ setting.unclaimed setting.order (setting.collected.usages.get .type)).Sublist
      (setting.order ++ setting.collected.usages.get .type) := (List.Sublist.refl _).append List.filter_sublist
  have hspans := hall.sublist (hsub.map Site.span)
  rwa [← hands_sites, List.map_map] at hspans

/-- The edit is made for the site, by its own rule or by a definition that takes it. -/
def Setting.Makes (setting : Setting) (site : Site) (e : Edit) : Prop :=
  (∃ own, setting.ownEdits site = .ok own ∧ e ∈ own) ∨ e ∈ setting.takenEdits site

theorem play_makes {setting : Setting} {hands : List Hand} {es : List Edit}
    (h : setting.play hands = .ok es) {e : Edit}
    (he : e ∈ es) : ∃ hand ∈ hands, ∃ s, (s = hand.site ∨ s ∈ hand.types) ∧ setting.Makes s e := by
  obtain ⟨hplayed, rfl⟩ := play_ok h
  obtain ⟨hand, hhand, he⟩ := List.mem_flatMap.mp he
  obtain ⟨own, hown⟩ := hplayed hand hhand
  rw [hown] at he
  rcases List.mem_append.mp he with he | he
  · exact ⟨hand, hhand, hand.site, Or.inl rfl, Or.inl ⟨own, hown, he⟩⟩
  · obtain ⟨s, hs, he⟩ := List.mem_flatMap.mp he
    exact ⟨hand, hhand, s, Or.inr hs, Or.inr he⟩

theorem hands_mem {setting : Setting} {hand : Hand} (h : hand ∈ setting.hands) :
    hand.site ∈ setting.collected.usages.pending ∧
      ∀ s ∈ hand.types, s ∈ setting.collected.usages.pending ∧ setting.claims hand.site s = true := by
  rcases List.mem_append.mp h with h | h
  · obtain ⟨hsite, htypes⟩ := mem_deal h
    exact ⟨(Setting.mem_order.mp hsite).1, fun s hs => ⟨(List.mem_filter.mp (htypes s hs).1).1, (htypes s hs).2⟩⟩
  · obtain ⟨s, hs, rfl⟩ := List.mem_map.mp h
    exact ⟨(List.mem_filter.mp (List.mem_filter.mp hs).1).1, nofun⟩

def Setting.IsOther (setting : Setting) (call : Tree) (hand : Hand) : Prop :=
  hand ∈ setting.hands ∧ hand.site.call? ≠ some call

namespace Shorthand

section
variable {pre body post : List Char} {program call fn : Tree} (h : Shorthand pre body post program call fn)
  (options : Options) (collected : Collected) {site : Site}
include h

omit h in
theorem isFactoryTaken_inset (span : Span) :
    (literalSetting options pre body post collected fn).isFactoryTaken (fn.span.insetSpan span) =
      (bareSetting options pre body post collected).isFactoryTaken span := by
  have hscope : (collected.inset fn).functionScope? (fn.span.insetSpan span) = collected.functionScope? span := by
    unfold Collected.functionScope? Collected.inset
    rw [List.find?_map, Option.map_map]
    simp [Function.comp_def]
  simp only [Setting.isFactoryTaken, literalSetting, bareSetting, hscope]
  rfl

theorem finishDefinition_inset (hs : site.In program) {definition : Definition} (hd : definition.In program)
    (hk : ∀ object, definition.object = some object → object.isObject = true)
    (houtside : options.production = true → ∀ props, definition.props? = some props →
      props.span.contains call.span = false)
    (functional : Bool) (outer : List Edit) :
    (finishDefinition (literalSetting options pre body post collected fn) (site.inset fn)
      (definition.inset fn) functional
      ((literalSetting options pre body post collected fn).alone.record
        (outer.map (Edit.inset fn.span)))).draft.edits =
      (finishDefinition (bareSetting options pre body post collected) site definition functional
        ((bareSetting options pre body post collected).alone.record outer)).draft.edits.map
          (Edit.inset fn.span) := by
  rw [finishDefinition_alone, finishDefinition_alone]
  simp only [literalSetting, bareSetting]
  rw [h.giveName_inset hs, h.expandProps_inset options hd hk houtside, Definition.unshift_inset, ← recorded_inset]
  congr 1
  cases functional <;> simp

theorem closing_inset {function list : Tree} (hf : function ∈ program.nodes)
    (hlist : function.parameterList? = some list)
    (hnone : list.plainParameters = []) :
      fn.span.inset (list.span.stop - 1) = fn.span.inset list.span.stop - 1 := by
  obtain ⟨hmem, hk⟩ := parameterList?_mem hlist
  have hl := Tree.nodes_trans hf (Tree.child_mem_nodes hmem)
  rcases h.layout.parameters hl hk with henc | hbare
  · exact (h.edges_inset hl henc (by simp [hk]) (by simp [Tree.isCall, hk])).2
  · obtain ⟨c, hc, heq⟩ := List.map_eq_singleton_iff.mp hbare
    have hpar : c.kind = .parameter := congrArg Prod.fst heq
    simp [Tree.plainParameters, hc, hpar] at hnone

theorem factory_inset (site : Site) {render : Tree} (hr : render ∈ program.nodes) {render' : Tree}
    (hrender : render'.stripParens = fn.inset render.stripParens) :
    injectFactory (literalSetting options pre body post collected fn).isFactoryTaken (site.inset fn) render' =
      insetResult fn.span (List.map (Edit.inset fn.span))
        (injectFactory (bareSetting options pre body post collected).isFactoryTaken site render) :=
  injectFactory_inset h.isFunction (isFactoryTaken_inset options collected) site hrender fun _ hlist hnone =>
    h.closing_inset (Tree.nodes_trans hr render.stripParens_mem) hlist hnone

/-! ## Sites that define components -/

theorem argument_ne (hs : site.In program) (hother : site.call? ≠ some call) {c argument : Tree}
    (hc : definitionCall site = .ok (c, argument)) : argument.stripParens ≠ fn := by
  intro hstrip
  obtain ⟨hmem, hcall, hargs, -⟩ := definitionCall_mem hs hc
  rcases h.holder hmem (Tree.arguments_mem hargs) hstrip with ⟨hk, -⟩ | rfl
  · obtain ⟨o, ho⟩ := Tree.isCall_iff.mp hcall
    rw [ho] at hk
    cases hk
  · exact hother (definitionCall_spec hc).1

theorem expandComponent_inset (hs : site.In program) (hother : site.call? ≠ some call)
    (hkind : site.kind = .component)
    (houtside : options.production = true → ∀ props, site.props? = some props →
      props.span.contains call.span = false) :
    (expandComponent (literalSetting options pre body post collected fn) (site.inset fn)
      (literalSetting options pre body post collected fn).alone).map (·.draft.edits) =
      insetResult fn.span (List.map (Edit.inset fn.span))
        ((expandComponent (bareSetting options pre body post collected) site
        (bareSetting options pre body post collected).alone).map (·.draft.edits)) := by
  unfold expandComponent
  rw [h.definitionCall_inset hs]
  cases hcall : definitionCall site with
  | error e => rfl
  | ok found =>
    obtain ⟨c, argument⟩ := found
    have hne := h.argument_ne hs hother hcall
    have hstrip : (fn.insetPart argument).stripParens = fn.inset argument.stripParens := by
      rw [Tree.insetPart_stripParens h.isFunction, Tree.insetPart_of_ne hne]
    obtain ⟨hmem, -, hargs, hin⟩ := definitionCall_mem hs hcall
    by_cases hobject : argument.stripParens.isObject = true
    · have hprops := ofObject_props? (Or.inl hkind) hcall hobject
      have hfinish :=
        h.finishDefinition_inset options collected hs (@ofObject_in program c argument.stripParens hin hobject)
        (fun o ho => by
            rw [← Option.some.inj ((ofObject_object c argument.stripParens).symm.trans ho)]; exact hobject)
        (by rw [hprops]; exact houtside) false (Definition.unwrap c argument.stripParens)
      rw [← h.ofObject_inset hin hobject, ← unwrap_inset] at hfinish
      simp only [insetResult, Prod.map_apply, bind, Except.bind, hstrip, Tree.isObject_inset, hobject,
        ite_true, pure, Except.pure, Except.map]
      rw [hfinish]
    · simp only [insetResult, Prod.map_apply, bind, Except.bind, hstrip, Tree.isObject_inset, hobject,
        Tree.inset_span]
      rfl

theorem expandFunctional_inset (hs : site.In program) (hother : site.call? ≠ some call)
    (hkind : site.kind = .functional)
    (houtside : options.production = true → ∀ props, site.props? = some props →
      props.span.contains call.span = false) :
    (expandFunctional (literalSetting options pre body post collected fn) (site.inset fn)
      (literalSetting options pre body post collected fn).alone).map (·.draft.edits) =
      insetResult fn.span (List.map (Edit.inset fn.span))
        ((expandFunctional (bareSetting options pre body post collected) site
        (bareSetting options pre body post collected).alone).map (·.draft.edits)) := by
  unfold expandFunctional
  rw [h.definitionCall_inset hs]
  cases hcall : definitionCall site with
  | error e => rfl
  | ok found =>
    obtain ⟨c, argument⟩ := found
    have hne := h.argument_ne hs hother hcall
    have hstrip : (fn.insetPart argument).stripParens = fn.inset argument.stripParens := by
      rw [Tree.insetPart_stripParens h.isFunction, Tree.insetPart_of_ne hne]
    obtain ⟨hmem, -, hargs, hin⟩ := definitionCall_mem hs hcall
    simp only [insetResult, Prod.map_apply, bind, Except.bind, hstrip, Tree.isObject_inset,
      parameterList?_inset h.isFunction, Option.isSome_map, Tree.inset_span]
    by_cases hfunction : argument.stripParens.parameterList?.isSome = true
    · have hagain : (fn.inset argument.stripParens).stripParens = fn.inset argument.stripParens.stripParens := by
        rw [← hstrip, Tree.stripParens_stripParens, hstrip, Tree.stripParens_stripParens]
      have hfactory := h.factory_inset options collected site hin hagain
      rw [if_pos hfunction, if_pos hfunction, hfactory]
      cases injectFactory (bareSetting options pre body post collected).isFactoryTaken site
        argument.stripParens with
      | error e => rfl
      | ok factory =>
        have hprops := function_props? hcall hfunction argument.stripParens.span.start
        have hmade : Definition.In program ⟨c, none, argument.stripParens.span.start, true⟩ :=
          ⟨.start hin, fun _ ho => nomatch ho⟩
        have hfinish := h.finishDefinition_inset options collected hs hmade (fun _ ho => nomatch ho)
          (by rw [hprops]; exact houtside) true (factory ++ wrapRender c.span argument.stripParens.span)
        have hwrap : (wrapRender c.span argument.stripParens.span).map (Edit.inset fn.span) =
            wrapRender (fn.span.insetSpan c.span) (fn.span.insetSpan argument.stripParens.span) := by
              simp [wrapRender, Span.insetSpan]
        rw [List.map_append, hwrap] at hfinish
        exact congrArg Except.ok hfinish
    · rw [if_neg hfunction, if_neg hfunction]
      by_cases hobject : argument.stripParens.isObject = true
      · rw [if_pos hobject, if_pos hobject, h.memberValue_inset hin hobject]
        cases hvalue : (argument.stripParens.findMember? "render").bind (·.2.value?) with
        | none => rfl
        | some render =>
          obtain ⟨⟨index, property⟩, hfind, hv⟩ := Option.bind_eq_some_iff.mp hvalue
          have hprop :=
            Tree.nodes_trans hin (Tree.child_mem_nodes (List.mem_of_getElem? (findMember?_mem hfind).1))
          have hr := Tree.nodes_trans hprop (Tree.child_mem_nodes (Tree.value?_mem hv))
          have hrender := h.stripValue_inset hprop hv
          have hfactory := h.factory_inset options collected site hr hrender
          dsimp only [Option.map_some]
          rw [hfactory]
          cases injectFactory (bareSetting options pre body post collected).isFactoryTaken site render with
          | error e => rfl
          | ok factory =>
            have hprops := ofObject_props? (Or.inr hkind) hcall hobject
            have hfinish := h.finishDefinition_inset options collected hs
              (@ofObject_in program c argument.stripParens hin hobject)
              (fun o ho => by
                  rw [← Option.some.inj ((ofObject_object c argument.stripParens).symm.trans ho)]; exact hobject)
              (by rw [hprops]; exact houtside) true (factory ++ Definition.unwrap c argument.stripParens)
            rw [← h.ofObject_inset hin hobject, List.map_append, ← unwrap_inset] at hfinish
            exact congrArg Except.ok hfinish
      · rw [if_neg hobject, if_neg hobject]
        rfl

/-! ## Keys -/

omit h in
theorem findIdx?_inset {ts : List Tree} (hne : ∀ t ∈ ts, t ≠ fn) (span : Span) :
    (ts.map fn.insetPart).findIdx? (·.span = fn.span.insetSpan span) = ts.findIdx? (·.span = span) := by
  induction ts with
  | nil => rfl
  | cons t ts ih =>
    have hhead : fn.insetPart t = fn.inset t := Tree.insetPart_of_ne (hne t (List.mem_cons_self ..))
    rw [List.map_cons, List.findIdx?_cons, List.findIdx?_cons, ih fun u hu =>
      hne u (List.mem_cons_of_mem _ hu), hhead]
    simp

theorem keyedMember_inset (hs : site.In program) : keyedMember (site.inset fn) =
    insetResult fn.span (fun member => ⟨fn.inset member.object, member.index, fn.inset member.property⟩)
      (keyedMember site) := by
  unfold keyedMember
  rw [h.keyProperty?_inset hs]
  cases site.keyProperty? with
  | none => rfl
  | some property =>
    simp only [Option.map_some, Option.bind_eq_bind, Option.bind_some, h.owner?_inset hs]
    cases howner : site.owner? property with
    | none => rfl
    | some object =>
      obtain ⟨hmem, ho, -⟩ := Site.owner?_spec howner
      have hindex := findIdx?_inset (fun t ht => h.member_ne (hs.ancestor_mem hmem) ho ht) property.span
      simp only [Option.map_some, Option.bind_some, Tree.inset_children, Tree.inset_span, hindex]
      cases object.children.findIdx? (·.span = property.span) <;> rfl

theorem stripKey_inset (hs : site.In program) : stripKey (literalText pre body post) (site.inset fn) =
    insetResult fn.span (List.map (Edit.inset fn.span)) (stripKey (bareText pre body post) site) := by
  unfold stripKey
  rw [h.keyedMember_inset hs]
  apply insetResult_bind
  intro member hm
  obtain ⟨ho, hk⟩ := keyedMember_object hs hm
  exact congrArg Except.ok (h.removeMember_inset ho hk member.index)

theorem stripInjectionTypes_inset {injections : Tree} (hi : injections ∈ program.nodes)
    (hk : injections.isObject = true) :
    stripInjectionTypes (literalText pre body post) (fn.inset injections) =
      (stripInjectionTypes (bareText pre body post) injections).map (Edit.inset fn.span) := by
  unfold stripInjectionTypes
  rw [Tree.inset_children, List.flatMap_map, List.map_flatMap]
  apply List.flatMap_congr
  intro injection hmem
  have hin := Tree.nodes_trans hi (Tree.child_mem_nodes hmem)
  rw [Tree.insetPart_of_ne (h.member_ne hi hk hmem), Tree.value?_inset]
  cases hv : injection.value? with
  | none => rfl
  | some value =>
    have hne := h.ne_of_stripParens (h.value_ne hin (Tree.value?_isProperty hv) (Tree.value?_mem hv))
    simp only [Option.map_some, Tree.insetPart_of_ne hne, h.stripValue_inset hin hv, Tree.isObject_inset,
      findMember?_inset h.isFunction]
    by_cases ho : value.stripParens.isObject = true
    · rw [if_pos ho, if_pos ho]
      cases value.stripParens.findMember? "type" with
      | none => rfl
      | some found =>
        have hspec := Tree.nodes_trans hin (Tree.mem_nodes_of_child (Tree.value?_mem hv) value.stripParens_mem)
        exact h.removeMember_inset hspec ho found.1
    · rw [if_neg ho, if_neg ho]
      rfl

omit h in
theorem mixinOf_inset (hole injections : Span) (front back : String) :
    (mixinOf injections front back).map (Piece.inset hole) = mixinOf (hole.insetSpan injections) front back := rfl

theorem addMixin_inset {property mixins : Tree} (hp : property ∈ program.nodes)
    (hv : property.value? = some mixins)
    (injections : Span) : addMixin (fn.inset mixins) (fn.span.insetSpan injections) =
      (addMixin mixins injections).map (Edit.inset fn.span) := by
  have hlist := Tree.nodes_trans hp (Tree.mem_nodes_of_child (Tree.value?_mem hv) mixins.stripParens_mem)
  unfold addMixin
  dsimp only
  rw [h.stripValue_inset hp hv, Tree.inset_kind, Tree.inset_children, List.getLast?_map, Tree.inset_span]
  by_cases hk : mixins.stripParens.kind = .array
  · have hcall : mixins.stripParens.isCall = false := by simp [Tree.isCall, hk]
    rw [if_pos hk, if_pos hk]
    cases hlast : mixins.stripParens.children.getLast? with
    | some last =>
      have hne := h.ne_of_stripParens (h.part_ne hlist (List.mem_of_getLast? hlast) (by simp [hk]) hcall)
      simp [Tree.insetPart_of_ne hne, Edit.inset, mixinOf_inset, Span.insetSpan]
    | none =>
      have hedge := (h.edges_inset hlist (h.layout.array hlist hk) (by simp [hk]) hcall).1
      simp [Edit.inset, mixinOf_inset, Span.insetSpan, hedge]
  · rw [if_neg hk, if_neg hk]
    simp only [List.map_cons, List.map_nil, Edit.inset_prepend, Span.insetSpan_start]
    rfl

theorem moveInjections_inset {member : KeyedMember} (ho : member.object ∈ program.nodes)
    (hk : member.object.isObject = true) (value : Tree) :
    moveInjections (literalText pre body post) ⟨fn.inset member.object, member.index, fn.inset member.property⟩
      (fn.inset value) =
      (moveInjections (bareText pre body post) member value).map (Edit.inset fn.span) := by
  unfold moveInjections
  dsimp only
  rw [hasMember_inset h.isFunction, h.memberValue_inset ho hk]
  by_cases hinject : (!member.object.hasMember "inject") = true
  · rw [if_pos hinject, if_pos hinject]
    simp [Span.insetSpan]
  · rw [if_neg hinject, if_neg hinject]
    cases hmixins : (member.object.findMember? "mixins").bind (·.2.value?) with
    | none => simp [Edit.inset, mixinOf_inset]
    | some mixins =>
      obtain ⟨⟨index, property⟩, hfind, hv⟩ := Option.bind_eq_some_iff.mp hmixins
      have hprop := Tree.nodes_trans ho (Tree.child_mem_nodes (List.mem_of_getElem? (findMember?_mem hfind).1))
      dsimp only [Option.map_some]
      rw [h.removeMember_inset ho hk, Tree.inset_span, h.addMixin_inset hprop hv, List.map_append]

theorem expandInjections_inset (hs : site.In program) :
    expandInjections (literalText pre body post) (site.inset fn) =
    insetResult fn.span (List.map (Edit.inset fn.span)) (expandInjections (bareText pre body post) site) := by
  unfold expandInjections
  rw [h.keyedMember_inset hs]
  apply insetResult_bind
  intro member hm
  obtain ⟨hp, hisProperty⟩ := keyedMember_property hs hm
  obtain ⟨ho, hk⟩ := keyedMember_object hs hm
  obtain ⟨a, c, shorthand, m, hkind⟩ := Tree.isProperty_iff.mp hisProperty
  simp only [Tree.inset_kind, hkind, Tree.value?_inset, Tree.inset_span]
  cases hv : member.property.value? with
  | none => cases shorthand <;> rfl
  | some value =>
    cases shorthand with
    | true => rfl
    | false =>
      have hvalue := Tree.value?_mem hv
      have hne := h.ne_of_stripParens (h.value_ne hp hisProperty hvalue)
      simp only [Option.map_some, Tree.insetPart_of_ne hne, h.stripValue_inset hp hv, Tree.isObject_inset]
      by_cases hmap : value.stripParens.isObject = true
      · have hin := Tree.nodes_trans hp (Tree.mem_nodes_of_child hvalue value.stripParens_mem)
        rw [if_pos hmap, if_pos hmap, h.stripInjectionTypes_inset hin hmap, h.moveInjections_inset ho hk,
          ← List.map_append]
        rfl
      · rw [if_neg hmap, if_neg hmap]
        rfl

/-! ## Types -/

omit options collected in
theorem eraseType_inset (hs : site.In program) : eraseType (site.inset fn) =
    insetResult fn.span (List.map (Edit.inset fn.span)) (eraseType site) := by
  unfold eraseType
  rw [h.call?_inset hs]
  cases site.call? with
  | none => rfl
  | some c => simp [insetResult]

omit h in
theorem runtimeType_inset (hfn : fn.isFunction = true) (t : Tree) :
    runtimeType (fn.insetPart t) = runtimeType t := by
  have hlist : ∀ ts : List Tree, (∀ t ∈ ts, runtimeType (fn.insetPart t) = runtimeType t) →
      runtimeTypes (ts.map fn.insetPart) = runtimeTypes ts := by
    intro ts hts
    induction ts with
    | nil => rfl
    | cons t ts ih =>
      rw [List.map_cons, runtimeTypes, runtimeTypes, hts t (List.mem_cons_self ..),
        ih fun u hu => hts u (List.mem_cons_of_mem _ hu)]
  induction t using Tree.induction with
  | step t ih =>
    by_cases ht : t = fn
    · rw [ht, Tree.insetPart_self]
      obtain ⟨kind, span, parts⟩ := fn
      rcases Tree.isFunction_iff.mp hfn with ⟨r, a, g, hk⟩ | ⟨a, hk⟩ <;> cases hk <;> rfl
    rw [Tree.insetPart_of_ne ht, Tree.inset_eq]
    obtain ⟨kind, span, parts⟩ := t
    change ∀ c ∈ parts, _ at ih
    change runtimeType (.node kind (fn.span.insetSpan span) (parts.map fn.insetPart)) = _
    cases kind with
    | keywordType name => unfold runtimeType; split <;> simp_all
    | unionType => rw [runtimeType, runtimeType, hlist parts ih]
    | parenthesizedType =>
      match parts with
      | [] | _ :: _ :: _ => rfl
      | [inner] => exact ih inner (List.mem_singleton_self _)
    | _ => rfl

theorem annotate_inset (hs : site.In program) :
    annotate (site.inset fn) = (annotate site).map (Edit.inset fn.span) := by
  unfold annotate Site.typeArguments?
  rw [h.call?_inset hs]
  cases site.call? with
  | none => rfl
  | some c =>
    have htype : ((some (fn.inset c)).bind (·.typeArguments?)).bind (·.children.head?) =
        (((some c).bind (·.typeArguments?)).bind (·.children.head?)).map fn.insetPart := by
      rw [Option.bind_some, Option.bind_some, typeArguments?_inset h.isFunction]
      cases htypes : c.typeArguments? with
      | none => rfl
      | some types =>
        have hk : types.kind = .typeArguments := by simpa using List.find?_some htypes
        have hne : types ≠ fn := Tree.ne_of_isFunction h.isFunction (by simp [Tree.isFunction, hk])
        simp [Tree.insetPart_of_ne hne]
    have htext : runtimeType ∘ fn.insetPart = runtimeType := funext (runtimeType_inset h.isFunction)
    dsimp only [Option.map_some]
    rw [htype, Option.map_map, htext, Tree.inset_span]
    simp

/-! ## Any site -/

theorem ownEdits_inset (hs : site.In program) (hother : site.call? ≠ some call)
    (houtside : options.production = true → ∀ props, site.props? = some props →
      props.span.contains call.span = false) :
    (literalSetting options pre body post collected fn).ownEdits (site.inset fn) =
      insetResult fn.span (List.map (Edit.inset fn.span))
        ((bareSetting options pre body post collected).ownEdits site) := by
  have recorded : ∀ {result result' : Except UsageError (List Edit)},
      result' = insetResult fn.span (List.map (Edit.inset fn.span)) result →
      ((literalSetting options pre body post collected fn).alone.record <$> result').map (·.draft.edits) =
        insetResult fn.span (List.map (Edit.inset fn.span))
          (((bareSetting options pre body post collected).alone.record <$> result).map (·.draft.edits)) := by
    rintro result _ rfl
    cases result with
    | error e => rfl
    | ok es =>
      simp only [insetResult, Functor.map, Except.map, Progress.record, Setting.alone, recordAll_eq,
        List.nil_append, recorded_inset]
  unfold Setting.ownEdits expandSite
  rw [show (site.inset fn).kind = site.kind from rfl]
  cases hkind : site.kind with
  | component => exact h.expandComponent_inset options collected hs hother hkind houtside
  | functional => exact h.expandFunctional_inset options collected hs hother hkind houtside
  | events | states | scopedSlots => exact recorded (h.stripKey_inset hs)
  | injections => exact recorded (h.expandInjections_inset hs)
  | type => exact recorded (h.eraseType_inset hs)

theorem takenEdits_inset (hs : site.In program) :
    (literalSetting options pre body post collected fn).takenEdits (site.inset fn) =
    ((bareSetting options pre body post collected).takenEdits site).map (Edit.inset fn.span) := by
  unfold Setting.takenEdits
  rw [h.annotate_inset hs]
  simp only [literalSetting, bareSetting]
  by_cases hp : options.production = true <;> simp [hp]

/-! ## Hands -/

theorem isObject_function : fn.isObject = false := by
  rcases Tree.isFunction_iff.mp h.isFunction with ⟨r, a, g, hk⟩ | ⟨a, hk⟩ <;> simp [Tree.isObject, hk]

omit h in
theorem literal?_eq (site : Site) (hkind : site.kind = .component ∨ site.kind = .functional) :
    site.literal? = (site.call?.map (·.arguments)).bind soleObject? := by
  unfold Site.literal?
  generalize site.call?.map (·.arguments) = given
  rcases hkind with hk | hk
  all_goals
    rw [hk]
    match given with
    | none | some [] | some [_] | some (_ :: _ :: _) => rfl

theorem literal?_inset (hs : site.In program) (hother : site.call? ≠ some call)
    (hkind : site.kind = .component ∨ site.kind = .functional) :
    (site.inset fn).literal? = site.literal?.map fn.inset := by
  rw [literal?_eq site hkind, literal?_eq (site.inset fn) hkind, h.call?_inset hs]
  cases hc : site.call? with
  | none => rfl
  | some c =>
    simp only [Option.map_some, Option.bind_some, arguments_inset h.isFunction]
    match hargs : c.arguments with
    | [] | _ :: _ :: _ => rfl
    | [argument] =>
      have hmem := hs.ancestor_mem (Site.call?_mem hc)
      have hne : argument.stripParens ≠ fn := by
        intro hstrip
        rcases h.holder hmem (Tree.arguments_mem hargs) hstrip with ⟨hk, -⟩ | rfl
        · obtain ⟨o, ho⟩ := Tree.isCall_iff.mp (Site.call?_callee hc).1
          rw [ho] at hk
          cases hk
        · exact hother hc
      simp only [List.map_singleton, soleObject?, Tree.insetPart_stripParens h.isFunction,
        Tree.insetPart_of_ne hne, Tree.isObject_inset]
      split <;> rfl

theorem props?_function (hs : site.In program) (hcall : site.call? = some call)
    (hkind : site.kind = .component ∨ site.kind = .functional) :
    site.props? = none ∧ (site.inset fn).props? = none := by
  obtain ⟨argument, hargs, hstrip⟩ := h.argument
  have hbare : site.literal? = none := by
    rw [literal?_eq site hkind, hcall, Option.map_some, Option.bind_some, hargs, soleObject?, hstrip,
      h.isObject_function]
    rfl
  have hliteral : (site.inset fn).literal? = some (renderLiteral fn.span (fn.inset fn)) := by
    rw [literal?_eq (site.inset fn) hkind, h.call?_inset hs, hcall, Option.map_some, Option.map_some,
      Option.bind_some, arguments_inset h.isFunction, hargs, List.map_singleton, soleObject?,
        Tree.insetPart_stripParens h.isFunction, hstrip,
      Tree.insetPart_self]
    rfl
  constructor
  · simp [Site.props?, hbare]
  · rw [Site.props?, hliteral]
    rfl

theorem siteProps?_inset (hs : site.In program) : (site.inset fn).props? = site.props?.map fn.inset := by
  by_cases hkind : site.kind = .component ∨ site.kind = .functional
  swap
  · rw [not_or] at hkind
    rw [Site.props?_eq_none hkind.1 hkind.2, @Site.props?_eq_none (site.inset fn) hkind.1 hkind.2]
    rfl
  by_cases hcall : site.call? = some call
  · obtain ⟨hbare, hliteral⟩ := h.props?_function hs hcall hkind
    rw [hbare, hliteral]
    rfl
  · have hobject : ∀ object, site.literal? = some object → object ∈ program.nodes ∧ object.isObject = true := by
      intro object hl
      rw [literal?_eq site hkind] at hl
      obtain ⟨arguments, ha, hl⟩ := Option.bind_eq_some_iff.mp hl
      obtain ⟨c, hc, rfl⟩ := Option.map_eq_some_iff.mp ha
      match hargs : c.arguments with
      | [] | _ :: _ :: _ => rw [hargs] at hl; cases hl
      | [argument] =>
        rw [hargs, soleObject?] at hl
        split at hl <;> cases hl
        have hin := Tree.mem_nodes_of_child (Tree.arguments_mem hargs) argument.stripParens_mem
        exact ⟨Tree.nodes_trans (hs.ancestor_mem (Site.call?_mem hc)) hin, ‹_›⟩
    rw [Site.props?, h.literal?_inset hs hcall hkind]
    have hin : Definition.In program ⟨call, site.literal?, program.span.start, true⟩ :=
      ⟨.start (Tree.mem_nodes_self _), fun o ho => (hobject o ho).1⟩
    exact h.props?_inset hin fun o ho => (hobject o ho).2

theorem claims_inset {definition : Site} (hd : definition.In program) (hs : site.In program) :
    (literalSetting options pre body post collected fn).claims (definition.inset fn) (site.inset fn) =
      (bareSetting options pre body post collected).claims definition site := by
  unfold Setting.claims
  rw [h.siteProps?_inset hd, h.call?_inset hs, Option.any_map, Option.isSome_map]
  simp only [Tree.inset_span, isWithin_inset]
  rfl

theorem filter_claims_inset {definition : Site} (hd : definition.In program) {types : List Site}
    (htypes : ∀ s ∈ types, s.In program) :
    (types.map (·.inset fn)).filter
      ((literalSetting options pre body post collected fn).claims (definition.inset fn)) =
      (types.filter ((bareSetting options pre body post collected).claims definition)).map (·.inset fn) := by
  rw [List.filter_map]
  congr 1
  apply List.filter_congr
  intro s hs
  exact h.claims_inset options collected hd (htypes s hs)

theorem filter_unclaimed_inset {definition : Site} (hd : definition.In program) {types : List Site}
    (htypes : ∀ s ∈ types, s.In program) :
    (types.map (·.inset fn)).filter
      (!(literalSetting options pre body post collected fn).claims (definition.inset fn) ·) =
      (types.filter (!(bareSetting options pre body post collected).claims definition ·)).map (·.inset fn) := by
  rw [List.filter_map]
  congr 1
  apply List.filter_congr
  intro s hs
  exact congrArg _ (h.claims_inset options collected hd (htypes s hs))

theorem deal_inset {sites : List Site} (hsites : ∀ s ∈ sites, s.In program) :
    ∀ {types : List Site}, (∀ s ∈ types, s.In program) →
    (literalSetting options pre body post collected fn).deal (sites.map (·.inset fn)) (types.map (·.inset fn)) =
      ((bareSetting options pre body post collected).deal sites types).map (·.inset fn) := by
  induction sites with
  | nil => intro types _; rfl
  | cons site sites ih =>
    intro types htypes
    have hs := hsites site (List.mem_cons_self ..)
    rw [List.map_cons, Setting.deal, Setting.deal, h.filter_claims_inset options collected hs htypes,
      h.filter_unclaimed_inset options collected hs htypes,
      ih (fun s hs => hsites s (List.mem_cons_of_mem _ hs)) fun s hs => htypes s (List.mem_filter.mp hs).1]
    rfl

theorem unclaimed_inset {sites types : List Site} (hsites : ∀ s ∈ sites, s.In program)
    (htypes : ∀ s ∈ types, s.In program) :
    (literalSetting options pre body post collected fn).unclaimed (sites.map (·.inset fn))
    (types.map (·.inset fn)) =
      ((bareSetting options pre body post collected).unclaimed sites types).map (·.inset fn) := by
  unfold Setting.unclaimed
  rw [List.filter_map]
  congr 1
  apply List.filter_congr
  intro s hs
  refine congrArg not ?_
  rw [List.any_map, Bool.eq_iff_iff, List.any_eq_true, List.any_eq_true]
  refine exists_congr fun definition => and_congr_right fun hd => ?_
  rw [Function.comp, h.claims_inset options collected (hsites definition hd) (htypes s hs)]

omit h in
theorem get_inset (usages : Usages) (kind : Macro) :
    (usages.inset fn).get kind = (usages.get kind).map (·.inset fn) := by
  unfold Usages.get Usages.inset
  rw [List.filter_map]
  rfl

theorem hands_inset (hsites : ∀ s ∈ collected.usages.pending, s.In program) :
    (literalSetting options pre body post collected fn).hands =
      (bareSetting options pre body post collected).hands.map (·.inset fn) := by
  have horder : (literalSetting options pre body post collected fn).order =
      (bareSetting options pre body post collected).order.map (·.inset fn) := by
    simp only [Setting.order, literalSetting, bareSetting, Collected.inset, List.map_flatMap]
    exact List.flatMap_congr fun kind _ => get_inset collected.usages kind
  have hin : ∀ s ∈ (bareSetting options pre body post collected).order, s.In program :=
    fun s hs => hsites s (Setting.mem_order.mp hs).1
  have htypes : ∀ s ∈ collected.usages.get .type, s.In program := fun s hs => hsites s (List.mem_filter.mp hs).1
  have hget : (literalSetting options pre body post collected fn).collected.usages.get .type =
      (collected.usages.get .type).map (·.inset fn) := get_inset collected.usages .type
  unfold Setting.hands
  rw [horder, hget, h.deal_inset options collected hin htypes, h.unclaimed_inset options collected hin htypes,
    List.map_append,
    List.map_map, List.map_map]
  rfl

theorem play_inset {hands : List Hand}
    (hin : ∀ hand ∈ hands, hand.site.In program ∧ ∀ s ∈ hand.types, s.In program)
    (hother : ∀ hand ∈ hands, hand.site.call? ≠ some call)
    (houtside : options.production = true → ∀ hand ∈ hands, ∀ props, hand.site.props? = some props →
      props.span.contains call.span = false) :
    (literalSetting options pre body post collected fn).play (hands.map (·.inset fn)) =
      insetResult fn.span (List.map (Edit.inset fn.span))
        ((bareSetting options pre body post collected).play hands) := by
  induction hands with
  | nil => rfl
  | cons hand hands ih =>
    have ih := ih (fun hand hh => hin hand (List.mem_cons_of_mem _ hh))
      (fun hand hh => hother hand (List.mem_cons_of_mem _ hh))
      fun hp hand hh => houtside hp hand (List.mem_cons_of_mem _ hh)
    obtain ⟨hs, htypes⟩ := hin hand (List.mem_cons_self ..)
    have hown := h.ownEdits_inset options collected hs (hother hand (List.mem_cons_self ..))
      fun hp => houtside hp hand (List.mem_cons_self ..)
    have htaken : (hand.inset fn).types.flatMap (literalSetting options pre body post collected fn).takenEdits =
        (hand.types.flatMap (bareSetting options pre body post collected).takenEdits).map
          (Edit.inset fn.span) := by
      simp only [Hand.inset, List.flatMap_map, List.map_flatMap]
      exact List.flatMap_congr fun s hs => h.takenEdits_inset options collected (htypes s hs)
    rw [List.map_cons, Setting.play, Setting.play, htaken, ih,
      show (hand.inset fn).site = hand.site.inset fn from rfl, hown]
    cases (bareSetting options pre body post collected).ownEdits hand.site with
    | error e => rfl
    | ok own =>
      cases (bareSetting options pre body post collected).play hands with
      | error e => rfl
      | ok rest => simp [insetResult, bind, Except.bind, pure, Except.pure]

/-! ## The call itself -/

theorem definitionCall_function (hcall : site.call? = some call) : ∃ argument,
    definitionCall site = .ok (call, argument) ∧ argument.stripParens = fn := by
  obtain ⟨argument, hargs, hstrip⟩ := h.argument
  refine ⟨argument, definitionCall_applies ⟨hcall, hargs, ?_⟩, hstrip⟩
  rw [Bool.eq_false_iff]
  intro hspread
  have hkind : argument.kind ≠ .parenthesized := by
    intro hk
    simp [Tree.isSpread, hk] at hspread
  rw [Tree.stripParens_of_kind hkind] at hstrip
  rw [hstrip] at hspread
  rcases Tree.isFunction_iff.mp h.isFunction with ⟨r, a, g, hk⟩ | ⟨a, hk⟩ <;> simp [Tree.isSpread, hk] at hspread

theorem ownEdits_function (hkind : site.kind = .functional) (hcall : site.call? = some call)
    (hlist : fn.parameterList?.isSome = true) : (bareSetting options pre body post collected).ownEdits site =
      (injectFactory (bareSetting options pre body post collected).isFactoryTaken site fn).map fun factory =>
        factory ++
          (wrapRender call.span fn.span ++ (memberTexts options site call).map (Edit.prepend fn.span.start)) := by
  obtain ⟨argument, hdefinition, hstrip⟩ := h.definitionCall_function hcall
  unfold Setting.ownEdits expandSite
  rw [hkind]
  dsimp only
  unfold expandFunctional
  rw [hdefinition]
  simp only [bind, Except.bind, hstrip, hlist, ite_true]
  cases hfactory : injectFactory (bareSetting options pre body post collected).isFactoryTaken site fn with
  | error e => rfl
  | ok factory =>
    have hmembers := newMembers_eq options site ⟨call, none, fn.span.start, true⟩ rfl rfl
    have hprops : (expandProps (bareSetting options pre body post collected).options
        (bareSetting options pre body post collected).source .empty ⟨call, none, fn.span.start, true⟩).1 = [] :=
          rfl
    refine congrArg Except.ok ((finishDefinition_alone ..).trans ?_)
    rw [hprops, List.append_nil, if_pos rfl, List.append_assoc,
      show (bareSetting options pre body post collected).options = options from rfl,
      hmembers]
    apply filter_quiet
    intro e he
    rcases List.mem_append.mp he with he | he
    · exact injectFactory_selects hfactory e he
    · rcases List.mem_append.mp he with he | he
      · rcases mem_wrapRender.mp he with rfl | rfl | rfl
        · exact Edit.overwrite_selects ..
        · exact Edit.prepend_selects ..
        · exact Edit.overwrite_selects ..
      · obtain ⟨text, -, rfl⟩ := List.mem_map.mp he
        exact Edit.prepend_selects ..

theorem inset_call : fn.span.insetSpan call.span = ⟨call.span.start, call.span.stop + 12⟩ := by
  have := h.proper
  rw [Span.insetSpan, Span.inset_of_lt h.headed, Span.inset_of_gt (by omega) h.stop_lt]

theorem ownEdits_literal (hs : site.In program) (hkind : site.kind = .functional)
    (hcall : site.call? = some call) :
    (literalSetting options pre body post collected fn).ownEdits (site.inset fn) =
      insetResult fn.span (fun factory => factory.map (Edit.inset fn.span) ++ (unwrapLiteral call.span fn.span ++
        (memberTexts options site call).map (Edit.prepend (fn.span.start + 2))))
        (injectFactory (bareSetting options pre body post collected).isFactoryTaken site fn) := by
  obtain ⟨argument, hdefinition, hstrip⟩ := h.definitionCall_function hcall
  have hliteral : (fn.insetPart argument).stripParens = renderLiteral fn.span (fn.inset fn) := by
    rw [Tree.insetPart_stripParens h.isFunction, hstrip, Tree.insetPart_self]
  have hlist : (renderLiteral fn.span (fn.inset fn)).parameterList?.isSome = false := rfl
  have hobject : (renderLiteral fn.span (fn.inset fn)).isObject = true := rfl
  have hrender : ((renderLiteral fn.span (fn.inset fn)).findMember? "render").bind (·.2.value?) =
      some (fn.inset fn) := rfl
  have hself : (fn.inset fn).stripParens = fn.inset fn.stripParens := by
    rw [h.stripParens]
    apply Tree.stripParens_of_kind
    rw [Tree.inset_kind]
    rcases Tree.isFunction_iff.mp h.isFunction with ⟨r, a, g, hk⟩ | ⟨a, hk⟩ <;> simp [hk]
  have hfactory := h.factory_inset options collected site h.fn_mem hself
  unfold Setting.ownEdits expandSite
  rw [show (site.inset fn).kind = site.kind from rfl, hkind]
  dsimp only
  unfold expandFunctional
  rw [h.definitionCall_inset hs, hdefinition]
  simp only [insetResult, Prod.map_apply, bind, Except.bind, hliteral, hlist, hobject, hrender, hfactory,
    Bool.false_eq_true, ite_false, ite_true]
  cases hinject : injectFactory (bareSetting options pre body post collected).isFactoryTaken site fn with
  | error e => rfl
  | ok factory =>
    rw [hinject] at hfactory
    have hmembers := newMembers_eq options (site.inset fn)
      (.ofObject (fn.inset call) (renderLiteral fn.span (fn.inset fn))) rfl rfl
    have htexts : memberTexts options (site.inset fn) (fn.inset call) = memberTexts options site call := by
      unfold memberTexts
      rw [show definitionName? options (site.inset fn) ⟨fn.inset call, none, 0, true⟩ =
        definitionName? options site ⟨call, none, 0, true⟩ from h.definitionName?_inset hs options
            ⟨call, none, 0, true⟩]
    have hprops : (expandProps (literalSetting options pre body post collected fn).options
        (literalSetting options pre body post collected fn).source .empty
          (.ofObject (fn.inset call) (renderLiteral fn.span (fn.inset fn)))).1 = [] := rfl
    have hunwrap : Definition.unwrap (fn.inset call) (renderLiteral fn.span (fn.inset fn)) =
        unwrapLiteral call.span fn.span := by
      rw [Definition.unwrap, Tree.inset_span, h.inset_call]
      rfl
    have hplace : (Definition.ofObject (fn.inset call) (renderLiteral fn.span (fn.inset fn))).insertAt =
        fn.span.start + 2 := rfl
    have howner : (Definition.ofObject (fn.inset call) (renderLiteral fn.span (fn.inset fn))).call =
        fn.inset call := rfl
    refine congrArg Except.ok ((finishDefinition_alone ..).trans ?_)
    rw [hprops, List.append_nil, if_pos rfl, List.append_assoc,
      show (literalSetting options pre body post collected fn).options = options from rfl, hmembers,
        hunwrap, hplace, howner, htexts]
    apply filter_quiet
    intro e he
    rcases List.mem_append.mp he with he | he
    · exact injectFactory_selects hfactory e he
    · rcases List.mem_append.mp he with he | he
      · simp only [unwrapLiteral, List.mem_cons, List.not_mem_nil, or_false] at he
        rcases he with rfl | rfl
        · exact Edit.overwrite_selects _ "" _
        · exact Edit.overwrite_selects _ "" _
      · obtain ⟨text, -, rfl⟩ := List.mem_map.mp he
        exact Edit.prepend_selects ..

/-! ## All edits -/

omit h in
theorem heads_unique {lo hi : Nat} (hbetween : SitesBetween lo hi collected.usages.pending)
    (hsite : site ∈ collected.usages.pending) (hcall : site.call? = some call) {s : Site}
    (hs : s ∈ collected.usages.pending) (hheads : s.call? = some call) : s = site := by
  obtain ⟨-, callee, rest, hcs, hspan⟩ := Site.call?_callee hcall
  obtain ⟨-, callee', rest', hcs', hspan'⟩ := Site.call?_callee hheads
  rw [hcs] at hcs'
  obtain ⟨rfl, -⟩ := List.cons.inj hcs'
  exact List.inj_on_of_nodup_map hbetween.nodup_spans hs hsite (hspan'.symm.trans hspan)

theorem hands_split {lo hi : Nat} (hbetween : SitesBetween lo hi collected.usages.pending)
    (hsites : ∀ s ∈ collected.usages.pending, s.In program) (hsite : site ∈ collected.usages.pending)
    (hkind : site.kind = .functional) (hcall : site.call? = some call) : ∃ before after,
      (bareSetting options pre body post collected).hands = before ++ ⟨site, []⟩ :: after ∧
        ∀ hand ∈ before ++ after, hand.site.call? ≠ some call := by
  have hmem : site ∈ (bareSetting options pre body post collected).hands.map Hand.site := by
    rw [hands_sites]
    exact List.mem_append_left _ (Setting.mem_order.mpr ⟨hsite, by rw [hkind]; decide⟩)
  obtain ⟨hand, hhand, hhandsite⟩ := List.mem_map.mp hmem
  have htypes : hand.types = [] := by
    apply List.eq_nil_iff_forall_not_mem.mpr
    intro s hs
    have hclaims := ((hands_mem hhand).2 s hs).2
    rw [hhandsite, Setting.claims_eq_false _ (h.props?_function (hsites site hsite) hcall (Or.inr hkind)).1]
      at hclaims
    cases hclaims
  obtain ⟨before, after, hsplit⟩ := List.append_of_mem hhand
  have hthis : hand = ⟨site, []⟩ := by rw [← hhandsite, ← htypes]
  rw [hthis] at hsplit
  refine ⟨before, after, hsplit, ?_⟩
  have hspans := hands_spans (bareSetting options pre body post collected) hbetween
  rw [hsplit, List.map_append, List.map_cons, List.nodup_middle, List.nodup_cons, ← List.map_append] at hspans
  intro other hother hheads
  have hin : other ∈ (bareSetting options pre body post collected).hands := by
    rw [hsplit]
    exact List.perm_middle.mem_iff.mpr (List.mem_cons_of_mem _ hother)
  have hsame := heads_unique collected hbetween hsite hcall (hands_mem hin).1 hheads
  exact hspans.1 (List.mem_map.mpr ⟨other, hother, congrArg Site.span hsame⟩)

/-- All hands but the one of the call are played alike. -/
theorem play_others (hsites : ∀ s ∈ collected.usages.pending, s.In program)
    (houtside : options.production = true → ∀ s ∈ collected.usages.pending, ∀ props, s.props? = some props →
      props.span.contains call.span = false)
    {hands : List Hand}
    (hothers : ∀ hand ∈ hands, (bareSetting options pre body post collected).IsOther call hand) :
    (literalSetting options pre body post collected fn).play (hands.map (·.inset fn)) =
      insetResult fn.span (List.map (Edit.inset fn.span))
        ((bareSetting options pre body post collected).play hands) := by
  refine h.play_inset options collected (fun hand hh => ?_) (fun hand hh => (hothers hand hh).2)
    fun hp hand hh => ?_
  · obtain ⟨hs, htypes⟩ := hands_mem (hothers hand hh).1
    exact ⟨hsites _ hs, fun s hs => hsites s (htypes s hs).1⟩
  · exact houtside hp _ (hands_mem (hothers hand hh).1).1

omit h in
/-- Every edit of the other hands is made by the site of one of them or by a type. -/
theorem others_make {lo hi : Nat} (hbetween : SitesBetween lo hi collected.usages.pending)
    (hsite : site ∈ collected.usages.pending) (hkind : site.kind = .functional) (hcall : site.call? = some call)
    {hands : List Hand} {es : List Edit}
    (hothers : ∀ hand ∈ hands, (bareSetting options pre body post collected).IsOther call hand)
    (hok : (bareSetting options pre body post collected).play hands = .ok es) :
    ∀ e ∈ es, ∃ s ∈ collected.usages.pending, ((∃ hand ∈ hands, s = hand.site) ∨ s.kind = .type) ∧
      s.call? ≠ some call ∧ (bareSetting options pre body post collected).Makes s e := by
  intro e he
  obtain ⟨hand, hhand, s, hs, hmakes⟩ := play_makes hok he
  obtain ⟨hpending, htypes⟩ := hands_mem (hothers hand hhand).1
  rcases hs with rfl | hs
  · exact ⟨hand.site, hpending, Or.inl ⟨hand, hhand, rfl⟩, (hothers hand hhand).2, hmakes⟩
  · have htype := Setting.claims_type _ (htypes s hs).2
    refine ⟨s, (htypes s hs).1, Or.inr htype, fun hheads => ?_, hmakes⟩
    rw [heads_unique collected hbetween hsite hcall (htypes s hs).1 hheads, hkind] at htype
    cases htype

/-- Both expansions are refused alike, or they make the same edits but for the call: in the one text a
literal is made up around the function, in the other the call is taken off it. -/
theorem play_function {lo hi : Nat} (hbetween : SitesBetween lo hi collected.usages.pending)
    (hsites : ∀ s ∈ collected.usages.pending, s.In program) (hsite : site ∈ collected.usages.pending)
    (hkind : site.kind = .functional) (hcall : site.call? = some call) (hlist : fn.parameterList?.isSome = true)
    (houtside : options.production = true → ∀ s ∈ collected.usages.pending, ∀ props, s.props? = some props →
      props.span.contains call.span = false) :
    (∃ error, (bareSetting options pre body post collected).play
      (bareSetting options pre body post collected).hands =
      .error error ∧
      (literalSetting options pre body post collected fn).play
        (literalSetting options pre body post collected fn).hands =
        .error (error.inset fn.span)) ∨
    ∃ front back, (bareSetting options pre body post collected).play
      (bareSetting options pre body post collected).hands =
        .ok (front ++ (wrapRender call.span fn.span ++
          (memberTexts options site call).map (Edit.prepend fn.span.start)) ++ back) ∧
      (literalSetting options pre body post collected fn).play
        (literalSetting options pre body post collected fn).hands =
        .ok (front.map (Edit.inset fn.span) ++ (unwrapLiteral call.span fn.span ++
          (memberTexts options site call).map (Edit.prepend (fn.span.start + 2))) ++
            back.map (Edit.inset fn.span)) ∧
      (∀ e ∈ front, e.placement = .overwrite → ∃ s ∈ collected.usages.pending, s.call? ≠ some call ∧
        (bareSetting options pre body post collected).Makes s e) ∧
      ∀ e ∈ back, ∃ s ∈ collected.usages.pending, s.call? ≠ some call ∧ site.Precedes s ∧
        (bareSetting options pre body post collected).Makes s e := by
  obtain ⟨before, after, hsplit, hothers⟩ := h.hands_split options collected hbetween hsites hsite hkind hcall
  have hother : ∀ hand ∈ before ++ after, (bareSetting options pre body post collected).IsOther call hand := by
    intro hand hhand
    refine ⟨?_, hothers hand hhand⟩
    rw [hsplit]
    exact List.perm_middle.mem_iff.mpr (List.mem_cons_of_mem _ hhand)
  have hfront : ∀ hand ∈ before, (bareSetting options pre body post collected).IsOther call hand :=
    fun hand hh => hother hand (List.mem_append_left _ hh)
  have hback : ∀ hand ∈ after, (bareSetting options pre body post collected).IsOther call hand :=
    fun hand hh => hother hand (List.mem_append_right _ hh)
  have hprecede := hands_precede (bareSetting options pre body post collected) hbetween
  rw [hsplit, List.map_append, List.map_cons, List.pairwise_append, List.pairwise_cons] at hprecede
  rw [h.hands_inset options collected hsites, hsplit, List.map_append, List.map_cons, Setting.play_append,
    Setting.play_append, Setting.play, Setting.play, h.play_others options collected hsites houtside hfront,
      h.play_others options collected hsites houtside hback,
    h.ownEdits_function options collected hkind hcall hlist,
    show (Hand.inset fn ⟨site, []⟩).site = site.inset fn from rfl,
    h.ownEdits_literal options collected (hsites site hsite) hkind hcall]
  cases hfirst : (bareSetting options pre body post collected).play before with
  | error e => exact Or.inl ⟨e, rfl, rfl⟩
  | ok first =>
    cases hfactory : injectFactory (bareSetting options pre body post collected).isFactoryTaken site fn with
    | error e => exact Or.inl ⟨e, rfl, rfl⟩
    | ok factory =>
      cases hrest : (bareSetting options pre body post collected).play after with
      | error e => exact Or.inl ⟨e, rfl, rfl⟩
      | ok rest =>
        refine Or.inr ⟨first ++ factory, rest, ?_, ?_, ?_, ?_⟩
        · simp [Except.map, bind, Except.bind, pure, Except.pure]
        · simp [insetResult, Hand.inset, bind, Except.bind, pure, Except.pure]
        · intro e he ho
          rcases List.mem_append.mp he with he | he
          · obtain ⟨s, hs, -, hne, hmade⟩ :=
              others_make options collected hbetween hsite hkind hcall hfront hfirst e he
            exact ⟨s, hs, hne, hmade⟩
          · obtain ⟨pos, text, rfl | rfl⟩ := injectFactory_inserts hfactory e he <;> cases ho
        · intro e he
          obtain ⟨s, hs, hkinds, hne, hmade⟩ :=
            others_make options collected hbetween hsite hkind hcall hback hrest e he
          refine ⟨s, hs, hne, ?_, hmade⟩
          rcases hkinds with ⟨hand, hhand, rfl⟩ | htype
          · exact hprecede.2.1.1 _ (List.mem_map_of_mem hhand)
          · intro _
            rw [htype]
            exact ⟨Macro.noConfusion, Macro.noConfusion⟩

/-! ## Imports -/

theorem lineBreakEnd_inset {c : Tree} (hc : c ∈ program.children) (hk : c.kind = .importDeclaration false) :
    lineBreakEnd (literalText pre body post) (fn.span.inset c.span.stop) =
      fn.span.inset (lineBreakEnd (bareText pre body post) c.span.stop) := by
  have hroot := Tree.mem_nodes_self program
  have hcp := Tree.nodes_trans hroot (Tree.child_mem_nodes hc)
  have hproper := h.proper
  -- the call is in another statement
  obtain ⟨d, hd, hcalld⟩ : ∃ d ∈ program.children, call ∈ d.nodes := by
    rcases Tree.mem_nodes.mp h.call_mem with heq | hd
    · have hcall := h.isCall
      rw [heq, Tree.isCall, h.layout.root] at hcall
      cases hcall
    · exact hd
  have hdp := Tree.nodes_trans hroot (Tree.child_mem_nodes hd)
  have hdc : d ≠ c := by
    rintro rfl
    have := (h.closed.imported hcp hk hcalld).1
    rw [h.isCall] at this
    cases this
  have hin := Span.contains_iff.mp (h.layout.contains hdp hcalld)
  have hheaded := h.headed
  have hstop := h.stop_lt
  have hlines := h.layout.statements hroot h.layout.root
  have hfits := h.layout.fits hcp
  rcases (h.layout.parts hroot).eq_or_apart c hc d hd with rfl | hbefore | hafter
  · exact absurd rfl hdc
  · have hdf := h.layout.fits hdp
    have hd' : fn.inset d ∈ (fn.inset program).children := by
      have hne : d ≠ fn := by
        rintro rfl
        exact h.call_ne (Tree.eq_of_mem_of_mem hcalld h.fn_mem_call)
      rw [Tree.inset_children, ← Tree.insetPart_of_ne hne]
      exact List.mem_map_of_mem hd
    have hline := hlines.2 d hd
    have hline' := (h.literalLayout.statements (Tree.mem_nodes_self _) h.literalLayout.root).2 _ hd'
    have hlevel : fn.span.Level c.span.stop d.span.start := Or.inl (by omega)
    rw [Tree.inset_span, Span.insetSpan_start] at hline'
    rw [h.span] at hlevel hline' ⊢
    exact lineBreakEnd_level hlevel ⟨hbefore, hfits.2.2, hdf.2.1⟩ hline hline'
  · have hend : c.span.stop ≤ byteLength (bareText pre body post) := hfits.2.2.le_length
    have hlevel : fn.span.Level c.span.stop (byteLength (bareText pre body post)) := by
      have := hfits.1
      exact Or.inr (Or.inr (by omega))
    have hnone : ∀ text : List Char, charAt text (byteLength text) = none := by
      intro text
      have htail := dropBytes_append text [] 0
      rw [Nat.add_zero, List.append_nil, dropBytes_zero] at htail
      rw [charAt, htail]
      rfl
    have hlength : fn.span.inset (byteLength (bareText pre body post)) =
        byteLength (literalText pre body post) := by
      have := hfits.1
      rw [Span.inset_of_gt (by omega) (by omega), byteLength_literalText]
    rw [h.span] at hlevel hlength ⊢
    refine lineBreakEnd_level hlevel ⟨hend, hfits.2.2, isBoundary_length _⟩ ?_ ?_
    · rw [hnone]
      decide
    · rw [hlength, hnone]
      decide

theorem removeImport_inset {imported : MacroImport} (hc : collect? options program = some collected)
    (himported : imported ∈ collected.imports) : removeImport (literalText pre body post) (imported.inset fn) =
      (removeImport (bareText pre body post) imported).inset fn.span := by
  rw [(collect?_imports hc).1] at himported
  obtain ⟨c, hmem, hof⟩ := List.mem_filterMap.mp himported
  obtain ⟨hk, hspan⟩ := ofTree?_kind hof
  have hline := h.lineBreakEnd_inset hmem hk
  rw [← hspan] at hline
  simp [removeImport, MacroImport.inset, hline]

/-- Both programs are refused alike, or their drafts have the same edits but for the call. -/
theorem expansion_function (hc : collect? options program = some collected) {lo hi : Nat}
    (hbetween : SitesBetween lo hi collected.usages.pending) (hsite : site ∈ collected.usages.pending)
    (hkind : site.kind = .functional) (hcall : site.call? = some call) (hlist : fn.parameterList?.isSome = true)
    (houtside : options.production = true → ∀ s ∈ collected.usages.pending, ∀ props, s.props? = some props →
      props.span.contains call.span = false) :
    (∃ error, expansion (bareSetting options pre body post collected) = .error error ∧
      expansion (literalSetting options pre body post collected fn) = .error (error.inset fn.span)) ∨
    ∃ front back, expansion (bareSetting options pre body post collected) =
        .ok ⟨bareText pre body post, front ++ (wrapRender call.span fn.span ++
          (memberTexts options site call).map (Edit.prepend fn.span.start)) ++ back⟩ ∧
      expansion (literalSetting options pre body post collected fn) =
        .ok ⟨literalText pre body post, front.map (Edit.inset fn.span) ++ (unwrapLiteral call.span fn.span ++
          (memberTexts options site call).map (Edit.prepend (fn.span.start + 2))) ++
            back.map (Edit.inset fn.span)⟩ ∧
      (∀ e ∈ front, e.placement = .overwrite → ∃ s ∈ collected.usages.pending, s.call? ≠ some call ∧
        (bareSetting options pre body post collected).Makes s e) ∧
      ∀ e ∈ back, (∃ s ∈ collected.usages.pending, s.call? ≠ some call ∧ site.Precedes s ∧
        (bareSetting options pre body post collected).Makes s e) ∨
          ∃ c ∈ program.children, ∃ stop, e = .remove c.span.start stop := by
  have hsites := collect?_sites hc
  have hremoved : (collected.inset fn).imports.map (removeImport (literalText pre body post)) =
      (collected.imports.map (removeImport (bareText pre body post))).map (Edit.inset fn.span) := by
    rw [Collected.inset, List.map_map, List.map_map]
    exact List.map_congr_left fun imported himported => h.removeImport_inset options collected hc himported
  have hquiet : ∀ {pos : Nat} {outer : List Edit}, (∀ e ∈ outer, e.selects e = false) →
      ∀ e ∈ outer ++ (memberTexts options site call).map (Edit.prepend pos), e.selects e = false := by
    intro pos outer houter e he
    rcases List.mem_append.mp he with he | he
    · exact houter e he
    · obtain ⟨text, -, rfl⟩ := List.mem_map.mp he
      exact Edit.prepend_selects ..
  rw [expansion_eq, expansion_eq]
  rcases h.play_function options collected hbetween hsites hsite hkind hcall hlist houtside with
    ⟨error, herror, herror'⟩ | ⟨front, back, hplay, hplay', hfront, hback⟩
  · rw [herror, herror']
    exact Or.inl ⟨error, rfl, rfl⟩
  · rw [hplay, hplay']
    refine Or.inr ⟨front.filter fun e => !e.selects e,
      (back ++ collected.imports.map (removeImport (bareText pre body post))).filter fun e => !e.selects e,
        ?_, ?_, ?_, ?_⟩
    · refine congrArg Except.ok (congrArg (Draft.mk _) ?_)
      rw [List.append_assoc, List.filter_append, List.filter_append, filter_quiet (hquiet ?_)]
      · rfl
      · intro e he
        rcases mem_wrapRender.mp he with rfl | rfl | rfl
        · exact Edit.overwrite_selects ..
        · exact Edit.prepend_selects ..
        · exact Edit.overwrite_selects ..
    · refine congrArg Except.ok (congrArg (Draft.mk _) ?_)
      have himports : (literalSetting options pre body post collected fn).collected.imports.map
          (removeImport (literalSetting options pre body post collected fn).source) =
          (collected.imports.map (removeImport (bareText pre body post))).map (Edit.inset fn.span) := hremoved
      rw [himports, List.append_assoc, ← List.map_append, List.filter_append, List.filter_append,
        filter_quiet (hquiet ?_), recorded_inset, recorded_inset]
      intro e he
      simp only [unwrapLiteral, List.mem_cons, List.not_mem_nil, or_false] at he
      rcases he with rfl | rfl
      · exact Edit.overwrite_selects _ "" _
      · exact Edit.overwrite_selects _ "" _
    · exact fun e he => hfront e (List.mem_filter.mp he).1
    · intro e he
      rcases List.mem_append.mp (List.mem_filter.mp he).1 with he | he
      · exact Or.inl (hback e he)
      · obtain ⟨imported, himported, rfl⟩ := List.mem_map.mp he
        obtain ⟨c, hmem, hspan⟩ := imports_statement hc himported
        exact Or.inr ⟨c, hmem, _, by rw [removeImport, hspan]⟩

end

end Shorthand

end ComponentMacros
