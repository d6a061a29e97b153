import ComponentMacros.Proofs.Collision
import ComponentMacros.Proofs.InsetDraft
import ComponentMacros.Proofs.Opening

/-!
# Edits beside the function

What other sites record stays clear of the function: it replaces nothing that
reaches into it, prepends nothing to it after the members of the literal, and
moves nothing that has only a part of it.
-/

namespace ComponentMacros

/-! ## What is replaced -/

/-- What is replaced is not empty, or it is a member with what parts it from the next. -/
def Edit.Substantial (source : List Char) (program : Tree) (e : Edit) : Prop :=
  e.placement = .overwrite → e.span.start < e.span.stop ∨
    ∃ object ∈ program.nodes, object.kind = .object ∧ e.span ∈ memberRanges source object.children

section
variable {source : List Char} {program : Tree}

theorem removeMember_substantial {object : Tree} (ho : object ∈ program.nodes)
    (hk : object.isObject = true) {i : Nat} :
    ∀ e ∈ removeMember source object.children i, e.Substantial source program := by
  intro e he _
  obtain ⟨r, hr, rfl⟩ := removeMember_mem he
  exact Or.inr ⟨object, ho, Tree.isObject_iff.mp hk, hr⟩

theorem stripInjectionTypes_substantial {injections : Tree} (hi : injections ∈ program.nodes) :
    ∀ e ∈ stripInjectionTypes source injections, e.Substantial source program := by
  intro e he
  obtain ⟨injection, hinj, he⟩ := List.mem_flatMap.mp he
  split at he
  · cases he
  · rename_i value hvalue
    simp only at he
    split at he
    · rename_i hobj
      split at he
      · have hnode := Tree.nodes_trans hi (Tree.child_mem_nodes hinj)
        have hval := Tree.nodes_trans hnode (Tree.child_mem_nodes (Tree.value?_mem hvalue))
        exact removeMember_substantial (Tree.nodes_trans hval value.stripParens_mem) hobj e he
      · cases he
    · cases he

theorem key_substantial (hl : Layout source program) (hshape : Shape program) {site : Site} (hs : site.In program)
    {es : List Edit} (h : stripKey source site = .ok es ∨ expandInjections source site = .ok es) :
    ∀ e ∈ es, e.Substantial source program := by
  rcases h with h | h
  · unfold stripKey at h
    obtain ⟨member, hm, h⟩ := bind_eq_ok h
    cases h
    obtain ⟨ho, hk⟩ := keyedMember_object hs hm
    exact removeMember_substantial ho hk
  · obtain ⟨member, value, hm, hplain, hvalue, hmap, rfl⟩ := expandInjections_ok h
    obtain ⟨ho, hk⟩ := keyedMember_object hs hm
    obtain ⟨key, ht, -⟩ := keyedMember_transfer hl hshape hs hm hplain hvalue hmap
    have hb := ht.bounds hl
    intro e he
    rcases List.mem_append.mp he with he | he
    · exact stripInjectionTypes_substantial (Tree.nodes_trans ht.value_mem value.stripParens_mem) e he
    unfold moveInjections at he
    split at he
    · rw [List.mem_singleton.mp he]
      exact fun _ => Or.inl (by simp only [Edit.overwrite]; omega)
    · split at he
      · rw [List.mem_singleton.mp he]
        exact fun _ => Or.inl (by simp only; omega)
      · rcases List.mem_append.mp he with he | he
        · exact removeMember_substantial ho hk e he
        · intro hplace
          rcases addMixin_mem he with rfl | ⟨before, after, rfl⟩ <;> cases hplace

end

section
variable (setting : Setting) {program : Tree} (hl : Layout setting.source program) (hshape : Shape program)
  (hclosed : Closed program) {site : Site} (hs : site.In program)
include hl hclosed hs

theorem whole_substantial {call : Tree} (hcall : site.call? = some call) (text : String) :
    (Edit.overwrite call.span text).Substantial setting.source program :=
  fun _ => Or.inl (call_inside hl hclosed hs hcall text).before_stop

include hshape

theorem definition_substantial (hkind : site.kind = .component ∨ site.kind = .functional) {es : List Edit}
    (h : setting.ownEdits site = .ok es) : ∀ e ∈ es, e.Substantial setting.source program := by
  obtain ⟨call, argument, factory, functional, hcall, hcases⟩ := definition_cases hkind h
  obtain ⟨-, -, -, hin⟩ := definitionCall_mem hs hcall
  obtain ⟨hfront, -, hback⟩ := definition_bounds hl hshape hclosed hs hcall
  have insertion : ∀ {pos : Nat} {text : String}, (Edit.prepend pos text).Substantial setting.source program := by
    intro pos text hp
    cases hp
  -- the last steps replace nothing but the props
  have finish : ∀ {definition : Definition} {outer : List Edit}, definition.In program →
      (∀ e ∈ outer, e.Substantial setting.source program) →
        ∀ e ∈ (finishDefinition setting site definition functional
        (setting.alone.record outer)).draft.edits, e.Substantial setting.source program := by
    intro definition outer hd houter e he
    rcases finishDefinition_cases he with he | ⟨text, rfl⟩ | ⟨props, text, hprops, rfl⟩
    · exact houter e he
    · exact insertion
    · obtain ⟨hp, hk⟩ := props?_mem hd hprops
      have := (hl.object hp (Tree.isObject_iff.mp hk)).bounds.1
      exact fun _ => Or.inl (by simp only [Edit.overwrite]; omega)
  have hfactory : ∀ {render : Tree} {es : List Edit}, injectFactory setting.isFactoryTaken site render = .ok es →
      ∀ e ∈ es, e.Substantial setting.source program := by
    intro render es hes e he hplace
    obtain ⟨pos, text, rfl | rfl⟩ := injectFactory_inserts hes e he <;> cases hplace
  rcases hcases with ⟨hobj, hfactories, rfl⟩ | ⟨-, hf, rfl⟩
  · refine finish (ofObject_in hin hobj) fun e he => ?_
    rcases List.mem_append.mp he with he | he
    · rcases hfactories with rfl | ⟨render, -, hf⟩
      · cases he
      · exact hfactory hf e he
    · rcases mem_unwrap.mp he with rfl | rfl
      · exact fun _ => Or.inl hfront
      · exact fun _ => Or.inl hback
  · refine finish ⟨.start hin, fun o ho => absurd ho (Option.some_ne_none o).symm⟩ fun e he => ?_
    rcases List.mem_append.mp he with he | he
    · exact hfactory hf e he
    · rcases mem_wrapRender.mp he with rfl | rfl | rfl
      · exact fun _ => Or.inl hfront
      · exact insertion
      · exact fun _ => Or.inl hback

theorem makes_substantial {e : Edit} (h : setting.Makes site e) : e.Substantial setting.source program := by
  rcases h with ⟨own, hown, he⟩ | he
  · rcases ownEdits_cases hown with hkind | ⟨es, hes, hsub⟩ | ⟨call, hcall, rfl⟩
    · exact definition_substantial setting hl hshape hclosed hs hkind hown e he
    · exact key_substantial hl hshape hs hes e ((hsub e).mp he).1
    · rw [List.mem_singleton.mp he]
      exact whole_substantial setting hl hclosed hs hcall _
  · unfold Setting.takenEdits at he
    split at he
    · cases he
    · cases hcall : site.call? with
      | none => simp [annotate, hcall] at he
      | some call =>
        rw [annotate_eq hcall, List.mem_singleton] at he
        rw [he]
        exact whole_substantial setting hl hclosed hs hcall _

end

/-! ## Where a definition stands -/

theorem definition_argument {source : List Char} {program : Tree} (hl : Layout source program) {site : Site}
    (hs : site.In program) {call argument : Tree} (hcall : definitionCall site = .ok (call, argument)) :
    call.span.start ≤ site.span.start ∧ site.span.stop ≤ argument.span.start := by
  obtain ⟨hc, -, ha, -⟩ := definitionCall_mem hs hcall
  obtain ⟨-, callee, rest, hparts, hspan⟩ := Site.call?_callee (definitionCall_spec hcall).1
  have hordered := hl.parts hc
  rw [hparts] at hordered
  have hfirst : callee ∈ call.children := by rw [hparts]; exact List.mem_cons_self ..
  have hcallee := Span.contains_iff.mp
    (hl.contains (Tree.nodes_trans hc (Tree.child_mem_nodes hfirst)) callee.stripParens_mem)
  rw [hspan] at hcallee
  have hmem : argument ∈ rest := by
    have harg : argument ∈ call.arguments := by rw [ha]; exact List.mem_singleton_self _
    have htail := (List.mem_filter.mp harg).1
    rwa [hparts] at htail
  have := (hordered.2.2.bounds argument hmem).1
  have := hordered.1
  omega

namespace Shorthand

section
variable {pre body post : List Char} {program call fn : Tree} (h : Shorthand pre body post program call fn)
include h

/-! ## Replacements -/

theorem call_not_parenthesized : call.kind ≠ .parenthesized := by
  obtain ⟨o, ho⟩ := Tree.isCall_iff.mp h.isCall
  simp [ho]

theorem call_ne_of_kind {t : Tree} (ht : t.isCall = false) : t ≠ call := by
  rintro rfl
  rw [h.isCall] at ht
  cases ht

theorem cut_beside {r : Span} (hcut : Cut (bareText pre body post) program r)
    (hcut' : Cut (literalText pre body post) (fn.inset program) (fn.span.insetSpan r)) :
    r.stop ≤ call.span.start ∨ call.span.stop ≤ r.start ∨ r.start ≤ call.span.start ∧ call.span.stop ≤ r.stop ∨
      call.span.start ≤ r.start ∧ r.stop < fn.span.start ∨ fn.span.start ≤ r.start ∧ r.stop ≤ fn.span.stop ∨
      fn.span.stop < r.start ∧ r.stop ≤ call.span.stop := by
  obtain ⟨argument, hargs, hstrip⟩ := h.argument
  obtain ⟨optional, hk⟩ := Tree.isCall_iff.mp h.isCall
  have hfront : Cut (bareText pre body post) program ⟨call.span.start, fn.span.start⟩ := by
    rw [← hstrip]
    exact ⟨call, h.call_mem, .front hk hargs⟩
  have hback : Cut (bareText pre body post) program ⟨fn.span.stop, call.span.stop⟩ := by
    rw [← hstrip]
    exact ⟨call, h.call_mem, .back hk hargs⟩
  have hwhole := h.layout.cuts_laminar hcut (call_cut h.call_mem h.isCall)
  have hfront := h.layout.cuts_laminar hcut hfront
  have hback := h.layout.cuts_laminar hcut hback
  have hclear := Span.clear_of_laminar (h.literalLayout.cuts_laminar hcut'
    ⟨_, h.literal_mem, .whole (Or.inr (Or.inl rfl))⟩)
  have := h.proper
  have := h.headed
  have := h.stop_lt
  unfold Span.Clear at hclear
  unfold Span.Laminar Span.Apart at hwhole hfront hback
  simp only [Span.contains_iff] at hwhole hfront hback
  omega

theorem substantial_before {e : Edit} (hsub : e.Substantial (bareText pre body post) program)
    (ho : e.placement = .overwrite)
    (hordered : e.span.start ≤ e.span.stop) (hstop : e.span.stop ≤ fn.span.stop) :
      e.span.start < fn.span.stop := by
  rcases hsub ho with hlt | ⟨object, hobject, hk, hr⟩
  · omega
  by_contra hge
  have hcomma := h.layout.member_comma hobject hk
  have henclosed := h.layout.object hobject hk
  have hin := memberRanges_bounds henclosed.2.2 hcomma _ hr
  have := henclosed.bounds.1
  have hproper := h.proper
  have hstrip : object.stripParens ≠ fn := by
    rw [Tree.stripParens_of_kind (by simp [hk])]
    exact Tree.ne_of_isFunction h.isFunction (by simp [Tree.isFunction, hk])
  have haround : object.span.start < fn.span.start ∧ fn.span.stop < object.span.stop := by
    have hclear := h.clear hobject
    unfold Span.Clear at hclear
    omega
  rcases Tree.mem_nodes.mp (h.around hobject hstrip haround.1 haround.2) with heq | ⟨c, hc, hcall⟩
  · exact h.call_ne_of_kind (by simp [Tree.isCall, hk]) heq.symm
  · -- the call is in a member, and the member is removed whole or not at all
    have hcs := Span.contains_iff.mp (h.layout.contains (Tree.nodes_trans hobject (Tree.child_mem_nodes hc)) hcall)
    have := h.headed
    have := h.stop_lt
    rcases memberRanges_spare henclosed.2.2 hcomma _ hr c hc with hcontains | hapart
    · have := (Span.contains_iff.mp hcontains).1
      omega
    · unfold Span.Apart at hapart
      omega

/-! ## Insertions -/

theorem part_around {t c : Tree} (ht : t ∈ program.nodes) (hcall : call ∈ t.nodes) (hne : t ≠ call)
    (hc : c ∈ t.children)
    (hstart : c.span.start ≤ fn.span.start) (hstop : fn.span.start ≤ c.span.stop) : call ∈ c.nodes := by
  rcases Tree.mem_nodes.mp hcall with rfl | ⟨d, hd, hin⟩
  · exact absurd rfl hne
  have hds := Span.contains_iff.mp (h.layout.contains (Tree.nodes_trans ht (Tree.child_mem_nodes hd)) hin)
  rcases (h.layout.parts ht).eq_or_apart c hc d hd with rfl | hapart
  · exact hin
  · have := h.proper
    have := h.headed
    have := h.stop_lt
    unfold Span.Apart at hapart
    omega

theorem memberValue_start {object property value : Tree} (ho : object ∈ program.nodes) (hk : object.kind = .object)
    (hp : property ∈ object.children) (hv : property.value? = some value) :
      value.stripParens.span.start ≠ fn.span.start := by
  intro heq
  have hpp := Tree.nodes_trans ho (Tree.child_mem_nodes hp)
  have hvp := Tree.nodes_trans hpp (Tree.child_mem_nodes (Tree.value?_mem hv))
  have hmember := (h.layout.object ho hk).bounds.2 property hp
  have hvalue := (h.layout.parts hpp).bounds value (Tree.value?_mem hv)
  have hstrip := Span.contains_iff.mp (h.layout.contains hvp value.stripParens_mem)
  have hordered := h.layout.ordered (Tree.nodes_trans hvp value.stripParens_mem)
  have haround : object.span.start < fn.span.start ∧ fn.span.stop < object.span.stop := by
    have hclear := h.clear ho
    have := h.proper
    unfold Span.Clear at hclear
    omega
  have hne : object.stripParens ≠ fn := by
    rw [Tree.stripParens_of_kind (by simp [hk])]
    exact Tree.ne_of_isFunction h.isFunction (by simp [Tree.isFunction, hk])
  obtain ⟨a, c, s, m, hkind⟩ := Tree.isProperty_iff.mp (Tree.value?_isProperty hv)
  -- the call is in the object, hence in the member, hence in its value
  have hobject := h.around ho hne haround.1 haround.2
  have hproperty :=
    h.part_around ho hobject (h.call_ne_of_kind (by simp [Tree.isCall, hk])) hp (by omega) (by omega)
  have hcall := h.part_around hpp hproperty (h.call_ne_of_kind (by simp [Tree.isCall, hkind])) (Tree.value?_mem hv)
    (by omega) (by omega)
  have hin := Tree.mem_stripParens_of_kind hcall h.call_not_parenthesized
  have := Span.contains_iff.mp (h.layout.contains (Tree.nodes_trans hvp value.stripParens_mem) hin)
  have := h.headed
  omega

theorem key_first {site : Site} (hs : site.In program) {source : List Char} {es : List Edit}
    (hes : stripKey source site = .ok es ∨ expandInjections source site = .ok es) :
    ∀ e ∈ es, e.placement = .prepend → e.span.start ≠ fn.span.start := by
  have removed : ∀ {members : List Tree} {i : Nat}, ∀ e ∈ removeMember source members i,
      e.placement ≠ .prepend := by
    intro members i e he
    obtain ⟨r, -, rfl⟩ := removeMember_mem he
    exact nofun
  intro e he hplace
  rcases hes with hes | hes
  · unfold stripKey at hes
    obtain ⟨member, -, hes⟩ := bind_eq_ok hes
    cases hes
    exact absurd hplace (removed e he)
  · obtain ⟨member, value, hm, -, -, -, rfl⟩ := expandInjections_ok hes
    obtain ⟨ho, hk⟩ := keyedMember_object hs hm
    rcases List.mem_append.mp he with he | he
    · obtain ⟨injection, -, he⟩ := List.mem_flatMap.mp he
      split at he
      · cases he
      · simp only at he
        split at he
        · split at he
          · exact absurd hplace (removed e he)
          · cases he
        · cases he
    unfold moveInjections at he
    split at he
    · rw [List.mem_singleton.mp he] at hplace
      cases hplace
    · split at he
      · rw [List.mem_singleton.mp he] at hplace
        cases hplace
      · rename_i mixins hmixins
        obtain ⟨m, hmem, -, hv⟩ := memberValue_mem hmixins
        rcases List.mem_append.mp he with he | he
        · exact absurd hplace (removed e he)
        · rcases addMixin_mem he with rfl | ⟨before, after, rfl⟩
          · exact h.memberValue_start ho (Tree.isObject_iff.mp hk) hmem hv
          · cases hplace

/-- A call of a macro further on in the text does not start in front of the function and reach over it. -/
theorem later_call_apart (hshape : Shape program) {site s : Site} (hsite : site.In program)
    (hcall : site.call? = some call) (hs : s.In program) (hlater : site.span.stop ≤ s.span.start) {other : Tree}
    (hother : s.call? = some other) :
    other.span.stop < fn.span.start ∨ fn.span.start ≤ other.span.start := by
  have hc := hs.ancestor_mem (Site.call?_mem hother)
  obtain ⟨-, -, -, -, hpos, -⟩ := hsite.node hshape
  obtain ⟨-, -, -, -, hpos', -⟩ := hs.node hshape
  have hproper := h.proper
  rcases h.clear hc with hclear | hclear | ⟨hbefore, hbehind⟩ | hclear
  · exact Or.inl hclear
  · exact Or.inr (by omega)
  swap
  · exact Or.inr hclear.1
  -- a call around this one has its own name in front of it
  exfalso
  obtain ⟨hk, callee, rest, hparts, hspan⟩ := Site.call?_callee hother
  have hne : other.stripParens ≠ fn := by
    obtain ⟨o, ho⟩ := Tree.isCall_iff.mp hk
    rw [Tree.stripParens_of_kind (by simp [ho])]
    exact Tree.ne_of_isFunction h.isFunction (by simp [Tree.isFunction, ho])
  have hcallee : callee ∈ other.children := by rw [hparts]; exact List.mem_cons_self ..
  have hcalleep := Tree.nodes_trans hc (Tree.child_mem_nodes hcallee)
  have hordered := h.layout.parts hc
  rw [hparts] at hordered
  have hstrip := Span.contains_iff.mp (h.layout.contains hcalleep callee.stripParens_mem)
  rw [hspan] at hstrip
  rcases Tree.mem_nodes.mp (h.around hc hne hbefore hbehind) with rfl | ⟨d, hd, hin⟩
  · obtain ⟨-, callee', rest', hparts', hspan'⟩ := Site.call?_callee hcall
    rw [hparts] at hparts'
    obtain ⟨rfl, -⟩ := List.cons.inj hparts'
    rw [hspan] at hspan'
    rw [hspan'] at hpos'
    have := congrArg Span.start hspan'
    omega
  · have hdin := Span.contains_iff.mp (h.layout.contains (Tree.nodes_trans hc (Tree.child_mem_nodes hd)) hin)
    have hsitein := Span.contains_iff.mp (hsite.contains h.layout (Site.call?_mem hcall))
    rw [hparts] at hd
    rcases List.mem_cons.mp hd with rfl | hd
    · have hname := Tree.mem_stripParens_of_kind hin h.call_not_parenthesized
      have := Span.contains_iff.mp (h.layout.contains (Tree.nodes_trans hcalleep d.stripParens_mem) hname)
      rw [hspan] at this
      omega
    · have := (hordered.2.2.bounds d hd).1
      omega

theorem definition_first (hshape : Shape program) {setting : Setting} {site s : Site} (hsite : site.In program)
    (hcall : site.call? = some call) (hs : s.In program) (hkind : s.kind = .component ∨ s.kind = .functional)
    (hlater : site.span.stop ≤ s.span.start) {es : List Edit}
    (hes : setting.ownEdits s = .ok es) : ∀ e ∈ es, e.placement = .prepend → e.span.start ≠ fn.span.start := by
  obtain ⟨other, argument, hother, hedits⟩ := definition_edits hkind hes
  obtain ⟨hc, -, hargs, -⟩ := definitionCall_mem hs hother
  have harg := Tree.nodes_trans hc (Tree.child_mem_nodes (Tree.arguments_mem hargs))
  have hargin := (h.layout.parts hc).bounds argument (Tree.arguments_mem hargs)
  -- its argument starts behind its name
  obtain ⟨hstart, hname⟩ := definition_argument h.layout hs hother
  obtain ⟨-, -, -, -, hpos, -⟩ := hs.node hshape
  have hapart := h.later_call_apart hshape hsite hcall hs hlater (definitionCall_spec hother).1
  intro e he hplace
  cases hedits e he with
  | front text => cases hplace
  | back text => cases hplace
  | within hrecorded =>
    cases hrecorded with
    | replace _ => cases hplace
    | append _ => cases hplace
    | move _ _ _ _ _ hm => cases hm <;> cases hplace
    | @prepend pos text hanchor =>
      have hbounds := hanchor.bounds h.layout harg
      simp only [Edit.prepend]
      omega

theorem makes_first (hshape : Shape program) {setting : Setting} {site s : Site} (hsite : site.In program)
    (hkind : site.kind = .functional) (hcall : site.call? = some call) (hs : s.In program)
    (hprecedes : site.Precedes s) {e : Edit} (hmakes : setting.Makes s e) (hplace : e.placement = .prepend) :
    e.span.start ≠ fn.span.start := by
  obtain ⟨hcomponent, hfunctional⟩ := hprecedes hkind
  rcases hmakes with ⟨own, hown, he⟩ | he
  · rcases ownEdits_cases hown with hdefinition | ⟨es, hes, hsub⟩ | ⟨other, -, rfl⟩
    · have hlater := hfunctional (hdefinition.resolve_left hcomponent)
      exact h.definition_first hshape hsite hcall hs hdefinition hlater hown e he hplace
    · exact h.key_first hs hes e ((hsub e).mp he).1 hplace
    · rw [List.mem_singleton.mp he] at hplace
      cases hplace
  · unfold Setting.takenEdits at he
    split at he
    · cases he
    · cases hother : s.call? with
      | none => simp [annotate, hother] at he
      | some other =>
        rw [annotate_eq hother, List.mem_singleton] at he
        rw [he] at hplace
        cases hplace

/-! ## References -/

theorem recorded_aligned {e : Edit} (hrecorded : Recorded (bareText pre body post) program e) :
    ∀ range, .source range ∈ e.content → fn.span.Aligned call.span range := by
  intro range hr
  cases hrecorded with
  | replace _ => exact absurd hr Fragment.source_not_mem_ofText
  | prepend _ => exact absurd hr Fragment.source_not_mem_ofText
  | append _ => exact absurd hr Fragment.source_not_mem_ofText
  | @move site member value _ hs hm _ hvalue _ he =>
    obtain ⟨hprop, hk⟩ := keyedMember_property hs hm
    have hin := Tree.nodes_trans hprop (Tree.child_mem_nodes (Tree.value?_mem hvalue))
    rw [he.source_mem.mp hr]
    have hordered := h.layout.ordered hin
    rcases h.clear hin with hclear | hclear | ⟨hstart, hstop⟩ | hclear
    · exact Or.inr ⟨hordered, Or.inl hclear⟩
    · exact Or.inr ⟨hordered, Or.inr (Or.inr hclear)⟩
    · have hcall := h.around hin (h.value_ne hprop hk (Tree.value?_mem hvalue)) hstart hstop
      exact Or.inl (Span.contains_iff.mp (h.layout.contains hin hcall))
    · exact Or.inr ⟨hordered, Or.inr (Or.inl hclear)⟩

/-! ## Both drafts -/

theorem beside (hshape : Shape program) {options : Options} {collected : Collected} {site : Site}
    (hcollect : collect? options program = some collected)
    (hcollect' : collect? options (fn.inset program) = some (collected.inset fn))
    (hsite : site ∈ collected.usages.pending)
    (hkind : site.kind = .functional) (hcall : site.call? = some call) {texts : List String}
    {front back : List Edit} (hdraft : expansion (bareSetting options pre body post collected) =
      .ok ⟨bareText pre body post, bareEdits call.span fn.span texts front back⟩)
    (hdraft' : expansion (literalSetting options pre body post collected fn) =
      .ok ⟨literalText pre body post, literalEdits call.span fn.span texts front back⟩)
    (hfront : ∀ e ∈ front, e.placement = .overwrite → ∃ s ∈ collected.usages.pending, s.call? ≠ some call ∧
      (bareSetting options pre body post collected).Makes s e)
    (hback : ∀ e ∈ back, (∃ s ∈ collected.usages.pending, s.call? ≠ some call ∧ site.Precedes s ∧
      (bareSetting options pre body post collected).Makes s e) ∨
        ∃ c ∈ program.children, ∃ stop, e = .remove c.span.start stop) :
    Beside fn.span call.span front back := by
  have hsites := collect?_sites hcollect
  have hrecorded := expansion_recorded h.layout.root hcollect hdraft
  have hrecorded' := expansion_recorded h.literalLayout.root hcollect' hdraft'
  have htidy := hrecorded.tidy h.layout
  have hmem : ∀ e ∈ front ++ back, e ∈ bareEdits call.span fn.span texts front back := by
    intro e he
    rcases List.mem_append.mp he with he | he
    · exact List.mem_append_left _ he
    · exact List.mem_append_right _ (List.mem_cons_of_mem _ (List.mem_append_right _ he))
  have hmem' : ∀ e ∈ front ++ back, e.inset fn.span ∈ literalEdits call.span fn.span texts front back := by
    intro e he
    rcases List.mem_append.mp he with he | he
    · exact List.mem_append_left _ (List.mem_map_of_mem he)
    · exact List.mem_append_right _ (List.mem_cons_of_mem _ (List.mem_append_right _ (List.mem_map_of_mem he)))
  have hmade : ∀ {s : Site} {e : Edit}, s ∈ collected.usages.pending →
      (bareSetting options pre body post collected).Makes s e →
      e.Substantial (bareText pre body post) program := fun hs hmakes =>
    makes_substantial (bareSetting options pre body post collected) h.layout hshape h.closed (hsites _ hs) hmakes
  have hproper := h.proper
  have hheaded := h.headed
  have hended := h.stop_lt
  refine ⟨hheaded, hended, fun e he => htidy.ordered e (hmem e he), fun e he => htidy.point e (hmem e he), ?_, ?_,
    fun e he => h.recorded_aligned (hrecorded.edits e (hmem e he))⟩
  · intro e he ho
    have hordered := htidy.ordered e (hmem e he)
    have hcut := h.cut_beside ((hrecorded.edits e (hmem e he)).cut ho) ((hrecorded'.edits _ (hmem' e he)).cut ho)
    have hbefore : fn.span.start ≤ e.span.start → e.span.stop ≤ fn.span.stop → e.span.start < fn.span.stop := by
      intro hstart hstop
      have made : ∀ {s : Site}, s ∈ collected.usages.pending →
        (bareSetting options pre body post collected).Makes s e →
          e.span.start < fn.span.stop := fun hs hmakes => h.substantial_before (hmade hs hmakes) ho hordered hstop
      rcases List.mem_append.mp he with he | he
      · obtain ⟨s, hs, -, hmakes⟩ := hfront e he ho
        exact made hs hmakes
      · rcases hback e he with ⟨s, hs, -, -, hmakes⟩ | ⟨c, hc, stop, rfl⟩
        · exact made hs hmakes
        · -- an import is no part of the statement with the call
          simp only [Edit.remove] at hstart hstop hordered ⊢
          have hroot := Tree.mem_nodes_self program
          have hpositive := h.closed.statement h.layout.root hc
          rcases Tree.mem_nodes.mp h.call_mem with heq | ⟨d, hd, hin⟩
          · exact absurd heq.symm (h.call_ne_of_kind (by simp [Tree.isCall, h.layout.root]))
          · have hds :=
              Span.contains_iff.mp (h.layout.contains (Tree.nodes_trans hroot (Tree.child_mem_nodes hd)) hin)
            rcases (h.layout.parts hroot).eq_or_apart c hc d hd with rfl | hapart
            · omega
            · unfold Span.Apart at hapart
              omega
    omega
  · intro e he hplace
    rcases hback e he with ⟨s, hs, -, hprecedes, hmakes⟩ | ⟨c, hc, stop, rfl⟩
    · exact h.makes_first hshape (hsites site hsite) hkind hcall (hsites s hs) hprecedes hmakes hplace
    · cases hplace

end

end Shorthand

end ComponentMacros
