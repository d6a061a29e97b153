import ComponentMacros.Proofs.Locality

/-!
# The brace of an unwrapped literal

No edit of an expansion starts where an unwrapped object literal starts. From any
other node around this position the way down leads through the call that is
dropped, so the position is strictly inside of a part of the node. Rules put
their edits where a part starts or ends.
-/

namespace ComponentMacros

def Tree.Around (t : Tree) (pos : Nat) : Prop :=
  t.span.start < pos ∧ pos < t.span.stop

structure Wraps (program call argument : Tree) : Prop where
  mem : call ∈ program.nodes
  isCall : call.isCall = true
  arguments : call.arguments = [argument]
  isObject : argument.stripParens.isObject = true
  before : call.span.start < argument.stripParens.span.start

/-- The literal of a definition is a node, and no new member goes to the start of the other literal. -/
structure Spares (program argument : Tree) (definition : Definition) : Prop where
  insertAt : definition.insertAt ≠ argument.stripParens.span.start
  object : ∀ object, definition.object = some object → object ∈ program.nodes ∧ object.kind = .object

theorem Tree.Around.of_mem {source : List Char} {program t n : Tree} {pos : Nat} (h : n.Around pos)
    (hl : Layout source program) (ht : t ∈ program.nodes) (hn : n ∈ t.nodes) : t.Around pos := by
  have := Span.contains_iff.mp (hl.contains ht hn)
  unfold Tree.Around at h ⊢
  omega

theorem isObject_of_parameterList {t : Tree} (h : t.parameterList?.isSome = true) : t.isObject = false := by
  apply decide_eq_false
  intro hk
  simp [Tree.parameterList?, hk] at h

theorem definition_bounds {program : Tree} {source : List Char} {site : Site} (hl : Layout source program)
    (hshape : Shape program) (hclosed : Closed program) (hs : site.In program) {call argument : Tree}
    (hcall : definitionCall site = .ok (call, argument)) :
    call.span.start < argument.stripParens.span.start ∧
      argument.stripParens.span.start ≤ argument.stripParens.span.stop ∧
        argument.stripParens.span.stop < call.span.stop := by
  obtain ⟨hc, hk, ha, hin⟩ := definitionCall_mem hs hcall
  obtain ⟨-, callee, rest, hparts, hspan⟩ := Site.call?_callee (definitionCall_spec hcall).1
  have harg := Tree.arguments_mem ha
  have hargp := Tree.nodes_trans hc (Tree.child_mem_nodes harg)
  have hstrip := Span.contains_iff.mp (hl.contains hargp argument.stripParens_mem)
  have hend := hclosed.call hc hk harg
  have hord := hl.ordered hin
  refine ⟨?_, hord, by omega⟩
  -- the callee is a name, and the argument is behind it
  obtain ⟨-, -, -, -, hpos, -⟩ := hs.node hshape
  have hcalleep : callee ∈ call.children := by rw [hparts]; exact List.mem_cons_self ..
  have hname := Span.contains_iff.mp
    (hl.contains (Tree.nodes_trans hc (Tree.child_mem_nodes hcalleep)) callee.stripParens_mem)
  have hordered := hl.parts hc
  rw [hparts] at hordered
  have hrest : argument ∈ rest := by
    have : argument ∈ call.arguments := by rw [ha]; exact List.mem_singleton_self _
    have := (List.mem_filter.mp this).1
    rwa [hparts] at this
  have hbehind := (hordered.2.2.bounds argument hrest).1
  have hfirst := hordered.1
  rw [hspan] at hname
  omega

/-! ## The way down -/

namespace Wraps

section
variable {source : List Char} {program call argument : Tree}
variable (h : Wraps program call argument) (hl : Layout source program)

include h

theorem literal_mem : argument.stripParens ∈ program.nodes :=
  Tree.nodes_trans h.mem (Tree.mem_nodes_of_child (Tree.arguments_mem h.arguments) argument.stripParens_mem)

theorem call_not_parenthesized : call.kind ≠ .parenthesized := by
  obtain ⟨o, hk⟩ := Tree.isCall_iff.mp h.isCall
  rw [hk]
  exact nofun

theorem ne_call {t : Tree} (hk : t.isCall = false) : t ≠ call := by
  rintro rfl
  rw [h.isCall] at hk
  cases hk

include hl

theorem enclosed : argument.stripParens.Enclosed source '\x7b' '\x7d' :=
  hl.object h.literal_mem (Tree.isObject_iff.mp h.isObject)

theorem call_around : call.Around argument.stripParens.span.start := by
  have hlit := (h.enclosed hl).bounds.1
  have hin := Span.contains_iff.mp
    (hl.contains h.mem (Tree.mem_nodes_of_child (Tree.arguments_mem h.arguments) argument.stripParens_mem))
  exact ⟨h.before, by omega⟩

theorem call_mem {t : Tree} (ht : t ∈ program.nodes) (hk : t.kind ≠ .parenthesized)
    (hne : t ≠ argument.stripParens)
    (hstart : t.span.start ≤ argument.stripParens.span.start)
    (hstop : argument.stripParens.span.start < t.span.stop) :
    call ∈ t.nodes := by
  obtain ⟨hlong, hparts⟩ := (h.enclosed hl).bounds
  have hcall := h.call_around hl
  unfold Tree.Around at hcall
  have harg := Tree.arguments_mem h.arguments
  rcases hl.nested ht h.literal_mem (by unfold Span.Apart; omega) with hin | hin
  · -- the parts of the literal start behind its brace
    rcases Tree.mem_nodes.mp hin with heq | ⟨c, hc, htc⟩
    · exact absurd heq hne
    · have := hparts c hc
      have := Span.contains_iff.mp (hl.contains (Tree.nodes_trans h.literal_mem (Tree.child_mem_nodes hc)) htc)
      omega
  · rcases hl.nested h.mem ht (by unfold Span.Apart; omega) with hct | htc
    · exact hct
    rcases Tree.mem_nodes.mp htc with rfl | ⟨c, hc, htc⟩
    · exact Tree.mem_nodes_self t
    -- between the call and the literal there are only parentheses
    have hsame : c = argument := by
      rcases (hl.parts h.mem).eq_or_apart c hc argument harg with heq | hap
      · exact heq
      · have h₁ := Span.contains_iff.mp
          (hl.contains (Tree.nodes_trans h.mem (Tree.child_mem_nodes hc)) (Tree.nodes_trans htc hin))
        have h₂ := Span.contains_iff.mp
          (hl.contains (Tree.nodes_trans h.mem (Tree.child_mem_nodes harg)) argument.stripParens_mem)
        unfold Span.Apart at hap
        omega
    rw [hsame] at htc
    exact absurd (Tree.eq_of_mem_of_mem (Tree.mem_stripParens_of_kind htc hk) hin) hne

theorem exists_part {t : Tree} (ht : t ∈ program.nodes) (hk : t.kind ≠ .parenthesized) (hne : t ≠ call)
    (ha : t.Around argument.stripParens.span.start) : ∃ c ∈ t.children, call ∈ c.nodes := by
  have hlit : t ≠ argument.stripParens := by
    rintro rfl
    exact Nat.lt_irrefl _ ha.1
  exact (Tree.mem_nodes.mp (h.call_mem hl ht hk hlit (Nat.le_of_lt ha.1) ha.2)).resolve_left (Ne.symm hne)

theorem part {t c : Tree} (ht : t ∈ program.nodes) (hk : t.kind ≠ .parenthesized) (hne : t ≠ call)
    (ha : t.Around argument.stripParens.span.start) (hc : c ∈ t.children)
    (hstart : c.span.start ≤ argument.stripParens.span.start)
    (hstop : argument.stripParens.span.start ≤ c.span.stop) :
    c.Around argument.stripParens.span.start ∧ c.stripParens.Around argument.stripParens.span.start := by
  obtain ⟨d, hd, hcall⟩ := h.exists_part hl ht hk hne ha
  have around := (h.call_around hl).of_mem hl (Tree.nodes_trans ht (Tree.child_mem_nodes hd)) hcall
  obtain rfl : d = c := by
    rcases (hl.parts ht).eq_or_apart d hd c hc with heq | hap
    · exact heq
    · unfold Tree.Around at around
      unfold Span.Apart at hap
      omega
  have hdp := Tree.nodes_trans ht (Tree.child_mem_nodes hd)
  exact ⟨around, (h.call_around hl).of_mem hl (Tree.nodes_trans hdp d.stripParens_mem)
    (Tree.mem_stripParens_of_kind hcall h.call_not_parenthesized)⟩

/-! ## Members -/

theorem member_around {object m : Tree} (ho : object ∈ program.nodes) (hk : object.kind = .object)
    (hm : m ∈ object.children) (hstart : m.span.start ≤ argument.stripParens.span.start)
    (hstop : argument.stripParens.span.start ≤ m.span.stop) : m.Around argument.stripParens.span.start := by
  have hb := (hl.object ho hk).bounds.2 m hm
  exact (h.part hl ho (by simp [hk]) (h.ne_call (by simp [Tree.isCall, hk]))
    ⟨by omega, by omega⟩ hm hstart hstop).1

theorem member_start {object m : Tree} (ho : object ∈ program.nodes) (hk : object.kind = .object)
    (hm : m ∈ object.children) : m.span.start ≠ argument.stripParens.span.start := by
  intro heq
  have hb := (hl.object ho hk).bounds.2 m hm
  have := (h.member_around hl ho hk hm (by omega) (by omega)).1
  omega

theorem value_around {object m value : Tree} (ho : object ∈ program.nodes) (hk : object.kind = .object)
    (hm : m ∈ object.children) (hv : m.value? = some value)
    (hstart : value.stripParens.span.start ≤ argument.stripParens.span.start)
    (hstop : argument.stripParens.span.start ≤ value.stripParens.span.stop) :
    value.stripParens.Around argument.stripParens.span.start := by
  have hmp := Tree.nodes_trans ho (Tree.child_mem_nodes hm)
  have hvm := Tree.value?_mem hv
  have hin := (hl.parts hmp).bounds value hvm
  have hstrip := Span.contains_iff.mp
    (hl.contains (Tree.nodes_trans hmp (Tree.child_mem_nodes hvm)) value.stripParens_mem)
  have around := h.member_around hl ho hk hm (by omega) (by omega)
  obtain ⟨a, c, s, i, hprop⟩ : ∃ a c s i, m.kind = .property a c s i := by
    unfold Tree.value? at hv
    split at hv
    · rename_i hp
      exact Tree.isProperty_iff.mp hp
    · cases hv
  have hne := h.ne_call (t := m) (by simp [Tree.isCall, hprop])
  exact (h.part hl hmp (by simp [hprop]) hne around hvm (by omega) (by omega)).2

/-! ## Definitions -/

theorem call_start {t : Tree} (ht : t ∈ program.nodes) (hk : t.isCall = true) (hpos : t.span.start < t.span.stop) :
    t.span.start ≠ argument.stripParens.span.start := by
  intro heq
  obtain ⟨o, hkind⟩ := Tree.isCall_iff.mp hk
  have hne : t ≠ argument.stripParens := by
    rintro rfl
    have := Tree.isObject_iff.mp h.isObject
    rw [hkind] at this
    cases this
  have hin := h.call_mem hl ht (by simp [hkind]) hne (Nat.le_of_eq heq) (by omega)
  have := (Span.contains_iff.mp (hl.contains ht hin)).1
  have := h.before
  omega

/-- The argument of another definition is the one of this call, or has the start of the literal strictly
inside if it reaches to it. -/
theorem argument_around {other inner : Tree} (ho : other ∈ program.nodes) (hk : other.isCall = true)
    (ha : other.arguments = [inner]) (hbefore : other.span.start < inner.stripParens.span.start)
    (hbehind : inner.stripParens.span.stop < other.span.stop)
    (hstart : inner.stripParens.span.start ≤ argument.stripParens.span.start)
    (hstop : argument.stripParens.span.start ≤ inner.stripParens.span.stop) :
    inner = argument ∨ inner.stripParens.Around argument.stripParens.span.start := by
  by_cases hsame : other = call
  · rw [hsame, h.arguments] at ha
    exact Or.inl (List.singleton_inj.mp ha).symm
  · obtain ⟨o, hkind⟩ := Tree.isCall_iff.mp hk
    have hmem := Tree.arguments_mem ha
    have hin := Span.contains_iff.mp
      (hl.contains (Tree.nodes_trans ho (Tree.child_mem_nodes hmem)) inner.stripParens_mem)
    exact Or.inr (h.part hl ho (by simp [hkind]) hsame ⟨by omega, by omega⟩ hmem (by omega) (by omega)).2

theorem ofObject_spares {object : Tree} (ho : object ∈ program.nodes) (hk : object.kind = .object) (other : Tree) :
    Spares program argument (.ofObject other object) := by
  unfold Definition.ofObject
  split
  · rename_i first rest hcs
    refine ⟨h.member_start hl ho hk (by rw [hcs]; exact List.mem_cons_self ..), ?_⟩
    intro o hobj; cases hobj; exact ⟨ho, hk⟩
  · rename_i hcs
    refine ⟨?_, by intro o hobj; cases hobj; exact ⟨ho, hk⟩⟩
    intro heq
    simp only at heq
    have hb := (hl.object ho hk).bounds.1
    obtain ⟨c, hc, -⟩ := h.exists_part hl ho (by simp [hk]) (h.ne_call (by simp [Tree.isCall, hk]))
      ⟨by omega, by omega⟩
    rw [hcs] at hc
    cases hc

theorem props_start {definition : Definition} (hd : Spares program argument definition) {props : Tree}
    (hp : definition.props? = some props) : props.span.start ≠ argument.stripParens.span.start := by
  unfold Definition.props? at hp
  simp only [Option.bind_eq_bind, Option.bind_eq_some_iff] at hp
  obtain ⟨object, hobj, ⟨i, property⟩, hfind, value, hvalue, hif⟩ := hp
  obtain ⟨ho, hk⟩ := hd.object object hobj
  have hm := List.mem_of_getElem? (findMember?_mem hfind).1
  have hv := Tree.nodes_trans (Tree.nodes_trans ho (Tree.child_mem_nodes hm))
    (Tree.child_mem_nodes (Tree.value?_mem hvalue))
  have hord := hl.ordered (Tree.nodes_trans hv value.stripParens_mem)
  split at hif
  · cases hif
    intro heq
    have := (h.value_around hl ho hk hm hvalue (by omega) (by omega)).1
    omega
  · cases hif

theorem finishDefinition_start {setting : Setting} {site : Site} {definition : Definition}
    (hd : Spares program argument definition) (functional : Bool) {outer : List Edit}
    (houter : ∀ e ∈ outer, e.span.start ≠ argument.stripParens.span.start) :
    ∀ e ∈ (finishDefinition setting site definition functional (setting.alone.record outer)).draft.edits,
      e.span.start ≠ argument.stripParens.span.start := by
  intro e he
  rcases finishDefinition_cases he with he | ⟨text, rfl⟩ | ⟨props, text, hprops, rfl⟩
  · exact houter e he
  · exact hd.insertAt
  · exact h.props_start hl hd hprops

/-! ## The element factory -/

theorem prependFactory_start {list : Tree} (hlist : list ∈ program.nodes) (hk : list.kind = .parameters)
    (hedges : list.span.start ≠ argument.stripParens.span.start ∧
      list.span.stop ≠ argument.stripParens.span.start) :
    ∀ e ∈ prependFactory list, e.span.start ≠ argument.stripParens.span.start := by
  have hparen : list.kind ≠ .parenthesized := by simp [hk]
  have hne := h.ne_call (t := list) (by simp [Tree.isCall, hk])
  intro e he
  rcases hl.parameters hlist hk with henclosed | hbare
  · have edges : ∀ c ∈ list.children,
        c.span.start ≠ argument.stripParens.span.start ∧ c.span.stop ≠ argument.stripParens.span.start := by
      intro c hc
      have hb := henclosed.bounds.2 c hc
      constructor
      · intro heq
        have := (h.part hl hlist hparen hne ⟨by omega, by omega⟩ hc (by omega) (by omega)).1.1
        omega
      · intro heq
        have := (h.part hl hlist hparen hne ⟨by omega, by omega⟩ hc (by omega) (by omega)).1.2
        omega
    unfold prependFactory at he
    split at he
    · rename_i this hthis
      rw [List.mem_singleton.mp he]
      exact (edges this (List.mem_of_find?_eq_some hthis)).2
    · rename_i first more _ hplain
      have hfirst : first ∈ list.plainParameters := by rw [hplain]; exact List.mem_cons_self ..
      have hfirst := edges first (List.mem_filter.mp hfirst).1
      split at he
      · simp only [List.mem_cons, List.not_mem_nil, or_false] at he
        rcases he with rfl | rfl
        · exact hfirst.1
        · exact hfirst.2
      · rw [List.mem_singleton.mp he]
        exact hfirst.1
    · rename_i rest _ _ hrest
      rw [List.mem_singleton.mp he]
      exact (edges rest (List.mem_of_find?_eq_some hrest)).1
    · rw [List.mem_singleton.mp he]
      show list.span.stop - 1 ≠ _
      intro heq
      have hb := henclosed.bounds
      obtain ⟨c, hc, hcall⟩ := h.exists_part hl hlist hparen hne ⟨by omega, by omega⟩
      have := ((h.call_around hl).of_mem hl (Tree.nodes_trans hlist (Tree.child_mem_nodes hc)) hcall).2
      have := hb.2 c hc
      omega
  · -- the one parameter is all there is of the list
    obtain ⟨first, hcs, hfirst⟩ := List.map_eq_singleton_iff.mp hbare
    simp only [Prod.mk.injEq] at hfirst
    have heq : prependFactory list = [.prepend first.span.start "(h, ", .append first.span.stop ")"] := by
      simp [prependFactory, Tree.find?, Tree.plainParameters, hcs, hfirst]
    simp only [heq, List.mem_cons, List.not_mem_nil, or_false] at he
    rw [← hfirst.2] at hedges
    rcases he with rfl | rfl
    · exact hedges.1
    · exact hedges.2

theorem injectFactory_start {isTaken : Span → Bool} {site : Site} {render : Tree}
    (hr : render.stripParens ∈ program.nodes)
    (hreach : render.stripParens.span.start ≤ argument.stripParens.span.start →
      argument.stripParens.span.start ≤ render.stripParens.span.stop →
      render.stripParens.Around argument.stripParens.span.start)
    {es : List Edit} (hes : injectFactory isTaken site render = .ok es) :
    ∀ e ∈ es, e.span.start ≠ argument.stripParens.span.start := by
  unfold injectFactory at hes
  simp only at hes
  split at hes
  · cases hes; simp
  · rename_i list hlist
    obtain ⟨hmem, hk⟩ := parameterList?_mem hlist
    have hlp := Tree.nodes_trans hr (Tree.child_mem_nodes hmem)
    have hb := (hl.parts hr).bounds list hmem
    have hparen : render.stripParens.kind ≠ .parenthesized := by
      intro hkind
      simp [Tree.parameterList?, hkind] at hlist
    have hne := h.ne_call (t := render.stripParens) (by
      unfold Tree.isCall
      split
      · rename_i hkind
        simp [Tree.parameterList?, hkind] at hlist
      · rfl)
    split at hes
    · cases hes; simp
    · split at hes
      · cases hes
      · cases hes
        refine h.prependFactory_start hl hlp hk ⟨fun heq => ?_, fun heq => ?_⟩
        · have := (h.part hl hr hparen hne (hreach (by omega) (by omega)) hmem (by omega) (by omega)).1.1
          omega
        · have := (h.part hl hr hparen hne (hreach (by omega) (by omega)) hmem (by omega) (by omega)).1.2
          omega

/-! ## Keys -/

theorem removeMember_start {object : Tree} (ho : object ∈ program.nodes) (hk : object.kind = .object) {i : Nat} :
    ∀ e ∈ removeMember source object.children i, e.span.start ≠ argument.stripParens.span.start := by
  intro e he
  obtain ⟨r, hr, rfl⟩ := removeMember_mem he
  obtain ⟨m, hm, hstart, -⟩ := memberRanges_start hr
  show r.start ≠ _
  rw [hstart]
  exact h.member_start hl ho hk hm

theorem addMixin_start {object m mixins : Tree} (ho : object ∈ program.nodes) (hk : object.kind = .object)
    (hm : m ∈ object.children) (hv : m.value? = some mixins) (injections : Span) :
    ∀ e ∈ addMixin mixins injections, e.span.start ≠ argument.stripParens.span.start := by
  have hmp := Tree.nodes_trans (Tree.nodes_trans ho (Tree.child_mem_nodes hm))
    (Tree.child_mem_nodes (Tree.value?_mem hv))
  have hlist := Tree.nodes_trans hmp mixins.stripParens_mem
  have hb := mixinEnd_bounds hl hmp
  have reach := h.value_around hl ho hk hm hv
  intro e he
  rcases addMixin_mem he with rfl | ⟨before, after, rfl⟩
  · intro heq
    have heq : mixins.stripParens.span.start = _ := heq
    have := (reach (by omega) (by omega)).1
    omega
  show mixinEnd mixins ≠ _
  intro heq
  have around := reach (by omega) (by omega)
  by_cases harr : mixins.stripParens.kind = .array
  · have hparen : mixins.stripParens.kind ≠ .parenthesized := by simp [harr]
    have hne := h.ne_call (t := mixins.stripParens) (by simp [Tree.isCall, harr])
    cases hlast : mixins.stripParens.children.getLast? with
    | some last =>
      rw [mixinEnd_array harr hlast] at heq
      have hmem := List.mem_of_getLast? hlast
      have := (hl.parts hlist).bounds last hmem
      have := (h.part hl hlist hparen hne around hmem (by omega) (by omega)).1.2
      omega
    | none =>
      obtain ⟨c, hc, -⟩ := h.exists_part hl hlist hparen hne around
      rw [List.getLast?_eq_none_iff.mp hlast] at hc
      cases hc
  · rw [mixinEnd_other harr] at heq
    have := around.2
    omega

theorem stripInjectionTypes_start {injections : Tree} (hi : injections ∈ program.nodes) :
    ∀ e ∈ stripInjectionTypes source injections, e.span.start ≠ argument.stripParens.span.start := by
  intro e he
  obtain ⟨injection, hinj, he⟩ := List.mem_flatMap.mp he
  split at he
  · cases he
  · rename_i value hvalue
    simp only at he
    split at he
    · rename_i hobj
      split at he
      · have hnode := Tree.nodes_trans hi (Tree.child_mem_nodes hinj)
        have hval := Tree.nodes_trans hnode (Tree.child_mem_nodes (Tree.value?_mem hvalue))
        exact h.removeMember_start hl (Tree.nodes_trans hval value.stripParens_mem)
          (Tree.isObject_iff.mp hobj) e he
      · cases he
    · cases he

theorem key_start (hshape : Shape program) {site : Site} (hs : site.In program) {es : List Edit}
    (hes : stripKey source site = .ok es ∨ expandInjections source site = .ok es) :
    ∀ e ∈ es, e.span.start ≠ argument.stripParens.span.start := by
  rcases hes with hes | hes
  · unfold stripKey at hes
    obtain ⟨member, hm, hes⟩ := bind_eq_ok hes
    cases hes
    obtain ⟨ho, hk⟩ := keyedMember_object hs hm
    exact h.removeMember_start hl ho (Tree.isObject_iff.mp hk)
  · obtain ⟨member, value, hm, -, hvalue, -, rfl⟩ := expandInjections_ok hes
    obtain ⟨ho, hk⟩ := keyedMember_object hs hm
    have hk := Tree.isObject_iff.mp hk
    have hprop := h.member_start hl ho hk (keyedMember_child hl hshape hs hm)
    have hval := Tree.nodes_trans (keyedMember_property hs hm).1 (Tree.child_mem_nodes (Tree.value?_mem hvalue))
    intro e he
    rcases List.mem_append.mp he with he | he
    · exact h.stripInjectionTypes_start hl (Tree.nodes_trans hval value.stripParens_mem) e he
    unfold moveInjections at he
    split at he
    · rw [List.mem_singleton.mp he]
      exact hprop
    · split at he
      · rw [List.mem_singleton.mp he]
        exact hprop
      · rename_i mixins hmixins
        obtain ⟨m, hmem, -, hv⟩ := memberValue_mem hmixins
        rcases List.mem_append.mp he with he | he
        · exact h.removeMember_start hl ho hk e he
        · exact h.addMixin_start hl ho hk hmem hv _ e he

end

/-! ## Expansions -/

section
variable {setting : Setting} {program call argument : Tree}
variable (h : Wraps program call argument) (hl : Layout setting.source program) (hshape : Shape program)
  (hclosed : Closed program)

include h hl hshape hclosed

theorem definition_start {site : Site} (hs : site.In program)
    (hkind : site.kind = .component ∨ site.kind = .functional)
    {es : List Edit} (hes : setting.ownEdits site = .ok es) :
    ∀ e ∈ es, e.span.start ≠ argument.stripParens.span.start := by
  obtain ⟨other, inner, factory, functional, hcall, hcases⟩ := definition_cases hkind hes
  obtain ⟨hc, hk, ha, hin⟩ := definitionCall_mem hs hcall
  obtain ⟨hbefore, hord, hbehind⟩ := definition_bounds hl hshape hclosed hs hcall
  have reach := h.argument_around hl hc hk ha hbefore hbehind
  have hfront := h.call_start hl hc hk (by omega)
  have hback : inner.stripParens.span.stop ≠ argument.stripParens.span.start := by
    intro heq
    rcases reach (by omega) (by omega) with rfl | around
    · have := (h.enclosed hl).bounds.1
      omega
    · have := around.2
      omega
  rcases hcases with ⟨hobj, hfactory, rfl⟩ | ⟨hlist, hf, rfl⟩
  · have hobj := Tree.isObject_iff.mp hobj
    refine h.finishDefinition_start hl (h.ofObject_spares hl hin hobj other) functional fun e he => ?_
    rcases List.mem_append.mp he with he | he
    · rcases hfactory with rfl | ⟨render, hrender, hf⟩
      · cases he
      · obtain ⟨m, hm, -, hv⟩ := memberValue_mem hrender
        have hr := Tree.nodes_trans (Tree.nodes_trans hin (Tree.child_mem_nodes hm))
          (Tree.child_mem_nodes (Tree.value?_mem hv))
        exact h.injectFactory_start hl (Tree.nodes_trans hr render.stripParens_mem)
          (h.value_around hl hin hobj hm hv) hf
          e he
    · rcases mem_unwrap.mp he with rfl | rfl
      · exact hfront
      · exact hback
  · -- a function is not the literal
    have reach : inner.stripParens.span.start ≤ argument.stripParens.span.start →
        argument.stripParens.span.start ≤ inner.stripParens.span.stop →
        inner.stripParens.Around argument.stripParens.span.start := by
      intro hstart hstop
      apply (reach hstart hstop).resolve_left
      rintro rfl
      have := isObject_of_parameterList hlist
      rw [h.isObject] at this
      cases this
    have hstart : inner.stripParens.span.start ≠ argument.stripParens.span.start := by
      intro heq
      have := (reach (by omega) (by omega)).1
      omega
    have hstrip : inner.stripParens.stripParens = inner.stripParens := by
      apply Tree.stripParens_of_kind
      intro hparen
      simp [Tree.parameterList?, hparen] at hlist
    refine h.finishDefinition_start hl ⟨hstart, by intro o ho; cases ho⟩ functional fun e he => ?_
    rcases List.mem_append.mp he with he | he
    · exact h.injectFactory_start hl (by rwa [hstrip]) (by rwa [hstrip]) hf e he
    · rcases mem_wrapRender.mp he with rfl | rfl | rfl
      · exact hfront
      · exact hstart
      · exact hback

theorem site_start {site : Site} (hs : site.In program) {es : List Edit} (hes : setting.ownEdits site = .ok es) :
    ∀ e ∈ es, e.span.start ≠ argument.stripParens.span.start := by
  intro e he
  rcases ownEdits_cases hes with hkind | ⟨own, hown, hsub⟩ | ⟨other, hcall, rfl⟩
  · exact h.definition_start hl hshape hclosed hs hkind hes e he
  · exact h.key_start hl hshape hs hown e ((hsub e).mp he).1
  · rw [List.mem_singleton.mp he]
    exact h.call_start hl (hs.ancestor_mem (Site.call?_mem hcall)) (Site.call?_callee hcall).1
      (call_inside hl hclosed hs hcall "").before_stop

omit hshape in
theorem taken_start {site : Site} (hs : site.In program) :
    ∀ e ∈ setting.takenEdits site, e.span.start ≠ argument.stripParens.span.start := by
  intro e he
  unfold Setting.takenEdits at he
  split at he
  · cases he
  · cases hcall : site.call? with
    | none => simp [annotate, hcall] at he
    | some other =>
      rw [annotate_eq hcall, List.mem_singleton] at he
      rw [he]
      exact h.call_start hl (hs.ancestor_mem (Site.call?_mem hcall)) (Site.call?_callee hcall).1
        (call_inside hl hclosed hs hcall "").before_stop

/-- No edit of an expansion starts where the literal starts. -/
theorem expansion_start {draft : Draft} (hcollect : collect? setting.options program = some setting.collected)
    (hdraft : expansion setting = .ok draft) :
    ∀ e ∈ draft.edits, e.span.start ≠ argument.stripParens.span.start := by
  obtain ⟨es, hplay, rfl⟩ := expansion_edits hdraft
  intro e he
  rcases mem_recordAll.mp he with he | ⟨he, -⟩
  · cases he
  rcases List.mem_append.mp he with he | he
  · obtain ⟨entry, hentry, he⟩ := List.mem_flatMap.mp he
    have hs : entry.site.In program :=
      collect?_sites hcollect _ (ledger_sites_perm.subset (List.mem_map_of_mem hentry))
    rcases mem_ledger hplay hentry with ⟨-, hown, -⟩ | ⟨hedits, -⟩
    · exact h.site_start hl hshape hclosed hs hown e he
    · rw [hedits] at he
      exact h.taken_start hl hclosed hs e he
  · obtain ⟨imported, himported, rfl⟩ := List.mem_map.mp he
    obtain ⟨t, ht, hspan⟩ := imports_statement hcollect himported
    show imported.span.start ≠ _
    rw [hspan]
    intro heq
    have hroot := Tree.mem_nodes_self program
    have around := (h.call_around hl).of_mem hl hroot h.mem
    have hb := (hl.parts hroot).bounds t ht
    have := (h.part hl hroot (by simp [hl.root]) (h.ne_call (by simp [Tree.isCall, hl.root])) around ht (by omega)
      (by omega)).1.1
    omega

end

end Wraps

end ComponentMacros
