import ComponentMacros.Proofs.Cut
import ComponentMacros.Proofs.RenderLog
import ComponentMacros.Proofs.SitePath

/-!
# What the rules record

Every edit of an expansion replaces a cut of the program by a text, inserts a
text at the edge of a node, or moves a map of injections. Here each rule is
taken apart once; what follows about expansions is read off these forms.
-/

namespace ComponentMacros

/-! ## Forms of edits -/

/-- A position at the edge of a node, or just inside its brackets. -/
inductive Anchor (program : Tree) : Nat → Prop where
  | start {t : Tree} (ht : t ∈ program.nodes) : Anchor program t.span.start
  | stop {t : Tree} (ht : t ∈ program.nodes) : Anchor program t.span.stop
  | opening {t : Tree} (ht : t ∈ program.nodes) (hk : t.kind = .object ∨ t.kind = .array) :
    Anchor program (t.span.start + 1)
  | closing {t : Tree} (ht : t ∈ program.nodes) (hk : t.kind = .parameters) (hp : t.plainParameters = []) :
    Anchor program (t.span.stop - 1)

def mixinEnd (mixins : Tree) : Nat :=
  let list := mixins.stripParens
  if list.kind = .array then
    match list.children.getLast? with
    | some last => last.span.stop
    | none => list.span.start + 1
  else list.span.stop

/-- An edit that carries the injections of a member to where they become a mixin. -/
inductive Moves (member : KeyedMember) (value : Tree) : Edit → Prop where
  | inPlace (h : (member.object.findMember? "mixins").bind (·.2.value?) = none) :
    Moves member value ⟨.overwrite, member.property.span, mixinOf value.span "mixins: [" "]"⟩
  | intoList {mixins : Tree} {before after : String}
    (h : (member.object.findMember? "mixins").bind (·.2.value?) = some mixins) :
    Moves member value
      ⟨.append, ⟨mixinEnd mixins, mixinEnd mixins⟩, mixinOf value.span before after⟩

/-- An edit that some rule records for a program. -/
inductive Recorded (source : List Char) (program : Tree) : Edit → Prop where
  | replace {r : Span} {text : String} (h : Cut source program r) : Recorded source program (.overwrite r text)
  | prepend {pos : Nat} {text : String} (h : Anchor program pos) : Recorded source program (.prepend pos text)
  | append {pos : Nat} {text : String} (h : Anchor program pos) : Recorded source program (.append pos text)
  | move {site : Site} {member : KeyedMember} {value : Tree} {e : Edit} (hsite : site.In program)
    (hmember : keyedMember site = .ok member) (hplain : ∃ a c m, member.property.kind = .property a c false m)
    (hvalue : member.property.value? = some value) (hmap : value.stripParens.isObject = true)
    (he : Moves member value e) : Recorded source program e

theorem Edit.remove_eq (start stop : Nat) : Edit.remove start stop = .overwrite ⟨start, stop⟩ "" := rfl

theorem Recorded.remove {source : List Char} {program : Tree} {start stop : Nat}
    (h : Cut source program ⟨start, stop⟩) : Recorded source program (.remove start stop) := by
  rw [Edit.remove_eq]; exact .replace h

/-! ## Drafts -/

theorem recordAll_eq (draft : Draft) (es : List Edit) :
    draft.recordAll es = ⟨draft.source, draft.edits ++ es.filter fun e => !e.selects e⟩ := by
  unfold Draft.recordAll
  induction es generalizing draft with
  | nil => simp
  | cons e es ih =>
    rw [List.foldl_cons, ih]
    unfold Draft.record
    by_cases h : e.selects e = true
    · simp [h]
    · simp [h]

theorem mem_recordAll {draft : Draft} {es : List Edit} {e : Edit} :
    e ∈ (draft.recordAll es).edits ↔ e ∈ draft.edits ∨ e ∈ es ∧ e.selects e = false := by
  simp [recordAll_eq]

theorem recordAll_append (draft : Draft) (es fs : List Edit) :
    (draft.recordAll es).recordAll fs = draft.recordAll (es ++ fs) := List.foldl_append.symm

/-! ## Runs -/

/-- What holds of the sites to come and of a progress, and is kept by each site, holds in the end. -/
theorem foldlM_run {α β ε : Type} {f : β → α → Except ε β} (I : List α → β → Prop)
    (step : ∀ a rest b b', I (a :: rest) b → f b a = .ok b' → I rest b') :
    ∀ (l : List α) (b b' : β), I l b → l.foldlM f b = .ok b' → I [] b'
  | [], b, b', hI, h => by
    cases h
    exact hI
  | a :: l, b, b', hI, h => by
    rw [List.foldlM_cons] at h
    obtain ⟨b₁, hf, h⟩ := bind_eq_ok h
    exact foldlM_run I step l b₁ b' (step a l b b₁ hI hf) h

/-! ## Members -/

section
variable {source : List Char} {program : Tree}

theorem removeMember_cons_succ (source : List Char) (m : Tree) (ms : List Tree) (i : Nat) :
    removeMember source (m :: ms) (i + 1) = removeMember source ms i := by
  simp only [removeMember, List.getElem?_cons_succ]

theorem removeMember_mem : ∀ {ms : List Tree} {i : Nat} {e : Edit}, e ∈ removeMember source ms i →
    ∃ r ∈ memberRanges source ms, e = .overwrite r ""
  | [], i, e, he => by simp [removeMember] at he
  | [m], 0, e, he => by
    simp only [removeMember, List.getElem?_cons_zero, Nat.zero_add, List.getElem?_cons_succ,
      List.getElem?_nil, List.mem_singleton] at he
    exact ⟨_, List.mem_singleton_self _, by rw [he, Edit.remove_eq]⟩
  | m :: next :: rest, 0, e, he => by
    simp only [removeMember, List.getElem?_cons_zero, Nat.zero_add, List.getElem?_cons_succ,
      List.mem_singleton] at he
    exact ⟨_, List.mem_cons_self .., by rw [he, Edit.remove_eq]⟩
  | [m], i + 1, e, he => by
    rw [removeMember_cons_succ] at he
    simp [removeMember] at he
  | m :: next :: rest, i + 1, e, he => by
    rw [removeMember_cons_succ] at he
    obtain ⟨r, hr, heq⟩ := removeMember_mem he
    exact ⟨r, List.mem_cons_of_mem _ hr, heq⟩

theorem removeMember_recorded {object : Tree} (ho : object ∈ program.nodes)
    (hk : object.isObject = true) {i : Nat} :
    ∀ e ∈ removeMember source object.children i, Recorded source program e := by
  intro e he
  obtain ⟨r, hr, rfl⟩ := removeMember_mem he
  exact .replace ⟨object, ho, .member (Tree.isObject_iff.mp hk) hr⟩

/-- What is found is the first member with the name as its key. -/
theorem findMember?_iff {object p : Tree} {name : String} {i : Nat} : object.findMember? name = some (i, p) ↔
    object.children[i]? = some p ∧ p.staticName? = some name ∧
      ∀ q ∈ object.children.take i, q.staticName? ≠ some name := by
  unfold Tree.findMember?
  simp only [Option.map_eq_some_iff, List.find?_eq_some_iff_getElem, List.mem_take_iff_getElem, Prod.exists,
    Prod.mk.injEq]
  constructor
  · rintro ⟨t, j, ⟨hname, k, hk, hget, hfirst⟩, rfl, rfl⟩
    simp only [List.getElem_zipIdx, Prod.mk.injEq, Nat.zero_add] at hget
    obtain ⟨rfl, rfl⟩ := hget
    rw [List.length_zipIdx] at hk
    refine ⟨List.getElem?_eq_getElem hk, of_decide_eq_true hname, ?_⟩
    rintro q ⟨l, hl, rfl⟩
    simpa using hfirst l (by omega)
  · rintro ⟨hget, hname, hfirst⟩
    obtain ⟨hi, rfl⟩ := List.getElem?_eq_some_iff.mp hget
    refine ⟨object.children[i], i, ⟨by simpa using hname, i, by simpa using hi, by simp, ?_⟩, rfl, rfl⟩
    intro l hl
    simpa using hfirst _ ⟨l, by omega, rfl⟩

theorem findMember?_mem {object p : Tree} {name : String} {i : Nat} (h : object.findMember? name = some (i, p)) :
    object.children[i]? = some p ∧ p.staticName? = some name := by
  obtain ⟨hget, hname, -⟩ := findMember?_iff.mp h
  exact ⟨hget, hname⟩

theorem memberValue_mem {object value : Tree} {name : String}
    (h : (object.findMember? name).bind (·.2.value?) = some value) :
    ∃ p ∈ object.children, p.staticName? = some name ∧ p.value? = some value := by
  rw [Option.bind_eq_some_iff] at h
  obtain ⟨⟨i, p⟩, hfind, hvalue⟩ := h
  obtain ⟨hget, hname⟩ := findMember?_mem hfind
  exact ⟨p, List.mem_of_getElem? hget, hname, hvalue⟩

theorem call_cut {call : Tree} (hc : call ∈ program.nodes) (hk : call.isCall = true) :
    Cut source program call.span :=
  ⟨call, hc, .whole (Or.inl hk)⟩

/-! ## Definitions -/

theorem definitionCall_spec {site : Site} {call argument : Tree} (h : definitionCall site = .ok (call, argument)) :
    site.call? = some call ∧ call.arguments = [argument] := by
  unfold definitionCall at h
  split at h
  · cases h
  · rename_i c hc
    split at h
    · cases h
    · rename_i a _ ha
      cases h
      exact ⟨hc, ha⟩
    · cases h

theorem mem_unwrap {call object : Tree} {e : Edit} : e ∈ Definition.unwrap call object ↔
    e = .remove call.span.start object.span.start ∨ e = .remove object.span.stop call.span.stop := by
  simp [Definition.unwrap]

theorem mem_wrapRender {call render : Span} {e : Edit} : e ∈ wrapRender call render ↔
    e = .overwrite ⟨call.start, render.start⟩ "\x7b " ∨ e = .prepend render.start "render: " ∨
      e = .overwrite ⟨render.stop, call.stop⟩ " \x7d" := by
  simp [wrapRender]

theorem unwrap_recorded {call argument : Tree} (hc : call ∈ program.nodes) (hk : call.isCall = true)
    (ha : call.arguments = [argument]) :
    ∀ e ∈ Definition.unwrap call argument.stripParens, Recorded source program e := by
  obtain ⟨o, ho⟩ := Tree.isCall_iff.mp hk
  intro e he
  rcases mem_unwrap.mp he with rfl | rfl
  · exact .remove ⟨call, hc, .front ho ha⟩
  · exact .remove ⟨call, hc, .back ho ha⟩

theorem wrapRender_recorded {call argument : Tree} (hc : call ∈ program.nodes) (hk : call.isCall = true)
    (ha : call.arguments = [argument]) :
    ∀ e ∈ wrapRender call.span argument.stripParens.span, Recorded source program e := by
  obtain ⟨o, ho⟩ := Tree.isCall_iff.mp hk
  have hin : argument.stripParens ∈ program.nodes :=
    Tree.nodes_trans hc (Tree.mem_nodes_of_child (Tree.arguments_mem ha) argument.stripParens_mem)
  intro e he
  rcases mem_wrapRender.mp he with rfl | rfl | rfl
  · exact .replace ⟨call, hc, .front ho ha⟩
  · exact .prepend (.start hin)
  · exact .replace ⟨call, hc, .back ho ha⟩

structure Definition.In (program : Tree) (definition : Definition) : Prop where
  anchor : Anchor program definition.insertAt
  object : ∀ object, definition.object = some object → object ∈ program.nodes

theorem ofObject_in {call object : Tree} (ho : object ∈ program.nodes) (hk : object.isObject = true) :
    (Definition.ofObject call object).In program := by
  unfold Definition.ofObject
  split
  · rename_i first rest hcs
    have hfirst : first ∈ object.children := by rw [hcs]; exact List.mem_cons_self ..
    refine ⟨.start (Tree.nodes_trans ho (Tree.child_mem_nodes hfirst)), ?_⟩
    intro o hobj; cases hobj; exact ho
  · refine ⟨.opening ho (Or.inl (Tree.isObject_iff.mp hk)), ?_⟩
    intro o hobj; cases hobj; exact ho

theorem unshift_recorded {definition : Definition} (hd : definition.In program) (key value : String) :
    Recorded source program (definition.unshift key value).1 := .prepend hd.anchor

theorem giveName_spec (source : List Char) (options : Options) (site : Site) {definition : Definition}
    (hd : definition.In program) :
    (∀ e ∈ (giveName options site definition).1, Recorded source program e) ∧
      (giveName options site definition).2.In program ∧
      (giveName options site definition).2.object = definition.object := by
  unfold giveName
  split
  · exact ⟨by simp, hd, rfl⟩
  · split
    · exact ⟨by simp, hd, rfl⟩
    · rename_i name _
      refine ⟨?_, ⟨hd.anchor, hd.object⟩, rfl⟩
      intro e he
      rw [List.mem_singleton.mp he]
      exact unshift_recorded hd _ _

/-! ## The element factory -/

theorem parameterList?_mem {t list : Tree} (h : t.parameterList? = some list) :
    list ∈ t.children ∧ list.kind = .parameters := by
  unfold Tree.parameterList? at h
  split at h
  · exact ⟨List.mem_of_find?_eq_some h, by simpa using List.find?_some h⟩
  · exact ⟨List.mem_of_find?_eq_some h, by simpa using List.find?_some h⟩
  · cases h

theorem prependFactory_recorded {list : Tree} (hl : list ∈ program.nodes) (hk : list.kind = .parameters) :
    ∀ e ∈ prependFactory list, Recorded source program e := by
  have part : ∀ {p : Kind → Bool} {c : Tree}, list.find? p = some c → c ∈ program.nodes := fun h =>
    Tree.nodes_trans hl (Tree.child_mem_nodes (List.mem_of_find?_eq_some h))
  intro e he
  unfold prependFactory at he
  cases hthis : list.find? (· = .thisParameter) with
  | some this =>
    simp only [hthis, List.mem_singleton] at he
    subst he
    exact .append (.stop (part hthis))
  | none =>
    cases hplain : list.plainParameters with
    | cons first more =>
      have hfirst : first ∈ list.plainParameters := by rw [hplain]; exact List.mem_cons_self ..
      have hnode := Tree.nodes_trans hl (Tree.child_mem_nodes (List.mem_filter.mp hfirst).1)
      simp only [hthis, hplain] at he
      split at he
      · simp only [List.mem_cons, List.not_mem_nil, or_false] at he
        rcases he with rfl | rfl
        · exact .prepend (.start hnode)
        · exact .append (.stop hnode)
      · rw [List.mem_singleton.mp he]
        exact .prepend (.start hnode)
    | nil =>
      cases hrest : list.find? (· = .restParameter) with
      | some rest =>
        simp only [hthis, hplain, hrest, List.mem_singleton] at he
        subst he
        exact .prepend (.start (part hrest))
      | none =>
        simp only [hthis, hplain, hrest, List.mem_singleton] at he
        subst he
        exact .prepend (.closing hl hk hplain)

theorem injectFactory_recorded {isTaken : Span → Bool} {site : Site} {render : Tree} {es : List Edit}
    (hr : render ∈ program.nodes) (h : injectFactory isTaken site render = .ok es) :
    ∀ e ∈ es, Recorded source program e := by
  unfold injectFactory at h
  simp only at h
  split at h
  · cases h; simp
  · rename_i list hlist
    obtain ⟨hmem, hk⟩ := parameterList?_mem hlist
    split at h
    · cases h; simp
    · split at h
      · cases h
      · cases h
        have hin := Tree.nodes_trans hr render.stripParens_mem
        exact prependFactory_recorded (Tree.nodes_trans hin (Tree.child_mem_nodes hmem)) hk

/-! ## Props -/

theorem props?_mem {definition : Definition} (hd : definition.In program) {props : Tree}
    (h : definition.props? = some props) : props ∈ program.nodes ∧ props.isObject = true := by
  unfold Definition.props? at h
  simp only [Option.bind_eq_bind, Option.bind_eq_some_iff] at h
  obtain ⟨object, hobj, ⟨i, property⟩, hfind, value, hvalue, hif⟩ := h
  split at hif
  · rename_i hk
    cases hif
    have hprop := List.mem_of_getElem? (findMember?_mem hfind).1
    have hin := Tree.nodes_trans (hd.object object hobj) (Tree.child_mem_nodes hprop)
    have hval := Tree.nodes_trans hin (Tree.child_mem_nodes (Tree.value?_mem hvalue))
    exact ⟨Tree.nodes_trans hval value.stripParens_mem, hk⟩
  · cases hif

theorem annotate_recorded {site : Site} (hs : site.In program) :
    ∀ e ∈ annotate site, Recorded source program e := by
  intro e he
  unfold annotate at he
  split at he
  · cases he
  · rename_i call hcall
    rw [List.mem_singleton.mp he]
    exact .replace (call_cut (hs.ancestor_mem (Site.call?_mem hcall)) (Site.call?_callee hcall).1)

theorem takeMatching_mem {usages : Usages} {kind : Macro} {p : Site → Bool} :
    (∀ s ∈ (usages.takeMatching kind p).1, s ∈ usages.pending ∧ s.kind = kind ∧ p s = true) ∧
      ∀ s ∈ (usages.takeMatching kind p).2.pending, s ∈ usages.pending := by
  constructor
  · intro s hs
    simpa [Usages.takeMatching] using hs
  · intro s hs
    exact (List.mem_filter.mp hs).1

theorem expandProps_spec (source : List Char) (options : Options) {usages : Usages}
    (hu : ∀ s ∈ usages.pending, s.In program) {definition : Definition} (hd : definition.In program) :
    (∀ e ∈ (expandProps options source usages definition).1, Recorded source program e) ∧
      ∀ s ∈ (expandProps options source usages definition).2.pending, s ∈ usages.pending := by
  unfold expandProps
  split
  · exact ⟨by simp, fun s hs => hs⟩
  · rename_i props hprops
    obtain ⟨hin, hk⟩ := props?_mem hd hprops
    split
    · unfold annotateProps
      split
      · exact ⟨by simp, fun s hs => hs⟩
      · refine ⟨?_, takeMatching_mem.2⟩
        intro e he
        obtain ⟨s, hs, hes⟩ := List.mem_flatMap.mp he
        exact annotate_recorded (hu s (takeMatching_mem.1 s hs).1) e hes
    · refine ⟨?_, takeMatching_mem.2⟩
      intro e he
      rw [List.mem_singleton.mp he]
      exact .replace ⟨props, hin, .whole (Or.inr (Or.inl hk))⟩

/-! ## Key macros -/

theorem keyedMember_spec {site : Site} {member : KeyedMember} (h : keyedMember site = .ok member) :
    site.keyProperty? = some member.property ∧ site.owner? member.property = some member.object ∧
      member.object.children.findIdx? (·.span = member.property.span) = some member.index := by
  unfold keyedMember at h
  simp only [Option.bind_eq_bind, Option.pure_def] at h
  split at h
  · rename_i m hm
    cases h
    simp only [Option.bind_eq_some_iff, Option.some.injEq] at hm
    obtain ⟨property, hprop, object, hobj, index, hidx, rfl⟩ := hm
    exact ⟨hprop, hobj, hidx⟩
  · cases h

theorem keyedMember_object {site : Site} {member : KeyedMember} (hs : site.In program)
    (h : keyedMember site = .ok member) : member.object ∈ program.nodes ∧ member.object.isObject = true := by
  obtain ⟨-, howner, -⟩ := keyedMember_spec h
  obtain ⟨hmem, hk, -⟩ := Site.owner?_spec howner
  exact ⟨hs.ancestor_mem hmem, hk⟩

theorem keyedMember_property {site : Site} {member : KeyedMember} (hs : site.In program)
    (h : keyedMember site = .ok member) : member.property ∈ program.nodes ∧ member.property.isProperty = true := by
  obtain ⟨hkey, -, -⟩ := keyedMember_spec h
  exact ⟨hs.ancestor_mem (Site.keyProperty?_mem hkey), (Site.keyProperty?_key hkey).1⟩

theorem stripKey_recorded {site : Site} (hs : site.In program) {es : List Edit}
    (h : stripKey source site = .ok es) :
    ∀ e ∈ es, Recorded source program e := by
  unfold stripKey at h
  obtain ⟨member, hm, h⟩ := bind_eq_ok h
  cases h
  obtain ⟨ho, hk⟩ := keyedMember_object hs hm
  exact removeMember_recorded ho hk

theorem stripInjectionTypes_recorded {injections : Tree} (hi : injections ∈ program.nodes) :
    ∀ e ∈ stripInjectionTypes source injections, Recorded source program e := by
  intro e he
  obtain ⟨injection, hinj, he⟩ := List.mem_flatMap.mp he
  split at he
  · cases he
  · rename_i value hvalue
    simp only at he
    split at he
    · rename_i hobj
      split at he
      · have hnode := Tree.nodes_trans hi (Tree.child_mem_nodes hinj)
        have hval := Tree.nodes_trans hnode (Tree.child_mem_nodes (Tree.value?_mem hvalue))
        exact removeMember_recorded (Tree.nodes_trans hval value.stripParens_mem) hobj e he
      · cases he
    · cases he

theorem addMixin_mem {mixins : Tree} {injections : Span} {e : Edit} (he : e ∈ addMixin mixins injections) :
    e = .prepend mixins.stripParens.span.start "[..." ∨
      ∃ before after, e = ⟨.append, ⟨mixinEnd mixins, mixinEnd mixins⟩, mixinOf injections before after⟩ := by
  unfold addMixin at he
  unfold mixinEnd
  simp only at he ⊢
  split at he
  · rename_i harr
    rw [if_pos harr]
    cases hlast : mixins.stripParens.children.getLast? <;> rw [hlast] at he <;>
      rw [List.mem_singleton.mp he] <;> exact Or.inr ⟨_, _, rfl⟩
  · rename_i harr
    rw [if_neg harr]
    simp only [List.mem_cons, List.not_mem_nil, or_false] at he
    rcases he with rfl | rfl
    · exact Or.inl rfl
    · exact Or.inr ⟨_, _, rfl⟩

theorem moveInjections_recorded {site : Site} {member : KeyedMember} {value : Tree} (hs : site.In program)
    (hm : keyedMember site = .ok member) (hplain : ∃ a c m, member.property.kind = .property a c false m)
    (hvalue : member.property.value? = some value) (hmap : value.stripParens.isObject = true) :
    ∀ e ∈ moveInjections source member value, Recorded source program e := by
  obtain ⟨hobj, hok⟩ := keyedMember_object hs hm
  obtain ⟨hprop, -⟩ := keyedMember_property hs hm
  obtain ⟨a, c, m, hk⟩ := hplain
  intro e he
  unfold moveInjections at he
  split at he
  · rw [List.mem_singleton.mp he]
    exact .replace ⟨member.property, hprop, .key hk hvalue⟩
  · split at he
    · rename_i hnone
      rw [List.mem_singleton.mp he]
      exact .move hs hm ⟨a, c, m, hk⟩ hvalue hmap (.inPlace hnone)
    · rename_i mixins hmixins
      rcases List.mem_append.mp he with he | he
      · exact removeMember_recorded hobj hok e he
      · rcases addMixin_mem he with rfl | ⟨before, after, rfl⟩
        · obtain ⟨p, hp, -, hpv⟩ := memberValue_mem hmixins
          have hval := Tree.nodes_trans (Tree.nodes_trans hobj (Tree.child_mem_nodes hp))
            (Tree.child_mem_nodes (Tree.value?_mem hpv))
          exact .prepend (.start (Tree.nodes_trans hval mixins.stripParens_mem))
        · exact .move hs hm ⟨a, c, m, hk⟩ hvalue hmap (.intoList hmixins)

theorem expandInjections_ok {site : Site} {es : List Edit} (h : expandInjections source site = .ok es) :
    ∃ member value, keyedMember site = .ok member ∧ (∃ a c m, member.property.kind = .property a c false m) ∧
      member.property.value? = some value ∧ value.stripParens.isObject = true ∧
      es = stripInjectionTypes source value.stripParens ++ moveInjections source member value := by
  unfold expandInjections at h
  obtain ⟨member, hm, h⟩ := bind_eq_ok h
  simp only at h
  split at h
  · rename_i a c m value hk hvalue
    split at h
    · rename_i hmap
      cases h
      exact ⟨member, value, hm, ⟨a, c, m, hk⟩, hvalue, hmap, rfl⟩
    · cases h
  · cases h

theorem expandInjections_recorded {site : Site} (hs : site.In program) {es : List Edit}
    (h : expandInjections source site = .ok es) : ∀ e ∈ es, Recorded source program e := by
  obtain ⟨member, value, hm, hplain, hvalue, hmap, rfl⟩ := expandInjections_ok h
  intro e he
  rcases List.mem_append.mp he with he | he
  · have hval := Tree.nodes_trans (keyedMember_property hs hm).1 (Tree.child_mem_nodes (Tree.value?_mem hvalue))
    exact stripInjectionTypes_recorded (Tree.nodes_trans hval value.stripParens_mem) e he
  · exact moveInjections_recorded hs hm hplain hvalue hmap e he

theorem eraseType_recorded {site : Site} (hs : site.In program) {es : List Edit} (h : eraseType site = .ok es) :
    ∀ e ∈ es, Recorded source program e := by
  unfold eraseType at h
  split at h
  · rename_i call hcall
    cases h
    intro e he
    rw [List.mem_singleton.mp he]
    exact .replace (call_cut (hs.ancestor_mem (Site.call?_mem hcall)) (Site.call?_callee hcall).1)
  · cases h

end

/-! ## Sites -/

section
variable {program : Tree} {setting : Setting} {site : Site} {progress progress' : Progress}

theorem expandProps_congr (options : Options) (source : List Char) (usages : Usages) {d d' : Definition}
    (h : d.object = d'.object) : expandProps options source usages d = expandProps options source usages d' := by
  unfold expandProps Definition.props?
  rw [h]

theorem finishDefinition_spec {definition : Definition} (hd : definition.In program) (functional : Bool) :
    ∃ front, (∀ e ∈ front, Recorded setting.source program e) ∧
      (finishDefinition setting site definition functional progress).draft =
        progress.draft.recordAll
          (front ++ (expandProps setting.options setting.source progress.usages definition).1) ∧
      (finishDefinition setting site definition functional progress).usages =
        (expandProps setting.options setting.source progress.usages definition).2 := by
  obtain ⟨hnamed, hin, hobj⟩ := giveName_spec setting.source setting.options site hd
  have hprops := expandProps_congr setting.options setting.source progress.usages hobj
  refine ⟨(giveName setting.options site definition).1 ++
    (if functional then [((giveName setting.options site definition).2.unshift "functional" "true").1] else []),
    ?_, ?_, ?_⟩
  · intro e he
    rcases List.mem_append.mp he with he | he
    · exact hnamed e he
    · split at he
      · rw [List.mem_singleton.mp he]
        exact unshift_recorded hin _ _
      · cases he
  · rw [← hprops]; rfl
  · rw [← hprops]; rfl

theorem expandComponent_ok (h : expandComponent setting site progress = .ok progress') :
    ∃ call argument, definitionCall site = .ok (call, argument) ∧ argument.stripParens.isObject = true ∧
      progress' = finishDefinition setting site (.ofObject call argument.stripParens) false
        (progress.record (Definition.unwrap call argument.stripParens)) := by
  unfold expandComponent at h
  obtain ⟨⟨call, argument⟩, hcall, h⟩ := bind_eq_ok h
  simp only at h
  split at h
  · rename_i hobj
    cases h
    exact ⟨call, argument, hcall, hobj, rfl⟩
  · cases h

theorem expandFunctional_ok (h : expandFunctional setting site progress = .ok progress') :
    ∃ call argument factory, definitionCall site = .ok (call, argument) ∧
      ((injectFactory setting.isFactoryTaken site argument.stripParens = .ok factory ∧
        progress' = finishDefinition setting site ⟨call, none, argument.stripParens.span.start, true⟩ true
          (progress.record (factory ++ wrapRender call.span argument.stripParens.span))) ∨
      ∃ render, argument.stripParens.isObject = true ∧
        (argument.stripParens.findMember? "render").bind (·.2.value?) = some render ∧
        injectFactory setting.isFactoryTaken site render = .ok factory ∧
        progress' = finishDefinition setting site (.ofObject call argument.stripParens) true
          (progress.record (factory ++ Definition.unwrap call argument.stripParens))) := by
  unfold expandFunctional at h
  obtain ⟨⟨call, argument⟩, hcall, h⟩ := bind_eq_ok h
  simp only at h
  split at h
  · obtain ⟨factory, hf, h⟩ := bind_eq_ok h
    cases h
    exact ⟨call, argument, factory, hcall, Or.inl ⟨hf, rfl⟩⟩
  · split at h
    · rename_i hobj
      split at h
      · cases h
      · rename_i render hrender
        obtain ⟨factory, hf, h⟩ := bind_eq_ok h
        cases h
        exact ⟨call, argument, factory, hcall, Or.inr ⟨render, hobj, hrender, hf, rfl⟩⟩
    · cases h

theorem record_map_ok {result : Except UsageError (List Edit)} (h : progress.record <$> result = .ok progress') :
    ∃ es, result = .ok es ∧ progress' = progress.record es := by
  cases hr : result with
  | error e => rw [hr] at h; cases h
  | ok es => rw [hr] at h; cases h; exact ⟨es, rfl, rfl⟩

def Progress.Grows (source : List Char) (program : Tree) (progress progress' : Progress) : Prop :=
  ∃ es, progress'.draft = progress.draft.recordAll es ∧ (∀ e ∈ es, Recorded source program e) ∧
    ∀ s ∈ progress'.usages.pending, s ∈ progress.usages.pending

theorem record_grows {source : List Char} {es : List Edit} (h : ∀ e ∈ es, Recorded source program e) :
    progress.Grows source program (progress.record es) :=
  ⟨es, rfl, h, fun _ hs => hs⟩

theorem finishDefinition_grows {definition : Definition} (hd : definition.In program)
    (hu : ∀ s ∈ progress.usages.pending, s.In program) (functional : Bool) {outer : List Edit}
    (houter : ∀ e ∈ outer, Recorded setting.source program e) :
    progress.Grows setting.source program
      (finishDefinition setting site definition functional (progress.record outer)) := by
  obtain ⟨front, hfront, hdraft, husages⟩ :=
    @finishDefinition_spec program setting site (progress.record outer) _ hd functional
  obtain ⟨hprops, hpending⟩ := expandProps_spec setting.source setting.options hu hd
  refine ⟨outer ++ (front ++ (expandProps setting.options setting.source progress.usages definition).1), ?_, ?_,
    ?_⟩
  · rw [hdraft]
    exact recordAll_append ..
  · intro e he
    rcases List.mem_append.mp he with he | he
    · exact houter e he
    · rcases List.mem_append.mp he with he | he
      · exact hfront e he
      · exact hprops e he
  · rw [husages]
    exact hpending

theorem definitionCall_mem (hs : site.In program) {call argument : Tree}
    (h : definitionCall site = .ok (call, argument)) : call ∈ program.nodes ∧ call.isCall = true ∧
      call.arguments = [argument] ∧ argument.stripParens ∈ program.nodes := by
  obtain ⟨hc, ha⟩ := definitionCall_spec h
  have hmem := hs.ancestor_mem (Site.call?_mem hc)
  have hin := Tree.mem_nodes_of_child (Tree.arguments_mem ha) argument.stripParens_mem
  exact ⟨hmem, (Site.call?_callee hc).1, ha, Tree.nodes_trans hmem hin⟩

theorem expandComponent_grows (hs : site.In program) (hu : ∀ s ∈ progress.usages.pending, s.In program)
    (h : expandComponent setting site progress = .ok progress') :
      progress.Grows setting.source program progress' := by
  obtain ⟨call, argument, hcall, hobj, rfl⟩ := expandComponent_ok h
  obtain ⟨hc, hk, ha, hin⟩ := definitionCall_mem hs hcall
  exact finishDefinition_grows (ofObject_in hin hobj) hu false (unwrap_recorded hc hk ha)

theorem expandFunctional_grows (hs : site.In program) (hu : ∀ s ∈ progress.usages.pending, s.In program)
    (h : expandFunctional setting site progress = .ok progress') :
      progress.Grows setting.source program progress' := by
  obtain ⟨call, argument, factory, hcall, hcase⟩ := expandFunctional_ok h
  obtain ⟨hc, hk, ha, hin⟩ := definitionCall_mem hs hcall
  rcases hcase with ⟨hf, rfl⟩ | ⟨render, hobj, hrender, hf, rfl⟩
  · refine finishDefinition_grows ⟨.start hin, fun o ho => by cases ho⟩ hu true ?_
    intro e he
    rcases List.mem_append.mp he with he | he
    · exact injectFactory_recorded hin hf e he
    · exact wrapRender_recorded hc hk ha e he
  · obtain ⟨p, hp, -, hpv⟩ := memberValue_mem hrender
    have hval := Tree.nodes_trans (Tree.nodes_trans hin (Tree.child_mem_nodes hp))
      (Tree.child_mem_nodes (Tree.value?_mem hpv))
    refine finishDefinition_grows (ofObject_in hin hobj) hu true ?_
    intro e he
    rcases List.mem_append.mp he with he | he
    · exact injectFactory_recorded hval hf e he
    · exact unwrap_recorded hc hk ha e he

theorem expandSite_grows (hs : site.In program) (hu : ∀ s ∈ progress.usages.pending, s.In program)
    (h : expandSite setting progress site = .ok progress') : progress.Grows setting.source program progress' := by
  unfold expandSite at h
  split at h
  · exact expandComponent_grows hs hu h
  · exact expandFunctional_grows hs hu h
  · obtain ⟨es, hes, rfl⟩ := record_map_ok h
    exact record_grows (stripKey_recorded hs hes)
  · obtain ⟨es, hes, rfl⟩ := record_map_ok h
    exact record_grows (stripKey_recorded hs hes)
  · obtain ⟨es, hes, rfl⟩ := record_map_ok h
    exact record_grows (stripKey_recorded hs hes)
  · obtain ⟨es, hes, rfl⟩ := record_map_ok h
    exact record_grows (expandInjections_recorded hs hes)
  · obtain ⟨es, hes, rfl⟩ := record_map_ok h
    exact record_grows (eraseType_recorded hs hes)

end

/-! ## The whole expansion -/

section
variable {options : Options} {source : List Char} {program : Tree} {collected : Collected}

/-- Edits of the known forms over one source, none of which refers to itself. -/
structure Draft.Recorded (source : List Char) (program : Tree) (draft : Draft) : Prop where
  source_eq : draft.source = source
  edits : ∀ e ∈ draft.edits, ComponentMacros.Recorded source program e
  selfless : ∀ e ∈ draft.edits, e.selects e = false

theorem Draft.Recorded.recordAll {draft : Draft} (h : draft.Recorded source program) {es : List Edit}
    (hes : ∀ e ∈ es, ComponentMacros.Recorded source program e) :
      (draft.recordAll es).Recorded source program := by
  refine ⟨by rw [recordAll_eq]; exact h.source_eq, ?_, ?_⟩
  · intro e he
    rcases mem_recordAll.mp he with he | he
    · exact h.edits e he
    · exact hes e he.1
  · intro e he
    rcases mem_recordAll.mp he with he | he
    · exact h.selfless e he
    · exact he.2

theorem expandMacro_recorded {setting : Setting} {progress progress' : Progress} {kind : Macro}
    (hu : ∀ s ∈ progress.usages.pending, s.In program) (hd : progress.draft.Recorded setting.source program)
    (h : expandMacro setting progress kind = .ok progress') :
    (∀ s ∈ progress'.usages.pending, s.In program) ∧ progress'.draft.Recorded setting.source program := by
  unfold expandMacro at h
  -- the sites still to come are sites of the program, and so are those queued
  refine (foldlM_run (fun rest p => (∀ s ∈ rest, s.In program) ∧ (∀ s ∈ p.usages.pending, s.In program) ∧
    p.draft.Recorded setting.source program) ?_ _ _ _ ⟨?_, ?_, hd⟩ h).2
  · rintro site rest p p' ⟨hrest, hup, hdp⟩ hstep
    obtain ⟨es, hdraft, hes, hpending⟩ := expandSite_grows (hrest site (List.mem_cons_self ..)) hup hstep
    refine ⟨fun s hs => hrest s (List.mem_cons_of_mem _ hs), fun s hs => hup s (hpending s hs), ?_⟩
    rw [hdraft]
    exact hdp.recordAll hes
  · intro s hs
    exact hu s (takeMatching_mem.1 s hs).1
  · intro s hs
    exact hu s (takeMatching_mem.2 s hs)

theorem expandAll_recorded (hc : collect? options program = some collected) {progress : Progress}
    (h : expandAll ⟨options, source, collected⟩ = .ok progress) : progress.draft.Recorded source program := by
  unfold expandAll at h
  refine (foldlM_run (fun _ p => (∀ s ∈ p.usages.pending, s.In program) ∧ p.draft.Recorded source program)
    ?_ _ _ _ ⟨collect?_sites hc, rfl, by simp, by simp⟩ h).2
  rintro kind rest p p' ⟨hu, hd⟩ hstep
  exact expandMacro_recorded hu hd hstep

theorem imports_statement (hc : collect? options program = some collected) {imported : MacroImport}
    (h : imported ∈ collected.imports) : ∃ t ∈ program.children, imported.span = t.span := by
  rw [(collect?_imports hc).1] at h
  obtain ⟨t, ht, hof⟩ := List.mem_filterMap.mp h
  refine ⟨t, ht, ?_⟩
  unfold MacroImport.ofTree? at hof
  split at hof
  · split at hof
    · cases hof; rfl
    · cases hof
  · cases hof

theorem removeImport_recorded (hroot : program.kind = .program) (hc : collect? options program = some collected) :
    ∀ e ∈ collected.imports.map (removeImport source), ComponentMacros.Recorded source program e := by
  intro e he
  obtain ⟨imported, himp, rfl⟩ := List.mem_map.mp he
  obtain ⟨t, ht, hspan⟩ := imports_statement hc himp
  unfold removeImport
  rw [hspan]
  exact .remove ⟨program, Tree.mem_nodes_self program, .line hroot ht⟩

theorem expansion_ok {draft : Draft} (h : expansion ⟨options, source, collected⟩ = .ok draft) :
    ∃ progress, expandAll ⟨options, source, collected⟩ = .ok progress ∧
      draft = progress.draft.recordAll (collected.imports.map (removeImport source)) := by
  unfold expansion at h
  obtain ⟨progress, hall, h⟩ := bind_eq_ok h
  cases h
  exact ⟨progress, hall, rfl⟩

theorem removeImport_mem {draft : Draft} (h : expansion ⟨options, source, collected⟩ = .ok draft)
    {imported : MacroImport} (himp : imported ∈ collected.imports) :
      removeImport source imported ∈ draft.edits := by
  obtain ⟨progress, -, rfl⟩ := expansion_ok h
  exact mem_recordAll.mpr (Or.inr ⟨List.mem_map_of_mem himp, rfl⟩)

/-- Everything an expansion records has one of the known forms. -/
theorem expansion_recorded (hroot : program.kind = .program) (hc : collect? options program = some collected)
    {draft : Draft} (h : expansion ⟨options, source, collected⟩ = .ok draft) : draft.Recorded source program := by
  obtain ⟨progress, hall, rfl⟩ := expansion_ok h
  exact (expandAll_recorded hc hall).recordAll (removeImport_recorded hroot hc)

end

end ComponentMacros
