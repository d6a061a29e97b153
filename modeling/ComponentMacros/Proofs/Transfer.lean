import ComponentMacros.Proofs.Collision
import ComponentMacros.Proofs.Rendering

/-!
# Moved injections

A map of injections that is moved stands in a property of the object it is moved
within. If the rendering of one map meets the edit that moves another, then the
other one's object lies inside the first map. Objects get smaller along such a
chain, so no map is moved into itself.
-/

namespace ComponentMacros

/-- The member has its place in the program: it is a pair of a key and a map in an object. -/
structure Transfer (program : Tree) (member : KeyedMember) (key value : Tree) : Prop where
  owner : member.object ∈ program.nodes
  object : member.object.kind = .object
  child : member.property ∈ member.object.children
  property : member.property.isProperty = true
  parts : member.property.children = [key, value]
  named : key.span.start < key.span.stop
  map : value.stripParens.kind = .object

section
variable {source : List Char} {program : Tree}

theorem Site.In.node {site : Site} (hs : site.In program) (hshape : Shape program) :
    ∃ n, n.isName = true ∧ n.children = [] ∧ n.span = site.span ∧ site.span.start < site.span.stop ∧
      PathTo program (n :: site.ancestors) := by
  obtain ⟨n, hkind, hspan, hpath⟩ := hs
  have hname : n.isName = true := by
    unfold Tree.isName
    rcases hkind with h | h <;> rw [h]
  obtain ⟨hleaf, hpos⟩ := hshape.name hpath.head_mem_nodes hname
  exact ⟨n, hname, hleaf, hspan, hspan ▸ hpos, hpath⟩

theorem Site.In.contains {site : Site} (hs : site.In program) (hl : Layout source program) {t : Tree}
    (ht : t ∈ site.ancestors) : t.span.contains site.span = true := by
  obtain ⟨n, -, hspan, hpath⟩ := hs
  rw [← hspan]
  exact hl.contains (hpath.mem_nodes t (List.mem_cons_of_mem _ ht))
    (hpath.mem_of_mem t (List.mem_cons_of_mem _ ht))

theorem keyedMember_child (hl : Layout source program) (hshape : Shape program) {site : Site}
    (hs : site.In program)
    {member : KeyedMember} (h : keyedMember site = .ok member) : member.property ∈ member.object.children := by
  obtain ⟨hkey, howner, -⟩ := keyedMember_spec h
  obtain ⟨hprop, hpk⟩ := keyedMember_property hs h
  obtain ⟨hobj, hok⟩ := keyedMember_object hs h
  obtain ⟨homem, -, c, hc, hcspan⟩ := Site.owner?_spec howner
  obtain ⟨-, -, -, -, hpos, -⟩ := hs.node hshape
  have hin := Span.contains_iff.mp (hs.contains hl (Site.keyProperty?_mem hkey))
  have hino := Span.contains_iff.mp (hs.contains hl homem)
  have hinside := (hl.object hobj (Tree.isObject_iff.mp hok)).bounds.2 c hc
  have hmeet : ¬ member.property.span.Apart member.object.span := by unfold Span.Apart; omega
  rcases hl.nested hprop hobj hmeet with hpo | hop
  · rcases Tree.mem_nodes.mp hpo with heq | ⟨d, hd, hpd⟩
    · obtain ⟨a, b, s, m, hk⟩ := Tree.isProperty_iff.mp hpk
      rw [heq, Tree.isObject_iff.mp hok] at hk
      cases hk
    · have hdp := Span.contains_iff.mp (hl.contains (Tree.nodes_trans hobj (Tree.child_mem_nodes hd)) hpd)
      rcases (hl.parts hobj).eq_or_apart d hd c hc with rfl | hap
      · -- below the member there is no object to have the property as its own
        rcases Tree.eq_or_child_of_mem hpd with heq | ⟨u, hu, hpu⟩
        · rw [heq]; exact hd
        · have hup := Tree.nodes_trans hobj (Tree.mem_nodes_of_child hd hu)
          have huk := hshape.member hup hpu hpk
          have hstrict := (hl.object hup huk).bounds.2 _ hpu
          have hud := Span.contains_iff.mp (hl.contains (Tree.nodes_trans hobj (Tree.child_mem_nodes hd)) hu)
          rw [hcspan] at hud
          omega
      · unfold Span.Apart at hap
        rw [hcspan] at hap
        omega
  · have hob := Span.contains_iff.mp (hl.contains hprop hop)
    rw [hcspan] at hinside
    omega

theorem keyedMember_transfer (hl : Layout source program) (hshape : Shape program) {site : Site}
    (hs : site.In program) {member : KeyedMember} (h : keyedMember site = .ok member)
    (hplain : ∃ a c m, member.property.kind = .property a c false m) {value : Tree}
    (hvalue : member.property.value? = some value) (hmap : value.stripParens.isObject = true) :
    ∃ key, Transfer program member key value ∧ key.span = site.span := by
  obtain ⟨hkey, -, -⟩ := keyedMember_spec h
  obtain ⟨hobj, hok⟩ := keyedMember_object hs h
  obtain ⟨hprop, hpk⟩ := keyedMember_property hs h
  obtain ⟨-, first, rest, hcs, hspan⟩ := Site.keyProperty?_key hkey
  obtain ⟨-, -, -, -, hpos, -⟩ := hs.node hshape
  obtain ⟨a, c, m, hk⟩ := hplain
  obtain ⟨key, last, hpair⟩ := hshape.pair hprop (by rw [Tree.isPair, hk]; rfl)
  have hlast : last = value := by
    rw [Tree.value?, if_pos hpk, hpair, List.getLast?_cons_cons, List.getLast?_singleton,
      Option.some.injEq] at hvalue
    exact hvalue
  have hfirst : key.span = site.span := by
    rw [hpair] at hcs
    cases hcs
    exact hspan
  exact ⟨key, ⟨hobj, Tree.isObject_iff.mp hok, keyedMember_child hl hshape hs h, hpk, hlast ▸ hpair,
    by rw [hfirst]; exact hpos, Tree.isObject_iff.mp hmap⟩, hfirst⟩

namespace Transfer

variable {member : KeyedMember} {key value : Tree}

theorem property_mem (h : Transfer program member key value) : member.property ∈ program.nodes :=
  Tree.nodes_trans h.owner (Tree.child_mem_nodes h.child)

theorem value_child (h : Transfer program member key value) : value ∈ member.property.children := by
  rw [h.parts]; exact List.mem_cons_of_mem _ (List.mem_singleton_self _)

theorem value_mem (h : Transfer program member key value) : value ∈ program.nodes :=
  Tree.nodes_trans h.property_mem (Tree.child_mem_nodes h.value_child)

theorem value_not_property (h : Transfer program member key value) : value.isProperty = false := by
  by_contra hp
  obtain ⟨a, c, s, m, hk⟩ := Tree.isProperty_iff.mp (Bool.eq_true_of_not_eq_false hp)
  have hmap := h.map
  rw [Tree.stripParens_of_kind (by rw [hk]; exact fun h => nomatch h), hk] at hmap
  cases hmap

theorem bounds (hl : Layout source program) (h : Transfer program member key value) :
    member.object.span.start < member.property.span.start ∧ member.property.span.start ≤ key.span.start ∧
      key.span.start < key.span.stop ∧ key.span.stop ≤ value.span.start ∧ value.span.start < value.span.stop ∧
      value.span.stop ≤ member.property.span.stop ∧ member.property.span.stop < member.object.span.stop := by
  obtain ⟨hstart, -, hstop⟩ := (hl.object h.owner h.object).bounds.2 _ h.child
  have hparts := hl.parts h.property_mem
  rw [h.parts] at hparts
  obtain ⟨hkey, -, hvalue, -, hend⟩ := hparts
  have hmap := (hl.object (Tree.nodes_trans h.value_mem value.stripParens_mem) h.map).bounds.1
  have hin := Span.contains_iff.mp (hl.contains h.value_mem value.stripParens_mem)
  have hle : value.span.stop ≤ member.property.span.stop := hend
  exact ⟨hstart, hkey, h.named, hvalue, by omega, hle, hstop⟩

theorem not_mem_property (hl : Layout source program) (h : Transfer program member key value) {v : Tree}
    (hv : v.isProperty = false) (hc : v.span.contains member.property.span = true) :
      v ∉ member.property.nodes := by
  intro hmem
  have hb := h.bounds hl
  rw [Span.contains_iff] at hc
  rcases Tree.mem_nodes.mp hmem with rfl | ⟨c, hcp, hvc⟩
  · rw [h.property] at hv; cases hv
  · have hcv := Span.contains_iff.mp (hl.contains (Tree.nodes_trans h.property_mem (Tree.child_mem_nodes hcp)) hvc)
    rw [h.parts, List.mem_cons, List.mem_singleton] at hcp
    rcases hcp with rfl | rfl <;> omega

theorem owner_mem_of_contains (hl : Layout source program) (h : Transfer program member key value) {v : Tree}
    (hvp : v ∈ program.nodes) (hv : v.isProperty = false) (hc : v.span.contains member.property.span = true) :
    member.object ∈ v.nodes := by
  have hb := h.bounds hl
  have hcv := Span.contains_iff.mp hc
  have hmeet : ¬ member.object.span.Apart v.span := by unfold Span.Apart; omega
  rcases hl.nested h.owner hvp hmeet with hin | hvo
  · exact hin
  · rcases Tree.mem_nodes.mp hvo with rfl | ⟨d, hd, hvd⟩
    · exact Tree.mem_nodes_self _
    · have hdv := Span.contains_iff.mp (hl.contains (Tree.nodes_trans h.owner (Tree.child_mem_nodes hd)) hvd)
      rcases (hl.parts h.owner).eq_or_apart d hd _ h.child with rfl | hap
      · exact absurd hvd (h.not_mem_property hl hv hc)
      · unfold Span.Apart at hap; omega

end Transfer

/-! ## Lists of mixins -/

theorem mixinEnd_array {mixins last : Tree} (h : mixins.stripParens.kind = .array)
    (hlast : mixins.stripParens.children.getLast? = some last) : mixinEnd mixins = last.span.stop := by
  simp [mixinEnd, h, hlast]

theorem mixinEnd_empty {mixins : Tree} (h : mixins.stripParens.kind = .array)
    (hempty : mixins.stripParens.children.getLast? = none) :
      mixinEnd mixins = mixins.stripParens.span.start + 1 := by
  simp [mixinEnd, h, hempty]

theorem mixinEnd_other {mixins : Tree} (h : mixins.stripParens.kind ≠ .array) :
    mixinEnd mixins = mixins.stripParens.span.stop := by
  simp [mixinEnd, h]

theorem mixinEnd_bounds (hl : Layout source program) {mixins : Tree} (hm : mixins ∈ program.nodes) :
    mixins.stripParens.span.start ≤ mixinEnd mixins ∧ mixinEnd mixins ≤ mixins.stripParens.span.stop ∧
      IsBoundary source (mixinEnd mixins) := by
  have hlist := Tree.nodes_trans hm mixins.stripParens_mem
  by_cases harr : mixins.stripParens.kind = .array
  · have hb := hl.array hlist harr
    cases hlast : mixins.stripParens.children.getLast? with
    | some last =>
      have hmem := List.mem_of_getLast? hlast
      have hin := hb.bounds.2 last hmem
      rw [mixinEnd_array harr hlast]
      exact ⟨by omega, by omega, (hl.fits (Tree.nodes_trans hlist (Tree.child_mem_nodes hmem))).2.2⟩
    | none =>
      have hin := hb.bounds.1
      rw [mixinEnd_empty harr hlast]
      exact ⟨by omega, by omega, isBoundary_succ hb.1 rfl⟩
  · rw [mixinEnd_other harr]
    exact ⟨hl.ordered hlist, Nat.le_refl _, (hl.fits hlist).2.2⟩

theorem le_mixinEnd (hl : Layout source program) {mixins : Tree} (hm : mixins ∈ program.nodes) {v : Tree}
    (hv : v ∈ mixins.stripParens.nodes) (hmap : v.stripParens.kind = .object) : v.span.stop ≤ mixinEnd mixins := by
  have hlist := Tree.nodes_trans hm mixins.stripParens_mem
  by_cases harr : mixins.stripParens.kind = .array
  · rcases Tree.mem_nodes.mp hv with rfl | ⟨c, hc, hvc⟩
    · rw [Tree.stripParens_of_kind (by rw [harr]; exact fun h => nomatch h), harr] at hmap
      cases hmap
    · have hin := Span.contains_iff.mp (hl.contains (Tree.nodes_trans hlist (Tree.child_mem_nodes hc)) hvc)
      cases hlast : mixins.stripParens.children.getLast? with
      | some last =>
        have := (hl.parts hlist).le_getLast hlast c hc
        rw [mixinEnd_array harr hlast]
        omega
      | none =>
        rw [List.getLast?_eq_none_iff.mp hlast] at hc
        cases hc
  · rw [mixinEnd_other harr]
    exact (Span.contains_iff.mp (hl.contains hlist hv)).2

/-! ## Chains of moves -/

namespace Transfer

variable {member member' : KeyedMember} {key value key' value' : Tree}

/-- A map that a list of mixins is extended in contains the list's object, or it is the list itself,
in parentheses. -/
theorem owner_mem_of_mixins (hl : Layout source program) (h : Transfer program member key value)
    (h' : Transfer program member' key' value') {mixins : Tree}
    (hmixins : (member'.object.findMember? "mixins").bind (·.2.value?) = some mixins)
    (hstart : value.span.start < mixinEnd mixins) (hstop : mixinEnd mixins < value.span.stop) :
    member'.object ∈ value.nodes ∨ member.object = member'.object ∧ value = mixins := by
  obtain ⟨q, hq, -, hqv⟩ := memberValue_mem hmixins
  have hqp := Tree.nodes_trans h'.owner (Tree.child_mem_nodes hq)
  have hmq := Tree.value?_mem hqv
  have hmp := Tree.nodes_trans hqp (Tree.child_mem_nodes hmq)
  -- the place is in the list, the property and the object
  obtain ⟨hfrom, hto, -⟩ := mixinEnd_bounds hl hmp
  have hlm := Span.contains_iff.mp (hl.contains hmp mixins.stripParens_mem)
  have hmin := (hl.parts hqp).bounds mixins hmq
  have hqin := (hl.parts h'.owner).bounds q hq
  have hmeet : ¬ member'.object.span.Apart value.span := by unfold Span.Apart; omega
  rcases hl.nested h'.owner h.value_mem hmeet with hin | hvo
  · exact Or.inl hin
  rcases Tree.mem_nodes.mp hvo with heq | ⟨d, hd, hvd⟩
  · rw [heq]; exact Or.inl (Tree.mem_nodes_self _)
  have hdv := Span.contains_iff.mp (hl.contains (Tree.nodes_trans h'.owner (Tree.child_mem_nodes hd)) hvd)
  obtain rfl : d = q := by
    rcases (hl.parts h'.owner).eq_or_apart d hd q hq with heq | hap
    · exact heq
    · unfold Span.Apart at hap; omega
  -- the map is inside the list of mixins, so it can only be the list's own parentheses
  have hvm : value ∈ mixins.nodes := by
    rcases Tree.mem_nodes.mp hvd with heq | ⟨x, hx, hvx⟩
    · have hprop := h.value_not_property
      unfold Tree.value? at hqv
      split at hqv
      · rename_i hdp; rw [heq, hdp] at hprop; cases hprop
      · cases hqv
    · have hxv := Span.contains_iff.mp (hl.contains (Tree.nodes_trans hqp (Tree.child_mem_nodes hx)) hvx)
      rcases (hl.parts hqp).eq_or_apart x hx mixins hmq with rfl | hap
      · exact hvx
      · unfold Span.Apart at hap; omega
  rcases Tree.mem_stripParens hvm with hvl | ⟨-, hstrip⟩
  · have := le_mixinEnd hl hmp hvl h.map
    omega
  have hpos := (h.bounds hl).2.2.2.2.1
  rcases Tree.eq_or_child_of_mem hvm with heq | ⟨u, hu, hvu⟩
  · have hpd : member.property = d :=
      hl.parent_unique h.property_mem hqp h.value_child (heq ▸ hmq) hpos
    have hppos : member.property.span.start < member.property.span.stop := by
      have := h.bounds hl; omega
    exact Or.inr ⟨hl.parent_unique h.owner h'.owner h.child (hpd ▸ hd) hppos, heq⟩
  · -- the property would be one of the parentheses
    obtain rfl : member.property = u :=
      hl.parent_unique h.property_mem (Tree.nodes_trans hmp hu) h.value_child hvu hpos
    rcases Tree.mem_stripParens hu with hpl | ⟨hk, -⟩
    · rw [← hstrip] at hpl
      exact absurd (Tree.nodes_trans value.stripParens_mem hpl) (Tree.not_mem_child h.value_child)
    · obtain ⟨a, c, s, m, hk'⟩ := Tree.isProperty_iff.mp h.property
      rw [hk] at hk'; cases hk'

end Transfer

theorem Moves.source_mem {member : KeyedMember} {value : Tree} {e : Edit} (h : Moves member value e)
    {range : Span} :
    .source range ∈ e.content ↔ range = value.span := by
  cases h <;> simp [mixinOf]

theorem Moves.selects_iff {member : KeyedMember} {value : Tree} {e f : Edit} (h : Moves member value e) :
    e.selects f = true ↔ f.isWithin value.span true = true := by
  rw [Edit.selects_iff]
  constructor
  · rintro ⟨range, hr, hin⟩
    rw [h.source_mem.mp hr] at hin
    exact hin
  · intro hin
    exact ⟨_, h.source_mem.mpr rfl, hin⟩

theorem Moves.sizeOf_lt (hl : Layout source program) {member member' : KeyedMember} {key value key' value' : Tree}
    (ht : Transfer program member key value) (ht' : Transfer program member' key' value') {e f : Edit}
    (he : Moves member value e) (hf : Moves member' value' f) (hself : e.selects e = false)
    (hsel : e.selects f = true) : sizeOf member'.object < sizeOf member.object := by
  -- the map is smaller than its property, and that than its object
  have hsmall : member'.object ∈ value.nodes → sizeOf member'.object < sizeOf member.object := by
    intro hin
    have := Tree.sizeOf_le_of_mem hin
    have := Tree.sizeOf_child ht.value_child
    have := Tree.sizeOf_child ht.child
    omega
  rw [he.selects_iff] at hsel
  cases hf with
  | inPlace _ => exact hsmall (ht'.owner_mem_of_contains hl ht.value_mem ht.value_not_property hsel)
  | @intoList mixins before after hmixins =>
    have hin := hsel
    simp only [Edit.isWithin, ite_true, Bool.and_eq_true, decide_eq_true_eq] at hin
    rcases ht.owner_mem_of_mixins hl ht' hmixins hin.1 hin.2 with hmem | ⟨hobj, hval⟩
    · exact hsmall hmem
    · -- then both moves go to the same place
      rw [← hobj] at hmixins
      have : e.selects e = true := by
        rw [he.selects_iff]
        cases he with
        | inPlace hnone => rw [hmixins] at hnone; cases hnone
        | intoList hmixins' =>
          rw [hmixins] at hmixins'
          cases hmixins'
          exact hsel
      rw [hself] at this; cases this

theorem Recorded.moves (hl : Layout source program) (hshape : Shape program) {e : Edit}
    (h : Recorded source program e) {range : Span} (hr : .source range ∈ e.content) :
    ∃ member key value, Transfer program member key value ∧ Moves member value e := by
  cases h with
  | replace _ => exact absurd hr Fragment.source_not_mem_ofText
  | prepend _ => exact absurd hr Fragment.source_not_mem_ofText
  | append _ => exact absurd hr Fragment.source_not_mem_ofText
  | move hs hm hplain hvalue hmap he =>
    obtain ⟨key, ht, -⟩ := keyedMember_transfer hl hshape hs hm hplain hvalue hmap
    exact ⟨_, key, _, ht, he⟩

theorem Draft.Recorded.sizeOf_lt (hl : Layout source program) (hshape : Shape program) {draft : Draft}
    (h : draft.Recorded source program) {e f : Edit} (hchain : Relation.TransGen draft.Selects e f) :
    ∀ {member member' : KeyedMember} {key value key' value' : Tree}, Transfer program member key value →
      Transfer program member' key' value' → Moves member value e → Moves member' value' f →
      sizeOf member'.object < sizeOf member.object := by
  induction hchain with
  | single hstep =>
    intro member member' key value key' value' ht ht' he hf
    exact he.sizeOf_lt hl ht ht' hf (h.selfless _ hstep.1) hstep.2.2
  | tail _ hstep ih =>
    intro member member' key value key' value' ht ht' he hf
    obtain ⟨range, hr, -⟩ := Edit.selects_iff.mp hstep.2.2
    obtain ⟨between, keyb, valueb, htb, heb⟩ := (h.edits _ hstep.1).moves hl hshape hr
    have := ih ht htb he heb
    have := heb.sizeOf_lt hl htb ht' hf (h.selfless _ hstep.1) hstep.2.2
    omega

theorem Draft.Recorded.acyclic (hl : Layout source program) (hshape : Shape program) {draft : Draft}
    (h : draft.Recorded source program) : draft.Acyclic := by
  intro e hchain
  obtain ⟨f, hstep, -⟩ := Relation.TransGen.head'_iff.mp hchain
  obtain ⟨range, hr, -⟩ := Edit.selects_iff.mp hstep.2.2
  obtain ⟨member, key, value, ht, he⟩ := (h.edits e hstep.1).moves hl hshape hr
  exact Nat.lt_irrefl _ (h.sizeOf_lt hl hshape hchain ht ht he he)

/-! ## Positions -/

theorem Layout.closing (hl : Layout source program) {list : Tree} (hp : list ∈ program.nodes)
    (hk : list.kind = .parameters) (hnone : list.plainParameters = []) :
    0 < list.span.stop ∧ IsBoundary source (list.span.stop - 1) := by
  rcases hl.parameters hp hk with henc | hbare
  · have := henc.bounds.1
    exact ⟨by omega, .of_charAt henc.2.1⟩
  · -- a list without brackets has a parameter
    obtain ⟨c, hc, heq⟩ := List.map_eq_singleton_iff.mp hbare
    have hpar : c.kind = .parameter := congrArg Prod.fst heq
    simp [Tree.plainParameters, hc, hpar] at hnone

theorem Anchor.isBoundary (hl : Layout source program) {pos : Nat} (h : Anchor program pos) :
    IsBoundary source pos := by
  cases h with
  | start ht => exact (hl.fits ht).2.1
  | stop ht => exact (hl.fits ht).2.2
  | opening ht hk =>
    rcases hk with hk | hk
    · exact isBoundary_succ (hl.object ht hk).1 rfl
    · exact isBoundary_succ (hl.array ht hk).1 rfl
  | closing ht hk hp => exact (hl.closing ht hk hp).2

theorem Recorded.fits (hl : Layout source program) {e : Edit} (h : Recorded source program e) :
    e.span.Fits source := by
  by_cases ho : e.placement = .overwrite
  · obtain ⟨t, ht, hcut⟩ := h.cut ho
    exact hl.cut_fits ht hcut
  · -- an insertion is a point
    have point : IsBoundary source e.span.start → e.span.Fits source := by
      intro hb
      have hp := h.point ho
      exact ⟨Nat.le_of_eq hp.symm, hb, hp ▸ hb⟩
    apply point
    cases h with
    | replace _ => exact absurd rfl ho
    | prepend ha => exact ha.isBoundary hl
    | append ha => exact ha.isBoundary hl
    | move hs hm _ _ _ he =>
      cases he with
      | inPlace _ => exact absurd rfl ho
      | intoList hmixins =>
        obtain ⟨q, hq, -, hqv⟩ := memberValue_mem hmixins
        have hqp := Tree.nodes_trans (keyedMember_object hs hm).1 (Tree.child_mem_nodes hq)
        exact (mixinEnd_bounds hl (Tree.nodes_trans hqp (Tree.child_mem_nodes (Tree.value?_mem hqv)))).2.2

theorem Draft.Recorded.inRange (hl : Layout source program) (hshape : Shape program) {draft : Draft}
    (h : draft.Recorded source program) : draft.InRange := by
  refine ⟨?_, ?_⟩
  · intro e he
    rw [h.source_eq]
    exact (h.edits e he).fits hl
  · intro e he range hr
    obtain ⟨member, key, value, ht, hmv⟩ := (h.edits e he).moves hl hshape hr
    rw [h.source_eq, hmv.source_mem.mp hr]
    exact hl.fits ht.value_mem

end

end ComponentMacros
