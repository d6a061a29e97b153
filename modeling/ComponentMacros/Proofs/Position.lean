import ComponentMacros.Proofs.Coverage

/-!
# What a site stands for

A site finds its call, or its property, by comparing spans. In a program as
parsers make them this finds the parent: the site is the callee of the call right
around it, or the key of a property of the object literal around that.
-/

namespace ComponentMacros

namespace Tree

def isFunction (t : Tree) : Bool :=
  match t.kind with
  | .function _ _ _ | .arrow _ => true
  | _ => false

def Headed (t : Tree) : Prop :=
  -- nothing but the name itself is as wide as a name
  (t.isCall = true ∨ t.isProperty = true → ∀ first ∈ t.children.head?,
    (∃ n ∈ first.nodes, n.isName = true ∧ n.span = first.span) → first.isName = true) ∧
  (t.isCall = true → ∀ first ∈ t.children.head?, first.span.stop < t.span.stop) ∧
  (t.isFunction = true → ∃ list ∈ t.children, list.kind = .parameters)

instance (t : Tree) : Decidable t.Headed :=
  inferInstanceAs (Decidable (_ ∧ _ ∧ _))

end Tree

/-- What a parser promises about calls, properties and functions. -/
structure Heading (program : Tree) : Prop where
  headed : ∀ t ∈ program.nodes, t.Headed

instance (program : Tree) : Decidable (Heading program) :=
  decidable_of_iff (∀ t ∈ program.nodes, t.Headed) ⟨fun h => ⟨h⟩, fun h => h.headed⟩

structure Site.Heads (site : Site) (call : Tree) : Prop where
  isCall : call.isCall = true
  nearest : site.ancestors.head? = some call
  callee : ∃ name, call.children.head? = some name ∧ name.isName = true ∧ name.span = site.span

structure Site.Keys (site : Site) (object property : Tree) : Prop where
  isProperty : property.isProperty = true
  isObject : object.isObject = true
  member : property ∈ object.children
  nearest : ∃ rest, site.ancestors = property :: object :: rest
  key : ∃ name, property.children.head? = some name ∧ name.isName = true ∧ name.span = site.span

theorem Tree.parameterList?_eq (t : Tree) :
    t.parameterList? = if t.isFunction then t.children.find? (·.kind = .parameters) else none := by
  unfold parameterList? isFunction
  cases t.kind <;> rfl

theorem Heading.parameterList? {program : Tree} (h : Heading program) {t : Tree} (ht : t ∈ program.nodes) :
    t.parameterList?.isSome = t.isFunction := by
  rw [Tree.parameterList?_eq]
  cases hfunction : t.isFunction with
  | false => rfl
  | true =>
    obtain ⟨list, hmem, hkind⟩ := (h.headed t ht).2.2 hfunction
    rw [if_pos rfl, List.find?_isSome]
    exact ⟨list, hmem, decide_eq_true hkind⟩

/-! ## Paths -/

theorem PathTo.part_of {program c : Tree} {rest : List Tree} : ∀ {before : List Tree} {n : Tree},
    PathTo program (n :: (before ++ c :: rest)) →
    ∃ u ∈ c.children, n ∈ u.nodes ∧ u ∈ n :: before ∧ (u = n → before = [])
  | [], n, h => by
    cases h with
    | part hn _ => exact ⟨n, hn, Tree.mem_nodes_self n, List.mem_cons_self .., fun _ => rfl⟩
  | m :: before, n, h => by
    cases h with
    | part hn h =>
      obtain ⟨u, hu, hm, hmem, -⟩ := part_of h
      refine ⟨u, hu, Tree.nodes_trans hm (Tree.child_mem_nodes hn), List.mem_cons_of_mem _ hmem, ?_⟩
      rintro rfl
      exact absurd hm (Tree.not_mem_child hn)

section
variable {source : List Char} {program : Tree} {site : Site}
variable (hl : Layout source program) (hshape : Shape program) (hheads : Heading program) (hs : site.In program)

include hl hshape hheads hs

omit hheads in
/-- If the first part of the node that a site takes for its parent reaches around the site, then the
node is the parent, and its first part is the site itself. -/
theorem Site.first_of_parent {t first : Tree} (hparent : site.parent? = some t)
    (hfirst : t.children.head? = some first)
    (hnames : (∃ n ∈ first.nodes, n.isName = true ∧ n.span = first.span) → first.isName = true)
    (hwide : first.span.contains site.span = true) :
    site.ancestors.head? = some t ∧ first.isName = true ∧ first.span = site.span := by
  obtain ⟨n, hname, -, hn, hpos, hpath⟩ := hs.node hshape
  obtain ⟨-, before, rest, hanc, hbefore⟩ := List.find?_eq_some_iff_append.mp hparent
  rw [hanc] at hpath
  obtain ⟨u, hu, hnu, humem, hlast⟩ := hpath.part_of
  have huspan : u.span = site.span := by
    rcases List.mem_cons.mp humem with rfl | humem
    · exact hn
    · have := hbefore u humem
      simp only [Bool.not_eq_true', Bool.or_eq_false_iff, decide_eq_false_iff_not, not_not] at this
      exact this.1
  have htmem : t ∈ program.nodes :=
    hpath.mem_nodes t (List.mem_cons_of_mem _ (List.mem_append_right _ (List.mem_cons_self ..)))
  -- two parts that share the site are one
  have hsame : u = first := by
    rcases (hl.parts htmem).eq_or_apart u hu first (List.mem_of_head? hfirst) with heq | hap
    · exact heq
    · rw [Span.contains_iff] at hwide
      unfold Span.Apart at hap
      rw [huspan] at hap
      omega
  subst hsame
  have huname : u.isName = true := hnames ⟨n, hnu, hname, hn.trans huspan.symm⟩
  have hleaf := (hshape.name (Tree.nodes_trans htmem (Tree.child_mem_nodes hu)) huname).1
  have hnu : u = n := by
    rcases Tree.mem_nodes.mp hnu with heq | ⟨c, hc, -⟩
    · exact heq.symm
    · rw [hleaf] at hc; cases hc
  rw [hlast hnu] at hanc
  exact ⟨by rw [hanc]; rfl, huname, huspan⟩

theorem Site.call?_iff {call : Tree} : site.call? = some call ↔ site.Heads call := by
  constructor
  · intro h
    obtain ⟨hcall, callee, rest, hparts, hspan⟩ := Site.call?_callee h
    have hfirst : call.children.head? = some callee := by rw [hparts]; rfl
    have hmem := hs.ancestor_mem (Site.call?_mem h)
    have hwide := hl.contains (Tree.nodes_trans hmem (Tree.child_mem_nodes (List.mem_of_head? hfirst)))
      callee.stripParens_mem
    rw [hspan] at hwide
    obtain ⟨hnearest, hname⟩ := Site.first_of_parent hl hshape hs (Site.call?_parent h) hfirst
      ((hheads.headed call hmem).1 (Or.inl hcall) callee hfirst) hwide
    exact ⟨hcall, hnearest, callee, hfirst, hname⟩
  · rintro ⟨hcall, hnearest, callee, hfirst, hname, hspan⟩
    have hmem := hs.ancestor_mem (List.mem_of_head? hnearest)
    have hlonger := (hheads.headed call hmem).2.1 hcall callee hfirst
    have hwider : call.span ≠ site.span := by
      intro heq
      rw [heq, hspan] at hlonger
      exact Nat.lt_irrefl _ hlonger
    have hparent : site.parent? = some call := by
      obtain ⟨rest, hanc⟩ := List.head?_eq_some_iff.mp hnearest
      rw [Site.parent?, hanc, List.find?_cons_of_pos (by simp [hwider])]
    have hparens : callee.stripParens = callee := by
      apply Tree.stripParens_of_kind
      intro hk
      rw [Tree.isName, hk] at hname
      cases hname
    simp [Site.call?, hparent, Tree.callee?, hcall, hfirst, hparens, hspan]

theorem Site.keyProperty?_first {property : Tree} (h : site.keyProperty? = some property) :
    property.isProperty = true ∧ site.ancestors.head? = some property ∧
      ∃ name, property.children.head? = some name ∧ name.isName = true ∧ name.span = site.span := by
  obtain ⟨hprop, key, rest, hparts, hspan⟩ := Site.keyProperty?_key h
  have hfirst : property.children.head? = some key := by rw [hparts]; rfl
  have hwide : key.span.contains site.span = true := by rw [hspan]; exact Span.contains_self _
  have hmem := hs.ancestor_mem (Site.keyProperty?_mem h)
  obtain ⟨hnearest, hname⟩ := Site.first_of_parent hl hshape hs (Site.keyProperty?_parent h) hfirst
    ((hheads.headed property hmem).1 (Or.inr hprop) key hfirst) hwide
  exact ⟨hprop, hnearest, key, hfirst, hname⟩

omit hheads in
theorem Site.owner_of_nearest {property : Tree} (hprop : property.isProperty = true)
    (hnearest : site.ancestors.head? = some property) :
    ∃ object rest, site.ancestors = property :: object :: rest ∧ object.isObject = true ∧
      property ∈ object.children ∧ site.owner? property = some object := by
  obtain ⟨n, -, -, -, -, hpath⟩ := hs.node hshape
  obtain ⟨above, hanc⟩ := List.head?_eq_some_iff.mp hnearest
  rw [hanc] at hpath
  obtain ⟨access, computed, shorthand, isMethod, hk⟩ := Tree.isProperty_iff.mp hprop
  cases hpath.tail with
  | root => rw [hl.root] at hk; cases hk
  | @part _ object rest hmem h =>
    have hobject : object.isObject = true := Tree.isObject_iff.mpr (hshape.member h.head_mem_nodes hmem hprop)
    refine ⟨object, rest, hanc, hobject, hmem, ?_⟩
    have hnot : property.isObject = false := by simp [Tree.isObject, hk]
    rw [Site.owner?, hanc, List.find?_cons_of_neg (by simp [hnot]), List.find?_cons_of_pos]
    simp only [hobject, Bool.true_and, List.any_eq_true, decide_eq_true_eq]
    exact ⟨property, hmem, rfl⟩

theorem Site.member_iff {object property : Tree} :
    site.keyProperty? = some property ∧ site.owner? property = some object ↔ site.Keys object property := by
  constructor
  · rintro ⟨hkey, howner⟩
    obtain ⟨hprop, hnearest, hname⟩ := Site.keyProperty?_first hl hshape hheads hs hkey
    obtain ⟨above, rest, hanc, hobject, hmem, hfound⟩ := Site.owner_of_nearest hl hshape hs hprop hnearest
    obtain rfl := Option.some.inj (howner.symm.trans hfound)
    exact ⟨hprop, hobject, hmem, ⟨rest, hanc⟩, hname⟩
  · rintro ⟨hprop, hobject, hmem, ⟨rest, hanc⟩, name, hfirst, -, hspan⟩
    have hparent : site.parent? = some property := by
      rw [Site.parent?, hanc, List.find?_cons_of_pos (by simp [hprop])]
    obtain ⟨above, rest', hanc', -, -, hfound⟩ := Site.owner_of_nearest hl hshape hs hprop (by rw [hanc]; rfl)
    rw [hanc] at hanc'
    cases hanc'
    exact ⟨by simp [Site.keyProperty?, hparent, Tree.key?, hprop, hfirst, hspan], hfound⟩

end

end ComponentMacros
