import ComponentMacros.Proofs.Misuse

/-!
# What sites find by spans

A site knows the nodes around it but not which part of them it is, so it compares
spans. An expression that is as wide as a name in it is the name: every other has
several parts or a mark of its own. So the call that a site finds applies to the
very name of the site, with no parentheses and no other mark around it, the property
is the one whose key this name is, and its owner is the literal the property is
written in.
-/

namespace ComponentMacros

/-! ## Marks -/

/-- The node may be written as nothing but one of its parts: an access in a chain, a tag that closes
itself, or a template without values. -/
def Kind.isWrapper : Kind → Bool
  | .chain | .element | .template => true
  | _ => false

/-- The node is written with a mark of its own, a word, an operator, brackets or quotes, unless it has
several parts. -/
def Kind.isMarked : Kind → Bool
  | .identifier _ => false
  | .openingTag _ | .closingTag | .templateText _ => true
  | kind => kind.isExpression && !kind.isWrapper

theorem Kind.unmarked_cases {kind : Kind} (hexpression : kind.isExpression = true)
    (hmark : kind.isMarked = false) :
    (∃ name, kind = .identifier name) ∨ kind.isWrapper = true := by
  unfold isMarked at hmark
  split at hmark
  · exact Or.inl ⟨_, rfl⟩
  · cases hmark
  · cases hmark
  · cases hmark
  · rw [hexpression, Bool.true_and, Bool.not_eq_false'] at hmark
    exact Or.inr hmark

theorem Kind.unmarked_name {t : Tree} (hname : t.isName = true) : t.kind.isMarked = false := by
  unfold Tree.isName at hname
  split at hname
  · rename_i name hkind
    rw [hkind]
    rfl
  · rename_i name hkind
    rw [hkind]
    rfl
  · cases hname

namespace Tree

def hasComputedKey (t : Tree) : Bool :=
  match t.kind with
  | .property _ computed _ _ => computed
  | _ => false

def Marked (t : Tree) : Prop :=
  (t.kind.isMarked = true → (∀ c ∈ t.children, c.span.start < c.span.stop) ∧
    -- where there is one part only, the mark is beside it
    (t.children.length = 1 → ∀ c ∈ t.children, c.span ≠ t.span)) ∧
  (t.kind.isWrapper = true → ∀ c ∈ t.children, c.span = t.span → c.kind.isMarked = true) ∧
  (t.isCall = true ∨ t.hasComputedKey = true → ∀ first ∈ t.children.head?, first.kind.isExpression = true) ∧
  (t.isCall = true → ∀ a ∈ t.children, ∀ b ∈ t.children, a.kind = .typeArguments → b.kind = .typeArguments → a = b)

instance (t : Tree) : Decidable t.Marked :=
  inferInstanceAs (Decidable (_ ∧ _ ∧ _ ∧ _))

end Tree

/-- What a parser promises about the marks of expressions. -/
structure Marking (program : Tree) : Prop where
  marked : ∀ t ∈ program.nodes, t.Marked

instance (program : Tree) : Decidable (Marking program) :=
  decidable_of_iff (∀ t ∈ program.nodes, t.Marked) ⟨fun h => ⟨h⟩, fun h => h.marked⟩

theorem Ordered.sole {c : Tree} : ∀ {ts : List Tree} {lo hi : Nat}, Ordered lo hi ts →
    (∀ t ∈ ts, t.span.start < t.span.stop) → c ∈ ts → c.span = ⟨lo, hi⟩ → ts = [c]
  | [], _, _, _, _, hc, _ => nomatch hc
  | t :: ts, lo, hi, ⟨hlo, _, hrest⟩, hwide, hc, hspan => by
    have ht := hwide t (List.mem_cons_self ..)
    rcases List.mem_cons.mp hc with rfl | hc
    · cases ts with
      | nil => rfl
      | cons u us =>
        have hu := hrest.bounds u (List.mem_cons_self ..)
        have hpos := hwide u (List.mem_cons_of_mem _ (List.mem_cons_self ..))
        rw [hspan] at hu
        dsimp only at hu
        omega
    · have hin := hrest.bounds c hc
      rw [hspan] at hin
      dsimp only at hin
      omega

section
variable {source : List Char} {program : Tree} (hl : Layout source program) (hmarking : Marking program)
include hl

theorem Layout.part_of_span {t n : Tree} (ht : t ∈ program.nodes) (hn : n ∈ t.nodes) (hne : n ≠ t)
    (hspan : n.span = t.span) : ∃ c ∈ t.children, n ∈ c.nodes ∧ c.span = t.span := by
  rcases Tree.mem_nodes.mp hn with heq | ⟨c, hc, hnc⟩
  · exact absurd heq hne
  have hcp := Tree.nodes_trans ht (Tree.child_mem_nodes hc)
  have hin := Span.contains_iff.mp (hl.contains hcp hnc)
  have hout := Span.contains_iff.mp (hl.contains ht (Tree.child_mem_nodes hc))
  rw [hspan] at hin
  refine ⟨c, hc, hnc, ?_⟩
  obtain ⟨kind, ⟨start, stop⟩, parts⟩ := c
  obtain ⟨kind', ⟨start', stop'⟩, parts'⟩ := t
  simp only [Tree.span, Span.mk.injEq] at hin hout ⊢
  omega

include hmarking in
theorem Marking.part_ne {t c : Tree} (ht : t ∈ program.nodes) (hmark : t.kind.isMarked = true)
    (hc : c ∈ t.children) :
    c.span ≠ t.span := by
  obtain ⟨hwide, hsole⟩ := (hmarking.marked t ht).1 hmark
  intro hspan
  have hone := (hl.parts ht).sole hwide hc hspan
  exact hsole (by rw [hone]; rfl) c hc hspan

include hmarking in
theorem Marking.wider {t n : Tree} (ht : t ∈ program.nodes) (hmark : t.kind.isMarked = true) (hn : n ∈ t.nodes)
    (hspan : n.span = t.span) : n = t := by
  by_contra hne
  obtain ⟨c, hc, -, hcspan⟩ := hl.part_of_span ht hn hne hspan
  exact hmarking.part_ne hl ht hmark hc hcspan

include hmarking in
theorem Marking.name_of_wide {t : Tree} (ht : t ∈ program.nodes) (hexpression : t.kind.isExpression = true)
    (h : ∃ n ∈ t.nodes, n.isName = true ∧ n.span = t.span) : t.isName = true := by
  obtain ⟨n, hn, hname, hspan⟩ := h
  by_cases heq : n = t
  · rwa [← heq]
  cases hmark : t.kind.isMarked with
  | true => exact absurd (hmarking.wider hl ht hmark hn hspan) heq
  | false =>
    rcases Kind.unmarked_cases hexpression hmark with ⟨name, hkind⟩ | hwraps
    · rw [Tree.isName, hkind]
    -- what a wrapper holds has a mark of its own, and the name is inside of it
    obtain ⟨c, hc, hnc, hcspan⟩ := hl.part_of_span ht hn heq hspan
    have hcmark := (hmarking.marked t ht).2.1 hwraps c hc hcspan
    have hsame : n = c :=
      hmarking.wider hl (Tree.nodes_trans ht (Tree.child_mem_nodes hc)) hcmark hnc (hspan.trans hcspan.symm)
    rw [← hsame, Kind.unmarked_name hname] at hcmark
    cases hcmark

end

/-! ## Type arguments by the span of their call -/

mutual

/-- The type arguments of calls, as a walk comes across them, each with the span of its call. -/
def Tree.calledTypes : Tree → List (Span × Tree)
  | .node kind span parts => calledTypesOf (if (Tree.node kind span parts).isCall then some span else none) parts

def calledTypesOf (call : Option Span) : List Tree → List (Span × Tree)
  | [] => []
  | t :: ts =>
    let own := match call, t.kind with
      | some span, .typeArguments => [(span, t)]
      | _, _ => []
    own ++ t.calledTypes ++ calledTypesOf call ts

end

/-- The type arguments of the call the site is the callee of, looked up by the span of the call. What was
come across last counts. -/
def Site.calledTypes? (program : Tree) (site : Site) : Option Tree :=
  site.call?.bind fun call => (program.calledTypes.reverse.find? (·.1 = call.span)).map (·.2)

theorem mem_calledTypesOf {call : Option Span} {entry : Span × Tree} {ts : List Tree} :
    entry ∈ calledTypesOf call ts ↔
      (call = some entry.1 ∧ entry.2 ∈ ts ∧ entry.2.kind = .typeArguments) ∨ ∃ t ∈ ts, entry ∈ t.calledTypes := by
  induction ts with
  | nil => simp [calledTypesOf]
  | cons t ts ih =>
    have hown : (entry ∈ match call, t.kind with
        | some span, .typeArguments => [(span, t)]
        | _, _ => []) ↔ call = some entry.1 ∧ entry.2 = t ∧ t.kind = .typeArguments := by
      obtain ⟨span, a⟩ := entry
      split
      · rename_i own hkind
        simp [hkind, eq_comm]
      · rename_i hnot
        simp only [List.not_mem_nil, false_iff]
        rintro ⟨hcall, -, hkind⟩
        exact hnot _ hcall hkind
    simp only [calledTypesOf, List.mem_append, hown, ih, List.mem_cons, exists_eq_or_imp]
    constructor
    · rintro ((⟨hcall, rfl, hkind⟩ | h) | ⟨hcall, hmem, hkind⟩ | h)
      · exact Or.inl ⟨hcall, Or.inl rfl, hkind⟩
      · exact Or.inr (Or.inl h)
      · exact Or.inl ⟨hcall, Or.inr hmem, hkind⟩
      · exact Or.inr (Or.inr h)
    · rintro (⟨hcall, rfl | hmem, hkind⟩ | h | h)
      · exact Or.inl (Or.inl ⟨hcall, rfl, hkind⟩)
      · exact Or.inr (Or.inl ⟨hcall, hmem, hkind⟩)
      · exact Or.inl (Or.inr h)
      · exact Or.inr (Or.inr h)

theorem Tree.mem_calledTypes {entry : Span × Tree} {t : Tree} : entry ∈ t.calledTypes ↔
    ∃ call ∈ t.nodes, call.isCall = true ∧ call.span = entry.1 ∧ entry.2 ∈ call.children ∧
      entry.2.kind = .typeArguments := by
  induction t using Tree.induction with
  | step t ih =>
    obtain ⟨kind, span, parts⟩ := t
    simp only [calledTypes, mem_calledTypesOf, Option.ite_none_right_eq_some, Option.some.injEq]
    constructor
    · rintro (⟨⟨hcall, hspan⟩, hmem, hkind⟩ | ⟨c, hc, hentry⟩)
      · exact ⟨_, mem_nodes_self _, hcall, hspan, hmem, hkind⟩
      · obtain ⟨call, hnode, h⟩ := (ih c hc).mp hentry
        exact ⟨call, mem_nodes_of_child hc hnode, h⟩
    · rintro ⟨call, hnode, hcall, hspan, hmem, hkind⟩
      rcases mem_nodes.mp hnode with rfl | ⟨c, hc, hnode⟩
      · exact Or.inl ⟨⟨hcall, hspan⟩, hmem, hkind⟩
      · exact Or.inr ⟨c, hc, (ih c hc).mpr ⟨call, hnode, hcall, hspan, hmem, hkind⟩⟩

/-! ## The name of a site -/

/-- The node of the program that the site stands for. -/
structure Site.Names (program : Tree) (site : Site) (n : Tree) : Prop where
  path : PathTo program (n :: site.ancestors)
  span : n.span = site.span
  kind : n.kind = .identifier site.name ∨ n.kind = .name site.name

theorem Ordered.index_unique {a b : Tree} :
    ∀ {ts : List Tree} {lo hi i j : Nat}, Ordered lo hi ts → ts[i]? = some a →
    ts[j]? = some b → a.span = b.span → a.span.start < a.span.stop → i = j
  | [], _, _, _, _, _, hi, _, _, _ => by simp at hi
  | t :: ts, _, _, 0, 0, _, _, _, _, _ => rfl
  | t :: ts, _, _, 0, j + 1, h, hi, hj, hspan, hpos => by
    have := h.2.2.bounds b (List.mem_of_getElem? hj)
    rw [List.getElem?_cons_zero, Option.some.injEq] at hi
    rw [← hspan, hi] at this
    omega
  | t :: ts, _, _, i + 1, 0, h, hi, hj, hspan, hpos => by
    have := h.2.2.bounds a (List.mem_of_getElem? hi)
    rw [List.getElem?_cons_zero, Option.some.injEq] at hj
    rw [hspan] at this hpos
    rw [hj] at this
    omega
  | t :: ts, _, _, i + 1, j + 1, h, hi, hj, hspan, hpos => by
    rw [index_unique h.2.2 hi hj hspan hpos]

theorem Tree.callee?_eq_some {t callee : Tree} :
    t.callee? = some callee ↔ t.isCall = true ∧ t.children.head? = some callee := by
  unfold callee?
  split <;> simp [*]

theorem Tree.key?_eq_some {t key : Tree} :
    t.key? = some key ↔ t.isProperty = true ∧ t.children.head? = some key := by
  unfold key?
  split <;> simp [*]

section
variable {source : List Char} {program n : Tree} {site : Site} (hl : Layout source program)
  (hshape : Shape program) (hmarking : Marking program) (hn : site.Names program n)

theorem Site.In.names {site : Site} (h : site.In program) : ∃ n, site.Names program n := by
  obtain ⟨n, hkind, hspan, hpath⟩ := h
  exact ⟨n, hpath, hspan, hkind⟩

theorem Site.Names.inProgram (hn : site.Names program n) : site.In program := ⟨n, hn.kind, hn.span, hn.path⟩

include hshape hn

theorem Site.Names.leaf : n.isName = true ∧ n.children = [] ∧ n.span.start < n.span.stop := by
  have hname : n.isName = true := by
    unfold Tree.isName
    rcases hn.kind with h | h <;> rw [h]
  exact ⟨hname, hshape.name hn.path.head_mem_nodes hname⟩

include hl

theorem Site.Names.nearest {t : Tree} (ht : t ∈ program.nodes) (hpart : n ∈ t.children) :
    site.ancestors.head? = some t := by
  have hpath := hn.path
  obtain ⟨-, -, hpos⟩ := hn.leaf hshape
  cases hancestors : site.ancestors with
  | nil =>
    rw [hancestors] at hpath
    cases hpath with
    | root => exact absurd ht (Tree.not_mem_child hpart)
  | cons u rest =>
    rw [hancestors] at hpath
    cases hpath with
    | part hu h => rw [hl.parent_unique ht h.head_mem_nodes hpart hu hpos, List.head?_cons]

theorem Site.Names.eq_of_wide {t part : Tree} (ht : site.ancestors.head? = some t) (hpart : part ∈ t.children)
    (hspan : part.span = site.span) : part = n := by
  obtain ⟨rest, hancestors⟩ := List.head?_eq_some_iff.mp ht
  have hpath := hn.path
  obtain ⟨-, -, hpos⟩ := hn.leaf hshape
  rw [hancestors] at hpath
  cases hpath with
  | part hnt h =>
    rcases (hl.parts h.head_mem_nodes).eq_or_apart part hpart n hnt with heq | hapart
    · exact heq
    · rw [hspan, ← hn.span] at hapart
      unfold Span.Apart at hapart
      omega

include hmarking

theorem Site.Names.call?_eq_some {call : Tree} :
    site.call? = some call ↔ call ∈ program.nodes ∧ call.callee? = some n := by
  rw [Tree.callee?_eq_some]
  constructor
  · intro h
    obtain ⟨hcall, callee, rest, hparts, hspan⟩ := Site.call?_callee h
    have hfirst : call.children.head? = some callee := by rw [hparts]; rfl
    have hmem := hn.inProgram.ancestor_mem (Site.call?_mem h)
    have hcallee := Tree.nodes_trans hmem (Tree.child_mem_nodes (List.mem_of_head? hfirst))
    have hwide := hl.contains hcallee callee.stripParens_mem
    rw [hspan] at hwide
    have hexpression := (hmarking.marked call hmem).2.2.1 (Or.inl hcall) callee hfirst
    obtain ⟨hnearest, -, hsame⟩ := Site.first_of_parent hl hshape hn.inProgram (Site.call?_parent h) hfirst
      (hmarking.name_of_wide hl hcallee hexpression) hwide
    rw [← hn.eq_of_wide hl hshape hnearest (List.mem_of_head? hfirst) hsame]
    exact ⟨hmem, hcall, hfirst⟩
  · rintro ⟨hmem, hcall, hfirst⟩
    have hpart := List.mem_of_head? hfirst
    obtain ⟨rest, hancestors⟩ := List.head?_eq_some_iff.mp (hn.nearest hl hshape hmem hpart)
    obtain ⟨o, hkind⟩ := Tree.isCall_iff.mp hcall
    have hwider : call.span ≠ site.span := by
      rw [← hn.span]
      exact fun heq => hmarking.part_ne hl hmem (by rw [hkind]; rfl) hpart heq.symm
    have hparent : site.parent? = some call := by
      rw [Site.parent?, hancestors, List.find?_cons_of_pos (by simp [hwider])]
    obtain ⟨hname, -⟩ := hn.leaf hshape
    have hparens : n.stripParens = n := by
      apply Tree.stripParens_of_kind
      intro hk
      rw [Tree.isName, hk] at hname
      cases hname
    simp [Site.call?, hparent, Tree.callee?, hcall, hfirst, hparens, hn.span]

theorem Site.Names.keyProperty?_eq_some {property : Tree} :
    site.keyProperty? = some property ↔ property ∈ program.nodes ∧ property.key? = some n := by
  rw [Tree.key?_eq_some]
  constructor
  · intro h
    obtain ⟨hprop, key, rest, hparts, hspan⟩ := Site.keyProperty?_key h
    have hfirst : property.children.head? = some key := by rw [hparts]; rfl
    have hmem := hn.inProgram.ancestor_mem (Site.keyProperty?_mem h)
    have hkey := Tree.nodes_trans hmem (Tree.child_mem_nodes (List.mem_of_head? hfirst))
    obtain ⟨access, computed, shorthand, isMethod, hkind⟩ := Tree.isProperty_iff.mp hprop
    have hnames : (∃ m ∈ key.nodes, m.isName = true ∧ m.span = key.span) → key.isName = true := by
      cases computed with
      | true =>
        have hcomputed : property.hasComputedKey = true := by rw [Tree.hasComputedKey, hkind]
        exact hmarking.name_of_wide hl hkey ((hmarking.marked property hmem).2.2.1 (Or.inr hcomputed) key hfirst)
      | false =>
        -- a key that is written out has no parts
        have hplain : property.hasPlainKey = true := by rw [Tree.hasPlainKey, hkind]; rfl
        rintro ⟨m, hm, hname, -⟩
        rcases Tree.mem_nodes.mp hm with rfl | ⟨c, hc, -⟩
        · exact hname
        · rw [hshape.plainKey hmem hplain hfirst] at hc
          cases hc
    obtain ⟨hnearest, -, hsame⟩ :=
      Site.first_of_parent hl hshape hn.inProgram (Site.keyProperty?_parent h) hfirst hnames
      (by rw [hspan]; exact Span.contains_self _)
    rw [← hn.eq_of_wide hl hshape hnearest (List.mem_of_head? hfirst) hsame]
    exact ⟨hmem, hprop, hfirst⟩
  · rintro ⟨hmem, hprop, hfirst⟩
    obtain ⟨rest, hancestors⟩ := List.head?_eq_some_iff.mp (hn.nearest hl hshape hmem (List.mem_of_head? hfirst))
    have hparent : site.parent? = some property := by
      rw [Site.parent?, hancestors, List.find?_cons_of_pos (by simp [hprop])]
    simp [Site.keyProperty?, hparent, Tree.key?, hprop, hfirst, hn.span]

omit hn hshape in
theorem Marking.call_unique {a b : Tree} (ha : a ∈ program.nodes) (hb : b ∈ program.nodes)
    (hcall : a.isCall = true)
    (hcall' : b.isCall = true) (hspan : a.span = b.span) (hpos : a.span.start < a.span.stop) : a = b := by
  have hmark : ∀ {t : Tree}, t.isCall = true → t.kind.isMarked = true := by
    intro t ht
    obtain ⟨o, hkind⟩ := Tree.isCall_iff.mp ht
    rw [hkind]
    rfl
  have hmeet : ¬ a.span.Apart b.span := by
    rw [← hspan]
    unfold Span.Apart
    omega
  rcases hl.nested ha hb hmeet with hab | hba
  · exact hmarking.wider hl hb (hmark hcall') hab hspan
  · exact (hmarking.wider hl ha (hmark hcall) hba hspan.symm).symm

omit hn hshape hl in
theorem Marking.typeArguments?_eq_some {call a : Tree} (ht : call ∈ program.nodes)
    (hcallee : call.callee? = some n)
    (hname : n.isName = true) : call.typeArguments? = some a ↔ a ∈ call.children ∧ a.kind = .typeArguments := by
  obtain ⟨hcall, hfirst⟩ := Tree.callee?_eq_some.mp hcallee
  obtain ⟨rest, hparts⟩ := List.head?_eq_some_iff.mp hfirst
  have hone := (hmarking.marked call ht).2.2.2 hcall
  have htail : call.typeArguments? = rest.find? (·.kind = .typeArguments) := by
    rw [Tree.typeArguments?, hparts, List.tail_cons]
  rw [hparts] at hone ⊢
  rw [htail]
  constructor
  · intro h
    exact ⟨List.mem_cons_of_mem _ (List.mem_of_find?_eq_some h), by simpa using List.find?_some h⟩
  · rintro ⟨hmem, hkind⟩
    have hmem' : a ∈ rest := by
      rcases List.mem_cons.mp hmem with rfl | hmem
      · rw [Tree.isName, hkind] at hname
        cases hname
      · exact hmem
    cases hfind : rest.find? (·.kind = .typeArguments) with
    | none => exact absurd (decide_eq_true hkind) (List.find?_eq_none.mp hfind a hmem')
    | some b =>
      have hb := List.mem_of_find?_eq_some hfind
      have hbkind : b.kind = .typeArguments := by simpa using List.find?_some hfind
      rw [hone a hmem b (List.mem_cons_of_mem _ hb) hkind hbkind]

theorem Site.Names.calledTypes?_eq : site.calledTypes? program = site.typeArguments? := by
  rw [Site.calledTypes?, Site.typeArguments?]
  cases hcall : site.call? with
  | none => rfl
  | some call =>
    obtain ⟨hmem, hcallee⟩ := (hn.call?_eq_some hl hshape hmarking).mp hcall
    obtain ⟨hname, -, hpos⟩ := hn.leaf hshape
    have hown (a : Tree) : call.typeArguments? = some a ↔ a ∈ call.children ∧ a.kind = .typeArguments :=
      hmarking.typeArguments?_eq_some hmem hcallee hname
    obtain ⟨hiscall, hfirst⟩ := Tree.callee?_eq_some.mp hcallee
    have hwide := Span.contains_iff.mp (hl.contains hmem (Tree.child_mem_nodes (List.mem_of_head? hfirst)))
    -- every entry for this span is made by this very call
    have hentry : ∀ entry ∈ program.calledTypes, entry.1 = call.span → call.typeArguments? = some entry.2 := by
      intro entry hentry hspan
      obtain ⟨other, hother, hother', hspan', hpart, hkind⟩ := Tree.mem_calledTypes.mp hentry
      rw [hmarking.call_unique hl hother hmem hother' hiscall (hspan'.trans hspan) (by
        rw [hspan', hspan]; omega)] at hpart
      exact (hown _).mpr ⟨hpart, hkind⟩
    rw [Option.bind_some, Option.bind_some]
    cases hfind : program.calledTypes.reverse.find? (·.1 = call.span) with
    | some entry =>
      have hspan : entry.1 = call.span := by simpa using List.find?_some hfind
      exact (hentry entry (List.mem_reverse.mp (List.mem_of_find?_eq_some hfind)) hspan).symm
    | none =>
      cases htypes : call.typeArguments? with
      | none => rfl
      | some a =>
        obtain ⟨hpart, hkind⟩ := (hown a).mp htypes
        have hin : (call.span, a) ∈ program.calledTypes :=
          Tree.mem_calledTypes.mpr ⟨call, hmem, hiscall, rfl, hpart, hkind⟩
        exact absurd (decide_eq_true rfl) (List.find?_eq_none.mp hfind _ (List.mem_reverse.mpr hin))

omit hmarking in
theorem Site.Names.owner {property : Tree} (ht : property ∈ program.nodes) (hkey : property.key? = some n) :
    ∃ object ∈ program.nodes, ∃ index, site.owner? property = some object ∧ object.isObject = true ∧
      (∀ t ∈ program.nodes, property ∈ t.children ↔ t = object) ∧
      object.children[index]? = some property ∧ object.children.findIdx? (·.span = property.span) = some index ∧
      ∀ j m, object.children[j]? = some m → m.span = property.span → j = index := by
  obtain ⟨hprop, hfirst⟩ := Tree.key?_eq_some.mp hkey
  have hpart := List.mem_of_head? hfirst
  obtain ⟨-, -, hpos⟩ := hn.leaf hshape
  have hwide := Span.contains_iff.mp (hl.contains ht (Tree.child_mem_nodes hpart))
  have hpos' : property.span.start < property.span.stop := by omega
  obtain ⟨object, rest, hancestors, hobject, hmember, howner⟩ :=
    Site.owner_of_nearest hl hshape hn.inProgram hprop (hn.nearest hl hshape ht hpart)
  have hmem : object ∈ program.nodes := hn.inProgram.ancestor_mem (by rw [hancestors]; simp)
  obtain ⟨index, hindex⟩ := List.mem_iff_getElem?.mp hmember
  have hunique : ∀ j m, object.children[j]? = some m → m.span = property.span → j = index := by
    intro j m hj hspan
    exact Ordered.index_unique (hl.parts hmem) hj hindex hspan (by rw [hspan]; exact hpos')
  refine ⟨object, hmem, index, howner, hobject, ?_, hindex, ?_, hunique⟩
  · intro t htp
    constructor
    · exact fun h => hl.parent_unique htp hmem h hmember hpos'
    · rintro rfl
      exact hmember
  · obtain ⟨i, hfind⟩ : ∃ i, object.children.findIdx? (·.span = property.span) = some i := by
      rw [← Option.isSome_iff_exists, List.findIdx?_isSome, List.any_eq_true]
      exact ⟨property, hmember, decide_eq_true rfl⟩
    obtain ⟨hlt, hspan, -⟩ := List.findIdx?_eq_some_iff_getElem.mp hfind
    rw [hfind, hunique i _ (List.getElem?_eq_getElem hlt) (by simpa using hspan)]

end

/-! ## What a site finds -/

/-- What the lookups of a site find if the site is the name `n`. -/
structure Site.Finds (program : Tree) (site : Site) (n : Tree) : Prop where
  call : ∀ call, site.call? = some call ↔ call ∈ program.nodes ∧ call.callee? = some n
  types : ∀ a, site.typeArguments? = some a ↔
    ∃ call ∈ program.nodes, call.callee? = some n ∧ a ∈ call.children ∧ a.kind = .typeArguments
  table : site.calledTypes? program = site.typeArguments?
  key : ∀ property, site.keyProperty? = some property ↔ property ∈ program.nodes ∧ property.key? = some n
  owner : ∀ property, site.keyProperty? = some property → ∃ object ∈ program.nodes, ∃ index,
    site.owner? property = some object ∧ object.isObject = true ∧
    (∀ t ∈ program.nodes, property ∈ t.children ↔ t = object) ∧ object.children[index]? = some property ∧
    (∀ j m, object.children[j]? = some m → m.span = property.span → j = index) ∧
    keyedMember site = .ok ⟨object, index, property⟩

theorem Site.Names.finds {source : List Char} {program n : Tree} {site : Site} (hl : Layout source program)
    (hshape : Shape program) (hmarking : Marking program) (hn : site.Names program n) : site.Finds program n := by
  have hcall (call : Tree) : site.call? = some call ↔ call ∈ program.nodes ∧ call.callee? = some n :=
    hn.call?_eq_some hl hshape hmarking
  have hkey (property : Tree) : site.keyProperty? = some property ↔ property ∈ program.nodes ∧
      property.key? = some n :=
    hn.keyProperty?_eq_some hl hshape hmarking
  refine ⟨hcall, fun a => ?_, hn.calledTypes?_eq hl hshape hmarking, hkey, ?_⟩
  · obtain ⟨hname, -⟩ := hn.leaf hshape
    rw [Site.typeArguments?, Option.bind_eq_some_iff]
    constructor
    · rintro ⟨call, h, htypes⟩
      obtain ⟨hmem, hcallee⟩ := (hcall call).mp h
      exact ⟨call, hmem, hcallee, (hmarking.typeArguments?_eq_some hmem hcallee hname).mp htypes⟩
    · rintro ⟨call, hmem, hcallee, htypes⟩
      exact ⟨call, (hcall call).mpr ⟨hmem, hcallee⟩,
        (hmarking.typeArguments?_eq_some hmem hcallee hname).mpr htypes⟩
  · intro property h
    obtain ⟨hmem, hkeyed⟩ := (hkey property).mp h
    obtain ⟨object, hobject, index, howner, hkind, hparent, hindex, hfind, hunique⟩ :=
      hn.owner hl hshape hmem hkeyed
    refine ⟨object, hobject, index, howner, hkind, hparent, hindex, hunique, ?_⟩
    simp [keyedMember, h, howner, hfind]

/-- What a collected site finds by comparing spans is what it stands in: the call that applies to the name
of the site itself, whose own type arguments are the ones that are looked up, and the property with this
name as its key, at its only place in the literal that it is written in. Where there is no such node,
nothing is found. -/
theorem lookups_find_nodes {options : Options} {source : List Char} {program : Tree} {collected : Collected}
    (hlayout : Layout source program) (hshape : Shape program) (hmarking : Marking program)
    (hcollect : collect? options program = some collected) :
    ∀ site ∈ collected.usages.pending,
      (∃ n, site.Names program n) ∧ ∀ n, site.Names program n → site.Finds program n := by
  intro site hsite
  exact ⟨(collect?_sites hcollect site hsite).names, fun n hn => hn.finds hlayout hshape hmarking⟩

def lookupSample : String :=
  "import \x7b type as t, EVENTS as E \x7d from 'm.macro';\nt<a>(); (t)(); t?.(); x = \x7b E, [E]: t(t), E: 1 \x7d"

def Site.found (site : Site) : Bool × Bool × Bool :=
  (site.call?.isSome, site.typeArguments?.isSome, site.keyProperty?.isSome)

theorem lookups_find_nodes_sample : ∃ program collected,
    parse (Options.dialect {}) lookupSample.toList = some program ∧ collect? {} program = some collected ∧
    collected.usages.pending.map Site.found = [(true, true, false), (false, false, false), (true, false, false),
      (false, false, true), (false, false, true), (true, false, false), (false, false, false),
        (false, false, true)] ∧
    ∀ site ∈ collected.usages.pending,
      (∃ n, site.Names program n) ∧ ∀ n, site.Names program n → site.Finds program n := by
  have hsample : (parse (Options.dialect {}) lookupSample.toList).any (fun program =>
      decide (Layout lookupSample.toList program) && decide (Shape program) && decide (Marking program) &&
        (collect? {} program).any fun collected =>
          decide (collected.usages.pending.map Site.found = [(true, true, false), (false, false, false),
            (true, false, false), (false, false, true), (false, false, true), (true, false, false),
            (false, false, false), (false, false, true)])) = true := by decide +kernel
  simp only [Option.any_eq_true, Bool.and_eq_true, decide_eq_true_eq] at hsample
  obtain ⟨program, hparse, ⟨⟨hlayout, hshape⟩, hmarking⟩, collected, hcollect, hfound⟩ := hsample
  exact ⟨program, collected, hparse, hcollect, hfound, lookups_find_nodes hlayout hshape hmarking hcollect⟩

end ComponentMacros
