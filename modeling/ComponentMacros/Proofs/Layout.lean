import ComponentMacros.Proofs.Boundary

/-!
# The layout of a tree

What a parser promises about the spans of the nodes it makes: they cut no
character, the parts of a node lie inside it one after the other, and literals
are written between their brackets. Two nodes of such a tree are nested or
apart.
-/

namespace ComponentMacros

/-! ## Spans -/

namespace Span

def Apart (a b : Span) : Prop :=
  a.stop ≤ b.start ∨ b.stop ≤ a.start

def Laminar (a b : Span) : Prop :=
  a.Apart b ∨ a.contains b = true ∨ b.contains a = true

instance (a b : Span) : Decidable (a.Apart b) := inferInstanceAs (Decidable (_ ∨ _))

instance (a b : Span) : Decidable (a.Laminar b) := inferInstanceAs (Decidable (_ ∨ _ ∨ _))

theorem contains_iff {a b : Span} : a.contains b = true ↔ a.start ≤ b.start ∧ b.stop ≤ a.stop := by
  simp [contains]

theorem contains_self (a : Span) : a.contains a = true :=
  contains_iff.mpr ⟨Nat.le_refl _, Nat.le_refl _⟩

theorem contains_trans {a b c : Span} (h : a.contains b = true) (h' : b.contains c = true) :
    a.contains c = true := by
  rw [contains_iff] at *; omega

theorem Apart.symm {a b : Span} (h : a.Apart b) : b.Apart a := Or.symm h

theorem Laminar.symm {a b : Span} (h : a.Laminar b) : b.Laminar a := by
  rcases h with h | h | h
  · exact Or.inl h.symm
  · exact Or.inr (Or.inr h)
  · exact Or.inr (Or.inl h)

theorem Apart.mono {a b a' b' : Span} (h : a.Apart b) (ha : a.contains a' = true) (hb : b.contains b' = true)
    : a'.Apart b' := by
  unfold Apart at *
  rw [contains_iff] at ha hb; omega

end Span

/-! ## Nodes -/

mutual

def Tree.nodes : Tree → List Tree
  | .node k s cs => .node k s cs :: nodesOf cs

def nodesOf : List Tree → List Tree
  | [] => []
  | t :: ts => t.nodes ++ nodesOf ts

end

theorem mem_nodesOf {n : Tree} {ts : List Tree} : n ∈ nodesOf ts ↔ ∃ t ∈ ts, n ∈ t.nodes := by
  induction ts with
  | nil => simp [nodesOf]
  | cons t ts ih => simp [nodesOf, ih]

namespace Tree

theorem mem_nodes {n t : Tree} : n ∈ t.nodes ↔ n = t ∨ ∃ c ∈ t.children, n ∈ c.nodes := by
  cases t with
  | node k s cs => rw [nodes, List.mem_cons, mem_nodesOf]; rfl

theorem mem_nodes_self (t : Tree) : t ∈ t.nodes := mem_nodes.mpr (Or.inl rfl)

theorem mem_nodes_of_child {n c t : Tree} (hc : c ∈ t.children) (hn : n ∈ c.nodes) : n ∈ t.nodes :=
  mem_nodes.mpr (Or.inr ⟨c, hc, hn⟩)

theorem child_mem_nodes {c t : Tree} (hc : c ∈ t.children) : c ∈ t.nodes :=
  mem_nodes_of_child hc (mem_nodes_self c)

theorem sizeOf_child {c t : Tree} (hc : c ∈ t.children) : sizeOf c < sizeOf t := by
  cases t with
  | node k s cs =>
    have : sizeOf c < sizeOf cs := List.sizeOf_lt_of_mem hc
    simp only [node.sizeOf_spec]; omega

theorem induction {P : Tree → Prop} (step : ∀ t : Tree, (∀ c ∈ t.children, P c) → P t) (t : Tree) : P t :=
  step t fun c _ => induction step c
termination_by sizeOf t
decreasing_by exact sizeOf_child ‹_›

theorem nodes_trans {n m t : Tree} (hm : m ∈ t.nodes) (hn : n ∈ m.nodes) : n ∈ t.nodes := by
  induction t using Tree.induction with
  | step t ih =>
    rcases mem_nodes.mp hm with rfl | ⟨c, hc, hmc⟩
    · exact hn
    · exact mem_nodes_of_child hc (ih c hc hmc)

theorem sizeOf_le_of_mem {n t : Tree} (h : n ∈ t.nodes) : sizeOf n ≤ sizeOf t := by
  induction t using Tree.induction with
  | step t ih =>
    rcases mem_nodes.mp h with rfl | ⟨c, hc, hn⟩
    · exact Nat.le_refl _
    · exact Nat.le_of_lt (Nat.lt_of_le_of_lt (ih c hc hn) (sizeOf_child hc))

theorem eq_of_mem_of_mem {a b : Tree} (ha : a ∈ b.nodes) (hb : b ∈ a.nodes) : a = b := by
  rcases mem_nodes.mp ha with h | ⟨c, hc, hac⟩
  · exact h
  · have := sizeOf_le_of_mem hac
    have := sizeOf_child hc
    have := sizeOf_le_of_mem hb
    omega

theorem eq_or_child_of_mem {n t : Tree} (h : n ∈ t.nodes) : n = t ∨ ∃ u ∈ t.nodes, n ∈ u.children := by
  induction t using Tree.induction with
  | step t ih =>
    rcases mem_nodes.mp h with rfl | ⟨c, hc, hnc⟩
    · exact Or.inl rfl
    · rcases ih c hc hnc with rfl | ⟨u, hu, hn⟩
      · exact Or.inr ⟨t, mem_nodes_self t, hc⟩
      · exact Or.inr ⟨u, mem_nodes_of_child hc hu, hn⟩

theorem not_mem_child {c t : Tree} (hc : c ∈ t.children) : t ∉ c.nodes := by
  intro h
  have := sizeOf_le_of_mem h
  have := sizeOf_child hc
  omega

/-! ## Parentheses -/

theorem stripParens_of_kind {t : Tree} (h : t.kind ≠ .parenthesized) : t.stripParens = t := by
  unfold stripParens
  split
  · exact absurd rfl h
  · rfl

theorem stripParens_mem (t : Tree) : t.stripParens ∈ t.nodes := by
  fun_induction stripParens t with
  | case1 s inner ih => exact mem_nodes_of_child (List.mem_singleton_self inner) ih
  | case2 t _ => exact mem_nodes_self t

theorem mem_stripParens {n t : Tree} (hn : n ∈ t.nodes) :
    n ∈ t.stripParens.nodes ∨ n.kind = .parenthesized ∧ n.stripParens = t.stripParens := by
  fun_induction stripParens t with
  | case1 s inner ih =>
    rcases mem_nodes.mp hn with rfl | ⟨c, hc, hnc⟩
    · exact Or.inr ⟨rfl, by rw [stripParens]⟩
    · obtain rfl := List.mem_singleton.mp hc
      exact ih hnc
  | case2 t _ => exact Or.inl hn

theorem mem_stripParens_of_kind {n t : Tree} (hn : n ∈ t.nodes) (hk : n.kind ≠ .parenthesized) :
    n ∈ t.stripParens.nodes :=
  (mem_stripParens hn).resolve_right fun h => hk h.1

end Tree

/-! ## Equality -/

mutual

def Tree.decEq : (t u : Tree) → Decidable (t = u)
  | .node kind span children, .node kind' span' children' =>
    if h : kind = kind' ∧ span = span' then
      match decEqAll children children' with
      | isTrue hchildren => isTrue (by rw [h.1, h.2, hchildren])
      | isFalse hchildren => isFalse fun heq => hchildren (Tree.node.inj heq).2.2
    else isFalse fun heq => h ⟨(Tree.node.inj heq).1, (Tree.node.inj heq).2.1⟩

def decEqAll : (ts us : List Tree) → Decidable (ts = us)
  | [], [] => isTrue rfl
  | [], _ :: _ => isFalse nofun
  | _ :: _, [] => isFalse nofun
  | t :: ts, u :: us =>
    match t.decEq u, decEqAll ts us with
    | isTrue h, isTrue hs => isTrue (by rw [h, hs])
    | isFalse h, _ => isFalse fun heq => h (List.cons.inj heq).1
    | _, isFalse hs => isFalse fun heq => hs (List.cons.inj heq).2

end

instance : DecidableEq Tree := Tree.decEq

/-! ## Layout -/

def Ordered : Nat → Nat → List Tree → Prop
  | lo, hi, [] => lo ≤ hi
  | lo, hi, t :: ts => lo ≤ t.span.start ∧ t.span.start ≤ t.span.stop ∧ Ordered t.span.stop hi ts

instance decidableOrdered : ∀ (lo hi : Nat) (ts : List Tree), Decidable (Ordered lo hi ts)
  | _, _, [] => inferInstanceAs (Decidable (_ ≤ _))
  | _, hi, t :: ts =>
    have := decidableOrdered t.span.stop hi ts
    inferInstanceAs (Decidable (_ ∧ _ ∧ _))

namespace Ordered

theorem le : ∀ {ts : List Tree} {lo hi : Nat}, Ordered lo hi ts → lo ≤ hi
  | [], _, _, h => h
  | _ :: _, _, _, ⟨h₁, h₂, h₃⟩ => by have := le h₃; omega

theorem bounds : ∀ {ts : List Tree} {lo hi : Nat}, Ordered lo hi ts →
    ∀ t ∈ ts, lo ≤ t.span.start ∧ t.span.start ≤ t.span.stop ∧ t.span.stop ≤ hi
  | [], _, _, _ => by simp
  | u :: ts, _, _, ⟨h₁, h₂, h₃⟩ => by
    intro t ht
    rcases List.mem_cons.mp ht with rfl | ht
    · exact ⟨h₁, h₂, le h₃⟩
    · have := bounds h₃ t ht
      omega

theorem eq_or_apart : ∀ {ts : List Tree} {lo hi : Nat}, Ordered lo hi ts →
    ∀ a ∈ ts, ∀ b ∈ ts, a = b ∨ a.span.Apart b.span
  | [], _, _, _ => by simp
  | u :: ts, _, _, ⟨_, _, h₃⟩ => by
    intro a ha b hb
    rcases List.mem_cons.mp ha with hau | hat <;> rcases List.mem_cons.mp hb with hbu | hbt
    · exact Or.inl (hau.trans hbu.symm)
    · exact Or.inr (Or.inl (hau ▸ (bounds h₃ b hbt).1))
    · exact Or.inr (Or.inr (hbu ▸ (bounds h₃ a hat).1))
    · exact eq_or_apart h₃ a hat b hbt

theorem le_getLast : ∀ {ts : List Tree} {lo hi : Nat} {last : Tree}, Ordered lo hi ts → ts.getLast? = some last →
    ∀ t ∈ ts, t.span.stop ≤ last.span.stop
  | [], _, _, _, _, _ => by simp
  | [t], _, _, _, _, hlast => by
    intro u hu
    rw [List.getLast?_singleton, Option.some.injEq] at hlast
    obtain rfl := List.mem_singleton.mp hu
    exact Nat.le_of_eq (congrArg (·.span.stop) hlast)
  | t :: u :: ts, _, _, last, ⟨_, _, h₃⟩, hlast => by
    rw [List.getLast?_cons_cons] at hlast
    have hrest := le_getLast h₃ hlast
    intro v hv
    rcases List.mem_cons.mp hv with rfl | hv
    · have := h₃.bounds u (List.mem_cons_self ..)
      have := hrest u (List.mem_cons_self ..)
      omega
    · exact hrest v hv

end Ordered

namespace Tree

def Enclosed (source : List Char) (opening closing : Char) (t : Tree) : Prop :=
  charAt source t.span.start = some opening ∧ charAt source (t.span.stop - 1) = some closing ∧
    Ordered (t.span.start + 1) (t.span.stop - 1) t.children

instance (source : List Char) (opening closing : Char) (t : Tree) :
    Decidable (t.Enclosed source opening closing) :=
  inferInstanceAs (Decidable (_ ∧ _ ∧ _))

theorem Enclosed.bounds {source : List Char} {opening closing : Char} {t : Tree}
    (h : t.Enclosed source opening closing) :
    t.span.start + 2 ≤ t.span.stop ∧
      ∀ c ∈ t.children, t.span.start < c.span.start ∧ c.span.start ≤ c.span.stop ∧ c.span.stop < t.span.stop := by
  have hle := h.2.2.le
  refine ⟨by omega, ?_⟩
  intro c hc
  have := h.2.2.bounds c hc
  omega

/-- What the kind of a node says about the characters it is written with. -/
def Written (source : List Char) (t : Tree) : Prop :=
  (t.kind = .object → t.Enclosed source '\x7b' '\x7d') ∧
  (t.kind = .array → t.Enclosed source '[' ']') ∧
  -- a single parameter may do without parentheses
  (t.kind = .parameters → t.Enclosed source '(' ')' ∨
    t.children.map (fun c => (c.kind, c.span)) = [(.parameter, t.span)]) ∧
  (t.kind = .program → t.span = ⟨0, byteLength source⟩ ∧
    ∀ c ∈ t.children, charAt source c.span.start ∉ [some '\r', some '\n'])

instance (source : List Char) (t : Tree) : Decidable (t.Written source) :=
  inferInstanceAs (Decidable (_ ∧ _ ∧ _ ∧ _))

def Laid (source : List Char) (t : Tree) : Prop :=
  t.span.Fits source ∧ Ordered t.span.start t.span.stop t.children ∧ t.Written source

instance (source : List Char) (t : Tree) : Decidable (t.Laid source) :=
  inferInstanceAs (Decidable (_ ∧ _ ∧ _))

end Tree

/-- A program laid out over a source: every node of it has its place. -/
structure Layout (source : List Char) (program : Tree) : Prop where
  root : program.kind = .program
  laid : ∀ t ∈ program.nodes, t.Laid source

instance (source : List Char) (program : Tree) : Decidable (Layout source program) :=
  decidable_of_iff (program.kind = .program ∧ ∀ t ∈ program.nodes, t.Laid source)
    ⟨fun h => ⟨h.1, h.2⟩, fun h => ⟨h.root, h.laid⟩⟩

namespace Layout

variable {source : List Char} {program : Tree}

theorem fits (h : Layout source program) {t : Tree} (ht : t ∈ program.nodes) : t.span.Fits source :=
  (h.laid t ht).1

theorem parts (h : Layout source program) {t : Tree} (ht : t ∈ program.nodes) :
    Ordered t.span.start t.span.stop t.children := (h.laid t ht).2.1

theorem written (h : Layout source program) {t : Tree} (ht : t ∈ program.nodes) : t.Written source :=
  (h.laid t ht).2.2

theorem ordered (h : Layout source program) {t : Tree} (ht : t ∈ program.nodes) :
    t.span.start ≤ t.span.stop := (h.fits ht).1

theorem object (h : Layout source program) {t : Tree} (ht : t ∈ program.nodes) (ho : t.kind = .object) :
    t.Enclosed source '\x7b' '\x7d' := (h.written ht).1 ho

theorem array (h : Layout source program) {t : Tree} (ht : t ∈ program.nodes) (ha : t.kind = .array) :
    t.Enclosed source '[' ']' := (h.written ht).2.1 ha

theorem parameters (h : Layout source program) {t : Tree} (ht : t ∈ program.nodes)
    (hp : t.kind = .parameters) : t.Enclosed source '(' ')' ∨
      t.children.map (fun c => (c.kind, c.span)) = [(.parameter, t.span)] := (h.written ht).2.2.1 hp

theorem statements (h : Layout source program) {t : Tree} (ht : t ∈ program.nodes) (hp : t.kind = .program) :
    t.span = ⟨0, byteLength source⟩ ∧ ∀ c ∈ t.children, charAt source c.span.start ∉ [some '\r', some '\n'] :=
  (h.written ht).2.2.2 hp

theorem contains (h : Layout source program) {t n : Tree} (ht : t ∈ program.nodes) (hn : n ∈ t.nodes) :
    t.span.contains n.span = true := by
  induction t using Tree.induction with
  | step t ih =>
    rcases Tree.mem_nodes.mp hn with rfl | ⟨c, hc, hnc⟩
    · exact Span.contains_self _
    · have hin := (h.parts ht).bounds c hc
      refine Span.contains_trans (Span.contains_iff.mpr ⟨hin.1, hin.2.2⟩) ?_
      exact ih c hc (Tree.nodes_trans ht (Tree.child_mem_nodes hc)) hnc

/-- Two nodes of one tree are nested or apart. -/
theorem nested_or_apart (h : Layout source program) {a b : Tree} (ha : a ∈ program.nodes)
    (hb : b ∈ program.nodes) : a ∈ b.nodes ∨ b ∈ a.nodes ∨ a.span.Apart b.span := by
  -- the tree both are in shrinks until they part ways or one is its root
  suffices ∀ t ∈ program.nodes, a ∈ t.nodes → b ∈ t.nodes → a ∈ b.nodes ∨ b ∈ a.nodes ∨ a.span.Apart b.span from
    this program (Tree.mem_nodes_self program) ha hb
  intro t
  induction t using Tree.induction with
  | step t ih =>
    intro ht hat hbt
    rcases Tree.mem_nodes.mp hat with rfl | ⟨c, hc, hac⟩
    · exact Or.inr (Or.inl hbt)
    rcases Tree.mem_nodes.mp hbt with rfl | ⟨d, hd, hbd⟩
    · exact Or.inl hat
    have hct := Tree.nodes_trans ht (Tree.child_mem_nodes hc)
    have hdt := Tree.nodes_trans ht (Tree.child_mem_nodes hd)
    rcases (h.parts ht).eq_or_apart c hc d hd with rfl | hcd
    · exact ih c hc hct hac hbd
    · exact Or.inr (Or.inr (hcd.mono (h.contains hct hac) (h.contains hdt hbd)))

theorem nested (h : Layout source program) {a b : Tree} (ha : a ∈ program.nodes) (hb : b ∈ program.nodes)
    (hab : ¬ a.span.Apart b.span) : a ∈ b.nodes ∨ b ∈ a.nodes := by
  rcases h.nested_or_apart ha hb with hin | hin | hap
  · exact Or.inl hin
  · exact Or.inr hin
  · exact absurd hap hab

theorem parent_unique (h : Layout source program) {a b v : Tree} (ha : a ∈ program.nodes) (hb : b ∈ program.nodes)
    (hva : v ∈ a.children) (hvb : v ∈ b.children) (hpos : v.span.start < v.span.stop) : a = b := by
  -- a node above `v` and another parent of it would be below `v` as well
  have below : ∀ {a b : Tree}, b ∈ program.nodes → v ∈ a.children → v ∈ b.children → a ∈ b.nodes → a = b := by
    intro a b hb hva hvb hab
    rcases Tree.mem_nodes.mp hab with heq | ⟨c, hc, hac⟩
    · exact heq
    · have hin := Span.contains_iff.mp (h.contains (Tree.nodes_trans hb (Tree.child_mem_nodes hc))
        (Tree.nodes_trans hac (Tree.child_mem_nodes hva)))
      rcases (h.parts hb).eq_or_apart c hc v hvb with rfl | hap
      · exact absurd hac (Tree.not_mem_child hva)
      · unfold Span.Apart at hap; omega
  have hva' := (h.parts ha).bounds v hva
  have hvb' := (h.parts hb).bounds v hvb
  have hmeet : ¬ a.span.Apart b.span := by unfold Span.Apart; omega
  rcases h.nested ha hb hmeet with hab | hba
  · exact below hb hva hvb hab
  · exact (below ha hvb hva hba).symm

end Layout

/-! ## Shape -/

namespace Tree

def isName (t : Tree) : Bool :=
  match t.kind with
  | .identifier _ | .name _ => true
  | _ => false

def isPair (t : Tree) : Bool :=
  match t.kind with
  | .property _ _ shorthand _ => !shorthand
  | _ => false

def hasPlainKey (t : Tree) : Bool :=
  match t.kind with
  | .property _ computed _ _ => !computed
  | _ => false

def Formed (t : Tree) : Prop :=
  (t.isName = true → t.children.isEmpty = true ∧ t.span.start < t.span.stop) ∧
  (t.isPair = true → t.children.length = 2) ∧
  (t.hasPlainKey = true → ∀ key ∈ t.children.head?, key.children.isEmpty = true) ∧
  -- properties are the members of object literals and nothing else
  ∀ c ∈ t.children, c.isProperty = true → t.kind = .object

instance (t : Tree) : Decidable t.Formed :=
  inferInstanceAs (Decidable (_ ∧ _ ∧ _ ∧ _))

end Tree

/-- What a parser promises about the parts of the nodes it makes. -/
structure Shape (program : Tree) : Prop where
  formed : ∀ t ∈ program.nodes, t.Formed

instance (program : Tree) : Decidable (Shape program) :=
  decidable_of_iff (∀ t ∈ program.nodes, t.Formed) ⟨fun h => ⟨h⟩, fun h => h.formed⟩

namespace Shape

variable {program t : Tree}

theorem name (h : Shape program) (ht : t ∈ program.nodes) (hn : t.isName = true) :
    t.children = [] ∧ t.span.start < t.span.stop := by
  obtain ⟨hleaf, hpos⟩ := (h.formed t ht).1 hn
  exact ⟨List.isEmpty_iff.mp hleaf, hpos⟩

theorem pair (h : Shape program) (ht : t ∈ program.nodes) (hp : t.isPair = true) :
    ∃ key value, t.children = [key, value] :=
  match t.children, (h.formed t ht).2.1 hp with
  | [key, value], _ => ⟨key, value, rfl⟩

theorem plainKey (h : Shape program) (ht : t ∈ program.nodes) (hp : t.hasPlainKey = true) {key : Tree}
    (hk : t.children.head? = some key) : key.children = [] :=
  List.isEmpty_iff.mp ((h.formed t ht).2.2.1 hp key hk)

theorem member (h : Shape program) (ht : t ∈ program.nodes) {c : Tree} (hc : c ∈ t.children)
    (hp : c.isProperty = true) : t.kind = .object := (h.formed t ht).2.2.2 c hc hp

end Shape

end ComponentMacros
