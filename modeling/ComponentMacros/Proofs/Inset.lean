import ComponentMacros.Proofs.Host
import ComponentMacros.Proofs.Position

/-!
# A function in a literal

A functional component can be defined by its render function alone or by a
literal that has the function for its only member. From one text to the other
everything keeps its order: what stands before the function stays, the function
moves behind the head of the literal, the rest also behind its end. The tree of
the one text is mapped to that of the other, and whatever is read off the nodes
of the one is found at the nodes of the other.
-/

namespace ComponentMacros

/-! ## Positions -/

namespace Span

/-- Where a position goes when the text of `hole` is put into a literal. -/
def inset (hole : Span) (pos : Nat) : Nat :=
  if pos < hole.start then pos else if pos ≤ hole.stop then pos + 10 else pos + 12

def insetSpan (hole r : Span) : Span :=
  ⟨hole.inset r.start, hole.inset r.stop⟩

def Level (hole : Span) (lo hi : Nat) : Prop :=
  hi < hole.start ∨ hole.start ≤ lo ∧ hi ≤ hole.stop ∨ hole.stop < lo

variable {hole r s : Span} {a b : Nat}

theorem inset_cases (hole : Span) (pos : Nat) : pos < hole.start ∧ hole.inset pos = pos ∨
    hole.start ≤ pos ∧ pos ≤ hole.stop ∧ hole.inset pos = pos + 10 ∨
    hole.start ≤ pos ∧ hole.stop < pos ∧ hole.inset pos = pos + 12 := by
  unfold inset
  split
  · exact Or.inl ⟨‹_›, rfl⟩
  · split
    · exact Or.inr (Or.inl ⟨by omega, ‹_›, rfl⟩)
    · exact Or.inr (Or.inr ⟨by omega, by omega, rfl⟩)

theorem inset_of_lt (h : a < hole.start) : hole.inset a = a := if_pos h

theorem inset_of_mem (h : hole.start ≤ a) (h' : a ≤ hole.stop) : hole.inset a = a + 10 := by
  rw [inset, if_neg (Nat.not_lt.mpr h), if_pos h']

theorem inset_of_gt (h : hole.start ≤ hole.stop) (h' : hole.stop < a) : hole.inset a = a + 12 := by
  rw [inset, if_neg (by omega), if_neg (by omega)]

@[simp] theorem inset_lt_iff : hole.inset a < hole.inset b ↔ a < b := by
  have := inset_cases hole a
  have := inset_cases hole b
  omega

@[simp] theorem inset_le_iff : hole.inset a ≤ hole.inset b ↔ a ≤ b := by
  rw [← Nat.not_lt, inset_lt_iff, Nat.not_lt]

@[simp] theorem inset_inj : hole.inset a = hole.inset b ↔ a = b := by
  have := inset_cases hole a
  have := inset_cases hole b
  omega

theorem Level.inset_add {lo hi k : Nat} (h : hole.Level lo hi) (hhole : hole.start ≤ hole.stop)
    (hk : lo + k ≤ hi) :
    hole.inset (lo + k) = hole.inset lo + k := by
  have := inset_cases hole lo
  have := inset_cases hole (lo + k)
  unfold Level at h
  omega

@[simp] theorem insetSpan_start : (hole.insetSpan r).start = hole.inset r.start := rfl

@[simp] theorem insetSpan_stop : (hole.insetSpan r).stop = hole.inset r.stop := rfl

@[simp] theorem insetSpan_inj : hole.insetSpan r = hole.insetSpan s ↔ r = s := by
  obtain ⟨a, b⟩ := r
  obtain ⟨c, d⟩ := s
  simp [insetSpan]

@[simp] theorem contains_insetSpan : (hole.insetSpan r).contains (hole.insetSpan s) = r.contains s := by
  rw [Bool.eq_iff_iff, contains_iff, contains_iff]
  simp

def literal (hole : Span) : Span := ⟨hole.start, hole.stop + 12⟩

/-- The range ends before `hole`, starts behind it, goes around it or lies in it. -/
def Clear (hole r : Span) : Prop :=
  r.stop < hole.start ∨ hole.stop < r.start ∨ r.start < hole.start ∧ hole.stop < r.stop ∨
    hole.start ≤ r.start ∧ r.stop ≤ hole.stop

theorem clear_of_laminar (h : (hole.insetSpan r).Laminar hole.literal) : hole.Clear r := by
  have := inset_cases hole r.start
  have := inset_cases hole r.stop
  unfold Clear
  rcases h with h | h | h
  · unfold Apart at h
    simp only [insetSpan_start, insetSpan_stop, literal] at h
    omega
  · rw [contains_iff] at h
    simp only [insetSpan_start, insetSpan_stop, literal] at h
    omega
  · rw [contains_iff] at h
    simp only [insetSpan_start, insetSpan_stop, literal] at h
    omega

theorem start_ne_inset (hole : Span) (pos k : Nat) (hk : k < 10) : hole.inset pos ≠ hole.start + k := by
  have := inset_cases hole pos
  omega

end Span

/-! ## Texts -/

def literalHead : List Char := "\x7b render: ".toList

def literalTail : List Char := " \x7d".toList

theorem byteLength_literalHead : byteLength literalHead = 10 := by decide

theorem byteLength_literalTail : byteLength literalTail = 2 := by decide

theorem dropBytes_append_left {a : List Char} (b : List Char) : ∀ {n : Nat}, n ≤ byteLength a →
    dropBytes (a ++ b) n = (dropBytes a n).map (· ++ b) := by
  induction a with
  | nil =>
    intro n hn
    obtain rfl : n = 0 := Nat.le_zero.mp hn
    simp
  | cons c a ih =>
    intro n hn
    rw [byteLength_cons] at hn
    by_cases hzero : n = 0
    · simp [hzero]
    by_cases hc : c.utf8Size ≤ n
    · rw [List.cons_append, dropBytes_cons c _ hc, dropBytes_cons c _ hc, ih (by omega)]
    · rw [List.cons_append, dropBytes_cons_none c _ (by omega) (by omega),
        dropBytes_cons_none c _ (by omega) (by omega)]
      rfl

theorem takeBytes_append_left {a : List Char} (b : List Char) : ∀ {n : Nat}, n ≤ byteLength a →
    takeBytes (a ++ b) n = takeBytes a n := by
  induction a with
  | nil =>
    intro n hn
    obtain rfl : n = 0 := Nat.le_zero.mp hn
    simp [takeBytes]
  | cons c a ih =>
    intro n hn
    rw [byteLength_cons] at hn
    cases n with
    | zero => simp [takeBytes]
    | succ n =>
      rw [List.cons_append, takeBytes, takeBytes]
      by_cases hc : c.utf8Size ≤ n + 1
      · rw [if_pos hc, if_pos hc, ih (by omega)]
      · rw [if_neg hc, if_neg hc]

theorem byteLength_of_dropBytes : ∀ {text rest : List Char} {n : Nat}, dropBytes text n = some rest →
    n + byteLength rest = byteLength text
  | text, rest, 0, h => by
    rw [dropBytes_zero, Option.some.injEq] at h
    rw [h, Nat.zero_add]
  | [], rest, n + 1, h => by cases h
  | c :: cs, rest, n + 1, h => by
    rw [dropBytes] at h
    split at h
    · have := byteLength_of_dropBytes h
      rw [byteLength_cons]; omega
    · cases h

theorem slice?_append_left {a b : List Char} {lo hi : Nat} (h : hi ≤ byteLength a) :
    slice? (a ++ b) lo hi = slice? a lo hi := by
  unfold slice?
  by_cases hle : lo ≤ hi
  · rw [if_pos hle, if_pos hle, dropBytes_append_left b (by omega)]
    cases hd : dropBytes a lo with
    | none => rfl
    | some rest =>
      have := byteLength_of_dropBytes hd
      exact takeBytes_append_left b (by omega)
  · rw [if_neg hle, if_neg hle]

theorem slice?_append_right (a b : List Char) (lo hi : Nat) :
    slice? (a ++ b) (byteLength a + lo) (byteLength a + hi) = slice? b lo hi := by
  unfold slice?
  rw [dropBytes_append, Nat.add_sub_add_left]
  simp only [Nat.add_le_add_iff_left]

def bareText (pre body post : List Char) : List Char := pre ++ (body ++ post)

def literalText (pre body post : List Char) : List Char :=
  pre ++ (literalHead ++ (body ++ (literalTail ++ post)))

def holeOf (pre body : List Char) : Span := ⟨byteLength pre, byteLength pre + byteLength body⟩

theorem byteLength_literalText (pre body post : List Char) :
    byteLength (literalText pre body post) = byteLength (bareText pre body post) + 12 := by
  simp only [literalText, bareText, byteLength_append, byteLength_literalHead, byteLength_literalTail]
  omega

section
variable {pre body post : List Char} {lo hi : Nat}

theorem slice?_inset (h : (holeOf pre body).Level lo hi) :
    slice? (literalText pre body post) ((holeOf pre body).inset lo) ((holeOf pre body).inset hi) =
      slice? (bareText pre body post) lo hi := by
  by_cases hle : lo ≤ hi
  swap
  · simp [slice?, hle]
  unfold literalText bareText
  have hhole : (holeOf pre body).start ≤ (holeOf pre body).stop := Nat.le_add_right ..
  rcases h with h | ⟨hlo, hhi⟩ | h
  · rw [Span.inset_of_lt (by omega), Span.inset_of_lt h, slice?_append_left (Nat.le_of_lt h),
      slice?_append_left (Nat.le_of_lt h)]
  · rw [Span.inset_of_mem hlo (by omega), Span.inset_of_mem (by omega) hhi]
    obtain ⟨m, rfl⟩ : ∃ m, lo = byteLength pre + m := ⟨lo - byteLength pre, by simp only [holeOf] at hlo; omega⟩
    obtain ⟨n, rfl⟩ : ∃ n, hi = byteLength pre + n := ⟨hi - byteLength pre, by omega⟩
    have hn : n ≤ byteLength body := by simp only [holeOf] at hhi; omega
    rw [slice?_append_right, slice?_append_left hn, Nat.add_assoc, Nat.add_assoc, slice?_append_right,
      Nat.add_comm m, Nat.add_comm n, ← byteLength_literalHead, slice?_append_right, slice?_append_left hn]
  · rw [Span.inset_of_gt hhole h, Span.inset_of_gt hhole (by omega)]
    simp only [holeOf] at h
    obtain ⟨m, rfl⟩ : ∃ m, lo = byteLength pre + (byteLength body + m) :=
      ⟨lo - (byteLength pre + byteLength body), by omega⟩
    obtain ⟨n, rfl⟩ : ∃ n, hi = byteLength pre + (byteLength body + n) :=
      ⟨hi - (byteLength pre + byteLength body), by omega⟩
    have hshift : ∀ k, byteLength pre + (byteLength body + k) + 12 =
        byteLength pre + (byteLength literalHead + (byteLength body + (byteLength literalTail + k))) := by
      intro k
      rw [byteLength_literalHead, byteLength_literalTail]
      omega
    rw [hshift, hshift, slice?_append_right, slice?_append_right, slice?_append_right, slice?_append_right,
      slice?_append_right, slice?_append_right]

end

/-! ## Trees -/

def renderMember (hole : Span) (value : Tree) : Tree :=
  .node (.property .plain false false false) ⟨hole.start + 2, hole.stop + 10⟩
    [.node (.name "render") ⟨hole.start + 2, hole.start + 8⟩ [], value]

def renderLiteral (hole : Span) (value : Tree) : Tree :=
  .node .object hole.literal [renderMember hole value]

section
variable (hole : Span) (value : Tree)

@[simp] theorem renderMember_kind : (renderMember hole value).kind = .property .plain false false false := rfl

@[simp] theorem renderMember_isProperty : (renderMember hole value).isProperty = true := rfl

@[simp] theorem renderMember_span : (renderMember hole value).span = ⟨hole.start + 2, hole.stop + 10⟩ := rfl

theorem renderMember_keySpan :
    (renderMember hole value).key?.map (·.span) = some ⟨hole.start + 2, hole.start + 8⟩ := rfl

@[simp] theorem renderLiteral_kind : (renderLiteral hole value).kind = .object := rfl

@[simp] theorem renderLiteral_span : (renderLiteral hole value).span = hole.literal := rfl

@[simp] theorem renderLiteral_children : (renderLiteral hole value).children = [renderMember hole value] := rfl

end

mutual

/-- A node of the text with the function alone, where it stands in the other text. -/
def Tree.inset (fn : Tree) : Tree → Tree
  | .node kind span children => .node kind (fn.span.insetSpan span) (insetAll fn children)

def insetAll (fn : Tree) : List Tree → List Tree
  | [] => []
  | t :: ts => (if t = fn then renderLiteral fn.span (fn.inset t) else fn.inset t) :: insetAll fn ts

end

def Tree.insetPart (fn t : Tree) : Tree :=
  if t = fn then renderLiteral fn.span (fn.inset fn) else fn.inset t

theorem insetAll_eq (fn : Tree) (ts : List Tree) : insetAll fn ts = ts.map fn.insetPart := by
  induction ts with
  | nil => rfl
  | cons t ts ih =>
    rw [insetAll, ih, List.map_cons, Tree.insetPart]
    by_cases ht : t = fn
    · rw [if_pos ht, if_pos ht, ht]
    · rw [if_neg ht, if_neg ht]

namespace Tree

section
variable {fn t : Tree}

theorem inset_eq (fn t : Tree) :
    fn.inset t = node t.kind (fn.span.insetSpan t.span) (t.children.map fn.insetPart) := by
  cases t with
  | node k s cs => rw [inset, insetAll_eq]; rfl

@[simp] theorem inset_kind (fn t : Tree) : (fn.inset t).kind = t.kind := by rw [inset_eq]; rfl

@[simp] theorem inset_span (fn t : Tree) : (fn.inset t).span = fn.span.insetSpan t.span := by rw [inset_eq]; rfl

@[simp] theorem inset_children (fn t : Tree) : (fn.inset t).children = t.children.map fn.insetPart := by
  rw [inset_eq]; rfl

theorem insetPart_self (fn : Tree) : fn.insetPart fn = renderLiteral fn.span (fn.inset fn) := if_pos rfl

theorem insetPart_of_ne (h : t ≠ fn) : fn.insetPart t = fn.inset t := if_neg h

theorem isFunction_iff : t.isFunction = true ↔ (∃ r a g, t.kind = .function r a g) ∨ ∃ a, t.kind = .arrow a := by
  unfold isFunction
  split <;> simp_all

variable (hfn : fn.isFunction = true)
include hfn

theorem insetPart_kind {α : Type} (p : Kind → α) (hp : ∀ r a g, p (.function r a g) = p .object)
    (hp' : ∀ a, p (.arrow a) = p .object) (t : Tree) : p (fn.insetPart t).kind = p t.kind := by
  by_cases ht : t = fn
  · rw [ht, insetPart_self]
    rcases isFunction_iff.mp hfn with ⟨r, a, g, hk⟩ | ⟨a, hk⟩
    · rw [hk, hp]; rfl
    · rw [hk, hp']; rfl
  · rw [insetPart_of_ne ht, inset_kind]

theorem ne_of_isFunction (h : t.isFunction = false) : t ≠ fn := by
  rintro rfl
  rw [hfn] at h
  cases h

theorem find?_insetPart (p : Kind → Bool) (hp : ∀ r a g, p (.function r a g) = p .object)
    (hp' : ∀ a, p (.arrow a) = p .object) (ts : List Tree) :
    (ts.map fn.insetPart).find? (p ·.kind) = (ts.find? (p ·.kind)).map fn.insetPart := by
  rw [List.find?_map]
  congr 2
  funext t
  exact insetPart_kind hfn p hp hp' t

theorem filter_insetPart (p : Kind → Bool) (hp : ∀ r a g, p (.function r a g) = p .object)
    (hp' : ∀ a, p (.arrow a) = p .object) (ts : List Tree) :
    (ts.map fn.insetPart).filter (p ·.kind) = (ts.filter (p ·.kind)).map fn.insetPart := by
  rw [List.filter_map]
  congr 2
  funext t
  exact insetPart_kind hfn p hp hp' t

theorem insetPart_stripParens (t : Tree) : (fn.insetPart t).stripParens = fn.insetPart t.stripParens := by
  fun_induction stripParens t with
  | case1 s inner ih =>
    have hne : node .parenthesized s [inner] ≠ fn := ne_of_isFunction hfn rfl
    rw [insetPart_of_ne hne, inset_eq, ← ih]
    rfl
  | case2 t hne =>
    by_cases ht : t = fn
    · rw [ht, insetPart_self]
      rfl
    · rw [insetPart_of_ne ht, inset_eq]
      unfold stripParens
      split
      · rename_i inner heq
        obtain ⟨hk, hs, hcs⟩ := node.inj heq
        obtain ⟨part, hpart, -⟩ := List.map_eq_singleton_iff.mp hcs
        exact absurd (by rw [← hk, ← hpart]; cases t; rfl) (hne t.span part)
      · rfl

end

@[simp] theorem isCall_inset (fn t : Tree) : (fn.inset t).isCall = t.isCall := by
  unfold isCall; rw [inset_kind]

@[simp] theorem isProperty_inset (fn t : Tree) : (fn.inset t).isProperty = t.isProperty := by
  unfold isProperty; rw [inset_kind]

@[simp] theorem isObject_inset (fn t : Tree) : (fn.inset t).isObject = t.isObject := by
  unfold isObject; rw [inset_kind]

@[simp] theorem callee?_inset (fn t : Tree) : (fn.inset t).callee? = t.callee?.map fn.insetPart := by
  unfold callee?
  rw [isCall_inset, inset_children, List.head?_map]
  split <;> rfl

@[simp] theorem key?_inset (fn t : Tree) : (fn.inset t).key? = t.key?.map fn.insetPart := by
  unfold key?
  rw [isProperty_inset, inset_children, List.head?_map]
  split <;> rfl

@[simp] theorem value?_inset (fn t : Tree) : (fn.inset t).value? = t.value?.map fn.insetPart := by
  unfold value?
  rw [isProperty_inset, inset_children, List.getLast?_map]
  split <;> rfl

end Tree

theorem Tree.callee?_mem {t c : Tree} (h : t.callee? = some c) : t.isCall = true ∧ c ∈ t.children := by
  unfold callee? at h
  split at h
  · exact ⟨‹_›, List.mem_of_head? h⟩
  · cases h

theorem Tree.key?_mem {t c : Tree} (h : t.key? = some c) : t.isProperty = true ∧ c ∈ t.children := by
  unfold key? at h
  split at h
  · exact ⟨‹_›, List.mem_of_head? h⟩
  · cases h

theorem Tree.value?_isProperty {t c : Tree} (h : t.value? = some c) : t.isProperty = true := by
  unfold value? at h
  split at h
  · assumption
  · cases h

/-! ## Nodes of the other tree -/

theorem Tree.inset_mem_insetPart (fn t : Tree) : fn.inset t ∈ (fn.insetPart t).nodes := by
  by_cases ht : t = fn
  · rw [ht, insetPart_self]
    refine mem_nodes_of_child (List.mem_singleton_self _) (child_mem_nodes ?_)
    exact List.mem_cons_of_mem _ (List.mem_singleton_self _)
  · rw [insetPart_of_ne ht]
    exact mem_nodes_self _

theorem Tree.inset_mem {fn t u : Tree} (h : t ∈ u.nodes) : fn.inset t ∈ (fn.inset u).nodes := by
  induction u using Tree.induction with
  | step u ih =>
    rcases mem_nodes.mp h with rfl | ⟨c, hc, htc⟩
    · exact mem_nodes_self _
    · have hpart : fn.insetPart c ∈ (fn.inset u).children := by
        rw [inset_children]
        exact List.mem_map_of_mem hc
      exact mem_nodes_of_child hpart (nodes_trans (inset_mem_insetPart fn c) (ih c hc htc))

theorem Layout.nodes_laminar {source : List Char} {program a b : Tree} (h : Layout source program)
    (ha : a ∈ program.nodes) (hb : b ∈ program.nodes) : a.span.Laminar b.span := by
  rcases h.nested_or_apart ha hb with hab | hba | hap
  · exact Or.inr (Or.inr (h.contains hb hab))
  · exact Or.inr (Or.inl (h.contains ha hba))
  · exact Or.inl hap

/-- A call whose only argument is a function, in a program over two texts: the function stands alone
in the one and in a literal in the other. -/
structure Shorthand (pre body post : List Char) (program call fn : Tree) : Prop where
  layout : Layout (bareText pre body post) program
  literalLayout : Layout (literalText pre body post) (fn.inset program)
  closed : Closed program
  span : fn.span = holeOf pre body
  body : body ≠ []
  isFunction : fn.isFunction = true
  call_mem : call ∈ program.nodes
  isCall : call.isCall = true
  argument : ∃ argument, call.arguments = [argument] ∧ argument.stripParens = fn
  headed : call.span.start < fn.span.start

namespace Shorthand

section
variable {pre body post : List Char} {program call fn : Tree} (h : Shorthand pre body post program call fn)
include h

theorem proper : fn.span.start < fn.span.stop := by
  rw [h.span]
  have : 0 < byteLength body := by
    cases hbody : body with
    | nil => exact absurd hbody h.body
    | cons c cs => exact Nat.add_pos_left c.utf8Size_pos _
  simp only [holeOf]
  omega

theorem stripParens : fn.stripParens = fn := by
  apply Tree.stripParens_of_kind
  intro hk
  have := h.isFunction
  rw [Tree.isFunction, hk] at this
  cases this

theorem fn_mem_call : fn ∈ call.nodes := by
  obtain ⟨argument, ha, hstrip⟩ := h.argument
  rw [← hstrip]
  exact Tree.mem_nodes_of_child (Tree.arguments_mem ha) argument.stripParens_mem

theorem fn_mem : fn ∈ program.nodes := Tree.nodes_trans h.call_mem h.fn_mem_call

theorem stop_lt : fn.span.stop < call.span.stop := by
  obtain ⟨argument, ha, hstrip⟩ := h.argument
  have harg := Tree.arguments_mem ha
  have hin := h.layout.contains (Tree.nodes_trans h.call_mem (Tree.child_mem_nodes harg)) argument.stripParens_mem
  rw [hstrip, Span.contains_iff] at hin
  have := h.closed.call h.call_mem h.isCall harg
  omega

theorem call_ne : call ≠ fn := by
  intro heq
  have := h.headed
  rw [heq] at this
  omega

/-- A node that is the function but for parentheses is the argument of the call or parenthesized itself. -/
theorem holder {t c : Tree} (ht : t ∈ program.nodes) (hc : c ∈ t.children) (hstrip : c.stripParens = fn) :
    t.kind = .parenthesized ∧ t.stripParens = fn ∨ t = call := by
  obtain ⟨argument, ha, hargument⟩ := h.argument
  have harg := Tree.arguments_mem ha
  have hproper := h.proper
  have hct := Tree.nodes_trans ht (Tree.child_mem_nodes hc)
  have hac := Tree.nodes_trans h.call_mem (Tree.child_mem_nodes harg)
  have hfc : fn ∈ c.nodes := by rw [← hstrip]; exact c.stripParens_mem
  have hfa : fn ∈ argument.nodes := by rw [← hargument]; exact argument.stripParens_mem
  have hcs := Span.contains_iff.mp (h.layout.contains hct hfc)
  have has := Span.contains_iff.mp (h.layout.contains hac hfa)
  have hmeet : ¬ c.span.Apart argument.span := by unfold Span.Apart; omega
  -- what is around the function inside of either one is parenthesized
  have inside : ∀ {a b u : Tree}, b.stripParens = fn → fn ∈ a.nodes → a ∈ u.children → u ∈ program.nodes →
      b ∈ program.nodes → a ∈ b.nodes → a = b ∨ u.kind = .parenthesized ∧ u.stripParens = fn := by
    intro a b u hb hfa hau hu hbp hab
    rcases Tree.eq_or_child_of_mem hab with heq | ⟨u', hu', hau'⟩
    · exact Or.inl heq
    · have hin := Span.contains_iff.mp (h.layout.contains (Tree.nodes_trans hbp hab) hfa)
      obtain rfl := h.layout.parent_unique hu (Tree.nodes_trans hbp hu') hau hau' (by omega)
      rcases Tree.mem_stripParens hu' with hup | ⟨hk, hstrip⟩
      · rw [hb] at hup
        have hfu := Tree.mem_nodes_of_child hau hfa
        rw [Tree.eq_of_mem_of_mem hup hfu] at hau
        exact absurd hfa (Tree.not_mem_child hau)
      · exact Or.inr ⟨hk, hstrip.trans hb⟩
  rcases h.layout.nested hct hac hmeet with hin | hin
  · rcases inside hargument hfc hc ht hac hin with rfl | hk
    · exact Or.inr (h.layout.parent_unique ht h.call_mem hc harg (by omega))
    · exact Or.inl hk
  · rcases inside hstrip hfa harg h.call_mem hct hin with rfl | hk
    · exact Or.inr (h.layout.parent_unique ht h.call_mem hc harg (by omega))
    · obtain ⟨o, ho⟩ := Tree.isCall_iff.mp h.isCall
      rw [ho] at hk
      cases hk.1

theorem part_ne {t c : Tree} (ht : t ∈ program.nodes) (hc : c ∈ t.children) (hparen : t.kind ≠ .parenthesized)
    (hcall : t.isCall = false) : c.stripParens ≠ fn := by
  intro hstrip
  rcases h.holder ht hc hstrip with ⟨hk, -⟩ | rfl
  · exact hparen hk
  · rw [h.isCall] at hcall
    cases hcall

theorem ne_of_stripParens {t : Tree} (ht : t.stripParens ≠ fn) : t ≠ fn := by
  rintro rfl
  exact ht h.stripParens

theorem value_ne {t c : Tree} (ht : t ∈ program.nodes) (hp : t.isProperty = true) (hc : c ∈ t.children) :
    c.stripParens ≠ fn := by
  obtain ⟨a, b, s, m, hk⟩ := Tree.isProperty_iff.mp hp
  exact h.part_ne ht hc (by simp [hk]) (by simp [Tree.isCall, hk])

theorem member_ne {t c : Tree} (ht : t ∈ program.nodes) (ho : t.isObject = true) (hc : c ∈ t.children) :
    c ≠ fn := by
  have hk := Tree.isObject_iff.mp ho
  exact h.ne_of_stripParens (h.part_ne ht hc (by simp [hk]) (by simp [Tree.isCall, hk]))

theorem callee_before {c : Tree} (hc : call.callee? = some c) : c.span.stop ≤ fn.span.start := by
  obtain ⟨argument, ha, hargument⟩ := h.argument
  rw [Tree.callee?, if_pos h.isCall] at hc
  obtain ⟨rest, hcs⟩ := List.head?_eq_some_iff.mp hc
  have hmem : argument ∈ rest := by
    have harg : argument ∈ call.arguments := by rw [ha]; exact List.mem_singleton_self _
    have htail := (List.mem_filter.mp harg).1
    rwa [hcs] at htail
  have hparts : Ordered call.span.start call.span.stop (c :: rest) := by
    rw [← hcs]; exact h.layout.parts h.call_mem
  have hlater := (hparts.2.2.bounds argument hmem).1
  have hin := Span.contains_iff.mp (h.layout.contains
    (Tree.nodes_trans h.call_mem (Tree.child_mem_nodes (Tree.arguments_mem ha))) argument.stripParens_mem)
  rw [hargument] at hin
  omega

theorem callee_ne {t c : Tree} (ht : t ∈ program.nodes) (hc : t.callee? = some c) : c.stripParens ≠ fn := by
  intro hstrip
  obtain ⟨hcall, hmem⟩ := Tree.callee?_mem hc
  rcases h.holder ht hmem hstrip with ⟨hk, -⟩ | rfl
  · obtain ⟨o, ho⟩ := Tree.isCall_iff.mp hcall
    rw [ho] at hk
    cases hk
  · have hin :=
      Span.contains_iff.mp (h.layout.contains (Tree.nodes_trans ht (Tree.child_mem_nodes hmem)) c.stripParens_mem)
    have := h.callee_before hc
    have := h.proper
    rw [hstrip] at hin
    omega

theorem literal_mem : renderLiteral fn.span (fn.inset fn) ∈ (fn.inset program).nodes := by
  have hroot : fn ≠ program := by
    rintro rfl
    have := Span.contains_iff.mp (h.layout.contains (Tree.mem_nodes_self _) h.call_mem)
    have := h.headed
    omega
  rcases Tree.eq_or_child_of_mem h.fn_mem with heq | ⟨u, hu, hfu⟩
  · exact absurd heq hroot
  · refine Tree.nodes_trans (Tree.inset_mem hu) (Tree.child_mem_nodes ?_)
    rw [Tree.inset_children, ← Tree.insetPart_self]
    exact List.mem_map_of_mem hfu

theorem clear {t : Tree} (ht : t ∈ program.nodes) : fn.span.Clear t.span := by
  apply Span.clear_of_laminar
  have hlaminar :=
    h.literalLayout.nodes_laminar (Tree.inset_mem ht : fn.inset t ∈ (fn.inset program).nodes) h.literal_mem
  rwa [Tree.inset_span] at hlaminar

theorem around {t : Tree} (ht : t ∈ program.nodes) (hparen : t.stripParens ≠ fn)
    (hstart : t.span.start < fn.span.start) (hstop : fn.span.stop < t.span.stop) : call ∈ t.nodes := by
  have hproper := h.proper
  have hmeet : ∀ {u : Tree}, fn ∈ u.nodes → u ∈ program.nodes → ¬ t.span.Apart u.span := by
    intro u hfu hu
    have := Span.contains_iff.mp (h.layout.contains hu hfu)
    unfold Span.Apart
    omega
  have hft : fn ∈ t.nodes := by
    rcases h.layout.nested ht h.fn_mem (hmeet (Tree.mem_nodes_self fn) h.fn_mem) with hin | hin
    · have := Span.contains_iff.mp (h.layout.contains h.fn_mem hin)
      omega
    · exact hin
  rcases h.layout.nested ht h.call_mem (hmeet h.fn_mem_call h.call_mem) with hin | hin
  swap
  · exact hin
  rcases Tree.mem_nodes.mp hin with rfl | ⟨c, hc, htc⟩
  · exact Tree.mem_nodes_self _
  obtain ⟨argument, ha, hargument⟩ := h.argument
  have harg := Tree.arguments_mem ha
  have hfa : fn ∈ argument.nodes := by rw [← hargument]; exact argument.stripParens_mem
  have hcp := Tree.nodes_trans h.call_mem (Tree.child_mem_nodes hc)
  have hap := Tree.nodes_trans h.call_mem (Tree.child_mem_nodes harg)
  have hcs := Span.contains_iff.mp (h.layout.contains hcp (Tree.nodes_trans htc hft))
  have has := Span.contains_iff.mp (h.layout.contains hap hfa)
  rcases (h.layout.parts h.call_mem).eq_or_apart c hc argument harg with rfl | hapart
  · rcases Tree.mem_stripParens htc with hin | ⟨-, hstrip⟩
    · rw [hargument] at hin
      have := Span.contains_iff.mp (h.layout.contains h.fn_mem hin)
      omega
    · exact absurd (hstrip.trans hargument) hparen
  · unfold Span.Apart at hapart
    omega

theorem edges_inset {t : Tree} {opening closing : Char} (ht : t ∈ program.nodes)
    (he : t.Enclosed (bareText pre body post) opening closing) (hparen : t.kind ≠ .parenthesized)
    (hcall : t.isCall = false) :
    fn.span.inset (t.span.start + 1) = fn.span.inset t.span.start + 1 ∧
      fn.span.inset (t.span.stop - 1) = fn.span.inset t.span.stop - 1 := by
  have := fn.span.inset_cases t.span.start
  have := fn.span.inset_cases (t.span.start + 1)
  have := fn.span.inset_cases t.span.stop
  have := fn.span.inset_cases (t.span.stop - 1)
  have hwide := he.bounds.1
  have hproper := h.proper
  rcases h.clear ht with hclear | hclear | ⟨hstart, hstop⟩ | hclear
  · omega
  · omega
  · have hne : t.stripParens ≠ fn := by
      rw [Tree.stripParens_of_kind hparen]
      rintro rfl
      omega
    rcases Tree.mem_nodes.mp (h.around ht hne hstart hstop) with rfl | ⟨c, hc, hin⟩
    · rw [h.isCall] at hcall
      cases hcall
    · -- the call is between the brackets as well
      have hbounds := he.bounds.2 c hc
      have hcs := Span.contains_iff.mp (h.layout.contains (Tree.nodes_trans ht (Tree.child_mem_nodes hc)) hin)
      have := h.headed
      have := h.stop_lt
      omega
  · omega

end

end Shorthand

end ComponentMacros
