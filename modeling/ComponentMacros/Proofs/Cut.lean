import ComponentMacros.Proofs.Layout

/-!
# The ranges that rules replace

Every range a rule replaces belongs to a node: it is the node itself, what
surrounds the argument of a call, a member of an object with what separates it
from the next, the key of a property, or a statement with its line break. Such
ranges never collide, wherever in a program their nodes stand.
-/

namespace ComponentMacros

def memberRanges (source : List Char) : List Tree → List Span
  | [] => []
  | [m] => [⟨m.span.start, trailingCommaEnd source m.span.stop⟩]
  | m :: next :: rest => ⟨m.span.start, next.span.start⟩ :: memberRanges source (next :: rest)

inductive CutAt (source : List Char) (t : Tree) : Span → Prop where
  | whole (h : t.isCall = true ∨ t.isObject = true ∨ t.isProperty = true) : CutAt source t t.span
  | front {optional : Bool} (hk : t.kind = .call optional) {argument : Tree} (ha : t.arguments = [argument]) :
    CutAt source t ⟨t.span.start, argument.stripParens.span.start⟩
  | back {optional : Bool} (hk : t.kind = .call optional) {argument : Tree} (ha : t.arguments = [argument]) :
    CutAt source t ⟨argument.stripParens.span.stop, t.span.stop⟩
  | member (hk : t.kind = .object) {r : Span} (hr : r ∈ memberRanges source t.children) : CutAt source t r
  | key {access : Access} {computed shorthand isMethod : Bool}
    (hk : t.kind = .property access computed shorthand isMethod) {value : Tree} (hv : t.value? = some value) :
    CutAt source t ⟨t.span.start, value.span.start⟩
  | line (hk : t.kind = .program) {c : Tree} (hc : c ∈ t.children) :
    CutAt source t ⟨c.span.start, lineBreakEnd source c.span.stop⟩

/-- A range that a rule may replace somewhere in a program. -/
def Cut (source : List Char) (program : Tree) (r : Span) : Prop :=
  ∃ t ∈ program.nodes, CutAt source t r

/-! ## Kinds of nodes -/

namespace Tree

theorem isCall_iff {t : Tree} : t.isCall = true ↔ ∃ o, t.kind = .call o := by
  unfold isCall
  split
  · rename_i o h; simp [h]
  · rename_i h; simp only [Bool.false_eq_true, false_iff]; rintro ⟨o, ho⟩; exact h o ho

theorem isProperty_iff {t : Tree} : t.isProperty = true ↔ ∃ a c s m, t.kind = .property a c s m := by
  unfold isProperty
  split
  · rename_i a c s m h; simp [h]
  · rename_i h; simp only [Bool.false_eq_true, false_iff]; rintro ⟨a, c, s, m, hk⟩; exact h a c s m hk

theorem isObject_iff {t : Tree} : t.isObject = true ↔ t.kind = .object := decide_eq_true_iff

theorem arguments_mem {t argument : Tree} (h : t.arguments = [argument]) : argument ∈ t.children := by
  have : argument ∈ t.arguments := by rw [h]; exact List.mem_singleton_self _
  exact List.mem_of_mem_tail (List.mem_filter.mp this).1

theorem value?_mem {t value : Tree} (h : t.value? = some value) : value ∈ t.children := by
  unfold value? at h
  split at h
  · exact List.mem_of_getLast? h
  · cases h

end Tree

/-! ## Members -/

section
variable {source : List Char}

theorem memberRanges_bounds : ∀ {ms : List Tree} {lo hi : Nat}, Ordered lo hi ms →
    (∀ m ∈ ms, m.span.stop ≤ trailingCommaEnd source m.span.stop ∧ trailingCommaEnd source m.span.stop ≤ hi) →
    ∀ r ∈ memberRanges source ms, lo ≤ r.start ∧ r.start ≤ r.stop ∧ r.stop ≤ hi
  | [], _, _, _, _ => by simp [memberRanges]
  | [m], _, _, h, ht => by
    have hm := h.bounds m (List.mem_singleton_self m)
    have htm := ht m (List.mem_singleton_self m)
    intro r hr
    rw [List.mem_singleton.mp hr]
    simp only; omega
  | m :: next :: rest, _, _, ⟨h₁, h₂, h₃⟩, ht => by
    have hnext := h₃.bounds next (List.mem_cons_self ..)
    intro r hr
    rcases List.mem_cons.mp hr with rfl | hr
    · simp only; omega
    · have := memberRanges_bounds h₃ (fun m hm => ht m (List.mem_cons_of_mem _ hm)) r hr
      omega

theorem memberRanges_eq_or_apart : ∀ {ms : List Tree} {lo hi : Nat}, Ordered lo hi ms →
    (∀ m ∈ ms, m.span.stop ≤ trailingCommaEnd source m.span.stop ∧ trailingCommaEnd source m.span.stop ≤ hi) →
    ∀ r ∈ memberRanges source ms, ∀ s ∈ memberRanges source ms, r = s ∨ r.Apart s
  | [], _, _, _, _ => by simp [memberRanges]
  | [m], _, _, _, _ => by
    intro r hr s hs
    exact Or.inl ((List.mem_singleton.mp hr).trans (List.mem_singleton.mp hs).symm)
  | m :: next :: rest, _, hi, ⟨_, _, h₃⟩, ht => by
    have ht' : ∀ m ∈ next :: rest, m.span.stop ≤ trailingCommaEnd source m.span.stop ∧
        trailingCommaEnd source m.span.stop ≤ hi := fun m hm => ht m (List.mem_cons_of_mem _ hm)
    have hnext : Ordered next.span.start hi (next :: rest) :=
      ⟨Nat.le_refl _, h₃.2.1, h₃.2.2⟩
    have hlater : ∀ s ∈ memberRanges source (next :: rest), next.span.start ≤ s.start :=
      fun s hs => (memberRanges_bounds hnext ht' s hs).1
    intro r hr s hs
    rcases List.mem_cons.mp hr with hrm | hrt <;> rcases List.mem_cons.mp hs with hsm | hst
    · exact Or.inl (hrm.trans hsm.symm)
    · rw [hrm]; exact Or.inr (Or.inl (hlater s hst))
    · rw [hsm]; exact Or.inr (Or.inr (hlater r hrt))
    · exact memberRanges_eq_or_apart h₃ ht' r hrt s hst

theorem memberRanges_spare : ∀ {ms : List Tree} {lo hi : Nat}, Ordered lo hi ms →
    (∀ m ∈ ms, m.span.stop ≤ trailingCommaEnd source m.span.stop ∧ trailingCommaEnd source m.span.stop ≤ hi) →
    ∀ r ∈ memberRanges source ms, ∀ c ∈ ms, r.contains c.span = true ∨ r.Apart c.span
  | [], _, _, _, _ => by simp [memberRanges]
  | [m], _, _, _, ht => by
    intro r hr c hc
    rw [List.mem_singleton.mp hr, List.mem_singleton.mp hc]
    exact Or.inl (Span.contains_iff.mpr ⟨Nat.le_refl _, (ht m (List.mem_singleton_self m)).1⟩)
  | m :: next :: rest, _, hi, ⟨h₁, h₂, h₃⟩, ht => by
    have ht' : ∀ m ∈ next :: rest, m.span.stop ≤ trailingCommaEnd source m.span.stop ∧
        trailingCommaEnd source m.span.stop ≤ hi := fun m hm => ht m (List.mem_cons_of_mem _ hm)
    have hnext : Ordered next.span.start hi (next :: rest) := ⟨Nat.le_refl _, h₃.2.1, h₃.2.2⟩
    intro r hr c hc
    rcases List.mem_cons.mp hr with rfl | hrt <;> rcases List.mem_cons.mp hc with rfl | hct
    · exact Or.inl (Span.contains_iff.mpr ⟨Nat.le_refl _, h₃.1⟩)
    · exact Or.inr (Or.inl (hnext.bounds c hct).1)
    · have hb := memberRanges_bounds hnext ht' r hrt
      exact Or.inr (Or.inr (Nat.le_trans h₃.1 hb.1))
    · exact memberRanges_spare h₃ ht' r hrt c hct

theorem memberRanges_start : ∀ {ms : List Tree} {r : Span}, r ∈ memberRanges source ms →
    ∃ m ∈ ms, r.start = m.span.start ∧
      (r.stop = trailingCommaEnd source m.span.stop ∨ ∃ next ∈ ms, r.stop = next.span.start)
  | [], _, hr => by cases hr
  | [m], r, hr => by
    rw [List.mem_singleton.mp hr]
    exact ⟨m, List.mem_singleton_self m, rfl, Or.inl rfl⟩
  | m :: next :: rest, r, hr => by
    rcases List.mem_cons.mp hr with rfl | hr
    · exact ⟨m, List.mem_cons_self .., rfl, Or.inr ⟨next, by simp, rfl⟩⟩
    · obtain ⟨m', hm', hstart, hstop⟩ := memberRanges_start hr
      refine ⟨m', List.mem_cons_of_mem _ hm', hstart, hstop.imp_right ?_⟩
      rintro ⟨n, hn, heq⟩
      exact ⟨n, List.mem_cons_of_mem _ hn, heq⟩

end

/-! ## Cuts of one node -/

namespace Layout

variable {source : List Char} {program t : Tree}

theorem member_comma (h : Layout source program) (ht : t ∈ program.nodes) (ho : t.kind = .object) :
    ∀ m ∈ t.children, m.span.stop ≤ trailingCommaEnd source m.span.stop ∧
      trailingCommaEnd source m.span.stop ≤ t.span.stop - 1 := by
  intro m hm
  obtain ⟨-, hclose, hin⟩ := h.object ht ho
  have hb := hin.bounds m hm
  have hm' := h.fits (Tree.nodes_trans ht (Tree.child_mem_nodes hm))
  have hcomma := trailingCommaEnd_bounds hm'.2.2 hb.2.2 hclose
  exact ⟨hcomma.1, hcomma.2.1⟩

theorem argument_bounds (h : Layout source program) (ht : t ∈ program.nodes) {argument : Tree}
    (ha : argument ∈ t.children) : t.span.start ≤ argument.stripParens.span.start ∧
      argument.stripParens.span.start ≤ argument.stripParens.span.stop ∧
      argument.stripParens.span.stop ≤ t.span.stop := by
  have hin : argument.stripParens ∈ t.nodes := Tree.mem_nodes_of_child ha argument.stripParens_mem
  have hc := Span.contains_iff.mp (h.contains ht hin)
  exact ⟨hc.1, h.ordered (Tree.nodes_trans ht hin), hc.2⟩

theorem cut_bounds (h : Layout source program) (ht : t ∈ program.nodes) {r : Span} (hr : CutAt source t r) :
    t.span.start ≤ r.start ∧ r.start ≤ r.stop ∧ r.stop ≤ t.span.stop := by
  cases hr with
  | whole _ => exact ⟨Nat.le_refl _, h.ordered ht, Nat.le_refl _⟩
  | front _ ha =>
    have := h.argument_bounds ht (Tree.arguments_mem ha)
    simp only; omega
  | back _ ha =>
    have := h.argument_bounds ht (Tree.arguments_mem ha)
    simp only; omega
  | member ho hr =>
    have := memberRanges_bounds (h.object ht ho).2.2 (h.member_comma ht ho) r hr
    omega
  | key _ hv =>
    have := (h.parts ht).bounds _ (Tree.value?_mem hv)
    simp only; omega
  | line hp hc =>
    have hb := (h.parts ht).bounds _ hc
    have hl := lineBreakEnd_bounds (h.fits (Tree.nodes_trans ht (Tree.child_mem_nodes hc))).2.2
    have hlen := hl.2.le_length
    rw [(h.statements ht hp).1] at hb ⊢
    simp only at hb ⊢; omega

theorem cut_contains (h : Layout source program) (ht : t ∈ program.nodes) {r : Span} (hr : CutAt source t r) :
    t.span.contains r = true := by
  have := h.cut_bounds ht hr
  exact Span.contains_iff.mpr ⟨this.1, this.2.2⟩

theorem cut_fits (h : Layout source program) (ht : t ∈ program.nodes) {r : Span} (hr : CutAt source t r) :
    r.Fits source := by
  have below : ∀ {n : Tree}, n ∈ t.nodes → n.span.Fits source := fun hn => h.fits (Tree.nodes_trans ht hn)
  refine ⟨(h.cut_bounds ht hr).2.1, ?_⟩
  cases hr with
  | whole _ => exact (h.fits ht).2
  | @front _ _ argument ha =>
    have hin := Tree.mem_nodes_of_child (Tree.arguments_mem ha) argument.stripParens_mem
    exact ⟨(h.fits ht).2.1, (below hin).2.1⟩
  | @back _ _ argument ha =>
    have hin := Tree.mem_nodes_of_child (Tree.arguments_mem ha) argument.stripParens_mem
    exact ⟨(below hin).2.2, (h.fits ht).2.2⟩
  | member ho hr =>
    obtain ⟨m, hm, hstart, hstop⟩ := memberRanges_start hr
    have hmf := below (Tree.child_mem_nodes hm)
    rw [hstart]
    refine ⟨hmf.2.1, ?_⟩
    rcases hstop with hstop | ⟨next, hnext, hstop⟩ <;> rw [hstop]
    · obtain ⟨-, hclose, hin⟩ := h.object ht ho
      exact (trailingCommaEnd_bounds hmf.2.2 (hin.bounds m hm).2.2 hclose).2.2
    · exact (below (Tree.child_mem_nodes hnext)).2.1
  | key _ hv => exact ⟨(h.fits ht).2.1, (below (Tree.child_mem_nodes (Tree.value?_mem hv))).2.1⟩
  | line _ hc =>
    have hcf := below (Tree.child_mem_nodes hc)
    exact ⟨hcf.2.1, (lineBreakEnd_bounds hcf.2.2).2⟩

theorem cut_laminar_self (h : Layout source program) (ht : t ∈ program.nodes) {r s : Span}
    (hr : CutAt source t r) (hs : CutAt source t s) : r.Laminar s := by
  have hrt := h.cut_contains ht hr
  have hst := h.cut_contains ht hs
  -- a node of one kind has no cuts of another kind
  cases hr with
  | whole _ => exact Or.inr (Or.inl hst)
  | front hk ha =>
    cases hs with
    | whole _ => exact Or.inr (Or.inr hrt)
    | front _ ha' => rw [ha] at ha'; cases ha'; exact Or.inr (Or.inl (Span.contains_self _))
    | back _ ha' =>
      rw [ha] at ha'; cases ha'
      exact Or.inl (Or.inl (h.argument_bounds ht (Tree.arguments_mem ha)).2.1)
    | member hk' _ | key hk' _ | line hk' _ => rw [hk] at hk'; cases hk'
  | back hk ha =>
    cases hs with
    | whole _ => exact Or.inr (Or.inr hrt)
    | front _ ha' =>
      rw [ha] at ha'; cases ha'
      exact Or.inl (Or.inr (h.argument_bounds ht (Tree.arguments_mem ha)).2.1)
    | back _ ha' => rw [ha] at ha'; cases ha'; exact Or.inr (Or.inl (Span.contains_self _))
    | member hk' _ | key hk' _ | line hk' _ => rw [hk] at hk'; cases hk'
  | member hk hr =>
    cases hs with
    | whole _ => exact Or.inr (Or.inr hrt)
    | member _ hs =>
      rcases memberRanges_eq_or_apart (h.object ht hk).2.2 (h.member_comma ht hk) r hr s hs with rfl | hap
      · exact Or.inr (Or.inl (Span.contains_self _))
      · exact Or.inl hap
    | front hk' _ | back hk' _ | key hk' _ | line hk' _ => rw [hk] at hk'; cases hk'
  | key hk hv =>
    cases hs with
    | whole _ => exact Or.inr (Or.inr hrt)
    | key _ hv' => rw [hv] at hv'; cases hv'; exact Or.inr (Or.inl (Span.contains_self _))
    | front hk' _ | back hk' _ | member hk' _ | line hk' _ => rw [hk] at hk'; cases hk'
  | @line hk c hc =>
    cases hs with
    | whole _ => exact Or.inr (Or.inr hrt)
    | @line _ d hd =>
      have hcf := h.fits (Tree.nodes_trans ht (Tree.child_mem_nodes hc))
      have hdf := h.fits (Tree.nodes_trans ht (Tree.child_mem_nodes hd))
      rcases (h.parts ht).eq_or_apart c hc d hd with rfl | hap | hap
      · exact Or.inr (Or.inl (Span.contains_self _))
      · exact Or.inl (Or.inl (lineBreakEnd_le hcf.2.2 hap hdf.2.1 ((h.statements ht hk).2 d hd)))
      · exact Or.inl (Or.inr (lineBreakEnd_le hdf.2.2 hap hcf.2.1 ((h.statements ht hk).2 c hc)))
    | front hk' _ | back hk' _ | member hk' _ | key hk' _ => rw [hk] at hk'; cases hk'

theorem cut_spare (h : Layout source program) (ht : t ∈ program.nodes) {r : Span} (hr : CutAt source t r)
    {c n : Tree} (hc : c ∈ t.children) (hn : n ∈ c.nodes) (hparen : n.kind ≠ .parenthesized) :
    r.contains n.span = true ∨ r.Apart n.span := by
  have hcp := Tree.nodes_trans ht (Tree.child_mem_nodes hc)
  have hcn := Span.contains_iff.mp (h.contains hcp hn)
  -- it is enough to know it of the part that `n` is in
  have part : r.contains c.span = true ∨ r.Apart c.span → r.contains n.span = true ∨ r.Apart n.span := by
    rintro (hrc | hrc)
    · exact Or.inl (Span.contains_trans hrc (Span.contains_iff.mpr hcn))
    · exact Or.inr (hrc.mono (Span.contains_self r) (Span.contains_iff.mpr hcn))
  have hct := (h.parts ht).bounds c hc
  cases hr with
  | whole _ => exact Or.inl (h.contains ht (Tree.mem_nodes_of_child hc hn))
  | @front _ _ argument ha =>
    have harg := Tree.arguments_mem ha
    have hargp := Tree.nodes_trans ht (Tree.child_mem_nodes harg)
    have hin := Span.contains_iff.mp (h.contains hargp argument.stripParens_mem)
    have hinp := Tree.nodes_trans hargp argument.stripParens_mem
    have hord := h.ordered hinp
    rcases (h.parts ht).eq_or_apart c hc argument harg with rfl | hbefore | hafter
    · have hninner := Span.contains_iff.mp (h.contains hinp (Tree.mem_stripParens_of_kind hn hparen))
      exact Or.inr (Or.inl hninner.1)
    · exact part (Or.inl (Span.contains_iff.mpr ⟨hct.1, Nat.le_trans hbefore hin.1⟩))
    · exact part (Or.inr (Or.inl (by simp only; omega)))
  | @back _ _ argument ha =>
    have harg := Tree.arguments_mem ha
    have hargp := Tree.nodes_trans ht (Tree.child_mem_nodes harg)
    have hin := Span.contains_iff.mp (h.contains hargp argument.stripParens_mem)
    have hinp := Tree.nodes_trans hargp argument.stripParens_mem
    have hord := h.ordered hinp
    rcases (h.parts ht).eq_or_apart c hc argument harg with rfl | hbefore | hafter
    · have hninner := Span.contains_iff.mp (h.contains hinp (Tree.mem_stripParens_of_kind hn hparen))
      exact Or.inr (Or.inr hninner.2)
    · exact part (Or.inr (Or.inr (by simp only; omega)))
    · exact part (Or.inl (Span.contains_iff.mpr ⟨Nat.le_trans hin.2 hafter, hct.2.2⟩))
  | member hk hr => exact part (memberRanges_spare (h.object ht hk).2.2 (h.member_comma ht hk) r hr c hc)
  | @key _ _ _ _ _ value hv =>
    have hval := (h.parts ht).bounds value (Tree.value?_mem hv)
    rcases (h.parts ht).eq_or_apart c hc value (Tree.value?_mem hv) with rfl | hbefore | hafter
    · exact part (Or.inr (Or.inl (Nat.le_refl _)))
    · exact part (Or.inl (Span.contains_iff.mpr ⟨hct.1, hbefore⟩))
    · exact part (Or.inr (Or.inl (by simp only; omega)))
  | @line hk d hd =>
    have hdf := h.fits (Tree.nodes_trans ht (Tree.child_mem_nodes hd))
    rcases (h.parts ht).eq_or_apart c hc d hd with rfl | hbefore | hafter
    · exact part (Or.inl (Span.contains_iff.mpr ⟨Nat.le_refl _, (lineBreakEnd_bounds hdf.2.2).1⟩))
    · exact part (Or.inr (Or.inr hbefore))
    · exact part (Or.inr (Or.inl (lineBreakEnd_le hdf.2.2 hafter (h.fits hcp).2.1 ((h.statements ht hk).2 c hc))))

theorem cut_not_parenthesized {r : Span} (hr : CutAt source t r) : t.kind ≠ .parenthesized := by
  intro hp
  cases hr with
  | whole h =>
    rcases h with h | h | h
    · obtain ⟨o, ho⟩ := Tree.isCall_iff.mp h; rw [hp] at ho; cases ho
    · rw [Tree.isObject_iff, hp] at h; cases h
    · obtain ⟨a, c, s, m, hk⟩ := Tree.isProperty_iff.mp h; rw [hp] at hk; cases hk
  | front hk _ | back hk _ | member hk _ | key hk _ | line hk _ => rw [hp] at hk; cases hk

/-! ## Cuts of a program -/

theorem cut_laminar_below (h : Layout source program) (ht : t ∈ program.nodes) {u : Tree} (hu : u ∈ t.nodes)
    {r s : Span} (hr : CutAt source t r) (hs : CutAt source u s) : r.Laminar s := by
  rcases Tree.mem_nodes.mp hu with rfl | ⟨c, hc, huc⟩
  · exact h.cut_laminar_self ht hr hs
  · have hsu := h.cut_contains (Tree.nodes_trans ht hu) hs
    rcases h.cut_spare ht hr hc huc (cut_not_parenthesized hs) with hru | hru
    · exact Or.inr (Or.inl (Span.contains_trans hru hsu))
    · exact Or.inl (hru.mono (Span.contains_self r) hsu)

/-- No two cuts of a program collide. -/
theorem cuts_laminar (h : Layout source program) {r s : Span} (hr : Cut source program r)
    (hs : Cut source program s) : r.Laminar s := by
  obtain ⟨t, ht, hr⟩ := hr
  obtain ⟨u, hu, hs⟩ := hs
  rcases h.nested_or_apart ht hu with htu | hut | hap
  · exact (h.cut_laminar_below hu htu hs hr).symm
  · exact h.cut_laminar_below ht hut hr hs
  · exact Or.inl (hap.mono (h.cut_contains ht hr) (h.cut_contains hu hs))

end Layout

end ComponentMacros
