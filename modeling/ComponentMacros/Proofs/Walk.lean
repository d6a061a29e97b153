import Mathlib.Data.Finset.Max
import ComponentMacros.Proofs.Arrangement
import ComponentMacros.Proofs.Numbering

/-!
# Walking the source

What recorded edits mean, said without sorting and without a cursor: go through
the characters, leave out what lies strictly inside a replaced range, and at any
other position put out what was inserted there and then either the replacement
that starts there or the character. Rendering plain edits puts out exactly that.
-/

namespace ComponentMacros

def Fragment.plain (content : Fragment) : List Char :=
  content.flatMap fun
    | .text t => t.toList
    | .source _ => []

namespace Edit

def isOutermost (calls : List Edit) (e : Edit) : Bool :=
  e.placement = .overwrite &&
    calls.all fun f => f.placement = .overwrite ∧ f.span.contains e.span → f.span = e.span

def isCovered (calls : List Edit) (pos : Nat) : Bool :=
  calls.any fun e => e.isOutermost calls && e.span.start < pos && pos < e.span.stop

def insertionsAt (calls : List Edit) (pos : Nat) : List Edit :=
  (calls.filter fun e => e.placement = .prepend && e.span.start = pos).reverse ++
    calls.filter fun e => e.placement = .append && e.span.start = pos

/-- The outermost replacement that starts at a position. Of equal ranges the first call counts. -/
def replacementAt? (calls : List Edit) (pos : Nat) : Option Edit :=
  calls.find? fun e => e.isOutermost calls && e.span.start = pos

def emittedAt (calls : List Edit) (pos : Nat) (char : List Char) : List Char :=
  if isCovered calls pos then []
  else (insertionsAt calls pos).flatMap
    (·.content.plain) ++ ((replacementAt? calls pos).map (·.content.plain)).getD char

def walk (calls : List Edit) : Nat → List Char → List Char
  | pos, [] => emittedAt calls pos []
  | pos, c :: cs => emittedAt calls pos [c] ++ walk calls (pos + c.utf8Size) cs

def isBuried (calls : List Edit) (e : Edit) : Bool :=
  if e.placement = .overwrite then !e.isOutermost calls else isCovered calls e.span.start

def unreplaced (calls : List Edit) : Nat → List Char → List Char
  | _, [] => []
  | pos, c :: cs =>
    if calls.any fun e => e.placement = .overwrite && e.span.start ≤ pos && pos < e.span.stop then
      unreplaced calls (pos + c.utf8Size) cs
    else c :: unreplaced calls (pos + c.utf8Size) cs

def blank (e : Edit) : Edit := { e with content := [] }

/-- Edits that only have texts, at positions of the source, and replace ranges that do not collide. -/
structure Plain (source : List Char) (calls : List Edit) : Prop where
  texts : ∀ e ∈ calls, ∀ range, .source range ∉ e.content
  fits : ∀ e ∈ calls, e.span.Fits source
  point : ∀ e ∈ calls, e.placement ≠ .overwrite → e.span.stop = e.span.start
  proper : ∀ e ∈ calls, e.placement = .overwrite → e.span.start < e.span.stop
  laminar : ∀ e ∈ calls, ∀ f ∈ calls, e.placement = .overwrite → f.placement = .overwrite → e.span.Laminar f.span

/-! ## Outermost ranges -/

theorem isOutermost_iff {calls : List Edit} {e : Edit} : e.isOutermost calls = true ↔ e.placement = .overwrite ∧
    ∀ f ∈ calls, f.placement = .overwrite → f.span.contains e.span = true → f.span = e.span := by
  simp only [isOutermost, Bool.and_eq_true, List.all_eq_true, decide_eq_true_eq, and_imp]

section
variable {source : List Char} {calls : List Edit}

theorem Plain.exists_outermost (h : Plain source calls) {e : Edit} (he : e ∈ calls)
    (ho : e.placement = .overwrite) :
    ∃ o ∈ calls, o.isOutermost calls = true ∧ o.span.contains e.span = true := by
  -- a longest one of the ranges around that of `e`
  have hne : (calls.filter fun f => f.placement = .overwrite && f.span.contains e.span).toFinset.Nonempty :=
    ⟨e, by simp [he, ho, Span.contains_self]⟩
  obtain ⟨o, hmem, hmax⟩ := Finset.exists_max_image _ (fun f : Edit => f.span.stop - f.span.start) hne
  simp only [List.mem_toFinset, List.mem_filter, Bool.and_eq_true, decide_eq_true_eq] at hmem hmax
  obtain ⟨hmem, hover, hin⟩ := hmem
  refine ⟨o, hmem, isOutermost_iff.mpr ⟨hover, ?_⟩, hin⟩
  intro f hf hfo hc
  have hlen := hmax f ⟨hf, hfo, Span.contains_trans hc hin⟩
  have hproper := h.proper o hmem hover
  rw [Span.contains_iff] at hc
  cases hfs : f.span with
  | mk start stop =>
    cases hos : o.span with
    | mk start' stop' =>
      simp only [hfs, hos, Span.mk.injEq] at hc hlen hproper ⊢
      omega

theorem Plain.isCovered_iff (h : Plain source calls) {pos : Nat} : isCovered calls pos = true ↔
    ∃ e ∈ calls, e.placement = .overwrite ∧ e.span.start < pos ∧ pos < e.span.stop := by
  simp only [isCovered, List.any_eq_true, Bool.and_eq_true, decide_eq_true_eq]
  constructor
  · rintro ⟨e, he, ⟨ho, hlo⟩, hhi⟩
    exact ⟨e, he, (isOutermost_iff.mp ho).1, hlo, hhi⟩
  · rintro ⟨e, he, ho, hlo, hhi⟩
    obtain ⟨o, hmem, hout, hc⟩ := h.exists_outermost he ho
    rw [Span.contains_iff] at hc
    exact ⟨o, hmem, ⟨hout, by omega⟩, by omega⟩

theorem Plain.isOutermost_of_longest (h : Plain source calls) {o : Edit} (ho : o ∈ calls)
    (hover : o.placement = .overwrite) (hfree : isCovered calls o.span.start = false)
    (hlong : ∀ f ∈ calls, f.placement = .overwrite → f.span.start = o.span.start → f.span.stop ≤ o.span.stop) :
    o.isOutermost calls = true := by
  refine isOutermost_iff.mpr ⟨hover, fun f hf hfo hc => ?_⟩
  have hproper := h.proper o ho hover
  rw [Span.contains_iff] at hc
  by_cases hstart : f.span.start = o.span.start
  · have hstop := hlong f hf hfo hstart
    rw [show f.span = ⟨f.span.start, f.span.stop⟩ from rfl, hstart, show f.span.stop = o.span.stop by omega]
  · rw [Bool.eq_false_iff] at hfree
    exact absurd (h.isCovered_iff.mpr ⟨f, hf, hfo, by omega, by omega⟩) hfree

theorem Plain.stop_uncovered (h : Plain source calls) {o : Edit} (ho : o ∈ calls)
    (hout : o.isOutermost calls = true) : isCovered calls o.span.stop = false := by
  rw [Bool.eq_false_iff]
  intro hcov
  obtain ⟨e, he, heo, hlo, hhi⟩ := h.isCovered_iff.mp hcov
  obtain ⟨hover, houter⟩ := isOutermost_iff.mp hout
  have hproper := h.proper o ho hover
  rcases h.laminar e he o ho heo hover with hap | hc | hc
  · unfold Span.Apart at hap; omega
  · have := houter e he heo hc
    rw [this] at hhi; omega
  · rw [Span.contains_iff] at hc; omega

/-! ## The edits at one position -/

theorem arrange_later (pos : Nat) : arrange (calls.filter (pos ≤ ·.span.start)) =
    arrange (calls.filter (·.span.start = pos)) ++ arrange (calls.filter (pos < ·.span.start)) := by
  rw [arrange_split_at (Nat.le_succ pos)]
  congr 2
  apply List.filter_congr
  intro e _
  exact decide_eq_decide.mpr (by omega)

theorem arrange_here (pos : Nat) : arrange (calls.filter (·.span.start = pos)) =
    arrange (calls.filter fun e => e.placement ≠ .overwrite && e.span.start = pos) ++
      arrange (calls.filter fun e => e.placement = .overwrite && e.span.start = pos) := by
  rw [arrange_split (p := fun e => decide (e.placement ≠ .overwrite)) fun a ha b hb hle hpb => ?_]
  · rw [List.filter_filter, List.filter_filter]
    simp
  · simp only [List.mem_filter, decide_eq_true_eq] at ha hb hpb ⊢
    intro hpa
    rw [le_iff, hpa] at hle
    rcases hle with hlt | ⟨-, hrank | ⟨hp, -⟩⟩
    · omega
    · cases hq : b.placement <;> rw [hq] at hrank <;> exact absurd hrank (by decide)
    · exact hpb hp.symm

theorem le_of_tie {a b : Edit} (hstart : a.span.start = b.span.start) (hplacement : a.placement = b.placement)
    (hstop : a.placement = .overwrite → b.span.stop ≤ a.span.stop) : a.le b = true :=
  le_iff.mpr (Or.inr ⟨hstart, Or.inr ⟨hplacement, hstop⟩⟩)

theorem arrange_inserted (pos : Nat) :
    arrange (calls.filter fun e => e.placement ≠ .overwrite && e.span.start = pos) = insertionsAt calls pos := by
  have hfirst : (calls.filter fun e => e.placement ≠ .overwrite && e.span.start = pos).filter
      (·.placement = .prepend) = calls.filter fun e => e.placement = .prepend && e.span.start = pos := by
    rw [List.filter_filter]
    apply List.filter_congr
    intro e _
    cases e.placement <;> simp
  have hrest : (calls.filter fun e => e.placement ≠ .overwrite && e.span.start = pos).filter
      (·.placement ≠ .prepend) = calls.filter fun e => e.placement = .append && e.span.start = pos := by
    rw [List.filter_filter]
    apply List.filter_congr
    intro e _
    cases e.placement <;> simp
  have htie : ∀ q : Placement, q ≠ .overwrite →
    ∀ a ∈ calls.filter (fun e => e.placement = q && e.span.start = pos),
      ∀ b ∈ calls.filter (fun e => e.placement = q && e.span.start = pos), a.le b = true := by
    intro q hq a ha b hb
    simp only [List.mem_filter, Bool.and_eq_true, decide_eq_true_eq] at ha hb
    exact le_of_tie (ha.2.2.trans hb.2.2.symm) (ha.2.1.trans hb.2.1.symm) fun ho => absurd (ha.2.1 ▸ ho) hq
  rw [arrange, hfirst, hrest]
  apply sort_eq_self
  apply List.pairwise_append.mpr
  refine ⟨List.pairwise_reverse.mpr ?_, ?_, ?_⟩
  · exact List.pairwise_of_forall_mem_list fun a ha b hb => htie .prepend (by decide) b hb a ha
  · exact List.pairwise_of_forall_mem_list (htie .append (by decide))
  · intro a ha b hb
    simp only [List.mem_reverse, List.mem_filter, Bool.and_eq_true, decide_eq_true_eq] at ha hb
    exact le_iff.mpr (Or.inr ⟨ha.2.2.trans hb.2.2.symm, Or.inl (by rw [ha.2.1, hb.2.1]; decide)⟩)

/-- The edits from a position on, as they are rendered: what is inserted there, what is replaced
from there, and what starts later. -/
theorem arrange_from (pos : Nat) : arrange (calls.filter (pos ≤ ·.span.start)) = insertionsAt calls pos ++
    (arrange (calls.filter fun e => e.placement = .overwrite && e.span.start = pos) ++
      arrange (calls.filter (pos < ·.span.start))) := by
  rw [arrange_later, arrange_here, arrange_inserted, List.append_assoc]

/-- The first replacement rendered at an uncovered position is the one the walk takes there. -/
theorem Plain.replacementAt?_eq (h : Plain source calls) {pos : Nat} (hfree : isCovered calls pos = false)
    {o : Edit} {os : List Edit}
    (hat : arrange (calls.filter fun e => e.placement = .overwrite && e.span.start = pos) = o :: os) :
    o.isOutermost calls = true ∧ replacementAt? calls pos = some o := by
  have hmem : ∀ {f : Edit}, f ∈ o :: os ↔ f ∈ calls ∧ f.placement = .overwrite ∧ f.span.start = pos := by
    intro f; rw [← hat, mem_arrange]; simp
  obtain ⟨ho, hover, hpos⟩ := hmem.mp (List.mem_cons_self ..)
  have hsorted := arrange_pairwise (calls.filter fun e => e.placement = .overwrite && e.span.start = pos)
  rw [hat] at hsorted
  have hlong : ∀ f ∈ calls, f.placement = .overwrite → f.span.start = o.span.start →
      f.span.stop ≤ o.span.stop := by
    intro f hf hfo hstart
    rcases List.mem_cons.mp (hmem.mpr ⟨hf, hfo, hstart.trans hpos⟩) with rfl | hos
    · exact Nat.le_refl _
    · rcases le_iff.mp ((List.pairwise_cons.mp hsorted).1 f hos) with hlt | ⟨-, hrank | ⟨-, hstop⟩⟩
      · omega
      · rw [hover, hfo] at hrank; exact absurd hrank (Nat.lt_irrefl _)
      · exact hstop hover
  have hout := h.isOutermost_of_longest ho hover (by rw [hpos]; exact hfree) hlong
  refine ⟨hout, ?_⟩
  -- the outermost ones at `pos` all have the range of `o`, so they stay in the order of the calls
  have hsame : ∀ f ∈ calls, (f.isOutermost calls && decide (f.span.start = pos)) =
      (decide (f.span = o.span) && (decide (f.placement = .overwrite) && decide (f.span.start = pos))) := by
    intro f hf
    by_cases hfo : f.placement = .overwrite
    · by_cases hstart : f.span.start = pos
      · have hc : o.span.contains f.span = true :=
          Span.contains_iff.mpr ⟨by omega, hlong f hf hfo (hstart.trans hpos.symm)⟩
        have hiff : f.isOutermost calls = true ↔ f.span = o.span := by
          constructor
          · intro hf; exact ((isOutermost_iff.mp hf).2 o ho hover hc).symm
          · intro heq; rw [isOutermost_iff, heq]; exact ⟨hfo, (isOutermost_iff.mp hout).2⟩
        rw [Bool.eq_iff_iff]
        simp [hiff, hfo, hstart]
      · simp [hstart]
    · simp [hfo, isOutermost]
  have hties : arrange (calls.filter fun f => f.isOutermost calls && f.span.start = pos) =
      calls.filter fun f => f.isOutermost calls && f.span.start = pos := by
    have hall : ∀ f ∈ calls.filter (fun f => f.isOutermost calls && f.span.start = pos),
        f.placement = .overwrite ∧ f.span = o.span := by
      intro f hf
      obtain ⟨hf, hq⟩ := List.mem_filter.mp hf
      rw [hsame f hf] at hq
      simp only [Bool.and_eq_true, decide_eq_true_eq] at hq
      exact ⟨hq.2.1, hq.1⟩
    rw [arrange, List.filter_eq_nil_iff.mpr fun f hf => by simp [(hall f hf).1],
      List.filter_eq_self.mpr fun f hf => by simp [(hall f hf).1], List.reverse_nil, List.nil_append]
    apply sort_eq_self
    apply List.pairwise_of_forall_mem_list
    intro a ha b hb
    exact le_of_tie (by rw [(hall a ha).2, (hall b hb).2]) ((hall a ha).1.trans (hall b hb).1.symm)
      fun _ => by rw [(hall a ha).2, (hall b hb).2]
  have hhead : (calls.filter fun f => f.isOutermost calls && f.span.start = pos) =
      (o :: os).filter fun f => f.span = o.span := by
    rw [← hties, List.filter_congr hsame, ← List.filter_filter, ← arrange_filter, hat]
  rw [replacementAt?, ← List.head?_filter, hhead]
  simp

/-! ## Positions -/

theorem emittedAt_covered {pos : Nat} (h : isCovered calls pos = true) (char : List Char) :
    emittedAt calls pos char = [] := by
  simp [emittedAt, h]

theorem Plain.walk_skip (h : Plain source calls) {o : Edit} (ho : o ∈ calls) (hover : o.placement = .overwrite)
    {rest : List Char} : ∀ (chars : List Char) (pos : Nat), o.span.start < pos → pos ≤ o.span.stop →
      dropBytes chars (o.span.stop - pos) = some rest → walk calls pos chars = walk calls o.span.stop rest
  | chars, pos, hlo, hhi, hd => by
    by_cases heq : pos = o.span.stop
    · rw [heq, Nat.sub_self, dropBytes_zero, Option.some.injEq] at hd
      rw [heq, hd]
    have hcov : isCovered calls pos = true := h.isCovered_iff.mpr ⟨o, ho, hover, hlo, by omega⟩
    cases chars with
    | nil =>
      obtain ⟨n, hn⟩ : ∃ n, o.span.stop - pos = n + 1 := ⟨o.span.stop - pos - 1, by omega⟩
      rw [hn] at hd
      cases hd
    | cons c cs =>
      by_cases hc : c.utf8Size ≤ o.span.stop - pos
      · rw [dropBytes_cons c cs hc, Nat.sub_sub] at hd
        rw [walk, emittedAt_covered hcov, List.nil_append]
        exact h.walk_skip ho hover cs (pos + c.utf8Size) (by omega) (by omega) hd
      · rw [dropBytes_cons_none c cs (by omega) (by omega)] at hd
        cases hd

end

end Edit

/-! ## Rendering -/

theorem renderContent_plain (inner : Span → Except RenderError (List Char)) : ∀ {content : Fragment},
    (∀ range, .source range ∉ content) → Draft.renderContent inner content = .ok content.plain
  | [], _ => rfl
  | .text t :: pieces, h => by
    have ih := @renderContent_plain inner pieces fun range hr => h range (List.mem_cons_of_mem _ hr)
    rw [Draft.renderContent, ih]
    rfl
  | .source range :: pieces, h => absurd (List.mem_cons_self ..) (h range)

theorem le_of_isBoundary {text rest : List Char} {c : Char} {pos next : Nat}
    (hd : dropBytes text pos = some (c :: rest))
    (hlt : pos < next) (hnext : IsBoundary text next) : pos + c.utf8Size ≤ next := by
  have hadd := dropBytes_add (b := next - pos) hd
  rw [Nat.add_sub_cancel' (Nat.le_of_lt hlt)] at hadd
  by_contra hshort
  rw [dropBytes_cons_none c rest (by omega) (by omega)] at hadd
  rw [IsBoundary, hadd] at hnext
  cases hnext

theorem eq_length_of_dropBytes_nil : ∀ {text : List Char} {pos : Nat}, dropBytes text pos = some [] →
    pos = byteLength text
  | text, 0, h => by
    rw [dropBytes_zero, Option.some.injEq] at h
    rw [h]; rfl
  | [], n + 1, h => by cases h
  | c :: cs, n + 1, h => by
    rw [dropBytes] at h
    split at h
    · have := eq_length_of_dropBytes_nil h
      rw [byteLength_cons]; omega
    · cases h

section
variable {source : List Char} {calls : List Edit} {draft : Draft} {inner : Span → Except RenderError (List Char)}

theorem slice_char {pos : Nat} {c : Char} {cs : List Char} (h : dropBytes draft.source pos = some (c :: cs)) :
    draft.slice ⟨pos, pos + c.utf8Size⟩ = .ok [c] := by
  obtain ⟨n, hn⟩ : ∃ n, c.utf8Size = n + 1 := ⟨c.utf8Size - 1, by have := c.utf8Size_pos; omega⟩
  apply Draft.slice_eq_ok.mpr
  simp [slice?, h, hn, takeBytes]

theorem splice_insertions {pos stop : Nat} (hpos : IsBoundary draft.source pos) {later : List Edit} {b : List Char}
    (hb : draft.splice inner stop pos later = .ok b) : ∀ {es : List Edit}, (∀ e ∈ es, e.span = ⟨pos, pos⟩) →
      (∀ e ∈ es, ∀ range, .source range ∉ e.content) →
        draft.splice inner stop pos (es ++ later) = .ok (es.flatMap (·.content.plain) ++ b)
  | [], _, _ => hb
  | e :: es, hspan, htexts => by
    have hhere := hspan e (List.mem_cons_self ..)
    have ih := splice_insertions hpos hb (fun f hf => hspan f (List.mem_cons_of_mem _ hf))
      fun f hf => htexts f (List.mem_cons_of_mem _ hf)
    apply (Draft.splice_cons (by rw [hhere])).mpr
    refine ⟨[], e.content.plain, es.flatMap (·.content.plain) ++ b, ?_,
      renderContent_plain inner (htexts e (List.mem_cons_self ..)), ?_, ?_⟩
    · rw [hhere]; exact Draft.slice_self hpos
    · rw [hhere]; exact ih
    · simp

namespace Edit

theorem Plain.splice_insertionsAt (h : Plain draft.source calls) {pos stop : Nat}
    (hpos : IsBoundary draft.source pos)
    {later : List Edit} {b : List Char} (hb : draft.splice inner stop pos later = .ok b) :
    draft.splice inner stop pos (insertionsAt calls pos ++ later) =
      .ok ((insertionsAt calls pos).flatMap (·.content.plain) ++ b) := by
  have hmem : ∀ e ∈ insertionsAt calls pos, e ∈ calls ∧ e.placement ≠ .overwrite ∧ e.span.start = pos := by
    intro e he
    simp only [insertionsAt, List.mem_append, List.mem_reverse, List.mem_filter, Bool.and_eq_true,
      decide_eq_true_eq] at he
    rcases he with ⟨he, hp, hs⟩ | ⟨he, hp, hs⟩ <;> exact ⟨he, by rw [hp]; decide, hs⟩
  apply splice_insertions hpos hb
  · intro e he
    obtain ⟨he, hp, hs⟩ := hmem e he
    rw [← hs]
    exact congrArg (Span.mk _) (h.point e he hp)
  · intro e he
    exact h.texts e (hmem e he).1

theorem Plain.next_uncovered (h : Plain source calls) {pos : Nat} {c : Char} {cs : List Char}
    (hd : dropBytes source pos = some (c :: cs)) (hfree : isCovered calls pos = false)
    (hnone : ∀ e ∈ calls, e.placement = .overwrite → e.span.start ≠ pos) :
    isCovered calls (pos + c.utf8Size) = false := by
  rw [Bool.eq_false_iff] at hfree ⊢
  intro hcov
  obtain ⟨e, he, ho, hlo, hhi⟩ := h.isCovered_iff.mp hcov
  apply hfree
  have hne := hnone e he ho
  by_cases hlt : pos < e.span.start
  · have := le_of_isBoundary hd hlt (h.fits e he).2.1
    omega
  · have := c.utf8Size_pos
    exact h.isCovered_iff.mpr ⟨e, he, ho, by omega, by omega⟩

theorem Plain.walk_replacement (h : Plain source calls) {pos : Nat} {rest after : List Char} {o : Edit}
    (hd : dropBytes source pos = some rest) (hfree : isCovered calls pos = false) (ho : o ∈ calls)
    (hover : o.placement = .overwrite) (hstart : o.span.start = pos)
    (hreplacement : replacementAt? calls pos = some o) (hafter : dropBytes source o.span.stop = some after) :
    walk calls pos rest =
      (insertionsAt calls pos).flatMap (·.content.plain) ++ (o.content.plain ++ walk calls o.span.stop after) := by
  have hproper := h.proper o ho hover
  cases rest with
  | nil =>
    have := eq_length_of_dropBytes_nil hd
    have := (h.fits o ho).2.2.le_length
    omega
  | cons c cs =>
    have hsize := c.utf8Size_pos
    have hnext : pos + c.utf8Size ≤ o.span.stop := le_of_isBoundary hd (by omega) (h.fits o ho).2.2
    have hadd := dropBytes_add (b := o.span.stop - pos) hd
    rw [Nat.add_sub_cancel' (by omega), hafter, dropBytes_cons c cs (by omega), Nat.sub_sub] at hadd
    rw [walk, emittedAt, hfree, hreplacement, h.walk_skip ho hover cs _ (by omega) hnext hadd.symm]
    simp

theorem replacementAt?_eq_none {pos : Nat} (hnone : ∀ e ∈ calls, e.placement = .overwrite → e.span.start ≠ pos) :
    replacementAt? calls pos = none := by
  refine List.find?_eq_none.mpr fun e he hout => ?_
  simp only [Bool.and_eq_true, decide_eq_true_eq] at hout
  exact hnone e he (isOutermost_iff.mp hout.1).1 hout.2

/-- Where nothing is replaced, the insertions come before whatever starts later. -/
theorem arrange_unreplaced {pos : Nat} (hnone : ∀ e ∈ calls, e.placement = .overwrite → e.span.start ≠ pos) :
    arrange (calls.filter (pos ≤ ·.span.start)) =
      insertionsAt calls pos ++ arrange (calls.filter (pos < ·.span.start)) := by
  have hreplaced : calls.filter (fun e => e.placement = .overwrite && e.span.start = pos) = [] := by
    refine List.filter_eq_nil_iff.mpr fun e he hat => ?_
    simp only [Bool.and_eq_true, decide_eq_true_eq] at hat
    exact hnone e he hat.1 hat.2
  rw [arrange_from, hreplaced]
  rfl

theorem Plain.splice_end (h : Plain draft.source calls) {pos : Nat} (hd : dropBytes draft.source pos = some [])
    (hfree : isCovered calls pos = false) (hnone : ∀ e ∈ calls, e.placement = .overwrite → e.span.start ≠ pos) :
    draft.splice inner (byteLength draft.source) pos (arrange (calls.filter (pos ≤ ·.span.start))) =
      .ok (walk calls pos []) := by
  have hpos : IsBoundary draft.source pos := .of_eq hd
  have hend := eq_length_of_dropBytes_nil hd
  have hlater : calls.filter (pos < ·.span.start) = [] := by
    refine List.filter_eq_nil_iff.mpr fun e he => ?_
    have := (h.fits e he).2.1.le_length
    simp only [decide_eq_true_eq]; omega
  rw [arrange_unreplaced hnone, walk, emittedAt, hfree, replacementAt?_eq_none hnone, hlater]
  apply h.splice_insertionsAt hpos
  rw [← hend]
  exact Draft.slice_self hpos

theorem Plain.splice_char (h : Plain draft.source calls) {pos : Nat} {c : Char} {cs : List Char}
    (hd : dropBytes draft.source pos = some (c :: cs)) (hfree : isCovered calls pos = false)
    (hnone : ∀ e ∈ calls, e.placement = .overwrite → e.span.start ≠ pos)
    (hrest : draft.splice inner (byteLength draft.source) (pos + c.utf8Size)
      (arrange (calls.filter (pos + c.utf8Size ≤ ·.span.start))) = .ok (walk calls (pos + c.utf8Size) cs)) :
    draft.splice inner (byteLength draft.source) pos (arrange (calls.filter (pos ≤ ·.span.start))) =
      .ok (walk calls pos (c :: cs)) := by
  have hsize := c.utf8Size_pos
  have hlater : calls.filter (pos < ·.span.start) = calls.filter (pos + c.utf8Size ≤ ·.span.start) := by
    apply List.filter_congr
    intro e he
    apply decide_eq_decide.mpr
    exact ⟨fun hlt => le_of_isBoundary hd hlt (h.fits e he).2.1, by omega⟩
  rw [arrange_unreplaced hnone, walk, emittedAt, hfree, replacementAt?_eq_none hnone, hlater,
    ite_cond_eq_false _ _ (by simp), List.append_assoc]
  apply h.splice_insertionsAt (.of_eq hd)
  apply Draft.splice_copy (slice_char hd) _ hrest
  intro e he
  simpa using (List.mem_filter.mp (mem_arrange.mp he)).2

theorem Plain.splice_replaced (h : Plain draft.source calls) {pos : Nat} {rest : List Char}
    (hd : dropBytes draft.source pos = some rest) (hfree : isCovered calls pos = false) {o : Edit} {os : List Edit}
    (hat : arrange (calls.filter fun e => e.placement = .overwrite && e.span.start = pos) = o :: os)
    {after : List Char} (hafter : dropBytes draft.source o.span.stop = some after)
    (hrest : draft.splice inner (byteLength draft.source) o.span.stop
      (arrange (calls.filter (o.span.stop ≤ ·.span.start))) = .ok (walk calls o.span.stop after)) :
    draft.splice inner (byteLength draft.source) pos (arrange (calls.filter (pos ≤ ·.span.start))) =
      .ok (walk calls pos rest) := by
  have hpos : IsBoundary draft.source pos := .of_eq hd
  have hmem : ∀ f ∈ o :: os, f ∈ calls ∧ f.placement = .overwrite ∧ f.span.start = pos := by
    intro f hf
    rw [← hat, mem_arrange] at hf
    simpa using hf
  obtain ⟨ho, hover, hstart⟩ := hmem o (List.mem_cons_self ..)
  have hproper := h.proper o ho hover
  have hsorted := arrange_pairwise (calls.filter (pos ≤ ·.span.start))
  rw [arrange_from, hat] at hsorted ⊢
  rw [h.walk_replacement hd hfree ho hover hstart (h.replacementAt?_eq hfree hat).2 hafter, List.cons_append]
  apply h.splice_insertionsAt hpos
  apply (Draft.splice_cons (by omega)).mpr
  refine ⟨[], o.content.plain, _, ?_, renderContent_plain inner (h.texts o ho), ?_, rfl⟩
  · rw [hstart]; exact Draft.slice_self hpos
  -- what starts inside of the replaced range is passed over
  have hinside : ∀ f ∈ os, ¬ o.span.stop ≤ f.span.start := by
    intro f hf
    have := (hmem f (List.mem_cons_of_mem _ hf)).2.2
    omega
  rw [List.cons_append] at hsorted
  rw [Draft.splice_filter (List.pairwise_cons.mp (List.pairwise_append.mp hsorted).2.1).2, ← hrest]
  congr 1
  rw [List.filter_append, arrange_filter, List.filter_filter, List.filter_eq_nil_iff.mpr (by simpa using hinside),
    List.nil_append]
  congr 1
  apply List.filter_congr
  intro e _
  rw [← Bool.decide_and]
  exact decide_eq_decide.mpr (by omega)

/-- From any uncovered position on, a splice puts out what a walk does. -/
theorem Plain.splice_eq_walk (h : Plain draft.source calls) (pos : Nat) (rest : List Char)
    (hd : dropBytes draft.source pos = some rest) (hfree : isCovered calls pos = false) :
    draft.splice inner (byteLength draft.source) pos (arrange (calls.filter (pos ≤ ·.span.start))) =
      .ok (walk calls pos rest) := by
  cases hat : arrange (calls.filter fun e => e.placement = .overwrite && e.span.start = pos) with
  | nil =>
    have hnone : ∀ e ∈ calls, e.placement = .overwrite → e.span.start ≠ pos := by
      intro e he ho hs
      have : e ∈ arrange (calls.filter fun e => e.placement = .overwrite && e.span.start = pos) :=
        mem_arrange.mpr (by simp [he, ho, hs])
      rw [hat] at this
      cases this
    cases rest with
    | nil => exact h.splice_end hd hfree hnone
    | cons c cs =>
      have hsize := c.utf8Size_pos
      have hnext : dropBytes draft.source (pos + c.utf8Size) = some cs := by
        rw [dropBytes_add hd, dropBytes_cons c cs (Nat.le_refl _), Nat.sub_self, dropBytes_zero]
      have hlength := (IsBoundary.of_eq hnext).le_length
      have ih := h.splice_eq_walk (pos + c.utf8Size) cs hnext (h.next_uncovered hd hfree hnone)
      exact h.splice_char hd hfree hnone ih
  | cons o os =>
    obtain ⟨ho, hat'⟩ : o ∈ calls ∧ o.placement = .overwrite ∧ o.span.start = pos := by
      have hmem : o ∈ arrange (calls.filter fun e => e.placement = .overwrite && e.span.start = pos) := by
        rw [hat]
        exact List.mem_cons_self ..
      simpa using mem_arrange.mp hmem
    have hproper := h.proper o ho hat'.1
    have hlength := (h.fits o ho).2.2.le_length
    obtain ⟨after, hafter⟩ := isBoundary_iff.mp (h.fits o ho).2.2
    have ih := h.splice_eq_walk o.span.stop after hafter (h.stop_uncovered ho (h.replacementAt?_eq hfree hat).1)
    exact h.splice_replaced hd hfree hat hafter ih
termination_by byteLength draft.source - pos

theorem Plain.recordAll_edits (h : Plain source calls) : (Draft.recordAll ⟨source, []⟩ calls).edits = calls := by
  rw [recordAll_eq]
  apply List.filter_eq_self.mpr
  intro e he
  rw [Bool.not_eq_true', Bool.eq_false_iff]
  intro hself
  obtain ⟨range, hrange, -⟩ := selects_iff.mp hself
  exact h.texts e he range hrange

theorem Plain.render_eq (h : Plain source calls) :
    (Draft.recordAll ⟨source, []⟩ calls).render = .ok (String.ofList (walk calls 0 source)) := by
  have hsource : (Draft.recordAll ⟨source, []⟩ calls).source = source := by rw [recordAll_eq]
  have hall : calls.filter (·.isWithin ⟨0, byteLength source⟩ false) = calls.filter (0 ≤ ·.span.start) := by
    apply List.filter_congr
    intro e he
    have hstart := (h.fits e he).2.1.le_length
    have hstop := (h.fits e he).2.2.le_length
    cases hp : e.placement <;> simp [isWithin, hp, Span.contains, hstart, hstop]
  have hfree : isCovered calls 0 = false := by
    simp [isCovered]
  unfold Draft.render Draft.renderRange
  rw [h.recordAll_edits, hsource, hall]
  have hsplice := @Plain.splice_eq_walk calls (Draft.recordAll ⟨source, []⟩ calls)
    (fun inner => (Draft.recordAll ⟨source, []⟩ calls).renderRange calls.length inner true)
    (by rw [hsource]; exact h) 0 source (by rw [hsource, dropBytes_zero]) hfree
  rw [hsource] at hsplice
  rw [hsplice]
  rfl

/-! ## Buried edits and kept characters -/

theorem Plain.filter (h : Plain source calls) (p : Edit → Bool) : Plain source (calls.filter p) := by
  have hsub : ∀ e ∈ calls.filter p, e ∈ calls := fun e he => (List.mem_filter.mp he).1
  exact ⟨fun e he => h.texts e (hsub e he), fun e he => h.fits e (hsub e he), fun e he => h.point e (hsub e he),
    fun e he => h.proper e (hsub e he), fun e he f hf => h.laminar e (hsub e he) f (hsub f hf)⟩

theorem Plain.blank (h : Plain source calls) : Plain source (calls.map blank) := by
  refine ⟨?_, ?_, ?_, ?_, ?_⟩ <;> simp only [List.forall_mem_map]
  · intro e _ range hrange
    cases hrange
  · exact h.fits
  · exact h.point
  · exact h.proper
  · exact h.laminar

theorem isOutermost_unburied (e : Edit) :
    (!e.isBuried calls && e.isOutermost (calls.filter (!·.isBuried calls))) = e.isOutermost calls := by
  by_cases ho : e.placement = .overwrite
  · by_cases hout : e.isOutermost calls = true
    · have hkept : e.isOutermost (calls.filter (!·.isBuried calls)) = true := by
        refine isOutermost_iff.mpr ⟨ho, fun f hf => ?_⟩
        exact (isOutermost_iff.mp hout).2 f (List.mem_filter.mp hf).1
      rw [hkept]
      simp [isBuried, ho, hout]
    · simp [isBuried, ho, hout]
  · simp [isOutermost, ho]

theorem isCovered_unburied (pos : Nat) :
    isCovered (calls.filter (!·.isBuried calls)) pos = isCovered calls pos := by
  simp only [isCovered, List.any_filter, ← Bool.and_assoc, isOutermost_unburied]

theorem replacementAt?_unburied (pos : Nat) :
    replacementAt? (calls.filter (!·.isBuried calls)) pos = replacementAt? calls pos := by
  simp only [replacementAt?, ← List.head?_filter, List.filter_filter]
  congr 2
  funext e
  rw [← @isOutermost_unburied calls e]
  simp only [Bool.and_comm, Bool.and_left_comm]

theorem insertionsAt_unburied {pos : Nat} (h : isCovered calls pos = false) :
    insertionsAt (calls.filter (!·.isBuried calls)) pos = insertionsAt calls pos := by
  have hkept : ∀ q : Placement, q ≠ .overwrite → ∀ e ∈ calls,
      (decide (e.placement = q) && decide (e.span.start = pos) && !e.isBuried calls) =
        (decide (e.placement = q) && decide (e.span.start = pos)) := by
    intro q hq e _
    by_cases hp : e.placement = q <;> by_cases hs : e.span.start = pos <;> simp [isBuried, hp, hs, hq, h]
  rw [insertionsAt, insertionsAt, List.filter_filter, List.filter_filter,
    List.filter_congr (hkept .prepend (by decide)), List.filter_congr (hkept .append (by decide))]

theorem emittedAt_unburied (pos : Nat) (char : List Char) :
    emittedAt (calls.filter (!·.isBuried calls)) pos char = emittedAt calls pos char := by
  by_cases hcov : isCovered calls pos = true
  · rw [emittedAt_covered hcov, emittedAt_covered (by rw [isCovered_unburied, hcov])]
  · rw [emittedAt, emittedAt, isCovered_unburied, replacementAt?_unburied,
      insertionsAt_unburied (by simpa using hcov)]

theorem walk_unburied : ∀ (chars : List Char) (pos : Nat),
    walk (calls.filter (!·.isBuried calls)) pos chars = walk calls pos chars
  | [], pos => emittedAt_unburied pos []
  | c :: cs, pos => by rw [walk, walk, emittedAt_unburied, walk_unburied cs]

/-- Without contents a position puts out its character, unless a replaced range reaches over it. -/
theorem Plain.emittedAt_blank (h : Plain source calls) (pos : Nat) (char : List Char) :
    emittedAt (calls.map Edit.blank) pos char =
      if calls.any fun e => e.placement = .overwrite && e.span.start ≤ pos &&
        pos < e.span.stop then [] else char := by
  have hnothing : ∀ e ∈ calls.map Edit.blank, e.content.plain = [] := by
    simp only [List.forall_mem_map]
    intro e _; rfl
  have hinserted : (insertionsAt (calls.map Edit.blank) pos).flatMap (·.content.plain) = [] := by
    apply List.flatMap_eq_nil_iff.mpr
    intro e he
    apply hnothing
    simp only [insertionsAt, List.mem_append, List.mem_reverse, List.mem_filter] at he
    exact he.elim (·.1) (·.1)
  by_cases hcov : isCovered (calls.map Edit.blank) pos = true
  · obtain ⟨e, he, ho, hlo, hhi⟩ := h.blank.isCovered_iff.mp hcov
    obtain ⟨f, hf, rfl⟩ := List.mem_map.mp he
    rw [emittedAt_covered hcov, if_pos]
    exact List.any_eq_true.mpr ⟨f, hf, by simpa using ⟨⟨ho, Nat.le_of_lt hlo⟩, hhi⟩⟩
  have huncovered := fun hc => hcov (h.blank.isCovered_iff.mpr hc)
  rw [emittedAt, if_neg hcov, hinserted, List.nil_append]
  cases hr : replacementAt? (calls.map Edit.blank) pos with
  | some o =>
    have hmem := List.mem_of_find?_eq_some hr
    have hat := List.find?_some hr
    simp only [Bool.and_eq_true, decide_eq_true_eq] at hat
    have hover := (isOutermost_iff.mp hat.1).1
    have hproper := h.blank.proper o hmem hover
    obtain ⟨f, hf, rfl⟩ := List.mem_map.mp hmem
    rw [if_pos]
    · exact hnothing _ hmem
    · exact List.any_eq_true.mpr
        ⟨f, hf, by simpa using ⟨⟨hover, Nat.le_of_eq hat.2⟩, by rw [← hat.2]; exact hproper⟩⟩
  | none =>
    rw [if_neg]
    · rfl
    intro hany
    obtain ⟨e, he, hin⟩ := List.any_eq_true.mp hany
    simp only [Bool.and_eq_true, decide_eq_true_eq] at hin
    obtain ⟨⟨ho, hlo⟩, hhi⟩ := hin
    -- an outermost range around it would have to start here
    obtain ⟨o, hmem, hout, hc⟩ := h.blank.exists_outermost (List.mem_map_of_mem he) (e := e.blank) ho
    have hc := Span.contains_iff.mp hc
    have hover := (isOutermost_iff.mp hout).1
    have hstart : o.span.start = pos := by
      by_contra hne
      exact huncovered ⟨o, hmem, hover, Nat.lt_of_le_of_ne (Nat.le_trans hc.1 hlo) hne,
        Nat.lt_of_lt_of_le hhi hc.2⟩
    exact absurd (by simpa using ⟨hout, hstart⟩) (List.find?_eq_none.mp hr o hmem)

theorem Plain.walk_blank (h : Plain source calls) : ∀ (chars : List Char) (pos : Nat),
    walk (calls.map Edit.blank) pos chars = unreplaced calls pos chars
  | [], pos => by rw [walk, h.emittedAt_blank, ite_self]; rfl
  | c :: cs, pos => by
    rw [walk, h.emittedAt_blank, h.walk_blank cs, unreplaced]
    split <;> rfl

end Edit

end

/-- Calls on a text of four characters: nested ranges with a common start or end, a range replaced
twice, ranges that touch, and insertions inside and on the edges of them. -/
def crowdedCalls : List Edit :=
  [.append 1 "a", .overwrite ⟨1, 4⟩ "U", .prepend 1 "b", .overwrite ⟨1, 5⟩ "V", .overwrite ⟨0, 1⟩ "W",
    .prepend 1 "c", .append 1 "d", .overwrite ⟨1, 5⟩ "X", .remove 4 5, .append 4 "e", .prepend 5 "f",
      .append 6 "g", .prepend 0 "h"]

/-- A buffer of plain edits renders to what a walk over the source puts out, as long as words can say where the
source ends and which call came first. Edits buried in replaced ranges may be left out, and if edits put out
nothing, the characters that are not replaced are left. A draft of the same calls renders the same. -/
theorem render_eq_walk (source : String) (calls : List Edit) (hlength : byteLength source.toList < UInt32.size)
    (hcalls : calls.length ≤ UInt32.size) (h : Edit.Plain source.toList calls) :
    ((Buffer.ofText source).recordAll calls).render = .ok (String.ofList (Edit.walk calls 0 source.toList)) ∧
    ((Buffer.ofText source).recordAll (calls.filter (!·.isBuried calls))).render =
      ((Buffer.ofText source).recordAll calls).render ∧
    ((Buffer.ofText source).recordAll (calls.map Edit.blank)).render =
      .ok (String.ofList (Edit.unreplaced calls 0 source.toList)) ∧
    ((Draft.ofText source).recordAll calls).render = ((Buffer.ofText source).recordAll calls).render := by
  have hwalk : ((Buffer.ofText source).recordAll calls).render =
      .ok (String.ofList (Edit.walk calls 0 source.toList)) :=
    (Buffer.render_eq hlength hcalls).trans h.render_eq
  refine ⟨hwalk, ?_, ?_, (Buffer.render_eq hlength hcalls).symm⟩
  · have hkept : (calls.filter (!·.isBuried calls)).length ≤ UInt32.size :=
      Nat.le_trans (List.length_filter_le ..) hcalls
    have hless := (Buffer.render_eq hlength hkept).trans (h.filter _).render_eq
    rw [hless, hwalk, Edit.walk_unburied]
  · have hblank : (calls.map Edit.blank).length ≤ UInt32.size := by rwa [List.length_map]
    have hgone := (Buffer.render_eq hlength hblank).trans h.blank.render_eq
    rw [hgone, h.walk_blank]

theorem render_eq_walk_crowded : byteLength "x€yz".toList < UInt32.size ∧ crowdedCalls.length ≤ UInt32.size ∧
    Edit.Plain "x€yz".toList crowdedCalls ∧
    ((Buffer.ofText "x€yz").recordAll crowdedCalls).render = .ok "hWcbadVfzg" ∧
    ((Buffer.ofText "x€yz").recordAll (crowdedCalls.filter (!·.isBuried crowdedCalls))).render =
      ((Buffer.ofText "x€yz").recordAll crowdedCalls).render ∧
    ((Buffer.ofText "x€yz").recordAll (crowdedCalls.map Edit.blank)).render = .ok "z" := by
  have hlength : byteLength "x€yz".toList < UInt32.size := by decide +kernel
  have hcalls : crowdedCalls.length ≤ UInt32.size := by decide +kernel
  have hplain : Edit.Plain "x€yz".toList crowdedCalls :=
    ⟨by simp [crowdedCalls, Edit.append, Edit.prepend, Edit.overwrite, Edit.remove, Fragment.ofText],
      by decide +kernel, by decide +kernel, by decide +kernel, by decide +kernel⟩
  obtain ⟨hrender, hburied, hblank, -⟩ := render_eq_walk "x€yz" crowdedCalls hlength hcalls hplain
  refine ⟨hlength, hcalls, hplain, ?_, hburied, ?_⟩
  · rw [hrender]; decide +kernel
  · rw [hblank]; decide +kernel

end ComponentMacros
