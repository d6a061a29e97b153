import ComponentMacros.Expansion.Member
import ComponentMacros.Transform

/-!
# Character boundaries

An offset is a boundary if a character starts there or the text ends. A range
between two boundaries can be cut out, and a scan over characters of one class
stops no later than any character that is not of the class.
-/

namespace ComponentMacros

/-- A character starts at `pos`, or the text ends there. -/
def IsBoundary (text : List Char) (pos : Nat) : Prop :=
  (dropBytes text pos).isSome = true

instance (text : List Char) (pos : Nat) : Decidable (IsBoundary text pos) :=
  inferInstanceAs (Decidable (_ = true))

def Span.Fits (text : List Char) (s : Span) : Prop :=
  s.start ≤ s.stop ∧ IsBoundary text s.start ∧ IsBoundary text s.stop

instance (text : List Char) (s : Span) : Decidable (s.Fits text) :=
  inferInstanceAs (Decidable (_ ∧ _ ∧ _))

theorem isBoundary_iff {text : List Char} {pos : Nat} :
    IsBoundary text pos ↔ ∃ rest, dropBytes text pos = some rest :=
  Option.isSome_iff_exists

theorem IsBoundary.of_eq {text rest : List Char} {pos : Nat} (h : dropBytes text pos = some rest) :
    IsBoundary text pos := isBoundary_iff.mpr ⟨rest, h⟩

@[simp] theorem dropBytes_zero (text : List Char) : dropBytes text 0 = some text := by
  cases text <;> rfl

theorem dropBytes_cons (c : Char) (cs : List Char) {n : Nat} (h : c.utf8Size ≤ n) :
    dropBytes (c :: cs) n = dropBytes cs (n - c.utf8Size) := by
  obtain ⟨m, rfl⟩ : ∃ m, n = m + 1 := ⟨n - 1, by have := c.utf8Size_pos; omega⟩
  rw [dropBytes, if_pos h]

theorem dropBytes_cons_none (c : Char) (cs : List Char) {n : Nat} (h₀ : 0 < n) (h : n < c.utf8Size) :
    dropBytes (c :: cs) n = none := by
  obtain ⟨m, rfl⟩ : ∃ m, n = m + 1 := ⟨n - 1, by omega⟩
  rw [dropBytes, if_neg (by omega)]

theorem dropBytes_add : ∀ {text : List Char} {a b : Nat} {rest : List Char},
    dropBytes text a = some rest → dropBytes text (a + b) = dropBytes rest b
  | text, 0, b, rest, h => by
    rw [dropBytes_zero, Option.some.injEq] at h
    rw [h, Nat.zero_add]
  | [], a + 1, b, rest, h => by cases h
  | c :: cs, a + 1, b, rest, h => by
    by_cases hc : c.utf8Size ≤ a + 1
    · rw [dropBytes_cons c cs hc] at h
      have ih := dropBytes_add (b := b) h
      rw [dropBytes_cons c cs (by omega), ← ih]
      congr 1; omega
    · rw [dropBytes_cons_none c cs (by omega) (by omega)] at h
      cases h

theorem dropBytes_append (pre suf : List Char) (n : Nat) :
    dropBytes (pre ++ suf) (byteLength pre + n) = dropBytes suf n := by
  induction pre with
  | nil => simp
  | cons c cs ih =>
    rw [List.cons_append, byteLength_cons, dropBytes_cons c _ (by omega), ← ih]
    congr 1; omega

theorem takeBytes_isSome : ∀ (text : List Char) (n : Nat),
    (takeBytes text n).isSome = (dropBytes text n).isSome
  | _, 0 => by simp [takeBytes]
  | [], n + 1 => rfl
  | c :: cs, n + 1 => by
    unfold takeBytes dropBytes
    split
    · rw [Option.isSome_map, takeBytes_isSome]
    · rfl

theorem slice?_isSome_iff {text : List Char} {lo hi : Nat} :
    (slice? text lo hi).isSome = true ↔ Span.Fits text ⟨lo, hi⟩ := by
  unfold slice? Span.Fits
  by_cases h : lo ≤ hi
  · rw [if_pos h]
    cases hd : dropBytes text lo with
    | none => simp [IsBoundary, hd]
    | some rest =>
      have hadd := dropBytes_add (b := hi - lo) hd
      rw [Nat.add_sub_cancel' h] at hadd
      simp only [Option.bind_some, takeBytes_isSome, IsBoundary, hd, hadd, h, true_and,
        Option.isSome_some]
  · simp [h]

theorem isBoundary_zero (text : List Char) : IsBoundary text 0 := IsBoundary.of_eq (dropBytes_zero text)

theorem isBoundary_length (text : List Char) : IsBoundary text (byteLength text) := by
  have h := dropBytes_append text [] 0
  rw [List.append_nil, Nat.add_zero, dropBytes_zero] at h
  exact IsBoundary.of_eq h

theorem IsBoundary.le_length : ∀ {text : List Char} {pos : Nat}, IsBoundary text pos → pos ≤ byteLength text
  | _, 0, _ => Nat.zero_le _
  | [], n + 1, h => by cases h
  | c :: cs, n + 1, h => by
    by_cases hc : c.utf8Size ≤ n + 1
    · unfold IsBoundary at h
      rw [dropBytes_cons c cs hc] at h
      have := @IsBoundary.le_length cs _ h
      rw [byteLength_cons]; omega
    · unfold IsBoundary at h
      rw [dropBytes_cons_none c cs (by omega) (by omega)] at h
      cases h

theorem takeBytes_append (text rest : List Char) : takeBytes (text ++ rest) (byteLength text) = some text := by
  induction text with
  | nil => cases rest <;> rfl
  | cons c text ih =>
    obtain ⟨n, hn⟩ : ∃ n, byteLength (c :: text) = n + 1 :=
      ⟨byteLength (c :: text) - 1, by rw [byteLength_cons]; have := c.utf8Size_pos; omega⟩
    have hsize : n + 1 - c.utf8Size = byteLength text := by rw [← hn, byteLength_cons]; omega
    rw [hn, List.cons_append, takeBytes, if_pos (by rw [← hn, byteLength_cons]; omega), hsize, ih]
    rfl

theorem IsBoundary.cut : ∀ {text : List Char} {n : Nat}, IsBoundary text n →
    ∃ part after, takeBytes text n = some part ∧ dropBytes text n = some after ∧ text = part ++ after ∧
      byteLength part = n
  | text, 0, _ => ⟨[], text, by cases text <;> rfl, dropBytes_zero text, rfl, rfl⟩
  | [], n + 1, h => by cases h
  | c :: cs, n + 1, h => by
    by_cases hc : c.utf8Size ≤ n + 1
    · unfold IsBoundary at h
      rw [dropBytes_cons c cs hc] at h
      obtain ⟨part, after, htake, hdrop, rfl, hlength⟩ := @IsBoundary.cut cs _ h
      refine ⟨c :: part, after, ?_, (dropBytes_cons c _ hc).trans hdrop, rfl, by rw [byteLength_cons]; omega⟩
      rw [takeBytes, if_pos hc, htake]
      rfl
    · unfold IsBoundary at h
      rw [dropBytes_cons_none c cs (by omega) (by omega)] at h
      cases h

theorem byteLength_pos {text : List Char} (h : text ≠ []) : 0 < byteLength text := by
  cases text with
  | nil => exact absurd rfl h
  | cons c cs => exact Nat.add_pos_left c.utf8Size_pos _

/-! ## Scans -/

def charAt (text : List Char) (pos : Nat) : Option Char :=
  (dropBytes text pos).bind (·.head?)

theorem charAt_eq_some {text : List Char} {pos : Nat} {c : Char} :
    charAt text pos = some c ↔ ∃ rest, dropBytes text pos = some (c :: rest) := by
  unfold charAt
  rw [Option.bind_eq_some_iff]
  constructor
  · rintro ⟨_ | ⟨d, rest⟩, hd, hc⟩
    · cases hc
    · cases hc; exact ⟨rest, hd⟩
  · rintro ⟨rest, hd⟩; exact ⟨_, hd, rfl⟩

theorem isBoundary_succ {text : List Char} {pos : Nat} {c : Char} (h : charAt text pos = some c)
    (hc : c.utf8Size = 1) : IsBoundary text (pos + 1) := by
  obtain ⟨rest, hd⟩ := charAt_eq_some.mp h
  have hadd := dropBytes_add (b := 1) hd
  rw [dropBytes_cons c rest (by omega), hc] at hadd
  exact IsBoundary.of_eq (by simpa using hadd)

theorem IsBoundary.of_charAt {text : List Char} {pos : Nat} {c : Char} (h : charAt text pos = some c) :
    IsBoundary text pos := by
  obtain ⟨rest, hd⟩ := charAt_eq_some.mp h
  exact IsBoundary.of_eq hd

theorem head_of_dropBytes : ∀ {pre suf : List Char} {n : Nat} {rest : List Char},
    n < byteLength pre → dropBytes (pre ++ suf) n = some rest → ∃ c ∈ pre, rest.head? = some c
  | [], _, _, _, hn, _ => by cases hn
  | d :: pre, suf, 0, rest, _, h => by
    rw [dropBytes_zero, Option.some.injEq] at h
    exact ⟨d, List.mem_cons_self .., by rw [← h]; rfl⟩
  | d :: pre, suf, n + 1, rest, hn, h => by
    by_cases hd : d.utf8Size ≤ n + 1
    · rw [List.cons_append, dropBytes_cons d _ hd] at h
      rw [byteLength_cons] at hn
      obtain ⟨c, hc, hrest⟩ := head_of_dropBytes (by omega) h
      exact ⟨c, List.mem_cons_of_mem _ hc, hrest⟩
    · rw [List.cons_append, dropBytes_cons_none d _ (by omega) (by omega)] at h
      cases h

/-- A scan that starts at `pos` and passes `pre` ends before any later boundary where no character
of `pre` stands. -/
theorem scan_le {text pre suf : List Char} {pos limit : Nat} (hpos : dropBytes text pos = some (pre ++ suf))
    (hle : pos ≤ limit) (hlimit : IsBoundary text limit) (hpre : ∀ c ∈ pre, charAt text limit ≠ some c) :
    pos + byteLength pre ≤ limit := by
  refine Nat.le_of_not_lt fun hlt => ?_
  obtain ⟨rest, hd⟩ := isBoundary_iff.mp hlimit
  have hadd := dropBytes_add (b := limit - pos) hpos
  rw [Nat.add_sub_cancel' hle, hd] at hadd
  obtain ⟨c, hc, hrest⟩ := head_of_dropBytes (by omega) hadd.symm
  exact hpre c hc (by rw [charAt, hd, Option.bind_some, hrest])

theorem scan_isBoundary {text pre suf : List Char} {pos : Nat}
    (hpos : dropBytes text pos = some (pre ++ suf)) : IsBoundary text (pos + byteLength pre) := by
  have hadd := dropBytes_add (b := byteLength pre) hpos
  rw [← Nat.add_zero (byteLength pre), dropBytes_append, dropBytes_zero, Nat.add_zero] at hadd
  exact IsBoundary.of_eq hadd

theorem trailingCommaEnd_scan {text : List Char} {pos : Nat} (h : IsBoundary text pos) :
    ∃ pre suf, dropBytes text pos = some (pre ++ suf) ∧ trailingCommaEnd text pos = pos + byteLength pre ∧
      ∀ c ∈ pre, isMemberBlank c = true ∨ c = ',' := by
  obtain ⟨rest, hd⟩ := isBoundary_iff.mp h
  have hnone : ∃ pre suf, dropBytes text pos = some (pre ++ suf) ∧ pos = pos + byteLength pre ∧
      ∀ c ∈ pre, isMemberBlank c = true ∨ c = ',' := ⟨[], rest, hd, by simp, by simp⟩
  unfold trailingCommaEnd
  rw [hd]
  simp only
  split
  · rename_i after hafter
    refine ⟨rest.takeWhile isMemberBlank ++ [','], after, ?_, ?_, ?_⟩
    · rw [List.append_assoc, List.singleton_append, ← hafter,
        List.prefix_iff_eq_append.mp (List.takeWhile_prefix _)]
    · rw [byteLength_append, byteLength_cons, byteLength_nil, show (',').utf8Size = 1 from rfl]; omega
    · intro c hc
      rcases List.mem_append.mp hc with hc | hc
      · exact Or.inl (List.all_eq_true.mp List.all_takeWhile c hc)
      · exact Or.inr (List.mem_singleton.mp hc)
  · rw [hd] at hnone; exact hnone

theorem trailingCommaEnd_bounds {text : List Char} {pos limit : Nat} (h : IsBoundary text pos) (hle : pos ≤ limit)
    (hlimit : charAt text limit = some '\x7d') : pos ≤ trailingCommaEnd text pos ∧
      trailingCommaEnd text pos ≤ limit ∧ IsBoundary text (trailingCommaEnd text pos) := by
  obtain ⟨pre, suf, hd, heq, hpre⟩ := trailingCommaEnd_scan h
  rw [heq]
  refine ⟨Nat.le_add_right .., ?_, scan_isBoundary hd⟩
  refine scan_le hd hle (.of_charAt hlimit) fun c hc hclose => ?_
  rw [hlimit, Option.some.injEq] at hclose
  subst hclose
  rcases hpre _ hc with hblank | hcomma
  · cases hblank
  · cases hcomma

theorem lineBreakEnd_scan {text : List Char} {pos : Nat} (h : IsBoundary text pos) :
    ∃ pre suf, dropBytes text pos = some (pre ++ suf) ∧ lineBreakEnd text pos = pos + byteLength pre ∧
      ∀ c ∈ pre, c = '\r' ∨ c = '\n' := by
  obtain ⟨rest, hd⟩ := isBoundary_iff.mp h
  unfold lineBreakEnd
  rw [hd]
  split
  · rename_i suf heq; cases heq; exact ⟨['\r', '\n'], suf, rfl, rfl, by simp⟩
  · rename_i suf _ heq; cases heq; exact ⟨['\r'], suf, rfl, rfl, by simp⟩
  · rename_i suf heq; cases heq; exact ⟨['\n'], suf, rfl, rfl, by simp⟩
  · exact ⟨[], rest, rfl, by simp, by simp⟩

theorem lineBreakEnd_bounds {text : List Char} {pos : Nat} (h : IsBoundary text pos) :
    pos ≤ lineBreakEnd text pos ∧ IsBoundary text (lineBreakEnd text pos) := by
  obtain ⟨pre, suf, hd, heq, -⟩ := lineBreakEnd_scan h
  rw [heq]
  exact ⟨Nat.le_add_right .., scan_isBoundary hd⟩

theorem lineBreakEnd_le {text : List Char} {pos limit : Nat} (h : IsBoundary text pos) (hle : pos ≤ limit)
    (hlimit : IsBoundary text limit) (hline : charAt text limit ∉ [some '\r', some '\n']) :
    lineBreakEnd text pos ≤ limit := by
  obtain ⟨pre, suf, hd, heq, hpre⟩ := lineBreakEnd_scan h
  rw [heq]
  refine scan_le hd hle hlimit fun c hc hchar => hline ?_
  rw [hchar]
  rcases hpre c hc with rfl | rfl <;> simp

end ComponentMacros
