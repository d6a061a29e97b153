import ComponentMacros.Token

/-!
# Where a token ends

A token ends before the first character that cannot go on with it. A text that is
put in the place of another one keeps its last token only if what follows does not
go on with that token.
-/

namespace ComponentMacros

def EndsWord : List Char → Bool
  | [] => true
  | c :: _ => !isIdentifierPart c && c ≠ '\\'

def Detached (back : List Char) : Bool :=
  EndsWord back && back.head? ≠ some '.'

/-! ## Numbers -/

theorem readExponent_split {cs e rest : List Char} (h : readExponent cs = some (e, rest)) : e ++ rest = cs := by
  unfold readExponent at h
  split at h
  · rename_i c more
    split at h
    · -- whichever sign there is, it is kept
      have digits : ∀ (sign : List Char) {tail : List Char}, sign ++ tail = more →
          (if isDigitRun (tail.takeWhile isDecimalChar) then
            some (c :: sign ++ tail.takeWhile isDecimalChar, tail.dropWhile isDecimalChar) else none) =
              some (e, rest) →
          e ++ rest = c :: more := by
        rintro sign tail rfl h
        rw [Option.ite_none_right_eq_some] at h
        obtain ⟨-, h⟩ := h
        cases h
        rw [List.append_assoc, List.takeWhile_append_dropWhile, List.cons_append]
      cases more with
      | nil => exact digits [] rfl h
      | cons s more =>
        dsimp only at h
        split at h
        · exact digits [s] rfl h
        · exact digits [] rfl h
    · cases h
      rfl
  · cases h
    rfl

theorem readFraction_split {whole rest raw after : List Char} {big : Bool}
    (h : readFraction whole rest = some (raw, after, big)) : raw ++ after = whole ++ rest := by
  unfold readFraction at h
  split at h
  · rename_i rest
    dsimp only at h
    split at h
    · cases h
    split at h
    · cases h
    obtain ⟨⟨e, last⟩, hexponent, heq⟩ := Option.map_eq_some_iff.mp h
    cases heq
    have hsplit := readExponent_split hexponent
    simp only [List.append_assoc, List.cons_append, hsplit, List.takeWhile_append_dropWhile]
  · obtain ⟨⟨e, last⟩, hexponent, heq⟩ := Option.map_eq_some_iff.mp h
    cases heq
    rw [List.append_assoc, readExponent_split hexponent]

theorem readRadix_split {isDigit : Char → Bool} {head rest raw after : List Char} {big : Bool}
    (h : readRadix isDigit head rest = some (raw, after, big)) : raw ++ after = head ++ rest := by
  have hdigits := List.prefix_iff_eq_append.mp (List.takeWhile_prefix (l := rest) fun c => isDigit c || c = '_')
  unfold readRadix at h
  dsimp only at h
  split at h
  · split at h
    · rename_i heq
      cases h
      rw [heq] at hdigits
      rw [List.append_assoc, List.append_assoc, List.singleton_append, hdigits]
    · cases h
      rw [List.append_assoc, hdigits]
  · cases h

theorem readDecimal_split {cs raw after : List Char} {big : Bool} (h : readDecimal cs = some (raw, after, big)) :
    raw ++ after = cs := by
  have hwhole := List.takeWhile_append_dropWhile (p := isDecimalChar) (l := cs)
  unfold readDecimal at h
  dsimp only at h
  split at h
  · rename_i heq
    rw [Option.ite_none_right_eq_some] at h
    obtain ⟨-, h⟩ := h
    cases h
    rw [List.append_assoc, List.singleton_append, ← heq, hwhole]
  · rw [Option.ite_none_right_eq_some] at h
    rw [readFraction_split h.2, hwhole]

theorem readZeroLed_split {cs raw after : List Char} {big : Bool} (h : readZeroLed cs = some (raw, after, big)) :
    raw ++ after = cs := by
  have hwhole := List.takeWhile_append_dropWhile (p := Char.isDigit) (l := cs)
  unfold readZeroLed at h
  dsimp only at h
  split at h
  · cases h
    exact hwhole
  · rw [readFraction_split h, hwhole]

theorem readNumber_split {cs raw after : List Char} {big : Bool} (h : readNumber cs = some (raw, after, big)) :
    raw ++ after = cs ∧ EndsWord after = true := by
  -- every branch ends with the same check of what follows
  have checked : ∀ {found : Option (List Char × List Char × Bool)} {last},
      (∀ {raw after big}, found = some (raw, after, big) → raw ++ after = cs) →
      (found >>= last) = some (raw, after, big) → (∀ raw big, last (raw, [], big) = some (raw, [], big)) →
      (∀ raw c after big, last (raw, c :: after, big) =
        if isIdentifierPart c || c = '\\' then none else some (raw, c :: after, big)) →
      raw ++ after = cs ∧ EndsWord after = true := by
    intro found last hsplit h hnil hcons
    obtain ⟨⟨raw, after, big⟩, hnumber, h⟩ := Option.bind_eq_some_iff.mp h
    cases after with
    | nil =>
      rw [hnil] at h
      cases h
      exact ⟨hsplit hnumber, rfl⟩
    | cons c after =>
      rw [hcons, Option.ite_none_left_eq_some] at h
      obtain ⟨hends, h⟩ := h
      cases h
      exact ⟨hsplit hnumber, by simpa [EndsWord] using hends⟩
  unfold readNumber at h
  dsimp only at h
  split at h
  · split at h
    · exact checked readRadix_split h (fun _ _ => rfl) fun _ _ _ _ => rfl
    split at h
    · exact checked readRadix_split h (fun _ _ => rfl) fun _ _ _ _ => rfl
    split at h
    · exact checked readRadix_split h (fun _ _ => rfl) fun _ _ _ _ => rfl
    split at h
    · cases h
    split at h
    · exact checked readZeroLed_split h (fun _ _ => rfl) fun _ _ _ _ => rfl
    · exact checked readDecimal_split h (fun _ _ => rfl) fun _ _ _ _ => rfl
  · exact checked readDecimal_split h (fun _ _ => rfl) fun _ _ _ _ => rfl

theorem readNumber_dot {rest after : List Char} {big : Bool} :
    readNumber ('0' :: '.' :: rest) ≠ some (['0'], after, big) := by
  intro h
  change (readFraction ['0'] ('.' :: rest) >>= _) = _ at h
  obtain ⟨⟨raw, last, isBig⟩, hfraction, h⟩ := Option.bind_eq_some_iff.mp h
  have hraw : raw = ['0'] := by
    dsimp only at h
    split at h
    · rw [Option.ite_none_left_eq_some] at h
      cases h.2
      rfl
    · cases h
      rfl
  simp only [readFraction] at hfraction
  split at hfraction
  · cases hfraction
  split at hfraction
  · cases hfraction
  obtain ⟨⟨e, last⟩, -, heq⟩ := Option.map_eq_some_iff.mp hfraction
  cases heq
  cases hraw

theorem isIdentifierPart_of_isDigit {c : Char} (h : c.isDigit = true) : isIdentifierPart c = true := by
  have hlt : c.toNat < 128 := by
    simp only [Char.isDigit, Bool.and_eq_true, decide_eq_true_eq] at h
    exact Nat.lt_of_le_of_lt (UInt32.le_iff_toNat_le.mp h.2) (by decide)
  rw [isIdentifierPart, if_pos hlt]
  simp [Char.isAlphanum, h]

section
variable {x : Char} {rest : List Char} (hpart : isIdentifierPart x = false)
include hpart

theorem ne_of_not_part {c : Char} (hc : isIdentifierPart c = true) : x ≠ c := by
  rintro rfl
  rw [hpart] at hc
  cases hc

theorem not_digit_of_not_part : x.isDigit = false := by
  apply Bool.eq_false_iff.mpr
  intro h
  exact absurd rfl (ne_of_not_part hpart (isIdentifierPart_of_isDigit h))

theorem readDecimal_zero (hdot : x ≠ '.') : readDecimal ('0' :: x :: rest) = some (['0'], x :: rest, false) := by
  have hdecimal : isDecimalChar x = false := by
    rw [isDecimalChar, not_digit_of_not_part hpart, Bool.false_or]
    exact decide_eq_false (ne_of_not_part hpart (by decide))
  have he : x ≠ 'e' := ne_of_not_part hpart (by decide)
  have hE : x ≠ 'E' := ne_of_not_part hpart (by decide)
  have hn : x ≠ 'n' := ne_of_not_part hpart (by decide)
  have hzero : isDecimalChar '0' = true := by decide
  simp [readDecimal, hzero, hdecimal, hn, isDigitRun, occursIn, readFraction, hdot, readExponent, he, hE]

end

theorem readNumber_zero {back : List Char} (h : Detached back = true) :
    readNumber ('0' :: back) = some (['0'], back, false) := by
  cases back with
  | nil => decide
  | cons x rest =>
    simp only [Detached, EndsWord, Bool.and_eq_true, Bool.not_eq_true', decide_eq_true_eq, List.head?_cons, ne_eq,
      Option.some.injEq] at h
    obtain ⟨⟨hpart, hslash⟩, hdot⟩ := h
    have ne : ∀ {c : Char}, isIdentifierPart c = true → x ≠ c := ne_of_not_part hpart
    -- no letter of a radix follows, and no digit
    have hx : x ≠ 'x' ∧ x ≠ 'X' := ⟨ne (by decide), ne (by decide)⟩
    have ho : x ≠ 'o' ∧ x ≠ 'O' := ⟨ne (by decide), ne (by decide)⟩
    have hb : x ≠ 'b' ∧ x ≠ 'B' := ⟨ne (by decide), ne (by decide)⟩
    have hline : x ≠ '_' := ne (by decide)
    simp [readNumber, hx, ho, hb, hline, not_digit_of_not_part hpart, readDecimal_zero hpart hdot, hpart, hslash]

section
variable {c : Char} {rest : List Char} (hc : c.isDigit = true)
include hc

theorem digit_not_quote : c ≠ '"' ∧ c ≠ '\'' ∧ c ≠ '\x60' := by
  refine ⟨?_, ?_, ?_⟩ <;> rintro rfl <;> cases hc

theorem readLexeme_number {raw after : List Char} {big : Bool}
    (h : readNumber (c :: rest) = some (raw, after, big)) :
    readLexeme (c :: rest) =
      ⟨if big then .bigint (String.ofList raw) else .number (String.ofList raw), raw, after⟩ := by
  simp only [readLexeme, digit_not_quote hc, hc, h, decide_false, Bool.or_self, Bool.false_eq_true, if_false,
    Bool.true_or, if_true]

theorem readLexeme_no_number (h : readNumber (c :: rest) = none) : (readLexeme (c :: rest)).token = .invalid := by
  simp only [readLexeme, digit_not_quote hc, hc, h, decide_false, Bool.or_self, Bool.false_eq_true, if_false,
    Bool.true_or, if_true]

theorem readLexeme_digit_cases : (readLexeme (c :: rest)).token = .invalid ∨
    (∃ raw, (readLexeme (c :: rest)).token = .bigint raw) ∨ ∃ raw, (readLexeme (c :: rest)).token =
      .number raw := by
  cases h : readNumber (c :: rest) with
  | none => exact Or.inl (readLexeme_no_number hc h)
  | some number =>
    obtain ⟨raw, after, big⟩ := number
    rw [readLexeme_number hc h]
    cases big with
    | true => exact Or.inr (Or.inl ⟨_, rfl⟩)
    | false => exact Or.inr (Or.inr ⟨_, rfl⟩)

end

theorem readLexeme_zero {back : List Char} (h : Detached back = true) :
    readLexeme ('0' :: back) = ⟨.number "0", ['0'], back⟩ := by
  rw [readLexeme_number (by decide) (readNumber_zero h)]
  rfl

theorem readLexeme_zero_iff {back : List Char} :
    (readLexeme ('0' :: back)).token = .number "0" ↔ Detached back = true := by
  constructor
  · intro h
    cases hnumber : readNumber ('0' :: back) with
    | none => rw [readLexeme_no_number (by decide) hnumber] at h; cases h
    | some number =>
      obtain ⟨raw, after, big⟩ := number
      rw [readLexeme_number (by decide) hnumber] at h
      cases big with
      | true => cases h
      | false =>
        have hraw : raw = ['0'] := by
          have := congrArg String.toList (Token.number.inj h)
          rwa [String.toList_ofList] at this
        subst hraw
        obtain ⟨hsplit, hends⟩ := readNumber_split hnumber
        obtain rfl : after = back := (List.cons.inj hsplit).2
        rw [Detached, hends, Bool.true_and, decide_eq_true_eq]
        intro hdot
        obtain ⟨rest, rfl⟩ := List.head?_eq_some_iff.mp hdot
        exact readNumber_dot hnumber
  · intro h
    rw [readLexeme_zero h]

/-! ## Words -/

theorem readWord_append {back : List Char} (hback : EndsWord back = true) : ∀ {w : List Char} {fuel : Nat},
    (∀ c ∈ w, isIdentifierPart c = true) → w.length ≤ fuel → readWord fuel false (w ++ back) = some (w, w, back)
  | [], 0, _, _ => rfl
  | [], fuel + 1, _, _ => by
    cases back with
    | nil => rfl
    | cons c back =>
      simp only [EndsWord, Bool.and_eq_true, Bool.not_eq_true', decide_eq_true_eq] at hback
      simp [readWord, hback]
  | c :: w, fuel + 1, hw, hfuel => by
    have hc := hw c (List.mem_cons_self ..)
    have hslash : c ≠ '\\' := by rintro rfl; exact absurd hc (by decide)
    have ih := readWord_append hback (fun d hd => hw d (List.mem_cons_of_mem _ hd)) (Nat.le_of_succ_le_succ hfuel)
    rw [List.cons_append, readWord]
    · simp [hc, ih]
    · exact hslash

theorem readWord_beyond {back : List Char} (hback : EndsWord back = false) : ∀ {w : List Char} {fuel : Nat}
    {value raw last : List Char}, (∀ c ∈ w, isIdentifierPart c = true) → w.length < fuel →
      readWord fuel false (w ++ back) = some (value, raw, last) → w.length < value.length
  | [], fuel + 1, value, raw, last, _, _, h => by
    cases back with
    | nil => cases hback
    | cons c back =>
      rw [List.nil_append] at h
      unfold readWord at h
      split at h
      · split at h
        · split at h
          · simp only [Bool.false_eq_true, if_false] at h
            split at h
            · obtain ⟨more, -, heq⟩ := Option.map_eq_some_iff.mp h
              cases heq
              exact Nat.succ_pos _
            · cases h
          · cases h
        · cases h
      · rename_i hslash heq
        cases heq
        have hpart : isIdentifierPart c = true := by
          have hne : c ≠ '\\' := hslash
          simpa [EndsWord, hne] using hback
        simp only [Bool.false_eq_true, if_false, hpart, if_true] at h
        obtain ⟨more, -, heq⟩ := Option.map_eq_some_iff.mp h
        cases heq
        exact Nat.succ_pos _
      · rename_i heq
        cases heq
  | c :: w, fuel + 1, value, raw, last, hw, hfuel, h => by
    have hc := hw c (List.mem_cons_self ..)
    have hslash : c ≠ '\\' := by rintro rfl; exact absurd hc (by decide)
    rw [List.cons_append, readWord] at h
    · simp only [Bool.false_eq_true, if_false, hc, if_true] at h
      obtain ⟨⟨value, raw, last⟩, hmore, heq⟩ := Option.map_eq_some_iff.mp h
      cases heq
      have hw' := fun d hd => hw d (List.mem_cons_of_mem _ hd)
      exact Nat.succ_lt_succ (readWord_beyond hback hw' (Nat.lt_of_succ_lt_succ hfuel) hmore)
    · exact hslash

section
variable {c : Char} {w back : List Char} (hc : isIdentifierStart c = true) (hdigit : c.isDigit = false)
include hc

theorem ne_of_start {d : Char} (hd : isIdentifierStart d = false) : c ≠ d := by
  rintro rfl
  rw [hc] at hd
  cases hd

theorem readWord_start (fuel : Nat) (rest : List Char) : readWord (fuel + 1) true (c :: rest) =
    (readWord fuel false rest).map fun (value, raw, last) => (c :: value, c :: raw, last) := by
  rw [readWord]
  · rw [if_pos rfl, if_pos hc]
  · exact ne_of_start hc (by decide)

theorem start_not_quote : c ≠ '"' ∧ c ≠ '\'' ∧ c ≠ '\x60' ∧ c ≠ '.' ∧ c ≠ '#' :=
  ⟨ne_of_start hc (by decide), ne_of_start hc (by decide), ne_of_start hc (by decide), ne_of_start hc (by decide),
    ne_of_start hc (by decide)⟩

include hdigit

theorem readLexeme_of_readWord {rest value raw last : List Char}
    (h : readWord rest.length false rest = some (value, raw, last)) :
    readLexeme (c :: rest) = ⟨.word (String.ofList (c :: value)) (raw.length ≠ value.length), c :: raw, last⟩ := by
  simp only [readLexeme, start_not_quote hc, hdigit, hc, decide_false, Bool.or_self, Bool.false_and,
    Bool.false_eq_true, if_false, Bool.true_or, if_true, List.length_cons, readWord_start hc, h,
      Option.map_some, ne_eq,
    Nat.add_right_cancel_iff]

theorem readLexeme_of_no_word {rest : List Char} (h : readWord rest.length false rest = none) :
    (readLexeme (c :: rest)).token = .invalid := by
  simp only [readLexeme, start_not_quote hc, hdigit, hc, decide_false, Bool.or_self, Bool.false_and,
    Bool.false_eq_true, if_false, Bool.true_or, if_true, List.length_cons, readWord_start hc, h, Option.map_none]

variable (hw : ∀ d ∈ w, isIdentifierPart d = true)
include hw

theorem readLexeme_word (hback : EndsWord back = true) :
    readLexeme (c :: (w ++ back)) = ⟨.word (String.ofList (c :: w)) false, c :: w, back⟩ := by
  rw [readLexeme_of_readWord hc hdigit (readWord_append hback hw (by simp)), decide_eq_false (not_not_intro rfl)]

/-- A word is a token of its own if and only if no character of a word follows. -/
theorem readLexeme_word_iff :
    (readLexeme (c :: (w ++ back))).token = .word (String.ofList (c :: w)) false ↔ EndsWord back = true := by
  constructor
  · intro h
    apply Bool.of_not_eq_false
    intro hback
    cases hword : readWord (w ++ back).length false (w ++ back) with
    | none => rw [readLexeme_of_no_word hc hdigit hword] at h; cases h
    | some found =>
      obtain ⟨value, raw, last⟩ := found
      have hfuel : w.length < (w ++ back).length := by
        cases back with
        | nil => cases hback
        | cons => simp
      have hlong := readWord_beyond hback hw hfuel hword
      rw [readLexeme_of_readWord hc hdigit hword] at h
      have hvalue := congrArg String.toList (Token.word.inj h).1
      simp only [String.toList_ofList] at hvalue
      cases hvalue
      exact Nat.lt_irrefl _ hlong
  · intro hback
    rw [readLexeme_word hc hdigit hw hback]

end

end ComponentMacros
