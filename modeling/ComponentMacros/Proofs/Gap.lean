import ComponentMacros.Proofs.Operands

/-!
# Gaps

Blanks and comments between two tokens are passed whatever follows them, as long
as the last comment is closed. A text is such a gap if a comma behind it would be
found; then everything else behind it is found as well.
-/

namespace ComponentMacros

theorem startsPageComment_append {fresh : Bool} : ∀ {gap : List Char},
    startsPageComment fresh (gap ++ [',']) = true → ∀ rest, startsPageComment fresh (gap ++ rest) = true := by
  intro gap h rest
  unfold startsPageComment at h
  split at h
  · rename_i cs heq
    obtain ⟨gap, rfl⟩ : ∃ gap', gap = '<' :: '!' :: '-' :: '-' :: gap' := by
      match gap, heq with
      | _ :: _ :: _ :: _ :: gap, heq => cases heq; exact ⟨gap, rfl⟩
    rfl
  · rename_i cs heq
    obtain ⟨gap, rfl⟩ : ∃ gap', gap = '-' :: '-' :: '>' :: gap' := by
      match gap, heq with
      | _ :: _ :: _ :: gap, heq => cases heq; exact ⟨gap, rfl⟩
    exact h
  · cases h

theorem skipGap_char {page : PageComments} {c : Char} (hc : c ≠ '/') (cs : List Char) (offset : Nat)
    (fresh : Bool) :
    skipGap page .blank (c :: cs) offset fresh =
      if isLineEnd c then skipGap page .blank cs (offset + c.utf8Size) true
      else if isBlank c then skipGap page .blank cs (offset + c.utf8Size) fresh
      else
        let marked := page ≠ .absent && startsPageComment fresh (c :: cs)
        if marked && page = .skipped then skipGap page .lineComment cs (offset + c.utf8Size) fresh
        else (⟨c :: cs, offset⟩, fresh, !marked) := by
  rw [skipGap]
  · exact fun _ heq _ => hc heq
  · exact fun _ heq _ => hc heq

/-- A step that leaves the comma has taken a character of the text in front of it. -/
theorem append_comma_cons {page : PageComments} {mode : Gap} {gap cs : List Char} {c : Char} {offset stop : Nat}
    {fresh fresh' : Bool} (htext : gap ++ [','] = c :: cs)
    (h : skipGap page mode cs offset fresh = (⟨[','], stop⟩, fresh', true)) :
    ∃ gap', gap = c :: gap' ∧ cs = gap' ++ [','] := by
  cases gap with
  | nil =>
    cases htext
    rw [skipGap] at h
    simp at h
  | cons d gap =>
    cases htext
    exact ⟨gap, rfl, rfl⟩

theorem append_comma_pair {gap cs : List Char} {c d : Char} (h : gap ++ [','] = c :: d :: cs) (hc : c ≠ ',')
    (hd : d ≠ ',') : ∃ gap', gap = c :: d :: gap' ∧ cs = gap' ++ [','] := by
  match gap, h with
  | [], h => exact absurd (List.cons.inj h).1.symm hc
  | [e], h => exact absurd (List.cons.inj (List.cons.inj h).2).1.symm hd
  | e :: f :: gap, h =>
    cases h
    exact ⟨gap, rfl, rfl⟩

theorem byteLength_pair (c d : Char) (cs : List Char) (h : c.utf8Size + d.utf8Size = 2) :
    byteLength (c :: d :: cs) = 2 + byteLength cs := by
  rw [byteLength_cons, byteLength_cons]
  omega

def Skips (page : PageComments) (mode : Gap) (fresh : Bool) (gap : List Char) (mode' : Gap) (fresh' : Bool) :
    Prop :=
  ∀ rest start, skipGap page mode (gap ++ rest) start fresh =
    skipGap page mode' rest (start + byteLength gap) fresh'

namespace Skips

variable {page : PageComments} {mode mode₁ mode' : Gap} {fresh fresh₁ fresh' : Bool} {c d : Char} {gap : List Char}

theorem nil : Skips page mode fresh [] mode fresh := fun _ _ => rfl

theorem cons (hstep : ∀ rest start, skipGap page mode (c :: (gap ++ rest)) start fresh =
    skipGap page mode₁ (gap ++ rest) (start + c.utf8Size) fresh₁) (h : Skips page mode₁ fresh₁ gap mode' fresh') :
    Skips page mode fresh (c :: gap) mode' fresh' := by
  intro rest start
  rw [List.cons_append, hstep, h, byteLength_cons, Nat.add_assoc]

theorem pair (hsize : c.utf8Size + d.utf8Size = 2) (hstep : ∀ rest start,
    skipGap page mode (c :: d :: (gap ++ rest)) start fresh = skipGap page mode₁ (gap ++ rest) (start + 2) fresh₁)
    (h : Skips page mode₁ fresh₁ gap mode' fresh') : Skips page mode fresh (c :: d :: gap) mode' fresh' := by
  intro rest start
  rw [List.cons_append, List.cons_append, hstep, h, byteLength_pair c d gap hsize, Nat.add_assoc]

theorem pageComment (hend : isLineEnd c = false) (hblank : isBlank c = false)
    (hmark : startsPageComment fresh (c :: gap ++ [',']) = true)
    (h : Skips .skipped .lineComment fresh gap mode' fresh') :
    Skips .skipped .blank fresh (c :: gap) mode' fresh' := by
  refine .cons (fun rest start => ?_) h
  have hc : c ≠ '/' := by rintro rfl; cases hmark
  have hstarts : startsPageComment fresh (c :: (gap ++ rest)) = true := startsPageComment_append hmark rest
  simp [skipGap_char hc, hend, hblank, hstarts]

theorem star (hmore : gap ≠ []) (hopen : ∀ rest, c = '*' → gap ++ [','] ≠ '/' :: rest)
    (h : Skips page .blockComment (fresh || isLineEnd c) gap mode' fresh') :
    Skips page .blockComment fresh (c :: gap) mode' fresh' := by
  refine .cons (fun rest start => ?_) h
  rw [skipGap]
  intro after hc hslash
  cases gap with
  | nil => exact hmore rfl
  | cons d gap =>
    cases hslash
    exact hopen _ hc rfl

end Skips

/-- What is skipped in front of a comma is skipped in front of anything. -/
theorem skips_of_comma {page : PageComments} {mode : Gap} {gap : List Char} {offset stop : Nat}
    {fresh fresh' : Bool} (h : skipGap page mode (gap ++ [',']) offset fresh = (⟨[','], stop⟩, fresh', true)) :
    Skips page mode fresh gap .blank fresh' := by
  generalize htext : gap ++ [','] = text at h
  fun_induction skipGap page mode text offset fresh generalizing gap with
  | case1 => simp at htext
  | case2 cs offset fresh ih =>
    obtain ⟨gap, rfl, rfl⟩ := append_comma_pair htext (by decide) (by decide)
    exact .pair rfl (fun _ _ => by rw [skipGap]) (ih rfl h)
  | case3 cs offset fresh ih =>
    obtain ⟨gap, rfl, rfl⟩ := append_comma_pair htext (by decide) (by decide)
    exact .pair rfl (fun _ _ => by rw [skipGap]) (ih rfl h)
  | case4 c cs offset fresh hline hblock hend ih =>
    have hc : c ≠ '/' := by rintro rfl; cases hend
    obtain ⟨gap, rfl, rfl⟩ := append_comma_cons htext h
    exact .cons (fun _ _ => by rw [skipGap_char hc, if_pos hend]) (ih rfl h)
  | case5 c cs offset fresh hline hblock hend hblank ih =>
    have hc : c ≠ '/' := by rintro rfl; cases hblank
    obtain ⟨gap, rfl, rfl⟩ := append_comma_cons htext h
    exact .cons (fun _ _ => by rw [skipGap_char hc, if_neg hend, if_pos hblank]) (ih rfl h)
  | case6 c cs offset fresh hline hblock hend hblank marked hmarked =>
    rename_i ih
    simp only [marked, Bool.and_eq_true, decide_eq_true_eq] at hmarked
    obtain ⟨⟨-, hmark⟩, rfl⟩ := hmarked
    obtain ⟨gap, rfl, rfl⟩ := append_comma_cons htext h
    exact .pageComment (Bool.eq_false_iff.mpr hend) (Bool.eq_false_iff.mpr hblank) hmark (ih rfl h)
  | case7 c cs offset fresh hline hblock hend hblank marked =>
    -- the first character stays, so it is the comma
    simp only [Prod.mk.injEq, Cursor.mk.injEq] at h
    obtain ⟨⟨hrest, -⟩, rfl, -⟩ := h
    obtain rfl : gap = [] := by simpa [hrest] using htext
    exact .nil
  | case8 c cs offset fresh hend ih =>
    obtain ⟨gap, rfl, rfl⟩ := append_comma_cons htext h
    exact .cons (fun _ _ => by rw [skipGap, if_pos hend]) (ih rfl h)
  | case9 c cs offset fresh hend ih =>
    obtain ⟨gap, rfl, rfl⟩ := append_comma_cons htext h
    exact .cons (fun _ _ => by rw [skipGap, if_neg hend]) (ih rfl h)
  | case10 cs offset fresh ih =>
    obtain ⟨gap, rfl, rfl⟩ := append_comma_pair htext (by decide) (by decide)
    exact .pair rfl (fun _ _ => by rw [skipGap]) (ih rfl h)
  | case11 c cs offset fresh hblock ih =>
    obtain ⟨gap, rfl, rfl⟩ := append_comma_cons htext h
    have hmore : gap ≠ [] := by
      rintro rfl
      simp [skipGap] at h
    exact .star hmore (fun rest hc hslash => hblock rest hc hslash) (ih rfl h)

/-- The text is passed between two tokens, whether it starts a line or not. -/
def isGap (page : PageComments) (gap : List Char) : Bool :=
  [false, true].all fun fresh =>
    let (stop, _, closed) := skipGap page .blank (gap ++ [',']) 0 fresh
    stop.rest = [','] && stop.offset = byteLength gap && closed

theorem isGap_skip {page : PageComments} {gap : List Char} (h : isGap page gap = true) (fresh : Bool) :
    ∃ fresh', Skips page .blank fresh gap .blank fresh' := by
  have hfresh : (let (stop, _, closed) := skipGap page .blank (gap ++ [',']) 0 fresh
      decide (stop.rest = [',']) && decide (stop.offset = byteLength gap) && closed) = true :=
    List.all_eq_true.mp h fresh (by cases fresh <;> simp)
  generalize hskip : skipGap page .blank (gap ++ [',']) 0 fresh = result at hfresh
  obtain ⟨⟨rest, offset⟩, fresh', closed⟩ := result
  simp only [Bool.and_eq_true, decide_eq_true_eq] at hfresh
  obtain ⟨⟨rfl, rfl⟩, rfl⟩ := hfresh
  exact ⟨fresh', skips_of_comma hskip⟩

theorem isGap_append {page : PageComments} {first second : List Char} (h₁ : isGap page first = true)
    (h₂ : isGap page second = true) : isGap page (first ++ second) = true := by
  apply List.all_eq_true.mpr
  intro fresh _
  obtain ⟨fresh₁, hfirst⟩ := isGap_skip h₁ fresh
  obtain ⟨fresh₂, hsecond⟩ := isGap_skip h₂ fresh₁
  rw [List.append_assoc, hfirst, hsecond, byteLength_append, Nat.zero_add]
  cases page <;> cases fresh₂ <;> simp [skipGap_char, isLineEnd, isBlank, startsPageComment]

def isSeparator (page : PageComments) (text : List Char) : Bool :=
  (List.range text.length).any fun i =>
    text[i]? = some ',' && isGap page (text.take i) && isGap page (text.drop (i + 1))

theorem isSeparator_iff {page : PageComments} {text : List Char} : isSeparator page text = true ↔
    ∃ before after, text = before ++ ',' :: after ∧ isGap page before = true ∧ isGap page after = true := by
  simp only [isSeparator, List.any_eq_true, List.mem_range, Bool.and_eq_true, decide_eq_true_eq]
  constructor
  · rintro ⟨i, hi, ⟨hcomma, hbefore⟩, hafter⟩
    refine ⟨text.take i, text.drop (i + 1), ?_, hbefore, hafter⟩
    rw [List.getElem?_eq_getElem hi, Option.some.injEq] at hcomma
    rw [← hcomma, List.getElem_cons_drop, List.take_append_drop]
  · rintro ⟨before, after, rfl, hbefore, hafter⟩
    exact ⟨before.length, by simp, by simpa using hbefore, by simpa using hafter⟩

/-! ## Tokens behind gaps -/

def opensToken : List Char → Bool
  | [] => false
  | c :: _ => !isLineEnd c && !isBlank c && !(['/', '<', '-'].contains c)

theorem opensToken_append {text : List Char} (h : opensToken text = true) (rest : List Char) :
    opensToken (text ++ rest) = true := by
  cases text with
  | nil => cases h
  | cons c cs => exact h

theorem skipGap_token {page : PageComments} {text : List Char} (h : opensToken text = true) (offset : Nat)
    (fresh : Bool) : skipGap page .blank text offset fresh = (⟨text, offset⟩, fresh, true) := by
  cases text with
  | nil => cases h
  | cons c cs =>
    simp only [opensToken, Bool.and_eq_true, Bool.not_eq_true', List.contains_eq_mem, List.mem_cons,
      List.not_mem_nil, or_false, decide_eq_false_iff_not, not_or] at h
    obtain ⟨⟨hend, hblank⟩, hslash, hangle, hdash⟩ := h
    have hcomment : startsPageComment fresh (c :: cs) = false := by
      unfold startsPageComment
      split
      · rename_i heq
        exact absurd (List.cons.inj heq).1 hangle
      · rename_i heq
        exact absurd (List.cons.inj heq).1 hdash
      · rfl
    rw [skipGap_char hslash, hend, hblank, hcomment]
    simp

def StartsToken (page : PageComments) (text : List Char) : Prop :=
  ∀ (offset : Nat) (fresh : Bool), skipGap page .blank text offset fresh = (⟨text, offset⟩, fresh, true)

theorem startsToken_of_opensToken {page : PageComments} {text : List Char} (h : opensToken text = true) :
    StartsToken page text := fun offset fresh => skipGap_token h offset fresh

theorem StartsToken.moveTo {s : ReadState} {gap text : List Char} (h : StartsToken s.context.pageComments text)
    (hgap : isGap s.context.pageComments gap = true) (offset : Nat) :
    (s.moveTo ⟨gap ++ text, offset⟩).StandsAt text ∧
      (s.moveTo ⟨gap ++ text, offset⟩).start = ⟨text, offset + byteLength gap⟩ := by
  obtain ⟨fresh, hskip⟩ := isGap_skip hgap (offset = 0)
  exact ReadState.moveTo_standsAt ((hskip text offset).trans (h _ fresh))

theorem ReadState.moveTo_gap {s : ReadState} {gap text : List Char}
    (hgap : isGap s.context.pageComments gap = true)
    (htext : opensToken text = true) (offset : Nat) : (s.moveTo ⟨gap ++ text, offset⟩).StandsAt text ∧
      (s.moveTo ⟨gap ++ text, offset⟩).start = ⟨text, offset + byteLength gap⟩ :=
  (startsToken_of_opensToken htext).moveTo hgap offset

theorem isGap_unique {page : PageComments} {gap gap' text text' : List Char} (hgap : isGap page gap = true)
    (hgap' : isGap page gap' = true) (htext : opensToken text = true) (htext' : opensToken text' = true)
    (h : gap ++ text = gap' ++ text') : text = text' := by
  obtain ⟨fresh, hskip⟩ := isGap_skip hgap false
  obtain ⟨fresh', hskip'⟩ := isGap_skip hgap' false
  have heq := hskip text 0
  rw [h, hskip', skipGap_token htext, skipGap_token htext'] at heq
  exact (Cursor.mk.inj (Prod.mk.inj heq).1).1.symm

theorem isGap_nil (page : PageComments) : isGap page [] = true := by
  cases page <;> decide

theorem isGap_blank {page : PageComments} : ∀ {blanks : List Char}, (∀ c ∈ blanks, isMemberBlank c = true) →
    isGap page blanks = true
  | [], _ => isGap_nil page
  | c :: blanks, h => by
    refine @isGap_append page [c] blanks ?_ (isGap_blank fun d hd => h d (List.mem_cons_of_mem _ hd))
    have hc := h c (List.mem_cons_self ..)
    simp only [isMemberBlank, Bool.or_eq_true, decide_eq_true_eq] at hc
    rcases hc with (((rfl | rfl) | rfl) | rfl) | rfl <;> cases page <;> decide

theorem isGap_space (page : PageComments) : isGap page [' '] = true := by
  cases page <;> rfl

end ComponentMacros
