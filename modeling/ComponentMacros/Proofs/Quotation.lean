import ComponentMacros.Proofs.Listing
import ComponentMacros.Proofs.LookAhead

/-!
# Quoted text as it is read

A text is quoted so that one string literal is read back: its closing quote is
found, and its escapes stand for the characters that they were written for. The
literal is an operand, so it is an element of a list. Nothing but the quotes
around it ends it, so the text tells its value.
-/

namespace ComponentMacros

/-! ## Escapes -/

theorem QuoteStyle.char_cases (style : QuoteStyle) : style.char = '"' ∨ style.char = '\'' := by
  cases style
  · exact Or.inr rfl
  · exact Or.inl rfl

theorem readQuoted_plain {quote c : Char} (hslash : c ≠ '\\') (hline : c ≠ '\n') (hreturn : c ≠ '\r')
    (hown : c ≠ quote)
    (cs : List Char) : readQuoted quote (c :: cs) = (readQuoted quote cs).map fun (body, rest) =>
      (c :: body, rest) := by
  simp [readQuoted, hslash, hline, hreturn, hown]

section
variable {quote : Char} (hquote : quote = '"' ∨ quote = '\'')
include hquote

theorem escapeChar_cases (c : Char) :
    escapeChar quote c = [c] ∧ c ≠ '\\' ∧ c ≠ '\n' ∧ c ≠ '\r' ∧ c ≠ quote ∨
    ∃ d digits, escapeChar quote c = '\\' :: d :: digits ∧ d ≠ '\r' ∧ (∀ x ∈ digits, x.isDigit = true) ∧
      ∀ cs, escape? (d :: (digits ++ cs)) = some ([c.toNat], cs) := by
  by_cases hslash : c = '\\'
  · subst hslash
    exact Or.inr ⟨'\\', [], rfl, by decide, by simp, fun cs => rfl⟩
  by_cases hline : c = '\n'
  · subst hline
    exact Or.inr ⟨'n', [], rfl, by decide, by simp, fun cs => rfl⟩
  by_cases hreturn : c = '\r'
  · subst hreturn
    exact Or.inr ⟨'r', [], rfl, by decide, by simp, fun cs => rfl⟩
  by_cases htab : c = '\t'
  · subst htab
    exact Or.inr ⟨'t', [], rfl, by decide, by simp, fun cs => rfl⟩
  by_cases hseparator : c = '\u2028'
  · subst hseparator
    exact Or.inr ⟨'u', ['2', '0', '2', '8'], rfl, by decide, List.all_eq_true.mp (by decide), fun cs => rfl⟩
  by_cases hparagraph : c = '\u2029'
  · subst hparagraph
    exact Or.inr ⟨'u', ['2', '0', '2', '9'], rfl, by decide, List.all_eq_true.mp (by decide), fun cs => rfl⟩
  by_cases hown : c = quote
  · subst hown
    have hescaped : escapeChar c c = ['\\', c] := by
      simp [escapeChar, hslash, hline, hreturn, htab, hseparator, hparagraph]
    exact Or.inr ⟨c, [], hescaped, hreturn, by simp, fun cs => by rcases hquote with rfl | rfl <;> rfl⟩
  · refine Or.inl ⟨?_, hslash, hline, hreturn, hown⟩
    simp [escapeChar, hslash, hline, hreturn, htab, hseparator, hparagraph, hown]

theorem readQuoted_digits (cs : List Char) : ∀ {digits : List Char}, (∀ x ∈ digits, x.isDigit = true) →
    readQuoted quote (digits ++ cs) = (readQuoted quote cs).map fun (body, rest) => (digits ++ body, rest)
  | [], _ => by simp
  | x :: digits, h => by
    have hx := h x (List.mem_cons_self ..)
    have hne : x ≠ '\\' ∧ x ≠ '\n' ∧ x ≠ '\r' ∧ x ≠ quote := by
      refine ⟨?_, ?_, ?_, ?_⟩
      · rintro rfl; cases hx
      · rintro rfl; cases hx
      · rintro rfl; cases hx
      · rintro rfl
        rcases hquote with rfl | rfl <;> cases hx
    rw [List.cons_append, readQuoted_plain hne.1 hne.2.1 hne.2.2.1 hne.2.2.2,
      readQuoted_digits cs fun y hy => h y (List.mem_cons_of_mem _ hy), Option.map_map]
    rfl

theorem readQuoted_escapeChar (c : Char) (cs : List Char) : readQuoted quote (escapeChar quote c ++ cs) =
    (readQuoted quote cs).map fun (body, rest) => (escapeChar quote c ++ body, rest) := by
  rcases escapeChar_cases hquote c with ⟨htext, hslash, hline, hreturn, hown⟩ | ⟨d, digits, htext, hd, hdigits, -⟩
  · rw [htext]
    exact readQuoted_plain hslash hline hreturn hown cs
  · rw [htext, List.cons_append, List.cons_append, readQuoted]
    · rw [readQuoted_digits hquote cs hdigits, Option.map_map]
      rfl
    · intro _ heq
      exact absurd heq hd

theorem readQuoted_quoted (rest : List Char) : ∀ value : List Char,
    readQuoted quote (value.flatMap (escapeChar quote) ++ quote :: rest) =
      some (value.flatMap (escapeChar quote), rest)
  | [] => by
    rcases hquote with rfl | rfl <;> simp [readQuoted]
  | c :: value => by
    rw [List.flatMap_cons, List.append_assoc, readQuoted_escapeChar hquote, readQuoted_quoted rest value]
    rfl

theorem decodeUnits_quoted : ∀ {value : List Char} {fuel : Nat}, value.length ≤ fuel →
    decodeUnits fuel (value.flatMap (escapeChar quote)) = some (value.map Char.toNat)
  | [], _, _ => by simp [decodeUnits]
  | c :: value, fuel + 1, h => by
    have ih := decodeUnits_quoted (Nat.le_of_succ_le_succ h)
    rw [List.flatMap_cons]
    rcases escapeChar_cases hquote c with ⟨htext, hslash, -⟩ | ⟨d, digits, htext, -, -, hescape⟩
    · rw [htext, List.singleton_append, decodeUnits, if_neg hslash, ih]
      rfl
    · rw [htext, List.cons_append, List.cons_append, decodeUnits, if_pos rfl, hescape]
      dsimp only
      rw [ih]
      rfl

theorem length_le_quoted : ∀ value : List Char, value.length ≤ (value.flatMap (escapeChar quote)).length
  | [] => Nat.le_refl _
  | c :: value => by
    have ih := length_le_quoted value
    rw [List.flatMap_cons, List.length_append, List.length_cons]
    rcases escapeChar_cases hquote c with ⟨htext, -⟩ | ⟨d, digits, htext, -⟩
    · rw [htext, List.length_singleton]
      omega
    · rw [htext, List.length_cons]
      omega

theorem decodeLiteral?_quoted (value : List Char) :
    decodeLiteral? (value.flatMap (escapeChar quote)) = some (String.ofList value, true) := by
  have hplain : (value.map Char.toNat).any isLoneSurrogate = false := by
    simp [List.any_map, isLoneSurrogate_toNat]
  rw [decodeLiteral?, decodeUnits_quoted hquote (length_le_quoted hquote value), Option.map_some,
    charsOfUnits_toNat, hplain]
  rfl

end

/-! ## Literals -/

theorem readLexeme_quoted (style : QuoteStyle) (value : String) (rest : List Char) :
    readLexeme ((quoteString style value).toList ++ rest) =
      ⟨.string value true, (quoteString style value).toList, rest⟩ := by
  have hquote := style.char_cases
  have hmark : (decide (style.char = '"') || decide (style.char = '\'')) = true := by
    rcases hquote with h | h <;> rw [h] <;> decide
  rw [quoteString, String.toList_ofList, quoteChars, List.cons_append, List.append_assoc,
    List.singleton_append, readLexeme]
  simp only [hmark, if_true, readQuoted_quoted hquote, decodeLiteral?_quoted hquote, String.ofList_toList]
  rfl

def stringAt (style : QuoteStyle) (value : String) (pos : Nat) : Tree :=
  .node (.string value) ⟨pos, pos + byteLength (quoteString style value).toList⟩ []

theorem Reader.primary_string {s : ReadState} {value : String} {plain : Bool} (h : s.token = .string value plain)
    (rules : Rules) :
    primary rules s = some (.node (.string value) ⟨s.start.offset, s.after.offset⟩ [], s.following) := by
  rw [primary, bind_of_eq_some (p := token) rfl, h]
  refine leaf_eq (advance_of_not_word fun text escaped hword => ?_)
  rw [h] at hword
  cases hword

theorem quoted_part (style : QuoteStyle) (value : String) :
    ReadsPart .assignment (quoteString style value).toList (stringAt style value) := by
  have htoken : ∀ {s : ReadState} {back : List Char}, s.StandsAt ((quoteString style value).toList ++ back) →
      s.token = .string value true := by
    intro s back hs
    rw [hs.token, readLexeme_quoted]
  have hunary : ReadsPart .unary (quoteString style value).toList (stringAt style value) := by
    refine ⟨2, fun depth s back hdepth hs hback => ?_⟩
    obtain ⟨depth, rfl⟩ : ∃ d, depth = d + 2 := ⟨depth - 2, by omega⟩
    have hprimary := Reader.primary_string (htoken hs) (readersTo depth)
    rw [hs.following, hs.after, readLexeme_quoted] at hprimary
    refine Reader.unary_whole hprimary (Reader.unaryRule_of_literal (by simp [htoken hs]) (by simp [htoken hs])) ?_
    exact Reader.continuesOperand_of_endsPart (past_standsAt hback _) hback
  refine hunary.assignment fun s back hs hback => Reader.startsPart_of_opensOperand ?_
  rw [htoken hs]
  simp [Token.opensOperand, isNameToken]

/-! ## Round trip -/

/-- What follows the text is escaped: a backslash that is not escaped itself comes last. -/
def escapesNext (text : List Char) : Bool :=
  text.foldl (fun escaped c => !escaped && c = '\\') false

theorem escapesNext_append {front : List Char} (h : escapesNext front = false) (back : List Char) :
    escapesNext (front ++ back) = escapesNext back := by
  rw [escapesNext, List.foldl_append]
  exact congrArg (back.foldl _) h

theorem escapesNext_plain : ∀ {text : List Char}, '\\' ∉ text → escapesNext text = false
  | [], _ => rfl
  | c :: text, h => by
    have hc : escapesNext [c] = false := by simpa [escapesNext] using fun heq => h (by simp [heq])
    have htext := escapesNext_plain fun hmem => h (List.mem_cons_of_mem c hmem)
    rwa [← escapesNext_append hc text] at htext

section
variable {quote : Char} (hquote : quote = '"' ∨ quote = '\'')
include hquote

theorem isDigit_ne_quote {c : Char} (h : c.isDigit = true) : c ≠ quote := by
  rintro rfl
  rcases hquote with rfl | rfl <;> cases h

theorem escapeChar_escapes (c : Char) : escapesNext (escapeChar quote c) = false ∧
    ∀ front back, escapeChar quote c = front ++ quote :: back → escapesNext front = true := by
  rcases escapeChar_cases hquote c with ⟨htext, hslash, -, -, hown⟩ | ⟨d, digits, htext, -, hdigits, -⟩
  · rw [htext]
    refine ⟨escapesNext_plain (by simpa using Ne.symm hslash), fun front back hsplit => ?_⟩
    have : quote ∈ [c] := by simp [hsplit]
    exact absurd (List.mem_singleton.mp this).symm hown
  · rw [htext]
    constructor
    · have hpair : escapesNext ['\\', d] = false := by simp [escapesNext]
      have hplain : '\\' ∉ digits := fun hmem => absurd (hdigits _ hmem) (by decide)
      exact (escapesNext_append hpair digits).trans (escapesNext_plain hplain)
    · intro front back hsplit
      match front, hsplit with
      | [], hsplit => rcases hquote with rfl | rfl <;> cases hsplit
      | [x], hsplit =>
        cases hsplit
        rfl
      | x :: y :: front, hsplit =>
        simp only [List.cons_append, List.cons.injEq] at hsplit
        have hmem : quote ∈ digits := by simp [hsplit.2.2]
        exact absurd rfl (isDigit_ne_quote hquote (hdigits quote hmem))

theorem quoted_escapes : ∀ value : List Char, escapesNext (value.flatMap (escapeChar quote)) = false ∧
    ∀ front back, value.flatMap (escapeChar quote) = front ++ quote :: back → escapesNext front = true
  | [] => ⟨rfl, fun front back hsplit => by simp at hsplit⟩
  | c :: value => by
    obtain ⟨hdone, hescaped⟩ := escapeChar_escapes hquote c
    obtain ⟨hrest, hlater⟩ := quoted_escapes value
    rw [List.flatMap_cons]
    refine ⟨(escapesNext_append hdone _).trans hrest, fun front back hsplit => ?_⟩
    rcases List.append_eq_append_iff.mp hsplit with ⟨more, rfl, htail⟩ | ⟨more, hhead, htail⟩
    · rw [escapesNext_append hdone]
      exact hlater more back htail
    · cases more with
      | nil =>
        rw [List.append_nil] at hhead
        rw [← hhead, hdone]
        have := hlater [] back htail.symm
        cases this
      | cons d more =>
        cases htail
        exact hescaped front more hhead

theorem quote_bare_iff {value front back : List Char}
    (hsplit : quote :: (value.flatMap (escapeChar quote) ++ [quote]) = front ++ quote :: back) :
    escapesNext front = false ↔ front = [] ∨ back = [] := by
  have hopening : escapesNext [quote] = false := by rcases hquote with rfl | rfl <;> rfl
  obtain ⟨hdone, hescaped⟩ := quoted_escapes hquote value
  cases front with
  | nil => simp [escapesNext]
  | cons c front =>
    rw [List.cons_append, List.cons.injEq] at hsplit
    obtain ⟨rfl, hsplit⟩ := hsplit
    have hfront : escapesNext (quote :: front) = escapesNext front := escapesNext_append hopening front
    rw [hfront]
    rcases List.append_eq_append_iff.mp hsplit with ⟨more, rfl, htail⟩ | ⟨more, hbody, htail⟩
    · -- the quote is the closing one
      have hlength := congrArg List.length htail
      simp only [List.length_append, List.length_cons, List.length_nil] at hlength
      have hmore : more = [] := List.length_eq_zero_iff.mp (by omega)
      have hback : back = [] := List.length_eq_zero_iff.mp (by omega)
      simp [hmore, hback, hdone]
    · cases more with
      | nil =>
        rw [List.append_nil] at hbody
        rw [List.nil_append, List.cons.injEq] at htail
        simp [← hbody, hdone, htail.2]
      | cons d more =>
        rw [List.cons_append, List.cons.injEq] at htail
        obtain ⟨rfl, rfl⟩ := htail
        simp [hescaped front more hbody]

theorem escapeChar_lineEnd (c : Char) : ∀ x ∈ escapeChar quote c, isLineEnd x = false := by
  unfold escapeChar
  split_ifs with hslash hline hreturn htab hseparator hparagraph hown
  · simp [isLineEnd]
  · simp [isLineEnd]
  · simp [isLineEnd]
  · simp [isLineEnd]
  · simp [isLineEnd]
  · simp [isLineEnd]
  · rw [hown]
    rcases hquote with rfl | rfl <;> simp [isLineEnd]
  · simp [isLineEnd, hline, hreturn, hseparator, hparagraph]

end

/-- Quoting round-trips. A quoted text is read as one string literal, whatever follows it: the literal ends with
the text and stands for the value. All quotes in it but the first and the last are escaped, and no line ends in it.
So no other value is quoted alike. -/
theorem quoted_read_back (style : QuoteStyle) (value : String) :
    (∀ rest, readLexeme ((quoteString style value).toList ++ rest) =
      ⟨.string value true, (quoteString style value).toList, rest⟩) ∧
    (∀ front back, (quoteString style value).toList = front ++ style.char :: back →
      (escapesNext front = false ↔ front = [] ∨ back = [])) ∧
    (∀ c ∈ (quoteString style value).toList, isLineEnd c = false) ∧
    ∀ other otherStyle, quoteString otherStyle other = quoteString style value → other = value ∧
      otherStyle = style := by
  have hquote := style.char_cases
  have htext : (quoteString style value).toList = quoteChars style value.toList := by
    rw [quoteString, String.toList_ofList]
  refine ⟨readLexeme_quoted style value, fun front back hsplit => ?_, fun c hc => ?_,
    fun other otherStyle heq => ?_⟩
  · exact quote_bare_iff hquote (htext.symm.trans hsplit)
  · rw [htext, quoteChars] at hc
    have hmark : isLineEnd style.char = false := by rcases hquote with h | h <;> rw [h] <;> decide
    simp only [List.mem_cons, List.mem_append, List.not_mem_nil, or_false, List.mem_flatMap] at hc
    rcases hc with rfl | ⟨x, -, hc⟩ | rfl
    · exact hmark
    · exact escapeChar_lineEnd hquote x c hc
    · exact hmark
  · -- the literals are read as their values
    have hread := readLexeme_quoted style value []
    rw [← heq, readLexeme_quoted otherStyle other []] at hread
    refine ⟨by injection hread with htoken; injection htoken, ?_⟩
    have hfirst := congrArg (·.toList.head?) heq
    simp only [quoteString, String.toList_ofList, quoteChars, List.head?_cons, Option.some.injEq] at hfirst
    cases style <;> cases otherStyle <;> first | rfl | cases hfirst

end ComponentMacros
