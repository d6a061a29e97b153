import ComponentMacros.Proofs.Locality
import ComponentMacros.Proofs.Removal

/-!
# Statements without the imports between them

Blanks and comments stand between the statements of a program. When the macro
imports go, each with one line break, what is copied in front of a statement that
stays is put together from several gaps, and is a gap again. An interpreter line
stays what it is, and nothing else becomes one.
-/

namespace ComponentMacros

/-! ## Gaps without page comments -/

theorem skipGap_plain {mode : Gap} {text : List Char} {offset : Nat} {fresh : Bool} {stop : Cursor} {fresh' : Bool}
    (h : skipGap .absent mode text offset fresh = (stop, fresh', true))
    (hstop : stop.rest = [] ∨ stop.rest = [','])
    (page : PageComments) (start : Nat) (line : Bool) : ∃ stop' line',
      skipGap page mode text start line = (⟨stop.rest, stop'⟩, line', true) ∧
        stop' + offset = stop.offset + start := by
  fun_induction skipGap .absent mode text offset fresh generalizing start line with
  | case1 mode offset fresh =>
    simp only [Prod.mk.injEq] at h
    obtain ⟨rfl, -, hclosed⟩ := h
    exact ⟨start, line, by rw [skipGap, hclosed], Nat.add_comm ..⟩
  | case2 cs offset fresh ih =>
    obtain ⟨stop', line', hskip, hoffset⟩ := ih h (start + 2) line
    exact ⟨stop', line', by rw [skipGap, hskip], by omega⟩
  | case3 cs offset fresh ih =>
    obtain ⟨stop', line', hskip, hoffset⟩ := ih h (start + 2) line
    exact ⟨stop', line', by rw [skipGap, hskip], by omega⟩
  | case4 c cs offset fresh hline hblock hend ih =>
    obtain ⟨stop', line', hskip, hoffset⟩ := ih h (start + c.utf8Size) true
    exact ⟨stop', line', by rw [skipGap_char (by rintro rfl; cases hend), if_pos hend, hskip], by omega⟩
  | case5 c cs offset fresh hline hblock hend hblank ih =>
    obtain ⟨stop', line', hskip, hoffset⟩ := ih h (start + c.utf8Size) line
    exact ⟨stop', line', by
        rw [skipGap_char (by rintro rfl; cases hblank), if_neg hend, if_pos hblank, hskip], by omega⟩
  | case6 c cs offset fresh hline hblock hend hblank marked hmarked => simp [marked] at hmarked
  | case7 c cs offset fresh hline hblock hend hblank marked =>
    cases h
    obtain ⟨rfl, rfl⟩ : c = ',' ∧ cs = [] := by simpa using hstop
    refine ⟨start, line, ?_, by simp only []; omega⟩
    rw [skipGap_char (by decide)]
    cases page <;> simp [isLineEnd, isBlank, startsPageComment]
  | case8 c cs offset fresh hend ih =>
    obtain ⟨stop', line', hskip, hoffset⟩ := ih h (start + c.utf8Size) true
    exact ⟨stop', line', by rw [skipGap, if_pos hend, hskip], by omega⟩
  | case9 c cs offset fresh hend ih =>
    obtain ⟨stop', line', hskip, hoffset⟩ := ih h (start + c.utf8Size) line
    exact ⟨stop', line', by rw [skipGap, if_neg hend, hskip], by omega⟩
  | case10 cs offset fresh ih =>
    obtain ⟨stop', line', hskip, hoffset⟩ := ih h (start + 2) line
    exact ⟨stop', line', by rw [skipGap, hskip], by omega⟩
  | case11 c cs offset fresh hblock ih =>
    obtain ⟨stop', line', hskip, hoffset⟩ := ih h (start + c.utf8Size) (line || isLineEnd c)
    refine ⟨stop', line', ?_, by omega⟩
    rw [skipGap, hskip]
    exact hblock

/-- Blanks and comments, none of them one of a page, up to the end of a text. -/
def isTail (text : List Char) : Bool :=
  let (stop, _, closed) := skipGap .absent .blank text 0 false
  stop.rest = [] && closed

theorem isTail_iff {text : List Char} : isTail text = true ↔
    ∃ stop fresh, skipGap .absent .blank text 0 false = (⟨[], stop⟩, fresh, true) := by
  unfold isTail
  generalize skipGap .absent .blank text 0 false = result
  obtain ⟨⟨rest, stop⟩, fresh, closed⟩ := result
  simp

theorem isGap_of_skip {gap : List Char} {offset : Nat} {fresh fresh' : Bool}
    (h : skipGap .absent .blank (gap ++ [',']) offset fresh = (⟨[','], offset + byteLength gap⟩, fresh', true))
    (page : PageComments) : isGap page gap = true := by
  apply List.all_eq_true.mpr
  intro line _
  obtain ⟨stop, line', hskip, hoffset⟩ := skipGap_plain h (Or.inr rfl) page 0 line
  have hstop : stop = byteLength gap := by simp only [] at hoffset; omega
  simp [hskip, hstop]

theorem isGap_comma {page : PageComments} {gap : List Char} (h : isGap page gap = true) (fresh : Bool) :
    ∃ fresh', skipGap page .blank (gap ++ [',']) 0 fresh = (⟨[','], 0 + byteLength gap⟩, fresh', true) := by
  obtain ⟨fresh', hskip⟩ := isGap_skip h fresh
  exact ⟨fresh', (hskip [','] 0).trans (@skipGap_token page [','] rfl _ _)⟩

theorem isGap_of_plain {gap : List Char} (h : isGap .absent gap = true) (page : PageComments) :
    isGap page gap = true := by
  obtain ⟨fresh, hcomma⟩ := isGap_comma h false
  exact isGap_of_skip hcomma page

theorem isTail_skip {text : List Char} (h : isTail text = true) (page : PageComments) (start : Nat) (line : Bool) :
    ∃ stop line', skipGap page .blank text start line = (⟨[], stop⟩, line', true) := by
  obtain ⟨stop, fresh, hskip⟩ := isTail_iff.mp h
  obtain ⟨stop', line', hother, -⟩ := skipGap_plain hskip (Or.inl rfl) page start line
  exact ⟨stop', line', hother⟩

theorem isTail_append {gap text : List Char} (hgap : isGap .absent gap = true) (htext : isTail text = true) :
    isTail (gap ++ text) = true := by
  obtain ⟨fresh, hskip⟩ := isGap_skip hgap false
  obtain ⟨stop, line, htail⟩ := isTail_skip htext .absent (0 + byteLength gap) fresh
  exact isTail_iff.mpr ⟨stop, line, (hskip text 0).trans htail⟩

theorem skipGap_break {page : PageComments} {c : Char} (hc : c = '\r' ∨ c = '\n') (text : List Char) (offset : Nat)
    (fresh : Bool) :
      skipGap page .blank (c :: text) offset fresh = skipGap page .blank text (offset + 1) true := by
  rcases hc with rfl | rfl <;> rw [skipGap_char (by decide)] <;> rfl

theorem isGap_behind_break {gap : List Char} : ∀ {line : List Char}, (∀ c ∈ line, c = '\r' ∨ c = '\n') →
    isGap .absent (line ++ gap) = true → isGap .absent gap = true
  | [], _, h => h
  | c :: line, hline, h => by
    refine isGap_behind_break (fun d hd => hline d (List.mem_cons_of_mem _ hd)) ?_
    have hc := hline c (List.mem_cons_self ..)
    obtain ⟨fresh, hcomma⟩ := isGap_comma h false
    have hsize : c.utf8Size = 1 := by rcases hc with rfl | rfl <;> rfl
    rw [List.cons_append, List.cons_append, skipGap_break hc, byteLength_cons, hsize, ← Nat.add_assoc] at hcomma
    exact isGap_of_skip hcomma .absent

theorem isTail_behind_break {tail : List Char} : ∀ {line : List Char}, (∀ c ∈ line, c = '\r' ∨ c = '\n') →
    isTail (line ++ tail) = true → isTail tail = true
  | [], _, h => h
  | c :: line, hline, h => by
    refine isTail_behind_break (fun d hd => hline d (List.mem_cons_of_mem _ hd)) ?_
    obtain ⟨stop, fresh, hskip⟩ := isTail_iff.mp h
    rw [List.cons_append, skipGap_break (hline c (List.mem_cons_self ..))] at hskip
    obtain ⟨stop', line', hother, -⟩ := skipGap_plain hskip (Or.inl rfl) .absent 0 false
    exact isTail_iff.mpr ⟨stop', line', hother⟩

/-! ## What stays -/

/-- A statement starts here: no blank, no comment and no interpreter line, whatever follows the text. -/
def opensStatement : List Char → Bool
  | '/' :: c :: _ => c ≠ '/' && c ≠ '*'
  | '<' :: c :: _ | '#' :: c :: _ => c ≠ '!'
  | '-' :: '-' :: c :: _ => c ≠ '>'
  | '-' :: c :: _ => c ≠ '-'
  | c :: _ => !isLineEnd c && !isBlank c && !(['/', '<', '#', '-'].contains c)
  | [] => false

theorem startsToken_of_opensStatement {page : PageComments} {text : List Char} (h : opensStatement text = true)
    (rest : List Char) : StartsToken page (text ++ rest) := by
  intro offset fresh
  unfold opensStatement at h
  split at h
  · rename_i c cs
    simp only [Bool.and_eq_true, decide_eq_true_eq] at h
    rw [List.cons_append, List.cons_append, skipGap]
    · simp [isLineEnd, isBlank, startsPageComment]
    · intro _ _ heq
      exact h.1 (List.cons.inj heq).1
    · intro _ _ heq
      exact h.2 (List.cons.inj heq).1
  · rename_i c cs
    have hmark : startsPageComment fresh ('<' :: c :: (cs ++ rest)) = false := by
      unfold startsPageComment
      split <;> simp_all
    rw [List.cons_append, List.cons_append, skipGap_char (by decide), hmark]
    simp [isLineEnd, isBlank]
  · rename_i c cs
    rw [List.cons_append, skipGap_char (by decide)]
    simp [isLineEnd, isBlank, startsPageComment]
  · rename_i c cs
    have hmark : startsPageComment fresh ('-' :: '-' :: c :: (cs ++ rest)) = false := by
      unfold startsPageComment
      split <;> simp_all
    rw [List.cons_append, List.cons_append, List.cons_append, skipGap_char (by decide), hmark]
    simp [isLineEnd, isBlank]
  · rename_i c cs _
    have hmark : startsPageComment fresh ('-' :: c :: (cs ++ rest)) = false := by
      unfold startsPageComment
      split <;> simp_all
    rw [List.cons_append, List.cons_append, skipGap_char (by decide), hmark]
    simp [isLineEnd, isBlank]
  · rename_i c cs _ _ _ _ _
    refine skipGap_token ?_ offset fresh
    simp_all [opensToken]
  · cases h

/-- What a parser promises about the text around statements: only blanks and comments stand there. -/
def areStrewn (source : List Char) : Nat → List Tree → Bool
  | pos, [] => isTail (textBetween source pos (byteLength source))
  | pos, t :: ts => pos ≤ t.span.start && isGap .absent (textBetween source pos t.span.start) &&
      opensStatement (textBetween source t.span.start t.span.stop) && areStrewn source t.span.stop ts

/-- The statements of a program stand apart from each other, and behind an interpreter line. -/
def Strewn (source : List Char) (program : Tree) : Prop :=
  areStrewn source (skipInterpreterLine source).offset program.children = true

instance (source : List Char) (program : Tree) : Decidable (Strewn source program) :=
  inferInstanceAs (Decidable (_ = _))

/-- A statement that stays, with what is copied in front of it. -/
structure Stay where
  gap : List Char
  statement : Tree
  text : List Char

def Stay.written (stay : Stay) : List Char := stay.gap ++ stay.text

def AreApart (stays : List Stay) : Prop :=
  ∀ stay ∈ stays, isGap .absent stay.gap = true ∧ opensStatement stay.text = true

/-- The statements of a source from an offset on without the macro imports, and the text behind the last one.
What was copied since the last statement before is copied in front of the next one. -/
def withoutImports (options : Options) (source : List Char) : List Char → Nat → List Tree → List Stay × List Char
  | gap, pos, [] => ([], gap ++ textBetween source pos (byteLength source))
  | gap, pos, t :: ts =>
    let gap := gap ++ textBetween source pos t.span.start
    if (MacroImport.ofTree? options t).isSome then
      withoutImports options source gap (lineBreakEnd source t.span.stop) ts
    else
      let (stays, tail) := withoutImports options source [] t.span.stop ts
      (⟨gap, t, textBetween source t.span.start t.span.stop⟩ :: stays, tail)

def leftOver (options : Options) (source : List Char) (program : Tree) : List Stay × List Char :=
  withoutImports options source [] (skipInterpreterLine source).offset program.children

section
variable {options : Options} {source : List Char} {program : Tree}

theorem withoutImports_statements : ∀ (ts : List Tree) (gap : List Char) (pos : Nat),
    (withoutImports options source gap pos ts).1.map Stay.statement =
      ts.filter fun t => (MacroImport.ofTree? options t).isNone
  | [], _, _ => rfl
  | t :: ts, gap, pos => by
    rw [withoutImports]
    by_cases himport : (MacroImport.ofTree? options t).isSome
    · have hgone : (MacroImport.ofTree? options t).isNone = false := by simpa using himport
      simp [himport, hgone, withoutImports_statements ts]
    · have hkept : (MacroImport.ofTree? options t).isNone = true := by simpa using himport
      simp [himport, hkept, withoutImports_statements ts]

theorem withoutImports_starts : ∀ (ts : List Tree) (gap : List Char) (pos : Nat),
    gap <+: (withoutImports options source gap pos ts).1.flatMap Stay.written ++
      (withoutImports options source gap pos ts).2
  | [], gap, _ => List.prefix_append gap _
  | t :: ts, gap, pos => by
    rw [withoutImports]
    by_cases himport : (MacroImport.ofTree? options t).isSome
    · simp only [himport, if_true]
      exact (List.prefix_append gap _).trans (withoutImports_starts ts _ _)
    · simp [himport, Stay.written]

theorem withoutImports_leads {t : Tree} {ts : List Tree} (gap : List Char) (pos : Nat) :
    gap ++ textBetween source pos t.span.start <+:
      (withoutImports options source gap pos (t :: ts)).1.flatMap Stay.written ++
        (withoutImports options source gap pos (t :: ts)).2 := by
  rw [withoutImports]
  by_cases himport : (MacroImport.ofTree? options t).isSome
  · simp only [himport, if_true]
    exact withoutImports_starts ts _ _
  · simp [himport, Stay.written]

theorem copy_eq_ok {setting : Setting} {range : Span} {text : List Char} (h : setting.copy range = .ok text) :
    text = textBetween setting.source range.start range.stop := by
  rw [textBetween, Draft.slice_eq_ok.mp h]
  rfl

/-- A statement that stays, as the edits of its own sites leave it. -/
def Setting.rewritten (setting : Setting) (stay : Stay) : Stay :=
  { stay with text := (setting.rewriteStatement stay.statement).toOption.getD [] }

theorem rewrite_withoutImports {setting : Setting} :
    ∀ (ts : List Tree) (gap : List Char) (pos : Nat) (text : List Char), setting.rewrite pos ts = .ok text →
      gap ++ text = ((withoutImports setting.options setting.source gap pos ts).1.map setting.rewritten).flatMap
        Stay.written ++
        (withoutImports setting.options setting.source gap pos ts).2
  | [], gap, pos, text, h => by
    rw [Setting.rewrite] at h
    rw [copy_eq_ok h]
    rfl
  | t :: ts, gap, pos, text, h => by
    rw [Setting.rewrite] at h
    obtain ⟨before, hbefore, h⟩ := bind_eq_ok h
    rw [withoutImports, ← copy_eq_ok hbefore]
    by_cases himport : (MacroImport.ofTree? setting.options t).isSome
    · simp only [himport, if_true] at h ⊢
      obtain ⟨rest, hrest, h⟩ := bind_eq_ok h
      cases h
      rw [← List.append_assoc]
      exact rewrite_withoutImports ts _ _ _ hrest
    · simp only [himport] at h ⊢
      obtain ⟨own, hown, h⟩ := bind_eq_ok h
      obtain ⟨rest, hrest, h⟩ := bind_eq_ok h
      cases h
      have htail := rewrite_withoutImports ts [] _ _ hrest
      rw [List.nil_append] at htail
      simp [Stay.written, Setting.rewritten, hown, Except.toOption, htail]

theorem withoutImports_text : ∀ (ts : List Tree) (gap : List Char) (pos : Nat),
    ∀ stay ∈ (withoutImports options source gap pos ts).1,
      stay.text = textBetween source stay.statement.span.start stay.statement.span.stop
  | [], _, _, _, h => by cases h
  | t :: ts, gap, pos, stay, h => by
    rw [withoutImports] at h
    by_cases himport : (MacroImport.ofTree? options t).isSome
    · simp only [himport, if_true] at h
      exact withoutImports_text ts _ _ stay h
    · simp only [himport] at h
      rcases List.mem_cons.mp h with rfl | h
      · rfl
      · exact withoutImports_text ts _ _ stay h

/-- A statement without sites stays as it is written. -/
theorem rewritten_eq_self {setting : Setting} {stay : Stay}
    (htext : stay.text = textBetween setting.source stay.statement.span.start stay.statement.span.stop)
    (hunused : setting.collected.usages.pending.any (·.isWithin stay.statement.span) = false) :
    setting.rewritten stay = stay := by
  have hcopied : (setting.copy stay.statement.span).toOption.getD [] = stay.text := by
    rw [htext, Setting.copy, Draft.slice, textBetween]
    cases slice? setting.source stay.statement.span.start stay.statement.span.stop <;> rfl
  rw [Setting.rewritten, Setting.rewriteStatement, hunused, if_neg Bool.false_ne_true, hcopied]

theorem rewritten_leftOver {setting : Setting} (hunused : setting.collected.usages.pending = []) (program : Tree) :
    (leftOver setting.options setting.source program).1.map setting.rewritten =
      (leftOver setting.options setting.source program).1 := by
  refine (List.map_congr_left fun stay hstay => ?_).trans (List.map_id _)
  exact rewritten_eq_self (withoutImports_text _ _ _ stay hstay) (by rw [hunused]; rfl)

theorem textBetween_break {pos hi : Nat} (hpos : IsBoundary source pos) (hle : lineBreakEnd source pos ≤ hi)
    (hhi : IsBoundary source hi) : ∃ line, (∀ c ∈ line, c = '\r' ∨ c = '\n') ∧
      textBetween source pos hi = line ++ textBetween source (lineBreakEnd source pos) hi := by
  obtain ⟨line, rest, hdrop, hend, hline⟩ := lineBreakEnd_scan hpos
  refine ⟨line, hline, ?_⟩
  have hbehind : dropBytes source (lineBreakEnd source pos) = some rest := by
    rw [hend, dropBytes_add hdrop, ← Nat.add_zero (byteLength line), dropBytes_append, dropBytes_zero]
  obtain ⟨after, hafter, hall, -⟩ := dropBytes_between hdrop (by omega) hhi
  obtain ⟨after', hafter', hsome, -⟩ := dropBytes_between hbehind hle hhi
  rw [hafter, Option.some.injEq] at hafter'
  rw [hsome, ← hafter', ← List.append_assoc] at hall
  exact (List.append_cancel_right hall).symm

theorem strewn_behind_break (hl : Layout source program) {ts : List Tree} {pos : Nat}
    (hts : ∀ t ∈ ts, t ∈ program.children) (hpos : IsBoundary source pos) (h : areStrewn source pos ts = true) :
    areStrewn source (lineBreakEnd source pos) ts = true := by
  cases ts with
  | nil =>
    obtain ⟨line, hline, htext⟩ :=
      textBetween_break hpos (lineBreakEnd_bounds hpos).2.le_length (isBoundary_length source)
    rw [areStrewn, htext] at h
    exact isTail_behind_break hline h
  | cons t ts =>
    have ht := hts t (List.mem_cons_self ..)
    have hstart := (hl.fits (Tree.child_mem_nodes ht)).2.1
    simp only [areStrewn, Bool.and_eq_true, decide_eq_true_eq] at h ⊢
    obtain ⟨⟨⟨hle, hgap⟩, hopens⟩, hrest⟩ := h
    have hend := lineBreakEnd_le hpos hle hstart ((hl.statements (Tree.mem_nodes_self program) hl.root).2 t ht)
    obtain ⟨line, hline, htext⟩ := textBetween_break hpos hend hstart
    rw [htext] at hgap
    exact ⟨⟨⟨hend, isGap_behind_break hline hgap⟩, hopens⟩, hrest⟩

theorem withoutImports_strewn (hl : Layout source program) : ∀ (ts : List Tree) (gap : List Char) (pos : Nat),
    (∀ t ∈ ts, t ∈ program.children) → IsBoundary source pos → areStrewn source pos ts = true →
    isGap .absent gap = true →
    AreApart (withoutImports options source gap pos ts).1 ∧
    isTail (withoutImports options source gap pos ts).2 = true
  | [], gap, pos, _, _, h, hgap => ⟨by simp [withoutImports, AreApart], isTail_append hgap h⟩
  | t :: ts, gap, pos, hts, hpos, h, hgap => by
    have hrest : ∀ u ∈ ts, u ∈ program.children := fun u hu => hts u (List.mem_cons_of_mem _ hu)
    have hstop := (hl.fits (Tree.child_mem_nodes (hts t (List.mem_cons_self ..)))).2.2
    simp only [areStrewn, Bool.and_eq_true, decide_eq_true_eq] at h
    obtain ⟨⟨⟨-, hbefore⟩, hopens⟩, hstrewn⟩ := h
    have hboth := isGap_append hgap hbefore
    rw [withoutImports]
    by_cases himport : (MacroImport.ofTree? options t).isSome
    · simp only [himport, if_true]
      exact withoutImports_strewn hl ts _ _ hrest (lineBreakEnd_bounds hstop).2
        (strewn_behind_break hl hrest hstop hstrewn) hboth
    · simp only [himport]
      obtain ⟨hstays, htail⟩ := withoutImports_strewn hl ts [] _ hrest hstop hstrewn (isGap_nil _)
      refine ⟨fun stay hstay => ?_, htail⟩
      rcases List.mem_cons.mp hstay with rfl | hstay
      · exact ⟨hboth, hopens⟩
      · exact hstays stay hstay

/-! ## Interpreter lines -/

def interpreterLine : List Char → List Char
  | '#' :: '!' :: rest => '#' :: '!' :: rest.takeWhile (!isLineEnd ·)
  | _ => []

/-- The text can stand behind an interpreter line, or alone if there is none. -/
def FollowsLine (line text : List Char) : Prop :=
  if line = [] then interpreterLine text = [] else ∀ c ∈ text.head?, isLineEnd c = true

theorem takeWhile_followed {p : Char → Bool} {w text : List Char} (hw : ∀ c ∈ w, p c = true)
    (htext : ∀ c ∈ text.head?, p c = false) : (w ++ text).takeWhile p = w := by
  rw [List.takeWhile_append_of_pos hw]
  cases text with
  | nil => simp
  | cons c cs => simp [htext c rfl]

theorem skipInterpreterLine_append {source text : List Char} (h : FollowsLine (interpreterLine source) text) :
    skipInterpreterLine (interpreterLine source ++ text) = ⟨text, byteLength (interpreterLine source)⟩ := by
  unfold FollowsLine at h
  split at h
  · rename_i hnone
    rw [hnone, List.nil_append]
    unfold skipInterpreterLine
    split
    · cases h
    · rfl
  · rename_i hline
    unfold interpreterLine at hline ⊢
    split at hline
    · rename_i rest
      have htake := @takeWhile_followed (!isLineEnd ·) (rest.takeWhile (!isLineEnd ·)) text
        (fun c hc => List.all_eq_true.mp List.all_takeWhile c hc) (fun c hc => by simp [h c hc])
      simp only [List.cons_append, skipInterpreterLine, htake, List.drop_left]
      rw [byteLength_pair '#' '!' _ rfl]
    · exact absurd rfl hline

theorem interpreterLine_split (source : List Char) : ∃ rest, source = interpreterLine source ++ rest ∧
    (skipInterpreterLine source).offset = byteLength (interpreterLine source) ∧
    FollowsLine (interpreterLine source) rest := by
  unfold interpreterLine
  split
  · rename_i rest
    refine ⟨rest.dropWhile (!isLineEnd ·), ?_, ?_, ?_⟩
    · rw [List.cons_append, List.cons_append, List.takeWhile_append_dropWhile]
    · rw [byteLength_pair '#' '!' _ rfl]
      rfl
    · rw [FollowsLine, if_neg (by simp)]
      intro c hc
      have hend := List.head?_dropWhile_not (!isLineEnd ·) rest
      rw [Option.mem_def.mp hc] at hend
      simpa using hend
  · rename_i hother
    refine ⟨source, rfl, ?_, ?_⟩
    · unfold skipInterpreterLine
      split
      · exact absurd rfl (hother _)
      · rfl
    · rw [FollowsLine, if_pos rfl, interpreterLine]
      exact hother

theorem isGap_head {page : PageComments} {gap : List Char} (h : isGap page ('#' :: gap) = true) : False := by
  obtain ⟨fresh, hcomma⟩ := isGap_comma h false
  rw [List.cons_append, skipGap_char (by decide)] at hcomma
  simp [isLineEnd, isBlank, startsPageComment] at hcomma

theorem isTail_head {tail : List Char} (h : isTail ('#' :: tail) = true) : False := by
  obtain ⟨stop, fresh, hskip⟩ := isTail_iff.mp h
  rw [skipGap_char (by decide)] at hskip
  simp [isLineEnd, isBlank] at hskip

theorem interpreterLine_stays {tail : List Char} (htail : isTail tail = true) {stays : List Stay}
    (hstays : AreApart stays) :
    interpreterLine (stays.flatMap Stay.written ++ tail) = [] := by
  unfold interpreterLine
  split
  · rename_i rest heq
    exfalso
    cases stays with
    | nil =>
      rw [List.flatMap_nil, List.nil_append] at heq
      rw [heq] at htail
      exact isTail_head htail
    | cons stay stays =>
      obtain ⟨hgap, hopens⟩ := hstays stay (List.mem_cons_self ..)
      rw [List.flatMap_cons, Stay.written, List.append_assoc, List.append_assoc] at heq
      generalize stay.gap = gap at hgap heq
      cases gap with
      | cons c gap =>
        obtain rfl := (List.cons.inj heq).1
        exact isGap_head hgap
      | nil =>
        -- both characters belong to the statement
        generalize stay.text = text at hopens heq
        match text, hopens, heq with
        | [c], hopens, heq =>
          simp only [List.nil_append, List.cons_append, List.cons.injEq] at heq
          obtain ⟨rfl, -⟩ := heq
          cases hopens
        | c :: d :: text, hopens, heq =>
          simp only [List.nil_append, List.cons_append, List.cons.injEq] at heq
          obtain ⟨rfl, rfl, -⟩ := heq
          cases hopens
  · rfl

theorem interpreterLine_boundary (source : List Char) : IsBoundary source (skipInterpreterLine source).offset := by
  obtain ⟨rest, hsplit, hoffset, -⟩ := interpreterLine_split source
  have hdrop := dropBytes_append (interpreterLine source) rest 0
  rw [← hsplit, Nat.add_zero, ← hoffset, dropBytes_zero] at hdrop
  exact IsBoundary.of_eq hdrop

theorem strewn_start (h : Strewn source program) :
    ∀ t ∈ program.children.head?, (skipInterpreterLine source).offset ≤ t.span.start := by
  intro t ht
  unfold Strewn at h
  cases hchildren : program.children with
  | nil => rw [hchildren] at ht; cases ht
  | cons u us =>
    rw [hchildren] at ht h
    cases ht
    simp only [areStrewn, Bool.and_eq_true, decide_eq_true_eq] at h
    exact h.1.1.1

theorem opensStatement_head {c : Char} {cs : List Char} (h : opensStatement (c :: cs) = true) :
    isLineEnd c = false := by
  unfold opensStatement at h
  split at h <;> simp_all [isLineEnd]

theorem leftOver_apart (hl : Layout source program) (hstrewn : Strewn source program) :
    AreApart (leftOver options source program).1 ∧ isTail (leftOver options source program).2 = true :=
  withoutImports_strewn hl program.children [] _ (fun _ ht => ht) (interpreterLine_boundary source) hstrewn
    (isGap_nil _)

theorem areApart_of_gaps {stays others : List Stay} (hstays : AreApart stays)
    (hgaps : others.map Stay.gap = stays.map Stay.gap)
    (hopens : ∀ stay ∈ others, opensStatement stay.text = true) :
    AreApart others := by
  intro stay hstay
  have hgap : stay.gap ∈ stays.map Stay.gap := by
    rw [← hgaps]
    exact List.mem_map_of_mem hstay
  obtain ⟨other, hother, heq⟩ := List.mem_map.mp hgap
  rw [← heq]
  exact ⟨(hstays other hother).1, hopens stay hstay⟩

/-- Whether what stays can follow an interpreter line depends on the gaps, since no
statement starts with a line end. -/
theorem followsLine_of_gaps {line tail : List Char} {stays others : List Stay} (hstays : AreApart stays)
    (hothers : AreApart others) (htail : isTail tail = true) (hgaps : others.map Stay.gap = stays.map Stay.gap)
    (h : FollowsLine line (stays.flatMap Stay.written ++ tail)) :
      FollowsLine line (others.flatMap Stay.written ++ tail) := by
  unfold FollowsLine at h ⊢
  split
  · exact interpreterLine_stays htail hothers
  · rename_i hline
    rw [if_neg hline] at h
    match stays, others, hgaps with
    | [], [], _ => exact h
    | stay :: stays, other :: others, hgaps =>
      have hgap : other.gap = stay.gap := (List.cons.inj hgaps).1
      rw [List.flatMap_cons, Stay.written, List.append_assoc, List.append_assoc] at h ⊢
      rw [hgap]
      cases hfirst : stay.gap with
      | cons c gap =>
        rw [hfirst] at h
        exact h
      | nil =>
        have hopens := (hstays stay (List.mem_cons_self ..)).2
        rw [hfirst, List.nil_append] at h
        cases htext : stay.text with
        | nil => rw [htext] at hopens; cases hopens
        | cons c cs =>
          rw [htext] at hopens h
          have hend := h c rfl
          rw [opensStatement_head hopens] at hend
          cases hend

theorem leftOver_follows (hl : Layout source program) (hstrewn : Strewn source program) :
    FollowsLine (interpreterLine source)
      ((leftOver options source program).1.flatMap Stay.written ++ (leftOver options source program).2) := by
  obtain ⟨hstays, htail⟩ := @leftOver_apart options _ _ hl hstrewn
  obtain ⟨rest, hsplit, hoffset, hfollows⟩ := interpreterLine_split source
  have hdrop : dropBytes source (byteLength (interpreterLine source)) = some rest := by
    have := dropBytes_append (interpreterLine source) rest 0
    rwa [← hsplit, dropBytes_zero] at this
  unfold FollowsLine at hfollows ⊢
  split
  · exact interpreterLine_stays htail hstays
  · rename_i hline
    rw [if_neg hline] at hfollows
    unfold Strewn at hstrewn
    rw [hoffset] at hstrewn
    rw [leftOver, hoffset]
    cases hchildren : program.children with
    | nil =>
      obtain ⟨after, hafter, hrest, -⟩ := dropBytes_between hdrop (IsBoundary.of_eq hdrop).le_length
        (isBoundary_length source)
      have hend := dropBytes_append source [] 0
      rw [List.append_nil, Nat.add_zero, hafter, dropBytes_zero, Option.some.injEq] at hend
      rw [hend, List.append_nil] at hrest
      intro c hc
      refine hfollows c ?_
      rw [hrest]
      exact hc
    | cons t ts =>
      have ht : t ∈ program.children := by rw [hchildren]; exact List.mem_cons_self ..
      rw [hchildren] at hstrewn
      simp only [areStrewn, Bool.and_eq_true, decide_eq_true_eq] at hstrewn
      obtain ⟨⟨⟨hle, -⟩, hopens⟩, -⟩ := hstrewn
      have hfits := hl.fits (Tree.child_mem_nodes ht)
      obtain ⟨after, hafter, hrest, -⟩ := dropBytes_between hdrop hle hfits.2.1
      have hstarts := @withoutImports_leads options source t ts [] (byteLength (interpreterLine source))
      cases hgap : textBetween source (byteLength (interpreterLine source)) t.span.start with
      | cons c gap =>
        rw [hgap] at hstarts hrest
        intro d hd
        refine hfollows d ?_
        obtain ⟨more, hmore⟩ := hstarts
        rw [← hmore] at hd
        rw [hrest]
        exact hd
      | nil =>
        -- a statement does not start with the end of a line
        obtain ⟨behind, -, htext, -⟩ := dropBytes_between hafter hfits.1 hfits.2.2
        rw [hgap, List.nil_append, htext] at hrest
        cases hown : textBetween source t.span.start t.span.stop with
        | nil => rw [hown] at hopens; cases hopens
        | cons c cs =>
          rw [hown] at hopens hrest
          have hend := hfollows c (by rw [hrest]; rfl)
          rw [opensStatement_head hopens] at hend
          cases hend

end

/-! ## Rewriting without sites -/

theorem expansion_unused {setting : Setting} (hunused : setting.collected.usages.pending = []) :
    ∃ draft, expansion setting = .ok draft := by
  have hhands : setting.hands = [] := by
    have hget : ∀ kind, setting.collected.usages.get kind = [] := by simp [Usages.get, hunused]
    have horder : setting.order = [] := by simp [Setting.order, hget]
    rw [Setting.hands, horder, hget]
    rfl
  unfold expansion
  rw [expandAll_eq, hhands]
  exact ⟨_, rfl⟩

theorem copy_split {setting : Setting} {line rest : List Char} (hsource : setting.source = line ++ rest) {hi : Nat}
    (hle : byteLength line ≤ hi) {text : List Char} (h : setting.copy ⟨0, hi⟩ = .ok text) :
    ∃ after, text = line ++ after ∧ setting.copy ⟨byteLength line, hi⟩ = .ok after := by
  have hall : slice? setting.source 0 hi = some text := Draft.slice_eq_ok.mp h
  have hdrop : dropBytes setting.source (byteLength line) = some rest := by
    have := dropBytes_append line rest 0
    rwa [← hsource, dropBytes_zero] at this
  have hline : slice? setting.source 0 (byteLength line) = some line := by
    rw [slice?, if_pos (Nat.zero_le _), dropBytes_zero, Option.bind_some, Nat.sub_zero, hsource, takeBytes_append]
  have hfits := slice?_isSome_iff.mp (Option.isSome_of_eq_some hall)
  obtain ⟨after, hafter⟩ :=
    Option.isSome_iff_exists.mp (slice?_isSome_iff.mpr ⟨hle, IsBoundary.of_eq hdrop, hfits.2.2⟩)
  refine ⟨after, ?_, Draft.slice_eq_ok.mpr hafter⟩
  exact Option.some.inj (hall.symm.trans (slice?_append hline hafter))

theorem rewrite_split {setting : Setting} {line rest : List Char} (hsource : setting.source = line ++ rest)
    {ts : List Tree}
    (hts : ∀ t ∈ ts.head?, byteLength line ≤ t.span.start) {text : List Char}
    (h : setting.rewrite 0 ts = .ok text) :
    ∃ after, text = line ++ after ∧ setting.rewrite (byteLength line) ts = .ok after := by
  cases ts with
  | nil => exact copy_split hsource (by rw [hsource, byteLength_append]; omega) h
  | cons t ts =>
    rw [Setting.rewrite] at h ⊢
    obtain ⟨before, hbefore, h⟩ := bind_eq_ok h
    obtain ⟨gap, rfl, hgap⟩ := copy_split hsource (hts t rfl) hbefore
    rw [hgap]
    simp only [bind, Except.bind] at h ⊢
    split at h
    · rename_i himport
      obtain ⟨more, hmore, h⟩ := bind_eq_ok h
      cases h
      exact ⟨gap ++ more, List.append_assoc .., by simp [himport, hmore, pure, Except.pure]⟩
    · rename_i himport
      obtain ⟨own, hown, h⟩ := bind_eq_ok h
      obtain ⟨more, hmore, h⟩ := bind_eq_ok h
      cases h
      exact ⟨gap ++ (own ++ more), List.append_assoc .., by simp [himport, hown, hmore, pure, Except.pure]⟩

/-- A program is rewritten to its interpreter line and what the edits of its sites leave
of the statements behind it. -/
theorem leftOver_rewrite {options : Options} {source : List Char} {collected : Collected} {program : Tree}
    (hstrewn : Strewn source program) {code : List Char}
    (h : Setting.rewrite ⟨options, source, collected⟩ 0 program.children = .ok code) :
    code = interpreterLine source ++
      (((leftOver options source program).1.map (Setting.rewritten ⟨options, source, collected⟩)).flatMap
        Stay.written ++
        (leftOver options source program).2) := by
  obtain ⟨rest, hsplit, hoffset, -⟩ := interpreterLine_split source
  have hstart : ∀ t ∈ program.children.head?, byteLength (interpreterLine source) ≤ t.span.start := by
    rw [← hoffset]
    exact strewn_start hstrewn
  obtain ⟨after, rfl, hafter⟩ := @rewrite_split ⟨options, source, collected⟩ _ _ hsplit _ hstart _ h
  have hwritten := @rewrite_withoutImports ⟨options, source, collected⟩ _ [] _ _ hafter
  rw [List.nil_append, ← hoffset] at hwritten
  rw [hwritten]
  rfl

end ComponentMacros
