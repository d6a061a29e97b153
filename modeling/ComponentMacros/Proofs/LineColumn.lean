import Mathlib.Data.List.DropRight
import ComponentMacros.Proofs.Boundary

/-!
# Locations as a scan finds them

A location is looked up in the table of line starts. A scan that counts lines and
characters from the start of the text finds the same one: the table has an entry
for each line feed, and no byte but a line feed has the value of one.
-/

namespace ComponentMacros

/-! ## Bytes -/

def bytesOf (text : List Char) : List UInt8 :=
  text.flatMap String.utf8EncodeChar

def lineFeed : UInt8 := 10

theorem ofNat_ne_lineFeed {n : Nat} (hlo : 10 < n) (hhi : n < 256) : UInt8.ofNat n ≠ lineFeed := by
  intro h
  have hnat := congrArg UInt8.toNat h
  rw [UInt8.toNat_ofNat_of_lt' hhi] at hnat
  exact absurd hnat (Nat.ne_of_gt hlo)

theorem lineFeed_not_mem {c : Char} (h : c ≠ '\n') : lineFeed ∉ String.utf8EncodeChar c := by
  rw [String.utf8EncodeChar.eq_def]
  simp only
  split_ifs with hone htwo hthree
  · have hval : c.val.toNat ≠ 10 := fun heq => h (Char.ext (UInt32.toNat_inj.mp heq))
    intro hmem
    have hnat := congrArg UInt8.toNat (List.mem_singleton.mp hmem)
    rw [UInt8.toNat_ofNat_of_lt' (show _ < 256 by omega)] at hnat
    exact hval hnat.symm
  all_goals
    -- the bytes of a longer form are all above the ASCII range
    simp only [List.mem_cons, List.not_mem_nil, or_false, not_or]
    and_intros
    all_goals exact (ofNat_ne_lineFeed (by omega) (by omega)).symm

/-! ## Lines -/

theorem lt_of_mem_lineStartsFrom :
    ∀ {text : List Char} {base start : Nat}, start ∈ lineStartsFrom base text → base < start
  | c :: text, base, start, h => by
    have hpos := c.utf8Size_pos
    rw [lineStartsFrom] at h
    split at h
    · rcases List.mem_cons.mp h with rfl | h
      · omega
      · have := lt_of_mem_lineStartsFrom h
        omega
    · have := lt_of_mem_lineStartsFrom h
      omega

theorem lineStartsFrom_filter_nil {text : List Char} {base offset : Nat} (h : offset ≤ base) :
    (lineStartsFrom base text).filter (· ≤ offset) = [] := by
  apply List.filter_eq_nil_iff.mpr
  intro start hstart
  have := lt_of_mem_lineStartsFrom hstart
  simp only [decide_eq_true_eq]
  omega

theorem length_lineStartsFrom_filter : ∀ (text : List Char) (base n : Nat),
    ((lineStartsFrom base text).filter (· ≤ base + n)).length = ((bytesOf text).take n).count lineFeed
  | [], base, n => by simp [lineStartsFrom, bytesOf]
  | c :: text, base, n => by
    have hlength := String.length_utf8EncodeChar c
    have hbytes : bytesOf (c :: text) = String.utf8EncodeChar c ++ bytesOf text := List.flatMap_cons
    rw [hbytes, List.take_append, List.count_append, hlength, lineStartsFrom]
    by_cases hn : c.utf8Size ≤ n
    · -- the character is among the bytes
      have ih := length_lineStartsFrom_filter text (base + c.utf8Size) (n - c.utf8Size)
      rw [Nat.add_assoc, Nat.add_sub_cancel' hn] at ih
      rw [← ih, List.take_of_length_le (by omega)]
      by_cases hc : c = '\n'
      · rw [if_pos hc, List.filter_cons_of_pos (by simpa using hn), List.length_cons, hc, Nat.add_comm]
        rfl
      · rw [if_neg hc, List.count_eq_zero.mpr (lineFeed_not_mem hc), Nat.zero_add]
    · -- the bytes end before the character does, and a line feed has no part
      have hnone : ((String.utf8EncodeChar c).take n).count lineFeed = 0 := by
        by_cases hc : c = '\n'
        · subst hc
          have hsize : ('\n').utf8Size = 1 := rfl
          obtain rfl : n = 0 := by omega
          rfl
        · exact List.count_eq_zero.mpr fun hmem => lineFeed_not_mem hc (List.mem_of_mem_take hmem)
      rw [hnone, Nat.sub_eq_zero_of_le (by omega)]
      have hrest : (lineStartsFrom (base + c.utf8Size) text).filter (· ≤ base + n) = [] :=
        lineStartsFrom_filter_nil (by omega)
      split
      · rw [List.filter_cons_of_neg (by simpa using hn), hrest]
        rfl
      · rw [hrest]
        rfl

theorem length_lineStartsFrom_le :
    ∀ (text : List Char) (base : Nat), (lineStartsFrom base text).length ≤ byteLength text
  | [], _ => Nat.le_refl 0
  | c :: text, base => by
    have hpos := c.utf8Size_pos
    have ih := length_lineStartsFrom_le text (base + c.utf8Size)
    rw [lineStartsFrom, byteLength_cons]
    split
    · rw [List.length_cons]
      omega
    · omega

theorem lineStartsFrom_eq_nil : ∀ {text : List Char} {base : Nat}, '\n' ∉ text → lineStartsFrom base text = []
  | [], _, _ => rfl
  | c :: text, base, h => by
    rw [List.mem_cons, not_or] at h
    rw [lineStartsFrom, if_neg fun hc => h.1 hc.symm]
    exact lineStartsFrom_eq_nil h.2

/-! ## Columns -/

theorem lineStartsFrom_append : ∀ (front back : List Char) (base : Nat), lineStartsFrom base (front ++ back) =
    lineStartsFrom base front ++ lineStartsFrom (base + byteLength front) back
  | [], back, base => rfl
  | c :: front, back, base => by
    have ih := lineStartsFrom_append front back (base + c.utf8Size)
    rw [Nat.add_assoc] at ih
    simp only [List.cons_append, lineStartsFrom, ih, byteLength_cons]
    split <;> rfl

theorem le_of_mem_lineStartsFrom : ∀ {text : List Char} {base start : Nat}, start ∈ lineStartsFrom base text →
    start ≤ base + byteLength text
  | c :: text, base, start, h => by
    rw [byteLength_cons]
    rw [lineStartsFrom] at h
    split at h
    · rcases List.mem_cons.mp h with rfl | h
      · omega
      · have := le_of_mem_lineStartsFrom h
        omega
    · have := le_of_mem_lineStartsFrom h
      omega

def lineBegins (text : List Char) : List Nat :=
  0 :: lineStartsFrom 0 text

theorem lineBegins_concat (text : List Char) (c : Char) : lineBegins (text ++ [c]) =
    if c = '\n' then lineBegins text ++ [byteLength text + 1] else lineBegins text := by
  rw [lineBegins, lineStartsFrom_append, Nat.zero_add]
  by_cases hc : c = '\n'
  · subst hc
    rfl
  · simp [lineStartsFrom, lineBegins, hc]

theorem lineBegins_filter (before rest : List Char) :
    (lineBegins (before ++ rest)).filter (· ≤ byteLength before) = lineBegins before := by
  rw [lineBegins, lineStartsFrom_append, Nat.zero_add, List.filter_cons_of_pos (by simp), List.filter_append,
    lineStartsFrom_filter_nil (Nat.le_refl _), List.append_nil, lineBegins]
  congr 1
  apply List.filter_eq_self.mpr
  intro start hstart
  have := le_of_mem_lineStartsFrom hstart
  simpa using this

def lastLine (text : List Char) : List Char :=
  text.rtakeWhile (· ≠ '\n')

theorem lastLine_concat (text : List Char) (c : Char) :
    lastLine (text ++ [c]) = if c = '\n' then [] else lastLine text ++ [c] := by
  unfold lastLine
  rw [List.rtakeWhile_concat]
  by_cases hc : c = '\n' <;> simp [hc]

theorem exists_lastLine (text : List Char) :
    ∃ front, text = front ++ lastLine text ∧ byteLength front = (lineBegins text).getLastD 0 := by
  induction text using List.reverseRecOn with
  | nil => exact ⟨[], rfl, rfl⟩
  | append_singleton text c ih =>
    obtain ⟨front, htext, hstart⟩ := ih
    rw [lineBegins_concat, lastLine_concat]
    by_cases hc : c = '\n'
    · subst hc
      exact ⟨text ++ ['\n'], by simp, by simp; rfl⟩
    · rw [if_neg hc, if_neg hc]
      exact ⟨front, by rw [← List.append_assoc, ← htext], hstart⟩

/-! ## Words -/

theorem length_le_byteLength : ∀ text : List Char, text.length ≤ byteLength text
  | [] => Nat.le_refl 0
  | c :: text => by
    have hpos := c.utf8Size_pos
    have ih := length_le_byteLength text
    rw [List.length_cons, byteLength_cons]
    omega

theorem slice?_length {text before : List Char} {lo hi : Nat} (h : slice? text lo hi = some before) :
    before.length ≤ byteLength text := by
  unfold slice? at h
  split at h
  · obtain ⟨rest, hdrop, htake⟩ := Option.bind_eq_some_iff.mp h
    have hboundary : IsBoundary rest (hi - lo) := by
      rw [IsBoundary, ← takeBytes_isSome, htake]
      rfl
    have hend : IsBoundary text hi := by
      have hadd := dropBytes_add (b := hi - lo) hdrop
      rw [Nat.add_sub_cancel' ‹_›] at hadd
      rwa [IsBoundary, hadd]
    obtain ⟨part, after, hpart, -, -, hlength⟩ := hboundary.cut
    rw [htake, Option.some.injEq] at hpart
    have hchars := length_le_byteLength before
    have hle := hend.le_length
    rw [hpart] at hchars ⊢
    omega
  · cases h

section
-- with the length, every line and every column is a word too
variable {text : List Char} (h : byteLength text + 1 < UInt32.size)

include h

theorem lineStarts_eq : lineStarts text = lineBegins text := by
  rw [lineStarts, lineBegins, List.cons.injEq]
  refine ⟨rfl, (List.map_congr_left fun start hstart => ?_).trans (List.map_id _)⟩
  have hle := le_of_mem_lineStartsFrom hstart
  exact word_of_lt (by omega)

theorem locate_eq (offset : Nat) :
    let reached := (lineBegins text).filter (· ≤ min offset (byteLength text))
    locate text offset =
      ⟨reached.length, (slice? text (reached.getLastD 0) (min offset (byteLength text))).elim 0
        List.length + 1⟩ := by
  intro reached
  have hlength : word (byteLength text) = byteLength text := word_of_lt (Nat.lt_of_succ_lt h)
  have hlines : reached.length ≤ byteLength text + 1 := by
    have hall : (lineBegins text).length ≤ byteLength text + 1 :=
      Nat.succ_le_succ (length_lineStartsFrom_le text 0)
    exact Nat.le_trans (List.length_filter_le ..) hall
  have hline : word reached.length = reached.length := word_of_lt (Nat.lt_of_le_of_lt hlines h)
  simp only [locate, lineStarts_eq h, hlength]
  rw [show word _ = reached.length from hline]
  cases hslice : slice? text (reached.getLastD 0) (min offset (byteLength text)) with
  | none => rfl
  | some before =>
    have hcolumn := slice?_length hslice
    have hword : word (before.length + 1) = before.length + 1 := word_of_lt (by omega)
    simp [hword]

theorem locate_line (offset : Nat) :
    (locate text offset).line = 1 + ((bytesOf text).take (min offset (byteLength text))).count lineFeed := by
  have hcount := length_lineStartsFrom_filter text 0 (min offset (byteLength text))
  rw [Nat.zero_add] at hcount
  rw [locate_eq h]
  simp only [lineBegins]
  rw [List.filter_cons_of_pos (by simp), List.length_cons, hcount, Nat.add_comm]

theorem locate_misplaced {offset : Nat} (hmisplaced : ¬ IsBoundary text (min offset (byteLength text))) :
    (locate text offset).column = 1 := by
  rw [locate_eq h]
  simp only
  cases hslice : slice? text _ (min offset (byteLength text)) with
  | none => rfl
  | some before => exact absurd (slice?_isSome_iff.mp (Option.isSome_of_eq_some hslice)).2.2 hmisplaced

end

theorem locate_boundary {before rest : List Char} (h : byteLength (before ++ rest) + 1 < UInt32.size) :
    locate (before ++ rest) (byteLength before) = ⟨(lineBegins before).length, (lastLine before).length + 1⟩ := by
  obtain ⟨front, hbefore, hstart⟩ := exists_lastLine before
  have hlength : byteLength before = byteLength front + byteLength (lastLine before) := by
    rw [← byteLength_append, ← hbefore]
  have hslice : slice? (before ++ rest) (byteLength front) (byteLength before) = some (lastLine before) := by
    have hdrop := dropBytes_append front (lastLine before ++ rest) 0
    rw [← List.append_assoc, ← hbefore, Nat.add_zero, dropBytes_zero] at hdrop
    rw [slice?, if_pos (by omega), hdrop, Option.bind_some, hlength, Nat.add_sub_cancel_left, takeBytes_append]
  have hmin : min (byteLength before) (byteLength (before ++ rest)) = byteLength before := by
    rw [byteLength_append]
    omega
  rw [locate_eq h]
  simp only [hmin, lineBegins_filter, ← hstart, hslice]
  rfl

/-- In a text of one line that is one byte too long for its length to be a word, everything is at the start. -/
theorem locate_wrapped {text : List Char} (h : byteLength text = UInt32.size) (hline : '\n' ∉ text)
    (offset : Nat) :
    locate text offset = ⟨1, 1⟩ := by
  have hlength : word (byteLength text) = 0 := by rw [h]; rfl
  have hstarts : lineStarts text = [0] := by
    rw [lineStarts, lineStartsFrom_eq_nil hline]
    rfl
  have hempty : slice? text 0 0 = some [] := by simp [slice?, takeBytes]
  simp only [locate, hlength, hstarts, Nat.min_zero, Nat.le_refl, decide_true, List.filter_cons_of_pos,
    List.filter_nil, List.getLastD_cons, List.getLastD_nil, hempty]
  rfl

/-! ## Scans -/

namespace Location

def past (l : Location) (c : Char) : Location :=
  if c = '\n' then ⟨l.line + 1, 1⟩ else ⟨l.line, l.column + 1⟩

def scan (text : List Char) : Location :=
  text.foldl past ⟨1, 1⟩

/-- The location is on an earlier line, or on the line and in an earlier column. -/
def Before (a b : Location) : Prop :=
  a.line < b.line ∨ a.line = b.line ∧ a.column < b.column

theorem not_before_self (l : Location) : ¬ l.Before l := by
  unfold Before
  omega

theorem Before.trans {a b c : Location} (hab : a.Before b) (hbc : b.Before c) : a.Before c := by
  unfold Before at *
  omega

theorem before_past (l : Location) (c : Char) : l.Before (l.past c) := by
  unfold past Before
  split
  · exact Or.inl (Nat.lt_succ_self _)
  · exact Or.inr ⟨rfl, Nat.lt_succ_self _⟩

theorem before_foldl_past (c : Char) (more : List Char) : ∀ l : Location, l.Before ((c :: more).foldl past l) := by
  induction more generalizing c with
  | nil => exact fun l => before_past l c
  | cons d more ih => exact fun l => (before_past l c).trans (ih d (l.past c))

theorem scan_eq (text : List Char) : scan text = ⟨(lineBegins text).length, (lastLine text).length + 1⟩ := by
  induction text using List.reverseRecOn with
  | nil => rfl
  | append_singleton text c ih =>
    rw [scan, List.foldl_append, ← scan, ih, lineBegins_concat, lastLine_concat]
    by_cases hc : c = '\n' <;> simp [past, hc]

end Location

theorem locate_eq_scan {before rest : List Char} (h : byteLength (before ++ rest) + 1 < UInt32.size) :
    locate (before ++ rest) (byteLength before) = .scan before := by
  rw [locate_boundary h, Location.scan_eq]

theorem locate_before {text : List Char} (h : byteLength text + 1 < UInt32.size) {a b : Nat}
    (ha : IsBoundary text a)
    (hb : IsBoundary text b) (hlt : a < b) : (locate text a).Before (locate text b) := by
  obtain ⟨before, rest, -, hdrop, rfl, rfl⟩ := ha.cut
  have hadd := dropBytes_add (b := b - byteLength before) hdrop
  rw [Nat.add_sub_cancel' (Nat.le_of_lt hlt)] at hadd
  have hrest : IsBoundary rest (b - byteLength before) := by
    unfold IsBoundary at hb ⊢
    rwa [← hadd]
  obtain ⟨more, after, -, -, rfl, hmore⟩ := hrest.cut
  have hlater : byteLength (before ++ more) = b := by
    rw [byteLength_append]
    omega
  have hfirst := locate_eq_scan h
  have hsecond : locate ((before ++ more) ++ after) (byteLength (before ++ more)) = .scan (before ++ more) :=
    locate_eq_scan (by rwa [List.append_assoc])
  rw [List.append_assoc, hlater] at hsecond
  rw [hfirst, hsecond, Location.scan, Location.scan, List.foldl_append]
  cases more with
  | nil => rw [byteLength_nil] at hmore; omega
  | cons c more => exact Location.before_foldl_past c more _

/-! ## Searches -/

/-- What a search for `key` in a sorted table may answer: where it stands, or where it is missing. -/
inductive Answers (table : List Nat) (key : Nat) : Except Nat Nat → Prop where
  | found {i : Nat} (h : table[i]? = some key) : Answers table key (.ok i)
  | missing {i : Nat} (hle : i ≤ table.length) (hbefore : ∀ x ∈ table.take i, x < key)
    (hafter : ∀ x ∈ table.drop i, key < x) : Answers table key (.error i)

/-- The entry that a search leads to: what it found, or what stands before the place where it is missing. -/
def entryOf? : Except Nat Nat → Option Nat
  | .ok i => some i
  | .error 0 => none
  | .error (i + 1) => some i

theorem exists_answers :
    ∀ {table : List Nat} (key : Nat), table.Pairwise (· < ·) → ∃ answer, Answers table key answer
  | [], key, _ => ⟨.error 0, .missing (Nat.le_refl _) (by simp) (by simp)⟩
  | x :: table, key, h => by
    obtain ⟨hfirst, h⟩ := List.pairwise_cons.mp h
    obtain ⟨answer, hanswer⟩ := exists_answers key h
    rcases Nat.lt_trichotomy key x with hlt | rfl | hgt
    · refine ⟨.error 0, .missing (Nat.zero_le _) (by simp) fun y hy => ?_⟩
      rcases List.mem_cons.mp hy with rfl | hy
      · exact hlt
      · exact hlt.trans (hfirst y hy)
    · exact ⟨.ok 0, .found rfl⟩
    · cases hanswer with
      | found hi => exact ⟨.ok _, .found (i := _ + 1) hi⟩
      | missing hle hbefore hafter =>
        refine ⟨.error _, .missing (i := _ + 1) (Nat.succ_le_succ hle) ?_ hafter⟩
        rintro y (_ | ⟨_, hy⟩)
        · exact hgt
        · exact hbefore y hy

theorem lineStartsFrom_pairwise : ∀ (text : List Char) (base : Nat), (lineStartsFrom base text).Pairwise (· < ·)
  | [], _ => .nil
  | c :: text, base => by
    have ih := lineStartsFrom_pairwise text (base + c.utf8Size)
    rw [lineStartsFrom]
    split
    · exact .cons (fun start hstart => lt_of_mem_lineStartsFrom hstart) ih
    · exact ih

theorem lineBegins_pairwise (text : List Char) : (lineBegins text).Pairwise (· < ·) :=
  .cons (fun _ hstart => lt_of_mem_lineStartsFrom hstart) (lineStartsFrom_pairwise text 0)

theorem filter_eq_take {table : List Nat} {key n : Nat} (hbefore : ∀ x ∈ table.take n, x ≤ key)
    (hafter : ∀ x ∈ table.drop n, key < x) : table.filter (· ≤ key) = table.take n := by
  conv_lhs => rw [← List.take_append_drop n table]
  rw [List.filter_append, List.filter_eq_self.mpr (by simpa using hbefore),
    List.filter_eq_nil_iff.mpr (by simpa using hafter), List.append_nil]

theorem Answers.entry {table : List Nat} {key : Nat} {answer : Except Nat Nat} (h : Answers table key answer)
    (hsorted : table.Pairwise (· < ·)) (hfirst : ∃ x, table[0]? = some x ∧ x ≤ key) :
    ∃ line start, entryOf? answer = some line ∧ table[line]? = some start ∧
      table.filter (· ≤ key) = table.take (line + 1) := by
  cases h with
  | @found i hi =>
    obtain ⟨hlt, hkey⟩ := List.getElem?_eq_some_iff.mp hi
    refine ⟨i, key, rfl, hi, filter_eq_take (fun x hx => ?_) fun x hx => ?_⟩
    · obtain ⟨j, hj, rfl⟩ := List.mem_take_iff_getElem.mp hx
      rcases Nat.lt_or_ge j i with hji | hij
      · have := List.pairwise_iff_getElem.mp hsorted j i (by omega) hlt hji
        omega
      · obtain rfl : j = i := by omega
        omega
    · obtain ⟨j, hj, rfl⟩ := List.mem_drop_iff_getElem.mp hx
      have := List.pairwise_iff_getElem.mp hsorted i (i + 1 + j) hlt (by omega) (by omega)
      omega
  | @missing i hle hbefore hafter =>
    cases i with
    | zero =>
      -- nothing stands below the first entry
      obtain ⟨x, hx, hxkey⟩ := hfirst
      have := hafter x (List.mem_of_getElem? hx)
      omega
    | succ i =>
      exact ⟨i, table[i], rfl, List.getElem?_eq_getElem _,
        filter_eq_take (fun x hx => Nat.le_of_lt (hbefore x hx)) hafter⟩

theorem locate_of_answers {text : List Char} (h : byteLength text + 1 < UInt32.size) {offset : Nat}
    {answer : Except Nat Nat} (hanswer : Answers (lineStarts text) (min offset (byteLength text)) answer) :
    ∃ line start, entryOf? answer = some line ∧ (lineStarts text)[line]? = some start ∧
      locate text offset =
        ⟨line + 1, (slice? text start (min offset (byteLength text))).elim 0 List.length + 1⟩ := by
  rw [lineStarts_eq h] at hanswer ⊢
  obtain ⟨line, start, hentry, hstart, hreached⟩ :=
    hanswer.entry (lineBegins_pairwise text) ⟨0, rfl, Nat.zero_le _⟩
  refine ⟨line, start, hentry, hstart, ?_⟩
  have hlt : line < (lineBegins text).length := (List.getElem?_eq_some_iff.mp hstart).1
  have hlast : ((lineBegins text).take (line + 1)).getLastD 0 = start := by
    rw [List.take_add_one, hstart]
    simp
  have hline : ((lineBegins text).take (line + 1)).length = line + 1 := by
    rw [List.length_take]
    omega
  rw [locate_eq h]
  simp only [hreached, hlast, hline]

/-- A location is what a scan of the text before it finds, if the text is so short that words can number its
characters and its end. Its line counts the line feeds among the bytes before it, and its column the characters behind
the last of them; inside a character the column is the first. Whatever a search answers, there is a line before
the offset that it leads to, and the location is on it. Boundaries that differ are located in their order. -/
theorem locations_as_scanned (text : List Char) (offset : Nat) (h : byteLength text + 1 < UInt32.size) :
    (locate text offset).line = 1 + ((bytesOf text).take (min offset (byteLength text))).count lineFeed ∧
    (IsBoundary text (min offset (byteLength text)) →
      ∃ before, takeBytes text (min offset (byteLength text)) = some before ∧ locate text offset = .scan before ∧
        (locate text offset).column = 1 + (lastLine before).length) ∧
    (¬ IsBoundary text (min offset (byteLength text)) → (locate text offset).column = 1) ∧
    (∃ answer, Answers (lineStarts text) (min offset (byteLength text)) answer) ∧
    (∀ answer, Answers (lineStarts text) (min offset (byteLength text)) answer →
      ∃ line start, entryOf? answer = some line ∧ (lineStarts text)[line]? = some start ∧ locate text offset =
        ⟨line + 1, (slice? text start (min offset (byteLength text))).elim 0 List.length + 1⟩) ∧
    ∀ a b, IsBoundary text a → IsBoundary text b →
      (a < b → (locate text a).Before (locate text b)) ∧ (a ≠ b → locate text a ≠ locate text b) := by
  have hsorted : (lineStarts text).Pairwise (· < ·) := by
    rw [lineStarts_eq h]
    exact lineBegins_pairwise text
  refine ⟨locate_line h offset, fun hboundary => ?_, locate_misplaced h, exists_answers _ hsorted,
    fun answer => locate_of_answers h, fun a b ha hb => ⟨locate_before h ha hb, fun hne heq => ?_⟩⟩
  · obtain ⟨before, rest, htake, -, htext, hlength⟩ := hboundary.cut
    have hclamped : locate text offset = locate text (min offset (byteLength text)) := by
      simp [locate_eq h]
    have hscan : locate text offset = .scan before := by
      rw [hclamped, ← hlength, htext]
      exact locate_eq_scan (htext ▸ h)
    exact ⟨before, htake, hscan, by rw [hscan, Location.scan_eq, Nat.add_comm]⟩
  · rcases Nat.lt_or_gt_of_ne hne with hlt | hgt
    · exact Location.not_before_self _ (heq ▸ locate_before h ha hb hlt)
    · exact Location.not_before_self _ (heq ▸ locate_before h hb ha hgt)

theorem locations_as_scanned_accented :
    let text := "é\n\nx".toList
    byteLength text + 1 < UInt32.size ∧ locate text 1 = ⟨1, 1⟩ ∧ (locate text 1).column = 1 ∧
      locate text 9 = ⟨3, 2⟩ ∧ (locate text 3).Before (locate text 4) := by
  intro text
  have hword : byteLength text + 1 < UInt32.size := by decide
  obtain ⟨-, -, hinside, -, -, horder⟩ := locations_as_scanned text 1 hword
  exact ⟨hword, by decide, hinside (by decide), by decide, (horder 3 4 (by decide) (by decide)).1 (by decide)⟩

end ComponentMacros
