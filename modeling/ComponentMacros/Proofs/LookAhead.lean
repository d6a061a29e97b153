import ComponentMacros.Proofs.Inert

/-!
# Looking before parsing

A text that shows no sign of macros is not parsed. That spares nothing but work
if the program imports no macros. It can import macros only by a specifier that
is written with an escape: the look sees the text, the parser what it stands for.
-/

namespace ComponentMacros

def transformParsed (options : Options) (source : String) : Except Failure Transformed :=
  match parse options.dialect source.toList with
  | none => .error .parse
  | some program =>
    match collect? options program with
    | none => .ok (.unchanged source)
    | some collected =>
      match expansion ⟨options, source.toList, collected⟩ with
      | .error error => .error (.usage (error.locatedIn source.toList))
      | .ok draft =>
        match draft.render with
        | .error error => .error (.render error)
        | .ok code => .ok ⟨code, !draft.isEmpty, collected.usages.size⟩

theorem transform_eq_parsed (options : Options) (source : String) : transform options source =
    if options.mayImportMacros source.toList then transformParsed options source else .ok (.unchanged source) := by
  unfold transform
  by_cases hmay : options.mayImportMacros source.toList = true
  · simp only [hmay, Bool.not_true, Bool.false_eq_true, ite_false, ite_true]
    rfl
  · simp [hmay]

theorem transformParsed_unchanged_iff {options : Options} {source : String} {program : Tree}
    (hparse : parse options.dialect source.toList = some program) :
    transformParsed options source = .ok (.unchanged source) ↔ MacroImport.all options program = [] := by
  simp only [transformParsed, hparse]
  cases hcollect : collect? options program with
  | none => simpa using collect?_eq_none_iff.mp hcollect
  | some collected =>
    have hsome : MacroImport.all options program ≠ [] := by
      obtain ⟨heq, hne⟩ := collect?_imports hcollect
      rwa [← heq]
    simp only [hsome, iff_false]
    cases hdraft : expansion ⟨options, source.toList, collected⟩ with
    | error e => simp
    | ok draft =>
      simp only
      cases draft.render with
      | error e => simp
      | ok code => simp [Transformed.unchanged, expansion_not_isEmpty hcollect hdraft]

/-! ## Texts -/

theorem occursIn_iff (needle : List Char) : ∀ text : List Char, occursIn needle text = true ↔ needle <:+: text
  | [] => by simp [occursIn]
  | c :: text => by
    rw [occursIn, Bool.or_eq_true, occursIn_iff needle text, List.isPrefixOf_iff_prefix, List.infix_cons_iff]

theorem dropBytes_ends : ∀ {text : List Char} {n : Nat} {rest : List Char}, dropBytes text n = some rest →
    rest <:+ text
  | text, 0, rest, h => by
    cases text <;> (cases h; exact List.suffix_refl _)
  | [], n + 1, rest, h => nomatch h
  | c :: text, n + 1, rest, h => by
    rw [dropBytes] at h
    split at h
    · exact (dropBytes_ends h).trans (List.suffix_cons c text)
    · cases h

theorem takeBytes_starts : ∀ {text : List Char} {n : Nat} {part : List Char}, takeBytes text n = some part →
    part <+: text
  | text, 0, part, h => by
    cases text <;> (cases h; exact List.nil_prefix)
  | [], n + 1, part, h => nomatch h
  | c :: text, n + 1, part, h => by
    rw [takeBytes] at h
    split at h
    · obtain ⟨rest, hrest, rfl⟩ := Option.map_eq_some_iff.mp h
      exact List.cons_prefix_cons.mpr ⟨rfl, takeBytes_starts hrest⟩
    · cases h

theorem slice?_within {text part : List Char} {lo hi : Nat} (h : slice? text lo hi = some part) :
    part <:+: text := by
  unfold slice? at h
  split at h
  · obtain ⟨rest, hrest, hpart⟩ := Option.bind_eq_some_iff.mp h
    exact (takeBytes_starts hpart).isInfix.trans (dropBytes_ends hrest).isInfix
  · cases h

/-! ## Literals -/

theorem decodeUnits_plain : ∀ {fuel : Nat} {body : List Char}, body.length ≤ fuel → '\\' ∉ body →
    decodeUnits fuel body = some (body.map Char.toNat)
  | _, [], _, _ => by simp [decodeUnits]
  | 0, c :: body, h, _ => by cases h
  | fuel + 1, c :: body, h, hplain => by
    obtain ⟨hc, hplain⟩ := not_or.mp (mt List.mem_cons.mpr hplain)
    rw [decodeUnits, if_neg (Ne.symm hc), decodeUnits_plain (Nat.le_of_succ_le_succ h) hplain]
    rfl

theorem isLoneSurrogate_toNat (c : Char) : isLoneSurrogate c.toNat = false := by
  have hvalid : c.toNat < 0xd800 ∨ 0xdfff < c.toNat ∧ c.toNat < 0x110000 := c.valid
  simp only [isLoneSurrogate, isLeadSurrogate, isTrailSurrogate, Bool.or_eq_false_iff, Bool.and_eq_false_iff,
    decide_eq_false_iff_not]
  omega

theorem charsOfUnits_toNat (body : List Char) : charsOfUnits (body.map Char.toNat) = body := by
  have hnone : (body.map Char.toNat).any isLoneSurrogate = false := by
    simp [List.any_map, isLoneSurrogate_toNat]
  unfold charsOfUnits
  simp only [hnone, List.flatMap_map, isLoneSurrogate_toNat, Bool.false_and, Bool.or_false, Bool.false_eq_true,
    ite_false, Char.ofNat_toNat, List.flatMap_singleton']

theorem decodeLiteral?_plain {body : List Char} (h : '\\' ∉ body) :
    (decodeLiteral? body).map (·.1) = some (String.ofList body) := by
  simp [decodeLiteral?, decodeUnits_plain (Nat.le_refl _) h, charsOfUnits_toNat]

def Tree.literalBody? (source : List Char) (literal : Tree) : Option (List Char) :=
  (slice? source literal.span.start literal.span.stop).map fun raw => raw.tail.dropLast

def Tree.isSpelled (source : List Char) (t : Tree) : Bool :=
  match t.kind with
  | .string value => ((t.literalBody? source).bind decodeLiteral?).map (·.1) = some value
  | _ => true

/-- What a parser promises about the values of module specifiers. -/
def Spelled (source : List Char) (program : Tree) : Prop :=
  ∀ statement ∈ program.children, statement.kind = .importDeclaration false →
    ∀ part ∈ statement.children, part.isSpelled source = true

instance (source : List Char) (program : Tree) : Decidable (Spelled source program) :=
  inferInstanceAs (Decidable (∀ _ ∈ _, _ → ∀ _ ∈ _, _))

theorem literalBody?_within {source body : List Char} {literal : Tree}
    (h : literal.literalBody? source = some body) :
    body <:+: source := by
  obtain ⟨raw, hraw, rfl⟩ := Option.map_eq_some_iff.mp h
  have hbody : raw.tail.dropLast <:+: raw :=
    (List.dropLast_prefix _).isInfix.trans (List.tail_suffix raw).isInfix
  exact hbody.trans (slice?_within hraw)

theorem stripEnding?_starts {ending text rest : List Char} (h : Options.stripEnding? ending text = some rest) :
    rest <+: text := by
  unfold Options.stripEnding? at h
  split at h
  · cases h
    exact List.take_prefix _ _
  · cases h

theorem isConventionalSource_contains {specifier : List Char} (h : Options.isConventionalSource specifier = true) :
    "macro".toList <:+: specifier := by
  unfold Options.isConventionalSource at h
  generalize htrimmed : ((Options.stripEnding? ".cjs".toList specifier).or
    (Options.stripEnding? ".js".toList specifier)).getD specifier = trimmed at h
  have hprefix : trimmed <+: specifier := by
    rw [← htrimmed]
    cases hcjs : Options.stripEnding? ".cjs".toList specifier with
    | some rest => exact stripEnding?_starts hcjs
    | none =>
      cases hjs : Options.stripEnding? ".js".toList specifier with
      | some rest => exact stripEnding?_starts hjs
      | none => exact List.prefix_refl _
  have hword : "macro".toList <:+: trimmed := by
    rcases Bool.or_eq_true_iff.mp h with h | h
    · exact (List.suffix_cons '/' _).isInfix.trans (List.isSuffixOf_iff_suffix.mp h).isInfix
    · exact (List.suffix_cons '.' _).isInfix.trans (List.isSuffixOf_iff_suffix.mp h).isInfix
  exact hword.trans hprefix.isInfix

theorem mayImportMacros_of_contains {options : Options} {specifier : String} {source : List Char}
    (h : options.isMacroSource specifier = true) (hin : specifier.toList <:+: source) :
    options.mayImportMacros source = true := by
  unfold Options.isMacroSource at h
  unfold Options.mayImportMacros
  split at h
  · rename_i hnone
    rw [if_pos hnone, occursIn_iff]
    exact (isConventionalSource_contains h).trans hin
  · rename_i hsome
    rw [if_neg hsome, List.any_eq_true]
    exact ⟨specifier, List.contains_iff_mem.mp h, (occursIn_iff _ _).mpr hin⟩

theorem missed_import_escapes {options : Options} {source : List Char} {program statement : Tree}
    {imported : MacroImport} (hspelled : Spelled source program) (hmay : options.mayImportMacros source = false)
    (hmem : statement ∈ program.children) (h : MacroImport.ofTree? options statement = some imported) :
    ∃ part ∈ statement.children, part.kind = .string imported.source ∧
      ∃ body, part.literalBody? source = some body ∧ '\\' ∈ body := by
  unfold MacroImport.ofTree? at h
  split at h
  · rename_i value hkind hspecifier
    split at h
    · rename_i hmacro
      cases h
      obtain ⟨part, hpart, hvalue⟩ := List.exists_of_findSome?_eq_some hspecifier
      have hstring : part.kind = .string value := by
        split at hvalue
        · rename_i hk
          cases hvalue
          exact hk
        · cases hvalue
      have hspelled := hspelled statement hmem hkind part hpart
      simp only [Tree.isSpelled, hstring, decide_eq_true_eq] at hspelled
      obtain ⟨literal, hliteral, hdecoded⟩ := Option.map_eq_some_iff.mp hspelled
      obtain ⟨body, hbody, hdecode⟩ := Option.bind_eq_some_iff.mp hliteral
      refine ⟨part, hpart, hstring, body, hbody, ?_⟩
      -- without an escape the specifier stands in the text, where it is seen
      by_contra hplain
      have hsame := decodeLiteral?_plain hplain
      rw [hdecode, Option.map_some, hdecoded, Option.some.injEq] at hsame
      have hin : value.toList <:+: source := by
        rw [hsame, String.toList_ofList]
        exact literalBody?_within hbody
      rw [mayImportMacros_of_contains hmacro hin] at hmay
      cases hmay
    · cases h
  · cases h

/-- The look ahead and the parser agree on a text exactly if the look sees something or the program
imports no macros. Every import that the look misses writes its specifier with an escape. -/
theorem look_ahead_agrees_iff {options : Options} {source : String} {program : Tree}
    (hparse : parse options.dialect source.toList = some program) (hspelled : Spelled source.toList program) :
    (transform options source = transformParsed options source ↔
      options.mayImportMacros source.toList = true ∨ MacroImport.all options program = []) ∧
    (options.mayImportMacros source.toList = false →
      ∀ statement ∈ program.children, ∀ imported, MacroImport.ofTree? options statement = some imported →
        ∃ part ∈ statement.children, part.kind = .string imported.source ∧
          ∃ body, part.literalBody? source.toList = some body ∧ '\\' ∈ body) := by
  refine ⟨?_, fun hmay statement hmem imported h => missed_import_escapes hspelled hmay hmem h⟩
  rw [transform_eq_parsed]
  cases hmay : options.mayImportMacros source.toList with
  | true => simp
  | false =>
    simp only [Bool.false_eq_true, ite_false, false_or]
    rw [eq_comm]
    exact transformParsed_unchanged_iff hparse

def escapedSample : String :=
  "import \x7b component \x7d from 'm.m\\u0061cro';\nconst A = component(\x7b a: 1 \x7d);"

theorem look_ahead_agrees_iff_escaped : ∃ program,
    parse (Options.dialect {}) escapedSample.toList = some program ∧ Spelled escapedSample.toList program ∧
    Options.mayImportMacros {} escapedSample.toList = false ∧
    transform {} escapedSample ≠ transformParsed {} escapedSample ∧
    ∃ statement ∈ program.children, ∃ part ∈ statement.children, ∃ body,
      part.literalBody? escapedSample.toList = some body ∧ '\\' ∈ body := by
  have hgood : (parse (Options.dialect {}) escapedSample.toList).any (fun program =>
      decide (Spelled escapedSample.toList program) && !(MacroImport.all {} program).isEmpty) = true := by
    decide +kernel
  have hmay : Options.mayImportMacros {} escapedSample.toList = false := by decide +kernel
  simp only [Option.any_eq_true, Bool.and_eq_true, decide_eq_true_eq, Bool.not_eq_true',
    List.isEmpty_eq_false_iff] at hgood
  obtain ⟨program, hparse, hspelled, himports⟩ := hgood
  obtain ⟨hagree, hescape⟩ := look_ahead_agrees_iff hparse hspelled
  refine ⟨program, hparse, hspelled, hmay, ?_, ?_⟩
  · intro hsame
    rcases hagree.mp hsame with h | h
    · rw [hmay] at h; cases h
    · exact himports h
  · obtain ⟨imported, himported⟩ := List.exists_mem_of_ne_nil _ himports
    obtain ⟨statement, hmem, h⟩ := List.mem_filterMap.mp himported
    obtain ⟨part, hpart, -, body, hbody⟩ := hescape hmay statement hmem imported h
    exact ⟨statement, hmem, part, hpart, body, hbody⟩

end ComponentMacros
