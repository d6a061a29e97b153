import ComponentMacros.Proofs.ImportRemoval

/-!
# Running the transform again

A second run leaves the output alone exactly if the output is inert. It need not
be: a call that was the body of an arrow function leaves a literal that reads as a
block, and without an import the next line may read as the rest of the line
before, with an import where there was a template. If the macro imports are not
used, the output is inert as soon as all other statements are read as they were.
-/

namespace ComponentMacros

/-! ## Statements that are moved -/

theorem moduleSpecifier?_shifted (lo pos : Nat) (t : Tree) :
    (t.shifted lo pos).moduleSpecifier? = t.moduleSpecifier? := by
  unfold Tree.moduleSpecifier?
  rw [children_shifted, List.findSome?_map]
  simp only [Function.comp_def, kind_shifted]

theorem ofTree?_shifted_isNone (options : Options) (lo pos : Nat) (t : Tree) :
    (MacroImport.ofTree? options (t.shifted lo pos)).isNone = (MacroImport.ofTree? options t).isNone := by
  unfold MacroImport.ofTree?
  rw [kind_shifted, moduleSpecifier?_shifted]
  repeat' split
  all_goals rfl

theorem laidOut_ofTree? {options : Options} {stays : List Stay}
    (h : ∀ stay ∈ stays, (MacroImport.ofTree? options stay.statement).isNone = true) (offset : Nat) :
    (laidOut offset stays).filterMap (MacroImport.ofTree? options) = [] := by
  induction stays generalizing offset with
  | nil => rfl
  | cons stay stays ih =>
    have hfirst : MacroImport.ofTree? options (stay.statement.movedTo (offset + byteLength stay.gap)) = none := by
      rw [← Option.isNone_iff_eq_none, Tree.movedTo, ofTree?_shifted_isNone]
      exact h stay (List.mem_cons_self ..)
    rw [laidOut, List.filterMap_cons_none hfirst]
    exact ih (fun other hother => h other (List.mem_cons_of_mem _ hother)) _

/-! ## Imports without usages -/

/-- Every other statement of a program is read in the output as it was between the macro imports. -/
def Options.KeepsStatements (options : Options) (source code : List Char) (program : Tree) : Prop :=
  let (stays, tail) := leftOver options source program
  Along (Stay.Reads (rulesFor code) ((readingOf options.dialect code).context options.dialect)) tail
    (skipInterpreterLine source).offset stays

instance (options : Options) (source code : List Char) (program : Tree) :
    Decidable (options.KeepsStatements source code program) :=
  decidableAlong _ _ _

section
variable {options : Options} {text code : String} {program : Tree} {stays : List Stay} {tail : List Char}

theorem isInert_of_left (hleft : leftOver options text.toList program = (stays, tail)) {again : Tree}
    {offset : Nat}
    (hagain : parse options.dialect code.toList = some again) (hchildren : again.children = laidOut offset stays) :
    options.isInert code = true := by
  have hkept : ∀ stay ∈ stays, (MacroImport.ofTree? options stay.statement).isNone = true := by
    intro stay hstay
    have hmem : stay.statement ∈ stays.map Stay.statement := List.mem_map_of_mem hstay
    rw [left_statements hleft] at hmem
    exact (List.mem_filter.mp hmem).2
  simp [Options.isInert, hagain, MacroImport.all, hchildren, laidOut_ofTree? hkept]

/-- If a program without usages keeps its statements, its output is inert. -/
theorem isInert_of_unused {r : Transformed} (hparse : parse options.dialect text.toList = some program)
    (hlayout : Layout text.toList program) (hshape : Shape program) (hclosed : Closed program)
    (hstrewn : Strewn text.toList program) (h : transform options text = .ok r) (hunused : r.usages = 0)
    (hkeeps : options.KeepsStatements text.toList r.code.toList program) : options.isInert r.code = true := by
  cases hinert : options.isInert text with
  | true =>
    rw [transform_of_isInert hinert] at h
    cases h
    exact hinert
  | false =>
    have hmay : options.mayImportMacros text.toList = true := by
      simp only [Options.isInert, Bool.or_eq_false_iff, Bool.not_eq_false'] at hinert
      exact hinert.1
    obtain ⟨collected, draft, hcollect, hdraft, hcode⟩ := transform_active hparse h hinert
    have husages : collected.usages.pending = [] := by
      rw [transform_eq hmay hparse hcollect hdraft hcode, Except.ok.injEq] at h
      rw [← h] at hunused
      exact List.length_eq_zero_iff.mp hunused
    obtain ⟨stays, tail, hleft⟩ : ∃ stays tail, leftOver options text.toList program = (stays, tail) := ⟨_, _, rfl⟩
    obtain ⟨code, htransform, htext⟩ :=
      unused_rewritten hparse hlayout hshape hclosed hstrewn hmay hcollect husages hleft
    rw [h, Except.ok.injEq] at htransform
    subst htransform
    rw [Options.KeepsStatements, hleft] at hkeeps
    obtain ⟨again, hagain, hchildren⟩ := parse_left hleft hlayout hstrewn htext hparse hkeeps
    exact isInert_of_left hleft hagain hchildren

end

/-! ## Statements that are rewritten -/

namespace Setting

variable (setting : Setting) (program : Tree)

/-- What a run leaves of the statements of a program, and the text behind the last one. -/
def remains : List Stay × List Char :=
  let (stays, tail) := leftOver setting.options setting.source program
  (stays.map setting.rewritten, tail)

def output : List Char :=
  interpreterLine setting.source ++
    ((setting.remains program).1.flatMap Stay.written ++ (setting.remains program).2)

def outputRules : Rules := rulesFor (setting.output program)

def outputContext : Context :=
  (readingOf setting.options.dialect (setting.output program)).context setting.options.dialect

/-- What is left of each statement still opens one, and in its place it is read up to
its end or is no statement. -/
def Decides : Prop :=
  (∀ stay ∈ (setting.remains program).1, opensStatement stay.text = true) ∧
    Along (Stay.Decided (setting.outputRules program) (setting.outputContext program)) (setting.remains program).2
      (skipInterpreterLine setting.source).offset (setting.remains program).1

/-- What is left of each statement is read in its place, and none of the statements read imports macros. -/
def Rereads : Prop :=
  ∃ statements, readInTurn (setting.outputRules program) (setting.outputContext program)
    (setting.remains program).2
      (skipInterpreterLine setting.source).offset (setting.remains program).1 = some statements ∧
    areSound setting.options.dialect statements = true ∧
    ∀ t ∈ statements, MacroImport.ofTree? setting.options t = none

instance : Decidable (setting.Decides program) :=
  have := @decidableAlong (Stay.Decided (setting.outputRules program) (setting.outputContext program)) _
    (setting.remains program).2 (skipInterpreterLine setting.source).offset (setting.remains program).1
  inferInstanceAs (Decidable (_ ∧ _))

instance : Decidable (setting.Rereads program) :=
  decidable_of_iff
    ((readInTurn (setting.outputRules program) (setting.outputContext program) (setting.remains program).2
      (skipInterpreterLine setting.source).offset (setting.remains program).1).any fun statements =>
        areSound setting.options.dialect statements &&
          statements.all fun t => (MacroImport.ofTree? setting.options t).isNone) <| by
    simp [Rereads, Option.any_eq_true]

end Setting

theorem isInert_iff_parse {options : Options} {code : String} : options.isInert code = true ↔
    options.mayImportMacros code.toList = false ∨ ∃ again, parse options.dialect code.toList = some again ∧
      ∀ t ∈ again.children, MacroImport.ofTree? options t = none := by
  unfold Options.isInert MacroImport.all
  rw [Bool.or_eq_true, Bool.not_eq_true']
  refine or_congr_right ?_
  cases parse options.dialect code.toList with
  | none => simp
  | some again => simp

section
variable {options : Options} {source : String} {r : Transformed} {program : Tree} {collected : Collected}
  (hparse : parse options.dialect source.toList = some program) (hlayout : Layout source.toList program)
  (hshape : Shape program) (hclosed : Closed program) (hstrewn : Strewn source.toList program)
  (h : transform options source = .ok r) (hactive : options.isInert source = false)
  (hcollect : collect? options program = some collected)
include hparse hlayout hshape hclosed hstrewn h hactive hcollect

theorem transform_output : r.code.toList = Setting.output ⟨options, source.toList, collected⟩ program :=
  transform_rewritten hparse hlayout hshape hclosed hstrewn h hactive hcollect rfl

/-- The output of a run is inert exactly if it shows no sign of macros or what is left of
each statement is read again. -/
theorem isInert_iff_rereads (hdecides : Setting.Decides ⟨options, source.toList, collected⟩ program) :
    options.isInert r.code = true ↔
      options.mayImportMacros (Setting.output ⟨options, source.toList, collected⟩ program) = false ∨
        Setting.Rereads ⟨options, source.toList, collected⟩ program := by
  have hcode := transform_output hparse hlayout hshape hclosed hstrewn h hactive hcollect
  obtain ⟨hopens, hdecided⟩ := hdecides
  obtain ⟨hstays, htail⟩ := @left_apart options source program _ _ rfl hlayout hstrewn
  have hgaps : (Setting.remains ⟨options, source.toList, collected⟩ program).1.map Stay.gap =
      (leftOver options source.toList program).1.map Stay.gap := by
    simp [Setting.remains, Setting.rewritten]
  have hapart := areApart_of_gaps hstays hgaps hopens
  have hline := left_line rfl hlayout hstrewn hapart hgaps hcode
  rw [isInert_iff_parse, hcode]
  rw [hcode] at hline
  refine or_congr_right ⟨?_, ?_⟩
  · rintro ⟨again, hagain, hnone⟩
    exact ⟨again.children, readInTurn_of_parse hline hapart htail hdecided hagain, parse_sound hagain, hnone⟩
  · rintro ⟨statements, hread, hsound, hnone⟩
    exact ⟨_, parse_of_readInTurn hline hapart htail hread hsound, hnone⟩

end

/-- A second run leaves the output alone exactly if the output is inert. It is if nothing was changed,
and if a program without usages keeps its statements. What is left of each statement is made by its own sites only;
as long as it is read up to its end in its place, or is no statement there, the output is inert if and only if it
shows no sign of macros or all that is left is read again, as statements that import none. What a second run does
not change it leaves alone. -/
theorem second_run_unchanged_iff {options : Options} {source : String} {r : Transformed}
    (h : transform options source = .ok r) :
    (transform options r.code = .ok ⟨r.code, false, 0⟩ ↔ options.isInert r.code = true) ∧
    (r.changed = false → r = ⟨source, false, 0⟩ ∧ options.isInert r.code = true) ∧
    (∀ program, parse options.dialect source.toList = some program → Layout source.toList program → Shape program →
      Closed program → Strewn source.toList program → r.usages = 0 →
      options.KeepsStatements source.toList r.code.toList program → options.isInert r.code = true) ∧
    (∀ program collected, parse options.dialect source.toList = some program → Layout source.toList program →
      Shape program → Closed program → Strewn source.toList program → options.isInert source = false →
      collect? options program = some collected →
      let setting : Setting := ⟨options, source.toList, collected⟩
      r.code.toList = setting.output program ∧
      (setting.Decides program → (options.isInert r.code = true ↔
        options.mayImportMacros (setting.output program) = false ∨ setting.Rereads program))) ∧
    ∀ r', transform options r.code = .ok r' → r'.changed = false → r' = ⟨r.code, false, 0⟩ := by
  refine ⟨⟨?_, transform_of_isInert⟩, ?_, ?_, ?_, ?_⟩
  · intro hagain
    exact (transform_eq_unchanged hagain rfl).1
  · intro hr
    obtain ⟨hinert, rfl⟩ := transform_eq_unchanged h hr
    exact ⟨rfl, hinert⟩
  · intro program hparse hlayout hshape hclosed hstrewn hunused
    exact isInert_of_unused hparse hlayout hshape hclosed hstrewn h hunused
  · intro program collected hparse hlayout hshape hclosed hstrewn hactive hcollect setting
    exact ⟨transform_output hparse hlayout hshape hclosed hstrewn h hactive hcollect,
      isInert_iff_rereads hparse hlayout hshape hclosed hstrewn h hactive hcollect⟩
  · intro r' hagain hr'
    exact (transform_eq_unchanged hagain hr').2

def arrowSample : String :=
  "import \x7b component \x7d from 'm.macro';\nconst f = () => component(\x7b a: 1, b: 2 \x7d); // macro"

def plainSample : String :=
  "import \x7b component \x7d from 'm.macro';\nconst f = component(\x7b a: 1, b: 2 \x7d); // macro"

def unusedSample : String :=
  "const a = b; // macro\nimport 'm.macro';\n(c)"

def showsRereads (source : String) (reads : Bool) (program : Tree) : Bool :=
  (collect? {} program).any fun collected =>
    let setting : Setting := ⟨{}, source.toList, collected⟩
    decide (Layout source.toList program) && decide (Shape program) && decide (Closed program) &&
      decide (Strewn source.toList program) && decide (setting.Decides program) &&
      Options.mayImportMacros {} (setting.output program) && decide (setting.Rereads program) == reads

def showsKept (code : String) (program : Tree) : Bool :=
  let source := unusedSample.toList
  decide (Layout source program) && decide (Shape program) && decide (Closed program) &&
    decide (Strewn source program) &&
    decide (Options.KeepsStatements {} source code.toList program)

/-- A second run stops at the block that was a literal, as what is left of the statement is none. It leaves the
output alone where the literal is still read, and statements that are still read as they were. -/
theorem second_run_unchanged_iff_arrow :
    (∃ r, transform {} arrowSample = .ok r ∧ r = ⟨"const f = () => \x7b a: 1, b: 2 \x7d; // macro", true, 1⟩ ∧
      (transform {} r.code = .ok ⟨r.code, false, 0⟩ ↔ Options.isInert {} r.code = true) ∧
      Options.isInert {} r.code = false) ∧
    (∃ r, transform {} plainSample = .ok r ∧
      r = ⟨"const f = \x7b name: \"f\", a: 1, b: 2 \x7d; // macro", true, 1⟩ ∧
      transform {} r.code = .ok ⟨r.code, false, 0⟩) ∧
    ∃ r program, transform {} unusedSample = .ok r ∧ r = ⟨"const a = b; // macro\n(c)", true, 0⟩ ∧
      parse (Options.dialect {}) unusedSample.toList = some program ∧ showsKept r.code program = true ∧
      transform {} r.code = .ok ⟨r.code, false, 0⟩ := by
  have hrun : transform {} arrowSample = .ok ⟨"const f = () => \x7b a: 1, b: 2 \x7d; // macro", true, 1⟩ :=
    toOption_eq_some (by decide +kernel)
  have hplain : transform {} plainSample =
      .ok ⟨"const f = \x7b name: \"f\", a: 1, b: 2 \x7d; // macro", true, 1⟩ :=
    toOption_eq_some (by decide +kernel)
  have hother : transform {} unusedSample = .ok ⟨"const a = b; // macro\n(c)", true, 0⟩ :=
    toOption_eq_some (by decide +kernel)
  -- whether the output is inert is read off what is left of the statements
  have hreads : ∀ {source : String} {reads : Bool} {r : Transformed},
      ((parse (Options.dialect {}) source.toList).any (showsRereads source reads)) = true →
        transform {} source = .ok r →
      r.changed = true → (Options.isInert {} r.code = true ↔ reads = true) := by
    intro source reads r hsample hr hchanged
    obtain ⟨program, hparse, hshows⟩ := Option.any_eq_true _ _ |>.mp hsample
    obtain ⟨collected, hcollect, hshows⟩ := Option.any_eq_true _ _ |>.mp hshows
    simp only [Bool.and_eq_true, decide_eq_true_eq, beq_iff_eq] at hshows
    obtain ⟨⟨⟨⟨⟨⟨hlayout, hshape⟩, hclosed⟩, hstrewn⟩, hdecides⟩, hmay⟩, hrereads⟩ := hshows
    obtain ⟨-, -, -, hleft, -⟩ := second_run_unchanged_iff hr
    have hiff :=
      (hleft program collected hparse hlayout hshape hclosed hstrewn (not_isInert_of_changed hr hchanged)
      hcollect).2 hdecides
    rw [hiff, hmay, ← hrereads]
    simp
  have hsample : ((parse (Options.dialect {}) unusedSample.toList).any
      (showsKept "const a = b; // macro\n(c)")) = true := by decide +kernel
  obtain ⟨program, hparse, hshows⟩ := Option.any_eq_true _ _ |>.mp hsample
  have hgood := hshows
  unfold showsKept at hgood
  simp only [Bool.and_eq_true, decide_eq_true_eq] at hgood
  obtain ⟨⟨⟨⟨hlayout, hshape⟩, hclosed⟩, hstrewn⟩, hkeeps⟩ := hgood
  obtain ⟨hiff, -, hunused, -, -⟩ := second_run_unchanged_iff hother
  refine ⟨⟨_, hrun, rfl, (second_run_unchanged_iff hrun).1, ?_⟩, ⟨_, hplain, rfl, ?_⟩,
    _, program, hother, rfl, hparse, hshows, ?_⟩
  · have hnot := @hreads arrowSample false _ (by decide +kernel) hrun rfl
    rw [Bool.eq_false_iff, ne_eq, hnot]
    exact Bool.false_ne_true
  · exact (second_run_unchanged_iff hplain).1.mpr
      ((@hreads plainSample true _ (by decide +kernel) hplain rfl).mpr rfl)
  · exact hiff.mpr (hunused program hparse hlayout hshape hclosed hstrewn rfl hkeeps)

-- the expression in front of the template reads as a division in the output
example : (transform {} "a\nimport 'm.macro';\n/`/; `\nimport 'n.macro';\n`;/`/g").toOption.map
    (fun r => (r.code, Options.isInert {} r.code)) =
      some ("a\n/`/; `\nimport 'n.macro';\n`;/`/g", false) := by
  decide +kernel

end ComponentMacros
