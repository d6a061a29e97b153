import ComponentMacros.Proofs.Completion
import ComponentMacros.Proofs.InsetEdits

/-!
# The shorthand for functional components

A functional component is defined by a literal with a render function or by the
function alone. The two rules go different ways: one takes the call off the
literal, the other makes a literal up around the function. They come to the same
end, the code or the complaint, unless the look-ahead already tells the two texts
apart.
-/

namespace ComponentMacros

/-- Two transforms come to one end: the same code after the same number of usages, or errors that read the same. -/
inductive Alike : Except Failure Transformed → Except Failure Transformed → Prop where
  | done (r : Transformed) : Alike (.ok r) (.ok r)
  | refused {error error' : UsageError} (message : error.message = error'.message)
    (macroName : error.macroName = error'.macroName) : Alike (.error (.usage error)) (.error (.usage error'))

theorem Alike.symm {result result' : Except Failure Transformed} (h : Alike result result') :
    Alike result' result := by
  cases h with
  | done r => exact .done r
  | refused message macroName => exact .refused message.symm macroName.symm

theorem Alike.ok {result result' : Except Failure Transformed} {r : Transformed} (h : Alike result result')
    (hr : result = .ok r) : result' = .ok r := by
  cases h with
  | done => exact hr
  | refused => cases hr

/-- The text reads as the program, and the program keeps what a parser promises. -/
structure Options.Reads (options : Options) (text : List Char) (program : Tree) : Prop where
  parse : parse options.dialect text = some program
  layout : Layout text program
  shape : Shape program
  closed : Closed program
  heading : Heading program

theorem bareText_append (pre body post : String) : (pre ++ body ++ post).toList =
    bareText pre.toList body.toList post.toList := by
  simp [bareText]

theorem literalText_append (pre body post : String) : (pre ++ "\x7b render: " ++ body ++ " \x7d" ++ post).toList =
    literalText pre.toList body.toList post.toList := by
  unfold literalText literalHead literalTail
  simp only [String.toList_append, List.append_assoc]

/-! ## Ends of a transform -/

section
variable {options : Options} {text : String} {program : Tree} {collected : Collected}

theorem transform_refused (hmay : options.mayImportMacros text.toList = true)
    (hparse : parse options.dialect text.toList = some program)
    (hcollect : collect? options program = some collected) {error : UsageError}
    (h : expansion ⟨options, text.toList, collected⟩ = .error error) :
    transform options text = .error (.usage (error.locatedIn text.toList)) := by
  simp only [transform, hmay, hparse, hcollect, h, Bool.not_true, Bool.false_eq_true, ite_false]

theorem transform_skipped (hmay : options.mayImportMacros text.toList = false) :
    transform options text = .ok (.unchanged text) := by
  simp only [transform, hmay, Bool.not_false, ite_true]

theorem transform_size (hmay : options.mayImportMacros text.toList = true)
    (hparse : parse options.dialect text.toList = some program)
    (hcollect : collect? options program = some collected) {r : Transformed} (h : transform options text = .ok r) :
    r.usages = collected.usages.size := by
  simp only [transform, hmay, hparse, hcollect, Bool.not_true, Bool.false_eq_true, ite_false] at h
  split at h
  · cases h
  · split at h <;> cases h
    rfl

theorem not_alike_skipped {skipped : String} (hmay : options.mayImportMacros text.toList = true)
    (hparse : parse options.dialect text.toList = some program)
    (hcollect : collect? options program = some collected)
    (husage : collected.usages.pending ≠ []) : ¬ Alike (.ok (.unchanged skipped)) (transform options text) ∧
      ¬ Alike (transform options text) (.ok (.unchanged skipped)) := by
  have hpositive : 0 < collected.usages.size := List.length_pos_iff.mpr husage
  have hne : transform options text ≠ .ok (.unchanged skipped) := fun heq => by
    have hzero := transform_size hmay hparse hcollect heq
    rw [← hzero] at hpositive
    exact Nat.lt_irrefl 0 hpositive
  exact ⟨fun halike => hne (halike.ok rfl), fun halike => hne (halike.symm.ok rfl)⟩

end

/-! ## The two rules -/

namespace Shorthand

section
variable {pre body post : List Char} {program call fn : Tree} (h : Shorthand pre body post program call fn)
include h

theorem collected_inset {options : Options} {collected : Collected}
    (hcollect : collect? options program = some collected)
    (hkey : ∀ kind, MacroImport.lookup (MacroImport.all options program) "render" = some kind →
      kind.isKey = false) :
    collect? options (fn.inset program) = some (collected.inset fn) := by
  have hroot : program ≠ fn := by
    intro heq
    have hk := h.layout.root
    have hfn := h.isFunction
    rw [← heq, Tree.isFunction, hk] at hfn
    cases hfn
  have hholder : ∀ u ∈ program.nodes, fn ∈ u.children → u.kind = .parenthesized ∨ u = call := fun u hu hmem =>
    (h.holder hu hmem h.stripParens).imp And.left id
  obtain ⟨optional, hk⟩ := Tree.isCall_iff.mp h.isCall
  rw [collect?_inset h.isFunction hroot ?_ ?_ hkey, hcollect]
  · rfl
  · intro u hu hmem
    rcases hholder u hu hmem with hparen | rfl
    · rw [hparen]; rfl
    · rw [hk]; rfl
  · intro hmem
    rcases hholder program (Tree.mem_nodes_self program) hmem with hparen | rfl
    · rw [h.layout.root] at hparen
      cases hparen
    · rw [h.layout.root] at hk
      cases hk

theorem expansions_alike (hshape : Shape program) {options : Options} {collected : Collected} {site : Site}
    (hcollect : collect? options program = some collected)
    (hcollect' : collect? options (fn.inset program) = some (collected.inset fn))
    (hsite : site ∈ collected.usages.pending)
    (hkind : site.kind = .functional) (hcall : site.call? = some call) (hlist : fn.parameterList?.isSome = true)
    (houtside : options.production = true → ∀ s ∈ collected.usages.pending, ∀ props, s.props? = some props →
      props.span.contains call.span = false) :
    (∃ error, expansion (bareSetting options pre body post collected) = .error error ∧
      expansion (literalSetting options pre body post collected fn) = .error (error.inset fn.span)) ∨
    ∃ bare literal, expansion (bareSetting options pre body post collected) = .ok bare ∧
      expansion (literalSetting options pre body post collected fn) = .ok literal ∧
      bare.isEmpty = false ∧ literal.isEmpty = false ∧
      ∀ code code', bare.render = .ok code → literal.render = .ok code' → code' = code := by
  obtain ⟨lo, hi, hbetween⟩ : ∃ lo hi, SitesBetween lo hi collected.usages.pending :=
    ⟨_, _, collect?_between h.layout hshape hcollect⟩
  rcases h.expansion_function options collected hcollect hbetween hsite hkind hcall hlist houtside with
    hrefused | ⟨front, back, hdraft, hdraft', hfront, hback⟩
  · exact Or.inl hrefused
  · have hbare : front ++ (wrapRender call.span fn.span ++
        (memberTexts options site call).map (Edit.prepend fn.span.start)) ++ back =
        bareEdits call.span fn.span (memberTexts options site call) front back := by
      simp [bareEdits, wrapRender, wrapEdits]
    have hliteral : front.map (Edit.inset fn.span) ++ (unwrapLiteral call.span fn.span ++
        (memberTexts options site call).map (Edit.prepend (fn.span.start + 2))) ++ back.map (Edit.inset fn.span) =
        literalEdits call.span fn.span (memberTexts options site call) front back := by
      simp [literalEdits, unwrapLiteral, unwrapEdits]
    rw [hbare] at hdraft
    rw [hliteral] at hdraft'
    have hbeside := h.beside hshape hcollect hcollect' hsite hkind hcall hdraft hdraft' hfront hback
    have htwins : Draft.Twins fn.span
        ⟨bareText pre body post, bareEdits call.span fn.span (memberTexts options site call) front back⟩
        ⟨literalText pre body post, literalEdits call.span fn.span (memberTexts options site call)
          front back⟩ := by
      rw [h.span]
      exact Draft.twins_of_text h.body rfl rfl
    refine Or.inr ⟨_, _, hdraft, hdraft', ?_, ?_, fun code code' hcode hcode' => ?_⟩
    · simp [Draft.isEmpty, bareEdits]
    · simp [Draft.isEmpty, literalEdits]
    · exact hbeside.render_inset htwins rfl rfl (h.layout.fits h.call_mem).2.2.le_length
        (byteLength_literalText pre body post)
        hcode hcode'

end

end Shorthand

theorem collected_size (fn : Tree) (collected : Collected) :
    (collected.inset fn).usages.size = collected.usages.size := by
  simp [Usages.size, Collected.inset, Usages.inset]

/-- A functional component that is defined by a function alone comes out as if the function were the
member of a literal, or is refused with the same complaint, exactly if the look-ahead takes both
texts for texts with macros. -/
theorem shorthand_expands_alike_iff {options : Options} {pre body post : String} {program : Tree}
    {collected : Collected}
    {site : Site} {call argument : Tree} (hbare : options.Reads (pre ++ body ++ post).toList program)
    (hliteral : options.Reads (pre ++ "\x7b render: " ++ body ++ " \x7d" ++ post).toList
      (argument.stripParens.inset program))
    (hcollect : collect? options program = some collected) (hsite : site ∈ collected.usages.pending)
    (hkind : site.kind = .functional) (hcall : definitionCall site = .ok (call, argument))
    (hfunction : argument.stripParens.isFunction = true) (hbody : body ≠ "")
    (hspan : argument.stripParens.span = holeOf pre.toList body.toList)
    (hkey : ∀ kind, MacroImport.lookup (MacroImport.all options program) "render" = some kind → kind.isKey = false)
    (houtside : options.production = true → ∀ s ∈ collected.usages.pending, ∀ props, s.props? = some props →
      props.span.contains call.span = false) :
    Alike (transform options (pre ++ body ++ post))
        (transform options (pre ++ "\x7b render: " ++ body ++ " \x7d" ++ post)) ↔
      options.mayImportMacros (pre ++ body ++ post).toList = true ∧
        options.mayImportMacros (pre ++ "\x7b render: " ++ body ++ " \x7d" ++ post).toList = true := by
  have hs := collect?_sites hcollect site hsite
  obtain ⟨hcallsite, hargs⟩ := definitionCall_spec hcall
  obtain ⟨hmem, hisCall, -, hin⟩ := definitionCall_mem hs hcall
  have h : Shorthand pre.toList body.toList post.toList program call argument.stripParens := by
    refine ⟨?_, ?_, hbare.closed, hspan, fun hempty => hbody (String.toList_injective hempty), hfunction,
      hmem, hisCall, ⟨argument, hargs, rfl⟩, (definition_bounds hbare.layout hbare.shape hbare.closed hs hcall).1⟩
    · rw [← bareText_append]
      exact hbare.layout
    · rw [← literalText_append]
      exact hliteral.layout
  have hcollect' := h.collected_inset hcollect hkey
  have hpending : collected.usages.pending ≠ [] := List.ne_nil_of_mem hsite
  have hpending' : (collected.inset argument.stripParens).usages.pending ≠ [] := by
    simp [Collected.inset, Usages.inset, hpending]
  cases hmay : options.mayImportMacros (pre ++ body ++ post).toList with
  | false =>
    rw [transform_skipped hmay]
    refine iff_of_false ?_ fun hboth => Bool.false_ne_true hboth.1
    cases hmay' : options.mayImportMacros (pre ++ "\x7b render: " ++ body ++ " \x7d" ++ post).toList with
    | false =>
      -- both texts are left as they are, and one is longer
      rw [transform_skipped hmay']
      intro heq
      have hlength :=
        congrArg (fun text => byteLength text.toList) (congrArg Transformed.code (Except.ok.inj (heq.ok rfl)))
      simp only [Transformed.unchanged] at hlength
      rw [literalText_append, bareText_append, byteLength_literalText] at hlength
      omega
    | true => exact (not_alike_skipped hmay' hliteral.parse hcollect' hpending').1
  | true =>
    cases hmay' : options.mayImportMacros (pre ++ "\x7b render: " ++ body ++ " \x7d" ++ post).toList with
    | false =>
      rw [transform_skipped hmay']
      exact iff_of_false (not_alike_skipped hmay hbare.parse hcollect hpending).2 fun hboth =>
        Bool.false_ne_true hboth.2
    | true =>
      refine iff_of_true ?_ ⟨rfl, rfl⟩
      have hlist : argument.stripParens.parameterList?.isSome = true :=
        (hbare.heading.parameterList? hin).trans hfunction
      rcases h.expansions_alike hbare.shape hcollect hcollect' hsite hkind hcallsite hlist houtside with
        ⟨error, herror, herror'⟩ | ⟨bare, literal, hdraft, hdraft', hsome, hsome', hcodes⟩
      · rw [bareSetting, ← bareText_append] at herror
        rw [literalSetting, ← literalText_append] at herror'
        rw [transform_refused hmay hbare.parse hcollect herror,
          transform_refused hmay' hliteral.parse hcollect' herror']
        exact .refused rfl rfl
      · rw [bareSetting, ← bareText_append] at hdraft
        rw [literalSetting, ← literalText_append] at hdraft'
        obtain ⟨-, -, -, -, code, hcode, -⟩ := expansion_always_renders hbare.layout hbare.shape hcollect hdraft
        obtain ⟨-, -, -, -, code', hcode', -⟩ :=
          expansion_always_renders hliteral.layout hliteral.shape hcollect' hdraft'
        rw [transform_eq hmay hbare.parse hcollect hdraft hcode,
          transform_eq hmay' hliteral.parse hcollect' hdraft' hcode', hcodes code code' hcode hcode', hsome,
            hsome', collected_size]
        exact .done _

def showsShorthand (options : Options) (pre body post : String) : Bool :=
  (parse options.dialect (pre ++ body ++ post).toList).any fun program =>
    decide (Layout (pre ++ body ++ post).toList program ∧ Shape program ∧ Closed program ∧ Heading program) &&
    (MacroImport.lookup (MacroImport.all options program) "render").all (!·.isKey) &&
    (collect? options program).any fun collected => collected.usages.pending.any fun site =>
      decide (site.kind = .functional) && (definitionCall site).toOption.any fun (call, argument) =>
        argument.stripParens.isFunction && decide (argument.stripParens.span = holeOf pre.toList body.toList) &&
        collected.usages.pending.all (fun s => s.props?.all (!·.span.contains call.span)) &&
        (parse options.dialect (pre ++ "\x7b render: " ++ body ++ " \x7d" ++ post).toList).any fun other =>
          decide (other = argument.stripParens.inset program ∧
            Layout (pre ++ "\x7b render: " ++ body ++ " \x7d" ++ post).toList other ∧ Shape other ∧ Closed other ∧
              Heading other)

theorem showsShorthand_spec {options : Options} {pre body post : String}
    (h : showsShorthand options pre body post = true) :
    ∃ program collected site call argument, options.Reads (pre ++ body ++ post).toList program ∧
      options.Reads (pre ++ "\x7b render: " ++ body ++ " \x7d" ++ post).toList
        (argument.stripParens.inset program) ∧
      collect? options program = some collected ∧ site ∈ collected.usages.pending ∧ site.kind = .functional ∧
      definitionCall site = .ok (call, argument) ∧ argument.stripParens.isFunction = true ∧
      argument.stripParens.span = holeOf pre.toList body.toList ∧
      (∀ kind, MacroImport.lookup (MacroImport.all options program) "render" = some kind → kind.isKey = false) ∧
      ∀ s ∈ collected.usages.pending, ∀ props, s.props? = some props → props.span.contains call.span = false := by
  unfold showsShorthand at h
  simp only [Option.any_eq_true, List.any_eq_true, Bool.and_eq_true, decide_eq_true_eq] at h
  obtain ⟨program, hparse, ⟨⟨hlayout, hshape, hclosed, hheading⟩, hkey⟩, collected, hcollect, site, hsite, hkind,
    ⟨call, argument⟩, hcall, ⟨⟨hfunction, hspan⟩, houtside⟩, _, hother, rfl, hlayout', hshape', hclosed',
      hheading'⟩ := h
  refine ⟨program, collected, site, call, argument, ⟨hparse, hlayout, hshape, hclosed, hheading⟩,
    ⟨hother, hlayout', hshape', hclosed', hheading'⟩, hcollect, hsite, hkind, toOption_eq_some hcall,
      hfunction, hspan,
    fun kind hkind => ?_, fun s hs props hprops => ?_⟩
  · rw [hkind] at hkey
    simpa using hkey
  · have hs := List.all_eq_true.mp houtside s hs
    rw [hprops] at hs
    simpa using hs

def plainHead : String :=
  "import \x7bfunctional as f, type as t\x7d from 'm.macro';\nA=f(("

def plainFunction : String := "(x=t())=>x"

def hiddenHead : String :=
  "import \x7bfunctional\x7d from 'rend\\u0065r';\nA=functional("

def hiddenFunction : String := "()=>1"

def hiddenOptions : Options := { mode := .production, importSources := ["render"] }

theorem shorthand_expands_alike_iff_hidden :
    (∃ r, transform {} (plainHead ++ plainFunction ++ "));") = .ok r ∧
      transform {} (plainHead ++ "\x7b render: " ++ plainFunction ++ " \x7d" ++ "));") = .ok r ∧
      r = ⟨"A=\x7b functional: true, name: \"A\", render: (h, x=void 0)=>x \x7d;", true, 2⟩) ∧
    ¬ Alike (transform hiddenOptions (hiddenHead ++ hiddenFunction ++ ");"))
      (transform hiddenOptions (hiddenHead ++ "\x7b render: " ++ hiddenFunction ++ " \x7d" ++ ");")) := by
  constructor
  · obtain ⟨program, collected, site, call, argument, hbare, hliteral, hcollect, hsite, hkind, hcall, hfunction,
      hspan, hkey, houtside⟩ := @showsShorthand_spec {} plainHead plainFunction "));" (by decide +kernel)
    have halike :=
      (shorthand_expands_alike_iff hbare hliteral hcollect hsite hkind hcall hfunction (by decide) hspan hkey
      fun _ => houtside).mpr ⟨by decide +kernel, by decide +kernel⟩
    have hr : (transform {} (plainHead ++ plainFunction ++ "));")).toOption = some
        ⟨"A=\x7b functional: true, name: \"A\", render: (h, x=void 0)=>x \x7d;", true, 2⟩ := by decide +kernel
    exact ⟨_, toOption_eq_some hr, halike.ok (toOption_eq_some hr), rfl⟩
  · obtain ⟨program, collected, site, call, argument, hbare, hliteral, hcollect, hsite, hkind, hcall, hfunction,
      hspan, hkey, houtside⟩ := @showsShorthand_spec hiddenOptions hiddenHead hiddenFunction ");"
        (by decide +kernel)
    intro halike
    have hmay :=
      ((shorthand_expands_alike_iff hbare hliteral hcollect hsite hkind hcall hfunction (by decide) hspan hkey
      fun _ => houtside).mp halike).1
    have hmissed : hiddenOptions.mayImportMacros (hiddenHead ++ hiddenFunction ++ ");").toList = false := by
      decide +kernel
    exact Bool.false_ne_true (hmissed.symm.trans hmay)

end ComponentMacros
