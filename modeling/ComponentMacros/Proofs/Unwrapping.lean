import ComponentMacros.Proofs.Opening
import ComponentMacros.Proofs.Placement
import ComponentMacros.Proofs.Reading

/-!
# Unwrapped definitions

The call around a definition goes, and the object literal stays in its place.
Nothing is put around the literal, so what it is read as depends on what is asked
for there: an expression starts with the literal, but a statement becomes a block
and the body of an arrow function becomes a list of statements.
-/

namespace ComponentMacros

/-! ## Reading a brace -/

namespace Reader

variable {rules : Rules} {s : ReadState}

theorem brace_opens : ∀ depth, Opens (.punct "\x7b") (Tree.LiteralAt .object .objectTarget) (readersTo depth) := by
  refine opens_literal .object (by decide) (fun rules s hs => unaryRule_of_opening (Or.inr rfl) hs rules) ?_
  intro rules s hs
  refine Yields.of_eq (p := token) rfl ?_
  rw [hs]
  refine Yields.of_eq (p := here) rfl ?_
  refine Yields.skip fun _ s₁ => Yields.skip fun members s₂ => Yields.skip fun _ s₃ => ?_
  exact yields_node fun stop => ⟨Or.inl rfl, rfl⟩

theorem block_kind : (block rules).Yields s fun t _ => t.kind = .block ∧ t.span.start = s.start.offset := by
  refine Yields.of_eq (p := here) rfl ?_
  refine Yields.skip fun _ s₁ => Yields.skip fun statements s₂ => Yields.skip fun _ s₃ => ?_
  exact yields_node fun stop => ⟨rfl, rfl⟩

theorem statementRule_brace {isPart : Bool} (hs : s.token = .punct "\x7b") :
    (statementRule rules isPart).Yields s fun t _ => t.kind = .block ∧ t.span.start = s.start.offset := by
  refine Yields.of_eq (p := token) rfl ?_
  rw [hs]
  exact block_kind

theorem functionBody_kind {change : Context → Context} :
    (functionBody rules change).Yields s fun t _ => t.kind = .functionBody ∧ t.span.start = s.start.offset := by
  refine Yields.of_eq (p := here) rfl ?_
  refine Yields.skip fun _ s₁ => Yields.skip fun statements s₂ => Yields.skip fun _ s₃ => ?_
  exact yields_node fun stop => ⟨rfl, rfl⟩

theorem arrowRest_brace {head : ArrowHead} {colon : Bool} (hs : s.token = .punct "\x7b") :
    (arrowRest rules head colon).Yields s fun t _ => ∃ body, t.children.getLast? = some body ∧
      body.kind = .functionBody ∧ body.span.start = s.start.offset := by
  refine Yields.of_eq (isAt_of_eq hs) ?_
  rw [if_pos rfl]
  refine Yields.bind functionBody_kind fun body s₁ hbody => yields_node fun stop => ?_
  exact ⟨body, List.getLast?_concat, hbody⟩

end Reader

theorem readLexeme_brace (rest : List Char) : (readLexeme ('\x7b' :: rest)).token = .punct "\x7b" := by
  rfl

theorem Tree.not_startsWith_of_block {pos : Nat} {t : Tree} (h : t.kind = .block) :
    ¬ t.StartsWith (LiteralAt .object .objectTarget pos) := by
  intro hstart
  cases hstart with
  | self hlit =>
    rcases hlit.1 with hk | hk <;> rw [h] at hk <;> cases hk
  | part hk _ =>
    obtain rfl := h
    cases hk

/-- What is read at a state depends on what is asked for. A statement or an expression starts with an
object literal there if and only if an expression is asked for; the body of an arrow function is none. -/
structure ReadState.AsksForLiteral (s : ReadState) : Prop where
  goals : ∀ (depth : Nat) (goal : Goal) (t : Tree) (s' : ReadState),
    goal.asksStatement = true ∨ goal.asksExpression = true → readersTo depth goal s = some (t, s') →
      (t.StartsWith (Tree.LiteralAt .object .objectTarget s.start.offset) ↔ goal.asksExpression = true)
  statements : ∀ (depth : Nat) (goal : Goal) (t : Tree) (s' : ReadState), goal.asksStatement = true →
    readersTo depth goal s = some (t, s') → t.kind = .block ∧ t.span.start = s.start.offset
  bodies : ∀ (depth : Nat) (head : Reader.ArrowHead) (colon : Bool) (t : Tree) (s' : ReadState),
    Reader.arrowRest (readersTo depth) head colon s = some (t, s') →
      ∃ body, t.children.getLast? = some body ∧ body.kind = .functionBody ∧ body.span.start = s.start.offset

theorem asksForLiteral_brace {s : ReadState} (hs : s.token = .punct "\x7b") : s.AsksForLiteral := by
  have statements : ∀ (depth : Nat) (goal : Goal) (t : Tree) (s' : ReadState), goal.asksStatement = true →
      readersTo depth goal s = some (t, s') → t.kind = .block ∧ t.span.start = s.start.offset := by
    intro depth goal t s' hgoal h
    cases depth with
    | zero => cases h
    | succ depth =>
      cases goal with
      | statement => exact Reader.statementRule_brace hs t s' h
      | substatement => exact Reader.statementRule_brace hs t s' h
      | _ => cases hgoal
  refine ⟨fun depth goal t s' hgoal h => ?_, statements, fun depth head colon t s' h => ?_⟩
  · constructor
    · intro hstart
      apply hgoal.resolve_left
      intro hstatement
      exact Tree.not_startsWith_of_block (statements depth goal t s' hstatement h).1 hstart
    · intro hexpression
      exact Reader.brace_opens depth goal hexpression s hs t s' h
  · exact Reader.arrowRest_brace hs t s' h

/-! ## The edits of a definition -/

/-- What is written before and behind the argument of a definition. An object literal is left alone, a
function becomes the member of a literal. -/
def Tree.wrapping (argument : Tree) : String × String :=
  if argument.isObject then ("", "") else ("\x7b ", " \x7d")

def frontEdit (call argument : Tree) : Edit :=
  .overwrite ⟨call.span.start, argument.span.start⟩ argument.wrapping.1

def backEdit (call argument : Tree) : Edit :=
  .overwrite ⟨argument.span.stop, call.span.stop⟩ argument.wrapping.2

section
variable {setting : Setting} {site : Site}

theorem finishDefinition_keeps {definition : Definition} {functional : Bool} {outer : List Edit} {span : Span}
    {text : String} (h : Edit.overwrite span text ∈ outer) : Edit.overwrite span text ∈
      (finishDefinition setting site definition functional (setting.alone.record outer)).draft.edits :=
  mem_recordAll.mpr (Or.inl (mem_recordAll.mpr (Or.inr ⟨h, Edit.overwrite_selects ..⟩)))

theorem definition_wrapped (hkind : site.kind = .component ∨ site.kind = .functional) {es : List Edit}
    (h : setting.ownEdits site = .ok es) : ∃ call argument, definitionCall site = .ok (call, argument) ∧
      frontEdit call argument.stripParens ∈ es ∧ backEdit call argument.stripParens ∈ es := by
  obtain ⟨call, argument, factory, functional, hcall, ⟨hobj, -, rfl⟩ | ⟨hlist, -, rfl⟩⟩ := definition_cases hkind h
  · refine ⟨call, argument, hcall, finishDefinition_keeps (List.mem_append_right _ ?_),
      finishDefinition_keeps (List.mem_append_right _ ?_)⟩
    · simp [Definition.unwrap, Tree.wrapping, hobj, Edit.remove_eq]
    · simp [Definition.unwrap, Tree.wrapping, hobj, Edit.remove_eq]
  · have hfun := isObject_of_parameterList hlist
    refine ⟨call, argument, hcall, finishDefinition_keeps (List.mem_append_right _ ?_),
      finishDefinition_keeps (List.mem_append_right _ ?_)⟩
    · simp [wrapRender, Tree.wrapping, hfun]
    · simp [wrapRender, Tree.wrapping, hfun]

theorem expansion_wrapped {draft : Draft} (hdraft : expansion setting = .ok draft)
    (hs : site ∈ setting.collected.usages.pending) (hkind : site.kind = .component ∨ site.kind = .functional) :
    ∃ call argument, definitionCall site = .ok (call, argument) ∧
      frontEdit call argument.stripParens ∈ draft.edits ∧ backEdit call argument.stripParens ∈ draft.edits := by
  obtain ⟨es, hplay, -⟩ := expansion_edits hdraft
  obtain ⟨entry, hentry, rfl⟩ := site_entry hs
  rcases mem_ledger hplay hentry with ⟨-, hown, -⟩ | ⟨-, definition, -, -, hclaims⟩
  · obtain ⟨call, argument, hcall, hfront, hback⟩ := definition_wrapped hkind hown
    exact ⟨call, argument, hcall, entry_overwrite hdraft hentry hfront, entry_overwrite hdraft hentry hback⟩
  · -- only types are taken by others
    have htype := setting.claims_type hclaims
    rcases hkind with hkind | hkind <;> rw [hkind] at htype <;> cases htype

end

/-! ## The place of a definition -/

section
variable {draft : Draft} {call argument : Tree}

/-- A rendering goes up to the call, on with the argument and its own edits, and on behind the call. -/
theorem wrapped_in_place (htidy : draft.Tidy)
    (hbounds : call.span.start < argument.span.start ∧ argument.span.start ≤ argument.span.stop ∧
      argument.span.stop < call.span.stop)
    (hfront : frontEdit call argument ∈ draft.edits) (hback : backEdit call argument ∈ draft.edits) {depth : Nat}
    {range : Span} {nested : Bool} (hin : range.contains call.span = true)
    (hcf : draft.Uncovered range nested (frontEdit call argument))
    (hcb : draft.Uncovered range nested (backEdit call argument)) {out : List Char}
    (hout : draft.renderRange (depth + 1) range nested = .ok out) :
    ∃ before inside after front literal back,
      draft.arranged range nested =
        before ++ frontEdit call argument :: (inside ++ backEdit call argument :: after) ∧
      draft.splice (fun r => draft.renderRange depth r true) call.span.start range.start before = .ok front ∧
      draft.splice (fun r => draft.renderRange depth r true) argument.span.stop argument.span.start inside =
        .ok literal ∧
      draft.splice (fun r => draft.renderRange depth r true) range.stop call.span.stop after = .ok back ∧
      out = front ++ (argument.wrapping.1.toList ++ (literal ++ (argument.wrapping.2.toList ++ back))) := by
  obtain ⟨hlt, hord, hgt⟩ := hbounds
  have hrange := Span.contains_iff.mp hin
  have hstart : argument.span.start ≤ range.stop := by omega
  have hstop : range.start ≤ argument.span.stop := by omega
  have hes : ∀ f ∈ draft.arranged range nested, f ∈ draft.edits := fun f hf => (Draft.mem_arranged.mp hf).1
  have hsorted : (draft.arranged range nested).Pairwise fun a b => a.le b = true := Edit.arrange_pairwise _
  have cover : ∀ {e : Edit}, draft.Uncovered range nested e → ∀ f ∈ draft.arranged range nested,
      f.placement = .overwrite → f.span.contains e.span = true → f = e := by
    intro e he f hf
    exact he f (Draft.mem_arranged.mp hf).1 (Draft.mem_arranged.mp hf).2
  have hfmem : frontEdit call argument ∈ draft.arranged range nested :=
    Draft.mem_arranged.mpr ⟨hfront, Span.contains_iff.mpr ⟨hrange.1, hstart⟩⟩
  have hbmem : backEdit call argument ∈ draft.arranged range nested :=
    Draft.mem_arranged.mpr ⟨hback, Span.contains_iff.mpr ⟨hstop, hrange.2⟩⟩
  obtain ⟨before, behind, front, opening, rest, hsplit, hbefore, hfronttext, hopening, hrest, rfl⟩ :=
    htidy.splice_around hes hsorted hfmem rfl hlt (cover hcf) hrange.1 hout
  rw [frontEdit, Edit.overwrite, Draft.renderContent_ofText] at hopening
  cases hopening
  rw [hsplit] at hes hsorted hbmem
  -- what replaces the end of the call comes later
  have hbmem : backEdit call argument ∈ behind := by
    rcases List.mem_append.mp hbmem with hmem | hmem
    · have : call.span.stop ≤ call.span.start := hbefore _ hmem
      omega
    · rcases List.mem_cons.mp hmem with heq | hmem
      · have : argument.span.stop = call.span.start := congrArg (·.span.start) heq
        omega
      · exact hmem
  have hsub : ∀ f ∈ behind, f ∈ draft.arranged range nested := by
    intro f hf
    rw [hsplit]
    exact List.mem_append_right _ (List.mem_cons_of_mem _ hf)
  obtain ⟨inside, after, literal, closing, back, rfl, -, hliteral, hclosing, hbacktext, rfl⟩ :=
    htidy.splice_around (fun f hf => (Draft.mem_arranged.mp (hsub f hf)).1)
      (List.pairwise_cons.mp (List.pairwise_append.mp hsorted).2.1).2 hbmem rfl hgt
      (fun f hf => cover hcb f (hsub f hf)) hord hrest
  rw [backEdit, Edit.overwrite, Draft.renderContent_ofText] at hclosing
  cases hclosing
  exact ⟨before, inside, after, front, literal, back, hsplit, hfronttext, hliteral, hbacktext, rfl⟩

/-- The place of a definition starts with a brace, unless an edit starts at the brace of its literal. -/
theorem wrapped_brace {source : List Char} {program : Tree} (hl : Layout source program)
    (hsource : draft.source = source) (ha : argument ∈ program.nodes)
    {inner : Span → Except RenderError (List Char)} {inside : List Edit} {literal : List Char}
    (hliteral : draft.splice inner argument.span.stop argument.span.start inside = .ok literal)
    (hinside : argument.isObject = true → ∀ e ∈ inside, e.span.start ≠ argument.span.start) (back : List Char) :
    ∃ rest, argument.wrapping.1.toList ++ (literal ++ back) = '\x7b' :: rest := by
  unfold Tree.wrapping
  by_cases hobj : argument.isObject = true
  · have henclosed := hl.object ha (Tree.isObject_iff.mp hobj)
    have hlt : argument.span.start < argument.span.stop := by
      have := henclosed.bounds.1
      omega
    obtain ⟨rest, rfl⟩ := Draft.splice_head (by rw [hsource]; exact henclosed.1) hlt (hinside hobj) hliteral
    rw [if_pos hobj]
    exact ⟨rest ++ back, rfl⟩
  · rw [if_neg hobj]
    exact ⟨' ' :: (literal ++ back), rfl⟩

end

/-- A rendering shows a definition in the place of its call: the text made of what comes before the call,
the argument with the edits inside of it, wrapped if it is a function, and the text made of what comes
behind the call. What is read at this place depends on what is asked for. -/
def Draft.ShowsDefinition (draft : Draft) (depth : Nat) (range : Span) (nested : Bool) (call argument : Tree)
    (out : List Char) : Prop :=
  ∃ before inside after front literal back,
    draft.arranged range nested =
      before ++ frontEdit call argument :: (inside ++ backEdit call argument :: after) ∧
    draft.splice (fun r => draft.renderRange depth r true) call.span.start range.start before = .ok front ∧
    draft.splice (fun r => draft.renderRange depth r true) argument.span.stop argument.span.start inside =
      .ok literal ∧
    draft.splice (fun r => draft.renderRange depth r true) range.stop call.span.stop after = .ok back ∧
    out = front ++ (argument.wrapping.1.toList ++ (literal ++ (argument.wrapping.2.toList ++ back))) ∧
    ∀ s : ReadState, s.StandsAt (argument.wrapping.1.toList ++ (literal ++ (argument.wrapping.2.toList ++ back))) →
      s.AsksForLiteral

/-- Unwrapping keeps a definition an expression exactly where an expression is asked for. Whatever a
rendering of an expansion makes of a program, an uncovered definition comes out in the place of its call
as a text in braces, and a reading of this place gives an object literal if an expression is asked for, a
block if a statement is, and a list of statements if the body of an arrow function is. -/
theorem definition_reads_as_literal_iff {options : Options} {text : String} {program : Tree} {r : Transformed}
    (hparse : parse options.dialect text.toList = some program) (hlayout : Layout text.toList program)
    (hshape : Shape program) (hclosed : Closed program) (h : transform options text = .ok r)
    (hactive : options.isInert text = false) :
    ∃ collected draft, collect? options program = some collected ∧
      expansion ⟨options, text.toList, collected⟩ = .ok draft ∧ draft.render = .ok r.code ∧
      ∀ site ∈ collected.usages.pending, site.kind = .component ∨ site.kind = .functional →
        ∃ call argument, definitionCall site = .ok (call, argument) ∧
          ∀ (depth : Nat) (range : Span) (nested : Bool) (out : List Char), range.contains call.span = true →
            draft.Uncovered range nested (frontEdit call argument.stripParens) →
            draft.Uncovered range nested (backEdit call argument.stripParens) →
            draft.renderRange (depth + 1) range nested = .ok out →
              draft.ShowsDefinition depth range nested call argument.stripParens out := by
  obtain ⟨collected, draft, hcollect, hdraft, hcode⟩ := transform_active hparse h hactive
  refine ⟨collected, draft, hcollect, hdraft, hcode, fun site hs hkind => ?_⟩
  have hrecorded := expansion_recorded hlayout.root hcollect hdraft
  have hin := collect?_sites hcollect site hs
  obtain ⟨call, argument, hcall, hfront, hback⟩ := expansion_wrapped hdraft hs hkind
  obtain ⟨hmem, hcalls, harguments, hargument⟩ := definitionCall_mem hin hcall
  have hbounds := definition_bounds hlayout hshape hclosed hin hcall
  have hstarts : argument.stripParens.isObject = true →
      ∀ e ∈ draft.edits, e.span.start ≠ argument.stripParens.span.start := fun hobj =>
    Wraps.expansion_start ⟨hmem, hcalls, harguments, hobj, hbounds.1⟩ hlayout hshape hclosed hcollect hdraft
  refine ⟨call, argument, hcall, fun depth range nested out hrange hcf hcb hout => ?_⟩
  obtain ⟨before, inside, after, front, literal, back, hsplit, hbefore, hliteral, hafter, rfl⟩ :=
    wrapped_in_place (hrecorded.tidy hlayout) hbounds hfront hback hrange hcf hcb hout
  refine ⟨before, inside, after, front, literal, back, hsplit, hbefore, hliteral, hafter, rfl, fun s hs => ?_⟩
  have hinside : ∀ e ∈ inside, e ∈ draft.arranged range nested := by
    intro e he
    rw [hsplit]
    exact List.mem_append_right _ (List.mem_cons_of_mem _ (List.mem_append_left _ he))
  obtain ⟨rest, hbrace⟩ := wrapped_brace hlayout hrecorded.source_eq hargument hliteral
    (fun hobj e he => hstarts hobj e (Draft.mem_arranged.mp (hinside e he)).1)
    (argument.stripParens.wrapping.2.toList ++ back)
  apply asksForLiteral_brace
  rw [hs.token, hbrace]
  exact readLexeme_brace rest

def bodySample : String :=
  "import \x7bcomponent as c\x7d from 'm.macro';\nf = () => c(\x7ba: c(\x7b\x7d)\x7d);"

def showsAll (text : List Char) (collected : Collected) (draft : Draft) : Bool :=
  !collected.usages.pending.isEmpty && collected.usages.pending.all fun site =>
    site.kind = .component && match definitionCall site with
      | .ok (call, argument) =>
        let whole : Span := ⟨0, byteLength text⟩
        whole.contains call.span && decide (draft.Uncovered whole false (frontEdit call argument.stripParens)) &&
          decide (draft.Uncovered whole false (backEdit call argument.stripParens))
      | .error _ => false

theorem definition_reads_as_literal_iff_arrow : ∃ program r collected draft,
    parse (Options.dialect {}) bodySample.toList = some program ∧ Layout bodySample.toList program ∧
    Shape program ∧ Closed program ∧ transform {} bodySample = .ok r ∧ Options.isInert {} bodySample = false ∧
    collect? {} program = some collected ∧ expansion ⟨{}, bodySample.toList, collected⟩ = .ok draft ∧
    showsAll bodySample.toList collected draft = true ∧
    ∀ site ∈ collected.usages.pending, ∃ call argument, definitionCall site = .ok (call, argument) ∧
      draft.ShowsDefinition draft.edits.length ⟨0, byteLength bodySample.toList⟩ false call argument.stripParens
        r.code.toList := by
  have hsample : ((parse (Options.dialect {}) bodySample.toList).any fun program =>
      decide (Layout bodySample.toList program) && decide (Shape program) && decide (Closed program) &&
        (collect? {} program).any fun collected =>
          (expansion ⟨{}, bodySample.toList, collected⟩).toOption.any (showsAll bodySample.toList collected)) =
            true ∧
      ((transform {} bodySample).toOption.any (·.changed)) = true := by decide +kernel
  obtain ⟨hgood, hok⟩ := hsample
  simp only [Option.any_eq_true, Bool.and_eq_true, decide_eq_true_eq] at hgood hok
  obtain ⟨program, hparse, ⟨⟨hlayout, hshape⟩, hclosed⟩, collected, hcollect, draft, hdraft, hshows⟩ := hgood
  obtain ⟨r, hr, hchanged⟩ := hok
  have hr := toOption_eq_some hr
  have hdraft := toOption_eq_some hdraft
  have hactive := not_isInert_of_changed hr hchanged
  obtain ⟨collected', draft', hcollect', hdraft', hcode, hdefinitions⟩ :=
    definition_reads_as_literal_iff hparse hlayout hshape hclosed hr hactive
  cases hcollect.symm.trans hcollect'
  cases hdraft.symm.trans hdraft'
  refine ⟨program, r, collected, draft, hparse, hlayout, hshape, hclosed, hr, hactive, hcollect,
    hdraft, hshows, ?_⟩
  intro site hs
  unfold showsAll at hshows
  rw [Bool.and_eq_true, List.all_eq_true] at hshows
  have hsite := hshows.2 site hs
  rw [Bool.and_eq_true, decide_eq_true_eq] at hsite
  obtain ⟨hkind, hsite⟩ := hsite
  obtain ⟨call, argument, hcall, hshow⟩ := hdefinitions site hs (Or.inl hkind)
  rw [hcall] at hsite
  simp only [Bool.and_eq_true, decide_eq_true_eq] at hsite
  obtain ⟨⟨hin, hfront⟩, hback⟩ := hsite
  refine ⟨call, argument, hcall, hshow _ _ _ _ hin hfront hback ?_⟩
  have hsource := (expansion_recorded hlayout.root hcollect hdraft).source_eq
  rw [← hsource]
  exact Draft.render_eq_ok hcode

end ComponentMacros
