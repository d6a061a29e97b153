import ComponentMacros.Proofs.Listing
import ComponentMacros.Proofs.Placement

/-!
# Erased types

The call of a type is replaced by a text, and nothing is put around the text. A
call can be followed by accesses and calls and stands wherever they can. A word
and a list can stand there as well; the text of an erased type is an operator
before a zero, and cannot.
-/

namespace ComponentMacros

/-! ## The place of a type -/

/-- The text that takes the place of the call of a type, unless the type goes with the props around it. -/
def Collected.typeText (collected : Collected) (options : Options) (site : Site) (call : Tree) : String :=
  if options.mode = .development ∧ some site.name = collected.firstTypeName? ∧ collected.inProps site = true
    then call.runtimeText else erasedText

theorem typeText_cases (collected : Collected) (options : Options) (site : Site) (call : Tree) :
    collected.typeText options site call = erasedText ∨ collected.typeText options site call ∈ runtimeWords ∨
      ∃ members, collected.typeText options site call = listText members := by
  unfold Collected.typeText Tree.runtimeText
  split
  · split
    · rename_i type _
      rcases runtimeType_cases type with ⟨members, -, htext, -⟩ | ⟨htext, -⟩ | ⟨htext, -⟩
      · exact Or.inr (Or.inr ⟨members, htext⟩)
      · exact Or.inl htext
      · exact Or.inr (Or.inl htext)
    · exact Or.inl rfl
  · exact Or.inl rfl

/-- A rendering shows the text of a type in the place of the call, between what it makes of the edits
before and behind, and every state of a reading that stands there reads the text for what it is. -/
def Draft.ShowsType (draft : Draft) (depth : Nat) (range : Span) (nested : Bool) (call : Tree) (text : String)
    (out : List Char) : Prop :=
  ∃ before after front back,
    draft.arranged range nested = before ++ .overwrite call.span text :: after ∧
    draft.splice (fun r => draft.renderRange depth r true) call.span.start range.start before = .ok front ∧
    draft.splice (fun r => draft.renderRange depth r true) range.stop call.span.stop after = .ok back ∧
    out = front ++ (text.toList ++ back) ∧
    ∀ s : ReadState, s.StandsAt (text.toList ++ back) →
      text = erasedText ∧ s.ReadsErased back ∨ text ∈ runtimeWords ∧ s.ReadsWord text back ∨
        ∃ members, text = listText members ∧ s.ReadsList members back

section
variable {setting : Setting} {draft : Draft}

theorem type_replaced (hdraft : expansion setting = .ok draft)
    (halias : setting.collected.usages.typeAlias = setting.collected.firstTypeName?) {site : Site}
    (hs : site ∈ setting.collected.usages.pending) (hkind : site.kind = .type)
    (hstays : setting.options.mode = .development ∨ setting.collected.inProps site = false) :
    ∃ call, site.call? = some call ∧
      Edit.overwrite call.span (setting.collected.typeText setting.options site call) ∈ draft.edits := by
  obtain ⟨es, hplay, -⟩ := expansion_edits hdraft
  obtain ⟨entry, hentry, rfl⟩ := site_entry hs
  obtain ⟨hdevelopment, hproduction⟩ := type_edits hplay halias hentry hkind
  cases hmode : setting.options.mode with
  | development =>
    obtain ⟨call, hcall, hedits⟩ := hdevelopment hmode
    refine ⟨call, hcall, entry_overwrite hdraft hentry ?_⟩
    rw [hedits, List.mem_singleton]
    simp only [Collected.typeText, hmode, true_and]
  | production =>
    have hout := hstays.resolve_left (by simp [hmode])
    have hproduction := hproduction hmode
    rw [hout, if_neg Bool.false_ne_true] at hproduction
    obtain ⟨call, hcall, hedits⟩ := hproduction
    refine ⟨call, hcall, entry_overwrite hdraft hentry ?_⟩
    rw [hedits, List.mem_singleton]
    simp [Collected.typeText, hmode]

theorem type_in_place (htidy : draft.Tidy) {call : Tree} {text : String} (hpos : call.span.start < call.span.stop)
    (he : Edit.overwrite call.span text ∈ draft.edits) {depth : Nat} {range : Span} {nested : Bool}
    (hin : range.contains call.span = true) (hcover : draft.Uncovered range nested (.overwrite call.span text))
    {out : List Char} (hout : draft.renderRange (depth + 1) range nested = .ok out) :
    ∃ before after front back,
      draft.arranged range nested = before ++ .overwrite call.span text :: after ∧
      draft.splice (fun r => draft.renderRange depth r true) call.span.start range.start before = .ok front ∧
      draft.splice (fun r => draft.renderRange depth r true) range.stop call.span.stop after = .ok back ∧
      out = front ++ (text.toList ++ back) := by
  have hrange := Span.contains_iff.mp hin
  have hmem : Edit.overwrite call.span text ∈ draft.arranged range nested :=
    Draft.mem_arranged.mpr ⟨he, hin⟩
  obtain ⟨before, after, front, content, back, hsplit, -, hfront, hcontent, hback, rfl⟩ :=
    htidy.splice_around (fun f hf => (Draft.mem_arranged.mp hf).1) (Edit.arrange_pairwise _) hmem rfl hpos
      (fun f hf => hcover f (Draft.mem_arranged.mp hf).1 (Draft.mem_arranged.mp hf).2) hrange.1 hout
  rw [Edit.overwrite, Draft.renderContent_ofText] at hcontent
  cases hcontent
  exact ⟨before, after, front, back, hsplit, hfront, hback, rfl⟩

end

/-- Erasing a type keeps the expression around it exactly where the text can stand for the call.
Whatever a rendering of an expansion makes of a program, an uncovered type that is replaced comes out in
the place of its call. A word and a list can stand wherever the call could, a word if no character of a
word follows. An erased type is no expression where only accesses and calls are asked for, and is read as
the operand that it is meant to be if and only if what follows goes on neither with its zero nor with an
access or a call. -/
theorem erased_type_reads_as_operand_iff {options : Options} {text : String} {program : Tree} {r : Transformed}
    (hparse : parse options.dialect text.toList = some program) (hlayout : Layout text.toList program)
    (hshape : Shape program) (h : transform options text = .ok r) (hactive : options.isInert text = false) :
    ∃ collected draft, collect? options program = some collected ∧
      expansion ⟨options, text.toList, collected⟩ = .ok draft ∧ draft.render = .ok r.code ∧
      ∀ site ∈ collected.usages.pending, site.kind = .type →
        options.mode = .development ∨ collected.inProps site = false →
        ∃ call, site.call? = some call ∧
          ∀ (depth : Nat) (range : Span) (nested : Bool) (out : List Char), range.contains call.span = true →
            draft.Uncovered range nested (.overwrite call.span (collected.typeText options site call)) →
            draft.renderRange (depth + 1) range nested = .ok out →
              draft.ShowsType depth range nested call (collected.typeText options site call) out := by
  obtain ⟨collected, draft, hcollect, hdraft, hcode⟩ := transform_active hparse h hactive
  refine ⟨collected, draft, hcollect, hdraft, hcode, fun site hs hkind hstays => ?_⟩
  have hin := collect?_sites hcollect site hs
  obtain ⟨call, hcall, he⟩ := type_replaced hdraft (collect?_typeAlias hcollect) hs hkind hstays
  refine ⟨call, hcall, fun depth range nested out hrange hcover hout => ?_⟩
  -- the call holds the name of the macro
  have hpos : call.span.start < call.span.stop := by
    obtain ⟨-, -, -, -, hname, -⟩ := hin.node hshape
    obtain ⟨callee, rest, hparts, hcallee⟩ := call_contains hlayout hin hcall
    have hchild : callee ∈ call.children := by rw [hparts]; exact List.mem_cons_self ..
    have houter := Span.contains_iff.mp
      (hlayout.contains (hin.ancestor_mem (Site.call?_mem hcall)) (Tree.child_mem_nodes hchild))
    have hinner := Span.contains_iff.mp hcallee
    omega
  obtain ⟨before, after, front, back, hsplit, hfront, hback, rfl⟩ :=
    type_in_place ((expansion_recorded hlayout.root hcollect hdraft).tidy hlayout) hpos he hrange hcover hout
  refine ⟨before, after, front, back, hsplit, hfront, hback, rfl, fun s hs => ?_⟩
  rcases typeText_cases collected options site call with htext | htext | ⟨members, htext⟩
  · rw [htext] at hs
    exact Or.inl ⟨htext, readsErased hs⟩
  · exact Or.inr (Or.inl ⟨htext, readsWord htext hs⟩)
  · rw [htext] at hs
    exact Or.inr (Or.inr ⟨members, htext, readsList hs⟩)

def accessSample : String :=
  "import \x7bcomponent as c, type as t\x7d from 'm.macro';\n" ++
    "c(\x7bprops: \x7ba: t<string>(), b: t<string | null>()\x7d\x7d);\nt().d;"

def showsTypes (text : List Char) (collected : Collected) (draft : Draft) : Bool :=
  decide ((collected.usages.get .type).length = 3) && (collected.usages.get .type).all fun site =>
    site.call?.any fun call =>
      let whole : Span := ⟨0, byteLength text⟩
      whole.contains call.span &&
        decide (draft.Uncovered whole false (.overwrite call.span (collected.typeText {} site call)))

theorem erased_type_reads_as_operand_iff_access : ∃ program r collected draft,
    parse (Options.dialect {}) accessSample.toList = some program ∧ Layout accessSample.toList program ∧
    Shape program ∧ transform {} accessSample = .ok r ∧ Options.isInert {} accessSample = false ∧
    collect? {} program = some collected ∧ expansion ⟨{}, accessSample.toList, collected⟩ = .ok draft ∧
    showsTypes accessSample.toList collected draft = true ∧
    ∀ site ∈ collected.usages.get .type, ∃ call, site.call? = some call ∧
      draft.ShowsType draft.edits.length ⟨0, byteLength accessSample.toList⟩ false call
        (collected.typeText {} site call) r.code.toList := by
  have hsample : ((parse (Options.dialect {}) accessSample.toList).any fun program =>
      decide (Layout accessSample.toList program) && decide (Shape program) &&
        (collect? {} program).any fun collected =>
          (expansion ⟨{}, accessSample.toList, collected⟩).toOption.any
            (showsTypes accessSample.toList collected)) = true ∧
      ((transform {} accessSample).toOption.any (·.changed)) = true := by decide +kernel
  obtain ⟨hgood, hok⟩ := hsample
  simp only [Option.any_eq_true, Bool.and_eq_true, decide_eq_true_eq] at hgood hok
  obtain ⟨program, hparse, ⟨hlayout, hshape⟩, collected, hcollect, draft, hdraft, hshows⟩ := hgood
  obtain ⟨r, hr, hchanged⟩ := hok
  have hr := toOption_eq_some hr
  have hdraft := toOption_eq_some hdraft
  have hactive := not_isInert_of_changed hr hchanged
  obtain ⟨collected', draft', hcollect', hdraft', hcode, htypes⟩ :=
    erased_type_reads_as_operand_iff hparse hlayout hshape hr hactive
  cases hcollect.symm.trans hcollect'
  cases hdraft.symm.trans hdraft'
  refine ⟨program, r, collected, draft, hparse, hlayout, hshape, hr, hactive, hcollect, hdraft, hshows, ?_⟩
  intro site hs
  obtain ⟨hpending, hkind⟩ := List.mem_filter.mp hs
  obtain ⟨call, hcall, hshow⟩ := htypes site hpending (of_decide_eq_true hkind) (Or.inl rfl)
  unfold showsTypes at hshows
  rw [Bool.and_eq_true, List.all_eq_true] at hshows
  have hsite := hshows.2 site hs
  rw [hcall] at hsite
  simp only [Option.any_some, Bool.and_eq_true, decide_eq_true_eq] at hsite
  refine ⟨call, hcall, hshow _ _ _ _ hsite.1 hsite.2 ?_⟩
  have hsource := (expansion_recorded hlayout.root hcollect hdraft).source_eq
  rw [← hsource]
  exact Draft.render_eq_ok hcode

end ComponentMacros
