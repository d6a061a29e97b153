import ComponentMacros.Proofs.Insertion
import ComponentMacros.Proofs.Parameters
import ComponentMacros.Proofs.RenderFunction

/-!
# The factory as the first parameter

The element factory is put before the parameters of a render function, or behind
`this`, and comes out there whatever the rest of an expansion does. A parameter
list with the factory in it is read as the list without it and the factory in
front. Only an accessor may not have one more parameter than it had.
-/

namespace ComponentMacros

/-! ## Reading the list -/

/-- Where a list of parameters is read, the factory behind `this` comes next, and the others are read from
behind it. -/
def LeadsBehindThis (back : List Char) : Prop :=
  ∀ (depth : Nat) (host : ParameterHost) (s next last : ReadState) (this : Tree) (ts : List Tree),
    s.token = .punct "(" → s.context.dialect.typed = true → s.following.token.isWord "this" = true →
    Reader.thisParameter (readersTo (depth + 1)) s.following = some (this, next) →
    next.StandsAt (", h".toList ++ back) → EndsWord back = true →
    Reader.parametersBehindThis (readersTo (depth + 1)) host (next.moveTo ⟨back, next.start.offset + 3⟩) =
      some (ts, last) →
    last.token = .punct ")" →
      Reader.parameters (readersTo (depth + 1)) host s =
        some (.node .parameters ⟨s.start.offset, last.after.offset⟩
        (this :: factoryParameter (next.start.offset + 2) :: ts), last.following)

/-- Where a list of parameters is read, the factory comes first, and the others are read from behind the
comma. -/
def LeadsOthers (back : List Char) : Prop :=
  ∀ (depth : Nat) (host : ParameterHost) (s last : ReadState) (ts : List Tree),
    s.token = .punct "(" → s.following.StandsAt ("h, ".toList ++ back) →
    Reader.commaItems ")" (Reader.parameter (readersTo (depth + 1)) host)
      (s.following.moveTo ⟨' ' :: back, s.following.start.offset + 2⟩) = some (ts, last) →
    last.token = .punct ")" →
      Reader.parameters (readersTo (depth + 1)) host s =
        some (.node .parameters ⟨s.start.offset, last.after.offset⟩
        (factoryParameter s.following.start.offset :: ts), last.following)

/-- Where a list of parameters is read, the factory is the only one. -/
def LeadsAlone (back : List Char) : Prop :=
  ∀ (depth : Nat) (host : ParameterHost) (s : ReadState), s.token = .punct "(" →
    s.following.StandsAt ('h' :: back) → EndsWord back = true → (s.following.past ['h'] back).token = .punct ")" →
      Reader.parameters (readersTo (depth + 1)) host s =
        some (.node .parameters ⟨s.start.offset, (s.following.past ['h'] back).after.offset⟩
          [factoryParameter s.following.start.offset], (s.following.past ['h'] back).following)

/-- Where a function starts, a list of parameters with the factory and one more is read. -/
def LeadsBare (middle back : List Char) : Prop :=
  ∀ (depth : Nat) (host : ParameterHost) (s last : ReadState) (ts : List Tree),
    s.StandsAt ("(h, ".toList ++ (middle ++ ')' :: back)) →
    Reader.commaItems ")" (Reader.parameter (readersTo (depth + 1)) host)
      (s.moveTo ⟨' ' :: (middle ++ ')' :: back), s.start.offset + 3⟩) = some (ts, last) →
    last.token = .punct ")" →
      Reader.parameters (readersTo (depth + 1)) host s =
        some (.node .parameters ⟨s.start.offset, last.after.offset⟩
        (factoryParameter (s.start.offset + 1) :: ts), last.following)

theorem factory_isWord {s : ReadState} {back : List Char} (hs : s.StandsAt ('h' :: back))
    (hback : EndsWord back = true) :
    s.token.isWord "this" = false := by
  rw [(Reader.factory_token hs hback).1]
  rfl

theorem leadsBehindThis (back : List Char) : LeadsBehindThis back := by
  intro depth host s next last this ts hopen htyped hword hthis hnext hback hrest hclose
  exact Reader.parameters_this hopen htyped hword hthis (Reader.factory_behindThis hnext hback hrest hclose) hclose

theorem leadsOthers (back : List Char) : LeadsOthers back := by
  intro depth host s last ts hopen hs hrest hclose
  exact Reader.parameters_plain hopen (factory_isWord hs rfl) (Reader.factory_before hs hrest hclose) hclose

theorem leadsAlone (back : List Char) : LeadsAlone back := by
  intro depth host s hopen hs hback hclose
  exact Reader.parameters_plain hopen (factory_isWord hs hback) (Reader.factory_alone hs hback hclose) hclose

theorem leadsBare (middle back : List Char) : LeadsBare middle back := by
  intro depth host s last ts hs hrest hclose
  have hnext : s.following = s.moveTo ⟨'h' :: ',' :: ' ' :: (middle ++ ')' :: back), s.start.offset + 1⟩ := by
    rw [hs.following]
    rfl
  obtain ⟨hname, hstart⟩ :=
    @ReadState.moveTo_gap s [] ('h' :: ',' :: ' ' :: (middle ++ ')' :: back)) (isGap_nil _) rfl
    (s.start.offset + 1)
  rw [List.nil_append, ← hnext] at hname hstart
  have hoffset : s.following.start.offset = s.start.offset + 1 := by rw [hstart]; rfl
  have hlist := leadsOthers (middle ++ ')' :: back) depth host s last ts hs.token hname (by
    rw [hoffset, hnext]
    exact hrest) hclose
  rw [hlist, hoffset]

/-! ## Accessors -/

namespace Reader

theorem fitsAccess_longer {typed typed' : Bool} {access : Access} {function longer : Tree}
    (haccess : access ≠ .plain) (hfits : fitsAccess typed access function = true)
    (hlonger : (ownParameters longer).length = (ownParameters function).length + 1) :
    fitsAccess typed' access longer = false := by
  cases access with
  | plain => exact absurd rfl haccess
  | getter =>
    cases hown : ownParameters longer with
    | nil => rw [hown] at hlonger; simp at hlonger
    | cons own more => simp [fitsAccess, hown]
  | setter =>
    cases hfunction : ownParameters function with
    | nil => simp [fitsAccess, hfunction] at hfits
    | cons first rest =>
      match hown : ownParameters longer with
      | [] => rw [hown] at hlonger; simp at hlonger
      | [own] => rw [hown, hfunction] at hlonger; simp at hlonger
      | _ :: _ :: _ => simp [fitsAccess, hown]

theorem check_false {s : ReadState} : check false s = some ((), { s with faulty := true }) := rfl

def PlainOnly (t : Tree) : Prop :=
  ∀ access computed shorthand isMethod, t.kind = .property access computed shorthand isMethod → access = .plain

theorem propertyValue_plain {rules : Rules} {s : ReadState} {start : Nat} {name? : Option String} {key : Tree}
    {computed : Bool} : (propertyValue rules start name? key computed).Yields s fun t _ => PlainOnly t := by
  refine Yields.skip fun colon s₁ => ?_
  split
  · refine Yields.skip fun value s₂ => ?_
    rintro t s' h access _ _ _ hkind
    cases h
    cases hkind
    rfl
  · split
    · exact yields_failure
    · refine Yields.skip fun equals s₂ => ?_
      split
      · refine Yields.skip fun default s₃ => ?_
        rintro t s' h access _ _ _ hkind
        cases h
        cases hkind
      · rintro t s' h access _ _ _ hkind
        cases h
        cases hkind
        rfl

theorem objectMember_misfit {rules : Rules} {s : ReadState} : (objectMember rules).Yields s fun t s' =>
    ∀ access computed shorthand isMethod key value, t.kind = .property access computed shorthand isMethod →
      access ≠ .plain → t.children = [key, value] → fitsAccess s'.context.dialect.typed access value = false →
        s'.faulty = true := by
  refine Yields.skip fun start s₁ => Yields.skip fun isSpread s₂ => ?_
  split
  · refine Yields.skip fun _ s₃ => Yields.skip fun _ s₄ => Yields.skip fun value s₅ =>
      Yields.skip fun comma s₆ => ?_
    rintro t s' h access _ _ _ _ _ hkind
    cases h
    cases hkind
  refine Yields.skip fun words s₃ => Yields.skip fun _ s₄ => Yields.skip fun access s₅ => ?_
  split
  · rename_i access
    refine Yields.skip fun key s₆ => Yields.skip fun function s₇ => ?_
    -- whether it fits is asked where the member ends
    refine Yields.of_eq (p := typed) rfl ?_
    rintro t s' h found _ _ _ key value hkind haccess hchildren hmisfit
    obtain ⟨_, s₈, hcheck, hnode⟩ := bind_eq_some.mp h
    cases hnode
    cases hkind
    cases hchildren
    cases hfits : fitsAccess s₇.context.dialect.typed access function with
    | true =>
      have hsame : s'.context = s₇.context := by
        unfold check at hcheck
        split at hcheck <;> cases hcheck <;> rfl
      rw [hsame, hfits] at hmisfit
      cases hmisfit
    | false =>
      rw [hfits, Bool.and_false, check_false] at hcheck
      cases hcheck
      rfl
  · refine Yields.mono (P := fun t _ => PlainOnly t) ?_
      fun t s' hplain access computed shorthand isMethod key value hkind
      haccess => absurd (hplain access computed shorthand isMethod hkind) haccess
    refine Yields.skip fun isGenerator s₆ => Yields.skip fun name? s₇ => Yields.skip fun key s₈ => ?_
    refine Yields.skip fun isCall s₉ => Yields.skip fun isGeneric s₁₀ => ?_
    split
    · refine Yields.skip fun value s₁₁ => ?_
      rintro t s' h access _ _ _ hkind
      cases h
      cases hkind
      rfl
    · exact Yields.skip fun _ s₁₁ => propertyValue_plain

end Reader

/-! ## Where the factory comes out -/

/-- A rendering shows the factory in front of the parameters that a list has, and it is read there. -/
inductive Draft.ShowsFactory (draft : Draft) (depth : Nat) (range : Span) (nested : Bool) (list : Tree)
    (out : List Char) : Prop where
  | behindThis {this : Tree} {front back : List Char} {after : List Edit}
    (found : list.find? (· = .thisParameter) = some this)
    (shown : draft.ShowsIn depth range nested (.append this.span.stop ", h") front ", h".toList back out after)
    (kept : draft.Keeps this.span.stop list.span.stop after back) (read : LeadsBehindThis back)
  | bare {first : Tree} {front middle back : List Char} {after last : List Edit}
    (thisless : list.find? (· = .thisParameter) = none) (found : list.plainParameters.head? = some first)
    (same : list.span = first.span)
    (shown : draft.ShowsIn depth range nested (.prepend first.span.start "(h, ") front "(h, ".toList
      (middle ++ ')' :: back) out after)
    (closed : draft.ShowsAt (fun r => draft.renderRange depth r true) range.stop first.span.start after
      (.append first.span.stop ")") middle [')'] back (middle ++ ')' :: back) last)
    (kept : draft.Keeps first.span.start first.span.stop after (middle ++ ')' :: back))
    (read : LeadsBare middle back)
  | before {first : Tree} {front back : List Char} {after : List Edit}
    (thisless : list.find? (· = .thisParameter) = none)
    (found : list.plainParameters.head?.or (list.find? (· = .restParameter)) = some first)
    (shown : draft.ShowsIn depth range nested (.prepend first.span.start "h, ") front "h, ".toList back out after)
    (kept : draft.Keeps first.span.start list.span.stop after back) (read : LeadsOthers back)
  | alone {front back : List Char} {after : List Edit} (thisless : list.find? (· = .thisParameter) = none)
    (empty : list.plainParameters = []) (restless : list.find? (· = .restParameter) = none)
    (shown : draft.ShowsIn depth range nested (.prepend (list.span.stop - 1) factoryName) front
      ['h'] back out after)
    (closed : (∀ f ∈ after, list.span.stop ≤ f.span.start) → ∃ behind, back = ')' :: behind)
    (read : LeadsAlone back)

section
variable {draft : Draft} {depth : Nat} {range : Span} {nested : Bool} {out : List Char}

theorem empty_closed {source : List Char} {program list : Tree} (hl : Layout source program)
    (hlist : list ∈ program.nodes) (hkind : list.kind = .parameters) (hplain : list.plainParameters = []) :
    charAt source (list.span.stop - 1) = some ')' := by
  rcases hl.parameters hlist hkind with ⟨-, hclose, -⟩ | hbare
  · exact hclose
  · obtain ⟨c, more, hchildren⟩ : ∃ c more, list.children = c :: more := by
      cases hchildren : list.children with
      | nil => rw [hchildren] at hbare; cases hbare
      | cons c more => exact ⟨c, more, rfl⟩
    rw [hchildren, List.map_cons, List.cons.injEq, Prod.mk.injEq] at hbare
    have hmem : c ∈ list.plainParameters :=
      List.mem_filter.mpr ⟨by rw [hchildren]; exact List.mem_cons_self .., decide_eq_true hbare.1.1⟩
    rw [hplain] at hmem
    cases hmem

theorem bare_in_place (htidy : draft.Tidy) {first : Tree} (hopen : .prepend first.span.start "(h, " ∈ draft.edits)
    (hclose : .append first.span.stop ")" ∈ draft.edits) (hpos : first.span.start < first.span.stop)
    (hend : IsBoundary draft.source first.span.stop) (hstop : first.span.stop ≤ range.stop)
    (hreach : draft.Reaches range nested (.prepend first.span.start "(h, "))
    (hreach' : draft.Reaches range nested (.append first.span.stop ")"))
    (hout : draft.renderRange (depth + 1) range nested = .ok out) :
    ∃ front middle back after last,
      draft.ShowsIn depth range nested (.prepend first.span.start "(h, ") front "(h, ".toList
        (middle ++ ')' :: back) out
        after ∧
      draft.ShowsAt (fun r => draft.renderRange depth r true) range.stop first.span.start after
        (.append first.span.stop ")") middle [')'] back (middle ++ ')' :: back) last ∧
      draft.Keeps first.span.start first.span.stop after (middle ++ ')' :: back) := by
  have hlater : (Edit.append first.span.stop ")").le (.prepend first.span.start "(h, ") = false := by
    rw [← Bool.not_eq_true, Edit.le_iff]
    simp only [Edit.append, Edit.prepend]
    omega
  obtain ⟨front, opening, middle, close, back, after, last, hshows, hclosed⟩ := htidy.insertions_in_order
    (Draft.pair_arranged hopen hclose hreach.1 hreach'.1 hlater) (by simp [Edit.prepend])
    (by simp [Edit.append]) hreach
    hreach' hout
  have hown := hshows.own
  rw [Edit.prepend, Draft.renderContent_ofText] at hown
  cases hown
  have hown := hclosed.own
  rw [Edit.append, Draft.renderContent_ofText] at hown
  cases hown
  exact ⟨front, middle, back, after, last, hshows, hclosed,
    fun hafter => Draft.splice_keeps hend (Nat.le_of_lt hpos) hstop hafter hshows.rest⟩

theorem factory_in_place (htidy : draft.Tidy) {program list : Tree} (hl : Layout draft.source program)
    (hlist : list ∈ program.nodes) (hkind : list.kind = .parameters) (hpos : list.span.start < list.span.stop)
    (hedits : ∀ e ∈ prependFactory list, e ∈ draft.edits) (hrange : range.contains list.span = true)
    (hreach : ∀ e ∈ prependFactory list, draft.Reaches range nested e)
    (hout : draft.renderRange (depth + 1) range nested = .ok out) :
    draft.ShowsFactory depth range nested list out := by
  have hstop := (Span.contains_iff.mp hrange).2
  obtain ⟨-, -, hend⟩ := hl.fits hlist
  have part : ∀ {c : Tree}, c ∈ list.children → c.span.start ≤ list.span.stop ∧ c.span.stop ≤ list.span.stop := by
    intro c hc
    have := (hl.parts hlist).bounds c hc
    omega
  unfold prependFactory at hedits hreach
  cases hthis : list.find? (· = .thisParameter) with
  | some this =>
    simp only [hthis, List.mem_singleton, forall_eq] at hedits hreach
    have hchild := List.mem_of_find?_eq_some hthis
    obtain ⟨front, back, after, hshows, hkept⟩ :=
      htidy.text_in_place hedits (by simp [Edit.append]) ", h" rfl hreach hout hend (part hchild).2 hstop
    exact .behindThis hthis hshows hkept (leadsBehindThis back)
  | none =>
    cases hplain : list.plainParameters with
    | cons first more =>
      have hchild : first ∈ list.children := by
        have : first ∈ list.plainParameters := by rw [hplain]; exact List.mem_cons_self ..
        exact (List.mem_filter.mp this).1
      simp only [hthis, hplain] at hedits hreach
      split at hedits
      · rename_i hsame
        rw [if_pos hsame] at hreach
        simp only [List.mem_cons, List.not_mem_nil, or_false, forall_eq_or_imp, forall_eq] at hedits hreach
        obtain ⟨front, middle, back, after, last, hshows, hclosed, hkept⟩ :=
          bare_in_place htidy hedits.1 hedits.2 (hsame ▸ hpos) (hsame ▸ hend) (hsame ▸ hstop) hreach.1
            hreach.2 hout
        exact .bare hthis (by rw [hplain]; rfl) hsame hshows hclosed hkept (leadsBare middle back)
      · rename_i hsame
        rw [if_neg hsame] at hreach
        simp only [List.mem_singleton, forall_eq] at hedits hreach
        obtain ⟨front, back, after, hshows, hkept⟩ :=
          htidy.text_in_place hedits (by simp [Edit.prepend]) "h, " rfl hreach hout hend (part hchild).1 hstop
        exact .before hthis (by rw [hplain]; rfl) hshows hkept (leadsOthers back)
    | nil =>
      cases hrest : list.find? (· = .restParameter) with
      | some rest =>
        simp only [hthis, hplain, hrest, List.mem_singleton, forall_eq] at hedits hreach
        have hchild := List.mem_of_find?_eq_some hrest
        obtain ⟨front, back, after, hshows, hkept⟩ :=
          htidy.text_in_place hedits (by simp [Edit.prepend]) "h, " rfl hreach hout hend (part hchild).1 hstop
        exact .before hthis (by rw [hplain]; exact hrest) hshows hkept (leadsOthers back)
      | none =>
        simp only [hthis, hplain, hrest, List.mem_singleton, forall_eq] at hedits hreach
        obtain ⟨front, back, after, hshows, hkept⟩ :=
          htidy.text_in_place hedits (by simp [Edit.prepend]) factoryName rfl hreach hout hend
            (by simp only [Edit.prepend]; omega) hstop
        refine .alone hthis hplain hrest hshows (fun hafter => ?_) (leadsAlone back)
        obtain ⟨kept, behind, hslice, rfl⟩ := hkept hafter
        obtain ⟨more, rfl⟩ := slice?_head (empty_closed hl hlist hkind hplain) (by omega) hslice
        exact ⟨more ++ behind, rfl⟩

end

/-- The render function of a functional definition gets the factory as its first parameter. The rule of the
definition changes nothing else in the list of parameters, and nothing at all if the factory comes first already.
Whatever a rendering makes of the program, the factory comes out in its list: behind `this` if there is one,
otherwise in front, and the list is read as the factory before the parameters that are read behind it. Where the
function is an accessor the member that it is then part of is a mistake. -/
theorem factory_leads_parameters {options : Options} {text : String} {program : Tree} {r : Transformed}
    (hparse : parse options.dialect text.toList = some program) (hlayout : Layout text.toList program)
    (h : transform options text = .ok r) (hactive : options.isInert text = false) :
    ∃ collected draft, collect? options program = some collected ∧
      expansion ⟨options, text.toList, collected⟩ = .ok draft ∧ draft.render = .ok r.code ∧
      ∀ site ∈ collected.usages.pending, site.kind = .functional → ∀ function list, site.render? = some function →
        function.parameterList? = some list →
        (∃ es, Setting.ownEdits ⟨options, text.toList, collected⟩ site = .ok es ∧
          ∀ e ∈ es, e.span.Apart list.span ∨ list.takesFactory = false ∧ e ∈ prependFactory list) ∧
        (list.takesFactory = false → list.span.start < list.span.stop →
          ∀ (depth : Nat) (range : Span) (nested : Bool) (out : List Char), range.contains list.span = true →
            (∀ e ∈ prependFactory list, draft.Reaches range nested e) →
            draft.renderRange (depth + 1) range nested = .ok out →
              draft.ShowsFactory depth range nested list out) ∧
        ∀ access typed, access ≠ .plain → Reader.fitsAccess typed access function = true →
          ∀ (rules : Rules) (s s' : ReadState) (member key longer : Tree) (computed shorthand isMethod : Bool),
            Reader.objectMember rules s = some (member, s') → member.children = [key, longer] →
            member.kind = .property access computed shorthand isMethod →
            (Reader.ownParameters longer).length = (Reader.ownParameters function).length + 1 →
              s'.faulty = true := by
  obtain ⟨collected, draft, hcollect, hdraft, hcode⟩ := transform_active hparse h hactive
  refine ⟨collected, draft, hcollect, hdraft, hcode, fun site hs hkind function list hrender hlist => ?_⟩
  have hin := collect?_sites hcollect site hs
  have hrecorded := expansion_recorded hlayout.root hcollect hdraft
  obtain ⟨hchild, hparameters⟩ := parameterList?_mem hlist
  refine ⟨?_, fun htakes hpos depth range nested out hrange hreach hout => ?_, ?_⟩
  · obtain ⟨entry, -, hown⟩ := own_entry hdraft hs (by rw [hkind]; decide)
    exact ⟨entry.edits, hown, functional_spares hlayout hin hkind hown hrender hlist⟩
  · have hnode : list ∈ program.nodes :=
      Tree.nodes_trans (Site.render?_mem hin hrender) (Tree.child_mem_nodes hchild)
    rcases expansion_factory hdraft hs hkind hrender hlist with hcontra | ⟨-, -, hedits⟩
    · rw [htakes] at hcontra
      cases hcontra
    · exact factory_in_place (hrecorded.tidy hlayout) (hrecorded.source_eq ▸ hlayout) hnode hparameters hpos
        hedits hrange
        hreach hout
  · intro access typed haccess hfits rules s s' member key longer computed shorthand isMethod hread hchildren
      hmember hlonger
    exact Reader.objectMember_misfit member s' hread access computed shorthand isMethod key longer hmember
      haccess hchildren
      (Reader.fitsAccess_longer haccess hfits hlonger)

def accessorSample : String :=
  "import \x7bfunctional as f\x7d from 'm.macro';\nA = f(\x7bget render() \x7b return 1 \x7d\x7d);\nB = f(p => p);"

def showsLeads (text : List Char) (collected : Collected) (draft : Draft) : Bool :=
  decide ((collected.usages.get .functional).length = 2) && (collected.usages.get .functional).all fun site =>
    site.render?.any fun function => Reader.fitsAccess true .getter function == (function.kind != .arrow false) &&
      function.parameterList?.any fun list =>
        let whole : Span := ⟨0, byteLength text⟩
        !list.takesFactory && decide (list.span.start < list.span.stop) && whole.contains list.span &&
          (prependFactory list).all fun e => decide (draft.Reaches whole false e)

theorem factory_leads_parameters_accessor : ∃ program r collected draft,
    parse (Options.dialect {}) accessorSample.toList = some program ∧ Layout accessorSample.toList program ∧
    transform {} accessorSample = .ok r ∧ Options.isInert {} accessorSample = false ∧
    collect? {} program = some collected ∧ expansion ⟨{}, accessorSample.toList, collected⟩ = .ok draft ∧
    showsLeads accessorSample.toList collected draft = true ∧
    ∀ site ∈ collected.usages.get .functional, ∃ function list, site.render? = some function ∧
      function.parameterList? = some list ∧
      draft.ShowsFactory draft.edits.length ⟨0, byteLength accessorSample.toList⟩ false list r.code.toList ∧
      (function.kind ≠ .arrow false → ∀ (rules : Rules) (s s' : ReadState) (key longer : Tree) (span : Span),
        Reader.objectMember rules s = some (.node (.property .getter false false false) span [key, longer], s') →
        (Reader.ownParameters longer).length = (Reader.ownParameters function).length + 1 → s'.faulty = true) := by
  have hsample : ((parse (Options.dialect {}) accessorSample.toList).any fun program =>
      decide (Layout accessorSample.toList program) && (collect? {} program).any fun collected =>
        (expansion ⟨{}, accessorSample.toList, collected⟩).toOption.any
          (showsLeads accessorSample.toList collected)) = true ∧
      ((transform {} accessorSample).toOption.any (·.changed)) = true := by decide +kernel
  obtain ⟨hgood, hok⟩ := hsample
  simp only [Option.any_eq_true, Bool.and_eq_true, decide_eq_true_eq] at hgood hok
  obtain ⟨program, hparse, hlayout, collected, hcollect, draft, hdraft, hshows⟩ := hgood
  obtain ⟨r, hr, hchanged⟩ := hok
  have hr := toOption_eq_some hr
  have hdraft := toOption_eq_some hdraft
  have hactive := not_isInert_of_changed hr hchanged
  obtain ⟨collected', draft', hcollect', hdraft', hcode, hleads⟩ :=
    factory_leads_parameters hparse hlayout hr hactive
  cases hcollect.symm.trans hcollect'
  cases hdraft.symm.trans hdraft'
  refine ⟨program, r, collected, draft, hparse, hlayout, hr, hactive, hcollect, hdraft, hshows, fun site hs => ?_⟩
  obtain ⟨hpending, hkind⟩ := List.mem_filter.mp hs
  unfold showsLeads at hshows
  rw [Bool.and_eq_true, List.all_eq_true] at hshows
  have hsite := hshows.2 site hs
  simp only [Option.any_eq_true, Bool.and_eq_true, List.all_eq_true, decide_eq_true_eq, Bool.not_eq_true',
    beq_iff_eq] at hsite
  obtain ⟨function, hrender, hgetter, list, hlist, ⟨⟨htakes, hpos⟩, hrange⟩, hreach⟩ := hsite
  obtain ⟨-, hshown, haccessor⟩ := hleads site hpending (of_decide_eq_true hkind) function list hrender hlist
  refine ⟨function, list, hrender, hlist, hshown htakes hpos _ _ _ _ hrange hreach ?_, fun hkind => ?_⟩
  · rw [← (expansion_recorded hlayout.root hcollect hdraft).source_eq]
    exact Draft.render_eq_ok hcode
  · intro rules s s' key longer span hread hlonger
    have hfits : Reader.fitsAccess true .getter function = true := by
      rw [hgetter]
      simpa using hkind
    exact haccessor .getter true (by decide) hfits rules s s' _ key longer _ _ _ hread rfl rfl hlonger

end ComponentMacros
