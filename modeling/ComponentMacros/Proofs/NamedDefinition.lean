import ComponentMacros.Proofs.Merging
import ComponentMacros.Proofs.Naming
import ComponentMacros.Proofs.Survival

/-!
# Where names come out

New members of a definition go to a place that no other rule cuts through: what
is replaced over this place covers the whole definition. So the name comes out
before the members, even if the first of them goes, and right behind the mark of
a functional component. Each definition has a place of its own.
-/

namespace ComponentMacros

/-! ## Neighbours -/

namespace Edit

theorem insertArranged_adjacent {a b : Edit} (hba : b.le a = true) (e : Edit) (back : List Edit) :
    ∀ front : List Edit, ∃ front' back', insertArranged e (front ++ a :: b :: back) = front' ++ a :: b :: back'
  | [] => by
    by_cases hea : e.le a = true
    · exact ⟨[e], back, by simp [insertArranged, hea]⟩
    · have heb : ¬ e.le b = true := fun heb => hea (le_trans heb hba)
      exact ⟨[], insertArranged e back, by simp [insertArranged, hea, heb]⟩
  | f :: front => by
    by_cases hef : e.le f = true
    · exact ⟨e :: f :: front, back, by simp [insertArranged, hef]⟩
    · obtain ⟨front', back', h⟩ := insertArranged_adjacent hba e back front
      exact ⟨f :: front', back', by simp [insertArranged, hef, h]⟩

theorem insertArranged_twice {a b : Edit} (hab : a.le b = true) (hba : b.le a = true) :
    ∀ es : List Edit, ∃ front back, insertArranged a (insertArranged b es) = front ++ a :: b :: back
  | [] => ⟨[], [], by simp [insertArranged, hab]⟩
  | f :: es => by
    by_cases hbf : b.le f = true
    · exact ⟨[], f :: es, by simp [insertArranged, hbf, hab]⟩
    · have haf : ¬ a.le f = true := fun haf => hbf (le_trans hba haf)
      obtain ⟨front, back, h⟩ := insertArranged_twice hab hba es
      exact ⟨f :: front, back, by simp [insertArranged, hbf, haf, h]⟩

theorem sort_adjacent {a b : Edit} (hab : a.le b = true) (hba : b.le a = true) (after : List Edit) :
    ∀ before : List Edit, ∃ front back, sort (before ++ a :: b :: after) = front ++ a :: b :: back
  | [] => insertArranged_twice hab hba (sort after)
  | e :: before => by
    obtain ⟨front, back, h⟩ := sort_adjacent hab hba after before
    rw [List.cons_append, sort, h]
    exact insertArranged_adjacent hba e back front

theorem arrange_adjacent {a b : Edit} (ha : a.placement = .prepend) (hb : b.placement = .prepend)
    (hstart : a.span.start = b.span.start) (before after : List Edit) :
    ∃ front back, arrange (before ++ a :: b :: after) = front ++ b :: a :: back := by
  have htie : ∀ {x y : Edit}, x.placement = .prepend → y.placement = .prepend → x.span.start = y.span.start →
      x.le y = true := fun hx hy h => le_iff.mpr (Or.inr ⟨h, Or.inr ⟨hx.trans hy.symm, by simp [hx]⟩⟩)
  have h := sort_adjacent (htie hb ha hstart.symm) (htie ha hb hstart)
    ((before.filter (·.placement = .prepend)).reverse ++ (before ++ a :: b :: after).filter
      (·.placement ≠ .prepend))
    (after.filter (·.placement = .prepend)).reverse
  have harrange : arrange (before ++ a :: b :: after) =
    sort ((after.filter (·.placement = .prepend)).reverse ++ b :: a ::
      ((before.filter (·.placement = .prepend)).reverse ++
        (before ++ a :: b :: after).filter (·.placement ≠ .prepend))) := by
    rw [arrange]
    congr 1
    rw [List.filter_append, List.filter_cons_of_pos (by simpa using ha),
      List.filter_cons_of_pos (by simpa using hb)]
    simp
  rwa [harrange]

end Edit

/-! ## The place of new members -/

section
variable {source : List Char} {program call argument : Tree}

theorem insertAt_bounds (hl : Layout source program) (ha : argument ∈ program.nodes) :
    argument.span.start ≤ (definitionOf call argument).insertAt ∧
      (definitionOf call argument).insertAt ≤ argument.span.stop := by
  by_cases hobj : argument.isObject = true
  · obtain ⟨hlong, hparts⟩ := (hl.object ha (Tree.isObject_iff.mp hobj)).bounds
    rw [definitionOf_object hobj, Definition.ofObject]
    split
    · rename_i first rest hmembers
      have := hparts first (by rw [hmembers]; exact List.mem_cons_self ..)
      simp only
      omega
    · simp only
      omega
  · rw [definitionOf_function (Bool.eq_false_of_not_eq_true hobj)]
    exact ⟨Nat.le_refl _, hl.ordered ha⟩

theorem insertAt_le_part (hl : Layout source program) (ha : argument ∈ program.nodes) :
    ∀ m ∈ argument.children, (definitionOf call argument).insertAt ≤ m.span.start := by
  intro m hm
  by_cases hobj : argument.isObject = true
  · rw [definitionOf_object hobj]
    exact ofObject_insertAt_le (hl.parts ha) hm
  · rw [definitionOf_function (Bool.eq_false_of_not_eq_true hobj)]
    exact ((hl.parts ha).bounds m hm).1

structure Defines (program call argument : Tree) : Prop where
  mem : call ∈ program.nodes
  isCall : call.isCall = true
  arguments : call.arguments = [argument]
  before : call.span.start < argument.stripParens.span.start
  behind : argument.stripParens.span.stop < call.span.stop

namespace Defines

variable (h : Defines program call argument)

include h

theorem argument_mem : argument.stripParens ∈ program.nodes :=
  Tree.nodes_trans h.mem (Tree.mem_nodes_of_child (Tree.arguments_mem h.arguments) argument.stripParens_mem)

theorem not_parenthesized : call.kind ≠ .parenthesized := by
  obtain ⟨o, hk⟩ := Tree.isCall_iff.mp h.isCall
  rw [hk]
  intro heq
  cases heq

variable (hl : Layout source program)

include hl

theorem around : call.span.start < (definitionOf call argument.stripParens).insertAt ∧
    (definitionOf call argument.stripParens).insertAt < call.span.stop := by
  have := @insertAt_bounds source program call _ hl h.argument_mem
  have := h.before
  have := h.behind
  omega

theorem call_mem {t : Tree} (ht : t ∈ program.nodes) (hk : t.kind ≠ .parenthesized)
    (hstart : t.span.start < (definitionOf call argument.stripParens).insertAt)
    (hstop : (definitionOf call argument.stripParens).insertAt < t.span.stop) :
    call ∈ t.nodes ∨ t = argument.stripParens := by
  have hplace := h.around hl
  have hbounds := @insertAt_bounds source program call _ hl h.argument_mem
  rcases hl.nested h.mem ht (by unfold Span.Apart; omega) with hin | hin
  · exact Or.inl hin
  rcases Tree.mem_nodes.mp hin with rfl | ⟨c, hc, hin⟩
  · exact Or.inl (Tree.mem_nodes_self _)
  have harg := Tree.arguments_mem h.arguments
  have hcp := Tree.nodes_trans h.mem (Tree.child_mem_nodes hc)
  have hargp := Tree.nodes_trans h.mem (Tree.child_mem_nodes harg)
  have hct := Span.contains_iff.mp (hl.contains hcp hin)
  have hstrip := Span.contains_iff.mp (hl.contains hargp argument.stripParens_mem)
  -- two parts of the call that share the place are one
  obtain rfl : c = argument := by
    rcases (hl.parts h.mem).eq_or_apart c hc argument harg with heq | hap
    · exact heq
    · unfold Span.Apart at hap
      omega
  have hin := Tree.mem_stripParens_of_kind hin hk
  rcases Tree.mem_nodes.mp hin with heq | ⟨m, hm, hin⟩
  · exact Or.inr heq
  · have hmember := @insertAt_le_part source program call _ hl h.argument_mem m hm
    have hmp := Tree.nodes_trans h.argument_mem (Tree.child_mem_nodes hm)
    have := Span.contains_iff.mp (hl.contains hmp hin)
    omega

theorem call_unique {call' argument' : Tree} (h' : Defines program call' argument')
    (hobj : argument.stripParens.isCall = false) (hobj' : argument'.stripParens.isCall = false)
    (heq : (definitionOf call argument.stripParens).insertAt =
      (definitionOf call' argument'.stripParens).insertAt) :
    call = call' := by
  have hplace := h.around hl
  have hplace' := h'.around hl
  have hin : call ∈ call'.nodes := by
    rcases h.call_mem hl h'.mem h'.not_parenthesized (by omega) (by omega) with hin | rfl
    · exact hin
    · rw [h'.isCall] at hobj
      cases hobj
  have hin' : call' ∈ call.nodes := by
    rcases h'.call_mem hl h.mem h.not_parenthesized (by omega) (by omega) with hin | rfl
    · exact hin
    · rw [h.isCall] at hobj'
      cases hobj'
  exact Tree.eq_of_mem_of_mem hin hin'

theorem cut_covers {r : Span} (hcut : Cut source program r)
    (hstart : r.start < (definitionOf call argument.stripParens).insertAt)
    (hstop : (definitionOf call argument.stripParens).insertAt < r.stop) :
    r.contains argument.stripParens.span = true := by
  have hplace := h.around hl
  have hbounds := @insertAt_bounds source program call _ hl h.argument_mem
  have hwhole : call.span.contains argument.stripParens.span = true :=
    Span.contains_iff.mpr ⟨Nat.le_of_lt h.before, Nat.le_of_lt h.behind⟩
  obtain ⟨t, ht, hcut⟩ := hcut
  have hin := Span.contains_iff.mp (hl.cut_contains ht hcut)
  rcases h.call_mem hl ht (Layout.cut_not_parenthesized hcut) (by omega) (by omega) with hcall | rfl
  · rcases Tree.mem_nodes.mp hcall with rfl | ⟨c, hc, hcall⟩
    · obtain ⟨o, hk⟩ := Tree.isCall_iff.mp h.isCall
      cases hcut with
      | whole _ => exact hwhole
      | front _ ha =>
        rw [h.arguments] at ha
        cases ha
        simp only at hstop
        omega
      | back _ ha =>
        rw [h.arguments] at ha
        cases ha
        simp only at hstart
        omega
      | member hk' _ | key hk' _ | line hk' _ => rw [hk] at hk'; cases hk'
    · rcases hl.cut_spare ht hcut hc hcall h.not_parenthesized with hcover | hap
      · exact Span.contains_trans hcover hwhole
      · unfold Span.Apart at hap
        omega
  · by_cases hobj : argument.stripParens.isObject = true
    · have hk := Tree.isObject_iff.mp hobj
      cases hcut with
      | whole _ => exact Span.contains_self _
      | member _ hr =>
        obtain ⟨m, hm, hfrom, -⟩ := memberRanges_start hr
        have := @insertAt_le_part source program call _ hl h.argument_mem m hm
        omega
      | front hk' _ | back hk' _ | key hk' _ | line hk' _ => rw [hk] at hk'; cases hk'
    · -- a function starts at the place
      rw [definitionOf_function (Bool.eq_false_of_not_eq_true hobj)] at hstart
      simp only at hstart
      omega

end Defines

end

/-! ## What an expansion gives -/

section
variable {options : Options} {source : List Char} {program : Tree} {collected : Collected} {draft : Draft}
  {site : Site}

theorem definitionCall_defines (hl : Layout source program) (hshape : Shape program) (hclosed : Closed program)
    (hs : site.In program) {call argument : Tree} (hcall : definitionCall site = .ok (call, argument)) :
    Defines program call argument := by
  obtain ⟨hc, hk, ha, -⟩ := definitionCall_mem hs hcall
  obtain ⟨hbefore, -, hbehind⟩ := definition_bounds hl hshape hclosed hs hcall
  exact ⟨hc, hk, ha, hbefore, hbehind⟩

theorem definitionCall_span {other : Site} {call argument argument' : Tree}
    (hcall : definitionCall site = .ok (call, argument)) (hcall' : definitionCall other = .ok (call, argument')) :
    other.span = site.span := by
  obtain ⟨-, callee, rest, hparts, hspan⟩ := Site.call?_callee (definitionCall_spec hcall).1
  obtain ⟨-, callee', rest', hparts', hspan'⟩ := Site.call?_callee (definitionCall_spec hcall').1
  rw [hparts] at hparts'
  cases hparts'
  exact hspan'.symm.trans hspan

/-- An expansion gives a definition its members one after the other, and nothing else is given at their place. -/
theorem expansion_gifts (hl : Layout source program) (hshape : Shape program) (hclosed : Closed program)
    (hcollect : collect? options program = some collected)
    (hdraft : expansion ⟨options, source, collected⟩ = .ok draft)
    (hs : site ∈ collected.usages.pending) (hkind : site.kind = .component ∨ site.kind = .functional) :
    ∃ call argument before after, definitionCall site = .ok (call, argument) ∧ Defines program call argument ∧
      draft.edits = before ++ gifts options (definitionOf call argument.stripParens) (site.kind = .functional)
        (givenName? options site (definitionOf call argument.stripParens)) ++ after ∧
      ∀ e ∈ before ++ after, e.gives (definitionOf call argument.stripParens).insertAt = false := by
  have hin := collect?_sites hcollect
  obtain ⟨es, hplay, rfl⟩ := expansion_edits hdraft
  obtain ⟨entry, hentry, rfl⟩ : ∃ entry ∈ Setting.ledger ⟨options, source, collected⟩, entry.site = site :=
    site_entry hs
  have hown : Setting.ownEdits ⟨options, source, collected⟩ entry.site = .ok entry.edits := by
    rcases mem_ledger hplay hentry with ⟨-, hown, -⟩ | ⟨-, definition, -, -, hclaims⟩
    · exact hown
    · have htype := Setting.claims_type _ hclaims
      rcases hkind with hkind | hkind <;> rw [hkind] at htype <;> cases htype
  obtain ⟨call, argument, outer, props, hcall, hother, hquiet, hes⟩ := definition_gifts hkind hown
  have hdefines := definitionCall_defines hl hshape hclosed (hin _ hs) hcall
  obtain ⟨first, last, hledger⟩ := List.append_of_mem hentry
  -- no other entry is for the call
  have hothers : ∀ other ∈ first ++ last, ∀ e ∈ other.edits,
      e.gives (definitionOf call argument.stripParens).insertAt = false := by
    intro other hmem e he
    have hledgermem : other ∈ Setting.ledger ⟨options, source, collected⟩ := by
      rw [hledger]
      rcases List.mem_append.mp hmem with hmem | hmem
      · exact List.mem_append_left _ hmem
      · exact List.mem_append_right _ (List.mem_cons_of_mem _ hmem)
    by_contra hgives
    obtain ⟨-, call', argument', hcall', hother', hplace⟩ :=
      entry_gives hplay hledgermem he (Bool.eq_true_of_not_eq_false hgives)
    have hsite := hin _ (ledger_sites_perm.subset (List.mem_map_of_mem hledgermem))
    have hdefines' := definitionCall_defines hl hshape hclosed hsite hcall'
    obtain rfl := hdefines.call_unique hl hdefines' hother hother' hplace.symm
    have hspans : ((Setting.ledger ⟨options, source, collected⟩).map fun entry => entry.site.span).Nodup := by
      have hperm := (@ledger_sites_perm ⟨options, source, collected⟩).map Site.span
      rw [List.map_map] at hperm
      exact hperm.nodup_iff.mpr (collect?_between hl hshape hcollect).nodup_spans
    rw [hledger, (List.perm_middle.map _).nodup_iff, List.map_cons, List.nodup_cons] at hspans
    exact hspans.1 (List.mem_map.mpr ⟨other, hmem, definitionCall_span hcall hcall'⟩)
  have hgifts : ∀ e ∈ gifts options (definitionOf call argument.stripParens) (entry.site.kind = .functional)
      (givenName? options entry.site (definitionOf call argument.stripParens)), (!e.selects e) = true :=
    fun e he => by simp [(gifts_gives he 0).1]
  refine ⟨call, argument, (first.flatMap Entry.edits ++ outer).filter fun e => !e.selects e,
    (props ++ (last.flatMap Entry.edits ++ collected.imports.map (removeImport source))).filter fun e =>
      !e.selects e,
    hcall, hdefines, ?_, ?_⟩
  · rw [recordAll_eq, hledger, List.flatMap_append, List.flatMap_cons, hes]
    conv_rhs => rw [← List.filter_eq_self.mpr hgifts]
    simp only [List.filter_append, List.nil_append, List.append_assoc]
  · intro e he
    rw [← List.filter_append] at he
    have he := (List.mem_filter.mp he).1
    simp only [List.mem_append, List.mem_flatMap, List.mem_map] at he
    rcases he with (⟨other, hmem, he⟩ | he) | he | ⟨other, hmem, he⟩ | ⟨imported, -, rfl⟩
    · exact hothers other (List.mem_append_left _ hmem) e he
    · exact (hquiet e (List.mem_append_left _ he)).gives _
    · exact (hquiet e (List.mem_append_right _ he)).gives _
    · exact hothers other (List.mem_append_right _ hmem) e he
    · exact Edit.Quiet.gives ⟨"", by decide, rfl⟩ _

end

/-! ## Where the name comes out -/

/-- Nothing that is replaced in the rendering of a range covers the span. -/
def Draft.Leaves (draft : Draft) (range : Span) (nested : Bool) (span : Span) : Prop :=
  ∀ f ∈ draft.edits, f.isWithin range nested = true → f.placement = .overwrite → f.span.contains span = false

instance (draft : Draft) (range : Span) (nested : Bool) (span : Span) :
    Decidable (draft.Leaves range nested span) :=
  inferInstanceAs (Decidable (∀ f ∈ draft.edits, _ → _ → _))

/-- A rendering shows the name of a definition: what is made of the source before the place of its members comes
first, and what is made of the source behind the place comes last. The name of a functional component stands right
behind its mark. -/
inductive Draft.ShowsName (draft : Draft) (depth : Nat) (range : Span) (nested : Bool) (pos : Nat)
    (functional : Bool) (text : String) (out : List Char) : Prop where
  | plain {front back : List Char} {after : List Edit} (unmarked : functional = false)
    (shown : draft.ShowsIn depth range nested (.prepend pos text) front text.toList back out after)
    (later : ∀ f ∈ after, pos ≤ f.span.start)
  | marked {front back : List Char} {after : List Edit} (functional : functional = true)
    (mark : draft.ShowsIn depth range nested (.prepend pos "functional: true, ") front "functional: true, ".toList
      (text.toList ++ back) out (.prepend pos text :: after))
    (shown : draft.ShowsAt (fun r => draft.renderRange depth r true) range.stop pos (.prepend pos text :: after)
      (.prepend pos text) [] text.toList back (text.toList ++ back) after)
    (later : ∀ f ∈ after, pos ≤ f.span.start)

section
variable {source : List Char} {program call argument : Tree} {draft : Draft} {range : Span} {nested : Bool}

theorem isWithin_prepend (pos : Nat) (text : String) (range : Span) (nested : Bool) :
    (Edit.prepend pos text).isWithin range nested =
      if nested then range.start < pos && pos < range.stop else range.start ≤ pos && pos ≤ range.stop := rfl

theorem Defines.reaches (h : Defines program call argument) (hl : Layout source program)
    (hrecorded : draft.Recorded source program) (hrange : range.contains call.span = true)
    (hleaves : draft.Leaves range nested argument.stripParens.span) (text : String) :
    draft.Reaches range nested (.prepend (definitionOf call argument.stripParens).insertAt text) := by
  have hplace := h.around hl
  have hrange := Span.contains_iff.mp hrange
  constructor
  · rw [isWithin_prepend]
    split <;> simp only [Bool.and_eq_true, decide_eq_true_eq] <;> omega
  · intro f hf hin ho
    by_contra hover
    simp only [Edit.prepend, not_or, Nat.not_le] at hover
    have hcovers := h.cut_covers hl ((hrecorded.edits f hf).cut ho) hover.2 hover.1
    rw [hleaves f hf hin ho] at hcovers
    cases hcovers

theorem slice?_self {text part : List Char} {pos : Nat} (h : slice? text pos pos = some part) : part = [] := by
  rw [slice?, if_pos (Nat.le_refl _), Nat.sub_self] at h
  obtain ⟨rest, -, h⟩ := Option.bind_eq_some_iff.mp h
  cases rest <;> exact (Option.some.inj h).symm

variable {depth : Nat} {out : List Char} {pos : Nat}

theorem filter_gives_eq_nil {es : List Edit} (h : ∀ e ∈ es, e.gives pos = false) :
    es.filter (·.gives pos) = [] := by
  apply List.filter_eq_nil_iff.mpr
  intro e he
  simp [h e he]

theorem plain_in_place (htidy : draft.Tidy) {text : String} (he : .prepend pos text ∈ draft.edits)
    (hreach : draft.Reaches range nested (.prepend pos text))
    (hout : draft.renderRange (depth + 1) range nested = .ok out) :
    draft.ShowsName depth range nested pos false text out := by
  obtain ⟨front, content, back, after, hshows⟩ := htidy.insertion_in_place he (by simp [Edit.prepend]) hreach hout
  have hown := hshows.own
  rw [Edit.prepend, Draft.renderContent_ofText] at hown
  cases hown
  refine .plain rfl hshows fun f hf => ?_
  obtain ⟨before, hsplit, -⟩ := hshows.split
  have hsorted : (draft.arranged range nested).Pairwise fun a b => a.le b = true := Edit.arrange_pairwise _
  rw [hsplit] at hsorted
  exact Edit.start_le_of_le ((List.pairwise_cons.mp (List.pairwise_append.mp hsorted).2.1).1 f hf)

/-- Of two members that are given one after the other the later one comes out first, right before the other. -/
theorem marked_in_place (htidy : draft.Tidy) {text : String} {before after : List Edit}
    (hedits : draft.edits = before ++ .prepend pos text :: .prepend pos "functional: true, " :: after)
    (hname : isGift text = true) (hquiet : ∀ e ∈ before ++ after, e.gives pos = false)
    (hreach : ∀ text, draft.Reaches range nested (.prepend pos text))
    (hout : draft.renderRange (depth + 1) range nested = .ok out) :
    draft.ShowsName depth range nested pos true text out := by
  have hmark : isGift "functional: true, " = true := by decide
  have hwithin : draft.edits.filter (·.isWithin range nested) = before.filter (·.isWithin range nested) ++
      .prepend pos text :: .prepend pos "functional: true, " :: after.filter (·.isWithin range nested) := by
    simp [hedits, (hreach _).1]
  obtain ⟨first, last, harranged⟩ := Edit.arrange_adjacent (a := .prepend pos text)
    (b := .prepend pos "functional: true, ") rfl rfl rfl (before.filter (·.isWithin range nested))
    (after.filter (·.isWithin range nested))
  rw [← hwithin, ← Draft.arranged] at harranged
  -- the two are all that is given at the place
  have hfresh : .prepend pos "functional: true, " ∉ first := by
    intro hmem
    have hcount :=
      ((Edit.arrange_perm (draft.edits.filter (·.isWithin range nested))).filter (·.gives pos)).length_eq
    have hnone := @filter_gives_eq_nil pos
    rw [← Draft.arranged, harranged, hwithin, List.filter_append, List.filter_append,
      hnone fun e he => hquiet e (List.mem_append_left _ (List.mem_filter.mp he).1)] at hcount
    have hpos : 0 < (first.filter (·.gives pos)).length :=
      List.length_pos_of_mem (List.mem_filter.mpr ⟨hmem, by simp [Edit.gives_prepend, hmark]⟩)
    simp only [List.filter_cons, Edit.gives_prepend, hname, hmark, decide_true, Bool.and_self, if_true,
      hnone fun e he => hquiet e (List.mem_append_right _ (List.mem_filter.mp he).1), List.length_append,
      List.length_cons, List.nil_append, List.length_nil] at hcount
    omega
  have hsorted : (draft.arranged range nested).Pairwise fun a b => a.le b = true := Edit.arrange_pairwise _
  have hes : ∀ f ∈ draft.arranged range nested, f ∈ draft.edits ∧ f.isWithin range nested = true :=
    fun f hf => Draft.mem_arranged.mp hf
  rw [harranged] at hsorted hes
  have hbefore :=
    htidy.ends_before (fun f hf => (hes f (List.mem_append_left _ hf)).1) hsorted (by simp [Edit.prepend])
    fun f hf => (hreach "functional: true, ").2 f (hes f (List.mem_append_left _ hf)).1
      (hes f (List.mem_append_left _ hf)).2
  have hcursor : range.start ≤ pos := by
    have hin := (hreach text).1
    rw [isWithin_prepend] at hin
    split at hin <;> simp only [Bool.and_eq_true, decide_eq_true_eq] at hin <;> omega
  rw [Draft.renderRange, ← Draft.arranged, harranged] at hout
  obtain ⟨front, content, rest, hfront, hcontent, hrest, rfl⟩ := Draft.splice_reaches hbefore hcursor hout
  have hnext : (Edit.prepend pos "functional: true, ").span.stop ≤ (Edit.prepend pos text).span.start :=
    Nat.le_refl _
  obtain ⟨kept, own, back, hkept, hown, hback, rfl⟩ := (Draft.splice_cons hnext).mp hrest
  rw [Edit.prepend, Draft.renderContent_ofText] at hcontent hown
  cases hcontent
  cases hown
  obtain rfl := slice?_self (Draft.slice_eq_ok.mp hkept)
  have htext : ∀ text, Draft.renderContent (fun r => draft.renderRange depth r true)
    (Edit.prepend pos text).content =
      .ok text.toList := fun text => by rw [Edit.prepend, Draft.renderContent_ofText]
  refine .marked rfl ⟨⟨first, harranged, hfresh, hbefore, hfront⟩, htext _, hrest, rfl⟩
    ⟨⟨[], rfl, by simp, by simp, hkept⟩, htext _, hback, rfl⟩ fun f hf => ?_
  have hbehind := (List.pairwise_cons.mp (List.pairwise_append.mp hsorted).2.1).1 f (List.mem_cons_of_mem _ hf)
  exact Edit.start_le_of_le hbehind

end

/-! ## What comes before the name -/

section
variable {setting : Setting}

theorem entry_refers {es : List Edit} (hplay : setting.play setting.hands = .ok es) {entry : Entry}
    (hentry : entry ∈ setting.ledger) {e : Edit} (he : e ∈ entry.edits) {range : Span}
    (hr : .source range ∈ e.content) :
    ∃ own, expandInjections setting.source entry.site = .ok own ∧
      ∀ f, f ∈ entry.edits ↔ f ∈ own ∧ f.selects f = false := by
  have quiet : e.Quiet → False := fun hquiet => hquiet.refers hr
  rcases mem_ledger hplay hentry with ⟨-, hown, -⟩ | ⟨htaken, -⟩
  · rcases ownEdits_cases hown with hkind | ⟨own, hkey | hkey, hes⟩ | ⟨call, -, htype⟩
    · obtain ⟨call, argument, outer, props, -, -, hquiet, hes⟩ := definition_gifts hkind hown
      rw [hes, List.append_assoc, List.mem_append, List.mem_append] at he
      rcases he with he | he | he
      · exact (quiet (hquiet e (List.mem_append_left _ he))).elim
      · obtain ⟨text, -, rfl⟩ := gifts_prepend he
        exact (Fragment.source_not_mem_ofText hr).elim
      · exact (quiet (hquiet e (List.mem_append_right _ he))).elim
    · obtain ⟨member, -, hkey⟩ := bind_eq_ok hkey
      cases hkey
      exact (quiet (removeMember_quiet e ((hes e).mp he).1)).elim
    · exact ⟨own, hkey, hes⟩
    · rw [htype] at he
      rw [List.mem_singleton.mp he] at quiet
      exact (quiet ⟨erasedText, by decide, rfl⟩).elim
  · rw [htaken] at he
    unfold Setting.takenEdits at he
    split at he
    · cases he
    · exact (quiet (annotate_quiet e he)).elim

end

section
variable {options : Options} {source : List Char} {program : Tree} {collected : Collected} {draft : Draft}

theorem moved_replaced (hl : Layout source program) (hshape : Shape program)
    (hcollect : collect? options program = some collected)
    (hdraft : expansion ⟨options, source, collected⟩ = .ok draft)
    {e : Edit} (he : e ∈ draft.edits) {range : Span} (hr : .source range ∈ e.content) :
    ∃ member key value, Transfer program member key value ∧ Moves member value e ∧ range = value.span ∧
      ∃ f ∈ draft.edits, f.placement = .overwrite ∧ f.span.contains member.property.span = true ∧
        (f = e ∨ e.placement ≠ .overwrite ∧ member.object.span.contains f.span = true) := by
  obtain ⟨es, hplay, hedits⟩ := expansion_edits hdraft
  have hmem := he
  rw [hedits, mem_recordAll] at hmem
  rcases hmem with hmem | ⟨hmem, hself⟩
  · cases hmem
  rcases List.mem_append.mp hmem with hmem | hmem
  · obtain ⟨entry, hentry, hmem⟩ := List.mem_flatMap.mp hmem
    obtain ⟨own, hown, hes⟩ := entry_refers hplay hentry hmem hr
    obtain ⟨member, value, hmember, hplain, hvalue, hmap, rfl⟩ := expandInjections_ok hown
    have hs := collect?_sites hcollect _ (ledger_sites_perm.subset (List.mem_map_of_mem hentry))
    obtain ⟨key, ht, -⟩ := keyedMember_transfer hl hshape hs hmember hplain hvalue hmap
    rcases List.mem_append.mp ((hes e).mp hmem).1 with hmoved | hmoved
    · exact ((stripInjectionTypes_quiet e hmoved).refers hr).elim
    unfold moveInjections at hmoved hes
    split at hmoved
    · rw [List.mem_singleton.mp hmoved] at hr
      exact (Edit.Quiet.refers ⟨"inject: ", by decide, rfl⟩ hr).elim
    rename_i htaken
    split at hmoved
    · rename_i hnone
      have hmoves : Moves member value e := by
        rw [List.mem_singleton.mp hmoved]
        exact .inPlace hnone
      refine ⟨member, key, value, ht, hmoves, hmoves.source_mem.mp hr, e, he, ?_, ?_, Or.inl rfl⟩
      all_goals rw [List.mem_singleton.mp hmoved]
      exact Span.contains_self _
    · rename_i mixins hmixins
      rcases List.mem_append.mp hmoved with hmoved | hmoved
      · exact ((removeMember_quiet e hmoved).refers hr).elim
      rcases addMixin_mem hmoved with rfl | ⟨before, after, rfl⟩
      · exact (Edit.Quiet.refers ⟨"[...", by decide, rfl⟩ hr).elim
      have hmoves : Moves member value
          ⟨.append, ⟨mixinEnd mixins, mixinEnd mixins⟩, mixinOf value.span before after⟩ :=
        .intoList hmixins
      obtain ⟨f, hf, hcontains⟩ := removeMember_contains (hl.object ht.owner ht.object).2.2
        (hl.member_comma ht.owner ht.object) (ht.at_index hl hmember)
      obtain ⟨r, hcut, rfl⟩ := removeMember_mem hf
      refine ⟨member, key, value, ht, hmoves, hmoves.source_mem.mp hr, _, ?_, rfl, hcontains, Or.inr ⟨?_, ?_⟩⟩
      · refine entry_recorded hdraft hentry ((hes _).mpr ⟨List.mem_append_right _ ?_, ?_⟩) ?_
        · rw [if_neg htaken, hmixins]
          exact List.mem_append_left _ hf
        all_goals exact Edit.overwrite_selects ..
      · intro heq
        cases heq
      · exact hl.cut_contains ht.owner (.member ht.object hcut)
  · obtain ⟨imported, -, rfl⟩ := List.mem_map.mp hmem
    exact (Edit.Quiet.refers ⟨"", by decide, rfl⟩ hr).elim

theorem Moves.behind_member (hl : Layout source program) {member : KeyedMember} {key value : Tree}
    (ht : Transfer program member key value) {e : Edit} (h : Moves member value e) :
    ∃ m ∈ member.object.children, m.span.start ≤ e.span.start := by
  cases h with
  | inPlace _ => exact ⟨_, ht.child, Nat.le_refl _⟩
  | intoList hmixins =>
    obtain ⟨q, hq, -, hvalue⟩ := memberValue_mem hmixins
    have hqp := Tree.nodes_trans ht.owner (Tree.child_mem_nodes hq)
    have hmq := Tree.value?_mem hvalue
    have hmp := Tree.nodes_trans hqp (Tree.child_mem_nodes hmq)
    have hlist := Span.contains_iff.mp (hl.contains hmp (Tree.stripParens_mem _))
    have hstart := ((hl.parts hqp).bounds _ hmq).1
    have hend := mixinEnd_bounds hl hmp
    exact ⟨q, hq, by simp only; omega⟩

/-- What is replaced for a move is replaced in each rendering that the move and the moved text are part of. -/
theorem moved_within (hl : Layout source program) {range : Span} {nested : Bool}
    (hrecorded : draft.Recorded source program) (hopen : draft.Open source program range nested)
    {member : KeyedMember} {key value : Tree} (ht : Transfer program member key value) {e f : Edit}
    (hmoves : Moves member value e) (hin : e.isWithin range nested = true) (hself : e.selects e = false)
    (hvalue : ¬ range.Apart value.span) (he : e.placement ≠ .overwrite) (hf : f ∈ draft.edits)
    (ho : f.placement = .overwrite) (hcontains : member.object.span.contains f.span = true) :
    f.isWithin range nested = true := by
  cases hopen with
  | whole => exact hrecorded.within_whole hl hf ho
  | @moved member' key' value' ht' _ =>
    cases hmoves with
    | inPlace _ => exact absurd rfl he
    | @intoList mixins before after hmixins =>
      have hplace := hin
      simp only [Edit.isWithin, ite_true, Bool.and_eq_true, decide_eq_true_eq] at hplace
      rcases ht'.owner_mem_of_mixins hl ht hmixins hplace.1 hplace.2 with howner | ⟨-, hlist⟩
      · rw [Edit.isWithin, ho]
        exact Span.contains_trans (hl.contains ht'.value_mem howner) hcontains
      · -- the list would be the moved map
        obtain ⟨q, hq, -, hqv⟩ := memberValue_mem hmixins
        have hqp := Tree.nodes_trans ht.owner (Tree.child_mem_nodes hq)
        have hmq := Span.contains_iff.mp (hl.contains hqp (Tree.child_mem_nodes (Tree.value?_mem hqv)))
        have hb := ht.bounds hl
        rw [hlist] at hvalue hin
        rcases (hl.parts ht.owner).eq_or_apart q hq _ ht.child with rfl | hap
        · have hlast : member.property.value? = some value := by
            rw [Tree.value?, if_pos ht.property, ht.parts]
            rfl
          rw [hqv] at hlast
          cases hlast
          rw [← Bool.not_eq_true, Moves.selects_iff (.intoList hmixins)] at hself
          exact absurd hin hself
        · unfold Span.Apart at hap hvalue
          omega

end

def Draft.Spares (draft : Draft) (range : Span) (nested : Bool) (pos : Nat) (span : Span) : Prop :=
  ∀ f ∈ draft.edits, f.isWithin range nested = true → f.le (.prepend pos "") = true → ∀ r, .source r ∈ f.content →
    r.Apart span

section
variable {options : Options} {source : List Char} {program call argument : Tree} {collected : Collected}
  {draft : Draft} {range : Span} {nested : Bool}

theorem Defines.spares (h : Defines program call argument) (hl : Layout source program) (hshape : Shape program)
    (hcollect : collect? options program = some collected)
    (hdraft : expansion ⟨options, source, collected⟩ = .ok draft)
    (hopen : draft.Open source program range nested) (hrange : range.contains call.span = true)
    (hleaves : draft.Leaves range nested argument.stripParens.span) :
    draft.Spares range nested (definitionOf call argument.stripParens).insertAt argument.stripParens.span := by
  have hrecorded := expansion_recorded hl.root hcollect hdraft
  intro f hf hin hle r hr
  obtain ⟨member, key, value, ht, hmoves, rfl, g, hg, hover, hproperty, hreplaced⟩ :=
    moved_replaced hl hshape hcollect hdraft hf hr
  have hstart : f.span.start < (definitionOf call argument.stripParens).insertAt := by
    rcases Edit.le_iff.mp hle with hlt | ⟨-, hrank | ⟨hsame, -⟩⟩
    · exact hlt
    · simp [Edit.prepend, Placement.rank] at hrank
    · cases hmoves <;> cases hsame
  by_contra hmeet
  -- nothing of the definition is moved along with its property
  have hnot : member.property.span.contains argument.stripParens.span = false := by
    by_contra hcover
    have hcover := Bool.eq_true_of_not_eq_false hcover
    have hgin : g.isWithin range nested = true := by
      rcases hreplaced with rfl | ⟨hp, hinside⟩
      · exact hin
      · refine moved_within hl hrecorded hopen ht hmoves hin (hrecorded.selfless f hf) ?_ hp hg hover hinside
        have := h.before
        have := h.behind
        have := Span.contains_iff.mp hrange
        unfold Span.Apart at hmeet ⊢
        omega
    have := hleaves g hg hgin hover
    rw [Span.contains_trans hproperty hcover] at this
    cases this
  rcases ht.below_or_around hl h.argument_mem (fun hap => hmeet hap.symm) with hbelow | heq | haround
  · rw [hl.contains ht.property_mem (Tree.mem_nodes_of_child ht.value_child hbelow)] at hnot
    cases hnot
  · rw [heq, Span.contains_self] at hnot
    cases hnot
  · obtain ⟨m, hm, hbehind⟩ := hmoves.behind_member hl ht
    rcases Tree.mem_nodes.mp haround with heq | ⟨c, hc, haround⟩
    · rw [heq] at hm
      have := @insertAt_le_part source program call _ hl h.argument_mem m hm
      omega
    · have hcstart := @insertAt_le_part source program call _ hl h.argument_mem c hc
      have hcp := Tree.nodes_trans h.argument_mem (Tree.child_mem_nodes hc)
      have hmc := Span.contains_iff.mp (hl.contains hcp (Tree.nodes_trans haround (Tree.child_mem_nodes hm)))
      omega

end

/-! ## Names of a program -/

/-- What an expansion makes of the name of a definition. -/
structure Draft.Names (draft : Draft) (options : Options) (program : Tree) (site : Site) (call argument : Tree)
    (name? : Option String) : Prop where
  naming : Naming options site call argument name?
  unique : ∀ other, Naming options site call argument other → other = name?
  once : draft.edits.filter (·.gives (definitionOf call argument).insertAt) =
    gifts options (definitionOf call argument) (site.kind = .functional) name?
  first : ∀ m ∈ argument.children, (definitionOf call argument).insertAt ≤ m.span.start
  shown : ∀ name, name? = some name → ∀ (depth : Nat) (range : Span) (nested : Bool) (out : List Char),
    draft.Open draft.source program range nested → range.contains call.span = true →
    draft.Leaves range nested argument.span → draft.renderRange (depth + 1) range nested = .ok out →
      draft.ShowsName depth range nested (definitionOf call argument).insertAt (site.kind = .functional)
        (nameText options (definitionOf call argument) name) out ∧
      draft.Spares range nested (definitionOf call argument).insertAt argument.span

/-- A definition is given the name it is to have, once, and no name if it is to have none; no other edit puts
a name or a mark anywhere. The name goes before all members. Whatever a rendering makes of the program, if the
definition is left in it, then the name comes out before all that is made of the members, right behind the
mark of a functional component. -/
theorem definition_named_once {options : Options} {text : String} {program : Tree} {r : Transformed}
    (hparse : parse options.dialect text.toList = some program) (hlayout : Layout text.toList program)
    (hshape : Shape program) (hclosed : Closed program) (h : transform options text = .ok r)
    (hactive : options.isInert text = false) :
    ∃ collected draft, collect? options program = some collected ∧
      expansion ⟨options, text.toList, collected⟩ = .ok draft ∧ draft.render = .ok r.code ∧
      (∀ e ∈ draft.edits, ∀ pos, e.gives pos = true → ∃ site ∈ collected.usages.pending,
        (site.kind = .component ∨ site.kind = .functional) ∧ ∃ call argument, definitionCall site =
          .ok (call, argument) ∧
          (definitionOf call argument.stripParens).insertAt = pos) ∧
      ∀ site ∈ collected.usages.pending, site.kind = .component ∨ site.kind = .functional →
        ∃ call argument name?, definitionCall site = .ok (call, argument) ∧
          draft.Names options program site call argument.stripParens name? := by
  obtain ⟨collected, draft, hcollect, hdraft, hcode⟩ := transform_active hparse h hactive
  have hrecorded := expansion_recorded hlayout.root hcollect hdraft
  refine ⟨collected, draft, hcollect, hdraft, hcode, fun e he pos hgives => ?_, fun site hs hkind => ?_⟩
  · obtain ⟨es, hplay, rfl⟩ := expansion_edits hdraft
    rcases mem_recordAll.mp he with he | ⟨he, -⟩
    · cases he
    rcases List.mem_append.mp he with he | he
    · obtain ⟨entry, hentry, he⟩ := List.mem_flatMap.mp he
      obtain ⟨hkind, call, argument, hcall, -, hplace⟩ := entry_gives hplay hentry he hgives
      exact ⟨entry.site, ledger_sites_perm.subset (List.mem_map_of_mem hentry), hkind, call, argument,
        hcall, hplace⟩
    · obtain ⟨imported, -, rfl⟩ := List.mem_map.mp he
      rw [Edit.Quiet.gives ⟨"", by decide, rfl⟩ pos] at hgives
      cases hgives
  · obtain ⟨call, argument, before, after, hcall, hdefines, hedits, hquiet⟩ :=
      expansion_gifts hlayout hshape hclosed hcollect hdraft hs hkind
    have hin := collect?_sites hcollect site hs
    have hpos : call.span.start < call.span.stop :=
      Nat.lt_trans (hdefines.around hlayout).1 (hdefines.around hlayout).2
    have hnaming : ∀ {name?}, Naming options site call argument.stripParens name? ↔ _ = name? :=
      naming_iff hlayout hclosed hin hdefines.mem hdefines.isCall hpos
    refine ⟨call, argument, _, hcall, hnaming.mpr rfl, fun other hother => (hnaming.mp hother).symm, ?_,
      insertAt_le_part hlayout hdefines.argument_mem, ?_⟩
    · rw [hedits, List.filter_append, List.filter_append,
        filter_gives_eq_nil fun e he => hquiet e (List.mem_append_left _ he),
        filter_gives_eq_nil fun e he => hquiet e (List.mem_append_right _ he), List.nil_append, List.append_nil,
        List.filter_eq_self]
      intro e he
      simp [(gifts_gives he _).2]
    · intro name hname depth range nested out hopen hrange hleaves hout
      rw [hrecorded.source_eq] at hopen
      refine ⟨?_, hdefines.spares hlayout hshape hcollect hdraft hopen hrange hleaves⟩
      have hreach := hdefines.reaches hlayout hrecorded hrange hleaves
      rw [hname, gifts] at hedits
      rcases hkind with hkind | hkind
      · rw [hkind] at hedits ⊢
        refine plain_in_place (hrecorded.tidy hlayout) ?_ (hreach _) hout
        rw [hedits]
        simp
      · rw [hkind] at hedits ⊢
        refine marked_in_place (hrecorded.tidy hlayout) ?_ (isGift_nameText ..) hquiet hreach hout
        rw [hedits]
        simp [markText_some]

def nameSample : String :=
  "import \x7bcomponent as c, functional as f, EVENTS as E\x7d from 'm.macro';\n" ++
    "A = c(\x7b[E]: 1, b: 2\x7d);\nexport default f(p => p);"

def nameOptions : Options := { fileName := some "x/Page.tsx" }

def showsGifts (text : List Char) (collected : Collected) (draft : Draft) : Bool :=
  (collected.usages.get .component ++ collected.usages.get .functional).all fun site =>
    (definitionCall site).toOption.any fun (call, argument) =>
      let pos := (definitionOf call argument.stripParens).insertAt
      decide (draft.edits.filter (·.gives pos) = if site.kind = .component then [.prepend pos "name: \"A\", "]
        else [.prepend pos "name: \"Page\", ", .prepend pos "functional: true, "]) &&
      Span.contains ⟨0, byteLength text⟩ call.span &&
      decide (draft.Leaves ⟨0, byteLength text⟩ false argument.stripParens.span)

theorem definition_named_once_removed : ∃ program r collected draft,
    parse nameOptions.dialect nameSample.toList = some program ∧ Layout nameSample.toList program ∧ Shape program ∧
    Closed program ∧ transform nameOptions nameSample = .ok r ∧ nameOptions.isInert nameSample = false ∧
    collect? nameOptions program = some collected ∧
    expansion ⟨nameOptions, nameSample.toList, collected⟩ = .ok draft ∧
    showsGifts nameSample.toList collected draft = true ∧
    ∀ site ∈ collected.usages.get .component ++ collected.usages.get .functional, ∃ call argument name,
      definitionCall site = .ok (call, argument) ∧ Naming nameOptions site call argument.stripParens (some name) ∧
      draft.ShowsName draft.edits.length ⟨0, byteLength nameSample.toList⟩ false
        (definitionOf call argument.stripParens).insertAt (site.kind = .functional)
        (nameText nameOptions (definitionOf call argument.stripParens) name) r.code.toList := by
  have hsample : ((parse nameOptions.dialect nameSample.toList).any fun program =>
      decide (Layout nameSample.toList program) && decide (Shape program) && decide (Closed program) &&
        (collect? nameOptions program).any fun collected =>
          (expansion ⟨nameOptions, nameSample.toList, collected⟩).toOption.any
            (showsGifts nameSample.toList collected)) = true ∧
      ((transform nameOptions nameSample).toOption.any (·.changed)) = true := by decide +kernel
  obtain ⟨hgood, hok⟩ := hsample
  simp only [Option.any_eq_true, Bool.and_eq_true, decide_eq_true_eq] at hgood hok
  obtain ⟨program, hparse, ⟨⟨hlayout, hshape⟩, hclosed⟩, collected, hcollect, draft, hdraft, hshows⟩ := hgood
  obtain ⟨r, hr, hchanged⟩ := hok
  have hr := toOption_eq_some hr
  have hdraft := toOption_eq_some hdraft
  have hactive := not_isInert_of_changed hr hchanged
  obtain ⟨collected', draft', hcollect', hdraft', hcode, -, hdefinitions⟩ :=
    definition_named_once hparse hlayout hshape hclosed hr hactive
  cases hcollect.symm.trans hcollect'
  cases hdraft.symm.trans hdraft'
  refine ⟨program, r, collected, draft, hparse, hlayout, hshape, hclosed, hr, hactive, hcollect,
    hdraft, hshows, ?_⟩
  intro site hs
  have hsite := List.all_eq_true.mp hshows site hs
  obtain ⟨hpending, hkind⟩ : site ∈ collected.usages.pending ∧
      (site.kind = .component ∨ site.kind = .functional) := by
    rcases List.mem_append.mp hs with hs | hs <;> obtain ⟨hpending, hkind⟩ := List.mem_filter.mp hs
    · exact ⟨hpending, Or.inl (of_decide_eq_true hkind)⟩
    · exact ⟨hpending, Or.inr (of_decide_eq_true hkind)⟩
  obtain ⟨call, argument, name?, hcall, hnames⟩ := hdefinitions site hpending hkind
  rw [hcall] at hsite
  simp only [Except.toOption, Option.any_some, Bool.and_eq_true, decide_eq_true_eq] at hsite
  obtain ⟨⟨hgifts, hin⟩, hleaves⟩ := hsite
  cases name? with
  | none =>
    rw [hnames.once] at hgifts
    rcases hkind with hkind | hkind <;> simp [gifts, hkind] at hgifts
  | some name =>
    have hsource := (expansion_recorded hlayout.root hcollect hdraft).source_eq
    rw [← hsource] at hin hleaves ⊢
    exact ⟨call, argument, name, hcall, hnames.naming,
      (hnames.shown name rfl _ _ _ _ .whole hin hleaves (Draft.render_eq_ok hcode)).1⟩

end ComponentMacros
