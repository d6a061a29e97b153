import ComponentMacros.Proofs.Arrangement
import ComponentMacros.Proofs.Host

/-!
# Rewriting statement by statement

A program can be rewritten one statement at a time: macro imports go with their
line break, a statement with sites is rendered with the edits of its own sites
and nothing else, and the rest of the source is copied. This is what rendering
all edits of an expansion in one pass amounts to.
-/

namespace ComponentMacros

namespace Setting

variable (setting : Setting)

def copy (range : Span) : Except RenderError (List Char) :=
  Draft.slice ⟨setting.source, []⟩ range

def draftOf (statement : Tree) : Draft :=
  Draft.recordAll ⟨setting.source, []⟩
    ((setting.ledger.filter (·.site.isWithin statement.span)).flatMap Entry.edits)

/-- A statement with the edits of its own sites. One without sites is copied. -/
def rewriteStatement (statement : Tree) : Except RenderError (List Char) :=
  if setting.collected.usages.pending.any (·.isWithin statement.span) then
    (setting.draftOf statement).renderRange ((setting.draftOf statement).edits.length + 1) statement.span false
  else setting.copy statement.span

def rewrite : Nat → List Tree → Except RenderError (List Char)
  | cursor, [] => setting.copy ⟨cursor, byteLength setting.source⟩
  | cursor, t :: ts => do
    let gap ← setting.copy ⟨cursor, t.span.start⟩
    if (MacroImport.ofTree? setting.options t).isSome then
      let rest ← rewrite (lineBreakEnd setting.source t.span.stop) ts
      return gap ++ rest
    else
      let own ← setting.rewriteStatement t
      let rest ← rewrite t.span.stop ts
      return gap ++ (own ++ rest)

/-- The statement an edit belongs to: the edit stays inside, or it removes the whole import. -/
inductive Home (t : Tree) (e : Edit) : Prop where
  | edited (hkept : MacroImport.ofTree? setting.options t = none) (h : e.Inside t.span)
  | removed {imported : MacroImport} (himport : MacroImport.ofTree? setting.options t = some imported)
    (h : e = removeImport setting.source imported)

end Setting

theorem filter_flatMap_of {α β : Type} {f : α → List β} {p : β → Bool} {q : α → Bool} : ∀ {l : List α},
    (∀ a ∈ l, ∀ b ∈ f a, p b = q a) → (l.flatMap f).filter p = (l.filter q).flatMap f
  | [], _ => rfl
  | a :: l, h => by
    have ih := @filter_flatMap_of _ _ f p q l fun b hb => h b (List.mem_cons_of_mem _ hb)
    have hhead := h a (List.mem_cons_self ..)
    rw [List.flatMap_cons, List.filter_append, ih]
    by_cases hq : q a = true
    · rw [List.filter_eq_self.mpr fun b hb => by rw [hhead b hb, hq], List.filter_cons_of_pos hq,
        List.flatMap_cons]
    · rw [List.filter_eq_nil_iff.mpr fun b hb => by rw [hhead b hb]; exact hq, List.filter_cons_of_neg hq,
        List.nil_append]

theorem ofTree?_kind {options : Options} {t : Tree} {imported : MacroImport}
    (h : MacroImport.ofTree? options t = some imported) :
    t.kind = .importDeclaration false ∧ imported.span = t.span := by
  unfold MacroImport.ofTree? at h
  split at h
  · rename_i hk _
    split at h
    · cases h; exact ⟨hk, rfl⟩
    · cases h
  · cases h

theorem Ordered.raise : ∀ {ts : List Tree} {lo lo' hi : Nat}, Ordered lo hi ts → lo' ≤ hi →
    (∀ t ∈ ts, lo' ≤ t.span.start) → Ordered lo' hi ts
  | [], _, _, _, _, hle, _ => hle
  | t :: _, _, _, _, ⟨_, hpos, hrest⟩, _, hall => ⟨hall t (List.mem_cons_self ..), hpos, hrest⟩

theorem splice_removed {draft : Draft} {inner : Span → Except RenderError (List Char)} {cursor lo hi : Nat}
    {gap : List Char} (hgap : draft.slice ⟨cursor, lo⟩ = .ok gap) (hlt : lo < hi)
    (hhi : IsBoundary draft.source hi) :
    ∀ {es : List Edit}, es ≠ [] → (∀ e ∈ es, e = .remove lo hi) → draft.splice inner hi cursor es = .ok gap := by
  have hle : cursor ≤ lo := (slice?_isSome_iff.mp (Option.isSome_of_eq_some (Draft.slice_eq_ok.mp hgap))).1
  have hagain : ∀ {es : List Edit}, (∀ e ∈ es, e = .remove lo hi) → draft.splice inner hi hi es = .ok [] := by
    intro es hes
    induction es with
    | nil => exact Draft.slice_self hhi
    | cons e es ih =>
      rw [Draft.splice, if_pos (by rw [hes e (List.mem_cons_self ..)]; exact hlt)]
      exact ih fun f hf => hes f (List.mem_cons_of_mem _ hf)
  intro es hne hes
  cases es with
  | nil => exact absurd rfl hne
  | cons e es =>
    obtain rfl := hes e (List.mem_cons_self ..)
    apply (Draft.splice_cons hle).mpr
    exact ⟨gap, [], [], hgap, rfl, hagain fun f hf => hes f (List.mem_cons_of_mem _ hf), by simp⟩

/-! ## Where edits belong -/

section
variable {setting : Setting} {program : Tree} {draft : Draft}

/-- The edits of an expansion are those of the ledger, then the removals of imports. -/
theorem expansion_edits (h : expansion setting = .ok draft) :
    ∃ es, setting.play setting.hands = .ok es ∧ draft = Draft.recordAll ⟨setting.source, []⟩
      (setting.ledger.flatMap Entry.edits ++ setting.collected.imports.map (removeImport setting.source)) := by
  obtain ⟨progress, hall, rfl⟩ := expansion_ok h
  rw [expandAll_eq] at hall
  cases hplay : setting.play setting.hands with
  | error e => rw [hplay] at hall; cases hall
  | ok es =>
    rw [hplay] at hall
    cases hall
    refine ⟨es, rfl, ?_⟩
    rw [recordAll_append, (play_ok hplay).2, ← ledger_edits]

theorem Setting.Home.start (hclosed : Closed program) (hroot : program.kind = .program) {t : Tree}
    (ht : t ∈ program.children) {e : Edit} (h : setting.Home t e) :
    t.span.start ≤ e.span.start ∧ e.span.start < t.span.stop := by
  cases h with
  | edited _ h => exact ⟨h.from_start, h.before_stop⟩
  | removed himport h =>
    rw [h, removeImport, (ofTree?_kind himport).2]
    exact ⟨Nat.le_refl _, hclosed.statement hroot ht⟩

theorem Setting.Home.starts_in_iff (hl : Layout setting.source program) (hclosed : Closed program) {t u : Tree}
    (ht : t ∈ program.children) (hu : u ∈ program.children) {e : Edit} (h : setting.Home u e) :
    t.span.start ≤ e.span.start ∧ e.span.start < t.span.stop ↔ u = t := by
  have hstart := h.start hclosed hl.root hu
  constructor
  · intro hin
    rcases (hl.parts (Tree.mem_nodes_self program)).eq_or_apart u hu t ht with heq | hap
    · exact heq
    · unfold Span.Apart at hap
      omega
  · intro heq
    rw [← heq]
    exact hstart

theorem entry_home {es : List Edit} (hplay : setting.play setting.hands = .ok es)
    (hl : Layout setting.source program) (hshape : Shape program) (hclosed : Closed program)
    (hsites : ∀ s ∈ setting.collected.usages.pending, s.In program) {entry : Entry} (h : entry ∈ setting.ledger)
    {t : Tree} (ht : t ∈ program.children) (hin : entry.site.isWithin t.span = true) :
    ∀ e ∈ entry.edits, MacroImport.ofTree? setting.options t = none ∧ e.Inside t.span := by
  intro e he
  have hs : entry.site.In program := hsites _ (ledger_sites_perm.subset (List.mem_map_of_mem h))
  obtain ⟨host, hhost, hinside⟩ := entry_host hplay hl hshape hclosed hsites h e he
  obtain ⟨c, hc, hmem, hcontains, hsite⟩ := hhost.statement hs hl
  obtain ⟨d, -, -, honly⟩ := hs.statement hl hshape
  obtain rfl : t = c := (honly t ht hin).trans (honly c hc hsite).symm
  refine ⟨?_, hinside.mono hcontains⟩
  -- an import has no hosts
  cases himport : MacroImport.ofTree? setting.options t with
  | none => rfl
  | some imported =>
    have hnode := Tree.nodes_trans (Tree.mem_nodes_self program) (Tree.child_mem_nodes ht)
    have hnone := hclosed.imported hnode (ofTree?_kind himport).1 hmem
    rcases hhost.2 with hk | hk
    · rw [hnone.1] at hk; cases hk
    · rw [hnone.2] at hk; cases hk

/-- Between statements: the statements to come start behind the cursor, and all edits that do belong
to them. -/
structure Setting.Ahead (setting : Setting) (program : Tree) (draft : Draft) (cursor : Nat) (ts : List Tree) :
    Prop where
  statements : ∀ t ∈ ts, t ∈ program.children
  ordered : Ordered cursor (byteLength setting.source) ts
  boundary : IsBoundary setting.source cursor
  home : ∀ e ∈ draft.edits, cursor ≤ e.span.start → ∃ t ∈ ts, setting.Home t e

namespace Setting.Ahead

variable {cursor mid : Nat} {t : Tree} {ts : List Tree}

theorem next (h : setting.Ahead program draft cursor (t :: ts)) (hclosed : Closed program)
    (hroot : program.kind = .program) (hstop : t.span.stop ≤ mid) (hmid : ∀ u ∈ ts, mid ≤ u.span.start)
    (hbound : IsBoundary setting.source mid) : setting.Ahead program draft mid ts := by
  refine ⟨fun u hu => h.statements u (List.mem_cons_of_mem _ hu),
    h.ordered.2.2.raise hbound.le_length hmid, hbound, ?_⟩
  intro e he hle
  have hcursor := h.ordered.1
  have hpos := h.ordered.2.1
  obtain ⟨u, hu, hhome⟩ := h.home e he (by omega)
  rcases List.mem_cons.mp hu with rfl | hu
  · have := (hhome.start hclosed hroot (h.statements _ (List.mem_cons_self ..))).2
    omega
  · exact ⟨u, hu, hhome⟩

theorem first (h : setting.Ahead program draft cursor (t :: ts)) (hclosed : Closed program)
    (hroot : program.kind = .program) (hmid : ∀ u ∈ ts, mid ≤ u.span.start) {e : Edit} (he : e ∈ draft.edits)
    (hle : cursor ≤ e.span.start) (hlt : e.span.start < mid) : setting.Home t e := by
  obtain ⟨u, hu, hhome⟩ := h.home e he hle
  rcases List.mem_cons.mp hu with rfl | hu
  · exact hhome
  · have := (hhome.start hclosed hroot (h.statements u (List.mem_cons_of_mem _ hu))).1
    have := hmid u hu
    omega

end Setting.Ahead

theorem draftOf_recorded (hl : Layout setting.source program)
    (hcollect : collect? setting.options program = some setting.collected) (hdraft : expansion setting = .ok draft)
    (t : Tree) : (setting.draftOf t).Recorded setting.source program := by
  obtain ⟨es, hplay, heq⟩ := expansion_edits hdraft
  have hrec := expansion_recorded hl.root hcollect hdraft
  refine ⟨by rw [Setting.draftOf, recordAll_eq], fun e he => hrec.edits e ?_, fun e he => ?_⟩
  · rw [heq]
    obtain ⟨he, hself⟩ := (mem_recordAll.mp he).resolve_left (by simp)
    obtain ⟨entry, hentry, he⟩ := List.mem_flatMap.mp he
    have hmem := List.mem_flatMap.mpr ⟨entry, (List.mem_filter.mp hentry).1, he⟩
    exact mem_recordAll.mpr (Or.inr ⟨List.mem_append_left _ hmem, hself⟩)
  · exact ((mem_recordAll.mp he).resolve_left (by simp)).2

section
variable (hl : Layout setting.source program) (hshape : Shape program) (hclosed : Closed program)
  (hcollect : collect? setting.options program = some setting.collected) (hdraft : expansion setting = .ok draft)
include hl hshape hclosed hcollect hdraft

theorem expansion_home {e : Edit} (he : e ∈ draft.edits) : ∃ t ∈ program.children, setting.Home t e := by
  obtain ⟨es, hplay, rfl⟩ := expansion_edits hdraft
  have hsites := collect?_sites hcollect
  rcases mem_recordAll.mp he with he | ⟨he, -⟩
  · cases he
  rcases List.mem_append.mp he with he | he
  · obtain ⟨entry, hentry, he⟩ := List.mem_flatMap.mp he
    have hs := hsites _ (ledger_sites_perm.subset (List.mem_map_of_mem hentry))
    obtain ⟨t, ht, hin, -⟩ := hs.statement hl hshape
    obtain ⟨hnone, hinside⟩ := entry_home hplay hl hshape hclosed hsites hentry ht hin e he
    exact ⟨t, ht, .edited hnone hinside⟩
  · obtain ⟨imported, himp, rfl⟩ := List.mem_map.mp he
    rw [(collect?_imports hcollect).1] at himp
    obtain ⟨t, ht, hof⟩ := List.mem_filterMap.mp himp
    exact ⟨t, ht, .removed hof rfl⟩

theorem draftOf_edits {t : Tree} (ht : t ∈ program.children)
    (hkept : MacroImport.ofTree? setting.options t = none) :
    (setting.draftOf t).edits =
      draft.edits.filter fun e => t.span.start ≤ e.span.start ∧ e.span.start < t.span.stop := by
  obtain ⟨es, hplay, rfl⟩ := expansion_edits hdraft
  have hsites := collect?_sites hcollect
  have hremoved : (setting.collected.imports.map (removeImport setting.source)).filter
      (fun e => t.span.start ≤ e.span.start ∧ e.span.start < t.span.stop) = [] := by
    refine List.filter_eq_nil_iff.mpr fun e he => ?_
    obtain ⟨imported, himp, rfl⟩ := List.mem_map.mp he
    rw [(collect?_imports hcollect).1] at himp
    obtain ⟨u, hu, hof⟩ := List.mem_filterMap.mp himp
    have hhome : setting.Home u (removeImport setting.source imported) := .removed hof rfl
    rw [decide_eq_true_eq, hhome.starts_in_iff hl hclosed ht hu]
    intro heq
    rw [heq, hkept] at hof
    cases hof
  have hown : (setting.ledger.flatMap Entry.edits).filter
      (fun e => t.span.start ≤ e.span.start ∧ e.span.start < t.span.stop) =
        (setting.ledger.filter (·.site.isWithin t.span)).flatMap Entry.edits := by
    apply filter_flatMap_of
    intro entry hentry e he
    have hs := hsites _ (ledger_sites_perm.subset (List.mem_map_of_mem hentry))
    obtain ⟨u, hu, hin, honly⟩ := hs.statement hl hshape
    obtain ⟨hnone, hinside⟩ := entry_home hplay hl hshape hclosed hsites hentry hu hin e he
    have hhome : setting.Home u e := .edited hnone hinside
    rw [Bool.eq_iff_iff, decide_eq_true_eq, hhome.starts_in_iff hl hclosed ht hu]
    constructor
    · intro heq; rw [← heq]; exact hin
    · intro hwithin; exact (honly t ht hwithin).symm
  rw [Setting.draftOf, recordAll_eq, recordAll_eq]
  simp only [List.nil_append]
  rw [← List.append_nil (List.flatMap _ _), ← hremoved, ← hown, ← List.filter_append, List.filter_filter,
    List.filter_filter]
  simp only [Bool.and_comm]

/-! ## One statement -/

/-- The edits of the whole draft that start in a statement put out what the statement's own draft does. -/
theorem splice_statement {t : Tree} (ht : t ∈ program.children)
    (hkept : MacroImport.ofTree? setting.options t = none) :
    ∃ own, setting.rewriteStatement t = .ok own ∧
      draft.splice (fun inner => draft.renderRange draft.edits.length inner true) t.span.stop t.span.start
        (Edit.arrange (draft.edits.filter fun e => t.span.start ≤ e.span.start ∧ e.span.start < t.span.stop)) =
          .ok own := by
  have hsource := (expansion_recorded hl.root hcollect hdraft).source_eq
  have hrec := draftOf_recorded hl hcollect hdraft t
  have hedits := draftOf_edits hl hshape hclosed hcollect hdraft ht hkept
  have htp := Tree.child_mem_nodes ht
  -- the statement's own edits are inside of it
  have hinside : ∀ e ∈ (setting.draftOf t).edits, e.Inside t.span := by
    intro e he
    rw [hedits, List.mem_filter, decide_eq_true_eq] at he
    obtain ⟨u, hu, hhome⟩ := expansion_home hl hshape hclosed hcollect hdraft he.1
    obtain rfl := (hhome.starts_in_iff hl hclosed ht hu).mp he.2
    cases hhome with
    | edited _ h => exact h
    | removed h _ => rw [hkept] at h; cases h
  have hwithin : (setting.draftOf t).edits.filter (·.isWithin t.span false) = (setting.draftOf t).edits := by
    refine List.filter_eq_self.mpr fun e he => ?_
    have hin := hinside e he
    cases hp : e.placement <;>
      simp [Edit.isWithin, hp, Span.contains, hin.from_start, hin.to_stop, Nat.le_of_lt hin.before_stop]
  obtain ⟨own, hown⟩ := renderRange_ok (hrec.acyclic hl hshape) (hrec.inRange hl hshape) (hrec.tidy hl).point
    ((setting.draftOf t).edits.length + 1) t.span false [] List.nodup_nil (List.nil_subset _) (by simp)
    (by rw [hrec.source_eq]; exact hl.fits htp) (fun c hc => absurd hc List.not_mem_nil)
  refine ⟨own, ?_, ?_⟩
  · unfold Setting.rewriteStatement
    split
    · exact hown
    · -- without sites there are no edits
      rename_i hnone
      have hempty : (setting.draftOf t).edits = [] := by
        have hledger : setting.ledger.filter (·.site.isWithin t.span) = [] := by
          refine List.filter_eq_nil_iff.mpr fun entry hentry hin => hnone ?_
          exact List.any_eq_true.mpr ⟨_, ledger_sites_perm.subset (List.mem_map_of_mem hentry), hin⟩
        rw [Setting.draftOf, hledger]
        rfl
      rw [Draft.renderRange, hempty] at hown
      rw [Setting.copy, Draft.slice_eq_ok, ← hrec.source_eq]
      exact Draft.slice_eq_ok.mp hown
  · rw [Draft.renderRange, hwithin, hedits] at hown
    refine Draft.splice_mono (by rw [hsource, hrec.source_eq]) (fun e he range hrange moved hmoved => ?_) hown
    rw [← hedits, Edit.mem_arrange] at he
    refine Draft.renderRange_agree (P := fun range => t.span.start ≤ range.start ∧ range.stop < t.span.stop)
      (by rw [hsource, hrec.source_eq]) ?_ (fun e he => (hinside e he).refers) ?_
        ((hinside e he).refers range hrange) hmoved
    · -- what is within a range of the statement belongs to the statement
      intro range hin
      rw [hedits, List.filter_filter]
      apply List.filter_congr
      intro e he
      have hord := ((expansion_recorded hl.root hcollect hdraft).tidy hl).ordered e he
      by_cases hw : e.isWithin range true = true
      · have hbounds : range.start ≤ e.span.start ∧ e.span.start ≤ range.stop := Edit.isWithin_start hord hw
        rw [hw, Bool.true_and]
        exact (decide_eq_true ⟨by omega, by omega⟩).symm
      · rw [Bool.eq_false_of_not_eq_true hw, Bool.false_and]
    · exact List.length_filter_le _ _

/-! ## All statements -/

theorem splice_kept {t : Tree} {ts : List Tree} {cursor : Nat} (h : setting.Ahead program draft cursor (t :: ts))
    (hkept : MacroImport.ofTree? setting.options t = none) {gap rest : List Char}
    (hgap : draft.slice ⟨cursor, t.span.start⟩ = .ok gap)
    (hrest : draft.splice (fun inner => draft.renderRange draft.edits.length inner true)
      (byteLength setting.source)
      t.span.stop (Edit.arrange (draft.edits.filter (t.span.stop ≤ ·.span.start))) = .ok rest) :
    ∃ own, setting.rewriteStatement t = .ok own ∧
      draft.splice (fun inner => draft.renderRange draft.edits.length inner true)
        (byteLength setting.source) cursor
        (Edit.arrange (draft.edits.filter (cursor ≤ ·.span.start))) = .ok (gap ++ (own ++ rest)) := by
  have ht := h.statements t (List.mem_cons_self ..)
  obtain ⟨hlo, hpos, hafter⟩ := h.ordered
  obtain ⟨own, hown, hsplice⟩ := splice_statement hl hshape hclosed hcollect hdraft ht hkept
  refine ⟨own, hown, ?_⟩
  have hhere : draft.edits.filter (fun e => cursor ≤ e.span.start ∧ e.span.start < t.span.stop) =
      draft.edits.filter fun e => t.span.start ≤ e.span.start ∧ e.span.start < t.span.stop := by
    apply List.filter_congr
    intro e he
    apply decide_eq_decide.mpr
    constructor
    · intro hin
      have hhome := h.first hclosed hl.root (fun u hu => (hafter.bounds u hu).1) he hin.1 hin.2
      exact hhome.start hclosed hl.root ht
    · omega
  rw [Edit.arrange_split_at (Nat.le_trans hlo hpos), hhere, ← List.append_assoc]
  refine Draft.splice_append (fun e he => ?_) hrest (Draft.splice_copy hgap (fun e he => ?_) hsplice)
  · simpa using (List.mem_filter.mp (Edit.mem_arrange.mp he)).2
  · exact (of_decide_eq_true (List.mem_filter.mp (Edit.mem_arrange.mp he)).2).1

omit hshape in
theorem splice_import {t : Tree} {ts : List Tree} {cursor : Nat} (h : setting.Ahead program draft cursor (t :: ts))
    {imported : MacroImport} (himport : MacroImport.ofTree? setting.options t = some imported)
    (hnext : ∀ u ∈ ts, lineBreakEnd setting.source t.span.stop ≤ u.span.start) {gap rest : List Char}
    (hgap : draft.slice ⟨cursor, t.span.start⟩ = .ok gap)
    (hrest : draft.splice (fun inner => draft.renderRange draft.edits.length inner true)
      (byteLength setting.source) (lineBreakEnd setting.source t.span.stop)
      (Edit.arrange (draft.edits.filter (lineBreakEnd setting.source t.span.stop ≤ ·.span.start))) = .ok rest) :
    draft.splice (fun inner => draft.renderRange draft.edits.length inner true) (byteLength setting.source) cursor
      (Edit.arrange (draft.edits.filter (cursor ≤ ·.span.start))) = .ok (gap ++ rest) := by
  have ht := h.statements t (List.mem_cons_self ..)
  have hsource := (expansion_recorded hl.root hcollect hdraft).source_eq
  obtain ⟨hlo, hpos, -⟩ := h.ordered
  obtain ⟨hge, hbound⟩ := lineBreakEnd_bounds (hl.fits (Tree.child_mem_nodes ht)).2.2
  have hpositive := hclosed.statement hl.root ht
  have hremove : removeImport setting.source imported =
      .remove t.span.start (lineBreakEnd setting.source t.span.stop) := by
    rw [removeImport, (ofTree?_kind himport).2]
  have hmem : removeImport setting.source imported ∈ draft.edits := by
    refine removeImport_mem hdraft ?_
    rw [(collect?_imports hcollect).1]
    exact List.mem_filterMap.mpr ⟨t, ht, himport⟩
  rw [Edit.arrange_split_at (by omega : cursor ≤ lineBreakEnd setting.source t.span.stop)]
  refine Draft.splice_append (fun e he => ?_) hrest
    (splice_removed hgap (by omega) (by rw [hsource]; exact hbound) ?_ fun e he => ?_)
  · simpa using (List.mem_filter.mp (Edit.mem_arrange.mp he)).2
  · refine List.ne_nil_of_mem (Edit.mem_arrange.mpr (List.mem_filter.mpr ⟨hmem, decide_eq_true ?_⟩))
    rw [hremove]
    exact ⟨hlo, by simp only [Edit.remove]; omega⟩
  · -- nothing but the removal starts before the end of the line
    obtain ⟨he, hin⟩ := List.mem_filter.mp (Edit.mem_arrange.mp he)
    have hin := of_decide_eq_true hin
    cases h.first hclosed hl.root hnext he hin.1 hin.2 with
    | edited hkept _ => rw [himport] at hkept; cases hkept
    | removed himport' heq =>
      rw [himport, Option.some.injEq] at himport'
      rw [heq, ← himport', hremove]

/-- From any place between statements on, rendering all edits is rewriting statement by statement. -/
theorem splice_statements : ∀ (ts : List Tree) (cursor : Nat), setting.Ahead program draft cursor ts →
    ∃ text, setting.rewrite cursor ts = .ok text ∧
      draft.splice (fun inner => draft.renderRange draft.edits.length inner true)
        (byteLength setting.source) cursor
        (Edit.arrange (draft.edits.filter (cursor ≤ ·.span.start))) = .ok text := by
  have hsource := (expansion_recorded hl.root hcollect hdraft).source_eq
  have hcopy : ∀ {range : Span}, range.Fits setting.source →
      ∃ text, setting.copy range = .ok text ∧ draft.slice range = .ok text := by
    intro range hfits
    obtain ⟨text, htext⟩ := Option.isSome_iff_exists.mp (slice?_isSome_iff.mpr hfits)
    exact ⟨text, Draft.slice_eq_ok.mpr htext, Draft.slice_eq_ok.mpr (by rw [hsource]; exact htext)⟩
  intro ts
  induction ts with
  | nil =>
    intro cursor h
    obtain ⟨text, hown, hslice⟩ :=
      @hcopy ⟨cursor, byteLength setting.source⟩ ⟨h.ordered, h.boundary, isBoundary_length _⟩
    have hnone : draft.edits.filter (cursor ≤ ·.span.start) = [] := by
      refine List.filter_eq_nil_iff.mpr fun e he hle => ?_
      obtain ⟨t, ht, -⟩ := h.home e he (of_decide_eq_true hle)
      cases ht
    refine ⟨text, hown, ?_⟩
    rw [hnone]
    exact hslice
  | cons t ts ih =>
    intro cursor h
    have ht := h.statements t (List.mem_cons_self ..)
    obtain ⟨hlo, -, hafter⟩ := h.ordered
    have hfits := hl.fits (Tree.child_mem_nodes ht)
    obtain ⟨gap, hgap, hslice⟩ := @hcopy ⟨cursor, t.span.start⟩ ⟨hlo, h.boundary, hfits.2.1⟩
    cases hmacro : MacroImport.ofTree? setting.options t with
    | none =>
      obtain ⟨rest, hrewrite, hrest⟩ := ih t.span.stop
        (h.next hclosed hl.root (Nat.le_refl _) (fun u hu => (hafter.bounds u hu).1) hfits.2.2)
      obtain ⟨own, hown, hsplice⟩ := splice_kept hl hshape hclosed hcollect hdraft h hmacro hslice hrest
      refine ⟨gap ++ (own ++ rest), ?_, hsplice⟩
      simp [Setting.rewrite, hgap, hmacro, hown, hrewrite, bind, Except.bind, pure, Except.pure]
    | some imported =>
      obtain ⟨hge, hbound⟩ := lineBreakEnd_bounds hfits.2.2
      have hnext : ∀ u ∈ ts, lineBreakEnd setting.source t.span.stop ≤ u.span.start := by
        intro u hu
        have hup := h.statements u (List.mem_cons_of_mem _ hu)
        exact lineBreakEnd_le hfits.2.2 (hafter.bounds u hu).1 (hl.fits (Tree.child_mem_nodes hup)).2.1
          ((hl.statements (Tree.mem_nodes_self program) hl.root).2 u hup)
      obtain ⟨rest, hrewrite, hrest⟩ := ih _ (h.next hclosed hl.root hge hnext hbound)
      refine ⟨gap ++ rest, ?_, splice_import hl hclosed hcollect hdraft h hmacro hnext hslice hrest⟩
      simp [Setting.rewrite, hgap, hmacro, hrewrite, bind, Except.bind, pure, Except.pure]

/-- A rendering of the whole source goes statement by statement. -/
theorem render_statements {code : String} (hcode : draft.render = .ok code) :
    setting.rewrite 0 program.children = .ok code.toList := by
  have hrec := expansion_recorded hl.root hcollect hdraft
  have hspan := (hl.statements (Tree.mem_nodes_self program) hl.root).1
  have hparts := hl.parts (Tree.mem_nodes_self program)
  rw [hspan] at hparts
  obtain ⟨text, hrewrite, hsplice⟩ := splice_statements hl hshape hclosed hcollect hdraft program.children 0
    ⟨fun _ ht => ht, hparts, isBoundary_zero _, fun e he _ => expansion_home hl hshape hclosed hcollect hdraft he⟩
  have hall : draft.edits.filter (·.isWithin ⟨0, byteLength setting.source⟩ false) =
      draft.edits.filter (0 ≤ ·.span.start) := by
    apply List.filter_congr
    intro e he
    have hfits := (hrec.edits e he).fits hl
    have hstart := hfits.2.1.le_length
    have hstop := hfits.2.2.le_length
    cases hp : e.placement <;> simp [Edit.isWithin, hp, Span.contains, hstart, hstop]
  rw [Draft.render, Draft.renderRange, hrec.source_eq, hall, hsplice] at hcode
  rw [hrewrite]
  cases hcode
  simp

end

end

/-! ## The transform -/

theorem transform_render {options : Options} {text : String} {program : Tree} {collected : Collected}
    {r : Transformed}
    (hmay : options.mayImportMacros text.toList = true) (hparse : parse options.dialect text.toList = some program)
    (hcollect : collect? options program = some collected) (h : transform options text = .ok r) :
    ∃ draft, expansion ⟨options, text.toList, collected⟩ = .ok draft ∧ draft.render = .ok r.code := by
  simp only [transform, hmay, hparse, hcollect, Bool.not_true, Bool.false_eq_true, ite_false] at h
  split at h
  · cases h
  · rename_i draft hdraft
    split at h
    · cases h
    · rename_i code hcode
      cases h
      exact ⟨draft, hdraft, hcode⟩

theorem not_isInert_of_changed {options : Options} {text : String} {r : Transformed}
    (h : transform options text = .ok r) (hr : r.changed = true) : options.isInert text = false := by
  apply Bool.eq_false_iff.mpr
  intro hinert
  rw [transform_of_isInert hinert] at h
  cases h
  cases hr

/-- A text that is not left as it is is the rendering of an expansion. -/
theorem transform_active {options : Options} {text : String} {program : Tree} {r : Transformed}
    (hparse : parse options.dialect text.toList = some program) (h : transform options text = .ok r)
    (hactive : options.isInert text = false) : ∃ collected draft, collect? options program = some collected ∧
      expansion ⟨options, text.toList, collected⟩ = .ok draft ∧ draft.render = .ok r.code := by
  unfold Options.isInert at hactive
  rw [hparse, Bool.or_eq_false_iff, Bool.not_eq_false'] at hactive
  cases hcollect : collect? options program with
  | none =>
    have hsome : (MacroImport.all options program).isEmpty = false := hactive.2
    rw [collect?_eq_none_iff.mp hcollect] at hsome
    cases hsome
  | some collected =>
    obtain ⟨draft, hdraft, hcode⟩ := transform_render hactive.1 hparse hcollect h
    exact ⟨collected, draft, rfl, hdraft, hcode⟩

/-- A program is rewritten inside its statements only. Whatever a rule records for a site lies in the
one statement the site is in, and what comes out is the source with every macro import and its line
break left out, every statement with sites rendered by the edits of its own sites, and everything else
copied. A text that imports no macros is left as it is. -/
theorem rewrite_is_local {options : Options} {text : String} {program : Tree} {r : Transformed}
    (hparse : parse options.dialect text.toList = some program) (hlayout : Layout text.toList program)
    (hshape : Shape program) (hclosed : Closed program) (h : transform options text = .ok r) :
    (options.isInert text = true → r.code = text) ∧
    (options.isInert text = false → ∃ collected, collect? options program = some collected ∧
      let setting : Setting := ⟨options, text.toList, collected⟩
      (∀ entry ∈ setting.ledger, ∃ statement ∈ program.children, entry.site.isWithin statement.span = true ∧
        (∀ other ∈ program.children, entry.site.isWithin other.span = true → other = statement) ∧
        ∀ e ∈ entry.edits, statement.span.contains e.span = true ∧
          ∀ range, .source range ∈ e.content → statement.span.contains range = true) ∧
      setting.rewrite 0 program.children = .ok r.code.toList) := by
  refine ⟨fun hinert => ?_, fun hactive => ?_⟩
  · rw [transform_of_isInert hinert] at h
    cases h
    rfl
  obtain ⟨collected, draft, hcollect, hdraft, hcode⟩ := transform_active hparse h hactive
  refine ⟨collected, hcollect, ?_⟩
  intro setting
  obtain ⟨es, hplay, -⟩ := expansion_edits hdraft
  have hsites := collect?_sites hcollect
  refine ⟨fun entry hentry => ?_, render_statements hlayout hshape hclosed hcollect hdraft hcode⟩
  have hs := hsites _ (ledger_sites_perm.subset (List.mem_map_of_mem hentry))
  obtain ⟨t, ht, hin, honly⟩ := hs.statement hlayout hshape
  refine ⟨t, ht, hin, honly, fun e he => ?_⟩
  have hinside := (entry_home hplay hlayout hshape hclosed hsites hentry ht hin e he).2
  refine ⟨Span.contains_iff.mpr ⟨hinside.from_start, hinside.to_stop⟩, fun range hr => ?_⟩
  have := hinside.refers range hr
  exact Span.contains_iff.mpr ⟨this.1, Nat.le_of_lt this.2⟩

def statementsSample : String :=
  "import \x7bcomponent as c\x7d from 'm.macro';\r\nx; /*é*/ y(c(\x7bI: \x7ba: c(\x7b\x7d)\x7d\x7d));" ++
    "import \x7bINJECTIONS as I\x7d from 'm.macro';\nz;"

theorem rewrite_is_local_sample : ∃ program r, parse (Options.dialect {}) statementsSample.toList = some program ∧
    Layout statementsSample.toList program ∧ Shape program ∧ Closed program ∧
    transform {} statementsSample = .ok r ∧ Options.isInert {} statementsSample = false ∧
    ∃ collected, collect? {} program = some collected ∧
      Setting.rewrite ⟨{}, statementsSample.toList, collected⟩ 0 program.children = .ok r.code.toList := by
  have hsample : ((parse (Options.dialect {}) statementsSample.toList).any fun program =>
      decide (Layout statementsSample.toList program) && decide (Shape program) && decide (Closed program)) =
        true ∧
      ((transform {} statementsSample).toOption.any (·.changed)) = true := by decide +kernel
  obtain ⟨hgood, hok⟩ := hsample
  simp only [Option.any_eq_true, Bool.and_eq_true, decide_eq_true_eq] at hgood hok
  obtain ⟨program, hparse, ⟨hlayout, hshape⟩, hclosed⟩ := hgood
  obtain ⟨r, hr, hchanged⟩ := hok
  have hr := toOption_eq_some hr
  have hactive := not_isInert_of_changed hr hchanged
  obtain ⟨collected, hcollect, -, hrewrite⟩ := (rewrite_is_local hparse hlayout hshape hclosed hr).2 hactive
  exact ⟨program, r, hparse, hlayout, hshape, hclosed, hr, hactive, collected, hcollect, hrewrite⟩

end ComponentMacros
