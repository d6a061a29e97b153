import Mathlib.Data.List.Sort
import ComponentMacros.Proofs.Layout

/-!
# The log of a rendering

A rendering copies source text, writes the text of edits and drops edits that
start in replaced text. Its log lists these events in order; the rendered text
is what they put out. If the replaced ranges of a draft do not collide, an edit
is dropped only if it ends in replaced text too, and no replaced text is copied.
-/

namespace ComponentMacros

/-! ## The order of edits -/

namespace Edit

theorem rank_inj {p q : Placement} (h : p.rank = q.rank) : p = q := by
  cases p <;> cases q <;> first | rfl | cases h

theorem le_iff {a b : Edit} : a.le b = true ↔ a.span.start < b.span.start ∨ a.span.start = b.span.start ∧
    (a.placement.rank < b.placement.rank ∨ a.placement = b.placement ∧
      (a.placement = .overwrite → b.span.stop ≤ a.span.stop)) := by
  unfold le
  by_cases hs : a.span.start = b.span.start
  · by_cases hp : a.placement = b.placement
    · cases ha : a.placement <;> rw [ha] at hp <;> simp [hs, ← hp]
    · simp [hs, hp]
  · simp only [ne_eq, hs, not_false_eq_true, ite_true, decide_eq_true_eq, false_and, or_false]

theorem le_total (a b : Edit) : a.le b = true ∨ b.le a = true := by
  rw [le_iff, le_iff]
  rcases Nat.lt_trichotomy a.span.start b.span.start with hs | hs | hs
  · exact Or.inl (Or.inl hs)
  · rcases Nat.lt_trichotomy a.placement.rank b.placement.rank with hp | hp | hp
    · exact Or.inl (Or.inr ⟨hs, Or.inl hp⟩)
    · have hp := rank_inj hp
      rcases Nat.le_total a.span.stop b.span.stop with ht | ht
      · exact Or.inr (Or.inr ⟨hs.symm, Or.inr ⟨hp.symm, fun _ => ht⟩⟩)
      · exact Or.inl (Or.inr ⟨hs, Or.inr ⟨hp, fun _ => ht⟩⟩)
    · exact Or.inr (Or.inr ⟨hs.symm, Or.inl hp⟩)
  · exact Or.inr (Or.inl hs)

theorem le_trans {a b c : Edit} (hab : a.le b = true) (hbc : b.le c = true) : a.le c = true := by
  rw [le_iff] at *
  rcases hab with hab | ⟨hab, hp | ⟨hp, ht⟩⟩ <;> rcases hbc with hbc | ⟨hbc, hq | ⟨hq, hu⟩⟩
  · exact Or.inl (by omega)
  · exact Or.inl (by omega)
  · exact Or.inl (by omega)
  · exact Or.inl (by omega)
  · exact Or.inr ⟨by omega, Or.inl (by omega)⟩
  · exact Or.inr ⟨by omega, Or.inl (hq ▸ hp)⟩
  · exact Or.inl (by omega)
  · exact Or.inr ⟨by omega, Or.inl (hp ▸ hq)⟩
  · refine Or.inr ⟨by omega, Or.inr ⟨hp.trans hq, fun ho => ?_⟩⟩
    exact Nat.le_trans (hu (hp ▸ ho)) (ht ho)

theorem insertArranged_eq (e : Edit) (es : List Edit) :
    insertArranged e es = es.orderedInsert (fun a b => a.le b = true) e := by
  induction es with
  | nil => rfl
  | cons f es ih => rw [insertArranged, List.orderedInsert_cons, ih]

theorem sort_eq (es : List Edit) : sort es = es.insertionSort (fun a b => a.le b = true) := by
  induction es with
  | nil => rfl
  | cons e es ih => rw [sort, insertArranged_eq, ih, List.insertionSort_cons]

theorem arrange_pairwise (es : List Edit) : (arrange es).Pairwise fun a b => a.le b = true := by
  have : Std.Total (fun a b : Edit => a.le b = true) := ⟨le_total⟩
  have : IsTrans Edit (fun a b => a.le b = true) := ⟨fun _ _ _ => le_trans⟩
  rw [arrange, sort_eq]
  exact List.pairwise_insertionSort _ _

theorem mem_arrange {e : Edit} {es : List Edit} : e ∈ arrange es ↔ e ∈ es := by
  rw [arrange, sort_eq, List.mem_insertionSort, List.mem_append, List.mem_reverse, List.mem_filter,
    List.mem_filter]
  by_cases h : e.placement = .prepend <;> simp [h]

end Edit

/-! ## Events -/

/-- What a rendering does next. -/
inductive Event where
  | copied (range : Span)
  | written (edit : Edit) (text : String)
  | dropped (edit : Edit) (cursor : Nat)

def Event.text (source : List Char) : Event → List Char
  | .copied range => (slice? source range.start range.stop).getD []
  | .written _ text => text.toList
  | .dropped _ _ => []

namespace Draft

def contentLog (inner : Span → List Event) (e : Edit) (content : Fragment) : List Event :=
  content.flatMap fun
    | .text t => [.written e t]
    | .source range => inner range

def spliceLog (inner : Span → List Event) (stop : Nat) : Nat → List Edit → List Event
  | cursor, [] => [.copied ⟨cursor, stop⟩]
  | cursor, e :: es =>
    if e.span.start < cursor then .dropped e cursor :: spliceLog inner stop cursor es
    else .copied ⟨cursor, e.span.start⟩ ::
      (contentLog inner e e.content ++ spliceLog inner stop e.span.stop es)

def log (draft : Draft) : Nat → Span → Bool → List Event
  | 0, _, _ => []
  | depth + 1, range, nested =>
    spliceLog (fun inner => log draft depth inner true) range.stop range.start
      (Edit.arrange (draft.edits.filter (·.isWithin range nested)))

def renderLog (draft : Draft) : List Event :=
  draft.log (draft.edits.length + 1) ⟨0, byteLength draft.source⟩ false

end Draft

/-! ## The log is what is rendered -/

section
variable {draft : Draft} {inner : Span → Except RenderError (List Char)} {innerLog : Span → List Event}

theorem bind_eq_ok {α β ε : Type} {x : Except ε α} {f : α → Except ε β} {b : β} (h : x >>= f = .ok b) :
    ∃ a, x = .ok a ∧ f a = .ok b := by
  cases x with
  | error e => cases h
  | ok a => exact ⟨a, rfl, h⟩

theorem Draft.renderContent_ofText (text : String) : renderContent inner (.ofText text) = .ok text.toList := by
  unfold Fragment.ofText
  split
  · rename_i hempty
    rw [String.isEmpty_iff] at hempty
    rw [hempty]
    rfl
  · show Except.ok (text.toList ++ []) = _
    rw [List.append_nil]

theorem slice_text {range : Span} {text : List Char} (h : draft.slice range = .ok text) :
    (Event.copied range).text draft.source = text := by
  unfold Draft.slice at h
  split at h
  · rename_i t ht
    cases h
    simp [Event.text, ht]
  · cases h

theorem renderContent_text (e : Edit)
    (hinner : ∀ range text, inner range = .ok text → (innerLog range).flatMap (·.text draft.source) = text) :
    ∀ (content : Fragment) (text : List Char), Draft.renderContent inner content = .ok text →
      (Draft.contentLog innerLog e content).flatMap (·.text draft.source) = text
  | [], text, h => by cases h; rfl
  | .text t :: pieces, text, h => by
    rw [Draft.renderContent] at h
    obtain ⟨rest, hrest, h⟩ := bind_eq_ok h
    cases h
    have ih := renderContent_text e hinner pieces rest hrest
    simp only [Draft.contentLog, List.flatMap_cons, List.singleton_append] at ih ⊢
    rw [ih]; rfl
  | .source range :: pieces, text, h => by
    rw [Draft.renderContent] at h
    obtain ⟨moved, hmoved, h⟩ := bind_eq_ok h
    obtain ⟨rest, hrest, h⟩ := bind_eq_ok h
    cases h
    have ih := renderContent_text e hinner pieces rest hrest
    simp only [Draft.contentLog, List.flatMap_cons, List.flatMap_append] at ih ⊢
    rw [ih, hinner range moved hmoved]

theorem splice_text {stop : Nat}
    (hinner : ∀ range text, inner range = .ok text → (innerLog range).flatMap (·.text draft.source) = text) :
    ∀ (es : List Edit) (cursor : Nat) (text : List Char), draft.splice inner stop cursor es = .ok text →
      (Draft.spliceLog innerLog stop cursor es).flatMap (·.text draft.source) = text
  | [], cursor, text, h => by
    rw [Draft.splice] at h
    rw [Draft.spliceLog, List.flatMap_singleton, slice_text h]
  | e :: es, cursor, text, h => by
    rw [Draft.splice] at h
    rw [Draft.spliceLog]
    split at h
    · rename_i hlt
      rw [if_pos hlt, List.flatMap_cons]
      exact splice_text hinner es cursor text h
    · rename_i hlt
      obtain ⟨kept, hkept, h⟩ := bind_eq_ok h
      obtain ⟨content, hcontent, h⟩ := bind_eq_ok h
      obtain ⟨rest, hrest, h⟩ := bind_eq_ok h
      cases h
      rw [if_neg hlt, List.flatMap_cons, List.flatMap_append, slice_text hkept,
        renderContent_text e hinner e.content content hcontent, splice_text hinner es _ rest hrest,
          List.append_assoc]

theorem renderRange_text : ∀ (depth : Nat) (range : Span) (nested : Bool) (text : List Char),
    draft.renderRange depth range nested = .ok text →
      (draft.log depth range nested).flatMap (·.text draft.source) = text
  | 0, _, _, _, h => by cases h
  | depth + 1, range, nested, text, h =>
    splice_text (fun inner text => renderRange_text depth inner true text) _ _ text h

theorem Draft.render_eq_ok {code : String} (h : draft.render = .ok code) :
    draft.renderRange (draft.edits.length + 1) ⟨0, byteLength draft.source⟩ false = .ok code.toList := by
  unfold render at h
  cases hout : draft.renderRange (draft.edits.length + 1) ⟨0, byteLength draft.source⟩ false with
  | error e => rw [hout] at h; cases h
  | ok out =>
    rw [hout] at h
    have hcode : String.ofList out = code := Except.ok.inj h
    rw [← hcode, String.toList_ofList]

theorem render_text {code : String} (h : draft.render = .ok code) :
    code = String.ofList (draft.renderLog.flatMap (·.text draft.source)) := by
  rw [Draft.renderLog, renderRange_text _ _ _ _ (Draft.render_eq_ok h), String.ofList_toList]

end

/-! ## Drafts without collisions -/

/-- Insertions are points, and replaced ranges are in order and do not collide. -/
structure Draft.Tidy (draft : Draft) : Prop where
  ordered : ∀ e ∈ draft.edits, e.span.start ≤ e.span.stop
  point : ∀ e ∈ draft.edits, e.placement ≠ .overwrite → e.span.stop = e.span.start
  laminar : ∀ e ∈ draft.edits, ∀ f ∈ draft.edits, e.placement = .overwrite → f.placement = .overwrite →
    e.span.Laminar f.span

section
variable {draft : Draft}

theorem Draft.Tidy.after (h : draft.Tidy) {e f : Edit} (he : e ∈ draft.edits) (hf : f ∈ draft.edits)
    (hle : e.le f = true) : e.span.stop ≤ f.span.start ∨ f.span.stop ≤ e.span.stop := by
  have hef := h.ordered e he
  rw [Edit.le_iff] at hle
  by_cases heo : e.placement = .overwrite
  · by_cases hfo : f.placement = .overwrite
    · rcases h.laminar e he f hf heo hfo with (hap | hap) | hc | hc
      · exact Or.inl hap
      · exact Or.inr (by omega)
      · exact Or.inr (Span.contains_iff.mp hc).2
      · -- the later edit starts no earlier, so both start together and it is the shorter one
        have hc := Span.contains_iff.mp hc
        rcases hle with hlt | ⟨heq, hrank | ⟨-, hstop⟩⟩
        · omega
        · rw [heo, hfo] at hrank; exact absurd hrank (Nat.lt_irrefl _)
        · exact Or.inr (hstop heo)
    · have := h.point f hf hfo
      omega
  · have := h.point e he heo
    omega

/-- In the middle of a splice: the edits met so far end before the cursor, and those to come start behind it or are
over before it. -/
structure Edit.Underway (all : List Edit) (cursor : Nat) (es : List Edit) : Prop where
  subset : ∀ e ∈ es, e ∈ all
  sorted : es.Pairwise fun a b => a.le b = true
  met : ∀ f ∈ all, f ∈ es ∨ f.span.stop ≤ cursor
  behind : ∀ e ∈ es, cursor ≤ e.span.start ∨ e.span.stop ≤ cursor

namespace Edit.Underway

variable {all : List Edit} {cursor : Nat} {e : Edit} {es : List Edit} (h : Underway all cursor (e :: es))
include h

theorem mem : e ∈ all := h.subset e (List.mem_cons_self ..)

theorem met_next {next : Nat} (hcursor : cursor ≤ next) (hstop : e.span.stop ≤ next) :
    ∀ f ∈ all, f ∈ es ∨ f.span.stop ≤ next := by
  intro f hf
  rcases h.met f hf with hmem | hdone
  · rcases List.mem_cons.mp hmem with rfl | hmem
    · exact Or.inr hstop
    · exact Or.inl hmem
  · exact Or.inr (Nat.le_trans hdone hcursor)

theorem drop (hlt : e.span.start < cursor) : e.span.stop ≤ cursor ∧ Underway all cursor es := by
  have hover : e.span.stop ≤ cursor := (h.behind e (List.mem_cons_self ..)).resolve_left (by omega)
  refine ⟨hover, fun f hf => h.subset f (List.mem_cons_of_mem _ hf), (List.pairwise_cons.mp h.sorted).2,
    h.met_next (Nat.le_refl _) hover, fun f hf => h.behind f (List.mem_cons_of_mem _ hf)⟩

/-- An edit that starts before the next one was met, since those to come do not. -/
theorem before (hle : cursor ≤ e.span.start) : ∀ f ∈ all, f.span.start < e.span.start → f.span.stop ≤ cursor := by
  intro f hf hstart
  rcases h.met f hf with hmem | hdone
  · rcases List.mem_cons.mp hmem with rfl | hmem
    · omega
    · have := Edit.le_iff.mp ((List.pairwise_cons.mp h.sorted).1 f hmem)
      omega
  · exact hdone

theorem next (htidy : draft.Tidy) (hall : ∀ f ∈ all, f ∈ draft.edits) (hle : cursor ≤ e.span.start) :
    Underway all e.span.stop es := by
  have hsub : ∀ f ∈ es, f ∈ all := fun f hf => h.subset f (List.mem_cons_of_mem _ hf)
  have hord := htidy.ordered e (hall e h.mem)
  obtain ⟨hfirst, hsorted⟩ := List.pairwise_cons.mp h.sorted
  refine ⟨hsub, hsorted, h.met_next (by omega) (Nat.le_refl _), fun f hf => ?_⟩
  exact htidy.after (hall e h.mem) (hall f (hsub f hf)) (hfirst f hf)

end Edit.Underway

/-- What holds of every event of a splice. The list `all` also has the edits met before: nothing
they replace is copied, and no edit inside of what they replace is applied. -/
theorem spliceLog_forall (h : draft.Tidy) {inner : Span → List Event} {range : Span} {all : List Edit}
    {P : Event → Prop}
    (hcopied : ∀ r : Span, range.contains r = true → (∀ f ∈ all, f.placement = .overwrite → r.Apart f.span) →
      P (.copied r))
    (hwritten : ∀ e ∈ all, ∀ text, .text text ∈ e.content → P (.written e text))
    (hdropped : ∀ e ∈ all, ∀ cursor, e.span.stop ≤ cursor → P (.dropped e cursor))
    (hinner : ∀ e ∈ all, (∀ f ∈ all, f.placement = .overwrite → f.span.start < e.span.start →
        f.span.stop ≤ e.span.start) →
      ∀ moved, .source moved ∈ e.content → ∀ event ∈ inner moved, P event)
    (hall : ∀ e ∈ all, e ∈ draft.edits ∧ e.span.start ≤ range.stop) :
    ∀ (es : List Edit) (cursor : Nat), range.start ≤ cursor → Edit.Underway all cursor es →
      ∀ event ∈ Draft.spliceLog inner range.stop cursor es, P event := by
  intro es
  induction es with
  | nil =>
    intro cursor hlow hunderway event hevent
    rw [Draft.spliceLog, List.mem_singleton] at hevent
    subst hevent
    refine hcopied _ (Span.contains_iff.mpr ⟨hlow, Nat.le_refl _⟩) fun f hf _ => Or.inr ?_
    exact (hunderway.met f hf).resolve_left (by simp)
  | cons e es ih =>
    intro cursor hlow hunderway event hevent
    have he := hunderway.mem
    rw [Draft.spliceLog] at hevent
    split at hevent
    · rename_i hlt
      obtain ⟨hover, hrest⟩ := hunderway.drop hlt
      rcases List.mem_cons.mp hevent with rfl | hevent
      · exact hdropped e he cursor hover
      · exact ih cursor hlow hrest event hevent
    · rename_i hlt
      have hle : cursor ≤ e.span.start := Nat.le_of_not_lt hlt
      have hbefore := hunderway.before hle
      rcases List.mem_cons.mp hevent with rfl | hevent
      · refine hcopied _ (Span.contains_iff.mpr ⟨hlow, (hall e he).2⟩) fun f hf _ => ?_
        by_cases hstart : f.span.start < e.span.start
        · exact Or.inr (hbefore f hf hstart)
        · exact Or.inl (Nat.le_of_not_lt hstart)
      rcases List.mem_append.mp hevent with hevent | hevent
      · obtain ⟨piece, hpiece, hevent⟩ := List.mem_flatMap.mp hevent
        cases piece with
        | text t => rw [List.mem_singleton.mp hevent]; exact hwritten e he t hpiece
        | source moved =>
          refine hinner e he (fun f hf _ hstart => ?_) moved hpiece event hevent
          exact Nat.le_trans (hbefore f hf hstart) hle
      · have hord := h.ordered e (hall e he).1
        exact ih e.span.stop (by omega) (hunderway.next h (fun f hf => (hall f hf).1) hle) event hevent

theorem Edit.isWithin_start {e : Edit} (hord : e.span.start ≤ e.span.stop) {range : Span} {nested : Bool}
    (h : e.isWithin range nested = true) : range.start ≤ e.span.start ∧ e.span.start ≤ range.stop := by
  unfold isWithin at h
  split at h
  · have := Span.contains_iff.mp h
    omega
  · split at h <;> simp only [Bool.and_eq_true, decide_eq_true_eq] at h <;> omega

theorem log_forall (h : draft.Tidy) {depth : Nat} {range : Span} {nested : Bool} {P : Event → Prop}
    (hcopied : ∀ r : Span, range.contains r = true → (∀ f ∈ draft.edits, f.isWithin range nested = true →
      f.placement = .overwrite → r.Apart f.span) → P (.copied r))
    (hwritten : ∀ e ∈ draft.edits, ∀ text, .text text ∈ e.content → P (.written e text))
    (hdropped : ∀ e ∈ draft.edits, ∀ cursor, e.span.stop ≤ cursor → P (.dropped e cursor))
    (hinner : ∀ e ∈ draft.edits, e.isWithin range nested = true →
      (∀ f ∈ draft.edits, f.isWithin range nested = true → f.placement = .overwrite →
        f.span.start < e.span.start → f.span.stop ≤ e.span.start) →
      ∀ inner, .source inner ∈ e.content → ∀ event ∈ draft.log depth inner true, P event) :
    ∀ event ∈ draft.log (depth + 1) range nested, P event := by
  have hmem : ∀ {e : Edit}, e ∈ Edit.arrange (draft.edits.filter (·.isWithin range nested)) ↔
      e ∈ draft.edits ∧ e.isWithin range nested = true := by
    intro e; rw [Edit.mem_arrange, List.mem_filter]
  have hstart : ∀ {e : Edit}, e ∈ Edit.arrange (draft.edits.filter (·.isWithin range nested)) →
      range.start ≤ e.span.start ∧ e.span.start ≤ range.stop := by
    intro e he; exact Edit.isWithin_start (h.ordered e (hmem.mp he).1) (hmem.mp he).2
  have hunderway : Edit.Underway (Edit.arrange (draft.edits.filter (·.isWithin range nested))) range.start
      (Edit.arrange (draft.edits.filter (·.isWithin range nested))) :=
    ⟨fun _ he => he, Edit.arrange_pairwise _, fun _ he => Or.inl he, fun _ he => Or.inl (hstart he).1⟩
  refine spliceLog_forall h (fun r hin hr => ?_) (fun e he => hwritten e (hmem.mp he).1)
    (fun e he => hdropped e (hmem.mp he).1) (fun e he hfree => ?_)
    (fun e he => ⟨(hmem.mp he).1, (hstart he).2⟩) _ _
    (Nat.le_refl _) hunderway
  · exact hcopied r hin fun f hf hin => hr f (hmem.mpr ⟨hf, hin⟩)
  · exact hinner e (hmem.mp he).1 (hmem.mp he).2 fun f hf hin => hfree f (hmem.mpr ⟨hf, hin⟩)

theorem Draft.Tidy.written (h : draft.Tidy) : ∀ (depth : Nat) (range : Span) (nested : Bool),
    ∀ event ∈ draft.log depth range nested, ∀ e text, event = .written e text →
      e ∈ draft.edits ∧ .text text ∈ e.content := by
  intro depth
  induction depth with
  | zero => intro range nested event hevent; cases hevent
  | succ depth ih =>
    intro range nested
    refine log_forall h ?_ ?_ ?_ ?_
    · intro r _ _ e text heq; cases heq
    · intro e he text htext e' text' heq; cases heq; exact ⟨he, htext⟩
    · intro e _ cursor _ e' text heq; cases heq
    · intro e _ _ _ inner _; exact ih inner true

theorem Draft.Tidy.dropped (h : draft.Tidy) : ∀ (depth : Nat) (range : Span) (nested : Bool),
    ∀ event ∈ draft.log depth range nested, ∀ e cursor, event = .dropped e cursor → e.span.stop ≤ cursor := by
  intro depth
  induction depth with
  | zero => intro range nested event hevent; cases hevent
  | succ depth ih =>
    intro range nested
    refine log_forall h ?_ ?_ ?_ ?_
    · intro r _ _ e cursor heq; cases heq
    · intro e _ text _ e' cursor heq; cases heq
    · intro e _ cursor hle e' cursor' heq; cases heq; exact hle
    · intro e _ _ _ inner _; exact ih inner true

end

end ComponentMacros
