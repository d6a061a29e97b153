import ComponentMacros.Proofs.Locality

/-!
# Where a replacement ends up

A replacement that no other one covers comes out in its place: what a rendering
puts out is the text made of what comes before the replaced range, then the
content of the replacement, then the text made of what comes behind it.
-/

namespace ComponentMacros

/-- No other replacement in the rendering of a range covers the edit. -/
def Draft.Uncovered (draft : Draft) (range : Span) (nested : Bool) (e : Edit) : Prop :=
  ∀ f ∈ draft.edits, f.isWithin range nested = true → f.placement = .overwrite → f.span.contains e.span =
    true → f = e

instance (draft : Draft) (range : Span) (nested : Bool) (e : Edit) : Decidable (draft.Uncovered range nested e) :=
  inferInstanceAs (Decidable (∀ f ∈ draft.edits, _ → _ → _ → _))

def Draft.arranged (draft : Draft) (range : Span) (nested : Bool) : List Edit :=
  Edit.arrange (draft.edits.filter (·.isWithin range nested))

theorem Draft.mem_arranged {draft : Draft} {range : Span} {nested : Bool} {e : Edit} :
    e ∈ draft.arranged range nested ↔ e ∈ draft.edits ∧ e.isWithin range nested = true := by
  rw [arranged, Edit.mem_arrange, List.mem_filter]

section
variable {draft : Draft} {inner : Span → Except RenderError (List Char)} {stop : Nat}

theorem Draft.splice_reaches {e : Edit} {after : List Edit} :
    ∀ {before : List Edit} {cursor : Nat} {text : List Char}, (∀ f ∈ before, f.span.stop ≤ e.span.start) →
      cursor ≤ e.span.start →
      draft.splice inner stop cursor (before ++ e :: after) = .ok text →
        ∃ front content back, draft.splice inner e.span.start cursor before = .ok front ∧
          renderContent inner e.content = .ok content ∧ draft.splice inner stop e.span.stop after = .ok back ∧
            text = front ++ (content ++ back)
  | [], cursor, text, _, hcursor, h => (splice_cons hcursor).mp h
  | f :: before, cursor, text, hbefore, hcursor, h => by
    have hrest := fun g hg => hbefore g (List.mem_cons_of_mem _ hg)
    rw [List.cons_append] at h
    by_cases hlt : f.span.start < cursor
    · rw [splice, if_pos hlt] at h ⊢
      exact splice_reaches hrest hcursor h
    · obtain ⟨kept, own, rest, hkept, hown, hsplice, rfl⟩ := (splice_cons (Nat.not_lt.mp hlt)).mp h
      obtain ⟨front, content, back, hfront, hcontent, hback, rfl⟩ :=
        splice_reaches hrest (hbefore f (List.mem_cons_self ..)) hsplice
      refine ⟨kept ++ (own ++ front), content, back, ?_, hcontent, hback, by simp⟩
      exact (splice_cons (Nat.not_lt.mp hlt)).mpr ⟨kept, own, front, hkept, hown, hfront, rfl⟩

theorem Draft.Tidy.split_at (h : draft.Tidy) {es : List Edit} (hes : ∀ f ∈ es, f ∈ draft.edits)
    (hsorted : es.Pairwise fun a b => a.le b = true) {e : Edit} (he : e ∈ es) (ho : e.placement = .overwrite)
    (hpos : e.span.start < e.span.stop)
    (hcover : ∀ f ∈ es, f.placement = .overwrite → f.span.contains e.span = true → f = e) :
    ∃ before after, es = before ++ e :: after ∧ ∀ f ∈ before, f.span.stop ≤ e.span.start := by
  obtain ⟨before, after, rfl, hnew⟩ := List.eq_append_cons_of_mem he
  refine ⟨before, after, rfl, fun f hf => ?_⟩
  have hfes : f ∈ before ++ e :: after := List.mem_append_left _ hf
  have hle := (List.pairwise_append.mp hsorted).2.2 f hf e (List.mem_cons_self ..)
  have hne : ¬ (f.placement = .overwrite ∧ f.span.contains e.span = true) := by
    rintro ⟨hfo, hc⟩
    exact hnew (hcover f hfes hfo hc ▸ hf)
  have hstart := Edit.start_le_of_le hle
  by_cases hfo : f.placement = .overwrite
  · rcases h.laminar f (hes f hfes) e (hes e he) hfo ho with (hap | hap) | hc | hc
    · exact hap
    · omega
    · exact absurd ⟨hfo, hc⟩ hne
    · -- both start together, and then the longer one comes first
      have hc := Span.contains_iff.mp hc
      rcases Edit.le_iff.mp hle with hlt | ⟨heq, hrank | ⟨-, hstop⟩⟩
      · omega
      · rw [hfo, ho] at hrank
        exact absurd hrank (Nat.lt_irrefl _)
      · exact absurd ⟨hfo, Span.contains_iff.mpr ⟨hstart, hstop hfo⟩⟩ hne
  · rw [h.point f (hes f hfes) hfo]
    exact hstart

/-- A splice puts the content of an uncovered replacement in the place of the replaced range. -/
theorem Draft.Tidy.splice_around (h : draft.Tidy) {es : List Edit} (hes : ∀ f ∈ es, f ∈ draft.edits)
    (hsorted : es.Pairwise fun a b => a.le b = true) {e : Edit} (he : e ∈ es) (ho : e.placement = .overwrite)
    (hpos : e.span.start < e.span.stop)
    (hcover : ∀ f ∈ es, f.placement = .overwrite → f.span.contains e.span = true → f = e) {cursor : Nat}
    (hcursor : cursor ≤ e.span.start) {text : List Char} (htext : draft.splice inner stop cursor es = .ok text) :
    ∃ before after front content back, es = before ++ e :: after ∧ (∀ f ∈ before, f.span.stop ≤ e.span.start) ∧
      draft.splice inner e.span.start cursor before = .ok front ∧ renderContent inner e.content = .ok content ∧
        draft.splice inner stop e.span.stop after = .ok back ∧ text = front ++ (content ++ back) := by
  obtain ⟨before, after, rfl, hbefore⟩ := h.split_at hes hsorted he ho hpos hcover
  obtain ⟨front, content, back, hsplices⟩ := splice_reaches hbefore hcursor htext
  exact ⟨before, after, front, content, back, rfl, hbefore, hsplices⟩

theorem slice?_head {text part : List Char} {lo hi : Nat} {c : Char} (hc : charAt text lo = some c) (hlt : lo < hi)
    (h : slice? text lo hi = some part) : ∃ rest, part = c :: rest := by
  obtain ⟨rest, hrest⟩ := charAt_eq_some.mp hc
  unfold slice? at h
  rw [if_pos (Nat.le_of_lt hlt), hrest, Option.bind_some] at h
  obtain ⟨n, hn⟩ : ∃ n, hi - lo = n + 1 := ⟨hi - lo - 1, by omega⟩
  rw [hn, takeBytes] at h
  split at h
  · obtain ⟨more, -, rfl⟩ := Option.map_eq_some_iff.mp h
    exact ⟨more, rfl⟩
  · cases h

theorem Draft.splice_head {c : Char} : ∀ {es : List Edit} {cursor : Nat} {text : List Char},
    charAt draft.source cursor = some c → cursor < stop → (∀ e ∈ es, e.span.start ≠ cursor) →
      draft.splice inner stop cursor es = .ok text → ∃ rest, text = c :: rest
  | [], cursor, text, hc, hlt, _, h => slice?_head hc hlt (slice_eq_ok.mp h)
  | e :: es, cursor, text, hc, hlt, hes, h => by
    by_cases hdrop : e.span.start < cursor
    · rw [splice, if_pos hdrop] at h
      exact splice_head hc hlt (fun f hf => hes f (List.mem_cons_of_mem _ hf)) h
    · have hne := hes e (List.mem_cons_self ..)
      obtain ⟨kept, own, rest, hkept, -, -, rfl⟩ := (splice_cons (Nat.not_lt.mp hdrop)).mp h
      obtain ⟨more, rfl⟩ := slice?_head hc (by simp only; omega) (slice_eq_ok.mp hkept)
      exact ⟨more ++ (own ++ rest), rfl⟩

end

/-! ## Replacements of an expansion -/

section
variable {setting : Setting} {draft : Draft}

theorem site_entry {site : Site} (hs : site ∈ setting.collected.usages.pending) :
    ∃ entry ∈ setting.ledger, entry.site = site := by
  have hmem := ledger_sites_perm.symm.subset hs
  rw [List.mem_map] at hmem
  exact hmem

/-- The rule of a macro is applied to each of its sites, unless the site is a type that others take. -/
theorem own_entry (hdraft : expansion setting = .ok draft) {site : Site}
    (hs : site ∈ setting.collected.usages.pending)
    (hkind : site.kind ≠ .type) : ∃ entry ∈ setting.ledger, setting.ownEdits site = .ok entry.edits := by
  obtain ⟨es, hplay, -⟩ := expansion_edits hdraft
  obtain ⟨entry, hentry, rfl⟩ := site_entry hs
  rcases mem_ledger hplay hentry with ⟨-, hown, -⟩ | ⟨-, definition, -, -, hclaims⟩
  · exact ⟨entry, hentry, hown⟩
  · exact absurd (setting.claims_type hclaims) hkind

theorem entry_recorded (hdraft : expansion setting = .ok draft) {entry : Entry} (hentry : entry ∈ setting.ledger)
    {e : Edit} (he : e ∈ entry.edits) (hself : e.selects e = false) : e ∈ draft.edits := by
  obtain ⟨es, -, rfl⟩ := expansion_edits hdraft
  refine mem_recordAll.mpr (Or.inr ⟨List.mem_append_left _ ?_, hself⟩)
  exact List.mem_flatMap.mpr ⟨entry, hentry, he⟩

theorem entry_overwrite (hdraft : expansion setting = .ok draft) {entry : Entry} (hentry : entry ∈ setting.ledger)
    {span : Span} {text : String} (h : Edit.overwrite span text ∈ entry.edits) :
    Edit.overwrite span text ∈ draft.edits :=
  entry_recorded hdraft hentry h (Edit.overwrite_selects ..)

theorem Edit.prepend_selects (pos : Nat) (text : String) (f : Edit) :
    (Edit.prepend pos text).selects f = false := by
  rw [← Bool.not_eq_true, Edit.selects_iff]
  rintro ⟨range, hrange, -⟩
  exact Fragment.source_not_mem_ofText hrange

theorem Edit.append_selects (pos : Nat) (text : String) (f : Edit) : (Edit.append pos text).selects f = false := by
  rw [← Bool.not_eq_true, Edit.selects_iff]
  rintro ⟨range, hrange, -⟩
  exact Fragment.source_not_mem_ofText hrange

end

end ComponentMacros
