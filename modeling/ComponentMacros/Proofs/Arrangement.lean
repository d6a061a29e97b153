import ComponentMacros.Proofs.Rendering

/-!
# Arranged edits and spliced text

Arranging edits keeps ties as they are, so it commutes with leaving edits out,
and an arranged list falls apart at any bound on positions. A splice falls apart
with it: the text up to the bound is rendered first, then the rest, and edits
that start before the cursor do not matter.
-/

namespace ComponentMacros

/-! ## Arranged lists -/

namespace Edit

theorem insertArranged_of_le {e : Edit} {es : List Edit} (h : ∀ f ∈ es, e.le f = true) :
    insertArranged e es = e :: es := by
  cases es with
  | nil => rfl
  | cons f es => rw [insertArranged, if_pos (h f (List.mem_cons_self ..))]

theorem insertArranged_filter (p : Edit → Bool) {e : Edit} : ∀ {es : List Edit},
    es.Pairwise (fun a b => a.le b = true) →
      (insertArranged e es).filter p = if p e then insertArranged e (es.filter p) else es.filter p
  | [], _ => by by_cases hp : p e <;> simp [insertArranged, hp]
  | f :: es, hs => by
    obtain ⟨hfirst, hs⟩ := List.pairwise_cons.mp hs
    by_cases hle : e.le f = true
    · -- `e` comes before everything that is left
      have hall : ∀ g ∈ (f :: es).filter p, e.le g = true := by
        intro g hg
        rcases List.mem_cons.mp (List.mem_filter.mp hg).1 with heq | hg
        · rw [heq]; exact hle
        · exact le_trans hle (hfirst g hg)
      rw [insertArranged_of_le hall, insertArranged, if_pos hle, List.filter_cons]
    · have ih := insertArranged_filter p hs (e := e)
      by_cases hp : p e <;> by_cases hf : p f <;> simp [insertArranged, hle, hp, hf, ih]

theorem sort_pairwise (es : List Edit) : (sort es).Pairwise fun a b => a.le b = true := by
  have : Std.Total (fun a b : Edit => a.le b = true) := ⟨le_total⟩
  have : IsTrans Edit (fun a b => a.le b = true) := ⟨fun _ _ _ => le_trans⟩
  rw [sort_eq]
  exact List.pairwise_insertionSort _ _

theorem sort_filter (p : Edit → Bool) : ∀ es : List Edit, (sort es).filter p = sort (es.filter p)
  | [] => rfl
  | e :: es => by
    rw [sort, insertArranged_filter p (sort_pairwise es), sort_filter p es]
    by_cases hp : p e <;> simp [hp, sort]

theorem sort_eq_self {es : List Edit} (h : es.Pairwise fun a b => a.le b = true) : sort es = es := by
  rw [sort_eq]
  exact h.insertionSort_eq

theorem arrange_filter (p : Edit → Bool) (es : List Edit) : (arrange es).filter p = arrange (es.filter p) := by
  rw [arrange, arrange, sort_filter, List.filter_append, List.filter_reverse, List.filter_filter,
    List.filter_filter, List.filter_filter, List.filter_filter]
  simp only [Bool.and_comm]

theorem arrange_perm (es : List Edit) : (arrange es).Perm es := by
  rw [arrange, sort_eq]
  refine (List.perm_insertionSort _ _).trans ?_
  refine ((List.reverse_perm _).append_right _).trans ?_
  simpa using List.filter_append_perm (·.placement = .prepend) es

theorem filter_append_filter_not {p : Edit → Bool} : ∀ {es : List Edit}, es.Pairwise (fun a b => a.le b = true) →
    (∀ a ∈ es, ∀ b ∈ es, a.le b = true → p b = true → p a = true) →
      es.filter p ++ es.filter (fun e => !p e) = es
  | [], _, _ => rfl
  | e :: es, hs, hp => by
    obtain ⟨hfirst, hs⟩ := List.pairwise_cons.mp hs
    have ih := filter_append_filter_not hs fun a ha b hb =>
      hp a (List.mem_cons_of_mem _ ha) b (List.mem_cons_of_mem _ hb)
    by_cases he : p e
    · simp [he, ih]
    · -- nothing behind `e` has the property either
      have hnone : ∀ f ∈ es, p f = false := by
        intro f hf
        by_contra hpf
        exact he (hp e (List.mem_cons_self ..) f (List.mem_cons_of_mem _ hf) (hfirst f hf) (by simpa using hpf))
      have hempty : es.filter p = [] := List.filter_eq_nil_iff.mpr fun f hf => by simp [hnone f hf]
      have hfull : es.filter (fun e => !p e) = es := List.filter_eq_self.mpr fun f hf => by simp [hnone f hf]
      simp [he, hempty, hfull]

theorem arrange_split {p : Edit → Bool} {es : List Edit}
    (hp : ∀ a ∈ es, ∀ b ∈ es, a.le b = true → p b = true → p a = true) :
    arrange es = arrange (es.filter p) ++ arrange (es.filter fun e => !p e) := by
  rw [← arrange_filter, ← arrange_filter]
  refine (filter_append_filter_not (arrange_pairwise es) fun a ha b hb => ?_).symm
  exact hp a (mem_arrange.mp ha) b (mem_arrange.mp hb)

theorem start_le_of_le {a b : Edit} (h : a.le b = true) : a.span.start ≤ b.span.start := by
  rw [le_iff] at h; omega

theorem arrange_split_at {lo mid : Nat} (h : lo ≤ mid) (es : List Edit) : arrange (es.filter (lo ≤ ·.span.start)) =
    arrange (es.filter fun e => lo ≤ e.span.start ∧ e.span.start < mid) ++
      arrange (es.filter (mid ≤ ·.span.start)) := by
  rw [arrange_split (p := fun e => e.span.start < mid) fun a _ b _ hle hb => ?_]
  · rw [List.filter_filter, List.filter_filter]
    congr 2
    · apply List.filter_congr
      intro e _
      rw [← Bool.decide_and]
      exact decide_eq_decide.mpr And.comm
    · apply List.filter_congr
      intro e _
      rw [← decide_not, ← Bool.decide_and]
      exact decide_eq_decide.mpr (by omega)
  · have := start_le_of_le hle
    simp only [decide_eq_true_eq] at hb ⊢
    omega

end Edit

/-! ## Slices -/

theorem takeBytes_add : ∀ {text rest a b : List Char} {m n : Nat}, takeBytes text m = some a →
    dropBytes text m = some rest → takeBytes rest n = some b → takeBytes text (m + n) = some (a ++ b)
  | text, rest, a, b, 0, n, ha, hd, hb => by
    rw [dropBytes_zero, Option.some.injEq] at hd
    simp only [takeBytes, Option.some.injEq] at ha
    rw [← ha, Nat.zero_add, hd, hb]; rfl
  | [], rest, a, b, m + 1, n, ha, _, _ => by cases ha
  | c :: cs, rest, a, b, m + 1, n, ha, hd, hb => by
    rw [takeBytes] at ha
    rw [dropBytes] at hd
    split at ha
    · rename_i hc
      rw [if_pos hc] at hd
      obtain ⟨front, hfront, rfl⟩ := Option.map_eq_some_iff.mp ha
      have ih := takeBytes_add hfront hd hb
      rw [show m + 1 - c.utf8Size + n = m + n + 1 - c.utf8Size by omega] at ih
      rw [show m + 1 + n = m + n + 1 by omega, takeBytes, if_pos (by omega), ih]
      rfl
    · cases ha

theorem slice?_append {text a b : List Char} {lo mid hi : Nat} (ha : slice? text lo mid = some a)
    (hb : slice? text mid hi = some b) : slice? text lo hi = some (a ++ b) := by
  unfold slice? at *
  split at ha
  · rename_i hlo
    split at hb
    · rename_i hhi
      obtain ⟨front, hfront, ha⟩ := Option.bind_eq_some_iff.mp ha
      obtain ⟨back, hback, hb⟩ := Option.bind_eq_some_iff.mp hb
      have hadd := dropBytes_add (b := mid - lo) hfront
      rw [Nat.add_sub_cancel' hlo, hback] at hadd
      rw [if_pos (Nat.le_trans hlo hhi), hfront, Option.bind_some, ← takeBytes_add ha hadd.symm hb]
      congr 1; omega
    · cases hb
  · cases ha

namespace Draft

section
variable {draft : Draft} {inner : Span → Except RenderError (List Char)} {lo mid hi stop : Nat} {a b : List Char}

theorem slice_eq_ok {range : Span} {text : List Char} :
    draft.slice range = .ok text ↔ slice? draft.source range.start range.stop = some text := by
  unfold slice
  split <;> simp_all

theorem slice_self {pos : Nat} (h : IsBoundary draft.source pos) : draft.slice ⟨pos, pos⟩ = .ok [] := by
  obtain ⟨rest, hd⟩ := isBoundary_iff.mp h
  apply slice_eq_ok.mpr
  simp [slice?, hd, takeBytes]

theorem slice_append (ha : draft.slice ⟨lo, mid⟩ = .ok a) (hb : draft.slice ⟨mid, hi⟩ = .ok b) :
    draft.slice ⟨lo, hi⟩ = .ok (a ++ b) := by
  rw [slice_eq_ok] at *
  exact slice?_append ha hb

theorem renderContent_mono {outer : Span → Except RenderError (List Char)} :
    ∀ {content : Fragment} {text : List Char},
      (∀ range, .source range ∈ content → ∀ moved, inner range = .ok moved → outer range = .ok moved) →
      renderContent inner content = .ok text → renderContent outer content = .ok text
  | [], text, _, h => h
  | .text t :: pieces, text, hinner, h => by
    rw [renderContent] at h ⊢
    obtain ⟨rest, hrest, h⟩ := bind_eq_ok h
    rw [renderContent_mono (fun range hr => hinner range (List.mem_cons_of_mem _ hr)) hrest]
    exact h
  | .source range :: pieces, text, hinner, h => by
    rw [renderContent] at h ⊢
    obtain ⟨moved, hmoved, h⟩ := bind_eq_ok h
    obtain ⟨rest, hrest, h⟩ := bind_eq_ok h
    rw [hinner range (List.mem_cons_self ..) moved hmoved,
      renderContent_mono (fun range hr => hinner range (List.mem_cons_of_mem _ hr)) hrest]
    exact h

/-! ## Splices -/

theorem splice_cons {e : Edit} {es : List Edit} {cursor : Nat} {text : List Char} (h : cursor ≤ e.span.start) :
    draft.splice inner stop cursor (e :: es) = .ok text ↔ ∃ kept content rest,
      draft.slice ⟨cursor, e.span.start⟩ = .ok kept ∧ renderContent inner e.content = .ok content ∧
        draft.splice inner stop e.span.stop es = .ok rest ∧ text = kept ++ (content ++ rest) := by
  rw [splice, if_neg (Nat.not_lt.mpr h)]
  constructor
  · intro h
    obtain ⟨kept, hkept, h⟩ := bind_eq_ok h
    obtain ⟨content, hcontent, h⟩ := bind_eq_ok h
    obtain ⟨rest, hrest, h⟩ := bind_eq_ok h
    cases h
    exact ⟨kept, content, rest, hkept, hcontent, hrest, List.append_assoc ..⟩
  · rintro ⟨kept, content, rest, hkept, hcontent, hrest, rfl⟩
    rw [hkept, hcontent, hrest, ← List.append_assoc]
    rfl

theorem splice_copy (ha : draft.slice ⟨lo, mid⟩ = .ok a) {es : List Edit} (hes : ∀ e ∈ es, mid ≤ e.span.start)
    (hb : draft.splice inner stop mid es = .ok b) : draft.splice inner stop lo es = .ok (a ++ b) := by
  have hle : lo ≤ mid := (slice?_isSome_iff.mp (Option.isSome_of_eq_some (slice_eq_ok.mp ha))).1
  cases es with
  | nil => exact slice_append ha hb
  | cons e es =>
    have hstart := hes e (List.mem_cons_self ..)
    obtain ⟨kept, content, rest, hkept, hcontent, hrest, rfl⟩ := (splice_cons hstart).mp hb
    apply (splice_cons (Nat.le_trans hle hstart)).mpr
    exact ⟨a ++ kept, content, rest, slice_append ha hkept, hcontent, hrest, by simp⟩

theorem splice_append {before after : List Edit} (hafter : ∀ e ∈ after, mid ≤ e.span.start)
    (hb : draft.splice inner stop mid after = .ok b) : ∀ {cursor : Nat} {a : List Char},
      draft.splice inner mid cursor before = .ok a →
        draft.splice inner stop cursor (before ++ after) = .ok (a ++ b) := by
  induction before with
  | nil =>
    intro cursor a ha
    exact splice_copy ha hafter hb
  | cons e before ih =>
    intro cursor a ha
    by_cases hlt : e.span.start < cursor
    · rw [splice, if_pos hlt] at ha
      rw [List.cons_append, splice, if_pos hlt]
      exact ih ha
    · obtain ⟨kept, content, rest, hkept, hcontent, hrest, rfl⟩ := (splice_cons (Nat.not_lt.mp hlt)).mp ha
      apply (splice_cons (Nat.not_lt.mp hlt)).mpr
      exact ⟨kept, content, rest ++ b, hkept, hcontent, ih hrest, by simp⟩

/-- A splice that goes through goes through the same way wherever references render alike. -/
theorem splice_mono {other : Draft} (hsource : other.source = draft.source)
    {outer : Span → Except RenderError (List Char)} : ∀ {es : List Edit} {cursor : Nat} {text : List Char},
      (∀ e ∈ es, ∀ range, .source range ∈ e.content → ∀ moved, inner range = .ok moved → outer range = .ok moved) →
        draft.splice inner stop cursor es = .ok text → other.splice outer stop cursor es = .ok text
  | [], cursor, text, _, htext => by
    rw [splice, slice_eq_ok] at *
    rwa [hsource]
  | e :: es, cursor, text, h, htext => by
    have hes := fun f hf => h f (List.mem_cons_of_mem _ hf)
    by_cases hlt : e.span.start < cursor
    · rw [splice, if_pos hlt] at htext ⊢
      exact splice_mono hsource hes htext
    · rw [Nat.not_lt] at hlt
      obtain ⟨kept, content, rest, hkept, hcontent, hrest, rfl⟩ := (splice_cons hlt).mp htext
      apply (splice_cons hlt).mpr
      refine ⟨kept, content, rest, ?_, ?_, splice_mono hsource hes hrest, rfl⟩
      · rw [slice_eq_ok] at *
        rwa [hsource]
      · exact renderContent_mono (h e (List.mem_cons_self ..)) hcontent

/-- Two drafts render a range alike if they have the same edits in it and in all that is referred to.
More depth changes nothing. -/
theorem renderRange_agree {other : Draft} (hsource : other.source = draft.source) {P : Span → Prop}
    (hsame : ∀ range, P range → other.edits.filter (·.isWithin range true) =
      draft.edits.filter (·.isWithin range true))
    (hrefers : ∀ e ∈ draft.edits, ∀ range, .source range ∈ e.content → P range) :
    ∀ {depth depth' : Nat} {range : Span} {text : List Char}, depth ≤ depth' → P range →
      draft.renderRange depth range true = .ok text → other.renderRange depth' range true = .ok text
  | 0, _, _, _, _, _, h => by cases h
  | depth + 1, depth', range, text, hle, hP, h => by
    obtain ⟨depth', rfl⟩ : ∃ n, depth' = n + 1 := ⟨depth' - 1, by omega⟩
    rw [renderRange] at h ⊢
    rw [hsame range hP]
    refine splice_mono hsource (fun e he inner hinner moved hmoved => ?_) h
    have hmem := (List.mem_filter.mp (Edit.mem_arrange.mp he)).1
    exact renderRange_agree hsource hsame hrefers (by omega) (hrefers e hmem inner hinner) hmoved

theorem splice_filter {cursor : Nat} : ∀ {es : List Edit}, es.Pairwise (fun a b => a.le b = true) →
    draft.splice inner stop cursor es = draft.splice inner stop cursor (es.filter (cursor ≤ ·.span.start))
  | [], _ => rfl
  | e :: es, hs => by
    obtain ⟨hfirst, hs⟩ := List.pairwise_cons.mp hs
    by_cases hlt : e.span.start < cursor
    · rw [splice, if_pos hlt, splice_filter hs, List.filter_cons_of_neg (by simpa using hlt)]
    · have hall : ∀ f ∈ e :: es, cursor ≤ f.span.start := by
        intro f hf
        rcases List.mem_cons.mp hf with rfl | hf
        · omega
        · have := Edit.start_le_of_le (hfirst f hf); omega
      rw [List.filter_eq_self.mpr fun f hf => by simpa using hall f hf]

end

end Draft

end ComponentMacros
