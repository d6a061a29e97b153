import ComponentMacros.Proofs.Commutation
import ComponentMacros.Proofs.InsetExpansion

/-!
# Drafts of both texts

In the one draft a literal is made up around the function: text replaces the head
and the end of the call, and the members of the literal are prepended to the
function. In the other the head and the end are removed around the literal, and
members are prepended to its only one. With the same edits around the call and
inside the function, moved, both drafts are rendered to one text.
-/

namespace ComponentMacros

/-! ## Edits in order -/

namespace Edit

section
variable {hole : Span}

theorem inset_le (a b : Edit) : (a.inset hole).le (b.inset hole) = a.le b := by
  rw [Bool.eq_iff_iff, le_iff, le_iff]
  simp only [inset_placement, inset_span, Span.insetSpan_start, Span.insetSpan_stop, Span.inset_inj,
    Span.inset_lt_iff, Span.inset_le_iff]

theorem insertArranged_inset (e : Edit) (es : List Edit) :
    insertArranged (e.inset hole) (es.map (Edit.inset hole)) = (insertArranged e es).map (Edit.inset hole) := by
  induction es with
  | nil => rfl
  | cons f es ih =>
    rw [List.map_cons, insertArranged, insertArranged, inset_le, ih]
    split <;> rfl

theorem sort_inset (es : List Edit) : sort (es.map (Edit.inset hole)) = (sort es).map (Edit.inset hole) := by
  induction es with
  | nil => rfl
  | cons e es ih => rw [List.map_cons, sort, sort, ih, insertArranged_inset]

theorem arrange_inset (es : List Edit) :
    arrange (es.map (Edit.inset hole)) = (arrange es).map (Edit.inset hole) := by
  unfold arrange
  rw [← sort_inset, List.map_append, List.map_reverse, List.filter_map, List.filter_map]
  rfl

theorem filter_inset {es : List Edit} {p q : Edit → Bool} (h : ∀ e ∈ es, q (e.inset hole) = p e) :
    (es.map (Edit.inset hole)).filter q = (es.filter p).map (Edit.inset hole) := by
  rw [List.filter_map]
  exact congrArg _ (List.filter_congr h)

end

theorem arrange_singleton (e : Edit) : arrange [e] = [e] := by
  unfold arrange
  by_cases h : e.placement = .prepend <;> simp [h, sort, insertArranged]

theorem arrange_around {front back : List Edit} {e : Edit}
    (hne : ∀ f ∈ front ++ back, f.le e = true → e.le f = false) :
    arrange (front ++ e :: back) = arrange ((front ++ back).filter (·.le e)) ++
      e :: arrange ((front ++ back).filter (!·.le e)) := by
  have hself : e.le e = true := (le_total e e).elim id id
  have hbefore : ∀ es : List Edit, (∀ f ∈ es, f ∈ front ++ back) →
      (es.filter (·.le e)).filter (!e.le ·) = es.filter (·.le e) ∧ (es.filter (·.le e)).filter (e.le ·) = [] := by
    intro es hes
    constructor
    · refine List.filter_eq_self.mpr fun f hf => ?_
      obtain ⟨hf, hle⟩ := List.mem_filter.mp hf
      rw [hne f (hes f hf) hle, Bool.not_false]
    · refine List.filter_eq_nil_iff.mpr fun f hf => ?_
      obtain ⟨hf, hle⟩ := List.mem_filter.mp hf
      rw [hne f (hes f hf) hle]
      exact Bool.false_ne_true
  obtain ⟨hfront, hfront'⟩ := hbefore front fun f hf => List.mem_append_left _ hf
  obtain ⟨hback, hback'⟩ := hbefore back fun f hf => List.mem_append_right _ hf
  -- what comes no later than the edit, and of that what does not come with it
  rw [arrange_split (p := fun f => f.le e) fun a _ b _ hle hb => le_trans hle hb,
    @arrange_split (fun f => !e.le f) ((front ++ e :: back).filter _) fun a _ b _ hle hb => ?_]
  · simp only [List.filter_append, List.filter_cons, hself, hfront, hback, hfront', hback', Bool.not_not,
      Bool.not_true, ite_true, Bool.false_eq_true, ite_false, List.nil_append, List.append_assoc]
    rw [arrange_singleton]
    rfl
  · rw [Bool.not_eq_true'] at hb ⊢
    rw [Bool.eq_false_iff] at hb ⊢
    exact fun hea => hb (le_trans hea hle)

theorem prepend_le {pos : Nat} {text : String} {e : Edit} (h : pos ≤ e.span.start) :
    (prepend pos text).le e = true := by
  rw [le_iff]
  by_cases hlt : pos < e.span.start
  · exact Or.inl hlt
  · refine Or.inr ⟨Nat.le_antisymm h (Nat.not_lt.mp hlt), ?_⟩
    cases hp : e.placement with
    | prepend => exact Or.inr ⟨rfl, fun ho => nomatch ho⟩
    | append | overwrite => exact Or.inl (Nat.succ_pos _)

theorem sort_first {p : Edit} {after : List Edit} : ∀ {before : List Edit}, (∀ f ∈ before, f.le p = false) →
    (∀ f ∈ after, p.le f = true) → sort (before ++ p :: after) = p :: sort (before ++ after)
  | [], _, hafter => insertArranged_of_le fun f hf => hafter f (by rwa [sort_eq, List.mem_insertionSort] at hf)
  | a :: before, hbefore, hafter => by
    have ih := @sort_first p after before (fun f hf => hbefore f (List.mem_cons_of_mem _ hf)) hafter
    rw [List.cons_append, List.cons_append, sort, sort, ih, insertArranged, if_neg]
    rw [hbefore a (List.mem_cons_self ..)]
    exact Bool.false_ne_true

/-- A text that is prepended where nothing comes before it and nothing is prepended later comes first. -/
theorem arrange_first {front back : List Edit} {pos : Nat} {text : String}
    (hfront : ∀ f ∈ front, pos ≤ f.span.start)
    (hback : ∀ f ∈ back, pos ≤ f.span.start ∧ (f.placement = .prepend → f.span.start ≠ pos)) :
    arrange (front ++ prepend pos text :: back) = prepend pos text :: arrange (front ++ back) := by
  have hlater : ∀ f ∈ (back.filter (·.placement = .prepend)).reverse, f.le (prepend pos text) = false := by
    intro f hf
    obtain ⟨hf, hp⟩ := List.mem_filter.mp (List.mem_reverse.mp hf)
    rw [Bool.eq_false_iff]
    intro hle
    have hstart : f.span.start ≤ pos := start_le_of_le hle
    exact (hback f hf).2 (of_decide_eq_true hp) (Nat.le_antisymm hstart (hback f hf).1)
  have hfirst : (prepend pos text).placement = .prepend := rfl
  unfold arrange
  rw [List.filter_append, List.filter_cons_of_pos (by simp [hfirst]), List.filter_append,
    List.filter_cons_of_neg (by simp [hfirst]), List.reverse_append, List.reverse_cons, List.append_assoc,
      List.append_assoc,
    List.singleton_append, sort_first hlater, List.filter_append, List.reverse_append, List.append_assoc,
      List.filter_append]
  intro f hf
  apply prepend_le
  simp only [List.mem_append, List.mem_reverse, List.mem_filter] at hf
  rcases hf with ⟨hf, -⟩ | ⟨hf, -⟩ | ⟨hf, -⟩
  · exact hfront f hf
  · exact hfront f hf
  · exact (hback f hf).1

theorem arrange_prepends {front back : List Edit} {pos : Nat} (hfront : ∀ f ∈ front, pos ≤ f.span.start)
    (hback : ∀ f ∈ back, pos ≤ f.span.start ∧ (f.placement = .prepend → f.span.start ≠ pos))
    (texts : List String) :
    arrange (front ++ (texts.map (prepend pos) ++ back)) = texts.reverse.map (prepend pos) ++
      arrange (front ++ back) := by
  induction texts using List.reverseRecOn with
  | nil => rfl
  | append_singleton texts text ih =>
    have hall : ∀ f ∈ front ++ texts.map (prepend pos), pos ≤ f.span.start := by
      intro f hf
      rcases List.mem_append.mp hf with hf | hf
      · exact hfront f hf
      · obtain ⟨t, -, rfl⟩ := List.mem_map.mp hf
        exact Nat.le_refl _
    have hsplit : front ++ ((texts ++ [text]).map (prepend pos) ++ back) =
        (front ++ texts.map (prepend pos)) ++ prepend pos text :: back := by simp
    rw [hsplit, arrange_first hall hback, List.append_assoc, ih]
    simp

end Edit

/-! ## Splices -/

namespace Draft

/-- Two drafts, one over a text with a function alone and one over the text with it in a literal. -/
structure Twins (hole : Span) (bare literal : Draft) : Prop where
  proper : hole.start < hole.stop
  boundary : IsBoundary bare.source hole.start
  slice : ∀ {lo hi : Nat}, hole.Level lo hi → literal.slice ⟨hole.inset lo, hole.inset hi⟩ = bare.slice ⟨lo, hi⟩
  opening : literal.slice ⟨hole.start, hole.start + 2⟩ = .ok "\x7b ".toList
  key : literal.slice ⟨hole.start + 2, hole.start + 10⟩ = .ok "render: ".toList
  closing : literal.slice ⟨hole.stop + 10, hole.stop + 12⟩ = .ok " \x7d".toList

theorem twins_of_text {pre body post : List Char} {bare literal : Draft} (hbody : body ≠ [])
    (hbare : bare.source = bareText pre body post) (hliteral : literal.source = literalText pre body post) :
    Twins (holeOf pre body) bare literal := by
  have hpositive : 0 < byteLength body := by
    cases body with
    | nil => exact absurd rfl hbody
    | cons c cs => exact Nat.add_pos_left c.utf8Size_pos _
  -- a text that stands between two others
  have between : ∀ {a b c : List Char} {lo hi : Nat}, literalText pre body post = a ++ (b ++ c) →
    lo = byteLength a →
      hi = byteLength a + byteLength b → literal.slice ⟨lo, hi⟩ = .ok b := by
    rintro a b c _ _ htext rfl rfl
    have htake := takeBytes_append b c
    rw [slice_eq_ok, hliteral, htext]
    have hright := slice?_append_right a (b ++ c) 0 (byteLength b)
    rw [Nat.add_zero] at hright
    rw [hright, slice?, if_pos (Nat.zero_le _), dropBytes_zero, Option.bind_some, Nat.sub_zero, htake]
  have hhead : literalHead = "\x7b ".toList ++ "render: ".toList := rfl
  have hlength : byteLength "\x7b ".toList = 2 := rfl
  have hlength' : byteLength "render: ".toList = 8 := rfl
  refine ⟨?_, ?_, fun hlevel => ?_, ?_, ?_, ?_⟩
  · simp only [holeOf]
    omega
  · have hdrop := dropBytes_append pre (body ++ post) 0
    rw [Nat.add_zero, dropBytes_zero] at hdrop
    rw [hbare]
    exact isBoundary_iff.mpr ⟨_, hdrop⟩
  · simp only [slice, hbare, hliteral, slice?_inset hlevel]
  · refine between (a := pre) (c := "render: ".toList ++ (body ++ (literalTail ++ post))) ?_ rfl ?_
    · rw [literalText, hhead, List.append_assoc]
    · rw [hlength]; rfl
  · refine between (a := pre ++ "\x7b ".toList) (c := body ++ (literalTail ++ post)) ?_ ?_ ?_
    · rw [literalText, hhead, List.append_assoc, List.append_assoc]
    · rw [byteLength_append, hlength]; rfl
    · rw [byteLength_append, hlength, hlength']; rfl
  · refine between (a := pre ++ (literalHead ++ body)) (b := literalTail) (c := post) ?_ ?_ ?_
    · rw [literalText]; simp only [List.append_assoc]
    · rw [byteLength_append, byteLength_append, byteLength_literalHead]; simp only [holeOf]; omega
    · rw [byteLength_append, byteLength_append, byteLength_literalHead, byteLength_literalTail];
        simp only [holeOf]; omega

section
variable {draft : Draft} {inner : Span → Except RenderError (List Char)}

theorem splice_prepends {stop pos : Nat} (hpos : IsBoundary draft.source pos) {later : List Edit} :
    ∀ {texts : List String} {text : List Char},
      draft.splice inner stop pos (texts.map (Edit.prepend pos) ++ later) = .ok text ↔
      ∃ rest, draft.splice inner stop pos later = .ok rest ∧ text = texts.flatMap String.toList ++ rest
  | [], text => by simp
  | t :: texts, text => by
    have hhere : pos ≤ (Edit.prepend pos t).span.start := Nat.le_refl _
    rw [List.map_cons, List.cons_append, splice_cons hhere]
    constructor
    · rintro ⟨kept, content, rest, hkept, hcontent, hrest, rfl⟩
      obtain ⟨back, hback, rfl⟩ := (splice_prepends hpos).mp hrest
      have hself := slice_self hpos
      rw [Edit.prepend, hself] at hkept
      rw [Edit.prepend, renderContent_ofText] at hcontent
      cases hkept
      cases hcontent
      exact ⟨back, hback, by simp⟩
    · rintro ⟨back, hback, rfl⟩
      refine ⟨[], t.toList, texts.flatMap String.toList ++ back, slice_self hpos, ?_,
        (splice_prepends hpos).mpr ⟨back, hback, rfl⟩, ?_⟩
      · rw [Edit.prepend, renderContent_ofText]
      · simp

theorem splice_from {stop cursor : Nat} {es : List Edit} {p : Edit → Bool}
    (hp : ∀ e ∈ es, cursor ≤ e.span.start → p e = true) :
      draft.splice inner stop cursor (Edit.arrange (es.filter p)) =
      draft.splice inner stop cursor (Edit.arrange (es.filter (cursor ≤ ·.span.start))) := by
  rw [splice_filter (Edit.arrange_pairwise _), Edit.arrange_filter, List.filter_filter]
  congr 2
  apply List.filter_congr
  intro e he
  by_cases hstart : cursor ≤ e.span.start
  · simp [hstart, hp e he hstart]
  · simp [hstart]

end

section
variable {hole : Span} {bare literal : Draft} (h : Twins hole bare literal)
  {inner outer : Span → Except RenderError (List Char)} {es later later' : List Edit} {stop stop' : Nat}

theorem renderContent_inset {content : Fragment} {text : List Char}
    (hmoved : ∀ range, .source range ∈ content → ∀ moved, inner range = .ok moved →
      outer (hole.insetSpan range) = .ok moved)
    (htext : renderContent inner content = .ok text) :
      renderContent outer (content.map (Piece.inset hole)) = .ok text := by
  induction content generalizing text with
  | nil => exact htext
  | cons piece pieces ih =>
    have ih := fun {rest} => @ih rest fun range hr => hmoved range (List.mem_cons_of_mem _ hr)
    cases piece with
    | text t =>
      rw [renderContent] at htext
      obtain ⟨rest, hrest, htext⟩ := bind_eq_ok htext
      rw [List.map_cons, Piece.inset, renderContent, ih hrest]
      exact htext
    | source range =>
      rw [renderContent] at htext
      obtain ⟨moved, hinner, htext⟩ := bind_eq_ok htext
      obtain ⟨rest, hrest, htext⟩ := bind_eq_ok htext
      rw [List.map_cons, Piece.inset, renderContent, hmoved range (List.mem_cons_self ..) moved hinner, ih hrest]
      exact htext

include h

/-- Edits between which nothing is put in are spliced alike, whatever comes after them. `P` holds
of the positions that the cursor comes to. -/
theorem Twins.splice_inset {P : Nat → Prop}
    (hstep : ∀ e ∈ es, ∀ pos, P pos → pos ≤ e.span.start → hole.Level pos e.span.start ∧ P e.span.stop)
    (hmoved : ∀ e ∈ es, ∀ range, .source range ∈ e.content → ∀ moved, inner range = .ok moved →
      outer (hole.insetSpan range) = .ok moved)
    (hlater : ∀ pos text, P pos → bare.splice inner stop pos later = .ok text →
      literal.splice outer stop' (hole.inset pos) later' = .ok text) :
    ∀ {cursor : Nat} {text : List Char}, P cursor → bare.splice inner stop cursor (es ++ later) = .ok text →
      literal.splice outer stop' (hole.inset cursor) (es.map (Edit.inset hole) ++ later') = .ok text := by
  induction es with
  | nil => exact fun hP htext => hlater _ _ hP htext
  | cons e es ih =>
    intro cursor text hP htext
    have ih := fun {cursor text} => @ih (fun f hf => hstep f (List.mem_cons_of_mem _ hf))
      (fun f hf => hmoved f (List.mem_cons_of_mem _ hf)) cursor text
    rw [List.map_cons, List.cons_append]
    by_cases hlt : e.span.start < cursor
    · rw [List.cons_append, splice, if_pos hlt] at htext
      rw [splice, if_pos (by simpa using hlt)]
      exact ih hP htext
    · rw [Nat.not_lt] at hlt
      obtain ⟨hlevel, hnext⟩ := hstep e (List.mem_cons_self ..) cursor hP hlt
      obtain ⟨kept, content, rest, hkept, hcontent, hrest, rfl⟩ := (splice_cons hlt).mp htext
      apply (splice_cons (by simpa using hlt)).mpr
      refine ⟨kept, content, rest, ?_, renderContent_inset (hmoved e (List.mem_cons_self ..)) hcontent,
        ih hnext hrest, rfl⟩
      exact (h.slice hlevel).trans hkept

theorem Twins.splice_behind (hordered : ∀ e ∈ es, e.span.start ≤ e.span.stop)
    (hmoved : ∀ e ∈ es, ∀ range, .source range ∈ e.content → ∀ moved, inner range = .ok moved →
      outer (hole.insetSpan range) = .ok moved)
    {pos : Nat} (hpos : hole.stop < pos) {text : List Char} (htext : bare.splice inner stop pos es = .ok text) :
    literal.splice outer (hole.inset stop) (hole.inset pos) (es.map (Edit.inset hole)) = .ok text := by
  rw [← List.append_nil es] at htext
  rw [← List.append_nil (es.map _)]
  refine h.splice_inset (P := (hole.stop < ·)) (fun e he d hd hstart => ⟨Or.inr (Or.inr hd), ?_⟩) hmoved
    (fun d text hd htext => ?_) hpos htext
  swap
  · rw [splice] at htext ⊢
    exact (h.slice (Or.inr (Or.inr hd))).trans htext
  have := hordered e he
  omega

end

end Draft

/-! ## The edits of the call -/

def Span.Aligned (hole call range : Span) : Prop :=
  range.start ≤ call.start ∧ call.stop ≤ range.stop ∨ range.start ≤ range.stop ∧ hole.Level range.start range.stop

/-- What is known of the edits that are recorded before those of the call and after them. -/
structure Beside (hole call : Span) (front back : List Edit) : Prop where
  headed : call.start < hole.start
  ended : hole.stop < call.stop
  ordered : ∀ e ∈ front ++ back, e.span.start ≤ e.span.stop
  point : ∀ e ∈ front ++ back, e.placement ≠ .overwrite → e.span.stop = e.span.start
  -- what is replaced stays clear of the call, goes around it, or is part of its head, of the function or of its
  -- end
  replaced : ∀ e ∈ front ++ back, e.placement = .overwrite →
    e.span.stop ≤ call.start ∨ call.stop ≤ e.span.start ∨ e.span.start ≤ call.start ∧ call.stop ≤ e.span.stop ∨
      call.start ≤ e.span.start ∧ e.span.stop < hole.start ∨
      hole.start ≤ e.span.start ∧ e.span.start < hole.stop ∧ e.span.stop ≤ hole.stop ∨
      hole.stop < e.span.start ∧ e.span.stop ≤ call.stop
  -- nothing is prepended to the function after the members of the literal
  first : ∀ e ∈ back, e.placement = .prepend → e.span.start ≠ hole.start
  refers : ∀ e ∈ front ++ back, ∀ range, .source range ∈ e.content → hole.Aligned call range

def wrapEdits (call hole : Span) (texts : List String) : List Edit :=
  .prepend hole.start "render: " :: .overwrite ⟨hole.stop, call.stop⟩ " \x7d" :: texts.map
    (Edit.prepend hole.start)

def unwrapEdits (call hole : Span) (texts : List String) : List Edit :=
  .remove (hole.stop + 12) (call.stop + 12) :: texts.map (Edit.prepend (hole.start + 2))

def bareEdits (call hole : Span) (texts : List String) (front back : List Edit) : List Edit :=
  front ++ .overwrite ⟨call.start, hole.start⟩ "\x7b " :: (wrapEdits call hole texts ++ back)

def literalEdits (call hole : Span) (texts : List String) (front back : List Edit) : List Edit :=
  front.map
    (Edit.inset hole) ++ .remove call.start hole.start ::
      (unwrapEdits call hole texts ++ back.map (Edit.inset hole))

theorem wrapEdits_start {call hole : Span} {texts : List String} (hproper : hole.start < hole.stop)
    (hended : hole.stop < call.stop) :
    ∀ e ∈ wrapEdits call hole texts, hole.start ≤ e.span.start ∧ e.span.start < call.stop := by
  intro e he
  rcases List.mem_cons.mp he with rfl | he
  · simp only [Edit.prepend]; omega
  · rcases List.mem_cons.mp he with rfl | he
    · simp only [Edit.overwrite]; omega
    · obtain ⟨t, -, rfl⟩ := List.mem_map.mp he
      simp only [Edit.prepend]; omega

theorem unwrapEdits_start {call hole : Span} {texts : List String} (hproper : hole.start < hole.stop)
    (hended : hole.stop < call.stop) :
    ∀ e ∈ unwrapEdits call hole texts, hole.start ≤ e.span.start ∧ e.span.start < call.stop + 12 := by
  intro e he
  rcases List.mem_cons.mp he with rfl | he
  · simp only [Edit.remove]; omega
  · obtain ⟨t, -, rfl⟩ := List.mem_map.mp he
    simp only [Edit.prepend]; omega

namespace Beside

section
variable {hole call : Span} {front back : List Edit} (h : Beside hole call front back)
include h

theorem filter (p : Edit → Bool) : Beside hole call (front.filter p) (back.filter p) := by
  have hsub : ∀ e ∈ front.filter p ++ back.filter p, e ∈ front ++ back := by
    rw [← List.filter_append]
    exact fun e he => (List.mem_filter.mp he).1
  exact ⟨h.headed, h.ended, fun e he => h.ordered e (hsub e he), fun e he => h.point e (hsub e he),
    fun e he => h.replaced e (hsub e he), fun e he => h.first e (List.mem_filter.mp he).1, fun e he =>
      h.refers e (hsub e he)⟩

variable (hproper : hole.start < hole.stop)
include hproper

theorem not_head {e : Edit} (he : e ∈ front ++ back) {text : String}
    (hle : e.le (.overwrite ⟨call.start, hole.start⟩ text) = true) :
    (Edit.overwrite ⟨call.start, hole.start⟩ text).le e = false := by
  by_contra hback
  obtain ⟨hp, -, hspan⟩ := Edit.tie_of_le hle (Bool.eq_true_of_not_eq_false hback)
  have hreplaced := h.replaced e he hp
  rw [hspan hp] at hreplaced
  have := h.headed
  have := h.ended
  simp only [Edit.overwrite] at hreplaced
  omega

theorem not_end {e : Edit} (he : e ∈ front ++ back) {text : String}
    (hle : e.le (.overwrite ⟨hole.stop, call.stop⟩ text) = true) :
    (Edit.overwrite ⟨hole.stop, call.stop⟩ text).le e = false := by
  by_contra hback
  obtain ⟨hp, -, hspan⟩ := Edit.tie_of_le hle (Bool.eq_true_of_not_eq_false hback)
  have hreplaced := h.replaced e he hp
  rw [hspan hp] at hreplaced
  have := h.headed
  have := h.ended
  simp only [Edit.overwrite] at hreplaced
  omega

theorem le_head (e : Edit) {text text' : String} : (e.inset hole).le (.overwrite ⟨call.start, hole.start⟩ text') =
    e.le (.overwrite ⟨call.start, hole.start⟩ text) := by
  have := hole.inset_cases e.span.start
  have := hole.inset_cases e.span.stop
  have := h.headed
  rw [Bool.eq_iff_iff, Edit.le_iff, Edit.le_iff]
  simp only [Edit.inset_span, Span.insetSpan_start, Span.insetSpan_stop, Edit.inset_placement, Edit.overwrite]
  have hstart : hole.inset e.span.start < call.start ↔ e.span.start < call.start := by omega
  have hsame : hole.inset e.span.start = call.start ↔ e.span.start = call.start := by omega
  have hstop : hole.start ≤ hole.inset e.span.stop ↔ hole.start ≤ e.span.stop := by omega
  rw [hstart, hsame, hstop]

theorem le_end {e : Edit} (he : e ∈ front ++ back) {text text' : String} :
    (e.inset hole).le (.overwrite ⟨hole.stop + 12, call.stop + 12⟩ text') =
      e.le (.overwrite ⟨hole.stop, call.stop⟩ text) := by
  have := hole.inset_cases e.span.start
  have := h.ordered e he
  have := h.headed
  have := h.ended
  rw [Bool.eq_iff_iff, Edit.le_iff, Edit.le_iff]
  simp only [Edit.inset_span, Span.insetSpan_start, Edit.inset_placement, Edit.overwrite]
  constructor
  · rintro (hlt | ⟨heq, -⟩)
    · by_cases hstart : e.span.start = hole.stop
      · refine Or.inr ⟨hstart, Or.inl ?_⟩
        cases hp : e.placement with
        | overwrite =>
          have := h.replaced e he hp
          omega
        | prepend | append => decide
      · omega
    · omega
  · rintro (hlt | ⟨heq, -⟩) <;> omega

omit h hproper in
theorem late_head {e : Edit} {text : String} (hlt : call.start < e.span.start) :
    e.le (.overwrite ⟨call.start, hole.start⟩ text) = false := by
  rw [Bool.eq_false_iff]
  intro hle
  have := Edit.start_le_of_le hle
  simp only [Edit.overwrite] at this
  omega

theorem arrange_bare {texts : List String} : Edit.arrange (bareEdits call hole texts front back) =
    Edit.arrange ((front ++ back).filter (·.le (.overwrite ⟨call.start, hole.start⟩ "\x7b "))) ++
      .overwrite ⟨call.start, hole.start⟩ "\x7b " :: Edit.arrange
        ((front ++ (wrapEdits call hole texts ++ back)).filter
        (!·.le (.overwrite ⟨call.start, hole.start⟩ "\x7b "))) := by
  have hlate : ∀ e ∈ wrapEdits call hole texts, e.le (.overwrite ⟨call.start, hole.start⟩ "\x7b ") = false :=
    fun e he =>
    late_head (Nat.lt_of_lt_of_le h.headed (wrapEdits_start hproper h.ended e he).1)
  have hnone : (wrapEdits call hole texts).filter (·.le (.overwrite ⟨call.start, hole.start⟩ "\x7b ")) = [] :=
    List.filter_eq_nil_iff.mpr fun e he => by rw [hlate e he]; exact Bool.false_ne_true
  rw [bareEdits, Edit.arrange_around fun e he hle => ?_]
  · simp only [List.filter_append, hnone, List.nil_append]
  · rcases List.mem_append.mp he with he | he
    · exact h.not_head hproper (List.mem_append_left _ he) hle
    · rcases List.mem_append.mp he with he | he
      · rw [hlate e he] at hle
        cases hle
      · exact h.not_head hproper (List.mem_append_right _ he) hle

theorem arrange_literal {texts : List String} : Edit.arrange (literalEdits call hole texts front back) =
    (Edit.arrange ((front ++ back).filter (·.le (.overwrite ⟨call.start, hole.start⟩ "\x7b ")))).map
      (Edit.inset hole) ++
      .remove call.start hole.start :: Edit.arrange
        ((front.map (Edit.inset hole) ++ (unwrapEdits call hole texts ++
        back.map (Edit.inset hole))).filter (!·.le (.overwrite ⟨call.start, hole.start⟩ ""))) := by
  have hlate : ∀ e ∈ unwrapEdits call hole texts, e.le (.overwrite ⟨call.start, hole.start⟩ "") = false :=
    fun e he =>
    late_head (Nat.lt_of_lt_of_le h.headed (unwrapEdits_start hproper h.ended e he).1)
  have hnone : (unwrapEdits call hole texts).filter (·.le (.overwrite ⟨call.start, hole.start⟩ "")) = [] :=
    List.filter_eq_nil_iff.mpr fun e he => by rw [hlate e he]; exact Bool.false_ne_true
  have hmoved := @Edit.filter_inset hole (front ++ back) (·.le (.overwrite ⟨call.start, hole.start⟩ "\x7b "))
    (·.le (.overwrite ⟨call.start, hole.start⟩ "")) fun e _ => h.le_head hproper e
  rw [List.map_append, List.filter_append] at hmoved
  have hback : ∀ e ∈ front ++ back, (e.inset hole).le (.overwrite ⟨call.start, hole.start⟩ "") = true →
      (Edit.overwrite ⟨call.start, hole.start⟩ "").le (e.inset hole) = false := by
    intro e he hle
    by_contra hge
    obtain ⟨hp, hstart, hspan⟩ := Edit.tie_of_le hle (Bool.eq_true_of_not_eq_false hge)
    have hspan := hspan hp
    have := hole.inset_cases e.span.stop
    have hreplaced := congrArg Span.stop hspan
    simp only [Edit.inset_span, Span.insetSpan_stop, Edit.overwrite] at hreplaced
    omega
  rw [literalEdits, Edit.remove_eq, Edit.arrange_around fun e he hle => ?_]
  · rw [← Edit.arrange_inset, ← hmoved, List.filter_append, List.filter_append, hnone, List.nil_append]
  · rcases List.mem_append.mp he with he | he
    · obtain ⟨f, hf, rfl⟩ := List.mem_map.mp he
      exact hback f (List.mem_append_left _ hf) hle
    · rcases List.mem_append.mp he with he | he
      · rw [hlate e he] at hle
        cases hle
      · obtain ⟨f, hf, rfl⟩ := List.mem_map.mp he
        exact hback f (List.mem_append_right _ hf) hle

variable (hfrom : ∀ e ∈ front ++ back, hole.start ≤ e.span.start)
include hfrom

theorem arrange_wrapped (texts : List String) : Edit.arrange (front ++ (wrapEdits call hole texts ++ back)) =
    (texts.reverse ++ ["render: "]).map (Edit.prepend hole.start) ++
      Edit.arrange (front ++ .overwrite ⟨hole.stop, call.stop⟩ " \x7d" :: back) := by
  have hlast : ∀ f ∈ back, hole.start ≤ f.span.start ∧ (f.placement = .prepend → f.span.start ≠ hole.start) :=
    fun f hf => ⟨hfrom f (List.mem_append_right _ hf), h.first f hf⟩
  have hown : ∀ f ∈ front ++ [.prepend hole.start "render: ", .overwrite ⟨hole.stop, call.stop⟩ " \x7d"],
      hole.start ≤ f.span.start := by
    intro f hf
    simp only [List.mem_append, List.mem_cons, List.not_mem_nil, or_false] at hf
    rcases hf with hf | rfl | rfl
    · exact hfrom f (List.mem_append_left _ hf)
    · exact Nat.le_refl _
    · simp only [Edit.overwrite]; omega
  have hend : ∀ f ∈ Edit.overwrite ⟨hole.stop, call.stop⟩ " \x7d" :: back,
      hole.start ≤ f.span.start ∧ (f.placement = .prepend → f.span.start ≠ hole.start) := by
    intro f hf
    rcases List.mem_cons.mp hf with rfl | hf
    · refine ⟨by simp only [Edit.overwrite]; omega, fun hp => ?_⟩
      cases hp
    · exact hlast f hf
  have hsplit := Edit.arrange_prepends hown hlast texts
  rw [List.append_assoc, List.append_assoc] at hsplit
  refine hsplit.trans ?_
  rw [List.cons_append, List.cons_append, List.nil_append,
    Edit.arrange_first (fun f hf => hfrom f (List.mem_append_left _ hf)) hend]
  simp

omit h in
theorem unwrapped_from : ∀ e ∈ front.map (Edit.inset hole) ++ .remove (hole.stop + 12) (call.stop + 12) ::
    back.map (Edit.inset hole), hole.start + 10 ≤ e.span.start := by
  have hmoved : ∀ f ∈ front ++ back, hole.start + 10 ≤ (f.inset hole).span.start := by
    intro f hf
    have := hole.inset_cases f.span.start
    have := hfrom f hf
    simp only [Edit.inset_span, Span.insetSpan_start]
    omega
  intro e he
  rw [List.mem_append, List.mem_cons] at he
  rcases he with he | rfl | he
  · obtain ⟨f, hf, rfl⟩ := List.mem_map.mp he
    exact hmoved f (List.mem_append_left _ hf)
  · simp only [Edit.remove]; omega
  · obtain ⟨f, hf, rfl⟩ := List.mem_map.mp he
    exact hmoved f (List.mem_append_right _ hf)

omit h in
theorem arrange_unwrapped (texts : List String) :
    Edit.arrange (front.map (Edit.inset hole) ++ (unwrapEdits call hole texts ++ back.map (Edit.inset hole))) =
      texts.reverse.map (Edit.prepend (hole.start + 2)) ++ Edit.arrange (front.map (Edit.inset hole) ++
        .remove (hole.stop + 12) (call.stop + 12) :: back.map (Edit.inset hole)) := by
  have hfar := @unwrapped_from hole call front back hproper hfrom
  have hsplit :=
    @Edit.arrange_prepends (front.map (Edit.inset hole) ++ [.remove (hole.stop + 12) (call.stop + 12)])
    (back.map (Edit.inset hole)) (hole.start + 2) ?_ ?_ texts
  · rw [List.append_assoc, List.append_assoc] at hsplit
    exact hsplit
  · intro f hf
    rw [List.append_cons] at hfar
    have := hfar f (List.mem_append_left _ hf)
    omega
  · intro f hf
    have := hfar f (List.mem_append_right _ (List.mem_cons_of_mem _ hf))
    exact ⟨by omega, fun _ => by omega⟩

end

/-! ## From the head to the end -/

section
variable {hole call : Span} {front back : List Edit} (h : Beside hole call front back) {bare literal : Draft}
  (ht : Draft.Twins hole bare literal) {inner outer : Span → Except RenderError (List Char)} {stop : Nat}
  (hmoved : ∀ range, hole.Aligned call range → ∀ moved, inner range = .ok moved →
    outer (hole.insetSpan range) = .ok moved)
include h ht hmoved

theorem splice_function {text : List Char} (htext : bare.splice inner stop hole.start
      (Edit.arrange (front ++ .overwrite ⟨hole.stop, call.stop⟩ " \x7d" :: back)) = .ok text) :
    literal.splice outer (hole.inset stop) (hole.start + 10) (Edit.arrange (front.map (Edit.inset hole) ++
      .remove (hole.stop + 12) (call.stop + 12) :: back.map (Edit.inset hole))) = .ok text := by
  have hproper := ht.proper
  have hheaded := h.headed
  have hended := h.ended
  have hstart : hole.inset hole.start = hole.start + 10 := Span.inset_of_mem (Nat.le_refl _) (by omega)
  have hcall : hole.inset call.stop = call.stop + 12 := Span.inset_of_gt (by omega) hended
  have hend : ∀ e ∈ front ++ back, (e.inset hole).le (.remove (hole.stop + 12) (call.stop + 12)) =
      e.le (.overwrite ⟨hole.stop, call.stop⟩ " \x7d") := fun e he => by
    rw [Edit.remove_eq, h.le_end hproper he]
  have hmem : ∀ {p : Edit → Bool}, ∀ e ∈ Edit.arrange ((front ++ back).filter p), e ∈ front ++ back ∧ p e = true :=
    fun e he => List.mem_filter.mp (Edit.mem_arrange.mp he)
  rw [Edit.arrange_around fun e he => h.not_end hproper he] at htext
  rw [Edit.arrange_around, ← List.map_append, Edit.filter_inset hend, Edit.filter_inset fun e he => congrArg not
    (hend e he), Edit.arrange_inset, Edit.arrange_inset, ← hstart]
  · refine ht.splice_inset (P := fun pos => hole.start ≤ pos ∧ pos ≤ hole.stop) ?_
      (fun e he range hr => hmoved range (h.refers e (hmem e he).1 range hr)) ?_ ⟨Nat.le_refl _, by omega⟩ htext
    · rintro e he pos ⟨hlow, -⟩ hle
      obtain ⟨hin, hbefore⟩ := hmem e he
      have hstop : e.span.start ≤ hole.stop := Edit.start_le_of_le hbefore
      refine ⟨Or.inr (Or.inl ⟨hlow, hstop⟩), ?_⟩
      have := h.ordered e hin
      by_cases ho : e.placement = .overwrite
      · have := h.replaced e hin ho
        omega
      · have := h.point e hin ho
        omega
    · rintro pos text ⟨hlow, hhigh⟩ htext
      obtain ⟨kept, content, rest, hkept, hcontent, hrest, rfl⟩ :=
        (Draft.splice_cons (by simpa [Edit.overwrite] using hhigh)).mp htext
      rw [Edit.overwrite, Draft.renderContent_ofText] at hcontent
      cases hcontent
      have hpos : hole.inset pos = pos + 10 := Span.inset_of_mem hlow hhigh
      have hstop : hole.inset hole.stop = hole.stop + 10 := Span.inset_of_mem (by omega) (Nat.le_refl _)
      have hlevel := ht.slice (Or.inr (Or.inl ⟨hlow, Nat.le_refl hole.stop⟩))
      rw [hstop] at hlevel
      refine (Draft.splice_cons (by simp only [Edit.remove]; omega)).mpr
        ⟨kept ++ " \x7d".toList, [], rest, ?_, rfl, ?_, by simp⟩
      · exact Draft.slice_append (hlevel.trans hkept) ht.closing
      · simp only [Edit.remove, ← hcall]
        refine ht.splice_behind (fun e he => h.ordered e (hmem e he).1)
          (fun e he range hr => hmoved range (h.refers e (hmem e he).1 range hr)) hended hrest
  · intro e he hle
    rw [← List.map_append] at he
    obtain ⟨f, hf, rfl⟩ := List.mem_map.mp he
    by_contra hback
    obtain ⟨hp, hsame, -⟩ := Edit.tie_of_le hle (Bool.eq_true_of_not_eq_false hback)
    have hinset := hole.inset_cases f.span.start
    have hreplaced := h.replaced f hf hp
    have := h.ordered f hf
    simp only [Edit.inset_span, Span.insetSpan_start, Edit.remove] at hsame
    omega

theorem splice_members (hfrom : ∀ e ∈ front ++ back, hole.start ≤ e.span.start) (texts : List String)
    {text : List Char}
    (htext : bare.splice inner stop hole.start (Edit.arrange (front ++ (wrapEdits call hole texts ++ back))) =
      .ok text) :
    literal.splice outer (hole.inset stop) hole.start (Edit.arrange (front.map (Edit.inset hole) ++
      (unwrapEdits call hole texts ++ back.map (Edit.inset hole)))) = .ok ("\x7b ".toList ++ text) := by
  have hproper := ht.proper
  have hfar : ∀ e ∈ Edit.arrange (front.map (Edit.inset hole) ++ .remove (hole.stop + 12) (call.stop + 12) ::
      back.map (Edit.inset hole)), hole.start + 10 ≤ e.span.start :=
    fun e he => unwrapped_from hproper hfrom e (Edit.mem_arrange.mp he)
  rw [h.arrange_wrapped hproper hfrom, Draft.splice_prepends ht.boundary] at htext
  obtain ⟨rest, hrest, rfl⟩ := htext
  have hbound : IsBoundary literal.source (hole.start + 2) :=
    (slice?_isSome_iff.mp (Option.isSome_of_eq_some (Draft.slice_eq_ok.mp ht.key))).2.1
  have hkey := Draft.splice_copy ht.key hfar (h.splice_function ht hmoved hrest)
  have hmembers := (@Draft.splice_prepends _ _ _ _ hbound _ texts.reverse _).mpr ⟨_, hkey, rfl⟩
  rw [arrange_unwrapped hproper hfrom, Draft.splice_copy ht.opening (fun e he => ?_) hmembers]
  · simp
  · rcases List.mem_append.mp he with he | he
    · obtain ⟨t, -, rfl⟩ := List.mem_map.mp he
      exact Nat.le_refl _
    · have := hfar e he
      omega

omit h ht hmoved in
theorem not_le_head {pos : Nat} {text : String} {e : Edit} (hpos : call.start < pos) (hle : pos ≤ e.span.start) :
    (!e.le (.overwrite ⟨call.start, hole.start⟩ text)) = true := by
  rw [late_head (Nat.lt_of_lt_of_le hpos hle)]
  rfl

/-- Where the splice comes to the head of the call, the one text opens the literal and the other keeps it. -/
theorem splice_head (texts : List String) {pos : Nat} (hpos : pos ≤ call.start) {text : List Char}
    (htext : bare.splice inner stop pos (.overwrite ⟨call.start, hole.start⟩ "\x7b " ::
      Edit.arrange ((front ++ (wrapEdits call hole texts ++ back)).filter
        (!·.le (.overwrite ⟨call.start, hole.start⟩ "\x7b ")))) = .ok text) :
    literal.splice outer (hole.inset stop) pos (.remove call.start hole.start ::
      Edit.arrange
        ((front.map (Edit.inset hole) ++ (unwrapEdits call hole texts ++ back.map (Edit.inset hole))).filter
        (!·.le (.overwrite ⟨call.start, hole.start⟩ "")))) = .ok text := by
  have hproper := ht.proper
  have hheaded := h.headed
  have hwrap := @wrapEdits_start call hole texts hproper h.ended
  have hunwrap := @unwrapEdits_start call hole texts hproper h.ended
  have hsame : ∀ {pos : Nat}, pos ≤ call.start → hole.inset pos = pos := fun hpos => Span.inset_of_lt (by omega)
  have hinset : ∀ es : List Edit, (es.map (Edit.inset hole)).filter (hole.start ≤ ·.span.start) =
      (es.filter (hole.start ≤ ·.span.start)).map (Edit.inset hole) := fun es => Edit.filter_inset fun e _ => by
    have := hole.inset_cases e.span.start
    simp only [Edit.inset_span, Span.insetSpan_start]
    exact decide_eq_decide.mpr (by omega)
  obtain ⟨kept, content, rest, hkept, hcontent, hrest, rfl⟩ :=
    (Draft.splice_cons (by simpa [Edit.overwrite] using hpos)).mp htext
  rw [Edit.overwrite, Draft.renderContent_ofText] at hcontent
  cases hcontent
  have hlevel := ht.slice (Or.inl hheaded : hole.Level pos call.start)
  rw [hsame (Nat.le_refl _), hsame hpos] at hlevel
  have hrest : bare.splice inner stop hole.start
    (Edit.arrange ((front ++ (wrapEdits call hole texts ++ back)).filter
      (!·.le (.overwrite ⟨call.start, hole.start⟩ "\x7b ")))) = .ok rest := hrest
  rw [Draft.splice_from fun e _ => not_le_head hheaded, List.filter_append, List.filter_append,
    List.filter_eq_self.mpr fun e he => decide_eq_true (hwrap e he).1] at hrest
  have hfrom := h.filter (hole.start ≤ ·.span.start)
  have hmembers := hfrom.splice_members ht hmoved ?_ texts hrest
  · refine (Draft.splice_cons hpos).mpr ⟨kept, [], "\x7b ".toList ++ rest, hlevel.trans hkept, rfl, ?_, by simp⟩
    have hstop : (Edit.remove call.start hole.start).span.stop = hole.start := rfl
    rw [hstop, Draft.splice_from fun e _ => not_le_head hheaded, List.filter_append, List.filter_append,
      List.filter_eq_self.mpr fun e he => decide_eq_true (hunwrap e he).1, hinset, hinset]
    exact hmembers
  · rw [← List.filter_append]
    exact fun e he => of_decide_eq_true (List.mem_filter.mp he).2

theorem splice_past (texts : List String) {pos : Nat} (hpos : call.stop ≤ pos) {text : List Char}
    (htext : bare.splice inner stop pos (.overwrite ⟨call.start, hole.start⟩ "\x7b " ::
      Edit.arrange ((front ++ (wrapEdits call hole texts ++ back)).filter
        (!·.le (.overwrite ⟨call.start, hole.start⟩ "\x7b ")))) = .ok text) :
    literal.splice outer (hole.inset stop) (hole.inset pos) (.remove call.start hole.start ::
      Edit.arrange
        ((front.map (Edit.inset hole) ++ (unwrapEdits call hole texts ++ back.map (Edit.inset hole))).filter
        (!·.le (.overwrite ⟨call.start, hole.start⟩ "")))) = .ok text := by
  have hproper := ht.proper
  have hheaded := h.headed
  have hended := h.ended
  have hmem : ∀ {p : Edit → Bool}, ∀ e ∈ Edit.arrange ((front ++ back).filter p), e ∈ front ++ back :=
    fun e he => (List.mem_filter.mp (Edit.mem_arrange.mp he)).1
  have hinset : hole.inset pos = pos + 12 := Span.inset_of_gt (by omega) (by omega)
  have hwrapped : (wrapEdits call hole texts).filter (pos ≤ ·.span.start) = [] :=
    List.filter_eq_nil_iff.mpr fun e he => by
      have := (wrapEdits_start hproper hended e he).2
      simp only [decide_eq_true_eq]
      omega
  have hunwrapped : (unwrapEdits call hole texts).filter (hole.inset pos ≤ ·.span.start) = [] :=
    List.filter_eq_nil_iff.mpr fun e he => by
      have := (unwrapEdits_start hproper hended e he).2
      simp only [decide_eq_true_eq]
      omega
  have hbehind : ∀ es : List Edit, (es.map (Edit.inset hole)).filter (hole.inset pos ≤ ·.span.start) =
      (es.filter (pos ≤ ·.span.start)).map (Edit.inset hole) := fun es => Edit.filter_inset fun e _ => by
    simp only [Edit.inset_span, Span.insetSpan_start]
    exact decide_eq_decide.mpr Span.inset_le_iff
  rw [Draft.splice, if_pos (by simp only [Edit.overwrite]; omega), Draft.splice_from fun e _ =>
    not_le_head (by omega), List.filter_append, List.filter_append, hwrapped, List.nil_append,
      ← List.filter_append] at htext
  rw [Draft.splice, if_pos (by simp only [Edit.remove]; omega), Draft.splice_from fun e _ =>
    not_le_head (by omega), List.filter_append, List.filter_append, hunwrapped, List.nil_append, hbehind,
      hbehind, ← List.map_append,
    ← List.filter_append, Edit.arrange_inset]
  exact ht.splice_behind (fun e he => h.ordered e (hmem e he))
    (fun e he range hr => hmoved range (h.refers e (hmem e he) range hr)) (by omega) htext

theorem splice_call (texts : List String) {start : Nat} (hstart : start ≤ call.start) {text : List Char}
    (htext : bare.splice inner stop start (Edit.arrange (bareEdits call hole texts front back)) = .ok text) :
    literal.splice outer (hole.inset stop) start (Edit.arrange (literalEdits call hole texts front back)) =
      .ok text := by
  have hproper := ht.proper
  have hheaded := h.headed
  have hended := h.ended
  have hsame : ∀ {pos : Nat}, pos ≤ call.start → hole.inset pos = pos := fun hpos => Span.inset_of_lt (by omega)
  have hmem : ∀ {p : Edit → Bool}, ∀ e ∈ Edit.arrange ((front ++ back).filter p), e ∈ front ++ back ∧ p e = true :=
    fun e he => List.mem_filter.mp (Edit.mem_arrange.mp he)
  rw [h.arrange_bare hproper] at htext
  rw [h.arrange_literal hproper, ← hsame hstart]
  -- a step in front of the head stays there or goes over the whole call
  refine ht.splice_inset (P := fun pos => pos ≤ call.start ∨ call.stop ≤ pos) ?_
    (fun e he range hr => hmoved range (h.refers e (hmem e he).1 range hr)) ?_ (Or.inl hstart) htext
  · intro e he pos _ hpos
    obtain ⟨hin, hle⟩ := hmem e he
    have hfirst : e.span.start ≤ call.start := Edit.start_le_of_le hle
    refine ⟨Or.inl (by omega), ?_⟩
    by_cases ho : e.placement = .overwrite
    · have := h.replaced e hin ho
      have := h.ordered e hin
      by_cases heq : e.span.start = call.start
      · have hstop : hole.start ≤ e.span.stop := Edit.stop_le_of_le hle heq ho ho
        omega
      · omega
    · have := h.point e hin ho
      omega
  · rintro pos text (hbefore | hbehind) htext
    · rw [hsame hbefore]
      exact h.splice_head ht hmoved texts hbefore htext
    · exact h.splice_past ht hmoved texts hbehind htext

end

end Beside

/-! ## Ranges -/

theorem Span.Level.mono {hole : Span} {lo lo' hi hi' : Nat} (h : hole.Level lo hi) (hlo : lo ≤ lo')
    (hhi : hi' ≤ hi) :
    hole.Level lo' hi' := by
  unfold Level at *
  omega

theorem Draft.renderRange_deeper {draft : Draft} :
    ∀ {depth depth' : Nat} {range : Span} {nested : Bool} {text : List Char}, depth ≤ depth' →
      draft.renderRange depth range nested = .ok text → draft.renderRange depth' range nested = .ok text
  | 0, _, _, _, _, _, h => by cases h
  | depth + 1, depth', range, nested, text, hle, h => by
    obtain ⟨depth', rfl⟩ : ∃ n, depth' = n + 1 := ⟨depth' - 1, by omega⟩
    rw [renderRange] at h ⊢
    exact splice_mono rfl (fun _ _ _ _ _ hmoved => renderRange_deeper (Nat.le_of_succ_le_succ hle) hmoved) h

section
variable {call hole : Span} {texts : List String} {front back : List Edit} {p : Edit → Bool}

theorem filter_bareEdits (hhead : p (.overwrite ⟨call.start, hole.start⟩ "\x7b ") = true)
    (hrest : ∀ e ∈ wrapEdits call hole texts, p e = true) : (bareEdits call hole texts front back).filter p =
      bareEdits call hole texts (front.filter p) (back.filter p) := by
  rw [bareEdits, List.filter_append, List.filter_cons_of_pos hhead, List.filter_append,
    List.filter_eq_self.mpr hrest, bareEdits]

theorem filter_literalEdits {q : Edit → Bool} (hhead : q (.remove call.start hole.start) = true)
    (hrest : ∀ e ∈ unwrapEdits call hole texts, q e = true) (hq : ∀ e : Edit, q (e.inset hole) = p e) :
    (literalEdits call hole texts front back).filter q = literalEdits call hole texts (front.filter p)
    (back.filter p) := by
  rw [literalEdits, List.filter_append, List.filter_cons_of_pos hhead, List.filter_append,
    List.filter_eq_self.mpr hrest, Edit.filter_inset fun e _ => hq e, Edit.filter_inset fun e _ =>
      hq e, literalEdits]

theorem filter_bareEdits_none (hhead : p (.overwrite ⟨call.start, hole.start⟩ "\x7b ") = false)
    (hrest : ∀ e ∈ wrapEdits call hole texts, p e = false) : (bareEdits call hole texts front back).filter p =
      (front ++ back).filter p := by
  have hnone : (wrapEdits call hole texts).filter p = [] := List.filter_eq_nil_iff.mpr fun e he => by
    simp [hrest e he]
  rw [bareEdits, List.filter_append, List.filter_cons_of_neg (by simp [hhead]), List.filter_append,
    hnone, List.nil_append, List.filter_append]

theorem filter_literalEdits_none {q : Edit → Bool} (hhead : q (.remove call.start hole.start) = false)
    (hrest : ∀ e ∈ unwrapEdits call hole texts, q e = false) (hq : ∀ e : Edit, q (e.inset hole) = p e) :
    (literalEdits call hole texts front back).filter q = ((front ++ back).filter p).map (Edit.inset hole) := by
  have hnone : (unwrapEdits call hole texts).filter q = [] := List.filter_eq_nil_iff.mpr fun e he => by
    simp [hrest e he]
  rw [literalEdits, List.filter_append, List.filter_cons_of_neg (by simp [hhead]), List.filter_append,
    hnone, List.nil_append, ← List.filter_append, ← List.map_append, Edit.filter_inset fun e _ => hq e]

theorem isWithin_prepend_inside {range : Span} {nested : Bool} {pos : Nat} {text : String}
    (hlo : range.start < pos) (hhi : pos < range.stop) :
    (Edit.prepend pos text).isWithin range nested = true := by
  cases nested with
  | false => exact Bool.and_eq_true_iff.mpr ⟨decide_eq_true (Nat.le_of_lt hlo), decide_eq_true (Nat.le_of_lt hhi)⟩
  | true => exact Bool.and_eq_true_iff.mpr ⟨decide_eq_true hlo, decide_eq_true hhi⟩

theorem isWithin_overwrite {range span : Span} {nested : Bool} {text : String} :
    (Edit.overwrite span text).isWithin range nested = range.contains span := rfl

end

namespace Beside

section
variable {hole call : Span} {front back : List Edit} (h : Beside hole call front back) {bare literal : Draft}
  (ht : Draft.Twins hole bare literal) {texts : List String}
include h ht

theorem filter_around {range : Span} (haround : range.start ≤ call.start ∧ call.stop ≤ range.stop)
    (nested : Bool) :
    (bareEdits call hole texts front back).filter (·.isWithin range nested) =
        bareEdits call hole texts (front.filter (·.isWithin range nested))
          (back.filter (·.isWithin range nested)) ∧
      (literalEdits call hole texts front back).filter (·.isWithin (hole.insetSpan range) nested) =
        literalEdits call hole texts (front.filter (·.isWithin range nested))
          (back.filter (·.isWithin range nested)) := by
  have := h.headed
  have := h.ended
  have := ht.proper
  have hlo := hole.inset_of_lt (a := range.start) (by omega)
  have hhi : hole.inset range.stop = range.stop + 12 := Span.inset_of_gt (by omega) (by omega)
  constructor
  · refine filter_bareEdits ?_ fun e he => ?_
    · rw [isWithin_overwrite, Span.contains_iff]
      simp only
      omega
    · rcases List.mem_cons.mp he with rfl | he
      · exact isWithin_prepend_inside (by omega) (by omega)
      · rcases List.mem_cons.mp he with rfl | he
        · rw [isWithin_overwrite, Span.contains_iff]
          simp only
          omega
        · obtain ⟨t, -, rfl⟩ := List.mem_map.mp he
          exact isWithin_prepend_inside (by omega) (by omega)
  · refine filter_literalEdits ?_ (fun e he => ?_) fun e => Edit.inset_isWithin e range nested
    · rw [Edit.remove_eq, isWithin_overwrite, Span.contains_iff]
      simp only [Span.insetSpan_start, Span.insetSpan_stop]
      omega
    · rcases List.mem_cons.mp he with rfl | he
      · rw [Edit.remove_eq, isWithin_overwrite, Span.contains_iff]
        simp only [Span.insetSpan_start, Span.insetSpan_stop]
        omega
      · obtain ⟨t, -, rfl⟩ := List.mem_map.mp he
        exact isWithin_prepend_inside (by simp only [Span.insetSpan_start]; omega)
          (by simp only [Span.insetSpan_stop]; omega)

theorem filter_level {range : Span} (hlevel : hole.Level range.start range.stop) :
    (bareEdits call hole texts front back).filter (·.isWithin range true) =
      (front ++ back).filter (·.isWithin range true) ∧
      (literalEdits call hole texts front back).filter (·.isWithin (hole.insetSpan range) true) =
        ((front ++ back).filter (·.isWithin range true)).map (Edit.inset hole) := by
  have := h.headed
  have := h.ended
  have := ht.proper
  have := hole.inset_cases range.start
  have := hole.inset_cases range.stop
  unfold Span.Level at hlevel
  -- an edit that starts in the range or is contained in it
  have hprepend : ∀ {r : Span} {pos : Nat} {text : String}, pos ≤ r.start ∨ r.stop ≤ pos →
      (Edit.prepend pos text).isWithin r true = false := by
    intro r pos text hout
    exact Bool.and_eq_false_iff.mpr
      (hout.imp (fun h => decide_eq_false (Nat.not_lt.mpr h)) fun h => decide_eq_false (Nat.not_lt.mpr h))
  have hoverwrite : ∀ {r s : Span} {text : String}, s.start < r.start ∨ r.stop < s.stop →
      (Edit.overwrite s text).isWithin r true = false := by
    intro r s text hout
    rw [isWithin_overwrite, Bool.eq_false_iff, ne_eq, Span.contains_iff]
    omega
  constructor
  · refine filter_bareEdits_none (hoverwrite (by simp only; omega)) fun e he => ?_
    rcases List.mem_cons.mp he with rfl | he
    · exact hprepend (by omega)
    · rcases List.mem_cons.mp he with rfl | he
      · exact hoverwrite (by simp only; omega)
      · obtain ⟨t, -, rfl⟩ := List.mem_map.mp he
        exact hprepend (by omega)
  · refine filter_literalEdits_none ?_ (fun e he => ?_) fun e => Edit.inset_isWithin e range true
    · rw [Edit.remove_eq]
      exact hoverwrite (by simp only [Span.insetSpan_start, Span.insetSpan_stop]; omega)
    · rcases List.mem_cons.mp he with rfl | he
      · rw [Edit.remove_eq]
        exact hoverwrite (by simp only [Span.insetSpan_start, Span.insetSpan_stop]; omega)
      · obtain ⟨t, -, rfl⟩ := List.mem_map.mp he
        exact hprepend (by simp only [Span.insetSpan_start, Span.insetSpan_stop]; omega)

variable (hbare : bare.edits = bareEdits call hole texts front back)
  (hliteral : literal.edits = literalEdits call hole texts front back)
include hbare hliteral

/-- What is rendered of a range is rendered of the same range in the other text. -/
theorem renderRange_inset :
    ∀ {depth : Nat} {range : Span} {nested : Bool} {text : List Char}, hole.Aligned call range →
    (nested = false → range.start ≤ call.start ∧ call.stop ≤ range.stop) →
      bare.renderRange depth range nested = .ok text →
      literal.renderRange depth (hole.insetSpan range) nested = .ok text
  | 0, _, _, _, _, _, htext => by cases htext
  | depth + 1, range, nested, text, haligned, houter, htext => by
    have hmoved : ∀ range, hole.Aligned call range → ∀ moved, bare.renderRange depth range true = .ok moved →
        literal.renderRange depth (hole.insetSpan range) true = .ok moved :=
      fun range haligned moved => renderRange_inset haligned (fun hn => nomatch hn)
    rw [Draft.renderRange, hbare] at htext
    rw [Draft.renderRange, hliteral]
    by_cases haround : range.start ≤ call.start ∧ call.stop ≤ range.stop
    · obtain ⟨hown, hown'⟩ := @filter_around _ _ _ _ h _ _ ht texts _ haround nested
      have hstart : hole.inset range.start = range.start := Span.inset_of_lt (by have := h.headed; omega)
      rw [hown] at htext
      rw [hown', Span.insetSpan_start, Span.insetSpan_stop, hstart]
      exact (h.filter _).splice_call ht hmoved texts haround.1 htext
    · obtain ⟨hordered, hlevel⟩ := haligned.resolve_left haround
      obtain rfl : nested = true := Bool.eq_true_of_not_eq_false fun hn => haround (houter hn)
      obtain ⟨hown, hown'⟩ := @filter_level _ _ _ _ h _ _ ht texts _ hlevel
      have hmem : ∀ e ∈ Edit.arrange ((front ++ back).filter (·.isWithin range true)),
          e ∈ front ++ back ∧ e.isWithin range true = true :=
            fun e he => List.mem_filter.mp (Edit.mem_arrange.mp he)
      rw [hown] at htext
      rw [hown', Edit.arrange_inset]
      rw [← List.append_nil (Edit.arrange _)] at htext
      rw [← List.append_nil ((Edit.arrange _).map _)]
      refine ht.splice_inset (P := fun pos => range.start ≤ pos ∧ pos ≤ range.stop) ?_
        (fun e he r hr => hmoved r (h.refers e (hmem e he).1 r hr)) ?_ ⟨Nat.le_refl _, hordered⟩ htext
      · rintro e he pos ⟨hlo, hhi⟩ hpos
        obtain ⟨hin, hwithin⟩ := hmem e he
        have hstop := Edit.isWithin_stop (h.point e hin) hwithin
        have hordered := h.ordered e hin
        exact ⟨hlevel.mono hlo (by omega), by omega, hstop⟩
      · rintro pos text ⟨hlo, hhi⟩ htext
        rw [Draft.splice] at htext ⊢
        exact (ht.slice (hlevel.mono hlo (Nat.le_refl _))).trans htext

theorem render_inset (hfits : call.stop ≤ byteLength bare.source)
    (hlength : byteLength literal.source = byteLength bare.source + 12)
    {code code' : String} (hcode : bare.render = .ok code) (hcode' : literal.render = .ok code') :
      code' = code := by
  have := h.headed
  have := h.ended
  have := ht.proper
  have hstart : hole.inset 0 = 0 := Span.inset_of_lt (by omega)
  have hstop : hole.inset (byteLength bare.source) = byteLength literal.source := by
    rw [Span.inset_of_gt (by omega) (by omega), hlength]
  have htext :=
    h.renderRange_inset ht hbare hliteral (Or.inl ⟨Nat.zero_le _, hfits⟩) (fun _ => ⟨Nat.zero_le _, hfits⟩)
    (Draft.render_eq_ok hcode)
  rw [Span.insetSpan, hstart, hstop] at htext
  have htext' := Draft.render_eq_ok hcode'
  -- both depths are enough for the other draft
  have hdeep := Draft.renderRange_deeper (Nat.le_max_left (bare.edits.length + 1) (literal.edits.length + 1)) htext
  rw [Draft.renderRange_deeper (Nat.le_max_right (bare.edits.length + 1) (literal.edits.length + 1)) htext']
    at hdeep
  exact String.toList_injective (Except.ok.inj hdeep)

end

end Beside

end ComponentMacros
