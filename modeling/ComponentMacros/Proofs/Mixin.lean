import ComponentMacros.Expansion.Key
import ComponentMacros.Proofs.Members

/-!
# Mixins as they are read

A map of injections that becomes a mixin is the only member of an object literal.
The literal is read as an operand whatever follows it, so a list that it is put into
is read with it as one more element: alone, behind the last element, or behind what
was given for the list. The list itself is read where a value is asked for. Where a
member is asked for, or the rest of one that has no colon, there is no list.
-/

namespace ComponentMacros

/-! ## States -/

def ReadState.marked (s : ReadState) (mark : Bool) : ReadState :=
  { s with moduleSyntax := s.moduleSyntax || mark }

theorem ReadState.StandsAt.marked {s : ReadState} {text : List Char} (hs : s.StandsAt text) (mark : Bool) :
    (s.marked mark).StandsAt text :=
  ⟨hs.rest, hs.token, hs.after⟩

theorem ReadState.StandsAt.of_marked {s : ReadState} {mark : Bool} {text : List Char}
    (hs : (s.marked mark).StandsAt text) :
    s.StandsAt text :=
  ⟨hs.rest, hs.token, hs.after⟩

theorem ReadState.marked_marked (s : ReadState) (first second : Bool) :
    (s.marked first).marked second = s.marked (first || second) := by
  simp only [marked, Bool.or_assoc]

theorem Reader.enclosed_read {s : ReadState} {α : Type} {p : Reader α} {a : α} {cursor : Cursor} {mark : Bool}
    (h : p { s with context := s.context.enclosed } =
      some (a, (ReadState.moveTo { s with context := s.context.enclosed } cursor).marked mark)) :
    enclosed p s = some (a, (s.moveTo cursor).marked mark) := by
  show within Context.enclosed p s = _
  rw [within_eq h]
  rfl

/-! ## Values -/

/-- Where an expression is asked for in the context, the text is read as the tree if `back` follows it. -/
def ReadsText (context : Context) (depth : Nat) (text : List Char) (tree : Nat → Tree) (mark : Bool)
    (back : List Char) : Prop :=
  ∀ s : ReadState, s.context = context → s.StandsAt (text ++ back) →
    readersTo depth .assignment s = some (tree s.start.offset, (s.past text back).marked mark)

def closers : List Char := [',', ']', ')', '\x7d', '\x7b']

namespace Reader

variable {s : ReadState}

theorem operator?_of_closer {c : Char} {rest : List Char} (hs : s.StandsAt (c :: rest)) (hc : c ∈ closers) :
    ∃ text after, text ∈ [",", "]", ")", "\x7d", "\x7b"] ∧ s.token = .punct text ∧
      operator? s = some (some (text, after), s) := by
  simp only [closers, List.mem_cons, List.not_mem_nil, or_false] at hc
  rcases hc with rfl | rfl | rfl | rfl | rfl
  · exact ⟨",", _, by decide, hs.token, operator?_punct hs.token (by decide) (by rw [hs.rest]; rfl)⟩
  · exact ⟨"]", _, by decide, hs.token, operator?_punct hs.token (by decide) (by rw [hs.rest]; rfl)⟩
  · exact ⟨")", _, by decide, hs.token, operator?_punct hs.token (by decide) (by rw [hs.rest]; rfl)⟩
  · exact ⟨"\x7d", _, by decide, hs.token, operator?_punct hs.token (by decide) (by rw [hs.rest]; rfl)⟩
  · exact ⟨"\x7b", _, by decide, hs.token, operator?_punct hs.token (by decide) (by rw [hs.rest]; rfl)⟩

theorem ends_of_closer {c : Char} {rest : List Char} (hs : s.StandsAt (c :: rest)) (hc : c ∈ closers) :
    s.token.continuesOperand = false ∧ s.token ≠ .punct "?" ∧ ∃ mark after, operator? s =
      some (some (mark, after), s) ∧
      binaryLevel? mark = none ∧ assignmentOperators.contains mark = false := by
  obtain ⟨mark, after, hmark, hmarked, hoperator⟩ := operator?_of_closer hs hc
  have hends : Token.continuesOperand (.punct mark) = false ∧ Token.punct mark ≠ .punct "?" ∧
    binaryLevel? mark = none ∧
      assignmentOperators.contains mark = false := by
    simp only [List.mem_cons, List.not_mem_nil, or_false] at hmark
    rcases hmark with rfl | rfl | rfl | rfl | rfl <;> decide
  rw [hmarked]
  exact ⟨hends.1, hends.2.1, mark, after, hoperator, hends.2.2⟩

theorem assignment_operand {depth : Nat} {t : Tree} {next : ReadState} {c : Char} {rest : List Char}
    (hcontext : s.context.arrowBeforeColon = false) (hstarts : StartsPart s)
    (hunary : readersTo (depth + 2) .unary s = some (t, next)) (hsame : next.context = s.context)
    (hnext : next.StandsAt (c :: rest)) (hc : c ∈ closers) :
    readersTo (depth + 4) .assignment s = some (t, next) := by
  obtain ⟨-, hquestion, mark, after, hoperator, hlevel, hassign⟩ := ends_of_closer hnext hc
  have hstep : binaryStep (readersTo (depth + 2)) s.start.offset 0 t next = some (none, next) := by
    rw [binaryStep, bind_of_eq_some hoperator]
    simp only [hlevel]
    rfl
  have hbinary : readersTo (depth + 3) (.binary 0) s = some (t, next) := by
    show binaryRule (readersTo (depth + 2)) 0 s = _
    rw [binaryRule, bind_of_eq_some (p := here) rfl, bind_of_eq_some (p := token) rfl]
    cases htoken : s.token with
    | privateName text => exact absurd htoken (hstarts.nameless text)
    | _ => exact (bind_of_eq_some hunary).trans (extend_of_none hstep)
  show assignmentRule (readersTo (depth + 3)) s = _
  have hinner : ({ s with context := { s.context with arrowBeforeColon := false } } : ReadState) = s := by
    rw [← hcontext]
  have hyield : isAtWord "yield" s = some (false, s) := by
    show some (s.token.isWord "yield", _) = _
    rw [hstarts.plain]
  rw [assignmentRule, bind_of_eq_some (p := context) rfl]
  refine (@within_eq _ _ _ _ _ next ?_).trans (by rw [← hsame])
  rw [hinner, bind_of_eq_some (p := context) rfl, bind_of_eq_some hyield, Bool.and_false,
    if_neg Bool.false_ne_true, bind_of_eq_some (hstarts.arrow _ _)]
  dsimp only
  rw [bind_of_eq_some (p := here) rfl, bind_of_eq_some hbinary, bind_of_eq_some (isAt_of_ne hquestion),
    if_neg Bool.false_ne_true, bind_of_eq_some hoperator]
  dsimp only
  rw [hassign, if_neg Bool.false_ne_true]
  rfl

theorem assignment_literal {depth : Nat} {t : Tree} {next : ReadState} {c : Char} {rest : List Char}
    (hcontext : s.context.arrowBeforeColon = false) {text : String} (htext : text = "[" ∨ text = "\x7b")
    (htoken : s.token = .punct text) (hprimary : primary (readersTo depth) s = some (t, next))
    (hsame : next.context = s.context) (hnext : next.StandsAt (c :: rest)) (hc : c ∈ closers) :
    readersTo (depth + 4) .assignment s = some (t, next) := by
  have hopens : s.token.opensOperand = true := by
    rw [htoken]
    rcases htext with rfl | rfl <;> decide
  refine assignment_operand hcontext (startsPart_of_opensOperand hopens) ?_ hsame hnext hc
  exact unary_whole hprimary (unaryRule_of_opening htext htoken) (ends_of_closer hnext hc).1

end Reader

/-! ## The mixin -/

def mixinHead : List Char := '\x7b' :: ' ' :: "inject".toList ++ [':', ' ']

def mixinText (map : List Char) : List Char := mixinHead ++ (map ++ [' ', '\x7d'])

theorem mixinText_append (map back : List Char) :
    mixinText map ++
      back = '\x7b' :: ' ' :: ("inject".toList ++ ':' :: ' ' :: (map ++ ' ' :: '\x7d' :: back)) := by
  simp [mixinText, mixinHead]

theorem byteLength_mixinHead : byteLength mixinHead = 10 := by decide

theorem byteLength_mixinText (map : List Char) : byteLength (mixinText map) = 10 + byteLength map + 2 := by
  rw [mixinText, byteLength_append, byteLength_append, byteLength_mixinHead, ← Nat.add_assoc]
  rfl

def mixinTree (map : List Char) (tree : Nat → Tree) (pos : Nat) : Tree :=
  .node .object ⟨pos, pos + byteLength (mixinText map)⟩
    [.node (.property .plain false false false) ⟨pos + 2, pos + 10 + byteLength map⟩
      [.node (.name "inject") ⟨pos + 2, pos + 8⟩ [], tree (pos + 10)]]

namespace Reader

variable {rules : Rules} {s last : ReadState}

theorem arrayLiteral_read {elements : List Tree} (hopen : s.token = .punct "[")
    (h : enclosed (elementsWithHoles (spreadable rules)) s.following = some (elements, last))
    (hclose : last.token = .punct "]") : arrayLiteral rules s =
      some (.node .array ⟨s.start.offset, last.after.offset⟩ elements, last.following) := by
  rw [arrayLiteral, bind_of_eq_some (p := here) rfl, bind_of_eq_some (expect_of_eq hopen), bind_of_eq_some h,
    bind_of_eq_some (expect_of_eq hclose)]
  rfl

end Reader

section
variable {context : Context} {depth : Nat} {map : List Char} {tree : Nat → Tree} {mark : Bool}
  (hopens : opensToken map = true)
include hopens

theorem mixin_member {back : List Char} (hmap : ReadsText context depth map tree mark (' ' :: '\x7d' :: back))
    {s : ReadState} (hcontext : s.context = context)
    (hs : s.StandsAt ("inject".toList ++ ':' :: ' ' :: (map ++ ' ' :: '\x7d' :: back))) :
    Reader.commaItems "\x7d" (Reader.objectMember (readersTo depth)) s =
      some ([.node (.property .plain false false false) ⟨s.start.offset, s.start.offset + 8 + byteLength map⟩
          [.node (.name "inject") ⟨s.start.offset, s.start.offset + 6⟩ [], tree (s.start.offset + 8)]],
        (s.moveTo ⟨[' '] ++ '\x7d' :: back, s.start.offset + 8 + byteLength map⟩).marked mark) := by
  obtain ⟨next, hmove, hnext, hstart, hread⟩ := @Reader.objectMember_named (readersTo depth) s "inject" _
    (by decide) (by decide) (opensToken_append hopens _) hs
  have hoffset : next.start.offset = s.start.offset + 8 := by rw [hstart]; rfl
  have hnextContext : next.context = context := by rw [hmove, ← hcontext]; rfl
  have hpast : next.past map (' ' :: '\x7d' :: back) =
      s.moveTo ⟨[' '] ++ '\x7d' :: back, s.start.offset + 8 + byteLength map⟩ := by
    rw [ReadState.past, Cursor.past, hoffset, hmove]
    rfl
  rw [hmap next hnextContext hnext, Option.map_some, hoffset, hpast] at hread
  obtain ⟨hclose, -⟩ := @ReadState.moveTo_gap s [' '] ('\x7d' :: back) (isGap_space _) rfl
    (s.start.offset + 8 + byteLength map)
  have htoken : s.token ≠ .punct "\x7d" := by
    rw [hs.token, Reader.readLexeme_spelled (by decide) rfl]
    simp
  have hstep := Reader.commaStep_last htoken hread (by decide) (hclose.marked mark).token
  obtain ⟨n, hn⟩ : ∃ n, s.start.rest.length = n + 1 := by
    rw [hs.rest]
    exact ⟨_, rfl⟩
  rw [Reader.commaItems_eq, hn]
  exact Reader.collect_some hstep (Reader.collect_none (Reader.commaStep_end (hclose.marked mark).token) n)

theorem mixin_operand {back : List Char} (hmap : ReadsText context depth map tree mark (' ' :: '\x7d' :: back))
    {s : ReadState} (hcontext : s.context.enclosed = context) (hs : s.StandsAt (mixinText map ++ back)) :
    Reader.primary (readersTo depth) s =
      some (mixinTree map tree s.start.offset, (s.past (mixinText map) back).marked mark) := by
  rw [mixinText_append] at hs
  have htoken : s.token = .punct "\x7b" := hs.token
  obtain ⟨value, hvalue⟩ : ∃ value, value = map ++ ' ' :: '\x7d' :: back := ⟨_, rfl⟩
  have hnext : s.following = s.moveTo ⟨[' '] ++ ("inject".toList ++ ':' :: ' ' :: value), s.start.offset + 1⟩ := by
    rw [hs.following, hvalue]
    rfl
  obtain ⟨hmember, hstart⟩ := @ReadState.moveTo_gap s [' '] ("inject".toList ++ ':' :: ' ' :: value)
    (isGap_space _) rfl (s.start.offset + 1)
  rw [← hnext, hvalue] at hmember
  have hoffset : s.following.start.offset = s.start.offset + 2 := by rw [hnext, hstart]; rfl
  have hitems := mixin_member hopens hmap (s := { s.following with context := s.following.context.enclosed })
    (by rw [← hcontext, hnext]; rfl) (hmember.within _)
  have henclosed := Reader.enclosed_read hitems
  rw [hoffset] at henclosed
  obtain ⟨hclose, hcloseStart⟩ := @ReadState.moveTo_gap s.following [' '] ('\x7d' :: back) (isGap_space _) rfl
    (s.start.offset + 2 + 8 + byteLength map)
  obtain ⟨last, hlast⟩ : ∃ last, last =
      s.following.moveTo ⟨[' '] ++ '\x7d' :: back, s.start.offset + 2 + 8 + byteLength map⟩ := ⟨_, rfl⟩
  rw [← hlast] at henclosed hclose hcloseStart
  have hend : last.start.past ['\x7d'] back = ⟨back, s.start.offset + byteLength (mixinText map)⟩ := by
    rw [hcloseStart, byteLength_mixinText, Cursor.past]
    show Cursor.mk back (s.start.offset + 2 + 8 + byteLength map + 1 + 1) = _
    congr 1
    omega
  have hafter : (last.marked mark).following = (s.past (mixinText map) back).marked mark := by
    rw [(hclose.marked mark).following]
    show ReadState.moveTo _ (last.start.past ['\x7d'] back) = _
    rw [hend, hlast]
    rfl
  have hstop : (last.marked mark).after.offset = s.start.offset + byteLength (mixinText map) := by
    rw [(hclose.marked mark).after]
    show (last.start.past ['\x7d'] back).offset = _
    rw [hend]
  rw [Reader.primary, Reader.bind_of_eq_some (p := Reader.token) rfl, htoken]
  show Reader.objectLiteral (readersTo depth) s = _
  rw [Reader.objectLiteral_read htoken henclosed (hclose.marked mark).token, hafter, hstop]
  rfl

end

/-! ## Lists of mixins -/

/-- The elements of a list end here, with a comma or without. -/
inductive ReadState.EndsList (s : ReadState) : ReadState → Prop where
  | bracket {rest : List Char} (h : s.StandsAt (']' :: rest)) : EndsList s s
  | comma {rest : List Char} (h : s.StandsAt (',' :: rest)) (hlast : s.following.token = .punct "]") :
    EndsList s s.following

theorem ReadState.EndsList.closes {s last : ReadState} (h : s.EndsList last) :
    ∃ c rest, s.StandsAt (c :: rest) ∧ c ∈ closers := by
  cases h with
  | bracket h => exact ⟨_, _, h, by decide⟩
  | comma h _ => exact ⟨_, _, h, by decide⟩

theorem elements_last {s : ReadState} {item : Reader Tree} {t : Tree} {next last : ReadState}
    (hclose : s.token ≠ .punct "]") (hcomma : s.token ≠ .punct ",") (hitem : item s = some (t, next))
    (hlast : next.EndsList last) (n : Nat) :
    Reader.collect (Reader.elementStep item) (n + 2) s = some ([t], last) := by
  cases hlast with
  | bracket h =>
    exact Reader.collect_some (Reader.elementStep_last hclose hcomma hitem h.token)
      (Reader.collect_none (Reader.elementStep_end h.token) n)
  | comma h hend =>
    exact Reader.collect_some (Reader.elementStep_comma hclose hcomma hitem h.token)
      (Reader.collect_none (Reader.elementStep_end hend) n)

section
variable {outer : Context} {depth : Nat} {map : List Char} {tree : Nat → Tree} {mark : Bool} {s : ReadState}
  {back : List Char} (hopens : opensToken map = true)
  (hmap : ReadsText outer.enclosed depth map tree mark (' ' :: '\x7d' :: back))
include hopens hmap

theorem mixin_element {rest : List Char} {c : Char} (hcontext : s.context = outer.enclosed)
    (hs : s.StandsAt (mixinText map ++ back)) (hback : (s.past (mixinText map) back).StandsAt (c :: rest))
    (hc : c ∈ closers) : Reader.spreadable (readersTo (depth + 4)) s =
      some (mixinTree map tree s.start.offset, (s.past (mixinText map) back).marked mark) := by
  have htoken : s.token = .punct "\x7b" := by
    rw [hs.token, mixinText_append]
    rfl
  rw [Reader.spreadable_of_ne (by simp [htoken])]
  refine Reader.assignment_literal (by rw [hcontext]; rfl) (Or.inr rfl) htoken ?_ rfl (hback.marked mark) hc
  exact mixin_operand hopens hmap (by rw [hcontext]; rfl) hs

theorem mixin_last (hcontext : s.context = outer.enclosed) (hs : s.StandsAt (mixinText map ++ back))
    {last : ReadState} (hlast : ((s.past (mixinText map) back).marked mark).EndsList last) (n : Nat) :
    Reader.collect (Reader.elementStep (Reader.spreadable (readersTo (depth + 4)))) (n + 2) s =
      some ([mixinTree map tree s.start.offset], last) := by
  have htoken : s.token = .punct "\x7b" := by
    rw [hs.token, mixinText_append]
    rfl
  obtain ⟨c, rest, hback, hc⟩ := hlast.closes
  have hitem := mixin_element hopens hmap hcontext hs hback.of_marked hc
  exact elements_last (by simp [htoken]) (by simp [htoken]) hitem hlast n

theorem mixin_crowded {rest : List Char} (hcontext : s.context = outer.enclosed)
    (hs : s.StandsAt (mixinText map ++ back)) (hback : (s.past (mixinText map) back).StandsAt ('\x7b' :: rest)) :
    Reader.elementsWithHoles (Reader.spreadable (readersTo (depth + 4))) s = none := by
  have htoken : s.token = .punct "\x7b" := by
    rw [hs.token, mixinText_append]
    rfl
  have hitem := mixin_element hopens hmap hcontext hs hback (by decide)
  have hnext : ((s.past (mixinText map) back).marked mark).token = .punct "\x7b" := (hback.marked mark).token
  rw [Reader.elementsWithHoles_eq]
  refine Reader.collect_of_none ?_ _
  rw [Reader.elementStep, Reader.bind_of_eq_some (Reader.isAt_of_ne (by simp [htoken])), if_neg Bool.false_ne_true,
    Reader.bind_of_eq_some (Reader.isAt_of_ne (by simp [htoken])), if_neg Bool.false_ne_true,
    Reader.bind_of_eq_some hitem, Reader.bind_of_eq_some (Reader.eat_of_ne (by simp [hnext])),
    if_neg Bool.false_ne_true, Reader.bind_of_eq_some (Reader.isAt_of_ne (by simp [hnext]))]
  rfl

theorem mixin_behind {next : ReadState} (hcontext : next.context = outer.enclosed)
    (hnext : next.StandsAt (',' :: ' ' :: (mixinText map ++ back))) {last : ReadState}
    (hlast : ((next.moveTo ⟨back, next.start.offset + 2 + byteLength (mixinText map)⟩).marked mark).EndsList last)
    (n : Nat) :
      Reader.collect (Reader.elementStep (Reader.spreadable (readersTo (depth + 4)))) (n + 2) next.following =
      some ([mixinTree map tree (next.start.offset + 2)], last) := by
  have hfollowing : next.following = next.moveTo ⟨[' '] ++ (mixinText map ++ back), next.start.offset + 1⟩ := by
    rw [hnext.following]
    rfl
  obtain ⟨hmixin, hstart⟩ := @ReadState.moveTo_gap next [' '] (mixinText map ++ back) (isGap_space _)
    (by rw [mixinText_append]; rfl) (next.start.offset + 1)
  rw [← hfollowing] at hmixin hstart
  have hoffset : next.following.start.offset = next.start.offset + 2 := by rw [hstart]; rfl
  have hpast : next.following.past (mixinText map) back =
      next.moveTo ⟨back, next.start.offset + 2 + byteLength (mixinText map)⟩ := by
    rw [ReadState.past, Cursor.past, hoffset, hfollowing]
    rfl
  rw [← hpast] at hlast
  rw [← hoffset]
  exact mixin_last hopens hmap (by rw [hfollowing, ← hcontext]; rfl) hmixin hlast n

theorem element_then_mixin {t : Tree} {next : ReadState} (hclose : s.token ≠ .punct "]")
    (hcomma : s.token ≠ .punct ",")
    (hitem : Reader.spreadable (readersTo (depth + 4)) s = some (t, next))
    (hcontext : next.context = outer.enclosed) (hnext : next.StandsAt (',' :: ' ' :: (mixinText map ++ back)))
    (hlength : next.start.rest.length ≤ s.start.rest.length) {last : ReadState}
    (hlast : ((next.moveTo ⟨back, next.start.offset + 2 + byteLength (mixinText map)⟩).marked mark).EndsList
      last) :
    Reader.elementsWithHoles (Reader.spreadable (readersTo (depth + 4))) s =
      some ([t, mixinTree map tree (next.start.offset + 2)], last) := by
  obtain ⟨n, hn⟩ : ∃ n, s.start.rest.length + 1 = n + 2 + 1 := by
    rw [hnext.rest] at hlength
    simp only [List.length_cons] at hlength
    exact ⟨s.start.rest.length - 2, by omega⟩
  rw [Reader.elementsWithHoles_eq, hn]
  exact Reader.collect_some (Reader.elementStep_comma hclose hcomma hitem hnext.token)
    (mixin_behind hopens hmap hcontext hnext hlast n)

theorem hole_then_mixin (hs : s.StandsAt (',' :: ',' :: ' ' :: (mixinText map ++ back)))
    (hcontext : s.context = outer.enclosed) {last : ReadState}
    (hlast : ((s.moveTo ⟨back, s.start.offset + 3 + byteLength (mixinText map)⟩).marked mark).EndsList last) :
    Reader.elementsWithHoles (Reader.spreadable (readersTo (depth + 4))) s =
      some ([.node .hole ⟨s.start.offset, s.start.offset + 1⟩ [],
        .node .hole ⟨s.start.offset + 1, s.start.offset + 2⟩ [], mixinTree map tree (s.start.offset + 3)],
          last) := by
  have hfollowing : s.following = s.moveTo ⟨',' :: ' ' :: (mixinText map ++ back), s.start.offset + 1⟩ := by
    rw [hs.following]
    rfl
  obtain ⟨hnext, hstart⟩ := @moveTo_part s ',' (by decide) (' ' :: (mixinText map ++ back)) (s.start.offset + 1)
  rw [← hfollowing] at hnext hstart
  have hoffset : s.following.start.offset = s.start.offset + 1 := by rw [hstart]
  have hole : ∀ {x : ReadState} {rest : List Char}, x.StandsAt (',' :: rest) →
      Reader.elementStep (Reader.spreadable (readersTo (depth + 4))) x =
        some (some (.node .hole ⟨x.start.offset, x.start.offset + 1⟩ []), x.following) := by
    intro x rest hx
    have hcomma : x.token = .punct "," := hx.token
    have hafter : x.after.offset = x.start.offset + 1 := by rw [hx.after]; rfl
    rw [Reader.elementStep, Reader.bind_of_eq_some (Reader.isAt_of_ne (by simp [hcomma])),
      if_neg Bool.false_ne_true, Reader.bind_of_eq_some (Reader.isAt_of_eq hcomma), if_pos rfl, ← hafter]
    exact Reader.bind_of_eq_some (Reader.leaf_eq (Reader.advance_of_not_word (by simp [hcomma])))
  have hmixin := @mixin_behind _ _ _ _ _ _ hopens hmap s.following (by rw [hfollowing]; exact hcontext) hnext last
    (by rw [hoffset, hfollowing]; exact hlast)
  obtain ⟨n, hn⟩ : ∃ n, s.start.rest.length + 1 = n + 2 + 1 + 1 := by
    rw [hs.rest, mixinText_append]
    exact ⟨_, rfl⟩
  rw [Reader.elementsWithHoles_eq, hn]
  have hsecond := hole hnext
  rw [hoffset] at hsecond hmixin
  exact Reader.collect_some (hole hs) (Reader.collect_some hsecond (hmixin n))

end

/-! ## Lists that are made for a mixin -/

def ReadState.opened (s : ReadState) : ReadState := { s.following with context := s.following.context.enclosed }

theorem ReadState.StandsAt.opened {s : ReadState} {text : List Char} (hs : s.StandsAt ('[' :: text))
    (htext : StartsToken s.context.pageComments text) :
    s.opened.StandsAt text ∧ s.opened.start.offset = s.start.offset + 1 ∧ s.opened.context =
      s.context.enclosed := by
  have hnext : s.following = s.moveTo ⟨text, s.start.offset + 1⟩ := by
    rw [hs.following]
    rfl
  obtain ⟨hinner, hstart⟩ := htext.moveTo (isGap_nil _) (s.start.offset + 1)
  rw [List.nil_append, ← hnext] at hinner hstart
  refine ⟨hinner.within _, ?_, by rw [ReadState.opened, hnext]; rfl⟩
  show s.following.start.offset = _
  rw [hstart]
  rfl

theorem Reader.arrayLiteral_closed {rules : Rules} {s : ReadState} {elements : List Tree} {stop : Nat}
    {back : List Char} {mark : Bool} (hopen : s.token = .punct "[")
    (h : elementsWithHoles (spreadable rules) s.opened =
      some (elements, (s.opened.moveTo ⟨']' :: back, stop⟩).marked mark)) :
    primary rules s = some (.node .array ⟨s.start.offset, stop + 1⟩ elements,
      (s.moveTo ⟨back, stop + 1⟩).marked mark) := by
  obtain ⟨hclose, hstart⟩ := @moveTo_part s.following ']' (by decide) back stop
  have hafter : ((s.following.moveTo ⟨']' :: back, stop⟩).marked mark).following =
      (s.moveTo ⟨back, stop + 1⟩).marked mark := by
    rw [(hclose.marked mark).following]
    show ReadState.moveTo _ ((s.following.moveTo ⟨']' :: back, stop⟩).start.past [']'] back) = _
    rw [hstart]
    rfl
  have hstop : ((s.following.moveTo ⟨']' :: back, stop⟩).marked mark).after.offset = stop + 1 := by
    rw [(hclose.marked mark).after]
    show ((s.following.moveTo ⟨']' :: back, stop⟩).start.past [']'] back).offset = _
    rw [hstart]
    rfl
  rw [primary, bind_of_eq_some (p := token) rfl, hopen]
  show arrayLiteral rules s = _
  rw [arrayLiteral_read hopen (enclosed_read h) (hclose.marked mark).token, hafter, hstop]

theorem Reader.spreadable_spread {rules : Rules} {s next : ReadState} {value : Tree} (h : s.token = .punct "...")
    (hvalue : rules .assignment s.following = some (value, next)) : spreadable rules s =
      some (.node (.spread (next.token = .punct ",")) ⟨s.start.offset, next.previous.offset⟩ [value], next) := by
  rw [spreadable, bind_of_eq_some (isAt_of_eq h), if_pos rfl, spread, bind_of_eq_some (p := here) rfl,
    bind_of_eq_some (expect_of_eq h), bind_of_eq_some hvalue]
  rfl

theorem endsList_bracket (s : ReadState) (back : List Char) (stop : Nat) (mark : Bool) :
    ((s.moveTo ⟨']' :: back, stop⟩).marked mark).EndsList ((s.moveTo ⟨']' :: back, stop⟩).marked mark) :=
  @ReadState.EndsList.bracket _ back ((moveTo_part (by decide) back stop).1.marked mark)

section
variable {outer : Context} {depth : Nat} {map : List Char} {tree : Nat → Tree} {mark : Bool} {s : ReadState}
  {back : List Char} (hopens : opensToken map = true)
  (hmap : ReadsText outer.enclosed depth map tree mark (' ' :: '\x7d' :: ']' :: back))
include hopens hmap

theorem mixin_list (hcontext : s.context.enclosed = outer.enclosed)
    (hs : s.StandsAt ('[' :: (mixinText map ++ ']' :: back))) :
    Reader.primary (readersTo (depth + 4)) s =
      some (.node .array ⟨s.start.offset, s.start.offset + 1 + byteLength (mixinText map) + 1⟩
        [mixinTree map tree (s.start.offset + 1)],
        (s.moveTo ⟨back, s.start.offset + 1 + byteLength (mixinText map) + 1⟩).marked mark) := by
  obtain ⟨hinner, hoffset, hinnerContext⟩ := hs.opened (startsToken_of_opensToken (by rw [mixinText_append]; rfl))
  have hpast : s.opened.past (mixinText map) (']' :: back) =
      s.opened.moveTo ⟨']' :: back, s.start.offset + 1 + byteLength (mixinText map)⟩ := by
    rw [ReadState.past, Cursor.past, hoffset]
  obtain ⟨n, hn⟩ : ∃ n, s.opened.start.rest.length + 1 = n + 2 := by
    rw [hinner.rest, mixinText_append]
    exact ⟨_, rfl⟩
  refine Reader.arrayLiteral_closed hs.token ?_
  rw [Reader.elementsWithHoles_eq, hn, ← hoffset]
  refine mixin_last hopens hmap (hinnerContext.trans hcontext) hinner ?_ n
  rw [hpast, hoffset]
  exact endsList_bracket ..

theorem mixin_spread (hcontext : s.context.enclosed = outer.enclosed) {given : List Char} {value : Nat → Tree}
    {mark' : Bool} (hgiven : opensToken given = true)
    (hvalue : ReadsText outer.enclosed (depth + 4) given value mark'
      (',' :: ' ' :: (mixinText map ++ ']' :: back)))
    (hs : s.StandsAt ("[...".toList ++ (given ++ ',' :: ' ' :: (mixinText map ++ ']' :: back)))) :
    ∃ stop, stop = s.start.offset + 4 + byteLength given + 2 + byteLength (mixinText map) ∧
    Reader.primary (readersTo (depth + 4)) s =
      some (.node .array ⟨s.start.offset, stop + 1⟩
        [.node (.spread true) ⟨s.start.offset + 1, s.start.offset + 4 + byteLength given⟩
          [value (s.start.offset + 4)], mixinTree map tree (s.start.offset + 4 + byteLength given + 2)],
        (s.moveTo ⟨back, stop + 1⟩).marked (mark' || mark)) := by
  refine ⟨_, rfl, ?_⟩
  obtain ⟨hinner, hoffset, hinnerContext⟩ := @ReadState.StandsAt.opened s ("...".toList ++ _) hs
    (startsToken_of_opensToken rfl)
  have hdots : s.opened.token = .punct "..." := hinner.token
  have hnext : s.opened.following =
      s.opened.moveTo ⟨given ++ ',' :: ' ' :: (mixinText map ++ ']' :: back), s.start.offset + 4⟩ := by
    rw [hinner.following, ReadState.past, Cursor.past, hoffset]
    rfl
  obtain ⟨hvalueAt, hvalueStart⟩ := @ReadState.moveTo_gap s.opened []
    (given ++ ',' :: ' ' :: (mixinText map ++ ']' :: back)) (isGap_nil _) (opensToken_append hgiven _)
    (s.start.offset + 4)
  rw [List.nil_append, ← hnext] at hvalueAt hvalueStart
  have hread := hvalue s.opened.following (by rw [hnext]; exact hinnerContext.trans hcontext) hvalueAt
  have hvalueOffset : s.opened.following.start.offset = s.start.offset + 4 := by rw [hvalueStart]; rfl
  obtain ⟨next, hnextEq⟩ : ∃ next, next =
      (s.opened.following.past given (',' :: ' ' :: (mixinText map ++ ']' :: back))).marked mark' := ⟨_, rfl⟩
  obtain ⟨hcomma, hcommaStart⟩ :=
    @past_part s.opened.following (',' :: ' ' :: (mixinText map ++ ']' :: back)) rfl given
  have hnextAt : next.StandsAt (',' :: ' ' :: (mixinText map ++ ']' :: back)) := by
    rw [hnextEq]
    exact hcomma.marked mark'
  have hnextOffset : next.start.offset = s.start.offset + 4 + byteLength given := by
    rw [hnextEq, ← hvalueOffset]
    exact congrArg Cursor.offset hcommaStart
  have hprevious : next.previous.offset = s.start.offset + 4 + byteLength given := by
    rw [hnextEq, ← hvalueOffset]
    rfl
  rw [hvalueOffset, ← hnextEq] at hread
  have hitem := Reader.spreadable_spread hdots hread
  rw [decide_eq_true (show next.token = .punct "," from hnextAt.token)] at hitem
  have hmove : ∀ cursor, (next.moveTo cursor).marked mark = (s.opened.moveTo cursor).marked (mark' || mark) := by
    intro cursor
    rw [← ReadState.marked_marked, hnextEq, hnext]
    rfl
  obtain ⟨n, hn⟩ : ∃ n, s.opened.start.rest.length + 1 = n + 2 + 1 := by
    rw [hinner.rest]
    exact ⟨_, rfl⟩
  refine Reader.arrayLiteral_closed hs.token ?_
  rw [Reader.elementsWithHoles_eq, hn, ← hoffset]
  refine Reader.collect_some (Reader.elementStep_comma (by simp [hdots]) (by simp [hdots]) (hprevious ▸ hitem)
    hnextAt.token) ?_
  rw [← hnextOffset, ← hmove]
  refine mixin_behind hopens hmap ?_ hnextAt (endsList_bracket ..) n
  rw [hnextEq, hnext]
  exact hinnerContext.trans hcontext

theorem mixins_member (hcontext : s.context = outer.enclosed)
    (hs : s.StandsAt ("mixins".toList ++ ':' :: ' ' :: '[' :: (mixinText map ++ ']' :: back))) {c : Char}
    {rest : List Char} (hc : c ∈ closers)
    (hback : (s.moveTo ⟨back, s.start.offset + 8 + 1 + byteLength (mixinText map) + 1⟩).StandsAt (c :: rest)) :
    Reader.objectMember (readersTo (depth + 8)) s =
      some (.node (.property .plain false false false)
          ⟨s.start.offset, s.start.offset + 8 + 1 + byteLength (mixinText map) + 1⟩
          [.node (.name "mixins") ⟨s.start.offset, s.start.offset + 6⟩ [],
            .node .array ⟨s.start.offset + 8, s.start.offset + 8 + 1 + byteLength (mixinText map) + 1⟩
              [mixinTree map tree (s.start.offset + 8 + 1)]],
        (s.moveTo ⟨back, s.start.offset + 8 + 1 + byteLength (mixinText map) + 1⟩).marked mark) := by
  obtain ⟨next, hmove, hnext, hstart, hread⟩ := @Reader.objectMember_named (readersTo (depth + 8)) s "mixins"
    ('[' :: (mixinText map ++ ']' :: back)) (by decide) (by decide) rfl hs
  have hoffset : next.start.offset = s.start.offset + 8 := by rw [hstart]; rfl
  have hlist :=
    mixin_list hopens hmap (s := next) (by rw [hmove]; show s.context.enclosed = _; rw [hcontext]; rfl) hnext
  have hstate : ∀ cursor, next.moveTo cursor = s.moveTo cursor := by
    intro cursor
    rw [hmove]
    rfl
  rw [hoffset, hstate] at hlist
  have hvalue : readersTo (depth + 8) .assignment next = _ :=
    Reader.assignment_literal (by rw [hmove]; show s.context.arrowBeforeColon = _; rw [hcontext]; rfl)
      (Or.inl rfl) hnext.token hlist (by rw [hmove]; rfl) (hback.marked mark) hc
  rw [hread, hvalue]
  rfl

end

/-! ## Where no value is asked for -/

namespace Reader

theorem assignment_of_mark {text : String} (htext : text ∈ ["...", ",", "]", ")"]) {depth : Nat} {s : ReadState}
    (hs : s.token = .punct text) : readersTo depth .assignment s = none := by
  have hnone : ∀ {t : Tree}, ¬ t.StartsWith fun _ => False := by
    intro t ht
    induction ht with
    | self h => exact h
    | part _ _ ih => exact ih
  have hoperand : Operand fun _ : Tree => False := ⟨fun h _ => h, fun h => False.elim h⟩
  simp only [List.mem_cons, List.not_mem_nil, or_false] at htext
  have hprimary : ∀ (rules : Rules) (s : ReadState), s.token = .punct text → primary rules s = none := by
    intro rules s hs
    rw [primary, bind_of_eq_some (p := token) rfl, hs]
    rcases htext with rfl | rfl | rfl | rfl <;> rfl
  have hunary : ∀ (rules : Rules) (s : ReadState), s.token = .punct text →
      unaryRule rules s = postfixExpression rules s := by
    intro rules s hs
    rw [unaryRule, bind_of_eq_some (p := here) rfl, bind_of_eq_some (p := token) rfl, hs]
    rcases htext with rfl | rfl | rfl | rfl <;> rfl
  have hopens : Opens (.punct text) (fun _ _ => False) (readersTo depth) := opens_readersTo (fun _ => hoperand)
    (by rcases htext with rfl | rfl | rfl | rfl <;> decide)
    (fun rules s hrules hs => ⟨Yields.none (hprimary rules s hs), by
      unfold Yields
      rw [hunary rules s hs]
      exact postfixExpression_startsWith hoperand (hrules .leftHandSide rfl s hs)⟩) depth
  cases hread : readersTo depth .assignment s with
  | none => rfl
  | some r => exact (hnone (hopens .assignment rfl s hs r.1 r.2 hread)).elim

theorem objectMember_of_list {depth : Nat} {s : ReadState} {rest : List Char}
    (hs : s.StandsAt ("[...".toList ++ rest)) : objectMember (readersTo depth) s = none := by
  have htoken : s.token = .punct "[" := hs.token
  obtain ⟨hinner, -, -⟩ := @ReadState.StandsAt.opened s ("...".toList ++ rest) hs (startsToken_of_opensToken rfl)
  have hdots : s.following.token = .punct "..." := hinner.token
  have hkey : propertyKey (readersTo depth) s = none := by
    rw [propertyKey, bind_of_eq_some (p := token) rfl, htoken]
    refine (bind_of_eq_some (advance_of_not_word (by simp [htoken]))).trans (bind_of_eq_none ?_)
    rw [within, bind_of_eq_some (p := context) rfl, bind_of_eq_some (p := modify _) rfl]
    exact bind_of_eq_none (assignment_of_mark (by decide) hdots)
  rw [objectMember_of_key (by simp [htoken]) (by simp [htoken]), bind_of_eq_some (eat_of_ne (by simp [htoken])),
    bind_of_eq_some (identifier?_of_not_name (by rw [htoken]; rfl))]
  exact bind_of_eq_none hkey

theorem commaStep_of_list {rules : Rules} {s : ReadState} {name : String} {escaped : Bool}
    (h : s.token = .word name escaped) (hname : name ∉ "get" :: "set" :: modifierWords)
    (hnext : s.following.token = .punct "[") : commaStep "\x7d" (objectMember rules) s = none := by
  have hword : ∀ text escaped, s.token = .word text escaped → text ∉ "get" :: "set" :: modifierWords := by
    intro text escaped' htoken
    cases h.symm.trans htoken
    exact hname
  obtain ⟨name?, hidentifier⟩ := identifier?_state s
  -- without a colon or parameters the name is all there is
  have hmember : objectMember rules s = none ∨ ∃ t, objectMember rules s = some (t, s.following) := by
    rw [objectMember_of_key (by simp [h]) hword, bind_of_eq_some (eat_of_ne (by simp [h])),
      bind_of_eq_some hidentifier, bind_of_eq_some (propertyKey_word h)]
    dsimp only
    rw [bind_of_eq_some (isAt_of_ne (by simp [hnext])), bind_of_eq_some (isAt_of_ne (by simp [hnext])),
      if_neg (by decide)]
    unfold propertyValue
    rw [bind_of_eq_some (eat_of_ne (by simp [hnext])), if_neg Bool.false_ne_true]
    cases name? with
    | none => exact Or.inl rfl
    | some name =>
      dsimp only
      rw [bind_of_eq_some (isAt_of_ne (by simp [hnext])), if_neg Bool.false_ne_true]
      exact Or.inr ⟨_, rfl⟩
  have hopen : s.token ≠ .punct "\x7d" := by simp [h]
  rcases hmember with hmember | ⟨t, hmember⟩
  · exact commaStep_none hopen hmember
  · rw [commaStep, bind_of_eq_some (isAt_of_ne hopen), if_neg Bool.false_ne_true, bind_of_eq_some hmember,
      bind_of_eq_some (eat_of_ne (by simp [hnext])), if_neg Bool.false_ne_true,
      bind_of_eq_some (isAt_of_ne (by simp [hnext]))]
    rfl

end Reader

end ComponentMacros
