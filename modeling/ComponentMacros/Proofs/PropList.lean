import ComponentMacros.Proofs.Insertion
import ComponentMacros.Proofs.Mixin
import ComponentMacros.Proofs.Quotation
import ComponentMacros.Proofs.Removal
import ComponentMacros.Proofs.Unwrapping

/-!
# Props as a list of names

In production the object literal of the props is replaced by a list with one
element for each member. The list is read as an array: a key that is not computed
as a string literal, a computed key as the expression it is computed by, and a
spread as the spread of the keys of its argument. The string is the name of the
member if the key is a name or a string that is made of characters; of a number it
is the text.
-/

namespace ComponentMacros

/-! ## The keys of an object -/

def keysCall (argument : Tree) (span : Span) : Tree :=
  .node (.call false) span
    [.node (.member false) ⟨span.start, span.start + 11⟩
      [.node (.identifier "Object") ⟨span.start, span.start + 6⟩ [],
        .node (.name "keys") ⟨span.start + 7, span.start + 11⟩ []],
      argument]

theorem ReadState.moveTo_token {s : ReadState} {cs raw rest : List Char} {token : Token}
    (htext : opensToken cs = true)
    (hlexeme : readLexeme cs = ⟨token, raw, rest⟩) (offset : Nat) : (s.moveTo ⟨cs, offset⟩).token = token ∧
      (s.moveTo ⟨cs, offset⟩).start.offset = offset ∧
      (s.moveTo ⟨cs, offset⟩).after.offset = offset + byteLength raw ∧
      (s.moveTo ⟨cs, offset⟩).following = s.moveTo ⟨rest, offset + byteLength raw⟩ := by
  obtain ⟨hat, hstart⟩ := @ReadState.moveTo_gap s [] cs (isGap_nil _) htext offset
  rw [List.nil_append] at hat hstart
  rw [byteLength_nil, Nat.add_zero] at hstart
  refine ⟨by rw [hat.token, hlexeme], by rw [hstart], ?_, ?_⟩
  · rw [hat.after, hlexeme, hstart]
    rfl
  · rw [hat.following, hlexeme, ReadState.past, hstart]
    rfl

namespace Reader

theorem extend_twice {α : Type} {step : α → Reader (Option α)} {a b c : α} {s s₁ s₂ : ReadState}
    (hfirst : step a s = some (some b, s₁)) (hsecond : step b s₁ = some (some c, s₂))
    (hend : step c s₂ = some (none, s₂)) (hlength : 2 ≤ s.start.rest.length) : extend step a s = some (c, s₂) := by
  obtain ⟨n, hn⟩ : ∃ n, s.start.rest.length = n + 2 := ⟨s.start.rest.length - 2, by omega⟩
  rw [extend_of_some hfirst, hn, iterate, bind_of_eq_some hsecond]
  show iterate step (n + 1) c s₂ = _
  rw [iterate, bind_of_eq_some hend]
  rfl

section
variable {rules : Rules} {s : ReadState} {start : Nat} {object : Tree}

theorem suffix_member {calls : Bool} {text : String} (h : s.token = .punct ".")
    (hobject : object.kind ≠ .instantiation) (hname : s.following.token = .word text false) :
    suffix rules start calls (object, false) s =
      some (some (.node (.member false) ⟨start, s.following.after.offset⟩
        [object, .node (.name text) ⟨s.following.start.offset, s.following.after.offset⟩ []], false),
        s.following.following) := by
  have hmember : memberName object s.following =
      some (.node (.name text) ⟨s.following.start.offset, s.following.after.offset⟩ [],
        s.following.following) := by
    rw [memberName, decide_eq_true hobject, bind_of_eq_some (p := check true) rfl,
      bind_of_eq_some (p := token) rfl, hname]
    show word .name s.following = _
    rw [word, bind_of_eq_some (p := token) rfl, hname]
    rfl
  rw [suffix, bind_of_eq_some (p := token) rfl, h]
  exact (bind_of_eq_some (advance_of_not_word (by simp [h]))).trans (bind_of_eq_some hmember)

theorem suffix_named {calls : Bool} {name : String} {rest : List Char} (hopens : opensToken name.toList = true)
    (hdot : readLexeme ('.' :: (name.toList ++ rest)) = ⟨.punct ".", ['.'], name.toList ++ rest⟩)
    (hname : readLexeme (name.toList ++ rest) = ⟨.word name false, name.toList, rest⟩)
    (hobject : object.kind ≠ .instantiation) (offset : Nat) :
    suffix rules start calls (object, false) (s.moveTo ⟨'.' :: (name.toList ++ rest), offset⟩) =
      some (some (.node (.member false) ⟨start, offset + 1 + byteLength name.toList⟩
        [object, .node (.name name) ⟨offset + 1, offset + 1 + byteLength name.toList⟩ []], false),
        s.moveTo ⟨rest, offset + 1 + byteLength name.toList⟩) := by
  obtain ⟨hdotToken, -, -, hdotNext⟩ := @ReadState.moveTo_token s _ _ _ _ rfl hdot offset
  change ReadState.following _ = s.moveTo ⟨_, offset + 1⟩ at hdotNext
  obtain ⟨htoken, hstart, hafter, hnext⟩ :=
    @ReadState.moveTo_token s _ _ _ _ (opensToken_append hopens rest) hname (offset + 1)
  rw [suffix_member hdotToken hobject (by rw [hdotNext]; exact htoken), hdotNext, hstart, hafter, hnext]

theorem suffix_call {items : List Tree} {last : ReadState} (h : s.token = .punct "(")
    (hitems : enclosed (commaItems ")" (spreadable rules)) s.following = some (items, last))
    (hlast : last.token = .punct ")") : suffix rules start true (object, false) s =
      some (some (.node (.call false) ⟨start, last.after.offset⟩ (object :: items), false), last.following) := by
  have harguments : arguments rules s = some (items, last.following) := by
    rw [arguments, bind_of_eq_some (expect_of_eq h), bind_of_eq_some hitems, bind_of_eq_some (expect_of_eq hlast)]
    rfl
  rw [suffix, bind_of_eq_some (p := token) rfl, h]
  exact bind_of_eq_some harguments

end

section
variable {s : ReadState} {depth : Nat} {text back : List Char} {tree : Nat → Tree} {mark : Bool}
  (hread : ReadsText s.context.enclosed depth text tree mark (')' :: back))
include hread

theorem argument_read (hs : s.StandsAt (text ++ ')' :: back)) :
    enclosed (commaItems ")" (spreadable (readersTo depth))) s =
      some ([tree s.start.offset], (s.past text (')' :: back)).marked mark) := by
  obtain ⟨inner, hinner⟩ : ∃ inner : ReadState, inner = { s with context := s.context.enclosed } := ⟨_, rfl⟩
  have hat : inner.StandsAt (text ++ ')' :: back) := by rw [hinner]; exact hs.within _
  have hvalue := hread inner (by rw [hinner]) hat
  have htoken : ∀ text ∈ ["...", ",", "]", ")"], inner.token ≠ .punct text := by
    intro text htext heq
    rw [assignment_of_mark htext heq] at hvalue
    cases hvalue
  obtain ⟨hclose, -⟩ := @ReadState.moveTo_gap inner [] (')' :: back) (isGap_nil _) rfl
    (inner.start.offset + byteLength text)
  have hend : ((inner.past text (')' :: back)).marked mark).token = .punct ")" := (hclose.marked mark).token
  have hitem := (spreadable_of_ne (htoken "..." (by decide))).trans hvalue
  have hstep := commaStep_last (htoken ")" (by decide)) hitem (by decide) hend
  obtain ⟨n, hn⟩ : ∃ n, inner.start.rest.length + 1 = n + 2 := by
    rw [hat.rest, List.length_append, List.length_cons]
    exact ⟨text.length + back.length, by omega⟩
  have hitems : commaItems ")" (spreadable (readersTo depth)) inner =
      some ([tree inner.start.offset], (inner.past text (')' :: back)).marked mark) := by
    rw [commaItems_eq, hn]
    exact collect_some hstep (collect_none (commaStep_end hend) n)
  subst hinner
  exact enclosed_read hitems

theorem suffix_applied (hstarts : StartsToken s.context.pageComments (text ++ ')' :: back)) {start : Nat}
    {object : Tree} (offset : Nat) :
    suffix (readersTo depth) start true (object, false) (s.moveTo ⟨'(' :: (text ++ ')' :: back), offset⟩) =
      some (some
        (.node (.call false) ⟨start, offset + 1 + byteLength text + 1⟩ [object, tree (offset + 1)], false),
          (s.moveTo ⟨back, offset + 1 + byteLength text + 1⟩).marked mark) := by
  obtain ⟨hopen, -, -, hopenNext⟩ := @ReadState.moveTo_token s ('(' :: (text ++ ')' :: back)) ['('] _ (.punct "(")
    rfl rfl offset
  obtain ⟨hargument, hstart⟩ := hstarts.moveTo (isGap_nil _) (offset + 1)
  rw [List.nil_append] at hargument hstart
  rw [byteLength_nil, Nat.add_zero] at hstart
  have hitems := argument_read (s := s.moveTo ⟨text ++ ')' :: back, offset + 1⟩) hread hargument
  rw [ReadState.past, Cursor.past, hstart] at hitems
  obtain ⟨hclose, -, hcloseAfter, hcloseNext⟩ := @ReadState.moveTo_token (s.marked mark) (')' :: back) [')'] back
    (.punct ")") rfl rfl (offset + 1 + byteLength text)
  have hlast : ((s.moveTo ⟨text ++ ')' :: back, offset + 1⟩).moveTo
      ⟨')' :: back, offset + 1 + byteLength text⟩).marked mark =
        (s.marked mark).moveTo ⟨')' :: back, offset + 1 + byteLength text⟩ := rfl
  rw [hlast] at hitems
  rw [suffix_call hopen (by rw [hopenNext]; exact hitems) hclose, hcloseAfter, hcloseNext]
  rfl

end

end Reader

def keysHead : List Char := "Object".toList ++ '.' :: ("keys".toList ++ ['('])

def keysText (argument : List Char) : List Char := keysHead ++ (argument ++ [')'])

theorem keysText_append (argument back : List Char) : keysText argument ++ back =
    "Object".toList ++ '.' :: ("keys".toList ++ '(' :: (argument ++ ')' :: back)) := by
  unfold keysText keysHead
  generalize "Object".toList = object
  generalize "keys".toList = keys
  simp

theorem byteLength_keysText (argument : List Char) :
    byteLength (keysText argument) = 12 + byteLength argument + 1 := by
  have hhead : byteLength keysHead = 12 := by decide
  rw [keysText, byteLength_append, byteLength_append, hhead, ← Nat.add_assoc]
  rfl

/-- The keys of an argument are an expression of their own in front of a comma or a closing bracket. -/
theorem keys_read {s : ReadState} {outer : Context} {depth : Nat} {text back : List Char} {tree : Nat → Tree}
    {mark : Bool}
    (hcontext : s.context = outer.enclosed) (hstarts : StartsToken outer.pageComments (text ++ ')' :: back))
    (hread : ReadsText outer.enclosed depth text tree mark (')' :: back)) (hs : s.StandsAt (keysText text ++ back))
    (hback : EndsPart back = true) : readersTo (depth + 4) .assignment s =
      some (keysCall (tree (s.start.offset + 12)) ⟨s.start.offset, s.start.offset + byteLength (keysText text)⟩,
        (s.past (keysText text) back).marked mark) := by
  rw [keysText_append] at hs
  have hobject := @readsWord s "Object" _ (by decide) hs
  have hfirst := hobject.operand rfl (readersTo depth)
  change _ =
    some (_, s.moveTo ⟨'.' :: ("keys".toList ++ '(' :: (text ++ ')' :: back)), s.start.offset + 6⟩) at hfirst
  have hkeys : readLexeme ("keys".toList ++ '(' :: (text ++ ')' :: back)) =
      ⟨.word "keys" false, "keys".toList, '(' :: (text ++ ')' :: back)⟩ := by
    rw [Reader.readLexeme_spelled (by decide) rfl]
    rfl
  have hmember :=
    @Reader.suffix_named (readersTo depth) s s.start.offset (wordAt "Object" s.start.offset) true "keys"
    ('(' :: (text ++ ')' :: back)) (by decide) rfl hkeys nofun (s.start.offset + 6)
  have hcall := @Reader.suffix_applied s depth text back tree mark (by rw [hcontext]; exact hread)
    (by rw [hcontext]; exact hstarts) s.start.offset
    (.node (.member false) ⟨s.start.offset, s.start.offset + 11⟩ [wordAt "Object" s.start.offset,
      .node (.name "keys") ⟨s.start.offset + 7, s.start.offset + 11⟩ []]) (s.start.offset + 11)
  have hlength : s.start.offset + 11 + 1 + byteLength text + 1 = s.start.offset + byteLength (keysText text) := by
    rw [byteLength_keysText]
    omega
  rw [hlength] at hcall
  obtain ⟨hnext, -⟩ := @past_part s back hback (keysText text)
  have hends := Reader.continuesOperand_of_endsPart (hnext.marked mark) hback
  obtain ⟨hdot, -⟩ := @ReadState.moveTo_gap s [] ('.' :: ("keys".toList ++ '(' :: (text ++ ')' :: back)))
    (isGap_nil _) rfl (s.start.offset + 6)
  rw [List.nil_append] at hdot
  have hleft : readersTo (depth + 1) .leftHandSide s = some
      (keysCall (tree (s.start.offset + 12)) ⟨s.start.offset, s.start.offset + byteLength (keysText text)⟩,
        (s.past (keysText text) back).marked mark) := by
    show Reader.leftHandSideRule (readersTo depth) s = _
    rw [Reader.leftHandSideRule, Reader.bind_of_eq_some (p := Reader.here) rfl, Reader.bind_of_eq_some hfirst,
      Reader.bind_of_eq_some (Reader.extend_twice hmember hcall (Reader.suffix_of_not_continues hends) ?_)]
    · rfl
    · rw [hdot.rest, List.length_cons, List.length_append, List.length_cons]
      omega
  obtain ⟨c, rest, hc, hclose⟩ : ∃ c rest, c ∈ closers ∧ back = c :: rest := by
    obtain ⟨rest, rfl | rfl⟩ := endsPart_cases hback
    · exact ⟨_, rest, by decide, rfl⟩
    · exact ⟨_, rest, by decide, rfl⟩
  have hword := hobject.token.mpr rfl
  have hstart : Reader.StartsPart s := by
    refine Reader.startsPart_word (by decide) hword ?_
    rw [hs.following, readLexeme_runtimeWord (by decide) rfl]
    show (s.moveTo ⟨'.' :: ("keys".toList ++ '(' :: (text ++ ')' :: back)), s.start.offset + 6⟩).token ≠ _
    rw [hdot.token]
    show Token.punct "." ≠ _
    decide
  have hlast : ((s.past (keysText text) back).marked mark).StandsAt (c :: rest) := hclose ▸ hnext.marked mark
  exact Reader.assignment_operand (by rw [hcontext]; rfl) hstart
    (Reader.unary_of_leftHandSide hleft (Reader.unaryRule_word (by decide) hword) hends) rfl hlast hc

/-! ## Elements -/

def listedName (source : List Char) (key : Tree) : String :=
  match key.kind with
  | .name name | .identifier name | .string name => name
  | _ => sourceText source key.span

def propElement (options : Options) (source : List Char) (beforeComma : Bool) (member : Tree) (pos : Nat) : Tree :=
  match member with
  | .node (.property _ true _ _) _ (key :: _) => key.movedTo pos
  | .node (.property _ false _ _) _ (key :: _) => stringAt options.quotes (listedName source key) pos
  | .node (.spread _) _ [argument] =>
    let stop := pos + byteLength (propName options source member).toList
    .node (.spread beforeComma) ⟨pos, stop⟩ [keysCall (argument.movedTo (pos + 15)) ⟨pos + 3, stop⟩]
  | _ => member

def Tree.isKeyed (source : List Char) : Tree → Bool
  | .node (.property _ computed _ _) _ (key :: _) => computed || key.isSpelled source
  | .node (.spread _) _ [_] => true
  | _ => false

/-- Where an expression is asked for in the context, the source of the node is read as it was if `back` follows. -/
structure Tree.ReadsAgain (source : List Char) (context : Context) (back : List Char) (e : Tree) : Prop where
  starts : StartsToken context.pageComments ((sourceText source e.span).toList ++ back)
  reads : ∃ least mark, ∀ depth, least ≤ depth →
    ReadsText context depth (sourceText source e.span).toList e.movedTo mark back

/-- The expression that a member hands on to the list is read there as it was. -/
def Tree.ReadsListed (source : List Char) (context : Context) (back : List Char) : Tree → Prop
  | .node (.property _ true _ _) _ (key :: _) => key.ReadsAgain source context back
  | .node (.spread _) _ [argument] => argument.ReadsAgain source context (')' :: back)
  | _ => True

/-- The text starts with a token and is read as an element of a list. -/
structure ReadsAsElement (context : Context) (text : List Char) (tree : Nat → Tree) (back : List Char) : Prop where
  starts : StartsToken context.pageComments (text ++ back)
  reads : ∃ least mark, ∀ (depth : Nat) (s : ReadState), least ≤ depth → s.context = context →
    s.StandsAt (text ++ back) → s.token ≠ .punct "]" ∧ s.token ≠ .punct "," ∧
      Reader.spreadable (readersTo depth) s = some (tree s.start.offset, (s.past text back).marked mark)

theorem propName_key (options : Options) (source : List Char) {access : Access} {shorthand isMethod : Bool}
    {span : Span} {key : Tree} {rest : List Tree} :
    propName options source (.node (.property access false shorthand isMethod) span (key :: rest)) =
      quoteString options.quotes (listedName source key) := by
  unfold propName listedName
  dsimp only
  cases key.kind <;> rfl

theorem quoteString_head (style : QuoteStyle) (value : String) :
    ∃ rest, (quoteString style value).toList = style.char :: rest := by
  rw [quoteString, String.toList_ofList, quoteChars]
  exact ⟨_, rfl⟩

theorem Tree.ReadsAgain.element {source : List Char} {context : Context} {back : List Char} {e : Tree}
    (h : e.ReadsAgain source context back) :
    ReadsAsElement context (sourceText source e.span).toList e.movedTo back := by
  obtain ⟨least, mark, hreads⟩ := h.reads
  refine ⟨h.starts, least, mark, fun depth s hdepth hcontext hs => ?_⟩
  have hvalue := hreads depth hdepth s hcontext hs
  have htoken : ∀ text ∈ ["...", ",", "]", ")"], s.token ≠ .punct text := by
    intro text htext heq
    rw [Reader.assignment_of_mark htext heq] at hvalue
    cases hvalue
  refine ⟨htoken "]" (by decide), htoken "," (by decide), ?_⟩
  rw [Reader.spreadable_of_ne (htoken "..." (by decide)), hvalue]

theorem quoted_element {context : Context} {back : List Char} (hback : EndsPart back = true) (style : QuoteStyle)
    (value : String) : ReadsAsElement context (quoteString style value).toList (stringAt style value) back := by
  obtain ⟨least, hread⟩ := quoted_part style value
  obtain ⟨rest, hhead⟩ := quoteString_head style value
  have hopens : opensToken ((quoteString style value).toList ++ back) = true := by
    rw [hhead]
    cases style <;> rfl
  refine ⟨startsToken_of_opensToken hopens, least, false, fun depth s hdepth hcontext hs => ?_⟩
  have htoken : s.token = .string value true := by rw [hs.token, readLexeme_quoted]
  refine ⟨by simp [htoken], by simp [htoken], ?_⟩
  rw [Reader.spreadable_of_ne (by simp [htoken]), hread depth s back hdepth hs hback]
  simp [ReadState.marked]

def spreadText (argument : List Char) : List Char := "...".toList ++ keysText argument

theorem byteLength_spreadText (argument : List Char) :
    byteLength (spreadText argument) = 3 + byteLength (keysText argument) := by
  rw [spreadText, byteLength_append]
  rfl

theorem propName_spread (options : Options) (source : List Char) (comma : Bool) (span : Span) {argument : Tree} :
    (propName options source (.node (.spread comma) span [argument])).toList =
      spreadText (sourceText source argument.span).toList := by
  have hhead : "...Object.keys(".toList = "...".toList ++ keysHead := by decide
  show ("...Object.keys(" ++ sourceText source argument.span ++ ")").toList = _
  rw [String.toList_append, String.toList_append, hhead, spreadText, keysText, List.append_assoc,
    List.append_assoc]
  rfl

theorem spread_element {outer : Context} {text back : List Char} {tree : Nat → Tree} {least : Nat} {mark : Bool}
    (hback : EndsPart back = true) (hstarts : StartsToken outer.pageComments (text ++ ')' :: back))
    (hreads : ∀ depth, least ≤ depth → ReadsText outer.enclosed depth text tree mark (')' :: back)) :
    ReadsAsElement outer.enclosed (spreadText text) (fun pos =>
      .node (.spread (decide (back.head? = some ','))) ⟨pos, pos + byteLength (spreadText text)⟩
        [keysCall (tree (pos + 15)) ⟨pos + 3, pos + byteLength (spreadText text)⟩]) back := by
  refine ⟨startsToken_of_opensToken rfl, least + 4, mark, fun depth s hdepth hcontext hs => ?_⟩
  obtain ⟨depth, rfl⟩ : ∃ d, depth = d + 4 := ⟨depth - 4, by omega⟩
  have hlength := byteLength_spreadText text
  have hdots : s.token = .punct "..." := hs.token
  have hnext : s.following = s.moveTo ⟨keysText text ++ back, s.start.offset + 3⟩ := by
    rw [hs.following]
    rfl
  obtain ⟨hkeys, hstart⟩ := @ReadState.moveTo_gap s [] (keysText text ++ back) (isGap_nil _)
    (by rw [keysText_append]; rfl) (s.start.offset + 3)
  rw [List.nil_append, ← hnext] at hkeys hstart
  have hoffset : s.following.start.offset = s.start.offset + 3 := by rw [hstart]; rfl
  have hpast : s.following.past (keysText text) back = s.past (spreadText text) back := by
    rw [ReadState.past, Cursor.past, hoffset, ReadState.past, Cursor.past, hlength, hnext, ← Nat.add_assoc]
    rfl
  have hcall := keys_read (by rw [hnext]; exact hcontext) hstarts (hreads depth (by omega)) hkeys hback
  rw [hpast, hoffset] at hcall
  -- whether a comma follows is seen by the token behind the call
  have hcomma : ((s.past (spreadText text) back).marked mark).token = .punct "," ↔ back.head? = some ',' := by
    have htoken := ((@past_part s back hback (spreadText text)).1.marked mark).token
    obtain ⟨rest, rfl | rfl⟩ := endsPart_cases hback
    · exact ⟨fun _ => rfl, fun _ => htoken⟩
    · rw [htoken]
      exact ⟨fun heq => absurd heq (by show Token.punct "]" ≠ .punct ","; decide), fun heq => absurd heq (by simp)⟩
  refine ⟨by simp [hdots], by simp [hdots], ?_⟩
  rw [Reader.spreadable_spread hdots hcall, hlength, ← Nat.add_assoc]
  simp only [hcomma]
  show some (Tree.node _ ⟨_, s.start.offset + byteLength (spreadText text)⟩ _, _) = _
  rw [hlength, ← Nat.add_assoc]

theorem prop_element {options : Options} {source : List Char} {outer : Context} {back : List Char}
    (hback : EndsPart back = true) {member : Tree} (hkeyed : member.isKeyed source = true)
    (h : member.ReadsListed source outer.enclosed back) :
    ReadsAsElement outer.enclosed (propName options source member).toList
      (propElement options source (decide (back.head? = some ',')) member) back := by
  unfold Tree.isKeyed at hkeyed
  split at hkeyed
  · rename_i access computed shorthand isMethod span key rest
    cases computed with
    | true => exact Tree.ReadsAgain.element h
    | false =>
      rw [propName_key]
      exact quoted_element hback options.quotes (listedName source key)
  · rename_i comma span argument
    obtain ⟨least, mark, hreads⟩ := h.reads
    have helement := spread_element hback h.starts hreads
    rw [← propName_spread options source comma span] at helement
    exact helement
  · cases hkeyed

/-! ## The list -/

section
variable (options : Options) (source : List Char)

def namesText (members : List Tree) : List Char :=
  (", ".intercalate (members.map (propName options source))).toList

def namesBehind (back : List Char) : List Tree → List Char
  | [] => ']' :: back
  | m :: ms => ',' :: ' ' :: (namesText options source (m :: ms) ++ ']' :: back)

def propElements : List Tree → Nat → List Tree
  | [], _ => []
  | m :: ms, pos => propElement options source (!ms.isEmpty) m pos ::
      propElements ms (pos + byteLength (propName options source m).toList + 2)

def ReadsNames (context : Context) (back : List Char) : List Tree → Prop
  | [] => True
  | m :: ms => m.ReadsListed source context (namesBehind options source back ms) ∧ ReadsNames context back ms

variable {options source}

theorem namesText_cons_cons (m n : Tree) (ms : List Tree) : namesText options source (m :: n :: ms) =
    (propName options source m).toList ++ ',' :: ' ' :: namesText options source (n :: ms) := by
  rw [namesText, List.map_cons, List.map_cons, String.intercalate_cons_cons, namesText, List.map_cons]
  simp

theorem namesText_singleton (m : Tree) : namesText options source [m] = (propName options source m).toList := by
  rw [namesText, List.map_cons, List.map_nil, String.intercalate_singleton]

theorem namesText_cons (m : Tree) (ms : List Tree) (back : List Char) :
    namesText options source (m :: ms) ++ ']' :: back =
    (propName options source m).toList ++ namesBehind options source back ms := by
  cases ms with
  | nil => rw [namesText_singleton, namesBehind]
  | cons n ms => rw [namesText_cons_cons, namesBehind, List.append_assoc, List.cons_append, List.cons_append]

theorem byteLength_namesText (m n : Tree) (ms : List Tree) : byteLength (namesText options source (m :: n :: ms)) =
    byteLength (propName options source m).toList + 2 + byteLength (namesText options source (n :: ms)) := by
  rw [namesText_cons_cons, byteLength_append, byteLength_pair ',' ' ' _ rfl, ← Nat.add_assoc]

theorem length_le_namesText :
    ∀ (m : Tree) (ms : List Tree), 2 * ms.length ≤ (namesText options source (m :: ms)).length
  | m, [] => Nat.zero_le _
  | m, n :: ms => by
    have ih := length_le_namesText n ms
    rw [namesText_cons_cons, List.length_append, List.length_cons, List.length_cons, List.length_cons]
    omega

theorem endsPart_namesBehind (back : List Char) (ms : List Tree) :
    EndsPart (namesBehind options source back ms) = true := by
  cases ms <;> rfl

/-- The elements of a list of names are read one after the other, up to the bracket. -/
theorem names_read {outer : Context} {back : List Char} : ∀ (ms : List Tree) (m : Tree),
    (∀ n ∈ m :: ms, n.isKeyed source = true) → ReadsNames options source outer.enclosed back (m :: ms) →
    StartsToken outer.pageComments (namesText options source (m :: ms) ++ ']' :: back) ∧
    ∃ least mark, ∀ (depth : Nat) (s : ReadState) (n : Nat), least ≤ depth → ms.length + 1 < n →
      s.context = outer.enclosed → s.StandsAt (namesText options source (m :: ms) ++ ']' :: back) →
        Reader.collect (Reader.elementStep (Reader.spreadable (readersTo depth))) n s =
          some (propElements options source (m :: ms) s.start.offset,
            (s.moveTo ⟨']' :: back, s.start.offset + byteLength (namesText options source (m :: ms))⟩).marked
              mark) := by
  intro ms
  induction ms with
  | nil =>
    intro m hkeyed hreads
    obtain ⟨hstarts, least, mark, hread⟩ := @prop_element options _ outer _
      (endsPart_namesBehind back []) _ (hkeyed m (List.mem_cons_self ..)) hreads.1
    rw [namesText_singleton]
    refine ⟨hstarts, least, mark, fun depth s n hdepth hn hcontext hs => ?_⟩
    obtain ⟨n, rfl⟩ : ∃ k, n = k + 2 := ⟨n - 2, by simp at hn; omega⟩
    obtain ⟨hclose, hcomma, hitem⟩ := hread depth s hdepth hcontext hs
    have hend : ((s.past (propName options source m).toList (']' :: back)).marked mark).token = .punct "]" :=
      ((@past_part s (']' :: back) rfl _).1.marked mark).token
    refine Reader.collect_some (Reader.elementStep_last hclose hcomma hitem hend) ?_
    exact Reader.collect_none (Reader.elementStep_end hend) n
  | cons u ms ih =>
    intro m hkeyed hreads
    obtain ⟨hstarts, least₁, mark₁, hread⟩ := @prop_element options _ outer _
      (endsPart_namesBehind back (u :: ms)) _ (hkeyed m (List.mem_cons_self ..)) hreads.1
    obtain ⟨hnext, least₂, mark₂, hrest⟩ := ih u (fun n hn => hkeyed n (List.mem_cons_of_mem _ hn)) hreads.2
    rw [namesText_cons]
    refine ⟨hstarts, max least₁ least₂, mark₁ || mark₂, fun depth s n hdepth hn hcontext hs => ?_⟩
    rw [Nat.max_le] at hdepth
    obtain ⟨n, rfl⟩ : ∃ k, n = k + 1 := ⟨n - 1, by omega⟩
    obtain ⟨hclose, hcomma, hitem⟩ := hread depth s hdepth.1 hcontext hs
    obtain ⟨name, hname⟩ : ∃ name, (propName options source m).toList = name := ⟨_, rfl⟩
    obtain ⟨rest, hrestText⟩ : ∃ rest, rest = namesText options source (u :: ms) ++ ']' :: back := ⟨_, rfl⟩
    have hbehind : namesBehind options source back (u :: ms) = ',' :: ' ' :: rest := by rw [hrestText]; rfl
    rw [hname, hbehind] at hitem
    -- the comma and the blank behind the first element are passed
    have htoken : ((s.past name (',' :: ' ' :: rest)).marked mark₁).token = .punct "," :=
      ((@past_part s (',' :: ' ' :: rest) rfl name).1.marked mark₁).token
    have hfollowing : ((s.past name (',' :: ' ' :: rest)).marked mark₁).following =
        (s.marked mark₁).moveTo ⟨[' '] ++ rest, s.start.offset + byteLength name + 1⟩ :=
      congrArg (ReadState.marked · mark₁) (@past_comma s name (' ' :: rest))
    obtain ⟨hat, hstart⟩ := @StartsToken.moveTo (s.marked mark₁) [' '] rest
      (by rw [hrestText]; show StartsToken s.context.pageComments _; rw [hcontext]; exact hnext) (isGap_space _)
      (s.start.offset + byteLength name + 1)
    obtain ⟨x, hx⟩ : ∃ x, x = (s.marked mark₁).moveTo ⟨[' '] ++ rest, s.start.offset + byteLength name + 1⟩ :=
      ⟨_, rfl⟩
    rw [← hx] at hat hstart hfollowing
    have hoffset : x.start.offset = s.start.offset + byteLength name + 2 := by rw [hstart]; rfl
    have hothers :=
      hrest depth x n hdepth.2 (by simp at hn ⊢; omega) (by rw [hx]; exact hcontext) (hrestText ▸ hat)
    refine Reader.collect_some (Reader.elementStep_comma hclose hcomma hitem htoken) ?_
    have hmove : ∀ cursor, (x.moveTo cursor).marked mark₂ = (s.moveTo cursor).marked (mark₁ || mark₂) := by
      intro cursor
      rw [← ReadState.marked_marked, hx]
      rfl
    rw [hfollowing, hothers, hoffset, hmove, byteLength_namesText, hname]
    simp only [← Nat.add_assoc]

theorem names_elements {outer : Context} {back : List Char} {members : List Tree}
    (hkeyed : ∀ m ∈ members, m.isKeyed source = true)
    (hreads : ReadsNames options source outer.enclosed back members) :
    ∃ least mark, ∀ (depth : Nat) (s : ReadState), least ≤ depth → s.context.enclosed = outer.enclosed →
      s.StandsAt ('[' :: (namesText options source members ++ ']' :: back)) →
        Reader.elementsWithHoles (Reader.spreadable (readersTo depth)) s.opened =
          some (propElements options source members (s.start.offset + 1), (s.opened.moveTo
            ⟨']' :: back, s.start.offset + 1 + byteLength (namesText options source members)⟩).marked mark) := by
  cases members with
  | nil =>
    refine ⟨0, false, fun depth s _ _ hs => ?_⟩
    obtain ⟨hinner, -, -⟩ := hs.opened (startsToken_of_opensToken rfl)
    have hlast : (s.opened.moveTo ⟨']' :: back, s.start.offset + 1⟩).marked false = s.opened := by
      have hnext : s.following = s.moveTo ⟨']' :: back, s.start.offset + 1⟩ := by
        rw [hs.following]
        rfl
      rw [ReadState.opened, hnext]
      simp [ReadState.marked, ReadState.moveTo, ReadState.scan, Context.enclosed]
    rw [Reader.elementsWithHoles_eq]
    refine (Reader.collect_none (Reader.elementStep_end hinner.token) _).trans ?_
    show some ([], _) = some ([], ReadState.marked (s.opened.moveTo ⟨']' :: back, s.start.offset + 1⟩) false)
    rw [hlast]
  | cons m ms =>
    obtain ⟨hstarts, least, mark, hread⟩ := names_read ms m hkeyed hreads
    refine ⟨least, mark, fun depth s hdepth hcontext hs => ?_⟩
    have hpage := congrArg Context.pageComments hcontext
    change s.context.pageComments = outer.pageComments at hpage
    obtain ⟨hinner, hoffset, hcontext'⟩ := hs.opened (by rw [hpage]; exact hstarts)
    have hmany : ms.length + 1 < s.opened.start.rest.length + 1 := by
      have := @length_le_namesText options source m ms
      rw [hinner.rest, List.length_append, List.length_cons]
      omega
    have hmembers := hread depth s.opened _ hdepth hmany (hcontext'.trans hcontext) hinner
    rw [hoffset] at hmembers
    exact (Reader.elementsWithHoles_eq _).trans hmembers

theorem names_operand {outer : Context} {back : List Char} {members : List Tree}
    (hkeyed : ∀ m ∈ members, m.isKeyed source = true)
    (hreads : ReadsNames options source outer.enclosed back members) :
    ∃ least mark, ∀ (depth : Nat) (s : ReadState), least ≤ depth → s.context.enclosed = outer.enclosed →
      s.StandsAt ('[' :: (namesText options source members ++ ']' :: back)) →
        Reader.primary (readersTo depth) s = some (.node .array
            ⟨s.start.offset, s.start.offset + 1 + byteLength (namesText options source members) + 1⟩
            (propElements options source members (s.start.offset + 1)),
          (s.moveTo ⟨back, s.start.offset + 1 + byteLength (namesText options source members) + 1⟩).marked
            mark) := by
  obtain ⟨least, mark, helements⟩ := names_elements hkeyed hreads
  refine ⟨least, mark, fun depth s hdepth hcontext hs => ?_⟩
  exact Reader.arrayLiteral_closed hs.token (helements depth s hdepth hcontext hs)

end

/-! ## Names -/

/-- The code points of the name that a key gives its member. How a number is written is up to `numeral`. -/
def keyUnits? (numeral : String → String) (source : List Char) (key : Tree) : Option (List Nat) :=
  match key.kind with
  | .name name | .identifier name => some (name.toList.map Char.toNat)
  | .string _ => (key.literalBody? source).bind fun body => decodeUnits body.length body
  | .number raw | .bigint raw => some ((numeral raw).toList.map Char.toNat)
  | _ => none

/-- The key is a name, a string made of characters, or a number in the form that its name has. -/
def Tree.isPlainKey (numeral : String → String) (source : List Char) (key : Tree) : Bool :=
  match key.kind with
  | .name _ | .identifier _ => true
  | .string _ => ((key.literalBody? source).bind fun body => decodeUnits body.length body).any
      (·.all fun n => decide n.isValidChar)
  | .number raw | .bigint raw => numeral raw = sourceText source key.span
  | _ => false

theorem toNat_ofNat_of_valid {n : Nat} (h : n.isValidChar) : (Char.ofNat n).toNat = n := by
  rw [Char.ofNat, dif_pos h]
  rfl

theorem charsOfUnits_valid {units : List Nat} (h : ∀ n ∈ units, n.isValidChar) :
    charsOfUnits units = units.map Char.ofNat := by
  have hlone : ∀ n ∈ units, isLoneSurrogate n = false := by
    intro n hn
    rw [← toNat_ofNat_of_valid (h n hn)]
    exact isLoneSurrogate_toNat _
  have hnone : units.any isLoneSurrogate = false := by
    rw [List.any_eq_false]
    intro n hn
    simp [hlone n hn]
  unfold charsOfUnits
  simp only [hnone, Bool.false_and, Bool.or_false]
  rw [← List.flatMap_pure_eq_map]
  apply List.flatMap_congr
  intro n hn
  rw [hlone n hn]
  rfl

/-- Code points are those of the characters that stand for them exactly if each is a character. -/
theorem charsOfUnits_iff (units : List Nat) :
    units = (charsOfUnits units).map Char.toNat ↔ ∀ n ∈ units, n.isValidChar := by
  constructor
  · intro h n hn
    rw [h] at hn
    obtain ⟨c, -, rfl⟩ := List.mem_map.mp hn
    exact c.valid
  · intro h
    rw [charsOfUnits_valid h, List.map_map]
    conv_lhs => rw [← List.map_id units]
    apply List.map_congr_left
    intro n hn
    exact (toNat_ofNat_of_valid (h n hn)).symm

theorem toList_toNat_inj {a b : String} : a.toList.map Char.toNat = b.toList.map Char.toNat ↔ a = b := by
  rw [List.map_inj_right fun c d h => Char.toNat_inj.mp h]
  exact String.toList_inj

/-- A member is listed under its name exactly if the text of its key is plain. -/
theorem listedName_iff (numeral : String → String) {source : List Char} {key : Tree}
    (hspelled : key.isSpelled source = true) :
    keyUnits? numeral source key = some ((listedName source key).toList.map Char.toNat) ↔
      key.isPlainKey numeral source = true := by
  unfold keyUnits? listedName Tree.isPlainKey
  cases hkind : key.kind with
  | string value =>
    simp only [Tree.isSpelled, hkind, decide_eq_true_eq, Option.map_eq_some_iff, Option.bind_eq_some_iff]
      at hspelled
    obtain ⟨⟨value', plain⟩, ⟨body, hbody, hdecode⟩, rfl⟩ := hspelled
    obtain ⟨units, hunits, hvalue⟩ := Option.map_eq_some_iff.mp hdecode
    cases hvalue
    simp only [hbody, Option.bind_some, hunits, Option.some.injEq, String.toList_ofList, charsOfUnits_iff,
      Option.any_some, List.all_eq_true, decide_eq_true_eq]
  | number raw => simp [toList_toNat_inj]
  | bigint raw => simp [toList_toNat_inj]
  | _ => simp

/-! ## Props in their place -/

def namesList (options : Options) (source : List Char) (members : List Tree) : String :=
  "[" ++ ", ".intercalate (members.map (propName options source)) ++ "]"

theorem namesList_append (options : Options) (source : List Char) (members : List Tree) (back : List Char) :
    (namesList options source members).toList ++
      back = '[' :: (namesText options source members ++ ']' :: back) := by
  rw [namesList, String.toList_append, String.toList_append, namesText, List.append_assoc]
  rfl

theorem byteLength_namesList (options : Options) (source : List Char) (members : List Tree) :
    byteLength (namesList options source members).toList =
      1 + byteLength (namesText options source members) + 1 := by
  rw [← List.append_nil (namesList options source members).toList, namesList_append, byteLength_cons,
    byteLength_append]
  rfl

def namesTree (options : Options) (source : List Char) (members : List Tree) (pos : Nat) : Tree :=
  .node .array ⟨pos, pos + byteLength (namesList options source members).toList⟩
    (propElements options source members (pos + 1))

/-- How a list of names is read: as the array of its elements if the expressions in it are read as they were,
and as all of a value if nothing goes on with it. Whatever is read, an array stands at the start of it. -/
structure ReadState.ReadsProps (s : ReadState) (options : Options) (source : List Char) (members : List Tree)
    (back : List Char) : Prop where
  operand : ReadsNames options source s.context.enclosed back members → ∃ least mark, ∀ depth, least ≤ depth →
    Reader.primary (readersTo depth) s = some (namesTree options source members s.start.offset,
      (s.past (namesList options source members).toList back).marked mark)
  whole : ReadsNames options source s.context.enclosed back members → s.context.arrowBeforeColon = false →
    ∀ c rest, c ∈ closers → (s.past (namesList options source members).toList back).StandsAt (c :: rest) →
    ∃ least mark, ∀ depth, least ≤ depth → readersTo depth .assignment s =
      some (namesTree options source members s.start.offset,
        (s.past (namesList options source members).toList back).marked mark)
  loose : ∀ (depth : Nat) (goal : Goal) (t : Tree) (s' : ReadState), goal.asksExpression = true →
    readersTo depth goal s = some (t, s') → t.StartsWith (Tree.LiteralAt .array .arrayTarget s.start.offset)

theorem readsProps {options : Options} {source : List Char} {members : List Tree}
    (hkeyed : ∀ m ∈ members, m.isKeyed source = true) {s : ReadState} {back : List Char}
    (hs : s.StandsAt ((namesList options source members).toList ++ back)) :
    s.ReadsProps options source members back := by
  rw [namesList_append] at hs
  have htoken : s.token = .punct "[" := hs.token
  have hoperand : ReadsNames options source s.context.enclosed back members →
    ∃ least mark, ∀ depth, least ≤ depth →
      Reader.primary (readersTo depth) s = some (namesTree options source members s.start.offset,
        (s.past (namesList options source members).toList back).marked mark) := by
    intro hreads
    obtain ⟨least, mark, hread⟩ := names_operand hkeyed hreads
    refine ⟨least, mark, fun depth hdepth => ?_⟩
    rw [hread depth s hdepth rfl hs, namesTree, ReadState.past, Cursor.past, byteLength_namesList, ← Nat.add_assoc,
      ← Nat.add_assoc]
  refine ⟨hoperand, fun hreads hcontext c rest hc hlast => ?_, fun depth goal t s' hgoal h => ?_⟩
  · obtain ⟨least, mark, hread⟩ := hoperand hreads
    refine ⟨least + 4, mark, fun depth hdepth => ?_⟩
    obtain ⟨depth, rfl⟩ : ∃ d, depth = d + 4 := ⟨depth - 4, by omega⟩
    exact Reader.assignment_literal hcontext (Or.inl rfl) htoken (hread depth (by omega)) rfl
      (hlast.marked mark) hc
  · exact Reader.bracket_opens depth goal hgoal s htoken t s' h

section
variable {setting : Setting} {draft : Draft} {site : Site} {props : Tree}

theorem definition_collapses (hmode : setting.options.mode = .production) (hprops : site.props? = some props)
    {es : List Edit} (h : setting.ownEdits site = .ok es) :
    Edit.overwrite props.span (namesList setting.options setting.source props.children) ∈ es := by
  have hkind : site.kind = .component ∨ site.kind = .functional := by
    by_contra hno
    rw [not_or] at hno
    rw [Site.props?_eq_none hno.1 hno.2] at hprops
    cases hprops
  obtain ⟨call, argument, factory, functional, hcall, ⟨hobject, -, rfl⟩ | ⟨hlist, -, -⟩⟩ :=
    definition_cases hkind h
  · have hdefinition := (ofObject_props? hkind hcall hobject).trans hprops
    have hnamed : (giveName setting.options site (.ofObject call argument.stripParens)).2.props? = some props := by
      rw [← hdefinition]
      unfold Definition.props?
      rw [giveName_object]
    have hmember : ∀ usages, Edit.overwrite props.span (namesList setting.options setting.source props.children) ∈
        (expandProps setting.options setting.source usages
          (giveName setting.options site (.ofObject call argument.stripParens)).2).1 := by
      intro usages
      unfold expandProps
      rw [hnamed]
      simp only [hmode]
      exact List.mem_singleton_self _
    exact mem_recordAll.mpr (Or.inr ⟨List.mem_append_right _ (hmember _), Edit.overwrite_selects ..⟩)
  · rw [← function_props? hcall hlist 0] at hprops
    cases hprops

theorem props_collapsed (hdraft : expansion setting = .ok draft) (hmode : setting.options.mode = .production)
    (hs : site ∈ setting.collected.usages.pending) (hprops : site.props? = some props) :
    Edit.overwrite props.span (namesList setting.options setting.source props.children) ∈ draft.edits := by
  have hkind : site.kind ≠ .type := by
    intro hkind
    rw [Site.props?_eq_none (by simp [hkind]) (by simp [hkind])] at hprops
    cases hprops
  obtain ⟨entry, hentry, hown⟩ := own_entry hdraft hs hkind
  exact entry_overwrite hdraft hentry (definition_collapses hmode hprops hown)

theorem Draft.Tidy.text_replaced (h : draft.Tidy) {span : Span} {text : String}
    (he : .overwrite span text ∈ draft.edits)
    (hpos : span.start < span.stop) {depth : Nat} {range : Span} {nested : Bool}
    (hrange : range.contains span = true)
    (hcover : draft.Uncovered range nested (.overwrite span text)) {out : List Char}
    (hout : draft.renderRange (depth + 1) range nested = .ok out) :
    ∃ front back after, draft.ShowsIn depth range nested (.overwrite span text) front text.toList back
      out after := by
  obtain ⟨front, content, back, after, hshows⟩ := h.replacement_in_place he rfl hpos hrange hcover hout
  have hown := hshows.own
  rw [Edit.overwrite, Draft.renderContent_ofText] at hown
  cases hown
  exact ⟨front, back, after, hshows⟩

theorem Site.In.literal_mem {program object : Tree} (hin : site.In program) (h : site.literal? = some object) :
    object ∈ program.nodes := by
  have hargument : ∀ argument, site.call?.map (·.arguments) = some [argument] →
      argument.stripParens ∈ program.nodes := by
    intro argument hmap
    obtain ⟨call, hcall, harguments⟩ := Option.map_eq_some_iff.mp hmap
    have hmem := hin.ancestor_mem (Site.call?_mem hcall)
    exact Tree.nodes_trans (Tree.nodes_trans hmem (Tree.child_mem_nodes (Tree.arguments_mem harguments)))
      argument.stripParens_mem
  unfold Site.literal? at h
  split at h
  · rename_i argument _ hmap
    obtain ⟨-, rfl⟩ := Option.ite_none_right_eq_some.mp h |>.imp_right Option.some.inj
    exact hargument argument hmap
  · rename_i argument _ hmap
    obtain ⟨-, rfl⟩ := Option.ite_none_right_eq_some.mp h |>.imp_right Option.some.inj
    exact hargument argument hmap
  · cases h

theorem Site.In.props_mem {program : Tree} (hin : site.In program) (hprops : site.props? = some props) :
    props ∈ program.nodes ∧ props.isObject = true := by
  unfold Site.props? at hprops
  simp only [Option.bind_eq_bind, Option.bind_eq_some_iff] at hprops
  obtain ⟨object, hobject, ⟨i, property⟩, hfind, value, hvalue, hif⟩ := hprops
  obtain ⟨hkind, rfl⟩ := Option.ite_none_right_eq_some.mp hif |>.imp_right Option.some.inj
  have hmember := Tree.child_mem_nodes (List.mem_of_getElem? (findMember?_mem hfind).1)
  have hin := Tree.nodes_trans (hin.literal_mem hobject) hmember
  exact ⟨Tree.nodes_trans (Tree.nodes_trans hin (Tree.child_mem_nodes (Tree.value?_mem hvalue)))
    value.stripParens_mem, hkind⟩

end

/-- What a parser promises about the members of object literals. -/
def Keyed (source : List Char) (program : Tree) : Prop :=
  ∀ t ∈ program.nodes, t.isObject = true → ∀ member ∈ t.children, member.isKeyed source = true

instance (source : List Char) (program : Tree) : Decidable (Keyed source program) :=
  inferInstanceAs (Decidable (∀ _ ∈ _, _ → ∀ _ ∈ _, _))

def Tree.listedKey? : Tree → Option Tree
  | .node (.property _ false _ _) _ (key :: _) => some key
  | _ => none

/-- In production the props of every definition become the list of their names. Whatever a rendering of an
expansion makes of a program, the list comes out in the place of the props that no other replacement covers, and
it is read as an array with one element for each member, in order: a string for a key that is not computed, the
expression for a computed one, and the keys of the argument for a spread. The string is the name of the member
if and only if the key is a name, a string made of characters, or a number in the form that its name has. -/
theorem props_listed_by_name_iff (numeral : String → String) {options : Options} {text : String} {program : Tree}
    {r : Transformed} (hparse : parse options.dialect text.toList = some program)
    (hlayout : Layout text.toList program)
    (hkeyed : Keyed text.toList program) (h : transform options text = .ok r)
    (hactive : options.isInert text = false) (hmode : options.mode = .production) :
    ∃ collected draft, collect? options program = some collected ∧
      expansion ⟨options, text.toList, collected⟩ = .ok draft ∧ draft.render = .ok r.code ∧
      ∀ site ∈ collected.usages.pending, ∀ props, site.props? = some props →
        (∀ member ∈ props.children, ∀ key, member.listedKey? = some key →
          (keyUnits? numeral text.toList key = some ((listedName text.toList key).toList.map Char.toNat) ↔
            key.isPlainKey numeral text.toList = true)) ∧
        Edit.overwrite props.span (namesList options text.toList props.children) ∈ draft.edits ∧
        ∀ (depth : Nat) (range : Span) (nested : Bool) (out : List Char), range.contains props.span = true →
          draft.Uncovered range nested (.overwrite props.span (namesList options text.toList props.children)) →
          draft.renderRange (depth + 1) range nested = .ok out →
          ∃ front back after, draft.ShowsIn depth range nested
              (.overwrite props.span (namesList options text.toList props.children)) front
              (namesList options text.toList props.children).toList back out after ∧
            ∀ s : ReadState, s.StandsAt ((namesList options text.toList props.children).toList ++ back) →
              s.ReadsProps options text.toList props.children back := by
  obtain ⟨collected, draft, hcollect, hdraft, hcode⟩ := transform_active hparse h hactive
  have htidy := (expansion_recorded hlayout.root hcollect hdraft).tidy hlayout
  refine ⟨collected, draft, hcollect, hdraft, hcode, fun site hs props hprops => ?_⟩
  obtain ⟨hnode, hobject⟩ := (collect?_sites hcollect site hs).props_mem hprops
  have hmembers := hkeyed props hnode hobject
  have hedit : Edit.overwrite props.span (namesList options text.toList props.children) ∈ draft.edits :=
    @props_collapsed ⟨options, text.toList, collected⟩ draft site props hdraft hmode hs hprops
  refine ⟨fun member hm key hkey => listedName_iff numeral ?_, hedit,
    fun depth range nested out hrange hcover hout => ?_⟩
  · have hmember := hmembers member hm
    unfold Tree.listedKey? at hkey
    split at hkey
    · cases hkey
      simpa [Tree.isKeyed] using hmember
    · cases hkey
  · have hbounds := (hlayout.object hnode (Tree.isObject_iff.mp hobject)).bounds.1
    obtain ⟨front, back, after, hshows⟩ := htidy.text_replaced hedit (by omega) hrange hcover hout
    exact ⟨front, back, after, hshows, fun s hs => readsProps hmembers hs⟩

theorem word_readsAgain {source : List Char} {context : Context} {text : String} (htext : text ∈ runtimeWords)
    (hnull : text ≠ "null") {start : Nat}
    (hsource : sourceText source ⟨start, start + byteLength text.toList⟩ = text)
    {back : List Char} (hback : EndsPart back = true) :
    Tree.ReadsAgain source context back (.node (.identifier text) ⟨start, start + byteLength text.toList⟩ []) := by
  obtain ⟨least, hread⟩ := word_part htext
  have hopens : ∀ text ∈ runtimeWords, opensToken text.toList = true := by decide
  constructor
  · show StartsToken _ ((sourceText source ⟨start, start + byteLength text.toList⟩).toList ++ back)
    rw [hsource]
    exact startsToken_of_opensToken (opensToken_append (hopens text htext) back)
  · refine ⟨least, false, fun depth hdepth s hcontext hs => ?_⟩
    change s.StandsAt ((sourceText source ⟨start, start + byteLength text.toList⟩).toList ++ back) at hs
    show _ = some (_,
      (s.past (sourceText source ⟨start, start + byteLength text.toList⟩).toList back).marked false)
    rw [hsource] at hs ⊢
    rw [hread depth s back hdepth hs hback]
    simp [wordAt, hnull, Tree.movedTo, Tree.shifted, shiftedAll, Tree.span, ReadState.marked]

theorem emptyList_readsAgain {source : List Char} {outer : Context} {start : Nat}
    (hsource : sourceText source ⟨start, start + 2⟩ = "[]") (back : List Char) :
    Tree.ReadsAgain source outer.enclosed (')' :: back) (.node .array ⟨start, start + 2⟩ []) := by
  obtain ⟨least, mark, hread⟩ := @names_operand {} source outer (')' :: back) [] (by simp) trivial
  constructor
  · show StartsToken _ ((sourceText source ⟨start, start + 2⟩).toList ++ ')' :: back)
    rw [hsource]
    exact startsToken_of_opensToken rfl
  · refine ⟨least + 4, mark, fun depth hdepth s hcontext hs => ?_⟩
    obtain ⟨depth, rfl⟩ : ∃ d, depth = d + 4 := ⟨depth - 4, by omega⟩
    change s.StandsAt ((sourceText source ⟨start, start + 2⟩).toList ++ ')' :: back) at hs
    show _ = some (_, (s.past (sourceText source ⟨start, start + 2⟩).toList (')' :: back)).marked mark)
    rw [hsource] at hs ⊢
    have hlist := hread depth s (by omega) (by rw [hcontext]; rfl) hs
    obtain ⟨hclose, -⟩ := @ReadState.moveTo_gap s [] (')' :: back) (isGap_nil _) rfl (s.start.offset + 1 + 0 + 1)
    rw [Reader.assignment_literal (by rw [hcontext]; rfl) (Or.inl rfl) hs.token hlist rfl (hclose.marked mark)
      (by decide)]
    simp only [Tree.movedTo, Tree.shifted, Tree.span, Nat.sub_self, Nat.add_sub_cancel_left, shiftedAll]
    rfl

def propSample : String :=
  "import \x7bcomponent as c\x7d from 'm.macro';\nc(\x7bprops: \x7ba: 1, 0x10: 2, [Number]: 3, ...[]\x7d\x7d);"

def propOptions : Options := { mode := .production }

def sampleNumeral (raw : String) : String := if raw = "0x10" then "16" else raw

def isPropSample (source : List Char) (members : List Tree) : Bool :=
  match members with
  | [.node (.property _ false _ _) _ (.node (.name "a") _ [] :: _),
      .node (.property _ false _ _) _ (.node (.number "0x10") number [] :: _),
      .node (.property _ true _ _) _ (.node (.identifier "Number") ⟨first, last⟩ [] :: _),
      .node (.spread _) _ [.node .array ⟨start, stop⟩ []]] =>
    sourceText source number = "0x10" && last = first + 6 && sourceText source ⟨first, last⟩ = "Number" &&
      stop = start + 2 && sourceText source ⟨start, stop⟩ = "[]"
  | _ => false

theorem isPropSample_members {source : List Char} {members : List Tree} (h : isPropSample source members = true) :
    (∃ member ∈ members, ∃ key, member.listedKey? = some key ∧ key.isPlainKey sampleNumeral source = false) ∧
      ∀ (options : Options) (outer : Context) (back : List Char), ReadsNames options source outer.enclosed back
        members := by
  unfold isPropSample at h
  split at h
  · simp only [Bool.and_eq_true, decide_eq_true_eq] at h
    obtain ⟨⟨⟨⟨hnumber, rfl⟩, hword⟩, rfl⟩, hlist⟩ := h
    refine ⟨⟨_, List.mem_cons_of_mem _ (List.mem_cons_self ..), _, rfl, ?_⟩, fun options outer back => ?_⟩
    · simp [Tree.isPlainKey, Tree.kind, Tree.span, hnumber, sampleNumeral]
    · have hkey := @word_readsAgain source outer.enclosed "Number" (by decide) (by decide) _ hword
      exact ⟨trivial, trivial, hkey (endsPart_namesBehind ..), emptyList_readsAgain hlist _, trivial⟩
  · cases h

def showsProps (options : Options) (text : List Char) (draft : Draft) (props : Tree) : Bool :=
  let whole : Span := ⟨0, byteLength text⟩
  whole.contains props.span && isPropSample text props.children &&
    decide (draft.Uncovered whole false (.overwrite props.span (namesList options text props.children)))

theorem props_listed_by_name_iff_number : ∃ program r collected draft,
    parse propOptions.dialect propSample.toList = some program ∧
    Layout propSample.toList program ∧ Keyed propSample.toList program ∧
    transform propOptions propSample = .ok r ∧
    r.code = "\x7bprops: [\"a\", \"0x10\", Number, ...Object.keys([])]\x7d;" ∧
    collect? propOptions program = some collected ∧
    expansion ⟨propOptions, propSample.toList, collected⟩ = .ok draft ∧
    ∃ site ∈ collected.usages.pending, ∃ props, site.props? = some props ∧
      (∃ member ∈ props.children, ∃ key, member.listedKey? = some key ∧
        key.isPlainKey sampleNumeral propSample.toList = false ∧
        keyUnits? sampleNumeral propSample.toList
          key ≠ some ((listedName propSample.toList key).toList.map Char.toNat)) ∧
      ∃ front back after, draft.ShowsIn draft.edits.length ⟨0, byteLength propSample.toList⟩ false
          (.overwrite props.span (namesList propOptions propSample.toList props.children)) front
          (namesList propOptions propSample.toList props.children).toList back r.code.toList after ∧
        ∀ s : ReadState, s.StandsAt ((namesList propOptions propSample.toList props.children).toList ++ back) →
          ∃ least mark, ∀ depth, least ≤ depth → Reader.primary (readersTo depth) s =
            some (namesTree propOptions propSample.toList props.children s.start.offset,
              (s.past (namesList propOptions propSample.toList props.children).toList back).marked mark) := by
  have hsample : ((parse propOptions.dialect propSample.toList).any fun program =>
      decide (Layout propSample.toList program) && decide (Keyed propSample.toList program) &&
        (collect? propOptions program).any fun collected =>
          (expansion ⟨propOptions, propSample.toList, collected⟩).toOption.any fun draft =>
            collected.usages.pending.any fun site =>
              site.props?.any (showsProps propOptions propSample.toList draft)) = true ∧
      ((transform propOptions propSample).toOption.any fun r =>
        r.changed && r.code = "\x7bprops: [\"a\", \"0x10\", Number, ...Object.keys([])]\x7d;") = true := by
            decide +kernel
  obtain ⟨hgood, hok⟩ := hsample
  simp only [Option.any_eq_true, Bool.and_eq_true, decide_eq_true_eq, List.any_eq_true] at hgood hok
  obtain ⟨program, hparse, ⟨hlayout, hkeyed⟩, collected, hcollect, draft, hdraft, site, hs, props, hprops,
    hshows⟩ := hgood
  obtain ⟨r, hr, hchanged, hcode⟩ := hok
  have hr := toOption_eq_some hr
  have hdraft := toOption_eq_some hdraft
  obtain ⟨collected', draft', hcollect', hdraft', hrender, hsites⟩ :=
    props_listed_by_name_iff sampleNumeral hparse hlayout hkeyed hr (not_isInert_of_changed hr hchanged) rfl
  cases hcollect.symm.trans hcollect'
  cases hdraft.symm.trans hdraft'
  obtain ⟨hnames, -, hplaced⟩ := hsites site hs props hprops
  refine ⟨program, r, collected, draft, hparse, hlayout, hkeyed, hr, hcode, hcollect, hdraft, site, hs,
    props, hprops, ?_⟩
  simp only [showsProps, Bool.and_eq_true, decide_eq_true_eq] at hshows
  obtain ⟨⟨hrange, hmembers⟩, hcover⟩ := hshows
  obtain ⟨⟨member, hm, key, hkey, hplain⟩, hreads⟩ := isPropSample_members hmembers
  obtain ⟨front, back, after, hshown, hread⟩ := hplaced draft.edits.length _ _ r.code.toList hrange hcover
    (by rw [← (expansion_recorded hlayout.root hcollect hdraft).source_eq]; exact Draft.render_eq_ok hrender)
  refine ⟨⟨member, hm, key, hkey, hplain, ?_⟩, front, back, after, hshown, fun s hs => ?_⟩
  · rw [ne_eq, hnames member hm key hkey, hplain]
    exact Bool.false_ne_true
  · exact (hread s hs).operand (hreads _ _ _)

end ComponentMacros
