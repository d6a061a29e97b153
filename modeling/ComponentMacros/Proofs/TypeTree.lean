import ComponentMacros.Proofs.Listing

/-!
# What a runtime type says

A type says which values a prop takes: one of the kinds that a check at run time
knows, or one of several. The text of its runtime expression says the same to whoever
reads it as an expression, and nothing else: parentheses do not show in it, and types
that say different things have different texts.
-/

namespace ComponentMacros

/-- What a check at run time knows about values. -/
inductive TypeToken where
  | number
  | boolean
  | string
  | function
  | object
  | symbol
  | array
  | null
  | erased
  deriving DecidableEq, Repr

def TypeToken.ofKind : Kind → TypeToken
  | .keywordType "number" => .number
  | .keywordType "boolean" => .boolean
  | .keywordType "string" => .string
  | .functionType => .function
  | .keywordType "object" | .typeLiteral => .object
  | .keywordType "symbol" => .symbol
  | .tupleType | .arrayType => .array
  | .keywordType "null" => .null
  | _ => .erased

def TypeToken.text : TypeToken → String
  | .number => "Number"
  | .boolean => "Boolean"
  | .string => "String"
  | .function => "Function"
  | .object => "Object"
  | .symbol => "Symbol"
  | .array => "Array"
  | .null => "null"
  | .erased => "void 0"

/-- What a type says, apart from how it is written. -/
inductive TypeTree where
  | leaf (token : TypeToken)
  | union (members : List TypeTree)

namespace TypeTree

mutual

def of : Tree → TypeTree
  | .node .parenthesizedType _ [inner] => of inner
  | .node .unionType _ members => .union (ofAll members)
  | .node kind _ _ => .leaf (.ofKind kind)

def ofAll : List Tree → List TypeTree
  | [] => []
  | t :: ts => of t :: ofAll ts

end

mutual

def text : TypeTree → String
  | .leaf token => token.text
  | .union members => "[" ++ ", ".intercalate (texts members) ++ "]"

def texts : List TypeTree → List String
  | [] => []
  | t :: ts => text t :: texts ts

end

mutual

/-- What an expression says to a check at run time, if it is made of lists and of what such a check
knows. -/
def ofExpression? : Tree → Option TypeTree
  | .node (.identifier "Number") _ [] => some (.leaf .number)
  | .node (.identifier "Boolean") _ [] => some (.leaf .boolean)
  | .node (.identifier "String") _ [] => some (.leaf .string)
  | .node (.identifier "Function") _ [] => some (.leaf .function)
  | .node (.identifier "Object") _ [] => some (.leaf .object)
  | .node (.identifier "Symbol") _ [] => some (.leaf .symbol)
  | .node (.identifier "Array") _ [] => some (.leaf .array)
  | .node .null _ [] => some (.leaf .null)
  | .node (.unary "void") _ [.node (.number "0") _ []] => some (.leaf .erased)
  | .node .array _ elements => (ofExpressions? elements).map .union
  | _ => none

def ofExpressions? : List Tree → Option (List TypeTree)
  | [] => some []
  | t :: ts => do return (← ofExpression? t) :: (← ofExpressions? ts)

end

end TypeTree

mutual

/-- The tree without the parentheses around types, whatever place it was read from. -/
def Tree.bare : Tree → Tree
  | .node .parenthesizedType _ [inner] => inner.bare
  | .node kind _ parts => .node kind ⟨0, 0⟩ (bareAll parts)

def bareAll : List Tree → List Tree
  | [] => []
  | t :: ts => t.bare :: bareAll ts

end

/-- A text is an expression of its own in every context, read as the tree to its end and without a
mistake. -/
def ReadsAs (text : List Char) (tree : Tree) : Prop :=
  ∀ context : Context, ∃ least, ∀ depth : Nat, least ≤ depth →
    ∃ last, readersTo depth .expression (ReadState.scan context ⟨text, 0⟩) = some (tree, last) ∧
      last.token = .done ∧ last.faulty = false

/-! ## What a type says and its text -/

theorem type_induction {motive : Tree → Prop}
    (parenthesized : ∀ span inner, motive inner → motive (.node .parenthesizedType span [inner]))
    (union : ∀ span members, (∀ m ∈ members, motive m) → motive (.node .unionType span members))
    (other : ∀ kind span parts, (∀ inner, kind = .parenthesizedType → parts ≠ [inner]) → kind ≠ .unionType →
      motive (.node kind span parts)) (t : Tree) : motive t :=
  TypeTree.of.induct motive (fun ts => ∀ m ∈ ts, motive m) parenthesized union other nofun
    (fun _ _ ht hts => List.forall_mem_cons.mpr ⟨ht, hts⟩) t

theorem runtimeTypes_eq_map (ts : List Tree) : runtimeTypes ts = ts.map runtimeType := by
  induction ts with
  | nil => rfl
  | cons t ts ih => rw [runtimeTypes, ih, List.map_cons]

theorem TypeTree.ofAll_eq_map (ts : List Tree) : ofAll ts = ts.map of := by
  induction ts with
  | nil => rfl
  | cons t ts ih => rw [ofAll, ih, List.map_cons]

theorem TypeTree.texts_eq_map (ts : List TypeTree) : texts ts = ts.map text := by
  induction ts with
  | nil => rfl
  | cons t ts ih => rw [texts, ih, List.map_cons]

theorem bareAll_eq_map (ts : List Tree) : bareAll ts = ts.map Tree.bare := by
  induction ts with
  | nil => rfl
  | cons t ts ih => rw [bareAll, ih, List.map_cons]

section
variable {kind : Kind} {span : Span} {parts : List Tree}
  (hinner : ∀ inner, kind = .parenthesizedType → parts ≠ [inner]) (hunion : kind ≠ .unionType)
include hinner

theorem bare_other : (Tree.node kind span parts).bare = .node kind ⟨0, 0⟩ (bareAll parts) := by
  rw [Tree.bare.eq_2 kind span parts fun inner hkind hparts => hinner inner hkind hparts]

include hunion

theorem TypeTree.of_other : of (.node kind span parts) = .leaf (.ofKind kind) := by
  rw [of.eq_3 kind span parts (fun inner hkind hparts => hinner inner hkind hparts) hunion]

theorem runtimeType_other : runtimeType (.node kind span parts) = (TypeToken.ofKind kind).text := by
  unfold runtimeType TypeToken.ofKind
  split <;> simp_all [TypeToken.text, erasedText]

end

theorem runtimeType_eq (t : Tree) : runtimeType t = (TypeTree.of t).text := by
  induction t using type_induction with
  | parenthesized span inner ih => rw [runtimeType, TypeTree.of, ih]
  | union span members ih =>
    rw [runtimeType, TypeTree.of, TypeTree.text, runtimeTypes_eq_map, TypeTree.texts_eq_map, TypeTree.ofAll_eq_map,
      List.map_map, List.map_congr_left ih]
    rfl
  | other kind span parts hinner hunion =>
    rw [runtimeType_other hinner hunion, TypeTree.of_other hinner hunion, TypeTree.text]

theorem TypeTree.of_bare (t : Tree) : of t.bare = of t := by
  induction t using type_induction with
  | parenthesized span inner ih => rw [Tree.bare, of, ih]
  | union span members ih =>
    have hbare : (Tree.node .unionType span members).bare = .node .unionType ⟨0, 0⟩ (bareAll members) := rfl
    rw [hbare, of, of, ofAll_eq_map, ofAll_eq_map, bareAll_eq_map, List.map_map]
    exact congrArg union (List.map_congr_left ih)
  | other kind span parts hinner hunion =>
    have hbare : ∀ inner, kind = .parenthesizedType → bareAll parts ≠ [inner] := by
      intro inner hkind hparts
      rw [bareAll_eq_map, List.map_eq_singleton_iff] at hparts
      obtain ⟨t, rfl, -⟩ := hparts
      exact hinner t hkind rfl
    rw [bare_other hinner, of_other hbare hunion, of_other hinner hunion]

/-! ## Reading the text back -/

theorem TypeTree.ofExpression?_runtimeTree (t : Tree) :
    ∀ pos, ofExpression? (runtimeTree t pos) = some (of t) := by
  induction t using type_induction with
  | parenthesized span inner ih =>
    intro pos
    rw [runtimeTree, of, ih]
  | union span members ih =>
    have hmembers : ∀ pos, ofExpressions? (runtimeTrees members pos) = some (ofAll members) := by
      induction members with
      | nil => exact fun _ => rfl
      | cons m ms ihs =>
        intro pos
        rw [runtimeTrees, ofExpressions?, ih m (List.mem_cons_self ..), ihs fun n hn =>
          ih n (List.mem_cons_of_mem _ hn)]
        rfl
    intro pos
    rw [runtimeTree, ofExpression?, hmembers, of]
    rfl
  | other kind span parts hinner hunion =>
    intro pos
    have hleaf := @runtimeTree_leaf (.node kind span parts)
      (fun _ inner heq => hinner inner (congrArg Tree.kind heq) (congrArg Tree.children heq))
      (fun _ _ heq => hunion (congrArg Tree.kind heq)) pos
    rw [hleaf, runtimeType_other hinner hunion, of_other hinner hunion]
    cases TypeToken.ofKind kind <;> rfl

theorem past_end (s : ReadState) (text : List Char) : (s.past text []).token = .done := by
  have hgap : ∀ offset newline,
      skipGap s.context.pageComments .blank [] offset newline = (⟨[], offset⟩, newline, true) := by
    intro offset newline
    cases s.context.pageComments <;> cases newline <;> rfl
  rw [ReadState.past, Cursor.past, ReadState.moveTo, ReadState.scan, hgap]
  rfl

namespace Reader

variable {rules : Rules} {s : ReadState} {t : Tree} {text : List Char}

theorem operator?_of_done (h : s.token = .done) : operator? s = some (none, s) := by
  rw [operator?, bind_of_eq_some (p := get) rfl]
  dsimp only
  rw [h]
  rfl

theorem binaryRule_end {level : Nat} (hprivate : ∀ text, s.token ≠ .privateName text)
    (h : rules .unary s = some (t, s.past text [])) : binaryRule rules level s = some (t, s.past text []) := by
  have hstep : binaryStep rules s.start.offset level t (s.past text []) = some (none, s.past text []) := by
    rw [binaryStep, bind_of_eq_some (operator?_of_done (past_end s text))]
    rfl
  rw [binaryRule, bind_of_eq_some (p := here) rfl, bind_of_eq_some (p := token) rfl]
  cases htoken : s.token with
  | privateName text => exact absurd htoken (hprivate text)
  | _ => exact (bind_of_eq_some h).trans (extend_of_none hstep)

theorem assignmentRule_end (hs : ∀ context : Context, StartsPart { s with context := context })
    (h : ∀ context : Context, rules (.binary 0) { s with context := context } =
      some (t, ReadState.past { s with context := context } text [])) :
    assignmentRule rules s = some (t, s.past text []) := by
  rw [assignmentRule, bind_of_eq_some (p := context) rfl]
  refine within_past rfl ?_
  generalize { s.context with arrowBeforeColon := false } = inner
  have hyield : isAtWord "yield" { s with context := inner } = some (false, { s with context := inner }) := by
    show some (s.token.isWord "yield", _) = _
    rw [(hs inner).plain]
  have hdone : (ReadState.past { s with context := inner } text []).token = .done := past_end _ _
  rw [bind_of_eq_some (p := context) rfl, bind_of_eq_some hyield, Bool.and_false, if_neg Bool.false_ne_true,
    bind_of_eq_some ((hs inner).arrow rules _)]
  dsimp only
  rw [bind_of_eq_some (p := here) rfl, bind_of_eq_some (h inner), bind_of_eq_some (isAt_of_ne (by simp [hdone])),
    if_neg Bool.false_ne_true, bind_of_eq_some (operator?_of_done hdone)]
  rfl

theorem expressionRule_end (h : rules .assignment s = some (t, s.past text [])) :
    expressionRule rules s = some (t, s.past text []) := by
  have hcomma : eat "," (s.past text []) = some (false, s.past text []) :=
    eat_of_ne (by rw [past_end]; nofun)
  have hstep : (do
      if ← eat "," then return some (← rules .assignment)
      return none : Reader (Option Tree)) (s.past text []) = some (none, s.past text []) := by
    rw [bind_of_eq_some hcomma]
    rfl
  have hparts : separated "," (rules .assignment) s = some ([t], s.past text []) := by
    rw [separated, bind_of_eq_some h]
    exact bind_of_eq_some (collect_none hstep (s.past text []).start.rest.length)
  rw [expressionRule, bind_of_eq_some (p := here) rfl, bind_of_eq_some hparts]
  rfl

end Reader

theorem runtimeType_unary (t : Tree) : ∃ least, ∀ (depth : Nat) (s : ReadState), least ≤ depth →
    s.StandsAt (runtimeType t).toList → Reader.StartsPart s ∧
      readersTo depth .unary s = some (runtimeTree t s.start.offset, s.past (runtimeType t).toList []) := by
  have hdone : ∀ (s : ReadState) (text : List Char), (s.past text []).token.continuesOperand = false := by
    intro s text
    rw [past_end]
    rfl
  rcases runtimeType_cases t with ⟨members, -, htext, htree⟩ | ⟨htext, htree⟩ | ⟨htext, htree⟩
  · obtain ⟨least, hoperand⟩ := list_operand members fun m _ => runtime_part m
    refine ⟨least + 2, fun depth s hdepth hs => ?_⟩
    obtain ⟨depth, rfl⟩ : ∃ d, depth = d + 2 := ⟨depth - 2, by omega⟩
    rw [htext] at hs ⊢
    rw [htree]
    rw [← List.append_nil (listText members).toList] at hs
    have htoken := token_list hs
    refine ⟨Reader.startsPart_of_opensOperand (by rw [htoken]; decide), ?_⟩
    exact Reader.unary_whole (hoperand depth s [] (by omega) hs) (Reader.unaryRule_of_opening (Or.inl rfl) htoken)
      (hdone s _)
  · refine ⟨3, fun depth s hdepth hs => ?_⟩
    obtain ⟨depth, rfl⟩ : ∃ d, depth = d + 3 := ⟨depth - 3, by omega⟩
    rw [htext] at hs ⊢
    rw [htree]
    rw [← List.append_nil erasedText.toList] at hs
    refine ⟨Reader.startsPart_of_opensOperand (by rw [token_void hs]; decide), ?_⟩
    exact (readsErased hs).whole rfl (hdone s _) depth
  · refine ⟨2, fun depth s hdepth hs => ?_⟩
    obtain ⟨depth, rfl⟩ : ∃ d, depth = d + 2 := ⟨depth - 2, by omega⟩
    rw [htree]
    rw [← List.append_nil (runtimeType t).toList] at hs
    have hfollowing : s.following.token = .done := by
      rw [hs.following, readLexeme_runtimeWord htext rfl]
      exact past_end s _
    have hword := readsWord htext hs
    refine ⟨Reader.startsPart_word htext (hword.token.mpr rfl) (by rw [hfollowing]; nofun), ?_⟩
    exact hword.whole rfl (hdone s _) depth

theorem runtimeType_readsAs (t : Tree) : ReadsAs (runtimeType t).toList (runtimeTree t 0) := by
  intro context
  obtain ⟨least, hunary⟩ := runtimeType_unary t
  obtain ⟨c, w, htext, hc⟩ := runtimeType_head t
  obtain ⟨s, hstate⟩ : ∃ s, s = ReadState.scan context ⟨(runtimeType t).toList, 0⟩ := ⟨_, rfl⟩
  obtain ⟨hs, hstart⟩ := @moveTo_part (ReadState.scan context ⟨[], 0⟩) c hc w 0
  have hmove : (ReadState.scan context ⟨[], 0⟩).moveTo ⟨c :: w, 0⟩ = s := by
    rw [hstate, htext]
    rfl
  rw [hmove] at hs hstart
  rw [← htext] at hs
  refine ⟨least + 3, fun depth hdepth => ⟨s.past (runtimeType t).toList [], ?_, past_end s _, by rw [hstate]; rfl⟩⟩
  obtain ⟨depth, rfl⟩ : ∃ d, depth = d + 3 := ⟨depth - 3, by omega⟩
  have hoffset : s.start.offset = 0 := by rw [hstart]
  rw [← hstate, ← hoffset]
  refine Reader.expressionRule_end (Reader.assignmentRule_end (fun context => ?_) fun context => ?_)
  · exact (hunary least _ (Nat.le_refl _) (hs.within context)).1
  · obtain ⟨hstarts, hread⟩ := hunary depth _ (by omega) (hs.within context)
    exact Reader.binaryRule_end hstarts.nameless hread

theorem ReadsAs.unique {text : List Char} {t u : Tree} (ht : ReadsAs text t) (hu : ReadsAs text u) : t = u := by
  obtain ⟨least, hread⟩ := ht default
  obtain ⟨least', hread'⟩ := hu default
  obtain ⟨last, h, -⟩ := hread (max least least') (Nat.le_max_left ..)
  obtain ⟨last', h', -⟩ := hread' (max least least') (Nat.le_max_right ..)
  rw [h] at h'
  exact congrArg Prod.fst (Option.some.inj h')

theorem TypeTree.of_injective {t u : Tree} (h : runtimeType t = runtimeType u) : of t = of u := by
  have htree : runtimeTree t 0 = runtimeTree u 0 := by
    refine (runtimeType_readsAs t).unique ?_
    rw [h]
    exact runtimeType_readsAs u
  have hsays := ofExpression?_runtimeTree t 0
  rw [htree, ofExpression?_runtimeTree] at hsays
  exact (Option.some.inj hsays).symm

/-- The runtime expression of a type says what the type says. Its text is read as one expression only,
whatever is around it, and that expression is made of lists and of what a check knows, put together as
in the type. Parentheses around any part of the type do not show in the text, and a type that says
something else has another text. -/
theorem runtimeType_faithful (t : Tree) :
    (∃ expression, ReadsAs (runtimeType t).toList expression ∧ TypeTree.ofExpression? expression = some (.of t) ∧
      ∀ other, ReadsAs (runtimeType t).toList other → other = expression) ∧
    (∀ u : Tree, u.bare = t.bare → runtimeType u = runtimeType t) ∧
    ∀ u : Tree, TypeTree.of u ≠ TypeTree.of t → runtimeType u ≠ runtimeType t := by
  refine ⟨⟨runtimeTree t 0, runtimeType_readsAs t, TypeTree.ofExpression?_runtimeTree t 0, ?_⟩, ?_, ?_⟩
  · intro other hother
    exact hother.unique (runtimeType_readsAs t)
  · intro u hbare
    rw [runtimeType_eq, runtimeType_eq, ← TypeTree.of_bare u, ← TypeTree.of_bare t, hbare]
  · intro u hdiffers htext
    exact hdiffers (TypeTree.of_injective htext)

end ComponentMacros
