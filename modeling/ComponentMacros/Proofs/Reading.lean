import ComponentMacros.Grammar.Program
import ComponentMacros.Proofs.Layout

/-!
# What an expression starts with

The token under the cursor decides how an expression starts, and what follows
can only be built around that start: accesses, calls and operators take what was
read so far as their first part. A goal that asks for an expression therefore
gives a tree with the start in it, however much is read behind it.
-/

namespace ComponentMacros

/-! ## Results of readers -/

namespace Reader

/-- Whatever the reader answers from the state is as `P` says. -/
def Yields {α : Type} (p : Reader α) (s : ReadState) (P : α → ReadState → Prop) : Prop :=
  ∀ a s', p s = some (a, s') → P a s'

section
variable {α β : Type} {s : ReadState} {P : α → ReadState → Prop} {Q : β → ReadState → Prop}

theorem bind_eq_some {p : Reader α} {f : α → Reader β} {r : β × ReadState} :
    (p >>= f) s = some r ↔ ∃ a s', p s = some (a, s') ∧ f a s' = some r := by
  show (p s).bind (fun x => f x.1 x.2) = some r ↔ _
  rw [Option.bind_eq_some_iff]
  exact ⟨fun ⟨(a, s'), h⟩ => ⟨a, s', h⟩, fun ⟨a, s', h⟩ => ⟨(a, s'), h⟩⟩

theorem bind_of_eq_some {p : Reader α} {f : α → Reader β} {a : α} {s' : ReadState} (h : p s = some (a, s')) :
    (p >>= f) s = f a s' := by
  show (p s).bind (fun x => f x.1 x.2) = _
  rw [h, Option.bind_some]

theorem bind_of_eq_none {p : Reader α} {f : α → Reader β} (h : p s = none) : (p >>= f) s = none := by
  show (p s).bind (fun x => f x.1 x.2) = _
  rw [h, Option.bind_none]

theorem Yields.bind {p : Reader α} {f : α → Reader β} (hp : p.Yields s P)
    (hf : ∀ a s', P a s' → (f a).Yields s' Q) : (p >>= f).Yields s Q := by
  intro b s' h
  obtain ⟨a, mid, ha, hb⟩ := bind_eq_some.mp h
  exact hf a mid (hp a mid ha) b s' hb

theorem Yields.skip {p : Reader α} {f : α → Reader β} (hf : ∀ a s', (f a).Yields s' Q) : (p >>= f).Yields s Q :=
  Yields.bind (P := fun _ _ => True) (fun _ _ _ => trivial) fun a s' _ => hf a s'

theorem Yields.of_eq {p : Reader α} {f : α → Reader β} {a : α} {s' : ReadState} (h : p s = some (a, s'))
    (hf : (f a).Yields s' Q) : (p >>= f).Yields s Q := by
  unfold Yields
  rw [bind_of_eq_some h]
  exact hf

theorem yields_pure {a : α} (h : P a s) : Yields (pure a) s P := by
  intro b s' hb
  cases hb
  exact h

theorem yields_failure : Yields (failure : Reader α) s P := by
  intro b s' hb
  cases hb

theorem Yields.mono {p : Reader α} {P' : α → ReadState → Prop} (h : p.Yields s P) (hP : ∀ a s', P a s' → P' a s') :
    p.Yields s P' :=
  fun a s' ha => hP a s' (h a s' ha)

theorem Yields.none {p : Reader α} (h : p s = none) : p.Yields s P := by
  intro a s' ha
  rw [h] at ha
  cases ha

theorem yields_node {kind : Kind} {start : Nat} {children : List Tree} {P : Tree → ReadState → Prop}
    (h : ∀ stop, P (.node kind ⟨start, stop⟩ children) s) : Yields (node kind start children) s P :=
  Yields.of_eq (p := behind) rfl (yields_pure (h _))

theorem isAt_of_eq {text : String} (h : s.token = .punct text) : isAt text s = some (true, s) := by
  show some (decide (s.token = .punct text), s) = _
  rw [decide_eq_true h]

theorem isAt_of_ne {text : String} (h : s.token ≠ .punct text) : isAt text s = some (false, s) := by
  show some (decide (s.token = .punct text), s) = _
  rw [decide_eq_false h]

theorem iterate_yields {step : α → Reader (Option α)} {I : α → Prop}
    (hstep : ∀ a, I a → ∀ s, (step a).Yields s fun r _ => ∀ b, r = some b → I b) :
    ∀ (n : Nat) (a : α) (s : ReadState), I a → (iterate step n a).Yields s fun b _ => I b
  | 0, _, _, ha => yields_pure ha
  | n + 1, a, s, ha => by
    refine Yields.bind (hstep a ha s) fun r s' hr => ?_
    cases r with
    | none => exact yields_pure ha
    | some b => exact iterate_yields hstep n b s' (hr b rfl)

theorem extend_yields {step : α → Reader (Option α)} {I : α → Prop}
    (hstep : ∀ a, I a → ∀ s, (step a).Yields s fun r _ => ∀ b, r = some b → I b) {a : α} (ha : I a) :
    (extend step a).Yields s fun b _ => I b :=
  Yields.of_eq (p := get) rfl (iterate_yields hstep _ a s ha)

theorem extend_of_none {step : α → Reader (Option α)} {a : α} {s' : ReadState} (h : step a s = some (none, s')) :
    extend step a s = some (a, s') := by
  show iterate step (s.start.rest.length + 1) a s = _
  rw [iterate, bind_of_eq_some h]
  rfl

theorem extend_of_some {step : α → Reader (Option α)} {a b : α} {s' : ReadState}
    (h : step a s = some (some b, s')) :
    extend step a s = iterate step s.start.rest.length b s' := by
  show iterate step (s.start.rest.length + 1) a s = _
  rw [iterate, bind_of_eq_some h]

theorem extend_of_eq_none {step : α → Reader (Option α)} {a : α} (h : step a s = none) :
    extend step a s = none := by
  show iterate step (s.start.rest.length + 1) a s = _
  rw [iterate, bind_of_eq_none h]

theorem within_yields {change : Context → Context} {p : Reader α} {P : α → Prop}
    (h : p.Yields { s with context := change s.context } fun a _ => P a) :
    (within change p).Yields s fun a _ => P a := by
  refine Yields.of_eq (p := context) rfl ?_
  refine Yields.of_eq (p := modify _) rfl ?_
  refine Yields.bind h fun a s' ha => ?_
  exact Yields.of_eq (p := modify _) rfl (yields_pure ha)

end

end Reader

/-- The state stands at a text: the first token of the text is the current one. -/
structure ReadState.StandsAt (s : ReadState) (text : List Char) : Prop where
  rest : s.start.rest = text
  token : s.token = (readLexeme text).token
  after : s.after = s.start.past (readLexeme text).raw (readLexeme text).rest

theorem ReadState.moveTo_standsAt {s : ReadState} {cs text : List Char} {offset start : Nat} {newline : Bool}
    (hgap : skipGap s.context.pageComments .blank cs offset (offset = 0) = (⟨text, start⟩, newline, true)) :
    (s.moveTo ⟨cs, offset⟩).StandsAt text ∧ (s.moveTo ⟨cs, offset⟩).start = ⟨text, start⟩ := by
  rw [moveTo, scan]
  dsimp only
  rw [hgap]
  exact ⟨⟨rfl, rfl, rfl⟩, rfl⟩

/-! ## The start of a tree -/

def Goal.asksExpression : Goal → Bool
  | .expression | .assignment | .binary _ | .unary | .leftHandSide | .newCallee => true
  | _ => false

def Goal.asksStatement : Goal → Bool
  | .statement | .substatement => true
  | _ => false

def Token.opensOperand (tk : Token) : Bool :=
  !isNameToken tk && tk ≠ .punct "(" && tk ≠ .punct "<" && match tk with
    | .privateName _ => false
    | _ => true

def Kind.startsWithPart : Kind → Bool
  | .sequence | .conditional | .assignment _ | .binary _ | .asExpression | .satisfiesExpression | .update _ true
  | .member _ | .index _ | .call _ | .chain | .taggedTemplate | .nonNull | .instantiation => true
  | _ => false

/-- The tree is as `P` says, or its first part starts with such a tree. -/
inductive Tree.StartsWith (P : Tree → Prop) : Tree → Prop where
  | self {t : Tree} (h : P t) : StartsWith P t
  | part {kind : Kind} {span : Span} {first : Tree} {rest : List Tree} (hk : kind.startsWithPart = true)
    (h : StartsWith P first) : StartsWith P (.node kind span (first :: rest))

def Tree.Extends (t first : Tree) : Prop :=
  ∃ kind span rest, kind.startsWithPart = true ∧ t = .node kind span (first :: rest)

/-- A property of operands that outlives their use as targets. -/
structure Operand (P : Tree → Prop) : Prop where
  target : ∀ {t u : Tree}, P t → t.toTarget? = some u → P u
  simple : ∀ {t : Tree}, P t → t.isSimpleTarget = false

namespace Tree.StartsWith

variable {P : Tree → Prop} {t u : Tree}

theorem of_extends (h : t.StartsWith P) (hu : u.Extends t) : u.StartsWith P := by
  obtain ⟨kind, span, rest, hk, rfl⟩ := hu
  exact .part hk h

theorem toSimpleTarget (hP : Operand P) (h : t.StartsWith P) (hu : t.toSimpleTarget? = some u) :
    u.StartsWith P := by
  unfold Tree.toSimpleTarget? at hu
  split at hu
  · rename_i hsimple
    cases hu
    cases h with
    | self h => rw [hP.simple h] at hsimple; cases hsimple
    | @part kind span first rest hk h =>
      have hkind : kind ≠ .parenthesized := by rintro rfl; cases hk
      rw [Tree.stripParens_of_kind (t := .node kind span (first :: rest)) hkind]
      exact .part hk h
  · cases hu

theorem toTarget (hP : Operand P) (h : t.StartsWith P) (hu : t.toTarget? = some u) : u.StartsWith P := by
  cases h with
  | self h => exact .self (hP.target h hu)
  | @part kind _ _ _ hk h =>
    unfold Tree.toTarget? at hu
    split at hu
    · rename_i heq; cases heq; cases hk
    · rename_i heq; cases heq; cases hk
    · exact toSimpleTarget hP (.part hk h) hu

end Tree.StartsWith

namespace Reader

section
variable {rules : Rules} {P : Tree → Prop} {s : ReadState}

/-! ## Accesses and calls -/

theorem taggedTemplate_extends {start : Nat} {object : Tree} {more : List Tree} {inChain : Bool} :
    (taggedTemplate rules start (object :: more) inChain).Yields s fun r _ => r.1.Extends object := by
  refine Yields.skip fun _ _ => Yields.skip fun template s' => ?_
  exact Yields.bind (yields_node fun stop => ⟨_, _, _, rfl, rfl⟩) fun t _ ht => yields_pure ht

theorem optionalSuffix_extends {start : Nat} {object : Tree} :
    (optionalSuffix rules start object).Yields s fun t _ => t.Extends object := by
  unfold optionalSuffix
  refine Yields.skip fun bracket s₁ => ?_
  split
  · refine Yields.skip fun key s₂ => Yields.skip fun _ s₃ => yields_node fun stop => ?_
    exact ⟨_, _, _, rfl, rfl⟩
  refine Yields.skip fun paren s₂ => ?_
  split
  · refine Yields.skip fun items s₃ => yields_node fun stop => ?_
    exact ⟨_, _, _, rfl, rfl⟩
  refine Yields.skip fun isTyped s₃ => Yields.skip fun angle s₄ => ?_
  split
  · refine Yields.skip fun generics s₅ => Yields.skip fun items s₆ => yields_node fun stop => ?_
    exact ⟨_, _, _, rfl, rfl⟩
  · refine Yields.skip fun name s₅ => yields_node fun stop => ?_
    exact ⟨_, _, _, rfl, rfl⟩

/-- What a step makes of an expression: another one that extends it, or nothing, and then it has read
nothing. -/
def Step (object : Tree) (s : ReadState) (r : Option (Tree × Bool)) (s' : ReadState) : Prop :=
  (r = none → s' = s) ∧ ∀ b, r = some b → b.1.Extends object

theorem step_none {object : Tree} : Yields (pure none) s (Step object s) :=
  yields_pure ⟨fun _ => rfl, by simp⟩

theorem step_some {object t : Tree} {before : ReadState} {inChain : Bool} (h : t.Extends object) :
    Yields (pure (some (t, inChain))) s (Step object before) :=
  yields_pure ⟨nofun, fun b hb => by cases hb; exact h⟩

theorem step_node {object : Tree} {before : ReadState} {kind : Kind} {start : Nat} {more : List Tree}
    {inChain : Bool} (hk : kind.startsWithPart = true) :
    Yields (do return some (← node kind start (object :: more), inChain)) s (Step object before) :=
  Yields.bind (yields_node (P := fun t _ => t.Extends object) fun _ => ⟨_, _, _, hk, rfl⟩) fun _ _ ht =>
    step_some ht

theorem genericSuffix?_step {start : Nat} {calls : Bool} {object : Tree} {inChain : Bool} :
    (genericSuffix? rules start calls object inChain).Yields s (Step object s) := by
  unfold genericSuffix?
  cases hgenerics : typeArgumentsInExpression rules s with
  | none =>
    have hattempt : attempt (typeArgumentsInExpression rules) s = some (none, s) := by rw [attempt, hgenerics]
    exact Yields.of_eq hattempt step_none
  | some r =>
    have hattempt : attempt (typeArgumentsInExpression rules) s = some (some r.1, r.2) := by
      rw [attempt, hgenerics]
    refine Yields.of_eq hattempt ?_
    refine Yields.skip fun next s₂ => ?_
    split
    · exact Yields.bind taggedTemplate_extends fun _ _ hr => step_some hr
    · split
      · exact Yields.skip fun items s₃ => step_node rfl
      · exact step_node rfl
    · exact step_node rfl

theorem suffix_step {start : Nat} {calls : Bool} {object : Tree} {inChain : Bool} :
    (suffix rules start calls (object, inChain)).Yields s (Step object s) := by
  refine Yields.of_eq (p := token) rfl ?_
  split
  · exact Yields.skip fun _ s₂ => Yields.skip fun name s₃ => step_node rfl
  · split
    · exact Yields.skip fun _ s₂ => Yields.bind optionalSuffix_extends fun _ _ ht => step_some ht
    · exact step_none
  · refine Yields.of_eq (p := context) rfl ?_
    split
    · exact step_none
    · exact Yields.skip fun _ s₃ => Yields.skip fun key s₄ => Yields.skip fun _ s₅ => step_node rfl
  · refine Yields.of_eq (p := typed) rfl ?_
    refine Yields.of_eq (p := newline) rfl ?_
    split
    · exact Yields.skip fun _ s₄ => step_node rfl
    · exact step_none
  · exact Yields.bind taggedTemplate_extends fun _ _ hr => step_some hr
  · refine Yields.of_eq (p := typed) rfl ?_
    split
    · exact genericSuffix?_step
    · exact step_none
  · split
    · exact Yields.skip fun items s₂ => step_node rfl
    · exact step_none
  · exact step_none

theorem suffixes_startsWith {start : Nat} {calls : Bool} {object : Tree} (h : object.StartsWith P) :
    (extend (suffix rules start calls) (object, false)).Yields s fun r _ => r.1.StartsWith P :=
  extend_yields (I := fun r : Tree × Bool => r.1.StartsWith P)
    (fun (_, _) hr _ => suffix_step.mono fun _ _ hstep b hb => hr.of_extends (hstep.2 b hb)) h

theorem newCalleeRule_startsWith (h : (primary rules).Yields s fun t _ => t.StartsWith P) :
    (newCalleeRule rules).Yields s fun t _ => t.StartsWith P := by
  refine Yields.of_eq (p := here) rfl ?_
  refine Yields.bind h fun first s₁ hfirst => ?_
  exact Yields.bind (suffixes_startsWith hfirst) fun r _ hr => yields_pure hr

theorem leftHandSideRule_startsWith (h : (primary rules).Yields s fun t _ => t.StartsWith P) :
    (leftHandSideRule rules).Yields s fun t _ => t.StartsWith P := by
  refine Yields.of_eq (p := here) rfl ?_
  refine Yields.bind h fun first s₁ hfirst => ?_
  refine Yields.bind (suffixes_startsWith hfirst) fun r s₂ hr => ?_
  obtain ⟨tree, inChain⟩ := r
  cases inChain with
  | true => exact yields_node fun stop => .part rfl hr
  | false => exact yields_pure hr

/-! ## Operators -/

theorem postfixExpression_startsWith (hP : Operand P)
    (h : (rules .leftHandSide).Yields s fun t _ => t.StartsWith P) :
    (postfixExpression rules).Yields s fun t _ => t.StartsWith P := by
  refine Yields.of_eq (p := here) rfl ?_
  refine Yields.bind h fun operand s₁ hoperand => ?_
  refine Yields.of_eq (p := token) rfl ?_
  split
  · rename_i text _
    refine Yields.skip fun line s₂ => ?_
    split
    · refine Yields.bind (P := fun t _ => t.StartsWith P) ?_ fun target s₃ htarget => ?_
      · unfold simpleTarget
        split
        · rename_i target heq
          exact yields_pure (hoperand.toSimpleTarget hP heq)
        · exact yields_failure
      · exact Yields.skip fun _ s₄ => yields_node fun stop => .part rfl htarget
    · exact yields_pure hoperand
  · exact yields_pure hoperand

/-- A step of operators answers nothing, a value with its type, or an operator between two operands. -/
theorem binaryStep_yields {start level : Nat} {left : Tree} {Q : Option Tree → ReadState → Prop}
    (nothing : ∀ s, Q none s)
    (ascribed : ∀ kind type s, kind = .asExpression ∨ kind = .satisfiesExpression →
      Yields (do return some (← node kind start [left, type])) s Q)
    (operated : ∀ operator right s, Yields (do
      check (!mixesLogic operator left right && (operator ≠ "**" || isBase left))
      return some (← node (.binary operator) start [left, right])) s Q) :
    (binaryStep rules start level left).Yields s Q := by
  unfold binaryStep
  refine Yields.skip fun found s₁ => ?_
  split
  · split
    · split
      · exact yields_pure (nothing _)
      · refine Yields.skip fun context s₂ => ?_
        split
        · exact yields_pure (nothing _)
        · split
          · refine Yields.skip fun isTyped s₃ => Yields.skip fun line s₄ => ?_
            split
            · exact yields_pure (nothing _)
            · refine Yields.skip fun _ s₅ => Yields.skip fun type s₆ => ascribed _ type s₆ ?_
              split
              · exact Or.inl rfl
              · exact Or.inr rfl
          · -- the words are passed as tokens, the rest by where it ends
            dsimp only
            split
            · exact Yields.skip fun _ s₃ => Yields.skip fun right s₄ => operated _ right s₄
            · exact Yields.skip fun _ s₃ => Yields.skip fun right s₄ => operated _ right s₄
    · exact yields_pure (nothing _)
  · exact yields_pure (nothing _)

theorem binaryStep_startsWith {start level : Nat} {left : Tree} (h : left.StartsWith P) :
    (binaryStep rules start level left).Yields s fun r _ => ∀ b, r = some b → b.StartsWith P := by
  have built : ∀ {kind : Kind} {right : Tree} (s : ReadState), kind.startsWithPart = true → Yields (do
      return some (← node kind start [left, right])) s fun r _ => ∀ b, r = some b → b.StartsWith P := by
    intro kind right s hk
    refine Yields.bind (yields_node (P := fun t _ => t.StartsWith P) fun stop => .part hk h) fun t _ ht => ?_
    exact yields_pure fun b hb => by cases hb; exact ht
  apply binaryStep_yields
  · intro s
    simp
  · rintro kind type s (rfl | rfl)
    · exact built s rfl
    · exact built s rfl
  · intro operator right s
    exact Yields.skip fun _ s₁ => built s₁ rfl

theorem binaryRule_startsWith {level : Nat} (hopens : s.token.opensOperand = true)
    (h : (rules .unary).Yields s fun t _ => t.StartsWith P) :
    (binaryRule rules level).Yields s fun t _ => t.StartsWith P := by
  refine Yields.of_eq (p := here) rfl ?_
  refine Yields.of_eq (p := token) rfl ?_
  dsimp only
  split
  · rename_i text heq
    rw [heq] at hopens
    simp [Token.opensOperand] at hopens
  · refine Yields.bind h fun first s₁ hfirst => ?_
    exact extend_yields (fun left hleft s => binaryStep_startsWith hleft) hfirst

/-! ## Arrow functions and assignments -/

theorem identifier?_of_not_name (h : isNameToken s.token = false) : identifier? s = some (none, s) := by
  rw [identifier?, bind_of_eq_some (p := context) rfl, bind_of_eq_some (p := token) rfl]
  cases htoken : s.token with
  | word text escaped =>
    rw [htoken, isNameToken, Bool.not_eq_false'] at h
    simp only [h, Bool.true_or, if_true]
    rfl
  | _ => rfl

theorem nextIs_state (p : Token → Bool → Bool) (s : ReadState) : ∃ b, nextIs p s = some (b, s) := ⟨_, rfl⟩

theorem isWord_of_not_name {tk : Token} {text : String} (h : isNameToken tk = false)
    (htext : text ∉ reservedWords) :
    tk.isWord text = false := by
  cases tk with
  | word own escaped =>
    rw [isNameToken, Bool.not_eq_false', List.contains_iff_mem] at h
    apply decide_eq_false
    rintro rfl
    exact htext h
  | _ => rfl

theorem isAtWord_of_not_name {text : String} (h : isNameToken s.token = false) (htext : text ∉ reservedWords) :
    isAtWord text s = some (false, s) := by
  show some (s.token.isWord text, s) = _
  rw [isWord_of_not_name h htext]

theorem eatWord_of_not_name {text : String} (h : isNameToken s.token = false) (htext : text ∉ reservedWords) :
    eatWord text s = some (false, s) := by
  rw [eatWord, bind_of_eq_some (isAtWord_of_not_name h htext)]
  rfl

theorem bareHead_of_not_name (h : isNameToken s.token = false) : bareHead s = none := by
  obtain ⟨b, hnext⟩ := nextIs_state (fun next line => !line && isNameToken next) s
  have hbinding : binding s = none := by
    rw [binding, identifier, bind_of_eq_some (identifier?_of_not_name h)]
    rfl
  rw [bareHead, bind_of_eq_some (p := here) rfl, nextIsNameOnLine, bind_of_eq_some hnext]
  cases b with
  | true =>
    rw [if_pos rfl, bind_of_eq_some (eatWord_of_not_name h (by decide))]
    exact bind_of_eq_none hbinding
  | false =>
    rw [if_neg Bool.false_ne_true]
    exact (bind_of_eq_some rfl).trans (bind_of_eq_none hbinding)

theorem not_name_of_opensOperand {tk : Token} (h : tk.opensOperand = true) : isNameToken tk = false := by
  simp only [Token.opensOperand, Bool.and_eq_true, Bool.not_eq_true'] at h
  exact h.1.1.1

theorem arrow?_of_opensOperand {colon : Bool} (hopens : s.token.opensOperand = true) :
    arrow? rules colon s = some (none, s) := by
  simp only [Token.opensOperand, Bool.and_eq_true, Bool.not_eq_true', decide_eq_true_eq] at hopens
  obtain ⟨⟨⟨hname, hparen⟩, hangle⟩, -⟩ := hopens
  have hchance : arrowChance s = some (.no, s) := by
    rw [arrowChance, bind_of_eq_some (p := token) rfl]
    refine congrFun (?_ : _ = (pure .no : Reader ArrowChance)) s
    split
    · rename_i heq; exact absurd heq hparen
    · rename_i heq; exact absurd heq hangle
    · rename_i heq; rw [heq] at hname; cases hname
    · rfl
  have hattempt : attempt bareHead s = some (none, s) := by
    rw [attempt, bareHead_of_not_name hname]
  rw [arrow?, bind_of_eq_some hchance]
  exact bind_of_eq_some hattempt

theorem assignmentRest_startsWith (hP : Operand P) {start : Nat} {left : Tree} {operator : String} {after : Cursor}
    {colon : Bool} (h : left.StartsWith P) :
    (assignmentRest rules start left operator after colon).Yields s fun t _ => t.StartsWith P := by
  unfold assignmentRest
  split
  · exact yields_failure
  · rename_i target heq
    refine Yields.skip fun _ s₁ => Yields.skip fun right s₂ => yields_node fun stop => ?_
    exact .part rfl (h.toTarget hP heq)

theorem assignmentRule_startsWith (hP : Operand P) (hopens : s.token.opensOperand = true)
    (h : ∀ c, (rules (.binary 0)).Yields { s with context := c } fun t _ => t.StartsWith P) :
    (assignmentRule rules).Yields s fun t _ => t.StartsWith P := by
  have hname := not_name_of_opensOperand hopens
  refine Yields.of_eq (p := context) rfl ?_
  refine within_yields ?_
  refine Yields.of_eq (p := context) rfl ?_
  refine Yields.of_eq (isAtWord_of_not_name hname (by decide)) ?_
  rw [Bool.and_false, if_neg Bool.false_ne_true]
  refine Yields.of_eq (arrow?_of_opensOperand hopens) ?_
  refine Yields.of_eq (p := here) rfl ?_
  refine Yields.bind (h _) fun left s₁ hleft => ?_
  refine Yields.skip fun question s₂ => ?_
  split
  · refine Yields.skip fun _ s₃ => Yields.skip fun yes s₄ => Yields.skip fun _ s₅ => Yields.skip fun no s₆ => ?_
    exact yields_node fun stop => .part rfl hleft
  · refine Yields.skip fun found s₃ => ?_
    split
    · split
      · exact assignmentRest_startsWith hP hleft
      · exact yields_pure hleft
    · exact yields_pure hleft

theorem separated_yields {α : Type} {separator : String} {item : Reader α} {I : α → Prop}
    (h : item.Yields s fun a _ => I a) :
    (separated separator item).Yields s fun items _ => ∃ first rest, items = first :: rest ∧ I first :=
  Yields.bind h fun first _ hfirst => Yields.skip fun rest _ => yields_pure ⟨first, rest, rfl, hfirst⟩

theorem expressionRule_startsWith (h : (rules .assignment).Yields s fun t _ => t.StartsWith P) :
    (expressionRule rules).Yields s fun t _ => t.StartsWith P := by
  refine Yields.of_eq (p := here) rfl ?_
  refine Yields.bind (separated_yields h) fun parts s₁ hparts => ?_
  obtain ⟨first, rest, rfl, hfirst⟩ := hparts
  split
  · rename_i heq
    cases heq
    exact yields_pure hfirst
  · exact yields_node fun stop => .part rfl hfirst

/-! ## All expressions -/

/-- The goals that ask for an expression give trees that start with an operand as `P` says of the
position, whenever they are asked at the token. -/
def Opens (tk : Token) (P : Nat → Tree → Prop) (rules : Rules) : Prop :=
  ∀ goal : Goal, goal.asksExpression = true → ∀ s : ReadState, s.token = tk →
    (rules goal).Yields s fun t _ => t.StartsWith (P s.start.offset)

/-- It is enough to know how the token is read where no operator between operands is asked for. -/
theorem opens_readersTo {tk : Token} {P : Nat → Tree → Prop} (hP : ∀ p, Operand (P p))
    (hopens : tk.opensOperand = true) (htight : ∀ rules s, Opens tk P rules → s.token = tk →
      (primary rules).Yields s (fun t _ => t.StartsWith (P s.start.offset)) ∧
      (unaryRule rules).Yields s fun t _ => t.StartsWith (P s.start.offset)) :
    ∀ depth, Opens tk P (readersTo depth)
  | 0 => fun _ _ _ _ => yields_failure
  | depth + 1 => by
    have ih := opens_readersTo hP hopens htight depth
    intro goal hgoal s hs
    have hopens : s.token.opensOperand = true := by rw [hs]; exact hopens
    obtain ⟨hprimary, hunary⟩ := htight _ s ih hs
    cases goal with
    | expression => exact expressionRule_startsWith (ih .assignment rfl s hs)
    | assignment => exact assignmentRule_startsWith (hP _) hopens fun c => ih (.binary 0) rfl _ hs
    | binary level => exact binaryRule_startsWith hopens (ih .unary rfl s hs)
    | unary => exact hunary
    | leftHandSide => exact leftHandSideRule_startsWith hprimary
    | newCallee => exact newCalleeRule_startsWith hprimary
    | _ => cases hgoal

end

end Reader

/-! ## Literals -/

/-- A literal of several parts, and the target that it can become. -/
inductive Literal : Kind → Kind → Prop where
  | object : Literal .object .objectTarget
  | array : Literal .array .arrayTarget

/-- The tree is a literal that starts at a position, or the target that such a literal became. -/
def Tree.LiteralAt (literal target : Kind) (pos : Nat) (t : Tree) : Prop :=
  (t.kind = literal ∨ t.kind = target) ∧ t.span.start = pos

theorem operand_literalAt {literal target : Kind} (h : Literal literal target) (pos : Nat) :
    Operand (Tree.LiteralAt literal target pos) := by
  constructor
  · rintro ⟨kind, span, parts⟩ u ⟨hk, hpos⟩ hu
    cases h <;> rcases hk with rfl | rfl
    case object.inl | array.inl =>
      rw [Tree.toTarget?, Option.map_eq_some_iff] at hu
      obtain ⟨targets, -, rfl⟩ := hu
      exact ⟨Or.inr rfl, hpos⟩
    all_goals cases hu
  · rintro ⟨kind, span, parts⟩ ⟨hk, -⟩
    cases h <;> rcases hk with rfl | rfl <;> rfl

/-- Where an expression is asked for, the token that opens a literal opens an expression with it. -/
theorem Reader.opens_literal {tk : Token} {literal target : Kind} (h : Literal literal target)
    (hopens : tk.opensOperand = true)
    (hunary : ∀ rules s, s.token = tk → unaryRule rules s = postfixExpression rules s)
    (hprimary : ∀ rules s, s.token = tk →
      (primary rules).Yields s fun t _ => t.LiteralAt literal target s.start.offset) :
    ∀ depth, Opens tk (Tree.LiteralAt literal target) (readersTo depth) := by
  refine opens_readersTo (operand_literalAt h) hopens fun rules s hrules hs => ⟨?_, ?_⟩
  · exact (hprimary rules s hs).mono fun t _ ht => .self ht
  · unfold Yields
    rw [hunary rules s hs]
    exact postfixExpression_startsWith (operand_literalAt h _) (hrules .leftHandSide rfl s hs)

theorem Reader.unaryRule_of_opening {s : ReadState} {text : String} (htext : text = "[" ∨ text = "\x7b")
    (hs : s.token = .punct text) (rules : Rules) : unaryRule rules s = postfixExpression rules s := by
  rw [unaryRule, bind_of_eq_some (p := here) rfl, bind_of_eq_some (p := token) rfl, hs]
  rcases htext with rfl | rfl <;> rfl

end ComponentMacros
