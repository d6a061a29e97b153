import ComponentMacros.Expansion.RuntimeType
import ComponentMacros.Proofs.Reading
import ComponentMacros.Proofs.TokenEnd

/-!
# Operands

A word or a number is an operand of its own if no access and no call follows. The
text of an erased type is an operator before a zero: accesses and calls behind it
go to the zero, where none of the looser operators is asked for it is no
expression at all, and a character behind it can become a part of the zero.
-/

namespace ComponentMacros

/-! ## Reading operands -/

def ReadState.following (s : ReadState) : ReadState := s.moveTo s.after

def ReadState.past (s : ReadState) (text back : List Char) : ReadState := s.moveTo (s.start.past text back)

theorem ReadState.StandsAt.following {s : ReadState} {text : List Char} (hs : s.StandsAt text) :
    s.following = s.past (readLexeme text).raw (readLexeme text).rest := by
  rw [ReadState.following, hs.after]
  rfl

namespace Reader

variable {rules : Rules} {s : ReadState}

theorem advance_of_word {text : String} (h : s.token = .word text false) : advance s = some ((), s.following) := by
  rw [advance, bind_of_eq_some (p := get) rfl]
  dsimp only
  rw [h]
  rfl

theorem advance_of_not_word (h : ∀ text escaped, s.token ≠ .word text escaped) :
    advance s = some ((), s.following) := by
  rw [advance, bind_of_eq_some (p := get) rfl]
  dsimp only
  cases htoken : s.token with
  | word text escaped => exact absurd htoken (h text escaped)
  | _ => rfl

theorem leaf_eq {kind : Kind} (h : advance s = some ((), s.following)) :
    leaf kind s = some (.node kind ⟨s.start.offset, s.after.offset⟩ [], s.following) := by
  rw [leaf, bind_of_eq_some (p := here) rfl, bind_of_eq_some h]
  rfl

theorem eat_of_eq {text : String} (h : s.token = .punct text) : eat text s = some (true, s.following) := by
  rw [eat, bind_of_eq_some (isAt_of_eq h), if_pos rfl, bind_of_eq_some (advance_of_not_word (by simp [h]))]
  rfl

theorem eat_of_ne {text : String} (h : s.token ≠ .punct text) : eat text s = some (false, s) := by
  rw [eat, bind_of_eq_some (isAt_of_ne h)]
  rfl

theorem expect_of_eq {text : String} (h : s.token = .punct text) : expect text s = some ((), s.following) := by
  rw [expect, bind_of_eq_some (eat_of_eq h)]
  rfl

theorem expect_of_ne {text : String} (h : s.token ≠ .punct text) : expect text s = none := by
  rw [expect, bind_of_eq_some (eat_of_ne h)]
  rfl

theorem unaryRule_void {t : Tree} {s' : ReadState} (hs : s.token = .word "void" false) :
    unaryRule rules s = some (t, s') ↔ ∃ operand, rules .unary s.following = some (operand, s') ∧
      t = .node (.unary "void") ⟨s.start.offset, s'.previous.offset⟩ [operand] := by
  have hrule : unaryRule rules s = operated rules (.unary "void") s := by
    rw [unaryRule, bind_of_eq_some (p := here) rfl, bind_of_eq_some (p := token) rfl, hs]
    rfl
  rw [hrule, operated, bind_of_eq_some (p := here) rfl, bind_of_eq_some (advance_of_word hs), bind_eq_some]
  constructor
  · rintro ⟨operand, mid, hoperand, hnode⟩
    cases hnode
    exact ⟨operand, hoperand, rfl⟩
  · rintro ⟨operand, hoperand, rfl⟩
    exact ⟨operand, s', hoperand, rfl⟩

theorem extended_kind {start : Nat} {calls : Bool} {object : Tree} {b : Tree × Bool} {s₁ : ReadState}
    (h : suffix rules start calls (object, false) s = some (some b, s₁)) :
    (extend (suffix rules start calls) (object, false)).Yields s fun r _ => r.1.kind.startsWithPart = true := by
  have step : ∀ {object : Tree} {inChain : Bool} (s : ReadState),
    (suffix rules start calls (object, inChain)).Yields s
      fun r _ => ∀ b, r = some b → b.1.kind.startsWithPart = true := by
    intro object inChain s
    refine suffix_step.mono fun r _ hstep b hb => ?_
    obtain ⟨kind, span, rest, hk, heq⟩ := hstep.2 b hb
    rw [heq]
    exact hk
  unfold Yields
  rw [extend_of_some h]
  exact iterate_yields (I := fun r : Tree × Bool => r.1.kind.startsWithPart = true)
    (fun (_, _) _ s => step s) _ b s₁
    (step s _ _ h b rfl)

section
variable {operand leaf : Tree} {next : ReadState} (hprimary : ∀ rules, primary rules s = some (leaf, next))
include hprimary

theorem leftHandSide_leaf {t : Tree} {s' : ReadState} (h : leftHandSideRule rules s = some (t, s')) :
    (t = leaf ∧ s' = next ∧ suffix rules s.start.offset true (leaf, false) next = some (none, next)) ∨
      (t.kind.startsWithPart = true ∧ suffix rules s.start.offset true (leaf, false) next ≠
        some (none, next)) := by
  rw [leftHandSideRule, bind_of_eq_some (p := here) rfl, bind_of_eq_some (hprimary rules)] at h
  cases hsuffix : suffix rules s.start.offset true (leaf, false) next with
  | none =>
    rw [bind_of_eq_none (extend_of_eq_none hsuffix)] at h
    cases h
  | some r =>
    obtain ⟨found, s₁⟩ := r
    cases found with
    | none =>
      obtain rfl := (suffix_step _ _ hsuffix).1 rfl
      rw [bind_of_eq_some (extend_of_none hsuffix)] at h
      cases h
      exact Or.inl ⟨rfl, rfl, rfl⟩
    | some b =>
      refine Or.inr ⟨?_, by simp⟩
      refine Yields.bind (Q := fun (t : Tree) _ => t.kind.startsWithPart = true) (extended_kind hsuffix)
        (fun r s₂ hr => ?_) t s' h
      obtain ⟨tree, inChain⟩ := r
      cases inChain with
      | true => exact yields_node fun _ => rfl
      | false => exact yields_pure hr

theorem unary_leaf (hplain : ∀ rules, unaryRule rules s = postfixExpression rules s)
    (hsimple : leaf.isSimpleTarget = false) {depth : Nat} {t : Tree} {s' : ReadState}
    (h : readersTo (depth + 2) .unary s = some (t, s')) :
    (t = leaf ∧ s' = next ∧ suffix (readersTo depth) s.start.offset true (leaf, false) next = some (none, next)) ∨
      (t.kind.startsWithPart = true ∧
        suffix (readersTo depth) s.start.offset true (leaf, false) next ≠ some (none, next)) := by
  change unaryRule (readersTo (depth + 1)) s = _ at h
  rw [hplain, postfixExpression, bind_of_eq_some (p := here) rfl] at h
  obtain ⟨operand, s₁, hoperand, h⟩ := bind_eq_some.mp h
  rcases leftHandSide_leaf hprimary hoperand with ⟨rfl, rfl, hnone⟩ | ⟨hkind, hsome⟩
  · -- a leaf cannot be updated
    have hleaf : simpleTarget operand = failure := by simp [simpleTarget, Tree.toSimpleTarget?, hsimple]
    have hwhole : t = operand ∧ s' = s₁ := by
      refine Yields.of_eq (p := token) (Q := fun (t : Tree) s' => t = operand ∧ s' = s₁) rfl ?_ t s' h
      split
      · refine Yields.of_eq (p := newline) rfl ?_
        split
        · rw [hleaf]
          exact Yields.bind (P := fun _ _ => False) yields_failure fun _ _ hfalse => hfalse.elim
        · exact yields_pure ⟨rfl, rfl⟩
      · exact yields_pure ⟨rfl, rfl⟩
    exact Or.inl ⟨hwhole.1, hwhole.2, hnone⟩
  · refine Or.inr ⟨?_, hsome⟩
    refine Yields.of_eq (p := token) (Q := fun (t : Tree) _ => t.kind.startsWithPart = true) rfl ?_ t s' h
    split
    · refine Yields.of_eq (p := newline) rfl ?_
      split
      · exact Yields.skip fun target s₂ => Yields.skip fun _ s₃ => yields_node fun _ => rfl
      · exact yields_pure hkind
    · exact yields_pure hkind

end

end Reader

def Token.continuesOperand : Token → Bool
  | .punct text => [".", "?.", "[", "!", "<", "(", "++", "--"].contains text
  | .template _ _ => true
  | _ => false

namespace Reader

variable {rules : Rules} {s : ReadState}

theorem suffix_of_not_continues {start : Nat} {calls : Bool} {object : Tree} {inChain : Bool}
    (h : s.token.continuesOperand = false) : suffix rules start calls (object, inChain) s = some (none, s) := by
  rw [suffix, bind_of_eq_some (p := token) rfl]
  refine congrFun (?_ : _ = (pure none : Reader (Option (Tree × Bool)))) s
  split <;> first
    | rfl
    | rename_i heq
      rw [heq] at h
      cases h

/-- What accesses and calls are made of is an operand if the next token does not go on with it. -/
theorem unary_of_leftHandSide {depth : Nat} {t : Tree} {next : ReadState}
    (hleft : readersTo (depth + 1) .leftHandSide s = some (t, next))
    (hplain : ∀ rules, unaryRule rules s = postfixExpression rules s)
    (hnext : next.token.continuesOperand = false) :
    readersTo (depth + 2) .unary s = some (t, next) := by
  show unaryRule (readersTo (depth + 1)) s = _
  rw [hplain, postfixExpression, bind_of_eq_some (p := here) rfl, bind_of_eq_some hleft,
    bind_of_eq_some (p := token) rfl]
  cases htoken : next.token with
  | punct text =>
    rw [htoken] at hnext
    have hupdate : text ≠ "++" ∧ text ≠ "--" := by
      constructor <;> rintro rfl <;> cases hnext
    dsimp only
    rw [bind_of_eq_some (p := newline) rfl]
    simp only [hupdate, decide_false, Bool.or_self, Bool.false_and, Bool.false_eq_true, if_false]
    rfl
  | _ => rfl

theorem unary_whole {depth : Nat} {leaf : Tree} {next : ReadState}
    (hprimary : primary (readersTo depth) s = some (leaf, next))
    (hplain : ∀ rules, unaryRule rules s = postfixExpression rules s)
    (hnext : next.token.continuesOperand = false) :
    readersTo (depth + 2) .unary s = some (leaf, next) := by
  refine unary_of_leftHandSide ?_ hplain hnext
  show leftHandSideRule (readersTo depth) s = _
  rw [leftHandSideRule, bind_of_eq_some (p := here) rfl, bind_of_eq_some hprimary,
    bind_of_eq_some (extend_of_none (suffix_of_not_continues hnext))]
  rfl

theorem binaryStep_power {start level : Nat} {left : Tree} (h : isBase left = false) :
    (binaryStep rules start level left).Yields s fun r s' =>
      ∀ t, r = some t → t.kind = .binary "**" → s'.faulty = true := by
  have other : ∀ {kind : Kind} {right : Tree} (s : ReadState), kind ≠ .binary "**" → Yields (do
      return some (← node kind start [left, right])) s fun r s' =>
        ∀ t, r = some t → t.kind = .binary "**" → s'.faulty = true := by
    intro kind right s hk
    refine Yields.bind (yields_node (P := fun t _ => t.kind ≠ .binary "**") fun stop => hk) fun t _ ht => ?_
    exact yields_pure fun u hu hkind => by cases hu; exact absurd hkind ht
  apply binaryStep_yields
  · intro s
    simp
  · rintro kind type s (rfl | rfl)
    · exact other s nofun
    · exact other s nofun
  · intro operator right s
    by_cases hop : operator = "**"
    · have hcheck : check (!mixesLogic operator left right && (operator ≠ "**" || isBase left)) s =
          some ((), { s with faulty := true }) := by
        rw [hop, h]
        simp only [ne_eq, not_true_eq_false, decide_false, Bool.or_self, Bool.and_false]
        rfl
      refine Yields.of_eq hcheck ?_
      refine Yields.of_eq (p := node _ _ _) rfl ?_
      exact yields_pure fun _ _ _ => rfl
    · refine Yields.skip fun _ s₁ => other s₁ ?_
      simpa using hop

end Reader

/-! ## Reading an erased type -/

namespace Reader

variable {s : ReadState}

theorem primary_number {raw : String} (h : s.token = .number raw) (rules : Rules) :
    primary rules s = some (.node (.number raw) ⟨s.start.offset, s.after.offset⟩ [], s.following) := by
  rw [primary, bind_of_eq_some (p := token) rfl, h]
  exact leaf_eq (advance_of_not_word (by rw [h]; exact nofun))

theorem unaryRule_of_literal (hp : ∀ text, s.token ≠ .punct text)
    (hw : ∀ text escaped, s.token ≠ .word text escaped)
    (rules : Rules) : unaryRule rules s = postfixExpression rules s := by
  rw [unaryRule, bind_of_eq_some (p := here) rfl, bind_of_eq_some (p := token) rfl]
  cases htoken : s.token with
  | punct text => exact absurd htoken (hp text)
  | word text escaped => exact absurd htoken (hw text escaped)
  | _ => rfl

theorem primary_bigint {raw : String} (h : s.token = .bigint raw) (rules : Rules) :
    primary rules s = some (.node (.bigint raw) ⟨s.start.offset, s.after.offset⟩ [], s.following) := by
  rw [primary, bind_of_eq_some (p := token) rfl, h]
  exact leaf_eq (advance_of_not_word (by rw [h]; exact nofun))

end Reader

def zeroAt (pos : Nat) : Tree := .node (.number "0") ⟨pos, pos + 1⟩ []

def voidZero (pos : Nat) : Tree := .node (.unary "void") ⟨pos, pos + 6⟩ [zeroAt (pos + 5)]

/-- The tree is the operator of an erased type with some operand. -/
def Tree.VoidAt (pos : Nat) (t : Tree) : Prop :=
  t.kind = .unary "void" ∧ t.span.start = pos

theorem operand_voidAt (pos : Nat) : Operand (Tree.VoidAt pos) := by
  constructor
  · rintro ⟨kind, span, members⟩ u ⟨rfl, -⟩ hu
    cases hu
  · rintro ⟨kind, span, members⟩ ⟨rfl, -⟩
    rfl

theorem readLexeme_void (back : List Char) :
    readLexeme (erasedText.toList ++ back) = ⟨.word "void" false, "void".toList, ' ' :: '0' :: back⟩ := rfl

theorem skipGap_zero (page : PageComments) (back : List Char) (offset : Nat) (newline : Bool) :
    skipGap page .blank (' ' :: '0' :: back) offset newline = (⟨'0' :: back, offset + 1⟩, newline, true) := by
  cases page <;> cases newline <;> rfl

section
variable {s : ReadState} {back : List Char} (hs : s.StandsAt (erasedText.toList ++ back))
include hs

theorem token_void : s.token = .word "void" false := by
  rw [hs.token, readLexeme_void]

theorem standsAt_zero : s.following.StandsAt ('0' :: back) ∧
    s.following.start.offset = s.start.offset + 5 := by
  rw [ReadState.following, hs.after, readLexeme_void]
  obtain ⟨hzero, hstart⟩ := ReadState.moveTo_standsAt (s := s)
    (skipGap_zero s.context.pageComments back (s.start.offset + 4) (s.start.offset + 4 = 0))
  exact ⟨hzero, congrArg Cursor.offset hstart⟩

theorem primary_void (rules : Rules) : Reader.primary rules s = none := by
  have hword : Reader.identifier .identifier s = none := by
    rw [Reader.identifier, Reader.bind_of_eq_some (Reader.identifier?_of_not_name (by rw [token_void hs]; decide))]
    rfl
  rw [Reader.primary, Reader.bind_of_eq_some (p := Reader.token) rfl, token_void hs]
  exact hword

theorem void_tight {depth : Nat} {goal : Goal} (hgoal : goal = .leftHandSide ∨ goal = .newCallee) :
    readersTo depth goal s = none := by
  cases depth with
  | zero => rfl
  | succ depth =>
    rcases hgoal with rfl | rfl
    · show Reader.leftHandSideRule (readersTo depth) s = none
      rw [Reader.leftHandSideRule, Reader.bind_of_eq_some (p := Reader.here) rfl,
        Reader.bind_of_eq_none (primary_void hs _)]
    · show Reader.newCalleeRule (readersTo depth) s = none
      rw [Reader.newCalleeRule, Reader.bind_of_eq_some (p := Reader.here) rfl,
        Reader.bind_of_eq_none (primary_void hs _)]

end

/-- A zero is an operand of its own if and only if no character of a number follows, and no access or
call. -/
theorem zero_operand {z : ReadState} {back : List Char} (hz : z.StandsAt ('0' :: back)) {depth : Nat}
    {operand : Tree} {s' : ReadState} (h : readersTo (depth + 2) .unary z = some (operand, s')) :
    (operand = zeroAt z.start.offset ↔ Detached back = true ∧
      Reader.suffix (readersTo depth) z.start.offset true (zeroAt z.start.offset, false) (z.past ['0'] back) =
        some (none, z.past ['0'] back)) ∧
    (operand = zeroAt z.start.offset → s'.previous.offset = z.start.offset + 1) := by
  have htoken : z.token = .number "0" ↔ Detached back = true := by
    rw [hz.token]
    exact readLexeme_zero_iff
  have hcases := @readLexeme_digit_cases '0' back rfl
  rw [← hz.token] at hcases
  rcases hcases with hinvalid | ⟨raw, hbig⟩ | ⟨raw, hnumber⟩
  · -- without a token nothing is read
    have hprimary : Reader.primary (readersTo depth) z = none := by
      rw [Reader.primary, Reader.bind_of_eq_some (p := Reader.token) rfl, hinvalid]
      rfl
    have hleft : readersTo (depth + 1) .leftHandSide z = none := by
      show Reader.leftHandSideRule (readersTo depth) z = none
      rw [Reader.leftHandSideRule, Reader.bind_of_eq_some (p := Reader.here) rfl, Reader.bind_of_eq_none hprimary]
    change Reader.unaryRule (readersTo (depth + 1)) z = _ at h
    rw [Reader.unaryRule_of_literal (by simp [hinvalid]) (by simp [hinvalid]), Reader.postfixExpression,
      Reader.bind_of_eq_some (p := Reader.here) rfl, Reader.bind_of_eq_none hleft] at h
    cases h
  · -- a large integer is another operand
    have hne : operand ≠ zeroAt z.start.offset := by
      rintro rfl
      rcases Reader.unary_leaf (Reader.primary_bigint hbig)
        (Reader.unaryRule_of_literal (by simp [hbig]) (by simp [hbig])) rfl h with ⟨heq, -⟩ | ⟨hkind, -⟩
      · cases heq
      · cases hkind
    have hnot : Detached back ≠ true := by
      intro hback
      have := hbig.symm.trans (htoken.mpr hback)
      cases this
    exact ⟨⟨fun heq => absurd heq hne, fun hright => absurd hright.1 hnot⟩, fun heq => absurd heq hne⟩
  · have hread := Reader.unary_leaf (Reader.primary_number hnumber)
      (Reader.unaryRule_of_literal (by simp [hnumber]) (by simp [hnumber])) rfl h
    by_cases hback : Detached back = true
    · have hraw := hnumber.symm.trans (htoken.mpr hback)
      cases hraw
      have hafter : z.after.offset = z.start.offset + 1 := by
        rw [hz.after, readLexeme_zero hback]
        rfl
      have hnext : z.following = z.past ['0'] back := by rw [hz.following, readLexeme_zero hback]
      rw [hafter, hnext] at hread
      rcases hread with ⟨heq, rfl, hnone⟩ | ⟨hkind, hsome⟩
      · exact ⟨⟨fun _ => ⟨hback, hnone⟩, fun _ => heq⟩, fun _ => rfl⟩
      · have hne : operand ≠ zeroAt z.start.offset := by rintro rfl; cases hkind
        exact ⟨⟨fun heq => absurd heq hne, fun hright => absurd hright.2 hsome⟩, fun heq => absurd heq hne⟩
    · have hne : operand ≠ zeroAt z.start.offset := by
        rintro rfl
        rcases hread with ⟨heq, -⟩ | ⟨hkind, -⟩
        · have hraw : Kind.number "0" = .number raw := congrArg Tree.kind heq
          cases hraw
          exact hback (htoken.mp hnumber)
        · cases hkind
      exact ⟨⟨fun heq => absurd heq hne, fun hright => absurd hright.1 hback⟩, fun heq => absurd heq hne⟩

/-- How an erased type is read. Where only accesses and calls are asked for there is no expression, and
everywhere else there is one with the operator in it. This operator is applied to the zero alone if and
only if no character of a number follows, and no access or call; it is no base of a power. -/
structure ReadState.ReadsErased (s : ReadState) (back : List Char) : Prop where
  tight : ∀ (depth : Nat) (goal : Goal), goal = .leftHandSide ∨ goal = .newCallee → readersTo depth goal s = none
  loose : ∀ (depth : Nat) (goal : Goal) (t : Tree) (s' : ReadState), goal.asksExpression = true →
    readersTo depth goal s = some (t, s') → t.StartsWith (Tree.VoidAt s.start.offset)
  operand : ∀ (depth : Nat) (t : Tree) (s' : ReadState), readersTo (depth + 3) .unary s = some (t, s') →
    (t = voidZero s.start.offset ↔ Detached back = true ∧
      Reader.suffix (readersTo depth) (s.start.offset + 5) true (zeroAt (s.start.offset + 5), false)
        (s.past erasedText.toList back) = some (none, s.past erasedText.toList back))
  whole : Detached back = true → (s.past erasedText.toList back).token.continuesOperand = false → ∀ depth : Nat,
    readersTo (depth + 3) .unary s = some (voidZero s.start.offset, s.past erasedText.toList back)
  power : ∀ (rules : Rules) (start level : Nat) (t u : Tree) (s₁ s₂ : ReadState), t.VoidAt s.start.offset →
    Reader.binaryStep rules start level t s₁ = some (some u, s₂) → u.kind = .binary "**" → s₂.faulty = true

namespace Reader

theorem void_opens : ∀ depth, Opens (.word "void" false) Tree.VoidAt (readersTo depth) := by
  refine opens_readersTo operand_voidAt (by decide) fun rules s hrules hs => ⟨?_, ?_⟩
  · -- no operand starts with the operator
    refine Yields.of_eq (p := token) rfl ?_
    rw [hs]
    refine Yields.of_eq (identifier?_of_not_name (by rw [hs]; decide)) ?_
    exact yields_failure
  · intro t s' h
    obtain ⟨operand, -, rfl⟩ := (unaryRule_void hs).mp h
    exact .self ⟨rfl, rfl⟩

end Reader

theorem readsErased {s : ReadState} {back : List Char} (hs : s.StandsAt (erasedText.toList ++ back)) :
    s.ReadsErased back := by
  have htoken := token_void hs
  obtain ⟨hzero, hoffset⟩ := standsAt_zero hs
  have hpast : s.following.past ['0'] back = s.past erasedText.toList back := by
    rw [ReadState.past, Cursor.past, hoffset]
    rfl
  refine ⟨fun depth goal hgoal => void_tight hs hgoal, ?_, ?_, ?_, ?_⟩
  · intro depth goal t s' hgoal h
    exact Reader.void_opens depth goal hgoal s htoken t s' h
  · intro depth t s' h
    obtain ⟨operand, hoperand, rfl⟩ := (Reader.unaryRule_void htoken).mp h
    obtain ⟨hiff, hstop⟩ := zero_operand hzero hoperand
    rw [hpast] at hiff
    rw [hoffset] at hiff hstop
    rw [← hiff]
    constructor
    · intro heq
      exact (List.cons.inj (Tree.node.inj heq).2.2).1
    · rintro rfl
      rw [voidZero, hstop rfl]
  · intro hback hnext depth
    have hlexeme := readLexeme_zero hback
    have hnumber : s.following.token = .number "0" := by rw [hzero.token, hlexeme]
    have hafter : s.following.after.offset = s.start.offset + 6 := by
      rw [hzero.after, hlexeme, Cursor.past, hoffset]
      rfl
    have hwhole := Reader.primary_number hnumber (readersTo depth)
    rw [hzero.following, hlexeme, hpast, hafter, hoffset] at hwhole
    refine (Reader.unaryRule_void htoken).mpr ⟨zeroAt (s.start.offset + 5), ?_, rfl⟩
    exact Reader.unary_whole hwhole (Reader.unaryRule_of_literal (by simp [hnumber]) (by simp [hnumber])) hnext
  · intro rules start level t u s₁ s₂ ht h hkind
    refine Reader.binaryStep_power ?_ _ _ h u rfl hkind
    rw [Reader.isBase, ht.1]

/-! ## Reading a runtime type -/

def runtimeWords : List String :=
  ["Number", "Boolean", "String", "Function", "Object", "Symbol", "Array", "null"]

def wordAt (text : String) (pos : Nat) : Tree :=
  .node (if text = "null" then .null else .identifier text) ⟨pos, pos + byteLength text.toList⟩ []

/-- How a word for a type is read: as an operand of its own if and only if no character of a word
follows, and then wherever accesses and calls are asked for. -/
structure ReadState.ReadsWord (s : ReadState) (text : String) (back : List Char) : Prop where
  token : s.token = .word text false ↔ EndsWord back = true
  operand : EndsWord back = true → ∀ rules,
    Reader.primary rules s = some (wordAt text s.start.offset, s.past text.toList back)
  tight : EndsWord back = true → ∀ (depth : Nat) (goal : Goal) (t : Tree) (s' : ReadState),
    goal = .leftHandSide ∨ goal = .newCallee → readersTo depth goal s = some (t, s') →
      t.StartsWith (· = wordAt text s.start.offset)
  whole : EndsWord back = true → (s.past text.toList back).token.continuesOperand = false → ∀ depth : Nat,
    readersTo (depth + 2) .unary s = some (wordAt text s.start.offset, s.past text.toList back)

namespace Reader

variable {s : ReadState}

theorem identifier_word {kind : String → Kind} {text : String} (h : s.token = .word text false)
    (hreserved : reservedWords.contains text = false) (hawait : text ≠ "await") (hyield : text ≠ "yield") :
    identifier kind s = some (.node (kind text) ⟨s.start.offset, s.after.offset⟩ [], s.following) := by
  have hname : identifier? s = some (some text, s) := by
    rw [identifier?, bind_of_eq_some (p := context) rfl, bind_of_eq_some (p := token) rfl, h]
    simp only [hreserved, hawait, hyield, decide_false, Bool.and_false, Bool.or_self, Bool.false_eq_true, if_false]
    rfl
  rw [identifier, bind_of_eq_some hname]
  rfl

theorem primary_word {text : String} (htext : text ∈ runtimeWords) (h : s.token = .word text false)
    (rules : Rules) :
    primary rules s = some
      (.node (if text = "null" then .null else .identifier text) ⟨s.start.offset, s.after.offset⟩ [],
        s.following) := by
  rw [primary, bind_of_eq_some (p := token) rfl, h]
  simp only [runtimeWords, List.mem_cons, List.not_mem_nil, or_false] at htext
  rcases htext with rfl | rfl | rfl | rfl | rfl | rfl | rfl | rfl
  case inr.inr.inr.inr.inr.inr.inr => exact leaf_eq (advance_of_word h)
  all_goals exact identifier_word h (by decide) (by decide) (by decide)

theorem unaryRule_word {text : String} (htext : text ∈ runtimeWords) (h : s.token = .word text false)
    (rules : Rules) :
    unaryRule rules s = postfixExpression rules s := by
  have hwords : ["delete", "void", "typeof"].contains text = false ∧ text ≠ "await" := by
    clear h
    revert text
    decide
  have hawait : isAtAwait s = some (false, s) := by
    have hat : isAtWord "await" s = some (false, s) := by
      show some (s.token.isWord "await", s) = _
      rw [h, Token.isWord, decide_eq_false hwords.2]
    rw [isAtAwait, bind_of_eq_some hat]
    rfl
  rw [unaryRule, bind_of_eq_some (p := here) rfl, bind_of_eq_some (p := token) rfl, h]
  dsimp only
  rw [hwords.1, if_neg Bool.false_ne_true, bind_of_eq_some hawait]
  rfl

end Reader

theorem runtimeWords_spelled : ∀ text ∈ runtimeWords, ∃ c w, text.toList = c :: w ∧
    isIdentifierStart c = true ∧ c.isDigit = false ∧ ∀ d ∈ w, isIdentifierPart d = true := by
  have hspelled : ∀ text ∈ runtimeWords, text.toList ≠ [] ∧
      (text.toList.head?.all fun c => isIdentifierStart c && !c.isDigit) = true ∧
        text.toList.tail.all isIdentifierPart = true := by decide
  intro text htext
  obtain ⟨hne, hfirst, hrest⟩ := hspelled text htext
  cases hlist : text.toList with
  | nil => exact absurd hlist hne
  | cons c w =>
    rw [hlist] at hfirst hrest
    simp only [List.head?_cons, Option.all_some, Bool.and_eq_true, Bool.not_eq_true'] at hfirst
    exact ⟨c, w, rfl, hfirst.1, hfirst.2, List.all_eq_true.mp hrest⟩

theorem readLexeme_runtimeWord {text : String} {back : List Char} (htext : text ∈ runtimeWords)
    (hback : EndsWord back = true) : readLexeme (text.toList ++ back) = ⟨.word text false, text.toList, back⟩ := by
  obtain ⟨c, w, hspelled, hc, hdigit, hw⟩ := runtimeWords_spelled text htext
  rw [hspelled, List.cons_append, readLexeme_word hc hdigit hw hback, ← hspelled, String.ofList_toList]

theorem readsWord {s : ReadState} {text : String} {back : List Char} (htext : text ∈ runtimeWords)
    (hs : s.StandsAt (text.toList ++ back)) : s.ReadsWord text back := by
  have htoken : s.token = .word text false ↔ EndsWord back = true := by
    obtain ⟨c, w, hspelled, hc, hdigit, hw⟩ := runtimeWords_spelled text htext
    have hlist : String.ofList (c :: w) = text := by rw [← hspelled, String.ofList_toList]
    rw [hs.token, hspelled, ← hlist]
    exact readLexeme_word_iff hc hdigit hw
  have hprimary : EndsWord back = true → ∀ rules,
      Reader.primary rules s = some (wordAt text s.start.offset, s.past text.toList back) := by
    intro hback rules
    rw [Reader.primary_word htext (htoken.mpr hback), hs.following, hs.after, readLexeme_runtimeWord htext hback]
    rfl
  refine ⟨htoken, hprimary, ?_, ?_⟩
  · intro hback depth goal t s' hgoal h
    have hself : (Reader.primary (readersTo (depth - 1))).Yields s fun t _ =>
        t.StartsWith (· = wordAt text s.start.offset) := by
      intro t s' h
      rw [hprimary hback] at h
      cases h
      exact .self rfl
    cases depth with
    | zero => cases h
    | succ depth =>
      rcases hgoal with rfl | rfl
      · exact Reader.leftHandSideRule_startsWith hself t s' h
      · exact Reader.newCalleeRule_startsWith hself t s' h
  · intro hback hnext depth
    exact Reader.unary_whole (hprimary hback _) (Reader.unaryRule_word htext (htoken.mpr hback)) hnext

end ComponentMacros
