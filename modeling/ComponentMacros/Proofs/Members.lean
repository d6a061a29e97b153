import ComponentMacros.Proofs.Gap
import ComponentMacros.Proofs.Listing

/-!
# Items and members

Items with commas between them are read one after the other up to the token that
closes them. The members of an object literal are such items: a name and a colon
make a member of what is read behind them, and no member starts with a comma or a
brace.
-/

namespace ComponentMacros

def Context.enclosed (c : Context) : Context :=
  { c with noIn := false, noIndex := false, arrowBeforeColon := false }

namespace Reader

variable {rules : Rules} {s : ReadState}

/-! ## Items -/

section
variable {α : Type} {item : Reader α} {close : String} {a : α} {next : ReadState}

def commaStep (close : String) (item : Reader α) : Reader (Option α) := do
  if ← isAt close then return none
  let a ← item
  unless ← eat "," do require (← isAt close)
  return some a

theorem commaItems_eq : commaItems close item s = collect (commaStep close item) (s.start.rest.length + 1) s := rfl

theorem commaStep_end (h : s.token = .punct close) : commaStep close item s = some (none, s) := by
  rw [commaStep, bind_of_eq_some (isAt_of_eq h)]
  rfl

theorem commaStep_comma (hopen : s.token ≠ .punct close) (hitem : item s = some (a, next))
    (h : next.token = .punct ",") : commaStep close item s = some (some a, next.following) := by
  rw [commaStep, bind_of_eq_some (isAt_of_ne hopen), if_neg Bool.false_ne_true, bind_of_eq_some hitem,
    bind_of_eq_some (eat_of_eq h)]
  rfl

theorem commaStep_last (hopen : s.token ≠ .punct close) (hitem : item s = some (a, next))
    (hclose : close ≠ ",") (h : next.token = .punct close) : commaStep close item s = some (some a, next) := by
  rw [commaStep, bind_of_eq_some (isAt_of_ne hopen), if_neg Bool.false_ne_true, bind_of_eq_some hitem,
    bind_of_eq_some (eat_of_ne (by simp [h, hclose])), if_neg Bool.false_ne_true, bind_of_eq_some (isAt_of_eq h)]
  rfl

theorem commaStep_none (hopen : s.token ≠ .punct close) (hitem : item s = none) :
    commaStep close item s = none := by
  rw [commaStep, bind_of_eq_some (isAt_of_ne hopen), if_neg Bool.false_ne_true]
  exact bind_of_eq_none hitem

theorem collect_of_none {step : Reader (Option α)} (h : step s = none) (n : Nat) :
    collect step (n + 1) s = none := by
  rw [collect]
  exact bind_of_eq_none h

theorem collect_of_some {step : Reader (Option α)} (h : step s = some (some a, next)) (n : Nat) :
    collect step (n + 1) s = (collect step n next).map fun r => (a :: r.1, r.2) := by
  rw [collect, bind_of_eq_some h]
  dsimp only
  cases hrest : collect step n next with
  | none => exact bind_of_eq_none hrest
  | some r => exact bind_of_eq_some hrest

theorem collect_more {step : Reader (Option α)} {last : ReadState} :
    ∀ {n m : Nat} {s : ReadState} {as : List α}, collect step n s = some (as, last) →
      step last = some (none, last) → n ≤ m → collect step m s = some (as, last)
  | 0, 0, _, _, h, _, _ => h
  | 0, m + 1, s, as, h, hend, _ => by
    cases h
    exact collect_none hend m
  | n + 1, 0, _, _, _, _, hle => by omega
  | n + 1, m + 1, s, as, h, hend, hle => by
    cases hstep : step s with
    | none => rw [collect_of_none hstep] at h; cases h
    | some r =>
      obtain ⟨_ | a, next⟩ := r
      · rw [collect_none hstep] at h
        cases h
        exact collect_none hstep m
      · rw [collect_of_some hstep, Option.map_eq_some_iff] at h
        obtain ⟨⟨rest, last⟩, hrest, heq⟩ := h
        cases heq
        exact collect_some hstep (collect_more hrest hend (by omega))

end

/-! ## What stands before a key -/

def modifierWords : List String := "static" :: "export" :: lineModifiers

theorem isModifier_of_not_mem {text : String} (h : text ∉ modifierWords) :
    isModifier [] false text s = some (false, s) := by
  simp only [modifierWords, List.mem_cons, not_or] at h
  obtain ⟨hstatic, hexport, hline⟩ := h
  rw [isModifier, if_neg hstatic, if_neg hexport]
  simp only [List.contains_iff_mem, hline, Bool.false_and, Bool.or_false, if_false]
  rfl

theorem modifiers_of_not_mem (h : ∀ text escaped, s.token = .word text escaped → text ∉ modifierWords) :
    modifiers s = some ([], s) := by
  unfold modifiers modifiersUntil
  refine (bind_of_eq_some (@extend_of_none _ s _ _ s ?_)).trans rfl
  rw [bind_of_eq_some (p := token) rfl]
  cases htoken : s.token with
  | word text escaped =>
    refine (bind_of_eq_some (isModifier_of_not_mem (h text escaped htoken))).trans ?_
    rfl
  | _ => rfl

theorem access?_of_not_word (h : s.token.isAnyWord ["get", "set"] = false) : access? s = some (none, s) := by
  have hat : isAtAnyWord ["get", "set"] s = some (false, s) := by
    show some (s.token.isAnyWord ["get", "set"], s) = _
    rw [h]
  rw [access?, bind_of_eq_some hat]
  rfl

/-! ## Members -/

theorem objectMember_of_key (hspread : s.token ≠ .punct "...")
    (hword : ∀ text escaped, s.token = .word text escaped → text ∉ "get" :: "set" :: modifierWords) :
    objectMember rules s = (do
      let isGenerator ← eat "*"
      let name? ← identifier?
      let (key, computed) ← propertyKey rules
      if isGenerator || (← isAt "(") || (← isAt "<") then
        let value ← objectFunction rules false isGenerator
        node (.property .plain computed false true) s.start.offset [key, value]
      else
        propertyValue rules s.start.offset name? key computed) s := by
  have hmodifiers : modifiers s = some ([], s) := by
    apply modifiers_of_not_mem
    intro text escaped htoken hmem
    exact hword text escaped htoken (List.mem_cons_of_mem _ (List.mem_cons_of_mem _ hmem))
  have haccess : access? s = some (none, s) := by
    apply access?_of_not_word
    cases htoken : s.token with
    | word text escaped =>
      have := hword text escaped htoken
      simp only [List.mem_cons, not_or] at this
      simp [Token.isAnyWord, this.1, this.2.1]
    | _ => rfl
  rw [objectMember, bind_of_eq_some (p := here) rfl, bind_of_eq_some (isAt_of_ne hspread),
    if_neg Bool.false_ne_true, bind_of_eq_some hmodifiers, bind_of_eq_some (p := allowModifiers _ _) rfl,
      bind_of_eq_some haccess]
  rfl

theorem objectMember_punct {text : String} (h : s.token = .punct text) (htext : text ∉ ["...", "*", "["]) :
    objectMember rules s = none := by
  simp only [List.mem_cons, List.not_mem_nil, or_false, not_or] at htext
  obtain ⟨hspread, hstar, hbracket⟩ := htext
  have hkey : propertyKey rules s = none := by
    rw [propertyKey, bind_of_eq_some (p := token) rfl, h]
    refine congrFun (?_ : _ = (failure : Reader (Tree × Bool))) s
    split
    case h_5 heq => exact absurd (Token.punct.inj heq) hbracket
    all_goals first | rfl | contradiction
  rw [objectMember_of_key (by simp [h, hspread]) (by simp [h]), bind_of_eq_some (eat_of_ne (by simp [h, hstar])),
    bind_of_eq_some (identifier?_of_not_name (by rw [h]; rfl))]
  exact bind_of_eq_none hkey

theorem identifier?_state (s : ReadState) : ∃ name?, identifier? s = some (name?, s) := by
  rw [identifier?, bind_of_eq_some (p := context) rfl, bind_of_eq_some (p := token) rfl]
  cases s.token with
  | word text escaped =>
    dsimp only
    split
    · exact ⟨_, rfl⟩
    · exact ⟨_, rfl⟩
  | _ => exact ⟨_, rfl⟩

theorem propertyKey_word {text : String} {escaped : Bool} (h : s.token = .word text escaped) :
    propertyKey rules s = some ((.node (.name text) ⟨s.start.offset, s.after.offset⟩ [], false), s.following) := by
  rw [propertyKey, bind_of_eq_some (p := token) rfl, h]
  rfl

theorem objectMember_pair {name : String} {escaped : Bool} (h : s.token = .word name escaped)
    (hname : name ∉ "get" :: "set" :: modifierWords) (hcolon : s.following.token = .punct ":") :
    objectMember rules s = (rules .assignment s.following.following).map fun r =>
      (.node (.property .plain false false false) ⟨s.start.offset, r.2.previous.offset⟩
        [.node (.name name) ⟨s.start.offset, s.after.offset⟩ [], r.1], r.2) := by
  have hword : ∀ text escaped, s.token = .word text escaped → text ∉ "get" :: "set" :: modifierWords := by
    intro text escaped' htoken
    cases h.symm.trans htoken
    exact hname
  obtain ⟨name?, hidentifier⟩ := identifier?_state s
  rw [objectMember_of_key (by simp [h]) hword, bind_of_eq_some (eat_of_ne (by simp [h])),
    bind_of_eq_some hidentifier, bind_of_eq_some (propertyKey_word h)]
  dsimp only
  rw [bind_of_eq_some (isAt_of_ne (by simp [hcolon])), bind_of_eq_some (isAt_of_ne (by simp [hcolon])),
    if_neg (by decide)]
  unfold propertyValue
  rw [bind_of_eq_some (eat_of_eq hcolon), if_pos rfl]
  cases hvalue : rules .assignment s.following.following with
  | none => exact bind_of_eq_none hvalue
  | some r => exact bind_of_eq_some hvalue

/-! ## Named members -/

def isSpelled : List Char → Bool
  | [] => false
  | c :: w => isIdentifierStart c && !c.isDigit && w.all isIdentifierPart

theorem readLexeme_spelled {name back : List Char} (h : isSpelled name = true) (hback : EndsWord back = true) :
    readLexeme (name ++ back) = ⟨.word (String.ofList name) false, name, back⟩ := by
  cases name with
  | nil => cases h
  | cons c w =>
    simp only [isSpelled, Bool.and_eq_true, Bool.not_eq_true', List.all_eq_true] at h
    exact readLexeme_word h.1.1 h.1.2 h.2 hback

theorem objectMember_named {name : String} {value : List Char} (hspelled : isSpelled name.toList = true)
    (hname : name ∉ "get" :: "set" :: modifierWords) (hvalue : opensToken value = true)
    (hs : s.StandsAt (name.toList ++ ':' :: ' ' :: value)) :
    ∃ next : ReadState, next = s.moveTo ⟨' ' :: value, s.start.offset + byteLength name.toList + 1⟩ ∧
      next.StandsAt value ∧ next.start = ⟨value, s.start.offset + byteLength name.toList + 2⟩ ∧
      objectMember rules s = (rules .assignment next).map fun r =>
        (.node (.property .plain false false false) ⟨s.start.offset, r.2.previous.offset⟩
          [.node (.name name) ⟨s.start.offset, s.start.offset + byteLength name.toList⟩ [], r.1], r.2) := by
  have hlexeme : readLexeme (name.toList ++ ':' :: ' ' :: value) =
      ⟨.word name false, name.toList, ':' :: ' ' :: value⟩ := by
    rw [readLexeme_spelled hspelled rfl, String.ofList_toList]
  have htoken : s.token = .word name false := by rw [hs.token, hlexeme]
  have hafter : s.after.offset = s.start.offset + byteLength name.toList := by rw [hs.after, hlexeme]; rfl
  have hcolon := @ReadState.moveTo_gap s [] (':' :: ' ' :: value) (isGap_nil _) rfl
    (s.start.offset + byteLength name.toList)
  have hnext : s.following = s.moveTo ⟨':' :: ' ' :: value, s.start.offset + byteLength name.toList⟩ := by
    rw [hs.following, hlexeme]
    rfl
  rw [List.nil_append, ← hnext, byteLength_nil, Nat.add_zero] at hcolon
  have hthen : s.following.following = s.moveTo ⟨' ' :: value, s.start.offset + byteLength name.toList + 1⟩ := by
    rw [hcolon.1.following, ReadState.past, hcolon.2]
    rfl
  have hgap := @ReadState.moveTo_gap s [' '] value (isGap_space _) hvalue
    (s.start.offset + byteLength name.toList + 1)
  refine ⟨_, rfl, hgap.1, hgap.2, ?_⟩
  rw [objectMember_pair htoken hname hcolon.1.token, hthen, hafter]

theorem objectLiteral_read {members : List Tree} {last : ReadState} (hopen : s.token = .punct "\x7b")
    (h : enclosed (commaItems "\x7d" (objectMember rules)) s.following = some (members, last))
    (hclose : last.token = .punct "\x7d") : objectLiteral rules s =
      some (.node .object ⟨s.start.offset, last.after.offset⟩ members, last.following) := by
  rw [objectLiteral, bind_of_eq_some (p := here) rfl, bind_of_eq_some (expect_of_eq hopen), bind_of_eq_some h,
    bind_of_eq_some (expect_of_eq hclose)]
  rfl

end Reader

end ComponentMacros
