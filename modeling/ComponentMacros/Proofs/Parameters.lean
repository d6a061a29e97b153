import ComponentMacros.Expansion.Factory
import ComponentMacros.Proofs.Members

/-!
# A parameter in front

The name of the element factory is read as a parameter of its own wherever a
parameter is asked for and a comma or the end of the list follows. Put in front of
other parameters with a comma, it is read before them, and they are read as they
would be without it.
-/

namespace ComponentMacros

def factoryParameter (pos : Nat) : Tree :=
  .node .parameter ⟨pos, pos + 1⟩ [.node (.binding factoryName) ⟨pos, pos + 1⟩ []]

namespace Reader

variable {s : ReadState} {depth : Nat} {host : ParameterHost}

/-! ## The parameter alone -/

theorem parameter_factory (h : s.token = .word "h" false)
    (hnext : s.following.token = .punct "," ∨ s.following.token = .punct ")") :
    parameter (readersTo (depth + 1)) host s = some (.node .parameter ⟨s.start.offset, s.after.offset⟩
      [.node (.binding "h") ⟨s.start.offset, s.after.offset⟩ []], s.following) := by
  have hdecorators : decorators (readersTo (depth + 1)) s = some ([], s) := by
    refine collect_none ?_ _
    rw [bind_of_eq_some (isAt_of_ne (by simp [h]))]
    rfl
  have hmodifiers : modifiers s = some ([], s) := by
    apply modifiers_of_not_mem
    intro text escaped htoken
    cases h.symm.trans htoken
    decide
  have hpattern : readersTo (depth + 1) .pattern s =
      some (.node (.binding "h") ⟨s.start.offset, s.after.offset⟩ [], s.following) := by
    show patternRule (readersTo depth) s = _
    rw [patternRule, bind_of_eq_some (p := here) rfl, bind_of_eq_some (eat_of_ne (by simp [h])),
      if_neg Bool.false_ne_true, bind_of_eq_some (eat_of_ne (by simp [h])), if_neg Bool.false_ne_true]
    exact identifier_word h (by decide) (by decide) (by decide)
  have hplain : ∀ text ∈ ["?", ":", "="], s.following.token ≠ .punct text := by
    rcases hnext with hnext | hnext <;> rw [hnext] <;> decide
  have hquestion : eatIf s.following.context.dialect.typed "?" s.following = some (false, s.following) := by
    unfold eatIf
    split
    · exact eat_of_ne (hplain "?" (by simp))
    · rfl
  have htype : ascription? (readersTo (depth + 1)) s.following = some ([], s.following) := by
    rw [ascription?, bind_of_eq_some (p := typed) rfl, bind_of_eq_some (isAt_of_ne (hplain ":" (by simp))),
      Bool.and_false]
    rfl
  rw [parameter, bind_of_eq_some (p := here) rfl, bind_of_eq_some hdecorators, bind_of_eq_some (p := typed) rfl,
    List.isEmpty_nil, Bool.true_or, bind_of_eq_some (p := check true) rfl, bind_of_eq_some hmodifiers]
  rw [bind_of_eq_some (p := typed) rfl, bind_of_eq_some (p := allowModifiers _ []) rfl,
    bind_of_eq_some (isAt_of_ne (by simp [h])), if_neg Bool.false_ne_true, bind_of_eq_some hpattern,
    bind_of_eq_some (p := check _) rfl, bind_of_eq_some (p := typed) rfl, bind_of_eq_some hquestion,
    bind_of_eq_some htype, bind_of_eq_some (isAt_of_ne (hplain "=" (by simp)))]
  rfl

end Reader

/-! ## Where a reading goes on -/

theorem skipGap_length (page : PageComments) (mode : Gap) (text : List Char) (offset : Nat) (fresh : Bool) :
    (skipGap page mode text offset fresh).1.rest.length ≤ text.length := by
  fun_induction skipGap page mode text offset fresh with
  | case1 => exact Nat.le_refl _
  | case7 => exact Nat.le_refl _
  | case2 _ _ _ ih => exact Nat.le_trans ih (by simp only [List.length_cons]; omega)
  | case3 _ _ _ ih => exact Nat.le_trans ih (by simp only [List.length_cons]; omega)
  | case10 _ _ _ ih => exact Nat.le_trans ih (by simp only [List.length_cons]; omega)
  | case4 | case5 | case6 | case8 | case9 | case11 =>
    rename_i ih
    exact Nat.le_trans ih (Nat.le_succ _)

theorem ReadState.moveTo_length (s : ReadState) (cursor : Cursor) :
    (s.moveTo cursor).start.rest.length ≤ cursor.rest.length :=
  skipGap_length ..

theorem readLexeme_punct {text : String} {cs : List Char} (h : (readLexeme cs).token = .punct text) :
    (readLexeme cs).rest = cs.drop text.length := by
  cases cs with
  | nil => cases h
  | cons c rest =>
    generalize hlexeme : readLexeme (c :: rest) = lexeme at h ⊢
    unfold readLexeme at hlexeme
    -- lexemes of every other kind are no marks
    repeat' split at hlexeme
    all_goals subst hlexeme
    all_goals try cases h
    rename_i after hread
    obtain ⟨found, -, heq⟩ := Option.map_eq_some_iff.mp hread
    cases heq
    rfl

theorem ReadState.following_length {s : ReadState} {cursor : Cursor} {text : String}
    (h : (s.moveTo cursor).token = .punct text) :
      (s.moveTo cursor).following.start.rest.length ≤ cursor.rest.length := by
  have hlexeme : (readLexeme (s.moveTo cursor).start.rest).token = .punct text := by
    simp only [moveTo, scan] at h ⊢
    split at h
    · exact h
    · cases h
  have hafter : (s.moveTo cursor).after.rest = (readLexeme (s.moveTo cursor).start.rest).rest := rfl
  refine Nat.le_trans ((s.moveTo cursor).moveTo_length _) ?_
  rw [hafter, readLexeme_punct hlexeme, List.length_drop]
  exact Nat.le_trans (Nat.sub_le ..) (s.moveTo_length cursor)

namespace Reader

variable {s : ReadState} {depth : Nat} {host : ParameterHost} {back : List Char}

theorem commaItems_more {α : Type} {item : Reader α} {a : α} {as : List α} {next last : ReadState}
    (hstep : commaStep ")" item s = some (some a, next)) (hrest : commaItems ")" item next = some (as, last))
    (hclose : last.token = .punct ")") (hlength : next.start.rest.length < s.start.rest.length) :
    commaItems ")" item s = some (a :: as, last) := by
  rw [commaItems_eq] at hrest ⊢
  exact collect_some hstep (collect_more hrest (commaStep_end hclose) hlength)

theorem factory_token (hs : s.StandsAt ('h' :: back)) (hback : EndsWord back = true) :
    s.token = .word "h" false ∧ s.after.offset = s.start.offset + 1 ∧ s.following = s.past ['h'] back := by
  have hlexeme : readLexeme ('h' :: back) = ⟨.word "h" false, ['h'], back⟩ :=
    @readLexeme_spelled ['h'] back (by decide) hback
  refine ⟨by rw [hs.token, hlexeme], by rw [hs.after, hlexeme]; rfl, by rw [hs.following, hlexeme]⟩

theorem factory_read (hs : s.StandsAt ('h' :: back)) (hback : EndsWord back = true)
    (hnext : (s.past ['h'] back).token = .punct "," ∨ (s.past ['h'] back).token = .punct ")") :
    parameter (readersTo (depth + 1)) host s = some (factoryParameter s.start.offset, s.past ['h'] back) := by
  obtain ⟨htoken, hafter, hpast⟩ := factory_token hs hback
  rw [← hpast] at hnext ⊢
  rw [parameter_factory htoken hnext, hafter]
  rfl

theorem factory_before (hs : s.StandsAt ("h, ".toList ++ back)) {ts : List Tree} {last : ReadState}
    (hrest : commaItems ")" (parameter (readersTo (depth + 1)) host)
      (s.moveTo ⟨' ' :: back, s.start.offset + 2⟩) = some (ts, last)) (hclose : last.token = .punct ")") :
    commaItems ")" (parameter (readersTo (depth + 1)) host) s =
      some (factoryParameter s.start.offset :: ts, last) := by
  have hs : s.StandsAt ('h' :: ',' :: ' ' :: back) := hs
  obtain ⟨hcomma, hstart⟩ := @past_part s (',' :: ' ' :: back) rfl ['h']
  have hitem := @factory_read s depth host _ hs rfl (Or.inl hcomma.token)
  have hthen : (s.past ['h'] (',' :: ' ' :: back)).following = s.moveTo ⟨' ' :: back, s.start.offset + 2⟩ :=
    past_comma ['h'] (' ' :: back)
  have hopen : s.token ≠ .punct ")" := by simp [(factory_token hs rfl).1]
  have hstep := commaStep_comma hopen hitem hcomma.token
  rw [hthen] at hstep
  refine commaItems_more hstep hrest hclose ?_
  have := s.moveTo_length ⟨' ' :: back, s.start.offset + 2⟩
  rw [hs.rest]
  simp only [List.length_cons] at this ⊢
  omega

theorem factory_alone (hs : s.StandsAt ('h' :: back)) (hback : EndsWord back = true)
    (hclose : (s.past ['h'] back).token = .punct ")") :
    commaItems ")" (parameter (readersTo (depth + 1)) host) s =
      some ([factoryParameter s.start.offset], s.past ['h'] back) := by
  have hitem := @factory_read s depth host back hs hback (Or.inr hclose)
  have hopen : s.token ≠ .punct ")" := by simp [(factory_token hs hback).1]
  have hstep := commaStep_last hopen hitem (by decide) hclose
  rw [commaItems_eq, hs.rest, List.length_cons]
  exact collect_some hstep (collect_none (commaStep_end hclose) _)

def parametersBehindThis (rules : Rules) (host : ParameterHost) : Reader (List Tree) := do
  unless ← isAt ")" do expect ","
  commaItems ")" (parameter rules host)

theorem factory_behindThis (hs : s.StandsAt (", h".toList ++ back)) (hback : EndsWord back = true) {ts : List Tree}
    {last : ReadState} (hrest : parametersBehindThis (readersTo (depth + 1)) host
      (s.moveTo ⟨back, s.start.offset + 3⟩) = some (ts, last)) (hclose : last.token = .punct ")") :
    parametersBehindThis (readersTo (depth + 1)) host s =
      some (factoryParameter (s.start.offset + 2) :: ts, last) := by
  have hs : s.StandsAt (',' :: ' ' :: 'h' :: back) := hs
  have htoken : s.token = .punct "," := hs.token
  have hnext : s.following = s.moveTo ⟨' ' :: 'h' :: back, s.start.offset + 1⟩ := by
    rw [hs.following]
    rfl
  obtain ⟨hname, hstart⟩ := @ReadState.moveTo_gap s [' '] ('h' :: back) (isGap_space _) rfl
    (s.start.offset + 1)
  rw [List.singleton_append, ← hnext] at hname hstart
  have hpast : s.following.past ['h'] back = s.moveTo ⟨back, s.start.offset + 3⟩ := by
    rw [ReadState.past, hstart, hnext]
    rfl
  have hopen : s.following.token ≠ .punct ")" := by simp [(factory_token hname hback).1]
  have hlist : parametersBehindThis (readersTo (depth + 1)) host s =
      commaItems ")" (parameter (readersTo (depth + 1)) host) s.following := by
    rw [parametersBehindThis, bind_of_eq_some (isAt_of_ne (by simp [htoken]))]
    exact bind_of_eq_some (expect_of_eq htoken)
  have hoffset : s.following.start.offset = s.start.offset + 2 := by rw [hstart]; rfl
  rw [hlist, ← hoffset]
  generalize hstate : s.moveTo ⟨back, s.start.offset + 3⟩ = x at hrest hpast
  by_cases hend : x.token = .punct ")"
  · have hnone : parametersBehindThis (readersTo (depth + 1)) host x = some ([], x) := by
      rw [parametersBehindThis, bind_of_eq_some (isAt_of_eq hend)]
      exact (commaItems_eq).trans (collect_none (commaStep_end hend) _)
    cases hnone.symm.trans hrest
    rw [factory_alone hname hback (by rw [hpast]; exact hend), hpast]
  · by_cases hcomma : x.token = .punct ","
    · have hitems : commaItems ")" (parameter (readersTo (depth + 1)) host) x.following = some (ts, last) := by
        rw [parametersBehindThis, bind_of_eq_some (isAt_of_ne hend)] at hrest
        exact (bind_of_eq_some (expect_of_eq hcomma)).symm.trans hrest
      have hitem := @factory_read s.following depth host back hname hback (Or.inl (by rw [hpast]; exact hcomma))
      rw [hpast] at hitem
      refine commaItems_more (commaStep_comma hopen hitem hcomma) hitems hclose ?_
      rw [hstart, ← hstate]
      exact Nat.lt_succ_of_le (ReadState.following_length (by rw [hstate]; exact hcomma))
    · rw [parametersBehindThis, bind_of_eq_some (isAt_of_ne hend)] at hrest
      cases (bind_of_eq_none (expect_of_ne hcomma)).symm.trans hrest

/-! ## Whole lists -/

theorem parameters_plain {rules : Rules} (hopen : s.token = .punct "(")
    (hthis : s.following.token.isWord "this" = false)
    {ts : List Tree} {last : ReadState} (h : commaItems ")" (parameter rules host) s.following = some (ts, last))
    (hclose : last.token = .punct ")") : parameters rules host s =
      some (.node .parameters ⟨s.start.offset, last.after.offset⟩ ts, last.following) := by
  have hword : isAtWord "this" s.following = some (false, s.following) := by
    show some (s.following.token.isWord "this", _) = _
    rw [hthis]
  have hclosing : isAt ")" s.following = some (decide (s.following.token = .punct ")"), s.following) := rfl
  rw [parameters, bind_of_eq_some (p := here) rfl, bind_of_eq_some (expect_of_eq hopen),
    bind_of_eq_some (p := typed) rfl, bind_of_eq_some hword, Bool.and_false,
      bind_of_eq_some (p := optional false _) rfl,
    bind_of_eq_some hclosing, List.isEmpty_nil, Bool.true_or, if_pos rfl]
  exact (bind_of_eq_some h).trans (bind_of_eq_some (expect_of_eq hclose))

theorem parameters_this {rules : Rules} (hopen : s.token = .punct "(") (htyped : s.context.dialect.typed = true)
    (hword : s.following.token.isWord "this" = true) {this : Tree} {next : ReadState}
    (hthis : thisParameter rules s.following = some (this, next)) {ts : List Tree} {last : ReadState}
    (h : parametersBehindThis rules host next = some (ts, last)) (hclose : last.token = .punct ")") :
    parameters rules host s =
      some (.node .parameters ⟨s.start.offset, last.after.offset⟩ (this :: ts), last.following) := by
  have hword : isAtWord "this" s.following = some (true, s.following) := by
    show some (s.following.token.isWord "this", _) = _
    rw [hword]
  have htyped : typed s.following = some (true, s.following) := by
    show some (s.context.dialect.typed, _) = _
    rw [htyped]
  have hthis : optional true (thisParameter rules) s.following = some ([this], next) := by
    rw [optional, if_pos rfl, bind_of_eq_some hthis]
    rfl
  rw [parameters, bind_of_eq_some (p := here) rfl, bind_of_eq_some (expect_of_eq hopen), bind_of_eq_some htyped,
    bind_of_eq_some hword, Bool.and_self, bind_of_eq_some hthis]
  unfold parametersBehindThis at h
  by_cases hend : next.token = .punct ")"
  · rw [bind_of_eq_some (isAt_of_eq hend)] at h ⊢
    rw [Bool.or_true, if_pos rfl]
    exact (bind_of_eq_some h).trans (bind_of_eq_some (expect_of_eq hclose))
  · rw [bind_of_eq_some (isAt_of_ne hend)] at h ⊢
    by_cases hcomma : next.token = .punct ","
    · have hitems := (bind_of_eq_some (expect_of_eq hcomma)).symm.trans h
      rw [if_neg (by simp), bind_of_eq_some (expect_of_eq hcomma)]
      exact (bind_of_eq_some hitems).trans (bind_of_eq_some (expect_of_eq hclose))
    · cases (bind_of_eq_none (expect_of_ne hcomma)).symm.trans h

end Reader

end ComponentMacros
