import ComponentMacros.Proofs.Completion

/-!
# Texts that a run leaves alone

A result without changes is the source itself, and a program with a macro import
is always changed. So a run leaves a text alone exactly if the text shows no sign
of macros or is a program that imports none.
-/

namespace ComponentMacros

/-- The text shows no sign of macros, or it is a program that imports none. -/
def Options.isInert (options : Options) (code : String) : Bool :=
  !options.mayImportMacros code.toList ||
    match parse options.dialect code.toList with
    | none => false
    | some program => (MacroImport.all options program).isEmpty

section
variable {options : Options} {source : String} {r : Transformed}

theorem expansion_not_isEmpty {program : Tree} {collected : Collected} {draft : Draft}
    (hc : collect? options program = some collected) {text : List Char}
    (h : expansion ⟨options, text, collected⟩ = .ok draft) : draft.isEmpty = false := by
  obtain ⟨imported, himp⟩ := List.exists_mem_of_ne_nil _ (collect?_imports hc).2
  rw [Draft.isEmpty, List.isEmpty_eq_false_iff]
  exact List.ne_nil_of_mem (removeImport_mem h himp)

theorem collect?_eq_none_iff {program : Tree} :
    collect? options program = none ↔ (MacroImport.all options program).isEmpty = true := by
  unfold collect?
  simp only [ite_eq_left_iff, Bool.not_eq_true, reduceCtorEq, imp_false, Bool.not_eq_false]

theorem transform_of_isInert (h : options.isInert source = true) :
    transform options source = .ok (.unchanged source) := by
  unfold Options.isInert at h
  unfold transform
  by_cases hmay : options.mayImportMacros source.toList = true
  · rw [hmay, Bool.not_true, Bool.false_or] at h
    simp only [hmay, Bool.not_true, Bool.false_eq_true, ite_false]
    cases hparse : parse options.dialect source.toList with
    | none => rw [hparse] at h; cases h
    | some program =>
      rw [hparse] at h
      simp only [collect?_eq_none_iff.mpr h]
  · simp only [Bool.eq_false_of_not_eq_true hmay, Bool.not_false, ite_true]

theorem transform_ok (h : transform options source = .ok r) :
    r.changed = true ∨ options.isInert source = true := by
  unfold transform at h
  unfold Options.isInert
  by_cases hmay : options.mayImportMacros source.toList = true
  · simp only [hmay, Bool.not_true, Bool.false_eq_true, ite_false] at h
    rw [hmay, Bool.not_true, Bool.false_or]
    cases hparse : parse options.dialect source.toList with
    | none => rw [hparse] at h; cases h
    | some program =>
      rw [hparse] at h
      simp only at h
      split at h
      · rename_i hnone
        exact Or.inr (collect?_eq_none_iff.mp hnone)
      · rename_i collected hc
        split at h
        · cases h
        · rename_i draft hdraft
          split at h
          · cases h
          · cases h
            exact Or.inl (by rw [expansion_not_isEmpty hc hdraft]; rfl)
  · exact Or.inr (by rw [Bool.eq_false_of_not_eq_true hmay]; rfl)

theorem transform_eq_unchanged (h : transform options source = .ok r) (hr : r.changed = false) :
    options.isInert source = true ∧ r = .unchanged source := by
  have hinert := (transform_ok h).resolve_left (by rw [hr]; exact Bool.false_ne_true)
  rw [transform_of_isInert hinert, Except.ok.injEq] at h
  exact ⟨hinert, h.symm⟩

end

theorem toOption_eq_some {ε α : Type} {x : Except ε α} {a : α} (h : x.toOption = some a) : x = .ok a := by
  cases x with
  | error e => cases h
  | ok b => exact congrArg Except.ok (Option.some.inj h)

end ComponentMacros
