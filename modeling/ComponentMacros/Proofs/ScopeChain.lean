import ComponentMacros.Scope

/-!
# Chains of scopes

In a tree whose parents come before their children, the chain of a scope is the
scope itself and the chain of its parent, however large the tree is. A tree that
only grows keeps the chains it has.
-/

namespace ComponentMacros.ScopeTree

variable {tree : ScopeTree}

def Descending (tree : ScopeTree) : Prop :=
  ∀ id up : Nat, tree.parent id = some up → up < id

/-! ## Chains -/

theorem chain_eq (h : tree.Descending) : ∀ {n m id : Nat}, id < n → id < m →
    tree.chain n id = tree.chain m id
  | 0, _, _, hn, _ => absurd hn (Nat.not_lt_zero _)
  | _ + 1, 0, _, _, hm => absurd hm (Nat.not_lt_zero _)
  | n + 1, m + 1, id, hn, hm => by
    rw [chain, chain]
    cases hup : tree.parent id with
    | none => rfl
    | some up =>
      have hlt := h id up hup
      simp only
      rw [@chain_eq h n m up (by omega) (by omega)]

theorem ancestors_eq (h : tree.Descending) {id : Nat} (hid : id < tree.size) :
    tree.ancestors id = id :: match tree.parent id with
      | some up => tree.ancestors up
      | none => [] := by
  unfold ancestors
  rw [chain]
  cases hup : tree.parent id with
  | none => rfl
  | some up =>
    have hlt := h id up hup
    simp only
    rw [@chain_eq tree h tree.size (tree.size + 1) up (by omega) (by omega)]

theorem resolve_eq (h : tree.Descending) {id : Nat} (hid : id < tree.size) (name : String) :
    tree.resolve id name = if tree.hasOwnBinding id name then some id
      else (tree.parent id).bind (tree.resolve · name) := by
  unfold resolve
  rw [ancestors_eq h hid, List.find?_cons]
  cases tree.hasOwnBinding id name with
  | true => rfl
  | false => cases tree.parent id <;> rfl

theorem hoistingScope_eq (h : tree.Descending) {id : Nat} (hid : id < tree.size) :
    tree.hoistingScope id = if tree.isHoisting id then id
      else match tree.parent id with
        | some up => tree.hoistingScope up
        | none => id := by
  unfold hoistingScope
  rw [ancestors_eq h hid, List.find?_cons]
  cases tree.isHoisting id with
  | true => rfl
  | false =>
    cases hup : tree.parent id with
    | none => rfl
    | some up =>
      have hlt := h id up hup
      simp only [ancestors_eq h (Nat.lt_trans hlt hid)]
      rfl

theorem hoistingScope_le (h : tree.Descending) {id : Nat} (hid : id < tree.size) :
    tree.hoistingScope id ≤ id := by
  induction id using Nat.strongRecOn with
  | _ id ih =>
    rw [hoistingScope_eq h hid]
    split
    · exact Nat.le_refl _
    · split
      · rename_i up hup
        have hlt := h id up hup
        exact Nat.le_of_lt (Nat.lt_of_le_of_lt (ih up hlt (Nat.lt_trans hlt hid)) hlt)
      · exact Nat.le_refl _

/-! ## Growth -/

structure Extends (old new : ScopeTree) : Prop where
  size : old.size ≤ new.size
  parent : ∀ id < old.size, new.parent id = old.parent id
  hoisting : ∀ id < old.size, new.isHoisting id = old.isHoisting id

theorem Extends.refl (tree : ScopeTree) : Extends tree tree :=
  ⟨Nat.le_refl _, fun _ _ => rfl, fun _ _ => rfl⟩

theorem Extends.trans {a b c : ScopeTree} (hab : Extends a b) (hbc : Extends b c) : Extends a c := by
  refine ⟨Nat.le_trans hab.size hbc.size, ?_, ?_⟩
  · intro id hid
    rw [hbc.parent id (Nat.lt_of_lt_of_le hid hab.size), hab.parent id hid]
  · intro id hid
    rw [hbc.hoisting id (Nat.lt_of_lt_of_le hid hab.size), hab.hoisting id hid]

theorem Extends.hoistingScope {old new : ScopeTree} (h : Extends old new) (hold : old.Descending)
    (hnew : new.Descending) {id : Nat} (hid : id < old.size) : new.hoistingScope id = old.hoistingScope id := by
  induction id using Nat.strongRecOn with
  | _ id ih =>
    rw [hoistingScope_eq hold hid, hoistingScope_eq hnew (Nat.lt_of_lt_of_le hid h.size), h.parent id hid,
      h.hoisting id hid]
    cases hup : old.parent id with
    | none => rfl
    | some up =>
      have hlt := hold id up hup
      simp only [ih up hlt (Nat.lt_trans hlt hid)]

/-! ## Adding -/

@[simp] theorem size_addBinding (tree : ScopeTree) (id : ScopeId) (name : String) :
    (tree.addBinding id name).size = tree.size := by
  simp [addBinding, size]

theorem get?_addBinding (tree : ScopeTree) (id : ScopeId) (name : String) (other : ScopeId) :
    (tree.addBinding id name).get? other =
      if other = id then (tree.get? other).map fun s =>
        { s with names := name :: s.names } else tree.get? other := by
  simp only [get?, addBinding, Array.getElem?_modify]
  by_cases h : id = other
  · simp [h]
  · simp [h, Ne.symm h]

theorem parent_addBinding (tree : ScopeTree) (id : ScopeId) (name : String) (other : ScopeId) :
    (tree.addBinding id name).parent other = tree.parent other := by
  rw [parent, parent, get?_addBinding]
  split
  · cases tree.get? other <;> rfl
  · rfl

theorem isHoisting_addBinding (tree : ScopeTree) (id : ScopeId) (name : String) (other : ScopeId) :
    (tree.addBinding id name).isHoisting other = tree.isHoisting other := by
  rw [isHoisting, isHoisting, get?_addBinding]
  split
  · cases tree.get? other <;> rfl
  · rfl

theorem extends_addBinding (tree : ScopeTree) (id : ScopeId) (name : String) :
    Extends tree (tree.addBinding id name) :=
  ⟨Nat.le_of_eq (size_addBinding ..).symm, fun _ _ => parent_addBinding .., fun _ _ => isHoisting_addBinding ..⟩

theorem Descending.addBinding (h : tree.Descending) (id : ScopeId) (name : String) :
    (tree.addBinding id name).Descending := by
  intro other up hup
  rw [parent_addBinding] at hup
  exact h other up hup

theorem hasOwnBinding_addBinding (tree : ScopeTree) (id : ScopeId) (name : String) {other : Nat}
    (hother : other < tree.size) (n : String) :
    (tree.addBinding id name).hasOwnBinding other n = true ↔
      tree.hasOwnBinding other n = true ∨ other = id ∧ n = name := by
  have hsome : tree.get? other = some tree.scopes[other] := Array.getElem?_eq_getElem hother
  rw [hasOwnBinding, hasOwnBinding, get?_addBinding, hsome]
  by_cases h : other = id
  · simp [h, or_comm]
  · simp [h]

@[simp] theorem size_addScope (tree : ScopeTree) (up : Option ScopeId) (hoisting : Bool) :
    (tree.addScope up hoisting).size = tree.size + 1 := by
  simp [addScope, size]

theorem get?_addScope (tree : ScopeTree) (up : Option ScopeId) (hoisting : Bool) (id : ScopeId) :
    (tree.addScope up hoisting).get? id = if id = tree.size then some ⟨up, hoisting, []⟩ else tree.get? id := by
  simp only [get?, addScope, size, Array.getElem?_push]
  rfl

theorem extends_addScope (tree : ScopeTree) (up : Option ScopeId) (hoisting : Bool) :
    Extends tree (tree.addScope up hoisting) := by
  refine ⟨by simp, ?_, ?_⟩
  · intro id hid
    rw [parent, parent, get?_addScope, if_neg (Nat.ne_of_lt hid)]
  · intro id hid
    rw [isHoisting, isHoisting, get?_addScope, if_neg (Nat.ne_of_lt hid)]

theorem parent_addScope (tree : ScopeTree) (up : Option ScopeId) (hoisting : Bool) :
    (tree.addScope up hoisting).parent tree.size = up := by
  simp [parent, get?_addScope]

theorem Descending.addScope (h : tree.Descending) {up : Nat} (hup : up < tree.size) (hoisting : Bool) :
    (tree.addScope (some up) hoisting).Descending := by
  intro id above habove
  by_cases hid : id = tree.size
  · rw [hid, parent_addScope] at habove
    cases habove
    omega
  · rw [parent, get?_addScope, if_neg hid] at habove
    exact h id above habove

theorem descending_root (hoisting : Bool) : (empty.addScope none hoisting).Descending := by
  intro id up hup
  rw [parent, get?_addScope] at hup
  split at hup
  · cases hup
  · simp [get?, empty] at hup

theorem hasOwnBinding_addScope (tree : ScopeTree) (up : Option ScopeId) (hoisting : Bool) (id : ScopeId)
    (n : String) :
    (tree.addScope up hoisting).hasOwnBinding id n = (decide (id < tree.size) && tree.hasOwnBinding id n) := by
  rw [hasOwnBinding, hasOwnBinding, get?_addScope]
  by_cases hid : id = tree.size
  · simp [hid]
  · by_cases hlt : id < tree.size
    · simp [hid, hlt]
    · have : tree.get? id = none := Array.getElem?_eq_none (Nat.le_of_not_lt hlt)
      simp [hid, hlt, this]

theorem hoistingScope_addScope (h : tree.Descending) {up : Nat} (hup : up < tree.size) (hoisting : Bool) :
    (tree.addScope (some up) hoisting).hoistingScope tree.size =
      if hoisting then tree.size else tree.hoistingScope up := by
  have hnew := h.addScope hup hoisting
  have hkind : (tree.addScope (some up) hoisting).isHoisting tree.size = hoisting := by
    simp [isHoisting, get?_addScope]
  rw [hoistingScope_eq hnew (by simp), parent_addScope, hkind]
  split
  · rfl
  · exact (extends_addScope tree (some up) hoisting).hoistingScope h hnew hup

end ComponentMacros.ScopeTree
