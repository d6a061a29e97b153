import ComponentMacros.Proofs.ScopeChain

/-!
# Questions about scopes

Scopes and bindings are added in any order, and a binding may come long after
the scopes inside it were left. What a question about a scope is answered
depends on the calls alone: on the chain of parents that they gave the scope,
and on the names that they bound along it.
-/

namespace ComponentMacros

/-! ## Calls -/

/-- A call that a tree of scopes is built by. -/
inductive ScopeCall where
  | addScope (parent : Option ScopeId) (hoisting : Bool)
  | addBinding (scope : ScopeId) (name : String)
  deriving DecidableEq, Repr

namespace ScopeCall

/-- The scopes that calls add, by their ids: the parent of each, and whether `var` lands in it. -/
def added (calls : List ScopeCall) : List (Option ScopeId × Bool) :=
  calls.filterMap fun
    | .addScope parent hoisting => some (parent, hoisting)
    | .addBinding _ _ => none

/-- Every parent is an id that an earlier call gave, if `count` scopes were added before. -/
def SoundFrom : Nat → List ScopeCall → Prop
  | _, [] => True
  | count, .addScope parent _ :: calls => (∀ up ∈ parent, up < count) ∧ SoundFrom (count + 1) calls
  | count, .addBinding _ _ :: calls => SoundFrom count calls

def Sound (calls : List ScopeCall) : Prop := SoundFrom 0 calls

instance decidableSoundFrom : ∀ (count : Nat) (calls : List ScopeCall), Decidable (SoundFrom count calls)
  | _, [] => inferInstanceAs (Decidable True)
  | count, .addScope parent _ :: calls =>
    have := decidableSoundFrom (count + 1) calls
    inferInstanceAs (Decidable ((∀ up ∈ parent, up < count) ∧ _))
  | count, .addBinding _ _ :: calls => decidableSoundFrom count calls

instance (calls : List ScopeCall) : Decidable (Sound calls) := decidableSoundFrom 0 calls

def parentOf (calls : List ScopeCall) (id : ScopeId) : Option ScopeId :=
  ((added calls)[id]?).bind (·.1)

def hoists (calls : List ScopeCall) (id : ScopeId) : Bool :=
  ((added calls)[id]?).any (·.2)

/-- A call bound the name in the scope, when the scope was there. -/
def Bound (calls : List ScopeCall) (id : ScopeId) (name : String) : Prop :=
  ∃ before after, calls = before ++ .addBinding id name :: after ∧ id < (added before).length

/-- A scope, its parent, the parent's parent, and so on to the end. -/
inductive Chain (calls : List ScopeCall) : ScopeId → List ScopeId → Prop where
  | last {id : ScopeId} (h : parentOf calls id = none) : Chain calls id [id]
  | up {id parent : ScopeId} {ids : List ScopeId} (h : parentOf calls id = some parent)
    (hids : Chain calls parent ids) : Chain calls id (id :: ids)

end ScopeCall

namespace ScopeTree

def apply (tree : ScopeTree) : ScopeCall → ScopeTree
  | .addScope parent hoisting => tree.addScope parent hoisting
  | .addBinding id name => tree.addBinding id name

def built (calls : List ScopeCall) : ScopeTree :=
  calls.foldl apply empty

/-! ## Walks -/

/-- The walk that looks for a name ends, and this is what it ends with. -/
inductive Resolves (tree : ScopeTree) (name : String) : ScopeId → Option ScopeId → Prop where
  | found {id : ScopeId} (h : tree.hasOwnBinding id name = true) : Resolves tree name id (some id)
  | up {id parent : ScopeId} {answer : Option ScopeId} (h : tree.hasOwnBinding id name = false)
    (hup : tree.parent id = some parent) (hrest : Resolves tree name parent answer) : Resolves tree name id answer
  | out {id : ScopeId} (h : tree.hasOwnBinding id name = false) (hup : tree.parent id = none) :
    Resolves tree name id none

/-- The walk that looks for the scope where `var` lands ends, and this is what it ends with. -/
inductive Hoists (tree : ScopeTree) : ScopeId → ScopeId → Prop where
  | found {id : ScopeId} (h : tree.isHoisting id = true) : Hoists tree id id
  | up {id parent answer : ScopeId} (h : tree.isHoisting id = false) (hup : tree.parent id = some parent)
    (hrest : Hoists tree parent answer) : Hoists tree id answer
  | last {id : ScopeId} (h : tree.isHoisting id = false) (hup : tree.parent id = none) : Hoists tree id id

end ScopeTree

/-! ## Trees and calls -/

namespace ScopeCall

variable {calls : List ScopeCall}

theorem added_snoc_scope (calls : List ScopeCall) (parent : Option ScopeId) (hoisting : Bool) :
    added (calls ++ [.addScope parent hoisting]) = added calls ++ [(parent, hoisting)] := by
  simp [added]

theorem added_snoc_binding (calls : List ScopeCall) (id : ScopeId) (name : String) :
    added (calls ++ [.addBinding id name]) = added calls := by
  simp [added]

theorem soundFrom_append {count : Nat} {more : List ScopeCall} :
    SoundFrom count (calls ++ more) ↔ SoundFrom count calls ∧ SoundFrom (count + (added calls).length) more := by
  induction calls generalizing count with
  | nil => simp [SoundFrom, added]
  | cons call calls ih =>
    cases call with
    | addScope parent hoisting =>
      have hcount : (added (.addScope parent hoisting :: calls)).length = (added calls).length + 1 := rfl
      simp only [List.cons_append, SoundFrom, ih, hcount, and_assoc, Nat.add_assoc, Nat.add_comm 1]
    | addBinding id name => exact ih

theorem sound_snoc_scope {parent : Option ScopeId} {hoisting : Bool} :
    Sound (calls ++ [.addScope parent hoisting]) ↔
    Sound calls ∧ ∀ up ∈ parent, up < (added calls).length := by
  simp [Sound, soundFrom_append, SoundFrom]

theorem sound_snoc_binding {id : ScopeId} {name : String} :
    Sound (calls ++ [.addBinding id name]) ↔ Sound calls := by
  simp [Sound, soundFrom_append, SoundFrom]

theorem bound_snoc {call : ScopeCall} {id : ScopeId} {name : String} : Bound (calls ++ [call]) id name ↔
    Bound calls id name ∨ call = .addBinding id name ∧ id < (added calls).length := by
  constructor
  · rintro ⟨before, after, heq, hid⟩
    rcases List.eq_nil_or_concat after with rfl | ⟨after, last, rfl⟩
    · obtain ⟨rfl, hlast⟩ := List.append_inj' heq rfl
      cases hlast
      exact Or.inr ⟨rfl, hid⟩
    · have hsplit : calls ++ [call] = (before ++ .addBinding id name :: after) ++ [last] := by simpa using heq
      exact Or.inl ⟨before, after, (List.append_inj' hsplit rfl).1, hid⟩
  · rintro (⟨before, after, rfl, hid⟩ | ⟨rfl, hid⟩)
    · exact ⟨before, after ++ [call], by simp, hid⟩
    · exact ⟨calls, [], rfl, hid⟩

end ScopeCall

namespace ScopeTree

open ScopeCall

theorem built_snoc (calls : List ScopeCall) (call : ScopeCall) :
    built (calls ++ [call]) = (built calls).apply call := by
  simp [built]

/-- A tree built by calls is what the calls say. -/
structure Reflects (tree : ScopeTree) (calls : List ScopeCall) : Prop where
  size : tree.size = (added calls).length
  parent : ∀ id, tree.parent id = parentOf calls id
  hoisting : ∀ id, tree.isHoisting id = hoists calls id
  own : ∀ id name, tree.hasOwnBinding id name = true ↔ Bound calls id name

theorem hasOwnBinding_lt {tree : ScopeTree} {id : Nat} {name : String} (h : tree.hasOwnBinding id name = true) :
    id < tree.size := by
  by_cases hid : id < tree.size
  · exact hid
  · have hnone : tree.get? id = none := Array.getElem?_eq_none (Nat.le_of_not_lt hid)
    simp [hasOwnBinding, hnone] at h

theorem Reflects.snoc {tree : ScopeTree} {calls : List ScopeCall} (h : tree.Reflects calls) (call : ScopeCall) :
    (tree.apply call).Reflects (calls ++ [call]) := by
  cases call with
  | addScope parent hoisting =>
    have hadded := added_snoc_scope calls parent hoisting
    have hlater (id : Nat) : (added (calls ++ [.addScope parent hoisting]))[id]? =
        if id = tree.size then some (parent, hoisting) else (added calls)[id]? := by
      rw [hadded, h.size, List.getElem?_append]
      by_cases hlt : id < (added calls).length
      · simp [hlt, Nat.ne_of_lt hlt]
      · by_cases hid : id = (added calls).length
        · simp [hid]
        · simp [hlt, hid]; omega
    refine ⟨?_, fun id => ?_, fun id => ?_, fun id name => ?_⟩
    · rw [apply, size_addScope, hadded, h.size, List.length_append]
      rfl
    · rw [parentOf, hlater, apply, ScopeTree.parent, get?_addScope]
      split
      · rfl
      · exact h.parent id
    · rw [hoists, hlater, apply, isHoisting, get?_addScope]
      split
      · rfl
      · exact h.hoisting id
    · rw [apply, hasOwnBinding_addScope, Bool.and_eq_true, decide_eq_true_eq, bound_snoc, ← h.own]
      constructor
      · exact fun hown => Or.inl hown.2
      · rintro (hown | ⟨hcall, -⟩)
        · exact ⟨hasOwnBinding_lt hown, hown⟩
        · cases hcall
  | addBinding scope own =>
    have hsame := added_snoc_binding calls scope own
    refine ⟨?_, fun id => ?_, fun id => ?_, fun id name => ?_⟩
    · rw [apply, size_addBinding, hsame, h.size]
    · rw [apply, parent_addBinding, parentOf, hsame]
      exact h.parent id
    · rw [apply, isHoisting_addBinding, hoists, hsame]
      exact h.hoisting id
    · rw [bound_snoc, ← h.own, ← h.size]
      by_cases hid : id < tree.size
      · rw [apply, hasOwnBinding_addBinding tree scope own hid]
        rw [ScopeCall.addBinding.injEq, and_iff_left hid, @eq_comm _ scope, @eq_comm _ own]
      · have hold : tree.hasOwnBinding id name ≠ true := fun hown => hid (hasOwnBinding_lt hown)
        have hnew : (tree.addBinding scope own).hasOwnBinding id name ≠ true := fun hown =>
          hid (by simpa using hasOwnBinding_lt hown)
        simp [apply, hold, hnew, hid]

theorem empty_reflects : empty.Reflects [] := by
  refine ⟨rfl, fun _ => rfl, fun _ => rfl, fun id name => ?_⟩
  constructor
  · exact fun h => absurd (hasOwnBinding_lt h) (Nat.not_lt_zero id)
  · rintro ⟨before, after, heq, -⟩
    cases before <;> cases heq

theorem built_reflects (calls : List ScopeCall) : (built calls).Reflects calls := by
  suffices ∀ (tree : ScopeTree) (done : List ScopeCall), tree.Reflects done →
      (calls.foldl apply tree).Reflects (done ++ calls) from this _ _ empty_reflects
  induction calls with
  | nil => intro tree done h; rw [List.append_nil]; exact h
  | cons call calls ih =>
    intro tree done h
    rw [List.append_cons]
    exact ih _ _ (h.snoc call)

end ScopeTree

/-! ## Chains -/

namespace ScopeCall

variable {calls : List ScopeCall}

theorem SoundFrom.parent_lt {up : Nat} {hoisting : Bool} : ∀ {calls : List ScopeCall} {count id : Nat},
    SoundFrom count calls → (added calls)[id]? = some (some up, hoisting) → up < count + id
  | [], _, _, _, hid => by simp [added] at hid
  | .addScope parent hoisting :: calls, count, 0, h, hid => by
    simp only [added, List.filterMap_cons, List.getElem?_cons_zero, Option.some.injEq, Prod.mk.injEq] at hid
    exact h.1 up hid.1
  | .addScope _ _ :: calls, count, id + 1, h, hid => by
    have := @parent_lt up hoisting calls (count + 1) id h.2 hid
    omega
  | .addBinding _ _ :: calls, count, id, h, hid => @parent_lt up hoisting calls count id h hid

theorem Sound.parent_lt (h : Sound calls) {id up : Nat} (hup : parentOf calls id = some up) : up < id := by
  unfold parentOf at hup
  obtain ⟨⟨parent, hoisting⟩, hid, rfl⟩ := Option.bind_eq_some_iff.mp hup
  have := SoundFrom.parent_lt h hid
  omega

theorem parentOf_lt {id up : Nat} (hup : parentOf calls id = some up) : id < (added calls).length := by
  unfold parentOf at hup
  obtain ⟨entry, hid, -⟩ := Option.bind_eq_some_iff.mp hup
  exact (List.getElem?_eq_some_iff.mp hid).1

theorem Chain.unique {id : ScopeId} {ids other : List ScopeId} (h : Chain calls id ids)
    (h' : Chain calls id other) :
    other = ids := by
  induction h generalizing other with
  | last hnone =>
    cases h' with
    | last _ => rfl
    | up hup _ => rw [hnone] at hup; cases hup
  | up hup _ ih =>
    cases h' with
    | last hnone => rw [hnone] at hup; cases hup
    | up hup' hids =>
      rw [hup, Option.some.injEq] at hup'
      subst hup'
      rw [ih hids]

theorem Chain.head_mem {id : ScopeId} {ids : List ScopeId} (h : Chain calls id ids) :
    ∃ rest, ids = id :: rest := by
  cases h with
  | last _ => exact ⟨[], rfl⟩
  | up _ _ => exact ⟨_, rfl⟩

theorem Chain.descending (hs : Sound calls) {id : ScopeId} {ids : List ScopeId} (h : Chain calls id ids) :
    ids.Pairwise (· > ·) ∧ ∀ t ∈ ids, t ≤ id := by
  induction h with
  | last _ => simp
  | @up id parent ids hup _ ih =>
    have hlt := hs.parent_lt hup
    have hsmall : ∀ t ∈ ids, t < id := fun t ht => Nat.lt_of_le_of_lt (ih.2 t ht) hlt
    refine ⟨List.pairwise_cons.mpr ⟨hsmall, ih.1⟩, fun t ht => ?_⟩
    rcases List.mem_cons.mp ht with rfl | ht
    · exact Nat.le_refl _
    · exact Nat.le_of_lt (hsmall t ht)

theorem Chain.nodup (hs : Sound calls) {id : ScopeId} {ids : List ScopeId} (h : Chain calls id ids) : ids.Nodup :=
  (h.descending hs).1.imp fun hgt => Nat.ne_of_gt hgt

theorem Chain.snoc (hs : Sound calls) {id : ScopeId} {ids : List ScopeId} (h : Chain calls id ids)
    (call : ScopeCall) (hid : id < (added calls).length) : Chain (calls ++ [call]) id ids := by
  have hsame : ∀ t, t < (added calls).length → parentOf (calls ++ [call]) t = parentOf calls t := by
    intro t ht
    cases call with
    | addScope parent hoisting => rw [parentOf, added_snoc_scope, List.getElem?_append_left ht, parentOf]
    | addBinding scope name => rw [parentOf, added_snoc_binding, parentOf]
  induction h with
  | last hnone => exact .last ((hsame _ hid).trans hnone)
  | up hup _ ih => exact .up ((hsame _ hid).trans hup) (ih (Nat.lt_trans (hs.parent_lt hup) hid))

theorem Chain.snoc_binding {id : ScopeId} {ids : List ScopeId} (h : Chain calls id ids) (scope : ScopeId)
    (name : String) : Chain (calls ++ [.addBinding scope name]) id ids := by
  have hsame : ∀ t, parentOf (calls ++ [.addBinding scope name]) t = parentOf calls t := by
    intro t
    rw [parentOf, added_snoc_binding, parentOf]
  induction h with
  | last hnone => exact .last ((hsame _).trans hnone)
  | up hup _ ih => exact .up ((hsame _).trans hup) ih

end ScopeCall

namespace ScopeTree

open ScopeCall

variable {calls : List ScopeCall} {s : ScopeId} {ids : List ScopeId}

theorem built_descending (hs : Sound calls) : (built calls).Descending := by
  intro id up hup
  rw [(built_reflects calls).parent] at hup
  exact hs.parent_lt hup

theorem chain_ancestors (hs : Sound calls) (s : ScopeId) : Chain calls s ((built calls).ancestors s) := by
  have hreflects := built_reflects calls
  induction s using Nat.strongRecOn with
  | _ s ih =>
    cases hup : parentOf calls s with
    | none =>
      have hlast : (built calls).ancestors s = [s] := by
        rw [ancestors, ScopeTree.chain, hreflects.parent, hup]
      rw [hlast]
      exact .last hup
    | some up =>
      have hid : s < (built calls).size := by
        rw [hreflects.size]
        exact parentOf_lt hup
      rw [ancestors_eq (built_descending hs) hid, hreflects.parent, hup]
      exact .up hup (ih up (hs.parent_lt hup))

theorem built_ancestors (hs : Sound calls) (hc : Chain calls s ids) : (built calls).ancestors s = ids :=
  hc.unique (chain_ancestors hs s)

/-! ## Answers -/

theorem resolves_find? (hc : Chain calls s ids) (name : String) :
    (built calls).Resolves name s (ids.find? ((built calls).hasOwnBinding · name)) := by
  have hreflects := built_reflects calls
  induction hc with
  | @last id hnone =>
    cases hown : (built calls).hasOwnBinding id name with
    | true =>
      rw [List.find?_cons, hown]
      exact .found hown
    | false =>
      rw [List.find?_cons, hown]
      exact .out hown ((hreflects.parent id).trans hnone)
  | @up id parent ids hup _ ih =>
    cases hown : (built calls).hasOwnBinding id name with
    | true =>
      rw [List.find?_cons, hown]
      exact .found hown
    | false =>
      rw [List.find?_cons, hown]
      exact .up hown ((hreflects.parent id).trans hup) ih

theorem hoists_find? (hc : Chain calls s ids) :
    (built calls).Hoists s ((ids.find? (built calls).isHoisting).getD (ids.getLastD s)) := by
  have hreflects := built_reflects calls
  induction hc with
  | @last id hnone =>
    cases hkind : (built calls).isHoisting id with
    | true =>
      rw [List.find?_cons, hkind]
      exact .found hkind
    | false =>
      rw [List.find?_cons, hkind]
      exact .last hkind ((hreflects.parent id).trans hnone)
  | @up id parent ids hup hids ih =>
    cases hkind : (built calls).isHoisting id with
    | true =>
      rw [List.find?_cons, hkind]
      exact .found hkind
    | false =>
      -- the chain goes on, so its last scope is that of the parent
      obtain ⟨rest, rfl⟩ := hids.head_mem
      rw [List.find?_cons, hkind]
      exact .up hkind ((hreflects.parent id).trans hup) ih

theorem Hoists.fixed {tree : ScopeTree} {answer : ScopeId} (h : tree.Hoists s answer) :
    tree.hoistingScope answer = answer := by
  induction h with
  | @found id hkind => simp [hoistingScope, ancestors, ScopeTree.chain, List.find?_cons_of_pos hkind]
  | up _ _ _ ih => exact ih
  | @last id hkind hup => simp [hoistingScope, ancestors, ScopeTree.chain, hup, hkind]

def FirstOf (ids : List ScopeId) (P : ScopeId → Prop) (t : ScopeId) : Prop :=
  ∃ before after, ids = before ++ t :: after ∧ P t ∧ ∀ u ∈ before, ¬ P u

/-- The scope comes before the answer there was, if there was one. -/
def Nearer (ids : List ScopeId) (t : ScopeId) (answer : Option ScopeId) : Prop :=
  ∃ before after, ids = before ++ t :: after ∧ ∀ a ∈ answer, a ∈ after

theorem find?_eq_firstOf {p : ScopeId → Bool} {P : ScopeId → Prop} (h : ∀ u, p u = true ↔ P u) (t : ScopeId) :
    ids.find? p = some t ↔ FirstOf ids P t := by
  rw [List.find?_eq_some_iff_append, FirstOf]
  constructor
  · rintro ⟨ht, before, after, rfl, hbefore⟩
    refine ⟨before, after, rfl, (h t).mp ht, fun u hu hp => ?_⟩
    have := hbefore u hu
    rw [(h u).mpr hp] at this
    cases this
  · rintro ⟨before, after, rfl, ht, hbefore⟩
    refine ⟨(h t).mpr ht, before, after, rfl, fun u hu => ?_⟩
    rw [Bool.not_eq_true', ← Bool.not_eq_true, h]
    exact hbefore u hu

/-- A condition that holds of one scope more gives that scope where it is nearer, and else what it gave. -/
theorem find?_more {p q : ScopeId → Bool} {t : ScopeId} (hq : ∀ u, q u = true ↔ p u = true ∨ u = t) :
    ∀ {ids : List ScopeId}, ids.Nodup → (ids.find? q ≠ ids.find? p ↔ Nearer ids t (ids.find? p)) ∧
      (ids.find? q ≠ ids.find? p → ids.find? q = some t)
  | [], _ => by simp [Nearer]
  | x :: ids, hnd => by
    obtain ⟨hx, hnd⟩ := List.nodup_cons.mp hnd
    have hlater : ∀ {a : ScopeId}, ids.find? p = some a → a ∈ ids := fun h => List.mem_of_find?_eq_some h
    cases hp : p x with
    | true =>
      have hboth : q x = true := (hq x).mpr (Or.inl hp)
      simp only [List.find?_cons, hp, hboth, ne_eq, not_true_eq_false, false_implies, and_true, false_iff]
      rintro ⟨before, after, hids, hafter⟩
      have hxa := hafter x rfl
      cases before with
      | nil =>
        obtain ⟨rfl, rfl⟩ := List.cons.inj hids
        exact hx hxa
      | cons y before =>
        obtain ⟨rfl, rfl⟩ := List.cons.inj hids
        exact hx (List.mem_append_right _ (List.mem_cons_of_mem _ hxa))
    | false =>
      by_cases hxt : x = t
      · subst hxt
        have hnew : q x = true := (hq x).mpr (Or.inr rfl)
        simp only [List.find?_cons, hp, hnew, implies_true, and_true]
        constructor
        · exact fun _ => ⟨[], ids, rfl, fun a ha => hlater ha⟩
        · exact fun _ heq => hx (hlater heq.symm)
      · have hsame : q x = false := by
          rw [← Bool.not_eq_true, hq, hp]
          simp [hxt]
        have hnearer : Nearer (x :: ids) t (ids.find? p) ↔ Nearer ids t (ids.find? p) := by
          constructor
          · rintro ⟨before, after, hids, hafter⟩
            cases before with
            | nil => exact absurd (List.cons.inj hids).1 hxt
            | cons y before => exact ⟨before, after, (List.cons.inj hids).2, hafter⟩
          · rintro ⟨before, after, rfl, hafter⟩
            exact ⟨x :: before, after, rfl, hafter⟩
        simp only [List.find?_cons, hp, hsame, hnearer]
        exact find?_more hq hnd

/-- What is answered about a scope with a chain: the walks end, and with the first scope on the chain that
is looked for. -/
structure Answers (calls : List ScopeCall) (s : ScopeId) (ids : List ScopeId) : Prop where
  resolve_ends : ∀ name, (built calls).Resolves name s ((built calls).resolve s name)
  hoisting_ends : (built calls).Hoists s ((built calls).hoistingScope s)
  resolve : ∀ name t, (built calls).resolve s name = some t ↔ FirstOf ids (Bound calls · name) t
  unbound : ∀ name, (built calls).resolve s name = none ↔ ∀ t ∈ ids, ¬ Bound calls t name
  bound : ∀ name, (built calls).hasBinding s name = true ↔ ∃ t ∈ ids, Bound calls t name
  hoisting : ∀ t, (built calls).hoistingScope s = t ↔ FirstOf ids (hoists calls · = true) t ∨
    (∀ u ∈ ids, hoists calls u = false) ∧ ids.getLast? = some t
  fixed : (built calls).hoistingScope ((built calls).hoistingScope s) = (built calls).hoistingScope s

theorem answers (hs : Sound calls) (hc : Chain calls s ids) : Answers calls s ids := by
  have hreflects := built_reflects calls
  have hids := built_ancestors hs hc
  have hresolve (name : String) : (built calls).resolve s name =
      ids.find? ((built calls).hasOwnBinding · name) := by
    rw [ScopeTree.resolve, hids]
  have hhoisting : (built calls).hoistingScope s = (ids.find? (built calls).isHoisting).getD (ids.getLastD s) := by
    rw [hoistingScope, hids]
  have hends : (built calls).Hoists s ((built calls).hoistingScope s) := by
    rw [hhoisting]
    exact hoists_find? hc
  have hnone (name : String) : (built calls).resolve s name = none ↔ ∀ t ∈ ids, ¬ Bound calls t name := by
    rw [hresolve, List.find?_eq_none]
    exact forall₂_congr fun t _ => not_congr (hreflects.own t name)
  refine ⟨fun name => ?_, hends, fun name t => ?_, hnone, fun name => ?_, fun t => ?_, hends.fixed⟩
  · rw [hresolve]
    exact resolves_find? hc name
  · rw [hresolve]
    exact find?_eq_firstOf (fun u => hreflects.own u name) t
  · rw [hasBinding, Option.isSome_iff_ne_none, ne_eq, hnone]
    simp
  · rw [hhoisting]
    have hfirst (t : ScopeId) : ids.find? (built calls).isHoisting = some t ↔
        FirstOf ids (hoists calls · = true) t :=
      find?_eq_firstOf (fun u => by rw [hreflects.hoisting]) t
    cases hfound : ids.find? (built calls).isHoisting with
    | some found =>
      have hmem := List.mem_of_find?_eq_some hfound
      have hkind := List.find?_some hfound
      rw [hreflects.hoisting] at hkind
      rw [hfound] at hfirst
      rw [← hfirst, Option.getD_some, Option.some.injEq]
      constructor
      · exact Or.inl
      · rintro (heq | ⟨hall, -⟩)
        · exact heq
        · rw [hall found hmem] at hkind
          cases hkind
    | none =>
      have hall : ∀ u ∈ ids, hoists calls u = false := by
        intro u hu
        rw [← hreflects.hoisting, ← Bool.not_eq_true]
        exact List.find?_eq_none.mp hfound u hu
      obtain ⟨rest, rfl⟩ := hc.head_mem
      rw [hfound] at hfirst
      rw [← hfirst, Option.getD_none, List.getLastD_eq_getLast?, List.getLast?_cons, Option.getD_some,
        Option.some.injEq]
      simp only [reduceCtorEq, false_or]
      exact (and_iff_right hall).symm

/-! ## Further calls -/

/-- What a further call changes about a scope with a chain. -/
structure Frame (calls : List ScopeCall) (s : ScopeId) (ids : List ScopeId) : Prop where
  binding : ∀ t own name,
    ((built (calls ++ [.addBinding t own])).resolve s name ≠ (built calls).resolve s name ↔
      name = own ∧ t < (added calls).length ∧ Nearer ids t ((built calls).resolve s name)) ∧
    ((built (calls ++ [.addBinding t own])).resolve s name ≠ (built calls).resolve s name →
      (built (calls ++ [.addBinding t own])).resolve s name = some t)
  homeless : ∀ t own, (added calls).length ≤ t → built (calls ++ [.addBinding t own]) = built calls
  scope : ∀ parent hoisting, (∀ up ∈ parent, up < (added calls).length) → s < (added calls).length →
    let next := built (calls ++ [.addScope parent hoisting])
    next.parent s = (built calls).parent s ∧ next.hoistingScope s = (built calls).hoistingScope s ∧
      ∀ name, next.hasOwnBinding s name = (built calls).hasOwnBinding s name ∧
        next.resolve s name = (built calls).resolve s name ∧ next.hasBinding s name =
          (built calls).hasBinding s name

theorem own_snoc_scope (calls : List ScopeCall) (parent : Option ScopeId) (hoisting : Bool) (name : String) :
    ((built (calls ++ [.addScope parent hoisting])).hasOwnBinding · name) =
      ((built calls).hasOwnBinding · name) := by
  funext id
  rw [Bool.eq_iff_iff, (built_reflects _).own, (built_reflects _).own, bound_snoc]
  simp

theorem addBinding_homeless :
    ∀ {tree : ScopeTree} {id : Nat}, tree.size ≤ id → ∀ name, tree.addBinding id name = tree
  | ⟨scopes⟩, id, hid, name => by
    rw [addBinding, ScopeTree.mk.injEq]
    apply Array.ext_getElem?
    intro i
    rw [Array.getElem?_modify]
    by_cases heq : id = i
    · subst heq
      rw [if_pos rfl, Array.getElem?_eq_none hid]
      rfl
    · rw [if_neg heq]

theorem frame (hs : Sound calls) (hc : Chain calls s ids) : Frame calls s ids := by
  have hids := built_ancestors hs hc
  have hnd := hc.nodup hs
  refine ⟨fun t own name => ?_, fun t own ht => ?_, fun parent hoisting hparent hid => ?_⟩
  · have hids' := built_ancestors (sound_snoc_binding.mpr hs) (hc.snoc_binding t own)
    rw [resolve, resolve, hids, hids']
    have hown (u : ScopeId) : (built (calls ++ [.addBinding t own])).hasOwnBinding u name = true ↔
        (built calls).hasOwnBinding u name = true ∨ u = t ∧ name = own ∧ t < (added calls).length := by
      rw [(built_reflects _).own, (built_reflects _).own, bound_snoc, ScopeCall.addBinding.injEq]
      grind
    by_cases hnew : name = own ∧ t < (added calls).length
    · have hmore := find?_more (p := ((built calls).hasOwnBinding · name))
        (q := ((built (calls ++ [.addBinding t own])).hasOwnBinding · name)) (t := t)
        (fun u => by rw [hown, and_iff_left hnew]) hnd
      rw [← and_assoc, and_iff_right hnew]
      exact hmore
    · have hsame : ((built (calls ++ [.addBinding t own])).hasOwnBinding · name) =
          ((built calls).hasOwnBinding · name) := by
        funext u
        rw [Bool.eq_iff_iff, hown]
        simp [hnew]
      rw [hsame, ← and_assoc]
      simp [hnew]
  · rw [← (built_reflects calls).size] at ht
    rw [built_snoc]
    exact addBinding_homeless ht own
  · have hs' : Sound (calls ++ [.addScope parent hoisting]) := sound_snoc_scope.mpr ⟨hs, hparent⟩
    have hids' := built_ancestors hs' (hc.snoc hs (.addScope parent hoisting) hid)
    have hsize : s < (built calls).size := by rwa [(built_reflects calls).size]
    have hgrow := extends_addScope (built calls) parent hoisting
    have hresolve (name : String) : (built (calls ++ [.addScope parent hoisting])).resolve s name =
        (built calls).resolve s name := by
      rw [resolve, resolve, hids, hids', own_snoc_scope]
    have hdescending := built_descending hs'
    rw [built_snoc] at hdescending
    refine ⟨?_, ?_, fun name => ⟨congrFun (own_snoc_scope calls parent hoisting name) s, hresolve name, ?_⟩⟩
    · rw [built_snoc]
      exact hgrow.parent s hsize
    · rw [built_snoc]
      exact hgrow.hoistingScope (built_descending hs) hdescending hsize
    · rw [hasBinding, hasBinding, hresolve]

end ScopeTree

/-- Every question about a scope is answered along its chain of parents, whatever calls the tree was built
by. The walks end. The scope that binds a name is the first on the chain that a call bound it in; the
scope where `var` lands is the first on the chain that takes it, or else the last. A further binding
gives another answer exactly where it binds the name asked for nearer than before, and then it gives
itself; a further scope changes nothing about those that are there. -/
theorem scope_queries_follow_chain {calls : List ScopeCall} (hs : ScopeCall.Sound calls) (s : ScopeId) :
    ∃ ids, ScopeCall.Chain calls s ids ∧ (∀ other, ScopeCall.Chain calls s other → other = ids) ∧
      ScopeTree.Answers calls s ids ∧ ScopeTree.Frame calls s ids := by
  have hc := ScopeTree.chain_ancestors hs s
  exact ⟨_, hc, fun _ hother => hc.unique hother, ScopeTree.answers hs hc, ScopeTree.frame hs hc⟩

def leftBlock : List ScopeCall :=
  [.addScope none true, .addScope (some 0) true, .addScope (some 1) false, .addBinding 0 "component",
    .addBinding 1 "h", .addBinding 0 "h", .addBinding 7 "h"]

theorem scope_queries_follow_chain_left : ScopeCall.Sound leftBlock ∧
    ScopeTree.Answers leftBlock 2 [2, 1, 0] ∧ ScopeTree.Frame leftBlock 2 [2, 1, 0] ∧
    (ScopeTree.built leftBlock).resolve 2 "h" = some 1 ∧ (ScopeTree.built leftBlock).hoistingScope 2 = 1 := by
  have hs : ScopeCall.Sound leftBlock := by decide
  have hc : ScopeCall.Chain leftBlock 2 [2, 1, 0] := .up rfl (.up rfl (.last rfl))
  obtain ⟨ids, -, hunique, hanswers, hframe⟩ := scope_queries_follow_chain hs 2
  obtain rfl := hunique _ hc
  exact ⟨hs, hanswers, hframe, by decide, by decide⟩

end ComponentMacros
