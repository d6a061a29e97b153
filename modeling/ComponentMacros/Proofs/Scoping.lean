import ComponentMacros.Proofs.Inert
import ComponentMacros.Proofs.ScopeChain

/-!
# Which names refer to a macro

The scopes that a walk builds say of a name what can be read off the program: a
scope binds the names that are declared in it and in no scope within, and a
scope of a function or the program those of the `var` declarations in it. A name
is recorded exactly if it is spelled like a macro, stands in no type, and no scope
around it but the program declares it.
-/

namespace ComponentMacros

/-! ## Declared names -/

/-- What a node itself binds in the scope around it. A function that is declared has its name there. -/
def Tree.ownNames (t : Tree) : List String :=
  match t.kind with
  | .binding name => [name]
  | .function .declaration _ _ => t.boundName?.toList
  | _ => []

mutual

/-- The names that a node and its parts bind in the scope around it. A class is no scope, only what
follows its name is. -/
def Tree.scopedNames : Tree → List String
  | .node kind span children =>
    (Tree.node kind span children).ownNames ++ (if kind.scope?.isSome then [] else scopedNamesOf children)

def scopedNamesOf : List Tree → List String
  | [] => []
  | t :: ts => t.scopedNames ++ scopedNamesOf ts

end

def Tree.ownPattern (t : Tree) : List String :=
  match t.kind with
  | .binding name => [name]
  | _ => []

def Kind.endsDeclaration : Kind → Bool
  | .declarator _ => true
  | kind => kind.isExpression

mutual

/-- The names that a node and its parts add to the declaration it is part of. -/
def Tree.patternNames : Tree → List String
  | .node kind span children =>
    (Tree.node kind span children).ownPattern ++ (if kind.endsDeclaration then [] else patternNamesOf children)

def patternNamesOf : List Tree → List String
  | [] => []
  | t :: ts => t.patternNames ++ patternNamesOf ts

end

mutual

/-- The names that `var` declarations in a node put into the function around it. -/
def Tree.varNames : Tree → List String
  | .node kind _ children =>
    (if kind = .declarator "var" then patternNamesOf children else []) ++
    (if kind.scope? = some true then [] else varNamesOf children)

def varNamesOf : List Tree → List String
  | [] => []
  | t :: ts => t.varNames ++ varNamesOf ts

end

def Tree.declares (name : String) (t : Tree) : Bool :=
  match t.kind.scope? with
  | none => false
  | some hoisting => (scopedNamesOf t.children).contains name || hoisting && (varNamesOf t.children).contains name

/-! ## Scopes and nodes -/

/-- The scopes from `id` up to `base` are those of the nodes of a path, and bind what the nodes declare.
None of them is older than `low`. -/
inductive Linked (tree : ScopeTree) (low base : Nat) : Nat → List Tree → Prop where
  | base : Linked tree low base base []
  | plain {t : Tree} {id : Nat} {rest : List Tree} (hplain : t.kind.scope? = none)
    (hrest : Linked tree low base id rest) : Linked tree low base id (t :: rest)
  | scope {t : Tree} {id up : Nat} {rest : List Tree} (hlow : low ≤ id) (hid : id < tree.size)
    (hown : ∀ name, tree.hasOwnBinding id name = t.declares name) (hup : tree.parent id = some up)
    (hrest : Linked tree low base up rest) : Linked tree low base id (t :: rest)

namespace Linked

variable {tree : ScopeTree} {low base id : Nat} {inner : List Tree}

theorem of_plain (h : ∀ t ∈ inner, t.kind.scope? = none) : Linked tree low base base inner := by
  induction inner with
  | nil => exact .base
  | cons t inner ih =>
    exact .plain (h t (List.mem_cons_self ..)) (ih fun u hu => h u (List.mem_cons_of_mem _ hu))

theorem append {mid : Nat} {outer : List Tree} (h : Linked tree low mid id inner)
    (houter : Linked tree low base mid outer) : Linked tree low base id (inner ++ outer) := by
  induction h with
  | base => exact houter
  | plain hplain _ ih => exact .plain hplain ih
  | scope hlow hid hown hup _ ih => exact .scope hlow hid hown hup ih

theorem lower {low' : Nat} (h : Linked tree low base id inner) (hle : low' ≤ low) :
    Linked tree low' base id inner := by
  induction h with
  | base => exact .base
  | plain hplain _ ih => exact .plain hplain ih
  | scope hlow hid hown hup _ ih => exact .scope (Nat.le_trans hle hlow) hid hown hup ih

theorem mono {tree' : ScopeTree} (hgrown : tree.Extends tree')
    (hown : ∀ i, low ≤ i → i < tree.size → ∀ name, tree'.hasOwnBinding i name = tree.hasOwnBinding i name)
    (h : Linked tree low base id inner) : Linked tree' low base id inner := by
  induction h with
  | base => exact .base
  | plain hplain _ ih => exact .plain hplain ih
  | @scope t id up rest hlow hid hbinds hup _ ih =>
    refine .scope hlow (Nat.lt_of_lt_of_le hid hgrown.size) ?_ ((hgrown.parent id hid).trans hup) ih
    intro name
    rw [hown id hlow hid, hbinds]

/-- A name is resolved at the root exactly if no scope on the way declares it. -/
theorem resolve_iff (hdesc : tree.Descending) (hroot : 0 < tree.size) (h : Linked tree 1 0 id inner)
    (name : String) :
    tree.resolve id name = some ScopeTree.root ↔
      (∀ t ∈ inner, t.declares name = false) ∧ tree.hasOwnBinding ScopeTree.root name = true := by
  induction h with
  | base =>
    have hnone : tree.parent 0 = none := by
      cases hup : tree.parent 0 with
      | none => rfl
      | some up => exact absurd (hdesc 0 up hup) (Nat.not_lt_zero _)
    rw [ScopeTree.resolve_eq hdesc hroot, hnone]
    cases hown : tree.hasOwnBinding 0 name <;> simp [ScopeTree.root, hown]
  | @plain t id rest hplain _ ih =>
    have hnot : t.declares name = false := by simp [Tree.declares, hplain]
    simp [ih, hnot]
  | @scope t id up rest hlow hid hown hup _ ih =>
    rw [ScopeTree.resolve_eq hdesc hid, hown, hup]
    cases hdeclares : t.declares name with
    | true =>
      have hne : id ≠ 0 := by omega
      simp [hdeclares, ScopeTree.root, hne]
    | false => simp [hdeclares, ih]

end Linked

/-! ## What a walk adds -/

structure Place.Valid (place : Place) (tree : ScopeTree) : Prop where
  descending : tree.Descending
  scope : place.scope < tree.size
  hoistInto : ∀ id : Nat, place.hoistInto = some id → id < tree.size

/-- A walk at a place leaves the scopes that were there as they are, up to names that it binds: those
that are bound around the place, those of the declaration the place is in, and those of `var`
declarations. Every site it notes is linked to the scope of the place. -/
structure Walked (place : Place) (names pattern vars : List String) (found found' : Findings) : Prop where
  grown : found.scopes.Extends found'.scopes
  descending : found'.scopes.Descending
  own : ∀ id < found.scopes.size, ∀ name, found'.scopes.hasOwnBinding id name = true ↔
    found.scopes.hasOwnBinding id name = true ∨ id = place.scope ∧ name ∈ names ∨
      place.hoistInto = some id ∧ name ∈ pattern ∨ id = found.scopes.hoistingScope place.scope ∧ name ∈ vars
  sites : ∀ s ∈ found'.candidates, s ∈ found.candidates ∨ ∃ inner, s.ancestors = inner ++ place.ancestors ∧
    Linked found'.scopes found.scopes.size place.scope s.scope inner

section
variable {place : Place} {found found' : Findings}

theorem Place.Valid.grow {tree tree' : ScopeTree} (h : place.Valid tree) (hgrown : tree.Extends tree')
    (hdesc : tree'.Descending) : place.Valid tree' :=
  ⟨hdesc, Nat.lt_of_lt_of_le h.scope hgrown.size, fun id hid => Nat.lt_of_lt_of_le
    (h.hoistInto id hid) hgrown.size⟩

theorem Walked.refl (h : place.Valid found.scopes) : Walked place [] [] [] found found :=
  ⟨.refl _, h.descending, by simp, fun _ hs => Or.inl hs⟩

/-- The scopes that a walk adds are younger than all that a later walk at the same place may change. -/
theorem Walked.keeps {a b c : Findings} {s₁ p₁ v₁ s₂ p₂ v₂ : List String} (hvalid : place.Valid a.scopes)
    (hab : Walked place s₁ p₁ v₁ a b) (hbc : Walked place s₂ p₂ v₂ b c) {base id : Nat} {inner : List Tree}
    (h : Linked b.scopes a.scopes.size base id inner) : Linked c.scopes a.scopes.size base id inner := by
  have hhoist := hab.grown.hoistingScope hvalid.descending hab.descending hvalid.scope
  refine h.mono hbc.grown ?_
  intro id hlow hid name
  have hle := ScopeTree.hoistingScope_le hvalid.descending hvalid.scope
  rw [Bool.eq_iff_iff, hbc.own id hid, hhoist]
  constructor
  · rintro (h | ⟨h, -⟩ | ⟨h, -⟩ | ⟨h, -⟩)
    · exact h
    · exact absurd (h ▸ hvalid.scope) (Nat.not_lt.mpr hlow)
    · exact absurd (hvalid.hoistInto id h) (Nat.not_lt.mpr hlow)
    · exact absurd (h ▸ Nat.lt_of_le_of_lt hle hvalid.scope) (Nat.not_lt.mpr hlow)
  · exact Or.inl

theorem Walked.trans {a b c : Findings} {s₁ p₁ v₁ s₂ p₂ v₂ : List String} (hvalid : place.Valid a.scopes)
    (hab : Walked place s₁ p₁ v₁ a b) (hbc : Walked place s₂ p₂ v₂ b c) :
    Walked place (s₁ ++ s₂) (p₁ ++ p₂) (v₁ ++ v₂) a c := by
  -- the first walk may add scopes, but not one where `var` declarations of this place would land
  have hhoist := hab.grown.hoistingScope hvalid.descending hab.descending hvalid.scope
  have hgrown := hab.grown.trans hbc.grown
  refine ⟨hgrown, hbc.descending, ?_, ?_⟩
  · intro id hid name
    rw [hbc.own id (Nat.lt_of_lt_of_le hid hab.grown.size), hab.own id hid, hhoist]
    simp only [List.mem_append]
    grind
  · intro s hs
    rcases hbc.sites s hs with hs | ⟨inner, hanc, hlinked⟩
    · refine (hab.sites s hs).imp_right ?_
      rintro ⟨inner, hanc, hlinked⟩
      exact ⟨inner, hanc, hab.keeps hvalid hbc hlinked⟩
    · exact Or.inr ⟨inner, hanc, hlinked.lower hab.grown.size⟩

end

section
variable (lookup : String → Option Macro)

theorem Walked.scopes_eq {place : Place} {found found' : Findings} (hvalid : place.Valid found.scopes)
    (hscopes : found'.scopes = found.scopes)
    (hsites : ∀ s ∈ found'.candidates, s ∈ found.candidates ∨ ∃ inner, s.ancestors = inner ++ place.ancestors ∧
      Linked found'.scopes found.scopes.size place.scope s.scope inner) : Walked place [] [] [] found found' := by
  refine ⟨?_, ?_, ?_, hsites⟩
  · rw [hscopes]; exact .refl _
  · rw [hscopes]; exact hvalid.descending
  · simp [hscopes]

theorem note_walked {place : Place} {found : Findings} (hvalid : place.Valid found.scopes) {inner : List Tree}
    (hinner : ∀ t ∈ inner, t.kind.scope? = none) (kind : Macro) (name : String) (span : Span)
    (position : SitePosition) : Walked place [] [] [] found
      (found.note { place with ancestors := inner ++ place.ancestors } kind name span position) := by
  refine .scopes_eq hvalid rfl ?_
  intro s hs
  rcases List.mem_append.mp hs with hs | hs
  · exact Or.inl hs
  · rw [List.mem_singleton.mp hs]
    exact Or.inr ⟨inner, rfl, .of_plain hinner⟩

theorem bind_walked {place : Place} {found : Findings} (hvalid : place.Valid found.scopes) (name : String) :
    Walked place [name] [] [] found { found with scopes := found.scopes.addBinding place.scope name } := by
  refine ⟨ScopeTree.extends_addBinding .., hvalid.descending.addBinding _ _, ?_, fun _ hs => Or.inl hs⟩
  intro id hid n
  rw [ScopeTree.hasOwnBinding_addBinding _ _ _ hid]
  simp

theorem declare_walked {place : Place} {found : Findings} (hvalid : place.Valid found.scopes) (name : String) :
    Walked place [name] [name] [] found (found.declare place name) := by
  refine ⟨?_, ?_, ?_, fun _ hs => Or.inl hs⟩
  · unfold Findings.declare
    cases place.hoistInto with
    | none => exact ScopeTree.extends_addBinding ..
    | some scope => exact (ScopeTree.extends_addBinding ..).trans (ScopeTree.extends_addBinding ..)
  · unfold Findings.declare
    cases place.hoistInto with
    | none => exact hvalid.descending.addBinding _ _
    | some scope => exact (hvalid.descending.addBinding _ _).addBinding _ _
  · intro id hid n
    unfold Findings.declare
    cases hinto : place.hoistInto with
    | none =>
      simp only
      rw [ScopeTree.hasOwnBinding_addBinding _ _ _ hid]
      simp
    | some scope =>
      simp only
      rw [ScopeTree.hasOwnBinding_addBinding _ _ _ (by simpa using hid),
        ScopeTree.hasOwnBinding_addBinding _ _ _ hid]
      simp only [List.mem_singleton, Option.some.injEq, List.not_mem_nil, and_false, or_false, or_assoc,
        @eq_comm _ id scope]

theorem meet_walked {place : Place} {found : Findings} (hvalid : place.Valid found.scopes) (t : Tree) :
    Walked place t.ownNames t.ownPattern [] found (meet lookup place t found) := by
  unfold meet
  split
  · rename_i name hk
    have hnames : t.ownNames = [name] := by simp [Tree.ownNames, hk]
    have hpattern : t.ownPattern = [name] := by simp [Tree.ownPattern, hk]
    rw [hnames, hpattern]
    exact declare_walked hvalid name
  · rename_i name hk
    have hnames : t.ownNames = [] := by simp [Tree.ownNames, hk]
    have hpattern : t.ownPattern = [] := by simp [Tree.ownPattern, hk]
    rw [hnames, hpattern]
    split
    · exact @note_walked place found hvalid [] (by simp) ..
    · exact .refl hvalid
  · rename_i isAsync isGenerator hk
    have hnames : t.ownNames = t.boundName?.toList := by simp [Tree.ownNames, hk]
    have hpattern : t.ownPattern = [] := by simp [Tree.ownPattern, hk]
    rw [hnames, hpattern]
    cases t.boundName? with
    | none => exact .refl hvalid
    | some name => exact bind_walked hvalid name
  · rename_i access isMethod hk
    have hnames : t.ownNames = [] := by simp [Tree.ownNames, hk]
    have hpattern : t.ownPattern = [] := by simp [Tree.ownPattern, hk]
    rw [hnames, hpattern]
    split
    · split
      · split
        · exact @note_walked place found hvalid [t] (by simp [hk, Kind.scope?]) ..
        · exact .refl hvalid
      · exact .refl hvalid
    · exact .refl hvalid
  · rename_i hbinding hidentifier hfunction hproperty
    have hnames : t.ownNames = [] := by
      unfold Tree.ownNames
      split
      · exact absurd ‹_› (hbinding _)
      · exact absurd ‹_› (hfunction _ _)
      · rfl
    have hpattern : t.ownPattern = [] := by
      unfold Tree.ownPattern
      split
      · exact absurd ‹_› (hbinding _)
      · rfl
    rw [hnames, hpattern]
    exact .refl hvalid

end

/-! ## Entering a node -/

section
variable {place : Place} {found found' : Findings} {t : Tree}

theorem inside_hoistInto (scopes : ScopeTree) (id : Nat) : (place.inside t scopes).hoistInto = some id ↔
    t.kind = .declarator "var" ∧ id = scopes.hoistingScope place.scope ∨
      t.kind.endsDeclaration = false ∧ place.hoistInto = some id := by
  unfold Place.inside
  simp only
  split
  · rename_i keyword hkind
    by_cases hvar : keyword = "var"
    · simp [hkind, hvar, Kind.endsDeclaration, eq_comm]
    · simp [hkind, hvar, Kind.endsDeclaration]
  · rename_i hkind
    have hends : t.kind.endsDeclaration = t.kind.isExpression := by
      unfold Kind.endsDeclaration
      split
      · exact absurd ‹_› (hkind _)
      · rfl
    have hvar : t.kind ≠ .declarator "var" := hkind "var"
    rw [hends]
    cases t.kind.isExpression <;> simp [hvar]

@[simp] theorem inside_ancestors (scopes : ScopeTree) :
    (place.inside t scopes).ancestors = t :: place.ancestors := rfl

theorem openScope_none (h : t.kind.scope? = none) : found.openScope place t = found := by
  simp only [Findings.openScope, h]

theorem openScope_scopes {hoisting : Bool} (h : t.kind.scope? = some hoisting) :
    (found.openScope place t).scopes = found.scopes.addScope (some place.scope) hoisting := by
  simp only [Findings.openScope, h]

theorem size_lt_openScope {hoisting : Bool} (h : t.kind.scope? = some hoisting) :
    found.scopes.size < (found.openScope place t).scopes.size := by
  rw [openScope_scopes h, ScopeTree.size_addScope]
  exact Nat.lt_succ_self _

theorem inside_scope_none (h : t.kind.scope? = none) (scopes : ScopeTree) :
    (place.inside t scopes).scope = place.scope := by
  simp [Place.inside, h]

theorem inside_scope_some {hoisting : Bool} (h : t.kind.scope? = some hoisting) (scopes : ScopeTree) :
    (place.inside t scopes).scope = scopes.size := by
  simp [Place.inside, h]

theorem inside_valid (hvalid : place.Valid found.scopes) :
    (place.inside t found.scopes).Valid (found.openScope place t).scopes := by
  have hinto : ∀ id : Nat, (place.inside t found.scopes).hoistInto = some id → id < found.scopes.size := by
    intro id h
    rcases (inside_hoistInto _ _).mp h with ⟨-, rfl⟩ | ⟨-, h⟩
    · exact Nat.lt_of_le_of_lt (ScopeTree.hoistingScope_le hvalid.descending hvalid.scope) hvalid.scope
    · exact hvalid.hoistInto id h
  cases hscope : t.kind.scope? with
  | none =>
    rw [openScope_none hscope]
    refine ⟨hvalid.descending, ?_, hinto⟩
    rw [inside_scope_none hscope]
    exact hvalid.scope
  | some hoisting =>
    rw [openScope_scopes hscope]
    refine ⟨hvalid.descending.addScope hvalid.scope hoisting, ?_, ?_⟩
    · rw [inside_scope_some hscope, ScopeTree.size_addScope]
      exact Nat.lt_succ_self _
    · intro id h
      rw [ScopeTree.size_addScope]
      exact Nat.lt_succ_of_lt (hinto id h)

theorem opened_own {hoisting : Bool} (hscope : t.kind.scope? = some hoisting) (hvalid : place.Valid found.scopes)
    (h : Walked (place.inside t found.scopes) (scopedNamesOf t.children) (patternNamesOf t.children)
      (varNamesOf t.children) (found.openScope place t) found') (name : String) :
    found'.scopes.hasOwnBinding found.scopes.size name = t.declares name := by
  have hnew := @size_lt_openScope place found t hoisting hscope
  have hbefore : (found.openScope place t).scopes.hasOwnBinding found.scopes.size name = false := by
    rw [openScope_scopes hscope, ScopeTree.hasOwnBinding_addScope]
    simp
  -- a declaration around the node, and a scope around it, are older
  have hinto : (place.inside t found.scopes).hoistInto ≠ some found.scopes.size := by
    intro hinto
    rcases (inside_hoistInto _ _).mp hinto with ⟨hkind, -⟩ | ⟨-, hinto⟩
    · rw [hkind] at hscope; cases hscope
    · exact Nat.lt_irrefl _ (hvalid.hoistInto _ hinto)
  have hhoist : found.scopes.size = (found.openScope place t).scopes.hoistingScope found.scopes.size ↔
      hoisting = true := by
    have hle := ScopeTree.hoistingScope_le hvalid.descending hvalid.scope
    have hlt := Nat.lt_of_le_of_lt hle hvalid.scope
    rw [openScope_scopes hscope, ScopeTree.hoistingScope_addScope hvalid.descending hvalid.scope]
    cases hoisting with
    | true => simp
    | false => simpa using Nat.ne_of_gt hlt
  rw [Bool.eq_iff_iff, h.own _ hnew, hbefore, inside_scope_some hscope, hhoist]
  simp [Tree.declares, hscope, hinto]

/-- What is linked to the place of a node's parts is linked through the node to the place of the node. -/
theorem entered_linked (hvalid : place.Valid found.scopes)
    (h : Walked (place.inside t found.scopes) (scopedNamesOf t.children) (patternNamesOf t.children)
      (varNamesOf t.children) (found.openScope place t) found') {id : Nat} {inner : List Tree}
    (hlinked : Linked found'.scopes (found.openScope place t).scopes.size
      (place.inside t found.scopes).scope id inner) :
    Linked found'.scopes found.scopes.size place.scope id (inner ++ [t]) := by
  cases hscope : t.kind.scope? with
  | none =>
    rw [openScope_none hscope, inside_scope_none hscope] at hlinked
    exact hlinked.append (.plain hscope .base)
  | some hoisting =>
    have hsize := @size_lt_openScope place found t hoisting hscope
    have hup : found'.scopes.parent found.scopes.size = some place.scope := by
      rw [h.grown.parent _ hsize, openScope_scopes hscope, ScopeTree.parent_addScope]
    rw [inside_scope_some hscope] at hlinked
    refine (hlinked.lower (Nat.le_of_lt hsize)).append ?_
    exact .scope (Nat.le_refl _) (Nat.lt_of_lt_of_le hsize h.grown.size) (opened_own hscope hvalid h) hup .base

/-- A node hands on what its parts bind, unless it is their scope, what they add to its declaration,
unless it ends there, and what is hoisted out of it. -/
theorem enter_walked (hvalid : place.Valid found.scopes)
    (h : Walked (place.inside t found.scopes) (scopedNamesOf t.children) (patternNamesOf t.children)
      (varNamesOf t.children) (found.openScope place t) found') :
    Walked place (if t.kind.scope?.isSome then [] else scopedNamesOf t.children)
      (if t.kind.endsDeclaration then [] else patternNamesOf t.children)
      ((if t.kind = .declarator "var" then patternNamesOf t.children else []) ++
        (if t.kind.scope? = some true then [] else varNamesOf t.children)) found found' := by
  have hsites : ∀ s ∈ found'.candidates, s ∈ found.candidates ∨ ∃ inner, s.ancestors = inner ++ place.ancestors ∧
      Linked found'.scopes found.scopes.size place.scope s.scope inner := by
    intro s hs
    have hsites := h.sites s hs
    rw [Findings.openScope_candidates] at hsites
    refine hsites.imp_right ?_
    rintro ⟨inner, hanc, hlinked⟩
    refine ⟨inner ++ [t], by rw [hanc, inside_ancestors, List.append_assoc]; rfl, ?_⟩
    exact entered_linked hvalid h hlinked
  cases hscope : t.kind.scope? with
  | none =>
    rw [openScope_none hscope] at h
    refine ⟨h.grown, h.descending, ?_, hsites⟩
    intro id hid name
    rw [h.own id hid, inside_hoistInto, inside_scope_none hscope]
    by_cases hvar : t.kind = .declarator "var"
    · have hends : (Kind.declarator "var").endsDeclaration = true := rfl
      simp [hvar, hends, and_or_left]
    · cases hends : t.kind.endsDeclaration <;> simp [hvar]
  | some hoisting =>
    have hgrown : found.scopes.Extends (found.openScope place t).scopes := by
      rw [openScope_scopes hscope]
      exact ScopeTree.extends_addScope ..
    refine ⟨hgrown.trans h.grown, h.descending, ?_, hsites⟩
    intro id hid name
    have hvar : t.kind ≠ .declarator "var" := by
      intro hvar
      rw [hvar] at hscope
      cases hscope
    have hsame : (found.openScope place t).scopes.hasOwnBinding id name = found.scopes.hasOwnBinding id name := by
      rw [openScope_scopes hscope, ScopeTree.hasOwnBinding_addScope]
      simp [hid]
    rw [h.own id (Nat.lt_of_lt_of_le hid hgrown.size), inside_hoistInto, inside_scope_some hscope, hsame,
      openScope_scopes hscope, ScopeTree.hoistingScope_addScope hvalid.descending hvalid.scope]
    have hne : id ≠ found.scopes.size := Nat.ne_of_lt hid
    cases hoisting <;> cases hends : t.kind.endsDeclaration <;> simp [hvar, hne]

end

section
variable (lookup : String → Option Macro)

mutual

theorem walk_walked : ∀ (t : Tree) (place : Place) (found : Findings), place.Valid found.scopes →
    Walked place t.scopedNames t.patternNames t.varNames found (walk lookup place t found)
  | .node kind span children, place, found, hvalid => by
    have hmeet := meet_walked lookup hvalid (.node kind span children)
    have hmet := hvalid.grow hmeet.grown hmeet.descending
    have hparts := walkAll_walked children _ _ (@inside_valid place _ (.node kind span children) hmet)
    have hboth := hmeet.trans hvalid (enter_walked hmet hparts)
    rw [List.nil_append] at hboth
    rw [walk, Tree.scopedNames, Tree.patternNames, Tree.varNames]
    exact hboth

theorem walkAll_walked : ∀ (ts : List Tree) (place : Place) (found : Findings), place.Valid found.scopes →
    Walked place (scopedNamesOf ts) (patternNamesOf ts) (varNamesOf ts) found (walkAll lookup place ts found)
  | [], place, found, hvalid => by
    rw [walkAll]
    exact .refl hvalid
  | t :: ts, place, found, hvalid => by
    have hfirst := walk_walked t place found hvalid
    have hrest := walkAll_walked ts place _ (hvalid.grow hfirst.grown hfirst.descending)
    rw [walkAll, scopedNamesOf, patternNamesOf, varNamesOf]
    exact hfirst.trans hvalid hrest

end

theorem walkProgram_scopes {program : Tree} (hroot : program.kind = .program) :
    (walkProgram lookup program).scopes.Descending ∧ 0 < (walkProgram lookup program).scopes.size ∧
    (∀ name, (walkProgram lookup program).scopes.hasOwnBinding ScopeTree.root name = program.declares name) ∧
    ∀ s ∈ (walkProgram lookup program).candidates, ∃ inner, s.ancestors = inner ++ [program] ∧
      Linked (walkProgram lookup program).scopes 1 0 s.scope inner := by
  have hvalid : Place.Valid { scope := ScopeTree.root, ancestors := [program] }
      (ScopeTree.empty.addScope none true) :=
    ⟨ScopeTree.descending_root true, Nat.zero_lt_one, by simp⟩
  have h := walkAll_walked lookup program.children { scope := ScopeTree.root, ancestors := [program] }
    { scopes := ScopeTree.empty.addScope none true, functions := [], candidates := [] } hvalid
  refine ⟨h.descending, ?_, ?_, ?_⟩
  · exact Nat.lt_of_lt_of_le (by decide) h.grown.size
  · intro name
    -- the root is where the walk starts, so nothing but the walk binds names there
    have hhoist : (ScopeTree.empty.addScope none true).hoistingScope ScopeTree.root = ScopeTree.root := rfl
    have hbefore : (ScopeTree.empty.addScope none true).hasOwnBinding ScopeTree.root name = false := rfl
    rw [Bool.eq_iff_iff, walkProgram, h.own ScopeTree.root Nat.zero_lt_one, hbefore, hhoist]
    simp [Tree.declares, hroot, Kind.scope?, ScopeTree.root]
  · intro s hs
    rcases h.sites s hs with hs | ⟨inner, hanc, hlinked⟩
    · cases hs
    · exact ⟨inner, hanc, hlinked⟩

end

/-! ## Mentions -/

mutual

/-- A node and the nodes below it, each with the nodes around it, in source order. -/
def Tree.occurrences (around : List Tree) : Tree → List (Tree × List Tree)
  | .node kind span children =>
    (.node kind span children, around) :: occurrencesOf (.node kind span children :: around) children

def occurrencesOf (around : List Tree) : List Tree → List (Tree × List Tree)
  | [] => []
  | t :: ts => t.occurrences around ++ occurrencesOf around ts

end

/-- A name that is spelled like a macro, where it is used as a value. -/
structure Mention where
  kind : Macro
  name : String
  span : Span
  around : List Tree

/-- The node is a name that is spelled like a macro, and no node around it is a type. -/
def mention? (lookup : String → Option Macro) (t : Tree) (around : List Tree) : Option Mention :=
  match t.kind with
  | .identifier name =>
    if around.any (·.kind.isTypeContext) then none else (lookup name).map (⟨·, name, t.span, around⟩)
  | _ => none

def Tree.mentions (lookup : String → Option Macro) (program : Tree) : List Mention :=
  (program.occurrences []).filterMap fun (t, around) => mention? lookup t around

def Mention.isFree (m : Mention) : Bool :=
  m.around.dropLast.all (!·.declares m.name) && m.around.getLast?.any (·.declares m.name)

def Site.mention (site : Site) : Mention :=
  ⟨site.kind, site.name, site.span, site.ancestors⟩

def mentionsAt (sites : List Site) : List Mention :=
  (sites.filter (·.position = .reference)).map Site.mention

section
variable (lookup : String → Option Macro)

theorem meet_mentions {place : Place} (hplace : place.typeLevel = place.ancestors.any (·.kind.isTypeContext))
    (t : Tree) (found : Findings) : mentionsAt (meet lookup place t found).candidates =
      mentionsAt found.candidates ++ (mention? lookup t place.ancestors).toList := by
  unfold meet
  split
  · rename_i name hk
    simp [mention?, hk, Findings.declare]
  · rename_i name hk
    simp only [mention?, hk, ← hplace]
    cases place.typeLevel with
    | true => simp
    | false =>
      cases lookup name with
      | none => simp
      | some kind => simp [Findings.note, mentionsAt, Site.mention]
  · rename_i hk
    simp only [mention?, hk]
    cases t.boundName? <;> simp
  · rename_i hk
    -- a key is noted as a key, which is no mention
    simp only [mention?, hk]
    split
    · split
      · split
        · simp [Findings.note, mentionsAt]
        · simp
      · simp
    · simp
  · rename_i hbinding hidentifier hfunction hproperty
    have hnone : mention? lookup t place.ancestors = none := by
      unfold mention?
      split
      · exact absurd ‹_› (hidentifier _)
      · rfl
    simp [hnone]

mutual

theorem walk_mentions : ∀ (t : Tree) (place : Place) (found : Findings),
    place.typeLevel = place.ancestors.any (·.kind.isTypeContext) →
    mentionsAt (walk lookup place t found).candidates = mentionsAt found.candidates ++
      (t.occurrences place.ancestors).filterMap fun (u, around) => mention? lookup u around
  | .node kind span children, place, found, hplace => by
    have hinside : ∀ scopes, (place.inside (.node kind span children) scopes).typeLevel =
        (place.inside (.node kind span children) scopes).ancestors.any (·.kind.isTypeContext) := by
      intro scopes
      simp [Place.inside, hplace, Bool.or_comm]
    rw [walk, walkAll_mentions children _ _ (hinside _), Findings.openScope_candidates,
      meet_mentions lookup hplace, Tree.occurrences, List.filterMap_cons]
    simp only [inside_ancestors, List.append_assoc]
    cases mention? lookup (.node kind span children) place.ancestors <;> simp

theorem walkAll_mentions : ∀ (ts : List Tree) (place : Place) (found : Findings),
    place.typeLevel = place.ancestors.any (·.kind.isTypeContext) →
    mentionsAt (walkAll lookup place ts found).candidates = mentionsAt found.candidates ++
      (occurrencesOf place.ancestors ts).filterMap fun (u, around) => mention? lookup u around
  | [], place, found, _ => by simp [walkAll, occurrencesOf]
  | t :: ts, place, found, hplace => by
    rw [walkAll, walkAll_mentions ts place _ hplace, walk_mentions t place found hplace, occurrencesOf,
      List.filterMap_append, List.append_assoc]

end

theorem walkProgram_mentions {program : Tree} (hroot : program.kind = .program) :
    mentionsAt (walkProgram lookup program).candidates = program.mentions lookup := by
  rw [Tree.mentions, walkProgram, walkAll_mentions lookup _ _ _ (by simp [hroot, Kind.isTypeContext])]
  obtain ⟨kind, span, children⟩ := program
  simp only [Tree.kind] at hroot
  subst hroot
  rw [Tree.occurrences, List.filterMap_cons_none rfl]
  rfl

end

theorem readProgram_kind {reading : Reading} {dialect : Dialect} {text : List Char} {program : Tree}
    {last : ReadState}
    (h : readProgram reading dialect text = some (program, last)) : program.kind = .program := by
  unfold readProgram at h
  obtain ⟨⟨statements, state⟩, -, h⟩ := Option.bind_eq_some_iff.mp h
  simp only at h
  split at h
  · cases h
  · cases h
    rfl

theorem parse_kind {dialect : Dialect} {text : List Char} {program : Tree}
    (h : parse dialect text = some program) :
    program.kind = .program := by
  have hsound : ∀ {first last : _}, (if isSound dialect first last = true then some first else none) =
    some program →
      first.kind = .program → program.kind = .program := by
    intro first last h hkind
    split at h
    · cases h
      exact hkind
    · cases h
  unfold parse at h
  obtain ⟨⟨first, state⟩, hfirst, h⟩ := Option.bind_eq_some_iff.mp h
  simp only at h
  split at h
  · obtain ⟨⟨second, last⟩, hsecond, h⟩ := Option.bind_eq_some_iff.mp h
    exact hsound h (readProgram_kind hsecond)
  · obtain ⟨⟨second, last⟩, hsecond, h⟩ := Option.bind_eq_some_iff.mp h
    cases hsecond
    exact hsound h (readProgram_kind hfirst)

/-! ## The names that are recorded -/

theorem isUsage_eq_isFree (lookup : String → Option Macro) {program : Tree}
    (hroot : program.kind = .program) {s : Site}
    (hs : s ∈ (walkProgram lookup program).candidates) (hposition : s.position = .reference) :
    Collected.isUsage (walkProgram lookup program).scopes s = s.mention.isFree := by
  obtain ⟨hdesc, hsize, hown, hsites⟩ := walkProgram_scopes lookup hroot
  obtain ⟨inner, hanc, hlinked⟩ := hsites s hs
  have hresolve := hlinked.resolve_iff hdesc hsize s.name
  rw [hown] at hresolve
  rw [Bool.eq_iff_iff]
  simp only [Collected.isUsage, hposition, reduceCtorEq, decide_false, Bool.false_or, decide_eq_true_eq, hresolve]
  simp [Mention.isFree, Site.mention, hanc]

/-- The names that are recorded are those that are spelled like a macro, are used as a value, and are
declared by no scope around them but the program; each is recorded once, in source order. A class is not
a scope that holds its own name, so a class expression declares its name around itself. -/
theorem references_recorded_iff {options : Options} {text : List Char} {program : Tree} {collected : Collected}
    (hparse : parse options.dialect text = some program) (hcollect : collect? options program = some collected) :
    mentionsAt collected.usages.pending =
      (program.mentions (MacroImport.lookup (MacroImport.all options program))).filter Mention.isFree := by
  have hroot := parse_kind hparse
  unfold collect? at hcollect
  simp only [Option.ite_none_left_eq_some, Option.some.injEq] at hcollect
  obtain ⟨-, rfl⟩ := hcollect
  simp only [pending_foldl_push, Usages.empty, List.nil_append]
  rw [← walkProgram_mentions _ hroot, mentionsAt, mentionsAt, List.filter_map, List.filter_filter,
    List.filter_filter]
  refine congrArg _ (List.filter_congr ?_)
  intro s hs
  by_cases hposition : s.position = .reference
  · simp [hposition, isUsage_eq_isFree _ hroot hs hposition]
  · simp [hposition]

def classSample : List Char :=
  ("import \x7b component \x7d from 'm.macro';\n" ++
    "const make = () => \x7b const K = class component \x7b\x7d; return component(\x7b a: 1 \x7d); \x7d;").toList

theorem references_recorded_iff_class :
    ∃ program collected, parse (Options.dialect {}) classSample = some program ∧
    collect? {} program = some collected ∧
    (program.mentions (MacroImport.lookup (MacroImport.all {} program))).map (·.name) = ["component"] ∧
    mentionsAt collected.usages.pending = [] := by
  have hsample : (parse (Options.dialect {}) classSample).any (fun program => (collect? {} program).isSome &&
      decide ((program.mentions (MacroImport.lookup (MacroImport.all {} program))).map (·.name) = ["component"]) &&
      ((program.mentions (MacroImport.lookup (MacroImport.all {} program))).filter Mention.isFree).isEmpty) =
        true := by
    decide +kernel
  simp only [Option.any_eq_true, Bool.and_eq_true, decide_eq_true_eq, List.isEmpty_iff] at hsample
  obtain ⟨program, hparse, ⟨hsome, hnames⟩, hfree⟩ := hsample
  obtain ⟨collected, hcollect⟩ := Option.isSome_iff_exists.mp hsome
  exact ⟨program, collected, hparse, hcollect, hnames, (references_recorded_iff hparse hcollect).trans hfree⟩

end ComponentMacros
