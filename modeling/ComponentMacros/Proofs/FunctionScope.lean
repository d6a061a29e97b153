import Mathlib.Data.List.Forall2
import ComponentMacros.Proofs.Position
import ComponentMacros.Proofs.Scoping

/-!
# The scopes of functions

The walk over a program files the scope of every function under the span of the
function. The scope is the one that `var` declarations in the function land in,
and it is linked to the nodes around the function as the scope of a site is.
-/

namespace ComponentMacros

/-! ## Occurrences -/

mutual

theorem occurrences_nodes : ∀ (t : Tree) (around : List Tree), (t.occurrences around).map Prod.fst = t.nodes
  | .node kind span children, around => by
    rw [Tree.occurrences, List.map_cons, Tree.nodes, occurrencesOf_nodes children]

theorem occurrencesOf_nodes :
    ∀ (ts : List Tree) (around : List Tree), (occurrencesOf around ts).map Prod.fst = nodesOf ts
  | [], _ => by rw [occurrencesOf, nodesOf, List.map_nil]
  | t :: ts, around => by
    rw [occurrencesOf, List.map_append, occurrences_nodes t, occurrencesOf_nodes ts, nodesOf]

end

theorem occurrences_self (t : Tree) (around : List Tree) : (t, around) ∈ t.occurrences around := by
  cases t with
  | node kind span children =>
    rw [Tree.occurrences]
    exact List.mem_cons_self ..

mutual

theorem occurrences_part {t u : Tree} {rest : List Tree} (ht : t ∈ u.children) : ∀ (v : Tree) (around : List Tree),
    (u, rest) ∈ v.occurrences around → (t, u :: rest) ∈ v.occurrences around
  | .node kind span children, around, h => by
    rw [Tree.occurrences, List.mem_cons] at h ⊢
    refine Or.inr ?_
    rcases h with h | h
    · cases h
      exact occurrencesOf_mem ht _
    · exact occurrencesOf_part ht children _ h

theorem occurrencesOf_part {t u : Tree} {rest : List Tree} (ht : t ∈ u.children) : ∀ (vs : List Tree)
    (around : List Tree), (u, rest) ∈ occurrencesOf around vs → (t, u :: rest) ∈ occurrencesOf around vs
  | [], _, h => by rw [occurrencesOf] at h; cases h
  | v :: vs, around, h => by
    rw [occurrencesOf, List.mem_append] at h ⊢
    exact h.imp (occurrences_part ht v around) (occurrencesOf_part ht vs around)

theorem occurrencesOf_mem {t : Tree} {ts : List Tree} (ht : t ∈ ts) (around : List Tree) :
    (t, around) ∈ occurrencesOf around ts := by
  induction ts with
  | nil => cases ht
  | cons u ts ih =>
    rw [occurrencesOf, List.mem_append]
    rcases List.mem_cons.mp ht with rfl | ht
    · exact Or.inl (occurrences_self t around)
    · exact Or.inr (ih ht)

end

theorem PathTo.occurrence {program : Tree} {path : List Tree} (h : PathTo program path) :
    ∀ {t : Tree} {around : List Tree}, path = t :: around → (t, around) ∈ program.occurrences [] := by
  induction h with
  | root =>
    intro t around hpath
    cases hpath
    exact occurrences_self program []
  | @part c u rest hc _ ih =>
    intro t around hpath
    cases hpath
    exact occurrences_part hc program [] (ih rfl)

/-! ## The table -/

/-- The entry is that of a function, where the walk came to it from `place`: it names the scope of the
function, in which `var` declarations land. -/
structure Files (place : Place) (low : Nat) (scopes : ScopeTree) (occurrence : Tree × List Tree)
    (entry : Span × ScopeId) : Prop where
  span : entry.1 = occurrence.1.span
  hoisting : scopes.isHoisting entry.2 = true
  linked : ∃ inner, occurrence.2 = inner ++ place.ancestors ∧
    Linked scopes low place.scope entry.2 (occurrence.1 :: inner)

def Filed (place : Place) (occurrences : List (Tree × List Tree)) (found found' : Findings) : Prop :=
  ∃ filed, found'.functions = found.functions ++ filed ∧
    List.Forall₂ (Files place found.scopes.size found'.scopes) (occurrences.filter (·.1.isFunction)) filed

section
variable {place : Place} {found : Findings} {t : Tree}

theorem meet_functions (lookup : String → Option Macro) :
    (meet lookup place t found).functions = found.functions := by
  unfold meet
  split
  · rfl
  · split <;> rfl
  · split <;> rfl
  · split
    · split
      · split <;> rfl
      · rfl
    · rfl
  · rfl

theorem openScope_functions : (found.openScope place t).functions = found.functions ++
    if t.isFunction then [(t.span, found.scopes.size)] else [] := by
  unfold Findings.openScope Tree.isFunction
  cases t.kind <;> simp [Kind.scope?]

theorem isFunction_scope? (h : t.isFunction = true) : t.kind.scope? = some true := by
  unfold Tree.isFunction at h
  split at h
  · rename_i hkind
    rw [hkind, Kind.scope?]
  · rename_i hkind
    rw [hkind, Kind.scope?]
  · cases h

theorem Files.mono {b c : Findings} {s₁ p₁ v₁ s₂ p₂ v₂ : List String} {occurrence : Tree × List Tree}
    {entry : Span × ScopeId} (hvalid : place.Valid found.scopes) (hab : Walked place s₁ p₁ v₁ found b)
    (hbc : Walked place s₂ p₂ v₂ b c) (h : Files place found.scopes.size b.scopes occurrence entry) :
    Files place found.scopes.size c.scopes occurrence entry := by
  obtain ⟨inner, haround, hlinked⟩ := h.linked
  refine ⟨h.span, ?_, inner, haround, hab.keeps hvalid hbc hlinked⟩
  rw [hbc.grown.hoisting entry.2 ?_]
  · exact h.hoisting
  · -- an entry that names no scope would name no hoisting one
    by_contra hnone
    have hget : b.scopes.get? entry.2 = none := Array.getElem?_eq_none (Nat.le_of_not_lt hnone)
    have := h.hoisting
    rw [ScopeTree.isHoisting, hget] at this
    cases this

theorem Filed.trans {b c : Findings} {s₁ p₁ v₁ s₂ p₂ v₂ : List String} {first second : List (Tree × List Tree)}
    (hvalid : place.Valid found.scopes) (hab : Walked place s₁ p₁ v₁ found b) (hbc : Walked place s₂ p₂ v₂ b c)
    (h₁ : Filed place first found b) (h₂ : Filed place second b c) : Filed place (first ++ second) found c := by
  obtain ⟨filed₁, heq₁, hfiled₁⟩ := h₁
  obtain ⟨filed₂, heq₂, hfiled₂⟩ := h₂
  refine ⟨filed₁ ++ filed₂, by rw [heq₂, heq₁, List.append_assoc], ?_⟩
  rw [List.filter_append]
  refine List.rel_append (hfiled₁.imp fun _ _ h => h.mono hvalid hab hbc) (hfiled₂.imp fun _ _ h => ?_)
  obtain ⟨inner, haround, hlinked⟩ := h.linked
  exact ⟨h.span, h.hoisting, inner, haround, hlinked.lower hab.grown.size⟩

theorem enter_filed {found' : Findings} (hvalid : place.Valid found.scopes)
    (hwalked : Walked (place.inside t found.scopes) (scopedNamesOf t.children) (patternNamesOf t.children)
      (varNamesOf t.children) (found.openScope place t) found') {parts : List (Tree × List Tree)}
    (h : Filed (place.inside t found.scopes) parts (found.openScope place t) found') :
    Filed place ((t, place.ancestors) :: parts) found found' := by
  obtain ⟨filed, heq, hfiled⟩ := h
  have hparts : List.Forall₂ (Files place found.scopes.size found'.scopes)
      (parts.filter (·.1.isFunction)) filed := by
    refine hfiled.imp fun occurrence entry h => ?_
    obtain ⟨inner, haround, hlinked⟩ := h.linked
    refine ⟨h.span, h.hoisting, inner ++ [t], ?_, entered_linked hvalid hwalked hlinked⟩
    rw [haround, inside_ancestors, List.append_assoc]
    rfl
  rw [openScope_functions, List.append_assoc] at heq
  refine ⟨_, heq, ?_⟩
  cases hfunction : t.isFunction with
  | false =>
    rw [List.filter_cons_of_neg (by simp [hfunction])]
    exact hparts
  | true =>
    have hscope := isFunction_scope? hfunction
    have hsize := @size_lt_openScope place found t true hscope
    rw [List.filter_cons_of_pos (by simp [hfunction])]
    refine .cons ⟨rfl, ?_, [], rfl, ?_⟩ hparts
    · rw [hwalked.grown.hoisting _ hsize, openScope_scopes hscope, ScopeTree.isHoisting, ScopeTree.get?_addScope]
      simp
    · have hlinked := entered_linked hvalid hwalked (@Linked.base found'.scopes _ _)
      rw [inside_scope_some hscope] at hlinked
      exact hlinked

end

section
variable (lookup : String → Option Macro)

mutual

theorem walk_filed : ∀ (t : Tree) (place : Place) (found : Findings), place.Valid found.scopes →
    Filed place (t.occurrences place.ancestors) found (walk lookup place t found)
  | .node kind span children, place, found, hvalid => by
    have hmeet := meet_walked lookup hvalid (.node kind span children)
    have hmet := hvalid.grow hmeet.grown hmeet.descending
    have hinside := @inside_valid place _ (.node kind span children) hmet
    have hwalked := walkAll_walked lookup children _ _ hinside
    obtain ⟨filed, heq, hfiled⟩ := enter_filed hmet hwalked (walkAll_filed children _ _ hinside)
    rw [walk, Tree.occurrences]
    refine ⟨filed, by rw [heq, meet_functions], hfiled.imp fun _ _ h => ?_⟩
    obtain ⟨inner, haround, hlinked⟩ := h.linked
    exact ⟨h.span, h.hoisting, inner, haround, hlinked.lower hmeet.grown.size⟩

theorem walkAll_filed : ∀ (ts : List Tree) (place : Place) (found : Findings), place.Valid found.scopes →
    Filed place (occurrencesOf place.ancestors ts) found (walkAll lookup place ts found)
  | [], place, found, _ => by
    rw [walkAll, occurrencesOf]
    exact ⟨[], (List.append_nil _).symm, .nil⟩
  | t :: ts, place, found, hvalid => by
    have hfirst := walk_walked lookup t place found hvalid
    have hgrown := hvalid.grow hfirst.grown hfirst.descending
    rw [walkAll, occurrencesOf]
    exact .trans hvalid hfirst (walkAll_walked lookup ts place _ hgrown) (walk_filed t place found hvalid)
      (walkAll_filed ts place _ hgrown)

end

end

/-! ## Looking a function up -/

/-- No two functions are written in one place. -/
def FunctionsApart (program : Tree) : Prop :=
  ((program.nodes.filter (·.isFunction)).map (·.span)).Nodup

instance (program : Tree) : Decidable (FunctionsApart program) :=
  inferInstanceAs (Decidable (List.Nodup _))

theorem Files.find? {place : Place} {low : Nat} {scopes : ScopeTree} {occurrences : List (Tree × List Tree)}
    {filed : List (Span × ScopeId)} (h : List.Forall₂ (Files place low scopes) occurrences filed)
    (hapart : (occurrences.map (·.1.span)).Nodup) {occurrence : Tree × List Tree}
    (hmem : occurrence ∈ occurrences) :
    ∃ entry, filed.find? (·.1 = occurrence.1.span) = some entry ∧ Files place low scopes occurrence entry := by
  induction h with
  | nil => cases hmem
  | @cons first entry rest filed hfirst _ ih =>
    rw [List.map_cons, List.nodup_cons] at hapart
    rcases List.mem_cons.mp hmem with rfl | hmem
    · exact ⟨entry, List.find?_cons_of_pos (by simp [hfirst.span]), hfirst⟩
    · have hne : first.1.span ≠ occurrence.1.span := by
        intro heq
        exact hapart.1 (List.mem_map.mpr ⟨occurrence, hmem, heq.symm⟩)
      rw [List.find?_cons_of_neg (by simp [hfirst.span, hne])]
      exact ih hapart.2 hmem

theorem FunctionsApart.occurrences {program : Tree} (h : FunctionsApart program) (around : List Tree) :
    (((program.occurrences around).filter (·.1.isFunction)).map (·.1.span)).Nodup := by
  unfold FunctionsApart at h
  rw [← occurrences_nodes program around, List.filter_map, List.map_map] at h
  exact h

/-- Looking up the span of a function finds the scope of the function: one where `var` declarations
land, linked to the nodes around the function. -/
theorem functionScope?_eq_some {options : Options} {program : Tree} {collected : Collected}
    (hroot : program.kind = .program) (hapart : FunctionsApart program)
    (hcollect : collect? options program = some collected) {t : Tree} {around : List Tree}
    (hpath : PathTo program (t :: around)) (hfunction : t.isFunction = true) :
    ∃ id inner, collected.functionScope? t.span = some id ∧ collected.scopes.isHoisting id = true ∧
      around = inner ++ [program] ∧ Linked collected.scopes 1 0 id (t :: inner) := by
  unfold collect? at hcollect
  simp only [Option.ite_none_left_eq_some, Option.some.injEq] at hcollect
  obtain ⟨-, rfl⟩ := hcollect
  have hvalid : Place.Valid { scope := ScopeTree.root, ancestors := [program] }
      (ScopeTree.empty.addScope none true) :=
    ⟨ScopeTree.descending_root true, Nat.zero_lt_one, by simp⟩
  obtain ⟨filed, heq, hfiled⟩ :=
    walkAll_filed (MacroImport.lookup (MacroImport.all options program)) program.children
    { scope := ScopeTree.root, ancestors := [program] }
    { scopes := ScopeTree.empty.addScope none true, functions := [], candidates := [] } hvalid
  -- the program is no function, so the functions are those of its parts
  have hparts : (occurrencesOf [program] program.children).filter (·.1.isFunction) =
      (program.occurrences []).filter (·.1.isFunction) := by
    obtain ⟨kind, span, children⟩ := program
    simp only [Tree.kind] at hroot
    subst hroot
    rw [Tree.occurrences, List.filter_cons_of_neg (by simp [Tree.isFunction, Tree.kind])]
    rfl
  simp only at hfiled
  rw [hparts] at hfiled
  obtain ⟨entry, hfind, hfiles⟩ := Files.find? hfiled (hapart.occurrences [])
    (List.mem_filter.mpr ⟨hpath.occurrence rfl, hfunction⟩)
  obtain ⟨inner, haround, hlinked⟩ := hfiles.linked
  refine ⟨entry.2, inner, ?_, hfiles.hoisting, haround, hlinked⟩
  rw [Collected.functionScope?, walkProgram, heq, List.nil_append, hfind]
  rfl

/-! ## Names bound around a function -/

theorem PathTo.of_mem {program t : Tree} (h : t ∈ program.nodes) : ∃ around, PathTo program (t :: around) := by
  have below : ∀ u : Tree, ∀ around, PathTo program (u :: around) → t ∈ u.nodes →
      ∃ around, PathTo program (t :: around) := by
    intro u
    induction u using Tree.induction with
    | step u ih =>
      intro around hu ht
      rcases Tree.mem_nodes.mp ht with rfl | ⟨c, hc, htc⟩
      · exact ⟨around, hu⟩
      · exact ih c hc (u :: around) (.part hc hu) htc
  exact below program [] .root h

/-- A name is bound as seen from a scope exactly if some node on the way to the root declares it, or the
root binds it. -/
theorem Linked.hasBinding_iff {tree : ScopeTree} (hdesc : tree.Descending) (hroot : 0 < tree.size) {low id : Nat}
    {inner : List Tree} (h : Linked tree low 0 id inner) (name : String) : tree.hasBinding id name = true ↔
      (∃ t ∈ inner, t.declares name = true) ∨ tree.hasOwnBinding ScopeTree.root name = true := by
  unfold ScopeTree.hasBinding
  induction h with
  | base =>
    have hnone : tree.parent 0 = none := by
      cases hup : tree.parent 0 with
      | none => rfl
      | some up => exact absurd (hdesc 0 up hup) (Nat.not_lt_zero _)
    rw [ScopeTree.resolve_eq hdesc hroot, hnone]
    cases hown : tree.hasOwnBinding 0 name <;> simp [ScopeTree.root, hown]
  | @plain t id rest hplain _ ih =>
    have hnot : t.declares name = false := by simp [Tree.declares, hplain]
    simp [ih, hnot]
  | @scope t id up rest _ hid hown hup _ ih =>
    rw [ScopeTree.resolve_eq hdesc hid, hown, hup]
    cases hdeclares : t.declares name <;> simp [hdeclares, ih]

section
variable {options : Options} {program : Tree} {collected : Collected}

theorem collect?_scopes (hroot : program.kind = .program) (h : collect? options program = some collected) :
    collected.scopes.Descending ∧ 0 < collected.scopes.size ∧
      ∀ name, collected.scopes.hasOwnBinding ScopeTree.root name = program.declares name := by
  unfold collect? at h
  simp only [Option.ite_none_left_eq_some, Option.some.injEq] at h
  obtain ⟨-, rfl⟩ := h
  obtain ⟨hdesc, hsize, hown, -⟩ := walkProgram_scopes (MacroImport.lookup (MacroImport.all options program)) hroot
  exact ⟨hdesc, hsize, hown⟩

/-- The factory's name is taken exactly if the function or a node around it declares it. -/
theorem isFactoryTaken_iff (hroot : program.kind = .program) (hapart : FunctionsApart program)
    (hcollect : collect? options program = some collected) {source : List Char} {function : Tree}
    {around : List Tree} (hpath : PathTo program (function :: around)) (hfunction : function.isFunction = true) :
    Setting.isFactoryTaken ⟨options, source, collected⟩ function.span = true ↔
      ∃ v ∈ function :: around, v.declares factoryName = true := by
  obtain ⟨hdesc, hsize, hown⟩ := collect?_scopes hroot hcollect
  obtain ⟨id, inner, hscope, -, rfl, hlinked⟩ := functionScope?_eq_some hroot hapart hcollect hpath hfunction
  simp only [Setting.isFactoryTaken, hscope, Option.any_some]
  rw [hlinked.hasBinding_iff hdesc hsize, hown, ← List.cons_append]
  simp only [List.mem_append, List.mem_singleton, or_and_right, exists_or, exists_eq_left]

end

theorem parameterList?_isFunction {t list : Tree} (h : t.parameterList? = some list) : t.isFunction = true := by
  rw [Tree.parameterList?_eq] at h
  split at h
  · assumption
  · cases h

end ComponentMacros
