import ComponentMacros.Proofs.Layout

/-!
# The paths of sites

The walk over a program notes a site together with the nodes around it. These
nodes are the path from the site's own node up to the program, so whatever a
rule finds among them is a node of the program.
-/

namespace ComponentMacros

/-- Nodes from a node of `program` up to `program` itself, each a part of the next. -/
inductive PathTo (program : Tree) : List Tree → Prop where
  | root : PathTo program [program]
  | part {t u : Tree} {rest : List Tree} (ht : t ∈ u.children) (h : PathTo program (u :: rest)) :
    PathTo program (t :: u :: rest)

namespace PathTo

variable {program : Tree}

theorem mem_nodes {path : List Tree} (h : PathTo program path) : ∀ t ∈ path, t ∈ program.nodes := by
  induction h with
  | root => intro t ht; rw [List.mem_singleton.mp ht]; exact Tree.mem_nodes_self program
  | part ht _ ih =>
    intro t h
    rcases List.mem_cons.mp h with rfl | h
    · exact Tree.nodes_trans (ih _ (List.mem_cons_self ..)) (Tree.child_mem_nodes ht)
    · exact ih t h

theorem head_mem_nodes {t : Tree} {rest : List Tree} (h : PathTo program (t :: rest)) : t ∈ program.nodes :=
  h.mem_nodes t (List.mem_cons_self ..)

theorem mem_of_mem {n : Tree} {rest : List Tree} (h : PathTo program (n :: rest)) :
    ∀ t ∈ n :: rest, n ∈ t.nodes := by
  generalize hp : n :: rest = path at h
  induction h generalizing n rest with
  | root => cases hp; intro t ht; rw [List.mem_singleton.mp ht]; exact Tree.mem_nodes_self program
  | @part t u rest' ht h ih =>
    cases hp
    intro m hm
    rcases List.mem_cons.mp hm with rfl | hm
    · exact Tree.mem_nodes_self _
    · exact Tree.nodes_trans (ih rfl m hm) (Tree.child_mem_nodes ht)

theorem tail {t u : Tree} {rest : List Tree} (h : PathTo program (t :: u :: rest)) :
    PathTo program (u :: rest) := by
  cases h with
  | part _ h => exact h

theorem drop : ∀ {before : List Tree} {t : Tree} {rest : List Tree}, PathTo program (before ++ t :: rest) →
    PathTo program (t :: rest)
  | [], _, _, h => h
  | [_], _, _, h => h.tail
  | _ :: u :: before, _, _, h => @drop (u :: before) _ _ h.tail

theorem mem_of_below {source : List Char} (hl : Layout source program) {n : Tree} {rest : List Tree}
    (h : PathTo program (n :: rest)) (hpos : n.span.start < n.span.stop) {a : Tree} (ha : a ∈ program.nodes)
    (hn : n ∈ a.nodes) : a ∈ n :: rest := by
  generalize hp : n :: rest = path at h
  induction h generalizing n rest with
  | root =>
    cases hp
    rw [Tree.eq_of_mem_of_mem ha hn]
    exact List.mem_singleton_self _
  | @part t u rest' ht h ih =>
    cases hp
    rcases Tree.eq_or_child_of_mem hn with rfl | ⟨w, hw, hnw⟩
    · exact List.mem_cons_self ..
    · have hu := h.head_mem_nodes
      obtain rfl := hl.parent_unique (Tree.nodes_trans ha hw) hu hnw ht hpos
      have hin := (hl.parts hu).bounds _ ht
      exact List.mem_cons_of_mem _ (ih (by omega) hw rfl)

end PathTo

/-- The site stands in the program: it has a node there, with the site's name and span, and the
nodes around the site are the path to it. -/
def Site.In (program : Tree) (site : Site) : Prop :=
  ∃ n : Tree, (n.kind = .identifier site.name ∨ n.kind = .name site.name) ∧ n.span = site.span ∧
    PathTo program (n :: site.ancestors)

/-! ## The walk -/

section
variable (lookup : String → Option Macro) (program : Tree)

@[simp] theorem Findings.openScope_candidates (found : Findings) (place : Place) (t : Tree) :
    (found.openScope place t).candidates = found.candidates := by
  unfold openScope; split <;> rfl

theorem meet_sites {place : Place} {t : Tree} (hpath : PathTo program (t :: place.ancestors)) {found : Findings}
    (hfound : ∀ s ∈ found.candidates, s.In program) :
    ∀ s ∈ (meet lookup place t found).candidates, s.In program := by
  intro s hs
  unfold meet at hs
  split at hs
  · exact hfound s hs
  · rename_i name hkind
    split at hs
    · rcases List.mem_append.mp hs with hs | hs
      · exact hfound s hs
      · rw [List.mem_singleton.mp hs]
        exact ⟨t, Or.inl hkind, rfl, hpath⟩
    · exact hfound s hs
  · split at hs <;> exact hfound s hs
  · split at hs
    · rename_i name span parts hkey
      split at hs
      · split at hs
        · rcases List.mem_append.mp hs with hs | hs
          · exact hfound s hs
          · rw [List.mem_singleton.mp hs]
            refine ⟨.node (.name name) span parts, Or.inr rfl, rfl, ?_⟩
            unfold Tree.key? at hkey
            split at hkey
            · exact .part (List.mem_of_head? hkey) hpath
            · cases hkey
        · exact hfound s hs
      · exact hfound s hs
    · exact hfound s hs
  · exact hfound s hs

mutual

theorem walk_sites : ∀ (t : Tree) (place : Place) (found : Findings), PathTo program (t :: place.ancestors) →
    (∀ s ∈ found.candidates, s.In program) → ∀ s ∈ (walk lookup place t found).candidates, s.In program
  | .node kind span children, place, found, hpath, hfound => by
    rw [walk]
    apply walkAll_sites children _ _ rfl hpath fun _ h => h
    rw [Findings.openScope_candidates]
    exact meet_sites lookup program hpath hfound

theorem walkAll_sites : ∀ (ts : List Tree) (place : Place) (found : Findings) {t : Tree} {rest : List Tree},
    place.ancestors = t :: rest → PathTo program (t :: rest) → (∀ c ∈ ts, c ∈ t.children) →
    (∀ s ∈ found.candidates, s.In program) → ∀ s ∈ (walkAll lookup place ts found).candidates, s.In program
  | [], _, _, _, _, _, _, _, hfound => by rw [walkAll]; exact hfound
  | c :: cs, place, found, t, rest, hplace, hpath, hcs, hfound => by
    rw [walkAll]
    apply walkAll_sites cs place _ hplace hpath fun d hd => hcs d (List.mem_cons_of_mem _ hd)
    apply walk_sites c place found _ hfound
    rw [hplace]
    exact .part (hcs c (List.mem_cons_self ..)) hpath

end

end

theorem pending_foldl_push (sites : List Site) (usages : Usages) :
    (sites.foldl Usages.push usages).pending = usages.pending ++ sites := by
  induction sites generalizing usages with
  | nil => simp
  | cons s sites ih => simp [ih, Usages.push]

section
variable {options : Options} {program : Tree} {collected : Collected}

theorem collect?_imports (h : collect? options program = some collected) :
    collected.imports = MacroImport.all options program ∧ collected.imports ≠ [] := by
  unfold collect? at h
  simp only [Option.ite_none_left_eq_some, Option.some.injEq] at h
  obtain ⟨hne, rfl⟩ := h
  exact ⟨rfl, by simpa using hne⟩

theorem collect?_sites (h : collect? options program = some collected) :
    ∀ s ∈ collected.usages.pending, s.In program := by
  unfold collect? at h
  simp only [Option.ite_none_left_eq_some, Option.some.injEq] at h
  obtain ⟨-, rfl⟩ := h
  simp only [pending_foldl_push, Usages.empty, List.nil_append]
  intro s hs
  have hwalk := walkAll_sites (MacroImport.lookup (MacroImport.all options program)) program program.children
    { scope := ScopeTree.root, ancestors := [program] }
    { scopes := ScopeTree.empty.addScope none true, functions := [], candidates := [] }
    rfl .root (fun _ h => h) (fun _ h => nomatch h)
  exact hwalk s (List.mem_filter.mp hs).1

end

/-! ## What a site finds around it -/

namespace Site

variable {site : Site}

theorem parent?_mem {t : Tree} (h : site.parent? = some t) : t ∈ site.ancestors :=
  List.mem_of_find?_eq_some h

theorem call?_mem {call : Tree} (h : site.call? = some call) : call ∈ site.ancestors := by
  unfold call? at h
  exact parent?_mem (Option.filter_eq_some_iff.mp h).1

theorem keyProperty?_mem {property : Tree} (h : site.keyProperty? = some property) :
    property ∈ site.ancestors := by
  unfold keyProperty? at h
  exact parent?_mem (Option.filter_eq_some_iff.mp h).1

theorem call?_callee {call : Tree} (h : site.call? = some call) :
    call.isCall = true ∧ ∃ callee rest, call.children = callee :: rest ∧ callee.stripParens.span = site.span := by
  unfold call? at h
  have hc := (Option.filter_eq_some_iff.mp h).2
  rw [decide_eq_true_eq, Option.map_eq_some_iff] at hc
  obtain ⟨callee, hcallee, hspan⟩ := hc
  unfold Tree.callee? at hcallee
  split at hcallee
  · rename_i hcall
    cases hcs : call.children with
    | nil => rw [hcs] at hcallee; cases hcallee
    | cons d ds =>
      rw [hcs] at hcallee; cases hcallee
      exact ⟨hcall, _, ds, rfl, hspan⟩
  · cases hcallee

theorem keyProperty?_key {property : Tree} (h : site.keyProperty? = some property) :
    property.isProperty = true ∧ ∃ key rest, property.children = key :: rest ∧ key.span = site.span := by
  unfold keyProperty? at h
  have hk := (Option.filter_eq_some_iff.mp h).2
  rw [decide_eq_true_eq, Option.map_eq_some_iff] at hk
  obtain ⟨key, hkey, hspan⟩ := hk
  unfold Tree.key? at hkey
  split at hkey
  · rename_i hprop
    cases hcs : property.children with
    | nil => rw [hcs] at hkey; cases hkey
    | cons d ds =>
      rw [hcs] at hkey; cases hkey
      exact ⟨hprop, _, ds, rfl, hspan⟩
  · cases hkey

theorem owner?_spec {property object : Tree} (h : site.owner? property = some object) :
    object ∈ site.ancestors ∧ object.isObject = true ∧ ∃ c ∈ object.children, c.span = property.span := by
  unfold owner? at h
  have hp := List.find?_some h
  simp only [Bool.and_eq_true, List.any_eq_true, decide_eq_true_eq] at hp
  exact ⟨List.mem_of_find?_eq_some h, hp.1, hp.2⟩

theorem In.ancestor_mem {program t : Tree} (h : site.In program) (ht : t ∈ site.ancestors) :
    t ∈ program.nodes := by
  obtain ⟨n, -, -, hpath⟩ := h
  exact hpath.mem_nodes t (List.mem_cons_of_mem _ ht)

end Site

end ComponentMacros
