import ComponentMacros.Proofs.SitePath

/-!
# Sites in the order of the text

The walk meets the nodes of a program from left to right, so it notes sites one
after the other. No two of them share a span.
-/

namespace ComponentMacros

/-- The sites stand between `lo` and `hi`, one after the other. -/
def SitesBetween (lo hi : Nat) (sites : List Site) : Prop :=
  sites.Pairwise (fun a b => a.span.stop ≤ b.span.start) ∧
    ∀ s ∈ sites, lo ≤ s.span.start ∧ s.span.start < s.span.stop ∧ s.span.stop ≤ hi

namespace SitesBetween

variable {lo mid hi : Nat} {first second : List Site}

theorem nil (lo hi : Nat) : SitesBetween lo hi [] := ⟨.nil, by simp⟩

theorem single {s : Site} (hlo : lo ≤ s.span.start) (hpos : s.span.start < s.span.stop) (hhi : s.span.stop ≤ hi) :
    SitesBetween lo hi [s] := by
  refine ⟨List.pairwise_singleton .., ?_⟩
  intro t ht
  rw [List.mem_singleton.mp ht]
  exact ⟨hlo, hpos, hhi⟩

theorem append (ha : SitesBetween lo mid first) (hb : SitesBetween mid hi second) (hlo : lo ≤ mid)
    (hhi : mid ≤ hi) :
    SitesBetween lo hi (first ++ second) := by
  constructor
  · refine List.pairwise_append.mpr ⟨ha.1, hb.1, ?_⟩
    intro a hmem b hmem'
    exact Nat.le_trans (ha.2 a hmem).2.2 (hb.2 b hmem').1
  · intro s hs
    rcases List.mem_append.mp hs with hs | hs
    · have := ha.2 s hs
      omega
    · have := hb.2 s hs
      omega

theorem mono {lo' hi' : Nat} (h : SitesBetween lo hi first) (hlo : lo' ≤ lo) (hhi : hi ≤ hi') :
    SitesBetween lo' hi' first := by
  refine ⟨h.1, fun s hs => ?_⟩
  have := h.2 s hs
  omega

theorem nodup_spans (h : SitesBetween lo hi first) : (first.map Site.span).Nodup := by
  rw [List.Nodup, List.pairwise_map]
  refine h.1.imp_of_mem fun {a b} ha _ hab heq => ?_
  have := h.2 a ha
  rw [← heq] at hab
  omega

end SitesBetween

section
variable {lookup : String → Option Macro} {source : List Char} {program : Tree}

theorem walk_eq (place : Place) (t : Tree) (found : Findings) : walk lookup place t found =
    walkAll lookup (place.inside t (meet lookup place t found).scopes) t.children
      ((meet lookup place t found).openScope place t) := by
  cases t with
  | node kind span children => rw [walk]; rfl

theorem meet_candidates (place : Place) (t : Tree) (found : Findings) :
    (meet lookup place t found).candidates = found.candidates ∨
    (∃ site : Site, t.isName = true ∧ site.span = t.span ∧
      (meet lookup place t found).candidates = found.candidates ++ [site]) ∨
    ∃ (site : Site) (key : Tree), t.isPair = true ∧ t.children.head? = some key ∧ (∃ name, key.kind = .name name) ∧
      site.span = key.span ∧ (meet lookup place t found).candidates = found.candidates ++ [site] := by
  unfold meet
  cases hk : t.kind with
  | identifier name =>
    dsimp only
    cases place.typeLevel with
    | true => exact Or.inl rfl
    | false =>
      cases lookup name with
      | none => exact Or.inl rfl
      | some kind => exact Or.inr (Or.inl ⟨_, by unfold Tree.isName; rw [hk], rfl, rfl⟩)
  | function role a g =>
    cases role with
    | declaration => dsimp only; cases t.boundName? <;> exact Or.inl rfl
    | expression | signature => exact Or.inl rfl
  | property access computed shorthand isMethod =>
    cases computed with
    | true => exact Or.inl rfl
    | false =>
      cases shorthand with
      | true => exact Or.inl rfl
      | false =>
        dsimp only
        split
        · rename_i name span parts hkey
          split
          · split
            · unfold Tree.key? at hkey
              split at hkey
              · exact Or.inr (Or.inr ⟨_, _, by unfold Tree.isPair; rw [hk]; rfl, hkey, ⟨name, rfl⟩, rfl, rfl⟩)
              · cases hkey
            · exact Or.inl rfl
          · exact Or.inl rfl
        · exact Or.inl rfl
  | _ => exact Or.inl rfl

theorem walkAll_between {ts : List Tree} {lo hi : Nat} (hts : Ordered lo hi ts)
    (hwalk : ∀ t ∈ ts, ∀ (place : Place) (found : Findings), ∃ new,
      (walk lookup place t found).candidates = found.candidates ++ new ∧ SitesBetween t.span.start t.span.stop new)
    (place : Place) (found : Findings) : ∃ new,
      (walkAll lookup place ts found).candidates = found.candidates ++ new ∧ SitesBetween lo hi new := by
  induction ts generalizing lo found with
  | nil => exact ⟨[], by simp [walkAll], .nil lo hi⟩
  | cons t ts ih =>
    obtain ⟨hstart, horder, hrest⟩ := hts
    obtain ⟨first, hfirst, hb⟩ := hwalk t (List.mem_cons_self ..) place found
    obtain ⟨rest, hlater, hb'⟩ :=
      ih hrest (fun u hu => hwalk u (List.mem_cons_of_mem _ hu)) (walk lookup place t found)
    refine ⟨first ++ rest, ?_, (hb.mono hstart (Nat.le_refl _)).append hb' (by omega) hrest.le⟩
    rw [walkAll, hlater, hfirst, List.append_assoc]

theorem walk_between (hl : Layout source program) (hshape : Shape program) {t : Tree} (ht : t ∈ program.nodes) :
    ∀ (place : Place) (found : Findings), ∃ new, (walk lookup place t found).candidates = found.candidates ++ new ∧
      SitesBetween t.span.start t.span.stop new := by
  induction t using Tree.induction with
  | step t ih =>
    intro place found
    have hparts : ∀ c ∈ t.children, ∀ (place : Place) (found : Findings), ∃ new,
        (walk lookup place c found).candidates = found.candidates ++ new ∧
          SitesBetween c.span.start c.span.stop new :=
      fun c hc => ih c hc (Tree.nodes_trans ht (Tree.child_mem_nodes hc))
    rw [walk_eq]
    rcases meet_candidates place t found with hmeet | ⟨site, hname, hspan, hmeet⟩ |
      ⟨site, key, hpair, hkey, ⟨name, hname⟩, hspan, hmeet⟩
    · obtain ⟨new, hnew, hb⟩ := walkAll_between (hl.parts ht) hparts
        (place.inside t (meet lookup place t found).scopes) ((meet lookup place t found).openScope place t)
      exact ⟨new, by rw [hnew, Findings.openScope_candidates, hmeet], hb⟩
    · obtain ⟨hleaf, hpos⟩ := hshape.name ht hname
      refine ⟨[site], ?_, .single (by simp [hspan]) (by rw [hspan]; exact hpos) (by simp [hspan])⟩
      rw [hleaf, walkAll, Findings.openScope_candidates, hmeet]
    · -- the key is a leaf, so its site stands before all that is found in the value
      obtain ⟨key', value, hcs⟩ := hshape.pair ht hpair
      obtain rfl : key' = key := by rw [hcs] at hkey; exact Option.some.inj hkey
      have hkeyp := Tree.nodes_trans ht (Tree.child_mem_nodes (t := t) (c := key') (by rw [hcs]; simp))
      obtain ⟨hleaf, hpos⟩ := hshape.name hkeyp (by unfold Tree.isName; rw [hname])
      obtain ⟨hlow, -, hrest⟩ : Ordered t.span.start t.span.stop (key' :: [value]) := by
        rw [← hcs]; exact hl.parts ht
      obtain ⟨new, hnew, hb⟩ :=
        walkAll_between hrest (fun c hc => hparts c (by rw [hcs]; exact List.mem_cons_of_mem _ hc))
        (place.inside t (meet lookup place t found).scopes)
        (walk lookup (place.inside t (meet lookup place t found).scopes)
          key' ((meet lookup place t found).openScope place t))
      have hquiet : (walk lookup (place.inside t (meet lookup place t found).scopes) key'
          ((meet lookup place t found).openScope place t)).candidates = found.candidates ++ [site] := by
        rw [walk_eq, hleaf, walkAll, Findings.openScope_candidates, meet, hname,
          Findings.openScope_candidates, hmeet]
      have hsite : SitesBetween t.span.start key'.span.stop [site] :=
        .single (by rw [hspan]; exact hlow) (by rw [hspan]; exact hpos) (by simp [hspan])
      refine ⟨site :: new, ?_, hsite.append hb (by omega) hrest.le⟩
      rw [hcs, walkAll, hnew, hquiet, List.append_assoc, List.singleton_append]

theorem collect?_between {options : Options} {collected : Collected} (hl : Layout source program)
    (hshape : Shape program) (h : collect? options program = some collected) :
    SitesBetween program.span.start program.span.stop collected.usages.pending := by
  unfold collect? at h
  simp only [Option.ite_none_left_eq_some, Option.some.injEq] at h
  obtain ⟨-, rfl⟩ := h
  simp only [pending_foldl_push, Usages.empty, List.nil_append]
  have hroot := Tree.mem_nodes_self program
  obtain ⟨new, hnew, hb⟩ :=
    @walkAll_between (MacroImport.lookup (MacroImport.all options program)) _ _ _ (hl.parts hroot)
    (fun c hc => walk_between hl hshape (Tree.nodes_trans hroot (Tree.child_mem_nodes hc)))
    { scope := ScopeTree.root, ancestors := [program] }
    { scopes := ScopeTree.empty.addScope none true, functions := [], candidates := [] }
  rw [List.nil_append] at hnew
  unfold walkProgram
  rw [hnew]
  exact ⟨hb.1.filter _, fun s hs => hb.2 s (List.mem_filter.mp hs).1⟩

end

end ComponentMacros
