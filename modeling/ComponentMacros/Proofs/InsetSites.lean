import ComponentMacros.Proofs.Inset
import ComponentMacros.Proofs.SiteOrder

/-!
# Sites in both texts

The walk over a program finds the same sites with the same scopes whether the
function of a call stands alone or in a literal: the literal binds nothing, opens
no scope, and its key is no usage unless a key macro is called like it.
-/

namespace ComponentMacros

def Place.under (place : Place) (around : List Tree) : Place :=
  { place with ancestors := around }

section
variable (fn : Tree)

def insetPath (path : List Tree) : List Tree :=
  path.flatMap fun t =>
    fn.inset t :: if t = fn then [renderMember fn.span (fn.inset fn), renderLiteral fn.span (fn.inset fn)] else []

def Site.inset (site : Site) : Site :=
  { site with span := fn.span.insetSpan site.span, ancestors := insetPath fn site.ancestors }

def Findings.inset (found : Findings) : Findings :=
  { scopes := found.scopes
    functions := found.functions.map fun (span, scope) => (fn.span.insetSpan span, scope)
    candidates := found.candidates.map (·.inset fn) }

def Usages.inset (usages : Usages) : Usages :=
  { usages with pending := usages.pending.map (·.inset fn) }

def MacroImport.inset (imported : MacroImport) : MacroImport :=
  { imported with span := fn.span.insetSpan imported.span }

def Collected.inset (collected : Collected) : Collected :=
  { imports := collected.imports.map (·.inset fn)
    usages := collected.usages.inset fn
    scopes := collected.scopes
    functions := collected.functions.map fun (span, scope) => (fn.span.insetSpan span, scope) }

end

section
variable {fn : Tree}

theorem insetPath_cons_of_ne {t : Tree} (h : t ≠ fn) (path : List Tree) :
    insetPath fn (t :: path) = fn.inset t :: insetPath fn path := by
  simp [insetPath, h]

theorem insetPath_cons_self (path : List Tree) : insetPath fn (fn :: path) =
    fn.inset fn :: renderMember fn.span (fn.inset fn) :: renderLiteral fn.span (fn.inset fn) :: insetPath
      fn path := by
  simp [insetPath]

def Kind.boundName? : Kind → Option String
  | .binding own => some own
  | _ => none

def Kind.stringValue? : Kind → Option String
  | .string value => some value
  | _ => none

def Tree.plainKey? (t : Tree) : Option (String × Span) :=
  match t.key? with
  | some (.node (.name name) span _) => some (name, span)
  | _ => none

theorem meet_plainKey (lookup : String → Option Macro) (place : Place) {t : Tree} (found : Findings)
    {access : Access} {isMethod : Bool} (hk : t.kind = .property access false false isMethod) :
    meet lookup place t found = t.plainKey?.elim found fun (name, span) =>
      match lookup name with
      | some kind =>
        if kind.isKey then found.note { place with ancestors := t :: place.ancestors } kind name span
          .staticKey else found
      | none => found := by
  unfold meet Tree.plainKey?
  rw [hk]
  cases t.key? with
  | none => rfl
  | some key =>
    cases key with
    | node kind span children => cases kind <;> rfl

@[simp] theorem Findings.inset_scopes (found : Findings) : (found.inset fn).scopes = found.scopes := rfl

theorem Findings.inset_note (found : Findings) (place : Place) {around : List Tree}
    (haround : insetPath fn place.ancestors = around) (kind : Macro) (name : String) (span : Span)
    (position : SitePosition) :
    (found.inset fn).note (place.under around) kind name (fn.span.insetSpan span) position =
      (found.note place kind name span position).inset fn := by
  simp [note, inset, Site.inset, haround, Place.under]

variable (hfn : fn.isFunction = true)
include hfn

theorem boundName?_inset (t : Tree) : (fn.inset t).boundName? = t.boundName? := by
  unfold Tree.boundName?
  rw [Tree.inset_children, List.findSome?_map]
  congr 1
  funext part
  exact Tree.insetPart_kind hfn Kind.boundName? (fun _ _ _ => rfl) (fun _ => rfl) part

theorem moduleSpecifier?_inset (t : Tree) : (fn.inset t).moduleSpecifier? = t.moduleSpecifier? := by
  unfold Tree.moduleSpecifier?
  rw [Tree.inset_children, List.findSome?_map]
  congr 1
  funext part
  exact Tree.insetPart_kind hfn Kind.stringValue? (fun _ _ _ => rfl) (fun _ => rfl) part

theorem plainKey?_inset (t : Tree) :
    (fn.inset t).plainKey? = t.plainKey?.map fun (name, span) => (name, fn.span.insetSpan span) := by
  unfold Tree.plainKey?
  rw [Tree.key?_inset]
  cases t.key? with
  | none => rfl
  | some key =>
    by_cases hf : key = fn
    · -- neither the function nor the literal around it is a name
      obtain ⟨kind, span, parts⟩ := fn
      rw [hf, Option.map_some, Tree.insetPart_self]
      rcases Tree.isFunction_iff.mp hfn with ⟨role, a, g, rfl⟩ | ⟨a, rfl⟩ <;> rfl
    · obtain ⟨kind, span, parts⟩ := key
      rw [Option.map_some, Tree.insetPart_of_ne hf, Tree.inset_eq]
      cases kind <;> rfl

variable (lookup : String → Option Macro)

theorem meet_key_inset (place : Place) {t : Tree} (found : Findings) {access : Access} {isMethod : Bool}
    (hk : t.kind = .property access false false isMethod) {around : List Tree}
    (haround : insetPath fn (t :: place.ancestors) = fn.inset t :: around) :
    meet lookup (place.under around) (fn.inset t) (found.inset fn) = (meet lookup place t found).inset fn := by
  rw [meet_plainKey lookup _ _ hk, meet_plainKey lookup _ _ (by rw [Tree.inset_kind, hk]), plainKey?_inset hfn]
  cases t.plainKey? with
  | none => rfl
  | some key =>
    obtain ⟨name, span⟩ := key
    simp only [Option.map_some, Option.elim_some]
    cases lookup name with
    | none => rfl
    | some kind =>
      by_cases hkind : kind.isKey = true
      · simp only [hkind, if_true]
        exact Findings.inset_note found { place with ancestors := t :: place.ancestors } haround kind name
          span .staticKey
      · simp only [hkind]
        rfl

theorem meet_inset (place : Place) (t : Tree) (found : Findings) {around : List Tree}
    (haround : insetPath fn (t :: place.ancestors) = fn.inset t :: around) :
    meet lookup (place.under around) (fn.inset t) (found.inset fn) =
      (meet lookup place t found).inset fn := by
  have hplace : t.isFunction = false → insetPath fn place.ancestors = around := by
    intro hk
    rw [insetPath_cons_of_ne (Tree.ne_of_isFunction hfn hk)] at haround
    exact (List.cons.inj haround).2
  unfold meet
  rw [Tree.inset_kind, boundName?_inset hfn, Tree.inset_span]
  cases hk : t.kind with
  | binding name => rfl
  | identifier name =>
    have hne : t.isFunction = false := by unfold Tree.isFunction; rw [hk]
    dsimp only [Place.under]
    cases place.typeLevel with
    | true => rfl
    | false =>
      cases lookup name with
      | none => rfl
      | some kind => exact Findings.inset_note found place (hplace hne) kind name t.span .reference
  | function role a g =>
    cases role with
    | declaration => dsimp only; cases t.boundName? <;> rfl
    | expression | signature => rfl
  | property access computed shorthand isMethod =>
    cases computed with
    | true => rfl
    | false =>
      cases shorthand with
      | true => rfl
      | false =>
        have hkey := meet_key_inset hfn lookup place found hk haround
        unfold meet at hkey
        rw [Tree.inset_kind, hk] at hkey
        exact hkey
  | _ => rfl

omit hfn in
theorem inside_inset (place : Place) (t : Tree) (scopes : ScopeTree) {around : List Tree}
    (haround : insetPath fn (t :: place.ancestors) = fn.inset t :: around) :
    (place.under around).inside (fn.inset t) scopes =
      (place.inside t scopes).under (insetPath fn (place.inside t scopes).ancestors) := by
  simp only [Place.inside, Place.under, Tree.inset_kind, haround]

omit hfn in
theorem openScope_inset (place : Place) (around : List Tree) (t : Tree) (found : Findings) :
    (found.inset fn).openScope (place.under around) (fn.inset t) = (found.openScope place t).inset fn := by
  unfold Findings.openScope
  rw [Tree.inset_kind, Tree.inset_span]
  cases hscope : t.kind.scope? with
  | none => rfl
  | some hoisting =>
    cases t.kind with
    | function r a g => simp [Findings.inset, Place.under]
    | arrow a => simp [Findings.inset, Place.under]
    | _ => rfl

omit hfn in
theorem walk_renderLiteral (hkey : ∀ kind, lookup "render" = some kind → kind.isKey = false) (place : Place)
    (hhoist : place.hoistInto = none) (hole : Span) (value : Tree) (found : Findings) :
    walk lookup place (renderLiteral hole value) found =
      walk lookup (place.under (renderMember hole value :: renderLiteral hole value :: place.ancestors))
        value found := by
  have hmember : ∀ place : Place, meet lookup place (renderMember hole value) found = found := by
    intro place
    unfold meet
    simp only [renderMember, Tree.kind, Tree.key?, Tree.isProperty, Tree.children, ite_true, List.head?_cons]
    cases hlookup : lookup "render" with
    | none => rfl
    | some kind => simp [hkey kind hlookup]
  rw [walk_eq]
  show walkAll lookup _ [renderMember hole value] found = _
  rw [walkAll, walkAll, walk_eq, hmember]
  show walkAll lookup _ [.node (.name "render") _ [], value] found = _
  rw [walkAll, walkAll, walkAll]
  have hkeyNode : ∀ place : Place,
      walk lookup place (.node (.name "render") ⟨hole.start + 2, hole.start + 8⟩ []) found = found := by
    intro place
    rw [walk]
    rfl
  rw [hkeyNode]
  congr 1
  simp [Place.inside, Place.under, renderLiteral, renderMember, Tree.kind, Kind.scope?, Kind.isExpression,
    Kind.isTypeContext, hhoist]

/-- The walk over a node finds in the other text what it finds in this one. -/
theorem walkAll_inset (hkey : ∀ kind, lookup "render" = some kind → kind.isKey = false) {ts : List Tree}
    (hwalk : ∀ t ∈ ts, ∀ (place : Place) (found : Findings) (around : List Tree),
      insetPath fn (t :: place.ancestors) = fn.inset t :: around →
        walk lookup (place.under around) (fn.inset t) (found.inset fn) = (walk lookup place t found).inset fn)
    (place : Place) (hhoist : fn ∈ ts → place.hoistInto = none) (found : Findings) :
    walkAll lookup (place.under (insetPath fn place.ancestors)) (ts.map fn.insetPart) (found.inset fn) =
      (walkAll lookup place ts found).inset fn := by
  induction ts generalizing found with
  | nil => rfl
  | cons t ts ih =>
    rw [List.map_cons, walkAll, walkAll, ← ih (fun u hu => hwalk u (List.mem_cons_of_mem _ hu))
      fun hmem => hhoist (List.mem_cons_of_mem _ hmem)]
    congr 1
    by_cases ht : t = fn
    · subst ht
      rw [Tree.insetPart_self, walk_renderLiteral lookup hkey (place.under (insetPath t place.ancestors))
        (hhoist (List.mem_cons_self ..))]
      exact hwalk t (List.mem_cons_self ..) place found _ (insetPath_cons_self place.ancestors)
    · rw [Tree.insetPart_of_ne ht]
      exact hwalk t (List.mem_cons_self ..) place found _ (insetPath_cons_of_ne ht place.ancestors)

theorem walk_inset (hkey : ∀ kind, lookup "render" = some kind → kind.isKey = false) (t : Tree)
    (hparent : ∀ u ∈ t.nodes, fn ∈ u.children → u.kind.isExpression = true) :
    ∀ (place : Place) (found : Findings) (around : List Tree), insetPath fn (t :: place.ancestors) =
      fn.inset t :: around →
      walk lookup (place.under around) (fn.inset t) (found.inset fn) = (walk lookup place t found).inset fn := by
  induction t using Tree.induction with
  | step t ih =>
    intro place found around haround
    rw [walk_eq, walk_eq, meet_inset hfn lookup place t found haround, Findings.inset_scopes, openScope_inset,
      inside_inset place t _ haround, Tree.inset_children]
    apply walkAll_inset hfn lookup hkey
    · intro c hc
      exact ih c hc fun u hu => hparent u (Tree.mem_nodes_of_child hc hu)
    · intro hmem
      have hexpr := hparent t (Tree.mem_nodes_self t) hmem
      unfold Place.inside
      dsimp only
      split
      · rename_i hk
        rw [hk] at hexpr
        cases hexpr
      · rw [if_pos hexpr]

end

/-! ## Imports and usages -/

section
variable {fn : Tree} (hfn : fn.isFunction = true)
include hfn

theorem ImportedName.ofTree?_inset (part : Tree) : ofTree? (fn.insetPart part) = ofTree? part := by
  by_cases hf : part = fn
  · have hnone : ∀ {t : Tree}, (∀ imported, t.kind ≠ .importSpecifier imported false) → t.kind ≠ .importDefault →
        t.kind ≠ .importNamespace → ofTree? t = none := by
      intro t hs hd hn
      unfold ofTree?
      split <;> simp_all
    have hkind := Tree.isFunction_iff.mp hfn
    rw [hf, Tree.insetPart_self, hnone (by intro _; simp [renderLiteral, Tree.kind])
      (by simp [renderLiteral, Tree.kind]) (by simp [renderLiteral, Tree.kind])]
    rcases hkind with ⟨r, a, g, hk⟩ | ⟨a, hk⟩ <;> rw [hnone] <;> simp [hk]
  · rw [Tree.insetPart_of_ne hf]
    unfold ofTree?
    rw [Tree.inset_kind, boundName?_inset hfn]

theorem MacroImport.ofTree?_inset (options : Options) (t : Tree) :
    ofTree? options (fn.insetPart t) = (ofTree? options t).map (·.inset fn) := by
  by_cases hf : t = fn
  · have hnone : ∀ {t : Tree}, t.kind ≠ .importDeclaration false → ofTree? options t = none := by
      intro t ht
      unfold ofTree?
      split <;> simp_all
    rw [hf, Tree.insetPart_self, hnone (by simp [renderLiteral, Tree.kind])]
    rcases Tree.isFunction_iff.mp hfn with ⟨r, a, g, hk⟩ | ⟨a, hk⟩ <;> rw [hnone (by simp [hk])] <;> rfl
  · rw [Tree.insetPart_of_ne hf]
    unfold ofTree?
    rw [Tree.inset_kind, moduleSpecifier?_inset hfn, Tree.inset_children, List.filterMap_map, Tree.inset_span]
    have hnames : (ImportedName.ofTree? ∘ fn.insetPart) = ImportedName.ofTree? :=
      funext (ImportedName.ofTree?_inset hfn)
    rw [hnames]
    split
    · rename_i source hk hs
      split <;> rfl
    · rfl

theorem MacroImport.all_inset (options : Options) (program : Tree) :
    all options (fn.inset program) = (all options program).map (·.inset fn) := by
  unfold all
  rw [Tree.inset_children, List.filterMap_map, List.map_filterMap]
  congr 1
  funext t
  exact ofTree?_inset hfn options t

omit hfn in
theorem MacroImport.lookup_inset (imports : List MacroImport) :
    lookup (imports.map (·.inset fn)) = lookup imports := by
  funext name
  unfold lookup
  rw [List.flatMap_map]
  rfl

omit hfn in
theorem foldl_push_inset (sites : List Site) (usages : Usages) :
    (sites.map (·.inset fn)).foldl Usages.push (usages.inset fn) = (sites.foldl Usages.push usages).inset fn := by
  induction sites generalizing usages with
  | nil => rfl
  | cons site sites ih =>
    rw [List.map_cons, List.foldl_cons, List.foldl_cons, ← ih]
    congr 1
    simp only [Usages.push, Usages.inset, Site.inset, List.map_append, List.map_cons, List.map_nil]
    rfl

/-- Everything that is collected from the one text is collected from the other. -/
theorem collect?_inset {options : Options} {program : Tree} (hroot : program ≠ fn)
    (hparent : ∀ u ∈ program.nodes, fn ∈ u.children → u.kind.isExpression = true)
    (hstatement : fn ∉ program.children)
    (hkey : ∀ kind, MacroImport.lookup (MacroImport.all options program) "render" = some kind →
      kind.isKey = false) :
    collect? options (fn.inset program) = (collect? options program).map (·.inset fn) := by
  have hwalk : walkProgram (MacroImport.lookup (MacroImport.all options program)) (fn.inset program) =
      (walkProgram (MacroImport.lookup (MacroImport.all options program)) program).inset fn := by
    unfold walkProgram
    rw [Tree.inset_children]
    have hall := walkAll_inset hfn _ hkey (fun t (ht : t ∈ program.children) place found around haround =>
      walk_inset hfn _ hkey t (fun u hu => hparent u (Tree.mem_nodes_of_child ht hu)) place found around haround)
      { scope := ScopeTree.root, ancestors := [program] } (fun hmem => absurd hmem hstatement)
      { scopes := ScopeTree.empty.addScope none true, functions := [], candidates := [] }
    rw [← hall, insetPath_cons_of_ne hroot]
    rfl
  unfold collect?
  dsimp only
  rw [MacroImport.all_inset hfn, MacroImport.lookup_inset, hwalk, List.isEmpty_map]
  split
  · rfl
  · have hfilter :
      ((walkProgram (MacroImport.lookup (MacroImport.all options program)) program).inset fn).candidates.filter
        (Collected.isUsage (walkProgram (MacroImport.lookup (MacroImport.all options program)) program).scopes) =
        ((walkProgram (MacroImport.lookup (MacroImport.all options program)) program).candidates.filter
          (Collected.isUsage
            (walkProgram (MacroImport.lookup (MacroImport.all options program)) program).scopes)).map
          (·.inset fn) := by
      simp only [Findings.inset]
      rw [List.filter_map]
      rfl
    have hempty : Usages.empty = Usages.empty.inset fn := rfl
    rw [Findings.inset_scopes, hfilter, hempty, foldl_push_inset]
    rfl

end

/-! ## What a site finds around it -/

section
variable {fn : Tree} {p q : Tree → Bool} {path : List Tree}

theorem insetPath_append (before after : List Tree) :
    insetPath fn (before ++ after) = insetPath fn before ++ insetPath fn after := by
  simp [insetPath]

theorem find?_insetPath (hq : ∀ t ∈ path, q (fn.inset t) = p t)
    (hstop : fn ∈ path → p fn = true ∨
      q (renderMember fn.span (fn.inset fn)) = false ∧ q (renderLiteral fn.span (fn.inset fn)) = false) :
    (insetPath fn path).find? q = (path.find? p).map fn.inset := by
  induction path with
  | nil => rfl
  | cons t path ih =>
    have ih := ih (fun u hu => hq u (List.mem_cons_of_mem _ hu)) fun hmem => hstop (List.mem_cons_of_mem _ hmem)
    have hhead := hq t (List.mem_cons_self ..)
    cases hp : p t with
    | true =>
      rw [hp] at hhead
      rw [List.find?_cons_of_pos hp]
      simp [insetPath, hhead]
    | false =>
      rw [hp] at hhead
      rw [List.find?_cons_of_neg (by simp [hp]), ← ih]
      by_cases ht : t = fn
      · subst ht
        obtain ⟨hmember, hliteral⟩ := (hstop (List.mem_cons_self ..)).resolve_left (by simp [hp])
        simp [insetPath_cons_self, hhead, hmember, hliteral]
      · simp [insetPath_cons_of_ne ht, hhead]

theorem findSome?_insetPath {α : Type} {f g : Tree → Option α} (hg : ∀ t ∈ path, g (fn.inset t) = f t)
    (hmember : g (renderMember fn.span (fn.inset fn)) = none)
    (hliteral : g (renderLiteral fn.span (fn.inset fn)) = none) :
    (insetPath fn path).findSome? g = path.findSome? f := by
  induction path with
  | nil => rfl
  | cons t path ih =>
    have ih := ih fun u hu => hg u (List.mem_cons_of_mem _ hu)
    have hhead := hg t (List.mem_cons_self ..)
    by_cases ht : t = fn
    · subst ht
      simp [insetPath_cons_self, List.findSome?_cons, hhead, hmember, hliteral, ih]
    · simp [insetPath_cons_of_ne ht, List.findSome?_cons, hhead, ih]

theorem any_insetPath (hq : ∀ t ∈ path, q (fn.inset t) = p t)
    (hmember : q (renderMember fn.span (fn.inset fn)) = false)
    (hliteral : q (renderLiteral fn.span (fn.inset fn)) = false) :
    (insetPath fn path).any q = path.any p := by
  induction path with
  | nil => rfl
  | cons t path ih =>
    have ih := ih fun u hu => hq u (List.mem_cons_of_mem _ hu)
    have hhead := hq t (List.mem_cons_self ..)
    by_cases ht : t = fn
    · subst ht
      simp [insetPath_cons_self, hhead, hmember, hliteral, ih]
    · simp [insetPath_cons_of_ne ht, hhead, ih]

end

namespace Shorthand

section
variable {pre body post : List Char} {program call fn : Tree} (h : Shorthand pre body post program call fn)
  {site : Site}
include h

theorem find?_above {c : Tree} {rest : List Tree} (hpath : PathTo program (c :: rest))
    (hstrip : c.stripParens = fn) {t : Tree}
    (hfind : rest.find? (fun t => t.span ≠ fn.span || t.isProperty) = some t) :
      t.kind = .parenthesized ∨ t = call := by
  induction rest generalizing c with
  | nil => cases hfind
  | cons u rest ih =>
    cases hpath with
    | part hc hrest =>
      rcases h.holder hrest.head_mem_nodes hc hstrip with ⟨hk, hu⟩ | rfl
      · rw [List.find?_cons] at hfind
        split at hfind
        · obtain rfl := Option.some.inj hfind
          exact Or.inl hk
        · exact ih hrest hu hfind
      · have hspan : u.span ≠ fn.span := by
          intro heq
          have := h.headed
          rw [heq] at this
          omega
        rw [List.find?_cons_of_pos (by simp [hspan])] at hfind
        exact Or.inr (Option.some.inj hfind).symm

/-- A site has the same parent in the other text, unless it is as wide as the function: then it heads nothing. -/
theorem parent?_inset (hs : site.In program) : (site.inset fn).parent? = site.parent?.map fn.inset ∨
    site.span = fn.span ∧ (site.inset fn).parent? = some (renderMember fn.span (fn.inset fn)) ∧
      ∀ t, site.parent? = some t → t.kind = .parenthesized ∨ t = call := by
  obtain ⟨n, -, -, hpath⟩ := hs
  have hq : ∀ t ∈ site.ancestors, (decide ((fn.inset t).span ≠ (site.inset fn).span) || (fn.inset t).isProperty) =
      (decide (t.span ≠ site.span) || t.isProperty) := by
    intro t _
    simp [Site.inset]
  have hkind : fn.isProperty = false := by
    rcases Tree.isFunction_iff.mp h.isFunction with ⟨r, a, g, hk⟩ | ⟨a, hk⟩ <;> simp [Tree.isProperty, hk]
  by_cases hspan : site.span = fn.span
  swap
  · exact Or.inl (find?_insetPath hq fun _ => Or.inl (by simp [Ne.symm hspan]))
  by_cases hmem : fn ∈ site.ancestors
  swap
  · exact Or.inl (find?_insetPath hq fun hin => absurd hin hmem)
  obtain ⟨before, after, hsplit, hbefore⟩ := List.eq_append_cons_of_mem hmem
  rw [hsplit] at hpath hq
  have hfront : (insetPath fn before).find? (fun t => decide (t.span ≠ (site.inset fn).span) || t.isProperty) =
      (before.find? fun t => decide (t.span ≠ site.span) || t.isProperty).map fn.inset :=
    find?_insetPath (fun t ht => hq t (List.mem_append_left _ ht)) fun hin => absurd hin hbefore
  unfold Site.parent?
  rw [show (site.inset fn).ancestors = insetPath fn site.ancestors from rfl, hsplit, insetPath_append,
    List.find?_append, List.find?_append, hfront]
  cases hfound : before.find? (fun t => decide (t.span ≠ site.span) || t.isProperty) with
  | some t => exact Or.inl rfl
  | none =>
    -- the search goes on above the function: to the member in the other text, to the call in this one
    refine Or.inr ⟨hspan, ?_, ?_⟩
    · simp [insetPath_cons_self, Site.inset, hspan, hkind]
    · intro t ht
      rw [Option.none_or, List.find?_cons_of_neg (by simp [hspan, hkind]), hspan] at ht
      exact h.find?_above (@PathTo.drop program (n :: before) fn after hpath) h.stripParens ht

theorem call?_inset (hs : site.In program) : (site.inset fn).call? = site.call?.map fn.inset := by
  have hcallee : ∀ t ∈ program.nodes, ((fn.inset t).callee?.map (·.stripParens.span) = some (site.inset fn).span) =
      (t.callee?.map (·.stripParens.span) = some site.span) := by
    intro t ht
    rw [Tree.callee?_inset]
    cases hc : t.callee? with
    | none => simp
    | some c =>
      simp only [Option.map_some, Option.some.injEq, Tree.insetPart_stripParens h.isFunction,
        Tree.insetPart_of_ne (h.callee_ne ht hc), Tree.inset_span, Site.inset, Span.insetSpan_inj]
  unfold Site.call?
  rcases h.parent?_inset hs with hparent | ⟨hspan, hparent, habove⟩
  · rw [hparent]
    cases hp : site.parent? with
    | none => rfl
    | some t =>
      have ht := hs.ancestor_mem (Site.parent?_mem hp)
      simp only [Option.map_some, Option.filter_some, hcallee t ht]
      split <;> rfl
  · rw [hparent]
    cases hp : site.parent? with
    | none => rfl
    | some t =>
      have hno : t.callee?.map (·.stripParens.span) ≠ some site.span := by
        rcases habove t hp with hk | rfl
        · simp [Tree.callee?, Tree.isCall, hk]
        · -- the callee of the call ends before the function
          rw [ne_eq, Option.map_eq_some_iff]
          rintro ⟨c, hc, heq⟩
          have hmem := Tree.nodes_trans h.call_mem (Tree.child_mem_nodes (Tree.callee?_mem hc).2)
          have hin := Span.contains_iff.mp (h.layout.contains hmem c.stripParens_mem)
          have := h.callee_before hc
          have := h.proper
          rw [heq, hspan] at hin
          omega
      rw [Option.filter_some, Option.filter_some, if_neg (by simp [Tree.callee?, Tree.isCall]),
        if_neg (by simpa using hno)]
      rfl

theorem keyProperty?_inset (hs : site.In program) :
    (site.inset fn).keyProperty? = site.keyProperty?.map fn.inset := by
  unfold Site.keyProperty?
  rcases h.parent?_inset hs with hparent | ⟨hspan, hparent, habove⟩
  · rw [hparent]
    cases hp : site.parent? with
    | none => rfl
    | some t =>
      have ht := hs.ancestor_mem (Site.parent?_mem hp)
      have hkey : ((fn.inset t).key?.map (·.span) = some (site.inset fn).span) =
          (t.key?.map (·.span) = some site.span) := by
        rw [Tree.key?_inset]
        cases hk : t.key? with
        | none => simp
        | some key =>
          obtain ⟨hprop, hmem⟩ := Tree.key?_mem hk
          have hne := h.ne_of_stripParens (h.value_ne ht hprop hmem)
          simp [Tree.insetPart_of_ne hne, Site.inset]
      simp only [Option.map_some, Option.filter_some, hkey]
      split <;> rfl
  · have hnone : site.parent?.filter (fun t => t.key?.map (·.span) = some site.span) = none := by
      rw [Option.filter_eq_none_iff]
      intro t ht
      have hno : t.key? = none := by
        rcases habove t ht with hk | rfl
        · simp [Tree.key?, Tree.isProperty, hk]
        · obtain ⟨o, ho⟩ := Tree.isCall_iff.mp h.isCall
          simp [Tree.key?, Tree.isProperty, ho]
      simp [hno]
    rw [hparent, hnone, Option.filter_some, if_neg]
    · rfl
    · have := Span.start_ne_inset fn.span site.span.start 2 (by decide)
      simp [renderMember_keySpan, Site.inset, Span.insetSpan, Ne.symm this]

theorem owner?_inset (hs : site.In program) (property : Tree) :
    (site.inset fn).owner? (fn.inset property) = (site.owner? property).map fn.inset := by
  apply find?_insetPath
  · intro t ht
    have htp := hs.ancestor_mem ht
    rw [Tree.isObject_inset, Tree.inset_children, List.any_map, Tree.inset_span]
    cases ho : t.isObject with
    | false => rfl
    | true =>
      rw [Bool.true_and, Bool.true_and, Bool.eq_iff_iff]
      simp only [List.any_eq_true, Function.comp, decide_eq_true_eq]
      refine exists_congr fun c => and_congr_right fun hc => ?_
      rw [Tree.insetPart_of_ne (h.member_ne htp ho hc), Tree.inset_span, Span.insetSpan_inj]
  · intro _
    have := Span.start_ne_inset fn.span property.span.start 2 (by decide)
    refine Or.inr ⟨rfl, ?_⟩
    simp [Span.insetSpan, Ne.symm this]

omit h in
theorem inDefaultExport_inset : (site.inset fn).inDefaultExport = site.inDefaultExport := by
  apply any_insetPath
  · intro t _
    rw [Tree.inset_kind]
  · rfl
  · rfl

omit h in
theorem isWithin_inset (site : Site) (span : Span) :
    (site.inset fn).isWithin (fn.span.insetSpan span) = site.isWithin span :=
  Span.contains_insetSpan

end

end Shorthand

end ComponentMacros
