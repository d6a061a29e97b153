import ComponentMacros.Usage.Site

/-!
# Queued usages

The sites still to be expanded. They are taken from the queue by macro, in the
order they were put there, and each is taken once.
-/

namespace ComponentMacros

structure Usages where
  pending : List Site
  /-- What the program calls the `type` macro where it first uses it. -/
  typeAlias : Option String

namespace Usages

def empty : Usages := ⟨[], none⟩

def push (usages : Usages) (site : Site) : Usages :=
  { pending := usages.pending ++ [site]
    typeAlias := usages.typeAlias.or (if site.kind = .type then some site.name else none) }

def get (usages : Usages) (kind : Macro) : List Site :=
  usages.pending.filter (·.kind = kind)

def takeMatching (usages : Usages) (kind : Macro) (p : Site → Bool) : List Site × Usages :=
  (usages.pending.filter fun site => site.kind = kind && p site,
    { usages with pending := usages.pending.filter fun site => !(site.kind = kind && p site) })

def take (usages : Usages) (kind : Macro) : List Site × Usages :=
  usages.takeMatching kind fun _ => true

/-- Ask about the sites of a macro one after the other, and part those that are
picked from all the others. What is asked may depend on what was asked before. -/
def pick {σ : Type} (kind : Macro) (ask : Site → StateM σ Bool) :
    List Site → StateM σ (List Site × List Site)
  | [] => return ([], [])
  | site :: rest => do
    if site.kind = kind then
      let picked ← ask site
      let (taken, kept) ← pick kind ask rest
      return if picked then (site :: taken, kept) else (taken, site :: kept)
    else
      let (taken, kept) ← pick kind ask rest
      return (taken, site :: kept)

def takeAsking {σ : Type} (usages : Usages) (kind : Macro) (ask : Site → StateM σ Bool) :
    StateM σ (List Site × Usages) := do
  let (taken, kept) ← pick kind ask usages.pending
  return (taken, { usages with pending := kept })

def size (usages : Usages) : Nat :=
  usages.pending.length

end Usages

end ComponentMacros
