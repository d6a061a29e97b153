import ComponentMacros.Proofs.Transfer

/-!
# Expansions come to an end

Whatever a program nests and however it renames its macros, the rules cut the
source only where it can be cut, and no reference leads back to where it came
from. So once every macro is expanded, there is a text to show for it.
-/

namespace ComponentMacros

/-! ## Texts the rules read -/

def propRanges (member : Tree) : List Span :=
  match member with
  | .node (.property _ true _ _) _ (key :: _) => [key.span]
  | .node (.property _ false _ _) _ (key :: _) =>
    match key.kind with
    | .name _ | .identifier _ | .string _ => []
    | _ => [key.span]
  | .node (.spread _) _ [argument] => [argument.span]
  | _ => []

theorem propRanges_child {member : Tree} {range : Span} (h : range ∈ propRanges member) :
    ∃ c ∈ member.children, range = c.span := by
  unfold propRanges at h
  split at h
  · exact ⟨_, List.mem_cons_self .., List.mem_singleton.mp h⟩
  · split at h
    · cases h
    · cases h
    · cases h
    · exact ⟨_, List.mem_cons_self .., List.mem_singleton.mp h⟩
  · exact ⟨_, List.mem_cons_self .., List.mem_singleton.mp h⟩
  · cases h

/-- Wherever a rule may cut the source at the node, the cut is a boundary: the texts of props, the
text after a member in which a comma is looked for, and the place in an empty list of parameters. -/
def Tree.Readable (source : List Char) (t : Tree) : Prop :=
  (t.kind = .object → ∀ member ∈ t.children, Span.Fits source ⟨member.span.stop, byteLength source⟩ ∧
    ∀ range ∈ propRanges member, range.Fits source) ∧
  (t.kind = .parameters → t.plainParameters = [] →
    0 < t.span.stop ∧ Span.Fits source ⟨t.span.stop - 1, t.span.stop⟩)

theorem Layout.readable {source : List Char} {program : Tree} (h : Layout source program) {t : Tree}
    (ht : t ∈ program.nodes) : t.Readable source := by
  refine ⟨?_, ?_⟩
  · intro _ member hm
    have hmp := Tree.nodes_trans ht (Tree.child_mem_nodes hm)
    have hstop := (h.fits hmp).2.2
    refine ⟨⟨hstop.le_length, hstop, isBoundary_length source⟩, ?_⟩
    intro range hr
    obtain ⟨c, hc, rfl⟩ := propRanges_child hr
    exact h.fits (Tree.nodes_trans hmp (Tree.child_mem_nodes hc))
  · intro hk hnone
    obtain ⟨hpos, hbound⟩ := h.closing ht hk hnone
    exact ⟨hpos, Nat.sub_le _ _, hbound, (h.fits ht).2.2⟩

/-! ## Completion -/

theorem transform_eq {options : Options} {text : String} {program : Tree} {collected : Collected} {draft : Draft}
    {code : String} (hmay : options.mayImportMacros text.toList = true)
    (hparse : parse options.dialect text.toList = some program)
    (hcollect : collect? options program = some collected)
    (hdraft : expansion ⟨options, text.toList, collected⟩ = .ok draft) (hcode : draft.render = .ok code) :
    transform options text = .ok ⟨code, !draft.isEmpty, collected.usages.size⟩ := by
  simp only [transform, hmay, hparse, hcollect, hdraft, hcode, Bool.not_true, Bool.false_eq_true, ite_false]

/-- No reference of an expansion leads back to its own edit, every position and every reference is a
range of the source, and so are the cuts that rules make. Hence the expansion has a rendering, and
the transform ends with it. -/
theorem expansion_always_renders {options : Options} {text : String} {program : Tree} {collected : Collected}
    {draft : Draft} (hlayout : Layout text.toList program) (hshape : Shape program)
    (hcollect : collect? options program = some collected)
    (hdraft : expansion ⟨options, text.toList, collected⟩ = .ok draft) :
    draft.source = text.toList ∧ draft.Acyclic ∧ draft.InRange ∧ (∀ t ∈ program.nodes, t.Readable text.toList) ∧
      ∃ code, draft.render = .ok code ∧
        (options.mayImportMacros text.toList = true → parse options.dialect text.toList = some program →
          transform options text = .ok ⟨code, !draft.isEmpty, collected.usages.size⟩) := by
  have hrec := expansion_recorded hlayout.root hcollect hdraft
  have hacyclic := hrec.acyclic hlayout hshape
  have hrange := hrec.inRange hlayout hshape
  obtain ⟨code, hcode⟩ := render_ok hacyclic hrange (hrec.tidy hlayout).point
  refine ⟨hrec.source_eq, hacyclic, hrange, fun t ht => hlayout.readable ht, code, hcode, ?_⟩
  intro hmay hparse
  exact transform_eq hmay hparse hcollect hdraft hcode

/-- A moved map in a moved map, and a render function without parameters after a wide character. -/
def chainSample : String :=
  "import \x7b INJECTIONS as I, functional as f \x7d from 'm.macro';\n" ++
    "x = \x7b inject: 0, I: \x7b a: \x7b inject: 0, mixins: [], I: \x7b\x7d \x7d \x7d, é: f(() => 0) \x7d;"

theorem expansion_always_renders_chain : ∃ program collected draft,
    parse (Options.dialect {}) chainSample.toList = some program ∧ Layout chainSample.toList program ∧
    Shape program ∧ collect? {} program = some collected ∧
    expansion ⟨{}, chainSample.toList, collected⟩ = .ok draft ∧
    draft.Acyclic ∧ draft.InRange ∧ (∀ t ∈ program.nodes, t.Readable chainSample.toList) ∧
    ∃ code, transform {} chainSample = .ok ⟨code, !draft.isEmpty, collected.usages.size⟩ := by
  obtain ⟨program, collected, draft, hparse, hlayout, hshape, hcollect, hdraft⟩ :=
    @expands_spec {} chainSample.toList (by decide +kernel)
  obtain ⟨-, hacyclic, hrange, hreadable, code, -, htransform⟩ :=
    expansion_always_renders hlayout hshape hcollect hdraft
  exact ⟨program, collected, draft, hparse, hlayout, hshape, hcollect, hdraft, hacyclic, hrange, hreadable,
    code, htransform (by decide +kernel) hparse⟩

end ComponentMacros
