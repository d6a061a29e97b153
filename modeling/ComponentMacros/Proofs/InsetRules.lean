import ComponentMacros.Proofs.Deal
import ComponentMacros.Proofs.InsetSites
import ComponentMacros.Proofs.Misuse
import ComponentMacros.Proofs.Slots

/-!
# Rules in both texts

What a rule records for a site, it records in the other text for the same site at
the places where everything has gone. Only the rule of the call itself does
something else there.
-/

namespace ComponentMacros

/-! ## Edits -/

def Piece.inset (hole : Span) : Piece → Piece
  | .text t => .text t
  | .source range => .source (hole.insetSpan range)

def Edit.inset (hole : Span) (e : Edit) : Edit :=
  ⟨e.placement, hole.insetSpan e.span, e.content.map (Piece.inset hole)⟩

def UsageError.inset (hole : Span) (error : UsageError) : UsageError :=
  { error with span := hole.insetSpan error.span }

/-- A result in the other text; `f` says where a value has gone. -/
def insetResult {α β : Type} (hole : Span) (f : α → β) : Except UsageError α → Except UsageError β
  | .ok a => .ok (f a)
  | .error e => .error (e.inset hole)

section
variable {hole : Span}

theorem Fragment.inset_ofText (text : String) : (ofText text).map (Piece.inset hole) = ofText text := by
  unfold ofText
  split <;> rfl

namespace Edit

@[simp] theorem inset_placement (e : Edit) : (e.inset hole).placement = e.placement := rfl

@[simp] theorem inset_span (e : Edit) : (e.inset hole).span = hole.insetSpan e.span := rfl

@[simp] theorem inset_overwrite (r : Span) (text : String) :
    (Edit.overwrite r text).inset hole = .overwrite (hole.insetSpan r) text := by
  simp [overwrite, Edit.inset, Fragment.inset_ofText]

@[simp] theorem inset_prepend (pos : Nat) (text : String) :
    (Edit.prepend pos text).inset hole = .prepend (hole.inset pos) text := by
  simp [prepend, Edit.inset, Fragment.inset_ofText, Span.insetSpan]

@[simp] theorem inset_append (pos : Nat) (text : String) :
    (Edit.append pos text).inset hole = .append (hole.inset pos) text := by
  simp [append, Edit.inset, Fragment.inset_ofText, Span.insetSpan]

@[simp] theorem inset_remove (start stop : Nat) :
    (Edit.remove start stop).inset hole = .remove (hole.inset start) (hole.inset stop) := rfl

theorem inset_isWithin (e : Edit) (range : Span) (nested : Bool) :
    (e.inset hole).isWithin (hole.insetSpan range) nested = e.isWithin range nested := by
  unfold isWithin
  rw [inset_placement, inset_span, Span.contains_insetSpan]
  simp only [Span.insetSpan_start, Span.insetSpan_stop, Span.inset_lt_iff, Span.inset_le_iff]

theorem source_mem_inset {e : Edit} {range : Span} :
    .source range ∈ (e.inset hole).content ↔ ∃ r, .source r ∈ e.content ∧ range = hole.insetSpan r := by
  simp only [Edit.inset, List.mem_map]
  constructor
  · rintro ⟨_ | r, hr, heq⟩
    · cases heq
    · exact ⟨r, hr, (Piece.source.inj heq).symm⟩
  · rintro ⟨r, hr, rfl⟩
    exact ⟨.source r, hr, rfl⟩

theorem inset_selects (e f : Edit) : (e.inset hole).selects (f.inset hole) = e.selects f := by
  rw [Bool.eq_iff_iff, selects_iff, selects_iff]
  simp only [source_mem_inset]
  constructor
  · rintro ⟨_, ⟨r, hr, rfl⟩, hin⟩
    exact ⟨r, hr, by rwa [inset_isWithin] at hin⟩
  · rintro ⟨r, hr, hin⟩
    exact ⟨_, ⟨r, hr, rfl⟩, by rwa [inset_isWithin]⟩

end Edit

theorem recorded_inset (es : List Edit) : (es.map (Edit.inset hole)).filter (fun e => !e.selects e) =
    (es.filter fun e => !e.selects e).map (Edit.inset hole) := by
  rw [List.filter_map]
  congr 2
  funext e
  simp [Edit.inset_selects]

end

/-! ## Texts -/

def commaWidth (text : List Char) : Nat :=
  match text.drop (text.takeWhile isMemberBlank).length with
  | ',' :: _ => byteLength (text.takeWhile isMemberBlank) + 1
  | _ => 0

theorem trailingCommaEnd_eq {text segment rest : List Char} {pos : Nat}
    (hd : dropBytes text pos = some (segment ++ rest))
    (hstop : ∃ c ∈ segment, isMemberBlank c = false) : trailingCommaEnd text pos = pos + commaWidth segment := by
  have hshort : (segment.takeWhile isMemberBlank).length ≠ segment.length := by
    intro hlen
    obtain ⟨c, hc, hno⟩ := hstop
    have hall := List.all_takeWhile (p := isMemberBlank) (l := segment)
    rw [(List.takeWhile_prefix isMemberBlank).eq_of_length hlen, List.all_eq_true] at hall
    rw [hall c hc] at hno
    cases hno
  have htake : (segment ++ rest).takeWhile isMemberBlank = segment.takeWhile isMemberBlank := by
    rw [List.takeWhile_append, if_neg hshort]
  have hle := (List.takeWhile_prefix (l := segment) isMemberBlank).length_le
  unfold trailingCommaEnd commaWidth
  rw [hd]
  simp only [htake]
  rw [List.drop_append_of_le_length hle]
  cases hdrop : segment.drop (segment.takeWhile isMemberBlank).length with
  | nil =>
    have := congrArg List.length hdrop
    rw [List.length_drop, List.length_nil] at this
    omega
  | cons c cs =>
    by_cases hc : c = ','
    · subst hc
      simp only [List.cons_append]
      omega
    · simp [hc]

theorem slice?_eq_some {text segment : List Char} {lo hi : Nat} (h : slice? text lo hi = some segment) :
    ∃ rest, dropBytes text lo = some (segment ++ rest) ∧ lo + byteLength segment = hi := by
  unfold slice? at h
  split at h
  · rename_i hle
    obtain ⟨rest, hrest, htake⟩ := Option.bind_eq_some_iff.mp h
    have hcut : IsBoundary rest (hi - lo) := by
      rw [IsBoundary, ← takeBytes_isSome, htake]
      rfl
    obtain ⟨part, after, hpart, -, rfl, hlength⟩ := hcut.cut
    obtain rfl : part = segment := by rw [hpart] at htake; exact Option.some.inj htake
    exact ⟨after, hrest, by omega⟩
  · cases h

theorem dropBytes_inset {pre body post : List Char} {lo hi : Nat} (hlevel : (holeOf pre body).Level lo hi)
    (hfits : Span.Fits (bareText pre body post) ⟨lo, hi⟩) : ∃ segment rest rest',
      dropBytes (bareText pre body post) lo = some (segment ++ rest) ∧
      dropBytes (literalText pre body post) ((holeOf pre body).inset lo) = some (segment ++ rest') ∧
      lo + byteLength segment = hi := by
  obtain ⟨segment, hslice⟩ := Option.isSome_iff_exists.mp (slice?_isSome_iff.mpr hfits)
  have hslice' := @slice?_inset pre body post lo hi hlevel
  rw [hslice] at hslice'
  obtain ⟨rest, hrest, hlength⟩ := slice?_eq_some hslice
  obtain ⟨rest', hrest', -⟩ := slice?_eq_some hslice'
  exact ⟨segment, rest, rest', hrest, hrest', hlength⟩

theorem trailingCommaEnd_inset {pre body post : List Char} {lo hi : Nat}
    (hlevel : (holeOf pre body).Level lo (hi + 1)) (hlo : IsBoundary (bareText pre body post) lo) (hle : lo ≤ hi)
    (hclose : charAt (bareText pre body post) hi = some '\x7d') :
    trailingCommaEnd (literalText pre body post) ((holeOf pre body).inset lo) =
      (holeOf pre body).inset (trailingCommaEnd (bareText pre body post) lo) := by
  have hfits : Span.Fits (bareText pre body post) ⟨lo, hi + 1⟩ :=
    ⟨by simp only; omega, hlo, isBoundary_succ hclose rfl⟩
  obtain ⟨segment, rest, rest', hd, hd', hlength⟩ := dropBytes_inset hlevel hfits
  have hstop : ∃ c ∈ segment, isMemberBlank c = false := by
    obtain ⟨after, hafter⟩ := charAt_eq_some.mp hclose
    have hadd := dropBytes_add (b := hi - lo) hd
    rw [Nat.add_sub_cancel' hle, hafter] at hadd
    obtain ⟨c, hc, hhead⟩ := head_of_dropBytes (by omega) hadd.symm
    obtain rfl : '\x7d' = c := Option.some.inj hhead
    exact ⟨_, hc, rfl⟩
  have hbound := (trailingCommaEnd_bounds hlo hle hclose).2.1
  rw [trailingCommaEnd_eq hd hstop] at hbound ⊢
  rw [trailingCommaEnd_eq hd' hstop, hlevel.inset_add (Nat.le_add_right ..) (by omega)]

theorem sourceText_inset {pre body post : List Char} {span : Span}
    (hlevel : (holeOf pre body).Level span.start span.stop) :
    sourceText (literalText pre body post) ((holeOf pre body).insetSpan span) =
      sourceText (bareText pre body post) span := by
  unfold sourceText
  rw [Span.insetSpan_start, Span.insetSpan_stop, slice?_inset hlevel]

/-! ## Nodes -/

def Kind.shorthandName? : Kind → Option String
  | .identifier own => some own
  | _ => none

def Kind.keyName? : Kind → Option String
  | .name own => some own
  | .string value => some value
  | _ => none

section
variable {fn : Tree} (hfn : fn.isFunction = true)
include hfn

theorem arguments_inset (t : Tree) : (fn.inset t).arguments = t.arguments.map fn.insetPart := by
  unfold Tree.arguments
  rw [Tree.inset_children, ← List.map_tail]
  exact Tree.filter_insetPart hfn (fun k => decide (k ≠ .typeArguments)) (fun _ _ _ => rfl) (fun _ => rfl) _

theorem typeArguments?_inset (t : Tree) : (fn.inset t).typeArguments? = t.typeArguments?.map fn.insetPart := by
  unfold Tree.typeArguments?
  rw [Tree.inset_children, ← List.map_tail]
  exact Tree.find?_insetPart hfn (fun k => decide (k = .typeArguments)) (fun _ _ _ => rfl) (fun _ => rfl) _

omit hfn in
theorem staticName?_shorthand (access : Access) (isMethod : Bool) (span : Span) (c : Tree) :
    (Tree.node (.property access false true isMethod) span [c]).staticName? =
      c.kind.shorthandName? := by
  cases c with
  | node k s cs => cases k <;> rfl

omit hfn in
theorem staticName?_pair (access : Access) (isMethod : Bool) (span : Span) (c : Tree) (cs : List Tree) :
    (Tree.node (.property access false false isMethod) span (c :: cs)).staticName? =
      c.kind.keyName? := by
  cases c with
  | node k s cs => cases k <;> rfl

theorem staticName?_inset (t : Tree) : (fn.insetPart t).staticName? = t.staticName? := by
  by_cases ht : t = fn
  · subst ht
    rw [Tree.insetPart_self]
    obtain ⟨kind, span, parts⟩ := t
    rcases Tree.isFunction_iff.mp hfn with ⟨r, a, g, hk⟩ | ⟨a, hk⟩ <;> cases hk <;> rfl
  rw [Tree.insetPart_of_ne ht, Tree.inset_eq]
  obtain ⟨kind, span, parts⟩ := t
  cases kind with
  | property access computed shorthand isMethod =>
    dsimp only [Tree.kind, Tree.children]
    cases computed with
    | true => cases shorthand <;> rfl
    | false =>
      cases shorthand with
      | true =>
        match parts with
        | [] => rfl
        | [c] =>
          rw [List.map_singleton, staticName?_shorthand, staticName?_shorthand]
          exact Tree.insetPart_kind hfn Kind.shorthandName? (fun _ _ _ => rfl) (fun _ => rfl) c
        | c :: d :: rest => simp [Tree.staticName?]
      | false =>
        match parts with
        | [] => rfl
        | c :: rest =>
          rw [List.map_cons, staticName?_pair, staticName?_pair]
          exact Tree.insetPart_kind hfn Kind.keyName? (fun _ _ _ => rfl) (fun _ => rfl) c
  | _ => rfl

theorem findMember?_inset (object : Tree) (name : String) : (fn.inset object).findMember? name =
    (object.findMember? name).map fun (i, p) => (i, fn.insetPart p) := by
  unfold Tree.findMember?
  rw [Tree.inset_children, List.zipIdx_map, List.find?_map]
  simp only [Function.comp_def, Option.map_map, Prod.map, staticName?_inset hfn, id_eq]

theorem hasMember_inset (object : Tree) (name : String) :
    (fn.inset object).hasMember name = object.hasMember name := by
  rw [Tree.hasMember, findMember?_inset hfn, Option.isSome_map, Tree.hasMember]

theorem parameterList?_inset (t : Tree) : (fn.inset t).parameterList? = t.parameterList?.map fn.inset := by
  have hpart : t.parameterList?.map fn.inset = t.parameterList?.map fn.insetPart := by
    cases hlist : t.parameterList? with
    | none => rfl
    | some list =>
      have hk := (parameterList?_mem hlist).2
      rw [Option.map_some, Option.map_some, Tree.insetPart_of_ne]
      exact Tree.ne_of_isFunction hfn (by simp [Tree.isFunction, hk])
  rw [hpart, Tree.parameterList?_eq, Tree.parameterList?_eq, Tree.inset_children]
  have hfunction : (fn.inset t).isFunction = t.isFunction := by unfold Tree.isFunction; rw [Tree.inset_kind]
  rw [hfunction]
  split
  · exact Tree.find?_insetPart hfn (fun k => decide (k = .parameters)) (fun _ _ _ => rfl) (fun _ => rfl) _
  · rfl

theorem find?_inset (t : Tree) (k : Kind) (hk : ∀ r a g, k ≠ .function r a g) (hk' : ∀ a, k ≠ .arrow a)
    (ho : k ≠ .object) :
    (fn.inset t).find? (· = k) = (t.find? (· = k)).map fn.inset := by
  have hpart : (t.find? (· = k)).map fn.inset = (t.find? (· = k)).map fn.insetPart := by
    cases hfind : t.find? (· = k) with
    | none => rfl
    | some c =>
      have hc : c.kind = k := by simpa using List.find?_some hfind
      rw [Option.map_some, Option.map_some, Tree.insetPart_of_ne]
      rintro rfl
      rcases Tree.isFunction_iff.mp hfn with ⟨r, a, g, h⟩ | ⟨a, h⟩
      · exact hk r a g (hc.symm.trans h)
      · exact hk' a (hc.symm.trans h)
  rw [hpart]
  unfold Tree.find?
  rw [Tree.inset_children]
  exact Tree.find?_insetPart hfn (fun kind => decide (kind = k))
    (fun r a g => by simp [Ne.symm (hk r a g), Ne.symm ho]) (fun a => by simp [Ne.symm (hk' a), Ne.symm ho]) _

theorem plainParameters_inset (list : Tree) :
    (fn.inset list).plainParameters = list.plainParameters.map fn.inset := by
  unfold Tree.plainParameters
  rw [Tree.inset_children]
  rw [Tree.filter_insetPart hfn (fun k => decide (k = .parameter)) (fun _ _ _ => rfl) (fun _ => rfl)]
  apply List.map_congr_left
  intro t ht
  have hk : t.kind = .parameter := by simpa using (List.mem_filter.mp ht).2
  exact Tree.insetPart_of_ne (Tree.ne_of_isFunction hfn (by simp [Tree.isFunction, hk]))

omit hfn in
theorem parameterName?_eq (t : Tree) : t.parameterName? =
    (t.children.find? (·.kind ≠ .decorator)).bind (·.kind.boundName?) := by
  unfold Tree.parameterName?
  cases t.children.find? (·.kind ≠ .decorator) with
  | none => rfl
  | some part =>
    obtain ⟨kind, span, parts⟩ := part
    cases kind <;> rfl

theorem parameterName?_inset (t : Tree) : (fn.inset t).parameterName? = t.parameterName? := by
  rw [parameterName?_eq, parameterName?_eq, Tree.inset_children]
  rw [Tree.find?_insetPart hfn (fun k => decide (k ≠ .decorator)) (fun _ _ _ => rfl) (fun _ => rfl),
    Option.bind_map]
  congr 1
  funext part
  exact Tree.insetPart_kind hfn Kind.boundName? (fun _ _ _ => rfl) (fun _ => rfl) part

theorem prependFactory_inset {list : Tree}
    (hclosing : list.plainParameters = [] → fn.span.inset (list.span.stop - 1) =
      fn.span.inset list.span.stop - 1) :
    prependFactory (fn.inset list) = (prependFactory list).map (Edit.inset fn.span) := by
  unfold prependFactory
  rw [find?_inset hfn list .thisParameter (by simp) (by simp) (by simp), plainParameters_inset hfn,
    find?_inset hfn list .restParameter (by simp) (by simp) (by simp)]
  cases list.find? (· = .thisParameter) with
  | some this => simp
  | none =>
    cases hplain : list.plainParameters with
    | cons first more =>
      simp only [Option.map_none, List.map_cons, Tree.inset_span, Span.insetSpan_inj]
      split <;> simp
    | nil =>
      cases list.find? (· = .restParameter) with
      | some rest => simp
      | none => simp [hclosing hplain]

theorem injectFactory_inset {isTaken isTaken' : Span → Bool}
    (htaken : ∀ span, isTaken' (fn.span.insetSpan span) = isTaken span)
    (site : Site) {render render' : Tree} (hrender : render'.stripParens = fn.inset render.stripParens)
    (hclosing : ∀ list, render.stripParens.parameterList? = some list → list.plainParameters = [] →
      fn.span.inset (list.span.stop - 1) = fn.span.inset list.span.stop - 1) :
    injectFactory isTaken' (site.inset fn) render' =
      insetResult fn.span (List.map (Edit.inset fn.span)) (injectFactory isTaken site render) := by
  unfold injectFactory
  simp only [hrender, parameterList?_inset hfn]
  cases hlist : render.stripParens.parameterList? with
  | none => rfl
  | some list =>
    simp only [Option.map_some, plainParameters_inset hfn, List.head?_map, Option.bind_map,
      Tree.inset_span, htaken]
    have hname : (fun t => Tree.parameterName? t) ∘ fn.inset = fun t => t.parameterName? :=
      funext (parameterName?_inset hfn)
    rw [hname]
    split
    · rfl
    · split
      · rfl
      · rw [prependFactory_inset hfn (hclosing list hlist)]
        rfl

end

def Definition.inset (fn : Tree) (definition : Definition) : Definition :=
  ⟨fn.inset definition.call, definition.object.map fn.inset, fn.span.inset definition.insertAt,
    definition.hasMembers⟩

theorem Definition.unshift_inset (fn : Tree) (definition : Definition) (key value : String) :
    (definition.inset fn).unshift key value =
      ((definition.unshift key value).1.inset fn.span, (definition.unshift key value).2.inset fn) := by
  simp only [unshift, Edit.inset_prepend]
  rfl

/-! ## Members -/

namespace Shorthand

section
variable {pre body post : List Char} {program call fn : Tree} (h : Shorthand pre body post program call fn)
include h

theorem level_last {object m : Tree} (ho : object ∈ program.nodes) (hk : object.isObject = true)
    (hlast : object.children.getLast? = some m) : fn.span.Level m.span.stop object.span.stop := by
  have hk := Tree.isObject_iff.mp hk
  have hproper := h.proper
  have hm := (h.layout.parts ho).bounds m (List.mem_of_getLast? hlast)
  unfold Span.Level
  rcases h.clear ho with hclear | hclear | ⟨hstart, hstop⟩ | hclear
  · omega
  · omega
  · have hne : object.stripParens ≠ fn := by
      rw [Tree.stripParens_of_kind (by simp [hk])]
      exact Tree.ne_of_isFunction h.isFunction (by simp [Tree.isFunction, hk])
    rcases Tree.mem_nodes.mp (h.around ho hne hstart hstop) with heq | ⟨c, hc, hin⟩
    · obtain ⟨o, hcall⟩ := Tree.isCall_iff.mp h.isCall
      rw [heq, hk] at hcall
      cases hcall
    · have hcs := Span.contains_iff.mp (h.layout.contains (Tree.nodes_trans ho (Tree.child_mem_nodes hc)) hin)
      have := (h.layout.parts ho).le_getLast hlast c hc
      have := h.stop_lt
      omega
  · omega

theorem removeMember_inset {object : Tree} (ho : object ∈ program.nodes) (hk : object.isObject = true)
    (index : Nat) :
    removeMember (literalText pre body post) (fn.inset object).children index =
      (removeMember (bareText pre body post) object.children index).map (Edit.inset fn.span) := by
  unfold removeMember
  rw [Tree.inset_children, List.getElem?_map, List.getElem?_map]
  cases hm : object.children[index]? with
  | none => rfl
  | some m =>
    have hmem := List.mem_of_getElem? hm
    simp only [Option.map_some, Tree.insetPart_of_ne (h.member_ne ho hk hmem), Tree.inset_span]
    cases hnext : object.children[index + 1]? with
    | some next =>
      simp [Tree.insetPart_of_ne (h.member_ne ho hk (List.mem_of_getElem? hnext))]
    | none =>
      have hlast : object.children.getLast? = some m := by
        have hlt := (List.getElem?_eq_some_iff.mp hm).1
        have hge := List.getElem?_eq_none_iff.mp hnext
        rw [List.getLast?_eq_getElem?, show object.children.length - 1 = index by omega, hm]
      have hlevel := h.level_last ho hk hlast
      obtain ⟨-, hclose, hin⟩ := h.layout.object ho (Tree.isObject_iff.mp hk)
      have hbounds := hin.bounds m hmem
      have hstop : object.span.stop - 1 + 1 = object.span.stop := by omega
      rw [← hstop] at hlevel
      rw [h.span] at hlevel ⊢
      have hcomma :=
        trailingCommaEnd_inset hlevel (h.layout.fits (Tree.nodes_trans ho (Tree.child_mem_nodes hmem))).2.2
        (by omega) hclose
      simp [hcomma]

/-! ## Definitions -/

variable {site : Site}

theorem definitionCall_inset (hs : site.In program) : definitionCall (site.inset fn) =
    insetResult fn.span (Prod.map fn.inset fn.insetPart) (definitionCall site) := by
  have hcall := h.call?_inset hs
  cases hc : site.call? with
  | none =>
    rw [hc] at hcall
    simp only [definitionCall, hcall, hc, Option.map_none]
    rfl
  | some c =>
    rw [hc] at hcall
    have hargs := arguments_inset h.isFunction c
    by_cases harity : c.arguments.length = 1
    swap
    · rw [definitionCall_arity hc harity, definitionCall_arity hcall (by rwa [hargs, List.length_map]),
        Tree.inset_span]
      rfl
    obtain ⟨argument, ha⟩ := List.length_eq_one_iff.mp harity
    rw [ha, List.map_singleton] at hargs
    have hspread := Tree.insetPart_kind h.isFunction (fun kind => (Tree.node kind argument.span []).isSpread)
      (fun _ _ _ => rfl) (fun _ => rfl) argument
    cases hs : argument.isSpread with
    | true =>
      rw [definitionCall_spread hc ha hs, definitionCall_spread hcall hargs (hspread.trans hs), Tree.inset_span]
      rfl
    | false =>
      rw [definitionCall_applies ⟨hc, ha, hs⟩, definitionCall_applies ⟨hcall, hargs, hspread.trans hs⟩]
      rfl

omit h in
theorem declaredValue?_inset (hfn : fn.isFunction = true) (t : Tree) :
    declaredValue? (fn.inset t) = (declaredValue? t).map fn.insetPart := by
  unfold declaredValue?
  rw [Tree.inset_children, ← List.map_tail]
  exact Tree.find?_insetPart hfn (fun k => decide (k ≠ .ascription)) (fun _ _ _ => rfl) (fun _ => rfl) _

theorem insetPart_stripSpan {t c : Tree} (ht : t ∈ program.nodes) (hc : c ∈ t.children)
    (hparen : t.kind ≠ .parenthesized)
    (hcall : t.isCall = false) : (fn.insetPart c).stripParens.span = fn.span.insetSpan c.stripParens.span := by
  rw [Tree.insetPart_stripParens h.isFunction, Tree.insetPart_of_ne (h.part_ne ht hc hparen hcall),
    Tree.inset_span]

omit h in
theorem nameGivenBy_declarator (given : Span) (keyword : String) (span : Span) (target : Tree) (rest : List Tree) :
    nameGivenBy given (.node (.declarator keyword) span (target :: rest)) =
      match target.kind, declaredValue? (.node (.declarator keyword) span (target :: rest)) with
      | .binding name, some value => some (if value.stripParens.span = given then some name else none)
      | _, _ => some none := rfl

omit h in
theorem nameGivenBy_assignment (given : Span) (operator : String) (span : Span) (target value : Tree) :
    nameGivenBy given (.node (.assignment operator) span [target, value]) =
      match target.kind with
      | .identifier name => some (if value.stripParens.span = given then some name else none)
      | _ => some none := rfl

theorem nameGivenBy_inset (given : Span) {t : Tree} (ht : t ∈ program.nodes) :
    nameGivenBy (fn.span.insetSpan given) (fn.inset t) = nameGivenBy given t := by
  have hvalue := fun c (hc : c ∈ t.children) => h.insetPart_stripSpan ht hc
  have htarget : ∀ c ∈ t.children, t.kind ≠ .parenthesized → t.isCall = false →
      (fn.insetPart c).kind = c.kind := by
    intro c hc hparen hcall
    rw [Tree.insetPart_of_ne (h.ne_of_stripParens (h.part_ne ht hc hparen hcall)), Tree.inset_kind]
  have hdeclared := declaredValue?_inset h.isFunction t
  obtain ⟨kind, span, parts⟩ := t
  rw [Tree.inset_eq] at hdeclared ⊢
  cases kind with
  | declarator keyword =>
    match parts with
    | [] => rfl
    | target :: rest =>
      change nameGivenBy _ (.node (.declarator keyword) (fn.span.insetSpan span)
        (fn.insetPart target :: rest.map fn.insetPart)) = _
      change declaredValue? (.node (.declarator keyword) (fn.span.insetSpan span)
        (fn.insetPart target :: rest.map fn.insetPart)) = _
        at hdeclared
      rw [nameGivenBy_declarator, nameGivenBy_declarator, hdeclared,
        htarget target (List.mem_cons_self ..) nofun rfl]
      cases target.kind with
      | binding name =>
        cases hd : declaredValue? (.node (.declarator keyword) span (target :: rest)) with
        | none => rfl
        | some value =>
          have hmem : value ∈ rest := List.mem_of_find?_eq_some hd
          simp [hvalue value (List.mem_cons_of_mem _ hmem) nofun rfl]
      | _ => rfl
  | assignment operator =>
    match parts with
    | [] | [_] | _ :: _ :: _ :: _ => rfl
    | [target, value] =>
      change nameGivenBy _ (.node (.assignment operator) (fn.span.insetSpan span)
        [fn.insetPart target, fn.insetPart value]) = _
      rw [nameGivenBy_assignment, nameGivenBy_assignment, htarget target (List.mem_cons_self ..) nofun rfl]
      cases target.kind with
      | identifier name => simp [hvalue value (by simp [Tree.children]) nofun rfl]
      | _ => rfl
  | _ => rfl

theorem definitionName?_inset (hs : site.In program) (options : Options) (definition : Definition) :
    definitionName? options (site.inset fn) (definition.inset fn) = definitionName? options site definition := by
  unfold definitionName?
  have hname : (site.inset fn).ancestors.findSome? (nameGivenBy (definition.inset fn).call.span) =
      site.ancestors.findSome? (nameGivenBy definition.call.span) := by
    apply findSome?_insetPath
    · intro t ht
      rw [Definition.inset, Tree.inset_span]
      exact h.nameGivenBy_inset _ (hs.ancestor_mem ht)
    · rfl
    · rfl
  rw [hname, inDefaultExport_inset]

theorem giveName_inset (hs : site.In program) (options : Options) (definition : Definition) :
    giveName options (site.inset fn) (definition.inset fn) =
      ((giveName options site definition).1.map (Edit.inset fn.span),
        (giveName options site definition).2.inset fn) := by
  have hmember : (definition.inset fn).hasMember "name" = definition.hasMember "name" := by
    unfold Definition.hasMember Definition.inset
    cases definition.object with
    | none => rfl
    | some object => simp [hasMember_inset h.isFunction]
  unfold giveName
  rw [hmember, h.definitionName?_inset hs]
  split
  · rfl
  · split
    · rfl
    · simp [Definition.unshift_inset]

theorem ofObject_inset {c object : Tree} (ho : object ∈ program.nodes) (hk : object.isObject = true) :
    Definition.ofObject (fn.inset c) (fn.inset object) = (Definition.ofObject c object).inset fn := by
  have hkind := Tree.isObject_iff.mp hk
  unfold Definition.ofObject
  rw [Tree.inset_children]
  cases hcs : object.children with
  | nil =>
    have hedge := (h.edges_inset ho (h.layout.object ho hkind) (by simp [hkind]) (by simp [Tree.isCall, hkind])).1
    simp [Definition.inset, hedge]
  | cons first rest =>
    have hfirst : first ∈ object.children := by rw [hcs]; exact List.mem_cons_self ..
    simp [Definition.inset, Tree.insetPart_of_ne (h.member_ne ho hk hfirst)]

omit h in
theorem unwrap_inset (c object : Tree) : Definition.unwrap (fn.inset c) (fn.inset object) =
    (Definition.unwrap c object).map (Edit.inset fn.span) := by
  simp [Definition.unwrap]

/-! ## Props -/

theorem memberValue_inset {object : Tree} (ho : object ∈ program.nodes) (hk : object.isObject = true)
    (name : String) :
    ((fn.inset object).findMember? name).bind (·.2.value?) =
      ((object.findMember? name).bind (·.2.value?)).map fn.inset := by
  rw [findMember?_inset h.isFunction]
  cases hfind : object.findMember? name with
  | none => rfl
  | some found =>
    obtain ⟨index, property⟩ := found
    have hmem := List.mem_of_getElem? (findMember?_mem hfind).1
    have hprop := Tree.nodes_trans ho (Tree.child_mem_nodes hmem)
    simp only [Option.map_some, Option.bind_some, Tree.insetPart_of_ne (h.member_ne ho hk hmem), Tree.value?_inset]
    cases hvalue : property.value? with
    | none => rfl
    | some value =>
      have hne := h.ne_of_stripParens (h.value_ne hprop (Tree.value?_isProperty hvalue) (Tree.value?_mem hvalue))
      rw [Option.map_some, Option.map_some, Tree.insetPart_of_ne hne]

theorem stripValue_inset {property value : Tree} (hp : property ∈ program.nodes)
    (hv : property.value? = some value) :
    (fn.inset value).stripParens = fn.inset value.stripParens := by
  have hne := h.value_ne hp (Tree.value?_isProperty hv) (Tree.value?_mem hv)
  rw [← Tree.insetPart_of_ne (h.ne_of_stripParens hne), Tree.insetPart_stripParens h.isFunction,
    Tree.insetPart_of_ne hne]

theorem level_inside {props n : Tree} (hp : props ∈ program.nodes) (hk : props.isObject = true)
    (houtside : props.span.contains call.span = false) (hn : n ∈ props.nodes) :
    fn.span.Level n.span.start n.span.stop := by
  have hin := Span.contains_iff.mp (h.layout.contains hp hn)
  have hkind := Tree.isObject_iff.mp hk
  unfold Span.Level
  rcases h.clear (Tree.nodes_trans hp hn) with hclear | hclear | ⟨hstart, hstop⟩ | hclear
  · exact Or.inl hclear
  · exact Or.inr (Or.inr hclear)
  · have hne : props.stripParens ≠ fn := by
      rw [Tree.stripParens_of_kind (by simp [hkind])]
      exact Tree.ne_of_isFunction h.isFunction (by simp [Tree.isFunction, hkind])
    have hcall := h.layout.contains hp (h.around hp hne (by omega) (by omega))
    rw [houtside] at hcall
    cases hcall
  · exact Or.inr (Or.inl hclear)

theorem propName_inset (options : Options) {props member : Tree} (hp : props ∈ program.nodes)
    (hk : props.isObject = true)
    (houtside : props.span.contains call.span = false) (hm : member ∈ props.children) :
    propName options (literalText pre body post) (fn.insetPart member) =
      propName options (bareText pre body post) member := by
  have hmember := Tree.nodes_trans hp (Tree.child_mem_nodes hm)
  have htext : ∀ c ∈ member.children, c ≠ fn → sourceText (literalText pre body post) (fn.insetPart c).span =
      sourceText (bareText pre body post) c.span := by
    intro c hc hne
    have hlevel := h.level_inside hp hk houtside (Tree.mem_nodes_of_child hm (Tree.child_mem_nodes hc))
    rw [Tree.insetPart_of_ne hne, Tree.inset_span]
    rw [h.span] at hlevel ⊢
    exact sourceText_inset hlevel
  have hne : ∀ c ∈ member.children, member.kind ≠ .parenthesized → member.isCall = false → c ≠ fn :=
    fun c hc hparen hcall => h.ne_of_stripParens (h.part_ne hmember hc hparen hcall)
  rw [Tree.insetPart_of_ne (h.member_ne hp hk hm), Tree.inset_eq]
  obtain ⟨kind, span, parts⟩ := member
  cases kind with
  | property access computed shorthand isMethod =>
    match parts with
    | [] => cases computed <;> rfl
    | key :: rest =>
      have hkey := hne key (List.mem_cons_self ..) nofun rfl
      have hkeyText := htext key (List.mem_cons_self ..) hkey
      cases computed with
      | true => exact hkeyText
      | false =>
        have hkind : (fn.insetPart key).kind = key.kind := by rw [Tree.insetPart_of_ne hkey, Tree.inset_kind]
        change propName options _ (.node (.property access false shorthand isMethod) (fn.span.insetSpan span)
          (fn.insetPart key :: rest.map fn.insetPart)) = _
        unfold propName
        dsimp only
        rw [hkind, hkeyText]
  | spread comma =>
    match parts with
    | [] | _ :: _ :: _ => rfl
    | [argument] =>
      have hargument := htext argument (List.mem_cons_self ..) (hne argument (List.mem_cons_self ..) nofun rfl)
      change "...Object.keys(" ++ sourceText _ (fn.insetPart argument).span ++ ")" = _
      rw [hargument]
      rfl
  | _ => rfl

omit h in
theorem props?_eq {definition : Definition} {object : Tree} (hd : definition.object = some object) :
    definition.props? = ((object.findMember? "props").bind (·.2.value?)).bind fun value =>
      if value.stripParens.isObject then some value.stripParens else none := by
  unfold Definition.props?
  rw [hd]
  simp only [Option.bind_eq_bind, Option.bind_some]
  cases object.findMember? "props" <;> rfl

theorem props?_inset {definition : Definition} (hd : definition.In program)
    (hk : ∀ object, definition.object = some object → object.isObject = true) :
    (definition.inset fn).props? = definition.props?.map fn.inset := by
  cases hobject : definition.object with
  | none => simp [Definition.props?, Definition.inset, hobject]
  | some object =>
    have ho := hd.object object hobject
    have hmapped : (definition.inset fn).object = some (fn.inset object) := by simp [Definition.inset, hobject]
    rw [props?_eq hobject, props?_eq hmapped, h.memberValue_inset ho (hk object hobject)]
    cases hvalue : (object.findMember? "props").bind (·.2.value?) with
    | none => rfl
    | some value =>
      obtain ⟨⟨index, property⟩, hfind, hv⟩ := Option.bind_eq_some_iff.mp hvalue
      have hprop := Tree.nodes_trans ho (Tree.child_mem_nodes (List.mem_of_getElem? (findMember?_mem hfind).1))
      simp only [Option.map_some, Option.bind_some, h.stripValue_inset hprop hv, Tree.isObject_inset]
      split <;> rfl

theorem expandProps_inset (options : Options) {definition : Definition} (hd : definition.In program)
    (hk : ∀ object, definition.object = some object → object.isObject = true)
    (houtside : options.production = true → ∀ props, definition.props? = some props →
      props.span.contains call.span = false) :
    (expandProps options (literalText pre body post) .empty (definition.inset fn)).1 =
      (expandProps options (bareText pre body post) .empty definition).1.map (Edit.inset fn.span) := by
  unfold expandProps
  rw [h.props?_inset hd hk]
  cases hprops : definition.props? with
  | none => rfl
  | some props =>
    obtain ⟨hp, ho⟩ := props?_mem hd hprops
    dsimp only [Option.map_some]
    cases hmode : options.mode with
    | development => rfl
    | production =>
      have hout := houtside (by simp [Options.production, hmode]) props hprops
      have hnames : (fn.inset props).children.map (propName options (literalText pre body post)) =
          props.children.map (propName options (bareText pre body post)) := by
        rw [Tree.inset_children, List.map_map]
        apply List.map_congr_left
        intro member hm
        exact h.propName_inset options hp ho hout hm
      simp only [collapseProps]
      rw [hnames]
      simp

end

end Shorthand

end ComponentMacros
