import Mathlib.Data.List.Flatten
import ComponentMacros.Proofs.Insertion
import ComponentMacros.Proofs.Misuse
import ComponentMacros.Proofs.Mixin

/-!
# Merged injections

Each map of injections becomes the option `inject` of its object, or a mixin in the
list of mixins if the object has that option already. The rule of the macro changes
the member of the map and the list of mixins, and nothing else of the object. Maps of
one list come out in the order of their sites. Where each of them is put, a reading
finds an option or a mixin with the map, as far as the place takes one.
-/

namespace ComponentMacros

/-! ## The order of edits -/

section
variable {setting : Setting} {draft : Draft}

theorem hands_in_order {first second : Site} (h : [first, second].Sublist setting.collected.usages.pending)
    (hkind : first.kind ≠ .type) (hsame : second.kind = first.kind) :
    ∃ hand hand' : Hand, hand.site = first ∧ hand'.site = second ∧ [hand, hand'].Sublist setting.hands := by
  have hqueue : [first, second].Sublist (setting.collected.usages.get first.kind) := by
    have hfilter := h.filter fun s => decide (s.kind = first.kind)
    rw [List.filter_cons_of_pos (by simp), List.filter_cons_of_pos (by simp [hsame]), List.filter_nil] at hfilter
    exact hfilter
  have horder : [first, second].Sublist setting.order := by
    refine hqueue.trans (List.sublist_flatten_of_mem (List.mem_map.mpr ⟨first.kind, ?_, rfl⟩))
    exact List.mem_filter.mpr ⟨by cases first.kind <;> decide, decide_eq_true hkind⟩
  have hhands : [first, second].Sublist (setting.hands.map Hand.site) := by
    rw [hands_sites]
    exact horder.trans (List.sublist_append_left ..)
  obtain ⟨hands, hsub, hsites⟩ := List.sublist_map_iff.mp hhands
  match hands, hsites with
  | [hand, hand'], hsites =>
    simp only [List.map_cons, List.map_nil, List.cons.injEq, and_true] at hsites
    exact ⟨hand, hand', hsites.1.symm, hsites.2.symm, hsub⟩

theorem recorded_in_order (hdraft : expansion setting = .ok draft) {first second : Site}
    (h : [first, second].Sublist setting.collected.usages.pending) (hkind : first.kind ≠ .type)
    (hsame : second.kind = first.kind) {es es' : List Edit} (hes : setting.ownEdits first = .ok es)
    (hes' : setting.ownEdits second = .ok es') {e e' : Edit} (he : e ∈ es) (he' : e' ∈ es')
    (hself : e.selects e = false) (hself' : e'.selects e' = false) : [e, e'].Sublist draft.edits := by
  obtain ⟨all, -, rfl⟩ := expansion_edits hdraft
  obtain ⟨hand, hand', rfl, rfl, hsub⟩ := hands_in_order h hkind hsame
  have hpair : [e, e'].Sublist (setting.ledger.flatMap Entry.edits) := by
    rw [ledger_edits]
    refine List.Sublist.trans ?_ (hsub.flatMap _)
    rw [List.flatMap_cons, List.flatMap_cons, hes, hes', List.flatMap_nil, List.append_nil]
    exact List.Sublist.append (List.singleton_sublist.mpr (List.mem_append_left _ he))
      (List.singleton_sublist.mpr (List.mem_append_left _ he'))
  rw [recordAll_eq]
  have hfilter := (hpair.trans (List.sublist_append_left _
    (setting.collected.imports.map (removeImport setting.source)))).filter fun f => !f.selects f
  rw [List.filter_cons_of_pos (by simp [hself]), List.filter_cons_of_pos (by simp [hself']),
    List.filter_nil] at hfilter
  exact hfilter

end

theorem Draft.arranged_in_order {draft : Draft} {range : Span} {nested : Bool} {e e' : Edit}
    (h : [e, e'].Sublist draft.edits) (hp : e.placement = .append) (hp' : e'.placement = .append)
    (hspan : e'.span = e.span) (hin : e.isWithin range nested = true) :
    [e, e'].Sublist (draft.arranged range nested) := by
  have hin' : e'.isWithin range nested = true := by
    unfold Edit.isWithin at hin ⊢
    rw [hp] at hin
    rw [hp', hspan]
    exact hin
  have hwithin := h.filter fun f => f.isWithin range nested
  rw [List.filter_cons_of_pos (by exact hin), List.filter_cons_of_pos (by exact hin'), List.filter_nil] at hwithin
  have hlater := hwithin.filter fun f => decide (f.placement ≠ .prepend)
  rw [List.filter_cons_of_pos (by simp [hp]), List.filter_cons_of_pos (by simp [hp']), List.filter_nil] at hlater
  have hle : e.le e' = true := Edit.le_iff.mpr (Or.inr ⟨by rw [hspan], Or.inr ⟨hp.trans hp'.symm, by simp [hp]⟩⟩)
  unfold arranged Edit.arrange
  rw [Edit.sort_eq]
  exact List.sublist_insertionSort (List.pairwise_pair.mpr hle) (hlater.trans (List.sublist_append_right ..))

/-! ## The edits of a map -/

def mixinAround (mixins : Tree) : String × String :=
  if mixins.stripParens.kind = .array then
    if mixins.stripParens.children.isEmpty then ("", "") else (", ", "")
  else (", ", "]")

def mixinEdit (mixins : Tree) (injections : Span) : Edit :=
  ⟨.append, ⟨mixinEnd mixins, mixinEnd mixins⟩, mixinOf injections (mixinAround mixins).1 (mixinAround mixins).2⟩

theorem addMixin_eq (mixins : Tree) (injections : Span) : addMixin mixins injections =
    (if mixins.stripParens.kind = .array then [] else [.prepend mixins.stripParens.span.start "[..."]) ++
      [mixinEdit mixins injections] := by
  unfold addMixin mixinEdit mixinAround mixinEnd
  by_cases harray : mixins.stripParens.kind = .array
  · cases hlast : mixins.stripParens.children.getLast? with
    | none =>
      have hempty : mixins.stripParens.children = [] := List.getLast?_eq_none_iff.mp hlast
      simp [harray, hempty]
    | some last =>
      have hmore : mixins.stripParens.children.isEmpty = false := by
        cases hchildren : mixins.stripParens.children with
        | nil => rw [hchildren] at hlast; cases hlast
        | cons _ _ => rfl
      simp [harray, hlast, hmore]
  · simp [harray]

section
variable {setting : Setting} {site : Site}

theorem injections_own (hkind : site.kind = .injections) {es : List Edit} (h : setting.ownEdits site = .ok es) :
    ∃ member value, keyedMember site = .ok member ∧ (∃ a c m, member.property.kind = .property a c false m) ∧
      member.property.value? = some value ∧ value.stripParens.isObject = true ∧
      ∀ e, e ∈ es ↔ e ∈ stripInjectionTypes setting.source value.stripParens ++
        moveInjections setting.source member value ∧ e.selects e = false := by
  unfold Setting.ownEdits expandSite at h
  rw [hkind] at h
  cases hex : expandInjections setting.source site with
  | error err => simp only [hex] at h; cases h
  | ok all =>
    simp only [hex] at h
    cases h
    obtain ⟨member, value, hmember, hplain, hvalue, hmap, rfl⟩ := expandInjections_ok hex
    refine ⟨member, value, hmember, hplain, hvalue, hmap, fun e => ?_⟩
    refine mem_recordAll.trans ⟨fun h => h.resolve_left ?_, Or.inr⟩
    exact List.not_mem_nil

theorem removeMember_selects {source : List Char} {members : List Tree} {i : Nat} :
    ∀ e ∈ removeMember source members i, e.selects e = false := by
  intro e he
  obtain ⟨r, -, rfl⟩ := removeMember_mem he
  exact Edit.overwrite_selects ..

theorem stripInjectionTypes_selects {source : List Char} {injections : Tree} :
    ∀ e ∈ stripInjectionTypes source injections, e.selects e = false := by
  intro e he
  obtain ⟨injection, -, he⟩ := List.mem_flatMap.mp he
  split at he
  · cases he
  · simp only at he
    split at he
    · split at he
      · exact removeMember_selects e he
      · cases he
    · cases he

variable {source : List Char} {program : Tree} {member : KeyedMember} {key value : Tree}

theorem moveInjections_selects (hl : Layout source program) (ht : Transfer program member key value)
    (hother : member.property.staticName? ≠ some "mixins") :
    ∀ e ∈ moveInjections source member value, e.selects e = false := by
  have hb := ht.bounds hl
  intro e he
  unfold moveInjections at he
  split at he
  · rw [List.mem_singleton.mp he]
    exact Edit.overwrite_selects ..
  · split at he
    · rename_i hnone
      rw [List.mem_singleton.mp he, ← Bool.not_eq_true, Moves.selects_iff (.inPlace hnone)]
      intro hin
      have := Span.contains_iff.mp hin
      simp only at this
      omega
    · rename_i mixins hmixins
      rcases List.mem_append.mp he with he | he
      · exact removeMember_selects e he
      · rcases addMixin_mem he with rfl | ⟨before, after, rfl⟩
        · exact Edit.prepend_selects ..
        · rw [← Bool.not_eq_true, Moves.selects_iff (.intoList hmixins)]
          intro hin
          simp only [Edit.isWithin, ite_true, Bool.and_eq_true, decide_eq_true_eq] at hin
          -- the list is part of another member
          obtain ⟨other, hmem, hname, hvalue⟩ := memberValue_mem hmixins
          have hlist : mixins ∈ program.nodes :=
            Tree.nodes_trans (Tree.nodes_trans ht.owner (Tree.child_mem_nodes hmem))
            (Tree.child_mem_nodes (Tree.value?_mem hvalue))
          have hend := mixinEnd_bounds hl hlist
          have hin₁ := Span.contains_iff.mp (hl.contains hlist mixins.stripParens_mem)
          have hin₂ := Span.contains_iff.mp (hl.contains (Tree.nodes_trans ht.owner (Tree.child_mem_nodes hmem))
            (Tree.child_mem_nodes (Tree.value?_mem hvalue)))
          rcases (hl.parts ht.owner).eq_or_apart other hmem _ ht.child with rfl | hapart | hapart
          · exact hother hname
          · omega
          · omega

theorem removeMember_apart : ∀ {members : List Tree} {lo hi i : Nat} {e : Edit}, Ordered lo hi members →
    e ∈ removeMember source members i → lo ≤ e.span.start ∧
      ∀ m ∈ members, members[i]? ≠ some m → e.span.Apart m.span
  | [], _, _, i, e, _, he => by simp [removeMember] at he
  | [m], lo, hi, 0, e, hordered, he => by
    simp only [removeMember, List.getElem?_cons_zero, Nat.zero_add, List.getElem?_cons_succ,
      List.getElem?_nil, List.mem_singleton] at he
    rw [he]
    refine ⟨hordered.1, fun n hn hne => absurd ?_ hne⟩
    rw [List.mem_singleton.mp hn]
    rfl
  | [m], _, _, i + 1, e, _, he => by
    rw [removeMember_cons_succ] at he
    simp [removeMember] at he
  | m :: next :: rest, lo, hi, 0, e, hordered, he => by
    simp only [removeMember, List.getElem?_cons_zero, Nat.zero_add, List.getElem?_cons_succ,
      List.mem_singleton] at he
    rw [he]
    refine ⟨hordered.1, fun n hn hne => ?_⟩
    rcases List.mem_cons.mp hn with rfl | hn
    · exact absurd rfl hne
    · have hrest : Ordered next.span.start hi (next :: rest) :=
        ⟨Nat.le_refl _, hordered.2.2.2.1, hordered.2.2.2.2⟩
      exact Or.inl (hrest.bounds n hn).1
  | m :: next :: rest, lo, hi, i + 1, e, hordered, he => by
    rw [removeMember_cons_succ] at he
    obtain ⟨hstart, hothers⟩ := removeMember_apart hordered.2.2 he
    refine ⟨by have := hordered.1; have := hordered.2.1; omega, fun n hn hne => ?_⟩
    rcases List.mem_cons.mp hn with rfl | hn
    · exact Or.inr hstart
    · exact hothers n hn (by simpa using hne)

theorem stripInjectionTypes_inside (hl : Layout source program) {injections : Tree}
    (hi : injections ∈ program.nodes) :
    ∀ e ∈ stripInjectionTypes source injections, injections.span.contains e.span = true := by
  intro e he
  obtain ⟨injection, hinjection, he⟩ := List.mem_flatMap.mp he
  split at he
  · cases he
  · rename_i value hvalue
    simp only at he
    split at he
    · rename_i hobject
      split at he
      · have hnode := Tree.nodes_trans hi (Tree.child_mem_nodes hinjection)
        have hvalue := Tree.nodes_trans (Tree.child_mem_nodes (Tree.value?_mem hvalue)) value.stripParens_mem
        have hspec := Tree.nodes_trans hnode hvalue
        obtain ⟨r, hr, rfl⟩ := removeMember_mem he
        exact Span.contains_trans (hl.contains hi (Tree.nodes_trans (Tree.child_mem_nodes hinjection) hvalue))
          (hl.cut_contains hspec (.member (Tree.isObject_iff.mp hobject) hr))
      · cases he
    · cases he

theorem injections_spare (hl : Layout source program) (ht : Transfer program member key value)
    (hindex : member.object.children[member.index]? = some member.property) {m : Tree}
    (hm : m ∈ member.object.children) (hother : m ≠ member.property) (hname : m.staticName? ≠ some "mixins") :
    ∀ e ∈ stripInjectionTypes source value.stripParens ++ moveInjections source member value,
      e.span.Apart m.span := by
  have hordered := hl.parts ht.owner
  have hb := ht.bounds hl
  have hproperty : ∀ {span : Span}, member.property.span.contains span = true → span.Apart m.span := by
    intro span hin
    rcases hordered.eq_or_apart _ ht.child m hm with heq | hapart
    · exact absurd heq.symm hother
    · exact hapart.mono hin (Span.contains_self _)
  intro e he
  rcases List.mem_append.mp he with he | he
  · have hmap := Tree.nodes_trans ht.value_mem value.stripParens_mem
    refine hproperty (Span.contains_trans ?_ (stripInjectionTypes_inside hl hmap e he))
    exact hl.contains ht.property_mem
      (Tree.nodes_trans (Tree.child_mem_nodes ht.value_child) value.stripParens_mem)
  · unfold moveInjections at he
    split at he
    · rw [List.mem_singleton.mp he]
      exact hproperty (Span.contains_iff.mpr ⟨Nat.le_refl _, by simp only [Edit.overwrite]; omega⟩)
    · split at he
      · rw [List.mem_singleton.mp he]
        exact hproperty (Span.contains_self _)
      · rename_i mixins hmixins
        rcases List.mem_append.mp he with he | he
        · refine (removeMember_apart hordered he).2 m hm ?_
          rw [hindex]
          exact fun heq => hother (Option.some.inj heq).symm
        · -- the list of mixins is part of a third member
          obtain ⟨list, hlist, hcalled, hvalue⟩ := memberValue_mem hmixins
          have hnode := Tree.nodes_trans ht.owner (Tree.child_mem_nodes hlist)
          have hmixinsNode := Tree.nodes_trans hnode (Tree.child_mem_nodes (Tree.value?_mem hvalue))
          have hin₁ := Span.contains_iff.mp (hl.contains hnode (Tree.child_mem_nodes (Tree.value?_mem hvalue)))
          have hin₂ := Span.contains_iff.mp (hl.contains hmixinsNode mixins.stripParens_mem)
          have hpos := hl.ordered (Tree.nodes_trans hmixinsNode mixins.stripParens_mem)
          have hend := mixinEnd_bounds hl hmixinsNode
          have hinside : list.span.contains e.span = true := by
            rcases addMixin_mem he with rfl | ⟨before, after, rfl⟩ <;>
              exact Span.contains_iff.mpr ⟨by simp only [Edit.prepend]; omega, by simp only [Edit.prepend]; omega⟩
          rcases hordered.eq_or_apart list hlist m hm with rfl | hapart
          · exact absurd hcalled hname
          · exact hapart.mono hinside (Span.contains_self _)

theorem Transfer.at_index (ht : Transfer program member key value) (hl : Layout source program) {site : Site}
    (h : keyedMember site = .ok member) : member.object.children[member.index]? = some member.property := by
  obtain ⟨m, hm, hspan⟩ := keyedMember_index h
  have hb := ht.bounds hl
  rw [hm, Option.some.injEq]
  rcases (hl.parts ht.owner).eq_or_apart m (List.mem_of_getElem? hm) _ ht.child with heq | hapart
  · exact heq
  · unfold Span.Apart at hapart
    rw [hspan] at hapart
    omega

end

/-! ## How the places are read -/

/-- A member with the name of the option has what is read behind it as its value. -/
def ReadsOption (back : List Char) : Prop :=
  ∀ (rules : Rules) (s : ReadState), s.StandsAt ("inject".toList ++ ':' :: ' ' :: back) → opensToken back = true →
    ∃ next : ReadState, next.StandsAt back ∧ next.context = s.context ∧
      Reader.objectMember rules s = (rules .assignment next).map fun r =>
        (.node (.property .plain false false false) ⟨s.start.offset, r.2.previous.offset⟩
          [.node (.name "inject") ⟨s.start.offset, s.start.offset + 6⟩ [], r.1], r.2)

/-- A member with the name of the list has a list of one mixin as its value. -/
def ReadsMixinList (map back : List Char) : Prop :=
  ∀ (outer : Context) (depth : Nat) (tree : Nat → Tree) (mark : Bool) (s : ReadState) (c : Char) (rest : List Char),
    opensToken map = true → ReadsText outer.enclosed depth map tree mark (' ' :: '\x7d' :: ']' :: back) →
    s.context = outer.enclosed → c ∈ closers →
    s.StandsAt ("mixins".toList ++ ':' :: ' ' :: '[' :: (mixinText map ++ ']' :: back)) →
    (s.moveTo ⟨back, s.start.offset + 8 + 1 + byteLength (mixinText map) + 1⟩).StandsAt (c :: rest) →
      Reader.objectMember (readersTo (depth + 8)) s =
        some (.node (.property .plain false false false)
            ⟨s.start.offset, s.start.offset + 8 + 1 + byteLength (mixinText map) + 1⟩
            [.node (.name "mixins") ⟨s.start.offset, s.start.offset + 6⟩ [],
              .node .array ⟨s.start.offset + 8, s.start.offset + 8 + 1 + byteLength (mixinText map) + 1⟩
                [mixinTree map tree (s.start.offset + 8 + 1)]],
          (s.moveTo ⟨back, s.start.offset + 8 + 1 + byteLength (mixinText map) + 1⟩).marked mark)

/-- In an empty list the mixin is the only element if the list ends behind it. With another mixin right behind it
there are no elements. -/
def ReadsSole (map back : List Char) : Prop :=
  ∀ (outer : Context) (depth : Nat) (tree : Nat → Tree) (mark : Bool) (s : ReadState), opensToken map = true →
    ReadsText outer.enclosed depth map tree mark (' ' :: '\x7d' :: back) → s.context = outer.enclosed →
    s.StandsAt (mixinText map ++ back) →
      (∀ last, ((s.past (mixinText map) back).marked mark).EndsList last →
        Reader.elementsWithHoles (Reader.spreadable (readersTo (depth + 4))) s =
          some ([mixinTree map tree s.start.offset], last)) ∧
      ∀ rest, (s.past (mixinText map) back).StandsAt ('\x7b' :: rest) →
        Reader.elementsWithHoles (Reader.spreadable (readersTo (depth + 4))) s = none

/-- The elements from the last one on are this element and the mixin. If the last one is a hole, there is another
hole between them. -/
def ReadsElement (map back : List Char) : Prop :=
  ∀ (outer : Context) (depth : Nat) (tree : Nat → Tree) (mark : Bool) (s last : ReadState), opensToken map = true →
    ReadsText outer.enclosed depth map tree mark (' ' :: '\x7d' :: back) →
      (∀ (t : Tree) (next : ReadState), s.token ≠ .punct "]" → s.token ≠ .punct "," →
        Reader.spreadable (readersTo (depth + 4)) s = some (t, next) → next.context = outer.enclosed →
        next.StandsAt (',' :: ' ' :: (mixinText map ++ back)) → next.start.rest.length ≤ s.start.rest.length →
        ((next.moveTo ⟨back, next.start.offset + 2 + byteLength (mixinText map)⟩).marked mark).EndsList last →
          Reader.elementsWithHoles (Reader.spreadable (readersTo (depth + 4))) s =
            some ([t, mixinTree map tree (next.start.offset + 2)], last)) ∧
      (s.StandsAt (',' :: ',' :: ' ' :: (mixinText map ++ back)) → s.context = outer.enclosed →
        ((s.moveTo ⟨back, s.start.offset + 3 + byteLength (mixinText map)⟩).marked mark).EndsList last →
          Reader.elementsWithHoles (Reader.spreadable (readersTo (depth + 4))) s =
            some ([.node .hole ⟨s.start.offset, s.start.offset + 1⟩ [],
              .node .hole ⟨s.start.offset + 1, s.start.offset + 2⟩ [],
              mixinTree map tree (s.start.offset + 3)], last))

/-- Where a value is asked for, what was given is spread into a list before the mixin. Where a member is asked for
there is none, and none either where a name without a colon stands before it. -/
structure ReadsSpread (given map back : List Char) : Prop where
  value : ∀ (outer : Context) (depth : Nat) (tree value : Nat → Tree) (mark mark' : Bool) (s : ReadState),
    opensToken map = true → ReadsText outer.enclosed depth map tree mark (' ' :: '\x7d' :: ']' :: back) →
    opensToken given = true →
    ReadsText outer.enclosed (depth + 4) given value mark' (',' :: ' ' :: (mixinText map ++ ']' :: back)) →
    s.context.enclosed = outer.enclosed →
    s.StandsAt ("[...".toList ++ (given ++ ',' :: ' ' :: (mixinText map ++ ']' :: back))) →
      ∃ stop, stop = s.start.offset + 4 + byteLength given + 2 + byteLength (mixinText map) ∧
        Reader.primary (readersTo (depth + 4)) s =
          some (.node .array ⟨s.start.offset, stop + 1⟩
            [.node (.spread true) ⟨s.start.offset + 1, s.start.offset + 4 + byteLength given⟩
                [value (s.start.offset + 4)],
              mixinTree map tree (s.start.offset + 4 + byteLength given + 2)],
            (s.moveTo ⟨back, stop + 1⟩).marked (mark' || mark))
  member : ∀ (depth : Nat) (s : ReadState),
    s.StandsAt ("[...".toList ++ (given ++ ',' :: ' ' :: (mixinText map ++ ']' :: back))) →
      Reader.objectMember (readersTo depth) s = none
  behindName : ∀ (rules : Rules) (s : ReadState) (name : String) (escaped : Bool), s.token = .word name escaped →
    name ∉ "get" :: "set" :: Reader.modifierWords →
    s.following.StandsAt ("[...".toList ++ (given ++ ',' :: ' ' :: (mixinText map ++ ']' :: back))) →
      Reader.commaStep "\x7d" (Reader.objectMember rules) s = none

theorem readsOption (back : List Char) : ReadsOption back := by
  intro rules s hs hopens
  obtain ⟨next, hmove, hnext, -, hread⟩ := @Reader.objectMember_named rules s "inject" back (by decide) (by decide)
    hopens hs
  exact ⟨next, hnext, by rw [hmove]; rfl, hread⟩

theorem readsMixinList (map back : List Char) : ReadsMixinList map back := by
  intro outer depth tree mark s c rest hopens hmap hcontext hc hs hback
  exact mixins_member hopens hmap hcontext hs hc hback

theorem readsSole (map back : List Char) : ReadsSole map back := by
  intro outer depth tree mark s hopens hmap hcontext hs
  refine ⟨fun last hlast => ?_, fun rest hback => mixin_crowded hopens hmap hcontext hs hback⟩
  obtain ⟨n, hn⟩ : ∃ n, s.start.rest.length + 1 = n + 2 := by
    rw [hs.rest, mixinText_append]
    exact ⟨_, rfl⟩
  rw [Reader.elementsWithHoles_eq, hn]
  exact mixin_last hopens hmap hcontext hs hlast n

theorem readsElement (map back : List Char) : ReadsElement map back := by
  intro outer depth tree mark s last hopens hmap
  refine ⟨fun t next hclose hcomma hitem hcontext hnext hlength hlast => ?_, fun hs hcontext hlast => ?_⟩
  · exact element_then_mixin hopens hmap hclose hcomma hitem hcontext hnext hlength hlast
  · exact hole_then_mixin hopens hmap hs hcontext hlast

theorem readsSpread (given map back : List Char) : ReadsSpread given map back where
  value := by
    intro outer depth tree value mark mark' s hopens hmap hgiven hvalue hcontext hs
    exact mixin_spread hopens hmap hcontext hgiven hvalue hs
  member := fun depth s hs => Reader.objectMember_of_list hs
  behindName := fun rules s name escaped h hname hs => Reader.commaStep_of_list h hname hs.token

/-! ## Where the maps come out -/

def Draft.Appears (draft : Draft) (range : Span) (nested : Bool) (e : Edit) : Prop :=
  if e.placement = .overwrite then range.contains e.span = true ∧ draft.Uncovered range nested e
  else draft.Reaches range nested e

instance (draft : Draft) (range : Span) (nested : Bool) (e : Edit) : Decidable (draft.Appears range nested e) :=
  inferInstanceAs (Decidable (if e.placement = .overwrite then _ else _))

theorem Draft.Appears.replaced {draft : Draft} {range : Span} {nested : Bool} {e : Edit}
    (h : draft.Appears range nested e) (ho : e.placement = .overwrite) :
    range.contains e.span = true ∧ draft.Uncovered range nested e := by
  rwa [Appears, if_pos ho] at h

theorem Draft.Appears.reaches {draft : Draft} {range : Span} {nested : Bool} {e : Edit}
    (h : draft.Appears range nested e) (hp : e.placement ≠ .overwrite) : draft.Reaches range nested e := by
  rwa [Appears, if_neg hp] at h

theorem mixinHead_eq : "\x7b inject: ".toList = mixinHead := by decide

theorem Draft.renderContent_mixinOf {inner : Span → Except RenderError (List Char)} {span : Span}
    {before after : String}
    {content : List Char} (h : renderContent inner (mixinOf span before after) = .ok content) :
    ∃ map, inner span = .ok map ∧ content = before.toList ++ (mixinText map ++ after.toList) := by
  unfold mixinOf at h
  rw [renderContent] at h
  obtain ⟨rest, hrest, h⟩ := bind_eq_ok h
  cases h
  rw [renderContent] at hrest
  obtain ⟨map, hmap, hrest⟩ := bind_eq_ok hrest
  obtain ⟨tail, htail, hrest⟩ := bind_eq_ok hrest
  cases hrest
  rw [renderContent] at htail
  cases htail
  refine ⟨map, hmap, ?_⟩
  rw [String.toList_append, String.toList_append, mixinHead_eq, mixinText]
  simp

def KeyedMember.mixins? (member : KeyedMember) : Option Tree :=
  (member.object.findMember? "mixins").bind (·.2.value?)

/-- A rendering shows the map of a member as an option of its object or as a mixin,
and a reading finds it there. -/
inductive Draft.ShowsInjections (draft : Draft) (depth : Nat) (range : Span) (nested : Bool) (member : KeyedMember)
    (value : Tree) (out : List Char) : Prop where
  | option {front back : List Char} {after : List Edit} (free : member.object.hasMember "inject" = false)
    (shown : draft.ShowsIn depth range nested
      (.overwrite ⟨member.property.span.start, value.span.start⟩ "inject: ")
      front ("inject".toList ++ [':', ' ']) back out after)
    (read : ReadsOption back)
  | list {front map back : List Char} {after : List Edit} (taken : member.object.hasMember "inject" = true)
    (absent : member.mixins? = none) (moved : draft.renderRange depth value.span true = .ok map)
    (shown : draft.ShowsIn depth range nested
      ⟨.overwrite, member.property.span, mixinOf value.span "mixins: [" "]"⟩
      front ("mixins".toList ++ ':' :: ' ' :: '[' :: (mixinText map ++ [']'])) back out after)
    (read : ReadsMixinList map back)
  | sole {mixins : Tree} {front map back : List Char} {after : List Edit}
    (taken : member.object.hasMember "inject" = true) (found : member.mixins? = some mixins)
    (array : mixins.stripParens.kind = .array) (empty : mixins.stripParens.children = [])
    (moved : draft.renderRange depth value.span true = .ok map)
    (shown : draft.ShowsIn depth range nested (mixinEdit mixins value.span) front (mixinText map) back out after)
    (read : ReadsSole map back)
  | element {mixins : Tree} {front map back : List Char} {after : List Edit}
    (taken : member.object.hasMember "inject" = true) (found : member.mixins? = some mixins)
    (array : mixins.stripParens.kind = .array) (more : mixins.stripParens.children ≠ [])
    (moved : draft.renderRange depth value.span true = .ok map)
    (shown : draft.ShowsIn depth range nested (mixinEdit mixins value.span) front
      (',' :: ' ' :: mixinText map) back
      out after)
    (read : ReadsElement map back)
  | spread {mixins : Tree} {front given map back : List Char} {after later : List Edit}
    (taken : member.object.hasMember "inject" = true) (found : member.mixins? = some mixins)
    (other : mixins.stripParens.kind ≠ .array) (moved : draft.renderRange depth value.span true = .ok map)
    (shown : draft.ShowsIn depth range nested (.prepend mixins.stripParens.span.start "[...") front "[...".toList
      (given ++ ',' :: ' ' :: (mixinText map ++ ']' :: back)) out after)
    (closed : draft.ShowsAt (fun r => draft.renderRange depth r true) range.stop
      mixins.stripParens.span.start after
      (mixinEdit mixins value.span) given (',' :: ' ' :: (mixinText map ++ [']'])) back
      (given ++ ',' :: ' ' :: (mixinText map ++ ']' :: back)) later)
    (read : ReadsSpread given map back)

section
variable {draft : Draft} {program : Tree} {member : KeyedMember} {key value : Tree} {depth : Nat} {range : Span}
  {nested : Bool} {out : List Char}

theorem mixin_in_place (htidy : draft.Tidy) {mixins : Tree} (he : mixinEdit mixins value.span ∈ draft.edits)
    (happears : draft.Appears range nested (mixinEdit mixins value.span))
    (hout : draft.renderRange (depth + 1) range nested = .ok out) :
    ∃ front map back after, draft.renderRange depth value.span true = .ok map ∧
      draft.ShowsIn depth range nested (mixinEdit mixins value.span) front
        ((mixinAround mixins).1.toList ++ (mixinText map ++ (mixinAround mixins).2.toList)) back out after := by
  obtain ⟨front, content, back, after, hshows⟩ :=
    htidy.insertion_in_place he (by simp [mixinEdit]) (happears.reaches (by simp [mixinEdit])) hout
  obtain ⟨map, hmap, rfl⟩ := Draft.renderContent_mixinOf hshows.own
  exact ⟨front, map, back, after, hmap, hshows⟩

theorem spread_in_place (htidy : draft.Tidy) (hl : Layout draft.source program) {mixins : Tree}
    (hmixins : mixins ∈ program.nodes) (hother : mixins.stripParens.kind ≠ .array)
    (hedits : ∀ e ∈ addMixin mixins value.span, e ∈ draft.edits ∧ draft.Appears range nested e)
    (hout : draft.renderRange (depth + 1) range nested = .ok out) :
    ∃ front given map back after later, draft.renderRange depth value.span true = .ok map ∧
      draft.ShowsIn depth range nested (.prepend mixins.stripParens.span.start "[...") front "[...".toList
        (given ++ ',' :: ' ' :: (mixinText map ++ ']' :: back)) out after ∧
      draft.ShowsAt (fun r => draft.renderRange depth r true) range.stop mixins.stripParens.span.start after
        (mixinEdit mixins value.span) given (',' :: ' ' :: (mixinText map ++ [']'])) back
        (given ++ ',' :: ' ' :: (mixinText map ++ ']' :: back)) later := by
  rw [addMixin_eq, if_neg hother] at hedits
  obtain ⟨hopening, hopens⟩ := hedits _ (List.mem_cons_self ..)
  obtain ⟨hmixin, happears⟩ := hedits _ (List.mem_append_right _ (List.mem_singleton_self _))
  have hreach := happears.reaches (by simp [mixinEdit])
  have hfirst := hopens.reaches (by simp [Edit.prepend])
  have hend := (mixinEnd_bounds hl hmixins).1
  have hlater : (mixinEdit mixins value.span).le (.prepend mixins.stripParens.span.start "[...") = false := by
    rw [← Bool.not_eq_true, Edit.le_iff]
    simp only [mixinEdit, Edit.prepend, Placement.rank]
    rintro (h | ⟨-, h | ⟨h, -⟩⟩)
    · omega
    · omega
    · cases h
  obtain ⟨front, bracket, given, content, behind, after, later, hshows, hclosed⟩ := htidy.insertions_in_order
    (Draft.pair_arranged hopening hmixin hfirst.1 hreach.1 hlater) (by simp [Edit.prepend])
    (by simp [mixinEdit]) hfirst
    hreach hout
  have hown := hshows.own
  rw [Edit.prepend, Draft.renderContent_ofText] at hown
  cases hown
  obtain ⟨map, hmap, hcontent⟩ := Draft.renderContent_mixinOf hclosed.own
  have htext : content = ',' :: ' ' :: (mixinText map ++ [']']) := by
    rw [hcontent, show mixinAround mixins = (", ", "]") by simp [mixinAround, hother]]
    rfl
  subst htext
  have hback : given ++ (',' :: ' ' :: (mixinText map ++ [']']) ++ behind) =
      given ++ ',' :: ' ' :: (mixinText map ++ ']' :: behind) := by simp
  rw [hback] at hshows hclosed
  exact ⟨front, given, map, behind, after, later, hmap, hshows, hclosed⟩

theorem injections_in_place (htidy : draft.Tidy) (hl : Layout draft.source program)
    (ht : Transfer program member key value)
    (hedits : ∀ e ∈ moveInjections draft.source member value, e ∈ draft.edits)
    (happears : ∀ e ∈ moveInjections draft.source member value, draft.Appears range nested e)
    (hout : draft.renderRange (depth + 1) range nested = .ok out) :
    draft.ShowsInjections depth range nested member value out := by
  have hb := ht.bounds hl
  unfold moveInjections at hedits happears
  cases htaken : member.object.hasMember "inject" with
  | false =>
    simp only [htaken, Bool.not_false, if_true, List.mem_singleton, forall_eq] at hedits happears
    obtain ⟨hrange, hcover⟩ := happears.replaced rfl
    obtain ⟨front, content, back, after, hshows⟩ := htidy.replacement_in_place hedits rfl
      (by simp only [Edit.overwrite]; omega) hrange hcover hout
    have hown := hshows.own
    rw [Edit.overwrite, Draft.renderContent_ofText] at hown
    cases hown
    exact .option htaken hshows (readsOption back)
  | true =>
    simp only [htaken, Bool.not_true, Bool.false_eq_true, if_false] at hedits happears
    cases hfound : member.mixins? with
    | none =>
      rw [KeyedMember.mixins?] at hfound
      simp only [hfound, List.mem_singleton, forall_eq] at hedits happears
      obtain ⟨hrange, hcover⟩ := happears.replaced rfl
      obtain ⟨front, content, back, after, hshows⟩ := htidy.replacement_in_place hedits rfl (by simp only; omega)
        hrange hcover hout
      obtain ⟨map, hmap, rfl⟩ := Draft.renderContent_mixinOf hshows.own
      exact .list htaken hfound hmap hshows (readsMixinList map back)
    | some mixins =>
      have hmixins := hfound
      rw [KeyedMember.mixins?] at hmixins
      simp only [hmixins] at hedits happears
      have hadd : ∀ e ∈ addMixin mixins value.span, e ∈ draft.edits ∧ draft.Appears range nested e :=
        fun e he => ⟨hedits e (List.mem_append_right _ he), happears e (List.mem_append_right _ he)⟩
      by_cases harray : mixins.stripParens.kind = .array
      · rw [addMixin_eq] at hadd
        obtain ⟨hmixin, hreach⟩ := hadd _ (List.mem_append_right _ (List.mem_singleton_self _))
        obtain ⟨front, map, back, after, hmap, hshows⟩ := mixin_in_place htidy hmixin hreach hout
        by_cases hempty : mixins.stripParens.children = []
        · rw [show mixinAround mixins = ("", "") by simp [mixinAround, harray, hempty]] at hshows
          rw [show "".toList ++ (mixinText map ++ "".toList) = mixinText map by simp] at hshows
          exact .sole htaken hfound harray hempty hmap hshows (readsSole map back)
        · rw [show mixinAround mixins = (", ", "") by simp [mixinAround, harray, hempty]] at hshows
          rw [show ", ".toList ++ (mixinText map ++ "".toList) = ',' :: ' ' :: mixinText map by simp] at hshows
          exact .element htaken hfound harray hempty hmap hshows (readsElement map back)
      · obtain ⟨list, hlist, -, hvalue⟩ := memberValue_mem hmixins
        have hnode : mixins ∈ program.nodes :=
          Tree.nodes_trans (Tree.nodes_trans ht.owner (Tree.child_mem_nodes hlist))
          (Tree.child_mem_nodes (Tree.value?_mem hvalue))
        obtain ⟨front, given, map, back, after, later, hmap, hshows, hclosed⟩ :=
          spread_in_place htidy hl hnode harray hadd hout
        exact .spread htaken hfound harray hmap hshows hclosed (readsSpread given map back)

theorem mixins_in_order (htidy : draft.Tidy) {mixins : Tree} {span span' : Span}
    (h : [mixinEdit mixins span, mixinEdit mixins span'].Sublist draft.edits)
    (happears : draft.Appears range nested (mixinEdit mixins span))
    (hout : draft.renderRange (depth + 1) range nested = .ok out) :
    draft.ShowsInOrder depth range nested (mixinEdit mixins span) (mixinEdit mixins span') out := by
  have hreach := happears.reaches (by simp [mixinEdit])
  exact htidy.insertions_in_order (Draft.arranged_in_order h rfl rfl rfl hreach.1) (by simp [mixinEdit])
    (by simp [mixinEdit]) hreach hreach hout

end

theorem mixinEdit_mem {source : List Char} {member : KeyedMember} {value mixins : Tree}
    (htaken : member.object.hasMember "inject" = true) (hfound : member.mixins? = some mixins) :
    mixinEdit mixins value.span ∈ moveInjections source member value := by
  unfold KeyedMember.mixins? at hfound
  unfold moveInjections
  simp only [htaken, hfound, addMixin_eq]
  simp

/-- Every map of injections is merged into its object. The rule of the macro drops the types of the map, changes
its member and the list of mixins, and leaves every other member of the object alone. Whatever a rendering makes
of the program, the map comes out as the option `inject` if the object has none, and as a mixin otherwise: in a
list of its own, as the only element of an empty list, behind the last element of a list, or behind what was
given for the list. A reading finds it there wherever the place takes a value or an element; where the list is
given by a name alone or by a method there is no member, behind a hole is another hole, and two mixins in an
empty list are no elements. Maps that go to one list come out in the order of their sites. -/
theorem injections_merge_where_read {options : Options} {text : String} {program : Tree} {r : Transformed}
    (hparse : parse options.dialect text.toList = some program) (hlayout : Layout text.toList program)
    (hshape : Shape program) (h : transform options text = .ok r) (hactive : options.isInert text = false) :
    ∃ collected draft, collect? options program = some collected ∧
      expansion ⟨options, text.toList, collected⟩ = .ok draft ∧ draft.render = .ok r.code ∧
      ∀ site ∈ collected.usages.pending, site.kind = .injections → ∃ member value, keyedMember site = .ok member ∧
        member.property.value? = some value ∧ value.stripParens.isObject = true ∧
        (∃ es, Setting.ownEdits ⟨options, text.toList, collected⟩ site = .ok es ∧
          ∀ e ∈ es, ∀ m ∈ member.object.children, m ≠ member.property → m.staticName? ≠ some "mixins" →
            e.span.Apart m.span) ∧
        (∀ e ∈ stripInjectionTypes text.toList value.stripParens, e ∈ draft.edits) ∧
        (member.property.staticName? ≠ some "mixins" →
          (∀ e ∈ moveInjections text.toList member value, e ∈ draft.edits) ∧
          (∀ (depth : Nat) (range : Span) (nested : Bool) (out : List Char),
            (∀ e ∈ moveInjections text.toList member value, draft.Appears range nested e) →
            draft.renderRange (depth + 1) range nested = .ok out →
              draft.ShowsInjections depth range nested member value out) ∧
          ∀ later, [site, later].Sublist collected.usages.pending → later.kind = .injections →
            ∀ member' value' mixins, keyedMember later = .ok member' → member'.property.value? = some value' →
            member'.property.staticName? ≠ some "mixins" → member.object.hasMember "inject" = true →
            member'.object.hasMember "inject" = true → member.mixins? = some mixins →
              member'.mixins? = some mixins →
            ∀ (depth : Nat) (range : Span) (nested : Bool) (out : List Char),
              draft.Appears range nested (mixinEdit mixins value.span) →
              draft.renderRange (depth + 1) range nested = .ok out →
                draft.ShowsInOrder depth range nested (mixinEdit mixins value.span) (mixinEdit mixins value'.span)
                  out) := by
  obtain ⟨collected, draft, hcollect, hdraft, hcode⟩ := transform_active hparse h hactive
  have hrecorded := expansion_recorded hlayout.root hcollect hdraft
  have htidy := hrecorded.tidy hlayout
  refine ⟨collected, draft, hcollect, hdraft, hcode, fun site hs hkind => ?_⟩
  have hin := collect?_sites hcollect site hs
  obtain ⟨entry, hentry, hown⟩ := own_entry hdraft hs (by rw [hkind]; decide)
  obtain ⟨member, value, hmember, hplain, hvalue, hmap, hes⟩ := injections_own hkind hown
  obtain ⟨key, ht, -⟩ := keyedMember_transfer hlayout hshape hin hmember hplain hvalue hmap
  have hrecord :
    ∀ e ∈ stripInjectionTypes text.toList value.stripParens ++ moveInjections text.toList member value,
      e.selects e = false → e ∈ draft.edits :=
    fun e he hself => entry_recorded hdraft hentry ((hes e).mpr ⟨he, hself⟩) hself
  refine ⟨member, value, hmember, hvalue, hmap, ⟨entry.edits, hown, fun e he m hm hother hname => ?_⟩,
    fun e he => ?_, fun hother => ⟨fun e he => ?_, fun depth range nested out happears hout => ?_, ?_⟩⟩
  · exact injections_spare hlayout ht (ht.at_index hlayout hmember) hm hother hname e ((hes e).mp he).1
  · exact hrecord e (List.mem_append_left _ he) (stripInjectionTypes_selects e he)
  · exact hrecord e (List.mem_append_right _ he) (moveInjections_selects hlayout ht hother e he)
  · have hmoved : ∀ e ∈ moveInjections text.toList member value, e ∈ draft.edits := fun e he =>
      hrecord e (List.mem_append_right _ he) (moveInjections_selects hlayout ht hother e he)
    have hsource := hrecorded.source_eq
    rw [← hsource] at hmoved happears
    exact injections_in_place htidy (hsource ▸ hlayout) ht hmoved happears hout
  · intro later hsub hlater member' value' mixins hmember' hvalue' hother' htaken htaken' hfound hfound' depth
      range nested
      out happears hout
    have hlast : later ∈ collected.usages.pending := hsub.subset (by simp)
    obtain ⟨entry', hentry', hown'⟩ := own_entry hdraft hlast (by rw [hlater]; decide)
    obtain ⟨m, v, hm, hplain', hv, hmap', hes'⟩ := injections_own hlater hown'
    cases hmember'.symm.trans hm
    cases hvalue'.symm.trans hv
    obtain ⟨key', ht', -⟩ :=
      keyedMember_transfer hlayout hshape (collect?_sites hcollect later hlast) hmember' hplain' hvalue' hmap'
    have hmem : mixinEdit mixins value.span ∈ moveInjections text.toList member value :=
      mixinEdit_mem htaken hfound
    have hmem' : mixinEdit mixins value'.span ∈ moveInjections text.toList member' value' :=
      mixinEdit_mem htaken' hfound'
    have hself := moveInjections_selects hlayout ht hother _ hmem
    have hself' := moveInjections_selects hlayout ht' hother' _ hmem'
    refine mixins_in_order htidy ?_ happears hout
    exact recorded_in_order hdraft hsub (by rw [hkind]; decide) (hlater.trans hkind.symm) hown hown'
      ((hes _).mpr ⟨List.mem_append_right _ hmem, hself⟩) ((hes' _).mpr ⟨List.mem_append_right _ hmem', hself'⟩)
        hself hself'

def injectionSample : String :=
  "import \x7bINJECTIONS as I\x7d from 'm.macro';\nA = \x7b[I]: \x7ba: \x7btype: 1\x7d\x7d\x7d;\n" ++
    "B = \x7binject: 0, mixins, [I]: \x7b\x7d\x7d;"

def showsMaps (text : List Char) (collected : Collected) (draft : Draft) : Bool :=
  let members := (collected.usages.get .injections).filterMap fun site => (keyedMember site).toOption
  decide (members.map (·.object.hasMember "inject") = [false, true]) &&
    (collected.usages.get .injections).all fun site => (keyedMember site).toOption.any fun member =>
      decide (member.property.staticName? ≠ some "mixins") && member.property.value?.any fun value =>
        (moveInjections text member value).all fun e => decide (draft.Appears ⟨0, byteLength text⟩ false e)

theorem injections_merge_where_read_shorthand : ∃ program r collected draft,
    parse (Options.dialect {}) injectionSample.toList = some program ∧ Layout injectionSample.toList program ∧
    Shape program ∧ transform {} injectionSample = .ok r ∧ Options.isInert {} injectionSample = false ∧
    collect? {} program = some collected ∧ expansion ⟨{}, injectionSample.toList, collected⟩ = .ok draft ∧
    showsMaps injectionSample.toList collected draft = true ∧
    ∀ site ∈ collected.usages.get .injections, ∃ member value, keyedMember site = .ok member ∧
      member.property.value? = some value ∧
      draft.ShowsInjections draft.edits.length ⟨0, byteLength injectionSample.toList⟩ false member value
        r.code.toList := by
  have hsample : ((parse (Options.dialect {}) injectionSample.toList).any fun program =>
      decide (Layout injectionSample.toList program) && decide (Shape program) &&
        (collect? {} program).any fun collected => (expansion ⟨{}, injectionSample.toList, collected⟩).toOption.any
          (showsMaps injectionSample.toList collected)) = true ∧
      ((transform {} injectionSample).toOption.any (·.changed)) = true := by decide +kernel
  obtain ⟨hgood, hok⟩ := hsample
  simp only [Option.any_eq_true, Bool.and_eq_true, decide_eq_true_eq] at hgood hok
  obtain ⟨program, hparse, ⟨hlayout, hshape⟩, collected, hcollect, draft, hdraft, hshows⟩ := hgood
  obtain ⟨r, hr, hchanged⟩ := hok
  have hr := toOption_eq_some hr
  have hdraft := toOption_eq_some hdraft
  have hactive := not_isInert_of_changed hr hchanged
  obtain ⟨collected', draft', hcollect', hdraft', hcode, hmaps⟩ :=
    injections_merge_where_read hparse hlayout hshape hr hactive
  cases hcollect.symm.trans hcollect'
  cases hdraft.symm.trans hdraft'
  refine ⟨program, r, collected, draft, hparse, hlayout, hshape, hr, hactive, hcollect, hdraft, hshows,
    fun site hs => ?_⟩
  obtain ⟨hpending, hkind⟩ := List.mem_filter.mp hs
  obtain ⟨member, value, hmember, hvalue, -, -, -, hmoves⟩ := hmaps site hpending (of_decide_eq_true hkind)
  unfold showsMaps at hshows
  rw [Bool.and_eq_true, List.all_eq_true] at hshows
  have hsite := hshows.2 site hs
  rw [hmember] at hsite
  simp only [Except.toOption, Option.any_some, hvalue, Bool.and_eq_true, decide_eq_true_eq,
    List.all_eq_true] at hsite
  obtain ⟨-, hshown, -⟩ := hmoves hsite.1
  refine ⟨member, value, hmember, hvalue, hshown _ _ _ _ hsite.2 ?_⟩
  rw [← (expansion_recorded hlayout.root hcollect hdraft).source_eq]
  exact Draft.render_eq_ok hcode

end ComponentMacros
