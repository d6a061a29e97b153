import ComponentMacros.Usage.Queue

/-!
# What a queue conserves

Sites are put into a queue and taken from it in any order of calls, while the
questions that decide what is taken may remember each other. Every site that was
put there is still queued or was handed out, once, and no list is out of order.
-/

namespace ComponentMacros

/-! ## Asking -/

/-- What comes of asking about a list of sites: the questions about the macro with their answers in
order, the picked sites, and all the others. -/
inductive Picks (kind : Macro) : List Site → List (Site × Bool) → List Site → List Site → Prop where
  | nil : Picks kind [] [] [] []
  | other {site : Site} {sites taken kept : List Site} {log : List (Site × Bool)} (hk : site.kind ≠ kind)
    (h : Picks kind sites log taken kept) : Picks kind (site :: sites) log taken (site :: kept)
  | picked {site : Site} {sites taken kept : List Site} {log : List (Site × Bool)} (hk : site.kind = kind)
    (h : Picks kind sites log taken kept) : Picks kind (site :: sites) ((site, true) :: log) (site :: taken) kept
  | left {site : Site} {sites taken kept : List Site} {log : List (Site × Bool)} (hk : site.kind = kind)
    (h : Picks kind sites log taken kept) : Picks kind (site :: sites) ((site, false) :: log) taken (site :: kept)

namespace Picks

variable {kind : Macro} {sites taken kept : List Site} {log : List (Site × Bool)}

theorem asked (h : Picks kind sites log taken kept) : log.map (·.1) = sites.filter (·.kind = kind) := by
  induction h with
  | nil => rfl
  | other hk _ ih => simp [hk, ih]
  | picked hk _ ih => simp [hk, ih]
  | left hk _ ih => simp [hk, ih]

theorem taken_eq (h : Picks kind sites log taken kept) : taken = (log.filter (·.2)).map (·.1) := by
  induction h with
  | nil => rfl
  | other _ _ ih => exact ih
  | picked _ _ ih => simp [ih]
  | left _ _ ih => simp [ih]

theorem kept_own (h : Picks kind sites log taken kept) :
    kept.filter (·.kind = kind) = (log.filter (!·.2)).map (·.1) := by
  induction h with
  | nil => rfl
  | other hk _ ih => simp [hk, ih]
  | picked hk _ ih => simp [ih]
  | left hk _ ih => simp [hk, ih]

theorem kept_other (h : Picks kind sites log taken kept) {other : Macro} (hne : other ≠ kind) :
    kept.filter (·.kind = other) = sites.filter (·.kind = other) := by
  induction h with
  | nil => rfl
  | other _ _ ih => simp [List.filter_cons, ih]
  | picked hk _ ih => simp [hk, hne.symm, ih]
  | left hk _ ih => simp [hk, hne.symm, ih]

end Picks

def recording {σ : Type} (ask : Site → StateM σ Bool) (site : Site) : StateM (σ × List (Site × Bool)) Bool :=
  fun (memory, log) =>
    let (picked, memory) := ask site memory
    (picked, memory, log ++ [(site, picked)])

namespace Usages

variable {σ : Type} {kind : Macro} {ask : Site → StateM σ Bool}

section
variable {site : Site} {sites taken kept : List Site} {memory after memory' : σ}

theorem pick_other (hk : site.kind ≠ kind) (h : pick kind ask sites memory = ((taken, kept), memory')) :
    pick kind ask (site :: sites) memory = ((taken, site :: kept), memory') := by
  simp only [pick, hk, if_false, bind, StateT.bind, h]
  rfl

theorem pick_asked {picked : Bool} (hk : site.kind = kind) (hask : ask site memory = (picked, after))
    (h : pick kind ask sites after = ((taken, kept), memory')) :
    pick kind ask (site :: sites) memory =
      (if picked then (site :: taken, kept) else (taken, site :: kept), memory') := by
  simp only [pick, hk, if_true, bind, StateT.bind, hask, h]
  cases picked <;> rfl

theorem takeAsking_eq {usages : Usages} (h : pick kind ask usages.pending memory = ((taken, kept), memory')) :
    usages.takeAsking kind ask memory = ((taken, { usages with pending := kept }), memory') := by
  simp only [takeAsking, bind, StateT.bind, h]
  rfl

end

theorem pick_recording : ∀ (sites : List Site) (memory : σ) (before : List (Site × Bool)),
    ∃ log taken kept memory', Picks kind sites log taken kept ∧
      pick kind ask sites memory = ((taken, kept), memory') ∧
      pick kind (recording ask) sites (memory, before) = ((taken, kept), memory', before ++ log)
  | [], memory, before => ⟨[], [], [], memory, .nil, rfl, by rw [List.append_nil]; rfl⟩
  | site :: sites, memory, before => by
    by_cases hk : site.kind = kind
    · cases hask : ask site memory with
      | mk picked after =>
        obtain ⟨log, taken, kept, memory', hpicks, hpick, hrecord⟩ :=
          pick_recording sites after (before ++ [(site, picked)])
        have hnote : recording ask site (memory, before) = (picked, after, before ++ [(site, picked)]) := by
          simp [recording, hask]
        rw [List.append_assoc] at hrecord
        cases picked with
        | true =>
          exact ⟨(site, true) :: log, site :: taken, kept, memory', .picked hk hpicks, pick_asked hk hask hpick,
            pick_asked hk hnote hrecord⟩
        | false =>
          exact ⟨(site, false) :: log, taken, site :: kept, memory', .left hk hpicks, pick_asked hk hask hpick,
            pick_asked hk hnote hrecord⟩
    · obtain ⟨log, taken, kept, memory', hpicks, hpick, hrecord⟩ := pick_recording sites memory before
      exact ⟨log, taken, site :: kept, memory', .other hk hpicks, pick_other hk hpick, pick_other hk hrecord⟩

/-- The question is put once about every queued site of the macro and about nothing else, in order. Its
answers say which sites are handed out and which stay. -/
def AsksOnce (usages : Usages) (kind : Macro) (ask : Site → StateM σ Bool) (memory : σ) : Prop :=
  ∃ (log : List (Site × Bool)) (taken : List Site) (rest : Usages) (memory' : σ),
    usages.takeAsking kind ask memory = ((taken, rest), memory') ∧
    usages.takeAsking kind (recording ask) (memory, []) = ((taken, rest), memory', log) ∧
    log.map (·.1) = usages.get kind ∧ taken = (log.filter (·.2)).map (·.1) ∧
    rest.get kind = (log.filter (!·.2)).map (·.1)

theorem takeAsking_picks (usages : Usages) (kind : Macro) (ask : Site → StateM σ Bool) (memory : σ) :
    ∃ log taken kept memory', Picks kind usages.pending log taken kept ∧
      usages.takeAsking kind ask memory = ((taken, { usages with pending := kept }), memory') ∧
      usages.takeAsking kind (recording ask) (memory, []) = ((taken, { usages with pending := kept }),
        memory', log) := by
  obtain ⟨log, taken, kept, memory', hpicks, hpick, hrecord⟩ :=
    @pick_recording _ kind ask usages.pending memory []
  exact ⟨log, taken, kept, memory', hpicks, takeAsking_eq hpick, takeAsking_eq hrecord⟩

theorem asksOnce (usages : Usages) (kind : Macro) (ask : Site → StateM σ Bool) (memory : σ) :
    usages.AsksOnce kind ask memory := by
  obtain ⟨log, taken, kept, memory', hpicks, htake, hrecord⟩ := usages.takeAsking_picks kind ask memory
  exact ⟨log, taken, _, memory', htake, hrecord, hpicks.asked, hpicks.taken_eq, hpicks.kept_own⟩

theorem pick_pure (p : Site → Bool) (memory : σ) : ∀ sites : List Site,
    pick kind (fun site => pure (p site)) sites memory =
      ((sites.filter fun site => site.kind = kind && p site, sites.filter fun site =>
        !(site.kind = kind && p site)), memory)
  | [] => rfl
  | site :: sites => by
    have ih := pick_pure p memory sites
    by_cases hk : site.kind = kind
    · have hask : (pure (p site) : StateM σ Bool) memory = (p site, memory) := rfl
      rw [pick_asked hk hask ih]
      cases hp : p site <;> simp [hk, hp]
    · rw [pick_other hk ih]
      simp [hk]

theorem takeAsking_pure (usages : Usages) (kind : Macro) (p : Site → Bool) (memory : σ) :
    usages.takeAsking kind (fun site => pure (p site)) memory = (usages.takeMatching kind p, memory) := by
  rw [takeAsking_eq (pick_pure p memory usages.pending), takeMatching]

end Usages

/-! ## Calls -/

/-- A call that a queue answers. The memory of a question is whatever it is when the call is made. -/
inductive QueueCall : Type 1 where
  | push (site : Site)
  | take (kind : Macro)
  | takeMatching {σ : Type} (kind : Macro) (ask : Site → StateM σ Bool) (memory : σ)

def QueueCall.kind : QueueCall → Macro
  | .push site => site.kind
  | .take kind => kind
  | .takeMatching kind _ _ => kind

structure Account where
  usages : Usages
  pushed : List Site
  handed : List (Macro × List Site)

namespace Account

def pushedOf (account : Account) (kind : Macro) : List Site :=
  account.pushed.filter (·.kind = kind)

def handedOf (account : Account) (kind : Macro) : List Site :=
  (account.handed.filter (·.1 = kind)).flatMap (·.2)

def apply (account : Account) : QueueCall → Account
  | .push site =>
    { account with usages := account.usages.push site, pushed := account.pushed ++ [site] }
  | .take kind =>
    let (sites, usages) := account.usages.take kind
    { account with usages, handed := account.handed ++ [(kind, sites)] }
  | .takeMatching kind ask memory =>
    let (sites, usages) := (account.usages.takeAsking kind ask memory).1
    { account with usages, handed := account.handed ++ [(kind, sites)] }

def run (calls : List QueueCall) : Account :=
  calls.foldl apply ⟨.empty, [], []⟩

/-- Nothing is lost, nothing is invented, and nothing is out of order. -/
structure Balanced (account : Account) : Prop where
  whole : ∀ kind, (account.usages.get kind ++ account.handedOf kind).Perm (account.pushedOf kind)
  queue : ∀ kind, (account.usages.get kind).Sublist (account.pushedOf kind)
  lists : ∀ entry ∈ account.handed, entry.2.Sublist (account.pushedOf entry.1)
  typeName : account.usages.typeAlias = (account.pushed.find? (·.kind = .type)).map (·.name)

end Account

structure Usages.Hands (usages : Usages) (kind : Macro) (sites : List Site) (rest : Usages) : Prop where
  typeName : rest.typeAlias = usages.typeAlias
  parted : (rest.get kind ++ sites).Perm (usages.get kind)
  list : sites.Sublist (usages.get kind)
  queue : (rest.get kind).Sublist (usages.get kind)
  others : ∀ other, other ≠ kind → rest.get other = usages.get other

theorem Usages.hands_asking {σ : Type} (usages : Usages) (kind : Macro) (ask : Site → StateM σ Bool) (memory : σ) :
    usages.Hands kind (usages.takeAsking kind ask memory).1.1 (usages.takeAsking kind ask memory).1.2 := by
  obtain ⟨log, taken, kept, memory', hpicks, htake, -⟩ := usages.takeAsking_picks kind ask memory
  rw [htake]
  have hget : usages.get kind = log.map (·.1) := hpicks.asked.symm
  have hrest : Usages.get { usages with pending := kept } kind = (log.filter (!·.2)).map (·.1) := hpicks.kept_own
  refine ⟨rfl, ?_, ?_, ?_, fun other hne => hpicks.kept_other hne⟩
  · rw [hget, hrest, hpicks.taken_eq, ← List.map_append]
    apply List.Perm.map
    apply List.perm_append_comm.trans
    exact List.filter_append_perm (·.2) log
  · rw [hget, hpicks.taken_eq]
    exact (List.filter_sublist).map _
  · rw [hget, hrest]
    exact (List.filter_sublist).map _

theorem Usages.hands_take (usages : Usages) (kind : Macro) :
    usages.Hands kind (usages.take kind).1 (usages.take kind).2 := by
  have h := usages.hands_asking kind (fun _ => pure true) ()
  rw [usages.takeAsking_pure kind (fun _ => true) ()] at h
  exact h

namespace Account

variable {account : Account}

theorem Balanced.empty : Balanced ⟨.empty, [], []⟩ :=
  ⟨fun _ => .nil, fun _ => .slnil, by simp, rfl⟩

theorem Balanced.push (h : account.Balanced) (site : Site) : (account.apply (.push site)).Balanced := by
  have hget (kind : Macro) : (account.usages.push site).get kind =
      account.usages.get kind ++ [site].filter (·.kind = kind) := List.filter_append ..
  have hpushed (kind : Macro) : (account.apply (.push site)).pushedOf kind =
      account.pushedOf kind ++ [site].filter (·.kind = kind) := List.filter_append ..
  refine ⟨fun kind => ?_, fun kind => ?_, fun entry hentry => ?_, ?_⟩
  · show ((account.usages.push site).get kind ++ account.handedOf kind).Perm _
    rw [hget, hpushed, List.append_assoc]
    apply (List.Perm.append_left _ List.perm_append_comm).trans
    rw [← List.append_assoc]
    exact (h.whole kind).append_right _
  · show ((account.usages.push site).get kind).Sublist _
    rw [hget, hpushed]
    exact (h.queue kind).append_right _
  · rw [hpushed]
    exact (h.lists entry hentry).trans (List.sublist_append_left ..)
  · show account.usages.typeAlias.or _ = ((account.pushed ++ [site]).find? _).map _
    rw [h.typeName, List.find?_append]
    cases account.pushed.find? (·.kind = .type) with
    | some first => rfl
    | none => by_cases hk : site.kind = .type <;> simp [hk]

theorem Balanced.hand (h : account.Balanced) {kind : Macro} {sites : List Site} {rest : Usages}
    (hrest : account.usages.Hands kind sites rest) :
    Balanced ⟨rest, account.pushed, account.handed ++ [(kind, sites)]⟩ := by
  refine ⟨fun other => ?_, fun other => ?_, fun entry hentry => ?_, hrest.typeName.trans h.typeName⟩
  · by_cases hk : other = kind
    · subst hk
      have hhanded : handedOf ⟨rest, account.pushed, account.handed ++ [(other, sites)]⟩ other =
          account.handedOf other ++ sites := by simp [handedOf]
      rw [hhanded]
      apply (List.Perm.append_left _ List.perm_append_comm).trans
      rw [← List.append_assoc]
      exact (hrest.parted.append_right _).trans (h.whole other)
    · have hhanded : handedOf ⟨rest, account.pushed, account.handed ++ [(kind, sites)]⟩ other =
          account.handedOf other := by simp [handedOf, Ne.symm hk]
      rw [hhanded]
      show (rest.get other ++ _).Perm _
      rw [hrest.others other hk]
      exact h.whole other
  · by_cases hk : other = kind
    · subst hk
      exact hrest.queue.trans (h.queue other)
    · show (rest.get other).Sublist _
      rw [hrest.others other hk]
      exact h.queue other
  · rcases List.mem_append.mp hentry with hentry | hentry
    · exact h.lists entry hentry
    · rw [List.mem_singleton.mp hentry]
      exact hrest.list.trans (h.queue kind)

theorem Balanced.apply (h : account.Balanced) (call : QueueCall) : (account.apply call).Balanced := by
  cases call with
  | push site => exact h.push site
  | take kind => exact h.hand (account.usages.hands_take kind)
  | takeMatching kind ask memory => exact h.hand (account.usages.hands_asking kind ask memory)

theorem apply_others (account : Account) (call : QueueCall) {kind : Macro} (hne : kind ≠ call.kind) :
    (account.apply call).usages.get kind = account.usages.get kind := by
  cases call with
  | push site =>
    have hother : site.kind ≠ kind := fun heq => hne heq.symm
    simp [apply, Usages.get, Usages.push, hother]
  | take own => exact (account.usages.hands_take own).others kind hne
  | takeMatching own ask memory => exact (account.usages.hands_asking own ask memory).others kind hne

theorem run_balanced (calls : List QueueCall) : (run calls).Balanced := by
  suffices ∀ account : Account, account.Balanced → (calls.foldl apply account).Balanced from this _ .empty
  induction calls with
  | nil => exact fun _ h => h
  | cons call calls ih => exact fun account h => ih _ (h.apply call)

end Account

/-- A queue loses no site and invents none, whatever is asked of it. After any calls, what is queued for a
macro and what was handed out for it are together what was put there, each list in the order it was put
there; the first type that was put there gives its name for good. The next call leaves the sites of
other macros alone, and a question is asked once about each site it is for. -/
theorem queue_conserves_sites (calls : List QueueCall) :
    (Account.run calls).Balanced ∧
    (∀ (call : QueueCall) (kind : Macro), kind ≠ call.kind →
      ((Account.run calls).apply call).usages.get kind = (Account.run calls).usages.get kind) ∧
    ∀ {σ : Type} (kind : Macro) (ask : Site → StateM σ Bool) (memory : σ),
      (Account.run calls).usages.AsksOnce kind ask memory :=
  ⟨Account.run_balanced calls, fun call _ hne => Account.apply_others _ call hne,
    fun kind ask memory => Usages.asksOnce _ kind ask memory⟩

end ComponentMacros
