import Sana.Localstore.System

/-
  The localstore with interleaved operations.

  Calls under the lock run as one step.  The update that a read starts runs later, on the item that
  was read, and a collection gives up the lock between its steps.

  Key definitions include:
    * `Collector`
    * `Sys`

  Key theorems include:
    * `CallEffect.of_call`
-/

---- Events

namespace Sana.Localstore

open KeyValue Program Swarm

variable {cfg : Config}

/- How far the collection has come. -/
inductive Collector where
  | idle
  | started
  | sized (gcSize : Nat)
  | scanned (candidates : List Item)
  | committed
  deriving DecidableEq, Repr

/- The steps of `collectGarbage` between its lock regions. -/
def collectStep (cfg : Config) : Collector → Call DB Collector
| .idle => do
    gcBegin
    return .started
| .started => do
    let gcSize ← Call.get fun db => db.store.gcSize
    if gcSize = cfg.gcTarget then return .committed
    else return .sized gcSize
| .sized gcSize => do
    let candidates ← gcIterate cfg gcSize
    return .scanned candidates
| .scanned candidates => do
    let _ ← gcCommit cfg candidates
    return .committed
| .committed => do
    gcFinish
    return .idle

/- The database, the items of reads whose update has not run yet, and the collection. -/
structure Sys where
  db : DB
  reads : List Item := []
  collector : Collector := .idle

def Sys.empty : Sys where
  db := .empty

/- The operations that run as one step. -/
def Op.plain : Op → Bool
| .put _ _ => true
| .set _ _ => true
| .unreserveBatch _ _ => true
| _ => false

/- The addresses that an operation marks as dirty. -/
def Op.touched : Op → List Address
| .put _ chs => chs.map Chunk.address
| .set _ addrs => addrs
| _ => []

inductive Event where
  | call (op : Op)
  | get (addr : Address)
  | updateGC (item : Item)
  | collect

/- When an event can happen. -/
def Event.enabled (sys : Sys) : Event → Prop
| .call op => op.plain = true
| .updateGC item => item ∈ sys.reads
| _ => True

/- The system after an event. -/
def Event.run (cfg : Config) (clock : Clock) (sys : Sys) : Event → Sys
| .call op => { sys with db := ((op.call cfg).run clock sys.db).state }
| .get addr =>
  match ((getItem addr).run clock sys.db).value with
  | .error _ => sys
  | .ok item => { sys with reads := item :: sys.reads }
| .updateGC item =>
  { sys with
    db := ((Localstore.updateGC item).run clock sys.db).state
    reads := sys.reads.erase item }
| .collect =>
  { sys with
    db := ((collectStep cfg sys.collector).run clock sys.db).state
    collector := ((collectStep cfg sys.collector).run clock sys.db).value }

/- One event, successful or not. -/
def SysStep (cfg : Config) (event : Event) (before after : Sys) : Prop :=
  event.enabled before ∧ ∃ clock, event.run cfg clock before = after

/- The states of interleavings whose events are allowed. -/
abbrev SysReachable (cfg : Config) (allowed : Event → Sys → Prop) : Sys → Prop :=
  Reach (SysStep cfg) allowed .empty

/- Some steps of the collection in a row. -/
def collectSteps (cfg : Config) (clock : Clock) : Nat → Collector → DB → Collector × DB
| 0, collector, db => (collector, db)
| count + 1, collector, db =>
  let step := (collectStep cfg collector).run clock db
  collectSteps cfg clock count step.value step.state

/- Uninterrupted steps make up one `collectGarbage`. -/
theorem run_collectGarbage_eq :
    ∃ count,
      collectSteps cfg clock (count + 1) .idle db =
        (.idle, ((collectGarbage cfg).run clock db).state) := by
  by_cases hSize : db.store.gcSize = cfg.gcTarget
  · refine ⟨2, ?_⟩
    simp [collectSteps, collectStep, collectGarbage, gcSnapshot, gcBegin, hSize]
  · refine ⟨4, ?_⟩
    simp [collectSteps, collectStep, collectGarbage, gcSnapshot, gcBegin, gcIterate, hSize]

---- Calls

section

variable {db : DB} {op : Op}

/-
  What a call does, successful or not: it leaves the database as it is, or follows the closed form
  of its operation and marks its addresses as dirty.
-/
structure CallEffect (cfg : Config) (op : Op) (db db' : DB) : Prop where
  gcRunning : db'.gcRunning = db.gcRunning
  dirty : ∀ a ∈ db.dirtyAddresses, a ∈ db'.dirtyAddresses
  store :
    db'.store = db.store ∨
      StoreStep cfg db.store op db'.store ∧
        (db.gcRunning = true → ∀ a ∈ op.touched, a ∈ db'.dirtyAddresses)

theorem markDirty_gcRunning : (db.markDirty addrs).gcRunning = db.gcRunning := by
  unfold DB.markDirty
  split <;> rfl

theorem mem_markDirty_of_mem (hMem : a ∈ db.dirtyAddresses) :
    a ∈ (db.markDirty addrs).dirtyAddresses := by
  unfold DB.markDirty
  split
  · exact List.mem_append_left _ hMem
  · exact hMem

theorem mem_markDirty (hRunning : db.gcRunning = true)
    (hMem : a ∈ addrs) : a ∈ (db.markDirty addrs).dirtyAddresses := by
  unfold DB.markDirty
  rw [if_pos hRunning]
  exact List.mem_append_right _ hMem

/- A call that ends with its addresses marked as dirty. -/
theorem CallEffect.of_markDirty (hStore : s = db.store ∨ StoreStep cfg db.store op s) :
    CallEffect cfg op db { db.markDirty op.touched with store := s } where
  gcRunning := markDirty_gcRunning
  dirty := fun _ => mem_markDirty_of_mem
  store := by
    rcases hStore with hSame | hStep
    · exact Or.inl hSame
    · exact Or.inr ⟨hStep, fun hRunning _ => mem_markDirty hRunning⟩

theorem CallEffect.refl (op : Op) (db : DB) : CallEffect cfg op db db :=
  ⟨rfl, fun _ => id, Or.inl rfl⟩

theorem CallEffect.of_put (mode : ModePut) (chs : List Chunk) (clock : Clock) :
    CallEffect cfg (.put mode chs) db ((put cfg mode chs).run clock db).state := by
  have hLocked :
      CallEffect cfg (.put mode chs) db ((putLocked cfg mode chs).run clock db).state := by
    rw [run_putLocked]
    apply CallEffect.of_markDirty
    unfold planPutLocked Store.afterPut
    by_cases hMode : mode = .unknown
    · simp [hMode]
    · rw [if_neg hMode]
      cases hResult : (planPutAll cfg mode db.store [] chs {} clock).result with
      | error e => exact Or.inl rfl
      | ok st => exact Or.inr (.put mode chs clock st hResult)
  rw [run_put]
  cases fastPathChunk mode chs with
  | none => exact hLocked
  | some ch =>
    dsimp only
    split
    · exact .refl _ db
    · exact hLocked

theorem CallEffect.of_set (mode : ModeSet) (addrs : List Address) (clock : Clock) :
    CallEffect cfg (.set mode addrs) db ((set cfg mode addrs).run clock db).state := by
  by_cases hMode : mode = .unknown
  · have hState :
        ((set cfg mode addrs).run clock db).state =
          { db.markDirty addrs with store := db.store } := by
      have hStore := DB.markDirty_store addrs db
      simp only [Localstore.set, hMode, if_true, Call.run_bind, Call.run_acquire, Call.run_set,
        Call.run_pure, Call.run_release]
      rw [← hStore]
    rw [hState]
    exact CallEffect.of_markDirty (Or.inl rfl)
  · rw [run_set cfg mode addrs hMode]
    apply CallEffect.of_markDirty
    unfold Store.afterSet
    cases hChange : (planSetAll cfg mode db.store addrs clock).change with
    | error e => exact Or.inl rfl
    | ok c => exact Or.inr (.set mode addrs clock c hChange)

theorem CallEffect.of_call (hPlain : op.plain = true) (hCons : db.store.Consistent cfg)
    (clock : Clock) : CallEffect cfg op db ((op.call cfg).run clock db).state := by
  cases op with
  | put mode chs =>
    simp only [Op.call, Call.run_bind, Call.run_pure]
    exact .of_put mode chs clock
  | set mode addrs =>
    simp only [Op.call, Call.run_bind, Call.run_pure]
    exact .of_set mode addrs clock
  | unreserveBatch id radius =>
    simp only [Op.call, Call.run_bind, Call.run_pure, run_unreserveBatch id radius clock db hCons]
    exact ⟨rfl, fun _ hMem => hMem, Or.inr ⟨.unreserveBatch id radius, by simp [Op.touched]⟩⟩
  | getRequest a | collectGarbage => cases hPlain

end

---- Sound Systems

section

/-
  The invariant of interleavings: views are consistent, items that were read carry no access
  timestamp, dirty addresses are logged while a collection runs, and a candidate that is not dirty
  has its gc entry or is stored no longer.
-/
structure Sys.Sound (cfg : Config) (sys : Sys) : Prop where
  consistent : sys.db.store.Consistent cfg
  reads : ∀ item ∈ sys.reads, item.accessTimestamp = 0
  running : sys.collector ≠ .idle → sys.db.gcRunning = true
  candidates :
    ∀ candidates, sys.collector = .scanned candidates →
      ∀ item ∈ candidates,
        item.address ∉ sys.db.dirtyAddresses → (sys.db.store.view item.address).Candidate item

/- The update of a read finds the chunk that was read, if the address can be collected at all. -/
def UpdateFresh (event : Event) (sys : Sys) : Prop :=
  match event with
  | .updateGC item => (sys.db.store.view item.address).Fresh item
  | _ => True

variable {sys : Sys}

/- An address that is not marked keeps its candidates. -/
theorem ViewStep.candidate (hPlain : op.plain = true)
    (hCons : (s.view item.address).Consistent (cfg.po item.address))
    (hNot : item.address ∉ op.touched) (hCandidate : (s.view item.address).Candidate item)
    (hStep : ViewStep cfg s op item.address v) : v.Candidate item := by
  cases hStep with
  | same => exact hCandidate
  | @put mode chs _ _ hView hPins =>
    have hSeen : containsChunk item.address chs = false := by
      simp only [containsChunk, List.any_eq_false, beq_iff_eq]
      intro ch hMem hEq
      exact hNot (List.mem_map.mpr ⟨ch, hMem, hEq.symm⟩)
    rcases hView.untreated hSeen with rfl | ⟨ch, d, -, -, -, hGone⟩
    · exact hCandidate
    · exact Or.inr hGone.data
  | set hMem hView => exact absurd hMem hNot
  | getRequest d hData hTouched | collectGarbage item hGC hGone hPin => cases hPlain
  | unreserveBatch c hVisits hUnpinned =>
    -- a candidate that is stored is not pinned
    rcases hCandidate with hGC | hData
    · rcases hCons.gc _ _ _ hGC with ⟨d, -, -, -, hPin, -⟩
      rcases hUnpinned with ⟨n, hSome, -⟩ | ⟨n, hSome, -⟩ | ⟨n, d, time, hSome, -, -, -, -⟩ <;>
        simp [hPin] at hSome
    · rcases hCons.chunks _ _ hVisits.1 with ⟨d, hSome, -⟩
      rw [hData] at hSome
      cases hSome

theorem sound_of_call (hPlain : op.plain = true) (hSound : sys.Sound cfg)
    (hEffect : CallEffect cfg op sys.db db) : Sys.Sound cfg { sys with db := db } := by
  have hRunning : sys.collector ≠ .idle → db.gcRunning = true := by
    intro hBusy
    rw [hEffect.gcRunning]
    exact hSound.running hBusy
  rcases hEffect.store with hSame | ⟨hStep, hDirty⟩
  · refine ⟨?_, hSound.reads, hRunning, ?_⟩
    · simp only [hSame]
      exact hSound.consistent
    · intro candidates hScanned item hMem hNot
      simp only [hSame]
      exact hSound.candidates candidates hScanned item hMem
        (fun hOld => hNot (hEffect.dirty _ hOld))
  · refine ⟨hStep.consistent hSound.consistent, hSound.reads, hRunning, ?_⟩
    intro candidates hScanned item hMem hNot
    have hBusy : sys.collector ≠ .idle := by
      simp only at hScanned
      simp [hScanned]
    exact (viewStep_of_storeStep hSound.consistent hStep item.address).candidate hPlain
      (hSound.consistent item.address) (fun hTouched =>
        hNot (hDirty (hSound.running hBusy) _ hTouched))
      (hSound.candidates candidates hScanned item hMem (fun hOld => hNot (hEffect.dirty _ hOld)))

/- The view of an address after an update. -/
theorem view_updateGC {s : Store} (hItem : item.accessTimestamp = 0) (now : Nat)
    (a : Address) :
    (item.address ≠ a ∧ (s.writeBatch (planUpdateGC s item now).records).view a = s.view a) ∨
      (item.address = a ∧
        View.Touched item (s.view a)
          ((s.writeBatch (planUpdateGC s item now).records).view a)) := by
  rw [view_writeBatch]
  by_cases hEq : item.address = a
  · subst hEq
    exact Or.inr ⟨rfl, touched_of_planUpdateGC hItem now⟩
  · exact Or.inl ⟨hEq, (about_planUpdateGC now).onView_of_ne hEq _⟩

theorem sound_of_updateGC (clock : Clock) (hMem : item ∈ sys.reads)
    (hFresh : (sys.db.store.view item.address).Fresh item) (hSound : sys.Sound cfg) :
    Sys.Sound cfg ((Event.updateGC item).run cfg clock sys) := by
  have hItem := hSound.reads item hMem
  simp only [Event.run, run_updateGC]
  refine ⟨?_, ?_, ?_, ?_⟩
  · intro a
    rcases view_updateGC (s := sys.db.store) hItem (clock 0) a with ⟨-, hSame⟩ | ⟨rfl, hTouched⟩
    · simp only [hSame]
      exact hSound.consistent a
    · exact hTouched.consistent (hSound.consistent item.address) hFresh
  · intro other hOther
    exact hSound.reads other (List.mem_of_mem_erase hOther)
  · intro hBusy
    exact markDirty_gcRunning.trans (hSound.running hBusy)
  · intro candidates hScanned other hOther hNot
    have hBusy : sys.collector ≠ .idle := by
      simp only at hScanned
      simp [hScanned]
    rcases view_updateGC (s := sys.db.store) hItem (clock 0)
      other.address with ⟨-, hSame⟩ | ⟨hEq, -⟩
    · simp only [hSame]
      exact hSound.candidates candidates hScanned other
        hOther (fun hOld => hNot (mem_markDirty_of_mem hOld))
    · exact absurd (mem_markDirty (hSound.running hBusy) (by simp [hEq])) hNot

/- What a commit does to the view of one address. -/
theorem view_planCommit {s : Store} (hCons : s.Consistent cfg)
    (hCandidates : ∀ item ∈ collected, (s.view item.address).Candidate item) (a : Address) :
    let s' := s.writeBatch (planCommit cfg s collected)
    ((∀ item ∈ collected, item.address ≠ a) ∧ s'.view a = s.view a) ∨
      ((∃ item ∈ collected, item.address = a) ∧ View.Gone (s.view a) (s'.view a) ∧
        (s'.view a).pin = (s.view a).pin) := by
  intro s'
  have hView : s'.view a = onView a (s.view a) (collected.flatMap (collectRecords cfg)) := by
    simp only [s', view_writeBatch, planCommit,
      onView_append, onView_cons, onView_nil, onView_gcSize]
  rw [hView]
  exact view_collect (hCons a) (fun item hMem hEq => hEq ▸ hCandidates item hMem) (Or.inl rfl)

theorem sound_of_collect (hSound : sys.Sound cfg) :
    Sys.Sound cfg (Event.collect.run cfg clock sys) := by
  rcases sys with ⟨db, reads, collector⟩
  cases collector with
  | idle => exact ⟨hSound.consistent, hSound.reads, fun _ => rfl, by simp [Event.run, collectStep]⟩
  | started =>
    have hRunning := hSound.running (by simp)
    by_cases hSize : db.store.gcSize = cfg.gcTarget <;>
      simp only [Event.run, collectStep, Call.run_bind, Call.run_get, hSize, if_true, if_false,
        Call.run_pure]
    · exact ⟨hSound.consistent, hSound.reads, fun _ => hRunning, by simp⟩
    · exact ⟨hSound.consistent, hSound.reads, fun _ => hRunning, by simp⟩
  | sized gcSize =>
    refine ⟨hSound.consistent, hSound.reads, fun _ => hSound.running (by simp), ?_⟩
    intro candidates hScanned item hMem _
    cases hScanned
    exact Or.inl (gc_of_mem_gcCandidates hMem)
  | scanned candidates =>
    simp only [Event.run, collectStep, Call.run_bind, Call.run_pure, run_gcCommit]
    refine ⟨?_, hSound.reads, fun _ => hSound.running (by simp), ?_⟩
    · intro a
      have hCollected :
          ∀ item ∈ gcCollected db.dirtyAddresses candidates,
            (db.store.view item.address).Candidate item := by
        intro item hMem
        simp only [gcCollected, List.mem_filter, Bool.not_eq_true', List.contains_eq_mem,
          decide_eq_false_iff_not] at hMem
        exact hSound.candidates candidates rfl item hMem.1 hMem.2
      rcases view_planCommit hSound.consistent hCollected a with ⟨-, hSame⟩ | ⟨-, hGone, -⟩
      · rw [hSame]
        exact hSound.consistent a
      · exact hGone.consistent
    · intro candidates' hScanned
      cases hScanned
  | committed =>
    exact ⟨hSound.consistent, hSound.reads, fun hBusy => absurd rfl hBusy,
      by simp [Event.run, collectStep]⟩

/- Every event with a fresh update keeps the system sound. -/
theorem SysStep.sound (hSound : sys.Sound cfg)
    (hFresh : UpdateFresh event sys) (hStep : SysStep cfg event sys sys') : sys'.Sound cfg := by
  rcases hStep with ⟨hEnabled, clock, rfl⟩
  cases event with
  | call op =>
    exact sound_of_call hEnabled hSound (CallEffect.of_call hEnabled hSound.consistent clock)
  | get addr =>
    simp only [Event.run, run_getItem]
    cases sys.db.store.retrievalDataIndex.get addr with
    | none => exact hSound
    | some d =>
      refine { hSound with reads := fun item hMem => ?_ }
      rcases List.mem_cons.mp hMem with rfl | hMem
      · rfl
      · exact hSound.reads item hMem
  | updateGC item => exact sound_of_updateGC clock hEnabled hFresh hSound
  | collect => exact sound_of_collect hSound

theorem sound_empty : Sys.empty.Sound cfg where
  consistent := consistent_empty cfg
  reads := by simp [Sys.empty]
  running := by simp [Sys.empty]
  candidates := by simp [Sys.empty]

end

---- Pinned Chunks

/-
  Pinned addresses have no gc entry, and every gc entry carries the access timestamp and the bin ID
  of its chunk.
-/
structure Store.PinIntegrity (s : Store) : Prop where
  pinned : ∀ a, s.pinIndex.has a = true → ∀ key x, s.gcIndex.get key = some x → key.address ≠ a
  keys :
    ∀ key x, s.gcIndex.get key = some x →
      s.retrievalAccessIndex.get key.address = some key.accessTimestamp ∧
        ∃ d, s.retrievalDataIndex.get key.address = some d ∧ d.binID = key.binID

theorem pinIntegrity_of_consistent {s : Store} (hCons : s.Consistent cfg) :
    s.PinIntegrity where
  pinned := by
    rintro a hHas ⟨t, b, address⟩ x hGC rfl
    rcases (hCons address).gc t b x hGC with ⟨d, -, -, -, hPin, -⟩
    have hNone : s.pinIndex.get address = none := hPin
    simp [Index.has, hNone] at hHas
  keys := by
    rintro ⟨t, b, address⟩ x hGC
    rcases (hCons address).gc t b x hGC with ⟨d, hData, hBin, hAccess, -⟩
    exact ⟨hAccess, d, hData, hBin⟩

/-
  In every interleaving in which updates find the chunks that were read, pinned chunks are never
  collectable.
-/
theorem pinned_not_collectable {cfg : Config} {sys : Sys}
    (hReach : SysReachable cfg UpdateFresh sys) : sys.db.store.PinIntegrity := by
  have hSound := hReach.invariant (Sys.Sound cfg) sound_empty
    (fun _ _ _ hSound hFresh hStep => hStep.sound hSound hFresh)
  exact pinIntegrity_of_consistent hSound.consistent

theorem SysReachable.run (hReach : SysReachable cfg allowed sys) (clock : Clock) (event : Event)
    (hAllowed : allowed event sys) (hEnabled : event.enabled sys) :
    SysReachable cfg allowed (event.run cfg clock sys) :=
  .step event hReach hAllowed ⟨hEnabled, clock, rfl⟩

/- A run that caches a chunk and reads it. -/
def cachedReadRun : Sys :=
  (Event.get 1).run smallConfig (fun _ => 1)
    ((Event.call (.put .requestCache [smallChunk 1 0 1])).run smallConfig (fun _ => 1) .empty)

/- The item that was read. -/
def cachedItem : Item :=
  readItem 1
    { binID := 1
      storeTimestamp := 1
      stamp := (smallChunk 1 0 1).stamp
      data := [1] }

/- The update runs at once. -/
theorem pinned_not_collectable_cachedReadRun :
    let sys := (Event.updateGC cachedItem).run smallConfig (fun _ => 2) cachedReadRun
    sys.db.store.gcIndex.get ⟨2, 1, 1⟩ = some ⟨7, 0⟩ ∧ sys.db.store.PinIntegrity := by
  have hRead : SysReachable smallConfig UpdateFresh cachedReadRun :=
    (SysReachable.run .start _ (.call (.put .requestCache [smallChunk 1 0 1]))
      trivial rfl).run _ (.get 1) trivial trivial
  have hEntries : cachedReadRun.db.store.gcIndex.entries = [(⟨1, 1, 1⟩, ⟨7, 0⟩)] := by decide
  refine ⟨by decide, pinned_not_collectable
    (hRead.run (fun _ => 2) (.updateGC cachedItem) ?_ (by unfold Event.enabled; decide))⟩
  intro t b x hGC
  have hMem := (Index.mem_entries_iff _ _ _).mpr hGC
  rw [hEntries] at hMem
  simp only [List.mem_singleton, Prod.mk.injEq, GCKey.mk.injEq] at hMem
  rcases hMem with ⟨⟨-, rfl, -⟩, rfl⟩
  exact ⟨rfl, rfl⟩

/- The steps of a whole collection. -/
def collectedRun (sys : Sys) : Sys :=
  let step := Event.collect.run smallConfig (fun _ => 2)
  step (step (step (step (step sys))))

/- The chunk is collected and stored again. -/
def restoredRun : Sys :=
  (Event.call (.put .requestCache [smallChunk 1 0 1])).run
    smallConfig (fun _ => 2) (collectedRun cachedReadRun)

/- Only then the update runs, and the chunk is pinned. -/
def staleRun : Sys :=
  (Event.call (.set .pin [1])).run smallConfig (fun _ => 4)
    ((Event.updateGC cachedItem).run smallConfig (fun _ => 3) restoredRun)

theorem pinned_collectable_of_stale_update :
    ¬ ∀ (cfg : Config) (sys : Sys),
      SysReachable cfg (fun _ _ => True) sys → sys.db.store.PinIntegrity := by
  intro hAll
  have hRead : SysReachable smallConfig (fun _ _ => True)
        cachedReadRun :=
    (SysReachable.run .start _ (.call (.put .requestCache [smallChunk 1 0 1]))
      trivial rfl).run _ (.get 1) trivial trivial
  have hCollect :
      ∀ sys, SysReachable smallConfig (fun _ _ => True) sys →
        SysReachable smallConfig (fun _ _ => True)
          (Event.collect.run smallConfig (fun _ => 2) sys) :=
    fun _ hReach => hReach.run _ .collect trivial trivial
  have hRestored : SysReachable smallConfig (fun _ _ => True) restoredRun :=
    SysReachable.run (hCollect _ (hCollect _ (hCollect _ (hCollect _ (hCollect _ hRead)))))
      _ (.call (.put .requestCache [smallChunk 1 0 1]))
      trivial rfl
  have hStale : SysReachable smallConfig (fun _ _ => True) staleRun :=
    (hRestored.run _ (.updateGC cachedItem) trivial (by unfold Event.enabled; decide)).run
      _ (.call (.set .pin [1])) trivial rfl
  exact (hAll _ _ hStale).pinned 1 (by decide) ⟨2, 2, 1⟩ ⟨7, 0⟩ (by decide) rfl

end Sana.Localstore
