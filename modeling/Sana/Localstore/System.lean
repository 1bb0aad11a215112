import Sana.Localstore.CollectEffect
import Sana.Program.Reach

/-
  The localstore as a system of operations, each of which runs without interruption.

  `Step` executes the modelled calls.  `StoreStep` says what a successful operation can do to the
  database, in closed form; every invariant is derived from it.

  Key definitions include:
    * `Op`
    * `Step`

  Key theorems include:
    * `storeStep_of_step`
-/

---- Operations

namespace Sana.Localstore

open KeyValue Program Swarm

variable {cfg : Config}

/-
  The operations.  `getRequest` is a read in request mode together with the update of the gc index
  that it starts.
-/
inductive Op where
  | put (mode : ModePut) (chs : List Chunk)
  | set (mode : ModeSet) (addrs : List Address)
  | getRequest (addr : Address)
  | unreserveBatch (id : BatchID) (radius : Nat)
  | collectGarbage

/- Whether a call returned no error. -/
def succeeded {α : Type} : Except Err α → Bool
| .ok _ => true
| .error _ => false

/- An operation, returning whether it was successful. -/
def Op.call (cfg : Config) : Op → Call DB Bool
| .put mode chs => do
    let result ← Localstore.put cfg mode chs
    return succeeded result
| .set mode addrs => do
    let result ← Localstore.set cfg mode addrs
    return succeeded result
| .getRequest addr => do
    match ← getItem addr with
    | .error _ => return false
    | .ok item =>
      updateGC item
      return true
| .unreserveBatch id radius => do
    let _ ← Localstore.unreserveBatch id radius
    return true
| .collectGarbage => do
    let _ ← Localstore.collectGarbage cfg
    return true

/- A successful operation, with some readings of the clock. -/
def Step (cfg : Config) (op : Op) (before after : DB) : Prop :=
  ∃ clock,
    ((op.call cfg).run clock before).value = true ∧ ((op.call cfg).run clock before).state = after

/- A new localstore. -/
def DB.empty : DB where
  store := .empty

/- The states of runs whose operations are all allowed. -/
abbrev Reachable (cfg : Config) (allowed : Op → DB → Prop) : DB → Prop :=
  Reach (Step cfg) allowed .empty

/- No collection is running. -/
structure DB.Idle (db : DB) : Prop where
  gcRunning : db.gcRunning = false
  dirtyAddresses : db.dirtyAddresses = []

theorem DB.Idle.markDirty {db : DB} (hIdle : db.Idle) (addrs : List Address) :
    db.markDirty addrs = db := by
  simp [DB.markDirty, hIdle.gcRunning]

---- Closed Form Of Steps

section

/- The item that reading a stored chunk yields. -/
def readItem (a : Address) (d : RetrievalData) : Item where
  address := a
  data := d.data
  storeTimestamp := d.storeTimestamp
  binID := d.binID
  batchID := d.stamp.batchID
  index := d.stamp.index
  timestamp := d.stamp.timestamp
  sig := d.stamp.sig

theorem run_getItem (a : Address) (clock : Clock) (db : DB) :
    (getItem a).run clock db = ⟨match db.store.retrievalDataIndex.get a with
        | none => .error .notFound
        | some d => .ok (readItem a d), clock, db⟩ := by
  unfold getItem
  cases hData : db.store.retrievalDataIndex.get a <;>
    simp [Store.getRetrievalData, hData, readItem, addressToItem]

/- What a successful operation can do to the database. -/
inductive StoreStep (cfg : Config) (s : Store) : Op → Store → Prop where
  | putExisting (mode : ModePut) (ch : Chunk) (hMode : mode ≠ .uploadPin)
      (hData : s.retrievalDataIndex.has ch.address = true) : StoreStep cfg s (.put mode [ch]) s
  | put (mode : ModePut) (chs : List Chunk) (clock : Clock) (st : PutState)
      (hResult : (planPutAll cfg mode s [] chs {} clock).result = .ok st) :
      StoreStep cfg s (.put mode chs) (s.writeBatch (st.allRecords s))
  | set (mode : ModeSet) (addrs : List Address) (clock : Clock) (c : Int)
      (hChange : (planSetAll cfg mode s addrs clock).change = .ok c) :
      StoreStep cfg s (.set mode addrs)
        (s.writeBatch
          ((planSetAll cfg mode s addrs clock).records ++ sizeRecords .gcSize s.gcSize c))
  | getRequest (a : Address) (d : RetrievalData) (now : Nat)
      (hData : s.retrievalDataIndex.get a = some d) :
      StoreStep cfg s (.getRequest a) (s.writeBatch (planUpdateGC s (readItem a d) now).records)
  | unreserveBatch (id : BatchID) (radius : Nat) :
      StoreStep cfg s (.unreserveBatch id radius) (s.afterUnreserve id radius)
  | collectNothing : StoreStep cfg s .collectGarbage s
  | collectGarbage (candidates : List Item) (hSnapshot : planSnapshot cfg s = some candidates) :
      StoreStep cfg s .collectGarbage (s.writeBatch (planCommit cfg s candidates))

variable {db db' : DB}

/- Calls leave no collection running, successful or not. -/

theorem DB.Idle.put (hIdle : db.Idle) (mode : ModePut) (chs : List Chunk) (clock : Clock) :
    ((put cfg mode chs).run clock db).state.Idle := by
  have hLocked : ((putLocked cfg mode chs).run clock db).state.Idle := by
    rw [run_putLocked, hIdle.markDirty]
    exact ⟨hIdle.gcRunning, hIdle.dirtyAddresses⟩
  rw [run_put]
  cases fastPathChunk mode chs with
  | none => exact hLocked
  | some ch =>
    dsimp only
    split
    · exact hIdle
    · exact hLocked

theorem DB.Idle.set (hIdle : db.Idle) (mode : ModeSet) (addrs : List Address) (clock : Clock) :
    ((set cfg mode addrs).run clock db).state.Idle := by
  by_cases hMode : mode = .unknown
  · simpa [Localstore.set, hMode, hIdle.markDirty] using hIdle
  · rw [run_set cfg mode addrs hMode, hIdle.markDirty]
    exact ⟨hIdle.gcRunning, hIdle.dirtyAddresses⟩

theorem fastPathChunk_eq_some
    (hFast : fastPathChunk mode chs = some ch) : chs = [ch] ∧ mode ≠ .uploadPin := by
  unfold fastPathChunk at hFast
  split at hFast
  · split at hFast
    · next hMode =>
        cases hFast
        exact ⟨rfl, hMode.2⟩
    · cases hFast
  · cases hFast

theorem storeStep_of_put (hOk : succeeded ((put cfg mode chs).run clock db).value = true) :
    StoreStep cfg db.store (.put mode chs) ((put cfg mode chs).run clock db).state.store := by
  have hLocked : succeeded ((putLocked cfg mode chs).run clock db).value = true →
      StoreStep cfg db.store (.put mode chs)
        ((putLocked cfg mode chs).run clock db).state.store := by
    intro hOk
    rw [run_putLocked] at hOk ⊢
    unfold planPutLocked Store.afterPut at *
    split at hOk
    · cases hOk
    · next hMode =>
        cases hResult : (planPutAll cfg mode db.store [] chs {} clock).result with
        | error e => simp [hResult, Except.map, succeeded] at hOk
        | ok st =>
          have hStep := StoreStep.put mode chs clock st hResult
          simpa [hMode, hResult] using hStep
  rw [run_put] at hOk ⊢
  cases hFast : fastPathChunk mode chs with
  | none =>
    simp only [hFast] at hOk
    exact hLocked hOk
  | some ch =>
    rcases fastPathChunk_eq_some hFast with ⟨rfl, hMode⟩
    simp only [hFast] at hOk ⊢
    by_cases hHas : db.store.retrievalDataIndex.has ch.address = true
    · rw [if_pos hHas]
      exact .putExisting mode ch hMode hHas
    · rw [if_neg hHas] at hOk ⊢
      exact hLocked hOk

theorem storeStep_of_set (hOk : succeeded ((set cfg mode addrs).run clock db).value = true) :
    StoreStep cfg db.store (.set mode addrs) ((set cfg mode addrs).run clock db).state.store := by
  by_cases hMode : mode = .unknown
  · subst hMode
    simp [Localstore.set, succeeded] at hOk
  rw [run_set cfg mode addrs hMode] at hOk ⊢
  cases hChange : (planSetAll cfg mode db.store addrs clock).change with
  | error e => simp [hChange, Except.map, succeeded] at hOk
  | ok c =>
    have hStep := StoreStep.set mode addrs clock c hChange
    simpa [Store.afterSet, hChange] using hStep

/- In a consistent database, between two collections, every operation follows its closed form. -/
theorem storeStep_of_step (hIdle : db.Idle) (hCons : db.store.Consistent cfg)
    (hStep : Step cfg op db db') : StoreStep cfg db.store op db'.store ∧ db'.Idle := by
  rcases hStep with ⟨clock, hOk, rfl⟩
  cases op with
  | put mode chs =>
    simp only [Op.call, Call.run_bind, Call.run_pure] at hOk ⊢
    exact ⟨storeStep_of_put hOk, hIdle.put mode chs clock⟩
  | set mode addrs =>
    simp only [Op.call, Call.run_bind, Call.run_pure] at hOk ⊢
    exact ⟨storeStep_of_set hOk, hIdle.set mode addrs clock⟩
  | getRequest a =>
    simp only [Op.call, Call.run_bind, run_getItem] at hOk ⊢
    cases hData : db.store.retrievalDataIndex.get a with
    | none => simp [hData] at hOk
    | some d =>
      simp only [Call.run_bind, Call.run_pure, run_updateGC, hIdle.markDirty]
      exact ⟨.getRequest a d (clock 0) hData, hIdle.gcRunning, hIdle.dirtyAddresses⟩
  | unreserveBatch id radius =>
    simp only [Op.call, Call.run_bind, Call.run_pure, run_unreserveBatch id radius clock db hCons]
    exact ⟨.unreserveBatch id radius, hIdle.gcRunning, hIdle.dirtyAddresses⟩
  | collectGarbage =>
    simp only [Op.call, Call.run_bind, Call.run_pure, Localstore.collectGarbage, run_gcSnapshot]
    cases hSnapshot : planSnapshot cfg db.store with
    | none => exact ⟨.collectNothing, rfl, rfl⟩
    | some candidates =>
      simp only [Call.run_bind, Call.run_pure, run_gcCommit, run_gcFinish,
        hIdle.dirtyAddresses, gcCollected]
      have hStep := StoreStep.collectGarbage candidates hSnapshot
      refine ⟨?_, rfl, rfl⟩
      simpa using hStep

end

---- Steps Seen From One Address

section

/- Whether an operation is a user's pin of an address. -/
def Op.userPins (op : Op) (a : Address) : Bool :=
  match op with
  | .put .uploadPin chs => containsChunk a chs
  | .set .pin addrs => addrs.contains a
  | _ => false

/- What a successful operation can do to one view. -/
inductive ViewStep (cfg : Config) (s : Store) : Op → Address → View → Prop where
  | same (op : Op) (a : Address) (hPlain : op.userPins a = false) : ViewStep cfg s op a (s.view a)
  | put {mode : ModePut} {chs : List Chunk} {a : Address} {v : View}
      (hView : PutView cfg mode s chs a v)
      (hPins :
        mode = .uploadPin → containsChunk a chs = true →
          (∀ ch ∈ chs, s.displaced ch ≠ some a) → v.pin = some ((s.view a).pins + 1)) :
      ViewStep cfg s (.put mode chs) a v
  | set {mode : ModeSet} {addrs : List Address} {a : Address} {v : View} (hMem : a ∈ addrs)
      (hView : SetView mode (s.view a) v) : ViewStep cfg s (.set mode addrs) a v
  | getRequest {a : Address} {v : View} (d : RetrievalData)
      (hData : s.retrievalDataIndex.get a = some d)
      (hTouched : View.Touched (readItem a d) (s.view a) v) : ViewStep cfg s (.getRequest a) a v
  | unreserveBatch {id : BatchID} {radius : Nat} {a : Address} {v : View} (c : Int)
      (hVisits : s.visits cfg id radius a) (hUnpinned : View.Unpinned (s.view a) c v) :
      ViewStep cfg s (.unreserveBatch id radius) a v
  | collectGarbage {a : Address} {v : View} (item : Item)
      (hGC : (s.view a).gc item.accessTimestamp item.binID = some ⟨item.batchID, item.index⟩)
      (hGone : View.Gone (s.view a) v) (hPin : v.pin = (s.view a).pin) :
      ViewStep cfg s .collectGarbage a v

variable {s s' : Store} {op : Op}

/- Bin IDs and counters are not part of any view. -/
theorem onView_allRecords (st : PutState) (a : Address) (v : View) :
    onView a v (st.allRecords s) = onView a v st.batch := by
  have hBinIDs : ∀ w, onView a w (st.binIDs.entries.map fun entry =>
          Write.binID entry.1 entry.2) = w := by
    apply onView_of_forall_ne
    intro record hMem
    rcases List.mem_map.mp hMem with ⟨entry, -, rfl⟩
    simp [Write.address]
  have hSize := fun w => onView_sizeRecords a w (show ∀ n, (Write.gcSize n).address = none from
        fun _ => rfl) s.gcSize st.gcSizeChange
  simp only [PutState.allRecords, onView_append, hBinIDs, hSize]

/- The address that was read is fresh by consistency. -/
theorem fresh_readItem
    (hCons : (s.view a).Consistent po) (hData : s.retrievalDataIndex.get a = some d) :
    (s.view a).Fresh (readItem a d) := by
  intro t b x hGC
  rcases hCons.gc t b x hGC with ⟨d', hData', hBin, -, -, hBatch⟩
  have hSame : d = d' := Option.some.inj (hData.symm.trans hData')
  subst hSame
  exact ⟨hBin.symm, hBatch⟩

theorem viewStep_of_storeStep (hCons : s.Consistent cfg) (hStep : StoreStep cfg s op s')
    (a : Address) : ViewStep cfg s op a (s'.view a) := by
  have hSize := fun w c => onView_sizeRecords a w (show ∀ n, (Write.gcSize n).address = none from
        fun _ => rfl) s.gcSize c
  cases hStep with
  | putExisting mode ch hMode hData =>
    refine .same _ a ?_
    cases mode <;> simp_all [Op.userPins]
  | put mode chs clock st hResult =>
    rw [view_writeBatch, onView_allRecords]
    refine .put (putView_planPutAll hCons hResult) ?_
    rintro rfl hMem hKept
    exact pin_planPutAll_uploadPin hResult hKept hMem
  | set mode addrs clock c hChange =>
    rw [view_writeBatch, onView_append, hSize]
    rcases view_planSetAll (hCons a) hChange with
      ⟨hNot, hSame⟩ | ⟨hMem, now, c', hFirst, hView⟩
    · rw [hSame]
      refine .same _ a ?_
      cases mode <;> simp [Op.userPins, hNot]
    · rw [hView]
      exact .set hMem (setView_of_planSet (hCons a) hFirst)
  | getRequest b d now hData =>
    rw [view_writeBatch]
    by_cases hEq : b = a
    · subst hEq
      exact .getRequest d hData (touched_of_planUpdateGC rfl now)
    · have hAbout : About b (planUpdateGC s (readItem b d) now).records := about_planUpdateGC now
      rw [hAbout.onView_of_ne hEq]
      exact .same _ a rfl
  | unreserveBatch id radius =>
    rw [view_afterUnreserve hCons]
    split
    · next hVisits =>
        rcases (hCons a).chunks _ _ hVisits.1 with ⟨d, hData, -⟩
        rcases unpinView_cases (hCons a) (by rw [hData]; simp) with ⟨-, hSame⟩ | ⟨c, -, hUnpinned⟩
        · rw [hSame]
          exact .same _ a rfl
        · exact .unreserveBatch c hVisits hUnpinned
    · exact .same _ a rfl
  | collectNothing => exact .same _ a rfl
  | collectGarbage candidates hSnapshot =>
    have hCandidates : ∀ item ∈ candidates, item.address = a → (s.view a).Candidate item := by
      rintro item hMem rfl
      exact Or.inl (gc_of_mem_planSnapshot hSnapshot hMem)
    rw [view_writeBatch, planCommit, onView_append]
    rcases view_collect (hCons a) hCandidates (Or.inl rfl) with
      ⟨-, hSame⟩ | ⟨⟨item, hMem, hAddr⟩, hGone, hPin⟩
    · rw [hSame]
      exact .same _ a rfl
    · subst hAddr
      exact .collectGarbage item (gc_of_mem_planSnapshot hSnapshot hMem) hGone hPin

theorem ViewStep.consistent (hCons : (s.view a).Consistent (cfg.po a))
    (hStep : ViewStep cfg s op a v) : v.Consistent (cfg.po a) := by
  cases hStep with
  | same => exact hCons
  | put hView | set hMem hView => exact hView.consistent hCons
  | getRequest d hData hTouched => exact hTouched.consistent hCons (fresh_readItem hCons hData)
  | unreserveBatch c hVisits hUnpinned => exact hUnpinned.consistent hCons
  | collectGarbage item hGC hGone hPin => exact hGone.consistent

theorem StoreStep.consistent (hCons : s.Consistent cfg) (hStep : StoreStep cfg s op s') :
    s'.Consistent cfg :=
  fun a => (viewStep_of_storeStep hCons hStep a).consistent (hCons a)

theorem consistent_empty (cfg : Config) : Store.empty.Consistent cfg := by
  intro a
  exact View.blank_consistent (cfg.po a)

/-
  The rule for invariants of the database: they hold when it is empty and are kept by every step in
  closed form.
-/
theorem Reachable.store_invariant
    (hReach : Reachable cfg allowed db) (Inv : Store → Prop) (hEmpty : Inv .empty)
    (hKept :
      ∀ op db s', db.store.Consistent cfg → Inv db.store →
        allowed op db → StoreStep cfg db.store op s' → Inv s') :
    Inv db.store ∧ db.store.Consistent cfg ∧ db.Idle := by
  refine hReach.invariant (fun db =>
      Inv db.store ∧ db.store.Consistent cfg ∧ db.Idle)
    ?_ ?_
  · exact ⟨hEmpty, consistent_empty cfg, rfl, rfl⟩
  · rintro op before after ⟨hInv, hCons, hIdle⟩ hAllowed hStep
    have hStore := storeStep_of_step hIdle hCons hStep
    exact ⟨hKept op before _ hCons hInv hAllowed hStore.1, hStore.1.consistent hCons, hStore.2⟩

theorem Reachable.consistent (hReach : Reachable cfg allowed db) : db.store.Consistent cfg :=
  (hReach.store_invariant (fun _ => True) trivial fun _ _ _ _ _ _ _ => trivial).2.1

end

---- Concrete Runs

/- The database after one operation. -/
def DB.after (db : DB) (cfg : Config) (clock : Clock) (op : Op) : DB :=
  ((op.call cfg).run clock db).state

/- Whether one operation is successful. -/
def DB.accepts (db : DB) (cfg : Config) (clock : Clock) (op : Op) : Bool :=
  ((op.call cfg).run clock db).value

theorem Reachable.after
    (hReach : Reachable cfg allowed db) (clock : Clock) (op : Op) (hAllowed : allowed op db)
    (hOk : db.accepts cfg clock op = true) : Reachable cfg allowed (db.after cfg clock op) :=
  .step op hReach hAllowed ⟨clock, hOk, rfl⟩

/- A localstore that keeps no cache. -/
def smallConfig : Config where
  baseKey := 0
  gcTarget := 0

/- A chunk with a given address, stamp index and time. -/
def smallChunk (address : Address) (index timestamp : UInt64) : Chunk where
  address := address
  data := [1]
  stamp := { batchID := 7, index := index, timestamp := timestamp }

end Sana.Localstore

---- Ordinary Records

namespace Sana.Localstore

open KeyValue Program Swarm

variable {cfg : Config} {s : Store}

/-
  Records that neither add pull entries nor concern stamp indexes, radiuses, bin IDs or the gc size.
-/
def Write.ordinary : Write → Bool
| .pull _ (some _) => false
| .postageIndex _ _ => false
| .postageRadius _ _ => false
| .binID _ _ => false
| .gcSize _ => false
| _ => true

theorem ordinary_reserveSize :
    (sizeRecords .reserveSize size change).all Write.ordinary = true := by
  unfold sizeRecords
  split
  · rfl
  · cases changedSize size change <;> rfl

theorem ordinary_of_plain (record : Write) (hPlain : record.plain = true) :
    record.ordinary = true := by
  cases record with
  | pull key value =>
    cases value with
    | none => rfl
    | some x => cases hPlain
  | postageIndex key value | postageRadius key value | binID po value
  | gcSize value => cases hPlain
  | _ => rfl

@[simp] theorem ordinary_planRemove (a : Address) :
    (planRemove cfg s a).records.all Write.ordinary =
      true :=
  all_mono ordinary_of_plain plain_planRemove

@[simp] theorem ordinary_planPin : (planPin s a).records.all Write.ordinary = true :=
  all_mono ordinary_of_plain plain_planPin

theorem ordinary_planSetAll (mode : ModeSet) (addrs : List Address) (clock : Clock) :
    (planSetAll cfg mode s addrs clock).records.all Write.ordinary = true :=
  all_mono ordinary_of_plain plain_planSetAll

theorem plain_planUpdateGC (item : Item) (now : Nat) :
    (planUpdateGC s item now).records.all Write.plain =
      true := by
  unfold planUpdateGC
  dsimp only
  split
  · rfl
  · split <;> rfl

theorem ordinary_planUpdateGC (item : Item) (now : Nat) :
    (planUpdateGC s item now).records.all Write.ordinary =
      true :=
  all_mono ordinary_of_plain (plain_planUpdateGC item now)

---- Records Of Put Calls

/- The records of a put call. -/
inductive PutRecord (cfg : Config) (s : Store) (chs : List Chunk) : Write → Prop where
  | ordinary {record : Write} (hOrdinary : record.ordinary = true) : PutRecord cfg s chs record
  | pulled (ch : Chunk) (binID : Nat) (hMem : ch ∈ chs)
      (hNew : s.getBinID (cfg.po ch.address) < binID) :
      PutRecord cfg s chs (.pull ⟨cfg.po ch.address, binID⟩ (some ⟨ch.address, ch.stamp.batchID⟩))
  | stamped (ch : Chunk) (hMem : ch ∈ chs) (hAccepts : s.accepts ch = true) :
      PutRecord cfg s chs (.postageIndex ch.stampKey (some ⟨ch.address, ch.stamp.timestamp⟩))

/- Bin IDs that a call has assigned are new. -/
def BinIDs.Ahead (s : Store) (binIDs : BinIDs) : Prop :=
  ∀ po n, binIDs.get po = some n → s.getBinID po < n

variable {mode : ModePut}
variable {binIDs : BinIDs} {ch : Chunk} {clock : Clock}

theorem getBinID_lt_nextBinID (hAhead : BinIDs.Ahead s binIDs) (po : Nat) :
    s.getBinID po < nextBinID s binIDs po := by
  unfold nextBinID
  cases hGet : binIDs.get po with
  | none => simp
  | some n =>
    have hLt := hAhead po n hGet
    simp only [Option.getD_some]
    omega

theorem BinIDs.Ahead.put (hAhead : BinIDs.Ahead s binIDs) (po : Nat) :
    BinIDs.Ahead s (Index.put binIDs po (nextBinID s binIDs po)) := by
  intro po' n hGet
  rw [Index.get_put] at hGet
  split at hGet
  · next hEq =>
      cases hGet
      exact hEq ▸ getBinID_lt_nextBinID hAhead po
  · exact hAhead po' n hGet

theorem ordinary_planRelease (previous : Previous) :
    (planRelease cfg s ch previous).all Write.ordinary =
      true := by
  rcases planRelease_cases cfg s ch previous with hNone | hRelease
  · rw [hNone]
    rfl
  · rw [hRelease]
    exact ordinary_reserveSize

theorem ordinary_planPreserve (item : Item) (forcePin forceCache : Bool) :
    (planPreserve cfg s item forcePin forceCache).records.all Write.ordinary = true := by
  unfold planPreserve
  split
  · rw [List.all_append, ordinary_planPin, Bool.and_true]
    split
    · exact ordinary_reserveSize
    · rfl
  · split
    · rfl
    · split <;> rfl

theorem PutRecord.of_all {batch : Batch}
    (hAll : batch.all Write.ordinary = true) : ∀ record ∈ batch, PutRecord cfg s chs record :=
  fun record hMem => .ordinary (List.all_eq_true.mp hAll record hMem)

/- The records by which each mode stores a chunk. -/
theorem putRecord_planStore (hAhead : BinIDs.Ahead s binIDs) (hAccepts : s.accepts ch = true) :
    ∀ record ∈ (planStore cfg mode s binIDs ch previous clock).records,
      PutRecord cfg s [ch] record := by
  have hNew := getBinID_lt_nextBinID hAhead (cfg.po ch.address)
  intro record hMem
  cases storeRecord_of_mem hMem with
  | released hMem => exact PutRecord.of_all (ordinary_planRelease previous) record hMem
  | kept _ _ _ hMem => exact PutRecord.of_all (ordinary_planPreserve _ _ _) record hMem
  | own item accessTime hItem hMem =>
    subst hItem
    simp only [List.mem_cons, List.not_mem_nil, or_false] at hMem
    rcases hMem with rfl | rfl | rfl | rfl | rfl | rfl
    · exact .ordinary rfl
    · exact .pulled ch _ (by simp) hNew
    · exact .ordinary rfl
    · exact .stamped ch (by simp) hAccepts
    · exact .ordinary rfl
    · exact .ordinary rfl

/- The bin IDs after a chunk has been stored. -/
theorem binIDs_planStore (previous : Previous) :
    (planStore cfg mode s binIDs ch previous clock).binIDs =
      Index.put binIDs (cfg.po ch.address) (nextBinID s binIDs (cfg.po ch.address)) := by
  cases mode <;> rfl

theorem ordinary_planUploadPin (a : Address) : (planUploadPin mode s a).records.all Write.ordinary =
      true := by
  unfold planUploadPin
  split
  · exact ordinary_planPin
  · rfl

theorem putRecord_planPut (hAhead : BinIDs.Ahead s binIDs)
    (hOk : (planPut cfg mode s binIDs ch clock).outcome = .ok (exist, c)) :
    (∀ record ∈ (planPut cfg mode s binIDs ch clock).records, PutRecord cfg s [ch] record) ∧
    BinIDs.Ahead s (planPut cfg mode s binIDs ch clock).binIDs := by
  have hPinned :
      ∀ record ∈ (planUploadPin mode s ch.address).records, PutRecord cfg s [ch] record :=
    PutRecord.of_all (ordinary_planUploadPin ch.address)
  rcases planPut_cases hOk with ⟨base, c₁, c₂, hCase, -, -, -, hPlan⟩
  rw [hPlan]
  cases hCase with
  | existed hHas | kept hData hAccepts => exact ⟨hPinned, hAhead⟩
  | stored previous removal hData hAccepts hReplaced =>
    refine ⟨?_, ?_⟩
    · intro record hMem
      simp only [List.mem_append] at hMem
      rcases hMem with (hMem | hMem) | hMem
      · rcases hReplaced with _ | ⟨p, c, hDisplaced, -⟩
        · cases hMem
        · exact PutRecord.of_all (ordinary_planRemove p) record hMem
      · exact putRecord_planStore hAhead hAccepts record hMem
      · exact hPinned record hMem
    · rw [binIDs_planStore]
      exact hAhead.put _

theorem PutRecord.mono (hSub : ∀ ch ∈ chs, ch ∈ chs')
    (hRecord : PutRecord cfg s chs record) : PutRecord cfg s chs' record := by
  cases hRecord with
  | ordinary hOrdinary => exact .ordinary hOrdinary
  | pulled ch binID hMem hNew => exact .pulled ch binID (hSub ch hMem) hNew
  | stamped ch hMem hAccepts => exact .stamped ch (hSub ch hMem) hAccepts

/- The records and bin IDs of a whole put call. -/
theorem putRecord_planPutAll (hResult : (planPutAll cfg mode s [] chs {} clock).result = .ok st) :
    (∀ record ∈ st.batch, PutRecord cfg s chs record) ∧ BinIDs.Ahead s st.binIDs := by
  refine planPutAll_invariant (fun _ st => (∀ record ∈ st.batch, PutRecord cfg s chs record) ∧
      BinIDs.Ahead s st.binIDs) hResult ⟨nofun, nofun⟩ (fun hInv _ => hInv)
    (fun {_ st ch _ exist c} hCh hInv _ hOk => ?_)
  have hOne := putRecord_planPut hInv.2 hOk
  refine ⟨fun record hMem => ?_, hOne.2⟩
  rcases List.mem_append.mp hMem with hMem | hMem
  · exact hInv.1 record hMem
  · refine (hOne.1 record hMem).mono ?_
    intro ch' hCh'
    rw [List.mem_singleton.mp hCh']
    exact hCh

end Sana.Localstore
