import Sana.Localstore.Batching
import Sana.Localstore.Eviction
import Sana.Program.Interleaving

/-
  A batch that expires while chunks are stored.

  Expired batches are unreserved by the goroutine that syncs the chain, which does not take the
  lock.  All other calls that write hold the lock.

  Key definitions include:
    * `LockedOp`
    * `expiry`

  Key theorems include:
    * `quiet_unreserveBatch`
-/

---- Calls Without Writes

namespace Sana.Localstore

open KeyValue Program Swarm

theorem silent_setRemove (item : Item) : (setRemove cfg batch item check).Silent := by
  unfold setRemove
  dsimp only
  -- the access time is looked up, or known
  split
  on_goal 1 =>
    refine Call.Silent.bind (Call.silent_get _) fun i => ?_
    cases i
  all_goals
    refine Call.Silent.bind (Call.silent_pure _) fun item => ?_
    split
    on_goal 1 =>
      refine Call.Silent.bind (Call.silent_get _) fun found => ?_
    on_goal 2 =>
      refine Call.Silent.bind (Call.silent_pure _) fun found => ?_
    all_goals
      cases found with
      | none => exact Call.silent_pure _
      | some item =>
        dsimp only
        split
        · refine Call.Silent.bind (Call.silent_get _) fun inGC => ?_
          split <;> exact Call.silent_pure _
        · exact Call.silent_pure _

theorem silent_setPin (batch : Batch) : (setPin batch item).Silent := by
  refine Call.Silent.bind (Call.silent_get _) fun pinned => ?_
  cases pinned with
  | some i => exact Call.silent_pure _
  | none =>
    refine Call.Silent.bind (Call.silent_get _) fun access => ?_
    cases access with
    | none => exact Call.silent_pure _
    | some i =>
      refine Call.Silent.bind (Call.silent_get _) fun data => ?_
      cases data <;> exact Call.silent_pure _

theorem silent_preserveOrCache : (preserveOrCache cfg batch item forcePin forceCache).Silent := by
  unfold preserveOrCache
  split
  · split
    · exact Call.Silent.bind (silent_incReserveSizeInBatch _ _)
        fun batch => silent_setPin batch
    · exact silent_setPin batch
  · refine Call.Silent.bind (Call.silent_get _) fun pinned => ?_
    split
    · exact Call.silent_pure _
    refine Call.Silent.bind (Call.silent_get _) fun inGC => ?_
    split <;> exact Call.silent_pure _

theorem silent_setSync (batch : Batch) : (setSync cfg batch addr).Silent := by
  refine Call.Silent.bind (Call.silent_get _) fun data => ?_
  cases data with
  | none => exact Call.silent_pure _
  | some i =>
    refine Call.Silent.bind (Call.silent_get _) fun pushed => ?_
    cases incTag cfg pushed with
    | error e => exact Call.silent_pure _
    | ok _ =>
      refine Call.Silent.bind (Call.silent_get _) fun access => ?_
      cases access with
      | none =>
        exact Call.Silent.bind Call.silent_clockReading fun _ => silent_preserveOrCache
      | some i => exact silent_preserveOrCache

theorem silent_setAll (cfg : Config) (mode : ModeSet) (addrs : List Address) (batch : Batch)
    (gcSizeChange : Int) : (setAll cfg mode addrs batch gcSizeChange).Silent := by
  induction addrs generalizing batch gcSizeChange with
  | nil => exact Call.silent_pure _
  | cons addr addrs ih =>
    refine Call.Silent.bind ?_ fun result => ?_
    · cases mode with
      | sync => exact silent_setSync _
      | remove => exact silent_setRemove (addressToItem addr)
      | pin => exact silent_setPin _
      | unpin => exact silent_setUnpin _ _
      | unknown => exact Call.silent_pure _
    · rcases result with ⟨batch, e | c⟩
      · exact Call.silent_pure _
      · exact ih _ _

theorem silent_replacePrevious : (replacePrevious cfg batch item).Silent := by
  refine Call.Silent.bind (Call.silent_get _) fun previous => ?_
  cases previous with
  | none => exact Call.silent_pure _
  | some previous =>
    dsimp only
    split
    · exact Call.silent_pure _
    split
    · exact Call.silent_pure _
    refine Call.Silent.bind (silent_setRemove _) fun result => ?_
    rcases result with ⟨batch, e | c⟩ <;> exact Call.silent_pure _

theorem silent_releaseReserve : (releaseReserve cfg batch item previous).Silent := by
  unfold releaseReserve
  split
  · refine Call.Silent.bind (Call.silent_get _) fun radius => ?_
    cases radius with
    | none => exact Call.silent_pure _
    | some radius =>
      dsimp only
      split
      · exact silent_incReserveSizeInBatch _ _
      · exact Call.silent_pure _
  · exact Call.silent_pure _

theorem silent_incBinID : (incBinID binIDs po).Silent := by
  unfold incBinID
  split
  · exact Call.silent_pure _
  · exact Call.Silent.bind (Call.silent_get _) fun id => Call.silent_pure _

section

variable (cfg : Config) (batch : Batch) (binIDs : BinIDs) (item : Item)

theorem silent_storeRequest (forcePin forceCache : Bool) (previous : Previous) :
    (storeRequest cfg batch binIDs item forcePin forceCache previous).Silent := by
  refine Call.Silent.bind silent_releaseReserve fun batch => ?_
  refine Call.Silent.bind Call.silent_clockReading fun storeTimestamp => ?_
  refine Call.Silent.bind silent_incBinID fun ids => ?_
  refine Call.Silent.bind Call.silent_clockReading fun accessTimestamp => ?_
  refine Call.Silent.bind silent_preserveOrCache fun result => ?_
  rcases result with ⟨batch, e | c⟩ <;> exact Call.silent_pure _

theorem silent_storeUpload : (storeUpload cfg batch binIDs item).Silent := by
  refine Call.Silent.bind Call.silent_clockReading fun storeTimestamp => ?_
  exact Call.Silent.bind silent_incBinID fun ids => Call.silent_pure _

theorem silent_storeSync (previous : Previous) :
    (storeSync cfg batch binIDs item previous).Silent := by
  refine Call.Silent.bind silent_releaseReserve fun batch => ?_
  refine Call.Silent.bind Call.silent_clockReading fun storeTimestamp => ?_
  refine Call.Silent.bind silent_incBinID fun ids => ?_
  refine Call.Silent.bind Call.silent_clockReading fun accessTimestamp => ?_
  refine Call.Silent.bind silent_preserveOrCache fun result => ?_
  rcases result with ⟨batch, e | c⟩ <;> exact Call.silent_pure _

end

theorem silent_unlessThere (hStore : ∀ batch previous, (store batch previous).Silent) :
    (unlessThere cfg batch binIDs item store).Silent := by
  refine Call.Silent.bind (Call.silent_get _) fun exist => ?_
  split
  · exact Call.silent_pure _
  refine Call.Silent.bind silent_replacePrevious fun result => ?_
  rcases result with ⟨batch, e | previous⟩
  · exact Call.silent_pure _
  · cases previous with
    | kept => exact Call.silent_pure _
    | absent | removed c => exact hStore _ _

section

variable (cfg : Config) (batch : Batch) (binIDs : BinIDs) (item : Item)

theorem silent_putRequest (forcePin forceCache : Bool) :
    (putRequest cfg batch binIDs item forcePin forceCache).Silent :=
  silent_unlessThere fun _ _ => silent_storeRequest _ _ _ _ _ _ _

theorem silent_putUpload : (putUpload cfg batch binIDs item).Silent :=
  silent_unlessThere fun _ _ => silent_storeUpload _ _ _ _

theorem silent_putSync : (putSync cfg batch binIDs item).Silent :=
  silent_unlessThere fun _ _ => silent_storeSync _ _ _ _ _

end

theorem silent_putOne (cfg : Config) (mode : ModePut) (batch : Batch) (binIDs : BinIDs)
    (ch : Chunk) : (putOne cfg mode batch binIDs ch).Silent := by
  cases mode with
  | request | requestPin | requestCache => exact silent_putRequest _ _ _ _ _ _
  | upload => exact silent_putUpload _ _ _ _
  | sync => exact silent_putSync _ _ _ _
  | unknown => exact Call.silent_pure _
  | uploadPin =>
    refine Call.Silent.bind (silent_putUpload _ _ _ _) fun result => ?_
    rcases result with ⟨batch, binIDs, e | ⟨exist, c⟩⟩
    · exact Call.silent_pure _
    refine Call.Silent.bind (silent_setPin _) fun result => ?_
    rcases result with ⟨batch, e | c'⟩ <;> exact Call.silent_pure _

theorem silent_putAll (cfg : Config) (mode : ModePut) (seen chs : List Chunk) (st : PutState) :
    (putAll cfg mode seen chs st).Silent := by
  induction chs generalizing seen st with
  | nil => exact Call.silent_pure _
  | cons ch chs ih =>
    unfold putAll
    split
    · exact ih _ _
    refine Call.Silent.bind (silent_putOne _ _ _ _ _) fun result => ?_
    rcases result with ⟨batch, binIDs, e | ⟨exist, c⟩⟩
    · exact Call.silent_pure _
    · exact ih _ _

---- Unreserving Keeps The Data

/- The record is not one of the data of a chunk. -/
def Write.Hidden (record : Write) : Prop :=
  ∀ s : Store, (s.write record).retrievalDataIndex = s.retrievalDataIndex

def Hidden (batch : Batch) : Prop :=
  ∀ record ∈ batch, record.Hidden

theorem hidden_nil : Hidden [] := nofun

theorem Hidden.append (hFirst : Hidden first) (hSecond : Hidden second) :
    Hidden (first ++ second) := by
  intro record hRecord
  rcases List.mem_append.mp hRecord with hRecord | hRecord
  · exact hFirst record hRecord
  · exact hSecond record hRecord

theorem Hidden.snoc (hBatch : Hidden batch)
    (hRecord : record.Hidden) : Hidden (batch ++ [record]) :=
  hBatch.append (List.forall_mem_singleton.mpr hRecord)

theorem writeBatch_of_hidden (hBatch : Hidden batch) (s : Store) :
    (s.writeBatch batch).retrievalDataIndex = s.retrievalDataIndex :=
  writeBatch_keeps Store.retrievalDataIndex hBatch s

/- No garbage is collected. -/
def DB.Uncollected (db : DB) : Prop :=
  db.gcRunning = false

/- What `put` looks at before it takes the lock. -/
def DB.data (db : DB) : Index Address RetrievalData :=
  db.store.retrievalDataIndex

theorem keeps_writeBatch (hBatch : Hidden batch) :
    Keeps DB.Uncollected DB.data (DB.writeBatch batch) :=
  fun db hDb => ⟨hDb, writeBatch_of_hidden hBatch db.store⟩

theorem markDirty_of_uncollected {db : DB} (hDb : db.Uncollected) : db.markDirty addrs = db := by
  unfold DB.markDirty
  rw [hDb, if_neg Bool.false_ne_true]

theorem keeps_markDirty : Keeps DB.Uncollected DB.data (DB.markDirty addrs) := by
  intro db hDb
  rw [markDirty_of_uncollected hDb]
  exact ⟨hDb, rfl⟩

theorem yields_setUnpin (hBatch : Hidden batch) :
    (setUnpin batch addr).Yields fun result => Hidden result.1 := by
  refine Call.Silent.bind_yields (Call.silent_get _) fun pinned => ?_
  cases pinned with
  | none => exact Call.yields_pure hBatch
  | some i =>
    dsimp only
    split
    · exact Call.yields_pure (hBatch.snoc fun _ => rfl)
    have hDeleted : Hidden (batch ++ [Item.deletePin
            { addressToItem addr with
              pinCounter := i.pinCounter }]) :=
      hBatch.snoc fun _ => rfl
    refine Call.Silent.bind_yields (Call.silent_get _) fun data => ?_
    cases data with
    | none => exact Call.yields_pure hDeleted
    | some i =>
      refine Call.Silent.bind_yields (Call.silent_get _) fun pushed => ?_
      split
      · exact Call.yields_pure hDeleted
      refine Call.Silent.bind_yields (Call.silent_get _) fun access => ?_
      cases access with
      | none =>
        refine Call.Silent.bind_yields Call.silent_clockReading fun now => ?_
        apply hDeleted.append
        exact List.forall_mem_cons.mpr ⟨fun _ => rfl, List.forall_mem_singleton.mpr fun _ => rfl⟩
      | some i => exact Call.yields_pure (hDeleted.snoc fun _ => rfl)

theorem yields_unpinAll (hBatch : Hidden st.batch) :
    (unpinAll addrs st).Yields fun st => Hidden st.batch := by
  induction addrs generalizing st with
  | nil => exact Call.yields_pure hBatch
  | cons addr addrs ih =>
    refine Call.Yields.bind (yields_setUnpin hBatch) fun result hResult => ?_
    rcases result with ⟨batch, e | c⟩
    · exact ih hResult
    · exact ih hResult

theorem yields_incGCSizeInBatch (hBatch : Hidden batch) :
    (incGCSizeInBatch batch change).Yields Hidden := by
  unfold incGCSizeInBatch
  split
  · exact Call.yields_pure hBatch
  refine Call.Silent.bind_yields (Call.silent_get _) fun gcSize => ?_
  cases changedSize gcSize change with
  | none => exact Call.yields_pure hBatch
  | some size => exact Call.yields_pure (hBatch.snoc fun _ => rfl)

theorem yields_incReserveSizeInBatch (hBatch : Hidden batch) :
    (incReserveSizeInBatch batch change).Yields Hidden := by
  unfold incReserveSizeInBatch
  split
  · exact Call.yields_pure hBatch
  refine Call.Silent.bind_yields (Call.silent_get _) fun reserveSize => ?_
  cases changedSize reserveSize change with
  | none => exact Call.yields_pure hBatch
  | some size => exact Call.yields_pure (hBatch.snoc fun _ => rfl)

theorem quiet_set (hBatch : Hidden batch) :
    (Call.set (DB.writeBatch batch)).Quiet DB.Uncollected DB.data :=
  ⟨keeps_writeBatch hBatch, trivial⟩

theorem quiet_unreserveBin (id : BatchID) (bin reserveSizeChange : Nat) :
    (unreserveBin id bin reserveSizeChange).Quiet DB.Uncollected DB.data := by
  refine Call.Quiet.bind (Call.silent_get _).quiet fun addrs => ?_
  refine Call.Yields.bind_quiet (yields_unpinAll hidden_nil) fun st hSt => ?_
  refine Call.Yields.bind_quiet (yields_incGCSizeInBatch hSt) fun batch hBatch => ?_
  have hRadius := hBatch.snoc
    (show (Item.putPostageRadius { batchID := id, radius := bin }).Hidden from
        fun _ => rfl)
  refine Call.Quiet.bind (quiet_set ?_) fun _ => trivial
  split
  · exact hRadius.snoc fun _ => rfl
  · exact hRadius

theorem quiet_unreserveBins (id : BatchID) (bin count reserveSizeChange : Nat) :
    (unreserveBins id bin count reserveSizeChange).Quiet DB.Uncollected DB.data := by
  induction count generalizing bin reserveSizeChange with
  | zero => exact trivial
  | succ count ih =>
    exact Call.Quiet.bind (quiet_unreserveBin _ _ _) fun change => ih (bin + 1) change

theorem quiet_unreserveFinish (id : BatchID) (radius reserveSizeChange : Nat) :
    (unreserveFinish id radius reserveSizeChange).Quiet DB.Uncollected DB.data := by
  have hSize : (if reserveSizeChange > 0 then do
          let batch ← incReserveSizeInBatch [] (-(reserveSizeChange : Int))
          Call.set (DB.writeBatch batch)
        else pure () : Call DB Unit).Quiet DB.Uncollected DB.data := by
    split
    · exact Call.Yields.bind_quiet (yields_incReserveSizeInBatch hidden_nil)
        fun batch hBatch => quiet_set hBatch
    · exact trivial
  unfold unreserveFinish
  dsimp only
  split
  · refine Call.Quiet.bind (quiet_set ?_) fun _ => hSize
    exact hidden_nil.snoc fun _ => rfl
  · exact hSize

/- The call that takes no lock does not touch the data. -/
theorem quiet_unreserveBatch (id : BatchID) :
    (unreserveBatch id radius).Quiet DB.Uncollected DB.data := by
  refine Call.Quiet.bind (Call.silent_get _).quiet fun stored => ?_
  refine Call.Quiet.bind (quiet_unreserveBins _ _ _ _) fun change => ?_
  exact Call.Quiet.bind (quiet_unreserveFinish _ _ _) fun _ => trivial

theorem quiet_evictBatches (target reserveSizeStart : Nat) (offered : List (BatchID × Nat))
    (totalEvicted : Nat) :
    (evictBatches target reserveSizeStart offered totalEvicted).Quiet DB.Uncollected DB.data := by
  induction offered generalizing totalEvicted with
  | nil => exact trivial
  | cons entry offered ih =>
    refine Call.Quiet.bind (quiet_unreserveBatch _) fun e => ?_
    dsimp only
    split
    · exact trivial
    split
    · exact trivial
    · exact ih _

---- Calls Under The Lock

section

variable {cfg : Config} {mode : ModePut} {chs : List Chunk}

/- The calls that hold the lock. -/
inductive LockedOp where
  | put (mode : ModePut) (chs : List Chunk)
  | set (mode : ModeSet) (addrs : List Address)
  | evictReserve (target : Nat) (offered : List (BatchID × Nat))

def LockedOp.call (cfg : Config) : LockedOp → Call DB Unit
| .put mode chs => do
    let _ ← Localstore.put cfg mode chs
    return ()
| .set mode addrs => do
    let _ ← Localstore.set cfg mode addrs
    return ()
| .evictReserve target offered => do
    let _ ← Localstore.evictReserve target offered
    return ()

/- What `evictFn` calls for an expired batch. -/
def expiry (id : BatchID) : Call DB Unit := do
  let _ ← unreserveBatch id (maxPO + 1)
  return ()

/- The end of a call: one write, and the lock is released. -/
theorem inside_write (value : α) : (do
      Call.set (DB.writeBatch batch)
      Call.release
      return value : Call DB α).Inside DB.Uncollected DB.data :=
  Or.inr ⟨fun _ hDb => hDb, value, rfl⟩

theorem inside_release (value : α) : (do
      Call.release
      return value : Call DB α).Inside DB.Uncollected DB.data :=
  ⟨value, rfl⟩

theorem quiet_markDirty : (Call.set (DB.markDirty addrs)).Quiet DB.Uncollected DB.data :=
  ⟨keeps_markDirty, trivial⟩

/- A chunk that is there is not stored under the lock. -/
theorem putLocked_of_has (hMode : mode ≠ .uploadPin) (hDb : db.Uncollected)
    (hHas : db.data.has ch.address = true) :
    ((putLocked cfg mode [ch]).run clock db).state = db := by
  rw [run_putLocked]
  rw [markDirty_of_uncollected hDb]
  have hStore : db.store.afterPut (planPutLocked cfg mode db.store [ch] clock) = db.store := by
    unfold planPutLocked
    by_cases hUnknown : mode = .unknown
    · rw [if_pos hUnknown]
      rfl
    · rw [if_neg hUnknown]
      have hPlan : planPut cfg mode db.store .empty ch clock =
            { records := []
              binIDs := .empty
              outcome := .ok (true, 0) } := planPut_of_has hUnknown hMode hHas
      have hSeen : containsChunk ch.address [] = false := rfl
      simp only [planPutAll, hSeen, hPlan, Bool.false_eq_true, if_false]
      rfl
  rw [hStore]

/- `putLocked` after the lock is taken. -/
theorem inside_put : (do
      Call.set (DB.markDirty (chs.map Chunk.address))
      let result ← if mode = .unknown then
          pure (.error .invalidMode)
        else putAll cfg mode [] chs {}
      match result with
      | .error e =>
        Call.release
        return .error e
      | .ok st =>
        let batch := st.batch ++ st.binIDs.entries.map fun entry => .binID entry.1 entry.2
        let batch ← incGCSizeInBatch batch st.gcSizeChange
        Call.set (DB.writeBatch batch)
        Call.release
        return .ok st.exist :
      Call DB (Except Err (List Bool))).Inside DB.Uncollected DB.data := by
  refine Call.Quiet.bind_inside quiet_markDirty fun _ => ?_
  split
  · exact inside_release _
  · refine Call.Quiet.bind_inside (silent_putAll _ _ _ _ _).quiet fun result => ?_
    cases result with
    | error e => exact inside_release _
    | ok st =>
      exact Call.Quiet.bind_inside (silent_incGCSizeInBatch _ _).quiet
        fun batch => inside_write _

theorem guarded_put : Guarded DB.Uncollected DB.data (put cfg mode chs) := by
  unfold put
  cases hFast : fastPathChunk mode chs with
  | none => exact guarded_acquire inside_put
  | some ch =>
    rcases fastPathChunk_eq_some hFast with ⟨rfl, hMode⟩
    exact guarded_get (fun data : Index Address RetrievalData =>
        data.has ch.address)
      (.ok [true]) inside_put
      fun clock _ hDb hHas => putLocked_of_has hMode hDb hHas

theorem guarded_set (mode : ModeSet) : Guarded DB.Uncollected DB.data (set cfg mode addrs) := by
  apply guarded_acquire
  refine Call.Quiet.bind_inside quiet_markDirty fun _ => ?_
  split
  · exact inside_release _
  · refine Call.Quiet.bind_inside (silent_setAll _ _ _ _ _).quiet fun result => ?_
    rcases result with e | ⟨batch, gcSizeChange⟩
    · exact inside_release _
    · exact Call.Quiet.bind_inside (silent_incGCSizeInBatch _ _).quiet
        fun batch => inside_write _

theorem guarded_evictReserve : Guarded DB.Uncollected DB.data (evictReserve target offered) := by
  apply guarded_acquire
  refine Call.Quiet.bind_inside (Call.silent_get _).quiet fun reserveSizeStart => ?_
  split
  · exact inside_release _
  · exact Call.Quiet.bind_inside (quiet_evictBatches _ _ _ _) fun result => inside_release _

theorem guarded_call (op : LockedOp) : Guarded DB.Uncollected DB.data (op.call cfg) := by
  cases op with
  | put mode chs => exact guarded_put.map fun _ => ()
  | set mode addrs => exact (guarded_set mode).map fun _ => ()
  | evictReserve target offered => exact guarded_evictReserve.map fun _ => ()

end

---- Interleavings

/- An expiry, as the first call, and any number of calls under the lock. -/
def expiryCalls (cfg : Config) (id : BatchID) {n : Nat}
    (ops : Fin n → LockedOp) : Fin (n + 1) → Call DB Unit :=
  Fin.cons (expiry id) fun i => (ops i).call cfg

theorem quiet_expiry (id : BatchID) : (expiry id).Quiet DB.Uncollected DB.data :=
  Call.Quiet.bind (quiet_unreserveBatch _) fun _ => trivial

/-
  If no step of the expiry is made while a call holds the lock, and no call takes the lock while the
  expiry is under way, all that is stored at the end is what some sequential order of the calls
  leaves.
-/
theorem expiry_serializable {cfg : Config} {id : BatchID} {n : Nat} {ops : Fin n → LockedOp}
    {clocks : Fin (n + 1) → Clock} {s : Store} {sys : Threads (Fin (n + 1)) DB Unit}
    (hReach :
      Reach ThreadStep (Exclusive 0)
        (Threads.start (expiryCalls cfg id ops) clocks { store := s }) sys)
    (hEnd : ∀ i, sys.Finished i) :
    ∃ order : List (Fin (n + 1)),
      order.Perm (List.finRange (n + 1)) ∧
        sys.state.store = (serial (expiryCalls cfg id ops) clocks order { store := s }).store := by
  have hGuarded : ∀ i, i ≠ 0 → Guarded DB.Uncollected DB.data (expiryCalls cfg id ops i) := by
    intro i hI
    rcases Fin.exists_succ_eq.mpr hI with ⟨k, rfl⟩
    exact guarded_call (ops k)
  have hBegin : ∀ value, expiryCalls cfg id ops 0 ≠ .ret value := nofun
  have hQuiet : (expiryCalls cfg id ops 0).Quiet DB.Uncollected DB.data := quiet_expiry id
  have hStart : DB.Uncollected { store := s } := rfl
  rcases exists_serial hQuiet hBegin hGuarded hStart hReach hEnd with ⟨order, hNodup, hAll, hState⟩
  refine ⟨order, ?_, congrArg DB.store hState⟩
  rw [List.perm_ext_iff_of_nodup hNodup (List.nodup_finRange (n + 1))]
  exact fun i => ⟨fun _ => List.mem_finRange i, fun _ => hAll i⟩

/- A chunk of the reserve, in a batch with a radius. -/
def expiringStore : Store :=
  ((DB.empty.after smallConfig (fun n => n + 1) (.put .sync [smallChunk (2 ^ 255) 1 1])).after
    smallConfig (fun n => n + 1) (.unreserveBatch 7 0)).store

/- A chunk for the cache arrives meanwhile. -/
def expiringOps : Fin 1 → LockedOp :=
  fun _ => .put .requestCache [smallChunk (2 ^ 254) 2 1]

def expiringClocks : Fin (1 + 1) → Clock :=
  fun _ n => n + 1

def expiringStart : Threads (Fin (1 + 1)) DB Unit :=
  .start (expiryCalls smallConfig 7 expiringOps) expiringClocks { store := expiringStore }

/- The expiry first, without interruption. -/
def expiredFirst : Threads (Fin (1 + 1)) DB Unit :=
  expiringStart.follow (exclusiveCheck 0) (List.replicate 73 0 ++ List.replicate 13 1)

theorem expiry_serializable_first :
    expiredFirst.state.store.gcSize = 2 ∧
      ∃ order : List (Fin (1 + 1)),
        order.Perm (List.finRange (1 + 1)) ∧
          expiredFirst.state.store =
            (serial (expiryCalls smallConfig 7 expiringOps) expiringClocks order
              { store := expiringStore }).store := by
  have hReach :
      Reach ThreadStep (Exclusive 0)
        (Threads.start (expiryCalls smallConfig 7 expiringOps)
          expiringClocks { store := expiringStore })
        expiredFirst := Threads.reach_follow (fun _ _ hCheck => exclusive_of_check hCheck) .start _
  have hEnd : ∀ i, expiredFirst.Finished i := by
    intro i
    apply Threads.finished_of_isRet
    revert i
    decide +kernel
  have hSize : expiredFirst.state.store.gcSize = 2 := by decide +kernel
  have hSerial := expiry_serializable hReach hEnd
  exact ⟨hSize, hSerial⟩

/- The other call runs before the first write of the expiry. -/
def expiredBetween : Threads (Fin (1 + 1)) DB Unit :=
  expiringStart.follow (fun _ _ => true)
    (List.replicate 7 0 ++ List.replicate 13 1 ++ List.replicate 66 0)

/-
  The expiry has read the size of the gc index when the other call changes it, and writes it
  afterwards: two chunks are in the gc index, and its size is one.
-/
theorem expiry_not_serializable :
    ¬ ∀ (cfg : Config) (id : BatchID) (n : Nat) (ops : Fin n → LockedOp)
      (clocks : Fin (n + 1) → Clock) (s : Store) (sys : Threads (Fin (n + 1)) DB Unit),
      Reach ThreadStep (fun _ _ => True)
          (Threads.start (expiryCalls cfg id ops) clocks { store := s }) sys →
        (∀ i, sys.Finished i) →
          ∃ order : List (Fin (n + 1)),
            order.Perm (List.finRange (n + 1)) ∧
              sys.state.store =
                (serial (expiryCalls cfg id ops) clocks order { store := s }).store := by
  intro hAll
  have hReach : Reach ThreadStep (fun _ _ => True) expiringStart
        expiredBetween := Threads.reach_follow (fun _ _ _ => trivial) .start _
  have hEnd : ∀ i, expiredBetween.Finished i := by
    intro i
    apply Threads.finished_of_isRet
    revert i
    decide +kernel
  rcases hAll smallConfig 7 1 expiringOps expiringClocks expiringStore _ hReach hEnd with
    ⟨order, hPerm, hStore⟩
  rcases List.length_eq_two.mp hPerm.length_eq with ⟨first, second, rfl⟩
  have hSize := congrArg Store.gcSize hStore
  clear hStore
  revert first second
  decide +kernel

end Sana.Localstore
