import Sana.Postage.Writes

/-
  Recovery of the batch store after a crash.

  A node that was stopped while it processed a page finds the dirty flag when it starts again.  It
  resets the batch store and syncs from the first block.  The number of the last item in the queue
  is not reset, and goes on from the one that was stored.

  Key definitions include:
    * `Disk.reset`
    * `PostageNode.boot`

  Key theorems include:
    * `sync_core`
-/

---- Starting

namespace Sana.Postage

variable {startBlock : UInt64} {ordered : Prop} {seen : Bool} {fuel : Nat} {n after : PostageNode}

section

open KeyValue Program Syncer

def batchKeyPrefix : List UInt8 :=
  asciiBytes "batchstore_batch_"

def chainStateKey : List UInt8 :=
  asciiBytes "batchstore_chainstate"

def reserveStateKey : List UInt8 :=
  asciiBytes "batchstore_reservestate"

def ureserveQueueCardinalityKey : List UInt8 :=
  asciiBytes "batchstore_queue_cardinality"

def dirtyDBKey : List UInt8 :=
  asciiBytes "batchservice_dirty_db"

/- Whether `Reset` deletes keys that start like this. -/
def deletedByReset (key : List UInt8) : Bool :=
  asciiBytes "batchstore_" <+: key

/- The keys that `Reset` leaves in the state store. -/
def Disk.reset (d : Disk) : Disk where
  batches :=
    if deletedByReset batchKeyPrefix then .empty
    else d.batches
  values :=
    if deletedByReset valueKeyPrefix then .empty
    else d.values
  chainState :=
    if deletedByReset chainStateKey then none
    else d.chainState
  reserveState :=
    if deletedByReset reserveStateKey then none
    else d.reserveState
  items :=
    if deletedByReset unreserveQueueKey then .empty
    else d.items
  cardinality :=
    if deletedByReset ureserveQueueCardinalityKey then none
    else d.cardinality
  dirty := if deletedByReset dirtyDBKey then false else d.dirty

namespace PostageNode

/- A node whose state store has no keys. -/
def blank : PostageNode where
  disk :=
    { batches := .empty
      values := .empty
      chainState := none
      reserveState := none
      items := .empty
      cardinality := none
      dirty := false }
  cs := (BatchStore.empty 0).cs
  rs := (BatchStore.empty 0).rs
  queueIdx := 0
  queue := []
  added := 0

/- `batchstore.New`: what is loaded from the state store. -/
def load (n : PostageNode) : PostageNode :=
  { n with
    cs := n.disk.chainState.getD (BatchStore.empty 0).cs
    rs := n.disk.reserveState.getD (BatchStore.empty 0).rs
    queueIdx := n.disk.cardinality.getD 0 }

/- `Reset`; the number of the last item is kept. -/
def reset (startBlock : UInt64) (n : PostageNode) : PostageNode :=
  { n with
    disk := n.disk.reset
    cs := (BatchStore.empty startBlock).cs
    rs := (BatchStore.empty startBlock).rs
    queue := [] }

/- The node after a call that is not interrupted. -/
def finish (n : PostageNode) (call : Fallible PostageNode Unit) : Option PostageNode :=
  let outcome := call.outcome (fun _ => 0) n
  outcome.value.map fun _ => outcome.state

/- A node without a block number is put to the first block. -/
def atStartBlock (startBlock : UInt64) (n : PostageNode) : Option PostageNode :=
  if n.cs.block = 0 then n.finish (Writes.putChainState { n.cs with block := startBlock })
  else some n

/- `batchservice.New`, which looks for the dirty flag. -/
def checkDirty (startBlock : UInt64) (n : PostageNode) : PostageNode :=
  if n.disk.dirty then
    { n.reset startBlock with
      disk := { n.disk.reset with dirty := false } }
  else n

/- The start of a node, up to the first sync. -/
def boot (startBlock : UInt64) (n : PostageNode) : Option PostageNode :=
  (n.load.atStartBlock startBlock).map (checkDirty startBlock)

/- The first block of `Sync`. -/
def syncFrom (n : PostageNode) : UInt64 :=
  n.cs.block + 1

---- Runs

/- The callback took an entry, which is deleted. -/
def deliver (n : PostageNode) (key : List UInt8) (item : UnreserveItem) : PostageNode :=
  let n :=
    { n with
      disk.items := n.disk.items.delete key
      queue := n.queue.tail }
  if n.rs.storageRadius + 1 < item.radius then
    let rs := { n.rs with storageRadius := item.radius - 1 }
    { n with
      rs := rs
      disk.reserveState := some rs }
  else n

def deliverAll : List (List UInt8 × UnreserveItem) → PostageNode → PostageNode
| [], n => n
| (key, item) :: entries, n => deliverAll entries (n.deliver key item)

/- `Unreserve`, whose callback takes some items. -/
def unreserveItems (count : Nat) (n : PostageNode) : PostageNode :=
  n.deliverAll ((n.disk.items.branch unreserveQueueKey).take count)

end PostageNode

/- What happens to a node that syncs. -/
inductive SyncOp where
  | call (call : UpdaterCall Log)
  | unreserve (count : Nat)

/- The calls of the syncer. -/
def updaterCalls : List SyncOp → List (UpdaterCall Log)
| [] => []
| .call call :: ops => call :: updaterCalls ops
| .unreserve _ :: ops => updaterCalls ops

namespace PostageNode

def sync (fuel : Nat) : List SyncOp → PostageNode → Option PostageNode
| [], n => some n
| .call call :: ops, n => (n.finish (Writes.perform fuel call)).bind (sync fuel ops)
| .unreserve count :: ops, n => sync fuel ops (n.unreserveItems count)

/- Every call starts where expiries do not show consumption. -/
def steadySync (fuel : Nat) : List SyncOp → PostageNode → Bool
| [], _ => true
| .call call :: ops, n =>
  decide n.rs.Steady && (n.finish (Writes.perform fuel call)).all (steadySync fuel ops)
| .unreserve count :: ops, n => steadySync fuel ops (n.unreserveItems count)

end PostageNode

/-
  A machine whose node is down or up; when it is up, `seen` tells whether a block number was given
  since its start.
-/
inductive Machine where
  | down (n : PostageNode)
  | up (seen : Bool) (n : PostageNode)

inductive MachineOp where
  | boot
  | call (call : UpdaterCall Log)
  | unreserve (count : Nat)
  | crash (call : UpdaterCall Log) (count : Nat)

/-
  The node crashes in a call after any number of its writes. A call that fails is one in which the
  node goes down.
-/
inductive MachineStep (fuel : Nat) (startBlock : UInt64) :
    MachineOp → Machine → Machine → Prop where
  | boot {n after : PostageNode} (hBoot : n.boot startBlock = some after) :
      MachineStep fuel startBlock .boot (.down n) (.up false after)
  | call {seen : Bool} {n after : PostageNode} (call : UpdaterCall Log)
      (hExpected : Expected startBlock seen call)
      (hCall : n.finish (Writes.perform fuel call) = some after) :
      MachineStep fuel startBlock (.call call) (.up seen n) (.up (seenAfter seen call) after)
  | unreserve (seen : Bool) (n : PostageNode) (count : Nat) :
      MachineStep fuel startBlock (.unreserve count) (.up seen n)
        (.up seen (n.unreserveItems count))
  | crash {seen : Bool} (n : PostageNode) (call : UpdaterCall Log) (count : Nat)
      (hExpected : Expected startBlock seen call) :
      MachineStep fuel startBlock (.crash call count) (.up seen n)
        (.down ((Writes.perform fuel call).stop count (fun _ => 0) n))

end

---- Calls

section

open KeyValue Program Syncer PostageNode

variable {call : UpdaterCall Log}

/- A call does what the batch store does. -/
theorem map_store_finish (hServing : n.Serving startBlock ordered seen)
    (hExpected : Expected startBlock seen call) :
    (n.finish (Writes.perform fuel call)).map store = BatchStore.perform fuel call n.store := by
  have hValue := (perform_implements fuel hExpected).value (fun _ => 0) n hServing
  have hStore := congrArg (Option.map Prod.snd) hValue
  rw [Option.map_map, Option.map_map] at hStore
  unfold PostageNode.finish
  rw [Option.map_map]
  exact hStore.trans Option.map_id'

theorem serving_of_finish (hServing : n.Serving startBlock ordered seen)
    (hExpected : Expected startBlock seen call)
    (hCall : n.finish (Writes.perform fuel call) = some after) :
    after.Serving startBlock ordered (seenAfter seen call) := by
  rcases Option.map_eq_some_iff.mp hCall with ⟨value, hValue, rfl⟩
  exact (perform_implements fuel hExpected).after _ n value hServing hValue

/- What a delivery leaves as it is. -/
theorem deliver_frame {key : List UInt8} :
    ∃ storage reserveState, n.deliver key item =
        { n with
          rs := { n.rs with storageRadius := storage }
          disk.reserveState := reserveState
          disk.items := n.disk.items.delete key
          queue := n.queue.tail } := by
  unfold deliver
  dsimp only
  split
  · exact ⟨_, _, rfl⟩
  · exact ⟨n.rs.storageRadius, n.disk.reserveState, rfl⟩

/- The first entry is that of the first item. -/
theorem PostageNode.Ordered.deliver {key : List UInt8} (hOrdered : n.Ordered)
    (hBranch : n.disk.items.branch unreserveQueueKey = (key, item) :: rest) :
    (n.deliver key item).Ordered := by
  rcases deliver_frame with ⟨storage, reserveState, hEq⟩
  rw [hEq]
  intro hRoom
  rcases hOrdered hRoom with ⟨first, hItems, hLast⟩
  rw [hBranch] at hItems
  dsimp only at hRoom ⊢
  rw [Index.branch_delete_first _ hBranch]
  cases hQueue : n.queue with
  | nil =>
    rw [hQueue] at hItems
    cases hItems
  | cons head queue =>
    rw [hQueue] at hItems hLast
    refine ⟨first + 1, (List.cons_eq_cons.mp hItems).2, ?_⟩
    rw [List.length_cons] at hLast
    rw [List.tail_cons]
    omega

/- The items are taken from the front of the queue. -/
theorem serving_deliverAll (hServing : n.Serving startBlock ordered seen)
    (hEntries : entries <+: n.disk.items.branch unreserveQueueKey) :
    (n.deliverAll entries).Serving startBlock ordered seen := by
  induction entries generalizing n with
  | nil => exact hServing
  | cons entry entries ih =>
    rcases entry with ⟨key, item⟩
    rcases hEntries with ⟨rest, hBranch⟩
    have hOrdered : ordered → (n.deliver key item).Ordered := fun hFollow =>
        (hServing.queue hFollow).deliver hBranch.symm
    have hRest := Index.branch_delete_first _ hBranch.symm
    unfold deliverAll
    rcases deliver_frame with ⟨storage, reserveState, hEq⟩
    rw [hEq] at hOrdered ⊢
    apply ih
    · exact ⟨⟨⟨hServing.stored, hServing.cardinality⟩,
        hServing.queueIdx, hOrdered⟩, hServing.settled, hServing.later⟩
    · exact ⟨rest, hRest.symm⟩

theorem serving_unreserveItems (hServing : n.Serving startBlock ordered seen) :
    (n.unreserveItems count).Serving startBlock ordered seen :=
  serving_deliverAll hServing (List.take_prefix _ _)

/- Consumption does not show in the core. -/
theorem core_deliverAll : (n.deliverAll entries).store.core = n.store.core := by
  induction entries generalizing n with
  | nil => rfl
  | cons entry entries ih =>
    unfold deliverAll
    rw [ih]
    rcases deliver_frame with ⟨storage, reserveState, hEq⟩
    rw [hEq]
    rfl

end

---- Restarts

section

open KeyValue Program Syncer PostageNode

/- Without values, nothing expires. -/
theorem finish_putChainState_empty (cs : ChainState) (hEmpty : n.disk.values = .empty) :
    ∃ rs, n.finish (Writes.putChainState cs) = some
          { n with
            cs := cs
            rs := rs
            disk.reserveState := some rs
            disk.chainState := some cs } := by
  rcases n with ⟨⟨batches, values, chainState, reserveState,
    items, cardinality, dirty⟩, oldCs, rs, queueIdx, queue, added⟩
  subst hEmpty
  exact ⟨_, rfl⟩

/- A node that can be started again gets a block number. -/
theorem PostageNode.Restartable.atStartBlock (hRestartable : n.Restartable) (startBlock : UInt64) :
    ∃ after,
      n.load.atStartBlock startBlock = some after ∧ after.Serving startBlock False false ∧
        after.disk.dirty = n.disk.dirty ∧ after.queueIdx = n.disk.cardinality.getD 0 ∧
        after.added = n.added := by
  unfold PostageNode.atStartBlock
  by_cases hZero : n.load.cs.block = 0
  · -- no block number is stored, so there are no values
    have hEmpty : n.load.disk.values = .empty := by
      rcases hRestartable.stored with hEmpty | ⟨cs, hCs, hNe⟩
      · exact hEmpty
      · have hLoaded : n.load.cs = cs := by
          unfold load
          rw [hCs, Option.getD_some]
        rw [hLoaded] at hZero
        exact absurd hZero hNe
    rcases finish_putChainState_empty
      { n.load.cs with block := startBlock } hEmpty with ⟨rs, hFinish⟩
    rw [if_pos hZero, hFinish]
    refine ⟨_, rfl, ⟨⟨⟨Or.inl hEmpty, hRestartable.cardinality⟩, hRestartable.cardinality,
      False.elim⟩, fun _ => rfl, nofun⟩, rfl, rfl, rfl⟩
  · have hStored : n.disk.chainState = some n.load.cs := by
      unfold load at hZero ⊢
      cases hCs : n.disk.chainState with
      | none =>
        rw [hCs] at hZero
        exact absurd rfl hZero
      | some cs => rfl
    rw [if_neg hZero]
    refine ⟨_, rfl, ⟨⟨⟨hRestartable.stored, hRestartable.cardinality⟩, hRestartable.cardinality,
      False.elim⟩, fun _ => hStored, nofun⟩, rfl, rfl, rfl⟩

/- The node after a start that found the dirty flag. -/
def restarted (startBlock : UInt64) (n : PostageNode) : PostageNode :=
  { PostageNode.blank with
    cs := (BatchStore.empty startBlock).cs
    rs := (BatchStore.empty startBlock).rs
    queueIdx := n.disk.cardinality.getD 0
    added := n.added }

/- Nothing but the number of the last item is left. -/
theorem boot_dirty (hRestartable : n.Restartable) (hDirty : n.disk.dirty = true) :
    n.boot startBlock = some (restarted startBlock n) := by
  rcases hRestartable.atStartBlock startBlock with ⟨after, hStart, -, hFlag, hIndex, hAdded⟩
  unfold boot
  rw [hStart, Option.map_some]
  unfold checkDirty
  rw [if_pos (hFlag.trans hDirty)]
  unfold PostageNode.reset restarted
  rw [hIndex, hAdded]
  rfl

/- A node that was reset, or has no items yet. -/
theorem serving_restarted (hIndex : (n.disk.cardinality.getD 0).toNat ≤ n.added) :
    (restarted startBlock n).Serving startBlock ordered false where
  stored := Or.inl rfl
  cardinality := Nat.zero_le _
  queueIdx := hIndex
  queue := fun _ _ => ⟨_, rfl, rfl⟩
  settled := fun hLt => absurd hLt (UInt64.lt_irrefl _)
  later := nofun

theorem serving_boot (hRestartable : n.Restartable) (hBoot : n.boot startBlock = some after) :
    after.Serving startBlock False false := by
  by_cases hDirty : n.disk.dirty = true
  · cases (boot_dirty hRestartable hDirty).symm.trans hBoot
    exact serving_restarted hRestartable.cardinality
  · rcases hRestartable.atStartBlock startBlock with ⟨started, hStart, hServing, hFlag, -, -⟩
    unfold boot at hBoot
    rw [hStart] at hBoot
    cases hBoot
    unfold checkDirty
    rw [if_neg (by rwa [hFlag])]
    exact hServing

/- The first start of a node. -/
theorem boot_blank (hFresh : PostageNode.blank.boot startBlock = some fresh) :
    fresh.Serving startBlock True false ∧ fresh.store = .empty startBlock ∧
      fresh.syncFrom = startBlock + 1 := by
  cases hFresh
  exact ⟨⟨⟨⟨Or.inl rfl, Nat.zero_le _⟩, Nat.zero_le _, fun _ _ => ⟨1, rfl, rfl⟩⟩, fun _ => rfl,
    nofun⟩, rfl, rfl⟩

/- What holds of a machine at all times. -/
def Machine.Sound (startBlock : UInt64) : Machine → Prop
| .down n => n.Restartable
| .up seen n => n.Serving startBlock False seen

theorem MachineStep.sound
    (hSound : machine.Sound startBlock) (hStep : MachineStep fuel startBlock op machine machine') :
    machine'.Sound startBlock := by
  cases hStep with
  | boot hBoot => exact serving_boot hSound hBoot
  | call call hExpected hCall => exact serving_of_finish hSound hExpected hCall
  | unreserve seen n count => exact serving_unreserveItems hSound
  | crash n call count hExpected => exact (perform_implements fuel hExpected).stop count _ n hSound

/- A node can be started again wherever it crashed. -/
theorem restartable_of_reach
    (hReach : Reach (MachineStep fuel startBlock) (fun _ _ => True) (.down .blank) (.down n)) :
    n.Restartable :=
  hReach.invariant (Machine.Sound startBlock) ⟨Or.inl rfl, Nat.zero_le _⟩
    fun _ _ _ hSound _ hStep => hStep.sound hSound

end

---- Syncing

open KeyValue Program Syncer PostageNode

variable {ops : List SyncOp}

/- Calls that the worker makes one after the other. -/
def AllExpected (startBlock : UInt64) : Bool → List (UpdaterCall Log) → Prop
| _, [] => True
| seen, call :: calls =>
  Expected startBlock seen call ∧ AllExpected startBlock (seenAfter seen call) calls

/- The calls, on a store from which nothing is consumed. -/
def BatchStore.performAll (fuel : Nat) : List (UpdaterCall Log) → BatchStore → Option BatchStore
| [], st => some st
| call :: calls, st => ((st.perform fuel call).map core).bind (performAll fuel calls)

theorem perform_congr {st st' : BatchStore} (hSteady : st.rs.Steady) (hSteady' : st'.rs.Steady)
    (hCore : st.core = st'.core) :
    (st.perform fuel call).map BatchStore.core = (st'.perform fuel call).map BatchStore.core := by
  cases call with
  | transactionStart | transactionEnd => exact congrArg some hCore
  | updateBlockNumber blockNumber => exact updateBlockNumber_congr hSteady hSteady' hCore _
  | processEvent e => exact processEvent_congr hSteady hSteady' hCore fuel e

/- A steady sync does the same whatever is consumed. -/
theorem sync_core (hServing : n.Serving startBlock ordered seen)
    (hExpected : AllExpected startBlock seen (updaterCalls ops))
    (hSteady : n.steadySync fuel ops = true) :
    (n.sync fuel ops).map (fun n => n.store.core) =
      n.store.core.performAll fuel (updaterCalls ops) := by
  induction ops generalizing n seen with
  | nil => rfl
  | cons op ops ih =>
    cases op with
    | unreserve count =>
      have hCore : (n.unreserveItems count).store.core = n.store.core := core_deliverAll
      rw [← hCore]
      exact ih (serving_unreserveItems hServing) hExpected hSteady
    | call call =>
      rcases hExpected with ⟨hFirst, hRest⟩
      unfold steadySync at hSteady
      rw [Bool.and_eq_true, decide_eq_true_eq] at hSteady
      have hStore : (n.finish (Writes.perform fuel call)).map store = n.store.perform fuel call :=
        map_store_finish hServing hFirst
      have hCore :
          (n.store.perform fuel call).map BatchStore.core =
            (n.store.core.perform fuel call).map BatchStore.core :=
        perform_congr hSteady.1 (Or.inl rfl) n.store.core_core.symm
      unfold PostageNode.sync updaterCalls BatchStore.performAll
      rw [← hCore, ← hStore]
      cases hCall : n.finish (Writes.perform fuel call) with
      | none => rfl
      | some next =>
        have hNext := hSteady.2
        rw [hCall] at hNext
        exact ih (serving_of_finish hServing hFirst hCall) hRest hNext

theorem serving_sync (hServing : n.Serving startBlock ordered seen)
    (hExpected : AllExpected startBlock seen (updaterCalls ops))
    (hSync : n.sync fuel ops = some after) : ∃ seen', after.Serving startBlock ordered seen' := by
  induction ops generalizing n seen with
  | nil =>
    cases hSync
    exact ⟨seen, hServing⟩
  | cons op ops ih =>
    cases op with
    | unreserve count => exact ih (serving_unreserveItems hServing) hExpected hSync
    | call call =>
      rcases Option.bind_eq_some_iff.mp hSync with ⟨next, hCall, hRest⟩
      exact ih (serving_of_finish hServing hExpected.1 hCall) hExpected.2 hRest

theorem sync_append (n : PostageNode) :
    n.sync fuel (ops ++ ops') = (n.sync fuel ops).bind (PostageNode.sync fuel ops') := by
  induction ops generalizing n with
  | nil => rfl
  | cons op ops ih =>
    cases op with
    | unreserve count => exact ih _
    | call call =>
      rw [List.cons_append, PostageNode.sync, PostageNode.sync, Option.bind_assoc]
      exact congrArg _ (funext ih)

/- A machine whose node starts and syncs. -/
theorem reach_boot (hFresh : PostageNode.blank.boot startBlock = some fresh) :
    Reach (MachineStep fuel startBlock) (fun _ _ => True) (.down .blank) (.up false fresh) :=
  Reach.start.step _ trivial (.boot hFresh)

theorem reach_sync
    (hReach : Reach (MachineStep fuel startBlock) (fun _ _ => True) machine (.up seen n))
    (hExpected : AllExpected startBlock seen (updaterCalls ops))
    (hSync : n.sync fuel ops = some after) :
    Reach (MachineStep fuel startBlock) (fun _ _ => True) machine
      (.up ((updaterCalls ops).foldl seenAfter seen) after) := by
  induction ops generalizing n seen with
  | nil =>
    cases hSync
    exact hReach
  | cons op ops ih =>
    cases op with
    | unreserve count => exact ih (hReach.step _ trivial (.unreserve seen n count)) hExpected hSync
    | call call =>
      rcases Option.bind_eq_some_iff.mp hSync with ⟨next, hCall, hRest⟩
      exact ih (hReach.step _ trivial (.call call hExpected.1 hCall)) hExpected.2 hRest

theorem AllExpected.append (hCalls : AllExpected startBlock seen calls)
    (hCalls' : ∀ seen, AllExpected startBlock seen calls') :
    AllExpected startBlock seen (calls ++ calls') := by
  induction calls generalizing seen with
  | nil => exact hCalls' seen
  | cons call calls ih => exact ⟨hCalls.1, ih hCalls.2⟩

/- The calls for the events of later blocks. -/
theorem allExpected_events {events : List Log} (hLater : ∀ e ∈ events, startBlock < e.blockNumber)
    (seen : Bool) : AllExpected startBlock seen (events.flatMap fun e =>
        [.updateBlockNumber e.blockNumber, .processEvent e]) := by
  induction events generalizing seen with
  | nil => trivial
  | cons e events ih =>
    exact ⟨hLater e (List.mem_cons_self ..), rfl,
      ih (fun e hMem => hLater e (List.mem_cons_of_mem _ hMem)) true⟩

theorem allExpected_pages (hLinked : Linked first pages next) (hLater : startBlock < first)
    (seen : Bool) :
    AllExpected startBlock seen (pages.flatMap (Page.calls Log.blockNumber logs)) := by
  induction hLinked generalizing seen with
  | nil next => trivial
  | @cons page pages next hLe hNext hRest ih =>
    have hLast : startBlock < page.last := UInt64.lt_of_lt_of_le hLater hLe
    have hAfter : startBlock < page.last + 1 := by
      rw [UInt64.lt_iff_toNat_lt] at hLast ⊢
      omega
    have hEvents : ∀ e ∈ filterLogs Log.blockNumber logs page.first
          page.last, startBlock < e.blockNumber := by
      intro e hMem
      have hRange := (mem_filterLogs.mp hMem).2
      exact UInt64.lt_of_lt_of_le hLater hRange.1
    refine AllExpected.append ?_ (ih hAfter)
    refine ⟨trivial, AllExpected.append (allExpected_events hEvents seen) fun seen => ?_⟩
    exact ⟨hLast, trivial, trivial⟩

/-
  A node that crashed while it processed a page, at any point, starts again and syncs the pages to
  the same batches, values, chain state and limits as a node that did not crash, and the items in
  its queue are in order.
-/
theorem crash_recovered {fresh synced crashed : PostageNode} {logs : List Log} {next : UInt64}
    {pages : List Page} {ops' : List SyncOp} (hRoom : startBlock < startBlock + 1)
    (hFresh : PostageNode.blank.boot startBlock = some fresh)
    (hPages : Linked fresh.syncFrom pages next)
    (hCalls : updaterCalls ops = pages.flatMap (Page.calls Log.blockNumber logs))
    (hSteady : fresh.steadySync fuel ops = true) (hSynced : fresh.sync fuel ops = some synced)
    (hCrashed :
      Reach (MachineStep fuel startBlock) (fun _ _ => True) (.down .blank) (.down crashed))
    (hDirty : crashed.disk.dirty = true) (hCalls' : updaterCalls ops' = updaterCalls ops) :
    ∃ again,
      crashed.boot startBlock = some again ∧ again.syncFrom = fresh.syncFrom ∧
        (again.steadySync fuel ops' = true →
          ∃ result,
            again.sync fuel ops' = some result ∧ result.disk.batches = synced.disk.batches ∧
              result.disk.values = synced.disk.values ∧ result.cs = synced.cs ∧
              result.rs.radius = synced.rs.radius ∧ result.rs.available = synced.rs.available ∧
              result.rs.inner = synced.rs.inner ∧ result.rs.outer = synced.rs.outer ∧
              (result.added < 2 ^ 64 →
                (result.disk.items.branch unreserveQueueKey).map Prod.snd = result.queue)) := by
  have hRestartable := restartable_of_reach hCrashed
  rcases boot_blank hFresh with ⟨hServing, hStore, hFrom⟩
  rw [hFrom] at hPages
  have hExpected : AllExpected startBlock false (updaterCalls ops) := by
    rw [hCalls]
    exact allExpected_pages hPages hRoom false
  have hAgain : (restarted startBlock crashed).Serving startBlock True
        false := serving_restarted hRestartable.cardinality
  refine ⟨restarted startBlock crashed, boot_dirty hRestartable hDirty, hFrom.symm, ?_⟩
  intro hSteady'
  have hExpected' := hExpected
  rw [← hCalls'] at hExpected'
  -- both runs do what a run without consumption does
  have hLeft := sync_core hServing hExpected hSteady
  have hRight := sync_core hAgain hExpected' hSteady'
  rw [hSynced, hStore] at hLeft
  rw [hCalls'] at hRight
  have hSame := hRight.trans hLeft.symm
  rcases Option.map_eq_some_iff.mp hSame with ⟨result, hResult, hCore⟩
  rcases serving_sync hAgain hExpected' hResult with ⟨seen, hEnd⟩
  refine ⟨result, hResult, congrArg BatchStore.batches hCore, congrArg BatchStore.values hCore,
    congrArg BatchStore.cs hCore, congrArg (fun st => st.rs.radius) hCore,
    congrArg (fun st => st.rs.available) hCore, congrArg (fun st => st.rs.inner) hCore,
    congrArg (fun st => st.rs.outer) hCore, ?_⟩
  intro hFew
  rcases hEnd.queue trivial hFew with ⟨first, hItems, -⟩
  rw [hItems, map_snd_numbered]

/- The calls for a page, without consumption. -/
def pageOps (logs : List Log) (page : Page) : List SyncOp :=
  (page.calls Log.blockNumber logs).map SyncOp.call

/- A price and a batch. -/
def syncedLogs : List Log :=
  [⟨1, .priceUpdate 2⟩, ⟨2, .batchCreated 1 100 0 17 16 false⟩]

/- The calls before the batch is created. -/
def callsBefore : List SyncOp :=
  [.call .transactionStart, .call (.updateBlockNumber 1), .call (.processEvent ⟨1, .priceUpdate 2⟩),
    .call (.updateBlockNumber 2)]

/-
  A node that crashes when the batch has a value key and is not stored yet, and one that consumes an
  item.
-/
theorem crash_recovered_one :
    ∃ fresh synced crashed again result : PostageNode,
      PostageNode.blank.boot 0 = some fresh ∧
        fresh.sync 1 (pageOps syncedLogs ⟨1, 5⟩ ++ [.unreserve 1]) = some synced ∧
        crashed.disk.dirty = true ∧ crashed.boot 0 = some again ∧
        again.sync 1 (pageOps syncedLogs ⟨1, 5⟩) = some result ∧
        result.disk.batches = synced.disk.batches ∧ result.rs.available = synced.rs.available := by
  let ops := pageOps syncedLogs ⟨1, 5⟩ ++ [.unreserve 1]
  let create : UpdaterCall Log := .processEvent ⟨2, .batchCreated 1 100 0 17 16 false⟩
  let crash := (Writes.perform 1 create).stop 2 fun _ => 0
  have hRun :
      ∃ fresh ∈ PostageNode.blank.boot 0, ∃ before ∈ fresh.sync 1 callsBefore,
        ∃ synced ∈ fresh.sync 1 ops, ∃ again ∈ (crash before).boot 0,
          fresh.steadySync 1 ops = true ∧ (crash before).disk.dirty = true ∧
            again.steadySync 1 (pageOps syncedLogs ⟨1, 5⟩) = true := by
    decide +kernel
  rcases hRun with ⟨fresh, hFresh, before, hBefore, synced, hSynced, again, hAgain, hSteady,
    hDirty, hSteady'⟩
  have hOne : (0 : UInt64) < 1 := by decide
  have hTwo : (0 : UInt64) < 2 := by decide
  have hExpected : AllExpected 0 false (updaterCalls callsBefore) :=
    ⟨trivial, hOne, rfl, hTwo, trivial⟩
  have hReach := reach_sync (reach_boot hFresh) hExpected hBefore
  have hCrashed := hReach.step _ trivial (.crash before create 2 rfl)
  have hPages : Linked fresh.syncFrom [⟨1, 5⟩] (5 + 1) := by
    rw [(boot_blank hFresh).2.2]
    exact (Linked.nil 1).concat (by decide) (by decide)
  have hCalls : updaterCalls ops = [⟨1, 5⟩].flatMap (Page.calls Log.blockNumber syncedLogs) := rfl
  have hCalls' : updaterCalls (pageOps syncedLogs ⟨1, 5⟩) = updaterCalls ops := rfl
  rcases crash_recovered (by decide) hFresh hPages hCalls
    hSteady hSynced hCrashed hDirty hCalls' with ⟨again', hAgain', -, hResult⟩
  cases hAgain.symm.trans hAgain'
  rcases hResult hSteady' with ⟨result, hSync, hBatches, -, -, -, hAvailable, -⟩
  exact ⟨fresh, synced, _, again, result, hFresh, hSynced,
    hDirty, hAgain, hSync, hBatches, hAvailable⟩

/-
  Batches that expire one after the other.  They are so large that the radius grows to more than
  192.
-/
def lapsedLogs : List Log :=
  [⟨1, .priceUpdate 1⟩, ⟨1, .batchCreated 1 1 0 13 16 false⟩, ⟨2, .batchCreated 2 5 0 75 16 false⟩,
    ⟨10, .batchCreated 3 30 0 116 16 false⟩, ⟨40, .batchCreated 4 50 0 158 16 false⟩,
    ⟨60, .batchCreated 5 70 0 201 16 false⟩, ⟨80, .batchCreated 6 90 0 214 16 false⟩]

/-
  A node consumes items after the first page and crashes in the second one.  The storage radius is
  lost, and when the last batch expires in the sync from the first block, it gives back capacity
  that it does not give back in a node that did not crash.
-/
theorem crash_not_recovered :
    ∃ (ops ops' : List SyncOp) (fresh synced crashed again result : PostageNode),
      PostageNode.blank.boot 0 = some fresh ∧ Linked fresh.syncFrom [⟨1, 80⟩, ⟨81, 100⟩] (100 + 1) ∧
        updaterCalls ops = [⟨1, 80⟩, ⟨81, 100⟩].flatMap (Page.calls Log.blockNumber lapsedLogs) ∧
        updaterCalls ops' = updaterCalls ops ∧ fresh.sync 60 ops = some synced ∧
        Reach (MachineStep 60 0) (fun _ _ => True) (.down .blank) (.down crashed) ∧
        crashed.disk.dirty = true ∧ crashed.boot 0 = some again ∧ again.sync 60 ops' = some result ∧
        result.rs.available ≠ synced.rs.available := by
  let first := pageOps lapsedLogs ⟨1, 80⟩
  let second := pageOps lapsedLogs ⟨81, 100⟩
  let crash := (Writes.perform 60 (.updateBlockNumber 100)).stop 3 fun _ => 0
  have hRun :
      ∃ fresh ∈ PostageNode.blank.boot 0, ∃ used ∈ fresh.sync 60 (first ++ [.unreserve 40]),
        ∃ synced ∈ used.sync 60 second, ∃ before ∈ used.sync 60 [.call .transactionStart],
          ∃ again ∈ (crash before).boot 0, ∃ result ∈ again.sync 60 (first ++ second),
            (crash before).disk.dirty = true ∧ result.rs.available ≠ synced.rs.available := by
    decide +kernel
  rcases hRun with ⟨fresh, hFresh, used, hUsed, synced, hSynced, before, hBefore, again, hAgain,
    result, hResult, hFlags⟩
  have hFirst : Linked 1 [⟨1, 80⟩] (80 + 1) := (Linked.nil 1).concat (by decide) (by decide)
  have hPages : Linked fresh.syncFrom [⟨1, 80⟩, ⟨81, 100⟩] (100 + 1) := by
    rw [(boot_blank hFresh).2.2]
    exact hFirst.concat (by decide) (by decide)
  have hCalls :
      updaterCalls (first ++ [.unreserve 40]) =
        [⟨1, 80⟩].flatMap (Page.calls Log.blockNumber lapsedLogs) := rfl
  have hPage : AllExpected 0 false (updaterCalls (first ++ [.unreserve 40])) := by
    rw [hCalls]
    exact allExpected_pages hFirst (by decide) false
  have hStart : AllExpected 0 true (updaterCalls [.call .transactionStart]) := ⟨trivial, trivial⟩
  have hReach := reach_sync (reach_sync (reach_boot hFresh) hPage hUsed) hStart hBefore
  have hCrashed :=
    hReach.step _ trivial
      (.crash before (.updateBlockNumber 100) 3 (by decide : (0 : UInt64) < 100))
  refine ⟨first ++ [.unreserve 40] ++ second, first ++ second,
    fresh, synced, _, again, result, hFresh, hPages, rfl, rfl,
    ?_, hCrashed, hFlags.1, hAgain, hResult, hFlags.2⟩
  rw [sync_append, Option.mem_def.mp hUsed]
  exact hSynced

end Sana.Postage
