import Sana.Postage.BatchService
import Sana.Postage.UnreserveQueue
import Sana.Program.Call
import Sana.Syncer.Rounds

/-
  The writes of the batch store.

  The batch store keeps its data in the state store, and part of it in memory.  Each call is a
  sequence of single writes, between which the node may stop.  A call that is not stopped does what
  the batch store does.

  Key definitions include:
    * `PostageNode`
    * `PostageNode.store`

  Key theorems include:
    * `putChainState_implements`
-/

---- State

namespace Sana.Postage

variable {startBlock : UInt64} {ordered : Prop}

section

open KeyValue Program

/- What is in the state store. -/
structure Disk where
  batches : Index BatchID Batch
  values : Index ValueKey Unit
  chainState : Option ChainState
  reserveState : Option ReserveState
  items : Index (List UInt8) UnreserveItem
  cardinality : Option UInt64
  dirty : Bool

/-
  A node: the state store, and the batch store in memory. Beside them are the items that were queued
  and not yet consumed, in the order in which they were queued, and the number of all items that
  were ever queued.
-/
structure PostageNode where
  disk : Disk
  cs : ChainState
  rs : ReserveState
  queueIdx : UInt64
  queue : List UnreserveItem
  added : Nat

/- The batch store of a node. -/
def PostageNode.store (n : PostageNode) : BatchStore where
  batches := n.disk.batches
  values := n.disk.values
  cs := n.cs
  rs := n.rs
  queue := n.queue

---- Put

namespace Writes

def setReserve (rs : ReserveState) : Fallible PostageNode Unit :=
  .set fun n => { n with rs := rs }

def putReserve : Fallible PostageNode Unit :=
  .set fun n => { n with disk.reserveState := some n.rs }

def get (id : BatchID) : Fallible PostageNode Batch :=
  .find fun n => n.store.get id

def unreserve (b : BatchID) (radius : UInt8) : Fallible PostageNode Unit := do
  let c ← .get fun n => n.queueIdx + 1
  .set fun n =>
    { n with
      disk.items := n.disk.items.put (queueKey c) ⟨b, radius⟩
      queue := n.queue ++ [⟨b, radius⟩]
      added := n.added + 1 }
  .set fun n => { n with disk.cardinality := some c }
  .set fun n => { n with queueIdx := c }

/- The iteration of `evictOuter`. -/
def evictValues (last : Batch) : List ValueKey → Fallible PostageNode Unit
| [] => pure ()
| key :: keys => do
    let b ← .find fun n => n.store.getOr last key.id
    let rs ← .get fun n => n.store.rs
    if b.value < rs.outer then evictValues last keys
    else if 0 ≤ rs.available.toInt ∧ rs.outer ≠ b.value then pure ()
    else
      setReserve (BatchStore.dropOuter rs b)
      unreserve b.id rs.radius
      evictValues last keys

def evictOuter (last : Batch) : Nat → Fallible PostageNode Unit
| 0 => failure
| fuel + 1 => do
    let rs ← .get fun n => n.store.rs
    if 0 ≤ rs.available.toInt then pure ()
    else
      let keys ← .get fun n => n.store.valueKeys
      evictValues last keys
      let rs ← .get fun n => n.store.rs
      setReserve { rs with outer := rs.outer + 1 }
      if rs.available.toInt < 0 then
        setReserve { rs with
          radius := rs.radius + 1
          outer := rs.inner }
        evictOuter last fuel
      else putReserve

def update (fuel : Nat) (b : Batch) (oldDepth : UInt8)
    (oldValue : Nat) : Fallible PostageNode Unit := do
  let rs ← .get fun n => n.store.rs
  let change := rs.change oldValue b.value oldDepth b.depth
  setReserve { change.1 with available := change.1.available + change.2.1 }
  unreserve b.id change.2.2
  evictOuter b fuel

def put (fuel : Nat) (b : Batch) (value : Nat) (depth : UInt8) : Fallible PostageNode Unit := do
  let new := { b with value := value, depth := depth }
  .set fun n => { n with disk.values := n.disk.values.delete ⟨b.value, b.id⟩ }
  .set fun n => { n with disk.values := n.disk.values.put ⟨value, b.id⟩ () }
  update fuel new b.depth b.value
  .set fun n =>
    { n with
      disk.batches := n.disk.batches.put new.id { new with radius := 0 } }

---- PutChainState

/- The iteration of `evictExpired`, and what to delete. -/
def expireValues (below : Nat) :
    List ValueKey → I64 → List BatchID → Fallible PostageNode (List BatchID)
| [], _, toDelete => pure toDelete
| key :: keys, multiplier, toDelete => do
    let b ← get key.id
    let rs ← .get fun n => n.store.rs
    let cs ← .get fun n => n.store.cs
    if below ≤ b.value then pure toDelete
    else
      let multiplier := BatchStore.multiply rs b.value multiplier
      setReserve { rs with
        available := rs.available + multiplier * exp2 (b.radius - rs.radius - 1) }
      expireValues below keys multiplier (if b.value ≤ cs.totalAmount then toDelete ++ [b.id]
        else toDelete)

def delete : List BatchID → Fallible PostageNode Unit
| [] => pure ()
| id :: ids => do
    let b ← get id
    .set fun n => { n with disk.values := n.disk.values.delete ⟨b.value, id⟩ }
    .set fun n => { n with disk.batches := n.disk.batches.delete id }
    delete ids

def evictExpired : Fallible PostageNode Unit := do
  let below ← .get fun n => n.store.evictBelow
  let keys ← .get fun n => n.store.valueKeys
  let toDelete ← expireValues below keys 0 []
  let rs ← .get fun n => n.store.rs
  setReserve { rs with
    inner := below
    outer := if rs.outer < below then below else rs.outer }
  putReserve
  delete toDelete

def putChainState (cs : ChainState) : Fallible PostageNode Unit := do
  .set fun n => { n with cs := cs }
  evictExpired
  .set fun n => { n with disk.chainState := some cs }

end Writes

end

---- The Batch Service

section

open KeyValue Program Syncer

namespace Writes

def create (fuel : Nat) (id : BatchID) (owner : BitVec 160) (normalisedBalance : Nat)
    (depth bucketDepth : UInt8) (immutable : Bool) : Fallible PostageNode Unit := do
  let cs ← .get fun n => n.store.cs
  let b : Batch :=
    { id := id
      owner := owner
      value := 0
      start := cs.block
      depth := depth
      bucketDepth := bucketDepth
      immutable := immutable }
  put fuel b normalisedBalance depth

def topUp (fuel : Nat) (id : BatchID) (normalisedBalance : Nat) : Fallible PostageNode Unit := do
  let b ← get id
  put fuel b normalisedBalance b.depth

def updateDepth (fuel : Nat) (id : BatchID) (depth : UInt8)
    (normalisedBalance : Nat) : Fallible PostageNode Unit := do
  let b ← get id
  put fuel b normalisedBalance depth

def updatePrice (price : Nat) : Fallible PostageNode Unit := do
  let cs ← .get fun n => n.store.cs
  putChainState { cs with currentPrice := price }

def updateBlockNumber (blockNumber : UInt64) : Fallible PostageNode Unit := do
  let cs ← .get fun n => n.store.cs
  if blockNumber = cs.block then pure ()
  else putChainState (BatchStore.chainStateAt cs blockNumber)

def processEvent (fuel : Nat) (e : Log) : Fallible PostageNode Unit :=
  match e.event with
  | .batchCreated batchId normalisedBalance owner depth bucketDepth immutableFlag =>
    create fuel batchId owner normalisedBalance depth bucketDepth immutableFlag
  | .batchTopUp batchId normalisedBalance => topUp fuel batchId normalisedBalance
  | .batchDepthIncrease batchId newDepth normalisedBalance =>
    updateDepth fuel batchId newDepth normalisedBalance
  | .priceUpdate price => updatePrice price

def transactionStart : Fallible PostageNode Unit :=
  .set fun n => { n with disk.dirty := true }

def transactionEnd : Fallible PostageNode Unit :=
  .set fun n => { n with disk.dirty := false }

/- A call of the syncer. -/
def perform (fuel : Nat) : UpdaterCall Log → Fallible PostageNode Unit
| .transactionStart => transactionStart
| .updateBlockNumber blockNumber => updateBlockNumber blockNumber
| .processEvent e => processEvent fuel e
| .transactionEnd => transactionEnd

end Writes

end

---- Invariants

section

open KeyValue Program

namespace PostageNode

/-
  The node can be started again: when the block that is stored is zero or missing, there are no
  values to iterate over.
-/
structure Restartable (n : PostageNode) : Prop where
  stored : n.disk.values = .empty ∨ ∃ cs, n.disk.chainState = some cs ∧ cs.block ≠ 0
  cardinality : (n.disk.cardinality.getD 0).toNat ≤ n.added

/- The stored items are those that are left, in order. -/
def Ordered (n : PostageNode) : Prop :=
  n.added < 2 ^ 64 →
    ∃ first,
      n.disk.items.branch unreserveQueueKey = numbered queueName first n.queue ∧
        first + n.queue.length = n.queueIdx.toNat + 1

/- A running node; `ordered` tells whether to follow the queue. -/
structure Sound (ordered : Prop) (n : PostageNode) : Prop extends Restartable n where
  queueIdx : n.queueIdx.toNat ≤ n.added
  queue : ordered → n.Ordered

/- A running node that has stored a later block number. -/
structure Ready (startBlock : UInt64) (ordered : Prop)
    (n : PostageNode) : Prop extends Sound ordered n where
  settled : n.disk.chainState = some n.cs
  later : startBlock < n.cs.block

/- A running node that evicts expired batches at `cs`. -/
structure Expiring (ordered : Prop) (cs : ChainState)
    (n : PostageNode) : Prop extends Sound ordered n where
  current : n.cs = cs

/-
  A running node between two calls.  Chain states of later blocks are stored; `seen` tells whether
  there must be one.
-/
structure Serving (startBlock : UInt64) (ordered : Prop) (seen : Bool)
    (n : PostageNode) : Prop extends Sound ordered n where
  settled : startBlock < n.cs.block → n.disk.chainState = some n.cs
  later : seen = true → startBlock < n.cs.block

variable {startBlock : UInt64} {ordered : Prop} {seen : Bool}
variable {n : PostageNode}

/- A later block is not the zero block. -/
theorem ne_zero_of_lt (hLater : startBlock < block) : block ≠ 0 := by
  intro hZero
  rw [hZero] at hLater
  exact Nat.not_lt_zero _ hLater

theorem Ready.restartable (n : PostageNode) (hReady : n.Ready startBlock ordered) : n.Restartable :=
  hReady.toRestartable

theorem Expiring.restartable {cs : ChainState} (n : PostageNode)
    (hExpiring : n.Expiring ordered cs) : n.Restartable :=
  hExpiring.toRestartable

theorem Serving.restartable (n : PostageNode) (hServing : n.Serving startBlock ordered seen) :
    n.Restartable :=
  hServing.toRestartable

/- After a later block, a node is ready for events. -/
theorem Serving.ready (hServing : n.Serving startBlock ordered seen)
    (hLater : startBlock < n.cs.block) : n.Ready startBlock ordered :=
  ⟨hServing.toSound, hServing.settled hLater, hLater⟩

theorem Ready.serving (n : PostageNode) (hReady : n.Ready startBlock ordered) :
    n.Serving startBlock ordered seen :=
  ⟨hReady.toSound, fun _ => hReady.settled, fun _ => hReady.later⟩

/- A number grows by one, or wraps. -/
theorem toNat_succ_le {c : UInt64} (hLe : c.toNat ≤ bound) : (c + 1).toNat ≤ bound + 1 := by
  exact (Nat.mod_le _ _).trans (Nat.succ_le_succ hLe)

/- The next number is larger than all numbers in the queue. -/
theorem Ordered.unreserve (hOrdered : n.Ordered) (hIndex : n.queueIdx.toNat ≤ n.added)
    (item : UnreserveItem) : Ordered
      { n with
        disk.items := n.disk.items.put (queueKey (n.queueIdx + 1)) item
        disk.cardinality := some (n.queueIdx + 1)
        queueIdx := n.queueIdx + 1
        queue := n.queue ++ [item]
        added := n.added + 1 } := by
  intro hRoom
  dsimp only at hRoom ⊢
  rcases hOrdered (Nat.lt_of_succ_lt hRoom) with ⟨first, hItems, hLast⟩
  have hNext : (n.queueIdx + 1).toNat = n.queueIdx.toNat + 1 := by
    have hOne : (1 : UInt64).toNat = 1 := rfl
    rw [UInt64.toNat_add, hOne]
    omega
  have hName : queueKey (n.queueIdx + 1) = queueName (n.queueIdx.toNat + 1) := by
    unfold queueName
    rw [← hNext, UInt64.ofNat_toNat]
  refine ⟨first, ?_, ?_⟩
  · rw [Index.branch_put_last _ item (unreserveQueueKey_prefix_queueKey _), hItems,
      numbered_append, hLast]
    · rfl
    · intro entry hMem
      rw [hItems] at hMem
      rcases exists_of_mem_numbered hMem with ⟨i, -, hLt, hEq⟩
      rw [hEq, hName]
      exact compare_queueName (by omega) (by omega)
  · rw [List.length_append, List.length_singleton]
    omega

end PostageNode

end

---- Refinement Of Put

section

open KeyValue Program

/- What a call does to the batch store of a node. -/
abbrev NodeImplements (Before After : PostageNode → Prop) (call : Fallible PostageNode Unit)
    (effect : BatchStore → Option BatchStore) : Prop :=
  Fallible.Implements PostageNode.store PostageNode.Restartable Before After call effect

open PostageNode Fallible

theorem unreserve_implements :
    NodeImplements (Ready startBlock ordered) (Ready startBlock ordered) (Writes.unreserve b radius)
      (fun st => some (st.unreserve b radius)) where
  value := fun _ _ _ => rfl
  after := by
    intro _ n _ hReady _
    refine ⟨⟨⟨hReady.stored, ?_⟩, ?_, ?_⟩, hReady.settled, hReady.later⟩
    · exact toNat_succ_le hReady.queueIdx
    · exact toNat_succ_le hReady.queueIdx
    · intro hOrdered
      exact (hReady.queue hOrdered).unreserve hReady.queueIdx ⟨b, radius⟩
  stop := by
    intro count _ n hReady
    have hOld : (n.disk.cardinality.getD 0).toNat ≤ n.added + 1 :=
      Nat.le_succ_of_le hReady.cardinality
    have hNew : (n.queueIdx + 1).toNat ≤ n.added + 1 := toNat_succ_le hReady.queueIdx
    match count with
    | 0 => exact hReady.toRestartable
    | 1 => exact ⟨hReady.stored, hOld⟩
    | 2 => exact ⟨hReady.stored, hNew⟩
    | _ + 3 => exact ⟨hReady.stored, hNew⟩

theorem setReserve_implements (rs : ReserveState) :
    NodeImplements (Ready startBlock ordered) (Ready startBlock ordered) (Writes.setReserve rs)
      (fun st => some { st with rs := rs }) :=
  Refines.set Ready.restartable Ready.restartable (fun _ _ => rfl) fun _ hReady =>
      ⟨⟨⟨hReady.stored, hReady.cardinality⟩, hReady.queueIdx,
        hReady.queue⟩, hReady.settled, hReady.later⟩

theorem evictValues_implements :
    NodeImplements (Ready startBlock ordered) (Ready startBlock ordered)
      (Writes.evictValues last keys) (BatchStore.evictValues last keys) := by
  induction keys with
  | nil => exact Refines.pure Ready.restartable ()
  | cons key keys ih =>
    have hVisit :
        ∀ (b : Batch) (rs : ReserveState),
          NodeImplements (Ready startBlock ordered) (Ready startBlock ordered) (do
              Writes.setReserve (BatchStore.dropOuter rs b)
              Writes.unreserve b.id rs.radius
              Writes.evictValues last keys)
            (fun st =>
              BatchStore.evictValues last keys
                (BatchStore.unreserve { st with rs := BatchStore.dropOuter rs b }
                  b.id rs.radius)) :=
      fun b rs =>
        (setReserve_implements _).andThen (unreserve_implements.andThen ih)
    unfold Writes.evictValues
    refine Refines.congr
      (Refines.find_bind Ready.restartable (fun st => st.getOr last key.id) fun b =>
          Refines.get_bind Ready.restartable BatchStore.rs fun rs => .ite (fun _ => ih) fun _ =>
              .ite (fun _ => .pure Ready.restartable ()) fun _ => hVisit b rs) fun st => ?_
    rw [BatchStore.evictValues, Option.bind_eq_bind, Option.map_bind]
    congr 1
    funext b
    dsimp only [Function.comp]
    split
    · rfl
    · split <;> rfl

theorem putReserve_implements :
    NodeImplements (Ready startBlock ordered) (Ready startBlock ordered) Writes.putReserve some :=
  Refines.set Ready.restartable Ready.restartable (fun _ _ => rfl) fun _ hReady =>
      ⟨⟨⟨hReady.stored, hReady.cardinality⟩, hReady.queueIdx,
        hReady.queue⟩, hReady.settled, hReady.later⟩

theorem evictOuter_implements :
    NodeImplements (Ready startBlock ordered) (Ready startBlock ordered)
      (Writes.evictOuter last fuel) (BatchStore.evictOuter last fuel) := by
  induction fuel with
  | zero => exact Refines.failure Ready.restartable
  | succ fuel ih =>
    refine Refines.congr
      (Refines.get_bind Ready.restartable BatchStore.rs
        fun rs => .ite (fun _ => .pure Ready.restartable ()) fun _ =>
          Refines.get_bind Ready.restartable BatchStore.valueKeys fun keys =>
            evictValues_implements.andThen
              (Refines.get_bind Ready.restartable BatchStore.rs fun rs =>
                (setReserve_implements _).andThen (.ite (fun _ =>
                    (setReserve_implements _).andThen ih)
                  fun _ => putReserve_implements)))
      fun st => ?_
    rw [BatchStore.evictOuter]
    unfold BatchStore.evictRound
    split
    · rfl
    · dsimp only [Option.bind_eq_bind]
      cases BatchStore.evictValues last st.valueKeys st with
      | none => rfl
      | some after =>
        dsimp only [Option.bind_some]
        split <;> rfl

theorem put_implements :
    NodeImplements (Ready startBlock ordered) (Ready startBlock ordered)
      (Writes.put fuel b value depth) (fun st => st.put fuel b value depth) := by
  have hValues :
      ∀ change : Index ValueKey Unit → Index ValueKey Unit,
        NodeImplements (Ready startBlock ordered) (Ready startBlock ordered) (.set fun n =>
            { n with disk.values := change n.disk.values })
          (fun st => some { st with values := change st.values }) :=
    fun change =>
      Refines.set Ready.restartable Ready.restartable (fun _ _ => rfl) fun n hReady =>
          ⟨⟨⟨.inr ⟨n.cs, hReady.settled, ne_zero_of_lt hReady.later⟩,
            hReady.cardinality⟩, hReady.queueIdx, hReady.queue⟩, hReady.settled, hReady.later⟩
  have hBatch :
      ∀ new : Batch,
        NodeImplements (Ready startBlock ordered) (Ready startBlock ordered) (.set fun n =>
            { n with
              disk.batches := n.disk.batches.put new.id { new with radius := 0 } })
          (fun st => some (st.storeBatch new)) :=
    fun new =>
      Refines.set Ready.restartable Ready.restartable (fun _ _ => rfl) fun _ hReady =>
          ⟨⟨⟨hReady.stored, hReady.cardinality⟩, hReady.queueIdx, hReady.queue⟩, hReady.settled,
            hReady.later⟩
  have hUpdate :
      ∀ (new : Batch) (oldDepth : UInt8) (oldValue : Nat),
        NodeImplements (Ready startBlock ordered) (Ready startBlock ordered)
          (Writes.update fuel new oldDepth oldValue)
          (fun st => st.update fuel new oldDepth oldValue) := fun new oldDepth oldValue =>
      Refines.get_bind Ready.restartable BatchStore.rs
        fun rs => (setReserve_implements _).andThen
          (unreserve_implements.andThen evictOuter_implements)
  refine Refines.congr
    ((hValues fun values => values.delete ⟨b.value, b.id⟩).andThen
      ((hValues fun values => values.put ⟨value, b.id⟩ ()).andThen
        ((hUpdate _ _ _).andThen (hBatch _)))) fun st => ?_
  unfold BatchStore.put
  rw [Option.bind_eq_bind, Option.map_bind]
  rfl

end

---- Refinement Of PutChainState

section

open KeyValue Program

open PostageNode Fallible

variable {cs : ChainState}

theorem delete_empty {K V : Type} [Ord K] [Std.TransOrd K] [Std.LawfulEqOrd K] (key : K) :
    (Index.empty : Index K V).delete key = .empty :=
  Index.delete_of_get_eq_none _ (Index.get_empty key)

theorem expiring_setReserve (rs : ReserveState) :
    NodeImplements (Expiring ordered cs) (Expiring ordered cs) (Writes.setReserve rs)
      (fun st => some { st with rs := rs }) :=
  Refines.set Expiring.restartable Expiring.restartable (fun _ _ => rfl) fun _ hExpiring =>
      ⟨⟨⟨hExpiring.stored, hExpiring.cardinality⟩, hExpiring.queueIdx, hExpiring.queue⟩,
        hExpiring.current⟩

theorem expiring_putReserve :
    NodeImplements (Expiring ordered cs) (Expiring ordered cs) Writes.putReserve some :=
  Refines.set Expiring.restartable Expiring.restartable (fun _ _ => rfl) fun _ hExpiring =>
      ⟨⟨⟨hExpiring.stored, hExpiring.cardinality⟩, hExpiring.queueIdx, hExpiring.queue⟩,
        hExpiring.current⟩

theorem expireValues_refines (below : Nat) (keys : List ValueKey) (multiplier : I64)
    (toDelete : List BatchID) :
    Refines store Restartable (Expiring ordered cs) (Expiring ordered cs)
      (Writes.expireValues below keys multiplier toDelete)
      (BatchStore.expireValues below keys multiplier toDelete) := by
  induction keys generalizing multiplier toDelete with
  | nil => exact Refines.pure Expiring.restartable toDelete
  | cons key keys ih =>
    refine Refines.congr
      (Refines.find_bind Expiring.restartable (fun st : BatchStore => st.get key.id) fun b =>
          Refines.get_bind Expiring.restartable BatchStore.rs
            fun rs => Refines.get_bind Expiring.restartable
              BatchStore.cs fun cs => .ite (fun _ => .pure Expiring.restartable toDelete)
                fun _ => (expiring_setReserve _).andThen (ih _ _)) fun st => ?_
    rfl

theorem delete_implements :
    NodeImplements (Expiring ordered cs) (Expiring ordered cs)
      (Writes.delete ids) (BatchStore.delete ids) := by
  induction ids with
  | nil => exact Refines.pure Expiring.restartable ()
  | cons id ids ih =>
    have hValue :
        ∀ b : Batch, NodeImplements (Expiring ordered cs) (Expiring ordered cs) (.set fun n =>
              { n with disk.values := n.disk.values.delete ⟨b.value, id⟩ })
            (fun st => some
              { st with
                values := st.values.delete ⟨b.value, id⟩ }) :=
      fun b =>
        Refines.set Expiring.restartable Expiring.restartable (fun _ _ => rfl) fun n hExpiring => by
            refine ⟨⟨⟨?_, hExpiring.cardinality⟩, hExpiring.queueIdx, hExpiring.queue⟩,
              hExpiring.current⟩
            refine hExpiring.stored.imp_left fun hEmpty => ?_
            rw [hEmpty, delete_empty]
    have hBatch : NodeImplements (Expiring ordered cs) (Expiring ordered cs) (.set fun n =>
            { n with disk.batches := n.disk.batches.delete id })
          (fun st => some { st with batches := st.batches.delete id }) :=
      Refines.set Expiring.restartable Expiring.restartable (fun _ _ => rfl) fun _ hExpiring =>
          ⟨⟨⟨hExpiring.stored, hExpiring.cardinality⟩, hExpiring.queueIdx, hExpiring.queue⟩,
            hExpiring.current⟩
    refine Refines.congr
      (Refines.find_bind Expiring.restartable (fun st : BatchStore => st.get id) fun b =>
          (hValue b).andThen (hBatch.andThen ih))
      fun st => ?_
    rw [BatchStore.delete, Option.bind_eq_bind, Option.map_bind]
    rfl

theorem evictExpired_implements :
    NodeImplements (Expiring ordered cs) (Expiring ordered cs)
      Writes.evictExpired BatchStore.evictExpired := by
  refine Refines.congr (Refines.get_bind Expiring.restartable BatchStore.evictBelow fun below =>
        Refines.get_bind Expiring.restartable BatchStore.valueKeys fun keys =>
            (expireValues_refines below keys 0 []).bind fun toDelete =>
                Refines.get_bind Expiring.restartable BatchStore.rs fun rs =>
                    (expiring_setReserve _).andThen
                      (expiring_putReserve.andThen delete_implements))
    fun st => ?_
  unfold BatchStore.evictExpired
  rw [Option.bind_eq_bind, Option.map_bind]
  rfl

/- The chain state is stored at the end. -/
theorem putChainState_implements (hLater : startBlock < cs.block) :
    NodeImplements (Sound ordered) (Ready startBlock ordered) (Writes.putChainState cs)
      (fun st => st.putChainState cs) := by
  have hCurrent :
      NodeImplements (Sound ordered) (Expiring ordered cs) (.set fun n => { n with cs := cs })
        (fun st => some { st with cs := cs }) :=
    Refines.set (fun _ hSound => hSound.toRestartable)
      Expiring.restartable (fun _ _ => rfl) fun _ hSound =>
        ⟨⟨⟨hSound.stored, hSound.cardinality⟩, hSound.queueIdx, hSound.queue⟩, rfl⟩
  have hStored :
      NodeImplements (Expiring ordered cs) (Ready startBlock ordered)
        (.set fun n => { n with disk.chainState := some cs })
        some :=
    Refines.set Expiring.restartable Ready.restartable (fun _ _ => rfl) fun n hExpiring =>
        ⟨⟨⟨.inr ⟨cs, rfl, ne_zero_of_lt hLater⟩, hExpiring.cardinality⟩,
          hExpiring.queueIdx, hExpiring.queue⟩, congrArg some hExpiring.current.symm, by
            rw [hExpiring.current]
            exact hLater⟩
  refine Refines.congr (hCurrent.andThen (evictExpired_implements.andThen hStored)) fun st => ?_
  exact Option.map_eq_bind.symm

end

---- Refinement Of The Batch Service

open KeyValue Program Syncer

open PostageNode Fallible

variable {seen : Bool}

/- The price is stored at the current block. -/
theorem updatePrice_implements :
    NodeImplements (Ready startBlock ordered) (Ready startBlock ordered) (Writes.updatePrice price)
      (fun st => st.updatePrice price) := by
  refine Refines.congr (Refines.get_bind_known BatchStore.cs fun cs =>
      .assume ?_ fun hLater =>
        (putChainState_implements hLater).weaken (fun _ hBoth => hBoth.1.toSound)
          fun _ hReady => hReady) fun st => rfl
  rintro n ⟨hReady, rfl⟩
  exact hReady.later

theorem processEvent_implements :
    NodeImplements (Ready startBlock ordered) (Ready startBlock ordered)
      (Writes.processEvent fuel e) (fun st => st.processEvent fuel e) := by
  rcases e with ⟨blockNumber, event⟩
  cases event with
  | batchCreated batchId normalisedBalance owner depth bucketDepth immutableFlag =>
    exact Refines.get_bind Ready.restartable BatchStore.cs
      fun cs => put_implements
  | batchTopUp batchId normalisedBalance =>
    refine Refines.congr
      (Refines.find_bind Ready.restartable (fun st : BatchStore => st.get batchId) fun b =>
          put_implements)
      fun st => ?_
    exact Option.map_bind.symm
  | batchDepthIncrease batchId newDepth normalisedBalance =>
    refine Refines.congr
      (Refines.find_bind Ready.restartable (fun st : BatchStore => st.get batchId) fun b =>
          put_implements)
      fun st => ?_
    exact Option.map_bind.symm
  | priceUpdate price => exact updatePrice_implements

theorem updateBlockNumber_implements (hLater : startBlock < blockNumber) :
    NodeImplements (Serving startBlock ordered seen) (Ready startBlock ordered)
      (Writes.updateBlockNumber blockNumber) (fun st => st.updateBlockNumber blockNumber) := by
  refine Refines.congr (Refines.get_bind_known BatchStore.cs fun cs => .ite (fun hSame =>
        (Refines.pure Ready.restartable ()).weaken ?_ fun _ hReady => hReady)
      fun _ =>
        (putChainState_implements hLater).weaken (fun _ hBoth => hBoth.1.toSound)
          fun _ hReady => hReady) fun st => ?_
  · rintro n ⟨hServing, rfl⟩
    rw [hSame] at hLater
    exact hServing.ready hLater
  · unfold BatchStore.updateBlockNumber
    dsimp only
    split <;> rfl

/- What a call of the syncer does to the batch store. -/
def BatchStore.perform (fuel : Nat) (call : UpdaterCall Log)
    (st : BatchStore) : Option BatchStore :=
  match call with
  | .transactionStart => some st
  | .updateBlockNumber blockNumber => st.updateBlockNumber blockNumber
  | .processEvent e => st.processEvent fuel e
  | .transactionEnd => some st

/-
  The worker asks for blocks after the first one, and gives a block number before the first event.
-/
def Expected (startBlock : UInt64) (seen : Bool) : UpdaterCall Log → Prop
| .updateBlockNumber blockNumber => startBlock < blockNumber
| .processEvent _ => seen = true
| .transactionStart => True
| .transactionEnd => True

/- Whether a block number was given, after a call. -/
def seenAfter (seen : Bool) : UpdaterCall Log → Bool
| .updateBlockNumber _ => true
| _ => seen

/- Writing the dirty flag. -/
theorem setDirty_implements (dirty : Bool) :
    NodeImplements (Serving startBlock ordered seen) (Serving startBlock ordered seen)
      (.set fun n => { n with disk.dirty := dirty }) some :=
  Refines.set Serving.restartable Serving.restartable (fun _ _ => rfl) fun _ hServing =>
      ⟨⟨⟨hServing.stored, hServing.cardinality⟩,
        hServing.queueIdx, hServing.queue⟩, hServing.settled, hServing.later⟩

theorem perform_implements (fuel : Nat) (hExpected : Expected startBlock seen call) :
    NodeImplements (Serving startBlock ordered seen)
      (Serving startBlock ordered (seenAfter seen call)) (Writes.perform fuel call)
      (BatchStore.perform fuel call) := by
  cases call with
  | transactionStart => exact setDirty_implements true
  | updateBlockNumber blockNumber =>
    exact (updateBlockNumber_implements hExpected).weaken (fun _ hServing => hServing) Ready.serving
  | processEvent e =>
    exact processEvent_implements.weaken (fun _ hServing =>
        hServing.ready (hServing.later hExpected))
      Ready.serving
  | transactionEnd => exact setDirty_implements false

end Sana.Postage
