import Sana.Postage.Accounting

/-
  The service that applies the events of the postage contract.

  The total amount grows with the blocks, and batches expire when it reaches their values.  An
  expiry at an earlier total is absorbed by one at a later total, so the state at a block does not
  depend on the blocks at which expiries were run.

  Events and block numbers do the same to two stores from which different items were consumed, as
  long as an expiry gives back the same.

  Every event is hashed together with the checksum before it.  After a crash inside a transaction
  `New` resets the batch store, so that all events are processed again.

  Key definitions include:
    * `BatchStore.create`
    * `BatchStore.updateBlockNumber`

  Key theorems include:
    * `updateBlockNumber_absorbed`
-/

---- Events

namespace Sana.Postage

variable {st st' : BatchStore}

section

open KeyValue

/- The events of the contract. -/
inductive ContractEvent where
  | batchCreated (batchId : BatchID) (normalisedBalance : Nat) (owner : BitVec 160)
      (depth bucketDepth : UInt8) (immutableFlag : Bool)
  | batchTopUp (batchId : BatchID) (normalisedBalance : Nat)
  | batchDepthIncrease (batchId : BatchID) (newDepth : UInt8) (normalisedBalance : Nat)
  | priceUpdate (price : Nat)

/- An event in the log of a block. -/
structure Log where
  blockNumber : UInt64
  event : ContractEvent

namespace BatchStore

def create (fuel : Nat) (st : BatchStore) (id : BatchID) (owner : BitVec 160)
    (normalisedBalance : Nat) (depth bucketDepth : UInt8) (immutable : Bool) : Option BatchStore :=
  let b : Batch :=
    { id := id
      owner := owner
      value := 0
      start := st.cs.block
      depth := depth
      bucketDepth := bucketDepth
      immutable := immutable }
  st.put fuel b normalisedBalance depth

def topUp (fuel : Nat) (st : BatchStore) (id : BatchID)
    (normalisedBalance : Nat) : Option BatchStore := do
  let b ← st.get id
  st.put fuel b normalisedBalance b.depth

def updateDepth (fuel : Nat) (st : BatchStore) (id : BatchID) (depth : UInt8)
    (normalisedBalance : Nat) : Option BatchStore := do
  let b ← st.get id
  st.put fuel b normalisedBalance depth

def updatePrice (st : BatchStore) (price : Nat) : Option BatchStore :=
  st.putChainState { st.cs with currentPrice := price }

/- The chain state at a block, at the current price. -/
def chainStateAt (cs : ChainState) (blockNumber : UInt64) : ChainState :=
  { cs with
    totalAmount := cs.totalAmount + (blockNumber - cs.block).toNat * cs.currentPrice
    block := blockNumber }

def updateBlockNumber (blockNumber : UInt64) (st : BatchStore) : Option BatchStore :=
  if blockNumber = st.cs.block then some st
  else st.putChainState (chainStateAt st.cs blockNumber)

def processEvent (fuel : Nat) (e : Log) (st : BatchStore) : Option BatchStore :=
  match e.event with
  | .batchCreated batchId normalisedBalance owner depth bucketDepth immutableFlag =>
    st.create fuel batchId owner normalisedBalance depth bucketDepth immutableFlag
  | .batchTopUp batchId normalisedBalance => st.topUp fuel batchId normalisedBalance
  | .batchDepthIncrease batchId newDepth normalisedBalance =>
    st.updateDepth fuel batchId newDepth normalisedBalance
  | .priceUpdate price => st.updatePrice price

end BatchStore

end

---- Expiries In Two Steps

section

open KeyValue

/- The value index is determined by the batches. -/
theorem Indexed.values_eq
    (hIndexed : Indexed values batches) (hIndexed' : Indexed values' batches) :
    values = values' := by
  ext key : 1
  have hHas : values.has key = values'.has key := by
    rw [Bool.eq_iff_iff, hIndexed.keys, hIndexed'.keys]
  unfold Index.has at hHas
  cases hLeft : values.get key with
  | none =>
    rw [hLeft] at hHas
    exact (Option.not_isSome_iff_eq_none.mp (by simp [← hHas])).symm
  | some u =>
    rw [hLeft] at hHas
    rcases Option.isSome_iff_exists.mp hHas.symm with ⟨u', hRight⟩
    rw [hRight]

variable {last : BatchStore} {cs cs' : ChainState}
variable {bs bs' : List Batch}

/- A later total evicts up to a higher value. -/
theorem evictBelow_mono (st : BatchStore) (hLe : cs.totalAmount ≤ cs'.totalAmount) :
    ({ st with cs := cs } : BatchStore).evictBelow ≤
      ({ st with cs := cs' } : BatchStore).evictBelow := by
  unfold BatchStore.evictBelow
  dsimp only
  split
  · next hReached =>
      rw [if_pos ⟨hReached.1, hReached.2.trans hLe⟩]
      omega
  · split
    · omega
    · exact le_refl _

/- The limits after two expiries. -/
theorem evictBelow_evictBelow (hLe : cs.totalAmount ≤ cs'.totalAmount)
    (hInner : st'.rs.inner = ({ st with cs := cs } : BatchStore).evictBelow) :
    ({ st' with cs := cs' } : BatchStore).evictBelow =
      ({ st with cs := cs' } : BatchStore).evictBelow := by
  unfold BatchStore.evictBelow at hInner ⊢
  dsimp only at hInner ⊢
  by_cases hReached : 0 < st.rs.inner ∧ st.rs.inner ≤ cs.totalAmount
  · rw [if_pos hReached] at hInner
    rw [if_pos (by omega : 0 < st.rs.inner ∧ _)]
    split
    · rfl
    · omega
  · rw [if_neg hReached] at hInner
    rw [hInner]

/- What an expiry gives back, for a batch. -/
def refunded (rs : ReserveState) (total : Nat) (b : Batch) : I64 :=
  if b.value ≤ total then
    rs.size (if rs.storageRadius < rs.radius then rs.storageRadius
      else rs.radiusOf (rs.tier b.value))
      (rs.tier b.value)
  else 0

section

variable (hExpired : Expired { st with cs := cs } bs st')
include hExpired

/- The available capacity after an expiry. -/
theorem Expired.available_eq
    (hIndexed : Indexed st.values st.batches) (hOrder : InOrder st.values st.batches bs) :
    st'.rs.available = st.rs.available + st.batches.total (refunded st.rs cs.totalAmount) := by
  have hSum := sum_refund ({ st with cs := cs } : BatchStore) bs
  have hTotal := hOrder.total_eq hIndexed.ids (refunded st.rs cs.totalAmount)
  rw [hTotal, hExpired.rs]
  rw [hSum]
  rfl

/- Batches that stay would be given back the same. -/
theorem Expired.refunded_eq {id : BatchID}
    (hStored : st'.batches.get id = some b) (total : Nat) :
    refunded st'.rs total b = refunded st.rs total b := by
  have hTier : st'.rs.tier b.value = st.rs.tier b.value := hExpired.tier_eq hStored
  have hRadius : st'.rs.radius = st.rs.radius := hExpired.radius_eq
  have hStorage : st'.rs.storageRadius = st.rs.storageRadius := hExpired.storageRadius_eq
  unfold refunded ReserveState.size ReserveState.radiusOf
  rw [hTier, hRadius, hStorage]

/- Two expiries give back what the later one does alone. -/
theorem Expired.total_refunded
    (hIndexed : Indexed st.values st.batches) (hOrder : InOrder st.values st.batches bs)
    (hLe : cs.totalAmount ≤ cs'.totalAmount) :
    st.batches.total (refunded st.rs cs.totalAmount) +
        st'.batches.total (refunded st'.rs cs'.totalAmount) =
      st.batches.total (refunded st.rs cs'.totalAmount) := by
  have hFree : ∀ b, st.rs.tier b.value = .unreserved → refunded st.rs cs'.totalAmount b = 0 := by
    intro b hTier
    unfold refunded
    rw [size_of_unreserved _ hTier, ite_self]
  have hDeleted := hExpired.total (refunded st.rs cs'.totalAmount)
  rw [sum_expired ({ st with cs := cs } : BatchStore) bs hFree] at hDeleted
  have hFirst : st.batches.total (refunded st.rs cs.totalAmount) = (bs.map fun b =>
          if b.value ≤ cs.totalAmount then refunded st.rs cs'.totalAmount b
          else 0).sum := by
    rw [hOrder.total_eq hIndexed.ids]
    congr 1
    refine List.map_congr_left fun b _ => ?_
    unfold refunded
    by_cases hPaid : b.value ≤ cs.totalAmount
    · rw [if_pos hPaid, if_pos hPaid, if_pos (hPaid.trans hLe)]
    · rw [if_neg hPaid, if_neg hPaid]
  have hRest :
      st'.batches.total (refunded st'.rs cs'.totalAmount) =
        st'.batches.total (refunded st.rs cs'.totalAmount) :=
    st'.batches.total_congr fun _ _ hStored => hExpired.refunded_eq hStored _
  rw [hFirst, hRest]
  exact hDeleted

/- The batches that two expiries leave. -/
theorem Expired.stored_stored
    (hExpired' : Expired { st' with cs := cs' } bs' last) (hLe : cs.totalAmount ≤ cs'.totalAmount)
    (id : BatchID) (b : Batch) :
    last.batches.get id = some b ↔
      st.batches.get id = some b ∧ ¬ ({ st with cs := cs' } : BatchStore).Expires b := by
  have hBelow := evictBelow_evictBelow hLe hExpired.inner_eq
  have hGrows := evictBelow_mono st hLe
  rw [hExpired'.stored]
  rw [hExpired.stored, and_assoc]
  refine and_congr_right fun _ => ?_
  unfold BatchStore.Expires
  dsimp only
  omega

end

/- An earlier expiry is absorbed by a later one. -/
theorem putChainState_putChainState (hIndexed : Indexed st.values st.batches)
    (hLe : cs.totalAmount ≤ cs'.totalAmount) (hResult : st.putChainState cs = some st') :
    st'.putChainState cs' = st.putChainState cs' := by
  rcases putChainState_spec hIndexed cs with ⟨bs, first, hOrder, hFirst, hExpired⟩
  cases hFirst.symm.trans hResult
  rcases putChainState_spec hIndexed cs' with ⟨_, direct, hOrder', hDirect, hExpired'⟩
  rcases putChainState_spec hExpired.indexed cs' with ⟨_, second, hOrder'', hSecond, hExpired''⟩
  have hBatches : second.batches = direct.batches := by
    ext id b : 2
    rw [hExpired.stored_stored hExpired'' hLe, hExpired'.stored]
  have hValues : second.values = direct.values := by
    have hSame := hExpired''.indexed
    rw [hBatches] at hSame
    exact hSame.values_eq hExpired'.indexed
  have hBelow := evictBelow_evictBelow hLe hExpired.inner_eq
  have hAvailable : second.rs.available = direct.rs.available := by
    rw [hExpired''.available_eq hExpired.indexed hOrder'', hExpired.available_eq hIndexed hOrder,
      hExpired'.available_eq hIndexed hOrder', add_assoc,
      hExpired.total_refunded hIndexed hOrder hLe]
  have hOuter : second.rs.outer = direct.rs.outer := by
    have hGrows := evictBelow_mono st hLe
    have hFirst := hExpired.outer_eq
    rw [hExpired''.outer_eq, hExpired'.outer_eq]
    dsimp only at hFirst ⊢
    split_ifs at hFirst ⊢ <;> omega
  have hReserve : second.rs = direct.rs := by
    apply ReserveState.ext
    · rw [hExpired''.radius_eq, hExpired'.radius_eq]
      exact hExpired.radius_eq
    · rw [hExpired''.storageRadius_eq, hExpired'.storageRadius_eq]
      exact hExpired.storageRadius_eq
    · exact hAvailable
    · exact hOuter
    · rw [hExpired''.inner_eq, hExpired'.inner_eq, hBelow]
  have hQueue : second.queue = direct.queue := by
    rw [hExpired''.queue, hExpired'.queue]
    exact hExpired.queue
  have hCs : second.cs = direct.cs := hExpired''.cs.trans hExpired'.cs.symm
  rw [hSecond, hDirect]
  exact congrArg some (BatchStore.ext hBatches hValues hCs hReserve hQueue)

end

---- Block Numbers

section

open KeyValue

/- Amounts add up over two block numbers. -/
theorem chainStateAt_chainStateAt (hLe : cs.block ≤ m) (hLe' : m ≤ n) :
    BatchStore.chainStateAt (BatchStore.chainStateAt cs m) n = BatchStore.chainStateAt cs n := by
  have hDiff : (m - cs.block).toNat + (n - m).toNat = (n - cs.block).toNat := by
    rw [UInt64.toNat_sub_of_le _ _ hLe, UInt64.toNat_sub_of_le _ _ hLe',
      UInt64.toNat_sub_of_le _ _ (UInt64.le_trans hLe hLe')]
    rw [UInt64.le_iff_toNat_le] at hLe hLe'
    omega
  unfold BatchStore.chainStateAt
  rw [add_assoc, ← add_mul, hDiff]

/- A block number succeeds, and a later one absorbs it. -/
theorem updateBlockNumber_absorbed (hIndexed : Indexed st.values st.batches)
    (hLe : st.cs.block ≤ m) :
    ∃ st', st.updateBlockNumber m = some st' ∧ st'.cs.block = m ∧ Indexed st'.values st'.batches ∧
      (∀ id b, st'.batches.get id = some b → st.batches.get id = some b) ∧
      ∀ n, m ≤ n → st'.updateBlockNumber n = st.updateBlockNumber n := by
  by_cases hSame : m = st.cs.block
  · refine ⟨st, if_pos hSame, hSame.symm, hIndexed, fun _ _ hGet => hGet, fun _ _ => rfl⟩
  · have hCall : st.updateBlockNumber m = st.putChainState (BatchStore.chainStateAt st.cs m) :=
      if_neg hSame
    rcases putChainState_spec hIndexed
      (BatchStore.chainStateAt st.cs m) with ⟨bs, st', -, hResult, hExpired⟩
    have hCs : st'.cs = BatchStore.chainStateAt st.cs m := hExpired.cs
    refine ⟨st', hCall.trans hResult, ?_, hExpired.indexed,
      fun id b hGet => ((hExpired.stored id b).mp hGet).1, ?_⟩
    · rw [hCs]
      rfl
    · intro n hLe'
      have hLater : n ≠ st.cs.block := by
        rintro rfl
        exact hSame (UInt64.le_antisymm hLe' hLe)
      have hBlock : (BatchStore.chainStateAt st.cs m).block = m := rfl
      unfold BatchStore.updateBlockNumber
      rw [if_neg hLater, hCs, hBlock]
      by_cases hEq : n = m
      · rw [hEq, if_pos rfl, hResult]
      · have hTotal :
            (BatchStore.chainStateAt st.cs m).totalAmount ≤
              (BatchStore.chainStateAt st.cs n).totalAmount := by
          rw [← chainStateAt_chainStateAt hLe hLe']
          exact Nat.le_add_right _ _
        rw [if_neg hEq, chainStateAt_chainStateAt hLe hLe']
        exact putChainState_putChainState hIndexed hTotal hResult

end

---- Paging

open KeyValue Program

/- The service as a system of events and block numbers. -/
def batchService (fuel : Nat) : Ticked BatchStore UInt64 Log where
  tick := BatchStore.updateBlockNumber
  act := BatchStore.processEvent fuel
  height := Log.blockNumber

/- The batch that an event creates. -/
def Log.createdID (e : Log) : Option BatchID :=
  match e.event with
  | .batchCreated batchId _ _ _ _ _ => some batchId
  | _ => none

def createdIDs (events : List Log) : List BatchID :=
  events.filterMap Log.createdID

/- The contract creates every batch once. -/
structure Fresh (events : List Log) (st : BatchStore) : Prop where
  indexed : Indexed st.values st.batches
  distinct : (createdIDs events).Nodup
  unknown : ∀ id ∈ createdIDs events, st.batches.get id = none

variable {e : Log} {events : List Log}
variable {b : Batch} {value fuel : Nat} {depth : UInt8}

/- A put does not store batches that are yet to come. -/
theorem Fresh.put (hFresh : Fresh events st) (hPut : st.Puttable b)
    (hKnown : b.id ∉ createdIDs events) (hResult : st.put fuel b value depth = some st') :
    st'.cs.block = st.cs.block ∧ Fresh events st' := by
  rcases put_frame hFresh.indexed hPut hResult with ⟨hBatches, -, hCs⟩
  refine ⟨congrArg ChainState.block hCs, hFresh.indexed.put hPut hResult, hFresh.distinct, ?_⟩
  intro id hMem
  have hNe : b.id ≠ id := by
    rintro rfl
    exact hKnown hMem
  rw [hBatches, Index.get_put_of_ne _ hNe]
  exact hFresh.unknown id hMem

theorem Fresh.putChainState (hFresh : Fresh events st)
    (hResult : st.putChainState cs = some st') : st'.cs = cs ∧ Fresh events st' := by
  rcases putChainState_spec hFresh.indexed cs with ⟨bs, t, -, hCall, hExpired⟩
  cases hCall.symm.trans hResult
  refine ⟨hExpired.cs, hExpired.indexed, hFresh.distinct, ?_⟩
  intro id hMem
  rw [Option.eq_none_iff_forall_ne_some]
  intro b hSome
  have hStored : st.batches.get id = some b := ((hExpired.stored id b).mp hSome).1
  rw [hFresh.unknown id hMem] at hStored
  cases hStored

/- A stored batch is put as `Get` returns it. -/
theorem Fresh.putStored {id : BatchID} (hFresh : Fresh events st) (hGet : st.get id = some b)
    (hResult : st.put fuel b value depth = some st') :
    st'.cs.block = st.cs.block ∧ Fresh events st' := by
  rcases Option.map_eq_some_iff.mp hGet with ⟨old, hOld, hEq⟩
  have hId : b.id = id := by
    rw [← hEq]
    exact hFresh.indexed.ids id old hOld
  refine hFresh.put (Or.inr ?_) ?_ hResult
  · rw [hId]
    exact hGet
  · intro hMem
    rw [hId] at hMem
    rw [hFresh.unknown id hMem] at hOld
    cases hOld

/- An event keeps the block, and the rest can follow. -/
theorem Fresh.processEvent (hFresh : Fresh (e :: events) st)
    (hResult : st.processEvent fuel e = some st') :
    st'.cs.block = st.cs.block ∧ Fresh events st' := by
  rcases e with ⟨blockNumber, event⟩
  cases event with
  | batchCreated batchId normalisedBalance owner depth bucketDepth immutableFlag =>
    have hDistinct := List.nodup_cons.mp hFresh.distinct
    have hRest : Fresh events st := ⟨hFresh.indexed, hDistinct.2, fun id hMem =>
        hFresh.unknown id (List.mem_cons_of_mem _ hMem)⟩
    have hNone := hFresh.unknown batchId (List.mem_cons_self ..)
    exact hRest.put (Or.inl ⟨hNone, rfl⟩) hDistinct.1 hResult
  | batchTopUp batchId normalisedBalance
  | batchDepthIncrease batchId newDepth normalisedBalance =>
    have hRest : Fresh events st := { hFresh with }
    rcases Option.bind_eq_some_iff.mp hResult with ⟨b, hGet, hPut⟩
    exact hRest.putStored hGet hPut
  | priceUpdate price =>
    have hRest : Fresh events st := { hFresh with }
    rcases hRest.putChainState hResult with ⟨hCs, hFresh'⟩
    refine ⟨?_, hFresh'⟩
    rw [hCs]

/- Block numbers are absorbed while events are to come. -/
theorem batchService_absorbing (fuel : Nat) :
    (batchService fuel).Absorbing (fun st => st.cs.block) Fresh where
  tick := by
    intro events st m hFresh hLe
    rcases updateBlockNumber_absorbed hFresh.indexed hLe with
      ⟨st', hTick, hBlock, hIndexed, hStored, hAbsorbed⟩
    refine ⟨st', hTick, hBlock, ⟨hIndexed, hFresh.distinct, ?_⟩, hAbsorbed⟩
    intro id hMem
    rw [Option.eq_none_iff_forall_ne_some]
    intro b hSome
    have hOld := hStored id b hSome
    rw [hFresh.unknown id hMem] at hOld
    cases hOld
  act := fun hFresh hResult => hFresh.processEvent hResult

/- However block numbers are inserted between the events, the final store is the same. -/
theorem paging_independent {startBlock final : UInt64} {moves moves' : List (Move UInt64 Log)}
    (hReach : StoreReachable (fun _ _ => True) startBlock st)
    (hDistinct : (createdIDs events).Nodup)
    (hUnknown : ∀ id ∈ createdIDs events, st.batches.get id = none)
    (hPaging : (batchService fuel).Paging final st.cs.block events moves)
    (hPaging' : (batchService fuel).Paging final st.cs.block events moves') :
    (batchService fuel).run moves st = (batchService fuel).run moves' st := by
  have hFresh : Fresh events st := ⟨hReach.indexed, hDistinct, hUnknown⟩
  have hAbsorbing := batchService_absorbing fuel
  rw [hPaging.run_eq hAbsorbing hFresh rfl, hPaging'.run_eq hAbsorbing hFresh rfl]

/- A price, and two batches of which one expires. -/
def pagedEvents : List Log :=
  [⟨1, .priceUpdate 2⟩, ⟨2, .batchCreated 1 100 0 17 16 false⟩,
    ⟨2, .batchCreated 2 9 0 18 16 false⟩, ⟨8, .batchTopUp 1 120⟩]

theorem paging_independent_two :
    (batchService 1).run ((batchService 1).plain 10 pagedEvents) (.empty 0) =
      (batchService 1).run
        [.tick 1, .act ⟨1, .priceUpdate 2⟩, .tick 2,
          .act ⟨2, .batchCreated 1 100 0 17 16 false⟩, .tick 2,
          .act ⟨2, .batchCreated 2 9 0 18 16 false⟩, .tick 3,
          .tick 7, .tick 8, .act ⟨8, .batchTopUp 1 120⟩, .tick 9, .tick 10] (.empty 0) ∧
      ((batchService 1).run ((batchService 1).plain 10 pagedEvents) (.empty 0)).isSome = true := by
  have hPlain : (batchService 1).Paging 10 0 pagedEvents ((batchService 1).plain 10 pagedEvents) :=
    .event (by decide) (.event (by decide)
      (.event (by decide) (.event (by decide) (.final (by decide)))))
  refine ⟨?_, by decide +kernel⟩
  refine paging_independent .start (by decide) (fun _ _ => rfl) hPlain ?_
  exact .event (by decide) (.event (by decide)
    (.event (by decide) (.page (by decide)
      (.page (by decide) (.event (by decide) (.page (by decide) (.final (by decide))))))))

end Sana.Postage

---- Stores Without Their Queue

namespace Sana.Postage

variable {st st' : BatchStore}

section

open KeyValue

/- The batch as it is stored. -/
def Batch.bare (b : Batch) : Batch :=
  { b with radius := 0 }

/- The store without what is left to the localstore. -/
def BatchStore.core (st : BatchStore) : BatchStore :=
  { st with
    rs := { st.rs with storageRadius := 0 }
    queue := [] }

theorem Batch.exists_of_bare_eq {b b' : Batch} (hBare : b.bare = b'.bare) :
    ∃ radius, b' = { b with radius := radius } := by
  rcases b' with ⟨id', value', start', owner', depth', bucketDepth', immutable', radius'⟩
  cases hBare
  exact ⟨radius', rfl⟩

theorem BatchStore.exists_of_core_eq (hCore : st.core = st'.core) : ∃ radius queue, st' =
        { st with
          rs := { st.rs with storageRadius := radius }
          queue := queue } := by
  rcases st' with ⟨batches', values', cs', ⟨radius', storageRadius', available', outer', inner'⟩,
    queue'⟩
  cases hCore
  exact ⟨storageRadius', queue', rfl⟩

@[simp] theorem BatchStore.core_core (st : BatchStore) : st.core.core = st.core := rfl

@[simp] theorem BatchStore.core_unreserve (st : BatchStore) (id : BatchID) :
    (st.unreserve id radius).core = st.core := rfl

/- Calls go on from results that look the same. -/
theorem map_bind_congr {α β γ δ : Type} {view : α → γ} {see : β → δ} {result result' : Option α}
    {next next' : α → Option β} (hResult : result.map view = result'.map view)
    (hNext :
      ∀ value value', view value = view value' → (next value).map see = (next' value').map see) :
    (result.bind next).map see = (result'.bind next').map see := by
  cases result with
  | none =>
    cases result' with
    | none => rfl
    | some value' => cases hResult
  | some value =>
    cases result' with
    | none => cases hResult
    | some value' => exact hNext value value' (Option.some.inj hResult)

end

---- Put

section

open KeyValue BatchStore

variable {last last' : Batch}

/- Both stores have the batch, up to its radius. -/
theorem getOr_congr (hLast : last.bare = last'.bare) (hCore : st.core = st'.core) (id : BatchID) :
    (st.getOr last id).map Batch.bare = (st'.getOr last' id).map Batch.bare := by
  rcases Batch.exists_of_bare_eq hLast with ⟨radius, rfl⟩
  rcases exists_of_core_eq hCore with ⟨storage, queue, rfl⟩
  unfold getOr BatchStore.get
  split
  · rfl
  · rw [Option.map_map, Option.map_map]
    rfl

theorem get_congr (hCore : st.core = st'.core) (id : BatchID) :
    (st.get id).map Batch.bare = (st'.get id).map Batch.bare := by
  rcases exists_of_core_eq hCore with ⟨storage, queue, rfl⟩
  unfold BatchStore.get
  rw [Option.map_map, Option.map_map]
  rfl

theorem evictValues_congr (hLast : last.bare = last'.bare)
    (hCore : st.core = st'.core) :
    (evictValues last keys st).map core = (evictValues last' keys st').map core := by
  induction keys generalizing st st' with
  | nil => exact congrArg some hCore
  | cons key keys ih =>
    refine map_bind_congr (getOr_congr hLast hCore key.id) ?_
    intro b b' hBare
    rcases Batch.exists_of_bare_eq hBare with ⟨radius, rfl⟩
    rcases exists_of_core_eq hCore with ⟨storage, queue, rfl⟩
    split
    · exact ih hCore
    · split
      · exact congrArg some hCore
      · exact ih rfl

/- How a call of `evictOuter` ends, without the queue. -/
def Round.core : Round → Round
  | .done st => .done st.core
  | .again st => .again st.core

theorem evictRound_congr (hLast : last.bare = last'.bare) (hCore : st.core = st'.core) :
    (evictRound last st).map Round.core = (evictRound last' st').map Round.core := by
  have hValues : st'.valueKeys = st.valueKeys := by
    rcases exists_of_core_eq hCore with ⟨storage, queue, rfl⟩
    rfl
  have hAvailable : st'.rs.available = st.rs.available := by
    rcases exists_of_core_eq hCore with ⟨storage, queue, rfl⟩
    rfl
  unfold evictRound
  rw [hValues, hAvailable]
  split
  · exact congrArg (fun core => some (Round.done core)) hCore
  · refine map_bind_congr (evictValues_congr hLast hCore) ?_
    intro after after' hAfter
    rcases exists_of_core_eq hAfter with ⟨storage, queue, rfl⟩
    dsimp only
    split <;> rfl

theorem evictOuter_congr (hLast : last.bare = last'.bare)
    (hCore : st.core = st'.core) :
    (evictOuter last fuel st).map core = (evictOuter last' fuel st').map core := by
  induction fuel generalizing st st' with
  | zero => rfl
  | succ fuel ih =>
    have hRound := evictRound_congr hLast hCore
    unfold evictOuter
    cases hLeft : evictRound last st with
    | none =>
      rw [hLeft] at hRound
      rw [Option.map_eq_none_iff.mp hRound.symm]
    | some round =>
      rw [hLeft] at hRound
      rcases Option.map_eq_some_iff.mp hRound.symm with ⟨round', hRight, hEnd⟩
      rw [hRight]
      cases round with
      | done after =>
        cases round' with
        | done after' => exact congrArg some (Round.done.inj hEnd).symm
        | again after' => cases hEnd
      | again after =>
        cases round' with
        | done after' => cases hEnd
        | again after' => exact ih (Round.again.inj hEnd).symm

/- The storage radius does not matter for the limits. -/
theorem setLimits_storageRadius (rs : ReserveState) (storage : UInt8) (val : Nat) (t : Tier) :
    ({ rs with storageRadius := storage } : ReserveState).setLimits val t =
      ({ (rs.setLimits val t).1 with
          storageRadius := storage },
        (rs.setLimits val t).2) := by
  unfold ReserveState.setLimits
  by_cases hTier : t ≠ .unreserved
  · rw [if_pos hTier, if_pos hTier]
  · rw [if_neg hTier]
    split
    · split <;> rfl
    · rfl

theorem change_storageRadius (rs : ReserveState) (storage : UInt8) (oldv newv : Nat)
    (oldDepth newDepth : UInt8) :
    ({ rs with storageRadius := storage } : ReserveState).change oldv newv oldDepth newDepth =
      ({ (rs.change oldv newv oldDepth newDepth).1 with
          storageRadius := storage },
        (rs.change oldv newv oldDepth newDepth).2) := by
  unfold ReserveState.change
  rw [setLimits_storageRadius]
  rfl

theorem charge_congr (hLast : last.bare = last'.bare) (hCore : st.core = st'.core) :
    (st.charge last oldDepth oldValue).core = (st'.charge last' oldDepth oldValue).core := by
  rcases Batch.exists_of_bare_eq hLast with ⟨radius, rfl⟩
  rcases exists_of_core_eq hCore with ⟨storage, queue, rfl⟩
  unfold charge
  rw [change_storageRadius st.rs storage]
  rfl

theorem put_congr (hBare : b.bare = b'.bare)
    (hCore : st.core = st'.core) :
    (st.put fuel b value depth).map core = (st'.put fuel b' value depth).map core := by
  rcases Batch.exists_of_bare_eq hBare with ⟨radius, rfl⟩
  have hMoved :
      (st.moveValue b value).core = (st'.moveValue { b with radius := radius } value).core := by
    rcases exists_of_core_eq hCore with ⟨storage, queue, rfl⟩
    rfl
  have hNew : ({ b with value := value, depth := depth } : Batch).bare =
        ({ b with
            value := value
            depth := depth
            radius := radius } : Batch).bare := rfl
  refine map_bind_congr (evictOuter_congr hNew (charge_congr hNew hMoved)) ?_
  intro after after' hAfter
  rcases exists_of_core_eq hAfter with ⟨storage, queue, rfl⟩
  rfl

end

---- PutChainState

section

open KeyValue BatchStore

/-
  The storage radius does not show in what an expiry gives back: nothing was consumed, or the radius
  is so small that nothing is given back.
-/
def ReserveState.Steady (rs : ReserveState) : Prop :=
  rs.storageRadius = 0 ∨ rs.storageRadius < rs.radius ∧ rs.radius.toNat < 192

instance (rs : ReserveState) : Decidable rs.Steady :=
  inferInstanceAs (Decidable (_ ∨ _))

/- The capacity that an expiry gives back for a value. -/
def BatchStore.released (st : BatchStore) (value : Nat) : I64 :=
  exp2 (st.reportedRadius value - st.rs.radius - 1)

/- Nothing is given back below a storage radius. -/
theorem exp2_storageRadius (hLt : storageRadius < radius)
    (hRadius : radius.toNat < 192) : exp2 (storageRadius - radius - 1) = 0 := by
  apply exp2_eq_zero
  have hOne : (1 : UInt8).toNat = 1 := rfl
  rw [UInt8.lt_iff_toNat_lt] at hLt
  rw [UInt8.toNat_sub, UInt8.toNat_sub]
  omega

theorem ReserveState.Steady.released_core (hSteady : st.rs.Steady) :
    st.released value = st.core.released value := by
  unfold released reportedRadius
  rcases hSteady with hZero | ⟨hLt, hRadius⟩
  · rw [hZero]
    rfl
  · have hPos : (0 : UInt8) < st.rs.radius := by exact Nat.zero_lt_of_lt hLt
    have hCore : st.core.rs.storageRadius < st.core.rs.radius := hPos
    rw [if_pos hLt, if_pos hCore, exp2_storageRadius hLt hRadius]
    exact (exp2_storageRadius hPos hRadius).symm

/- Steady stores with one core give back the same. -/
theorem released_congr (hSteady : st.rs.Steady) (hSteady' : st'.rs.Steady)
    (hCore : st.core = st'.core) (value : Nat) : st.released value = st'.released value := by
  rw [hSteady.released_core, hSteady'.released_core, hCore]

theorem expireValues_congr (multiplier : I64)
    (toDelete : List BatchID) (hReleased : ∀ value, st.released value = st'.released value)
    (hCore : st.core = st'.core) :
    (expireValues below keys multiplier toDelete st).map (Prod.map id core) =
      (expireValues below keys multiplier toDelete st').map (Prod.map id core) := by
  induction keys generalizing multiplier toDelete st st' with
  | nil => exact congrArg (fun core => some (toDelete, core)) hCore
  | cons key keys ih =>
    rcases exists_of_core_eq hCore with ⟨storage, queue, rfl⟩
    unfold expireValues BatchStore.get
    cases hGet : st.batches.get key.id with
    | none => rfl
    | some b =>
      dsimp only [Option.map_some, Option.bind_eq_bind, Option.bind_some]
      split
      · rfl
      · have hSame := hReleased b.value
        unfold released at hSame
        rw [hSame]
        exact ih _ _ hReleased rfl

theorem delete_congr (hCore : st.core = st'.core) :
    (BatchStore.delete ids st).map core = (BatchStore.delete ids st').map core := by
  induction ids generalizing st st' with
  | nil => exact congrArg some hCore
  | cons id ids ih =>
    refine map_bind_congr (get_congr hCore id) ?_
    intro b b' hBare
    rcases Batch.exists_of_bare_eq hBare with ⟨radius, rfl⟩
    rcases exists_of_core_eq hCore with ⟨storage, queue, rfl⟩
    exact ih rfl

theorem putChainState_congr (hSteady : st.rs.Steady) (hSteady' : st'.rs.Steady)
    (hCore : st.core = st'.core) (cs : ChainState) :
    (st.putChainState cs).map core = (st'.putChainState cs).map core := by
  have hReleased := released_congr hSteady hSteady' hCore
  rcases exists_of_core_eq hCore with ⟨storage, queue, rfl⟩
  refine map_bind_congr (expireValues_congr _ _ hReleased rfl) ?_
  rintro ⟨ids, after⟩ ⟨ids', after'⟩ hAfter
  have hIds : ids = ids' := congrArg Prod.fst hAfter
  have hStore : after.core = after'.core := congrArg Prod.snd hAfter
  subst hIds
  rcases exists_of_core_eq hStore with ⟨storage', queue', rfl⟩
  exact delete_congr rfl

end

---- Events And Block Numbers

open KeyValue BatchStore

theorem updateBlockNumber_congr (hSteady : st.rs.Steady) (hSteady' : st'.rs.Steady)
    (hCore : st.core = st'.core) (blockNumber : UInt64) :
    (st.updateBlockNumber blockNumber).map core = (st'.updateBlockNumber blockNumber).map core := by
  have hCs : st'.cs = st.cs := by
    rcases exists_of_core_eq hCore with ⟨storage, queue, rfl⟩
    rfl
  unfold updateBlockNumber
  rw [hCs]
  split
  · exact congrArg some hCore
  · exact putChainState_congr hSteady hSteady' hCore _

theorem processEvent_congr (hSteady : st.rs.Steady) (hSteady' : st'.rs.Steady)
    (hCore : st.core = st'.core) (fuel : Nat) (e : Log) :
    (st.processEvent fuel e).map core = (st'.processEvent fuel e).map core := by
  have hCs : st'.cs = st.cs := by
    rcases exists_of_core_eq hCore with ⟨storage, queue, rfl⟩
    rfl
  rcases e with ⟨blockNumber, event⟩
  cases event with
  | batchCreated batchId normalisedBalance owner depth bucketDepth immutableFlag =>
    unfold processEvent create
    rw [hCs]
    exact put_congr rfl hCore
  | batchTopUp batchId normalisedBalance =>
    refine map_bind_congr (get_congr hCore batchId) ?_
    intro b b' hBare
    rcases Batch.exists_of_bare_eq hBare with ⟨radius, rfl⟩
    exact put_congr hBare hCore
  | batchDepthIncrease batchId newDepth normalisedBalance =>
    refine map_bind_congr (get_congr hCore batchId) ?_
    intro b b' hBare
    exact put_congr hBare hCore
  | priceUpdate price =>
    unfold processEvent updatePrice
    rw [hCs]
    exact putChainState_congr hSteady hSteady' hCore _

end Sana.Postage

---- Batch Service

namespace Sana.Postage

open KeyValue Program

/- An event with the hash of its transaction. -/
structure TxLog extends Log where
  txHash : BitVec 256

def TxLog.txHashBytes (e : TxLog) : List UInt8 :=
  bigEndian 32 e.txHash.toNat

/-
  A batch service: the dirty flag, the checksum and the batch store, which are stored; what was
  written to the hasher, which is lost when the node stops; and the events processed since the batch
  store was empty.
-/
structure ChecksumService where
  dirty : Bool
  checksum : Option (List Char)
  storer : BatchStore
  hasher : Option (List UInt8)
  processed : List TxLog

namespace ChecksumService

/- A node that was never run. -/
def start : ChecksumService where
  dirty := false
  checksum := none
  storer := .empty 0
  hasher := none
  processed := []

/- What `New` writes to the hasher. -/
def initialSum (svc : ChecksumService) : Option (List UInt8) :=
  match svc.checksum with
  | none => some []
  | some b => decodeString b

def new (startBlock : UInt64) (svc : ChecksumService) : Option ChecksumService := do
  let sum ← svc.initialSum
  if svc.dirty then
    some
      { svc with
        dirty := false
        storer := .empty startBlock
        hasher := some sum
        processed := [] }
  else some { svc with hasher := some sum }

/- The new checksum takes the place of the old one. -/
def updateChecksum (checksumFunc : List UInt8 → List UInt8) (sum txHash : List UInt8)
    (svc : ChecksumService) : ChecksumService :=
  let s := checksumFunc (sum ++ txHash)
  { svc with
    hasher := some s
    checksum := some (encodeToString s) }

end ChecksumService

inductive ServiceOp where
  | new
  | transactionStart
  | processEvent (e : TxLog)
  | updateBlockNumber (blockNumber : UInt64)
  | transactionEnd
  | crash
  | interrupt (e : TxLog)

/-
  Events are processed within transactions.  A node crashes between two calls, or while it processes
  an event; then the batch store may be in any state, and the checksum may have been stored already.
-/
inductive ServiceStep (checksumFunc : List UInt8 → List UInt8) (startBlock : UInt64) :
    ServiceOp → ChecksumService → ChecksumService → Prop where
  | new {svc svc' : ChecksumService} (hStopped : svc.hasher = none)
      (hNew : svc.new startBlock = some svc') : ServiceStep checksumFunc startBlock .new svc svc'
  | transactionStart {svc : ChecksumService} {sum : List UInt8} (hRunning : svc.hasher = some sum) :
      ServiceStep checksumFunc startBlock .transactionStart svc { svc with dirty := true }
  | processEvent {svc : ChecksumService} {sum : List UInt8} {e : TxLog} {fuel : Nat}
      {st : BatchStore} (hRunning : svc.hasher = some sum) (hDirty : svc.dirty = true)
      (hStore : svc.storer.processEvent fuel e.toLog = some st) :
      ServiceStep checksumFunc startBlock (.processEvent e) svc
        (ChecksumService.updateChecksum checksumFunc sum e.txHashBytes
          { svc with
            storer := st
            processed := svc.processed ++ [e] })
  | updateBlockNumber {svc : ChecksumService} {sum : List UInt8} {blockNumber : UInt64}
      {st : BatchStore} (hRunning : svc.hasher = some sum) (hDirty : svc.dirty = true)
      (hStore : svc.storer.updateBlockNumber blockNumber = some st) :
      ServiceStep checksumFunc startBlock (.updateBlockNumber blockNumber) svc
        { svc with storer := st }
  | transactionEnd {svc : ChecksumService} {sum : List UInt8} (hRunning : svc.hasher = some sum) :
      ServiceStep checksumFunc startBlock .transactionEnd svc { svc with dirty := false }
  | crash (svc : ChecksumService) :
      ServiceStep checksumFunc startBlock .crash svc { svc with hasher := none }
  | interrupt {svc : ChecksumService} {sum : List UInt8} {e : TxLog} {checksum : Option (List Char)}
      {st : BatchStore} (hRunning : svc.hasher = some sum) (hDirty : svc.dirty = true)
      (hChecksum :
        checksum = svc.checksum ∨
          checksum = some (encodeToString (checksumFunc (sum ++ e.txHashBytes)))) :
      ServiceStep checksumFunc startBlock (.interrupt e) svc
        { svc with
          hasher := none
          storer := st
          checksum := checksum }

---- Checksums

variable {checksumFunc : List UInt8 → List UInt8}
variable {startBlock : UInt64}

/- The checksum of a list of events. -/
def checksumOf (checksumFunc : List UInt8 → List UInt8) (processed : List TxLog) : List UInt8 :=
  processed.foldl (fun sum e => checksumFunc (sum ++ e.txHashBytes)) []

theorem checksumOf_append :
    checksumOf checksumFunc (processed ++ [e]) =
      checksumFunc (checksumOf checksumFunc processed ++ e.txHashBytes) := by
  unfold checksumOf
  rw [List.foldl_append]
  rfl

/- The checksum as it is stored. -/
def storedChecksum (checksumFunc : List UInt8 → List UInt8)
    (processed : List TxLog) : Option (List Char) :=
  if processed = [] then none
  else some (encodeToString (checksumOf checksumFunc processed))

theorem storedChecksum_append :
    storedChecksum checksumFunc (processed ++ [e]) =
      some (encodeToString
        (checksumFunc (checksumOf checksumFunc processed ++ e.txHashBytes))) := by
  unfold storedChecksum
  rw [if_neg (List.append_ne_nil_of_right_ne_nil processed
    (List.cons_ne_nil e [])), checksumOf_append]

/- Reading back a stored checksum. -/
theorem initialSum_eq {svc : ChecksumService}
    (hChecksum : svc.checksum = storedChecksum checksumFunc svc.processed) :
    svc.initialSum = some (checksumOf checksumFunc svc.processed) := by
  unfold ChecksumService.initialSum
  rw [hChecksum]
  unfold storedChecksum
  by_cases hNil : svc.processed = []
  · rw [hNil]
    rfl
  · rw [if_neg hNil]
    exact decodeString_encodeToString _

/-
  The checksums are those of the processed events, unless the node has stopped inside a transaction.
-/
structure ChecksumService.Sound (checksumFunc : List UInt8 → List UInt8)
    (svc : ChecksumService) : Prop where
  stored :
    (svc.hasher = none → svc.dirty = false) →
      svc.checksum = storedChecksum checksumFunc svc.processed
  running : ∀ sum, svc.hasher = some sum → sum = checksumOf checksumFunc svc.processed

theorem ChecksumService.Sound.stored_of_running {svc : ChecksumService}
    (hSound : svc.Sound checksumFunc) (hRunning : svc.hasher = some sum) :
    svc.checksum = storedChecksum checksumFunc svc.processed := by
  apply hSound.stored
  intro hNone
  rw [hNone] at hRunning
  cases hRunning

theorem sound_checksum_start : ChecksumService.start.Sound checksumFunc := by
  refine ⟨fun _ => ?_, nofun⟩
  rfl

/- A reset finds no checksum of the events before it. -/
def ServiceOp.Clean (op : ServiceOp) (svc : ChecksumService) : Prop :=
  op = .new → svc.dirty = true → svc.checksum = none

/- `New`, when it resets or the last transaction was ended. -/
theorem ChecksumService.Sound.new {svc svc' : ChecksumService} (hSound : svc.Sound checksumFunc)
    (hClean : svc.dirty = true → svc.checksum = none) (hNew : svc.new startBlock = some svc') :
    svc'.Sound checksumFunc := by
  unfold ChecksumService.new at hNew
  cases hDirty : svc.dirty with
  | true =>
    have hSum : svc.initialSum = some [] := by
      unfold ChecksumService.initialSum
      rw [hClean hDirty]
    rw [hSum, hDirty] at hNew
    have hEq := Option.some.inj hNew
    rw [← hEq]
    refine ⟨fun _ => hClean hDirty, fun sum hRunning => ?_⟩
    exact (Option.some.inj hRunning).symm
  | false =>
    have hStored := hSound.stored fun _ => hDirty
    rw [initialSum_eq hStored, hDirty] at hNew
    have hEq := Option.some.inj hNew
    rw [← hEq]
    refine ⟨fun _ => hStored, fun sum hRunning => ?_⟩
    exact (Option.some.inj hRunning).symm

/- Every step keeps the checksums. -/
theorem ChecksumService.Sound.step (hSound : svc.Sound checksumFunc) (hClean : op.Clean svc)
    (hStep : ServiceStep checksumFunc startBlock op svc svc') : svc'.Sound checksumFunc := by
  cases hStep with
  | new hStopped hNew => exact hSound.new (hClean rfl) hNew
  | transactionStart hRunning | transactionEnd hRunning =>
    exact ⟨fun _ => hSound.stored_of_running hRunning, hSound.running⟩
  | processEvent hRunning hDirty hStore =>
    rw [hSound.running _ hRunning]
    refine ⟨fun _ => storedChecksum_append.symm, ?_⟩
    intro sum hSum
    exact (Option.some.inj hSum).symm.trans checksumOf_append.symm
  | updateBlockNumber hRunning hDirty hStore => exact ⟨hSound.stored, hSound.running⟩
  | crash =>
    refine ⟨fun hEnded => ?_, nofun⟩
    exact hSound.stored fun _ => hEnded rfl
  | interrupt hRunning hDirty hChecksum =>
    refine ⟨fun hEnded => ?_, nofun⟩
    cases hDirty.symm.trans (hEnded rfl)

/-
  Two services that have processed the same events have the same checksum, when every reset found no
  checksum.
-/
theorem checksums_agree {a b : ChecksumService}
    (hA : Reach (ServiceStep checksumFunc startBlock) ServiceOp.Clean .start a)
    (hB : Reach (ServiceStep checksumFunc startBlock) ServiceOp.Clean .start b)
    (hRunningA : a.hasher ≠ none) (hRunningB : b.hasher ≠ none)
    (hSame : a.processed = b.processed) : a.checksum = b.checksum := by
  have hSound :
      ∀ svc, Reach (ServiceStep checksumFunc startBlock) ServiceOp.Clean .start svc →
        svc.hasher ≠ none → svc.checksum = storedChecksum checksumFunc svc.processed := by
    intro svc hReach hRunning
    have hSound : svc.Sound checksumFunc :=
      hReach.invariant (fun svc => svc.Sound checksumFunc) sound_checksum_start
        fun _ _ _ hSound hClean hStep => hSound.step hClean hStep
    exact hSound.stored fun hNone => absurd hNone hRunning
  rw [hSound a hA hRunningA, hSound b hB hRunningB, hSame]

/- A price update can be processed by an empty store. -/
theorem exists_updatePrice : ∃ st, (BatchStore.empty startBlock).updatePrice price = some st := by
  rcases putChainState_spec (ordered_empty startBlock).indexed
      { (BatchStore.empty startBlock).cs with
        currentPrice := price } with
    ⟨bs, st, -, hResult, -⟩
  exact ⟨st, hResult⟩

/- A price update of a transaction. -/
def priceLog (txHash : BitVec 256) : TxLog where
  blockNumber := 1
  event := .priceUpdate 1
  txHash := txHash

/- A service that has started and processes an event. -/
theorem reach_priceLog (hAllowed : ∀ op svc, op ≠ .new → allowed op svc)
    (hReach : Reach (ServiceStep checksumFunc startBlock) allowed .start svc)
    (hRunning : svc.hasher = some sum) (hStorer : svc.storer = .empty block) :
    ∃ st,
      Reach (ServiceStep checksumFunc startBlock) allowed .start
        (ChecksumService.updateChecksum checksumFunc sum (priceLog txHash).txHashBytes
          { svc with
            dirty := true
            storer := st
            processed :=
              svc.processed ++ [priceLog txHash] }) := by
  rcases exists_updatePrice with ⟨st, hPrice⟩
  have hStarted :=
    Reach.step .transactionStart hReach (hAllowed _ _ nofun) (.transactionStart hRunning)
  have hStore : svc.storer.processEvent 0 (priceLog txHash).toLog = some st := by
    rw [hStorer]
    exact hPrice
  exact ⟨st, .step (.processEvent (priceLog txHash)) hStarted
    (hAllowed _ _ nofun) (.processEvent hRunning rfl hStore)⟩

theorem checksums_agree_two :
    ∃ a b : ChecksumService,
      a.processed = [priceLog 5] ∧ a.processed = b.processed ∧ a.checksum = b.checksum := by
  have hAllowed : ∀ op svc, op ≠ ServiceOp.new → ServiceOp.Clean op svc :=
    fun op svc hNe hNew => absurd hNew hNe
  have hStart :
      Reach (ServiceStep id 0) ServiceOp.Clean .start
        { ChecksumService.start with hasher := some [] } :=
    .step .new .start (fun _ => nofun) (.new rfl rfl)
  -- the second service is stopped before its transaction
  have hAgain :
      Reach (ServiceStep id 0) ServiceOp.Clean .start
        { ChecksumService.start with hasher := some [] } :=
    .step .new (.step .crash hStart (hAllowed _ _ nofun) (.crash _)) (fun _ => nofun) (.new rfl rfl)
  rcases reach_priceLog hAllowed hStart rfl rfl with ⟨st, hA⟩
  rcases reach_priceLog hAllowed hAgain rfl rfl with ⟨st', hB⟩
  have hEq := checksums_agree hA hB nofun nofun rfl
  refine ⟨_, _, ?_, ?_, hEq⟩
  · rfl
  · rfl

/- After a reset, the events are added to the old checksum. -/
theorem exists_checksums_differ (checksumFunc : List UInt8 → List UInt8)
    (txHash : BitVec 256) :
    ∃ a b : ChecksumService,
      Reach (ServiceStep checksumFunc startBlock) (fun _ _ => True) .start a ∧
        Reach (ServiceStep checksumFunc startBlock) (fun _ _ => True) .start b ∧
        a.hasher ≠ none ∧ b.hasher ≠ none ∧ a.processed = b.processed ∧
        a.checksum = some (encodeToString (checksumFunc (priceLog txHash).txHashBytes)) ∧
        b.checksum =
          some (encodeToString
            (checksumFunc
              (checksumFunc (priceLog txHash).txHashBytes ++ (priceLog txHash).txHashBytes))) := by
  have hStart :
      Reach (ServiceStep checksumFunc startBlock) (fun _ _ => True) .start
        { ChecksumService.start with hasher := some [] } := .step .new .start trivial (.new rfl rfl)
  rcases reach_priceLog (fun _ _ _ => trivial) hStart rfl rfl with ⟨st, hA⟩
  -- it crashes before the end of the transaction
  have hCrash := Reach.step .crash hA trivial (.crash _)
  have hReset : Reach (ServiceStep checksumFunc startBlock) (fun _ _ => True) .start
        { dirty := false
          checksum := some (encodeToString (checksumFunc (priceLog txHash).txHashBytes))
          storer := .empty startBlock
          hasher := some (checksumFunc (priceLog txHash).txHashBytes)
          processed := [] } := by
    refine .step .new hCrash trivial (.new rfl ?_)
    unfold ChecksumService.new ChecksumService.initialSum
    dsimp only [ChecksumService.updateChecksum]
    rw [decodeString_encodeToString]
    rfl
  rcases reach_priceLog (fun _ _ _ => trivial) hReset rfl rfl with ⟨st', hB⟩
  exact ⟨_, _, hA, hB, nofun, nofun, rfl, rfl, rfl⟩

theorem checksums_not_agree :
    ¬ ∀ (checksumFunc : List UInt8 → List UInt8) (startBlock : UInt64) (a b : ChecksumService),
      Reach (ServiceStep checksumFunc startBlock) (fun _ _ => True) .start a →
        Reach (ServiceStep checksumFunc startBlock) (fun _ _ => True) .start b →
        a.hasher ≠ none → b.hasher ≠ none →
        a.processed = b.processed → a.checksum = b.checksum := by
  intro hAll
  let lengthSum : List UInt8 → List UInt8 := fun bytes => [UInt8.ofNat bytes.length]
  rcases exists_checksums_differ lengthSum 5 with
    ⟨a, b, hA, hB, hRunA, hRunB, hSame, hSumA, hSumB⟩
  have hEq := hAll lengthSum 0 a b hA hB hRunA hRunB hSame
  rw [hSumA, hSumB] at hEq
  revert hEq
  decide

end Sana.Postage
