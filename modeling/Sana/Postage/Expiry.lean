import Sana.Postage.Evict
import Sana.Program.Reach

/-
  What `PutChainState` does, in closed form.

  All batches below a value are evicted; those whose value is paid up are deleted, and the limits
  are raised.

  Puts and chain states come from the blockchain; items are taken from the queue when the localstore
  evicts chunks.

  Key definitions include:
    * `factor`
    * `refund`

  Key theorems include:
    * `delete_spec`
-/

---- The Iteration

namespace Sana.Postage

open KeyValue

variable {st : BatchStore}

/- The multiplier that the iteration has at a value. -/
def factor (rs : ReserveState) (value : Nat) : I64 :=
  if value < rs.inner then 0
  else if value < rs.outer then 1
  else 2

/- What the eviction of a batch gives back. -/
def refund (st : BatchStore) (b : Batch) : I64 :=
  factor st.rs b.value * exp2 (st.reportedRadius b.value - st.rs.radius - 1)

/- The multiplier has not gone past a value. -/
def Behind (rs : ReserveState) (value : Nat) (multiplier : I64) : Prop :=
  multiplier = 0 ∨ multiplier = 1 ∧ rs.inner ≤ value ∨
    multiplier = 2 ∧ rs.inner ≤ value ∧ rs.outer ≤ value

theorem multiply_eq (hBehind : Behind rs value multiplier) :
    BatchStore.multiply rs value multiplier = factor rs value := by
  unfold BatchStore.multiply factor
  rcases hBehind with rfl | ⟨rfl, hInner⟩ | ⟨rfl, hInner, hOuter⟩
  · by_cases hInner : value < rs.inner
    · simp [hInner, not_le.mpr hInner]
    · by_cases hOuter : value < rs.outer
      · simp [hInner, not_lt.mp hInner, hOuter, not_le.mpr hOuter]
      · simp [hInner, not_lt.mp hInner, hOuter, not_lt.mp hOuter]
  · by_cases hOuter : value < rs.outer
    · simp [not_lt.mpr hInner, hOuter, not_le.mpr hOuter]
    · simp [not_lt.mpr hInner, hOuter, not_lt.mp hOuter]
  · simp [not_lt.mpr hInner, not_lt.mpr hOuter]

theorem behind_factor (hLe : value ≤ value') : Behind rs value' (factor rs value) := by
  unfold Behind factor
  split
  · exact Or.inl rfl
  · split
    · exact Or.inr (Or.inl ⟨rfl, by omega⟩)
    · exact Or.inr (Or.inr ⟨rfl, by omega, by omega⟩)

/- The store when its available capacity grows. -/
def BatchStore.regain (st : BatchStore) (amount : I64) : BatchStore :=
  { st with
    rs := { st.rs with available := st.rs.available + amount } }

/- The batches that are evicted, and those deleted. -/
def evictedOf (below : Nat) (bs : List Batch) : List Batch :=
  bs.filter fun b => b.value < below

def expiredOf (below total : Nat) (bs : List Batch) : List Batch :=
  (evictedOf below bs).filter fun b => b.value ≤ total

/- The iteration visits the batches below the value. -/
theorem expireValues_eq (hBatches : st.batches = batches)
    (hResolved : List.Forall₂ (fun key b => batches.get key.id = some b) keys bs)
    (hSorted : bs.Pairwise (fun left right => left.value ≤ right.value))
    (hBehind : ∀ b ∈ bs, Behind st.rs b.value multiplier) :
    BatchStore.expireValues below keys multiplier toDelete st =
      some (toDelete ++ (expiredOf below st.cs.totalAmount bs).map Batch.id,
        st.regain (((evictedOf below bs).map (refund st)).sum)) := by
  induction hResolved generalizing st multiplier toDelete with
  | nil => simp [BatchStore.expireValues, evictedOf, expiredOf, BatchStore.regain]
  | @cons key b keys bs hGet hRest ih =>
    rw [List.pairwise_cons] at hSorted
    have hFound : st.get key.id =
          some { b with
            radius := st.reportedRadius b.value } := by
      simp [BatchStore.get, hBatches, hGet]
    have hMultiplier : BatchStore.multiply st.rs b.value multiplier = factor st.rs b.value :=
      multiply_eq (hBehind b (List.mem_cons_self ..))
    simp only [BatchStore.expireValues, hFound, Option.bind_eq_bind, Option.bind_some, hMultiplier]
    by_cases hStop : below ≤ b.value
    · have hNone : evictedOf below (b :: bs) = [] := by
        unfold evictedOf
        rw [List.filter_eq_nil_iff]
        intro c hMem
        have hLe : b.value ≤ c.value := by
          rcases List.mem_cons.mp hMem with rfl | hMem
          · exact le_refl _
          · exact hSorted.1 c hMem
        simp only [decide_eq_true_eq]
        omega
      rw [if_pos hStop, expiredOf, hNone]
      simp [BatchStore.regain]
    · rw [if_neg hStop]
      have hStep :
          BatchStore.expireValues below keys (factor st.rs b.value)
              (if b.value ≤ st.cs.totalAmount then toDelete ++ [b.id]
              else toDelete)
              (st.regain (refund st b)) =
            _ :=
        ih hBatches hSorted.2 fun c hMem => behind_factor (hSorted.1 c hMem)
      refine hStep.trans ?_
      have hEvicted : evictedOf below (b :: bs) = b :: evictedOf below bs := by
        unfold evictedOf
        rw [List.filter_cons_of_pos]
        simpa using hStop
      have hSame : refund (st.regain (refund st b)) = refund st := rfl
      have hTotal : (st.regain (refund st b)).cs = st.cs := rfl
      rw [expiredOf, expiredOf, hEvicted, hSame, hTotal, List.map_cons, List.sum_cons]
      refine congrArg some (Prod.ext ?_ ?_)
      · by_cases hPaid : b.value ≤ st.cs.totalAmount
        · rw [if_pos hPaid, List.filter_cons_of_pos (by simpa using hPaid)]
          simp
        · rw [if_neg hPaid, List.filter_cons_of_neg (by simpa using hPaid)]
      · simp only [BatchStore.regain, add_assoc]

---- Deletion

/- Stores that differ in their batches only. -/
structure SameRest (st st' : BatchStore) : Prop where
  cs : st'.cs = st.cs
  rs : st'.rs = st.rs
  queue : st'.queue = st.queue

/- A store without a batch. -/
def BatchStore.without (st : BatchStore) (b : Batch) : BatchStore :=
  { st with
    values := st.values.delete ⟨b.value, b.id⟩
    batches := st.batches.delete b.id }

theorem Indexed.without (hIndexed : Indexed st.values st.batches)
    (hStored : st.batches.get b.id = some b) :
    Indexed (st.without b).values (st.without b).batches := by
  constructor
  · intro id c hGet
    rw [BatchStore.without, Index.get_delete] at hGet
    split at hGet
    · cases hGet
    · exact hIndexed.ids id c hGet
  · intro key
    have hKeys := hIndexed.keys key
    rw [Index.has] at hKeys
    rw [BatchStore.without, Index.has, Index.get_delete, Index.get_delete]
    by_cases hId : b.id = key.id
    · rw [if_pos hId]
      have hNone : (if (⟨b.value, b.id⟩ : ValueKey) = key then none
            else st.values.get key).isSome = false := by
        split
        · rfl
        · next hNe =>
            rw [← Bool.not_eq_true, hKeys]
            rintro ⟨c, hGet, hValue⟩
            rw [← hId, hStored] at hGet
            cases hGet
            exact hNe (by rw [hValue, hId])
      rw [hNone]
      simp
    · have hNe : (⟨b.value, b.id⟩ : ValueKey) ≠ key := by
        rintro rfl
        exact hId rfl
      rw [if_neg hId, if_neg hNe]
      exact hKeys

/- Deleting stored batches removes them and nothing else. -/
theorem delete_spec {bs : List Batch} (hIndexed : Indexed st.values st.batches)
    (hStored : ∀ b ∈ bs, st.batches.get b.id = some b) (hDistinct : (bs.map Batch.id).Nodup) :
    ∃ st',
      BatchStore.delete (bs.map Batch.id) st = some st' ∧ SameRest st st' ∧
        Indexed st'.values st'.batches ∧
        (∀ id, st'.batches.get id = if id ∈ bs.map Batch.id then none
          else st.batches.get id) ∧
        ∀ {M : Type} [AddCommMonoid M] (f : Batch → M),
          (bs.map f).sum + st'.batches.total f = st.batches.total f := by
  induction bs generalizing st with
  | nil => exact ⟨st, rfl, ⟨rfl, rfl, rfl⟩, hIndexed, fun _ => rfl, fun _ => zero_add _⟩
  | cons b bs ih =>
    have hHead := hStored b (List.mem_cons_self ..)
    rw [List.map_cons, List.nodup_cons] at hDistinct
    have hOthers : ∀ c ∈ bs, (st.without b).batches.get c.id = some c := by
      intro c hMem
      have hNe : b.id ≠ c.id := by
        intro hEq
        exact hDistinct.1 (hEq ▸ List.mem_map_of_mem hMem)
      rw [BatchStore.without, Index.get_delete_of_ne _ hNe]
      exact hStored c (List.mem_cons_of_mem b hMem)
    rcases ih (hIndexed.without hHead) hOthers hDistinct.2
      with ⟨st', hDelete, hRest, hIndexed', hGet, hTotal⟩
    refine ⟨st', ?_, { hRest with }, hIndexed', ?_, ?_⟩
    · have hFound : st.get b.id =
            some { b with
              radius := st.reportedRadius b.value } := by
        simp [BatchStore.get, hHead]
      simp only [List.map_cons, BatchStore.delete, hFound, Option.bind_eq_bind, Option.bind_some]
      exact hDelete
    · intro id
      rw [hGet, BatchStore.without, Index.get_delete, List.map_cons]
      by_cases hRest' : id ∈ bs.map Batch.id
      · rw [if_pos hRest', if_pos (List.mem_cons_of_mem _ hRest')]
      · rw [if_neg hRest']
        by_cases hEq : b.id = id
        · rw [if_pos hEq, if_pos (by simp [hEq])]
        · have hNot : id ∉ b.id :: bs.map Batch.id := by
            rw [List.mem_cons, not_or]
            exact ⟨Ne.symm hEq, hRest'⟩
          rw [if_neg hEq, if_neg hNot]
    · intro M _ f
      rw [List.map_cons, List.sum_cons, add_assoc, hTotal]
      exact st.batches.total_delete_of_get_eq_some f hHead

---- PutChainState

/- The batches that a call deletes. -/
def BatchStore.Expires (st : BatchStore) (b : Batch) : Prop :=
  b.value < st.evictBelow ∧ b.value ≤ st.cs.totalAmount

/- What `evictExpired` returns. -/
structure Expired (st : BatchStore) (bs : List Batch) (st' : BatchStore) : Prop where
  cs : st'.cs = st.cs
  queue : st'.queue = st.queue
  rs :
    st'.rs =
      ((st.regain
        (((evictedOf st.evictBelow bs).map (refund st)).sum)).raiseLimits st.evictBelow).rs
  indexed : Indexed st'.values st'.batches
  stored : ∀ id b, st'.batches.get id = some b ↔ st.batches.get id = some b ∧ ¬ st.Expires b
  total :
    ∀ f : Batch → I64,
      ((expiredOf st.evictBelow st.cs.totalAmount bs).map f).sum + st'.batches.total f =
        st.batches.total f

variable {st' : BatchStore} {bs : List Batch}

theorem mem_expiredOf :
    b ∈ expiredOf below total bs ↔ b ∈ bs ∧ b.value < below ∧ b.value ≤ total := by
  unfold expiredOf evictedOf
  rw [List.mem_filter, List.mem_filter]
  simp only [decide_eq_true_eq, and_assoc]

theorem evictExpired_spec (hIndexed : Indexed st.values st.batches)
    (hOrder : InOrder st.values st.batches bs) :
    ∃ st', st.evictExpired = some st' ∧ Expired st bs st' := by
  have hValues :
      BatchStore.expireValues st.evictBelow st.valueKeys 0 [] st =
        some ((expiredOf st.evictBelow st.cs.totalAmount bs).map Batch.id,
          st.regain (((evictedOf st.evictBelow bs).map (refund st)).sum)) :=
    expireValues_eq rfl hOrder.resolved hOrder.sorted fun _ _ => Or.inl rfl
  have hStored :
      ∀ b ∈ expiredOf st.evictBelow st.cs.totalAmount bs, st.batches.get b.id = some b := by
    intro b hMem
    exact (hOrder.mem b).mp (mem_expiredOf.mp hMem).1
  have hDistinct : ((expiredOf st.evictBelow st.cs.totalAmount bs).map Batch.id).Nodup := by
    refine hOrder.distinct.sublist (List.Sublist.map _ ?_)
    exact List.filter_sublist.trans List.filter_sublist
  have hDeleted :
      ∃ st',
        BatchStore.delete ((expiredOf st.evictBelow st.cs.totalAmount bs).map Batch.id)
            ((st.regain
              (((evictedOf st.evictBelow bs).map
                (refund st)).sum)).raiseLimits st.evictBelow) = some st' ∧ _ :=
    delete_spec hIndexed hStored hDistinct
  rcases hDeleted with ⟨st', hDelete, hRest, hIndexed', hGet, hTotal⟩
  refine ⟨st', ?_, hRest.cs, hRest.queue, hRest.rs, hIndexed', ?_, fun f => hTotal f⟩
  · unfold BatchStore.evictExpired
    dsimp only
    rw [hValues]
    exact hDelete
  · intro id b
    rw [hGet]
    constructor
    · intro hSome
      split at hSome
      · cases hSome
      · next hNot =>
          refine ⟨hSome, fun hExpires => hNot ?_⟩
          have hId := hIndexed.ids id b hSome
          rw [← hId]
          apply List.mem_map_of_mem
          rw [mem_expiredOf, hOrder.mem, hId]
          exact ⟨hSome, hExpires⟩
    · rintro ⟨hSome, hNot⟩
      rw [if_neg]
      · exact hSome
      · intro hMem
        rcases List.mem_map.mp hMem with ⟨c, hExpired, hId⟩
        have hC := hStored c hExpired
        rw [hId] at hC
        have hEq : b = c := by
          have hBoth := hSome.symm.trans hC
          exact Option.some.inj hBoth
        rw [hEq] at hNot
        exact hNot (mem_expiredOf.mp hExpired).2

section

variable (hExpired : Expired st bs st')
include hExpired

/- The radius stays, and the limits are raised. -/
theorem Expired.radius_eq : st'.rs.radius = st.rs.radius := by
  rw [hExpired.rs]
  rfl

theorem Expired.storageRadius_eq : st'.rs.storageRadius = st.rs.storageRadius := by
  rw [hExpired.rs]
  rfl

theorem Expired.inner_eq : st'.rs.inner = st.evictBelow := by
  rw [hExpired.rs]
  rfl

theorem Expired.outer_eq :
    st'.rs.outer = if st.rs.outer < st.evictBelow then st.evictBelow
      else st.rs.outer := by
  rw [hExpired.rs]
  rfl

/- Evictions keep the store ordered. -/
theorem Expired.ordered (hOrdered : st.Ordered) : st'.Ordered := by
  have hInner := hExpired.inner_eq
  have hOuter := hExpired.outer_eq
  have hBelow : st.evictBelow = st.cs.totalAmount + 1 ∨ st.evictBelow = st.rs.inner := by
    unfold BatchStore.evictBelow
    split
    · exact Or.inl rfl
    · exact Or.inr rfl
  constructor
  · exact hExpired.indexed
  · intro hZero
    have hOld : st.rs.inner = 0 := by omega
    have hStarted := hOrdered.started hOld
    refine ⟨?_, fun id => ?_⟩
    · rw [hOuter, hStarted.1, if_neg (by omega)]
    · rw [Option.eq_none_iff_forall_ne_some]
      intro b hSome
      have hStored := ((hExpired.stored id b).mp hSome).1
      rw [hStarted.2 id] at hStored
      cases hStored
  · intro id b hSome
    rcases (hExpired.stored id b).mp hSome with ⟨hOld, hNot⟩
    have hLe := hOrdered.inner_le id b hOld
    unfold BatchStore.Expires at hNot
    omega
  · rw [hInner, hOuter]
    split
    · exact le_refl _
    · next hNot => exact not_lt.mp hNot

end

/- Ordered stores do not depend on the chain state. -/
theorem BatchStore.Ordered.withChainState (hOrdered : st.Ordered) (cs : ChainState) :
    ({ st with cs := cs } : BatchStore).Ordered :=
  { hOrdered with }

/- A call of `PutChainState` is successful. -/
theorem putChainState_spec (hIndexed : Indexed st.values st.batches) (cs : ChainState) :
    ∃ bs st',
      InOrder st.values st.batches bs ∧ st.putChainState cs = some st' ∧
        Expired { st with cs := cs } bs st' := by
  rcases hIndexed.inOrder with ⟨bs, hOrder⟩
  have hSpec :
      ∃ st',
        ({ st with cs := cs } : BatchStore).evictExpired =
          some st' ∧ Expired { st with cs := cs } bs st' := evictExpired_spec hIndexed hOrder
  rcases hSpec with ⟨st', hEvict, hExpired⟩
  exact ⟨bs, st', hOrder, hEvict, hExpired⟩

theorem BatchStore.Ordered.putChainState {cs : ChainState} (hOrdered : st.Ordered)
    (hResult : st.putChainState cs = some st') : st'.Ordered := by
  rcases putChainState_spec hOrdered.indexed cs with ⟨bs, t, -, hCall, hExpired⟩
  rw [hCall] at hResult
  cases hResult
  exact hExpired.ordered (hOrdered.withChainState cs)

end Sana.Postage

---- Calls

namespace Sana.Postage

open KeyValue Program

inductive BatchOp where
  | put (b : Batch) (value : Nat) (depth : UInt8)
  | putChainState (cs : ChainState)
  | unreserve (count : Nat)

/- A successful call. -/
def BatchStep : BatchOp → BatchStore → BatchStore → Prop
| .put b value depth, st, st' => st.Puttable b ∧ ∃ fuel, st.put fuel b value depth = some st'
| .putChainState cs, st, st' => st.putChainState cs = some st'
| .unreserve count, st, st' => st.unreserveItems count = st'

/- The states of runs whose calls are all allowed. -/
abbrev StoreReachable (allowed : BatchOp → BatchStore → Prop)
    (startBlock : UInt64) : BatchStore → Prop :=
  Reach BatchStep allowed (.empty startBlock)

variable {st st' : BatchStore} {op : BatchOp}

/- Items leave the batches and the limits as they are. -/
theorem unreserveItems_frame (st : BatchStore) :
    (st.unreserveItems count).batches = st.batches ∧ (st.unreserveItems count).values = st.values ∧
      (st.unreserveItems count).rs.inner = st.rs.inner ∧
      (st.unreserveItems count).rs.outer = st.rs.outer ∧
      (st.unreserveItems count).rs.radius = st.rs.radius := by
  induction count generalizing st with
  | zero => exact ⟨rfl, rfl, rfl, rfl, rfl⟩
  | succ count ih =>
    unfold BatchStore.unreserveItems
    split
    · exact ⟨rfl, rfl, rfl, rfl, rfl⟩
    · rcases ih _ with ⟨hBatches, hValues, hInner, hOuter, hRadius⟩
      refine ⟨hBatches, hValues, hInner.trans ?_, hOuter.trans ?_, hRadius.trans ?_⟩
      · split <;> rfl
      · split <;> rfl
      · split <;> rfl

/- Every call keeps the two indexes in step. -/
theorem BatchStep.indexed (hStep : BatchStep op st st') (hIndexed : Indexed st.values st.batches) :
    Indexed st'.values st'.batches := by
  cases op with
  | put b value depth =>
    rcases hStep with ⟨hPut, fuel, hResult⟩
    exact hIndexed.put hPut hResult
  | putChainState cs =>
    rcases putChainState_spec hIndexed cs with ⟨bs, t, -, hCall, hExpired⟩
    cases hCall.symm.trans hStep
    exact hExpired.indexed
  | unreserve count =>
    cases hStep
    rcases unreserveItems_frame st with ⟨hBatches, hValues, -⟩
    rw [hBatches, hValues]
    exact hIndexed

theorem StoreReachable.indexed
    (hReach : StoreReachable allowed startBlock st) : Indexed st.values st.batches := by
  refine hReach.invariant (fun st => Indexed st.values st.batches)
    (ordered_empty startBlock).indexed ?_
  intro op before after hIndexed _ hStep
  exact hStep.indexed hIndexed

end Sana.Postage
