import Sana.Postage.Expiry

/-
  The available capacity and the batches in the reserve.

  A store is balanced when its available capacity is what the stored batches leave.  Put calls keep
  it balanced as long as no batch is shallower than the radius.

  The iteration of `evictExpired` computes the size of an expired batch from the radius that `Get`
  reports, where the batch was charged by its depth.  The queue of announced radiuses ends, for
  every batch, with the radius of the section that its value is in.

  Key definitions include:
    * `BatchStore.Balanced`
    * `BatchStore.Consistent`

  Key theorems include:
    * `Balances.raise`
-/

---- Balanced Stores

namespace Sana.Postage

open KeyValue

variable {bs : List Batch}

section

/- The size of a batch in the reserve. -/
def BatchStore.sizeOf (st : BatchStore) (b : Batch) : I64 :=
  st.rs.size b.depth (st.rs.tier b.value)

/- The number of chunks that the stored batches reserve. -/
def BatchStore.reserved (st : BatchStore) : I64 :=
  st.batches.total st.sizeOf

def BatchStore.Balanced (st : BatchStore) : Prop :=
  st.rs.available = capacity - st.reserved

instance (st : BatchStore) : Decidable st.Balanced :=
  inferInstanceAs (Decidable (_ = _))

structure BatchStore.Consistent (st : BatchStore) : Prop where
  ordered : st.Ordered
  balanced : st.Balanced

/- In every call of `evictOuter` that a put makes, the depths of the batches exceed the radius. -/
def BatchStore.NoUnderflow (st : BatchStore) (b : Batch) (value : Nat) (depth : UInt8) : Prop :=
  ∀ t, Calls (b.changed value depth) (st.putStart b value depth) t →
    ∀ id c, (st.batches.put b.id (b.changed value depth)).get id = some c →
      t.rs.radius.toNat < c.depth.toNat

/- The batches of a list take what is not available. -/
structure Balances (bs : List Batch) (rs : ReserveState) : Prop where
  above : Above bs rs
  balance : rs.available + (bs.map (weight rs.radius rs.outer)).sum = capacity

variable {rs : ReserveState}

theorem Above.size_eq_weight (hAbove : Above bs rs) (hMem : b ∈ bs) :
    rs.size b.depth (rs.tier b.value) = weight rs.radius rs.outer b := by
  have hTier := ReserveState.tier_of_le hAbove.inner_pos (hAbove.inner_le b hMem)
  unfold weight
  rw [hTier, ReserveState.size_eq]
  by_cases hBelow : b.value < rs.outer
  · rw [if_pos hBelow, if_pos hBelow]
  · rw [if_neg hBelow, if_neg hBelow]

theorem Above.sum_size (hAbove : Above bs rs) :
    (bs.map fun b => rs.size b.depth (rs.tier b.value)).sum =
      (bs.map (weight rs.radius rs.outer)).sum := by
  congr 1
  exact List.map_congr_left fun b hMem => hAbove.size_eq_weight hMem

/- A pass keeps the balance. -/
theorem Balances.pass (hBalances : Balances bs rs)
    (hSorted : bs.Pairwise (fun left right => left.value ≤ right.value)) :
    Balances bs (pass bs rs).1 where
  above := hBalances.above.pass
  balance := by
    have hRadius : (Postage.pass bs rs).1.radius = rs.radius := (evictList_frame bs rs).1
    rw [hRadius, ← hBalances.balance]
    exact evictList_available hSorted

/-
  When all batches are in the inner section, a larger radius with all of them in the outer one takes
  the same capacity.
-/
theorem Balances.raise (hBalances : Balances bs rs) (hAll : ∀ b ∈ bs, b.value < rs.outer)
    (hNext : (raiseRadius rs).radius.toNat = rs.radius.toNat + 1)
    (hDepths : ∀ b ∈ bs, (raiseRadius rs).radius.toNat < b.depth.toNat) :
    Balances bs (raiseRadius rs) where
  above := hBalances.above.raise
  balance := by
    rw [← hBalances.balance]
    refine congrArg (rs.available + ·) (congrArg List.sum ?_)
    refine List.map_congr_left ?_
    intro b hMem
    have hInner : ¬ b.value < (raiseRadius rs).outer := not_lt.mpr (hBalances.above.inner_le b hMem)
    unfold weight
    rw [if_neg hInner, if_pos (hAll b hMem), one_mul]
    exact two_mul_exp2 hNext (hDepths b hMem)

/- A radius below the largest one can be raised. -/
theorem toNat_raiseRadius (hLt : rs.radius.toNat < 255) :
    (raiseRadius rs).radius.toNat = rs.radius.toNat + 1 := by
  have hAdd : (rs.radius + 1).toNat = (rs.radius.toNat + 1) % 256 := UInt8.toNat_add rs.radius 1
  change (rs.radius + 1).toNat = _
  omega

end

---- Put

variable {st st' : BatchStore} {b last : Batch}
variable {value : Nat} {depth : UInt8}

/- `evictOuter` returns before the radius gets too large. -/
theorem evictOuter_returns (hEvicts : Evicts st last bs)
    (hLow : ∀ t, Calls last st t → t.rs.radius.toNat < 255) :
    ∃ fuel st', st.evictOuter last fuel = some st' := by
  -- the radius grows from call to call
  induction hMeasure : 256 - st.rs.radius.toNat using Nat.strong_induction_on generalizing st with
  | _ measure ih =>
    have hRound := evictRound_eq hEvicts
    by_cases hDone : 0 ≤ st.rs.available.toInt
    · rw [if_pos hDone] at hRound
      exact ⟨1, st, by simp [BatchStore.evictOuter, hRound]⟩
    · rw [if_neg hDone] at hRound
      by_cases hAgain : (pass bs st.rs).1.available.toInt < 0
      · rw [if_pos hAgain] at hRound
        have hRadius : (pass bs st.rs).1.radius = st.rs.radius := (evictList_frame bs st.rs).1
        have hLt := hLow st .refl
        rw [← hRadius] at hLt
        have hNext := toNat_raiseRadius hLt
        rw [hRadius] at hNext hLt
        have hSmaller : 256 - (raiseRadius (pass bs st.rs).1).radius.toNat < measure := by omega
        have hCalls :
            ∀ t, Calls last (st.withReserve (raiseRadius (pass bs st.rs).1, (pass bs st.rs).2)) t →
              t.rs.radius.toNat < 255 := fun t hCalls => hLow t (.head hRound hCalls)
        have hEvicts' :
            Evicts (st.withReserve (raiseRadius (pass bs st.rs).1, (pass bs st.rs).2)) last bs :=
          hEvicts
        rcases ih _ hSmaller hEvicts' hCalls rfl with ⟨fuel, st', hReturns⟩
        exact ⟨fuel + 1, st', by simp [BatchStore.evictOuter, hRound, hReturns]⟩
      · rw [if_neg hAgain] at hRound
        exact ⟨1, _, by simp [BatchStore.evictOuter, hRound]; rfl⟩

theorem put_returns (hEvicts : Evicts (st.putStart b value depth) (b.changed value depth) bs)
    (hLow :
      ∀ t, Calls (b.changed value depth) (st.putStart b value depth) t → t.rs.radius.toNat < 255) :
    ∃ fuel st', st.put fuel b value depth = some st' := by
  rcases evictOuter_returns hEvicts hLow with ⟨fuel, t, hOuter⟩
  refine ⟨fuel, t.storeBatch (b.changed value depth), ?_⟩
  exact Option.bind_eq_some_iff.mpr ⟨t, hOuter, rfl⟩

/- Zero is never in the reserve. -/
theorem tier_zero (rs : ReserveState) : rs.tier 0 = .unreserved := by
  rcases Nat.eq_zero_or_pos rs.inner with hZero | hPos
  · exact ReserveState.tier_of_inner_eq_zero hZero
  · exact ReserveState.tier_of_lt hPos

/- Charging the new size moves capacity to the batch. -/
theorem BatchStore.Ordered.charged (hOrdered : st.Ordered) (hPut : st.Puttable b) (hPos : 0 < value)
    (hEvicts : Evicts (st.putStart b value depth) (b.changed value depth) bs) :
    (st.putStart b value depth).rs.available +
        (bs.map (weight (st.putStart b value depth).rs.radius
          (st.putStart b value depth).rs.outer)).sum = st.rs.available + st.reserved := by
  have hAbove := hOrdered.above hPos hEvicts
  have hLimited := hOrdered.limited hPos
  have hIds := (hOrdered.indexed.evicts hPut value depth).1.ids
  rw [← hAbove.sum_size]
  have hList := hEvicts.total_eq hIds (st.putStart b value depth).sizeOf
  unfold BatchStore.sizeOf at hList
  rw [← hList]
  -- sizes before and after the limits change
  let rs := (st.rs.setLimits value (st.rs.tier value)).1
  let size := fun c : Batch => rs.size c.depth (rs.tier c.value)
  have hSame : ∀ id c, st.batches.get id = some c → size c = st.sizeOf c := by
    intro id c hStored
    have hInner := hOrdered.inner_pos hStored
    have hTier := (hLimited.kept hInner).2 c.value (hOrdered.inner_le id c hStored)
    unfold size BatchStore.sizeOf ReserveState.size
    rw [hTier, hLimited.radius]
  have hTotal : st.batches.total size = st.reserved := st.batches.total_congr hSame
  have hNew :
      size (b.changed value depth) =
        rs.size depth (st.rs.setLimits value (st.rs.tier value)).2 := by
    rw [← hLimited.tier]
  have hAvailable :
      (st.putStart b value depth).rs.available =
        st.rs.available +
          (rs.size b.depth (st.rs.tier b.value) - size (b.changed value depth)) := by
    rw [hNew, ← hLimited.available]
    rfl
  change (st.putStart b value depth).rs.available +
    (st.batches.put b.id (b.changed value depth)).total size = st.rs.available + st.reserved
  rw [hAvailable]
  rcases hPut.stored with ⟨hNone, hZero⟩ | ⟨old, hStored, hValue, hDepth⟩
  · have hOld : rs.size b.depth (st.rs.tier b.value) = 0 := by
      rw [hZero, tier_zero]
      rfl
    rw [hOld, st.batches.total_put_of_get_eq_none size _ hNone, hTotal]
    ring
  · have hOld : rs.size b.depth (st.rs.tier b.value) = size old := by
      rw [hSame b.id old hStored, ← hValue, ← hDepth]
      unfold BatchStore.sizeOf ReserveState.size
      rw [hLimited.radius]
    have hMoved := st.batches.total_put_of_get_eq_some size (b.changed value depth) hStored
    rw [hTotal] at hMoved
    rw [hOld]
    linear_combination hMoved

/- The balance when the new size has been charged. -/
theorem BatchStore.Consistent.balances (hCons : st.Consistent) (hPut : st.Puttable b)
    (hPos : 0 < value) (hEvicts : Evicts (st.putStart b value depth) (b.changed value depth) bs) :
    Balances bs (st.putStart b value depth).rs := by
  refine ⟨hCons.ordered.above hPos hEvicts, ?_⟩
  have hBalanced : st.rs.available = capacity - st.reserved := hCons.balanced
  rw [hCons.ordered.charged hPut hPos hEvicts, hBalanced, sub_add_cancel]

/- The stored record does not carry the radius. -/
theorem total_put_radius {M : Type} [AddCommGroup M] (batches : Index BatchID Batch) {f : Batch → M}
    (hRadius : ∀ c, f { c with radius := 0 } = f c) :
    (batches.put b.id { new with radius := 0 }).total f = (batches.put b.id new).total f := by
  cases hGet : batches.get b.id with
  | none =>
    rw [batches.total_put_of_get_eq_none f _ hGet,
      batches.total_put_of_get_eq_none f _ hGet, hRadius]
  | some old =>
    have hLeft := batches.total_put_of_get_eq_some f { new with radius := 0 } hGet
    have hRight := batches.total_put_of_get_eq_some f new hGet
    rw [hRadius] at hLeft
    exact add_left_cancel (hLeft.trans hRight.symm)

/-
  In a consistent store a put of a positive value returns, as long as its calls of `evictOuter` find
  no batch that is shallower than the radius, and leaves a consistent store with capacity that is
  not negative.
-/
theorem put_consistent (hCons : st.Consistent) (hPut : st.Puttable b) (hPos : 0 < value)
    (hDepths : st.NoUnderflow b value depth) :
    (∃ fuel st', st.put fuel b value depth = some st') ∧
      ∀ fuel st', st.put fuel b value depth = some st' →
        st'.Consistent ∧ 0 ≤ st'.rs.available.toInt := by
  rcases hCons.ordered.indexed.evicts hPut value depth with ⟨hIndexed, bs, hEvicts⟩
  have hBatch :
      ∀ t, Calls (b.changed value depth) (st.putStart b value depth) t →
        ∀ c ∈ bs, t.rs.radius.toNat < c.depth.toNat := fun t hCalls c hMem =>
      hDepths t hCalls c.id c ((hEvicts.mem c).mp hMem)
  have hStart := hCons.balances hPut hPos hEvicts
  have hMem : b.changed value depth ∈ bs := by
    rw [hEvicts.mem]
    exact Index.get_put_self _ _ _
  constructor
  · refine put_returns hEvicts fun t hCalls => ?_
    exact (hBatch t hCalls _ hMem).trans_le (Nat.le_of_lt_succ (UInt8.toNat_lt _))
  · intro fuel st' hResult
    have hEnd := put_invariant (fun rs =>
        ∀ c ∈ bs, rs.radius.toNat < c.depth.toNat)
      (fun rs _ => Balances bs rs ∧ ∀ c ∈ bs, rs.radius.toNat < c.depth.toNat)
      (by
        rintro rs _ ⟨hBalances, hDeep⟩ _
        refine ⟨hBalances.pass hEvicts.sorted, ?_⟩
        have hRadius : (pass bs rs).1.radius = rs.radius := (evictList_frame bs rs).1
        rw [hRadius]
        exact hDeep)
      (by
        rintro rs _ ⟨hBalances, hDeep⟩ - hAll hAllowed
        have hNext :=
          toNat_raiseRadius ((hDeep _ hMem).trans_le (Nat.le_of_lt_succ (UInt8.toNat_lt _)))
        exact ⟨hBalances.raise hAll hNext hAllowed, hAllowed⟩)
      hEvicts hBatch ⟨hStart, hBatch _ .refl⟩ hResult
    rcases hEnd with ⟨⟨hBalances, -⟩, hAvailable, hBatches, -, -⟩
    refine ⟨⟨hCons.ordered.put hPut hPos hResult, ?_⟩, hAvailable⟩
    have hList := hEvicts.total_eq hIndexed.ids st'.sizeOf
    have hReserved : st'.reserved = (bs.map (weight st'.rs.radius st'.rs.outer)).sum := by
      unfold BatchStore.reserved
      rw [hBatches, total_put_radius _ (fun _ => rfl), ← hBalances.above.sum_size]
      exact hList
    unfold BatchStore.Balanced
    rw [hReserved, ← hBalances.balance]
    ring

/- A call that finds capacity makes no further call. -/
theorem noUnderflow_of_available (hAvailable : 0 ≤ (st.putStart b value depth).rs.available.toInt)
    (hDepths :
      ∀ id c, (st.batches.put b.id (b.changed value depth)).get id = some c →
        (st.putStart b value depth).rs.radius.toNat < c.depth.toNat) :
    st.NoUnderflow b value depth := by
  intro t hCalls
  rcases hCalls.cases_head with rfl | ⟨next, hRecurses, -⟩
  · exact hDepths
  · unfold Recurses BatchStore.evictRound at hRecurses
    rw [if_pos hAvailable] at hRecurses
    cases hRecurses

/- A batch that is created, before it has a value. -/
def newBatch (id : BatchID) (depth : UInt8) : Batch where
  id := id
  value := 0
  start := 0
  owner := 0
  depth := depth
  bucketDepth := 16
  immutable := false

theorem consistent_empty (startBlock : UInt64) : (BatchStore.empty startBlock).Consistent where
  ordered := ordered_empty startBlock
  balanced := by
    exact (sub_zero _).symm

theorem put_consistent_first :
    (∃ fuel st', (BatchStore.empty 0).put fuel (newBatch 1 17) 10 17 = some st') ∧
      ∀ fuel st', (BatchStore.empty 0).put fuel (newBatch 1 17) 10 17 = some st' →
        st'.Consistent ∧ 0 ≤ st'.rs.available.toInt := by
  have hDepths : (BatchStore.empty 0).NoUnderflow (newBatch 1 17) 10 17 := by
    refine noUnderflow_of_available (by decide +kernel) ?_
    intro id c hGet
    rw [Index.get_put] at hGet
    split at hGet
    · rw [← Option.some.inj hGet]
      decide
    · cases hGet
  exact put_consistent (consistent_empty 0) (Or.inl ⟨rfl, rfl⟩) (by decide) hDepths

/- The accounting of a store alone, without what zero limits say about its batches. -/
structure BatchStore.Accounted (st : BatchStore) : Prop where
  inner_le : ∀ id c, st.batches.get id = some c → st.rs.inner ≤ c.value
  limits : st.rs.inner ≤ st.rs.outer
  balanced : st.Balanced

/- A store with a batch and no limits. -/
def unlimitedStore : BatchStore :=
  let st := (BatchStore.empty 0).moveValue (newBatch 0 17) 3
  st.storeBatch ((newBatch 0 17).changed 3 17)

theorem unlimitedStore_indexed : Indexed unlimitedStore.values unlimitedStore.batches :=
  indexed_moveValue (ordered_empty 0).indexed (Or.inl ⟨rfl, rfl⟩) ((newBatch 0 17).changed 3 17) rfl

theorem unlimitedStore_accounted : unlimitedStore.Accounted where
  inner_le _ _ _ := Nat.zero_le _
  limits := le_refl 0
  balanced := by decide +kernel

/- The next batch sets the limits above the stored one. -/
theorem put_unlimited_not_accounted :
    ¬ ∀ (st : BatchStore) (b : Batch) (value : Nat) (depth : UInt8),
      Indexed st.values st.batches → st.Accounted → st.Puttable b → 0 < value →
      st.NoUnderflow b value depth →
      ∀ fuel st', st.put fuel b value depth = some st' →
        st'.Accounted ∧ 0 ≤ st'.rs.available.toInt := by
  intro hAll
  have hDepths : unlimitedStore.NoUnderflow (newBatch 1 17) 10 17 := by
    refine noUnderflow_of_available (by decide +kernel) ?_
    intro id c hGet
    rw [Index.get_put] at hGet
    split at hGet
    · rw [← Option.some.inj hGet]
      decide
    · unfold unlimitedStore BatchStore.storeBatch at hGet
      rw [Index.get_put] at hGet
      split at hGet
      · rw [← Option.some.inj hGet]
        decide
      · cases hGet
  have hRun :
      ∃ st' ∈ unlimitedStore.put 1 (newBatch 1 17) 10 17,
        st'.rs.inner = 10 ∧ ∃ c ∈ st'.batches.get 0, c.value = 3 := by
    decide +kernel
  rcases hRun with ⟨st', hResult, hInner, c, hStored, hValue⟩
  have hAccounted :=
    (hAll unlimitedStore (newBatch 1 17) 10 17 unlimitedStore_indexed unlimitedStore_accounted
      (Or.inl ⟨by decide +kernel, rfl⟩) (by decide) hDepths 1 st' hResult).1
  have hLe := hAccounted.inner_le 0 c hStored
  omega

end Sana.Postage

---- Refunds

namespace Sana.Postage

open KeyValue

variable {st st' : BatchStore} {bs : List Batch}

/- The sum of a function over the batches that are paid up. -/
def BatchStore.expiring (st : BatchStore) (total : Nat) (f : Batch → I64) : I64 :=
  st.batches.total fun b => if b.value ≤ total then f b else 0

/- With limits, a refund is a size at the reported radius. -/
theorem refund_eq (hPos : 0 < st.rs.inner) :
    refund st b = st.rs.size (st.reportedRadius b.value) (st.rs.tier b.value) := by
  unfold refund factor
  rw [ReserveState.size_eq]
  by_cases hInner : b.value < st.rs.inner
  · rw [if_pos hInner, ReserveState.tier_of_lt hInner]
  · rw [if_neg hInner, ReserveState.tier_of_le hPos (not_lt.mp hInner)]
    split
    · rfl
    · rfl

/- Sizes that are computed from reported radiuses. -/
theorem size_reportedRadius :
    st.rs.size (st.reportedRadius value) (st.rs.tier value) =
      if st.rs.storageRadius.toNat + 192 ≤ st.rs.radius.toNat then
        st.rs.size st.rs.storageRadius (st.rs.tier value)
      else 0 := by
  have hMax := st.rs.radius.toNat_lt
  by_cases hLt : st.rs.storageRadius < st.rs.radius
  · have hReported : st.reportedRadius value = st.rs.storageRadius := if_pos hLt
    rw [hReported]
    split
    · rfl
    · next hNear =>
        have hLarge : 64 ≤ (st.rs.storageRadius - st.rs.radius - 1).toNat := by
          rw [UInt8.lt_iff_toNat_lt] at hLt
          simp only [UInt8.toNat_sub, UInt8.reduceToNat]
          omega
        rw [ReserveState.size_eq, exp2_eq_zero hLarge, mul_zero]
  · have hReported : st.reportedRadius value = st.rs.radiusOf (st.rs.tier value) := if_neg hLt
    rw [UInt8.lt_iff_toNat_lt] at hLt
    rw [hReported, if_neg (by omega)]
    cases st.rs.tier value with
    | unreserved => rfl
    | inner =>
      have hLarge : 64 ≤ (st.rs.radius - st.rs.radius - 1).toNat := by
        simp only [UInt8.toNat_sub, UInt8.reduceToNat]
        omega
      exact exp2_eq_zero hLarge
    | outer =>
      have hLarge : 64 ≤ (st.rs.radius - 1 - st.rs.radius - 1).toNat := by
        simp only [UInt8.toNat_sub, UInt8.reduceToNat]
        omega
      change 2 * exp2 (st.rs.radius - 1 - st.rs.radius - 1) = 0
      rw [exp2_eq_zero hLarge, mul_zero]

/- Batches that are paid up are below the limit, or free. -/
theorem evictBelow_cases (st : BatchStore) :
    0 < st.rs.inner ∧ st.rs.inner ≤ st.cs.totalAmount ∧ st.evictBelow = st.cs.totalAmount + 1 ∨
      st.evictBelow = st.rs.inner ∧
        ∀ value ≤ st.cs.totalAmount, st.rs.tier value = .unreserved := by
  unfold BatchStore.evictBelow
  split
  · next hReached =>
      exact Or.inl ⟨hReached.1, hReached.2, rfl⟩
  · next hNot =>
      refine Or.inr ⟨rfl, fun value hLe => ?_⟩
      rcases Nat.eq_zero_or_pos st.rs.inner with hZero | hPos
      · exact ReserveState.tier_of_inner_eq_zero hZero
      · exact ReserveState.tier_of_lt (by omega)

theorem sum_map_filter (keep : Batch → Prop) [DecidablePred keep] (f : Batch → I64) :
    ((bs.filter fun b => decide (keep b)).map f).sum =
      (bs.map fun b => if keep b then f b else 0).sum := by
  rw [List.sum_map_ite]
  simp

/- What an iteration gives back, over all batches. -/
theorem sum_refund (st : BatchStore) (bs : List Batch) :
    ((evictedOf st.evictBelow bs).map (refund st)).sum = (bs.map fun b =>
        if b.value ≤ st.cs.totalAmount then
          st.rs.size (st.reportedRadius b.value) (st.rs.tier b.value)
        else 0).sum := by
  unfold evictedOf
  rw [sum_map_filter]
  congr 1
  refine List.map_congr_left fun b _ => ?_
  rcases evictBelow_cases st with ⟨hPos, -, hBelow⟩ | ⟨hBelow, hFree⟩
  · rw [hBelow, refund_eq hPos]
    simp only [Nat.lt_succ_iff]
  · rw [hBelow]
    have hLeft : (if b.value < st.rs.inner then refund st b else 0) = 0 := by
      split
      · next hLt =>
          unfold refund factor
          rw [if_pos hLt, zero_mul]
      · rfl
    rw [hLeft]
    split
    · next hLe =>
        rw [hFree b.value hLe]
        rfl
    · rfl

/- A sum over the batches that are deleted. -/
theorem sum_expired (st : BatchStore) (bs : List Batch) {f : Batch → I64}
    (hFree : ∀ b, st.rs.tier b.value = .unreserved → f b = 0) :
    ((expiredOf st.evictBelow st.cs.totalAmount bs).map f).sum = (bs.map fun b =>
        if b.value ≤ st.cs.totalAmount then f b
        else 0).sum := by
  unfold expiredOf evictedOf
  rw [sum_map_filter, sum_map_filter]
  congr 1
  refine List.map_congr_left fun b _ => ?_
  by_cases hPaid : b.value ≤ st.cs.totalAmount
  · rw [if_pos hPaid]
    rcases evictBelow_cases st with ⟨-, -, hBelow⟩ | ⟨-, hUnreserved⟩
    · rw [if_pos (by omega)]
    · rw [hFree b (hUnreserved b.value hPaid), ite_self]
  · rw [if_neg hPaid, ite_self]

/- What is out of the reserve has no size. -/
theorem size_of_unreserved {rs : ReserveState} (depth : UInt8)
    (hTier : t = .unreserved) : rs.size depth t = 0 := by
  rw [hTier]
  rfl

/- Raised limits leave the sections of values above them. -/
theorem tier_raiseLimits (hPos : 0 < st.rs.inner) (hLe : st.rs.inner ≤ below)
    (hAbove : below ≤ value) : (st.raiseLimits below).rs.tier value = st.rs.tier value := by
  have hRaised :
      (st.raiseLimits below).rs.tier value = if value < (st.raiseLimits below).rs.outer then .inner
        else .outer :=
    ReserveState.tier_of_le (hPos.trans_le hLe) hAbove
  have hOuter :
      (st.raiseLimits below).rs.outer = if st.rs.outer < below then below else st.rs.outer := rfl
  rw [hRaised, ReserveState.tier_of_le hPos (hLe.trans hAbove), hOuter]
  by_cases hLow : st.rs.outer < below
  · rw [if_pos hLow, if_neg (by omega), if_neg (by omega)]
  · rw [if_neg hLow]

/- Batches that stay keep their sections. -/
theorem Expired.tier_eq (hExpired : Expired st bs st') {id : BatchID}
    (hStored : st'.batches.get id = some b) : st'.rs.tier b.value = st.rs.tier b.value := by
  have hStays := ((hExpired.stored id b).mp hStored).2
  have hRaised : st'.rs.tier b.value = (st.raiseLimits st.evictBelow).rs.tier b.value := by
    rw [hExpired.rs]
    rfl
  have hInner : (st.raiseLimits st.evictBelow).rs.inner = st.evictBelow := rfl
  unfold BatchStore.Expires at hStays
  rw [hRaised]
  rcases evictBelow_cases st with ⟨hPos, hReached, hBelow⟩ | ⟨hBelow, -⟩
  · exact tier_raiseLimits hPos (by omega) (by omega)
  · rcases Nat.eq_zero_or_pos st.rs.inner with hZero | hPos
    · rw [ReserveState.tier_of_inner_eq_zero (by omega), ReserveState.tier_of_inner_eq_zero hZero]
    · by_cases hLt : b.value < st.rs.inner
      · rw [ReserveState.tier_of_lt (by omega), ReserveState.tier_of_lt hLt]
      · exact tier_raiseLimits hPos (by omega) (by omega)

/- They are charged as before. -/
theorem Expired.sizeOf_eq (hExpired : Expired st bs st') {id : BatchID}
    (hStored : st'.batches.get id = some b) : st'.sizeOf b = st.sizeOf b := by
  unfold BatchStore.sizeOf ReserveState.size
  rw [hExpired.tier_eq hStored, hExpired.radius_eq]

/- An expiry keeps the balance when its refunds are right. -/
theorem Expired.balanced_iff (hExpired : Expired st bs st')
    (hIndexed : Indexed st.values st.batches) (hOrder : InOrder st.values st.batches bs)
    (hBalanced : st.Balanced) :
    st'.Balanced ↔ st.expiring st.cs.totalAmount st.sizeOf = st.expiring st.cs.totalAmount fun b =>
          st.rs.size (st.reportedRadius b.value) (st.rs.tier b.value) := by
  have hFree : ∀ b, st.rs.tier b.value = .unreserved → st.sizeOf b = 0 :=
    fun b hTier => size_of_unreserved b.depth hTier
  have hDeleted := hExpired.total st.sizeOf
  rw [sum_expired st bs hFree, ← hOrder.total_eq hIndexed.ids] at hDeleted
  have hStays : st'.reserved = st'.batches.total st.sizeOf :=
    st'.batches.total_congr fun _ _ hStored => hExpired.sizeOf_eq hStored
  have hAvailable :
      st'.rs.available = st.rs.available + ((evictedOf st.evictBelow bs).map (refund st)).sum := by
    rw [hExpired.rs]
    rfl
  rw [sum_refund, ← hOrder.total_eq hIndexed.ids] at hAvailable
  have hBefore : st.rs.available = capacity - st.batches.total st.sizeOf := hBalanced
  unfold BatchStore.Balanced BatchStore.expiring
  rw [hAvailable, hStays, hBefore, ← hDeleted]
  constructor
  · intro hAfter
    linear_combination -hAfter
  · intro hSame
    linear_combination -hSame

/-
  From every reachable store, a chain state that lets batches expire keeps the balance exactly when
  the sizes of those batches add up to zero.  Only a radius that is ahead of the storage radius by
  192 or more leads to other refunds.
-/
theorem putChainState_balanced_iff {startBlock : UInt64} {cs : ChainState}
    (hReach : StoreReachable (fun _ _ => True) startBlock st) (hBalanced : st.Balanced)
    (hResult : st.putChainState cs = some st') :
    st'.Balanced ↔
      st.expiring cs.totalAmount st.sizeOf =
        if st.rs.storageRadius.toNat + 192 ≤ st.rs.radius.toNat then
          st.expiring cs.totalAmount fun b => st.rs.size st.rs.storageRadius (st.rs.tier b.value)
        else 0 := by
  have hIndexed := hReach.indexed
  rcases putChainState_spec hIndexed cs with ⟨bs, t, hOrder, hCall, hExpired⟩
  cases hCall.symm.trans hResult
  refine (hExpired.balanced_iff hIndexed hOrder hBalanced).trans ?_
  change st.expiring cs.totalAmount st.sizeOf = st.expiring cs.totalAmount (fun b =>
        st.rs.size (st.reportedRadius b.value) (st.rs.tier b.value)) ↔ _
  simp only [size_reportedRadius]
  by_cases hAhead : st.rs.storageRadius.toNat + 192 ≤ st.rs.radius.toNat
  · simp only [if_pos hAhead]
  · have hZero : st.expiring cs.totalAmount (fun _ => 0) = 0 := by
      simp [BatchStore.expiring, Index.total]
    simp only [if_neg hAhead, hZero]

/- A store with one batch, of value ten. -/
def firstStore : BatchStore :=
  ((BatchStore.empty 0).put 1 (newBatch 1 17) 10 17).get (by decide +kernel)

theorem firstStore_reachable : StoreReachable (fun _ _ => True) 0 firstStore :=
  .step (.put (newBatch 1 17) 10 17) .start trivial ⟨Or.inl ⟨rfl, rfl⟩, 1, (Option.some_get _).symm⟩

theorem putChainState_balanced_unpaid :
    ∃ st', firstStore.putChainState ⟨1, 9, 1⟩ = some st' ∧ st'.Balanced := by
  rcases putChainState_spec firstStore_reachable.indexed ⟨1, 9, 1⟩ with ⟨_, st', -, hResult, -⟩
  refine ⟨st', hResult, ?_⟩
  rw [putChainState_balanced_iff firstStore_reachable (by decide +kernel) hResult]
  decide +kernel

/- When the batch is paid up, nothing is given back. -/
theorem putChainState_not_balanced :
    ¬ ∀ (startBlock : UInt64) (st st' : BatchStore) (cs : ChainState),
      StoreReachable (fun _ _ => True) startBlock st → st.cs.totalAmount ≤ cs.totalAmount →
      st.Balanced → st.putChainState cs = some st' → st'.Balanced := by
  intro hAll
  have hRun : ∃ st' ∈ firstStore.putChainState ⟨1, 10, 1⟩, ¬ st'.Balanced := by decide +kernel
  rcases hRun with ⟨st', hResult, hEnd⟩
  exact hEnd (hAll 0 firstStore st' ⟨1, 10, 1⟩ firstStore_reachable (by decide +kernel)
    (by decide +kernel) hResult)

end Sana.Postage

---- Last Announcements

namespace Sana.Postage

variable {queue : List UnreserveItem} {bs : List Batch}

section

open KeyValue

/- The radius in the most recent item of a batch. -/
def lastRadius (queue : List UnreserveItem) (id : BatchID) : Option UInt8 :=
  (queue.reverse.find? fun item => item.batchID = id).map UnreserveItem.radius

variable {items : List UnreserveItem} {id : BatchID}

/- Items of other batches do not count. -/
theorem lastRadius_append_of_ne (hOthers : ∀ item ∈ items, item.batchID ≠ id) :
    lastRadius (queue ++ items) id = lastRadius queue id := by
  have hNone : (items.reverse.find? fun item => item.batchID = id) =
        none := by
    rw [List.find?_eq_none]
    intro item hMem
    simpa using hOthers item (List.mem_reverse.mp hMem)
  unfold lastRadius
  rw [List.reverse_append, List.find?_append, hNone, Option.none_or]

theorem lastRadius_append_of_mem (hItem : ∃ item ∈ items, item.batchID = id)
    (hRadius : ∀ item ∈ items, item.radius = radius) :
    lastRadius (queue ++ items) id = some radius := by
  rcases hItem with ⟨item, hMem, hId⟩
  have hSome : (items.reverse.find? fun item =>
        item.batchID = id).isSome = true := by
    rw [List.find?_isSome]
    exact ⟨item, List.mem_reverse.mpr hMem, by simpa using hId⟩
  rcases Option.isSome_iff_exists.mp hSome with ⟨found, hFound⟩
  have hLast := hRadius found (List.mem_reverse.mp (List.mem_of_find?_eq_some hFound))
  unfold lastRadius
  rw [List.reverse_append, List.find?_append, hFound, Option.some_or, Option.map_some, hLast]

end

---- Evictions

section

open KeyValue

variable {rs : ReserveState}

/- In the reserve, the radius depends on the outer limit. -/
theorem Above.radiusOf_tier (hAbove : Above bs rs) (hMem : b ∈ bs) :
    rs.radiusOf (rs.tier b.value) = if b.value < rs.outer then rs.radius
      else rs.radius - 1 := by
  rw [ReserveState.tier_of_le hAbove.inner_pos (hAbove.inner_le b hMem)]
  split
  · rfl
  · rfl

/- The last item of every batch has its current radius. -/
structure Announces (bs : List Batch) (rs : ReserveState) (queue : List UnreserveItem) : Prop where
  above : Above bs rs
  last : ∀ b ∈ bs, lastRadius queue b.id = some (rs.radiusOf (rs.tier b.value))

/- The batches that a pass moves are those it announces. -/
theorem Announces.pass (hAnnounces : Announces bs rs queue)
    (hSorted : bs.Pairwise (fun left right => left.value ≤ right.value))
    (hDistinct : (bs.map Batch.id).Nodup) :
    Announces bs (pass bs rs).1 (queue ++ (pass bs rs).2) where
  above := hAnnounces.above.pass
  last := by
    intro b hMem
    have hItems : (Postage.pass bs rs).2 = (bs.filter fun b =>
            decide (rs.outer ≤ b.value ∧ b.value ≤ (evictList bs rs).1.outer)).map
            fun b => ⟨b.id, rs.radius⟩ :=
      evictList_items hSorted
    have hRadius : (Postage.pass bs rs).1.radius = rs.radius := (evictList_frame bs rs).1
    have hOuter : (Postage.pass bs rs).1.outer = (evictList bs rs).1.outer + 1 := rfl
    have hGrows := evictList_outer_le bs rs
    have hLast := hAnnounces.last b hMem
    rw [hAnnounces.above.radiusOf_tier hMem] at hLast
    rw [hAnnounces.above.pass.radiusOf_tier hMem, hItems, hRadius]
    by_cases hMoved : rs.outer ≤ b.value ∧ b.value ≤ (evictList bs rs).1.outer
    · rw [if_pos (by omega)]
      refine lastRadius_append_of_mem ?_ ?_
      · refine ⟨⟨b.id, rs.radius⟩, ?_, rfl⟩
        refine List.mem_map.mpr ⟨b, ?_, rfl⟩
        rw [List.mem_filter]
        exact ⟨hMem, decide_eq_true hMoved⟩
      · intro item hItem
        rcases List.mem_map.mp hItem with ⟨c, -, rfl⟩
        rfl
    · rw [lastRadius_append_of_ne, hLast]
      · by_cases hBelow : b.value < rs.outer
        · rw [if_pos hBelow, if_pos (by omega)]
        · rw [if_neg hBelow, if_neg (by omega)]
      · intro item hItem hId
        rcases List.mem_map.mp hItem with ⟨c, hKept, rfl⟩
        rw [List.mem_filter] at hKept
        have hEq : c = b := List.inj_on_of_nodup_map hDistinct hKept.1 hMem hId
        rw [hEq] at hKept
        exact hMoved (of_decide_eq_true hKept.2)

/- A larger radius makes up for the section. -/
theorem Announces.raise (hAnnounces : Announces bs rs queue) (hAll : ∀ b ∈ bs, b.value < rs.outer) :
    Announces bs (raiseRadius rs) queue where
  above := hAnnounces.above.raise
  last := by
    intro b hMem
    have hInner : ¬ b.value < (raiseRadius rs).outer :=
      not_lt.mpr (hAnnounces.above.inner_le b hMem)
    have hRadius : (raiseRadius rs).radius - 1 = rs.radius := add_sub_cancel_right rs.radius 1
    rw [hAnnounces.above.raise.radiusOf_tier hMem, if_neg hInner, hRadius, hAnnounces.last b hMem,
      hAnnounces.above.radiusOf_tier hMem, if_pos (hAll b hMem)]

end

---- Calls

open KeyValue Program

/- The last item of every stored batch is up to date. -/
def BatchStore.Announced (st : BatchStore) : Prop :=
  ∀ id b, st.batches.get id = some b →
    lastRadius st.queue id = some (st.rs.radiusOf (st.rs.tier b.value))

variable {st st' : BatchStore} {b : Batch}
variable {value : Nat} {depth : UInt8}

/- The announcements when a put starts its evictions. -/
theorem BatchStore.Announced.announces (hAnnounced : st.Announced) (hOrdered : st.Ordered)
    (hPos : 0 < value) (hEvicts : Evicts (st.putStart b value depth) (b.changed value depth) bs) :
    Announces bs (st.putStart b value depth).rs (st.putStart b value depth).queue where
  above := hOrdered.above hPos hEvicts
  last := by
    have hLimited := hOrdered.limited hPos
    let limits := st.rs.setLimits value (st.rs.tier value)
    have hQueue :
        (st.putStart b value depth).queue = st.queue ++ [⟨b.id, limits.1.radiusOf limits.2⟩] := rfl
    intro c hMem
    have hGet : (st.batches.put b.id (b.changed value depth)).get c.id = some c :=
      (hEvicts.mem c).mp hMem
    change lastRadius _ c.id = some (limits.1.radiusOf (limits.1.tier c.value))
    rw [hQueue]
    rw [Index.get_put] at hGet
    split at hGet
    · next hId =>
        rw [← Option.some.inj hGet, hLimited.tier]
        refine lastRadius_append_of_mem ?_ ?_
        · exact ⟨_, List.mem_singleton_self _, rfl⟩
        · intro item hItem
          rw [List.mem_singleton.mp hItem]
    · next hNe =>
        have hKept :=
          (hLimited.kept (hOrdered.inner_pos hGet)).2 c.value (hOrdered.inner_le c.id c hGet)
        rw [lastRadius_append_of_ne, hAnnounced c.id c hGet, hKept]
        · unfold ReserveState.radiusOf
          rw [hLimited.radius]
        · intro item hItem
          rw [List.mem_singleton.mp hItem]
          exact hNe

/- A put keeps the announcements up to date. -/
theorem BatchStore.Announced.put (hAnnounced : st.Announced) (hOrdered : st.Ordered)
    (hPut : st.Puttable b) (hPos : 0 < value) (hResult : st.put fuel b value depth = some st') :
    st'.Announced := by
  rcases hOrdered.indexed.evicts hPut value depth with ⟨-, bs, hEvicts⟩
  have hEnd := put_invariant (fun _ => True) (fun rs queue => Announces bs rs queue)
    (fun _ _ hAnnounces _ => hAnnounces.pass hEvicts.sorted hEvicts.distinct)
    (fun _ _ hAnnounces _ hAll _ => hAnnounces.raise hAll) hEvicts (fun _ _ => trivial)
    (hAnnounced.announces hOrdered hPos hEvicts) hResult
  rcases hEnd with ⟨hAnnounces, -, hBatches, -, -⟩
  intro id c hGet
  rw [hBatches, Index.get_put] at hGet
  split at hGet
  · next hId =>
      rw [← Option.some.inj hGet, ← hId]
      apply hAnnounces.last (b.changed value depth)
      rw [hEvicts.mem]
      exact Index.get_put_self _ _ _
  · next hNe =>
      have hId := hOrdered.indexed.ids id c hGet
      rw [← hId]
      apply hAnnounces.last c
      rw [hEvicts.mem, hId]
      exact (Index.get_put_of_ne _ hNe _).trans hGet

/- An expiry announces nothing, and has nothing to. -/
theorem BatchStore.Announced.putChainState {cs : ChainState} (hAnnounced : st.Announced)
    (hIndexed : Indexed st.values st.batches) (hResult : st.putChainState cs = some st') :
    st'.Announced := by
  rcases putChainState_spec hIndexed cs with ⟨bs, t, -, hCall, hExpired⟩
  cases hCall.symm.trans hResult
  intro id b hStored
  have hOld := ((hExpired.stored id b).mp hStored).1
  rw [hExpired.queue, hExpired.tier_eq hStored]
  unfold ReserveState.radiusOf
  rw [hExpired.radius_eq]
  exact hAnnounced id b hOld

/- Puts of positive values and chain states. -/
def BatchOp.Positive (op : BatchOp) (_ : BatchStore) : Prop :=
  match op with
  | .put _ value _ => 0 < value
  | .putChainState _ => True
  | .unreserve _ => False

/- In every run of them the announcements are up to date. -/
theorem StoreReachable.announced
    (hReach : StoreReachable BatchOp.Positive startBlock st) : st.Ordered ∧ st.Announced := by
  refine hReach.invariant (fun st => st.Ordered ∧ st.Announced) ?_ ?_
  · refine ⟨ordered_empty startBlock, ?_⟩
    intro id b hGet
    cases hGet
  · rintro op before after ⟨hOrdered, hAnnounced⟩ hPos hStep
    cases op with
    | put b value depth =>
      rcases hStep with ⟨hPut, fuel, hResult⟩
      exact ⟨hOrdered.put hPut hPos hResult, hAnnounced.put hOrdered hPut hPos hResult⟩
    | putChainState cs =>
      exact ⟨hOrdered.putChainState hStep, hAnnounced.putChainState hOrdered.indexed hStep⟩
    | unreserve count => exact hPos.elim

end Sana.Postage
