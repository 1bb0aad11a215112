import Sana.Postage.Accounting

/-
  A bound on the radius.

  Raising the radius gives back the sizes of all batches, up to one chunk for each of them.  When
  the capacity that is available or taken by stored batches covers one chunk for each batch, the
  radius stays below the largest depth.

  Key definitions include:
    * `chunks`
    * `Covers`

  Key theorems include:
    * `Covers.pass`
-/

---- Sizes As Numbers

namespace Sana.Postage

open KeyValue Program

variable {bs : List Batch}

/- The number of chunks that a batch takes in the reserve. -/
def chunks (radius : UInt8) (outer : Nat) (b : Batch) : Nat :=
  (if b.value < outer then 1 else 2) * if radius.toNat < b.depth.toNat then
      2 ^ (b.depth.toNat - radius.toNat - 1)
    else 0

/- Whether a batch is deeper than the radius. -/
def deeper (radius : UInt8) (b : Batch) : Nat :=
  if radius.toNat < b.depth.toNat then 1 else 0

theorem exp2_depth_sub (hDeep : radius.toNat < depth.toNat) :
    exp2 (depth - radius - 1) = BitVec.ofNat 64 (2 ^ (depth.toNat - radius.toNat - 1)) := by
  rw [exp2_eq_pow, toNat_depth_sub hDeep]
  exact (Nat.cast_pow 2 _).symm

/- Radiuses that do not exceed a depth by too much. -/
theorem weight_eq_chunks (hRadius : radius.toNat ≤ 191) :
    weight radius outer b = BitVec.ofNat 64 (chunks radius outer b) := by
  have hSize : exp2 (b.depth - radius - 1) = BitVec.ofNat 64 (if radius.toNat < b.depth.toNat then
            2 ^ (b.depth.toNat - radius.toNat - 1)
          else 0) := by
    split
    · next hDeep => exact exp2_depth_sub hDeep
    · next hShallow =>
        have hLarge : 64 ≤ (b.depth - radius - 1).toNat := by
          simp only [UInt8.toNat_sub, UInt8.reduceToNat]
          omega
        rw [exp2_eq_zero hLarge]
        rfl
  unfold weight chunks
  rw [hSize, BitVec.ofNat_mul]
  split
  · rfl
  · rfl

theorem chunks_le : chunks radius outer b ≤ 2 ^ b.depth.toNat := by
  have hFactor : (if b.value < outer then 1 else 2) ≤ 2 := by
    split
    · exact Nat.le_succ 1
    · exact le_refl 2
  unfold chunks
  by_cases hDeep : radius.toNat < b.depth.toNat
  · rw [if_pos hDeep]
    calc (if b.value < outer then 1 else 2) *
          2 ^ (b.depth.toNat - radius.toNat - 1)
      _ ≤ 2 * 2 ^ (b.depth.toNat - radius.toNat - 1) :=
          Nat.mul_le_mul_right _ hFactor
      _ = 2 ^ (b.depth.toNat - radius.toNat - 1 + 1) :=
          (pow_succ' 2 _).symm
      _ ≤ 2 ^ b.depth.toNat :=
          Nat.pow_le_pow_right (by omega) (by omega)
  · rw [if_neg hDeep]
    exact Nat.zero_le _

/- A higher outer limit leaves fewer chunks. -/
theorem chunks_anti (hLe : outer ≤ outer') : chunks radius outer' b ≤ chunks radius outer b := by
  apply Nat.mul_le_mul_right
  by_cases hBelow : b.value < outer
  · rw [if_pos hBelow, if_pos (hBelow.trans_le hLe)]
  · split
    · exact Nat.le_succ 1
    · exact le_refl 2

/- A raised radius loses the last chunk of a batch. -/
theorem chunks_raise (hNext : radius'.toNat = radius.toNat + 1) (hBelow : b.value < outer)
    (hAbove : outer' ≤ b.value) :
    chunks radius' outer' b + deeper radius b = chunks radius outer b + deeper radius' b := by
  unfold chunks deeper
  rw [if_pos hBelow, if_neg (not_lt.mpr hAbove), hNext]
  by_cases hLive : radius.toNat + 1 < b.depth.toNat
  · have hPow :
        2 * 2 ^ (b.depth.toNat - (radius.toNat + 1) - 1) =
          2 ^ (b.depth.toNat - radius.toNat - 1) := by
      rw [← pow_succ']
      congr 1
      omega
    rw [if_pos hLive, if_pos (by omega), if_pos (by omega), if_pos hLive, hPow, one_mul]
  · rw [if_neg hLive, if_neg hLive]
    by_cases hLast : radius.toNat < b.depth.toNat
    · have hOne : b.depth.toNat - radius.toNat - 1 = 0 := by omega
      rw [if_pos hLast, if_pos hLast, hOne]
      rfl
    · rw [if_neg hLast, if_neg hLast]

---- Capacity For All Batches

section

variable {rs : ReserveState}

/- Numbers of chunks that do not overflow. -/
theorem toInt_ofNat_of_lt (hSmall : n < 2 ^ 63) : (BitVec.ofNat 64 n).toInt = n := by
  have hNat : (BitVec.ofNat 64 n).toNat = n := by
    rw [BitVec.toNat_ofNat, Nat.mod_eq_of_lt (by omega)]
  rw [BitVec.toInt_eq_toNat_of_lt (by omega), hNat]

theorem toInt_add_ofNat (hSmall : n < 2 ^ 60) (hNegative : a.toInt < 0) :
    (a + BitVec.ofNat 64 n).toInt = a.toInt + n := by
  have hLow := BitVec.le_toInt a
  rw [BitVec.toInt_add, toInt_ofNat_of_lt (by omega), Int.bmod_eq_of_le (by omega) (by omega)]

theorem toInt_sub_ofNat (hSmall : n < 2 ^ 60) (hPos : 0 ≤ a.toInt) :
    (a - BitVec.ofNat 64 n).toInt = a.toInt - n := by
  have hHigh : a.toInt < 2 ^ (64 - 1) := BitVec.toInt_lt
  rw [BitVec.toInt_sub, toInt_ofNat_of_lt (by omega), Int.bmod_eq_of_le (by omega) (by omega)]

/- The chunks that the batches of a list take. -/
def taken (bs : List Batch) (rs : ReserveState) : Nat :=
  (bs.map (chunks rs.radius rs.outer)).sum

theorem taken_le : taken bs rs ≤ (bs.map fun b => 2 ^ b.depth.toNat).sum :=
  List.sum_le_sum fun _ _ => chunks_le

theorem sum_weight_eq (hRadius : rs.radius.toNat ≤ 191) :
    (bs.map (weight rs.radius rs.outer)).sum = BitVec.ofNat 64 (taken bs rs) := by
  have hMap :
      bs.map (weight rs.radius rs.outer) =
        (bs.map (chunks rs.radius rs.outer)).map (BitVec.ofNat 64) := by
    rw [List.map_map]
    exact List.map_congr_left fun b _ => weight_eq_chunks hRadius
  rw [hMap]
  exact (Nat.cast_list_sum _).symm

/-
  Available capacity and what the batches take cover one chunk for each batch that is deeper than
  the radius.
-/
structure Covers (bs : List Batch) (rs : ReserveState) : Prop where
  above : Above bs rs
  radius_pos : 0 < rs.radius.toNat
  radius_le : rs.radius.toNat ≤ 191
  covered : ((bs.map (deeper rs.radius)).sum : Int) ≤ rs.available.toInt + taken bs rs

/- The batches hold a number of chunks that can be added. -/
def Countable (bs : List Batch) : Prop :=
  (bs.map fun b => 2 ^ b.depth.toNat).sum < 2 ^ 60

/- A pass gives back what it moves. -/
theorem Covers.pass (hCovers : Covers bs rs)
    (hSorted : bs.Pairwise (fun left right => left.value ≤ right.value)) (hCountable : Countable bs)
    (hNegative : rs.available.toInt < 0) : Covers bs (pass bs rs).1 := by
  have hRadius : (Postage.pass bs rs).1.radius = rs.radius := (evictList_frame bs rs).1
  have hGrows : rs.outer ≤ (Postage.pass bs rs).1.outer :=
    (evictList_outer_le bs rs).trans (Nat.le_succ _)
  have hLess : taken bs (Postage.pass bs rs).1 ≤ taken bs rs := by
    unfold taken
    rw [hRadius]
    exact List.sum_le_sum fun b _ => chunks_anti hGrows
  have hSmall : taken bs rs < 2 ^ 60 := taken_le.trans_lt hCountable
  rcases Nat.exists_eq_add_of_le hLess with ⟨gain, hGain⟩
  have hAvailable : (Postage.pass bs rs).1.available = rs.available + BitVec.ofNat 64 gain := by
    have hMoved :
        (Postage.pass bs rs).1.available +
            (bs.map (weight (Postage.pass bs rs).1.radius (Postage.pass bs rs).1.outer)).sum =
          rs.available + (bs.map (weight rs.radius rs.outer)).sum := by
      rw [hRadius]
      exact evictList_available hSorted
    rw [sum_weight_eq (hRadius ▸ hCovers.radius_le), sum_weight_eq hCovers.radius_le, hGain,
      BitVec.ofNat_add] at hMoved
    linear_combination hMoved
  have hInt : (Postage.pass bs rs).1.available.toInt = rs.available.toInt + gain := by
    rw [hAvailable]
    exact toInt_add_ofNat (by omega) hNegative
  refine ⟨hCovers.above.pass, ?_, ?_, ?_⟩
  · rw [hRadius]
    exact hCovers.radius_pos
  · rw [hRadius]
    exact hCovers.radius_le
  · have hCovered := hCovers.covered
    rw [hRadius]
    omega

/- A raise loses one chunk of the batches that it reaches. -/
theorem Covers.raise (hCovers : Covers bs rs) (hCountable : Countable bs)
    (hNegative : rs.available.toInt < 0) (hAll : ∀ b ∈ bs, b.value < rs.outer) :
    Covers bs (raiseRadius rs) := by
  have hCovered := hCovers.covered
  -- some batch is deeper than the radius
  have hDeep : ∃ b ∈ bs, rs.radius.toNat < b.depth.toNat := by
    by_contra hNone
    have hZero : taken bs rs = 0 := by
      unfold taken
      rw [List.sum_eq_zero_iff]
      intro n hChunks
      rcases List.mem_map.mp hChunks with ⟨b, hMem, rfl⟩
      have hShallow : ¬ rs.radius.toNat < b.depth.toNat := fun hLt => hNone ⟨b, hMem, hLt⟩
      unfold chunks
      rw [if_neg hShallow, mul_zero]
    omega
  rcases hDeep with ⟨b, hMem, hLt⟩
  have hDepth : b.depth.toNat < 60 := by
    have hLe : 2 ^ b.depth.toNat ≤ (bs.map fun b => 2 ^ b.depth.toNat).sum :=
      List.single_le_sum (fun _ _ => Nat.zero_le _) _ (List.mem_map.mpr ⟨b, hMem, rfl⟩)
    exact (Nat.pow_lt_pow_iff_right (by omega)).mp (hLe.trans_lt hCountable)
  have hNext := toNat_raiseRadius (hLt.trans (by omega))
  refine ⟨hCovers.above.raise, by omega, by omega, ?_⟩
  have hSum :
      taken bs (raiseRadius rs) + (bs.map (deeper rs.radius)).sum =
        taken bs rs + (bs.map (deeper (raiseRadius rs).radius)).sum := by
    unfold taken
    rw [← List.sum_map_add, ← List.sum_map_add]
    congr 1
    refine List.map_congr_left fun b hMem => ?_
    exact chunks_raise hNext (hAll b hMem) (hCovers.above.inner_le b hMem)
  have hSame : (raiseRadius rs).available = rs.available := rfl
  rw [hSame]
  omega

end

---- Runs

section

/-
  What is available or taken by stored batches covers one chunk for each batch, and the batches hold
  less than `2^60` chunks, with the one that is put.
-/
def BatchStore.Roomy (st : BatchStore) (b : Batch) (value : Nat) (depth : UInt8) : Prop :=
  let batches := st.batches.put b.id (b.changed value depth)
  (batches.count : Int) ≤ (st.rs.available + st.reserved).toInt ∧
    batches.total (fun c => 2 ^ c.depth.toNat) < 2 ^ 60

/- A radius that has not wrapped around. -/
def BatchStore.Bounded (st : BatchStore) : Prop :=
  0 < st.rs.radius.toNat ∧ st.rs.radius.toNat ≤ 191

/- A smaller value never has a smaller announced radius. -/
def BatchStore.Ranked (st : BatchStore) : Prop :=
  ∀ id id' b c, st.batches.get id = some b → st.batches.get id' = some c → b.value < c.value →
    ∀ radius radius', lastRadius st.queue id = some radius →
      lastRadius st.queue id' = some radius' → radius' ≤ radius

variable {st st' : BatchStore} {b : Batch}
variable {value : Nat} {depth : UInt8}

theorem BatchStore.Roomy.countable (hRoomy : st.Roomy b value depth)
    (hIndexed : Indexed st.values st.batches) (hPut : st.Puttable b)
    (hEvicts : Evicts (st.putStart b value depth) (b.changed value depth) bs) : Countable bs := by
  have hIds := (hIndexed.evicts hPut value depth).1.ids
  unfold Countable
  rw [← hEvicts.total_eq hIds]
  exact hRoomy.2

/- The batches are covered when a put starts its evictions. -/
theorem BatchStore.Roomy.covers (hRoomy : st.Roomy b value depth) (hOrdered : st.Ordered)
    (hBounded : st.Bounded) (hPut : st.Puttable b) (hPos : 0 < value)
    (hEvicts : Evicts (st.putStart b value depth) (b.changed value depth) bs) :
    Covers bs (st.putStart b value depth).rs := by
  have hRadius : (st.putStart b value depth).rs.radius = st.rs.radius :=
    (hOrdered.limited hPos).radius
  refine ⟨hOrdered.above hPos hEvicts, ?_, ?_, ?_⟩
  · rw [hRadius]
    exact hBounded.1
  · rw [hRadius]
    exact hBounded.2
  · have hIds := (hOrdered.indexed.evicts hPut value depth).1.ids
    have hLength : bs.length = (st.batches.put b.id (b.changed value depth)).count := by
      have hTotal := hEvicts.total_eq hIds (fun _ => 1)
      simp only [Index.total, List.map_const', List.sum_replicate, smul_eq_mul, mul_one,
        Index.length_entries] at hTotal
      exact hTotal.symm
    have hDeeper : (bs.map (deeper (st.putStart b value depth).rs.radius)).sum ≤ bs.length := by
      refine (List.sum_le_card_nsmul _ 1 ?_).trans ?_
      · intro n hMem
        rcases List.mem_map.mp hMem with ⟨c, -, rfl⟩
        unfold deeper
        split
        · exact le_refl 1
        · exact Nat.zero_le 1
      · rw [List.length_map, smul_eq_mul, mul_one]
    have hCharged := hOrdered.charged hPut hPos hEvicts
    rw [sum_weight_eq (hRadius ▸ hBounded.2)] at hCharged
    have hAvailable :
        (st.putStart b value depth).rs.available =
          st.rs.available + st.reserved -
            BitVec.ofNat 64 (taken bs (st.putStart b value depth).rs) := by
      linear_combination hCharged
    have hSmall : taken bs (st.putStart b value depth).rs < 2 ^ 60 :=
      taken_le.trans_lt (hRoomy.countable hOrdered.indexed hPut hEvicts)
    have hRoom := hRoomy.1
    rw [hAvailable, toInt_sub_ofNat hSmall (by omega)]
    omega

/- A put with room keeps the radius from wrapping around. -/
theorem BatchStore.Bounded.put (hBounded : st.Bounded) (hOrdered : st.Ordered)
    (hRoomy : st.Roomy b value depth) (hPut : st.Puttable b) (hPos : 0 < value)
    (hResult : st.put fuel b value depth = some st') : st'.Bounded := by
  rcases hOrdered.indexed.evicts hPut value depth with ⟨-, bs, hEvicts⟩
  have hCountable := hRoomy.countable hOrdered.indexed hPut hEvicts
  have hEnd := put_invariant (fun _ => True) (fun rs _ => Covers bs rs)
    (fun _ _ hCovers hNegative => hCovers.pass hEvicts.sorted hCountable hNegative)
    (fun _ _ hCovers hNegative hAll _ => hCovers.raise hCountable hNegative hAll)
    hEvicts (fun _ _ => trivial) (hRoomy.covers hOrdered hBounded hPut hPos hEvicts) hResult
  exact ⟨hEnd.1.radius_pos, hEnd.1.radius_le⟩

theorem BatchStore.Bounded.putChainState {cs : ChainState} (hBounded : st.Bounded)
    (hIndexed : Indexed st.values st.batches) (hResult : st.putChainState cs = some st') :
    st'.Bounded := by
  rcases putChainState_spec hIndexed cs with ⟨bs, t, -, hCall, hExpired⟩
  cases hCall.symm.trans hResult
  unfold BatchStore.Bounded
  rw [hExpired.radius_eq]
  exact hBounded

/- With a positive radius the sections are ranked. -/
theorem BatchStore.Announced.ranked (hAnnounced : st.Announced) (hOrdered : st.Ordered)
    (hPos : 0 < st.rs.radius.toNat) : st.Ranked := by
  intro id id' b c hB hC hLt radius radius' hLast hLast'
  rw [hAnnounced id b hB] at hLast
  rw [hAnnounced id' c hC] at hLast'
  cases hLast
  cases hLast'
  have hInner := hOrdered.inner_pos hB
  have hLess : st.rs.radius - 1 ≤ st.rs.radius := by
    have hOne : (1 : UInt8) ≤ st.rs.radius := UInt8.le_iff_toNat_le.mpr hPos
    rw [UInt8.le_iff_toNat_le, UInt8.toNat_sub_of_le _ _ hOne]
    exact Nat.sub_le _ _
  rw [ReserveState.tier_of_le hInner (hOrdered.inner_le id b hB),
    ReserveState.tier_of_le hInner (hOrdered.inner_le id' c hC)]
  by_cases hOuter : b.value < st.rs.outer
  · split
    · exact UInt8.le_refl _
    · exact hLess
  · rw [if_neg hOuter, if_neg (by omega)]
    exact UInt8.le_refl _

/- Puts of positive values with room, and all other calls. -/
def BatchOp.Spacious (op : BatchOp) (st : BatchStore) : Prop :=
  match op with
  | .put b value depth => 0 < value ∧ st.Roomy b value depth
  | _ => True

/- What runs of such calls keep. -/
theorem StoreReachable.bounded (hReach : StoreReachable BatchOp.Spacious startBlock st) :
    st.Ordered ∧ st.Bounded := by
  refine hReach.invariant (fun st => st.Ordered ∧ st.Bounded) ?_ ?_
  · refine ⟨ordered_empty startBlock, ?_⟩
    change 0 < defaultDepth.toNat ∧ defaultDepth.toNat ≤ 191
    decide
  · rintro op before after ⟨hOrdered, hBounded⟩ hAllowed hStep
    cases op with
    | put b value depth =>
      rcases hAllowed with ⟨hPos, hRoomy⟩
      rcases hStep with ⟨hPut, fuel, hResult⟩
      exact ⟨hOrdered.put hPut hPos hResult, hBounded.put hOrdered hRoomy hPut hPos hResult⟩
    | putChainState cs =>
      exact ⟨hOrdered.putChainState hStep, hBounded.putChainState hOrdered.indexed hStep⟩
    | unreserve count =>
      cases hStep
      rcases unreserveItems_frame before with ⟨hBatches, hValues, hInner, hOuter, hRadius⟩
      unfold BatchStore.Bounded
      rw [hRadius]
      refine ⟨⟨?_, ?_, ?_, ?_⟩, hBounded⟩
      · rw [hBatches, hValues]
        exact hOrdered.indexed
      · rw [hInner, hOuter, hBatches]
        exact hOrdered.started
      · rw [hInner, hBatches]
        exact hOrdered.inner_le
      · rw [hInner, hOuter]
        exact hOrdered.limits

/- The calls of the chain: puts of positive values with room. -/
def BatchOp.Announcing (op : BatchOp) (st : BatchStore) : Prop :=
  match op with
  | .put b value depth => 0 < value ∧ st.Roomy b value depth
  | .putChainState _ => True
  | .unreserve _ => False

theorem StoreReachable.spacious (hReach : StoreReachable BatchOp.Announcing startBlock st) :
    StoreReachable BatchOp.Spacious startBlock st := by
  refine hReach.mono ?_
  rintro (_ | _ | _) _ hAllowed
  · exact hAllowed
  · trivial
  · trivial

/-
  In every run of puts with room and chain states, the last item of every stored batch has the
  radius of its section, and smaller values never have smaller radiuses.
-/
theorem run_announced {startBlock : UInt64}
    (hReach : StoreReachable BatchOp.Announcing startBlock st) : st.Announced ∧ st.Ranked := by
  have hPositive : StoreReachable BatchOp.Positive startBlock st := by
    refine hReach.mono ?_
    rintro (_ | _ | _) _ hAllowed
    · exact hAllowed.1
    · trivial
    · exact hAllowed
  rcases hPositive.announced with ⟨hOrdered, hAnnounced⟩
  exact ⟨hAnnounced, hAnnounced.ranked hOrdered hReach.spacious.bounded.2.1⟩

end

---- Runs Of Creations

instance (st : BatchStore) (b : Batch) (value : Nat) (depth : UInt8) :
    Decidable (st.Roomy b value depth) :=
  inferInstanceAs (Decidable (_ ∧ _))

structure Creation where
  id : BatchID
  value : Nat
  depth : UInt8

/- Create batches, each of which passes a check. -/
def createAll (check : Creation → BatchStore → Bool) (fuel : Nat) :
    List Creation → BatchStore → Option BatchStore
| [], st => some st
| c :: rest, st =>
  if st.batches.has c.id = false ∧ check c st = true then
    (st.put fuel (newBatch c.id c.depth) c.value c.depth).bind (createAll check fuel rest)
  else none

theorem createAll_reachable
    (hCheck : ∀ c st, check c st = true → allowed (.put (newBatch c.id c.depth) c.value c.depth) st)
    (hReach : StoreReachable allowed startBlock st)
    (hResult : createAll check fuel creations st = some st') :
    StoreReachable allowed startBlock st' := by
  induction creations generalizing st with
  | nil =>
    cases hResult
    exact hReach
  | cons c rest ih =>
    unfold createAll at hResult
    split at hResult
    · next hFresh =>
        rcases Option.bind_eq_some_iff.mp hResult with ⟨next, hPut, hRest⟩
        have hNone := (Index.has_eq_false_iff _ _).mp hFresh.1
        exact ih (.step _ hReach (hCheck c st hFresh.2) ⟨Or.inl ⟨hNone, rfl⟩, fuel, hPut⟩) hRest
    · cases hResult

/- Two batches that do not fit at the first radius. -/
def evictedStore : BatchStore :=
  (createAll (fun c st => decide (0 < c.value ∧ st.Roomy (newBatch c.id c.depth) c.value c.depth)) 3
    [⟨1, 10, 34⟩, ⟨2, 20, 35⟩] (.empty 0)).get (by decide +kernel)

theorem evictedStore_reachable : StoreReachable BatchOp.Announcing 0 evictedStore := by
  refine createAll_reachable ?_ .start (Option.some_get _).symm
  intro c st hCheck
  have hAllowed : 0 < c.value ∧ st.Roomy (newBatch c.id c.depth) c.value c.depth :=
    of_decide_eq_true hCheck
  exact hAllowed

theorem run_announced_evicted :
    evictedStore.rs.radius = 13 ∧ evictedStore.Announced ∧ evictedStore.Ranked :=
  ⟨by decide +kernel, run_announced evictedStore_reachable⟩

theorem createPositive_reachable
    (hResult : createAll (fun c _ => decide (0 < c.value)) fuel creations (.empty startBlock) =
      some st) : StoreReachable BatchOp.Positive startBlock st := by
  refine createAll_reachable ?_ .start hResult
  intro c _ hCheck
  have hPos : 0 < c.value := of_decide_eq_true hCheck
  exact hPos

/- Creations that raise the radius from 255 to zero. -/
def wrapping : List Creation :=
  [⟨0, 5, 74⟩, ⟨1, 8, 113⟩, ⟨2, 8, 146⟩, ⟨3, 2, 177⟩, ⟨4, 7, 211⟩, ⟨5, 2, 252⟩, ⟨6, 1, 22⟩]

theorem run_not_ranked :
    ¬ ∀ (startBlock : UInt64) (st : BatchStore), StoreReachable BatchOp.Positive startBlock st →
      st.Announced ∧ st.Ranked := by
  intro hAll
  have hRun :
      ∃ st ∈ createAll (fun c _ => decide (0 < c.value)) 400 wrapping (.empty 0),
        ∃ low ∈ st.batches.get 6, ∃ high ∈ st.batches.get 0, low.value = 1 ∧ high.value = 5 ∧
          st.rs.radiusOf (st.rs.tier 1) = 0 ∧ st.rs.radiusOf (st.rs.tier 5) = 255 := by
    decide +kernel
  rcases hRun with ⟨st, hResult, low, hLow, high, hHigh, hOne, hFive, hZero, hMax⟩
  have hReach := createPositive_reachable hResult
  have hAnnounced := hReach.announced.2
  have hLast := hAnnounced 6 low hLow
  have hLast' := hAnnounced 0 high hHigh
  rw [hOne, hZero] at hLast
  rw [hFive, hMax] at hLast'
  have hRanked := (hAll 0 st hReach).2 6 0 low high hLow hHigh (by omega) 0 255 hLast hLast'
  exact absurd hRanked (by decide)

---- Sizes That Do Not Wrap

section

variable {rs : ReserveState} {st st' t : BatchStore} {b last : Batch} {value : Nat} {depth : UInt8}

/- The size of a batch that is not much deeper than the radius, as a number. -/
theorem toInt_size (hLow : rs.radius.toNat < depth.toNat)
    (hHigh : depth.toNat ≤ rs.radius.toNat + 62) (tier : Tier) :
    (rs.size depth tier).toInt = (match tier with
        | .unreserved => 0
        | .inner => 1
        | .outer => 2) * 2 ^ (depth.toNat - rs.radius.toNat - 1) := by
  have hPow : 2 ^ (depth.toNat - rs.radius.toNat - 1) ≤ 2 ^ 61 :=
    Nat.pow_le_pow_right (by omega) (by omega)
  unfold ReserveState.size
  rw [exp2_depth_sub hLow]
  cases tier with
  | unreserved => exact (zero_mul _).symm
  | inner =>
    rw [toInt_ofNat_of_lt (by omega), one_mul]
    exact Nat.cast_pow 2 _
  | outer =>
    dsimp only
    rw [show (2 : I64) = BitVec.ofNat 64 2 from rfl, ← BitVec.ofNat_mul,
      toInt_ofNat_of_lt (by omega), Nat.cast_mul]
    rfl

/- The batches are covered in every call of `evictOuter`. -/
theorem Covers.calls (hCovers : Covers bs st.rs) (hCountable : Countable bs)
    (hEvicts : Evicts st last bs) (hCalls : Calls last st t) :
    Evicts t last bs ∧ Covers bs t.rs := by
  induction hCalls with
  | refl => exact ⟨hEvicts, hCovers⟩
  | tail _ hStep ih =>
    rcases ih with ⟨hEvicts, hCovers⟩
    unfold Recurses at hStep
    rw [evictRound_eq hEvicts, Option.some.injEq] at hStep
    split_ifs at hStep with hDone hAgain
    cases hStep
    have hPassed := hCovers.pass hEvicts.sorted hCountable (not_le.mp hDone)
    refine ⟨hEvicts, hPassed.raise hCountable hAgain fun b hMem => ?_⟩
    exact Nat.lt_succ_of_le (le_evictList_outer hAgain b hMem)

/- A put with room returns, and the radius does not wrap around. -/
theorem put_spacious (hOrdered : st.Ordered) (hBounded : st.Bounded) (hPut : st.Puttable b)
    (hSpacious : BatchOp.Spacious (.put b value depth) st) :
    (∃ fuel st', st.put fuel b value depth = some st') ∧
      ∀ fuel st', st.put fuel b value depth = some st' →
        0 ≤ st'.rs.available.toInt ∧ st.rs.radius.toNat ≤ st'.rs.radius.toNat := by
  rcases hSpacious with ⟨hPos, hRoomy⟩
  rcases hOrdered.indexed.evicts hPut value depth with ⟨-, bs, hEvicts⟩
  have hCountable := hRoomy.countable hOrdered.indexed hPut hEvicts
  have hCovers := hRoomy.covers hOrdered hBounded hPut hPos hEvicts
  constructor
  · refine put_returns hEvicts fun t hCalls => ?_
    exact (hCovers.calls hCountable hEvicts hCalls).2.radius_le.trans_lt (by omega)
  · intro fuel st' hResult
    have hEnd := put_invariant (fun _ => True)
      (fun rs _ => Covers bs rs ∧ st.rs.radius.toNat ≤ rs.radius.toNat)
      (by
        rintro rs _ ⟨hCovers, hGrown⟩ hNegative
        have hRadius : (pass bs rs).1.radius = rs.radius := (evictList_frame bs rs).1
        refine ⟨hCovers.pass hEvicts.sorted hCountable hNegative, ?_⟩
        rw [hRadius]
        exact hGrown)
      (by
        rintro rs _ ⟨hCovers, hGrown⟩ hNegative hAll -
        have hLow := hCovers.radius_le
        refine ⟨hCovers.raise hCountable hNegative hAll, ?_⟩
        rw [toNat_raiseRadius (by omega)]
        omega)
      hEvicts (fun _ _ => trivial)
      ⟨hCovers, (congrArg UInt8.toNat (hOrdered.limited hPos).radius).ge⟩ hResult
    exact ⟨hEnd.2.1, hEnd.1.2⟩

/-
  In every state of a run of puts with room, sizes are positive and grow with the depth, for depths
  above the radius by at most 62, and every put with room returns with capacity that is not
  negative and a radius that did not wrap around.
-/
theorem sizes_bounded {startBlock : UInt64}
    (hReach : StoreReachable BatchOp.Spacious startBlock st) :
    (∀ depth depth' tier, st.rs.radius < depth → depth ≤ depth' →
      depth'.toNat ≤ st.rs.radius.toNat + 62 → tier ≠ .unreserved →
        0 < (st.rs.size depth tier).toInt ∧
          (st.rs.size depth tier).toInt ≤ (st.rs.size depth' tier).toInt) ∧
    ∀ b value depth, st.Puttable b → BatchOp.Spacious (.put b value depth) st →
      (∃ fuel st', st.put fuel b value depth = some st') ∧
        ∀ fuel st', st.put fuel b value depth = some st' →
          0 ≤ st'.rs.available.toInt ∧ st.rs.radius.toNat ≤ st'.rs.radius.toNat := by
  rcases hReach.bounded with ⟨hOrdered, hBounded⟩
  refine ⟨?_, fun b value depth => put_spacious hOrdered hBounded⟩
  intro depth depth' tier hLow hLe hHigh hTier
  rw [UInt8.lt_iff_toNat_lt] at hLow
  rw [UInt8.le_iff_toNat_le] at hLe
  rw [toInt_size hLow (by omega), toInt_size (by omega) hHigh]
  have hPos : (0 : Int) < 2 ^ (depth.toNat - st.rs.radius.toNat - 1) := by positivity
  have hPow : (2 : Int) ^ (depth.toNat - st.rs.radius.toNat - 1) ≤
      2 ^ (depth'.toNat - st.rs.radius.toNat - 1) := by
    gcongr
    omega
  cases tier with
  | unreserved => exact absurd rfl hTier
  | inner | outer =>
    dsimp only
    omega

/- A third batch is put at radius 13. -/
theorem sizes_bounded_evicted :
    (0 < (evictedStore.rs.size 17 .outer).toInt ∧
      (evictedStore.rs.size 17 .outer).toInt ≤ (evictedStore.rs.size 75 .outer).toInt) ∧
    ∃ fuel st', evictedStore.put fuel (newBatch 3 36) 15 36 = some st' := by
  have hBounded := sizes_bounded evictedStore_reachable.spacious
  constructor
  · exact hBounded.1 17 75 .outer (by decide +kernel) (by decide) (by decide +kernel) nofun
  · refine (hBounded.2 (newBatch 3 36) 15 36 (Or.inl ⟨?_, rfl⟩) ?_).1
    · decide +kernel
    · exact (show 0 < 15 ∧ evictedStore.Roomy (newBatch 3 36) 15 36 by decide +kernel)

/-
  At the first radius a depth of 77 has no size.  A batch of depth 40 raises the radius to 17, where
  a depth of 17 has none.  Some creations raise the radius to zero.
-/
theorem sizes_wrap :
    ((BatchStore.empty 0).rs.size 77 .inner).toInt = 0 ∧
    (∃ st, StoreReachable BatchOp.Positive 0 st ∧ (st.rs.size 17 .inner).toInt = 0) ∧
    ∃ st, StoreReachable BatchOp.Positive 0 st ∧ st.rs.radius = 0 := by
  have hRaised :
      ∃ st ∈ createAll (fun c _ => decide (0 < c.value)) 9 [⟨1, 10, 40⟩] (.empty 0),
        (st.rs.size 17 .inner).toInt = 0 := by
    decide +kernel
  have hWrapped :
      ∃ st ∈ createAll (fun c _ => decide (0 < c.value)) 400 wrapping (.empty 0),
        st.rs.radius = 0 := by
    decide +kernel
  rcases hRaised with ⟨st, hRun, hSize⟩
  rcases hWrapped with ⟨st', hRun', hRadius⟩
  exact ⟨by decide +kernel, ⟨st, createPositive_reachable hRun, hSize⟩, st',
    createPositive_reachable hRun', hRadius⟩

end

end Sana.Postage
