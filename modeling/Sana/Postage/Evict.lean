import Sana.Postage.BatchStore

/-
  Evictions as passes over the batches in the order of their values.

  The two indexes of the store list the same batches, so an iteration over the value index is one
  over a list of batches that is sorted by value.

  In every state that calls lead to, the inner limit is below all stored batches, so that each of
  them is in one of the two sections of the reserve.

  Key definitions include:
    * `Indexed`
    * `InOrder`

  Key theorems include:
    * `evictList_available`
-/

---- The Two Indexes

namespace Sana.Postage

open KeyValue

variable {values : Index ValueKey Unit} {bs : List Batch} {last : Batch} {st st' : BatchStore}

section

/- The value index has one key for every batch. -/
structure Indexed (values : Index ValueKey Unit) (batches : Index BatchID Batch) : Prop where
  ids : ∀ id b, batches.get id = some b → b.id = id
  keys : ∀ key, values.has key = true ↔ ∃ b, batches.get key.id = some b ∧ b.value = key.value

/- The batches in the order of the value index. -/
structure InOrder (values : Index ValueKey Unit) (batches : Index BatchID Batch)
    (bs : List Batch) : Prop where
  resolved :
    List.Forall₂ (fun key b => batches.get key.id = some b) (values.entries.map Prod.fst) bs
  sorted : bs.Pairwise (fun left right => left.value ≤ right.value)
  distinct : (bs.map Batch.id).Nodup
  mem : ∀ b, b ∈ bs ↔ batches.get b.id = some b

variable {batches : Index BatchID Batch}

/- Keys in order have values in order. -/
theorem value_le_of_compare {left right : ValueKey} (hLt : compare left right = .lt) :
    left.value ≤ right.value := by
  have hKeys : compareKeys ValueKey.value ValueKey.id left right = .lt := hLt
  simp only [compareKeys, compareLex, compareOn, Ordering.then_eq_lt, Nat.compare_eq_lt,
    Nat.compare_eq_eq] at hKeys
  omega

/- The key of a batch. -/
def Batch.valueKey (b : Batch) : ValueKey :=
  ⟨b.value, b.id⟩

/- Look up keys that are all stored. -/
theorem forall₂_filterMap {α β : Type} {f : α → Option β} {l : List α}
    (hSome : ∀ x ∈ l, ∃ y, f x = some y) :
    List.Forall₂ (fun x y => f x = some y) l (l.filterMap f) := by
  induction l with
  | nil => exact .nil
  | cons x l ih =>
    rcases hSome x (List.mem_cons_self ..) with ⟨y, hY⟩
    rw [List.filterMap_cons_some hY]
    exact .cons hY (ih fun z hZ => hSome z (List.mem_cons_of_mem x hZ))

/- A lookup that can be undone gives the keys back. -/
theorem map_filterMap_cancel {α β : Type} {f : α → Option β} {g : β → α} {l : List α}
    (hSome : ∀ x ∈ l, ∃ y, f x = some y ∧ g y = x) : (l.filterMap f).map g = l := by
  induction l with
  | nil => rfl
  | cons x l ih =>
    rcases hSome x (List.mem_cons_self ..) with ⟨y, hY, hBack⟩
    rw [List.filterMap_cons_some hY, List.map_cons, hBack,
      ih fun z hZ => hSome z (List.mem_cons_of_mem x hZ)]

theorem Indexed.mem_keys_iff (hIndexed : Indexed values batches) :
    key ∈ values.entries.map Prod.fst ↔ ∃ b, batches.get key.id = some b ∧ b.valueKey = key := by
  have hHas : key ∈ values.entries.map Prod.fst ↔ values.has key = true := by
    rw [Index.has_eq_true_iff, List.mem_map]
    constructor
    · rintro ⟨⟨key', value⟩, hMem, rfl⟩
      exact ⟨value, (Index.mem_entries_iff _ _ _).mp hMem⟩
    · rintro ⟨value, hGet⟩
      exact ⟨(key, value), (Index.mem_entries_iff _ _ _).mpr hGet, rfl⟩
  rw [hHas, hIndexed.keys]
  refine exists_congr fun b => and_congr_right fun hGet => ?_
  have hId := hIndexed.ids key.id b hGet
  constructor
  · intro hValue
    unfold Batch.valueKey
    rw [hValue, hId]
  · rintro rfl
    rfl

theorem Indexed.inOrder (hIndexed : Indexed values batches) : ∃ bs, InOrder values batches bs := by
  have hKeys :
      ∀ key ∈ values.entries.map Prod.fst, ∃ b, batches.get key.id = some b ∧ b.valueKey = key :=
    fun key hMem => hIndexed.mem_keys_iff.mp hMem
  have hResolved : ∀ key ∈ values.entries.map Prod.fst, ∃ b, batches.get key.id = some b :=
    fun key hMem => (hKeys key hMem).imp fun _ => And.left
  have hBack := map_filterMap_cancel hKeys
  refine ⟨_, forall₂_filterMap hResolved, ?_, ?_, ?_⟩
  · have hOrdered :
        (values.entries.map Prod.fst).Pairwise (fun left right => compare left right = .lt) :=
      List.pairwise_map.mpr values.ordered_entries
    rw [← hBack, List.pairwise_map] at hOrdered
    exact hOrdered.imp value_le_of_compare
  · have hNodup := values.nodup_keys_entries
    rw [← hBack] at hNodup
    refine hNodup.of_map.map_on ?_
    intro left hLeft right hRight hEq
    rcases List.mem_filterMap.mp hLeft with ⟨key, -, hGet⟩
    rcases List.mem_filterMap.mp hRight with ⟨key', -, hGet'⟩
    rw [← hIndexed.ids _ _ hGet, hEq, hIndexed.ids _ _ hGet', hGet'] at hGet
    exact (Option.some.inj hGet).symm
  · intro b
    rw [List.mem_filterMap]
    constructor
    · rintro ⟨key, -, hGet⟩
      rw [hIndexed.ids _ _ hGet]
      exact hGet
    · intro hGet
      exact ⟨b.valueKey, hIndexed.mem_keys_iff.mpr ⟨b, hGet, rfl⟩, hGet⟩

/- A sum over the batches, in either order. -/
theorem InOrder.total_eq {M : Type} [AddCommMonoid M]
    (hIds : ∀ id b, batches.get id = some b → b.id = id) (hOrder : InOrder values batches bs)
    (f : Batch → M) : batches.total f = (bs.map f).sum := by
  have hPerm : (batches.entries.map Prod.snd).Perm bs := by
    have hNodup : (batches.entries.map Prod.snd).Nodup := by
      refine batches.nodup_entries.map_on ?_
      rintro ⟨id, b⟩ hMem ⟨id', b'⟩ hMem' rfl
      rw [Index.mem_entries_iff] at hMem hMem'
      rw [← hIds id _ hMem, ← hIds id' _ hMem']
    rw [List.perm_ext_iff_of_nodup hNodup hOrder.distinct.of_map]
    intro b
    rw [hOrder.mem, List.mem_map]
    constructor
    · rintro ⟨⟨id, b'⟩, hMem, rfl⟩
      rw [Index.mem_entries_iff] at hMem
      rw [hIds id _ hMem]
      exact hMem
    · intro hGet
      exact ⟨(b.id, b), (Index.mem_entries_iff _ _ _).mpr hGet, rfl⟩
  rw [← (hPerm.map f).sum_eq, List.map_map]
  rfl

end

---- One Pass

section

/- The iteration of `evictOuter` over batches. -/
def evictList : List Batch → ReserveState → ReserveState × List UnreserveItem
| [], rs => (rs, [])
| b :: bs, rs =>
  if b.value < rs.outer then evictList bs rs
  else if 0 ≤ rs.available.toInt ∧ rs.outer ≠ b.value then (rs, [])
  else
    let rest := evictList bs (BatchStore.dropOuter rs b)
    (rest.1, ⟨b.id, rs.radius⟩ :: rest.2)

/- The part of a store that evictions change. -/
def BatchStore.withReserve (st : BatchStore) (reserve : ReserveState × List UnreserveItem) :
    BatchStore :=
  { st with
    rs := reserve.1
    queue := st.queue ++ reserve.2 }

variable {rs : ReserveState}

/- The store iterates as over the batches it looks up. -/
theorem evictValues_eq (hBatches : st.batches = batches) (hResolved : List.Forall₂ (fun key b =>
          (batches.put last.id last).get key.id = some b)
        keys bs) :
    BatchStore.evictValues last keys st = some (st.withReserve (evictList bs st.rs)) := by
  induction hResolved generalizing st with
  | nil => simp [BatchStore.evictValues, evictList, BatchStore.withReserve]
  | @cons key b keys bs hGet hRest ih =>
    have hFound : ∃ radius, st.getOr last key.id = some { b with radius := radius } := by
      unfold BatchStore.getOr
      rw [Index.get_put] at hGet
      split at hGet
      · next hEq =>
          rw [if_pos hEq]
          exact ⟨b.radius, hGet⟩
      · next hNe =>
          rw [if_neg hNe]
          exact ⟨st.reportedRadius b.value, by simp [BatchStore.get, hBatches, hGet]⟩
    rcases hFound with ⟨radius, hFound⟩
    simp only [BatchStore.evictValues, hFound, Option.bind_eq_bind, Option.bind_some, evictList]
    split
    · exact ih hBatches
    · split
      · simp [BatchStore.withReserve]
      · refine (ih ?_).trans ?_
        · exact hBatches
        · simp [BatchStore.withReserve, BatchStore.unreserve, BatchStore.dropOuter]

/- The size of a batch, given the radius and outer limit. -/
def weight (radius : UInt8) (outer : Nat) (b : Batch) : I64 :=
  (if b.value < outer then 1 else 2) * exp2 (b.depth - radius - 1)

/- Only the limit and the capacity change. -/
theorem evictList_frame (bs : List Batch) (rs : ReserveState) :
    (evictList bs rs).1.radius = rs.radius ∧ (evictList bs rs).1.storageRadius = rs.storageRadius ∧
      (evictList bs rs).1.inner = rs.inner := by
  induction bs generalizing rs with
  | nil => exact ⟨rfl, rfl, rfl⟩
  | cons b bs ih =>
    simp only [evictList]
    split
    · exact ih rs
    · split
      · exact ⟨rfl, rfl, rfl⟩
      · exact ih _

theorem evictList_outer_le (bs : List Batch) (rs : ReserveState) :
    rs.outer ≤ (evictList bs rs).1.outer := by
  induction bs generalizing rs with
  | nil => exact le_refl _
  | cons b bs ih =>
    simp only [evictList]
    split
    · exact ih rs
    · next hAbove =>
        split
        · exact le_refl _
        · have hRest := ih (BatchStore.dropOuter rs b)
          exact (not_lt.mp hAbove).trans hRest

/- Weights above a limit do not depend on it. -/
theorem sum_weight_of_le (hAbove : ∀ b ∈ bs, outer ≤ b.value ∧ outer' ≤ b.value) :
    (bs.map (weight radius outer)).sum = (bs.map (weight radius outer')).sum := by
  congr 1
  refine List.map_congr_left ?_
  intro b hMem
  unfold weight
  rw [if_neg (not_lt.mpr (hAbove b hMem).1), if_neg (not_lt.mpr (hAbove b hMem).2)]

/- A pass gives back the outer half of the batches that it moves to the inner section. -/
theorem evictList_available (hSorted : bs.Pairwise (fun left right => left.value ≤ right.value)) :
    (evictList bs rs).1.available +
        (bs.map (weight rs.radius ((evictList bs rs).1.outer + 1))).sum =
      rs.available + (bs.map (weight rs.radius rs.outer)).sum := by
  induction bs generalizing rs with
  | nil => rfl
  | cons b bs ih =>
    rw [List.pairwise_cons] at hSorted
    by_cases hBelow : b.value < rs.outer
    · have hSame : evictList (b :: bs) rs = evictList bs rs := by rw [evictList, if_pos hBelow]
      have hRest :
          (evictList bs rs).1.available +
              (bs.map (weight rs.radius ((evictList bs rs).1.outer + 1))).sum =
            rs.available + (bs.map (weight rs.radius rs.outer)).sum := ih hSorted.2
      have hOuter := evictList_outer_le bs rs
      have hWeight :
          weight rs.radius ((evictList bs rs).1.outer + 1) b = weight rs.radius rs.outer b := by
        unfold weight
        rw [if_pos (by omega), if_pos hBelow]
      rw [hSame, List.map_cons, List.map_cons, List.sum_cons, List.sum_cons, hWeight,
        add_left_comm, hRest, add_left_comm]
    · by_cases hStop : 0 ≤ rs.available.toInt ∧ rs.outer ≠ b.value
      · have hSame : evictList (b :: bs) rs = (rs, []) := by
          rw [evictList, if_neg hBelow, if_pos hStop]
        rw [hSame]
        congr 1
        apply sum_weight_of_le
        intro c hMem
        have hLe : b.value ≤ c.value := by
          rcases List.mem_cons.mp hMem with rfl | hMem
          · exact le_refl _
          · exact hSorted.1 c hMem
        dsimp only
        omega
      · have hStep : (evictList (b :: bs) rs).1 = (evictList bs (BatchStore.dropOuter rs b)).1 := by
          rw [evictList, if_neg hBelow, if_neg hStop]
        have hOuter := evictList_outer_le bs (BatchStore.dropOuter rs b)
        have hTail :
            (bs.map (weight rs.radius b.value)).sum = (bs.map (weight rs.radius rs.outer)).sum := by
          apply sum_weight_of_le
          intro c hMem
          have hLe := hSorted.1 c hMem
          omega
        have hNew :
            weight rs.radius ((evictList bs
              (BatchStore.dropOuter rs b)).1.outer + 1) b = exp2 (b.depth - rs.radius - 1) := by
          have hLt : b.value < (evictList bs (BatchStore.dropOuter rs b)).1.outer + 1 :=
            Nat.lt_succ_of_le hOuter
          unfold weight
          rw [if_pos hLt, one_mul]
        have hOld : weight rs.radius rs.outer b = 2 * exp2 (b.depth - rs.radius - 1) := by
          unfold weight
          rw [if_neg hBelow]
        have hRest' :
            (evictList bs (BatchStore.dropOuter rs b)).1.available +
              (bs.map (weight rs.radius ((evictList bs
                (BatchStore.dropOuter rs b)).1.outer + 1))).sum =
              rs.available + exp2 (b.depth - rs.radius - 1) +
                (bs.map (weight rs.radius b.value)).sum := ih hSorted.2
        rw [hStep, List.map_cons, List.map_cons, List.sum_cons, List.sum_cons, ← hTail, hNew, hOld]
        linear_combination hRest'

/- A pass that leaves no capacity has moved all batches. -/
theorem le_evictList_outer (hNegative : (evictList bs rs).1.available.toInt < 0) :
    ∀ b ∈ bs, b.value ≤ (evictList bs rs).1.outer := by
  induction bs generalizing rs with
  | nil => exact fun b hMem => (List.not_mem_nil hMem).elim
  | cons b bs ih =>
    simp only [evictList] at hNegative ⊢
    split at hNegative
    · next hBelow =>
        rw [if_pos hBelow]
        intro c hMem
        rcases List.mem_cons.mp hMem with rfl | hMem
        · exact hBelow.le.trans (evictList_outer_le bs rs)
        · exact ih hNegative c hMem
    · next hAbove =>
        rw [if_neg hAbove]
        split at hNegative
        · next hStop =>
            exact absurd hNegative (not_lt.mpr hStop.1)
        · next hGo =>
            rw [if_neg hGo]
            intro c hMem
            rcases List.mem_cons.mp hMem with rfl | hMem
            · exact evictList_outer_le bs (BatchStore.dropOuter rs c)
            · exact ih hNegative c hMem

/- The batches that a pass moves are announced. -/
theorem evictList_items (hSorted : bs.Pairwise (fun left right => left.value ≤ right.value)) :
    (evictList bs rs).2 = (bs.filter fun b =>
        decide (rs.outer ≤ b.value ∧ b.value ≤ (evictList bs rs).1.outer)).map
        fun b => ⟨b.id, rs.radius⟩ := by
  induction bs generalizing rs with
  | nil => rfl
  | cons b bs ih =>
    rw [List.pairwise_cons] at hSorted
    by_cases hBelow : b.value < rs.outer
    · rw [evictList, if_pos hBelow, List.filter_cons_of_neg, ih hSorted.2]
      simp only [decide_eq_true_eq]
      omega
    · by_cases hStop : 0 ≤ rs.available.toInt ∧ rs.outer ≠ b.value
      · rw [evictList, if_neg hBelow, if_pos hStop]
        have hNone : (b :: bs).filter (fun c =>
              decide (rs.outer ≤ c.value ∧ c.value ≤ rs.outer)) = [] := by
          rw [List.filter_eq_nil_iff]
          intro c hMem
          have hLe : b.value ≤ c.value := by
            rcases List.mem_cons.mp hMem with rfl | hMem
            · exact le_refl _
            · exact hSorted.1 c hMem
          simp only [decide_eq_true_eq]
          omega
        rw [hNone]
        rfl
      · have hOuter := evictList_outer_le bs (BatchStore.dropOuter rs b)
        have hRest : (evictList bs (BatchStore.dropOuter rs b)).2 =
              _ :=
          ih hSorted.2
        rw [evictList, if_neg hBelow, if_neg hStop]
        dsimp only
        rw [List.filter_cons_of_pos, hRest]
        · congr 2
          refine List.filter_congr ?_
          intro c hMem
          have hLe := hSorted.1 c hMem
          have hLimit : (BatchStore.dropOuter rs b).outer = b.value := rfl
          rw [decide_eq_decide]
          omega
        · simp only [decide_eq_true_eq]
          exact ⟨not_lt.mp hBelow, hOuter⟩

end

---- Rounds

/- A pass that is not stopped by an error. -/
def pass (bs : List Batch) (rs : ReserveState) : ReserveState × List UnreserveItem :=
  let rest := evictList bs rs
  ({ rest.1 with outer := rest.1.outer + 1 }, rest.2)

/- The reserve when all batches are in its inner section. -/
def raiseRadius (rs : ReserveState) : ReserveState :=
  { rs with radius := rs.radius + 1, outer := rs.inner }

/- The batches over which the evictions of a store iterate. -/
abbrev Evicts (st : BatchStore) (last : Batch) (bs : List Batch) : Prop :=
  InOrder st.values (st.batches.put last.id last) bs

/- One call of `evictOuter`. -/
theorem evictRound_eq (hEvicts : Evicts st last bs) :
    st.evictRound last = some (if 0 ≤ st.rs.available.toInt then .done st
        else if (pass bs st.rs).1.available.toInt < 0 then
          .again (st.withReserve (raiseRadius (pass bs st.rs).1, (pass bs st.rs).2))
        else
          .done (st.withReserve (pass bs st.rs))) := by
  have hValues := evictValues_eq rfl hEvicts.resolved
  unfold BatchStore.evictRound BatchStore.valueKeys
  split
  · rfl
  · rw [hValues]
    simp only [Option.bind_eq_bind, Option.bind_some]
    have hPass : (evictList bs st.rs).1.available = (pass bs st.rs).1.available := rfl
    simp only [BatchStore.withReserve, hPass]
    split
    · rfl
    · rfl

/- A call of `evictOuter` in which it calls itself. -/
def Recurses (last : Batch) (st st' : BatchStore) : Prop :=
  st.evictRound last = some (.again st')

/- The calls that one call of `evictOuter` leads to. -/
abbrev Calls (last : Batch) : BatchStore → BatchStore → Prop :=
  Relation.ReflTransGen (Recurses last)

/-
  What passes and raises of the radius keep holds when `evictOuter` returns.  A condition on all of
  its calls may be used.
-/
theorem evictOuter_invariant {Allowed : ReserveState → Prop}
    {Inv : ReserveState → List UnreserveItem → Prop}
    (hPass :
      ∀ rs queue, Inv rs queue → rs.available.toInt < 0 →
        Inv (pass bs rs).1 (queue ++ (pass bs rs).2))
    (hRaise :
      ∀ rs queue, Inv rs queue → rs.available.toInt < 0 → (∀ b ∈ bs, b.value < rs.outer) →
        Allowed (raiseRadius rs) → Inv (raiseRadius rs) queue)
    (hEvicts : Evicts st last bs) (hAllowed : ∀ t, Calls last st t → Allowed t.rs)
    (hStart : Inv st.rs st.queue) (hResult : st.evictOuter last fuel = some st') :
    Inv st'.rs st'.queue ∧ 0 ≤ st'.rs.available.toInt ∧
      st'.batches = st.batches ∧ st'.values = st.values ∧ st'.cs = st.cs := by
  induction fuel generalizing st with
  | zero => cases hResult
  | succ fuel ih =>
    have hRound := evictRound_eq hEvicts
    simp only [BatchStore.evictOuter, hRound] at hResult
    by_cases hDone : 0 ≤ st.rs.available.toInt
    · simp only [if_pos hDone] at hResult
      cases hResult
      exact ⟨hStart, hDone, rfl, rfl, rfl⟩
    · have hNext := hPass _ _ hStart (not_le.mp hDone)
      simp only [if_neg hDone] at hResult hRound
      by_cases hAgain : (pass bs st.rs).1.available.toInt < 0
      · simp only [if_pos hAgain] at hResult hRound
        have hCalls :
            ∀ t, Calls last (st.withReserve (raiseRadius (pass bs st.rs).1, (pass bs st.rs).2)) t →
              Allowed t.rs := fun t hCalls => hAllowed t (.head hRound hCalls)
        have hAll : ∀ b ∈ bs, b.value < (pass bs st.rs).1.outer := fun b hMem =>
            Nat.lt_succ_of_le (le_evictList_outer hAgain b hMem)
        have hRaised := hRaise _ _ hNext hAgain hAll (hCalls _ .refl)
        have hEvicts' :
            Evicts (st.withReserve (raiseRadius (pass bs st.rs).1, (pass bs st.rs).2)) last bs :=
          hEvicts
        have hRest := ih hEvicts' hCalls hRaised hResult
        exact hRest
      · simp only [if_neg hAgain] at hResult
        cases hResult
        exact ⟨hNext, not_lt.mp hAgain, rfl, rfl, rfl⟩

end Sana.Postage

---- Ordered Stores

namespace Sana.Postage

open KeyValue

variable {st st' : BatchStore} {b : Batch}

/-
  The indexes list the same batches, and none of them is below the inner limit, which is zero in a
  store that is still as it was made.
-/
structure BatchStore.Ordered (st : BatchStore) : Prop where
  indexed : Indexed st.values st.batches
  started : st.rs.inner = 0 → st.rs.outer = 0 ∧ ∀ id, st.batches.get id = none
  inner_le : ∀ id b, st.batches.get id = some b → st.rs.inner ≤ b.value
  limits : st.rs.inner ≤ st.rs.outer

theorem ordered_empty (startBlock : UInt64) : (BatchStore.empty startBlock).Ordered where
  indexed :=
    { ids := fun _ _ hGet => by
        simp [BatchStore.empty] at hGet
      keys := fun _ => by simp [BatchStore.empty, Index.has] }
  started _ := ⟨rfl, fun _ => Index.get_empty _⟩
  inner_le _ _ _ := Nat.zero_le _
  limits := le_refl 0

/-
  The batch that `Put` is called with: a new one that has no value yet, or a stored one as `Get`
  returns it.
-/
def BatchStore.Puttable (st : BatchStore) (b : Batch) : Prop :=
  st.batches.get b.id = none ∧ b.value = 0 ∨ st.get b.id = some b

/- A stored batch differs in the reported radius only. -/
theorem BatchStore.Puttable.stored (hPut : st.Puttable b) :
    st.batches.get b.id = none ∧ b.value = 0 ∨
      ∃ old, st.batches.get b.id = some old ∧ old.value = b.value ∧ old.depth = b.depth := by
  rcases hPut with hNew | hOld
  · exact Or.inl hNew
  · right
    rcases Option.map_eq_some_iff.mp hOld with ⟨old, hGet, hEq⟩
    refine ⟨old, hGet, ?_, ?_⟩
    · rw [← hEq]
    · rw [← hEq]

/- Moving a value keeps one key for every batch. -/
theorem indexed_moveValue (hIndexed : Indexed st.values st.batches) (hPut : st.Puttable b)
    (new : Batch) (hId : new.id = b.id) :
    Indexed (st.moveValue b new.value).values (st.batches.put b.id new) := by
  constructor
  · intro id c hGet
    rw [Index.get_put] at hGet
    split at hGet
    · next hEq =>
        rw [← Option.some.inj hGet, hId, hEq]
    · exact hIndexed.ids id c hGet
  · intro key
    have hMoved :
        (st.moveValue b new.value).values.has key = true ↔
          ⟨new.value, b.id⟩ = key ∨ ⟨b.value, b.id⟩ ≠ key ∧ st.values.has key = true := by
      unfold BatchStore.moveValue Index.has
      rw [Index.get_put, Index.get_delete]
      split
      · next hEq => simp [hEq]
      · next hNe =>
          split
          · next hOld => simp [hNe, hOld]
          · next hOld => simp [hNe, hOld]
    rw [hMoved, hIndexed.keys, Index.get_put]
    by_cases hEq : b.id = key.id
    · rw [if_pos hEq]
      constructor
      · rintro (rfl | ⟨hNe, c, hGet, hValue⟩)
        · exact ⟨new, rfl, rfl⟩
        · rw [← hEq] at hGet
          rcases hPut.stored with ⟨hNone, -⟩ | ⟨old, hOld, hSame, -⟩
          · rw [hNone] at hGet
            cases hGet
          · rw [hOld] at hGet
            cases hGet
            refine absurd ?_ hNe
            rw [← hSame, hValue, hEq]
      · rintro ⟨c, hSome, hValue⟩
        left
        rw [Option.some.inj hSome, hValue, hEq]
    · rw [if_neg hEq]
      constructor
      · rintro (rfl | ⟨-, hStored⟩)
        · exact absurd rfl hEq
        · exact hStored
      · intro hStored
        refine Or.inr ⟨?_, hStored⟩
        rintro rfl
        exact hEq rfl

---- Limits For A New Value

/-
  The limits with a new value in the reserve, and the section of that value; batches above the old
  limit stay in their sections.
-/
structure Limited (rs : ReserveState) (val : Nat) (rs' : ReserveState) (t : Tier) : Prop where
  radius : rs'.radius = rs.radius
  storageRadius : rs'.storageRadius = rs.storageRadius
  available : rs'.available = rs.available
  inner_pos : 0 < rs'.inner
  inner_le : rs'.inner ≤ val
  limits : rs'.inner ≤ rs'.outer
  tier : rs'.tier val = t
  kept : 0 < rs.inner → rs'.inner ≤ rs.inner ∧ ∀ x, rs.inner ≤ x → rs'.tier x = rs.tier x

theorem setLimits_limited (hStarted : rs.inner = 0 → rs.outer = 0)
    (hLimits : rs.inner ≤ rs.outer) (hPos : 0 < val) :
    Limited rs val (rs.setLimits val (rs.tier val)).1 (rs.setLimits val (rs.tier val)).2 := by
  unfold ReserveState.setLimits
  by_cases hTier : rs.tier val ≠ .unreserved
  · have hReserved : 0 < rs.inner ∧ rs.inner ≤ val := by
      unfold ReserveState.tier at hTier
      split at hTier
      · exact absurd rfl hTier
      · omega
    rw [if_pos hTier]
    exact ⟨rfl, rfl, rfl, hReserved.1, hReserved.2, hLimits,
      rfl, fun _ => ⟨le_refl _, fun _ _ => rfl⟩⟩
  · have hBelow : rs.inner = 0 ∨ val < rs.inner := by
      by_contra hNot
      rw [ReserveState.tier_of_le (by omega) (by omega)] at hTier
      split at hTier
      · exact hTier nofun
      · exact hTier nofun
    rw [if_neg hTier, if_pos hBelow]
    by_cases hSame : rs.outer = rs.inner
    · rw [if_pos hSame]
      refine ⟨rfl, rfl, rfl, hPos, le_refl _, le_refl _, ?_, ?_⟩
      · rw [ReserveState.tier_of_le hPos (le_refl _), if_neg (lt_irrefl _)]
      · intro hInner
        have hLt : val < rs.inner := by omega
        refine ⟨hLt.le, fun x hLe => ?_⟩
        rw [ReserveState.tier_of_le hPos (hLt.le.trans hLe),
          ReserveState.tier_of_le hInner hLe]
        dsimp only
        rw [if_neg (by omega), if_neg (by omega)]
    · have hInner : 0 < rs.inner := by omega
      have hLt : val < rs.inner := by omega
      rw [if_neg hSame]
      refine ⟨rfl, rfl, rfl, hPos, le_refl _, hLt.le.trans hLimits, ?_, ?_⟩
      · rw [ReserveState.tier_of_le hPos (le_refl _)]
        exact if_pos (hLt.trans_le hLimits)
      · intro _
        refine ⟨hLt.le, fun x hLe => ?_⟩
        rw [ReserveState.tier_of_le hPos (hLt.le.trans hLe), ReserveState.tier_of_le hInner hLe]

---- Put

/- A batch with its new value and depth. -/
abbrev Batch.changed (b : Batch) (value : Nat) (depth : UInt8) : Batch :=
  { b with value := value, depth := depth }

/- The store on which `Put` starts its evictions. -/
def BatchStore.putStart (st : BatchStore) (b : Batch) (value : Nat) (depth : UInt8) : BatchStore :=
  (st.moveValue b value).charge (b.changed value depth) b.depth b.value

/- The batches are all in the reserve. -/
structure Above (bs : List Batch) (rs : ReserveState) : Prop where
  inner_pos : 0 < rs.inner
  inner_le : ∀ b ∈ bs, rs.inner ≤ b.value
  limits : rs.inner ≤ rs.outer

theorem Above.pass (hAbove : Above bs rs) : Above bs (pass bs rs).1 := by
  have hInner := (evictList_frame bs rs).2.2
  have hOuter := evictList_outer_le bs rs
  have hLimits := hAbove.limits
  constructor
  · exact hInner ▸ hAbove.inner_pos
  · exact hInner ▸ hAbove.inner_le
  · change (evictList bs rs).1.inner ≤ (evictList bs rs).1.outer + 1
    omega

theorem Above.raise (hAbove : Above bs rs) : Above bs (raiseRadius rs) where
  inner_pos := hAbove.inner_pos
  inner_le := hAbove.inner_le
  limits := le_refl _

variable {value : Nat} {depth : UInt8} {bs : List Batch}

/- The limits with the new value. -/
theorem BatchStore.Ordered.limited (hOrdered : st.Ordered) (hPos : 0 < value) :
    Limited st.rs value (st.rs.setLimits value (st.rs.tier value)).1
      (st.rs.setLimits value (st.rs.tier value)).2 :=
  setLimits_limited (fun hZero => (hOrdered.started hZero).1) hOrdered.limits hPos

/- The batches in order, with the one that is put. -/
theorem Indexed.evicts (hIndexed : Indexed st.values st.batches) (hPut : st.Puttable b)
    (value : Nat) (depth : UInt8) :
    Indexed (st.moveValue b value).values (st.batches.put b.id (b.changed value depth)) ∧
      ∃ bs, Evicts (st.putStart b value depth) (b.changed value depth) bs := by
  have hMoved :
      Indexed (st.moveValue b value).values (st.batches.put b.id (b.changed value depth)) :=
    indexed_moveValue hIndexed hPut (b.changed value depth) rfl
  exact ⟨hMoved, hMoved.inOrder⟩

/- A batch of the list is the one that is put, or stored. -/
theorem Evicts.new_or_stored
    (hEvicts : Evicts (st.putStart b value depth) (b.changed value depth) bs)
    (hMem : c ∈ bs) : c = b.changed value depth ∨ st.batches.get c.id = some c := by
  have hGet : (st.batches.put b.id (b.changed value depth)).get c.id = some c :=
    (hEvicts.mem c).mp hMem
  rw [Index.get_put] at hGet
  split at hGet
  · exact Or.inl (Option.some.inj hGet).symm
  · exact Or.inr hGet

theorem BatchStore.Ordered.inner_pos (hOrdered : st.Ordered) {id : BatchID}
    (hStored : st.batches.get id = some b) : 0 < st.rs.inner := by
  rw [Nat.pos_iff_ne_zero]
  intro hZero
  have hNone := (hOrdered.started hZero).2 id
  rw [hStored] at hNone
  cases hNone

theorem BatchStore.Ordered.above (hOrdered : st.Ordered) (hPos : 0 < value)
    (hEvicts : Evicts (st.putStart b value depth) (b.changed value depth) bs) :
    Above bs (st.putStart b value depth).rs := by
  have hLimited := hOrdered.limited hPos
  constructor
  · exact hLimited.inner_pos
  · intro c hMem
    rcases hEvicts.new_or_stored hMem with rfl | hStored
    · exact hLimited.inner_le
    · have hInner := hOrdered.inner_pos hStored
      exact (hLimited.kept hInner).1.trans (hOrdered.inner_le c.id c hStored)
  · exact hLimited.limits

/- What evictions keep holds after a successful call. -/
theorem put_invariant (Allowed : ReserveState → Prop)
    (Inv : ReserveState → List UnreserveItem → Prop)
    (hPass :
      ∀ rs queue, Inv rs queue → rs.available.toInt < 0 →
        Inv (pass bs rs).1 (queue ++ (pass bs rs).2))
    (hRaise :
      ∀ rs queue, Inv rs queue → rs.available.toInt < 0 → (∀ b ∈ bs, b.value < rs.outer) →
        Allowed (raiseRadius rs) → Inv (raiseRadius rs) queue)
    (hEvicts : Evicts (st.putStart b value depth) (b.changed value depth) bs)
    (hAllowed : ∀ t, Calls (b.changed value depth) (st.putStart b value depth) t → Allowed t.rs)
    (hStart : Inv (st.putStart b value depth).rs (st.putStart b value depth).queue)
    (hResult : st.put fuel b value depth = some st') :
    Inv st'.rs st'.queue ∧ 0 ≤ st'.rs.available.toInt ∧
      st'.batches = st.batches.put b.id { b.changed value depth with radius := 0 } ∧
      st'.values = (st.moveValue b value).values ∧ st'.cs = st.cs := by
  have hEvicted :
      ∃ t,
        (st.putStart b value depth).evictOuter (b.changed value depth) fuel = some t ∧
          t.storeBatch (b.changed value depth) = st' := by
    rcases Option.bind_eq_some_iff.mp hResult with ⟨t, hOuter, hStore⟩
    exact ⟨t, hOuter, Option.some.inj hStore⟩
  rcases hEvicted with ⟨t, hOuter, rfl⟩
  have hEnd := evictOuter_invariant hPass hRaise hEvicts hAllowed hStart hOuter
  rcases hEnd with ⟨hInv, hAvailable, hBatches, hValues, hCs⟩
  refine ⟨hInv, hAvailable, ?_, hValues, hCs⟩
  unfold BatchStore.storeBatch
  rw [hBatches]
  rfl

/- What a successful call does outside of the reserve. -/
theorem put_frame (hIndexed : Indexed st.values st.batches) (hPut : st.Puttable b)
    (hResult : st.put fuel b value depth = some st') :
    st'.batches = st.batches.put b.id { b.changed value depth with radius := 0 } ∧
      st'.values = (st.moveValue b value).values ∧ st'.cs = st.cs := by
  rcases hIndexed.evicts hPut value depth with ⟨-, bs, hEvicts⟩
  have hEnd := put_invariant (fun _ => True) (fun _ _ => True)
    (fun _ _ _ _ => trivial) (fun _ _ _ _ _ _ => trivial)
    hEvicts (fun _ _ => trivial) trivial hResult
  exact hEnd.2.2

/- A successful call keeps the two indexes in step. -/
theorem Indexed.put (hIndexed : Indexed st.values st.batches) (hPut : st.Puttable b)
    (hResult : st.put fuel b value depth = some st') : Indexed st'.values st'.batches := by
  rcases put_frame hIndexed hPut hResult with ⟨hBatches, hValues, -⟩
  rw [hBatches, hValues]
  exact indexed_moveValue hIndexed hPut { b.changed value depth with radius := 0 } rfl

/- A successful call keeps the store ordered. -/
theorem BatchStore.Ordered.put (hOrdered : st.Ordered) (hPut : st.Puttable b)
    (hPos : 0 < value) (hResult : st.put fuel b value depth = some st') : st'.Ordered := by
  rcases hOrdered.indexed.evicts hPut value depth with ⟨-, bs, hEvicts⟩
  have hEnd := put_invariant (fun _ => True) (fun rs _ => Above bs rs)
    (fun _ _ hAbove _ => hAbove.pass) (fun _ _ hAbove _ _ _ => hAbove.raise)
    hEvicts (fun _ _ => trivial) (hOrdered.above hPos hEvicts) hResult
  rcases hEnd with ⟨hAbove, -, hBatches, -, -⟩
  constructor
  · exact hOrdered.indexed.put hPut hResult
  · intro hZero
    exact absurd hAbove.inner_pos (by omega)
  · intro id c hGet
    rw [hBatches, Index.get_put] at hGet
    split at hGet
    · rw [← Option.some.inj hGet]
      apply hAbove.inner_le (b.changed value depth)
      rw [hEvicts.mem]
      exact Index.get_put_self _ _ _
    · next hNe =>
        have hId := hOrdered.indexed.ids id c hGet
        apply hAbove.inner_le c
        rw [hEvicts.mem, hId]
        exact (Index.get_put_of_ne _ hNe _).trans hGet
  · exact hAbove.limits

end Sana.Postage
