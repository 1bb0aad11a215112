import Mathlib

/-
  Lists that are sorted into buckets.

  Each element of a list belongs to a numbered bucket, and the list has the elements of lower
  buckets first.  Then the number of elements in lower buckets is the place where a bucket begins,
  and the buckets are read off by cutting the list at these places.

  Key definitions include:
    * `Sorted`
    * `bucketStart`

  Key theorems include:
    * `bucket_eq_filter`
-/

---- Buckets

namespace Program

variable {α : Type} {number : α → Nat} {elements : List α}

/- Elements of lower buckets come first. -/
def Sorted (number : α → Nat) (elements : List α) : Prop :=
  elements.Pairwise fun x y => number x ≤ number y

/- Where a bucket begins. -/
def bucketStart (number : α → Nat) (elements : List α) (i : Nat) : Nat :=
  elements.countP fun x => decide (number x < i)

/- The elements between the starts of two buckets. -/
def bucket (number : α → Nat) (elements : List α) (i : Nat) : List α :=
  (elements.take (bucketStart number elements (i + 1))).drop (bucketStart number elements i)

theorem bucketStart_zero : bucketStart number elements 0 = 0 := by
  simp [bucketStart]

/- No element is in a bucket from the bound on. -/
theorem bucketStart_bound (hBound : ∀ x ∈ elements, number x < bound) :
    bucketStart number elements bound = elements.length := by
  rw [bucketStart, List.countP_eq_length]
  intro x hMem
  exact decide_eq_true (hBound x hMem)

/- Nothing comes before the bucket of the first element. -/
theorem bucketStart_eq_zero (hSorted : Sorted number (x :: elements))
    (hLe : i ≤ number x) : bucketStart number (x :: elements) i = 0 := by
  rw [bucketStart, List.countP_eq_zero]
  intro y hMem
  rw [decide_eq_true_iff, not_lt]
  rcases List.mem_cons.mp hMem with rfl | hMem
  · exact hLe
  · exact hLe.trans (List.rel_of_pairwise_cons hSorted hMem)

theorem bucketStart_cons_of_lt (hLt : number x < i) :
    bucketStart number (x :: elements) i = bucketStart number elements i + 1 :=
  List.countP_cons_of_pos (decide_eq_true hLt)

theorem take_bucketStart (hSorted : Sorted number elements) :
    elements.take (bucketStart number elements i) =
      elements.filter fun x => decide (number x < i) := by
  induction elements with
  | nil => rfl
  | cons x elements ih =>
    by_cases hLt : number x < i
    · rw [bucketStart_cons_of_lt hLt, List.take_succ_cons,
        ih hSorted.of_cons, List.filter_cons_of_pos]
      exact decide_eq_true hLt
    · have hZero := bucketStart_eq_zero hSorted (not_lt.mp hLt)
      have hNone := hZero
      rw [bucketStart, List.countP_eq_zero] at hNone
      rw [hZero, List.take_zero, List.filter_eq_nil_iff.mpr hNone]

theorem drop_bucketStart (hSorted : Sorted number elements) :
    elements.drop (bucketStart number elements i) =
      elements.filter fun x => decide (i ≤ number x) := by
  induction elements with
  | nil => rfl
  | cons x elements ih =>
    by_cases hLt : number x < i
    · rw [bucketStart_cons_of_lt hLt, List.drop_succ_cons,
        ih hSorted.of_cons, List.filter_cons_of_neg]
      simpa using hLt
    · have hLe := not_lt.mp hLt
      rw [bucketStart_eq_zero hSorted hLe, List.drop_zero]
      symm
      rw [List.filter_eq_self]
      intro y hMem
      rw [decide_eq_true_iff]
      rcases List.mem_cons.mp hMem with rfl | hMem
      · exact hLe
      · exact hLe.trans (List.rel_of_pairwise_cons hSorted hMem)

/- A bucket has the elements with its number. -/
theorem bucket_eq_filter (hSorted : Sorted number elements) (i : Nat) :
    bucket number elements i = elements.filter fun x => decide (number x = i) := by
  have hFiltered : Sorted number (elements.filter fun x =>
          decide (number x < i + 1)) :=
    hSorted.filter _
  have hStart : bucketStart number elements i = bucketStart number (elements.filter fun x =>
            decide (number x < i + 1)) i := by
    rw [bucketStart, bucketStart, List.countP_filter]
    apply List.countP_congr
    simp only [Bool.and_eq_true, decide_eq_true_eq]
    omega
  rw [bucket, take_bucketStart hSorted, hStart, drop_bucketStart hFiltered, List.filter_filter]
  apply List.filter_congr
  intro x _
  rw [Bool.eq_iff_iff]
  simp only [Bool.and_eq_true, decide_eq_true_eq]
  omega

theorem bucketStart_le_succ :
    bucketStart number elements i ≤ bucketStart number elements (i + 1) := by
  apply List.countP_mono_left
  intro x _ hLt
  rw [decide_eq_true_iff] at hLt ⊢
  omega

/- The first buckets one after the other. -/
theorem flatMap_bucket_range :
    (List.range count).flatMap (bucket number elements) =
      elements.take (bucketStart number elements count) := by
  induction count with
  | zero => rw [bucketStart_zero]; rfl
  | succ count ih =>
    have hLe : bucketStart number elements count ≤ bucketStart number elements (count + 1) :=
      bucketStart_le_succ
    rw [List.range_succ, List.flatMap_append, ih, List.flatMap_singleton, bucket]
    conv_lhs =>
      rw [← Nat.min_eq_left hLe, ← List.take_take]
    rw [Nat.min_eq_left hLe, List.take_append_drop]

/- All buckets make up the list. -/
theorem flatMap_bucket (hBound : ∀ x ∈ elements, number x < bound) :
    (List.range bound).flatMap (bucket number elements) =
      elements := by
  rw [flatMap_bucket_range, bucketStart_bound hBound, List.take_length]

---- Changes

/- Put an element in at a place. -/
def insertAt (elements : List α) (place : Nat) (x : α) : List α :=
  elements.take place ++ x :: elements.drop place

theorem insertAt_perm (place : Nat) (x : α) : (insertAt elements place x).Perm (x :: elements) := by
  apply List.perm_middle.trans
  rw [List.take_append_drop]

/- An element put in where its bucket begins. -/
theorem Sorted.insertAt (hSorted : Sorted number elements) (x : α) :
    Sorted number (insertAt elements (bucketStart number elements (number x)) x) := by
  rw [Sorted, Program.insertAt, take_bucketStart hSorted,
    drop_bucketStart hSorted, List.pairwise_append, List.pairwise_cons]
  refine ⟨hSorted.filter _, ⟨?_, hSorted.filter _⟩, ?_⟩
  · intro y hMem
    exact of_decide_eq_true (List.mem_filter.mp hMem).2
  · intro y hY z hZ
    have hLt := of_decide_eq_true (List.mem_filter.mp hY).2
    rcases List.mem_cons.mp hZ with rfl | hZ
    · exact hLt.le
    · exact hLt.le.trans (of_decide_eq_true (List.mem_filter.mp hZ).2)

theorem bucketStart_cons :
    bucketStart number (x :: elements) i =
      bucketStart number elements i + if number x < i then 1 else 0 := by
  rw [bucketStart, List.countP_cons]
  simp only [decide_eq_true_eq]
  rfl

theorem bucketStart_insertAt (place : Nat) (x : α) (i : Nat) :
    bucketStart number (insertAt elements place x) i =
      bucketStart number elements i + if number x < i then 1 else 0 := by
  rw [← bucketStart_cons]
  exact (insertAt_perm place x).countP_eq _

theorem bucketStart_erase [BEq α] [LawfulBEq α] (hMem : x ∈ elements) (i : Nat) :
    bucketStart number elements i =
      bucketStart number (elements.erase x) i + if number x < i then 1 else 0 := by
  rw [← bucketStart_cons]
  exact (List.perm_cons_erase hMem).countP_eq _

end Program
