import Mathlib

/-
  Ordered key-value indexes.

  An index maps keys to values and lists its entries in key order.  Two indexes with the same
  lookups are equal, so "the same contents" is equality of indexes.

  Databases order their keys by bytes.  Numbers in a fixed width, with the most significant byte
  first, have the order of the numbers.

  A scan sends some entries of an iteration, stops, and starts again later on an index that has
  changed; `Scanned` is what every such scan keeps.

  Key definitions include:
    * `Index`
    * `Index.get`

  Key theorems include:
    * `Index.get_delete`
-/

---- Indexes

namespace KeyValue

/- The keys of 32 and of 20 bytes. -/
instance transOrdBitVec256 : Std.TransOrd (BitVec 256) :=
  inferInstance

instance transOrdBitVec160 : Std.TransOrd (BitVec 160) :=
  inferInstance

/- A finite map whose entries are listed in key order. -/
structure Index (K V : Type) [Ord K] where
  map : Std.ExtTreeMap K V

namespace Index

variable {K V : Type}

section

variable [Ord K] [Std.TransOrd K]

/- The index with no entries. -/
def empty : Index K V where
  map := ∅

/- The value stored under a key. -/
def get (index : Index K V) (key : K) : Option V :=
  index.map[key]?

/- Whether a key is stored. -/
def has (index : Index K V) (key : K) : Bool :=
  (index.get key).isSome

/- Store a value under a key, replacing an earlier one. -/
def put (index : Index K V) (key : K) (value : V) : Index K V where
  map := index.map.insert key value

/- Remove a key, which need not be stored. -/
def delete (index : Index K V) (key : K) : Index K V where
  map := index.map.erase key

/- The number of entries. -/
def count (index : Index K V) : Nat :=
  index.map.size

/- All entries in key order. -/
def entries (index : Index K V) : List (K × V) :=
  index.map.toList

end

---- Lookup Laws

section

variable [Ord K] [Std.TransOrd K] [Std.LawfulEqOrd K]

/- An index is determined by its lookups. -/
@[ext] theorem ext_get {left right : Index K V} (hGet : ∀ key, left.get key = right.get key) :
    left = right := by
  rcases left with ⟨left⟩
  congr 1
  exact Std.ExtTreeMap.ext_getElem? hGet

omit [Std.LawfulEqOrd K] in
@[simp] theorem get_empty (key : K) : (empty : Index K V).get key = none := by
  simp [get, empty]

section

variable (index : Index K V)

theorem get_put [DecidableEq K] (key other : K) (value : V) :
    (index.put key value).get other = if key = other then some value
      else index.get other := by
  simp [get, put, Std.ExtTreeMap.getElem?_insert]

theorem get_delete [DecidableEq K] (key other : K) :
    (index.delete key).get other = if key = other then none
      else index.get other := by
  simp [get, delete, Std.ExtTreeMap.getElem?_erase]

@[simp] theorem get_put_self (key : K) (value : V) :
    (index.put key value).get key = some value := by
  simp [get, put]

@[simp] theorem get_delete_self (key : K) : (index.delete key).get key = none := by
  simp [get, delete]

theorem get_put_of_ne (hNe : key ≠ other) (value : V) :
    (index.put key value).get other = index.get other := by
  classical
  rw [get_put, if_neg hNe]

theorem get_delete_of_ne (hNe : key ≠ other) : (index.delete key).get other = index.get other := by
  classical
  rw [get_delete, if_neg hNe]

end

omit [Std.LawfulEqOrd K] in
theorem has_eq_true_iff (index : Index K V) (key : K) :
    index.has key = true ↔ ∃ value, index.get key = some value := by
  simp [has, Option.isSome_iff_exists]

omit [Std.LawfulEqOrd K] in
theorem has_eq_false_iff (index : Index K V) (key : K) :
    index.has key = false ↔ index.get key = none := by
  simp [has]

/- Deleting a key that is not stored changes nothing. -/
theorem delete_of_get_eq_none (index : Index K V) (hNone : index.get key = none) :
    index.delete key = index := by
  classical
  ext other : 1
  rw [get_delete]
  split
  · next hEq => rw [← hEq, hNone]
  · rfl

end

---- Counting Laws

section

variable [Ord K] [Std.TransOrd K]

omit [Std.TransOrd K] in
@[simp] theorem count_empty : (empty : Index K V).count = 0 := by
  simp [count, empty]

/- `contains` of the underlying map in terms of lookups. -/
theorem contains_map (index : Index K V) : index.map.contains key = (index.get key).isSome :=
  Std.ExtTreeMap.contains_eq_isSome_getElem?

theorem count_put_of_get_eq_none (index : Index K V) (value : V)
    (hNone : index.get key = none) : (index.put key value).count = index.count + 1 := by
  simp [count, put, Std.ExtTreeMap.size_insert, contains_map, hNone]

/- Deleting a stored key removes exactly one entry. -/
theorem count_delete_of_get_eq_some (index : Index K V)
    (hSome : index.get key = some old) : (index.delete key).count + 1 = index.count := by
  have hErase : (index.map.erase key).size = index.map.size - 1 := by
    simp [Std.ExtTreeMap.size_erase, contains_map, hSome]
  have hPos : index.map.size ≠ 0 := by
    intro hZero
    rw [← Std.ExtTreeMap.eq_empty_iff_size_eq_zero] at hZero
    simp [get, hZero] at hSome
  simp only [count, delete]
  omega

---- Iteration Laws

theorem length_entries (index : Index K V) : index.entries.length = index.count :=
  Std.ExtTreeMap.length_toList

/- Iteration visits exactly the stored entries. -/
theorem mem_entries_iff [Std.LawfulEqOrd K] (index : Index K V) (key : K) (value : V) :
    (key, value) ∈ index.entries ↔ index.get key = some value :=
  Std.ExtTreeMap.mem_toList_iff_getElem?_eq_some

/- Iteration follows the order of the keys. -/
theorem ordered_entries (index : Index K V) :
    index.entries.Pairwise (fun left right => compare left.1 right.1 = .lt) :=
  Std.ExtTreeMap.ordered_keys_toList

/- Iteration visits every key once. -/
theorem nodup_keys_entries (index : Index K V) : (index.entries.map Prod.fst).Nodup := by
  have hDistinct : index.entries.Pairwise (fun left right =>
          ¬ compare left.1 right.1 = .eq) :=
    Std.ExtTreeMap.distinct_keys_toList
  rw [List.Nodup, List.pairwise_map]
  refine hDistinct.imp ?_
  intro left right hNe hEq
  apply hNe
  rw [hEq]
  exact Std.ReflCmp.compare_self

end

---- Indexes From Lists

section

variable [Ord K] [Std.TransOrd K] [Std.LawfulEqOrd K]

/- Store entries one after the other. -/
def putEntries (index : Index K V) (entries : List (K × V)) : Index K V :=
  entries.foldl (fun index entry => index.put entry.1 entry.2) index

/- A key that is not among the entries keeps its value. -/
theorem get_putEntries_of_notMem (index : Index K V) {entries : List (K × V)}
    (hKey : ∀ value, (key, value) ∉ entries) :
    (index.putEntries entries).get key = index.get key := by
  induction entries generalizing index with
  | nil => rfl
  | cons entry entries ih =>
    have hNe : entry.1 ≠ key := by
      intro hSame
      subst hSame
      exact hKey entry.2 (List.mem_cons_self ..)
    have hRest := ih (index.put entry.1 entry.2) (fun value hMem =>
        hKey value (List.mem_cons_of_mem _ hMem))
    exact hRest.trans (get_put_of_ne index hNe entry.2)

/- An entry whose key occurs once is stored. -/
theorem get_putEntries_of_mem (index : Index K V) {entries : List (K × V)}
    (hNodup : (entries.map Prod.fst).Nodup) (hMem : (key, value) ∈ entries) :
    (index.putEntries entries).get key = some value := by
  induction entries generalizing index with
  | nil => cases hMem
  | cons entry entries ih =>
    rw [List.map_cons, List.nodup_cons] at hNodup
    rcases List.mem_cons.mp hMem with hHead | hTail
    · subst hHead
      have hRest :
          ((index.put key value).putEntries entries).get key = (index.put key value).get key := by
        apply get_putEntries_of_notMem
        intro other hOther
        exact hNodup.1 (List.mem_map.mpr ⟨_, hOther, rfl⟩)
      exact hRest.trans (get_put_self index key value)
    · exact ih (index.put entry.1 entry.2) hNodup.2 hTail

end

---- Optional Writes

variable [Ord K] [Std.TransOrd K]

/- Store a value, or delete the key when there is none. -/
def set (index : Index K V) (key : K) (value : Option V) : Index K V :=
  match value with
  | some value => index.put key value
  | none => index.delete key

theorem get_set [Std.LawfulEqOrd K] [DecidableEq K] (index : Index K V) (key other : K)
    (value : Option V) :
    (index.set key value).get other = if key = other then value else index.get other := by
  cases value with
  | none => exact get_delete index key other
  | some value => exact get_put index key other value

/- Two writes commute unless they disagree on one key. -/
theorem set_comm [Std.LawfulEqOrd K] [DecidableEq K] (index : Index K V) {key other : K}
    {value value' : Option V} (hAgree : key = other → value = value') :
    (index.set key value).set other value' = (index.set other value').set key value := by
  ext third : 1
  simp only [get_set]
  by_cases hKey : key = third
  · by_cases hOther : other = third
    · simp only [if_pos hKey, if_pos hOther]
      exact (hAgree (hKey.trans hOther.symm)).symm
    · simp only [if_pos hKey, if_neg hOther]
  · simp only [if_neg hKey]

end Index

---- Composite Keys

variable {K A B : Type}
variable [Ord A] [Ord B]

/- Keys made of two components are ordered by the first one and then by the second one. -/
abbrev compareKeys (first : K → A) (second : K → B) : K → K → Ordering :=
  compareLex (compareOn first) (compareOn second)

/- Equal composite keys have equal components. -/
theorem eq_of_compareKeys [Std.LawfulEqOrd A] [Std.LawfulEqOrd B] {first : K → A} {second : K → B}
    {left right : K} (hEq : compareKeys first second left right = .eq) :
    first left = first right ∧ second left = second right := by
  simpa [compareOn] using hEq

end KeyValue

---- Entries After One Write

namespace KeyValue

namespace Index

variable {K V : Type}

section

variable [Ord K] [Std.TransOrd K] [Std.LawfulEqOrd K]

omit [Std.LawfulEqOrd K] in
theorem nodup_entries (index : Index K V) : index.entries.Nodup :=
  List.Nodup.of_map Prod.fst index.nodup_keys_entries

/- A new key adds one entry. -/
theorem perm_entries_put (index : Index K V) (hNone : index.get key = none) :
    (index.put key value).entries.Perm ((key, value) :: index.entries) := by
  classical
  have hNot : (key, value) ∉ index.entries := by
    rw [mem_entries_iff, hNone]
    exact nofun
  rw [List.perm_ext_iff_of_nodup (nodup_entries _) (List.nodup_cons.mpr ⟨hNot, nodup_entries _⟩)]
  rintro ⟨other, value'⟩
  rw [mem_entries_iff, get_put, List.mem_cons, mem_entries_iff]
  by_cases hEq : key = other
  · subst hEq
    simp [hNone, eq_comm]
  · simp [hEq, Ne.symm hEq]

/- Deleting a stored key removes its entry. -/
theorem perm_entries_delete (index : Index K V) (hSome : index.get key = some old) :
    ((key, old) :: (index.delete key).entries).Perm index.entries := by
  classical
  have hNot : (key, old) ∉ (index.delete key).entries := by
    rw [mem_entries_iff, get_delete_self]
    exact nofun
  rw [List.perm_ext_iff_of_nodup (List.nodup_cons.mpr ⟨hNot, nodup_entries _⟩) (nodup_entries _)]
  rintro ⟨other, value'⟩
  rw [mem_entries_iff, List.mem_cons, mem_entries_iff, get_delete]
  by_cases hEq : key = other
  · subst hEq
    simp [hSome, eq_comm]
  · simp [hEq, Ne.symm hEq]

/- Deleting a key before it is written changes nothing. -/
theorem put_delete (index : Index K V) :
    (index.delete key).put key value = index.put key value := by
  classical
  ext other : 1
  rw [get_put, get_put, get_delete]
  split
  · rfl
  · rfl

end

---- Sums

variable {M : Type}
variable [Ord K] [Std.TransOrd K] [AddCommMonoid M]

/- The sum of a function over all entries. -/
def total (index : Index K V) (f : V → M) : M :=
  (index.entries.map fun entry => f entry.2).sum

variable [Std.LawfulEqOrd K]

/- Only the values of stored keys count. -/
theorem total_congr (index : Index K V) {f g : V → M}
    (hSame : ∀ key value, index.get key = some value → f value = g value) :
    index.total f = index.total g := by
  unfold total
  congr 1
  refine List.map_congr_left ?_
  rintro ⟨key, value⟩ hMem
  exact hSame key value ((mem_entries_iff _ _ _).mp hMem)

section

variable (index : Index K V) (f : V → M)

theorem total_put_of_get_eq_none (value : V) (hNone : index.get key = none) :
    (index.put key value).total f = f value + index.total f := by
  unfold total
  rw [((index.perm_entries_put hNone).map _).sum_eq, List.map_cons, List.sum_cons]

theorem total_delete_of_get_eq_some (hSome : index.get key = some old) :
    f old + (index.delete key).total f = index.total f := by
  unfold total
  rw [← ((index.perm_entries_delete hSome).map (fun entry => f entry.2)).sum_eq,
    List.map_cons, List.sum_cons]

/- A new value replaces the old one. -/
theorem total_put_of_get_eq_some (value : V) (hSome : index.get key = some old) :
    f old + (index.put key value).total f = f value + index.total f := by
  rw [← put_delete, total_put_of_get_eq_none _ _ _ (get_delete_self index key),
    ← index.total_delete_of_get_eq_some f hSome]
  exact add_left_comm _ _ _

end

end Index

end KeyValue

---- Big Endian Bytes

namespace KeyValue

/- The bytes of a number in a width, most significant first. -/
def bigEndian : Nat → Nat → List UInt8
| 0, _ => []
| width + 1, n => UInt8.ofNat (n / 256 ^ width) :: bigEndian width (n % 256 ^ width)

def fromBigEndian : List UInt8 → Nat
| [] => 0
| byte :: bytes => byte.toNat * 256 ^ bytes.length + fromBigEndian bytes

@[simp] theorem length_bigEndian (width n : Nat) : (bigEndian width n).length = width := by
  induction width generalizing n with
  | zero => rfl
  | succ width ih => rw [bigEndian, List.length_cons, ih]

/- The first byte of a number that fits. -/
theorem toNat_ofNat_div (hLt : n < 256 ^ (width + 1)) :
    (UInt8.ofNat (n / 256 ^ width)).toNat = n / 256 ^ width := by
  have hByte : n / 256 ^ width < 256 := by
    apply Nat.div_lt_of_lt_mul
    exact hLt
  rw [UInt8.toNat_ofNat', Nat.mod_eq_of_lt hByte]

theorem fromBigEndian_bigEndian (hLt : n < 256 ^ width) :
    fromBigEndian (bigEndian width n) = n := by
  induction width generalizing n with
  | zero => exact (Nat.lt_one_iff.mp hLt).symm
  | succ width ih =>
    have hRest := Nat.mod_lt n (Nat.pow_pos (n := width) (show 0 < 256 by omega))
    rw [bigEndian, fromBigEndian, toNat_ofNat_div hLt, length_bigEndian, ih hRest, mul_comm]
    exact Nat.div_add_mod n (256 ^ width)

theorem fromBigEndian_append (front back : List UInt8) :
    fromBigEndian (front ++ back) =
      fromBigEndian front * 256 ^ back.length + fromBigEndian back := by
  induction front with
  | nil => simp [fromBigEndian]
  | cons byte front ih =>
    rw [List.cons_append, fromBigEndian, fromBigEndian, ih, List.length_append]
    ring

theorem fromBigEndian_lt (bytes : List UInt8) : fromBigEndian bytes < 256 ^ bytes.length := by
  induction bytes with
  | nil => exact Nat.one_pos
  | cons byte bytes ih =>
    have hByte : byte.toNat + 1 ≤ 256 := byte.toNat_lt
    calc
      fromBigEndian (byte :: bytes) < byte.toNat * 256 ^ bytes.length + 256 ^ bytes.length :=
          Nat.add_lt_add_left ih _
      _ = (byte.toNat + 1) * 256 ^ bytes.length := by ring
      _ ≤ 256 * 256 ^ bytes.length :=
          Nat.mul_le_mul_right _ hByte
      _ = 256 ^ (byte :: bytes).length := by rw [List.length_cons, pow_succ, mul_comm]

/- A smaller first byte makes a smaller number. -/
theorem fromBigEndian_cons_lt (hLength : bytes.length = bytes'.length) (hLt : byte < byte') :
    fromBigEndian (byte :: bytes) < fromBigEndian (byte' :: bytes') := by
  have hRest := fromBigEndian_lt bytes
  have hByte : byte.toNat + 1 ≤ byte'.toNat := hLt
  rw [hLength] at hRest
  rw [fromBigEndian, hLength]
  calc
    byte.toNat * 256 ^ bytes'.length + fromBigEndian bytes
      < (byte.toNat + 1) * 256 ^ bytes'.length := by
        rw [Nat.add_mul, Nat.one_mul]
        exact Nat.add_lt_add_left hRest _
    _ ≤ byte'.toNat * 256 ^ bytes'.length :=
        Nat.mul_le_mul_right _ hByte
    _ ≤ _ := Nat.le_add_right _ _

/- The bytes of a number without leading zeros. -/
def natBytes (n : Nat) : List UInt8 :=
  bigEndian (Nat.digits 256 n).length n

theorem fromBigEndian_natBytes (n : Nat) : fromBigEndian (natBytes n) = n :=
  fromBigEndian_bigEndian (Nat.lt_base_pow_length_digits (by decide))

/- Only zero has no bytes. -/
theorem natBytes_eq_nil_iff (n : Nat) : natBytes n = [] ↔ n = 0 := by
  rw [← List.length_eq_zero_iff, natBytes, length_bigEndian,
    List.length_eq_zero_iff, Nat.digits_eq_nil_iff_eq_zero]

---- Order

section

/- Quotients are compared before remainders. -/
theorem compare_eq_div_mod (m n p : Nat) : compare m n = (compare (m / p) (n / p)).then
        (compare (m % p) (n % p)) := by
  have hM := Nat.div_add_mod m p
  have hN := Nat.div_add_mod n p
  rcases Nat.lt_trichotomy (m / p) (n / p) with hLt | hEq | hGt
  · rw [Nat.compare_eq_lt.mpr hLt, Nat.compare_eq_lt.mpr (Nat.lt_of_div_lt_div hLt)]
    rfl
  · rw [hEq] at hM
    rw [Nat.compare_eq_eq.mpr hEq, Ordering.eq_then]
    rcases Nat.lt_trichotomy (m % p) (n % p) with hLt | hSame | hGt
    · rw [Nat.compare_eq_lt.mpr hLt, Nat.compare_eq_lt]
      omega
    · rw [Nat.compare_eq_eq.mpr hSame, Nat.compare_eq_eq]
      omega
    · rw [Nat.compare_eq_gt.mpr hGt, Nat.compare_eq_gt]
      omega
  · rw [Nat.compare_eq_gt.mpr hGt, Nat.compare_eq_gt.mpr (Nat.lt_of_div_lt_div hGt)]
    rfl

/- The order of bytes is the order of numbers. -/
theorem compare_bigEndian (hLt : m < 256 ^ width) (hLt' : n < 256 ^ width) :
    compare (bigEndian width m) (bigEndian width n) = compare m n := by
  induction width generalizing m n with
  | zero =>
    rw [pow_zero, Nat.lt_one_iff] at hLt hLt'
    rw [hLt, hLt']
    rfl
  | succ width ih =>
    have hPos : 0 < 256 ^ width := Nat.pow_pos (by omega)
    rw [bigEndian, bigEndian, List.compare_cons_cons, UInt8.compare_eq_toNat_compare_toNat,
      toNat_ofNat_div hLt, toNat_ofNat_div hLt', ih (Nat.mod_lt _ hPos) (Nat.mod_lt _ hPos)]
    exact (compare_eq_div_mod m n _).symm

variable {α : Type} [Ord α]

end

---- Hexadecimal Text

/- The digit of a number below 16. -/
def hexDigit (n : Nat) : Char :=
  if n < 10 then Char.ofNat ('0'.toNat + n)
  else Char.ofNat ('a'.toNat + (n - 10))

/- Two digits for each byte. -/
def encodeToString : List UInt8 → List Char
| [] => []
| byte :: bytes => hexDigit (byte.toNat / 16) :: hexDigit (byte.toNat % 16) :: encodeToString bytes

def fromHexChar (c : Char) : Option Nat :=
  if '0' ≤ c ∧ c ≤ '9' then some (c.toNat - '0'.toNat)
  else if 'a' ≤ c ∧ c ≤ 'f' then some (c.toNat - 'a'.toNat + 10)
  else if 'A' ≤ c ∧ c ≤ 'F' then some (c.toNat - 'A'.toNat + 10)
  else none

/- There is no text for other characters or an odd length. -/
def decodeString : List Char → Option (List UInt8)
| [] => some []
| [_] => none
| high :: low :: text => do
    let a ← fromHexChar high
    let b ← fromHexChar low
    let bytes ← decodeString text
    some (UInt8.ofNat (a * 16 + b) :: bytes)

theorem fromHexChar_hexDigit : ∀ n < 16, fromHexChar (hexDigit n) = some n := by
  decide

theorem decodeString_encodeToString (bytes : List UInt8) :
    decodeString (encodeToString bytes) = some bytes := by
  induction bytes with
  | nil => rfl
  | cons byte bytes ih =>
    have hByte := byte.toNat_lt
    have hSum : byte.toNat / 16 * 16 + byte.toNat % 16 = byte.toNat := by omega
    unfold encodeToString decodeString
    rw [fromHexChar_hexDigit _ (by omega), fromHexChar_hexDigit _ (by omega), ih]
    dsimp only [Option.bind_eq_bind, Option.bind_some]
    rw [hSum, UInt8.ofNat_toNat]

end KeyValue

---- Branches

namespace KeyValue

namespace Index

section

variable {α V : Type}
variable [Ord α] [Std.TransOrd α] [DecidableEq α]

/- The entries whose keys start with `base`, in key order. -/
def branch (index : Index (List α) V) (base : List α) : List (List α × V) :=
  index.entries.filter fun entry => base <+: entry.1

theorem nodup_keys_branch (index : Index (List α) V) :
    ((index.branch base).map Prod.fst).Nodup := by
  refine List.Nodup.sublist ?_ index.nodup_keys_entries
  exact List.filter_sublist.map Prod.fst

variable [Std.LawfulEqOrd α]

theorem mem_branch_iff (index : Index (List α) V) (base key : List α) (value : V) :
    (key, value) ∈ index.branch base ↔ index.get key = some value ∧ base <+: key := by
  unfold branch
  rw [List.mem_filter, mem_entries_iff, decide_eq_true_eq]

theorem mem_keys_branch_iff (index : Index (List α) V) :
    key ∈ (index.branch base).map Prod.fst ↔ index.has key = true ∧ base <+: key := by
  rw [List.mem_map, has_eq_true_iff]
  constructor
  · rintro ⟨⟨_, value⟩, hMem, rfl⟩
    rcases (mem_branch_iff index base _ value).mp hMem with ⟨hGet, hBase⟩
    exact ⟨⟨value, hGet⟩, hBase⟩
  · rintro ⟨⟨value, hGet⟩, hBase⟩
    exact ⟨(key, value), (mem_branch_iff index base key value).mpr ⟨hGet, hBase⟩, rfl⟩

/- The keys of a branch, when they are numbered. -/
theorem length_branch {index : Index (List α) V} (hName : Function.Injective name)
    (hKeys : ∀ key, index.has key = true ∧ base <+: key ↔ ∃ i < n, name i = key) :
    (index.branch base).length = n := by
  have hNames : ((List.range n).map name).Nodup := List.nodup_range.map hName
  have hPerm : ((index.branch base).map Prod.fst).Perm ((List.range n).map name) := by
    rw [List.perm_ext_iff_of_nodup (nodup_keys_branch index) hNames]
    intro key
    rw [mem_keys_branch_iff, hKeys, List.mem_map]
    simp only [List.mem_range]
  have hLength := hPerm.length_eq
  rw [List.length_map, List.length_map, List.length_range] at hLength
  exact hLength

/- When a branch has the names of all numbers below its length, it has no other keys. -/
theorem exists_name_of_mem_branch {index : Index (List α) V} (hName : Function.Injective name)
    (hBase : ∀ i, base <+: name i)
    (hAll : ∀ i < (index.branch base).length, index.has (name i) = true)
    (hHas : index.has key = true) (hKey : base <+: key) :
    ∃ i < (index.branch base).length, name i = key := by
  have hNames : ((List.range (index.branch base).length).map name).Nodup :=
    List.nodup_range.map hName
  have hSubset :
      (List.range (index.branch base).length).map name ⊆ (index.branch base).map Prod.fst := by
    intro other hMem
    rcases List.mem_map.mp hMem with ⟨i, hI, rfl⟩
    exact (mem_keys_branch_iff index).mpr ⟨hAll i (List.mem_range.mp hI), hBase i⟩
  -- the two lists are equally long, so they have the same keys
  have hPerm := (hNames.subperm hSubset).perm_of_length_le (by
      rw [List.length_map, List.length_map, List.length_range])
  have hMem := hPerm.mem_iff.mpr ((mem_keys_branch_iff index).mpr ⟨hHas, hKey⟩)
  rcases List.mem_map.mp hMem with ⟨i, hI, hEq⟩
  exact ⟨i, List.mem_range.mp hI, hEq⟩

end

---- Numbered Lists

variable {K V : Type}
variable [Ord K] [Std.TransOrd K]

/- Store values under the names of `start`, `start + 1`, ... -/
def putAll (index : Index K V) (name : Nat → K) (start : Nat) : List V → Index K V
  | [] => index
  | value :: values => (index.put (name start) value).putAll name (start + 1) values

variable [Std.LawfulEqOrd K]
variable {name : Nat → K}

theorem get_putAll_of_ne (index : Index K V) (start : Nat) (values : List V)
    (hNe : ∀ i < values.length, name (start + i) ≠ key) :
    (index.putAll name start values).get key = index.get key := by
  induction values generalizing index start with
  | nil => rfl
  | cons value values ih =>
    unfold putAll
    rw [ih]
    · exact get_put_of_ne index (hNe 0 (Nat.succ_pos _)) value
    · intro i hI
      rw [Nat.add_assoc, Nat.add_comm 1 i]
      exact hNe (i + 1) (Nat.succ_lt_succ hI)

theorem get_putAll_name (hName : Function.Injective name) (index : Index K V) (start : Nat)
    (values : List V) (hLt : i < values.length) :
    (index.putAll name start values).get (name (start + i)) = values[i]? := by
  induction values generalizing index start i with
  | nil => cases hLt
  | cons value values ih =>
    unfold putAll
    cases i with
    | zero =>
      rw [get_putAll_of_ne]
      · exact get_put_self index (name start) value
      · intro j _ hEq
        have := hName hEq
        omega
    | succ i =>
      rw [Nat.add_comm i 1, ← Nat.add_assoc, ih _ _ (Nat.lt_of_succ_lt_succ hLt),
        Nat.add_comm 1 i, List.getElem?_cons_succ]

end Index

---- Queues

/- Values with the names of `n`, `n + 1`, ... -/
def numbered {K V : Type} (name : Nat → K) : Nat → List V → List (K × V)
  | _, [] => []
  | n, value :: values => (name n, value) :: numbered name (n + 1) values

section

variable {K V : Type} {name : Nat → K}

theorem numbered_append (n : Nat) (values others : List V) :
    numbered name n (values ++ others) =
      numbered name n values ++ numbered name (n + values.length) others := by
  induction values generalizing n with
  | nil => rfl
  | cons value values ih =>
    rw [List.cons_append, numbered, numbered, ih, List.cons_append, List.length_cons, Nat.add_assoc,
      Nat.add_comm 1]

theorem map_snd_numbered (n : Nat) (values : List V) :
    (numbered name n values).map Prod.snd = values := by
  induction values generalizing n with
  | nil => rfl
  | cons value values ih => rw [numbered, List.map_cons, ih]

theorem exists_of_mem_numbered (hMem : entry ∈ numbered name n values) :
    ∃ i, n ≤ i ∧ i < n + values.length ∧ entry.1 = name i := by
  induction values generalizing n with
  | nil => exact (List.not_mem_nil hMem).elim
  | cons value values ih =>
    rw [List.length_cons]
    rcases List.mem_cons.mp hMem with rfl | hMem
    · exact ⟨n, le_rfl, by omega, rfl⟩
    · rcases ih hMem with ⟨i, hLe, hLt, hEq⟩
      exact ⟨i, by omega, by omega, hEq⟩

end

namespace Index

variable {α V : Type}
variable [Ord α] [Std.TransOrd α] [DecidableEq α]

theorem ordered_branch (index : Index (List α) V) (base : List α) :
    (index.branch base).Pairwise (fun left right => compare left.1 right.1 = .lt) :=
  index.ordered_entries.sublist List.filter_sublist

omit [DecidableEq α] in
theorem not_compare_self_lt (key : List α) : ¬ compare key key = .lt := by
  intro hLt
  have hSelf : compare key key = .eq := Std.ReflCmp.compare_self
  rw [hSelf] at hLt
  cases hLt

omit [DecidableEq α] in
/- An ordered list of entries is determined by its members. -/
theorem eq_of_ordered {left right : List (List α × V)}
    (hLeft : left.Pairwise fun e e' => compare e.1 e'.1 = .lt)
    (hRight : right.Pairwise fun e e' => compare e.1 e'.1 = .lt)
    (hMem : ∀ entry, entry ∈ left ↔ entry ∈ right) : left = right := by
  have hNodup :
      ∀ l : List (List α × V), (l.Pairwise fun e e' => compare e.1 e'.1 = .lt) → l.Nodup := by
    intro l hOrdered
    refine hOrdered.imp ?_
    rintro e _ hLt rfl
    exact not_compare_self_lt e.1 hLt
  refine List.Perm.eq_of_pairwise ?_ hLeft hRight
    ((List.perm_ext_iff_of_nodup (hNodup left hLeft) (hNodup right hRight)).mpr hMem)
  intro e e' _ _ hLt hGt
  exact absurd (Std.TransCmp.lt_trans hLt hGt) (not_compare_self_lt e.1)

variable [Std.LawfulEqOrd α]

section

variable (index : Index (List α) V)

theorem mem_branch_put_iff (value : V) (hBase : base <+: key)
    (hNew : ∀ entry ∈ index.branch base, entry.1 ≠ key) (entry : List α × V) :
    entry ∈ (index.put key value).branch base ↔
      entry = (key, value) ∨ entry ∈ index.branch base := by
  rcases entry with ⟨other, value'⟩
  rw [mem_branch_iff, mem_branch_iff, get_put, Prod.mk.injEq]
  by_cases hEq : key = other
  · subst hEq
    rw [if_pos rfl, Option.some.injEq]
    constructor
    · exact fun hBoth => Or.inl ⟨rfl, hBoth.1.symm⟩
    · rintro (⟨-, rfl⟩ | hOld)
      · exact ⟨rfl, hBase⟩
      · exact absurd rfl (hNew _ ((mem_branch_iff _ _ _ _).mpr hOld))
  · rw [if_neg hEq]
    constructor
    · exact Or.inr
    · rintro (⟨hSame, -⟩ | hOld)
      · exact absurd hSame.symm hEq
      · exact hOld

/- A key above all others is the last one. -/
theorem branch_put_last (value : V) (hBase : base <+: key)
    (hLast : ∀ entry ∈ index.branch base, compare entry.1 key = .lt) :
    (index.put key value).branch base = index.branch base ++ [(key, value)] := by
  apply eq_of_ordered (ordered_branch _ _)
  · refine List.pairwise_append.mpr ⟨ordered_branch _ _, List.pairwise_singleton _ _, ?_⟩
    intro entry hMem last hEq
    rw [List.mem_singleton.mp hEq]
    exact hLast entry hMem
  · intro entry
    rw [mem_branch_put_iff index value hBase, List.mem_append, List.mem_singleton, or_comm]
    intro other hMem hEq
    have hLt := hLast other hMem
    rw [hEq] at hLt
    exact not_compare_self_lt key hLt

/- A key below all others is the first one. -/
theorem branch_put_first (value : V) (hBase : base <+: key)
    (hFirst : ∀ entry ∈ index.branch base, compare key entry.1 = .lt) :
    (index.put key value).branch base = (key, value) :: index.branch base := by
  apply eq_of_ordered (ordered_branch _ _)
  · exact List.pairwise_cons.mpr ⟨hFirst, ordered_branch _ _⟩
  · intro entry
    rw [mem_branch_put_iff index value hBase, List.mem_cons]
    intro other hMem hEq
    have hLt := hFirst other hMem
    rw [hEq] at hLt
    exact not_compare_self_lt key hLt

theorem branch_delete_first (hBranch : index.branch base = (key, value) :: rest) :
    (index.delete key).branch base = rest := by
  have hOrdered := ordered_branch index base
  rw [hBranch, List.pairwise_cons] at hOrdered
  apply eq_of_ordered (ordered_branch _ _) hOrdered.2
  rintro ⟨other, value'⟩
  have hMem := mem_branch_iff index base other value'
  rw [hBranch, List.mem_cons, Prod.mk.injEq] at hMem
  rw [mem_branch_iff, get_delete]
  by_cases hEq : key = other
  · subst hEq
    rw [if_pos rfl]
    refine ⟨fun hBoth => (nomatch hBoth.1), fun hRest => ?_⟩
    exact absurd (hOrdered.1 _ hRest) (not_compare_self_lt key)
  · rw [if_neg hEq, ← hMem]
    constructor
    · exact fun hOr => hOr.resolve_left fun hBoth => hEq hBoth.1.symm
    · exact Or.inr

end

end Index

---- Ordered Lists

section

variable {α : Type} {R : α → α → Prop} {p : α → Bool}
variable {l : List α}

/-
  In an ordered list, dropping while a condition holds that is closed downwards drops all that meet
  it.
-/
theorem mem_dropWhile_iff (hOrdered : l.Pairwise R)
    (hDown : ∀ x y, R x y → p y = true → p x = true) : x ∈ l.dropWhile p ↔ x ∈ l ∧ p x = false := by
  induction l with
  | nil => simp
  | cons first rest ih =>
    rw [List.pairwise_cons] at hOrdered
    by_cases hFirst : p first = true
    · rw [List.dropWhile_cons_of_pos hFirst, ih hOrdered.2, List.mem_cons]
      constructor
      · rintro ⟨hMem, hNot⟩
        exact ⟨Or.inr hMem, hNot⟩
      · rintro ⟨rfl | hMem, hNot⟩
        · rw [hFirst] at hNot
          cases hNot
        · exact ⟨hMem, hNot⟩
    · rw [List.dropWhile_cons_of_neg hFirst]
      refine ⟨fun hMem => ⟨hMem, ?_⟩, And.left⟩
      rw [← Bool.not_eq_true]
      rcases List.mem_cons.mp hMem with rfl | hRest
      · exact hFirst
      · exact fun hTrue => hFirst (hDown first x (hOrdered.1 x hRest) hTrue)

/- Taking while it holds takes all that meet it. -/
theorem mem_takeWhile_iff (hOrdered : l.Pairwise R)
    (hDown : ∀ x ∈ l, ∀ y ∈ l, R x y → p y = true → p x = true) (x : α) :
    x ∈ l.takeWhile p ↔ x ∈ l ∧ p x = true := by
  induction l with
  | nil => simp
  | cons first rest ih =>
    rw [List.pairwise_cons] at hOrdered
    have hRest := ih hOrdered.2 fun x hX y hY =>
      hDown x (List.mem_cons_of_mem _ hX) y (List.mem_cons_of_mem _ hY)
    by_cases hFirst : p first = true
    · rw [List.takeWhile_cons_of_pos hFirst, List.mem_cons, List.mem_cons, hRest]
      constructor
      · rintro (rfl | ⟨hMem, hTrue⟩)
        · exact ⟨Or.inl rfl, hFirst⟩
        · exact ⟨Or.inr hMem, hTrue⟩
      · rintro ⟨rfl | hMem, hTrue⟩
        · exact Or.inl rfl
        · exact Or.inr ⟨hMem, hTrue⟩
    · rw [List.takeWhile_cons_of_neg hFirst]
      refine ⟨fun hMem => (List.not_mem_nil hMem).elim, ?_⟩
      rintro ⟨hMem, hTrue⟩
      rcases List.mem_cons.mp hMem with rfl | hMem
      · exact (hFirst hTrue).elim
      · exact (hFirst
          (hDown first (List.mem_cons_self ..) x (List.mem_cons_of_mem _ hMem)
            (hOrdered.1 x hMem) hTrue)).elim

/-
  A condition that holds on an interval is met by the entries from the first one that meets it to
  the next that does not.
-/
theorem mem_takeWhile_dropWhile_iff (hOrdered : l.Pairwise R)
    (hConvex : ∀ x y z, R x y → R y z → p x = true → p z = true → p y = true) :
    x ∈ (l.dropWhile (fun y => !p y)).takeWhile p ↔ x ∈ l ∧ p x = true := by
  induction l with
  | nil => simp
  | cons first rest ih =>
    have hPair := List.pairwise_cons.mp hOrdered
    by_cases hFirst : p first = true
    · rw [List.dropWhile_cons_of_neg (by simp [hFirst])]
      apply mem_takeWhile_iff hOrdered
      intro y hY z _ hLt hTrue
      rcases List.mem_cons.mp hY with rfl | hY
      · exact hFirst
      · exact hConvex first y z (hPair.1 y hY) hLt hFirst hTrue
    · rw [List.dropWhile_cons_of_pos (by simp [hFirst]), ih hPair.2, List.mem_cons]
      constructor
      · rintro ⟨hMem, hTrue⟩
        exact ⟨Or.inr hMem, hTrue⟩
      · rintro ⟨rfl | hMem, hTrue⟩
        · exact (hFirst hTrue).elim
        · exact ⟨hMem, hTrue⟩

end

---- Iterations

namespace Index

variable {K V : Type}
variable [Ord K] [Std.TransOrd K]

/- Move past the first entry if it has the start key. -/
def skipStart (key : K) : List (K × V) → List (K × V)
| [] => []
| entry :: entries =>
  if compare entry.1 key = .eq then entries
  else entry :: entries

/-
  Where an iteration starts: at the first key that is not below the start key, which is skipped if
  asked for, or at the first key with the required property when there is no start key.
-/
def seek (index : Index K V) (start : Option K) (skip : Bool) (inside : K → Bool) : List (K × V) :=
  match start with
  | none => index.entries.dropWhile fun (k, _) => !inside k
  | some key =>
    let above := index.entries.dropWhile fun (k, _) => compare k key == .lt
    if skip then skipStart key above else above

/- The entries that an iteration visits, up to the first key without the property. -/
def iterate (index : Index K V) (start : Option K) (skip : Bool)
    (inside : K → Bool) : List (K × V) :=
  (index.seek start skip inside).takeWhile fun (k, _) => inside k

/- The keys at which an iteration looks. -/
def FromStart (start : Option K) (skip : Bool) (key : K) : Prop :=
  ∀ first, start = some first → compare first key = .lt ∨ skip = false ∧ first = key

variable {index : Index K V} {inside : K → Bool}
variable {start : Option K} {skip : Bool}

omit [Std.TransOrd K] in
theorem skipStart_sublist (key : K) (entries : List (K × V)) :
    (skipStart key entries).Sublist entries := by
  cases entries with
  | nil => exact List.Sublist.refl []
  | cons entry entries =>
    simp only [skipStart]
    split
    · exact List.sublist_cons_self entry entries
    · exact List.Sublist.refl _

theorem seek_sublist : (index.seek start skip inside).Sublist index.entries := by
  unfold seek
  split
  · exact List.dropWhile_sublist _
  · next key =>
      split
      · exact (skipStart_sublist key _).trans (List.dropWhile_sublist _)
      · exact List.dropWhile_sublist _

/- An iteration follows the order of the keys. -/
theorem ordered_iterate :
    (index.iterate start skip inside).Pairwise (fun left right => compare left.1 right.1 = .lt) :=
  index.ordered_entries.sublist ((List.takeWhile_sublist _).trans seek_sublist)

variable [Std.LawfulEqOrd K]

/- Of two keys, the first is not above the other. -/
theorem not_lt_iff (key other : K) :
    compare other key ≠ .lt ↔ compare key other = .lt ∨ key = other := by
  have hSwap : compare other key = (compare key other).swap := Std.OrientedOrd.eq_swap
  have hEq : compare key other = .eq ↔ key = other := Std.LawfulEqOrd.compare_eq_iff_eq
  rw [hSwap, ← hEq]
  cases compare key other <;> simp

theorem mem_skipStart_iff {entries : List (K × V)}
    (hOrdered : entries.Pairwise (fun left right => compare left.1 right.1 = .lt))
    (hAbove : ∀ entry ∈ entries, compare entry.1 key ≠ .lt) :
    entry ∈ skipStart key entries ↔ entry ∈ entries ∧ compare key entry.1 = .lt := by
  cases entries with
  | nil => simp [skipStart]
  | cons first rest =>
    rw [List.pairwise_cons] at hOrdered
    have hFirst := (not_lt_iff key first.1).mp (hAbove first (List.mem_cons_self ..))
    simp only [skipStart]
    split
    · next hEq =>
        have hKey : first.1 = key := Std.LawfulEqOrd.eq_of_compare hEq
        constructor
        · intro hMem
          refine ⟨List.mem_cons_of_mem _ hMem, ?_⟩
          rw [← hKey]
          exact hOrdered.1 entry hMem
        · rintro ⟨hMem, hLt⟩
          rcases List.mem_cons.mp hMem with rfl | hMem
          · rw [← hKey, Std.ReflOrd.compare_self] at hLt
            cases hLt
          · exact hMem
    · next hNe =>
        refine ⟨fun hMem => ⟨hMem, ?_⟩, And.left⟩
        have hLt : compare key first.1 = .lt := by
          rcases hFirst with hLt | rfl
          · exact hLt
          · exact (hNe Std.ReflOrd.compare_self).elim
        rcases List.mem_cons.mp hMem with rfl | hMem
        · exact hLt
        · exact Std.TransCmp.lt_trans hLt (hOrdered.1 entry hMem)

/- Seeking finds the entries from the start key on. -/
theorem mem_seek_iff :
    (key, value) ∈ index.seek (some first) skip inside ↔
      index.get key = some value ∧ FromStart (some first) skip key := by
  have hAbove :
      ∀ entry : K × V,
        entry ∈ index.entries.dropWhile (fun (k, _) => compare k first == .lt) ↔
          entry ∈ index.entries ∧ compare entry.1 first ≠ .lt := by
    intro entry
    rw [mem_dropWhile_iff index.ordered_entries]
    · simp
    · intro x y hLt hBelow
      rw [beq_iff_eq] at hBelow ⊢
      exact Std.TransCmp.lt_trans hLt hBelow
  unfold seek FromStart
  dsimp only
  cases skip with
  | false =>
    rw [if_neg (by simp), hAbove, mem_entries_iff, not_lt_iff]
    simp
  | true =>
    have hOrdered :=
      index.ordered_entries.sublist (List.dropWhile_sublist fun (k, _) => compare k first == .lt)
    rw [if_pos rfl, mem_skipStart_iff hOrdered fun entry hMem => ((hAbove entry).mp hMem).2,
      hAbove, mem_entries_iff, not_lt_iff]
    simp only [Option.some.injEq, forall_eq', reduceCtorEq, false_and, or_false, and_assoc]
    constructor
    · rintro ⟨hGet, -, hLt⟩
      exact ⟨hGet, hLt⟩
    · rintro ⟨hGet, hLt⟩
      exact ⟨hGet, Or.inl hLt, hLt⟩

/- An iteration visits entries with the property. -/
theorem of_mem_iterate (hMem : (key, value) ∈ index.iterate start skip inside) :
    index.get key = some value ∧ inside key = true := by
  have hEntry := seek_sublist.mem ((List.takeWhile_sublist _).mem hMem)
  have hInside := List.mem_takeWhile_imp hMem
  exact ⟨(mem_entries_iff _ _ _).mp hEntry, hInside⟩

/-
  An iteration over an interval of keys that holds its start key visits the entries of the interval
  from there on.
-/
theorem mem_iterate_iff (hConvex :
      ∀ x y z, compare x y = .lt → compare y z = .lt →
        inside x = true → inside z = true → inside y = true)
    (hStart : ∀ key, start = some key → inside key = true) (key : K) (value : V) :
    (key, value) ∈ index.iterate start skip inside ↔
      index.get key = some value ∧ inside key = true ∧ FromStart start skip key := by
  unfold iterate
  cases start with
  | none =>
    unfold seek
    rw [mem_takeWhile_dropWhile_iff index.ordered_entries fun x y z => hConvex x.1 y.1 z.1,
      mem_entries_iff]
    simp [FromStart]
  | some first =>
    rw [mem_takeWhile_iff (index.ordered_entries.sublist seek_sublist), mem_seek_iff]
    · simp only [and_assoc, and_comm]
    · rintro ⟨k, v⟩ hMem ⟨k', v'⟩ hMem' hLt hInside
      -- the key lies between the start key and another one
      have hFrom := (mem_seek_iff.mp hMem).2
      rcases hFrom first rfl with hAbove | ⟨-, rfl⟩
      · exact hConvex first k k' hAbove hLt (hStart first rfl) hInside
      · exact hStart first rfl

end Index

---- Resumed Scans

variable {K V : Type}
variable [Ord K] [Std.TransOrd K]

/-
  A list of entries in key order, such that the index has no other entry of the scanned keys before
  its end.
-/
structure Scanned (inside : K → Prop) (index : Index K V) (entries : List (K × V)) : Prop where
  ordered : entries.Pairwise (fun left right => compare left.1 right.1 = .lt)
  within : ∀ entry ∈ entries, inside entry.1
  complete :
    ∀ key value, index.get key = some value → inside key →
      (key, value) ∈ entries ∨ ∀ entry ∈ entries, compare entry.1 key = .lt

/- The list holds all entries of the scanned keys. -/
def Covered (inside : K → Prop) (index : Index K V) (entries : List (K × V)) : Prop :=
  ∀ key value, index.get key = some value → inside key → (key, value) ∈ entries

variable {inside : K → Prop} {index : Index K V}
variable {sent rest : List (K × V)}

/- Nothing is scanned at first. -/
theorem scanned_nil : Scanned inside index [] where
  ordered := .nil
  within := nofun
  complete _ _ _ _ := Or.inr nofun

/- An iteration adds what lies behind the entries so far. -/
theorem Scanned.append (hScanned : Scanned inside index sent)
    (hOrdered : rest.Pairwise (fun left right => compare left.1 right.1 = .lt))
    (hRest :
      ∀ key value, (key, value) ∈ rest ↔
        index.get key = some value ∧ inside key ∧ ∀ entry ∈ sent, compare entry.1 key = .lt) :
    Scanned inside index (sent ++ rest) ∧ Covered inside index (sent ++ rest) := by
  have hCovered : Covered inside index (sent ++ rest) := by
    intro key value hGet hInside
    rw [List.mem_append]
    rcases hScanned.complete key value hGet hInside with hMem | hAbove
    · exact Or.inl hMem
    · exact Or.inr ((hRest key value).mpr ⟨hGet, hInside, hAbove⟩)
  refine ⟨⟨?_, ?_, ?_⟩, hCovered⟩
  · rw [List.pairwise_append]
    refine ⟨hScanned.ordered, hOrdered, ?_⟩
    rintro old hOld ⟨key, value⟩ hNew
    exact ((hRest key value).mp hNew).2.2 old hOld
  · rintro ⟨key, value⟩ hMem
    rcases List.mem_append.mp hMem with hOld | hNew
    · exact hScanned.within _ hOld
    · exact ((hRest key value).mp hNew).2.1
  · intro key value hGet hInside
    exact Or.inl (hCovered key value hGet hInside)

/- A scan may stop at any of its entries. -/
theorem Scanned.of_append (hScanned : Scanned inside index (sent ++ rest)) :
    Scanned inside index sent := by
  have hOrdered := List.pairwise_append.mp hScanned.ordered
  refine ⟨hOrdered.1, ?_, ?_⟩
  · intro entry hMem
    exact hScanned.within entry (List.mem_append_left _ hMem)
  · intro key value hGet hInside
    rcases hScanned.complete key value hGet hInside with hMem | hAbove
    · rcases List.mem_append.mp hMem with hOld | hNew
      · exact Or.inl hOld
      · exact Or.inr fun entry hEntry => hOrdered.2.2 entry hEntry _ hNew
    · exact Or.inr fun entry hEntry => hAbove entry (List.mem_append_left _ hEntry)

/- Entries may disappear from the index; those that appear have to lie behind the scanned ones. -/
theorem Scanned.of_changed (hScanned : Scanned inside index sent)
    (hNew :
      ∀ key value, index'.get key = some value → inside key →
        index.get key = some value ∨ ∀ entry ∈ sent, compare entry.1 key = .lt) :
    Scanned inside index' sent where
  ordered := hScanned.ordered
  within := hScanned.within
  complete key value hGet hInside := by
    rcases hNew key value hGet hInside with hOld | hAbove
    · exact hScanned.complete key value hOld hInside
    · exact Or.inr hAbove

/- What follows the last entry follows all entries. -/
theorem forall_lt_of_last
    (hOrdered : (sent ++ [last]).Pairwise (fun left right => compare left.1 right.1 = .lt))
    (key : K) :
    (∀ entry ∈ sent ++ [last], compare entry.1 key = .lt) ↔ compare last.1 key = .lt := by
  constructor
  · intro hAll
    exact hAll last (by simp)
  · intro hLast entry hMem
    rcases List.mem_append.mp hMem with hOld | hEq
    · have hLt :=
        (List.pairwise_append.mp hOrdered).2.2 entry hOld last (List.mem_singleton_self last)
      exact Std.TransCmp.lt_trans hLt hLast
    · rw [List.mem_singleton.mp hEq]
      exact hLast

end KeyValue
