import Sana.KeyValue.Index

/-
  Batches and the state of the reserve.

  The limits of the reserve are values: batches below the inner one are out of the reserve, batches
  from the outer one on are kept one proximity order further out.  Values are unbounded numbers;
  depths, radiuses and capacities are machine integers, and wrap as such.

  The store keeps batches by their ID, and one key for each of them in the order of values, over
  which evictions iterate.  `none` stands for a call that returns an error or does not return.

  Key definitions include:
    * `Batch`
    * `ChainState`

  Key theorems include:
    * `exp2_eq_pow`
-/

---- Batches And Chain State

namespace Sana.Postage

abbrev BatchID :=
  BitVec 256

/- `postage.Batch`; the radius is not serialised. -/
structure Batch where
  id : BatchID
  value : Nat
  start : UInt64
  owner : BitVec 160
  depth : UInt8
  bucketDepth : UInt8
  immutable : Bool
  radius : UInt8 := 0
  deriving DecidableEq, Repr

/- `postage.ChainState`. -/
structure ChainState where
  block : UInt64
  totalAmount : Nat
  currentPrice : Nat
  deriving DecidableEq, Repr

---- Powers Of Two

/- `int64`, in two's complement. -/
abbrev I64 :=
  BitVec 64

/- The loop of `exp2`. -/
def doubled : Nat → I64 → I64
| 0, b => b
| count + 1, b => doubled count (b * 2)

def exp2 (e : UInt8) : I64 :=
  if e = 0 then 1 else doubled (e.toNat - 1) 2

theorem doubled_eq_mul_pow : doubled count b = b * 2 ^ count := by
  induction count generalizing b with
  | zero => exact (mul_one b).symm
  | succ count ih => rw [doubled, ih, pow_succ', mul_assoc]

theorem exp2_eq_pow (e : UInt8) : exp2 e = 2 ^ e.toNat := by
  unfold exp2
  split
  · next hZero =>
      rw [hZero]
      rfl
  · next hNe =>
      have hPos : 0 < e.toNat := by
        rw [Nat.pos_iff_ne_zero]
        exact fun hZero => hNe (UInt8.toNat_inj.mp hZero)
      rw [doubled_eq_mul_pow, ← pow_succ', Nat.sub_add_cancel hPos]

/- Large powers are multiples of the word size. -/
theorem exp2_eq_zero (hLarge : 64 ≤ e.toNat) : exp2 e = 0 := by
  have hWord : (2 : I64) ^ 64 = 0 := by decide +kernel
  rw [exp2_eq_pow, ← Nat.add_sub_cancel' hLarge, pow_add, hWord, zero_mul]

/- The exponent of a size, as long as it is not negative. -/
theorem toNat_depth_sub {depth radius : UInt8} (hLt : radius.toNat < depth.toNat) :
    (depth - radius - 1).toNat = depth.toNat - radius.toNat - 1 := by
  have hLe : radius ≤ depth := UInt8.le_iff_toNat_le.mpr hLt.le
  have hSub : (depth - radius).toNat = depth.toNat - radius.toNat :=
    UInt8.toNat_sub_of_le depth radius hLe
  have hOne : (1 : UInt8) ≤ depth - radius := by
    rw [UInt8.le_iff_toNat_le]
    change 1 ≤ _
    omega
  rw [UInt8.toNat_sub_of_le _ _ hOne, hSub]
  rfl

/- One more radius halves the size of a deep batch. -/
theorem two_mul_exp2 (hNext : radius'.toNat = radius.toNat + 1)
    (hLt : radius'.toNat < depth.toNat) :
    2 * exp2 (depth - radius' - 1) = exp2 (depth - radius - 1) := by
  have hOld : radius.toNat < depth.toNat := by omega
  rw [exp2_eq_pow, exp2_eq_pow, toNat_depth_sub hLt, toNat_depth_sub hOld, ← pow_succ']
  congr 1
  omega

---- The Reserve

/- `swarm.MaxPO`. -/
def maxPO : UInt8 :=
  31

/- The initial depth for the reserve, `DefaultDepth`. -/
def defaultDepth : UInt8 :=
  12

/- The number of chunks in the reserve, `Capacity`. -/
def capacity : I64 :=
  exp2 22

@[ext] structure ReserveState where
  radius : UInt8
  storageRadius : UInt8
  available : I64
  outer : Nat
  inner : Nat
  deriving DecidableEq, Repr

/- The sections of the reserve. -/
inductive Tier where
  | unreserved
  | inner
  | outer
  deriving DecidableEq, Repr

namespace ReserveState

/- The number of chunks that a batch takes in the reserve. -/
def size (rs : ReserveState) (depth : UInt8) (t : Tier) : I64 :=
  let size := exp2 (depth - rs.radius - 1)
  match t with
  | .inner => size
  | .outer => 2 * size
  | .unreserved => 0

/- The section that a value falls into. -/
def tier (rs : ReserveState) (x : Nat) : Tier :=
  if x < rs.inner ∨ rs.inner = 0 then .unreserved
  else if x < rs.outer then .inner
  else .outer

/- The method `radius`: the reserve radius in a section. -/
def radiusOf (rs : ReserveState) (t : Tier) : UInt8 :=
  match t with
  | .unreserved => maxPO
  | .inner => rs.radius
  | .outer => rs.radius - 1

/-
  Lower the limits to a value below the inner one, or set them when there are none yet, and adjust
  the section.
-/
def setLimits (rs : ReserveState) (val : Nat) (newTier : Tier) : ReserveState × Tier :=
  if newTier ≠ .unreserved then (rs, newTier)
  else if rs.inner = 0 ∨ val < rs.inner then
    if rs.outer = rs.inner then ({ rs with outer := val, inner := val }, .outer)
    else ({ rs with inner := val }, .inner)
  else (rs, .unreserved)

/- The limits for a new value, the change in capacity, and the radius of the batch. -/
def change (rs : ReserveState) (oldv newv : Nat) (oldDepth newDepth : UInt8) :
    ReserveState × I64 × UInt8 :=
  let oldTier := rs.tier oldv
  let limits := rs.setLimits newv (rs.tier newv)
  let rs := limits.1
  let newTier := limits.2
  let oldSize := rs.size oldDepth oldTier
  let newSize := rs.size newDepth newTier
  (rs, oldSize - newSize, rs.radiusOf newTier)

---- Sections Of Values In The Reserve

variable {rs : ReserveState} {x : Nat}

/- Above a positive inner limit there are two sections. -/
theorem tier_of_le (hPos : 0 < rs.inner) (hLe : rs.inner ≤ x) :
    rs.tier x = if x < rs.outer then .inner else .outer := by
  have hNot : ¬ (x < rs.inner ∨ rs.inner = 0) := by omega
  unfold tier
  rw [if_neg hNot]

theorem tier_of_lt (hLt : x < rs.inner) : rs.tier x = .unreserved := by
  unfold tier
  rw [if_pos (Or.inl hLt)]

theorem tier_of_inner_eq_zero (hZero : rs.inner = 0) : rs.tier x = .unreserved := by
  unfold tier
  rw [if_pos (Or.inr hZero)]

/- The size of a batch depends on its section as a factor. -/
theorem size_eq (rs : ReserveState) (depth : UInt8) (t : Tier) : rs.size depth t = (match t with
        | .unreserved => 0
        | .inner => 1
        | .outer => 2) * exp2 (depth - rs.radius - 1) := by
  cases t with
  | unreserved => exact (zero_mul _).symm
  | inner => exact (one_mul _).symm
  | outer => rfl

end ReserveState

end Sana.Postage

---- State

namespace Sana.Postage

open KeyValue

/- The key of a batch in the order of values. -/
structure ValueKey where
  value : Nat
  id : BatchID
  deriving DecidableEq, Repr

instance : Ord ValueKey where
  compare := compareKeys ValueKey.value ValueKey.id

instance : Std.TransOrd ValueKey :=
  inferInstanceAs (Std.TransCmp (compareLex _ _))

instance : Std.LawfulEqOrd ValueKey where
  eq_of_compare {left right} hEq := by
    rcases left with ⟨leftValue, leftID⟩
    rcases right with ⟨rightValue, rightID⟩
    have hParts := eq_of_compareKeys hEq
    simp_all

structure UnreserveItem where
  batchID : BatchID
  radius : UInt8
  deriving DecidableEq, Repr

/- The queue holds its items in the order of their numbers. -/
@[ext] structure BatchStore where
  batches : Index BatchID Batch
  values : Index ValueKey Unit
  cs : ChainState
  rs : ReserveState
  queue : List UnreserveItem

namespace BatchStore

/- A new store, at a block. -/
def empty (startBlock : UInt64) : BatchStore where
  batches := .empty
  values := .empty
  cs :=
    { block := startBlock
      totalAmount := 0
      currentPrice := 0 }
  rs :=
    { radius := defaultDepth
      storageRadius := 0
      available := capacity
      outer := 0
      inner := 0 }
  queue := []

/- The radius of a batch that the store reports. -/
def reportedRadius (st : BatchStore) (value : Nat) : UInt8 :=
  if st.rs.storageRadius < st.rs.radius then st.rs.storageRadius
  else st.rs.radiusOf (st.rs.tier value)

def get (st : BatchStore) (id : BatchID) : Option Batch :=
  (st.batches.get id).map fun b => { b with radius := st.reportedRadius b.value }

/- The keys that an iteration over the values visits. -/
def valueKeys (st : BatchStore) : List ValueKey :=
  st.values.entries.map Prod.fst

/- `unreserve`: queue a batch with a radius. -/
def unreserve (st : BatchStore) (b : BatchID) (radius : UInt8) : BatchStore :=
  { st with queue := st.queue ++ [⟨b, radius⟩] }

---- Put

/- Unreserve the outer half of a batch, up to its value. -/
def dropOuter (rs : ReserveState) (b : Batch) : ReserveState :=
  { rs with
    available := rs.available + exp2 (b.depth - rs.radius - 1)
    outer := b.value }

/- The batch that is put is not stored yet. -/
def getOr (st : BatchStore) (last : Batch) (id : BatchID) : Option Batch :=
  if last.id = id then some last else st.get id

/- The iteration of `evictOuter`. -/
def evictValues (last : Batch) : List ValueKey → BatchStore → Option BatchStore
| [], st => some st
| key :: keys, st => do
    let b ← st.getOr last key.id
    if b.value < st.rs.outer then evictValues last keys st
    -- all batches of one value are evicted together
    else if 0 ≤ st.rs.available.toInt ∧ st.rs.outer ≠ b.value then some st
    else evictValues last keys (unreserve { st with rs := dropOuter st.rs b } b.id st.rs.radius)

/- How `evictOuter` ends: it returns, or calls itself. -/
inductive Round where
  | done (st : BatchStore)
  | again (st : BatchStore)

/- One call of `evictOuter` up to the call of itself. -/
def evictRound (last : Batch) (st : BatchStore) : Option Round :=
  if 0 ≤ st.rs.available.toInt then some (.done st)
  else do
    let st ← evictValues last st.valueKeys st
    let rs := { st.rs with outer := st.rs.outer + 1 }
    if rs.available.toInt < 0 then
      some (.again
        { st with
          rs := { rs with
            radius := rs.radius + 1
            outer := rs.inner } })
    else some (.done { st with rs := rs })

/- `evictOuter`, with a bound on how often it calls itself. -/
def evictOuter (last : Batch) : Nat → BatchStore → Option BatchStore
| 0, _ => none
| fuel + 1, st =>
  match evictRound last st with
  | none => none
  | some (.done st) => some st
  | some (.again st) => evictOuter last fuel st

/- The first part of `update`, before evictions. -/
def charge (st : BatchStore) (b : Batch) (oldDepth : UInt8) (oldValue : Nat) : BatchStore :=
  let change := st.rs.change oldValue b.value oldDepth b.depth
  let rs := { change.1 with available := change.1.available + change.2.1 }
  unreserve { st with rs := rs } b.id change.2.2

def update (fuel : Nat) (st : BatchStore) (b : Batch) (oldDepth : UInt8)
    (oldValue : Nat) : Option BatchStore :=
  evictOuter b fuel (st.charge b oldDepth oldValue)

/- The value index when a batch gets a new value. -/
def moveValue (st : BatchStore) (b : Batch) (value : Nat) : BatchStore :=
  { st with values := (st.values.delete ⟨b.value, b.id⟩).put ⟨value, b.id⟩ () }

/- Store a batch without its radius. -/
def storeBatch (st : BatchStore) (b : Batch) : BatchStore :=
  { st with
    batches := st.batches.put b.id { b with radius := 0 } }

def put (fuel : Nat) (st : BatchStore) (b : Batch) (value : Nat)
    (depth : UInt8) : Option BatchStore := do
  let new := { b with value := value, depth := depth }
  let st ← update fuel (st.moveValue b value) new b.depth b.value
  some (st.storeBatch new)

---- PutChainState

/- The value below which batches are evicted. -/
def evictBelow (st : BatchStore) : Nat :=
  if 0 < st.rs.inner ∧ st.rs.inner ≤ st.cs.totalAmount then st.cs.totalAmount + 1
  else st.rs.inner

/- The multiplier for the next batch. -/
def multiply (rs : ReserveState) (value : Nat) (multiplier : I64) : I64 :=
  let multiplier := if multiplier = 0 ∧ rs.inner ≤ value then 1
    else multiplier
  if multiplier = 1 ∧ rs.outer ≤ value then 2
  else multiplier

/- The iteration of `evictExpired`, and what to delete. -/
def expireValues (below : Nat) :
    List ValueKey → I64 → List BatchID → BatchStore → Option (List BatchID × BatchStore)
| [], _, toDelete, st => some (toDelete, st)
| key :: keys, multiplier, toDelete, st => do
    let b ← st.get key.id
    if below ≤ b.value then some (toDelete, st)
    else
      let multiplier := multiply st.rs b.value multiplier
      let rs := { st.rs with
        available := st.rs.available + multiplier * exp2 (b.radius - st.rs.radius - 1) }
      let toDelete := if b.value ≤ st.cs.totalAmount then
          toDelete ++ [b.id]
        else toDelete
      expireValues below keys multiplier toDelete { st with rs := rs }

def delete : List BatchID → BatchStore → Option BatchStore
| [], st => some st
| id :: ids, st => do
    let b ← st.get id
    delete ids
      { st with
        values := st.values.delete ⟨b.value, id⟩
        batches := st.batches.delete id }

/- Raise the limits of the reserve to a value. -/
def raiseLimits (st : BatchStore) (value : Nat) : BatchStore :=
  { st with
    rs := { st.rs with
      inner := value
      outer :=
        if st.rs.outer < value then value
        else st.rs.outer } }

def evictExpired (st : BatchStore) : Option BatchStore := do
  let below := st.evictBelow
  let (toDelete, st) ← expireValues below st.valueKeys 0 [] st
  delete toDelete (st.raiseLimits below)

def putChainState (st : BatchStore) (cs : ChainState) : Option BatchStore :=
  evictExpired { st with cs := cs }

---- Unreserve

/- `Unreserve`, whose callback is called for some items from the front of the queue. -/
def unreserveItems : Nat → BatchStore → BatchStore
| 0, st => st
| count + 1, st =>
  match st.queue with
  | [] => st
  | item :: items =>
    unreserveItems count
      { st with
        queue := items
        rs :=
          if st.rs.storageRadius + 1 < item.radius then
            { st.rs with storageRadius := item.radius - 1 }
          else st.rs }

end BatchStore

end Sana.Postage
