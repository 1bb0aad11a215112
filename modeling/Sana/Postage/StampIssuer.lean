import Sana.Postage.BatchStore
import Sana.Program.Reach
import Sana.Swarm.Address

/-
  Stamp issuers.

  An issuer counts the stamps of each collision bucket of a batch.  Calls of `Stamp` take the next
  index of a bucket under a lock, and sign it afterwards.

  `Close` stores the issuers of a chain under the number of the chain followed by their own number,
  and `NewService` reads them back.  Chains share the store.

  Key definitions include:
    * `StampIssuer`
    * `StampIssuer.inc`

  Key theorems include:
    * `bytesToIndex_indexToBytes`
-/

---- Indexes

namespace Sana.Postage

section

open KeyValue Swarm

inductive StampErr where
  /- "bucket full" -/
  | bucketFull
  /- "owner mismatch" -/
  | ownerMismatch
  /- "invalid index" -/
  | invalidIndex
  /- "bucket mismatch" -/
  | bucketMismatch
  /- An error of `crypto.Recover`. -/
  | recover
  /- An index out of range, at which the program panics. -/
  | outOfRange
  deriving DecidableEq, Repr

/- `1 << shift` in 32 bits. -/
def shiftLeftOne (shift : UInt8) : UInt32 :=
  UInt32.ofNat (1 <<< shift.toNat)

/- The bytes of an address. -/
def addressBytes (addr : Address) : List UInt8 :=
  bigEndian 32 addr.toNat

/- The collision bucket of an address. -/
def toBucket (depth : UInt8) (addr : Address) : UInt32 :=
  let i := UInt32.ofNat (fromBigEndian ((addressBytes addr).take 4))
  UInt32.ofNat (i.toNat >>> (32 - depth).toNat)

def indexToBytes (bucket index : UInt32) : List UInt8 :=
  bigEndian 4 bucket.toNat ++ bigEndian 4 index.toNat

def bytesToIndex (buf : List UInt8) : UInt32 × UInt32 :=
  let index64 := UInt64.ofNat (fromBigEndian (buf.take 8))
  (UInt32.ofNat (index64.toNat >>> 32), UInt32.ofNat index64.toNat)

theorem uint32_toNat_lt (n : UInt32) : n.toNat < 256 ^ 4 :=
  n.toNat_lt

theorem bytesToIndex_indexToBytes : bytesToIndex (indexToBytes bucket index) = (bucket, index) := by
  have hBucket := bucket.toNat_lt
  have hIndex := index.toNat_lt
  have hTake : (indexToBytes bucket index).take 8 = indexToBytes bucket index := by
    simp [indexToBytes]
  have hNumber :
      fromBigEndian (indexToBytes bucket index) = bucket.toNat * 2 ^ 32 + index.toNat := by
    unfold indexToBytes
    rw [fromBigEndian_append, length_bigEndian, fromBigEndian_bigEndian (uint32_toNat_lt bucket),
      fromBigEndian_bigEndian (uint32_toNat_lt index)]
    norm_num
  have hWord :
      (UInt64.ofNat (bucket.toNat * 2 ^ 32 +
        index.toNat)).toNat = bucket.toNat * 2 ^ 32 + index.toNat := by
    rw [UInt64.toNat_ofNat', Nat.mod_eq_of_lt]
    omega
  unfold bytesToIndex
  rw [hTake, hNumber]
  dsimp only
  rw [hWord, Prod.mk.injEq]
  constructor
  · apply UInt32.toNat_inj.mp
    rw [UInt32.toNat_ofNat', Nat.shiftRight_eq_div_pow]
    omega
  · apply UInt32.toNat_inj.mp
    rw [UInt32.toNat_ofNat']
    omega

/- Buckets are numbered below `2^depth`. -/
theorem toBucket_lt (hDepth : depth.toNat ≤ 32) (addr : Address) :
    (toBucket depth addr).toNat < 2 ^ depth.toNat := by
  have hLe : depth ≤ 32 := UInt8.le_iff_toNat_le.mpr hDepth
  have hShift : (32 - depth).toNat = 32 - depth.toNat := UInt8.toNat_sub_of_le 32 depth hLe
  have hLt : ∀ i : UInt32, i.toNat / 2 ^ (32 - depth.toNat) < 2 ^ depth.toNat := by
    intro i
    apply Nat.div_lt_of_lt_mul
    rw [← pow_add, Nat.sub_add_cancel hDepth]
    exact i.toNat_lt
  unfold toBucket
  dsimp only
  rw [hShift, Nat.shiftRight_eq_div_pow, UInt32.toNat_ofNat']
  exact (Nat.mod_le _ _).trans_lt (hLt _)

/- The capacity of a bucket, as long as it fits. -/
theorem toNat_shiftLeftOne (hLt : shift.toNat < 32) :
    (shiftLeftOne shift).toNat = 2 ^ shift.toNat := by
  unfold shiftLeftOne
  rw [UInt32.toNat_ofNat', Nat.shiftLeft_eq, one_mul, Nat.mod_eq_of_lt]
  exact Nat.pow_lt_pow_right (by omega) hLt

end

---- Issuers

section

open KeyValue Swarm

/- `stampIssuerData`. -/
structure StampIssuer where
  label : String
  keyID : String
  batchID : BatchID
  batchAmount : Nat
  batchDepth : UInt8
  bucketDepth : UInt8
  buckets : List UInt32
  maxBucketCount : UInt32
  blockNumber : UInt64
  immutableFlag : Bool
  deriving DecidableEq, Repr

namespace StampIssuer

/- `NewStampIssuer`. -/
def new (label keyID : String) (batchID : BatchID) (batchAmount : Nat)
    (batchDepth bucketDepth : UInt8) (blockNumber : UInt64)
    (immutableFlag : Bool) : StampIssuer where
  label := label
  keyID := keyID
  batchID := batchID
  batchAmount := batchAmount
  batchDepth := batchDepth
  bucketDepth := bucketDepth
  buckets := List.replicate (1 <<< bucketDepth.toNat) 0
  maxBucketCount := 0
  blockNumber := blockNumber
  immutableFlag := immutableFlag

/- The issuer when a bucket has got a new count. -/
def count (si : StampIssuer) (b : UInt32) (bucketCount : UInt32) : StampIssuer :=
  { si with
    buckets := si.buckets.set b.toNat bucketCount
    maxBucketCount :=
      if si.maxBucketCount < bucketCount then bucketCount
      else si.maxBucketCount }

/- The next index in the bucket of an address. -/
def inc (si : StampIssuer) (addr : Address) : Except StampErr (StampIssuer × List UInt8) :=
  let b := toBucket si.bucketDepth addr
  match si.buckets[b.toNat]? with
  | none => .error .outOfRange
  | some bucketCount =>
    if bucketCount = shiftLeftOne (si.batchDepth - si.bucketDepth) then .error .bucketFull
    else .ok (si.count b (bucketCount + 1), indexToBytes b bucketCount)

def utilization (si : StampIssuer) : UInt32 :=
  si.maxBucketCount

end StampIssuer

/- Hashes and signatures. -/
structure Crypto where
  Digest : Type
  Sig : Type
  PublicKey : Type
  hash : List UInt8 → Digest
  recover : Sig → Digest → Option PublicKey
  ethereumAddress : PublicKey → BitVec 160

/- A signer; `crypto.Recover` inverts its signatures. -/
structure Signer (crypto : Crypto) where
  publicKey : crypto.PublicKey
  sign : crypto.Digest → crypto.Sig
  recover_sign : ∀ digest, crypto.recover (sign digest) digest = some publicKey

structure Stamp (crypto : Crypto) where
  batchID : BatchID
  index : List UInt8
  timestamp : List UInt8
  sig : crypto.Sig

variable {crypto : Crypto}

def toSignDigest (crypto : Crypto) (addr : Address) (batchId : BatchID)
    (index timestamp : List UInt8) : crypto.Digest :=
  crypto.hash (addressBytes addr ++ bigEndian 32 batchId.toNat ++ index ++ timestamp)

/- The second part of `Stamp`: a stamp with a given index. -/
def signStamp (signer : Signer crypto) (batchID : BatchID) (addr : Address)
    (index timestamp : List UInt8) : Stamp crypto where
  batchID := batchID
  index := index
  timestamp := timestamp
  sig := signer.sign (toSignDigest crypto addr batchID index timestamp)

def Stamp.valid (s : Stamp crypto) (chunkAddr : Address) (ownerAddr : BitVec 160)
    (depth bucketDepth : UInt8) : Except StampErr Unit :=
  let toSign := toSignDigest crypto chunkAddr s.batchID s.index s.timestamp
  match crypto.recover s.sig toSign with
  | none => .error .recover
  | some signerPubkey =>
    let signerAddr := crypto.ethereumAddress signerPubkey
    let pair := bytesToIndex s.index
    if toBucket bucketDepth chunkAddr ≠ pair.1 then .error .bucketMismatch
    else if shiftLeftOne (depth - bucketDepth) ≤ pair.2 then .error .invalidIndex
    else if signerAddr ≠ ownerAddr then .error .ownerMismatch
    else .ok ()

/- A signed index below the capacity of its bucket is valid. -/
theorem valid_signStamp (hLt : index < shiftLeftOne (depth - bucketDepth)) :
    (signStamp signer batchID addr (indexToBytes (toBucket bucketDepth addr) index)
        timestamp).valid addr (crypto.ethereumAddress signer.publicKey) depth
          bucketDepth = .ok () := by
  unfold Stamp.valid signStamp
  simp only [signer.recover_sign, bytesToIndex_indexToBytes]
  rw [if_neg (fun hNe => hNe rfl), if_neg (UInt32.not_le.mpr hLt), if_neg (fun hNe => hNe rfl)]

end

---- Calls Of Stamp

section

open KeyValue Program Swarm

variable {crypto : Crypto}

/-
  A call of `Stamp`: the index that it was given, or the error, and the stamp when it has returned
  one.
-/
structure StampCall (crypto : Crypto) where
  addr : Address
  index : Except StampErr (List UInt8)
  stamp : Option (Stamp crypto)

/- The bucket and the index in it that a call was given. -/
def StampCall.pair (call : StampCall crypto) : Option (UInt32 × UInt32) :=
  match call.index with
  | .ok index => some (bytesToIndex index)
  | .error _ => none

/- An issuer and all calls that have used it. -/
structure Issuing (crypto : Crypto) where
  issuer : StampIssuer
  calls : List (StampCall crypto)

namespace Issuing

/- The calls for a bucket. -/
def requested (sys : Issuing crypto) (b : UInt32) : Nat :=
  sys.calls.countP fun call => toBucket sys.issuer.bucketDepth call.addr = b

/- The calls for a bucket that were given an index. -/
def granted (sys : Issuing crypto) (b : UInt32) : Nat :=
  sys.calls.countP fun call => toBucket sys.issuer.bucketDepth call.addr = b ∧ call.pair.isSome

/- The stamps of a bucket. -/
def issued (sys : Issuing crypto) (b : UInt32) : Nat :=
  sys.calls.countP fun call => toBucket sys.issuer.bucketDepth call.addr = b ∧ call.stamp.isSome

/- The calls for a bucket that have still to sign. -/
def signing (sys : Issuing crypto) (b : UInt32) : Nat :=
  sys.calls.countP fun call =>
    toBucket sys.issuer.bucketDepth call.addr = b ∧ call.pair.isSome ∧ call.stamp.isNone

end Issuing

inductive StampOp where
  | inc (addr : Address)
  | sign (call : Nat) (timestamp : List UInt8)

/- Calls take their index one at a time, and sign any time. -/
def StampStep (signer : Signer crypto) : StampOp → Issuing crypto → Issuing crypto → Prop
| .inc addr, sys, sys' =>
  match sys.issuer.inc addr with
  | .ok (si, index) => sys' = ⟨si, sys.calls ++ [⟨addr, .ok index, none⟩]⟩
  | .error err => sys' = { sys with calls := sys.calls ++ [⟨addr, .error err, none⟩] }
| .sign i timestamp, sys, sys' =>
  ∃ call index, sys.calls[i]? = some call ∧ call.index = .ok index ∧ call.stamp = none ∧
      sys' = { sys with
        calls := sys.calls.set i
          { call with
            stamp := some (signStamp signer sys.issuer.batchID call.addr index timestamp) } }

end

---- Exact Counts

section

open KeyValue Program Swarm

variable {crypto : Crypto} {signer : Signer crypto}
variable {sys sys' : Issuing crypto} {d k : UInt8}

/- The depths of a batch whose buckets have a capacity. -/
structure Depths (d k : UInt8) : Prop where
  bucket_le : k.toNat ≤ 32
  lt : k.toNat < d.toNat
  sub_lt : d.toNat - k.toNat < 32

theorem Depths.toNat_capacity (hDepths : Depths d k) :
    (shiftLeftOne (d - k)).toNat = 2 ^ (d.toNat - k.toNat) := by
  have hSub : (d - k).toNat = d.toNat - k.toNat :=
    UInt8.toNat_sub_of_le d k (UInt8.le_iff_toNat_le.mpr hDepths.lt.le)
  rw [toNat_shiftLeftOne (by rw [hSub]; exact hDepths.sub_lt), hSub]

/-
  The counts of the issuer are those of its calls, and every call was given a new index or found its
  bucket full.
-/
structure Issuing.Sound (signer : Signer crypto) (d k : UInt8) (sys : Issuing crypto) : Prop where
  batchDepth : sys.issuer.batchDepth = d
  bucketDepth : sys.issuer.bucketDepth = k
  length : sys.issuer.buckets.length = 2 ^ k.toNat
  counted :
    ∀ b : UInt32, ∀ count, sys.issuer.buckets[b.toNat]? = some count →
      count.toNat = sys.granted b ∧ count.toNat = min (sys.requested b) (2 ^ (d.toNat - k.toNat))
  largest :
    (∀ count ∈ sys.issuer.buckets, count ≤ sys.issuer.utilization) ∧
      sys.issuer.utilization ∈ sys.issuer.buckets
  given :
    ∀ call ∈ sys.calls,
      (∃ j : UInt32,
        call.index = .ok (indexToBytes (toBucket k call.addr) j) ∧
          j.toNat < sys.granted (toBucket k call.addr)) ∨ call.index = .error .bucketFull
  distinct : (sys.calls.filterMap StampCall.pair).Nodup
  signed :
    ∀ call ∈ sys.calls, ∀ s, call.stamp = some s →
      ∃ index timestamp,
        call.index = .ok index ∧ s = signStamp signer sys.issuer.batchID call.addr index timestamp

/- A new issuer has counted nothing. -/
theorem sound_new :
    Issuing.Sound signer d k
      ⟨.new label keyID batchID batchAmount d k blockNumber immutableFlag, []⟩ where
  batchDepth := rfl
  bucketDepth := rfl
  length := by simp [StampIssuer.new, Nat.shiftLeft_eq]
  counted := by
    intro b count hGet
    have hZero : count = 0 := List.eq_of_mem_replicate (List.mem_of_getElem? hGet)
    subst hZero
    exact ⟨rfl, (Nat.zero_min _).symm⟩
  largest := by
    refine ⟨fun count hMem => ?_, ?_⟩
    · rw [List.eq_of_mem_replicate hMem]
      exact UInt32.le_refl 0
    · apply List.mem_replicate.mpr
      refine ⟨?_, rfl⟩
      rw [Nat.shiftLeft_eq, one_mul]
      exact (Nat.pow_pos (by omega)).ne'
  given := fun call hMem => (List.not_mem_nil hMem).elim
  distinct := List.nodup_nil
  signed := fun call hMem => (List.not_mem_nil hMem).elim

/- A bucket exists for every address. -/
theorem Issuing.Sound.bucket (hSound : sys.Sound signer d k) (hDepths : Depths d k)
    (addr : Address) : ∃ count, sys.issuer.buckets[(toBucket k addr).toNat]? = some count := by
  have hLt := toBucket_lt hDepths.bucket_le addr
  rw [← hSound.length] at hLt
  exact ⟨_, List.getElem?_eq_getElem hLt⟩

/- What an increment does. -/
theorem inc_spec (hSound : sys.Sound signer d k) (hDepths : Depths d k) (addr : Address) :
    ∃ count,
      sys.issuer.buckets[(toBucket k addr).toNat]? = some count ∧
        sys.issuer.inc addr = if count.toNat = 2 ^ (d.toNat - k.toNat) then
            .error .bucketFull
          else
            .ok (sys.issuer.count (toBucket k addr) (count + 1),
              indexToBytes (toBucket k addr) count) := by
  rcases hSound.bucket hDepths addr with ⟨count, hGet⟩
  refine ⟨count, hGet, ?_⟩
  unfold StampIssuer.inc
  rw [hSound.batchDepth, hSound.bucketDepth]
  simp only [hGet]
  by_cases hFull : count = shiftLeftOne (d - k)
  · rw [if_pos hFull, if_pos]
    rw [hFull, hDepths.toNat_capacity]
  · rw [if_neg hFull, if_neg]
    rw [← hDepths.toNat_capacity]
    exact fun hEq => hFull (UInt32.toNat_inj.mp hEq)

/- Counts with one more call. -/
theorem requested_append (si : StampIssuer) (hDepth : si.bucketDepth = sys.issuer.bucketDepth)
    (call : StampCall crypto) :
    (⟨si, sys.calls ++ [call]⟩ : Issuing crypto).requested b =
      sys.requested b + if toBucket sys.issuer.bucketDepth call.addr = b then 1
        else 0 := by
  unfold Issuing.requested
  rw [List.countP_append, List.countP_singleton, hDepth]
  simp only [decide_eq_true_eq]

theorem granted_append (si : StampIssuer) (hDepth : si.bucketDepth = sys.issuer.bucketDepth)
    (call : StampCall crypto) :
    (⟨si, sys.calls ++ [call]⟩ : Issuing crypto).granted b =
      sys.granted b + if toBucket sys.issuer.bucketDepth call.addr = b ∧ call.pair.isSome then 1
        else 0 := by
  unfold Issuing.granted
  rw [List.countP_append, List.countP_singleton, hDepth]
  simp only [decide_eq_true_eq]

theorem pair_error :
    (⟨addr, .error err, none⟩ : StampCall crypto).pair =
      none :=
  rfl

theorem pair_ok (addr : Address) (b j : UInt32) :
    (⟨addr, .ok (indexToBytes b j), none⟩ : StampCall crypto).pair = some (b, j) :=
  congrArg some bytesToIndex_indexToBytes

/- A full bucket stays as it is. -/
theorem Issuing.Sound.refuse (hSound : sys.Sound signer d k)
    (hGet : sys.issuer.buckets[(toBucket k addr).toNat]? = some count)
    (hFull : count.toNat = 2 ^ (d.toNat - k.toNat)) : Issuing.Sound signer d k
      { sys with
        calls := sys.calls ++ [⟨addr, .error .bucketFull, none⟩] } := by
  have hGranted :
      ∀ b, (⟨sys.issuer, sys.calls ++
          [⟨addr, .error .bucketFull, none⟩]⟩ : Issuing crypto).granted b = sys.granted b := by
    intro b
    rw [granted_append sys.issuer rfl, pair_error, if_neg]
    · rfl
    · exact fun hBoth => Bool.noConfusion hBoth.2
  refine { hSound with counted := ?_, given := ?_, distinct := ?_, signed := ?_ }
  · intro b other hOther
    rcases hSound.counted b other hOther with ⟨hEq, hMin⟩
    refine ⟨hEq.trans (hGranted b).symm, ?_⟩
    rw [requested_append sys.issuer rfl, hSound.bucketDepth]
    by_cases hSame : toBucket k addr = b
    · subst hSame
      rw [hGet] at hOther
      cases hOther
      omega
    · rw [if_neg hSame]
      exact hMin
  · intro call hMem
    rcases List.mem_append.mp hMem with hMem | hMem
    · rw [hGranted]
      exact hSound.given call hMem
    · rw [List.mem_singleton.mp hMem]
      exact Or.inr rfl
  · dsimp only
    rw [List.filterMap_append, List.filterMap_cons_none pair_error,
      List.filterMap_nil, List.append_nil]
    exact hSound.distinct
  · intro call hMem s hStamp
    rcases List.mem_append.mp hMem with hMem | hMem
    · exact hSound.signed call hMem s hStamp
    · rw [List.mem_singleton.mp hMem] at hStamp
      cases hStamp

/- The largest count, when a count below it grows by one. -/
theorem StampIssuer.largest_count {si : StampIssuer} {b count next : UInt32}
    (hLargest : (∀ other ∈ si.buckets, other ≤ si.utilization) ∧ si.utilization ∈ si.buckets)
    (hGet : si.buckets[b.toNat]? = some count) (hNext : count < next) :
    (∀ other ∈ (si.count b next).buckets, other ≤ (si.count b next).utilization) ∧
      (si.count b next).utilization ∈ (si.count b next).buckets := by
  have hBound : b.toNat < si.buckets.length := (List.getElem?_eq_some_iff.mp hGet).1
  have hUtilization : (si.count b next).utilization = if si.utilization < next then next
        else si.utilization :=
    rfl
  rw [hUtilization]
  constructor
  · intro other hMem
    rcases List.mem_or_eq_of_mem_set hMem with hOld | rfl
    · have hLe := hLargest.1 other hOld
      split
      · next hLt =>
          exact UInt32.le_of_lt (UInt32.lt_of_le_of_lt hLe hLt)
      · exact hLe
    · split
      · exact UInt32.le_refl _
      · next hNot => exact UInt32.not_lt.mp hNot
  · split
    · exact List.mem_set hBound next
    · next hNot =>
        -- the largest count is in another bucket
        rcases List.mem_iff_getElem?.mp hLargest.2 with ⟨i, hI⟩
        have hNe : b.toNat ≠ i := by
          rintro rfl
          rw [hGet] at hI
          cases hI
          exact hNot hNext
        apply List.mem_iff_getElem?.mpr
        exact ⟨i, (List.getElem?_set_ne hNe).trans hI⟩

/- A bucket with room hands out its next index. -/
theorem Issuing.Sound.grant (hSound : sys.Sound signer d k) (hDepths : Depths d k) {addr : Address}
    {count : UInt32} (hGet : sys.issuer.buckets[(toBucket k addr).toNat]? = some count)
    (hRoom : count.toNat ≠ 2 ^ (d.toNat - k.toNat)) :
    Issuing.Sound signer d k
      ⟨sys.issuer.count (toBucket k addr) (count + 1),
        sys.calls ++ [⟨addr, .ok (indexToBytes (toBucket k addr) count), none⟩]⟩ := by
  rcases hSound.counted _ count hGet with ⟨hCount, hMin⟩
  have hNext : (count + 1).toNat = count.toNat + 1 := by
    have hCapacity : 2 ^ (d.toNat - k.toNat) < 2 ^ 32 :=
      Nat.pow_lt_pow_right (by omega) hDepths.sub_lt
    have hOne : (1 : UInt32).toNat = 1 := rfl
    rw [UInt32.toNat_add, hOne, Nat.mod_eq_of_lt]
    omega
  have hGranted :
      ∀ b, (⟨sys.issuer.count (toBucket k addr) (count + 1),
          sys.calls ++
            [⟨addr, .ok (indexToBytes (toBucket k addr) count),
              none⟩]⟩ : Issuing crypto).granted b =
        sys.granted b + if toBucket k addr = b then 1 else 0 := by
    intro b
    rw [granted_append (sys.issuer.count (toBucket k addr) (count + 1)) rfl,
      pair_ok, hSound.bucketDepth]
    simp only [Option.isSome_some, and_true]
  refine ⟨hSound.batchDepth, hSound.bucketDepth, ?_, ?_, ?_, ?_, ?_, ?_⟩
  · exact List.length_set.trans hSound.length
  · intro b other hOther
    rw [hGranted, requested_append (sys.issuer.count (toBucket k addr) (count + 1)) rfl,
      hSound.bucketDepth]
    by_cases hSame : toBucket k addr = b
    · subst hSame
      have hSet :
          (sys.issuer.buckets.set (toBucket k addr).toNat
            (count + 1))[(toBucket k addr).toNat]? = some (count + 1) :=
        List.getElem?_set_self (List.getElem?_eq_some_iff.mp hGet).1
      cases hSet.symm.trans hOther
      rw [if_pos rfl, hNext]
      omega
    · have hNe : (toBucket k addr).toNat ≠ b.toNat := fun hEq => hSame (UInt32.toNat_inj.mp hEq)
      have hOld : sys.issuer.buckets[b.toNat]? = some other :=
        (List.getElem?_set_ne hNe).symm.trans hOther
      rw [if_neg hSame]
      exact hSound.counted b other hOld
  · refine StampIssuer.largest_count hSound.largest hGet ?_
    rw [UInt32.lt_iff_toNat_lt, hNext]
    exact Nat.lt_succ_self _
  · intro call hMem
    rcases List.mem_append.mp hMem with hMem | hMem
    · rcases hSound.given call hMem with ⟨j, hIndex, hLt⟩ | hFull
      · rw [hGranted]
        exact Or.inl ⟨j, hIndex, by omega⟩
      · exact Or.inr hFull
    · rw [List.mem_singleton.mp hMem, hGranted, if_pos rfl]
      refine Or.inl ⟨count, rfl, ?_⟩
      dsimp only
      omega
  · -- earlier indexes of the bucket are smaller
    have hNew : (toBucket k addr, count) ∉ sys.calls.filterMap StampCall.pair := by
      intro hMem
      rcases List.mem_filterMap.mp hMem with ⟨call, hCall, hPair⟩
      rcases hSound.given call hCall with ⟨j, hIndex, hLt⟩ | hFull
      · unfold StampCall.pair at hPair
        rw [hIndex] at hPair
        simp only [bytesToIndex_indexToBytes, Option.some.injEq, Prod.mk.injEq] at hPair
        rw [hPair.1, hPair.2] at hLt
        omega
      · unfold StampCall.pair at hPair
        rw [hFull] at hPair
        cases hPair
    rw [List.filterMap_append, List.filterMap_cons_some (pair_ok _ _ _), List.filterMap_nil]
    exact List.nodup_append.mpr ⟨hSound.distinct,
      List.nodup_singleton _, fun pair hMem other hOther hEq => by
        rw [List.mem_singleton.mp hOther] at hEq
        exact hNew (hEq ▸ hMem)⟩
  · intro call hMem s hStamp
    rcases List.mem_append.mp hMem with hMem | hMem
    · exact hSound.signed call hMem s hStamp
    · rw [List.mem_singleton.mp hMem] at hStamp
      cases hStamp

/- Replacing an element by one with the same image. -/
theorem map_set_of_eq {α β : Type} {l : List α} {i : Nat} {x y : α} (hGet : l[i]? = some x)
    (f : α → β) (hSame : f y = f x) : (l.set i y).map f = l.map f := by
  apply List.ext_getElem?
  intro j
  rw [List.map_set, hSame, List.getElem?_set]
  split
  · next hEq =>
      subst hEq
      have hLt := (List.getElem?_eq_some_iff.mp hGet).1
      rw [List.length_map, if_pos hLt, List.getElem?_map, hGet, Option.map_some]
  · rfl

/- Counts and lists that do not look at the stamps. -/
theorem countP_set_of_eq {α : Type} {l : List α} {i : Nat} {x y : α} (hGet : l[i]? = some x)
    (p : α → Bool) (hSame : p y = p x) : (l.set i y).countP p = l.countP p := by
  have hMap := map_set_of_eq hGet p hSame
  have hCount := congrArg (List.countP id) hMap
  rw [List.countP_map, List.countP_map] at hCount
  exact hCount

theorem filterMap_set_of_eq {α β : Type} {l : List α} {i : Nat} {x y : α} (hGet : l[i]? = some x)
    (f : α → Option β) (hSame : f y = f x) : (l.set i y).filterMap f = l.filterMap f := by
  have hMap := map_set_of_eq hGet f hSame
  have hFilter := congrArg (List.filterMap id) hMap
  rw [List.filterMap_map, List.filterMap_map] at hFilter
  exact hFilter

/- A signature does not change what calls were given. -/
theorem Issuing.Sound.sign (hSound : sys.Sound signer d k)
    (hStep : StampStep signer (.sign i timestamp) sys sys') : sys'.Sound signer d k := by
  rcases hStep with ⟨call, index, hGet, hIndex, -, rfl⟩
  have hMem : call ∈ sys.calls := List.mem_of_getElem? hGet
  have hGranted (stamp : Option (Stamp crypto)) (b : UInt32) :
      Issuing.granted { sys with calls := sys.calls.set i { call with stamp := stamp } } b =
        sys.granted b :=
    countP_set_of_eq hGet _ rfl
  have hRequested (stamp : Option (Stamp crypto)) (b : UInt32) :
      Issuing.requested { sys with calls := sys.calls.set i { call with stamp := stamp } } b =
        sys.requested b :=
    countP_set_of_eq hGet _ rfl
  refine { hSound with counted := ?_, given := ?_, distinct := ?_, signed := ?_ }
  · intro b count hCount
    rw [hGranted, hRequested]
    exact hSound.counted b count hCount
  · intro other hOther
    rw [hGranted]
    rcases List.mem_or_eq_of_mem_set hOther with hOld | rfl
    · exact hSound.given other hOld
    · exact hSound.given call hMem
  · rw [filterMap_set_of_eq hGet StampCall.pair (by rfl)]
    exact hSound.distinct
  · intro other hOther s hStamp
    rcases List.mem_or_eq_of_mem_set hOther with hOld | rfl
    · exact hSound.signed other hOld s hStamp
    · exact ⟨index, timestamp, hIndex, (Option.some.inj hStamp).symm⟩

/- Every step keeps the counts exact. -/
theorem Issuing.Sound.step (hDepths : Depths d k) (hSound : sys.Sound signer d k)
    (hStep : StampStep signer op sys sys') : sys'.Sound signer d k := by
  cases op with
  | inc addr =>
    rcases inc_spec hSound hDepths addr with ⟨count, hGet, hInc⟩
    simp only [StampStep, hInc] at hStep
    by_cases hFull : count.toNat = 2 ^ (d.toNat - k.toNat)
    · rw [if_pos hFull] at hStep
      subst hStep
      exact hSound.refuse hGet hFull
    · rw [if_neg hFull] at hStep
      subst hStep
      exact hSound.grant hDepths hGet hFull
  | sign i timestamp => exact hSound.sign hStep

end

---- Issued Stamps

open KeyValue Program Swarm

variable {crypto : Crypto} {signer : Signer crypto}
variable {sys : Issuing crypto} {d k : UInt8}

/- The bucket and the index of an issued stamp. -/
def StampCall.issuedPair (call : StampCall crypto) : Option (UInt32 × UInt32) :=
  call.stamp.map fun s => bytesToIndex s.index

theorem filterMap_sublist_filterMap {α β : Type} {f g : α → Option β} {l : List α}
    (hLess : ∀ x ∈ l, ∀ y, f x = some y → g x = some y) :
    (l.filterMap f).Sublist (l.filterMap g) := by
  induction l with
  | nil => exact List.Sublist.slnil
  | cons x l ih =>
    have hRest := ih fun y hMem => hLess y (List.mem_cons_of_mem x hMem)
    cases hF : f x with
    | none =>
      rw [List.filterMap_cons_none hF]
      cases hG : g x with
      | none =>
        rw [List.filterMap_cons_none hG]
        exact hRest
      | some z =>
        rw [List.filterMap_cons_some hG]
        exact hRest.cons z
    | some z =>
      have hG := hLess x List.mem_cons_self z hF
      rw [List.filterMap_cons_some hF, List.filterMap_cons_some hG]
      exact hRest.cons_cons z

section

variable (hSound : sys.Sound signer d k)
include hSound

/- A stamp has the pair that its call was given. -/
theorem Issuing.Sound.pair_of_issuedPair
    (hMem : call ∈ sys.calls) (hIssued : call.issuedPair = some pair) : call.pair = some pair := by
  rcases Option.map_eq_some_iff.mp hIssued with ⟨s, hStamp, hPair⟩
  rcases hSound.signed call hMem s hStamp with ⟨index, timestamp, hIndex, rfl⟩
  unfold StampCall.pair
  rw [hIndex]
  exact congrArg some hPair

/- Calls that were given an index have a stamp, or sign it. -/
theorem Issuing.Sound.issued_add_signing (b : UInt32) :
    sys.issued b + sys.signing b = sys.granted b := by
  have hPair : ∀ call ∈ sys.calls, call.stamp.isSome → call.pair.isSome := by
    intro call hMem hSome
    rcases Option.isSome_iff_exists.mp hSome with ⟨s, hStamp⟩
    have hIssued : call.issuedPair = some (bytesToIndex s.index) := by
      unfold StampCall.issuedPair
      rw [hStamp, Option.map_some]
    rw [hSound.pair_of_issuedPair hMem hIssued]
    rfl
  unfold Issuing.issued Issuing.signing Issuing.granted
  generalize sys.calls = calls at hPair
  induction calls with
  | nil => rfl
  | cons call calls ih =>
    have hRest := ih fun other hMem => hPair other (List.mem_cons_of_mem call hMem)
    have hCall := hPair call List.mem_cons_self
    simp only [List.countP_cons, decide_eq_true_eq]
    cases hStamp : call.stamp with
    | none =>
      simp only [Option.isSome_none, Option.isNone_none,
        and_true, Bool.false_eq_true, and_false, if_false]
      omega
    | some s =>
      rw [hStamp] at hCall
      have hSome := hCall rfl
      simp only [hSome, Option.isSome_some, Option.isNone_some, and_true, Bool.false_eq_true,
        and_false, if_false]
      omega

/- No address falls into a bucket that does not exist. -/
theorem Issuing.Sound.absent (hDepths : Depths d k)
    (hGet : sys.issuer.buckets[b.toNat]? = none) : sys.requested b = 0 ∧ sys.granted b = 0 := by
  have hLe : 2 ^ k.toNat ≤ b.toNat := by
    rw [← hSound.length]
    exact List.getElem?_eq_none_iff.mp hGet
  have hNone : ∀ call : StampCall crypto, toBucket sys.issuer.bucketDepth call.addr ≠ b := by
    rintro call rfl
    rw [hSound.bucketDepth] at hLe
    have hLt := toBucket_lt hDepths.bucket_le call.addr
    omega
  constructor
  · apply List.countP_eq_zero.mpr
    intro call _ hEq
    exact hNone call (of_decide_eq_true hEq)
  · apply List.countP_eq_zero.mpr
    intro call _ hEq
    exact hNone call (of_decide_eq_true hEq).1

theorem Issuing.Sound.granted_eq (hDepths : Depths d k)
    (b : UInt32) : sys.granted b = min (sys.requested b) (2 ^ (d.toNat - k.toNat)) := by
  cases hGet : sys.issuer.buckets[b.toNat]? with
  | some count =>
    rcases hSound.counted b count hGet with ⟨hCount, hMin⟩
    exact hCount.symm.trans hMin
  | none =>
    rcases hSound.absent hDepths hGet with ⟨hRequested, hGranted⟩
    rw [hRequested, hGranted, Nat.zero_min]

/- The utilization is the largest count of stamps. -/
theorem Issuing.Sound.utilization_isGreatest
    (hDepths : Depths d k) : IsGreatest (Set.range sys.granted) sys.issuer.utilization.toNat := by
  constructor
  · rcases List.mem_iff_getElem?.mp hSound.largest.2 with ⟨i, hGet⟩
    have hLt : i < 2 ^ k.toNat := by
      rw [← hSound.length]
      exact (List.getElem?_eq_some_iff.mp hGet).1
    have hLe : 2 ^ k.toNat ≤ 2 ^ 32 := Nat.pow_le_pow_right (by omega) hDepths.bucket_le
    have hIndex : (UInt32.ofNat i).toNat = i := by
      rw [UInt32.toNat_ofNat', Nat.mod_eq_of_lt]
      omega
    rw [← hIndex] at hGet
    exact ⟨UInt32.ofNat i, (hSound.counted _ _ hGet).1.symm⟩
  · rintro _ ⟨b, rfl⟩
    cases hGet : sys.issuer.buckets[b.toNat]? with
    | some count =>
      rw [← (hSound.counted b count hGet).1]
      exact UInt32.le_iff_toNat_le.mp (hSound.largest.1 count (List.mem_of_getElem? hGet))
    | none =>
      rw [(hSound.absent hDepths hGet).2]
      exact Nat.zero_le _

/- A stamp of a call is valid for its address. -/
theorem Issuing.Sound.valid (hDepths : Depths d k) (hMem : call ∈ sys.calls)
    (hStamp : call.stamp = some s) :
    s.valid call.addr (crypto.ethereumAddress signer.publicKey) d k = .ok () := by
  rcases hSound.signed call hMem s hStamp with ⟨index, timestamp, hIndex, rfl⟩
  rcases hSound.given call hMem with ⟨j, hGiven, hLt⟩ | hFull
  · rw [hGiven] at hIndex
    cases hIndex
    apply valid_signStamp
    rw [UInt32.lt_iff_toNat_lt, hDepths.toNat_capacity]
    have hGranted := hSound.granted_eq hDepths (toBucket k call.addr)
    omega
  · rw [hFull] at hIndex
    cases hIndex

end

/-
  In every interleaving of calls the issued stamps have different indexes, each bucket serves
  requests up to its capacity and refuses all others, and every stamp is valid.
-/
theorem stamps_exact (hDepths : Depths d k) (signer : Signer crypto) (label keyID : String)
    (batchID : BatchID) (batchAmount : Nat) (blockNumber : UInt64) (immutableFlag : Bool)
    (hReach :
      Reach (StampStep signer) (fun _ _ => True)
        ⟨.new label keyID batchID batchAmount d k blockNumber immutableFlag, []⟩ sys) :
    (sys.calls.filterMap StampCall.issuedPair).Nodup ∧
      (∀ b, sys.issued b + sys.signing b = min (sys.requested b) (2 ^ (d.toNat - k.toNat))) ∧
      (∀ call ∈ sys.calls, ∀ err, call.index = .error err → err = .bucketFull) ∧
      IsGreatest (Set.range fun b => sys.issued b + sys.signing b) sys.issuer.utilization.toNat ∧
      ∀ call ∈ sys.calls, ∀ s, call.stamp = some s →
        s.valid call.addr (crypto.ethereumAddress signer.publicKey) d k = .ok () := by
  have hSound : sys.Sound signer d k :=
    hReach.invariant (fun sys => sys.Sound signer d k)
      sound_new
      fun _ _ _ hSound _ hStep => hSound.step hDepths hStep
  refine ⟨?_, fun b => ?_, fun call hMem err hErr => ?_, ?_,
    fun call hMem s hStamp => hSound.valid hDepths hMem hStamp⟩
  · refine List.Nodup.sublist ?_ hSound.distinct
    apply filterMap_sublist_filterMap
    exact fun call hMem pair => hSound.pair_of_issuedPair hMem
  · rw [hSound.issued_add_signing]
    exact hSound.granted_eq hDepths b
  · rcases hSound.given call hMem with ⟨j, hGiven, -⟩ | hFull
    · rw [hGiven] at hErr
      cases hErr
    · rw [hFull] at hErr
      exact (Except.error.inj hErr).symm
  · simp only [hSound.issued_add_signing]
    exact hSound.utilization_isGreatest hDepths

/- Signatures that are the text itself. -/
def plainCrypto : Crypto where
  Digest := List UInt8
  Sig := List UInt8
  PublicKey := Unit
  hash := id
  recover := fun sig digest =>
    if sig = digest then some () else none
  ethereumAddress := fun _ => 0

def plainSigner : Signer plainCrypto where
  publicKey := ()
  sign := id
  recover_sign := fun _ => if_pos rfl

/- Two buckets for two stamps each. -/
def smallIssuer : StampIssuer :=
  .new "" "" 0 0 2 1 0 false

theorem stamps_exact_two :
    Depths 2 1 ∧
      ∃ sys : Issuing plainCrypto,
        sys.calls.map StampCall.issuedPair = [some (0, 0), none] ∧
          (sys.calls.filterMap StampCall.issuedPair).Nodup ∧
          ∀ b, sys.issued b + sys.signing b = min (sys.requested b) (2 ^ (2 - 1)) := by
  have hDepths : Depths 2 1 := ⟨by decide, by decide, by decide⟩
  let first : Issuing plainCrypto := ⟨smallIssuer.count 0 1, [⟨0, .ok (indexToBytes 0 0), none⟩]⟩
  let signed : Issuing plainCrypto :=
    ⟨smallIssuer.count 0 1,
      [⟨0, .ok (indexToBytes 0 0), some (signStamp plainSigner 0 0 (indexToBytes 0 0) [])⟩]⟩
  let second : Issuing plainCrypto :=
    ⟨(smallIssuer.count 0 1).count 0 2, signed.calls ++ [⟨1, .ok (indexToBytes 0 1), none⟩]⟩
  have hFirst : StampStep plainSigner (.inc 0) ⟨smallIssuer, []⟩ first := by rfl
  have hSigned : StampStep plainSigner (.sign 0 []) first signed := ⟨_, _, rfl, rfl, rfl, rfl⟩
  have hInc :
      (smallIssuer.count 0 1).inc 1 =
        .ok ((smallIssuer.count 0 1).count 0 2, indexToBytes 0 1) := by
    rfl
  have hSecond : StampStep plainSigner (.inc 1) signed second := by
    simp only [StampStep, signed, hInc, second]
  have hReach : Reach (StampStep plainSigner) (fun _ _ => True) ⟨smallIssuer, []⟩ second :=
    .step (.inc 1) (.step (.sign 0 []) (.step (.inc 0) .start
      trivial hFirst) trivial hSigned) trivial hSecond
  have hExact := stamps_exact hDepths plainSigner "" "" 0 0 0 false hReach
  exact ⟨hDepths, second, rfl, hExact.1, hExact.2.1⟩

end Sana.Postage

---- Keys

namespace Sana.Postage

open KeyValue

variable {store : IssuerStore}

/- `%d` -/
def decimal (n : Int) : List Char :=
  n.repr.toList

/- The base key of the issuers of a chain. -/
def key (chainID : Int64) : List Char :=
  "postage".toList ++ decimal chainID.toInt

def keyForIndex (chainID : Int64) (i : Nat) : List Char :=
  key chainID ++ decimal i

theorem decimal_injective : Function.Injective decimal := by
  intro m n hEq
  exact Int.repr_inj.mp (String.toList_injective hEq)

theorem decimal_ne_nil (i : Nat) : decimal i ≠ [] := by
  have hDecimal : decimal i = Nat.toDigits 10 i := Nat.toList_repr
  rw [hDecimal]
  exact Nat.toDigits_ne_nil

theorem key_injective : Function.Injective key := by
  intro x y hEq
  have hDecimal := List.append_cancel_left hEq
  exact Int64.toInt_inj.mp (decimal_injective hDecimal)

theorem keyForIndex_injective (chainID : Int64) : Function.Injective (keyForIndex chainID) := by
  intro i j hEq
  have hDecimal := List.append_cancel_left hEq
  exact Int.ofNat.inj (decimal_injective hDecimal)

theorem key_prefix_keyForIndex (chainID : Int64) (i : Nat) :
    key chainID <+: keyForIndex chainID i :=
  List.prefix_append _ _

/- A number that ends in zero is a shorter number and a zero. -/
theorem decimal_of_append_zero {i : Nat} (hEq : s ++ decimal (0 : Nat) = decimal i)
    (hNe : s ≠ []) : s = decimal (i / 10 : Nat) ∧ i / 10 < i := by
  have hDecimal : ∀ n : Nat, decimal n = Nat.toDigits 10 n := fun _ => Nat.toList_repr
  have hZero : Nat.toDigits 10 0 = ['0'] := rfl
  rw [hDecimal, hDecimal, hZero] at hEq
  rw [hDecimal]
  by_cases hLt : i < 10
  · rw [Nat.toDigits_of_lt_base hLt] at hEq
    have hLength := congrArg List.length hEq
    rw [List.length_append, List.length_singleton, List.length_singleton] at hLength
    exact absurd (List.length_eq_zero_iff.mp (by omega)) hNe
  · rw [Nat.toDigits_of_base_le (by omega) (by omega)] at hEq
    exact ⟨(List.append_inj' hEq rfl).1, by omega⟩

---- Services

/- The entries of the state store that hold stamp issuers. -/
abbrev IssuerStore :=
  Index (List Char) StampIssuer

inductive StateErr where
  /- `storage.ErrNotFound` -/
  | notFound
  deriving DecidableEq, Repr

/- A postage service; no batch has two issuers. -/
@[ext]
structure Service where
  chainID : Int64
  issuers : List StampIssuer
  distinct : (issuers.map StampIssuer.batchID).Nodup

namespace Service

def empty (chainID : Int64) : Service where
  chainID := chainID
  issuers := []
  distinct := List.nodup_nil

def add (ps : Service) (st : StampIssuer) : Service :=
  if hMem : st.batchID ∈ ps.issuers.map StampIssuer.batchID then ps
  else
    { ps with
      issuers := ps.issuers ++ [st]
      distinct := by
        rw [List.map_append, List.map_singleton]
        refine List.nodup_append.mpr ⟨ps.distinct, List.nodup_singleton _, ?_⟩
        intro id hId other hOther hEq
        rw [List.mem_singleton.mp hOther] at hEq
        exact hMem (hEq ▸ hId) }

def close (ps : Service) (store : IssuerStore) : IssuerStore :=
  store.putAll (keyForIndex ps.chainID) 0 ps.issuers

end Service

/- The second loop of `NewService`. -/
def load (store : IssuerStore) (s : Service) : List Nat → Except StateErr Service
  | [] => .ok s
  | i :: rest =>
    match store.get (keyForIndex s.chainID i) with
    | none => .error .notFound
    | some st => load store (s.add st) rest

def newService (store : IssuerStore) (chainID : Int64) : Except StateErr Service :=
  let n := (store.branch (key chainID)).length
  load store (.empty chainID) (List.range n)

---- Loading

section

variable {chainID : Int64}
variable {s s' : Service}

section

variable (s : Service) (st : StampIssuer)

theorem Service.chainID_add : (s.add st).chainID = s.chainID := by
  unfold Service.add
  split <;> rfl

/- Adding keeps the issuers, and a first one is added. -/
theorem Service.issuers_prefix_add : s.issuers <+: (s.add st).issuers := by
  unfold Service.add
  split
  · exact List.prefix_refl _
  · exact List.prefix_append _ _

theorem Service.issuers_add_ne_nil : (s.add st).issuers ≠ [] := by
  unfold Service.add
  split
  · next hMem =>
      intro hNil
      rw [hNil] at hMem
      exact List.not_mem_nil hMem
  · exact List.append_ne_nil_of_right_ne_nil _ (List.cons_ne_nil _ _)

end

/- What a successful loop has read. -/
theorem has_of_load (hLoad : load store s rest = .ok s') :
    ∀ i ∈ rest, store.has (keyForIndex s.chainID i) = true := by
  induction rest generalizing s with
  | nil => exact fun i hMem => (List.not_mem_nil hMem).elim
  | cons first rest ih =>
    unfold load at hLoad
    split at hLoad
    · cases hLoad
    · next st hGet =>
        intro i hMem
        rcases List.mem_cons.mp hMem with rfl | hMem
        · exact (Index.has_eq_true_iff _ _).mpr ⟨st, hGet⟩
        · have hRest := ih hLoad i hMem
          rw [s.chainID_add] at hRest
          exact hRest

/- The loop keeps the issuers it has. -/
theorem issuers_prefix_load (hLoad : load store s rest = .ok s') : s.issuers <+: s'.issuers := by
  induction rest generalizing s with
  | nil =>
    cases hLoad
    exact List.prefix_refl _
  | cons first rest ih =>
    unfold load at hLoad
    split at hLoad
    · cases hLoad
    · next st _ =>
        exact (s.issuers_prefix_add st).trans (ih hLoad)

/- The loop reads a list of different issuers in order. -/
theorem load_eq_ok (hChain : s.chainID = final.chainID) (hSplit : s.issuers ++ rest = final.issuers)
    (hGet :
      ∀ i < final.issuers.length, store.get (keyForIndex final.chainID i) = final.issuers[i]?) :
    load store s (List.range' s.issuers.length rest.length) = .ok final := by
  induction rest generalizing s with
  | nil =>
    rw [List.append_nil] at hSplit
    exact congrArg Except.ok (Service.ext hChain hSplit)
  | cons st rest ih =>
    have hLt : s.issuers.length < final.issuers.length := by
      rw [← hSplit, List.length_append, List.length_cons]
      omega
    have hStored := hGet _ hLt
    rw [← hSplit, List.getElem?_append_right le_rfl,
      Nat.sub_self] at hStored
    have hNew : st.batchID ∉ s.issuers.map StampIssuer.batchID := by
      have hDistinct := final.distinct
      rw [← hSplit, List.map_append] at hDistinct
      intro hMem
      exact (List.nodup_append.mp hDistinct).2.2 _ hMem _ List.mem_cons_self rfl
    have hAdd : (s.add st).issuers = s.issuers ++ [st] := by
      unfold Service.add
      rw [dif_neg hNew]
    rw [List.length_cons, List.range'_succ]
    unfold load
    rw [hChain, hStored]
    have hRest :=
      ih (s := s.add st) ((s.chainID_add st).trans hChain)
        (by rw [hAdd, List.append_assoc]; exact hSplit)
    rw [hAdd, List.length_append] at hRest
    exact hRest

/- A chain whose branch has its issuers only is read back. -/
theorem newService_eq_ok
    (hGet : ∀ i < final.issuers.length, store.get (keyForIndex final.chainID i) = final.issuers[i]?)
    (hOnly :
      ∀ k, store.has k = true → key final.chainID <+: k →
        ∃ i < final.issuers.length, keyForIndex final.chainID i = k) :
    newService store final.chainID = .ok final := by
  have hLength : (store.branch (key final.chainID)).length = final.issuers.length := by
    apply Index.length_branch (keyForIndex_injective final.chainID)
    intro k
    refine ⟨fun hBoth => hOnly k hBoth.1 hBoth.2, ?_⟩
    rintro ⟨i, hLt, rfl⟩
    refine ⟨(Index.has_eq_true_iff _ _).mpr ⟨final.issuers[i], ?_⟩, key_prefix_keyForIndex _ _⟩
    rw [hGet i hLt, List.getElem?_eq_getElem hLt]
  unfold newService
  dsimp only
  rw [hLength, List.range_eq_range']
  exact load_eq_ok (s := .empty final.chainID) rfl rfl hGet

/- When a chain can be read at all, its branch has the keys of issuers only. -/
theorem names_of_newService (hNew : newService store chainID = .ok s)
    (hHas : store.has k = true) (hKey : key chainID <+: k) :
    ∃ i < (store.branch (key chainID)).length, keyForIndex chainID i = k := by
  apply Index.exists_name_of_mem_branch (keyForIndex_injective chainID)
    (key_prefix_keyForIndex chainID) _ hHas hKey
  intro i hLt
  exact has_of_load hNew i (List.mem_range.mpr hLt)

/- A service without issuers has found no keys. -/
theorem issuers_ne_nil_of_newService (hNew : newService store chainID = .ok s)
    (hHas : store.has k = true) (hKey : key chainID <+: k) : s.issuers ≠ [] := by
  rcases names_of_newService hNew hHas hKey with ⟨i, hLt, -⟩
  unfold newService at hNew
  dsimp only at hNew
  obtain ⟨n, hN⟩ := Nat.exists_eq_succ_of_ne_zero (Nat.ne_zero_of_lt hLt)
  rw [hN, List.range_succ_eq_map] at hNew
  unfold load at hNew
  split at hNew
  · cases hNew
  · next st _ =>
      intro hNil
      have hPrefix := issuers_prefix_load hNew
      rw [hNil] at hPrefix
      exact Service.issuers_add_ne_nil _ st (List.prefix_nil.mp hPrefix)

end

---- Two Chains

variable {x y : Service}

/- Two chains can both be read only if the key of neither continues that of the other. -/
theorem not_key_prefix_of_newService (hNe : a ≠ b)
    (hA : newService store a = .ok resA) (hB : newService store b = .ok resB)
    (hFirst : store.has (keyForIndex b 0) = true) : ¬ key a <+: key b := by
  rintro ⟨s, hS⟩
  have hNotNil : s ≠ [] := by
    rintro rfl
    rw [List.append_nil] at hS
    exact hNe (key_injective hS)
  -- the first key of `b` is the key of an issuer of `a`
  have hPrefix : key a <+: keyForIndex b 0 :=
    List.IsPrefix.trans ⟨s, hS⟩ (key_prefix_keyForIndex b 0)
  rcases names_of_newService hA hFirst hPrefix with ⟨i, hLt, hEq⟩
  have hDigits : s ++ decimal (0 : Nat) = decimal i := by
    unfold keyForIndex at hEq
    rw [← hS, List.append_assoc] at hEq
    exact (List.append_cancel_left hEq).symm
  rcases decimal_of_append_zero hDigits hNotNil with ⟨hTenth, hSmaller⟩
  -- so is the base key of `b`, which `b` cannot read
  have hBase : store.has (key b) = true := by
    have hHas := has_of_load hA (i / 10) (List.mem_range.mpr (hSmaller.trans hLt))
    rw [← hS, hTenth]
    exact hHas
  rcases names_of_newService hB hBase (List.prefix_refl _) with ⟨j, -, hSelf⟩
  exact decimal_ne_nil j (List.append_right_eq_self.mp hSelf)

/- The keys of the issuers of `b` are not in the branch of `a`. -/
theorem not_prefix_of_newService (hNe : a.chainID ≠ b.chainID)
    (hA : newService store a.chainID = .ok a) (hB : newService store b.chainID = .ok b)
    (hHasA : ∀ i < a.issuers.length, store.has (keyForIndex a.chainID i) = true)
    (hHasB : ∀ j < b.issuers.length, store.has (keyForIndex b.chainID j) = true)
    (hJ : j < b.issuers.length) : ¬ key a.chainID <+: keyForIndex b.chainID j := by
  intro hPrefix
  rcases List.prefix_or_prefix_of_prefix hPrefix
      (key_prefix_keyForIndex b.chainID j) with hLeft | hRight
  · exact not_key_prefix_of_newService hNe hA hB (hHasB 0 (Nat.zero_lt_of_lt hJ)) hLeft
  · -- then `a` has read an issuer, and has one
    have hNotNil := issuers_ne_nil_of_newService hA (hHasB j hJ) hPrefix
    exact not_key_prefix_of_newService hNe.symm hB hA
      (hHasA 0 (List.length_pos_iff.mpr hNotNil)) hRight

/- What a store has after a service was closed. -/
theorem Service.has_close_iff (s : Service) :
    (s.close store).has k = true ↔
      (∃ i < s.issuers.length, keyForIndex s.chainID i = k) ∨ store.has k = true := by
  by_cases hName : ∃ i < s.issuers.length, keyForIndex s.chainID i = k
  · refine ⟨fun _ => Or.inl hName, fun _ => ?_⟩
    rcases hName with ⟨i, hLt, rfl⟩
    have hGet := Index.get_putAll_name (keyForIndex_injective s.chainID) store 0 s.issuers hLt
    rw [Nat.zero_add, List.getElem?_eq_getElem hLt] at hGet
    exact (Index.has_eq_true_iff _ _).mpr ⟨_, hGet⟩
  · have hGet : (s.close store).get k = store.get k := by
      apply Index.get_putAll_of_ne
      intro i hLt hEq
      rw [Nat.zero_add] at hEq
      exact hName ⟨i, hLt, hEq⟩
    unfold Index.has
    rw [hGet]
    exact ⟨Or.inr, fun hOr => hOr.resolve_left hName⟩

/- The issuers that the store has of the two chains are replaced when the services are closed. -/
def Replaced (store : IssuerStore) (x y : Service) : Prop :=
  ∀ k, store.has k = true → key x.chainID <+: k ∨ key y.chainID <+: k →
    (∃ i < x.issuers.length, keyForIndex x.chainID i = k) ∨
      ∃ j < y.issuers.length, keyForIndex y.chainID j = k

/-
  The number of no issuer of one chain, behind the number of that chain, starts with the number of
  the other chain.
-/
def DigitsApart (x y : Service) : Prop :=
  (∀ j < y.issuers.length, ¬ decimal x.chainID.toInt <+: decimal y.chainID.toInt ++ decimal j) ∧
    ∀ i < x.issuers.length, ¬ decimal y.chainID.toInt <+: decimal x.chainID.toInt ++ decimal i

theorem key_prefix_keyForIndex_iff :
    key a <+: keyForIndex b j ↔ decimal a.toInt <+: decimal b.toInt ++ decimal j := by
  exact List.prefix_append_right_inj _

/- Both chains are read back exactly when their digits keep their keys apart. -/
theorem close_apart_iff (store : IssuerStore) (x y : Service) (hNe : x.chainID ≠ y.chainID)
    (hReplaced : Replaced store x y) :
    (newService (y.close (x.close store)) x.chainID = .ok x ∧
      newService (y.close (x.close store)) y.chainID = .ok y) ↔ DigitsApart x y := by
  have hHasX :
      ∀ i < x.issuers.length, (y.close (x.close store)).has (keyForIndex x.chainID i) = true := by
    intro i hLt
    rw [y.has_close_iff, x.has_close_iff]
    exact Or.inr (Or.inl ⟨i, hLt, rfl⟩)
  have hHasY :
      ∀ j < y.issuers.length, (y.close (x.close store)).has (keyForIndex y.chainID j) = true := by
    intro j hLt
    rw [y.has_close_iff]
    exact Or.inl ⟨j, hLt, rfl⟩
  have hOnly :
      ∀ k, (y.close (x.close store)).has k = true → key x.chainID <+: k ∨ key y.chainID <+: k →
        (∃ i < x.issuers.length, keyForIndex x.chainID i = k) ∨
          ∃ j < y.issuers.length, keyForIndex y.chainID j = k := by
    intro k hHas hKey
    rw [y.has_close_iff, x.has_close_iff] at hHas
    rcases hHas with hY | hX | hOld
    · exact Or.inr hY
    · exact Or.inl hX
    · exact hReplaced k hOld hKey
  unfold DigitsApart
  simp only [← key_prefix_keyForIndex_iff]
  constructor
  · rintro ⟨hX, hY⟩
    exact ⟨fun j hJ =>
        not_prefix_of_newService hNe hX hY hHasX hHasY hJ,
      fun i hI => not_prefix_of_newService hNe.symm hY hX hHasY hHasX hI⟩
  · rintro ⟨hX, hY⟩
    constructor
    · apply newService_eq_ok
      · intro i hLt
        have hOther :
            (y.close (x.close store)).get (keyForIndex x.chainID i) =
              (x.close store).get (keyForIndex x.chainID i) := by
          apply Index.get_putAll_of_ne
          intro j hJ hEq
          rw [Nat.zero_add] at hEq
          apply hX j hJ
          rw [hEq]
          exact key_prefix_keyForIndex _ _
        rw [hOther]
        have hGet := Index.get_putAll_name (keyForIndex_injective x.chainID) store 0 x.issuers hLt
        rw [Nat.zero_add] at hGet
        exact hGet
      · intro k hHas hKey
        refine (hOnly k hHas (Or.inl hKey)).resolve_right ?_
        rintro ⟨j, hJ, rfl⟩
        exact hX j hJ hKey
    · apply newService_eq_ok
      · intro j hLt
        have hGet := Index.get_putAll_name (keyForIndex_injective y.chainID) (x.close store) 0
          y.issuers hLt
        rw [Nat.zero_add] at hGet
        exact hGet
      · intro k hHas hKey
        refine (hOnly k hHas (Or.inr hKey)).resolve_left ?_
        rintro ⟨i, hI, rfl⟩
        exact hY i hI hKey

/- A service with one issuer. -/
def oneIssuer (chainID : Int64) : Service where
  chainID := chainID
  issuers := [.new "" "" 0 0 17 16 0 false]
  distinct := List.nodup_singleton _

theorem close_apart_iff_two :
    (oneIssuer 1).chainID ≠ (oneIssuer 2).chainID ∧ Replaced .empty (oneIssuer 1) (oneIssuer 2) ∧
      newService ((oneIssuer 2).close ((oneIssuer 1).close .empty)) 1 = .ok (oneIssuer 1) := by
  have hNe : (oneIssuer 1).chainID ≠ (oneIssuer 2).chainID := by decide
  have hReplaced : Replaced .empty (oneIssuer 1) (oneIssuer 2) := by
    intro k hHas
    cases hHas
  have hApart : DigitsApart (oneIssuer 1) (oneIssuer 2) := by constructor <;> decide +kernel
  exact ⟨hNe, hReplaced,
    ((close_apart_iff .empty (oneIssuer 1) (oneIssuer 2) hNe hReplaced).mpr hApart).1⟩

/- Chain 10 is stored where chain 1 looks for its issuers. -/
theorem close_not_apart :
    ¬ ∀ x y : Service, x.chainID ≠ y.chainID →
      newService (y.close (x.close .empty)) x.chainID = .ok x ∧
        newService (y.close (x.close .empty)) y.chainID = .ok y := by
  intro hAll
  have hNe : (oneIssuer 1).chainID ≠ (oneIssuer 10).chainID := by decide
  rcases hAll (oneIssuer 1) (oneIssuer 10) hNe with ⟨hOne, hTen⟩
  refine not_key_prefix_of_newService hNe hOne hTen ?_ ?_
  · rw [Service.has_close_iff]
    exact Or.inl ⟨0, Nat.zero_lt_one, rfl⟩
  · decide +kernel

end Sana.Postage
