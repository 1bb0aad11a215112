import Sana.KeyValue.Index

/-
  Swarm addresses and their proximity.

  Addresses are 32 bytes, read as 256-bit vectors in big endian order.

  The routing code works on addresses as byte strings of any length.  `distanceCmp` looks for the
  first byte in which two distances differ; `distanceCmp_eq` says that it compares the numbers that
  the XOR of the bytes stands for.

  Key definitions include:
    * `Address`
    * `maxPO`
-/

namespace Sana.Swarm

abbrev Address :=
  BitVec 256

/- The largest proximity order, `MaxPO`. -/
def maxPO : Nat :=
  31

/-
  The number of leading bits two addresses share.  The source looks at the first `MaxPO/8 + 1`
  bytes, most significant bit first, and returns `MaxPO` when it finds no difference there.
-/
def proximity (one other : Address) : Nat :=
  ((List.range ((maxPO / 8 + 1) * 8)).find? (fun i => (one ^^^ other).getMsbD i)).getD maxPO

theorem proximity_le (one other : Address) : proximity one other ≤ maxPO := by
  unfold proximity
  cases hFind : (List.range ((maxPO / 8 + 1) * 8)).find? (fun i => (one ^^^ other).getMsbD i) with
  | none => exact Nat.le_refl _
  | some i =>
    have hMem := List.mem_of_find?_eq_some hFind
    simp only [List.mem_range, maxPO] at hMem
    simp only [Option.getD_some, maxPO]
    omega

end Sana.Swarm

---- Distances

namespace Sana.Swarm

open KeyValue

variable {a x y : RawAddress}

/- An address with the bytes it is made of, of any length. -/
abbrev RawAddress :=
  List UInt8

/- The length of a hash, and of every node's address. -/
def hashSize : Nat :=
  32

/- The address that has no value. -/
def zeroAddress : RawAddress :=
  []

def RawAddress.isZero (address : RawAddress) : Bool :=
  address == zeroAddress

/- The error `address length must match`. -/
inductive DistanceErr where
  | lengthMustMatch
  deriving DecidableEq, Repr

/- Go through the bytes up to the first in which the distances of `x` and `y` from `a` differ. -/
def firstCloser : RawAddress → RawAddress → RawAddress → Int
| a :: as, x :: xs, y :: ys =>
  let dx := x ^^^ a
  let dy := y ^^^ a
  if dx = dy then firstCloser as xs ys
  else if dx < dy then 1
  else -1
| _, _, _ => 0

/-
  Compare `x` and `y` by their distance from `a`: `1` if `x` is closer, `-1` if `y` is closer, `0`
  if they are as far.
-/
def distanceCmp (a x y : RawAddress) : Except DistanceErr Int :=
  if a.length ≠ x.length ∨ a.length ≠ y.length then .error .lengthMustMatch
  else .ok (firstCloser a x y)

---- The Metric

section

variable {z : RawAddress}

/- The distance of two addresses of one length. -/
def xorDistance (x y : RawAddress) : Nat :=
  fromBigEndian (List.zipWith (· ^^^ ·) x y)

theorem xorDistance_cons :
    xorDistance (byte :: x) (byte' :: y) =
      (byte ^^^ byte').toNat * 256 ^ min x.length y.length + xorDistance x y := by
  rw [xorDistance, List.zipWith_cons_cons, fromBigEndian, List.length_zipWith]
  rfl

/- `x` is nearer to `a` than `y`, all of one length. -/
def Closer (a x y : RawAddress) : Prop :=
  x.length = a.length ∧ y.length = a.length ∧ xorDistance x a < xorDistance y a

instance (a x y : RawAddress) : Decidable (Closer a x y) := by
  unfold Closer
  infer_instance

theorem Closer.trans (hCloser : Closer a x y) (hCloser' : Closer a y z) : Closer a x z :=
  ⟨hCloser.1, hCloser'.2.1, hCloser.2.2.trans hCloser'.2.2⟩

theorem Closer.ne (hCloser : Closer a x y) : x ≠ y := by
  rintro rfl
  exact lt_irrefl _ hCloser.2.2

end

---- Comparing Distances

/- The first byte that differs decides between the numbers. -/
theorem firstCloser_eq (hX : x.length = a.length) (hY : y.length = a.length) :
    firstCloser a x y = if xorDistance x a < xorDistance y a then 1
      else if xorDistance y a < xorDistance x a then -1
      else 0 := by
  induction a generalizing x y with
  | nil =>
    rw [List.length_eq_zero_iff.mp hX, List.length_eq_zero_iff.mp hY]
    rfl
  | cons byte a ih =>
    cases x with
    | nil => cases hX
    | cons left x =>
      cases y with
      | nil => cases hY
      | cons right y =>
        have hX' := Nat.succ.inj hX
        have hY' := Nat.succ.inj hY
        have hLength :
            (List.zipWith (· ^^^ ·) x a).length = (List.zipWith (· ^^^ ·) y a).length := by
          rw [List.length_zipWith, List.length_zipWith, hX', hY']
        rw [firstCloser]
        by_cases hSame : left ^^^ byte = right ^^^ byte
        · rw [if_pos hSame, ih hX' hY']
          simp only [xorDistance_cons, hX', hY', hSame, Nat.add_lt_add_iff_left]
        · rw [if_neg hSame]
          by_cases hLt : left ^^^ byte < right ^^^ byte
          · have hCloser := fromBigEndian_cons_lt hLength hLt
            rw [if_pos hLt]
            exact (if_pos hCloser).symm
          · have hGt : right ^^^ byte < left ^^^ byte :=
              UInt8.lt_of_le_of_ne (UInt8.not_lt.mp hLt) (Ne.symm hSame)
            have hFarther := fromBigEndian_cons_lt hLength.symm hGt
            rw [if_neg hLt]
            exact ((if_neg hFarther.le.not_gt).trans (if_pos hFarther)).symm

/- The result compares the two distances. -/
theorem distanceCmp_eq (hX : x.length = a.length) (hY : y.length = a.length) :
    distanceCmp a x y = .ok (if xorDistance x a < xorDistance y a then 1
        else if xorDistance y a < xorDistance x a then -1
        else 0) := by
  rw [distanceCmp, if_neg (by rw [hX, hY]; simp), firstCloser_eq hX hY]

/- A comparison that returns found one length. -/
theorem length_eq_of_distanceCmp (hCmp : distanceCmp a x y = .ok order) :
    x.length = a.length ∧ y.length = a.length := by
  rw [distanceCmp] at hCmp
  split_ifs at hCmp with hLength
  rw [not_or, not_not, not_not] at hLength
  exact ⟨hLength.1.symm, hLength.2.symm⟩

theorem distanceCmp_eq_neg_one_iff : distanceCmp a x y = .ok (-1) ↔ Closer a y x := by
  constructor
  · intro hCmp
    obtain ⟨hX, hY⟩ := length_eq_of_distanceCmp hCmp
    rw [distanceCmp_eq hX hY] at hCmp
    refine ⟨hY, hX, ?_⟩
    by_contra hNot
    split_ifs at hCmp <;> cases hCmp
  · rintro ⟨hY, hX, hLt⟩
    rw [distanceCmp_eq hX hY, if_neg hLt.le.not_gt, if_pos hLt]

---- The Closest of Several

/-
  Go through addresses and keep the one closest to `addr` among those that are accepted, beginning
  with `closest`.
-/
def nearest (accept : RawAddress → Bool) (addr : RawAddress) :
    RawAddress → List RawAddress → Except DistanceErr RawAddress
| closest, [] => .ok closest
| closest, peer :: peers =>
  if accept peer then
    match distanceCmp addr closest peer with
    | .error err => .error err
    | .ok dcmp => nearest accept addr (if dcmp = -1 then peer else closest) peers
  else nearest accept addr closest peers

variable {accept : RawAddress → Bool}
variable {addr start closest : RawAddress}
variable {peers : List RawAddress}

/- What the comparison with one more address keeps: the start or an address that is closer. -/
theorem closer_or_eq_of_distanceCmp (hCmp : distanceCmp addr start peer = .ok dcmp) :
    ((if dcmp = -1 then peer else start) = start ∨
      (if dcmp = -1 then peer else start) = peer ∧ Closer addr peer start) ∧
    xorDistance (if dcmp = -1 then peer else start) addr ≤ xorDistance peer addr := by
  obtain ⟨hStart, hPeer⟩ := length_eq_of_distanceCmp hCmp
  by_cases hLess : dcmp = -1
  · rw [if_pos hLess]
    rw [hLess] at hCmp
    exact ⟨.inr ⟨rfl, distanceCmp_eq_neg_one_iff.mp hCmp⟩, le_rfl⟩
  · rw [if_neg hLess]
    refine ⟨.inl rfl, not_lt.mp fun hLt => hLess ?_⟩
    have hCmp' := distanceCmp_eq_neg_one_iff.mpr (⟨hPeer, hStart, hLt⟩ : Closer addr peer start)
    exact Except.ok.inj (hCmp.symm.trans hCmp')

section

variable (hNearest : nearest accept addr start peers = .ok closest)
include hNearest

/- The result is the start or an accepted closer address. -/
theorem nearest_eq_or_closer :
    closest = start ∨ closest ∈ peers ∧ accept closest = true ∧ Closer addr closest start := by
  induction peers generalizing start with
  | nil => exact .inl (Except.ok.inj hNearest).symm
  | cons peer peers ih =>
    rw [nearest] at hNearest
    by_cases hAccept : accept peer = true
    · rw [if_pos hAccept] at hNearest
      cases hCmp : distanceCmp addr start peer with
      | error err =>
        rw [hCmp] at hNearest
        cases hNearest
      | ok dcmp =>
        rw [hCmp] at hNearest
        obtain ⟨hKept, -⟩ := closer_or_eq_of_distanceCmp hCmp
        rcases ih hNearest with hSame | ⟨hMem, hOk, hLt⟩
        · rcases hKept with hStart | ⟨hPeer, hCloser⟩
          · exact .inl (hSame.trans hStart)
          · obtain rfl := hSame.trans hPeer
            exact .inr ⟨List.mem_cons_self .., hAccept, hCloser⟩
        · refine .inr ⟨List.mem_cons_of_mem _ hMem, hOk, ?_⟩
          rcases hKept with hStart | ⟨hPeer, hCloser⟩
          · rwa [hStart] at hLt
          · rw [hPeer] at hLt
            exact hLt.trans hCloser
    · rw [if_neg hAccept] at hNearest
      rcases ih hNearest with hSame | ⟨hMem, hOk, hLt⟩
      · exact .inl hSame
      · exact .inr ⟨List.mem_cons_of_mem _ hMem, hOk, hLt⟩

/- The result is at most as far as the start. -/
theorem nearest_le_start : xorDistance closest addr ≤ xorDistance start addr := by
  rcases nearest_eq_or_closer hNearest with rfl | ⟨_, _, hCloser⟩
  · exact le_rfl
  · exact hCloser.2.2.le

/- No accepted address is closer than the result. -/
theorem nearest_le (hMem : peer ∈ peers) (hAccept : accept peer = true) :
    xorDistance closest addr ≤ xorDistance peer addr := by
  induction peers generalizing start with
  | nil => cases hMem
  | cons other peers ih =>
    rw [nearest] at hNearest
    by_cases hOther : accept other = true
    · rw [if_pos hOther] at hNearest
      cases hCmp : distanceCmp addr start other with
      | error err =>
        rw [hCmp] at hNearest
        cases hNearest
      | ok dcmp =>
        rw [hCmp] at hNearest
        rcases List.mem_cons.mp hMem with rfl | hMem
        · exact (nearest_le_start hNearest).trans (closer_or_eq_of_distanceCmp hCmp).2
        · exact ih hNearest hMem
    · rw [if_neg hOther] at hNearest
      rcases List.mem_cons.mp hMem with rfl | hMem
      · exact absurd hAccept hOther
      · exact ih hNearest hMem

/- The start was compared if an address is accepted. -/
theorem length_start_of_nearest (hMem : peer ∈ peers) (hAccept : accept peer = true) :
    start.length = addr.length := by
  induction peers with
  | nil => cases hMem
  | cons other peers ih =>
    rw [nearest] at hNearest
    by_cases hOther : accept other = true
    · rw [if_pos hOther] at hNearest
      cases hCmp : distanceCmp addr start other with
      | error err =>
        rw [hCmp] at hNearest
        cases hNearest
      | ok dcmp => exact (length_eq_of_distanceCmp hCmp).1
    · rw [if_neg hOther] at hNearest
      rcases List.mem_cons.mp hMem with rfl | hMem
      · exact absurd hAccept hOther
      · exact ih hNearest hMem

/- The result of a comparison has the length of the target. -/
theorem length_of_nearest (hMem : peer ∈ peers) (hAccept : accept peer = true) :
    closest.length = addr.length := by
  rcases nearest_eq_or_closer hNearest with rfl | ⟨_, _, hCloser⟩
  · exact length_start_of_nearest hNearest hMem hAccept
  · exact hCloser.1

end

end Sana.Swarm
