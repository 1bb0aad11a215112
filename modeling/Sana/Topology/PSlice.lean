import Sana.Program.Buckets
import Sana.Swarm.Address

/-
  The table of peers, sorted by proximity order.

  A `PSlice` keeps its peers in one list, the peers of low proximity order first, and for every
  order the place in the list where its peers begin.  `PSlice.Valid` says that the places are right;
  new tables are valid, and adding and removing peers keeps them valid.  Then `eachBinRev` visits
  every peer once, in the order of the list.

  Key definitions include:
    * `PSlice`
    * `PSlice.add`

  Key theorems include:
    * `PSlice.Valid.remove`
-/

---- Proximity of Byte Strings

namespace Sana

namespace Swarm

/- Bit `j` of a byte is set, the most significant first. -/
def bitSet (byte : UInt8) (j : Nat) : Bool :=
  (byte >>> UInt8.ofNat (7 - j)) &&& 1 != 0

/-
  The number of leading bits two byte strings share, in the first `MaxPO/8 + 1` bytes of both;
  lengths are taken as `uint8`.
-/
def rawProximity (one other : RawAddress) : Nat :=
  let b := min (min (maxPO / 8 + 1) (one.length % 256)) (other.length % 256)
  ((List.range (b * 8)).find? (fun k =>
    bitSet (one.getD (k / 8) 0 ^^^ other.getD (k / 8) 0) (k % 8))).getD maxPO

end Swarm

---- The Table

namespace Topology

section

open Swarm
open Program (insertAt)

/- `MaxBins`, the number of bins of a table. -/
def maxBins : Nat :=
  maxPO + 1

/- The peers, and for each proximity order the index of its first peer. -/
structure PSlice where
  peers : List RawAddress
  bins : List Nat
  baseBytes : RawAddress
  deriving DecidableEq, Repr

namespace PSlice

def new (maxBins : Nat) (base : RawAddress) : PSlice where
  peers := []
  bins := List.replicate maxBins 0
  baseBytes := base

def length (s : PSlice) : Nat :=
  s.peers.length

def po (s : PSlice) (peer : RawAddress) : Nat :=
  let po := rawProximity s.baseBytes peer
  if s.bins.length ≤ po then s.bins.length - 1 else po

def «exists» (s : PSlice) (addr : RawAddress) : Bool :=
  s.peers.any (· == addr)

/- Bins of a higher order begin one place later. -/
def incDeeper (bins : List Nat) (po : Nat) : List Nat :=
  bins.mapIdx fun i start =>
    if po < i then start + 1 else start

/- Bins of a higher order begin one place earlier. -/
def decDeeper (bins : List Nat) (po : Nat) : List Nat :=
  bins.mapIdx fun i start =>
    if po < i then start - 1 else start

/- Put one new peer at the front of its bin. -/
def add (s : PSlice) (addr : RawAddress) : PSlice :=
  let po := s.po addr
  { s with
    peers := insertAt s.peers (s.bins.getD po 0) addr
    bins := incDeeper s.bins po }

/- Add peers up to the first one that is known: the source returns there and leaves the rest out. -/
def addAll (s : PSlice) : List RawAddress → PSlice
| [] => s
| addr :: addrs => if s.exists addr then s else (s.add addr).addAll addrs

def remove (s : PSlice) (addr : RawAddress) : PSlice :=
  if s.exists addr then
    { s with
      peers := s.peers.erase addr
      bins := decDeeper s.bins (s.po addr) }
  else s

/- Where the peers of a bin end. -/
def binEnd (s : PSlice) (i : Nat) : Nat :=
  if i = s.bins.length - 1 then s.peers.length
  else s.bins.getD (i + 1) 0

/- The peers from the first of a bin to its end. -/
def slice (s : PSlice) (i : Nat) : List RawAddress :=
  (s.peers.take (s.binEnd i)).drop (s.bins.getD i 0)

def binPeers (s : PSlice) (bin : Nat) : List RawAddress :=
  if s.bins.length ≤ bin then [] else s.slice bin

end PSlice

end

---- Iteration

section

open Swarm

/-
  What is done for each peer, with what the closure keeps between the calls.  It returns an error,
  or whether to stop and whether to go on with the next bin.
-/
abbrev EachPeerFunc (σ ε : Type) : Type :=
  RawAddress → Nat → σ → Except ε (σ × Bool × Bool)

namespace PSlice

variable {σ ε : Type}

/- The peers of one bin; the result says whether to stop. -/
def eachInBin (pf : EachPeerFunc σ ε) (bin : Nat) : List RawAddress → σ → Except ε (σ × Bool)
| [], kept => .ok (kept, false)
| v :: peers, kept =>
  match pf v bin kept with
  | .error err => .error err
  | .ok (kept, stop, next) =>
    if stop then .ok (kept, true)
    else if next then .ok (kept, false)
    else eachInBin pf bin peers kept

/- The bins one after the other. -/
def eachOf (s : PSlice) (pf : EachPeerFunc σ ε) : List Nat → σ → Except ε σ
| [], kept => .ok kept
| i :: order, kept =>
  match eachInBin pf i (s.slice i) kept with
  | .error err => .error err
  | .ok (kept, stop) => if stop then .ok kept else s.eachOf pf order kept

/- All peers from the deepest bin to the shallowest. -/
def eachBin (s : PSlice) (pf : EachPeerFunc σ ε) (kept : σ) : Except ε σ :=
  if s.peers.length = 0 then .ok kept
  else s.eachOf pf (List.range s.bins.length).reverse kept

/- All peers from the shallowest bin to the deepest. -/
def eachBinRev (s : PSlice) (pf : EachPeerFunc σ ε) (kept : σ) : Except ε σ :=
  if s.peers.length = 0 then .ok kept
  else s.eachOf pf (List.range s.bins.length) kept

end PSlice

end

---- Valid Tables

section

open Swarm
open Program (Sorted bucketStart bucket insertAt)

namespace PSlice

/-
  The peers are sorted, no peer is there twice, and each bin begins after the peers of lower order.
-/
structure Valid (s : PSlice) : Prop where
  some_bin : 0 < s.bins.length
  sorted : Sorted s.po s.peers
  nodup : s.peers.Nodup
  start : ∀ i < s.bins.length, s.bins.getD i 0 = bucketStart s.po s.peers i

variable {s : PSlice}
variable {addr : RawAddress}

theorem exists_iff : s.exists addr = true ↔ addr ∈ s.peers := by
  simp [PSlice.exists]

theorem po_lt (hBins : 0 < s.bins.length) (peer : RawAddress) : s.po peer < s.bins.length := by
  simp only [po]
  split_ifs with hLe
  · omega
  · omega

theorem length_incDeeper (bins : List Nat) (po : Nat) : (incDeeper bins po).length = bins.length :=
  List.length_mapIdx

theorem length_decDeeper (bins : List Nat) (po : Nat) : (decDeeper bins po).length = bins.length :=
  List.length_mapIdx

theorem getD_incDeeper {bins : List Nat} (hLt : i < bins.length) (po : Nat) :
    (incDeeper bins po).getD i 0 = bins.getD i 0 + if po < i then 1 else 0 := by
  simp only [incDeeper, List.getD_eq_getElem?_getD,
    List.getElem?_mapIdx, List.getElem?_eq_getElem hLt, Option.map_some, Option.getD_some]
  split_ifs <;> rfl

theorem getD_decDeeper {bins : List Nat} (hLt : i < bins.length) (po : Nat) :
    (decDeeper bins po).getD i 0 = bins.getD i 0 - if po < i then 1 else 0 := by
  simp only [decDeeper, List.getD_eq_getElem?_getD,
    List.getElem?_mapIdx, List.getElem?_eq_getElem hLt, Option.map_some, Option.getD_some]
  split_ifs <;> rfl

/- The order depends on the base and the number of bins. -/
theorem po_congr {t : PSlice} (hBase : t.baseBytes = s.baseBytes)
    (hLength : t.bins.length = s.bins.length) : t.po = s.po := by
  funext peer
  simp only [po, hBase, hLength]

theorem po_add : (s.add addr).po = s.po :=
  po_congr rfl (length_incDeeper ..)

namespace Valid

theorem new (hPos : 0 < n) (base : RawAddress) : (PSlice.new n base).Valid where
  some_bin := by
    rw [PSlice.new, List.length_replicate]
    exact hPos
  sorted := List.Pairwise.nil
  nodup := List.nodup_nil
  start := by
    intro i hLt
    simp [PSlice.new, bucketStart]

section

variable (hValid : s.Valid)
include hValid

/- A bin ends where the next one begins. -/
theorem binEnd_eq (hLt : i < s.bins.length) : s.binEnd i = bucketStart s.po s.peers (i + 1) := by
  rw [binEnd]
  split_ifs with hLast
  · have hNext : i + 1 = s.bins.length := by omega
    rw [hNext]
    exact (Program.bucketStart_bound fun peer _ => po_lt hValid.some_bin peer).symm
  · exact hValid.start (i + 1) (by omega)

theorem slice_eq (hLt : i < s.bins.length) : s.slice i = bucket s.po s.peers i := by
  rw [slice, bucket, hValid.binEnd_eq hLt, hValid.start i hLt]

/- The peers of a bin are those of its proximity order. -/
theorem mem_binPeers (bin : Nat) (peer : RawAddress) :
    peer ∈ s.binPeers bin ↔ peer ∈ s.peers ∧ s.po peer = bin := by
  unfold binPeers
  split_ifs with hLe
  · have hLt := po_lt hValid.some_bin peer
    constructor
    · intro hMem
      cases hMem
    · omega
  · rw [hValid.slice_eq (not_le.mp hLe), Program.bucket_eq_filter hValid.sorted,
      List.mem_filter, decide_eq_true_iff]

theorem flatMap_slice : (List.range s.bins.length).flatMap s.slice = s.peers := by
  have hSlices :
      (List.range s.bins.length).flatMap s.slice =
        (List.range s.bins.length).flatMap (bucket s.po s.peers) := by
    apply List.flatMap_congr
    intro i hMem
    exact hValid.slice_eq (List.mem_range.mp hMem)
  rw [hSlices]
  exact Program.flatMap_bucket fun peer _ => po_lt hValid.some_bin peer

theorem add (hNew : addr ∉ s.peers) : (s.add addr).Valid where
  some_bin := by
    rw [PSlice.add, length_incDeeper]
    exact hValid.some_bin
  sorted := by
    rw [po_add, PSlice.add, hValid.start _ (po_lt hValid.some_bin addr)]
    exact hValid.sorted.insertAt addr
  nodup := (Program.insertAt_perm _ addr).nodup_iff.mpr (List.nodup_cons.mpr ⟨hNew, hValid.nodup⟩)
  start := by
    intro i hLt
    rw [PSlice.add, length_incDeeper] at hLt
    rw [po_add, PSlice.add, getD_incDeeper hLt, hValid.start i hLt, Program.bucketStart_insertAt]

theorem addAll (addrs : List RawAddress) : (s.addAll addrs).Valid := by
  induction addrs generalizing s with
  | nil => exact hValid
  | cons addr addrs ih =>
    rw [PSlice.addAll]
    split_ifs with hKnown
    · exact hValid
    · exact ih (hValid.add fun hMem => hKnown (exists_iff.mpr hMem))

theorem remove (addr : RawAddress) : (s.remove addr).Valid := by
  rw [PSlice.remove]
  split_ifs with hKnown
  · have hMem := exists_iff.mp hKnown
    have hPo : PSlice.po
          { s with
            peers := s.peers.erase addr
            bins := decDeeper s.bins (s.po addr) } = s.po :=
      po_congr rfl (length_decDeeper ..)
    refine ⟨?_, ?_, hValid.nodup.erase addr, ?_⟩
    · rw [length_decDeeper]
      exact hValid.some_bin
    · rw [hPo]
      exact hValid.sorted.sublist List.erase_sublist
    · intro i hLt
      rw [length_decDeeper] at hLt
      rw [hPo, getD_decDeeper hLt, hValid.start i hLt, Program.bucketStart_erase hMem i]
      rw [Nat.add_sub_cancel]
  · exact hValid

end

end Valid

end PSlice

/- A table whose bins are in order. -/
structure Table where
  slice : PSlice
  valid : slice.Valid

namespace Table

def new (base : RawAddress) : Table :=
  ⟨PSlice.new maxBins base, .new (by decide) base⟩

def add (table : Table) (addrs : List RawAddress) : Table :=
  ⟨table.slice.addAll addrs, table.valid.addAll addrs⟩

def remove (table : Table) (addr : RawAddress) : Table :=
  ⟨table.slice.remove addr, table.valid.remove addr⟩

def peers (table : Table) : List RawAddress :=
  table.slice.peers

end Table

end

---- Visiting Every Peer

open Swarm

namespace PSlice

variable {σ ε : Type}
variable {s : PSlice}

/- A function that never stops and does not look at the bin is called for each peer of the list. -/
def always (visit : σ → RawAddress → Except ε σ) : EachPeerFunc σ ε :=
  fun peer _ kept => (visit kept peer).map fun kept => (kept, false, false)

theorem eachInBin_always (visit : σ → RawAddress → Except ε σ) (bin : Nat) (peers : List RawAddress)
    (kept : σ) : eachInBin (always visit) bin peers kept = (peers.foldlM visit kept).map fun kept =>
        (kept, false) := by
  induction peers generalizing kept with
  | nil => rfl
  | cons peer peers ih =>
    rw [eachInBin, List.foldlM_cons]
    cases hVisit : visit kept peer with
    | error err =>
      simp only [always, hVisit]
      rfl
    | ok kept' =>
      simp only [always, hVisit]
      exact ih kept'

theorem eachOf_always (visit : σ → RawAddress → Except ε σ) (order : List Nat) (kept : σ) :
    s.eachOf (always visit) order kept = (order.flatMap s.slice).foldlM visit kept := by
  induction order generalizing kept with
  | nil => rfl
  | cons i order ih =>
    rw [eachOf, eachInBin_always, List.flatMap_cons, List.foldlM_append]
    cases (s.slice i).foldlM visit kept with
    | error err => rfl
    | ok kept' => exact ih kept'

/- Every peer is visited, in the order of the list. -/
theorem Valid.eachBinRev_eq (hValid : s.Valid) (visit : σ → RawAddress → Except ε σ) (kept : σ) :
    s.eachBinRev (always visit) kept = s.peers.foldlM visit kept := by
  rw [eachBinRev]
  split_ifs with hEmpty
  · rw [List.length_eq_zero_iff.mp hEmpty]
    rfl
  · rw [eachOf_always, hValid.flatMap_slice]

end PSlice

end Topology

end Sana
