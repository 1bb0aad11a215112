import Sana.Topology.PSlice
import Sana.Program.Reach

/-
  The neighbourhood depth.

  Two iterations over the bins and the search for an empty bin give the greatest depth with enough
  neighbours and saturated shallower bins.

  Over any calls of `Add` and `Remove` a table holds what was added and not removed since, each peer
  in the bin of its proximity order, as long as no call of `Add` has a new address after a known
  one.  The container of light nodes has two tables; `RandomPeer` draws again as long as it draws
  the excluded peer.

  Key definitions include:
    * `recalcDepth`
    * `Admissible`

  Key theorems include:
    * `recalcDepth_greatest`
-/

namespace Sana.Topology

open Swarm PSlice

def nnLowWatermark : Nat :=
  2

def quickSaturationPeers : Nat :=
  4

/- What an iteration whose function returns no error has kept. -/
def keptOf {σ : Type} : Except Empty σ → σ
| .ok kept => kept

/- The shallowest bin that begins where the next one begins. -/
def PSlice.shallowestEmpty (s : PSlice) : Option Nat :=
  (List.range s.bins.length).find? fun i => s.binEnd i == s.bins.getD i 0

/- The closure that looks for an unsaturated bin; it keeps the bin and the peers counted in it. -/
def countSaturation : EachPeerFunc (Nat × Nat) Empty :=
  fun _ bin (shallowestUnsaturated, binCount) =>
    if bin = shallowestUnsaturated then .ok ((shallowestUnsaturated, binCount + 1), false, false)
    else if shallowestUnsaturated < bin ∧ binCount < quickSaturationPeers then
      .ok ((shallowestUnsaturated, binCount), true, false)
    else .ok ((bin, 1), false, false)

/- The closure that looks for the candidate; it keeps the number of peers and the candidate. -/
def countNeighbours : EachPeerFunc (Nat × Nat) Empty :=
  fun _ po (peersCtr, candidate) =>
    if nnLowWatermark ≤ peersCtr + 1 then .ok ((peersCtr + 1, po), true, false)
    else .ok ((peersCtr + 1, candidate), false, false)

/- An empty bin is unsaturated too. -/
def PSlice.orEmpty (s : PSlice) (unsaturated : Nat) : Nat :=
  match s.shallowestEmpty with
  | some empty => if empty < unsaturated then empty else unsaturated
  | none => unsaturated

def recalcDepth (peers : PSlice) (radius : Nat) : Nat :=
  if peers.length ≤ nnLowWatermark then 0
  else
    let shallowestUnsaturated := peers.orEmpty (keptOf (peers.eachBinRev countSaturation (0, 0))).1
    let candidate := (keptOf (peers.eachBin countNeighbours (0, 0))).2
    if candidate < shallowestUnsaturated then if radius < candidate then radius else candidate
    else if radius < shallowestUnsaturated then radius else shallowestUnsaturated

/- A depth with saturated shallower bins and enough peers at or beyond it. -/
structure Admissible (s : PSlice) (radius d : Nat) : Prop where
  within : d ≤ radius
  saturated : ∀ bin < d, quickSaturationPeers ≤ s.peers.countP fun peer => s.po peer = bin
  neighbours : nnLowWatermark ≤ s.peers.countP fun peer => d ≤ s.po peer

variable {s : PSlice}

---- Iterations

section

variable {σ : Type} {visit : RawAddress × Nat → σ → σ × Bool}

/- Peers with their bins one after the other, up to a stop. -/
def scan (visit : RawAddress × Nat → σ → σ × Bool) : List (RawAddress × Nat) → σ → σ × Bool
| [], kept => (kept, false)
| x :: xs, kept => if (visit x kept).2 then visit x kept else scan visit xs (visit x kept).1

/- A function that visits all peers of a bin unless it stops. -/
def visiting (visit : RawAddress × Nat → σ → σ × Bool) : EachPeerFunc σ Empty :=
  fun peer bin kept => .ok ((visit (peer, bin) kept).1, (visit (peer, bin) kept).2, false)

theorem scan_append (xs ys : List (RawAddress × Nat)) (kept : σ) :
    scan visit (xs ++ ys) kept =
      if (scan visit xs kept).2 then scan visit xs kept
      else scan visit ys (scan visit xs kept).1 := by
  induction xs generalizing kept with
  | nil => rfl
  | cons x xs ih =>
    simp only [List.cons_append, scan, ih]
    by_cases hStop : (visit x kept).2 = true
    · simp only [hStop, if_true]
    · simp only [hStop, if_false, Bool.false_eq_true]

theorem eachInBin_visiting (bin : Nat) (peers : List RawAddress) (kept : σ) :
    eachInBin (visiting visit) bin peers kept =
      .ok (scan visit (peers.map fun peer => (peer, bin)) kept) := by
  induction peers generalizing kept with
  | nil => rfl
  | cons peer peers ih =>
    simp only [eachInBin, visiting, List.map_cons, scan]
    cases hStop : (visit (peer, bin) kept).2 with
    | true => simp [← hStop]
    | false => simpa using ih _

theorem eachOf_visiting (order : List Nat) (kept : σ) :
    s.eachOf (visiting visit) order kept =
      .ok (scan visit (order.flatMap fun i => (s.slice i).map fun peer => (peer, i)) kept).1 := by
  induction order generalizing kept with
  | nil => rfl
  | cons i order ih =>
    simp only [eachOf, eachInBin_visiting, List.flatMap_cons, scan_append]
    split_ifs with hStop
    · rfl
    · exact ih _

/- The peers of all bins, each with its bin. -/
theorem PSlice.Valid.flatMap_visited (hValid : s.Valid) :
    ((List.range s.bins.length).flatMap fun i => (s.slice i).map fun peer => (peer, i)) =
      s.peers.map fun peer => (peer, s.po peer) := by
  conv_rhs => rw [← hValid.flatMap_slice]
  rw [List.map_flatMap]
  apply List.flatMap_congr
  intro i hMem
  apply List.map_congr_left
  intro peer hPeer
  rw [hValid.slice_eq (List.mem_range.mp hMem), Program.bucket_eq_filter hValid.sorted,
    List.mem_filter, decide_eq_true_iff] at hPeer
  rw [hPeer.2]

theorem PSlice.Valid.eachBinRev_visiting (hValid : s.Valid) (kept : σ) :
    keptOf (s.eachBinRev (visiting visit) kept) =
      (scan visit (s.peers.map fun peer => (peer, s.po peer)) kept).1 := by
  rw [eachBinRev]
  split_ifs with hEmpty
  · rw [List.length_eq_zero_iff.mp hEmpty]
    rfl
  · rw [eachOf_visiting, hValid.flatMap_visited]
    rfl

/- From the deepest bin on, all peers are visited too. -/
theorem PSlice.Valid.eachBin_visiting (hValid : s.Valid)
    (visit : RawAddress × Nat → σ → σ × Bool) :
    ∃ xs : List (RawAddress × Nat), xs.Perm (s.peers.map fun peer => (peer, s.po peer)) ∧
      xs.Pairwise (fun x y => y.2 ≤ x.2) ∧
        ∀ kept : σ, keptOf (s.eachBin (visiting visit) kept) = (scan visit xs kept).1 := by
  refine ⟨_, (hValid.flatMap_visited ▸ (List.reverse_perm _).flatMap_right _), ?_, fun kept => ?_⟩
  · rw [List.pairwise_flatMap]
    constructor
    · intro i _
      exact List.pairwise_map.mpr (List.pairwise_of_forall fun _ _ => le_rfl)
    · refine (List.pairwise_reverse.mpr List.pairwise_lt_range).imp ?_
      simp only [List.mem_map]
      rintro i j hLt _ ⟨peer, -, rfl⟩ _ ⟨other, -, rfl⟩
      exact hLt.le
  · rw [eachBin]
    split_ifs with hEmpty
    · have hNone : ∀ i, s.slice i = [] := by
        intro i
        rw [slice, List.length_eq_zero_iff.mp hEmpty]
        simp
      simp [hNone, scan, keptOf, List.flatMap_eq_nil_iff.mpr]
    · rw [eachOf_visiting]
      rfl

end

---- Saturation

/- Bins before the one found are empty or saturated; it is unsaturated or the last with peers. -/
structure Unsaturated (c : Nat → Nat) (su : Nat) : Prop where
  before : ∀ j < su, c j = 0 ∨ quickSaturationPeers ≤ c j
  found : c su < quickSaturationPeers ∨ ∀ j, su < j → c j = 0

def saturate (x : RawAddress × Nat) (kept : Nat × Nat) : (Nat × Nat) × Bool :=
  if x.2 = kept.1 then ((kept.1, kept.2 + 1), false)
  else if kept.1 < x.2 ∧ kept.2 < quickSaturationPeers then (kept, true)
  else ((x.2, 1), false)

theorem countSaturation_eq : countSaturation = visiting saturate := by
  funext peer bin kept
  simp only [countSaturation, visiting, saturate]
  split_ifs <;> rfl

/- The rest of the peers, when `cnt` peers of bin `su` and no deeper ones were visited. -/
theorem scan_saturate (hSorted : xs.Pairwise fun x y => x.2 ≤ y.2) (hLe : ∀ x ∈ xs, su ≤ x.2)
    (hCount : ∀ j, su ≤ j → c j = (if j = su then cnt else 0) + xs.countP fun x => x.2 = j)
    (hBefore : ∀ j < su, c j = 0 ∨ quickSaturationPeers ≤ c j) :
    Unsaturated c (scan saturate xs (su, cnt)).1.1 := by
  induction xs generalizing su cnt with
  | nil =>
    refine ⟨hBefore, Or.inr fun j (hJ : su < j) => ?_⟩
    rw [hCount j hJ.le, if_neg hJ.ne']
    rfl
  | cons x xs ih =>
    rw [List.pairwise_cons] at hSorted
    have hFirst := hLe x List.mem_cons_self
    simp only [List.countP_cons, decide_eq_true_eq] at hCount
    rw [scan]
    by_cases hSame : x.2 = su
    · have hKept : saturate x (su, cnt) = ((su, cnt + 1), false) := if_pos hSame
      rw [hKept]
      refine ih hSorted.2 (fun y hY => hLe y (List.mem_cons_of_mem x hY)) (fun j hJ => ?_) hBefore
      rw [hCount j hJ]
      split_ifs <;> omega
    · have hNone : ∀ j < x.2, (xs.countP fun y => y.2 = j) = 0 := by
        intro j hJ
        rw [List.countP_eq_zero]
        intro y hY
        have hDeeper := hSorted.1 y hY
        simp only [decide_eq_true_eq]
        omega
      have hCnt : c su = cnt := by
        rw [hCount su le_rfl, if_pos rfl, hNone su (by omega), if_neg hSame]
        rfl
      by_cases hFew : cnt < quickSaturationPeers
      · have hKept : saturate x (su, cnt) = ((su, cnt), true) := by
          rw [saturate, if_neg hSame, if_pos ⟨by omega, hFew⟩]
        rw [hKept]
        exact ⟨hBefore, Or.inl (hCnt ▸ hFew)⟩
      · have hKept : saturate x (su, cnt) = ((x.2, 1), false) := by
          rw [saturate, if_neg hSame, if_neg fun hBoth => hFew hBoth.2]
        rw [hKept]
        refine ih hSorted.2 hSorted.1 (fun j hJ => ?_) (fun j hJ => ?_)
        · rw [hCount j (by omega)]
          split_ifs <;> omega
        · rcases lt_trichotomy j su with hLow | rfl | hHigh
          · exact hBefore j hLow
          · exact Or.inr (by omega)
          · rw [hCount j hHigh.le, hNone j hJ, if_neg (by omega), if_neg (by omega)]
            exact Or.inl rfl

---- Neighbours

def neighbour (x : RawAddress × Nat) (kept : Nat × Nat) : (Nat × Nat) × Bool :=
  if nnLowWatermark ≤ kept.1 + 1 then ((kept.1 + 1, x.2), true) else ((kept.1 + 1, kept.2), false)

theorem countNeighbours_eq : countNeighbours = visiting neighbour := by
  funext peer bin kept
  simp only [countNeighbours, visiting, neighbour]
  split_ifs <;> rfl

/- The candidate is the bin of the second peer. -/
theorem scan_neighbour {xs : List (RawAddress × Nat)} (hSorted : xs.Pairwise fun x y => y.2 ≤ x.2)
    (hMany : nnLowWatermark ≤ xs.length) :
    nnLowWatermark ≤ (xs.countP fun x => (scan neighbour xs (0, 0)).1.2 ≤ x.2) ∧
      (xs.countP fun x => (scan neighbour xs (0, 0)).1.2 + 1 ≤ x.2) < nnLowWatermark := by
  rcases xs with _ | ⟨x, _ | ⟨y, xs⟩⟩
  · cases hMany
  · simp [nnLowWatermark] at hMany
  · simp only [List.pairwise_cons, List.mem_cons, forall_eq_or_imp] at hSorted
    have hRest : (xs.countP fun z => y.2 + 1 ≤ z.2) = 0 := by
      rw [List.countP_eq_zero]
      intro z hZ
      have hLe := hSorted.2.1 z hZ
      simp only [decide_eq_true_eq]
      omega
    have hCandidate : (scan neighbour (x :: y :: xs) (0, 0)).1.2 = y.2 := rfl
    simp only [hCandidate, List.countP_cons, hRest, hSorted.1.1, le_rfl, decide_true, if_true,
      nnLowWatermark, decide_eq_true_eq]
    constructor
    · omega
    · split_ifs <;> omega

---- Depth

/- What the search for an empty bin finds. -/
theorem PSlice.Valid.shallowestEmpty_spec (hValid : s.Valid) (hLt : i < s.bins.length) :
    (s.binEnd i == s.bins.getD i 0) = true ↔ (s.peers.countP fun peer => s.po peer = i) = 0 := by
  have hNext : s.binEnd i = s.bins.getD i 0 + s.peers.countP fun peer => s.po peer = i := by
    rw [hValid.binEnd_eq hLt, hValid.start i hLt]
    unfold Program.bucketStart
    induction s.peers with
    | nil => rfl
    | cons peer peers ih =>
      simp only [List.countP_cons, ih]
      rcases lt_trichotomy (s.po peer) i with hLow | hEq | hHigh
      · simp [hLow, hLow.ne, show s.po peer < i + 1 by omega]
        omega
      · simp [hEq]
        omega
      · simp [hHigh.not_gt, hHigh.ne', show ¬ s.po peer < i + 1 by omega]
  simp only [beq_iff_eq]
  omega

/- The two iterations, for more peers than the low watermark. -/
theorem PSlice.Valid.iterations (hValid : s.Valid) (hMany : nnLowWatermark < s.peers.length) :
    Unsaturated (fun i => s.peers.countP fun peer => s.po peer = i)
        (keptOf (s.eachBinRev countSaturation (0, 0))).1 ∧
      let candidate := (keptOf (s.eachBin countNeighbours (0, 0))).2
      nnLowWatermark ≤ (s.peers.countP fun peer => candidate ≤ s.po peer) ∧
        (s.peers.countP fun peer => candidate + 1 ≤ s.po peer) < nnLowWatermark := by
  constructor
  · rw [countSaturation_eq, hValid.eachBinRev_visiting]
    refine scan_saturate (List.pairwise_map.mpr hValid.sorted) (fun _ _ => Nat.zero_le _)
      (fun j _ => ?_) (fun j hJ => absurd hJ (Nat.not_lt_zero j))
    rw [ite_self, Nat.zero_add, List.countP_map]
    rfl
  · rcases hValid.eachBin_visiting neighbour with ⟨xs, hPerm, hSorted, hKept⟩
    have hCounts : ∀ d,
        (xs.countP fun x => d ≤ x.2) = s.peers.countP fun peer => d ≤ s.po peer := by
      intro d
      rw [hPerm.countP_eq, List.countP_map]
      rfl
    have hLength : xs.length = s.peers.length := by rw [hPerm.length_eq, List.length_map]
    have hNeighbours := scan_neighbour hSorted (by omega)
    rw [hCounts, hCounts] at hNeighbours
    rw [countNeighbours_eq, hKept]
    exact hNeighbours

/- The bins before the unsaturated one are saturated, and no admissible depth is beyond it. -/
theorem PSlice.Valid.orEmpty_spec (hValid : s.Valid)
    (hUnsaturated : Unsaturated (fun i => s.peers.countP fun peer => s.po peer = i) su) :
    (∀ j < s.orEmpty su, j < s.bins.length →
        quickSaturationPeers ≤ s.peers.countP fun peer => s.po peer = j) ∧
      ∀ radius d, Admissible s radius d → d ≤ s.orEmpty su := by
  have hBeyond : ∀ radius d, Admissible s radius d → d ≤ su := by
    intro radius d hAdmissible
    by_contra hLt
    have hSu := hAdmissible.saturated su (by omega)
    rcases hUnsaturated.found with hLow | hNone
    · omega
    · have hNeighbours := hAdmissible.neighbours
      rw [List.countP_eq_zero.mpr] at hNeighbours
      · cases hNeighbours
      · intro peer hMem hPo
        simp only [decide_eq_true_eq] at hPo
        have hZero := hNone (s.po peer) (by omega)
        rw [List.countP_eq_zero] at hZero
        simpa using hZero peer hMem
  unfold PSlice.orEmpty
  cases hFind : s.shallowestEmpty with
  | none =>
    refine ⟨?_, hBeyond⟩
    intro j hJ hLt
    have hEmpty := List.find?_eq_none.mp hFind j (List.mem_range.mpr hLt)
    rw [hValid.shallowestEmpty_spec hLt] at hEmpty
    exact (hUnsaturated.before j hJ).resolve_left hEmpty
  | some e =>
    rcases List.find?_range_eq_some.mp hFind with ⟨hEmpty, hMem, hNot⟩
    have hLt := List.mem_range.mp hMem
    rw [hValid.shallowestEmpty_spec hLt] at hEmpty
    have hBound : ∀ radius d, Admissible s radius d → d ≤ e := by
      intro radius d hAdmissible
      by_contra hGt
      have hSaturated := hAdmissible.saturated e (by omega)
      rw [hEmpty] at hSaturated
      cases hSaturated
    constructor
    · intro j hJ hLt
      have hSu : j < su ∧ j < e := by
        dsimp only at hJ
        split_ifs at hJ
        · omega
        · omega
      refine (hUnsaturated.before j hSu.1).resolve_left ?_
      intro hZero
      have hJEmpty := hNot j hSu.2
      rw [Bool.not_eq_true', ← Bool.not_eq_true, hValid.shallowestEmpty_spec hLt] at hJEmpty
      exact hJEmpty hZero
    · intro radius d hAdmissible
      dsimp only
      split_ifs
      · exact hBound radius d hAdmissible
      · exact hBeyond radius d hAdmissible

/-
  `recalcDepth` returns the greatest admissible depth: it is admissible unless it is 0, and no
  positive admissible depth is greater.
-/
theorem recalcDepth_greatest (table : Table) (radius : Nat) :
    (0 < recalcDepth table.slice radius →
        Admissible table.slice radius (recalcDepth table.slice radius)) ∧
      ∀ d, 0 < d → Admissible table.slice radius d → d ≤ recalcDepth table.slice radius := by
  rcases table with ⟨s, hValid⟩
  dsimp only
  unfold recalcDepth PSlice.length
  split
  · refine ⟨by omega, ?_⟩
    intro d hPos hAdmissible
    have hBin := hAdmissible.saturated 0 hPos
    have hLe : (s.peers.countP fun peer => s.po peer = 0) ≤ s.peers.length := List.countP_le_length
    unfold nnLowWatermark quickSaturationPeers at *
    omega
  · rcases hValid.iterations (by omega) with ⟨hUnsaturated, hEnough, hNot⟩
    rcases hValid.orEmpty_spec hUnsaturated with ⟨hSaturated, hBound⟩
    generalize s.orEmpty _ = u at hSaturated hBound
    generalize (keptOf (s.eachBin countNeighbours (0, 0))).2 = candidate at hEnough hNot
    have hMono : ∀ d d', d ≤ d' → (s.peers.countP fun peer => d' ≤ s.po peer) ≤
        s.peers.countP fun peer => d ≤ s.po peer := by
      intro d d' hLe
      apply List.countP_mono_left
      intro peer _ hPo
      simp only [decide_eq_true_eq] at hPo ⊢
      omega
    have hCandidate : ∀ d, Admissible s radius d → d ≤ candidate := by
      intro d hAdmissible
      by_contra hGt
      have hLe := hMono (candidate + 1) d (by omega)
      have hNeighbours := hAdmissible.neighbours
      omega
    -- the candidate is the order of a peer
    have hBins : candidate < s.bins.length := by
      by_contra hGe
      rw [List.countP_eq_zero.mpr] at hEnough
      · cases hEnough
      · intro peer _
        have hLt := po_lt hValid.some_bin peer
        simp only [decide_eq_true_eq]
        omega
    -- the result is the least of radius, candidate and unsaturated bin
    have hAdmissible : ∀ d, d ≤ radius → d ≤ candidate → d ≤ u → Admissible s radius d := by
      intro d hRadius hLe hU
      refine ⟨hRadius, fun bin hBin => hSaturated bin (by omega) (by omega), ?_⟩
      exact hEnough.trans (hMono d candidate hLe)
    dsimp only
    constructor
    · intro _
      split_ifs <;> exact hAdmissible _ (by omega) (by omega) (by omega)
    · intro d _ hD
      have hWithin := hD.within
      have hLe := hCandidate d hD
      have hU := hBound radius d hD
      split_ifs <;> omega

end Sana.Topology

---- Calls

namespace Sana.Topology

open Program Swarm PSlice

inductive TableOp where
  | add (addrs : List RawAddress)
  | remove (addr : RawAddress)

def PSlice.apply (s : PSlice) : TableOp → PSlice
| .add addrs => s.addAll addrs
| .remove addr => s.remove addr

/- One call of `Add` for each address. -/
def PSlice.addEach (s : PSlice) (addrs : List RawAddress) : PSlice :=
  addrs.foldl (fun s addr => s.addAll [addr]) s

/- What is held after a call, when the call does what it says. -/
def TableOp.holds (held : Set RawAddress) : TableOp → Set RawAddress
| .add addrs => { a | a ∈ held ∨ a ∈ addrs }
| .remove addr => { a | a ∈ held ∧ a ≠ addr }

/- A table, and what was added and not removed since. -/
def TableStep (op : TableOp) (before after : PSlice × Set RawAddress) : Prop :=
  after = (before.1.apply op, op.holds before.2)

/- After an address that is known there are only known ones. -/
def PSlice.Accepts (s : PSlice) : List RawAddress → Prop
| [] => True
| addr :: addrs =>
  if s.exists addr then ∀ other ∈ addrs, s.exists other else (s.add addr).Accepts addrs

def TableOp.Accepted (op : TableOp) (before : PSlice × Set RawAddress) : Prop :=
  ∀ addrs, op = .add addrs → before.1.Accepts addrs

/- The bin of an address among `n` bins. -/
def binOf (n : Nat) (base addr : RawAddress) : Nat :=
  min (rawProximity base addr) (n - 1)

/- A function that notes each peer with its bin. -/
def record : EachPeerFunc (List (RawAddress × Nat)) Empty :=
  fun peer bin kept => .ok (kept ++ [(peer, bin)], false, false)

variable {s : PSlice} {addr a : RawAddress} {addrs : List RawAddress}

---- Members

theorem addAll_singleton : s.addAll [addr] = if s.exists addr then s else s.add addr := rfl

theorem mem_addAll_singleton : a ∈ (s.addAll [addr]).peers ↔ a ∈ s.peers ∨ a = addr := by
  rw [addAll_singleton]
  split_ifs with hKnown
  · have hMem := exists_iff.mp hKnown
    constructor
    · exact Or.inl
    · rintro (hOld | rfl)
      · exact hOld
      · exact hMem
  · rw [PSlice.add, (insertAt_perm _ addr).mem_iff, List.mem_cons, or_comm]

theorem mem_addEach : a ∈ (s.addEach addrs).peers ↔ a ∈ s.peers ∨ a ∈ addrs := by
  induction addrs generalizing s with
  | nil => simp [addEach]
  | cons addr addrs ih =>
    change a ∈ ((s.addAll [addr]).addEach addrs).peers ↔ _
    rw [ih, mem_addAll_singleton, List.mem_cons, or_assoc]

/- Known addresses change nothing. -/
theorem addEach_known (hKnown : ∀ addr ∈ addrs, s.exists addr) : s.addEach addrs = s := by
  induction addrs with
  | nil => rfl
  | cons addr addrs ih =>
    change (s.addAll [addr]).addEach addrs = s
    rw [addAll_singleton, if_pos (hKnown addr List.mem_cons_self)]
    exact ih fun other hMem => hKnown other (List.mem_cons_of_mem addr hMem)

/- One call with all addresses against one call for each. -/
theorem addAll_eq_addEach (hAccepts : s.Accepts addrs) : s.addAll addrs = s.addEach addrs := by
  induction addrs generalizing s with
  | nil => rfl
  | cons addr addrs ih =>
    change _ = (s.addAll [addr]).addEach addrs
    rw [PSlice.Accepts] at hAccepts
    rw [addAll_singleton, PSlice.addAll]
    split_ifs at hAccepts ⊢
    · exact (addEach_known hAccepts).symm
    · exact ih hAccepts

theorem mem_remove (hValid : s.Valid) : a ∈ (s.remove addr).peers ↔ a ∈ s.peers ∧ a ≠ addr := by
  rw [PSlice.remove]
  split_ifs with hKnown
  · rw [hValid.nodup.mem_erase_iff, and_comm]
  · refine (and_iff_left_of_imp fun hMem hEq => ?_).symm
    rw [hEq] at hMem
    exact hKnown (exists_iff.mpr hMem)

theorem frame_addAll :
    (s.addAll addrs).baseBytes = s.baseBytes ∧ (s.addAll addrs).bins.length = s.bins.length := by
  induction addrs generalizing s with
  | nil => exact ⟨rfl, rfl⟩
  | cons addr addrs ih =>
    rw [PSlice.addAll]
    split_ifs
    · exact ⟨rfl, rfl⟩
    · have hRest := @ih (s.add addr)
      exact ⟨hRest.1, hRest.2.trans (length_incDeeper ..)⟩

theorem frame_remove :
    (s.remove addr).baseBytes = s.baseBytes ∧ (s.remove addr).bins.length = s.bins.length := by
  rw [PSlice.remove]
  split_ifs
  · exact ⟨rfl, length_decDeeper ..⟩
  · exact ⟨rfl, rfl⟩

---- Iterations

/- What `record` does with one peer. -/
def note (x : RawAddress × Nat) (kept : List (RawAddress × Nat)) : List (RawAddress × Nat) × Bool :=
  (kept ++ [x], false)

theorem scan_note : scan note xs kept = (kept ++ xs, false) := by
  induction xs generalizing kept with
  | nil => simp [scan]
  | cons x xs ih => simp [scan, note, ih]

theorem eachBinRev_record (hValid : s.Valid) :
    keptOf (s.eachBinRev record []) = s.peers.map fun peer => (peer, s.po peer) := by
  rw [show record = visiting note from rfl, hValid.eachBinRev_visiting, scan_note, List.nil_append]

theorem eachBin_record (hValid : s.Valid) :
    (keptOf (s.eachBin record [])).Perm (s.peers.map fun peer => (peer, s.po peer)) := by
  rcases hValid.eachBin_visiting note with ⟨xs, hPerm, -, hKept⟩
  rw [show record = visiting note from rfl, hKept, scan_note]
  exact hPerm

/- The shallowest bin without peers. -/
theorem shallowestEmpty_eq_some (hValid : s.Valid) (bin : Nat) :
    s.shallowestEmpty = some bin ↔
      bin < s.bins.length ∧ (∀ peer ∈ s.peers, s.po peer ≠ bin) ∧
        ∀ lower < bin, ∃ peer ∈ s.peers, s.po peer = lower := by
  have hEmpty : ∀ i < s.bins.length,
      ((s.binEnd i == s.bins.getD i 0) = true ↔ ∀ peer ∈ s.peers, s.po peer ≠ i) := by
    intro i hLt
    rw [hValid.shallowestEmpty_spec hLt]
    simp
  rw [PSlice.shallowestEmpty, List.find?_range_eq_some]
  constructor
  · rintro ⟨hBin, hLt, hLower⟩
    rw [List.mem_range] at hLt
    refine ⟨hLt, (hEmpty bin hLt).mp hBin, fun lower hLess => ?_⟩
    have hNot := hLower lower hLess
    rw [Bool.not_eq_true', ← Bool.not_eq_true, hEmpty lower (hLess.trans hLt)] at hNot
    simpa using hNot
  · rintro ⟨hLt, hNone, hLower⟩
    refine ⟨(hEmpty bin hLt).mpr hNone, List.mem_range.mpr hLt, fun lower hLess => ?_⟩
    rw [Bool.not_eq_true', ← Bool.not_eq_true, hEmpty lower (hLess.trans hLt)]
    simpa using hLower lower hLess

---- Partition

/- What every call keeps. -/
theorem TableStep.keeps (hStep : TableStep op before after) (hAccepted : op.Accepted before)
    (hValid : before.1.Valid)
    (hMem : ∀ a, a ∈ before.1.peers ↔ a ∈ before.2) :
    after.1.Valid ∧ (∀ a, a ∈ after.1.peers ↔ a ∈ after.2) ∧
      after.1.baseBytes = before.1.baseBytes ∧ after.1.bins.length = before.1.bins.length := by
  subst hStep
  cases op with
  | add addrs =>
    refine ⟨hValid.addAll addrs, fun a => ?_, frame_addAll⟩
    change a ∈ (before.1.addAll addrs).peers ↔ a ∈ before.2 ∨ a ∈ addrs
    rw [addAll_eq_addEach (hAccepted addrs rfl), mem_addEach, hMem]
  | remove addr =>
    refine ⟨hValid.remove addr, fun a => ?_, frame_remove⟩
    change a ∈ (before.1.remove addr).peers ↔ a ∈ before.2 ∧ a ≠ addr
    rw [mem_remove hValid, hMem]

/-
  The table is a partition by proximity, over any base, any number of bins that fits a byte and any
  calls, as long as after a known address `Add` is given known ones only.
-/
theorem peers_partition {n : Nat} (hBins : 0 < n ∧ n < 256) (base : RawAddress)
    {held : Set RawAddress}
    (hReach : Reach TableStep TableOp.Accepted (.new n base, ∅) (s, held)) :
    s.peers.Nodup ∧ (∀ a, a ∈ s.peers ↔ a ∈ held) ∧
      keptOf (s.eachBinRev record []) = (s.peers.map fun a => (a, binOf n base a)) ∧
      (keptOf (s.eachBin record [])).Perm (s.peers.map fun a => (a, binOf n base a)) ∧
      (∀ bin a, a ∈ s.binPeers bin ↔ a ∈ held ∧ binOf n base a = bin) ∧
      (∀ bin, s.shallowestEmpty = some bin ↔
        bin < n ∧ (∀ a ∈ held, binOf n base a ≠ bin) ∧
          ∀ lower < bin, ∃ a ∈ held, binOf n base a = lower) ∧
      ∀ addrs, s.Accepts addrs → s.addAll addrs = s.addEach addrs := by
  rcases hReach.invariant
      (fun t => t.1.Valid ∧ (∀ a, a ∈ t.1.peers ↔ a ∈ t.2) ∧ t.1.baseBytes = base ∧
        t.1.bins.length = n)
      ⟨.new hBins.1 base, fun a => by simp [PSlice.new], rfl, List.length_replicate⟩
      (by
        rintro op before after ⟨hValid, hMem, rfl, rfl⟩ hAccepted hStep
        exact hStep.keeps hAccepted hValid hMem)
    with ⟨hValid, hMem, rfl, rfl⟩
  have hPo : s.po = binOf s.bins.length s.baseBytes := by
    funext a
    simp only [po, binOf]
    split_ifs <;> omega
  have hShallow := shallowestEmpty_eq_some hValid
  have hBin := hValid.mem_binPeers
  simp only [hPo, hMem] at hShallow hBin
  rw [← hPo]
  exact ⟨hValid.nodup, hMem, eachBinRev_record hValid, eachBin_record hValid, hPo ▸ hBin,
    hPo ▸ hShallow, fun addrs => addAll_eq_addEach⟩

/- Two peers, one of which is removed. -/
theorem peers_partition_two :
    (0 < 2 ∧ 2 < 256) ∧
      (((PSlice.new 2 [0]).addAll [[1], [128]]).remove [1]).peers.Nodup := by
  have hAdd : Reach TableStep TableOp.Accepted (.new 2 [0], ∅) _ :=
    .step (.add [[1], [128]]) .start (fun addrs hEq => by cases hEq; simp [PSlice.Accepts]; decide)
      rfl
  have hRemove := Reach.step (TableOp.remove [1]) hAdd nofun rfl
  exact ⟨by decide, (peers_partition (by decide) [0] hRemove).1⟩

/- The second address of the call is not added, since the first one is known. -/
theorem add_stops_at_known :
    (((PSlice.new 2 [0]).addAll [[1]]).addAll [[1], [128]]).peers = [[1]] ∧
      (((PSlice.new 2 [0]).addAll [[1]]).addEach [[1], [128]]).peers = [[128], [1]] := by
  decide

end Sana.Topology

---- The Container

namespace Sana.Topology

open Program Swarm PSlice

structure Container where
  connectedPeers : PSlice
  disconnectedPeers : PSlice
  deriving DecidableEq

inductive LightEvent where
  | connected (addr : RawAddress)
  | disconnected (addr : RawAddress)

/- How a call of `RandomPeer` ends; `rand.Int` panics for a bound that is not positive. -/
inductive Picked where
  | peer (addr : RawAddress)
  | failed
  | panicked
  deriving DecidableEq

namespace Container

def new (base : RawAddress) : Container :=
  ⟨.new 1 base, .new 1 base⟩

def step (event : LightEvent) (c : Container) : Option Container :=
  match event with
  | .connected addr => some ⟨c.connectedPeers.addAll [addr], c.disconnectedPeers.remove addr⟩
  | .disconnected addr =>
    if c.connectedPeers.exists addr then
      some ⟨c.connectedPeers.remove addr, c.disconnectedPeers.addAll [addr]⟩
    else some c

/- The number of peers passed, and the peer that was picked last. -/
def pick (i : Nat) (x : RawAddress × Nat) (kept : Nat × RawAddress) : (Nat × RawAddress) × Bool :=
  if kept.1 = i then ((kept.1, x.1), true) else ((kept.1 + 1, kept.2), false)

/-
  The loop `PICKPEER`, with the draws from number `k` on.  A draw has no result when the source of
  randomness fails.
-/
def randomPeer (c : Container) (not : RawAddress) (draws : Nat → Option Nat) :
    Nat → Nat → RawAddress → Option Picked
| 0, _, _ => none
| fuel + 1, k, addr =>
  if c.connectedPeers.length = 0 then some .panicked
  else match draws k with
    | none => some .failed
    | some i =>
      let addr := (keptOf (c.connectedPeers.eachBinRev (visiting (pick i)) (0, addr))).2
      if addr = not then c.randomPeer not draws fuel (k + 1) addr else some (.peer addr)

/- A container after any events. -/
def Reachable (base : RawAddress) : Container → Prop :=
  Reach (Stepping step) (fun _ _ => True) (new base)

variable {c : Container} {draws : Nat → Option Nat} {not addr : RawAddress}

---- Choices

theorem scan_pick (bin : RawAddress → Nat) (xs : List RawAddress) (hLe : passed ≤ i)
    (hLt : i < passed + xs.length) :
    (scan (pick i) (xs.map fun peer => (peer, bin peer)) (passed, addr)).1.2 ∈
      xs[i - passed]? := by
  induction xs generalizing passed with
  | nil => exact absurd hLt (not_lt.mpr hLe)
  | cons x xs ih =>
    rw [List.map_cons, scan]
    by_cases hHere : passed = i
    · simp [pick, hHere]
    · have hNext : i - passed = i - (passed + 1) + 1 := by omega
      rw [List.length_cons] at hLt
      simp only [pick, if_neg hHere, Bool.false_eq_true, if_false]
      rw [hNext, List.getElem?_cons_succ]
      exact ih (by omega) (by omega)

/- A peer that may be returned. -/
def Other (c : Container) (not : RawAddress) (result : Picked) : Prop :=
  result = .failed ∨ ∃ peer ∈ c.connectedPeers.peers, peer ≠ not ∧ result = .peer peer

/- One turn of the loop returns, or it drew the excluded peer. -/
theorem randomPeer_turn (hValid : c.connectedPeers.Valid) (hSome : c.connectedPeers.length ≠ 0)
    (hDraw : ∀ i, draws k = some i → i < c.connectedPeers.length) :
    (∃ result, c.randomPeer not draws (fuel + 1) k addr = some result ∧ c.Other not result) ∨
      (∃ i, draws k = some i ∧ c.connectedPeers.peers[i]? = some not) ∧
        c.randomPeer not draws (fuel + 1) k addr = c.randomPeer not draws fuel (k + 1) not := by
  rw [randomPeer, if_neg hSome]
  cases hDrawn : draws k with
  | none => exact Or.inl ⟨.failed, rfl, Or.inl rfl⟩
  | some i =>
    have hPick := @scan_pick addr 0 i c.connectedPeers.po _ (Nat.zero_le i)
      ((hDraw i hDrawn).trans_eq (Nat.zero_add _).symm)
    dsimp only
    rw [hValid.eachBinRev_visiting]
    split_ifs with hNot
    · rw [hNot] at hPick ⊢
      exact Or.inr ⟨⟨i, rfl, hPick⟩, rfl⟩
    · exact Or.inl ⟨_, rfl, Or.inr ⟨_, List.mem_of_getElem? hPick, hNot, rfl⟩⟩

theorem Reachable.valid (hReach : Reachable base c) : c.connectedPeers.Valid := by
  refine hReach.invariant (fun c => c.connectedPeers.Valid) (.new Nat.one_pos base) ?_
  rintro (addr | addr) before after hValid - hStep
  · cases hStep
    exact hValid.addAll [addr]
  · simp only [Stepping, step] at hStep
    split_ifs at hStep <;> cases hStep
    · exact hValid.remove addr
    · exact hValid

/-
  After any events, and for draws that are not infinitely often the excluded peer, a call returns
  another connected peer or the error of a draw, if there is another connected peer.
-/
theorem randomPeer_returns {base : RawAddress} (hReach : Reachable base c)
    (hDraws : ∀ k i, draws k = some i → i < c.connectedPeers.length)
    (hFair : ∃ last, ∀ k ≥ last, ∀ i, draws k = some i → c.connectedPeers.peers[i]? ≠ some not)
    (hOther : ∃ peer ∈ c.connectedPeers.peers, peer ≠ not) :
    ∃ fuel result,
      c.randomPeer not draws fuel 0 zeroAddress = some result ∧ c.Other not result := by
  rcases hFair with ⟨last, hFair⟩
  rcases hOther with ⟨other, hMem, -⟩
  have hValid := hReach.valid
  have hSome : c.connectedPeers.length ≠ 0 := (List.length_pos_of_mem hMem).ne'
  -- The draws that are left before the last one that may be excluded.
  suffices hLoop : ∀ left k addr, left + k = last →
      ∃ fuel result, c.randomPeer not draws fuel k addr = some result ∧ c.Other not result from
    hLoop last 0 zeroAddress rfl
  intro left
  induction left with
  | zero =>
    intro k addr hLast
    rcases randomPeer_turn hValid hSome (hDraws k) with hReturns | ⟨⟨i, hDrawn, hExcluded⟩, -⟩
    · exact ⟨1, hReturns⟩
    · exact absurd hExcluded (hFair k (Nat.zero_add k ▸ hLast).ge i hDrawn)
  | succ left ih =>
    intro k addr hLast
    rcases ih (k + 1) not (by omega) with ⟨fuel, result, hResult, hOther⟩
    rcases randomPeer_turn hValid hSome (hDraws k) with hReturns | ⟨-, hAgain⟩
    · exact ⟨fuel + 1, hReturns⟩
    · exact ⟨fuel + 1, result, hAgain.trans hResult, hOther⟩

/- Of two peers the one that is not excluded is drawn second. -/
theorem randomPeer_returns_two :
    ∃ c : Container, c.connectedPeers.peers = [[2], [1]] ∧
      ∃ fuel result, c.randomPeer [2] (fun k => some (min k 1)) fuel 0 zeroAddress = some result ∧
        c.Other [2] result := by
  have hRun : ∃ c, Reachable [0] c ∧ c.connectedPeers.peers = [[2], [1]] :=
    exists_reach [.connected [1], .connected [2]] (by decide +kernel)
  rcases hRun with ⟨c, hReach, hPeers⟩
  refine ⟨c, hPeers, randomPeer_returns hReach ?_ ⟨1, ?_⟩ ⟨[1], ?_, by decide⟩⟩
  · rintro k _ ⟨⟩
    rw [length, hPeers]
    exact Nat.lt_succ_of_le (Nat.min_le_right k 1)
  · rintro k hLe _ ⟨⟩
    rw [Nat.min_eq_right hLe, hPeers]
    decide
  · rw [hPeers]
    decide

/-
  The peer that was to be kept has left, and the draw panics.  When the others have left, no draws
  lead to a result.
-/
theorem randomPeer_not_returns :
    (∃ c, Reachable [0] c ∧
      ∀ draws, c.randomPeer [1] draws 1 0 zeroAddress = some .panicked) ∧
    ∃ c, Reachable [0] c ∧ c.connectedPeers.peers = [[1]] ∧
      ∀ draws, (∀ k, draws k = some 0) →
        ∀ fuel k addr, c.randomPeer [1] draws fuel k addr = none := by
  have hEmpty : ∃ c, Reachable [0] c ∧ c.connectedPeers.length = 0 :=
    exists_reach [.connected [1], .disconnected [1]] (by decide +kernel)
  have hAlone : ∃ c, Reachable [0] c ∧ c = ⟨⟨[[1]], [0], [0]⟩, ⟨[[2]], [0], [0]⟩⟩ :=
    exists_reach [.connected [1], .connected [2], .disconnected [2]] (by decide +kernel)
  constructor
  · rcases hEmpty with ⟨c, hReach, hNone⟩
    exact ⟨c, hReach, fun draws => by rw [randomPeer, if_pos hNone]⟩
  · rcases hAlone with ⟨c, hReach, rfl⟩
    refine ⟨_, hReach, rfl, fun draws hDraws fuel => ?_⟩
    induction fuel with
    | zero => exact fun _ _ => rfl
    | succ fuel ih =>
      intro k addr
      rw [randomPeer, if_neg (by decide), hDraws k]
      exact ih (k + 1) [1]

end Container

end Sana.Topology
