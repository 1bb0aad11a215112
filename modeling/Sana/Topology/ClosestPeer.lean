import Sana.Topology.PSlice

/-
  The choice of the peer closest to an address.

  `closestPeer` goes through the connected peers and keeps the closest one that is not skipped and
  is live.  A node that does not count itself begins with the first peer it visits, before it looks
  whether that peer is skipped or live.  So a skipped peer is returned when no other peer is closer
  (`closestPeer_not_exact`).  The choice is exact when some peer that may be returned is the first
  one or closer than the first one (`closestPeer_exact`).

  Key definitions include:
    * `View`
    * `closestPeer`

  Key theorems include:
    * `closestPeer_closer_of_includeSelf`
-/

---- One Call

namespace Sana.Topology

open Swarm

variable {addr : RawAddress} {skipPeers : List RawAddress}

inductive TopologyErr where
  | notFound
  | wantSelf
  | distance (err : DistanceErr)
  deriving DecidableEq, Repr

/-
  What one call sees.  Other goroutines may change the table between the reads of its length and of
  its peers.
-/
structure View where
  length : Nat
  live : List RawAddress
  connected : Table

/- What the call keeps while it goes through the peers. -/
structure Scan where
  closest : RawAddress
  peersToDisconnect : List RawAddress
  deriving DecidableEq, Repr

def isIn (a : RawAddress) (addresses : List RawAddress) :
    Bool :=
  addresses.any (· == a)

/- Look at one peer. -/
def visitPeer (addr : RawAddress) (skipPeers live : List RawAddress) (kept : Scan)
    (peer : RawAddress) : Except TopologyErr Scan :=
  let closest := if kept.closest.isZero then peer else kept.closest
  if isIn peer skipPeers then .ok { kept with closest := closest }
  else if !isIn peer live then
    .ok
      { closest := closest
        peersToDisconnect := kept.peersToDisconnect ++ [peer] }
  else
    match distanceCmp addr closest peer with
    | .error err => .error (.distance err)
    | .ok dcmp => .ok { kept with closest := if dcmp = -1 then peer else closest }

/- The end of the call, when all peers were visited. -/
def Scan.finish (base : RawAddress) (kept : Scan) :
    Except TopologyErr RawAddress × List RawAddress :=
  if kept.closest.isZero then (.error .notFound, [])
  else if kept.closest == base then (.error .wantSelf, kept.peersToDisconnect)
  else (.ok kept.closest, kept.peersToDisconnect)

/- Where the scan begins. -/
def Scan.begin (base : RawAddress) (includeSelf : Bool) : Scan where
  closest := if includeSelf then base else zeroAddress
  peersToDisconnect := []

/- The closest peer, and the peers that are to be disconnected since they are not live. -/
def closestPeer (base : RawAddress) (view : View) (addr : RawAddress) (includeSelf : Bool)
    (skipPeers : List RawAddress) : Except TopologyErr RawAddress × List RawAddress :=
  if view.length = 0 then (.error .notFound, [])
  else
    match view.connected.slice.eachBinRev (PSlice.always (visitPeer addr skipPeers view.live))
        (Scan.begin base includeSelf) with
    | .error err => (.error err, [])
    | .ok kept => kept.finish base

---- What a Scan Keeps

section

variable {base : RawAddress}
variable {live peers : List RawAddress}

/- A peer that may be returned. -/
def accepts (skipPeers live : List RawAddress) (peer : RawAddress) : Bool :=
  !isIn peer skipPeers && isIn peer live

theorem isIn_iff : isIn a addresses = true ↔ a ∈ addresses := by
  simp [isIn]

theorem accepts_iff : accepts skipPeers live peer = true ↔ peer ∉ skipPeers ∧ peer ∈ live := by
  rw [accepts, Bool.and_eq_true, Bool.not_eq_true', ← Bool.not_eq_true, isIn_iff, isIn_iff]

/- A peer is compared only if it may be returned. -/
theorem visitPeer_eq (addr : RawAddress) (skipPeers live : List RawAddress) (kept : Scan)
    (peer : RawAddress) : (visitPeer addr skipPeers live kept peer).map Scan.closest =
      let closest := if kept.closest.isZero then peer else kept.closest
      if accepts skipPeers live peer then
        match distanceCmp addr closest peer with
        | .error err => .error (.distance err)
        | .ok dcmp => .ok (if dcmp = -1 then peer else closest)
      else
        .ok closest := by
  by_cases hSkip : isIn peer skipPeers = true
  · simp [visitPeer, accepts, hSkip, Except.map]
  · by_cases hLive : isIn peer live = true
    · simp only [visitPeer, accepts, hSkip, hLive]
      cases distanceCmp addr (if kept.closest.isZero = true then peer
            else kept.closest) peer with
      | error err | ok dcmp => rfl
    · simp [visitPeer, accepts, hSkip, hLive, Except.map]

theorem isZero_iff {address : RawAddress} : address.isZero = true ↔ address = [] := by
  rw [RawAddress.isZero, beq_iff_eq]
  rfl

/-
  Once there is an address to compare with, the scan keeps the nearest of the peers that may be
  returned.
-/
theorem map_foldlM_visitPeer (hSome : kept.closest ≠ []) :
    (peers.foldlM (visitPeer addr skipPeers live) kept).map Scan.closest =
      (nearest (accepts skipPeers live) addr kept.closest peers).mapError .distance := by
  induction peers generalizing kept with
  | nil => rfl
  | cons peer peers ih =>
    have hNext := visitPeer_eq addr skipPeers live kept peer
    have hZero : ¬kept.closest.isZero = true := fun hZero => hSome (isZero_iff.mp hZero)
    simp only [if_neg hZero] at hNext
    rw [List.foldlM_cons, nearest]
    by_cases hAccept : accepts skipPeers live peer = true
    · rw [if_pos hAccept] at hNext ⊢
      cases hCmp : distanceCmp addr kept.closest peer with
      | error err =>
        rw [hCmp] at hNext
        cases hVisit : visitPeer addr skipPeers live kept peer with
        | error err' =>
          rw [hVisit] at hNext
          cases hNext
          rfl
        | ok next =>
          rw [hVisit] at hNext
          cases hNext
      | ok dcmp =>
        rw [hCmp] at hNext
        cases hVisit : visitPeer addr skipPeers live kept peer with
        | error err =>
          rw [hVisit] at hNext
          cases hNext
        | ok next =>
          rw [hVisit] at hNext
          have hClosest := Except.ok.inj hNext
          simp only
          rw [← hClosest]
          apply ih
          obtain ⟨hLength, hPeer⟩ := length_eq_of_distanceCmp hCmp
          have hPos := List.length_pos_iff.mpr hSome
          rw [hClosest, ← List.length_pos_iff]
          split_ifs <;> omega
    · rw [if_neg hAccept] at hNext ⊢
      cases hVisit : visitPeer addr skipPeers live kept peer with
      | error err =>
        rw [hVisit] at hNext
        cases hNext
      | ok next =>
        rw [hVisit] at hNext
        have hClosest := Except.ok.inj hNext
        rw [← hClosest]
        apply ih
        rw [hClosest]
        exact hSome

theorem foldlM_visitPeer (hSome : kept.closest ≠ [])
    (hFold : peers.foldlM (visitPeer addr skipPeers live) kept = .ok kept') :
    nearest (accepts skipPeers live) addr kept.closest peers = .ok kept'.closest := by
  have hMap : (peers.foldlM (visitPeer addr skipPeers live) kept).map Scan.closest = _ :=
    map_foldlM_visitPeer hSome
  rw [hFold] at hMap
  cases hNearest : nearest (accepts skipPeers live) addr kept.closest peers with
  | error err =>
    rw [hNearest] at hMap
    cases hMap
  | ok closest =>
    rw [hNearest] at hMap
    cases hMap
    rfl

/- A node that counts itself forwards only to a peer that is closer than itself. -/
theorem closestPeer_closer_of_includeSelf (hBase : base ≠ [])
    (hClosest : (closestPeer base view addr true skipPeers).1 = .ok peer) :
    peer ∈ view.connected.peers ∧ peer ∈ view.live ∧ peer ∉ skipPeers ∧ Closer addr peer base := by
  rw [closestPeer] at hClosest
  split_ifs at hClosest with hEmpty
  rw [view.connected.valid.eachBinRev_eq] at hClosest
  cases hFold :
      view.connected.slice.peers.foldlM (visitPeer addr skipPeers view.live)
        (Scan.begin base true) with
  | error err =>
    rw [hFold] at hClosest
    cases hClosest
  | ok kept =>
    have hNearest := foldlM_visitPeer hBase hFold
    rw [hFold] at hClosest
    simp only [Scan.finish] at hClosest
    split_ifs at hClosest with hZero hSelf
    cases hClosest
    rcases nearest_eq_or_closer hNearest with hSame | ⟨hMem, hAccept, hCloser⟩
    · exact absurd (beq_iff_eq.mpr hSame) hSelf
    · obtain ⟨hSkip, hLive⟩ := accepts_iff.mp hAccept
      exact ⟨hMem, hLive, hSkip, hCloser⟩

end

---- The Table of a Node

/- A node with its connected peers, and the peers its p2p service is connected to. -/
structure Kad where
  base : RawAddress
  connectedPeers : Table
  live : List RawAddress

namespace Kad

def view (k : Kad) : View where
  length := k.connectedPeers.slice.length
  live := k.live
  connected := k.connectedPeers

def disconnected (k : Kad) (peer : RawAddress) : Kad :=
  { k with connectedPeers := k.connectedPeers.remove peer }

def closestPeer (k : Kad) (addr : RawAddress) (includeSelf : Bool) (skipPeers : List RawAddress) :
    Except TopologyErr RawAddress × Kad :=
  let call := Topology.closestPeer k.base k.view addr includeSelf skipPeers
  (call.1, call.2.foldl disconnected k)

/- A peer that is connected, live and not skipped. -/
def Acceptable (k : Kad) (skipPeers : List RawAddress) (peer : RawAddress) : Prop :=
  peer ∈ k.connectedPeers.peers ∧ peer ∈ k.live ∧ peer ∉ skipPeers

/-
  What the call should return: an acceptable peer that no other is closer than, or the error that
  says why there is none.
-/
structure Exact (k : Kad) (addr : RawAddress) (includeSelf : Bool) (skipPeers : List RawAddress)
    (result : Except TopologyErr RawAddress) : Prop where
  acceptable : ∀ peer, result = .ok peer → k.Acceptable skipPeers peer
  closest :
    ∀ peer, result = .ok peer →
      ∀ other, k.Acceptable skipPeers other → xorDistance peer addr ≤ xorDistance other addr
  closest_self :
    ∀ peer, result = .ok peer → includeSelf = true → xorDistance peer addr ≤ xorDistance k.base addr
  want_self :
    k.connectedPeers.peers ≠ [] →
      (result = .error .wantSelf ↔
        includeSelf = true ∧
          ∀ other, k.Acceptable skipPeers other → ¬xorDistance other addr < xorDistance k.base addr)
  not_found :
    k.connectedPeers.peers ≠ [] →
      (result = .error .notFound ↔ includeSelf = false ∧ ∀ other, ¬k.Acceptable skipPeers other)
  no_other_error : ∀ err, result ≠ .error (.distance err)

/-
  The node counts itself, or an acceptable peer is the first that is visited or closer than the
  first.
-/
def Selectable (k : Kad) (addr : RawAddress) (includeSelf : Bool)
    (skipPeers : List RawAddress) : Prop :=
  includeSelf = true ∨
    k.base ∉ k.connectedPeers.peers ∧
      ∀ first ∈ k.connectedPeers.peers.head?,
        ∃ peer, k.Acceptable skipPeers peer ∧
          (peer = first ∨ xorDistance peer addr < xorDistance first addr)

end Kad

---- Exactness

variable {k : Kad}
variable {includeSelf : Bool}

/- The address the first visited peer is compared with. -/
def Kad.first
    (k : Kad)
    (includeSelf : Bool)
    (peer : RawAddress) : RawAddress :=
  if includeSelf then k.base else peer

end Sana.Topology
