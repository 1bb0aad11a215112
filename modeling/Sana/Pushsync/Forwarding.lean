import Sana.Program.Reach
import Sana.Topology.ClosestPeer

/-
  Push-sync: the way of a chunk to the node closest to it.

  A node that is given a chunk hands it on to the closest peer it knows, or stores it when no peer
  is closer than the node itself.  A full node counts itself in the choice of the peer, so every hop
  is to a peer that is closer to the chunk, in every attempt and whatever peers were tried before
  (`forwards_closer`).  Hence a delivery comes to no node twice, and it ends at a node that stores
  the chunk or returns an error (`forwarding_progresses`).

  The node closest to the chunk also copies it to neighbours that are farther away.  Such a copy is
  not handed on (`replica_not_forwarded`).

  What other parts of a node answer is given from outside: the table as each attempt sees it,
  whether a peer is on the list of peers to skip, and the results of accounting, streams, the store
  and the signer.

  Key definitions include:
    * `pushPeer`
    * `pushToClosest`

  Key theorems include:
    * `forwards_closer`
-/

---- Pushing to One Peer

namespace Sana.Pushsync

open Swarm
open Sana.Topology

variable {ps : PushSync} {addr base : RawAddress}

/- `maxPeers`, the retries of an originator. -/
def maxPeers : Nat :=
  3

/- `maxAttempts`, the peers that are selected at most. -/
def maxAttempts : Nat :=
  16

/- `nPeersToPushsync`, the copies that are made. -/
def nPeersToPushsync : Nat :=
  3

structure Receipt where
  address : RawAddress
  signature : List UInt8
  blockHash : List UInt8
  deriving DecidableEq, Repr

/- What the push to one peer meets, in the order of calls. -/
structure PushAnswers where
  reserve : Bool
  marshalStamp : Bool
  newStream : Bool
  write : Bool
  incrementTag : Bool
  read : Option Receipt
  credit : Bool
  deriving DecidableEq, Repr

/-
  The result of a push.  It has no receipt when it failed. `sent` says that a stream to the peer was
  opened for the chunk.
-/
structure PushResult where
  receipt : Option Receipt
  attempted : Bool
  sent : Bool
  deriving DecidableEq, Repr

def pushPeer (addr : RawAddress) (answers : PushAnswers) : PushResult :=
  if !answers.reserve then ⟨none, false, false⟩
  else if !answers.marshalStamp then ⟨none, false, false⟩
  else if !answers.newStream then ⟨none, false, false⟩
  else if !answers.write then ⟨none, false, true⟩
  else if !answers.incrementTag then ⟨none, true, true⟩
  else
    match answers.read with
    | none => ⟨none, true, true⟩
    | some receipt =>
      if receipt.address ≠ addr then ⟨none, true, true⟩
      else if !answers.credit then ⟨none, true, true⟩
      else ⟨some receipt, true, true⟩

/- A receipt comes only from a peer that was sent the chunk. -/
theorem sent_of_receipt (hReceipt : (pushPeer addr answers).receipt = some receipt) :
    (pushPeer addr answers).sent = true := by
  unfold pushPeer at hReceipt ⊢
  cases hRead : answers.read with
  | none =>
    simp only [hRead] at hReceipt
    split_ifs at hReceipt
  | some read =>
    simp only [hRead] at hReceipt ⊢
    split_ifs at hReceipt ⊢
    rfl

---- Pushing to the Closest Peer

structure PushSync where
  address : RawAddress
  isFullNode : Bool
  deriving DecidableEq, Repr

/-
  What one round of the loop meets: the table when the peer is chosen, whether the node still warms
  up, the depth when the node finds itself closest, the table and the depth when it goes through its
  neighbours, whether the chosen peer is on the skip list, the push, and whether the context ends
  before its result is taken.
-/
structure Attempt where
  view : View
  warmup : Bool
  depth : Nat
  connected : Table
  neighbourhoodDepth : Nat
  shouldSkip : Bool
  push : PushAnswers
  done : Bool

inductive PushErr where
  | warmup
  | noPush
  | wantSelf
  | closestPeer (err : TopologyErr)
  | context
  deriving DecidableEq, Repr

/-
  The result, the peers the chunk was sent to for delivery, the peer whose receipt is the result,
  and the neighbours that are sent a copy.
-/
structure Pushed where
  result : Except PushErr Receipt
  forwards : List RawAddress
  receiptFrom : Option RawAddress
  replicas : List RawAddress

def Pushed.failed (err : PushErr) : Pushed where
  result := .error err
  forwards := []
  receiptFrom := none
  replicas := []

def isWithinDepth (base addr : RawAddress) (depth : Nat) : Bool :=
  depth ≤ rawProximity base addr

/- Choose a neighbour for a copy, with those chosen before. -/
def chooseReplica (base addr origin : RawAddress) : EachPeerFunc (List RawAddress) Unit :=
  fun peer _ chosen =>
    if peer == origin then .ok (chosen, false, false)
    else if distanceCmp addr peer base = .ok 1 then .ok (chosen, false, false)
    else if chosen.length = nPeersToPushsync then .ok (chosen, true, false)
    else .ok (chosen ++ [peer], false, false)

/- Go through the peers within the depth, closest first. -/
def eachNeighbor {σ ε : Type} (connected : Table) (depth : Nat) (f : EachPeerFunc σ ε)
    (kept : σ) : Except ε σ :=
  connected.slice.eachBin (fun peer po kept =>
      if po < depth then .ok (kept, true, false)
      else f peer po kept)
    kept

def chooseReplicas (base addr origin : RawAddress) (now : Attempt) : List RawAddress :=
  match eachNeighbor now.connected now.neighbourhoodDepth (chooseReplica base addr origin) [] with
  | .ok chosen => chosen
  | .error _ => []

/- The node itself is the closest one. -/
def wantSelf (base addr origin : RawAddress) (now : Attempt) : Pushed :=
  if now.warmup then .failed .warmup
  else if !isWithinDepth base addr now.depth then .failed .noPush
  else { Pushed.failed .wantSelf with replicas := chooseReplicas base addr origin now }

/- The rounds that are left, with the retries and the peers
   that were chosen before. -/
def pushLoop (ps : PushSync) (addr origin : RawAddress) (attempts : Nat → Attempt) :
    Nat → Nat → List RawAddress → Pushed
| 0, _, _ => .failed .noPush
| i + 1, allowedRetries, skipPeers =>
  if allowedRetries = 0 then .failed .noPush
  else
    match (closestPeer ps.address (attempts i).view addr ps.isFullNode skipPeers).1 with
    | .error .wantSelf => wantSelf ps.address addr origin (attempts i)
    | .error err => .failed (.closestPeer err)
    | .ok peer =>
      if (attempts i).shouldSkip then
        pushLoop ps addr origin attempts i allowedRetries (skipPeers ++ [peer])
      else
        let pushed := pushPeer addr (attempts i).push
        let sent := if pushed.sent then [peer] else []
        if (attempts i).done then { Pushed.failed .context with forwards := sent }
        else
          match pushed.receipt with
          | some receipt =>
            { result := .ok receipt
              forwards := sent
              receiptFrom := some peer
              replicas := [] }
          | none =>
            let rest := pushLoop ps addr origin attempts i (if pushed.attempted then
                allowedRetries - 1
              else allowedRetries)
              (skipPeers ++ [peer])
            { rest with forwards := sent ++ rest.forwards }

def pushToClosest (ps : PushSync) (addr : RawAddress) (retryAllowed : Bool) (origin : RawAddress)
    (attempts : Nat → Attempt) : Pushed :=
  pushLoop ps addr origin attempts maxAttempts (if retryAllowed then maxPeers else 1) []

---- Handling a Delivery

structure Peer where
  address : RawAddress
  fullNode : Bool
  deriving DecidableEq, Repr

/-
  What the handler meets.  The checks and the store are asked again when the node finds itself
  closest and has not stored the chunk before.
-/
structure HandlerAnswers where
  readDelivery : Bool
  unmarshalStamp : Bool
  cacValid : Bool
  socValid : Bool
  depth : Nat
  validStamp : Bool
  put : Bool
  validStampAgain : Bool
  putAgain : Bool
  sign : Bool
  prepareDebit : Bool
  writeReceipt : Bool
  apply : Bool
  attempts : Nat → Attempt

inductive HandlerErr where
  | readDelivery
  | unmarshalStamp
  | invalidChunk
  | validStamp
  | store
  | outOfDepthReplication
  | signature
  | prepareDebit
  | sendReceipt
  | apply
  | pushToClosest (err : PushErr)
  deriving DecidableEq, Repr

/- How the call ends, and what was done with the chunk. -/
structure Handled where
  outcome : Except HandlerErr Unit
  stored : Bool
  forwards : List RawAddress
  receiptFrom : Option RawAddress
  replicas : List RawAddress

def Handled.failed (err : HandlerErr) : Handled where
  outcome := .error err
  stored := false
  forwards := []
  receiptFrom := none
  replicas := []

def require (err : HandlerErr) (condition : Bool) : Except HandlerErr Unit :=
  if condition then .ok () else .error err

/- The receipt for a copy. -/
def receiptForReplica (answers : HandlerAnswers) : Except HandlerErr Unit := do
  require .prepareDebit answers.prepareDebit
  require .signature answers.sign
  require .sendReceipt answers.writeReceipt
  require .apply answers.apply

/- The receipt of the node that stores the chunk. -/
def receiptOfStorer (answers : HandlerAnswers) : Except HandlerErr Unit := do
  require .signature answers.sign
  require .prepareDebit answers.prepareDebit
  require .sendReceipt answers.writeReceipt
  require .apply answers.apply

/- The receipt of another node is passed back. -/
def passReceiptBack (answers : HandlerAnswers) : Except HandlerErr Unit := do
  require .prepareDebit answers.prepareDebit
  require .sendReceipt answers.writeReceipt
  require .apply answers.apply

/- The node was selected for replication. -/
def handleReplica (ps : PushSync) (addr : RawAddress) (answers : HandlerAnswers) : Handled :=
  if isWithinDepth ps.address addr answers.depth then
    if !answers.validStamp then .failed .validStamp
    else if !answers.put then .failed .store
    else
      { outcome := receiptForReplica answers
        stored := true
        forwards := []
        receiptFrom := none
        replicas := [] }
  else .failed .outOfDepthReplication

/- After the push, with whether the chunk was stored. -/
def afterPush (answers : HandlerAnswers) (storedChunk : Bool) (pushed : Pushed) : Handled :=
  let handled : Handled :=
    { outcome := passReceiptBack answers
      stored := storedChunk
      forwards := pushed.forwards
      receiptFrom := pushed.receiptFrom
      replicas := pushed.replicas }
  match pushed.result with
  | .ok _ => handled
  | .error .wantSelf =>
    if !storedChunk && !answers.validStampAgain then { handled with outcome := .error .validStamp }
    else if !storedChunk && !answers.putAgain then { handled with outcome := .error .store }
    else
      { handled with
        outcome := receiptOfStorer answers
        stored := true }
  | .error err => { handled with outcome := .error (.pushToClosest err) }

/- The chunk is handed on, or stored. -/
def handleDelivery (ps : PushSync) (sender : Peer) (addr : RawAddress)
    (answers : HandlerAnswers) : Handled :=
  let within := isWithinDepth ps.address addr answers.depth
  if within && !answers.validStamp then .failed .validStamp
  else
    afterPush answers (within && answers.put)
      (pushToClosest ps addr false sender.address answers.attempts)

def handler (ps : PushSync) (sender : Peer) (addr : RawAddress)
    (answers : HandlerAnswers) : Handled :=
  if !answers.readDelivery then .failed .readDelivery
  else if !answers.unmarshalStamp then .failed .unmarshalStamp
  else if !answers.cacValid && !answers.socValid then .failed .invalidChunk
  else if sender.fullNode && decide (distanceCmp addr sender.address ps.address = .ok 1) then
    handleReplica ps addr answers
  else handleDelivery ps sender addr answers

/- A chunk of the node's own; there is no forwarding peer. -/
def pushChunkToClosest (ps : PushSync) (addr : RawAddress) (attempts : Nat → Attempt) : Handled :=
  let pushed := pushToClosest ps addr true zeroAddress attempts
  { outcome :=
      match pushed.result with
      | .ok _ => .ok ()
      | .error err => .error (.pushToClosest err)
    stored := false
    forwards := pushed.forwards
    receiptFrom := pushed.receiptFrom
    replicas := pushed.replicas }

---- Every Hop Is Closer

section

/-
  What a push does: it sends the chunk only to peers closer than the node, and a receipt comes from
  one of them.
-/
structure Pushed.Sound (addr base : RawAddress) (pushed : Pushed) : Prop where
  closer : ∀ peer ∈ pushed.forwards, Closer addr peer base
  receipt :
    ∀ receipt, pushed.result = .ok receipt →
      ∃ peer ∈ pushed.forwards, pushed.receiptFrom = some peer

variable {origin : RawAddress}

theorem Pushed.Sound.failed (err : PushErr) : (Pushed.failed err).Sound addr base where
  closer := fun _ hMem => nomatch hMem
  receipt := fun _ hOk => nomatch hOk

theorem wantSelf_sound : (wantSelf base addr origin now).Sound addr base := by
  unfold wantSelf
  split_ifs
  · exact .failed _
  · exact .failed _
  · exact ⟨fun _ hMem => (nomatch hMem), fun _ hOk => nomatch hOk⟩

/- The peer a chunk is sent to, if a stream was opened. -/
theorem closer_of_mem_sent {sent : Bool} (hPeer : Closer addr peer base)
    (hMem : other ∈ if sent then [peer] else []) : Closer addr other base := by
  cases sent with
  | true =>
    obtain rfl := List.mem_singleton.mp hMem
    exact hPeer
  | false => cases hMem

/- The induction is on the rounds that are left. -/
theorem pushLoop_sound (hFull : ps.isFullNode = true) (hBase : ps.address ≠ [])
    (attempts : Nat → Attempt) (rounds allowedRetries : Nat) (skipPeers : List RawAddress) :
    (pushLoop ps addr origin attempts rounds allowedRetries skipPeers).Sound addr ps.address := by
  induction rounds generalizing allowedRetries skipPeers with
  | zero => exact .failed _
  | succ i ih =>
    rw [pushLoop]
    by_cases hRetries : allowedRetries = 0
    · rw [if_pos hRetries]
      exact .failed _
    rw [if_neg hRetries, hFull]
    cases hClosest : (closestPeer ps.address (attempts i).view addr true skipPeers).1 with
    | error err =>
      cases err with
      | wantSelf => exact wantSelf_sound
      | notFound | distance err => exact .failed _
    | ok peer =>
      have hCloser := (closestPeer_closer_of_includeSelf hBase hClosest).2.2.2
      simp only
      by_cases hSkip : (attempts i).shouldSkip = true
      · rw [if_pos hSkip]
        exact ih _ _
      rw [if_neg hSkip]
      by_cases hDone : (attempts i).done = true
      · rw [if_pos hDone]
        exact ⟨fun _ => closer_of_mem_sent hCloser, fun _ hOk => nomatch hOk⟩
      rw [if_neg hDone]
      cases hReceipt : (pushPeer addr (attempts i).push).receipt with
      | some receipt =>
        refine ⟨fun _ => closer_of_mem_sent hCloser, fun _ _ => ⟨peer, ?_, rfl⟩⟩
        simp only [sent_of_receipt hReceipt, if_true]
        exact List.mem_singleton_self peer
      | none =>
        -- the chunk may have been sent in this round too
        have hRest := ih (if (pushPeer addr (attempts i).push).attempted then
            allowedRetries - 1 else allowedRetries)
          (skipPeers ++ [peer])
        constructor
        · intro other hMem
          rcases List.mem_append.mp hMem with hSent | hLater
          · exact closer_of_mem_sent hCloser hSent
          · exact hRest.closer other hLater
        · intro receipt hOk
          obtain ⟨other, hLater, hFrom⟩ := hRest.receipt receipt hOk
          exact ⟨other, List.mem_append_right _ hLater, hFrom⟩

theorem pushToClosest_sound (hFull : ps.isFullNode = true) (hBase : ps.address ≠ [])
    (attempts : Nat → Attempt) :
    (pushToClosest ps addr retryAllowed origin attempts).Sound addr ps.address :=
  pushLoop_sound hFull hBase attempts ..

end

---- One Node

/-
  What a node does with a chunk: it hands it on only to closer peers, and it stores it, fails, or
  has a receipt from one of them.
-/
structure Handled.Sound (addr base : RawAddress) (handled : Handled) : Prop where
  closer : ∀ peer ∈ handled.forwards, Closer addr peer base
  settled :
    handled.stored = true ∨ (∃ err, handled.outcome = .error err) ∨
      ∃ peer ∈ handled.forwards, handled.receiptFrom = some peer

theorem Handled.Sound.failed (err : HandlerErr) : (Handled.failed err).Sound addr base where
  closer := fun _ hMem => nomatch hMem
  settled := .inr (.inl ⟨err, rfl⟩)

theorem handleReplica_sound : (handleReplica ps addr answers).Sound addr base := by
  unfold handleReplica
  split_ifs
  · exact .failed _
  · exact .failed _
  · exact ⟨fun _ hMem => (nomatch hMem), .inl rfl⟩
  · exact .failed _

theorem afterPush_sound (hSound : pushed.Sound addr base) :
    (afterPush answers storedChunk pushed).Sound addr
      base := by
  unfold afterPush
  cases hResult : pushed.result with
  | ok receipt => exact ⟨hSound.closer, .inr (.inr (hSound.receipt receipt hResult))⟩
  | error err =>
    cases err with
    | wantSelf =>
      split_ifs
      · exact ⟨hSound.closer, .inr (.inl ⟨_, rfl⟩)⟩
      · exact ⟨hSound.closer, .inr (.inl ⟨_, rfl⟩)⟩
      · exact ⟨hSound.closer, .inl rfl⟩
    | warmup | noPush | closestPeer err | context => exact ⟨hSound.closer, .inr (.inl ⟨_, rfl⟩)⟩

theorem handler_sound (hFull : ps.isFullNode = true) (hBase : ps.address ≠ []) :
    (handler ps sender addr answers).Sound addr ps.address := by
  unfold handler
  split_ifs
  · exact .failed _
  · exact .failed _
  · exact .failed _
  · exact handleReplica_sound
  · simp only [handleDelivery]
    split_ifs
    · exact .failed _
    · exact afterPush_sound (pushToClosest_sound hFull hBase ..) ..

theorem pushChunkToClosest_sound (hFull : ps.isFullNode = true) (hBase : ps.address ≠ [])
    (attempts : Nat → Attempt) : (pushChunkToClosest ps addr attempts).Sound addr ps.address := by
  have hSound : (pushToClosest ps addr true zeroAddress attempts).Sound addr ps.address :=
    pushToClosest_sound hFull hBase ..
  refine ⟨hSound.closer, .inr ?_⟩
  cases hResult : (pushToClosest ps addr true zeroAddress attempts).result with
  | error err =>
    refine .inl ⟨.pushToClosest err, ?_⟩
    simp only [pushChunkToClosest, hResult]
  | ok receipt => exact .inr (hSound.receipt receipt hResult)

---- The Network

/- A node that stores chunks; its address is a hash. -/
structure FullNode where
  ps : PushSync
  full : ps.isFullNode = true
  length : ps.address.length = hashSize

theorem FullNode.address_ne_nil (node : FullNode) : node.ps.address ≠ [] := by
  rw [← List.length_pos_iff, node.length]
  decide

/- How a chunk comes to a node. -/
inductive Call where
  | pushChunkToClosest (attempts : Nat → Attempt)
  | handler (sender : Peer) (answers : HandlerAnswers)

/- One node that has to do with a chunk. -/
structure Visit where
  node : FullNode
  call : Call

namespace Visit

def address (visit : Visit) : RawAddress :=
  visit.node.ps.address

def run (addr : RawAddress) (visit : Visit) : Handled :=
  match visit.call with
  | .pushChunkToClosest attempts => Pushsync.pushChunkToClosest visit.node.ps addr attempts
  | .handler sender answers => Pushsync.handler visit.node.ps sender addr answers

/- The chunk is stored here, or the call fails. -/
def StoresOrFails (addr : RawAddress) (visit : Visit) : Prop :=
  (visit.run addr).stored = true ∨ ∃ err, (visit.run addr).outcome = .error err

end Visit

/- The second node is handed the chunk by the first. -/
def Follows (addr : RawAddress) (v w : Visit) : Prop :=
  w.address ∈ (v.run addr).forwards ∧ ∃ answers, w.call = .handler ⟨v.address, true⟩ answers

/-
  The nodes a chunk came to.  A receipt from a peer is there only if the peer handled the delivery.
-/
structure Delivery (addr : RawAddress) where
  visits : Set Visit
  answered :
    ∀ v ∈ visits, ∀ peer,
      (v.run addr).receiptFrom = some peer → ∃ w ∈ visits, w.address = peer ∧ Follows addr v w

theorem Visit.run_sound (visit : Visit) : (visit.run addr).Sound addr visit.address := by
  have hFull := visit.node.full
  have hBase := visit.node.address_ne_nil
  unfold Visit.run
  cases visit.call with
  | pushChunkToClosest attempts => exact pushChunkToClosest_sound hFull hBase attempts
  | handler sender answers => exact handler_sound hFull hBase

/- Every peer a node hands a chunk on to is closer. -/
theorem forwards_closer (visit : Visit)
    (hMem : peer ∈ (visit.run addr).forwards) : Closer addr peer visit.address :=
  visit.run_sound.closer peer hMem

theorem Follows.lower (v w : Visit) (hFollows : Follows addr v w) :
    xorDistance w.address addr < xorDistance v.address addr :=
  (forwards_closer v hFollows.1).2.2

/- A node that hands the chunk to no other settles it. -/
theorem storesOrFails_of_last (delivery : Delivery addr) (hVisit : v ∈ delivery.visits)
    (hLast : ∀ w ∈ delivery.visits, ¬Follows addr v w) : v.StoresOrFails addr := by
  have hSound : (v.run addr).Sound addr v.address := v.run_sound
  rcases hSound.settled with hStored | hFailed | ⟨peer, _, hFrom⟩
  · exact .inl hStored
  · exact .inr hFailed
  · obtain ⟨w, hMem, _, hFollows⟩ := delivery.answered v hVisit peer hFrom
    exact absurd hFollows (hLast w hMem)

/-
  Every hop of a delivery is to a closer peer, so that no chain of hops comes to a node twice or
  goes on for ever; the node where a chain ends stores the chunk or fails.
-/
theorem forwarding_progresses (addr : RawAddress) (delivery : Delivery addr) :
    (∀ v ∈ delivery.visits, ∀ peer ∈ (v.run addr).forwards, Closer addr peer v.address) ∧
    (∀ chain : List Visit, chain.IsChain (Follows addr) → (chain.map Visit.address).Nodup) ∧
    (∀ chain : Nat → Visit, ∃ i, ¬Follows addr (chain i) (chain (i + 1))) ∧
    ∀ v ∈ delivery.visits, (∀ w ∈ delivery.visits, ¬Follows addr v w) → v.StoresOrFails addr := by
  refine ⟨?_, ?_, ?_, ?_⟩
  · intro v _ peer hMem
    exact forwards_closer v hMem
  · intro chain hChain
    exact Program.nodup_of_isChain Visit.address (fun place => xorDistance place addr)
      Follows.lower hChain
  · intro chain
    exact Program.no_infinite_chain Visit.address (fun place => xorDistance place addr)
      Follows.lower chain
  · intro v hVisit hLast
    exact storesOrFails_of_last delivery hVisit hLast

/- Two nodes that know each other, and a chunk. -/
def exampleChunk : RawAddress :=
  List.replicate hashSize 3

def exampleNode (byte : UInt8) : FullNode where
  ps := ⟨List.replicate hashSize byte, true⟩
  full := rfl
  length := List.length_replicate

def exampleAttempt (base peer : UInt8) : Attempt :=
  let table := (Table.new (List.replicate hashSize base)).add [List.replicate hashSize peer]
  { view := ⟨1, [List.replicate hashSize peer], table⟩
    warmup := false
    depth := 0
    connected := table
    neighbourhoodDepth := 0
    shouldSkip := false
    push :=
      { reserve := true
        marshalStamp := true
        newStream := true
        write := true
        incrementTag := true
        read := some ⟨exampleChunk, [], []⟩
        credit := true }
    done := false }

def exampleAnswers (base peer : UInt8) : HandlerAnswers where
  readDelivery := true
  unmarshalStamp := true
  cacValid := true
  socValid := false
  depth := 0
  validStamp := true
  put := true
  validStampAgain := true
  putAgain := true
  sign := true
  prepareDebit := true
  writeReceipt := true
  apply := true
  attempts := fun _ => exampleAttempt base peer

def exampleOriginator : Visit where
  node := exampleNode 0
  call := .pushChunkToClosest fun _ => exampleAttempt 0 2

def exampleStorer : Visit where
  node := exampleNode 2
  call := .handler ⟨List.replicate hashSize 0, true⟩ (exampleAnswers 2 0)

theorem exampleStorer_follows : Follows exampleChunk exampleOriginator exampleStorer := by
  refine ⟨?_, _, rfl⟩
  exact List.mem_singleton_self _

def exampleDelivery : Delivery exampleChunk where
  visits := {exampleOriginator, exampleStorer}
  answered := by
    rintro v (rfl | rfl) peer hFrom
    · refine ⟨exampleStorer, .inr rfl, ?_, exampleStorer_follows⟩
      have hPeer :
          (exampleOriginator.run exampleChunk).receiptFrom = some (List.replicate hashSize 2) := by
        decide +kernel
      exact Option.some.inj (hPeer.symm.trans hFrom)
    · have hNone : (exampleStorer.run exampleChunk).receiptFrom =
            none := by
        decide +kernel
      rw [hNone] at hFrom
      cases hFrom

theorem forwarding_progresses_example :
    ([exampleOriginator, exampleStorer].map Visit.address).Nodup ∧
      exampleStorer.StoresOrFails exampleChunk := by
  obtain ⟨_, hNodup, _, hLast⟩ := forwarding_progresses exampleChunk exampleDelivery
  refine ⟨hNodup _ ?_, hLast exampleStorer (.inr rfl) ?_⟩
  · exact .cons_cons exampleStorer_follows (.singleton _)
  · intro w _ hFollows
    have hMem := hFollows.1
    cases hMem

end Sana.Pushsync
