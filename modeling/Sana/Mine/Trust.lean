import Sana.KeyValue.Index
import Sana.Program.Handler

/-
  The messages of the trust protocol.

  The payload of a message has no length of its own that is checked.  Its fields are cut out at
  fixed offsets by the handlers of the streams and by the callbacks of the mine service, and a
  payload that is too short stops the node. What lies behind the payload, up to the capacity of its
  slice, is kept apart, since a slice may reach into it.

  Key definitions include:
    * `TrustNode`
    * `TrustEnv`

  Key theorems include:
    * `handle_short_panics`
-/

---- Messages And Nodes

namespace Sana.Mine

open KeyValue Program

/- `swarm.Address`: bytes of any length -/
abbrev Overlay :=
  List UInt8

/- `common.Hash` -/
abbrev Hash :=
  BitVec 256

abbrev EthAddress :=
  BitVec 160

/- Bytes in front are cropped, or filled with zeros. -/
def bytesToHash (bytes : List UInt8) : Hash :=
  BitVec.ofNat 256 (fromBigEndian bytes)

def Hash.bytes (h : Hash) : List UInt8 :=
  bigEndian 32 h.toNat

theorem bytesToHash_bytes (h : Hash) : bytesToHash h.bytes = h := by
  rw [bytesToHash, Hash.bytes, fromBigEndian_bigEndian h.isLt, BitVec.ofNat_toNat,
    BitVec.setWidth_eq]

/- `BigEndian.Uint32` for a width of 4 and `BigEndian.Uint64`
   for a width of 8; there is none if it panics. -/
def uint (width : Nat) (s : Slice UInt8) : Option Nat :=
  if width ≤ s.len then some (fromBigEndian (s.elems.take width))
  else none

inductive TrustStream where
  | sign
  | signRet
  | rollCall
  | rollCallSign
  deriving DecidableEq, Repr

/- A message as it was received. -/
structure Trust where
  expire : Int
  stream : Slice UInt8
  deriving DecidableEq, Repr

/- A message that was written to a peer. -/
structure Sent where
  peer : Overlay
  name : TrustStream
  expire : Int
  stream : List UInt8
  deriving DecidableEq, Repr

/- A call that waits for signatures: how many more messages it
   takes, and the ones it has taken. -/
structure Wait where
  needTrust : Nat
  list : List (List UInt8)
  deriving DecidableEq, Repr

/- A roll call that is to be answered. -/
structure Rcn where
  expire : Int
  height : Nat
  address : Overlay
  deriving DecidableEq, Repr

/- A node of the node service. -/
structure MineNode where
  trust : Bool
  lastBlock : Nat
  ethAddress : EthAddress
  deriving DecidableEq, Repr

structure TrustNode where
  waits : Index Nat Wait
  height : Nat
  rcnc : List Rcn
  nodes : Index Hash MineNode
  sent : List Sent

/- The errors of handlers and callbacks. -/
inductive TrustErr where
  /- "read request from peer %v: %w" -/
  | readRequest
  /- "request is expire from peer %s" -/
  | expire
  /- "observer is nil" -/
  | observerIsNil
  /- "observer is not available" -/
  | observerNotAvailable
  /- "rollcall observer is nil" -/
  | rollcallObserverIsNil
  /- `p2p.ErrPeerNotFound` -/
  | peerNotFound
  /- the errors of `ClosestPeer`, `NewStream`, `WriteMsg` and
     of the context -/
  | closestPeer
  | newStream
  | writeMsg
  | context
  /- the errors of `ExpireOf` and `FreezeOf` -/
  | expireOf
  | freezeOf
  /- "node %v cannot be activated" -/
  | cannotBeActivated
  /- "node %v is freeze" -/
  | isFreeze
  /- "device %v verify fail" -/
  | deviceVerifyFail
  /- `errNotUniswapOracle` -/
  | notUniswapOracle
  /- the errors of the oracle, the signer and the recovery of
     a signature -/
  | price
  | sign
  | recover
  /- the errors of `MinersReceived` and of the node store -/
  | minersReceived
  | put
  /- "%v not found" -/
  | notFound
  /- "invalid signature" -/
  | invalidSignature
  deriving DecidableEq, Repr

abbrev TrustCall (α : Type) :=
  Handler TrustNode TrustErr α

/- What a service is made with. -/
structure TrustService where
  base : Overlay
  /- `topology`, `observer` and `oracle` are not nil -/
  topology : Bool
  observer : Bool
  oracle : Bool

/- The answer to `NewStream`, with that to the write. -/
inductive StreamAnswer where
  | opened (written : Bool)
  | notFound
  | failed
  deriving DecidableEq, Repr

/- The answers in one round of a loop that looks for a peer. -/
structure Attempt where
  closest : Option Overlay
  done : Bool
  stream : StreamAnswer

/- The answers from outside while a message is handled; there
   is none where an error is returned. -/
structure TrustEnv where
  now : Int
  /- until the context is done -/
  attempts : List Attempt
  expireOf : Hash → Option Int
  freezeOf : Hash → Option Bool
  verify : List UInt8 → Bool
  price : Option Nat
  sign : List UInt8 → Option (List UInt8)
  recover : List UInt8 → List UInt8 → Option EthAddress
  minersReceived : Hash → Option EthAddress
  put : Bool
  /- the connected peers, and whether a message gets there -/
  peers : List (Overlay × Bool)

---- The Node Service

/- The parameters that are packed for a signature, by the
   types the source tells apart. -/
inductive Param where
  | hash (h : Hash)
  | int64 (n : Int)
  | int32 (n : Int)
  | address (a : Overlay)
  | bytes (b : List UInt8)

/- Of an `int64` the sign is lost, and an `int32` is dropped:
   the case for it in the source is empty. -/
def encodePacked (params : List Param) : List UInt8 :=
  params.flatMap fun
    | .hash h => h.bytes
    | .int64 n => bigEndian 32 n.natAbs
    | .int32 _ => []
    | .address a => a
    | .bytes b => b

def TrustNode.trustOf (node : TrustNode) (address : Overlay) : Bool :=
  match node.nodes.get (bytesToHash address) with
  | some n => n.trust
  | none => false

def mineAddress (env : TrustEnv) (h : Hash) : TrustCall EthAddress := do
  match ← Handler.get fun node => node.nodes.get h with
  | none => pure 0
  | some n =>
    if n.ethAddress = 0 then do
      let addr ← Handler.answer .minersReceived (env.minersReceived h)
      Handler.modify fun node =>
        { node with
          nodes := node.nodes.put h { n with ethAddress := addr } }
      Handler.check .put env.put
      pure addr
    else pure n.ethAddress

def updateNodeLastBlock (address : Overlay) (blockNumber : Nat) : TrustCall Unit := do
  let h := bytesToHash address
  match ← Handler.get fun node => node.nodes.get h with
  | none => Handler.stop (.err .notFound)
  | some n =>
    if blockNumber ≤ n.lastBlock then pure ()
    else
      Handler.modify fun node =>
        { node with
          nodes := node.nodes.put h { n with lastBlock := blockNumber } }

---- Sending

namespace TrustService

section

variable (s : TrustService)

def write (message : Sent) (written : Bool) : TrustCall Unit := do
  Handler.check .writeMsg written
  Handler.modify fun node => { node with sent := node.sent ++ [message] }

/-
  A message for another node goes to a closer peer.  For some streams, a part of the payload is
  traced first.
-/
def forward (name : TrustStream) (traced : Bool) (source : Overlay)
    (req : Trust) : List Attempt → TrustCall Unit
| [] => Handler.stop (.err .context)
| attempt :: attempts =>
  if s.topology = false then Handler.stop .panic
  else
    match attempt.closest with
    | none => Handler.stop (.err .closestPeer)
    | some peer =>
      if peer = source then Handler.stop (.err .peerNotFound)
      else if attempt.done then Handler.stop (.err .context)
      else
        match attempt.stream with
        | .notFound => forward name traced source req attempts
        | .failed => Handler.stop (.err .newStream)
        | .opened written =>
          if traced then do
            let _ ← Handler.inRange (req.stream.slice 36 68)
            write ⟨peer, name, req.expire, req.stream.elems⟩ written
          else write ⟨peer, name, req.expire, req.stream.elems⟩ written

/- The signature goes to the peer it was asked by, or to one
   that is closer to the target. -/
def pushSignatures (id : Nat) (expire : Int) (data : List UInt8) (target : Overlay) :
    Overlay → List Attempt → TrustCall Unit
| _, [] => Handler.stop (.err .context)
| peer, attempt :: attempts =>
  match attempt.stream with
  | .opened written => write ⟨peer, .signRet, expire, target ++ bigEndian 4 id ++ data⟩ written
  | .failed => Handler.stop (.err (if attempt.done then .context else .newStream))
  | .notFound =>
    if attempt.done then Handler.stop (.err .context)
    else if s.topology = false then Handler.stop .panic
    else
      match attempt.closest with
      | none => Handler.stop (.err .closestPeer)
      | some closer => pushSignatures id expire data target closer attempts

def pushRollCall (env : TrustEnv) (expire : Int) (data : List UInt8)
    (skip : Overlay) : TrustCall Unit :=
  if s.topology = false then Handler.stop .panic
  else
    Handler.modify fun node =>
      { node with
        sent := node.sent ++ (env.peers.filter fun entry =>
            entry.2 && entry.1 ≠ skip).map fun entry => ⟨entry.1, .rollCall, expire, data⟩ }

end

---- Callbacks Of The Mine Service

variable (s : TrustService) (env : TrustEnv)

/- A device behind the first bytes has to be verified. -/
def deviceCate (data : Slice UInt8) : TrustCall Int :=
  if 37 < data.len then do
    let device ← Handler.inRange (data.sliceFrom 37)
    Handler.check .deviceVerifyFail (env.verify device.elems)
    pure 1
  else pure 0

/- The signature, with the price if it is asked for. -/
def signResponse (node : Hash) (cate expire : Int) (withPrice : Bool) : TrustCall (List UInt8) :=
  if withPrice then do
    Handler.check .notUniswapOracle s.oracle
    let price ← Handler.answer .price env.price
    let resp ← Handler.answer .sign
      (env.sign (encodePacked
        [.hash node, .int64 cate, .int64 expire, .hash (BitVec.ofNat 256 price)]))
    pure (resp ++ natBytes price)
  else Handler.answer .sign (env.sign (encodePacked [.hash node, .int64 cate, .int64 expire]))

def notifyTrustSignature (peer : Overlay) (expire : Int) (data : Slice UInt8) : TrustCall Unit := do
  let nodeBytes ← Handler.inRange (data.slice 4 36)
  let node := bytesToHash nodeBytes.elems
  let nodeExpire ← Handler.answer .expireOf (env.expireOf node)
  Handler.check .cannotBeActivated (nodeExpire = 0)
  let freeze ← Handler.answer .freezeOf (env.freezeOf node)
  Handler.check .isFreeze (!freeze)
  let cate ← deviceCate env data
  let op ← Handler.inRange (data.index 36)
  let resp ← s.signResponse env node cate expire (op = 0)
  let idBytes ← Handler.inRange (data.slice 0 4)
  let id ← Handler.inRange (uint 4 idBytes)
  s.pushSignatures id expire resp node.bytes peer env.attempts

/- The channel of roll calls has room for 1024 of them. -/
def enqueue (rc : Rcn) : TrustCall Unit := do
  let queued ← Handler.get fun node => node.rcnc.length
  if queued < 1024 then Handler.modify fun node => { node with rcnc := node.rcnc ++ [rc] }
  else Handler.stop .blocked

def notifyTrustRollCall (peer : Overlay) (expire : Int) (data : Slice UInt8) : TrustCall Unit := do
  let rest ← Handler.inRange (data.sliceFrom 32)
  let height ← Handler.inRange (uint 8 rest)
  let known ← Handler.get TrustNode.height
  if height ≤ known then pure ()
  else do
    Handler.modify fun node => { node with height := height }
    let trust ← Handler.get fun node => node.trustOf s.base
    if trust then s.pushRollCall env expire data.elems peer
    else do
      let address ← Handler.inRange (data.slice 0 32)
      enqueue ⟨expire, height, address.elems⟩
      s.pushRollCall env expire data.elems peer

def notifyTrustRollCallSign (expire : Int) (data : Slice UInt8) : TrustCall Unit := do
  let nodeBytes ← Handler.inRange (data.slice 32 64)
  let node := bytesToHash nodeBytes.elems
  let signature ← Handler.inRange (data.slice 64 129)
  let addr ← Handler.answer .recover
    (env.recover signature.elems (encodePacked [.hash (bytesToHash s.base), .int64 expire]))
  let owner ← mineAddress env node
  if owner = addr then do
    let rest ← Handler.inRange (data.sliceFrom 129)
    let height ← Handler.inRange (uint 8 rest)
    updateNodeLastBlock node.bytes height
  else Handler.stop (.err .invalidSignature)

---- Handlers Of The Streams

/- A message that was read and is not too old. -/
def receive (read : Option Trust) : TrustCall Trust := do
  let req ← Handler.answer .readRequest read
  Handler.check .expire (env.now ≤ req.expire)
  pure req

/- A message begins with the node it is for. -/
def route (name : TrustStream) (traced : Bool) (deliver : Trust → TrustCall Unit) (peer : Overlay)
    (read : Option Trust) : TrustCall Unit := do
  let req ← receive env read
  let target ← Handler.inRange (req.stream.slice 0 32)
  if target.elems = s.base then deliver req
  else s.forward name traced peer req env.attempts

def deliverSign (peer : Overlay) (req : Trust) : TrustCall Unit := do
  Handler.check .observerIsNil s.observer
  let data ← Handler.inRange (req.stream.sliceFrom 32)
  s.notifyTrustSignature env peer req.expire data

/- The call that waits takes the message, or the handler
   blocks with the lock of all waiting calls. -/
def deliverSignRet (req : Trust) : TrustCall Unit := do
  let idBytes ← Handler.inRange (req.stream.slice 32 36)
  let id ← Handler.inRange (uint 4 idBytes)
  match ← Handler.get fun node => node.waits.get id with
  | none => pure ()
  | some w =>
    match w.needTrust with
    | 0 => Handler.stop .blocked
    | needTrust + 1 =>
      Handler.modify fun node =>
        { node with waits := node.waits.put id ⟨needTrust, w.list ++ [req.stream.elems]⟩ }

def deliverRollCallSign (req : Trust) : TrustCall Unit := do
  Handler.check .observerNotAvailable s.observer
  s.notifyTrustRollCallSign env req.expire req.stream

def handlerSign (peer : Overlay) (read : Option Trust) : TrustCall Unit :=
  s.route env .sign true (s.deliverSign env peer) peer read

def handlerSignRet (peer : Overlay) (read : Option Trust) : TrustCall Unit :=
  s.route env .signRet true deliverSignRet peer read

def handlerRollCall (peer : Overlay) (read : Option Trust) : TrustCall Unit := do
  let req ← receive env read
  Handler.check .rollcallObserverIsNil s.observer
  s.notifyTrustRollCall env peer req.expire req.stream

def handlerRollCallSign (peer : Overlay) (read : Option Trust) : TrustCall Unit :=
  s.route env .rollCallSign false (s.deliverRollCallSign env) peer read

/- The handler of each stream. -/
def handle (name : TrustStream) (peer : Overlay) (read : Option Trust) : TrustCall Unit :=
  match name with
  | .sign => s.handlerSign env peer read
  | .signRet => s.handlerSignRet env peer read
  | .rollCall => s.handlerRollCall env peer read
  | .rollCallSign => s.handlerRollCallSign env peer read

end TrustService

---- Payloads That Are Long Enough

/- What a stream reads of a message for the node itself, or of
   one for another node. -/
def minLength : TrustStream → Bool → Nat
| .sign, true => 69
| .sign, false => 68
| .signRet, true => 36
| .signRet, false => 68
| .rollCall, _ => 40
| .rollCallSign, true => 137
| .rollCallSign, false => 32

namespace TrustService

variable {s : TrustService} {env : TrustEnv} {name : TrustStream} {reason : Stop TrustErr}
variable {received spare : List UInt8} {peer : Overlay} {expire : Int} {node : TrustNode}

def LongEnough (s : TrustService) (name : TrustStream) (received : List UInt8) : Prop :=
  minLength name (received.take 32 = s.base) ≤ received.length

/- A call that waits for the signature takes one more, and there is room for one more roll call. -/
def HasRoom (s : TrustService) (received : List UInt8) (node : TrustNode) : TrustStream → Prop
| .signRet =>
  received.take 32 = s.base →
    ∀ w, node.waits.get (fromBigEndian ((received.drop 32).take 4)) = some w → 0 < w.needTrust
| .rollCall => node.trustOf s.base = false → node.rcnc.length < 1024
| .sign => True
| .rollCallSign => True

theorem avoids_write (hReason : ∀ e, Stop.err e ≠ reason) :
    Handler.Avoids reason (write message written) node := by
  refine .check_bind (hReason _) fun _ => ?_
  exact nofun

theorem uint_of_le (hLen : width ≤ bytes.length) :
    uint width ⟨bytes, rest⟩ = some (fromBigEndian (bytes.take width)) :=
  if_pos hLen

theorem avoids_forward (hReason : ∀ e, Stop.err e ≠ reason) (hWired : s.topology = true)
    (hLen : traced = true → 68 ≤ received.length) :
    Handler.Avoids reason
      (s.forward name traced peer ⟨expire, ⟨received, spare⟩⟩ attempts) node := by
  induction attempts with
  | nil => exact .stop (hReason _)
  | cons attempt attempts ih =>
    unfold forward
    rw [if_neg (by rw [hWired]; decide)]
    cases attempt.closest with
    | none => exact .stop (hReason _)
    | some closest =>
      dsimp only
      split
      · exact .stop (hReason _)
      split
      · exact .stop (hReason _)
      cases attempt.stream with
      | notFound => exact ih
      | failed => exact .stop (hReason _)
      | opened written =>
        dsimp only
        split
        next hTraced =>
          exact .inRange_bind (Slice.slice_of_le (by decide) (hLen hTraced))
            (avoids_write hReason)
        · exact avoids_write hReason

theorem avoids_pushSignatures (hReason : ∀ e, Stop.err e ≠ reason) (hWired : s.topology = true)
    {id : Nat} (peer : Overlay) :
    Handler.Avoids reason (s.pushSignatures id expire data target peer attempts)
      node := by
  induction attempts generalizing peer with
  | nil => exact .stop (hReason _)
  | cons attempt attempts ih =>
    unfold pushSignatures
    cases attempt.stream with
    | opened written => exact avoids_write hReason
    | failed => exact .stop (hReason _)
    | notFound =>
      dsimp only
      split
      · exact .stop (hReason _)
      rw [if_neg (by rw [hWired]; decide)]
      cases attempt.closest with
      | none => exact .stop (hReason _)
      | some closer => exact ih closer

theorem avoids_pushRollCall (hWired : s.topology = true) (data : List UInt8) :
    Handler.Avoids reason (s.pushRollCall env expire data peer) node := by
  unfold pushRollCall
  rw [if_neg (by rw [hWired]; decide)]
  exact nofun

theorem avoids_deviceCate (hReason : ∀ e, Stop.err e ≠ reason) :
    Handler.Avoids reason (deviceCate env ⟨received, spare⟩) node := by
  unfold deviceCate
  split
  next hLen =>
    refine .inRange_bind (Slice.sliceFrom_of_le (le_of_lt hLen)) ?_
    exact .check_bind (hReason _) fun _ => nofun
  · exact nofun

theorem avoids_signResponse (hReason : ∀ e, Stop.err e ≠ reason) :
    Handler.Avoids reason (s.signResponse env h cate expire withPrice) node := by
  unfold signResponse
  split
  · refine .check_bind (hReason _) fun _ => ?_
    refine .answer_bind (hReason _) fun _ _ => ?_
    exact .answer_bind (hReason _) fun _ _ => nofun
  · exact .answer (hReason _)

theorem avoids_notifyTrustSignature (hReason : ∀ e, Stop.err e ≠ reason)
    (hWired : s.topology = true) (hLen : 37 ≤ received.length) :
    Handler.Avoids reason (s.notifyTrustSignature env peer expire ⟨received, spare⟩) node := by
  refine .inRange_bind (Slice.slice_of_le (by decide) (by omega)) ?_
  refine .answer_bind (hReason _) fun _ _ => ?_
  refine .check_bind (hReason _) fun _ => ?_
  refine .answer_bind (hReason _) fun _ _ => ?_
  refine .check_bind (hReason _) fun _ => ?_
  refine .bind (avoids_deviceCate hReason) fun _ _ _ => ?_
  refine .inRange_bind (Slice.index_of_lt (by omega)) ?_
  refine .bind (avoids_signResponse hReason) fun _ _ _ => ?_
  refine .inRange_bind (Slice.slice_of_le (by decide) (by omega)) ?_
  refine .inRange_bind (uint_of_le ?_) ?_
  · rw [List.length_take, List.length_drop]
    omega
  · exact avoids_pushSignatures hReason hWired _

theorem avoids_enqueue (hRoom : reason = .blocked → node.rcnc.length < 1024) (rc : Rcn) :
    Handler.Avoids reason (enqueue rc) node := by
  refine .get_bind ?_
  split
  · exact nofun
  next hFull =>
    refine .stop ?_
    intro hBlocked
    exact hFull (hRoom hBlocked.symm)

theorem avoids_notifyTrustRollCall (hWired : s.topology = true) (hLen : 40 ≤ received.length)
    (hRoom : reason = .blocked → s.HasRoom received node .rollCall) :
    Handler.Avoids reason (s.notifyTrustRollCall env peer expire ⟨received, spare⟩) node := by
  refine .inRange_bind (Slice.sliceFrom_of_le (by omega)) ?_
  refine .inRange_bind (uint_of_le ?_) ?_
  · rw [List.length_drop]
    omega
  refine .get_bind ?_
  split
  · exact nofun
  refine .modify_bind (.get_bind ?_)
  split
  · exact avoids_pushRollCall hWired _
  next hTrust =>
  refine .inRange_bind (Slice.slice_of_le (by decide) (by omega)) ?_
  refine .bind (avoids_enqueue ?_ _) fun _ _ _ => avoids_pushRollCall hWired _
  intro hBlocked
  exact hRoom hBlocked (Bool.eq_false_iff.mpr hTrust)

section

variable (hReason : ∀ e, Stop.err e ≠ reason)
include hReason

theorem avoids_mineAddress (h : Hash) : Handler.Avoids reason (mineAddress env h) node := by
  refine .get_bind ?_
  split
  · exact .pure _
  split
  · refine .answer_bind (hReason _) fun _ _ => ?_
    exact .check_bind (hReason _) fun _ => .pure _
  · exact .pure _

theorem avoids_updateNodeLastBlock (address : Overlay)
    (blockNumber : Nat) (node : TrustNode) :
    Handler.Avoids reason (updateNodeLastBlock address blockNumber) node := by
  refine .get_bind ?_
  split
  · exact .stop (hReason _)
  split
  · exact .pure _
  · exact .pure _

theorem avoids_notifyTrustRollCallSign (hLen : 137 ≤ received.length) :
    Handler.Avoids reason (s.notifyTrustRollCallSign env expire ⟨received, spare⟩) node := by
  refine .inRange_bind (Slice.slice_of_le (by decide) (by omega)) ?_
  refine .inRange_bind (Slice.slice_of_le (by decide) (by omega)) ?_
  refine .answer_bind (hReason _) fun _ _ => ?_
  refine .bind (avoids_mineAddress hReason _) fun _ _ _ => ?_
  split
  · refine .inRange_bind (Slice.sliceFrom_of_le (by omega)) ?_
    refine .inRange_bind (uint_of_le ?_) ?_
    · rw [List.length_drop]
      omega
    · exact avoids_updateNodeLastBlock hReason _ _ _
  · exact .stop (hReason _)

theorem avoids_deliverSign (hWired : s.topology = true)
    (hLen : 69 ≤ received.length) :
    Handler.Avoids reason (s.deliverSign env peer ⟨expire, ⟨received, spare⟩⟩)
      node := by
  refine .check_bind (hReason _) fun _ => ?_
  refine .inRange_bind (Slice.sliceFrom_of_le (by omega)) ?_
  refine avoids_notifyTrustSignature hReason hWired ?_
  rw [List.length_drop]
  omega

end

theorem avoids_deliverSignRet (hLen : 36 ≤ received.length) (hBase : received.take 32 = s.base)
    (hRoom : reason = .blocked → s.HasRoom received node .signRet) :
    Handler.Avoids reason (deliverSignRet ⟨expire, ⟨received, spare⟩⟩) node := by
  refine .inRange_bind (Slice.slice_of_le (by decide) hLen) ?_
  refine .inRange_bind (uint_of_le ?_) ?_
  · rw [List.length_take, List.length_drop]
    exact le_min (by decide) (by omega)
  refine .get_bind ?_
  split
  · exact nofun
  next w hWait =>
  rw [List.take_take] at hWait
  cases hNeed : w.needTrust with
  | succ needTrust => exact nofun
  | zero =>
    refine .stop ?_
    intro hBlocked
    have hPositive := hRoom hBlocked.symm hBase w hWait
    omega

theorem receive_some_bind (next : Trust → TrustCall Unit) :
    (receive env (some req) >>= next) = if env.now ≤ req.expire then next req
      else Handler.stop (.err .expire) := by
  by_cases hNow : env.now ≤ req.expire
  · have hCheck : (Handler.check .expire (env.now ≤ req.expire) : TrustCall Unit) = pure () :=
      if_pos (decide_eq_true hNow)
    rw [if_pos hNow]
    change (Handler.check _ _ >>= fun _ => pure req) >>= next = next req
    rw [hCheck]
    rfl
  · have hCheck :
        (Handler.check .expire (env.now ≤ req.expire) :
          TrustCall Unit) = Handler.stop (.err .expire) :=
      if_neg (by rw [decide_eq_false hNow]; decide)
    rw [if_neg hNow]
    change (Handler.check _ _ >>= fun _ => pure req) >>= next = _
    rw [hCheck]
    rfl

theorem route_some (hLen : env.now ≤ expire → 32 ≤ received.length) :
    s.route env name traced deliver peer (some ⟨expire, ⟨received, spare⟩⟩) =
      if env.now ≤ expire then
        if received.take 32 = s.base then deliver ⟨expire, ⟨received, spare⟩⟩
        else s.forward name traced peer ⟨expire, ⟨received, spare⟩⟩ env.attempts
      else
        Handler.stop (.err .expire) := by
  unfold route
  rw [receive_some_bind]
  by_cases hNow : env.now ≤ expire
  · rw [if_pos hNow, if_pos hNow, Slice.slice_of_le (by decide) (hLen hNow)]
    rfl
  · rw [if_neg hNow, if_neg hNow]

theorem LongEnough.own (hLong : s.LongEnough name received) (hBase : received.take 32 = s.base) :
    minLength name true ≤ received.length := by
  unfold LongEnough at hLong
  rw [decide_eq_true hBase] at hLong
  exact hLong

theorem LongEnough.other (hLong : s.LongEnough name received) (hBase : received.take 32 ≠ s.base) :
    minLength name false ≤ received.length := by
  unfold LongEnough at hLong
  rw [decide_eq_false hBase] at hLong
  exact hLong

theorem LongEnough.length (hLong : s.LongEnough name received) : 32 ≤ received.length := by
  refine le_trans ?_ hLong
  cases name <;> cases decide (received.take 32 = s.base) <;> decide

theorem handlerRollCall_some :
    s.handlerRollCall env peer (some ⟨expire, ⟨received, spare⟩⟩) = if env.now ≤ expire then do
        Handler.check .rollcallObserverIsNil s.observer
        s.notifyTrustRollCall env peer expire ⟨received, spare⟩
      else
        Handler.stop (.err .expire) := by
  unfold handlerRollCall
  rw [receive_some_bind]

theorem avoids_route (hReason : ∀ e, Stop.err e ≠ reason) (hWired : s.topology = true)
    (hLen : env.now ≤ expire → 32 ≤ received.length)
    (hDeliver :
      env.now ≤ expire → received.take 32 = s.base →
        Handler.Avoids reason (deliver ⟨expire, ⟨received, spare⟩⟩) node)
    (hForward :
      env.now ≤ expire → received.take 32 ≠ s.base → traced = true → 68 ≤ received.length) :
    Handler.Avoids reason
      (s.route env name traced deliver peer (some ⟨expire, ⟨received, spare⟩⟩)) node := by
  rw [route_some hLen]
  split
  next hNow =>
    split
    next hBase => exact hDeliver hNow hBase
    next hBase => exact avoids_forward hReason hWired (hForward hNow hBase)
  · exact .stop (hReason _)

/- A handler returns, if the payload is long enough. -/
theorem avoids_handle (hReason : ∀ e, Stop.err e ≠ reason) (hWired : s.topology = true)
    (hFits : env.now ≤ expire → s.LongEnough name received)
    (hRoom : reason = .blocked → s.HasRoom received node name) :
    Handler.Avoids reason (s.handle env name peer (some ⟨expire, ⟨received, spare⟩⟩)) node := by
  have hLen : env.now ≤ expire → 32 ≤ received.length := fun hNow => (hFits hNow).length
  cases name with
  | sign =>
    exact avoids_route hReason hWired hLen (fun hNow hBase =>
        avoids_deliverSign hReason hWired ((hFits hNow).own hBase))
      (fun hNow hBase _ => (hFits hNow).other hBase)
  | signRet =>
    exact avoids_route hReason hWired hLen (fun hNow hBase =>
        avoids_deliverSignRet ((hFits hNow).own hBase) hBase hRoom)
      (fun hNow hBase _ => (hFits hNow).other hBase)
  | rollCall =>
    dsimp only [handle]
    rw [handlerRollCall_some]
    split
    next hNow =>
      exact .check_bind (hReason _) fun _ => avoids_notifyTrustRollCall hWired (hFits hNow) hRoom
    · exact .stop (hReason _)
  | rollCallSign =>
    exact avoids_route hReason hWired hLen (fun hNow hBase => .check_bind (hReason _) fun _ =>
        avoids_notifyTrustRollCallSign hReason ((hFits hNow).own hBase))
      nofun

end TrustService

def plainService : TrustService where
  base := List.replicate 32 0
  topology := true
  observer := true
  oracle := true

def plainEnv : TrustEnv where
  now := 5
  attempts := []
  expireOf _ := some 0
  freezeOf _ := some false
  verify _ := true
  price := some 1
  sign _ := some []
  recover _ _ := some 0
  minersReceived _ := some 0
  put := true
  peers := []

/- A node with a call that waits for signature 1. -/
def plainNode : TrustNode where
  waits := Index.empty.put 1 ⟨1, []⟩
  height := 0
  rcnc := []
  nodes := .empty
  sent := []

end Sana.Mine
