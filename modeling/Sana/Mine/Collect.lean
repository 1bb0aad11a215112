import Sana.Mine.Trust
import Sana.Program.Reach

/-
  Collecting the signatures of trust nodes.

  A call of `TrustsSignature` registers a channel under an identifier, sends its request to the
  trust nodes and takes results from the channel until it has as many as it needs or its context
  ends.  A handler of a result looks up the channel and sends on it, and it holds the lock of all
  channels meanwhile.

  The lock and the phases of the handlers belong together, and a channel that is looked up is open
  (`Linked`): no handler ever sends on a channel that is closed.

  A handler that looks up a call which takes nothing any more blocks with the lock for ever, and so
  do the call and all handlers that come later (`collecting_deadlocks`).  If no handler looks up a
  call that is about to return, and no call gives up while a handler is sending to it, then every
  node comes to a state where all have finished (`collecting_finishes`).

  Key definitions include:
    * `SignResult`
    * `SignCall`

  Key theorems include:
    * `step_effect`
-/

---- Calls And Handlers

namespace Sana.Mine

namespace Collect

open KeyValue Program

variable {calls : List SignCall} {c : Nat} {call next : SignCall}

/-
  A result that was read in full.  `author` is the node that wrote it; no field of the message says
  so.
-/
structure SignResult where
  author : Overlay
  expire : Int
  stream : List UInt8
  long : 36 ≤ stream.length
  deriving DecidableEq, Repr

namespace SignResult

def target (req : SignResult) : Overlay :=
  req.stream.take 32

def id (req : SignResult) : Nat :=
  fromBigEndian ((req.stream.drop 32).take 4)

def payload (req : SignResult) : List UInt8 :=
  req.stream.drop 36

end SignResult

/- The arguments of `TrustsSignature`; `needTrust` is a
   `uint64`, and the length of a slice is an `int`. -/
structure Request where
  needTrust : Nat
  trusts : List Overlay
  needTrust_lt : needTrust < 2 ^ 64
  length_lt : trusts.length < 2 ^ 63
  deriving DecidableEq, Repr

inductive Result where
  | signatures (byts : List UInt8)
  /- "topoloy is not available" -/
  | topologyNotAvailable
  /- "no peer found" -/
  | noPeerFound
  /- "send a trusted node smaller than the target" -/
  | smallerThanTarget
  /- `ctx.Err()` -/
  | context
  deriving DecidableEq, Repr

/- Where a call is; in `leaving` it waits for the lock to
   take its channel away. -/
inductive CallPhase where
  | started
  | sending (rest : List Overlay)
  | collecting
  | leaving (result : Result)
  | returned (result : Result)
  deriving DecidableEq, Repr

/-
  A call of `TrustsSignature`.  `asked` are the trust nodes the request was sent to, and `done` says
  that the context has ended.
-/
structure SignCall where
  request : Request
  done : Bool
  id : Nat
  asked : List Overlay
  needTrust : Nat
  list : List SignResult
  phase : CallPhase
  deriving DecidableEq, Repr

/- Where a handler is; it holds the lock in `sending`, where
   it has found the channel of a call, and in `delivered`. -/
inductive HandlerPhase where
  | waiting
  | sending (call : Nat)
  | delivered
  | finished
  deriving DecidableEq, Repr

def HandlerPhase.holds : HandlerPhase → Bool
| .sending _ => true
| .delivered => true
| _ => false

structure SignHandler where
  req : SignResult
  phase : HandlerPhase
  deriving DecidableEq, Repr

/-
  The calls and handlers of a node.  A channel is named by the call that takes from it, and
  `waitsMtx` is the handler that holds the lock.
-/
structure Signing where
  waits : Index Nat Nat
  waitsMtx : Option Nat
  calls : List SignCall
  handlers : List SignHandler

def Signing.start : Signing where
  waits := .empty
  waitsMtx := none
  calls := []
  handlers := []

---- Steps of a Call

namespace SignCall

def start (s : TrustService) (request : Request) : SignCall where
  request := request
  done := false
  id := 0
  asked := []
  needTrust := request.needTrust
  list := []
  phase :=
    if s.topology then .started
    else .returned .topologyNotAvailable

/- `needTrust -= 1` -/
def decrement (needTrust : Nat) : Nat :=
  if needTrust = 0 then 2 ^ 64 - 1 else needTrust - 1

/- A result that is taken from the channel. -/
def receive (call : SignCall) (ts : SignResult) : SignCall :=
  let list := call.list ++ [ts]
  let needTrust := decrement call.needTrust
  { call with
    list := list
    needTrust := needTrust
    phase :=
      if needTrust = 0 then .leaving (.signatures (list.flatMap SignResult.payload))
      else .collecting }

/- What comes after the request was sent. -/
def afterSending (call : SignCall) : CallPhase :=
  if call.asked.length = 0 then .leaving .noPeerFound
  else if call.asked.length < call.needTrust then .leaving .smallerThanTarget
  else .collecting

/-
  The steps a call takes by itself: its context ends, it sends to one more trust node, it has sent
  to all of them, and it sees that its context has ended.
-/
inductive Action where
  | ended
  | send (ok : Bool)
  | sent
  | cancel
  deriving DecidableEq, Repr

def act (call : SignCall) (action : Action) : Option SignCall :=
  match action, call.phase with
  | .ended, _ =>
    if call.done then none
    else some { call with done := true }
  | .send ok, .sending (trust :: rest) =>
    if ok then
      -- nothing is sent once the context has ended
      if call.done then none
      else
        some
          { call with
            asked := call.asked ++ [trust]
            phase := .sending rest }
    else some { call with phase := .sending rest }
  | .sent, .sending [] => some { call with phase := call.afterSending }
  | .cancel, .collecting =>
    if call.done then some { call with phase := .leaving .context }
    else none
  | _, _ => none

end SignCall

---- Steps of a Node

/-
  The steps of a node.  `call` and `arrive` come from outside.  `obtain` and `release` are
  `obtainWait` and `releaseWait`; `look` takes the lock and looks up a channel, `hand` sends on it.
-/
inductive Label where
  | call (request : Request)
  | arrive (now : Int) (req : SignResult)
  | act (c : Nat) (action : SignCall.Action)
  | obtain (c : Nat) (unixNano : Nat)
  | release (c : Nat)
  | look (i : Nat)
  | hand (i : Nat)
  | unlock (i : Nat)
  deriving DecidableEq, Repr

namespace Signing

def setCall (node : Signing) (c : Nat) (call : SignCall) : Signing :=
  { node with calls := node.calls.set c call }

def setPhase (node : Signing) (i : Nat) (handler : SignHandler) (phase : HandlerPhase) : Signing :=
  { node with
    handlers := node.handlers.set i { handler with phase := phase } }

/- A result that is too old or for another node does not
   come to the channels. -/
def arrive (s : TrustService) (now : Int) (req : SignResult) (node : Signing) : Signing :=
  if req.expire < now ∨ req.target ≠ s.base then node
  else { node with handlers := node.handlers ++ [⟨req, .waiting⟩] }

def obtainWait (c : Nat) (unixNano : Nat) (call : SignCall) (node : Signing) : Option Signing :=
  if call.phase = .started ∧ node.waitsMtx = none then
    let id := unixNano % 2 ^ 32
    some
      { node.setCall c
          { call with
            id := id
            phase := .sending call.request.trusts } with
        waits := node.waits.put id c }
  else none

def releaseWait (c : Nat) (call : SignCall) (node : Signing) : Option Signing :=
  match call.phase, node.waitsMtx with
  | .leaving result, none =>
    some
      { node.setCall c { call with phase := .returned result } with
        waits := node.waits.delete call.id }
  | _, _ => none

def look (i : Nat) (handler : SignHandler) (node : Signing) : Option Signing :=
  if handler.phase = .waiting ∧ node.waitsMtx = none then
    match node.waits.get handler.req.id with
    | none => some (node.setPhase i handler .finished)
    | some c => some { node.setPhase i handler (.sending c) with waitsMtx := some i }
  else none

/- The handler and the call meet in the channel. -/
def hand (i : Nat) (handler : SignHandler) (node : Signing) : Option Signing :=
  match handler.phase with
  | .sending c =>
    match node.calls[c]? with
    | none => none
    | some call =>
      if call.phase = .collecting then
        some ((node.setPhase i handler .delivered).setCall c (call.receive handler.req))
      else none
  | _ => none

def unlock (i : Nat) (handler : SignHandler) (node : Signing) : Option Signing :=
  if handler.phase = .delivered then
    some { node.setPhase i handler .finished with waitsMtx := none }
  else none

end Signing

def step (s : TrustService) (label : Label) (node : Signing) : Option Signing :=
  match label with
  | .call request => some { node with calls := node.calls ++ [.start s request] }
  | .arrive now req => some (node.arrive s now req)
  | .act c action => node.calls[c]?.bind fun call => (call.act action).map (node.setCall c)
  | .obtain c unixNano => node.calls[c]?.bind fun call => node.obtainWait c unixNano call
  | .release c => node.calls[c]?.bind fun call => node.releaseWait c call
  | .look i => node.handlers[i]?.bind fun handler => node.look i handler
  | .hand i => node.handlers[i]?.bind fun handler => node.hand i handler
  | .unlock i => node.handlers[i]?.bind fun handler => node.unlock i handler

---- What a Step Does

section

/- What a call can do by itself. -/
inductive Acted (call : SignCall) : SignCall.Action → SignCall → Prop where
  | ended (hDone : call.done = false) : Acted call .ended { call with done := true }
  | asked (trust : Overlay) (rest : List Overlay) (hPhase : call.phase = .sending (trust :: rest)) :
      Acted call (.send true)
        { call with
          asked := call.asked ++ [trust]
          phase := .sending rest }
  | failed (trust : Overlay) (rest : List Overlay)
      (hPhase : call.phase = .sending (trust :: rest)) :
      Acted call (.send false) { call with phase := .sending rest }
  | sent (hPhase : call.phase = .sending []) :
      Acted call .sent { call with phase := call.afterSending }
  | cancelled (hPhase : call.phase = .collecting) (hDone : call.done = true) :
      Acted call .cancel { call with phase := .leaving .context }

theorem SignCall.act_acted (hAct : call.act action = some after) : Acted call action after := by
  unfold SignCall.act at hAct
  split at hAct
  · split_ifs at hAct with hDone
    cases hAct
    exact .ended (eq_false_of_ne_true hDone)
  · rename_i ok trust rest hPhase
    cases ok with
    | true =>
      simp only [↓reduceIte] at hAct
      split_ifs at hAct
      cases hAct
      exact .asked trust rest hPhase
    | false =>
      cases hAct
      exact .failed trust rest hPhase
  · rename_i hPhase
    cases hAct
    exact .sent hPhase
  · rename_i hPhase
    split_ifs at hAct with hDone
    cases hAct
    exact .cancelled hPhase hDone
  · cases hAct

namespace Acted

variable {call next : SignCall}
variable {action : SignCall.Action}

theorem list_eq (hActed : Acted call action next) : next.list = call.list := by
  cases hActed <;> rfl

theorem asked_mono (hActed : Acted call action next) (trust : Overlay) (hMem : trust ∈ call.asked) :
    trust ∈ next.asked := by
  cases hActed with
  | asked => exact List.mem_append_left _ hMem
  | ended | failed | sent | cancelled => exact hMem

end Acted

/- What a node can do. -/
inductive Effect (s : TrustService) (node : Signing) : Label → Signing → Prop where
  | called (request : Request) :
      Effect s node (.call request) { node with calls := node.calls ++ [.start s request] }
  | ignored (now : Int) (req : SignResult) : Effect s node (.arrive now req) node
  | arrived (now : Int) (req : SignResult) : Effect s node (.arrive now req)
        { node with handlers := node.handlers ++ [⟨req, .waiting⟩] }
  | acted (c : Nat) (call after : SignCall) (action : SignCall.Action)
      (hCall : node.calls[c]? = some call) (hActed : Acted call action after) :
      Effect s node (.act c action) (node.setCall c after)
  | obtained (c unixNano : Nat) (call : SignCall) (hCall : node.calls[c]? = some call)
      (hPhase : call.phase = .started) (hLock : node.waitsMtx = none) :
      Effect s node (.obtain c unixNano)
        { node.setCall c
            { call with
              id := unixNano % 2 ^ 32
              phase := .sending call.request.trusts } with
          waits := node.waits.put (unixNano % 2 ^ 32) c }
  | released (c : Nat) (call : SignCall) (result : Result) (hCall : node.calls[c]? = some call)
      (hPhase : call.phase = .leaving result) (hLock : node.waitsMtx = none) :
      Effect s node (.release c)
        { node.setCall c { call with phase := .returned result } with
          waits := node.waits.delete call.id }
  | missed (i : Nat) (handler : SignHandler) (hHandler : node.handlers[i]? = some handler)
      (hPhase : handler.phase = .waiting) (hLock : node.waitsMtx = none) :
      Effect s node (.look i) (node.setPhase i handler .finished)
  | found (i : Nat) (handler : SignHandler) (c : Nat) (hHandler : node.handlers[i]? = some handler)
      (hPhase : handler.phase = .waiting) (hLock : node.waitsMtx = none)
      (hWaits : node.waits.get handler.req.id = some c) : Effect s node (.look i)
        { node.setPhase i handler (.sending c) with waitsMtx := some i }
  | handed (i : Nat) (handler : SignHandler) (c : Nat) (call : SignCall)
      (hHandler : node.handlers[i]? = some handler) (hPhase : handler.phase = .sending c)
      (hCall : node.calls[c]? = some call) (hCollecting : call.phase = .collecting) :
      Effect s node (.hand i)
        ((node.setPhase i handler .delivered).setCall c (call.receive handler.req))
  | unlocked (i : Nat) (handler : SignHandler) (hHandler : node.handlers[i]? = some handler)
      (hPhase : handler.phase = .delivered) : Effect s node (.unlock i)
        { node.setPhase i handler .finished with waitsMtx := none }

variable {s : TrustService}
variable {node after : Signing}

theorem look_effect (hHandler : node.handlers[i]? = some handler)
    (hLook : node.look i handler = some after) : Effect s node (.look i) after := by
  unfold Signing.look at hLook
  split_ifs at hLook with hFree
  cases hWaits : node.waits.get handler.req.id with
  | none =>
    rw [hWaits] at hLook
    cases hLook
    exact .missed i handler hHandler hFree.1 hFree.2
  | some c =>
    rw [hWaits] at hLook
    cases hLook
    exact .found i handler c hHandler hFree.1 hFree.2 hWaits

theorem hand_effect (hHandler : node.handlers[i]? = some handler)
    (hHand : node.hand i handler = some after) : Effect s node (.hand i) after := by
  unfold Signing.hand at hHand
  split at hHand
  · rename_i c hPhase
    split at hHand
    · cases hHand
    · rename_i call hCall
      split_ifs at hHand with hCollecting
      cases hHand
      exact .handed i handler c call hHandler hPhase hCall hCollecting
  · cases hHand

theorem step_effect (hStep : step s label node = some after) : Effect s node label after := by
  cases label with
  | call request =>
    cases hStep
    exact .called request
  | arrive now req =>
    cases hStep
    unfold Signing.arrive
    split_ifs
    · exact .ignored now req
    · exact .arrived now req
  | act c action =>
    obtain ⟨call, hCall, hSome⟩ := Option.bind_eq_some_iff.mp hStep
    obtain ⟨next, hAct, rfl⟩ := Option.map_eq_some_iff.mp hSome
    exact .acted c call next action hCall (SignCall.act_acted hAct)
  | obtain c unixNano =>
    obtain ⟨call, hCall, hSome⟩ := Option.bind_eq_some_iff.mp hStep
    unfold Signing.obtainWait at hSome
    split_ifs at hSome with hFree
    cases hSome
    exact .obtained c unixNano call hCall hFree.1 hFree.2
  | release c =>
    obtain ⟨call, hCall, hSome⟩ := Option.bind_eq_some_iff.mp hStep
    unfold Signing.releaseWait at hSome
    split at hSome
    · rename_i result hPhase hLock
      cases hSome
      exact .released c call result hCall hPhase hLock
    · cases hSome
  | look i =>
    obtain ⟨handler, hHandler, hSome⟩ := Option.bind_eq_some_iff.mp hStep
    exact look_effect hHandler hSome
  | hand i =>
    obtain ⟨handler, hHandler, hSome⟩ := Option.bind_eq_some_iff.mp hStep
    exact hand_effect hHandler hSome
  | unlock i =>
    obtain ⟨handler, hHandler, hSome⟩ := Option.bind_eq_some_iff.mp hStep
    unfold Signing.unlock at hSome
    split_ifs at hSome with hPhase
    cases hSome
    exact .unlocked i handler hHandler hPhase

end

---- The Lock And the Channels

section

/- What the call returns, once it is settled. -/
def CallPhase.result? : CallPhase → Option Result
| .leaving result => some result
| .returned result => some result
| _ => none

/- The call has a channel that is not taken away yet. -/
def CallPhase.isOpen : CallPhase → Bool
| .started => false
| .returned _ => false
| _ => true

/- A call that is there, with an open channel for `id`. -/
def Registered (calls : List SignCall) (c id : Nat) : Prop :=
  ∃ call, calls[c]? = some call ∧ call.phase.isOpen = true ∧ call.id = id

/-
  The lock is held by the handler whose phase says so.  A channel that is looked up, or that a
  handler sends on, is the open channel of a call with the same identifier, so that no handler sends
  on a closed channel.
-/
structure Linked (node : Signing) : Prop where
  holds :
    ∀ (i : Nat) (handler : SignHandler), node.handlers[i]? = some handler →
      handler.phase.holds = true → node.waitsMtx = some i
  held :
    ∀ i : Nat, node.waitsMtx = some i →
      ∃ handler, node.handlers[i]? = some handler ∧ handler.phase.holds = true
  entry : ∀ id c, node.waits.get id = some c → Registered node.calls c id
  partner :
    ∀ (i : Nat) (handler : SignHandler) (c : Nat), node.handlers[i]? = some handler →
      handler.phase = .sending c → Registered node.calls c handler.req.id

variable {d id : Nat}

theorem Registered.append (hRegistered : Registered calls d id) :
    Registered (calls ++ [call]) d id := by
  obtain ⟨old, hOld, hOpen⟩ := hRegistered
  exact ⟨old, slot_append_of_slot hOld, hOpen⟩

theorem Registered.set (hCall : calls[c]? = some call)
    (hKept : call.phase.isOpen = true → next.phase.isOpen = true ∧ next.id = call.id)
    (hRegistered : Registered calls d id) : Registered (calls.set c next) d id := by
  obtain ⟨old, hOld, hOpen, hId⟩ := hRegistered
  by_cases hSame : d = c
  · subst hSame
    obtain rfl := Option.some.inj (hCall.symm.trans hOld)
    obtain ⟨hNext, hNextId⟩ := hKept hOpen
    exact ⟨next, slot_set_self hCall, hNext, hNextId.trans hId⟩
  · refine ⟨old, ?_, hOpen, hId⟩
    rw [List.getElem?_set_ne (Ne.symm hSame)]
    exact hOld

theorem isOpen_afterSending : call.afterSending.isOpen = true := by
  unfold SignCall.afterSending
  split_ifs <;> rfl

theorem receive_id : (call.receive req).id = call.id := by
  simp only [SignCall.receive]

theorem isOpen_receive : (call.receive req).phase.isOpen = true := by
  unfold SignCall.receive
  dsimp only
  split_ifs <;> rfl

/- A call keeps its channel in the steps it takes itself. -/
theorem Acted.isOpen (hActed : Acted call action next)
    (hOpen : call.phase.isOpen = true) : next.phase.isOpen = true ∧ next.id = call.id := by
  cases hActed with
  | ended => exact ⟨hOpen, rfl⟩
  | asked | failed | cancelled => exact ⟨rfl, rfl⟩
  | sent => exact ⟨isOpen_afterSending, rfl⟩

namespace Linked

variable {node : Signing}
variable {i : Nat}
variable {handler : SignHandler}

theorem start : Linked Signing.start where
  holds _ _ hSlot := by cases hSlot
  held _ hLock := by cases hLock
  entry id c hWaits := by
    cases hWaits
  partner _ _ _ hSlot := by cases hSlot

section

variable (hLinked : Linked node)
include hLinked

/- No handler holds a lock that is free. -/
theorem not_holds (hLock : node.waitsMtx = none)
    (hHandler : node.handlers[i]? = some handler) : handler.phase.holds = false := by
  apply eq_false_of_ne_true
  intro hHolds
  rw [hLinked.holds i handler hHandler hHolds] at hLock
  cases hLock

/- The calls change and keep the channels they have. -/
theorem of_calls (hKept : ∀ d id, Registered node.calls d id → Registered calls d id) :
    Linked { node with calls := calls } :=
  { hLinked with
    entry := fun id d hWaits => hKept d id (hLinked.entry id d hWaits)
    partner := fun j other d hSlot hSending =>
      hKept d _ (hLinked.partner j other d hSlot hSending) }

/- A handler changes its phase, and the lock with it, when no
   other handler holds the lock. -/
theorem of_phase (hHandler : node.handlers[i]? = some handler)
    (hOthers : ∀ j other, j ≠ i → node.handlers[j]? = some other → other.phase.holds = false)
    (hLock : lock = if phase.holds then some i else none)
    (hPartner : ∀ d, phase = .sending d → Registered node.calls d handler.req.id) : Linked
      { node.setPhase i handler phase with
        waitsMtx := lock } where
  holds j other hSlot hHolds := by
    rcases slot_set_cases hSlot with ⟨rfl, rfl⟩ | ⟨hPlace, hOld⟩
    · rw [hLock, if_pos hHolds]
    · rw [hOthers j other hPlace hOld] at hHolds
      cases hHolds
  held j hHeld := by
    rw [hLock] at hHeld
    split_ifs at hHeld with hHolds
    cases hHeld
    exact ⟨_, slot_set_self hHandler, hHolds⟩
  entry := hLinked.entry
  partner j other d hSlot hSending := by
    rcases slot_set_cases hSlot with ⟨rfl, rfl⟩ | ⟨hPlace, hOld⟩
    · exact hPartner d hSending
    · exact hLinked.partner j other d hOld hSending

/- What one handler does while it holds the lock. -/
theorem others_of_holds (hHandler : node.handlers[i]? = some handler)
    (hHolds : handler.phase.holds = true) (j : Nat) (other : SignHandler) (hPlace : j ≠ i)
    (hOther : node.handlers[j]? = some other) : other.phase.holds = false := by
  apply eq_false_of_ne_true
  intro hOtherHolds
  have hFirst := hLinked.holds i handler hHandler hHolds
  have hSecond := hLinked.holds j other hOther hOtherHolds
  exact hPlace (Option.some.inj (hSecond.symm.trans hFirst))

theorem arrived (req : SignResult) :
    Linked { node with handlers := node.handlers ++ [⟨req, .waiting⟩] } where
  holds j other hSlot hHolds := by
    rcases slot_append_cases hSlot with ⟨rfl, rfl⟩ | hOld
    · cases hHolds
    · exact hLinked.holds j other hOld hHolds
  held j hHeld := by
    obtain ⟨other, hOther, hHolds⟩ := hLinked.held j hHeld
    exact ⟨other, slot_append_of_slot hOther, hHolds⟩
  entry := hLinked.entry
  partner j other d hSlot hSending := by
    rcases slot_append_cases hSlot with ⟨rfl, rfl⟩ | hOld
    · cases hSending
    · exact hLinked.partner j other d hOld hSending

theorem obtained (hEffect : Effect s node (.obtain c unixNano) after) : Linked after := by
  cases hEffect with
  | obtained _ _ call hCall hPhase =>
  have hKept : Linked (node.setCall c
          { call with
            id := unixNano % 2 ^ 32
            phase := .sending call.request.trusts }) := by
    apply hLinked.of_calls
    intro d id hOld
    apply hOld.set hCall
    intro hOpen
    rw [hPhase] at hOpen
    cases hOpen
  refine { hKept with entry := fun id d hWaits => ?_ }
  by_cases hId : id = unixNano % 2 ^ 32
  · subst hId
    rw [Index.get_put_self] at hWaits
    cases hWaits
    exact ⟨_, slot_set_self hCall, rfl, rfl⟩
  · rw [Index.get_put_of_ne _ (Ne.symm hId)] at hWaits
    exact hKept.entry id d hWaits

/- The channel that is taken away was that of the call. -/
theorem released (hEffect : Effect s node (.release c) after) : Linked after := by
  cases hEffect with
  | released _ call result hCall hPhase hLock =>
  refine { hLinked with
    entry := fun id d hWaits => ?_
    partner := fun j other d hSlot hSending => ?_ }
  · have hId : id ≠ call.id := by
      rintro rfl
      rw [Index.get_delete_self] at hWaits
      cases hWaits
    rw [Index.get_delete_of_ne _ (Ne.symm hId)] at hWaits
    obtain ⟨old, hOld, hOpen, hOldId⟩ := hLinked.entry id d hWaits
    have hPlace : c ≠ d := by
      rintro rfl
      obtain rfl := Option.some.inj (hCall.symm.trans hOld)
      exact hId hOldId.symm
    refine ⟨old, ?_, hOpen, hOldId⟩
    exact (List.getElem?_set_ne hPlace).trans hOld
  · have hHolds := hLinked.not_holds hLock hSlot
    rw [hSending] at hHolds
    cases hHolds

theorem handed (hEffect : Effect s node (.hand i) after) : Linked after := by
  cases hEffect with
  | handed _ handler d call hHandler hPhase hCall =>
  have hHolds : handler.phase.holds = true := by
    rw [hPhase]
    rfl
  have hLock := hLinked.holds i handler hHandler hHolds
  have hDelivered := hLinked.of_phase hHandler (hLinked.others_of_holds hHandler hHolds)
    (show node.waitsMtx = if HandlerPhase.delivered.holds then some i else none from hLock) nofun
  apply hDelivered.of_calls
  intro other id hOld
  apply hOld.set hCall
  intro _
  exact ⟨isOpen_receive, receive_id⟩

theorem step (hStep : Collect.step s label node = some after) : Linked after := by
  have hEffect := step_effect hStep
  cases step_effect hStep with
  | obtained => exact hLinked.obtained hEffect
  | released => exact hLinked.released hEffect
  | handed => exact hLinked.handed hEffect
  | called request => exact hLinked.of_calls (fun _ _ hOld => hOld.append)
  | ignored => exact hLinked
  | arrived now req => exact hLinked.arrived req
  | acted c call next action hCall hActed =>
    exact hLinked.of_calls (fun _ _ hOld => hOld.set hCall hActed.isOpen)
  | missed i handler hHandler hPhase hLock =>
    exact hLinked.of_phase hHandler (fun _ _ _ hOther => hLinked.not_holds hLock hOther) hLock nofun
  | found i handler c hHandler hPhase hLock hWaits =>
    refine hLinked.of_phase hHandler (fun _ _ _ hOther => hLinked.not_holds hLock hOther) rfl ?_
    intro d hSending
    cases hSending
    exact hLinked.entry _ c hWaits
  | unlocked i handler hHandler hPhase =>
    have hHolds : handler.phase.holds = true := by
      rw [hPhase]
      rfl
    exact hLinked.of_phase hHandler (hLinked.others_of_holds hHandler hHolds) rfl nofun

end

end Linked

end

---- Handlers That Send

/- A handler that sends meets a call that fits its result. -/
def Meets (Fits : SignResult → SignCall → Prop) (calls : List SignCall)
    (handlers : List SignHandler) : Prop :=
  ∀ (i : Nat) (handler : SignHandler) (c : Nat) (call : SignCall), handlers[i]? = some handler →
    handler.phase = .sending c → calls[c]? = some call → Fits handler.req call

variable {Fits : SignResult → SignCall → Prop}
variable {handlers : List SignHandler}
variable {i : Nat}
variable {handler : SignHandler}

namespace Meets

/- One more call is none that a handler sends to. -/
theorem called (hMeets : Meets Fits node.calls node.handlers)
    (hLinked : Linked node) : Meets Fits (node.calls ++ [next]) node.handlers := by
  intro i handler c call hHandler hSending hCall
  obtain ⟨old, hOld, -⟩ := hLinked.partner i handler c hHandler hSending
  have hSame := (slot_append_of_slot hOld).symm.trans hCall
  obtain rfl := Option.some.inj hSame
  exact hMeets i handler c old hHandler hSending hOld

theorem set_call (hMeets : Meets Fits calls handlers) (hCall : calls[c]? = some call)
    (hKept :
      ∀ handler ∈ handlers, handler.phase = .sending c →
        Fits handler.req call → Fits handler.req next) :
    Meets Fits (calls.set c next) handlers := by
  intro i handler d other hHandler hSending hOther
  rcases slot_set_cases hOther with ⟨rfl, rfl⟩ | ⟨hPlace, hOld⟩
  · exact hKept handler (List.mem_of_getElem? hHandler) hSending
      (hMeets i handler d call hHandler hSending hCall)
  · exact hMeets i handler d other hHandler hSending hOld

theorem arrived (hMeets : Meets Fits calls handlers) (req : SignResult) :
    Meets Fits calls (handlers ++ [⟨req, .waiting⟩]) := by
  intro i handler c call hHandler hSending hCall
  rcases slot_append_cases hHandler with ⟨rfl, rfl⟩ | hOld
  · cases hSending
  · exact hMeets i handler c call hOld hSending hCall

theorem set_phase (hMeets : Meets Fits calls handlers)
    (hNew : ∀ c call, phase = .sending c → calls[c]? = some call → Fits handler.req call) :
    Meets Fits calls (handlers.set i { handler with phase := phase }) := by
  intro j other c call hOther hSending hCall
  rcases slot_set_cases hOther with ⟨rfl, rfl⟩ | ⟨hPlace, hOld⟩
  · exact hNew c call hSending hCall
  · exact hMeets j other c call hOld hSending hCall

/- After a result was delivered no handler sends. -/
theorem delivered (hLinked : Linked node)
    (hHandler : node.handlers[i]? = some handler) (hSending : handler.phase = .sending c)
    (calls : List SignCall) :
    Meets Fits calls (node.handlers.set i { handler with phase := .delivered }) := by
  intro j other d call hOther hOtherSending
  rcases slot_set_cases hOther with ⟨rfl, rfl⟩ | ⟨hPlace, hOld⟩
  · cases hOtherSending
  · have hHolds : handler.phase.holds = true := by
      rw [hSending]
      rfl
    have hFree := hLinked.others_of_holds hHandler hHolds j other hPlace hOld
    rw [hOtherSending] at hFree
    cases hFree

end Meets

end Collect

---- Orderly Runs

namespace Collect

open KeyValue Program

variable {s : TrustService} {node after : Signing} {label : Label} {c i : Nat}

/- The request was sent to as many nodes as are needed. -/
def SignCall.Enough (call : SignCall) : Prop :=
  call.asked ≠ [] ∧ call.needTrust ≤ call.asked.length

instance (call : SignCall) : Decidable call.Enough :=
  inferInstanceAs (Decidable (_ ∧ _))

/- No handler sends to the call. -/
def Signing.Unsent (node : Signing) (c : Nat) : Prop :=
  ∀ handler ∈ node.handlers, handler.phase ≠ .sending c

instance (node : Signing) (c : Nat) : Decidable (node.Unsent c) :=
  inferInstanceAs (Decidable (∀ handler ∈ node.handlers, _))

/-
  A handler looks up a call only when the call still takes results, and a call gives up only when no
  handler sends to it.
-/
def Orderly (label : Label) (node : Signing) : Prop :=
  match label with
  | .look i =>
    ∀ handler ∈ node.handlers[i]?,
      ∀ c ∈ node.waits.get handler.req.id, ∀ call ∈ node.calls[c]?, call.phase.result? = none
  | .act c .sent => ∀ call ∈ node.calls[c]?, call.Enough ∨ node.Unsent c
  | .act c .cancel => node.Unsent c
  | _ => True

instance (label : Label) (node : Signing) : Decidable (Orderly label node) :=
  match label with
  | .look i =>
    inferInstanceAs
      (Decidable
        (∀ handler ∈ node.handlers[i]?,
          ∀ c ∈ node.waits.get handler.req.id, ∀ call ∈ node.calls[c]?, call.phase.result? = none))
  | .act c .sent =>
    inferInstanceAs (Decidable (∀ call ∈ node.calls[c]?, call.Enough ∨ node.Unsent c))
  | .act c .cancel => inferInstanceAs (Decidable (node.Unsent c))
  | .act _ .ended => isTrue trivial
  | .act _ (.send _) => isTrue trivial
  | .call _ => isTrue trivial
  | .arrive _ _ => isTrue trivial
  | .obtain _ _ => isTrue trivial
  | .release _ => isTrue trivial
  | .hand _ => isTrue trivial
  | .unlock _ => isTrue trivial

/- The call still takes results. -/
def StillTakes (_ : SignResult) (call : SignCall) : Prop :=
  call.phase.result? = none

theorem afterSending_of_enough {call : SignCall} (hEnough : call.Enough) :
    call.afterSending = .collecting := by
  unfold SignCall.afterSending
  rw [if_neg, if_neg]
  · exact Nat.not_lt.mpr hEnough.2
  · rw [List.length_eq_zero_iff]
    exact hEnough.1

/- Only `sent` and `cancel` bring a call to its return. -/
theorem awaited_acted (hMeets : Meets StillTakes node.calls node.handlers)
    (hOrderly : Orderly (.act c action) node)
    (hCall : node.calls[c]? = some call) (hActed : Acted call action next) :
    Meets StillTakes (node.calls.set c next) node.handlers := by
  apply hMeets.set_call hCall
  intro handler hMem hSending hTakes
  cases hActed with
  | ended => exact hTakes
  | asked | failed => rfl
  | sent =>
    rcases hOrderly call hCall with hEnough | hUnsent
    · rw [afterSending_of_enough hEnough]
      rfl
    · exact absurd hSending (hUnsent handler hMem)
  | cancelled => exact absurd hSending (hOrderly handler hMem)

/- A handler that sends is not left alone in orderly runs. -/
theorem awaited_step (hLinked : Linked node) (hMeets : Meets StillTakes node.calls node.handlers)
    (hOrderly : Orderly label node) (hStep : step s label node = some after) :
    Meets StillTakes after.calls after.handlers := by
  cases step_effect hStep with
  | called request => exact hMeets.called hLinked
  | ignored => exact hMeets
  | arrived now req => exact hMeets.arrived req
  | acted c call next action hCall hActed => exact awaited_acted hMeets hOrderly hCall hActed
  | obtained c unixNano call hCall hPhase hLock =>
    apply hMeets.set_call hCall
    intro _ _ _ _
    rfl
  | released c call result hCall hPhase hLock =>
    apply hMeets.set_call hCall
    intro handler hMem hSending
    -- the lock is free, so that no handler sends
    obtain ⟨i, hHandler⟩ := List.mem_iff_getElem?.mp hMem
    have hFree := hLinked.not_holds hLock hHandler
    rw [hSending] at hFree
    cases hFree
  | missed i handler hHandler hPhase hLock
  | unlocked i handler hHandler hPhase => exact hMeets.set_phase nofun
  | found i handler c hHandler hPhase hLock hWaits =>
    apply hMeets.set_phase
    intro d call hSending hCall
    cases hSending
    exact hOrderly handler hHandler c hWaits call hCall
  | handed i handler c call hHandler hPhase hCall hCollecting =>
    exact Meets.delivered hLinked hHandler hPhase _

---- Nodes Without a Step Left

/- The step does not come from outside. -/
def Label.inside : Label → Bool
| .call _ => false
| .arrive _ _ => false
| _ => true

/- There is no step but those from outside. -/
def Stuck (s : TrustService) (node : Signing) : Prop :=
  ∀ label, label.inside = true → step s label node = none

/- All calls have returned, and nothing is left of them. -/
structure Finished (node : Signing) : Prop where
  calls : ∀ call ∈ node.calls, ∃ result, call.phase = .returned result
  waits : ∀ id, node.waits.get id = none
  waitsMtx : node.waitsMtx = none
  handlers : ∀ handler ∈ node.handlers, handler.phase = .finished

namespace Stuck

variable {s : TrustService}
variable {node : Signing}
variable {i c : Nat}
variable {handler : SignHandler}
variable {call : SignCall}

section

variable (hStuck : Stuck s node)
include hStuck

/- A call goes on by itself while it sends its request. -/
theorem not_sending (hCall : node.calls[c]? = some call) : call.phase ≠ .sending rest := by
  intro hPhase
  cases rest with
  | nil =>
    have hNone := hStuck (.act c .sent) rfl
    simp [step, SignCall.act, hCall, hPhase] at hNone
  | cons trust rest =>
    have hNone := hStuck (.act c (.send false)) rfl
    simp [step, SignCall.act, hCall, hPhase] at hNone

/- A handler that sends meets a call that takes. -/
theorem not_collecting_of_sending
    (hHandler : node.handlers[i]? = some handler) (hSending : handler.phase = .sending c)
    (hCall : node.calls[c]? = some call) : call.phase ≠ .collecting := by
  intro hPhase
  have hNone := hStuck (.hand i) rfl
  simp [step, Signing.hand, hHandler, hSending, hCall, hPhase] at hNone

theorem not_delivered (hHandler : node.handlers[i]? = some handler) :
    handler.phase ≠ .delivered := by
  intro hPhase
  have hNone := hStuck (.unlock i) rfl
  simp [step, Signing.unlock, hHandler, hPhase] at hNone

/- Nobody holds the lock. -/
theorem lock_free (hLinked : Linked node)
    (hMeets : Meets StillTakes node.calls node.handlers) : node.waitsMtx = none := by
  cases hLock : node.waitsMtx with
  | none => rfl
  | some i =>
    exfalso
    obtain ⟨handler, hHandler, hHolds⟩ := hLinked.held i hLock
    cases hPhase : handler.phase with
    | waiting | finished =>
      rw [hPhase] at hHolds
      cases hHolds
    | delivered => exact hStuck.not_delivered hHandler hPhase
    | sending c =>
      obtain ⟨call, hCall, hOpen, -⟩ := hLinked.partner i handler c hHandler hPhase
      have hTakes := hMeets i handler c call hHandler hPhase hCall
      cases hCallPhase : call.phase with
      | started =>
        rw [hCallPhase] at hOpen
        cases hOpen
      | sending rest => exact hStuck.not_sending hCall hCallPhase
      | collecting => exact hStuck.not_collecting_of_sending hHandler hPhase hCall hCallPhase
      | leaving result | returned result =>
        rw [StillTakes, hCallPhase] at hTakes
        cases hTakes

/- With the lock free a handler that waits can look. -/
theorem handler_finished (hLinked : Linked node)
    (hLock : node.waitsMtx = none) (hHandler : node.handlers[i]? = some handler) :
    handler.phase = .finished := by
  have hFree := hLinked.not_holds hLock hHandler
  cases hPhase : handler.phase with
  | waiting =>
    have hNone := hStuck (.look i) rfl
    simp only [step, hHandler, Option.bind_some, Signing.look,
      hPhase, hLock, and_self, ↓reduceIte] at hNone
    split at hNone <;> cases hNone
  | sending c | delivered =>
    rw [hPhase] at hFree
    cases hFree
  | finished => rfl

/- With the lock free a call goes on until it returns. -/
theorem call_returned (hLock : node.waitsMtx = none)
    (hCall : node.calls[c]? = some call) : ∃ result, call.phase = .returned result := by
  cases hPhase : call.phase with
  | started =>
    have hNone := hStuck (.obtain c 0) rfl
    simp [step, Signing.obtainWait, hCall, hPhase, hLock] at hNone
  | sending rest => exact absurd hPhase (hStuck.not_sending hCall)
  | collecting =>
    have hEnded := hStuck (.act c .ended) rfl
    have hCancel := hStuck (.act c .cancel) rfl
    cases hDone : call.done with
    | true => simp [step, SignCall.act, hCall, hPhase, hDone] at hCancel
    | false => simp [step, SignCall.act, hCall, hDone] at hEnded
  | leaving result =>
    have hNone := hStuck (.release c) rfl
    simp [step, Signing.releaseWait, hCall, hPhase, hLock] at hNone
  | returned result => exact ⟨result, rfl⟩

end

end Stuck

theorem finished_of_stuck (hStuck : Stuck s node)
    (hLinked : Linked node) (hMeets : Meets StillTakes node.calls node.handlers) :
    Finished node := by
  have hLock := hStuck.lock_free hLinked hMeets
  refine ⟨?_, ?_, hLock, ?_⟩
  · intro call hMem
    obtain ⟨c, hCall⟩ := List.mem_iff_getElem?.mp hMem
    exact hStuck.call_returned hLock hCall
  · intro id
    cases hWaits : node.waits.get id with
    | none => rfl
    | some c =>
      obtain ⟨call, hCall, hOpen, -⟩ := hLinked.entry id c hWaits
      obtain ⟨result, hPhase⟩ := hStuck.call_returned hLock hCall
      rw [hPhase] at hOpen
      cases hOpen
  · intro handler hMem
    obtain ⟨i, hHandler⟩ := List.mem_iff_getElem?.mp hMem
    exact hStuck.handler_finished hLinked hLock hHandler

---- The Number of Steps

section

/- The steps that a call in a phase can still take by itself,
   when there are `trusts` nodes to ask. -/
def CallPhase.work (trusts : Nat) : CallPhase → Nat
| .started => trusts + 4
| .sending rest => rest.length + 3
| .collecting => 2
| .leaving _ => 1
| .returned _ => 0

/- The context of a call can end as well. -/
def SignCall.work (call : SignCall) : Nat :=
  (if call.done then 0 else 1) + call.phase.work call.request.trusts.length

def SignHandler.work (handler : SignHandler) : Nat :=
  match handler.phase with
  | .waiting => 3
  | .sending _ => 2
  | .delivered => 1
  | .finished => 0

def Signing.work (node : Signing) : Nat :=
  total SignCall.work node.calls + total SignHandler.work node.handlers

/- What a step from outside brings. -/
def Label.brings : Label → Nat
| .call request => request.trusts.length + 6
| .arrive _ _ => 4
| _ => 0

variable {call next : SignCall}

theorem work_start : (SignCall.start s request).work ≤ request.trusts.length + 5 := by
  cases hTopology : s.topology with
  | true | false =>
    simp only [SignCall.work, SignCall.start, hTopology,
      ↓reduceIte, CallPhase.work, Bool.false_eq_true]
    omega

theorem work_acted (hActed : Acted call action next) : next.work + 1 ≤ call.work := by
  cases hActed with
  | ended hDone =>
    simp only [SignCall.work, hDone, ↓reduceIte, Bool.false_eq_true]
    omega
  | asked trust rest hPhase | failed trust rest hPhase =>
    simp only [SignCall.work, hPhase, CallPhase.work, List.length_cons]
    omega
  | sent hPhase =>
    have hAfter : call.afterSending.work call.request.trusts.length ≤ 2 := by
      unfold SignCall.afterSending
      split_ifs <;> simp [CallPhase.work]
    have hBefore : call.phase.work call.request.trusts.length = 3 := by
      rw [hPhase]
      rfl
    simp only [SignCall.work]
    omega
  | cancelled hPhase =>
    simp only [SignCall.work, hPhase, CallPhase.work]
    omega

theorem work_receive (hPhase : call.phase = .collecting) (req : SignResult) :
    (call.receive req).work ≤ call.work := by
  by_cases hZero : SignCall.decrement call.needTrust = 0 <;>
    simp [SignCall.work, SignCall.receive, hPhase, hZero, CallPhase.work]

/- A call is replaced by one with less work. -/
theorem work_setCall (hCall : node.calls[c]? = some call) (hLess : next.work + 1 ≤ call.work) :
    (node.setCall c next).work + 1 ≤ node.work := by
  have hTotal :
      total SignCall.work (node.calls.set c next) + call.work =
        total SignCall.work node.calls + next.work := total_set SignCall.work hCall
  simp only [Signing.work, Signing.setCall]
  omega

/- A handler goes on to a phase with less work. -/
theorem work_setPhase (hHandler : node.handlers[i]? = some handler)
    (hLess : ({ handler with phase := phase } : SignHandler).work + 1 ≤ handler.work) :
    (node.setPhase i handler phase).work + 1 ≤ node.work := by
  have hTotal :
      total SignHandler.work (node.handlers.set i { handler with phase := phase }) + handler.work =
        total SignHandler.work node.handlers +
          ({ handler with phase := phase } : SignHandler).work :=
    total_set SignHandler.work hHandler
  simp only [Signing.work, Signing.setPhase]
  omega

/- Every step uses up some of the work that came in. -/
theorem step_work (hStep : step s label node = some after) :
    after.work + 1 ≤ node.work + label.brings := by
  cases step_effect hStep with
  | called request =>
    have hStart : (SignCall.start s request).work ≤ _ := work_start
    simp only [Signing.work, Label.brings, total_append]
    omega
  | ignored =>
    simp only [Label.brings]
    omega
  | arrived now req =>
    simp only [Signing.work, Label.brings, total_append, SignHandler.work]
    omega
  | acted c call next action hCall hActed => exact work_setCall hCall (work_acted hActed)
  | obtained c unixNano call hCall hPhase hLock
  | released c call result hCall hPhase hLock =>
    apply work_setCall hCall
    simp only [SignCall.work, hPhase, CallPhase.work]
    omega
  | missed i handler hHandler hPhase hLock
  | found i handler c hHandler hPhase hLock hWaits
  | unlocked i handler hHandler hPhase =>
    apply work_setPhase hHandler
    simp only [SignHandler.work, hPhase]
    omega
  | handed i handler c call hHandler hPhase hCall hCollecting =>
    have hHandled : (node.setPhase i handler .delivered).work + 1 ≤ node.work := by
      apply work_setPhase hHandler
      simp only [SignHandler.work, hPhase]
      omega
    have hCallTotal :
        total SignCall.work (node.calls.set c (call.receive handler.req)) + call.work =
          total SignCall.work node.calls + (call.receive handler.req).work :=
      total_set SignCall.work hCall
    have hReceive := work_receive hCollecting handler.req
    simp only [Signing.work, Signing.setPhase, Signing.setCall, Label.brings] at hHandled ⊢
    omega

/-
  A run has no more steps than what comes from outside brings, and an orderly run that has no step
  left has finished.
-/
theorem collecting_finishes (s : TrustService) :
    (∀ labels node,
      follow (step s) labels .start = some node → labels.length ≤ (labels.map Label.brings).sum) ∧
      ∀ node, Reach (Stepping (step s)) Orderly .start node → Stuck s node → Finished node := by
  refine ⟨?_, ?_⟩
  · intro labels node hFollow
    have hBounded := follow_bounded Signing.work Label.brings
      (fun _ _ _ hStep => step_work hStep) hFollow
    have hNothing : Signing.start.work = 0 := rfl
    omega
  · intro node hReach hStuck
    have hBoth : Linked node ∧ Meets StillTakes node.calls node.handlers := by
      apply hReach.invariant (fun node => Linked node ∧ Meets StillTakes node.calls node.handlers)
      · exact ⟨.start, nofun⟩
      · intro label before after hInv hOrderly hStep
        exact ⟨hInv.1.step hStep, awaited_step hInv.1 hInv.2 hOrderly hStep⟩
    exact finished_of_stuck hStuck hBoth.1 hBoth.2

/- One signature is needed of the trust node 1. -/
def needOne : Request where
  needTrust := 1
  trusts := [[1]]
  needTrust_lt := by decide
  length_lt := by decide

/- A result of the trust node 1 for the identifier 7. -/
def answerSeven : SignResult where
  author := [1]
  expire := 10
  stream := plainService.base ++ [0, 0, 0, 7, 8]
  long := by decide

/- A call asks the node, and two handlers have its result. -/
def askOne : List Label :=
  [.call needOne, .obtain 0 7, .act 0 (.send true), .act 0 .sent, .arrive 0 answerSeven,
    .arrive 0 answerSeven, .look 0, .hand 0, .unlock 0]

/- The call with one result. -/
def askedOne (done : Bool) (phase : CallPhase) : SignCall where
  request := needOne
  done := done
  id := 7
  asked := [[1]]
  needTrust := 0
  list := [answerSeven]
  phase := phase

/- Nothing is left to do for calls that have returned. -/
theorem stuck_of_returned
    (hCalls : ∀ call ∈ node.calls, call.done = true ∧ ∃ result, call.phase = .returned result)
    (hHandlers : ∀ handler ∈ node.handlers, handler.phase = .finished) : Stuck s node := by
  intro label hInside
  cases hNext : step s label node with
  | none => rfl
  | some after =>
    cases step_effect hNext with
    | called | ignored | arrived => cases hInside
    | acted c call next action hCall hActed =>
      obtain ⟨hDone, result, hPhase⟩ := hCalls call (List.mem_of_getElem? hCall)
      cases hActed <;> simp_all
    | obtained _ _ call hCall hPhase | released _ call _ hCall hPhase =>
      obtain ⟨-, result, hReturned⟩ := hCalls call (List.mem_of_getElem? hCall)
      rw [hReturned] at hPhase
      cases hPhase
    | missed _ handler hHandler hPhase | found _ handler _ hHandler hPhase
    | handed _ handler _ _ hHandler hPhase | unlocked _ handler hHandler hPhase =>
      rw [hHandlers handler (List.mem_of_getElem? hHandler)] at hPhase
      cases hPhase

/- The second handler comes when the channel is taken away. -/
theorem collecting_finishes_one :
    ∃ node, Reach (Stepping (step plainService)) Orderly .start node ∧
      Stuck plainService node ∧ Finished node := by
  have hRun :
      ∃ node, Reach (Stepping (step plainService)) Orderly .start node ∧
        node.calls = [askedOne true (.returned (.signatures [8]))] ∧
        node.handlers = [⟨answerSeven, .finished⟩, ⟨answerSeven, .finished⟩] :=
    exists_reach (askOne ++ [.release 0, .look 1, .act 0 .ended]) (by decide)
  obtain ⟨node, hReach, hCalls, hHandlers⟩ := hRun
  have hStuck : Stuck plainService node := by
    apply stuck_of_returned
    · rw [hCalls]
      intro call hMem
      obtain rfl := List.mem_singleton.mp hMem
      exact ⟨rfl, _, rfl⟩
    · rw [hHandlers]
      decide
  exact ⟨node, hReach, hStuck, (collecting_finishes plainService).2 node hReach hStuck⟩

end

---- A Handler That Is Left Alone

/- The handler holds the lock and sends to a call that waits
   for the lock. -/
def Blocked (i c : Nat) (node : Signing) : Prop :=
  node.waitsMtx = some i ∧
    (∃ handler, node.handlers[i]? = some handler ∧ handler.phase = .sending c) ∧
    ∃ call result, node.calls[c]? = some call ∧ call.phase = .leaving result

/- A call that is leaving cannot do anything by itself. -/
theorem Acted.leaving (hActed : Acted call action next) (hPhase : call.phase = .leaving result) :
    next.phase = .leaving result := by
  cases hActed with
  | ended => exact hPhase
  | asked _ _ hOther | failed _ _ hOther | sent hOther | cancelled hOther =>
    rw [hPhase] at hOther
    cases hOther

theorem Blocked.step (hLinked : Linked node) (hBlocked : Blocked i c node)
    (hStep : Collect.step s label node = some after) : Blocked i c after := by
  obtain ⟨hLock, ⟨handler, hHandler, hSending⟩, call, result, hCall, hLeaving⟩ := hBlocked
  have hOnly {j : Nat} {other : SignHandler} (hOther : node.handlers[j]? = some other)
      (hHolds : other.phase.holds = true) : j = i ∧ other = handler := by
    obtain rfl := Option.some.inj ((hLinked.holds j other hOther hHolds).symm.trans hLock)
    exact ⟨rfl, Option.some.inj (hOther.symm.trans hHandler)⟩
  cases step_effect hStep with
  | called request =>
    exact ⟨hLock, ⟨handler, hHandler, hSending⟩, call, result, slot_append_of_slot hCall, hLeaving⟩
  | ignored => exact ⟨hLock, ⟨handler, hHandler, hSending⟩, call, result, hCall, hLeaving⟩
  | arrived now req =>
    exact ⟨hLock, ⟨handler, slot_append_of_slot hHandler, hSending⟩, call, result, hCall, hLeaving⟩
  | acted d other next action hOther hActed =>
    refine ⟨hLock, ⟨handler, hHandler, hSending⟩, ?_⟩
    by_cases hSame : d = c
    · subst hSame
      obtain rfl := Option.some.inj (hOther.symm.trans hCall)
      exact ⟨next, result, slot_set_self hCall, hActed.leaving hLeaving⟩
    · exact ⟨call, result, (List.getElem?_set_ne hSame).trans hCall, hLeaving⟩
  | obtained _ _ _ _ _ hFree | released _ _ _ _ _ hFree | missed _ _ _ _ hFree
  | found _ _ _ _ _ hFree =>
    rw [hLock] at hFree
    cases hFree
  | handed j other d taker hOther hPhase hTaker hCollecting =>
    obtain ⟨rfl, rfl⟩ := hOnly hOther (by rw [hPhase]; rfl)
    rw [hSending] at hPhase
    cases hPhase
    obtain rfl := Option.some.inj (hTaker.symm.trans hCall)
    rw [hLeaving] at hCollecting
    cases hCollecting
  | unlocked j other hOther hPhase =>
    obtain ⟨rfl, rfl⟩ := hOnly hOther (by rw [hPhase]; rfl)
    rw [hSending] at hPhase
    cases hPhase

/- Whatever happens later, the handler stays blocked. -/
theorem Blocked.never_finished (hLinked : Linked node)
    (hBlocked : Blocked i c node) (hReach : Reach (Stepping (Collect.step s)) allowed node after) :
    ¬ Finished after := by
  have hBoth : Linked after ∧ Blocked i c after := by
    apply hReach.invariant (fun node => Linked node ∧ Blocked i c node)
    · exact ⟨hLinked, hBlocked⟩
    · intro label before next hInv _ hStep
      exact ⟨hInv.1.step hStep, Blocked.step hInv.1 hInv.2 hStep⟩
  intro hFinished
  obtain ⟨-, hLock, -⟩ := hBoth
  rw [hFinished.waitsMtx] at hLock
  cases hLock

/- The trust node sends its result twice: the second handler
   looks up the channel before the call has the lock. -/
theorem collecting_deadlocks :
    ∃ node, Reach (Stepping (step plainService)) (fun _ _ => True) .start node ∧
      ∀ later, Reach (Stepping (step plainService)) (fun _ _ => True) node later →
        ¬ Finished later := by
  have hRun :
      ∃ node, Reach (Stepping (step plainService)) (fun _ _ => True) .start node ∧
        node.waitsMtx = some 1 ∧ node.calls = [askedOne false (.leaving (.signatures [8]))] ∧
        node.handlers = [⟨answerSeven, .finished⟩, ⟨answerSeven, .sending 0⟩] :=
    exists_reach (askOne ++ [.look 1]) (by decide)
  obtain ⟨node, hReach, hLock, hCalls, hHandlers⟩ := hRun
  have hLinked : Linked node :=
    hReach.invariant Linked .start (fun _ _ _ hInv _ hStep => hInv.step hStep)
  have hBlocked : Blocked 1 0 node := by
    rw [Blocked, hLock, hCalls, hHandlers]
    exact ⟨rfl, ⟨_, rfl, rfl⟩, _, _, rfl, rfl⟩
  exact ⟨node, hReach, fun later hLater => hBlocked.never_finished hLinked hLater⟩

end Collect

end Sana.Mine
