import Sana.Mine.Trust

/-
  Roll calls, and peers that are not trust nodes.

  A node remembers the height of the last roll call and takes up a roll call only if its height is
  above that.  The height is remembered as soon as the message is read, whoever sent it: a roll call
  with the greatest height, from any peer, makes the node ignore all later ones
  (`outsider_suppresses`).  When the roll calls of peers that are not trust nodes are not above the
  remembered height, and no message is too short, these peers make no difference to which roll calls
  of trust nodes are taken up (`outsiders_do_not_suppress`).

  Key definitions include:
    * `TrustService.takesUp`
    * `Event`

  Key theorems include:
    * `decisions_eq_heightDecisions`
-/

---- The Remembered Height

namespace Sana.Mine

open KeyValue Program

namespace TrustService

section

variable (s : TrustService) (env : TrustEnv)

/- The height in the payload of a roll call. -/
def rollHeight (received : List UInt8) : Nat :=
  fromBigEndian ((received.drop 32).take 8)

/- A roll call is taken up when it was read in time and its
   height is above the one that is remembered. -/
def takesUp (read : Option Trust) (known : Nat) : Bool :=
  match read with
  | none => false
  | some req =>
    decide (env.now ≤ req.expire) && s.observer && decide (known < rollHeight req.stream.elems)

/- The height after a roll call, when a height is known. -/
def heightAfter (read : Option Trust) (known : Nat) : Nat :=
  match read with
  | none => known
  | some req =>
    if s.takesUp env (some req) known then rollHeight req.stream.elems
    else known

/- A roll call that is taken up is queued, to be answered,
   and goes on to the other peers. -/
def answerRollCall (peer : Overlay) (expire : Int) (data : Slice UInt8) : TrustCall Unit := do
  let trust ← Handler.get fun node => node.trustOf s.base
  if trust then s.pushRollCall env expire data.elems peer
  else do
    let address ← Handler.inRange (data.slice 0 32)
    enqueue ⟨expire, rollHeight data.elems, address.elems⟩
    s.pushRollCall env expire data.elems peer

variable {s : TrustService} {env : TrustEnv}
variable {received spare : List UInt8}
variable {peer : Overlay} {expire : Int}

theorem run_notifyTrustRollCall (hLen : 40 ≤ received.length) (node : TrustNode) :
    (s.notifyTrustRollCall env peer expire ⟨received, spare⟩).run node =
      if rollHeight received ≤ node.height then (.ok (), node)
      else
        (s.answerRollCall env peer expire
          ⟨received, spare⟩).run { node with height := rollHeight received } := by
  have hRest : 8 ≤ (received.drop 32).length := by
    rw [List.length_drop]
    omega
  unfold notifyTrustRollCall
  rw [Slice.sliceFrom_of_le (by omega)]
  change (Handler.inRange (uint 8 _) >>= _).run node = _
  rw [uint_of_le hRest]
  change ((if rollHeight received ≤ node.height then pure () else _ : TrustCall Unit)).run node = _
  split
  · rfl
  · rfl

/- The call on a roll call that was read. -/
theorem run_handlerRollCall (peer : Overlay) (hFits : env.now ≤ expire → 40 ≤ received.length)
    (node : TrustNode) :
    let req : Trust := ⟨expire, ⟨received, spare⟩⟩
    let after := (s.handlerRollCall env peer (some req)).run node
    if s.takesUp env (some req) node.height then
      after =
        (s.answerRollCall env peer expire
          ⟨received, spare⟩).run { node with height := rollHeight received }
    else
      after.2 = node := by
  intro req after
  have hAfter : after = _ := congrArg (Handler.run · node) handlerRollCall_some
  by_cases hNow : env.now ≤ expire
  · rw [if_pos hNow] at hAfter
    cases hObserver : s.observer with
    | false =>
      rw [hObserver] at hAfter
      simp only [takesUp, hObserver, Bool.and_false, Bool.false_and, Bool.false_eq_true, if_false]
      rw [hAfter]
      rfl
    | true =>
      rw [hObserver] at hAfter
      change after = (s.notifyTrustRollCall env peer expire ⟨received, spare⟩).run node at hAfter
      rw [run_notifyTrustRollCall (hFits hNow)] at hAfter
      simp only [takesUp, req, hNow, decide_true, hObserver, Bool.true_and, decide_eq_true_eq]
      by_cases hKnown : rollHeight received ≤ node.height
      · rw [if_neg (not_lt.mpr hKnown), hAfter, if_pos hKnown]
      · rw [if_pos (not_le.mp hKnown), hAfter, if_neg hKnown]
  · rw [if_neg hNow] at hAfter
    simp only [takesUp, req, hNow, decide_false, Bool.false_and, Bool.false_eq_true, if_false]
    rw [hAfter]
    rfl

end

---- Who Changes The Height

variable {s : TrustService} {env : TrustEnv}
variable {name : TrustStream}
variable {peer : Overlay} {expire : Int}

/- A handler leaves the remembered height as it is. -/
abbrev KeepsHeight {α : Type} (call : TrustCall α) : Prop :=
  Handler.Keeps TrustNode.height call

theorem keepsHeight_write : KeepsHeight (write message written) :=
  .bind (.check _ _) fun _ => .modify fun _ => rfl

theorem keepsHeight_forward : KeepsHeight (s.forward name traced peer req attempts) := by
  induction attempts with
  | nil => exact .stop _
  | cons attempt attempts ih =>
    unfold forward
    split
    · exact .stop _
    cases attempt.closest with
    | none => exact .stop _
    | some closest =>
      dsimp only
      split
      · exact .stop _
      split
      · exact .stop _
      cases attempt.stream with
      | notFound => exact ih
      | failed => exact .stop _
      | opened written =>
        dsimp only
        split
        · exact .bind (.inRange _) fun _ => keepsHeight_write
        · exact keepsHeight_write

theorem keepsHeight_pushSignatures {id : Nat} (peer : Overlay) :
    KeepsHeight (s.pushSignatures id expire data target peer attempts) := by
  induction attempts generalizing peer with
  | nil => exact .stop _
  | cons attempt attempts ih =>
    unfold pushSignatures
    cases attempt.stream with
    | opened written => exact keepsHeight_write
    | failed => exact .stop _
    | notFound =>
      dsimp only
      split
      · exact .stop _
      split
      · exact .stop _
      cases attempt.closest with
      | none => exact .stop _
      | some closer => exact ih closer

theorem keepsHeight_pushRollCall : KeepsHeight (s.pushRollCall env expire data peer) := by
  unfold pushRollCall
  split
  · exact .stop _
  · exact .modify fun _ => rfl

theorem keepsHeight_enqueue : KeepsHeight (enqueue rc) := by
  refine .bind (.get _) fun queued => ?_
  split
  · exact .modify fun _ => rfl
  · exact .stop _

theorem keepsHeight_answerRollCall : KeepsHeight (s.answerRollCall env peer expire data) := by
  refine .bind (.get _) fun trust => ?_
  split
  · exact keepsHeight_pushRollCall
  · exact .bind (.inRange _) fun _ =>
      .bind keepsHeight_enqueue fun _ => keepsHeight_pushRollCall

theorem keepsHeight_deviceCate : KeepsHeight (deviceCate env data) := by
  unfold deviceCate
  split
  · exact .bind (.inRange _) fun _ => .bind (.check _ _) fun _ => .pure _
  · exact .pure _

theorem keepsHeight_signResponse : KeepsHeight (s.signResponse env node cate expire withPrice) := by
  unfold signResponse
  split
  · exact .bind (.check _ _) fun _ =>
      .bind (.answer _ _) fun _ => .bind (.answer _ _) fun _ => .pure _
  · exact .answer _ _

theorem keepsHeight_notifyTrustSignature :
    KeepsHeight (s.notifyTrustSignature env peer expire data) := by
  refine .bind (.inRange _) fun _ => ?_
  refine .bind (.answer _ _) fun _ => ?_
  refine .bind (.check _ _) fun _ => ?_
  refine .bind (.answer _ _) fun _ => ?_
  refine .bind (.check _ _) fun _ => ?_
  refine .bind keepsHeight_deviceCate fun _ => ?_
  refine .bind (.inRange _) fun _ => ?_
  refine .bind keepsHeight_signResponse fun _ => ?_
  refine .bind (.inRange _) fun _ => ?_
  refine .bind (.inRange _) fun _ => ?_
  exact keepsHeight_pushSignatures _

theorem keepsHeight_mineAddress : KeepsHeight (mineAddress env h) := by
  refine .bind (.get _) fun found => ?_
  split
  · exact .pure _
  split
  · refine .bind (.answer _ _) fun _ => ?_
    refine .bind (.modify fun _ => rfl) fun _ => ?_
    exact .bind (.check _ _) fun _ => .pure _
  · exact .pure _

theorem keepsHeight_updateNodeLastBlock :
    KeepsHeight (updateNodeLastBlock address blockNumber) := by
  refine .bind (.get _) fun found => ?_
  split
  · exact .stop _
  split
  · exact .pure _
  · exact .modify fun _ => rfl

theorem keepsHeight_notifyTrustRollCallSign :
    KeepsHeight (s.notifyTrustRollCallSign env expire data) := by
  refine .bind (.inRange _) fun _ => ?_
  refine .bind (.inRange _) fun _ => ?_
  refine .bind (.answer _ _) fun _ => ?_
  refine .bind keepsHeight_mineAddress fun _ => ?_
  split
  · refine .bind (.inRange _) fun _ => ?_
    refine .bind (.inRange _) fun _ => ?_
    exact keepsHeight_updateNodeLastBlock
  · exact .stop _

theorem keepsHeight_deliverSign (req : Trust) : KeepsHeight (s.deliverSign env peer req) :=
  .bind (.check _ _) fun _ => .bind (.inRange _) fun _ => keepsHeight_notifyTrustSignature

theorem keepsHeight_deliverSignRet (req : Trust) : KeepsHeight (deliverSignRet req) := by
  refine .bind (.inRange _) fun _ => ?_
  refine .bind (.inRange _) fun _ => ?_
  refine .bind (.get _) fun found => ?_
  split
  · exact .pure _
  split
  · exact .stop _
  · exact .modify fun _ => rfl

theorem keepsHeight_route (hDeliver : ∀ req, KeepsHeight (deliver req)) (read : Option Trust) :
    KeepsHeight (s.route env name traced deliver peer read) := by
  refine .bind (.bind (.answer _ _) fun _ =>
      .bind (.check _ _) fun _ => .pure _)
    fun req => ?_
  refine .bind (.inRange _) fun target => ?_
  split
  · exact hDeliver req
  · exact keepsHeight_forward

/- Only roll calls change the height. -/
theorem keepsHeight_handle (hName : name ≠ .rollCall) (read : Option Trust) :
    KeepsHeight (s.handle env name peer read) := by
  cases name with
  | sign => exact keepsHeight_route (fun _ => keepsHeight_deliverSign _) _
  | signRet => exact keepsHeight_route keepsHeight_deliverSignRet _
  | rollCall => exact absurd rfl hName
  | rollCallSign =>
    exact keepsHeight_route (fun _ => .bind (.check _ _) fun _ =>
        keepsHeight_notifyTrustRollCallSign) _

/- The height after a roll call. -/
theorem height_handlerRollCall {read : Option Trust}
    (hFits : ∀ req, read = some req → env.now ≤ req.expire → 40 ≤ req.stream.elems.length) :
    ((s.handlerRollCall env peer read).run node).2.height = s.heightAfter env read node.height := by
  cases read with
  | none => rfl
  | some req =>
    obtain ⟨expire, received, spare⟩ := req
    have hRun := @run_handlerRollCall s env received spare expire peer (hFits _ rfl) node
    dsimp only [heightAfter] at hRun ⊢
    by_cases hTakes : s.takesUp env (some ⟨expire, ⟨received, spare⟩⟩) node.height = true
    · rw [if_pos hTakes] at hRun ⊢
      rw [hRun]
      exact keepsHeight_answerRollCall _
    · rw [if_neg hTakes] at hRun ⊢
      rw [hRun]

end TrustService

---- Runs

/-
  What happens to a node: a message comes in on a stream, or the next queued roll call is taken from
  the channel.
-/
inductive Event where
  | message (peer : Overlay) (name : TrustStream) (env : TrustEnv) (read : Option Trust)
  | take

/- The node after a call; there is none after a panic. -/
def survivor : Except (Stop TrustErr) Unit × TrustNode → Option TrustNode
| (.error .panic, _) => none
| (_, after) => some after

theorem survivor_of_ne
    (hPanic : outcome.1 ≠ .error .panic) : survivor outcome = some outcome.2 := by
  obtain ⟨result, after⟩ := outcome
  cases result with
  | ok value => rfl
  | error reason =>
    cases reason with
    | panic => exact absurd rfl hPanic
    | err e | blocked => rfl

/- The node after an event. -/
def react (s : TrustService) : Event → TrustNode → Option TrustNode
| .message peer name env read, node => survivor ((s.handle env name peer read).run node)
| .take, node => some { node with rcnc := node.rcnc.tail }

variable (s : TrustService) (trusted : Overlay → Bool)

/- All but the messages of peers that are not trust nodes. -/
def Event.fromTrusted : Event → Bool
| .message peer _ _ _ => trusted peer
| .take => true

/- Whether a roll call of a trust node is taken up; there is
   nothing to say about other events. -/
def decision (node : Option TrustNode) : Event → Option Bool
| .message peer .rollCall env read =>
  if trusted peer then
    match node with
    | none => some false
    | some node => some (s.takesUp env read node.height)
  else none
| _ => none

/- The decisions of a run, one after the other. -/
def decisions : Option TrustNode → List Event → List Bool
| _, [] => []
| node, event :: events =>
  (decision s trusted node event).toList ++ decisions (node.bind (react s event)) events

/-
  A message that was read in time is long enough, and a roll call of a peer that is no trust node is
  not above the height that is remembered.
-/
def Harmless (node : TrustNode) : Event → Prop
| .message peer name env read =>
  ∀ req, read = some req → (env.now ≤ req.expire → s.LongEnough name req.stream.elems) ∧
    (trusted peer = false → name = .rollCall →
      TrustService.rollHeight req.stream.elems ≤ node.height)
| .take => True

/- Every event of a run is harmless when it happens. -/
def HarmlessRun : TrustNode → List Event → Prop
| _, [] => True
| node, event :: events =>
  Harmless s trusted node event ∧
    ∀ after, react s event node = some after → HarmlessRun after events

/- The decisions of a node that only hears trust nodes. -/
def heightDecisions : Nat → List Event → List Bool
| _, [] => []
| known, .message _ .rollCall env read :: events =>
  s.takesUp env read known :: heightDecisions (s.heightAfter env read known) events
| known, _ :: events => heightDecisions known events

variable {s trusted}
variable {node : TrustNode}

/- A harmless message stops nothing. -/
theorem react_message {read : Option Trust}
    (hWired : s.topology = true)
    (hHarmless : Harmless s trusted node (.message peer name env read)) :
    react s (.message peer name env read) node =
      some ((s.handle env name peer read).run node).2 := by
  apply survivor_of_ne
  cases read with
  | none => cases name <;> nofun
  | some req => exact TrustService.avoids_handle nofun hWired (hHarmless req rfl).1 nofun

/- What a harmless message does to the height. -/
theorem height_message {read : Option Trust}
    (hHarmless : Harmless s trusted node (.message peer name env read)) :
    ((s.handle env name peer read).run node).2.height = if name = .rollCall then
        s.heightAfter env read node.height
      else
        node.height := by
  by_cases hName : name = .rollCall
  · subst hName
    exact TrustService.height_handlerRollCall (fun req hRead hNow =>
        ((hHarmless req hRead).1 hNow))
  · rw [if_neg hName]
    exact TrustService.keepsHeight_handle hName read node

/- A harmless roll call of an outsider is not taken up. -/
theorem heightAfter_outsider {read : Option Trust}
    (hHarmless : Harmless s trusted node (.message peer .rollCall env read))
    (hOutsider : trusted peer = false) : s.heightAfter env read node.height = node.height := by
  cases read with
  | none => rfl
  | some req =>
    have hLe := (hHarmless req rfl).2 hOutsider rfl
    have hTakes : s.takesUp env (some req) node.height = false := by
      simp only [TrustService.takesUp, Bool.and_eq_false_iff, decide_eq_false_iff_not, not_lt]
      exact .inr hLe
    simp only [TrustService.heightAfter, hTakes, Bool.false_eq_true, if_false]

/-
  The decisions of a harmless run depend on the messages of trust nodes and on the height at its
  beginning.
-/
theorem decisions_eq_heightDecisions (hWired : s.topology = true)
    (hRun : HarmlessRun s trusted node events) :
    decisions s trusted (some node) events =
      heightDecisions s node.height (events.filter (Event.fromTrusted trusted)) := by
  induction events generalizing node with
  | nil => rfl
  | cons event events ih =>
    obtain ⟨hHarmless, hRest⟩ := hRun
    cases event with
    | take => exact ih (hRest _ rfl)
    | message peer name env read =>
      have hReact := react_message hWired hHarmless
      have hHeight := height_message hHarmless
      have hLater := ih (hRest _ hReact)
      rw [hHeight] at hLater
      rw [decisions, Option.bind_some, hReact, hLater]
      cases hPeer : trusted peer with
      | true =>
        have hKept : Event.fromTrusted trusted (.message peer name env read) = true := hPeer
        rw [List.filter_cons_of_pos hKept]
        cases name with
        | rollCall =>
          simp only [decision, hPeer, if_true, Option.toList_some, List.cons_append,
            List.nil_append, heightDecisions]
        | sign | signRet | rollCallSign => rfl
      | false =>
        rw [List.filter_cons_of_neg]
        · cases name with
          | rollCall =>
            rw [if_pos rfl, heightAfter_outsider hHarmless hPeer]
            simp only [decision, hPeer, Bool.false_eq_true, if_false,
              Option.toList_none, List.nil_append]
          | sign | signRet | rollCallSign => rfl
        · simp only [Event.fromTrusted, hPeer, Bool.false_eq_true, not_false_eq_true]

/-
  Two harmless runs that differ only in messages of peers that are no trust nodes take up the same
  roll calls of trust nodes.
-/
theorem outsiders_do_not_suppress (s : TrustService) (trusted : Overlay → Bool) (node : TrustNode)
    (events events' : List Event) (hWired : s.topology = true)
    (hSame : events.filter (Event.fromTrusted trusted) = events'.filter (Event.fromTrusted trusted))
    (hRun : HarmlessRun s trusted node events) (hRun' : HarmlessRun s trusted node events') :
    decisions s trusted (some node) events = decisions s trusted (some node) events' := by
  rw [decisions_eq_heightDecisions hWired hRun, decisions_eq_heightDecisions hWired hRun', hSame]

/- A roll call for a height. -/
def rollCallOf (peer : Overlay) (height : Nat) : Event :=
  .message peer .rollCall plainEnv (some ⟨10, ⟨List.replicate 32 7 ++ bigEndian 8 height, []⟩⟩)

/- The peer `1` is the only trust node. -/
def trustsOne (peer : Overlay) : Bool :=
  peer == [1]

theorem harmless_rollCallOf (node : TrustNode) (peer : Overlay) (height : Nat)
    (hHeight :
      trustsOne peer = false →
        TrustService.rollHeight (List.replicate 32 7 ++ bigEndian 8 height) ≤ node.height) :
    Harmless plainService trustsOne node (rollCallOf peer height) := by
  rintro req ⟨⟩
  refine ⟨fun _ => ?_, fun hPeer _ => hHeight hPeer⟩
  rw [TrustService.LongEnough, minLength, List.length_append,
    List.length_replicate, length_bigEndian]

/- An outsider repeats the height that is remembered. -/
theorem outsiders_do_not_suppress_example :
    decisions plainService trustsOne (some plainNode) [rollCallOf [1] 5] =
      decisions plainService trustsOne (some plainNode) [rollCallOf [2] 0, rollCallOf [1] 5] := by
  have hTrusted : ∀ node, HarmlessRun plainService trustsOne node [rollCallOf [1] 5] := by
    intro node
    exact ⟨harmless_rollCallOf node [1] 5 nofun, fun _ _ => trivial⟩
  apply outsiders_do_not_suppress
  · rfl
  · rfl
  · exact hTrusted plainNode
  · refine ⟨harmless_rollCallOf plainNode [2] 0 ?_, ?_⟩
    · decide +kernel
    · intro after _
      exact hTrusted after

/-
  An outsider sends a roll call with the greatest height: the node goes on, but the roll call of the
  trust node is not taken up any more.
-/
theorem outsider_suppresses :
    ∃ (s : TrustService) (trusted : Overlay → Bool) (node : TrustNode)
      (events events' : List Event),
      events.filter (Event.fromTrusted trusted) = events'.filter (Event.fromTrusted trusted) ∧
        (events'.foldlM (fun node event => react s event node) node).isSome ∧
        decisions s trusted (some node) events = [true] ∧
        decisions s trusted (some node) events' = [false] :=
  ⟨plainService, trustsOne, plainNode, [rollCallOf [1] 5],
    [rollCallOf [2] (2 ^ 64 - 1), rollCallOf [1] 5], rfl, by decide +kernel, by decide +kernel,
    by decide +kernel⟩

end Sana.Mine
