import Sana.Accounting.Account

/-
  Time based settlement between two peers.

  A node that is in debt sends the amount of its debt.  The peer accepts as much as the time since
  the last payment allows and as it finds debt, and acknowledges it.  The node checks the
  acknowledgement against its own view, which is its debt without the debits that the peer may have
  counted already.

  Requests and refreshments of both directions are under way, and two honest nodes never see the
  same numbers.  A node holds the lock of its account from the moment it computes its shadow balance
  until the acknowledgement is processed.

  Key definitions include:
    * `peerAllowance`
    * `handlePayment`

  Key theorems include:
    * `handlePayment_ge`
-/

---- Receiving Payments

namespace Sana

namespace Settlement

inductive SettlementErr where
  | settlementTooSoon
  | timeOutOfSync
  | acceptedLarger
  | acceptedLower
  deriving DecidableEq, Repr

/- What is stored about payments of one direction. -/
structure LastPayment where
  timestamp : Int
  checkTimestamp : Int
  total : Int
  deriving DecidableEq, Repr

/- What is used when nothing is stored. -/
def LastPayment.zero : LastPayment where
  timestamp := 0
  checkTimestamp := 0
  total := 0

def peerAllowance (refreshRate : Nat) (received : Option LastPayment) (currentTime : Int)
    (peerDebt : Int) : Except SettlementErr (Int × Int) :=
  let lastTime := received.getD .zero
  if currentTime = lastTime.timestamp then .error .settlementTooSoon
  else
    let maxAllowance := (currentTime - lastTime.timestamp) * refreshRate
    if maxAllowance ≤ peerDebt then .ok (maxAllowance, currentTime)
    else .ok (peerDebt, currentTime)

/-
  The first part of `handler`: the amount and the timestamp of the acknowledgement for an attempted
  amount.
-/
def handlePayment (refreshRate : Nat) (received : Option LastPayment) (currentTime : Int)
    (peerDebt : Int) (attemptedAmount : Nat) : Except SettlementErr (Nat × Int) := do
  let (allowance, timestamp) ← peerAllowance refreshRate received currentTime peerDebt
  let paymentAmount := if allowance < attemptedAmount then allowance
    else attemptedAmount
  .ok (paymentAmount.toNat, timestamp)

/- The second part of `handler`, after the acknowledgement. -/
def recordReceived (received : Option LastPayment) (paymentAmount : Nat)
    (timestamp : Int) : LastPayment :=
  let lastTime := received.getD .zero
  { lastTime with
    total := lastTime.total + paymentAmount
    timestamp := timestamp }

/-
  An honest peer accepts what the time and its view of the debt allow, and not more than the
  attempted amount.
-/
theorem handlePayment_ge (hHandle :
      handlePayment refreshRate received currentTime peerDebt
        attemptedAmount = .ok (amount, timestamp)) :
    min ((timestamp - (received.getD .zero).timestamp) * refreshRate)
        (min peerDebt attemptedAmount) ≤ amount ∧ amount ≤ attemptedAmount := by
  unfold handlePayment peerAllowance at hHandle
  dsimp only at hHandle
  split at hHandle
  · cases hHandle
  · split at hHandle
    · cases hHandle
      generalize (currentTime - (received.getD .zero).timestamp) *
        (refreshRate : Int) = maxAllowance at *
      split <;> omega
    · cases hHandle
      split <;> omega

---- Sending Payments

/- `Pay` up to the message. -/
def startPay (sent : Option LastPayment) (currentTime : Int) : Except SettlementErr LastPayment :=
  let lastTime := sent.getD .zero
  if currentTime = lastTime.timestamp then .error .settlementTooSoon
  else .ok lastTime

/- The amount that `Pay` requires the peer to accept. -/
def expectedAllowance (refreshRate : Nat) (amount checkAllowance allegedInterval : Int) : Int :=
  let checkAllowance := if amount < checkAllowance then amount else checkAllowance
  if checkAllowance < allegedInterval * refreshRate then checkAllowance
  else allegedInterval * refreshRate

/- `Pay` when the acknowledgement arrives: what is stored, or why the payment is rejected. -/
def checkAck (refreshRate : Nat) (lastTime : LastPayment) (amount checkAllowance : Int)
    (checkTime : Int) (acceptedAmount : Nat) (timestamp : Int) : Except SettlementErr LastPayment :=
  if amount < acceptedAmount then .error .acceptedLarger
  else
    let experiencedInterval := checkTime - lastTime.checkTimestamp
    let allegedInterval := timestamp - lastTime.timestamp
    if allegedInterval < 0 then .error .timeOutOfSync
    else if timestamp - checkTime < -2 ∨ 2 < timestamp - checkTime then .error .timeOutOfSync
    else if experiencedInterval - allegedInterval < -3 ∨
        3 < experiencedInterval - allegedInterval then
      .error .timeOutOfSync
    else if acceptedAmount <
        expectedAllowance refreshRate amount checkAllowance allegedInterval then
      .error .acceptedLower
    else
      .ok
        { total := lastTime.total + acceptedAmount
          timestamp := timestamp
          checkTimestamp := checkTime }

theorem expectedAllowance_eq :
    expectedAllowance refreshRate amount checkAllowance allegedInterval =
      min (allegedInterval * refreshRate) (min checkAllowance amount) := by
  unfold expectedAllowance
  dsimp only
  split <;> split <;> omega

/- Enough was accepted. -/
theorem checkAck_not_lower {refreshRate : Nat} {amount checkAllowance timestamp : Int}
    {acceptedAmount : Nat} (checkTime : Int)
    (hEnough :
      min ((timestamp - lastTime.timestamp) * refreshRate)
        (min checkAllowance amount) ≤ acceptedAmount) :
    checkAck refreshRate lastTime amount checkAllowance checkTime acceptedAmount timestamp ≠
      .error .acceptedLower := by
  unfold checkAck
  dsimp only
  rw [expectedAllowance_eq]
  split
  · exact nofun
  · split
    · exact nofun
    · split
      · exact nofun
      · split
        · exact nofun
        · rw [if_neg (by omega)]
          exact nofun

/- The timestamp that a successful payment stores. -/
theorem timestamp_of_checkAck (hCheck :
      checkAck refreshRate lastTime amount checkAllowance
        checkTime acceptedAmount timestamp = .ok last) : last.timestamp = timestamp := by
  unfold checkAck at hCheck
  dsimp only at hCheck
  split at hCheck
  · cases hCheck
  · split at hCheck
    · cases hCheck
    · split at hCheck
      · cases hCheck
      · split at hCheck
        · cases hCheck
        · split at hCheck
          · cases hCheck
          · cases hCheck
            rfl

end Settlement

---- Refreshments Of A Reservation

namespace Accounts

variable {a : Accounting} {p : PeerAccount}

/- The amount and the shadow balance that `Reserve` calls the refresh function with, if it does. -/
def Accounting.reserveRefresh (a : Accounting) (price : Nat) (now : Int)
    (p : PeerAccount) : Option (Int × Int) :=
  if p.connected = false then none
  else
    let threshold := if a.earlyPayment < p.paymentThreshold then
        p.paymentThreshold - a.earlyPayment
      else 0
    match p.getIncreasedExpectedDebt price with
    | .error _ => none
    | .ok debt =>
      if threshold ≤ debt - p.shadowReservedBalance ∧ p.getBalance < 0 then
        match p.refreshRequest now with
        | .error _ => none
        | .ok request => request
      else none

/- The amount of the refreshment, if there is one. -/
def acceptedOf (request : Option (Int × Int)) (refresh : Option (Nat × Int)) : Nat :=
  match request, refresh with
  | some _, some (acceptedAmount, _) => acceptedAmount
  | _, _ => 0

theorem finishReserve_outcome (price : Nat) (debt : Int) (o : Outcome) :
    (Accounting.finishReserve price debt o).payment = o.payment ∧
      (Accounting.finishReserve price debt o).refreshed = o.refreshed := by
  unfold Accounting.finishReserve
  split <;> exact ⟨rfl, rfl⟩

section

variable (hCheques : a.payFunction = false)
include hCheques

/- Without cheques no payment is started. -/
theorem startPayment_outcome (now : Int) (refreshed : Nat)
    (p : PeerAccount) :
    a.startPayment now refreshed p = { account := p, refreshed := refreshed } := by
  apply if_neg
  rw [hCheques]
  exact fun hPay => Bool.false_ne_true hPay.1

theorem settle_outcome (now : Int) (refresh : Option (Nat × Int))
    (p : PeerAccount) :
    (a.settle now refresh p).payment = none ∧
      (a.settle now refresh p).refreshed = acceptedOf (match p.refreshRequest now with
            | .error _ => none
            | .ok request => request) refresh := by
  unfold Accounting.settle
  cases p.refreshRequest now with
  | error err => exact ⟨rfl, rfl⟩
  | ok request =>
    cases request with
    | none =>
      rw [startPayment_outcome hCheques]
      exact ⟨rfl, rfl⟩
    | some asked =>
      cases refresh with
      | none => exact ⟨rfl, rfl⟩
      | some accepted =>
        dsimp only
        rw [startPayment_outcome hCheques]
        exact ⟨rfl, rfl⟩

section

variable (price : Nat) (now : Int) (refresh : Option (Nat × Int)) (p : PeerAccount)

/- What a reservation pays: the refreshment, and no cheque. -/
theorem reserve_refreshed :
    (a.reserve price now refresh p).payment = none ∧
      (a.reserve price now refresh p).refreshed =
        acceptedOf (a.reserveRefresh price now p) refresh := by
  unfold Accounting.reserve Accounting.reserveRefresh
  by_cases hConnected : p.connected = false
  · rw [if_pos hConnected, if_pos hConnected]
    exact ⟨rfl, rfl⟩
  · rw [if_neg hConnected, if_neg hConnected]
    generalize (if a.earlyPayment < p.paymentThreshold then
      p.paymentThreshold - a.earlyPayment else 0) = threshold
    cases p.getIncreasedExpectedDebt price with
    | error err => exact ⟨rfl, rfl⟩
    | ok debt =>
      dsimp only
      split
      · have hSettle := settle_outcome hCheques now refresh p
        split
        · exact hSettle
        · split
          · exact hSettle
          · next debt' _ =>
              have hFinish := finishReserve_outcome price debt' (a.settle now refresh p)
              exact ⟨hFinish.1.trans hSettle.1, hFinish.2.trans hSettle.2⟩
      · exact finishReserve_outcome price debt { account := p }

/- The balance and the shadow reserve together change by the refreshment only. -/
theorem reserve_standing :
    (a.reserve price now refresh p).account.surplus = p.surplus ∧
      (a.reserve price now refresh p).account.getBalance +
          (a.reserve price now refresh p).account.shadowReservedBalance =
        p.getBalance + p.shadowReservedBalance + acceptedOf (a.reserveRefresh price now p)
            refresh := by
  rcases reserve_spec a price now refresh p with ⟨o, hSettled, hPayment, hRefreshed, hResult⟩
  rcases reserve_refreshed hCheques price now refresh p with ⟨hNone, hAccepted⟩
  have hBalance := hSettled.balance
  have hShadow := hSettled.shadow
  rw [← hPayment, hNone, Option.getD_none] at hShadow
  have hSurplus : o.account.surplus = p.surplus := by
    unfold PeerAccount.surplus
    rw [hSettled.surplus]
  rcases hResult with ⟨-, hEq⟩ | ⟨-, -, -, hEq⟩
  · rw [hEq]
    exact ⟨hSurplus, by omega⟩
  · rw [hEq]
    refine ⟨hSurplus, ?_⟩
    change o.account.getBalance + o.account.shadowReservedBalance = _
    omega

end

end

theorem reserveRefresh_spec (hRefresh : a.reserveRefresh price now p = some (amount, shadow)) :
    0 < amount ∧ p.shadowBalance = .ok shadow := by
  unfold Accounting.reserveRefresh at hRefresh
  dsimp only at hRefresh
  generalize (if a.earlyPayment < p.paymentThreshold then
    p.paymentThreshold - a.earlyPayment else 0) = threshold
    at hRefresh
  split at hRefresh
  · cases hRefresh
  · split at hRefresh
    · cases hRefresh
    · split at hRefresh
      · split at hRefresh
        · cases hRefresh
        · next hRequest =>
            rw [hRefresh] at hRequest
            exact (refreshRequest_spec hRequest).2
      · cases hRefresh

/- The shadow balance is the debt that the peer must see. -/
theorem shadowBalance_le (hSurplus : p.surplus = 0) (hShadow : p.shadowBalance = .ok shadow) :
    shadow ≤ max 0 (-(p.getBalance + p.shadowReservedBalance)) := by
  rcases shadowBalance_cases hSurplus.ge hShadow with hZero | ⟨-, -, hValue⟩
  · omega
  · omega

theorem peerDebt_eq (p : PeerAccount) :
    p.peerDebt = max 0 (p.getBalance + p.shadowReservedBalance) := by
  unfold PeerAccount.peerDebt
  split <;> omega

end Accounts

end Sana

---- Nodes

namespace Sana.Settlement

open Accounts Program

variable {a : Side → Accounting} {sys sys' : Pair}

/- The two nodes. -/
inductive Side where
  | left
  | right
  deriving DecidableEq, Repr

namespace Side

def other : Side → Side
| left => right
| right => left

@[simp]
theorem other_other (s : Side) : s.other.other = s := by
  cases s <;> rfl

theorem other_ne (s : Side) : s.other ≠ s := by
  cases s <;> nofun

end Side

/- How far a refreshment is, at the node that sends it. -/
inductive PayStage where
  | asked
  | taken
  | acked (acceptedAmount : Nat) (timestamp : Int)
  deriving DecidableEq, Repr

/- A call of `Reserve` that waits for its refreshment.  The lock of the account is held. -/
structure Refreshment where
  price : Nat
  now : Int
  amount : Int
  checkAllowance : Int
  stage : PayStage
  deriving DecidableEq, Repr

/- How far the handler of a refreshment is. -/
inductive Handling where
  | computed (paymentAmount : Nat) (timestamp : Int)
  | acknowledged (paymentAmount : Nat) (timestamp : Int)
  | stored (paymentAmount : Nat)
  deriving DecidableEq, Repr

/- A node, as far as it concerns the other node. -/
structure Node where
  account : PeerAccount
  refreshment : Option Refreshment
  handling : Option Handling
  sent : Option LastPayment
  received : Option LastPayment

/- How far the node that serves a request is. -/
inductive Serving where
  | waiting
  | prepared (action : DebitAction)
  | written (action : DebitAction)
  | applied (action : DebitAction)
  | finished (delivered : Bool)
  deriving DecidableEq, Repr

/- A request, with the states of both nodes. -/
structure Request where
  requester : Side
  price : Nat
  credited : Bool
  released : Bool
  serving : Serving
  deriving DecidableEq, Repr

/- The response was written, and arrives or is lost. -/
def Serving.Responded : Serving → Prop
| .waiting => False
| .prepared _ => False
| .written _ => True
| .applied _ => True
| .finished delivered => delivered = true

structure Pair where
  node : Side → Node
  requests : List Request

namespace Pair

def setNode (sys : Pair) (s : Side) (n : Node) : Pair :=
  { sys with node := Function.update sys.node s n }

def setRequest (sys : Pair) (r r' : Request) : Pair :=
  { sys with requests := r' :: sys.requests.erase r }

def setAccount (sys : Pair) (s : Side) (p : PeerAccount) : Pair :=
  sys.setNode s { sys.node s with account := p }

/- A request is sent if its price was reserved. -/
def addRequest (sys : Pair) (s : Side) (price : Nat) (o : Outcome) : Pair :=
  { sys with
    requests :=
      if o.err = none then ⟨s, price, false, false, .waiting⟩ :: sys.requests
      else sys.requests }

end Pair

---- Steps

inductive PairOp where
  | reserve
  | refresh
  | handle
  | acknowledge
  | store
  | notifyRefreshmentReceived
  | paid
  | failed
  | credit
  | release
  | prepareDebit
  | write
  | apply
  | cleanup
  | notifyPaymentThreshold
  deriving DecidableEq, Repr

/-
  The steps of both nodes, in any order and at any times. Steps that use the account of a node wait
  for its lock, and a handler waits for the handler before it.
-/
inductive PairStep (a : Side → Accounting) : PairOp → Pair → Pair → Prop where
  | reserve (sys : Pair) (s : Side) (price : Nat) (now : Int)
      (hFree : (sys.node s).refreshment = none)
      (hRefresh : (a s).reserveRefresh price now (sys.node s).account = none) :
      PairStep a .reserve sys
        ((sys.setAccount s
          ((a s).reserve price now none (sys.node s).account).account).addRequest s price
          ((a s).reserve price now none (sys.node s).account))
  | refresh (sys : Pair) (s : Side) (price : Nat) (now currentTime : Int)
      {amount checkAllowance : Int} {lastTime : LastPayment}
      (hFree : (sys.node s).refreshment = none)
      (hRefresh :
        (a s).reserveRefresh price now (sys.node s).account = some (amount, checkAllowance))
      (hStart : startPay (sys.node s).sent currentTime = .ok lastTime) :
      PairStep a .refresh sys (sys.setNode s
          { sys.node s with refreshment := some ⟨price, now, amount, checkAllowance, .asked⟩ })
  | handle (sys : Pair) (s : Side) (currentTime : Int) {x : Refreshment} {paymentAmount : Nat}
      {timestamp : Int} (hAsked : (sys.node s).refreshment = some x) (hStage : x.stage = .asked)
      (hNext : (sys.node s.other).handling = none) (hFree : (sys.node s.other).refreshment = none)
      (hHandle :
        handlePayment (a s.other).refreshRate (sys.node s.other).received currentTime
            (sys.node s.other).account.peerDebt x.amount.natAbs = .ok (paymentAmount, timestamp)) :
      PairStep a .handle sys ((sys.setNode s
          { sys.node s with
            refreshment := some { x with stage := .taken } }).setNode
          s.other
          { sys.node s.other with handling := some (.computed paymentAmount timestamp) })
  | acknowledge (sys : Pair) (s : Side) {x : Refreshment} {paymentAmount : Nat} {timestamp : Int}
      (hAsked : (sys.node s).refreshment = some x) (hStage : x.stage = .taken)
      (hHandling : (sys.node s.other).handling = some (.computed paymentAmount timestamp)) :
      PairStep a .acknowledge sys ((sys.setNode s
          { sys.node s with
            refreshment :=
              some
                { x with
                  stage := .acked paymentAmount timestamp } }).setNode
          s.other
          { sys.node s.other with handling := some (.acknowledged paymentAmount timestamp) })
  | store (sys : Pair) (s : Side) {paymentAmount : Nat} {timestamp : Int}
      (hHandling : (sys.node s).handling = some (.acknowledged paymentAmount timestamp)) :
      PairStep a .store sys (sys.setNode s
          { sys.node s with
            handling := some (.stored paymentAmount)
            received := some (recordReceived (sys.node s).received paymentAmount timestamp) })
  | notifyRefreshmentReceived (sys : Pair) (s : Side) {paymentAmount : Nat}
      (hHandling : (sys.node s).handling = some (.stored paymentAmount))
      (hFree : (sys.node s).refreshment = none) :
      PairStep a .notifyRefreshmentReceived sys (sys.setNode s
          { sys.node s with
            account := (sys.node s).account.notifyRefreshmentReceived paymentAmount
            handling := none })
  | paid (sys : Pair) (s : Side) (checkTime : Int) {x : Refreshment} {acceptedAmount : Nat}
      {timestamp : Int} {last : LastPayment} (hAsked : (sys.node s).refreshment = some x)
      (hStage : x.stage = .acked acceptedAmount timestamp)
      (hCheck :
        checkAck (a s).refreshRate ((sys.node s).sent.getD .zero) x.amount
            x.checkAllowance checkTime acceptedAmount timestamp = .ok last) :
      PairStep a .paid sys ((sys.setNode s
          { sys.node s with
            account :=
              ((a s).reserve x.price x.now (some (acceptedAmount, checkTime))
                (sys.node s).account).account
            refreshment := none
            sent := some last }).addRequest s x.price
          ((a s).reserve x.price x.now (some (acceptedAmount, checkTime)) (sys.node s).account))
  | payFailed (sys : Pair) (s : Side) {x : Refreshment}
      (hAsked : (sys.node s).refreshment = some x) :
      PairStep a .failed sys (sys.setNode s { sys.node s with refreshment := none })
  | handlerFailed (sys : Pair) (s : Side) {handling : Handling}
      (hHandling : (sys.node s).handling = some handling) :
      PairStep a .failed sys (sys.setNode s { sys.node s with handling := none })
  | credit (sys : Pair) {r : Request} (originated : Bool) (hMem : r ∈ sys.requests)
      (hOpen : r.credited = false) (hHeld : r.released = false) (hResponse : r.serving.Responded)
      (hFree : (sys.node r.requester).refreshment = none) :
      PairStep a .credit sys
        ((sys.setAccount r.requester
          ((sys.node r.requester).account.credit r.price originated)).setRequest r
          { r with credited := true })
  | release (sys : Pair) {r : Request} (hMem : r ∈ sys.requests) (hHeld : r.released = false)
      (hFree : (sys.node r.requester).refreshment = none) :
      PairStep a .release sys
        ((sys.setAccount r.requester ((sys.node r.requester).account.release r.price)).setRequest r
          { r with released := true })
  | prepareDebit (sys : Pair) {r : Request} {p : PeerAccount} {action : DebitAction}
      (hMem : r ∈ sys.requests) (hServing : r.serving = .waiting)
      (hFree : (sys.node r.requester.other).refreshment = none)
      (hPrepare : (sys.node r.requester.other).account.prepareDebit r.price = .ok (p, action)) :
      PairStep a .prepareDebit sys
        ((sys.setAccount r.requester.other p).setRequest r { r with serving := .prepared action })
  | write (sys : Pair) {r : Request} {action : DebitAction} (hMem : r ∈ sys.requests)
      (hServing : r.serving = .prepared action) :
      PairStep a .write sys (sys.setRequest r { r with serving := .written action })
  | apply (sys : Pair) {r : Request} {action : DebitAction} (hMem : r ∈ sys.requests)
      (hServing : r.serving = .written action)
      (hFree : (sys.node r.requester.other).refreshment = none) :
      PairStep a .apply sys
        ((sys.setAccount r.requester.other
          (action.apply (a r.requester.other)
            (sys.node r.requester.other).account).2.account).setRequest r
          { r with
            serving :=
              .applied
                (action.apply (a r.requester.other) (sys.node r.requester.other).account).1 })
  | cleanup (sys : Pair) {r : Request} {action : DebitAction} (hMem : r ∈ sys.requests)
      (hServing : r.serving = .prepared action ∨ r.serving = .applied action)
      (hFree : action.applied = false → (sys.node r.requester.other).refreshment = none) :
      PairStep a .cleanup sys
        ((sys.setAccount r.requester.other
          (action.cleanup (sys.node r.requester.other).account)).setRequest r
          { r with serving := .finished action.applied })
  | notifyPaymentThreshold (sys : Pair) (s : Side) (paymentThreshold : Nat)
      (hFree : (sys.node s).refreshment = none) :
      PairStep a .notifyPaymentThreshold sys
        (sys.setAccount s ((sys.node s).account.notifyPaymentThreshold paymentThreshold))

---- What Is Under Way

/- What the peer has acknowledged and the node not added. -/
def Refreshment.acknowledged (x : Refreshment) : Int :=
  match x.stage with
  | .acked acceptedAmount _ => acceptedAmount
  | _ => 0

/- What the node has acknowledged and not subtracted. -/
def Handling.due : Handling → Int
| .computed _ _ => 0
| .acknowledged paymentAmount _ => paymentAmount
| .stored paymentAmount => paymentAmount

namespace Node

def gained (n : Node) : Int :=
  (n.refreshment.map Refreshment.acknowledged).getD 0

def owed (n : Node) : Int :=
  (n.handling.map Handling.due).getD 0

/- The balance when all debits and all acknowledged refreshments are counted. -/
def standing (n : Node) : Int :=
  n.account.getBalance + n.account.shadowReservedBalance + n.gained - n.owed

/- The timestamp of the last acknowledgement that was read. -/
def lastSent (n : Node) : Int :=
  match n.refreshment.map Refreshment.stage with
  | some (.acked _ timestamp) => timestamp
  | _ => (n.sent.getD .zero).timestamp

/- The timestamp of the last one that was written. -/
def lastReceived (n : Node) : Int :=
  match n.handling with
  | some (.acknowledged _ timestamp) => timestamp
  | _ => (n.received.getD .zero).timestamp

end Node

/- What the serving node has debited or will debit. -/
def Request.charged (r : Request) : Int :=
  match r.serving with
  | .waiting => 0
  | .prepared _ => r.price
  | .written _ => r.price
  | .applied _ => r.price
  | .finished delivered => if delivered then r.price else 0

def Request.margin (r : Request) : Int :=
  r.charged - if r.credited then (r.price : Int) else 0

/- The debit action is that of the request. -/
def Serving.Sound (price : Nat) : Serving → Prop
| .waiting => True
| .prepared action => action = ⟨price, false⟩
| .written action => action = ⟨price, false⟩
| .applied action => action = ⟨price, true⟩
| .finished _ => True

/- Only responses are credited. -/
structure Request.Sound (r : Request) : Prop where
  serving : r.serving.Sound r.price
  credited : r.credited = true → r.serving.Responded

theorem charged_of_responded {r : Request} (hResponse : r.serving.Responded) :
    r.charged = r.price := by
  unfold Request.charged
  unfold Serving.Responded at hResponse
  split at hResponse
  · exact hResponse.elim
  · exact hResponse.elim
  · rfl
  · rfl
  · rw [if_pos hResponse]

theorem Request.Sound.not_credited {r : Request} (hSound : r.Sound)
    (hResponse : ¬ r.serving.Responded) : r.credited = false :=
  Bool.eq_false_of_not_eq_true fun hCredited => hResponse (hSound.credited hCredited)

theorem Request.Sound.margin_nonneg {r : Request} (hSound : r.Sound) : 0 ≤ r.margin := by
  unfold Request.margin
  cases hCredited : r.credited with
  | true =>
    rw [charged_of_responded (hSound.credited hCredited)]
    exact (sub_self _).ge
  | false =>
    unfold Request.charged
    split
    · exact le_refl 0
    · exact Int.natCast_nonneg r.price
    · exact Int.natCast_nonneg r.price
    · exact Int.natCast_nonneg r.price
    · split
      · exact Int.natCast_nonneg r.price
      · exact le_refl 0

---- Sound States

/- The nodes refresh at one rate and send no cheques. -/
structure Honest (a : Side → Accounting) : Prop where
  rate : ∀ s, (a s.other).refreshRate = (a s).refreshRate
  cheques : ∀ s, (a s).payFunction = false

/- The lock keeps the account as `Reserve` has found it. -/
structure Node.Sound (a : Accounting) (n : Node) : Prop where
  surplus : n.account.surplus = 0
  asked :
    ∀ x, n.refreshment = some x →
      a.reserveRefresh x.price x.now n.account = some (x.amount, x.checkAllowance)

/- The acknowledged amount passes the check of the payer. -/
def Refreshment.Enough (refreshRate : Nat) (sent : Option LastPayment) (x : Refreshment)
    (amount : Nat) (timestamp : Int) : Prop :=
  min ((timestamp - (sent.getD .zero).timestamp) * refreshRate)
      (min x.checkAllowance x.amount) ≤ amount

/- What one node sends and the other node handles. -/
structure Linked (refreshRate : Nat) (payer payee : Node) : Prop where
  stamped : payer.lastSent = payee.lastReceived
  computed :
    ∀ amount timestamp,
      payee.handling = some (.computed amount timestamp) →
        ∃ x, payer.refreshment = some x ∧ x.stage = .taken ∧
          x.Enough refreshRate payer.sent amount timestamp
  acked :
    ∀ x amount timestamp, payer.refreshment = some x →
      x.stage = .acked amount timestamp → x.Enough refreshRate payer.sent amount timestamp

structure Pair.Sound (a : Side → Accounting) (sys : Pair) : Prop where
  nodes : ∀ s, (sys.node s).Sound (a s)
  links : ∀ s, Linked (a s).refreshRate (sys.node s) (sys.node s.other)
  requests : ∀ r ∈ sys.requests, r.Sound
  total :
    ∀ s, (sys.node s).standing + (sys.node s.other).standing = (sys.requests.map Request.margin).sum

theorem Side.eq_or_eq_other (s q : Side) : q = s ∨ q = s.other := by
  cases s <;> cases q <;> decide

section

variable (sys : Pair) (s : Side) (n : Node)

@[simp]
theorem Pair.setNode_self : (sys.setNode s n).node s = n :=
  Function.update_self ..

@[simp]
theorem Pair.setNode_other : (sys.setNode s n).node s.other = sys.node s.other :=
  Function.update_of_ne s.other_ne ..

@[simp]
theorem Pair.setNode_other_self : (sys.setNode s.other n).node s = sys.node s :=
  Function.update_of_ne s.other_ne.symm ..

end

/- It is enough to look at one node and its links. -/
theorem Pair.Sound.of_node (s : Side) (hNode : (sys.node s).Sound (a s))
    (hOther : (sys.node s.other).Sound (a s.other))
    (hOut : Linked (a s).refreshRate (sys.node s) (sys.node s.other))
    (hIn : Linked (a s.other).refreshRate (sys.node s.other) (sys.node s))
    (hRequests : ∀ r ∈ sys.requests, r.Sound)
    (hTotal :
      (sys.node s).standing + (sys.node s.other).standing = (sys.requests.map Request.margin).sum) :
    sys.Sound a := by
  refine ⟨fun q => ?_, fun q => ?_, hRequests, fun q => ?_⟩
  · rcases s.eq_or_eq_other q with rfl | rfl
    · exact hNode
    · exact hOther
  · rcases s.eq_or_eq_other q with rfl | rfl
    · exact hOut
    · rw [Side.other_other]
      exact hIn
  · rcases s.eq_or_eq_other q with rfl | rfl
    · exact hTotal
    · rw [Side.other_other, add_comm]
      exact hTotal

/- The link of the other direction. -/
theorem Pair.Sound.linksBack (hSound : sys.Sound a) (s : Side) :
    Linked (a s.other).refreshRate (sys.node s.other) (sys.node s) := by
  have hIn := hSound.links s.other
  rwa [Side.other_other] at hIn

/- A step that changes the record of one node. -/
theorem Pair.Sound.setNode (hSound : sys.Sound a) (s : Side) (requests : List Request)
    (hNode : n.Sound (a s)) (hOut : Linked (a s).refreshRate n (sys.node s.other))
    (hIn : Linked (a s.other).refreshRate (sys.node s.other) n)
    (hRequests : ∀ r ∈ requests, r.Sound)
    (hTotal :
      n.standing - (sys.node s).standing =
        (requests.map Request.margin).sum - (sys.requests.map Request.margin).sum) :
    Pair.Sound a { sys.setNode s n with requests := requests } := by
  have hBefore := hSound.total s
  have hSelf := sys.setNode_self s n
  have hOther := sys.setNode_other s n
  apply Pair.Sound.of_node s
  all_goals dsimp only
  · rw [hSelf]
    exact hNode
  · rw [hOther]
    exact hSound.nodes s.other
  · rw [hSelf, hOther]
    exact hOut
  · rw [hSelf, hOther]
    exact hIn
  · exact hRequests
  · rw [hSelf, hOther]
    omega

/- A step that changes the account only, and has its lock if it does. -/
theorem Pair.Sound.setAccount (hSound : sys.Sound a) (s : Side)
    (requests : List Request) (hLock : (sys.node s).refreshment = none ∨ p = (sys.node s).account)
    (hSurplus : p.surplus = 0) (hRequests : ∀ r ∈ requests, r.Sound)
    (hTotal :
      p.getBalance + p.shadowReservedBalance -
          ((sys.node s).account.getBalance + (sys.node s).account.shadowReservedBalance) =
        (requests.map Request.margin).sum - (sys.requests.map Request.margin).sum) :
    Pair.Sound a { sys.setAccount s p with requests := requests } := by
  have hOut := hSound.links s
  have hIn := hSound.linksBack s
  refine hSound.setNode s requests ⟨hSurplus, fun x hX => ?_⟩
    { hOut with } { hIn with } hRequests ?_
  · rcases hLock with hFree | hSame
    · cases hFree.symm.trans hX
    · rw [hSame]
      exact (hSound.nodes s).asked x hX
  · unfold Node.standing
    change p.getBalance + p.shadowReservedBalance + (sys.node s).gained - (sys.node s).owed - _ = _
    omega

/- One request is replaced. -/
theorem sum_margin_replace {requests : List Request} (r' : Request)
    (hMem : r ∈ requests) :
    ((r' :: requests.erase r).map Request.margin).sum =
      (requests.map Request.margin).sum + (r'.margin - r.margin) := by
  have hSum := List.sum_map_erase Request.margin hMem
  rw [List.map_cons, List.sum_cons]
  omega

theorem sound_replace {requests : List Request} (hRequests : ∀ q ∈ requests, q.Sound)
    (hSound : r'.Sound) :
    ∀ q ∈ r' :: requests.erase r, q.Sound := by
  intro q hQ
  rcases List.mem_cons.mp hQ with rfl | hQ
  · exact hSound
  · exact hRequests q (List.mem_of_mem_erase hQ)

/- One request and the account of one of its nodes change. -/
theorem Pair.Sound.setRequest (hSound : sys.Sound a) (s : Side) (hMem : r ∈ sys.requests)
    (hLock : (sys.node s).refreshment = none ∨ p = (sys.node s).account)
    (hSurplus : p.surplus = 0) (hRequest : r'.Sound)
    (hTotal :
      p.getBalance + p.shadowReservedBalance =
        (sys.node s).account.getBalance + (sys.node s).account.shadowReservedBalance +
          (r'.margin - r.margin)) : Pair.Sound a ((sys.setAccount s p).setRequest r r') := by
  have hSum := sum_margin_replace r' hMem
  apply hSound.setAccount s (r' :: sys.requests.erase r) hLock hSurplus
  · exact sound_replace hSound.requests hRequest
  · omega

/- A request that was just sent has no margin. -/
theorem sound_addRequest (hRequests : ∀ r ∈ sys.requests, r.Sound) (price : Nat) :
    (∀ r ∈ (sys.addRequest s price o).requests, r.Sound) ∧
      ((sys.addRequest s price o).requests.map Request.margin).sum =
        (sys.requests.map Request.margin).sum := by
  unfold Pair.addRequest
  split
  · refine ⟨fun r hR => ?_, ?_⟩
    · rcases List.mem_cons.mp hR with rfl | hR
      · exact ⟨trivial, nofun⟩
      · exact hRequests r hR
    · exact zero_add _
  · exact ⟨hRequests, rfl⟩

---- Kept By Every Step

section

variable {op : PairOp}

theorem Node.owed_nonneg (n : Node) : 0 ≤ n.owed := by
  unfold Node.owed
  cases n.handling with
  | none => exact le_refl 0
  | some handling =>
    cases handling with
    | computed => exact le_refl 0
    | acknowledged amount | stored amount => exact Int.natCast_nonneg amount

theorem Node.gained_of_free {n : Node} (hFree : n.refreshment = none) : n.gained = 0 := by
  unfold Node.gained
  rw [hFree]
  rfl

theorem Node.gained_of_stage {n : Node} (hAsked : n.refreshment = some x) :
    n.gained = x.acknowledged := by
  unfold Node.gained
  rw [hAsked]
  rfl

theorem Pair.Sound.margin_nonneg (hSound : sys.Sound a) :
    0 ≤ (sys.requests.map Request.margin).sum := by
  apply List.sum_nonneg
  intro margin hMem
  rcases List.mem_map.mp hMem with ⟨r, hR, rfl⟩
  exact (hSound.requests r hR).margin_nonneg

/-
  The debt that the payer expects its peer to see is debt that the peer sees: the account of the
  payer is locked, and the account of the peer is not.
-/
theorem Pair.Sound.allowance_le (hSound : sys.Sound a) (hAsked : (sys.node s).refreshment = some x)
    (hStage : x.stage = .asked)
    (hFree : (sys.node s.other).refreshment = none) :
    x.checkAllowance ≤ (sys.node s.other).account.peerDebt := by
  have hNode := hSound.nodes s
  have hShadow := (reserveRefresh_spec (hNode.asked x hAsked)).2
  have hLe := shadowBalance_le hNode.surplus hShadow
  have hTotal := hSound.total s
  have hMargin := hSound.margin_nonneg
  have hOwed := (sys.node s).owed_nonneg
  have hOwedOther := (sys.node s.other).owed_nonneg
  have hNothing : (sys.node s).gained = 0 := by
    rw [Node.gained_of_stage hAsked, Refreshment.acknowledged, hStage]
  have hNothingOther := Node.gained_of_free hFree
  unfold Node.standing at hTotal
  rw [peerDebt_eq]
  omega

/- A refreshment and its handler go on together. -/
theorem Pair.Sound.goOn (hSound : sys.Sound a) (hAsked : (sys.node s).refreshment = some x) (hOut :
      Linked (a s).refreshRate { sys.node s with refreshment := some { x with stage := stage } }
        { sys.node s.other with handling := some handling })
    (hTotal :
      Refreshment.acknowledged { x with stage := stage } - handling.due =
        x.acknowledged - (sys.node s.other).owed) :
    Pair.Sound a
      ((sys.setNode s { sys.node s with refreshment := some { x with stage := stage } }).setNode
        s.other { sys.node s.other with handling := some handling }) := by
  have hIn := hSound.linksBack s
  have hBefore := hSound.total s
  apply Pair.Sound.of_node s
  · rw [Pair.setNode_other_self, Pair.setNode_self]
    refine ⟨(hSound.nodes s).surplus, ?_⟩
    intro y hY
    cases hY
    exact (hSound.nodes s).asked x hAsked
  · rw [Pair.setNode_self]
    exact ⟨(hSound.nodes s.other).surplus, (hSound.nodes s.other).asked⟩
  · rw [Pair.setNode_other_self, Pair.setNode_self, Pair.setNode_self]
    exact hOut
  · rw [Pair.setNode_other_self, Pair.setNode_self, Pair.setNode_self]
    exact { hIn with }
  · exact hSound.requests
  · rw [Pair.setNode_other_self, Pair.setNode_self, Pair.setNode_self]
    unfold Node.standing at hBefore ⊢
    rw [Node.gained_of_stage hAsked] at hBefore
    change
      (sys.node s).account.getBalance + (sys.node s).account.shadowReservedBalance +
          Refreshment.acknowledged { x with stage := stage } - (sys.node s).owed +
        ((sys.node s.other).account.getBalance + (sys.node s.other).account.shadowReservedBalance +
          (sys.node s.other).gained - handling.due) = (sys.requests.map Request.margin).sum
    omega

/- A refreshment that is taken up. -/
theorem PairStep.sound_handle (hHonest : Honest a) (hStep : PairStep a .handle sys sys')
    (hSound : sys.Sound a) : sys'.Sound a := by
  cases hStep with
  | @handle _ s currentTime x paymentAmount timestamp hAsked hStage hNext hFree hHandle =>
  -- the handler accepts what the payer will check
  have hEnough : x.Enough (a s).refreshRate (sys.node s).sent paymentAmount timestamp := by
    have hAllowance := hSound.allowance_le hAsked hStage hFree
    have hStamped := (hSound.links s).stamped
    have hSent : (sys.node s).lastSent = ((sys.node s).sent.getD .zero).timestamp := by
      unfold Node.lastSent
      rw [hAsked, Option.map_some, hStage]
    have hReceived :
        (sys.node s.other).lastReceived = ((sys.node s.other).received.getD .zero).timestamp := by
      unfold Node.lastReceived
      rw [hNext]
    have hAccepted := (handlePayment_ge hHandle).1
    rw [← hReceived, ← hStamped, hSent, hHonest.rate] at hAccepted
    unfold Refreshment.Enough
    omega
  apply hSound.goOn hAsked
  · refine ⟨?_, ?_, ?_⟩
    · have hStamped := (hSound.links s).stamped
      unfold Node.lastSent Node.lastReceived at hStamped ⊢
      rw [hAsked, hNext, Option.map_some, hStage] at hStamped
      exact hStamped
    · intro amount stamp hComputed
      cases hComputed
      exact ⟨_, rfl, rfl, hEnough⟩
    · intro y amount stamp hY hAcked
      cases hY
      cases hAcked
  · unfold Refreshment.acknowledged Node.owed
    rw [hStage, hNext]
    rfl

/- The acknowledgement is counted at both nodes. -/
theorem PairStep.sound_acknowledge (hStep : PairStep a .acknowledge sys sys')
    (hSound : sys.Sound a) : sys'.Sound a := by
  cases hStep with
  | acknowledge _ s hAsked hStage hHandling =>
  apply hSound.goOn hAsked
  · refine ⟨rfl, nofun, ?_⟩
    intro y amount stamp hY hAcked
    cases hY
    cases hAcked
    rcases (hSound.links s).computed _ _ hHandling with ⟨y, hY, -, hEnough⟩
    cases hAsked.symm.trans hY
    exact hEnough
  · unfold Refreshment.acknowledged Node.owed
    rw [hStage, hHandling]
    exact sub_self _

/- A refreshment is processed, with the rest of `Reserve`. -/
theorem PairStep.sound_paid (hHonest : Honest a) (hStep : PairStep a .paid sys sys')
    (hSound : sys.Sound a) : sys'.Sound a := by
  cases hStep with
  | @paid _ s checkTime x acceptedAmount timestamp last hAsked hStage hCheck =>
  have hOut := hSound.links s
  have hIn := hSound.linksBack s
  rcases sound_addRequest hSound.requests x.price with
    ⟨hRequests, hMargin⟩
  rcases reserve_standing (hHonest.cheques s) x.price x.now (some (acceptedAmount, checkTime))
      (sys.node s).account with ⟨hSurplus, hStanding⟩
  rw [(hSound.nodes s).asked x hAsked] at hStanding
  apply hSound.setNode s _ _ _ _ hRequests
  · -- what the acknowledgement has promised is added now
    rw [hMargin, sub_self]
    have hGained : (sys.node s).gained = acceptedAmount := by
      rw [Node.gained_of_stage hAsked, Refreshment.acknowledged, hStage]
    unfold Node.standing
    change _ + 0 - (sys.node s).owed - _ = 0
    change _ = _ + (acceptedAmount : Int) at hStanding
    dsimp only
    omega
  · exact ⟨hSurplus.trans (hSound.nodes s).surplus, nofun⟩
  · refine ⟨?_, ?_, nofun⟩
    · have hStamped := hOut.stamped
      unfold Node.lastSent at hStamped ⊢
      rw [hAsked, Option.map_some, hStage] at hStamped
      exact (timestamp_of_checkAck hCheck).trans hStamped
    · intro amount stamp hComputed
      rcases hOut.computed amount stamp hComputed with ⟨y, hY, hTaken, -⟩
      cases hAsked.symm.trans hY
      cases hStage.symm.trans hTaken
  · exact { hIn with }

theorem Pair.setAccount_self (sys : Pair) : sys.setAccount s (sys.node s).account = sys := by
  unfold Pair.setAccount Pair.setNode
  rw [Function.update_eq_self]

/- Every step but a failed settlement. -/
theorem PairStep.sound (hHonest : Honest a) (hStep : PairStep a op sys sys') (hOp : op ≠ .failed)
    (hSound : sys.Sound a) : sys'.Sound a := by
  have hTaken := hStep
  cases hStep with
  | reserve _ s price now hFree hRefresh =>
    rcases sound_addRequest hSound.requests price with ⟨hRequests, hMargin⟩
    rcases reserve_standing (hHonest.cheques s) price now none (sys.node s).account with
      ⟨hSurplus, hStanding⟩
    rw [hRefresh] at hStanding
    change _ = _ + 0 at hStanding
    apply hSound.setAccount s _ (Or.inl hFree) (hSurplus.trans (hSound.nodes s).surplus) hRequests
    omega
  | refresh _ s price now currentTime hFree hRefresh hStart =>
    have hOut := hSound.links s
    have hIn := hSound.linksBack s
    apply hSound.setNode s sys.requests _ _ _ hSound.requests
    · unfold Node.standing
      rw [Node.gained_of_free hFree]
      exact (sub_self _).trans (sub_self _).symm
    · refine ⟨(hSound.nodes s).surplus, fun y hY => ?_⟩
      cases hY
      exact hRefresh
    · refine ⟨?_, ?_, ?_⟩
      · have hStamped := hOut.stamped
        unfold Node.lastSent at hStamped ⊢
        rw [hFree] at hStamped
        exact hStamped
      · intro amount stamp hComputed
        rcases hOut.computed amount stamp hComputed with ⟨y, hY, -⟩
        cases hFree.symm.trans hY
      · intro y amount stamp hY hAcked
        cases hY
        cases hAcked
    · exact { hIn with }
  | handle => exact hTaken.sound_handle hHonest hSound
  | acknowledge => exact hTaken.sound_acknowledge hSound
  | store _ s hHandling =>
    have hOut := hSound.links s
    have hIn := hSound.linksBack s
    apply hSound.setNode s sys.requests _ _ _ hSound.requests
    · unfold Node.standing Node.owed
      rw [hHandling]
      exact (sub_self _).trans (sub_self _).symm
    · exact ⟨(hSound.nodes s).surplus, (hSound.nodes s).asked⟩
    · exact { hOut with }
    · refine ⟨?_, nofun, hIn.acked⟩
      have hStamped := hIn.stamped
      unfold Node.lastReceived at hStamped ⊢
      rw [hHandling] at hStamped
      exact hStamped
  | notifyRefreshmentReceived _ s hHandling hFree =>
    have hOut := hSound.links s
    have hIn := hSound.linksBack s
    apply hSound.setNode s sys.requests _ _ _ hSound.requests
    · rw [sub_self]
      unfold Node.standing Node.owed
      rw [hHandling]
      change (_ - _ + (sys.node s).account.shadowReservedBalance
        + (sys.node s).gained - 0) - (_ + _ + _ - _) = 0
      dsimp only [Option.map_some, Option.getD_some, Handling.due]
      omega
    · refine ⟨(hSound.nodes s).surplus, fun y hY => ?_⟩
      cases hFree.symm.trans hY
    · exact { hOut with }
    · refine ⟨?_, nofun, hIn.acked⟩
      have hStamped := hIn.stamped
      unfold Node.lastReceived at hStamped ⊢
      rw [hHandling] at hStamped
      exact hStamped
  | paid => exact hTaken.sound_paid hHonest hSound
  | payFailed | handlerFailed => exact absurd rfl hOp
  | @credit _ r originated hMem hOpen hHeld hResponse hFree =>
    have hRequest := hSound.requests r hMem
    rcases credit_spec (sys.node r.requester).account r.price originated with
      ⟨originatedBalance, hEq, -⟩
    rw [hEq]
    apply hSound.setRequest r.requester hMem (Or.inl hFree)
    · exact (hSound.nodes r.requester).surplus
    · exact ⟨hRequest.serving, fun _ => hResponse⟩
    · unfold Request.margin
      rw [hOpen]
      change _ - (r.price : Int) + (sys.node r.requester).account.shadowReservedBalance =
        _ + (r.charged - r.price - (r.charged - 0))
      omega
  | @release _ r hMem hHeld hFree =>
    have hRequest := hSound.requests r hMem
    apply hSound.setRequest r.requester hMem (Or.inl hFree)
    · exact (hSound.nodes r.requester).surplus
    · exact ⟨hRequest.serving, hRequest.credited⟩
    · change _ = _ + (r.margin - r.margin)
      rw [sub_self, add_zero]
      rfl
  | @prepareDebit _ r p action hMem hServing hFree hPrepare =>
    have hRequest := hSound.requests r hMem
    have hNot : r.credited = false := by
      apply hRequest.not_credited
      rw [hServing]
      exact id
    unfold PeerAccount.prepareDebit at hPrepare
    split at hPrepare
    · cases hPrepare
    · cases hPrepare
      apply hSound.setRequest r.requester.other hMem (Or.inl hFree)
      · exact (hSound.nodes r.requester.other).surplus
      · refine ⟨rfl, fun hCredited => ?_⟩
        cases hNot.symm.trans hCredited
      · unfold Request.margin Request.charged
        rw [hServing, hNot]
        change (sys.node r.requester.other).account.getBalance + (_ + (r.price : Int)) =
          _ + _ + ((r.price : Int) - 0 - (0 - 0))
        omega
  | @write _ r action hMem hServing =>
    have hRequest := hSound.requests r hMem
    have hAction := hRequest.serving
    rw [hServing] at hAction
    rw [← sys.setAccount_self]
    apply hSound.setRequest r.requester hMem (Or.inr rfl)
    · exact (hSound.nodes r.requester).surplus
    · exact ⟨hAction, fun _ => trivial⟩
    · unfold Request.margin Request.charged
      rw [hServing]
      dsimp only
      omega
  | @apply _ r action hMem hServing hFree =>
    have hRequest := hSound.requests r hMem
    have hAction := hRequest.serving
    rw [hServing] at hAction
    cases hAction
    have hSurplus := (hSound.nodes r.requester.other).surplus
    rcases apply_without_surplus (a r.requester.other) ⟨r.price, false⟩ hSurplus with
      ⟨originated, hApplied, hAccount⟩
    rw [hApplied, hAccount]
    apply hSound.setRequest r.requester.other hMem (Or.inl hFree)
    · exact hSurplus
    · exact ⟨rfl, fun _ => trivial⟩
    · unfold Request.margin Request.charged
      rw [hServing]
      change _ + (r.price : Int) + (_ - (r.price : Int)) = _
      dsimp only
      omega
  | @cleanup _ r action hMem hServing hFree =>
    have hRequest := hSound.requests r hMem
    have hAction := hRequest.serving
    have hSurplus := (hSound.nodes r.requester.other).surplus
    rcases hServing with hServing | hServing
    · -- the write has failed, so nothing was credited
      have hNot : r.credited = false := by
        apply hRequest.not_credited
        rw [hServing]
        exact id
      rw [hServing] at hAction
      cases hAction
      apply hSound.setRequest r.requester.other hMem (Or.inl (hFree rfl))
      · exact hSurplus
      · refine ⟨trivial, fun hCredited => ?_⟩
        cases hNot.symm.trans hCredited
      · unfold Request.margin Request.charged
        rw [hServing, hNot]
        change (sys.node r.requester.other).account.getBalance + (_ - (r.price : Int)) =
          _ + _ + (0 - 0 - ((r.price : Int) - 0))
        omega
    · rw [hServing] at hAction
      cases hAction
      apply hSound.setRequest r.requester.other hMem (Or.inr rfl)
      · exact hSurplus
      · exact ⟨trivial, fun _ => rfl⟩
      · unfold Request.margin Request.charged
        rw [hServing]
        change _ = _ + _ + ((r.price : Int) - _ - (_ - _))
        dsimp only
        omega
  | notifyPaymentThreshold _ s paymentThreshold hFree =>
    apply hSound.setAccount s sys.requests (Or.inl hFree)
    · exact (hSound.nodes s).surplus
    · exact hSound.requests
    · exact (sub_self _).trans (sub_self _).symm

end

---- Agreement

/- Two nodes that have just connected. -/
def Pair.start (account : Side → PeerAccount)
    (sent received : Side → Option LastPayment) : Pair where
  node s :=
    { account := (account s).connect
      refreshment := none
      handling := none
      sent := sent s
      received := received s }
  requests := []

/- All settlements before were seen by both nodes. -/
def Stamped (sent received : Side → Option LastPayment) : Prop :=
  ∀ s, ((sent s).getD .zero).timestamp = ((received s.other).getD .zero).timestamp

theorem start_sound (account : Side → PeerAccount)
    (hStamped : Stamped sent received) : (Pair.start account sent received).Sound a where
  nodes := fun _ => ⟨rfl, nofun⟩
  links := fun s => ⟨hStamped s, nofun, nofun⟩
  requests := nofun
  total := fun _ => rfl

/-
  As long as no settlement has failed, the shadow balance with which a node has started a
  refreshment is at most the debt that its peer computes when it handles the refreshment, and the
  acknowledgement is not rejected as too low.
-/
theorem refreshments_agree (hHonest : Honest a) {account : Side → PeerAccount}
    {sent received : Side → Option LastPayment} (hStamped : Stamped sent received)
    (hReach : Reach (PairStep a) (fun op _ => op ≠ .failed) (.start account sent received) sys)
    (s : Side) {x : Refreshment} (hAsked : (sys.node s).refreshment = some x) :
    (sys.node s).account.shadowBalance = .ok x.checkAllowance ∧
      (x.stage = .asked →
        (sys.node s.other).refreshment = none →
          x.checkAllowance ≤ (sys.node s.other).account.peerDebt) ∧
      ∀ acceptedAmount timestamp,
        x.stage = .acked acceptedAmount timestamp →
          ∀ checkTime,
            checkAck (a s).refreshRate ((sys.node s).sent.getD .zero) x.amount
                x.checkAllowance checkTime acceptedAmount timestamp ≠ .error .acceptedLower := by
  have hSound : sys.Sound a :=
    hReach.invariant (fun sys => sys.Sound a) (start_sound account hStamped)
      (fun _ _ _ hBefore hOp hStep => hStep.sound hHonest hOp hBefore)
  refine ⟨?_, ?_, ?_⟩
  · exact (reserveRefresh_spec ((hSound.nodes s).asked x hAsked)).2
  · intro hStage hFree
    exact hSound.allowance_le hAsked hStage hFree
  · intro acceptedAmount timestamp hStage checkTime
    apply checkAck_not_lower checkTime
    exact (hSound.links s).acked x acceptedAmount timestamp hAsked hStage

/- Nodes without cheques. -/
def samplePair : Side → Accounting :=
  fun _ =>
    { paymentThreshold := 100
      paymentTolerance := 20
      earlyPayment := 10
      refreshRate := 5
      payFunction := false }

/- A request of 60 is served and debited, and the next one needs a refreshment. -/
theorem refreshments_agree_sixty :
    Honest samplePair ∧ Stamped (fun _ => none) (fun _ => none) ∧
      ∃ (sys : Pair) (x : Refreshment),
        (sys.node .left).refreshment = some x ∧ x.checkAllowance = 60 ∧
          (sys.node .right).account.peerDebt = 60 ∧
          x.checkAllowance ≤ (sys.node .right).account.peerDebt := by
  have hHonest : Honest samplePair := ⟨fun _ => rfl, fun _ => rfl⟩
  have hStamped : Stamped (fun _ => none) (fun _ => none) := fun _ => rfl
  have hStart :
      Reach (PairStep samplePair) (fun op _ => op ≠ .failed)
        (.start (fun s => (samplePair s).newPeer) (fun _ => none) (fun _ => none))
        (.start (fun s => (samplePair s).newPeer) (fun _ => none) (fun _ => none)) := .start
  have hReserve :=
    Reach.step PairOp.reserve hStart nofun (.reserve _ .left 60 0 rfl (by decide +kernel))
  have hPrepare :=
    Reach.step PairOp.prepareDebit hReserve nofun
      (.prepareDebit _ (r := ⟨.left, 60, false, false, .waiting⟩) (by decide +kernel) rfl rfl
        (prepareDebit_connected rfl 60))
  have hWrite :=
    Reach.step PairOp.write hPrepare nofun
      (.write _ (r := ⟨.left, 60, false, false, .prepared ⟨60, false⟩⟩) (by decide +kernel) rfl)
  have hCredit :=
    Reach.step PairOp.credit hWrite nofun
      (.credit _ true (r := ⟨.left, 60, false, false, .written ⟨60, false⟩⟩)
        (by decide +kernel) rfl rfl trivial rfl)
  have hApply :=
    Reach.step PairOp.apply hCredit nofun
      (.apply _ (r := ⟨.left, 60, true, false, .written ⟨60, false⟩⟩) (by decide +kernel) rfl rfl)
  have hRefresh :=
    Reach.step PairOp.refresh hApply nofun
      (.refresh _ .left 40 100 100 rfl (show _ = some (60, 60) by decide +kernel)
        (show _ = Except.ok LastPayment.zero by rfl))
  have hAgree := refreshments_agree hHonest hStamped hRefresh .left rfl
  refine ⟨hHonest, hStamped, _, _, ?_, ?_, ?_, hAgree.2.1 rfl rfl⟩
  · rfl
  · rfl
  · decide +kernel

end Sana.Settlement
