import Sana.Program.Reach

/-
  The account of a peer.

  Three balances are stored, and the reserved amounts are kept in memory.  All functions but the
  constructor run under the lock of the account.

  What a peer owes is what it was debited and was paid by us, less what it was credited and has
  paid.  The part of our debt that we have caused ourselves is paid by cheques, and must not be more
  than the debt.

  Key definitions include:
    * `PeerAccount`
    * `Outcome`
-/

---- Accounts

namespace Sana.Accounts

inductive AccountingErr where
  /- "connection not initialized yet" -/
  | notConnected
  /- `ErrOverdraft`: "attempted overdraft" -/
  | overdraft
  /- `ErrDisconnectThresholdExceeded` -/
  | disconnectThresholdExceeded
  /- `ErrPeerNoBalance`: "no balance for peer" -/
  | peerNoBalance
  /- `ErrInvalidValue`: "invalid value" -/
  | invalidValue
  /- "sanity check failed for partial debit ..." -/
  | sanityCheck
  /- "refresh failure: ..." -/
  | refreshFailure
  /- "failed to settle with peer ..." -/
  | failedToSettle (err : AccountingErr)
  deriving DecidableEq, Repr

/- The stored balances and the `accountingPeer` of a peer. -/
structure PeerAccount where
  balance : Option Int
  originatedBalance : Option Int
  surplusBalance : Option Int
  reservedBalance : Int
  shadowReservedBalance : Int
  ghostBalance : Int
  paymentThreshold : Int
  refreshTimestamp : Int
  paymentOngoing : Bool
  lastSettlementFailureTimestamp : Int
  connected : Bool
  deriving DecidableEq, Repr

/- The options of the accounting of a node. -/
structure Accounting where
  paymentThreshold : Nat
  paymentTolerance : Nat
  earlyPayment : Int
  refreshRate : Nat
  /- Whether monetary settlement is enabled. -/
  payFunction : Bool
  deriving Repr

namespace Accounting

def disconnectLimit (a : Accounting) : Int :=
  a.paymentThreshold + a.paymentTolerance

/- A fifth of the refresh rate. -/
def minimumPayment (a : Accounting) : Int :=
  (a.refreshRate / 5 : Nat)

/- The account that `getAccountingPeer` makes. -/
def newPeer (a : Accounting) : PeerAccount where
  balance := none
  originatedBalance := none
  surplusBalance := none
  reservedBalance := 0
  shadowReservedBalance := 0
  ghostBalance := 0
  paymentThreshold := a.paymentThreshold
  refreshTimestamp := 0
  paymentOngoing := false
  lastSettlementFailureTimestamp := 0
  connected := false

end Accounting

/-
  What a call leaves: the account, the amount of a refreshment that the peer has accepted, the
  amount that was given to the pay function, and the error that was returned.
-/
structure Outcome where
  account : PeerAccount
  refreshed : Nat := 0
  payment : Option Int := none
  err : Option AccountingErr := none
  deriving Repr

---- Balances

namespace PeerAccount

/- `Balance`, where a missing balance is not an error. -/
def getBalance (p : PeerAccount) : Int :=
  p.balance.getD 0

/- `OriginatedBalance`, where a missing one is no error. -/
def getOriginated (p : PeerAccount) : Int :=
  p.originatedBalance.getD 0

def getSurplus (p : PeerAccount) : Except AccountingErr Int :=
  match p.surplusBalance with
  | none => .ok 0
  | some surplus =>
    if surplus < 0 then .error .invalidValue
    else .ok surplus

def compensatedBalance (p : PeerAccount) : Except AccountingErr Int := do
  let surplus ← p.getSurplus
  if surplus = 0 ∧ p.balance = none then .error .peerNoBalance
  else .ok (p.getBalance - surplus)

/- The positive part of the negated balance. -/
def debt (p : PeerAccount) : Int :=
  if -p.getBalance < 0 then 0 else -p.getBalance

def getIncreasedExpectedDebt (p : PeerAccount) (price : Nat) : Except AccountingErr Int := do
  let nextReserved := p.reservedBalance + price
  let expectedDebt := p.debt + nextReserved
  let additionalDebt ← p.getSurplus
  .ok (expectedDebt + additionalDebt)

/- `PeerDebt` -/
def peerDebt (p : PeerAccount) : Int :=
  if p.getBalance + p.shadowReservedBalance < 0 then 0
  else p.getBalance + p.shadowReservedBalance

def shadowBalance (p : PeerAccount) : Except AccountingErr Int :=
  match p.balance with
  | none => .ok 0
  | some balance =>
    if 0 ≤ balance then .ok 0
    else do
      let surplusBalance ← p.getSurplus
      let debt := -balance + surplusBalance
      if debt < p.shadowReservedBalance then .ok 0
      else .ok (-balance - p.shadowReservedBalance)

def decreaseOriginatedBalanceTo (p : PeerAccount) (limit : Int) : PeerAccount :=
  let toSet := if 0 < limit then 0 else limit
  if p.getOriginated < toSet then { p with originatedBalance := some toSet }
  else p

def decreaseOriginatedBalanceBy (p : PeerAccount) (amount : Int) : PeerAccount :=
  { p with originatedBalance := some (p.getOriginated + amount) }

---- Settlement

/-
  What `settle` asks the refresh function for: the amount and the shadow balance, if there is debt
  and time has passed.
-/
def refreshRequest (p : PeerAccount) (now : Int) : Except AccountingErr (Option (Int × Int)) := do
  let timeElapsed := now - p.refreshTimestamp
  let compensated ← p.compensatedBalance
  let paymentAmount := -compensated
  if 0 < paymentAmount ∧ 0 < timeElapsed then
    let shadow ← p.shadowBalance
    .ok (some (paymentAmount, shadow))
  else .ok none

/- The account when a refreshment was accepted. -/
def refreshed (p : PeerAccount) (acceptedAmount : Nat) (timestamp : Int) : PeerAccount :=
  let balance := p.getBalance + acceptedAmount
  let p :=
    { p with
      refreshTimestamp := timestamp
      balance := some balance }
  p.decreaseOriginatedBalanceTo balance

end PeerAccount

namespace Accounting

def failedSettlementInterval : Int := 10

/- The second half of `settle`: monetary settlement. -/
def startPayment (a : Accounting) (now : Int) (refreshed : Nat) (p : PeerAccount) : Outcome :=
  if a.payFunction = true ∧ p.paymentOngoing = false ∧
      failedSettlementInterval < now - p.lastSettlementFailureTimestamp ∧
      a.minimumPayment ≤ -p.getOriginated then
    { account :=
        { p with
          paymentOngoing := true
          shadowReservedBalance := p.shadowReservedBalance + -p.getOriginated }
      refreshed := refreshed
      payment := some (-p.getOriginated) }
  else { account := p, refreshed := refreshed }

/- `settle`, when the refresh function returns an accepted amount and a timestamp, or fails. -/
def settle (a : Accounting) (now : Int) (refresh : Option (Nat × Int))
    (p : PeerAccount) : Outcome :=
  match p.refreshRequest now with
  | .error err => { account := p, err := some err }
  | .ok none => a.startPayment now 0 p
  | .ok (some _) =>
    match refresh with
    | none => { account := p, err := some .refreshFailure }
    | some (acceptedAmount, timestamp) =>
      a.startPayment now acceptedAmount (p.refreshed acceptedAmount timestamp)

/- The last part of `Reserve`, with the expected debt. -/
def finishReserve (price : Nat) (debt : Int) (o : Outcome) : Outcome :=
  if o.account.paymentThreshold < debt then { o with err := some .overdraft }
  else
    { o with
      account := { o.account with reservedBalance := o.account.reservedBalance + price } }

def reserve (a : Accounting) (price : Nat) (now : Int) (refresh : Option (Nat × Int))
    (p : PeerAccount) : Outcome :=
  if p.connected = false then { account := p, err := some .notConnected }
  else
    let threshold := if a.earlyPayment < p.paymentThreshold then
        p.paymentThreshold - a.earlyPayment
      else 0
    match p.getIncreasedExpectedDebt price with
    | .error err => { account := p, err := some err }
    | .ok debt =>
      if threshold ≤ debt - p.shadowReservedBalance ∧ p.getBalance < 0 then
        let o := a.settle now refresh p
        match o.err with
        | some err => { o with err := some (.failedToSettle err) }
        | none =>
          match o.account.getIncreasedExpectedDebt price with
          | .error err => { o with err := some err }
          | .ok debt => finishReserve price debt o
      else finishReserve price debt { account := p }

end Accounting

namespace PeerAccount

def release (p : PeerAccount) (price : Nat) : PeerAccount :=
  { p with
    reservedBalance :=
      if p.reservedBalance < price then 0
      else p.reservedBalance - price }

def credit (p : PeerAccount) (price : Nat) (originated : Bool) : PeerAccount :=
  let nextBalance := p.getBalance - price
  let p := { p with balance := some nextBalance }
  if originated = false then p
  else
    let nextOriginBalance := p.getOriginated - price
    let limit := if 0 < nextBalance then 0 else nextBalance
    { p with
      originatedBalance :=
        some (if nextOriginBalance < limit then limit
          else nextOriginBalance) }

/- `NotifyPaymentSent`, with the time at which it failed if it did. -/
def notifyPaymentSent (p : PeerAccount) (amount : Int) (failure : Option Int) : PeerAccount :=
  let p :=
    { p with
      paymentOngoing := false
      shadowReservedBalance := p.shadowReservedBalance - amount }
  match failure with
  | some now => { p with lastSettlementFailureTimestamp := now }
  | none =>
    let p := { p with balance := some (p.getBalance + amount) }
    p.decreaseOriginatedBalanceBy amount

def notifyPaymentThreshold (p : PeerAccount) (paymentThreshold : Nat) : PeerAccount :=
  { p with paymentThreshold := paymentThreshold }

def notifyPaymentReceived (p : PeerAccount) (amount : Nat) : Outcome :=
  let currentBalance := p.getBalance
  if currentBalance ≤ 0 then
    match p.getSurplus with
    | .error err => { account := p, err := some err }
    | .ok surplus =>
      { account :=
          { p with surplusBalance := some (surplus + amount) } }
  else
    let newBalance := currentBalance - amount
    let p' := { p with balance := some (if newBalance < 0 then 0 else newBalance) }
    if newBalance < 0 then
      let surplusGrowth := amount - currentBalance
      match p'.getSurplus with
      | .error err => { account := p', err := some err }
      | .ok surplus =>
        { account :=
            { p' with surplusBalance := some (surplus + surplusGrowth) } }
    else { account := p' }

def notifyRefreshmentReceived (p : PeerAccount) (amount : Nat) : PeerAccount :=
  { p with balance := some (p.getBalance - amount) }

def connect (p : PeerAccount) : PeerAccount :=
  { p with
    connected := true
    shadowReservedBalance := 0
    ghostBalance := 0
    reservedBalance := 0
    balance := some 0
    surplusBalance := some 0 }

def disconnect (p : PeerAccount) : PeerAccount :=
  { p with connected := false }

end PeerAccount

---- Debits

structure DebitAction where
  price : Nat
  applied : Bool
  deriving DecidableEq, Repr

namespace PeerAccount

def prepareDebit (p : PeerAccount) (price : Nat) :
    Except AccountingErr (PeerAccount × DebitAction) :=
  if p.connected = false then .error .notConnected
  else
    .ok
      ({ p with
          shadowReservedBalance := p.shadowReservedBalance + price },
        { price := price, applied := false })

/- The last part of `increaseBalance`, without surplus. -/
def debitBalance (p : PeerAccount) (cost : Int) : PeerAccount × Except AccountingErr Int :=
  let nextBalance := p.getBalance + cost
  let p := { p with balance := some nextBalance }
  (p.decreaseOriginatedBalanceTo nextBalance, .ok nextBalance)

def increaseBalance (p : PeerAccount) (price : Nat) : PeerAccount × Except AccountingErr Int :=
  match p.getSurplus with
  | .error err => (p, .error err)
  | .ok surplusBalance =>
    if 0 < surplusBalance then
      let newSurplusBalance := surplusBalance - price
      if 0 ≤ newSurplusBalance then
        let p := { p with surplusBalance := some newSurplusBalance }
        match p.balance with
        | none => (p, .error .peerNoBalance)
        | some balance => (p, .ok balance)
      else
        let debitIncrease := price - surplusBalance
        if debitIncrease ≤ 0 then (p, .error .sanityCheck)
        else debitBalance { p with surplusBalance := some 0 } debitIncrease
    else debitBalance p price

end PeerAccount

namespace DebitAction

def apply (a : Accounting) (d : DebitAction) (p : PeerAccount) : DebitAction × Outcome :=
  match p.increaseBalance d.price with
  | (p, .error err) => (d, { account := p, err := some err })
  | (p, .ok nextBalance) =>
    ({ d with applied := true },
      { account :=
          { p with shadowReservedBalance := p.shadowReservedBalance - d.price }
        err :=
          if a.disconnectLimit ≤ nextBalance then some .disconnectThresholdExceeded
          else none })

/- Debits that were not applied are counted as ghosts. -/
def cleanup (d : DebitAction) (p : PeerAccount) : PeerAccount :=
  if d.applied = true then p
  else
    { p with
      shadowReservedBalance := p.shadowReservedBalance - d.price
      ghostBalance := p.ghostBalance + d.price }

end DebitAction

---- Originated Balance

variable {a : Accounting} {p : PeerAccount}

namespace PeerAccount

/- The surplus balance, which is zero when none is stored. -/
def surplus (p : PeerAccount) : Int :=
  p.surplusBalance.getD 0

theorem getSurplus_eq (hSurplus : 0 ≤ p.surplus) : p.getSurplus = .ok p.surplus := by
  unfold PeerAccount.getSurplus
  unfold PeerAccount.surplus at hSurplus ⊢
  cases hStored : p.surplusBalance with
  | none => rfl
  | some surplus =>
    rw [hStored] at hSurplus
    exact if_neg (Int.not_lt.mpr hSurplus)

/- Only a surplus that is not negative can be read. -/
theorem surplus_of_getSurplus {surplus : Int}
    (hGet : p.getSurplus = .ok surplus) : surplus = p.surplus ∧ 0 ≤ p.surplus := by
  unfold PeerAccount.getSurplus at hGet
  unfold PeerAccount.surplus
  cases hStored : p.surplusBalance with
  | none =>
    rw [hStored] at hGet
    exact ⟨(Except.ok.inj hGet).symm, le_refl 0⟩
  | some stored =>
    rw [hStored] at hGet
    dsimp only at hGet
    split at hGet
    · cases hGet
    · next hNot =>
        exact ⟨(Except.ok.inj hGet).symm, Int.not_lt.mp hNot⟩

/- The originated balance debt is at most the whole debt. -/
def Originates (p : PeerAccount) : Prop :=
  min p.getBalance 0 ≤ p.getOriginated

/- Lowering the originated debt to a limit changes nothing else. -/
theorem exists_decreaseTo_eq (p : PeerAccount) (limit : Int) :
    ∃ originated,
      p.decreaseOriginatedBalanceTo limit = { p with originatedBalance := originated } ∧
        min limit 0 ≤ originated.getD 0 := by
  unfold decreaseOriginatedBalanceTo
  by_cases hLess : p.getOriginated < if 0 < limit then 0 else limit
  · rw [if_pos hLess]
    refine ⟨_, rfl, ?_⟩
    rw [Option.getD_some]
    split <;> omega
  · rw [if_neg hLess]
    refine ⟨p.originatedBalance, rfl, ?_⟩
    unfold getOriginated at hLess
    split at hLess <;> omega

end PeerAccount

---- Settlement

/-
  A settlement adds the accepted amount to the balance, and the amount of a payment that it starts
  to the shadow reserve.
-/
structure Settled (p : PeerAccount) (o : Outcome) : Prop where
  balance : o.account.getBalance = p.getBalance + o.refreshed
  stored : p.balance ≠ none → o.account.balance ≠ none
  surplus : o.account.surplusBalance = p.surplusBalance
  reserved : o.account.reservedBalance = p.reservedBalance
  shadow : o.account.shadowReservedBalance = p.shadowReservedBalance + o.payment.getD 0
  threshold : o.account.paymentThreshold = p.paymentThreshold
  connected : o.account.connected = p.connected
  originates : p.Originates → o.account.Originates
  ongoing : o.account.paymentOngoing = (p.paymentOngoing || o.payment.isSome)
  payment :
    ∀ amount, o.payment = some amount →
      p.paymentOngoing = false ∧ 0 ≤ amount ∧ amount = -o.account.getOriginated

/- A call that leaves the account as it is. -/
theorem settled_unchanged (err : Option AccountingErr) :
    Settled p { account := p, err := err } where
  balance := (add_zero _).symm
  stored := id
  surplus := rfl
  reserved := rfl
  shadow := (add_zero _).symm
  threshold := rfl
  connected := rfl
  originates := id
  ongoing := (Bool.or_false _).symm
  payment := nofun

/- The refreshed account. -/
theorem settled_refreshed (acceptedAmount : Nat) (timestamp : Int) : Settled p
      { account := p.refreshed acceptedAmount timestamp
        refreshed := acceptedAmount } := by
  rcases PeerAccount.exists_decreaseTo_eq
      { p with
        refreshTimestamp := timestamp
        balance := some (p.getBalance + acceptedAmount) }
      (p.getBalance + acceptedAmount) with
    ⟨originated, hEq, hLe⟩
  unfold PeerAccount.refreshed
  rw [hEq]
  constructor
  · rfl
  · exact fun _ => nofun
  · rfl
  · rfl
  · exact (add_zero _).symm
  · rfl
  · rfl
  · exact fun _ => hLe
  · exact (Bool.or_false _).symm
  · exact nofun

/- Payments are started on top of a refreshment. -/
theorem settled_startPayment (hSettled : Settled p { account := q, refreshed := refreshed }) :
    Settled p (a.startPayment now refreshed q) := by
  unfold Accounting.startPayment
  split
  · next hPay =>
      rcases hPay with ⟨-, hIdle, -, hMinimum⟩
      have hNotNegative : 0 ≤ a.minimumPayment := Int.natCast_nonneg _
      have hShadow := hSettled.shadow
      have hOngoing := hSettled.ongoing
      rw [hIdle, Option.isSome_none, Bool.or_false] at hOngoing
      refine { hSettled with shadow := ?_, ongoing := (Bool.or_true _).symm, payment := ?_ }
      · rw [hShadow, Option.getD_none, Option.getD_some, add_zero]
      · intro amount hAmount
        cases hAmount
        exact ⟨hOngoing.symm, hNotNegative.trans hMinimum, rfl⟩
  · exact hSettled

theorem settle_spec (a : Accounting) (now : Int) (refresh : Option (Nat × Int)) (p : PeerAccount) :
    Settled p (a.settle now refresh p) := by
  unfold Accounting.settle
  split
  · exact settled_unchanged _
  · exact settled_startPayment (settled_unchanged none)
  · split
    · exact settled_unchanged _
    · next acceptedAmount timestamp =>
        exact settled_startPayment (settled_refreshed acceptedAmount timestamp)

/- The expected debt that `Reserve` compares. -/
theorem expectedDebt_eq (hDebt : p.getIncreasedExpectedDebt price = .ok expected) :
    expected = max (-p.getBalance) 0 + (p.reservedBalance + price) + p.surplus ∧ 0 ≤ p.surplus := by
  unfold PeerAccount.getIncreasedExpectedDebt at hDebt
  cases hGet : p.getSurplus with
  | error err =>
    rw [hGet] at hDebt
    cases hDebt
  | ok surplus =>
    rw [hGet] at hDebt
    rcases PeerAccount.surplus_of_getSurplus hGet with ⟨rfl, hNotNegative⟩
    refine ⟨(Except.ok.inj hDebt).symm.trans ?_, hNotNegative⟩
    unfold PeerAccount.debt
    split <;> omega

/-
  An attempt to reserve a price: it fails, or the expected debt is within the threshold and the
  price is reserved.
-/
def Reserves (price : Nat) (o r : Outcome) : Prop :=
  r.payment = o.payment ∧ r.refreshed = o.refreshed ∧
    (r.err ≠ none ∧ r.account = o.account ∨
      r.err = none ∧ 0 ≤ o.account.surplus ∧
        max (-o.account.getBalance) 0 + (o.account.reservedBalance + price) +
            o.account.surplus ≤ o.account.paymentThreshold ∧ r.account =
          { o.account with reservedBalance := o.account.reservedBalance + price })

theorem finishReserve_spec (hOk : o.err = none)
    (hDebt : o.account.getIncreasedExpectedDebt price = .ok expected) :
    Reserves price o (Accounting.finishReserve price expected o) := by
  rcases expectedDebt_eq hDebt with ⟨rfl, hSurplus⟩
  unfold Accounting.finishReserve
  split
  · exact ⟨rfl, rfl, Or.inl ⟨nofun, rfl⟩⟩
  · next hNot =>
      exact ⟨rfl, rfl, Or.inr ⟨hOk, hSurplus, Int.not_lt.mp hNot, rfl⟩⟩

/- A reservation settles first, or not. -/
theorem reserve_spec (a : Accounting) (price : Nat) (now : Int) (refresh : Option (Nat × Int))
    (p : PeerAccount) : ∃ o, Settled p o ∧ Reserves price o (a.reserve price now refresh p) := by
  unfold Accounting.reserve
  by_cases hConnected : p.connected = false
  · rw [if_pos hConnected]
    exact ⟨_, settled_unchanged none, rfl, rfl, Or.inl ⟨nofun, rfl⟩⟩
  · rw [if_neg hConnected]
    dsimp only
    generalize (if a.earlyPayment < p.paymentThreshold then
      p.paymentThreshold - a.earlyPayment else 0) = threshold
    split
    · exact ⟨_, settled_unchanged none, rfl, rfl, Or.inl ⟨nofun, rfl⟩⟩
    · next debt hDebt =>
        split
        · refine ⟨_, settle_spec a now refresh p, ?_⟩
          split
          · exact ⟨rfl, rfl, Or.inl ⟨nofun, rfl⟩⟩
          · next hOk =>
              split
              · exact ⟨rfl, rfl, Or.inl ⟨nofun, rfl⟩⟩
              · next debt' hDebt' =>
                  exact finishReserve_spec hOk hDebt'
        · exact ⟨_, settled_unchanged none, finishReserve_spec rfl hDebt⟩

---- Debits

section

variable {p' : PeerAccount}

/- A debit is taken from the surplus first, and the rest is added to the balance. -/
structure Debited (p : PeerAccount) (price : Nat) (p' : PeerAccount) : Prop where
  compensated : p'.getBalance - p'.surplus = p.getBalance - p.surplus + price
  le_balance : p.getBalance ≤ p'.getBalance
  surplus : 0 ≤ p'.surplus
  stored : p'.balance ≠ none
  reserved : p'.reservedBalance = p.reservedBalance
  threshold : p'.paymentThreshold = p.paymentThreshold
  ongoing : p'.paymentOngoing = p.paymentOngoing
  connected : p'.connected = p.connected
  originates : p.Originates → p'.Originates

/- The part of a debit that the surplus does not cover. -/
theorem debitBalance_spec (p : PeerAccount) (cost : Int) : ∃ originated, p.debitBalance cost =
          ({ p with
              balance := some (p.getBalance + cost)
              originatedBalance := originated },
            .ok (p.getBalance + cost)) ∧
        min (p.getBalance + cost) 0 ≤ originated.getD 0 := by
  rcases PeerAccount.exists_decreaseTo_eq { p with balance := some (p.getBalance + cost) }
      (p.getBalance + cost) with ⟨originated, hEq, hLe⟩
  refine ⟨originated, ?_, hLe⟩
  unfold PeerAccount.debitBalance
  dsimp only
  rw [hEq]

/- With a stored balance and a valid surplus, debits do not fail. -/
theorem increaseBalance_spec (hStored : p.balance ≠ none) (hSurplus : 0 ≤ p.surplus) :
    ∃ p' nextBalance,
      p.increaseBalance price = (p', .ok nextBalance) ∧ Debited p price p' ∧
        p'.shadowReservedBalance = p.shadowReservedBalance := by
  unfold PeerAccount.increaseBalance
  rw [PeerAccount.getSurplus_eq hSurplus]
  dsimp only
  by_cases hPositive : 0 < p.surplus
  · rw [if_pos hPositive]
    by_cases hCovered : 0 ≤ p.surplus - price
    · rw [if_pos hCovered]
      rcases Option.ne_none_iff_exists'.mp hStored with ⟨balance, hBalance⟩
      have hValue : p.getBalance = balance := by
        unfold PeerAccount.getBalance
        rw [hBalance, Option.getD_some]
      rw [hBalance]
      refine ⟨_, balance, rfl, ?_, rfl⟩
      constructor
      · change balance - (p.surplus - price) = _
        omega
      · exact hValue.le
      · exact hCovered
      · exact nofun
      · rfl
      · rfl
      · rfl
      · rfl
      · intro hOriginates
        rw [← hValue]
        exact hOriginates
    · have hRest : ¬ (price : Int) - p.surplus ≤ 0 := by omega
      rcases debitBalance_spec { p with surplusBalance := some 0 } (price - p.surplus) with
        ⟨originated, hEq, hLe⟩
      rw [if_neg hCovered, if_neg hRest, hEq]
      refine ⟨_, _, rfl, ?_, rfl⟩
      constructor
      · change p.getBalance + (price - p.surplus) - 0 = _
        omega
      · change p.getBalance ≤ p.getBalance + (price - p.surplus)
        omega
      · exact le_refl 0
      · exact nofun
      · rfl
      · rfl
      · rfl
      · rfl
      · exact fun _ => hLe
  · rcases debitBalance_spec p price with ⟨originated, hEq, hLe⟩
    rw [if_neg hPositive, hEq]
    refine ⟨_, _, rfl, ?_, rfl⟩
    constructor
    · change p.getBalance + price - p.surplus = _
      omega
    · change p.getBalance ≤ p.getBalance + price
      omega
    · exact hSurplus
    · exact nofun
    · rfl
    · rfl
    · rfl
    · rfl
    · exact fun _ => hLe

/- Debits of connected peers are prepared. -/
theorem prepareDebit_connected (hConnected : p.connected = true) (price : Nat) :
    p.prepareDebit price = .ok
        ({ p with
            shadowReservedBalance := p.shadowReservedBalance + price },
          ⟨price, false⟩) := by
  apply if_neg
  rw [hConnected]
  exact nofun

/- An applied debit leaves the shadow reserve. -/
theorem apply_spec (a : Accounting) (d : DebitAction) (hStored : p.balance ≠ none)
    (hSurplus : 0 ≤ p.surplus) :
    (d.apply a p).1 = { d with applied := true } ∧ Debited p d.price (d.apply a p).2.account ∧
      (d.apply a p).2.account.shadowReservedBalance = p.shadowReservedBalance - d.price := by
  rcases increaseBalance_spec hStored hSurplus with
    ⟨p', nextBalance, hEq, hDebited, hShadow⟩
  unfold DebitAction.apply
  rw [hEq]
  refine ⟨rfl, ?_, congrArg (· - (d.price : Int)) hShadow⟩
  exact { hDebited with }

/- Without surplus the whole price is added. -/
theorem apply_without_surplus (a : Accounting) (d : DebitAction) (hSurplus : p.surplus = 0) :
    ∃ originated, (d.apply a p).1 = { d with applied := true } ∧ (d.apply a p).2.account =
          { p with
            balance := some (p.getBalance + d.price)
            originatedBalance := originated
            shadowReservedBalance :=
              p.shadowReservedBalance - d.price } := by
  rcases debitBalance_spec p d.price with ⟨originated, hEq, -⟩
  have hIncrease : p.increaseBalance d.price = p.debitBalance d.price := by
    unfold PeerAccount.increaseBalance
    rw [PeerAccount.getSurplus_eq hSurplus.ge, hSurplus]
    exact if_neg (lt_irrefl 0)
  unfold DebitAction.apply
  rw [hIncrease, hEq]
  exact ⟨originated, rfl, rfl⟩

end

---- Credits And Payments

/- A credit changes the balance and the originated balance. -/
theorem credit_spec (p : PeerAccount) (price : Nat) (originated : Bool) :
    ∃ originatedBalance, p.credit price originated =
          { p with
            balance := some (p.getBalance - price)
            originatedBalance := originatedBalance } ∧
        (p.Originates → min (p.getBalance - price) 0 ≤ originatedBalance.getD 0) := by
  unfold PeerAccount.credit
  split
  · refine ⟨p.originatedBalance, rfl, fun hOriginates => ?_⟩
    unfold PeerAccount.Originates PeerAccount.getOriginated at hOriginates
    omega
  · refine ⟨_, rfl, fun _ => ?_⟩
    rw [Option.getD_some]
    split <;> split <;> omega

/- A payment that was received reduces the balance to zero
   at most; the rest is added to the surplus. -/
structure Paid (p : PeerAccount) (amount : Nat) (o : Outcome) : Prop where
  err : o.err = none
  compensated : o.account.getBalance - o.account.surplus = p.getBalance - p.surplus - amount
  balance : min o.account.getBalance 0 = min p.getBalance 0
  surplus : 0 ≤ o.account.surplus
  stored : p.balance ≠ none → o.account.balance ≠ none
  originated : o.account.originatedBalance = p.originatedBalance
  reserved : o.account.reservedBalance = p.reservedBalance
  shadow : o.account.shadowReservedBalance = p.shadowReservedBalance
  ongoing : o.account.paymentOngoing = p.paymentOngoing
  connected : o.account.connected = p.connected

theorem notifyPaymentReceived_spec (hSurplus : 0 ≤ p.surplus) (amount : Nat) :
    Paid p amount (p.notifyPaymentReceived amount) := by
  unfold PeerAccount.notifyPaymentReceived
  by_cases hDebt : p.getBalance ≤ 0
  · rw [if_pos hDebt, PeerAccount.getSurplus_eq hSurplus]
    constructor
    · rfl
    · change p.getBalance - (p.surplus + amount) = _
      omega
    · rfl
    · change 0 ≤ p.surplus + (amount : Int)
      omega
    · exact id
    · rfl
    · rfl
    · rfl
    · rfl
    · rfl
  · rw [if_neg hDebt]
    by_cases hLess : p.getBalance - amount < 0
    · have hKept :
          0 ≤ ({ p with
            balance :=
              some (if p.getBalance - amount < 0 then 0
                else p.getBalance - amount) } :
              PeerAccount).surplus :=
        hSurplus
      rw [if_pos hLess, PeerAccount.getSurplus_eq hKept]
      constructor
      · rfl
      · change (if p.getBalance - (amount : Int) < 0 then 0
            else p.getBalance - amount) - (p.surplus + (amount - p.getBalance)) = _
        omega
      · change min (if p.getBalance - (amount : Int) < 0 then 0
            else p.getBalance - amount) 0 = _
        omega
      · change 0 ≤ p.surplus + ((amount : Int) - p.getBalance)
        omega
      · exact fun _ => nofun
      · rfl
      · rfl
      · rfl
      · rfl
      · rfl
    · rw [if_neg hLess]
      constructor
      · rfl
      · change (if p.getBalance - (amount : Int) < 0 then 0
            else p.getBalance - amount) - p.surplus = _
        omega
      · change min (if p.getBalance - (amount : Int) < 0 then 0
            else p.getBalance - amount) 0 = _
        omega
      · exact hSurplus
      · exact fun _ => nofun
      · rfl
      · rfl
      · rfl
      · rfl
      · rfl

/- What is asked for when debt is settled. -/
theorem refreshRequest_spec (hRequest : p.refreshRequest now = .ok (some (amount, shadow))) :
    p.compensatedBalance = .ok (-amount) ∧ 0 < amount ∧ p.shadowBalance = .ok shadow := by
  unfold PeerAccount.refreshRequest at hRequest
  cases hCompensated : p.compensatedBalance with
  | error err =>
    rw [hCompensated] at hRequest
    cases hRequest
  | ok compensated =>
    rw [hCompensated] at hRequest
    simp only [bind, Except.bind] at hRequest
    split at hRequest
    · next hDebt =>
        cases hShadow : p.shadowBalance with
        | error err =>
          rw [hShadow] at hRequest
          cases hRequest
        | ok value =>
          rw [hShadow] at hRequest
          cases hRequest
          exact ⟨by rw [neg_neg], hDebt.1, rfl⟩
    · cases hRequest

/- A shadow balance other than 0 is the debt less the shadow reserve. -/
theorem shadowBalance_cases (hSurplus : 0 ≤ p.surplus)
    (hShadow : p.shadowBalance = .ok shadow) :
    shadow = 0 ∨
      p.getBalance < 0 ∧ p.shadowReservedBalance ≤ p.surplus - p.getBalance ∧
        shadow = -p.getBalance - p.shadowReservedBalance := by
  unfold PeerAccount.shadowBalance at hShadow
  unfold PeerAccount.getBalance
  cases hBalance : p.balance with
  | none =>
    rw [hBalance] at hShadow
    cases hShadow
    exact Or.inl rfl
  | some balance =>
    simp only [hBalance, PeerAccount.getSurplus_eq hSurplus, bind, Except.bind] at hShadow
    split_ifs at hShadow with hCredit hCovered
    · cases hShadow
      exact Or.inl rfl
    · cases hShadow
      exact Or.inl rfl
    · cases hShadow
      rw [Option.getD_some]
      exact Or.inr ⟨by omega, by omega, rfl⟩

end Sana.Accounts

---- Calls

namespace Sana.Accounts

open Program

variable {a : Accounting} {l : Ledger}

/-
  An account with its prepared debits, and the sums of all applied debits, of all payments and
  refreshments sent, of all credits, and of all payments and refreshments received.
-/
structure Ledger where
  account : PeerAccount
  prepared : List DebitAction
  debits : Int
  sent : Int
  credits : Int
  received : Int

namespace Ledger

def start (account : PeerAccount) : Ledger where
  account := account
  prepared := []
  debits := 0
  sent := 0
  credits := 0
  received := 0

def total (l : Ledger) : Int :=
  l.debits + l.sent - l.credits - l.received

end Ledger

inductive LedgerOp where
  | reserve
  | release
  | credit
  | settle
  | prepareDebit
  | applyDebit
  | cleanup
  | notifyPaymentSent
  | notifyPaymentReceived
  | notifyRefreshmentReceived
  | notifyPaymentThreshold
  | connect
  | disconnect
  deriving DecidableEq

/-
  The calls, which hold the lock of the account, in any order. The refresh function may return any
  amount, and payments may have any amount.
-/
inductive LedgerStep (a : Accounting) : LedgerOp → Ledger → Ledger → Prop where
  | reserve (l : Ledger) (price : Nat) (now : Int) (refresh : Option (Nat × Int)) :
      LedgerStep a .reserve l
        { l with
          account := (a.reserve price now refresh l.account).account
          sent := l.sent + (a.reserve price now refresh l.account).refreshed }
  | release (l : Ledger) (price : Nat) :
      LedgerStep a .release l { l with account := l.account.release price }
  | credit (l : Ledger) (price : Nat) (originated : Bool) : LedgerStep a .credit l
        { l with
          account := l.account.credit price originated
          credits := l.credits + price }
  | settle (l : Ledger) (now : Int) (refresh : Option (Nat × Int)) : LedgerStep a .settle l
        { l with
          account := (a.settle now refresh l.account).account
          sent := l.sent + (a.settle now refresh l.account).refreshed }
  | prepareDebit (l : Ledger) {price : Nat} {p : PeerAccount} {d : DebitAction}
      (hPrepare : l.account.prepareDebit price = .ok (p, d)) : LedgerStep a .prepareDebit l
        { l with
          account := p
          prepared := d :: l.prepared }
  | applyDebit (l : Ledger) {d : DebitAction} (hPrepared : d ∈ l.prepared) :
      LedgerStep a .applyDebit l
        { l with
          account := (d.apply a l.account).2.account
          prepared :=
            if (d.apply a l.account).1.applied then l.prepared.erase d
            else l.prepared
          debits :=
            if (d.apply a l.account).1.applied then l.debits + d.price
            else l.debits }
  | cleanup (l : Ledger) {d : DebitAction} (hPrepared : d ∈ l.prepared) : LedgerStep a .cleanup l
        { l with
          account := d.cleanup l.account
          prepared := l.prepared.erase d }
  | notifyPaymentSent (l : Ledger) (amount : Nat) (failure : Option Int) :
      LedgerStep a .notifyPaymentSent l
        { l with
          account := l.account.notifyPaymentSent amount failure
          sent :=
            if failure = none then l.sent + amount
            else l.sent }
  | notifyPaymentReceived (l : Ledger) (amount : Nat) : LedgerStep a .notifyPaymentReceived l
        { l with
          account := (l.account.notifyPaymentReceived amount).account
          received :=
            if (l.account.notifyPaymentReceived amount).err = none then l.received + amount
            else l.received }
  | notifyRefreshmentReceived (l : Ledger) (amount : Nat) :
      LedgerStep a .notifyRefreshmentReceived l
        { l with
          account := l.account.notifyRefreshmentReceived amount
          received := l.received + amount }
  | notifyPaymentThreshold (l : Ledger) (paymentThreshold : Nat) :
      LedgerStep a .notifyPaymentThreshold l
        { l with account := l.account.notifyPaymentThreshold paymentThreshold }
  | connect (l : Ledger) : LedgerStep a .connect l { l with account := l.account.connect }
  | disconnect (l : Ledger) : LedgerStep a .disconnect l { l with account := l.account.disconnect }

---- Steps

section

variable {l' : Ledger} {op : LedgerOp}

/- Debits are prepared for peers with a stored balance. -/
structure Ledger.Valid (l : Ledger) : Prop where
  surplus : 0 ≤ l.account.surplus
  stored : l.account.connected = true ∨ l.prepared ≠ [] → l.account.balance ≠ none

/-
  What one call does to the balances: the difference between balance and surplus follows the sums,
  and the originated debt stays within the debt.  Only `Connect` resets them.
-/
structure Moves (op : LedgerOp) (l l' : Ledger) : Prop where
  valid : l'.Valid
  compensated :
    op ≠ .connect →
      l'.account.getBalance - l'.account.surplus - l'.total =
        l.account.getBalance - l.account.surplus - l.total
  originates :
    l.account.Originates → (op = .connect → 0 ≤ l.account.getOriginated) → l'.account.Originates

/- A settlement moves the accepted amount. -/
theorem Settled.moves (hSettled : Settled l.account o) (hValid : l.Valid)
    (op : LedgerOp) : Moves op l
      { l with
        account := o.account
        sent := l.sent + o.refreshed } where
  valid := by
    have hSurplus := hValid.surplus
    constructor
    · unfold PeerAccount.surplus
      rw [hSettled.surplus]
      exact hSurplus
    · intro hUse
      apply hSettled.stored
      apply hValid.stored
      rw [← hSettled.connected]
      exact hUse
  compensated := by
    have hSurplus : o.account.surplus = l.account.surplus := by
      unfold PeerAccount.surplus
      rw [hSettled.surplus]
    unfold Ledger.total
    dsimp only
    rw [hSettled.balance]
    omega
  originates := fun hOriginates _ => hSettled.originates hOriginates

/- Accounts that agree on the balances. -/
theorem Moves.congr (hMoves : Moves op l l') (hBalance : p.balance = l'.account.balance)
    (hOriginated : p.originatedBalance = l'.account.originatedBalance)
    (hSurplus : p.surplusBalance = l'.account.surplusBalance)
    (hConnected : p.connected = l'.account.connected) : Moves op l { l' with account := p } := by
  have hGet : p.getBalance = l'.account.getBalance := by
    unfold PeerAccount.getBalance
    rw [hBalance]
  have hValue : p.surplus = l'.account.surplus := by
    unfold PeerAccount.surplus
    rw [hSurplus]
  have hOrigin : p.getOriginated = l'.account.getOriginated := by
    unfold PeerAccount.getOriginated
    rw [hOriginated]
  constructor
  · constructor
    · rw [hValue]
      exact hMoves.valid.surplus
    · rw [hConnected, hBalance]
      exact hMoves.valid.stored
  · intro hOp
    have hEq := hMoves.compensated hOp
    rw [hGet, hValue]
    exact hEq
  · intro hOriginates hConnect
    have hNext := hMoves.originates hOriginates hConnect
    unfold PeerAccount.Originates at hNext ⊢
    rw [hGet, hOrigin]
    exact hNext

theorem moves_refl (hValid : l.Valid) : Moves op l l where
  valid := hValid
  compensated := fun _ => rfl
  originates := fun hOriginates _ => hOriginates

/- Prepared debits do not fail. -/
theorem moves_applyDebit (hValid : l.Valid) (hPrepared : d ∈ l.prepared) : Moves .applyDebit l
      { l with
        account := (d.apply a l.account).2.account
        prepared :=
          if (d.apply a l.account).1.applied then l.prepared.erase d
          else l.prepared
        debits :=
          if (d.apply a l.account).1.applied then l.debits + d.price
          else l.debits } := by
  have hStored : l.account.balance ≠ none := hValid.stored (Or.inr (List.ne_nil_of_mem hPrepared))
  rcases apply_spec a d hStored hValid.surplus with ⟨hApplied, hDebited, -⟩
  rw [hApplied, if_pos rfl, if_pos rfl]
  constructor
  · exact ⟨hDebited.surplus, fun _ => hDebited.stored⟩
  · have hEq := hDebited.compensated
    unfold Ledger.total
    dsimp only
    omega
  · exact fun hOriginates _ => hDebited.originates hOriginates

/- Every call moves the balances with the sums. -/
theorem LedgerStep.moves (hStep : LedgerStep a op l l') (hValid : l.Valid) : Moves op l l' := by
  cases hStep with
  | reserve _ price now refresh =>
    rcases reserve_spec a price now refresh l.account with ⟨o, hSettled, -, hRefreshed, hResult⟩
    have hMoves := hSettled.moves hValid .reserve
    rw [hRefreshed]
    rcases hResult with ⟨-, hEq⟩ | ⟨-, -, -, hEq⟩
    · rw [hEq]
      exact hMoves
    · rw [hEq]
      exact hMoves.congr rfl rfl rfl rfl
  | release _ price | notifyPaymentThreshold _ paymentThreshold =>
    exact (moves_refl hValid).congr rfl rfl rfl rfl
  | credit _ price originated =>
    rcases credit_spec l.account price originated with ⟨originatedBalance, hEq, hOriginates⟩
    rw [hEq]
    refine ⟨⟨hValid.surplus, fun _ => nofun⟩, ?_, ?_⟩
    · intro _
      change l.account.getBalance - price - l.account.surplus - _ = _
      unfold Ledger.total
      dsimp only
      omega
    · exact fun hBefore _ => hOriginates hBefore
  | settle _ now refresh => exact (settle_spec a now refresh l.account).moves hValid _
  | prepareDebit _ hPrepare =>
    unfold PeerAccount.prepareDebit at hPrepare
    split at hPrepare
    · cases hPrepare
    · next hConnected =>
        cases hPrepare
        have hTrue := Bool.eq_true_of_not_eq_false hConnected
        refine ⟨⟨hValid.surplus, fun _ => ?_⟩, fun _ => rfl, fun hOriginates _ => hOriginates⟩
        exact hValid.stored (Or.inl hTrue)
  | applyDebit _ hPrepared => exact moves_applyDebit hValid hPrepared
  | @cleanup _ d hPrepared =>
    have hStored := hValid.stored (Or.inr (List.ne_nil_of_mem hPrepared))
    unfold DebitAction.cleanup
    split
    · exact ⟨⟨hValid.surplus, fun _ => hStored⟩, fun _ => rfl, fun hOriginates _ => hOriginates⟩
    · exact ⟨⟨hValid.surplus, fun _ => hStored⟩, fun _ => rfl, fun hOriginates _ => hOriginates⟩
  | notifyPaymentSent _ amount failure =>
    cases failure with
    | some now => exact (moves_refl hValid).congr rfl rfl rfl rfl
    | none =>
      refine ⟨⟨hValid.surplus, fun _ => nofun⟩, ?_, ?_⟩
      · intro _
        change l.account.getBalance + amount - l.account.surplus - _ = _
        rw [if_pos rfl]
        unfold Ledger.total
        dsimp only
        omega
      · intro hOriginates _
        unfold PeerAccount.Originates at hOriginates
        change min (l.account.getBalance + amount) 0 ≤ l.account.getOriginated + amount
        omega
  | notifyPaymentReceived _ amount =>
    have hPaid := notifyPaymentReceived_spec hValid.surplus amount
    rw [if_pos hPaid.err]
    constructor
    · refine ⟨hPaid.surplus, fun hUse => ?_⟩
      apply hPaid.stored
      apply hValid.stored
      rw [← hPaid.connected]
      exact hUse
    · have hEq := hPaid.compensated
      unfold Ledger.total
      dsimp only
      omega
    · intro hOriginates _
      unfold PeerAccount.Originates PeerAccount.getOriginated at hOriginates ⊢
      rw [hPaid.balance, hPaid.originated]
      exact hOriginates
  | notifyRefreshmentReceived _ amount =>
    refine ⟨⟨hValid.surplus, fun _ => nofun⟩, ?_, ?_⟩
    · intro _
      change l.account.getBalance - amount - l.account.surplus - _ = _
      unfold Ledger.total
      dsimp only
      omega
    · intro hOriginates _
      unfold PeerAccount.Originates at hOriginates
      change min (l.account.getBalance - amount) 0 ≤ l.account.getOriginated
      omega
  | connect =>
    refine ⟨⟨le_refl 0, fun _ => nofun⟩, fun hNe => absurd rfl hNe, ?_⟩
    intro _ hConnect
    exact (min_le_right _ _).trans (hConnect rfl)
  | disconnect =>
    refine ⟨⟨hValid.surplus, fun hUse => ?_⟩, fun _ => rfl, fun hOriginates _ => hOriginates⟩
    rcases hUse with hFalse | hPrepared
    · cases hFalse
    · exact hValid.stored (Or.inr hPrepared)

end

---- Conservation

/- An account without debt; a new or just connected one. -/
structure Untouched (p : PeerAccount) : Prop where
  balance : p.getBalance = 0
  surplus : p.surplus = 0
  stored : p.connected = true → p.balance ≠ none

theorem Untouched.valid (hUntouched : Untouched p) : (Ledger.start p).Valid := by
  refine ⟨hUntouched.surplus.ge, fun hUse => ?_⟩
  rcases hUse with hConnected | hPrepared
  · exact hUntouched.stored hConnected
  · exact absurd rfl hPrepared

/- The compensated balance, if anything is stored. -/
theorem compensatedBalance_eq {p : PeerAccount} (hSurplus : 0 ≤ p.surplus) :
    p.compensatedBalance = .ok (p.getBalance - p.surplus) ∨
      p.compensatedBalance = .error .peerNoBalance ∧ p.getBalance - p.surplus = 0 := by
  unfold PeerAccount.compensatedBalance
  rw [PeerAccount.getSurplus_eq hSurplus]
  by_cases hNone : p.surplus = 0 ∧ p.balance = none
  · refine Or.inr ⟨if_pos hNone, ?_⟩
    unfold PeerAccount.getBalance
    rw [hNone.1, hNone.2]
    rfl
  · exact Or.inl (if_neg hNone)

/-
  The compensated balance is what was debited and sent, less what was credited and received, and the
  surplus is never negative.
-/
theorem ledger_conserved {p : PeerAccount} (hUntouched : Untouched p)
    (hReach : Reach (LedgerStep a) (fun op _ => op ≠ .connect) (.start p) l) :
    (l.account.compensatedBalance = .ok (l.debits + l.sent - l.credits - l.received) ∨
      l.account.compensatedBalance = .error .peerNoBalance ∧
        l.debits + l.sent - l.credits - l.received = 0) ∧
      l.account.getSurplus = .ok l.account.surplus ∧ 0 ≤ l.account.surplus := by
  have hInvariant : l.Valid ∧ l.account.getBalance - l.account.surplus = l.total := by
    refine hReach.invariant (fun l => l.Valid ∧ l.account.getBalance - l.account.surplus = l.total)
      ⟨hUntouched.valid, ?_⟩ ?_
    · change p.getBalance - p.surplus = 0 + 0 - 0 - 0
      rw [hUntouched.balance, hUntouched.surplus]
      rfl
    · rintro op before after ⟨hValid, hEq⟩ hOp hStep
      have hMoves := hStep.moves hValid
      have hSame := hMoves.compensated hOp
      exact ⟨hMoves.valid, by omega⟩
  rcases hInvariant with ⟨hValid, hEq⟩
  refine ⟨?_, PeerAccount.getSurplus_eq hValid.surplus, hValid.surplus⟩
  have hCompensated := compensatedBalance_eq hValid.surplus
  rw [hEq] at hCompensated
  exact hCompensated

/- A node that pays by cheques as well. -/
def sampleAccounting : Accounting where
  paymentThreshold := 100
  paymentTolerance := 20
  earlyPayment := 10
  refreshRate := 5
  payFunction := true

theorem untouched_connect (p : PeerAccount) : Untouched p.connect :=
  ⟨rfl, rfl, fun _ => nofun⟩

/- A credit, a debit and a payment that exceeds the balance. -/
theorem ledger_conserved_payment :
    Untouched sampleAccounting.newPeer.connect ∧
      ∃ l : Ledger,
        l.debits = 30 ∧ l.credits = 10 ∧ l.received = 25 ∧
          (l.account.compensatedBalance = .ok (l.debits + l.sent - l.credits - l.received) ∨
            l.account.compensatedBalance = .error .peerNoBalance ∧
              l.debits + l.sent - l.credits - l.received = 0) := by
  have hUntouched := untouched_connect sampleAccounting.newPeer
  have hStart :
      Reach (LedgerStep sampleAccounting) (fun op _ => op ≠ .connect)
        (.start sampleAccounting.newPeer.connect) (.start sampleAccounting.newPeer.connect) :=
    .start
  have hCredit := Reach.step .credit hStart nofun (.credit _ 10 false)
  have hPrepared :
      (sampleAccounting.newPeer.connect.credit 10 false).prepareDebit 30 = .ok (_, _) := rfl
  have hPrepare := Reach.step .prepareDebit hCredit nofun (.prepareDebit _ hPrepared)
  have hApply := Reach.step .applyDebit hPrepare nofun (.applyDebit _ List.mem_cons_self)
  have hReceive := Reach.step .notifyPaymentReceived hApply nofun (.notifyPaymentReceived _ 25)
  refine ⟨hUntouched, _, ?_, ?_, ?_, (ledger_conserved hUntouched hReceive).1⟩
  · rfl
  · rfl
  · rfl

---- Originated Debt

theorem valid_newPeer : (Ledger.start a.newPeer).Valid := by
  refine ⟨le_refl 0, fun hUse => ?_⟩
  rcases hUse with hConnected | hPrepared
  · cases hConnected
  · exact absurd rfl hPrepared

/- `Connect` does not find originated debt. -/
def LedgerOp.Cleared (op : LedgerOp) (l : Ledger) : Prop :=
  op = .connect → 0 ≤ l.account.getOriginated

/- A payment is for the debt that is recorded. -/
theorem payment_le_debt (hOriginates : p.Originates)
    (hPayment : (a.settle now refresh p).payment = some amount) :
    amount ≤ max (-(a.settle now refresh p).account.getBalance) 0 := by
  have hSettled := settle_spec a now refresh p
  have hAfter := hSettled.originates hOriginates
  have hAmount := (hSettled.payment amount hPayment).2.2
  unfold PeerAccount.Originates at hAfter
  omega

/-
  The originated debt is within the debt, and no payment is larger than the debt, if every `Connect`
  finds no originated debt.
-/
theorem originated_bounded (hReach : Reach (LedgerStep a) LedgerOp.Cleared (.start a.newPeer) l) :
    min l.account.getBalance 0 ≤ l.account.getOriginated ∧
      ∀ now refresh amount,
        (a.settle now refresh l.account).payment = some amount →
          amount ≤ max (-(a.settle now refresh l.account).account.getBalance) 0 := by
  have hInvariant : l.Valid ∧ l.account.Originates := by
    refine hReach.invariant (fun l => l.Valid ∧ l.account.Originates)
      ⟨valid_newPeer, min_le_right _ _⟩ ?_
    rintro op before after ⟨hValid, hOriginates⟩ hClear hStep
    have hMoves := hStep.moves hValid
    exact ⟨hMoves.valid, hMoves.originates hOriginates hClear⟩
  exact ⟨hInvariant.2, fun now refresh _ hPayment =>
    payment_le_debt hInvariant.2 hPayment⟩

/- A run of two calls, as far as they are allowed. -/
theorem originated_bounded_credit :
    ∃ l : Ledger,
      l.account.getBalance = -50 ∧ l.account.getOriginated = -50 ∧
        min l.account.getBalance 0 ≤ l.account.getOriginated := by
  have hConnect :=
    Reach.step .connect
      (show Reach (LedgerStep sampleAccounting) LedgerOp.Cleared (.start sampleAccounting.newPeer)
          (.start sampleAccounting.newPeer) from .start) (fun _ => le_refl 0) (.connect _)
  have hCredit := Reach.step .credit hConnect nofun (.credit _ 50 true)
  refine ⟨_, ?_, ?_, (originated_bounded hCredit).1⟩
  · rfl
  · rfl

/- The originated debt of 50 outlives a new connection, and is paid although the debt is 10. -/
theorem originated_not_bounded :
    ¬ ∀ (a : Accounting) (l : Ledger),
      Reach (LedgerStep a) (fun _ _ => True) (.start a.newPeer) l →
        min l.account.getBalance 0 ≤ l.account.getOriginated ∧
          ∀ now refresh amount,
            (a.settle now refresh l.account).payment = some amount →
              amount ≤ max (-(a.settle now refresh l.account).account.getBalance) 0 := by
  intro hAll
  have hConnect :=
    Reach.step .connect
      (show Reach (LedgerStep sampleAccounting) (fun _ _ => True) (.start sampleAccounting.newPeer)
          (.start sampleAccounting.newPeer) from .start) trivial (.connect _)
  -- a refreshment that is accepted at time 100
  have hRefresh :=
    Reach.step .settle (Reach.step .credit hConnect trivial (.credit _ 5 false))
      trivial (.settle _ 100 (some (5, 100)))
  have hCredit := Reach.step .credit hRefresh trivial (.credit _ 50 true)
  have hAgain :=
    Reach.step .connect (Reach.step .disconnect hCredit trivial (.disconnect _))
      trivial (.connect _)
  have hDebt := Reach.step .credit hAgain trivial (.credit _ 10 false)
  have hLe := (hAll sampleAccounting _ hDebt).2 100 none 50 (by decide +kernel)
  revert hLe
  decide +kernel

end Sana.Accounts
