import Sana.Accounting.Account

/-
  Requests that are under way with a peer.

  A client reserves the price of a request, credits it when the response arrives, and releases the
  reservation.  Debits are prepared and later applied or cleaned up, and payments are started and
  later confirmed.  A new connection resets the reserves while all of these may be under way.

  Key definitions include:
    * `PeerSystem`
    * `ClientStep`

  Key theorems include:
    * `ClientStep.exact`
-/

---- Requests

namespace Sana.Accounts

section

open Program

/- A reservation that was not released. -/
structure Reservation where
  price : Nat
  credited : Bool
  epoch : Nat
  deriving DecidableEq, Repr

/- A debit whose deferred `Cleanup` did not run. -/
structure PendingDebit where
  action : DebitAction
  epoch : Nat
  deriving DecidableEq, Repr

/- What is neither applied nor cleaned up of a debit. -/
def PendingDebit.outstanding (d : PendingDebit) : Int :=
  if d.action.applied then 0 else d.action.price

/- A payment whose outcome is not known. -/
structure PendingPayment where
  amount : Int
  epoch : Nat
  deriving DecidableEq, Repr

/-
  The account of a peer and all that is under way.  The epoch counts the connections; every action
  has that of its start.
-/
structure PeerSystem where
  account : PeerAccount
  epoch : Nat
  reservations : List Reservation
  debits : List PendingDebit
  payments : List PendingPayment

namespace PeerSystem

def start (account : PeerAccount) : PeerSystem where
  account := account
  epoch := 0
  reservations := []
  debits := []
  payments := []

/- An amount, if it was started in the epoch. -/
def since (epoch started : Nat) (amount : Int) : Int :=
  if started = epoch then amount else 0

/- What was reserved and not released since `Connect`. -/
def reservedSum (sys : PeerSystem) : Int :=
  (sys.reservations.map fun r => since sys.epoch r.epoch r.price).sum

/- What was prepared and not applied or cleaned up. -/
def debitSum (sys : PeerSystem) : Int :=
  (sys.debits.map fun d => since sys.epoch d.epoch d.outstanding).sum

/- The outstanding payment. -/
def paymentSum (sys : PeerSystem) : Int :=
  (sys.payments.map fun pay => since sys.epoch pay.epoch pay.amount).sum

/- What was reserved and neither credited nor released. -/
def uncredited (sys : PeerSystem) : Int :=
  (sys.reservations.map fun r =>
    if r.credited then 0 else (r.price : Int)).sum

end PeerSystem

inductive ClientOp where
  | reserve
  | credit
  | release (r : Reservation)
  | prepareDebit
  | applyDebit (d : PendingDebit)
  | cleanup (d : PendingDebit)
  | notifyPaymentSent (pay : PendingPayment)
  | notifyPaymentReceived
  | notifyRefreshmentReceived
  | notifyPaymentThreshold (paymentThreshold : Nat)
  | connect
  | disconnect
  deriving DecidableEq

/- The steps of clients, debits and payments, in any order. -/
inductive ClientStep (a : Accounting) : ClientOp → PeerSystem → PeerSystem → Prop where
  | reserve (sys : PeerSystem) (price : Nat) (now : Int) (refresh : Option (Nat × Int)) :
      ClientStep a .reserve sys
        { sys with
          account := (a.reserve price now refresh sys.account).account
          reservations :=
            if (a.reserve price now refresh sys.account).err = none then
              ⟨price, false, sys.epoch⟩ :: sys.reservations
            else sys.reservations
          payments :=
            ((a.reserve price now refresh sys.account).payment.toList.map fun amount =>
                ⟨amount, sys.epoch⟩) ++ sys.payments }
  | credit (sys : PeerSystem) {r : Reservation} (originated : Bool) (hMem : r ∈ sys.reservations)
      (hOpen : r.credited = false) : ClientStep a .credit sys
        { sys with
          account := sys.account.credit r.price originated
          reservations := { r with credited := true } :: sys.reservations.erase r }
  | release (sys : PeerSystem) {r : Reservation} (hMem : r ∈ sys.reservations) :
      ClientStep a (.release r) sys
        { sys with
          account := sys.account.release r.price
          reservations := sys.reservations.erase r }
  | prepareDebit (sys : PeerSystem) {price : Nat} {p : PeerAccount} {action : DebitAction}
      (hPrepare : sys.account.prepareDebit price = .ok (p, action)) : ClientStep a .prepareDebit sys
        { sys with
          account := p
          debits := ⟨action, sys.epoch⟩ :: sys.debits }
  | applyDebit (sys : PeerSystem) {d : PendingDebit} (hMem : d ∈ sys.debits)
      (hOpen : d.action.applied = false) : ClientStep a (.applyDebit d) sys
        { sys with
          account := (d.action.apply a sys.account).2.account
          debits := { d with action := (d.action.apply a sys.account).1 } :: sys.debits.erase d }
  | cleanup (sys : PeerSystem) {d : PendingDebit} (hMem : d ∈ sys.debits) :
      ClientStep a (.cleanup d) sys
        { sys with
          account := d.action.cleanup sys.account
          debits := sys.debits.erase d }
  | notifyPaymentSent (sys : PeerSystem) {pay : PendingPayment} (failure : Option Int)
      (hMem : pay ∈ sys.payments) : ClientStep a (.notifyPaymentSent pay) sys
        { sys with
          account := sys.account.notifyPaymentSent pay.amount failure
          payments := sys.payments.erase pay }
  | notifyPaymentReceived (sys : PeerSystem) (amount : Nat) :
      ClientStep a .notifyPaymentReceived sys
        { sys with account := (sys.account.notifyPaymentReceived amount).account }
  | notifyRefreshmentReceived (sys : PeerSystem) (amount : Nat) :
      ClientStep a .notifyRefreshmentReceived sys
        { sys with account := sys.account.notifyRefreshmentReceived amount }
  | notifyPaymentThreshold (sys : PeerSystem) (paymentThreshold : Nat) :
      ClientStep a (.notifyPaymentThreshold paymentThreshold) sys
        { sys with account := sys.account.notifyPaymentThreshold paymentThreshold }
  | connect (sys : PeerSystem) : ClientStep a .connect sys
        { sys with
          account := sys.account.connect
          epoch := sys.epoch + 1 }
  | disconnect (sys : PeerSystem) :
      ClientStep a .disconnect sys { sys with account := sys.account.disconnect }

end

---- Exact Reserves

open Program PeerSystem

variable {a : Accounting} {sys sys' : PeerSystem}
variable {op : ClientOp}

/-
  What holds in all states: debits are prepared for peers with a stored balance, and at most one
  payment is outstanding.
-/
structure PeerSystem.Valid (sys : PeerSystem) : Prop where
  surplus : 0 ≤ sys.account.surplus
  stored : sys.account.connected = true ∨ sys.debits ≠ [] → sys.account.balance ≠ none
  reservationsPast : ∀ r ∈ sys.reservations, r.epoch ≤ sys.epoch
  debitsPast : ∀ d ∈ sys.debits, d.epoch ≤ sys.epoch
  paymentsPast : ∀ pay ∈ sys.payments, pay.epoch ≤ sys.epoch
  amounts : ∀ pay ∈ sys.payments, 0 ≤ pay.amount
  single : sys.payments.length ≤ 1
  ongoing : sys.account.paymentOngoing = false → sys.payments = []

/- The reserves are the sums of what is under way. -/
structure PeerSystem.Exact (sys : PeerSystem) : Prop where
  reserved : sys.account.reservedBalance = sys.reservedSum
  shadow : sys.account.shadowReservedBalance = sys.debitSum + sys.paymentSum

/- The action ends in the epoch in which it was started. -/
def ClientOp.Current : ClientOp → PeerSystem → Prop
| .release r, sys => r.epoch = sys.epoch
| .applyDebit d, sys => d.epoch = sys.epoch
| .cleanup d, sys => d.action.applied = false → d.epoch = sys.epoch
| .notifyPaymentSent pay, sys => pay.epoch = sys.epoch
| _, _ => True

theorem since_self (epoch : Nat) : since epoch epoch amount = amount :=
  if_pos rfl

theorem since_nonneg (epoch started : Nat) (hAmount : 0 ≤ amount) :
    0 ≤ since epoch started amount := by
  unfold since
  split
  · exact hAmount
  · exact le_refl 0

/- A sum of amounts that are not negative. -/
theorem sum_since_nonneg {α : Type} (l : List α) (epoch : Nat) (started : α → Nat)
    {amount : α → Int} (hAmount : ∀ x ∈ l, 0 ≤ amount x) : 0 ≤ (l.map fun x =>
      since epoch (started x) (amount x)).sum := by
  apply List.sum_nonneg
  intro value hMem
  rcases List.mem_map.mp hMem with ⟨x, hX, rfl⟩
  exact since_nonneg epoch (started x) (hAmount x hX)

theorem reservedSum_nonneg (sys : PeerSystem) : 0 ≤ sys.reservedSum :=
  sum_since_nonneg sys.reservations sys.epoch _ fun r _ => Int.natCast_nonneg r.price

theorem PendingDebit.outstanding_nonneg (d : PendingDebit) : 0 ≤ d.outstanding := by
  unfold PendingDebit.outstanding
  split
  · exact le_refl 0
  · exact Int.natCast_nonneg d.action.price

theorem debitSum_nonneg (sys : PeerSystem) : 0 ≤ sys.debitSum :=
  sum_since_nonneg sys.debits sys.epoch _ fun d _ => d.outstanding_nonneg

theorem paymentSum_nonneg (hAmounts : ∀ pay ∈ sys.payments, 0 ≤ pay.amount) : 0 ≤ sys.paymentSum :=
  sum_since_nonneg sys.payments sys.epoch _ hAmounts

/- Nothing was started after the next `Connect` yet. -/
theorem sum_since_succ {α : Type} (l : List α) {epoch : Nat} {started : α → Nat} (amount : α → Int)
    (hPast : ∀ x ∈ l, started x ≤ epoch) : (l.map fun x =>
      since (epoch + 1) (started x) (amount x)).sum = 0 := by
  apply List.sum_eq_zero
  intro value hMem
  rcases List.mem_map.mp hMem with ⟨x, hX, rfl⟩
  have hLe := hPast x hX
  unfold since
  rw [if_neg (by omega)]

/- The sum after one entry that counts is removed. -/
theorem sum_since_erase {α : Type} [DecidableEq α] {l : List α} {epoch : Nat} {started : α → Nat}
    (amount : α → Int) {x : α} (hMem : x ∈ l) (hCurrent : started x = epoch) :
    ((l.erase x).map fun y =>
        since epoch (started y) (amount y)).sum =
      (l.map fun y =>
        since epoch (started y) (amount y)).sum - amount x := by
  have hSum := List.sum_map_erase (fun y => since epoch (started y) (amount y)) hMem
  have hSelf : since epoch (started x) (amount x) = amount x := by
    rw [hCurrent]
    exact since_self epoch
  omega

/- A step that keeps all lists, the reserves and the flags. -/
theorem PeerSystem.Valid.balances (hValid : sys.Valid) (hSurplus : 0 ≤ p.surplus)
    (hStored : sys.account.balance ≠ none → p.balance ≠ none)
    (hConnected : p.connected = sys.account.connected)
    (hOngoing : p.paymentOngoing = sys.account.paymentOngoing) :
    PeerSystem.Valid { sys with account := p } := by
  refine { hValid with surplus := hSurplus, stored := fun hUse => ?_, ongoing := fun hIdle => ?_ }
  · apply hStored
    apply hValid.stored
    rw [← hConnected]
    exact hUse
  · apply hValid.ongoing
    rw [← hOngoing]
    exact hIdle

/- The account after a call of `Reserve`. -/
theorem reserve_account (a : Accounting)
    (p : PeerAccount) :
    ∃ o reserved,
      Settled p o ∧ (a.reserve price now refresh p).payment = o.payment ∧
        (a.reserve price now refresh p).account = { o.account with reservedBalance := reserved } ∧
        ((a.reserve price now refresh p).err ≠ none ∧ reserved = p.reservedBalance ∨
          (a.reserve price now refresh p).err = none ∧ reserved = p.reservedBalance + price ∧
            max (-o.account.getBalance) 0 + reserved ≤ p.paymentThreshold) := by
  rcases reserve_spec a price now refresh p with ⟨o, hSettled, hPayment, -, hResult⟩
  have hReserved := hSettled.reserved
  have hThreshold := hSettled.threshold
  rcases hResult with ⟨hErr, hEq⟩ | ⟨hOk, hSurplus, hBound, hEq⟩
  · refine ⟨o, o.account.reservedBalance, hSettled, hPayment, hEq, Or.inl ⟨hErr, hReserved⟩⟩
  · refine ⟨o, o.account.reservedBalance + price, hSettled, hPayment, hEq, Or.inr ⟨hOk, ?_, ?_⟩⟩
    · rw [hReserved]
    · omega

/- A cleanup takes what is outstanding from the shadow reserve. -/
theorem cleanup_cases (d : PendingDebit) : ∃ ghost, d.action.cleanup p =
        { p with
          shadowReservedBalance := p.shadowReservedBalance - d.outstanding
          ghostBalance := ghost } := by
  unfold DebitAction.cleanup PendingDebit.outstanding
  split
  · refine ⟨p.ghostBalance, ?_⟩
    rw [sub_zero]
  · exact ⟨_, rfl⟩

/- A reservation starts a payment only if there is none. -/
theorem ClientStep.valid_reserve (hStep : ClientStep a .reserve sys sys') (hValid : sys.Valid) :
    sys'.Valid := by
  cases hStep with
  | reserve _ price now refresh =>
  rcases reserve_account a sys.account with
    ⟨o, reserved, hSettled, hPayment, hAccount, -⟩
  rw [hPayment, hAccount]
  have hSurplus : o.account.surplus = sys.account.surplus := by
    unfold PeerAccount.surplus
    rw [hSettled.surplus]
  have hOngoing := hSettled.ongoing
  have hNew : ∀ pay ∈ (o.payment.toList.map fun amount =>
          (⟨amount, sys.epoch⟩ : PendingPayment)) ++ sys.payments,
        pay.epoch ≤ sys.epoch ∧ 0 ≤ pay.amount := by
    intro pay hMem
    rcases List.mem_append.mp hMem with hNew | hOld
    · rcases List.mem_map.mp hNew with ⟨amount, hAmount, rfl⟩
      have hStarted := hSettled.payment amount (Option.mem_toList.mp hAmount)
      exact ⟨le_refl _, hStarted.2.1⟩
    · exact ⟨hValid.paymentsPast pay hOld, hValid.amounts pay hOld⟩
  constructor
  · change 0 ≤ o.account.surplus
    rw [hSurplus]
    exact hValid.surplus
  · intro hUse
    apply hSettled.stored
    apply hValid.stored
    rw [← hSettled.connected]
    exact hUse
  · split
    · intro r hMem
      rcases List.mem_cons.mp hMem with rfl | hMem
      · exact le_refl _
      · exact hValid.reservationsPast r hMem
    · exact hValid.reservationsPast
  · exact hValid.debitsPast
  · exact fun pay hMem => (hNew pay hMem).1
  · exact fun pay hMem => (hNew pay hMem).2
  · cases hStarted : o.payment with
    | none => exact hValid.single
    | some amount =>
      have hIdle := (hSettled.payment amount hStarted).1
      rw [hValid.ongoing hIdle]
      exact le_refl 1
  · intro hIdle
    rw [hIdle] at hOngoing
    cases hStarted : o.payment with
    | none =>
      rw [hStarted, Option.isSome_none, Bool.or_false] at hOngoing
      exact hValid.ongoing hOngoing.symm
    | some amount =>
      rw [hStarted, Option.isSome_some, Bool.or_true] at hOngoing
      cases hOngoing

/- All that holds in all states is kept by every step. -/
theorem ClientStep.valid (hStep : ClientStep a op sys sys') (hValid : sys.Valid) : sys'.Valid := by
  have hTaken := hStep
  cases hStep with
  | reserve => exact hTaken.valid_reserve hValid
  | @credit _ r originated hMem hOpen =>
    rcases credit_spec sys.account r.price originated with ⟨originatedBalance, hEq, -⟩
    rw [hEq]
    refine { hValid with stored := fun _ => nofun, reservationsPast := ?_ }
    intro other hOther
    rcases List.mem_cons.mp hOther with rfl | hOther
    · exact hValid.reservationsPast r hMem
    · exact hValid.reservationsPast other (List.mem_of_mem_erase hOther)
  | release _ hMem =>
    exact { hValid with
      reservationsPast := fun r hR => hValid.reservationsPast r (List.mem_of_mem_erase hR) }
  | prepareDebit _ hPrepare =>
    unfold PeerAccount.prepareDebit at hPrepare
    split at hPrepare
    · cases hPrepare
    · next hConnected =>
        cases hPrepare
        have hTrue := Bool.eq_true_of_not_eq_false hConnected
        refine { hValid with stored := fun _ => hValid.stored (Or.inl hTrue), debitsPast := ?_ }
        intro d hMem
        rcases List.mem_cons.mp hMem with rfl | hMem
        · exact le_refl _
        · exact hValid.debitsPast d hMem
  | @applyDebit _ d hMem hOpen =>
    have hStored := hValid.stored (Or.inr (List.ne_nil_of_mem hMem))
    rcases apply_spec a d.action hStored hValid.surplus with ⟨hApplied, hDebited, -⟩
    refine { hValid with
      surplus := hDebited.surplus, stored := fun _ => hDebited.stored
      debitsPast := ?_, ongoing := ?_ }
    · intro other hOther
      rcases List.mem_cons.mp hOther with rfl | hOther
      · exact hValid.debitsPast d hMem
      · exact hValid.debitsPast other (List.mem_of_mem_erase hOther)
    · intro hIdle
      apply hValid.ongoing
      rw [← hDebited.ongoing]
      exact hIdle
  | @cleanup _ d hMem =>
    have hStored := hValid.stored (Or.inr (List.ne_nil_of_mem hMem))
    rcases cleanup_cases d with ⟨ghost, hEq⟩
    rw [hEq]
    exact { hValid with
      stored := fun _ => hStored
      debitsPast := fun d hD => hValid.debitsPast d (List.mem_of_mem_erase hD) }
  | @notifyPaymentSent _ pay failure hMem =>
    -- the outstanding payment is the only one
    have hNone : sys.payments.erase pay = [] := by
      apply List.eq_nil_of_length_eq_zero
      rw [List.length_erase_of_mem hMem]
      have hSingle := hValid.single
      omega
    rw [hNone]
    have hBefore : PeerSystem.Valid { sys with payments := [] } :=
      { hValid with
        paymentsPast := nofun, amounts := nofun, single := Nat.zero_le 1, ongoing := fun _ => rfl }
    cases failure with
    | some now => exact { hBefore with ongoing := fun _ => rfl }
    | none => exact { hBefore with stored := fun _ => nofun, ongoing := fun _ => rfl }
  | notifyPaymentReceived _ amount =>
    have hPaid := notifyPaymentReceived_spec hValid.surplus amount
    exact hValid.balances hPaid.surplus hPaid.stored hPaid.connected hPaid.ongoing
  | notifyRefreshmentReceived _ amount =>
    exact hValid.balances hValid.surplus (fun _ => nofun) rfl rfl
  | notifyPaymentThreshold _ paymentThreshold => exact hValid.balances hValid.surplus id rfl rfl
  | connect =>
    exact { hValid with
      surplus := le_refl 0, stored := fun _ => nofun
      reservationsPast := fun r hMem => (hValid.reservationsPast r hMem).trans (Nat.le_succ _)
      debitsPast := fun d hMem => (hValid.debitsPast d hMem).trans (Nat.le_succ _)
      paymentsPast := fun pay hMem => (hValid.paymentsPast pay hMem).trans (Nat.le_succ _) }
  | disconnect =>
    refine { hValid with stored := fun hUse => ?_ }
    rcases hUse with hFalse | hDebits
    · cases hFalse
    · exact hValid.stored (Or.inr hDebits)

/- A reservation adds its price and the payment it starts. -/
theorem ClientStep.exact_reserve (hStep : ClientStep a .reserve sys sys') (hExact : sys.Exact) :
    sys'.Exact := by
  cases hStep with
  | reserve _ price now refresh =>
  rcases reserve_account a sys.account with
    ⟨o, reserved, hSettled, hPayment, hAccount, hResult⟩
  rw [hPayment, hAccount]
  constructor
  · rw [PeerSystem.reservedSum]
    rcases hResult with ⟨hErr, hEq⟩ | ⟨hOk, hEq, -⟩
    · rw [if_neg hErr, hEq]
      exact hExact.reserved
    · have hSum := hExact.reserved
      unfold PeerSystem.reservedSum at hSum
      rw [if_pos hOk, hEq, List.map_cons, List.sum_cons, since_self, hSum, add_comm]
  · have hSum := hExact.shadow
    unfold PeerSystem.debitSum PeerSystem.paymentSum at hSum ⊢
    rw [hSettled.shadow, List.map_append, List.sum_append]
    cases o.payment with
    | none =>
      simp only [Option.getD_none, Option.toList_none, List.map_nil, List.sum_nil]
      omega
    | some amount =>
      simp only [Option.getD_some, Option.toList_some, List.map_cons, List.map_nil, List.sum_cons,
        List.sum_nil, since_self]
      omega

/- The reserves stay exact when actions end in their epoch. -/
theorem ClientStep.exact (hStep : ClientStep a op sys sys') (hValid : sys.Valid)
    (hExact : sys.Exact) (hCurrent : op.Current sys) : sys'.Exact := by
  have hTaken := hStep
  cases hStep with
  | reserve => exact hTaken.exact_reserve hExact
  | @credit _ r originated hMem hOpen =>
    rcases credit_spec sys.account r.price originated with ⟨originatedBalance, hEq, -⟩
    rw [hEq]
    refine ⟨?_, hExact.shadow⟩
    have hSum := List.sum_map_erase (fun r : Reservation => since sys.epoch r.epoch r.price) hMem
    exact hExact.reserved.trans hSum.symm
  | @release _ r hMem =>
    have hLe : (r.price : Int) ≤ sys.reservedSum := by
      have hErased := sum_since_erase (fun r : Reservation => (r.price : Int)) hMem hCurrent
      have hNonneg := reservedSum_nonneg { sys with reservations := sys.reservations.erase r }
      unfold PeerSystem.reservedSum at hNonneg ⊢
      dsimp only at hNonneg
      omega
    refine ⟨?_, hExact.shadow⟩
    change (if sys.account.reservedBalance < r.price then 0
      else sys.account.reservedBalance - r.price) = _
    rw [hExact.reserved, if_neg (by omega)]
    exact (sum_since_erase (fun r : Reservation => (r.price : Int)) hMem hCurrent).symm
  | prepareDebit _ hPrepare =>
    unfold PeerAccount.prepareDebit at hPrepare
    split at hPrepare
    · cases hPrepare
    · cases hPrepare
      refine ⟨hExact.reserved, ?_⟩
      have hSum := hExact.shadow
      unfold PeerSystem.debitSum PeerSystem.paymentSum at hSum ⊢
      rw [List.map_cons, List.sum_cons, since_self, PendingDebit.outstanding,
        if_neg Bool.false_ne_true]
      dsimp only
      omega
  | @applyDebit _ d hMem hOpen =>
    have hStored := hValid.stored (Or.inr (List.ne_nil_of_mem hMem))
    rcases apply_spec a d.action hStored hValid.surplus with ⟨hApplied, hDebited, hShadow⟩
    refine ⟨hDebited.reserved.trans hExact.reserved, ?_⟩
    have hErased := sum_since_erase PendingDebit.outstanding hMem hCurrent
    have hPrice : d.outstanding = d.action.price := by
      unfold PendingDebit.outstanding
      rw [hOpen, if_neg Bool.false_ne_true]
    have hNothing : PendingDebit.outstanding
          { d with
            action := (d.action.apply a sys.account).1 } =
          0 := by
      rw [hApplied]
      exact if_pos rfl
    have hSum := hExact.shadow
    unfold PeerSystem.debitSum PeerSystem.paymentSum at hSum ⊢
    dsimp only at hShadow ⊢
    rw [List.map_cons, List.sum_cons, hNothing, hShadow,
      hErased, hCurrent, since_self]
    omega
  | @cleanup _ d hMem =>
    rcases cleanup_cases d with ⟨ghost, hEq⟩
    rw [hEq]
    refine ⟨hExact.reserved, ?_⟩
    have hErased := List.sum_map_erase (fun d : PendingDebit =>
        since sys.epoch d.epoch d.outstanding) hMem
    have hOut : since sys.epoch d.epoch d.outstanding = d.outstanding := by
      cases hApplied : d.action.applied with
      | false =>
        rw [hCurrent hApplied]
        exact since_self sys.epoch
      | true =>
        have hZero : d.outstanding = 0 := if_pos hApplied
        rw [hZero]
        exact ite_self 0
    have hSum := hExact.shadow
    unfold PeerSystem.debitSum PeerSystem.paymentSum at hSum ⊢
    dsimp only at hErased ⊢
    omega
  | @notifyPaymentSent _ pay failure hMem =>
    have hErased := sum_since_erase (fun pay : PendingPayment => pay.amount) hMem hCurrent
    have hSum := hExact.shadow
    have hAccount :
        (sys.account.notifyPaymentSent pay.amount
            failure).reservedBalance = sys.account.reservedBalance ∧
          (sys.account.notifyPaymentSent pay.amount
            failure).shadowReservedBalance = sys.account.shadowReservedBalance - pay.amount := by
      cases failure <;> exact ⟨rfl, rfl⟩
    refine ⟨hAccount.1.trans hExact.reserved, ?_⟩
    unfold PeerSystem.debitSum PeerSystem.paymentSum at hSum ⊢
    dsimp only
    omega
  | notifyPaymentReceived _ amount =>
    have hPaid := notifyPaymentReceived_spec hValid.surplus amount
    exact ⟨hPaid.reserved.trans hExact.reserved, hPaid.shadow.trans hExact.shadow⟩
  | notifyRefreshmentReceived _ amount
  | notifyPaymentThreshold _ paymentThreshold | disconnect => exact ⟨hExact.reserved, hExact.shadow⟩
  | connect =>
    have hReservations := sum_since_succ sys.reservations
      (fun r => (r.price : Int)) hValid.reservationsPast
    have hDebits := sum_since_succ sys.debits (fun d => d.outstanding) hValid.debitsPast
    have hPayments := sum_since_succ sys.payments (fun pay => pay.amount) hValid.paymentsPast
    refine ⟨hReservations.symm, ?_⟩
    unfold PeerSystem.debitSum PeerSystem.paymentSum
    dsimp only [PeerAccount.connect]
    rw [hDebits, hPayments, add_zero]

/- What holds before anything is under way. -/
theorem valid_start (hSurplus : 0 ≤ p.surplus)
    (hStored : p.connected = true → p.balance ≠ none) : (PeerSystem.start p).Valid := by
  refine ⟨hSurplus, fun hUse => ?_, nofun, nofun, nofun, nofun, Nat.zero_le 1, fun _ => rfl⟩
  rcases hUse with hConnected | hDebits
  · exact hStored hConnected
  · exact absurd rfl hDebits

/- A run whose actions end in the epoch of their start. -/
theorem reach_exact (hValid : (PeerSystem.start p).Valid) (hReserved : p.reservedBalance = 0)
    (hShadow : p.shadowReservedBalance = 0)
    (hCurrent :
      ∀ op sys sys', sys.Valid → allowed op sys → ClientStep a op sys sys' → op.Current sys)
    (hReach : Reach (ClientStep a) allowed (.start p) sys) : sys.Valid ∧ sys.Exact := by
  refine hReach.invariant (fun sys => sys.Valid ∧ sys.Exact) ⟨hValid, hReserved, hShadow⟩ ?_
  rintro op before after ⟨hBefore, hExact⟩ hAllowed hStep
  have hNow := hCurrent op before after hBefore hAllowed hStep
  exact ⟨hStep.valid hBefore, hStep.exact hBefore hExact hNow⟩

/- Runs over the balances that are stored. -/
theorem reach_current (hSurplus : 0 ≤ surplus.getD 0)
    (hReach : Reach (ClientStep a) ClientOp.Current (.start
          { a.newPeer with
            balance := balance
            originatedBalance := originated
            surplusBalance := surplus }) sys) : sys.Valid ∧ sys.Exact := by
  refine reach_exact (valid_start ?_ ?_) rfl rfl (fun _ _ _ _ hNow _ => hNow) hReach
  · exact hSurplus
  · nofun

/-
  From the account that is made for a peer, over the balances that are stored, the reserves are
  those of what is under way since the last `Connect` and are not negative, if every action ends in
  the connection in which it was started.
-/
theorem reserves_exact {balance originated surplus : Option Int} (hSurplus : 0 ≤ surplus.getD 0)
    (hReach : Reach (ClientStep a) ClientOp.Current (.start
          { a.newPeer with
            balance := balance
            originatedBalance := originated
            surplusBalance := surplus }) sys) :
    sys.account.reservedBalance = sys.reservedSum ∧
      sys.account.shadowReservedBalance = sys.debitSum + sys.paymentSum ∧ sys.payments.length ≤ 1 ∧
      0 ≤ sys.account.reservedBalance ∧ 0 ≤ sys.account.shadowReservedBalance := by
  rcases reach_current hSurplus hReach with ⟨hValid, hExact⟩
  have hReserved := reservedSum_nonneg sys
  have hDebits := debitSum_nonneg sys
  have hPayments := paymentSum_nonneg hValid.amounts
  rw [hExact.reserved, hExact.shadow]
  exact ⟨rfl, rfl, hValid.single, hReserved, by omega⟩

/- The peer of the examples, connected. -/
theorem reach_connected :
    Reach (ClientStep sampleAccounting) ClientOp.Current (.start sampleAccounting.newPeer)
      { PeerSystem.start sampleAccounting.newPeer.connect with epoch := 1 } :=
  .step ClientOp.connect .start trivial (.connect _)

/-
  A debit and a reservation of the second connection, while a debit of the first is not cleaned up.
-/
theorem reserves_exact_reconnected :
    ∃ sys : PeerSystem,
      sys.epoch = 2 ∧ sys.account.reservedBalance = 5 ∧ sys.account.shadowReservedBalance = 7 ∧
        sys.account.reservedBalance = sys.reservedSum ∧
        sys.account.shadowReservedBalance = sys.debitSum + sys.paymentSum := by
  have hOld :=
    Reach.step ClientOp.prepareDebit reach_connected trivial
      (.prepareDebit _ (prepareDebit_connected rfl 10))
  have hAgain := Reach.step ClientOp.connect hOld trivial (.connect _)
  have hDebit :=
    Reach.step ClientOp.prepareDebit hAgain trivial (.prepareDebit _ (prepareDebit_connected rfl 7))
  have hReserve := Reach.step ClientOp.reserve hDebit trivial (.reserve _ 5 0 none)
  have hExact := reserves_exact (le_refl 0) hReserve
  refine ⟨_, ?_, ?_, ?_, hExact.1, hExact.2.1⟩
  · rfl
  · decide +kernel
  · decide +kernel

/-
  A debit that was prepared before a new connection and is cleaned up after it makes the shadow
  reserve negative.
-/
theorem reserves_not_exact :
    ¬ ∀ (a : Accounting) (sys : PeerSystem),
      Reach (ClientStep a) (fun _ _ => True) (.start a.newPeer) sys →
        sys.account.reservedBalance = sys.reservedSum ∧
          sys.account.shadowReservedBalance = sys.debitSum + sys.paymentSum ∧
          0 ≤ sys.account.reservedBalance ∧ 0 ≤ sys.account.shadowReservedBalance := by
  intro hAll
  have hStart :
      Reach (ClientStep sampleAccounting) (fun _ _ => True) (.start sampleAccounting.newPeer)
        (.start sampleAccounting.newPeer) := .start
  have hConnect := Reach.step ClientOp.connect hStart trivial (.connect _)
  have hPrepare :=
    Reach.step ClientOp.prepareDebit hConnect trivial
      (.prepareDebit _ (prepareDebit_connected rfl 10))
  have hAgain := Reach.step ClientOp.connect hPrepare trivial (.connect _)
  have hCleanup :=
    Reach.step (ClientOp.cleanup ⟨⟨10, false⟩, 1⟩) hAgain trivial (.cleanup _ List.mem_cons_self)
  have hNonneg := (hAll sampleAccounting _ hCleanup).2.2.2
  revert hNonneg
  decide +kernel

---- Minimum Acceptance

/-
  The least amount a peer has to accept is not negative and at most the amount that is asked for, if
  every action ends in the connection in which it was started and the peer has no surplus, or the
  shadow reserve is within the debt without it.
-/
theorem shadowBalance_bounded {balance originated surplus : Option Int}
    (hSurplus : 0 ≤ surplus.getD 0)
    (hReach : Reach (ClientStep a) ClientOp.Current (.start
          { a.newPeer with
            balance := balance
            originatedBalance := originated
            surplusBalance := surplus }) sys)
    (hCovered :
      sys.account.surplus = 0 ∨ sys.account.shadowReservedBalance ≤ -sys.account.getBalance)
    (now : Int) {paymentAmount shadowBalance : Int}
    (hRequest : sys.account.refreshRequest now = .ok (some (paymentAmount, shadowBalance))) :
    0 ≤ shadowBalance ∧ shadowBalance ≤ paymentAmount := by
  have hExact := reach_current hSurplus hReach
  have hDebits := debitSum_nonneg sys
  have hPayments := paymentSum_nonneg hExact.1.amounts
  have hShadow := hExact.2.shadow
  have hPaid := hExact.1.surplus
  rcases refreshRequest_spec hRequest with ⟨hAmount, hPos, hEq⟩
  rcases compensatedBalance_eq hPaid with hOk | ⟨hErr, -⟩
  · rw [hOk, Except.ok.injEq] at hAmount
    rcases shadowBalance_cases hPaid hEq with hZero | ⟨hDebt, hLe, hValue⟩
    · omega
    · omega
  · rw [hErr] at hAmount
    cases hAmount

/- A credit of 40 with a debit of 30 under way. -/
theorem shadowBalance_bounded_credit :
    ∃ sys : PeerSystem,
      Reach (ClientStep sampleAccounting) ClientOp.Current (.start sampleAccounting.newPeer) sys ∧
        sys.account.refreshRequest 1 = .ok (some (40, 10)) ∧ (0 : Int) ≤ 10 ∧ (10 : Int) ≤ 40 := by
  have hReserve := Reach.step ClientOp.reserve reach_connected trivial (.reserve _ 40 0 none)
  have hCredit :=
    Reach.step ClientOp.credit hReserve trivial
      (.credit _ true (show ⟨40, false, 1⟩ ∈ _ by decide +kernel) rfl)
  have hDebit :=
    Reach.step ClientOp.prepareDebit hCredit trivial
      (.prepareDebit _ (prepareDebit_connected (by decide +kernel) 30))
  refine ⟨_, hDebit, ?_, ?_⟩
  · decide +kernel
  · exact shadowBalance_bounded (le_refl 0) hDebit (Or.inl (by decide +kernel)) 1
      (by decide +kernel)

/-
  The peer has paid 10 too much.  The shadow reserve of 8 is within the debt of 15 with this
  surplus, and more than the debt of 5 without it.
-/
theorem shadowBalance_negative :
    ∃ sys : PeerSystem,
      Reach (ClientStep sampleAccounting) ClientOp.Current (.start sampleAccounting.newPeer) sys ∧
        sys.account.refreshRequest 1 = .ok (some (15, -3)) ∧
        (sampleAccounting.reserve 90 1 none sys.account).err =
          some (.failedToSettle .refreshFailure) := by
  have hReserve := Reach.step ClientOp.reserve reach_connected trivial (.reserve _ 5 0 none)
  have hCredit :=
    Reach.step ClientOp.credit hReserve trivial
      (.credit _ true (show ⟨5, false, 1⟩ ∈ _ by decide +kernel) rfl)
  have hPaid :=
    Reach.step ClientOp.notifyPaymentReceived hCredit trivial (.notifyPaymentReceived _ 10)
  have hDebit :=
    Reach.step ClientOp.prepareDebit hPaid trivial
      (.prepareDebit _ (prepareDebit_connected (by decide +kernel) 8))
  refine ⟨_, hDebit, ?_, ?_⟩
  · decide +kernel
  · decide +kernel

---- Debt

/- One connection in which the peer neither pays nor lowers its threshold. -/
def ClientOp.Unpaid : ClientOp → PeerSystem → Prop
| .connect, _ => False
| .notifyPaymentReceived, _ => False
| .notifyRefreshmentReceived, _ => False
| .notifyPaymentThreshold paymentThreshold, sys => sys.account.paymentThreshold ≤ paymentThreshold
| _, _ => True

/- The debt and all that may become debt. -/
def PeerSystem.WithinThreshold (sys : PeerSystem) : Prop :=
  max 0 (-sys.account.getBalance) + sys.uncredited ≤ sys.account.paymentThreshold

/- Without a new connection all actions are of this one. -/
theorem current_of_first (hValid : sys.Valid) (hEpoch : sys.epoch = 0)
    (hStep : ClientStep a op sys sys') : op.Current sys := by
  cases hStep with
  | release _ hMem =>
    have hLe := hValid.reservationsPast _ hMem
    exact Nat.le_antisymm hLe (by omega)
  | applyDebit _ hMem _ =>
    have hLe := hValid.debitsPast _ hMem
    exact Nat.le_antisymm hLe (by omega)
  | cleanup _ hMem =>
    have hLe := hValid.debitsPast _ hMem
    exact fun _ => Nat.le_antisymm hLe (by omega)
  | notifyPaymentSent _ _ hMem =>
    have hLe := hValid.paymentsPast _ hMem
    exact Nat.le_antisymm hLe (by omega)
  | reserve | credit | prepareDebit | notifyPaymentReceived
  | notifyRefreshmentReceived | notifyPaymentThreshold | connect
  | disconnect => exact trivial

theorem epoch_of_unpaid (hAllowed : op.Unpaid sys) (hStep : ClientStep a op sys sys') :
    sys'.epoch = sys.epoch := by
  cases hStep with
  | connect => exact hAllowed.elim
  | _ => rfl

/- Reservations cover what may still be credited. -/
theorem uncredited_le_reservedSum (hValid : sys.Valid) (hEpoch : sys.epoch = 0) :
    sys.uncredited ≤ sys.reservedSum := by
  apply List.sum_le_sum
  intro r hMem
  have hLe := hValid.reservationsPast r hMem
  have hSame : r.epoch = sys.epoch := by omega
  rw [hSame, since_self]
  split
  · exact Int.natCast_nonneg r.price
  · exact le_refl _

/- A step that adds to the balance and keeps the clients. -/
theorem PeerSystem.WithinThreshold.of_le (hWithin : sys.WithinThreshold)
    (hBalance : sys.account.getBalance ≤ sys'.account.getBalance)
    (hUncredited : sys'.uncredited ≤ sys.uncredited)
    (hThreshold : sys.account.paymentThreshold ≤ sys'.account.paymentThreshold) :
    sys'.WithinThreshold := by
  unfold PeerSystem.WithinThreshold at hWithin ⊢
  omega

/- What a client can add to the debt was reserved. -/
theorem ClientStep.within (hStep : ClientStep a op sys sys') (hValid : sys.Valid)
    (hExact : sys.Exact) (hEpoch : sys.epoch = 0) (hAllowed : op.Unpaid sys)
    (hWithin : sys.WithinThreshold) : sys'.WithinThreshold := by
  have hNow := current_of_first hValid hEpoch hStep
  have hValid' := hStep.valid hValid
  have hExact' := hStep.exact hValid hExact hNow
  have hEpoch' := (epoch_of_unpaid hAllowed hStep).trans hEpoch
  have hCovered := uncredited_le_reservedSum hValid' hEpoch'
  cases hStep with
  | reserve _ price now refresh =>
    rcases reserve_account a sys.account with
      ⟨o, reserved, hSettled, -, hAccount, hResult⟩
    have hBalance := hSettled.balance
    have hThreshold := hSettled.threshold
    rcases hResult with ⟨hErr, -⟩ | ⟨-, hEq, hBound⟩
    · apply hWithin.of_le
      · rw [hAccount]
        change _ ≤ o.account.getBalance
        omega
      · unfold PeerSystem.uncredited
        rw [if_neg hErr]
      · rw [hAccount]
        exact hThreshold.ge
    · have hReserved := hExact'.reserved
      rw [← hReserved] at hCovered
      rw [hAccount] at hCovered ⊢
      change _ ≤ reserved at hCovered
      change max 0 (-o.account.getBalance) + _ ≤ o.account.paymentThreshold
      omega
  | @credit _ r originated hMem hOpen =>
    rcases credit_spec sys.account r.price originated with ⟨originatedBalance, hEq, -⟩
    have hSum := List.sum_map_erase (fun r : Reservation =>
        if r.credited then 0 else (r.price : Int)) hMem
    unfold PeerSystem.WithinThreshold PeerSystem.uncredited at hWithin ⊢
    rw [hEq]
    change max 0 (-(sys.account.getBalance - r.price)) + _ ≤ sys.account.paymentThreshold
    rw [List.map_cons, List.sum_cons, if_pos rfl]
    rw [hOpen, if_neg Bool.false_ne_true] at hSum
    omega
  | @release _ r hMem =>
    refine hWithin.of_le (le_refl _) ?_ (le_refl _)
    have hSum := List.sum_map_erase (fun r : Reservation =>
        if r.credited then 0 else (r.price : Int)) hMem
    unfold PeerSystem.uncredited
    dsimp only at hSum ⊢
    split at hSum <;> omega
  | prepareDebit _ hPrepare =>
    unfold PeerAccount.prepareDebit at hPrepare
    split at hPrepare
    · cases hPrepare
    · cases hPrepare
      exact hWithin
  | @applyDebit _ d hMem hOpen =>
    have hStored := hValid.stored (Or.inr (List.ne_nil_of_mem hMem))
    have hDebited := (apply_spec a d.action hStored hValid.surplus).2.1
    exact hWithin.of_le hDebited.le_balance (le_refl _) hDebited.threshold.ge
  | @cleanup _ d hMem =>
    rcases cleanup_cases d with ⟨ghost, hEq⟩
    rw [hEq]
    exact hWithin
  | @notifyPaymentSent _ pay failure hMem =>
    have hAmount := hValid.amounts pay hMem
    cases failure with
    | some now => exact hWithin
    | none =>
      refine hWithin.of_le ?_ (le_refl _) (le_refl _)
      change _ ≤ sys.account.getBalance + pay.amount
      omega
  | notifyPaymentReceived | notifyRefreshmentReceived | connect => exact hAllowed.elim
  | notifyPaymentThreshold _ paymentThreshold =>
    exact hWithin.of_le (le_refl _) (le_refl _) hAllowed
  | disconnect => exact hWithin

/-
  The debt and the prices that are reserved and neither credited nor released are within the
  threshold, in every state of a connection.
-/
theorem debt_within_threshold {p : PeerAccount} (hThreshold : 0 ≤ p.paymentThreshold)
    (hReach : Reach (ClientStep a) ClientOp.Unpaid (.start p.connect) sys) :
    max 0 (-sys.account.getBalance) + sys.uncredited ≤ sys.account.paymentThreshold := by
  have hInvariant : sys.Valid ∧ sys.Exact ∧ sys.epoch = 0 ∧ sys.WithinThreshold := by
    refine hReach.invariant (fun sys => sys.Valid ∧ sys.Exact ∧ sys.epoch = 0 ∧ sys.WithinThreshold)
      ⟨valid_start (le_refl 0) (fun _ => nofun), ⟨rfl, rfl⟩, rfl, hThreshold⟩ ?_
    rintro op before after ⟨hValid, hExact, hEpoch, hWithin⟩ hAllowed hStep
    have hNow := current_of_first hValid hEpoch hStep
    exact ⟨hStep.valid hValid, hStep.exact hValid hExact hNow,
      (epoch_of_unpaid hAllowed hStep).trans hEpoch,
      hStep.within hValid hExact hEpoch hAllowed hWithin⟩
  exact hInvariant.2.2.2

/- Two clients that share a threshold of 100. -/
theorem debt_within_threshold_two :
    0 ≤ sampleAccounting.newPeer.paymentThreshold ∧
      ∃ sys : PeerSystem,
        sys.account.getBalance = -40 ∧ sys.uncredited = 30 ∧
          max 0 (-sys.account.getBalance) + sys.uncredited ≤ sys.account.paymentThreshold := by
  have hThreshold : 0 ≤ sampleAccounting.newPeer.paymentThreshold := Int.natCast_nonneg 100
  have hStart :
      Reach (ClientStep sampleAccounting) ClientOp.Unpaid (.start sampleAccounting.newPeer.connect)
        (.start sampleAccounting.newPeer.connect) := .start
  have hFirst := Reach.step ClientOp.reserve hStart trivial (.reserve _ 40 0 none)
  have hSecond := Reach.step ClientOp.reserve hFirst trivial (.reserve _ 30 0 none)
  have hCredit :=
    Reach.step ClientOp.credit hSecond trivial
      (.credit _ true (show ⟨40, false, 0⟩ ∈ _ by decide +kernel) rfl)
  refine ⟨hThreshold, _, ?_, ?_, debt_within_threshold hThreshold hCredit⟩
  · decide +kernel
  · decide +kernel

end Sana.Accounts
