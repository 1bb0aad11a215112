import Sana.KeyValue.Index
import Sana.Settlement.Funds
import Sana.Settlement.Swap

/-
  Payments from one node to another.

  The payee tells its exchange rate and a deduction in the headers of a stream.  The payer checks
  them and sends a cheque over the amount in tokens, which the payee turns back into the amount in
  accounting units.

  Key definitions include:
    * `makeSettlementHeaders`
    * `Headers.agreedRates`

  Key theorems include:
    * `agreedRates_transported`
-/

---- Settlement Headers

namespace Sana.Settlement

variable {parties : Parties} {x : Exchange} {nodes : Nodes}

section

open KeyValue

/- The header fields of a stream; `none` is a nil field. -/
structure Headers where
  exchange : Option (List UInt8)
  deduction : Option (List UInt8)
  deriving DecidableEq, Repr

inductive HeaderErr where
  /- `ErrNoExchangeHeader`: "no exchange header" -/
  | noExchangeHeader
  /- `ErrNoDeductionHeader`: "no deduction header" -/
  | noDeductionHeader
  deriving DecidableEq, Repr

def makeSettlementHeaders (exchangeRate deduction : Nat) : Headers where
  exchange := some (natBytes exchangeRate)
  deduction := some (natBytes deduction)

namespace Headers

def empty : Headers :=
  ⟨none, none⟩

/- An empty field is not sent, and is nil on arrival. -/
def arrive : List UInt8 → Option (List UInt8)
| [] => none
| byte :: bytes => some (byte :: bytes)

def transport (h : Headers) : Headers where
  exchange := h.exchange.bind arrive
  deduction := h.deduction.bind arrive

def parseExchangeHeader (h : Headers) : Except HeaderErr Nat :=
  match h.exchange with
  | none => .error .noExchangeHeader
  | some bytes => .ok (fromBigEndian bytes)

def parseDeductionHeader (h : Headers) : Except HeaderErr Nat :=
  match h.deduction with
  | none => .error .noDeductionHeader
  | some bytes => .ok (fromBigEndian bytes)

/- `ParseSettlementResponseHeaders` as both sides use it: no deduction header means no deduction. -/
def agreedRates (h : Headers) : Except HeaderErr (Nat × Nat) :=
  match h.parseExchangeHeader with
  | .error e => .error e
  | .ok exchangeRate =>
    match h.parseDeductionHeader with
    | .error _ => .ok (exchangeRate, 0)
    | .ok deduction => .ok (exchangeRate, deduction)

end Headers

theorem agreedRates_makeSettlementHeaders :
    (makeSettlementHeaders exchangeRate deduction).agreedRates = .ok (exchangeRate, deduction) := by
  unfold Headers.agreedRates Headers.parseExchangeHeader
    Headers.parseDeductionHeader makeSettlementHeaders
  simp only [fromBigEndian_natBytes]

theorem arrive_natBytes :
    Headers.arrive (natBytes n) = if n = 0 then none else some (natBytes n) := by
  have hNil := natBytes_eq_nil_iff n
  cases hBytes : natBytes n with
  | nil =>
    rw [if_pos (hNil.mp hBytes)]
    rfl
  | cons byte bytes =>
    have hNe : n ≠ 0 := by
      intro hZero
      rw [hNil.mpr hZero] at hBytes
      cases hBytes
    rw [if_neg hNe]
    rfl

/- The payer reads what the payee wrote, if the rate is not
   zero; a zero rate cannot be read at all. -/
theorem agreedRates_transported :
    (makeSettlementHeaders exchangeRate deduction).transport.agreedRates =
      if exchangeRate = 0 then .error .noExchangeHeader
      else .ok (exchangeRate, deduction) := by
  have hHeaders :
      (makeSettlementHeaders exchangeRate deduction).transport = ⟨if exchangeRate = 0 then none
          else some (natBytes exchangeRate),
          if deduction = 0 then none
          else some (natBytes deduction)⟩ := by
    rw [← arrive_natBytes, ← arrive_natBytes]
    rfl
  unfold Headers.agreedRates Headers.parseExchangeHeader Headers.parseDeductionHeader
  rw [hHeaders]
  by_cases hRate : exchangeRate = 0
  · rw [if_pos hRate, if_pos hRate]
  · rw [if_neg hRate, if_neg hRate]
    by_cases hDeduction : deduction = 0
    · simp only [if_pos hDeduction, fromBigEndian_natBytes]
      rw [hDeduction]
    · simp only [if_neg hDeduction, fromBigEndian_natBytes]

end

---- The Payer

section

open KeyValue Program Swarm

inductive EmitErr where
  | header (err : HeaderErr)
  /- `ErrHaveDeduction` -/
  | haveDeduction
  /- the error of `CurrentRates` -/
  | currentRates
  /- `ErrNegotiateRate` -/
  | negotiateRate
  /- `ErrNegotiateDeduction` -/
  | negotiateDeduction
  | issue (err : IssueErr)
  deriving DecidableEq, Repr

inductive PayErr where
  /- `ErrUnknownBeneficary` -/
  | unknownBeneficiary
  | emit (err : EmitErr)
  deriving DecidableEq, Repr

/- A call of `NotifyPaymentSent`. -/
structure PaymentSent where
  amount : Int
  err : Option PayErr
  deriving DecidableEq, Repr

/- The clock is not read. -/
def noClock : Clock :=
  fun _ => 0

namespace Payer

/- The checks of `EmitCheque` before a cheque is issued. -/
def checkRates (p : Payer) (peer : Address) (headers : Headers)
    (currentRates : Option (Nat × Nat)) : Except EmitErr (Nat × Nat) :=
  match headers.agreedRates with
  | .error e => .error (.header e)
  | .ok (exchangeRate, deduction) =>
    if p.book.getDeductionBy peer = true ∧ deduction ≠ 0 then .error .haveDeduction
    else
      match currentRates with
      | none => .error .currentRates
      | some (checkExchangeRate, checkDeduction) =>
        if exchangeRate ≠ checkExchangeRate then .error .negotiateRate
        else if deduction ≠ checkDeduction ∧ deduction ≠ 0 then .error .negotiateDeduction
        else .ok (exchangeRate, deduction)

/- The error of `EmitCheque`, if any, and the payer after. -/
def emitCheque (address : EthAddress) (env : IssueEnv) (peer : Address) (beneficiary : EthAddress)
    (amount : Int) (headers : Headers) (currentRates : Option (Nat × Nat))
    (p : Payer) : Option EmitErr × Payer :=
  match p.checkRates peer headers currentRates with
  | .error e => (some e, p)
  | .ok (exchangeRate, deduction) =>
    let sentAmount := amount * exchangeRate + deduction
    let outcome := (Chequebook.issue address env beneficiary sentAmount).run noClock p
    match outcome.value with
    | .error e => (some (.issue e), outcome.state)
    | .ok _ =>
      if deduction ≠ 0 then
        (none,
          { outcome.state with
            book := ((Book.addDeductionBy peer).run Routine.never outcome.state.book).state })
      else (none, outcome.state)

/- `Pay`: what the accounting is told, and the payer after. -/
def pay (address : EthAddress) (env : IssueEnv) (peer : Address) (amount : Int) (headers : Headers)
    (currentRates : Option (Nat × Nat)) (p : Payer) : PaymentSent × Payer :=
  match p.book.beneficiary peer with
  | none => (⟨amount, some .unknownBeneficiary⟩, p)
  | some beneficiary =>
    let emitted := p.emitCheque address env peer beneficiary amount headers currentRates
    (⟨amount, emitted.1.map .emit⟩, emitted.2)

end Payer

section

variable {address : EthAddress} {env : IssueEnv}
variable {b : EthAddress} {amount available : Int}
variable {p : Payer} {clock : Clock}

theorem run_availableBalance : ((Chequebook.availableBalance env).run clock p).state =
      p := by
  unfold Chequebook.availableBalance
  rw [Call.run_bind]
  by_cases hBalance : env.balance = false
  · rw [if_pos hBalance]
    rfl
  rw [if_neg hBalance, Call.run_bind]
  by_cases hPaid : env.totalPaidOut = false
  · rw [if_pos hPaid]
    rfl
  rw [if_neg hPaid]
  rfl

/- A reservation changes the reserved total only. -/
theorem run_reserveTotalIssued :
    ∃ reserved,
      ((Chequebook.reserveTotalIssued env amount).run clock
        p).state = { p with totalIssuedReserved := reserved } := by
  unfold Chequebook.reserveTotalIssued
  rw [Call.run_bind, Call.run_bind]
  have hState : ((Chequebook.availableBalance env).run clock p).state = p := run_availableBalance
  change ∃ reserved, (Call.run (match ((Chequebook.availableBalance env).run clock p).value with
      | .error e => _
      | .ok available => _ : Call Payer _) _
    ((Chequebook.availableBalance env).run clock p).state).state = _
  rw [hState]
  split
  · exact ⟨p.totalIssuedReserved, rfl⟩
  · rw [Call.run_bind]
    split
    · exact ⟨p.totalIssuedReserved, rfl⟩
    · exact ⟨_, rfl⟩

/- A cheque that was issued continues the last one. -/
theorem run_issueReserved_ok (hOk :
      ∃ v, ((Chequebook.issueReserved address env b amount available).run clock p).value = .ok v) :
    let p' := ((Chequebook.issueReserved address env b amount available).run clock p).state
    ∃ signed : SignedCheque,
      signed.toCheque = ⟨address, b, p.lastPayout b + amount⟩ ∧
        p'.sent = p.sent ++ [(signed, amount)] ∧
        p'.lastIssued = p.lastIssued.put b signed.toCheque ∧ p'.book = p.book := by
  obtain ⟨v, hOk⟩ := hOk
  unfold Chequebook.issueReserved at hOk ⊢
  rw [Call.run_bind] at hOk ⊢
  dsimp only [Call.run_get] at hOk ⊢
  split at hOk
  · cases hOk
  next signature _ =>
  split at hOk
  · cases hOk
  next hSend =>
  refine ⟨⟨⟨address, b, p.lastPayout b + amount⟩, signature⟩, rfl, ?_⟩
  rw [if_neg hSend]
  exact ⟨rfl, rfl, rfl⟩

theorem run_issue_ok
    (hOk : ((Chequebook.issue address env b amount).run clock p).value = .ok available) :
    let p' := ((Chequebook.issue address env b amount).run clock p).state
    ∃ signed : SignedCheque,
      signed.toCheque = ⟨address, b, p.lastPayout b + amount⟩ ∧
        p'.sent = p.sent ++ [(signed, amount)] ∧
        p'.lastIssued = p.lastIssued.put b signed.toCheque ∧ p'.book = p.book := by
  unfold Chequebook.issue at hOk ⊢
  rw [Call.run_bind] at hOk ⊢
  obtain ⟨reserved, hReserve⟩ := run_reserveTotalIssued
  rw [hReserve] at hOk ⊢
  cases hValue : ((Chequebook.reserveTotalIssued env amount).run clock p).value with
  | error e =>
    rw [hValue] at hOk
    cases hOk
  | ok free =>
    rw [hValue] at hOk
    rw [Call.run_bind] at hOk
    rw [Call.run_bind]
    exact run_issueReserved_ok ⟨available, hOk⟩

end

end

---- Exchanges

section

open Accounts KeyValue Program Swarm

namespace SwapState

/- The headers with which the payee answers. -/
def headler (sw : SwapState) (peer : Address) (currentRates : Option (Nat × Nat)) : Headers :=
  match currentRates with
  | none => .empty
  | some (exchangeRate, deduction) =>
    makeSettlementHeaders exchangeRate (if sw.book.getDeductionFor peer then 0 else deduction)

/- The payee receives a cheque on a stream whose headers it
   has written itself. -/
def handler (s : ChequeStore) (reads : ChainReads) (fails : SwapAccess → Bool) (peer : Address)
    (headers : Headers) (cheque : SignedCheque) (sw : SwapState) :
    Except HeaderErr (Ended SwapState SwapAccess SwapErr Unit) :=
  headers.agreedRates.map fun rates =>
    (Swap.receiveCheque s reads peer cheque rates.1 rates.2).run fails sw

end SwapState

/- Two nodes, with their overlay addresses and the chequebook
   of the payer. -/
structure Parties where
  store : ChequeStore
  chequebook : EthAddress
  payerPeer : Address
  payeePeer : Address

structure Nodes where
  payer : Payer
  payee : SwapState

/- All that one exchange gets from outside. -/
structure Exchange where
  amount : Int
  payeeRates : Option (Nat × Nat)
  payerRates : Option (Nat × Nat)
  env : IssueEnv
  reads : ChainReads
  fails : SwapAccess → Bool

namespace Exchange

variable (parties : Parties) (x : Exchange) (nodes : Nodes)

def headers : Headers :=
  nodes.payee.headler parties.payerPeer x.payeeRates

/- What the payer does. -/
def paid : PaymentSent × Payer :=
  nodes.payer.pay parties.chequebook x.env parties.payeePeer
    x.amount (x.headers parties nodes).transport x.payerRates

/- What the payee does with a cheque. -/
def handled (cheque : SignedCheque) : Except HeaderErr (Ended SwapState SwapAccess SwapErr Unit) :=
  nodes.payee.handler parties.store x.reads x.fails
    parties.payerPeer (x.headers parties nodes) cheque

end Exchange

inductive PaymentLabel where
  | exchange (x : Exchange)
  | other

/-
  An exchange that succeeds on both sides, or anything else that leaves the cheques between the two
  nodes alone.
-/
inductive ExchangeStep (parties : Parties) : PaymentLabel → Nodes → Nodes → Prop where
  | exchange {x : Exchange} {nodes : Nodes} {cheque : SignedCheque} (sentAmount : Int)
      {ended : Ended SwapState SwapAccess SwapErr Unit}
      (hPaid : (x.paid parties nodes).1.err = none)
      (hSent : (x.paid parties nodes).2.sent = nodes.payer.sent ++ [(cheque, sentAmount)])
      (hHandled : x.handled parties nodes cheque = .ok ended) (hOk : ended.result = .ok ()) :
      ExchangeStep parties (.exchange x) nodes ⟨(x.paid parties nodes).2, ended.state⟩
  | other {nodes nodes' : Nodes}
      (hPayer :
        nodes'.payer.lastPayout parties.store.beneficiary =
          nodes.payer.lastPayout parties.store.beneficiary)
      (hPayee :
        payoutOf nodes'.payee.cheques parties.chequebook =
          payoutOf nodes.payee.cheques parties.chequebook) :
      ExchangeStep parties .other nodes nodes'

/- Both nodes have the same last cheque. -/
def Matched (parties : Parties) (nodes : Nodes) : Prop :=
  nodes.payer.lastPayout parties.store.beneficiary = payoutOf nodes.payee.cheques parties.chequebook

theorem agreedRates_of_checkRates {p : Payer}
    (hOk : p.checkRates peer headers currentRates = .ok rates) :
    headers.agreedRates = .ok rates := by
  unfold Payer.checkRates at hOk
  cases hAgreed : headers.agreedRates with
  | error e =>
    rw [hAgreed] at hOk
    cases hOk
  | ok agreed =>
    rw [hAgreed] at hOk
    dsimp only at hOk
    split at hOk
    · cases hOk
    split at hOk
    · cases hOk
    split at hOk
    · cases hOk
    split at hOk
    · cases hOk
    exact congrArg Except.ok (Except.ok.inj hOk)

/- A cheque that was emitted is over the agreed amount. -/
theorem emitCheque_spec {p : Payer}
    (hNone : (p.emitCheque address env peer b amount headers currentRates).1 = none) :
    let p' := (p.emitCheque address env peer b amount headers currentRates).2
    ∃ (exchangeRate deduction : Nat) (signed : SignedCheque),
      headers.agreedRates = .ok (exchangeRate, deduction) ∧
        signed.toCheque = ⟨address, b, p.lastPayout b + (amount * exchangeRate + deduction)⟩ ∧
        p'.sent = p.sent ++ [(signed, amount * exchangeRate + deduction)] ∧
        p'.lastIssued = p.lastIssued.put b signed.toCheque := by
  unfold Payer.emitCheque at hNone ⊢
  cases hRates : p.checkRates peer headers currentRates with
  | error e =>
    rw [hRates] at hNone
    cases hNone
  | ok rates =>
    rw [hRates] at hNone
    dsimp only at hNone ⊢
    split at hNone
    · cases hNone
    next available hIssued =>
  obtain ⟨signed, hCheque, hSent, hLast, -⟩ := run_issue_ok hIssued
  refine ⟨rates.1, rates.2, signed, agreedRates_of_checkRates hRates, hCheque, ?_⟩
  split
  · exact ⟨hSent, hLast⟩
  · exact ⟨hSent, hLast⟩

/- The payer goes by the rates that the payee has written. -/
theorem agreedRates_headler {sw : SwapState}
    (hOk : (sw.headler peer currentRates).transport.agreedRates = .ok rates) :
    rates.1 ≠ 0 ∧ (sw.headler peer currentRates).agreedRates = .ok rates := by
  unfold SwapState.headler at hOk ⊢
  cases currentRates with
  | none => cases hOk
  | some current =>
    rw [agreedRates_transported] at hOk
    split at hOk
    · cases hOk
    next hRate =>
  cases hOk
  exact ⟨hRate, agreedRates_makeSettlementHeaders⟩

/- A payment that succeeds has sent the agreed cheque. -/
theorem paid_spec (hPaid : (x.paid parties nodes).1.err = none) :
    ∃ (exchangeRate deduction : Nat) (signed : SignedCheque),
      exchangeRate ≠ 0 ∧ (x.headers parties nodes).agreedRates = .ok (exchangeRate, deduction) ∧
        signed.chequebook = parties.chequebook ∧
        signed.cumulativePayout =
          nodes.payer.lastPayout signed.beneficiary + (x.amount * exchangeRate + deduction) ∧
        (x.paid parties nodes).2.sent =
          nodes.payer.sent ++ [(signed, x.amount * exchangeRate + deduction)] ∧
        (x.paid parties nodes).2.lastPayout signed.beneficiary = signed.cumulativePayout := by
  unfold Exchange.paid Payer.pay at hPaid ⊢
  cases hBeneficiary : nodes.payer.book.beneficiary parties.payeePeer with
  | none =>
    rw [hBeneficiary] at hPaid
    cases hPaid
  | some b =>
    rw [hBeneficiary] at hPaid
    rw [Option.map_eq_none_iff] at hPaid
    obtain ⟨rate, deduction, signed, hAgreed, hCheque, hSent, hLast⟩ := emitCheque_spec hPaid
    obtain ⟨hRate, hHeaders⟩ := agreedRates_headler hAgreed
    have hB : signed.beneficiary = b := congrArg Cheque.beneficiary hCheque
    refine ⟨rate, deduction, signed, hRate, hHeaders,
      congrArg Cheque.chequebook hCheque, ?_, hSent, ?_⟩
    · rw [hB]
      exact congrArg Cheque.cumulativePayout hCheque
    · unfold Payer.lastPayout
      rw [hLast, hB, Index.get_put_self]

/- What the payee has done with a cheque that it accepted. -/
theorem handled_spec
    (hRates : (x.headers parties nodes).agreedRates = .ok rates) (hRate : rates.1 ≠ 0)
    (hHandled : x.handled parties nodes cheque = .ok ended) (hOk : ended.result = .ok ()) :
    cheque.beneficiary = parties.store.beneficiary ∧
      ended.state.cheques = nodes.payee.cheques.put cheque.chequebook cheque ∧
      (Payment.notifyPaymentReceived
        ((cheque.cumulativePayout - payoutOf nodes.payee.cheques cheque.chequebook -
          rates.2) / rates.1)).run Routine.never (nodes.payee.accounts parties.payerPeer) =
        ⟨.ok (), ended.state.accounts parties.payerPeer⟩ := by
  have hLate : ∀ site : SwapAccess, site.late = true → Routine.never site = false := fun _ _ => rfl
  unfold Exchange.handled SwapState.handler at hHandled
  rw [hRates] at hHandled
  cases hHandled
  dsimp only at hOk ⊢
  have hSame := Routine.run_eq_of_ok hOk
  rw [← hSame] at hOk ⊢
  rcases swap_receiveCheque_cases parties.store x.reads
      parties.payerPeer cheque rates.1 rates.2 Routine.never nodes.payee with ⟨e, hError, -⟩ |
    ⟨received, hBeneficiary, hAccepts, -, hEnded⟩
  · cases hOk.symm.trans hError
  · have hRateInt : (rates.1 : Int) ≠ 0 := by omega
    rw [hEnded] at hOk ⊢
    rw [run_creditCheque hLate _ _ _ _ hRateInt] at hOk ⊢
    dsimp only at hOk ⊢
    refine ⟨hBeneficiary, rfl, ?_⟩
    rw [Function.update_self, ← hAccepts.value]
    generalize Routine.run Routine.never (Payment.notifyPaymentReceived _)
      (nodes.payee.accounts parties.payerPeer) = paid at hOk ⊢
    obtain ⟨result, state⟩ := paid
    cases result with
    | ok value => rfl
    | error e => cases hOk

end

---- Agreement

open Accounts KeyValue Program Swarm

variable {nodes' : Nodes}

/- The payee is credited the amount that the payer paid. -/
theorem ExchangeStep.credited (hMatched : Matched parties nodes)
    (hStep : ExchangeStep parties (.exchange x) nodes nodes') :
    Matched parties nodes' ∧
      (Payment.notifyPaymentReceived x.amount).run Routine.never
          (nodes.payee.accounts parties.payerPeer) =
        ⟨.ok (), nodes'.payee.accounts parties.payerPeer⟩ := by
  cases hStep with
  | exchange sentAmount hPaid hSent hHandled hOk =>
    obtain ⟨rate, deduction, signed, hRate, hHeaders, hBook,
      hPayout, hOwn, hLast⟩ := paid_spec hPaid
    rw [hOwn] at hSent
    obtain rfl : signed = _ :=
      congrArg Prod.fst (List.singleton_inj.mp (List.append_cancel_left hSent))
    obtain ⟨hBeneficiary, hCheques, hCredited⟩ := handled_spec hHeaders hRate hHandled hOk
    unfold Matched at hMatched ⊢
    rw [hBeneficiary] at hPayout hLast
    have hRateInt : (rate : Int) ≠ 0 := by omega
    have hAmount :
        (signed.cumulativePayout - payoutOf nodes.payee.cheques signed.chequebook -
            deduction) / rate = x.amount := by
      have hValue :
          signed.cumulativePayout - payoutOf nodes.payee.cheques signed.chequebook - deduction =
            x.amount * rate := by
        rw [hPayout, hBook, hMatched]
        ring
      rw [hValue]
      exact Int.mul_ediv_cancel _ hRateInt
    constructor
    · rw [hLast, hCheques, ← hBook, payoutOf_put, if_pos rfl]
    · rw [← hAmount]
      exact hCredited

theorem ExchangeStep.matched (hMatched : Matched parties nodes)
    (hStep : ExchangeStep parties label nodes nodes') : Matched parties nodes' := by
  cases label with
  | exchange x => exact (hStep.credited hMatched).1
  | other =>
    cases hStep with
    | other hPayer hPayee =>
      unfold Matched at hMatched ⊢
      rw [hPayer, hPayee]
      exact hMatched

/-
  In every sequence of exchanges that succeed, the amount that the payer reports as sent is the one
  that the payee reports as received.
-/
theorem payer_payee_agree {start : Nodes}
    (hPayer : start.payer.lastIssued.get parties.store.beneficiary = none)
    (hPayee : start.payee.cheques.get parties.chequebook = none)
    (hReach : Reach (ExchangeStep parties) (fun _ _ => True) start nodes)
    (hStep : ExchangeStep parties (.exchange x) nodes nodes') :
    let sent := (x.paid parties nodes).1.amount
    let before := nodes.payee.accounts parties.payerPeer
    let after := nodes'.payee.accounts parties.payerPeer
    sent = x.amount ∧
      (Payment.notifyPaymentReceived sent).run Routine.never before = ⟨.ok (), after⟩ ∧
      after.getBalance - after.surplus = before.getBalance - before.surplus - sent := by
  have hStart : Matched parties start := by
    unfold Matched Payer.lastPayout payoutOf
    rw [hPayer, hPayee]
  have hMatched : Matched parties nodes :=
    hReach.invariant (Matched parties) hStart (fun _ _ _ hBefore _ hStep => hStep.matched hBefore)
  have hSent : (x.paid parties nodes).1.amount = x.amount := by
    unfold Exchange.paid Payer.pay
    split <;> rfl
  have hCredited := (hStep.credited hMatched).2
  rw [hSent]
  refine ⟨rfl, hCredited, ?_⟩
  have hEffect := (notifyPaymentReceived_credits (nodes.payee.accounts parties.payerPeer)
    x.amount).compensated
  rw [hCredited] at hEffect
  exact hEffect rfl

/- Node 1 pays node 2, whose beneficiary is 9. -/
def twoNodes : Parties where
  store := trustingStore
  chequebook := 7
  payerPeer := 1
  payeePeer := 2

def twoNodesStart : Nodes where
  payer := { hundred with book := ((Book.handshake 2 9).run Routine.never hundred.book).state }
  payee := newSwap

def plainExchange (amount : Int) (exchangeRate deduction : Nat) : Exchange where
  amount := amount
  payeeRates := some (exchangeRate, deduction)
  payerRates := some (exchangeRate, deduction)
  env := willing
  reads := ⟨true, true, some 1000, some 0⟩
  fails := Routine.never

/- The nodes after an exchange over a cheque. -/
def afterExchange (x : Exchange) (cheque : SignedCheque) (nodes : Nodes) : Nodes where
  payer := (x.paid twoNodes nodes).2
  payee :=
    match x.handled twoNodes nodes cheque with
    | .ok ended => ended.state
    | .error _ => nodes.payee

/- A payment of 10 with a deduction, and then one of 4 at
   another rate. -/
theorem payer_payee_agree_twice :
    let first := plainExchange 10 3 5
    let second := plainExchange 4 2 5
    let nodes := afterExchange first (plainCheque 35) twoNodesStart
    let nodes' := afterExchange second (plainCheque 43) nodes
    let before := nodes.payee.accounts 1
    let after := nodes'.payee.accounts 1
    after.getBalance - after.surplus = before.getBalance - before.surplus - 4 := by
  have hFirst :
      ExchangeStep twoNodes (.exchange (plainExchange 10 3 5)) twoNodesStart
        (afterExchange (plainExchange 10 3 5) (plainCheque 35) twoNodesStart) :=
    .exchange 35 (by decide +kernel) (by decide +kernel) rfl (by decide +kernel)
  have hSecond :
      ExchangeStep twoNodes (.exchange (plainExchange 4 2 5))
        (afterExchange (plainExchange 10 3 5) (plainCheque 35) twoNodesStart)
        (afterExchange (plainExchange 4 2 5) (plainCheque 43)
          (afterExchange (plainExchange 10 3 5) (plainCheque 35) twoNodesStart)) :=
    .exchange 8 (by decide +kernel) (by decide +kernel) rfl (by decide +kernel)
  exact (payer_payee_agree rfl rfl (Reach.start.step _ trivial hFirst) hSecond).2.2

end Sana.Settlement
