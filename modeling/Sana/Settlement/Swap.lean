import Sana.Accounting.Account
import Sana.Settlement.ChequeStore

/-
  The swap service: receiving cheques and handshakes.

  A cheque that is received goes through the addressbook, the store of cheques and the accounting.
  Each of them may fail, and nothing that an earlier one has stored is taken back.

  Key definitions include:
    * `Payment.notifyPaymentReceived`
    * `Swap.receiveCheque`

  Key theorems include:
    * `swap_receiveCheque_cases`
-/

---- Received Payments

namespace Sana

namespace Accounts

open Program

/- An access to the stored balances of a peer. -/
inductive AccountAccess where
  | getBalance
  | getSurplusBalance
  | putBalance
  | putSurplusBalance
  deriving DecidableEq, Repr

abbrev PaymentCall (α : Type) :=
  Routine PeerAccount AccountAccess AccountingErr α

namespace Payment

def surplusBalance : PaymentCall Int := do
  let stored ← Routine.get .getSurplusBalance PeerAccount.getSurplus
  Routine.ofExcept stored

/- Add to the surplus balance. -/
def creditSurplus (growth : Int) : PaymentCall Unit := do
  let surplus ← surplusBalance
  Routine.set .putSurplusBalance fun p => { p with surplusBalance := some (surplus + growth) }

/- `NotifyPaymentReceived`, with every access to the store. -/
def notifyPaymentReceived (amount : Int) : PaymentCall Unit := do
  let currentBalance ← Routine.get .getBalance PeerAccount.getBalance
  if currentBalance ≤ 0 then creditSurplus amount
  else do
    let newBalance := currentBalance - amount
    Routine.set .putBalance fun p =>
      { p with balance := some (if newBalance < 0 then 0 else newBalance) }
    -- what is above the balance goes to the surplus
    (creditSurplus (amount - currentBalance)).when (newBalance < 0)

end Payment

variable {p : PeerAccount}

theorem run_creditSurplus :
    (Payment.creditSurplus growth).run Routine.never p = match p.getSurplus with
      | .error e => ⟨.error (.error e), p⟩
      | .ok surplus =>
        ⟨.ok (),
          { p with
            surplusBalance := some (surplus + growth) }⟩ := by
  unfold Payment.creditSurplus Payment.surplusBalance
  rw [Routine.run_bind, Routine.run_get_bind]
  cases p.getSurplus <;> rfl

/- What is added to the balances of a peer. -/
structure Credits (p : PeerAccount) (amount : Int)
    (ended : Ended PeerAccount AccountAccess AccountingErr Unit) : Prop where
  compensated :
    ended.result = .ok () →
      ended.state.getBalance - ended.state.surplus = p.getBalance - p.surplus - amount
  succeeds : 0 ≤ p.surplus → ended.result = .ok ()

theorem creditSurplus_credits (p : PeerAccount) (growth : Int) :
    Credits p growth ((Payment.creditSurplus growth).run Routine.never p) := by
  rw [run_creditSurplus]
  constructor
  · intro hOk
    cases hGet : p.getSurplus with
    | error e =>
      rw [hGet] at hOk
      cases hOk
    | ok surplus =>
      have hSurplus := (PeerAccount.surplus_of_getSurplus hGet).1
      change p.getBalance - (surplus + growth) = _
      omega
  · intro hSurplus
    rw [PeerAccount.getSurplus_eq hSurplus]

/- A payment that was received is added in full. -/
theorem notifyPaymentReceived_credits (p : PeerAccount) (amount : Int) :
    Credits p amount ((Payment.notifyPaymentReceived amount).run Routine.never p) := by
  unfold Payment.notifyPaymentReceived
  rw [Routine.run_get_bind, Routine.never, if_neg Bool.false_ne_true]
  by_cases hDebt : p.getBalance ≤ 0
  · rw [if_pos hDebt]
    exact creditSurplus_credits p amount
  · rw [if_neg hDebt]
    rw [Routine.run_set_bind, Routine.never, if_neg Bool.false_ne_true, Routine.run_when]
    by_cases hLess : p.getBalance - amount < 0
    · rw [if_pos (decide_eq_true hLess), if_pos hLess]
      -- the balance is paid, the rest is left for the surplus
      have hRest := creditSurplus_credits { p with balance := some 0 } (amount - p.getBalance)
      constructor
      · intro hOk
        refine (hRest.compensated hOk).trans ?_
        change 0 - p.surplus - (amount - p.getBalance) = _
        omega
      · exact hRest.succeeds
    · rw [if_neg (by simpa using hLess), if_neg hLess]
      constructor
      · intro _
        change p.getBalance - amount - p.surplus = _
        omega
      · exact fun _ => rfl

end Accounts

---- Receiving Cheques

namespace Settlement

open Accounts KeyValue Program Swarm

variable {s : ChequeStore}

/- What the swap service of a node works on. -/
structure SwapState where
  book : Addressbook
  cheques : LastCheques
  accounts : Address → PeerAccount

inductive SwapAccess where
  | book (access : BookAccess)
  | cheques (access : ChequeAccess)
  | account (access : AccountAccess)
  deriving DecidableEq, Repr

inductive SwapErr where
  /- `ErrWrongChequebook` -/
  | wrongChequebook
  | book (err : BookErr)
  /- "rejecting cheque: ..." -/
  | rejecting (err : ChequeErr)
  | accounting (err : AccountingErr)
  /- The panic of a division by zero; nothing is returned. -/
  | divisionByZero
  deriving DecidableEq, Repr

abbrev SwapCall (α : Type) :=
  Routine SwapState SwapAccess SwapErr α

namespace SwapState

def bookPart : Part SwapState Addressbook where
  focus sw := sw.book
  replace book sw := { sw with book := book }
  focus_replace _ _ := rfl
  replace_replace _ _ _ := rfl
  replace_focus _ := rfl

def chequesPart : Part SwapState LastCheques where
  focus sw := sw.cheques
  replace cheques sw := { sw with cheques := cheques }
  focus_replace _ _ := rfl
  replace_replace _ _ _ := rfl
  replace_focus _ := rfl

def accountPart (peer : Address) : Part SwapState PeerAccount where
  focus sw := sw.accounts peer
  replace account sw :=
    { sw with accounts := Function.update sw.accounts peer account }
  focus_replace _ _ := Function.update_self ..
  replace_replace _ _ _ := by rw [Function.update_idem]
  replace_focus _ := by rw [Function.update_eq_self]

end SwapState

namespace Swap

variable {α : Type}

def inBook (call : BookCall α) : SwapCall α :=
  call.within SwapState.bookPart .book .book

def inAccount (peer : Address) (call : PaymentCall α) : SwapCall α :=
  call.within (SwapState.accountPart peer) .account .accounting

/- `Div` of `big.Int` is the Euclidean division. -/
def divide (x y : Int) : SwapCall Int :=
  if y = 0 then .fail .divisionByZero else return x / y

/- `ReceiveCheque` after the cheque has been stored. -/
def creditCheque (peer : Address) (chequebook : EthAddress) (exchangeRate deduction : Int)
    (known : Bool) (receivedAmount : Int) : SwapCall Unit := do
  (inBook (Book.addDeductionFor peer)).when (0 < deduction)
  let decreasedAmount := receivedAmount - deduction
  let amount ← divide decreasedAmount exchangeRate
  (inBook (Book.putChequebook peer chequebook)).when (!known)
  inAccount peer (Payment.notifyPaymentReceived amount)

def receiveCheque (s : ChequeStore) (reads : ChainReads) (peer : Address) (cheque : SignedCheque)
    (exchangeRate deduction : Int) : SwapCall Unit := do
  let expectedChequebook ← inBook (Book.chequebook peer)
  if expectedChequebook.any (· ≠ cheque.chequebook) then .fail .wrongChequebook
  else do
    let receivedAmount ←
      (s.receiveCheque reads cheque exchangeRate
        deduction).within SwapState.chequesPart .cheques .rejecting
    creditCheque peer cheque.chequebook exchangeRate deduction
      expectedChequebook.isSome receivedAmount

def handshake (peer : Address) (beneficiary : EthAddress) : SwapCall Unit :=
  inBook (Book.handshake peer beneficiary)

end Swap

/- An access after the cheque has been stored. -/
def SwapAccess.late : SwapAccess → Bool
| .book (.put _) => true
| .account _ => true
| _ => false

namespace Addressbook

def withDeductionFor (book : Addressbook) (peer : Address) : Addressbook :=
  { book with deductedForPeerIndex := book.deductedForPeerIndex.put peer () }

/- The addressbook after a cheque has been credited. -/
def afterCheque (book : Addressbook) (peer : Address) (chequebook : EthAddress) (deduction : Int)
    (known : Bool) : Addressbook :=
  let flagged := if 0 < deduction then book.withDeductionFor peer else book
  if known then flagged
  else flagged.withChequebook peer chequebook

end Addressbook

---- What A Received Cheque Does

section

variable {reads : ChainReads}
variable {peer : Address} {cheque : SignedCheque}
variable {exchangeRate deduction : Int}

section

variable {fails : SwapAccess → Bool}
variable (hLate : ∀ site, site.late = true → fails site = false)

include hLate

theorem run_whenDeducted (sw : SwapState) (deducted : Bool) :
    ((Swap.inBook (Book.addDeductionFor peer)).when deducted).run fails sw = ⟨.ok (),
        { sw with
          book := if deducted then
            sw.book.withDeductionFor peer else sw.book }⟩ := by
  have hPut := hLate (.book (.put .deductedForPeer)) rfl
  unfold Swap.inBook Book.addDeductionFor
  rw [Routine.run_when, Routine.run_within, Routine.run_set, hPut]
  cases deducted <;> rfl

section

variable (sw : SwapState) (c : EthAddress)

theorem run_whenUnknown (unknown : Bool) :
    ((Swap.inBook (Book.putChequebook peer c)).when unknown).run fails sw = ⟨.ok (),
        { sw with
          book := if unknown then
            sw.book.withChequebook peer c else sw.book }⟩ := by
  have hPeer := hLate (.book (.put .peer)) rfl
  have hBack := hLate (.book (.put .peerChequebook)) rfl
  unfold Swap.inBook Book.putChequebook
  rw [Routine.run_when, Routine.run_within, Routine.run_set_bind, Routine.run_set, hPeer, hBack]
  cases unknown <;> rfl

/- The end of a call, if no access after the store fails. -/
theorem run_creditCheque (known : Bool) (received : Int) (hRate : exchangeRate ≠ 0) :
    (Swap.creditCheque peer c exchangeRate deduction known received).run fails sw =
      let paid :=
        (Payment.notifyPaymentReceived
          ((received - deduction) / exchangeRate)).run Routine.never (sw.accounts peer)
      ⟨paid.result.mapError (Failure.rename .account .accounting),
        { sw with
          book := sw.book.afterCheque peer c deduction known
          accounts :=
            Function.update sw.accounts peer paid.state }⟩ := by
  have hNever : (fun site => fails (.account site)) = Routine.never := by
    funext site
    exact hLate _ rfl
  unfold Swap.creditCheque Swap.divide
  rw [Routine.run_bind, run_whenDeducted hLate]
  dsimp only
  rw [if_neg hRate, Routine.run_bind, Routine.run_pure]
  dsimp only
  rw [Routine.run_bind, run_whenUnknown hLate]
  unfold Swap.inAccount Addressbook.afterCheque
  rw [Routine.run_within, hNever]
  simp only [decide_eq_true_eq]
  cases known <;> rfl

/- A division by zero ends the call before the chequebook
   of the peer is stored. -/
theorem run_creditCheque_zero (known : Bool) (received : Int) :
    (Swap.creditCheque peer c 0 deduction known received).run fails sw =
      ⟨.error (.error .divisionByZero),
        { sw with
          book := sw.book.afterCheque peer c deduction true }⟩ := by
  unfold Swap.creditCheque Swap.divide
  rw [Routine.run_bind, run_whenDeducted hLate]
  simp only [decide_eq_true_eq]
  rfl

end

end

/- A call stores nothing and fails, or it stores the cheque and goes on with the credit. -/
theorem swap_receiveCheque_cases (s : ChequeStore) (reads : ChainReads) (peer : Address)
    (cheque : SignedCheque) (exchangeRate deduction : Int) (fails : SwapAccess → Bool)
    (sw : SwapState) :
    let ended := (Swap.receiveCheque s reads peer cheque exchangeRate deduction).run fails sw
    (∃ e, ended.result = .error e ∧ ended.state = sw) ∨
      ∃ received,
        cheque.beneficiary = s.beneficiary ∧
          s.Accepts cheque (payoutOf sw.cheques cheque.chequebook) received exchangeRate deduction ∧
          (∀ c, sw.book.chequebook peer = some c → c = cheque.chequebook) ∧
          ended =
            (Swap.creditCheque peer cheque.chequebook exchangeRate deduction
              (sw.book.chequebook peer).isSome received).run fails
                { sw with
                  cheques :=
                    sw.cheques.put cheque.chequebook cheque } := by
  unfold Swap.receiveCheque Swap.inBook Book.chequebook
  rw [Routine.run_within_get_bind]
  by_cases hFails : fails (.book (.get .peer))
  · rw [if_pos hFails]
    exact Or.inl ⟨_, rfl, rfl⟩
  rw [if_neg hFails]
  have hFocus : SwapState.bookPart.focus sw = sw.book := rfl
  rw [hFocus]
  by_cases hWrong : (sw.book.chequebook peer).any (· ≠ cheque.chequebook)
  · rw [if_pos hWrong]
    exact Or.inl ⟨_, rfl, rfl⟩
  rw [if_neg hWrong]
  rcases receiveCheque_cases s reads cheque exchangeRate
      deduction (fun site => fails (.cheques site)) sw.cheques with ⟨e, hError, hState⟩ |
    ⟨received, hOk, hState, hBeneficiary, hAccepts⟩
  · left
    rw [Routine.run_within_bind_error SwapState.chequesPart
      SwapAccess.cheques SwapErr.rejecting _ fails sw hError]
    refine ⟨_, rfl, ?_⟩
    exact congrArg (fun cheques => { sw with cheques := cheques }) hState
  · right
    refine ⟨received, hBeneficiary, hAccepts, ?_, ?_⟩
    · intro c hBook
      rw [hBook] at hWrong
      simpa using hWrong
    · rw [Routine.run_within_bind_ok SwapState.chequesPart
        SwapAccess.cheques SwapErr.rejecting _ fails sw hOk]
      exact congrArg (fun cheques => Routine.run fails _ { sw with cheques := cheques }) hState

/- A service that has not received anything. -/
def newSwap : SwapState where
  book := .empty
  cheques := .empty
  accounts _ := Accounting.newPeer
    { paymentThreshold := 100
      paymentTolerance := 10
      earlyPayment := 1
      refreshRate := 5
      payFunction := true }

/- A cheque of chequebook 7. -/
def plainCheque (cumulativePayout : Int) : SignedCheque :=
  (plainReceive 7 cumulativePayout).cheque

end

---- Owners Of Chequebooks

namespace Addressbook

variable {book : Addressbook} {peer : Address}
variable {c : EthAddress}

/- Chequebooks and peers belong to each other. -/
def Owned (book : Addressbook) : Prop :=
  ∀ p c, book.chequebook p = some c ↔ book.chequebookPeer c = some p

theorem owned_empty : empty.Owned := by
  intro p c
  exact iff_of_false nofun nofun

theorem Owned.withChequebook (hOwned : book.Owned) (hPeer : book.chequebook peer = none)
    (hFree : book.chequebookPeer c = none) : (book.withChequebook peer c).Owned := by
  intro p c'
  have hOld := hOwned p c'
  change (book.peerIndex.put peer c).get p = some c' ↔
    (book.peerChequebookIndex.put c peer).get c' = some p
  rw [Index.get_put, Index.get_put]
  by_cases hP : peer = p
  · subst hP
    by_cases hC : c = c'
    · subst hC
      rw [if_pos rfl, if_pos rfl]
      exact iff_of_true rfl rfl
    · rw [if_pos rfl, if_neg hC]
      change some c = some c' ↔ book.chequebookPeer c' = some peer
      rw [← hOld, hPeer]
      exact iff_of_false (fun hEq => hC (Option.some.inj hEq)) nofun
  · by_cases hC : c = c'
    · subst hC
      rw [if_neg hP, if_pos rfl]
      change book.chequebook p = some c ↔ _
      rw [hOld, hFree]
      exact iff_of_false nofun (fun hEq => hP (Option.some.inj hEq))
    · rw [if_neg hP, if_neg hC]
      exact hOld

theorem Owned.afterCheque (hOwned : book.Owned)
    (hUnknown : known = false → book.chequebook peer = none ∧ book.chequebookPeer c = none) :
    (book.afterCheque peer c deduction known).Owned := by
  have hFlagged : (if 0 < deduction then book.withDeductionFor peer
        else book).Owned ∧
      ∀ q, (if 0 < deduction then book.withDeductionFor peer
          else book).chequebook q = book.chequebook q ∧
        ∀ c', (if 0 < deduction then
            book.withDeductionFor peer
          else book).chequebookPeer c' = book.chequebookPeer c' := by
    split
    · exact ⟨hOwned, fun _ => ⟨rfl, fun _ => rfl⟩⟩
    · exact ⟨hOwned, fun _ => ⟨rfl, fun _ => rfl⟩⟩
  cases known with
  | true => exact hFlagged.1
  | false =>
    have hNone := hUnknown rfl
    exact hFlagged.1.withChequebook ((hFlagged.2 peer).1.trans hNone.1)
      (((hFlagged.2 peer).2 c).trans hNone.2)

theorem Owned.migrate (hOwned : book.Owned) (hNe : oldPeer ≠ peer)
    (hFree : (book.chequebook oldPeer).isSome → book.chequebook peer = none) :
    (book.migrate oldPeer peer ba).Owned := by
  intro p c'
  have hAt := hOwned p c'
  have hOld := hOwned oldPeer c'
  rw [chequebook_migrate, chequebookPeer_migrate]
  by_cases hMoved : book.chequebook oldPeer = some c'
  · -- the chequebook that moves to the new peer
    rw [if_pos hMoved, hMoved]
    by_cases hEqOld : oldPeer = p
    · subst hEqOld
      rw [if_pos rfl]
      exact iff_of_false nofun (fun hEq => hNe (Option.some.inj hEq).symm)
    · rw [if_neg hEqOld]
      by_cases hEq : peer = p
      · rw [if_pos ⟨hEq, rfl⟩, hEq]
        exact iff_of_true rfl rfl
      · rw [if_neg (fun hBoth => hEq hBoth.1)]
        refine iff_of_false ?_ (fun hSome => hEq (Option.some.inj hSome))
        intro hP
        have hOther := hAt.mp hP
        rw [hOld.mp hMoved] at hOther
        exact hEqOld (Option.some.inj hOther)
  · rw [if_neg hMoved]
    by_cases hEqOld : oldPeer = p
    · subst hEqOld
      rw [if_pos rfl]
      exact iff_of_false nofun (fun hSome => hMoved (hOld.mpr hSome))
    · rw [if_neg hEqOld]
      by_cases hEq : peer = p ∧ (book.chequebook oldPeer).isSome
      · rw [if_pos hEq]
        refine iff_of_false hMoved ?_
        intro hSome
        have hBook := hAt.mpr hSome
        rw [← hEq.1, hFree hEq.2] at hBook
        cases hBook
      · rw [if_neg hEq]
        exact hAt

end Addressbook

---- Sequences Of Swap Calls

/- A call of the swap service. -/
inductive SwapLabel where
  | receiveCheque (peer : Address) (cheque : SignedCheque) (exchangeRate deduction : Int)
      (reads : ChainReads) (fails : SwapAccess → Bool)
  | handshake (peer : Address) (beneficiary : EthAddress) (fails : SwapAccess → Bool)
  /- Anything that the accounting does by itself. -/
  | account (accounts : Address → PeerAccount)

/- The state after a call, whatever it returns. -/
def SwapLabel.apply (s : ChequeStore) (sw : SwapState) : SwapLabel → SwapState
| .receiveCheque peer cheque exchangeRate deduction reads fails =>
  ((Swap.receiveCheque s reads peer cheque exchangeRate deduction).run fails sw).state
| .handshake peer beneficiary fails => ((Swap.handshake peer beneficiary).run fails sw).state
| .account accounts => { sw with accounts := accounts }

def SwapStep (s : ChequeStore) (label : SwapLabel) (sw sw' : SwapState) : Prop :=
  sw' = label.apply s sw

/-
  No access fails.  A peer without a chequebook sends cheques of chequebooks that no peer has, and a
  peer with a chequebook is migrated to a peer without one.
-/
def SwapLabel.Proper : SwapLabel → SwapState → Prop
| .receiveCheque peer cheque _ _ _ fails, sw =>
  (∀ site, fails site = false) ∧
    (sw.book.chequebook peer = none → sw.book.chequebookPeer cheque.chequebook = none)
| .handshake peer beneficiary fails, sw =>
  (∀ site, fails site = false) ∧
    ∀ oldPeer,
      sw.book.beneficiaryPeer beneficiary = some oldPeer → oldPeer ≠ peer →
        (sw.book.chequebook oldPeer).isSome → sw.book.chequebook peer = none
| .account _, _ => True

/- `TotalReceived`, where `none` is `ErrPeerNoSettlements`. -/
def SwapState.totalReceived (sw : SwapState) (peer : Address) : Option Int := do
  let chequebook ← sw.book.chequebook peer
  let cheque ← sw.cheques.get chequebook
  return cheque.cumulativePayout

/- One cheque of `SettlementsReceived`. -/
def Addressbook.attribute (book : Addressbook) (result : Index Address Int)
    (entry : EthAddress × SignedCheque) : Index Address Int :=
  match book.chequebookPeer entry.1 with
  | none => result
  | some peer => result.put peer entry.2.cumulativePayout

/- `SettlementsReceived`, for the last cheques in the order
   in which the map of them is iterated. -/
def Addressbook.settlementsReceived (book : Addressbook)
    (cheques : List (EthAddress × SignedCheque)) : Index Address Int :=
  cheques.foldl book.attribute .empty

theorem owned_receiveCheque (hOwned : sw.book.Owned) (hNever : ∀ site, fails site = false)
    (hFree : sw.book.chequebook peer = none → sw.book.chequebookPeer cheque.chequebook = none) :
    ((Swap.receiveCheque s reads peer cheque exchangeRate
      deduction).run fails sw).state.book.Owned := by
  have hLate : ∀ site : SwapAccess, site.late = true → fails site = false :=
    fun site _ => hNever site
  rcases swap_receiveCheque_cases s reads peer cheque exchangeRate deduction fails sw with
    ⟨_, -, hState⟩ | ⟨received, -, -, -, hEnded⟩
  · rw [hState]
    exact hOwned
  · rw [hEnded]
    by_cases hRate : exchangeRate = 0
    · subst hRate
      rw [run_creditCheque_zero hLate]
      exact hOwned.afterCheque nofun
    · rw [run_creditCheque hLate _ _ _ _ hRate]
      refine hOwned.afterCheque ?_
      intro hUnknown
      have hNone : sw.book.chequebook peer = none := by simpa using hUnknown
      exact ⟨hNone, hFree hNone⟩

theorem owned_afterHandshake {book : Addressbook} (hOwned : book.Owned)
    (hFree :
      ∀ oldPeer,
        book.beneficiaryPeer beneficiary = some oldPeer → oldPeer ≠ peer →
          (book.chequebook oldPeer).isSome → book.chequebook peer = none) :
    (book.afterHandshake peer beneficiary).Owned := by
  unfold Addressbook.afterHandshake
  cases hPeer : book.beneficiaryPeer beneficiary with
  | none => cases book.beneficiary peer with
    | none | some named => exact hOwned
  | some oldPeer =>
    dsimp only
    by_cases hEq : peer = oldPeer
    · rw [if_neg (not_not.mpr hEq)]
      cases book.beneficiary peer with
      | none | some named => exact hOwned
    · rw [if_pos hEq]
      cases book.beneficiary oldPeer with
      | none => exact hOwned
      | some ba => exact hOwned.migrate (Ne.symm hEq) (hFree oldPeer hPeer (Ne.symm hEq))

theorem SwapStep.owned (hOwned : sw.book.Owned)
    (hProper : label.Proper sw) (hStep : SwapStep s label sw sw') : sw'.book.Owned := by
  subst hStep
  cases label with
  | receiveCheque peer cheque rate deduction reads fails =>
    exact owned_receiveCheque hOwned hProper.1 hProper.2
  | handshake peer beneficiary fails =>
    have hNever : (fun site => fails (.book site)) = Routine.never := by
      funext site
      exact hProper.1 _
    change ((Swap.inBook _).run fails sw).state.book.Owned
    unfold Swap.inBook
    rw [Routine.run_within, hNever]
    change ((Book.handshake peer beneficiary).run Routine.never sw.book).state.Owned
    rw [run_handshake]
    exact owned_afterHandshake hOwned hProper.2
  | account accounts => exact hOwned

---- Received Settlements

variable {book : Addressbook} {p : Address}

theorem get_attribute (result : Index Address Int) (entry : EthAddress × SignedCheque) :
    (book.attribute result entry).get p = if book.chequebookPeer entry.1 = some p then
        some entry.2.cumulativePayout
      else
        result.get p := by
  unfold Addressbook.attribute
  cases book.chequebookPeer entry.1 with
  | none => rfl
  | some peer =>
    rw [Index.get_put]
    simp only [Option.some.injEq]

/- Cheques of other peers leave the entry of a peer alone. -/
theorem get_foldl_attribute_of_other {cheques : List (EthAddress × SignedCheque)}
    (result : Index Address Int)
    (hOther : ∀ entry ∈ cheques, book.chequebookPeer entry.1 ≠ some p) :
    (cheques.foldl book.attribute result).get p = result.get p := by
  induction cheques generalizing result with
  | nil => rfl
  | cons entry rest ih =>
    rw [List.foldl_cons, ih _ (fun e hE => hOther e (List.mem_cons_of_mem _ hE)), get_attribute,
      if_neg (hOther entry List.mem_cons_self)]

/- The only cheque of a peer is the one that is reported. -/
theorem get_foldl_attribute {cheques : List (EthAddress × SignedCheque)}
    (result : Index Address Int) (hMem : entry ∈ cheques)
    (hPeer : book.chequebookPeer entry.1 = some p)
    (hOnly : ∀ e ∈ cheques, book.chequebookPeer e.1 = some p → e = entry) :
    (cheques.foldl book.attribute result).get p = some entry.2.cumulativePayout := by
  induction cheques generalizing result with
  | nil => cases hMem
  | cons first rest ih =>
    rw [List.foldl_cons]
    by_cases hRest : entry ∈ rest
    · exact ih _ hRest (fun e hE => hOnly e (List.mem_cons_of_mem _ hE))
    · -- all later cheques are of other peers
      have hFirst : first = entry := by
        rcases List.mem_cons.mp hMem with hEq | hIn
        · exact hEq.symm
        · exact absurd hIn hRest
      rw [get_foldl_attribute_of_other, get_attribute, hFirst, if_pos hPeer]
      intro e hE hOwner
      have hEq := hOnly e (List.mem_cons_of_mem _ hE) hOwner
      exact hRest (hEq ▸ hE)

/-
  If chequebooks and peers belong to each other, every peer is reported with what was received from
  it, in any order of the cheques.
-/
theorem get_settlementsReceived {sw : SwapState} (hOwned : sw.book.Owned)
    (hOrder : order.Perm sw.cheques.entries) :
    (sw.book.settlementsReceived order).get p = sw.totalReceived p := by
  have hMem : ∀ c cheque, (c, cheque) ∈ order ↔ sw.cheques.get c = some cheque := by
    intro c cheque
    rw [hOrder.mem_iff]
    exact Index.mem_entries_iff ..
  change (order.foldl sw.book.attribute .empty).get p = _
  unfold SwapState.totalReceived
  cases hBook : sw.book.chequebook p with
  | none =>
    rw [get_foldl_attribute_of_other]
    · exact Index.get_empty p
    · intro entry _ hPeer
      have hSome := (hOwned p entry.1).mpr hPeer
      rw [hBook] at hSome
      cases hSome
  | some c =>
    have hUnique : ∀ c', sw.book.chequebookPeer c' = some p → c' = c := by
      intro c' hPeer
      have hSome := (hOwned p c').mpr hPeer
      rw [hBook] at hSome
      exact (Option.some.inj hSome).symm
    cases hCheque : sw.cheques.get c with
    | none =>
      change _ = (sw.cheques.get c).bind _
      rw [hCheque, get_foldl_attribute_of_other]
      · exact Index.get_empty p
      · intro entry hEntry hPeer
        have hGet := (hMem entry.1 entry.2).mp hEntry
        rw [hUnique _ hPeer, hCheque] at hGet
        cases hGet
    | some cheque =>
      change _ = (sw.cheques.get c).bind _
      rw [hCheque, get_foldl_attribute _ ((hMem c cheque).mpr hCheque) ((hOwned p c).mp hBook)]
      · rfl
      · intro entry hEntry hPeer
        have hGet := (hMem entry.1 entry.2).mp hEntry
        have hC := hUnique _ hPeer
        rw [hC, hCheque] at hGet
        exact Prod.ext hC (Option.some.inj hGet).symm

/-
  In every state of a run of proper calls, chequebooks and peers belong to each other, and the
  settlements that are reported are those that were received.
-/
theorem chequebooks_owned {s : ChequeStore} {start sw : SwapState} (hBook : start.book = .empty)
    (hReach : Reach (SwapStep s) SwapLabel.Proper start sw) :
    (∀ p c, sw.book.chequebook p = some c ↔ sw.book.chequebookPeer c = some p) ∧
    ∀ order : List (EthAddress × SignedCheque),
      order.Perm sw.cheques.entries →
        ∀ p, (sw.book.settlementsReceived order).get p = sw.totalReceived p := by
  have hOwned : sw.book.Owned := by
    refine hReach.invariant (fun sw => sw.book.Owned) ?_ ?_
    · rw [hBook]
      exact Addressbook.owned_empty
    · intro label before after hBefore hProper hStep
      exact hStep.owned hBefore hProper
  exact ⟨hOwned, fun _ hOrder p => get_settlementsReceived hOwned hOrder⟩

/- A peer sends a cheque of chequebook 7. -/
def sendCheque (peer : Address) (cumulativePayout : Int) : SwapLabel :=
  .receiveCheque peer (plainCheque cumulativePayout) 1 0
    ⟨true, true, some 1000, some 0⟩ Routine.never

theorem chequebooks_owned_first :
    let sw := (sendCheque 1 10).apply trustingStore newSwap
    sw.book.chequebook 1 = some 7 ∧ sw.book.chequebookPeer 7 = some 1 := by
  intro sw
  have hReach : Reach (SwapStep trustingStore) SwapLabel.Proper newSwap
        sw := Reach.start.step (sendCheque 1 10) ⟨fun _ => rfl, fun _ => by decide +kernel⟩ rfl
  have hPeer : sw.book.chequebook 1 = some 7 := by decide +kernel
  exact ⟨hPeer, ((chequebooks_owned rfl hReach).1 1 7).mp hPeer⟩

/-
  Another peer sends a newer cheque of the same chequebook. Both have it then, but only one is
  reported for it.
-/
theorem chequebook_taken :
    let sw := (sendCheque 2 20).apply trustingStore ((sendCheque 1 10).apply trustingStore newSwap)
    sw.book.chequebook 1 = some 7 ∧ sw.book.chequebook 2 = some 7 ∧
      sw.book.chequebookPeer 7 = some 2 ∧ sw.totalReceived 1 = some 20 ∧
      (sw.book.settlementsReceived sw.cheques.entries).get 1 =
        none := by
  decide +kernel

end Settlement

end Sana
