import Sana.KeyValue.Index
import Sana.Program.Reach
import Sana.Program.Handler
import Sana.Swarm.Address

/-
  The addressbook of the swap settlement.

  It maps peers to their beneficiaries and chequebooks and back, and remembers the peers of which a
  deduction was taken, in either direction.

  A cheque carries the total of all payments of a chequebook to its beneficiary.  The store accepts
  a cheque if its total is above that of the last one, and if it is signed by the issuer of the
  chequebook.

  Key definitions include:
    * `Addressbook`
    * `Book.migratePeer`

  Key theorems include:
    * `run_migratePeer`
-/

---- Key Families

namespace Sana.Settlement

section

open KeyValue Program Swarm

/- `common.Address` -/
abbrev EthAddress :=
  BitVec 160

/- The six families of keys. -/
inductive BookKey where
  | peer
  | peerChequebook
  | beneficiaryPeer
  | peerBeneficiary
  | deductedForPeer
  | deductedByPeer
  deriving DecidableEq, Repr

/- An access to the store. -/
inductive BookAccess where
  | get (key : BookKey)
  | put (key : BookKey)
  | delete (key : BookKey)
  deriving DecidableEq, Repr

inductive BookErr where
  /- "old beneficiary not known" -/
  | oldBeneficiaryNotKnown
  deriving DecidableEq, Repr

/- What is stored under the keys of each family. -/
structure Addressbook where
  peerIndex : Index Address EthAddress
  peerChequebookIndex : Index EthAddress Address
  beneficiaryPeerIndex : Index EthAddress Address
  peerBeneficiaryIndex : Index Address EthAddress
  deductedForPeerIndex : Index Address Unit
  deductedByPeerIndex : Index Address Unit

namespace Addressbook

def empty : Addressbook where
  peerIndex := .empty
  peerChequebookIndex := .empty
  beneficiaryPeerIndex := .empty
  peerBeneficiaryIndex := .empty
  deductedForPeerIndex := .empty
  deductedByPeerIndex := .empty

variable (book : Addressbook) (peer : Address)

/- Lookups; what is not known is `none`. -/
def beneficiary : Option EthAddress :=
  book.peerBeneficiaryIndex.get peer

def chequebook : Option EthAddress :=
  book.peerIndex.get peer

def beneficiaryPeer (beneficiary : EthAddress) : Option Address :=
  book.beneficiaryPeerIndex.get beneficiary

def chequebookPeer (chequebook : EthAddress) : Option Address :=
  book.peerChequebookIndex.get chequebook

def getDeductionFor : Bool :=
  book.deductedForPeerIndex.has peer

def getDeductionBy : Bool :=
  book.deductedByPeerIndex.has peer

/- The store after both writes of `PutBeneficiary`. -/
def withBeneficiary (beneficiary : EthAddress) : Addressbook :=
  { book with
    peerBeneficiaryIndex := book.peerBeneficiaryIndex.put peer beneficiary
    beneficiaryPeerIndex := book.beneficiaryPeerIndex.put beneficiary peer }

/- The store after both writes of `PutChequebook`. -/
def withChequebook (chequebook : EthAddress) : Addressbook :=
  { book with
    peerIndex := book.peerIndex.put peer chequebook
    peerChequebookIndex := book.peerChequebookIndex.put chequebook peer }

def withoutBeneficiary : Addressbook :=
  { book with peerBeneficiaryIndex := book.peerBeneficiaryIndex.delete peer }

def withoutChequebook : Addressbook :=
  { book with peerIndex := book.peerIndex.delete peer }

end Addressbook

---- Calls

/- The calls of the addressbook. -/
abbrev BookCall (α : Type) :=
  Routine Addressbook BookAccess BookErr α

namespace Book

def beneficiary (peer : Address) : BookCall (Option EthAddress) :=
  Routine.get (.get .peerBeneficiary) (·.beneficiary peer)

def chequebook (peer : Address) : BookCall (Option EthAddress) :=
  Routine.get (.get .peer) (·.chequebook peer)

def beneficiaryPeer (beneficiary : EthAddress) : BookCall (Option Address) :=
  Routine.get (.get .beneficiaryPeer) (·.beneficiaryPeer beneficiary)

def putBeneficiary (peer : Address) (beneficiary : EthAddress) : BookCall Unit := do
  Routine.set (.put .peerBeneficiary) fun book =>
    { book with peerBeneficiaryIndex := book.peerBeneficiaryIndex.put peer beneficiary }
  Routine.set (.put .beneficiaryPeer) fun book =>
    { book with beneficiaryPeerIndex := book.beneficiaryPeerIndex.put beneficiary peer }

def putChequebook (peer : Address) (chequebook : EthAddress) : BookCall Unit := do
  Routine.set (.put .peer) fun book => { book with peerIndex := book.peerIndex.put peer chequebook }
  Routine.set (.put .peerChequebook) fun book =>
    { book with peerChequebookIndex := book.peerChequebookIndex.put chequebook peer }

def addDeductionFor (peer : Address) : BookCall Unit :=
  Routine.set (.put .deductedForPeer) fun book =>
    { book with deductedForPeerIndex := book.deductedForPeerIndex.put peer () }

def addDeductionBy (peer : Address) : BookCall Unit :=
  Routine.set (.put .deductedByPeer) fun book =>
    { book with deductedByPeerIndex := book.deductedByPeerIndex.put peer () }

def migratePeer (oldPeer newPeer : Address) : BookCall Unit := do
  match ← beneficiary oldPeer with
  | none => Routine.fail .oldBeneficiaryNotKnown
  | some ba =>
    let cb ← chequebook oldPeer
    putBeneficiary newPeer ba
    Routine.set (.delete .peerBeneficiary) fun book => book.withoutBeneficiary oldPeer
    match cb with
    | none => return ()
    | some cb =>
      putChequebook newPeer cb
      Routine.set (.delete .peer) fun book => book.withoutChequebook oldPeer

/- `Handshake` of the swap service. -/
def handshake (peer : Address) (beneficiary : EthAddress) : BookCall Unit := do
  let oldPeer ← beneficiaryPeer beneficiary
  match oldPeer with
  | some oldPeer =>
    if peer ≠ oldPeer then migratePeer oldPeer peer
    else initial peer beneficiary
  | none => initial peer beneficiary
where
  /- A beneficiary is stored for a peer that has none. -/
  initial (peer : Address) (beneficiary : EthAddress) : BookCall Unit := do
    match ← Book.beneficiary peer with
    | none => putBeneficiary peer beneficiary
    | some _ => return ()

end Book

end

---- Calls Without Failed Accesses

section

open KeyValue Program Swarm

namespace Addressbook

/- The store after `MigratePeer`. -/
def migrate (book : Addressbook) (oldPeer newPeer : Address) (ba : EthAddress) : Addressbook :=
  let moved := (book.withBeneficiary newPeer ba).withoutBeneficiary oldPeer
  match book.chequebook oldPeer with
  | none => moved
  | some cb => (moved.withChequebook newPeer cb).withoutChequebook oldPeer

end Addressbook

open Routine

theorem run_migratePeer :
    (Book.migratePeer oldPeer newPeer).run never book = match book.beneficiary oldPeer with
      | none => ⟨.error (.error .oldBeneficiaryNotKnown), book⟩
      | some ba => ⟨.ok (), book.migrate oldPeer newPeer ba⟩ := by
  unfold Book.migratePeer Book.beneficiary
  rw [run_get_bind]
  cases book.beneficiary oldPeer with
  | none => rfl
  | some ba =>
    simp only [Book.chequebook, run_get_bind, Addressbook.migrate]
    cases book.chequebook oldPeer <;> rfl

/- A handshake migrates a peer, names one, or does nothing. -/
def Addressbook.afterHandshake (book : Addressbook) (peer : Address)
    (beneficiary : EthAddress) : Addressbook :=
  let named := match book.beneficiary peer with
    | none => book.withBeneficiary peer beneficiary
    | some _ => book
  match book.beneficiaryPeer beneficiary with
  | none => named
  | some oldPeer =>
    if peer ≠ oldPeer then
      match book.beneficiary oldPeer with
      | none => book
      | some ba => book.migrate oldPeer peer ba
    else named

section

variable (book : Addressbook) (peer : Address) (beneficiary : EthAddress)

theorem run_initial :
    ((Book.handshake.initial peer beneficiary).run never book).state =
      match book.beneficiary peer with
      | none => book.withBeneficiary peer beneficiary
      | some _ => book := by
  unfold Book.handshake.initial Book.beneficiary
  rw [run_get_bind]
  cases book.beneficiary peer <;> rfl

theorem run_handshake :
    ((Book.handshake peer beneficiary).run never book).state =
      book.afterHandshake peer beneficiary := by
  unfold Book.handshake Book.beneficiaryPeer Addressbook.afterHandshake
  rw [run_get_bind, never, if_neg Bool.false_ne_true]
  cases book.beneficiaryPeer beneficiary with
  | none => exact run_initial book peer beneficiary
  | some oldPeer =>
    dsimp only
    split
    · rw [run_migratePeer]
      cases book.beneficiary oldPeer <;> rfl
    · exact run_initial book peer beneficiary

end

end

---- Migration

open KeyValue Program Swarm

namespace Addressbook

/- Nothing is stored about the peer. -/
structure Unknown (book : Addressbook) (peer : Address) : Prop where
  beneficiary : book.beneficiary peer = none
  chequebook : book.chequebook peer = none
  deductionFor : book.getDeductionFor peer = false
  deductionBy : book.getDeductionBy peer = false

/- What was known about a peer is known about another one. -/
structure Migrated (book book' : Addressbook) (oldPeer newPeer : Address) : Prop where
  beneficiary : book'.beneficiary newPeer = book.beneficiary oldPeer
  chequebook : book'.chequebook newPeer = book.chequebook oldPeer
  deductionFor : book'.getDeductionFor newPeer = book.getDeductionFor oldPeer
  deductionBy : book'.getDeductionBy newPeer = book.getDeductionBy oldPeer
  beneficiaryPeer : ∀ b, book.beneficiary oldPeer = some b → book'.beneficiaryPeer b = some newPeer
  chequebookPeer : ∀ c, book.chequebook oldPeer = some c → book'.chequebookPeer c = some newPeer
  unknown : book'.Unknown oldPeer

variable {book : Addressbook} {oldPeer newPeer : Address}
variable {ba : EthAddress}

theorem beneficiary_migrate (peer : Address) :
    (book.migrate oldPeer newPeer ba).beneficiary peer = if oldPeer = peer then none
      else if newPeer = peer then some ba
      else book.beneficiary peer := by
  unfold migrate
  cases book.chequebook oldPeer <;>
    simp only [Addressbook.beneficiary, withoutChequebook,
      withChequebook, withoutBeneficiary, withBeneficiary, Index.get_delete, Index.get_put]

theorem beneficiaryPeer_migrate (b : EthAddress) :
    (book.migrate oldPeer newPeer ba).beneficiaryPeer b = if ba = b then some newPeer
      else book.beneficiaryPeer b := by
  unfold migrate
  cases book.chequebook oldPeer <;>
    simp only [Addressbook.beneficiaryPeer, withoutChequebook,
      withChequebook, withoutBeneficiary, withBeneficiary, Index.get_put]

theorem chequebook_migrate (peer : Address) :
    (book.migrate oldPeer newPeer ba).chequebook peer = if oldPeer = peer then none
      else if newPeer = peer ∧ (book.chequebook oldPeer).isSome then book.chequebook oldPeer
      else book.chequebook peer := by
  unfold migrate
  cases hBook : book.chequebook oldPeer with
  | none =>
    simp only [Option.isSome_none, Bool.false_eq_true, and_false, if_false]
    split
    · next hEq =>
        rw [← hEq]
        exact hBook
    · rfl
  | some cb =>
    simp only [Addressbook.chequebook, withoutChequebook,
      withChequebook, withoutBeneficiary, withBeneficiary,
      Index.get_delete, Index.get_put, Option.isSome_some, and_true]

theorem chequebookPeer_migrate (c : EthAddress) :
    (book.migrate oldPeer newPeer ba).chequebookPeer c =
      if book.chequebook oldPeer = some c then some newPeer
      else book.chequebookPeer c := by
  unfold migrate
  cases hBook : book.chequebook oldPeer with
  | none => rfl
  | some cb =>
    simp only [Addressbook.chequebookPeer, withoutChequebook,
      withChequebook, withoutBeneficiary, withBeneficiary, Index.get_put, Option.some.injEq]

/- The deduction flags are left behind. -/
theorem deductions_migrate (book : Addressbook) (oldPeer newPeer peer : Address) (ba : EthAddress) :
    (book.migrate oldPeer newPeer ba).getDeductionFor peer = book.getDeductionFor peer ∧
      (book.migrate oldPeer newPeer ba).getDeductionBy peer = book.getDeductionBy peer := by
  unfold migrate
  cases book.chequebook oldPeer <;> exact ⟨rfl, rfl⟩

/- All but the deduction flags moves to a new peer. -/
theorem migrated_iff (hNe : oldPeer ≠ newPeer) (hNew : book.Unknown newPeer)
    (hBeneficiary : book.beneficiary oldPeer = some ba) :
    book.Migrated (book.migrate oldPeer newPeer ba) oldPeer newPeer ↔
      book.getDeductionFor oldPeer = false ∧ book.getDeductionBy oldPeer = false := by
  have hNewFlags := deductions_migrate book oldPeer newPeer newPeer ba
  have hOldFlags := deductions_migrate book oldPeer newPeer oldPeer ba
  constructor
  · intro hMigrated
    have hFor := hMigrated.unknown.deductionFor
    have hBy := hMigrated.unknown.deductionBy
    exact ⟨hOldFlags.1.symm.trans hFor, hOldFlags.2.symm.trans hBy⟩
  · rintro ⟨hFor, hBy⟩
    constructor
    · rw [beneficiary_migrate, if_neg hNe, if_pos rfl, hBeneficiary]
    · rw [chequebook_migrate, if_neg hNe]
      cases hBook : book.chequebook oldPeer with
      | none =>
        rw [if_neg (by simp)]
        exact hNew.chequebook
      | some cb => rw [if_pos ⟨rfl, rfl⟩]
    · rw [hNewFlags.1, hNew.deductionFor, hFor]
    · rw [hNewFlags.2, hNew.deductionBy, hBy]
    · intro b hB
      rw [hBeneficiary] at hB
      rw [beneficiaryPeer_migrate, if_pos (Option.some.inj hB)]
    · intro c hC
      rw [chequebookPeer_migrate, if_pos hC]
    · constructor
      · rw [beneficiary_migrate, if_pos rfl]
      · rw [chequebook_migrate, if_pos rfl]
      · rw [hOldFlags.1, hFor]
      · rw [hOldFlags.2, hBy]

end Addressbook

/-
  A successful migration keeps the identity of a peer if and only if no deduction is remembered for
  it.
-/
theorem migratePeer_keeps_iff {book : Addressbook} {oldPeer newPeer : Address}
    {fails : BookAccess → Bool} (hNe : oldPeer ≠ newPeer) (hNew : book.Unknown newPeer)
    (hOk : ((Book.migratePeer oldPeer newPeer).run fails book).result = .ok ()) :
    book.Migrated ((Book.migratePeer oldPeer newPeer).run fails book).state oldPeer newPeer ↔
      book.getDeductionFor oldPeer = false ∧ book.getDeductionBy oldPeer = false := by
  have hSame := Routine.run_eq_of_ok hOk
  rw [← hSame, run_migratePeer] at hOk ⊢
  cases hBeneficiary : book.beneficiary oldPeer with
  | none =>
    rw [hBeneficiary] at hOk
    cases hOk
  | some ba => exact Addressbook.migrated_iff hNe hNew hBeneficiary

/- A peer with a beneficiary, of which a deduction was taken. -/
def deductedBook : Addressbook :=
  { Addressbook.empty.withBeneficiary 1 7 with deductedForPeerIndex := Index.empty.put 1 () }

theorem deductedBook_unknown : deductedBook.Unknown 2 :=
  ⟨rfl, rfl, rfl, rfl⟩

theorem migratePeer_keeps_first :
    (Addressbook.empty.withBeneficiary 1 7).Migrated
      ((Book.migratePeer 1 2).run Routine.never
        (Addressbook.empty.withBeneficiary 1 7)).state 1 2 :=
  (migratePeer_keeps_iff (by decide) ⟨rfl, rfl, rfl, rfl⟩ rfl).mpr ⟨rfl, rfl⟩

theorem migratePeer_loses_deduction :
    ¬ ∀ (book : Addressbook) (fails : BookAccess → Bool) (oldPeer newPeer : Address),
      oldPeer ≠ newPeer → book.Unknown newPeer →
      ((Book.migratePeer oldPeer newPeer).run fails book).result = .ok () →
      book.Migrated ((Book.migratePeer oldPeer newPeer).run fails book).state oldPeer newPeer := by
  intro hAll
  have hMigrated := hAll deductedBook Routine.never 1 2 (by decide) deductedBook_unknown rfl
  have hFlag := hMigrated.deductionFor
  revert hFlag
  decide +kernel

end Sana.Settlement

---- Receiving Cheques

namespace Sana.Settlement

open KeyValue Program

variable {s : ChequeStore}

structure Cheque where
  chequebook : EthAddress
  beneficiary : EthAddress
  cumulativePayout : Int
  deriving DecidableEq, Repr

structure SignedCheque extends Cheque where
  signature : List UInt8
  deriving DecidableEq, Repr

inductive ChequeErr where
  /- `ErrWrongBeneficiary`: "wrong beneficiary" -/
  | wrongBeneficiary
  /- the error of `VerifyChequebook` -/
  | verifyChequebook
  /- "cheque cumulativePayout is not increasing" -/
  | chequeNotIncreasing
  /- "cheque value lower than acceptable" -/
  | chequeValueTooLow
  /- the errors of calls to the contract -/
  | issuer
  | balance
  | paidOut
  /- the error of `recoverChequeFunc` -/
  | recover
  /- `ErrChequeInvalid`: "invalid cheque" -/
  | chequeInvalid
  /- `ErrBouncingCheque`: "bouncing cheque" -/
  | bouncingCheque
  deriving DecidableEq, Repr

/- An access to the store. -/
inductive ChequeAccess where
  | getLastReceived
  | putLastReceived
  deriving DecidableEq, Repr

/- The last received cheque of each chequebook. -/
abbrev LastCheques :=
  Index EthAddress SignedCheque

/-
  A cheque store: the node's own address, the issuers of all chequebooks, and the recovery of
  signatures.
-/
structure ChequeStore where
  beneficiary : EthAddress
  issuerOf : EthAddress → EthAddress
  recoverCheque : SignedCheque → Option EthAddress

/-
  What calls to the blockchain answer during one call: whether the factory knows the chequebook,
  whether the issuer can be read, and the balances.
-/
structure ChainReads where
  verifyChequebook : Bool
  issuer : Bool
  balance : Option Int
  paidOut : Option Int
  deriving DecidableEq, Repr

namespace ChequeStore

variable (s : ChequeStore)

/- The total of the last cheque. -/
def lastCumulativePayout (reads : ChainReads) (lastReceivedCheque : Option SignedCheque) :
    Except ChequeErr Int :=
  match lastReceivedCheque with
  | none =>
    -- the first cheque of a chequebook
    if reads.verifyChequebook then .ok 0
    else .error .verifyChequebook
  | some last => .ok last.cumulativePayout

/- The checks between the lookup and the write. -/
def checkCheque (reads : ChainReads) (lastReceivedCheque : Option SignedCheque)
    (cheque : SignedCheque) (exchangeRate deduction : Int) : Except ChequeErr Int := do
  let lastCumulativePayout ← lastCumulativePayout reads lastReceivedCheque
  let amount := cheque.cumulativePayout - lastCumulativePayout
  if amount ≤ 0 then .error .chequeNotIncreasing
  else if amount - deduction < exchangeRate then .error .chequeValueTooLow
  else if reads.issuer = false then .error .issuer
  else
    match s.recoverCheque cheque with
    | none => .error .recover
    | some issuer =>
      if issuer ≠ s.issuerOf cheque.chequebook then .error .chequeInvalid
      else
        match reads.balance, reads.paidOut with
        | none, _ => .error .balance
        | some _, none => .error .paidOut
        | some balance, some alreadyPaidOut =>
          if balance < cheque.cumulativePayout - alreadyPaidOut then .error .bouncingCheque
          else .ok amount

def receiveCheque (reads : ChainReads) (cheque : SignedCheque) (exchangeRate deduction : Int) :
    Routine LastCheques ChequeAccess ChequeErr Int :=
  if cheque.beneficiary ≠ s.beneficiary then .fail .wrongBeneficiary
  else do
    let lastReceivedCheque ←
      Routine.get .getLastReceived (fun cheques => cheques.get cheque.chequebook)
    let amount ← Routine.ofExcept
      (s.checkCheque reads lastReceivedCheque cheque exchangeRate deduction)
    Routine.set .putLastReceived (fun cheques => cheques.put cheque.chequebook cheque)
    return amount

end ChequeStore

---- Accepted And Rejected Cheques

section

/- The total of the last cheque of a chequebook. -/
def payoutOf (cheques : LastCheques) (chequebook : EthAddress) : Int :=
  match cheques.get chequebook with
  | none => 0
  | some last => last.cumulativePayout

variable {reads : ChainReads}
variable {cheque : SignedCheque}
variable {exchangeRate deduction amount : Int}

/- What a cheque that passes all checks has. -/
structure ChequeStore.Accepts (s : ChequeStore) (cheque : SignedCheque)
    (last amount exchangeRate deduction : Int) : Prop where
  value : amount = cheque.cumulativePayout - last
  increasing : 0 < amount
  covers : exchangeRate ≤ amount - deduction
  signed : s.recoverCheque cheque = some (s.issuerOf cheque.chequebook)

theorem accepts_of_checkCheque (hCheck :
      s.checkCheque reads (cheques.get cheque.chequebook)
        cheque exchangeRate deduction = .ok amount) :
    s.Accepts cheque (payoutOf cheques cheque.chequebook) amount exchangeRate deduction := by
  unfold ChequeStore.checkCheque at hCheck
  have hLast :
      ∀ last,
        ChequeStore.lastCumulativePayout reads (cheques.get cheque.chequebook) = .ok last →
          payoutOf cheques cheque.chequebook = last := by
    intro last hOk
    unfold ChequeStore.lastCumulativePayout at hOk
    unfold payoutOf
    cases hGet : cheques.get cheque.chequebook with
    | none =>
      rw [hGet] at hOk
      dsimp only at hOk
      split at hOk
      · cases hOk
        rfl
      · cases hOk
    | some c =>
      rw [hGet] at hOk
      cases hOk
      rfl
  cases hOk : ChequeStore.lastCumulativePayout reads (cheques.get cheque.chequebook) with
  | error e =>
    rw [hOk] at hCheck
    cases hCheck
  | ok last =>
    rw [hLast last hOk]
    rw [hOk] at hCheck
    change (if _ then _ else _) = _ at hCheck
    split at hCheck
    · cases hCheck
    split at hCheck
    · cases hCheck
    split at hCheck
    · cases hCheck
    split at hCheck
    · cases hCheck
    next issuer hRecover =>
    split at hCheck
    · cases hCheck
    next hIssuer =>
    split at hCheck
    · cases hCheck
    · cases hCheck
    split at hCheck
    · cases hCheck
    cases hCheck
    refine ⟨rfl, by omega, by omega, ?_⟩
    rw [hRecover, not_not.mp hIssuer]

/- A call accepts a cheque and stores it, or does nothing. -/
theorem receiveCheque_cases (s : ChequeStore) (reads : ChainReads) (cheque : SignedCheque)
    (exchangeRate deduction : Int) (fails : ChequeAccess → Bool) (cheques : LastCheques) :
    let ended := (s.receiveCheque reads cheque exchangeRate deduction).run fails cheques
    (∃ e, ended.result = .error e ∧ ended.state = cheques) ∨
      ∃ amount, ended.result = .ok amount ∧ ended.state = cheques.put cheque.chequebook cheque ∧
        cheque.beneficiary = s.beneficiary ∧
        s.Accepts cheque (payoutOf cheques cheque.chequebook) amount exchangeRate deduction := by
  unfold ChequeStore.receiveCheque
  split
  · exact Or.inl ⟨_, rfl, rfl⟩
  next hBeneficiary =>
  rw [Routine.run_get_bind]
  split
  · exact Or.inl ⟨_, rfl, rfl⟩
  rw [Routine.run_ofExcept_bind]
  cases hCheck :
      s.checkCheque reads (cheques.get cheque.chequebook) cheque exchangeRate deduction with
  | error e => exact Or.inl ⟨_, rfl, rfl⟩
  | ok amount =>
    dsimp only
    rw [Routine.run_set_bind]
    split
    · exact Or.inl ⟨_, rfl, rfl⟩
    · exact Or.inr ⟨amount, rfl, rfl, not_not.mp hBeneficiary, accepts_of_checkCheque hCheck⟩

theorem payoutOf_put (cheques : LastCheques) (cheque : SignedCheque) (c : EthAddress) :
    payoutOf (cheques.put cheque.chequebook cheque) c =
      if cheque.chequebook = c then cheque.cumulativePayout
      else payoutOf cheques c := by
  unfold payoutOf
  rw [Index.get_put]
  by_cases hEq : cheque.chequebook = c
  · rw [if_pos hEq, if_pos hEq]
  · rw [if_neg hEq, if_neg hEq]

end

---- Sequences Of Calls

/- The store, and all accepted cheques with the amounts that were returned for them. -/
structure Received where
  lastCheques : LastCheques
  accepted : List (SignedCheque × Int)

def Received.start : Received where
  lastCheques := .empty
  accepted := []

/- A call with all that it gets from outside. -/
structure ReceiveCall where
  cheque : SignedCheque
  exchangeRate : Int
  deduction : Int
  reads : ChainReads
  fails : ChequeAccess → Bool

def ReceiveCall.run (call : ReceiveCall) (s : ChequeStore) (cheques : LastCheques) :
    Ended LastCheques ChequeAccess ChequeErr Int :=
  (s.receiveCheque call.reads call.cheque call.exchangeRate call.deduction).run call.fails cheques

inductive ReceiveStep (s : ChequeStore) : ReceiveCall → Received → Received → Prop where
  | accept {call : ReceiveCall} {sys : Received} {amount : Int}
      (hOk : (call.run s sys.lastCheques).result = .ok amount) : ReceiveStep s call sys
        { lastCheques := (call.run s sys.lastCheques).state
          accepted := sys.accepted ++ [(call.cheque, amount)] }
  | reject {call : ReceiveCall} {sys : Received} {e : Failure ChequeAccess ChequeErr}
      (hError : (call.run s sys.lastCheques).result = .error e) : ReceiveStep s call sys
        { sys with lastCheques := (call.run s sys.lastCheques).state }

namespace Received

/- The accepted cheques of one chequebook. -/
def acceptedOf (sys : Received) (c : EthAddress) : List (SignedCheque × Int) :=
  sys.accepted.filter fun entry => entry.1.chequebook = c

/- Every payment of a chequebook is counted once. -/
structure Counted (s : ChequeStore) (sys : Received) (c : EthAddress) : Prop where
  increasing : (sys.acceptedOf c).Pairwise fun earlier later =>
      earlier.1.cumulativePayout < later.1.cumulativePayout
  last : sys.lastCheques.get c = (sys.acceptedOf c).getLast?.map Prod.fst
  total : ((sys.acceptedOf c).map Prod.snd).sum = payoutOf sys.lastCheques c
  bounded : ∀ entry ∈ sys.acceptedOf c, entry.1.cumulativePayout ≤ payoutOf sys.lastCheques c
  signed :
    ∀ entry ∈ sys.acceptedOf c,
      entry.1.beneficiary = s.beneficiary ∧ s.recoverCheque entry.1 = some (s.issuerOf c)

variable {s : ChequeStore} {sys : Received}

theorem acceptedOf_snoc :
    (Received.mk cheques (sys.accepted ++ [entry])).acceptedOf c = if entry.1.chequebook = c then
        sys.acceptedOf c ++ [entry]
      else
        sys.acceptedOf c := by
  unfold acceptedOf
  rw [List.filter_append]
  by_cases hEq : entry.1.chequebook = c
  · rw [if_pos hEq, List.filter_cons_of_pos (by simpa using hEq)]
    rfl
  · rw [if_neg hEq, List.filter_cons_of_neg (by simpa using hEq)]
    exact List.append_nil _

/- An accepted cheque goes on top of all earlier ones. -/
theorem Counted.accept
    (hCounted : ∀ c, sys.Counted s c) (hBeneficiary : cheque.beneficiary = s.beneficiary)
    (hAccepts :
      s.Accepts cheque (payoutOf sys.lastCheques cheque.chequebook) amount exchangeRate deduction)
    (c : EthAddress) :
    (Received.mk (sys.lastCheques.put cheque.chequebook cheque)
        (sys.accepted ++ [(cheque, amount)])).Counted s c := by
  have hOld := hCounted c
  by_cases hEq : cheque.chequebook = c
  · subst hEq
    have hAbove :
        ∀ entry ∈ sys.acceptedOf cheque.chequebook,
          entry.1.cumulativePayout < cheque.cumulativePayout := by
      intro entry hEntry
      have hLe := hOld.bounded entry hEntry
      have hValue := hAccepts.value
      have hPositive := hAccepts.increasing
      omega
    constructor
    · rw [acceptedOf_snoc, if_pos rfl, List.pairwise_append]
      refine ⟨hOld.increasing, List.pairwise_singleton _ _, ?_⟩
      intro entry hEntry new hNew
      rw [List.mem_singleton.mp hNew]
      exact hAbove entry hEntry
    · rw [acceptedOf_snoc, if_pos rfl, List.getLast?_concat]
      exact Index.get_put_self ..
    · rw [acceptedOf_snoc, if_pos rfl, List.map_append,
        List.sum_append, hOld.total, payoutOf_put, if_pos rfl]
      simp only [List.map_cons, List.map_nil, List.sum_cons, List.sum_nil]
      have hValue := hAccepts.value
      omega
    · rw [acceptedOf_snoc, if_pos rfl, payoutOf_put, if_pos rfl]
      intro entry hEntry
      rcases List.mem_append.mp hEntry with hEntry | hEntry
      · exact (hAbove entry hEntry).le
      · rw [List.mem_singleton.mp hEntry]
    · rw [acceptedOf_snoc, if_pos rfl]
      intro entry hEntry
      rcases List.mem_append.mp hEntry with hEntry | hEntry
      · exact hOld.signed entry hEntry
      · rw [List.mem_singleton.mp hEntry]
        exact ⟨hBeneficiary, hAccepts.signed⟩
  · constructor
    · rw [acceptedOf_snoc, if_neg hEq]
      exact hOld.increasing
    · rw [acceptedOf_snoc, if_neg hEq]
      exact (Index.get_put_of_ne _ hEq _).trans hOld.last
    · rw [acceptedOf_snoc, if_neg hEq, payoutOf_put, if_neg hEq]
      exact hOld.total
    · rw [acceptedOf_snoc, if_neg hEq, payoutOf_put, if_neg hEq]
      exact hOld.bounded
    · rw [acceptedOf_snoc, if_neg hEq]
      exact hOld.signed

end Received

theorem ReceiveStep.counted
    (hCounted : ∀ c, sys.Counted s c) (hStep : ReceiveStep s call sys sys') (c : EthAddress) :
    sys'.Counted s c := by
  have hCases := receiveCheque_cases s call.reads call.cheque
    call.exchangeRate call.deduction call.fails sys.lastCheques
  cases hStep with
  | accept hOk =>
    rcases hCases with ⟨e, hError, -⟩ | ⟨amount, hAmount, hState, hBeneficiary, hAccepts⟩
    · cases hOk.symm.trans hError
    · cases hOk.symm.trans hAmount
      unfold ReceiveCall.run
      rw [hState]
      exact Received.Counted.accept hCounted hBeneficiary hAccepts c
  | reject hError =>
    rcases hCases with ⟨e, -, hState⟩ | ⟨amount, hAmount, -⟩
    · unfold ReceiveCall.run
      rw [hState]
      exact hCounted c
    · cases hError.symm.trans hAmount

theorem Received.counted_start (c : EthAddress) : Received.start.Counted s c where
  increasing := List.Pairwise.nil
  last := Index.get_empty c
  total := by
    unfold payoutOf Received.start
    rfl
  bounded := nofun
  signed := nofun

/-
  Whatever cheques are received, in every state the accepted ones of a chequebook are counted once,
  and a rejected call changes nothing.
-/
theorem cheques_counted_once {sys : Received}
    (hReach : Reach (ReceiveStep s) (fun _ _ => True) .start sys) :
    (∀ c, sys.Counted s c) ∧
      ∀ (call : ReceiveCall) (e : Failure ChequeAccess ChequeErr),
        (call.run s sys.lastCheques).result = .error e →
          (call.run s sys.lastCheques).state = sys.lastCheques := by
  constructor
  · exact hReach.invariant (fun sys => ∀ c, sys.Counted s c) Received.counted_start
      (fun _ _ _ hCounted _ hStep c => ReceiveStep.counted hCounted hStep c)
  · intro call e hError
    rcases receiveCheque_cases s call.reads call.cheque call.exchangeRate call.deduction call.fails
        sys.lastCheques with ⟨_, -, hState⟩ | ⟨amount, hAmount, -⟩
    · exact hState
    · cases hError.symm.trans hAmount

/- A store for which every signature is that of issuer 3. -/
def trustingStore : ChequeStore where
  beneficiary := 9
  issuerOf _ := 3
  recoverCheque _ := some 3

/- A call with a cheque of a rich chequebook. -/
def plainReceive (chequebook : EthAddress) (cumulativePayout : Int) : ReceiveCall where
  cheque :=
    { chequebook := chequebook
      beneficiary := 9
      cumulativePayout := cumulativePayout
      signature := [] }
  exchangeRate := 1
  deduction := 0
  reads := ⟨true, true, some 1000, some 0⟩
  fails := Routine.never

theorem cheques_counted_once_two :
    ∃ sys : Received,
      (sys.acceptedOf 5).map Prod.snd = [10, 15] ∧ ∀ c, sys.Counted trustingStore c := by
  have hTen :
      ((plainReceive 5 10).run trustingStore Received.start.lastCheques).result = .ok 10 := by
    decide +kernel
  have hFirst : Reach (ReceiveStep trustingStore) (fun _ _ => True) .start _ :=
    Reach.start.step (plainReceive 5 10) trivial (ReceiveStep.accept hTen)
  have hFifteen :
      ((plainReceive 5 25).run trustingStore
        ((plainReceive 5 10).run trustingStore Received.start.lastCheques).state).result =
        .ok 15 := by
    decide +kernel
  have hSecond := hFirst.step (plainReceive 5 25) trivial (ReceiveStep.accept hFifteen)
  exact ⟨_, by decide +kernel, (cheques_counted_once hSecond).1⟩

end Sana.Settlement
