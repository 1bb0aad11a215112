import Sana.Program.Interleaving
import Sana.Settlement.ChequeStore

/-
  The chequebook: issuing cheques.

  A cheque is issued in several accesses to the store and to the contract.  Only the reservation of
  funds and the count of what was issued are made under the lock.

  Key definitions include:
    * `Payer`
    * `Chequebook.issue`

  Key theorems include:
    * `safe_issue`
-/

---- Issuing Cheques

namespace Sana.Settlement

open KeyValue Program Swarm

/-
  The node that pays: its store, the reserved total in memory, its contract, and the cheques that
  were sent with their amounts.
-/
structure Payer where
  book : Addressbook
  totalIssued : Option Int
  lastIssued : Index EthAddress Cheque
  totalIssuedReserved : Int
  balance : Nat
  totalPaidOut : Nat
  sent : List (SignedCheque × Int)

namespace Payer

/- `totalIssued`, where a missing entry counts as zero. -/
def issued (p : Payer) : Int :=
  p.totalIssued.getD 0

/- The payout of the last cheque that is stored. -/
def lastPayout (p : Payer) (b : EthAddress) : Int :=
  match p.lastIssued.get b with
  | none => 0
  | some cheque => cheque.cumulativePayout

/- All that was ever put into the contract. -/
def funds (p : Payer) : Int :=
  (p.balance : Int) + p.totalPaidOut

end Payer

inductive IssueErr where
  /- the errors of calls to the contract -/
  | balance
  | totalPaidOut
  /- `ErrOutOfFunds`: "chequebook out of funds" -/
  | outOfFunds
  /- the error of the signer -/
  | sign
  /- the error of `sendChequeFunc` -/
  | send
  deriving DecidableEq, Repr

/- What a call of `Issue` gets from outside. -/
structure IssueEnv where
  balance : Bool
  totalPaidOut : Bool
  sign : Cheque → Option (List UInt8)
  send : SignedCheque → Bool

namespace Chequebook

variable (address : EthAddress) (env : IssueEnv)

def availableBalance : Call Payer (Except IssueErr Int) := do
  let totalIssued ← Call.get Payer.issued
  if env.balance = false then return .error .balance
  else do
    let balance ← Call.get (·.balance)
    if env.totalPaidOut = false then return .error .totalPaidOut
    else do
      let totalPaidOut ← Call.get (·.totalPaidOut)
      return .ok ((balance : Int) + totalPaidOut - totalIssued)

def reserveTotalIssued (amount : Int) : Call Payer (Except IssueErr Int) := do
  Call.acquire
  match ← availableBalance env with
  | .error e => do
      Call.release
      return .error e
  | .ok availableBalance => do
      let reserved ← Call.get (·.totalIssuedReserved)
      if availableBalance - reserved < amount then do
        Call.release
        return .error .outOfFunds
      else do
        Call.set fun p => { p with totalIssuedReserved := p.totalIssuedReserved + amount }
        Call.release
        return .ok (availableBalance - amount)

def unreserveTotalIssued (amount : Int) : Call Payer Unit := do
  Call.acquire
  Call.set fun p => { p with totalIssuedReserved := p.totalIssuedReserved - amount }
  Call.release

/- The count of what was issued, under the lock. -/
def countIssued (amount : Int) : Call Payer Unit := do
  Call.acquire
  let totalIssued ← Call.get Payer.issued
  Call.set fun p => { p with totalIssued := some (totalIssued + amount) }
  Call.release

/- `Issue` between the reservation and its return. -/
def issueReserved (beneficiary : EthAddress) (amount availableBalance : Int) :
    Call Payer (Except IssueErr Int) := do
  let lastPayout ← Call.get (·.lastPayout beneficiary)
  let cheque : Cheque :=
    { chequebook := address
      beneficiary := beneficiary
      cumulativePayout := lastPayout + amount }
  match env.sign cheque with
  | none => return .error .sign
  | some signature =>
    let signed : SignedCheque := ⟨cheque, signature⟩
    if env.send signed = false then return .error .send
    else do
      Call.set fun p => { p with sent := p.sent ++ [(signed, amount)] }
      Call.set fun p => { p with lastIssued := p.lastIssued.put beneficiary cheque }
      countIssued amount
      return .ok availableBalance

def issue (beneficiary : EthAddress) (amount : Int) : Call Payer (Except IssueErr Int) := do
  match ← reserveTotalIssued env amount with
  | .error e => return .error e
  | .ok availableBalance => do
      let result ← issueReserved address env beneficiary amount availableBalance
      unreserveTotalIssued amount
      return result

end Chequebook

---- Phases Of A Call

/-
  How far a call has come, with what it has read.  The phases in the comments are those under the
  lock.
-/
inductive IssuePhase where
  | idle
  /- The peer is known, the beneficiary is not read yet. -/
  | begun
  | paying (b : EthAddress)
  /- locked: the reservation -/
  | entered (b : EthAddress)
  | readIssued (b : EthAddress) (v : Int)
  | readBalance (b : EthAddress) (v balance : Int)
  | readFunds (b : EthAddress) (v funds : Int)
  | readReserved (b : EthAddress) (v funds reserved : Int)
  | granted (b : EthAddress)
  | reserved (b : EthAddress)
  | readLast (b : EthAddress) (c : Int)
  | sent (b : EthAddress) (c : Int)
  | stored (b : EthAddress)
  /- locked: the count -/
  | counting (b : EthAddress)
  | readCount (b : EthAddress) (v : Int)
  | counted (b : EthAddress)
  | leaving (b : EthAddress)
  /- locked: the end of the reservation -/
  | unreserving (b : EthAddress) (counted : Bool)
  | closing (b : EthAddress)
  deriving DecidableEq

/-
  What a single step of a call with an amount does to its phase, to the holder of the lock and to
  the state.
-/
inductive IssueMove {ι : Type} (i : ι) (peer : Address) (amount : Int) :
    IssuePhase → Option ι → Payer → IssuePhase → Option ι → Payer → Prop where
  | begin {h : Option ι} {p : Payer} {b : EthAddress}
      (hBeneficiary : p.book.beneficiary peer = some b) :
      IssueMove i peer amount .begun h p (.paying b) h p
  | unknown {h : Option ι} {p : Payer} : IssueMove i peer amount .begun h p .idle h p
  | enter {p : Payer} {b : EthAddress} :
      IssueMove i peer amount (.paying b) none p (.entered b) (some i) p
  | readIssued {h : Option ι} {p : Payer} {b : EthAddress} :
      IssueMove i peer amount (.entered b) h p (.readIssued b p.issued) h p
  | readBalance {h : Option ι} {p : Payer} {b : EthAddress} {v : Int} :
      IssueMove i peer amount (.readIssued b v) h p (.readBalance b v p.balance) h p
  | readFunds {h : Option ι} {p : Payer} {b : EthAddress} {v balance : Int} :
      IssueMove i peer amount (.readBalance b v balance) h p
        (.readFunds b v (balance + p.totalPaidOut)) h p
  | readReserved {h : Option ι} {p : Payer} {b : EthAddress} {v funds : Int} :
      IssueMove i peer amount (.readFunds b v funds) h p
        (.readReserved b v funds p.totalIssuedReserved) h p
  | failIssued {h : Option ι} {p : Payer} {b : EthAddress} {v : Int} :
      IssueMove i peer amount (.readIssued b v) h p .idle none p
  | failBalance {h : Option ι} {p : Payer} {b : EthAddress} {v balance : Int} :
      IssueMove i peer amount (.readBalance b v balance) h p .idle none p
  | refuse {h : Option ι} {p : Payer} {b : EthAddress} {v funds reserved : Int} :
      IssueMove i peer amount (.readReserved b v funds reserved) h p .idle none p
  | grant {h : Option ι} {p : Payer} {b : EthAddress} {v funds reserved : Int}
      (hFunds : amount ≤ funds - v - reserved) :
      IssueMove i peer amount (.readReserved b v funds reserved) h p (.granted b) h
        { p with totalIssuedReserved := p.totalIssuedReserved + amount }
  | reserve {h : Option ι} {p : Payer} {b : EthAddress} :
      IssueMove i peer amount (.granted b) h p (.reserved b) none p
  | readLast {h : Option ι} {p : Payer} {b : EthAddress} :
      IssueMove i peer amount (.reserved b) h p (.readLast b (p.lastPayout b)) h p
  | send {h : Option ι} {p : Payer} {b : EthAddress} {c : Int} (signed : SignedCheque)
      (hBeneficiary : signed.beneficiary = b) (hPayout : signed.cumulativePayout = c + amount) :
      IssueMove i peer amount (.readLast b c) h p (.sent b c) h
        { p with sent := p.sent ++ [(signed, amount)] }
  | store {h : Option ι} {p : Payer} {b : EthAddress} {c : Int} (cheque : Cheque)
      (hPayout : cheque.cumulativePayout = c + amount) :
      IssueMove i peer amount (.sent b c) h p (.stored b) h
        { p with lastIssued := p.lastIssued.put b cheque }
  | count {p : Payer} {b : EthAddress} :
      IssueMove i peer amount (.stored b) none p (.counting b) (some i) p
  | readCount {h : Option ι} {p : Payer} {b : EthAddress} :
      IssueMove i peer amount (.counting b) h p (.readCount b p.issued) h p
  | writeCount {h : Option ι} {p : Payer} {b : EthAddress} {v : Int} :
      IssueMove i peer amount (.readCount b v) h p
        (.counted b) h { p with totalIssued := some (v + amount) }
  | leave {h : Option ι} {p : Payer} {b : EthAddress} :
      IssueMove i peer amount (.counted b) h p (.leaving b) none p
  | fail {p : Payer} {b : EthAddress} {c : Int} :
      IssueMove i peer amount (.readLast b c) none p (.unreserving b false) (some i) p
  | finish {p : Payer} {b : EthAddress} :
      IssueMove i peer amount (.leaving b) none p (.unreserving b true) (some i) p
  | unreserve {h : Option ι} {p : Payer} {b : EthAddress} {counted : Bool} :
      IssueMove i peer amount (.unreserving b counted) h p (.closing b) h
        { p with totalIssuedReserved := p.totalIssuedReserved - amount }
  | close {h : Option ι} {p : Payer} {b : EthAddress} :
      IssueMove i peer amount (.closing b) h p .idle none p

namespace Chequebook

/- `Pay` up to the end of `Issue`. -/
def pay (address : EthAddress) (env : IssueEnv) (peer : Address) (amount : Int) :
    Call Payer (Option (Except IssueErr Int)) := do
  match ← Call.get (·.book.beneficiary peer) with
  | none => return none
  | some beneficiary => do
      let result ← issue address env beneficiary amount
      return some result

end Chequebook

---- Every Step Is A Move

variable {ι : Type} [DecidableEq ι]
variable {outline : Outline ι Payer IssuePhase} {i : ι}
variable {peer : Address} {amount : Int}

/- The invariant of an outline is kept by every move. -/
def KeptByMoves (outline : Outline ι Payer IssuePhase) (i : ι) (peer : Address)
    (amount : Int) : Prop :=
  ∀ phases holder state phase holder' state', outline.Inv phases holder state →
    IssueMove i peer amount (phases i) holder state phase holder' state' →
    outline.Inv (Function.update phases i phase) holder' state'

theorem KeptByMoves.move (hKept : KeptByMoves outline i peer amount)
    (hInv : outline.Inv phases holder state) (hPhase : phases i = before)
    (hMove : IssueMove i peer amount before holder state after holder' state') :
    outline.Inv (Function.update phases i after) holder'
      state' := by
  subst hPhase
  exact hKept _ _ _ _ _ _ hInv hMove

variable (hKept : KeptByMoves outline i peer amount)
variable {address : EthAddress} {env : IssueEnv}

include hKept

theorem safe_unreserve
    (hEnter : ∀ p, IssueMove i peer amount phase none p (.unreserving b counted) (some i) p) :
    outline.Safe i (fun phase _ => phase = .idle)
      (Chequebook.unreserveTotalIssued amount) phase := by
  intro phases state hInv hPhase
  refine ⟨_, hKept.move hInv hPhase (hEnter state), ?_⟩
  intro phases holder state hInv hPhase
  refine ⟨_, hKept.move hInv hPhase .unreserve, ?_⟩
  intro phases holder state hInv hPhase
  exact ⟨_, hKept.move hInv hPhase .close, rfl⟩

theorem safe_countIssued :
    outline.Safe i (fun phase _ => phase = .leaving b)
      (Chequebook.countIssued amount) (.stored b) := by
  intro phases state hInv hPhase
  refine ⟨_, hKept.move hInv hPhase .count, ?_⟩
  intro phases holder state hInv hPhase
  refine ⟨_, hKept.move hInv hPhase .readCount, ?_⟩
  intro phases holder state hInv hPhase
  refine ⟨_, hKept.move hInv hPhase .writeCount, ?_⟩
  intro phases holder state hInv hPhase
  exact ⟨_, hKept.move hInv hPhase .leave, rfl⟩

/- A call has sent and counted a cheque, or nothing at all. -/
theorem safe_issueReserved (available : Int) : outline.Safe i (fun phase _ =>
        phase = .leaving b ∨ ∃ c, phase = .readLast b c)
      (Chequebook.issueReserved address env b amount available)
      (.reserved b) := by
  refine Outline.Safe.get_bind ?_
  intro phases holder state hInv hPhase
  refine ⟨_, hKept.move hInv hPhase .readLast, ?_⟩
  generalize state.lastPayout b = c
  dsimp only
  split
  · exact Or.inr ⟨c, rfl⟩
  next signature _ =>
  split
  · exact Or.inr ⟨c, rfl⟩
  intro phases holder state hInv hPhase
  refine ⟨_, hKept.move hInv hPhase (.send ⟨⟨address, b, c + amount⟩, signature⟩ rfl rfl), ?_⟩
  refine Outline.Safe.set_bind ?_
  intro phases holder state hInv hPhase
  refine ⟨_, hKept.move hInv hPhase (.store ⟨address, b, c + amount⟩ rfl), ?_⟩
  refine Outline.Safe.bind (safe_countIssued hKept) ?_
  intro phase _ hLeaving
  exact Or.inl hLeaving

/- The three reads under the lock. -/
theorem safe_availableBalance : outline.Safe i (fun phase result =>
        match result with
        | .error _ => (∃ v, phase = .readIssued b v) ∨ ∃ v balance, phase = .readBalance b v balance
        | .ok available => ∃ v funds, phase = .readFunds b v funds ∧ available = funds - v)
      (Chequebook.availableBalance env) (.entered b) := by
  refine Outline.Safe.get_bind ?_
  intro phases holder state hInv hPhase
  refine ⟨_, hKept.move hInv hPhase .readIssued, ?_⟩
  by_cases hBalance : env.balance = false
  · rw [if_pos hBalance]
    exact Or.inl ⟨_, rfl⟩
  rw [if_neg hBalance]
  refine Outline.Safe.get_bind ?_
  intro phases holder state hInv hPhase
  refine ⟨_, hKept.move hInv hPhase .readBalance, ?_⟩
  by_cases hPaid : env.totalPaidOut = false
  · rw [if_pos hPaid]
    exact Or.inr ⟨_, _, rfl⟩
  rw [if_neg hPaid]
  intro phases holder state hInv hPhase
  exact ⟨_, hKept.move hInv hPhase .readFunds, _, _, rfl, rfl⟩

/- Funds are reserved only if a call goes on. -/
theorem safe_reserveTotalIssued : outline.Safe i (fun phase result =>
        phase = match result with
          | .error _ => .idle
          | .ok _ => .reserved b)
      (Chequebook.reserveTotalIssued env amount)
      (.paying b) := by
  refine Outline.Safe.acquire_bind ?_
  intro phases state hInv hPhase
  refine ⟨_, hKept.move hInv hPhase .enter, ?_⟩
  refine Outline.Safe.bind (safe_availableBalance hKept) ?_
  intro phase result hResult
  cases result with
  | error e =>
    intro phases holder state hInv hPhase
    rcases hResult with ⟨v, rfl⟩ | ⟨v, balance, rfl⟩
    · exact ⟨_, hKept.move hInv hPhase .failIssued, rfl⟩
    · exact ⟨_, hKept.move hInv hPhase .failBalance, rfl⟩
  | ok available =>
    obtain ⟨v, funds, rfl, rfl⟩ := hResult
    refine Outline.Safe.get_bind ?_
    intro phases holder state hInv hPhase
    refine ⟨_, hKept.move hInv hPhase .readReserved, ?_⟩
    generalize state.totalIssuedReserved = reserved
    by_cases hFunds : funds - v - reserved < amount
    · rw [if_pos hFunds]
      intro phases holder state hInv hPhase
      exact ⟨_, hKept.move hInv hPhase .refuse, rfl⟩
    · rw [if_neg hFunds]
      intro phases holder state hInv hPhase
      refine ⟨_, hKept.move hInv hPhase (.grant (Int.not_lt.mp hFunds)), ?_⟩
      intro phases holder state hInv hPhase
      exact ⟨_, hKept.move hInv hPhase .reserve, rfl⟩

theorem safe_issue :
    outline.Safe i (fun phase _ => phase = .idle)
      (Chequebook.issue address env b amount) (.paying b) := by
  refine Outline.Safe.bind (safe_reserveTotalIssued hKept) ?_
  intro phase result hPhase
  cases result with
  | error e => exact hPhase
  | ok available =>
    subst hPhase
    refine Outline.Safe.bind (safe_issueReserved hKept available) ?_
    rintro phase result (hLeaving | ⟨c, hFailed⟩)
    · subst hLeaving
      refine Outline.Safe.bind (safe_unreserve hKept fun _ => IssueMove.finish) ?_
      exact fun _ _ hIdle => hIdle
    · subst hFailed
      refine Outline.Safe.bind (safe_unreserve hKept fun _ => IssueMove.fail) ?_
      exact fun _ _ hIdle => hIdle

theorem safe_pay :
    outline.Safe i (fun phase _ => phase = .idle)
      (Chequebook.pay address env peer amount) .begun := by
  refine Outline.Safe.get_bind ?_
  intro phases holder state hInv hPhase
  cases hBeneficiary : state.book.beneficiary peer with
  | none => exact ⟨_, hKept.move hInv hPhase .unknown, rfl⟩
  | some b =>
    refine ⟨_, hKept.move hInv hPhase (.begin hBeneficiary), ?_⟩
    exact Outline.Safe.bind (safe_issue hKept) (fun _ _ hIdle => hIdle)

end Sana.Settlement
