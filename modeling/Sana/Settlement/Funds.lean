import Sana.Settlement.Chequebook

/-
  The funds of a chequebook.

  Calls that issue cheques are interleaved with each other and with changes of the contract.  As
  long as nothing is paid out between the two reads of the contract, the cheques that were sent are
  covered by what was put into the contract.

  Key definitions include:
    * `Payer.handedOut`
    * `Booked`

  Key theorems include:
    * `Booked.move`
-/

---- What A Call Holds

namespace Sana.Settlement

open KeyValue Program Swarm

namespace IssuePhase

/- The call holds the lock. -/
def locked : IssuePhase → Bool
| .entered _ | .readIssued .. | .readBalance ..
| .readFunds .. | .readReserved .. | .granted _
| .counting _ | .readCount .. | .counted _
| .unreserving .. | .closing _ => true
| _ => false

/- What the call has added to the reserved total. -/
def reserves (amount : Int) : IssuePhase → Int
| .granted _ | .reserved _ | .readLast .. | .sent ..
| .stored _ | .counting _ | .readCount .. | .counted _
| .leaving _ | .unreserving .. => amount
| _ => 0

/- What the call has reserved and not counted as issued. -/
def owes (amount : Int) : IssuePhase → Int
| .granted _ | .reserved _ | .readLast .. | .sent ..
| .stored _ | .counting _ | .readCount .. => amount
| .unreserving _ true => 0
| .unreserving _ false => amount
| _ => 0

/- What the call has sent and not counted as issued. -/
def uncounted (amount : Int) : IssuePhase → Int
| .sent .. | .stored _ | .counting _ | .readCount .. => amount
| _ => 0

theorem owes_le_reserves (hAmount : 0 ≤ amount) (phase : IssuePhase) :
    phase.owes amount ≤ phase.reserves amount := by
  cases phase with
  | unreserving b isCounted =>
    cases isCounted
    · exact le_refl amount
    · exact hAmount
  | counted b | leaving b => exact hAmount
  | _ => exact le_refl _

theorem uncounted_le_owes (hAmount : 0 ≤ amount) (phase : IssuePhase) :
    phase.uncounted amount ≤ phase.owes amount := by
  cases phase with
  | unreserving b isCounted =>
    cases isCounted
    · exact hAmount
    · exact le_refl 0
  | granted b | reserved b | readLast b c => exact hAmount
  | _ => exact le_refl _

end IssuePhase

namespace Payer

/- The sum of all amounts that were sent. -/
def sentTotal (p : Payer) : Int :=
  (p.sent.map Prod.snd).sum

/- The sum of the amounts sent to one beneficiary. -/
def sentTo (p : Payer) (b : EthAddress) : Int :=
  ((p.sent.filter fun entry => entry.1.beneficiary = b).map Prod.snd).sum

/- The largest payout that was sent to a beneficiary. -/
def largest (p : Payer) (b : EthAddress) : Int :=
  ((p.sent.filter fun entry =>
    entry.1.beneficiary = b).map fun entry => entry.1.cumulativePayout).foldl max 0

/- All beneficiaries to which something was sent. -/
def beneficiaries (p : Payer) : Finset EthAddress :=
  (p.sent.map fun entry => entry.1.beneficiary).toFinset

/- The sum of the largest payouts of all beneficiaries. -/
def handedOut (p : Payer) : Int :=
  ∑ b ∈ p.beneficiaries, p.largest b

end Payer

---- Moves And The Lock

section

variable {ι : Type} [DecidableEq ι]
variable {i : ι} {peer : Address} {amount : Int}
variable {phase phase' : IssuePhase}
variable {holder holder' : Option ι} {p p' : Payer}

omit [DecidableEq ι] in
/- A move keeps the lock, takes it or gives it back. -/
theorem IssueMove.lock_cases (hMove : IssueMove i peer amount phase holder p phase' holder' p') :
    (holder' = holder ∧ phase'.locked = phase.locked) ∨
      (holder = none ∧ holder' = some i ∧ phase'.locked = true) ∨
      (phase.locked = true ∧ holder' = none ∧ phase'.locked = false) := by
  cases hMove with
  | enter | count | fail | finish => exact Or.inr (Or.inl ⟨rfl, rfl, rfl⟩)
  | failIssued | failBalance | refuse | reserve | leave | close =>
    exact Or.inr (Or.inr ⟨rfl, rfl, rfl⟩)
  | _ => exact Or.inl ⟨rfl, rfl⟩

/- The holder is the call that is in a locked phase. -/
def LockFits (phases : ι → IssuePhase) (holder : Option ι) : Prop :=
  ∀ j, holder = some j ↔ (phases j).locked = true

theorem LockFits.move (hLock : LockFits phases holder)
    (hMove : IssueMove i peer amount (phases i) holder p phase' holder' p') :
    LockFits (Function.update phases i phase') holder' := by
  intro j
  have hI := hLock i
  have hJ := hLock j
  by_cases hEq : j = i
  · subst hEq
    rw [Function.update_self]
    rcases hMove.lock_cases with ⟨rfl, hSame⟩ | ⟨-, rfl, hLocked⟩ | ⟨-, rfl, hLocked⟩
    · rw [hSame]
      exact hI
    · exact iff_of_true rfl hLocked
    · rw [hLocked]
      exact iff_of_false nofun nofun
  · rw [Function.update_of_ne hEq]
    rcases hMove.lock_cases with ⟨rfl, -⟩ | ⟨hFree, rfl, -⟩ | ⟨hLocked, rfl, -⟩
    · exact hJ
    · refine iff_of_false (fun hSome => hEq (Option.some.inj hSome).symm) ?_
      intro hOther
      cases hFree.symm.trans (hJ.mpr hOther)
    · refine iff_of_false nofun ?_
      intro hOther
      have hSame := (hI.mpr hLocked).symm.trans (hJ.mpr hOther)
      exact hEq (Option.some.inj hSame).symm

omit [DecidableEq ι] in
/- While a call is in a locked phase, no other one is. -/
theorem LockFits.alone (hLock : LockFits phases holder)
    (hLocked : (phases i).locked = true) (hNe : j ≠ i) : (phases j).locked = false := by
  cases hOther : (phases j).locked with
  | false => rfl
  | true =>
    have hSame := ((hLock i).mpr hLocked).symm.trans ((hLock j).mpr hOther)
    exact absurd (Option.some.inj hSame).symm hNe

end

---- Amounts That Were Sent

namespace Payer

variable {p : Payer}

/- The state after a cheque was sent. -/
abbrev afterSend (p : Payer) (entry : SignedCheque × Int) : Payer :=
  { p with sent := p.sent ++ [entry] }

theorem sentTotal_afterSend (entry : SignedCheque × Int) :
    (p.afterSend entry).sentTotal = p.sentTotal + entry.2 := by
  unfold sentTotal afterSend
  simp

theorem sentTo_afterSend (entry : SignedCheque × Int) (b : EthAddress) :
    (p.afterSend entry).sentTo b = p.sentTo b + if entry.1.beneficiary = b then entry.2 else 0 := by
  unfold sentTo afterSend
  rw [List.filter_append, List.map_append]
  by_cases hEq : entry.1.beneficiary = b
  · rw [if_pos hEq, List.filter_cons_of_pos (by simpa using hEq)]
    simp
  · rw [if_neg hEq, List.filter_cons_of_neg (by simpa using hEq)]
    simp

theorem lastPayout_put (b b' : EthAddress) (cheque : Cheque) :
    ({ p with
        lastIssued := p.lastIssued.put b cheque } :
        Payer).lastPayout b' =
      if b = b' then cheque.cumulativePayout
      else p.lastPayout b' := by
  unfold lastPayout
  rw [Index.get_put]
  by_cases hEq : b = b'
  · rw [if_pos hEq, if_pos hEq]
  · rw [if_neg hEq, if_neg hEq]

/- Amounts, added up for each beneficiary. -/
theorem sum_filter_eq (sent : List (SignedCheque × Int))
    (hAll : ∀ entry ∈ sent, entry.1.beneficiary ∈ s) : ∑ b ∈ s, ((sent.filter fun entry =>
        entry.1.beneficiary = b).map Prod.snd).sum =
      (sent.map Prod.snd).sum := by
  induction sent with
  | nil => exact Finset.sum_const_zero
  | cons entry rest ih =>
    have hRest := ih fun e hE => hAll e (List.mem_cons_of_mem entry hE)
    have hFirst := hAll entry List.mem_cons_self
    have hSplit : ∀ b, (((entry :: rest).filter fun e =>
            e.1.beneficiary = b).map Prod.snd).sum =
          (if entry.1.beneficiary = b then entry.2 else 0) + ((rest.filter fun e =>
              e.1.beneficiary = b).map Prod.snd).sum := by
      intro b
      by_cases hEq : entry.1.beneficiary = b
      · rw [if_pos hEq, List.filter_cons_of_pos (by simpa using hEq), List.map_cons, List.sum_cons]
      · rw [if_neg hEq, List.filter_cons_of_neg (by simpa using hEq), zero_add]
    rw [Finset.sum_congr rfl fun b _ => hSplit b, Finset.sum_add_distrib, hRest, Finset.sum_ite_eq,
      if_pos hFirst, List.map_cons, List.sum_cons]

/- The amounts of all beneficiaries are all amounts. -/
theorem sum_sentTo (p : Payer) : ∑ b ∈ p.beneficiaries, p.sentTo b = p.sentTotal := by
  apply sum_filter_eq
  intro entry hEntry
  exact List.mem_toFinset.mpr (List.mem_map_of_mem hEntry)

/- If no payout is above the amounts, all are covered. -/
theorem handedOut_le_sentTotal
    (hCheques : ∀ entry ∈ p.sent, entry.1.cumulativePayout ≤ p.sentTo entry.1.beneficiary)
    (hSent : ∀ b, 0 ≤ p.sentTo b) : p.handedOut ≤ p.sentTotal := by
  rw [← p.sum_sentTo]
  apply Finset.sum_le_sum
  intro b _
  unfold largest
  have hBound : ∀ c ∈ (p.sent.filter fun entry =>
          entry.1.beneficiary = b).map fun entry => entry.1.cumulativePayout,
        c ≤ p.sentTo b := by
    intro c hC
    obtain ⟨entry, hEntry, rfl⟩ := List.mem_map.mp hC
    obtain ⟨hMem, hB⟩ := List.mem_filter.mp hEntry
    have hEq : entry.1.beneficiary = b := by simpa using hB
    rw [← hEq]
    exact hCheques entry hMem
  revert hBound
  generalize (p.sent.filter fun entry =>
    entry.1.beneficiary = b).map (fun entry => entry.1.cumulativePayout) = payouts
  intro hBound
  -- the maximum starts from zero and stays below the bound
  have hFold : ∀ top, top ≤ p.sentTo b → payouts.foldl max top ≤ p.sentTo b := by
    induction payouts with
    | nil => exact fun _ hTop => hTop
    | cons c rest ih =>
      intro top hTop
      refine ih (fun c' hC => hBound c' (List.mem_cons_of_mem c hC)) _ ?_
      exact max_le hTop (hBound c List.mem_cons_self)
  exact hFold 0 (hSent b)

end Payer

---- What Was Issued

section

variable {ι : Type} {i : ι} {peer : Address} {amount : Int}
variable {phase phase' : IssuePhase}
variable {holder holder' : Option ι} {p p' : Payer}

/- Only the lock holder changes what was issued. -/
theorem IssueMove.issued_cases (hMove : IssueMove i peer amount phase holder p phase' holder' p') :
    p'.issued = p.issued ∨ phase.locked = true := by
  cases hMove with
  | writeCount => exact Or.inr rfl
  | _ => exact Or.inl rfl

/- Only the lock holder changes the reserved total. -/
theorem IssueMove.reserved_cases
    (hMove : IssueMove i peer amount phase holder p phase' holder' p') :
    p'.totalIssuedReserved = p.totalIssuedReserved ∨ phase.locked = true := by
  cases hMove with
  | grant | unreserve => exact Or.inr rfl
  | _ => exact Or.inl rfl

/- What was sent is counted, or its call is under way. -/
theorem IssueMove.sentTotal_eq (hCount : ∀ b v, phase = .readCount b v → v = p.issued)
    (hMove : IssueMove i peer amount phase holder p phase' holder' p') :
    p'.sentTotal + p.issued + phase.uncounted amount =
      p.sentTotal + p'.issued + phase'.uncounted amount := by
  cases hMove with
  | send signed =>
    have hSent := p.sentTotal_afterSend (signed, amount)
    change (p.afterSend (signed, amount)).sentTotal + p.issued + 0 = p.sentTotal + p.issued + amount
    omega
  | @writeCount _ _ b v =>
    have hV := hCount b v rfl
    change p.sentTotal + p.issued + amount = p.sentTotal + (v + amount) + 0
    omega
  | _ => rfl

/- What is read for the count is what was issued. -/
theorem IssueMove.eq_issued (hMove : IssueMove i peer amount phase holder p phase' holder' p')
    (hPhase : phase' = .readCount b v) : v = p'.issued := by
  cases hMove with
  | readCount =>
    cases hPhase
    rfl
  | _ => cases hPhase

/-
  What holds of the books whatever the funds are: the lock, the count of what was sent, and what was
  read for the count.
-/
structure Booked [Fintype ι] (amount : ι → Int) (phases : ι → IssuePhase) (holder : Option ι)
    (p : Payer) : Prop where
  lock : LockFits phases holder
  sent : p.sentTotal = p.issued + ∑ j, (phases j).uncounted (amount j)
  counts : ∀ j b v, phases j = .readCount b v → v = p.issued

theorem Booked.move [Fintype ι] [DecidableEq ι] {amount : ι → Int} {phases : ι → IssuePhase}
    (hBooked : Booked amount phases holder p)
    (hMove : IssueMove i peer (amount i) (phases i) holder p phase' holder' p') :
    Booked amount (Function.update phases i phase') holder'
      p' := by
  constructor
  · exact hBooked.lock.move hMove
  · have hSum := Outline.sum_update_phase
      (fun j phase => phase.uncounted (amount j)) phases i phase'
    have hTotal := hMove.sentTotal_eq (hBooked.counts i)
    have hOld := hBooked.sent
    omega
  · intro j b v hPhase
    by_cases hEq : j = i
    · subst hEq
      rw [Function.update_self] at hPhase
      exact hMove.eq_issued hPhase
    · rw [Function.update_of_ne hEq] at hPhase
      have hV := hBooked.counts j b v hPhase
      rcases hMove.issued_cases with hSame | hLocked
      · rw [hSame]
        exact hV
      · have hAlone := hBooked.lock.alone hLocked hEq
        rw [hPhase] at hAlone
        cases hAlone

end

---- Funds

section

/- What a call under the lock has read still holds. -/
def IssuePhase.Reads (p : Payer) : IssuePhase → Prop
| .readIssued _ v => v = p.issued
| .readBalance _ v balance => v = p.issued ∧ balance + p.totalPaidOut ≤ p.funds
| .readFunds _ v funds => v = p.issued ∧ funds ≤ p.funds
| .readReserved _ v funds r => v = p.issued ∧ funds ≤ p.funds ∧ r = p.totalIssuedReserved
| _ => True

/- A call knows of no more than was sent. -/
def IssuePhase.Knows (amount : Int) (p : Payer) : IssuePhase → Prop
| .readLast b c => c ≤ p.sentTo b
| .sent b c => c + amount ≤ p.sentTo b
| _ => True

variable {ι : Type} {i : ι} {peer : Address} {amount : Int}
variable {phase phase' : IssuePhase}
variable {holder holder' : Option ι} {p p' : Payer}

/- What is read is not lost while others move. -/
theorem IssuePhase.Reads.unlocked (hLocked : phase.locked = false) : phase.Reads p := by
  cases phase with
  | readIssued | readBalance | readFunds | readReserved => cases hLocked
  | _ => exact trivial

section

variable (hMove : IssueMove i peer amount phase holder p phase' holder' p')
include hMove

/- Calls do not change the contract. -/
theorem IssueMove.contract_eq : p'.balance = p.balance ∧ p'.totalPaidOut = p.totalPaidOut := by
  cases hMove <;> exact ⟨rfl, rfl⟩

theorem IssueMove.funds_eq : p'.funds = p.funds := by
  unfold Payer.funds
  rw [hMove.contract_eq.1, hMove.contract_eq.2]

theorem IssueMove.reserved_eq :
    p'.totalIssuedReserved + phase.reserves amount =
      p.totalIssuedReserved + phase'.reserves amount := by
  cases hMove with
  | grant hFunds =>
    change p.totalIssuedReserved + amount + 0 = p.totalIssuedReserved + amount
    omega
  | unreserve =>
    change p.totalIssuedReserved - amount + amount = p.totalIssuedReserved + 0
    omega
  | _ => rfl

end

/- Only with enough funds does a call owe more than before. -/
theorem IssueMove.owes_cases (hAmount : 0 ≤ amount)
    (hCount : ∀ b v, phase = .readCount b v → v = p.issued) (hReads : phase.Reads p)
    (hMove : IssueMove i peer amount phase holder p phase' holder' p') :
    p'.issued + phase'.owes amount ≤ p.issued + phase.owes amount ∨
      phase.owes amount = 0 ∧ phase'.owes amount = amount ∧ p'.issued = p.issued ∧
        amount ≤ p.funds - p.issued - p.totalIssuedReserved := by
  cases hMove with
  | @grant _ _ b v funds reserved hFunds =>
    obtain ⟨hV, hF, hR⟩ := hReads
    refine Or.inr ⟨rfl, rfl, rfl, ?_⟩
    omega
  | @writeCount _ _ b v =>
    have hV := hCount b v rfl
    left
    change v + amount + 0 ≤ p.issued + amount
    omega
  | @unreserve _ _ b counted =>
    left
    cases counted
    · change p.issued + 0 ≤ p.issued + amount
      omega
    · exact le_refl _
  | _ => exact Or.inl (le_refl _)

theorem IssueMove.reads (hReads : phase.Reads p)
    (hMove : IssueMove i peer amount phase holder p phase' holder' p') : phase'.Reads p' := by
  cases hMove with
  | readIssued => exact rfl
  | readBalance => exact ⟨hReads, le_refl _⟩
  | readFunds => exact hReads
  | readReserved => exact ⟨hReads.1, hReads.2, rfl⟩
  | _ => exact trivial

/- Nothing that was sent is taken back. -/
theorem IssueMove.sentTo_le (hAmount : 0 ≤ amount)
    (hMove : IssueMove i peer amount phase holder p phase' holder' p') (b : EthAddress) :
    p.sentTo b ≤ p'.sentTo b := by
  cases hMove with
  | send signed =>
    rw [Payer.sentTo_afterSend]
    split <;> omega
  | _ => exact le_refl _

theorem IssueMove.knows (hLast : ∀ b, p.lastPayout b ≤ p.sentTo b) (hKnows : phase.Knows amount p)
    (hMove : IssueMove i peer amount phase holder p phase' holder' p') :
    phase'.Knows amount p' := by
  cases hMove with
  | readLast => exact hLast _
  | @send _ _ b c signed hBeneficiary hPayout =>
    change c + amount ≤ (p.afterSend (signed, amount)).sentTo b
    rw [Payer.sentTo_afterSend, if_pos hBeneficiary]
    have hC : c ≤ p.sentTo b := hKnows
    omega
  | _ => exact trivial

/- What a call knows stays true while more is sent. -/
theorem IssuePhase.Knows.mono (hKnows : phase.Knows amount p)
    (hSent : ∀ b, p.sentTo b ≤ p'.sentTo b) : phase.Knows amount p' := by
  cases phase with
  | readLast b c | sent b c => exact le_trans hKnows (hSent b)
  | _ => exact trivial

theorem IssueMove.lastPayout_le (hAmount : 0 ≤ amount) (hLast : ∀ b, p.lastPayout b ≤ p.sentTo b)
    (hKnows : phase.Knows amount p)
    (hMove : IssueMove i peer amount phase holder p phase' holder' p') (b : EthAddress) :
    p'.lastPayout b ≤ p'.sentTo b := by
  have hSent := hMove.sentTo_le hAmount b
  cases hMove with
  | @store _ _ b' c cheque hPayout =>
    rw [Payer.lastPayout_put]
    by_cases hEq : b' = b
    · subst hEq
      rw [if_pos rfl, hPayout]
      exact hKnows
    · rw [if_neg hEq]
      exact hLast b
  | _ => exact le_trans (hLast b) hSent

theorem IssueMove.cheques_le (hAmount : 0 ≤ amount) (hKnows : phase.Knows amount p)
    (hCheques : ∀ entry ∈ p.sent, entry.1.cumulativePayout ≤ p.sentTo entry.1.beneficiary)
    (hMove : IssueMove i peer amount phase holder p phase' holder' p') :
    ∀ entry ∈ p'.sent, entry.1.cumulativePayout ≤ p'.sentTo entry.1.beneficiary := by
  have hSent := hMove.sentTo_le hAmount
  cases hMove with
  | @send _ _ b c signed hBeneficiary hPayout =>
    intro entry hEntry
    rcases List.mem_append.mp hEntry with hOld | hNew
    · exact le_trans (hCheques entry hOld) (hSent _)
    · rw [List.mem_singleton.mp hNew]
      rw [Payer.sentTo_afterSend, if_pos rfl, hPayout, hBeneficiary]
      have hC : c ≤ p.sentTo b := hKnows
      omega
  | _ => exact hCheques

/- The cheques that were sent are covered by the funds. -/
structure Funded [Fintype ι] (amount : ι → Int) (phases : ι → IssuePhase) (holder : Option ι)
    (p : Payer) : Prop extends Booked amount phases holder p where
  reserved : p.totalIssuedReserved = ∑ j, (phases j).reserves (amount j)
  covered : p.issued + ∑ j, (phases j).owes (amount j) ≤ p.funds
  reads : ∀ j, (phases j).Reads p
  knows : ∀ j, (phases j).Knows (amount j) p
  last : ∀ b, p.lastPayout b ≤ p.sentTo b
  nonneg : ∀ b, 0 ≤ p.sentTo b
  cheques : ∀ entry ∈ p.sent, entry.1.cumulativePayout ≤ p.sentTo entry.1.beneficiary

theorem Funded.move [Fintype ι] [DecidableEq ι] {amount : ι → Int} (hAmount : ∀ j, 0 ≤ amount j)
    {phases : ι → IssuePhase} (hFunded : Funded amount phases holder p)
    (hMove : IssueMove i peer (amount i) (phases i) holder p phase' holder' p') :
    Funded amount (Function.update phases i phase') holder'
      p' := by
  have hSent := hMove.sentTo_le (hAmount i)
  refine
    { toBooked := hFunded.toBooked.move hMove
      reserved := ?_
      covered := ?_
      reads := ?_
      knows := ?_
      last := hMove.lastPayout_le (hAmount i) hFunded.last (hFunded.knows i)
      nonneg := fun b => le_trans (hFunded.nonneg b) (hSent b)
      cheques := hMove.cheques_le (hAmount i) (hFunded.knows i) hFunded.cheques }
  · have hSum := Outline.sum_update_phase (fun j phase => phase.reserves (amount j)) phases i phase'
    have hEq := hMove.reserved_eq
    have hOld := hFunded.reserved
    omega
  · have hSum := Outline.sum_update_phase (fun j phase => phase.owes (amount j)) phases i phase'
    have hLe : ∑ j, (phases j).owes (amount j) ≤ ∑ j, (phases j).reserves (amount j) :=
      Finset.sum_le_sum fun j _ => IssuePhase.owes_le_reserves (hAmount j) (phases j)
    have hOld := hFunded.covered
    have hReserved := hFunded.reserved
    have hFunds := hMove.funds_eq
    rcases hMove.owes_cases (hAmount i) (hFunded.counts i) (hFunded.reads i) with
      hLess | ⟨hBefore, hAfter, hIssued, hEnough⟩
    · omega
    · omega
  · intro j
    by_cases hEq : j = i
    · subst hEq
      rw [Function.update_self]
      exact hMove.reads (hFunded.reads j)
    · rw [Function.update_of_ne hEq]
      have hOld := hFunded.reads j
      cases hLocked : (phases j).locked with
      | false => exact .unlocked hLocked
      | true =>
        -- the mover does not hold the lock, so that it changes nothing that is read under it
        have hNot : (phases i).locked = false := hFunded.lock.alone hLocked (Ne.symm hEq)
        have hIssued : p'.issued = p.issued := by
          rcases hMove.issued_cases with hSame | hBad
          · exact hSame
          · cases hNot.symm.trans hBad
        have hReserved : p'.totalIssuedReserved = p.totalIssuedReserved := by
          rcases hMove.reserved_cases with hSame | hBad
          · exact hSame
          · cases hNot.symm.trans hBad
        have hFunds := hMove.funds_eq
        have hPaid := hMove.contract_eq.2
        revert hOld
        cases phases j with
        | readIssued b v => exact fun hV => hV.trans hIssued.symm
        | readBalance b v balance =>
          rintro ⟨hV, hB⟩
          refine ⟨hV.trans hIssued.symm, ?_⟩
          rw [hPaid, hFunds]
          exact hB
        | readFunds b v funds =>
          rintro ⟨hV, hF⟩
          exact ⟨hV.trans hIssued.symm, hFunds ▸ hF⟩
        | readReserved b v funds reserved =>
          rintro ⟨hV, hF, hR⟩
          exact ⟨hV.trans hIssued.symm, hFunds ▸ hF, hR.trans hReserved.symm⟩
        | _ => exact id
  · intro j
    by_cases hEq : j = i
    · subst hEq
      rw [Function.update_self]
      exact hMove.knows hFunded.last (hFunded.knows j)
    · rw [Function.update_of_ne hEq]
      exact (hFunded.knows j).mono hSent

end

---- All Interleavings

variable {ι : Type} {i : ι}
variable {phases : ι → IssuePhase}
variable {holder : Option ι} {p : Payer}

/- A call that begins holds nothing yet. -/
theorem Booked.begin [Fintype ι] [DecidableEq ι]
    (hBooked : Booked amount phases holder p) (hIdle : phases i = .idle)
    (hPhase : phase = .begun ∨ ∃ b, phase = .paying b) :
    Booked amount (Function.update phases i phase) holder p := by
  have hPlain :
      phase.locked = false ∧ phase.uncounted (amount i) = 0 ∧ ∀ b v, phase ≠ .readCount b v := by
    rcases hPhase with rfl | ⟨b, rfl⟩
    · exact ⟨rfl, rfl, nofun⟩
    · exact ⟨rfl, rfl, nofun⟩
  constructor
  · intro j
    have hJ := hBooked.lock j
    by_cases hEq : j = i
    · subst hEq
      rw [Function.update_self, hPlain.1]
      rw [hIdle] at hJ
      exact hJ
    · rw [Function.update_of_ne hEq]
      exact hJ
  · have hSum := Outline.sum_update_phase (fun j phase => phase.uncounted (amount j)) phases i phase
    have hOld := hBooked.sent
    have hZero : (phases i).uncounted (amount i) = 0 := by
      rw [hIdle]
      rfl
    omega
  · intro j b v hRead
    by_cases hEq : j = i
    · subst hEq
      rw [Function.update_self] at hRead
      exact absurd hRead (hPlain.2.2 b v)
    · rw [Function.update_of_ne hEq] at hRead
      exact hBooked.counts j b v hRead

theorem Funded.begin [Fintype ι] [DecidableEq ι]
    (hFunded : Funded amount phases holder p) (hIdle : phases i = .idle) (b : EthAddress) :
    Funded amount (Function.update phases i (.paying b)) holder
      p := by
  refine
    { hFunded with
      toBooked := hFunded.toBooked.begin hIdle (Or.inr ⟨b, rfl⟩)
      reserved := ?_
      covered := ?_
      reads := ?_
      knows := ?_ }
  · have hSum := Outline.sum_update_phase
      (fun j phase => phase.reserves (amount j)) phases i (.paying b)
    have hOld := hFunded.reserved
    have hZero : (phases i).reserves (amount i) = 0 := by
      rw [hIdle]
      rfl
    have hNew : (IssuePhase.paying b).reserves (amount i) = 0 := rfl
    omega
  · have hSum := Outline.sum_update_phase
      (fun j phase => phase.owes (amount j)) phases i (.paying b)
    have hOld := hFunded.covered
    have hZero : (phases i).owes (amount i) = 0 := by
      rw [hIdle]
      rfl
    have hNew : (IssuePhase.paying b).owes (amount i) = 0 := rfl
    omega
  · intro j
    by_cases hEq : j = i
    · rw [hEq, Function.update_self]
      exact trivial
    · rw [Function.update_of_ne hEq]
      exact hFunded.reads j
  · intro j
    by_cases hEq : j = i
    · rw [hEq, Function.update_self]
      exact trivial
    · rw [Function.update_of_ne hEq]
      exact hFunded.knows j

/- A chequebook that has not issued anything. -/
structure Payer.Fresh (p : Payer) : Prop where
  totalIssued : p.totalIssued = none
  lastIssued : p.lastIssued = .empty
  reserved : p.totalIssuedReserved = 0
  sent : p.sent = []

theorem Payer.Fresh.booked [Fintype ι] (amount : ι → Int) (hFresh : p.Fresh) :
    Booked amount (fun _ => .idle) none p where
  lock _ := iff_of_false nofun nofun
  sent := by
    unfold Payer.sentTotal Payer.issued
    rw [hFresh.sent, hFresh.totalIssued]
    change 0 = 0 + ∑ _j : ι, (0 : Int)
    rw [Finset.sum_const_zero]
    rfl
  counts _ _ _ hPhase := by cases hPhase

theorem Payer.Fresh.sentTo (hFresh : p.Fresh) (b : EthAddress) : p.sentTo b = 0 := by
  unfold Payer.sentTo
  rw [hFresh.sent]
  rfl

theorem Payer.Fresh.lastPayout (hFresh : p.Fresh) (b : EthAddress) : p.lastPayout b = 0 := by
  unfold Payer.lastPayout
  rw [hFresh.lastIssued, Index.get_empty]

theorem Payer.Fresh.funded [Fintype ι] (amount : ι → Int) (hFresh : p.Fresh) :
    Funded amount (fun _ => .idle) none p where
  toBooked := hFresh.booked amount
  reserved := by
    rw [hFresh.reserved]
    exact Finset.sum_const_zero.symm
  covered := by
    have hSum : ∑ _j : ι, (0 : Int) = 0 := Finset.sum_const_zero
    unfold Payer.issued Payer.funds
    rw [hFresh.totalIssued]
    change 0 + ∑ _j : ι, (0 : Int) ≤ _
    omega
  reads _ := trivial
  knows _ := trivial
  last b := by rw [hFresh.lastPayout, hFresh.sentTo]
  nonneg b := by rw [hFresh.sentTo]
  cheques := by
    rw [hFresh.sent]
    exact nofun

/-
  The contract changes by itself: its balance and what it has paid out together never become less.
-/
def ContractGrows {α : Type} : SharedLabel ι Payer → Threads ι Payer α → Prop
| .thread _, _ => True
| .outside update, sys =>
  (∃ balance totalPaidOut, update sys.state =
      { sys.state with
        balance := balance
        totalPaidOut := totalPaidOut }) ∧
    sys.state.funds ≤ (update sys.state).funds

/- In addition, nothing is paid out while a call has the lock. -/
def ContractSteady {α : Type} (label : SharedLabel ι Payer) (sys : Threads ι Payer α) : Prop :=
  ContractGrows label sys ∧ match label with
    | .thread _ => True
    | .outside update =>
      sys.holder ≠ none → (update sys.state).totalPaidOut ≤ sys.state.totalPaidOut

theorem Funded.outside [Fintype ι] (hFunded : Funded amount phases holder p) (hGrows : p.funds ≤
        ({ p with
          balance := balance
          totalPaidOut := totalPaidOut } : Payer).funds)
    (hSteady : holder ≠ none → totalPaidOut ≤ p.totalPaidOut) :
    Funded amount phases holder
      { p with
        balance := balance
        totalPaidOut := totalPaidOut } := by
  refine { hFunded with covered := le_trans hFunded.covered hGrows, reads := fun j => ?_ }
  have hOld := hFunded.reads j
  have hLock := hFunded.lock j
  revert hOld hLock
  cases phases j with
  | readIssued b v => exact fun hV _ => hV
  | readBalance b v balance =>
    rintro ⟨hV, hB⟩ hLock
    -- the call has the lock, so that nothing was paid out
    have hHeld : holder ≠ none := by
      rw [hLock.mpr rfl]
      exact nofun
    have hPaid := hSteady hHeld
    refine ⟨hV, ?_⟩
    change balance + (totalPaidOut : Int) ≤ _
    omega
  | readFunds b v funds => exact fun hRead _ => ⟨hRead.1, le_trans hRead.2 hGrows⟩
  | readReserved b v funds r => exact fun hRead _ => ⟨hRead.1, le_trans hRead.2.1 hGrows, hRead.2.2⟩
  | _ => exact fun _ _ => trivial

def fundsOutline [Fintype ι] (amount : ι → Int) : Outline ι Payer IssuePhase where
  idle := .idle
  Inv := Funded amount

/-
  However many calls issue cheques at the same time, what was handed out is covered by the funds of
  the contract, if nothing is paid out while a call has the lock.
-/
theorem chequebook_never_overdrawn [Fintype ι] [DecidableEq ι] (address : EthAddress)
    (env : ι → IssueEnv) (beneficiary : ι → EthAddress) (amount : ι → Int) (clocks : ι → Clock)
    {start : Payer} {sys : Threads ι Payer (Except IssueErr Int)} (hAmount : ∀ i, 0 < amount i)
    (hFresh : start.Fresh)
    (hReach :
      Reach SharedStep ContractSteady
        (Threads.start
          (fun i => Chequebook.issue address (env i)
            (beneficiary i) (amount i)) clocks start) sys) :
    sys.state.handedOut ≤ (sys.state.balance : Int) + sys.state.totalPaidOut := by
  have hNonneg : ∀ i, 0 ≤ amount i := fun i => (hAmount i).le
  have hKept : ∀ i, KeptByMoves (fundsOutline amount) i 0 (amount i) := by
    intro i phases holder state phase holder' state' hInv hMove
    exact Funded.move hNonneg hInv hMove
  have hCovered :
      Outline.Covered (fundsOutline amount)
        (fun i => Chequebook.issue address (env i) (beneficiary i) (amount i)) sys := by
    refine Outline.covered_of_reach (fun _ _ => False) (hFresh.funded amount) ?_ ?_ ?_ hReach
    · intro i phases holder state hInv hIdle _
      exact ⟨.paying (beneficiary i), Funded.begin hInv hIdle _, safe_issue (hKept i)⟩
    · intro i sys _ _ j hConflict
      exact hConflict.elim
    · intro update sys phases hAllowed hInv _
      obtain ⟨⟨⟨balance, paid, hUpdate⟩, hGrows⟩, hSteady⟩ := hAllowed
      dsimp only at hSteady
      rw [hUpdate] at hGrows hSteady ⊢
      exact Funded.outside hInv hGrows hSteady
  obtain ⟨phases, hFunded, -⟩ := hCovered
  have hLe : ∑ j, (phases j).uncounted (amount j) ≤ ∑ j, (phases j).owes (amount j) :=
    Finset.sum_le_sum fun j _ => IssuePhase.uncounted_le_owes (hNonneg j) (phases j)
  have hOut := Payer.handedOut_le_sentTotal hFunded.cheques hFunded.nonneg
  have hSent := hFunded.sent
  have hCover := hFunded.covered
  change _ ≤ sys.state.funds
  omega

/- A call that nothing prevents. -/
def willing : IssueEnv where
  balance := true
  totalPaidOut := true
  sign _ := some []
  send _ := true

/- A contract with funds of 100. -/
def hundred : Payer where
  book := .empty
  totalIssued := none
  lastIssued := .empty
  totalIssuedReserved := 0
  balance := 100
  totalPaidOut := 0
  sent := []

local instance (priority := high) twoCalls : NeZero (1 + 1) :=
  ⟨by decide⟩

/- Two calls that issue 60 and 90. -/
def twoIssues (i : Fin (1 + 1)) : Call Payer (Except IssueErr Int) :=
  Chequebook.issue 7 willing (if i = 0 then 1 else 2) (if i = 0 then 60 else 90)

def twoIssuesStart : Threads (Fin (1 + 1)) Payer (Except IssueErr Int) :=
  Threads.start twoIssues (fun _ _ => 0) hundred

theorem fresh_hundred : hundred.Fresh :=
  ⟨rfl, rfl, rfl, rfl⟩

theorem chequebook_never_overdrawn_sixty :
    (twoIssuesStart.nexts 0 30).state.handedOut = 60 ∧
      (twoIssuesStart.nexts 0 30).state.handedOut ≤
        ((twoIssuesStart.nexts 0 30).state.balance : Int) +
          (twoIssuesStart.nexts 0 30).state.totalPaidOut := by
  refine ⟨by decide +kernel, ?_⟩
  refine chequebook_never_overdrawn 7 (fun _ => willing)
    (fun i : Fin (1 + 1) => if i = 0 then 1 else 2)
    (fun i : Fin (1 + 1) => if i = 0 then 60 else 90) (fun _ _ => 0) (by decide) fresh_hundred ?_
  exact Threads.reach_nexts (fun _ => ⟨trivial, trivial⟩) Reach.start 30

/- The first cheque is cashed. -/
def cashed (p : Payer) : Payer :=
  { p with balance := 40, totalPaidOut := 60 }

/-
  After a cheque of 60, the second call reads the balance of 100.  The cheque is cashed, and the
  call reads the 60 that were paid out as well.
-/
def overdrawn : Threads (Fin (1 + 1)) Payer (Except IssueErr Int) :=
  let before := (twoIssuesStart.nexts 0 30).nexts 1 3
  Threads.nexts { before with state := cashed before.state } 1 30

theorem chequebook_overdrawn :
    Reach SharedStep ContractGrows twoIssuesStart overdrawn ∧ overdrawn.state.handedOut = 150 ∧
      overdrawn.state.funds = 100 := by
  refine ⟨?_, by decide +kernel, by decide +kernel⟩
  have hThreads :
      ∀ (i : Fin (1 + 1)) (sys : Threads (Fin (1 + 1)) Payer (Except IssueErr Int)),
        ContractGrows (.thread i) sys := fun _ _ => trivial
  have hBefore :
      Reach SharedStep ContractGrows twoIssuesStart ((twoIssuesStart.nexts 0 30).nexts 1 3) :=
    Threads.reach_nexts (hThreads 1) (Threads.reach_nexts (hThreads 0) Reach.start 30) 3
  have hGrows : ContractGrows (.outside cashed) ((twoIssuesStart.nexts 0 30).nexts 1 3) :=
    ⟨⟨40, 60, rfl⟩, by decide +kernel⟩
  have hCashed := hBefore.step (.outside cashed) hGrows (.outside cashed _)
  exact Threads.reach_nexts (hThreads 1) hCashed 30

end Sana.Settlement
