import Sana.Settlement.Funds

/-
  Payments through the addressbook.

  A payment looks up the beneficiary of a peer and issues a cheque for it.  Handshakes change the
  addressbook between the steps of payments.  As long as no peer is migrated while it is paid, the
  cheques of every beneficiary add up.

  Key definitions include:
    * `Addressbook.Named`
    * `HandshakeAllowed`

  Key theorems include:
    * `Addressbook.Named.afterHandshake`
-/

---- Beneficiaries

namespace Sana.Settlement

open KeyValue Program Swarm

variable {ι : Type} {i : ι} {phase phase' : IssuePhase} {holder holder' : Option ι} {p p' : Payer}

namespace Addressbook

variable {book : Addressbook} {peer : Address}
variable {b : EthAddress}

/- The peer of a beneficiary is found from the beneficiary. -/
def Named (book : Addressbook) : Prop :=
  ∀ q b, book.beneficiary q = some b → book.beneficiaryPeer b = some q

theorem named_empty : empty.Named := by
  intro q b hBeneficiary
  cases hBeneficiary

theorem beneficiary_withBeneficiary :
    (book.withBeneficiary peer b).beneficiary q = if peer = q then some b else book.beneficiary q :=
  Index.get_put ..

theorem beneficiaryPeer_withBeneficiary :
    (book.withBeneficiary peer b).beneficiaryPeer x =
      if b = x then some peer else book.beneficiaryPeer x :=
  Index.get_put ..

/- A beneficiary without a peer, or with this one. -/
theorem Named.withBeneficiary (hNamed : book.Named)
    (hFree : ∀ q, book.beneficiaryPeer b = some q → q = peer) :
    (book.withBeneficiary peer b).Named := by
  intro q x hX
  rw [beneficiary_withBeneficiary] at hX
  rw [beneficiaryPeer_withBeneficiary]
  by_cases hPeer : peer = q
  · rw [if_pos hPeer] at hX
    rw [if_pos (Option.some.inj hX), hPeer]
  · rw [if_neg hPeer] at hX
    have hOld := hNamed q x hX
    have hNe : b ≠ x := by
      intro hEq
      rw [← hEq] at hOld
      exact hPeer (hFree q hOld).symm
    rw [if_neg hNe]
    exact hOld

theorem Named.migrate (hNamed : book.Named)
    (hBeneficiary : book.beneficiary oldPeer = some ba) : (book.migrate oldPeer peer ba).Named := by
  intro q x hX
  rw [beneficiary_migrate] at hX
  rw [beneficiaryPeer_migrate]
  by_cases hOld : oldPeer = q
  · rw [if_pos hOld] at hX
    cases hX
  · rw [if_neg hOld] at hX
    by_cases hPeer : peer = q
    · rw [if_pos hPeer] at hX
      rw [if_pos (Option.some.inj hX), hPeer]
    · rw [if_neg hPeer] at hX
      have hQ := hNamed q x hX
      have hNe : ba ≠ x := by
        intro hEq
        rw [← hEq, hNamed oldPeer ba hBeneficiary] at hQ
        exact hOld (Option.some.inj hQ)
      rw [if_neg hNe]
      exact hQ

/- What a handshake does to the lookups of beneficiaries. -/
theorem afterHandshake_cases (book : Addressbook) :
    book.afterHandshake peer b = book ∨
      (book.afterHandshake peer b = book.withBeneficiary peer b ∧
        ∀ q, book.beneficiaryPeer b = some q → q = peer) ∨
      ∃ oldPeer ba,
        book.beneficiaryPeer b = some oldPeer ∧ peer ≠ oldPeer ∧
          book.beneficiary oldPeer = some ba ∧
          book.afterHandshake peer b = book.migrate oldPeer peer ba := by
  unfold afterHandshake
  cases hPeer : book.beneficiaryPeer b with
  | none =>
    cases book.beneficiary peer with
    | none => exact Or.inr (Or.inl ⟨rfl, nofun⟩)
    | some _ => exact Or.inl rfl
  | some oldPeer =>
    dsimp only
    by_cases hEq : peer = oldPeer
    · rw [if_neg (not_not.mpr hEq)]
      cases book.beneficiary peer with
      | none =>
        refine Or.inr (Or.inl ⟨rfl, ?_⟩)
        intro q hQ
        rw [← Option.some.inj hQ, hEq]
      | some _ => exact Or.inl rfl
    · rw [if_pos hEq]
      cases hBeneficiary : book.beneficiary oldPeer with
      | none => exact Or.inl rfl
      | some ba => exact Or.inr (Or.inr ⟨oldPeer, ba, rfl, hEq, hBeneficiary, rfl⟩)

theorem Named.afterHandshake (hNamed : book.Named) (peer : Address) (b : EthAddress) :
    (book.afterHandshake peer b).Named := by
  rcases book.afterHandshake_cases with
    hSame | ⟨hNew, hFree⟩ | ⟨oldPeer, ba, -, -, hBa, hMigrate⟩
  · rw [hSame]
    exact hNamed
  · rw [hNew]
    exact hNamed.withBeneficiary hFree
  · rw [hMigrate]
    exact hNamed.migrate hBa

/- A beneficiary keeps its peer, unless that is migrated. -/
theorem beneficiaryPeer_afterHandshake (hNamed : book.Named) (hX : book.beneficiaryPeer x = some q)
    (hKept : ∀ oldPeer, book.beneficiaryPeer b = some oldPeer → peer ≠ oldPeer → oldPeer ≠ q) :
    (book.afterHandshake peer b).beneficiaryPeer x = some q := by
  rcases book.afterHandshake_cases with hSame | ⟨hNew, hFree⟩ |
    ⟨oldPeer, ba, hPeer, hNe, hBa, hMigrate⟩
  · rw [hSame]
    exact hX
  · rw [hNew, beneficiaryPeer_withBeneficiary]
    by_cases hEq : b = x
    · rw [if_pos hEq]
      rw [← hEq] at hX
      rw [hFree q hX]
    · rw [if_neg hEq]
      exact hX
  · rw [hMigrate, beneficiaryPeer_migrate]
    by_cases hEq : ba = x
    · rw [← hEq, hNamed oldPeer ba hBa] at hX
      exact absurd (Option.some.inj hX) (hKept oldPeer hPeer hNe)
    · rw [if_neg hEq]
      exact hX

end Addressbook

---- Cheques Of A Call

section

namespace IssuePhase

/- The beneficiary that a call pays. -/
def beneficiary : IssuePhase → Option EthAddress
| .idle | .begun => none
| .paying b | .entered b | .readIssued b _
| .readBalance b _ _ | .readFunds b _ _
| .readReserved b _ _ _ | .granted b | .reserved b
| .readLast b _ | .sent b _ | .stored b | .counting b
| .readCount b _ | .counted b | .leaving b
| .unreserving b _ | .closing b => some b

/- What a call has sent and not stored. -/
def unstored (amount : Int) (b : EthAddress) : IssuePhase → Int
| .sent b' _ => if b' = b then amount else 0
| _ => 0

/- The payout that a call has read is the stored one. -/
def Current (p : Payer) : IssuePhase → Prop
| .readLast b c => c = p.lastPayout b
| .sent b c => c = p.lastPayout b
| _ => True

theorem unstored_of_ne (hNe : phase.beneficiary ≠ some b) : phase.unstored amount b = 0 := by
  cases phase with
  | sent b' c =>
    have hB : b' ≠ b := fun hEq => hNe (congrArg some hEq)
    exact if_neg hB
  | _ => rfl

end IssuePhase

variable {peer : Address} {amount : Int}

section

variable (hMove : IssueMove i peer amount phase holder p phase' holder' p')
include hMove

theorem IssueMove.book_eq : p'.book = p.book := by
  cases hMove <;> rfl

theorem IssueMove.not_idle : phase ≠ .idle := by
  cases hMove <;> exact nofun

theorem IssueMove.beneficiary_cases (hB : phase'.beneficiary = some b) :
    phase.beneficiary = some b ∨ p.book.beneficiary peer = some b := by
  cases hMove with
  | begin hBeneficiary =>
    cases hB
    exact Or.inr hBeneficiary
  | _ =>
    cases hB
    try exact Or.inl rfl

/- A move sends a cheque, stores it, or changes no cheques. -/
theorem IssueMove.kinds :
    (∃ b c signed,
      phase = .readLast b c ∧ phase' = .sent b c ∧ signed.beneficiary = b ∧
        signed.cumulativePayout = c + amount ∧ p' = p.afterSend (signed, amount)) ∨
    (∃ b c cheque, phase = .sent b c ∧ phase' = .stored b ∧ cheque.cumulativePayout = c + amount ∧
        p' = { p with
          lastIssued := p.lastIssued.put b cheque }) ∨
    (p'.sent = p.sent ∧ p'.lastIssued = p.lastIssued ∧
      (∀ b, phase'.unstored amount b = 0 ∧ phase.unstored amount b = 0) ∧ phase'.Current p') := by
  cases hMove with
  | send signed hBeneficiary hPayout =>
    exact Or.inl ⟨_, _, signed, rfl, rfl, hBeneficiary, hPayout, rfl⟩
  | store cheque hPayout => exact Or.inr (Or.inl ⟨_, _, cheque, rfl, rfl, hPayout, rfl⟩)
  | _ => exact Or.inr (Or.inr ⟨rfl, rfl, fun _ => ⟨rfl, rfl⟩, by trivial⟩)

end

end

---- Cheques That Add Up

namespace Payer

/- The cheques that were sent to a beneficiary. -/
def chequesTo (p : Payer) (b : EthAddress) : List (SignedCheque × Int) :=
  p.sent.filter fun entry => entry.1.beneficiary = b

/- The payouts of a beneficiary grow with every cheque. -/
def Increasing (p : Payer) (b : EthAddress) : Prop :=
  (p.chequesTo b).Pairwise fun earlier later =>
    earlier.1.cumulativePayout < later.1.cumulativePayout

variable {p : Payer}

theorem chequesTo_afterSend :
    (p.afterSend entry).chequesTo b = if entry.1.beneficiary = b then p.chequesTo b ++ [entry]
      else p.chequesTo b := by
  unfold chequesTo afterSend
  rw [List.filter_append]
  by_cases hEq : entry.1.beneficiary = b
  · rw [if_pos hEq, List.filter_cons_of_pos (by simpa using hEq)]
    rfl
  · rw [if_neg hEq, List.filter_cons_of_neg (by simpa using hEq)]
    exact List.append_nil _

theorem mem_chequesTo
    (hEntry : entry ∈ p.chequesTo b) : entry ∈ p.sent ∧ entry.1.beneficiary = b := by
  obtain ⟨hMem, hB⟩ := List.mem_filter.mp hEntry
  exact ⟨hMem, by simpa using hB⟩

end Payer

/-
  Every beneficiary is paid by one call at a time, and its cheques add up to what was sent to it.
-/
structure AddsUp [Fintype ι] (peer : ι → Address) (amount : ι → Int) (phases : ι → IssuePhase)
    (holder : Option ι) (p : Payer) : Prop extends Booked amount phases holder p where
  named : p.book.Named
  alone : ∀ j k, phases j ≠ .idle → phases k ≠ .idle → peer j = peer k → j = k
  paid : ∀ j b, (phases j).beneficiary = some b → p.book.beneficiaryPeer b = some (peer j)
  stored : ∀ b, p.sentTo b = p.lastPayout b + ∑ j, (phases j).unstored (amount j) b
  current : ∀ j, (phases j).Current p
  increasing : ∀ b, p.Increasing b
  cheques : ∀ entry ∈ p.sent, entry.1.cumulativePayout ≤ p.sentTo entry.1.beneficiary

section

variable [Fintype ι]
variable {peer : ι → Address} {amount : ι → Int}
variable {phases : ι → IssuePhase}

section

variable (hAdds : AddsUp peer amount phases holder p)
include hAdds

/- No two calls pay the same beneficiary. -/
theorem AddsUp.unique
    (hJ : (phases j).beneficiary = some b) (hK : (phases k).beneficiary = some b) : j = k := by
  have hPeers := (hAdds.paid j b hJ).symm.trans (hAdds.paid k b hK)
  refine hAdds.alone j k ?_ ?_ (Option.some.inj hPeers)
  · intro hIdle
    rw [hIdle] at hJ
    cases hJ
  · intro hIdle
    rw [hIdle] at hK
    cases hK

/- A call that has not sent finds all earlier cheques stored. -/
theorem AddsUp.sentTo_eq (hPhase : phases i = .readLast b c) : p.sentTo b = c := by
  have hNone : ∑ j, (phases j).unstored (amount j) b = 0 := by
    apply Finset.sum_eq_zero
    intro j _
    by_cases hEq : j = i
    · rw [hEq, hPhase]
      rfl
    · apply IssuePhase.unstored_of_ne
      intro hB
      refine hEq (hAdds.unique hB ?_)
      rw [hPhase]
      rfl
  have hCurrent := hAdds.current i
  rw [hPhase] at hCurrent
  have hC : c = p.lastPayout b := hCurrent
  have hStored := hAdds.stored b
  omega

/- The next cheque of a beneficiary is above all others. -/
theorem AddsUp.increasing_afterSend (hAmount : 0 < amount i)
    (hPhase : phases i = .readLast b c) (hBeneficiary : signed.beneficiary = b)
    (hPayout : signed.cumulativePayout = c + amount i) (x : EthAddress) :
    (p.afterSend (signed, amount i)).Increasing x := by
  have hSent := hAdds.sentTo_eq hPhase
  unfold Payer.Increasing
  rw [Payer.chequesTo_afterSend]
  by_cases hEq : signed.beneficiary = x
  · rw [if_pos hEq, List.pairwise_append]
    refine ⟨hAdds.increasing x, List.pairwise_singleton _ _, ?_⟩
    intro entry hEntry new hNew
    rw [List.mem_singleton.mp hNew]
    obtain ⟨hMem, hX⟩ := Payer.mem_chequesTo hEntry
    have hBound := hAdds.cheques entry hMem
    rw [hX, ← hEq, hBeneficiary] at hBound
    change _ < signed.cumulativePayout
    omega
  · rw [if_neg hEq]
    exact hAdds.increasing x

theorem AddsUp.cheques_afterSend (hAmount : 0 < amount i)
    (hPhase : phases i = .readLast b c) (hBeneficiary : signed.beneficiary = b)
    (hPayout : signed.cumulativePayout = c + amount i) :
    ∀ entry ∈ (p.afterSend (signed, amount i)).sent,
      entry.1.cumulativePayout ≤ (p.afterSend (signed, amount i)).sentTo entry.1.beneficiary := by
  have hSent := hAdds.sentTo_eq hPhase
  intro entry hEntry
  rw [Payer.sentTo_afterSend]
  rcases List.mem_append.mp hEntry with hOld | hNew
  · have hBound := hAdds.cheques entry hOld
    split <;> omega
  · rw [List.mem_singleton.mp hNew]
    rw [if_pos rfl, hBeneficiary, hSent, hPayout]

/- The calls of other beneficiaries see the same cheques. -/
theorem AddsUp.current_put (hPhase : phases i = .sent b c) (cheque : Cheque) (hNe : j ≠ i) :
    (phases j).Current { p with lastIssued := p.lastIssued.put b cheque } := by
  have hOld := hAdds.current j
  have hOther : (phases j).beneficiary ≠ some b := by
    intro hB
    refine hNe (hAdds.unique hB ?_)
    rw [hPhase]
    rfl
  revert hOld hOther
  cases phases j with
  | readLast b' c' | sent b' c' =>
    intro hC hOther
    change c' = Payer.lastPayout _ b'
    rw [Payer.lastPayout_put, if_neg fun hEq => hOther (congrArg some hEq.symm)]
    exact hC
  | _ => exact fun _ _ => trivial

end

variable [DecidableEq ι]

section

variable (hAdds : AddsUp peer amount phases holder p)
include hAdds

/- Moves change neither the book nor who is paid by whom. -/
theorem AddsUp.paid_move
    (hMove : IssueMove i (peer i) (amount i) (phases i) holder p phase' holder' p') (j : ι)
    (b : EthAddress) (hB : (Function.update phases i phase' j).beneficiary = some b) :
    p'.book.beneficiaryPeer b = some (peer j) := by
  rw [hMove.book_eq]
  by_cases hEq : j = i
  · subst hEq
    rw [Function.update_self] at hB
    rcases hMove.beneficiary_cases hB with hOld | hNew
    · exact hAdds.paid j b hOld
    · exact hAdds.named _ _ hNew
  · rw [Function.update_of_ne hEq] at hB
    exact hAdds.paid j b hB

theorem AddsUp.alone_move
    (hMove : IssueMove i (peer i) (amount i) (phases i) holder p phase' holder' p') (j k : ι)
    (hJ : Function.update phases i phase' j ≠ .idle)
    (hK : Function.update phases i phase' k ≠ .idle) (hPeers : peer j = peer k) : j = k := by
  have hActive : ∀ m, Function.update phases i phase' m ≠ .idle → phases m ≠ .idle := by
    intro m hM
    by_cases hEq : m = i
    · rw [hEq]
      exact hMove.not_idle
    · rw [Function.update_of_ne hEq] at hM
      exact hM
  exact hAdds.alone j k (hActive j hJ) (hActive k hK) hPeers

/- The three kinds of moves keep the cheques added up. -/
theorem AddsUp.stored_move
    (hMove : IssueMove i (peer i) (amount i) (phases i) holder p phase' holder' p')
    (b : EthAddress) :
    p'.sentTo b =
      p'.lastPayout b + ∑ j, (Function.update phases i phase' j).unstored (amount j) b := by
  have hSum := Outline.sum_update_phase (fun j phase => phase.unstored (amount j) b) phases i phase'
  have hOld := hAdds.stored b
  rcases hMove.kinds with ⟨b', c, signed, hPhase, rfl, hBeneficiary, -, rfl⟩ |
    ⟨b', c, cheque, hPhase, rfl, hPayout, rfl⟩ | ⟨hSent, hLast, hNone, -⟩
  · rw [hPhase] at hSum
    have hNew := p.sentTo_afterSend (signed, amount i) b
    have hSame : (p.afterSend (signed, amount i)).lastPayout b = p.lastPayout b := rfl
    have hBefore : (IssuePhase.readLast b' c).unstored (amount i) b = 0 := rfl
    have hAfter :
        (IssuePhase.sent b' c).unstored (amount i) b =
          if signed.beneficiary = b then amount i else 0 := by
      rw [hBeneficiary]
      rfl
    dsimp only at hNew
    omega
  · rw [hPhase] at hSum
    have hCurrent := hAdds.current i
    rw [hPhase] at hCurrent
    have hC : c = p.lastPayout b' := hCurrent
    have hAfter : (IssuePhase.stored b').unstored (amount i) b = 0 := rfl
    have hBefore :
        (IssuePhase.sent b' c).unstored (amount i) b = if b' = b then amount i else 0 := rfl
    have hPut := p.lastPayout_put b' b cheque
    have hSame :
        ({ p with
          lastIssued := p.lastIssued.put b' cheque } :
          Payer).sentTo b = p.sentTo b := rfl
    by_cases hEq : b' = b
    · subst hEq
      rw [if_pos rfl] at hBefore hPut
      omega
    · rw [if_neg hEq] at hBefore hPut
      omega
  · have hBefore := (hNone b).2
    have hAfter := (hNone b).1
    have hSentTo : p'.sentTo b = p.sentTo b := by
      unfold Payer.sentTo
      rw [hSent]
    have hLastPayout : p'.lastPayout b = p.lastPayout b := by
      unfold Payer.lastPayout
      rw [hLast]
    omega

theorem AddsUp.current_move
    (hMove : IssueMove i (peer i) (amount i) (phases i) holder p phase' holder' p') (j : ι) :
    (Function.update phases i phase' j).Current p' := by
  have hOld := hAdds.current j
  rcases hMove.kinds with ⟨b, c, signed, hPhase, rfl, -, -, rfl⟩ |
    ⟨b, c, cheque, hPhase, rfl, -, rfl⟩ | ⟨-, hLast, -, hCurrent⟩
  · by_cases hEq : j = i
    · subst hEq
      rw [hPhase] at hOld
      rw [Function.update_self]
      exact hOld
    · rw [Function.update_of_ne hEq]
      exact hOld
  · by_cases hEq : j = i
    · rw [hEq, Function.update_self]
      exact trivial
    · rw [Function.update_of_ne hEq]
      exact hAdds.current_put hPhase cheque hEq
  · by_cases hEq : j = i
    · rw [hEq, Function.update_self]
      exact hCurrent
    · rw [Function.update_of_ne hEq]
      have hPayout : ∀ b, p'.lastPayout b = p.lastPayout b := by
        intro b
        unfold Payer.lastPayout
        rw [hLast]
      revert hOld
      cases phases j with
      | readLast b c | sent b c => exact fun hC => hC.trans (hPayout b).symm
      | _ => exact id

end

theorem AddsUp.move (hAmount : ∀ j, 0 < amount j) (hAdds : AddsUp peer amount phases holder p)
    (hMove : IssueMove i (peer i) (amount i) (phases i) holder p phase' holder' p') :
    AddsUp peer amount (Function.update phases i phase') holder' p' := by
  have hCheques :
      (∀ b, p'.Increasing b) ∧
        ∀ entry ∈ p'.sent, entry.1.cumulativePayout ≤ p'.sentTo entry.1.beneficiary := by
    rcases hMove.kinds with ⟨b, c, signed, hPhase, -, hBeneficiary, hPayout, rfl⟩ |
      ⟨b, c, cheque, -, -, -, rfl⟩ | ⟨hSent, -, -, -⟩
    · exact ⟨hAdds.increasing_afterSend (hAmount i) hPhase hBeneficiary hPayout,
        hAdds.cheques_afterSend (hAmount i) hPhase hBeneficiary hPayout⟩
    · exact ⟨hAdds.increasing, hAdds.cheques⟩
    · unfold Payer.Increasing Payer.chequesTo Payer.sentTo
      rw [hSent]
      exact ⟨hAdds.increasing, hAdds.cheques⟩
  exact
    { toBooked := hAdds.toBooked.move hMove
      named := by
        rw [hMove.book_eq]
        exact hAdds.named
      alone := hAdds.alone_move hMove
      paid := hAdds.paid_move hMove
      stored := hAdds.stored_move hMove
      current := hAdds.current_move hMove
      increasing := hCheques.1
      cheques := hCheques.2 }

/- A payment begins when no other one to its peer is there. -/
theorem AddsUp.begin (hAdds : AddsUp peer amount phases holder p) (hIdle : phases i = .idle)
    (hAlone : ∀ j, j ≠ i ∧ peer j = peer i → phases j = .idle) :
    AddsUp peer amount (Function.update phases i .begun) holder
      p := by
  refine
    { hAdds with
      toBooked := hAdds.toBooked.begin hIdle (Or.inl rfl)
      alone := ?_
      paid := ?_
      stored := ?_
      current := ?_ }
  · intro j k hJ hK hPeers
    by_cases hJI : j = i
    · by_cases hKI : k = i
      · rw [hJI, hKI]
      · rw [Function.update_of_ne hKI] at hK
        rw [hJI] at hPeers
        exact absurd (hAlone k ⟨hKI, hPeers.symm⟩) hK
    · rw [Function.update_of_ne hJI] at hJ
      by_cases hKI : k = i
      · rw [hKI] at hPeers
        exact absurd (hAlone j ⟨hJI, hPeers⟩) hJ
      · rw [Function.update_of_ne hKI] at hK
        exact hAdds.alone j k hJ hK hPeers
  · intro j b hB
    by_cases hEq : j = i
    · rw [hEq, Function.update_self] at hB
      cases hB
    · rw [Function.update_of_ne hEq] at hB
      exact hAdds.paid j b hB
  · intro b
    have hSum := Outline.sum_update_phase
      (fun j phase => phase.unstored (amount j) b) phases i .begun
    rw [hIdle] at hSum
    have hBefore : IssuePhase.idle.unstored (amount i) b = 0 := rfl
    have hAfter : IssuePhase.begun.unstored (amount i) b = 0 := rfl
    have hOld := hAdds.stored b
    omega
  · intro j
    by_cases hEq : j = i
    · rw [hEq, Function.update_self]
      exact trivial
    · rw [Function.update_of_ne hEq]
      exact hAdds.current j

end

---- All Interleavings With Handshakes

/- A handshake of the swap service. -/
def Payer.handshake (peer : Address) (b : EthAddress) (p : Payer) : Payer :=
  { p with book := ((Book.handshake peer b).run Routine.never p.book).state }

/-
  At most one payment to a peer is under way.  Between the steps of payments there are handshakes
  and changes of the contract.
-/
def HandshakeAllowed {α : Type} (peer : ι → Address) :
    SharedLabel ι Payer → Threads ι Payer α → Prop
| .thread i, sys => (sys.thread i).started = false → ∀ j, j ≠ i ∧ peer j = peer i → ¬ sys.Busy j
| .outside update, sys =>
  (∃ q b, update sys.state = sys.state.handshake q b) ∨ ∃ balance totalPaidOut, update sys.state =
        { sys.state with
          balance := balance
          totalPaidOut := totalPaidOut }

/- In addition, no peer is migrated while it is paid. -/
def MigrationAllowed {α : Type} (peer : ι → Address) :
    SharedLabel ι Payer → Threads ι Payer α → Prop
| .thread i, sys => HandshakeAllowed peer (.thread i) sys
| .outside update, sys =>
  (∃ q b, update sys.state = sys.state.handshake q b ∧
    ∀ oldPeer,
      sys.state.book.beneficiaryPeer b = some oldPeer → q ≠ oldPeer →
        ∀ j, peer j = oldPeer → ¬ sys.Busy j) ∨ ∃ balance totalPaidOut, update sys.state =
        { sys.state with
          balance := balance
          totalPaidOut := totalPaidOut }

/- The sum of the payouts of all cheques that are stored. -/
def Payer.storedTotal (p : Payer) : Int :=
  (p.lastIssued.entries.map fun entry => entry.2.cumulativePayout).sum

/- The stored cheques of all beneficiaries in some set. -/
theorem Payer.sum_lastPayout (p : Payer) (s : Finset EthAddress) :
    ∑ b ∈ (p.lastIssued.entries.map Prod.fst).toFinset ∪ s, p.lastPayout b = p.storedTotal := by
  have hKeys :
      ∑ b ∈ (p.lastIssued.entries.map Prod.fst).toFinset, p.lastPayout b = p.storedTotal := by
    rw [List.sum_toFinset _ (Index.nodup_keys_entries p.lastIssued), List.map_map]
    congr 1
    apply List.map_congr_left
    rintro ⟨b, cheque⟩ hEntry
    have hGet := (Index.mem_entries_iff ..).mp hEntry
    change p.lastPayout b = cheque.cumulativePayout
    unfold Payer.lastPayout
    rw [hGet]
  rw [← hKeys]
  refine (Finset.sum_subset Finset.subset_union_left ?_).symm
  intro b _ hNot
  unfold Payer.lastPayout
  cases hGet : p.lastIssued.get b with
  | none => rfl
  | some cheque =>
    refine absurd ?_ hNot
    have hEntry := (Index.mem_entries_iff ..).mpr hGet
    exact List.mem_toFinset.mpr (List.mem_map_of_mem hEntry)

variable [Fintype ι]
variable {peer : ι → Address} {amount : ι → Int}
variable {phases : ι → IssuePhase}

theorem Payer.Fresh.addsUp (peer : ι → Address) (amount : ι → Int) (hFresh : p.Fresh)
    (hBook : p.book = .empty) : AddsUp peer amount (fun _ => .idle) none p where
  toBooked := hFresh.booked amount
  named := by
    rw [hBook]
    exact Addressbook.named_empty
  alone _ _ hJ := absurd rfl hJ
  paid _ _ hB := by cases hB
  stored b := by
    rw [hFresh.sentTo, hFresh.lastPayout]
    change 0 = 0 + ∑ _j : ι, (0 : Int)
    rw [Finset.sum_const_zero]
    rfl
  current _ := trivial
  increasing b := by
    unfold Payer.Increasing Payer.chequesTo
    rw [hFresh.sent]
    exact List.Pairwise.nil
  cheques := by
    rw [hFresh.sent]
    exact nofun

/- A handshake that migrates no peer which is paid. -/
theorem AddsUp.handshake (hAdds : AddsUp peer amount phases holder p)
    (hIdle :
      ∀ oldPeer, p.book.beneficiaryPeer b = some oldPeer → q ≠ oldPeer →
        ∀ j, peer j = oldPeer → phases j = .idle) :
    AddsUp peer amount phases holder (p.handshake q b) := by
  unfold Payer.handshake
  rw [run_handshake]
  refine
    { hAdds with
      named := hAdds.named.afterHandshake q b
      paid := ?_
      stored := hAdds.stored }
  intro j x hX
  apply Addressbook.beneficiaryPeer_afterHandshake hAdds.named (hAdds.paid j x hX)
  intro oldPeer hPeer hNe hEq
  have hPhase := hIdle oldPeer hPeer hNe j hEq.symm
  rw [hPhase] at hX
  cases hX

def paymentOutline (peer : ι → Address) (amount : ι → Int) : Outline ι Payer IssuePhase where
  idle := .idle
  Inv := AddsUp peer amount

/-
  If no peer is migrated while it is paid, the payouts of every beneficiary grow with each cheque.
  When no payment is under way, the stored cheques add up to what was issued.
-/
theorem issued_cheques_add_up [DecidableEq ι] (address : EthAddress) (env : ι → IssueEnv)
    (peer : ι → Address) (amount : ι → Int) (clocks : ι → Clock) {start : Payer}
    {sys : Threads ι Payer (Option (Except IssueErr Int))} (hAmount : ∀ i, 0 < amount i)
    (hFresh : start.Fresh) (hBook : start.book = .empty)
    (hReach :
      Reach SharedStep (MigrationAllowed peer)
        (Threads.start
          (fun i => Chequebook.pay address (env i) (peer i) (amount i)) clocks start) sys) :
    (∀ b, sys.state.Increasing b) ∧
      ((∀ i, ¬ sys.Busy i) →
        sys.state.issued = sys.state.storedTotal ∧
          ∀ b, sys.state.lastPayout b = sys.state.sentTo b) := by
  have hKept : ∀ i, KeptByMoves (paymentOutline peer amount) i (peer i) (amount i) := by
    intro i phases holder state phase holder' state' hInv hMove
    exact AddsUp.move hAmount hInv hMove
  have hCovered :
      Outline.Covered (paymentOutline peer amount)
        (fun i => Chequebook.pay address (env i) (peer i) (amount i)) sys := by
    refine Outline.covered_of_reach (fun i j => j ≠ i ∧ peer j = peer i)
      (hFresh.addsUp peer amount hBook) ?_ ?_ ?_ hReach
    · intro i phases holder state hInv hIdle hAlone
      exact ⟨.begun, AddsUp.begin hInv hIdle hAlone, safe_pay (hKept i)⟩
    · intro i sys hAllowed hStarted j hConflict
      exact hAllowed hStarted j hConflict
    · intro update sys phases hAllowed hInv hIdle
      rcases hAllowed with ⟨q, b, hUpdate, hFree⟩ | ⟨balance, paid, hUpdate⟩
      · rw [hUpdate]
        exact AddsUp.handshake hInv (fun oldPeer hPeer hNe j hJ =>
            hIdle j (hFree oldPeer hPeer hNe j hJ))
      · rw [hUpdate]
        exact { hInv with }
  obtain ⟨phases, hAdds, hFits⟩ := hCovered
  refine ⟨hAdds.increasing, ?_⟩
  intro hQuiet
  have hIdle : ∀ j, phases j = .idle := fun j => (hFits j).idle (hQuiet j)
  have hLast : ∀ b, sys.state.lastPayout b = sys.state.sentTo b := by
    intro b
    have hNone : ∑ j, (phases j).unstored (amount j) b = 0 := by
      apply Finset.sum_eq_zero
      intro j _
      rw [hIdle j]
      rfl
    have hStored := hAdds.stored b
    omega
  have hCounted : ∑ j, (phases j).uncounted (amount j) = 0 := by
    apply Finset.sum_eq_zero
    intro j _
    rw [hIdle j]
    rfl
  have hSent := hAdds.sent
  have hTotal : sys.state.storedTotal = sys.state.sentTotal := by
    rw [← sys.state.sum_lastPayout sys.state.beneficiaries, Finset.sum_congr rfl fun b _ => hLast b]
    apply Payer.sum_filter_eq
    intro entry hEntry
    apply Finset.mem_union_right
    exact List.mem_toFinset.mpr (List.mem_map_of_mem hEntry)
  refine ⟨?_, hLast⟩
  omega

local instance (priority := high) twoCallers : NeZero (1 + 1) :=
  ⟨by decide⟩

/- Two payments of 10, to the peers 1 and 2. -/
def twoPeers (i : Fin (1 + 1)) : Address :=
  if i = 0 then 1 else 2

def twoPayments (i : Fin (1 + 1)) : Call Payer (Option (Except IssueErr Int)) :=
  Chequebook.pay 7 willing (twoPeers i) 10

/- Peer 1 has told that its beneficiary is 9. -/
def twoPaymentsStart : Threads (Fin (1 + 1)) Payer (Option (Except IssueErr Int)) :=
  { Threads.start twoPayments (fun _ _ => 0) hundred with state := hundred.handshake 1 9 }

/- The peers are different, so that both may be paid. -/
theorem twoPeers_apart {i j : Fin (1 + 1)} (hConflict : j ≠ i ∧ twoPeers j = twoPeers i) :
    False := by
  revert i j
  decide

theorem issued_cheques_add_up_first :
    (twoPaymentsStart.nexts 0 40).state.issued = 10 ∧
      (twoPaymentsStart.nexts 0 40).state.issued =
        (twoPaymentsStart.nexts 0 40).state.storedTotal := by
  refine ⟨by decide +kernel, ?_⟩
  have hStart :
      Reach SharedStep (MigrationAllowed twoPeers)
        (Threads.start twoPayments (fun _ _ => 0) hundred)
        twoPaymentsStart :=
    Reach.start.step (.outside (Payer.handshake 1 9)) (Or.inl ⟨1, 9, rfl, fun _ _ _ _ _ hBusy => by
        cases hBusy.1⟩)
      (.outside (Payer.handshake 1 9) _)
  have hPaid :
      Reach SharedStep (MigrationAllowed twoPeers)
        (Threads.start twoPayments (fun _ _ => 0) hundred) (twoPaymentsStart.nexts 0 40) :=
    Threads.reach_nexts (fun _ _ _ hConflict => (twoPeers_apart hConflict).elim) hStart 40
  refine ((issued_cheques_add_up 7 (fun _ => willing) twoPeers
    (fun _ => 10) (fun _ _ => 0) (by decide) fresh_hundred rfl hPaid).2 ?_).1
  intro i hBusy
  match i with
  | 0 => exact hBusy.2 (Threads.finished_of_isRet (by decide +kernel))
  | 1 =>
    have hStarted : ((twoPaymentsStart.nexts 0 40).thread 1).started =
          false := by
      decide +kernel
    cases hStarted.symm.trans hBusy.1

/-
  The first payment has read the last cheque of beneficiary 9. Peer 2 tells that this is its
  beneficiary, and is paid.  The first payment goes on.
-/
def paidTwice : Threads (Fin (1 + 1)) Payer (Option (Except IssueErr Int)) :=
  let before := twoPaymentsStart.nexts 0 9
  (Threads.nexts { before with state := before.state.handshake 2 9 } 1 40).nexts 0 40

theorem issued_cheques_differ :
    Reach SharedStep (HandshakeAllowed twoPeers) (Threads.start twoPayments (fun _ _ => 0) hundred)
        paidTwice ∧ (∀ i, ((paidTwice.thread i).call.isRet) = true) ∧
      (paidTwice.state.chequesTo 9).map (fun entry => entry.1.cumulativePayout) = [10, 10] ∧
      paidTwice.state.issued = 20 ∧ paidTwice.state.storedTotal = 10 := by
  have hThreads :
      ∀ (i : Fin (1 + 1)) (sys : Threads (Fin (1 + 1)) Payer (Option (Except IssueErr Int))),
        HandshakeAllowed twoPeers (.thread i) sys :=
    fun _ _ _ _ hConflict => (twoPeers_apart hConflict).elim
  refine ⟨?_, by decide +kernel, by decide +kernel, by decide +kernel, by decide +kernel⟩
  have hStart :
      Reach SharedStep (HandshakeAllowed twoPeers)
        (Threads.start twoPayments (fun _ _ => 0) hundred)
        twoPaymentsStart :=
    Reach.start.step (.outside (Payer.handshake 1 9))
      (Or.inl ⟨1, 9, rfl⟩) (.outside (Payer.handshake 1 9) _)
  have hBefore := Threads.reach_nexts (hThreads 0) hStart 9
  have hAllowed :
      HandshakeAllowed twoPeers (.outside (Payer.handshake 2 9)) (twoPaymentsStart.nexts 0 9) :=
    Or.inl ⟨2, 9, rfl⟩
  have hMigrated := hBefore.step (.outside (Payer.handshake 2 9)) hAllowed
    (.outside (Payer.handshake 2 9) _)
  exact Threads.reach_nexts (hThreads 0) (Threads.reach_nexts (hThreads 1) hMigrated 40) 40

end Sana.Settlement
