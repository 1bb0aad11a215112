import Sana.Program.Reach

/-
  Sending transactions.

  A transaction is broadcast before the nonce counter and the records are written.  If the counter
  is not written and the backend does not count the transaction yet, the next one has the same nonce
  (`nonce_reused`).

  Key definitions include:
    * `Service`
    * `send`

  Key theorems include:
    * `nonces_unique`
-/

---- Transactions

namespace Sana.Transaction

open Program

structure TxRequest where
  recipient : Option Nat
  data : List UInt8
  gasPrice : Option Nat
  gasLimit : Nat
  value : Nat
  description : String

structure Tx where
  nonce : Nat
  recipient : Option Nat
  value : Nat
  gasLimit : Nat
  gasPrice : Nat
  data : List UInt8
  deriving DecidableEq

structure StoredTransaction where
  tx : Tx
  created : Int
  description : String

/- The steps of `Send` that can fail. -/
inductive Site where
  | pendingNonceAt
  | getNonce
  | prepare
  | signTx
  | sendTransaction
  | putNonce
  | putTransaction
  | putPending
  deriving DecidableEq

/-
  A call with the answers it gets, the step that does not succeed, if any, and whether the process
  crashes there, so that the call does not return.
-/
structure SendCall where
  request : TxRequest
  onchainNonce : Nat
  gasLimit : Nat
  gasPrice : Nat
  now : Int
  stop : Option Site
  crashed : Bool

/- A transaction that was broadcast, whether its nonce was written and whether its call returned. -/
structure Sent (H : Type) where
  nonce : Nat
  txHash : H
  counted : Bool
  returned : Bool

/- The state store, and what was broadcast. -/
structure Service (H : Type) where
  nonce : Option Nat
  stored : List (H × StoredTransaction)
  pending : List H
  sent : List (Sent H)

def prepareTransaction (call : SendCall) (nonce : Nat) : Tx where
  nonce := nonce
  recipient := call.request.recipient
  value := call.request.value
  gasLimit :=
    if call.request.gasLimit = 0 then call.gasLimit + call.gasLimit / 5 else call.request.gasLimit
  gasPrice := call.request.gasPrice.getD call.gasPrice
  data := call.request.data

variable {H : Type}

def nextNonce (s : Service H) (onchainNonce : Nat) : Nat :=
  match s.nonce with
  | none => onchainNonce
  | some nonce => if nonce < onchainNonce then onchainNonce else nonce

theorem le_nextNonce (s : Service H) (onchainNonce : Nat) :
    onchainNonce ≤ nextNonce s onchainNonce ∧ ∀ n ∈ s.nonce, n ≤ nextNonce s onchainNonce := by
  unfold nextNonce
  cases s.nonce with
  | none => exact ⟨le_refl _, nofun⟩
  | some nonce =>
    simp only [Option.mem_def, Option.some.injEq, forall_eq']
    split_ifs <;> omega

variable [DecidableEq H]

def storedTransaction (s : Service H) (txHash : H) : Option StoredTransaction :=
  s.stored.lookup txHash

def send (hash : Tx → H) (call : SendCall) (s : Service H) : Service H :=
  let nonce := nextNonce s call.onchainNonce
  let tx := prepareTransaction call nonce
  if call.stop ∈ [some .pendingNonceAt, some .getNonce, some .prepare, some .signTx,
      some .sendTransaction] then s
  else
    let s := { s with
      sent := ⟨nonce, hash tx, call.stop ≠ some .putNonce, !call.crashed⟩ :: s.sent }
    if call.stop = some .putNonce then s
    else
      let s := { s with nonce := some (nonce + 1) }
      if call.stop = some .putTransaction then s
      else
        let stored := ⟨tx, call.now, call.request.description⟩
        let s := { s with stored := (hash tx, stored) :: s.stored }
        if call.stop = some .putPending then s else { s with pending := hash tx :: s.pending }

---- Runs

/-
  The backend counts the transactions whose nonce was not written, and where a write of the counter
  or of the transaction does not succeed the process crashes.
-/
def SendCall.Covered (call : SendCall) (s : Service H) : Prop :=
  (∀ x ∈ s.sent, x.counted = false → x.nonce < call.onchainNonce) ∧
    (call.stop = some .putNonce ∨ call.stop = some .putTransaction → call.crashed = true)

/- Nonces that were written are below the counter. -/
structure Service.Sound (s : Service H) : Prop where
  nodup : (s.sent.map Sent.nonce).Nodup
  below : ∀ x ∈ s.sent, x.counted = true → ∃ n ∈ s.nonce, x.nonce < n
  found : ∀ x ∈ s.sent, x.returned = true → (storedTransaction s x.txHash).isSome

variable {s t : Service H} {x : Sent H} {hash : Tx → H} {call : SendCall}

/- A transaction with the next nonce is broadcast. -/
theorem Service.Sound.extend (hSound : s.Sound) (hCovered : call.Covered s)
    (hSent : t.sent = x :: s.sent) (hNonce : x.nonce = nextNonce s call.onchainNonce)
    (hCounter : t.nonce = s.nonce ∧ x.counted = false ∨ t.nonce = some (x.nonce + 1))
    (hStored : t.stored = s.stored ∨ ∃ stored, t.stored = (x.txHash, stored) :: s.stored)
    (hFound : x.returned = true → t.stored ≠ s.stored) : t.Sound := by
  have hLe := hNonce ▸ le_nextNonce s call.onchainNonce
  have hNew : ∀ y ∈ s.sent, y.nonce < x.nonce := by
    intro y hMem
    cases hCounted : y.counted with
    | false => exact (hCovered.1 y hMem hCounted).trans_le hLe.1
    | true =>
      obtain ⟨n, hMem', hLt⟩ := hSound.below y hMem hCounted
      exact hLt.trans_le (hLe.2 n hMem')
  constructor
  · rw [hSent, List.map_cons, List.nodup_cons]
    refine ⟨fun hMem => ?_, hSound.nodup⟩
    obtain ⟨y, hOld, hEq⟩ := List.mem_map.mp hMem
    exact absurd hEq (hNew y hOld).ne
  · rw [hSent, List.forall_mem_cons]
    rcases hCounter with ⟨hSame, hNot⟩ | hNext
    · rw [hSame, hNot]
      exact ⟨nofun, hSound.below⟩
    · rw [hNext]
      exact ⟨fun _ => ⟨_, rfl, Nat.lt_succ_self _⟩,
        fun y hMem _ => ⟨_, rfl, (hNew y hMem).trans (Nat.lt_succ_self _)⟩⟩
  · rw [hSent, List.forall_mem_cons]
    unfold storedTransaction
    rcases hStored with hSame | ⟨stored, hMore⟩
    · exact ⟨fun hReturned => absurd hSame (hFound hReturned), hSame ▸ hSound.found⟩
    · rw [hMore]
      refine ⟨fun _ => by simp, fun y hMem hReturned => ?_⟩
      rw [List.lookup_cons]
      split
      · rfl
      · exact hSound.found y hMem hReturned

theorem Service.Sound.send (hSound : s.Sound) (hCovered : call.Covered s) :
    (send hash call s).Sound := by
  unfold Transaction.send
  extract_lets nonce tx s₁ s₂ stored s₃
  have hMore : (hash tx, stored) :: s.stored ≠ s.stored := List.cons_ne_self _ _
  split_ifs with hEarly hNonce hTransaction hPending
  · exact hSound
  · refine hSound.extend hCovered rfl rfl (Or.inl ⟨rfl, by simp [hNonce]⟩) (Or.inl rfl) ?_
    simp [hCovered.2 (Or.inl hNonce)]
  · refine hSound.extend hCovered rfl rfl (Or.inr rfl) (Or.inl rfl) ?_
    simp [hCovered.2 (Or.inr hTransaction)]
  · exact hSound.extend hCovered rfl rfl (Or.inr rfl) (Or.inr ⟨stored, rfl⟩) fun _ => hMore
  · exact hSound.extend hCovered rfl rfl (Or.inr rfl) (Or.inr ⟨stored, rfl⟩) fun _ => hMore

/-
  In every run of calls that are covered, from any state store, nonces are not reused and what was
  broadcast by a call that returned is found.
-/
theorem nonces_unique {nonce : Option Nat} {stored : List (H × StoredTransaction)}
    {pending : List H}
    (hReach : Reach (Stepping fun call s => some (send hash call s)) SendCall.Covered
      ⟨nonce, stored, pending, []⟩ s) :
    (s.sent.map Sent.nonce).Nodup ∧
      ∀ x ∈ s.sent, x.returned = true → (storedTransaction s x.txHash).isSome := by
  have hSound : s.Sound := by
    refine hReach.invariant Service.Sound ⟨List.nodup_nil, nofun, nofun⟩ ?_
    rintro call before _ hSound hCovered ⟨⟩
    exact hSound.send hCovered
  exact ⟨hSound.nodup, hSound.found⟩

/- A call of a test, with an answer of the backend, and where it stops. -/
def plainCall (onchainNonce : Nat) (stop : Option Site) (crashed : Bool) : SendCall :=
  ⟨⟨none, [], none, 0, 0, ""⟩, onchainNonce, 0, 0, 0, stop, crashed⟩

/- The process crashes before the nonce is written, and the backend counts the transaction. -/
theorem nonces_unique_two :
    (([plainCall 5 (some .putNonce) true, plainCall 6 none false].foldl
      (fun s call => send Tx.nonce call s) ⟨none, [], [], []⟩).sent.map Sent.nonce).Nodup := by
  refine (nonces_unique (.step (plainCall 6 none false)
    (.step (plainCall 5 (some .putNonce) true) .start ⟨nofun, fun _ => rfl⟩ rfl) ?_ rfl)).1
  exact ⟨by simp [send, plainCall, nextNonce], by simp [plainCall]⟩

/- A nonce that could not be written is used again, and a transaction is not found. -/
theorem nonce_reused :
    (([plainCall 5 (some .putNonce) false, plainCall 5 none false].foldl
      (fun s call => send Tx.nonce call s) ⟨none, [], [], []⟩).sent.map Sent.nonce) = [5, 5] ∧
    storedTransaction (send Tx.nonce (plainCall 5 (some .putTransaction) false)
      ⟨none, [], [], []⟩) 5 = none := by
  constructor
  · rfl
  · rfl

---- Pending Transactions

/- A transaction that is confirmed or cancelled is not pending any more. -/
def unregister (txHash : H) (s : Service H) : Service H :=
  { s with pending := s.pending.filter (· ≠ txHash) }

/- Calls of `Send`, and transactions that are unregistered. -/
def step (hash : Tx → H) : SendCall ⊕ H → Service H → Option (Service H)
| .inl call, s => some (send hash call s)
| .inr txHash, s => some (unregister txHash s)

/-
  In every run, whatever fails, a pending transaction is found, and what is found has its hash: it
  can be watched after a restart, and it can be sent again.
-/
theorem pending_found {nonce : Option Nat}
    (hReach : Reach (Stepping (step hash)) (fun _ _ => True) ⟨nonce, [], [], []⟩ s) :
    ∀ txHash ∈ s.pending, ∃ stored ∈ storedTransaction s txHash, hash stored.tx = txHash := by
  refine hReach.invariant (fun s => ∀ txHash ∈ s.pending,
    ∃ stored ∈ storedTransaction s txHash, hash stored.tx = txHash) nofun ?_
  rintro (call | done) before _ hFound - ⟨⟩
  · unfold send
    extract_lets nonce tx s₁ s₂ stored s₃
    have hMore : ∀ txHash ∈ hash tx :: before.pending,
        ∃ found ∈ s₃.stored.lookup txHash, hash found.tx = txHash := by
      intro txHash hMem
      change ∃ found ∈ List.lookup txHash ((hash tx, stored) :: before.stored), _
      rw [List.lookup_cons]
      split
      · next hEq => exact ⟨stored, rfl, (beq_iff_eq.mp hEq).symm⟩
      · next hNe =>
          rcases List.mem_cons.mp hMem with rfl | hOld
          · simp at hNe
          · exact hFound txHash hOld
    split_ifs
    · exact hFound
    · exact hFound
    · exact hFound
    · exact fun txHash hMem => hMore txHash (List.mem_cons_of_mem _ hMem)
    · exact hMore
  · exact fun txHash hMem => hFound txHash (List.mem_of_mem_filter hMem)

/- A call that succeeds. -/
theorem pending_found_one :
    ∃ stored ∈ storedTransaction (send Tx.nonce (plainCall 5 none false) ⟨none, [], [], []⟩) 5,
      stored.tx.nonce = 5 := by
  have hReach : Reach (Stepping (step Tx.nonce)) (fun _ _ => True) ⟨none, [], [], []⟩ _ :=
    .step (.inl (plainCall 5 none false)) .start trivial rfl
  exact pending_found hReach 5 (by decide)

end Sana.Transaction
