import Sana.Mine.NodeService
import Sana.Program.Reach

/-
  Reports of inactive miners.

  A trust node reports miners that are late in a transaction and records the transaction with each
  of them, so that they are not reported again.  Every time late miners are looked for, a goroutine
  of its own asks for the receipts of the recorded transactions, and in the end it clears the nodes
  whose transaction has succeeded.  It does not look at what is recorded then.  When two such
  goroutines overlap, the later one clears a report that was made meanwhile, and the miner is
  reported again while that report is pending (`report_cleared`).  A miner is also reported again
  when the transaction was sent and an error is returned.

  If late miners are looked for only when no such goroutine is running, and an error means that
  nothing was sent, then a report is cleared by its own confirmation only, and no miner is in two
  pending transactions (`reports_kept`).

  Key definitions include:
    * `Reports`
    * `step`

  Key theorems include:
    * `Consistent.step`
-/

---- Reports And Their Confirmation

namespace Sana.Mine

namespace Inaction

open KeyValue Program NodeService

variable {mineTrust : Bool} {r after : Reports}

/- A transaction of `Inactives` on the chain; it is pending
   as long as there is no status. -/
structure Tx where
  hash : Hash
  miners : List Hash
  status : Option Bool
  deriving DecidableEq, Repr

/-
  Where `checkExpireMiners` is: it has miners to report, or it records the transaction with the
  miners it has reported.
-/
inductive Reporter where
  | idle
  | reporting (miners : List Hash)
  | recording (nodes : List Hash) (hash : Hash) (rest : List Hash)
  deriving DecidableEq, Repr

/-
  A goroutine of `checkInactionTxHash`: the nodes and their transactions that it still has to ask
  for, and those that have succeeded.
-/
structure Check where
  todo : List (Hash × Hash)
  confirmed : List (Hash × Hash)
  finished : Bool
  deriving DecidableEq, Repr

structure Reports where
  service : State
  txs : List Tx
  reporter : Reporter
  checks : List Check

/- A service that has just started. -/
def Reports.start (startBlock : UInt64) (store : Store) : Reports where
  service := .new startBlock store
  txs := []
  reporter := .idle
  checks := []

def defaultInactive : Nat :=
  20

/- The miners of the next transaction, taken from the end. -/
def batch (miners : List Hash) : List Hash :=
  miners.reverse.take defaultInactive

/- The miners that are left for later transactions. -/
def left (miners : List Hash) : List Hash :=
  miners.take (miners.length - defaultInactive)

/- The state of the loop over the miners. -/
def reportNext (miners : List Hash) : Reporter :=
  if miners = [] then .idle else .reporting miners

/- The state of the loop over the nodes of a transaction. -/
def recordNext (nodes : List Hash) (hash : Hash) (rest : List Hash) : Reporter :=
  if nodes = [] then reportNext rest
  else .recording nodes hash rest

/- `TransactionReceipt`: there is a status when the
   transaction is mined. -/
def receipt (txs : List Tx) (hash : Hash) : Option Bool :=
  (txs.find? (fun tx => tx.hash == hash)).bind Tx.status

/- Nodes are cleared, whatever is recorded with them. -/
def clearAll (entries : List (Hash × Hash)) (s : State) :
    State :=
  entries.foldl (fun s entry => s.setInactionTx entry.1 none) s

/- A pending transaction is mined. -/
def mine (hash : Hash) (ok : Bool) (tx : Tx) : Tx :=
  if tx.hash = hash ∧ tx.status = none then { tx with status := some ok }
  else tx

---- Steps

/-
  `expire` is `ExpireMiners`, which ranges over a map, in the order given.  `send`, `lose` and
  `giveUp` are the ways a report goes on: `Inactives` returns, or returns an error after the
  transaction was sent, or there is an error before that.  `ask` and `clear` are steps of a
  goroutine.
-/
inductive Action where
  | event (event : NodeService.Event)
  | expire (miners : List Hash) (clist : List (Hash × Hash))
  | giveUp
  | send (hash : Hash)
  | lose (hash : Hash)
  | record
  | mined (hash : Hash) (ok : Bool)
  | ask (k : Nat) (answered : Bool)
  | clear (k : Nat)
  deriving DecidableEq, Repr

namespace Reports

/- A transaction is sent for the next miners. -/
def sendTx (hash : Hash) (reporter : List Hash → Reporter) (r : Reports) : Option Reports :=
  match r.reporter with
  | .reporting miners =>
    if hash ∈ r.txs.map Tx.hash then none
    else
      some
        { r with
          txs := r.txs ++ [⟨hash, batch miners, none⟩]
          reporter := reporter miners }
  | _ => none

/- The next receipt; an error leaves the node out. -/
def ask (k : Nat) (answered : Bool) (check : Check) (r : Reports) : Option Reports :=
  match check.todo with
  | [] => none
  | entry :: todo =>
    if answered then
      match receipt r.txs entry.2 with
      | none => none
      | some ok =>
        some
          { r with
            checks := r.checks.set k
              { check with
                todo := todo
                confirmed :=
                  if ok then check.confirmed ++ [entry]
                  else check.confirmed } }
    else
      some
        { r with
          checks := r.checks.set k { check with todo := todo } }

/- The nodes whose transaction has succeeded are cleared. -/
def clear (k : Nat) (check : Check) (r : Reports) : Option Reports :=
  if check.todo = [] ∧ check.finished = false then
    some
      { r with
        service := clearAll check.confirmed r.service
        checks := r.checks.set k { check with finished := true } }
  else none

end Reports

def step (mineTrust : Bool) (action : Action) (r : Reports) : Option Reports :=
  match action with
  | .event event => some { r with service := r.service.apply mineTrust event }
  | .expire miners clist =>
    if r.reporter = .idle ∧ miners.Perm r.service.expireMiners ∧ clist.Perm r.service.reported then
      some
        { r with
          reporter := reportNext miners
          checks := r.checks ++ [⟨clist, [], false⟩] }
    else none
  | .giveUp =>
    match r.reporter with
    | .reporting _ => some { r with reporter := .idle }
    | _ => none
  | .send hash => r.sendTx hash (fun miners => .recording (batch miners) hash (left miners))
  | .lose hash => r.sendTx hash (fun _ => .idle)
  | .record =>
    match r.reporter with
    | .recording (id :: nodes) hash rest =>
      some
        { r with
          service := r.service.updateNodeInactionTxHash id hash
          reporter := recordNext nodes hash rest }
    | _ => none
  | .mined hash ok =>
    if receipt r.txs hash = none ∧ hash ∈ r.txs.map Tx.hash then
      some { r with txs := r.txs.map (mine hash ok) }
    else none
  | .ask k answered => r.checks[k]?.bind fun check => r.ask k answered check
  | .clear k => r.checks[k]?.bind fun check => r.clear k check

/-
  Late miners are looked for only when no goroutine is asking for receipts, and no transaction is
  sent when `Inactives` returns an error.
-/
def Careful (action : Action) (r : Reports) : Prop :=
  match action with
  | .expire _ _ => ∀ check ∈ r.checks, check.finished = true
  | .lose _ => False
  | _ => True

instance (action : Action) (r : Reports) : Decidable (Careful action r) :=
  match action with
  | .expire _ _ => inferInstanceAs (Decidable (∀ check ∈ r.checks, check.finished = true))
  | .lose _ => isFalse id
  | .event _ => isTrue trivial
  | .giveUp => isTrue trivial
  | .send _ => isTrue trivial
  | .record => isTrue trivial
  | .mined _ _ => isTrue trivial
  | .ask _ _ => isTrue trivial
  | .clear _ => isTrue trivial

---- What a Step Does

inductive Effect (mineTrust : Bool) (r : Reports) : Action → Reports → Prop where
  | event (event : NodeService.Event) :
      Effect mineTrust r (.event event) { r with service := r.service.apply mineTrust event }
  | expire (miners : List Hash) (clist : List (Hash × Hash)) (hIdle : r.reporter = .idle)
      (hMiners : miners.Perm r.service.expireMiners) (hClist : clist.Perm r.service.reported) :
      Effect mineTrust r (.expire miners clist)
        { r with
          reporter := reportNext miners
          checks := r.checks ++ [⟨clist, [], false⟩] }
  | giveUp (miners : List Hash) (hReporter : r.reporter = .reporting miners) :
      Effect mineTrust r .giveUp { r with reporter := .idle }
  | send (hash : Hash) (miners : List Hash) (hReporter : r.reporter = .reporting miners)
      (hFresh : hash ∉ r.txs.map Tx.hash) : Effect mineTrust r (.send hash)
        { r with
          txs := r.txs ++ [⟨hash, batch miners, none⟩]
          reporter := .recording (batch miners) hash (left miners) }
  | lose (hash : Hash) (miners : List Hash) : Effect mineTrust r (.lose hash)
        { r with
          txs := r.txs ++ [⟨hash, batch miners, none⟩]
          reporter := .idle }
  | record (id : Hash) (nodes : List Hash) (hash : Hash) (rest : List Hash)
      (hReporter : r.reporter = .recording (id :: nodes) hash rest) : Effect mineTrust r .record
        { r with
          service := r.service.updateNodeInactionTxHash id hash
          reporter := recordNext nodes hash rest }
  | mined (hash : Hash) (ok : Bool) :
      Effect mineTrust r (.mined hash ok) { r with txs := r.txs.map (mine hash ok) }
  | failed (k : Nat) (check : Check) (entry : Hash × Hash) (todo : List (Hash × Hash))
      (hCheck : r.checks[k]? = some check) (hTodo : check.todo = entry :: todo) :
      Effect mineTrust r (.ask k false)
        { r with
          checks := r.checks.set k { check with todo := todo } }
  | answered (k : Nat) (check : Check) (entry : Hash × Hash) (todo : List (Hash × Hash)) (ok : Bool)
      (hCheck : r.checks[k]? = some check) (hTodo : check.todo = entry :: todo)
      (hReceipt : receipt r.txs entry.2 = some ok) : Effect mineTrust r (.ask k true)
        { r with
          checks := r.checks.set k
            { check with
              todo := todo
              confirmed :=
                if ok then check.confirmed ++ [entry]
                else check.confirmed } }
  | clear (k : Nat) (check : Check) (hCheck : r.checks[k]? = some check) (hTodo : check.todo = [])
      (hRunning : check.finished = false) : Effect mineTrust r (.clear k)
        { r with
          service := clearAll check.confirmed r.service
          checks := r.checks.set k { check with finished := true } }

theorem sendTx_cases {hash : Hash} (hSend : r.sendTx hash reporter = some after) :
    ∃ miners, r.reporter = .reporting miners ∧ hash ∉ r.txs.map Tx.hash ∧ after =
        { r with
          txs := r.txs ++ [⟨hash, batch miners, none⟩]
          reporter := reporter miners } := by
  unfold Reports.sendTx at hSend
  split at hSend
  · rename_i miners hReporter
    split_ifs at hSend with hKnown
    cases hSend
    exact ⟨miners, hReporter, hKnown, rfl⟩
  · cases hSend

theorem ask_effect {answered : Bool} (hCheck : r.checks[k]? = some check)
    (hAsk : r.ask k answered check = some after) : Effect mineTrust r (.ask k answered) after := by
  unfold Reports.ask at hAsk
  split at hAsk
  · cases hAsk
  · rename_i entry todo hTodo
    cases answered with
    | true =>
      simp only [↓reduceIte] at hAsk
      split at hAsk
      · cases hAsk
      · rename_i ok hReceipt
        cases hAsk
        exact .answered k check entry todo ok hCheck hTodo hReceipt
    | false =>
      cases hAsk
      exact .failed k check entry todo hCheck hTodo

theorem step_effect (hStep : step mineTrust action r = some after) :
    Effect mineTrust r action after := by
  cases action with
  | event event =>
    cases hStep
    exact .event event
  | expire miners clist =>
    simp only [step] at hStep
    split_ifs at hStep with hReady
    cases hStep
    exact .expire miners clist hReady.1 hReady.2.1 hReady.2.2
  | giveUp =>
    simp only [step] at hStep
    split at hStep
    · rename_i miners hReporter
      cases hStep
      exact .giveUp miners hReporter
    · cases hStep
  | send hash =>
    obtain ⟨miners, hReporter, hFresh, rfl⟩ := sendTx_cases hStep
    exact .send hash miners hReporter hFresh
  | lose hash =>
    obtain ⟨miners, -, -, rfl⟩ := sendTx_cases hStep
    exact .lose hash miners
  | record =>
    simp only [step] at hStep
    split at hStep
    · rename_i id nodes hash rest hReporter
      cases hStep
      exact .record id nodes hash rest hReporter
    · cases hStep
  | mined hash ok =>
    simp only [step] at hStep
    split_ifs at hStep
    cases hStep
    exact .mined hash ok
  | ask k answered =>
    obtain ⟨check, hCheck, hSome⟩ := Option.bind_eq_some_iff.mp hStep
    exact ask_effect hCheck hSome
  | clear k =>
    obtain ⟨check, hCheck, hSome⟩ := Option.bind_eq_some_iff.mp hStep
    unfold Reports.clear at hSome
    split_ifs at hSome with hDone
    cases hSome
    exact .clear k check hCheck hDone.1 hDone.2

---- Recorded Reports

section

/- The transaction is recorded with the node. -/
def Reported (s : State) (id tx : Hash) : Prop :=
  ∃ n, s.nodes.get id = some n ∧ n.inactionTx = some tx

/- The node is there and has no report. -/
def Unreported (s : State) (id : Hash) : Prop :=
  ∃ n, s.nodes.get id = some n ∧ n.inactionTx = none

variable {s : State}
variable {id other tx : Hash}

theorem Reported.unique (hReported : Reported s id tx) (hOther : Reported s id tx') : tx = tx' := by
  obtain ⟨n, hGet, hTx⟩ := hReported
  obtain ⟨n', hGet', hTx'⟩ := hOther
  obtain rfl := Option.some.inj (hGet.symm.trans hGet')
  exact Option.some.inj (hTx.symm.trans hTx')

theorem Reported.not_unreported (hReported : Reported s id tx) : ¬ Unreported s id := by
  rintro ⟨n', hGet', hNone⟩
  obtain ⟨n, hGet, hTx⟩ := hReported
  obtain rfl := Option.some.inj (hGet.symm.trans hGet')
  rw [hTx] at hNone
  cases hNone

theorem Reported.apply (hReported : Reported s id tx) (mineTrust : Bool)
    (event : NodeService.Event) :
    Reported (s.apply mineTrust event) id tx := by
  obtain ⟨n, hGet, hTx⟩ := hReported
  obtain ⟨n', hGet', hGrows⟩ := (apply_grows mineTrust event).kept id n hGet
  exact ⟨n', hGet', hGrows.2.trans hTx⟩

theorem Unreported.apply (hUnreported : Unreported s id) (mineTrust : Bool)
    (event : NodeService.Event) :
    Unreported (s.apply mineTrust event) id := by
  obtain ⟨n, hGet, hTx⟩ := hUnreported
  obtain ⟨n', hGet', hGrows⟩ := (apply_grows mineTrust event).kept id n hGet
  exact ⟨n', hGet', hGrows.2.trans hTx⟩

theorem get_setInactionTx_of_ne (hNe : id ≠ other) :
    (s.setInactionTx id report).nodes.get other = s.nodes.get other := by
  unfold State.setInactionTx
  split
  · rfl
  · exact Index.get_put_of_ne _ hNe _

theorem get_setInactionTx_self (hGet : s.nodes.get id = some n) :
    (s.setInactionTx id report).nodes.get id = some { n with inactionTx := report } := by
  unfold State.setInactionTx
  rw [hGet]
  exact Index.get_put_self ..

/- A node without a report gets one. -/
theorem Unreported.record (hUnreported : Unreported s id) :
    Reported (s.updateNodeInactionTxHash id tx) id tx := by
  obtain ⟨n, hGet, -⟩ := hUnreported
  exact ⟨_, get_setInactionTx_self hGet, rfl⟩

/- The reports of other nodes stay. -/
theorem Reported.record {hash : Hash} (hReported : Reported s other tx)
    (hUnreported : Unreported s id) : Reported (s.updateNodeInactionTxHash id hash) other tx := by
  have hNe : id ≠ other := by
    intro hSame
    subst hSame
    exact hReported.not_unreported hUnreported
  obtain ⟨n, hGet, hTx⟩ := hReported
  exact ⟨n, (get_setInactionTx_of_ne hNe).trans hGet, hTx⟩

theorem Unreported.record_of_ne {hash : Hash} (hUnreported : Unreported s other)
    (hNe : id ≠ other) : Unreported (s.updateNodeInactionTxHash id hash) other := by
  obtain ⟨n, hGet, hTx⟩ := hUnreported
  exact ⟨n, (get_setInactionTx_of_ne hNe).trans hGet, hTx⟩

theorem Unreported.clearAll (hUnreported : Unreported s id) (entries : List (Hash × Hash)) :
    Unreported (clearAll entries s) id := by
  induction entries generalizing s with
  | nil => exact hUnreported
  | cons entry entries ih =>
    apply ih
    obtain ⟨n, hGet, hTx⟩ := hUnreported
    by_cases hSame : entry.1 = id
    · subst hSame
      exact ⟨_, get_setInactionTx_self hGet, rfl⟩
    · exact ⟨n, (get_setInactionTx_of_ne hSame).trans hGet, hTx⟩

/- A node that is not among the entries keeps its report. -/
theorem Reported.clearAll (hReported : Reported s id tx)
    (hKept : ∀ entry ∈ entries, entry.1 ≠ id) : Reported (clearAll entries s) id tx := by
  induction entries generalizing s with
  | nil => exact hReported
  | cons entry entries ih =>
    obtain ⟨n, hGet, hTx⟩ := hReported
    have hNe := hKept entry (List.mem_cons_self ..)
    apply ih
    · exact ⟨n, (get_setInactionTx_of_ne hNe).trans hGet, hTx⟩
    · intro later hMem
      exact hKept later (List.mem_cons_of_mem _ hMem)

theorem mem_reported_iff : (id, tx) ∈ s.reported ↔ Reported s id tx := by
  unfold State.reported Reported
  rw [List.mem_filterMap]
  constructor
  · rintro ⟨⟨other, n⟩, hEntry, hSome⟩
    obtain ⟨report, hReport, hPair⟩ := Option.map_eq_some_iff.mp hSome
    obtain ⟨rfl, rfl⟩ := Prod.mk.inj hPair
    exact ⟨n, (Index.mem_entries_iff ..).mp hEntry, hReport⟩
  · rintro ⟨n, hGet, hTx⟩
    refine ⟨(id, n), (Index.mem_entries_iff ..).mpr hGet, ?_⟩
    rw [hTx]
    rfl

theorem unreported_of_mem_expireMiners (hMem : id ∈ s.expireMiners) : Unreported s id := by
  obtain ⟨n, hGet, -, hTx, -⟩ := mem_expireMiners_iff.mp hMem
  exact ⟨n, hGet, hTx⟩

theorem nodup_expireMiners : s.expireMiners.Nodup := by
  exact (Index.nodup_keys_entries s.nodes).sublist (List.filter_sublist.map _)

end

---- Careful Runs

/- The miners that are still to be recorded. -/
def Reporter.todo : Reporter → List Hash
| .idle => []
| .reporting miners => miners
| .recording nodes _ rest => nodes ++ rest

/- The transaction is about to be recorded with the miner. -/
def Reporter.Awaits (reporter : Reporter) (id tx : Hash) : Prop :=
  ∃ nodes rest, reporter = .recording nodes tx rest ∧ id ∈ nodes

/-
  A pending transaction is recorded with each of its miners, or about to be.  There is one goroutine
  that asks for receipts at most, and what it has to clear is recorded.
-/
structure Consistent (r : Reports) : Prop where
  unique : (r.txs.map Tx.hash).Nodup
  pending :
    ∀ tx ∈ r.txs, tx.status = none → ∀ id ∈ tx.miners,
      Reported r.service id tx.hash ∨ r.reporter.Awaits id tx.hash
  free : ∀ id ∈ r.reporter.todo, Unreported r.service id
  nodup : r.reporter.todo.Nodup
  watched :
    ∀ check ∈ r.checks, check.finished = false →
      ∀ entry ∈ check.todo ++ check.confirmed, Reported r.service entry.1 entry.2
  succeeded :
    ∀ check ∈ r.checks, check.finished = false →
      ∀ entry ∈ check.confirmed, ∃ tx ∈ r.txs, tx.hash = entry.2 ∧ tx.status = some true
  single :
    ∀ (j k : Nat) (check other : Check), r.checks[j]? = some check → r.checks[k]? = some other →
      check.finished = false → other.finished = false → j = k

theorem batch_append_left_perm (miners : List Hash) :
    (batch miners ++ left miners).Perm miners := by
  have hBatch : batch miners = (miners.drop (miners.length - defaultInactive)).reverse := by
    rw [batch, List.take_reverse]
  rw [hBatch]
  calc
    (miners.drop (miners.length - defaultInactive)).reverse ++
        miners.take (miners.length - defaultInactive)
      |>.Perm
        (miners.drop (miners.length - defaultInactive) ++
          miners.take (miners.length - defaultInactive)) :=
      (List.reverse_perm _).append_right _
    _ |>.Perm
        (miners.take (miners.length - defaultInactive) ++
          miners.drop (miners.length - defaultInactive)) :=
      List.perm_append_comm
    _ = miners := List.take_append_drop _ _

theorem todo_reportNext : (reportNext miners).todo = miners := by
  unfold reportNext
  split_ifs with hEmpty
  · exact hEmpty.symm
  · rfl

theorem todo_recordNext (hash : Hash) : (recordNext nodes hash rest).todo = nodes ++ rest := by
  unfold recordNext
  split_ifs with hEmpty
  · rw [hEmpty, todo_reportNext]
    rfl
  · rfl

theorem awaits_recordNext {id hash : Hash} (hMem : id ∈ nodes) :
    (recordNext nodes hash rest).Awaits id hash := by
  unfold recordNext
  rw [if_neg (List.ne_nil_of_mem hMem)]
  exact ⟨nodes, rest, rfl, hMem⟩

theorem hash_mine (hash : Hash) (ok : Bool) (tx : Tx) : (mine hash ok tx).hash = tx.hash := by
  unfold mine
  split_ifs <;> rfl

theorem miners_mine (hash : Hash) (ok : Bool) (tx : Tx) : (mine hash ok tx).miners = tx.miners := by
  unfold mine
  split_ifs <;> rfl

theorem mine_of_status (hStatus : tx.status = some status) (hash : Hash)
    (ok : Bool) : mine hash ok tx = tx := by
  unfold mine
  rw [if_neg]
  rintro ⟨-, hNone⟩
  rw [hStatus] at hNone
  cases hNone

theorem receipt_some {hash : Hash} (hReceipt : receipt txs hash = some ok) :
    ∃ tx ∈ txs, tx.hash = hash ∧ tx.status = some ok := by
  obtain ⟨tx, hFind, hStatus⟩ := Option.bind_eq_some_iff.mp hReceipt
  have hHash := List.find?_some hFind
  exact ⟨tx, List.mem_of_find?_eq_some hFind, beq_iff_eq.mp hHash, hStatus⟩

namespace Consistent

variable {mineTrust : Bool}
variable {r after : Reports}

theorem start (startBlock : UInt64) (store : Store) : Consistent (.start startBlock store) where
  unique := List.nodup_nil
  pending _ hMem := nomatch hMem
  free _ hMem := nomatch hMem
  nodup := List.nodup_nil
  watched _ hMem := nomatch hMem
  succeeded _ hMem := nomatch hMem
  single _ _ _ _ hSlot := nomatch hSlot

section

variable (hConsistent : Consistent r)
include hConsistent

/- A pending transaction is recorded when the reporter is not
   at its records. -/
theorem pending_reported (hReporter : r.reporter = .idle ∨ ∃ miners, r.reporter = .reporting miners)
    (hMem : tx ∈ r.txs) (hPending : tx.status = none) {id : Hash}
    (hMiner : id ∈ tx.miners) : Reported r.service id tx.hash := by
  rcases hConsistent.pending tx hMem hPending id hMiner with
    hReported | ⟨nodes, rest, hRecording, -⟩
  · exact hReported
  · rw [hRecording] at hReporter
    rcases hReporter with hIdle | ⟨_, hReporting⟩
    · cases hIdle
    · cases hReporting

theorem event (hEffect : Effect mineTrust r (.event e) after) : Consistent after := by
  cases hEffect
  exact { hConsistent with
    pending := by
      intro tx hMem hPending id hMiner
      rcases hConsistent.pending tx hMem hPending id hMiner with hReported | hAwaits
      · exact .inl (hReported.apply mineTrust e)
      · exact .inr hAwaits
    free := fun id hMem => (hConsistent.free id hMem).apply mineTrust e
    watched := fun check hMem hRunning entry hEntry =>
      (hConsistent.watched check hMem hRunning entry hEntry).apply mineTrust e }

theorem expire (hEffect : Effect mineTrust r (.expire miners clist) after)
    (hAlone : ∀ check ∈ r.checks, check.finished = true) : Consistent after := by
  cases hEffect with
  | expire _ _ hIdle hMiners hClist =>
  -- the new goroutine is the only one that runs
  have hNew {j : Nat} {check : Check}
      (hCheck : (r.checks ++ [⟨clist, [], false⟩])[j]? = some check)
      (hRunning : check.finished = false) : j = r.checks.length ∧ check = ⟨clist, [], false⟩ := by
    rcases slot_append_cases hCheck with hLast | hOld
    · exact hLast
    · rw [hAlone check (List.mem_of_getElem? hOld)] at hRunning
      cases hRunning
  refine { hConsistent with
    pending := fun tx hMem hPending id hMiner =>
      .inl (hConsistent.pending_reported (.inl hIdle) hMem hPending hMiner)
    free := ?_
    nodup := ?_
    watched := ?_
    succeeded := ?_
    single := ?_ }
  · intro id hMem
    rw [todo_reportNext] at hMem
    exact unreported_of_mem_expireMiners (hMiners.mem_iff.mp hMem)
  · rw [todo_reportNext]
    exact hMiners.nodup_iff.mpr nodup_expireMiners
  · intro check hMem hRunning entry hEntry
    obtain ⟨j, hSlot⟩ := List.mem_iff_getElem?.mp hMem
    rw [(hNew hSlot hRunning).2, List.append_nil] at hEntry
    exact mem_reported_iff.mp (hClist.mem_iff.mp hEntry)
  · intro check hMem hRunning entry hEntry
    obtain ⟨j, hSlot⟩ := List.mem_iff_getElem?.mp hMem
    rw [(hNew hSlot hRunning).2] at hEntry
    cases hEntry
  · intro j k check other hCheck hOther hRunning hOtherRuns
    exact (hNew hCheck hRunning).1.trans (hNew hOther hOtherRuns).1.symm

theorem giveUp (hEffect : Effect mineTrust r .giveUp after) : Consistent after := by
  cases hEffect with
  | giveUp miners hReporter =>
  exact { hConsistent with
    pending := fun tx hMem hPending id hMiner =>
      .inl (hConsistent.pending_reported (.inr ⟨_, hReporter⟩) hMem hPending hMiner)
    free := nofun
    nodup := List.nodup_nil }

theorem send {hash : Hash} (hEffect : Effect mineTrust r (.send hash) after) :
    Consistent after := by
  cases hEffect with
  | send _ miners hReporter hFresh =>
  have hPerm := batch_append_left_perm miners
  have hTodo : r.reporter.todo = miners := by
    rw [hReporter]
    rfl
  refine ⟨?_, ?_, ?_, ?_, hConsistent.watched, ?_, hConsistent.single⟩
  · rw [List.map_append, List.nodup_append]
    refine ⟨hConsistent.unique, List.nodup_singleton _, ?_⟩
    intro old hOld last hLast hSame
    obtain rfl := List.mem_singleton.mp hLast
    exact hFresh (hSame ▸ hOld)
  · intro tx hMem hPending id hMiner
    rcases List.mem_append.mp hMem with hOld | hNew
    · exact .inl (hConsistent.pending_reported (.inr ⟨_, hReporter⟩) hOld hPending hMiner)
    · obtain rfl := List.mem_singleton.mp hNew
      exact .inr ⟨_, _, rfl, hMiner⟩
  · intro id hMem
    apply hConsistent.free
    rw [hTodo]
    exact hPerm.mem_iff.mp hMem
  · have hNodup := hConsistent.nodup
    rw [hTodo] at hNodup
    exact hPerm.nodup_iff.mpr hNodup
  · intro check hMem hRunning entry hEntry
    obtain ⟨tx, hTx, hDone⟩ := hConsistent.succeeded check hMem hRunning entry hEntry
    exact ⟨tx, List.mem_append_left _ hTx, hDone⟩

theorem record (hEffect : Effect mineTrust r .record after) : Consistent after := by
  cases hEffect with
  | record id nodes hash rest hReporter =>
  have hTodo : r.reporter.todo = id :: (nodes ++ rest) := by
    rw [hReporter]
    rfl
  have hNodup := hConsistent.nodup
  rw [hTodo, List.nodup_cons] at hNodup
  have hUnreported : Unreported r.service id := by
    apply hConsistent.free
    rw [hTodo]
    exact List.mem_cons_self ..
  refine ⟨hConsistent.unique, ?_, ?_, ?_, ?_, hConsistent.succeeded, hConsistent.single⟩
  · intro tx hMem hPending other hMiner
    rcases hConsistent.pending tx hMem hPending other hMiner
      with hReported | ⟨nodes', rest', hRecording, hAwaits⟩
    · exact .inl (hReported.record hUnreported)
    · rw [hReporter] at hRecording
      cases hRecording
      rcases List.mem_cons.mp hAwaits with rfl | hLater
      · exact .inl hUnreported.record
      · exact .inr (awaits_recordNext hLater)
  · intro other hMem
    rw [todo_recordNext] at hMem
    have hOther : Unreported r.service other := by
      apply hConsistent.free
      rw [hTodo]
      exact List.mem_cons_of_mem _ hMem
    apply hOther.record_of_ne
    rintro rfl
    exact hNodup.1 hMem
  · rw [todo_recordNext]
    exact hNodup.2
  · intro check hMem hRunning entry hEntry
    exact (hConsistent.watched check hMem hRunning entry hEntry).record hUnreported

theorem mined {hash : Hash} (hEffect : Effect mineTrust r (.mined hash ok) after) :
    Consistent after := by
  cases hEffect
  exact { hConsistent with
    unique := by
      have hHashes : (r.txs.map (mine hash ok)).map Tx.hash = r.txs.map Tx.hash := by
        rw [List.map_map]
        exact List.map_congr_left (fun tx _ => hash_mine hash ok tx)
      rw [hHashes]
      exact hConsistent.unique
    pending := by
      intro tx hMem hPending id hMiner
      obtain ⟨old, hOld, rfl⟩ := List.mem_map.mp hMem
      have hOldPending : old.status = none := by
        cases hStatus : old.status with
        | none => rfl
        | some status =>
          rw [mine_of_status hStatus, hStatus] at hPending
          cases hPending
      rw [miners_mine] at hMiner
      rw [hash_mine]
      exact hConsistent.pending old hOld hOldPending id hMiner
    succeeded := by
      intro check hMem hRunning entry hEntry
      obtain ⟨tx, hTx, hHash, hStatus⟩ := hConsistent.succeeded check hMem hRunning entry hEntry
      refine ⟨tx, List.mem_map.mpr ⟨tx, hTx, ?_⟩, hHash, hStatus⟩
      exact mine_of_status hStatus hash ok }

/- A goroutine goes on with entries it already had. -/
theorem set_check (hCheck : r.checks[k]? = some check) (hRunning : next.finished = check.finished)
    (hEntries : ∀ entry ∈ next.todo ++ next.confirmed, entry ∈ check.todo ++ check.confirmed)
    (hSucceeded :
      ∀ entry ∈ next.confirmed,
        entry ∈ check.confirmed ∨ ∃ tx ∈ r.txs, tx.hash = entry.2 ∧ tx.status = some true) :
    Consistent { r with checks := r.checks.set k next } :=
  { hConsistent with
    watched := by
      intro other hMem hRuns entry hEntry
      rcases List.mem_or_eq_of_mem_set hMem with hOld | rfl
      · exact hConsistent.watched other hOld hRuns entry hEntry
      · exact hConsistent.watched check (List.mem_of_getElem? hCheck) (hRunning ▸ hRuns)
          entry (hEntries entry hEntry)
    succeeded := by
      intro other hMem hRuns entry hEntry
      rcases List.mem_or_eq_of_mem_set hMem with hOld | rfl
      · exact hConsistent.succeeded other hOld hRuns entry hEntry
      · rcases hSucceeded entry hEntry with hBefore | hNew
        · exact hConsistent.succeeded check (List.mem_of_getElem? hCheck) (hRunning ▸ hRuns)
            entry hBefore
        · exact hNew
    single := by
      intro i j first second hFirst hSecond hRuns hAlsoRuns
      have hOld {i : Nat} {first : Check} (hSlot : (r.checks.set k next)[i]? = some first)
          (hRuns : first.finished = false) :
          ∃ old, r.checks[i]? = some old ∧ old.finished = false := by
        rcases slot_set_cases hSlot with ⟨rfl, rfl⟩ | ⟨-, hSame⟩
        · exact ⟨check, hCheck, hRunning ▸ hRuns⟩
        · exact ⟨first, hSame, hRuns⟩
      obtain ⟨old, hOldSlot, hOldRuns⟩ := hOld hFirst hRuns
      obtain ⟨old', hOldSlot', hOldRuns'⟩ := hOld hSecond hAlsoRuns
      exact hConsistent.single i j old old' hOldSlot hOldSlot' hOldRuns hOldRuns' }

/- A node is left out. -/
theorem skipped (hCheck : r.checks[k]? = some check)
    (hTodo : check.todo = entry :: todo) : Consistent
      { r with
        checks := r.checks.set k { check with todo := todo } } := by
  refine hConsistent.set_check hCheck (by rfl) ?_ ?_
  · intro other hMem
    rw [hTodo]
    exact List.mem_cons_of_mem _ hMem
  · intro other hMem
    exact .inl hMem

/- A node whose transaction has succeeded. -/
theorem confirmed (hCheck : r.checks[k]? = some check)
    (hTodo : check.todo = entry :: todo)
    (hStatus : ∃ tx ∈ r.txs, tx.hash = entry.2 ∧ tx.status = some true) : Consistent
      { r with
        checks := r.checks.set k
          { check with
            todo := todo
            confirmed := check.confirmed ++ [entry] } } := by
  refine hConsistent.set_check hCheck (by rfl) ?_ ?_
  · intro other hMem
    rw [hTodo]
    rcases List.mem_append.mp hMem with hLater | hDone
    · exact List.mem_append_left _ (List.mem_cons_of_mem _ hLater)
    · rcases List.mem_append.mp hDone with hOld | hNew
      · exact List.mem_append_right _ hOld
      · obtain rfl := List.mem_singleton.mp hNew
        exact List.mem_append_left _ (List.mem_cons_self ..)
  · intro other hMem
    rcases List.mem_append.mp hMem with hOld | hNew
    · exact .inl hOld
    · obtain rfl := List.mem_singleton.mp hNew
      exact .inr hStatus

/- What is cleared is not pending any more. -/
theorem kept_by_clear {k : Nat} (hCheck : r.checks[k]? = some check)
    (hRunning : check.finished = false) (hMem : tx ∈ r.txs) (hPending : tx.status = none)
    {id : Hash} (hReported : Reported r.service id tx.hash) (entry : Hash × Hash)
    (hEntry : entry ∈ check.confirmed) : entry.1 ≠ id := by
  rintro rfl
  have hChecks := List.mem_of_getElem? hCheck
  have hRecorded := hConsistent.watched check hChecks hRunning
    entry (List.mem_append_right _ hEntry)
  obtain ⟨tx', hMem', hHash, hStatus⟩ := hConsistent.succeeded check hChecks hRunning entry hEntry
  have hSame : tx'.hash = tx.hash := hHash.trans (hRecorded.unique hReported)
  obtain rfl := List.inj_on_of_nodup_map hConsistent.unique hMem' hMem hSame
  rw [hPending] at hStatus
  cases hStatus

theorem clear (hEffect : Effect mineTrust r (.clear k) after) : Consistent after := by
  cases hEffect with
  | clear _ check hCheck hTodo hRunning =>
  -- every other goroutine has finished
  have hFinished {other : Check} (hMem : other ∈ r.checks.set k { check with finished := true })
      (hRuns : other.finished = false) : False := by
    obtain ⟨j, hSlot⟩ := List.mem_iff_getElem?.mp hMem
    rcases slot_set_cases hSlot with ⟨rfl, rfl⟩ | ⟨hPlace, hOld⟩
    · cases hRuns
    · exact hPlace (hConsistent.single j k other check hOld hCheck hRuns hRunning)
  exact { hConsistent with
    pending := by
      intro tx hMem hPending id hMiner
      rcases hConsistent.pending tx hMem hPending id hMiner with hReported | hAwaits
      · exact .inl (hReported.clearAll
          (hConsistent.kept_by_clear hCheck hRunning hMem hPending hReported))
      · exact .inr hAwaits
    free := fun id hMem => (hConsistent.free id hMem).clearAll _
    watched := fun other hMem hRuns => (hFinished hMem hRuns).elim
    succeeded := fun other hMem hRuns => (hFinished hMem hRuns).elim
    single := fun i j first second hFirst _ hRuns =>
      (hFinished (List.mem_of_getElem? hFirst) hRuns).elim }

theorem step (hCareful : Careful action r)
    (hStep : Inaction.step mineTrust action r = some after) : Consistent after := by
  have hEffect := step_effect hStep
  cases action with
  | event event => exact hConsistent.event hEffect
  | expire miners clist => exact hConsistent.expire hEffect hCareful
  | giveUp => exact hConsistent.giveUp hEffect
  | send hash => exact hConsistent.send hEffect
  | lose hash => exact absurd hCareful id
  | record => exact hConsistent.record hEffect
  | mined hash ok => exact hConsistent.mined hEffect
  | ask k answered =>
    cases hEffect with
    | failed _ check entry todo hCheck hTodo => exact hConsistent.skipped hCheck hTodo
    | answered _ check entry todo ok hCheck hTodo hReceipt =>
      cases ok with
      | false => exact hConsistent.skipped hCheck hTodo
      | true => exact hConsistent.confirmed hCheck hTodo (receipt_some hReceipt)
  | clear k => exact hConsistent.clear hEffect

end

end Consistent

/- The next step of a goroutine clears the node because of
   the confirmation of the transaction. -/
def Clears (r : Reports) (id tx : Hash) : Prop :=
  ∃ (k : Nat) (check : Check), r.checks[k]? = some check ∧
    check.todo = [] ∧ check.finished = false ∧ (id, tx) ∈ check.confirmed

/- A report stays until its own confirmation clears it. -/
theorem Consistent.reported_step {id tx : Hash} (hConsistent : Consistent r)
    (hStep : Inaction.step mineTrust action r = some after) (hReported : Reported r.service id tx) :
    Reported after.service id tx ∨ Clears r id tx := by
  cases step_effect hStep with
  | event event => exact .inl (hReported.apply mineTrust event)
  | record other nodes hash rest hReporter =>
    refine .inl (hReported.record (hConsistent.free other ?_))
    rw [hReporter]
    exact List.mem_cons_self ..
  | clear k check hCheck hTodo hRunning =>
    by_cases hMem : (id, tx) ∈ check.confirmed
    · exact .inr ⟨k, check, hCheck, hTodo, hRunning, hMem⟩
    · refine .inl (hReported.clearAll ?_)
      rintro ⟨other, tx'⟩ hEntry rfl
      have hRecorded := hConsistent.watched check
        (List.mem_of_getElem? hCheck) hRunning (other, tx') (List.mem_append_right _ hEntry)
      rw [hReported.unique hRecorded] at hMem
      exact hMem hEntry
  | expire | giveUp | send | lose | mined | failed | answered => exact .inl hReported

/- Two pending transactions have no miner in common. -/
theorem Consistent.pending_disjoint {id : Hash} (hConsistent : Consistent r)
    (hMem : tx ∈ r.txs) (hMem' : tx' ∈ r.txs) (hPending : tx.status = none)
    (hPending' : tx'.status = none) (hMiner : id ∈ tx.miners) (hMiner' : id ∈ tx'.miners) :
    tx = tx' := by
  -- a miner that is still to be recorded has no report
  have hAwaited {hash : Hash} (hAwaits : r.reporter.Awaits id hash) : Unreported r.service id := by
    obtain ⟨nodes, rest, hReporter, hNodes⟩ := hAwaits
    apply hConsistent.free
    rw [hReporter]
    exact List.mem_append_left _ hNodes
  apply List.inj_on_of_nodup_map hConsistent.unique hMem hMem'
  rcases hConsistent.pending tx hMem hPending id hMiner with hReported | hAwaits
  · rcases hConsistent.pending tx' hMem' hPending' id hMiner' with hReported' | hAwaits'
    · exact hReported.unique hReported'
    · exact absurd (hAwaited hAwaits') hReported.not_unreported
  · rcases hConsistent.pending tx' hMem' hPending' id hMiner' with hReported' | hAwaits'
    · exact absurd (hAwaited hAwaits) hReported'.not_unreported
    · obtain ⟨nodes, rest, hReporter, -⟩ := hAwaits
      obtain ⟨nodes', rest', hReporter', -⟩ := hAwaits'
      rw [hReporter] at hReporter'
      exact (Reporter.recording.inj hReporter').2.1

/-
  A confirmation clears a node only if its transaction is the one that is recorded, nothing else
  takes a report away, and no miner is in two pending transactions.
-/
theorem reports_kept (mineTrust : Bool) (startBlock : UInt64) (store : Store) (r : Reports)
    (hReach : Reach (Stepping (step mineTrust)) Careful (.start startBlock store) r) :
    (∀ id tx, Clears r id tx → Reported r.service id tx) ∧
      (∀ action after id tx, step mineTrust action r = some after →
        Reported r.service id tx → Reported after.service id tx ∨ Clears r id tx) ∧
      ∀ tx ∈ r.txs, ∀ tx' ∈ r.txs, tx.status = none → tx'.status = none →
        ∀ id ∈ tx.miners, id ∈ tx'.miners → tx = tx' := by
  have hConsistent : Consistent r :=
    hReach.invariant Consistent (.start startBlock store) (fun _ _ _ hInv hCareful hStep =>
        hInv.step hCareful hStep)
  refine ⟨?_, ?_, ?_⟩
  · rintro id tx ⟨k, check, hCheck, -, hRunning, hMem⟩
    exact hConsistent.watched check (List.mem_of_getElem? hCheck) hRunning (id, tx)
      (List.mem_append_right _ hMem)
  · intro action after id tx hStep hReported
    exact hConsistent.reported_step hStep hReported
  · intro tx hMem tx' hMem' hPending hPending' id hMiner hMiner'
    exact hConsistent.pending_disjoint hMem hMem' hPending hPending' hMiner hMiner'

/- Miner 1 is reported in transaction 11 at block 1000, and
   the transaction succeeds. -/
def reportFirst : List Action :=
  [.event (.miner 1 true true 100), .event (.blockNumber 1000), .expire [1] [], .send 11,
    .record, .mined 11 true]

/- One goroutine gets the receipt. -/
theorem reports_kept_once :
    ∃ r, Reach (Stepping (step true)) Careful (.start 0 .empty) r ∧
      Clears r 1 11 ∧ Reported r.service 1 11 := by
  have hRun :
      ∃ r, Reach (Stepping (step true)) Careful (.start 0 .empty) r ∧
        r.checks[1]? = some ⟨[], [(1, 11)], false⟩ :=
    exists_reach (reportFirst ++ [.clear 0, .expire [] [(1, 11)], .ask 1 true]) (by decide +kernel)
  obtain ⟨r, hReach, hCheck⟩ := hRun
  have hClears : Clears r 1 11 := ⟨1, _, hCheck, rfl, rfl, List.mem_singleton_self _⟩
  exact ⟨r, hReach, hClears, (reports_kept true 0 .empty r hReach).1 1 11 hClears⟩

/- Two goroutines get the receipt.  One of them clears, the
   miner is reported in transaction 12, and the other one is
   about to clear. -/
def reportSecond : List Action :=
  [.clear 0, .expire [] [(1, 11)], .expire [] [(1, 11)],
    .ask 1 true, .ask 2 true, .clear 1, .expire [1] [], .send 12, .record]

/-
  The confirmation of transaction 11 clears the miner while transaction 12 is recorded with it.
  After that the miner is in two pending transactions.
-/
theorem report_cleared :
    (∃ r, Reach (Stepping (step true)) (fun _ _ => True) (.start 0 .empty) r ∧
      Clears r 1 11 ∧ Reported r.service 1 12) ∧
    ∃ r, Reach (Stepping (step true)) (fun _ _ => True) (.start 0 .empty) r ∧
      ⟨12, [1], none⟩ ∈ r.txs ∧ ⟨13, [1], none⟩ ∈ r.txs := by
  refine ⟨?_, exists_reach (reportFirst ++ reportSecond ++ [.clear 2, .expire [1] [], .send 13])
    (by decide +kernel)⟩
  have hRun :
      ∃ r, Reach (Stepping (step true)) (fun _ _ => True) (.start 0 .empty) r ∧
        r.checks[2]? = some ⟨[], [(1, 11)], false⟩ ∧
        r.service.nodes.get 1 = some ⟨false, true, true, 100, 0, some 12⟩ :=
    exists_reach (reportFirst ++ reportSecond) (by decide +kernel)
  obtain ⟨r, hReach, hCheck, hNode⟩ := hRun
  exact ⟨r, hReach, ⟨2, _, hCheck, rfl, rfl, List.mem_singleton_self _⟩, ⟨_, hNode, rfl⟩⟩

end Inaction

end Sana.Mine
