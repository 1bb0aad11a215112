import Sana.Topology.ClosestPeer
import Sana.Program.Reach

/-
  The requests of the nodes of a network for one chunk.

  A node asks the closest of its connected peers that is not skipped.  The peer that asked the node
  is skipped, but all requests of a node for one chunk share one flight, whose context does not know
  of a peer that asked: it may choose this peer again, and it may choose a peer that is farther from
  the chunk (`requests_cycle`).

  When the table of every node that chooses has a peer, not skipped, that is closer to the chunk
  than the node and all that asked it, the requests go to closer nodes only, and they come to no
  node twice (`requests_progress`).

  Key definitions include:
    * `closestPeer`
    * `Flight`

  Key theorems include:
    * `Progressing.step`
-/

---- Skipped Peers

namespace Sana.Retrieval

open Swarm
open Sana.Topology

/- The peers that are not asked again, and those that are not asked before the next round. -/
structure SkipPeers where
  overdraftAddresses : List RawAddress
  addresses : List RawAddress
  deriving DecidableEq, Repr

namespace SkipPeers

def new : SkipPeers where
  overdraftAddresses := []
  addresses := []

def all (s : SkipPeers) : List RawAddress :=
  s.addresses ++ s.overdraftAddresses

def reset (s : SkipPeers) : SkipPeers :=
  { s with overdraftAddresses := [] }

def add (s : SkipPeers) (address : RawAddress) : SkipPeers :=
  if isIn address s.addresses then s
  else { s with addresses := s.addresses ++ [address] }

def addOverdraft (s : SkipPeers) (address : RawAddress) : SkipPeers :=
  if isIn address s.overdraftAddresses then s
  else { s with overdraftAddresses := s.overdraftAddresses ++ [address] }

end SkipPeers

---- The Closest Peer

/- Look at one peer. -/
def visitPeer (addr : RawAddress) (skipPeers : List RawAddress) (closest peer : RawAddress) :
    Except TopologyErr RawAddress :=
  if isIn peer skipPeers then .ok closest
  else if closest.isZero then .ok peer
  else
    match distanceCmp addr closest peer with
    | .error err => .error (.distance err)
    | .ok dcmp => .ok (if dcmp = -1 then peer else closest)

def closestPeer (self : RawAddress) (connected : Table) (addr : RawAddress)
    (skipPeers : List RawAddress) (allowUpstream : Bool) : Except TopologyErr RawAddress :=
  match connected.slice.eachBinRev (PSlice.always (visitPeer addr skipPeers)) zeroAddress with
  | .error err => .error err
  | .ok closest =>
    if closest.isZero then .error .notFound
    else if allowUpstream then .ok closest
    else
      match distanceCmp addr closest self with
      | .error err => .error (.distance err)
      | .ok dcmp =>
        if dcmp ≠ 1 then .error .notFound
        else .ok closest

variable {self addr closest : RawAddress}
variable {skipPeers peers : List RawAddress}
variable {connected : Table}
variable {allowUpstream : Bool}

/- The peers that are not skipped. -/
def accepts (skipPeers : List RawAddress) (peer : RawAddress) :
    Bool :=
  !isIn peer skipPeers

theorem accepts_iff : accepts skipPeers peer = true ↔ peer ∉ skipPeers := by
  rw [accepts, Bool.not_eq_true', ← Bool.not_eq_true, isIn_iff]

/- From a peer on, the scan is the search for the nearest. -/
theorem foldlM_visitPeer {start : RawAddress} (hSome : start ≠ []) :
    peers.foldlM (visitPeer addr skipPeers) start =
      (nearest (accepts skipPeers) addr start peers).mapError .distance := by
  induction peers generalizing start with
  | nil => rfl
  | cons peer peers ih =>
    have hZero : ¬start.isZero = true := fun hZero => hSome (isZero_iff.mp hZero)
    rw [List.foldlM_cons, nearest, visitPeer]
    by_cases hSkip : isIn peer skipPeers = true
    · have hAccept : ¬accepts skipPeers peer = true := by
        rw [accepts, hSkip]
        exact Bool.false_ne_true
      rw [if_pos hSkip, if_neg hAccept]
      exact ih hSome
    · have hAccept : accepts skipPeers peer = true := by
        rw [accepts, Bool.not_eq_true']
        exact Bool.eq_false_iff.mpr hSkip
      rw [if_neg hSkip, if_neg hZero, if_pos hAccept]
      cases hCmp : distanceCmp addr start peer with
      | error err => rfl
      | ok dcmp =>
        apply ih
        obtain ⟨hLength, hPeer⟩ := length_eq_of_distanceCmp hCmp
        have hPos := List.length_pos_iff.mpr hSome
        rw [← List.length_pos_iff]
        split_ifs <;> omega

/- The scan begins with the first peer that is not skipped. An empty address counts as none. -/
theorem exists_first_of_foldlM (hFold : peers.foldlM (visitPeer addr skipPeers) [] = .ok closest)
    (hSome : closest ≠ []) :
    ∃ before first after,
      peers = before ++ first :: after ∧ (∀ peer ∈ before, peer ∈ skipPeers ∨ peer = []) ∧
        first ∉ skipPeers ∧ nearest (accepts skipPeers) addr first after = .ok closest := by
  induction peers with
  | nil =>
    cases hFold
    exact absurd rfl hSome
  | cons peer peers ih =>
    rw [List.foldlM_cons, visitPeer] at hFold
    by_cases hSkip : isIn peer skipPeers = true
    · rw [if_pos hSkip] at hFold
      obtain ⟨before, first, after, rfl, hBefore, hRest⟩ := ih hFold
      refine ⟨peer :: before, first, after, rfl, ?_, hRest⟩
      intro other hMem
      rcases List.mem_cons.mp hMem with rfl | hMem
      · exact .inl (isIn_iff.mp hSkip)
      · exact hBefore other hMem
    · rw [if_neg hSkip] at hFold
      by_cases hEmpty : peer = []
      · rw [hEmpty] at hFold
        obtain ⟨before, first, after, rfl, hBefore, hRest⟩ := ih hFold
        refine ⟨peer :: before, first, after, rfl, ?_, hRest⟩
        intro other hMem
        rcases List.mem_cons.mp hMem with rfl | hMem
        · exact .inr hEmpty
        · exact hBefore other hMem
      · change peers.foldlM (visitPeer addr skipPeers) peer =
          _ at hFold
        rw [foldlM_visitPeer hEmpty] at hFold
        refine ⟨[], peer, peers, rfl, fun _ hMem => (nomatch hMem), ?_, ?_⟩
        · exact fun hMem => hSkip (isIn_iff.mpr hMem)
        · cases hNearest : nearest (accepts skipPeers) addr peer peers with
          | error err =>
            rw [hNearest] at hFold
            cases hFold
          | ok found =>
            rw [hNearest] at hFold
            cases hFold
            rfl

section

variable (hClosest : closestPeer self connected addr skipPeers allowUpstream = .ok closest)
include hClosest

/- A peer that is returned is what the scan kept. -/
theorem foldlM_of_closestPeer :
    connected.peers.foldlM (visitPeer addr skipPeers) [] = .ok closest ∧ closest ≠ [] := by
  rw [closestPeer, connected.valid.eachBinRev_eq] at hClosest
  cases hFold : connected.slice.peers.foldlM (visitPeer addr skipPeers) zeroAddress with
  | error err =>
    rw [hFold] at hClosest
    cases hClosest
  | ok found =>
    rw [hFold] at hClosest
    simp only at hClosest
    by_cases hZero : found.isZero = true
    · rw [if_pos hZero] at hClosest
      cases hClosest
    rw [if_neg hZero] at hClosest
    have hSome : found ≠ [] := fun hEmpty => hZero (isZero_iff.mpr hEmpty)
    cases allowUpstream with
    | true =>
      cases hClosest
      exact ⟨hFold, hSome⟩
    | false =>
      rw [if_neg Bool.false_ne_true] at hClosest
      cases hCmp : distanceCmp addr found self with
      | error err =>
        rw [hCmp] at hClosest
        cases hClosest
      | ok dcmp =>
        rw [hCmp] at hClosest
        simp only at hClosest
        split_ifs at hClosest
        cases hClosest
        exact ⟨hFold, hSome⟩

/-
  A peer that is returned is connected and not skipped, and no other peer that is not skipped is
  closer.
-/
theorem closestPeer_of_ok :
    closest ∈ connected.peers ∧ closest ∉ skipPeers ∧
      ∀ peer ∈ connected.peers, peer ∉ skipPeers →
        peer ≠ [] →
          xorDistance closest addr ≤ xorDistance peer addr ∧
            (closest = peer ∨ closest.length = addr.length) := by
  obtain ⟨hFold, hSome⟩ := foldlM_of_closestPeer hClosest
  obtain ⟨before, first, after, hPeers, hBefore, hFirst,
    hNearest⟩ := exists_first_of_foldlM hFold hSome
  have hFound := nearest_eq_or_closer hNearest
  rw [hPeers]
  refine ⟨?_, ?_, ?_⟩
  · rcases hFound with rfl | ⟨hMem, -, -⟩
    · exact List.mem_append_right _ (List.mem_cons_self ..)
    · exact List.mem_append_right _ (List.mem_cons_of_mem _ hMem)
  · rcases hFound with rfl | ⟨-, hAccept, -⟩
    · exact hFirst
    · exact accepts_iff.mp hAccept
  · intro peer hMem hPeer hNonempty
    rcases List.mem_append.mp hMem with hMem | hMem
    · rcases hBefore peer hMem with hSkip | hEmpty
      · exact absurd hSkip hPeer
      · exact absurd hEmpty hNonempty
    rcases List.mem_cons.mp hMem with rfl | hMem
    · refine ⟨nearest_le_start hNearest, ?_⟩
      rcases hFound with hSame | ⟨_, _, hCloser⟩
      · exact .inl hSame
      · exact .inr hCloser.1
    · have hAccept := accepts_iff.mpr hPeer
      exact ⟨nearest_le hNearest hMem hAccept, .inr (length_of_nearest hNearest hMem hAccept)⟩

/-
  If a peer that is not skipped is closer to the chunk than some address, so is the peer that is
  returned.
-/
theorem closer_of_closestPeer
    (hMem : peer ∈ connected.peers) (hSkip : peer ∉ skipPeers) (hCloser : Closer addr peer other) :
    Closer addr closest other := by
  have hSome : peer ≠ [] := by
    rintro rfl
    have hZero : xorDistance [] addr = 0 := by rfl
    have hOther : other = [] := by
      rw [← List.length_eq_zero_iff, hCloser.2.1, ← hCloser.1]
      rfl
    have hLt := hCloser.2.2
    rw [hOther] at hLt
    exact lt_irrefl _ hLt
  obtain ⟨-, -, hAll⟩ := closestPeer_of_ok hClosest
  obtain ⟨hLe, hLength⟩ := hAll peer hMem hSkip hSome
  refine ⟨?_, hCloser.2.1, hLe.trans_lt hCloser.2.2⟩
  rcases hLength with rfl | hLength
  · exact hCloser.1
  · exact hLength

end

end Sana.Retrieval

---- A Flight

namespace Sana.Retrieval

variable {self addr : RawAddress} {flight after : Flight}

section

open Swarm
open Sana.Topology

def maxRequestRounds : Nat :=
  5

def maxSelects : Nat :=
  8

/-
  The values a context carries: the hexadecimal address of the peer that made the request, and the
  tracing span.
-/
structure Context where
  source : Option (List Char)
  span : Option Nat
  deriving DecidableEq, Repr

def Context.background : Context where
  source := none
  span := none

/- The context the handler works with. -/
def Context.ofRequest (ctx : Context) (peer : RawAddress) : Context :=
  { ctx with source := some (KeyValue.encodeToString peer) }

/- The context of an attempt, from that of the first caller. -/
def Context.ofAttempt (topCtx : Context) : Context :=
  { Context.background with span := topCtx.span }

/- `retrievalResult`: `retrieved` says the peer was asked. -/
structure RetrievalResult where
  retrieved : Bool
  failed : Bool
  deriving DecidableEq, Repr

/- How far the goroutine of an attempt is. -/
inductive Phase where
  | started
  | marked
  | listed (skipPeers : List RawAddress)
  | chosen (peer : RawAddress)
  | reserved (peer : RawAddress)
  | requested (peer : RawAddress)
  | reporting (result : RetrievalResult)
  | finished
  deriving DecidableEq, Repr

structure Worker where
  ctx : Context
  phase : Phase
  deriving DecidableEq, Repr

inductive Outcome where
  | chunk
  | notFound
  | context
  deriving DecidableEq, Repr

/- Where the loop is: at its head, in the `select`, or in the
   wait before the next round. -/
inductive Main where
  | top
  | selecting
  | waiting
  | returned (outcome : Outcome)
  deriving DecidableEq, Repr

/-
  One call of the flight group for a chunk.  `requesters` are the peers whose requests it serves,
  and `sent` the peers a stream was opened to for a request.
-/
structure Flight where
  origin : Bool
  topCtx : Context
  requesters : List RawAddress
  sp : SkipPeers
  peerAttempt : Nat
  peersResults : Nat
  requestAttempt : Nat
  main : Main
  workers : List Worker
  results : List RetrievalResult
  sent : List RawAddress
  deriving DecidableEq, Repr

namespace Flight

def begin (origin : Bool) (topCtx : Context) (requesters : List RawAddress) : Flight where
  origin := origin
  topCtx := topCtx
  requesters := requesters
  sp := .new
  peerAttempt := 0
  peersResults := 0
  requestAttempt := 0
  main := .top
  workers := []
  results := []
  sent := []

/- `RetrieveChunk` for a chunk the node itself looks for. -/
def ofOrigin (ctx : Context) : Flight :=
  begin true ctx []

/- `RetrieveChunk` as the handler calls it for a peer. -/
def ofRequest (ctx : Context) (peer : RawAddress) : Flight :=
  begin false (ctx.ofRequest peer) [peer]

def maxPeers (flight : Flight) : Nat :=
  if flight.origin then maxSelects else 1

def setPhase (flight : Flight) (i : Nat) (worker : Worker) (phase : Phase) : Flight :=
  { flight with
    workers := flight.workers.set i { worker with phase := phase } }

/- What is done when the `select` is left with no result for
   the caller. -/
def afterSelect (flight : Flight) (later : Bool) : Flight :=
  if flight.maxPeers ≤ flight.peersResults then { flight with main := .returned .notFound }
  else if maxSelects ≤ flight.peerAttempt then
    if !flight.origin then { flight with main := .returned .notFound }
    else if later then
      { flight with
        requestAttempt := flight.requestAttempt + 1
        peerAttempt := 0
        sp := flight.sp.reset
        main := .top }
    else
      { flight with
        requestAttempt := flight.requestAttempt + 1
        main := .waiting }
  else { flight with main := .top }

end Flight

---- Steps

/- How the exchange with a peer ends. -/
inductive Exchange where
  | writeFailed
  | readFailed
  | invalid
  | creditFailed
  | delivered
  deriving DecidableEq, Repr

def Exchange.result : Exchange → RetrievalResult
| .writeFailed => ⟨false, true⟩
| .readFailed => ⟨true, true⟩
| .invalid => ⟨true, true⟩
| .creditFailed => ⟨true, true⟩
| .delivered => ⟨true, false⟩

/- The steps of the goroutine of an attempt. -/
inductive Action where
  | mark
  | list
  | choose (connected : Table)
  | reserve (ok : Bool)
  | newStream (ok : Bool)
  | exchange (exchange : Exchange)
  | report

/-
  The steps of a flight.  `join` is a request of one more peer; `loop`, `tick`, `take`, `done` and
  `wait` are steps of the loop, where `later` says that a second has passed; the others are steps of
  the goroutine with a number.
-/
inductive Label where
  | join (peer : RawAddress)
  | loop
  | tick (later : Bool)
  | take (later : Bool)
  | done
  | wait
  | worker (i : Nat) (action : Action)

/- The source is skipped, if the context has one. -/
def markSource (ctx : Context) (sp : SkipPeers) : SkipPeers :=
  match ctx.source with
  | none => sp
  | some text =>
    match KeyValue.decodeString text with
    | none => sp
    | some source => sp.add source

/- Upstream peers are allowed if there is no source. -/
def allowUpstream (ctx : Context) : Bool :=
  ctx.source.isNone

/- The head of the loop. -/
def stepLoop (flight : Flight) : Option Flight :=
  if flight.main ≠ .top then none
  else if maxRequestRounds ≤ flight.requestAttempt then
    some { flight with main := .returned .notFound }
  else if flight.peerAttempt < maxSelects then
    some
      { flight with
        peerAttempt := flight.peerAttempt + 1
        workers := flight.workers ++ [⟨flight.topCtx.ofAttempt, .started⟩]
        main := .selecting }
  else if flight.results.length < maxSelects then
    some
      { flight with
        results := flight.results ++ [⟨false, false⟩]
        main := .selecting }
  else none

/- A result is taken from the channel. -/
def stepTake (flight : Flight) (later : Bool) : Option Flight :=
  if flight.main ≠ .selecting then none
  else
    match flight.results with
    | [] => none
    | result :: results =>
      let flight := { flight with results := results }
      if !result.retrieved then some (flight.afterSelect later)
      else if result.failed then
        some
          (({ flight with
              peersResults := flight.peersResults + 1 } :
            Flight).afterSelect later)
      else some { flight with main := .returned .chunk }

def stepDone (flight : Flight) : Option Flight :=
  if flight.main = .selecting ∨ flight.main = .waiting then
    some { flight with main := .returned .context }
  else none

/- A step of the goroutine of an attempt. -/
def stepWorker (self addr : RawAddress) (i : Nat) (worker : Worker) (action : Action)
    (flight : Flight) : Option Flight :=
  match action, worker.phase with
  | .mark, .started =>
    some { flight.setPhase i worker .marked with sp := markSource worker.ctx flight.sp }
  | .list, .marked => some (flight.setPhase i worker (.listed flight.sp.all))
  | .choose connected, .listed skipPeers =>
    match closestPeer self connected addr skipPeers (allowUpstream worker.ctx) with
    | .error _ => some (flight.setPhase i worker (.reporting ⟨false, true⟩))
    | .ok peer => some (flight.setPhase i worker (.chosen peer))
  | .reserve true, .chosen peer =>
    some { flight.setPhase i worker (.reserved peer) with sp := flight.sp.add peer }
  | .reserve false, .chosen peer =>
    some
      { flight.setPhase i worker (.reporting ⟨false, true⟩) with sp := flight.sp.addOverdraft peer }
  | .newStream true, .reserved peer =>
    some { flight.setPhase i worker (.requested peer) with sent := flight.sent ++ [peer] }
  | .newStream false, .reserved _ => some (flight.setPhase i worker (.reporting ⟨false, true⟩))
  | .exchange exchange, .requested _ => some (flight.setPhase i worker (.reporting exchange.result))
  | .report, .reporting result =>
    if flight.results.length < maxSelects then
      some { flight.setPhase i worker .finished with results := flight.results ++ [result] }
    else none
  | _, _ => none

def step (self addr : RawAddress) (label : Label) (flight : Flight) : Option Flight :=
  match label with
  | .join peer =>
    match flight.main with
    | .returned _ => none
    | _ => some { flight with requesters := flight.requesters ++ [peer] }
  | .loop => stepLoop flight
  | .tick later =>
    if flight.main = .selecting then some (flight.afterSelect later)
    else none
  | .take later => stepTake flight later
  | .done => stepDone flight
  | .wait =>
    if flight.main = .waiting then some { flight with main := .top }
    else none
  | .worker i action =>
    match flight.workers[i]? with
    | none => none
    | some worker => stepWorker self addr i worker action flight

end

---- What a Step Selects

section

open Swarm
open Sana.Topology

/- The peer an attempt is at. -/
def Phase.peer? : Phase → Option RawAddress
| .chosen peer => some peer
| .reserved peer => some peer
| .requested peer => some peer
| _ => none

/- The peers that are chosen in a flight. -/
def Flight.selected (flight : Flight) : List RawAddress :=
  flight.workers.filterMap (fun worker =>
  worker.phase.peer?) ++ flight.sent

variable {peer : RawAddress}

theorem mem_selected_iff :
    peer ∈ flight.selected ↔ (∃ worker ∈ flight.workers, worker.phase.peer? = some peer) ∨
      peer ∈ flight.sent := by
  rw [Flight.selected, List.mem_append, List.mem_filterMap]

/- What one step can do to the peers of a flight. -/
inductive Effect (self addr : RawAddress) (label : Label) (flight after : Flight) : Prop where
  | quiet (hRequesters : after.requesters = flight.requesters)
      (hSelected : ∀ peer ∈ after.selected, peer ∈ flight.selected)
  | chosen (i : Nat) (connected : Table) (skipPeers : List RawAddress) (ctx : Context)
      (peer : RawAddress) (hLabel : label = .worker i (.choose connected))
      (hWorker : flight.workers[i]? = some ⟨ctx, .listed skipPeers⟩)
      (hClosest : closestPeer self connected addr skipPeers (allowUpstream ctx) = .ok peer)
      (hRequesters : after.requesters = flight.requesters)
      (hSelected : ∀ other ∈ after.selected, other = peer ∨ other ∈ flight.selected)
  | joined (peer : RawAddress) (hLabel : label = .join peer)
      (hRequesters : after.requesters = flight.requesters ++ [peer])
      (hSelected : ∀ peer ∈ after.selected, peer ∈ flight.selected)

/- The peers after a goroutine has changed its phase. -/
theorem mem_selected_setPhase (hMem : peer ∈ (flight.setPhase i worker phase).selected) :
    phase.peer? = some peer ∨ peer ∈ flight.selected := by
  rw [mem_selected_iff] at hMem ⊢
  rcases hMem with ⟨other, hOther, hPeer⟩ | hSent
  · rcases List.mem_or_eq_of_mem_set hOther with hOld | rfl
    · exact .inr (.inl ⟨other, hOld, hPeer⟩)
    · exact .inl hPeer
  · exact .inr (.inr hSent)

/- The peer of a goroutine is selected. -/
theorem mem_selected_of_worker {i : Nat} (hWorker : flight.workers[i]? = some worker)
    (hPeer : worker.phase.peer? = some peer) :
    peer ∈ flight.selected :=
  mem_selected_iff.mpr (.inl ⟨worker, List.mem_of_getElem? hWorker, hPeer⟩)

theorem afterSelect_requesters : (flight.afterSelect later).requesters = flight.requesters := by
  unfold Flight.afterSelect
  split_ifs <;> rfl

theorem afterSelect_selected : (flight.afterSelect later).selected = flight.selected := by
  unfold Flight.afterSelect
  split_ifs <;> rfl

theorem stepLoop_effect (hStep : stepLoop flight = some after) :
    Effect self addr label flight after := by
  unfold stepLoop at hStep
  split_ifs at hStep
  · cases hStep
    exact .quiet rfl fun _ hMem => hMem
  · cases hStep
    refine .quiet rfl fun peer hMem => ?_
    rw [mem_selected_iff] at hMem ⊢
    rcases hMem with ⟨worker, hWorker, hPeer⟩ | hSent
    · rcases List.mem_append.mp hWorker with hOld | hNew
      · exact .inl ⟨worker, hOld, hPeer⟩
      · obtain rfl := List.mem_singleton.mp hNew
        cases hPeer
    · exact .inr hSent
  · cases hStep
    exact .quiet rfl fun _ hMem => hMem

theorem stepTake_effect
    (hStep : stepTake flight later = some after) : Effect self addr label flight after := by
  unfold stepTake at hStep
  split_ifs at hStep
  cases hResults : flight.results with
  | nil =>
    rw [hResults] at hStep
    cases hStep
  | cons result results =>
    rw [hResults] at hStep
    simp only at hStep
    split_ifs at hStep
    · cases hStep
      refine .quiet ?_ fun peer hMem => ?_
      · rw [afterSelect_requesters]
      · rw [afterSelect_selected] at hMem
        exact hMem
    · cases hStep
      refine .quiet ?_ fun peer hMem => ?_
      · rw [afterSelect_requesters]
      · rw [afterSelect_selected] at hMem
        exact hMem
    · cases hStep
      exact .quiet rfl fun _ hMem => hMem

/- A goroutine selects a peer only when it chooses one; later it goes on with the same peer. -/
theorem stepWorker_effect (hWorker : flight.workers[i]? = some worker)
    (hStep : stepWorker self addr i worker action flight = some after) :
    Effect self addr (.worker i action) flight after := by
  obtain ⟨ctx, phase⟩ := worker
  have hQuiet :
      ∀ next : Phase, (∀ peer, next.peer? = some peer → phase.peer? = some peer) →
        ∀ peer ∈ (flight.setPhase i ⟨ctx, phase⟩ next).selected, peer ∈ flight.selected := by
    intro next hNext peer hMem
    rcases mem_selected_setPhase hMem with hPeer | hOld
    · exact mem_selected_of_worker hWorker (hNext peer hPeer)
    · exact hOld
  unfold stepWorker at hStep
  split at hStep
  · cases hStep
    exact .quiet rfl (hQuiet .marked fun _ h => nomatch h)
  · cases hStep
    exact .quiet rfl (hQuiet _ fun _ h => nomatch h)
  · rename_i connected skipPeers hPhase
    subst hPhase
    cases hClosest : closestPeer self connected addr skipPeers (allowUpstream ctx) with
    | error err =>
      simp only [hClosest] at hStep
      cases hStep
      exact .quiet rfl (hQuiet _ fun _ h => nomatch h)
    | ok peer =>
      simp only [hClosest] at hStep
      cases hStep
      refine .chosen i connected skipPeers ctx peer rfl hWorker hClosest rfl fun other hMem => ?_
      rcases mem_selected_setPhase hMem with hPeer | hOld
      · exact .inl (Option.some.inj hPeer).symm
      · exact .inr hOld
  · rename_i peer hPhase
    subst hPhase
    cases hStep
    exact .quiet rfl (hQuiet (.reserved peer) fun _ h => h)
  · cases hStep
    exact .quiet rfl (hQuiet (.reporting ⟨false, true⟩) fun _ h => nomatch h)
  · rename_i peer hPhase
    subst hPhase
    cases hStep
    refine .quiet rfl fun other hMem => ?_
    rw [mem_selected_iff] at hMem
    rcases hMem with hChosen | hSent
    · apply hQuiet (.requested peer) fun _ h => h
      exact mem_selected_iff.mpr (.inl hChosen)
    · rcases List.mem_append.mp hSent with hOld | hNew
      · exact mem_selected_iff.mpr (.inr hOld)
      · obtain rfl := List.mem_singleton.mp hNew
        exact mem_selected_of_worker hWorker rfl
  · cases hStep
    exact .quiet rfl (hQuiet _ fun _ h => nomatch h)
  · cases hStep
    exact .quiet rfl (hQuiet _ fun _ h => nomatch h)
  · split_ifs at hStep
    cases hStep
    exact .quiet rfl (hQuiet .finished fun _ h => nomatch h)
  · cases hStep

theorem step_effect (hStep : step self addr label flight = some after) :
    Effect self addr label flight after := by
  cases label with
  | join peer =>
    simp only [step] at hStep
    split at hStep
    · cases hStep
    · cases hStep
      exact .joined peer rfl rfl fun _ hMem => hMem
  | loop => exact stepLoop_effect hStep
  | tick later =>
    simp only [step] at hStep
    split_ifs at hStep
    cases hStep
    refine .quiet afterSelect_requesters ?_
    rw [afterSelect_selected]
    exact fun _ hMem => hMem
  | take later => exact stepTake_effect hStep
  | done =>
    simp only [step, stepDone] at hStep
    split_ifs at hStep
    cases hStep
    exact .quiet rfl fun _ hMem => hMem
  | wait =>
    simp only [step] at hStep
    split_ifs at hStep
    cases hStep
    exact .quiet rfl fun _ hMem => hMem
  | worker i action =>
    simp only [step] at hStep
    cases hWorker : flight.workers[i]? with
    | none =>
      simp only [hWorker] at hStep
      cases hStep
    | some worker =>
      simp only [hWorker] at hStep
      exact stepWorker_effect hWorker hStep

end

---- Requests to Closer Peers

section

open Swarm
open Sana.Topology
open Program (Reach Stepping)

/-
  When a peer is chosen, some peer that is not skipped is closer to the chunk than the node and than
  all that asked it; and no peer asks that was chosen before.
-/
def Selectable (addr self : RawAddress) : Label → Flight → Prop
| .worker i (.choose connected), flight =>
  ∀ ctx skipPeers,
    flight.workers[i]? = some ⟨ctx, .listed skipPeers⟩ →
      ∃ peer ∈ connected.peers, peer ∉ skipPeers ∧ Closer addr peer self ∧
        ∀ requester ∈ flight.requesters, Closer addr peer requester
| .join peer, flight => peer ∉ flight.selected
| _, _ => True

/- The peers chosen are closer, and none of them asked. -/
def Progressing (addr self : RawAddress) (flight : Flight) : Prop :=
  ∀ peer ∈ flight.selected, Closer addr peer self ∧ peer ∉ flight.requesters

theorem Progressing.step (hProgressing : Progressing addr self flight)
    (hAllowed : Selectable addr self label flight)
    (hStep : step self addr label flight = some after) : Progressing addr self after := by
  cases step_effect hStep with
  | quiet hRequesters hSelected =>
    intro peer hMem
    rw [hRequesters]
    exact hProgressing peer (hSelected peer hMem)
  | chosen i connected skipPeers ctx chosen hLabel hWorker hClosest hRequesters hSelected =>
    subst hLabel
    obtain ⟨closer, hMem, hSkip, hSelf, hAsked⟩ := hAllowed ctx skipPeers hWorker
    intro peer hPeer
    rw [hRequesters]
    rcases hSelected peer hPeer with rfl | hOld
    · refine ⟨closer_of_closestPeer hClosest hMem hSkip hSelf, fun hRequester => ?_⟩
      have hSame := closer_of_closestPeer hClosest hMem hSkip (hAsked peer hRequester)
      exact hSame.ne rfl
    · exact hProgressing peer hOld
  | joined requester hLabel hRequesters hSelected =>
    subst hLabel
    intro peer hMem
    have hOld := hSelected peer hMem
    obtain ⟨hCloser, hAsked⟩ := hProgressing peer hOld
    refine ⟨hCloser, ?_⟩
    rw [hRequesters, List.mem_append, List.mem_singleton]
    rintro (hRequester | rfl)
    · exact hAsked hRequester
    · exact hAllowed hOld

theorem Progressing.begin (origin : Bool) (ctx : Context) (requesters : List RawAddress) :
    Progressing addr self (Flight.begin origin ctx requesters) := by
  intro peer hMem
  cases hMem

end

---- The Network

section

open Swarm
open Sana.Topology
open Program (Reach Stepping)

/-
  A node that looks for a chunk, for itself or for peers, after some steps that meet a condition.
-/
structure Visit (addr : RawAddress) (allowed : RawAddress → Label → Flight → Prop) where
  address : RawAddress
  origin : Bool
  ctx : Context
  requester : RawAddress
  flight : Flight
  reached : Reach (Stepping (step address addr)) (allowed address) (if origin then .ofOrigin ctx
        else .ofRequest ctx requester)
      flight

/- The second node was asked by the first. -/
def Follows {addr : RawAddress} {allowed : RawAddress → Label → Flight → Prop}
    (v w : Visit addr allowed) : Prop :=
  w.address ∈ v.flight.sent ∧ v.address ∈ w.flight.requesters

theorem Visit.progressing (visit : Visit addr (Selectable addr)) :
    Progressing addr visit.address visit.flight := by
  apply visit.reached.invariant (Progressing addr visit.address)
  · split_ifs
    · exact Progressing.begin _ _ _
    · exact Progressing.begin _ _ _
  · intro label before after hBefore hAllowed hStep
    exact hBefore.step hAllowed hStep

/- The peers that are asked. -/
theorem Visit.sent_closer (visit : Visit addr (Selectable addr)) (hMem : peer ∈ visit.flight.sent) :
    Closer addr peer visit.address ∧ peer ∉ visit.flight.requesters :=
  visit.progressing peer (mem_selected_iff.mpr (.inr hMem))

theorem Follows.lower (v w : Visit addr (Selectable addr)) (hFollows : Follows v w) :
    xorDistance w.address addr < xorDistance v.address addr :=
  (v.sent_closer hFollows.1).1.2.2

/-
  No node asks a peer that asked it, every peer that is asked is closer, and no chain of requests
  comes to a node twice or goes on for ever.
-/
theorem requests_progress (addr : RawAddress) :
    (∀ visit : Visit addr (Selectable addr),
      ∀ peer ∈ visit.flight.sent, Closer addr peer visit.address ∧ peer ∉ visit.flight.requesters) ∧
    (∀ chain : List (Visit addr (Selectable addr)),
      chain.IsChain Follows → (chain.map Visit.address).Nodup) ∧
    ∀ chain : Nat → Visit addr (Selectable addr), ∃ i, ¬Follows (chain i) (chain (i + 1)) := by
  refine ⟨?_, ?_, ?_⟩
  · intro visit peer hMem
    exact visit.sent_closer hMem
  · intro chain hChain
    exact Program.nodup_of_isChain Visit.address (fun place => xorDistance place addr)
      Follows.lower hChain
  · intro chain
    exact Program.no_infinite_chain Visit.address (fun place => xorDistance place addr)
      Follows.lower chain

end

---- Examples

open Swarm
open Sana.Topology
open Program (Reach Stepping follow)

def exampleChunk : RawAddress :=
  List.replicate hashSize 3

/- A node with one peer. -/
def exampleTable (base peer : UInt8) : Table :=
  (Table.new (List.replicate hashSize base)).add [List.replicate hashSize peer]

/- The first attempt of a flight, up to the request. -/
def beforeChoice : List Label :=
  [.loop, .worker 0 .mark, .worker 0 .list]

def afterChoice : List Label :=
  [.worker 0 (.reserve true), .worker 0 (.newStream true)]

def attempt (connected : Table) : List Label :=
  beforeChoice ++ .worker 0 (.choose connected) :: afterChoice

/- The flight of a node for a peer, after some steps. -/
def exampleFlight (self requester : UInt8) (labels : List Label) : Option Flight :=
  follow (step (List.replicate hashSize self) exampleChunk) labels
    (.ofRequest .background (List.replicate hashSize requester))

/- Node `0` is asked by node `4` and lists the skipped peers. -/
def listedFlight : Flight :=
  { Flight.ofRequest .background (List.replicate hashSize 4) with
    peerAttempt := 1
    main := .selecting
    workers := [⟨.background, .listed []⟩] }

def chosenFlight : Flight :=
  { listedFlight with workers := [⟨.background, .chosen (List.replicate hashSize 1)⟩] }

/- It asks node `1`, which is closer to the chunk than both. -/
def askedFlight : Flight :=
  { listedFlight with
    sp := ⟨[], [List.replicate hashSize 1]⟩
    workers := [⟨.background, .requested (List.replicate hashSize 1)⟩]
    sent := [List.replicate hashSize 1] }

theorem listedFlight_reached : exampleFlight 0 4 beforeChoice = some listedFlight := by
  decide +kernel

theorem chosenFlight_step :
    step (List.replicate hashSize 0) exampleChunk (.worker 0 (.choose (exampleTable 0 1)))
        listedFlight = some chosenFlight := by
  decide +kernel

theorem askedFlight_reached :
    follow (step (List.replicate hashSize 0) exampleChunk) afterChoice chosenFlight =
      some askedFlight := by
  decide +kernel

theorem listedFlight_selectable :
    Selectable exampleChunk (List.replicate hashSize 0) (.worker 0 (.choose (exampleTable 0 1)))
      listedFlight := by
  intro ctx skipPeers hWorker
  cases hWorker
  refine ⟨List.replicate hashSize 1, by decide +kernel, List.not_mem_nil, by decide, ?_⟩
  intro requester hMem
  obtain rfl := List.mem_singleton.mp hMem
  decide

/- Steps that choose no peer meet the condition. -/
theorem selectable_of_mem (hMem : label ∈ beforeChoice ++ afterChoice)
    (flight : Flight) : Selectable exampleChunk (List.replicate hashSize 0) label
      flight := by
  simp only [beforeChoice, afterChoice, List.cons_append,
    List.nil_append, List.mem_cons, List.not_mem_nil, or_false] at hMem
  rcases hMem with rfl | rfl | rfl | rfl | rfl <;> trivial

def progressVisit : Visit exampleChunk (Selectable exampleChunk) where
  address := List.replicate hashSize 0
  origin := false
  ctx := .background
  requester := List.replicate hashSize 4
  flight := askedFlight
  reached := by
    have hListed :=
      Reach.start.follow (fun label hMem => selectable_of_mem (List.mem_append_left _ hMem))
        listedFlight_reached
    have hChosen := hListed.step _ listedFlight_selectable chosenFlight_step
    exact hChosen.follow (fun label hMem => selectable_of_mem (List.mem_append_right _ hMem))
      askedFlight_reached

theorem requests_progress_example :
    Closer exampleChunk (List.replicate hashSize 1) (List.replicate hashSize 0) ∧
      List.replicate hashSize 1 ∉ askedFlight.requesters :=
  (requests_progress exampleChunk).1 progressVisit _ (List.mem_singleton_self _)

/- A visit after steps without any condition. -/
def exampleVisit (self requester : UInt8) (labels : List Label)
    (hSome : (exampleFlight self requester labels).isSome) :
    Visit exampleChunk (fun _ _ _ => True) where
  address := List.replicate hashSize self
  origin := false
  ctx := .background
  requester := List.replicate hashSize requester
  flight := (exampleFlight self requester labels).get hSome
  reached := Reach.start.follow (fun _ _ _ => trivial) (Option.some_get hSome).symm

/- Node `0`, asked by node `4`, asks node `1` and is then asked by node `1`. -/
def firstVisit : Visit exampleChunk fun _ _ _ => True :=
  exampleVisit 0 4 (attempt (exampleTable 0 1) ++ [.join (List.replicate hashSize 1)])
    (by decide +kernel)

/- Node `1`, asked by node `0`, asks node `0`. -/
def secondVisit : Visit exampleChunk fun _ _ _ => True :=
  exampleVisit 1 0 (attempt (exampleTable 1 0)) (by decide +kernel)

theorem secondVisit_follows : Follows firstVisit secondVisit := by
  constructor
  · decide +kernel
  · decide +kernel

theorem firstVisit_follows : Follows secondVisit firstVisit := by
  constructor
  · decide +kernel
  · decide +kernel

/-
  A node asks the peer that asked it, which is farther from the chunk, and is asked again for what
  it asked for.
-/
theorem requests_cycle :
    ∃ (addr : RawAddress) (chain : List (Visit addr fun _ _ _ => True)),
      (∀ v ∈ chain, v.origin = false) ∧ chain.IsChain Follows ∧ ¬(chain.map Visit.address).Nodup ∧
        ∃ v ∈ chain, ∃ peer ∈ v.flight.sent,
          peer ∈ v.flight.requesters ∧ ¬Closer addr peer v.address := by
  refine ⟨exampleChunk, [firstVisit, secondVisit, firstVisit], ?_, ?_, ?_,
    secondVisit, ?_, List.replicate hashSize 0, firstVisit_follows.1, secondVisit_follows.2, ?_⟩
  · intro v hMem
    simp only [List.mem_cons, List.not_mem_nil, or_false] at hMem
    rcases hMem with rfl | rfl | rfl <;> rfl
  · exact .cons_cons secondVisit_follows (.cons_cons firstVisit_follows (.singleton _))
  · intro hNodup
    rw [List.map_cons, List.nodup_cons] at hNodup
    apply hNodup.1
    simp
  · simp
  · decide

end Sana.Retrieval
