import Sana.Mine.Collect

/-
  The authors of collected signatures.

  A result is matched with a call by its identifier only. One trust node can send two results, and a
  node that was never asked can send one, and they all count (`signatures_repeated`).  If every
  result that is handled for a call is from a trust node the request was sent to, and is the first
  one from it, then a call that succeeds has as many results as it needs, and they are from
  different trust nodes (`signatures_distinct`).

  Key definitions include:
    * `Honest`
    * `CallSound`

  Key theorems include:
    * `Collected.step`
-/

---- Honest Results

namespace Sana.Mine

namespace Collect

open KeyValue Program

variable {handlers : List SignHandler} {call next : SignCall}

/- The two results carry one identifier and have one author. -/
def Repeats (req other : SignResult) : Prop :=
  other.id = req.id ∧ other.author = req.author

instance (req other : SignResult) : Decidable (Repeats req other) :=
  inferInstanceAs (Decidable (_ ∧ _))

/-
  A result that is looked up for a call was sent by a node the request was sent to, and no other
  result of this node with the same identifier was looked up before.
-/
def Honest (label : Label) (node : Signing) : Prop :=
  match label with
  | .look i =>
    ∀ handler ∈ node.handlers[i]?,
      ∀ c ∈ node.waits.get handler.req.id,
        ∀ call ∈ node.calls[c]?,
          handler.req.author ∈ call.asked ∧
            ∀ other ∈ node.handlers, other.phase ≠ .waiting → ¬ Repeats handler.req other.req
  | _ => True

instance (label : Label) (node : Signing) : Decidable (Honest label node) :=
  match label with
  | .look i =>
    inferInstanceAs
      (Decidable
        (∀ handler ∈ node.handlers[i]?,
          ∀ c ∈ node.waits.get handler.req.id,
            ∀ call ∈ node.calls[c]?,
              handler.req.author ∈ call.asked ∧
                ∀ other ∈ node.handlers, other.phase ≠ .waiting → ¬ Repeats handler.req other.req))
  | .call _ => isTrue trivial
  | .arrive _ _ => isTrue trivial
  | .act _ _ => isTrue trivial
  | .obtain _ _ => isTrue trivial
  | .release _ => isTrue trivial
  | .hand _ => isTrue trivial
  | .unlock _ => isTrue trivial

---- What a Call Has Collected

section

/- A handler has looked up the channel for the result. -/
def Handled (handlers : List SignHandler) (req : SignResult) : Prop :=
  ∃ handler ∈ handlers, handler.req = req ∧ handler.phase ≠ .waiting

/- The trust nodes the request is still to be sent to. -/
def SignCall.unsent (call : SignCall) : List Overlay :=
  match call.phase with
  | .started => call.request.trusts
  | .sending rest => rest
  | _ => []

structure CallSound (handlers : List SignHandler) (call : SignCall) : Prop where
  authors : (call.list.map SignResult.author).Nodup
  taken : ∀ req ∈ call.list, req.id = call.id ∧ req.author ∈ call.asked ∧ Handled handlers req
  sent : (call.asked ++ call.unsent).Sublist call.request.trusts
  count : (call.needTrust + call.list.length) % 2 ^ 64 = call.request.needTrust
  fresh : call.phase = .started → call.list = []
  result :
    ∀ byts, call.phase.result? = some (.signatures byts) →
      call.needTrust = 0 ∧ byts = call.list.flatMap SignResult.payload

variable {handlers' : List SignHandler}

namespace CallSound

theorem start (s : TrustService) (request : Request) : CallSound handlers (.start s request) where
  authors := List.nodup_nil
  taken _ hMem := nomatch hMem
  sent := by
    unfold SignCall.start SignCall.unsent
    dsimp only
    split
    · exact List.Sublist.refl _
    · rename_i hPhase
      split_ifs at hPhase
    · exact List.nil_sublist _
  count := Nat.mod_eq_of_lt request.needTrust_lt
  fresh _ := rfl
  result byts hResult := by
    unfold SignCall.start at hResult
    split_ifs at hResult
    · cases hResult
    · cases hResult

section

variable (hSound : CallSound handlers call)
include hSound

theorem mono
    (hMore : ∀ req, Handled handlers req → Handled handlers' req) : CallSound handlers' call :=
  { hSound with
    taken := by
      intro req hMem
      obtain ⟨hId, hAsked, hHandled⟩ := hSound.taken req hMem
      exact ⟨hId, hAsked, hMore req hHandled⟩ }

/- A call whose phase carries no signatures. -/
theorem of_phase (hSent : ({ call with phase := phase } : SignCall).unsent.Sublist call.unsent)
    (hFresh : phase ≠ .started) (hResult : ∀ byts, phase.result? ≠ some (.signatures byts)) :
    CallSound handlers { call with phase := phase } :=
  { hSound with
    sent := ((List.Sublist.refl call.asked).append hSent).trans hSound.sent
    fresh := fun hStarted => absurd hStarted hFresh
    result := fun byts hSome => absurd hSome (hResult byts) }

theorem acted (hActed : Acted call action next) : CallSound handlers next := by
  cases hActed with
  | ended => exact { hSound with }
  | asked trust rest hPhase =>
    have hUnsent : call.unsent = trust :: rest := by rw [SignCall.unsent, hPhase]
    refine ⟨hSound.authors, ?_, ?_, hSound.count, nofun, nofun⟩
    · intro req hMem
      obtain ⟨hId, hAsked, hHandled⟩ := hSound.taken req hMem
      exact ⟨hId, List.mem_append_left _ hAsked, hHandled⟩
    · have hSent := hSound.sent
      rw [hUnsent] at hSent
      simpa only [SignCall.unsent, List.append_assoc, List.cons_append, List.nil_append] using hSent
  | failed trust rest hPhase =>
    have hUnsent : call.unsent = trust :: rest := by rw [SignCall.unsent, hPhase]
    refine hSound.of_phase ?_ nofun nofun
    rw [hUnsent]
    exact List.sublist_cons_self trust rest
  | sent hPhase =>
    unfold SignCall.afterSending
    split_ifs <;> exact hSound.of_phase (List.nil_sublist _) nofun nofun
  | cancelled hPhase => exact hSound.of_phase (List.nil_sublist _) nofun nofun

theorem obtained {id : Nat} (hPhase : call.phase = .started) :
    CallSound handlers
      { call with
        id := id
        phase := .sending call.request.trusts } := by
  have hList := hSound.fresh hPhase
  refine ⟨hSound.authors, ?_, ?_, hSound.count, nofun, nofun⟩
  · intro req hMem
    rw [hList] at hMem
    cases hMem
  · have hSent := hSound.sent
    rw [SignCall.unsent, hPhase] at hSent
    exact hSent

theorem released {result : Result}
    (hPhase : call.phase = .leaving result) :
    CallSound handlers { call with phase := .returned result } := by
  have hSent := hSound.sent
  have hResult := hSound.result
  rw [SignCall.unsent, hPhase] at hSent
  rw [hPhase] at hResult
  exact { hSound with sent := hSent, fresh := nofun, result := hResult }

end

theorem count_receive :
    (SignCall.decrement needTrust + (length + 1)) % 2 ^ 64 = (needTrust + length) % 2 ^ 64 := by
  unfold SignCall.decrement
  split_ifs <;> omega

/- A result of an author the call has none of. -/
theorem received (hSound : CallSound handlers call)
    (hPhase : call.phase = .collecting) (hId : req.id = call.id) (hAsked : req.author ∈ call.asked)
    (hNew : req.author ∉ call.list.map SignResult.author) (hHandled : Handled handlers req) :
    CallSound handlers (call.receive req) where
  authors := by
    rw [SignCall.receive, List.map_append, List.nodup_append]
    refine ⟨hSound.authors, List.nodup_singleton _, ?_⟩
    intro author hOld last hLast hSame
    obtain rfl := List.mem_singleton.mp hLast
    exact hNew (hSame ▸ hOld)
  taken other hMem := by
    rcases List.mem_append.mp hMem with hOld | hLast
    · exact hSound.taken other hOld
    · obtain rfl := List.mem_singleton.mp hLast
      exact ⟨hId, hAsked, hHandled⟩
  sent := by
    have hSent := hSound.sent
    rw [SignCall.unsent, hPhase] at hSent
    unfold SignCall.receive SignCall.unsent
    dsimp only
    split
    · rename_i hStarted
      split_ifs at hStarted
    · rename_i hSending
      split_ifs at hSending
    · exact hSent
  count := by
    unfold SignCall.receive
    rw [List.length_append, List.length_singleton, count_receive]
    exact hSound.count
  fresh hStarted := by
    unfold SignCall.receive at hStarted
    dsimp only at hStarted
    split_ifs at hStarted
  result byts hSome := by
    unfold SignCall.receive at hSome ⊢
    dsimp only at hSome ⊢
    split_ifs at hSome with hZero
    · cases hSome
      exact ⟨hZero, rfl⟩
    · cases hSome

end CallSound

end

---- Runs With Honest Results

/- The author was asked, and the call has no result of it. -/
def FirstOf (req : SignResult) (call : SignCall) : Prop :=
  req.author ∈ call.asked ∧ req.author ∉ call.list.map SignResult.author

/- What calls have collected is sound, and stays so with the
   result that a handler is sending. -/
structure Collected (calls : List SignCall) (handlers : List SignHandler) : Prop where
  sound : ∀ call ∈ calls, CallSound handlers call
  first : Meets FirstOf calls handlers

variable {calls : List SignCall}
variable {i c : Nat}
variable {handler : SignHandler}
variable {req : SignResult}

theorem Handled.append (hHandled : Handled handlers req) : Handled (handlers ++ [handler]) req := by
  obtain ⟨old, hMem, hOld⟩ := hHandled
  exact ⟨old, List.mem_append_left _ hMem, hOld⟩

theorem Handled.set (hHandler : handlers[i]? = some handler)
    (hPhase : phase ≠ .waiting) (hHandled : Handled handlers req) :
    Handled (handlers.set i { handler with phase := phase }) req := by
  obtain ⟨old, hMem, hReq, hOld⟩ := hHandled
  obtain ⟨j, hSlot⟩ := List.mem_iff_getElem?.mp hMem
  by_cases hSame : j = i
  · subst hSame
    obtain rfl := Option.some.inj (hHandler.symm.trans hSlot)
    exact ⟨_, List.mem_of_getElem? (slot_set_self hHandler), hReq, hPhase⟩
  · refine ⟨old, List.mem_of_getElem? (i := j) ?_, hReq, hOld⟩
    rw [List.getElem?_set_ne (Ne.symm hSame)]
    exact hSlot

namespace Collected

/- A call that keeps what it has and may ask more nodes. -/
theorem set_call (hCollected : Collected calls handlers) (hCall : calls[c]? = some call)
    (hNext : CallSound handlers next) (hAsked : ∀ trust ∈ call.asked, trust ∈ next.asked)
    (hList : next.list = call.list) : Collected (calls.set c next) handlers where
  sound other hMem := by
    rcases List.mem_or_eq_of_mem_set hMem with hOld | rfl
    · exact hCollected.sound other hOld
    · exact hNext
  first := by
    apply hCollected.first.set_call hCall
    intro handler hMem hSending hFirst
    rw [FirstOf, hList]
    exact ⟨hAsked _ hFirst.1, hFirst.2⟩

/- A handler goes on; if it sends now, its result is the
   first of the author. -/
theorem set_phase (hCollected : Collected calls handlers)
    (hHandler : handlers[i]? = some handler) (hPhase : phase ≠ .waiting)
    (hFirst : ∀ c call, phase = .sending c → calls[c]? = some call → FirstOf handler.req call) :
    Collected calls (handlers.set i { handler with phase := phase }) where
  sound call hMem :=
    (hCollected.sound call hMem).mono (fun _ hHandled => hHandled.set hHandler hPhase)
  first := hCollected.first.set_phase hFirst

/-
  The results a call has were all looked up before, and so none of them is repeated by an honest
  result.
-/
theorem found (hCollected : Collected calls handlers) (hCall : calls[c]? = some call)
    (hId : call.id = req.id)
    (hNew : ∀ other ∈ handlers, other.phase ≠ .waiting → ¬ Repeats req other.req) :
    req.author ∉ call.list.map SignResult.author := by
  intro hMem
  obtain ⟨old, hOld, hAuthor⟩ := List.mem_map.mp hMem
  have hSound := hCollected.sound call (List.mem_of_getElem? hCall)
  obtain ⟨hOldId, -, other, hOther, rfl, hPhase⟩ := hSound.taken old hOld
  exact hNew other hOther hPhase ⟨hOldId.trans hId, hAuthor⟩

/- The handler and the call have met. -/
theorem handed (hLinked : Linked node) (hCollected : Collected node.calls node.handlers)
    (hEffect : Effect s node (.hand i) after) : Collected after.calls after.handlers := by
  cases hEffect with
  | handed _ handler c call hHandler hSending hCall hPhase =>
  refine ⟨fun other hMem => ?_, Meets.delivered hLinked hHandler hSending _⟩
  have hDelivered :
      Collected node.calls (node.handlers.set i { handler with phase := .delivered }) :=
    hCollected.set_phase hHandler nofun nofun
  rcases List.mem_or_eq_of_mem_set hMem with hOld | rfl
  · exact hDelivered.sound other hOld
  · obtain ⟨old, hOld, -, hId⟩ := hLinked.partner i handler c hHandler hSending
    obtain rfl := Option.some.inj (hOld.symm.trans hCall)
    obtain ⟨hAsked, hNew⟩ := hCollected.first i handler c old hHandler hSending hOld
    exact (hDelivered.sound old (List.mem_of_getElem? hOld)).received hPhase hId.symm hAsked hNew
      ⟨_, List.mem_of_getElem? (slot_set_self hHandler), rfl, nofun⟩

/- An honest step keeps what is collected sound. -/
theorem step (hLinked : Linked node)
    (hCollected : Collected node.calls node.handlers) (hHonest : Honest label node)
    (hStep : Collect.step s label node = some after) : Collected after.calls after.handlers := by
  cases step_effect hStep with
  | called request =>
    refine ⟨?_, hCollected.first.called hLinked⟩
    intro call hMem
    rcases List.mem_append.mp hMem with hOld | hNew
    · exact hCollected.sound call hOld
    · obtain rfl := List.mem_singleton.mp hNew
      exact .start s request
  | ignored => exact hCollected
  | arrived now req =>
    refine ⟨?_, hCollected.first.arrived req⟩
    intro call hMem
    exact (hCollected.sound call hMem).mono (fun _ hHandled => hHandled.append)
  | acted c call next action hCall hActed =>
    have hSound := hCollected.sound call (List.mem_of_getElem? hCall)
    exact hCollected.set_call hCall (hSound.acted hActed) hActed.asked_mono hActed.list_eq
  | obtained c unixNano call hCall hPhase hLock =>
    have hSound := hCollected.sound call (List.mem_of_getElem? hCall)
    exact hCollected.set_call hCall (hSound.obtained hPhase) (fun _ hMem => hMem) rfl
  | released c call result hCall hPhase hLock =>
    have hSound := hCollected.sound call (List.mem_of_getElem? hCall)
    exact hCollected.set_call hCall (hSound.released hPhase) (fun _ hMem => hMem) rfl
  | missed i handler hHandler hPhase hLock
  | unlocked i handler hHandler hPhase => exact hCollected.set_phase hHandler nofun nofun
  | found i handler c hHandler hPhase hLock hWaits =>
    refine hCollected.set_phase hHandler nofun ?_
    intro d call hSending hCall
    cases hSending
    obtain ⟨hAsked, hNew⟩ := hHonest handler hHandler c hWaits call hCall
    obtain ⟨old, hOld, -, hId⟩ := hLinked.entry _ c hWaits
    obtain rfl := Option.some.inj (hOld.symm.trans hCall)
    exact ⟨hAsked, hCollected.found hCall hId hNew⟩
  | handed => exact handed hLinked hCollected (step_effect hStep)

end Collected

/- A call that has signatures has as many as it needs. -/
theorem CallSound.length_eq (hSound : CallSound handlers call)
    (hResult : call.phase.result? = some (.signatures byts)) :
    call.list.length = call.request.needTrust := by
  have hAuthors : call.list.map SignResult.author ⊆ call.asked := by
    intro author hMem
    obtain ⟨req, hReq, rfl⟩ := List.mem_map.mp hMem
    exact (hSound.taken req hReq).2.1
  have hAsked := (hSound.authors.subperm hAuthors).length_le
  rw [List.length_map] at hAsked
  have hSent := hSound.sent.length_le
  rw [List.length_append] at hSent
  have hShort := call.request.length_lt
  have hCount := hSound.count
  rw [(hSound.result byts hResult).1, Nat.zero_add, Nat.mod_eq_of_lt (by omega)] at hCount
  exact hCount

/-
  A call that succeeds returns the payloads of as many results as it needs.  They carry its
  identifier, and their authors are different trust nodes among those the request was sent to.
-/
theorem signatures_distinct (s : TrustService) (node : Signing)
    (hReach : Reach (Stepping (step s)) Honest .start node) (call : SignCall)
    (hCall : call ∈ node.calls) (byts : List UInt8)
    (hReturned : call.phase = .returned (.signatures byts)) :
    byts = call.list.flatMap SignResult.payload ∧ call.list.length = call.request.needTrust ∧
      (call.list.map SignResult.author).Nodup ∧
      ∀ req ∈ call.list,
        req.id = call.id ∧ req.author ∈ call.asked ∧ req.author ∈ call.request.trusts := by
  have hBoth : Linked node ∧ Collected node.calls node.handlers := by
    apply hReach.invariant (fun node => Linked node ∧ Collected node.calls node.handlers)
    · exact ⟨.start, nofun, nofun⟩
    · intro label before after hInv hHonest hStep
      exact ⟨hInv.1.step hStep, Collected.step hInv.1 hInv.2 hHonest hStep⟩
  have hSound := hBoth.2.sound call hCall
  have hResult : call.phase.result? = some (.signatures byts) := by
    rw [hReturned]
    rfl
  refine ⟨(hSound.result byts hResult).2, hSound.length_eq hResult, hSound.authors, ?_⟩
  intro req hMem
  obtain ⟨hId, hAsked, -⟩ := hSound.taken req hMem
  exact ⟨hId, hAsked, hSound.sent.subset (List.mem_append_left _ hAsked)⟩

/- A result with the identifier 7 and one byte of payload. -/
def resultSeven (author : Overlay) (payload : UInt8) : SignResult where
  author := author
  expire := 10
  stream := plainService.base ++ [0, 0, 0, 7, payload]
  long := by simp [plainService]

/- Two signatures are needed of the trust nodes 1 and 2. -/
def needTwo : Request where
  needTrust := 2
  trusts := [[1], [2]]
  needTrust_lt := by decide
  length_lt := by decide

/- The steps of a call that asks both nodes and takes the two
   results. -/
def takeTwo (first second : SignResult) : List Label :=
  [.call needTwo, .obtain 0 7, .act 0 (.send true),
    .act 0 (.send true), .act 0 .sent, .arrive 0 first,
    .arrive 0 second, .look 0, .hand 0, .unlock 0, .look 1, .hand 1, .unlock 1, .release 0]

/- The call after these steps. -/
def takenTwo (first second : SignResult) : SignCall where
  request := needTwo
  done := false
  id := 7
  asked := [[1], [2]]
  needTrust := 0
  list := [first, second]
  phase := .returned (.signatures (first.payload ++ second.payload))

/- Each of the two trust nodes sends one result. -/
theorem signatures_distinct_two :
    ∃ node, Reach (Stepping (step plainService)) Honest .start node ∧
      takenTwo (resultSeven [1] 8) (resultSeven [2] 9) ∈ node.calls ∧
      ((takenTwo (resultSeven [1] 8) (resultSeven [2] 9)).list.map SignResult.author).Nodup := by
  have hRun :
      ∃ node, Reach (Stepping (step plainService)) Honest .start node ∧
        takenTwo (resultSeven [1] 8) (resultSeven [2] 9) ∈ node.calls :=
    exists_reach (takeTwo (resultSeven [1] 8) (resultSeven [2] 9)) (by decide)
  obtain ⟨node, hReach, hMem⟩ := hRun
  exact ⟨node, hReach, hMem, (signatures_distinct plainService node hReach _ hMem _ rfl).2.2.1⟩

/-
  Nothing but the identifier of a result is looked at: a call returns two signatures of one trust
  node, and a call returns two signatures of nodes that were never asked.
-/
theorem signatures_repeated :
    (∃ node, ∃ call ∈ node.calls,
      Reach (Stepping (step plainService)) (fun _ _ => True) .start node ∧
      call.phase = .returned (.signatures [8, 9]) ∧ ¬ (call.list.map SignResult.author).Nodup) ∧
    ∃ node, ∃ call ∈ node.calls,
      Reach (Stepping (step plainService)) (fun _ _ => True) .start node ∧
      call.phase = .returned (.signatures [8, 9]) ∧
      ∀ req ∈ call.list, req.author ∉ call.request.trusts := by
  have hSame :
      ∃ node, Reach (Stepping (step plainService)) (fun _ _ => True) .start node ∧
        takenTwo (resultSeven [1] 8) (resultSeven [1] 9) ∈ node.calls :=
    exists_reach (takeTwo (resultSeven [1] 8) (resultSeven [1] 9)) (by decide)
  have hOthers :
      ∃ node, Reach (Stepping (step plainService)) (fun _ _ => True) .start node ∧
        takenTwo (resultSeven [3] 8) (resultSeven [4] 9) ∈ node.calls :=
    exists_reach (takeTwo (resultSeven [3] 8) (resultSeven [4] 9)) (by decide)
  obtain ⟨node, hReach, hMem⟩ := hSame
  obtain ⟨node', hReach', hMem'⟩ := hOthers
  exact ⟨⟨node, _, hMem, hReach, rfl, by decide⟩, node', _, hMem', hReach', rfl, by decide⟩

end Collect

end Sana.Mine
