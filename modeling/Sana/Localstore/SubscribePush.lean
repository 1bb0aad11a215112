import Sana.Localstore.Pins
import Sana.Localstore.SubscribePull

/-
  The push subscription and uploads that run between its steps.

  The next iteration starts after the key sent last.  A chunk that is uploaded later, at the time of
  that key, can have a smaller key: it is never sent.

  Key definitions include:
    * `PushSubscription.advance`
    * `PushReachable`

  Key theorems include:
    * `Pushing.iterate`
-/

---- SubscribePush

namespace Sana.Localstore

open KeyValue Program Swarm

/-
  The variables of the goroutine, and the chunks it has sent, each with the item it was sent for.
-/
structure PushSubscription where
  sinceItem : Option Item := none
  loop : Loop PushKey Nat := .waiting
  sent : List (Item × Chunk) := []

namespace PushSubscription

/- The callback; it reads the chunk from the database. -/
def visit (sub : PushSubscription) (s : Store) (selected : Selected)
    (item : Item) : PushSubscription × Visit :=
  match s.getRetrievalData item with
  | none => (sub, .fail)
  | some dataItem =>
    match selected with
    | .send =>
      ({ sub with
          sent := sub.sent ++ [(item, pushChunk item dataItem)]
          sinceItem := some item },
        .next)
    | .stop => (sub, .stop)
    | .cancel => (sub, .fail)

/- A trigger starts an iteration. -/
def iterate (sub : PushSubscription) (s : Store) : PushSubscription :=
  match sub.loop with
  | .waiting =>
    { sub with
      loop := .iterating s.pushIndex
        (s.pushIndex.iterate (sub.sinceItem.map Item.pushKey) true (fun _ => true)) }
  | _ => sub

/- The next step of a running iteration. -/
def advance (sub : PushSubscription) (s : Store) (selected : Selected) : PushSubscription :=
  match sub.loop with
  | .iterating _ [] => { sub with loop := .waiting }
  | .iterating snapshot (entry :: rest) =>
    match sub.visit s selected (pushItem entry) with
    | (sub, .next) => { sub with loop := .iterating snapshot rest }
    | (sub, .stop) => { sub with loop := .waiting }
    | (sub, .fail) => { sub with loop := .ended }
  | _ => sub

/- The subscription ends while it waits. -/
def quit (sub : PushSubscription) : PushSubscription :=
  match sub.loop with
  | .waiting => { sub with loop := .ended }
  | _ => sub

/- The callback of an entry comes to a case that stops it. -/
def Interrupted (sub : PushSubscription) (s : Store) (selected : Selected) : Prop :=
  selected ≠ .send ∧
    ∃ snapshot entry rest,
      sub.loop = .iterating snapshot (entry :: rest) ∧ s.getRetrievalData (pushItem entry) ≠ none

end PushSubscription

/- The database, a time that has passed, a subscription. -/
structure PushSystem where
  db : DB
  time : Nat := 0
  sub : PushSubscription := {}

inductive PushEvent where
  | put (chs : List Chunk) (clock : Clock)
  | iterate
  | advance (selected : Selected)
  | quit

/- Uploads read a clock that never goes back. -/
def PushStep (cfg : Config) (event : PushEvent) (before after : PushSystem) : Prop :=
  match event with
  | .put chs clock =>
    Monotone clock ∧ before.time ≤ clock 0 ∧ (∀ i, clock i ≤ after.time) ∧
      after.db = ((put cfg .upload chs).run clock before.db).state ∧ after.sub = before.sub
  | .iterate => after = { before with sub := before.sub.iterate before.db.store }
  | .advance selected => after = { before with sub := before.sub.advance before.db.store selected }
  | .quit => after = { before with sub := before.sub.quit }

/- The states of interleavings whose events are allowed. -/
abbrev PushReachable (cfg : Config) (allowed : PushEvent → PushSystem → Prop)
    (db : DB) : PushSystem → Prop :=
  Reach (PushStep cfg) allowed { db := db }

/- The keys that were sent or that the iteration will send. -/
def PushSubscription.keys (sub : PushSubscription) : List PushKey :=
  sub.sent.map (fun sent => sent.1.pushKey) ++ sub.loop.rest.map Prod.fst

/-
  A chunk that an upload stores gets a key behind the keys that were sent or are left in the running
  iteration.
-/
def PushFresh (event : PushEvent) (sys : PushSystem) : Prop :=
  match event with
  | .put chs clock =>
    ∀ ch ∈ chs, sys.db.store.retrievalDataIndex.has ch.address = false →
      ∀ key ∈ sys.sub.keys, compare key ⟨clock 0, ch.address⟩ = .lt
  | _ => True

/-
  When an iteration ends by itself and without an error, all items of its snapshot have been sent.
-/
def PushSystem.Delivered (sys : PushSystem) : Prop :=
  ∀ selected snapshot rest, sys.sub.loop = .iterating snapshot rest →
    ¬ sys.sub.Interrupted sys.db.store selected →
    (sys.sub.advance sys.db.store selected).loop = .waiting →
    ∀ key tag, snapshot.get key = some tag →
      ∃ ch,
        (pushItem (key, tag), ch) ∈ (sys.sub.advance sys.db.store selected).sent ∧
          ch.address = key.address

---- Push Entries Of An Upload

section

variable {cfg : Config} {s : Store}

theorem pushIndex_writeBatch :
    (s.writeBatch batch).pushIndex.get key = s.pushIndex.get key ∨
      .push key ((s.writeBatch batch).pushIndex.get key) ∈
        batch := by
  refine read_writeBatch (fun s => s.pushIndex.get key) (.push key) ?_ s batch
  intro s r
  cases r with
  | push key' value => exact Index.get_set_or _ _ key' value
  | _ => exact Or.inl rfl

theorem not_push_of_mem_planRemove : .push key tag ∉ (planRemove cfg s a).records := by
  unfold planRemove
  cases s.retrievalDataIndex.get a with
  | none => simp
  | some d =>
    dsimp only
    split <;> simp

/- An uploaded chunk gets an entry with its time. -/
theorem push_of_mem_planUpload
    (hOk : (planPut cfg .upload s binIDs ch clock).outcome = .ok (exist, c))
    (hMem : .push key (some tag) ∈ (planPut cfg .upload s binIDs ch clock).records) :
    s.retrievalDataIndex.has ch.address = false ∧ key = ⟨clock 0, ch.address⟩ := by
  rcases planPut_cases hOk with ⟨base, c₁, c₂, hCase, -, -, -, hPlan⟩
  rw [hPlan] at hMem
  cases hCase with
  | existed hHas | kept hData hAccepts => cases hMem
  | stored previous removal hData hAccepts hReplaced =>
    refine ⟨(Index.has_eq_false_iff _ _).mpr hData, ?_⟩
    simp only [List.mem_append] at hMem
    rcases hMem with (hMem | hMem) | hMem
    · rcases hReplaced with _ | ⟨p, c, -, -⟩
      · cases hMem
      · exact absurd hMem not_push_of_mem_planRemove
    · simp only [planStore, planStoreUpload, List.mem_cons, List.not_mem_nil, or_false] at hMem
      rcases hMem with hMem | hMem | hMem | hMem | hMem <;> cases hMem
      rfl
    · cases hMem

/- So does every chunk of a call, at some reading. -/
theorem push_of_mem_planPutAll
    (hResult : (planPutAll cfg .upload s seen chs st clock).result = .ok st')
    (hMem : .push key (some tag) ∈ st'.batch) :
    .push key (some tag) ∈ st.batch ∨
      ∃ ch ∈ chs,
        s.retrievalDataIndex.has ch.address = false ∧ ∃ i, key = ⟨clock i, ch.address⟩ := by
  induction chs generalizing seen st clock with
  | nil =>
    cases hResult
    exact Or.inl hMem
  | cons ch chs ih =>
    rcases planPutAll_cons hResult with ⟨-, hRest⟩ | ⟨-, exist, c, hOk, hRest⟩
    · rcases ih hRest with hOld | ⟨other, hOther, hNew⟩
      · exact Or.inl hOld
      · exact Or.inr ⟨other, List.mem_cons_of_mem _ hOther, hNew⟩
    · rcases ih hRest with hOld | ⟨other, hOther, hHas, i, hKey⟩
      · rcases List.mem_append.mp hOld with hOld | hNew
        · exact Or.inl hOld
        · rcases push_of_mem_planUpload hOk hNew with ⟨hHas, hKey⟩
          exact Or.inr ⟨ch, List.mem_cons_self .., hHas, 0, hKey⟩
      · exact Or.inr ⟨other, List.mem_cons_of_mem _ hOther, hHas, _, hKey⟩

/- Push entries after an upload are old or have its times. -/
theorem pushIndex_put
    (hGet : ((put cfg .upload chs).run clock db).state.store.pushIndex.get key = some tag) :
    db.store.pushIndex.get key = some tag ∨
      ∃ ch ∈ chs,
        db.store.retrievalDataIndex.has ch.address = false ∧ ∃ i, key = ⟨clock i, ch.address⟩ := by
  have hMode : ModePut.upload ≠ .unknown := by decide
  have hStore :
      ((put cfg .upload chs).run clock db).state.store =
        db.store.afterPut (planPutAll cfg .upload db.store [] chs {} clock) :=
    (run_put_eq hMode chs clock db).2.2
  rw [hStore] at hGet
  unfold Store.afterPut at hGet
  cases hResult : (planPutAll cfg .upload db.store [] chs {} clock).result with
  | error e =>
    rw [hResult] at hGet
    exact Or.inl hGet
  | ok st =>
    rw [hResult] at hGet
    rcases pushIndex_writeBatch with hSame | hRecord
    · exact Or.inl (hSame.symm.trans hGet)
    · rw [hGet] at hRecord
      have hMem : .push key (some tag) ∈ st.batch := by
        simp only [PutState.allRecords, List.mem_append, List.mem_map] at hRecord
        rcases hRecord with (hMem | ⟨entry, -, hEq⟩) | hMem
        · exact hMem
        · cases hEq
        · rcases mem_sizeRecords_gcSize hMem with ⟨n, hEq⟩
          cases hEq
      rcases push_of_mem_planPutAll hResult hMem with hOld | hNew
      · cases hOld
      · exact Or.inr hNew

/- A key stays behind another one when its time grows. -/
theorem compare_pushKey_mono {key : PushKey} (hLt : compare key ⟨time, a⟩ = .lt)
    (hLe : time ≤ time') : compare key ⟨time', a⟩ = .lt := by
  rcases Nat.lt_or_eq_of_le hLe with hTime | rfl
  · have hLater : compare (⟨time, a⟩ : PushKey) ⟨time', a⟩ = .lt := by
      have hKeys :
          compare (⟨time, a⟩ : PushKey) ⟨time', a⟩ = (compare time time').then (compare a a) := rfl
      rw [hKeys, Nat.compare_eq_lt.mpr hTime]
      rfl
    exact Std.TransCmp.lt_trans hLt hLater
  · exact hLt

end

---- What A Subscription Has Sent

/-
  A subscription and the database: the entries it has sent, together with those of the running
  iteration, are the push entries up to the last of them.
-/
structure Pushing (s : Store) (sub : PushSubscription) (entries : List (PushKey × Nat)) : Prop where
  sent : sub.sent.map Prod.fst = entries.map pushItem
  chunk : ∀ sent ∈ sub.sent, sent.2.address = sent.1.address
  since : sub.sinceItem = entries.getLast?.map pushItem
  scanned : Scanned (fun _ => True) s.pushIndex (entries ++ sub.loop.rest)
  covered :
    ∀ snapshot rest, sub.loop = .iterating snapshot rest →
      Covered (fun _ => True) snapshot (entries ++ rest)

namespace PushSubscription

variable {sub : PushSubscription} {s : Store}
variable {selected : Selected}
variable {snapshot : Index PushKey Nat}
variable {entry : PushKey × Nat}
variable {rest : List (PushKey × Nat)}

/- What the steps of an iteration can do. -/
theorem advance_cases (sub : PushSubscription) (s : Store) (selected : Selected) :
    (∃ loop, (loop = .waiting ∨ loop = .ended) ∧
        sub.advance s selected = { sub with loop := loop }) ∨ sub.advance s selected = sub ∨
      ∃ snapshot entry rest dataItem,
        sub.loop = .iterating snapshot (entry :: rest) ∧
          s.getRetrievalData (pushItem entry) = some dataItem ∧ sub.advance s selected =
            { sub with
              sent := sub.sent ++ [(pushItem entry, pushChunk (pushItem entry) dataItem)]
              sinceItem := some (pushItem entry)
              loop := .iterating snapshot rest } := by
  unfold advance
  split
  · exact Or.inl ⟨.waiting, Or.inl rfl, rfl⟩
  · next snapshot entry rest hLoop =>
      unfold visit
      cases hData : s.getRetrievalData (pushItem entry) with
      | none => exact Or.inl ⟨.ended, Or.inr rfl, rfl⟩
      | some dataItem =>
        cases selected with
        | send => exact Or.inr (Or.inr ⟨snapshot, entry, rest, dataItem, hLoop, hData, rfl⟩)
        | stop => exact Or.inl ⟨.waiting, Or.inl rfl, rfl⟩
        | cancel => exact Or.inl ⟨.ended, Or.inr rfl, rfl⟩
  · exact Or.inr (Or.inl rfl)

/- Only the last entry ends an iteration by itself. -/
theorem rest_eq_nil_of_over (hLoop : sub.loop = .iterating snapshot rest)
    (hNot : ¬ sub.Interrupted s selected) (hOver : (sub.advance s selected).loop = .waiting) :
    rest = [] := by
  cases rest with
  | nil => rfl
  | cons entry rest =>
    unfold advance visit at hOver
    rw [hLoop] at hOver
    cases hData : s.getRetrievalData (pushItem entry) with
    | none => simp [hData] at hOver
    | some dataItem =>
      have hSend : selected = .send := by
        by_contra hOther
        exact hNot ⟨hOther, snapshot, entry, rest, hLoop, by simp [hData]⟩
      simp [hData, hSend] at hOver

end PushSubscription

namespace Pushing

variable {s s' : Store} {sub : PushSubscription}
variable {entries : List (PushKey × Nat)}

theorem start (s : Store) : Pushing s {} [] where
  sent := rfl
  chunk := nofun
  since := rfl
  scanned := scanned_nil
  covered := nofun

section

variable (hPushing : Pushing s sub entries)
include hPushing

/- An iteration ends, or the goroutine returns. -/
theorem idle
    (hLoop : loop = .waiting ∨ loop = .ended) : Pushing s { sub with loop := loop } entries := by
  have hRest : loop.rest = [] := by
    rcases hLoop with rfl | rfl
    · rfl
    · rfl
  refine { hPushing with scanned := ?_, covered := ?_ }
  · rw [hRest, List.append_nil]
    exact hPushing.scanned.of_append
  · rintro snapshot rest rfl
    rcases hLoop with hEq | hEq <;> cases hEq

/- A new iteration starts. -/
theorem iterate : Pushing s (sub.iterate s) entries := by
  unfold PushSubscription.iterate
  split
  · next hLoop =>
      have hScanned : Scanned (fun _ => True) s.pushIndex entries := hPushing.scanned.of_append
      have hRest :
          ∀ key tag,
            (key, tag) ∈ s.pushIndex.iterate (sub.sinceItem.map Item.pushKey) true (fun _ => true) ↔
              s.pushIndex.get key = some tag ∧ True ∧
                ∀ entry ∈ entries, compare entry.1 key = .lt := by
        intro key tag
        rw [Index.mem_iterate_iff (fun _ _ _ _ _ _ _ => rfl) (fun _ _ => rfl), hPushing.since]
        rcases List.eq_nil_or_concat entries with hNil | ⟨init, last, hLast⟩
        · simp [hNil, Index.FromStart]
        · rw [List.concat_eq_append] at hLast
          have hOrdered := hScanned.ordered
          rw [hLast] at hOrdered ⊢
          have hKey : (pushItem last).pushKey = last.1 := rfl
          rw [forall_lt_of_last hOrdered]
          simp [Index.FromStart, hKey]
      have hAll := hScanned.append Index.ordered_iterate hRest
      refine { hPushing with scanned := hAll.1, covered := ?_ }
      · intro snapshot rest hEq
        cases hEq
        exact hAll.2
  · exact hPushing

/- A step of a running iteration. -/
theorem advance (selected : Selected) :
    ∃ entries', Pushing s (sub.advance s selected) entries' := by
  rcases sub.advance_cases s selected with
    ⟨loop, hLoop, hEq⟩ | hEq | ⟨snapshot, entry, rest, dataItem, hLoop, hData, hEq⟩
  · rw [hEq]
    exact ⟨entries, hPushing.idle hLoop⟩
  · rw [hEq]
    exact ⟨entries, hPushing⟩
  · rw [hEq]
    have hList : (entries ++ [entry]) ++ rest = entries ++ sub.loop.rest := by
      simp [hLoop, Loop.rest]
    refine ⟨entries ++ [entry], ?_, ?_, ?_, ?_, ?_⟩
    · simp [hPushing.sent]
    · intro sent hMem
      rcases List.mem_append.mp hMem with hOld | hNew
      · exact hPushing.chunk sent hOld
      · rw [List.mem_singleton.mp hNew]
        rcases Option.map_eq_some_iff.mp hData with ⟨value, -, rfl⟩
        rfl
    · simp
    · have hScanned := hPushing.scanned
      rw [← hList] at hScanned
      exact hScanned
    · intro snapshot' rest' hEq
      cases hEq
      rw [List.append_assoc]
      exact hPushing.covered snapshot _ hLoop

/- The subscription ends while it waits. -/
theorem quit : Pushing s sub.quit entries := by
  unfold PushSubscription.quit
  split
  · exact hPushing.idle (Or.inr rfl)
  · exact hPushing

/- The keys of the entries, as the subscription has them. -/
theorem mem_keys (hMem : entry ∈ entries ++ sub.loop.rest) : entry.1 ∈ sub.keys := by
  unfold PushSubscription.keys
  rw [List.mem_append]
  rcases List.mem_append.mp hMem with hOld | hRest
  · left
    have hItem : pushItem entry ∈ sub.sent.map Prod.fst := by
      rw [hPushing.sent]
      exact List.mem_map_of_mem hOld
    rcases List.mem_map.mp hItem with ⟨sent, hSent, hEq⟩
    refine List.mem_map.mpr ⟨sent, hSent, ?_⟩
    rw [hEq]
    rfl
  · exact Or.inr (List.mem_map_of_mem hRest)

end

/- An upload whose keys are behind those sent. -/
theorem put {clock : Clock}
    (hPushing : Pushing sys.db.store sys.sub entries) (hClock : Monotone clock)
    (hFresh : PushFresh (.put chs clock) sys) :
    Pushing ((Localstore.put cfg .upload chs).run clock sys.db).state.store sys.sub entries where
  sent := hPushing.sent
  chunk := hPushing.chunk
  since := hPushing.since
  covered := hPushing.covered
  scanned := by
    apply hPushing.scanned.of_changed
    intro key tag hGet _
    rcases pushIndex_put hGet with hOld | ⟨ch, hMem, hHas, i, rfl⟩
    · exact Or.inl hOld
    · right
      intro entry hEntry
      have hBehind := hFresh ch hMem hHas entry.1 (hPushing.mem_keys hEntry)
      exact compare_pushKey_mono hBehind (hClock (Nat.zero_le i))

/- At its end, an iteration has sent its snapshot. -/
theorem delivered {sys : PushSystem} (hPushing : Pushing sys.db.store sys.sub entries) :
    sys.Delivered := by
  intro selected snapshot rest hLoop hNot hOver key tag hGet
  have hNil := PushSubscription.rest_eq_nil_of_over hLoop hNot hOver
  have hMem := hPushing.covered snapshot rest hLoop key tag hGet trivial
  rw [hNil, List.append_nil] at hMem
  have hItem : pushItem (key, tag) ∈ sys.sub.sent.map Prod.fst := by
    rw [hPushing.sent]
    exact List.mem_map_of_mem hMem
  rcases List.mem_map.mp hItem with ⟨⟨item, ch⟩, hSent, hEq⟩
  have hAdvance : (sys.sub.advance sys.db.store selected).sent = sys.sub.sent := by
    unfold PushSubscription.advance
    rw [hLoop, hNil]
  have hAddress := hPushing.chunk _ hSent
  cases hEq
  exact ⟨ch, by rw [hAdvance]; exact hSent, hAddress⟩

end Pushing

---- Interleavings

/-
  In every interleaving of uploads, on any database, with the iterations of a subscription: as long
  as uploaded chunks get keys behind those the subscription has sent or is about to send, no item of
  a snapshot is missed.
-/
theorem subscribePush_misses_nothing {cfg : Config} {db : DB} {sys : PushSystem}
    (hReach : PushReachable cfg PushFresh db sys) : sys.Delivered := by
  have hInv := hReach.invariant (fun sys =>
      ∃ entries, Pushing sys.db.store sys.sub entries)
    ⟨[], .start db.store⟩
    (by
      rintro event before after ⟨entries, hPushing⟩ hFresh hStep
      cases event with
      | put chs clock =>
        rcases hStep with ⟨hClock, -, -, hDB, hSub⟩
        rw [hDB, hSub]
        exact ⟨entries, hPushing.put hClock hFresh⟩
      | iterate =>
        rw [hStep]
        exact ⟨entries, hPushing.iterate⟩
      | advance selected =>
        rw [hStep]
        exact hPushing.advance selected
      | quit =>
        rw [hStep]
        exact ⟨entries, hPushing.quit⟩)
  rcases hInv with ⟨entries, hPushing⟩
  exact hPushing.delivered

/- An upload at time one. -/
def PushSystem.uploaded (sys : PushSystem) (ch : Chunk) : PushSystem :=
  { sys with
    db := ((put smallConfig .upload [ch]).run (fun _ => 1) sys.db).state
    time := 1 }

theorem PushReachable.uploaded (hReach : PushReachable smallConfig allowed db sys)
    (hTime : sys.time ≤ 1)
    (ch : Chunk) (hAllowed : allowed (.put [ch] fun _ => 1) sys) :
    PushReachable smallConfig allowed db (sys.uploaded ch) :=
  .step (.put [ch] fun _ => 1) hReach hAllowed ⟨monotone_const, hTime, fun _ => le_refl 1, rfl, rfl⟩

/- One chunk is uploaded, and its item is sent. -/
def pushedRun : PushSystem :=
  let stored := ({ db := .empty } : PushSystem).uploaded (smallChunk 2 0 1)
  let started := stored.sub.iterate stored.db.store
  { stored with sub := started.advance stored.db.store .send }

theorem pushedRun_reachable
    (hAllowed : allowed (.put [smallChunk 2 0 1] fun _ => 1) { db := .empty })
    (hOther : ∀ sys, allowed .iterate sys ∧ allowed (.advance .send) sys) :
    PushReachable smallConfig allowed .empty pushedRun :=
  .step (.advance .send)
    (.step .iterate (PushReachable.uploaded .start (Nat.zero_le 1) _ hAllowed) (hOther _).1 rfl)
    (hOther _).2 rfl

theorem subscribePush_misses_nothing_pushedRun :
    ∃ ch,
      (pushItem (⟨1, 2⟩, 0), ch) ∈ (pushedRun.sub.advance pushedRun.db.store .send).sent ∧
        ch.address = 2 := by
  have hReach : PushReachable smallConfig PushFresh .empty pushedRun := by
    refine pushedRun_reachable ?_ fun _ => ⟨trivial, trivial⟩
    intro ch _ _ key hMem
    cases hMem
  exact subscribePush_misses_nothing hReach .send _ _ rfl
    (fun hStopped => hStopped.1 rfl) rfl ⟨1, 2⟩ 0 (by decide)

/-
  The iteration ends, a chunk with a smaller address is uploaded at the same time, and the next
  iteration starts.
-/
def tiedRun : PushSystem :=
  let waiting : PushSystem :=
    { pushedRun with sub := pushedRun.sub.advance pushedRun.db.store .send }
  let stored := waiting.uploaded (smallChunk 1 1 1)
  { stored with sub := stored.sub.iterate stored.db.store }

theorem subscribePush_misses_tied_upload :
    ¬ ∀ (cfg : Config) (db : DB) (sys : PushSystem), PushReachable cfg (fun _ _ => True) db sys →
      sys.Delivered := by
  intro hAll
  have hPushed : PushReachable smallConfig (fun _ _ => True) .empty
        pushedRun := pushedRun_reachable trivial fun _ => ⟨trivial, trivial⟩
  have hTied : PushReachable smallConfig (fun _ _ => True) .empty
        tiedRun :=
    .step .iterate
      (PushReachable.uploaded (.step (.advance .send) hPushed trivial rfl) (le_refl 1) _ trivial)
      trivial rfl
  have hMissed :=
    hAll _ _ _ hTied .send _ _ rfl (fun hStopped => hStopped.1 rfl) rfl ⟨1, 1⟩ 0 (by decide)
  rcases hMissed with ⟨ch, hMem, -⟩
  have hItem :
      pushItem (⟨1, 1⟩, 0) ∈ (tiedRun.sub.advance tiedRun.db.store .send).sent.map Prod.fst :=
    List.mem_map_of_mem hMem
  exact absurd hItem (by decide)

end Sana.Localstore
