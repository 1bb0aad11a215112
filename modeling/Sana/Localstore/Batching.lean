import Sana.Localstore.Contents

/-
  What a successful put of one chunk promises.

  A put leaves a chunk alone when its stamp index is held with a timestamp that is not earlier, even
  if the chunk that held the index is stored no longer.

  A call with several chunks reads the database as it was before the first of them.  The chunks of a
  call can miss each other in their stamp indexes, when one displaces another, in their pins, and in
  the two sizes.

  Key definitions include:
    * `DB.Returns`
    * `Store.HoldsStamp`

  Key theorems include:
    * `data_planPut_eq_newData`
-/

---- The Data Index After A Put

namespace Sana.Localstore

open KeyValue Program Swarm

variable {cfg : Config} {s : Store} {ch : Chunk}

section

variable {mode : ModePut}
variable {clock : Clock}

@[simp] theorem data_onView_planPin : (onView a v (planPin s b).records).data = v.data := by
  by_cases hEq : b = a
  · subst hEq
    unfold planPin
    cases s.pinIndex.get b <;> cases s.retrievalAccessIndex.get b <;>
      cases s.retrievalDataIndex.get b <;> simp
  · rw [(about_planPin s b).onView_of_ne hEq]

@[simp] theorem data_onView_planUploadPin :
    (onView a v (planUploadPin mode s b).records).data = v.data := by
  unfold planUploadPin
  split
  · exact data_onView_planPin
  · rfl

theorem View.Stored.data (hStored : View.Stored po d v c w) : w.data = some d := by
  cases hStored <;> rfl

/- The value under which an accepted chunk is stored. -/
theorem data_planPut_eq_newData (hCons : s.Consistent cfg)
    (hOk : (planPut cfg mode s binIDs ch clock).outcome = .ok (exist, c))
    (hAccepts : s.accepts ch = true) :
    (onView ch.address (s.view ch.address)
      (planPut cfg mode s binIDs ch clock).records).data =
        some (newData cfg s binIDs ch (clock 0)) := by
  rcases planPut_accepted hOk hAccepts with
    ⟨previous, removal, c₁, c₂, hData, hReplaced, hBase, hPin, -, hPlan⟩
  rw [hPlan, onView_append, onView_append, onView_removal_of_data hReplaced hData]
  exact (stored_of_planStore (hCons _) hData hBase hPin).data

/- An accepted chunk is stored. -/
theorem data_planPut_of_accepts (hCons : s.Consistent cfg)
    (hOk : (planPut cfg mode s binIDs ch clock).outcome = .ok (exist, c))
    (hAccepts : s.accepts ch = true) :
    ∃ d, d.stamp = ch.stamp ∧ d.data = ch.data ∧
      (onView ch.address (s.view ch.address)
        (planPut cfg mode s binIDs ch clock).records).data = some d :=
  ⟨_, rfl, rfl, data_planPut_eq_newData hCons hOk hAccepts⟩

/- A chunk that is not accepted changes no data. -/
theorem data_planPut_of_not_accepts
    (hOk : (planPut cfg mode s binIDs ch clock).outcome = .ok (exist, c))
    (hAccepts : s.accepts ch = false) (a : Address) (v : View) :
    (onView a v (planPut cfg mode s binIDs ch clock).records).data = v.data := by
  rw [(planPut_refused hOk hAccepts).2]
  exact data_onView_planUploadPin

/- A put of one chunk follows the plan of that chunk. -/
theorem planPutAll_singleton (hResult : (planPutAll cfg mode s [] [ch] {} clock).result = .ok st) :
    ∃ exist c, (planPut cfg mode s .empty ch clock).outcome = .ok (exist, c) ∧
      st.batch = (planPut cfg mode s .empty ch clock).records := by
  simp only [planPutAll, containsChunk, List.any_nil, Bool.false_eq_true, if_false] at hResult
  cases hOk : (planPut cfg mode s .empty ch clock).outcome with
  | error e => simp [hOk] at hResult
  | ok result =>
    rcases result with ⟨exist, c⟩
    simp only [hOk] at hResult
    cases hResult
    exact ⟨exist, c, rfl, rfl⟩

/- The stored chunks after a put of one chunk: it is stored itself, or nothing changes. -/
theorem data_of_put (hCons : s.Consistent cfg) (hStep : StoreStep cfg s (.put mode [ch]) s') :
    (s.accepts ch = true ∧
        ∃ d, d.stamp = ch.stamp ∧ d.data = ch.data ∧
          s'.retrievalDataIndex.get ch.address = some d) ∨
      (s.accepts ch = false ∧ ∀ a, s'.retrievalDataIndex.get a = s.retrievalDataIndex.get a) := by
  cases hStep with
  | putExisting _ _ _ hHas => exact Or.inr ⟨by simp [Store.accepts, hHas], fun _ => rfl⟩
  | put _ _ clock st hResult =>
    rcases planPutAll_singleton hResult with ⟨exist, c, hOk, hBatch⟩
    have hView :
        ∀ a,
          ((s.writeBatch (st.allRecords s)).view a) =
            onView a (s.view a) (planPut cfg mode s .empty ch clock).records := by
      intro a
      rw [view_writeBatch, onView_allRecords, hBatch]
    cases hAccepts : s.accepts ch with
    | true =>
      rcases data_planPut_of_accepts hCons hOk hAccepts with ⟨d, hStamp, hBytes, hData⟩
      rw [← hView] at hData
      exact Or.inl ⟨rfl, d, hStamp, hBytes, hData⟩
    | false =>
      refine Or.inr ⟨rfl, fun a => ?_⟩
      have hData := data_planPut_of_not_accepts hOk hAccepts a (s.view a)
      rw [← hView] at hData
      exact hData

end

---- Acknowledgement

/- A read of an address returns some data. -/
def DB.Returns (db : DB) (a : Address) (data : List UInt8) : Prop :=
  ∀ clock, ∃ item, ((getItem a).run clock db).value = .ok item ∧ item.data = data

/- Some stored chunk is stamped like `ch`, with a timestamp that is not older. -/
def Store.HoldsStamp (s : Store) (ch : Chunk) : Prop :=
  ∃ a d, s.retrievalDataIndex.get a = some d ∧ d.stamp.batchID = ch.stamp.batchID ∧
    d.stamp.index = ch.stamp.index ∧ ch.stamp.timestamp ≤ d.stamp.timestamp

/- The address of `ch` is stored with other data. -/
def Store.Differs (s : Store) (ch : Chunk) : Prop :=
  ∃ d, s.retrievalDataIndex.get ch.address = some d ∧ d.data ≠ ch.data

/-
  The address of `ch` is not stored, and its stamp index is recorded with a timestamp that is not
  earlier.
-/
def Store.Refuses (s : Store) (ch : Chunk) : Prop :=
  s.retrievalDataIndex.get ch.address = none ∧
    ∃ previous,
      s.postageIndexIndex.get ch.stampKey = some previous ∧ ch.stamp.timestamp ≤ previous.timestamp

/- A put of `ch` can be acknowledged: what stands against it is a chunk that is really stored. -/
def Store.Acknowledges (s : Store) (ch : Chunk) : Prop :=
  s.Differs ch ∨ s.Refuses ch → s.HoldsStamp ch

theorem returns_iff (db : DB) :
    db.Returns a data ↔ ∃ d, db.store.retrievalDataIndex.get a = some d ∧ d.data = data := by
  unfold DB.Returns
  simp only [run_getItem]
  cases db.store.retrievalDataIndex.get a with
  | none => simp
  | some d => simp [readItem]

theorem refuses_iff (hData : s.retrievalDataIndex.get ch.address = none) :
    s.Refuses ch ↔ s.accepts ch = false := by
  unfold Store.Refuses Store.accepts
  cases s.postageIndexIndex.get ch.stampKey <;> simp [Index.has, hData]

theorem holdsStamp_congr {s' : Store}
    (hSame : ∀ a, s'.retrievalDataIndex.get a = s.retrievalDataIndex.get a) :
    s'.HoldsStamp ch ↔ s.HoldsStamp ch := by
  simp only [Store.HoldsStamp, hSame]

/- An accepted chunk meets no resistance. -/
theorem acknowledges_of_accepts (hAccepts : s.accepts ch = true) : s.Acknowledges ch := by
  have hData : s.retrievalDataIndex.get ch.address = none := by
    unfold Store.accepts at hAccepts
    simp only [Bool.and_eq_true, Bool.not_eq_true'] at hAccepts
    simpa [Index.has] using hAccepts.1
  rintro (⟨d, hSome, -⟩ | hRefuses)
  · rw [hData] at hSome
    cases hSome
  · rw [(refuses_iff hData).mp hRefuses] at hAccepts
    cases hAccepts

/-
  A successful put of one chunk is followed by reads of its data, or a chunk with the same stamp
  index and no older timestamp is stored, exactly when nothing but stored chunks stands against it.
-/
theorem put_acknowledges_iff {cfg : Config} {db : DB} (hReach : Reachable cfg (fun _ _ => True) db)
    (mode : ModePut) (ch : Chunk) (clock : Clock)
    (hOk : succeeded ((put cfg mode [ch]).run clock db).value = true) :
    let after := ((put cfg mode [ch]).run clock db).state
    (after.Returns ch.address ch.data ∨ after.store.HoldsStamp ch) ↔ db.store.Acknowledges ch := by
  intro after
  have hCons := hReach.consistent
  have hStep : StoreStep cfg db.store (.put mode [ch]) after.store := storeStep_of_put hOk
  rw [returns_iff]
  rcases data_of_put hCons hStep with ⟨hAccepts, d, hStamp, hBytes, hData⟩ | ⟨hAccepts, hSame⟩
  · exact iff_of_true (Or.inl ⟨d, hData, hBytes⟩) (acknowledges_of_accepts hAccepts)
  rw [hSame, holdsStamp_congr hSame]
  unfold Store.Acknowledges
  cases hData : db.store.retrievalDataIndex.get ch.address with
  | none =>
    have hRefuses := (refuses_iff hData).mpr hAccepts
    have hNot : ¬ db.store.Differs ch := by
      rintro ⟨d, hSome, -⟩
      rw [hData] at hSome
      cases hSome
    simp [hRefuses, hNot]
  | some d =>
    have hNot : ¬ db.store.Refuses ch := by
      rintro ⟨hNone, -⟩
      rw [hData] at hNone
      cases hNone
    have hDiffers : db.store.Differs ch ↔ d.data ≠ ch.data := by simp [Store.Differs, hData]
    simp only [Option.some.injEq, exists_eq_left', hNot, or_false, hDiffers]
    by_cases hEq : d.data = ch.data <;> simp [hEq]

/- A run that stores and removes one chunk. -/
def storedRemovedRun : DB :=
  (DB.empty.after smallConfig (fun _ => 1)
    (.put .sync [smallChunk 1 0 1])).after smallConfig (fun _ => 2) (.set .remove [1])

/- With another stamp index the chunk is stored again. -/
theorem put_acknowledges_storedRemovedRun : let after :=
      ((put smallConfig .sync [smallChunk 1 1 1]).run (fun _ => 3) storedRemovedRun).state
    after.Returns 1 [1] ∨ after.store.HoldsStamp (smallChunk 1 1 1) := by
  have hReach : Reachable smallConfig (fun _ _ => True)
        storedRemovedRun := (Reachable.after .start _ _ trivial (by decide)).after
      _ _ trivial (by decide)
  exact (put_acknowledges_iff hReach .sync (smallChunk 1 1 1) (fun _ => 3) (by decide)).mpr
    (acknowledges_of_accepts (by decide))

/- With the same stamp index it is not, without any error. -/
theorem put_unacknowledged_of_remove :
    ¬ ∀ (cfg : Config) (db : DB) (mode : ModePut) (ch : Chunk) (clock : Clock),
      Reachable cfg (fun _ _ => True) db →
      succeeded ((put cfg mode [ch]).run clock db).value = true →
      let after := ((put cfg mode [ch]).run clock db).state
      after.Returns ch.address ch.data ∨ after.store.HoldsStamp ch := by
  intro hAll
  have hReach : Reachable smallConfig (fun _ _ => True)
        storedRemovedRun := (Reachable.after .start _ _ trivial (by decide)).after
      _ _ trivial (by decide)
  have hNone :
      ∀ a d,
        ((put smallConfig .sync [smallChunk 1 0 1]).run (fun _ => 3)
          storedRemovedRun).state.store.retrievalDataIndex.get a ≠ some d := by
    intro a d hSome
    have hMem := (Index.mem_entries_iff _ _ _).mpr hSome
    cases hMem
  rcases hAll smallConfig storedRemovedRun .sync
    (smallChunk 1 0 1) (fun _ => 3) hReach (by decide) with hReturns | ⟨a, d, hSome, -⟩
  · rcases (returns_iff _).mp hReturns with ⟨d, hSome, -⟩
    exact hNone _ d hSome
  · exact hNone a d hSome

end Sana.Localstore

---- One After The Other

namespace Sana.Localstore

open KeyValue Program Swarm

variable {cfg : Config} {mode : ModePut} {s : Store} {a : Address} {ch : Chunk} {seen : List Chunk}
variable {clock : Clock} {exist : Bool} {c : Int}

/- One call for each chunk. -/
def putEach (cfg : Config) (mode : ModePut) : List Chunk → Call DB (Except Err (List Bool))
| [] => return .ok []
| ch :: chs => do
    match ← put cfg mode [ch] with
    | .error e => return .error e
    | .ok exist =>
      match ← putEach cfg mode chs with
      | .error e => return .error e
      | .ok rest => return .ok (exist ++ rest)

/- The database after a call with one chunk. -/
def Store.afterOne (t : Store) (plan : PutPlan) (c : Int) : Store :=
  t.writeBatch (plan.records ++ (plan.binIDs.entries.map fun entry =>
        .binID entry.1 entry.2) ++
      sizeRecords .gcSize t.gcSize c)

/- Successful calls, one for each chunk, and their flags. -/
inductive EachRun (cfg : Config) (mode : ModePut) :
    Store → Clock → List Chunk → List Bool → Store → Prop
    where
  | nil (t : Store) (clock : Clock) : EachRun cfg mode t clock [] [] t
  | cons {t t' : Store} {clock : Clock} {ch : Chunk} {chs : List Chunk} {exist : Bool}
      {flags : List Bool} {c : Int}
      (hOk : (planPut cfg mode t .empty ch clock).outcome = .ok (exist, c))
      (hRest :
        EachRun cfg mode (t.afterOne (planPut cfg mode t .empty ch clock) c)
          (clock.drop (planPut cfg mode t .empty ch clock).readings) chs flags t') :
      EachRun cfg mode t clock (ch :: chs) (exist :: flags) t'

theorem planPut_of_has (hMode : mode ≠ .unknown) (hPlain : mode ≠ .uploadPin)
    (hHas : s.retrievalDataIndex.has ch.address = true) : planPut cfg mode s binIDs ch clock =
      { records := []
        binIDs := binIDs
        outcome := .ok (true, 0) } := by
  cases mode <;> first
      | exact absurd rfl hMode
      | exact absurd rfl hPlain
      | simp [planPut, planAround, hHas]

/- A put call, whether or not it takes the lock. -/
theorem run_put_eq (hMode : mode ≠ .unknown) (chs : List Chunk) (clock : Clock) (db : DB) :
    let plan := planPutAll cfg mode db.store [] chs {} clock
    let call := (put cfg mode chs).run clock db
    call.value = plan.result.map PutState.exist ∧ call.clock = clock.drop plan.readings ∧
      call.state.store = db.store.afterPut plan := by
  intro plan call
  have hLocked := run_putLocked cfg mode chs clock db
  simp only [planPutLocked, if_neg hMode] at hLocked
  unfold call
  rw [run_put]
  cases hFast : fastPathChunk mode chs with
  | none =>
    rw [hLocked]
    exact ⟨rfl, rfl, rfl⟩
  | some ch =>
    dsimp only
    cases hHas : db.store.retrievalDataIndex.has ch.address with
    | false =>
      rw [hLocked]
      exact ⟨rfl, rfl, rfl⟩
    | true =>
      rcases fastPathChunk_eq_some hFast with ⟨rfl, hPlain⟩
      have hNothing : ((.empty : BinIDs).entries.map fun entry =>
            Write.binID entry.1 entry.2) = [] := by
        decide
      simp [plan, planPutAll, containsChunk, planPut_of_has hMode hPlain hHas, Except.map,
        Store.afterPut, PutState.allRecords, hNothing, sizeRecords]

/- A call with one chunk, in the form of a step. -/
theorem run_put_singleton (hMode : mode ≠ .unknown)
    (hValue : ((put cfg mode [ch]).run clock db).value = .ok flags) : ∃ exist c,
      let plan := planPut cfg mode db.store .empty ch clock
      plan.outcome = .ok (exist, c) ∧ flags = [exist] ∧
        ((put cfg mode [ch]).run clock db).clock = clock.drop plan.readings ∧
        ((put cfg mode [ch]).run clock db).state.store = db.store.afterOne plan c := by
  rcases run_put_eq hMode [ch] clock db with ⟨hExist, hClock, hStore⟩
  rw [hExist] at hValue
  simp only [planPutAll, containsChunk, List.any_nil,
    Bool.false_eq_true, if_false] at hValue hClock hStore
  cases hOk : (planPut cfg mode db.store .empty ch clock).outcome with
  | error e => simp [hOk, Except.map] at hValue
  | ok result =>
    rcases result with ⟨exist, c⟩
    simp only [hOk, Except.map, Except.ok.injEq, List.nil_append] at hValue hClock hStore
    refine ⟨exist, c, hOk, hValue.symm, ?_, ?_⟩
    · rw [hClock, Nat.add_zero]
    · rw [hStore]
      simp [Store.afterPut, PutState.allRecords, Store.afterOne]

theorem eachRun_of_putEach (hMode : mode ≠ .unknown)
    (hValue : ((putEach cfg mode chs).run clock db).value = .ok flags) :
    EachRun cfg mode db.store clock chs flags
      ((putEach cfg mode chs).run clock db).state.store := by
  induction chs generalizing clock db flags with
  | nil =>
    cases hValue
    exact .nil _ _
  | cons ch chs ih =>
    simp only [putEach, Call.run_bind] at hValue ⊢
    cases hFirst : ((put cfg mode [ch]).run clock db).value with
    | error e => simp [hFirst] at hValue
    | ok first =>
      simp only [hFirst, Call.run_bind] at hValue ⊢
      rcases run_put_singleton hMode hFirst with ⟨exist, c, hOk, rfl, hClock, hStore⟩
      cases hRest :
          ((putEach cfg mode chs).run ((put cfg mode [ch]).run clock db).clock
            ((put cfg mode [ch]).run clock db).state).value with
      | error e => simp [hRest] at hValue
      | ok rest =>
        simp only [hRest, Call.run_pure, Except.ok.injEq] at hValue ⊢
        have hRun := ih hRest
        rw [hStore, hClock] at hRun
        rw [← hValue, hClock]
        exact .cons hOk hRun

---- Chunks That Do Not Miss Each Other

/- The first chunk of each address. -/
def firstChunks (chs : List Chunk) : List Chunk :=
  chs.foldl (fun firsts ch =>
      if containsChunk ch.address firsts then firsts
      else firsts ++ [ch])
    []

/- The chunks of a call that are stored. -/
def Store.taken (s : Store) (chs : List Chunk) : List Chunk :=
  (firstChunks chs).filter s.accepts

/- A chunk of the call displaces the chunk of an address. -/
def Store.gone (s : Store) (chs : List Chunk) (a : Address) : Bool :=
  (s.taken chs).any fun ch => s.displaced ch = some a

/- An address is stored after the chunks of a call. -/
def Store.holdsAfter (s : Store) (chs : List Chunk) (a : Address) : Bool :=
  s.retrievalDataIndex.has a && !s.gone chs a || containsChunk a (s.taken chs)

/-
  A chunk finds what the chunks before it in the same call leave: it is still stored if it was
  stored or is a repeat, and no stored chunk has taken its stamp index.
-/
structure Store.Clear (s : Store) (seen : List Chunk) (ch : Chunk) : Prop where
  stored :
    containsChunk ch.address seen = true ∨ s.retrievalDataIndex.has ch.address = true →
      s.holdsAfter seen ch.address = true
  stamp :
    containsChunk ch.address seen = false → s.accepts ch = true →
      ∀ c ∈ s.taken seen, c.stampKey ≠ ch.stampKey

/- How often an address occurs in a call. -/
def occurrences (a : Address) (chs : List Chunk) : Nat :=
  chs.countP fun ch => ch.address = a

/-
  The conditions under which the chunks of one call do not miss each other: each of them is clear of
  those before it; an upload in pin mode repeats no chunk, unless the chunk is displaced in the same
  call and was not collectable; and the changes of the two sizes come to the same when they are
  applied one after the other.
-/
structure Store.Independent (cfg : Config) (mode : ModePut) (s : Store)
    (chs : List Chunk) : Prop where
  clear : ∀ seen ch rest, chs = seen ++ ch :: rest → s.Clear seen ch
  pins : mode = .uploadPin → ∀ a, 0 < occurrences a chs → if s.gone chs a then s.inGC a = false
      else occurrences a chs = 1
  reserveSize :
    ((firstChunks chs).map (s.reserveChange cfg mode)).foldl adjusted s.reserveSize =
      ((firstChunks chs).map (s.reserveChange cfg mode)).foldl
        (overwritten s.reserveSize) s.reserveSize
  gcSize :
    ((firstChunks chs).map (s.gcChange cfg mode)).foldl adjusted s.gcSize =
      adjusted s.gcSize ((firstChunks chs).map (s.gcChange cfg mode)).sum

/- The flags that a call with several chunks returns. -/
def Store.existFlags (s : Store) : List Chunk → List Chunk → List Bool
| _, [] => []
| seen, ch :: chs =>
  (containsChunk ch.address seen || s.retrievalDataIndex.has ch.address) ::
    s.existFlags (seen ++ [ch]) chs

@[simp] theorem containsChunk_append (a : Address) (first second : List Chunk) :
    containsChunk a (first ++ second) = (containsChunk a first || containsChunk a second) :=
  List.any_append

@[simp] theorem containsChunk_singleton : containsChunk a [ch] = (a == ch.address) := by
  simp [containsChunk]

theorem containsChunk_of_mem (hMem : ch ∈ seen) : containsChunk ch.address seen = true := by
  simp only [containsChunk, List.any_eq_true]
  exact ⟨ch, hMem, beq_self_eq_true _⟩

theorem firstChunks_snoc :
    firstChunks (seen ++ [ch]) = if containsChunk ch.address (firstChunks seen) then
        firstChunks seen
      else firstChunks seen ++ [ch] := by
  unfold firstChunks
  rw [List.foldl_append]
  rfl

theorem containsChunk_firstChunks (a : Address) (chs : List Chunk) :
    containsChunk a (firstChunks chs) = containsChunk a chs := by
  induction chs using List.reverseRecOn with
  | nil => rfl
  | append_singleton seen ch ih =>
    rw [firstChunks_snoc, containsChunk_append, ← ih]
    split
    · next hSeen =>
        cases hEq : a == ch.address with
        | true =>
          rw [eq_of_beq hEq, hSeen]
          rfl
        | false => simp [hEq]
    · rw [containsChunk_append]

/- A repeat changes nothing. -/
theorem firstChunks_of_seen (hSeen : containsChunk ch.address seen = true) :
    firstChunks (seen ++ [ch]) = firstChunks seen := by
  rw [firstChunks_snoc, containsChunk_firstChunks, if_pos hSeen]

theorem firstChunks_of_not_seen (hSeen : containsChunk ch.address seen = false) :
    firstChunks (seen ++ [ch]) = firstChunks seen ++ [ch] := by
  rw [firstChunks_snoc, containsChunk_firstChunks, hSeen]
  rfl

theorem taken_of_seen (hSeen : containsChunk ch.address seen = true) :
    s.taken (seen ++ [ch]) = s.taken seen := by
  unfold Store.taken
  rw [firstChunks_of_seen hSeen]

theorem taken_of_not_seen (hSeen : containsChunk ch.address seen = false) :
    s.taken (seen ++ [ch]) = s.taken seen ++ if s.accepts ch then [ch] else [] := by
  unfold Store.taken
  rw [firstChunks_of_not_seen hSeen]
  cases hAccepts : s.accepts ch <;> simp [hAccepts]

/- Stored chunks stay among the stored ones. -/
theorem taken_mono (rest : List Chunk) (hMem : ch ∈ s.taken seen) :
    ch ∈ s.taken (seen ++ rest) := by
  induction rest using List.reverseRecOn with
  | nil => simpa using hMem
  | append_singleton rest c ih =>
    rw [← List.append_assoc]
    cases hSeen : containsChunk c.address (seen ++ rest) with
    | true =>
      rw [taken_of_seen hSeen]
      exact ih
    | false =>
      rw [taken_of_not_seen hSeen]
      exact List.mem_append_left _ ih

theorem accepts_of_mem_taken (hMem : ch ∈ s.taken seen) : s.accepts ch = true :=
  (List.mem_filter.mp hMem).2

theorem containsChunk_of_mem_taken (hMem : ch ∈ s.taken seen) :
    containsChunk ch.address seen = true := by
  rw [← containsChunk_firstChunks]
  exact containsChunk_of_mem (List.mem_filter.mp hMem).1

/- Only chunks that are not stored are accepted. -/
theorem has_of_accepts (hAccepts : s.accepts ch = true) :
    s.retrievalDataIndex.has ch.address = false := by
  unfold Store.accepts at hAccepts
  simp only [Bool.and_eq_true, Bool.not_eq_true'] at hAccepts
  exact hAccepts.1

theorem containsChunk_taken_of_has (hHas : s.retrievalDataIndex.has a = true) :
    containsChunk a (s.taken seen) = false := by
  cases hContains : containsChunk a (s.taken seen) with
  | false => rfl
  | true =>
    simp only [containsChunk, List.any_eq_true, beq_iff_eq] at hContains
    rcases hContains with ⟨c, hMem, rfl⟩
    have hNot := has_of_accepts (accepts_of_mem_taken hMem)
    rw [hHas] at hNot
    cases hNot

---- Stamps And Data After One Chunk

section

variable {binIDs : BinIDs}
variable {previous : Previous}

/- Ordinary records leave the stamp indexes alone. -/
theorem stamps_of_ordinary (hAll : batch.all Write.ordinary = true) (w : Store) :
    (w.writeBatch batch).postageIndexIndex = w.postageIndexIndex := by
  refine writeBatch_keeps Store.postageIndexIndex (fun record hMem w => ?_) w
  have hOne := List.all_eq_true.mp hAll record hMem
  cases record with
  | postageIndex key value => cases hOne
  | _ => rfl

theorem stamps_planStore (w : Store) :
    (w.writeBatch
      (planStore cfg mode s binIDs ch previous
        clock).records).postageIndexIndex =
          w.postageIndexIndex.set ch.stampKey (some ⟨ch.address, ch.stamp.timestamp⟩) := by
  cases hMode : mode.releases with
  | true =>
    have hLast : ∀ (w : Store) (item : Item) (keep : Plan),
        (w.writeBatch (pulledLast cfg mode item keep)).postageIndexIndex =
          w.postageIndexIndex := by
      intro w item keep
      refine writeBatch_keeps Store.postageIndexIndex (fun record hMem w => ?_) w
      rw [eq_of_mem_pulledLast hMem]
      rfl
    rw [planStore_eq hMode]
    simp only [Store.writeBatch_append, Store.writeBatch_cons]
    rw [hLast, stamps_of_ordinary (ordinary_planPreserve _ _ _),
      ← stamps_of_ordinary (ordinary_planRelease previous) w]
    unfold pulledFirst
    split <;> rfl
  | false =>
    rw [planStore_of_uploads hMode]
    rfl

/- An accepted chunk takes its stamp index. -/
theorem stamps_planPut (hOk : (planPut cfg mode s binIDs ch clock).outcome = .ok (exist, c))
    (w : Store) :
    (w.writeBatch
      (planPut cfg mode s binIDs ch clock).records).postageIndexIndex = if s.accepts ch then
            w.postageIndexIndex.set ch.stampKey (some ⟨ch.address, ch.stamp.timestamp⟩)
          else w.postageIndexIndex := by
  cases hAccepts : s.accepts ch with
  | false =>
    rw [(planPut_refused hOk hAccepts).2, stamps_of_ordinary (ordinary_planUploadPin _)]
    rfl
  | true =>
    rcases planPut_accepted hOk hAccepts with
      ⟨previous, removal, -, -, -, hReplaced, -, -, -, hPlan⟩
    rw [hPlan, Store.writeBatch_append, stamps_of_ordinary (ordinary_planUploadPin _),
      Store.writeBatch_append, stamps_planStore]
    cases hReplaced with
    | absent hIndex => rfl
    | removed p c hDisplaced hChange =>
      rw [stamps_of_ordinary (ordinary_planRemove p)]
      rfl

/- A chunk that is stored now did not exist. -/
theorem exist_planStore
    (hOk : (planStore cfg mode s binIDs ch previous clock).outcome = .ok (exist, c)) :
    exist = false := by
  cases hMode : mode.releases with
  | true =>
    rcases change_of_releases hMode hOk with ⟨-, -, hExist, -⟩
    exact hExist
  | false =>
    rw [planStore_of_uploads hMode] at hOk
    cases hOk
    rfl

/- The flag tells whether the chunk was stored. -/
theorem exist_planPut (hOk : (planPut cfg mode s binIDs ch clock).outcome = .ok (exist, c)) :
    exist = s.retrievalDataIndex.has ch.address := by
  rcases planPut_cases hOk with ⟨base, c₁, c₂, hCase, hBase, -, -, -⟩
  cases hCase with
  | existed hHas =>
    cases hBase
    rw [hHas]
  | kept hData hAccepts =>
    cases hBase
    rw [(Index.has_eq_false_iff _ _).mpr hData]
  | stored previous removal hData hAccepts hReplaced =>
    rw [(Index.has_eq_false_iff _ _).mpr hData]
    exact exist_planStore hBase

theorem data_onView_planRemove (hChange : (planRemove cfg s p).change = .ok c) :
    (onView p v (planRemove cfg s p).records).data = none := by
  unfold planRemove at hChange ⊢
  cases hData : s.retrievalDataIndex.get p with
  | none => simp [hData] at hChange
  | some d =>
    dsimp only
    split <;> simp [Store.gcKeyOf]

/- A displaced address sees a removal and nothing else. -/
theorem onView_planPut_of_displaced
    (hOk : (planPut cfg mode s binIDs ch clock).outcome = .ok (exist, c)) (hNe : ch.address ≠ a)
    (hDisplaced : s.displaced ch = some a) :
    ∃ c', (planRemove cfg s a).change = .ok c' ∧
      ∀ v,
        onView a v (planPut cfg mode s binIDs ch clock).records =
          onView a v (planRemove cfg s a).records := by
  rcases planPut_accepted hOk (accepts_of_displaced hDisplaced) with
    ⟨previous, removal, -, -, -, hReplaced, -, -, -, hPlan⟩
  rcases displaced_of_replaced hReplaced a hDisplaced with ⟨c', -, hChange, rfl⟩
  refine ⟨c', hChange, fun v => ?_⟩
  rw [hPlan, onView_append, (about_planUploadPin ch.address).onView_of_ne hNe,
    onView_append, about_planStore.onView_of_ne hNe]

/- Another address loses its data when it is displaced. -/
theorem data_planPut_of_ne
    (hOk : (planPut cfg mode s binIDs ch clock).outcome = .ok (exist, c)) (hNe : ch.address ≠ a)
    (v : View) :
    (onView a v
      (planPut cfg mode s binIDs ch clock).records).data = if s.displaced ch = some a then none
        else v.data := by
  by_cases hDisplaced : s.displaced ch = some a
  · rw [if_pos hDisplaced]
    rcases onView_planPut_of_displaced hOk hNe hDisplaced with ⟨c', hChange, hView⟩
    rw [hView]
    exact data_onView_planRemove hChange
  · rw [if_neg hDisplaced, onView_planPut_of_ne hOk hNe hDisplaced]

end

---- What A Call With Several Chunks Has Collected

/- The records of a call up to some chunk, as seen in the database they would leave. -/
structure Batched (cfg : Config) (mode : ModePut) (s : Store) (seen : List Chunk)
    (st : PutState) : Prop where
  view : ∀ a, PutView cfg mode s seen a (onView a (s.view a) st.batch)
  holds : ∀ a, (s.writeBatch st.batch).retrievalDataIndex.has a = s.holdsAfter seen a
  removed : ∀ c ∈ s.taken seen, ∀ p, s.displaced c = some p → s.retrievalDataIndex.has p = true
  unstamped :
    ∀ key, (∀ c ∈ s.taken seen, c.stampKey ≠ key) →
      (s.writeBatch st.batch).postageIndexIndex.get key = s.postageIndexIndex.get key
  stamped :
    ∀ c ∈ s.taken seen, ∃ c' ∈ s.taken seen,
      c'.stampKey = c.stampKey ∧
        (s.writeBatch st.batch).postageIndexIndex.get c.stampKey =
          some ⟨c'.address, c'.stamp.timestamp⟩
  records : ∀ record ∈ st.batch, PutRecord cfg s seen record
  ahead : BinIDs.Ahead s st.binIDs
  reserveSize :
    (s.writeBatch st.batch).reserveSize =
      ((firstChunks seen).map
        (s.reserveChange cfg mode)).foldl (overwritten s.reserveSize) s.reserveSize
  gcSizeChange : st.gcSizeChange = ((firstChunks seen).map (s.gcChange cfg mode)).sum

variable {st : PutState}

theorem gone_eq_true_iff : s.gone seen a = true ↔ ∃ c ∈ s.taken seen, s.displaced c = some a := by
  simp [Store.gone]

theorem batched_start : Batched cfg mode s [] {} where
  view := fun _ => .same
  holds := by
    simp [Store.holdsAfter, Store.gone, Store.taken, firstChunks, containsChunk]
  removed := by
    intro c hMem
    cases hMem
  unstamped := fun _ _ => rfl
  stamped := by
    intro c hMem
    cases hMem
  records := by
    intro record hMem
    cases hMem
  ahead := by
    intro po n hGet
    simp at hGet
  reserveSize := rfl
  gcSizeChange := rfl

/- A repeat adds nothing. -/
theorem Batched.skip (hBatched : Batched cfg mode s seen st)
    (hSeen : containsChunk ch.address seen = true) (exist : List Bool) :
    Batched cfg mode s (seen ++ [ch]) { st with exist := exist } := by
  have hTaken : s.taken (seen ++ [ch]) = s.taken seen := taken_of_seen hSeen
  have hFirsts := firstChunks_of_seen hSeen
  constructor
  · exact fun a => (hBatched.view a).mono fun _ hMem => List.mem_append_left _ hMem
  · intro a
    unfold Store.holdsAfter Store.gone
    rw [hTaken]
    exact hBatched.holds a
  · rw [hTaken]
    exact hBatched.removed
  · rw [hTaken]
    exact hBatched.unstamped
  · rw [hTaken]
    exact hBatched.stamped
  · exact fun record hMem =>
      (hBatched.records record hMem).mono fun _ hMem => List.mem_append_left _ hMem
  · exact hBatched.ahead
  · rw [hFirsts]
    exact hBatched.reserveSize
  · rw [hFirsts]
    exact hBatched.gcSizeChange

/- The chunk that is displaced is stored. -/
theorem has_of_displaced (hOk : (planPut cfg mode s binIDs ch clock).outcome = .ok (exist, c))
    (hDisplaced : s.displaced ch = some p) : s.retrievalDataIndex.has p = true := by
  rcases planPut_accepted hOk (accepts_of_displaced hDisplaced) with ⟨_, _, _, _, _, hReplaced, -⟩
  rcases displaced_of_replaced hReplaced p hDisplaced with ⟨c', -, hChange, -⟩
  exact (Index.has_eq_true_iff _ _).mpr (data_of_planRemove hChange)

section Step

variable (hCons : s.Consistent cfg)
variable (hBatched : Batched cfg mode s seen st)
variable (hSeen : containsChunk ch.address seen = false)
variable (hOk : (planPut cfg mode s st.binIDs ch clock).outcome = .ok (exist, c))

include hBatched hSeen in
/- A chunk that is not stored is met as it was. -/
theorem Batched.view_of_data (hData : s.retrievalDataIndex.get ch.address = none) :
    (s.writeBatch st.batch).view ch.address = s.view ch.address := by
  rw [view_writeBatch]
  exact (hBatched.view ch.address).eq_of_data hData hSeen

include hCons hBatched hSeen hOk in
theorem Batched.holds_step (a : Address) :
    (s.writeBatch
      (st.batch ++
        (planPut cfg mode s st.binIDs ch
          clock).records)).retrievalDataIndex.has a = s.holdsAfter (seen ++ [ch]) a := by
  have hBefore :
      ((s.writeBatch st.batch).view a).data.isSome = s.holdsAfter seen a := hBatched.holds a
  have hView :
      (s.writeBatch
        (st.batch ++ (planPut cfg mode s st.binIDs ch clock).records)).retrievalDataIndex.has a =
        (onView a ((s.writeBatch st.batch).view a)
          (planPut cfg mode s st.binIDs ch clock).records).data.isSome := by
    rw [Store.writeBatch_append, ← view_writeBatch]
    rfl
  rw [hView]
  cases hAccepts : s.accepts ch with
  | false =>
    rw [data_planPut_of_not_accepts hOk hAccepts]
    unfold Store.holdsAfter Store.gone at hBefore ⊢
    rw [taken_of_not_seen hSeen, hAccepts]
    simpa using hBefore
  | true =>
    have hTaken : s.taken (seen ++ [ch]) = s.taken seen ++ [ch] := by
      rw [taken_of_not_seen hSeen, hAccepts]
      rfl
    by_cases hEq : ch.address = a
    · subst hEq
      have hData := (Index.has_eq_false_iff _ _).mp (has_of_accepts hAccepts)
      rcases data_planPut_of_accepts hCons hOk hAccepts with ⟨d, -, -, hSome⟩
      rw [hBatched.view_of_data hSeen hData, hSome]
      simp [Store.holdsAfter, hTaken]
    · rw [data_planPut_of_ne hOk hEq]
      have hOther : (a == ch.address) = false := by simpa using fun h => hEq h.symm
      by_cases hDisplaced : s.displaced ch = some a
      · have hHas := has_of_displaced hOk hDisplaced
        simp [Store.holdsAfter, Store.gone, hTaken, hDisplaced, hOther,
          containsChunk_taken_of_has hHas]
      · rw [if_neg hDisplaced]
        unfold Store.holdsAfter Store.gone at hBefore ⊢
        rw [hTaken]
        simpa [hDisplaced, hOther] using hBefore

include hBatched hSeen hOk in
/- The stamp indexes belong to the stored chunks. -/
theorem Batched.stamps_step :
    let w := s.writeBatch (st.batch ++ (planPut cfg mode s st.binIDs ch clock).records)
    (∀ key,
      (∀ c ∈ s.taken (seen ++ [ch]), c.stampKey ≠ key) →
        w.postageIndexIndex.get key = s.postageIndexIndex.get key) ∧
    ∀ c ∈ s.taken (seen ++ [ch]),
      ∃ c' ∈ s.taken (seen ++ [ch]),
        c'.stampKey = c.stampKey ∧
          w.postageIndexIndex.get c.stampKey = some ⟨c'.address, c'.stamp.timestamp⟩ := by
  intro w
  have hStamps := stamps_planPut hOk (s.writeBatch st.batch)
  rw [← Store.writeBatch_append] at hStamps
  rw [hStamps, taken_of_not_seen hSeen]
  cases hAccepts : s.accepts ch with
  | false =>
    simp only [Bool.false_eq_true, if_false, List.append_nil]
    exact ⟨hBatched.unstamped, hBatched.stamped⟩
  | true =>
    simp only [if_true, Index.get_set]
    constructor
    · intro key hOther
      rw [if_neg (hOther ch (by simp))]
      exact hBatched.unstamped key fun c hMem => hOther c (List.mem_append_left _ hMem)
    · intro c hMem
      by_cases hKey : ch.stampKey = c.stampKey
      · exact ⟨ch, by simp, hKey, if_pos hKey⟩
      · rw [if_neg hKey]
        have hOld : c ∈ s.taken seen := by
          rcases List.mem_append.mp hMem with hMem | hMem
          · exact hMem
          · rw [List.mem_singleton.mp hMem] at hKey
            exact absurd rfl hKey
        rcases hBatched.stamped c hOld with ⟨c', hMem', hSame⟩
        exact ⟨c', List.mem_append_left _ hMem', hSame⟩

include hCons hBatched hSeen hOk in
/- One more chunk. -/
theorem Batched.step :
    Batched cfg mode s (seen ++ [ch])
      (st.next (planPut cfg mode s st.binIDs ch clock) exist c) := by
  have hRecords := putRecord_planPut hBatched.ahead hOk
  have hFirsts := firstChunks_of_not_seen hSeen
  have hTaken : s.taken (seen ++ [ch]) = _ := taken_of_not_seen hSeen
  constructor
  · intro a
    simp only [PutState.next, onView_append]
    exact putView_planPut hCons hSeen hOk (hBatched.view a)
  · exact hBatched.holds_step hCons hSeen hOk
  · intro c hMem p hDisplaced
    rw [hTaken, List.mem_append] at hMem
    rcases hMem with hMem | hMem
    · exact hBatched.removed c hMem p hDisplaced
    · split at hMem
      · rw [List.mem_singleton.mp hMem] at hDisplaced
        exact has_of_displaced hOk hDisplaced
      · cases hMem
  · exact (hBatched.stamps_step hSeen hOk).1
  · exact (hBatched.stamps_step hSeen hOk).2
  · intro record hMem
    rcases List.mem_append.mp hMem with hMem | hMem
    · exact (hBatched.records record hMem).mono fun _ hMem => List.mem_append_left _ hMem
    · exact (hRecords.1 record hMem).mono fun _ hMem => List.mem_append_right _ hMem
  · exact hRecords.2
  · simp only [PutState.next, Store.writeBatch_append]
    rw [reserveSize_planPut hOk, hBatched.reserveSize, hFirsts, List.map_append, List.foldl_append]
    rfl
  · have hChange := (change_planPut (hCons ch.address) hOk).2
    simp only [PutState.next]
    rw [hBatched.gcSizeChange, hChange, hFirsts, List.map_append, List.sum_append]
    simp

end Step

end Sana.Localstore
