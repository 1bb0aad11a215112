import Sana.Localstore.Pins
import Sana.Localstore.Sequential

/-
  Pin counters of repeated receipts and of missing chunks.

  A receipt for a stored chunk pins it and counts it into the reserve, however often it is
  delivered.  A pin is made from an address alone, so it can be made for a chunk that is not stored.

  Key definitions include:
    * `View.Tidy`
    * `PinsHeld`

  Key theorems include:
    * `setSync_idempotent_iff`
-/

---- Repeated Receipts

namespace Sana.Localstore

open KeyValue Program Swarm

variable {cfg : Config} {s : Store} {a : Address} {clock : Clock}

section

variable {d : RetrievalData}

/- A call with one address. -/
theorem afterSet_singleton :
    s.afterSet cfg mode [a] clock = match (planSet cfg mode s a (clock 0)).change with
      | .error _ => s
      | .ok c =>
        s.writeBatch
          ((planSet cfg mode s a (clock 0)).records ++ sizeRecords .gcSize s.gcSize c) := by
  cases hChange : (planSet cfg mode s a (clock 0)).change with
  | error e => simp [Store.afterSet, planSetAll, hChange]
  | ok c => simp [Store.afterSet, planSetAll, hChange, Except.map]

/- A stored chunk can be pinned. -/
theorem planPin_ok_of_stored (hData : s.retrievalDataIndex.get a = some d) :
    ∃ c, (planPin s a).change = .ok c := by
  unfold planPin
  cases s.pinIndex.get a with
  | some n => exact ⟨0, rfl⟩
  | none =>
    cases s.retrievalAccessIndex.get a with
    | none => exact ⟨0, rfl⟩
    | some time =>
      simp only [hData]
      exact ⟨-1, rfl⟩

/- Pinning touches the gc index and the pins only. -/
theorem planPin_touches (s t : Store) :
    (t.writeBatch (planPin s a).records).pushIndex = t.pushIndex ∧
      (t.writeBatch (planPin s a).records).retrievalDataIndex = t.retrievalDataIndex := by
  unfold planPin
  cases s.pinIndex.get a <;> cases s.retrievalAccessIndex.get a <;>
    cases s.retrievalDataIndex.get a <;> exact ⟨rfl, rfl⟩

theorem gcSize_touches (t : Store) :
    (t.writeBatch (sizeRecords .gcSize size c)).pushIndex = t.pushIndex ∧
      (t.writeBatch (sizeRecords .gcSize size c)).retrievalDataIndex = t.retrievalDataIndex := by
  unfold sizeRecords
  split
  · exact ⟨rfl, rfl⟩
  · cases changedSize size c <;> exact ⟨rfl, rfl⟩

/-
  A receipt for a stored chunk: it is counted, and its entry of the push index is deleted, so no tag
  stands in the way of the next receipt.
-/
theorem afterSet_sync_of_stored (clock : Clock) (hData : s.retrievalDataIndex.get a = some d)
    (hTag : syncTag cfg s a d = .ok ()) :
    let once := s.afterSet cfg .sync [a] clock
    once.reserveSize = s.reserveSize + 1 ∧ once.retrievalDataIndex.get a = some d ∧
      syncTag cfg once a d = .ok () := by
  intro once
  rcases planPin_ok_of_stored hData with ⟨c, hPin⟩
  have hPlan : (planSet cfg .sync s a (clock 0)).change = .ok c := by
    simp only [planSet, planSync, hData, hTag]
    cases s.retrievalAccessIndex.get a <;> exact hPin
  have hOnce :
      once =
        s.writeBatch
          ((planSet cfg .sync s a (clock 0)).records ++ sizeRecords .gcSize s.gcSize c) := by
    unfold once
    rw [afterSet_singleton, hPlan]
  have hPushed :
      once.pushIndex.get ⟨d.storeTimestamp, a⟩ = none ∧ once.retrievalDataIndex.get a = some d := by
    rw [hOnce, Store.writeBatch_append, (gcSize_touches _).1, (gcSize_touches _).2]
    simp only [planSet, planSync, hData, hTag]
    cases s.retrievalAccessIndex.get a <;>
      simp only [List.cons_append, List.nil_append,
        Store.writeBatch_cons, planPin_touches s _] <;> simp [Store.write, Index.get_set, hData]
  refine ⟨?_, hPushed.2, ?_⟩
  · rw [hOnce, Store.writeBatch_append, reserveSize_gcSize]
    simp only [planSet, planSync, hData, hTag]
    cases s.retrievalAccessIndex.get a <;> exact reserveSize_planPin _ a
  · simp only [syncTag, hPushed.1]

/- A receipt for a chunk that is not stored counts nothing. -/
theorem afterSet_sync_of_missing (hData : s.retrievalDataIndex.get a = none) :
    s.afterSet cfg .sync [a] clock = s.write (.push ⟨0, a⟩ none) := by
  rw [afterSet_singleton]
  simp [planSet, planSync, hData, sizeRecords]

/- A receipt whose tag cannot be counted changes nothing. -/
theorem afterSet_sync_of_error (hData : s.retrievalDataIndex.get a = some d)
    (hTag : syncTag cfg s a d = .error e) : s.afterSet cfg .sync [a] clock = s := by
  rw [afterSet_singleton]
  simp [planSet, planSync, hData, hTag]

/-
  A second receipt leaves the pin counter, the gc index and the two sizes alone exactly when the
  chunk is not stored, or its tag cannot be counted.
-/
theorem setSync_idempotent_iff (cfg : Config) (db : DB) (a : Address) (clock clock' : Clock) :
    let once := ((set cfg .sync [a]).run clock db).state
    let twice := ((set cfg .sync [a]).run clock' once).state
    (twice.store.pinIndex.get a = once.store.pinIndex.get a ∧
        twice.store.gcIndex = once.store.gcIndex ∧ twice.store.gcSize = once.store.gcSize ∧
        twice.store.reserveSize = once.store.reserveSize) ↔
      ∀ d, db.store.retrievalDataIndex.get a = some d →
        ∃ e, syncTag cfg db.store a d = .error e := by
  intro once twice
  have hOnce : once.store = db.store.afterSet cfg .sync [a] clock := by
    unfold once
    rw [run_set cfg .sync [a] (by decide)]
  have hTwice : twice.store = once.store.afterSet cfg .sync [a] clock' := by
    unfold twice
    rw [run_set cfg .sync [a] (by decide)]
  cases hData : db.store.retrievalDataIndex.get a with
  | none =>
    rw [afterSet_sync_of_missing hData] at hOnce
    have hStill : once.store.retrievalDataIndex.get a = none := by
      rw [hOnce]
      exact hData
    rw [hTwice, afterSet_sync_of_missing hStill]
    simp [Store.write]
  | some d =>
    cases hTag : syncTag cfg db.store a d with
    | error e =>
      rw [afterSet_sync_of_error hData hTag] at hOnce
      rw [hTwice, hOnce, afterSet_sync_of_error hData hTag]
      simp [hTag]
    | ok _ =>
      rcases afterSet_sync_of_stored clock hData hTag with ⟨-, hData', hTag'⟩
      rw [← hOnce] at hData' hTag'
      rcases afterSet_sync_of_stored clock' hData' hTag' with ⟨hSize, -, -⟩
      rw [← hTwice] at hSize
      simp [hSize, hTag]

/- The second receipt for an upload is counted again. -/
theorem setSync_counts_twice :
    ¬ ∀ (cfg : Config) (db : DB) (a : Address) (clock clock' : Clock),
      Reachable cfg (fun _ _ => True) db →
      let once := ((set cfg .sync [a]).run clock db).state
      let twice := ((set cfg .sync [a]).run clock' once).state
      twice.store.pinIndex.get a = once.store.pinIndex.get a ∧
        twice.store.gcIndex = once.store.gcIndex ∧ twice.store.gcSize = once.store.gcSize ∧
        twice.store.reserveSize = once.store.reserveSize := by
  intro hAll
  have hReach : Reachable smallConfig (fun _ _ => True) uploadedRun :=
    Reachable.after .start _ _ trivial (by decide)
  have hSame := (hAll smallConfig uploadedRun 1 (fun _ => 2) (fun _ => 3) hReach).1
  revert hSame
  decide

end

---- Pins Of Missing Chunks

/- Only a stored chunk is pinned. -/
def View.Tidy (v : View) : Prop :=
  v.data = none → v.pin = none

/-
  The operation pins only chunks that are stored afterwards: a pin is for a stored chunk, and each
  chunk of an upload in pin mode is stored and not displaced in the same call, or is stored by the
  call.
-/
def PinsHeld (op : Op) (s : Store) : Prop :=
  match op with
  | .set .pin addrs => ∀ a ∈ addrs, s.retrievalDataIndex.has a = true
  | .put .uploadPin chs => ∀ ch ∈ chs, s.holdsAfter chs ch.address = true
  | _ => True

variable {mode : ModePut}
variable {seen : List Chunk} {ch : Chunk}
variable {exist : Bool} {c : Int} {v : View}

/- One chunk of a put call, for an address that the call does not pin as a user's upload. -/
theorem tidy_planPut (hCons : s.Consistent cfg) (hSeen : containsChunk ch.address seen = false)
    (hOther : mode = .uploadPin → containsChunk a (seen ++ [ch]) = false)
    (hOk : (planPut cfg mode s binIDs ch clock).outcome = .ok (exist, c))
    (hView : PutView cfg mode s seen a v) (hTidy : v.Tidy) :
    (onView a v (planPut cfg mode s binIDs ch clock).records).Tidy := by
  by_cases hEq : ch.address = a
  · subst hEq
    cases hAccepts : s.accepts ch with
    | true =>
      -- the chunk is met as it was and is stored
      have hData := (Index.has_eq_false_iff _ _).mp (has_of_accepts hAccepts)
      rcases data_planPut_of_accepts hCons hOk hAccepts with ⟨d, -, -, hSome⟩
      rw [hView.eq_of_data hData hSeen]
      intro hNone
      rw [hSome] at hNone
      cases hNone
    | false =>
      have hPlain : mode ≠ .uploadPin := by
        intro hMode
        have hNot := hOther hMode
        simp at hNot
      rw [(planPut_refused hOk hAccepts).2]
      simp only [planUploadPin, if_neg hPlain]
      exact hTidy
  · by_cases hDisplaced : s.displaced ch = some a
    · rcases onView_planPut_of_displaced hOk hEq hDisplaced with ⟨c', hChange, hRecords⟩
      rw [hRecords]
      intro _
      rw [pin_onView_planRemove hChange]
      cases hInGC : s.inGC a with
      | false => rfl
      | true =>
        -- it was not pinned, and the call has not pinned it
        have hPin := pin_of_inGC (hCons a) hInGC
        rcases data_of_planRemove hChange with ⟨d, hData⟩
        cases hView with
        | same => exact hPin
        | stored ch' d' c hMem hAddress hNone hAccepts hStamp hBytes hStored =>
          rw [hData] at hNone
          cases hNone
        | gone ch' d' hMem hDisplaced' hData' hGone => exact hTidy hGone.data
        | pinned ch' hMem hAddress hMode hPinned =>
          have hNot := containsChunk_eq_false (hOther hMode) ch' (List.mem_append_left _ hMem)
          exact absurd hAddress hNot
    · rw [onView_planPut_of_ne hOk hEq hDisplaced]
      exact hTidy

/- All chunks of such a call. -/
theorem tidy_planPutAll (hCons : s.Consistent cfg)
    (hOther : mode = .uploadPin → containsChunk a chs = false)
    (hResult : (planPutAll cfg mode s [] chs {} clock).result = .ok st) (hTidy : (s.view a).Tidy) :
    (onView a (s.view a) st.batch).Tidy := by
  have hBefore : ∀ {seen ch}, (mode = .uploadPin → containsChunk a (seen ++ [ch]) = false) →
      mode = .uploadPin → containsChunk a seen = false := by
    intro seen ch hOther hMode
    have hNot := hOther hMode
    rw [containsChunk_append, Bool.or_eq_false_iff] at hNot
    exact hNot.1
  have hAll := planPutAll_invariant (fun seen st => Batched cfg mode s seen st ∧
      ((mode = .uploadPin → containsChunk a seen = false) → (onView a (s.view a) st.batch).Tidy))
    hResult ⟨batched_start, fun _ => hTidy⟩
    (fun hInv hSeen => ⟨hInv.1.skip hSeen _, fun hOther => hInv.2 (hBefore hOther)⟩)
    (fun _ hInv hSeen hOk => ⟨hInv.1.step hCons hSeen hOk, fun hOther => ?_⟩)
  · exact hAll.2 hOther
  · simp only [PutState.next, onView_append]
    exact tidy_planPut hCons hSeen hOther hOk (hInv.1.view a) (hInv.2 (hBefore hOther))

theorem View.Unpinned.tidy (hUnpinned : View.Unpinned v c w) (hTidy : v.Tidy) : w.Tidy := by
  intro hNone
  cases hUnpinned with
  | dropped n hPin hMany =>
    rw [hTidy hNone] at hPin
    cases hPin
  | released n hPin hLast
  | collectable n d time hPin hLast hData hPush hAccess => rfl

/- One address of a set call. -/
theorem tidy_planSet {mode : ModeSet} (hCons : (s.view a).Consistent (cfg.po a))
    (hTidy : (s.view a).Tidy) (hHeld : mode = .pin → s.retrievalDataIndex.has a = true)
    (hOk : (planSet cfg mode s a now).change = .ok c) :
    (onView a (s.view a) (planSet cfg mode s a now).records).Tidy := by
  have hView := setView_of_planSet hCons hOk
  generalize hAfter : onView a (s.view a) (planSet cfg mode s a now).records = w at hView
  cases hView with
  | removed hMode hData hGone =>
    subst hMode
    intro _
    rw [← hAfter]
    refine (pin_onView_planRemove hOk _).trans ?_
    cases hInGC : s.inGC a with
    | true => exact pin_of_inGC hCons hInGC
    | false => rfl
  | pinned hMode hPinned =>
    intro hNone
    have hHas := hHeld hMode
    rw [(Index.has_eq_false_iff _ _).mpr (hPinned.data.symm.trans hNone)] at hHas
    cases hHas
  | unpinned c hMode hUnpinned => exact hUnpinned.tidy hTidy
  | synced d hMode hSynced =>
    intro hNone
    rw [hSynced.data, hSynced.stored] at hNone
    cases hNone
  | unsynced hMode hData => exact hTidy

/- A put call pins stored chunks only. -/
theorem tidy_put (hCons : s.Consistent cfg)
    (hTidy : (s.view a).Tidy) (hHeld : PinsHeld (.put mode chs) s)
    (hResult : (planPutAll cfg mode s [] chs {} clock).result = .ok st) :
    (onView a (s.view a) st.batch).Tidy := by
  by_cases hOther : mode = .uploadPin → containsChunk a chs = false
  · exact tidy_planPutAll hCons hOther hResult hTidy
  · simp only [Classical.not_imp, Bool.not_eq_false] at hOther
    rcases hOther with ⟨rfl, hMem⟩
    simp only [containsChunk, List.any_eq_true, beq_iff_eq] at hMem
    rcases hMem with ⟨ch, hMem, rfl⟩
    have hHolds := (batched_planPutAll hCons hResult).holds ch.address
    rw [hHeld ch hMem] at hHolds
    rw [← view_writeBatch]
    intro hNone
    rw [(Index.has_eq_false_iff _ _).mpr hNone] at hHolds
    cases hHolds

/- A step that pins held chunks only leaves no other pin. -/
theorem StoreStep.tidy (hCons : s.Consistent cfg)
    (hStep : StoreStep cfg s op s') (hHeld : PinsHeld op s) (hTidy : ∀ a, (s.view a).Tidy)
    (a : Address) : (s'.view a).Tidy := by
  have hView := viewStep_of_storeStep hCons hStep a
  cases hStep with
  | putExisting mode ch hMode hData | collectNothing => exact hTidy a
  | put mode chs clock st hResult =>
    rw [view_writeBatch, onView_allRecords]
    exact tidy_put hCons (hTidy a) hHeld hResult
  | set mode addrs clock c hChange =>
    rw [view_writeBatch, onView_append, onView_sizeRecords a _ (fun _ => rfl)]
    rcases view_planSetAll (hCons a) hChange with
      ⟨-, hSame⟩ | ⟨hMem, now, c', hFirst, hAfter⟩
    · rw [hSame]
      exact hTidy a
    · rw [hAfter]
      refine tidy_planSet (hCons a) (hTidy a) ?_ hFirst
      rintro rfl
      exact hHeld a hMem
  | getRequest b d now hData =>
    generalize hAfter :
      (s.writeBatch (planUpdateGC s (readItem b d) now).records).view a = w at hView
    cases hView with
    | same op a hPlain => exact hTidy a
    | getRequest d' hSome hTouched =>
      intro hNone
      have hData' : (s.view a).data = some d' := hSome
      rw [hTouched.pins.1, hData'] at hNone
      cases hNone
  | unreserveBatch id radius =>
    generalize hAfter : (s.afterUnreserve id radius).view a = w at hView
    cases hView with
    | same op a hPlain => exact hTidy a
    | unreserveBatch c hVisits hUnpinned => exact hUnpinned.tidy (hTidy a)
  | collectGarbage candidates hSnapshot =>
    generalize hAfter : (s.writeBatch (planCommit cfg s candidates)).view a = w at hView
    cases hView with
    | same op a hPlain => exact hTidy a
    | collectGarbage item hGC hGone hPin =>
      intro _
      rw [hPin]
      rcases (hCons a).gc _ _ _ hGC with ⟨d, -, -, -, hNone, -⟩
      exact hNone

/- In every run whose operations pin held chunks only, a pinned address is stored. -/
theorem pinned_chunks_stored {db : DB}
    (hReach : Reachable cfg (fun op db => PinsHeld op db.store) db)
    (hPinned : db.store.pinIndex.has a = true) : db.store.retrievalDataIndex.has a = true := by
  have hTidy :=
    (hReach.store_invariant (fun s => ∀ a, (s.view a).Tidy) (fun _ _ => rfl)
      (fun op db s' hCons hTidy hHeld hStep => hStep.tidy hCons hHeld hTidy)).1 a
  cases hData : db.store.retrievalDataIndex.has a with
  | true => rfl
  | false =>
    have hNone := hTidy ((Index.has_eq_false_iff _ _).mp hData)
    rw [(Index.has_eq_false_iff _ _).mpr hNone] at hPinned
    cases hPinned

/- A pin of an uploaded chunk. -/
theorem pinned_chunks_stored_pinnedRun :
    ((uploadedRun.after smallConfig (fun _ => 2) (.set .pin [1])).store.retrievalDataIndex.has 1) =
        true := by
  have hHeld : PinsHeld (.set .pin [1]) uploadedRun.store := by
    intro a hMem
    rw [List.mem_singleton.mp hMem]
    decide
  exact pinned_chunks_stored ((Reachable.after .start _ _ trivial (by decide)).after _
      _ hHeld (by decide)) (by decide)

/- A pin of a chunk that is not there, without any error. -/
theorem pin_of_missing_chunk :
    ¬ ((∀ (cfg : Config) (db : DB) (a : Address), Reachable cfg (fun _ _ => True) db →
          db.store.pinIndex.has a = true → db.store.retrievalDataIndex.has a = true) ∧
        ∀ (cfg : Config) (db : DB) (a : Address) (clock : Clock),
          Reachable cfg (fun _ _ => True) db → db.store.retrievalDataIndex.has a = false →
          ((set cfg .pin [a]).run clock db).value = .error .notFound) := by
  rintro ⟨hStored, -⟩
  have hReach :
      Reachable smallConfig (fun _ _ => True)
        (DB.empty.after smallConfig (fun _ => 1) (.set .pin [1])) :=
    Reachable.after .start _ _ trivial (by decide)
  have hHas := hStored smallConfig _ 1 hReach (by decide)
  revert hHas
  decide

end Sana.Localstore
