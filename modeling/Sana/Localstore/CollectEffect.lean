import Sana.Localstore.PutEffect

/-
  What reading chunks and collecting garbage do to views.

  In a consistent database `unreserveBatch` unpins the chunks of one bin without reading the clock,
  so each turn of its loop is a function of the database.

  Key definitions include:
    * `planUpdateGC`
    * `View.Touched`

  Key theorems include:
    * `touched_of_planUpdateGC`
-/

---- Updating The Access Time

namespace Sana.Localstore

open KeyValue Program Swarm

section

/- The access timestamp under which `updateGC` looks. -/
def Store.updateTime (s : Store) (item : Item) : Nat :=
  match s.retrievalAccessIndex.get item.address with
  | some t => Item.mergeField t item.accessTimestamp
  | none => item.accessTimestamp

/- The plan of `updateGC`. -/
def planUpdateGC (s : Store) (item : Item) (now : Nat) : Plan :=
  let t := s.updateTime item
  if t = 0 then { records := [], change := .ok 0 }
  else
    let key : GCKey := ⟨t, item.binID, item.address⟩
    let moved : Batch := if s.gcIndex.has key then
        [.gc ⟨now, item.binID, item.address⟩ (some ⟨item.batchID, item.index⟩)]
      else []
    { records :=
        .gc key none :: moved ++ [.retrievalAccess item.address (some now)]
      change := .ok 0
      readings := 1 }

theorem run_updateGC (item : Item) (clock : Clock) (db : DB) :
    (updateGC item).run clock db = ⟨(), clock.drop (planUpdateGC db.store item (clock 0)).readings,
        { db.markDirty [item.address] with
          store :=
            db.store.writeBatch (planUpdateGC db.store item (clock 0)).records }⟩ := by
  have hStore := DB.markDirty_store [item.address] db
  have hSame : db.markDirty [item.address] =
        { db.markDirty [item.address] with
          store := db.store } := by
    rw [← hStore]
  unfold updateGC planUpdateGC Store.updateTime
  simp only [Call.run_bind, Call.run_acquire, Call.run_set, Call.run_get, hStore]
  cases hAccess : db.store.retrievalAccessIndex.get item.address with
  | none =>
    simp only [Store.getRetrievalAccess, hAccess, Option.map_none]
    by_cases hZero : item.accessTimestamp = 0
    · simp only [if_pos hZero, Call.run_release, Clock.drop_zero, Store.writeBatch_nil]
      rw [← hSame]
    · cases hGC : db.store.gcIndex.has ⟨item.accessTimestamp, item.binID, item.address⟩ <;>
        simp [hZero, hGC, Item.gcKey, Item.deleteGC, Item.putGC,
          Item.putRetrievalAccess, DB.writeBatch]
  | some t =>
    simp only [Store.getRetrievalAccess, hAccess, Option.map_some]
    by_cases hZero : Item.mergeField t item.accessTimestamp = 0
    · simp only [if_pos hZero, Call.run_release, Clock.drop_zero, Store.writeBatch_nil]
      rw [← hSame]
    · cases hGC : db.store.gcIndex.has
          ⟨Item.mergeField t item.accessTimestamp, item.binID, item.address⟩ <;>
        simp [hZero, hGC, Item.gcKey, Item.deleteGC, Item.putGC,
          Item.putRetrievalAccess, DB.writeBatch]

namespace View

/-
  The access time has been moved: with the gc entry that has the bin ID of the item, or without a gc
  entry.
-/
inductive Touched (item : Item) (v : View) : View → Prop where
  | same : Touched item v v
  | moved (time now : Nat) (x : GCValue) (hAccess : v.access = some time)
      (hGC : v.gc time item.binID = some x) : Touched item v
        { v with
          access := some now
          gc := fun t b =>
            if now = t ∧ item.binID = b then some ⟨item.batchID, item.index⟩
            else if time = t ∧ item.binID = b then none
            else v.gc t b }
  | refreshed (time now : Nat) (hAccess : v.access = some time)
      (hGC : v.gc time item.binID = none) : Touched item v { v with access := some now }

/- The item that was read is still the one that is stored, if the chunk can be collected at all. -/
def Fresh (item : Item) (v : View) : Prop :=
  ∀ t b x, v.gc t b = some x → b = item.binID ∧ x.batchID = item.batchID

theorem Touched.consistent (hCons : v.Consistent po)
    (hFresh : v.Fresh item) (hTouched : Touched item v w) : w.Consistent po := by
  cases hTouched with
  | same => exact hCons
  | moved time now x hAccess hGC =>
    rcases hCons.gc time item.binID x hGC with ⟨d, hData, hBin, -, hPin, hBatch⟩
    have hItem := (hFresh time item.binID x hGC).2
    refine ⟨?_, fun _ _ => ⟨d, hData⟩, hCons.chunks, hCons.stored, ?_⟩
    · intro t b y hSome
      simp only at hSome
      split at hSome
      · next hKey =>
          cases hSome
          refine ⟨d, hData, hBin.trans hKey.2, ?_, hPin, hItem.symm.trans hBatch⟩
          rw [hKey.1]
      · next hNow =>
          split at hSome
          · cases hSome
          · next hOld =>
              rcases hCons.gc t b y hSome with ⟨d', hData', hBin', hAccess', -⟩
              rw [hData] at hData'
              cases hData'
              rw [hAccess] at hAccess'
              cases hAccess'
              exact absurd ⟨rfl, hBin.symm.trans hBin'⟩ hOld
    · intro _ _ hNone
      cases hNone
  | refreshed time now hAccess hGC =>
    have hNoGC : ∀ t b, v.gc t b = none := by
      intro t b
      cases hSome : v.gc t b with
      | none => rfl
      | some x =>
        rcases hCons.gc t b x hSome with ⟨d, -, -, hAccess', -⟩
        rw [hAccess] at hAccess'
        cases hAccess'
        rw [(hFresh _ b x hSome).1, hGC] at hSome
        cases hSome
    refine ⟨?_, fun _ _ => hCons.access time hAccess, hCons.chunks, hCons.stored, ?_⟩
    · intro t b x hSome
      have hNone : v.gc t b = some x := hSome
      rw [hNoGC t b] at hNone
      cases hNone
    · intro _ _ hNone
      cases hNone

end View

variable {s : Store} {item : Item}

theorem about_planUpdateGC (now : Nat) : About item.address (planUpdateGC s item now).records := by
  unfold planUpdateGC
  dsimp only
  split
  · exact about_nil _
  · refine about_cons (Or.inr rfl) (About.append ?_ (about_cons (Or.inr rfl) (about_nil _)))
    split
    · exact about_cons (Or.inr rfl) (about_nil _)
    · exact about_nil _

/- Reading a chunk carries no access timestamp. -/
theorem touched_of_planUpdateGC (hItem : item.accessTimestamp = 0) (now : Nat) :
    View.Touched item (s.view item.address)
      (onView item.address (s.view item.address) (planUpdateGC s item now).records) := by
  unfold planUpdateGC
  by_cases hZero : s.updateTime item = 0
  · rw [if_pos hZero]
    exact .same
  rw [if_neg hZero]
  cases hAccess : s.retrievalAccessIndex.get item.address with
  | none => simp [Store.updateTime, hAccess, hItem] at hZero
  | some t =>
    have hTime : s.updateTime item = t := by simp [Store.updateTime, hAccess, hItem]
    rw [hTime]
    cases hGC : s.gcIndex.get ⟨t, item.binID, item.address⟩ with
    | some x =>
      have hMoved := View.Touched.moved (v := s.view item.address) t now x hAccess hGC
      simpa [Index.has, hGC] using hMoved
    | none =>
      have hSame : (fun t' b =>
            if t = t' ∧ item.binID = b then none
            else (s.view item.address).gc t' b) =
          (s.view item.address).gc := by
        funext t' b
        split
        · next hKey =>
            rw [← hKey.1, ← hKey.2]
            exact hGC.symm
        · rfl
      have hKept := View.Touched.refreshed (v := s.view item.address) t now hAccess hGC
      simpa [Index.has, hGC, hSame] using hKept

end

---- Collecting

/- The candidates that a snapshot takes, if it takes any. -/
def planSnapshot (cfg : Config) (s : Store) : Option (List Item) :=
  if s.gcSize = cfg.gcTarget then none
  else some (gcCandidates cfg s.gcSize s.gcIndex.entries 0)

theorem run_gcSnapshot (cfg : Config) (clock : Clock) (db : DB) :
    (gcSnapshot cfg).run clock db =
      ⟨planSnapshot cfg db.store, clock, { db with gcRunning := true }⟩ := by
  unfold gcSnapshot gcBegin gcIterate planSnapshot
  by_cases hSize : db.store.gcSize = cfg.gcTarget <;> simp [hSize]

/- The candidates that are not dirty. -/
def gcCollected (dirty : List Address) (candidates : List Item) : List Item :=
  candidates.filter fun item => !dirty.contains item.address

/- The records of a commit. -/
def planCommit (cfg : Config) (s : Store) (collected : List Item) : Batch :=
  collected.flatMap (collectRecords cfg) ++ [.gcSize (sub64 s.gcSize collected.length)]

theorem run_gcCommit (cfg : Config) (candidates : List Item) (clock : Clock) (db : DB) :
    ((gcCommit cfg candidates).run clock db).state =
      { db with
        store :=
          db.store.writeBatch
            (planCommit cfg db.store (gcCollected db.dirtyAddresses candidates)) } := rfl

@[simp] theorem run_gcFinish (clock : Clock) (db : DB) : (gcFinish).run clock db = ⟨(), clock,
        { db with
          gcRunning := false, dirtyAddresses := [] }⟩ := rfl

/- The candidates are the first entries of the gc index. -/
theorem gcCandidates_initial (cfg : Config) (gcSize : Nat) (entries : List (GCKey × GCValue))
    (collectedCount : Nat) :
    gcCandidates cfg gcSize entries collectedCount <+: entries.map gcItem := by
  induction entries generalizing collectedCount with
  | nil => exact List.nil_prefix
  | cons entry entries ih =>
    simp only [gcCandidates, List.map_cons]
    split
    · exact List.nil_prefix
    split
    · exact ⟨_, rfl⟩
    · exact List.cons_prefix_cons.mpr ⟨rfl, ih _⟩

/- Each candidate stands for an entry of the gc index. -/
theorem gc_of_mem_gcCandidates {s : Store}
    (hMem : item ∈ gcCandidates cfg gcSize s.gcIndex.entries 0) :
    (s.view item.address).gc item.accessTimestamp item.binID = some ⟨item.batchID, item.index⟩ := by
  have hEntry := (gcCandidates_initial cfg gcSize s.gcIndex.entries 0).subset hMem
  rcases List.mem_map.mp hEntry with ⟨⟨key, x⟩, hKeyMem, rfl⟩
  exact (Index.mem_entries_iff s.gcIndex key x).mp hKeyMem

theorem gc_of_mem_planSnapshot
    (hSnapshot : planSnapshot cfg s = some candidates) (hMem : item ∈ candidates) :
    (s.view item.address).gc item.accessTimestamp item.binID = some ⟨item.batchID, item.index⟩ := by
  unfold planSnapshot at hSnapshot
  split at hSnapshot
  · cases hSnapshot
  cases hSnapshot
  exact gc_of_mem_gcCandidates hMem

/- Different candidates have different keys. -/
theorem nodup_gcCandidates (s : Store) :
    ((gcCandidates cfg gcSize s.gcIndex.entries 0).map Item.gcKey).Nodup := by
  have hAll : ((s.gcIndex.entries.map gcItem).map Item.gcKey).Nodup := by
    rw [List.map_map]
    exact Index.nodup_keys_entries s.gcIndex
  exact hAll.sublist
    (((gcCandidates_initial cfg gcSize s.gcIndex.entries 0).sublist).map Item.gcKey)

theorem nodup_planSnapshot
    (hSnapshot : planSnapshot cfg s = some candidates) : (candidates.map Item.gcKey).Nodup := by
  unfold planSnapshot at hSnapshot
  split at hSnapshot
  · cases hSnapshot
  cases hSnapshot
  exact nodup_gcCandidates s

/-
  What a candidate of a running collection can rely on: its gc entry is still there, or the chunk is
  gone.
-/
def View.Candidate (item : Item) (v : View) : Prop :=
  v.gc item.accessTimestamp item.binID = some ⟨item.batchID, item.index⟩ ∨ v.data = none

theorem about_collectRecords (cfg : Config) (item : Item) :
    About item.address (collectRecords cfg item) := by
  simp [About, collectRecords, Write.neutral, Write.address,
    Item.deleteRetrievalData, Item.deleteRetrievalAccess,
    Item.deletePull, Item.deleteGC, Item.gcKey, Item.deletePostageChunks, Item.postageChunksKey,
    Item.deletePostageIndex]

theorem onView_collectRecords :
    onView item.address v (collectRecords cfg item) =
      { v with
        data := none
        access := none
        gc := fun t b =>
          if item.accessTimestamp = t ∧ item.binID = b
          then none
          else v.gc t b
        chunks := fun id p =>
          if item.batchID = id ∧ cfg.po item.address = p
          then none
          else v.chunks id p } := by
  simp [collectRecords, Item.deleteRetrievalData, Item.deleteRetrievalAccess, Item.deletePull,
    Item.deleteGC, Item.gcKey, Item.deletePostageChunks,
    Item.postageChunksKey, Item.deletePostageIndex]

/- Collecting a candidate leaves nothing stored for it. -/
theorem gone_of_collectRecords
    (hCons : v.Consistent (cfg.po item.address)) (hCandidate : v.Candidate item)
    (hView : w = v ∨ View.Gone v w ∧ w.pin = v.pin) :
    View.Gone v (onView item.address w (collectRecords cfg item)) ∧
      (onView item.address w (collectRecords cfg item)).pin = v.pin := by
  rw [onView_collectRecords]
  rcases hView with rfl | ⟨hGone, hPin⟩
  · refine ⟨⟨rfl, rfl, ?_, ?_, rfl⟩, rfl⟩
    · intro t b
      dsimp only
      split
      · rfl
      next hKey =>
      rcases hCandidate with hGC | hData
      · rcases hCons.gc _ _ _ hGC with ⟨d, hData, hBin, hAccess, -⟩
        apply hCons.gc_eq_none_of_ne hData hAccess
        intro hEq
        exact hKey ⟨hEq.1, hBin.symm.trans hEq.2⟩
      · exact hCons.gc_eq_none_of_data hData t b
    · intro id p
      dsimp only
      split
      · rfl
      next hKey =>
      rcases hCandidate with hGC | hData
      · rcases hCons.gc _ _ _ hGC with ⟨d, hData, -, -, -, hBatch⟩
        apply hCons.chunks_eq_none_of_ne hData
        intro hEq
        exact hKey ⟨hBatch.trans hEq.1, hEq.2⟩
      · exact hCons.chunks_eq_none_of_data hData id p
  · refine ⟨⟨rfl, rfl, ?_, ?_, hGone.push⟩, hPin⟩
    · intro t b
      simp [hGone.gc t b]
    · intro id p
      simp [hGone.chunks id p]

/- The views after deleting a list of candidates. -/
theorem view_collect (hCons : v.Consistent (cfg.po a))
    {collected : List Item} (hCandidates : ∀ item ∈ collected, item.address = a → v.Candidate item)
    (hView : w = v ∨ View.Gone v w ∧ w.pin = v.pin) :
    let final := onView a w (collected.flatMap (collectRecords cfg))
    ((∀ item ∈ collected, item.address ≠ a) ∧ final = w) ∨
      ((∃ item ∈ collected, item.address = a) ∧ View.Gone v final ∧ final.pin = v.pin) := by
  intro final
  induction collected generalizing w with
  | nil => exact Or.inl ⟨by simp, rfl⟩
  | cons item collected ih =>
    have hRest : ∀ other ∈ collected, other.address = a → v.Candidate other := fun other hMem =>
        hCandidates other (List.mem_cons_of_mem item hMem)
    have hFinal :
        final =
          onView a (onView a w (collectRecords cfg item))
            (collected.flatMap (collectRecords cfg)) := by
      simp [final]
    by_cases hEq : item.address = a
    · subst hEq
      have hGone := gone_of_collectRecords hCons (hCandidates item (List.mem_cons_self ..) rfl)
        hView
      refine Or.inr ⟨⟨item, by simp, rfl⟩, ?_⟩
      rw [hFinal]
      rcases ih hRest (Or.inr hGone) with ⟨-, hSame⟩ | ⟨-, hGone'⟩
      · rw [hSame]
        exact hGone
      · exact hGone'
    · rw [hFinal, (about_collectRecords cfg item).onView_of_ne hEq]
      rcases ih hRest hView with ⟨hNot, hSame⟩ | ⟨⟨other, hMem, hAddr⟩, hGone⟩
      · refine Or.inl ⟨?_, hSame⟩
        intro other hMem
        rcases List.mem_cons.mp hMem with rfl | hMem
        · exact hEq
        · exact hNot other hMem
      · exact Or.inr ⟨⟨other, List.mem_cons_of_mem item hMem, hAddr⟩, hGone⟩

---- Unpinning The Chunks Of A Bin

/- The plan of `unpinAll`. -/
def planUnpinAll (s : Store) : List Address → UnpinState → UnpinState
| [], st => st
| a :: addrs, st =>
  match (planUnpin s a 0).change with
  | .error _ => planUnpinAll s addrs { st with batch := st.batch ++ (planUnpin s a 0).records }
  | .ok c =>
    planUnpinAll s addrs
      { batch := st.batch ++ (planUnpin s a 0).records
        gcSizeChange := st.gcSizeChange + c
        reserveSizeChange := st.reserveSizeChange + 1 }

/- The loop in closed form. -/
theorem planUnpinAll_eq (s : Store) (addrs : List Address) (st : UnpinState) :
    planUnpinAll s addrs st =
      { batch := st.batch ++ addrs.flatMap fun a => (planUnpin s a 0).records
        gcSizeChange :=
          st.gcSizeChange + (addrs.map fun a => (planUnpin s a 0).change.toOption.getD 0).sum
        reserveSizeChange :=
          st.reserveSizeChange +
            addrs.countP fun a => (planUnpin s a 0).change.toOption.isSome } := by
  induction addrs generalizing st with
  | nil => simp [planUnpinAll]
  | cons a addrs ih =>
    rw [planUnpinAll, List.map_cons, List.countP_cons]
    cases (planUnpin s a 0).change with
    | error e => simp [ih, Except.toOption]
    | ok c => simp [ih, Except.toOption, add_assoc, add_comm 1]

theorem unpins_planUnpinAll (addrs : List Address) :
    (planUnpinAll s addrs {}).batch.all Write.unpins = true := by
  simp [planUnpinAll_eq, List.all_flatMap, unpins_planUnpin]

theorem run_unpinAll (addrs : List Address) (st : UnpinState) (clock : Clock)
    (db : DB) (hCons : db.store.Consistent cfg) :
    (unpinAll addrs st).run clock db = ⟨planUnpinAll db.store addrs st, clock, db⟩ := by
  induction addrs generalizing st with
  | nil => rfl
  | cons a addrs ih =>
    simp only [unpinAll, planUnpinAll, Call.run_bind, run_setUnpin,
      planUnpin_eq (hCons a) (clock 0) 0, Clock.drop_zero]
    cases (planUnpin db.store a 0).change with
    | error e | ok c => exact ih _

/- Unpinning depends on the view of the address only. -/
theorem planUnpin_congr (hView : s.view a = s'.view a) (now : Nat) :
    planUnpin s a now = planUnpin s' a now := by
  have hPin : s.pinIndex.get a = s'.pinIndex.get a := congrArg View.pin hView
  have hData : s.retrievalDataIndex.get a = s'.retrievalDataIndex.get a := congrArg View.data hView
  have hAccess : s.retrievalAccessIndex.get a = s'.retrievalAccessIndex.get a :=
    congrArg View.access hView
  have hPush : ∀ t, s.pushIndex.has ⟨t, a⟩ = s'.pushIndex.has ⟨t, a⟩ := by
    intro t
    have hGet : s.pushIndex.get ⟨t, a⟩ = s'.pushIndex.get ⟨t, a⟩ :=
      congrFun (congrArg View.push hView) t
    simp only [Index.has, hGet]
  unfold planUnpin
  simp only [hPin, hData, hAccess, hPush]

/- The view of an address after unpinning it once. -/
def Store.unpinView (s : Store) (a : Address) : View :=
  onView a (s.view a) (planUnpin s a 0).records

theorem Store.unpinView_congr {s s' : Store} (hView : s.view a = s'.view a) :
    s.unpinView a = s'.unpinView a := by
  simp only [Store.unpinView, hView, planUnpin_congr hView]

/- The views after unpinning a list of addresses. -/
theorem view_planUnpinAll {addrs : List Address}
    (hView : v = s.view a ∨ v = s.unpinView a) :
    onView a v (addrs.flatMap fun b => (planUnpin s b 0).records) =
      if a ∈ addrs then s.unpinView a else v := by
  induction addrs generalizing v with
  | nil => rfl
  | cons b addrs ih =>
    rw [List.flatMap_cons, onView_append]
    by_cases hAddr : b = a
    · subst hAddr
      have hNew : onView b v (planUnpin s b 0).records = s.unpinView b := by
        rcases hView with rfl | rfl
        · rfl
        · exact onView_planUnpin_repeat _ 0
      rw [hNew, ih (Or.inr rfl)]
      simp
    · rw [(about_planUnpin s b 0).onView_of_ne hAddr, ih hView]
      simp [Ne.symm hAddr]

---- Bins

theorem mem_chunksInBin_iff (s : Store) (id : BatchID) (bin : Nat) (a : Address) :
    a ∈ s.chunksInBin id bin ↔ (s.view a).chunks id bin = some () := by
  simp only [Store.chunksInBin, List.mem_map, List.mem_filter, decide_eq_true_eq]
  constructor
  · rintro ⟨⟨⟨batchID, po, address⟩, u⟩, ⟨hMem, rfl, rfl⟩, rfl⟩
    exact (Index.mem_entries_iff _ _ _).mp hMem
  · intro hChunks
    exact ⟨(⟨id, bin, a⟩, ()), ⟨(Index.mem_entries_iff _ _ _).mpr hChunks, rfl, rfl⟩, rfl⟩

theorem nodup_chunksInBin (s : Store) (id : BatchID) (bin : Nat) :
    (s.chunksInBin id bin).Nodup := by
  have hKeys := Index.nodup_keys_entries s.postageChunksIndex
  unfold Store.chunksInBin
  rw [List.Nodup, List.pairwise_map]
  rw [List.Nodup, List.pairwise_map] at hKeys
  have hFiltered := List.Pairwise.filter (fun entry : PostageChunksKey × Unit =>
      decide (entry.1.batchID = id ∧ entry.1.po = bin)) hKeys
  refine List.Pairwise.imp_of_mem ?_ hFiltered
  intro left right hLeft hRight hNe hEq
  rcases left with ⟨⟨leftBatch, leftPO, leftAddress⟩, u⟩
  rcases right with ⟨⟨rightBatch, rightPO, rightAddress⟩, u'⟩
  simp only [List.mem_filter, decide_eq_true_eq] at hLeft hRight
  apply hNe
  simp only at hEq hLeft hRight ⊢
  rw [hLeft.2.1, hLeft.2.2, hRight.2.1, hRight.2.2, hEq]

/- What unpinning the chunks of one bin accumulates. -/
def Store.unpinBin (s : Store) (id : BatchID) (bin : Nat) : UnpinState :=
  planUnpinAll s (s.chunksInBin id bin) {}

/- The records of one turn of the loop over the bins. -/
def Store.binRecords (s : Store) (id : BatchID) (bin : Nat) : Batch :=
  let st := s.unpinBin id bin
  st.batch ++ sizeRecords .gcSize s.gcSize st.gcSizeChange ++ [.postageRadius id (some bin)] ++
    if bin = maxPO then [.postageRadius id none] else []

/- The database after one turn of the loop. -/
def Store.afterBin (s : Store) (id : BatchID) (bin : Nat) : Store :=
  s.writeBatch (s.binRecords id bin)

/- The database after `count` turns, starting at `bin`. -/
def Store.afterBins (s : Store) (id : BatchID) : Nat → Nat → Store
| _, 0 => s
| bin, count + 1 => (s.afterBin id bin).afterBins id (bin + 1) count

/- The number of chunks that `count` turns unpin. -/
def Store.unpinnedInBins (s : Store) (id : BatchID) : Nat → Nat → Nat
| _, 0 => 0
| bin, count + 1 =>
  (s.unpinBin id bin).reserveSizeChange + (s.afterBin id bin).unpinnedInBins id (bin + 1) count

theorem run_unreserveBin (id : BatchID) (bin change : Nat) (clock : Clock) (db : DB)
    (hCons : db.store.Consistent cfg) :
    (unreserveBin id bin change).run clock db =
      ⟨(db.store.unpinBin id bin).reserveSizeChange + change, clock,
        { db with store := db.store.afterBin id bin }⟩ := by
  unfold unreserveBin Store.afterBin Store.binRecords Store.unpinBin
  simp only [Call.run_bind, Call.run_get, run_unpinAll _ _ _ _ hCons, run_incGCSizeInBatch,
    planUnpinAll_eq]
  by_cases hBin : bin = maxPO <;>
    simp [hBin, DB.writeBatch, Item.putPostageRadius, Item.deletePostageRadius, add_comm]

/- The views after one turn of the loop. -/
theorem view_afterBin (s : Store) (id : BatchID) (bin : Nat) (a : Address) :
    (s.afterBin id bin).view a = if (s.view a).chunks id bin = some ()
      then s.unpinView a
      else s.view a := by
  have hRadius : ∀ v, onView a v (if bin = maxPO then
          [Write.postageRadius id none] else []) = v := by
    intro v
    split <;> rfl
  have hUnpin :
      onView a (s.view a) (s.unpinBin id bin).batch = if a ∈ s.chunksInBin id bin then s.unpinView a
        else s.view a := by
    rw [Store.unpinBin, planUnpinAll_eq]
    exact view_planUnpinAll (Or.inl rfl)
  simp only [mem_chunksInBin_iff] at hUnpin
  have hSize := fun v => onView_sizeRecords a v (show ∀ n, (Write.gcSize n).address = none from
        fun _ => rfl) s.gcSize
  rw [Store.afterBin, view_writeBatch]
  simp only [Store.binRecords, onView_append, hUnpin, hRadius, hSize, onView_cons, onView_nil,
    onView_postageRadius]

/- The chunks of every batch stay where they are. -/
theorem unpinView_chunks (s : Store) (a : Address) :
    (s.unpinView a).chunks = (s.view a).chunks := by
  unfold Store.unpinView planUnpin
  cases s.pinIndex.get a with
  | none => rfl
  | some n =>
    dsimp only
    split
    · simp
    cases s.retrievalDataIndex.get a with
    | none => simp
    | some d =>
      dsimp only
      split
      · simp
      · cases s.retrievalAccessIndex.get a <;> simp

/- Unpinning keeps a view consistent. -/
theorem unpinView_cases (hCons : (s.view a).Consistent po) (hData : (s.view a).data ≠ none) :
    (s.view a).pin = none ∧ s.unpinView a = s.view a ∨
      ∃ c, (planUnpin s a 0).change = .ok c ∧ View.Unpinned (s.view a) c (s.unpinView a) := by
  cases hPin : s.pinIndex.get a with
  | none =>
    refine Or.inl ⟨hPin, ?_⟩
    simp [Store.unpinView, planUnpin, hPin]
  | some n =>
    right
    have hOk : ∃ c, (planUnpin s a 0).change = .ok c := by
      unfold planUnpin
      simp only [hPin]
      split
      · exact ⟨0, rfl⟩
      cases hGet : s.retrievalDataIndex.get a with
      | none => exact absurd hGet hData
      | some d =>
        dsimp only
        split
        · exact ⟨0, rfl⟩
        · cases s.retrievalAccessIndex.get a with
          | none | some t => exact ⟨1, rfl⟩
    rcases hOk with ⟨c, hChange⟩
    exact ⟨c, hChange, unpinned_of_planUnpin hCons hChange⟩

theorem consistent_afterBin {s : Store} (hCons : s.Consistent cfg) (id : BatchID)
    (bin : Nat) : (s.afterBin id bin).Consistent cfg := by
  intro a
  rw [view_afterBin]
  split
  · next hChunks =>
      rcases (hCons a).chunks id bin hChunks with ⟨d, hData, -⟩
      rcases unpinView_cases (hCons a) (by rw [hData]; simp) with ⟨-, hSame⟩ | ⟨c, -, hUnpinned⟩
      · rw [hSame]
        exact hCons a
      · exact hUnpinned.consistent (hCons a)
  · exact hCons a

theorem consistent_afterBins {s : Store} (hCons : s.Consistent cfg) (id : BatchID)
    (bin count : Nat) : (s.afterBins id bin count).Consistent cfg := by
  induction count generalizing s bin with
  | zero => exact hCons
  | succ count ih => exact ih (consistent_afterBin hCons id bin) (bin + 1)

/-
  The views after several turns: exactly the chunks of the batch in the bins passed are unpinned,
  once each.
-/
theorem view_afterBins {s : Store} (hCons : s.Consistent cfg) (id : BatchID)
    (bin count : Nat) (a : Address) :
    (s.afterBins id bin count).view a =
      if (s.view a).chunks id (cfg.po a) = some () ∧ bin ≤ cfg.po a ∧ cfg.po a < bin + count
      then s.unpinView a
      else s.view a := by
  induction count generalizing s bin with
  | zero =>
    rw [if_neg (by omega)]
    rfl
  | succ count ih =>
    simp only [Store.afterBins]
    rw [ih (consistent_afterBin hCons id bin)]
    have hFirst := view_afterBin s id bin a
    by_cases hHere : (s.view a).chunks id bin = some ()
    · -- the bin of the chunk is this one, so no later one
      rcases (hCons a).chunks id bin hHere with ⟨d, -, -, hBin⟩
      rw [if_pos hHere] at hFirst
      rw [if_neg (by omega), hFirst, if_pos ⟨hBin ▸ hHere, by omega, by omega⟩]
    · rw [if_neg hHere] at hFirst
      rw [Store.unpinView_congr hFirst, hFirst]
      by_cases hEq : cfg.po a = bin
      · rw [if_neg (by omega), if_neg]
        rintro ⟨hChunks, -⟩
        exact hHere (hEq ▸ hChunks)
      · congr 1
        apply propext
        constructor
        · rintro ⟨hChunks, hLow, hHigh⟩
          exact ⟨hChunks, by omega, by omega⟩
        · rintro ⟨hChunks, hLow, hHigh⟩
          exact ⟨hChunks, by omega, by omega⟩

---- Whole Calls

/- The bin a call starts at. -/
def Store.oldRadius (s : Store) (id : BatchID) (radius : Nat) : Nat :=
  (s.postageRadiusIndex.get id).getD radius

/- The records at the end of a call. -/
def Store.finishRecords (s : Store) (id : BatchID) (radius change : Nat) : Batch :=
  (if radius ≠ maxPO + 1 then [.postageRadius id (some radius)] else []) ++
  if change > 0 then sizeRecords .reserveSize s.reserveSize (-(change : Int))
  else []

/- The number of chunks that a call unpins. -/
def Store.unreserved (s : Store) (id : BatchID) (radius : Nat) : Nat :=
  s.unpinnedInBins id (s.oldRadius id radius) (radius - s.oldRadius id radius)

/- The database after a call. -/
def Store.afterUnreserve (s : Store) (id : BatchID) (radius : Nat) : Store :=
  let bins := s.afterBins id (s.oldRadius id radius) (radius - s.oldRadius id radius)
  bins.writeBatch (bins.finishRecords id radius (s.unreserved id radius))

theorem run_unreserveBins (id : BatchID) (bin count change : Nat) (clock : Clock)
    (db : DB) (hCons : db.store.Consistent cfg) :
    (unreserveBins id bin count change).run clock db =
      ⟨db.store.unpinnedInBins id bin count + change, clock,
        { db with
          store := db.store.afterBins id bin count }⟩ := by
  induction count generalizing bin change db with
  | zero => simp [unreserveBins, Store.unpinnedInBins,
      Store.afterBins]
  | succ count ih =>
    simp only [unreserveBins, Call.run_bind, run_unreserveBin id bin change clock db hCons]
    have hRest := ih (bin + 1) ((db.store.unpinBin id bin).reserveSizeChange + change)
      { db with store := db.store.afterBin id bin } (consistent_afterBin hCons id bin)
    rw [hRest]
    simp only [Store.unpinnedInBins, Store.afterBins, Outcome.mk.injEq, and_true]
    omega

theorem run_unreserveFinish (id : BatchID) (radius change : Nat) (clock : Clock) (db : DB) :
    (unreserveFinish id radius change).run clock db = ⟨(), clock,
        { db with
          store :=
            db.store.writeBatch (db.store.finishRecords id radius change) }⟩ := by
  unfold unreserveFinish Store.finishRecords
  by_cases hRadius : radius ≠ maxPO + 1 <;> by_cases hChange : change > 0 <;>
    simp [hRadius, hChange, DB.writeBatch, Item.putPostageRadius, Store.write]

theorem run_unreserveBatch (id : BatchID) (radius : Nat) (clock : Clock) (db : DB)
    (hCons : db.store.Consistent cfg) :
    (unreserveBatch id radius).run clock db = ⟨db.store.unreserved id radius, clock,
        { db with
          store := db.store.afterUnreserve id radius }⟩ := by
  unfold unreserveBatch Store.unreserved Store.afterUnreserve Store.unreserved Store.oldRadius
  cases hGet : db.store.postageRadiusIndex.get id <;>
    simp [Store.getPostageRadius, hGet, run_unreserveBins id _ _ 0 clock db hCons,
      run_unreserveFinish]

/- The chunks that a call unpins once. -/
def Store.visits (cfg : Config) (s : Store) (id : BatchID) (radius : Nat) (a : Address) : Prop :=
  (s.view a).chunks id (cfg.po a) = some () ∧ s.oldRadius id radius ≤ cfg.po a ∧ cfg.po a < radius

instance (cfg : Config) (s : Store) (id : BatchID) (radius : Nat) (a : Address) :
    Decidable (s.visits cfg id radius a) :=
  inferInstanceAs (Decidable (_ ∧ _ ∧ _))

/- The views after a whole call. -/
theorem view_afterUnreserve {s : Store} (hCons : s.Consistent cfg) (id : BatchID)
    (radius : Nat) (a : Address) :
    (s.afterUnreserve id radius).view a = if s.visits cfg id radius a then s.unpinView a
      else s.view a := by
  have hFinish : ∀ v change s', onView a v (Store.finishRecords s' id radius change) =
          v := by
    intro v change s'
    unfold Store.finishRecords
    have hSize :=
      fun v => onView_sizeRecords a v (show ∀ n, (Write.reserveSize n).address = none from
          fun _ => rfl) s'.reserveSize (-(change : Int))
    split <;> split <;> simp [hSize]
  simp only [Store.afterUnreserve]
  rw [view_writeBatch, hFinish, view_afterBins hCons]
  congr 1
  apply propext
  constructor
  · rintro ⟨hChunks, hLow, hHigh⟩
    exact ⟨hChunks, hLow, by omega⟩
  · rintro ⟨hChunks, hLow, hHigh⟩
    exact ⟨hChunks, hLow, by omega⟩

end Sana.Localstore
