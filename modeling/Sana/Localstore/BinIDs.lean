import Sana.Localstore.Commit
import Sana.Localstore.Sequential

/-
  The bin IDs of all chunks ever stored.

  A history lists the chunks that the calls of a run have stored, in their order, with the bin IDs
  they got.  Calls that fail are part of a run.

  Key definitions include:
    * `newlyStored`
    * `CallStep`

  Key theorems include:
    * `Numbered.step`
-/

---- Histories

namespace Sana.Localstore

open KeyValue Program Swarm

variable {cfg : Config} {s : Store} {history : List Assigned}

section

/- A chunk that was stored, and its bin ID. -/
structure Assigned where
  address : Address
  binID : Nat
  deriving DecidableEq, Repr

/- The chunks of a call, in their order, that were not stored before it and are stored after it. -/
def newlyStored (before after : Store) (chs : List Chunk) : List Assigned :=
  (firstChunks chs).filterMap fun ch =>
    match before.retrievalDataIndex.get ch.address with
    | some _ => none
    | none => (after.retrievalDataIndex.get ch.address).map fun d => ⟨ch.address, d.binID⟩

/- The chunks that an operation is called with. -/
def Op.chunks : Op → List Chunk
| .put _ chs => chs
| _ => []

/- A call, successful or not, and the history it continues. -/
def CallStep (cfg : Config) (op : Op) (before after : DB × List Assigned) : Prop :=
  ∃ clock,
    ((op.call cfg).run clock before.1).state = after.1 ∧
      after.2 = before.2 ++ newlyStored before.1.store after.1.store op.chunks

/- Of two chunks of one bin the later has the larger ID. -/
def Later (cfg : Config) (old new : Assigned) : Prop :=
  cfg.po old.address = cfg.po new.address → old.binID < new.binID

/-
  A history and the database it has led to: bin IDs increase in every bin and are not above the last
  one assigned, and stored chunks and pull entries are part of the history.
-/
structure Recorded (cfg : Config) (s : Store) (history : List Assigned) : Prop where
  increasing : history.Pairwise (Later cfg)
  assigned : ∀ x ∈ history, x.binID ≤ s.getBinID (cfg.po x.address)
  stored : ∀ a d, s.retrievalDataIndex.get a = some d → ⟨a, d.binID⟩ ∈ history
  pulled :
    ∀ key x, s.pullIndex.get key = some x →
      key.po = cfg.po x.address ∧ ⟨x.address, key.binID⟩ ∈ history

/- Records that store a chunk or give it a bin ID. -/
def Write.numbers : Write → Bool
| .retrievalData _ (some _) => true
| .pull _ (some _) => true
| .binID _ _ => true
| _ => false

variable {batch : Batch}

/- Other records need no history. -/
theorem Recorded.of_records (hRecorded : Recorded cfg s history)
    (hNone : batch.all (fun r => !r.numbers) = true) :
    Recorded cfg (s.writeBatch batch) history := by
  have hNot : ∀ r : Write, r.numbers = true → r ∉ batch := by
    intro r hNumbers hMem
    have hFalse := List.all_eq_true.mp hNone r hMem
    rw [hNumbers] at hFalse
    cases hFalse
  constructor
  · exact hRecorded.increasing
  · intro x hMem
    rcases getBinID_writeBatch s batch (cfg.po x.address) with hSame | hRecord
    · rw [hSame]
      exact hRecorded.assigned x hMem
    · exact absurd hRecord (hNot _ rfl)
  · intro a d hData
    rcases retrievalDataIndex_writeBatch s batch a with hSame | hRecord
    · exact hRecorded.stored a d (hSame.symm.trans hData)
    · rw [hData] at hRecord
      exact absurd hRecord (hNot _ rfl)
  · intro key x hPull
    rcases pullIndex_writeBatch s batch key with hSame | hRecord
    · exact hRecorded.pulled key x (hSame.symm.trans hPull)
    · rw [hPull] at hRecord
      exact absurd hRecord (hNot _ rfl)

end

---- Operations That Store Nothing

theorem unnumbered_sizeRecords (hRecord : ∀ n, (record n).numbers = false) :
    (sizeRecords record size change).all (fun r => !r.numbers) = true := by
  unfold sizeRecords
  split
  · rfl
  · cases changedSize size change with
    | none => rfl
    | some n => simp [hRecord]

theorem unnumbered_of_plain (record : Write) (hPlain : record.plain = true) :
    (!record.numbers) = true := by
  cases record with
  | retrievalData key value =>
    cases value with
    | none => rfl
    | some d => cases hPlain
  | pull key value =>
    cases value with
    | none => rfl
    | some x => cases hPlain
  | binID po value => cases hPlain
  | _ => rfl

theorem unnumbered_planSetAll :
    (planSetAll cfg mode s addrs clock).records.all (fun r => !r.numbers) = true :=
  all_mono unnumbered_of_plain plain_planSetAll

theorem unnumbered_planUnpinAll :
    (planUnpinAll s addrs {}).batch.all (fun r => !r.numbers) = true :=
  all_mono (fun record hUnpins =>
      unnumbered_of_plain record (plain_of_unpins record hUnpins))
    (unpins_planUnpinAll addrs)

/-
  What batches without such records keep is kept by the batches of one bin, of several bins, and of
  a whole `UnreserveBatch`.
-/
theorem afterBin_of_unnumbered {Kept : Store → Prop}
    (hKept : ∀ t batch, Kept t → batch.all (fun r => !r.numbers) = true → Kept (t.writeBatch batch))
    (hStart : Kept s) (id : BatchID) : Kept (s.afterBin id bin) := by
  apply hKept _ _ hStart
  unfold Store.binRecords Store.unpinBin
  rw [List.all_append, List.all_append, List.all_append, unnumbered_planUnpinAll,
    unnumbered_sizeRecords (fun _ => rfl)]
  split <;> rfl

theorem afterBins_of_unnumbered {Kept : Store → Prop}
    (hKept : ∀ t batch, Kept t → batch.all (fun r => !r.numbers) = true → Kept (t.writeBatch batch))
    (hStart : Kept s) (id : BatchID) (bin count : Nat) : Kept (s.afterBins id bin count) := by
  induction count generalizing s bin with
  | zero => exact hStart
  | succ count ih => exact ih (afterBin_of_unnumbered hKept hStart id) (bin + 1)

theorem afterUnreserve_of_unnumbered {Kept : Store → Prop}
    (hKept : ∀ t batch, Kept t → batch.all (fun r => !r.numbers) = true → Kept (t.writeBatch batch))
    (hStart : Kept s) (id : BatchID) : Kept (s.afterUnreserve id radius) := by
  apply hKept _ _ (afterBins_of_unnumbered hKept hStart id _ _)
  unfold Store.finishRecords
  rw [List.all_append, Bool.and_eq_true]
  refine ⟨?_, ?_⟩
  · split <;> rfl
  · split
    · exact unnumbered_sizeRecords (fun _ => rfl)
    · rfl

theorem unnumbered_planUpdateGC :
    (planUpdateGC s item now).records.all (fun r => !r.numbers) = true :=
  all_mono unnumbered_of_plain (plain_planUpdateGC item now)

theorem unnumbered_planCommit :
    (planCommit cfg s collected).all (fun r => !r.numbers) =
      true := by
  unfold planCommit
  simp [collectRecords, Write.numbers, Item.deleteRetrievalData,
    Item.deleteRetrievalAccess, Item.deletePull, Item.deleteGC, Item.deletePostageChunks,
    Item.deletePostageIndex]

---- The Chunks Of A Put Call

section

/-
  The bin IDs that a call has assigned up to some chunk: they increase, they are above those of the
  database and below the next one, and pull entries carry them.
-/
structure Numbered (cfg : Config) (s : Store) (seen : List Chunk) (st : PutState) : Prop where
  increasing : (newlyStored s (s.writeBatch st.batch) seen).Pairwise (Later cfg)
  between :
    ∀ x ∈ newlyStored s (s.writeBatch st.batch) seen,
      s.getBinID (cfg.po x.address) < x.binID ∧ x.binID < nextBinID s st.binIDs (cfg.po x.address)
  pulled :
    ∀ key x, .pull key (some x) ∈ st.batch →
      key.po = cfg.po x.address ∧
        ⟨x.address, key.binID⟩ ∈ newlyStored s (s.writeBatch st.batch) seen

variable {mode : ModePut}
variable {seen : List Chunk} {st : PutState} {ch : Chunk}
variable {clock : Clock} {exist : Bool} {c : Int}
variable {binIDs : BinIDs}

theorem not_pull_of_ordinary {batch : Batch} (hAll : batch.all Write.ordinary = true) :
    .pull key (some x) ∉ batch := by
  intro hMem
  have hOrdinary := List.all_eq_true.mp hAll _ hMem
  cases hOrdinary

/- The pull entry that a stored chunk gets. -/
theorem pull_of_mem_planStore
    (hMem : .pull key (some x) ∈ (planStore cfg mode s binIDs ch previous clock).records) :
    key = ⟨cfg.po ch.address, nextBinID s binIDs (cfg.po ch.address)⟩ ∧ x.address = ch.address := by
  cases storeRecord_of_mem hMem with
  | released hMem => exact absurd hMem (not_pull_of_ordinary (ordinary_planRelease previous))
  | kept _ _ _ hMem => exact absurd hMem (not_pull_of_ordinary (ordinary_planPreserve _ _ _))
  | own item accessTime hItem hMem =>
    subst hItem
    simp only [List.mem_cons, List.not_mem_nil, or_false] at hMem
    rcases hMem with hMem | hMem | hMem | hMem | hMem | hMem <;> cases hMem
    exact ⟨rfl, rfl⟩

/- What a put of one chunk assigns. -/
structure Assigns (cfg : Config) (s : Store) (binIDs : BinIDs) (ch : Chunk)
    (plan : PutPlan) : Prop where
  bins : plan.binIDs = if s.accepts ch then
        Index.put binIDs (cfg.po ch.address) (nextBinID s binIDs (cfg.po ch.address))
      else binIDs
  pulled :
    ∀ key x, .pull key (some x) ∈ plan.records →
      s.accepts ch = true ∧ key = ⟨cfg.po ch.address, nextBinID s binIDs (cfg.po ch.address)⟩ ∧
        x.address = ch.address

theorem assigns_planPut (hOk : (planPut cfg mode s binIDs ch clock).outcome = .ok (exist, c)) :
    Assigns cfg s binIDs ch (planPut cfg mode s binIDs ch clock) := by
  have hPinned : ∀ key x, .pull key (some x) ∉ (planUploadPin mode s ch.address).records :=
    fun _ _ => not_pull_of_ordinary (ordinary_planUploadPin _)
  cases hAccepts : s.accepts ch with
  | false =>
    rw [(planPut_refused hOk hAccepts).2]
    constructor
    · rw [hAccepts]
      rfl
    · intro key x hMem
      exact absurd hMem (hPinned key x)
  | true =>
    rcases planPut_accepted hOk hAccepts with
      ⟨previous, removal, -, -, -, hReplaced, -, -, -, hPlan⟩
    rw [hPlan]
    constructor
    · rw [hAccepts]
      exact binIDs_planStore previous
    · intro key x hMem
      simp only [List.mem_append] at hMem
      rcases hMem with (hMem | hMem) | hMem
      · exfalso
        cases hReplaced with
        | absent hIndex => cases hMem
        | removed p c' hDisplaced hChange => exact not_pull_of_ordinary (ordinary_planRemove p) hMem
      · exact ⟨hAccepts, pull_of_mem_planStore hMem⟩
      · exact absurd hMem (hPinned key x)

section Step

variable (hCons : s.Consistent cfg)
variable (hBatched : Batched cfg mode s seen st)
variable (hSeen : containsChunk ch.address seen = false)
variable (hOk : (planPut cfg mode s st.binIDs ch clock).outcome = .ok (exist, c))

include hCons hBatched hSeen hOk in
/- One more chunk adds itself when it is accepted. -/
theorem newlyStored_step :
    newlyStored s (s.writeBatch (st.batch ++ (planPut cfg mode s st.binIDs ch clock).records))
        (seen ++ [ch]) = newlyStored s (s.writeBatch st.batch) seen ++ if s.accepts ch then
          [⟨ch.address, nextBinID s st.binIDs (cfg.po ch.address)⟩]
        else [] := by
  have hAfter :
      ∀ a,
        (s.writeBatch
          (st.batch ++ (planPut cfg mode s st.binIDs ch clock).records)).retrievalDataIndex.get a =
          (onView a ((s.writeBatch st.batch).view a)
            (planPut cfg mode s st.binIDs ch clock).records).data := by
    intro a
    rw [Store.writeBatch_append, ← view_writeBatch]
    rfl
  unfold newlyStored
  rw [firstChunks_of_not_seen hSeen, List.filterMap_append]
  congr 1
  · apply List.filterMap_congr
    intro c' hMem
    cases hData : s.retrievalDataIndex.get c'.address with
    | some d => rfl
    | none =>
      have hNe : ch.address ≠ c'.address := by
        intro hEq
        have hContains := containsChunk_of_mem hMem
        rw [containsChunk_firstChunks, ← hEq, hSeen] at hContains
        cases hContains
      have hKept : s.displaced ch ≠ some c'.address := by
        intro hDisplaced
        have hHas := has_of_displaced hOk hDisplaced
        rw [(Index.has_eq_false_iff _ _).mpr hData] at hHas
        cases hHas
      rw [hAfter, data_planPut_of_ne hOk hNe, if_neg hKept]
      rfl
  · cases hAccepts : s.accepts ch with
    | true =>
      have hData := (Index.has_eq_false_iff _ _).mp (has_of_accepts hAccepts)
      simp only [List.filterMap_cons, hData]
      rw [hAfter, hBatched.view_of_data hSeen hData, data_planPut_eq_newData hCons hOk hAccepts]
      rfl
    | false =>
      cases hData : s.retrievalDataIndex.get ch.address with
      | some d => simp [hData]
      | none =>
        have hNone : ((s.writeBatch st.batch).view ch.address).data = none := by
          rw [hBatched.view_of_data hSeen hData]
          exact hData
        simp only [List.filterMap_cons, hData]
        rw [hAfter, data_planPut_of_not_accepts hOk hAccepts, hNone]
        rfl

include hCons hBatched hSeen hOk in
theorem Numbered.step (hNumbered : Numbered cfg s seen st) :
    Numbered cfg s (seen ++ [ch]) (st.next (planPut cfg mode s st.binIDs ch clock) exist c) := by
  have hNew := newlyStored_step hCons hBatched hSeen hOk
  have hAssigns := assigns_planPut hOk
  have hBins :
      ∀ po, nextBinID s st.binIDs po ≤ nextBinID s (planPut cfg mode s st.binIDs ch clock).binIDs
            po := by
    intro po
    rw [hAssigns.bins]
    split
    · unfold nextBinID
      rw [Index.get_put]
      split
      · next hEq =>
          rw [hEq]
          simp
      · exact le_refl _
    · exact le_refl _
  constructor
  · simp only [PutState.next]
    rw [hNew, List.pairwise_append]
    refine ⟨hNumbered.increasing, ?_, ?_⟩
    · split <;> simp
    · intro old hOld new hMem hBin
      split at hMem
      · rw [List.mem_singleton.mp hMem] at hBin ⊢
        have hBelow := (hNumbered.between old hOld).2
        rw [hBin] at hBelow
        exact hBelow
      · cases hMem
  · simp only [PutState.next]
    rw [hNew]
    intro x hMem
    rcases List.mem_append.mp hMem with hMem | hMem
    · have hOld := hNumbered.between x hMem
      exact ⟨hOld.1, hOld.2.trans_le (hBins _)⟩
    · cases hAccepts : s.accepts ch with
      | false => simp [hAccepts] at hMem
      | true =>
        simp only [hAccepts, if_true, List.mem_singleton] at hMem
        rw [hMem]
        refine ⟨getBinID_lt_nextBinID hBatched.ahead _, ?_⟩
        rw [hAssigns.bins, hAccepts]
        simp [nextBinID]
  · simp only [PutState.next]
    rw [hNew]
    intro key x hMem
    rcases List.mem_append.mp hMem with hMem | hMem
    · have hOld := hNumbered.pulled key x hMem
      exact ⟨hOld.1, List.mem_append_left _ hOld.2⟩
    · rcases hAssigns.pulled key x hMem with ⟨hAccepts, rfl, hAddress⟩
      rw [hAddress, hAccepts]
      exact ⟨rfl, List.mem_append_right _ (by simp)⟩

end Step

theorem Numbered.skip (hNumbered : Numbered cfg s seen st)
    (hSeen : containsChunk ch.address seen = true) (flags : List Bool) :
    Numbered cfg s (seen ++ [ch]) { st with exist := flags } := by
  have hSame :
      newlyStored s (s.writeBatch st.batch) (seen ++ [ch]) =
        newlyStored s (s.writeBatch st.batch) seen := by
    unfold newlyStored
    rw [firstChunks_of_seen hSeen]
  constructor
  · rw [hSame]
    exact hNumbered.increasing
  · rw [hSame]
    exact hNumbered.between
  · rw [hSame]
    exact hNumbered.pulled

theorem numbered_start : Numbered cfg s [] {} where
  increasing := .nil
  between := by
    intro x hMem
    cases hMem
  pulled := by
    intro key x hMem
    cases hMem

/- What a whole call numbers. -/
theorem numbered_planPutAll (hCons : s.Consistent cfg)
    (hResult : (planPutAll cfg mode s [] chs {} clock).result = .ok st) :
    Numbered cfg s chs st := by
  have hBoth := planPutAll_invariant
    (fun seen st => Batched cfg mode s seen st ∧ Numbered cfg s seen st) hResult
    ⟨batched_start, numbered_start⟩ (fun hInv hSeen => ⟨hInv.1.skip hSeen _, hInv.2.skip hSeen _⟩)
    fun _ hInv hSeen hOk => ⟨hInv.1.step hCons hSeen hOk, hInv.2.step hCons hInv.1 hSeen hOk⟩
  exact hBoth.2

end

---- Calls Continue Their History

variable {s' : Store} {db : DB} {op : Op}

/- Stored chunks are old or new. -/
theorem stored_of_batched (hBatched : Batched cfg mode s chs st)
    (hData : (s.writeBatch st.batch).retrievalDataIndex.get a = some d) :
    s.retrievalDataIndex.get a = some d ∨
      ⟨a, d.binID⟩ ∈ newlyStored s (s.writeBatch st.batch) chs := by
  have hView := hBatched.view a
  have hAfter : (onView a (s.view a) st.batch).data = some d := by
    rw [← view_writeBatch]
    exact hData
  generalize onView a (s.view a) st.batch = v at hView hAfter
  cases hView with
  | same => exact Or.inl hAfter
  | stored ch d' c hMem hAddress hNone hAccepts hStamp hBytes hStored =>
    right
    have hContains : containsChunk a (firstChunks chs) =
        true := by
      rw [containsChunk_firstChunks, ← hAddress]
      exact containsChunk_of_mem hMem
    simp only [containsChunk, List.any_eq_true, beq_iff_eq] at hContains
    rcases hContains with ⟨first, hFirst, rfl⟩
    refine List.mem_filterMap.mpr ⟨first, hFirst, ?_⟩
    simp [hNone, hData]
  | gone ch d' hMem hDisplaced hSome hGone =>
    rw [hGone.data] at hAfter
    cases hAfter
  | pinned ch hMem hAddress hMode hPinned =>
    left
    rw [hPinned.data] at hAfter
    exact hAfter

/- Counters and bin IDs are no part of the chunk data. -/
theorem retrievalDataIndex_allRecords (st : PutState) :
    (s.writeBatch (st.allRecords s)).retrievalDataIndex =
      (s.writeBatch st.batch).retrievalDataIndex := by
  have hContents :
      (s.writeBatch (st.allRecords s)).contents = (s.writeBatch st.batch).contents := by
    rw [contents_writeBatch, lasting_allRecords, contents_writeBatch]
  have hIndex := congrArg Store.retrievalDataIndex hContents
  exact hIndex

theorem newlyStored_allRecords (s : Store) (st : PutState) (chs : List Chunk) :
    newlyStored s (s.writeBatch (st.allRecords s)) chs =
      newlyStored s (s.writeBatch st.batch) chs := by
  unfold newlyStored
  rw [retrievalDataIndex_allRecords]

/- Pull entries are old or belong to new chunks. -/
theorem pulled_of_numbered (hNumbered : Numbered cfg s chs st)
    (hPull : (s.writeBatch (st.allRecords s)).pullIndex.get key = some x) :
    s.pullIndex.get key = some x ∨
      key.po = cfg.po x.address ∧
        ⟨x.address, key.binID⟩ ∈ newlyStored s (s.writeBatch st.batch) chs := by
  rcases pullIndex_writeBatch s (st.allRecords s) key with hSame | hRecord
  · exact Or.inl (hSame.symm.trans hPull)
  · rw [hPull] at hRecord
    have hMem : .pull key (some x) ∈ st.batch := by
      simp only [PutState.allRecords, List.mem_append, List.mem_map] at hRecord
      rcases hRecord with (hMem | ⟨entry, -, hEq⟩) | hMem
      · exact hMem
      · cases hEq
      · rcases mem_sizeRecords_gcSize hMem with ⟨n, hEq⟩
        cases hEq
    exact Or.inr (hNumbered.pulled key x hMem)

/- A successful put call. -/
theorem Recorded.put (hCons : s.Consistent cfg) (hRecorded : Recorded cfg s history)
    (hResult : (planPutAll cfg mode s [] chs {} clock).result = .ok st) :
    Recorded cfg (s.writeBatch (st.allRecords s))
      (history ++ newlyStored s (s.writeBatch (st.allRecords s)) chs) := by
  have hBatched := batched_planPutAll hCons hResult
  have hNumbered := numbered_planPutAll hCons hResult
  have hNext :
      ∀ po, (s.writeBatch (st.allRecords s)).getBinID po + 1 = nextBinID s st.binIDs po := by
    intro po
    unfold Store.getBinID nextBinID
    rw [binIDs_allRecords fun record hMem => (hBatched.records record hMem).not_counter.1]
    cases st.binIDs.get po <;> rfl
  rw [newlyStored_allRecords]
  constructor
  · rw [List.pairwise_append]
    refine ⟨hRecorded.increasing, hNumbered.increasing, ?_⟩
    intro old hOld new hMem hBin
    have hBelow := hRecorded.assigned old hOld
    have hAbove := (hNumbered.between new hMem).1
    rw [← hBin] at hAbove
    exact hBelow.trans_lt hAbove
  · intro x hMem
    have hPo := hNext (cfg.po x.address)
    rcases List.mem_append.mp hMem with hMem | hMem
    · have hOld := hRecorded.assigned x hMem
      have hAhead := getBinID_lt_nextBinID hBatched.ahead (cfg.po x.address)
      omega
    · have hBelow := (hNumbered.between x hMem).2
      omega
  · intro a d hSome
    rw [retrievalDataIndex_allRecords] at hSome
    rcases stored_of_batched hBatched hSome with hOld | hMem
    · exact List.mem_append_left _ (hRecorded.stored a d hOld)
    · exact List.mem_append_right _ hMem
  · intro key x hPull
    rcases pulled_of_numbered hNumbered hPull with hSame | hNew
    · have hOld := hRecorded.pulled key x hSame
      exact ⟨hOld.1, List.mem_append_left _ hOld.2⟩
    · exact ⟨hNew.1, List.mem_append_right _ hNew.2⟩

/- A step that is no put call stores no chunk. -/
theorem StoreStep.put_or_unnumbered (hStep : StoreStep cfg s op s') (Kept : Store → Prop)
    (hKept : ∀ t batch, Kept t → batch.all (fun r => !r.numbers) = true → Kept (t.writeBatch batch))
    (hStart : Kept s) :
    (∃ mode chs clock st,
      op = .put mode chs ∧ (planPutAll cfg mode s [] chs {} clock).result = .ok st ∧
        s' = s.writeBatch (st.allRecords s)) ∨ Kept s' ∧ newlyStored s s' op.chunks = [] := by
  cases hStep with
  | putExisting mode ch hMode hData =>
    refine Or.inr ⟨hStart, ?_⟩
    rcases (Index.has_eq_true_iff _ _).mp hData with ⟨d, hSome⟩
    simp [Op.chunks, newlyStored, firstChunks, containsChunk, hSome]
  | put mode chs clock st hResult => exact Or.inl ⟨mode, chs, clock, st, rfl, hResult, rfl⟩
  | set mode addrs clock c hChange =>
    refine Or.inr ⟨hKept _ _ hStart ?_, rfl⟩
    rw [List.all_append, unnumbered_planSetAll, unnumbered_sizeRecords (fun _ => rfl)]
    rfl
  | getRequest a d now hData => exact Or.inr ⟨hKept _ _ hStart unnumbered_planUpdateGC, rfl⟩
  | unreserveBatch id radius =>
    exact Or.inr ⟨afterUnreserve_of_unnumbered hKept hStart id, rfl⟩
  | collectNothing => exact Or.inr ⟨hStart, rfl⟩
  | collectGarbage candidates hSnapshot =>
    exact Or.inr ⟨hKept _ _ hStart unnumbered_planCommit, rfl⟩

/- A step in closed form. -/
theorem StoreStep.recorded (hCons : s.Consistent cfg) (hRecorded : Recorded cfg s history)
    (hStep : StoreStep cfg s op s') : Recorded cfg s' (history ++ newlyStored s s' op.chunks) := by
  rcases hStep.put_or_unnumbered (fun t => Recorded cfg t history)
    (fun _ _ hOld hNone => hOld.of_records hNone) hRecorded with
    ⟨mode, chs, clock, st, rfl, hResult, rfl⟩ | ⟨hSame, hNone⟩
  · exact hRecorded.put hCons hResult
  · rw [hNone, List.append_nil]
    exact hSame

/- A pull entry is old or belongs to a chunk just stored. -/
theorem StoreStep.pulled (hCons : s.Consistent cfg) (hStep : StoreStep cfg s op s')
    (hPull : s'.pullIndex.get key = some x) :
    s.pullIndex.get key = some x ∨ ⟨x.address, key.binID⟩ ∈ newlyStored s s' op.chunks := by
  rcases hStep.put_or_unnumbered (fun t =>
      t.pullIndex.get key = some x → s.pullIndex.get key = some x)
    (by
      intro t batch hOld hNone hNew
      rcases pullIndex_writeBatch t batch key with hSame | hRecord
      · exact hOld (hSame.symm.trans hNew)
      · rw [hNew] at hRecord
        have hFalse := List.all_eq_true.mp hNone _ hRecord
        cases hFalse)
    id with
    ⟨mode, chs, clock, st, rfl, hResult, rfl⟩ | ⟨hSame, hNone⟩
  · have hNumbered := numbered_planPutAll hCons hResult
    have hNew := newlyStored_allRecords s st chs
    rcases pulled_of_numbered hNumbered hPull with hOld | hOld
    · exact Or.inl hOld
    · right
      rw [Op.chunks, hNew]
      exact hOld.2
  · exact Or.inl (hSame hPull)

/- Calls between two collections leave none behind. -/
theorem DB.Idle.of_call (hIdle : db.Idle) (hCons : db.store.Consistent cfg) (op : Op)
    (clock : Clock) :
    let after := ((op.call cfg).run clock db).state
    (after.store = db.store ∨ StoreStep cfg db.store op after.store) ∧ after.Idle := by
  intro after
  by_cases hOk : ((op.call cfg).run clock db).value = true
  · have hStep := storeStep_of_step hIdle hCons ⟨clock, hOk, rfl⟩
    exact ⟨Or.inr hStep.1, hStep.2⟩
  cases op with
  | put mode chs =>
    have hState : after = ((Localstore.put cfg mode chs).run clock db).state := by
      unfold after
      simp [Op.call]
    rw [hState]
    have hEffect : CallEffect cfg (.put mode chs) db _ := .of_put mode chs clock
    exact ⟨hEffect.store.imp_right And.left, hIdle.put mode chs clock⟩
  | set mode addrs =>
    have hState : after = ((Localstore.set cfg mode addrs).run clock db).state := by
      unfold after
      simp [Op.call]
    rw [hState]
    have hEffect : CallEffect cfg (.set mode addrs) db _ := .of_set mode addrs clock
    exact ⟨hEffect.store.imp_right And.left, hIdle.set mode addrs clock⟩
  | getRequest a =>
    have hState : after = db := by
      unfold after
      simp only [Op.call, Call.run_bind, run_getItem] at hOk ⊢
      cases hData : db.store.retrievalDataIndex.get a with
      | none => simp
      | some d => simp [hData] at hOk
    rw [hState]
    exact ⟨Or.inl rfl, hIdle⟩
  | unreserveBatch id radius | collectGarbage => exact absurd (by simp [Op.call]) hOk

/- A call that leaves the database alone stores nothing. -/
theorem newlyStored_self : newlyStored s s chs = [] := by
  unfold newlyStored
  rw [List.filterMap_eq_nil_iff]
  intro ch _
  cases s.retrievalDataIndex.get ch.address <;> rfl

/- Every call continues its history. -/
theorem CallStep.recorded (hStep : CallStep cfg op before after)
    (hCons : before.1.store.Consistent cfg) (hIdle : before.1.Idle)
    (hRecorded : Recorded cfg before.1.store before.2) :
    after.1.store.Consistent cfg ∧ after.1.Idle ∧ Recorded cfg after.1.store after.2 := by
  rcases hStep with ⟨clock, hState, hHistory⟩
  have hCall := hIdle.of_call hCons op clock
  rw [hState] at hCall
  rcases hCall with ⟨hStore, hAfter⟩
  rw [hHistory]
  rcases hStore with hSame | hStep
  · rw [hSame, newlyStored_self, List.append_nil]
    exact ⟨hCons, hAfter, hRecorded⟩
  · exact ⟨hStep.consistent hCons, hAfter, hStep.recorded hCons hRecorded⟩

/- How keys of the pull index compare. -/
theorem compare_pullKey (left right : PullKey) :
    compare left right = .lt ↔
      left.po < right.po ∨ left.po = right.po ∧ left.binID < right.binID := by
  have hKeys : compare left right = compareKeys PullKey.po PullKey.binID left right := rfl
  simp only [hKeys, compareKeys, compareLex, compareOn,
    Ordering.then_eq_lt, Nat.compare_eq_lt, Nat.compare_eq_eq]

/- The keys of one bin are ordered by their bin IDs. -/
theorem binID_lt_of_compare {left right : PullKey} (hPo : left.po = right.po)
    (hLt : compare left right = .lt) : left.binID < right.binID := by
  rw [compare_pullKey] at hLt
  omega

theorem recorded_empty (cfg : Config) : Recorded cfg DB.empty.store [] where
  increasing := .nil
  assigned := nofun
  stored a d hData := by cases hData
  pulled key x hPull := by cases hPull

end Sana.Localstore
