import Sana.Localstore.Batching

/-
  A call with several chunks against one call for each.

  The two ways are followed side by side, chunk by chunk, up to the first chunk that is not clear of
  those before it. From there on the flags or the stored chunks differ.

  Key definitions include:
    * `Matched`

  Key theorems include:
    * `Matched.skip`
-/

---- The Two Ways Side By Side

namespace Sana.Localstore

open KeyValue Program Swarm

variable {cfg : Config} {mode : ModePut} {s t : Store} {seen : List Chunk} {st : PutState}
variable {ch : Chunk} {clock : Clock} {exist exist' : Bool} {c c' : Int} {chs : List Chunk}

/- The pins of an address after uploads one by one. -/
def Store.pinsEach (s : Store) (seen : List Chunk) (a : Address) : Option Nat :=
  if s.gone seen a then none
  else if occurrences a seen = 0 then s.pinIndex.get a
  else some ((s.view a).pins + occurrences a seen)

/-
  The pins of an address after uploads in one call.  A repeat adds no pin, and the removal of a
  chunk that was collectable leaves the pin of the same call in place.
-/
def Store.pinsBatched (s : Store) (seen : List Chunk) (a : Address) : Option Nat :=
  if s.gone seen a then if 0 < occurrences a seen ∧ s.inGC a then some 1 else none
  else if occurrences a seen = 0 then s.pinIndex.get a
  else some ((s.view a).pins + 1)

/- The database after some chunks one by one, and the records of a call with the same chunks. -/
structure Matched (cfg : Config) (mode : ModePut) (s : Store) (seen : List Chunk) (st : PutState)
    (t : Store) : Prop where
  agrees : (s.writeBatch st.batch).Agrees t
  plain : mode ≠ .uploadPin → t.pinIndex = (s.writeBatch st.batch).pinIndex
  pinned :
    mode = .uploadPin → ∀ a,
      t.pinIndex.get a = s.pinsEach seen a ∧
        (s.writeBatch st.batch).pinIndex.get a = s.pinsBatched seen a
  gcSize : t.gcSize = ((firstChunks seen).map (s.gcChange cfg mode)).foldl adjusted s.gcSize
  reserveSize :
    t.reserveSize = ((firstChunks seen).map (s.reserveChange cfg mode)).foldl adjusted s.reserveSize
  binIDs : ∀ po, t.binIDs.get po = (st.binIDs.get po).or (s.binIDs.get po)

theorem matched_start : Matched cfg mode s [] {} s where
  agrees := .refl s
  plain := fun _ => rfl
  pinned := fun _ _ => ⟨rfl, rfl⟩
  gcSize := rfl
  reserveSize := rfl
  binIDs := by
    simp

theorem occurrences_eq_zero (hSeen : containsChunk a seen = false) : occurrences a seen = 0 := by
  simp only [occurrences, List.countP_eq_zero, decide_eq_true_eq]
  exact containsChunk_eq_false hSeen

theorem occurrences_pos (hSeen : containsChunk a seen = true) : 0 < occurrences a seen := by
  simp only [containsChunk, List.any_eq_true, beq_iff_eq] at hSeen
  rcases hSeen with ⟨c, hMem, hEq⟩
  exact List.countP_pos_iff.mpr ⟨c, hMem, by simp [hEq]⟩

/- A chunk that is stored and still held is not gone. -/
theorem not_gone_of_holdsAfter (hHas : s.retrievalDataIndex.has a = true)
    (hHolds : s.holdsAfter seen a = true) : s.gone seen a = false := by
  unfold Store.holdsAfter at hHolds
  rw [containsChunk_taken_of_has hHas, hHas] at hHolds
  simpa using hHolds

/- What holds at a chunk that has not occurred yet. -/

section First

variable (hBatched : Batched cfg mode s seen st)
variable (hMatched : Matched cfg mode s seen st t)
variable (hSeen : containsChunk ch.address seen = false)
variable (hClear : s.Clear seen ch)

include hBatched hMatched in
theorem Matched.has (a : Address) : t.retrievalDataIndex.has a = s.holdsAfter seen a := by
  have hView := hMatched.agrees.view a
  rw [← hBatched.holds a]
  exact congrArg (fun v => v.data.isSome) hView

include hBatched in
/- Only a stored chunk can be displaced. -/
theorem Batched.not_gone (hHas : s.retrievalDataIndex.has a = false) : s.gone seen a = false := by
  cases hGone : s.gone seen a with
  | false => rfl
  | true =>
    rcases gone_eq_true_iff.mp hGone with ⟨c, hMem, hDisplaced⟩
    rw [hBatched.removed c hMem a hDisplaced] at hHas
    cases hHas

include hBatched hClear in
theorem Batched.not_gone_first : s.gone seen ch.address = false := by
  cases hHas : s.retrievalDataIndex.has ch.address with
  | false => exact hBatched.not_gone hHas
  | true => exact not_gone_of_holdsAfter hHas (hClear.stored (Or.inr hHas))

include hBatched hSeen hClear in
theorem Batched.view_first : (s.writeBatch st.batch).view ch.address = s.view ch.address := by
  cases hHas : s.retrievalDataIndex.has ch.address with
  | false => exact hBatched.view_of_data hSeen ((Index.has_eq_false_iff _ _).mp hHas)
  | true =>
    have hHolds := hClear.stored (Or.inr hHas)
    rw [← hBatched.holds] at hHolds
    rcases (hBatched.view ch.address).untreated hSeen with hSame | ⟨c, d, -, -, -, hGone⟩
    · rw [view_writeBatch, hSame]
    · rw [← view_writeBatch] at hGone
      have hNone := (Index.has_eq_false_iff (s.writeBatch st.batch).retrievalDataIndex
        ch.address).mpr hGone.data
      rw [hNone] at hHolds
      cases hHolds

include hBatched hMatched hSeen hClear in
theorem Matched.view_first : t.view ch.address = s.view ch.address := by
  have hView := hBatched.view_first hSeen hClear
  have hPin : t.pinIndex.get ch.address = s.pinIndex.get ch.address := by
    by_cases hMode : mode = .uploadPin
    · rw [(hMatched.pinned hMode ch.address).1]
      unfold Store.pinsEach
      rw [hBatched.not_gone_first hClear, occurrences_eq_zero hSeen]
      rfl
    · rw [hMatched.plain hMode]
      exact congrArg View.pin hView
  rw [hMatched.agrees.view, hView, hPin]
  rfl

include hBatched hMatched hSeen hClear in
theorem Matched.has_first :
    t.retrievalDataIndex.has ch.address = s.retrievalDataIndex.has ch.address :=
  congrArg (fun v => v.data.isSome) (hMatched.view_first hBatched hSeen hClear)

include hBatched hMatched hSeen hClear in
/- The chunk is accepted in both ways or in none. -/
theorem Matched.accepts_first : t.accepts ch = s.accepts ch ∧ t.displaced ch = s.displaced ch := by
  have hHas := hMatched.has_first hBatched hSeen hClear
  have hStamps := hMatched.agrees.stamps
  have hSame :
      t.postageIndexIndex.get ch.stampKey = s.postageIndexIndex.get ch.stampKey →
        t.accepts ch = s.accepts ch ∧ t.displaced ch = s.displaced ch := by
    intro hKey
    simp only [Store.accepts, Store.displaced, hHas, hKey, and_self]
  by_cases hFree : ∀ c ∈ s.taken seen, c.stampKey ≠ ch.stampKey
  · apply hSame
    rw [hStamps]
    exact hBatched.unstamped _ hFree
  · simp only [not_forall, not_not] at hFree
    rcases hFree with ⟨c, hMem, hKey⟩
    -- a chunk stored before holds the index now
    have hRefused : s.accepts ch = false := by
      cases hAccepts : s.accepts ch with
      | false => rfl
      | true => exact absurd hKey (hClear.stamp hSeen hAccepts c hMem)
    have hRefused' : t.accepts ch = false := by
      rcases hBatched.stamped c hMem with ⟨c', hMem', hKey', hHolder⟩
      have hAccepts' := accepts_of_mem_taken hMem'
      unfold Store.accepts at hRefused hAccepts' ⊢
      rw [hStamps, ← hKey, hHolder, hHas]
      rw [hKey', hKey] at hAccepts'
      cases hPrevious : s.postageIndexIndex.get ch.stampKey with
      | none =>
        rw [hPrevious, Bool.and_true] at hRefused
        rw [hRefused, Bool.false_and]
      | some previous =>
        rw [hPrevious] at hRefused hAccepts'
        simp only [Bool.and_eq_true, Bool.not_eq_true', decide_eq_true_eq, Bool.and_eq_false_iff,
          Bool.not_eq_false', decide_eq_false_iff_not,
          gt_iff_lt, UInt64.not_lt] at hRefused hAccepts' ⊢
        exact hRefused.imp_right fun hOld => UInt64.le_trans hOld (UInt64.le_of_lt hAccepts'.2)
    rw [hRefused, hRefused', displaced_of_not_accepts hRefused, displaced_of_not_accepts hRefused']
    exact ⟨rfl, rfl⟩

end First

---- One More Chunk In Both Ways

section

variable {w : Store}

/- The records of a call, and those of its chunks alone. -/

theorem lasting_allRecords (s : Store) (st : PutState) :
    lasting (st.allRecords s) = lasting st.batch := by
  unfold PutState.allRecords
  simp only [lasting_append, lasting_binIDs, lasting_gcSize, List.append_nil]

theorem contents_allRecords (s : Store) (st : PutState) :
    (s.writeBatch (st.allRecords s)).contents = (s.writeBatch st.batch).contents := by
  rw [contents_writeBatch, lasting_allRecords, contents_writeBatch]

theorem reserveSize_allRecords :
    (s.writeBatch (st.allRecords s)).reserveSize = (s.writeBatch st.batch).reserveSize := by
  unfold PutState.allRecords
  rw [Store.writeBatch_append, reserveSize_gcSize, Store.writeBatch_append]
  refine writeBatch_keeps Store.reserveSize (fun record hMem w => ?_) _
  rcases List.mem_map.mp hMem with ⟨entry, -, rfl⟩
  rfl

theorem gcSize_allRecords (hNone : ∀ record ∈ st.batch, ∀ n, record ≠ .gcSize n) :
    (s.writeBatch (st.allRecords s)).gcSize = adjusted s.gcSize st.gcSizeChange := by
  have hFree : ∀ record ∈ st.batch ++ (st.binIDs.entries.map fun entry =>
              Write.binID entry.1 entry.2),
        ∀ n, record ≠ .gcSize n := by
    intro record hMem n
    rcases List.mem_append.mp hMem with hMem | hMem
    · exact hNone record hMem n
    · rcases List.mem_map.mp hMem with ⟨entry, -, rfl⟩
      nofun
  unfold PutState.allRecords
  rw [Store.writeBatch_append, gcSize_writeBatch_sizeRecords,
    gcSize_writeBatch hFree, overwritten_self]

theorem binIDs_allRecords (hNone : ∀ record ∈ st.batch, ∀ po n, record ≠ .binID po n) (po : Nat) :
    (s.writeBatch (st.allRecords s)).binIDs.get po = (st.binIDs.get po).or (s.binIDs.get po) := by
  have hSize :
      ∀ record ∈ sizeRecords Write.gcSize s.gcSize st.gcSizeChange,
        ∀ po n, record ≠ .binID po n := by
    intro record hMem po n
    unfold sizeRecords at hMem
    split at hMem
    · cases hMem
    · cases hChanged : changedSize s.gcSize st.gcSizeChange with
      | none =>
        rw [hChanged] at hMem
        cases hMem
      | some size =>
        rw [hChanged] at hMem
        rw [List.mem_singleton.mp hMem]
        nofun
  unfold PutState.allRecords
  rw [Store.writeBatch_append, binIDs_writeBatch hSize,
    Store.writeBatch_append, binIDs_writeBatch_entries, binIDs_writeBatch hNone]

/- No record of a put writes a counter of the whole call. -/
theorem PutRecord.not_counter (hRecord : PutRecord cfg s seen record) :
    (∀ po n, record ≠ .binID po n) ∧ ∀ n, record ≠ .gcSize n := by
  cases hRecord with
  | ordinary hOrdinary =>
    refine ⟨?_, ?_⟩
    · rintro po n rfl
      cases hOrdinary
    · rintro n rfl
      cases hOrdinary
  | pulled ch binID hMem hNew | stamped ch hMem hAccepts => exact ⟨nofun, nofun⟩

/- A call with one chunk as a call of its own. -/
def PutPlan.alone (plan : PutPlan) (c : Int) : PutState where
  batch := plan.records
  binIDs := plan.binIDs
  exist := []
  gcSizeChange := c

theorem afterOne_eq : t.afterOne plan c = t.writeBatch ((plan.alone c).allRecords t) :=
  rfl

theorem view_afterOne (plan : PutPlan) (c : Int) (a : Address) :
    (t.afterOne plan c).view a = onView a (t.view a) plan.records := by
  have hCounts : ∀ (batch : Batch) (v : View), lasting batch = [] → onView a v batch = v := by
    intro batch v hNone
    apply onView_of_forall_ne
    intro record hMem hSome
    have hCounts : record.counts = true := by
      cases hCounts : record.counts with
      | true => rfl
      | false =>
        have hKept : record ∈ lasting batch := List.mem_filter.mpr ⟨hMem, by simp [hCounts]⟩
        rw [hNone] at hKept
        cases hKept
    rw [Write.address_of_counts hCounts] at hSome
    cases hSome
  unfold Store.afterOne
  rw [view_writeBatch, onView_append, onView_append, hCounts _ _ (lasting_gcSize _ _),
    hCounts _ _ (lasting_binIDs _)]

section AfterOne

variable (hOk : (planPut cfg mode t .empty ch clock).outcome = .ok (exist, c))

include hOk in
theorem records_planPut_empty :
    ∀ record ∈ (planPut cfg mode t .empty ch clock).records,
      (∀ po n, record ≠ .binID po n) ∧ ∀ n, record ≠ .gcSize n := by
  have hAhead : BinIDs.Ahead t (.empty : BinIDs) := by
    intro po n hGet
    simp at hGet
  intro record hMem
  exact ((putRecord_planPut hAhead hOk).1 record hMem).not_counter

include hOk in
theorem reserveSize_afterOne :
    (t.afterOne (planPut cfg mode t .empty ch clock)
      c).reserveSize = adjusted t.reserveSize (t.reserveChange cfg mode ch) := by
  rw [afterOne_eq, reserveSize_allRecords]
  unfold PutPlan.alone
  rw [reserveSize_planPut hOk, overwritten_self]

include hOk in
theorem gcSize_afterOne :
    (t.afterOne (planPut cfg mode t .empty ch clock) c).gcSize = adjusted t.gcSize c := by
  rw [afterOne_eq]
  apply gcSize_allRecords
  intro record hMem
  exact (records_planPut_empty hOk record hMem).2

include hOk in
theorem binIDs_afterOne (po : Nat) :
    (t.afterOne (planPut cfg mode t .empty ch clock)
      c).binIDs.get po =
        ((planPut cfg mode t .empty ch clock).binIDs.get po).or (t.binIDs.get po) := by
  rw [afterOne_eq]
  apply binIDs_allRecords
  intro record hMem
  exact (records_planPut_empty hOk record hMem).1

end AfterOne

/- A pin is not part of the agreement. -/
theorem Store.Agrees.pin (hAgrees : w.Agrees t) (a : Address) (value : Option Nat) :
    w.Agrees (t.write (.pin a value)) := by
  have hContents : (t.write (.pin a value)).contents =
        { t.contents with
          pinIndex := (t.write (.pin a value)).pinIndex } :=
    rfl
  unfold Store.Agrees
  rw [hContents, hAgrees]

end

---- The Steps

/- The displaced chunk is met as it was, or with one pin. -/
theorem Batched.view_displaced (hBatched : Batched cfg mode s seen st)
    (hHas : s.retrievalDataIndex.has p = true) (hHolds : s.holdsAfter seen p = true) :
    (s.writeBatch st.batch).view p = s.view p ∨
      mode = .uploadPin ∧ 0 < occurrences p seen ∧
        View.Pinned (s.view p) ((s.writeBatch st.batch).view p) := by
  rw [← hBatched.holds] at hHolds
  have hView := hBatched.view p
  rw [← view_writeBatch] at hView
  generalize hNow : (s.writeBatch st.batch).view p = v at hView
  cases hView with
  | same => exact Or.inl rfl
  | stored ch d c hMem hAddress hData hAccepts hStamp hBytes hStored =>
    rw [(Index.has_eq_false_iff _ _).mpr hData] at hHas
    cases hHas
  | gone ch d hMem hDisplaced hData hGone =>
    have hNone := hGone.data
    rw [← hNow] at hNone
    have hNot := (Index.has_eq_false_iff (s.writeBatch st.batch).retrievalDataIndex p).mpr hNone
    rw [hNot] at hHolds
    cases hHolds
  | pinned ch hMem hAddress hMode hPinned =>
    refine Or.inr ⟨hMode, ?_, hPinned⟩
    exact List.countP_pos_iff.mpr ⟨ch, hMem, by simp [hAddress]⟩

/- A pin of the call has taken the chunk out of the gc index. -/
theorem Store.Agrees.inGC_of_pinned {w : Store} (hAgrees : w.Agrees t)
    (hData : s.retrievalDataIndex.get p = some d) (hPinned : View.Pinned (s.view p) (w.view p)) :
    t.retrievalDataIndex.get p = some d ∧ t.inGC p = false := by
  have hView := hAgrees.view p
  have hSome := congrArg View.data hView
  have hDataT : t.retrievalDataIndex.get p = some d := hSome.trans (hPinned.data.trans hData)
  refine ⟨hDataT, ?_⟩
  unfold Store.inGC
  rw [hDataT]
  have hNone := congrArg (fun v => v.gc (t.accessOf p) d.binID) hView
  exact (Index.has_eq_false_iff _ _).mpr (hNone.trans (hPinned.gc _ _))

/- A removal keeps the agreement. -/
theorem agrees_removal {w : Store} (hAgrees : w.Agrees t)
    (hData : s.retrievalDataIndex.get p = some d)
    (hView : w.view p = s.view p ∨ View.Pinned (s.view p) (w.view p)) :
    (w.writeBatch (planRemove cfg s p).records).Agrees
      (t.writeBatch (planRemove cfg t p).records) := by
  have hSeen := hAgrees.view p
  rcases hView with hSame | hPinned
  · rw [hSame] at hSeen
    rw [planRemove_congr hSeen]
    exact hAgrees.writeBatch rfl
  rcases hAgrees.inGC_of_pinned hData hPinned with ⟨hDataT, hNotT⟩
  have hNoGC : w.gcIndex.get (s.gcKeyOf p d) = none := hPinned.gc (s.accessOf p) d.binID
  rw [planRemove_of_data hData, planRemove_of_data hDataT, hNotT]
  cases hInGC : s.inGC p with
  | false => exact hAgrees.writeBatch rfl
  | true =>
    simp only [if_true, Bool.false_eq_true, if_false, Store.writeBatch_append]
    generalize hCommon :
      [Write.retrievalData p none, .retrievalAccess p none, .pull ⟨cfg.po p, d.binID⟩ none,
        .postageChunks ⟨d.stamp.batchID, cfg.po p, p⟩ none] = common
    have hGone :
        (w.writeBatch common).writeBatch [.gc (s.gcKeyOf p d) none] = w.writeBatch common := by
      have hIndex : (w.writeBatch common).gcIndex = w.gcIndex := by
        rw [← hCommon]
        rfl
      have hDelete := Index.delete_of_get_eq_none _ hNoGC
      rw [← hIndex] at hDelete
      simp only [Store.writeBatch_cons, Store.writeBatch_nil, Store.write, Index.set]
      rw [hDelete]
    rw [hGone]
    exact (hAgrees.writeBatch rfl).pin p none

/- For an upload it does not matter what was removed. -/
theorem planStore_of_reports (hMode : mode = .uploadPin) :
    planStore cfg mode s binIDs ch previous clock =
      planStore cfg mode s binIDs ch previous' clock := by
  subst hMode
  rfl

/- What the plan of one chunk has in common in both ways. -/
structure SamePlan (mode : ModePut) (s : Store) (st : PutState) (t : Store)
    (plan plan' : PutPlan) : Prop where
  outcome : plan'.outcome = plan.outcome
  readings : plan'.readings = plan.readings
  agrees : ((s.writeBatch st.batch).writeBatch plan.records).Agrees (t.writeBatch plan'.records)
  lasting : mode ≠ .uploadPin → lasting plan.records = lasting plan'.records
  binIDs :
    ∀ po, (plan'.binIDs.get po).or (t.binIDs.get po) = (plan.binIDs.get po).or (s.binIDs.get po)

section First

variable (hBatched : Batched cfg mode s seen st)
variable (hMatched : Matched cfg mode s seen st t)
variable (hSeen : containsChunk ch.address seen = false)
variable (hClear : s.Clear seen ch)
variable (hOk : (planPut cfg mode s st.binIDs ch clock).outcome = .ok (exist, c))
variable (hOk' : (planPut cfg mode t .empty ch clock).outcome = .ok (exist', c'))

include hBatched hMatched hSeen hClear in
theorem Matched.planUploadPin_first :
    planUploadPin mode t ch.address = planUploadPin mode s ch.address := by
  unfold planUploadPin
  rw [planPin_congr (hMatched.view_first hBatched hSeen hClear)]

include hMatched in
/- The bin IDs of the two ways come to the same. -/
theorem Matched.nextBinID_eq (po : Nat) : nextBinID t .empty po = nextBinID s st.binIDs po := by
  unfold nextBinID Store.getBinID
  rw [hMatched.binIDs]
  cases st.binIDs.get po <;> simp

include hBatched hMatched hSeen hClear in
/- The chunk that makes room does so in both ways. -/
theorem Matched.removal {previous previous' : Previous} {removal removal' : Batch}
    (hReplaced : Replaced cfg s ch previous removal)
    (hReplaced' : Replaced cfg t ch previous' removal') :
    ((s.writeBatch st.batch).writeBatch removal).Agrees (t.writeBatch removal') ∧
      (mode ≠ .uploadPin → removal' = removal ∧ previous' = previous) := by
  have hDisplacedEq := (hMatched.accepts_first hBatched hSeen hClear).2
  rcases hReplaced with hIndex | ⟨p, c, hDisplaced, hChange⟩
  · rcases hReplaced' with _ | ⟨p', c', hDisplaced', -⟩
    · exact ⟨hMatched.agrees, fun _ => ⟨rfl, rfl⟩⟩
    · rw [hDisplacedEq] at hDisplaced'
      simp [Store.displaced, hIndex] at hDisplaced'
  · rcases hReplaced' with hIndex' | ⟨p', c', hDisplaced', hChange'⟩
    · rw [← hDisplacedEq] at hDisplaced
      simp [Store.displaced, hIndex'] at hDisplaced
    · rw [hDisplacedEq, hDisplaced] at hDisplaced'
      cases hDisplaced'
      rcases data_of_planRemove hChange with ⟨d, hData⟩
      have hHas := (Index.has_eq_true_iff _ _).mpr (data_of_planRemove hChange)
      have hHolds := (Index.has_eq_true_iff _ _).mpr (data_of_planRemove hChange')
      rw [hMatched.has hBatched] at hHolds
      have hView := hBatched.view_displaced hHas hHolds
      refine ⟨?_, ?_⟩
      · apply agrees_removal hMatched.agrees hData
        exact hView.imp_right fun hPinned => hPinned.2.2
      · intro hMode
        have hSame := hView.resolve_right fun hPinned => hMode hPinned.1
        have hPlan : planRemove cfg t p = planRemove cfg s p := by
          apply planRemove_congr
          rw [hMatched.agrees.view p, hSame]
        rw [hPlan] at hChange' ⊢
        rw [hChange] at hChange'
        cases hChange'
        exact ⟨rfl, rfl⟩

include hBatched hMatched hSeen hClear hOk hOk' in
/- An accepted chunk, after its removals. -/
theorem Matched.samePlan_stored (hAccepts : s.accepts ch = true) :
    SamePlan mode s st t (planPut cfg mode s st.binIDs ch clock)
      (planPut cfg mode t .empty ch clock) := by
  have hBoth := hMatched.accepts_first hBatched hSeen hClear
  have hView := hMatched.view_first hBatched hSeen hClear
  have hBin := hMatched.nextBinID_eq (cfg.po ch.address)
  have hPinned := hMatched.planUploadPin_first hBatched hSeen hClear
  rcases planPut_accepted hOk hAccepts with
    ⟨previous, removal, c₁, c₂, -, hReplaced, hBase, hPin, hSum, hPlan⟩
  rcases planPut_accepted hOk' (hBoth.1.trans hAccepts) with
    ⟨previous', removal', c₁', c₂', -, hReplaced', hBase', hPin', hSum', hPlan'⟩
  rw [hPlan, hPlan', hPinned]
  have hRemoval := hMatched.removal hBatched hSeen hClear hReplaced hReplaced'
  have hPrevious :
      planStore cfg mode t .empty ch previous' clock =
        planStore cfg mode t .empty ch previous clock := by
    by_cases hMode : mode = .uploadPin
    · exact planStore_of_reports hMode
    · rw [(hRemoval.2 hMode).2]
  rw [hPrevious] at hBase' ⊢
  have hStore :
      lasting (planStore cfg mode t .empty ch previous clock).records =
        lasting (planStore cfg mode s st.binIDs ch previous clock).records ∧ _ ∧ _ :=
    planStore_congr hView hBin
  rw [hPinned, hPin] at hPin'
  cases hPin'
  have hOutcome := hBase'.symm.trans (hStore.2.1.trans hBase)
  simp only [Except.ok.injEq, Prod.mk.injEq] at hOutcome
  constructor
  · simp only [hOutcome.1, hSum, hSum', hOutcome.2]
  · exact hStore.2.2
  · simp only [Store.writeBatch_append]
    exact (hRemoval.1.writeBatch hStore.1.symm).writeBatch rfl
  · intro hMode
    simp only [lasting_append, hStore.1, (hRemoval.2 hMode).1]
  · intro po
    simp only [binIDs_planStore, hBin, Index.get_put]
    split
    · rfl
    · rw [Index.get_empty, Option.none_or, hMatched.binIDs]

include hBatched hMatched hSeen hClear hOk hOk' in
/- A chunk that is not accepted leaves at most a pin. -/
theorem Matched.samePlan_refused (hAccepts : s.accepts ch = false) :
    SamePlan mode s st t (planPut cfg mode s st.binIDs ch clock)
      (planPut cfg mode t .empty ch clock) := by
  have hBoth := hMatched.accepts_first hBatched hSeen hClear
  have hHas := hMatched.has_first hBatched hSeen hClear
  have hPinned := hMatched.planUploadPin_first hBatched hSeen hClear
  have hExist : exist' = exist := by rw [exist_planPut hOk, exist_planPut hOk', hHas]
  rcases planPut_refused hOk hAccepts with ⟨hPin, hPlan⟩
  rcases planPut_refused hOk' (hBoth.1.trans hAccepts) with ⟨hPin', hPlan'⟩
  rw [hPinned, hPin] at hPin'
  cases hPin'
  rw [hPlan, hPlan', hPinned, hExist]
  constructor
  · rfl
  · rfl
  · exact hMatched.agrees.writeBatch rfl
  · exact fun _ => rfl
  · intro po
    rw [Index.get_empty, Option.none_or, hMatched.binIDs]

include hBatched hMatched hSeen hClear hOk hOk' in
theorem Matched.samePlan :
    SamePlan mode s st t (planPut cfg mode s st.binIDs ch clock)
      (planPut cfg mode t .empty ch clock) := by
  cases hAccepts : s.accepts ch with
  | true => exact hMatched.samePlan_stored hBatched hSeen hClear hOk hOk' hAccepts
  | false => exact hMatched.samePlan_refused hBatched hSeen hClear hOk hOk' hAccepts

end First

---- Pins

section

variable {a : Address}

/- A chunk that can be collected is not pinned. -/
theorem pin_of_inGC (hCons : (s.view a).Consistent po) (hInGC : s.inGC a = true) :
    s.pinIndex.get a = none := by
  unfold Store.inGC at hInGC
  cases hData : s.retrievalDataIndex.get a with
  | none => simp [hData] at hInGC
  | some d =>
    rw [hData] at hInGC
    rcases (Index.has_eq_true_iff _ _).mp hInGC with ⟨x, hGet⟩
    rcases hCons.gc (s.accessOf a) d.binID x hGet with ⟨-, -, -, -, hPin, -⟩
    exact hPin

/- A removal deletes the pin of what is not collectable. -/
theorem pin_onView_planRemove (hChange : (planRemove cfg s a).change = .ok c) (v : View) :
    (onView a v (planRemove cfg s a).records).pin = if s.inGC a then v.pin else none := by
  rcases data_of_planRemove hChange with ⟨d, hData⟩
  rw [planRemove_of_data hData]
  cases hInGC : s.inGC a <;> simp [Store.gcKeyOf]

/- The pins of one address after an upload in pin mode. -/
theorem pin_planPut_uploadPin
    (hOk : (planPut cfg .uploadPin s binIDs ch clock).outcome = .ok (exist, c)) :
    (onView a v (planPut cfg .uploadPin s binIDs ch clock).records).pin =
      if ch.address = a then some ((s.view a).pins + 1)
      else if s.displaced ch = some a then if s.inGC a then v.pin else none
      else v.pin := by
  by_cases hEq : ch.address = a
  · subst hEq
    rw [if_pos rfl]
    rcases planPut_cases hOk with ⟨base, c₁, c₂, -, -, hPin, -, hPlan⟩
    rw [hPlan, onView_append]
    exact pin_onView_planPin _ hPin
  rw [if_neg hEq]
  by_cases hDisplaced : s.displaced ch = some a
  · rcases onView_planPut_of_displaced hOk hEq hDisplaced with ⟨c', hChange, hRecords⟩
    rw [if_pos hDisplaced, hRecords]
    exact pin_onView_planRemove hChange v
  · rw [if_neg hDisplaced, onView_planPut_of_ne hOk hEq hDisplaced]

theorem occurrences_snoc :
    occurrences a (seen ++ [ch]) = occurrences a seen + if ch.address = a then 1 else 0 := by
  unfold occurrences
  simp

theorem gone_snoc (hSeen : containsChunk ch.address seen = false) :
    s.gone (seen ++ [ch]) a = (s.gone seen a || decide (s.displaced ch = some a)) := by
  unfold Store.gone
  rw [taken_of_not_seen hSeen]
  cases hAccepts : s.accepts ch with
  | true => simp
  | false => simp [displaced_of_not_accepts hAccepts]

theorem gone_of_seen (hSeen : containsChunk ch.address seen = true) :
    s.gone (seen ++ [ch]) a = s.gone seen a := by
  unfold Store.gone
  rw [taken_of_seen hSeen]

section Uploaded

variable (hCons : s.Consistent cfg)
variable (hBatched : Batched cfg .uploadPin s seen st)
variable (hMatched : Matched cfg .uploadPin s seen st t)
variable (hSeen : containsChunk ch.address seen = false)
variable (hClear : s.Clear seen ch)
variable (hOk : (planPut cfg .uploadPin s st.binIDs ch clock).outcome = .ok (exist, c))
variable (hOk' : (planPut cfg .uploadPin t .empty ch clock).outcome = .ok (exist', c'))

include hBatched hMatched in
/- A pin of this run takes a chunk out of the gc index. -/
theorem Matched.inGC_of_occurrences (hHas : s.retrievalDataIndex.has a = true)
    (hHolds : s.holdsAfter seen a = true) :
    (0 < occurrences a seen → t.inGC a = false) ∧
      (occurrences a seen = 0 → t.inGC a = s.inGC a) := by
  have hPins := (hMatched.pinned rfl a).2
  have hView := hMatched.agrees.view a
  have hGone := not_gone_of_holdsAfter hHas hHolds
  rcases hBatched.view_displaced hHas hHolds with hSame | ⟨-, hPos, hPinned⟩
  · refine ⟨?_, ?_⟩
    · intro hPos
      unfold Store.pinsBatched at hPins
      rw [hGone, if_neg (by decide), if_neg (by omega)] at hPins
      have hPin := congrArg View.pin hSame
      have hOne : s.pinIndex.get a = some ((s.view a).pins + 1) := hPin.symm.trans hPins
      have hPinsEq : (s.view a).pins = (s.view a).pins + 1 := by
        change (s.pinIndex.get a).getD 0 = _
        rw [hOne]
        rfl
      omega
    · intro _
      rw [hSame] at hView
      exact inGC_congr hView
  · refine ⟨?_, ?_⟩
    · intro _
      rcases (Index.has_eq_true_iff _ _).mp hHas with ⟨d, hData⟩
      exact (hMatched.agrees.inGC_of_pinned hData hPinned).2
    · intro hZero
      omega

include hCons hBatched hMatched hSeen hClear hOk hOk' in
/- The pins after one more chunk of an upload in pin mode. -/
theorem Matched.pins_step (a : Address) :
    (onView a (t.view a) (planPut cfg .uploadPin t .empty ch clock).records).pin =
        s.pinsEach (seen ++ [ch]) a ∧
      (onView a ((s.writeBatch st.batch).view a)
        (planPut cfg .uploadPin s st.binIDs ch clock).records).pin =
        s.pinsBatched (seen ++ [ch]) a := by
  have hBoth := hMatched.accepts_first hBatched hSeen hClear
  have hPins := hMatched.pinned rfl a
  rw [pin_planPut_uploadPin hOk, pin_planPut_uploadPin hOk', hBoth.2]
  unfold Store.pinsEach Store.pinsBatched
  rw [gone_snoc hSeen, occurrences_snoc]
  by_cases hEq : ch.address = a
  · subst hEq
    have hView := hMatched.view_first hBatched hSeen hClear
    have hNot : s.displaced ch ≠ some ch.address := by
      intro hDisplaced
      have hHas := has_of_displaced hOk hDisplaced
      simp [Store.displaced, hHas] at hDisplaced
    rw [hBatched.not_gone_first hClear, occurrences_eq_zero hSeen, hView]
    simp [hNot]
  · rw [if_neg hEq, if_neg hEq, if_neg hEq, Nat.add_zero]
    by_cases hDisplaced : s.displaced ch = some a
    · have hHas := has_of_displaced hOk hDisplaced
      have hHolds : s.holdsAfter seen a = true := by
        rw [← hMatched.has hBatched]
        exact has_of_displaced hOk' (hBoth.2.trans hDisplaced)
      have hGone := not_gone_of_holdsAfter hHas hHolds
      have hInGC := hMatched.inGC_of_occurrences hBatched hHas hHolds
      have hFree := pin_of_inGC (hCons a)
      have hPinT : (t.view a).pin = _ := hPins.1
      have hPinW : ((s.writeBatch st.batch).view a).pin = _ := hPins.2
      rw [hPinT, hPinW]
      unfold Store.pinsEach Store.pinsBatched
      rw [hGone]
      by_cases hZero : occurrences a seen = 0
      · rw [hInGC.2 hZero]
        cases hCollectable : s.inGC a with
        | false => simp
        | true => simp [hZero, hFree hCollectable]
      · have hPos : 0 < occurrences a seen := by omega
        rw [hInGC.1 hPos]
        cases hCollectable : s.inGC a with
        | false => simp
        | true =>
          have hNone : (s.view a).pins = 0 := by
            change (s.pinIndex.get a).getD 0 = 0
            rw [hFree hCollectable]
            rfl
          simp [hZero, hPos, hNone]
    · simp only [hDisplaced, if_false, decide_false, Bool.or_false]
      exact hPins

end Uploaded

end

---- Whole Calls In Both Ways

/- Put calls do not change radiuses. -/
theorem Batched.radiuses (hBatched : Batched cfg mode s seen st) :
    (s.writeBatch st.batch).postageRadiusIndex = s.postageRadiusIndex := by
  refine writeBatch_keeps Store.postageRadiusIndex (fun record hMem w => ?_) s
  cases hBatched.records record hMem with
  | ordinary hOrdinary =>
    cases record with
    | postageRadius key value => cases hOrdinary
    | _ => rfl
  | pulled ch binID hMem hNew | stamped ch hMem hAccepts => rfl

section Step

variable (hCons : s.Consistent cfg)
variable (hBatched : Batched cfg mode s seen st)
variable (hMatched : Matched cfg mode s seen st t)

section First

variable (hSeen : containsChunk ch.address seen = false)
variable (hClear : s.Clear seen ch)

include hBatched hMatched hSeen hClear in
theorem Matched.reserveChange_first :
    t.reserveChange cfg mode ch = s.reserveChange cfg mode ch := by
  have hBoth := hMatched.accepts_first hBatched hSeen hClear
  have hRadius : t.postageRadiusIndex = s.postageRadiusIndex :=
    hMatched.agrees.radiuses.trans hBatched.radiuses
  unfold Store.reserveChange Store.unreservedAt
  rw [hBoth.1, hBoth.2, hRadius]

include hCons hBatched hMatched hSeen hClear in
/- One more chunk keeps the two ways together. -/
theorem Matched.step (hOk : (planPut cfg mode s st.binIDs ch clock).outcome = .ok (exist, c))
    (hOk' : (planPut cfg mode t .empty ch clock).outcome = .ok (exist', c')) :
    (planPut cfg mode t .empty ch clock).readings =
        (planPut cfg mode s st.binIDs ch clock).readings ∧
      Matched cfg mode s (seen ++ [ch]) (st.next (planPut cfg mode s st.binIDs ch clock) exist c)
        (t.afterOne (planPut cfg mode t .empty ch clock) c') := by
  have hSame := hMatched.samePlan hBatched hSeen hClear hOk hOk'
  have hFirsts := firstChunks_of_not_seen hSeen
  have hOutcome := hSame.outcome
  rw [hOk, hOk'] at hOutcome
  cases hOutcome
  have hChange := (change_planPut (hCons ch.address) hOk).2
  refine ⟨hSame.readings, ?_⟩
  constructor
  · have hCounts : lasting (((planPut cfg mode t .empty ch clock).binIDs.entries.map fun entry =>
              Write.binID entry.1 entry.2) ++
            sizeRecords .gcSize t.gcSize c) = lasting [] := by
      simp
    have hAgrees := hSame.agrees.writeBatch hCounts.symm
    rw [Store.writeBatch_nil, ← Store.writeBatch_append,
      ← Store.writeBatch_append, ← List.append_assoc] at hAgrees
    exact hAgrees
  · intro hMode
    have hContents := hMatched.agrees.contents_eq (hMatched.plain hMode)
    have hBoth :
        (t.afterOne (planPut cfg mode t .empty ch clock) c).contents =
          ((s.writeBatch st.batch).writeBatch
            (planPut cfg mode s st.binIDs ch clock).records).contents := by
      rw [afterOne_eq, contents_writeBatch, lasting_allRecords, contents_writeBatch, hContents,
        PutPlan.alone, hSame.lasting hMode]
    have hPins := congrArg Store.pinIndex hBoth
    simp only [PutState.next, Store.writeBatch_append]
    exact hPins
  · intro hMode a
    subst hMode
    have hPins := hMatched.pins_step hCons hBatched hSeen hClear hOk hOk' a
    rw [← view_afterOne (t := t) _ c, ← view_writeBatch, ← Store.writeBatch_append] at hPins
    exact hPins
  · rw [gcSize_afterOne hOk', hMatched.gcSize, hFirsts, List.map_append, List.foldl_append, hChange]
    rfl
  · rw [reserveSize_afterOne hOk', hMatched.reserveSize,
      hFirsts, List.map_append, List.foldl_append,
      hMatched.reserveChange_first hBatched hSeen hClear]
    rfl
  · intro po
    rw [binIDs_afterOne hOk']
    exact hSame.binIDs po

end First

include hBatched hMatched in
/- So does a repeat of a chunk that is stored. -/
theorem Matched.skip (hSeen : containsChunk ch.address seen = true) (hClear : s.Clear seen ch)
    (hOk' : (planPut cfg mode t .empty ch clock).outcome = .ok (exist', c')) (flags : List Bool) :
    (planPut cfg mode t .empty ch clock).readings = 0 ∧
      Matched cfg mode s (seen ++ [ch]) { st with exist := flags }
        (t.afterOne (planPut cfg mode t .empty ch clock) c') := by
  have hHas : t.retrievalDataIndex.has ch.address = true := by
    rw [hMatched.has hBatched]
    exact hClear.stored (Or.inl hSeen)
  have hFirsts := firstChunks_of_seen hSeen
  have hNotGone := hBatched.not_gone_first hClear
  have hAccepts : t.accepts ch = false := by simp [Store.accepts, hHas]
  -- nothing is written, except for one more pin
  have hPlan : (planPut cfg mode t .empty ch clock).records = (if mode = .uploadPin then
            [.pin ch.address (some ((t.view ch.address).pins + 1))]
          else []) ∧
        (planPut cfg mode t .empty ch clock).binIDs = .empty ∧
        (planPut cfg mode t .empty ch clock).readings = 0 ∧
        c' = 0 := by
    rcases planPut_refused hOk' hAccepts with ⟨hPin, hPlan⟩
    rw [hPlan]
    unfold planUploadPin at hPin ⊢
    by_cases hMode : mode = .uploadPin
    · rw [if_pos hMode] at hPin
      rw [if_pos hMode, if_pos hMode]
      have hPinned :
          t.pinIndex.get ch.address =
            some ((s.view ch.address).pins + occurrences ch.address seen) := by
        have hPos := occurrences_pos hSeen
        rw [(hMatched.pinned hMode ch.address).1]
        unfold Store.pinsEach
        rw [hNotGone, if_neg (by decide), if_neg (by omega)]
      simp only [planPin, hPinned, Except.ok.injEq] at hPin ⊢
      simp [← hPin, View.pins, Store.view, hPinned]
    · rw [if_neg hMode] at hPin
      rw [if_neg hMode, if_neg hMode]
      cases hPin
      exact ⟨rfl, rfl, rfl, rfl⟩
  rcases hPlan with ⟨hRecords, hBinIDs, hReadings, rfl⟩
  have hNothing : ((.empty : BinIDs).entries.map fun entry =>
        Write.binID entry.1 entry.2) = [] := by
    decide
  have hAfter :
      t.afterOne (planPut cfg mode t .empty ch clock) 0 = t.writeBatch (if mode = .uploadPin then
            [.pin ch.address (some ((t.view ch.address).pins + 1))]
          else []) := by
    unfold Store.afterOne
    rw [hBinIDs, hRecords, hNothing]
    simp [sizeRecords]
  refine ⟨hReadings, ?_⟩
  rw [hAfter]
  constructor
  · split
    · exact hMatched.agrees.pin _ _
    · exact hMatched.agrees
  · intro hPlain
    rw [if_neg hPlain]
    exact hMatched.plain hPlain
  · intro hMode a
    have hPins := hMatched.pinned hMode a
    have hPos := occurrences_pos hSeen
    rw [if_pos hMode]
    simp only [Store.writeBatch_cons, Store.writeBatch_nil, Store.write, Index.get_set]
    by_cases hEq : ch.address = a
    · subst hEq
      unfold Store.pinsEach Store.pinsBatched at hPins ⊢
      rw [gone_of_seen hSeen, hNotGone] at *
      rw [occurrences_snoc]
      have hMany : occurrences ch.address seen ≠ 0 := by omega
      simp only [Bool.false_eq_true, if_false, if_true, hMany] at hPins ⊢
      refine ⟨?_, by simpa using hPins.2⟩
      simp [View.pins, Store.view, hPins.1, Nat.add_assoc]
    · unfold Store.pinsEach Store.pinsBatched at hPins ⊢
      rw [gone_of_seen hSeen, occurrences_snoc, if_neg hEq, if_neg hEq, Nat.add_zero]
      exact hPins
  · rw [hFirsts, ← hMatched.gcSize]
    split <;> rfl
  · rw [hFirsts, ← hMatched.reserveSize]
    split <;> rfl
  · intro po
    rw [← hMatched.binIDs]
    split <;> rfl

end Step

/- The flags of a whole call. -/
theorem exist_planPutAll (hResult : (planPutAll cfg mode s seen chs st clock).result = .ok st') :
    st'.exist = st.exist ++ s.existFlags seen chs := by
  induction chs generalizing seen st clock with
  | nil =>
    cases hResult
    simp [Store.existFlags]
  | cons ch chs ih =>
    rw [Store.existFlags]
    rcases planPutAll_cons hResult with ⟨hSeen, hRest⟩ | ⟨hSeen, exist, c, hOk, hRest⟩
    · rw [ih hRest, hSeen]
      simp
    · rw [ih hRest, hSeen, ← exist_planPut hOk]
      simp [PutState.next]

/- What a whole call collects. -/
theorem batched_planPutAll (hCons : s.Consistent cfg)
    (hResult : (planPutAll cfg mode s [] chs {} clock).result = .ok st') :
    Batched cfg mode s chs st' :=
  planPutAll_invariant _ hResult batched_start (fun hBatched hSeen => hBatched.skip hSeen _)
    fun _ hBatched hSeen hOk => hBatched.step hCons hSeen hOk

---- Chunks That Miss Each Other

section

variable {t' : Store}
variable {st' : PutState}
variable {flags : List Bool}

/- The data of an address other than the chunk's own. -/
theorem has_afterOne_of_ne
    (hOk : (planPut cfg mode t .empty ch clock).outcome = .ok (exist, c)) (hNe : ch.address ≠ a)
    (hGone : t.displaced ch = some a ∨ t.retrievalDataIndex.has a = false) :
    (t.afterOne (planPut cfg mode t .empty ch clock) c).retrievalDataIndex.has a = false := by
  have hView := view_afterOne (t := t) (planPut cfg mode t .empty ch clock) c a
  have hData := data_planPut_of_ne hOk hNe (t.view a)
  rw [← hView] at hData
  refine (Index.has_eq_false_iff _ _).mpr (hData.trans ?_)
  rcases hGone with hDisplaced | hNot
  · exact if_pos hDisplaced
  · have hNone : (t.view a).data = none := (Index.has_eq_false_iff _ _).mp hNot
    rw [hNone, ite_self]

/- A chunk that occurred and is not stored stays so, as long as the flags are those of one call. -/
theorem EachRun.not_restored (hEach : EachRun cfg mode t clock chs flags t')
    (hFlags : flags = s.existFlags seen chs) (hSeen : containsChunk a seen = true)
    (hNot : t.retrievalDataIndex.has a = false) : t'.retrievalDataIndex.has a = false := by
  induction hEach generalizing seen with
  | nil => exact hNot
  | @cons t t' clock ch chs exist flags c hOk hRest ih =>
    rw [Store.existFlags] at hFlags
    simp only [List.cons.injEq] at hFlags
    have hOther : ch.address ≠ a := by
      rintro rfl
      have hExist := exist_planPut hOk
      rw [hFlags.1, hSeen, hNot] at hExist
      cases hExist
    apply ih hFlags.2
    · simp [hSeen]
    · exact has_afterOne_of_ne hOk hOther (Or.inr hNot)

/-
  A chunk that is accepted in one call although a chunk before it has taken its stamp index: one by
  one, either that chunk is removed or this one is not stored, and in one call both are stored.
-/
theorem stamp_of_same (hBatched : Batched cfg mode s seen st)
    (hMatched : Matched cfg mode s seen st t) (hSeen : containsChunk ch.address seen = false)
    (hAccepts : s.accepts ch = true)
    (hOk : (planPut cfg mode t .empty ch clock).outcome = .ok (exist, c))
    (hExist : exist = s.retrievalDataIndex.has ch.address)
    (hRest :
      EachRun cfg mode (t.afterOne (planPut cfg mode t .empty ch clock) c)
        (clock.drop (planPut cfg mode t .empty ch clock).readings)
        chs (s.existFlags (seen ++ [ch]) chs) t')
    (hHolds : ∀ a, t'.retrievalDataIndex.has a = s.holdsAfter (seen ++ [ch] ++ chs) a) :
    ∀ c ∈ s.taken seen, c.stampKey ≠ ch.stampKey := by
  intro first hMem hKey
  have hNot : t.retrievalDataIndex.has ch.address = false := by
    rw [← exist_planPut hOk, hExist, has_of_accepts hAccepts]
  have hLost :
      ∀ kept ∈ s.taken (seen ++ [ch]),
        (t.afterOne (planPut cfg mode t .empty ch clock)
            c).retrievalDataIndex.has kept.address = false →
          False := by
    intro kept hTaken hNone
    have hFinal := hRest.not_restored rfl (containsChunk_of_mem_taken hTaken) hNone
    rw [hHolds, Store.holdsAfter, containsChunk_of_mem (taken_mono chs hTaken),
      Bool.or_true] at hFinal
    cases hFinal
  cases hAccepts' : t.accepts ch with
  | false =>
    have hTaken : ch ∈ s.taken (seen ++ [ch]) := by
      rw [taken_of_not_seen hSeen, hAccepts]
      simp
    apply hLost ch hTaken
    have hView := view_afterOne (t := t) (planPut cfg mode t .empty ch clock) c ch.address
    have hData := data_planPut_of_not_accepts hOk hAccepts' ch.address (t.view ch.address)
    rw [← hView] at hData
    exact (Index.has_eq_false_iff _ _).mpr (hData.trans ((Index.has_eq_false_iff _ _).mp hNot))
  | true =>
    -- the holder of the index is removed
    rcases hBatched.stamped first hMem with ⟨holder, hHolder, -, hIndex⟩
    rw [← hMatched.agrees.stamps, hKey] at hIndex
    apply hLost holder (taken_mono [ch] hHolder)
    apply has_afterOne_of_ne hOk
    · intro hEq
      rw [hEq, containsChunk_of_mem_taken hHolder] at hSeen
      cases hSeen
    · simp only [Store.accepts, hNot, hIndex, Bool.not_false,
        Bool.true_and, decide_eq_true_eq] at hAccepts'
      simp [Store.displaced, hNot, hIndex, hAccepts']

/- Every chunk is clear of those before it. -/
def Store.ClearEach (s : Store) (seen chs : List Chunk) : Prop :=
  ∀ pre ch rest, chs = pre ++ ch :: rest → s.Clear (seen ++ pre) ch

theorem clearEach_cons :
    s.ClearEach seen (ch :: chs) ↔ s.Clear seen ch ∧ s.ClearEach (seen ++ [ch]) chs := by
  constructor
  · intro hClear
    refine ⟨by simpa using hClear [] ch chs rfl, fun pre ch' rest hEq => ?_⟩
    simpa using hClear (ch :: pre) ch' rest (by simp [hEq])
  · rintro ⟨hHere, hRest⟩ pre ch' rest hEq
    cases pre with
    | nil =>
      cases hEq
      simpa using hHere
    | cons first pre =>
      cases hEq
      simpa using hRest pre ch' rest rfl

/-
  Chunks that are clear of those before keep the two ways together, and they are clear when the
  flags and the stored chunks are the same in both ways.
-/
theorem Matched.run (hCons : s.Consistent cfg) (hBatched : Batched cfg mode s seen st)
    (hMatched : Matched cfg mode s seen st t)
    (hResult : (planPutAll cfg mode s seen chs st clock).result = .ok st')
    (hEach : EachRun cfg mode t clock chs flags t')
    (hWay : s.ClearEach seen chs ∨ flags = s.existFlags seen chs ∧
      ∀ a, t'.retrievalDataIndex.has a = s.holdsAfter (seen ++ chs) a) :
    s.ClearEach seen chs ∧ Matched cfg mode s (seen ++ chs) st' t' ∧
      flags = s.existFlags seen chs := by
  induction chs generalizing seen st t clock flags with
  | nil =>
    cases hResult
    cases hEach
    exact ⟨by simp [Store.ClearEach], by simpa using hMatched, rfl⟩
  | cons ch chs ih =>
    rw [List.append_cons, Store.existFlags, clearEach_cons] at hWay ⊢
    cases hEach with
    | cons hOk' hEachRest =>
    have hExist := exist_planPut hOk'
    have hHere : s.Clear seen ch := by
      rcases hWay with hClear | ⟨hFlags, hHolds⟩
      · exact hClear.1
      rw [List.cons.injEq] at hFlags
      constructor
      · intro hStored
        rw [← hMatched.has hBatched, ← hExist, hFlags.1]
        rcases hStored with hSeen | hHas
        · rw [hSeen, Bool.true_or]
        · rw [hHas, Bool.or_true]
      · intro hSeen hAccepts
        rw [hFlags.2] at hEachRest
        refine stamp_of_same hBatched hMatched hSeen hAccepts hOk' ?_ hEachRest hHolds
        rw [hFlags.1, hSeen, Bool.false_or]
    have hRestWay := hWay.imp And.right fun hSame => And.intro (List.cons.inj hSame.1).2 hSame.2
    rw [hMatched.has hBatched] at hExist
    rcases planPutAll_cons hResult with ⟨hSeen, hRest⟩ | ⟨hSeen, exist, c, hOk, hRest⟩
    · have hSkip := hMatched.skip hBatched hSeen hHere hOk' (st.exist ++ [true])
      rw [hSkip.1] at hEachRest
      have hDone := ih (hBatched.skip hSeen _) hSkip.2 hRest hEachRest hRestWay
      rw [hExist, hHere.stored (Or.inl hSeen), hSeen, hDone.2.2]
      exact ⟨⟨hHere, hDone.1⟩, hDone.2.1, rfl⟩
    · have hStep := hMatched.step hCons hBatched hSeen hHere hOk hOk'
      rw [hStep.1] at hEachRest
      have hDone := ih (hBatched.step hCons hSeen hOk) hStep.2 hRest hEachRest hRestWay
      have hSame := hMatched.has_first hBatched hSeen hHere
      rw [hMatched.has hBatched] at hSame
      rw [hExist, hSame, hSeen, hDone.2.2]
      exact ⟨⟨hHere, hDone.1⟩, hDone.2.1, rfl⟩

end

---- One Call And One Call For Each Chunk

/- Where uploads in both ways leave the same pins. -/
theorem pinsBatched_eq_iff :
    (∀ a, s.pinsBatched chs a = s.pinsEach chs a) ↔
      ∀ a, 0 < occurrences a chs → if s.gone chs a then s.inGC a = false
        else occurrences a chs = 1 := by
  refine forall_congr' fun a => ?_
  unfold Store.pinsBatched Store.pinsEach
  cases hGone : s.gone chs a with
  | true =>
    cases hGC : s.inGC a with
    | true | false => simp
  | false =>
    by_cases hZero : occurrences a chs = 0
    · simp [hZero]
    · simp only [Bool.false_eq_true, if_false, hZero, Option.some.injEq, Nat.add_left_cancel_iff]
      constructor
      · intro hOne _
        exact hOne.symm
      · intro hOne
        exact (hOne (Nat.pos_of_ne_zero hZero)).symm

/- What is left to compare when all chunks were clear. -/
theorem Matched.final_iff (hBatched : Batched cfg mode s chs st)
    (hMatched : Matched cfg mode s chs st t) :
    s.writeBatch (st.allRecords s) = t ↔
      (mode = .uploadPin → ∀ a, 0 < occurrences a chs → if s.gone chs a then s.inGC a = false
        else occurrences a chs = 1) ∧
      ((firstChunks chs).map (s.reserveChange cfg mode)).foldl adjusted s.reserveSize =
        ((firstChunks chs).map
          (s.reserveChange cfg mode)).foldl (overwritten s.reserveSize) s.reserveSize ∧
      ((firstChunks chs).map (s.gcChange cfg mode)).foldl adjusted s.gcSize =
        adjusted s.gcSize ((firstChunks chs).map (s.gcChange cfg mode)).sum := by
  have hContents := contents_allRecords s st
  have hPinIndex :
      (s.writeBatch (st.allRecords s)).pinIndex = (s.writeBatch st.batch).pinIndex := by
    have hPins := congrArg Store.pinIndex hContents
    exact hPins
  have hReserve :
      (s.writeBatch (st.allRecords s)).reserveSize =
        ((firstChunks chs).map
          (s.reserveChange cfg mode)).foldl (overwritten s.reserveSize) s.reserveSize := by
    rw [reserveSize_allRecords, hBatched.reserveSize]
  have hGC :
      (s.writeBatch (st.allRecords s)).gcSize =
        adjusted s.gcSize ((firstChunks chs).map (s.gcChange cfg mode)).sum := by
    rw [gcSize_allRecords fun record hMem =>
      (hBatched.records record hMem).not_counter.2,
      hBatched.gcSizeChange]
  constructor
  · intro hEq
    refine ⟨?_, ?_, ?_⟩
    · intro hMode
      apply pinsBatched_eq_iff.mp
      intro a
      rw [← (hMatched.pinned hMode a).1, ← (hMatched.pinned hMode a).2, ← hPinIndex, hEq]
    · rw [← hReserve, ← hMatched.reserveSize, hEq]
    · rw [← hGC, ← hMatched.gcSize, hEq]
  · rintro ⟨hPins, hReserveEq, hGCEq⟩
    have hPinsEq : t.pinIndex = (s.writeBatch st.batch).pinIndex := by
      by_cases hMode : mode = .uploadPin
      · ext a : 1
        rw [(hMatched.pinned hMode a).1, (hMatched.pinned hMode a).2]
        exact (pinsBatched_eq_iff.mpr (hPins hMode) a).symm
      · exact hMatched.plain hMode
    apply eq_of_contents
    · rw [hContents, hMatched.agrees.contents_eq hPinsEq]
    · ext po : 1
      rw [binIDs_allRecords fun record hMem =>
        (hBatched.records record hMem).not_counter.1,
        hMatched.binIDs]
    · rw [hGC, hMatched.gcSize, hGCEq]
    · rw [hReserve, hMatched.reserveSize, hReserveEq]

/- The two ways from one database. -/
theorem same_iff_independent
    (hCons : s.Consistent cfg) (hResult : (planPutAll cfg mode s [] chs {} clock).result = .ok st')
    (hEach : EachRun cfg mode s clock chs flags t) :
    (st'.exist = flags ∧ s.writeBatch (st'.allRecords s) = t) ↔ s.Independent cfg mode chs := by
  have hFlags : st'.exist = s.existFlags [] chs := by
    rw [exist_planPutAll hResult]
    rfl
  have hBatched := batched_planPutAll hCons hResult
  constructor
  · rintro ⟨rfl, hStore⟩
    rw [hFlags] at hEach
    have hHolds : ∀ a, t.retrievalDataIndex.has a = s.holdsAfter ([] ++ chs) a := by
      intro a
      have hData := congrArg Store.retrievalDataIndex (contents_allRecords s st')
      rw [hStore] at hData
      rw [List.nil_append, ← hBatched.holds a]
      exact congrArg (fun index => Index.has index a) hData
    rcases matched_start.run hCons batched_start hResult hEach (Or.inr ⟨rfl, hHolds⟩) with
      ⟨hClear, hMatched, -⟩
    rcases (hMatched.final_iff hBatched).mp hStore with ⟨hPins, hReserve, hGC⟩
    exact ⟨hClear, hPins, hReserve, hGC⟩
  · intro hIndependent
    rcases matched_start.run hCons batched_start hResult hEach (Or.inl hIndependent.clear) with
      ⟨-, hMatched, hSame⟩
    exact ⟨hFlags.trans hSame.symm,
      (hMatched.final_iff hBatched).mpr
        ⟨hIndependent.pins, hIndependent.reserveSize, hIndependent.gcSize⟩⟩

/- One chunk has none before it. -/
theorem independent_singleton (hPlain : mode ≠ .uploadPin) : s.Independent cfg mode [ch] := by
  have hFirsts : firstChunks [ch] = [ch] := rfl
  constructor
  · intro seen ch' rest hEq
    have hNil : seen = [] ∧ ch = ch' := by
      cases seen with
      | nil =>
        simp only [List.nil_append, List.cons.injEq] at hEq
        exact ⟨rfl, hEq.1⟩
      | cons first seen => simp at hEq
    rcases hNil with ⟨rfl, rfl⟩
    constructor
    · rintro (hSeen | hHas)
      · cases hSeen
      · simp [Store.holdsAfter, Store.gone, Store.taken, firstChunks, hHas]
    · intro _ _ c hMem
      cases hMem
  · exact fun hMode => absurd hMode hPlain
  · exact (overwritten_self _ _).symm
  · rw [hFirsts]
    simp

/- A call without a valid mode gets as far as one look-up. -/
theorem run_put_unknown {exist : List Bool}
    (hValue : ((put cfg .unknown chs).run clock db).value = .ok exist) :
    ((put cfg .unknown chs).run clock db).clock = clock ∧
      ((put cfg .unknown chs).run clock db).state = db ∧ exist = [true] ∧ ∃ ch, chs = [ch] := by
  have hLocked := run_putLocked cfg .unknown chs clock db
  simp only [planPutLocked, if_true] at hLocked
  rw [run_put] at hValue ⊢
  cases hFast : fastPathChunk .unknown chs with
  | none =>
    rw [hFast] at hValue
    simp [hLocked, Except.map] at hValue
  | some ch =>
    simp only [hFast] at hValue ⊢
    cases hHas : db.store.retrievalDataIndex.has ch.address with
    | false =>
      rw [hHas] at hValue
      simp [hLocked, Except.map] at hValue
    | true =>
      rw [hHas] at hValue
      simp only [if_true, Except.ok.injEq] at hValue ⊢
      exact ⟨trivial, trivial, hValue.symm, ch, (fastPathChunk_eq_some hFast).1⟩

/-
  A call with several chunks and one call for each chunk leave the same database and return the same
  flags exactly when the chunks do not miss each other.
-/
theorem put_eq_putEach_iff {db : DB} (hReach : Reachable cfg (fun _ _ => True) db) (mode : ModePut)
    (chs : List Chunk) (clock : Clock) {exist exist' : List Bool}
    (hBatched : ((put cfg mode chs).run clock db).value = .ok exist)
    (hEach : ((putEach cfg mode chs).run clock db).value = .ok exist') :
    (exist = exist' ∧
        ((put cfg mode chs).run clock db).state.store =
          ((putEach cfg mode chs).run clock db).state.store) ↔
      db.store.Independent cfg mode chs := by
  have hCons := hReach.consistent
  by_cases hMode : mode = .unknown
  · subst hMode
    rcases run_put_unknown hBatched with ⟨hClock, hState, rfl, ch, rfl⟩
    simp only [putEach, Call.run_bind, hBatched, Call.run_pure] at hEach ⊢
    cases hEach
    simp only [List.append_nil, true_and]
    exact iff_of_true trivial (independent_singleton (by decide))
  · rcases run_put_eq hMode chs clock db with ⟨hValue, -, hStore⟩
    rw [hValue] at hBatched
    rw [hStore]
    cases hResult : (planPutAll cfg mode db.store [] chs {} clock).result with
    | error e => simp [hResult, Except.map] at hBatched
    | ok st' =>
      rw [hResult] at hBatched
      cases hBatched
      have hRun := eachRun_of_putEach hMode hEach
      simp only [Store.afterPut, hResult]
      exact same_iff_independent hCons hResult hRun

/- Two uploads do not miss each other. -/
theorem put_eq_putEach_uploads :
    DB.empty.store.Independent smallConfig .upload [smallChunk 1 0 1, smallChunk 2 1 1] := by
  have hBatched :
      ((put smallConfig .upload
        [smallChunk 1 0 1, smallChunk 2 1 1]).run
          (fun _ => 1) DB.empty).value = .ok [false, false] := by decide
  have hEach :
      ((putEach smallConfig .upload
        [smallChunk 1 0 1, smallChunk 2 1 1]).run
          (fun _ => 1) DB.empty).value = .ok [false, false] := by decide
  exact (put_eq_putEach_iff .start .upload [smallChunk 1 0 1, smallChunk 2 1 1] (fun _ => 1)
    hBatched hEach).mp ⟨rfl, rfl⟩

/- Two chunks within the radius are counted as one. -/
theorem put_loses_reserveSize :
    ¬ ∀ (cfg : Config) (db : DB) (mode : ModePut) (chs : List Chunk) (clock : Clock)
        (exist exist' : List Bool), Reachable cfg (fun _ _ => True) db →
      ((put cfg mode chs).run clock db).value = .ok exist →
      ((putEach cfg mode chs).run clock db).value = .ok exist' →
      exist = exist' ∧
        ((put cfg mode chs).run clock db).state.store =
          ((putEach cfg mode chs).run clock db).state.store := by
  intro hAll
  have hSame := hAll smallConfig .empty .sync [smallChunk 1 0 1, smallChunk 2 1 1] (fun _ => 1)
    [false, false] [false, false] .start (by decide) (by decide)
  have hSize := congrArg Store.reserveSize hSame.2
  revert hSize
  decide

end Sana.Localstore
