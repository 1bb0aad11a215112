import Sana.Localstore.GCSize
import Sana.Localstore.System

/-
  The contents of the database apart from its counters.

  A put plan reads the reserve size and the bin IDs only to write them again.  Databases that agree
  on what a chunk meets otherwise therefore plan the same records for it, up to records of counters.

  Key definitions include:
    * `Store.contents`
    * `Store.Agrees`

  Key theorems include:
    * `planStore_congr`
-/

---- Contents And Counters

namespace Sana.Localstore

open KeyValue Program Swarm

variable {cfg : Config} {mode : ModePut} {s : Store} {binIDs : BinIDs} {ch : Chunk} {clock : Clock}
variable {previous : Previous}

/- Records of counters. -/
def Write.counts : Write → Bool
| .binID _ _ => true
| .gcSize _ => true
| .reserveSize _ => true
| _ => false

theorem Write.address_of_counts {record : Write} (hCounts : record.counts = true) :
    record.address = none := by
  cases record <;> first | rfl | cases hCounts

/- The records of a batch that are not about counters. -/
def lasting (batch : Batch) : Batch :=
  batch.filter fun record => !record.counts

@[simp] theorem lasting_nil : lasting [] = [] := rfl

@[simp] theorem lasting_append (first second : Batch) :
    lasting (first ++ second) = lasting first ++ lasting second :=
  List.filter_append first second

theorem lasting_sizeRecords (hRecord : ∀ n, (record n).counts = true) :
    lasting (sizeRecords record size change) = [] := by
  unfold sizeRecords
  split
  · rfl
  · cases changedSize size change with
    | none => rfl
    | some n => simp [lasting, hRecord n]

@[simp] theorem lasting_reserveSize : lasting (sizeRecords .reserveSize size change) = [] :=
  lasting_sizeRecords (fun _ => rfl)

@[simp] theorem lasting_gcSize (size : Nat) (change : Int) :
    lasting (sizeRecords .gcSize size change) = [] :=
  lasting_sizeRecords (fun _ => rfl)

@[simp] theorem lasting_binIDs (binIDs : BinIDs) : lasting (binIDs.entries.map fun entry =>
        .binID entry.1 entry.2) = [] := by
  simp [lasting, List.filter_map, Write.counts, Function.comp_def]

/- The database without its counters. -/
def Store.contents (s : Store) : Store :=
  { s with
    binIDs := .empty
    gcSize := 0
    reserveSize := 0 }

theorem contents_write :
    (s.write record).contents = if record.counts then s.contents
      else s.contents.write record := by
  cases record <;> rfl

/- The contents evolve by the lasting records alone. -/
theorem contents_writeBatch (s : Store) (batch : Batch) :
    (s.writeBatch batch).contents = s.contents.writeBatch (lasting batch) := by
  induction batch generalizing s with
  | nil => rfl
  | cons record batch ih =>
    rw [Store.writeBatch_cons, ih, contents_write]
    cases hCounts : record.counts <;> simp [lasting, hCounts]

/- A database is its contents and its counters. -/
theorem eq_of_contents (hContents : s.contents = t.contents)
    (hBinIDs : s.binIDs = t.binIDs) (hGCSize : s.gcSize = t.gcSize)
    (hReserveSize : s.reserveSize = t.reserveSize) : s = t := by
  rcases s with ⟨⟩
  simp_all [Store.contents]

/- Databases with the same contents apart from pins. -/
def Store.Agrees (s t : Store) : Prop :=
  t.contents = { s.contents with pinIndex := t.pinIndex }

theorem Store.Agrees.refl (s : Store) : s.Agrees s := rfl

/- No record of another index touches the pins. -/
theorem writeBatch_withPins (s : Store) (pins : Index Address Nat) (batch : Batch) :
    { s with pinIndex := pins }.writeBatch batch =
      { s.writeBatch batch with
        pinIndex :=
          ({ s with pinIndex := pins }.writeBatch batch).pinIndex } := by
  induction batch generalizing s pins with
  | nil => rfl
  | cons record batch ih =>
    have hOne : { s with pinIndex := pins }.write record =
          { s.write record with
            pinIndex :=
              ({ s with pinIndex := pins }.write record).pinIndex } := by
      cases record <;> rfl
    rw [Store.writeBatch_cons, hOne]
    exact ih _ _

namespace Store.Agrees

variable {s t : Store}

/- Agreement and equal pins are equality of contents. -/
theorem contents_eq (hAgrees : s.Agrees t) (hPins : t.pinIndex = s.pinIndex) :
    t.contents = s.contents := by
  rw [hAgrees, hPins]
  rfl

theorem writeBatch (hAgrees : s.Agrees t) (hLasting : lasting batch = lasting batch') :
    (s.writeBatch batch).Agrees (t.writeBatch batch') := by
  have hPins :
      (t.writeBatch batch').contents.pinIndex =
        (t.contents.writeBatch (lasting batch')).pinIndex := by
    rw [contents_writeBatch]
  have hPins' :
      (t.writeBatch batch').pinIndex = (t.contents.writeBatch (lasting batch')).pinIndex := hPins
  unfold Store.Agrees
  rw [hPins', contents_writeBatch, contents_writeBatch, hLasting, hAgrees]
  exact writeBatch_withPins s.contents t.pinIndex _

theorem view (hAgrees : s.Agrees t) (a : Address) :
    t.view a = { s.view a with pin := t.pinIndex.get a } :=
  congrArg (fun u => Store.view u a) hAgrees

theorem stamps (hAgrees : s.Agrees t) : t.postageIndexIndex = s.postageIndexIndex := by
  have hIndex := congrArg Store.postageIndexIndex hAgrees
  exact hIndex

theorem radiuses (hAgrees : s.Agrees t) : t.postageRadiusIndex = s.postageRadiusIndex := by
  have hIndex := congrArg Store.postageRadiusIndex hAgrees
  exact hIndex

end Store.Agrees

/- The bin IDs after writing those that a call assigned. -/
theorem binIDs_writeBatch (hNone : ∀ record ∈ batch, ∀ po n, record ≠ .binID po n)
    (s : Store) : (s.writeBatch batch).binIDs = s.binIDs := by
  refine writeBatch_keeps Store.binIDs (fun record hMem s => ?_) s
  cases record with
  | binID po n => exact absurd rfl (hNone _ hMem po n)
  | _ => rfl

theorem gcSize_writeBatch (hNone : ∀ record ∈ batch, ∀ n, record ≠ .gcSize n)
    (s : Store) : (s.writeBatch batch).gcSize = s.gcSize := by
  refine writeBatch_keeps Store.gcSize (fun record hMem s => ?_) s
  cases record with
  | gcSize n => exact absurd rfl (hNone _ hMem n)
  | _ => rfl

theorem binIDs_writeBatch_pairs (pairs : List (Nat × Nat)) (hNodup : (pairs.map Prod.fst).Nodup)
    (s : Store) (value : Option Nat) (hValue : ∀ n, (po, n) ∈ pairs ↔ value = some n) :
    (s.writeBatch (pairs.map fun entry =>
        .binID entry.1 entry.2)).binIDs.get po = value.or (s.binIDs.get po) := by
  induction pairs generalizing s value with
  | nil =>
    cases value with
    | none => rfl
    | some n => simpa using hValue n
  | cons pair pairs ih =>
    rcases pair with ⟨key, n⟩
    simp only [List.map_cons, List.nodup_cons] at hNodup
    rw [List.map_cons, Store.writeBatch_cons]
    by_cases hKey : key = po
    · subst hKey
      have hHead := (hValue n).mp (List.mem_cons_self ..)
      rw [ih hNodup.2 _ none ?_, hHead]
      · simp [Store.write]
      · intro m
        constructor
        · intro hMem
          exact absurd (List.mem_map_of_mem (f := Prod.fst) hMem) hNodup.1
        · intro hNone
          cases hNone
    · rw [ih hNodup.2 _ value ?_]
      · simp [Store.write, Index.get_put, hKey]
      · intro m
        rw [← hValue m, List.mem_cons]
        constructor
        · exact Or.inr
        · rintro (hEq | hMem)
          · cases hEq
            exact absurd rfl hKey
          · exact hMem

theorem binIDs_writeBatch_entries (s : Store) (binIDs : BinIDs) (po : Nat) :
    (s.writeBatch (binIDs.entries.map fun entry =>
        .binID entry.1 entry.2)).binIDs.get po = (binIDs.get po).or (s.binIDs.get po) :=
  binIDs_writeBatch_pairs binIDs.entries (Index.nodup_keys_entries binIDs) s _
    fun n => Index.mem_entries_iff binIDs po n

/- The value of a counter after a change, as far as it goes. -/
def adjusted (size : Nat) (change : Int) : Nat :=
  (changedSize size change).getD size

/- The value of a counter after a change that was computed from an earlier value. -/
def overwritten (start size : Nat) (change : Int) : Nat :=
  if change = 0 then size
  else (changedSize start change).getD size

theorem overwritten_self (size : Nat) (change : Int) :
    overwritten size size change = adjusted size change := by
  unfold overwritten adjusted
  split
  · next hZero => simp [hZero, changedSize]
  · rfl

theorem gcSize_writeBatch_sizeRecords (w : Store) (size : Nat) (change : Int) :
    (w.writeBatch (sizeRecords .gcSize size change)).gcSize = overwritten size w.gcSize change := by
  unfold sizeRecords overwritten
  split
  · rfl
  · cases changedSize size change <;> rfl

/- The gc size is apart from the reserve size. -/
theorem reserveSize_gcSize (t : Store) (size : Nat) (c : Int) :
    (t.writeBatch (sizeRecords .gcSize size c)).reserveSize = t.reserveSize := by
  unfold sizeRecords
  split
  · rfl
  · cases changedSize size c <;> rfl

theorem reserveSize_writeBatch_sizeRecords (w : Store) :
    (w.writeBatch
      (sizeRecords .reserveSize size change)).reserveSize =
        overwritten size w.reserveSize change := by
  unfold sizeRecords overwritten
  split
  · rfl
  · cases changedSize size change <;> rfl

---- Plans For The Same Views

section

variable {t : Store}
variable {binIDs' : BinIDs}

theorem planPin_congr (hView : t.view a = s.view a) : planPin t a = planPin s a := by
  have hPin := congrArg View.pin hView
  have hAccess := congrArg View.access hView
  have hData := congrArg View.data hView
  simp only [Store.view] at hPin hAccess hData
  simp only [planPin, hPin, hAccess, hData]

/- A stored chunk can be collected. -/
def Store.inGC (s : Store) (a : Address) : Bool :=
  match s.retrievalDataIndex.get a with
  | none => false
  | some d => s.gcIndex.has (s.gcKeyOf a d)

/- The records of a removal. -/
theorem planRemove_of_data (hData : s.retrievalDataIndex.get p = some d) : planRemove cfg s p =
      { records :=
          [.retrievalData p none, .retrievalAccess p none, .pull ⟨cfg.po p, d.binID⟩ none,
            .postageChunks ⟨d.stamp.batchID, cfg.po p, p⟩ none] ++
            [if s.inGC p then .gc (s.gcKeyOf p d) none
              else .pin p none]
        change := .ok (if s.inGC p then -1 else 0) } := by
  unfold planRemove Store.inGC
  simp only [hData]
  split <;> rfl

theorem gcKeyOf_congr (hAccess : t.retrievalAccessIndex.get p = s.retrievalAccessIndex.get p) :
    t.gcKeyOf p d = s.gcKeyOf p d := by
  simp only [Store.gcKeyOf, Store.accessOf, hAccess]

/- Whether a chunk can be collected does not show its pin. -/
theorem inGC_congr (hView : t.view p = { s.view p with pin := pin }) : t.inGC p = s.inGC p := by
  have hData : t.retrievalDataIndex.get p = s.retrievalDataIndex.get p := congrArg View.data hView
  have hAccess : t.retrievalAccessIndex.get p = s.retrievalAccessIndex.get p :=
    congrArg View.access hView
  unfold Store.inGC
  rw [hData]
  cases s.retrievalDataIndex.get p with
  | none => rfl
  | some d =>
    simp only [gcKeyOf_congr hAccess]
    exact congrArg (fun v => (v.gc (s.accessOf p) d.binID).isSome) hView

/- A removal does not read the pin. -/
theorem planRemove_congr (hView : t.view p = { s.view p with pin := pin }) :
    planRemove cfg t p = planRemove cfg s p := by
  have hData : t.retrievalDataIndex.get p = s.retrievalDataIndex.get p := congrArg View.data hView
  have hAccess : t.retrievalAccessIndex.get p = s.retrievalAccessIndex.get p :=
    congrArg View.access hView
  cases hSome : s.retrievalDataIndex.get p with
  | none => simp only [planRemove, hSome, hData]
  | some d =>
    rw [planRemove_of_data hSome, planRemove_of_data (hData.trans hSome),
      inGC_congr hView, gcKeyOf_congr hAccess]

theorem planPreserve_congr (cfg : Config) (item : Item) (forcePin forceCache : Bool)
    (hView : t.view item.address = s.view item.address) :
    lasting (planPreserve cfg t item forcePin forceCache).records =
      lasting (planPreserve cfg s item forcePin forceCache).records ∧
    (planPreserve cfg t item forcePin forceCache).change =
      (planPreserve cfg s item forcePin forceCache).change := by
  have hPin : t.pinIndex.has item.address = s.pinIndex.has item.address :=
    congrArg (fun v => v.pin.isSome) hView
  have hGC : t.gcIndex.has item.gcKey = s.gcIndex.has item.gcKey := congrArg (fun v =>
        (v.gc item.accessTimestamp item.binID).isSome) hView
  unfold planPreserve
  rw [planPin_congr hView, hPin, hGC]
  split
  · refine ⟨?_, rfl⟩
    cases forcePin
    · simp only [lasting_append, Bool.not_false, if_true, lasting_reserveSize]
    · rfl
  · exact ⟨rfl, rfl⟩

theorem lasting_planRelease : lasting (planRelease cfg s ch previous) = [] := by
  rcases planRelease_cases cfg s ch previous with hNone | hRelease
  · rw [hNone]
    rfl
  · rw [hRelease]
    exact lasting_reserveSize

/-
  Two databases plan the same for an accepted chunk if they have the same view of it and the same
  next bin ID for it.
-/
theorem planStore_congr (hView : t.view ch.address = s.view ch.address)
    (hBin : nextBinID t binIDs' (cfg.po ch.address) = nextBinID s binIDs (cfg.po ch.address)) :
    lasting (planStore cfg mode t binIDs' ch previous clock).records =
      lasting (planStore cfg mode s binIDs ch previous clock).records ∧
    (planStore cfg mode t binIDs' ch previous clock).outcome =
      (planStore cfg mode s binIDs ch previous clock).outcome ∧
    (planStore cfg mode t binIDs' ch previous clock).readings =
      (planStore cfg mode s binIDs ch previous clock).readings := by
  have hItem :
      ∀ storeTime accessTime,
        storedItem cfg t binIDs' ch storeTime accessTime = storedItem cfg s binIDs ch storeTime
            accessTime := by
    intro storeTime accessTime
    simp only [storedItem, hBin]
  cases hMode : mode.releases with
  | true =>
    rcases planPreserve_congr cfg (storedItem cfg s binIDs ch (clock 0) (clock 1))
      (mode = .requestPin) (mode = .requestCache) hView with ⟨hRecords, hChange⟩
    simp only [planStore_eq hMode, hItem, lasting_append, lasting_planRelease, hRecords, pulledLast,
      hChange, and_self]
  | false =>
    simp only [planStore_of_uploads hMode, planStoreUpload, hItem, and_self]

end

---- Changes Of The Counters

/- The modes that keep chunks within the radius. -/
def ModePut.reserves : ModePut → Bool
| .request => true
| .sync => true
| _ => false

/- The chunks that a mode stores in the cache. -/
def ModePut.caches (cfg : Config) (mode : ModePut) (ch : Chunk) : Bool :=
  match mode with
  | .requestCache => true
  | .request => !withinRadius cfg (chunkToItem ch)
  | .sync => !withinRadius cfg (chunkToItem ch)
  | _ => false

/- A chunk lies within the radius its batch was set to. -/
def Store.unreservedAt (cfg : Config) (s : Store) (ch : Chunk) : Bool :=
  match s.postageRadiusIndex.get ch.stamp.batchID with
  | none => false
  | some radius => cfg.po ch.address ≥ Item.mergeField radius ch.radius

/- A previous chunk made room. -/
def Previous.isRemoved : Previous → Bool
| .removed _ => true
| _ => false

/- The change of the reserve size by one chunk. -/
def Store.reserveChange (cfg : Config) (mode : ModePut) (s : Store) (ch : Chunk) : Int :=
  if !s.accepts ch then 0
  else if mode.reserves && withinRadius cfg (chunkToItem ch) then 1
  else if mode.releases && (s.displaced ch).isSome && s.unreservedAt cfg ch then -1
  else 0

/- The change of the gc size reported for one chunk. -/
def Store.gcChange (cfg : Config) (mode : ModePut) (s : Store) (ch : Chunk) : Int :=
  (if mode.reports && (s.displaced ch).any s.inGC then -1
    else 0) +
  (if s.accepts ch && mode.caches cfg ch && !s.pinIndex.has ch.address then 1
    else 0) +
  (if decide (mode = .uploadPin) && !s.pinIndex.has ch.address &&
      s.retrievalAccessIndex.has ch.address then -1
    else 0)

variable {removal : Batch}

section

variable (w : Store)

@[simp] theorem reserveSize_planRemove (p : Address) :
    (w.writeBatch (planRemove cfg s p).records).reserveSize = w.reserveSize := by
  unfold planRemove
  cases s.retrievalDataIndex.get p with
  | none => rfl
  | some d =>
    dsimp only
    split <;> rfl

@[simp] theorem reserveSize_planPin (a : Address) :
    (w.writeBatch (planPin s a).records).reserveSize = w.reserveSize := by
  unfold planPin
  cases s.pinIndex.get a <;> cases s.retrievalAccessIndex.get a <;>
    cases s.retrievalDataIndex.get a <;> rfl

theorem reserveSize_planRelease :
    (w.writeBatch
      (planRelease cfg s ch previous)).reserveSize =
        overwritten s.reserveSize w.reserveSize
          (if previous.isRemoved && s.unreservedAt cfg ch then -1 else 0) := by
  unfold planRelease Store.unreservedAt
  cases previous with
  | absent | kept => rfl
  | removed c =>
    cases s.postageRadiusIndex.get ch.stamp.batchID with
    | none => rfl
    | some radius =>
      dsimp only
      split
      · next hWithin =>
          rw [reserveSize_writeBatch_sizeRecords]
          simp [hWithin, Previous.isRemoved]
      · next hWithin =>
          simp [hWithin, overwritten]

theorem reserveSize_planPreserve (item : Item) (forcePin forceCache : Bool) :
    (w.writeBatch
      (planPreserve cfg s item forcePin forceCache).records).reserveSize =
        if !forceCache && !forcePin && withinRadius cfg item then s.reserveSize + 1
        else w.reserveSize := by
  unfold planPreserve
  by_cases hKeep : (!forceCache && (withinRadius cfg item || forcePin)) = true
  · cases forcePin <;> simp_all [Store.write]
  · have hNot : ¬ (!forceCache && !forcePin && withinRadius cfg item) = true := by simp_all
    rw [if_neg hKeep]
    split
    · rfl
    · split <;> rfl

/- The release and the reserve, for an accepted chunk. -/
theorem reserveSize_planStore :
    (w.writeBatch
      (planStore cfg mode s binIDs ch previous clock).records).reserveSize =
        overwritten s.reserveSize w.reserveSize
          (if mode.reserves && withinRadius cfg (chunkToItem ch) then 1
          else if mode.releases && previous.isRemoved && s.unreservedAt cfg ch then -1
          else 0) := by
  cases hMode : mode.releases with
  | true =>
    have hFixed : ∀ w : Store,
        let item := storedItem cfg s binIDs ch (clock 0) (clock 1)
        (w.writeBatch (item.putRetrievalData :: (pulledFirst cfg mode item ++
          [item.putPostageChunks cfg, item.putPostageIndex,
            item.putRetrievalAccess]))).reserveSize = w.reserveSize := by
      intro w item
      refine writeBatch_keeps Store.reserveSize (fun record hMem w => ?_) w
      simp only [List.mem_append, List.mem_cons, List.not_mem_nil, or_false] at hMem
      rcases hMem with rfl | hMem | rfl | rfl | rfl
      case inr.inl => rw [eq_of_mem_pulledFirst hMem]; rfl
      all_goals rfl
    have hLast : ∀ (w : Store) (item : Item) (keep : Plan),
        (w.writeBatch (pulledLast cfg mode item keep)).reserveSize = w.reserveSize := by
      intro w item keep
      refine writeBatch_keeps Store.reserveSize (fun record hMem w => ?_) w
      rw [eq_of_mem_pulledLast hMem]
      rfl
    have hWithin : withinRadius cfg (storedItem cfg s binIDs ch (clock 0) (clock 1)) =
        withinRadius cfg (chunkToItem ch) := rfl
    rw [planStore_eq hMode]
    simp only [Store.writeBatch_append]
    rw [hLast, reserveSize_planPreserve, hFixed, reserveSize_planRelease, hWithin]
    cases withinRadius cfg (chunkToItem ch) <;> cases mode <;> first | rfl | cases hMode
  | false =>
    have hReserves : mode.reserves = false := by cases mode <;> first | rfl | cases hMode
    rw [planStore_of_uploads hMode, hReserves]
    rfl

end

/- What the previous chunk of an accepted one tells. -/
theorem isRemoved_of_replaced (hReplaced : Replaced cfg s ch previous removal) :
    previous.isRemoved = (s.displaced ch).isSome := by
  cases hReplaced with
  | absent hIndex => simp [Store.displaced, hIndex, Previous.isRemoved]
  | removed p c hDisplaced hChange => simp [hDisplaced, Previous.isRemoved]

/- The reserve size after the records of one chunk. -/
theorem reserveSize_planPut
    (hOk : (planPut cfg mode s binIDs ch clock).outcome = .ok (exist, c)) (w : Store) :
    (w.writeBatch
      (planPut cfg mode s binIDs ch clock).records).reserveSize =
        overwritten s.reserveSize w.reserveSize (s.reserveChange cfg mode ch) := by
  have hPinned :
      ∀ w : Store,
        (w.writeBatch (planUploadPin mode s ch.address).records).reserveSize = w.reserveSize := by
    intro w
    unfold planUploadPin
    split
    · exact reserveSize_planPin w ch.address
    · rfl
  unfold Store.reserveChange
  cases hAccepts : s.accepts ch with
  | false =>
    rw [(planPut_refused hOk hAccepts).2]
    exact hPinned w
  | true =>
    rcases planPut_accepted hOk hAccepts with
      ⟨previous, removal, -, -, -, hReplaced, -, -, -, hPlan⟩
    have hRemoval : (w.writeBatch removal).reserveSize = w.reserveSize := by
      cases hReplaced with
      | absent hIndex => rfl
      | removed p c hDisplaced hChange => exact reserveSize_planRemove w p
    rw [hPlan, Store.writeBatch_append, hPinned, Store.writeBatch_append, reserveSize_planStore,
      hRemoval, isRemoved_of_replaced hReplaced]
    rfl

theorem change_planUploadPin (hChange : (planUploadPin mode s ch.address).change = .ok c) :
    c =
      if decide (mode = .uploadPin) && !s.pinIndex.has ch.address &&
          s.retrievalAccessIndex.has ch.address then -1
      else 0 := by
  unfold planUploadPin at hChange
  by_cases hMode : mode = .uploadPin
  · rw [if_pos hMode] at hChange
    unfold planPin at hChange
    cases hPin : s.pinIndex.get ch.address with
    | some n =>
      simp only [hPin, Except.ok.injEq] at hChange
      simp [← hChange, Index.has, hPin]
    | none =>
      cases hAccess : s.retrievalAccessIndex.get ch.address with
      | none =>
        simp only [hPin, hAccess, Except.ok.injEq] at hChange
        simp [← hChange, Index.has, hAccess]
      | some t =>
        cases hData : s.retrievalDataIndex.get ch.address with
        | none => simp [hPin, hAccess, hData] at hChange
        | some d =>
          simp only [hPin, hAccess, hData, Except.ok.injEq] at hChange
          simp [← hChange, Index.has, hPin, hAccess, hMode]
  · rw [if_neg hMode] at hChange
    cases hChange
    simp [hMode]

/- What keeping an accepted chunk changes. -/
theorem change_planPreserve (hCons : (s.view ch.address).Consistent (cfg.po ch.address))
    (hData : s.retrievalDataIndex.get ch.address = none)
    (hChange :
      (planPreserve cfg s (storedItem cfg s binIDs ch storeTime accessTime)
        forcePin forceCache).change = .ok c) :
    c =
      if !(!forceCache && (withinRadius cfg (chunkToItem ch) || forcePin)) &&
          !s.pinIndex.has ch.address then 1
      else 0 := by
  unfold planPreserve at hChange
  have hWithin :
      withinRadius cfg (storedItem cfg s binIDs ch storeTime accessTime) =
        withinRadius cfg (chunkToItem ch) := rfl
  rw [hWithin, storedItem_address] at hChange
  cases hKeep : !forceCache && (withinRadius cfg (chunkToItem ch) || forcePin) with
  | true =>
    rw [hKeep] at hChange
    rw [change_planPin_of_data hCons hData hChange]
    rfl
  | false =>
    rw [hKeep] at hChange
    cases hPin : s.pinIndex.has ch.address with
    | true =>
      rw [hPin] at hChange
      cases hChange
      rfl
    | false =>
      have hGC : s.gcIndex.has (storedItem cfg s binIDs ch storeTime accessTime).gcKey = false :=
        (Index.has_eq_false_iff _ _).mpr
          (hCons.gc_eq_none_of_data hData accessTime (nextBinID s binIDs (cfg.po ch.address)))
      rw [hPin, hGC] at hChange
      cases hChange
      rfl

theorem gcSizeChange_of_replaced (hReplaced : Replaced cfg s ch previous removal) :
    previous.gcSizeChange = if (s.displaced ch).any s.inGC then -1 else 0 := by
  cases hReplaced with
  | absent hIndex => simp [Store.displaced, hIndex, Previous.gcSizeChange]
  | removed p c hDisplaced hChange =>
    rw [hDisplaced]
    unfold planRemove at hChange
    cases hData : s.retrievalDataIndex.get p with
    | none => simp [hData] at hChange
    | some d =>
      simp only [hData] at hChange
      simp only [Previous.gcSizeChange, Option.any_some, Store.inGC, hData]
      split at hChange
      · next hHas =>
          cases hChange
          rw [hHas]
          rfl
      · next hHas =>
          cases hChange
          rw [if_neg hHas]

/- What storing an accepted chunk changes. -/
theorem change_planStore (hCons : (s.view ch.address).Consistent (cfg.po ch.address))
    (hData : s.retrievalDataIndex.get ch.address = none)
    (hOk : (planStore cfg mode s binIDs ch previous clock).outcome = .ok (exist, c)) :
    exist = false ∧
      c =
        previous.reported mode +
          if mode.caches cfg ch && !s.pinIndex.has ch.address then 1 else 0 := by
  cases hMode : mode.releases with
  | true =>
    rcases change_of_releases hMode hOk with ⟨c', hKeep, hExist, hChange⟩
    refine ⟨hExist, ?_⟩
    rw [hChange, change_planPreserve hCons hData hKeep]
    cases mode <;> first | simp [ModePut.caches]; done | cases hMode
  | false =>
    rw [planStore_of_uploads hMode] at hOk
    cases hOk
    cases mode <;> first | exact ⟨rfl, rfl⟩ | cases hMode

theorem displaced_of_not_accepts (hAccepts : s.accepts ch = false) : s.displaced ch = none := by
  unfold Store.accepts at hAccepts
  unfold Store.displaced
  split
  · rfl
  · next hHas =>
      cases hIndex : s.postageIndexIndex.get ch.stampKey with
      | none => rfl
      | some previous => simp_all

theorem accepts_of_displaced (hDisplaced : s.displaced ch = some p) : s.accepts ch = true := by
  by_contra hRefused
  rw [displaced_of_not_accepts (Bool.eq_false_iff.mpr hRefused)] at hDisplaced
  cases hDisplaced

/- The change and the flag that a put of one chunk returns. -/
theorem change_planPut (hCons : (s.view ch.address).Consistent (cfg.po ch.address))
    (hOk : (planPut cfg mode s binIDs ch clock).outcome = .ok (exist, c)) :
    exist = s.retrievalDataIndex.has ch.address ∧ c = s.gcChange cfg mode ch := by
  rcases planPut_cases hOk with ⟨base, c₁, c₂, hCase, hBase, hPin, hSum, -⟩
  have hPinned := change_planUploadPin hPin
  have hRefused : s.accepts ch = false → s.gcChange cfg mode ch = c₂ := by
    intro hAccepts
    simp [Store.gcChange, hAccepts, hPinned, displaced_of_not_accepts hAccepts]
  cases hCase with
  | existed hHas =>
    cases hBase
    have hAccepts : s.accepts ch = false := by simp [Store.accepts, hHas]
    rw [hHas, hRefused hAccepts, hSum, Int.zero_add]
    exact ⟨rfl, rfl⟩
  | kept hData hAccepts =>
    cases hBase
    rw [(Index.has_eq_false_iff _ _).mpr hData, hRefused hAccepts, hSum, Int.zero_add]
    exact ⟨rfl, rfl⟩
  | stored previous removal hData hAccepts hReplaced =>
    have hStore := change_planStore hCons hData hBase
    have hReported :
        previous.reported mode = if mode.reports && (s.displaced ch).any s.inGC then -1 else 0 := by
      have hChange := gcSizeChange_of_replaced hReplaced
      cases mode <;> first | exact hChange | rfl
    refine ⟨?_, ?_⟩
    · rw [hStore.1, (Index.has_eq_false_iff _ _).mpr hData]
    · rw [hSum, hStore.2, hPinned, hReported]
      simp only [Store.gcChange, hAccepts, Bool.true_and]

end Sana.Localstore
