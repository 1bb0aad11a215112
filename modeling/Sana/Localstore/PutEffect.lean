import Sana.Localstore.View

/-
  What put calls do to views.

  A chunk of a call is accepted when it is not stored yet and its stamp index is free or held with
  an earlier timestamp; in the second case the chunk that holds the index is displaced.

  Key definitions include:
    * `Store.displaced`
    * `PutCase`

  Key theorems include:
    * `planPut_cases`
-/

---- Cases Of One Chunk

namespace Sana.Localstore

open KeyValue Program Swarm

variable {cfg : Config} {mode : ModePut} {s : Store} {binIDs : BinIDs} {ch : Chunk} {clock : Clock}
variable {previous : Previous} {a : Address}

/- The chunk that accepting a chunk would displace. -/
def Store.displaced (s : Store) (ch : Chunk) : Option Address :=
  if s.retrievalDataIndex.has ch.address then none
  else
    match s.postageIndexIndex.get ch.stampKey with
    | none => none
    | some previous =>
      if ch.stamp.timestamp > previous.timestamp then some previous.address
      else none

/- Whether a chunk is stored when it is put. -/
def Store.accepts (s : Store) (ch : Chunk) : Bool :=
  !s.retrievalDataIndex.has ch.address && match s.postageIndexIndex.get ch.stampKey with
    | none => true
    | some previous => ch.stamp.timestamp > previous.timestamp

/- What happens to the holder of a stamp index. -/
inductive Replaced (cfg : Config) (s : Store) (ch : Chunk) : Previous → Batch → Prop where
  | absent (hIndex : s.postageIndexIndex.get ch.stampKey = none) : Replaced cfg s ch .absent []
  | removed (p : Address) (c : Int) (hDisplaced : s.displaced ch = some p)
      (hChange : (planRemove cfg s p).change = .ok c) :
      Replaced cfg s ch (.removed c) (planRemove cfg s p).records

/- The plan of the end of each put function. -/
def planStore (cfg : Config) (mode : ModePut) (s : Store) (binIDs : BinIDs) (ch : Chunk)
    (previous : Previous) (clock : Clock) : PutPlan :=
  match mode with
  | .request => planStoreRequest cfg s binIDs ch false false previous clock
  | .requestPin => planStoreRequest cfg s binIDs ch true false previous clock
  | .requestCache => planStoreRequest cfg s binIDs ch false true previous clock
  | .sync => planStoreSync cfg s binIDs ch previous clock
  | _ => planStoreUpload cfg s binIDs ch clock

/- The modes that give back a replaced chunk. -/
def ModePut.releases : ModePut → Bool
| .request => true
| .requestPin => true
| .requestCache => true
| .sync => true
| _ => false

/- The part of a removal's change that a mode passes on: uploads and syncs drop it. -/
def Previous.reported (previous : Previous) (mode : ModePut) : Int :=
  match mode with
  | .request => previous.gcSizeChange
  | .requestPin => previous.gcSizeChange
  | .requestCache => previous.gcSizeChange
  | _ => 0

/- A sync pulls the chunk before it is kept, a request after it. -/
def pulledFirst (cfg : Config) (mode : ModePut) (item : Item) : Batch :=
  if mode = .sync then [item.putPull cfg] else []

def pulledLast (cfg : Config) (mode : ModePut) (item : Item) (keep : Plan) : Batch :=
  match keep.change with
  | .error _ => []
  | .ok _ => if mode = .sync || mode = .requestCache then [] else [item.putPull cfg]

/- All modes but uploads release, store and keep a chunk. -/
theorem planStore_eq (hMode : mode.releases = true) :
    planStore cfg mode s binIDs ch previous clock =
      let item := storedItem cfg s binIDs ch (clock 0) (clock 1)
      let keep := planPreserve cfg s item (mode = .requestPin) (mode = .requestCache)
      { records :=
          planRelease cfg s ch previous ++ item.putRetrievalData :: (pulledFirst cfg mode item ++
            [item.putPostageChunks cfg, item.putPostageIndex, item.putRetrievalAccess]) ++
            keep.records ++ pulledLast cfg mode item keep
        binIDs := binIDs.put (cfg.po ch.address) item.binID
        outcome := keep.change.map fun c => (false, previous.reported mode + c)
        readings := 2 } := by
  cases mode with
  | upload | uploadPin | unknown => cases hMode
  | request | requestPin | requestCache => rfl
  | sync =>
    have hLast : ∀ keep : Plan, pulledLast cfg .sync
        (storedItem cfg s binIDs ch (clock 0) (clock 1)) keep = [] := by
      intro keep
      unfold pulledLast
      split <;> rfl
    simp [planStore, planStoreSync, hLast, pulledFirst, Previous.reported]

/- A chunk that a request or a sync stores did not exist, and its upkeep succeeded. -/
theorem change_of_releases (hMode : mode.releases = true)
    (hOk : (planStore cfg mode s binIDs ch previous clock).outcome = .ok (exist, c)) :
    ∃ c', (planPreserve cfg s (storedItem cfg s binIDs ch (clock 0) (clock 1)) (mode = .requestPin)
        (mode = .requestCache)).change = .ok c' ∧
      exist = false ∧ c = previous.reported mode + c' := by
  rw [planStore_eq hMode] at hOk
  cases hKeep :
      (planPreserve cfg s (storedItem cfg s binIDs ch (clock 0) (clock 1)) (mode = .requestPin)
        (mode = .requestCache)).change with
  | error e => simp [hKeep, Except.map] at hOk
  | ok c' =>
    simp only [hKeep, Except.map, Except.ok.injEq, Prod.mk.injEq] at hOk
    exact ⟨c', rfl, hOk.1.symm, hOk.2.symm⟩

theorem planStore_of_uploads (hMode : mode.releases = false) :
    planStore cfg mode s binIDs ch previous clock = planStoreUpload cfg s binIDs ch clock := by
  cases mode <;> first | rfl | cases hMode

theorem eq_of_mem_pulledFirst (hMem : record ∈ pulledFirst cfg mode item) :
    record = item.putPull cfg := by
  unfold pulledFirst at hMem
  grind

theorem eq_of_mem_pulledLast (hMem : record ∈ pulledLast cfg mode item keep) :
    record = item.putPull cfg := by
  unfold pulledLast at hMem
  grind

/- The pin that an upload in pin mode adds. -/
def planUploadPin (mode : ModePut) (s : Store) (a : Address) : Plan :=
  if mode = .uploadPin then planPin s a
  else { records := [], change := .ok 0 }

/- The cases of a successful put of one chunk. -/
inductive PutCase (cfg : Config) (mode : ModePut) (s : Store) (binIDs : BinIDs) (ch : Chunk)
    (clock : Clock) : PutPlan → Prop where
  | existed (hData : s.retrievalDataIndex.has ch.address = true) :
      PutCase cfg mode s binIDs ch clock
        { records := []
          binIDs := binIDs
          outcome := .ok (true, 0) }
  | kept (hData : s.retrievalDataIndex.get ch.address = none) (hAccepts : s.accepts ch = false) :
      PutCase cfg mode s binIDs ch clock
        { records := []
          binIDs := binIDs
          outcome := .ok (false, 0) }
  | stored (previous : Previous) (removal : Batch)
      (hData : s.retrievalDataIndex.get ch.address = none) (hAccepts : s.accepts ch = true)
      (hReplaced : Replaced cfg s ch previous removal) : PutCase cfg mode s binIDs ch clock
        { planStore cfg mode s binIDs ch previous clock with
          records := removal ++ (planStore cfg mode s binIDs ch previous clock).records }

theorem displaced_of_replaced (hReplaced : Replaced cfg s ch previous removal) (p : Address)
    (hDisplaced : s.displaced ch = some p) :
    ∃ c, previous = .removed c ∧ (planRemove cfg s p).change = .ok c ∧
      removal = (planRemove cfg s p).records := by
  cases hReplaced with
  | absent hIndex => simp [Store.displaced, hIndex] at hDisplaced
  | removed p' c hDisplaced' hChange =>
    rw [hDisplaced'] at hDisplaced
    cases hDisplaced
    exact ⟨c, rfl, hChange, rfl⟩

theorem planAround_cases (hOk : (planAround cfg s binIDs ch fun previous =>
        planStore cfg mode s binIDs ch previous clock).outcome = .ok (exist, c)) :
    PutCase cfg mode s binIDs ch clock (planAround cfg s binIDs ch fun previous =>
        planStore cfg mode s binIDs ch previous clock) := by
  unfold planAround at hOk ⊢
  by_cases hHas : s.retrievalDataIndex.has ch.address = true
  · rw [if_pos hHas]
    exact .existed hHas
  rw [if_neg hHas] at hOk ⊢
  have hData : s.retrievalDataIndex.get ch.address = none := by simpa [Index.has] using hHas
  unfold planReplace at hOk ⊢
  cases hIndex : s.postageIndexIndex.get ch.stampKey with
  | none => exact .stored .absent [] hData (by simp [Store.accepts, hHas, hIndex]) (.absent hIndex)
  | some previous =>
    simp only [hIndex] at hOk ⊢
    by_cases hImmutable : ch.immutable = true
    · simp [hImmutable] at hOk
    rw [if_neg hImmutable] at hOk ⊢
    by_cases hLater : ch.stamp.timestamp > previous.timestamp
    · rw [if_pos hLater] at hOk ⊢
      cases hChange : (planRemove cfg s previous.address).change with
      | error e => simp [hChange, Except.map] at hOk
      | ok c' =>
        exact .stored (.removed c') _ hData (by simpa [Store.accepts, hHas, hIndex] using hLater)
          (.removed previous.address c' (by simp [Store.displaced, hHas, hIndex, hLater]) hChange)
    · rw [if_neg hLater]
      exact .kept hData (by simpa [Store.accepts, hHas, hIndex] using hLater)

/- A successful put of one chunk follows one of its cases, with a pin on top in pin mode. -/
theorem planPut_cases (hOk : (planPut cfg mode s binIDs ch clock).outcome = .ok (exist, c)) :
    ∃ base c₁ c₂, PutCase cfg mode s binIDs ch clock base ∧ base.outcome = .ok (exist, c₁) ∧
      (planUploadPin mode s ch.address).change = .ok c₂ ∧ c = c₁ + c₂ ∧
      planPut cfg mode s binIDs ch clock =
        { base with
          records := base.records ++ (planUploadPin mode s ch.address).records
          outcome := .ok (exist, c) } := by
  by_cases hPlain : planPut cfg mode s binIDs ch clock = (planAround cfg s binIDs ch fun previous =>
          planStore cfg mode s binIDs ch previous clock) ∧
      mode ≠ .uploadPin
  · rw [hPlain.1] at hOk ⊢
    refine ⟨_, c, 0, planAround_cases hOk, hOk, ?_⟩
    simp [planUploadPin, hPlain.2, ← hOk]
  cases mode with
  | request | requestPin | requestCache | upload | sync => exact absurd ⟨rfl, by decide⟩ hPlain
  | unknown => cases hOk
  | uploadPin =>
    simp only [planPut] at hOk ⊢
    cases hUpload : (planAround cfg s binIDs ch fun _ =>
          planStoreUpload cfg s binIDs ch clock).outcome with
    | error e => simp [hUpload] at hOk
    | ok result =>
      rcases result with ⟨exist', c₁⟩
      simp only [hUpload] at hOk ⊢
      cases hPin : (planPin s ch.address).change with
      | error e => simp [hPin, Except.map] at hOk
      | ok c₂ =>
        simp only [hPin, Except.map, Except.ok.injEq, Prod.mk.injEq] at hOk
        rcases hOk with ⟨rfl, rfl⟩
        exact ⟨_, c₁, c₂, planAround_cases hUpload, hUpload, hPin, rfl, rfl⟩

/- A chunk that is not accepted leaves at most a pin. -/
theorem planPut_refused (hOk : (planPut cfg mode s binIDs ch clock).outcome = .ok (exist, c))
    (hAccepts : s.accepts ch = false) :
    (planUploadPin mode s ch.address).change = .ok c ∧
      planPut cfg mode s binIDs ch clock =
        { records := (planUploadPin mode s ch.address).records
          binIDs := binIDs
          outcome := .ok (exist, c) } := by
  rcases planPut_cases hOk with ⟨base, c₁, c₂, hCase, hBase, hPin, hSum, hPlan⟩
  cases hCase with
  | existed hHas | kept hData hRefused =>
    cases hBase
    rw [hPlan, hSum, Int.zero_add]
    exact ⟨hPin, rfl⟩
  | stored previous removal hData hTaken hReplaced =>
    rw [hTaken] at hAccepts
    cases hAccepts

/- An accepted one is stored, after a removal. -/
theorem planPut_accepted (hOk : (planPut cfg mode s binIDs ch clock).outcome = .ok (exist, c))
    (hAccepts : s.accepts ch = true) :
    ∃ previous removal c₁ c₂, s.retrievalDataIndex.get ch.address = none ∧
      Replaced cfg s ch previous removal ∧
      (planStore cfg mode s binIDs ch previous clock).outcome = .ok (exist, c₁) ∧
      (planUploadPin mode s ch.address).change = .ok c₂ ∧ c = c₁ + c₂ ∧
      planPut cfg mode s binIDs ch clock =
        { planStore cfg mode s binIDs ch previous clock with
          records := removal ++ (planStore cfg mode s binIDs ch previous clock).records ++
            (planUploadPin mode s ch.address).records
          outcome := .ok (exist, c) } := by
  rcases planPut_cases hOk with ⟨base, c₁, c₂, hCase, hBase, hPin, hSum, hPlan⟩
  cases hCase with
  | existed hHas => simp [Store.accepts, hHas] at hAccepts
  | kept hData hRefused =>
    rw [hRefused] at hAccepts
    cases hAccepts
  | stored previous removal hData hTaken hReplaced =>
    exact ⟨previous, removal, c₁, c₂, hData, hReplaced, hBase, hPin, hSum, hPlan⟩

---- Storing One Chunk

/- The stored value of a new chunk. -/
def newData (cfg : Config) (s : Store) (binIDs : BinIDs) (ch : Chunk)
    (storeTimestamp : Nat) : RetrievalData where
  binID := nextBinID s binIDs (cfg.po ch.address)
  storeTimestamp := storeTimestamp
  stamp := ch.stamp
  data := ch.data

theorem onView_planRelease : onView a v (planRelease cfg s ch previous) = v := by
  rcases planRelease_cases cfg s ch previous with hNone | hRelease
  · rw [hNone]
    rfl
  · rw [hRelease]
    exact onView_sizeRecords a v (fun _ => rfl) _ _

@[simp] theorem storedItem_address (storeTime accessTime : Nat) :
    (storedItem cfg s binIDs ch storeTime accessTime).address = ch.address := rfl

/- Pinning an address that is not stored changes no size. -/
theorem change_planPin_of_data (hCons : (s.view a).Consistent po)
    (hData : s.retrievalDataIndex.get a = none) (hChange : (planPin s a).change = .ok c) :
    c = 0 := by
  have hAccess : s.retrievalAccessIndex.get a = none := hCons.access_eq_none hData
  unfold planPin at hChange
  cases hPin : s.pinIndex.get a with
  | some n =>
    simp only [hPin] at hChange
    cases hChange
    rfl
  | none =>
    simp only [hPin, hAccess] at hChange
    cases hChange
    rfl

/- The reserve pins a new chunk, the cache lists it. -/
theorem stored_of_planPreserve (hCons : (s.view ch.address).Consistent (cfg.po ch.address))
    (hData : s.retrievalDataIndex.get ch.address = none)
    (hChange :
      (planPreserve cfg s (storedItem cfg s binIDs ch storeTime accessTime)
        forcePin forceCache).change = .ok c) :
    View.Stored (cfg.po ch.address) (newData cfg s binIDs ch storeTime) (s.view ch.address) c
      (onView ch.address
        { (s.view ch.address).withChunk (cfg.po ch.address) (newData cfg s binIDs ch storeTime) with
          access := some accessTime }
        (planPreserve cfg s (storedItem cfg s binIDs ch storeTime accessTime)
          forcePin forceCache).records) := by
  have hNoGC : (s.view ch.address).gc = fun _ _ => none := by
    funext t b
    exact hCons.gc_eq_none_of_data hData t b
  unfold planPreserve at hChange ⊢
  by_cases hKeep :
      (!forceCache &&
        (withinRadius cfg (storedItem cfg s binIDs ch storeTime accessTime) || forcePin)) = true
  · rw [if_pos hKeep] at hChange ⊢
    have hReserve : ∀ v, onView ch.address v (if !forcePin then
              sizeRecords .reserveSize s.reserveSize 1
            else []) = v := by
      intro v
      split
      · exact onView_sizeRecords _ v (fun _ => rfl) _ _
      · rfl
    simp only [storedItem_address] at hChange ⊢
    rw [onView_append, hReserve]
    rw [onView_planPin hCons hChange (by exact fun _ _ => Or.inr rfl), ← hNoGC,
      change_planPin_of_data hCons hData hChange]
    exact .pinned accessTime
  rw [if_neg hKeep] at hChange ⊢
  by_cases hPinned : s.pinIndex.has ch.address = true
  · have hSome := (Index.has_eq_true_iff _ _).mp hPinned
    rcases hSome with ⟨n, hPin⟩
    have hHas :
        s.pinIndex.has (storedItem cfg s binIDs ch storeTime accessTime).address = true := hPinned
    rw [if_pos hHas] at hChange ⊢
    cases hChange
    exact .keptPinned accessTime n hPin
  · have hPin : s.pinIndex.get ch.address = none := by simpa [Index.has] using hPinned
    have hHas :
        ¬ s.pinIndex.has (storedItem cfg s binIDs ch storeTime accessTime).address = true := hPinned
    have hGC : ¬ s.gcIndex.has (storedItem cfg s binIDs ch storeTime accessTime).gcKey = true := by
      intro hTrue
      rcases (Index.has_eq_true_iff _ _).mp hTrue with ⟨x, hSome⟩
      have hNone := hCons.gc_eq_none_of_data hData accessTime
        (nextBinID s binIDs (cfg.po ch.address))
      have hSome' :
          (s.view ch.address).gc accessTime
            (nextBinID s binIDs (cfg.po ch.address)) = some x := hSome
      rw [hNone] at hSome'
      cases hSome'
    rw [if_neg hHas, if_neg hGC] at hChange ⊢
    cases hChange
    rw [onView_cons]
    simp only [Item.putGC, Item.gcKey, storedItem, chunkToItem_address, onView_gc]
    exact .cached accessTime hPin

/- The records of the put functions at their own address. -/

section Records

variable (v : View) (storeTime accessTime : Nat)

@[simp] theorem onView_putRetrievalData :
    Write.onView ch.address v (storedItem cfg s binIDs ch storeTime accessTime).putRetrievalData =
      { v with
        data := some (newData cfg s binIDs ch storeTime) } :=
  onView_retrievalData v _

@[simp] theorem onView_putRetrievalAccess :
    Write.onView ch.address v (storedItem cfg s binIDs ch storeTime accessTime).putRetrievalAccess =
      { v with access := some accessTime } :=
  onView_retrievalAccess v _

@[simp] theorem onView_putPush :
    Write.onView ch.address v (storedItem cfg s binIDs ch storeTime accessTime).putPush =
      { v with
        push := fun t =>
          if storeTime = t then some ch.tagID
          else v.push t } :=
  onView_push v _ _

@[simp] theorem onView_putPostageChunks :
    Write.onView ch.address v
        ((storedItem cfg s binIDs ch storeTime accessTime).putPostageChunks cfg) =
      { v with
        chunks := fun id p =>
          if ch.stamp.batchID = id ∧ cfg.po ch.address = p
          then some ()
          else v.chunks id p } :=
  onView_postageChunks v _ _ _

@[simp] theorem onView_putPostageIndex :
    Write.onView ch.address v
        (storedItem cfg s binIDs ch storeTime accessTime).putPostageIndex = v := rfl

@[simp] theorem onView_putPull :
    Write.onView ch.address v
        ((storedItem cfg s binIDs ch storeTime accessTime).putPull cfg) = v := rfl

end Records

theorem stored_of_releases (hCons : (s.view ch.address).Consistent (cfg.po ch.address))
    (hData : s.retrievalDataIndex.get ch.address = none) (hMode : mode.releases = true)
    (hOk : (planStore cfg mode s binIDs ch previous clock).outcome = .ok (exist, c)) :
    View.Stored (cfg.po ch.address) (newData cfg s binIDs ch (clock 0)) (s.view ch.address)
      (c - previous.reported mode)
      (onView ch.address (s.view ch.address)
        (planStore cfg mode s binIDs ch previous clock).records) := by
  rcases change_of_releases hMode hOk with ⟨c', hKeep, -, rfl⟩
  have hFirst : ∀ v, onView ch.address v (pulledFirst cfg mode
      (storedItem cfg s binIDs ch (clock 0) (clock 1))) = v := by
    intro v
    unfold pulledFirst
    split <;> rfl
  have hLast : ∀ v keep, onView ch.address v (pulledLast cfg mode
      (storedItem cfg s binIDs ch (clock 0) (clock 1)) keep) = v := by
    intro v keep
    unfold pulledLast
    split
    · rfl
    · split <;> rfl
  rw [planStore_eq hMode, Int.add_comm, Int.add_sub_cancel]
  simp only [onView_append, onView_planRelease, onView_cons, onView_nil, onView_putRetrievalData,
    onView_putPostageChunks, onView_putPostageIndex, onView_putRetrievalAccess, hFirst, hLast]
  exact stored_of_planPreserve hCons hData hKeep

/- An upload waits to be pushed; it is not yet accessed. -/
theorem onView_planStoreUpload :
    onView ch.address v (planStoreUpload cfg s binIDs ch clock).records =
      { v.withChunk (cfg.po ch.address) (newData cfg s binIDs ch (clock 0)) with
        push := fun t =>
          if clock 0 = t then some ch.tagID
          else v.push t } := by
  simp only [planStoreUpload, onView_cons, onView_nil,
    onView_putRetrievalData, onView_putPull, onView_putPush,
    onView_putPostageChunks, onView_putPostageIndex]
  rfl

/- The records of an accepted chunk store it, with one more pin after an upload in pin mode. -/
theorem stored_of_planStore (hCons : (s.view ch.address).Consistent (cfg.po ch.address))
    (hData : s.retrievalDataIndex.get ch.address = none)
    (hOk : (planStore cfg mode s binIDs ch previous clock).outcome = .ok (exist, c))
    (hPin : (planUploadPin mode s ch.address).change = .ok c') :
    View.Stored (cfg.po ch.address) (newData cfg s binIDs ch (clock 0)) (s.view ch.address)
      (c + c' - previous.reported mode)
      (onView ch.address
        (onView ch.address (s.view ch.address)
          (planStore cfg mode s binIDs ch previous clock).records)
        (planUploadPin mode s ch.address).records) := by
  have hPlain : mode ≠ .uploadPin → c' = 0 ∧ (planUploadPin mode s ch.address).records = [] := by
    intro hMode
    unfold planUploadPin at hPin ⊢
    rw [if_neg hMode] at hPin ⊢
    cases hPin
    exact ⟨rfl, rfl⟩
  have hUpload : (planStoreUpload cfg s binIDs ch clock).outcome = .ok (exist, c) → c = 0 := by
    intro hOk
    cases hOk
    rfl
  cases mode with
  | request | requestPin | requestCache | sync =>
    rw [(hPlain (by decide)).1, Int.add_zero]
    exact stored_of_releases hCons hData rfl hOk
  | upload | unknown =>
    rw [(hPlain (by decide)).1, hUpload hOk]
    simp only [planStore, onView_planStoreUpload]
    exact .uploaded ch.tagID _ (Or.inl rfl)
  | uploadPin =>
    have hNoGC : (s.view ch.address).gc = fun _ _ => none := by
      funext t b
      exact hCons.gc_eq_none_of_data hData t b
    simp only [planUploadPin, if_true] at hPin ⊢
    simp only [planStore, onView_planStoreUpload]
    rw [onView_planPin hCons hPin (by exact fun _ _ => Or.inr rfl), ← hNoGC,
      hUpload hOk, change_planPin_of_data hCons hData hPin]
    exact .uploaded ch.tagID _ (Or.inr rfl)

---- Other Addresses

theorem about_planRelease : About a (planRelease cfg s ch previous) := by
  unfold planRelease
  cases previous with
  | absent | kept => exact about_nil a
  | removed c =>
    cases s.postageRadiusIndex.get ch.stamp.batchID with
    | none => exact about_nil a
    | some radius =>
      dsimp only
      split
      · exact about_sizeRecords a (fun _ => rfl) _ _
      · exact about_nil a

theorem about_planPreserve :
    About item.address (planPreserve cfg s item forcePin forceCache).records := by
  unfold planPreserve
  split
  · refine About.append ?_ (about_planPin s item.address)
    split
    · exact about_sizeRecords _ (fun _ => rfl) _ _
    · exact about_nil _
  · split
    · exact about_nil _
    · split
      · exact about_nil _
      · exact about_cons (Or.inr rfl) (about_nil _)

/- The records by which a chunk is stored. -/
inductive StoreRecord (cfg : Config) (s : Store) (binIDs : BinIDs) (ch : Chunk) (storeTime : Nat)
    (previous : Previous) (record : Write) : Prop where
  | released (hMem : record ∈ planRelease cfg s ch previous)
  | kept (accessTime : Nat) (forcePin forceCache : Bool)
      (hMem : record ∈ (planPreserve cfg s (storedItem cfg s binIDs ch storeTime accessTime)
        forcePin forceCache).records)
  | own (item : Item) (accessTime : Nat)
      (hItem : item = storedItem cfg s binIDs ch storeTime accessTime)
      (hMem : record ∈ [item.putRetrievalData, item.putPull cfg, item.putPush, item.putPostageIndex,
        item.putPostageChunks cfg, item.putRetrievalAccess])

theorem storeRecord_of_mem
    (hMem : record ∈ (planStore cfg mode s binIDs ch previous clock).records) :
    StoreRecord cfg s binIDs ch (clock 0) previous record := by
  cases hMode : mode.releases with
  | false =>
    rw [planStore_of_uploads hMode] at hMem
    refine .own _ 0 rfl ?_
    simp only [planStoreUpload, List.mem_cons, List.not_mem_nil, or_false] at hMem ⊢
    tauto
  | true =>
    rw [planStore_eq hMode] at hMem
    simp only [List.mem_append, List.mem_cons, List.not_mem_nil, or_false] at hMem
    rcases hMem with ((hMem | hMem | hMem | hMem) | hMem) | hMem
    · exact .released hMem
    · exact .own _ (clock 1) rfl (by simp [hMem])
    · exact .own _ (clock 1) rfl (by simp [eq_of_mem_pulledFirst hMem])
    · exact .own _ (clock 1) rfl (by rcases hMem with rfl | rfl | rfl <;> simp)
    · exact .kept _ _ _ hMem
    · exact .own _ (clock 1) rfl (by simp [eq_of_mem_pulledLast hMem])

theorem about_planStore :
    About ch.address (planStore cfg mode s binIDs ch previous clock).records := by
  intro record hMem
  cases storeRecord_of_mem hMem with
  | released hMem => exact about_planRelease record hMem
  | kept _ _ _ hMem => exact about_planPreserve record hMem
  | own item accessTime hItem hMem =>
    subst hItem
    simp only [List.mem_cons, List.not_mem_nil, or_false] at hMem
    rcases hMem with rfl | rfl | rfl | rfl | rfl | rfl <;>
      first | exact Or.inl rfl | exact Or.inr rfl

theorem about_planUploadPin (a : Address) : About a (planUploadPin mode s a).records := by
  unfold planUploadPin
  split
  · exact about_planPin s a
  · exact about_nil a

---- Put Calls

section

/- What the chunks of a put call, up to some point, do to the view of one address. -/
inductive PutView (cfg : Config) (mode : ModePut) (s : Store) (chs : List Chunk)
    (a : Address) : View → Prop where
  | same : PutView cfg mode s chs a (s.view a)
  | stored {v : View} (ch : Chunk) (d : RetrievalData) (c : Int) (hMem : ch ∈ chs)
      (hAddress : ch.address = a) (hData : s.retrievalDataIndex.get a = none)
      (hAccepts : s.accepts ch = true) (hStamp : d.stamp = ch.stamp) (hBytes : d.data = ch.data)
      (hStored : View.Stored (cfg.po a) d (s.view a) c v) : PutView cfg mode s chs a v
  | gone {v : View} (ch : Chunk) (d : RetrievalData) (hMem : ch ∈ chs)
      (hDisplaced : s.displaced ch = some a) (hData : s.retrievalDataIndex.get a = some d)
      (hGone : View.Gone (s.view a) v) : PutView cfg mode s chs a v
  | pinned {v : View} (ch : Chunk) (hMem : ch ∈ chs) (hAddress : ch.address = a)
      (hMode : mode = .uploadPin) (hPinned : View.Pinned (s.view a) v) : PutView cfg mode s chs a v

variable {seen : List Chunk} {v : View}

theorem PutView.mono (hSub : ∀ ch ∈ seen, ch ∈ chs)
    (hView : PutView cfg mode s seen a v) : PutView cfg mode s chs a v := by
  cases hView with
  | same => exact .same
  | stored ch d c hMem hAddress hData hAccepts hStamp hBytes hStored =>
    exact .stored ch d c (hSub ch hMem) hAddress hData hAccepts hStamp hBytes hStored
  | gone ch d hMem hDisplaced hData hGone => exact .gone ch d (hSub ch hMem) hDisplaced hData hGone
  | pinned ch hMem hAddress hMode hPinned => exact .pinned ch (hSub ch hMem) hAddress hMode hPinned

theorem PutView.consistent (hCons : (s.view a).Consistent (cfg.po a))
    (hView : PutView cfg mode s seen a v) : v.Consistent (cfg.po a) := by
  cases hView with
  | same => exact hCons
  | stored ch d c hMem hAddress hData hAccepts hStamp hBytes hStored =>
    exact hStored.consistent hCons hData
  | gone ch d hMem hDisplaced hData hGone => exact hGone.consistent
  | pinned ch hMem hAddress hMode hPinned => exact hPinned.consistent hCons

/- A stored chunk is left alone, displaced, or pinned. -/
theorem PutView.within (hData : s.retrievalDataIndex.get a = some d)
    (hView : PutView cfg mode s seen a v) : View.Within (s.view a) v := by
  cases hView with
  | same => exact .refl _
  | stored ch d' c hMem hAddress hNone hAccepts hStamp hBytes hStored =>
    rw [hNone] at hData
    cases hData
  | gone ch d' hMem hDisplaced hData' hGone => exact hGone.within
  | pinned ch hMem hAddress hMode hPinned => exact hPinned.within

theorem containsChunk_eq_false (hNot : containsChunk a chs = false) :
    ∀ ch ∈ chs, ch.address ≠ a := by
  intro ch hMem hEq
  have hTrue : containsChunk a chs = true := by
    simp only [containsChunk, List.any_eq_true]
    exact ⟨ch, hMem, by simp [hEq]⟩
  rw [hTrue] at hNot
  cases hNot

/- An address not yet treated is left alone or displaced. -/
theorem PutView.untreated (hSeen : containsChunk a seen = false)
    (hView : PutView cfg mode s seen a v) :
    v = s.view a ∨
      ∃ ch d, ch ∈ seen ∧ s.displaced ch = some a ∧ s.retrievalDataIndex.get a = some d ∧
        View.Gone (s.view a) v := by
  have hNot := containsChunk_eq_false hSeen
  cases hView with
  | same => exact Or.inl rfl
  | stored ch d c hMem hAddress hNone hAccepts hStamp hBytes hStored
  | pinned ch hMem hAddress hMode hPinned => exact absurd hAddress (hNot ch hMem)
  | gone ch d hMem hDisplaced hSome hGone => exact Or.inr ⟨ch, d, hMem, hDisplaced, hSome, hGone⟩

/- An address that is neither stored nor treated yet. -/
theorem PutView.eq_of_data (hData : s.retrievalDataIndex.get a = none)
    (hSeen : containsChunk a seen = false) (hView : PutView cfg mode s seen a v) :
    v = s.view a := by
  rcases hView.untreated hSeen with hSame | ⟨ch, d, -, -, hSome, -⟩
  · exact hSame
  · rw [hData] at hSome
    cases hSome

/- Only stored chunks can be removed. -/
theorem data_of_planRemove (hChange : (planRemove cfg s p).change = .ok c) :
    ∃ d, s.retrievalDataIndex.get p = some d := by
  cases hData : s.retrievalDataIndex.get p with
  | none => simp [planRemove, hData] at hChange
  | some d => exact ⟨d, rfl⟩

/- The database has a consistent view at every address. -/
def Store.Consistent (cfg : Config) (s : Store) : Prop :=
  ∀ a, (s.view a).Consistent (cfg.po a)

section Step

variable {binIDs : BinIDs} {ch : Chunk} {clock : Clock}
variable {previous : Previous} {removal : Batch}

/- A removal does not touch the chunk it makes room for. -/
theorem onView_removal_of_data (hReplaced : Replaced cfg s ch previous removal)
    (hData : s.retrievalDataIndex.get a = none) : onView a v removal = v := by
  cases hReplaced with
  | absent hIndex => rfl
  | removed p c hDisplaced hChange =>
    apply (about_planRemove cfg s p).onView_of_ne
    intro hEq
    rcases data_of_planRemove hChange with ⟨d, hSome⟩
    rw [hEq, hData] at hSome
    cases hSome

/- A removal keeps the classification of every view. -/
theorem PutView.of_removal (hCons : (s.view a).Consistent (cfg.po a))
    (hReplaced : Replaced cfg s ch previous removal) (hView : PutView cfg mode s seen a v) :
    PutView cfg mode s (seen ++ [ch]) a (onView a v removal) := by
  have hMono : PutView cfg mode s (seen ++ [ch]) a v :=
    hView.mono fun _ hMem => List.mem_append_left _ hMem
  cases hReplaced with
  | absent hIndex => exact hMono
  | removed p c hDisplaced hChange =>
    by_cases hEq : p = a
    · subst hEq
      rcases data_of_planRemove hChange with ⟨d, hData⟩
      exact .gone ch d (by simp) hDisplaced hData
        (gone_of_planRemove hCons (hView.within hData) hChange)
    · rw [(about_planRemove cfg s p).onView_of_ne hEq]
      exact hMono

/- A pin on top keeps the classification of every view. -/
theorem PutView.of_uploadPin (hCons : (s.view a).Consistent (cfg.po a)) (hAddress : ch.address = a)
    (hSeen : containsChunk a seen = false)
    (hPin : (planUploadPin mode s a).change = .ok c) (hView : PutView cfg mode s seen a v) :
    PutView cfg mode s (seen ++ [ch]) a (onView a v (planUploadPin mode s a).records) := by
  have hMono : PutView cfg mode s (seen ++ [ch]) a v :=
    hView.mono fun _ hMem => List.mem_append_left _ hMem
  unfold planUploadPin at hPin ⊢
  by_cases hMode : mode = .uploadPin
  · rw [if_pos hMode] at hPin ⊢
    rcases hView.untreated hSeen with rfl | ⟨ch', d, hMem, hDisplaced, hData, hGone⟩
    · exact .pinned ch (by simp) hAddress hMode (pinned_of_planPin hCons hPin)
    · rw [onView_planPin hCons hPin (by exact fun t b => Or.inl (hGone.gc t b))]
      exact .gone ch' d (List.mem_append_left _ hMem) hDisplaced hData
        { hGone with gc := fun _ _ => rfl }
  · rw [if_neg hMode]
    exact hMono

/- One chunk of a put call keeps every view classified. -/
theorem putView_planPut (hCons : s.Consistent cfg) (hSeen : containsChunk ch.address seen = false)
    (hOk : (planPut cfg mode s binIDs ch clock).outcome = .ok (exist, c))
    (hView : PutView cfg mode s seen a v) :
    PutView cfg mode s (seen ++ [ch]) a
      (onView a v (planPut cfg mode s binIDs ch clock).records) := by
  have hMono : PutView cfg mode s (seen ++ [ch]) a v :=
    hView.mono fun _ hMem => List.mem_append_left _ hMem
  rcases planPut_cases hOk with ⟨base, c₁, c₂, hCase, hBase, hPin, -, hPlan⟩
  rw [hPlan, onView_append]
  by_cases hAddress : ch.address = a
  · subst hAddress
    cases hCase with
    | existed hHas | kept hData hAccepts => exact hView.of_uploadPin (hCons _) rfl hSeen hPin
    | stored previous removal hData hAccepts hReplaced =>
      rw [hView.eq_of_data hData hSeen, onView_append, onView_removal_of_data hReplaced hData]
      exact .stored ch _ _ (by simp) rfl hData hAccepts rfl rfl
        (stored_of_planStore (hCons _) hData hBase hPin)
  · rw [(about_planUploadPin ch.address).onView_of_ne hAddress]
    cases hCase with
    | existed hHas | kept hData hAccepts => exact hMono
    | stored previous removal hData hAccepts hReplaced =>
      rw [onView_append, about_planStore.onView_of_ne hAddress]
      exact hView.of_removal (hCons a) hReplaced

end Step

/- The whole loop over the chunks of a put call. -/
theorem putView_planPutAll (hCons : s.Consistent cfg)
    (hResult : (planPutAll cfg mode s [] chs {} clock).result = .ok st) :
    PutView cfg mode s chs a (onView a (s.view a) st.batch) := by
  refine planPutAll_invariant
    (fun seen st => PutView cfg mode s seen a (onView a (s.view a) st.batch)) hResult .same
    (fun hView _ => hView.mono fun _ hMem => List.mem_append_left _ hMem)
    (fun _ hView hSeen hOk => ?_)
  simp only [PutState.next, onView_append]
  exact putView_planPut hCons hSeen hOk hView

end

---- Pins Of Uploads

/- A pin adds one to the stored number, whatever was there. -/
theorem pin_onView_planPin (v : View) (hChange : (planPin s a).change = .ok c) :
    (onView a v (planPin s a).records).pin = some ((s.view a).pins + 1) := by
  unfold planPin at hChange ⊢
  cases hPin : s.pinIndex.get a with
  | some n => simp [View.pins, Store.view, hPin]
  | none =>
    cases hAccess : s.retrievalAccessIndex.get a with
    | none => simp [View.pins, Store.view, hPin]
    | some time =>
      cases hData : s.retrievalDataIndex.get a with
      | none => simp [hPin, hAccess, hData] at hChange
      | some d => simp [View.pins, Store.view, hPin]

/- Other chunks keep the view, unless they displace it. -/
theorem onView_planPut_of_ne (hOk : (planPut cfg mode s binIDs ch clock).outcome = .ok (exist, c))
    (hNe : ch.address ≠ a) (hKept : s.displaced ch ≠ some a) (v : View) :
    onView a v (planPut cfg mode s binIDs ch clock).records =
      v := by
  rcases planPut_cases hOk with ⟨base, c₁, c₂, hCase, -, -, -, hPlan⟩
  rw [hPlan, onView_append, (about_planUploadPin ch.address).onView_of_ne hNe]
  cases hCase with
  | existed hHas | kept hData hAccepts => rfl
  | stored previous removal hData hAccepts hReplaced =>
    rw [onView_append, about_planStore.onView_of_ne hNe]
    rcases hReplaced with _ | ⟨p, c, hDisplaced, -⟩
    · rfl
    · apply (about_planRemove cfg s p).onView_of_ne
      rintro rfl
      exact hKept hDisplaced

/-
  An upload in pin mode adds one pin to each of its chunks that none of its other chunks displaces.
-/
theorem pin_planPutAll_uploadPin
    (hResult : (planPutAll cfg .uploadPin s [] chs {} clock).result = .ok st)
    (hKept : ∀ ch ∈ chs, s.displaced ch ≠ some a) (hMem : containsChunk a chs = true) :
    (onView a (s.view a) st.batch).pin = some ((s.view a).pins + 1) := by
  -- whether an address occurs up to a chunk
  have hSplit : ∀ {seen ch}, containsChunk a (seen ++ [ch]) = true →
      containsChunk a seen = true ∨ ch.address = a := by
    intro seen ch hHere
    simp only [containsChunk, List.any_append, List.any_cons, List.any_nil, Bool.or_false,
      Bool.or_eq_true, beq_iff_eq] at hHere ⊢
    exact hHere.imp_right Eq.symm
  refine planPutAll_invariant (fun seen st => containsChunk a seen = true →
      (onView a (s.view a) st.batch).pin = some ((s.view a).pins + 1)) hResult nofun
    (fun hBefore hDone hHere => ?_) (fun {seen st ch _ exist c} hCh hBefore _ hOk hHere => ?_) hMem
  · rcases hSplit hHere with hHere | rfl
    · exact hBefore hHere
    · exact hBefore hDone
  · simp only [PutState.next, onView_append]
    by_cases hAddress : ch.address = a
    · subst hAddress
      rcases planPut_cases hOk with ⟨base, c₁, c₂, -, -, hPin, -, hPlan⟩
      rw [hPlan, onView_append]
      exact pin_onView_planPin _ hPin
    · rw [onView_planPut_of_ne hOk hAddress (hKept ch hCh)]
      exact hBefore ((hSplit hHere).resolve_right hAddress)

end Sana.Localstore
