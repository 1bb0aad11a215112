import Sana.Localstore.System

/-
  Evicting the chunks of a batch from the reserve.

  `UnreserveBatch` writes each bin with its own batch, which records the bin as the radius.  After
  an interruption the bin is visited again, and the chunks unpinned so far are missing from the size
  of the reserve, which is adjusted at the very end.

  Key definitions include:
    * `Store.pinnedInBins`
    * `Store.ChunkOf`

  Key theorems include:
    * `unpinnedInBins_eq`
-/

---- Counting Pinned Chunks

namespace Sana.Localstore

open KeyValue Program Swarm

variable {cfg : Config} {s : Store}

/- A chunk of a batch, in any proximity bin. -/
def Store.ChunkOf (s : Store) (id : BatchID) (a : Address) : Prop :=
  ∃ po, s.postageChunksIndex.get ⟨id, po, a⟩ = some ()

/- The number of pinned chunks of a batch in some bins. -/
def Store.pinnedInBins (s : Store) (id : BatchID) (low high : Nat) : Nat :=
  s.postageChunksIndex.entries.countP fun entry =>
    decide (entry.1.batchID = id ∧ low ≤ entry.1.po ∧ entry.1.po < high) &&
      s.pinIndex.has entry.1.address

theorem chunkOf_iff (hCons : s.Consistent cfg) (id : BatchID) :
    s.ChunkOf id a ↔ (s.view a).chunks id (cfg.po a) = some () := by
  constructor
  · rintro ⟨po, hChunk⟩
    rcases (hCons a).chunks id po hChunk with ⟨d, -, -, hPO⟩
    rw [← hPO]
    exact hChunk
  · intro hChunk
    exact ⟨cfg.po a, hChunk⟩

/- Unpinning stored chunks counts the pinned ones. -/
theorem reserveSizeChange_planUnpinAll (hCons : s.Consistent cfg)
    (hData : ∀ a ∈ addrs, (s.view a).data ≠ none) :
    (planUnpinAll s addrs {}).reserveSizeChange = addrs.countP fun a => s.pinIndex.has a := by
  rw [planUnpinAll_eq, Nat.zero_add]
  apply List.countP_congr
  intro a hMem
  rcases unpinView_cases (hCons a) (hData a hMem) with ⟨hPin, -⟩ | ⟨c, hChange, -⟩
  · have hGet : s.pinIndex.get a = none := hPin
    simp [planUnpin, Index.has, hGet, Except.toOption]
  · cases hGet : s.pinIndex.get a with
    | none => simp [planUnpin, hGet] at hChange
    | some n => simp [hChange, Index.has, hGet, Except.toOption]

/- One bin. -/
theorem reserveSizeChange_unpinBin (hCons : s.Consistent cfg) (id : BatchID) (bin : Nat) :
    (s.unpinBin id bin).reserveSizeChange = s.pinnedInBins id bin (bin + 1) := by
  have hData : ∀ a ∈ s.chunksInBin id bin, (s.view a).data ≠ none := by
    intro a hMem
    rcases (hCons a).chunks id bin ((mem_chunksInBin_iff s id bin a).mp hMem) with ⟨d, hSome, -⟩
    rw [hSome]
    simp
  unfold Store.unpinBin Store.pinnedInBins
  rw [reserveSizeChange_planUnpinAll hCons hData]
  unfold Store.chunksInBin
  rw [List.countP_map, List.countP_filter]
  apply List.countP_congr
  intro entry hMem
  simp only [Function.comp, Bool.and_eq_true, decide_eq_true_eq]
  constructor
  · rintro ⟨hHas, hBatch, hPO⟩
    exact ⟨⟨hBatch, by omega, by omega⟩, hHas⟩
  · rintro ⟨⟨hBatch, hLow, hHigh⟩, hHas⟩
    exact ⟨hHas, hBatch, by omega⟩

/- The batch index does not change while unpinning. -/
theorem postageChunksIndex_afterBin (s : Store) (id : BatchID) (bin : Nat) :
    (s.afterBin id bin).postageChunksIndex = s.postageChunksIndex := by
  ext ⟨batchID, po, a⟩ : 1
  have hView := view_afterBin s id bin a
  have hChunks : ((s.afterBin id bin).view a).chunks = (s.view a).chunks := by
    rw [hView]
    split
    · exact unpinView_chunks s a
    · rfl
  exact congrFun (congrFun hChunks batchID) po

/- The bins to come are not touched by one turn. -/
theorem pinnedInBins_afterBin (hCons : s.Consistent cfg) (id : BatchID) (bin high : Nat) :
    (s.afterBin id bin).pinnedInBins id (bin + 1) high = s.pinnedInBins id (bin + 1) high := by
  unfold Store.pinnedInBins
  rw [postageChunksIndex_afterBin]
  apply List.countP_congr
  rintro ⟨⟨batchID, po, a⟩, u⟩ hMem
  have hChunk : (s.view a).chunks batchID po = some () := (Index.mem_entries_iff _ _ _).mp hMem
  simp only [Bool.and_eq_true, decide_eq_true_eq, and_congr_right_iff]
  rintro ⟨rfl, hLow, -⟩
  have hView := view_afterBin s batchID bin a
  have hNot : ¬ (s.view a).chunks batchID bin = some () := by
    intro hHere
    rcases (hCons a).chunks _ _ hChunk with ⟨-, -, -, hPO⟩
    rcases (hCons a).chunks _ _ hHere with ⟨-, -, -, hBin⟩
    omega
  rw [if_neg hNot] at hView
  have hPin : (s.afterBin batchID bin).pinIndex.get a = s.pinIndex.get a := congrArg View.pin hView
  simp only [Index.has, hPin]

/- Adjacent bins are counted separately. -/
theorem pinnedInBins_split (s : Store) (id : BatchID) (hLow : low ≤ mid) (hHigh : mid ≤ high) :
    s.pinnedInBins id low high = s.pinnedInBins id low mid + s.pinnedInBins id mid high := by
  unfold Store.pinnedInBins
  induction s.postageChunksIndex.entries with
  | nil => rfl
  | cons entry entries ih =>
    simp only [List.countP_cons, ih]
    by_cases hBatch : entry.1.batchID = id <;>
      by_cases hHas : s.pinIndex.has entry.1.address = true <;>
      simp only [hBatch, hHas, true_and, false_and,
        Bool.and_true, Bool.and_false, decide_eq_true_eq,
        decide_false, Bool.false_eq_true, if_false, Nat.add_zero]
    by_cases hFirst : low ≤ entry.1.po ∧ entry.1.po < mid
    · rw [if_pos (by omega), if_pos hFirst, if_neg (by omega)]
      omega
    · by_cases hSecond : mid ≤ entry.1.po ∧ entry.1.po < high
      · rw [if_pos (by omega), if_neg hFirst, if_pos hSecond]
        omega
      · rw [if_neg (by omega), if_neg hFirst, if_neg hSecond]
        omega

/- A call unpins as many chunks as were pinned in its bins. -/
theorem unpinnedInBins_eq (hCons : s.Consistent cfg) (id : BatchID) (bin count : Nat) :
    s.unpinnedInBins id bin count = s.pinnedInBins id bin (bin + count) := by
  induction count generalizing s bin with
  | zero =>
    have hNone : s.pinnedInBins id bin (bin + 0) = 0 := by
      unfold Store.pinnedInBins
      rw [List.countP_eq_zero]
      simp only [Bool.and_eq_true, decide_eq_true_eq]
      omega
    rw [hNone]
    rfl
  | succ count ih =>
    simp only [Store.unpinnedInBins]
    rw [ih (consistent_afterBin hCons id bin), reserveSizeChange_unpinBin hCons,
      pinnedInBins_afterBin hCons]
    rw [pinnedInBins_split s id (show bin ≤ bin + 1 by omega)
      (show bin + 1 ≤ bin + (count + 1) by omega)]
    congr 2
    omega

---- Full Eviction

section

/- Pins of a batch that are gone in a later state. -/
def Store.evicted (s s' : Store) (id : BatchID) : Nat :=
  s.postageChunksIndex.entries.countP fun entry =>
    decide (entry.1.batchID = id) && s.pinIndex.has entry.1.address &&
      !s'.pinIndex.has entry.1.address

/-
  The chunks of a batch can be evicted by one call: each of those that are pinned is pinned once,
  and lies in a bin that the recorded radius of the batch has not passed.
-/
def Store.Evictable (cfg : Config) (s : Store) (id : BatchID) : Prop :=
  ∀ a n, s.ChunkOf id a → s.pinIndex.get a = some n →
    n ≤ 1 ∧ ∃ radius, s.postageRadiusIndex.get id = some radius ∧ radius ≤ cfg.po a

variable {id : BatchID}

/- A stored chunk is left without pins by its last unpin. -/
theorem unpinView_pin_eq_none_iff (hCons : (s.view a).Consistent po)
    (hData : (s.view a).data ≠ none) :
    (s.unpinView a).pin = none ↔ ∀ n, (s.view a).pin = some n → n ≤ 1 := by
  rcases unpinView_cases hCons hData with ⟨hPin, hSame⟩ | ⟨c, -, hUnpinned⟩
  · rw [hSame]
    simp [hPin]
  · generalize s.unpinView a = w at hUnpinned
    rcases hUnpinned with ⟨n, hPin, hMany⟩ | ⟨n, hPin, hLast⟩ | ⟨n, d, time, hPin, hLast, -, -, -⟩
    · simp only [hPin, reduceCtorEq, false_iff]
      intro hAll
      have hLast := hAll n rfl
      omega
    · simpa [hPin] using hLast
    · simpa [hPin] using hLast

/- A chunk of the batch after the call. -/
theorem pin_afterUnreserve_eq_none_iff (hCons : s.Consistent cfg) (hChunk : s.ChunkOf id a) :
    ((s.afterUnreserve id radius).view a).pin = none ↔
      ∀ n, (s.view a).pin = some n → n ≤ 1 ∧ s.visits cfg id radius a := by
  have hHere := (chunkOf_iff hCons id).mp hChunk
  have hData : (s.view a).data ≠ none := by
    rcases (hCons a).chunks id _ hHere with ⟨d, hSome, -⟩
    rw [hSome]
    simp
  rw [view_afterUnreserve hCons]
  by_cases hVisits : s.visits cfg id radius a
  · rw [if_pos hVisits, unpinView_pin_eq_none_iff (hCons a) hData]
    simp [hVisits]
  · rw [if_neg hVisits]
    simp only [hVisits, and_false]
    cases (s.view a).pin <;> simp

/- The bins of a call that evicts a whole batch. -/
theorem visits_all_iff (hHere : (s.view a).chunks id (cfg.po a) = some ()) :
    s.visits cfg id (maxPO + 1) a ↔
      ∃ radius, s.postageRadiusIndex.get id = some radius ∧ radius ≤ cfg.po a := by
  have hPO : cfg.po a ≤ maxPO := proximity_le _ _
  unfold Store.visits Store.oldRadius
  cases hGet : s.postageRadiusIndex.get id with
  | none =>
    simp only [Option.getD_none, reduceCtorEq, false_and, exists_false, iff_false]
    omega
  | some radius =>
    simp only [Option.getD_some, hHere, true_and, Option.some.injEq, exists_eq_left']
    omega

theorem chunkOf_afterUnreserve (hCons : s.Consistent cfg) (a : Address) :
    (s.afterUnreserve id radius).ChunkOf id a ↔ s.ChunkOf id a := by
  have hChunks : ((s.afterUnreserve id radius).view a).chunks = (s.view a).chunks := by
    rw [view_afterUnreserve hCons]
    split
    · exact unpinView_chunks s a
    · rfl
  exact exists_congr fun po =>
    iff_of_eq (congrArg (· = some ()) (congrFun (congrFun hChunks id) po))

/- Nothing of an evictable batch is left pinned. -/
theorem pins_afterUnreserve_iff (hCons : s.Consistent cfg) :
    (∀ a, (s.afterUnreserve id (maxPO + 1)).ChunkOf id a →
        (s.afterUnreserve id (maxPO + 1)).pinIndex.get a = none) ↔ s.Evictable cfg id := by
  constructor
  · intro hGone a n hChunk hPin
    have hHere := (chunkOf_iff hCons id).mp hChunk
    have hNone := hGone a ((chunkOf_afterUnreserve hCons a).mpr hChunk)
    have hVisited := (pin_afterUnreserve_eq_none_iff hCons hChunk).mp hNone n hPin
    exact ⟨hVisited.1, (visits_all_iff hHere).mp hVisited.2⟩
  · intro hEvictable a hAfter
    have hChunk := (chunkOf_afterUnreserve hCons a).mp hAfter
    have hHere := (chunkOf_iff hCons id).mp hChunk
    apply (pin_afterUnreserve_eq_none_iff hCons hChunk).mpr
    intro n hPin
    have hOnce := hEvictable a n hChunk hPin
    exact ⟨hOnce.1, (visits_all_iff hHere).mpr hOnce.2⟩

/- The count returned for an evictable batch is right. -/
theorem unreserved_of_evictable (hCons : s.Consistent cfg) (hEvictable : s.Evictable cfg id) :
    s.unreserved id (maxPO + 1) = s.evicted (s.afterUnreserve id (maxPO + 1)) id := by
  unfold Store.unreserved Store.evicted
  rw [unpinnedInBins_eq hCons]
  apply List.countP_congr
  rintro ⟨⟨batchID, po, a⟩, u⟩ hMem
  have hHere : (s.view a).chunks batchID po = some () := (Index.mem_entries_iff _ _ _).mp hMem
  rcases (hCons a).chunks _ _ hHere with ⟨-, -, -, rfl⟩
  simp only [Bool.and_eq_true, decide_eq_true_eq, Bool.not_eq_true']
  -- a pinned chunk of the batch lies in a bin of the call
  have hPinned :
      batchID = id → s.pinIndex.has a = true → s.visits cfg id (maxPO + 1) a ∧
        (s.afterUnreserve id (maxPO + 1)).pinIndex.has a =
          false := by
    rintro rfl hHas
    have hChunk := (chunkOf_iff hCons batchID).mpr hHere
    rcases (Index.has_eq_true_iff _ _).mp hHas with ⟨n, hPin⟩
    have hOnce := hEvictable a n hChunk hPin
    have hNone : (s.afterUnreserve batchID (maxPO + 1)).pinIndex.get a =
          none :=
      (pins_afterUnreserve_iff hCons).mpr hEvictable a
        ((chunkOf_afterUnreserve hCons a).mpr hChunk)
    exact ⟨(visits_all_iff hHere).mpr hOnce.2, by simp [Index.has, hNone]⟩
  constructor
  · rintro ⟨⟨hBatch, -⟩, hHas⟩
    exact ⟨⟨hBatch, hHas⟩, (hPinned hBatch hHas).2⟩
  · rintro ⟨⟨hBatch, hHas⟩, -⟩
    have hVisits := (hPinned hBatch hHas).1
    have hLow := hVisits.2.1
    have hHigh := hVisits.2.2
    exact ⟨⟨hBatch, hLow, by omega⟩, hHas⟩

end

---- Runs

/-
  A call for all bins leaves no chunk of the batch pinned and returns the number of chunks unpinned
  exactly when the batch was evictable.
-/
theorem unreserveBatch_evicts_iff {cfg : Config} {db : DB}
    (hReach : Reachable cfg (fun _ _ => True) db) (id : BatchID) (clock : Clock) :
    let call := (unreserveBatch id (maxPO + 1)).run clock db
    ((∀ a, call.state.store.ChunkOf id a → call.state.store.pinIndex.get a = none) ∧
      call.value = db.store.evicted call.state.store id) ↔
    db.store.Evictable cfg id := by
  have hCons := hReach.consistent
  rw [run_unreserveBatch id (maxPO + 1) clock db hCons]
  constructor
  · rintro ⟨hPins, -⟩
    exact (pins_afterUnreserve_iff hCons).mp hPins
  · intro hEvictable
    exact ⟨(pins_afterUnreserve_iff hCons).mpr hEvictable, unreserved_of_evictable hCons hEvictable⟩

/- A run that stores a chunk after its batch was unreserved. -/
def unreservedStoredRun : DB :=
  (DB.empty.after smallConfig (fun _ => 1)
    (.unreserveBatch 7 0)).after smallConfig (fun _ => 1) (.put .sync [smallChunk 1 0 1])

theorem reachable_unreservedStoredRun :
    Reachable smallConfig (fun _ _ => True) unreservedStoredRun :=
  (Reachable.after .start _ _ trivial (by decide)).after _ _ trivial (by decide)

theorem unreserveBatch_evicts_unreservedStoredRun :
    unreservedStoredRun.store.pinIndex.get 1 = some 1 ∧
      let call := (unreserveBatch 7 (maxPO + 1)).run (fun _ => 2) unreservedStoredRun
      (∀ a, call.state.store.ChunkOf 7 a → call.state.store.pinIndex.get a = none) ∧
      call.value = unreservedStoredRun.store.evicted call.state.store 7 := by
  have hEntries : unreservedStoredRun.store.pinIndex.entries = [(1, 1)] := by decide
  have hRadius : unreservedStoredRun.store.postageRadiusIndex.get 7 = some 0 := by decide
  refine ⟨by decide, (unreserveBatch_evicts_iff reachable_unreservedStoredRun 7 fun _ => 2).mpr ?_⟩
  intro a n hChunk hPin
  have hMem := (Index.mem_entries_iff _ _ _).mpr hPin
  rw [hEntries] at hMem
  simp only [List.mem_singleton, Prod.mk.injEq] at hMem
  exact ⟨by omega, 0, hRadius, Nat.zero_le _⟩

/- Operations by which users pin chunks. -/
def Op.pinsForUser : Op → Bool
| .put .uploadPin _ => true
| .put .requestPin _ => true
| .set .pin _ => true
| _ => false

/- A run that stores a chunk in the reserve. -/
def reservedRun : DB :=
  DB.empty.after smallConfig (fun _ => 1) (.put .sync [smallChunk 1 0 1])

/- A batch that was never unreserved is not evicted at all. -/
theorem unreserveBatch_leaves_pins :
    ¬ ∀ (cfg : Config) (db : DB) (id : BatchID) (clock : Clock),
      Reachable cfg (fun op _ => op.pinsForUser = false) db →
      let call := (unreserveBatch id (maxPO + 1)).run clock db
      (∀ a, call.state.store.ChunkOf id a → call.state.store.pinIndex.get a = none) ∧
      call.value = db.store.evicted call.state.store id := by
  intro hAll
  have hReserved : Reachable smallConfig (fun op _ => op.pinsForUser = false) reservedRun :=
    Reachable.after .start _ _ rfl (by decide)
  have hPins :=
    (hAll smallConfig reservedRun 7 (fun _ => 2) hReserved).1 1 ⟨smallConfig.po 1, by decide⟩
  cases hPins

end Sana.Localstore

---- Prefixes Of A Call

namespace Sana.Localstore

open KeyValue Program Swarm

variable {cfg : Config} {s : Store} {id : BatchID}

theorem silent_setUnpin (batch : Batch) (addr : Address) : (setUnpin batch addr).Silent := by
  refine Call.Silent.bind (Call.silent_get _) fun pinned => ?_
  cases pinned with
  | none => exact Call.silent_pure _
  | some i =>
    dsimp only
    split
    · exact Call.silent_pure _
    refine Call.Silent.bind (Call.silent_get _) fun data => ?_
    cases data with
    | none => exact Call.silent_pure _
    | some i =>
      refine Call.Silent.bind (Call.silent_get _) fun pushed => ?_
      split
      · exact Call.silent_pure _
      refine Call.Silent.bind (Call.silent_get _) fun access => ?_
      cases access with
      | none => exact Call.Silent.bind Call.silent_clockReading fun _ => Call.silent_pure _
      | some i => exact Call.silent_pure _

theorem silent_unpinAll (addrs : List Address) (st : UnpinState) : (unpinAll addrs st).Silent := by
  induction addrs generalizing st with
  | nil => exact Call.silent_pure _
  | cons addr addrs ih =>
    refine Call.Silent.bind (silent_setUnpin _ _) fun result => ?_
    rcases result with ⟨batch, e | c⟩
    · exact ih _
    · exact ih _

theorem silent_incGCSizeInBatch (batch : Batch) (change : Int) :
    (incGCSizeInBatch batch change).Silent := by
  unfold incGCSizeInBatch
  split
  · exact Call.silent_pure _
  refine Call.Silent.bind (Call.silent_get _) fun gcSize => ?_
  cases changedSize gcSize change <;> exact Call.silent_pure _

theorem silent_incReserveSizeInBatch (batch : Batch) (change : Int) :
    (incReserveSizeInBatch batch change).Silent := by
  unfold incReserveSizeInBatch
  split
  · exact Call.silent_pure _
  refine Call.Silent.bind (Call.silent_get _) fun size => ?_
  cases changedSize size change <;> exact Call.silent_pure _

section

variable (id : BatchID)

/- One turn of the loop writes once. -/
theorem writes_unreserveBin (bin change : Nat) (clock : Clock) (db : DB) :
    (unreserveBin id bin change).writes clock db = 1 := by
  unfold unreserveBin
  simp only [Call.writes_bind, Call.writes_set, Call.writes_pure, (Call.silent_get _).writes_eq,
    (silent_unpinAll _ _).writes_eq, (silent_incGCSizeInBatch _ _).writes_eq]

theorem writes_unreserveBins (bin count change : Nat) (clock : Clock) (db : DB) :
    (unreserveBins id bin count change).writes clock db =
      count := by
  induction count generalizing bin change clock db with
  | zero => rfl
  | succ count ih =>
    rw [unreserveBins, Call.writes_bind, ih, writes_unreserveBin]
    omega

theorem writes_unreserveFinish (radius change : Nat) (clock : Clock) (db : DB) :
    (unreserveFinish id radius change).writes clock db =
      (if radius ≠ maxPO + 1 then 1 else 0) + if change > 0 then 1 else 0 := by
  unfold unreserveFinish
  by_cases hRadius : radius = maxPO + 1 <;> by_cases hChange : change > 0 <;>
    simp only [hRadius, hChange, ne_eq, not_true_eq_false, not_false_eq_true, if_true, if_false,
      Call.writes_bind, Call.writes_set, Call.writes_pure,
      (silent_incReserveSizeInBatch _ _).writes_eq]

/- The loop interrupted after some bins. -/
theorem stop_unreserveBins (bin count change written : Nat) (clock : Clock) (db : DB)
    (hCons : db.store.Consistent cfg) (hLe : written ≤ count) :
    (unreserveBins id bin count change).stop written clock db =
      { db with
        store := db.store.afterBins id bin written } := by
  induction count generalizing bin change written db with
  | zero =>
    rw [Nat.le_zero.mp hLe]
    rfl
  | succ count ih =>
    cases written with
    | zero =>
      rw [Call.stop_zero]
      rfl
    | succ written =>
      rw [unreserveBins, Call.stop_bind, writes_unreserveBin,
        run_unreserveBin id bin change clock db hCons]
      exact ih _ _ _ { db with store := db.store.afterBin id bin }
        (consistent_afterBin hCons id bin) (Nat.le_of_succ_le_succ hLe)

/- The end of a call interrupted after one write. -/
theorem stop_unreserveFinish_one (radius change : Nat) (clock : Clock) (db : DB)
    (hRadius : radius ≠ maxPO + 1) : (unreserveFinish id radius change).stop 1 clock db =
      { db with
        store :=
          db.store.write (.postageRadius id (some radius)) } := by
  unfold unreserveFinish
  simp only [hRadius, ne_eq, not_false_eq_true, if_true]
  rw [Call.stop_bind, Call.writes_set, Call.stop_zero]
  rfl

/- A call interrupted after some of its writes. -/
theorem stop_unreserveBatch (radius written : Nat) (clock : Clock) (db : DB)
    (hCons : db.store.Consistent cfg) :
    let old := db.store.oldRadius id radius
    (unreserveBatch id radius).stop written clock db = if written ≤ radius - old then
        { db with store := db.store.afterBins id old written }
      else if radius ≠ maxPO + 1 ∧ written = radius - old + 1 then
        { db with
          store :=
            (db.store.afterBins id old (radius - old)).write (.postageRadius id (some radius)) }
      else
        ((unreserveBatch id radius).run clock db).state := by
  intro old
  have hRead : unreserveBatch id radius = (Call.get fun db =>
          db.store.getPostageRadius { batchID := id }) >>= fun stored =>
              let oldRadius := stored.elim radius Item.radius
              unreserveBins id oldRadius (radius - oldRadius) 0 >>= fun change =>
                  unreserveFinish id radius change >>= fun _ => pure change := by
    refine congrArg (Call.bind (Call.get _)) (funext fun stored => ?_)
    cases stored with
    | none | some i => rfl
  have hOld : (db.store.getPostageRadius { batchID := id }).elim radius Item.radius = old := by
    simp only [old, Store.oldRadius, Store.getPostageRadius]
    cases db.store.postageRadiusIndex.get id with
    | none => rfl
    | some r => simp
  have hRun := run_unreserveBins id old (radius - old) 0 clock db hCons
  by_cases hLe : written ≤ radius - old
  · rw [if_pos hLe, hRead, Call.stop_bind, (Call.silent_get _).writes_eq, if_neg (by omega),
      Call.run_get, Nat.sub_zero]
    simp only [hOld]
    rw [Call.stop_bind, writes_unreserveBins]
    by_cases hLt : written < radius - old
    · rw [if_pos hLt, stop_unreserveBins id old _ 0 written clock db hCons hLe]
    · have hAll : written = radius - old := by omega
      rw [if_neg hLt, hAll, Nat.sub_self, Call.stop_zero, hRun]
  rw [if_neg hLe]
  by_cases hRadius : radius ≠ maxPO + 1 ∧ written = radius - old + 1
  · rw [if_pos hRadius, hRead, Call.stop_bind, (Call.silent_get _).writes_eq, if_neg (by omega),
      Call.run_get, Nat.sub_zero]
    simp only [hOld]
    rw [Call.stop_bind, writes_unreserveBins, if_neg (by omega), hRun, hRadius.2,
      Nat.add_sub_cancel_left, Call.stop_bind]
    split
    · rw [stop_unreserveFinish_one id radius _ clock _ hRadius.1]
    · next hWrites =>
        -- nothing but the radius is written at the end
        rw [writes_unreserveFinish] at hWrites ⊢
        rw [if_pos hRadius.1] at hWrites ⊢
        have hNone : ¬ db.store.unpinnedInBins id old (radius - old) + 0 > 0 := by
          intro hPos
          rw [if_pos hPos] at hWrites
          omega
        rw [if_neg hNone, Call.stop_zero, run_unreserveFinish]
        simp only [Store.finishRecords, hRadius.1, hNone,
          ne_eq, not_false_eq_true, if_true, if_false, List.append_nil, Store.writeBatch_cons,
          Store.writeBatch_nil]
  · rw [if_neg hRadius]
    apply Call.stop_of_le
    rw [hRead, Call.writes_bind, (Call.silent_get _).writes_eq, Call.run_get]
    simp only [hOld]
    rw [Call.writes_bind, writes_unreserveBins, Call.writes_bind, writes_unreserveFinish,
      Call.writes_pure]
    by_cases hMax : radius ≠ maxPO + 1
    · rw [if_pos hMax]
      split <;> omega
    · rw [if_neg hMax]
      split <;> omega

end

---- Bins In Closed Form

/- Records of neither radiuses nor the size of the reserve. -/
def Write.sparesReserve : Write → Bool
| .postageRadius _ _ => false
| .reserveSize _ => false
| _ => true

theorem writeBatch_of_sparesReserve (hAll : batch.all Write.sparesReserve = true) (s : Store) :
    (s.writeBatch batch).postageRadiusIndex = s.postageRadiusIndex ∧
      (s.writeBatch batch).reserveSize = s.reserveSize := by
  refine Prod.mk.inj (writeBatch_keeps (fun s => (s.postageRadiusIndex, s.reserveSize))
    (fun record hMem s => ?_) s)
  have hRecord := List.all_eq_true.mp hAll record hMem
  cases record with
  | postageRadius key value | reserveSize value => cases hRecord
  | _ => rfl

theorem sparesReserve_of_unpins (record : Write) (hUnpins : record.unpins = true) :
    record.sparesReserve = true := by
  cases record with
  | postageRadius key value | reserveSize value => cases hUnpins
  | _ => rfl

theorem sparesReserve_gcSize :
    (sizeRecords .gcSize size change).all Write.sparesReserve = true := by
  unfold sizeRecords
  split
  · rfl
  · cases changedSize size change <;> rfl

/- The radius that one turn of the loop leaves behind. -/
def binRadius (bin : Nat) : Option Nat :=
  if bin = maxPO then none else some bin

section

variable (s : Store) (id : BatchID) (bin : Nat)

theorem afterBin_spares :
    (s.afterBin id bin).reserveSize = s.reserveSize ∧
      ∀ other, (s.afterBin id bin).postageRadiusIndex.get other = if id = other then binRadius bin
          else s.postageRadiusIndex.get other := by
  have hUnpin :
      ((s.unpinBin id bin).batch ++
        sizeRecords .gcSize s.gcSize
          (s.unpinBin id bin).gcSizeChange).all Write.sparesReserve = true := by
    rw [List.all_append, sparesReserve_gcSize]
    unfold Store.unpinBin
    rw [all_mono sparesReserve_of_unpins (unpins_planUnpinAll _)]
    rfl
  have hSpared := writeBatch_of_sparesReserve hUnpin s
  unfold Store.afterBin Store.binRecords binRadius
  by_cases hBin : bin = maxPO <;>
    simp only [hBin, if_true, if_false, List.append_nil,
      Store.writeBatch_append, Store.writeBatch_cons, Store.writeBatch_nil] at hSpared ⊢ <;>
    refine ⟨hSpared.2, fun other => ?_⟩ <;> simp only [Store.write, hSpared.1, Index.get_set]
  · split <;> rfl

theorem afterBins_succ (count : Nat) :
    s.afterBins id bin (count + 1) = (s.afterBins id bin count).afterBin id (bin + count) := by
  induction count generalizing s bin with
  | zero => rfl
  | succ count ih =>
    rw [Store.afterBins, ih]
    congr 1
    omega

theorem afterBins_add (first second : Nat) :
    s.afterBins id bin (first + second) =
      (s.afterBins id bin first).afterBins id (bin + first) second := by
  induction first generalizing s bin with
  | zero => simp [Store.afterBins]
  | succ first ih =>
    rw [Nat.succ_add, Store.afterBins, ih, Store.afterBins, Nat.add_right_comm, Nat.add_assoc]

theorem unpinnedInBins_add (first second : Nat) :
    s.unpinnedInBins id bin (first + second) =
      s.unpinnedInBins id bin first +
        (s.afterBins id bin first).unpinnedInBins id (bin + first) second := by
  induction first generalizing s bin with
  | zero => simp [Store.afterBins, Store.unpinnedInBins]
  | succ first ih =>
    rw [Nat.succ_add, Store.unpinnedInBins, ih, Store.unpinnedInBins, Store.afterBins,
      Nat.add_right_comm bin 1 first, Nat.add_assoc bin, Nat.add_assoc]

theorem afterBins_reserveSize (count : Nat) :
    (s.afterBins id bin count).reserveSize = s.reserveSize := by
  induction count generalizing s bin with
  | zero => rfl
  | succ count ih =>
    rw [Store.afterBins, ih]
    exact (afterBin_spares s id bin).1

theorem afterBins_radius (count : Nat) (other : BatchID) :
    (s.afterBins id bin (count + 1)).postageRadiusIndex.get other =
      if id = other then binRadius (bin + count)
      else s.postageRadiusIndex.get other := by
  induction count with
  | zero => exact (afterBin_spares s id bin).2 other
  | succ count ih =>
    rw [afterBins_succ, (afterBin_spares _ id (bin + (count + 1))).2 other]
    split
    · rfl
    · next hNe => rw [ih, if_neg hNe]

end

/- A bin without pinned chunks only records the radius. -/
theorem afterBin_of_not_pinned
    (hPins : ∀ a ∈ s.chunksInBin id bin, s.pinIndex.get a = none) : s.afterBin id bin =
        { s with postageRadiusIndex := (s.afterBin id bin).postageRadiusIndex } ∧
      (s.unpinBin id bin).reserveSizeChange = 0 := by
  have hPlan : ∀ a ∈ s.chunksInBin id bin,
      planUnpin s a 0 = { records := [], change := .error .notFound } := by
    intro a hMem
    rw [planUnpin, hPins a hMem]
  have hUnpin : s.unpinBin id bin = {} := by
    rw [Store.unpinBin, planUnpinAll_eq, List.flatMap_eq_nil_iff.mpr, List.countP_eq_zero.mpr,
      List.map_congr_left (g := fun _ => 0)]
    · simp
    all_goals
      intro a hMem
      simp [hPlan a hMem, Except.toOption]
  refine ⟨?_, by rw [hUnpin]⟩
  unfold Store.afterBin Store.binRecords
  rw [hUnpin]
  split <;> rfl

/- If the radius is recorded already, nothing changes. -/
theorem afterBin_eq_self (hPins : ∀ a ∈ s.chunksInBin id bin, s.pinIndex.get a = none)
    (hRadius : s.postageRadiusIndex.get id = binRadius bin) : s.afterBin id bin = s := by
  have hIndex : (s.afterBin id bin).postageRadiusIndex = s.postageRadiusIndex := by
    ext other : 1
    rw [(afterBin_spares s id bin).2 other]
    split
    · next hEq => rw [← hEq, hRadius]
    · rfl
  rw [(afterBin_of_not_pinned hPins).1, hIndex]

/- Beyond the last bin there are no chunks. -/
theorem afterBins_beyond (hCons : s.Consistent cfg) (hBin : maxPO < bin) :
    ∃ index,
      s.afterBins id bin count = { s with postageRadiusIndex := index } ∧
        (∀ other, id ≠ other → index.get other = s.postageRadiusIndex.get other) ∧
        s.unpinnedInBins id bin count = 0 := by
  induction count generalizing s bin with
  | zero => exact ⟨s.postageRadiusIndex, rfl, fun _ _ => rfl, rfl⟩
  | succ count ih =>
    have hPins : ∀ a ∈ s.chunksInBin id bin, s.pinIndex.get a = none := by
      intro a hMem
      rcases (hCons a).chunks id bin ((mem_chunksInBin_iff s id bin a).mp hMem) with ⟨-, -, -, hPO⟩
      have hLe : cfg.po a ≤ maxPO := proximity_le _ _
      omega
    have hHere := afterBin_of_not_pinned hPins
    have hSpares := afterBin_spares s id bin
    rcases ih (consistent_afterBin hCons id bin) (Nat.lt_succ_of_lt hBin) with
      ⟨index, hStore, hOther, hNone⟩
    refine ⟨index, ?_, ?_, ?_⟩
    · rw [Store.afterBins, hStore, hHere.1]
    · intro other hNe
      rw [hOther other hNe, hSpares.2 other, if_neg hNe]
    · rw [Store.unpinnedInBins, hHere.2, hNone]

---- Calling Again

/- The size of the reserve after unreserving chunks. -/
def lowered (size change : Nat) : Nat :=
  if change ≤ size then size - change else size

/- The database at the end of a call. -/
def Store.finished (s : Store) (id : BatchID) (radius change : Nat) : Store :=
  { s with
    reserveSize := lowered s.reserveSize change
    postageRadiusIndex :=
      if radius ≠ maxPO + 1 then s.postageRadiusIndex.set id (some radius)
      else s.postageRadiusIndex }

/- What a resumed call has to agree on with a whole one. -/
structure SameReserve (s s' : Store) : Prop where
  pins : s.pinIndex = s'.pinIndex
  gcIndex : s.gcIndex = s'.gcIndex
  gcSize : s.gcSize = s'.gcSize
  reserveSize : s.reserveSize = s'.reserveSize
  radius : s.postageRadiusIndex = s'.postageRadiusIndex

/-
  The size of the reserve does not show that some chunks were not counted: there are none, or
  lowering the size is given up because it would fall below zero.
-/
def Store.KeepsReserve (s : Store) (passed left : Nat) : Prop :=
  passed = 0 ∨ s.reserveSize < left ∨ left = 0 ∧ s.reserveSize < passed

/-
  A call can be interrupted after `written` writes: before the first one, after the last one, or
  else when the size of the reserve does not show it and no chunk of the bin to be visited again is
  pinned more than once.
-/
def Store.Resumes (s : Store) (id : BatchID) (radius written : Nat) : Prop :=
  let old := s.oldRadius id radius
  if written ≤ radius - old then
    written = 0 ∨
      ((old + written - 1 ≠ maxPO →
        ∀ a ∈ s.chunksInBin id (old + written - 1), ∀ n, s.pinIndex.get a = some n → n ≤ 1) ∧
      s.KeepsReserve (s.pinnedInBins id old (old + written))
        (s.pinnedInBins id (old + written) radius))
  else if radius ≠ maxPO + 1 ∧ written = radius - old + 1 then
    s.KeepsReserve (s.pinnedInBins id old radius) 0
  else True

/- Lowering a counter, in closed form. -/
theorem sizeRecords_neg (record : Nat → Write) {size change : Nat} (hChange : 0 < change) :
    sizeRecords record size (-(change : Int)) = if change ≤ size then [record (size - change)]
      else [] := by
  have hZero : ¬ -(change : Int) = 0 := by omega
  have hNeg : ¬ (0 : Int) < -(change : Int) := by omega
  have hNat : (- -(change : Int)).toNat = change := by omega
  unfold sizeRecords changedSize
  rw [if_neg hZero, if_neg hNeg, hNat]
  by_cases hLe : change ≤ size
  · simp only [gt_iff_lt, Nat.not_lt.mpr hLe, if_false, hLe, if_true]
  · simp only [gt_iff_lt, Nat.lt_of_not_le hLe, if_true, hLe, if_false]

theorem writeBatch_lowered {s w : Store} (hSame : w.reserveSize = s.reserveSize) (change : Nat) :
    w.writeBatch (if change > 0 then
          sizeRecords .reserveSize s.reserveSize (-(change : Int))
        else []) =
      { w with
        reserveSize := lowered s.reserveSize change } := by
  unfold lowered
  by_cases hChange : change > 0
  · rw [if_pos hChange, sizeRecords_neg _ hChange]
    split
    · rfl
    · rw [← hSame]
      rfl
  · rw [if_neg hChange, if_pos (by omega), ← hSame,
      show w.reserveSize - change = w.reserveSize by omega]
    rfl

theorem writeBatch_finishRecords :
    s.writeBatch (s.finishRecords id radius change) = s.finished id radius change := by
  unfold Store.finishRecords Store.finished
  by_cases hRadius : radius = maxPO + 1
  · simp only [hRadius, ne_eq, not_true_eq_false, if_false]
    exact writeBatch_lowered rfl change
  · simp only [hRadius, ne_eq, not_false_eq_true, if_true]
    exact writeBatch_lowered (w := s.writeBatch [.postageRadius id (some radius)]) rfl change

theorem afterUnreserve_eq (s : Store) (id : BatchID) (radius : Nat) :
    s.afterUnreserve id radius =
      (s.afterBins id (s.oldRadius id radius)
        (radius - s.oldRadius id radius)).finished id radius (s.unreserved id radius) :=
  writeBatch_finishRecords

theorem SameReserve.symm (hSame : SameReserve s s') : SameReserve s' s :=
  ⟨hSame.pins.symm, hSame.gcIndex.symm, hSame.gcSize.symm,
    hSame.reserveSize.symm, hSame.radius.symm⟩

/- Databases that differ in the radius of the batch only. -/
theorem sameReserve_finished_iff
    (hOther : ∀ other, id ≠ other → index.get other = s.postageRadiusIndex.get other)
    (hMax : radius = maxPO + 1 → index = s.postageRadiusIndex) (change change' : Nat) :
    SameReserve (Store.finished { s with postageRadiusIndex := index } id radius change)
        (s.finished id radius change') ↔
      lowered s.reserveSize change = lowered s.reserveSize change' := by
  constructor
  · exact SameReserve.reserveSize
  · intro hSize
    refine ⟨rfl, rfl, rfl, hSize, ?_⟩
    simp only [Store.finished]
    by_cases hRadius : radius = maxPO + 1
    · simp only [hRadius, ne_eq, not_true_eq_false, if_false]
      exact hMax hRadius
    · simp only [hRadius, ne_eq, not_false_eq_true, if_true]
      ext other : 1
      simp only [Index.get_set]
      split
      · rfl
      · next hNe => exact hOther other hNe

theorem keepsReserve_iff :
    lowered s.reserveSize left = lowered s.reserveSize (passed + left) ↔
      s.KeepsReserve passed left := by
  unfold lowered Store.KeepsReserve
  split <;> split <;> omega

/- The pins that an unpin leaves. -/
theorem unpinView_pin_of_lt (hCons : (s.view a).Consistent po)
    (hData : (s.view a).data ≠ none) (hPin : (s.view a).pin = some n) :
    (s.unpinView a).pin ≠ some n ∧ (1 < n → (s.unpinView a).pin = some (n - 1)) := by
  rcases unpinView_cases hCons hData with ⟨hNone, -⟩ | ⟨c, -, hUnpinned⟩
  · rw [hPin] at hNone
    cases hNone
  · generalize s.unpinView a = w at hUnpinned
    rcases hUnpinned with
      ⟨k, hSome, hMany⟩ | ⟨k, hSome, hLast⟩ | ⟨k, d, time, hSome, hLast, -, -, -⟩ <;>
      rw [hPin] at hSome <;> cases hSome
    · refine ⟨?_, fun _ => rfl⟩
      simp only [ne_eq, Option.some.injEq]
      omega
    · exact ⟨by simp, by omega⟩
    · exact ⟨by simp, by omega⟩

/- The counts of a call in bins that are split in two. -/
theorem unreserved_split (hCons : s.Consistent cfg)
    (hLe : written ≤ radius - s.oldRadius id radius) :
    let old := s.oldRadius id radius
    s.unreserved id radius =
        s.pinnedInBins id old (old + written) + s.pinnedInBins id (old + written) radius ∧
      (s.afterBins id old written).unpinnedInBins id (old + written) (radius - (old + written)) =
        s.pinnedInBins id (old + written) radius := by
  intro old
  by_cases hOrder : old ≤ radius
  · have hCount : radius - old = written + (radius - (old + written)) := by omega
    have hWhole := unpinnedInBins_eq hCons id old (radius - old)
    have hFirst := unpinnedInBins_eq hCons id old written
    have hSum := unpinnedInBins_add s id old written (radius - (old + written))
    rw [← hCount] at hSum
    rw [show old + (radius - old) = radius by omega,
      pinnedInBins_split s id (show old ≤ old + written by omega)
        (show old + written ≤ radius by omega)] at hWhole
    exact ⟨hWhole, by omega⟩
  · have hZero : written = 0 := by omega
    have hNone : ∀ low, radius ≤ low → s.pinnedInBins id low radius = 0 := by
      intro low hLow
      unfold Store.pinnedInBins
      rw [List.countP_eq_zero]
      simp only [Bool.and_eq_true, decide_eq_true_eq]
      omega
    subst hZero
    have hSame : s.pinnedInBins id old (old + 0) = 0 := by
      unfold Store.pinnedInBins
      rw [List.countP_eq_zero]
      simp only [Bool.and_eq_true, decide_eq_true_eq]
      omega
    unfold Store.unreserved
    rw [hSame, hNone _ (by omega), show radius - s.oldRadius id radius = 0 by omega,
      show radius - (old + 0) = 0 by omega]
    exact ⟨rfl, rfl⟩

---- The Cases Of An Interruption

/- The bin at which the second call starts. -/
theorem oldRadius_afterBins :
    (s.afterBins id old (written + 1)).oldRadius id radius =
      (binRadius (old + written)).getD radius := by
  unfold Store.oldRadius
  rw [afterBins_radius, if_pos rfl]

/- A call that starts at its own radius visits no bins. -/
theorem afterUnreserve_of_radius_le (hStart : radius ≤ s.oldRadius id radius) :
    s.afterUnreserve id radius = s.finished id radius 0 := by
  have hZero : radius - s.oldRadius id radius = 0 := by omega
  rw [afterUnreserve_eq]
  unfold Store.unreserved
  rw [hZero]
  rfl

/- A call whose first bin holds no pinned chunk any more. -/
theorem afterUnreserve_again (hStart : s.oldRadius id radius = bin)
    (hLt : bin < radius) (hBin : s.afterBin id bin = s)
    (hNothing : (s.unpinBin id bin).reserveSizeChange = 0) :
    s.afterUnreserve id radius =
      (s.afterBins id (bin + 1) (radius - (bin + 1))).finished id radius
        (s.unpinnedInBins id (bin + 1) (radius - (bin + 1))) := by
  have hCount : radius - bin = radius - (bin + 1) + 1 := by omega
  rw [afterUnreserve_eq]
  unfold Store.unreserved
  rw [hStart, hCount]
  simp only [Store.afterBins, Store.unpinnedInBins]
  rw [hBin, hNothing, Nat.zero_add]

section

variable (hCons : s.Consistent cfg)
include hCons

/- The whole call, seen from an interruption. -/
theorem afterUnreserve_split (hLe : written ≤ radius - s.oldRadius id radius) :
    let old := s.oldRadius id radius
    s.afterUnreserve id radius =
      ((s.afterBins id old written).afterBins id
        (old + written) (radius - (old + written))).finished id radius
          (s.pinnedInBins id old (old + written) + s.pinnedInBins id (old + written) radius) := by
  intro old
  have hSplit := unreserved_split hCons hLe
  have hCount : radius - old = written + (radius - (old + written)) := by omega
  rw [← hSplit.1, ← afterBins_add, ← hCount]
  exact afterUnreserve_eq s id radius

/- The interruption follows the last bin of all. -/
theorem resumes_after_maxPO (hLe : written + 1 ≤ radius - s.oldRadius id radius)
    (hBin : s.oldRadius id radius + written = maxPO) :
    let old := s.oldRadius id radius
    SameReserve ((s.afterBins id old (written + 1)).afterUnreserve id radius)
        (s.afterUnreserve id radius) ↔
      s.KeepsReserve (s.pinnedInBins id old (old + (written + 1)))
        (s.pinnedInBins id (old + (written + 1)) radius) := by
  intro old
  have hConsM := consistent_afterBins hCons id old (written + 1)
  have hStart : (s.afterBins id old (written + 1)).oldRadius id radius =
        radius := by
    rw [oldRadius_afterBins, hBin]
    rfl
  have hPast : maxPO < old + (written + 1) := by omega
  have hBeyond :
      ∃ index,
        (s.afterBins id old (written + 1)).afterBins id (old + (written + 1))
            (radius - (old + (written + 1))) =
          { s.afterBins id old (written + 1) with
            postageRadiusIndex := index } ∧ _ :=
    afterBins_beyond hConsM hPast
  rcases hBeyond with ⟨index, hStore, hOther, hNone⟩
  have hLeft := (unreserved_split hCons hLe).2
  rw [hNone] at hLeft
  have hMax :
      radius = maxPO + 1 → index = (s.afterBins id old (written + 1)).postageRadiusIndex := by
    intro hRadius
    have hZero : radius - (old + (written + 1)) = 0 := by omega
    rw [hZero] at hStore
    exact (congrArg Store.postageRadiusIndex hStore).symm
  have hWhole := afterUnreserve_split hCons hLe
  dsimp only at hWhole
  rw [hStore] at hWhole
  rw [hWhole, ← hLeft, afterUnreserve_of_radius_le hStart.ge]
  have hIff := sameReserve_finished_iff hOther hMax
    (s.pinnedInBins id old (old + (written + 1)) + 0) 0
  rw [← keepsReserve_iff, ← afterBins_reserveSize s id old (written + 1)]
  constructor
  · exact fun hSame => (hIff.mp hSame.symm).symm
  · exact fun hSize => (hIff.mpr hSize.symm).symm

/- The chunks of a bin that was passed. -/
theorem pin_afterBins (hMem : a ∈ s.chunksInBin id (old + written)) :
    (s.view a).data ≠ none ∧ (s.afterBins id old (written + 1)).view a = s.unpinView a := by
  have hHere := (mem_chunksInBin_iff s id _ a).mp hMem
  rcases (hCons a).chunks id _ hHere with ⟨d, hData, -, hPO⟩
  refine ⟨by rw [hData]; simp, ?_⟩
  rw [view_afterBins hCons, if_pos]
  exact ⟨hPO ▸ hHere, by omega, by omega⟩

theorem chunksInBin_afterBins (old written bin : Nat) (a : Address) :
    a ∈ (s.afterBins id old written).chunksInBin id bin ↔ a ∈ s.chunksInBin id bin := by
  have hChunks : ((s.afterBins id old written).view a).chunks = (s.view a).chunks := by
    rw [view_afterBins hCons]
    split
    · exact unpinView_chunks s a
    · rfl
  rw [mem_chunksInBin_iff, mem_chunksInBin_iff, hChunks]

/- No chunk of the bin visited again is pinned twice. -/
theorem resumes_of_once (hLe : written + 1 ≤ radius - s.oldRadius id radius)
    (hBin : s.oldRadius id radius + written ≠ maxPO)
    (hOnce :
      ∀ a ∈ s.chunksInBin id (s.oldRadius id radius + written),
        ∀ n, s.pinIndex.get a = some n → n ≤ 1) :
    let old := s.oldRadius id radius
    SameReserve ((s.afterBins id old (written + 1)).afterUnreserve id radius)
        (s.afterUnreserve id radius) ↔
      s.KeepsReserve (s.pinnedInBins id old (old + (written + 1)))
        (s.pinnedInBins id (old + (written + 1)) radius) := by
  intro old
  have hPins :
      ∀ a ∈ (s.afterBins id old (written + 1)).chunksInBin id (old + written),
        (s.afterBins id old (written + 1)).pinIndex.get a =
          none := by
    intro a hMem
    have hMem' := (chunksInBin_afterBins hCons old (written + 1) _ a).mp hMem
    have hView := pin_afterBins hCons hMem'
    have hNone := (unpinView_pin_eq_none_iff (hCons a) hView.1).mpr (hOnce a hMem')
    rw [← hView.2] at hNone
    exact hNone
  have hRadius :
      (s.afterBins id old (written + 1)).postageRadiusIndex.get id = binRadius (old + written) := by
    rw [afterBins_radius, if_pos rfl]
  have hStart : (s.afterBins id old (written + 1)).oldRadius id radius = old + written := by
    rw [oldRadius_afterBins, binRadius, if_neg hBin]
    rfl
  have hAgain := afterBin_eq_self hPins hRadius
  have hNothing := (afterBin_of_not_pinned hPins).2
  have hSplit := (unreserved_split hCons hLe).2
  have hWhole := afterUnreserve_split hCons hLe
  have hResumed := afterUnreserve_again hStart (by omega) hAgain hNothing
  rw [Nat.add_assoc old written 1, hSplit] at hResumed
  rw [hWhole, hResumed, ← keepsReserve_iff, ← afterBins_reserveSize s id old (written + 1),
    ← afterBins_reserveSize (s.afterBins id old (written + 1)) id (old + (written + 1))
      (radius - (old + (written + 1)))]
  exact sameReserve_finished_iff (fun _ _ => rfl) (fun _ => rfl) _ _

/- A chunk of that bin with more pins loses two of them. -/
theorem not_resumes_of_twice (hLe : written + 1 ≤ radius - s.oldRadius id radius)
    (hBin : s.oldRadius id radius + written ≠ maxPO)
    (hMem : a ∈ s.chunksInBin id (s.oldRadius id radius + written))
    (hPin : s.pinIndex.get a = some n) (hMany : 1 < n) :
    ¬ SameReserve ((s.afterBins id (s.oldRadius id radius) (written + 1)).afterUnreserve id radius)
        (s.afterUnreserve id radius) := by
  intro hSame
  have hConsM := consistent_afterBins hCons id (s.oldRadius id radius) (written + 1)
  have hHere := (mem_chunksInBin_iff s id _ a).mp hMem
  rcases (hCons a).chunks id _ hHere with ⟨d, -, -, hPO⟩
  have hView := pin_afterBins hCons hMem
  have hFirst := (unpinView_pin_of_lt (hCons a) hView.1 hPin).2 hMany
  have hHereM :=
    (mem_chunksInBin_iff _ id _ a).mp
      ((chunksInBin_afterBins hCons (s.oldRadius id radius) (written + 1) _ a).mpr hMem)
  have hVisits : s.visits cfg id radius a := ⟨hPO ▸ hHere, by omega, by omega⟩
  have hVisitsM :
      (s.afterBins id (s.oldRadius id radius) (written + 1)).visits cfg id radius a := by
    refine ⟨hPO ▸ hHereM, ?_, by omega⟩
    rw [oldRadius_afterBins, binRadius, if_neg hBin]
    exact hPO.le
  have hData : ((s.afterBins id (s.oldRadius id radius) (written + 1)).view a).data ≠ none := by
    rcases (hConsM a).chunks id _ hHereM with ⟨d, hSome, -⟩
    rw [hSome]
    simp
  have hWhole := view_afterUnreserve hCons id radius a
  have hAgain := view_afterUnreserve hConsM id radius a
  rw [if_pos hVisits] at hWhole
  rw [if_pos hVisitsM] at hAgain
  have hNot := (unpinView_pin_of_lt (hConsM a) hData (hView.2 ▸ hFirst)).1
  apply hNot
  rw [← hAgain, ← hFirst, ← hWhole]
  exact congrArg (fun index => Index.get index a) hSame.pins

/- The interruption follows the radius. -/
theorem resumes_after_radius (hRadius : radius ≠ maxPO + 1) :
    let old := s.oldRadius id radius
    SameReserve
        (((s.afterBins id old (radius - old)).write
          (.postageRadius id (some radius))).afterUnreserve id radius)
        (s.afterUnreserve id radius) ↔ s.KeepsReserve (s.pinnedInBins id old radius) 0 := by
  intro old
  have hStart :
      ((s.afterBins id old (radius - old)).write
        (.postageRadius id (some radius))).oldRadius id radius = radius := by
    simp [Store.oldRadius, Store.write, Index.get_set]
  have hCount : s.unreserved id radius = s.pinnedInBins id old radius := by
    have hSplit := (unreserved_split hCons (Nat.zero_le (radius - s.oldRadius id radius))).1
    have hNone : s.pinnedInBins id old (old + 0) = 0 := by
      unfold Store.pinnedInBins
      rw [List.countP_eq_zero]
      simp only [Bool.and_eq_true, decide_eq_true_eq]
      omega
    rw [hSplit, hNone, Nat.zero_add]
    rfl
  rw [afterUnreserve_of_radius_le hStart.ge, afterUnreserve_eq s, hCount, ← keepsReserve_iff,
    ← afterBins_reserveSize s id old (radius - old)]
  refine sameReserve_finished_iff (fun other hNe => ?_) (fun hMax => absurd hMax hRadius) 0
    (s.pinnedInBins id old radius)
  rw [Index.get_set, if_neg hNe]

end

/- A call after a whole one changes nothing. -/
theorem resumes_after_all :
    SameReserve ((s.afterUnreserve id radius).afterUnreserve id radius)
      (s.afterUnreserve id radius) := by
  have hStart : radius ≤ (s.afterUnreserve id radius).oldRadius id radius := by
    rw [afterUnreserve_eq]
    unfold Store.finished Store.oldRadius
    by_cases hRadius : radius = maxPO + 1
    · simp only [hRadius, ne_eq, not_true_eq_false, if_false]
      cases hCount : maxPO + 1 - (s.postageRadiusIndex.get id).getD (maxPO + 1) with
      | zero =>
        simp only [Store.afterBins]
        omega
      | succ count =>
        have hLast : (s.postageRadiusIndex.get id).getD (maxPO + 1) + count = maxPO := by omega
        rw [afterBins_radius, hLast]
        simp [binRadius]
    · simp [hRadius, Index.get_set]
  rw [afterUnreserve_of_radius_le hStart]
  generalize hWhole : s.afterUnreserve id radius = whole
  refine ⟨rfl, rfl, rfl, by simp [Store.finished, lowered], ?_⟩
  unfold Store.finished
  by_cases hRadius : radius = maxPO + 1
  · simp [hRadius]
  · simp only [hRadius, ne_eq, not_false_eq_true, if_true]
    ext other : 1
    rw [Index.get_set]
    split
    · next hEq =>
        rw [← hWhole, afterUnreserve_eq]
        simp [Store.finished, hRadius, Index.get_set, hEq]
    · rfl

---- Runs

/-
  An interrupted call that is made again ends where one uninterrupted call ends exactly when it
  resumes.
-/
theorem unreserveBatch_resumes_iff {cfg : Config} {db : DB}
    (hReach : Reachable cfg (fun _ _ => True) db) (id : BatchID) (radius written : Nat)
    (clock clock' clock'' : Clock) :
    let call := unreserveBatch id radius
    let interrupted := call.stop written clock db
    SameReserve (call.run clock' interrupted).state.store (call.run clock'' db).state.store ↔
      db.store.Resumes id radius written := by
  intro call interrupted
  have hCons := hReach.consistent
  have hStop := stop_unreserveBatch id radius written clock db hCons
  have hWhole := run_unreserveBatch id radius clock'' db hCons
  simp only [interrupted, call]
  rw [hStop, hWhole]
  unfold Store.Resumes
  by_cases hLe : written ≤ radius - db.store.oldRadius id radius
  · rw [if_pos hLe, if_pos hLe,
      run_unreserveBatch id radius clock' _ (consistent_afterBins hCons id _ written)]
    cases written with
    | zero =>
      simp only [Store.afterBins, true_or, iff_true]
      exact ⟨rfl, rfl, rfl, rfl, rfl⟩
    | succ written =>
      simp only [Nat.add_one_ne_zero, false_or, Nat.add_sub_cancel, ← Nat.add_assoc]
      by_cases hBin : db.store.oldRadius id radius + written = maxPO
      · have hIff := resumes_after_maxPO hCons hLe hBin
        simpa [← Nat.add_assoc, hBin] using hIff
      by_cases hOnce :
          ∀ a ∈ db.store.chunksInBin id (db.store.oldRadius id radius + written),
            ∀ n, db.store.pinIndex.get a = some n → n ≤ 1
      · have hIff := resumes_of_once hCons hLe hBin hOnce
        simp only [hBin, ne_eq, not_false_eq_true, true_implies]
        rw [and_iff_right hOnce]
        simpa [← Nat.add_assoc] using hIff
      · refine iff_of_false ?_ (fun hAll => hOnce (hAll.1 hBin))
        simp only [not_forall, not_le] at hOnce
        rcases hOnce with ⟨a, hMem, n, hPin, hMany⟩
        exact not_resumes_of_twice hCons hLe hBin hMem hPin hMany
  rw [if_neg hLe, if_neg hLe]
  by_cases hRadius : radius ≠ maxPO + 1 ∧ written = radius - db.store.oldRadius id radius + 1
  · rw [if_pos hRadius, if_pos hRadius]
    have hConsR :
        ((db.store.afterBins id (db.store.oldRadius id radius)
          (radius - db.store.oldRadius id radius)).write
            (.postageRadius id (some radius))).Consistent
              cfg := consistent_afterBins hCons id _ _
    rw [run_unreserveBatch id radius clock' _ hConsR]
    exact resumes_after_radius hCons hRadius.1
  · rw [if_neg hRadius, if_neg hRadius, run_unreserveBatch id radius clock db hCons]
    have hConsW : (db.store.afterUnreserve id radius).Consistent cfg :=
      (StoreStep.unreserveBatch id radius).consistent hCons
    rw [run_unreserveBatch id radius clock' _ hConsW]
    simp only [iff_true]
    exact resumes_after_all

/- The first bin holds no chunk, and is merely passed again. -/
theorem unreserveBatch_resumes_unreservedStoredRun :
    let call := unreserveBatch 7 (maxPO + 1)
    let interrupted := call.stop 1 (fun _ => 2) unreservedStoredRun
    SameReserve (call.run (fun _ => 3) interrupted).state.store
      (call.run (fun _ => 2) unreservedStoredRun).state.store := by
  refine (unreserveBatch_resumes_iff reachable_unreservedStoredRun 7 (maxPO + 1) 1
    (fun _ => 2) (fun _ => 3) (fun _ => 2)).mpr ?_
  unfold Store.Resumes
  refine (if_pos (by decide)).mpr (.inr ⟨?_, .inl ?_⟩)
  · intro _ a hMem
    exact absurd hMem (List.not_mem_nil)
  · decide

/- A chunk unpinned before the interruption stays counted. -/
theorem unreserveBatch_loses_reserveSize :
    ¬ ∀ (cfg : Config) (db : DB) (id : BatchID) (radius written : Nat) (clock clock' : Clock),
      Reachable cfg (fun _ _ => True) db →
      let call := unreserveBatch id radius
      let interrupted := call.stop written clock db
      SameReserve (call.run clock' interrupted).state.store (call.run clock db).state.store := by
  intro hAll
  have hSame := hAll smallConfig unreservedStoredRun 7
    (maxPO + 1) (maxPO + 1) (fun _ => 2) (fun _ => 3) reachable_unreservedStoredRun
  have hResumed :
      ((unreserveBatch 7 (maxPO + 1)).run (fun _ => 3)
        ((unreserveBatch 7 (maxPO + 1)).stop (maxPO + 1) (fun _ => 2)
          unreservedStoredRun)).state.store.reserveSize = 1 := by decide
  have hWhole :
      ((unreserveBatch 7 (maxPO + 1)).run (fun _ => 2)
        unreservedStoredRun).state.store.reserveSize = 0 := by
    decide
  have hSize := hSame.reserveSize
  rw [hWhole] at hSize
  cases hSize

end Sana.Localstore
