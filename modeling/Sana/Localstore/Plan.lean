import Sana.Localstore.Store

/-
  What each helper adds to a batch, in closed form.

  A plan lists the records a helper adds, the change it returns, and the number of clock readings it
  uses.  Plans are functions of the database that the helper reads.

  Key definitions include:
    * `Plan`
    * `planRemove`

  Key theorems include:
    * `run_preserveOrCache`
-/

---- Plans Of The Set Helpers

namespace Sana.Localstore

open KeyValue Program Swarm

structure Plan where
  records : Batch
  change : Except Err Int
  readings : Nat := 0

/- The records that a change of a counter adds. -/
def sizeRecords (record : Nat → Write) (size : Nat) (change : Int) : Batch :=
  if change = 0 then []
  else
    match changedSize size change with
    | none => []
    | some newSize => [record newSize]

/- The access timestamp `setRemove` works with. -/
def Store.accessOf (s : Store) (a : Address) : Nat :=
  (s.retrievalAccessIndex.get a).getD 0

/- The key under which `setRemove` looks for a gc entry. -/
def Store.gcKeyOf (s : Store) (a : Address) (d : RetrievalData) : GCKey :=
  ⟨s.accessOf a, d.binID, a⟩

def planRemove (cfg : Config) (s : Store) (a : Address) : Plan :=
  match s.retrievalDataIndex.get a with
  | none => { records := [], change := .error .notFound }
  | some d =>
    let common : Batch :=
      [.retrievalData a none, .retrievalAccess a none, .pull ⟨cfg.po a, d.binID⟩ none,
        .postageChunks ⟨d.stamp.batchID, cfg.po a, a⟩ none]
    if s.gcIndex.has (s.gcKeyOf a d) then
      { records := common ++ [.gc (s.gcKeyOf a d) none]
        change := .ok (-1) }
    else
      { records := common ++ [.pin a none]
        change := .ok 0 }

def planPin (s : Store) (a : Address) : Plan :=
  match s.pinIndex.get a with
  | some n =>
    { records := [.pin a (some (n + 1))]
      change := .ok 0 }
  | none =>
    match s.retrievalAccessIndex.get a with
    | none => { records := [.pin a (some 1)], change := .ok 0 }
    | some t =>
      match s.retrievalDataIndex.get a with
      | none => { records := [], change := .error .notFound }
      | some d =>
        { records :=
            [.gc ⟨t, d.binID, a⟩ none, .pin a (some 1)]
          change := .ok (-1) }

def planUnpin (s : Store) (a : Address) (now : Nat) : Plan :=
  match s.pinIndex.get a with
  | none => { records := [], change := .error .notFound }
  | some n =>
    if n > 1 then
      { records := [.pin a (some (n - 1))]
        change := .ok 0 }
    else
      match s.retrievalDataIndex.get a with
      | none =>
        { records := [.pin a none]
          change := .error .notFound }
      | some d =>
        if s.pushIndex.has ⟨d.storeTimestamp, a⟩ then { records := [.pin a none], change := .ok 0 }
        else
          match s.retrievalAccessIndex.get a with
          | none =>
            { records :=
                [.pin a none, .retrievalAccess a (some now),
                  .gc ⟨now, d.binID, a⟩ (some ⟨d.stamp.batchID, 0⟩)]
              change := .ok 1
              readings := 1 }
          | some t =>
            { records :=
                [.pin a none, .gc ⟨t, d.binID, a⟩ (some ⟨d.stamp.batchID, 0⟩)]
              change := .ok 1 }

---- The Helpers Follow Their Plans

@[simp] theorem Item.mergeField_zero : Item.mergeField x 0 = x := by
  unfold Item.mergeField
  split
  · next hZero => exact hZero.symm
  · rfl

@[simp] theorem Item.mergeField_self : Item.mergeField x x = x := by
  simp [Item.mergeField]

@[simp] theorem run_incGCSizeInBatch :
    (incGCSizeInBatch batch change).run clock db =
      ⟨batch ++ sizeRecords .gcSize db.store.gcSize change, clock, db⟩ := by
  unfold incGCSizeInBatch sizeRecords
  by_cases hZero : change = 0
  · simp [hZero]
  · cases hSize : changedSize db.store.gcSize change <;> simp [hZero, hSize]

@[simp] theorem run_incReserveSizeInBatch :
    (incReserveSizeInBatch batch change).run clock db =
      ⟨batch ++ sizeRecords .reserveSize db.store.reserveSize change, clock, db⟩ := by
  unfold incReserveSizeInBatch sizeRecords
  by_cases hZero : change = 0
  · simp [hZero]
  · cases hSize : changedSize db.store.reserveSize change <;> simp [hZero, hSize]

theorem run_setRemove (cfg : Config) (batch : Batch) (item : Item)
    (hAccess : item.accessTimestamp = 0) (hStore : item.storeTimestamp = 0) (hBin : item.binID = 0)
    (clock : Clock) (db : DB) :
    (setRemove cfg batch item true).run clock db =
      ⟨(batch ++ (planRemove cfg db.store item.address).records,
        (planRemove cfg db.store item.address).change), clock, db⟩ := by
  unfold setRemove planRemove
  cases hData : db.store.retrievalDataIndex.get item.address with
  | none =>
    cases hTime : db.store.retrievalAccessIndex.get item.address <;>
      simp [hAccess, hStore, hTime, hData, Store.getRetrievalAccess, Store.getRetrievalData]
  | some d =>
    cases hTime : db.store.retrievalAccessIndex.get item.address <;>
      cases hGC : db.store.gcIndex.has (db.store.gcKeyOf item.address d) <;>
      simp only [Store.gcKeyOf, Store.accessOf, hTime, Option.getD] at hGC <;>
      simp [hAccess, hStore, hBin, hTime, hData, hGC, Store.getRetrievalAccess,
        Store.getRetrievalData, Store.gcKeyOf, Store.accessOf, Item.gcKey, Item.deleteRetrievalData,
        Item.deleteRetrievalAccess, Item.deletePull, Item.deletePostageChunks, Item.deletePin,
        Item.deleteGC, Item.pullKey, Item.postageChunksKey]

/-
  An item fits a database when the timestamps and the bin ID it already carries are those stored for
  its address.
-/
structure Item.Fits (item : Item) (s : Store) : Prop where
  pinCounter : item.pinCounter = 0
  access :
    ∀ d, s.retrievalDataIndex.get item.address = some d →
      ∀ t, s.retrievalAccessIndex.get item.address = some t →
        item.accessTimestamp = 0 ∨ item.accessTimestamp = t
  binID :
    ∀ d, s.retrievalDataIndex.get item.address = some d → item.binID = 0 ∨ item.binID = d.binID

theorem Item.mergeField_of_fits (hFits : carried = 0 ∨ carried = stored) :
    Item.mergeField stored carried = stored := by
  rcases hFits with rfl | rfl <;> simp

theorem run_setPin (batch : Batch) (item : Item) (clock : Clock) (db : DB)
    (hFits : item.Fits db.store) :
    (setPin batch item).run clock db =
      ⟨(batch ++ (planPin db.store item.address).records, (planPin db.store item.address).change),
        clock, db⟩ := by
  unfold setPin planPin
  cases hPin : db.store.pinIndex.get item.address with
  | some n => simp [hPin, hFits.pinCounter, Store.getPin, Item.putPin]
  | none =>
    cases hTime : db.store.retrievalAccessIndex.get item.address with
    | none => simp [hPin, hTime, Store.getPin, Store.getRetrievalAccess, Item.putPin]
    | some t =>
      cases hData : db.store.retrievalDataIndex.get item.address with
      | none =>
        simp [hPin, hTime, hData, Store.getPin, Store.getRetrievalAccess, Store.getRetrievalData]
      | some d =>
        have hMergeTime := Item.mergeField_of_fits (hFits.access d hData t hTime)
        have hMergeBin := Item.mergeField_of_fits (hFits.binID d hData)
        simp [hPin, hTime, hData, hMergeTime, hMergeBin, Store.getPin, Store.getRetrievalAccess,
          Store.getRetrievalData, Item.deleteGC, Item.gcKey, Item.putPin]

theorem run_setUnpin :
    (setUnpin batch addr).run clock db =
      ⟨(batch ++ (planUnpin db.store addr (clock 0)).records,
        (planUnpin db.store addr (clock 0)).change),
        clock.drop (planUnpin db.store addr (clock 0)).readings, db⟩ := by
  unfold setUnpin planUnpin
  cases hPin : db.store.pinIndex.get addr with
  | none => simp [hPin, Store.getPin, addressToItem]
  | some n =>
    by_cases hMany : n > 1
    · simp [hPin, hMany, Store.getPin, addressToItem, Item.putPin]
    cases hData : db.store.retrievalDataIndex.get addr with
    | none =>
      simp [hPin, hMany, hData, Store.getPin, Store.getRetrievalData, addressToItem, Item.deletePin]
    | some d =>
      cases hPush : db.store.pushIndex.get ⟨d.storeTimestamp, addr⟩ with
      | some tag =>
        simp [hPin, hMany, hData, hPush, Store.getPin, Store.getRetrievalData, Store.getPush,
          addressToItem, Item.deletePin, Item.pushKey, Index.has]
      | none =>
        cases hTime : db.store.retrievalAccessIndex.get addr <;>
          simp [hPin, hMany, hData, hPush, hTime, Store.getPin, Store.getRetrievalData,
            Store.getPush, Store.getRetrievalAccess, addressToItem, Item.deletePin,
            Item.pushKey, Item.putGC, Item.gcKey, Item.putRetrievalAccess, Index.has]

---- Plans Of The Reserve And Of Receipts

def planPreserve (cfg : Config) (s : Store) (item : Item) (forcePin forceCache : Bool) : Plan :=
  if !forceCache && (withinRadius cfg item || forcePin) then
    { records :=
        (if !forcePin then sizeRecords .reserveSize s.reserveSize 1
        else []) ++ (planPin s item.address).records
      change := (planPin s item.address).change }
  else if s.pinIndex.has item.address then { records := [], change := .ok 0 }
  else if s.gcIndex.has item.gcKey then { records := [], change := .ok 0 }
  else { records := [item.putGC], change := .ok 1 }

theorem run_preserveOrCache (cfg : Config) (batch : Batch) (item : Item)
    (forcePin forceCache : Bool) (clock : Clock) (db : DB) (hFits : item.Fits db.store) :
    (preserveOrCache cfg batch item forcePin forceCache).run clock db =
      ⟨(batch ++ (planPreserve cfg db.store item forcePin forceCache).records,
        (planPreserve cfg db.store item forcePin forceCache).change), clock, db⟩ := by
  unfold preserveOrCache planPreserve
  by_cases hKeep : (!forceCache && (withinRadius cfg item || forcePin)) = true
  · simp only [if_pos hKeep]
    cases forcePin <;> simp [run_setPin _ item _ _ hFits]
  · cases hPin : db.store.pinIndex.has item.address <;>
      cases hGC : db.store.gcIndex.has item.gcKey <;> simp [hKeep, hPin, hGC]

/- The outcome of incrementing the tag of a synced chunk. -/
def syncTag (cfg : Config) (s : Store) (a : Address) (d : RetrievalData) : Except Err Unit :=
  match s.pushIndex.get ⟨d.storeTimestamp, a⟩, cfg.tagInc with
  | some tag, some inc => if tag ≠ 0 then inc tag else .ok ()
  | _, _ => .ok ()

theorem incTag_getPush (cfg : Config) (s : Store) (item : Item) (d : RetrievalData)
    (hTag : item.tag = 0) (hTime : item.storeTimestamp = d.storeTimestamp) :
    incTag cfg (s.getPush item) = syncTag cfg s item.address d := by
  unfold incTag syncTag
  cases hPush : s.pushIndex.get ⟨d.storeTimestamp, item.address⟩ <;> cases cfg.tagInc <;>
    simp [hPush, hTag, hTime, Store.getPush, Item.pushKey]

/-
  A receipt always pins the chunk for the reserve: the radius of an item made from an address is
  zero.
-/
def planSync (cfg : Config) (s : Store) (a : Address) (now : Nat) : Plan :=
  match s.retrievalDataIndex.get a with
  | none => { records := [.push ⟨0, a⟩ none], change := .ok 0 }
  | some d =>
    match syncTag cfg s a d with
    | .error e => { records := [], change := .error e }
    | .ok () =>
      let pushed : Batch := [.push ⟨d.storeTimestamp, a⟩ none]
      let kept : Batch := .reserveSize (s.reserveSize + 1) :: (planPin s a).records
      match s.retrievalAccessIndex.get a with
      | none =>
        { records :=
            pushed ++ .retrievalAccess a (some now) :: kept
          change := (planPin s a).change
          readings := 1 }
      | some _ =>
        { records := pushed ++ kept
          change := (planPin s a).change }

@[simp] theorem sizeRecords_one (record : Nat → Write) :
    sizeRecords record size 1 = [record (size + 1)] := by
  simp [sizeRecords, changedSize]

@[simp] theorem planPreserve_of_radius_eq_zero
    (hRadius : item.radius = 0) : planPreserve cfg s item false false =
      { records :=
          .reserveSize (s.reserveSize + 1) :: (planPin s item.address).records
        change := (planPin s item.address).change } := by
  simp [planPreserve, withinRadius, hRadius]

theorem run_setSync :
    (setSync cfg batch addr).run clock db =
      ⟨(batch ++ (planSync cfg db.store addr (clock 0)).records,
        (planSync cfg db.store addr (clock 0)).change),
        clock.drop (planSync cfg db.store addr (clock 0)).readings, db⟩ := by
  unfold setSync planSync
  cases hData : db.store.retrievalDataIndex.get addr with
  | none => simp [hData, Store.getRetrievalData, addressToItem, Item.deletePush, Item.pushKey]
  | some d =>
    have hTag := incTag_getPush cfg db.store
      { address := addr
        storeTimestamp := d.storeTimestamp
        binID := d.binID
        batchID := d.stamp.batchID
        index := d.stamp.index
        timestamp := d.stamp.timestamp } d rfl rfl
    simp only [Store.getRetrievalData, addressToItem, hData, Option.map_some, Item.mergeField_zero,
      Call.run_bind, Call.run_get, hTag]
    cases syncTag cfg db.store addr d with
    | error e => simp
    | ok _ =>
      cases hTime : db.store.retrievalAccessIndex.get addr with
      | none =>
        simp only [Store.getRetrievalAccess, hTime, Option.map_none, Call.run_bind,
          Call.run_get, Call.run_clockReading]
        rw [run_preserveOrCache]
        · simp [Item.deletePush, Item.pushKey, Item.putRetrievalAccess]
        · constructor
          · rfl
          · intro _ _ t hSome
            rw [hTime] at hSome
            cases hSome
          · intro d' hData'
            rw [hData] at hData'
            cases hData'
            exact Or.inr rfl
      | some t =>
        simp only [Store.getRetrievalAccess, hTime, Option.map_some, Call.run_bind,
          Call.run_get, Item.mergeField_zero]
        rw [run_preserveOrCache]
        · simp [Item.deletePush, Item.pushKey]
        · constructor
          · rfl
          · intro _ _ t' hSome
            rw [hTime] at hSome
            cases hSome
            exact Or.inr rfl
          · intro d' hData'
            rw [hData] at hData'
            cases hData'
            exact Or.inr rfl

---- Whole Set Calls

/- The plan of one mode for one address. -/
def planSet (cfg : Config) (mode : ModeSet) (s : Store) (a : Address) (now : Nat) : Plan :=
  match mode with
  | .sync => planSync cfg s a now
  | .remove => planRemove cfg s a
  | .pin => planPin s a
  | .unpin => planUnpin s a now
  | .unknown => { records := [], change := .error .invalidMode }

theorem planRemove_readings : (planRemove cfg s a).readings = 0 := by
  unfold planRemove
  cases s.retrievalDataIndex.get a with
  | none => rfl
  | some d =>
    dsimp only
    split <;> rfl

theorem planPin_readings : (planPin s a).readings = 0 := by
  unfold planPin
  cases s.pinIndex.get a <;> cases s.retrievalAccessIndex.get a <;>
    cases s.retrievalDataIndex.get a <;> rfl

theorem fits_addressToItem : (addressToItem a).Fits s :=
  ⟨rfl, fun _ _ _ _ => Or.inl rfl, fun _ _ => Or.inl rfl⟩

theorem run_setOne :
    (setOne cfg mode batch addr).run clock db =
      ⟨(batch ++ (planSet cfg mode db.store addr (clock 0)).records,
        (planSet cfg mode db.store addr (clock 0)).change),
        clock.drop (planSet cfg mode db.store addr (clock 0)).readings, db⟩ := by
  cases mode with
  | sync => exact run_setSync
  | remove =>
    simp only [setOne, planSet]
    rw [run_setRemove cfg batch (addressToItem addr) rfl rfl rfl clock db, planRemove_readings]
    rfl
  | pin =>
    simp only [setOne, planSet]
    rw [run_setPin batch (addressToItem addr) clock db fits_addressToItem,
      planPin_readings]
    rfl
  | unpin => exact run_setUnpin
  | unknown => simp [setOne, planSet]

/- The plan of the loop over the addresses of one call. -/
def planSetAll (cfg : Config) (mode : ModeSet) (s : Store) : List Address → Clock → Plan
| [], _ => { records := [], change := .ok 0 }
| a :: addrs, clock =>
  let first := planSet cfg mode s a (clock 0)
  match first.change with
  | .error e => { first with change := .error e }
  | .ok c =>
    let rest := planSetAll cfg mode s addrs (clock.drop first.readings)
    { records := first.records ++ rest.records
      change := rest.change.map (c + ·)
      readings := first.readings + rest.readings }

theorem run_setAll :
    (setAll cfg mode addrs batch gcSizeChange).run clock db =
      ⟨(planSetAll cfg mode db.store addrs clock).change.map (fun c =>
              (batch ++ (planSetAll cfg mode db.store addrs clock).records, gcSizeChange + c)),
        clock.drop (planSetAll cfg mode db.store addrs clock).readings,
        db⟩ := by
  induction addrs generalizing batch gcSizeChange clock with
  | nil => simp [setAll, planSetAll, Except.map]
  | cons a addrs ih =>
    simp only [setAll, planSetAll, Call.run_bind, run_setOne]
    cases hChange : (planSet cfg mode db.store a (clock 0)).change with
    | error e => simp [Except.map]
    | ok c =>
      simp only [ih]
      cases (planSetAll cfg mode db.store addrs
          (clock.drop (planSet cfg mode db.store a (clock 0)).readings)).change <;>
        simp [Except.map, Nat.add_comm, Int.add_assoc]

/-
  The database after a set call: unchanged when the call fails, else with the planned records and
  the sum of their changes of the gc size.
-/
def Store.afterSet (cfg : Config) (mode : ModeSet) (s : Store) (addrs : List Address)
    (clock : Clock) : Store :=
  match (planSetAll cfg mode s addrs clock).change with
  | .error _ => s
  | .ok c =>
    s.writeBatch ((planSetAll cfg mode s addrs clock).records ++ sizeRecords .gcSize s.gcSize c)

@[simp] theorem DB.markDirty_store (addrs : List Address) (db : DB) :
    (db.markDirty addrs).store = db.store := by
  unfold markDirty
  split <;> rfl

theorem run_set (cfg : Config) (mode : ModeSet) (addrs : List Address) (hMode : mode ≠ .unknown)
    (clock : Clock) (db : DB) :
    (set cfg mode addrs).run clock db =
      ⟨(planSetAll cfg mode db.store addrs clock).change.map (fun _ => ()),
        clock.drop (planSetAll cfg mode db.store addrs clock).readings,
        { db.markDirty addrs with
          store :=
            db.store.afterSet cfg mode addrs clock }⟩ := by
  unfold set Store.afterSet
  simp only [Call.run_bind, Call.run_acquire, Call.run_set,
    if_neg hMode, run_setAll, DB.markDirty_store]
  cases hChange : (planSetAll cfg mode db.store addrs clock).change with
  | error e =>
    simp only [Except.map, Call.run_bind, Call.run_release, Call.run_pure]
    rw [← DB.markDirty_store addrs db]
  | ok c => simp [Except.map, DB.writeBatch]

---- The Records Of Set Calls

variable {cfg : Config} {s : Store}

theorem all_mono (hImp : ∀ record, p record = true → q record = true)
    {batch : Batch} (hAll : batch.all p = true) : batch.all q = true := by
  rw [List.all_eq_true] at hAll ⊢
  exact fun record hMem => hImp record (hAll record hMem)

/- Records of an unpinned chunk. -/
def Write.unpins : Write → Bool
| .pin _ _ => true
| .retrievalAccess _ _ => true
| .gc _ _ => true
| _ => false

/-
  Records that store nothing and leave the stamp indexes, the radiuses, the bin IDs and the gc size
  alone.
-/
def Write.plain : Write → Bool
| .retrievalData _ none => true
| .retrievalAccess _ _ => true
| .push _ _ => true
| .pull _ none => true
| .gc _ _ => true
| .pin _ _ => true
| .postageChunks _ _ => true
| .reserveSize _ => true
| _ => false

theorem plain_of_unpins (record : Write) (hUnpins : record.unpins = true) :
    record.plain = true := by
  cases record with
  | pin key value | retrievalAccess key value | gc key value => rfl
  | _ => cases hUnpins

theorem unpins_planUnpin : (planUnpin s a now).records.all Write.unpins = true := by
  unfold planUnpin
  cases s.pinIndex.get a with
  | none => rfl
  | some n =>
    dsimp only
    split
    · rfl
    cases s.retrievalDataIndex.get a with
    | none => rfl
    | some d =>
      dsimp only
      split
      · rfl
      · cases s.retrievalAccessIndex.get a <;> rfl

theorem plain_planRemove : (planRemove cfg s a).records.all Write.plain = true := by
  unfold planRemove
  cases s.retrievalDataIndex.get a with
  | none => rfl
  | some d =>
    dsimp only
    split <;> rfl

theorem plain_planPin : (planPin s a).records.all Write.plain = true := by
  unfold planPin
  cases s.pinIndex.get a <;> cases s.retrievalAccessIndex.get a <;>
    cases s.retrievalDataIndex.get a <;> rfl

theorem plain_planSync : (planSync cfg s a now).records.all Write.plain = true := by
  have hPin : (planPin s a).records.all _ = true := plain_planPin
  unfold planSync
  cases s.retrievalDataIndex.get a with
  | none => rfl
  | some d =>
    dsimp only
    cases syncTag cfg s a d with
    | error e => rfl
    | ok _ =>
      cases s.retrievalAccessIndex.get a with
      | none | some time => exact hPin

theorem plain_planSet :
    (planSet cfg mode s a now).records.all Write.plain =
      true := by
  cases mode with
  | sync => exact plain_planSync
  | remove => exact plain_planRemove
  | pin => exact plain_planPin
  | unpin => exact all_mono plain_of_unpins unpins_planUnpin
  | unknown => rfl

/- What the plan of each address keeps holds after a successful call. -/
theorem planSetAll_invariant (Inv : List Address → Batch → Int → Prop)
    (hChange : (planSetAll cfg mode s addrs clock).change = .ok c) (hStart : Inv [] [] 0)
    (hStep : ∀ {done b rest batch c₁ c₂} n, done ++ b :: rest = addrs → Inv done batch c₁ →
      (planSet cfg mode s b (clock n)).change = .ok c₂ →
        Inv (done ++ [b]) (batch ++ (planSet cfg mode s b (clock n)).records) (c₁ + c₂)) :
    Inv addrs (planSetAll cfg mode s addrs clock).records c := by
  suffices hRest : ∀ rest done batch c₁ c n, done ++ rest = addrs → Inv done batch c₁ →
      (planSetAll cfg mode s rest (clock.drop n)).change = .ok c →
        Inv addrs (batch ++ (planSetAll cfg mode s rest (clock.drop n)).records) (c₁ + c) by
    simpa using hRest addrs [] [] 0 c 0 rfl hStart hChange
  intro rest
  induction rest with
  | nil =>
    intro done batch c₁ c n hEq hInv hChange
    cases hChange
    simpa [planSetAll, ← hEq] using hInv
  | cons b rest ih =>
    intro done batch c₁ c n hEq hInv hChange
    simp only [planSetAll, Clock.drop_apply, Nat.zero_add, Clock.drop_drop] at hChange ⊢
    cases hFirst : (planSet cfg mode s b (clock n)).change with
    | error e => simp [hFirst] at hChange
    | ok first =>
      simp only [hFirst] at hChange ⊢
      cases hTail : (planSetAll cfg mode s rest
          (clock.drop ((planSet cfg mode s b (clock n)).readings + n))).change with
      | error e => simp [hTail, Except.map] at hChange
      | ok tail =>
        simp only [hTail, Except.map, Except.ok.injEq] at hChange
        rw [← hChange, ← List.append_assoc, ← Int.add_assoc]
        exact ih _ _ _ _ _ (by simpa using hEq) (hStep n hEq hInv hFirst) hTail

theorem plain_planSetAll : (planSetAll cfg mode s addrs clock).records.all Write.plain = true := by
  induction addrs generalizing clock with
  | nil => rfl
  | cons a addrs ih =>
    have hFirst : (planSet cfg mode s a (clock 0)).records.all Write.plain = true :=
      plain_planSet
    simp only [planSetAll]
    split
    · exact hFirst
    · rw [List.all_append, hFirst, ih]
      rfl

end Sana.Localstore

---- Replacement

namespace Sana.Localstore

open KeyValue Program Swarm

/- The key of a chunk's stamp in `postageIndexIndex`. -/
def Chunk.stampKey (ch : Chunk) : PostageIndexKey :=
  ⟨ch.stamp.batchID, ch.stamp.index⟩

/- The plan of `replacePrevious`. -/
def planReplace (cfg : Config) (s : Store) (ch : Chunk) : Batch × Except Err Previous :=
  match s.postageIndexIndex.get ch.stampKey with
  | none => ([], .ok .absent)
  | some previous =>
    if ch.immutable then ([], .error .overwrite)
    else if ch.stamp.timestamp > previous.timestamp then
      ((planRemove cfg s previous.address).records,
        (planRemove cfg s previous.address).change.map Previous.removed)
    else ([], .ok .kept)

/- The item `postageIndexIndex.Get` returns for a chunk. -/
@[simps] def previousItem (ch : Chunk) (previous : PostageIndexValue) : Item :=
  { chunkToItem ch with
    address := previous.address
    timestamp := previous.timestamp }

theorem getPostageIndex_chunk (s : Store) (ch : Chunk) :
    s.getPostageIndex (chunkToItem ch) =
      (s.postageIndexIndex.get ch.stampKey).map (previousItem ch) := rfl

theorem run_replacePrevious :
    (replacePrevious cfg batch (chunkToItem ch)).run clock db =
      ⟨(batch ++ (planReplace cfg db.store ch).1, (planReplace cfg db.store ch).2), clock, db⟩ := by
  unfold replacePrevious planReplace
  rw [Call.run_bind, Call.run_get, getPostageIndex_chunk]
  cases db.store.postageIndexIndex.get ch.stampKey with
  | none => simp
  | some previous =>
    have hRemove := run_setRemove cfg batch (previousItem ch previous) rfl rfl rfl clock db
    cases hImmutable : ch.immutable with
    | true => simp [hImmutable]
    | false =>
      by_cases hLater : ch.stamp.timestamp > previous.timestamp
      · cases hChange : (planRemove cfg db.store previous.address).change <;>
          simp [hImmutable, later, hLater, hRemove, hChange, Except.map]
      · simp [hImmutable, later, hLater]

/- The plan of `releaseReserve`. -/
def planRelease (cfg : Config) (s : Store) (ch : Chunk) (previous : Previous) : Batch :=
  match previous with
  | .removed _ =>
    match s.postageRadiusIndex.get ch.stamp.batchID with
    | none => []
    | some radius =>
      if cfg.po ch.address ≥ Item.mergeField radius ch.radius then
        sizeRecords .reserveSize s.reserveSize (-1)
      else []
  | _ => []

/- The size of the reserve is changed, or nothing is. -/
theorem planRelease_cases (cfg : Config) (s : Store) (ch : Chunk) (previous : Previous) :
    planRelease cfg s ch previous = [] ∨
      planRelease cfg s ch previous = sizeRecords .reserveSize s.reserveSize (-1) := by
  unfold planRelease
  cases previous with
  | absent | kept => exact Or.inl rfl
  | removed c =>
    cases s.postageRadiusIndex.get ch.stamp.batchID with
    | none => exact Or.inl rfl
    | some radius =>
      dsimp only
      split
      · exact Or.inr rfl
      · exact Or.inl rfl

theorem run_releaseReserve :
    (releaseReserve cfg batch (chunkToItem ch) previous).run clock db =
      ⟨batch ++ planRelease cfg db.store ch previous, clock, db⟩ := by
  unfold releaseReserve planRelease
  cases previous with
  | absent | kept => simp
  | removed c =>
    cases hRadius : db.store.postageRadiusIndex.get ch.stamp.batchID with
    | none => simp [Store.getPostageRadius, chunkToItem, hRadius]
    | some radius =>
      by_cases hWithin : cfg.po ch.address ≥ Item.mergeField radius ch.radius
      · simp [Store.getPostageRadius, chunkToItem, hRadius, hWithin]
      · simp [Store.getPostageRadius, chunkToItem, hRadius, hWithin]

---- Plans Of The Put Functions

structure PutPlan where
  records : Batch
  binIDs : BinIDs
  outcome : Except Err (Bool × Int)
  readings : Nat := 0

/- The bin ID that the next chunk of a bin gets. -/
def nextBinID (s : Store) (binIDs : BinIDs) (po : Nat) : Nat :=
  (binIDs.get po).getD (s.getBinID po) + 1

@[simp] theorem run_incBinID :
    (incBinID binIDs po).run clock db =
      ⟨(binIDs.put po (nextBinID db.store binIDs po),
        nextBinID db.store binIDs po), clock, db⟩ := by
  unfold incBinID nextBinID
  cases binIDs.get po <;> simp

/- The item of a chunk once it is stored. -/
def storedItem (cfg : Config) (s : Store) (binIDs : BinIDs) (ch : Chunk)
    (storeTimestamp accessTimestamp : Nat) : Item :=
  { chunkToItem ch with
    storeTimestamp := storeTimestamp
    binID := nextBinID s binIDs (cfg.po ch.address)
    accessTimestamp := accessTimestamp }

/- The plan of `storeRequest`. -/
def planStoreRequest (cfg : Config) (s : Store) (binIDs : BinIDs) (ch : Chunk)
    (forcePin forceCache : Bool) (previous : Previous) (clock : Clock) : PutPlan :=
  let item := storedItem cfg s binIDs ch (clock 0) (clock 1)
  let keep := planPreserve cfg s item forcePin forceCache
  let records :=
    planRelease cfg s ch previous ++
      [item.putRetrievalData, item.putPostageChunks cfg,
        item.putPostageIndex, item.putRetrievalAccess] ++ keep.records
  let pulled : Batch := match keep.change with
    | .error _ => []
    | .ok _ => if !forceCache then [item.putPull cfg] else []
  { records := records ++ pulled
    binIDs := binIDs.put (cfg.po ch.address) item.binID
    outcome :=
      keep.change.map fun c =>
      (false, previous.gcSizeChange + c)
    readings := 2 }

/- The plan of `storeUpload`. -/
def planStoreUpload (cfg : Config) (s : Store) (binIDs : BinIDs) (ch : Chunk)
    (clock : Clock) : PutPlan :=
  let item := storedItem cfg s binIDs ch (clock 0) 0
  { records :=
      [item.putRetrievalData, item.putPull cfg, item.putPush, item.putPostageIndex,
        item.putPostageChunks cfg]
    binIDs := binIDs.put (cfg.po ch.address) item.binID
    outcome := .ok (false, 0)
    readings := 1 }

/- The plan of `storeSync`. -/
def planStoreSync (cfg : Config) (s : Store) (binIDs : BinIDs) (ch : Chunk) (previous : Previous)
    (clock : Clock) : PutPlan :=
  let item := storedItem cfg s binIDs ch (clock 0) (clock 1)
  let keep := planPreserve cfg s item false false
  { records :=
      planRelease cfg s ch previous ++
        [item.putRetrievalData, item.putPull cfg, item.putPostageChunks cfg, item.putPostageIndex,
          item.putRetrievalAccess] ++ keep.records
    binIDs := binIDs.put (cfg.po ch.address) item.binID
    outcome := keep.change.map fun c => (false, c)
    readings := 2 }

/-
  The common shape of the put functions: chunks that exist and chunks whose stamp is not later are
  left alone.
-/
def planAround (cfg : Config) (s : Store) (binIDs : BinIDs) (ch : Chunk)
    (stored : Previous → PutPlan) : PutPlan :=
  if s.retrievalDataIndex.has ch.address then
    { records := []
      binIDs := binIDs
      outcome := .ok (true, 0) }
  else
    match planReplace cfg s ch with
    | (records, .error e) =>
      { records := records
        binIDs := binIDs
        outcome := .error e }
    | (records, .ok .kept) =>
      { records := records
        binIDs := binIDs
        outcome := .ok (false, 0) }
    | (records, .ok previous) =>
      { stored previous with records := records ++ (stored previous).records }

/- The plan of one mode for one chunk. -/
def planPut (cfg : Config) (mode : ModePut) (s : Store) (binIDs : BinIDs) (ch : Chunk)
    (clock : Clock) : PutPlan :=
  match mode with
  | .request =>
    planAround cfg s binIDs ch fun previous =>
      planStoreRequest cfg s binIDs ch false false previous clock
  | .requestPin =>
    planAround cfg s binIDs ch fun previous =>
      planStoreRequest cfg s binIDs ch true false previous clock
  | .requestCache =>
    planAround cfg s binIDs ch fun previous =>
      planStoreRequest cfg s binIDs ch false true previous clock
  | .upload => planAround cfg s binIDs ch fun _ => planStoreUpload cfg s binIDs ch clock
  | .uploadPin =>
    let upload := planAround cfg s binIDs ch fun _ => planStoreUpload cfg s binIDs ch clock
    match upload.outcome with
    | .error e => { upload with outcome := .error e }
    | .ok (exist, c) =>
      { upload with
        records := upload.records ++ (planPin s ch.address).records
        outcome := (planPin s ch.address).change.map fun c' => (exist, c + c') }
  | .sync => planAround cfg s binIDs ch fun previous => planStoreSync cfg s binIDs ch previous clock
  | .unknown =>
    { records := []
      binIDs := binIDs
      outcome := .error .invalidMode }

---- The Put Functions Follow Their Plans

/- An item of a chunk that is not stored fits trivially. -/
theorem fits_of_get_eq_none {item : Item} (hPin : item.pinCounter = 0)
    (hData : s.retrievalDataIndex.get item.address = none) : item.Fits s where
  pinCounter := hPin
  access := by
    intro d hSome
    rw [hData] at hSome
    cases hSome
  binID := by
    intro d hSome
    rw [hData] at hSome
    cases hSome

/- The state a call that follows a put plan ends in. -/
def PutPlan.outcomeOn (plan : PutPlan) (batch : Batch) (clock : Clock) (db : DB) :
    Outcome DB (Batch × BinIDs × Except Err (Bool × Int)) :=
  ⟨(batch ++ plan.records, plan.binIDs, plan.outcome), clock.drop plan.readings, db⟩

section

variable (cfg : Config) (batch : Batch) (binIDs : BinIDs) (ch : Chunk)

theorem run_storeRequest (forcePin forceCache : Bool) (previous : Previous) (clock : Clock)
    (db : DB) (hData : db.store.retrievalDataIndex.get ch.address = none) :
    (storeRequest cfg batch binIDs (chunkToItem ch) forcePin forceCache previous).run clock db =
      (planStoreRequest cfg db.store binIDs ch
        forcePin forceCache previous clock).outcomeOn batch clock db := by
  have hKeep := fun batch clock' =>
    run_preserveOrCache cfg batch (storedItem cfg db.store binIDs ch (clock 0) (clock 1))
      forcePin forceCache clock' db (fits_of_get_eq_none rfl hData)
  simp only [storeRequest, planStoreRequest, PutPlan.outcomeOn, Call.run_bind, run_releaseReserve,
    Call.run_clockReading, run_incBinID]
  simp only [storedItem, chunkToItem_address, Clock.drop_apply, Nat.zero_add] at hKeep ⊢
  rw [hKeep]
  generalize planPreserve cfg db.store _ forcePin forceCache = keep
  rcases keep with ⟨records, change, readings⟩
  cases change with
  | error e =>
    simp only [Call.run_pure, Except.map, List.append_assoc, List.append_nil]
    rfl
  | ok c =>
    cases forceCache <;>
      simp only [Call.run_pure, Except.map, Bool.not_false,
        Bool.not_true, Bool.false_eq_true, if_true,
        if_false, List.append_assoc, List.append_nil] <;> rfl

theorem run_storeUpload (clock : Clock) (db : DB) :
    (storeUpload cfg batch binIDs (chunkToItem ch)).run clock db =
      (planStoreUpload cfg db.store binIDs ch clock).outcomeOn batch clock db := by
  simp only [storeUpload, planStoreUpload, PutPlan.outcomeOn, Call.run_bind,
    Call.run_clockReading, run_incBinID]
  rfl

theorem run_storeSync (previous : Previous) (clock : Clock) (db : DB)
    (hData : db.store.retrievalDataIndex.get ch.address = none) :
    (storeSync cfg batch binIDs (chunkToItem ch) previous).run clock db =
      (planStoreSync cfg db.store binIDs ch previous clock).outcomeOn batch clock db := by
  have hKeep := fun batch clock' =>
    run_preserveOrCache cfg batch (storedItem cfg db.store binIDs ch (clock 0) (clock 1))
      false false clock' db (fits_of_get_eq_none rfl hData)
  simp only [storeSync, planStoreSync, PutPlan.outcomeOn, Call.run_bind, run_releaseReserve,
    Call.run_clockReading, run_incBinID]
  simp only [storedItem, chunkToItem_address, Clock.drop_apply, Nat.zero_add] at hKeep ⊢
  rw [hKeep]
  generalize planPreserve cfg db.store _ false false = keep
  rcases keep with ⟨records, change, readings⟩
  cases change <;> simp only [Call.run_pure, Except.map, List.append_assoc] <;> rfl

/- The common shape of the put functions: a chunk is stored unless it, or a newer one, is there. -/
def unlessThere (cfg : Config) (batch : Batch) (binIDs : BinIDs) (item : Item)
    (store : Batch → Previous → Call DB (Batch × BinIDs × Except Err (Bool × Int))) :
    Call DB (Batch × BinIDs × Except Err (Bool × Int)) := do
  let exist ← Call.get fun db => db.store.retrievalDataIndex.has item.address
  if exist then return (batch, binIDs, .ok (true, 0))
  match ← replacePrevious cfg batch item with
  | (batch, .error e) => return (batch, binIDs, .error e)
  | (batch, .ok .kept) => return (batch, binIDs, .ok (false, 0))
  | (batch, .ok previous) => store batch previous

theorem run_unlessThere (clock : Clock) (db : DB)
    (hStore :
      db.store.retrievalDataIndex.get ch.address = none → ∀ batch previous,
        (store batch previous).run clock db = (stored previous).outcomeOn batch clock db) :
    (unlessThere cfg batch binIDs (chunkToItem ch) store).run clock db =
      (planAround cfg db.store binIDs ch stored).outcomeOn batch clock db := by
  simp only [unlessThere, planAround, Call.run_bind, Call.run_get, chunkToItem_address]
  by_cases hHas : db.store.retrievalDataIndex.has ch.address = true
  · simp [PutPlan.outcomeOn, hHas]
  have hStored := hStore (by simpa [Index.has] using hHas)
  rcases hReplace : planReplace cfg db.store ch with ⟨records, e | _ | _ | c⟩ <;>
    simp [PutPlan.outcomeOn, run_replacePrevious, hHas, hReplace, hStored]

theorem run_putRequest (forcePin forceCache : Bool) (clock : Clock) (db : DB) :
    (putRequest cfg batch binIDs (chunkToItem ch) forcePin forceCache).run clock db =
      (planAround cfg db.store binIDs ch fun previous =>
        planStoreRequest cfg db.store binIDs ch
          forcePin forceCache previous clock).outcomeOn batch clock db :=
  run_unlessThere cfg batch binIDs ch clock db fun hData batch previous =>
    run_storeRequest cfg batch binIDs ch forcePin forceCache previous clock db hData

theorem run_putUpload (clock : Clock) (db : DB) :
    (putUpload cfg batch binIDs (chunkToItem ch)).run clock db =
      (planAround cfg db.store binIDs ch fun _ =>
        planStoreUpload cfg db.store binIDs ch clock).outcomeOn batch clock db :=
  run_unlessThere cfg batch binIDs ch clock db fun _ batch _ =>
    run_storeUpload cfg batch binIDs ch clock db

theorem run_putSync (clock : Clock) (db : DB) :
    (putSync cfg batch binIDs (chunkToItem ch)).run clock db =
      (planAround cfg db.store binIDs ch fun previous =>
        planStoreSync cfg db.store binIDs ch previous clock).outcomeOn batch clock db :=
  run_unlessThere cfg batch binIDs ch clock db fun hData batch previous =>
    run_storeSync cfg batch binIDs ch previous clock db hData

end

theorem fits_chunkToItem : (chunkToItem ch).Fits s :=
  ⟨rfl, fun _ _ _ _ => Or.inl rfl, fun _ _ => Or.inl rfl⟩

theorem run_putOne :
    (putOne cfg mode batch binIDs ch).run clock db =
      (planPut cfg mode db.store binIDs ch clock).outcomeOn batch clock db := by
  cases mode with
  | request => exact run_putRequest cfg batch binIDs ch false false clock db
  | requestPin => exact run_putRequest cfg batch binIDs ch true false clock db
  | requestCache => exact run_putRequest cfg batch binIDs ch false true clock db
  | upload => exact run_putUpload cfg batch binIDs ch clock db
  | sync => exact run_putSync cfg batch binIDs ch clock db
  | unknown => simp [putOne, planPut, PutPlan.outcomeOn]
  | uploadPin =>
    have hPin := fun batch clock =>
      run_setPin batch (chunkToItem ch) clock db fits_chunkToItem
    simp only [putOne, planPut, Call.run_bind, run_putUpload]
    generalize planAround cfg db.store binIDs ch _ = upload
    rcases upload with ⟨records, ids, outcome, readings⟩
    rcases outcome with e | ⟨exist, c⟩
    · simp [PutPlan.outcomeOn]
    · cases hChange : (planPin db.store ch.address).change <;>
        simp [PutPlan.outcomeOn, hPin, hChange, Except.map]

---- Whole Put Calls

/- What the loop over the chunks of one call adds up to. -/
structure PutAllPlan where
  result : Except Err PutState
  readings : Nat := 0

/- The plan of the loop; `seen` holds the chunks before. -/
def planPutAll (cfg : Config) (mode : ModePut) (s : Store) :
    List Chunk → List Chunk → PutState → Clock → PutAllPlan
| _, [], st, _ => { result := .ok st }
| seen, ch :: chs, st, clock =>
  if containsChunk ch.address seen then
    planPutAll cfg mode s (seen ++ [ch]) chs { st with exist := st.exist ++ [true] } clock
  else
    let plan := planPut cfg mode s st.binIDs ch clock
    match plan.outcome with
    | .error e => { result := .error e, readings := plan.readings }
    | .ok (exist, c) =>
      let rest := planPutAll cfg mode s (seen ++ [ch]) chs
        { batch := st.batch ++ plan.records
          binIDs := plan.binIDs
          exist := st.exist ++ [exist]
          gcSizeChange := st.gcSizeChange + c } (clock.drop plan.readings)
      { rest with readings := plan.readings + rest.readings }

theorem run_putAll :
    (putAll cfg mode seen chs st).run clock db =
      ⟨(planPutAll cfg mode db.store seen chs st clock).result,
        clock.drop (planPutAll cfg mode db.store seen chs st clock).readings, db⟩ := by
  induction chs generalizing seen st clock with
  | nil => simp [putAll, planPutAll]
  | cons ch chs ih =>
    simp only [putAll, planPutAll]
    by_cases hSeen : containsChunk ch.address seen = true
    · simp only [if_pos hSeen, ih]
    · simp only [if_neg hSeen, Call.run_bind, run_putOne, PutPlan.outcomeOn]
      generalize planPut cfg mode db.store st.binIDs ch clock = plan
      rcases plan with ⟨records, ids, outcome, readings⟩
      rcases outcome with e | ⟨exist, c⟩
      · simp
      · simp [ih, Nat.add_comm]

/- The call after one more chunk. -/
def PutState.next (st : PutState) (plan : PutPlan) (exist : Bool) (c : Int) : PutState where
  batch := st.batch ++ plan.records
  binIDs := plan.binIDs
  exist := st.exist ++ [exist]
  gcSizeChange := st.gcSizeChange + c

/- The cases of a call that goes on to one more chunk. -/
theorem planPutAll_cons
    (hResult : (planPutAll cfg mode s seen (ch :: chs) st clock).result = .ok st') :
    (containsChunk ch.address seen = true ∧
      (planPutAll cfg mode s (seen ++ [ch]) chs { st with exist := st.exist ++ [true] }
        clock).result = .ok st') ∨
    (containsChunk ch.address seen = false ∧
      ∃ exist c,
        (planPut cfg mode s st.binIDs ch clock).outcome = .ok (exist, c) ∧
          (planPutAll cfg mode s (seen ++ [ch]) chs
            (st.next (planPut cfg mode s st.binIDs ch clock) exist c)
            (clock.drop (planPut cfg mode s st.binIDs ch clock).readings)).result = .ok st') := by
  simp only [planPutAll] at hResult
  cases hSeen : containsChunk ch.address seen with
  | true =>
    rw [if_pos hSeen] at hResult
    exact Or.inl ⟨rfl, hResult⟩
  | false =>
    rw [if_neg (by simp [hSeen])] at hResult
    cases hOk : (planPut cfg mode s st.binIDs ch clock).outcome with
    | error e => simp [hOk] at hResult
    | ok result =>
      rcases result with ⟨exist, c⟩
      simp only [hOk] at hResult
      exact Or.inr ⟨rfl, exist, c, rfl, hResult⟩

/- What every chunk keeps, a whole call keeps. -/
theorem planPutAll_invariant (Inv : List Chunk → PutState → Prop)
    (hResult : (planPutAll cfg mode s [] chs {} clock).result = .ok st') (hStart : Inv [] {})
    (hSkip : ∀ {seen st ch}, Inv seen st → containsChunk ch.address seen = true →
      Inv (seen ++ [ch]) { st with exist := st.exist ++ [true] })
    (hStep : ∀ {seen st ch clock exist c}, ch ∈ chs → Inv seen st →
      containsChunk ch.address seen = false →
      (planPut cfg mode s st.binIDs ch clock).outcome = .ok (exist, c) →
        Inv (seen ++ [ch]) (st.next (planPut cfg mode s st.binIDs ch clock) exist c)) :
    Inv chs st' := by
  suffices hRest : ∀ rest seen st clock, seen ++ rest = chs → Inv seen st →
      (planPutAll cfg mode s seen rest st clock).result = .ok st' → Inv chs st' from
    hRest chs [] {} clock rfl hStart hResult
  intro rest
  induction rest with
  | nil =>
    intro seen st clock hEq hInv hResult
    cases hResult
    rwa [← hEq, List.append_nil]
  | cons ch rest ih =>
    intro seen st clock hEq hInv hResult
    have hMem : ch ∈ chs := hEq ▸ List.mem_append_right seen List.mem_cons_self
    rw [List.append_cons] at hEq
    rcases planPutAll_cons hResult with ⟨hSeen, hRest⟩ | ⟨hSeen, exist, c, hOk, hRest⟩
    · exact ih _ _ _ hEq (hSkip hInv hSeen) hRest
    · exact ih _ _ _ hEq (hStep hMem hInv hSeen hOk) hRest

/- All records that a successful put call writes. -/
def PutState.allRecords (s : Store) (st : PutState) : Batch :=
  st.batch ++ (st.binIDs.entries.map fun entry =>
      Write.binID entry.1 entry.2) ++
    sizeRecords .gcSize s.gcSize st.gcSizeChange

/- The outcome of the part of a put call under the lock. -/
def planPutLocked (cfg : Config) (mode : ModePut) (s : Store) (chs : List Chunk)
    (clock : Clock) : PutAllPlan :=
  if mode = .unknown then { result := .error .invalidMode }
  else planPutAll cfg mode s [] chs {} clock

/- The database after a put call. -/
def Store.afterPut (s : Store) (plan : PutAllPlan) : Store :=
  match plan.result with
  | .error _ => s
  | .ok st => s.writeBatch (st.allRecords s)

section

variable (cfg : Config) (mode : ModePut) (chs : List Chunk) (clock : Clock) (db : DB)

theorem run_putLocked :
    let plan := planPutLocked cfg mode db.store chs clock
    (putLocked cfg mode chs).run clock db =
      ⟨plan.result.map PutState.exist, clock.drop plan.readings,
        { db.markDirty (chs.map Chunk.address) with
          store := db.store.afterPut plan }⟩ := by
  intro plan
  have hStore := DB.markDirty_store (chs.map Chunk.address) db
  have hFail : db.markDirty (chs.map Chunk.address) =
        { db.markDirty (chs.map Chunk.address) with
          store := db.store } := by
    rw [← hStore]
  unfold plan planPutLocked putLocked Store.afterPut
  simp only [Call.run_bind, Call.run_acquire, Call.run_set]
  by_cases hMode : mode = .unknown
  · simp only [if_pos hMode, Call.run_pure, Call.run_bind,
      Call.run_release, Except.map, Clock.drop_zero]
    rw [← hFail]
  · simp only [if_neg hMode, Call.run_bind, run_putAll, hStore]
    cases hResult : (planPutAll cfg mode db.store [] chs {} clock).result with
    | error e =>
      simp only [Call.run_bind, Call.run_release, Call.run_pure, Except.map]
      rw [← hFail]
    | ok st => simp [Except.map, DB.writeBatch, PutState.allRecords]

theorem run_put :
    (put cfg mode chs).run clock db = match fastPathChunk mode chs with
      | some ch =>
        if db.store.retrievalDataIndex.has ch.address then ⟨.ok [true], clock, db⟩
        else (putLocked cfg mode chs).run clock db
      | none => (putLocked cfg mode chs).run clock db := by
  unfold put
  cases fastPathChunk mode chs with
  | none => rfl
  | some ch =>
    by_cases hHas : db.store.retrievalDataIndex.has ch.address = true
    · simp [hHas]
    · simp [hHas]

end

end Sana.Localstore
