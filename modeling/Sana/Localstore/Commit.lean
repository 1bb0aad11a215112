import Sana.Localstore.Concurrent
import Sana.Localstore.GCSize
import Sana.Localstore.System

/-
  The commit of a collection after other operations.

  A candidate that is not dirty is left as it was when the candidates were taken, unless a put call
  displaces it: the address of a displaced chunk is not marked as dirty.

  Key definitions include:
    * `Item.Held`
    * `Store.Orderly`

  Key theorems include:
    * `SysStep.faithful`
-/

---- Reading After A Batch

namespace Sana.Localstore

open KeyValue Program Swarm

/-
  A value of the database after a batch is the old one, or one that a record of the batch has
  written.
-/
theorem read_writeBatch {β : Type} (observe : Store → β) (record : β → Write)
    (hOne : ∀ s r, observe (s.write r) = observe s ∨ r = record (observe (s.write r))) (s : Store)
    (batch : Batch) :
    observe (s.writeBatch batch) = observe s ∨ record (observe (s.writeBatch batch)) ∈ batch := by
  induction batch generalizing s with
  | nil => exact Or.inl rfl
  | cons r batch ih =>
    rw [Store.writeBatch_cons]
    rcases ih (s.write r) with hSame | hMem
    · rw [hSame]
      rcases hOne s r with hOld | hNew
      · exact Or.inl hOld
      · refine Or.inr ?_
        rw [← hNew]
        exact List.mem_cons_self ..
    · exact Or.inr (List.mem_cons_of_mem r hMem)

/- A key of an index after a change is as before, or is the one that was written. -/
theorem Index.get_set_or [Ord κ] [Std.TransOrd κ] [Std.LawfulEqOrd κ] [DecidableEq κ]
    (index : Index κ ν) (record : κ → Option ν → Write) (key' : κ) (value : Option ν) :
    (index.set key' value).get key = index.get key ∨
      record key' value = record key ((index.set key' value).get key) := by
  by_cases hEq : key' = key
  · subst hEq
    exact Or.inr (by simp [Index.get_set])
  · exact Or.inl (by simp [Index.get_set, hEq])

section

variable (s : Store) (batch : Batch)

theorem pullIndex_writeBatch (key : PullKey) :
    (s.writeBatch batch).pullIndex.get key = s.pullIndex.get key ∨
      .pull key ((s.writeBatch batch).pullIndex.get key) ∈
        batch := by
  refine read_writeBatch (fun s => s.pullIndex.get key) (.pull key) ?_ s batch
  intro s r
  cases r with
  | pull key' value => exact Index.get_set_or _ _ key' value
  | _ => exact Or.inl rfl

theorem retrievalDataIndex_writeBatch (a : Address) :
    (s.writeBatch batch).retrievalDataIndex.get a = s.retrievalDataIndex.get a ∨
      .retrievalData a ((s.writeBatch batch).retrievalDataIndex.get a) ∈
          batch := by
  refine read_writeBatch (fun s => s.retrievalDataIndex.get a) (.retrievalData a) ?_ s batch
  intro s r
  cases r with
  | retrievalData key value => exact Index.get_set_or _ _ key value
  | _ => exact Or.inl rfl

theorem postageIndexIndex_writeBatch (key : PostageIndexKey) :
    (s.writeBatch batch).postageIndexIndex.get key = s.postageIndexIndex.get key ∨
      .postageIndex key ((s.writeBatch batch).postageIndexIndex.get key) ∈
          batch := by
  refine read_writeBatch (fun s => s.postageIndexIndex.get key) (.postageIndex key) ?_ s batch
  intro s r
  cases r with
  | postageIndex key' value => exact Index.get_set_or _ _ key' value
  | _ => exact Or.inl rfl

theorem getBinID_writeBatch (po : Nat) :
    (s.writeBatch batch).getBinID po = s.getBinID po ∨
      .binID po ((s.writeBatch batch).getBinID po) ∈
        batch := by
  refine read_writeBatch (fun s => s.getBinID po) (.binID po) ?_ s batch
  intro s r
  cases r with
  | binID po' value =>
    by_cases hEq : po' = po
    · subst hEq
      exact Or.inr (by simp [Store.write, Store.getBinID])
    · exact Or.inl (by simp [Store.write, Store.getBinID, Index.get_put, hEq])
  | _ => exact Or.inl rfl

end

---- Held Candidates

section

/-
  The entries that a candidate is deleted with are its own: the pull entry of its bin ID and the
  entry of its stamp index.  Its bin ID will not be assigned again.
-/
structure Item.Held (cfg : Config) (s : Store) (item : Item) : Prop where
  pull : ∀ x, s.pullIndex.get (item.pullKey cfg) = some x → x.address = item.address
  bin : item.binID ≤ s.getBinID (cfg.po item.address)
  stamp : ∃ x, s.postageIndexIndex.get item.postageIndexKey = some x ∧ x.address = item.address

variable {cfg : Config} {s : Store} {item : Item}

/- Accepting a chunk displaces the holder of its index. -/
theorem displaced_of_accepts (hAccepts : s.accepts ch = true)
    (hIndex : s.postageIndexIndex.get ch.stampKey = some x) : s.displaced ch = some x.address := by
  unfold Store.accepts at hAccepts
  unfold Store.displaced
  rw [hIndex] at hAccepts ⊢
  simp only [Bool.and_eq_true, Bool.not_eq_true', decide_eq_true_eq] at hAccepts
  simp [hAccepts.1, hAccepts.2]

/- Records that keep candidates held. -/
theorem Item.Held.of_records (hHeld : item.Held cfg s)
    (hPull : ∀ x, .pull (item.pullKey cfg) (some x) ∉ batch)
    (hBin : ∀ n, .binID (cfg.po item.address) n ∈ batch → s.getBinID (cfg.po item.address) ≤ n)
    (hStamp : ∀ value, .postageIndex item.postageIndexKey value ∉ batch) :
    item.Held cfg (s.writeBatch batch) where
  pull := by
    intro x hSome
    rcases pullIndex_writeBatch s batch (item.pullKey cfg) with hSame | hMem
    · exact hHeld.pull x (hSame.symm.trans hSome)
    · rw [hSome] at hMem
      exact absurd hMem (hPull x)
  bin := by
    have hOld := hHeld.bin
    rcases getBinID_writeBatch s batch (cfg.po item.address) with hSame | hMem
    · omega
    · exact hOld.trans (hBin _ hMem)
  stamp := by
    rcases postageIndexIndex_writeBatch s batch item.postageIndexKey with hSame | hMem
    · rw [hSame]
      exact hHeld.stamp
    · exact absurd hMem (hStamp _)

theorem Item.Held.of_ordinary (hHeld : item.Held cfg s)
    (hAll : ∀ record ∈ batch, record.ordinary = true ∨ ∃ n, record = .gcSize n) :
    item.Held cfg (s.writeBatch batch) := by
  refine hHeld.of_records ?_ ?_ ?_
  · intro x hMem
    rcases hAll _ hMem with hOrdinary | ⟨n, hEq⟩
    · cases hOrdinary
    · cases hEq
  · intro n hMem
    rcases hAll _ hMem with hOrdinary | ⟨n, hEq⟩
    · cases hOrdinary
    · cases hEq
  · intro value hMem
    rcases hAll _ hMem with hOrdinary | ⟨n, hEq⟩
    · cases hOrdinary
    · cases hEq

theorem mem_sizeRecords_gcSize
    (hMem : record ∈ sizeRecords .gcSize size change) : ∃ n, record = .gcSize n := by
  unfold sizeRecords at hMem
  split at hMem
  · cases hMem
  · cases hSize : changedSize size change with
    | none => simp [hSize] at hMem
    | some n =>
      simp only [hSize, List.mem_singleton] at hMem
      exact ⟨n, hMem⟩

/- A put call keeps held what it does not displace. -/
theorem Item.Held.of_put
    (hHeld : item.Held cfg s) (hResult : (planPutAll cfg mode s [] chs {} clock).result = .ok st)
    (hKept : ∀ ch ∈ chs, s.displaced ch ≠ some item.address) :
    item.Held cfg (s.writeBatch (st.allRecords s)) := by
  have hPlan := putRecord_planPutAll hResult
  -- a record is one of the loop, a bin ID, or the gc size
  have hRecords :
      ∀ record ∈ st.allRecords s,
        PutRecord cfg s chs record ∨ (∃ po n, record = .binID po n ∧ s.getBinID po < n) ∨
          ∃ n, record = .gcSize n := by
    intro record hMem
    simp only [PutState.allRecords, List.mem_append, List.mem_map] at hMem
    rcases hMem with (hMem | ⟨⟨po, n⟩, hMem, rfl⟩) | hMem
    · exact Or.inl (hPlan.1 record hMem)
    · exact Or.inr (Or.inl ⟨po, n, rfl, hPlan.2 po n ((Index.mem_entries_iff _ _ _).mp hMem)⟩)
    · exact Or.inr (Or.inr (mem_sizeRecords_gcSize hMem))
  refine hHeld.of_records ?_ ?_ ?_
  · intro x hMem
    rcases hRecords _ hMem with hRecord | ⟨po, n, hEq, -⟩ | ⟨n, hEq⟩
    · have hBin := hHeld.bin
      generalize hKey : item.pullKey cfg = key at hRecord
      rcases hRecord with hOrdinary | ⟨ch, binID, -, hNew⟩ | _
      · cases hOrdinary
      · simp only [Item.pullKey, PullKey.mk.injEq] at hKey
        rw [← hKey.1] at hNew
        omega
    · cases hEq
    · cases hEq
  · intro n hMem
    rcases hRecords _ hMem with hRecord | ⟨po, n, hEq, hLt⟩ | ⟨n, hEq⟩
    · rcases hRecord with hOrdinary | _ | _
      cases hOrdinary
    · cases hEq
      exact hLt.le
    · cases hEq
  · intro value hMem
    rcases hRecords _ hMem with hRecord | ⟨po, n, hEq, -⟩ | ⟨n, hEq⟩
    · rcases hHeld.stamp with ⟨x, hIndex, hAddress⟩
      generalize item.postageIndexKey = key at hRecord hIndex
      rcases hRecord with hOrdinary | _ | ⟨ch, hCh, hAccepts⟩
      · cases hOrdinary
      · apply hKept ch hCh
        rw [← hAddress]
        exact displaced_of_accepts hAccepts hIndex
    · cases hEq
    · cases hEq

end

---- Between Snapshot And Commit

section

/- The candidates of a running collection. -/
def Sys.candidates (sys : Sys) : List Item :=
  match sys.collector with
  | .scanned candidates => candidates
  | _ => []

/- The first half of a collection, without interruption. -/
def Sys.snapshot (cfg : Config) (clock : Clock) (sys : Sys) : Option Sys :=
  (((gcSnapshot cfg).run clock sys.db).value).map fun candidates =>
      { sys with
        db := ((gcSnapshot cfg).run clock sys.db).state
        collector := .scanned candidates }

/-
  Operations that a commit can follow: they count the gc entries they change once, displace no
  candidate that is not dirty, and updates find the chunks that were read.
-/
def CommitSafe (event : Event) (sys : Sys) : Prop :=
  match event with
  | .call (.put mode chs) =>
    CountsOnce (.put mode chs) sys.db.store ∧
      ∀ ch ∈ chs, ∀ item ∈ sys.candidates,
        item.address ∉ sys.db.dirtyAddresses → sys.db.store.displaced ch ≠ some item.address
  | .call (.set mode addrs) => CountsOnce (.set mode addrs) sys.db.store
  | .get _ => True
  | .updateGC item => (sys.db.store.view item.address).Fresh item
  | _ => False

/-
  What holds between snapshot and commit: candidates that are not dirty are as they were at the
  snapshot.
-/
structure Sys.Faithful (cfg : Config) (snap : Store) (candidates : List Item)
    (sys : Sys) : Prop where
  sound : sys.Sound cfg
  counted : sys.db.store.Counted
  scanned : sys.collector = .scanned candidates
  unchanged :
    ∀ item ∈ candidates,
      item.address ∉ sys.db.dirtyAddresses →
        sys.db.store.view item.address = snap.view item.address ∧ item.Held cfg sys.db.store

variable {cfg : Config} {snap : Store} {sys : Sys}
variable {candidates : List Item}

theorem Sys.Faithful.running (hFaithful : sys.Faithful cfg snap candidates) :
    sys.db.gcRunning = true :=
  hFaithful.sound.running (by simp [hFaithful.scanned])

/- An address that a call does not list and not displace. -/
theorem ViewStep.eq_of_untouched (hNot : a ∉ op.touched)
    (hKept : ∀ mode chs, op = .put mode chs → ∀ ch ∈ chs, s.displaced ch ≠ some a)
    (hPlain : (∃ mode chs, op = .put mode chs) ∨ ∃ mode addrs, op = .set mode addrs)
    (hStep : ViewStep cfg s op a v) : v = s.view a := by
  cases hStep with
  | same => rfl
  | @put mode chs _ _ hView hPins =>
    have hSeen : containsChunk a chs = false := by
      simp only [containsChunk, List.any_eq_false, beq_iff_eq]
      intro ch hMem hEq
      exact hNot (List.mem_map.mpr ⟨ch, hMem, hEq.symm⟩)
    rcases hView.untreated hSeen with hSame | ⟨ch, d, hMem, hDisplaced, -⟩
    · exact hSame
    · exact absurd hDisplaced (hKept mode chs rfl ch hMem)
  | set hMem hView => exact absurd hMem hNot
  | getRequest d hData hTouched | unreserveBatch c hVisits hUnpinned
  | collectGarbage item hGC hGone hPin => simp at hPlain

/- The entries of a held candidate after a call. -/
theorem StoreStep.held {item : Item} (hHeld : item.Held cfg s)
    (hKept : ∀ mode chs, op = .put mode chs → ∀ ch ∈ chs, s.displaced ch ≠ some item.address)
    (hPlain : (∃ mode chs, op = .put mode chs) ∨ ∃ mode addrs, op = .set mode addrs)
    (hStep : StoreStep cfg s op s') : item.Held cfg s' := by
  cases hStep with
  | putExisting mode ch hMode hData => exact hHeld
  | put mode chs clock st hResult => exact hHeld.of_put hResult (hKept mode chs rfl)
  | set mode addrs clock c hChange =>
    apply hHeld.of_ordinary
    intro record hMem
    rcases List.mem_append.mp hMem with hMem | hMem
    · exact Or.inl (List.all_eq_true.mp (ordinary_planSetAll mode addrs clock) record hMem)
    · exact Or.inr (mem_sizeRecords_gcSize hMem)
  | getRequest a d now hData | unreserveBatch id radius | collectNothing
  | collectGarbage candidates hSnapshot => simp at hPlain

/- Calls keep clean candidates as they were. -/
theorem faithful_of_call
    (hPut : (∃ mode chs, op = .put mode chs) ∨ ∃ mode addrs, op = .set mode addrs)
    (hPlain : op.plain = true) (hOnce : CountsOnce op sys.db.store)
    (hKept :
      ∀ mode chs, op = .put mode chs → ∀ ch ∈ chs,
        ∀ item ∈ candidates,
          item.address ∉ sys.db.dirtyAddresses → sys.db.store.displaced ch ≠ some item.address)
    (hEffect : CallEffect cfg op sys.db db) (hFaithful : sys.Faithful cfg snap candidates) :
    Sys.Faithful cfg snap candidates { sys with db := db } := by
  have hSound := sound_of_call hPlain hFaithful.sound hEffect
  have hCons := hFaithful.sound.consistent
  rcases hEffect.store with hSame | ⟨hStep, hDirty⟩
  · refine ⟨hSound, ?_, hFaithful.scanned, ?_⟩
    · simp only [hSame]
      exact hFaithful.counted
    · intro item hMem hNot
      simp only [hSame]
      exact hFaithful.unchanged item hMem (fun hOld => hNot (hEffect.dirty _ hOld))
  · refine ⟨hSound, hStep.counted hCons hFaithful.counted hOnce, hFaithful.scanned, ?_⟩
    intro item hMem hNot
    have hClean : item.address ∉ sys.db.dirtyAddresses := fun hOld => hNot (hEffect.dirty _ hOld)
    have hOld := hFaithful.unchanged item hMem hClean
    have hSpared :
        ∀ mode chs, op = .put mode chs → ∀ ch ∈ chs,
          sys.db.store.displaced ch ≠ some item.address := fun mode chs hOp ch hCh =>
        hKept mode chs hOp ch hCh item hMem hClean
    have hView := (viewStep_of_storeStep hCons hStep item.address).eq_of_untouched (fun hTouched =>
        hNot (hDirty hFaithful.running _ hTouched))
      hSpared hPut
    exact ⟨hView.trans hOld.1, hStep.held hOld.2 hSpared hPut⟩

theorem faithful_of_updateGC (hMem : item ∈ sys.reads)
    (hFresh : (sys.db.store.view item.address).Fresh item)
    (hFaithful : sys.Faithful cfg snap candidates) :
    Sys.Faithful cfg snap candidates ((Event.updateGC item).run cfg clock sys) := by
  have hItem := hFaithful.sound.reads item hMem
  have hSound := sound_of_updateGC clock hMem hFresh hFaithful.sound
  simp only [Event.run, run_updateGC] at hSound ⊢
  refine ⟨hSound,
    counted_planUpdateGC hFaithful.sound.consistent hFaithful.counted hItem hFresh (clock 0),
    hFaithful.scanned, ?_⟩
  intro other hOther hNot
  have hOld := hFaithful.unchanged other hOther (fun hOld => hNot (mem_markDirty_of_mem hOld))
  rcases view_updateGC (s := sys.db.store) hItem (clock 0) other.address with ⟨-, hSame⟩ | ⟨hEq, -⟩
  · refine ⟨hSame.trans hOld.1, hOld.2.of_ordinary ?_⟩
    intro record hRecord
    exact Or.inl (List.all_eq_true.mp (ordinary_planUpdateGC item (clock 0)) record hRecord)
  · exact absurd (mem_markDirty hFaithful.running (by simp [hEq])) hNot

/- Every safe event keeps clean candidates as they were. -/
theorem SysStep.faithful (hFaithful : sys.Faithful cfg snap candidates)
    (hSafe : CommitSafe event sys) (hStep : SysStep cfg event sys sys') :
    sys'.Faithful cfg snap candidates := by
  have hCandidates : sys.candidates = candidates := by simp [Sys.candidates, hFaithful.scanned]
  have hCons := hFaithful.sound.consistent
  rcases hStep with ⟨hEnabled, clock, rfl⟩
  cases event with
  | call op =>
    cases op with
    | put mode chs =>
      refine faithful_of_call (Or.inl ⟨mode, chs, rfl⟩) rfl hSafe.1 ?_
        (CallEffect.of_call hEnabled hCons clock) hFaithful
      intro mode' chs' hOp
      cases hOp
      rw [← hCandidates]
      exact hSafe.2
    | set mode addrs =>
      refine faithful_of_call (Or.inr ⟨mode, addrs, rfl⟩) rfl hSafe ?_
        (CallEffect.of_call hEnabled hCons clock) hFaithful
      intro mode' chs' hOp
      cases hOp
    | getRequest a | unreserveBatch id radius | collectGarbage => cases hSafe
  | get addr =>
    have hStep : SysStep cfg (.get addr) sys ((Event.get addr).run cfg clock sys) :=
      ⟨hEnabled, clock, rfl⟩
    have hFresh : UpdateFresh (.get addr) sys := trivial
    have hSound := hStep.sound hFaithful.sound hFresh
    simp only [Event.run, run_getItem] at hSound ⊢
    cases hGet : sys.db.store.retrievalDataIndex.get addr with
    | none => exact hFaithful
    | some d =>
      simp only [hGet] at hSound ⊢
      exact { hFaithful with sound := hSound }
  | updateGC item => exact faithful_of_updateGC hEnabled hSafe hFaithful
  | collect => cases hSafe

end

---- Commit

section

/-
  Collections start from a database whose gc size is right, without pinned chunks in the gc index,
  and whose stamp indexes are those of the stored chunks.
-/
structure Store.Settled (s : Store) : Prop where
  counted : s.Counted
  pinned : ∀ key x, s.gcIndex.get key = some x → s.pinIndex.get key.address = none
  stamps :
    ∀ key x, s.postageIndexIndex.get key = some x ↔
      ∃ d, s.retrievalDataIndex.get x.address = some d ∧ d.stamp.batchID = key.batchID ∧
        d.stamp.index = key.index ∧ d.stamp.timestamp = x.timestamp

/-
  In addition the views are consistent, gc entries carry the stamp index of their chunk, and stored
  chunks have bin IDs of their own that have been assigned before.
-/
structure Store.Orderly (cfg : Config) (s : Store) : Prop where
  settled : s.Settled
  consistent : s.Consistent cfg
  gcStamps :
    ∀ key x d, s.gcIndex.get key = some x →
      s.retrievalDataIndex.get key.address = some d → x.index = d.stamp.index
  pulls :
    ∀ a d x, s.retrievalDataIndex.get a = some d →
      s.pullIndex.get ⟨cfg.po a, d.binID⟩ = some x → x.address = a
  bins : ∀ a d, s.retrievalDataIndex.get a = some d → d.binID ≤ s.getBinID (cfg.po a)

/- The pending updates belong to chunks that were read. -/
def Sys.ReadsChunks (sys : Sys) : Prop :=
  ∀ item ∈ sys.reads, ∃ a d, item = readItem a d

/- The address was a candidate and has not changed since the candidates were taken. -/
def UnchangedCandidate (candidates : List Item) (snap before : Store) (a : Address) : Prop :=
  (∃ item ∈ candidates, item.address = a) ∧ before.view a = snap.view a

/- A commit deletes only entries of unchanged candidates. -/
structure CommitOnly (candidates : List Item) (snap before after : Store) : Prop where
  views : ∀ a, after.view a ≠ before.view a → UnchangedCandidate candidates snap before a
  pulls :
    ∀ key x, before.pullIndex.get key = some x →
      after.pullIndex.get key ≠ some x → UnchangedCandidate candidates snap before x.address
  stamps :
    ∀ key x, before.postageIndexIndex.get key = some x →
      after.postageIndexIndex.get key ≠ some x → UnchangedCandidate candidates snap before x.address

variable {cfg : Config} {snap : Store} {sys : Sys}
variable {candidates : List Item}

/- The candidates of an orderly database hold their entries. -/
theorem held_of_orderly (hOrderly : snap.Orderly cfg) {item : Item}
    (hGC :
      (snap.view item.address).gc item.accessTimestamp
        item.binID = some ⟨item.batchID, item.index⟩) : item.Held cfg snap := by
  rcases (hOrderly.consistent item.address).gc _ _ _ hGC with ⟨d, hData, hBin, -, -, hBatch⟩
  have hIndex := hOrderly.gcStamps _ _ d hGC hData
  refine ⟨?_, ?_, ?_⟩
  · intro x hPull
    unfold Item.pullKey at hPull
    rw [← hBin] at hPull
    exact hOrderly.pulls item.address d x hData hPull
  · rw [← hBin]
    exact hOrderly.bins item.address d hData
  · refine ⟨⟨item.address, d.stamp.timestamp⟩, ?_, rfl⟩
    exact (hOrderly.settled.stamps _ _).mpr ⟨d, hData, hBatch.symm, hIndex.symm, rfl⟩

/- The state right after the snapshot. -/
theorem faithful_of_snapshot {start after : Sys} (hOrderly : start.db.store.Orderly cfg)
    (hReads : start.ReadsChunks)
    (hSnapshot : start.snapshot cfg clock = some after) :
    ∃ candidates, planSnapshot cfg start.db.store = some candidates ∧
      after.Faithful cfg start.db.store candidates := by
  unfold Sys.snapshot at hSnapshot
  rw [run_gcSnapshot] at hSnapshot
  cases hPlan : planSnapshot cfg start.db.store with
  | none => simp [hPlan] at hSnapshot
  | some candidates =>
    simp only [hPlan, Option.map_some, Option.some.injEq] at hSnapshot
    subst hSnapshot
    have hGC := fun item (hMem : item ∈ candidates) => gc_of_mem_planSnapshot hPlan hMem
    refine ⟨candidates, rfl, ⟨hOrderly.consistent, ?_,
      fun _ => rfl, ?_⟩, hOrderly.settled.counted, rfl, ?_⟩
    · intro item hMem
      rcases hReads item hMem with ⟨a, d, rfl⟩
      rfl
    · intro candidates' hScanned item hMem _
      cases hScanned
      exact Or.inl (hGC item hMem)
    · intro item hMem _
      exact ⟨rfl, held_of_orderly hOrderly (hGC item hMem)⟩

/- The records of a commit in the pull index. -/
theorem mem_planCommit_pull (hMem : .pull key value ∈ planCommit cfg s collected) :
    ∃ item ∈ collected, key = item.pullKey cfg := by
  simp only [planCommit, List.mem_append, List.mem_flatMap,
    collectRecords, Item.deleteRetrievalData, Item.deleteRetrievalAccess, Item.deletePull,
    Item.deleteGC, Item.deletePostageChunks, Item.deletePostageIndex, List.mem_cons, reduceCtorEq,
    List.not_mem_nil, or_false, false_or, Write.pull.injEq] at hMem
  rcases hMem with ⟨item, hItem, hKey, -⟩
  exact ⟨item, hItem, hKey⟩

theorem mem_planCommit_postageIndex (hMem : .postageIndex key value ∈ planCommit cfg s collected) :
    ∃ item ∈ collected, key = item.postageIndexKey := by
  simp only [planCommit, List.mem_append, List.mem_flatMap,
    collectRecords, Item.deleteRetrievalData, Item.deleteRetrievalAccess, Item.deletePull,
    Item.deleteGC, Item.deletePostageChunks, Item.deletePostageIndex, List.mem_cons, reduceCtorEq,
    List.not_mem_nil, or_false, false_or, Write.postageIndex.injEq] at hMem
  rcases hMem with ⟨item, hItem, hKey, -⟩
  exact ⟨item, hItem, hKey⟩

/- A commit of clean candidates. -/
theorem commitOnly_planCommit (hCons : s.Consistent cfg)
    (hSub : ∀ item ∈ collected, item ∈ candidates)
    (hCandidate : ∀ item ∈ collected, (s.view item.address).Candidate item)
    (hUnchanged :
      ∀ item ∈ collected, s.view item.address = snap.view item.address ∧ item.Held cfg s) :
    CommitOnly candidates snap s (s.writeBatch (planCommit cfg s collected)) where
  views := by
    intro a hChanged
    rcases view_planCommit hCons hCandidate a with ⟨-, hSame⟩ | ⟨⟨item, hMem, rfl⟩, -⟩
    · exact absurd hSame hChanged
    · exact ⟨⟨item, hSub item hMem, rfl⟩, (hUnchanged item hMem).1⟩
  pulls := by
    intro key x hBefore hAfter
    rcases pullIndex_writeBatch s (planCommit cfg s collected) key with hSame | hMem
    · exact absurd (hSame.trans hBefore) hAfter
    · rcases mem_planCommit_pull hMem with ⟨item, hItem, rfl⟩
      have hOld := hUnchanged item hItem
      rw [hOld.2.pull x hBefore]
      exact ⟨⟨item, hSub item hItem, rfl⟩, hOld.1⟩
  stamps := by
    intro key x hBefore hAfter
    rcases postageIndexIndex_writeBatch s (planCommit cfg s collected) key with hSame | hMem
    · exact absurd (hSame.trans hBefore) hAfter
    · rcases mem_planCommit_postageIndex hMem with ⟨item, hItem, rfl⟩
      have hOld := hUnchanged item hItem
      rcases hOld.2.stamp with ⟨y, hIndex, hAddress⟩
      rw [hBefore] at hIndex
      cases hIndex
      rw [hAddress]
      exact ⟨⟨item, hSub item hItem, rfl⟩, hOld.1⟩

/-
  After safe operations, a commit deletes only entries of candidates that have not changed, and the
  gc size is right.
-/
theorem commit_unchanged_only {cfg : Config} {start snap sys : Sys} {clock : Clock}
    (hOrderly : start.db.store.Orderly cfg) (hReads : start.ReadsChunks)
    (hSnapshot : start.snapshot cfg clock = some snap)
    (hReach : Reach (SysStep cfg) CommitSafe snap sys) (clock' : Clock) :
    let after := Event.collect.run cfg clock' sys
    CommitOnly snap.candidates start.db.store sys.db.store after.db.store ∧
      after.db.store.gcSize = after.db.store.gcIndex.count := by
  rcases faithful_of_snapshot hOrderly hReads hSnapshot with ⟨candidates, hPlan, hStart⟩
  have hFaithful := hReach.invariant (Sys.Faithful cfg start.db.store candidates) hStart
    (fun _ _ _ hFaithful hSafe hStep => hStep.faithful hFaithful hSafe)
  have hCandidates : snap.candidates = candidates := by simp [Sys.candidates, hStart.scanned]
  have hCollected :
      ∀ item ∈ gcCollected sys.db.dirtyAddresses candidates,
        item ∈ candidates ∧ item.address ∉ sys.db.dirtyAddresses := by
    simp [gcCollected]
  have hGC :
      ∀ item ∈ gcCollected sys.db.dirtyAddresses candidates,
        (sys.db.store.view item.address).gc item.accessTimestamp item.binID =
          some ⟨item.batchID, item.index⟩ := by
    intro item hMem
    have hClean := hCollected item hMem
    rw [(hFaithful.unchanged item hClean.1 hClean.2).1]
    exact gc_of_mem_planSnapshot hPlan hClean.1
  have hNodup : ((gcCollected sys.db.dirtyAddresses candidates).map Item.address).Nodup := by
    have hAll := nodup_candidates hOrderly.consistent (nodup_planSnapshot hPlan)
      (fun item hMem => gc_of_mem_planSnapshot hPlan hMem)
    exact hAll.sublist (List.filter_sublist.map Item.address)
  intro after
  have hAfter :
      after.db.store =
        sys.db.store.writeBatch
          (planCommit cfg sys.db.store (gcCollected sys.db.dirtyAddresses candidates)) := by
    simp only [after, Event.run, hFaithful.scanned,
      collectStep, Call.run_bind, Call.run_pure, run_gcCommit]
  rw [hAfter, hCandidates]
  exact ⟨commitOnly_planCommit hFaithful.sound.consistent
      (fun item hMem => (hCollected item hMem).1) (fun item hMem => Or.inl (hGC item hMem))
      (fun item hMem => hFaithful.unchanged item (hCollected item hMem).1 (hCollected item hMem).2),
    counted_planCommit hFaithful.sound.consistent hFaithful.counted hNodup hGC⟩

end

---- Concrete Interleavings

/- The stored value of the cached chunk. -/
def cachedData : RetrievalData where
  binID := 1
  storeTimestamp := 1
  stamp := (smallChunk 1 0 1).stamp
  data := [1]

theorem get_cachedRun :
    cachedRun.store.retrievalDataIndex.get a = some d ↔ a = 1 ∧ d = cachedData := by
  have hEntries : cachedRun.store.retrievalDataIndex.entries = [(1, cachedData)] := by decide
  rw [← Index.mem_entries_iff, hEntries]
  simp

/- A collection can start from the cached chunk. -/
theorem orderly_cachedRun : cachedRun.store.Orderly smallConfig := by
  have hGC : cachedRun.store.gcIndex.entries = [(⟨1, 1, 1⟩, ⟨7, 0⟩)] := by decide
  have hStamps : cachedRun.store.postageIndexIndex.entries = [(⟨7, 0⟩, ⟨1, 1⟩)] := by decide
  have hReach : Reachable smallConfig (fun _ _ => True) cachedRun :=
    Reachable.after .start _ _ trivial (by decide)
  refine ⟨⟨by unfold Store.Counted; decide, ?_, ?_⟩, ?_, ?_, ?_, ?_⟩
  · intro key x hSome
    have hMem := (Index.mem_entries_iff _ _ _).mpr hSome
    rw [hGC, List.mem_singleton, Prod.mk.injEq] at hMem
    rw [hMem.1]
    decide
  · rintro ⟨batchID, index⟩ ⟨address, timestamp⟩
    rw [← Index.mem_entries_iff, hStamps]
    simp only [get_cachedRun, List.mem_singleton, Prod.mk.injEq, PostageIndexKey.mk.injEq,
      PostageIndexValue.mk.injEq]
    constructor
    · rintro ⟨⟨rfl, rfl⟩, rfl, rfl⟩
      exact ⟨cachedData, ⟨rfl, rfl⟩, rfl, rfl, rfl⟩
    · rintro ⟨d, ⟨rfl, rfl⟩, rfl, rfl, rfl⟩
      exact ⟨⟨rfl, rfl⟩, rfl, rfl⟩
  · exact hReach.consistent
  · intro key x d hSome hData
    have hMem := (Index.mem_entries_iff _ _ _).mpr hSome
    rw [hGC, List.mem_singleton, Prod.mk.injEq] at hMem
    rw [hMem.2, (get_cachedRun.mp hData).2]
    rfl
  · intro a d x hData hSome
    have hMem := (Index.mem_entries_iff _ _ _).mpr hSome
    cases hMem
  · intro a d hData
    rcases get_cachedRun.mp hData with ⟨rfl, rfl⟩
    decide

/- The candidate that a collection takes. -/
def cachedCandidate : Item where
  accessTimestamp := 1
  binID := 1
  address := 1
  batchID := 7

/- The candidates have been taken. -/
def snapshotRun : Sys where
  db := { cachedRun with gcRunning := true }
  collector := .scanned [cachedCandidate]

theorem snapshot_cachedRun :
    Sys.snapshot smallConfig (fun _ => 2) { db := cachedRun } = some snapshotRun := by
  rfl

/- A chunk is stored before the commit. -/
def storedBeforeCommitRun (ch : Chunk) : Sys :=
  (Event.call (.put .requestCache [ch])).run smallConfig (fun _ => 3) snapshotRun

theorem commit_unchanged_only_storedBeforeCommitRun :
    let sys := storedBeforeCommitRun (smallChunk 2 1 1)
    let after := Event.collect.run smallConfig (fun _ => 4) sys
    CommitOnly snapshotRun.candidates cachedRun.store sys.db.store after.db.store ∧
      after.db.store.gcSize = after.db.store.gcIndex.count := by
  have hReads : Sys.ReadsChunks { db := cachedRun } := by
    intro item hMem
    cases hMem
  refine commit_unchanged_only orderly_cachedRun hReads snapshot_cachedRun
    (.step (.call (.put .requestCache [smallChunk 2 1 1]))
      .start ?_ ⟨rfl, fun _ => 3, rfl⟩) (fun _ => 4)
  refine ⟨⟨?_, ?_, ?_⟩, ?_⟩
  · intro hReports
    cases hReports
  · intro ch hMem ch' hMem' hNe
    rw [List.mem_singleton.mp hMem, List.mem_singleton.mp hMem'] at hNe
    exact absurd rfl hNe
  · intro hMode
    cases hMode
  · intro ch hMem item _ _ hDisplaced
    rw [List.mem_singleton.mp hMem] at hDisplaced
    cases hDisplaced

/- The events of other operations during a collection. -/
def Event.between : Event → Bool
| .call (.put _ _) => true
| .call (.set _ _) => true
| .get _ => true
| .updateGC _ => true
| _ => false

/-
  A chunk that displaces the candidate: the commit deletes the stamp index of the new chunk and
  counts the candidate once more.
-/
theorem commit_wrong_of_displaced :
    ¬ ∀ (cfg : Config) (start snap sys : Sys) (clock clock' : Clock), start.db.store.Settled →
      start.ReadsChunks → start.snapshot cfg clock = some snap →
      Reach (SysStep cfg) (fun event _ => event.between = true) snap sys →
      let after := Event.collect.run cfg clock' sys
      CommitOnly snap.candidates start.db.store sys.db.store after.db.store ∧
        after.db.store.gcSize = after.db.store.gcIndex.count := by
  intro hAll
  have hCount :=
    (hAll smallConfig { db := cachedRun } snapshotRun (storedBeforeCommitRun (smallChunk 2 0 2))
      (fun _ => 2) (fun _ => 4) orderly_cachedRun.settled
      (by intro item hMem; cases hMem) snapshot_cachedRun
      (.step (.call (.put .requestCache [smallChunk 2 0 2])) .start rfl ⟨rfl, fun _ => 3, rfl⟩)).2
  revert hCount
  decide

end Sana.Localstore
