import Mathlib.Data.List.Perm.Basic
import Sana.Localstore.Contents

/-
  Setting several addresses in one call, in any order, and one after the other.

  Removing, pinning and unpinning read and write only what is stored for their own address, apart
  from the entry of the pull index that a removal deletes.  So the records for different addresses
  commute, and a call sees at each address what the database had before it.  The gc size is right
  after each address, so its guard against falling below zero never applies.

  Key definitions include:
    * `setEach`
    * `Store.Accounted`

  Key theorems include:
    * `writeBatch_comm`
-/

---- Records For Different Addresses

namespace Sana.Localstore

open KeyValue Program Swarm

variable {cfg : Config} {mode : ModeSet} {s t : Store} {a : Address} {now : Nat} {c : Int}

/- A record is about one address, or it deletes an entry of the pull index. -/
def Write.Separate (a : Address) (record : Write) : Prop :=
  record.address = some a ∨ ∃ key, record = .pull key none

theorem write_comm (hNe : a ≠ b) (hFirst : first.Separate a)
    (hSecond : second.Separate b) :
    (s.write first).write second = (s.write second).write first := by
  rcases hFirst with hFirst | ⟨key, rfl⟩
  · rcases hSecond with hSecond | ⟨key', rfl⟩
    · -- two records of one index have different keys
      cases first <;> cases hFirst <;> cases second <;> cases hSecond <;> first
          | rfl
          | (simp only [Store.write]
             rw [Index.set_comm]
             intro hKey
             cases hKey
             exact absurd rfl hNe)
    · cases first <;> first | rfl | cases hFirst
  · rcases hSecond with hSecond | ⟨key', rfl⟩
    · cases second <;> first | rfl | cases hSecond
    · simp only [Store.write]
      rw [Index.set_comm]
      exact fun _ => rfl

theorem writeBatch_write_comm (hNe : a ≠ b)
    (hBatch : ∀ other ∈ batch, other.Separate a) (hRecord : record.Separate b) :
    (s.writeBatch batch).write record = (s.write record).writeBatch batch := by
  induction batch generalizing s with
  | nil => rfl
  | cons first batch ih =>
    rw [Store.writeBatch_cons, Store.writeBatch_cons,
      ih fun other hMem => hBatch other (List.mem_cons_of_mem first hMem),
      write_comm hNe (hBatch first (List.mem_cons_self ..)) hRecord]

/- Batches for different addresses commute. -/
theorem writeBatch_comm (hNe : a ≠ b)
    (hFirst : ∀ record ∈ first, record.Separate a)
    (hSecond : ∀ record ∈ second, record.Separate b) :
    (s.writeBatch first).writeBatch second = (s.writeBatch second).writeBatch first := by
  induction second generalizing s with
  | nil => rfl
  | cons record second ih =>
    rw [Store.writeBatch_cons, Store.writeBatch_cons,
      writeBatch_write_comm hNe hFirst (hSecond record (List.mem_cons_self ..)),
      ih fun other hMem => hSecond other (List.mem_cons_of_mem record hMem)]

/- The modes that set each address on its own. -/
def ModeSet.separate : ModeSet → Bool
| .remove => true
| .pin => true
| .unpin => true
| .sync => false
| .unknown => false

theorem separate_planRemove : ∀ record ∈ (planRemove cfg s a).records, record.Separate a := by
  unfold planRemove
  cases s.retrievalDataIndex.get a with
  | none => nofun
  | some d =>
    dsimp only
    split <;> simp [Write.Separate, Write.address, Store.gcKeyOf]

theorem separate_planPin : ∀ record ∈ (planPin s a).records, record.Separate a := by
  unfold planPin
  cases s.pinIndex.get a <;> cases s.retrievalAccessIndex.get a <;>
    cases s.retrievalDataIndex.get a <;> simp [Write.Separate, Write.address]

theorem separate_planUnpin : ∀ record ∈ (planUnpin s a now).records, record.Separate a := by
  unfold planUnpin
  cases s.pinIndex.get a with
  | none => simp
  | some n =>
    dsimp only
    split
    · simp [Write.Separate, Write.address]
    · cases s.retrievalDataIndex.get a with
      | none => simp [Write.Separate, Write.address]
      | some d =>
        dsimp only
        split
        · simp [Write.Separate, Write.address]
        · cases s.retrievalAccessIndex.get a <;> simp [Write.Separate, Write.address]

theorem separate_planSet (hMode : mode.separate = true) :
    ∀ record ∈ (planSet cfg mode s a now).records, record.Separate a := by
  cases mode with
  | remove => exact separate_planRemove
  | pin => exact separate_planPin
  | unpin => exact separate_planUnpin
  | sync | unknown => cases hMode

/- A plan depends on the view of its address only. -/
theorem planSet_congr (hMode : mode.separate = true) (hView : t.view a = s.view a) :
    planSet cfg mode t a now = planSet cfg mode s a now := by
  cases mode with
  | remove => exact planRemove_congr hView
  | pin => exact planPin_congr hView
  | unpin => exact planUnpin_congr hView now
  | sync | unknown => cases hMode

---- The GC Size After Each Address

/-
  What the database stores for an address fits the changes of the gc size: a pinned chunk has no gc
  entry, and a chunk that is not pinned and has an access timestamp has one.
-/
structure View.Accounted (v : View) : Prop where
  pinned : ∀ n, v.pin = some n → ∀ time bin, v.gc time bin = none
  cached :
    ∀ d time, v.data = some d → v.access = some time →
      v.pin = none → (v.gc time d.binID).isSome = true

/-
  The gc size is the number of gc entries, pinned chunks have none, and every other stored chunk
  with an access timestamp has exactly one, under that timestamp and its bin ID.
-/
structure Store.Accounted (s : Store) : Prop where
  counted : s.Counted
  pinned :
    ∀ a n, s.pinIndex.get a = some n → ∀ key value, s.gcIndex.get key = some value → key.address ≠ a
  cached :
    ∀ a d time, s.retrievalDataIndex.get a = some d → s.retrievalAccessIndex.get a = some time →
      s.pinIndex.get a = none →
      ∀ key, key.address = a → (s.gcIndex.has key = true ↔ key = ⟨time, d.binID, a⟩)

theorem Store.Accounted.view (hAccounted : s.Accounted) (a : Address) : (s.view a).Accounted := by
  constructor
  · intro n hPin time bin
    cases hGC : (s.view a).gc time bin with
    | none => rfl
    | some value => exact absurd rfl (hAccounted.pinned a n hPin ⟨time, bin, a⟩ value hGC)
  · intro d time hData hAccess hPin
    exact (hAccounted.cached a d time hData hAccess hPin ⟨time, d.binID, a⟩ rfl).mpr rfl

/- Deleting an entry that is there, and adding a new one. -/

theorem count_gc_none (hHas : t.gcIndex.has key = true) :
    ((t.gcIndex.set key none).count : Int) = t.gcIndex.count + -1 := by
  rcases (Index.has_eq_true_iff _ _).mp hHas with ⟨value, hSome⟩
  have hCount := Index.count_delete_of_get_eq_some t.gcIndex hSome
  simp only [Index.set]
  omega

theorem count_gc_some (hNone : t.gcIndex.get key = none) :
    ((t.gcIndex.set key (some value)).count : Int) = t.gcIndex.count + 1 := by
  have hCount := Index.count_put_of_get_eq_none t.gcIndex value hNone
  simp only [Index.set]
  omega

/- Each helper returns what it does to the gc index. -/

theorem count_planRemove (hOk : (planRemove cfg t a).change = .ok c) :
    ((t.writeBatch (planRemove cfg t a).records).gcIndex.count : Int) = t.gcIndex.count + c := by
  unfold planRemove at hOk ⊢
  cases hData : t.retrievalDataIndex.get a with
  | none => simp [hData] at hOk
  | some d =>
    simp only [hData] at hOk ⊢
    cases hGC : t.gcIndex.has (t.gcKeyOf a d) with
    | true =>
      rw [hGC] at hOk
      cases hOk
      exact count_gc_none hGC
    | false =>
      rw [hGC] at hOk
      cases hOk
      exact (Int.add_zero _).symm

theorem count_planPin (hAccounted : (t.view a).Accounted) (hOk : (planPin t a).change = .ok c) :
    ((t.writeBatch (planPin t a).records).gcIndex.count : Int) = t.gcIndex.count + c := by
  unfold planPin at hOk ⊢
  cases hPin : t.pinIndex.get a with
  | some n =>
    simp only [hPin] at hOk ⊢
    cases hOk
    exact (Int.add_zero _).symm
  | none =>
    cases hAccess : t.retrievalAccessIndex.get a with
    | none =>
      simp only [hPin, hAccess] at hOk ⊢
      cases hOk
      exact (Int.add_zero _).symm
    | some time =>
      cases hData : t.retrievalDataIndex.get a with
      | none => simp [hPin, hAccess, hData] at hOk
      | some d =>
        simp only [hPin, hAccess, hData] at hOk ⊢
        cases hOk
        exact count_gc_none (hAccounted.cached d time hData hAccess hPin)

theorem count_planUnpin (hAccounted : (t.view a).Accounted)
    (hOk : (planUnpin t a now).change = .ok c) :
    ((t.writeBatch (planUnpin t a now).records).gcIndex.count : Int) = t.gcIndex.count + c := by
  unfold planUnpin at hOk ⊢
  cases hPin : t.pinIndex.get a with
  | none => simp [hPin] at hOk
  | some n =>
    have hNone := hAccounted.pinned n hPin
    simp only [hPin] at hOk ⊢
    by_cases hMany : n > 1
    · simp only [if_pos hMany] at hOk ⊢
      cases hOk
      exact (Int.add_zero _).symm
    simp only [if_neg hMany] at hOk ⊢
    cases hData : t.retrievalDataIndex.get a with
    | none => simp [hData] at hOk
    | some d =>
      simp only [hData] at hOk ⊢
      by_cases hPush : t.pushIndex.has ⟨d.storeTimestamp, a⟩ = true
      · simp only [if_pos hPush] at hOk ⊢
        cases hOk
        exact (Int.add_zero _).symm
      simp only [if_neg hPush] at hOk ⊢
      cases hAccess : t.retrievalAccessIndex.get a with
      | none =>
        simp only [hAccess] at hOk ⊢
        cases hOk
        exact count_gc_some (hNone now d.binID)
      | some time =>
        simp only [hAccess] at hOk ⊢
        cases hOk
        exact count_gc_some (hNone time d.binID)

theorem count_planSet_accounted (hMode : mode.separate = true) (hAccounted : (t.view a).Accounted)
    (hOk : (planSet cfg mode t a now).change = .ok c) :
    ((t.writeBatch
      (planSet cfg mode t a now).records).gcIndex.count : Int) = t.gcIndex.count + c := by
  cases mode with
  | remove => exact count_planRemove hOk
  | pin => exact count_planPin hAccounted hOk
  | unpin => exact count_planUnpin hAccounted hOk
  | sync | unknown => cases hMode

---- Address By Address

/- One call for each address. -/
def setEach (cfg : Config) (mode : ModeSet) : List Address → Call DB (Except Err Unit)
| [] => return .ok ()
| addr :: addrs => do
    match ← set cfg mode [addr] with
    | .error e => return .error e
    | .ok () => setEach cfg mode addrs

/- The database with the gc size that it should have. -/
def Store.recount (s : Store) : Store :=
  { s with gcSize := s.gcIndex.count }

/- The records of a plan for one address. -/
def Store.setOn (cfg : Config) (mode : ModeSet) (now : Nat) (s t : Store) (a : Address) : Store :=
  t.writeBatch (planSet cfg mode s a now).records

variable {b : Address} {addrs : List Address}

theorem view_setOn_of_ne (hNe : a ≠ b) : (s.setOn cfg mode now t a).view b = t.view b := by
  unfold Store.setOn
  rw [view_writeBatch, (about_planSet cfg mode s a now).onView_of_ne hNe]

/- The order of the addresses does not matter. -/
theorem foldl_setOn_perm {perm : List Address} (hMode : mode.separate = true)
    (hPerm : perm.Perm addrs) :
    perm.foldl (s.setOn cfg mode now) t = addrs.foldl (s.setOn cfg mode now) t := by
  apply hPerm.foldl_eq'
  intro a _ b _ u
  by_cases hEq : a = b
  · rw [hEq]
  · exact writeBatch_comm hEq (separate_planSet hMode) (separate_planSet hMode)

/- The plan of a call whose plans all succeed, with one clock reading throughout. -/
theorem planSetAll_eq_ok (hOk : (planSetAll cfg mode s addrs (fun _ => now)).change = .ok c) :
    ∀ a ∈ addrs, ∃ c', (planSet cfg mode s a now).change = .ok c' := by
  refine planSetAll_invariant
    (fun done _ _ => ∀ a ∈ done, ∃ c', (planSet cfg mode s a now).change = .ok c') hOk nofun ?_
  intro done b rest batch c₁ c₂ n _ hInv hFirst a hMem
  rcases List.mem_append.mp hMem with hMem | hMem
  · exact hInv a hMem
  · rw [List.mem_singleton.mp hMem]
    exact ⟨c₂, hFirst⟩

/- What a call whose plans all succeed does, in any order. -/
theorem planSetAll_of_ok (hMode : mode.separate = true) (hNodup : addrs.Nodup)
    (hAccounted : ∀ a ∈ addrs, (s.view a).Accounted) (hSame : ∀ a ∈ addrs, t.view a = s.view a)
    (hOk : ∀ a ∈ addrs, ∃ c, (planSet cfg mode s a now).change = .ok c) :
    ∃ c,
      (planSetAll cfg mode s addrs (fun _ => now)).change = .ok c ∧
        t.writeBatch (planSetAll cfg mode s addrs (fun _ => now)).records =
          addrs.foldl (s.setOn cfg mode now) t ∧
        ((addrs.foldl (s.setOn cfg mode now) t).gcIndex.count : Int) = t.gcIndex.count + c := by
  induction addrs generalizing t with
  | nil => exact ⟨0, rfl, rfl, (Int.add_zero _).symm⟩
  | cons a addrs ih =>
    rw [List.nodup_cons] at hNodup
    rcases hOk a (List.mem_cons_self ..) with ⟨first, hFirst⟩
    have hHere := hSame a (List.mem_cons_self ..)
    have hPlan : planSet cfg mode t a now = planSet cfg mode s a now := planSet_congr hMode hHere
    have hRest : ∀ b ∈ addrs, (s.setOn cfg mode now t a).view b = s.view b := by
      intro b hMem
      rw [view_setOn_of_ne, hSame b (List.mem_cons_of_mem a hMem)]
      rintro rfl
      exact hNodup.1 hMem
    rcases ih hNodup.2 (fun b hMem => hAccounted b (List.mem_cons_of_mem a hMem)) hRest
      (fun b hMem => hOk b (List.mem_cons_of_mem a hMem)) with ⟨rest, hChange, hRecords, hCount⟩
    have hFirstCount :
        ((s.setOn cfg mode now t a).gcIndex.count : Int) = t.gcIndex.count + first := by
      unfold Store.setOn
      rw [← hPlan] at hFirst ⊢
      refine count_planSet_accounted hMode ?_ hFirst
      rw [hHere]
      exact hAccounted a (List.mem_cons_self ..)
    have hDrop : Clock.drop (fun _ => now) (planSet cfg mode s a now).readings = fun _ => now := rfl
    refine ⟨first + rest, ?_, ?_, ?_⟩
    · simp only [planSetAll, hFirst, hDrop, hChange]
      rfl
    · simp only [planSetAll, hFirst, hDrop]
      rw [Store.writeBatch_append]
      exact hRecords
    · rw [List.foldl_cons, hCount]
      omega

theorem gcSize_foldl_setOn : (addrs.foldl (s.setOn cfg mode now) t).gcSize = t.gcSize := by
  induction addrs generalizing t with
  | nil => rfl
  | cons a addrs ih =>
    rw [List.foldl_cons, ih]
    exact (about_planSet cfg mode s a now).gcSize_writeBatch t

/- Writing the right gc size is counting again. -/
theorem writeBatch_sizeRecords_eq_recount (hCounted : s.Counted)
    (hCount : (t.gcIndex.count : Int) = s.gcIndex.count + c) (hSize : t.gcSize = s.gcSize) :
    t.writeBatch (sizeRecords .gcSize s.gcSize c) = t.recount := by
  have hRight := counted_sizeRecords hCounted hCount hSize
  have hOnly : ∃ n, t.writeBatch (sizeRecords .gcSize s.gcSize c) = { t with gcSize := n } := by
    unfold sizeRecords
    split
    · exact ⟨t.gcSize, rfl⟩
    · cases changedSize s.gcSize c with
      | none => exact ⟨t.gcSize, rfl⟩
      | some n => exact ⟨n, rfl⟩
  rcases hOnly with ⟨n, hEq⟩
  rw [hEq] at hRight ⊢
  have hCounts : n = t.gcIndex.count := hRight
  rw [hCounts]
  rfl

/- A call, in terms of its addresses. -/
theorem afterSet_eq_recount (hMode : mode.separate = true) (hNodup : addrs.Nodup)
    (hCounted : s.Counted) (hAccounted : ∀ a ∈ addrs, (s.view a).Accounted)
    (hOk : ∀ a ∈ addrs, ∃ c, (planSet cfg mode s a now).change = .ok c) :
    s.afterSet cfg mode addrs (fun _ => now) = (addrs.foldl (s.setOn cfg mode now) s).recount := by
  rcases planSetAll_of_ok hMode hNodup hAccounted (fun _ _ => rfl) hOk with
    ⟨c, hChange, hRecords, hCount⟩
  simp only [Store.afterSet, hChange]
  rw [Store.writeBatch_append, hRecords]
  exact writeBatch_sizeRecords_eq_recount hCounted hCount gcSize_foldl_setOn

/- The gc size before some records does not show in the end. -/
theorem recount_writeBatch (t : Store) (n : Nat) (batch : Batch) :
    ({ t with gcSize := n }.writeBatch batch).recount = (t.writeBatch batch).recount := by
  induction batch generalizing t n with
  | nil => rfl
  | cons record batch ih =>
    have hOne :
        ∃ n', { t with gcSize := n }.write record = { t.write record with gcSize := n' } := by
      cases record with
      | gcSize size => exact ⟨size, rfl⟩
      | _ => exact ⟨n, rfl⟩
    rcases hOne with ⟨n', hOne⟩
    rw [Store.writeBatch_cons, hOne]
    exact ih _ n'

theorem recount_foldl_setOn (s t : Store) :
    (addrs.foldl (s.setOn cfg mode now) t.recount).recount =
      (addrs.foldl (s.setOn cfg mode now) t).recount := by
  have hFlat :
      ∀ t : Store, addrs.foldl (s.setOn cfg mode now) t = t.writeBatch (addrs.flatMap fun a =>
              (planSet cfg mode s a now).records) := by
    intro t
    rw [Store.writeBatch, List.foldl_flatMap]
    rfl
  rw [hFlat, hFlat]
  exact recount_writeBatch t _ _

theorem run_setEach (hMode : mode.separate = true) (hNodup : addrs.Nodup)
    (hCounted : db.store.Counted) (hAccounted : ∀ a ∈ addrs, (db.store.view a).Accounted)
    (hOk : ∀ a ∈ addrs, ∃ c, (planSet cfg mode db.store a now).change = .ok c) :
    ((setEach cfg mode addrs).run (fun _ => now) db).value = .ok () ∧
      ((setEach cfg mode addrs).run
        (fun _ => now) db).state.store.recount =
          (addrs.foldl (db.store.setOn cfg mode now) db.store).recount ∧
      ((setEach cfg mode addrs).run (fun _ => now) db).state.store.Counted := by
  have hKnown : mode ≠ .unknown := by
    rintro rfl
    cases hMode
  induction addrs generalizing db with
  | nil => exact ⟨rfl, rfl, hCounted⟩
  | cons a addrs ih =>
    rw [List.nodup_cons] at hNodup
    have hOne := afterSet_eq_recount hMode (List.nodup_singleton a) hCounted (fun b hMem => by
          rw [List.mem_singleton.mp hMem]
          exact hAccounted a (List.mem_cons_self ..))
        (fun b hMem => by
          rw [List.mem_singleton.mp hMem]
          exact hOk a (List.mem_cons_self ..))
    rcases hOk a (List.mem_cons_self ..) with ⟨c, hFirst⟩
    have hDrop : ∀ n, Clock.drop (fun _ => now) n = fun _ => now := fun _ => rfl
    have hChange : (planSetAll cfg mode db.store [a] (fun _ => now)).change = .ok (c + 0) := by
      simp only [planSetAll, hFirst]
      rfl
    have hSet := run_set cfg mode [a] hKnown (fun _ => now) db
    rw [hOne, hChange] at hSet
    simp only [setEach, Call.run_bind, hSet, Except.map]
    generalize hNext :
      ({ db.markDirty [a] with
        store := ([a].foldl (db.store.setOn cfg mode now) db.store).recount } : DB) = next
    have hStore : next.store = (db.store.setOn cfg mode now db.store a).recount := by
      rw [← hNext]
      rfl
    -- the other addresses have the views they had
    have hViews : ∀ b ∈ addrs, next.store.view b = db.store.view b := by
      intro b hMem
      rw [hStore]
      apply view_setOn_of_ne
      rintro rfl
      exact hNodup.1 hMem
    have hPlans :
        ∀ b ∈ addrs, planSet cfg mode next.store b now = planSet cfg mode db.store b now :=
      fun b hMem => planSet_congr hMode (hViews b hMem)
    have hRest := @ih next hNodup.2 (by
        rw [hStore]
        rfl)
      (fun b hMem => by
        rw [hViews b hMem]
        exact hAccounted b (List.mem_cons_of_mem a hMem))
      (fun b hMem => by
        rw [hPlans b hMem]
        exact hOk b (List.mem_cons_of_mem a hMem))
    refine ⟨hRest.1, hRest.2.1.trans ?_, hRest.2.2⟩
    rw [List.foldl_cons, ← recount_foldl_setOn db.store (db.store.setOn cfg mode now db.store a),
      ← hStore]
    congr 1
    apply List.foldl_ext
    intro u b hMem
    unfold Store.setOn
    rw [hPlans b hMem]

/-
  Removing, pinning or unpinning different addresses leaves the same database in one call, in one
  call with any other order, and in one call for each address.
-/
theorem set_order_independent {db : DB} (hMode : mode = .remove ∨ mode = .pin ∨ mode = .unpin)
    (hAccounted : db.store.Accounted) (hNodup : addrs.Nodup) {perm : List Address}
    (hPerm : perm.Perm addrs) (now : Nat)
    (hOk : ((set cfg mode addrs).run (fun _ => now) db).value = .ok ()) :
    let after := ((set cfg mode addrs).run (fun _ => now) db).state.store
    (((set cfg mode perm).run (fun _ => now) db).value = .ok () ∧
      ((set cfg mode perm).run (fun _ => now) db).state.store = after) ∧
    ((setEach cfg mode addrs).run (fun _ => now) db).value = .ok () ∧
      ((setEach cfg mode addrs).run (fun _ => now) db).state.store = after := by
  intro after
  have hSeparate : mode.separate = true := by rcases hMode with rfl | rfl | rfl <;> rfl
  have hKnown : mode ≠ .unknown := by
    rintro rfl
    cases hSeparate
  have hViews : ∀ (bs : List Address), ∀ a ∈ bs, (db.store.view a).Accounted :=
    fun _ a _ => hAccounted.view a
  have hPlans : ∀ a ∈ addrs, ∃ c, (planSet cfg mode db.store a now).change = .ok c := by
    rw [run_set cfg mode addrs hKnown] at hOk
    cases hChange : (planSetAll cfg mode db.store addrs (fun _ => now)).change with
    | error e => simp [hChange, Except.map] at hOk
    | ok c => exact planSetAll_eq_ok hChange
  have hPlansPerm : ∀ a ∈ perm, ∃ c, (planSet cfg mode db.store a now).change = .ok c :=
    fun a hMem => hPlans a (hPerm.mem_iff.mp hMem)
  have hNodupPerm : perm.Nodup := hPerm.nodup_iff.mpr hNodup
  have hAfter : after = (addrs.foldl (db.store.setOn cfg mode now) db.store).recount := by
    unfold after
    rw [run_set cfg mode addrs hKnown]
    exact afterSet_eq_recount hSeparate hNodup hAccounted.counted (hViews addrs) hPlans
  refine ⟨⟨?_, ?_⟩, ?_, ?_⟩
  · rcases planSetAll_of_ok hSeparate hNodupPerm (hViews perm)
      (fun _ _ => rfl) hPlansPerm with ⟨c, hChange, -, -⟩
    rw [run_set cfg mode perm hKnown, hChange]
    rfl
  · rw [run_set cfg mode perm hKnown, hAfter, ← foldl_setOn_perm hSeparate hPerm]
    exact afterSet_eq_recount hSeparate hNodupPerm hAccounted.counted (hViews perm) hPlansPerm
  · exact (run_setEach hSeparate hNodup hAccounted.counted (hViews addrs) hPlans).1
  · have hEach := run_setEach hSeparate hNodup hAccounted.counted (hViews addrs) hPlans
    rw [hAfter, ← hEach.2.1]
    have hCounted := hEach.2.2
    unfold Store.recount
    rw [← hCounted]

/- Two chunks, one in the gc index and one pinned. -/
def mixedRun : DB :=
  (DB.empty.after smallConfig (fun _ => 1)
    (.put .sync [smallChunk 1 0 1, smallChunk 2 1 1])).after
      smallConfig (fun _ => 2) (.set .unpin [1])

theorem accounted_mixedRun : mixedRun.store.Accounted := by
  have hPins : mixedRun.store.pinIndex.entries = [(2, 1)] := by decide
  have hGC : mixedRun.store.gcIndex.entries = [(⟨1, 1, 1⟩, ⟨7, 0⟩)] := by decide
  have hKeys : ∀ key, mixedRun.store.gcIndex.has key = true ↔ key = ⟨1, 1, 1⟩ := by
    simp [Index.has_eq_true_iff, ← Index.mem_entries_iff, hGC]
  have hOne :
      ∀ a d time, mixedRun.store.retrievalDataIndex.get a = some d →
        mixedRun.store.retrievalAccessIndex.get a = some time →
        mixedRun.store.pinIndex.get a = none → a = 1 ∧ d.binID = 1 ∧ time = 1 := by
    intro a d time hData hTime hPin
    have hBin :
        mixedRun.store.retrievalDataIndex.entries.map (fun entry => (entry.1, entry.2.binID)) =
          [(1, 1), (2, 2)] := by decide
    have hAccess : mixedRun.store.retrievalAccessIndex.entries = [(1, 1), (2, 1)] := by decide
    have hMem :
        (a, d.binID) ∈
          mixedRun.store.retrievalDataIndex.entries.map (fun entry => (entry.1, entry.2.binID)) :=
      List.mem_map.mpr ⟨(a, d), (Index.mem_entries_iff _ _ _).mpr hData, rfl⟩
    have hTimes := (Index.mem_entries_iff _ _ _).mpr hTime
    have hPinned : mixedRun.store.pinIndex.get 2 = some 1 := by decide
    rw [hBin] at hMem
    rw [hAccess] at hTimes
    simp only [List.mem_cons, Prod.mk.injEq, List.not_mem_nil, or_false] at hMem hTimes
    rcases hMem with ⟨rfl, hBinID⟩ | ⟨rfl, -⟩
    · rcases hTimes with ⟨-, hTime⟩ | ⟨hAddress, -⟩
      · exact ⟨rfl, hBinID, hTime⟩
      · cases hAddress
    · cases hPin
  constructor
  · rfl
  · intro a n hPin key value hKey
    have hPinMem := (Index.mem_entries_iff _ _ _).mpr hPin
    have hGCMem := (Index.mem_entries_iff _ _ _).mpr hKey
    rw [hPins] at hPinMem
    rw [hGC] at hGCMem
    simp only [List.mem_singleton, Prod.mk.injEq] at hPinMem hGCMem
    rw [hPinMem.1, hGCMem.1]
    decide
  · intro a d time hData hTime hPin key _
    rcases hOne a d time hData hTime hPin with ⟨rfl, hBinID, rfl⟩
    rw [hBinID]
    exact hKeys key

/- Both chunks are removed, in either order. -/
theorem set_order_independent_mixedRun :
    ((set smallConfig .remove [2, 1]).run (fun _ => 3) mixedRun).state.store =
      ((setEach smallConfig .remove [1, 2]).run (fun _ => 3) mixedRun).state.store := by
  have hNodup : ([1, 2] : List Address).Nodup := by decide
  have hPerm : ([2, 1] : List Address).Perm [1, 2] := List.Perm.swap 1 2 []
  have hOk :
      ((set smallConfig .remove [1, 2]).run (fun _ => 3) mixedRun).value = .ok () := by decide
  have hBoth := set_order_independent (Or.inl rfl) accounted_mixedRun hNodup hPerm 3 hOk
  exact hBoth.1.2.trans hBoth.2.2.symm

end Sana.Localstore
