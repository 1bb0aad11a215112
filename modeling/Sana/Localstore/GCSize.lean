import Sana.Localstore.System

/-
  Counting the entries of the gc index through views.

  A consistent view has at most one gc entry, so the size of the gc index changes by what happens to
  the views.

  Then the persisted gc size is compared with the size of the index.

  Key definitions include:
    * `View.Collectable`
    * `View.gcCount`

  Key theorems include:
    * `count_writeBatch`
-/

---- Collectable Views

namespace Sana.Localstore

open KeyValue Program Swarm

variable {s : Store} {a : Address} {po : Nat}

namespace View

/- The chunk has an entry in the gc index. -/
def Collectable (v : View) : Prop :=
  ∃ t b x, v.gc t b = some x

open Classical in
/- The number of gc entries of a consistent view. -/
noncomputable def gcCount (v : View) : Int :=
  if v.Collectable then 1 else 0

variable {po : Nat} {v w : View} {d : RetrievalData}
variable {c : Int}

theorem gcCount_of_gc (hGC : v.gc t b = some x) : v.gcCount = 1 :=
  if_pos ⟨t, b, x, hGC⟩

theorem gcCount_of_collectable (hCollectable : v.Collectable) : v.gcCount = 1 :=
  if_pos hCollectable

theorem gcCount_of_not_collectable (hNot : ¬ v.Collectable) : v.gcCount = 0 :=
  if_neg hNot

theorem not_collectable (hGC : ∀ t b, v.gc t b = none) : ¬ v.Collectable := by
  rintro ⟨t, b, x, hSome⟩
  rw [hGC t b] at hSome
  cases hSome

theorem gcCount_eq_zero (hGC : ∀ t b, v.gc t b = none) : v.gcCount = 0 :=
  gcCount_of_not_collectable (not_collectable hGC)

theorem gcCount_congr (hGC : v.gc = w.gc) : v.gcCount = w.gcCount := by
  unfold gcCount Collectable
  rw [hGC]

/- A consistent view has at most one gc entry. -/
theorem Consistent.gc_unique (hCons : v.Consistent po)
    (hGC : v.gc t b = some x) (hGC' : v.gc t' b' = some x') : t = t' ∧ b = b' := by
  rcases hCons.gc t b x hGC with ⟨d, hData, hBin, hAccess, -⟩
  rcases hCons.gc t' b' x' hGC' with ⟨d', hData', hBin', hAccess', -⟩
  rw [hData] at hData'
  rw [hAccess] at hAccess'
  cases hData'
  cases hAccess'
  exact ⟨rfl, hBin.symm.trans hBin'⟩

theorem Gone.gcCount (hGone : Gone v w) : w.gcCount = 0 :=
  gcCount_eq_zero hGone.gc

theorem Pinned.gcCount (hPinned : Pinned v w) : w.gcCount = 0 :=
  gcCount_eq_zero hPinned.gc

theorem Synced.gcCount (hSynced : Synced d v w) : w.gcCount = 0 :=
  gcCount_eq_zero hSynced.gc

/- A stored chunk is counted as its change says. -/
theorem Stored.gcCount (hCons : v.Consistent po) (hData : v.data = none)
    (hStored : Stored po d v c w) : w.gcCount = c := by
  have hNoGC := hCons.gc_eq_none_of_data hData
  cases hStored with
  | uploaded tag pin hPin | pinned time | keptPinned time n hPin => exact gcCount_eq_zero hNoGC
  | cached time hPin =>
    apply gcCount_of_gc (t := time) (b := d.binID)
    exact if_pos ⟨rfl, rfl⟩

/- So is a chunk that was unpinned. -/
theorem Unpinned.gcCount (hCons : v.Consistent po) (hUnpinned : Unpinned v c w) :
    w.gcCount = v.gcCount + c := by
  cases hUnpinned with
  | dropped n hPin hMany | released n hPin hLast =>
    rw [Int.add_zero]
    exact gcCount_congr rfl
  | collectable n d time hPin hLast hData hPush hAccess =>
    rw [gcCount_eq_zero (hCons.gc_eq_none_of_pin hPin)]
    apply gcCount_of_gc (t := time) (b := d.binID)
    exact if_pos ⟨rfl, rfl⟩

/- Moving the access time keeps the number of entries. -/
theorem Touched.gcCount (hTouched : Touched item v w) : w.gcCount = v.gcCount := by
  cases hTouched with
  | same => rfl
  | moved time now x hAccess hGC =>
    rw [gcCount_of_gc hGC]
    apply gcCount_of_gc (t := now) (b := item.binID)
    exact if_pos ⟨rfl, rfl⟩
  | refreshed time now hAccess hGC => exact gcCount_congr rfl

end View

---- The Size Of The Index

section

variable {s' : Store}

/-
  The gc index without the entries of one address, and the number of entries that are missing from
  it.
-/
theorem exists_cleared (hCons : (s.view a).Consistent po) :
    ∃ cleared : Index GCKey GCValue, (∀ key : GCKey, cleared.get key = if key.address = a then none
          else s.gcIndex.get key) ∧
      (s.gcIndex.count : Int) = cleared.count + (s.view a).gcCount := by
  by_cases hCollectable : (s.view a).Collectable
  · rcases hCollectable with ⟨t, b, x, hGC⟩
    have hKey : s.gcIndex.get ⟨t, b, a⟩ = some x := hGC
    refine ⟨s.gcIndex.delete ⟨t, b, a⟩, ?_, ?_⟩
    · rintro ⟨time, bin, address⟩
      rw [Index.get_delete]
      by_cases hAddr : address = a
      · subst hAddr
        rw [if_pos rfl]
        split
        · rfl
        next hNe =>
        cases hSome : s.gcIndex.get ⟨time, bin, address⟩ with
        | none => rfl
        | some y =>
          have hSame := hCons.gc_unique hGC hSome
          exact absurd (by rw [hSame.1, hSame.2]) hNe
      · rw [if_neg hAddr, if_neg]
        intro hEq
        cases hEq
        exact hAddr rfl
    · have hCount := s.gcIndex.count_delete_of_get_eq_some hKey
      rw [View.gcCount_of_gc hGC]
      omega
  · refine ⟨s.gcIndex, ?_, ?_⟩
    · rintro ⟨time, bin, address⟩
      by_cases hAddr : address = a
      · subst hAddr
        rw [if_pos rfl]
        cases hSome : s.gcIndex.get ⟨time, bin, address⟩ with
        | none => rfl
        | some y => exact absurd ⟨time, bin, y, hSome⟩ hCollectable
      · rw [if_neg hAddr]
    · rw [View.gcCount_of_not_collectable hCollectable]
      omega

/-
  Two databases whose gc entries differ at one address only differ in size by the gc entries of that
  address.
-/
theorem count_gcIndex_of_view (hCons : (s.view a).Consistent po)
    (hCons' : (s'.view a).Consistent po) (hOther : ∀ b, b ≠ a → (s'.view b).gc = (s.view b).gc) :
    (s'.gcIndex.count : Int) = s.gcIndex.count + (s'.view a).gcCount - (s.view a).gcCount := by
  rcases exists_cleared hCons with ⟨cleared, hCleared, hCount⟩
  rcases exists_cleared hCons' with ⟨cleared', hCleared', hCount'⟩
  have hSame : cleared' = cleared := by
    ext key : 1
    rw [hCleared, hCleared']
    split
    · rfl
    · next hNe =>
        exact congrFun (congrFun (hOther key.address hNe) key.accessTimestamp) key.binID
  rw [hSame] at hCount'
  omega

/- Records about one address. -/
theorem count_writeBatch (hAbout : About a batch) (hCons : (s.view a).Consistent po)
    (hCons' : (onView a (s.view a) batch).Consistent po) :
    ((s.writeBatch batch).gcIndex.count : Int) =
      s.gcIndex.count + (onView a (s.view a) batch).gcCount - (s.view a).gcCount := by
  rw [← view_writeBatch] at hCons' ⊢
  apply count_gcIndex_of_view hCons hCons'
  intro b hNe
  rw [view_writeBatch, hAbout.onView_of_ne hNe.symm]

/- Counters are no records of the gc index. -/
theorem gcIndex_sizeRecords (s : Store) (size : Nat) (change : Int) :
    (s.writeBatch (sizeRecords .gcSize size change)).gcIndex = s.gcIndex := by
  unfold sizeRecords
  split
  · rfl
  · split <;> rfl

end

---- Changes Reported By The Helpers

variable {cfg : Config}
variable {c : Int}

/-
  A pin takes a chunk out of the gc index: if the chunk is not pinned but has been accessed, it is
  in the index.
-/
def View.PinOk (v : View) : Prop :=
  v.pin = none → v.access ≠ none → v.Collectable

/- `setRemove` looks before it counts. -/
theorem change_planRemove (hCons : (s.view a).Consistent po)
    (hChange : (planRemove cfg s a).change = .ok c) : c = -(s.view a).gcCount := by
  unfold planRemove at hChange
  cases hData : s.retrievalDataIndex.get a with
  | none => simp [hData] at hChange
  | some d =>
    simp only [hData] at hChange
    by_cases hHas : s.gcIndex.has (s.gcKeyOf a d) = true
    · rw [if_pos hHas] at hChange
      cases hChange
      rcases (Index.has_eq_true_iff _ _).mp hHas with ⟨x, hGet⟩
      have hGC : (s.view a).gc (s.accessOf a) d.binID = some x := hGet
      rw [View.gcCount_of_gc hGC]
    · rw [if_neg hHas] at hChange
      cases hChange
      rw [View.gcCount_of_not_collectable]
      · rfl
      rintro ⟨t, b, x, hGC⟩
      apply hHas
      rw [gcKeyOf_of_gc hCons hData hGC]
      exact (Index.has_eq_true_iff _ _).mpr ⟨x, hGC⟩

/- `setPin` counts without looking. -/
theorem change_planPin (hCons : (s.view a).Consistent po) (hPinOk : (s.view a).PinOk)
    (hChange : (planPin s a).change = .ok c) : c = -(s.view a).gcCount := by
  unfold planPin at hChange
  cases hPin : s.pinIndex.get a with
  | some n =>
    simp only [hPin] at hChange
    cases hChange
    rw [View.gcCount_eq_zero (hCons.gc_eq_none_of_pin hPin)]
    rfl
  | none =>
    cases hAccess : s.retrievalAccessIndex.get a with
    | none =>
      simp only [hPin, hAccess] at hChange
      cases hChange
      rw [View.gcCount_eq_zero (hCons.gc_eq_none_of_access hAccess)]
      rfl
    | some t =>
      have hCollectable : (s.view a).Collectable := by
        apply hPinOk hPin
        simp [Store.view, hAccess]
      cases hData : s.retrievalDataIndex.get a with
      | none => simp [hPin, hAccess, hData] at hChange
      | some d =>
        simp only [hPin, hAccess, hData] at hChange
        cases hChange
        rw [View.gcCount_of_collectable hCollectable]

/- The modes of `Set` that pin chunks. -/
def ModeSet.pins : ModeSet → Bool
| .sync => true
| .pin => true
| _ => false

/- A receipt reports what its pin reports. -/
theorem change_planSync (hData : s.retrievalDataIndex.get a = some d)
    (hChange : (planSync cfg s a now).change = .ok c) : (planPin s a).change = .ok c := by
  simp only [planSync, hData] at hChange
  cases hTag : syncTag cfg s a d with
  | error e => simp [hTag] at hChange
  | ok _ =>
    cases hAccess : s.retrievalAccessIndex.get a with
    | none | some t => simpa [hTag, hAccess] using hChange

/- Every mode of `Set` reports the change of one view. -/
theorem change_planSet (hCons : (s.view a).Consistent (cfg.po a))
    (hPinOk : mode.pins = true → (s.view a).PinOk)
    (hChange : (planSet cfg mode s a now).change = .ok c) :
    c = (onView a (s.view a) (planSet cfg mode s a now).records).gcCount - (s.view a).gcCount := by
  cases mode with
  | remove =>
    have hGone := gone_of_planRemove hCons (.refl _) hChange
    have hCount := change_planRemove hCons hChange
    simp only [planSet, hGone.gcCount]
    omega
  | pin =>
    have hPinned := pinned_of_planPin hCons hChange
    have hCount := change_planPin hCons (hPinOk rfl) hChange
    simp only [planSet, hPinned.gcCount]
    omega
  | unpin =>
    have hUnpinned := unpinned_of_planUnpin hCons hChange
    have hCount := hUnpinned.gcCount hCons
    simp only [planSet, hCount]
    omega
  | unknown => cases hChange
  | sync =>
    cases hData : s.retrievalDataIndex.get a with
    | none =>
      simp only [planSet, planSync, hData] at hChange ⊢
      cases hChange
      rw [View.gcCount_congr (v := onView a _ _) (w := s.view a) (by simp)]
      omega
    | some d =>
      have hSynced := synced_of_planSync hCons hData hChange
      have hPin := change_planSync hData hChange
      have hCount := change_planPin hCons (hPinOk rfl) hPin
      simp only [planSet, hSynced.gcCount]
      omega

end Sana.Localstore

---- Set Calls

namespace Sana.Localstore

open KeyValue Program Swarm

variable {cfg : Config} {s : Store}

section

/- The gc size is the number of entries of the gc index. -/
def Store.Counted (s : Store) : Prop :=
  s.gcSize = s.gcIndex.count

/-
  Unpinning a chunk makes it collectable: the pin is its last one and the chunk does not wait to be
  pushed.
-/
def View.Releases (v : View) : Prop :=
  ∃ n d, v.pin = some n ∧ n ≤ 1 ∧ v.data = some d ∧ v.push d.storeTimestamp = none

/- A mode leaves the gc entry of a chunk alone. -/
def View.Steady (mode : ModeSet) (v : View) : Prop :=
  match mode with
  | .unpin => ¬ v.Releases
  | _ => ¬ v.Collectable

/-
  A set call counts right: an address whose gc entry the call changes occurs once among its
  addresses, and an address to be pinned has a gc entry if its chunk can have one.
-/
structure SetCounts (mode : ModeSet) (s : Store) (addrs : List Address) : Prop where
  once : ∀ a ∈ addrs, 1 < addrs.count a → (s.view a).Steady mode
  pinOk : mode.pins = true → ∀ a ∈ addrs, (s.view a).PinOk

variable {w : Store}

/- Steady chunks do not change the gc size. -/
theorem change_of_steady
    (hCons : (s.view a).Consistent (cfg.po a)) (hPinOk : mode.pins = true → (s.view a).PinOk)
    (hSteady : (s.view a).Steady mode) (hChange : (planSet cfg mode s a now).change = .ok c) :
    c = 0 := by
  cases mode with
  | unknown => simp [planSet] at hChange
  | remove =>
    rw [change_planRemove hCons hChange, View.gcCount_of_not_collectable hSteady]
    rfl
  | pin =>
    rw [change_planPin hCons (hPinOk rfl) hChange, View.gcCount_of_not_collectable hSteady]
    rfl
  | sync =>
    cases hData : s.retrievalDataIndex.get a with
    | none =>
      simp only [planSet, planSync, hData, Except.ok.injEq] at hChange
      exact hChange.symm
    | some d =>
      rw [change_planPin hCons (hPinOk rfl) (change_planSync hData hChange),
        View.gcCount_of_not_collectable hSteady]
      rfl
  | unpin =>
    have hUnpinned := unpinned_of_planUnpin hCons hChange
    generalize onView a (s.view a) _ = v at hUnpinned
    cases hUnpinned with
    | dropped n hPin hMany | released n hPin hLast => rfl
    | collectable n d time hPin hLast hData hPush hAccess =>
      exact absurd ⟨n, d, hPin, hLast, hData, hPush⟩ hSteady

/- The views in the middle of a set call. -/
def SetMiddle (cfg : Config) (mode : ModeSet) (s w : Store) (a : Address) : Prop :=
  w.view a = s.view a ∨
    ∃ now c, (planSet cfg mode s a now).change = .ok c ∧
      w.view a = onView a (s.view a) (planSet cfg mode s a now).records

/- Treating an address again has the same outcome. -/
theorem SetMiddle.onView_eq
    (hCons : (s.view a).Consistent (cfg.po a)) (hMiddle : SetMiddle cfg mode s w a) :
    onView a (w.view a) (planSet cfg mode s a now).records =
      onView a (s.view a) (planSet cfg mode s a now).records := by
  rcases hMiddle with hSame | ⟨now', -, -, hDone⟩
  · rw [hSame]
  · rw [hDone]
    exact onView_planSet_repeat hCons now' now _

/- One address of a set call. -/
theorem count_planSet
    (hCons : (s.view a).Consistent (cfg.po a)) (hPinOk : mode.pins = true → (s.view a).PinOk)
    (hMiddle : SetMiddle cfg mode s w a) (hFresh : w.view a = s.view a ∨ (s.view a).Steady mode)
    (hChange : (planSet cfg mode s a now).change = .ok c) :
    ((w.writeBatch (planSet cfg mode s a now).records).gcIndex.count : Int) =
      w.gcIndex.count + c := by
  have hNew :
      onView a (w.view a) (planSet cfg mode s a now).records =
        onView a (s.view a) (planSet cfg mode s a now).records := hMiddle.onView_eq hCons
  have hNewCons :
      (onView a (w.view a) (planSet cfg mode s a now).records).Consistent (cfg.po a) := by
    rw [hNew]
    exact (setView_of_planSet hCons hChange).consistent hCons
  have hOldCons : (w.view a).Consistent (cfg.po a) := by
    rcases hMiddle with hSame | ⟨now', c', hOk, hDone⟩
    · rw [hSame]
      exact hCons
    · rw [hDone]
      exact (setView_of_planSet hCons hOk).consistent hCons
  rw [count_writeBatch (about_planSet cfg mode s a now) hOldCons hNewCons, hNew]
  have hDiff := change_planSet hCons hPinOk hChange
  have hOld : (w.view a).gcCount = (s.view a).gcCount := by
    rcases hMiddle with hSame | ⟨now', c', hOk, hDone⟩
    · rw [hSame]
    rcases hFresh with hSame | hSteady
    · rw [hSame]
    · have hDiff' := change_planSet hCons hPinOk hOk
      rw [change_of_steady hCons hPinOk hSteady hOk] at hDiff'
      rw [hDone]
      omega
  omega

theorem count_planSetAll (hCons : s.Consistent cfg) (hCounts : SetCounts mode s addrs)
    (hChange : (planSetAll cfg mode s addrs clock).change = .ok c) :
    let after := s.writeBatch (planSetAll cfg mode s addrs clock).records
    (after.gcIndex.count : Int) = s.gcIndex.count + c ∧ after.gcSize = s.gcSize := by
  refine (planSetAll_invariant
    (fun done batch c => ((∀ a, SetMiddle cfg mode s (s.writeBatch batch) a) ∧
      ∀ a ∉ done, (s.writeBatch batch).view a = s.view a) ∧
      ((s.writeBatch batch).gcIndex.count : Int) = s.gcIndex.count + c ∧
      (s.writeBatch batch).gcSize = s.gcSize)
    hChange ⟨⟨fun _ => Or.inl rfl, fun _ _ => rfl⟩, (Int.add_zero _).symm, rfl⟩ ?_).2
  rintro done b rest batch c₁ c₂ n rfl ⟨⟨hMiddle, hFresh⟩, hCount, hSize⟩ hOk
  have hMem : b ∈ done ++ b :: rest := List.mem_append_right done List.mem_cons_self
  have hAbout := about_planSet cfg mode s b (clock n)
  have hSteady : (s.writeBatch batch).view b = s.view b ∨ (s.view b).Steady mode := by
    by_cases hDone : b ∈ done
    · have hPos := List.count_pos_iff.mpr hDone
      refine Or.inr (hCounts.once b hMem ?_)
      rw [List.count_append, List.count_cons_self]
      omega
    · exact Or.inl (hFresh b hDone)
  have hOne := count_planSet (hCons b) (fun hPins => hCounts.pinOk hPins b hMem) (hMiddle b)
    hSteady hOk
  have hOther : ∀ a, a ≠ b → ((s.writeBatch batch).writeBatch
      (planSet cfg mode s b (clock n)).records).view a = (s.writeBatch batch).view a := by
    intro a hNe
    rw [view_writeBatch, hAbout.onView_of_ne hNe.symm]
  rw [Store.writeBatch_append]
  refine ⟨⟨fun a => ?_, fun a hNot => ?_⟩, by omega, (hAbout.gcSize_writeBatch _).trans hSize⟩
  · by_cases hEq : a = b
    · subst hEq
      refine Or.inr ⟨clock n, c₂, hOk, ?_⟩
      rw [view_writeBatch]
      exact (hMiddle a).onView_eq (hCons a)
    · unfold SetMiddle
      rw [hOther a hEq]
      exact hMiddle a
  · simp only [List.mem_append, List.mem_singleton, not_or] at hNot
    rw [hOther a hNot.2]
    exact hFresh a hNot.1

/- The size record, when it does not fall below zero. -/
theorem gcSize_sizeRecords (hSize : w.gcSize = size) (hLow : 0 ≤ (size : Int) + c) :
    ((w.writeBatch (sizeRecords .gcSize size c)).gcSize : Int) = size + c := by
  unfold sizeRecords changedSize
  by_cases hZero : c = 0
  · simp [hZero, hSize]
  rw [if_neg hZero]
  by_cases hPos : 0 < c
  · simp only [if_pos hPos, Store.writeBatch_cons, Store.writeBatch_nil, Store.write]
    omega
  · have hGuard : ¬ (-c).toNat > size := by omega
    simp only [if_neg hPos, if_neg hGuard, Store.writeBatch_cons, Store.writeBatch_nil, Store.write]
    omega

/- Writing the size last makes it right again. -/
theorem counted_sizeRecords (hCounted : s.Counted)
    (hCount : (w.gcIndex.count : Int) = s.gcIndex.count + c) (hSize : w.gcSize = s.gcSize) :
    (w.writeBatch (sizeRecords .gcSize s.gcSize c)).Counted := by
  have hLow : 0 ≤ (s.gcSize : Int) + c := by
    rw [hCounted]
    omega
  have hNew := gcSize_sizeRecords hSize hLow
  unfold Store.Counted
  rw [gcIndex_sizeRecords]
  rw [hCounted] at hNew ⊢
  omega

end

---- Put Calls

section

/- The modes of `Put` that report what they remove. -/
def ModePut.reports : ModePut → Bool
| .request => true
| .requestPin => true
| .requestCache => true
| _ => false

/-
  A put call counts right.  The modes that drop the change of a removal displace no chunk with a gc
  entry; the others displace such a chunk at most once.  A chunk to be pinned has a gc entry if it
  can have one.
-/
structure PutCounts (mode : ModePut) (s : Store) (chs : List Chunk) : Prop where
  dropped :
    mode.reports = false → ∀ ch ∈ chs, ∀ p, s.displaced ch = some p → ¬ (s.view p).Collectable
  once :
    ∀ ch ∈ chs, ∀ ch' ∈ chs, ch.address ≠ ch'.address →
      ∀ p, s.displaced ch = some p → s.displaced ch' = some p → ¬ (s.view p).Collectable
  pinOk : mode = .uploadPin → ∀ ch ∈ chs, (s.view ch.address).PinOk

variable {mode : ModePut}
variable {seen : List Chunk} {ch : Chunk}

/- No gc entry appears at a stored chunk during a put. -/
theorem PutView.not_collectable
    (hData : s.retrievalDataIndex.get a = some d) (hNot : ¬ (s.view a).Collectable)
    (hView : PutView cfg mode s seen a v) : ¬ v.Collectable := by
  rintro ⟨t, b, x, hGC⟩
  rcases (hView.within hData).gc t b with hNone | hEq
  · rw [hNone] at hGC
    cases hGC
  · exact hNot ⟨t, b, x, hEq.symm.trans hGC⟩

/- The chunk that is displaced still has the gc entry that the reported change counts. -/
theorem gcCount_displaced (hCons : s.Consistent cfg)
    (hCounts : PutCounts mode s (seen ++ [ch])) (hSeen : containsChunk ch.address seen = false)
    (hDisplaced : s.displaced ch = some p) (hChange : (planRemove cfg s p).change = .ok c)
    (hView : PutView cfg mode s seen p v) : v.gcCount = -(Previous.removed c).reported mode := by
  rcases data_of_planRemove hChange with ⟨d, hData⟩
  by_cases hCollectable : (s.view p).Collectable
  · cases hReports : mode.reports with
    | false => exact absurd hCollectable (hCounts.dropped hReports ch (by simp) p hDisplaced)
    | true =>
      have hReported : (Previous.removed c).reported mode = c := by
        cases mode <;> first | rfl | cases hReports
      have hSame : v = s.view p := by
        cases hView with
        | same => rfl
        | stored ch' d' c' hMem hAddress hNone =>
          rw [hNone] at hData
          cases hData
        | gone ch' d' hMem hDisplaced' hData' hGone =>
          refine absurd hCollectable
            (hCounts.once ch (by simp) ch' (List.mem_append_left _ hMem) ?_ p
              hDisplaced hDisplaced')
          exact (containsChunk_eq_false hSeen ch' hMem).symm
        | pinned ch' hMem hAddress hMode hPinned =>
          rw [hMode] at hReports
          cases hReports
      rw [hSame, hReported, change_planRemove (hCons p) hChange]
      omega
  · rw [View.gcCount_of_not_collectable (hView.not_collectable hData hCollectable)]
    have hZero : c = 0 := by
      rw [change_planRemove (hCons p) hChange, View.gcCount_of_not_collectable hCollectable]
      rfl
    subst hZero
    cases mode <;> rfl

/- A pin on top of an upload. -/
theorem count_uploadPin {w : Store} (hCons : s.Consistent cfg)
    (hCounts : PutCounts mode s (seen ++ [ch])) (hSeen : containsChunk ch.address seen = false)
    (hPin : (planUploadPin mode s ch.address).change = .ok c)
    (hView : PutView cfg mode s seen ch.address (w.view ch.address)) :
    ((w.writeBatch (planUploadPin mode s ch.address).records).gcIndex.count : Int) =
      w.gcIndex.count + c := by
  have hNew := hView.of_uploadPin (hCons _) rfl hSeen hPin
  by_cases hMode : mode = .uploadPin
  · rw [count_writeBatch (about_planUploadPin ch.address) (hView.consistent (hCons _))
      (hNew.consistent (hCons _))]
    have hPlan : planUploadPin mode s ch.address = planPin s ch.address := if_pos hMode
    rw [hPlan] at hPin ⊢
    have hChange := change_planPin (hCons _) (hCounts.pinOk hMode ch (by simp)) hPin
    rcases hView.untreated hSeen with hSame | ⟨ch', d, hMem, hDisplaced, hData, hGone⟩
    · rw [hSame, onView_planPin (hCons _) hPin (by exact fun _ _ => Or.inr rfl),
        View.gcCount_eq_zero (by exact fun _ _ => rfl)]
      omega
    · have hNot := hCounts.dropped (by rw [hMode]; rfl) ch'
        (List.mem_append_left _ hMem) _ hDisplaced
      rw [View.gcCount_of_not_collectable hNot] at hChange
      rw [hGone.gcCount, onView_planPin (hCons _) hPin (by exact fun t b => Or.inl (hGone.gc t b)),
        View.gcCount_eq_zero (by exact fun _ _ => rfl)]
      omega
  · have hPlan :
        planUploadPin mode s ch.address = { records := [], change := .ok 0 } := if_neg hMode
    rw [hPlan] at hPin ⊢
    cases hPin
    simp

/- Making room for a chunk. -/
theorem count_removal {w : Store} (hCons : s.Consistent cfg)
    (hCounts : PutCounts mode s (seen ++ [ch])) (hSeen : containsChunk ch.address seen = false)
    (hViews : ∀ a, PutView cfg mode s seen a (w.view a))
    (hReplaced : Replaced cfg s ch previous removal) :
    ((w.writeBatch removal).gcIndex.count : Int) = w.gcIndex.count + previous.reported mode ∧
      (w.writeBatch removal).gcSize = w.gcSize := by
  cases hReplaced with
  | absent hIndex =>
    have hZero : Previous.absent.reported mode = 0 := by cases mode <;> rfl
    rw [hZero]
    exact ⟨by simp, rfl⟩
  | removed p c hDisplaced hChange =>
    rcases data_of_planRemove hChange with ⟨d, hData⟩
    have hAbout := about_planRemove cfg s p
    have hGone := gone_of_planRemove (hCons p) ((hViews p).within hData) hChange
    have hOld := gcCount_displaced hCons hCounts hSeen hDisplaced hChange (hViews p)
    rw [count_writeBatch hAbout ((hViews p).consistent (hCons p)) hGone.consistent,
      hGone.gcCount]
    exact ⟨by omega, hAbout.gcSize_writeBatch w⟩

/- One chunk of a put call. -/
theorem count_planPut {w : Store} (hCons : s.Consistent cfg)
    (hCounts : PutCounts mode s (seen ++ [ch]))
    (hSeen : containsChunk ch.address seen = false)
    (hViews : ∀ a, PutView cfg mode s seen a (w.view a))
    (hOk : (planPut cfg mode s binIDs ch clock).outcome = .ok (exist, c)) :
    let after := w.writeBatch (planPut cfg mode s binIDs ch clock).records
    (after.gcIndex.count : Int) = w.gcIndex.count + c ∧ after.gcSize = w.gcSize := by
  rcases planPut_cases hOk with ⟨base, c₁, c₂, hCase, hBase, hPin, rfl, hPlan⟩
  have hPinCount := count_uploadPin hCons hCounts hSeen hPin (hViews ch.address)
  have hPinAbout : About ch.address (planUploadPin mode s ch.address).records :=
    about_planUploadPin ch.address
  rw [hPlan]
  cases hCase with
  | existed hHas | kept hData hAccepts =>
    cases hBase
    refine ⟨?_, hPinAbout.gcSize_writeBatch w⟩
    simpa using hPinCount
  | stored previous removal hData hAccepts hReplaced =>
    have hRemoval := count_removal hCons hCounts hSeen hViews hReplaced
    have hView : (w.writeBatch removal).view ch.address = s.view ch.address := by
      rw [view_writeBatch, (hViews ch.address).eq_of_data hData hSeen]
      exact onView_removal_of_data hReplaced hData
    have hStored := stored_of_planStore (hCons _) hData hBase hPin
    have hAbout :
        About ch.address
          ((planStore cfg mode s binIDs ch previous clock).records ++
            (planUploadPin mode s ch.address).records) := about_planStore.append hPinAbout
    rw [← onView_append, ← hView] at hStored
    have hCount := count_writeBatch hAbout (hView ▸ hCons ch.address)
      (hStored.consistent (hView ▸ hCons ch.address) (by rw [hView]; exact hData))
    rw [hStored.gcCount (hView ▸ hCons ch.address) (by rw [hView]; exact hData), hView,
      View.gcCount_eq_zero ((hCons ch.address).gc_eq_none_of_data hData)] at hCount
    rw [List.append_assoc, Store.writeBatch_append]
    refine ⟨?_, ?_⟩
    · omega
    · rw [hAbout.gcSize_writeBatch, hRemoval.2]

theorem PutCounts.mono (hSub : ∀ ch ∈ chs, ch ∈ chs')
    (hCounts : PutCounts mode s chs') : PutCounts mode s chs where
  dropped := fun hReports ch hMem => hCounts.dropped hReports ch (hSub ch hMem)
  once := fun ch hMem ch' hMem' => hCounts.once ch (hSub ch hMem) ch' (hSub ch' hMem')
  pinOk := fun hMode ch hMem => hCounts.pinOk hMode ch (hSub ch hMem)

/- The whole loop over the chunks of a put call. -/
theorem count_planPutAll (hResult : (planPutAll cfg mode s [] chs {} clock).result = .ok st)
    (hCons : s.Consistent cfg) (hCounts : PutCounts mode s chs) :
    ((s.writeBatch st.batch).gcIndex.count : Int) = s.gcIndex.count + st.gcSizeChange ∧
      (s.writeBatch st.batch).gcSize = s.gcSize := by
  have hAll := planPutAll_invariant (fun seen st =>
      (∀ a, PutView cfg mode s seen a ((s.writeBatch st.batch).view a)) ∧
        (PutCounts mode s seen →
          ((s.writeBatch st.batch).gcIndex.count : Int) = s.gcIndex.count + st.gcSizeChange ∧
            (s.writeBatch st.batch).gcSize = s.gcSize)) hResult
    ⟨fun _ => .same, fun _ => ⟨(add_zero _).symm, rfl⟩⟩
    (fun hInv _ => ⟨fun a => (hInv.1 a).mono fun _ hMem => List.mem_append_left _ hMem,
      fun hCounts => hInv.2 (hCounts.mono fun _ hMem => List.mem_append_left _ hMem)⟩)
    (fun _ hInv hSeen hOk => ⟨fun a => ?_, fun hCounts => ?_⟩)
  · exact hAll.2 hCounts
  · simp only [PutState.next, Store.writeBatch_append]
    rw [view_writeBatch]
    exact putView_planPut hCons hSeen hOk (hInv.1 a)
  · have hStep := count_planPut hCons hCounts hSeen hInv.1 hOk
    have hBefore := hInv.2 (hCounts.mono fun _ hMem => List.mem_append_left _ hMem)
    simp only [PutState.next, Store.writeBatch_append]
    rw [hStep.1, hStep.2, hBefore.2]
    exact ⟨by omega, rfl⟩

end

---- Unreserving And Collecting

/- Neutral records touch neither the size nor the index. -/
theorem writeBatch_of_neutral (hNeutral : ∀ record ∈ batch, record.neutral = true) (s : Store) :
    (s.writeBatch batch).gcSize = s.gcSize ∧ (s.writeBatch batch).gcIndex = s.gcIndex := by
  refine Prod.mk.inj (writeBatch_keeps (fun s => (s.gcSize, s.gcIndex)) (fun record hMem s => ?_) s)
  have hRecord := hNeutral record hMem
  cases record <;> first | rfl | cases hRecord

theorem counted_of_neutral (hNeutral : ∀ record ∈ batch, record.neutral = true)
    (hCounted : s.Counted) : (s.writeBatch batch).Counted := by
  have hSame := writeBatch_of_neutral hNeutral s
  unfold Store.Counted
  rw [hSame.1, hSame.2]
  exact hCounted

/- Unpinning chunks of one bin. -/
theorem count_planUnpinAll {w : Store} {addrs : List Address} (hCons : s.Consistent cfg)
    (hNodup : addrs.Nodup) (hData : ∀ a ∈ addrs, (s.view a).data ≠ none)
    (hFresh : ∀ a ∈ addrs, w.view a = s.view a) :
    let after := w.writeBatch (addrs.flatMap fun a => (planUnpin s a 0).records)
    (after.gcIndex.count : Int) =
        w.gcIndex.count + (addrs.map fun a => (planUnpin s a 0).change.toOption.getD 0).sum ∧
      after.gcSize = w.gcSize := by
  induction addrs generalizing w with
  | nil => simp
  | cons a addrs ih =>
    rw [List.nodup_cons] at hNodup
    have hAbout := about_planUnpin s a 0
    have hHere := hFresh a List.mem_cons_self
    have hRest : ∀ b ∈ addrs, (w.writeBatch (planUnpin s a 0).records).view b = s.view b := by
      intro b hMem
      have hNe : a ≠ b := by
        rintro rfl
        exact hNodup.1 hMem
      rw [view_writeBatch, hAbout.onView_of_ne hNe]
      exact hFresh b (List.mem_cons_of_mem a hMem)
    have hTail := ih hNodup.2 (fun b hMem => hData b (List.mem_cons_of_mem a hMem)) hRest
    have hFirst : ((w.writeBatch (planUnpin s a 0).records).gcIndex.count : Int) =
        w.gcIndex.count + (planUnpin s a 0).change.toOption.getD 0 := by
      rcases unpinView_cases (hCons a) (hData a List.mem_cons_self) with
        ⟨hPin, -⟩ | ⟨c, hChange, hUnpinned⟩
      · have hGet : s.pinIndex.get a = none := hPin
        simp [planUnpin, hGet, Except.toOption]
      · have hStep := count_writeBatch hAbout (hHere ▸ hCons a)
          (hHere ▸ hUnpinned.consistent (hCons a))
        have hNew := hUnpinned.gcCount (hCons a)
        rw [Store.unpinView] at hNew
        rw [hHere] at hStep
        rw [hChange]
        change _ = _ + c
        omega
    dsimp only at hTail ⊢
    rw [List.flatMap_cons, Store.writeBatch_append, List.map_cons, List.sum_cons, hTail.1, hTail.2,
      hAbout.gcSize_writeBatch]
    exact ⟨by omega, rfl⟩

section

variable (hCons : s.Consistent cfg)
include hCons

theorem counted_afterBin (hCounted : s.Counted) (id : BatchID)
    (bin : Nat) : (s.afterBin id bin).Counted := by
  have hData : ∀ a ∈ s.chunksInBin id bin, (s.view a).data ≠ none := by
    intro a hMem
    rcases (hCons a).chunks id bin ((mem_chunksInBin_iff s id bin a).mp hMem) with ⟨d, hSome, -⟩
    rw [hSome]
    simp
  have hCount := count_planUnpinAll hCons (nodup_chunksInBin s id bin) hData fun _ _ => rfl
  unfold Store.afterBin Store.binRecords Store.unpinBin
  rw [List.append_assoc, Store.writeBatch_append, Store.writeBatch_append s, planUnpinAll_eq,
    zero_add]
  apply counted_of_neutral
  · intro record hMem
    split at hMem <;> simp at hMem
    · rcases hMem with rfl | rfl <;> rfl
    · rw [hMem]
      rfl
  · exact counted_sizeRecords hCounted hCount.1 hCount.2

theorem counted_afterBins (hCounted : s.Counted) (id : BatchID)
    (bin count : Nat) : (s.afterBins id bin count).Counted := by
  induction count generalizing s bin with
  | zero => exact hCounted
  | succ count ih =>
    exact ih (consistent_afterBin hCons id bin) (counted_afterBin hCons hCounted id bin) (bin + 1)

theorem counted_afterUnreserve (hCounted : s.Counted) (id : BatchID)
    (radius : Nat) : (s.afterUnreserve id radius).Counted := by
  apply counted_of_neutral
  · intro record hMem
    rcases List.mem_append.mp hMem with hMem | hMem
    · split at hMem
      · rw [List.mem_singleton.mp hMem]
        rfl
      · cases hMem
    · split at hMem
      · unfold sizeRecords at hMem
        split at hMem
        · cases hMem
        · split at hMem
          · cases hMem
          · rw [List.mem_singleton.mp hMem]
            rfl
      · cases hMem
  · exact counted_afterBins hCons hCounted id _ _

/- Different candidates are different chunks. -/
theorem nodup_candidates {candidates : List Item}
    (hKeys : (candidates.map Item.gcKey).Nodup)
    (hGC :
      ∀ item ∈ candidates,
        (s.view item.address).gc item.accessTimestamp
          item.binID = some ⟨item.batchID, item.index⟩) : (candidates.map Item.address).Nodup := by
  rw [List.Nodup, List.pairwise_map] at hKeys ⊢
  refine hKeys.imp_of_mem ?_
  intro left right hLeft hRight hNe hEq
  have hLeftGC := hGC left hLeft
  have hRightGC := hGC right hRight
  rw [← hEq] at hRightGC
  have hSame := (hCons left.address).gc_unique hLeftGC hRightGC
  apply hNe
  simp only [Item.gcKey, hSame.1, hSame.2, hEq]

/- Deleting candidates that still have their gc entries. -/
theorem count_collect {collected : List Item}
    (hNodup : (collected.map Item.address).Nodup)
    (hGC :
      ∀ item ∈ collected,
        (s.view item.address).gc item.accessTimestamp
          item.binID = some ⟨item.batchID, item.index⟩) :
    let after := s.writeBatch (collected.flatMap (collectRecords cfg))
    (after.gcIndex.count : Int) = s.gcIndex.count - collected.length ∧ after.gcSize = s.gcSize := by
  induction collected generalizing s with
  | nil => simp
  | cons item collected ih =>
    have hNot := (List.nodup_cons.mp hNodup).1
    have hAbout := about_collectRecords cfg item
    have hHere := hGC item (List.mem_cons_self ..)
    have hGone := (gone_of_collectRecords (hCons item.address) (Or.inl hHere) (Or.inl rfl)).1
    have hCount := count_writeBatch hAbout (hCons item.address) hGone.consistent
    rw [hGone.gcCount, View.gcCount_of_gc hHere] at hCount
    have hCons' : (s.writeBatch (collectRecords cfg item)).Consistent cfg := by
      intro a
      rw [view_writeBatch]
      by_cases hEq : item.address = a
      · subst hEq
        exact hGone.consistent
      · rw [hAbout.onView_of_ne hEq]
        exact hCons a
    have hGC' :
        ∀ other ∈ collected,
          ((s.writeBatch (collectRecords cfg item)).view
            other.address).gc other.accessTimestamp other.binID =
            some ⟨other.batchID, other.index⟩ := by
      intro other hMem
      have hNe : item.address ≠ other.address := by
        intro hEq
        apply hNot
        rw [hEq]
        exact List.mem_map_of_mem hMem
      rw [view_writeBatch, hAbout.onView_of_ne hNe]
      exact hGC other (List.mem_cons_of_mem item hMem)
    have hRest := ih hCons' (List.nodup_cons.mp hNodup).2 hGC'
    dsimp only at hRest ⊢
    rw [List.flatMap_cons, Store.writeBatch_append, hRest.1, hRest.2, List.length_cons]
    exact ⟨by omega, rfl⟩

theorem counted_planCommit (hCounted : s.Counted)
    (hNodup : (collected.map Item.address).Nodup)
    (hGC :
      ∀ item ∈ collected,
        (s.view item.address).gc item.accessTimestamp
          item.binID = some ⟨item.batchID, item.index⟩) :
    (s.writeBatch (planCommit cfg s collected)).Counted := by
  have hCount := count_collect hCons hNodup hGC
  unfold planCommit Store.Counted
  rw [Store.writeBatch_append]
  simp only [Store.writeBatch_cons, Store.writeBatch_nil, Store.write, sub64]
  rw [hCounted]
  split <;> omega

end

---- All Operations

variable {s' : Store}

/- The update of an item that is fresh moves one entry. -/
theorem counted_planUpdateGC (hCons : s.Consistent cfg) (hCounted : s.Counted)
    (hItem : item.accessTimestamp = 0) (hFresh : (s.view item.address).Fresh item) (now : Nat) :
    (s.writeBatch (planUpdateGC s item now).records).Counted := by
  have hAbout : About item.address (planUpdateGC s item now).records := about_planUpdateGC now
  have hTouched := touched_of_planUpdateGC (s := s) hItem now
  have hCount := count_writeBatch hAbout (hCons item.address)
    (hTouched.consistent (hCons item.address) hFresh)
  rw [hTouched.gcCount] at hCount
  have hSize := hAbout.gcSize_writeBatch s
  unfold Store.Counted at hCounted ⊢
  omega

/- An operation counts every gc entry it changes once. -/
def CountsOnce (op : Op) (s : Store) : Prop :=
  match op with
  | .put mode chs => PutCounts mode s chs
  | .set mode addrs => SetCounts mode s addrs
  | _ => True

/- Such an operation keeps the gc size right. -/
theorem StoreStep.counted (hCons : s.Consistent cfg) (hCounted : s.Counted)
    (hOnce : CountsOnce op s) (hStep : StoreStep cfg s op s') : s'.Counted := by
  cases hStep with
  | putExisting mode ch hData | collectNothing => exact hCounted
  | put mode chs clock st hResult =>
    have hCount := count_planPutAll hResult hCons hOnce
    have hNeutral : ∀ record ∈ (st.binIDs.entries.map fun entry =>
            Write.binID entry.1 entry.2),
          record.neutral = true := by
      intro record hMem
      rcases List.mem_map.mp hMem with ⟨entry, -, rfl⟩
      rfl
    have hBinIDs := writeBatch_of_neutral hNeutral (s.writeBatch st.batch)
    unfold PutState.allRecords
    rw [Store.writeBatch_append, Store.writeBatch_append]
    apply counted_sizeRecords hCounted
    · rw [hBinIDs.2]
      exact hCount.1
    · rw [hBinIDs.1]
      exact hCount.2
  | set mode addrs clock c hChange =>
    have hCount := count_planSetAll hCons hOnce hChange
    rw [Store.writeBatch_append]
    exact counted_sizeRecords hCounted hCount.1 hCount.2
  | getRequest a d now hData =>
    have hFresh : (s.view (readItem a d).address).Fresh (readItem a d) :=
      fresh_readItem (hCons a) hData
    exact counted_planUpdateGC hCons hCounted rfl hFresh now
  | unreserveBatch id radius => exact counted_afterUnreserve hCons hCounted id radius
  | collectGarbage candidates hSnapshot =>
    have hGC := fun item (hMem : item ∈ candidates) => gc_of_mem_planSnapshot hSnapshot hMem
    exact counted_planCommit hCons hCounted
      (nodup_candidates hCons (nodup_planSnapshot hSnapshot) hGC) hGC

/-
  In every run whose operations count each gc entry once, the persisted gc size is the number of
  entries.
-/
theorem gcSize_eq_count {db : DB}
    (hReach : Reachable cfg (fun op db => CountsOnce op db.store) db) :
    db.store.gcSize = db.store.gcIndex.count :=
  (hReach.store_invariant Store.Counted rfl fun _ _ _ hCons hCounted hOnce hStep =>
      hStep.counted hCons hCounted hOnce).1

/- A run that caches one chunk. -/
def cachedRun : DB :=
  DB.empty.after smallConfig (fun _ => 1) (.put .requestCache [smallChunk 1 0 1])

/- Pinning the cached chunk takes it out of the gc index. -/
def cachedPinnedRun : DB :=
  cachedRun.after smallConfig (fun _ => 2) (.set .pin [1])

theorem gcSize_eq_count_cachedPinnedRun :
    cachedPinnedRun.store.gcSize = cachedPinnedRun.store.gcIndex.count := by
  have hPut : PutCounts .requestCache DB.empty.store [smallChunk 1 0 1] := by
    constructor
    · intro hReports
      cases hReports
    · intro ch hMem ch' hMem' hNe
      rw [List.mem_singleton.mp hMem, List.mem_singleton.mp hMem'] at hNe
      exact absurd rfl hNe
    · intro hMode
      cases hMode
  have hSet : SetCounts .pin cachedRun.store [1] := by
    constructor
    · intro a hMem hMany
      rw [List.mem_singleton.mp hMem] at hMany
      exact absurd hMany (by decide)
    · intro _ a hMem _ _
      rw [List.mem_singleton.mp hMem]
      exact ⟨1, 1, ⟨7, 0⟩, by decide⟩
  exact gcSize_eq_count ((Reachable.after .start _ _ hPut (by decide)).after _ _ hSet (by decide))

/-
  The operations without a restriction: an upload that takes over the stamp index of a cached chunk
  removes its gc entry and leaves the gc size as it is.
-/
def takenOverRun : DB :=
  cachedRun.after smallConfig (fun _ => 2) (.put .upload [smallChunk 2 0 2])

theorem gcSize_ne_count_of_upload :
    ¬ ∀ (cfg : Config) (db : DB),
      Reachable cfg (fun _ _ => True) db → db.store.gcSize = db.store.gcIndex.count := by
  intro hAll
  have hCached : Reachable smallConfig (fun _ _ => True) cachedRun :=
    Reachable.after .start _ _ trivial (by decide)
  have hTakenOver : Reachable smallConfig (fun _ _ => True) takenOverRun :=
    hCached.after _ _ trivial (by decide)
  have hEq := hAll smallConfig takenOverRun hTakenOver
  exact absurd hEq (by decide)

end Sana.Localstore
