import Sana.Localstore.Plan

/-
  The database as seen from one address.

  Most indexes are keyed by an address.  The view of an address collects what they store for it, and
  a record changes the view of its own address only.

  A view is consistent when its parts agree with each other; every change that calls make leads to
  a consistent view again.

  Key definitions include:
    * `View`
    * `Store.view`

  Key theorems include:
    * `view_writeBatch`
-/

---- Views

namespace Sana.Localstore

open KeyValue Swarm

@[ext] structure View where
  data : Option RetrievalData
  access : Option Nat
  pin : Option Nat
  gc : Nat → Nat → Option GCValue
  push : Nat → Option Nat
  chunks : BatchID → Nat → Option Unit

/- What the indexes store for one address. -/
def Store.view (s : Store) (a : Address) : View where
  data := s.retrievalDataIndex.get a
  access := s.retrievalAccessIndex.get a
  pin := s.pinIndex.get a
  gc := fun t b => s.gcIndex.get ⟨t, b, a⟩
  push := fun t => s.pushIndex.get ⟨t, a⟩
  chunks := fun id po => s.postageChunksIndex.get ⟨id, po, a⟩

/- The address a record is about, if there is one. -/
def Write.address : Write → Option Address
| .retrievalData key _ => some key
| .retrievalAccess key _ => some key
| .push key _ => some key.address
| .gc key _ => some key.address
| .pin key _ => some key
| .postageChunks key _ => some key.address
| _ => none

/- What a record does to the view of its own address. -/
def Write.apply (v : View) : Write → View
| .retrievalData _ value => { v with data := value }
| .retrievalAccess _ value => { v with access := value }
| .push key value =>
  { v with
    push := fun t =>
      if key.storeTimestamp = t then value else v.push t }
| .gc key value =>
  { v with
    gc := fun t b =>
      if key.accessTimestamp = t ∧ key.binID = b then value
      else v.gc t b }
| .pin _ value => { v with pin := value }
| .postageChunks key value =>
  { v with
    chunks := fun id po =>
      if key.batchID = id ∧ key.po = po then value
      else v.chunks id po }
| _ => v

/- What a record does to the view of an address. -/
def Write.onView (a : Address) (v : View) (record : Write) : View :=
  if record.address = some a then record.apply v else v

/- What a batch does to the view of an address. -/
def onView (a : Address) (v : View) (batch : Batch) : View :=
  batch.foldl (Write.onView a) v

---- Views After Writing

@[simp] theorem onView_nil (a : Address) (v : View) : onView a v [] = v := rfl

@[simp] theorem onView_cons (a : Address) (v : View) (record : Write) (batch : Batch) :
    onView a v (record :: batch) = onView a (record.onView a v) batch := rfl

@[simp] theorem onView_append (a : Address) (v : View) (first second : Batch) :
    onView a v (first ++ second) = onView a (onView a v first) second :=
  List.foldl_append

theorem view_write (s : Store) (record : Write) :
    (s.write record).view a = record.onView a (s.view a) := by
  cases record with
  | retrievalData key value | retrievalAccess key value | pin key value =>
    by_cases hKey : key = a <;>
      simp [Store.write, Store.view, Write.onView, Write.address, Write.apply, Index.get_set, hKey]
  | push key value =>
    rcases key with ⟨time, address⟩
    by_cases hKey : address = a <;>
      simp [Store.write, Store.view, Write.onView, Write.address, Write.apply, Index.get_set, hKey]
  | gc key value =>
    rcases key with ⟨time, bin, address⟩
    by_cases hKey : address = a <;>
      simp [Store.write, Store.view, Write.onView, Write.address, Write.apply, Index.get_set, hKey]
  | postageChunks key value =>
    rcases key with ⟨id, po, address⟩
    by_cases hKey : address = a <;>
      simp [Store.write, Store.view, Write.onView, Write.address, Write.apply, Index.get_set, hKey]
  | _ => rfl

/- Writing a batch acts on every view separately. -/
theorem view_writeBatch (s : Store) (batch : Batch) (a : Address) :
    (s.writeBatch batch).view a = onView a (s.view a) batch := by
  induction batch generalizing s with
  | nil => rfl
  | cons record batch ih => rw [Store.writeBatch_cons, ih, view_write, onView_cons]

/- What no record of a batch changes, the batch does not change. -/
theorem writeBatch_keeps {α : Type} (look : Store → α)
    (hKeeps : ∀ record ∈ batch, ∀ s : Store, look (s.write record) = look s) (s : Store) :
    look (s.writeBatch batch) = look s := by
  induction batch generalizing s with
  | nil => rfl
  | cons record batch ih =>
    rw [Store.writeBatch_cons, ih fun other hMem => hKeeps other (List.mem_cons_of_mem record hMem)]
    exact hKeeps record List.mem_cons_self s

/- Records about other addresses leave a view alone. -/
theorem onView_of_forall_ne
    (hOther : ∀ record ∈ batch, record.address ≠ some a) (v : View) : onView a v batch = v := by
  induction batch generalizing v with
  | nil => rfl
  | cons record batch ih =>
    have hFirst : record.address ≠ some a := hOther record (List.mem_cons_self ..)
    rw [onView_cons, Write.onView, if_neg hFirst]
    apply ih
    intro other hMem
    exact hOther other (List.mem_cons_of_mem record hMem)

/- Records outside of all views, other than the gc size. -/
def Write.neutral : Write → Bool
| .pull _ _ => true
| .postageRadius _ _ => true
| .postageIndex _ _ => true
| .binID _ _ => true
| .reserveSize _ => true
| _ => false

theorem Write.address_of_neutral {record : Write} (hNeutral : record.neutral = true) :
    record.address = none := by
  cases record <;> first | rfl | cases hNeutral

/- Every record of a batch is neutral or about one address. -/
def About (a : Address) (batch : Batch) : Prop :=
  ∀ record ∈ batch, record.neutral = true ∨ record.address = some a

theorem About.append (hFirst : About a first)
    (hSecond : About a second) : About a (first ++ second) := by
  intro record hMem
  rcases List.mem_append.mp hMem with hMem | hMem
  · exact hFirst record hMem
  · exact hSecond record hMem

theorem About.onView_of_ne (hAbout : About a batch) (hNe : a ≠ b)
    (v : View) : onView b v batch = v := by
  apply onView_of_forall_ne
  intro record hMem hEq
  rcases hAbout record hMem with hNeutral | hSome
  · rw [Write.address_of_neutral hNeutral] at hEq
    cases hEq
  · rw [hSome] at hEq
    exact hNe (Option.some.inj hEq)

/- Only its own record changes the gc size. -/
theorem About.gcSize_writeBatch (hAbout : About a batch) (s : Store) :
    (s.writeBatch batch).gcSize = s.gcSize := by
  refine writeBatch_keeps Store.gcSize (fun record hMem s => ?_) s
  rcases hAbout record hMem with hNeutral | hSome
  · cases record <;> first | rfl | cases hNeutral
  · cases record <;> first | rfl | cases hSome

---- Consistent Views

namespace View

/-
  The parts of a view agree: a gc entry carries the access timestamp, the bin ID and the batch of
  its chunk, which is not pinned; access timestamps and batch entries belong to stored chunks; and a
  chunk that was never accessed waits to be pushed.
-/
structure Consistent (po : Nat) (v : View) : Prop where
  gc :
    ∀ t b x, v.gc t b = some x →
      ∃ d, v.data = some d ∧ d.binID = b ∧ v.access = some t ∧ v.pin = none ∧
        x.batchID = d.stamp.batchID
  access : ∀ t, v.access = some t → ∃ d, v.data = some d
  chunks : ∀ id p, v.chunks id p = some () → ∃ d, v.data = some d ∧ d.stamp.batchID = id ∧ p = po
  stored : ∀ d, v.data = some d → v.chunks d.stamp.batchID po = some ()
  pushed : ∀ d, v.data = some d → v.access = none → ∃ tag, v.push d.storeTimestamp = some tag

namespace Consistent

variable {po : Nat} {v : View}

section

variable (hCons : v.Consistent po)
include hCons

theorem access_eq_none (hData : v.data = none) : v.access = none := by
  cases hAccess : v.access with
  | none => rfl
  | some t =>
    rcases hCons.access t hAccess with ⟨d, hSome⟩
    rw [hData] at hSome
    cases hSome

theorem gc_eq_none_of_data (hData : v.data = none) (t b : Nat) : v.gc t b = none := by
  cases hGC : v.gc t b with
  | none => rfl
  | some x =>
    rcases hCons.gc t b x hGC with ⟨d, hSome, -⟩
    rw [hData] at hSome
    cases hSome

theorem gc_eq_none_of_access (hAccess : v.access = none) (t b : Nat) : v.gc t b = none := by
  cases hGC : v.gc t b with
  | none => rfl
  | some x =>
    rcases hCons.gc t b x hGC with ⟨d, -, -, hSome, -⟩
    rw [hAccess] at hSome
    cases hSome

theorem gc_eq_none_of_pin (hPin : v.pin = some n) (t b : Nat) : v.gc t b = none := by
  cases hGC : v.gc t b with
  | none => rfl
  | some x =>
    rcases hCons.gc t b x hGC with ⟨d, -, -, -, hNone, -⟩
    rw [hPin] at hNone
    cases hNone

/- A gc entry of a consistent view has only one possible key. -/
theorem gc_eq_none_of_ne (hData : v.data = some d) (hAccess : v.access = some time)
    (hNe : ¬ (time = t ∧ d.binID = b)) : v.gc t b = none := by
  cases hGC : v.gc t b with
  | none => rfl
  | some x =>
    rcases hCons.gc t b x hGC with ⟨d', hData', hBin, hAccess', -⟩
    rw [hData] at hData'
    rw [hAccess] at hAccess'
    cases hData'
    cases hAccess'
    exact absurd ⟨rfl, hBin⟩ hNe

theorem chunks_eq_none_of_data (hData : v.data = none) (id : BatchID)
    (p : Nat) : v.chunks id p = none := by
  cases hChunks : v.chunks id p with
  | none => rfl
  | some u =>
    rcases hCons.chunks id p hChunks with ⟨d, hSome, -⟩
    rw [hData] at hSome
    cases hSome

theorem chunks_eq_none_of_ne (hData : v.data = some d)
    {id : BatchID} (hNe : ¬ (d.stamp.batchID = id ∧ po = p)) : v.chunks id p = none := by
  cases hChunks : v.chunks id p with
  | none => rfl
  | some u =>
    rcases hCons.chunks id p hChunks with ⟨d', hData', hBatch, hPO⟩
    rw [hData] at hData'
    cases hData'
    exact absurd ⟨hBatch, hPO.symm⟩ hNe

end

end Consistent

/- The view of an address nothing is stored for. -/
def blank : View where
  data := none
  access := none
  pin := none
  gc := fun _ _ => none
  push := fun _ => none
  chunks := fun _ _ => none

theorem blank_consistent (po : Nat) : blank.Consistent po where
  gc := by
    intro t b x hGC
    cases hGC
  access := by
    intro t hAccess
    cases hAccess
  chunks := by
    intro id p hChunks
    cases hChunks
  stored := by
    intro d hData
    cases hData
  pushed := by
    intro d hData
    cases hData

---- Changes

/- The number of pins, zero for a chunk that is not pinned. -/
def pins (v : View) : Nat :=
  v.pin.getD 0

/- The chunk is no longer stored; pins may remain. -/
structure Gone (v w : View) : Prop where
  data : w.data = none
  access : w.access = none
  gc : ∀ t b, w.gc t b = none
  chunks : ∀ id p, w.chunks id p = none
  push : w.push = v.push

/- One more pin, and no gc entry. -/
structure Pinned (v w : View) : Prop where
  data : w.data = v.data
  access : w.access = v.access
  pin : w.pin = some (v.pins + 1)
  gc : ∀ t b, w.gc t b = none
  chunks : w.chunks = v.chunks
  push : w.push = v.push

/- The batch entry of a chunk that has just been stored. -/
@[simps] def withChunk (v : View) (po : Nat) (d : RetrievalData) : View :=
  { v with
    data := some d
    chunks := fun id p =>
      if d.stamp.batchID = id ∧ po = p then some ()
      else v.chunks id p }

/-
  A chunk has been stored: as an upload that waits to be pushed, in the reserve, or in the cache,
  where an address that was pinned already gets no gc entry.  The number is the change of the gc
  size.
-/
inductive Stored (po : Nat) (d : RetrievalData) (v : View) : Int → View → Prop where
  | uploaded (tag : Nat) (pin : Option Nat) (hPin : pin = v.pin ∨ pin = some (v.pins + 1)) :
      Stored po d v 0
        { v.withChunk po d with
          push := fun t =>
            if d.storeTimestamp = t then some tag
            else v.push t
          pin := pin }
  | pinned (time : Nat) : Stored po d v 0
        { v.withChunk po d with
          access := some time
          pin := some (v.pins + 1) }
  | keptPinned (time n : Nat) (hPin : v.pin = some n) :
      Stored po d v 0 { v.withChunk po d with access := some time }
  | cached (time : Nat) (hPin : v.pin = none) : Stored po d v 1
        { v.withChunk po d with
          access := some time
          gc := fun t b =>
            if time = t ∧ d.binID = b then some ⟨d.stamp.batchID, d.stamp.index⟩
            else v.gc t b }

/-
  One pin less.  The last pin of a stored chunk that waits for nothing makes it collectable.  The
  number is the change of the gc size.
-/
inductive Unpinned (v : View) : Int → View → Prop where
  | dropped (n : Nat) (hPin : v.pin = some n) (hMany : 1 < n) :
      Unpinned v 0 { v with pin := some (n - 1) }
  | released (n : Nat) (hPin : v.pin = some n) (hLast : n ≤ 1) : Unpinned v 0 { v with pin := none }
  | collectable (n : Nat) (d : RetrievalData) (time : Nat) (hPin : v.pin = some n) (hLast : n ≤ 1)
      (hData : v.data = some d) (hPush : v.push d.storeTimestamp = none)
      (hAccess : v.access = some time) : Unpinned v 1
        { v with
          pin := none
          gc := fun t b =>
            if time = t ∧ d.binID = b then some ⟨d.stamp.batchID, 0⟩
            else v.gc t b }

/- A receipt has arrived for a stored chunk. -/
structure Synced (d : RetrievalData) (v w : View) : Prop where
  stored : v.data = some d
  data : w.data = v.data
  access :
    (∃ time, v.access = none ∧ w.access = some time) ∨
      ∃ time, v.access = some time ∧ w.access = v.access
  pin : w.pin = some (v.pins + 1)
  gc : ∀ t b, w.gc t b = none
  chunks : w.chunks = v.chunks
  push : w.push = fun t =>
      if d.storeTimestamp = t then none else v.push t

---- Changes Keep Views Consistent

variable {po : Nat} {v w : View} {d : RetrievalData}
variable {c : Int}

theorem Gone.consistent (hGone : Gone v w) : w.Consistent po where
  gc := by
    intro t b x hGC
    rw [hGone.gc t b] at hGC
    cases hGC
  access := by
    intro t hAccess
    rw [hGone.access] at hAccess
    cases hAccess
  chunks := by
    intro id p hChunks
    rw [hGone.chunks id p] at hChunks
    cases hChunks
  stored := by
    intro d hData
    rw [hGone.data] at hData
    cases hData
  pushed := by
    intro d hData
    rw [hGone.data] at hData
    cases hData

section

variable (hCons : v.Consistent po)
include hCons

theorem Pinned.consistent (hPinned : Pinned v w) : w.Consistent po where
  gc := by
    intro t b x hGC
    rw [hPinned.gc t b] at hGC
    cases hGC
  access := by
    rw [hPinned.access, hPinned.data]
    exact hCons.access
  chunks := by
    rw [hPinned.chunks, hPinned.data]
    exact hCons.chunks
  stored := by
    rw [hPinned.chunks, hPinned.data]
    exact hCons.stored
  pushed := by
    rw [hPinned.data, hPinned.access, hPinned.push]
    exact hCons.pushed

/- The batch entries of a chunk that has just been stored. -/
theorem of_withChunk_chunks (hData : v.data = none) {id : BatchID}
    (hChunks : (v.withChunk po d).chunks id p = some ()) :
    d.stamp.batchID = id ∧ p = po := by
  simp only [withChunk] at hChunks
  split at hChunks
  · next hKey => exact ⟨hKey.1, hKey.2.symm⟩
  · rw [hCons.chunks_eq_none_of_data hData] at hChunks
    cases hChunks

/- What remains to be shown of the view of a stored chunk. -/
theorem consistent_of_stored (hData : v.data = none)
    (hNew : w.data = some d) (hChunk : w.chunks = (v.withChunk po d).chunks)
    (hGC :
      ∀ t b x, w.gc t b = some x →
        ∃ d, w.data = some d ∧ d.binID = b ∧ w.access = some t ∧ w.pin = none ∧
          x.batchID = d.stamp.batchID)
    (hPushed : w.access = none → ∃ tag, w.push d.storeTimestamp = some tag) : w.Consistent po where
  gc := hGC
  access := fun _ _ => ⟨d, hNew⟩
  chunks := by
    intro id p hChunks
    rw [hChunk] at hChunks
    exact ⟨d, hNew, of_withChunk_chunks hCons hData hChunks⟩
  stored := by
    intro d' hData'
    rw [hNew] at hData'
    cases hData'
    rw [hChunk]
    simp [withChunk]
  pushed := by
    intro d' hData'
    rw [hNew] at hData'
    cases hData'
    exact hPushed

theorem Stored.consistent (hData : v.data = none)
    (hStored : Stored po d v c w) : w.Consistent po := by
  have hNoGC := hCons.gc_eq_none_of_data hData
  have hNever {P : Prop} {t b : Nat} {x : GCValue} (hGC : v.gc t b = some x) : P := by
    rw [hNoGC t b] at hGC
    cases hGC
  cases hStored with
  | uploaded tag pin hPin =>
    refine consistent_of_stored hCons hData rfl rfl (fun t b x hGC => hNever hGC) fun _ => ?_
    exact ⟨tag, by simp⟩
  | pinned time | keptPinned time n hPin =>
    exact consistent_of_stored hCons hData rfl rfl (fun t b x hGC => hNever hGC) nofun
  | cached time hPin =>
    refine consistent_of_stored hCons hData rfl rfl (fun t b x hGC => ?_) nofun
    simp only at hGC
    split at hGC
    · next hKey =>
        cases hGC
        refine ⟨d, rfl, hKey.2, ?_, hPin, rfl⟩
        rw [hKey.1]
    · exact hNever hGC

theorem Unpinned.consistent (hUnpinned : Unpinned v c w) : w.Consistent po := by
  cases hUnpinned with
  | dropped n hPin hMany | released n hPin hLast =>
    refine { hCons with gc := fun t b x hGC => ?_ }
    have hNone : v.gc t b = some x := hGC
    rw [hCons.gc_eq_none_of_pin hPin t b] at hNone
    cases hNone
  | collectable n d time hPin hLast hData hPush hAccess =>
    refine { hCons with gc := fun t b y hGC => ?_ }
    simp only at hGC
    split at hGC
    · next hKey =>
        cases hGC
        refine ⟨d, hData, hKey.2, ?_, rfl, rfl⟩
        rw [← hKey.1]
        exact hAccess
    · rw [hCons.gc_eq_none_of_pin hPin t b] at hGC
      cases hGC

theorem Synced.consistent (hSynced : Synced d v w) : w.Consistent po where
  gc := by
    intro t b x hGC
    rw [hSynced.gc t b] at hGC
    cases hGC
  access := by
    intro t _
    exact ⟨d, hSynced.data.trans hSynced.stored⟩
  chunks := by
    rw [hSynced.chunks, hSynced.data]
    exact hCons.chunks
  stored := by
    rw [hSynced.chunks, hSynced.data]
    exact hCons.stored
  pushed := by
    intro d' _ hAccess
    rcases hSynced.access with ⟨time, -, hSome⟩ | ⟨time, hSome, hEq⟩
    · rw [hSome] at hAccess
      cases hAccess
    · rw [hEq, hSome] at hAccess
      cases hAccess

end

end View

end Sana.Localstore

---- Plans Are About Their Address

namespace Sana.Localstore

open KeyValue Program Swarm

variable {cfg : Config} {s : Store} {a : Address}

theorem about_nil (a : Address) : About a [] := by
  intro record hMem
  cases hMem

theorem about_cons
    (hRecord : record.neutral = true ∨ record.address = some a) (hBatch : About a batch) :
    About a (record :: batch) := by
  intro other hMem
  rcases List.mem_cons.mp hMem with rfl | hMem
  · exact hRecord
  · exact hBatch other hMem

theorem about_sizeRecords (a : Address)
    (hRecord : ∀ n, (record n).neutral = true) (size : Nat) (change : Int) :
    About a (sizeRecords record size change) := by
  unfold sizeRecords
  split
  · exact about_nil a
  · split
    · exact about_nil a
    · exact about_cons (Or.inl (hRecord _)) (about_nil a)

/- Counters are not part of any view. -/
theorem onView_sizeRecords (a : Address) (v : View)
    (hRecord : ∀ n, (record n).address = none) (size : Nat) (change : Int) :
    onView a v (sizeRecords record size change) = v := by
  unfold sizeRecords
  split
  · rfl
  · split
    · rfl
    · simp [Write.onView, hRecord]

theorem about_planRemove (cfg : Config) (s : Store) (a : Address) :
    About a (planRemove cfg s a).records := by
  unfold planRemove
  cases s.retrievalDataIndex.get a with
  | none => exact about_nil a
  | some d =>
    dsimp only
    split <;> simp [About, Write.neutral, Write.address, Store.gcKeyOf]

theorem about_planPin (s : Store) (a : Address) : About a (planPin s a).records := by
  unfold planPin
  cases s.pinIndex.get a <;> cases s.retrievalAccessIndex.get a <;>
    cases s.retrievalDataIndex.get a <;> simp [About, Write.neutral, Write.address]

theorem about_planUnpin (s : Store) (a : Address) (now : Nat) :
    About a (planUnpin s a now).records := by
  unfold planUnpin
  cases s.pinIndex.get a with
  | none => exact about_nil a
  | some n =>
    dsimp only
    split
    · simp [About, Write.neutral, Write.address]
    · cases s.retrievalDataIndex.get a with
      | none => simp [About, Write.neutral, Write.address]
      | some d =>
        dsimp only
        split
        · simp [About, Write.neutral, Write.address]
        · cases s.retrievalAccessIndex.get a <;> simp [About, Write.neutral, Write.address]

theorem about_planSync : About a (planSync cfg s a now).records := by
  have hPin := about_planPin s a
  unfold planSync
  cases s.retrievalDataIndex.get a with
  | none => simp [About, Write.neutral, Write.address]
  | some d =>
    dsimp only
    cases syncTag cfg s a d with
    | error e => exact about_nil a
    | ok _ =>
      cases s.retrievalAccessIndex.get a with
      | none =>
        exact about_cons (Or.inr rfl) (about_cons (Or.inr rfl) (about_cons (Or.inl rfl) hPin))
      | some t => exact about_cons (Or.inr rfl) (about_cons (Or.inl rfl) hPin)

theorem about_planSet (cfg : Config) (mode : ModeSet) (s : Store) (a : Address) (now : Nat) :
    About a (planSet cfg mode s a now).records := by
  cases mode with
  | sync => exact about_planSync
  | remove => exact about_planRemove cfg s a
  | pin => exact about_planPin s a
  | unpin => exact about_planUnpin s a now
  | unknown => exact about_nil a

---- Effects Of The Helpers

namespace View

/-
  The gc and batch entries of a view are among those of an earlier one, and the push entries are the
  same.
-/
structure Within (v w : View) : Prop where
  gc : ∀ t b, w.gc t b = none ∨ w.gc t b = v.gc t b
  chunks : ∀ id p, w.chunks id p = none ∨ w.chunks id p = v.chunks id p
  push : w.push = v.push

theorem Within.refl (v : View) : Within v v :=
  ⟨fun _ _ => Or.inr rfl, fun _ _ => Or.inr rfl, rfl⟩

theorem Gone.within (hGone : Gone v w) : Within v w :=
  ⟨fun t b => Or.inl (hGone.gc t b), fun id p => Or.inl (hGone.chunks id p), hGone.push⟩

theorem Pinned.within (hPinned : Pinned v w) : Within v w := by
  refine ⟨fun t b => Or.inl (hPinned.gc t b), ?_, hPinned.push⟩
  intro id p
  exact Or.inr (by rw [hPinned.chunks])

end View

/- The records of one address, as updates of its view. -/

section

variable (v : View)

@[simp] theorem onView_retrievalData (value : Option RetrievalData) :
    Write.onView a v (.retrievalData a value) = { v with data := value } := by
  simp [Write.onView, Write.address, Write.apply]

@[simp] theorem onView_retrievalAccess (value : Option Nat) :
    Write.onView a v (.retrievalAccess a value) = { v with access := value } := by
  simp [Write.onView, Write.address, Write.apply]

@[simp] theorem onView_pin (value : Option Nat) :
    Write.onView a v (.pin a value) = { v with pin := value } := by
  simp [Write.onView, Write.address, Write.apply]

@[simp] theorem onView_push (time : Nat) (value : Option Nat) :
    Write.onView a v (.push ⟨time, a⟩ value) =
      { v with
        push := fun t =>
          if time = t then value else v.push t } := by
  simp [Write.onView, Write.address, Write.apply]

@[simp] theorem onView_gc (time bin : Nat) (value : Option GCValue) :
    Write.onView a v (.gc ⟨time, bin, a⟩ value) =
      { v with
        gc := fun t b =>
          if time = t ∧ bin = b then value
          else v.gc t b } := by
  simp [Write.onView, Write.address, Write.apply]

@[simp] theorem onView_postageChunks (batchID : BatchID) (po : Nat) (value : Option Unit) :
    Write.onView a v (.postageChunks ⟨batchID, po, a⟩ value) =
      { v with
        chunks := fun id p =>
          if batchID = id ∧ po = p then value
          else v.chunks id p } := by
  simp [Write.onView, Write.address, Write.apply]

@[simp] theorem onView_pull (key : PullKey) (value : Option PullValue) :
    Write.onView a v (.pull key value) = v := rfl

@[simp] theorem onView_postageIndex (key : PostageIndexKey) (value : Option PostageIndexValue) :
    Write.onView a v (.postageIndex key value) = v := rfl

@[simp] theorem onView_postageRadius (key : BatchID) (value : Option Nat) :
    Write.onView a v (.postageRadius key value) = v := rfl

@[simp] theorem onView_gcSize (n : Nat) : Write.onView a v (.gcSize n) = v := rfl

@[simp] theorem onView_reserveSize (n : Nat) :
    Write.onView a v (.reserveSize n) = v := rfl

end

/- The only key under which a chunk can have a gc entry. -/
theorem gcKeyOf_of_gc (hCons : (s.view a).Consistent po)
    (hData : s.retrievalDataIndex.get a = some d)
    (hGC : (s.view a).gc t b = some x) : s.gcKeyOf a d = ⟨t, b, a⟩ := by
  rcases hCons.gc t b x hGC with ⟨d', hData', hBin, hAccess, -⟩
  have hSame : d = d' := Option.some.inj (hData.symm.trans hData')
  have hGet : s.retrievalAccessIndex.get a = some t := hAccess
  simp [Store.gcKeyOf, Store.accessOf, hGet, hSame, hBin]

/- Removing a chunk leaves nothing stored for it. -/
theorem gone_of_planRemove (hCons : (s.view a).Consistent (cfg.po a))
    (hWithin : View.Within (s.view a) w) (hChange : (planRemove cfg s a).change = .ok c) :
    View.Gone (s.view a) (onView a w (planRemove cfg s a).records) := by
  unfold planRemove at hChange ⊢
  cases hData : s.retrievalDataIndex.get a with
  | none =>
    rw [hData] at hChange
    cases hChange
  | some d =>
    have hChunks : ∀ id p, ¬ (d.stamp.batchID = id ∧ cfg.po a = p) → w.chunks id p = none := by
      intro id p hNe
      rcases hWithin.chunks id p with hNone | hEq
      · exact hNone
      · rw [hEq]
        exact hCons.chunks_eq_none_of_ne hData hNe
    have hGC :
        ∀ t b,
          w.gc t b = none ∨
            s.gcIndex.has (s.gcKeyOf a d) = true ∧ s.accessOf a = t ∧ d.binID = b := by
      intro t b
      cases hSome : w.gc t b with
      | none => exact Or.inl rfl
      | some x =>
        have hStored : (s.view a).gc t b = some x := by
          rcases hWithin.gc t b with hNone | hEq
          · rw [hSome] at hNone
            cases hNone
          · exact hEq.symm.trans hSome
        have hKey := gcKeyOf_of_gc hCons hData hStored
        refine Or.inr ⟨?_, ?_⟩
        · rw [hKey]
          exact (Index.has_eq_true_iff _ _).mpr ⟨x, hStored⟩
        · simpa [Store.gcKeyOf] using hKey
    dsimp only
    by_cases hHas : s.gcIndex.has (s.gcKeyOf a d) = true
    · rw [if_pos hHas]
      constructor
      · simp [Store.gcKeyOf]
      · simp [Store.gcKeyOf]
      · intro t b
        rcases hGC t b with hNone | ⟨-, hTime, hBin⟩
        · simp [Store.gcKeyOf, hNone]
        · simp [Store.gcKeyOf, hTime, hBin]
      · intro id p
        by_cases hKey : d.stamp.batchID = id ∧ cfg.po a = p
        · simp [Store.gcKeyOf, hKey]
        · simp [Store.gcKeyOf, hKey, hChunks id p hKey]
      · simp [Store.gcKeyOf, hWithin.push]
    · rw [if_neg hHas]
      constructor
      · simp
      · simp
      · intro t b
        rcases hGC t b with hNone | ⟨hTrue, -⟩
        · simp [hNone]
        · exact absurd hTrue hHas
      · intro id p
        by_cases hKey : d.stamp.batchID = id ∧ cfg.po a = p
        · simp [hKey]
        · simp [hKey, hChunks id p hKey]
      · simp [hWithin.push]

section

variable (hCons : (s.view a).Consistent po)
include hCons

/-
  Pinning adds one pin and takes the chunk out of the gc index, also after records that added
  nothing to it.
-/
theorem onView_planPin (hChange : (planPin s a).change = .ok c)
    (hGC : ∀ t b, w.gc t b = none ∨ w.gc t b = (s.view a).gc t b) :
    onView a w (planPin s a).records =
      { w with
        pin := some ((s.view a).pins + 1)
        gc := fun _ _ => none } := by
  have hNone : ∀ t b, (s.view a).gc t b = none → w.gc t b = none := by
    intro t b hStored
    rcases hGC t b with hNone | hEq
    · exact hNone
    · exact hEq.trans hStored
  unfold planPin at hChange ⊢
  cases hPin : s.pinIndex.get a with
  | some n =>
    have hNoGC : w.gc = fun _ _ => none := by
      funext t b
      exact hNone t b (hCons.gc_eq_none_of_pin hPin t b)
    simp [View.pins, Store.view, hPin, hNoGC]
  | none =>
    cases hAccess : s.retrievalAccessIndex.get a with
    | none =>
      have hNoGC : w.gc = fun _ _ => none := by
        funext t b
        exact hNone t b (hCons.gc_eq_none_of_access hAccess t b)
      simp [View.pins, Store.view, hPin, hNoGC]
    | some time =>
      cases hData : s.retrievalDataIndex.get a with
      | none => simp [hPin, hAccess, hData] at hChange
      | some d =>
        have hNoGC : (fun t b =>
              if time = t ∧ d.binID = b then none
              else w.gc t b) = fun _ _ => none := by
          funext t b
          split
          · rfl
          · next hKey =>
              exact hNone t b (hCons.gc_eq_none_of_ne hData hAccess hKey)
        simp [View.pins, Store.view, hPin, hNoGC]

theorem pinned_of_planPin (hChange : (planPin s a).change = .ok c) :
    View.Pinned (s.view a) (onView a (s.view a) (planPin s a).records) := by
  rw [onView_planPin hCons hChange fun _ _ => Or.inr rfl]
  constructor <;> simp

/- Unpinning takes one pin away. -/
theorem unpinned_of_planUnpin (hChange : (planUnpin s a now).change = .ok c) :
    View.Unpinned (s.view a) c (onView a (s.view a) (planUnpin s a now).records) := by
  unfold planUnpin at hChange ⊢
  cases hPin : s.pinIndex.get a with
  | none => simp [hPin] at hChange
  | some n =>
    dsimp only
    simp only [hPin] at hChange
    by_cases hMany : n > 1
    · rw [if_pos hMany] at hChange ⊢
      cases hChange
      simpa using View.Unpinned.dropped n hPin hMany
    have hLast : n ≤ 1 := by omega
    rw [if_neg hMany] at hChange ⊢
    cases hData : s.retrievalDataIndex.get a with
    | none => simp [hData] at hChange
    | some d =>
      simp only [hData] at hChange ⊢
      by_cases hPush : s.pushIndex.has ⟨d.storeTimestamp, a⟩ = true
      · rw [if_pos hPush] at hChange ⊢
        cases hChange
        simpa using View.Unpinned.released n hPin hLast
      rw [if_neg hPush] at hChange ⊢
      cases hAccess : s.retrievalAccessIndex.get a with
      | none =>
        rcases hCons.pushed d hData hAccess with ⟨tag, hTag⟩
        exact absurd ((Index.has_eq_true_iff _ _).mpr ⟨tag, hTag⟩) hPush
      | some time =>
        simp only [hAccess] at hChange ⊢
        cases hChange
        have hNone : s.pushIndex.get ⟨d.storeTimestamp, a⟩ =
              none := by
          simpa [Index.has] using hPush
        simpa using View.Unpinned.collectable n d time hPin hLast hData hNone hAccess

/- Unpinning never depends on the clock, and does not read it. -/
theorem planUnpin_eq (now now' : Nat) :
    planUnpin s a now = planUnpin s a now' ∧ (planUnpin s a now').readings = 0 := by
  unfold planUnpin
  cases s.pinIndex.get a with
  | none => exact ⟨rfl, rfl⟩
  | some n =>
    dsimp only
    split
    · exact ⟨rfl, rfl⟩
    cases hData : s.retrievalDataIndex.get a with
    | none => exact ⟨rfl, rfl⟩
    | some d =>
      dsimp only
      split
      · exact ⟨rfl, rfl⟩
      next hPush =>
    cases hAccess : s.retrievalAccessIndex.get a with
    | some time => exact ⟨rfl, rfl⟩
    | none =>
      rcases hCons.pushed d hData hAccess with ⟨tag, hTag⟩
      exact absurd ((Index.has_eq_true_iff _ _).mpr ⟨tag, hTag⟩) hPush

/- A receipt for a stored chunk. -/
theorem synced_of_planSync (hData : s.retrievalDataIndex.get a = some d)
    (hChange : (planSync cfg s a now).change = .ok c) :
    View.Synced d (s.view a) (onView a (s.view a) (planSync cfg s a now).records) := by
  unfold planSync at hChange ⊢
  simp only [hData] at hChange ⊢
  cases hTag : syncTag cfg s a d with
  | error e => simp [hTag] at hChange
  | ok _ =>
    simp only [hTag] at hChange
    cases hAccess : s.retrievalAccessIndex.get a with
    | none =>
      simp only [hAccess] at hChange
      simp only [List.cons_append, List.nil_append, onView_cons, onView_push,
        onView_retrievalAccess, onView_reserveSize]
      rw [onView_planPin hCons hChange (by exact fun _ _ => Or.inr rfl)]
      refine ⟨hData, rfl, ?_, rfl, fun _ _ => rfl, rfl, rfl⟩
      exact Or.inl ⟨now, hAccess, rfl⟩
    | some time =>
      simp only [hAccess] at hChange
      simp only [List.cons_append, List.nil_append, onView_cons, onView_push, onView_reserveSize]
      rw [onView_planPin hCons hChange (by exact fun _ _ => Or.inr rfl)]
      refine ⟨hData, rfl, ?_, rfl, fun _ _ => rfl, rfl, rfl⟩
      exact Or.inr ⟨time, hAccess, rfl⟩

end

---- Set Calls

/- What a set call does to the view of one of its addresses. -/
inductive SetView (mode : ModeSet) (v : View) : View → Prop where
  | removed {w : View} (hMode : mode = .remove) (hData : v.data ≠ none) (hGone : View.Gone v w) :
      SetView mode v w
  | pinned {w : View} (hMode : mode = .pin) (hPinned : View.Pinned v w) : SetView mode v w
  | unpinned {w : View} (c : Int) (hMode : mode = .unpin) (hUnpinned : View.Unpinned v c w) :
      SetView mode v w
  | synced {w : View} (d : RetrievalData) (hMode : mode = .sync) (hSynced : View.Synced d v w) :
      SetView mode v w
  | unsynced (hMode : mode = .sync) (hData : v.data = none) : SetView mode v
        { v with push := fun t => if 0 = t then none else v.push t }

variable {mode : ModeSet}

theorem setView_of_planSet (hCons : (s.view a).Consistent (cfg.po a))
    (hChange : (planSet cfg mode s a now).change = .ok c) :
    SetView mode (s.view a) (onView a (s.view a) (planSet cfg mode s a now).records) := by
  cases mode with
  | remove =>
    refine .removed rfl ?_ (gone_of_planRemove hCons (.refl _) hChange)
    intro hNone
    have hData : s.retrievalDataIndex.get a = none := hNone
    simp [planSet, planRemove, hData] at hChange
  | pin => exact .pinned rfl (pinned_of_planPin hCons hChange)
  | unpin => exact .unpinned c rfl (unpinned_of_planUnpin hCons hChange)
  | unknown => cases hChange
  | sync =>
    cases hData : s.retrievalDataIndex.get a with
    | none =>
      have hView : SetView .sync (s.view a) _ := .unsynced rfl hData
      simpa [planSet, planSync, hData] using hView
    | some d => exact .synced d rfl (synced_of_planSync hCons hData hChange)

theorem SetView.consistent (hCons : v.Consistent po)
    (hView : SetView mode v w) : w.Consistent po := by
  cases hView with
  | removed hMode hData hGone => exact hGone.consistent
  | pinned hMode hPinned => exact hPinned.consistent hCons
  | unpinned c hMode hUnpinned => exact hUnpinned.consistent hCons
  | synced d hMode hSynced => exact hSynced.consistent hCons
  | unsynced hMode hData =>
    refine { hCons with pushed := fun d hSome => ?_ }
    have hStored : v.data = some d := hSome
    rw [hData] at hStored
    cases hStored

/- Records of one plan, applied twice. -/

theorem onView_planRemove_repeat :
    onView a (onView a v (planRemove cfg s a).records) (planRemove cfg s a).records =
      onView a v (planRemove cfg s a).records := by
  unfold planRemove
  cases s.retrievalDataIndex.get a with
  | none => rfl
  | some d =>
    dsimp only
    split <;> ext <;> simp [Store.gcKeyOf]

theorem onView_planPin_repeat :
    onView a (onView a v (planPin s a).records) (planPin s a).records =
      onView a v (planPin s a).records := by
  unfold planPin
  cases s.pinIndex.get a <;> cases s.retrievalAccessIndex.get a <;>
    cases s.retrievalDataIndex.get a <;> ext <;> simp

theorem onView_planUnpin_repeat (v : View) (now : Nat) :
    onView a (onView a v (planUnpin s a now).records) (planUnpin s a now).records =
      onView a v (planUnpin s a now).records := by
  unfold planUnpin
  cases s.pinIndex.get a with
  | none => rfl
  | some n =>
    dsimp only
    split
    · simp
    cases s.retrievalDataIndex.get a with
    | none => simp
    | some d =>
      dsimp only
      split
      · simp
      · cases s.retrievalAccessIndex.get a <;> ext <;> simp <;> grind

/-
  Repeating the records of one address has no further effect: each repeat reads the same database.
  Only the access timestamp of a receipt is that of the last repeat.
-/
theorem onView_planSet_repeat (hCons : (s.view a).Consistent (cfg.po a)) (now now' : Nat)
    (v : View) :
    onView a (onView a v (planSet cfg mode s a now).records) (planSet cfg mode s a now').records =
      onView a v (planSet cfg mode s a now').records := by
  cases mode with
  | unknown => rfl
  | remove => exact onView_planRemove_repeat
  | pin => exact onView_planPin_repeat
  | unpin =>
    simp only [planSet]
    rw [(planUnpin_eq hCons now now').1]
    exact onView_planUnpin_repeat v now'
  | sync =>
    simp only [planSet, planSync, planPin]
    cases s.retrievalDataIndex.get a with
    | none => ext <;> simp
    | some d =>
      dsimp only
      cases syncTag cfg s a d with
      | error e => rfl
      | ok _ => cases s.retrievalAccessIndex.get a <;> cases s.pinIndex.get a <;> ext <;> simp

/-
  The views after the records of a whole set call: each address of the call is treated as if it were
  alone.
-/
theorem view_planSetAll (hCons : (s.view a).Consistent (cfg.po a))
    (hChange : (planSetAll cfg mode s addrs clock).change = .ok c) :
    let after := onView a (s.view a) (planSetAll cfg mode s addrs clock).records
    a ∉ addrs ∧ after = s.view a ∨
      a ∈ addrs ∧ ∃ now c, (planSet cfg mode s a now).change = .ok c ∧
        after = onView a (s.view a) (planSet cfg mode s a now).records := by
  refine planSetAll_invariant
    (fun done batch _ => a ∉ done ∧ onView a (s.view a) batch = s.view a ∨
      a ∈ done ∧ ∃ now c, (planSet cfg mode s a now).change = .ok c ∧
        onView a (s.view a) batch = onView a (s.view a) (planSet cfg mode s a now).records)
    hChange (Or.inl ⟨by simp, rfl⟩) ?_
  intro done b rest batch c₁ c₂ n _ hInv hOk
  rw [onView_append]
  by_cases hEq : b = a
  · subst hEq
    refine Or.inr ⟨by simp, clock n, c₂, hOk, ?_⟩
    rcases hInv with ⟨-, hSame⟩ | ⟨-, now, -, -, hDone⟩
    · rw [hSame]
    · rw [hDone]
      exact onView_planSet_repeat hCons _ _ _
  · rw [(about_planSet cfg mode s b (clock n)).onView_of_ne hEq]
    simpa [Ne.symm hEq] using hInv

end Sana.Localstore
