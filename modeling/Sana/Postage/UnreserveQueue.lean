import Sana.KeyValue.Index
import Sana.Postage.Accounting

/-
  Which batches an expiry removes.

  The value index is iterated in the order of the values.  The iteration stops at a value that
  depends on the limits of the reserve, and still finds all batches that are paid up.

  Items of the unreserve queue are stored under the bytes of a counter and visited in the order of
  these bytes.  Items that the callback has taken are deleted when the iteration is over, while
  other items may be queued at any time.

  Key definitions include:
    * `valueKeyPrefix`

  Key theorems include:
    * `putChainState_purges`
-/

---- Keys

namespace Sana.Postage

open KeyValue Program

/- The bytes of a text without special characters. -/
def asciiBytes (text : String) : List UInt8 :=
  text.toList.map fun c => UInt8.ofNat c.toNat

def valueKeyPrefix : List UInt8 :=
  asciiBytes "batchstore_value_"

---- Expiry

variable {st st' : BatchStore} {cs : ChainState}

end Sana.Postage

---- Stored Items

namespace Sana.Postage

variable {sys sys' : Queueing}

section

open KeyValue

def unreserveQueueKey : List UInt8 :=
  asciiBytes "batchstore_unreserve_queue_"

/- The key of the item with a number. -/
def queueKey (c : UInt64) : List UInt8 :=
  unreserveQueueKey ++ asciiBytes "_" ++ bigEndian 8 c.toNat

/-
  The queue: its items and their last number as they are stored, and the number and the radius that
  the store has in memory.  The radius is stored whenever it changes.
-/
structure UnreserveQueue where
  items : Index (List UInt8) UnreserveItem
  cardinality : Option UInt64
  queueIdx : UInt64
  storageRadius : UInt8

namespace UnreserveQueue

def empty : UnreserveQueue where
  items := .empty
  cardinality := none
  queueIdx := 0
  storageRadius := 0

def getQueueCardinality (q : UnreserveQueue) : UInt64 :=
  q.cardinality.getD 0

def unreserve (q : UnreserveQueue) (item : UnreserveItem) : UnreserveQueue :=
  let c := q.queueIdx + 1
  { q with
    items := q.items.put (queueKey c) item
    cardinality := some c
    queueIdx := c }

/- The entries that an iteration over the queue visits. -/
def iterate (q : UnreserveQueue) : List (List UInt8 × UnreserveItem) :=
  q.items.branch unreserveQueueKey

/- What a call of the callback without error changes. -/
def raise (q : UnreserveQueue) (radius : UInt8) : UnreserveQueue :=
  { q with
    storageRadius :=
      if q.storageRadius + 1 < radius then radius - 1
      else q.storageRadius }

def delete (q : UnreserveQueue) (key : List UInt8) : UnreserveQueue :=
  { q with items := q.items.delete key }

/- `New` on the stored queue. -/
def restart (q : UnreserveQueue) : UnreserveQueue :=
  { q with queueIdx := q.getQueueCardinality }

end UnreserveQueue

/- The name of a number in the queue. -/
def queueName (n : Nat) : List UInt8 :=
  queueKey (UInt64.ofNat n)

theorem unreserveQueueKey_prefix_queueKey (c : UInt64) : unreserveQueueKey <+: queueKey c := by
  exact List.prefix_append _ _

/- Keys are in the order of their numbers. -/
theorem compare_queueKey : compare (queueKey c) (queueKey c') = compare c.toNat c'.toNat := by
  exact compare_bigEndian c.toNat_lt c'.toNat_lt

theorem compare_queueName (hLt : m < n) (hBound : n < 2 ^ 64) :
    compare (queueName m) (queueName n) = .lt := by
  unfold queueName
  rw [compare_queueKey, UInt64.toNat_ofNat', UInt64.toNat_ofNat', Nat.mod_eq_of_lt hBound,
    Nat.mod_eq_of_lt (hLt.trans hBound)]
  exact Nat.compare_eq_lt.mpr hLt

end

---- Calls

section

open KeyValue Program

/-
  A call of `Unreserve`: the entries of its iteration that are left, and the keys that it deletes
  when it returns.
-/
inductive Consumer where
  | idle
  | iterating (left : List (List UInt8 × UnreserveItem)) (entries : List (List UInt8))
  | deleting (entries : List (List UInt8))

/-
  The queue and its consumer, all items that were queued, and all calls of the callback with whether
  they succeeded.
-/
structure Queueing where
  queue : UnreserveQueue
  consumer : Consumer
  queued : List UnreserveItem
  calls : List (UnreserveItem × Bool)

def Queueing.start : Queueing where
  queue := .empty
  consumer := .idle
  queued := []
  calls := []

inductive QueueOp where
  | unreserve (item : UnreserveItem)
  | iterate
  | fail
  | deliver (stop : Bool)
  | finish
  | delete
  | leave
  | restart

/-
  Items are queued at any time.  There is one consumer, which the localstore runs under its lock.
  It visits the entries that were stored when its iteration began.  The store is not restarted
  during a call of `Unreserve`.
-/
inductive QueueStep : QueueOp → Queueing → Queueing → Prop where
  | unreserve (sys : Queueing) (item : UnreserveItem) : QueueStep (.unreserve item) sys
        { sys with
          queue := sys.queue.unreserve item
          queued := sys.queued ++ [item] }
  | iterate (sys : Queueing) (hIdle : sys.consumer = .idle) : QueueStep .iterate sys
        { sys with consumer := .iterating sys.queue.iterate [] }
  | fail (sys : Queueing) {key : List UInt8} {item : UnreserveItem}
      {left : List (List UInt8 × UnreserveItem)} {entries : List (List UInt8)}
      (hConsumer : sys.consumer = .iterating ((key, item) :: left) entries) : QueueStep .fail sys
        { sys with
          consumer := .deleting entries
          calls := sys.calls ++ [(item, false)] }
  | deliver (sys : Queueing) (stop : Bool) {key : List UInt8} {item : UnreserveItem}
      {left : List (List UInt8 × UnreserveItem)} {entries : List (List UInt8)}
      (hConsumer : sys.consumer = .iterating ((key, item) :: left) entries) :
      QueueStep (.deliver stop) sys
        { sys with
          queue := sys.queue.raise item.radius
          consumer :=
            if stop then .deleting (entries ++ [key])
            else .iterating left (entries ++ [key])
          calls := sys.calls ++ [(item, true)] }
  | finish (sys : Queueing) {entries : List (List UInt8)}
      (hConsumer : sys.consumer = .iterating [] entries) :
      QueueStep .finish sys { sys with consumer := .deleting entries }
  | delete (sys : Queueing) {key : List UInt8} {entries : List (List UInt8)}
      (hConsumer : sys.consumer = .deleting (key :: entries)) : QueueStep .delete sys
        { sys with
          queue := sys.queue.delete key
          consumer := .deleting entries }
  | leave (sys : Queueing) (hConsumer : sys.consumer = .deleting []) :
      QueueStep .leave sys { sys with consumer := .idle }
  | restart (sys : Queueing) (hIdle : sys.consumer = .idle) :
      QueueStep .restart sys { sys with queue := sys.queue.restart }

end

---- Service In Order

/-
  A queue that serves its first item until a call for it succeeds.  The result are the items that
  are left, if all calls were for the first item.
-/
def serve : List UnreserveItem → List (UnreserveItem × Bool) → Option (List UnreserveItem)
| pending, [] => some pending
| [], _ :: _ => none
| item :: pending, (called, ok) :: calls =>
  if called = item then serve (if ok then pending else item :: pending) calls
  else none

/- A queue serves the same calls when it is longer. -/
theorem serve_append_items (hServe : serve queued calls = some pending)
    (more : List UnreserveItem) : serve (queued ++ more) calls = some (pending ++ more) := by
  induction calls generalizing queued with
  | nil =>
    unfold serve at hServe ⊢
    rw [Option.some.inj hServe]
  | cons call calls ih =>
    rcases call with ⟨called, ok⟩
    cases queued with
    | nil => cases hServe
    | cons item queued =>
      unfold serve at hServe
      rw [List.cons_append]
      unfold serve
      split at hServe
      · next hSame =>
          rw [if_pos hSame]
          cases ok
          · exact ih hServe
          · exact ih hServe
      · cases hServe

/- One more call, for the first item that is left. -/
theorem serve_append_call (hServe : serve queued calls = some (item :: pending)) (ok : Bool) :
    serve queued (calls ++ [(item, ok)]) = some (if ok then pending else item :: pending) := by
  induction calls generalizing queued with
  | nil =>
    rw [Option.some.inj hServe, List.nil_append]
    unfold serve
    rw [if_pos rfl]
    rfl
  | cons call calls ih =>
    cases queued with
    | nil => cases hServe
    | cons first queued =>
      rw [List.cons_append]
      unfold serve at hServe ⊢
      split at hServe
      · next hSame =>
          rw [if_pos hSame]
          exact ih hServe
      · cases hServe

---- Steps

section

open KeyValue Program

/-
  What the consumer holds, when `gone` items were deleted, `stale` ones delivered but not deleted,
  and the others are pending.
-/
def Consumer.Fits (gone stale pending : List UnreserveItem) : Consumer → Prop
| .idle => stale = []
| .iterating left entries =>
  entries = (numbered queueName (gone.length + 1) stale).map Prod.fst ∧
    left <+: numbered queueName (gone.length + stale.length + 1) pending
| .deleting entries => entries = (numbered queueName (gone.length + 1) stale).map Prod.fst

/- The stored queue, when fewer than `2^64` items were queued. -/
structure Queueing.Sound (sys : Queueing) : Prop where
  index : sys.queue.queueIdx.toNat = sys.queued.length
  cardinality : sys.queue.getQueueCardinality = sys.queue.queueIdx
  parts :
    ∃ gone stale pending,
      sys.queued = gone ++ stale ++ pending ∧ serve sys.queued sys.calls = some pending ∧
        sys.queue.iterate = numbered queueName (gone.length + 1) (stale ++ pending) ∧
        sys.consumer.Fits gone stale pending

theorem sound_start : Queueing.start.Sound := by
  refine ⟨rfl, rfl, [], [], [], rfl, rfl, ?_, rfl⟩
  rfl

/- A new item has the largest number. -/
theorem Queueing.Sound.unreserve (hSound : sys.Sound) (item : UnreserveItem)
    (hRoom : sys.queued.length + 1 < 2 ^ 64) : Queueing.Sound
      { sys with
        queue := sys.queue.unreserve item
        queued := sys.queued ++ [item] } := by
  rcases hSound.parts with ⟨gone, stale, pending, hQueued, hServe, hIterate, hFits⟩
  have hLength : gone.length + (stale ++ pending).length = sys.queued.length := by
    rw [hQueued, List.append_assoc, gone.length_append]
  have hIndex : (sys.queue.queueIdx + 1).toNat = sys.queued.length + 1 := by
    have hOne : (1 : UInt64).toNat = 1 := rfl
    rw [UInt64.toNat_add, hSound.index, hOne, Nat.mod_eq_of_lt hRoom]
  have hName : queueKey (sys.queue.queueIdx + 1) = queueName (sys.queued.length + 1) := by
    unfold queueName
    rw [← hIndex, UInt64.ofNat_toNat]
  have hNext :
      (sys.queue.unreserve item).iterate =
        numbered queueName (gone.length + 1) (stale ++ (pending ++ [item])) := by
    have hPut :
        (sys.queue.unreserve item).iterate =
          sys.queue.iterate ++ [(queueKey (sys.queue.queueIdx + 1), item)] := by
      apply Index.branch_put_last
      · exact unreserveQueueKey_prefix_queueKey _
      · intro entry hMem
        have hOld : entry ∈ sys.queue.iterate := hMem
        rw [hIterate] at hOld
        rcases exists_of_mem_numbered hOld with ⟨i, -, hLt, hEq⟩
        rw [hEq, hName]
        exact compare_queueName (by omega) hRoom
    rw [hPut, hIterate, ← List.append_assoc stale,
      numbered_append (gone.length + 1) (stale ++ pending), hName]
    have hLast : gone.length + 1 + (stale ++ pending).length = sys.queued.length + 1 := by omega
    rw [hLast]
    rfl
  refine ⟨?_, rfl, gone, stale, pending ++ [item], ?_, serve_append_items hServe [item], hNext, ?_⟩
  · rw [List.length_append]
    exact hIndex
  · rw [hQueued, List.append_assoc (gone ++ stale)]
  · cases hConsumer : sys.consumer with
    | idle | deleting entries =>
      rw [hConsumer] at hFits
      exact hFits
    | iterating left entries =>
      rw [hConsumer] at hFits
      refine ⟨hFits.1, hFits.2.trans ?_⟩
      rw [numbered_append]
      exact List.prefix_append _ _

/- The item that the iteration visits next. -/
theorem Consumer.Fits.visit
    (hFits : (Consumer.iterating ((key, item) :: left) entries).Fits gone stale pending) :
    ∃ rest,
      pending = item :: rest ∧ key = queueName (gone.length + stale.length + 1) ∧
        left <+: numbered queueName (gone.length + stale.length + 2) rest := by
  rcases hFits with ⟨-, hLeft⟩
  cases pending with
  | nil =>
    have hNil := List.prefix_nil.mp hLeft
    cases hNil
  | cons first rest =>
    rw [numbered, List.cons_prefix_cons, Prod.mk.injEq] at hLeft
    rcases hLeft with ⟨⟨hKey, rfl⟩, hLeft⟩
    exact ⟨rest, rfl, hKey, hLeft⟩

/- An item whose call succeeds is not pending any more. -/
theorem Queueing.Sound.deliver (hSound : sys.Sound) (stop : Bool)
    (hConsumer : sys.consumer = .iterating ((key, item) :: left) entries) : Queueing.Sound
      { sys with
        queue := sys.queue.raise item.radius
        consumer :=
          if stop then .deleting (entries ++ [key])
          else .iterating left (entries ++ [key])
        calls := sys.calls ++ [(item, true)] } := by
  rcases hSound.parts with ⟨gone, stale, pending, hQueued, hServe, hIterate, hFits⟩
  rw [hConsumer] at hFits
  rcases hFits.visit with ⟨rest, rfl, hKey, hLeft⟩
  have hEntries :
      entries ++ [key] = (numbered queueName (gone.length + 1) (stale ++ [item])).map Prod.fst := by
    rw [numbered_append, List.map_append, ← hFits.1, hKey, Nat.add_right_comm]
    rfl
  refine ⟨hSound.index, hSound.cardinality, gone,
    stale ++ [item], rest, ?_, serve_append_call hServe true, ?_, ?_⟩
  · rw [hQueued, List.append_assoc, List.append_assoc, List.append_assoc]
    rfl
  · rw [List.append_assoc]
    exact hIterate
  · cases stop with
    | true => exact hEntries
    | false =>
      refine ⟨hEntries, ?_⟩
      rw [List.length_append]
      exact hLeft

/- A failed call leaves its item at the front. -/
theorem Queueing.Sound.fail (hSound : sys.Sound)
    (hConsumer : sys.consumer = .iterating ((key, item) :: left) entries) : Queueing.Sound
      { sys with
        consumer := .deleting entries
        calls := sys.calls ++ [(item, false)] } := by
  rcases hSound.parts with ⟨gone, stale, pending, hQueued, hServe, hIterate, hFits⟩
  rw [hConsumer] at hFits
  rcases hFits.visit with ⟨rest, rfl, -, -⟩
  exact ⟨hSound.index, hSound.cardinality, gone, stale,
    item :: rest, hQueued, serve_append_call hServe false, hIterate, hFits.1⟩

/- The first key to delete is that of the first entry. -/
theorem Queueing.Sound.delete (hSound : sys.Sound)
    (hConsumer : sys.consumer = .deleting (key :: entries)) : Queueing.Sound
      { sys with
        queue := sys.queue.delete key
        consumer := .deleting entries } := by
  rcases hSound.parts with ⟨gone, stale, pending, hQueued, hServe, hIterate, hFits⟩
  rw [hConsumer] at hFits
  cases stale with
  | nil => cases hFits
  | cons item stale =>
    have hParts :
        key = queueName (gone.length + 1) ∧
          entries = (numbered queueName (gone.length + 1 + 1) stale).map Prod.fst :=
      List.cons_eq_cons.mp hFits
    have hLength : (gone ++ [item]).length = gone.length + 1 := by
      rw [List.length_append, List.length_singleton]
    refine ⟨hSound.index, hSound.cardinality, gone ++ [item], stale, pending, ?_, hServe, ?_, ?_⟩
    · rw [hQueued, List.append_assoc gone [item]]
      rfl
    · rw [hLength]
      apply Index.branch_delete_first
      rw [hParts.1]
      exact hIterate
    · unfold Consumer.Fits
      rw [hLength]
      exact hParts.2

/- Every step keeps the queue in order. -/
theorem Queueing.Sound.step (hSound : sys.Sound)
    (hRoom : ∀ item, op = .unreserve item → sys.queued.length + 1 < 2 ^ 64)
    (hStep : QueueStep op sys sys') : sys'.Sound := by
  cases hStep with
  | unreserve _ item => exact hSound.unreserve item (hRoom item rfl)
  | iterate _ hIdle =>
    rcases hSound.parts with ⟨gone, stale, pending, hQueued, hServe, hIterate, hFits⟩
    rw [hIdle] at hFits
    have hNil : stale = [] := hFits
    subst hNil
    refine ⟨hSound.index, hSound.cardinality, gone, [], pending, hQueued, hServe, hIterate, rfl, ?_⟩
    rw [hIterate]
    exact List.prefix_refl _
  | fail _ hConsumer => exact hSound.fail hConsumer
  | deliver _ stop hConsumer => exact hSound.deliver stop hConsumer
  | finish _ hConsumer =>
    rcases hSound.parts with ⟨gone, stale, pending, hQueued, hServe, hIterate, hFits⟩
    rw [hConsumer] at hFits
    exact ⟨hSound.index, hSound.cardinality, gone, stale,
      pending, hQueued, hServe, hIterate, hFits.1⟩
  | delete _ hConsumer => exact hSound.delete hConsumer
  | leave _ hConsumer =>
    rcases hSound.parts with ⟨gone, stale, pending, hQueued, hServe, hIterate, hFits⟩
    rw [hConsumer] at hFits
    refine ⟨hSound.index, hSound.cardinality, gone, stale, pending, hQueued, hServe, hIterate, ?_⟩
    cases stale with
    | nil => rfl
    | cons item stale => cases hFits
  | restart _ hIdle =>
    refine ⟨?_, ?_, hSound.parts⟩
    · dsimp only [UnreserveQueue.restart]
      rw [hSound.cardinality]
      exact hSound.index
    · rfl

end

---- The Queue Of The Batch Store

section

open KeyValue Program

variable {op : QueueOp}

/- The items that are still to be delivered. -/
def Queueing.pending (sys : Queueing) : List UnreserveItem :=
  (serve sys.queued sys.calls).getD []

/- The batch store with the radius and the pending items. -/
def Queueing.view (sys : Queueing) (st : BatchStore) : BatchStore :=
  { st with
    rs := { st.rs with storageRadius := sys.queue.storageRadius }
    queue := sys.pending }

/- What a step is for the batch store. -/
def QueueOp.effect : QueueOp → BatchStore → BatchStore
| .unreserve item, st => st.unreserve item.batchID item.radius
| .deliver _, st => st.unreserveItems 1
| .iterate, st => st
| .fail, st => st
| .finish, st => st
| .delete, st => st
| .leave, st => st
| .restart, st => st

/- The pending items, when all calls were in order. -/
theorem Queueing.pending_eq {pending : List UnreserveItem}
    (hServe : serve sys.queued sys.calls = some pending) : sys.pending = pending := by
  unfold Queueing.pending
  rw [hServe, Option.getD_some]

/- A delivery takes the first item of the batch store. -/
theorem unreserveItems_one {st : BatchStore} (hQueue : st.queue = item :: rest) :
    st.unreserveItems 1 =
      { st with
        queue := rest
        rs := { st.rs with
          storageRadius :=
            if st.rs.storageRadius + 1 < item.radius then item.radius - 1
            else
              st.rs.storageRadius } } := by
  unfold BatchStore.unreserveItems
  rw [hQueue]
  dsimp only
  split <;> rfl

/- The stored queue behaves as the list of items that the batch store has. -/
theorem QueueStep.refines (hSound : sys.Sound) (hStep : QueueStep op sys sys') :
    sys'.view st = op.effect (sys.view st) := by
  rcases hSound.parts with ⟨gone, stale, pending, hQueued, hServe, hIterate, hFits⟩
  cases hStep with
  | unreserve _ item =>
    have hPending := Queueing.pending_eq hServe
    have hNext : Queueing.pending
          { sys with
            queue := sys.queue.unreserve item
            queued := sys.queued ++ [item] } =
          pending ++ [item] :=
      Queueing.pending_eq (serve_append_items hServe [item])
    unfold Queueing.view
    rw [hPending, hNext]
    rfl
  | deliver _ stop hConsumer =>
    rw [hConsumer] at hFits
    rcases hFits.visit with ⟨rest, rfl, -, -⟩
    have hPending := Queueing.pending_eq hServe
    have hNext := serve_append_call hServe true
    have hQueue : (sys.view st).queue = _ :: rest := hPending
    have hEffect := unreserveItems_one hQueue
    dsimp only [QueueOp.effect]
    rw [hEffect]
    unfold Queueing.view
    rw [Queueing.pending_eq hNext]
    rfl
  | fail _ hConsumer =>
    rw [hConsumer] at hFits
    rcases hFits.visit with ⟨rest, rfl, -, -⟩
    have hPending := Queueing.pending_eq hServe
    have hNext := serve_append_call hServe false
    unfold QueueOp.effect Queueing.view
    rw [hPending, Queueing.pending_eq hNext]
    rfl
  | iterate _ hIdle | finish _ hConsumer | delete _ hConsumer
  | leave _ hConsumer | restart _ hIdle => rfl

end

---- Runs

open KeyValue Program

/- The last number of the counter is not used up. -/
def QueueOp.Numbered (op : QueueOp) (sys : Queueing) : Prop :=
  ∀ item, op = .unreserve item → sys.queued.length + 1 < 2 ^ 64

theorem sound_of_reach (hReach : Reach QueueStep QueueOp.Numbered .start sys) : sys.Sound :=
  hReach.invariant Queueing.Sound sound_start
    fun _ _ _ hSound hRoom hStep => hSound.step hRoom hStep

/-
  The callback is called for the first item that is not delivered, and the items that are not
  delivered are stored, behind those that the running call of `Unreserve` deletes.
-/
theorem unreserve_fifo (hReach : Reach QueueStep QueueOp.Numbered .start sys) :
    ∃ stale pending,
      serve sys.queued sys.calls = some pending ∧
        sys.queue.iterate.map Prod.snd = stale ++ pending ∧ (sys.consumer = .idle → stale = []) ∧
        ∀ left entries, sys.consumer = .iterating left entries → left.map Prod.snd <+: pending := by
  have hSound := sound_of_reach hReach
  rcases hSound.parts with ⟨gone, stale, pending, hQueued, hServe, hIterate, hFits⟩
  refine ⟨stale, pending, hServe, ?_, ?_, ?_⟩
  · rw [hIterate, map_snd_numbered]
  · intro hIdle
    rw [hIdle] at hFits
    exact hFits
  · intro left entries hConsumer
    rw [hConsumer] at hFits
    have hItems := hFits.2.map Prod.snd
    rw [map_snd_numbered] at hItems
    exact hItems

/- A queue from which nothing was taken yet. -/
theorem Queueing.Sound.iterate_eq (hSound : sys.Sound) (hCalls : sys.calls = [])
    (hIdle : sys.consumer = .idle) : sys.queue.iterate = numbered queueName 1 sys.queued := by
  rcases hSound.parts with ⟨gone, stale, pending, hQueued, hServe, hIterate, hFits⟩
  rw [hIdle] at hFits
  have hNil : stale = [] := hFits
  subst hNil
  rw [hCalls] at hServe
  have hPending := Option.some.inj hServe
  rw [hPending, List.append_nil] at hQueued
  have hGone : gone = [] := List.self_eq_append_left.mp hQueued
  rw [hIterate, hGone, ← hPending]
  rfl

/- Two items queued, of which the first one is delivered. -/
theorem unreserve_fifo_two :
    ∃ sys : Queueing,
      sys.queued = [⟨1, 5⟩, ⟨2, 6⟩] ∧ sys.calls = [(⟨1, 5⟩, true)] ∧
        ∃ stale pending,
          serve sys.queued sys.calls = some pending ∧
            sys.queue.iterate.map Prod.snd = stale ++ pending := by
  let one := UnreserveItem.mk 1 5
  let two := UnreserveItem.mk 2 6
  let first : Queueing :=
    { Queueing.start with
      queue := Queueing.start.queue.unreserve one
      queued := [one] }
  let second : Queueing :=
    { first with
      queue := first.queue.unreserve two
      queued := [one, two] }
  have hFirst : Reach QueueStep QueueOp.Numbered .start first := by
    refine .step (.unreserve one) .start ?_ (.unreserve _ one)
    intro _ _
    dsimp only [Queueing.start, List.length_nil]
    omega
  have hSecond : Reach QueueStep QueueOp.Numbered .start second := by
    refine .step (.unreserve two) hFirst ?_ (.unreserve _ two)
    intro _ _
    dsimp only [first, List.length_singleton]
    omega
  have hIterate : second.queue.iterate = [(queueName 1, one), (queueName 2, two)] :=
    (sound_of_reach hSecond).iterate_eq rfl rfl
  have hVisit := Reach.step .iterate hSecond nofun (.iterate second rfl)
  rw [hIterate] at hVisit
  have hDeliver := Reach.step (.deliver true) hVisit nofun (.deliver _ true rfl)
  rcases unreserve_fifo hDeliver with ⟨stale, pending, hServe, hStored, -, -⟩
  exact ⟨_, rfl, rfl, stale, pending, hServe, hStored⟩

/- Queueing one item over and over. -/
theorem exists_reach_replicate (item : UnreserveItem) (hBound : n < 2 ^ 64) :
    ∃ sys,
      Reach QueueStep QueueOp.Numbered .start sys ∧ sys.queued = List.replicate n item ∧
        sys.calls = [] ∧ sys.consumer = .idle := by
  induction n with
  | zero => exact ⟨.start, .start, rfl, rfl, rfl⟩
  | succ n ih =>
    rcases ih (Nat.lt_of_succ_lt hBound) with ⟨sys, hReach, hQueued, hCalls, hIdle⟩
    refine ⟨_, .step (.unreserve item) hReach ?_ (.unreserve sys item), ?_, hCalls, hIdle⟩
    · intro _ _
      rw [hQueued, List.length_replicate]
      exact hBound
    · rw [hQueued, List.replicate_succ']

/- An item with the number zero is visited first. -/
theorem UnreserveQueue.iterate_wrapped {q : UnreserveQueue} (hIndex : q.queueIdx + 1 = 0)
    {items : List UnreserveItem} (hIterate : q.iterate = numbered queueName 1 items)
    (hLength : items.length < 2 ^ 64) (item : UnreserveItem) :
    (q.unreserve item).iterate = (queueName 0, item) :: q.iterate := by
  have hKey : queueKey (q.queueIdx + 1) = queueName 0 := by
    rw [hIndex]
    rfl
  unfold UnreserveQueue.unreserve UnreserveQueue.iterate
  dsimp only
  rw [hKey]
  apply Index.branch_put_first
  · exact unreserveQueueKey_prefix_queueKey _
  · intro entry hMem
    have hOld : entry ∈ q.iterate := hMem
    rw [hIterate] at hOld
    rcases exists_of_mem_numbered hOld with ⟨i, hLe, hLt, hEq⟩
    rw [hEq]
    exact compare_queueName (by omega) (by omega)

/-
  After `2^64 - 1` items the counter starts again with zero, and the next item is delivered first.
-/
theorem unreserve_not_fifo :
    ¬ ∀ sys, Reach QueueStep (fun _ _ => True) .start sys →
      ∃ pending, serve sys.queued sys.calls = some pending := by
  intro hAll
  rcases exists_reach_replicate ⟨0, 1⟩
      (Nat.sub_lt (Nat.pow_pos (n := 64) Nat.two_pos) Nat.one_pos) with
    ⟨sys, hReach, hQueued, hCalls, hIdle⟩
  have hSound := sound_of_reach hReach
  have hLength : sys.queued.length = 2 ^ 64 - 1 := by rw [hQueued, List.length_replicate]
  have hIndex : sys.queue.queueIdx + 1 = 0 := by
    apply UInt64.toNat_inj.mp
    have hOne : (1 : UInt64).toNat = 1 := rfl
    have hZero : (0 : UInt64).toNat = 0 := rfl
    rw [UInt64.toNat_add, hSound.index, hLength, hOne]
    norm_num
  have hIterate :=
    UnreserveQueue.iterate_wrapped hIndex (hSound.iterate_eq hCalls hIdle) (by omega) ⟨1, 1⟩
  have hPut :=
    (hReach.mono fun _ _ _ => trivial).step (.unreserve ⟨1, 1⟩) trivial (.unreserve sys ⟨1, 1⟩)
  have hVisit := Reach.step .iterate hPut trivial (.iterate _ (by exact hIdle))
  rw [hIterate] at hVisit
  have hDeliver := Reach.step (.deliver true) hVisit trivial (.deliver _ true rfl)
  rcases hAll _ hDeliver with ⟨pending, hServe⟩
  -- the queue has the other item in front
  have hFront : sys.queued = ⟨0, 1⟩ :: List.replicate (2 ^ 64 - 2) ⟨0, 1⟩ := by
    have hSucc : 2 ^ 64 - 1 = 2 ^ 64 - 2 + 1 := by omega
    rw [hQueued, hSucc, List.replicate_succ]
  rw [hFront, hCalls] at hServe
  cases hServe

end Sana.Postage
