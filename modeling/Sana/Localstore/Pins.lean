import Sana.Localstore.System

/-
  The pins of users and the pin counter.

  The counter of an address stands for the pins of users and for the pin of the reserve.  The tally
  of an address is the history of a user's pins and unpins since it was stored.

  The push index, and the subscription that iterates over it.

  Key definitions include:
    * `Tally`
    * `PinReachable`

  Key theorems include:
    * `ViewStep.covers`
-/

---- Tallies

namespace Sana.Localstore

open KeyValue Program Swarm

/- Successful pins and unpins by users. -/
structure Tally where
  pinned : Nat := 0
  unpinned : Nat := 0
deriving DecidableEq, Repr

/- Some pin of a user is left. -/
def Tally.Pinned (t : Tally) : Prop :=
  t.unpinned < t.pinned

/- Whether an operation is a user's unpin of an address. -/
def Op.userUnpins (op : Op) (a : Address) : Bool :=
  match op with
  | .set .unpin addrs => addrs.contains a
  | _ => false

/- Whether an operation removes an address for a user. -/
def Op.userRemoves (op : Op) (a : Address) : Bool :=
  match op with
  | .set .remove addrs => addrs.contains a
  | _ => false

/- A tally starts anew while the address is not stored. -/
def Tally.since (t : Tally) (before : View) : Tally :=
  if before.data = none then {} else t

/- The tally after an operation. -/
def Tally.after (t : Tally) (op : Op) (a : Address) (before after : View) : Tally :=
  let t := t.since before
  if op.userRemoves a then {}
  else if op.userPins a then
    if before.data = none ∧ after.data = none then t
    else { t with pinned := t.pinned + 1 }
  else if op.userUnpins a then { t with unpinned := t.unpinned + 1 }
  else t

/- A successful operation, together with the tally of `a`. -/
def PinStep (cfg : Config) (a : Address) (op : Op) (before after : DB × Tally) : Prop :=
  Step cfg op before.1 after.1 ∧
    after.2 = before.2.after op a (before.1.store.view a) (after.1.store.view a)

/- The states of runs, with the tally of one address. -/
abbrev PinReachable (cfg : Config) (a : Address) (allowed : Op → DB × Tally → Prop) :
    DB × Tally → Prop :=
  Reach (PinStep cfg a) allowed (.empty, {})

/-
  The operation spares the pins of users of `a`: it does not displace `a` while it is pinned by a
  user, or is being pinned, and it unreserves `a` only if the counter holds a pin besides those of
  users.
-/
def PinSafe (cfg : Config) (a : Address) (op : Op) (state : DB × Tally) : Prop :=
  match op with
  | .put mode chs =>
    state.2.Pinned ∨ (Op.put mode chs).userPins a = true →
      ∀ ch ∈ chs, state.1.store.displaced ch ≠ some a
  | .unreserveBatch id radius =>
    state.2.Pinned →
      state.1.store.visits cfg id radius a →
        state.2.pinned < state.2.unpinned + (state.1.store.view a).pins
  | _ => True

---- The Counter Covers The Tally

section

/- The counter stands for at least the pins of users. -/
structure View.Covers (v : View) (t : Tally) : Prop where
  stored : v.data ≠ none → t.pinned ≤ t.unpinned + v.pins
  absent : v.data = none → t.pinned ≤ t.unpinned

namespace View

variable {v w : View} {t : Tally} {op : Op} {a : Address}

theorem covers_nil : v.Covers {} :=
  ⟨fun _ => Nat.zero_le _, fun _ => Nat.zero_le _⟩

/- The tally that is continued is covered as well. -/
theorem Covers.since (hCovers : v.Covers t) :
    (t.since v).pinned ≤ (t.since v).unpinned + v.pins := by
  unfold Tally.since
  split
  · exact Nat.zero_le _
  · next hData => exact hCovers.stored hData

theorem since_of_data (hData : v.data = none) : t.since v = {} :=
  if_pos hData

theorem since_of_stored (hData : v.data = some d) : t.since v = t :=
  if_neg (by rw [hData]; simp)

/- A step without a pin by a user. -/
theorem Covers.plain (hPlain : op.userPins a = false) (hCovers : w.Covers (t.since v)) :
    w.Covers (t.after op a v w) := by
  unfold Tally.after
  simp only [hPlain, Bool.false_eq_true, if_false]
  split
  · exact covers_nil
  split
  · constructor
    · intro hData
      have hLe := hCovers.stored hData
      dsimp only
      omega
    · intro hData
      have hLe := hCovers.absent hData
      dsimp only
      omega
  · exact hCovers

/- A pin by a user that reaches the counter. -/
theorem Covers.pinned (hCovers : v.Covers t) (hPins : op.userPins a = true)
    (hPin : w.pin = some (v.pins + 1)) (hData : w.data = none → v.data = none) :
    w.Covers (t.after op a v w) := by
  have hSince := hCovers.since
  unfold Tally.after
  split
  · exact covers_nil
  split
  · next hAbsent =>
      rw [since_of_data hAbsent.1]
      exact covers_nil
  · next hStored =>
      constructor
      · simp only [View.pins, hPin, Option.getD_some]
        simp only [View.pins] at hSince
        omega
      · intro hNone
        exact absurd ⟨hData hNone, hNone⟩ hStored

/- A step that keeps the data and at least the pins. -/
theorem Covers.keeps (hCovers : v.Covers t) (hData : w.data = v.data) (hPins : v.pins ≤ w.pins) :
    w.Covers (t.since v) := by
  have hSince := hCovers.since
  constructor
  · omega
  · intro hNone
    rw [since_of_data (hData ▸ hNone)]

/- A step at an address that is not pinned by users. -/
theorem covers_of_not_pinned (hNot : (t.since v).pinned ≤ (t.since v).unpinned) :
    w.Covers (t.since v) :=
  ⟨fun _ => Nat.le_add_right_of_le hNot, fun _ => hNot⟩

/- The pins left after an unpin. -/
theorem Unpinned.pins_le (hUnpinned : Unpinned v c w) : w.data = v.data ∧ v.pins ≤ w.pins + 1 := by
  cases hUnpinned with
  | dropped n hPin hMany =>
    refine ⟨rfl, ?_⟩
    simp only [pins, hPin, Option.getD_some]
    omega
  | released n hPin hLast
  | collectable n d time hPin hLast hData hPush hAccess =>
    simpa [pins, hPin] using hLast

theorem Touched.pins (hTouched : Touched item v w) : w.data = v.data ∧ w.pins = v.pins := by
  cases hTouched <;> exact ⟨rfl, rfl⟩

end View

variable {cfg : Config} {db : DB} {t : Tally} {op : Op}
variable {a : Address} {w : View}

/- What a put call does to the pins of one address. -/
theorem PutView.covers (hView : PutView cfg mode db.store chs a w)
    (hPins :
      mode = .uploadPin → containsChunk a chs = true →
        (∀ ch ∈ chs, db.store.displaced ch ≠ some a) → w.pin = some ((db.store.view a).pins + 1))
    (hSafe : PinSafe cfg a (.put mode chs) (db, t)) (hCovers : (db.store.view a).Covers t) :
    w.Covers (t.after (.put mode chs) a (db.store.view a) w) := by
  by_cases hUser : (Op.put mode chs).userPins a = true
  · have hKept := hSafe (Or.inr hUser)
    have hMode : mode = .uploadPin ∧ containsChunk a chs = true := by
      cases mode <;> simp_all [Op.userPins]
    refine hCovers.pinned hUser (hPins hMode.1 hMode.2 hKept) ?_
    intro hNone
    cases hView with
    | same => exact hNone
    | stored ch d c hMem hAddress hData => exact hData
    | gone ch d hMem hDisplaced => exact absurd hDisplaced (hKept ch hMem)
    | pinned ch hMem hAddress hMode hPinned =>
      rw [← hPinned.data]
      exact hNone
  · have hPlain : (Op.put mode chs).userPins a = false := by simpa using hUser
    refine View.Covers.plain hPlain ?_
    cases hView with
    | same => exact hCovers.keeps rfl le_rfl
    | stored ch d c hMem hAddress hData =>
      rw [View.since_of_data hData]
      exact View.covers_nil
    | gone ch d hMem hDisplaced hData =>
      apply View.covers_of_not_pinned
      rw [View.since_of_stored hData]
      by_contra hPinned
      exact hSafe (Or.inl (Nat.lt_of_not_le hPinned)) ch hMem hDisplaced
    | pinned ch hMem hAddress hMode hPinned =>
      exact hCovers.keeps hPinned.data (by
        simp [View.pins, hPinned.pin])

/- What a set call does to the pins of one address. -/
theorem SetView.covers (hMem : a ∈ addrs) (hView : SetView mode v w) (hCovers : v.Covers t) :
    w.Covers (t.after (.set mode addrs) a v w) := by
  cases hView with
  | removed hMode hData hGone =>
    subst hMode
    simp only [Tally.after, Op.userRemoves, List.contains_iff_mem, hMem, if_true]
    exact View.covers_nil
  | pinned hMode hPinned =>
    subst hMode
    refine hCovers.pinned (by simpa [Op.userPins]) hPinned.pin ?_
    rw [hPinned.data]
    exact id
  | unpinned c hMode hUnpinned =>
    subst hMode
    have hLe := hUnpinned.pins_le
    have hSince := hCovers.since
    simp only [Tally.after, Op.userRemoves, Op.userPins,
      Op.userUnpins, List.contains_iff_mem, hMem, if_true, Bool.false_eq_true, if_false]
    constructor
    · dsimp only
      omega
    · intro hNone
      rw [hLe.1] at hNone
      rw [View.since_of_data hNone]
      exact Nat.zero_le _
  | synced d hMode hSynced =>
    subst hMode
    refine View.Covers.plain rfl (hCovers.keeps hSynced.data ?_)
    simp [View.pins, hSynced.pin]
  | unsynced hMode hData =>
    subst hMode
    exact View.Covers.plain rfl (hCovers.keeps rfl le_rfl)

/- A safe operation keeps the tally covered. -/
theorem ViewStep.covers (hCons : (db.store.view a).Consistent (cfg.po a))
    (hSafe : PinSafe cfg a op (db, t)) (hStep : ViewStep cfg db.store op a w)
    (hCovers : (db.store.view a).Covers t) : w.Covers (t.after op a (db.store.view a) w) := by
  cases hStep with
  | same op a hPlain => exact View.Covers.plain hPlain (hCovers.keeps rfl le_rfl)
  | put hView hPins => exact hView.covers hPins hSafe hCovers
  | set hMem hView => exact hView.covers hMem hCovers
  | getRequest d hData hTouched =>
    have hSame := hTouched.pins
    exact View.Covers.plain rfl (hCovers.keeps hSame.1 hSame.2.ge)
  | unreserveBatch c hVisits hUnpinned =>
    rcases hCons.chunks _ _ hVisits.1 with ⟨d, hData, -⟩
    have hLe := hUnpinned.pins_le
    refine View.Covers.plain rfl ?_
    rw [View.since_of_stored hData]
    constructor
    · intro _
      by_cases hPinned : t.Pinned
      · have hOther := hSafe hPinned hVisits
        dsimp only at hOther
        omega
      · exact Nat.le_add_right_of_le (Nat.le_of_not_lt hPinned)
    · intro hNone
      rw [hLe.1, hData] at hNone
      cases hNone
  | collectGarbage item hGC hGone hPin =>
    rcases hCons.gc _ _ _ hGC with ⟨d, hData, -, -, hUnpinned, -⟩
    refine View.Covers.plain rfl (View.covers_of_not_pinned ?_)
    have hSince := hCovers.since
    simpa [View.pins, hUnpinned] using hSince

end

---- Runs

/- In every run of safe operations an address with a pin of a user left is pinned and stored. -/
theorem userPins_survive {cfg : Config} {a : Address} {db : DB} {t : Tally}
    (hReach : PinReachable cfg a (PinSafe cfg a) (db, t)) (hPinned : t.Pinned) :
    db.store.pinIndex.has a = true ∧ db.store.retrievalDataIndex.has a = true := by
  have hInv := hReach.invariant (fun state =>
      state.1.store.Consistent cfg ∧ state.1.Idle ∧ (state.1.store.view a).Covers state.2)
    ⟨consistent_empty cfg, ⟨rfl, rfl⟩, View.covers_nil⟩
    (by
      rintro op ⟨before, t⟩ ⟨after, t'⟩ ⟨hCons, hIdle, hCovers⟩ hSafe ⟨hStep, hTally⟩
      have hStore := storeStep_of_step hIdle hCons hStep
      have hView := viewStep_of_storeStep hCons hStore.1 a
      refine ⟨hStore.1.consistent hCons, hStore.2, ?_⟩
      rw [hTally]
      exact hView.covers (hCons a) hSafe hCovers)
  have hCovers : (db.store.view a).Covers t := hInv.2.2
  unfold Tally.Pinned at hPinned
  cases hData : db.store.retrievalDataIndex.get a with
  | none =>
    have hLe := hCovers.absent hData
    omega
  | some d =>
    have hLe := hCovers.stored (by
      simp [Store.view, hData])
    refine ⟨?_, by simp [Index.has, hData]⟩
    cases hPin : db.store.pinIndex.get a with
    | none =>
      simp only [View.pins, Store.view, hPin, Option.getD_none] at hLe
      omega
    | some n => simp [Index.has, hPin]

theorem PinReachable.after (hReach : PinReachable cfg a allowed (db, t)) (clock : Clock) (op : Op)
    (hAllowed : allowed op (db, t)) (hOk : db.accepts cfg clock op = true)
    (hTally : t' = t.after op a (db.store.view a) ((db.after cfg clock op).store.view a)) :
    PinReachable cfg a allowed (db.after cfg clock op, t') :=
  .step op hReach hAllowed ⟨⟨clock, hOk, rfl⟩, hTally⟩

/- A run that uploads and pins one chunk. -/
def pinnedRun : DB :=
  DB.empty.after smallConfig (fun _ => 1) (.put .uploadPin [smallChunk 1 0 1])

/- The chunk is then synced into the reserve. -/
def pinnedSyncedRun : DB :=
  pinnedRun.after smallConfig (fun _ => 2) (.set .sync [1])

/- The batch is unreserved in no bin, and then in all bins. -/
def pinnedEvictedRun (db : DB) : DB :=
  (db.after smallConfig (fun _ => 3)
    (.unreserveBatch 7 0)).after smallConfig (fun _ => 4) (.unreserveBatch 7 (maxPO + 1))

/- The pin of the reserve pays for the eviction. -/
theorem userPins_survive_pinnedSyncedRun :
    let db := pinnedEvictedRun pinnedSyncedRun
    db.store.pinIndex.has 1 = true ∧ db.store.retrievalDataIndex.has 1 = true := by
  have hPinned : PinReachable smallConfig 1 (PinSafe smallConfig 1) (pinnedRun, ⟨1, 0⟩) := by
    refine PinReachable.after .start _ _ ?_ (by decide) (by decide)
    intro _ ch hMem hDisplaced
    cases hDisplaced
  have hSynced : PinReachable smallConfig 1 (PinSafe smallConfig 1) (pinnedSyncedRun, ⟨1, 0⟩) :=
    hPinned.after _ (.set .sync [1]) trivial (by decide) (by decide)
  have hRecorded :
      PinReachable smallConfig 1 (PinSafe smallConfig 1)
        (pinnedSyncedRun.after smallConfig (fun _ => 3) (.unreserveBatch 7 0), ⟨1, 0⟩) :=
    hSynced.after _ (.unreserveBatch 7 0) (fun _ _ => by decide) (by decide) (by decide)
  have hEvicted :
      PinReachable smallConfig 1 (PinSafe smallConfig 1)
        (pinnedEvictedRun pinnedSyncedRun, ⟨1, 0⟩) :=
    hRecorded.after _ (.unreserveBatch 7 (maxPO + 1)) (fun _ _ => by decide) (by decide) (by decide)
  exact userPins_survive hEvicted Nat.zero_lt_one

/- Without it, the eviction takes the pin of the user. -/
theorem userPins_lost_of_unreserve :
    ¬ ∀ (cfg : Config) (a : Address) (db : DB) (t : Tally),
      PinReachable cfg a (fun _ _ => True) (db, t) → t.Pinned →
      db.store.pinIndex.has a = true ∧ db.store.retrievalDataIndex.has a = true := by
  intro hAll
  have hPinned : PinReachable smallConfig 1 (fun _ _ => True) (pinnedRun, ⟨1, 0⟩) :=
    PinReachable.after .start _ _ trivial (by decide) (by decide)
  have hRecorded :
      PinReachable smallConfig 1 (fun _ _ => True)
        (pinnedRun.after smallConfig (fun _ => 3) (.unreserveBatch 7 0), ⟨1, 0⟩) :=
    hPinned.after _ _ trivial (by decide) (by decide)
  have hEvicted :
      PinReachable smallConfig 1 (fun _ _ => True) (pinnedEvictedRun pinnedRun, ⟨1, 0⟩) :=
    hRecorded.after _ _ trivial (by decide) (by decide)
  have hHas := (hAll smallConfig 1 _ _ hEvicted Nat.zero_lt_one).1
  have hNone : (pinnedEvictedRun pinnedRun).store.pinIndex.has 1 =
        false := by decide
  cases hHas

---- The Subscription

/- The item that iterating over `pushIndex` yields. -/
def pushItem (entry : PushKey × Nat) : Item where
  address := entry.1.address
  storeTimestamp := entry.1.storeTimestamp
  tag := entry.2

/- The chunk that is sent for an item of the push index. -/
def pushChunk (item dataItem : Item) : Chunk where
  address := dataItem.address
  data := dataItem.data
  tagID := item.tag
  stamp := ⟨dataItem.batchID, dataItem.index, dataItem.timestamp, dataItem.sig⟩

/-
  One iteration of `SubscribePush`: the chunks sent before it ends, and whether it ends with an
  error, which terminates the subscription.
-/
def pushEntries (s : Store) : List (PushKey × Nat) → List Chunk × Except Err Unit
| [] => ([], .ok ())
| entry :: entries =>
  match s.getRetrievalData (pushItem entry) with
  | none => ([], .error .notFound)
  | some dataItem =>
    let rest := pushEntries s entries
    (pushChunk (pushItem entry) dataItem :: rest.1, rest.2)

/- The entries that follow the item sent last. -/
def Store.pushEntriesSince (s : Store) (since : Option PushKey) : List (PushKey × Nat) :=
  match since with
  | none => s.pushIndex.entries
  | some key => s.pushIndex.entries.filter fun entry => compare key entry.1 == .lt

def pushIterate (s : Store) (since : Option PushKey) : List Chunk × Except Err Unit :=
  pushEntries s (s.pushEntriesSince since)

/- Every push entry refers to a stored chunk. -/
def Store.PushIntegrity (s : Store) : Prop :=
  ∀ key tag, s.pushIndex.get key = some tag →
    ∃ d, s.retrievalDataIndex.get key.address = some d ∧ d.storeTimestamp = key.storeTimestamp

theorem pushEntries_of_data
    (hData : ∀ entry ∈ entries, ∃ d, s.retrievalDataIndex.get entry.1.address = some d) :
    (pushEntries s entries).2 = .ok () ∧ (pushEntries s entries).1.length = entries.length := by
  induction entries with
  | nil => exact ⟨rfl, rfl⟩
  | cons entry entries ih =>
    rcases hData entry (List.mem_cons_self ..) with ⟨d, hGet⟩
    have hRest := ih fun other hMem => hData other (List.mem_cons_of_mem entry hMem)
    have hItem : ∃ item, s.getRetrievalData (pushItem entry) = some item := by
      unfold Store.getRetrievalData pushItem
      rw [hGet]
      exact ⟨_, rfl⟩
    rcases hItem with ⟨item, hItem⟩
    simp only [pushEntries, hItem, List.length_cons]
    exact ⟨hRest.1, by rw [hRest.2]⟩

/- With integrity, an iteration sends all remaining chunks. -/
theorem pushIterate_of_integrity (hIntegrity : s.PushIntegrity) :
    (pushIterate s since).2 = .ok () ∧
      (pushIterate s since).1.length = (s.pushEntriesSince since).length := by
  apply pushEntries_of_data
  intro entry hMem
  have hEntry : entry ∈ s.pushIndex.entries := by
    unfold Store.pushEntriesSince at hMem
    split at hMem
    · exact hMem
    · exact List.mem_of_mem_filter hMem
  rcases hIntegrity entry.1 entry.2 ((Index.mem_entries_iff _ _ _).mp hEntry) with ⟨d, hGet, -⟩
  exact ⟨d, hGet⟩

---- Push Entries Of One Address

section

/-
  A push entry belongs to a stored chunk that has not been accessed, and carries its store
  timestamp.
-/
def View.Pushed (v : View) : Prop :=
  ∀ t tag, v.push t = some tag → v.access = none ∧ ∃ d, v.data = some d ∧ d.storeTimestamp = t

/- The chunk does not wait to be pushed. -/
def View.NotPushed (v : View) : Prop :=
  ∀ t, v.push t = none

/-
  An operation does not delete a chunk that waits to be pushed: neither on request nor to make room
  for a stamp.
-/
def PushSafe (op : Op) (s : Store) : Prop :=
  match op with
  | .set .remove addrs => ∀ a ∈ addrs, (s.view a).NotPushed
  | .put _ chs => ∀ ch ∈ chs, ∀ p, s.displaced ch = some p → (s.view p).NotPushed
  | _ => True

namespace View

variable {v w : View} {d : RetrievalData} {c : Int}
variable {po : Nat}

theorem Pushed.not_pushed_of_data (hPushed : v.Pushed) (hData : v.data = none) : v.NotPushed := by
  intro t
  cases hSome : v.push t with
  | none => rfl
  | some tag =>
    rcases (hPushed t tag hSome).2 with ⟨d, hStored, -⟩
    rw [hData] at hStored
    cases hStored

theorem Pushed.not_pushed_of_access (hPushed : v.Pushed)
    (hAccess : v.access = some time) : v.NotPushed := by
  intro t
  cases hSome : v.push t with
  | none => rfl
  | some tag =>
    have hNone := (hPushed t tag hSome).1
    rw [hAccess] at hNone
    cases hNone

theorem NotPushed.pushed (hNot : v.NotPushed) : v.Pushed := by
  intro t tag hSome
  rw [hNot t] at hSome
  cases hSome

theorem Gone.pushed (hNot : v.NotPushed) (hGone : Gone v w) : w.Pushed := by
  apply NotPushed.pushed
  intro t
  rw [hGone.push]
  exact hNot t

theorem Pinned.pushed (hPushed : v.Pushed) (hPinned : Pinned v w) : w.Pushed := by
  unfold Pushed
  rw [hPinned.push, hPinned.access, hPinned.data]
  exact hPushed

theorem Stored.pushed (hPushed : v.Pushed) (hData : v.data = none) (hCons : v.Consistent po)
    (hStored : Stored po d v c w) : w.Pushed := by
  have hNot := hPushed.not_pushed_of_data hData
  cases hStored with
  | uploaded tag pin hPin =>
    intro t tag' hSome
    simp only at hSome
    split at hSome
    · next hTime =>
        exact ⟨hCons.access_eq_none hData, d, rfl, hTime⟩
    · rw [hNot t] at hSome
      cases hSome
  | pinned time | keptPinned time n hPin | cached time hPin => exact NotPushed.pushed hNot

theorem Unpinned.pushed (hPushed : v.Pushed) (hUnpinned : Unpinned v c w) : w.Pushed := by
  cases hUnpinned with
  | dropped n hPin hMany | released n hPin hLast
  | collectable n d time hPin hLast hData hPush hAccess => exact hPushed

theorem Synced.pushed (hPushed : v.Pushed) (hSynced : Synced d v w) : w.Pushed := by
  apply NotPushed.pushed
  intro t
  rw [hSynced.push]
  dsimp only
  split
  · rfl
  next hNe =>
  cases hSome : v.push t with
  | none => rfl
  | some tag =>
    rcases (hPushed t tag hSome).2 with ⟨d', hData, hTime⟩
    rw [hSynced.stored] at hData
    cases hData
    exact absurd hTime hNe

theorem Touched.pushed (hPushed : v.Pushed) (hTouched : Touched item v w) : w.Pushed := by
  cases hTouched with
  | same => exact hPushed
  | moved time now x hAccess hGC | refreshed time now hAccess hGC =>
    exact NotPushed.pushed (hPushed.not_pushed_of_access hAccess)

end View

variable {cfg : Config} {s : Store} {op : Op}

/- A safe operation keeps push entries in order. -/
theorem ViewStep.pushed (hCons : (s.view a).Consistent (cfg.po a))
    (hPushed : (s.view a).Pushed) (hSafe : PushSafe op s) (hStep : ViewStep cfg s op a v) :
    v.Pushed := by
  cases hStep with
  | same => exact hPushed
  | put hView =>
    cases hView with
    | same => exact hPushed
    | stored ch d c hMem hAddress hData hAccepts hStamp hBytes hStored =>
      exact hStored.pushed hPushed hData hCons
    | gone ch d hMem hDisplaced hData hGone => exact hGone.pushed (hSafe ch hMem a hDisplaced)
    | pinned ch hMem hAddress hMode hPinned => exact hPinned.pushed hPushed
  | set hMem hView =>
    cases hView with
    | removed hMode hData hGone =>
      subst hMode
      exact hGone.pushed (hSafe a hMem)
    | pinned hMode hPinned => exact hPinned.pushed hPushed
    | unpinned c hMode hUnpinned => exact hUnpinned.pushed hPushed
    | synced d hMode hSynced => exact hSynced.pushed hPushed
    | unsynced hMode hData =>
      apply View.NotPushed.pushed
      intro t
      dsimp only
      split
      · rfl
      · exact hPushed.not_pushed_of_data hData t
  | getRequest d hData hTouched => exact hTouched.pushed hPushed
  | unreserveBatch c hVisits hUnpinned => exact hUnpinned.pushed hPushed
  | collectGarbage item hGC hGone hPin =>
    rcases hCons.gc _ _ _ hGC with ⟨d, -, -, hAccess, -⟩
    exact hGone.pushed (hPushed.not_pushed_of_access hAccess)

end

---- Runs

/-
  In every run of safe operations each push entry refers to a stored chunk, and no iteration of a
  subscription fails.
-/
theorem pushIndex_integrity {cfg : Config} {db : DB}
    (hReach : Reachable cfg (fun op db => PushSafe op db.store) db) :
    db.store.PushIntegrity ∧ ∀ since, (pushIterate db.store since).2 = .ok () := by
  have hPushed := (hReach.store_invariant (fun s => ∀ a, (s.view a).Pushed) (by
        intro a t tag hSome
        simp [Store.view, Store.empty] at hSome)
      (fun op db s' hCons hPushed hSafe hStep a =>
        (viewStep_of_storeStep hCons hStep a).pushed (hCons a) (hPushed a) hSafe)).1
  have hIntegrity : db.store.PushIntegrity := by
    rintro ⟨time, address⟩ tag hSome
    exact (hPushed address time tag hSome).2
  exact ⟨hIntegrity, fun since => (pushIterate_of_integrity hIntegrity).1⟩

/- A run that uploads one chunk. -/
def uploadedRun : DB :=
  DB.empty.after smallConfig (fun _ => 1) (.put .upload [smallChunk 1 0 1])

theorem pushIndex_integrity_uploadedRun :
    uploadedRun.store.pushIndex.get ⟨1, 1⟩ = some 0 ∧ uploadedRun.store.PushIntegrity ∧
      ∀ since, (pushIterate uploadedRun.store since).2 = .ok () := by
  refine ⟨by decide, pushIndex_integrity (Reachable.after .start _ _ ?_ (by decide))⟩
  intro ch hMem p hDisplaced
  cases hDisplaced

/- Removing the chunk leaves its push entry behind. -/
def uploadedRemovedRun : DB :=
  uploadedRun.after smallConfig (fun _ => 2) (.set .remove [1])

theorem pushIndex_dangling_of_remove :
    ¬ ∀ (cfg : Config) (db : DB), Reachable cfg (fun op _ => ∀ a, op ≠ .getRequest a) db →
      db.store.PushIntegrity ∧ ∀ since, (pushIterate db.store since).2 = .ok () := by
  intro hAll
  have hUploaded : Reachable smallConfig (fun op _ => ∀ a, op ≠ .getRequest a) uploadedRun :=
    Reachable.after .start _ _ (by simp) (by decide)
  have hRemoved : Reachable smallConfig (fun op _ => ∀ a, op ≠ .getRequest a)
        uploadedRemovedRun := hUploaded.after _ _ (by simp) (by decide)
  have hEnds := (hAll _ _ hRemoved).2 none
  cases hEnds

end Sana.Localstore
