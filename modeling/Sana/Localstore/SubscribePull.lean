import Sana.KeyValue.Index
import Sana.Localstore.BinIDs

/-
  The pull subscription of one bin.

  The goroutine of a subscription waits for a trigger, then iterates over a snapshot of the pull
  index, and waits again. Calls run between any two of its steps.

  Key definitions include:
    * `Loop`
    * `PullSubscription.visit`

  Key theorems include:
    * `Pulling.advance`
-/

---- Subscription Loops

namespace Sana.Localstore

open KeyValue Program Swarm

variable {cfg : Config} {bin : UInt8} {since : Nat}

/-
  Where the goroutine of a subscription stands: it waits for the next trigger, it has still some
  entries of a snapshot before it, or it has returned.
-/
inductive Loop (K V : Type) [Ord K] where
  | waiting
  | iterating (snapshot : Index K V) (rest : List (K × V))
  | ended

/- The entries that the iteration has not visited. -/
def Loop.rest {K V : Type} [Ord K] : Loop K V → List (K × V)
| .iterating _ rest => rest
| _ => []

/-
  The case that the `select` in a callback takes: the channel accepts the value, the subscription or
  the database is stopped, or the context is done.
-/
inductive Selected where
  | send
  | stop
  | cancel
  deriving DecidableEq, Repr

/-
  What a callback returns: to go on, to stop the iteration, or an error, after which the goroutine
  returns.
-/
inductive Visit where
  | next
  | stop
  | fail
  deriving DecidableEq, Repr

---- SubscribePull

/- `storage.Descriptor`. -/
structure Descriptor where
  address : Address
  binID : Nat
  deriving DecidableEq, Repr

/- The base key with one bit flipped. -/
def addressInBin (cfg : Config) (bin : UInt8) : Address :=
  cfg.baseKey ^^^ (1#256 <<< (255 - bin.toNat))

/- The variables of the goroutine, and what it has sent. -/
structure PullSubscription where
  sinceItem : Option Item
  first : Bool := true
  count : Nat := 0
  loop : Loop PullKey PullValue := .waiting
  sent : List Descriptor := []

def subscribePull (cfg : Config) (bin : UInt8) (since : Nat) : PullSubscription where
  sinceItem :=
    if 0 < since then
      some
        { address := addressInBin cfg bin
          binID := since }
    else none

/- The item that iterating over `pullIndex` yields. -/
def pullItem (entry : PullKey × PullValue) : Item where
  address := entry.2.address
  binID := entry.1.binID
  batchID := entry.2.batchID

namespace PullSubscription

/- The callback of the iteration. -/
def visit (sub : PullSubscription) (untilID : Nat) (selected : Selected)
    (item : Item) : PullSubscription × Visit :=
  if 0 < untilID ∧ untilID < item.binID then (sub, .fail)
  else
    match selected with
    | .send =>
      let sub := { sub with sent := sub.sent ++ [⟨item.address, item.binID⟩] }
      if 0 < untilID ∧ item.binID = untilID then (sub, .fail)
      else
        ({ sub with
            count := sub.count + 1
            sinceItem := some item },
          .next)
    | .stop => (sub, .stop)
    | .cancel => (sub, .fail)

/- A trigger starts an iteration. -/
def iterate (sub : PullSubscription) (cfg : Config) (bin : UInt8) (s : Store) : PullSubscription :=
  match sub.loop with
  | .waiting =>
    { sub with
      count := 0
      loop := .iterating s.pullIndex
        (s.pullIndex.iterate (sub.sinceItem.map (Item.pullKey cfg)) (!sub.first)
          (fun key => key.po == bin.toNat)) }
  | _ => sub

/- An iteration that ends without an error. -/
def endIteration (sub : PullSubscription) : PullSubscription :=
  { sub with
    first := if 0 < sub.count then false else sub.first
    loop := .waiting }

/- The next step of a running iteration. -/
def advance (sub : PullSubscription) (untilID : Nat) (selected : Selected) : PullSubscription :=
  match sub.loop with
  | .iterating _ [] => sub.endIteration
  | .iterating snapshot (entry :: rest) =>
    match sub.visit untilID selected (pullItem entry) with
    | (sub, .next) => { sub with loop := .iterating snapshot rest }
    | (sub, .stop) => sub.endIteration
    | (sub, .fail) => { sub with loop := .ended }
  | _ => sub

/- The subscription ends while it waits. -/
def quit (sub : PullSubscription) : PullSubscription :=
  match sub.loop with
  | .waiting => { sub with loop := .ended }
  | _ => sub

/- The callback of an entry comes to a case that stops it. -/
def Interrupted (sub : PullSubscription) (untilID : Nat) (selected : Selected) : Prop :=
  selected ≠ .send ∧
    ∃ snapshot entry rest,
      sub.loop = .iterating snapshot (entry :: rest) ∧ ¬ (0 < untilID ∧ untilID < entry.1.binID)

end PullSubscription

/- The descriptor that is sent for an entry. -/
def descriptor (entry : PullKey × PullValue) : Descriptor :=
  ⟨entry.2.address, entry.1.binID⟩

namespace PullSubscription

variable {sub : PullSubscription} {untilID : Nat}
variable {selected : Selected}
variable {snapshot : Index PullKey PullValue}
variable {entry : PullKey × PullValue}
variable {rest : List (PullKey × PullValue)}

theorem advance_of_not_iterating (hNot : ∀ snapshot rest, sub.loop ≠ .iterating snapshot rest) :
    sub.advance untilID selected = sub := by
  unfold advance
  cases hLoop : sub.loop with
  | waiting | ended => rfl
  | iterating snapshot rest => exact (hNot snapshot rest hLoop).elim

theorem advance_nil (hLoop : sub.loop = .iterating snapshot []) :
    sub.advance untilID selected = sub.endIteration := by
  unfold advance
  rw [hLoop]

/- The five ways in which an entry is visited. -/
theorem advance_cons (hLoop : sub.loop = .iterating snapshot (entry :: rest)) :
    sub.advance untilID selected = if 0 < untilID ∧ untilID < entry.1.binID then
        { sub with loop := .ended }
      else
        match selected with
        | .send =>
          if 0 < untilID ∧ entry.1.binID = untilID then
            { sub with
              sent := sub.sent ++ [descriptor entry]
              loop := .ended }
          else
            { sub with
              sent := sub.sent ++ [descriptor entry]
              count := sub.count + 1
              sinceItem := some (pullItem entry)
              loop := .iterating snapshot rest }
        | .stop => sub.endIteration
        | .cancel => { sub with loop := .ended } := by
  unfold advance visit
  rw [hLoop]
  by_cases hBeyond : 0 < untilID ∧ untilID < (pullItem entry).binID
  · simp only [if_pos hBeyond]
    exact (if_pos hBeyond).symm
  · simp only [if_neg hBeyond]
    refine Eq.trans ?_ (if_neg hBeyond).symm
    cases selected with
    | send =>
      by_cases hLast : 0 < untilID ∧ (pullItem entry).binID = untilID
      · simp only [if_pos hLast]
        exact (if_pos hLast).symm
      · simp only [if_neg hLast]
        exact (if_neg hLast).symm
    | stop | cancel => rfl

/- An iteration that is not interrupted sends its entries. -/
theorem advance_of_not_interrupted (hNot : ¬ sub.Interrupted untilID selected) :
    sub.advance untilID selected = sub.advance untilID .send := by
  cases hLoop : sub.loop with
  | waiting | ended =>
    rw [advance_of_not_iterating (by simp [hLoop]), advance_of_not_iterating (by simp [hLoop])]
  | iterating snapshot rest =>
    cases rest with
    | nil => rw [advance_nil hLoop, advance_nil hLoop]
    | cons entry rest =>
      rw [advance_cons hLoop, advance_cons hLoop]
      by_cases hBeyond : 0 < untilID ∧ untilID < entry.1.binID
      · rw [if_pos hBeyond, if_pos hBeyond]
      · have hSend : selected = .send := by
          by_contra hOther
          exact hNot ⟨hOther, snapshot, entry, rest, hLoop, hBeyond⟩
        rw [hSend]

end PullSubscription

structure PullSystem where
  db : DB
  sub : PullSubscription

inductive PullEvent where
  | call (op : Op) (clock : Clock)
  | iterate
  | advance (selected : Selected)
  | quit

def PullSystem.step (sys : PullSystem) (cfg : Config) (bin : UInt8)
    (untilID : Nat) : PullEvent → PullSystem
| .call op clock => { sys with db := ((op.call cfg).run clock sys.db).state }
| .iterate => { sys with sub := sys.sub.iterate cfg bin sys.db.store }
| .advance selected => { sys with sub := sys.sub.advance untilID selected }
| .quit => { sys with sub := sys.sub.quit }

/-
  The states of all interleavings.  A subscription that is made later is one whose first trigger is
  late.
-/
abbrev PullReachable (cfg : Config) (bin : UInt8) (since untilID : Nat) : PullSystem → Prop :=
  Reach (fun event before after =>
      before.step cfg bin untilID event = after)
    (fun _ _ => True)
    ⟨.empty, subscribePull cfg bin since⟩

---- Keys Of One Bin

section

/- In a bin that exists, the address has its proximity. -/
theorem po_addressInBin (cfg : Config) (hBin : bin.toNat ≤ maxPO) :
    cfg.po (addressInBin cfg bin) = bin.toNat := by
  have hFlip : ∀ n : Nat, n < 32 → ((List.range 32).find? fun i =>
          (1#256 <<< (255 - n)).getMsbD i).getD 31 = n := by
    decide
  have hCancel : cfg.baseKey ^^^ addressInBin cfg bin = 1#256 <<< (255 - bin.toNat) := by
    unfold addressInBin
    rw [← BitVec.xor_assoc, BitVec.xor_self, BitVec.zero_xor]
  unfold Config.po proximity
  rw [hCancel]
  exact hFlip bin.toNat (Nat.lt_succ_of_le hBin)

/- The keys that a subscription is about. -/
def PullWindow (bin : UInt8) (since : Nat) (key : PullKey) : Prop :=
  key.po = bin.toNat ∧ since ≤ key.binID

/- The keys of a bin are an interval. -/
theorem convex_bin (x y z : PullKey) (hXY : compare x y = .lt) (hYZ : compare y z = .lt)
    (hX : (x.po == po) = true) (hZ : (z.po == po) = true) : (y.po == po) = true := by
  rw [compare_pullKey] at hXY hYZ
  rw [beq_iff_eq] at hX hZ ⊢
  omega

variable {s : Store}

/- The first iteration visits all keys of the window. -/
theorem mem_iterate_first (hPo : ∀ key x, s.pullIndex.get key = some x → key.po ≤ maxPO) :
    (key, value) ∈
        s.pullIndex.iterate ((subscribePull cfg bin since).sinceItem.map (Item.pullKey cfg))
          false (fun key => key.po == bin.toNat) ↔
      s.pullIndex.get key = some value ∧ PullWindow bin since key := by
  unfold subscribePull PullWindow
  split
  · next hSince =>
      by_cases hBin : bin.toNat ≤ maxPO
      · have hKey : Item.pullKey cfg
                { address := addressInBin cfg bin
                  binID := since } = ⟨bin.toNat, since⟩ := by
          unfold Item.pullKey
          rw [po_addressInBin cfg hBin]
        rw [Option.map_some, hKey, Index.mem_iterate_iff convex_bin]
        · rcases key with ⟨po, binID⟩
          refine and_congr_right fun _ => ?_
          simp only [Index.FromStart, Option.some.injEq, forall_eq', compare_pullKey, beq_iff_eq,
            true_and, PullKey.mk.injEq]
          omega
        · rintro first hEq
          rw [← Option.some.inj hEq]
          exact beq_self_eq_true _
      · -- no key has the proximity of such a bin
        constructor
        · intro hMem
          have hFound := Index.of_mem_iterate hMem
          have hSmall := hPo key value hFound.1
          rw [beq_iff_eq] at hFound
          omega
        · rintro ⟨hGet, hKey, -⟩
          have hSmall := hPo key value hGet
          omega
  · next hSince =>
      rw [Option.map_none, Index.mem_iterate_iff convex_bin (by simp)]
      simp only [Index.FromStart, beq_iff_eq, reduceCtorEq, false_implies, implies_true, and_true]
      constructor
      · rintro ⟨hGet, hKey⟩
        exact ⟨hGet, hKey, by omega⟩
      · rintro ⟨hGet, hKey, -⟩
        exact ⟨hGet, hKey⟩

/- A later one starts after the entry sent last. -/
theorem mem_iterate_after {last : PullKey × PullValue} (hLast : PullWindow bin since last.1) :
    (key, value) ∈ s.pullIndex.iterate (some last.1) true (fun key => key.po == bin.toNat) ↔
      s.pullIndex.get key = some value ∧ PullWindow bin since key ∧ compare last.1 key = .lt := by
  rcases hLast with ⟨hPo, hSince⟩
  rw [Index.mem_iterate_iff convex_bin]
  · simp only [PullWindow, Index.FromStart, Option.some.injEq, forall_eq', compare_pullKey,
      beq_iff_eq, reduceCtorEq, false_and, or_false]
    constructor
    · rintro ⟨hGet, hKey, hLt⟩
      exact ⟨hGet, ⟨hKey, by omega⟩, hLt⟩
    · rintro ⟨hGet, ⟨hKey, -⟩, hLt⟩
      exact ⟨hGet, hKey, hLt⟩
  · rintro first hEq
    rw [← Option.some.inj hEq, beq_iff_eq]
    exact hPo

end

---- What A Subscription Has Sent

/-
  Where the next iteration will start: at the beginning as long as nothing was sent, after the last
  entry otherwise.
-/
structure Resumed (cfg : Config) (bin : UInt8) (since : Nat) (sub : PullSubscription)
    (entries : List (PullKey × PullValue)) : Prop where
  start :
    entries = [] →
      sub.sinceItem = (subscribePull cfg bin since).sinceItem ∧ sub.first = true ∧
        (sub.loop ≠ .waiting → sub.count = 0)
  after :
    ∀ init last, entries = init ++ [last] →
      sub.sinceItem = some (pullItem last) ∧
        (sub.first = false ∨ sub.loop ≠ .waiting ∧ 0 < sub.count)

/-
  A subscription and the database: the entries it has sent, together with those of the running
  iteration, are those of the window up to the last of them.
-/
structure Pulling (cfg : Config) (bin : UInt8) (since untilID : Nat) (history : List Assigned)
    (s : Store) (sub : PullSubscription) (entries : List (PullKey × PullValue)) : Prop where
  recorded : Recorded cfg s history
  sent : sub.sent = entries.map descriptor
  scanned : Scanned (PullWindow bin since) s.pullIndex (entries ++ sub.loop.rest)
  known :
    ∀ entry ∈ entries ++ sub.loop.rest,
      entry.1.po = cfg.po entry.2.address ∧ ⟨entry.2.address, entry.1.binID⟩ ∈ history
  covered :
    ∀ snapshot rest, sub.loop = .iterating snapshot rest →
      Covered (PullWindow bin since) snapshot (entries ++ rest)
  bounded : ∀ entry ∈ entries, 0 < untilID → entry.1.binID ≤ untilID
  resumed : sub.loop ≠ .ended → Resumed cfg bin since sub entries

namespace Pulling

variable {cfg : Config} {bin : UInt8} {since untilID : Nat}
variable {history : List Assigned} {s s' : Store}
variable {sub : PullSubscription}
variable {entries : List (PullKey × PullValue)}
variable {entry : PullKey × PullValue}
variable {rest : List (PullKey × PullValue)}
variable {snapshot : Index PullKey PullValue}

/- The start of a subscription. -/
theorem start (cfg : Config) (bin : UInt8) (since untilID : Nat)
    (hRecorded : Recorded cfg s history) :
    Pulling cfg bin since untilID history s (subscribePull cfg bin since) [] where
  recorded := hRecorded
  sent := rfl
  scanned := scanned_nil
  known := nofun
  covered := nofun
  bounded := nofun
  resumed _ :=
    { start := fun _ => ⟨rfl, rfl, fun _ => rfl⟩
      after := fun init _ hEq => by simp at hEq }

section

variable (hPulling : Pulling cfg bin since untilID history s sub entries)
include hPulling

/- The goroutine returns. -/
theorem ended (hSent : sub'.sent = sub.sent) (hLoop : sub'.loop = .ended) :
    Pulling cfg bin since untilID history s sub' entries := by
  have hList : entries ++ sub'.loop.rest = entries := by simp [hLoop, Loop.rest]
  refine { hPulling with
    sent := hSent.trans hPulling.sent, scanned := ?_, known := ?_, covered := ?_
    resumed := fun hNot => (hNot hLoop).elim }
  · rw [hList]
    exact hPulling.scanned.of_append
  · rw [hList]
    exact fun entry hMem => hPulling.known entry (List.mem_append_left _ hMem)
  · intro snapshot rest hEq
    rw [hLoop] at hEq
    cases hEq

/- An iteration ends, at its last entry or before it. -/
theorem endIteration (hLoop : sub.loop = .iterating snapshot rest) :
    Pulling cfg bin since untilID history s sub.endIteration entries := by
  have hEnded : Pulling cfg bin since untilID history s { sub with loop := .ended } entries :=
    hPulling.ended rfl rfl
  refine { hEnded with covered := nofun, resumed := fun _ => ?_ }
  have hResumed := hPulling.resumed (by simp [hLoop])
  constructor
  · intro hNil
    rcases hResumed.start hNil with ⟨hSince, hFirst, hCount⟩
    have hZero : sub.count = 0 := hCount (by simp [hLoop])
    refine ⟨hSince, ?_, fun hNot => (hNot rfl).elim⟩
    simp [PullSubscription.endIteration, hZero, hFirst]
  · intro init last hEq
    rcases hResumed.after init last hEq with ⟨hSince, hFirst⟩
    refine ⟨hSince, Or.inl ?_⟩
    rcases hFirst with hFirst | ⟨-, hCount⟩
    · simp [PullSubscription.endIteration, hFirst]
    · simp [PullSubscription.endIteration, hCount]

/- The next entry is sent. -/
theorem next (hLoop : sub.loop = .iterating snapshot (entry :: rest))
    (hBound : 0 < untilID → entry.1.binID ≤ untilID) : Pulling cfg bin since untilID history s
      { sub with
        sent := sub.sent ++ [descriptor entry]
        count := sub.count + 1
        sinceItem := some (pullItem entry)
        loop := .iterating snapshot rest }
      (entries ++ [entry]) := by
  have hList : (entries ++ [entry]) ++ rest = entries ++ sub.loop.rest := by simp [hLoop, Loop.rest]
  constructor
  · exact hPulling.recorded
  · simp [hPulling.sent]
  · have hScanned := hPulling.scanned
    rw [← hList] at hScanned
    exact hScanned
  · have hKnown := hPulling.known
    rw [← hList] at hKnown
    exact hKnown
  · intro snapshot' rest' hEq
    cases hEq
    have hCovered := hPulling.covered snapshot _ hLoop
    rw [List.append_assoc]
    exact hCovered
  · intro other hMem
    rcases List.mem_append.mp hMem with hOld | hNew
    · exact hPulling.bounded other hOld
    · rw [List.mem_singleton.mp hNew]
      exact hBound
  · intro _
    constructor
    · intro hNil
      simp at hNil
    · intro init last hEq
      have hLast : entry = last := List.singleton_inj.mp (List.append_inj' hEq rfl).2
      rw [← hLast]
      exact ⟨rfl, Or.inr ⟨nofun, Nat.succ_pos _⟩⟩

/- A new iteration starts. -/
theorem iterate : Pulling cfg bin since untilID history s (sub.iterate cfg bin s) entries := by
  unfold PullSubscription.iterate
  split
  · next hLoop =>
      have hScanned : Scanned (PullWindow bin since) s.pullIndex
            entries := hPulling.scanned.of_append
      have hResumed := hPulling.resumed (by simp [hLoop])
      have hRest :
          ∀ key value,
            (key, value) ∈
                s.pullIndex.iterate (sub.sinceItem.map (Item.pullKey cfg)) (!sub.first)
                  (fun key => key.po == bin.toNat) ↔
              s.pullIndex.get key = some value ∧ PullWindow bin since key ∧
                ∀ entry ∈ entries, compare entry.1 key = .lt := by
        intro key value
        rcases List.eq_nil_or_concat entries with hNil | ⟨init, last, hLast⟩
        · rcases hResumed.start hNil with ⟨hSince, hFirst, -⟩
          rw [hSince, hFirst, hNil, Bool.not_true, mem_iterate_first]
          · simp
          · intro key x hGet
            rw [(hPulling.recorded.pulled key x hGet).1]
            exact proximity_le _ _
        · rw [List.concat_eq_append] at hLast
          rcases hResumed.after init last hLast with ⟨hSince, hFirst⟩
          have hSkip : sub.first = false := by
            rcases hFirst with hFirst | ⟨hNot, -⟩
            · exact hFirst
            · exact (hNot hLoop).elim
          have hMem : last ∈ entries := by simp [hLast]
          have hKey : (pullItem last).pullKey cfg = last.1 := by
            have hPo := (hPulling.known last (List.mem_append_left _ hMem)).1
            unfold Item.pullKey pullItem
            rw [← hPo]
          have hOrdered := hScanned.ordered
          rw [hLast] at hOrdered
          rw [hSince, hSkip, Bool.not_false, Option.map_some, hKey,
            mem_iterate_after (hScanned.within last hMem), hLast, forall_lt_of_last hOrdered]
      have hAll := hScanned.append Index.ordered_iterate hRest
      refine { hPulling with scanned := hAll.1, known := ?_, covered := ?_, resumed := fun _ => ?_ }
      · rintro ⟨key, value⟩ hMem
        rcases List.mem_append.mp hMem with hOld | hNew
        · exact hPulling.known _ (List.mem_append_left _ hOld)
        · exact hPulling.recorded.pulled key value ((hRest key value).mp hNew).1
      · intro snapshot rest hEq
        cases hEq
        exact hAll.2
      · constructor
        · intro hNil
          rcases hResumed.start hNil with ⟨hSince, hFirst, -⟩
          exact ⟨hSince, hFirst, fun _ => rfl⟩
        · intro init last hEq
          rcases hResumed.after init last hEq with ⟨hSince, hFirst | ⟨hNot, -⟩⟩
          · exact ⟨hSince, Or.inl hFirst⟩
          · exact (hNot hLoop).elim
  · exact hPulling

/- A step of a running iteration. -/
theorem advance (selected : Selected) :
    ∃ entries',
      Pulling cfg bin since untilID history s (sub.advance untilID selected) entries' := by
  cases hLoop : sub.loop with
  | waiting | ended =>
    rw [PullSubscription.advance_of_not_iterating (by simp [hLoop])]
    exact ⟨entries, hPulling⟩
  | iterating snapshot rest =>
    cases rest with
    | nil =>
      rw [PullSubscription.advance_nil hLoop]
      exact ⟨entries, hPulling.endIteration hLoop⟩
    | cons entry rest =>
      rw [PullSubscription.advance_cons hLoop]
      split
      · exact ⟨entries, hPulling.ended rfl rfl⟩
      · next hBeyond =>
          have hNext := hPulling.next hLoop fun hPos => not_lt.mp fun hLt => hBeyond ⟨hPos, hLt⟩
          cases selected with
          | send =>
            refine ⟨entries ++ [entry], ?_⟩
            dsimp only
            split
            · exact hNext.ended rfl rfl
            · exact hNext
          | stop => exact ⟨entries, hPulling.endIteration hLoop⟩
          | cancel => exact ⟨entries, hPulling.ended rfl rfl⟩

/- The subscription ends while it waits. -/
theorem quit :
    Pulling cfg bin since untilID history s sub.quit
      entries := by
  unfold PullSubscription.quit
  split
  · exact hPulling.ended rfl rfl
  · exact hPulling

/- A call: new entries get the largest bin IDs of their bin. -/
theorem call (hCons : s.Consistent cfg) (hStep : StoreStep cfg s op s') :
    Pulling cfg bin since untilID (history ++ newlyStored s s' op.chunks) s' sub
      entries := by
  have hRecorded := hStep.recorded hCons hPulling.recorded
  refine { hPulling with recorded := hRecorded, scanned := ?_, known := ?_ }
  · apply hPulling.scanned.of_changed
    intro key x hGet hWindow
    rcases hStep.pulled hCons hGet with hOld | hNew
    · exact Or.inl hOld
    · right
      intro entry hMem
      have hKnown := hPulling.known entry hMem
      have hEntry := hPulling.scanned.within entry hMem
      have hPo := (hRecorded.pulled key x hGet).1
      have hLater := (List.pairwise_append.mp hRecorded.increasing).2.2
          _ hKnown.2 _ hNew
      have hSame : entry.1.po = key.po := hEntry.1.trans hWindow.1.symm
      rw [compare_pullKey]
      exact Or.inr ⟨hSame, hLater (by rw [← hKnown.1, ← hPo, hSame])⟩
  · intro entry hMem
    have hKnown := hPulling.known entry hMem
    exact ⟨hKnown.1, List.mem_append_left _ hKnown.2⟩

/- What was sent is in order and in the requested range. -/
theorem ordered_sent : sub.sent.Pairwise (fun left right => left.binID < right.binID) := by
  have hScanned := hPulling.scanned.of_append
  rw [hPulling.sent, List.pairwise_map]
  refine hScanned.ordered.imp_of_mem ?_
  intro left right hLeft hRight hLt
  have hPo := (hScanned.within left hLeft).1.trans (hScanned.within right hRight).1.symm
  exact binID_lt_of_compare hPo hLt

theorem range_sent (hMem : d ∈ sub.sent) : since ≤ d.binID ∧ (0 < untilID → d.binID ≤ untilID) := by
  rw [hPulling.sent] at hMem
  rcases List.mem_map.mp hMem with ⟨entry, hEntry, rfl⟩
  have hWindow := hPulling.scanned.within entry (List.mem_append_left _ hEntry)
  exact ⟨hWindow.2, hPulling.bounded entry hEntry⟩

/- When an iteration ends by itself, the entries of its snapshot up to `untilID` have been sent. -/
theorem complete (hLoop : sub.loop = .iterating snapshot rest)
    (hOver : ∀ snapshot' rest', (sub.advance untilID .send).loop ≠ .iterating snapshot' rest')
    (hGet : snapshot.get key = some value)
    (hWindow : PullWindow bin since key) (hUntil : 0 < untilID → key.binID ≤ untilID) :
    descriptor (key, value) ∈ (sub.advance untilID .send).sent := by
  have hMem := hPulling.covered snapshot rest hLoop key value hGet hWindow
  have hOld : (key, value) ∈ entries → descriptor (key, value) ∈ sub.sent := by
    intro hMem
    rw [hPulling.sent]
    exact List.mem_map_of_mem hMem
  cases rest with
  | nil =>
    rw [PullSubscription.advance_nil hLoop]
    rw [List.append_nil] at hMem
    exact hOld hMem
  | cons entry rest =>
    have hScanned := hPulling.scanned
    rw [hLoop, Loop.rest] at hScanned
    -- entries behind the next one have larger bin IDs
    have hAbove : (key, value) ∈ rest → entry.1.binID < key.binID := by
      intro hRest
      have hOrdered := (List.pairwise_append.mp hScanned.ordered).2.1
      have hLt := (List.pairwise_cons.mp hOrdered).1 _ hRest
      have hEntry := hScanned.within entry (by simp)
      exact binID_lt_of_compare (hEntry.1.trans hWindow.1.symm) hLt
    have hAdvance : sub.advance untilID .send = _ := PullSubscription.advance_cons hLoop
    rw [hAdvance] at hOver ⊢
    rw [List.mem_append, List.mem_cons] at hMem
    by_cases hBeyond : 0 < untilID ∧ untilID < entry.1.binID
    · rw [if_pos hBeyond]
      have hKey := hUntil hBeyond.1
      rcases hMem with hMem | rfl | hMem
      · exact hOld hMem
      · exact absurd hBeyond.2 (not_lt.mpr hKey)
      · have hLt := hAbove hMem
        omega
    · by_cases hLast : 0 < untilID ∧ entry.1.binID = untilID
      · simp only [if_neg hBeyond, if_pos hLast, List.mem_append, List.mem_singleton]
        rcases hMem with hMem | rfl | hMem
        · exact Or.inl (hOld hMem)
        · exact Or.inr rfl
        · have hLt := hAbove hMem
          omega
      · simp only [if_neg hBeyond, if_neg hLast] at hOver
        exact (hOver snapshot rest rfl).elim

end

end Pulling

---- Interleavings

variable {untilID : Nat}
variable {sys : PullSystem}

/- Every interleaving keeps the subscription in step. -/
theorem PullReachable.pulling (hReach : PullReachable cfg bin since untilID sys) :
    ∃ history entries, Pulling cfg bin since untilID history sys.db.store sys.sub entries := by
  have hInv := hReach.invariant (fun sys =>
      sys.db.store.Consistent cfg ∧ sys.db.Idle ∧
        ∃ history entries, Pulling cfg bin since untilID history sys.db.store sys.sub entries)
    ⟨consistent_empty cfg, ⟨rfl, rfl⟩, [], [], .start cfg bin since untilID (recorded_empty cfg)⟩
    (by
      rintro event before after ⟨hCons, hIdle, history, entries, hPulling⟩ - rfl
      cases event with
      | call op clock =>
        rcases hIdle.of_call hCons op clock with ⟨hSame | hStep, hAfter⟩
        · refine ⟨?_, hAfter, history, entries, ?_⟩
          · exact hSame ▸ hCons
          · exact hSame ▸ hPulling
        · exact ⟨hStep.consistent hCons, hAfter, _, entries, hPulling.call hCons hStep⟩
      | iterate => exact ⟨hCons, hIdle, history, entries, hPulling.iterate⟩
      | advance selected => exact ⟨hCons, hIdle, history, hPulling.advance selected⟩
      | quit => exact ⟨hCons, hIdle, history, entries, hPulling.quit⟩)
  exact hInv.2.2

/-
  In every interleaving of calls with the iterations of a subscription, the descriptors sent have
  increasing bin IDs in the requested range, and none is sent twice; and when an iteration ends
  without being stopped, every entry of its snapshot in the requested range has been sent.
-/
theorem subscribePull_exactly_once (hReach : PullReachable cfg bin since untilID sys) :
    sys.sub.sent.Pairwise (fun left right => left.binID < right.binID) ∧
      (∀ d ∈ sys.sub.sent, since ≤ d.binID ∧ (0 < untilID → d.binID ≤ untilID)) ∧
      sys.sub.sent.Nodup ∧
      ∀ selected snapshot rest, sys.sub.loop = .iterating snapshot rest →
        ¬ sys.sub.Interrupted untilID selected →
        (∀ snapshot' rest', (sys.sub.advance untilID selected).loop ≠ .iterating snapshot' rest') →
        ∀ key value, snapshot.get key = some value → key.po = bin.toNat → since ≤ key.binID →
          (0 < untilID → key.binID ≤ untilID) →
          ⟨value.address, key.binID⟩ ∈ (sys.sub.advance untilID selected).sent := by
  rcases hReach.pulling with ⟨history, entries, hPulling⟩
  have hOrdered := hPulling.ordered_sent
  refine ⟨hOrdered, fun d hMem => hPulling.range_sent hMem, ?_, ?_⟩
  · refine hOrdered.imp ?_
    intro left right hLt hEq
    rw [hEq] at hLt
    exact lt_irrefl _ hLt
  · intro selected snapshot rest hLoop hNot hOver key value hGet hPo hSince hUntil
    rw [PullSubscription.advance_of_not_interrupted hNot] at hOver ⊢
    exact hPulling.complete hLoop hOver hGet ⟨hPo, hSince⟩ hUntil

/- An iteration that has one entry before it. -/
def pulledRun : PullSystem :=
  let stored :=
    (⟨.empty, subscribePull smallConfig 31 1⟩ : PullSystem).step smallConfig 31 1
      (.call (.put .sync [smallChunk 1 0 1]) fun _ => 1)
  stored.step smallConfig 31 1 .iterate

theorem subscribePull_exactly_once_pulledRun :
    pulledRun.sub.sent = [] ∧ ⟨1, 1⟩ ∈ (pulledRun.sub.advance 1 .send).sent := by
  have hReach : PullReachable smallConfig 31 1 1 pulledRun :=
    .step .iterate (.step (.call (.put .sync [smallChunk 1 0 1]) fun _ => 1) .start trivial rfl)
      trivial rfl
  have hOver : (pulledRun.sub.advance 1 .send).loop = .ended := rfl
  refine ⟨rfl, ?_⟩
  exact (subscribePull_exactly_once hReach).2.2.2 .send _ _ rfl (fun hStopped => hStopped.1 rfl)
    (by nofun) ⟨31, 1⟩ ⟨1, 7⟩ (by decide) rfl (le_refl 1) (fun _ => le_refl 1)

end Sana.Localstore
