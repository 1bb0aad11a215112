import Sana.Program.Reach

/-
  Updates of a feed on the epoch grid.

  The epoch of an update is a child of the epoch before, or a child of the lowest common ancestor of
  the two times.  A child of an epoch of level 0 has level 255, and a last update at time 0 is taken
  for none.

  Key definitions include:
    * `Epoch.next`
    * `Feed.update`

  Key theorems include:
    * `Grid.update`
-/

---- Epochs

namespace Sana.Feeds

open Program

def maxLevel : Nat :=
  32

/- The level is a byte. -/
structure Epoch where
  start : Nat
  level : Nat
  deriving DecidableEq, Repr

namespace Epoch

def length (e : Epoch) : Nat :=
  2 ^ e.level % 2 ^ 64

def childAt (e : Epoch) (t : Nat) : Epoch :=
  let e : Epoch := ⟨e.start, (e.level + 255) % 256⟩
  if 0 < t &&& e.length then { e with start := e.start ||| e.length }
  else e

/- The loop of `lca`, with the number of levels left. -/
def lcaLevel (t after level : Nat) : Nat → Nat
| 0 => level
| left + 1 =>
  if 2 ^ level < (t + 2 ^ 64 - after) % 2 ^ 64 ∨ t / 2 ^ level ≠ after / 2 ^ level then
    lcaLevel t after (level + 1) left
  else level

def lca (t after : Nat) : Epoch :=
  if after = 0 then ⟨0, maxLevel⟩
  else
    let level := lcaLevel t after 0 maxLevel
    ⟨after / 2 ^ level * 2 ^ level, level⟩

def next (e : Option Epoch) (last t : Nat) : Epoch :=
  match e with
  | none => ⟨0, maxLevel⟩
  | some e => if t < e.start + e.length then e.childAt t else (lca t last).childAt t

/- The time falls into the epoch. -/
def Holds (e : Epoch) (t : Nat) : Prop :=
  e.start ≤ t ∧ t < e.start + e.length

end Epoch

/- An updater, and the updates it has written, the last one first. -/
structure Feed where
  last : Nat := 0
  epoch : Option Epoch := none
  updates : List (Epoch × Nat) := []

def Feed.update (t : Nat) (f : Feed) : Feed :=
  let e := Epoch.next f.epoch f.last t
  ⟨t, some e, (e, t) :: f.updates⟩

/- An update at a time that is not before the last one. -/
def step (t : Nat) (f : Feed) : Option Feed :=
  if f.last ≤ t ∧ t < 2 ^ 32 then some (f.update t)
  else none

/-
  An update in the current epoch finds a level below it, and one outside it does not follow an
  update at time 0.
-/
def Room (t : Nat) (f : Feed) : Prop :=
  ∀ e ∈ f.epoch, if t < e.start + e.length then e.level ≠ 0 else f.last ≠ 0

instance (t : Nat) (f : Feed) : Decidable (Room t f) :=
  inferInstanceAs (Decidable (∀ _ ∈ _, _))

---- Blocks

namespace Epoch

variable {t last l k : Nat}

/- The epoch of a level that a time falls into. -/
def block (l t : Nat) : Epoch :=
  ⟨t / 2 ^ l * 2 ^ l, l⟩

theorem length_of_le (hLevel : l ≤ 32) (start : Nat) : (⟨start, l⟩ : Epoch).length = 2 ^ l := by
  have hSmall : 2 ^ l ≤ 2 ^ 32 := Nat.pow_le_pow_right (by omega) hLevel
  exact Nat.mod_eq_of_lt (Nat.lt_of_le_of_lt hSmall (by omega))

theorem holds_block (hLevel : l ≤ 32) : (block l t).Holds t := by
  have hDiv := Nat.div_add_mod' t (2 ^ l)
  simp only [Holds, block, length_of_le hLevel]
  omega

/- A time that is not before another is in its block when it is before the end of it. -/
theorem div_eq_of_lt (hLast : last ≤ t) (hIn : t < last / 2 ^ l * 2 ^ l + 2 ^ l) :
    t / 2 ^ l = last / 2 ^ l := by
  rw [← Nat.succ_mul] at hIn
  have hLess := Nat.div_lt_of_lt_mul (Nat.mul_comm _ _ ▸ hIn)
  have hMore := Nat.div_le_div_right (c := 2 ^ l) hLast
  omega

/- Smaller blocks are parts of larger ones. -/
theorem div_eq_of_le (hLe : k ≤ l) (hSame : t / 2 ^ k = last / 2 ^ k) :
    t / 2 ^ l = last / 2 ^ l := by
  obtain ⟨d, rfl⟩ := Nat.exists_eq_add_of_le hLe
  rw [pow_add, ← Nat.div_div_eq_div_mul, ← Nat.div_div_eq_div_mul, hSame]

theorem childAt_block (hLevel : l < 32) (hSame : t / 2 ^ (l + 1) = last / 2 ^ (l + 1)) :
    (block (l + 1) last).childAt t = block l t := by
  have hLow : (l + 1 + 255) % 256 = l := by omega
  have hHalf : t / 2 ^ (l + 1) = t / 2 ^ l / 2 := by rw [pow_succ, Nat.div_div_eq_div_mul]
  simp only [childAt, block, ← hSame, hLow, length_of_le hLevel.le, Nat.and_two_pow,
    Nat.testBit_eq_decide_div_mod_eq]
  by_cases hBit : t / 2 ^ l % 2 = 1
  · have hOdd : t / 2 ^ l = t / 2 ^ (l + 1) * 2 + 1 := by omega
    have hOr := Nat.two_pow_add_eq_or_of_lt (Nat.pow_lt_pow_succ (n := l) Nat.one_lt_two)
      (t / 2 ^ (l + 1))
    rw [Nat.mul_comm (t / 2 ^ (l + 1)), ← hOr, hOdd]
    simp [pow_succ]
    ring
  · have hEven : t / 2 ^ l = t / 2 ^ (l + 1) * 2 := by omega
    rw [hEven]
    simp [pow_succ]
    ring

/- Levels are passed as long as the times are in different blocks. -/
theorem lcaLevel_spec (level left : Nat) (hLevel : level + left = 32) (hLast : last ≤ t)
    (hTime : t < 2 ^ 32) (hBelow : ∀ k < level, t / 2 ^ k ≠ last / 2 ^ k) :
    let top := lcaLevel t last level left
    top ≤ 32 ∧ t / 2 ^ top = last / 2 ^ top ∧ ∀ k < top, t / 2 ^ k ≠ last / 2 ^ k := by
  induction left generalizing level with
  | zero =>
    obtain rfl : level = 32 := hLevel
    refine ⟨Nat.le_refl 32, ?_, hBelow⟩
    unfold lcaLevel
    rw [Nat.div_eq_of_lt hTime, Nat.div_eq_of_lt (Nat.lt_of_le_of_lt hLast hTime)]
  | succ left ih =>
    unfold lcaLevel
    have hDiv := Nat.div_add_mod' t (2 ^ level)
    have hDivLast := Nat.div_add_mod' last (2 ^ level)
    split_ifs with hApart
    · apply ih (level + 1) (by omega)
      intro k hK
      rcases Nat.lt_succ_iff_lt_or_eq.mp hK with hOld | rfl
      · exact hBelow k hOld
      · intro hSame
        rw [hSame] at hDiv
        omega
    · rw [not_or, not_not] at hApart
      exact ⟨by omega, hApart.2, hBelow⟩

end Epoch

---- Fresh Epochs

/-
  All epochs are blocks of their times, each used once, and none of them is a proper part of the
  current one.
-/
structure Grid (f : Feed) : Prop where
  epoch :
    f.epoch = none ∧ f.updates = [] ∨ ∃ l ≤ 32, f.epoch = some (.block l f.last) ∧
      ∀ u ∈ f.updates, u.1.level < l → u.2 / 2 ^ l ≠ f.last / 2 ^ l
  blocks : ∀ u ∈ f.updates, ∃ k ≤ 32, u.1 = .block k u.2 ∧ u.2 ≤ f.last
  distinct : (f.updates.map Prod.fst).Nodup

/- The epoch of an update is a block without blocks of this size or smaller ones in it. -/
theorem Grid.next (hGrid : Grid f) (hRoom : Room t f) (hLast : f.last ≤ t) (hTime : t < 2 ^ 32) :
    ∃ m ≤ 32, Epoch.next f.epoch f.last t = .block m t ∧
      ∀ u ∈ f.updates, u.1.level ≤ m → u.2 / 2 ^ m ≠ t / 2 ^ m := by
  rcases hGrid.epoch with ⟨hNone, hNew⟩ | ⟨l, hLevel, hEpoch, hParts⟩
  · refine ⟨32, Nat.le_refl 32, ?_, by simp [hNew]⟩
    rw [hNone, Epoch.block, Nat.div_eq_of_lt hTime]
    rfl
  have hRoom := hRoom _ hEpoch
  rw [hEpoch]
  simp only [Epoch.next, Epoch.block, Epoch.length_of_le hLevel] at hRoom ⊢
  split_ifs at hRoom ⊢ with hIn
  · obtain ⟨m, rfl⟩ := Nat.exists_eq_succ_of_ne_zero hRoom
    have hSame := Epoch.div_eq_of_lt hLast hIn
    refine ⟨m, by omega, Epoch.childAt_block hLevel hSame, fun u hMem hLow hPart => ?_⟩
    refine hParts u hMem (by omega) ?_
    exact (Epoch.div_eq_of_le (by omega) hPart).trans hSame
  · -- all times before are in other blocks than this one
    have hSpec := Epoch.lcaLevel_spec 0 32 rfl hLast hTime nofun
    rw [Epoch.lca, if_neg hRoom]
    dsimp only [maxLevel] at hSpec ⊢
    cases hTop : Epoch.lcaLevel t f.last 0 32 with
    | zero =>
      rw [hTop, pow_zero, Nat.div_one, Nat.div_one] at hSpec
      rw [hSpec.2.1] at hIn
      exact absurd (Nat.lt_div_mul_add (Nat.two_pow_pos l)) hIn
    | succ m =>
      rw [hTop] at hSpec
      refine ⟨m, by omega, Epoch.childAt_block hSpec.1 hSpec.2.1, fun u hMem _ => ?_⟩
      rcases hGrid.blocks u hMem with ⟨-, -, -, hOld⟩
      have hBefore := Nat.div_le_div_right (c := 2 ^ m) hOld
      have hAfter := Nat.div_le_div_right (c := 2 ^ m) hLast
      have hApart := hSpec.2.2 m (Nat.lt_succ_self m)
      omega

theorem Grid.update (hGrid : Grid f) (hRoom : Room t f) (hLast : f.last ≤ t)
    (hTime : t < 2 ^ 32) : Grid (f.update t) := by
  rcases hGrid.next hRoom hLast hTime with ⟨m, hLevel, hNext, hFresh⟩
  unfold Feed.update
  rw [hNext]
  refine ⟨Or.inr ⟨m, hLevel, rfl, ?_⟩, ?_, ?_⟩
  · rintro u (_ | ⟨_, hMem⟩) hLow
    · exact absurd hLow (Nat.lt_irrefl m)
    · exact hFresh u hMem hLow.le
  · rintro u (_ | ⟨_, hMem⟩)
    · exact ⟨m, hLevel, rfl, Nat.le_refl t⟩
    · rcases hGrid.blocks u hMem with ⟨k, hK, hBlock, hOld⟩
      exact ⟨k, hK, hBlock, hOld.trans hLast⟩
  · refine List.nodup_cons.mpr ⟨fun hMem => ?_, hGrid.distinct⟩
    rcases List.mem_map.mp hMem with ⟨u, hUsed, hEq⟩
    refine hFresh u hUsed (by rw [hEq]; exact Nat.le_refl m) ?_
    rcases hGrid.blocks u hUsed with ⟨k, -, hBlock, -⟩
    obtain ⟨hStart, rfl⟩ := Epoch.mk.inj (hBlock.symm.trans hEq)
    exact Nat.eq_of_mul_eq_mul_right (Nat.two_pow_pos k) hStart

/-
  As long as updates find room, each of them is written to an epoch of the grid that its time falls
  into and that no update before it has used.
-/
theorem epochs_fresh (hReach : Reach (Stepping step) Room {} f) :
    (f.updates.map Prod.fst).Nodup ∧ ∀ u ∈ f.updates, u.1.level ≤ 32 ∧ u.1.Holds u.2 := by
  have hGrid : Grid f := by
    refine hReach.invariant Grid ⟨Or.inl ⟨rfl, rfl⟩, nofun, List.nodup_nil⟩ ?_
    intro t before after hGrid hRoom hStep
    unfold Stepping step at hStep
    split_ifs at hStep with hTime
    cases hStep
    exact hGrid.update hRoom hTime.1 hTime.2
  refine ⟨hGrid.distinct, fun u hMem => ?_⟩
  rcases hGrid.blocks u hMem with ⟨k, hK, hBlock, -⟩
  rw [hBlock]
  exact ⟨hK, Epoch.holds_block hK⟩

/- Two updates at time 5 and one in the other half of the grid. -/
theorem epochs_fresh_three :
    ∃ f, Reach (Stepping step) Room {} f ∧
      f.updates = [(⟨2 ^ 31, 31⟩, 2 ^ 31 + 9), (⟨0, 31⟩, 5), (⟨0, 32⟩, 5)] ∧
      (f.updates.map Prod.fst).Nodup := by
  have hRun :
      ∃ f, Reach (Stepping step) Room {} f ∧
        f.updates = [(⟨2 ^ 31, 31⟩, 2 ^ 31 + 9), (⟨0, 31⟩, 5), (⟨0, 32⟩, 5)] :=
    exists_reach [5, 5, 2 ^ 31 + 9] (by decide +kernel)
  obtain ⟨f, hReach, hUpdates⟩ := hRun
  exact ⟨f, hReach, hUpdates, (epochs_fresh hReach).1⟩

/-
  The fourth update writes to the epoch of the second one, as the last one before it is at time 0.
  The last one of 34 updates in a second is written to level 255.
-/
theorem epochs_reused :
    (∃ f, Reach (Stepping step) (fun _ _ => True) {} f ∧ ¬ (f.updates.map Prod.fst).Nodup) ∧
    ∃ f, Reach (Stepping step) (fun _ _ => True) {} f ∧ ∃ u ∈ f.updates, u.1.level = 255 := by
  constructor
  · exact exists_reach [0, 0, 0, 2 ^ 30 + 5] (by decide +kernel)
  · exact exists_reach (List.replicate 34 7) (by decide +kernel)

end Sana.Feeds
