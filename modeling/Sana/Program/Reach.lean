import Mathlib

/-
  Runs of a transition system.

  `Reach` collects the states of all runs whose steps meet a condition on the step and the state
  before it.

  The goroutines of a system stand in a list.  One that begins is put at the end, and one that takes
  a step is replaced at its place, so that a place always names the same goroutine.

  In a system with heights, a tick may be absorbed by a later one.  Then the ticks that are inserted
  between events do not show in the final state (`Ticked.Paging.run_eq`).

  Key definitions include:
    * `Reach`
    * `follow`

  Key theorems include:
    * `Reach.follow`
-/

---- Reachable States

namespace Program

variable {σ ι : Type}

/-
  The states that steps from `start` lead to, when each step is allowed in the state it starts from.
-/
inductive Reach (step : ι → σ → σ → Prop) (allowed : ι → σ → Prop) (start : σ) : σ → Prop where
  | start : Reach step allowed start start
  | step {before after : σ} (label : ι) (hReach : Reach step allowed start before)
      (hAllowed : allowed label before) (hStep : step label before after) :
      Reach step allowed start after

namespace Reach

variable {step : ι → σ → σ → Prop}
variable {allowed : ι → σ → Prop}
variable {start : σ}

/- What holds at the start and is kept by every step. -/
theorem invariant (hReach : Reach step allowed start state) (Inv : σ → Prop) (hStart : Inv start)
    (hKept :
      ∀ label before after, Inv before → allowed label before →
        step label before after → Inv after) : Inv state := by
  induction hReach with
  | start => exact hStart
  | step label _ hAllowed hStep ih => exact hKept label _ _ ih hAllowed hStep

/- Allowing more steps reaches more states. -/
theorem mono (hAllow : ∀ label state, allowed label state → allowed' label state)
    (hReach : Reach step allowed start state) : Reach step allowed' start state := by
  induction hReach with
  | start => exact .start
  | step label _ hAllowed hStep ih => exact .step label ih (hAllow label _ hAllowed) hStep

end Reach

---- Step Functions

/- The steps of a partial function, as a relation. -/
def Stepping (step : ι → σ → Option σ) : ι → σ → σ → Prop :=
  fun label before after => step label before = some after

/- Take steps one after the other. -/
def follow (step : ι → σ → Option σ) : List ι → σ → Option σ
| [], state => some state
| label :: labels, state => (step label state).bind (follow step labels)

variable {step : ι → σ → Option σ}
variable {allowed : ι → σ → Prop}
variable {start : σ}

/- Steps that are always allowed lead on. -/
theorem Reach.follow (hReach : Reach (Stepping step) allowed start before)
    (hAllowed : ∀ label ∈ labels, ∀ state, allowed label state)
    (hFollow : Program.follow step labels before = some after) :
    Reach (Stepping step) allowed start after := by
  induction labels generalizing before with
  | nil =>
    cases hFollow
    exact hReach
  | cons label labels ih =>
    obtain ⟨next, hStep, hRest⟩ := Option.bind_eq_some_iff.mp hFollow
    apply ih (hReach.step label _ hStep) _ hRest
    · exact hAllowed label (List.mem_cons_self ..) before
    · intro other hMem
      exact hAllowed other (List.mem_cons_of_mem _ hMem)

/- The step function that takes allowed steps only. -/
def guarded (step : ι → σ → Option σ) (allowed : ι → σ → Prop)
    [∀ label state, Decidable (allowed label state)] (label : ι) (state : σ) : Option σ :=
  if allowed label state then step label state else none

theorem Reach.of_guarded [∀ label state, Decidable (allowed label state)]
    (hReach : Reach (Stepping step) allowed start before)
    (hFollow : Program.follow (guarded step allowed) labels before = some after) :
    Reach (Stepping step) allowed start after := by
  induction labels generalizing before with
  | nil =>
    cases hFollow
    exact hReach
  | cons label labels ih =>
    obtain ⟨next, hStep, hRest⟩ := Option.bind_eq_some_iff.mp hFollow
    unfold guarded at hStep
    split_ifs at hStep with hAllowed
    exact ih (hReach.step label hAllowed hStep) hRest

/- Some allowed steps lead to a state of a kind. -/
theorem exists_reach [∀ label state, Decidable (allowed label state)] {P : σ → Prop}
    (labels : List ι) (hRun : ∃ state ∈ follow (guarded step allowed) labels start, P state) :
    ∃ state, Reach (Stepping step) allowed start state ∧ P state := by
  obtain ⟨state, hFollow, hState⟩ := hRun
  exact ⟨state, Reach.of_guarded .start hFollow, hState⟩

/-
  If every step lowers a measure, except for what it brings, then the steps of a run are at most as
  many as the measure at its start and all that its steps bring.
-/
theorem follow_bounded (measure : σ → Nat) (brings : ι → Nat)
    (hLower :
      ∀ label before after,
        step label before = some after → measure after + 1 ≤ measure before + brings label)
    (hFollow : follow step labels before = some after) :
    measure after + labels.length ≤ measure before + (labels.map brings).sum := by
  induction labels generalizing before with
  | nil =>
    cases hFollow
    simp
  | cons label labels ih =>
    obtain ⟨next, hStep, hRest⟩ := Option.bind_eq_some_iff.mp hFollow
    have hFirst := hLower label before next hStep
    have hOthers := ih hRest
    simp only [List.length_cons, List.map_cons, List.sum_cons]
    omega

end Program

---- Descending Chains

namespace Program

variable {α β : Type}
variable {next : α → α → Prop}
variable (place : α → β)
variable (rank : β → Nat)

section

variable (hLower : ∀ x y, next x y → rank (place y) < rank (place x))
include hLower

/- Every later element of a chain is of a lower rank. -/
theorem pairwise_of_isChain
    {elements : List α} (hChain : elements.IsChain next) : elements.Pairwise fun x y =>
      rank (place y) < rank (place x) := by
  have hRanks : elements.IsChain fun x y =>
        rank (place y) < rank (place x) :=
    hChain.imp fun x y hNext => hLower x y hNext
  exact List.isChain_iff_pairwise.mp hRanks

/- No place is come to twice. -/
theorem nodup_of_isChain
    {elements : List α} (hChain : elements.IsChain next) : (elements.map place).Nodup := by
  rw [List.Nodup, List.pairwise_map]
  apply (pairwise_of_isChain place rank hLower hChain).imp
  intro x y hLt hSame
  rw [hSame] at hLt
  exact lt_irrefl _ hLt

theorem no_infinite_chain (elements : Nat → α) : ∃ i, ¬next (elements i) (elements (i + 1)) := by
  by_contra hNone
  have hAll : ∀ i, next (elements i) (elements (i + 1)) :=
    fun i => not_not.mp (not_exists.mp hNone i)
  have hAnti : StrictAnti fun i => rank (place (elements i)) := strictAnti_nat_of_succ_lt fun i =>
      hLower _ _ (hAll i)
  exact not_strictAnti_of_wellFoundedLT _ hAnti

end

end Program

---- Looking Up

namespace Program

variable {α : Type} {table : List α} {i : Nat} {old new : α}

section

variable {j : Nat}
variable {x : α}

/- A goroutine after one of them was replaced. -/
theorem slot_set_cases (hSlot : (table.set i new)[j]? = some x) :
    (j = i ∧ x = new) ∨ (j ≠ i ∧ table[j]? = some x) := by
  by_cases hPlace : j = i
  · subst hPlace
    rw [List.getElem?_set] at hSlot
    simp only [↓reduceIte] at hSlot
    split_ifs at hSlot
    exact .inl ⟨rfl, (Option.some.inj hSlot).symm⟩
  · rw [List.getElem?_set_ne (Ne.symm hPlace)] at hSlot
    exact .inr ⟨hPlace, hSlot⟩

theorem slot_set_self (hOld : table[i]? = some old) : (table.set i new)[i]? = some new :=
  List.getElem?_set_self (List.getElem?_eq_some_iff.mp hOld).1

/- A goroutine after one more has begun. -/
theorem slot_append_cases (hSlot : (table ++ [new])[j]? = some x) :
    (j = table.length ∧ x = new) ∨ table[j]? = some x := by
  rcases Nat.lt_trichotomy j table.length with hLess | hEnd | hMore
  · rw [List.getElem?_append_left hLess] at hSlot
    exact .inr hSlot
  · subst hEnd
    rw [List.getElem?_concat_length] at hSlot
    exact .inl ⟨rfl, (Option.some.inj hSlot).symm⟩
  · rw [List.getElem?_eq_none (by simpa using hMore)] at hSlot
    cases hSlot

theorem slot_append_of_slot (hSlot : table[j]? = some x) : (table ++ [new])[j]? = some x := by
  rw [List.getElem?_append_left (List.getElem?_eq_some_iff.mp hSlot).1]
  exact hSlot

end

---- The Work of a Table

/- The sum of what each goroutine may still do. -/
def total (work : α → Nat) (table : List α) : Nat :=
  (table.map work).sum

theorem total_append (work : α → Nat) :
    total work (table ++ [new]) = total work table + work new := by
  simp [total]

theorem total_set (work : α → Nat) (hOld : table[i]? = some old) :
    total work (table.set i new) + work old = total work table + work new := by
  induction table generalizing i with
  | nil => cases hOld
  | cons head tail ih =>
    cases i with
    | zero =>
      cases hOld
      simp only [total, List.set_cons_zero, List.map_cons, List.sum_cons]
      omega
    | succ i =>
      have hTail := ih hOld
      simp only [total, List.set_cons_succ, List.map_cons, List.sum_cons] at hTail ⊢
      omega

end Program

---- Runs

namespace Program

inductive Move (H E : Type) where
  | tick (height : H)
  | act (event : E)

/- What ticks and events do; `none` stands for a failure. -/
structure Ticked (σ H E : Type) where
  tick : H → σ → Option σ
  act : E → σ → Option σ
  height : E → H

namespace Ticked

section

variable {σ H E : Type}

def run (sys : Ticked σ H E) : List (Move H E) → σ → Option σ
| [], s => some s
| .tick h :: moves, s => (sys.tick h s).bind (run sys moves)
| .act e :: moves, s => (sys.act e s).bind (run sys moves)

/- One tick before each event, and one at the end. -/
def plain (sys : Ticked σ H E) (final : H) : List E → List (Move H E)
| [] => [.tick final]
| e :: events => .tick (sys.height e) :: .act e :: plain sys final events

variable [LE H]

/-
  Moves for a list of events with further ticks between them. Heights do not decrease, from a given
  one to the final one.
-/
inductive Paging (sys : Ticked σ H E) (final : H) : H → List E → List (Move H E) → Prop where
  | final {height : H} (hLe : height ≤ final) : Paging sys final height [] [.tick final]
  | page {height next : H} {events : List E} {moves : List (Move H E)} (hLe : height ≤ next)
      (hRest : Paging sys final next events moves) :
      Paging sys final height events (.tick next :: moves)
  | event {height : H} {e : E} {events : List E} {moves : List (Move H E)}
      (hLe : height ≤ sys.height e) (hRest : Paging sys final (sys.height e) events moves) :
      Paging sys final height (e :: events) (.tick (sys.height e) :: .act e :: moves)

end

---- Absorbed Ticks

variable {σ H E : Type} [LE H] [Std.IsPreorder H]

/- Ticks succeed and are absorbed by later ones, in states that are ready for a list of events. -/
structure Absorbing (sys : Ticked σ H E) (clock : σ → H) (Ready : List E → σ → Prop) : Prop where
  tick :
    ∀ {events s h}, Ready events s → clock s ≤ h →
      ∃ s', sys.tick h s = some s' ∧ clock s' = h ∧ Ready events s' ∧
        ∀ later, h ≤ later → sys.tick later s' = sys.tick later s
  act :
    ∀ {e events s s'}, Ready (e :: events) s → sys.act e s = some s' →
      clock s' = clock s ∧ Ready events s'

variable {sys : Ticked σ H E}
variable {final height : H}
variable {events : List E} {moves : List (Move H E)}

theorem Paging.le_final (hPaging : sys.Paging final height events moves) : height ≤ final := by
  induction hPaging with
  | final hLe => exact hLe
  | page hLe _ ih | event hLe _ ih => exact Std.le_trans hLe ih

theorem Paging.le_height (hPaging : sys.Paging final height (e :: events) moves) :
    height ≤ sys.height e := by
  generalize hAll : e :: events = all at hPaging
  induction hPaging with
  | final => cases hAll
  | page hLe _ ih => exact Std.le_trans hLe (ih hAll)
  | event hLe _ _ =>
    cases hAll
    exact hLe

variable {clock : σ → H} {Ready : List E → σ → Prop}

/- The first tick of a plain run absorbs an earlier one. -/
theorem Paging.run_plain_eq (hPaging : sys.Paging final height events moves)
    (hAbsorbed : ∀ later, height ≤ later → sys.tick later s' = sys.tick later s) :
    sys.run (sys.plain final events) s' = sys.run (sys.plain final events) s := by
  cases events with
  | nil =>
    simp only [plain, run]
    rw [hAbsorbed final hPaging.le_final]
  | cons e events =>
    simp only [plain, run]
    rw [hAbsorbed (sys.height e) hPaging.le_height]

/- Further ticks do not change the result of a run. -/
theorem Paging.run_eq (hAbsorbing : sys.Absorbing clock Ready)
    (hPaging : sys.Paging final height events moves) (hReady : Ready events s)
    (hClock : clock s = height) : sys.run moves s = sys.run (sys.plain final events) s := by
  induction hPaging generalizing s with
  | final => rfl
  | page hLe hRest ih =>
    rcases hAbsorbing.tick hReady (hClock ▸ hLe) with ⟨s', hTick, hHeight, hReady', hAbsorbed⟩
    rw [run, hTick, Option.bind_some, ih hReady' hHeight]
    exact hRest.run_plain_eq hAbsorbed
  | event hLe _ ih =>
    rcases hAbsorbing.tick hReady (hClock ▸ hLe) with ⟨s', hTick, hHeight, hReady', -⟩
    simp only [plain, run, hTick, Option.bind_some]
    refine Option.bind_congr ?_
    intro next hAct
    rcases hAbsorbing.act hReady' hAct with ⟨hSame, hReady''⟩
    exact ih hReady'' (hSame.trans hHeight)

end Ticked

end Program
