import Mathlib

/-
  Calls against a shared state.

  A call is a tree of single steps: it reads the shared state, replaces it, reads the clock, or
  takes and releases a lock.  `Call.run` executes all steps of one call without interruption; the
  steps themselves stay visible, so that several calls can also be interleaved.

  Calls may be interrupted between their writes.  A fallible call refines a function of an abstract
  state when its result is that of the function, seen through a view; where it is interrupted, the
  state is still safe.

  Key definitions include:
    * `Clock`
    * `Call`

  Key theorems include:
    * `Call.run_bind`
-/

---- Calls

namespace Program

/- The readings a call gets from the clock, in order. -/
abbrev Clock :=
  Nat → Nat

/- The readings that remain after some have been used. -/
def Clock.drop (clock : Clock) (used : Nat) : Clock :=
  fun n => clock (n + used)

@[simp] theorem Clock.drop_zero (clock : Clock) : clock.drop 0 = clock := rfl

@[simp] theorem Clock.drop_drop (clock : Clock) (first second : Nat) :
    (clock.drop first).drop second = clock.drop (second + first) := by
  funext n
  simp [drop, Nat.add_assoc]

@[simp] theorem Clock.drop_apply (clock : Clock) (used n : Nat) :
    clock.drop used n = clock (n + used) := rfl

/-
  A call that returns a value of type `α` after finitely many steps on a shared state of type `σ`.
-/
inductive Call (σ α : Type) : Type where
  | ret (value : α)
  | read (next : σ → Call σ α)
  | write (update : σ → σ) (next : Call σ α)
  | now (next : Nat → Call σ α)
  | lock (next : Call σ α)
  | unlock (next : Call σ α)

/- What a finished call leaves behind. -/
structure Outcome (σ α : Type) where
  value : α
  clock : Clock
  state : σ

namespace Call

variable {σ α β : Type}

/- Run the second call on the value of the first one. -/
def bind (call : Call σ α) (next : α → Call σ β) : Call σ β :=
  match call with
  | .ret value => next value
  | .read rest => .read fun state => (rest state).bind next
  | .write update rest => .write update (rest.bind next)
  | .now rest => .now fun reading => (rest reading).bind next
  | .lock rest => .lock (rest.bind next)
  | .unlock rest => .unlock (rest.bind next)

instance : Monad (Call σ) where
  pure := .ret
  bind := bind

/- Read one observation of the shared state. -/
def get (observe : σ → α) : Call σ α :=
  .read fun state => .ret (observe state)

/- Replace the shared state. -/
def set (update : σ → σ) : Call σ Unit :=
  .write update (.ret ())

/- Read the clock. -/
def clockReading : Call σ Nat :=
  .now .ret

/- Take the lock. -/
def acquire : Call σ Unit :=
  .lock (.ret ())

/- Release the lock. -/
def release : Call σ Unit :=
  .unlock (.ret ())

/- Execute all steps of a call without interruption. -/
def run : Call σ α → Clock → σ → Outcome σ α
| .ret value, clock, state => ⟨value, clock, state⟩
| .read next, clock, state => (next state).run clock state
| .write update next, clock, state => next.run clock (update state)
| .now next, clock, state => (next (clock 0)).run (clock.drop 1) state
| .lock next, clock, state => next.run clock state
| .unlock next, clock, state => next.run clock state

---- Running

@[simp] theorem run_pure (value : α) (clock : Clock) (state : σ) :
    (pure value : Call σ α).run clock state = ⟨value, clock, state⟩ := rfl

/- A sequence runs its second call where the first ended. -/
@[simp] theorem run_bind (call : Call σ α) (next : α → Call σ β) (clock : Clock) (state : σ) :
    (call >>= next).run clock state =
      (next (call.run clock state).value).run (call.run clock state).clock
        (call.run clock state).state := by
  induction call generalizing clock state with
  | ret value => rfl
  | read rest ih => exact ih state clock state
  | write update rest ih => exact ih clock (update state)
  | now rest ih => exact ih (clock 0) (clock.drop 1) state
  | lock rest ih | unlock rest ih => exact ih clock state

@[simp] theorem run_get (observe : σ → α) (clock : Clock) (state : σ) :
    (get observe).run clock state = ⟨observe state, clock, state⟩ := rfl

@[simp] theorem run_set (update : σ → σ) (clock : Clock) (state : σ) :
    (set update).run clock state = ⟨(), clock, update state⟩ := rfl

@[simp] theorem run_clockReading (clock : Clock) (state : σ) :
    (clockReading : Call σ Nat).run clock state = ⟨clock 0, clock.drop 1, state⟩ := rfl

@[simp] theorem run_acquire (clock : Clock) (state : σ) :
    (acquire : Call σ Unit).run clock state = ⟨(), clock, state⟩ := rfl

@[simp] theorem run_release (clock : Clock) (state : σ) :
    (release : Call σ Unit).run clock state = ⟨(), clock, state⟩ := rfl

end Call

---- Calls Without Writes

namespace Call

variable {σ α β : Type}

/- The call reads the state and the clock, nothing else. -/
def Silent : Call σ α → Prop
| .ret _ => True
| .read next => ∀ state, (next state).Silent
| .now next => ∀ reading, (next reading).Silent
| _ => False

theorem silent_pure (value : α) : (pure value : Call σ α).Silent := trivial

theorem silent_get (observe : σ → α) : (get observe).Silent :=
  fun _ => trivial

theorem silent_clockReading : (clockReading : Call σ Nat).Silent :=
  fun _ => trivial

theorem Silent.bind {next : α → Call σ β} (hCall : call.Silent)
    (hNext : ∀ value, (next value).Silent) : (call >>= next).Silent := by
  induction call with
  | ret value => exact hNext value
  | read rest ih => exact fun state => ih state (hCall state)
  | now rest ih => exact fun reading => ih reading (hCall reading)
  | write update rest | lock rest | unlock rest => cases hCall

---- Interruption

/- The number of writes of a run. -/
def writes : Call σ α → Clock → σ → Nat
| .ret _, _, _ => 0
| .read next, clock, state => (next state).writes clock state
| .write update next, clock, state => next.writes clock (update state) + 1
| .now next, clock, state => (next (clock 0)).writes (clock.drop 1) state
| .lock next, clock, state => next.writes clock state
| .unlock next, clock, state => next.writes clock state

/- The state of a run interrupted after `count` writes. -/
def stop : Call σ α → Nat → Clock → σ → σ
| .ret _, _, _, state => state
| .read next, count, clock, state => (next state).stop count clock state
| .write _ _, 0, _, state => state
| .write update next, count + 1, clock, state => next.stop count clock (update state)
| .now next, count, clock, state => (next (clock 0)).stop count (clock.drop 1) state
| .lock next, count, clock, state => next.stop count clock state
| .unlock next, count, clock, state => next.stop count clock state

@[simp] theorem writes_pure (value : α) (clock : Clock) (state : σ) :
    (pure value : Call σ α).writes clock state = 0 := rfl

@[simp] theorem writes_set (update : σ → σ) (clock : Clock) (state : σ) :
    (set update).writes clock state = 1 := rfl

theorem Silent.writes_eq {call : Call σ α} (hCall : call.Silent) (clock : Clock) (state : σ) :
    call.writes clock state = 0 := by
  induction call generalizing clock with
  | ret value => rfl
  | read rest ih => exact ih state (hCall state) clock
  | now rest ih => exact ih (clock 0) (hCall (clock 0)) (clock.drop 1)
  | write update rest | lock rest | unlock rest => cases hCall

@[simp] theorem writes_bind (call : Call σ α) (next : α → Call σ β) (clock : Clock) (state : σ) :
    (call >>= next).writes clock state =
      call.writes clock state +
        (next (call.run clock state).value).writes (call.run clock state).clock
          (call.run clock state).state := by
  change (call.bind next).writes clock state = _
  induction call generalizing clock state with
  | ret value => exact (Nat.zero_add _).symm
  | read rest ih => exact ih state clock state
  | write update rest ih =>
    have hRest := ih clock (update state)
    simp only [bind, writes, run, hRest]
    omega
  | now rest ih => exact ih (clock 0) (clock.drop 1) state
  | lock rest ih | unlock rest ih => exact ih clock state

/- A run that is not interrupted early enough ends. -/
theorem stop_of_le (call : Call σ α) (count : Nat) (clock : Clock) (state : σ)
    (hLe : call.writes clock state ≤ count) :
    call.stop count clock state = (call.run clock state).state := by
  induction call generalizing count clock state with
  | ret value => rfl
  | read rest ih => exact ih state count clock state hLe
  | write update rest ih =>
    cases count with
    | zero => simp [writes] at hLe
    | succ count => exact ih count clock (update state) (Nat.le_of_succ_le_succ hLe)
  | now rest ih => exact ih (clock 0) count (clock.drop 1) state hLe
  | lock rest ih | unlock rest ih => exact ih count clock state hLe

/- Nothing has happened before the first write. -/
theorem stop_zero (call : Call σ α) (clock : Clock) (state : σ) :
    call.stop 0 clock state = state := by
  induction call generalizing clock with
  | ret value | write update rest => rfl
  | read rest ih => exact ih state clock
  | now rest ih => exact ih (clock 0) (clock.drop 1)
  | lock rest ih | unlock rest ih => exact ih clock

/-
  A sequence is interrupted in its first call or, after the writes of the first call, in its second
  one.
-/
theorem stop_bind (call : Call σ α) (next : α → Call σ β) (count : Nat) (clock : Clock)
    (state : σ) : (call >>= next).stop count clock state = if count < call.writes clock state then
        call.stop count clock state
      else
        (next (call.run clock state).value).stop (count - call.writes clock state)
          (call.run clock state).clock (call.run clock state).state := by
  change (call.bind next).stop count clock state = _
  induction call generalizing count clock state with
  | ret value => rfl
  | read rest ih => exact ih state count clock state
  | write update rest ih =>
    cases count with
    | zero => simp [bind, stop, writes]
    | succ count =>
      have hRest := ih count clock (update state)
      simp only [bind, stop, writes, run, hRest, Nat.add_lt_add_iff_right, Nat.add_sub_add_right]
  | now rest ih => exact ih (clock 0) count (clock.drop 1) state
  | lock rest ih | unlock rest ih => exact ih count clock state

end Call

---- Fallible Calls

/- A call that may fail. -/
abbrev Fallible (σ : Type) :=
  OptionT (Call σ)

namespace Fallible

variable {σ α β : Type}

def get (observe : σ → α) : Fallible σ α :=
  OptionT.lift (Call.get observe)

def set (update : σ → σ) : Fallible σ Unit :=
  OptionT.lift (Call.set update)

/- Read something that may be missing. -/
def find (observe : σ → Option α) : Fallible σ α :=
  OptionT.mk (Call.get observe)

/- What an uninterrupted call leaves behind. -/
def outcome (call : Fallible σ α) (clock : Clock) (state : σ) : Outcome σ (Option α) :=
  Call.run call.run clock state

/- The state of a call interrupted after `count` writes. -/
def stop (call : Fallible σ α) (count : Nat) (clock : Clock) (state : σ) : σ :=
  Call.stop call.run count clock state

/- A failed call ends a sequence. -/
theorem outcome_bind_none
    (hNone : (call.outcome clock state).value = none) (next : α → Fallible σ β) :
    (call >>= next).outcome clock state =
      ⟨none, (call.outcome clock state).clock, (call.outcome clock state).state⟩ := by
  unfold outcome at hNone ⊢
  rw [OptionT.run_bind]
  unfold Option.elimM
  rw [Call.run_bind, hNone]
  rfl

theorem outcome_bind_some
    (hSome : (call.outcome clock state).value = some value) (next : α → Fallible σ β) :
    (call >>= next).outcome clock state =
      (next value).outcome (call.outcome clock state).clock (call.outcome clock state).state := by
  unfold outcome at hSome ⊢
  rw [OptionT.run_bind]
  unfold Option.elimM
  rw [Call.run_bind, hSome]
  rfl

/- Where a sequence may be interrupted. -/
theorem stop_bind_cases (next : α → Fallible σ β) :
    (call >>= next).stop count clock state = call.stop count clock state ∨
      ∃ value count',
        (call.outcome clock state).value = some value ∧
          (call >>= next).stop count clock state =
            (next value).stop count' (call.outcome clock state).clock
              (call.outcome clock state).state := by
  unfold stop outcome
  rw [OptionT.run_bind]
  unfold Option.elimM
  rw [Call.stop_bind]
  split
  · exact Or.inl rfl
  · next hLate =>
      cases hValue : (Call.run call.run clock state).value with
      | none =>
        left
        rw [Call.stop_of_le _ _ _ _ (Nat.le_of_not_lt hLate)]
        rfl
      | some value => exact Or.inr ⟨value, _, rfl, rfl⟩

---- Refinement

variable {τ : Type}

/-
  From states with `Before`, the call does what `spec` does to the view.  It leaves states with
  `After` when it succeeds, and states with `Safe` wherever it is interrupted.
-/
structure Refines (view : σ → τ) (Safe Before After : σ → Prop) (call : Fallible σ α)
    (spec : τ → Option (α × τ)) : Prop where
  value : ∀ clock state, Before state → (call.outcome clock state).value.map (fun value =>
            (value, view (call.outcome clock state).state)) =
        spec (view state)
  after :
    ∀ clock state value, Before state → (call.outcome clock state).value = some value →
      After (call.outcome clock state).state
  stop : ∀ count clock state, Before state → Safe (call.stop count clock state)

variable {view : σ → τ} {Safe P Q R : σ → Prop}

namespace Refines

theorem congr (hCall : Refines view Safe P Q call spec) (hSpec : ∀ t, spec t = spec' t) :
    Refines view Safe P Q call spec' := by
  obtain rfl : spec = spec' := funext hSpec
  exact hCall

theorem weaken (hCall : Refines view Safe P Q call spec) (hBefore : ∀ state, P' state → P state)
    (hAfter : ∀ state, Q state → Q' state) : Refines view Safe P' Q' call spec where
  value := fun clock state hState => hCall.value clock state (hBefore state hState)
  after := fun clock state value hState hValue =>
    hAfter _ (hCall.after clock state value (hBefore state hState) hValue)
  stop := fun count clock state hState => hCall.stop count clock state (hBefore state hState)

/- What all states show before the call may be assumed. -/
theorem assume (hShown : ∀ state, P state → p) (hCall : p → Refines view Safe P Q call spec) :
    Refines view Safe P Q call spec where
  value := fun clock state hState => (hCall (hShown state hState)).value clock state hState
  after := fun clock state value hState =>
    (hCall (hShown state hState)).after clock state value hState
  stop := fun count clock state hState =>
    (hCall (hShown state hState)).stop count clock state hState

section

variable (hSafe : ∀ state, P state → Safe state)
include hSafe

theorem pure (value : α) :
    Refines view Safe P P (Pure.pure value) (fun t => some (value, t)) where
  value := fun _ _ _ => rfl
  after := fun _ _ _ hBefore _ => hBefore
  stop := fun _ _ state hBefore => hSafe state hBefore

theorem failure :
    Refines view Safe P Q (Alternative.failure : Fallible σ α) (fun _ => none) where
  value := fun _ _ _ => rfl
  after := fun _ _ _ _ hValue => nomatch hValue
  stop := fun _ _ state hBefore => hSafe state hBefore

/- What the view shows can be read. -/
theorem get (observe : τ → α) :
    Refines view Safe P P (get fun state => observe (view state))
      (fun t => some (observe t, t)) where
  value := fun _ _ _ => rfl
  after := fun _ _ _ hBefore _ => hBefore
  stop := fun _ _ state hBefore => hSafe state hBefore

theorem find (observe : τ → Option α) :
    Refines view Safe P P (find fun state => observe (view state))
      (fun t => (observe t).map fun value => (value, t)) where
  value := fun _ _ _ => rfl
  after := fun _ _ _ hBefore _ => hBefore
  stop := fun _ _ state hBefore => hSafe state hBefore

end

/- A write is seen through the view. -/
theorem set {effect : τ → τ} (hBefore : ∀ state, P state → Safe state)
    (hAfter : ∀ state, Q state → Safe state)
    (hView : ∀ state, P state → view (update state) = effect (view state))
    (hKept : ∀ state, P state → Q (update state)) :
    Refines view Safe P Q (set update) (fun t => some ((), effect t)) where
  value := by
    intro _ state hState
    exact congrArg (fun t => some ((), t)) (hView state hState)
  after := fun _ state _ hState _ => hKept state hState
  stop := by
    intro count _ state hState
    cases count with
    | zero => exact hBefore state hState
    | succ count => exact hAfter _ (hKept state hState)

/- Sequences refine sequences. -/
theorem bind {spec' : α → τ → Option (β × τ)} (hCall : Refines view Safe P Q call spec)
    (hNext : ∀ value, Refines view Safe Q R (next value) (spec' value)) :
    Refines view Safe P R (call >>= next) (fun t =>
        (spec t).bind fun result => spec' result.1 result.2) where
  value := by
    intro clock state hBefore
    have hValue := hCall.value clock state hBefore
    cases hFirst : (call.outcome clock state).value with
    | none =>
      rw [hFirst] at hValue
      rw [outcome_bind_none hFirst, ← hValue]
      rfl
    | some value =>
      have hMid := hCall.after clock state value hBefore hFirst
      rw [hFirst] at hValue
      rw [outcome_bind_some hFirst, ← hValue, (hNext value).value _ _ hMid]
      rfl
  after := by
    intro clock state value hBefore hValue
    cases hFirst : (call.outcome clock state).value with
    | none =>
      rw [outcome_bind_none hFirst] at hValue
      cases hValue
    | some first =>
      have hMid := hCall.after clock state first hBefore hFirst
      rw [outcome_bind_some hFirst] at hValue ⊢
      exact (hNext first).after _ _ value hMid hValue
  stop := by
    intro count clock state hBefore
    rcases stop_bind_cases next with
      hFirst | ⟨value, count', hValue, hSecond⟩
    · rw [hFirst]
      exact hCall.stop count clock state hBefore
    · rw [hSecond]
      exact (hNext value).stop _ _ _ (hCall.after clock state value hBefore hValue)

/- What was read is known in what follows. -/
theorem get_bind_known (observe : τ → α) {spec : α → τ → Option (β × τ)}
    (hNext :
      ∀ value,
        Refines view Safe (fun state => P state ∧ observe (view state) = value)
          Q (next value) (spec value)) :
    Refines view Safe P Q ((Fallible.get fun state => observe (view state)) >>= next)
      (fun t => spec (observe t) t) where
  value := fun clock state hBefore => (hNext _).value clock state ⟨hBefore, rfl⟩
  after := fun clock state value hBefore hValue =>
    (hNext _).after clock state value ⟨hBefore, rfl⟩ hValue
  stop := fun count clock state hBefore => (hNext _).stop count clock state ⟨hBefore, rfl⟩

/- Reading first. -/
theorem get_bind (hSafe : ∀ state, P state → Safe state) (observe : τ → α)
    {spec : α → τ → Option (β × τ)}
    (hNext : ∀ value, Refines view Safe P Q (next value) (spec value)) :
    Refines view Safe P Q ((Fallible.get fun state => observe (view state)) >>= next)
      (fun t => spec (observe t) t) :=
  (get hSafe observe).bind hNext

theorem find_bind (hSafe : ∀ state, P state → Safe state) (observe : τ → Option α)
    {spec : α → τ → Option (β × τ)}
    (hNext : ∀ value, Refines view Safe P Q (next value) (spec value)) :
    Refines view Safe P Q ((Fallible.find fun state => observe (view state)) >>= next)
      (fun t => (observe t).bind fun value => spec value t) := by
  refine ((find hSafe observe).bind hNext).congr fun t => ?_
  rw [Option.bind_map]
  rfl

/- A choice that both make. -/
theorem ite [Decidable p] (hThen : p → Refines view Safe P Q call spec)
    (hElse : ¬ p → Refines view Safe P Q call' spec') :
    Refines view Safe P Q (if p then call else call') (fun t => if p then spec t else spec' t) := by
  by_cases hChoice : p
  · simp only [if_pos hChoice]
    exact hThen hChoice
  · simp only [if_neg hChoice]
    exact hElse hChoice

end Refines

/- A call without a result, and a function of the state. -/
abbrev Implements (view : σ → τ) (Safe Before After : σ → Prop) (call : Fallible σ Unit)
    (effect : τ → Option τ) : Prop :=
  Refines view Safe Before After call (fun t => (effect t).map (Prod.mk ()))

/- A call without a result, and one after it. -/
theorem Implements.andThen {spec : τ → Option (α × τ)}
    (hCall : Implements view Safe P Q call effect)
    (hNext : Refines view Safe Q R next spec) :
    Refines view Safe P R (call >>= fun _ => next) (fun t => (effect t).bind spec) := by
  refine (hCall.bind fun _ => hNext).congr fun t => ?_
  rw [Option.bind_map]
  rfl

end Fallible

end Program
