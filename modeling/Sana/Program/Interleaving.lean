import Sana.Program.Call
import Sana.Program.Reach

/-
  Calls whose steps are interleaved.

  Most calls take a lock for all that they write.  Before it they may look at a part of the state,
  and be done without the lock.  One call takes no lock at all.  If it excludes the others
  nevertheless, the calls have the effect of some sequential order.

  In an outline every call has a phase, and an invariant ties the phases of all calls, the holder of
  the lock and the shared state.  If every step keeps it for some next phase, it holds throughout
  all interleavings (`Outline.Covered.step`).

  Key definitions include:
    * `Threads`
    * `ThreadStep`

  Key theorems include:
    * `Traced.step`
-/

---- Threads

namespace Program

section

variable {ι σ α : Type}

/- A call with the steps that remain. -/
structure Thread (σ α : Type) where
  clock : Clock
  call : Call σ α
  started : Bool

structure Threads (ι σ α : Type) where
  state : σ
  holder : Option ι
  thread : ι → Thread σ α

namespace Threads

/- Every call before its first step, with a clock of its own. -/
def start (calls : ι → Call σ α) (clocks : ι → Clock) (state : σ) : Threads ι σ α where
  state := state
  holder := none
  thread i := ⟨clocks i, calls i, false⟩

def advance [DecidableEq ι] (sys : Threads ι σ α) (i : ι) (clock : Clock)
    (call : Call σ α) : Threads ι σ α :=
  { sys with thread := Function.update sys.thread i ⟨clock, call, true⟩ }

theorem advance_self [DecidableEq ι] (sys : Threads ι σ α) (i : ι) (clock : Clock)
    (call : Call σ α) : (sys.advance i clock call).thread i = ⟨clock, call, true⟩ :=
  Function.update_self ..

def Finished (sys : Threads ι σ α) (i : ι) : Prop :=
  ∃ value, (sys.thread i).call = .ret value

/- The call is between its first and its last step. -/
def Busy (sys : Threads ι σ α) (i : ι) : Prop :=
  (sys.thread i).started = true ∧ ¬ sys.Finished i

end Threads

/- A single step of one call; taking the lock may block. -/
inductive ThreadStep [DecidableEq ι] (i : ι) : Threads ι σ α → Threads ι σ α → Prop where
  | read {sys : Threads ι σ α} {next : σ → Call σ α} (hCall : (sys.thread i).call = .read next) :
      ThreadStep i sys (sys.advance i (sys.thread i).clock (next sys.state))
  | write {sys : Threads ι σ α} {update : σ → σ} {next : Call σ α}
      (hCall : (sys.thread i).call = .write update next) : ThreadStep i sys
        { sys.advance i (sys.thread i).clock next with state := update sys.state }
  | now {sys : Threads ι σ α} {next : Nat → Call σ α} (hCall : (sys.thread i).call = .now next) :
      ThreadStep i sys (sys.advance i ((sys.thread i).clock.drop 1) (next ((sys.thread i).clock 0)))
  | lock {sys : Threads ι σ α} {next : Call σ α} (hCall : (sys.thread i).call = .lock next)
      (hFree : sys.holder = none) : ThreadStep i sys
        { sys.advance i (sys.thread i).clock next with holder := some i }
  | unlock {sys : Threads ι σ α} {next : Call σ α} (hCall : (sys.thread i).call = .unlock next) :
      ThreadStep i sys { sys.advance i (sys.thread i).clock next with holder := none }

/- The state after the calls have run one after the other. -/
def serial (calls : ι → Call σ α) (clocks : ι → Clock) : List ι → σ → σ
| [], state => state
| i :: order, state => serial calls clocks order ((calls i).run (clocks i) state).state

theorem serial_append (calls : ι → Call σ α) (clocks : ι → Clock) (first second : List ι)
    (state : σ) :
    serial calls clocks (first ++ second) state =
      serial calls clocks second (serial calls clocks first state) := by
  induction first generalizing state with
  | nil => rfl
  | cons i first ih => exact ih _

/- Calls without effect do not matter. -/
theorem serial_of_idle (calls : ι → Call σ α) (clocks : ι → Clock)
    (hIdle : ∀ i ∈ order, ((calls i).run (clocks i) state).state = state) :
    serial calls clocks order state = state := by
  induction order with
  | nil => rfl
  | cons i order ih =>
    rw [serial, hIdle i List.mem_cons_self]
    exact ih fun k hK => hIdle k (List.mem_cons_of_mem i hK)

end

---- Shapes Of Calls

section

variable {σ τ α β : Type}

/-
  `Good` holds of all states, and `look` is the part of the state that calls look at before they
  take the lock.
-/
variable (Good : σ → Prop) (look : σ → τ)

/- An update of good states that nobody sees from outside. -/
def Keeps (update : σ → σ) : Prop :=
  ∀ state, Good state → Good (update state) ∧ look (update state) = look state

namespace Call

/- No lock is used, and no write is seen from outside. -/
def Quiet : Call σ α → Prop
| .ret _ => True
| .read next => ∀ state, (next state).Quiet
| .write update next => Keeps Good look update ∧ next.Quiet
| .now next => ∀ reading, (next reading).Quiet
| .lock _ => False
| .unlock _ => False

/- The rest of a call under the lock, without visible writes. -/
def Behind : Call σ α → Prop
| .ret _ => False
| .read next => ∀ state, (next state).Behind
| .write update next => Keeps Good look update ∧ next.Behind
| .now next => ∀ reading, (next reading).Behind
| .lock _ => False
| .unlock next => ∃ value, next = .ret value

/- The rest of a call under the lock, with one visible write
   at most. -/
def Inside : Call σ α → Prop
| .ret _ => False
| .read next => ∀ state, (next state).Inside
| .write update next =>
  Keeps Good look update ∧ next.Inside ∨
    (∀ state, Good state → Good (update state)) ∧ next.Behind Good look
| .now next => ∀ reading, (next reading).Inside
| .lock _ => False
| .unlock next => ∃ value, next = .ret value

variable {Good look}

/- A silent call whose values all meet a condition. -/
def Yields (Q : α → Prop) : Call σ α → Prop
| .ret value => Q value
| .read next => ∀ state, (next state).Yields Q
| .now next => ∀ reading, (next reading).Yields Q
| _ => False

theorem yields_pure (hValue : Q value) : (pure value : Call σ α).Yields Q :=
  hValue

theorem Silent.bind_yields {next : α → Call σ β}
    (hCall : call.Silent) (hNext : ∀ value, (next value).Yields Q) : (call >>= next).Yields Q := by
  induction call with
  | ret value => exact hNext value
  | read rest ih => exact fun state => ih state (hCall state)
  | now rest ih => exact fun reading => ih reading (hCall reading)
  | write update rest | lock rest | unlock rest => cases hCall

theorem Yields.bind {next : α → Call σ β}
    (hCall : call.Yields P) (hNext : ∀ value, P value → (next value).Yields Q) :
    (call >>= next).Yields Q := by
  induction call with
  | ret value => exact hNext value hCall
  | read rest ih => exact fun state => ih state (hCall state)
  | now rest ih => exact fun reading => ih reading (hCall reading)
  | write update rest | lock rest | unlock rest => cases hCall

theorem Yields.bind_quiet {next : α → Call σ β}
    (hCall : call.Yields P) (hNext : ∀ value, P value → (next value).Quiet Good look) :
    (call >>= next).Quiet Good look := by
  induction call with
  | ret value => exact hNext value hCall
  | read rest ih => exact fun state => ih state (hCall state)
  | now rest ih => exact fun reading => ih reading (hCall reading)
  | write update rest | lock rest | unlock rest => cases hCall

theorem Silent.quiet {call : Call σ α} (hCall : call.Silent) : call.Quiet Good look := by
  induction call with
  | ret value => exact trivial
  | read next ih => exact fun state => ih state (hCall state)
  | now next ih => exact fun reading => ih reading (hCall reading)
  | write update next | lock next | unlock next => cases hCall

theorem Quiet.bind {next : α → Call σ β} (hCall : call.Quiet Good look)
    (hNext : ∀ value, (next value).Quiet Good look) : (call >>= next).Quiet Good look := by
  induction call with
  | ret value => exact hNext value
  | read rest ih => exact fun state => ih state (hCall state)
  | write update rest ih => exact ⟨hCall.1, ih hCall.2⟩
  | now rest ih => exact fun reading => ih reading (hCall reading)
  | lock rest | unlock rest => cases hCall

theorem Quiet.bind_inside {next : α → Call σ β} (hCall : call.Quiet Good look)
    (hNext : ∀ value, (next value).Inside Good look) : (call >>= next).Inside Good look := by
  induction call with
  | ret value => exact hNext value
  | read rest ih => exact fun state => ih state (hCall state)
  | write update rest ih => exact Or.inl ⟨hCall.1, ih hCall.2⟩
  | now rest ih => exact fun reading => ih reading (hCall reading)
  | lock rest | unlock rest => cases hCall

/- Only the returned value is changed. -/
theorem Behind.map {call : Call σ α} (f : α → β) (hCall : call.Behind Good look) :
    (call >>= fun value => pure (f value)).Behind Good look := by
  induction call with
  | ret value | lock rest => cases hCall
  | read rest ih => exact fun state => ih state (hCall state)
  | write update rest ih => exact ⟨hCall.1, ih hCall.2⟩
  | now rest ih => exact fun reading => ih reading (hCall reading)
  | unlock rest =>
    rcases hCall with ⟨value, rfl⟩
    exact ⟨f value, rfl⟩

theorem Inside.map {call : Call σ α} (f : α → β) (hCall : call.Inside Good look) :
    (call >>= fun value => pure (f value)).Inside Good look := by
  induction call with
  | ret value | lock rest => cases hCall
  | read rest ih => exact fun state => ih state (hCall state)
  | write update rest ih =>
    rcases hCall with ⟨hKeeps, hRest⟩ | ⟨hGood, hRest⟩
    · exact Or.inl ⟨hKeeps, ih hRest⟩
    · exact Or.inr ⟨hGood, hRest.map f⟩
  | now rest ih => exact fun reading => ih reading (hCall reading)
  | unlock rest =>
    rcases hCall with ⟨value, rfl⟩
    exact ⟨f value, rfl⟩

theorem Quiet.run_keeps {call : Call σ α} (hCall : call.Quiet Good look) (clock : Clock)
    (hGood : Good state) :
    Good (call.run clock state).state ∧ look (call.run clock state).state = look state := by
  induction call generalizing clock state with
  | ret value => exact ⟨hGood, rfl⟩
  | read rest ih => exact ih state (hCall state) clock hGood
  | write update rest ih =>
    have hKept := hCall.1 state hGood
    have hRest := ih hCall.2 clock hKept.1
    exact ⟨hRest.1, hRest.2.trans hKept.2⟩
  | now rest ih => exact ih (clock 0) (hCall (clock 0)) (clock.drop 1) hGood
  | lock rest | unlock rest => cases hCall

theorem Behind.run_keeps {call : Call σ α} (hCall : call.Behind Good look) (clock : Clock)
    (hGood : Good state) :
    Good (call.run clock state).state ∧ look (call.run clock state).state = look state := by
  induction call generalizing clock state with
  | ret value | lock rest => cases hCall
  | read rest ih => exact ih state (hCall state) clock hGood
  | write update rest ih =>
    have hKept := hCall.1 state hGood
    have hRest := ih hCall.2 clock hKept.1
    exact ⟨hRest.1, hRest.2.trans hKept.2⟩
  | now rest ih => exact ih (clock 0) (hCall (clock 0)) (clock.drop 1) hGood
  | unlock rest =>
    rcases hCall with ⟨value, rfl⟩
    exact ⟨hGood, rfl⟩

theorem Inside.run_good {call : Call σ α} (hCall : call.Inside Good look) (clock : Clock)
    (hGood : Good state) : Good (call.run clock state).state := by
  induction call generalizing clock state with
  | ret value | lock rest => cases hCall
  | read rest ih => exact ih state (hCall state) clock hGood
  | write update rest ih =>
    rcases hCall with ⟨hKeeps, hRest⟩ | ⟨hWrite, hRest⟩
    · exact ih hRest clock (hKeeps state hGood).1
    · exact (hRest.run_keeps clock (hWrite state hGood)).1
  | now rest ih => exact ih (clock 0) (hCall (clock 0)) (clock.drop 1) hGood
  | unlock rest =>
    rcases hCall with ⟨value, rfl⟩
    exact hGood

end Call

/-
  A call under the lock.  Before it takes the lock it may test whether it has anything to do; if it
  has not, then it has no effect under the lock either.
-/
inductive Guarded : Call σ α → Prop where
  | locked {body : Call σ α} (hBody : body.Inside Good look) : Guarded (.lock body)
  | tested (test : τ → Bool) (value : α) {body : Call σ α} (hBody : body.Inside Good look)
      (hSame :
        ∀ clock state, Good state →
          test (look state) = true → (body.run clock state).state = state) :
      Guarded (.read fun state =>
          if test (look state) = true then .ret value
          else .lock body)

variable {Good look}

theorem guarded_acquire (hNext : (next ()).Inside Good look) :
    Guarded Good look (Call.acquire >>= next) :=
  .locked hNext

/- A lookup before the lock. -/
theorem guarded_get (test : τ → Bool) (value : α) (hNext : (next ()).Inside Good look)
    (hSame :
      ∀ clock state, Good state →
        test (look state) = true → ((Call.acquire >>= next).run clock state).state = state) :
    Guarded Good look (Call.get (fun state => test (look state)) >>= fun found =>
        if found = true then pure value
        else Call.acquire >>= next) :=
  .tested test value hNext hSame

theorem Guarded.map (f : α → β) (hCall : Guarded Good look call) :
    Guarded Good look (call >>= fun value => pure (f value)) := by
  cases hCall with
  | locked hBody => exact .locked (hBody.map f)
  | @tested test value body hBody hSame =>
    have hEq : ((Call.read fun state =>
            if test (look state) = true then .ret value
            else .lock body) >>= fun value => pure (f value)) =
          Call.read fun state =>
            if test (look state) = true then .ret (f value)
            else
              .lock (body >>= fun value =>
                pure (f value)) := by
      change Call.read _ = Call.read _
      congr 1
      funext state
      dsimp only
      split <;> rfl
    rw [hEq]
    refine .tested test (f value) (hBody.map f) ?_
    intro clock state hGood hTest
    rw [Call.run_bind]
    exact hSame clock state hGood hTest

theorem Guarded.run_good {call : Call σ α} (hCall : Guarded Good look call) (clock : Clock)
    (hGood : Good state) : Good (call.run clock state).state := by
  cases hCall with
  | locked hBody => exact hBody.run_good clock hGood
  | tested test value hBody hSame =>
    rw [Call.run]
    split
    · exact hGood
    · exact hBody.run_good clock hGood

theorem Guarded.not_ret (hCall : Guarded Good look call) (value : α) : call ≠ .ret value := by
  cases hCall <;> nofun

end

---- Single Steps

section

variable {ι σ τ α : Type}
variable {Good : σ → Prop} {look : σ → τ}
variable {sys sys' : Threads ι σ α} {i k : ι}

/- The rest of a call ends where the call would have ended. -/
theorem ThreadStep.run_eq [DecidableEq ι] (hStep : ThreadStep i sys sys') :
    ((sys'.thread i).call.run (sys'.thread i).clock sys'.state).state =
      ((sys.thread i).call.run (sys.thread i).clock sys.state).state := by
  cases hStep with
  | read hCall | now hCall =>
    rw [hCall, Threads.advance_self]
    rfl
  | write hCall | lock hCall | unlock hCall =>
    rw [hCall]
    rw [Threads.advance_self]
    rfl

theorem ThreadStep.thread_of_ne [DecidableEq ι] (hStep : ThreadStep i sys sys') (hNe : k ≠ i) :
    sys'.thread k = sys.thread k := by
  cases hStep <;> exact Function.update_of_ne hNe ..

theorem ThreadStep.started [DecidableEq ι] (hStep : ThreadStep i sys sys') :
    (sys'.thread i).started = true := by
  cases hStep <;> simp only [Threads.advance_self]

theorem ThreadStep.not_finished [DecidableEq ι] (hStep : ThreadStep i sys sys') :
    ¬ sys.Finished i := by
  rintro ⟨value, hRet⟩
  cases hStep with
  | read hCall | write hCall | now hCall | lock hCall | unlock hCall => cases hRet.symm.trans hCall

theorem run_of_finished (hFinished : sys.Finished i) :
    ((sys.thread i).call.run (sys.thread i).clock sys.state).state = sys.state := by
  rcases hFinished with ⟨value, hRet⟩
  rw [hRet]
  rfl

/- A step of the call without lock. -/
theorem ThreadStep.quiet [DecidableEq ι] (hStep : ThreadStep i sys sys') (hGood : Good sys.state)
    (hQuiet : (sys.thread i).call.Quiet Good look) :
    (sys'.thread i).call.Quiet Good look ∧ Good sys'.state ∧ sys'.holder = sys.holder := by
  cases hStep with
  | read hCall =>
    rw [hCall] at hQuiet
    rw [Threads.advance_self]
    exact ⟨hQuiet sys.state, hGood, rfl⟩
  | write hCall =>
    rw [hCall] at hQuiet
    rw [Threads.advance_self]
    exact ⟨hQuiet.2, (hQuiet.1 sys.state hGood).1, rfl⟩
  | now hCall =>
    rw [hCall] at hQuiet
    rw [Threads.advance_self]
    exact ⟨hQuiet _, hGood, rfl⟩
  | lock hCall | unlock hCall =>
    rw [hCall] at hQuiet
    cases hQuiet

/- A step under the lock, after the visible write. -/
theorem ThreadStep.behind [DecidableEq ι] (hStep : ThreadStep i sys sys') (hGood : Good sys.state)
    (hBehind : (sys.thread i).call.Behind Good look) :
    Good sys'.state ∧
      ((sys'.thread i).call.Behind Good look ∧ sys'.holder = sys.holder ∨
        sys'.Finished i ∧ sys'.holder = none) := by
  cases hStep with
  | read hCall =>
    rw [hCall] at hBehind
    rw [Threads.advance_self]
    exact ⟨hGood, Or.inl ⟨hBehind sys.state, rfl⟩⟩
  | write hCall =>
    rw [hCall] at hBehind
    rw [Threads.advance_self]
    exact ⟨(hBehind.1 sys.state hGood).1, Or.inl ⟨hBehind.2, rfl⟩⟩
  | now hCall =>
    rw [hCall] at hBehind
    rw [Threads.advance_self]
    exact ⟨hGood, Or.inl ⟨hBehind _, rfl⟩⟩
  | lock hCall =>
    rw [hCall] at hBehind
    cases hBehind
  | unlock hCall =>
    rw [hCall] at hBehind
    rcases hBehind with ⟨value, rfl⟩
    refine ⟨hGood, Or.inr ⟨⟨value, ?_⟩, rfl⟩⟩
    rw [Threads.advance_self]

/- A step under the lock, up to the visible write. -/
theorem ThreadStep.inside [DecidableEq ι] (hStep : ThreadStep i sys sys') (hGood : Good sys.state)
    (hInside : (sys.thread i).call.Inside Good look) :
    Good sys'.state ∧
      ((sys'.thread i).call.Inside Good look ∧ look sys'.state = look sys.state ∧
          sys'.holder = sys.holder ∨
        (sys'.thread i).call.Behind Good look ∧ sys'.holder = sys.holder ∨
        sys'.Finished i ∧ sys'.holder = none) := by
  cases hStep with
  | read hCall =>
    rw [hCall] at hInside
    rw [Threads.advance_self]
    exact ⟨hGood, Or.inl ⟨hInside sys.state, rfl, rfl⟩⟩
  | write hCall =>
    rw [hCall] at hInside
    rw [Threads.advance_self]
    rcases hInside with ⟨hKeeps, hNext⟩ | ⟨hWrite, hNext⟩
    · have hKept := hKeeps sys.state hGood
      exact ⟨hKept.1, Or.inl ⟨hNext, hKept.2, rfl⟩⟩
    · exact ⟨hWrite sys.state hGood, Or.inr (Or.inl ⟨hNext, rfl⟩)⟩
  | now hCall =>
    rw [hCall] at hInside
    rw [Threads.advance_self]
    exact ⟨hGood, Or.inl ⟨hInside _, rfl, rfl⟩⟩
  | lock hCall =>
    rw [hCall] at hInside
    cases hInside
  | unlock hCall =>
    rw [hCall] at hInside
    rcases hInside with ⟨value, rfl⟩
    refine ⟨hGood, Or.inr (Or.inr ⟨⟨value, ?_⟩, rfl⟩)⟩
    rw [Threads.advance_self]

end

---- Before The Lock

section

variable {ι σ τ α : Type}
variable (Good : σ → Prop) (look : σ → τ)
variable (calls : ι → Call σ α) (clocks : ι → Clock) (u : ι)

/-
  The call has found something to do.  What it does under the lock is what the whole call would do
  there.
-/
def Locking (sys : Threads ι σ α) (i : ι) : Prop :=
  ∃ body, (sys.thread i).call = .lock body ∧ body.Inside Good look ∧
    ∀ state, Good state →
      (body.run (sys.thread i).clock state).state = ((calls i).run (clocks i) state).state

/- The call has no effect so far. -/
def Waiting (sys : Threads ι σ α) (i : ι) : Prop :=
  sys.thread i = ⟨clocks i, calls i, false⟩ ∨ i ≠ u ∧ Locking Good look calls clocks sys i

/- The call would not have any effect now. -/
def Needless (i : ι) (state : σ) : Prop :=
  ∀ other, Good other → look other = look state → ((calls i).run (clocks i) other).state = other

variable {Good look calls clocks u}
variable {sys sys' : Threads ι σ α} {i : ι}

/- The lock is taken. -/
theorem Locking.step [DecidableEq ι] (hLocking : Locking Good look calls clocks sys i)
    (hGood : Good sys.state) (hStep : ThreadStep i sys sys') :
    sys.holder = none ∧ (∃ body, (sys.thread i).call = .lock body) ∧
      sys'.holder = some i ∧ sys'.state = sys.state ∧ (sys'.thread i).call.Inside Good look ∧
      ((sys'.thread i).call.run (sys'.thread i).clock sys'.state).state =
        ((calls i).run (clocks i) sys.state).state := by
  rcases hLocking with ⟨body, hLock, hInside, hRun⟩
  have hEq := hStep.run_eq
  rw [hLock] at hEq
  have hEnd := hEq.trans (hRun sys.state hGood)
  cases hStep with
  | read hCall | write hCall | now hCall | unlock hCall => cases hLock.symm.trans hCall
  | lock hCall hFree =>
    cases hLock.symm.trans hCall
    refine ⟨hFree, ⟨body, hLock⟩, rfl, rfl, ?_, hEnd⟩
    rw [Threads.advance_self]
    exact hInside

/- The test before the lock, or a call without one. -/
theorem Waiting.locking_or_test [DecidableEq ι] (hGuarded : Guarded Good look (calls i))
    (hWaiting : Waiting Good look calls clocks u sys i) (hStep : ThreadStep i sys sys') :
    Locking Good look calls clocks sys i ∨
      sys'.state = sys.state ∧ sys'.holder = sys.holder ∧
        (Locking Good look calls clocks sys' i ∨
          sys'.Finished i ∧ Needless Good look calls clocks i sys.state) := by
  rcases hWaiting with hFresh | ⟨-, hLocking⟩
  · generalize hCalls : calls i = call at hGuarded
    cases hGuarded with
    | @locked body hBody =>
      refine Or.inl ⟨body, ?_, hBody, fun state _ => ?_⟩
      · rw [hFresh]
        exact hCalls
      · rw [hFresh, hCalls]
        rfl
    | @tested test value body hBody hSame =>
      have hRead := congrArg Thread.call hFresh
      rw [hCalls] at hRead
      cases hStep with
      | write hCall | now hCall | lock hCall | unlock hCall => cases hRead.symm.trans hCall
      | read hCall =>
        cases hRead.symm.trans hCall
        refine Or.inr ⟨rfl, rfl, ?_⟩
        by_cases hTest : test (look sys.state) = true
        · refine Or.inr ⟨⟨value, ?_⟩, ?_⟩
          · rw [Threads.advance_self]
            exact if_pos hTest
          · intro other hOther hLook
            rw [hCalls, Call.run, if_pos (hLook ▸ hTest)]
            rfl
        · refine Or.inl ⟨body, ?_, hBody, ?_⟩
          · rw [Threads.advance_self]
            exact if_neg hTest
          · intro other hOther
            rw [Threads.advance_self, hFresh, hCalls, Call.run]
            split
            · next hNow =>
                exact hSame (clocks i) other hOther hNow
            · rfl
  · exact Or.inl hLocking

end

---- Serial Order

section

variable {ι σ τ α : Type}
variable (Good : σ → Prop) (look : σ → τ)
variable (calls : ι → Call σ α) (clocks : ι → Clock) (u : ι)

/-
  The call without lock steps only while the lock is free, and the lock is taken only while that
  call is not under way.
-/
def Exclusive (i : ι) (sys : Threads ι σ α) : Prop :=
  (i = u → sys.holder = none) ∧ (i ≠ u → ∀ body, (sys.thread i).call = .lock body → ¬ sys.Busy u)

/- The rest of a call that has got its place in the order, after the state `before`. -/
structure Placed (sys : Threads ι σ α) (i : ι) (before : σ) : Prop where
  run :
    ((sys.thread i).call.run (sys.thread i).clock sys.state).state =
      ((calls i).run (clocks i) before).state
  shape :
    i = u ∧ sys.holder = none ∧ (sys.thread i).call.Quiet Good look ∨
      i ≠ u ∧ sys.holder = some i ∧
        ((sys.thread i).call.Inside Good look ∧ look sys.state = look before ∨
          (sys.thread i).call.Behind Good look)

/- Such a call that has not ended. -/
structure Active (sys : Threads ι σ α) (i : ι) (before : σ) : Prop
    extends Placed Good look calls clocks u sys i before where
  started : (sys.thread i).started = true
  unfinished : ¬ sys.Finished i

/-
  The calls in `done` have their effect, one after the other. While a call is active, those in
  `late` have looked at what it leaves and found nothing to do.
-/
inductive Traced (start : σ) (sys : Threads ι σ α) : Prop where
  | idle {done : List ι} (hNodup : done.Nodup)
      (hWaiting : ∀ i, i ∉ done → Waiting Good look calls clocks u sys i)
      (hFinished : ∀ i ∈ done, sys.Finished i) (hHolder : sys.holder = none)
      (hState : sys.state = serial calls clocks done start)
  | busy {done late : List ι} {active : ι} (hNodup : (done ++ active :: late).Nodup)
      (hWaiting : ∀ i, i ∉ done ++ active :: late → Waiting Good look calls clocks u sys i)
      (hFinished : ∀ i ∈ done ++ late, sys.Finished i)
      (hActive : Active Good look calls clocks u sys active (serial calls clocks done start))
      (hLate :
        ∀ i ∈ late,
          ((calls i).run (clocks i)
              ((calls active).run (clocks active) (serial calls clocks done start)).state).state =
            ((calls active).run (clocks active) (serial calls clocks done start)).state)

variable {Good look calls clocks u}
variable {sys sys' : Threads ι σ α} {i k active : ι}
variable {start before : σ} {done late : List ι}

theorem Waiting.of_thread_eq (hSame : sys'.thread k = sys.thread k)
    (hWaiting : Waiting Good look calls clocks u sys k) :
    Waiting Good look calls clocks u sys' k := by
  unfold Waiting Locking at *
  rw [hSame]
  exact hWaiting

theorem Threads.Finished.of_thread_eq (hSame : sys'.thread k = sys.thread k)
    (hFinished : sys.Finished k) : sys'.Finished k := by
  unfold Threads.Finished at *
  rw [hSame]
  exact hFinished

/- What a step of another call leaves of an active call. -/
theorem Active.of_other (hActive : Active Good look calls clocks u sys active before)
    (hSame : sys'.thread active = sys.thread active) (hState : sys'.state = sys.state)
    (hHolder : sys'.holder = sys.holder) : Active Good look calls clocks u sys' active before := by
  refine ⟨⟨?_, ?_⟩, ?_, ?_⟩
  · rw [hSame, hState]
    exact hActive.run
  · rw [hSame, hState, hHolder]
    exact hActive.shape
  · rw [hSame]
    exact hActive.started
  · intro hFinished
    exact hActive.unfinished (hFinished.of_thread_eq hSame.symm)

theorem not_finished_of_inside (hInside : (sys.thread k).call.Inside Good look) :
    ¬ sys.Finished k := by
  rintro ⟨value, hRet⟩
  rw [hRet] at hInside
  exact hInside

theorem not_finished_of_behind (hBehind : (sys.thread k).call.Behind Good look) :
    ¬ sys.Finished k := by
  rintro ⟨value, hRet⟩
  rw [hRet] at hBehind
  exact hBehind

/- A step of the active call: it goes on, or it ends. -/
theorem Placed.step [DecidableEq ι] (hActive : Placed Good look calls clocks u sys active before)
    (hGood : Good sys.state) (hStep : ThreadStep active sys sys') :
    Good sys'.state ∧
      (Active Good look calls clocks u sys' active before ∨
        sys'.Finished active ∧ sys'.holder = none ∧
          sys'.state = ((calls active).run (clocks active) before).state) := by
  have hRun := hStep.run_eq.trans hActive.run
  have hEnd :
      sys'.Finished active → sys'.state = ((calls active).run (clocks active) before).state :=
    fun hFinished => (run_of_finished hFinished).symm.trans hRun
  have hGoesOn (hNe : active ≠ u) (hHolder : sys'.holder = some active)
      (hBehind : (sys'.thread active).call.Behind Good look) :
      Active Good look calls clocks u sys' active before :=
    ⟨⟨hRun, Or.inr ⟨hNe, hHolder, Or.inr hBehind⟩⟩, hStep.started, not_finished_of_behind hBehind⟩
  rcases hActive.shape with ⟨hU, hHolder, hQuiet⟩ | ⟨hNe, hHolder, ⟨hInside, hLook⟩ | hBehind⟩
  · rcases hStep.quiet hGood hQuiet with ⟨hQuiet', hGood', hHolder'⟩
    have hFree := hHolder'.trans hHolder
    refine ⟨hGood', ?_⟩
    by_cases hFinished : sys'.Finished active
    · exact Or.inr ⟨hFinished, hFree, hEnd hFinished⟩
    · exact Or.inl ⟨⟨hRun, Or.inl ⟨hU, hFree, hQuiet'⟩⟩, hStep.started, hFinished⟩
  · rcases hStep.inside hGood hInside with
      ⟨hGood', ⟨hInside', hLook', hHolder'⟩ | ⟨hBehind', hHolder'⟩ | ⟨hFinished, hFree⟩⟩
    · exact ⟨hGood', Or.inl ⟨⟨hRun,
        Or.inr ⟨hNe, hHolder'.trans hHolder, Or.inl ⟨hInside', hLook'.trans hLook⟩⟩⟩,
        hStep.started, not_finished_of_inside hInside'⟩⟩
    · exact ⟨hGood', Or.inl (hGoesOn hNe (hHolder'.trans hHolder) hBehind')⟩
    · exact ⟨hGood', Or.inr ⟨hFinished, hFree, hEnd hFinished⟩⟩
  · rcases hStep.behind hGood hBehind with ⟨hGood', ⟨hBehind', hHolder'⟩ | ⟨hFinished, hFree⟩⟩
    · exact ⟨hGood', Or.inl (hGoesOn hNe (hHolder'.trans hHolder) hBehind')⟩
    · exact ⟨hGood', Or.inr ⟨hFinished, hFree, hEnd hFinished⟩⟩

/-
  A call that needs nothing has looked at the state before the active call, or at the state after
  it.
-/
theorem Placed.needless (hActive : Placed Good look calls clocks u sys active before)
    (hGood : Good sys.state) (hBefore : Good before)
    (hNeedless : Needless Good look calls clocks i sys.state) :
    ((calls i).run (clocks i) before).state = before ∨
      ((calls i).run (clocks i) ((calls active).run (clocks active) before).state).state =
        ((calls active).run (clocks active) before).state := by
  have hAfter
      (hKept :
        Good ((sys.thread active).call.run (sys.thread active).clock sys.state).state ∧
          look ((sys.thread active).call.run (sys.thread active).clock sys.state).state =
            look sys.state) :
      ((calls i).run (clocks i) ((calls active).run (clocks active) before).state).state =
        ((calls active).run (clocks active) before).state := by
    rw [hActive.run] at hKept
    exact hNeedless _ hKept.1 hKept.2
  rcases hActive.shape with ⟨-, -, hQuiet⟩ | ⟨-, -, ⟨-, hLook⟩ | hBehind⟩
  · exact Or.inr (hAfter (hQuiet.run_keeps _ hGood))
  · exact Or.inl (hNeedless before hBefore hLook.symm)
  · exact Or.inr (hAfter (hBehind.run_keeps _ hGood))

theorem serial_good (hQuiet : (calls u).Quiet Good look)
    (hGuarded : ∀ i, i ≠ u → Guarded Good look (calls i)) (hStart : Good start) (order : List ι) :
    Good (serial calls clocks order start) := by
  induction order generalizing start with
  | nil => exact hStart
  | cons i order ih =>
    apply ih
    by_cases hU : i = u
    · rw [hU]
      exact (hQuiet.run_keeps _ hStart).1
    · exact (hGuarded i hU).run_good _ hStart

theorem finished_snoc (hFinished : ∀ k ∈ done, sys.Finished k) (hEnd : sys.Finished i) :
    ∀ k ∈ done ++ [i], sys.Finished k := by
  intro k hK
  rcases List.mem_append.mp hK with hK | hK
  · exact hFinished k hK
  · rw [List.mem_singleton.mp hK]
    exact hEnd

theorem nodup_snoc (hNodup : done.Nodup) (hNew : i ∉ done) : (done ++ [i]).Nodup :=
  (List.perm_append_singleton i done).nodup_iff.mpr (List.nodup_cons.mpr ⟨hNew, hNodup⟩)

theorem ThreadStep.finished [DecidableEq ι] (hStep : ThreadStep i sys sys')
    (hFinished : sys.Finished k) :
    sys'.Finished k := by
  apply hFinished.of_thread_eq
  apply hStep.thread_of_ne
  rintro rfl
  exact hStep.not_finished hFinished

/- The calls that wait are not changed by another's step. -/
theorem ThreadStep.waiting [DecidableEq ι] (hStep : ThreadStep i sys sys')
    (hWaiting : ∀ k, k ∉ done → Waiting Good look calls clocks u sys k) :
    ∀ k, k ∉ done ++ [i] → Waiting Good look calls clocks u sys' k := by
  intro k hK
  rw [List.mem_append, not_or, List.mem_singleton] at hK
  exact (hWaiting k hK.1).of_thread_eq (hStep.thread_of_ne hK.2)

section Busy

variable (hNodup : (done ++ active :: late).Nodup)
variable (hWaiting : ∀ k, k ∉ done ++ active :: late → Waiting Good look calls clocks u sys k)
variable (hLate : ∀ k ∈ late,
  ((calls k).run (clocks k)
      ((calls active).run (clocks active) (serial calls clocks done start)).state).state =
    ((calls active).run (clocks active) (serial calls clocks done start)).state)
include hNodup hWaiting hLate

/- The active call ends. -/
theorem traced_of_end (hFinished : ∀ i ∈ done ++ active :: late, sys.Finished i)
    (hHolder : sys.holder = none)
    (hState :
      sys.state = ((calls active).run (clocks active) (serial calls clocks done start)).state) :
    Traced Good look calls clocks u start sys := by
  apply Traced.idle hNodup hWaiting hFinished hHolder
  rw [serial_append, serial, serial_of_idle calls clocks hLate]
  exact hState

/- A step of another call while one is active. -/
theorem Traced.step_other [DecidableEq ι] (hGuarded : ∀ i, i ≠ u → Guarded Good look (calls i))
    (hBefore : Good (serial calls clocks done start))
    (hFinished : ∀ k ∈ done ++ late, sys.Finished k)
    (hActive : Active Good look calls clocks u sys active (serial calls clocks done start))
    (hGood : Good sys.state) (hExclusive : Exclusive u i sys) (hNe : i ≠ active)
    (hStep : ThreadStep i sys sys') :
    Traced Good look calls clocks u start sys' ∧ Good sys'.state := by
  have hNew : i ∉ done ++ active :: late := by
    intro hMem
    apply hStep.not_finished
    apply hFinished
    rcases List.mem_append.mp hMem with hDone | hRest
    · exact List.mem_append_left late hDone
    · rcases List.mem_cons.mp hRest with hEq | hLater
      · exact absurd hEq hNe
      · exact List.mem_append_right done hLater
  have hU : i ≠ u := by
    intro hEq
    have hFree := hExclusive.1 hEq
    rcases hActive.shape with ⟨hActiveU, -⟩ | ⟨-, hHeld, -⟩
    · exact hNe (hEq.trans hActiveU.symm)
    · cases hFree.symm.trans hHeld
  have hSameThread := hStep.thread_of_ne hNe.symm
  have hFinished' : ∀ k ∈ done ++ late, sys'.Finished k :=
    fun k hK => hStep.finished (hFinished k hK)
  have hOthers :
      ∀ k, k ≠ i → k ∉ done ++ active :: late → Waiting Good look calls clocks u sys' k :=
    fun k hK hOut => (hWaiting k hOut).of_thread_eq (hStep.thread_of_ne hK)
  rcases (hWaiting i hNew).locking_or_test (hGuarded i hU) hStep with
    hLocking | ⟨hSame, hLock, hLocking | ⟨hEnd, hNeedless⟩⟩
  · -- the lock is taken, or may not be taken
    rcases hLocking.step hGood hStep with ⟨hFree, ⟨body, hCall⟩, -⟩
    rcases hActive.shape with ⟨hActiveU, -⟩ | ⟨-, hHeld, -⟩
    · exact absurd ⟨hActiveU ▸ hActive.started, hActiveU ▸ hActive.unfinished⟩
        (hExclusive.2 hU body hCall)
    · cases hFree.symm.trans hHeld
  · have hActive' := hActive.of_other hSameThread hSame hLock
    refine ⟨.busy hNodup ?_ hFinished' hActive' hLate, ?_⟩
    · intro k hK
      by_cases hEq : k = i
      · rw [hEq]
        exact Or.inr ⟨hU, hLocking⟩
      · exact hOthers k hEq hK
    · rw [hSame]
      exact hGood
  · have hActive' := hActive.of_other hSameThread hSame hLock
    have hGood' : Good sys'.state := by
      rw [hSame]
      exact hGood
    refine ⟨?_, hGood'⟩
    -- the call gets its place among those that have ended
    have hInto {order : List ι} (hPerm : order.Perm (i :: (done ++ active :: late))) :
        order.Nodup ∧ ∀ k, k ∉ order → Waiting Good look calls clocks u sys' k := by
      refine ⟨hPerm.nodup_iff.mpr (List.nodup_cons.mpr ⟨hNew, hNodup⟩), fun k hK => ?_⟩
      rw [hPerm.mem_iff, List.mem_cons, not_or] at hK
      exact hOthers k hK.1 hK.2
    rcases hActive.toPlaced.needless hGood hBefore hNeedless with hIdle | hIdle
    · -- the call has looked before the visible write
      have hSerial : serial calls clocks (done ++ [i]) start = serial calls clocks done start := by
        rw [serial_append]
        exact hIdle
      have hPerm : (done ++ [i] ++ active :: late).Perm (i :: (done ++ active :: late)) := by
        rw [List.append_assoc]
        exact List.perm_middle
      apply Traced.busy (hInto hPerm).1 (hInto hPerm).2
      · intro k hK
        rw [List.append_assoc, List.singleton_append, List.perm_middle.mem_iff, List.mem_cons] at hK
        rcases hK with hEq | hK
        · rw [hEq]
          exact hEnd
        · exact hFinished' k hK
      · rw [hSerial]
        exact hActive'
      · rw [hSerial]
        exact hLate
    · have hPerm : (done ++ active :: (late ++ [i])).Perm (i :: (done ++ active :: late)) := by
        rw [← List.cons_append, ← List.append_assoc]
        exact List.perm_append_singleton i _
      apply Traced.busy (hInto hPerm).1 (hInto hPerm).2
      · rw [← List.append_assoc]
        exact finished_snoc hFinished' hEnd
      · exact hActive'
      · intro k hK
        rcases List.mem_append.mp hK with hK | hK
        · exact hLate k hK
        · rw [List.mem_singleton.mp hK]
          exact hIdle

end Busy

section Idle

variable [DecidableEq ι] (hQuiet : (calls u).Quiet Good look) (hNodup : done.Nodup)
variable (hWaiting : ∀ k, k ∉ done → Waiting Good look calls clocks u sys k)
variable (hFinished : ∀ k ∈ done, sys.Finished k) (hHolder : sys.holder = none)
variable (hState : sys.state = serial calls clocks done start) (hGood : Good sys.state)
variable (hStep : ThreadStep i sys sys')
include hQuiet hNodup hWaiting hFinished hHolder hState hGood hStep

/- The call without lock begins. -/
theorem traced_of_begin (hNew : i ∉ done) (hU : i = u) :
    Traced Good look calls clocks u start sys' ∧ Good sys'.state := by
  subst hU
  have hFresh : sys.thread i = ⟨clocks i, calls i, false⟩ := by
    rcases hWaiting i hNew with hFresh | ⟨hNe, -⟩
    · exact hFresh
    · exact absurd rfl hNe
  have hPlaced : Placed Good look calls clocks i sys i (serial calls clocks done start) := by
    refine ⟨?_, Or.inl ⟨rfl, hHolder, ?_⟩⟩
    · rw [hFresh, hState]
    · rw [hFresh]
      exact hQuiet
  have hNodup' := nodup_snoc hNodup hNew
  have hWaiting' := hStep.waiting hWaiting
  have hFinished' : ∀ k ∈ done, sys'.Finished k := fun k hK => hStep.finished (hFinished k hK)
  rcases hPlaced.step hGood hStep with ⟨hGood', hActive | ⟨hEnd, hFree, hEndState⟩⟩
  · refine ⟨.busy hNodup' hWaiting' ?_ hActive nofun, hGood'⟩
    rw [List.append_nil]
    exact hFinished'
  · exact ⟨traced_of_end hNodup' hWaiting' nofun (finished_snoc hFinished' hEnd) hFree hEndState,
      hGood'⟩

/- A step when no call is active. -/
theorem Traced.step_idle (hGuarded : ∀ i, i ≠ u → Guarded Good look (calls i)) :
    Traced Good look calls clocks u start sys' ∧ Good sys'.state := by
  have hNew : i ∉ done := fun hDone => hStep.not_finished (hFinished i hDone)
  by_cases hU : i = u
  · exact traced_of_begin hQuiet hNodup hWaiting hFinished hHolder hState hGood hStep hNew hU
  have hFinished' : ∀ k ∈ done, sys'.Finished k := fun k hK => hStep.finished (hFinished k hK)
  have hNodup' := nodup_snoc hNodup hNew
  have hWaiting' := hStep.waiting hWaiting
  rcases (hWaiting i hNew).locking_or_test (hGuarded i hU) hStep with
    hLocking | ⟨hSame, hLock, hLocking | ⟨hEnd, hNeedless⟩⟩
  · -- the call takes the lock, and its place in the order
    rcases hLocking.step hGood hStep with ⟨-, -, hHeld, hSame, hInside, hRun⟩
    refine ⟨.busy hNodup' hWaiting' ?_
      ⟨⟨?_, Or.inr ⟨hU, hHeld, Or.inl ⟨hInside, ?_⟩⟩⟩,
        hStep.started, not_finished_of_inside hInside⟩ nofun, ?_⟩
    · rw [List.append_nil]
      exact hFinished'
    · rw [hRun, hState]
    · rw [hSame, hState]
    · rw [hSame]
      exact hGood
  · refine ⟨.idle hNodup ?_ hFinished' (hLock.trans hHolder) (hSame.trans hState), ?_⟩
    · intro k hK
      by_cases hNe : k = i
      · rw [hNe]
        exact Or.inr ⟨hU, hLocking⟩
      · exact (hWaiting k hK).of_thread_eq (hStep.thread_of_ne hNe)
    · rw [hSame]
      exact hGood
  · refine ⟨traced_of_end hNodup' hWaiting' nofun (finished_snoc hFinished' hEnd)
      (hLock.trans hHolder) ?_, ?_⟩
    · rw [hSame, ← hState]
      exact (hNeedless sys.state hGood rfl).symm
    · rw [hSame]
      exact hGood

end Idle

section

variable [DecidableEq ι]

/- Every step of an exclusive schedule. -/
theorem Traced.step (hQuiet : (calls u).Quiet Good look)
    (hGuarded : ∀ i, i ≠ u → Guarded Good look (calls i)) (hStart : Good start)
    (hTraced : Traced Good look calls clocks u start sys) (hGood : Good sys.state)
    (hExclusive : Exclusive u i sys) (hStep : ThreadStep i sys sys') :
    Traced Good look calls clocks u start sys' ∧ Good sys'.state := by
  cases hTraced with
  | idle hNodup hWaiting hFinished hHolder hState =>
    exact Traced.step_idle hQuiet hNodup hWaiting hFinished hHolder hState hGood hStep hGuarded
  | @busy done late active hNodup hWaiting hFinished hActive hLate =>
    by_cases hNe : i = active
    · subst hNe
      have hFinished' : ∀ k ∈ done ++ late, sys'.Finished k :=
        fun k hK => hStep.finished (hFinished k hK)
      have hWaiting' : ∀ k, k ∉ done ++ i :: late → Waiting Good look calls clocks u sys' k := by
        intro k hK
        apply (hWaiting k hK).of_thread_eq
        apply hStep.thread_of_ne
        rintro rfl
        exact hK (List.mem_append_right done List.mem_cons_self)
      rcases hActive.toPlaced.step hGood hStep with ⟨hGood', hActive' | ⟨hEnd, hFree, hState⟩⟩
      · exact ⟨.busy hNodup hWaiting' hFinished' hActive' hLate, hGood'⟩
      · refine ⟨traced_of_end hNodup hWaiting' hLate ?_ hFree hState, hGood'⟩
        intro k hK
        rw [List.perm_middle.mem_iff, List.mem_cons] at hK
        rcases hK with rfl | hK
        · exact hEnd
        · exact hFinished' k hK
    · exact Traced.step_other hNodup hWaiting hLate hGuarded
        (serial_good hQuiet hGuarded hStart done) hFinished hActive hGood hExclusive hNe hStep

/-
  If the call without lock excludes the others, the calls have the effect of a sequential order of
  all of them.
-/
theorem exists_serial (hQuiet : (calls u).Quiet Good look) (hBegin : ∀ value, calls u ≠ .ret value)
    (hGuarded : ∀ i, i ≠ u → Guarded Good look (calls i)) (hStart : Good start)
    (hReach : Reach ThreadStep (Exclusive u) (Threads.start calls clocks start) sys)
    (hEnd : ∀ i, sys.Finished i) :
    ∃ order : List ι,
      order.Nodup ∧ (∀ i, i ∈ order) ∧ sys.state = serial calls clocks order start := by
  have hTraced : Traced Good look calls clocks u start sys ∧ Good sys.state := by
    refine hReach.invariant
      (fun sys => Traced Good look calls clocks u start sys ∧ Good sys.state) ⟨?_, hStart⟩ ?_
    · exact .idle List.nodup_nil (fun _ _ => Or.inl rfl) nofun rfl rfl
    · rintro i before after ⟨hTraced, hGood⟩ hExclusive hStep
      exact hTraced.step hQuiet hGuarded hStart hGood hExclusive hStep
  cases hTraced.1 with
  | busy _ _ _ hActive _ => exact absurd (hEnd _) hActive.unfinished
  | @idle done hNodup hWaiting hFinished hHolder hState =>
    refine ⟨done, hNodup, fun i => ?_, hState⟩
    by_contra hOut
    rcases hWaiting i hOut with hFresh | ⟨-, body, hLock, -⟩
    · rcases hEnd i with ⟨value, hRet⟩
      rw [hFresh] at hRet
      by_cases hU : i = u
      · subst hU
        exact hBegin value hRet
      · exact (hGuarded i hU).not_ret value hRet
    · rcases hEnd i with ⟨value, hRet⟩
      cases hRet.symm.trans hLock

end

end

---- Schedules

variable {ι σ α : Type}
variable [DecidableEq ι]

def Call.isRet : Call σ α → Bool
| .ret _ => true
| _ => false

namespace Threads

/- The next step of a call, if it is not blocked. -/
def next (sys : Threads ι σ α) (i : ι) : Threads ι σ α :=
  let clock := (sys.thread i).clock
  match (sys.thread i).call with
  | .ret _ => sys
  | .read rest => sys.advance i clock (rest sys.state)
  | .write update rest => { sys.advance i clock rest with state := update sys.state }
  | .now rest => sys.advance i (clock.drop 1) (rest (clock 0))
  | .lock rest =>
    if sys.holder.isNone then { sys.advance i clock rest with holder := some i }
    else sys
  | .unlock rest => { sys.advance i clock rest with holder := none }

/- The steps of a schedule that pass the check. -/
def follow (check : ι → Threads ι σ α → Bool) (sys : Threads ι σ α) : List ι → Threads ι σ α
| [] => sys
| i :: schedule => follow check (if check i sys then sys.next i else sys) schedule

omit [DecidableEq ι] in
theorem finished_of_isRet {sys : Threads ι σ α} {i : ι} (hRet : (sys.thread i).call.isRet = true) :
    sys.Finished i := by
  unfold Finished
  cases hCall : (sys.thread i).call with
  | ret value => exact ⟨value, rfl⟩
  | read rest | write update rest | now rest | lock rest | unlock rest =>
    rw [hCall] at hRet; cases hRet

/- A step, or nothing. -/
theorem next_cases (sys : Threads ι σ α) (i : ι) :
    sys.next i = sys ∨ ThreadStep i sys (sys.next i) := by
  unfold next
  cases hCall : (sys.thread i).call with
  | ret value => exact Or.inl rfl
  | read rest => exact Or.inr (.read hCall)
  | write update rest => exact Or.inr (.write hCall)
  | now rest => exact Or.inr (.now hCall)
  | lock rest =>
    dsimp only
    split
    · next hFree =>
        exact Or.inr (.lock hCall (Option.isNone_iff_eq_none.mp hFree))
    · exact Or.inl rfl
  | unlock rest => exact Or.inr (.unlock hCall)

/- The steps of a schedule are a run. -/
theorem reach_follow (hCheck : ∀ i sys, check i sys = true → allowed i sys)
    {start sys : Threads ι σ α}
    (hReach : Reach ThreadStep allowed start sys) (schedule : List ι) :
    Reach ThreadStep allowed start (sys.follow check schedule) := by
  induction schedule generalizing sys with
  | nil => exact hReach
  | cons i schedule ih =>
    apply ih
    split
    · next hPass =>
        rcases sys.next_cases i with hSame | hStep
        · rw [hSame]
          exact hReach
        · exact .step i hReach (hCheck i sys hPass) hStep
    · exact hReach

end Threads

/- The check of an exclusive schedule. -/
def exclusiveCheck (u i : ι) (sys : Threads ι σ α) : Bool :=
  if i = u then sys.holder.isNone
  else !(sys.thread u).started || (sys.thread u).call.isRet

theorem exclusive_of_check {sys : Threads ι σ α}
    (hCheck : exclusiveCheck u i sys = true) : Exclusive u i sys := by
  unfold exclusiveCheck at hCheck
  refine ⟨fun hU => ?_, fun hNe body _ hBusy => ?_⟩
  · rw [if_pos hU] at hCheck
    exact Option.isNone_iff_eq_none.mp hCheck
  · rw [if_neg hNe, hBusy.1] at hCheck
    exact hBusy.2 (Threads.finished_of_isRet hCheck)

end Program

---- Interleavings With Outside Steps

namespace Program

section

variable {ι σ α : Type}

/- A step of a call, or a change that comes from outside. -/
inductive SharedLabel (ι σ : Type) where
  | thread (i : ι)
  | outside (update : σ → σ)

inductive SharedStep [DecidableEq ι] : SharedLabel ι σ → Threads ι σ α → Threads ι σ α → Prop where
  | thread {i : ι} {sys sys' : Threads ι σ α} (hStep : ThreadStep i sys sys') :
      SharedStep (.thread i) sys sys'
  | outside (update : σ → σ) (sys : Threads ι σ α) :
      SharedStep (.outside update) sys { sys with state := update sys.state }

namespace Threads

variable [DecidableEq ι]

/- Some steps of one call; where it is blocked it waits. -/
def nexts (sys : Threads ι σ α) (i : ι) : Nat → Threads ι σ α
| 0 => sys
| n + 1 => (sys.next i).nexts i n

theorem reach_nexts {start sys : Threads ι σ α}
    (hAllowed : ∀ sys, allowed (.thread i) sys)
    (hReach : Reach SharedStep allowed start sys) (n : Nat) :
    Reach SharedStep allowed start (sys.nexts i n) := by
  induction n generalizing sys with
  | zero => exact hReach
  | succ n ih =>
    apply ih
    rcases sys.next_cases i with hSame | hStep
    · rw [hSame]
      exact hReach
    · exact hReach.step (.thread i) (hAllowed sys) (.thread hStep)

end Threads

end

---- Outlines

/- The phases of calls with an invariant.  A call that has not begun or that has ended is idle. -/
structure Outline (ι σ φ : Type) where
  idle : φ
  Inv : (ι → φ) → Option ι → σ → Prop

namespace Outline

section

variable {ι σ φ α β : Type} [DecidableEq ι]
variable (outline : Outline ι σ φ)

/-
  From a phase, every step of a call keeps the invariant, and the phase at the end is one of `Post`.
-/
def Safe (i : ι) (Post : φ → α → Prop) : Call σ α → φ → Prop
| .ret value, phase => Post phase value
| .read next, phase =>
  ∀ phases holder state, outline.Inv phases holder state → phases i = phase →
    ∃ phase',
      outline.Inv (Function.update phases i phase') holder state ∧ Safe i Post (next state) phase'
| .write update next, phase =>
  ∀ phases holder state, outline.Inv phases holder state → phases i = phase →
    ∃ phase',
      outline.Inv (Function.update phases i phase') holder (update state) ∧ Safe i Post next phase'
| .now next, phase => ∀ reading, Safe i Post (next reading) phase
| .lock next, phase =>
  ∀ phases state, outline.Inv phases none state → phases i = phase →
    ∃ phase', outline.Inv (Function.update phases i phase') (some i) state ∧ Safe i Post next phase'
| .unlock next, phase =>
  ∀ phases holder state, outline.Inv phases holder state → phases i = phase →
    ∃ phase', outline.Inv (Function.update phases i phase') none state ∧ Safe i Post next phase'

variable {outline} {i : ι}

/- The rule for a sequence of two calls. -/
theorem Safe.bind (hCall : outline.Safe i Mid call phase)
    (hNext : ∀ phase value, Mid phase value → outline.Safe i Post (next value) phase) :
    outline.Safe i Post (call >>= next) phase := by
  induction call generalizing phase with
  | ret value => exact hNext phase value hCall
  | read rest ih =>
    intro phases holder state hInv hPhase
    obtain ⟨phase', hInv', hRest⟩ := hCall phases holder state hInv hPhase
    exact ⟨phase', hInv', ih state hRest⟩
  | write update rest ih | unlock rest ih =>
    intro phases holder state hInv hPhase
    obtain ⟨phase', hInv', hRest⟩ := hCall phases holder state hInv hPhase
    exact ⟨phase', hInv', ih hRest⟩
  | now rest ih =>
    intro reading
    exact ih reading (hCall reading)
  | lock rest ih =>
    intro phases state hInv hPhase
    obtain ⟨phase', hInv', hRest⟩ := hCall phases state hInv hPhase
    exact ⟨phase', hInv', ih hRest⟩

section

variable {Post : φ → β → Prop} {phase : φ}

/- The rule for a read in front of a call. -/
theorem Safe.get_bind (hStep :
      ∀ phases holder state, outline.Inv phases holder state → phases i = phase →
        ∃ phase',
          outline.Inv (Function.update phases i phase') holder state ∧
            outline.Safe i Post (next (observe state)) phase') :
    outline.Safe i Post (Call.get observe >>= next) phase :=
  hStep

theorem Safe.set_bind (hStep :
      ∀ phases holder state, outline.Inv phases holder state → phases i = phase →
        ∃ phase',
          outline.Inv (Function.update phases i phase') holder (update state) ∧
            outline.Safe i Post (next ()) phase') :
    outline.Safe i Post (Call.set update >>= next) phase :=
  hStep

theorem Safe.acquire_bind (hStep :
      ∀ phases state, outline.Inv phases none state → phases i = phase →
        ∃ phase',
          outline.Inv (Function.update phases i phase') (some i) state ∧
            outline.Safe i Post (next ()) phase') :
    outline.Safe i Post (Call.acquire >>= next) phase :=
  hStep

end

end

---- Invariants Of Interleavings

variable {ι σ φ α : Type} [DecidableEq ι]
variable (outline : Outline ι σ φ) (calls : ι → Call σ α)

/- What is known about a call in its phase. -/
def Thread.Fits (i : ι) (thread : Thread σ α) (phase : φ) : Prop :=
  if thread.started then outline.Safe i (fun phase _ => phase = outline.idle) thread.call phase
  else phase = outline.idle ∧ thread.call = calls i

/- Some phases of all calls fit the state of the system. -/
def Covered (sys : Threads ι σ α) : Prop :=
  ∃ phases,
    outline.Inv phases sys.holder sys.state ∧
      ∀ i, Thread.Fits outline calls i (sys.thread i) (phases i)

variable {outline calls}

/- A call that is not under way is idle. -/
theorem Thread.Fits.idle {sys : Threads ι σ α}
    (hFits : Thread.Fits outline calls i (sys.thread i) phase) (hBusy : ¬ sys.Busy i) :
    phase = outline.idle := by
  unfold Thread.Fits at hFits
  split at hFits
  · next hStarted =>
      have hFinished : sys.Finished i := by
        by_contra hNot
        exact hBusy ⟨hStarted, hNot⟩
      obtain ⟨value, hRet⟩ := hFinished
      rw [hRet] at hFits
      exact hFits
  · exact hFits.1

/- After a step of one call, all others fit as before. -/
theorem Covered.advance {sys : Threads ι σ α}
    (hInv : outline.Inv (Function.update phases i phase) holder state)
    (hSafe : outline.Safe i (fun phase _ => phase = outline.idle) call phase)
    (hFits : ∀ j, j ≠ i → Thread.Fits outline calls j (sys.thread j) (phases j)) :
    Covered outline calls
      { sys.advance i clock call with
        holder := holder
        state := state } := by
  refine ⟨Function.update phases i phase, hInv, ?_⟩
  intro j
  by_cases hEq : j = i
  · subst hEq
    rw [Threads.advance_self, Function.update_self]
    exact hSafe
  · change Thread.Fits outline calls j (Function.update sys.thread i _ j) _
    rw [Function.update_of_ne hEq, Function.update_of_ne hEq]
    exact hFits j hEq

/- A step of a call that is under way. -/
theorem Covered.step (hInv : outline.Inv phases sys.holder sys.state)
    (hSafe : outline.Safe i (fun phase _ => phase = outline.idle) (sys.thread i).call (phases i))
    (hFits : ∀ j, j ≠ i → Thread.Fits outline calls j (sys.thread j) (phases j))
    (hStep : ThreadStep i sys sys') : Covered outline calls sys' := by
  cases hStep with
  | read hCall | write hCall | unlock hCall =>
    rw [hCall] at hSafe
    obtain ⟨phase, hInv', hNext⟩ := hSafe phases _ _ hInv rfl
    exact Covered.advance hInv' hNext hFits
  | now hCall =>
    rw [hCall] at hSafe
    have hSame : outline.Inv (Function.update phases i (phases i)) sys.holder sys.state := by
      rw [Function.update_eq_self]
      exact hInv
    exact Covered.advance hSame (hSafe ((sys.thread i).clock 0)) hFits
  | lock hCall hFree =>
    rw [hCall] at hSafe
    rw [hFree] at hInv
    obtain ⟨phase, hInv', hNext⟩ := hSafe phases _ hInv rfl
    exact Covered.advance hInv' hNext hFits

/-
  The rule for interleavings.  A call begins only when those it conflicts with are idle; outside
  steps keep the invariant.
-/
theorem covered_of_reach (conflict : ι → ι → Prop)
    (hStart : outline.Inv (fun _ => outline.idle) none start)
    (hEnter :
      ∀ i phases holder state, outline.Inv phases holder state → phases i = outline.idle →
        (∀ j, conflict i j → phases j = outline.idle) →
        ∃ phase,
          outline.Inv (Function.update phases i phase) holder state ∧
            outline.Safe i (fun phase _ => phase = outline.idle) (calls i) phase)
    (hAlone :
      ∀ i (sys : Threads ι σ α), allowed (.thread i) sys → (sys.thread i).started = false →
        ∀ j, conflict i j → ¬ sys.Busy j)
    (hOutside :
      ∀ update (sys : Threads ι σ α) phases, allowed (.outside update) sys →
        outline.Inv phases sys.holder sys.state → (∀ i, ¬ sys.Busy i → phases i = outline.idle) →
        outline.Inv phases sys.holder (update sys.state))
    (hReach : Reach SharedStep allowed (Threads.start calls clocks start) sys) :
    Covered outline calls sys := by
  refine hReach.invariant (Covered outline calls) ?_ ?_
  · exact ⟨fun _ => outline.idle, hStart, fun _ => ⟨rfl, rfl⟩⟩
  · rintro label before after ⟨phases, hInv, hFits⟩ hAllowed hStep
    cases hStep with
    | outside update =>
      refine ⟨phases, ?_, hFits⟩
      exact hOutside update before phases hAllowed hInv (fun i hBusy => (hFits i).idle hBusy)
    | @thread i _ _ hThread =>
      have hFit := hFits i
      unfold Thread.Fits at hFit
      cases hStarted : (before.thread i).started with
      | true =>
        rw [hStarted] at hFit
        exact Covered.step hInv hFit (fun j _ => hFits j) hThread
      | false =>
        rw [hStarted] at hFit
        obtain ⟨phase, hInv', hSafe⟩ :=
          hEnter i phases _ _ hInv hFit.1
            (fun j hConflict => (hFits j).idle (hAlone i before hAllowed hStarted j hConflict))
        refine Covered.step hInv' ?_ ?_ hThread
        · rw [hFit.2, Function.update_self]
          exact hSafe
        · intro j hNe
          rw [Function.update_of_ne hNe]
          exact hFits j

/- A sum over all calls, after one of them has moved. -/
theorem sum_update_phase [Fintype ι] (value : ι → φ → Int) (phases : ι → φ) (i : ι) (phase : φ) :
    (∑ j, value j (Function.update phases i phase j)) + value i (phases i) =
      (∑ j, value j (phases j)) + value i phase := by
  have hNew := Finset.add_sum_erase Finset.univ
    (fun j => value j (Function.update phases i phase j)) (Finset.mem_univ i)
  have hOld := Finset.add_sum_erase Finset.univ (fun j => value j (phases j)) (Finset.mem_univ i)
  have hRest :
      ∑ j ∈ Finset.univ.erase i, value j (Function.update phases i phase j) =
        ∑ j ∈ Finset.univ.erase i, value j (phases j) := by
    apply Finset.sum_congr rfl
    intro j hMem
    rw [Function.update_of_ne (Finset.ne_of_mem_erase hMem)]
  rw [Function.update_self] at hNew
  omega

end Outline

end Program
