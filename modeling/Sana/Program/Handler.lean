import Mathlib

/-
  Handlers that may panic, and the slices they read.

  A handler works on a state and returns a value or an error, or it does not return: it panics, or
  it blocks for ever.  A slice has a length and a capacity.  An index has to be below the length,
  but a slice may be cut out of another one up to the capacity, beyond what was put into it.

  A routine reads and writes a store whose accesses may fail.  Every access has a site, and a run is
  told at which sites accesses fail; what was written before a failure stays written.

  Key definitions include:
    * `Stop`
    * `Handler`

  Key theorems include:
    * `Handler.Avoids.answer_bind`
-/

---- Handlers

namespace Program

/- Why a handler ends early. -/
inductive Stop (ε : Type) where
  | err (e : ε)
  | panic
  | blocked
  deriving DecidableEq, Repr

/- A handler on a state; the state stays as it was left. -/
def Handler (σ ε α : Type) : Type :=
  σ → Except (Stop ε) α × σ

namespace Handler

variable {σ ε α β : Type}

def run (handler : Handler σ ε α) (state : σ) : Except (Stop ε) α × σ :=
  handler state

def stop (reason : Stop ε) : Handler σ ε α :=
  fun state => (.error reason, state)

instance : Monad (Handler σ ε) where
  pure value := fun state => (.ok value, state)
  bind handler next := fun state =>
    match handler state with
    | (.ok value, state') => next value state'
    | (.error reason, state') => (.error reason, state')

def get (observe : σ → α) : Handler σ ε α :=
  fun state => (.ok (observe state), state)

def modify (update : σ → σ) : Handler σ ε Unit :=
  fun state => (.ok (), update state)

/- Go on with an answer from outside, if it is no error. -/
def answer (e : ε) : Option α → Handler σ ε α
| some value => pure value
| none => stop (.err e)

/- Go on only if a condition holds. -/
def check (e : ε) (condition : Bool) : Handler σ ε Unit :=
  if condition then pure () else stop (.err e)

/- Go on with a value that was looked up within its bounds. -/
def inRange : Option α → Handler σ ε α
| some value => pure value
| none => stop .panic

theorem run_bind (handler : Handler σ ε α) (next : α → Handler σ ε β) (state : σ) :
    (handler >>= next).run state = match handler.run state with
      | (.ok value, state') => (next value).run state'
      | (.error reason, state') => (.error reason, state') := rfl

/- From a state, a handler does not stop for a reason. -/
def Avoids (reason : Stop ε) (handler : Handler σ ε α) (state : σ) : Prop :=
  (handler.run state).1 ≠ .error reason

namespace Avoids

variable {reason other : Stop ε} {state : σ}

theorem pure (value : α) : Avoids reason (Pure.pure value : Handler σ ε α) state :=
  nofun

theorem stop (hNe : other ≠ reason) : Avoids reason (stop other : Handler σ ε α) state :=
  fun hStop => hNe (Except.error.inj hStop)

/- The rule for two handlers one after the other. -/
theorem bind (hFirst : Avoids reason handler state)
    (hNext :
      ∀ value state', handler.run state = (.ok value, state') → Avoids reason (next value) state') :
    Avoids reason (handler >>= next) state := by
  unfold Avoids at hFirst hNext ⊢
  rw [run_bind]
  cases hRun : handler.run state with
  | mk result state' =>
    rw [hRun] at hFirst
    cases result with
    | ok value => exact hNext value state' hRun
    | error stopped => exact fun hStop => hFirst (congrArg Except.error (Except.error.inj hStop))

theorem get_bind (hNext : Avoids reason (next (observe state)) state) :
    Avoids reason (get observe >>= next) state :=
  hNext

theorem modify_bind (hNext : Avoids reason (next ()) (update state)) :
    Avoids reason (modify update >>= next) state :=
  hNext

/- The rule for an access within its bounds. -/
theorem inRange_bind (hFound : found = some value) (hNext : Avoids reason (next value) state) :
    Avoids reason (inRange found >>= next) state := by
  rw [hFound]
  exact hNext

theorem answer (hNe : Stop.err e ≠ reason) :
    Avoids reason (Handler.answer e value : Handler σ ε α) state := by
  cases value with
  | none => exact .stop hNe
  | some v => exact .pure v

/- An error from outside is none of the other reasons. -/
theorem answer_bind
    (hNe : Stop.err e ≠ reason) (hNext : ∀ v, value = some v → Avoids reason (next v) state) :
    Avoids reason (Handler.answer e value >>= next) state := by
  cases value with
  | none => exact fun hStop => hNe (Except.error.inj hStop)
  | some v => exact hNext v rfl

theorem check_bind
    (hNe : Stop.err e ≠ reason) (hNext : condition = true → Avoids reason (next ()) state) :
    Avoids reason (check e condition >>= next) state := by
  cases condition with
  | false => exact fun hStop => hNe (Except.error.inj hStop)
  | true => exact hNext rfl

end Avoids

/- From every state, a handler leaves a view as it was. -/
def Keeps {γ : Type} (view : σ → γ) (handler : Handler σ ε α) : Prop :=
  ∀ state, view (handler.run state).2 = view state

namespace Keeps

variable {γ : Type} {view : σ → γ}

theorem pure (value : α) : Keeps view (Pure.pure value : Handler σ ε α) :=
  fun _ => rfl

theorem stop (reason : Stop ε) : Keeps view (stop reason : Handler σ ε α) :=
  fun _ => rfl

theorem get (observe : σ → α) : Keeps view (get observe : Handler σ ε α) :=
  fun _ => rfl

theorem modify (hView : ∀ state, view (update state) = view state) :
    Keeps view (modify update : Handler σ ε Unit) :=
  hView

theorem answer (e : ε) (value : Option α) :
    Keeps view (Handler.answer e value : Handler σ ε α) := by
  cases value with
  | none => exact .stop _
  | some v => exact .pure v

theorem check (e : ε) (condition : Bool) :
    Keeps view (Handler.check e condition : Handler σ ε Unit) := by
  cases condition with
  | false => exact .stop _
  | true => exact .pure ()

theorem inRange (found : Option α) : Keeps view (Handler.inRange found : Handler σ ε α) := by
  cases found with
  | none => exact .stop _
  | some v => exact .pure v

/- The rule for two handlers one after the other. -/
theorem bind (hFirst : Keeps view handler)
    (hNext : ∀ value, Keeps view (next value)) : Keeps view (handler >>= next) := by
  intro state
  have hBefore := hFirst state
  rw [run_bind]
  cases hRun : handler.run state with
  | mk result state' =>
    rw [hRun] at hBefore
    cases result with
    | ok value => exact (hNext value state').trans hBefore
    | error stopped => exact hBefore

end Keeps

end Handler

---- Slices

/- The elements of a slice, and the ones behind them that its
   capacity covers. -/
structure Slice (α : Type) where
  elems : List α
  spare : List α
  deriving DecidableEq, Repr

namespace Slice

variable {α : Type}

def len (s : Slice α) : Nat :=
  s.elems.length

def cap (s : Slice α) : Nat :=
  s.elems.length + s.spare.length

/- `s[low:high]`; there is none if it panics. -/
def slice (s : Slice α) (low high : Nat) : Option (Slice α) :=
  if low ≤ high ∧ high ≤ s.cap then
    some ⟨((s.elems ++ s.spare).drop low).take (high - low), (s.elems ++ s.spare).drop high⟩
  else none

/- `s[low:]` -/
def sliceFrom (s : Slice α) (low : Nat) : Option (Slice α) :=
  s.slice low s.len

/- `s[i]`; there is none if it panics. -/
def index (s : Slice α) (i : Nat) : Option α :=
  s.elems[i]?

/- Inside the length, a slice does not depend on the capacity
   of the other one. -/
theorem slice_of_le {received spare : List α} (hLow : low ≤ high)
    (hHigh : high ≤ received.length) :
    (⟨received, spare⟩ : Slice α).slice low high =
      some ⟨(received.drop low).take (high - low), received.drop high ++ spare⟩ := by
  unfold slice cap
  rw [if_pos ⟨hLow, hHigh.trans (Nat.le_add_right _ _)⟩, List.drop_append_of_le_length hHigh,
    List.drop_append_of_le_length (hLow.trans hHigh), List.take_append_of_le_length]
  rw [List.length_drop]
  omega

theorem sliceFrom_of_le {received spare : List α} (hLow : low ≤ received.length) :
    (⟨received, spare⟩ : Slice α).sliceFrom low = some ⟨received.drop low, spare⟩ := by
  unfold sliceFrom len
  rw [slice_of_le hLow le_rfl, List.drop_length, List.nil_append, List.take_of_length_le]
  rw [List.length_drop]

theorem index_of_lt {received spare : List α} (hLt : i < received.length) :
    (⟨received, spare⟩ : Slice α).index i = some (received.get ⟨i, hLt⟩) :=
  List.getElem?_eq_getElem hLt

end Slice

---- Routines

/- A failed access, or an error that a routine returns. -/
inductive Failure (ι ε : Type) where
  | access (site : ι)
  | error (e : ε)
  deriving DecidableEq, Repr

/- The same failure, with other sites and errors. -/
def Failure.rename {ι κ ε δ : Type} (site : ι → κ) (error : ε → δ) : Failure ι ε → Failure κ δ
| .access s => .access (site s)
| .error e => .error (error e)

/- A routine on a store of type `σ`, with accesses at sites of type `ι` and errors of type `ε`. -/
inductive Routine (σ ι ε α : Type) : Type where
  | ret (value : α)
  | fail (e : ε)
  | read (site : ι) (next : σ → Routine σ ι ε α)
  | write (site : ι) (update : σ → σ) (next : Routine σ ι ε α)

/- The result of a routine, and the store it leaves. -/
structure Ended (σ ι ε α : Type) where
  result : Except (Failure ι ε) α
  state : σ

namespace Routine

variable {σ ι ε α β : Type}

def bind (routine : Routine σ ι ε α) (next : α → Routine σ ι ε β) : Routine σ ι ε β :=
  match routine with
  | .ret value => next value
  | .fail e => .fail e
  | .read site rest => .read site fun state => (rest state).bind next
  | .write site update rest => .write site update (rest.bind next)

instance : Monad (Routine σ ι ε) where
  pure := .ret
  bind := bind

def get (site : ι) (observe : σ → α) : Routine σ ι ε α :=
  .read site fun state => .ret (observe state)

def set (site : ι) (update : σ → σ) : Routine σ ι ε Unit :=
  .write site update (.ret ())

/- Go on with a value that is computed without the store. -/
def ofExcept : Except ε α → Routine σ ι ε α
| .ok value => .ret value
| .error e => .fail e

/- Run a routine only if a condition holds. -/
def when (routine : Routine σ ι ε Unit) (condition : Bool) : Routine σ ι ε Unit :=
  if condition then routine else .ret ()

/- Run a routine; `fails` tells where accesses fail. -/
def run (fails : ι → Bool) : Routine σ ι ε α → σ → Ended σ ι ε α
| .ret value, state => ⟨.ok value, state⟩
| .fail e, state => ⟨.error (.error e), state⟩
| .read site next, state =>
  if fails site then ⟨.error (.access site), state⟩
  else (next state).run fails state
| .write site update next, state =>
  if fails site then ⟨.error (.access site), state⟩
  else next.run fails (update state)

/- No access fails. -/
def never (_ : ι) : Bool :=
  false

---- Running

variable {fails : ι → Bool}

@[simp] theorem run_pure (value : α) (state : σ) :
    (pure value : Routine σ ι ε α).run fails state = ⟨.ok value, state⟩ := rfl

@[simp] theorem run_fail :
    (fail e : Routine σ ι ε α).run fails state = ⟨.error (.error e), state⟩ := rfl

/- The second routine runs if the first one succeeds. -/
theorem run_bind (routine : Routine σ ι ε α) (next : α → Routine σ ι ε β) (state : σ) :
    (routine >>= next).run fails state = match (routine.run fails state).result with
      | .ok value => (next value).run fails (routine.run fails state).state
      | .error e =>
        ⟨.error e, (routine.run fails state).state⟩ := by
  change (routine.bind next).run fails state = _
  induction routine generalizing state with
  | ret value | fail e => rfl
  | read site rest ih =>
    simp only [bind, run]
    split
    · rfl
    · exact ih state state
  | write site update rest ih =>
    simp only [bind, run]
    split
    · rfl
    · exact ih (update state)

theorem run_set (site : ι) (update : σ → σ) (state : σ) :
    (set site update : Routine σ ι ε Unit).run fails state =
      if fails site then ⟨.error (.access site), state⟩
      else ⟨.ok (), update state⟩ := rfl

/- A lookup in front of a routine. -/
@[simp] theorem run_get_bind (site : ι) (observe : σ → α) (next : α → Routine σ ι ε β) (state : σ) :
    (get site observe >>= next).run fails state = if fails site then ⟨.error (.access site), state⟩
      else (next (observe state)).run fails state := rfl

@[simp] theorem run_set_bind (site : ι) (update : σ → σ) (next : Unit → Routine σ ι ε β)
    (state : σ) :
    (set site update >>= next).run fails state = if fails site then ⟨.error (.access site), state⟩
      else (next ()).run fails (update state) := rfl

@[simp] theorem run_ofExcept_bind (result : Except ε α) (next : α → Routine σ ι ε β) (state : σ) :
    (ofExcept result >>= next).run fails state = match result with
      | .ok value => (next value).run fails state
      | .error e => ⟨.error (.error e), state⟩ := by
  cases result <;> rfl

theorem run_when (condition : Bool) (routine : Routine σ ι ε Unit) (state : σ) :
    (routine.when condition).run fails state = if condition then routine.run fails state
      else ⟨.ok (), state⟩ := by
  unfold when
  split <;> rfl

/- A run that succeeds has met no failed access. -/
theorem run_eq_of_ok {routine : Routine σ ι ε α}
    (hOk : (routine.run fails state).result = .ok value) :
    routine.run never state = routine.run fails state := by
  induction routine generalizing state with
  | ret _ => rfl
  | fail e => cases hOk
  | read site rest ih =>
    simp only [run] at hOk ⊢
    split at hOk
    · cases hOk
    · next hSite =>
        rw [if_neg hSite]
        exact ih state hOk
  | write site update rest ih =>
    simp only [run] at hOk ⊢
    split at hOk
    · cases hOk
    · next hSite =>
        rw [if_neg hSite]
        exact ih hOk

end Routine

---- Parts Of A Store

/- A part of a larger store. -/
structure Part (σ τ : Type) where
  focus : σ → τ
  replace : τ → σ → σ
  focus_replace : ∀ part whole, focus (replace part whole) = part
  replace_replace : ∀ part part' whole, replace part (replace part' whole) = replace part whole
  replace_focus : ∀ whole, replace (focus whole) whole = whole

namespace Routine

variable {σ τ ι κ ε δ α : Type}

/- Run a routine of a part on the larger store. -/
def within (part : Part σ τ) (site : ι → κ) (error : ε → δ) : Routine τ ι ε α → Routine σ κ δ α
| .ret value => .ret value
| .fail e => .fail (error e)
| .read s next => .read (site s) fun state => (next (part.focus state)).within part site error
| .write s update next =>
  .write (site s) (fun state =>
      part.replace (update (part.focus state)) state)
    (next.within part site error)

theorem run_within (part : Part σ τ) (site : ι → κ) (error : ε → δ) (routine : Routine τ ι ε α)
    (fails : κ → Bool) (state : σ) : (routine.within part site error).run fails state =
      let ended := routine.run (fun s => fails (site s)) (part.focus state)
      ⟨ended.result.mapError (Failure.rename site error), part.replace ended.state state⟩ := by
  induction routine generalizing state with
  | ret value | fail e =>
    simp only [within, run, part.replace_focus]
    rfl
  | read s next ih =>
    simp only [within, run]
    split
    · simp only [part.replace_focus]
      rfl
    · exact ih _ state
  | write s update next ih =>
    simp only [within, run]
    split
    · simp only [part.replace_focus]
      rfl
    · rw [ih]
      simp only [part.focus_replace, part.replace_replace]

variable {β : Type}

section

variable (part : Part σ τ) (site : ι → κ) (error : ε → δ)

/- A lookup in a part, in front of a routine. -/
theorem run_within_get_bind (s : ι) (observe : τ → α) (next : α → Routine σ κ δ β)
    (fails : κ → Bool) (state : σ) :
    ((get s observe).within part site error >>= next).run fails state = if fails (site s) then
        ⟨.error (.access (site s)), state⟩
      else
        (next (observe (part.focus state))).run fails state :=
  rfl

/- A part succeeds, and the routine goes on. -/
theorem run_within_bind_ok {routine : Routine τ ι ε α} (next : α → Routine σ κ δ β)
    (fails : κ → Bool) (state : σ)
    (hOk : (routine.run (fun s => fails (site s)) (part.focus state)).result = .ok value) :
    (routine.within part site error >>= next).run fails state =
      (next value).run fails
        (part.replace (routine.run (fun s => fails (site s)) (part.focus state)).state state) := by
  rw [run_bind, run_within]
  simp only [hOk, Except.mapError]

/- A part fails, and so does the routine. -/
theorem run_within_bind_error {routine : Routine τ ι ε α} (next : α → Routine σ κ δ β)
    (fails : κ → Bool) (state : σ)
    (hError : (routine.run (fun s => fails (site s)) (part.focus state)).result = .error e) :
    (routine.within part site error >>= next).run fails state =
      ⟨.error (e.rename site error),
        part.replace (routine.run (fun s => fails (site s)) (part.focus state)).state state⟩ := by
  rw [run_bind, run_within]
  simp only [hError, Except.mapError]

end

end Routine

end Program
