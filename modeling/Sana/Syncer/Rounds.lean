import Sana.Program.Reach

/-
  The rounds of the worker.

  In a round, the worker reads the height of the chain and gives one page to every updater that is
  behind it.  A round ends early when the backend fails, and the next one goes on from where each
  updater is.  The block numbers of a query are converted to signed integers.

  Key definitions include:
    * `Rounds`
    * `Rounds.listen`

  Key theorems include:
    * `Rounds.Covered.step`
-/

---- Calls Of An Updater

namespace Sana.Syncer

open Program

variable {E : Type} {n : Nat} {block : E → UInt64}

inductive UpdaterCall (E : Type) where
  | transactionStart
  | updateBlockNumber (blockNumber : UInt64)
  | processEvent (e : E)
  | transactionEnd
  deriving DecidableEq, Repr

/- How many blocks to sync every time. -/
def blockPage : UInt64 :=
  5000

/- How many blocks to stay behind the tip of the chain. -/
def tailSize : UInt64 :=
  4

/- The events that the node returns for a range of blocks. -/
def filterLogs (block : E → UInt64) (events : List E) (first last : UInt64) : List E :=
  events.filter fun e => first ≤ block e ∧ block e ≤ last

theorem toNat_succ {n : UInt64} (hLt : n.toNat + 1 < 2 ^ 64) : (n + 1).toNat = n.toNat + 1 := by
  have hOne : (1 : UInt64).toNat = 1 := rfl
  rw [UInt64.toNat_add, hOne, Nat.mod_eq_of_lt hLt]

/- The events of a page are in its range. -/
theorem mem_filterLogs :
    e ∈ filterLogs block events first last ↔ e ∈ events ∧ first ≤ block e ∧ block e ≤ last := by
  unfold filterLogs
  rw [List.mem_filter, decide_eq_true_eq]

/- The conversion of a block number for a query. -/
def int64 (n : UInt64) : Int :=
  n.toInt64.toInt

/- The logs that the backend returns for a query. -/
def queryLogs (block : E → UInt64) (logs : List E) (fromBlock toBlock : Int) : List E :=
  logs.filter fun e => fromBlock ≤ (block e).toNat ∧ (block e).toNat ≤ toBlock

/- The calls for one page. -/
def pageCalls (block : E → UInt64) (events : List E) (last : UInt64) : List (UpdaterCall E) :=
  .transactionStart :: ((events.flatMap fun e =>
      [.updateBlockNumber (block e), .processEvent e]) ++
      [.updateBlockNumber last, .transactionEnd])

/- The last block of the page that starts at a block. -/
def pageLast (first height : UInt64) : UInt64 :=
  if blockPage < height - first then first + blockPage
  else height

---- The Worker

/- A round: the confirmed height, the place in the list of
   updaters, and whether there are more pages. -/
structure Round where
  height : UInt64
  position : Nat
  more : Bool
  deriving DecidableEq, Repr

/- The worker stops for ever when the call of an updater fails,
   or for another reason. -/
inductive Phase (n : Nat) where
  | waiting
  | round (r : Round)
  | stopped (failed : Option (Fin n))
  deriving DecidableEq, Repr

structure Rounds (n : Nat) (E : Type) where
  /- the field `From` of each updater -/
  next : Fin n → UInt64
  /- the ranges that were asked for, and all calls -/
  ranges : Fin n → List (Int × Int)
  calls : Fin n → List (UpdaterCall E)
  /- the channels `paged` and `synced` -/
  paged : Bool
  synced : Bool
  phase : Phase n

/- What comes from outside in one step. -/
inductive RoundLabel where
  /- the timer fires, or `paged` is read; then the answer of
     `BlockNumber` -/
  | listen (timer : Bool) (blockNumber : Option UInt64)
  /- whether `FilterLogs` answers, and how many calls of the
     updater succeed -/
  | sync (answered : Bool) (works : Nat)
  | finish
  | quit
  deriving DecidableEq, Repr

namespace Rounds

def start (first : Fin n → UInt64) : Rounds n E where
  next := first
  ranges _ := []
  calls _ := []
  paged := true
  synced := false
  phase := .waiting

def listen (timer : Bool) (blockNumber : Option UInt64) (w : Rounds n E) : Option (Rounds n E) :=
  if w.phase = .waiting ∧ (timer = true ∨ w.paged = true) then
    -- only the second case takes the token out of `paged`
    let w := { w with paged := timer && w.paged }
    match blockNumber with
    | none => some w
    | some b =>
      if b < tailSize ∨ n = 0 then some w
      else some { w with phase := .round ⟨b - tailSize, 0, false⟩ }
  else none

/- One updater in a round. -/
def syncAt (block : E → UInt64) (logs : Fin n → List E) (r : Round) (i : Fin n) (answered : Bool)
    (works : Nat) (w : Rounds n E) : Rounds n E :=
  if r.height < w.next i then
    { w with
      phase := .round { r with position := r.position + 1 } }
  else if answered = false then { w with phase := .waiting }
  else
    let last := pageLast (w.next i) r.height
    let range := (int64 (w.next i), int64 last)
    let calls := pageCalls block (queryLogs block (logs i) range.1 range.2) last
    let w :=
      { w with
        ranges := Function.update w.ranges i (w.ranges i ++ [range])
        calls := Function.update w.calls i (w.calls i ++ calls.take (works + 1)) }
    if works < calls.length then { w with phase := .stopped (some i) }
    else
      { w with
        next := Function.update w.next i (last + 1)
        phase :=
          .round
            { r with
              position := r.position + 1
              more := r.more || blockPage < r.height - w.next i } }

def sync (block : E → UInt64) (logs : Fin n → List E) (answered : Bool) (works : Nat)
    (w : Rounds n E) : Option (Rounds n E) :=
  match w.phase with
  | .round r =>
    if hLt : r.position < n then some (w.syncAt block logs r ⟨r.position, hLt⟩ answered works)
    else none
  | _ => none

/- A token for a full channel blocks the worker. -/
def finish (w : Rounds n E) : Option (Rounds n E) :=
  match w.phase with
  | .round r =>
    if r.position < n then none
    else if r.more = false then some { w with synced := true, phase := .waiting }
    else if w.paged = true then some { w with phase := .stopped none }
    else some { w with paged := true, phase := .waiting }
  | _ => none

def quit (w : Rounds n E) : Option (Rounds n E) :=
  match w.phase with
  | .waiting => some { w with phase := .stopped none }
  | _ => none

def act (block : E → UInt64) (logs : Fin n → List E) (label : RoundLabel)
    (w : Rounds n E) : Option (Rounds n E) :=
  match label with
  | .listen timer blockNumber => w.listen timer blockNumber
  | .sync answered works => w.sync block logs answered works
  | .finish => w.finish
  | .quit => w.quit

end Rounds

def RoundStep (block : E → UInt64) (logs : Fin n → List E) (label : RoundLabel)
    (w w' : Rounds n E) : Prop :=
  w.act block logs label = some w'

---- What A Step Can Do

section

variable {logs : Fin n → List E}

/- The page of an updater in a round, with its calls. -/
def Rounds.afterCalls (block : E → UInt64) (logs : Fin n → List E) (r : Round) (i : Fin n)
    (made : Nat) (w : Rounds n E) : Rounds n E :=
  let last := pageLast (w.next i) r.height
  let range := (int64 (w.next i), int64 last)
  { w with
    ranges := Function.update w.ranges i (w.ranges i ++ [range])
    calls :=
      Function.update w.calls i
        (w.calls i ++ (pageCalls block (queryLogs block (logs i) range.1 range.2) last).take made) }

/- The transitions of the worker. -/
inductive RoundMove (block : E → UInt64) (logs : Fin n → List E) :
    RoundLabel → Rounds n E → Rounds n E → Prop where
  | idle {w : Rounds n E} {timer : Bool} {blockNumber : Option UInt64}
      (hPhase : w.phase = .waiting) :
      RoundMove block logs (.listen timer blockNumber) w { w with paged := timer && w.paged }
  | begin {w : Rounds n E} {timer : Bool} {b : UInt64} (hPhase : w.phase = .waiting)
      (hTail : tailSize ≤ b) : RoundMove block logs (.listen timer (some b)) w
        { w with
          paged := timer && w.paged
          phase := .round ⟨b - tailSize, 0, false⟩ }
  | skip {w : Rounds n E} {r : Round} {i : Fin n} {answered : Bool} {works : Nat}
      (hPhase : w.phase = .round r) (hPosition : r.position = i) (hAhead : r.height < w.next i) :
      RoundMove block logs (.sync answered works) w
        { w with
          phase := .round { r with position := r.position + 1 } }
  | failed {w : Rounds n E} {r : Round} {works : Nat} (hPhase : w.phase = .round r) :
      RoundMove block logs (.sync false works) w { w with phase := .waiting }
  | broken {w : Rounds n E} {r : Round} {i : Fin n} {works : Nat} (hPhase : w.phase = .round r)
      (hBehind : w.next i ≤ r.height) : RoundMove block logs (.sync true works) w
        { w.afterCalls block logs r i (works + 1) with phase := .stopped (some i) }
  | page {w : Rounds n E} {r : Round} {i : Fin n} {works made : Nat} (hPhase : w.phase = .round r)
      (hPosition : r.position = i) (hBehind : w.next i ≤ r.height)
      (hAll :
        (pageCalls block
          (queryLogs block (logs i) (int64 (w.next i)) (int64 (pageLast (w.next i) r.height)))
          (pageLast (w.next i) r.height)).length ≤ made) : RoundMove block logs (.sync true works) w
        { w.afterCalls block logs r i made with
          next := Function.update w.next i (pageLast (w.next i) r.height + 1)
          phase :=
            .round
              { r with
                position := r.position + 1
                more := r.more || blockPage < r.height - w.next i } }
  | closed {w : Rounds n E} {r : Round} (hPhase : w.phase = .round r) (hPosition : n ≤ r.position)
      (hMore : r.more = false) :
      RoundMove block logs .finish w { w with synced := true, phase := .waiting }
  | more {w : Rounds n E} {r : Round} (hPhase : w.phase = .round r) :
      RoundMove block logs .finish w { w with paged := true, phase := .waiting }
  | blocked {w : Rounds n E} {r : Round} (hPhase : w.phase = .round r) :
      RoundMove block logs .finish w { w with phase := .stopped none }
  | quit {w : Rounds n E} (hPhase : w.phase = .waiting) :
      RoundMove block logs .quit w { w with phase := .stopped none }

theorem listen_move (hListen : w.listen timer blockNumber = some w') :
    RoundMove block logs (.listen timer blockNumber) w w' := by
  unfold Rounds.listen at hListen
  split at hListen
  · next hWaiting =>
      cases blockNumber with
      | none =>
        cases hListen
        exact .idle hWaiting.1
      | some b =>
        dsimp only at hListen
        split at hListen
        · cases hListen
          exact .idle hWaiting.1
        · next hTail =>
            cases hListen
            rw [not_or, UInt64.not_lt] at hTail
            exact .begin hWaiting.1 hTail.1
  · cases hListen

theorem syncAt_move {r : Round} {i : Fin n}
    (hPhase : w.phase = .round r) (hPosition : r.position = i) :
    RoundMove block logs (.sync answered works) w (w.syncAt block logs r i answered works) := by
  unfold Rounds.syncAt
  split
  · next hAhead => exact .skip hPhase hPosition hAhead
  · next hAhead =>
      have hBehind := UInt64.not_lt.mp hAhead
      cases answered with
      | false => exact .failed hPhase
      | true =>
        rw [if_neg (by decide)]
        dsimp only
        split
        · exact .broken hPhase hBehind
        · next hWorks =>
            exact .page hPhase hPosition hBehind
              ((Nat.le_of_not_lt hWorks).trans (Nat.le_succ works))

theorem finish_move (hFinish : w.finish = some w') : RoundMove block logs .finish w w' := by
  unfold Rounds.finish at hFinish
  split at hFinish
  · next r hPhase =>
      split at hFinish
      · cases hFinish
      next hPosition =>
      split at hFinish
      · next hMore =>
          cases hFinish
          exact .closed hPhase (Nat.le_of_not_lt hPosition) hMore
      split at hFinish
      · cases hFinish
        exact .blocked hPhase
      · cases hFinish
        exact .more hPhase
  · cases hFinish

theorem RoundStep.move (hStep : RoundStep block logs label w w') :
    RoundMove block logs label w w' := by
  unfold RoundStep Rounds.act at hStep
  cases label with
  | listen timer blockNumber => exact listen_move hStep
  | sync answered works =>
    dsimp only [Rounds.sync] at hStep
    split at hStep
    · next r hPhase =>
        split at hStep
        · cases hStep
          exact syncAt_move hPhase rfl
        · cases hStep
    · cases hStep
  | finish => exact finish_move hStep
  | quit =>
    dsimp only [Rounds.quit] at hStep
    split at hStep
    · next hPhase =>
        cases hStep
        exact .quit hPhase
    · cases hStep

end

---- Pages

section

variable {logs : List E}

structure Page where
  first : UInt64
  last : UInt64
  deriving DecidableEq, Repr

def Page.range (p : Page) : Int × Int :=
  (p.first.toNat, p.last.toNat)

/- The calls for all events of the blocks of a page. -/
def Page.calls (block : E → UInt64) (logs : List E) (p : Page) : List (UpdaterCall E) :=
  pageCalls block (filterLogs block logs p.first p.last) p.last

/-
  Pages one after the other, from a first block to the one after the last page.  No block is left
  out or has two pages.
-/
inductive Linked : UInt64 → List Page → UInt64 → Prop where
  | nil (next : UInt64) : Linked next [] next
  | cons {page : Page} {pages : List Page} {next : UInt64} (hLe : page.first ≤ page.last)
      (hNext : (page.last + 1).toNat = page.last.toNat + 1)
      (hRest : Linked (page.last + 1) pages next) : Linked page.first (page :: pages) next

/- One more page at the end. -/
theorem Linked.concat (hLinked : Linked first pages next) (hLe : next ≤ last)
    (hNext : (last + 1).toNat = last.toNat + 1) :
    Linked first (pages ++ [⟨next, last⟩]) (last + 1) := by
  induction hLinked with
  | nil next =>
    have hPage : (⟨next, last⟩ : Page).first ≤ (⟨next, last⟩ : Page).last := hLe
    exact .cons hPage hNext (.nil _)
  | cons hPage hPageNext hRest ih => exact .cons hPage hPageNext (ih hLe)

theorem int64_eq (hLt : m.toNat < 2 ^ 63) : int64 m = m.toNat := by
  have hInt : m.toBitVec.toInt = m.toBitVec.toNat := BitVec.toInt_eq_toNat_of_lt (by
      rw [UInt64.toNat_toBitVec]
      omega)
  exact hInt

/- A query for blocks that fit is one for these blocks. -/
theorem queryLogs_int64 (hFirst : first.toNat < 2 ^ 63) (hLast : last.toNat < 2 ^ 63) :
    queryLogs block logs (int64 first) (int64 last) = filterLogs block logs first last := by
  rw [int64_eq hFirst, int64_eq hLast]
  refine List.filter_congr fun e _ => ?_
  rw [decide_eq_decide, UInt64.le_iff_toNat_le, UInt64.le_iff_toNat_le]
  omega

theorem pageLast_spec (hLe : first ≤ height) :
    first ≤ pageLast first height ∧ pageLast first height ≤ height ∧
      (¬ blockPage < height - first → pageLast first height = height) := by
  have hDiff : (height - first).toNat = height.toNat - first.toNat := UInt64.toNat_sub_of_le _ _ hLe
  have hPage : blockPage.toNat = 5000 := rfl
  have hMax := height.toNat_lt
  unfold pageLast
  split
  · next hMore =>
      rw [UInt64.lt_iff_toNat_lt] at hMore
      have hSum : (first + blockPage).toNat = first.toNat + 5000 := by
        rw [UInt64.toNat_add, Nat.mod_eq_of_lt]
        · rfl
        · omega
      rw [UInt64.le_iff_toNat_le, UInt64.le_iff_toNat_le]
      exact ⟨by omega, by omega, fun hNot => (hNot (UInt64.lt_iff_toNat_lt.mpr hMore)).elim⟩
  · exact ⟨UInt64.le_iff_toNat_le.mpr hLe, UInt64.le_refl _, fun _ => rfl⟩

end

---- Every Block Once

section

variable {logs : Fin n → List E}
variable {first : Fin n → UInt64} {w w' : Rounds n E}
variable {label : RoundLabel}

namespace Rounds

/-
  The ranges of an updater are those of linked pages, and its calls are the ones for these pages.
  Only if one of its calls has failed, the calls stop within the last page.
-/
def Covered (block : E → UInt64) (logs : Fin n → List E) (first : Fin n → UInt64) (w : Rounds n E)
    (i : Fin n) : Prop :=
  ∃ (pages : List Page) (next : UInt64),
    Linked (first i) pages next ∧ w.ranges i = pages.map Page.range ∧
      w.calls i <+: pages.flatMap (Page.calls block (logs i)) ∧
      (w.phase ≠ .stopped (some i) →
        w.calls i = pages.flatMap (Page.calls block (logs i)) ∧ w.next i = next)

/- The confirmed height of a round fits, and it is reached by
   the updaters that were treated, unless there are more pages. -/
def Confirmed (w : Rounds n E) : Prop :=
  ∀ r, w.phase = .round r →
    r.height.toNat < 2 ^ 63 ∧ (r.more = false → ∀ i : Fin n, i < r.position → r.height < w.next i)

theorem Covered.of_same (hCovered : w.Covered block logs first i)
    (hPhase : w.phase ≠ .stopped (some i)) (hRanges : w'.ranges i = w.ranges i)
    (hCalls : w'.calls i = w.calls i) (hNext : w'.next i = w.next i) :
    w'.Covered block logs first i := by
  obtain ⟨pages, next, hLinked, hPages, hMade, hAll⟩ := hCovered
  refine ⟨pages, next, hLinked, hRanges.trans hPages, ?_, ?_⟩
  · rw [hCalls]
    exact hMade
  · intro _
    rw [hCalls, hNext]
    exact hAll hPhase

/- One more page, of which some calls are made. -/
theorem Covered.afterCalls (hCovered : w.Covered block logs first i)
    (hPhase : w.phase = .round r) (hFits : r.height.toNat < 2 ^ 63) (hBehind : w.next i ≤ r.height)
    (made : Nat) :
    ∃ pages,
      Linked (first i) pages (pageLast (w.next i) r.height + 1) ∧
        (w.afterCalls block logs r i made).ranges i = pages.map Page.range ∧
        (w.afterCalls block logs r i made).calls i <+: pages.flatMap (Page.calls block (logs i)) ∧
        ((pageCalls block
            (queryLogs block (logs i) (int64 (w.next i)) (int64 (pageLast (w.next i) r.height)))
            (pageLast (w.next i) r.height)).length ≤ made →
          (w.afterCalls block logs r i made).calls i =
            pages.flatMap (Page.calls block (logs i))) := by
  obtain ⟨pages, next, hLinked, hRanges, -, hAll⟩ := hCovered
  obtain ⟨hCalls, hNext⟩ := hAll (by rw [hPhase]; nofun)
  obtain ⟨hFirst, hLast, -⟩ := pageLast_spec hBehind
  have hLastFits : (pageLast (w.next i) r.height).toNat < 2 ^ 63 := lt_of_le_of_lt hLast hFits
  have hFirstFits : (w.next i).toNat < 2 ^ 63 :=
    lt_of_le_of_lt (UInt64.le_iff_toNat_le.mp hFirst) hLastFits
  have hPage :
      pageCalls block
          (queryLogs block (logs i) (int64 (w.next i)) (int64 (pageLast (w.next i) r.height)))
          (pageLast (w.next i) r.height) =
        Page.calls block (logs i) ⟨w.next i, pageLast (w.next i) r.height⟩ := by
    rw [queryLogs_int64 hFirstFits hLastFits]
    rfl
  refine ⟨pages ++ [⟨w.next i, pageLast (w.next i) r.height⟩], ?_, ?_, ?_, ?_⟩
  · rw [hNext] at hFirst ⊢
    rw [hNext] at hLastFits
    exact hLinked.concat hFirst (toNat_succ (by omega))
  · unfold Rounds.afterCalls
    dsimp only
    rw [Function.update_self, hRanges, int64_eq hFirstFits, int64_eq hLastFits, List.map_append]
    rfl
  · unfold Rounds.afterCalls
    dsimp only
    rw [Function.update_self, hCalls, hPage, List.flatMap_append, List.flatMap_singleton]
    exact (List.prefix_append_right_inj _).mpr (List.take_prefix _ _)
  · intro hMade
    unfold Rounds.afterCalls
    dsimp only
    rw [Function.update_self, List.take_of_length_le hMade, hCalls, hPage, List.flatMap_append,
      List.flatMap_singleton]

/- The other updaters are not concerned. -/
theorem afterCalls_of_ne (hNe : j ≠ i) :
    (w.afterCalls block logs r i made).ranges j = w.ranges j ∧
      (w.afterCalls block logs r i made).calls j = w.calls j :=
  ⟨Function.update_of_ne hNe _ _, Function.update_of_ne hNe _ _⟩

theorem Covered.step (hCovered : ∀ i, w.Covered block logs first i) (hConfirmed : w.Confirmed)
    (hMove : RoundMove block logs label w w') (i : Fin n) : w'.Covered block logs first i := by
  cases hMove with
  | idle hPhase | begin hPhase hTail | skip hPhase hPosition hAhead
  | failed hPhase | closed hPhase hPosition hMore | more hPhase
  | blocked hPhase | quit hPhase => exact (hCovered i).of_same (by rw [hPhase]; nofun) rfl rfl rfl
  | @broken _ r k works hPhase hBehind =>
    by_cases hSame : i = k
    · subst hSame
      obtain ⟨pages, hLinked, hRanges, hMade, -⟩ :=
        (hCovered i).afterCalls hPhase (hConfirmed r hPhase).1 hBehind (works + 1)
      exact ⟨pages, _, hLinked, hRanges, hMade, fun hNot => (hNot rfl).elim⟩
    · obtain ⟨hRanges, hCalls⟩ := afterCalls_of_ne hSame
      exact (hCovered i).of_same (by rw [hPhase]; nofun) hRanges hCalls rfl
  | @page _ r k works made hPhase hPosition hBehind hAll =>
    by_cases hSame : i = k
    · subst hSame
      obtain ⟨pages, hLinked, hRanges, hMade, hCalls⟩ :=
        (hCovered i).afterCalls hPhase (hConfirmed r hPhase).1 hBehind made
      exact ⟨pages, _, hLinked, hRanges, hMade, fun _ => ⟨hCalls hAll, Function.update_self ..⟩⟩
    · obtain ⟨hRanges, hCalls⟩ := afterCalls_of_ne hSame
      exact (hCovered i).of_same (by rw [hPhase]; nofun)
        hRanges hCalls (Function.update_of_ne hSame _ _)

end Rounds

/- The confirmed heights fit in signed integers. -/
def ConfirmedFits : RoundLabel → Rounds n E → Prop
| .listen _ (some b), _ => tailSize ≤ b → (b - tailSize).toNat < 2 ^ 63
| _, _ => True

theorem Rounds.Confirmed.step (hConfirmed : w.Confirmed) (hFits : ConfirmedFits label w)
    (hMove : RoundMove block logs label w w') : w'.Confirmed := by
  intro r' hPhase'
  cases hMove with
  | idle hPhase => exact hConfirmed r' hPhase'
  | begin hPhase hTail =>
    cases hPhase'
    exact ⟨hFits hTail, fun _ _ hLt => absurd hLt (Nat.not_lt_zero _)⟩
  | @skip _ r i _ _ hPhase hPosition hAhead =>
    cases hPhase'
    obtain ⟨hHeight, hReached⟩ := hConfirmed r hPhase
    refine ⟨hHeight, fun hMore j hLt => ?_⟩
    rcases Nat.lt_succ_iff_lt_or_eq.mp hLt with hLt | hEq
    · exact hReached hMore j hLt
    · rw [Fin.ext (hEq.trans hPosition)]
      exact hAhead
  | failed hPhase | broken hPhase hBehind | closed hPhase hPosition hMore
  | more hPhase | blocked hPhase | quit hPhase => cases hPhase'
  | @page _ r i _ _ hPhase hPosition hBehind hAll =>
    cases hPhase'
    obtain ⟨hHeight, hReached⟩ := hConfirmed r hPhase
    refine ⟨hHeight, fun hMore j hLt => ?_⟩
    rw [Bool.or_eq_false_iff, decide_eq_false_iff_not] at hMore
    dsimp only
    by_cases hSame : j = i
    · have hLast := (pageLast_spec hBehind).2.2 hMore.2
      have hNext := toNat_succ (n := r.height) (by omega)
      rw [hSame, Function.update_self, hLast, UInt64.lt_iff_toNat_lt]
      omega
    · rw [Function.update_of_ne hSame]
      rcases Nat.lt_succ_iff_lt_or_eq.mp hLt with hLt | hEq
      · exact hReached hMore.1 j hLt
      · exact (hSame (Fin.ext (hEq.trans hPosition))).elim

end

---- Order Of The Calls

section

variable {logs : List E}

/- The block numbers that an updater is told. -/
def blockNumbers (calls : List (UpdaterCall E)) : List UInt64 :=
  calls.filterMap fun
    | .updateBlockNumber blockNumber => some blockNumber
    | _ => none

/- Events and block numbers come within transactions only; the
   flag tells whether there is one at the beginning. -/
def bracketed : Bool → List (UpdaterCall E) → Bool
| _, [] => true
| false, .transactionStart :: calls => bracketed true calls
| true, .updateBlockNumber _ :: calls => bracketed true calls
| true, .processEvent _ :: calls => bracketed true calls
| true, .transactionEnd :: calls => bracketed false calls
| _, _ => false

theorem blockNumbers_append :
    blockNumbers (front ++ back) = blockNumbers front ++ blockNumbers back :=
  List.filterMap_append

theorem blockNumbers_pageCalls :
    blockNumbers (pageCalls block events last) = events.map block ++ [last] := by
  induction events with
  | nil => rfl
  | cons e events ih => exact congrArg (block e :: ·) ih

/- The block numbers grow within pages and from page to page. -/
theorem pairwise_blockNumbers (hSorted : logs.Pairwise fun left right => block left ≤ block right)
    (hLinked : Linked first pages next) :
    (blockNumbers (pages.flatMap (Page.calls block logs))).Pairwise (· ≤ ·) ∧
      ∀ m ∈ blockNumbers (pages.flatMap (Page.calls block logs)), first ≤ m := by
  induction hLinked with
  | nil next => exact ⟨List.Pairwise.nil, nofun⟩
  | @cons page pages next hLe hNext hRest ih =>
    have hFiltered : ((filterLogs block logs page.first page.last).map block).Pairwise (· ≤ ·) :=
      List.pairwise_map.mpr (hSorted.sublist List.filter_sublist)
    have hRange : ∀ m ∈ (filterLogs block logs page.first
            page.last).map block,
          page.first ≤ m ∧ m ≤ page.last := by
      intro m hMem
      obtain ⟨e, hFound, rfl⟩ := List.mem_map.mp hMem
      exact (mem_filterLogs.mp hFound).2
    have hLater : ∀ m ∈ blockNumbers (pages.flatMap (Page.calls block logs)), page.last ≤ m := by
      intro m hMem
      have hGe := ih.2 m hMem
      rw [UInt64.le_iff_toNat_le] at hGe ⊢
      omega
    rw [List.flatMap_cons, blockNumbers_append, Page.calls,
      blockNumbers_pageCalls, List.append_assoc]
    constructor
    · rw [List.pairwise_append, List.singleton_append, List.pairwise_cons]
      refine ⟨hFiltered, ⟨hLater, ih.1⟩, ?_⟩
      intro m hMem m' hMem'
      rcases List.mem_cons.mp hMem' with rfl | hMem'
      · exact (hRange m hMem).2
      · exact UInt64.le_trans (hRange m hMem).2 (hLater m' hMem')
    · intro m hMem
      rcases List.mem_append.mp hMem with hMem | hMem
      · exact (hRange m hMem).1
      · rcases List.mem_cons.mp hMem with rfl | hMem
        · exact hLe
        · exact UInt64.le_trans hLe (hLater m hMem)

/- A page is a whole transaction. -/
theorem bracketed_pageCalls :
    bracketed false (pageCalls block events last ++ rest) = bracketed false rest := by
  induction events with
  | nil => rfl
  | cons e events ih => exact ih

theorem bracketed_pages (pages : List Page) :
    bracketed false (pages.flatMap (Page.calls block logs)) = true := by
  induction pages with
  | nil => rfl
  | cons page pages ih =>
    rw [List.flatMap_cons, Page.calls, bracketed_pageCalls]
    exact ih

theorem bracketed_of_append (back : List (UpdaterCall E))
    (hAll : bracketed within (front ++ back) = true) :
    bracketed within front = true := by
  induction front generalizing within with
  | nil => cases within <;> rfl
  | cons call front ih =>
    cases within <;> cases call
    all_goals first | exact ih hAll | cases hAll

end

---- The Syncer

/-
  Whatever the heights and the errors: the ranges of every updater follow each other from its first
  block on, with all their events and no others, the block numbers it is told do not decrease, and
  everything it is told lies in transactions. When the channel of synced updaters is closed, all
  updaters are past the height of that round.
-/
theorem syncer_covers_blocks (block : E → UInt64) (logs : Fin n → List E) (first : Fin n → UInt64)
    (hSorted : ∀ i, (logs i).Pairwise fun left right => block left ≤ block right) {w : Rounds n E}
    (hReach : Reach (RoundStep block logs) ConfirmedFits (Rounds.start first) w) :
    (∀ i, w.Covered block logs first i) ∧ (∀ i, (blockNumbers (w.calls i)).Pairwise (· ≤ ·)) ∧
      (∀ i, bracketed false (w.calls i) = true) ∧
      ∀ label w', RoundStep block logs label w w' →
        w.synced = false → w'.synced = true →
          ∃ r, w.phase = .round r ∧ ∀ i, r.height < w'.next i := by
  have hInv : (∀ i, w.Covered block logs first i) ∧ w.Confirmed := by
    refine hReach.invariant (fun w => (∀ i, w.Covered block logs first i) ∧ w.Confirmed) ?_ ?_
    · exact ⟨fun i => ⟨[], first i, .nil _, rfl, List.prefix_refl _, fun _ => ⟨rfl, rfl⟩⟩, nofun⟩
    · intro label w w' hBefore hFits hStep
      exact ⟨Rounds.Covered.step hBefore.1 hBefore.2 hStep.move, hBefore.2.step hFits hStep.move⟩
  obtain ⟨hCovered, hConfirmed⟩ := hInv
  refine ⟨hCovered, ?_, ?_, ?_⟩
  · intro i
    obtain ⟨pages, next, hLinked, -, ⟨rest, hRest⟩, -⟩ := hCovered i
    have hAll := (pairwise_blockNumbers (hSorted i) hLinked).1
    rw [← hRest, blockNumbers_append] at hAll
    exact (List.pairwise_append.mp hAll).1
  · intro i
    obtain ⟨pages, next, -, -, ⟨rest, hRest⟩, -⟩ := hCovered i
    refine bracketed_of_append rest ?_
    rw [hRest]
    exact bracketed_pages pages
  · intro label w' hStep hBefore hAfter
    cases hStep.move with
    | @closed _ r hPhase hPosition hMore =>
      exact ⟨r, hPhase, fun i => (hConfirmed r hPhase).2 hMore i (lt_of_lt_of_le i.isLt hPosition)⟩
    | idle | begin | skip | failed | broken | page | more | blocked | quit =>
      cases hBefore.symm.trans hAfter

/- One updater, with an event in its first block. -/
def syncOne (first blockNumber : UInt64) : Option (Rounds 1 UInt64) :=
  (((Rounds.start fun _ => first).act id (fun _ => [first])
    (.listen false (some blockNumber))).bind
      (Rounds.act id (fun _ => [first]) (.sync true 9))).bind
        (Rounds.act id (fun _ => [first]) .finish)

theorem reach_syncOne (hOne : syncOne first blockNumber = some w)
    (hAllowed : ∀ w, allowed (.listen false (some blockNumber)) w)
    (hOthers : ∀ w, allowed (.sync true 9) w ∧ allowed .finish w) :
    Reach (RoundStep id fun _ => [first]) allowed (Rounds.start fun _ => first) w := by
  obtain ⟨w₂, hSync, hFinish⟩ := Option.bind_eq_some_iff.mp hOne
  obtain ⟨w₁, hListen, hSync⟩ := Option.bind_eq_some_iff.mp hSync
  have hFirst : Reach (RoundStep id fun _ => [first]) allowed (Rounds.start fun _ => first) w₁ :=
    Reach.start.step _ (hAllowed _) hListen
  have hSecond : Reach (RoundStep id fun _ => [first]) allowed (Rounds.start fun _ => first) w₂ :=
    hFirst.step _ (hOthers _).1 hSync
  exact hSecond.step _ (hOthers _).2 hFinish

theorem syncer_covers_blocks_one :
    ∃ w,
      syncOne 7 20 = some w ∧
        w.calls 0 =
          [.transactionStart, .updateBlockNumber 7, .processEvent 7, .updateBlockNumber 16,
            .transactionEnd] ∧ w.synced = true ∧ w.Covered id (fun _ => [7]) (fun _ => 7) 0 := by
  have hRun :
      ∃ w ∈ syncOne 7 20, w.calls 0 = [.transactionStart, .updateBlockNumber 7, .processEvent 7,
        .updateBlockNumber 16, .transactionEnd] ∧ w.synced = true := by
    decide +kernel
  obtain ⟨w, hOne, hCalls, hSynced⟩ := hRun
  refine ⟨w, hOne, hCalls, hSynced, ?_⟩
  have hReach : Reach (RoundStep id fun _ => [7]) ConfirmedFits (Rounds.start fun _ => 7) w :=
    reach_syncOne hOne (fun _ _ =>
      (by decide : ((20 : UInt64) - tailSize).toNat < 2 ^ 63))
      (fun _ => ⟨trivial, trivial⟩)
  exact (syncer_covers_blocks id (fun _ => [7]) (fun _ => 7)
    (fun _ => List.pairwise_singleton _ _) hReach).1 0

/-
  The first block is 2 ^ 63.  The updater is asked to go on to this block, but the query is for a
  negative one, and the event is never seen.
-/
theorem syncer_skips_block :
    ∃ w : Rounds 1 UInt64,
      Reach (RoundStep id fun _ => [2 ^ 63]) (fun _ _ => True) (Rounds.start fun _ => 2 ^ 63) w ∧
        w.ranges 0 = [(-2 ^ 63, -2 ^ 63)] ∧
        w.calls 0 = [.transactionStart, .updateBlockNumber (2 ^ 63), .transactionEnd] ∧
        w.next 0 = 2 ^ 63 + 1 := by
  have hRun :
      ∃ w ∈ syncOne (2 ^ 63) (2 ^ 63 + 4), w.ranges 0 = [(-2 ^ 63, -2 ^ 63)] ∧
        w.calls 0 = [.transactionStart, .updateBlockNumber (2 ^ 63), .transactionEnd] ∧
        w.next 0 = 2 ^ 63 + 1 := by
    decide +kernel
  obtain ⟨w, hOne, hValues⟩ := hRun
  exact ⟨w, reach_syncOne hOne (fun _ => trivial) (fun _ => ⟨trivial, trivial⟩), hValues⟩

end Sana.Syncer
