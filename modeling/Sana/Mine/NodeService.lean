import Sana.Mine.Trust
import Sana.Program.Reach

/-
  The node service of the mine package.

  The service keeps a table of nodes in memory and a copy of each node in the state store.  Events
  of the contract go to both.  The height of an answered roll call and the pending report of a node
  go to the table only, and the report has no place in the stored form at all.  A start after a
  dirty shutdown deletes what is stored.

  A miner is late when its last block is more than 120 blocks behind the block of the chain.  The
  difference is computed without a sign, and a crash loses the height of an answered roll call: in
  both cases a miner that answered in time is listed (`responsive_listed`).

  Key definitions include:
    * `Node`
    * `Store`

  Key theorems include:
    * `apply_wellFormed`
-/

---- Nodes And Their Stored Form

namespace Sana.Mine

namespace NodeService

open KeyValue Program

/- `mine.Node` without its identifier, under which it is kept
   in tables -/
structure Node where
  trust : Bool
  deposit : Bool
  active : Bool
  lastBlock : UInt64
  ethAddress : EthAddress
  inactionTx : Option Hash
  deriving DecidableEq, Repr

def flagByte (flag : Bool) : UInt8 :=
  if flag then 1 else 0

namespace Node

def marshalBinary (id : Hash) (n : Node) : List UInt8 :=
  id.bytes ++
    ([flagByte n.trust, flagByte n.active, flagByte n.deposit] ++
      (bigEndian 8 n.lastBlock.toNat ++ bigEndian 20 n.ethAddress.toNat))

/- The identifier and the node; stored values have 43 bytes,
   or 63 with the address. -/
def unmarshalBinary (buf : List UInt8) : Hash × Node :=
  (bytesToHash (buf.take 32),
    { trust := decide (0 < buf.getD 32 0)
      active := decide (0 < buf.getD 33 0)
      deposit := decide (0 < buf.getD 34 0)
      lastBlock := UInt64.ofNat (fromBigEndian ((buf.drop 35).take 8))
      ethAddress :=
        if 43 < buf.length then BitVec.ofNat 160 (fromBigEndian (buf.drop 43))
        else 0
      inactionTx := none })

/- What is left of a node in its stored form. -/
def stored (n : Node) : Node :=
  { n with inactionTx := none }

end Node

theorem decide_flagByte : decide (0 < flagByte flag) = flag := by
  cases flag <;> rfl

theorem length_bytes (id : Hash) : id.bytes.length = 32 :=
  length_bigEndian 32 id.toNat

/- The stored form loses the pending report only. -/
theorem unmarshalBinary_marshalBinary (id : Hash) (n : Node) :
    Node.unmarshalBinary (n.marshalBinary id) = (id, n.stored) := by
  have hId := length_bytes id
  have hBlock : fromBigEndian (bigEndian 8 n.lastBlock.toNat) = n.lastBlock.toNat :=
    fromBigEndian_bigEndian n.lastBlock.toNat_lt
  have hAddress : fromBigEndian (bigEndian 20 n.ethAddress.toNat) = n.ethAddress.toNat :=
    fromBigEndian_bigEndian n.ethAddress.isLt
  have hDropped (k : Nat) (hLong : 32 ≤ k) : id.bytes.drop k = [] :=
    List.drop_eq_nil_of_le (hId ▸ hLong)
  unfold Node.unmarshalBinary Node.marshalBinary Node.stored
  simp [List.getD_eq_getElem?_getD, hId, hBlock, hAddress,
    hDropped, List.drop_append, decide_flagByte, bytesToHash_bytes]

---- The Store

/-
  What is in the state store: nodes under `nodeKey`, the chain state under `chainStateKey`, and
  whether there is a flag under `dirtyDBKey`.
-/
structure Store where
  nodes : Index Hash (List UInt8)
  chainState : Option UInt64
  dirty : Bool

namespace Store

def empty : Store where
  nodes := .empty
  chainState := none
  dirty := false

def put (id : Hash) (n : Node) (store : Store) : Store :=
  { store with nodes := store.nodes.put id (n.marshalBinary id) }

def miners (store : Store) : List (Hash × Node) :=
  store.nodes.entries.map (fun entry => Node.unmarshalBinary entry.2)

/- All keys that begin with "nodestore_" are deleted. -/
def reset (store : Store) : Store :=
  { store with
    nodes := .empty
    chainState := none }

end Store

/- A running service with its store; `block` is the block of
   the chain state in memory. -/
structure State where
  store : Store
  block : UInt64
  nodes : Index Hash Node

/- `nodestore.New` and `nodeservice.New` -/
def State.new (startBlock : UInt64) (store : Store) : State :=
  if store.dirty then
    let store := { store.reset with dirty := false }
    { store := store
      block := startBlock
      nodes := Index.empty.putEntries store.miners }
  else
    { store := store
      block := store.chainState.getD startBlock
      nodes := Index.empty.putEntries store.miners }

---- Operations

namespace State

/- A node in memory. -/
def setNode (id : Hash) (n : Node) (s : State) : State :=
  { s with nodes := s.nodes.put id n }

/- A node in memory and in the store. -/
def save (id : Hash) (n : Node) (s : State) : State :=
  { s.setNode id n with store := s.store.put id n }

def miner (id : Hash) (deposit active : Bool) (blockNumber : UInt64) (s : State) : State :=
  let n := (s.nodes.get id).getD
    { trust := false
      deposit := deposit
      active := active
      lastBlock := blockNumber
      ethAddress := 0
      inactionTx := none }
  s.save id
    { n with
      lastBlock :=
        if active = true ∧ n.lastBlock < blockNumber then blockNumber
        else n.lastBlock
      active := active
      deposit := deposit }

/- `mineTrust` says that the node itself is a trust node. -/
def trust (mineTrust : Bool) (id : Hash) (trust : Bool) (s : State) : State :=
  match s.nodes.get id with
  | some n => s.save id { n with trust := trust }
  | none =>
    if mineTrust then s
    else
      s.save id
        { trust := trust
          deposit := false
          active := false
          lastBlock := 0
          ethAddress := 0
          inactionTx := none }

def updateBlockNumber (blockNumber : UInt64) (s : State) : State :=
  if blockNumber = s.block then s
  else
    { s with
      block := blockNumber
      store := { s.store with chainState := some blockNumber } }

def setDirty (dirty : Bool) (s : State) : State :=
  { s with store := { s.store with dirty := dirty } }

def transactionStart : State → State :=
  setDirty true

def transactionEnd : State → State :=
  setDirty false

def updateNodeLastBlock (id : Hash) (blockNumber : UInt64) (s : State) : State :=
  match s.nodes.get id with
  | none => s
  | some n =>
    if blockNumber ≤ n.lastBlock then s
    else s.setNode id { n with lastBlock := blockNumber }

def setInactionTx (id : Hash) (tx : Option Hash) (s : State) : State :=
  match s.nodes.get id with
  | none => s
  | some n => s.setNode id { n with inactionTx := tx }

def updateNodeInactionTxHash (id hash : Hash) : State → State :=
  setInactionTx id (some hash)

/- `received` is the answer of `MinersReceived`. -/
def mineAddress (id : Hash) (received : Option EthAddress) (s : State) : State :=
  match s.nodes.get id, received with
  | some n, some addr =>
    if n.ethAddress = 0 then s.save id { n with ethAddress := addr }
    else s
  | _, _ => s

def close (s : State) : State :=
  { s with store := s.nodes.entries.foldl (fun store entry => store.put entry.1 entry.2) s.store }

/- `n.LastBlock < state.Block-120`, with the subtraction of
   `uint64` -/
def late (s : State) (n : Node) : Bool :=
  decide (n.lastBlock < s.block - 120)

/- The miners that are listed. -/
def expireMiners (s : State) : List Hash :=
  (s.nodes.entries.filter (fun entry =>
    entry.2.active && entry.2.inactionTx.isNone && s.late entry.2)).map Prod.fst

/- The nodes with a report, and the transactions of it. -/
def reported (s : State) : List (Hash × Hash) :=
  s.nodes.entries.filterMap (fun entry => entry.2.inactionTx.map (fun tx => (entry.1, tx)))

end State

/- What happens to a running service, but for the reports. -/
inductive Event where
  | miner (id : Hash) (deposit active : Bool) (blockNumber : UInt64)
  | trust (id : Hash) (trust : Bool)
  | blockNumber (blockNumber : UInt64)
  | transactionStart
  | transactionEnd
  | lastBlock (id : Hash) (blockNumber : UInt64)
  | mineAddress (id : Hash) (received : Option EthAddress)
  | close
  deriving DecidableEq, Repr

def State.apply (mineTrust : Bool) (event : Event) (s : State) : State :=
  match event with
  | .miner id deposit active blockNumber => s.miner id deposit active blockNumber
  | .trust id trust => s.trust mineTrust id trust
  | .blockNumber blockNumber => s.updateBlockNumber blockNumber
  | .transactionStart => s.transactionStart
  | .transactionEnd => s.transactionEnd
  | .lastBlock id blockNumber => s.updateNodeLastBlock id blockNumber
  | .mineAddress id received => s.mineAddress id received
  | .close => s.close

---- What Is Stored

/- Every value is the stored form of a node under its key. -/
def Store.WellFormed (store : Store) : Prop :=
  ∀ id bytes, store.nodes.get id = some bytes → ∃ n : Node, bytes = n.marshalBinary id

namespace Store.WellFormed

variable {store : Store}

theorem put (hStore : store.WellFormed) (id : Hash) (n : Node) : (store.put id n).WellFormed := by
  intro other bytes hGet
  by_cases hSame : id = other
  · subst hSame
    rw [Store.put, Index.get_put_self] at hGet
    cases hGet
    exact ⟨n, rfl⟩
  · rw [Store.put, Index.get_put_of_ne _ hSame] at hGet
    exact hStore other bytes hGet

theorem empty : Store.empty.WellFormed := by
  intro id bytes hGet
  cases hGet

theorem close (hStore : store.WellFormed) (entries : List (Hash × Node)) :
    (entries.foldl (fun store entry => store.put entry.1 entry.2) store).WellFormed := by
  induction entries generalizing store with
  | nil => exact hStore
  | cons entry entries ih => exact ih (hStore.put _ _)

/- A node is listed under the key it is stored with. -/
theorem miners_eq (hStore : store.WellFormed) : store.miners = store.nodes.entries.map (fun entry =>
        (entry.1, (Node.unmarshalBinary entry.2).2)) := by
  apply List.map_congr_left
  rintro ⟨id, bytes⟩ hMem
  obtain ⟨n, rfl⟩ := hStore id bytes ((Index.mem_entries_iff store.nodes id bytes).mp hMem)
  rw [unmarshalBinary_marshalBinary]

/- The table of a service that starts over a clean store. -/
theorem get_new {id : Hash} (hStore : store.WellFormed)
    (hClean : store.dirty = false) (hGet : store.nodes.get id = some bytes) :
    (State.new startBlock store).nodes.get id = some (Node.unmarshalBinary bytes).2 := by
  unfold State.new
  rw [if_neg (by rw [hClean]; exact Bool.false_ne_true), hStore.miners_eq]
  apply Index.get_putEntries_of_mem
  · rw [List.map_map]
    exact Index.nodup_keys_entries store.nodes
  · exact List.mem_map.mpr ⟨(id, bytes), (Index.mem_entries_iff store.nodes id bytes).mpr hGet, rfl⟩

end Store.WellFormed

/- Every operation stores nodes in their stored form. -/
theorem apply_wellFormed {s : State} (hStore : s.store.WellFormed) (mineTrust : Bool)
    (event : Event) : (s.apply mineTrust event).store.WellFormed := by
  cases event with
  | miner id deposit active blockNumber => exact hStore.put id _
  | trust id trust =>
    simp only [State.apply, State.trust]
    split
    · exact hStore.put id _
    · split_ifs
      · exact hStore
      · exact hStore.put id _
  | blockNumber blockNumber =>
    simp only [State.apply, State.updateBlockNumber]
    split_ifs
    · exact hStore
    · exact hStore
  | transactionStart | transactionEnd => exact hStore
  | lastBlock id blockNumber =>
    simp only [State.apply, State.updateNodeLastBlock]
    split
    · exact hStore
    · split_ifs
      · exact hStore
      · exact hStore
  | mineAddress id received =>
    simp only [State.apply, State.mineAddress]
    split
    · split_ifs
      · exact hStore.put id _
      · exact hStore
    · exact hStore
  | close => exact hStore.close _

theorem new_wellFormed (hStore : store.WellFormed) (startBlock : UInt64) :
    (State.new startBlock store).store.WellFormed := by
  unfold State.new
  split_ifs
  · exact Store.WellFormed.empty
  · exact hStore

---- What Events Do to Nodes

/- The later form of a node: its last block is not lower and
   its report the same. -/
def Node.Grows (before after : Node) : Prop :=
  before.lastBlock ≤ after.lastBlock ∧ after.inactionTx = before.inactionTx

/- Nodes are kept in their later form, and a node that is new
   has no report. -/
structure Grows (before after : Index Hash Node) : Prop where
  kept : ∀ id n, before.get id = some n → ∃ n', after.get id = some n' ∧ n.Grows n'
  fresh : ∀ id n', before.get id = none → after.get id = some n' → n'.inactionTx = none

namespace Grows

variable {nodes : Index Hash Node}

theorem refl (nodes : Index Hash Node) : Grows nodes nodes where
  kept _ n hGet := ⟨n, hGet, UInt64.le_refl _, rfl⟩
  fresh _ _ hNone hGet := by
    rw [hNone] at hGet
    cases hGet

theorem put {id : Hash} (hKept : ∀ n, nodes.get id = some n → n.Grows next)
    (hFresh : nodes.get id = none → next.inactionTx = none) : Grows nodes (nodes.put id next) where
  kept other n hGet := by
    by_cases hSame : id = other
    · subst hSame
      exact ⟨next, Index.get_put_self .., hKept n hGet⟩
    · refine ⟨n, ?_, UInt64.le_refl _, rfl⟩
      rw [Index.get_put_of_ne _ hSame]
      exact hGet
  fresh other n' hNone hGet := by
    by_cases hSame : id = other
    · subst hSame
      rw [Index.get_put_self] at hGet
      cases hGet
      exact hFresh hNone
    · rw [Index.get_put_of_ne _ hSame, hNone] at hGet
      cases hGet

/- A node that is there is replaced. -/
theorem put_of_get {id : Hash} (hGet : nodes.get id = some n)
    (hKept : n.Grows next) : Grows nodes (nodes.put id next) := by
  apply put
  · intro old hOld
    obtain rfl := Option.some.inj (hGet.symm.trans hOld)
    exact hKept
  · intro hNone
    rw [hNone] at hGet
    cases hGet

end Grows

variable {s : State}

/- The height of a `Miner` event is recorded if the miner is
   active, and no event lowers a height. -/
theorem miner_lastBlock (old blockNumber : UInt64) (active : Bool) :
    let lastBlock := if active = true ∧ old < blockNumber then
        blockNumber
      else old
    old ≤ lastBlock ∧ (active = true → blockNumber ≤ lastBlock) := by
  intro lastBlock
  by_cases hHigher : active = true ∧ old < blockNumber
  · have hNew : lastBlock = blockNumber := if_pos hHigher
    rw [hNew]
    exact ⟨UInt64.le_of_lt hHigher.2, fun _ => UInt64.le_refl _⟩
  · have hOld : lastBlock = old := if_neg hHigher
    rw [hOld]
    refine ⟨UInt64.le_refl _, fun hActive => ?_⟩
    exact UInt64.not_lt.mp (fun hLess => hHigher ⟨hActive, hLess⟩)

theorem miner_grows (id : Hash) (deposit active : Bool) :
    Grows s.nodes (s.miner id deposit active blockNumber).nodes := by
  apply Grows.put
  · intro n hGet
    simp only [hGet, Option.getD_some]
    exact ⟨(miner_lastBlock n.lastBlock blockNumber active).1, rfl⟩
  · intro hNone
    simp only [hNone, Option.getD_none]

theorem trust_grows (mineTrust : Bool) (id : Hash) :
    Grows s.nodes (s.trust mineTrust id trust).nodes := by
  unfold State.trust
  split
  · rename_i n hGet
    exact .put_of_get hGet ⟨UInt64.le_refl _, rfl⟩
  · rename_i hNone
    split_ifs
    · exact .refl _
    · apply Grows.put
      · intro n hGet
        rw [hNone] at hGet
        cases hGet
      · intro _
        rfl

theorem updateNodeLastBlock_grows (id : Hash) :
    Grows s.nodes (s.updateNodeLastBlock id blockNumber).nodes := by
  unfold State.updateNodeLastBlock
  split
  · exact .refl _
  · rename_i n hGet
    split_ifs with hLow
    · exact .refl _
    · refine .put_of_get hGet ⟨?_, rfl⟩
      exact UInt64.le_of_lt (UInt64.not_le.mp hLow)

theorem mineAddress_grows (id : Hash) : Grows s.nodes (s.mineAddress id received).nodes := by
  unfold State.mineAddress
  split
  · rename_i n addr hGet
    split_ifs
    · exact .put_of_get hGet ⟨UInt64.le_refl _, rfl⟩
    · exact .refl _
  · exact .refl _

theorem apply_grows (mineTrust : Bool) (event : Event) :
    Grows s.nodes (s.apply mineTrust event).nodes := by
  cases event with
  | miner id deposit active blockNumber => exact miner_grows id deposit active
  | trust id trust => exact trust_grows mineTrust id
  | blockNumber blockNumber =>
    simp only [State.apply, State.updateBlockNumber]
    split_ifs
    · exact .refl _
    · exact .refl _
  | transactionStart | transactionEnd | close => exact .refl _
  | lastBlock id blockNumber => exact updateNodeLastBlock_grows id
  | mineAddress id received => exact mineAddress_grows id

/- The miners that are listed are active, have no report and
   are late. -/
theorem mem_expireMiners_iff {id : Hash} :
    id ∈ s.expireMiners ↔
      ∃ n, s.nodes.get id = some n ∧ n.active = true ∧ n.inactionTx = none ∧ s.late n = true := by
  constructor
  · intro hMem
    obtain ⟨⟨other, n⟩, hEntry, rfl⟩ := List.mem_map.mp hMem
    obtain ⟨hEntries, hListed⟩ := List.mem_filter.mp hEntry
    simp only [Bool.and_eq_true, Option.isNone_iff_eq_none] at hListed
    exact ⟨n, (Index.mem_entries_iff ..).mp hEntries, hListed.1.1, hListed.1.2, hListed.2⟩
  · rintro ⟨n, hGet, hActive, hReport, hLate⟩
    refine List.mem_map.mpr ⟨(id, n), ?_, rfl⟩
    refine List.mem_filter.mpr ⟨(Index.mem_entries_iff ..).mpr hGet, ?_⟩
    simp only [hActive, hReport, hLate, Option.isNone_none, Bool.and_self]

end NodeService

---- Runs With Restarts

namespace NodeService

open KeyValue Program

/- A service, and the heights at which it has recorded an
   activity of a miner. -/
structure Tracked where
  service : State
  recorded : List (Hash × UInt64)

/- The activity that is recorded with an event. -/
def Event.activity (event : Event) (s : State) : List (Hash × UInt64) :=
  match event with
  | .miner id _ true h => [(id, h)]
  | .lastBlock id h => if s.nodes.has id then [(id, h)] else []
  | _ => []

/- A service stops, in whatever way, and starts again. -/
inductive Label where
  | event (event : Event)
  | restart
  deriving DecidableEq, Repr

namespace Tracked

/- A service starts over a store. -/
def start (startBlock : UInt64) (store : Store) : Tracked where
  service := .new startBlock store
  recorded := []

def step (mineTrust : Bool) (startBlock : UInt64) (label : Label)
    (tracked : Tracked) : Option Tracked :=
  match label with
  | .event event =>
    some
      { service := tracked.service.apply mineTrust event
        recorded := tracked.recorded ++ event.activity tracked.service }
  | .restart => some { tracked with service := .new startBlock tracked.service.store }

end Tracked

/- No transaction is open, and the last block of every node
   is stored. -/
def State.Saved (s : State) : Prop :=
  s.store.dirty = false ∧
    ∀ id n, s.nodes.get id = some n →
      ∃ bytes, s.store.nodes.get id = some bytes ∧
        (Node.unmarshalBinary bytes).2.lastBlock = n.lastBlock

/- The service is stopped only when the heights are stored. -/
def StopsSaved (label : Label) (tracked : Tracked) : Prop :=
  match label with
  | .restart => tracked.service.Saved
  | .event _ => True

---- Clean Shutdowns

/- Nodes are put one after the other. -/
theorem foldl_put_nodes (store : Store) (entries : List (Hash × Node)) :
    (entries.foldl (fun store entry => store.put entry.1 entry.2) store).nodes =
      store.nodes.putEntries (entries.map (fun entry =>
          (entry.1, entry.2.marshalBinary entry.1))) := by
  induction entries generalizing store with
  | nil => rfl
  | cons entry entries ih => exact ih (store.put _ _)

theorem foldl_put_dirty (store : Store) (entries : List (Hash × Node)) :
    (entries.foldl (fun store entry => store.put entry.1 entry.2) store).dirty = store.dirty := by
  induction entries generalizing store with
  | nil => rfl
  | cons entry entries ih => exact ih (store.put _ _)

/- After `Close` a service can be stopped. -/
theorem saved_close {s : State} (hClean : s.store.dirty = false) : s.close.Saved := by
  refine ⟨(foldl_put_dirty ..).trans hClean, ?_⟩
  intro id n hGet
  refine ⟨n.marshalBinary id, ?_, ?_⟩
  · rw [State.close, foldl_put_nodes]
    apply Index.get_putEntries_of_mem
    · rw [List.map_map]
      exact Index.nodup_keys_entries s.nodes
    · exact List.mem_map.mpr ⟨(id, n), (Index.mem_entries_iff ..).mpr hGet, rfl⟩
  · rw [unmarshalBinary_marshalBinary]
    rfl

---- Heights Are Remembered

/- The last block of a node is not below what was recorded. -/
structure Remembers (tracked : Tracked) : Prop where
  wellFormed : tracked.service.store.WellFormed
  heights :
    ∀ id h, (id, h) ∈ tracked.recorded →
      ∃ n, tracked.service.nodes.get id = some n ∧ h ≤ n.lastBlock

variable {mineTrust : Bool}
variable {startBlock : UInt64}
variable {tracked after : Tracked}
variable {label : Label}

theorem miner_records (s : State) (id : Hash) (deposit : Bool) :
    ∃ n, (s.miner id deposit true blockNumber).nodes.get id =
      some n ∧ blockNumber ≤ n.lastBlock := by
  refine ⟨_, Index.get_put_self .., ?_⟩
  exact (miner_lastBlock _ blockNumber true).2 rfl

theorem updateNodeLastBlock_records {s : State} {id : Hash} (hKnown : s.nodes.has id = true) :
    ∃ n, (s.updateNodeLastBlock id blockNumber).nodes.get id =
      some n ∧ blockNumber ≤ n.lastBlock := by
  obtain ⟨n, hGet⟩ := Option.isSome_iff_exists.mp hKnown
  unfold State.updateNodeLastBlock
  rw [hGet]
  dsimp only
  split_ifs with hLow
  · exact ⟨n, hGet, hLow⟩
  · exact ⟨_, Index.get_put_self .., UInt64.le_refl _⟩

/- What is recorded with an event is remembered after it. -/
theorem activity_recorded {s : State} {id : Hash} (hActivity : (id, h) ∈ event.activity s) :
    ∃ n, (s.apply mineTrust event).nodes.get id = some n ∧ h ≤ n.lastBlock := by
  cases event with
  | miner other deposit active blockNumber =>
    cases active with
    | true =>
      cases List.mem_singleton.mp hActivity
      exact miner_records s id deposit
    | false => cases hActivity
  | lastBlock other blockNumber =>
    unfold Event.activity at hActivity
    dsimp only at hActivity
    split_ifs at hActivity with hKnown
    · cases List.mem_singleton.mp hActivity
      exact updateNodeLastBlock_records hKnown
    · cases hActivity
  | trust | blockNumber | transactionStart | transactionEnd | mineAddress
  | close => cases hActivity

namespace Remembers

theorem start (hStore : store.WellFormed) : Remembers (.start startBlock store) where
  wellFormed := new_wellFormed hStore startBlock
  heights _ _ hMem := nomatch hMem

theorem event (hRemembers : Remembers tracked) (event : Event) : Remembers
      { service := tracked.service.apply mineTrust event
        recorded := tracked.recorded ++ event.activity tracked.service } where
  wellFormed := apply_wellFormed hRemembers.wellFormed mineTrust event
  heights id h hMem := by
    rcases List.mem_append.mp hMem with hOld | hNew
    · obtain ⟨n, hGet, hHeight⟩ := hRemembers.heights id h hOld
      obtain ⟨n', hAfter, hGrows⟩ := (apply_grows mineTrust event).kept id n hGet
      exact ⟨n', hAfter, UInt64.le_trans hHeight hGrows.1⟩
    · exact activity_recorded hNew

theorem restart (hRemembers : Remembers tracked) (hSaved : tracked.service.Saved) : Remembers
      { tracked with
        service :=
          .new startBlock tracked.service.store } where
  wellFormed := new_wellFormed hRemembers.wellFormed startBlock
  heights id h hMem := by
    obtain ⟨n, hGet, hHeight⟩ := hRemembers.heights id h hMem
    obtain ⟨bytes, hBytes, hSame⟩ := hSaved.2 id n hGet
    exact ⟨_, hRemembers.wellFormed.get_new hSaved.1 hBytes, hSame ▸ hHeight⟩

theorem step (hRemembers : Remembers tracked) (hStops : StopsSaved label tracked)
    (hStep : tracked.step mineTrust startBlock label = some after) : Remembers after := by
  cases label with
  | event event =>
    cases hStep
    exact hRemembers.event event
  | restart =>
    cases hStep
    exact hRemembers.restart hStops

end Remembers

/- A node is not late within 120 blocks of its last block. -/
theorem late_eq_false {s : State} (hHigh : 120 ≤ s.block)
    (hRecent : s.block.toNat ≤ n.lastBlock.toNat + 120) : s.late n = false := by
  apply decide_eq_false
  rw [UInt64.not_lt, UInt64.le_iff_toNat_le, UInt64.toNat_sub_of_le _ _ hHigh]
  have hConst : (120 : UInt64).toNat = 120 := rfl
  omega

/- A miner with an activity at most 120 blocks ago is not listed. -/
theorem responsive_not_listed (mineTrust : Bool) (startBlock : UInt64) (store : Store)
    (hStore : store.WellFormed) (tracked : Tracked)
    (hReach :
      Reach (Stepping (Tracked.step mineTrust startBlock))
        StopsSaved (.start startBlock store) tracked) (hHigh : 120 ≤ tracked.service.block)
    (id : Hash) (h : UInt64) (hRecorded : (id, h) ∈ tracked.recorded)
    (hRecent : tracked.service.block.toNat ≤ h.toNat + 120) :
    id ∉ tracked.service.expireMiners := by
  have hRemembers : Remembers tracked :=
    hReach.invariant Remembers (.start hStore)
      (fun _ _ _ hInv hStops hStep => hInv.step hStops hStep)
  obtain ⟨n, hGet, hHeight⟩ := hRemembers.heights id h hRecorded
  intro hListed
  obtain ⟨n', hGet', -, -, hLate⟩ := mem_expireMiners_iff.mp hListed
  obtain rfl := Option.some.inj (hGet.symm.trans hGet')
  have hNat : h.toNat ≤ n.lastBlock.toNat := UInt64.le_iff_toNat_le.mp hHeight
  rw [late_eq_false hHigh (by omega)] at hLate
  cases hLate

/- Take steps from a service that starts over an empty store
   at block 0. -/
def trackAll (labels : List Label) : Option Tracked :=
  follow (Tracked.step true 0) labels (.start 0 .empty)

/- A miner is active at block 1000 and answers at 1300. -/
def answered : List Label :=
  [.event (.miner 1 true true 1000), .event (.blockNumber 1300), .event (.lastBlock 1 1300)]

/- The service is closed and starts again. -/
theorem responsive_not_listed_closed :
    ∃ tracked, Reach (Stepping (Tracked.step true 0)) StopsSaved (.start 0 .empty) tracked ∧
      (1, 1300) ∈ tracked.recorded ∧ 1 ∉ tracked.service.expireMiners := by
  let tracked := (trackAll answered).get rfl
  have hAnswered : Reach (Stepping (Tracked.step true 0)) StopsSaved (.start 0 .empty) tracked := by
    refine Reach.start.follow ?_ (Option.some_get _).symm
    intro label hMem state
    fin_cases hMem <;> trivial
  have hDirty : tracked.service.store.dirty = false := by decide +kernel
  have hClosed := hAnswered.step (Label.event .close) trivial rfl
  have hReach := hClosed.step Label.restart (saved_close hDirty) rfl
  have hMem : (1, 1300) ∈ tracked.recorded ++ [] := by decide +kernel
  refine ⟨_, hReach, hMem, ?_⟩
  exact responsive_not_listed true 0 .empty .empty _ hReach (by decide +kernel) 1 1300 hMem
    (by decide +kernel)

/-
  At block 50 every active miner is listed.  A crash loses the answer at block 1300, and the miner
  is listed at that block.
-/
theorem responsive_listed :
    (∃ tracked, Reach (Stepping (Tracked.step true 0)) (fun _ _ => True) (.start 0 .empty) tracked ∧
      (1, 40) ∈ tracked.recorded ∧ tracked.service.block = 50 ∧ 1 ∈ tracked.service.expireMiners) ∧
    ∃ tracked, Reach (Stepping (Tracked.step true 0)) (fun _ _ => True) (.start 0 .empty) tracked ∧
      (1, 1300) ∈ tracked.recorded ∧ tracked.service.block = 1300 ∧
      1 ∈ tracked.service.expireMiners := by
  have hRun (labels : List Label) (tracked : Tracked) (hTracked : trackAll labels = some tracked) :
      Reach (Stepping (Tracked.step true 0)) (fun _ _ => True) (.start 0 .empty) tracked :=
    Reach.start.follow (fun _ _ _ => trivial) hTracked
  refine ⟨?_, ?_⟩
  · refine ⟨_, hRun [.event (.miner 1 true true 40), .event (.blockNumber 50)] _ rfl, ?_⟩
    decide +kernel
  · refine ⟨_, hRun (answered ++ [.restart]) _ rfl, ?_⟩
    decide +kernel

end NodeService

end Sana.Mine
