import Sana.Program.Call
import Sana.Swarm.Address

/-
  The localstore database: its indexes, the items that carry data between them, and write batches.

  Each index keeps the keys and values that its encoding functions in `localstore.New` write.  A
  write batch is the list of its records; `Store.writeBatch` applies them in order, as LevelDB does.

  All chunks of one call of `Put` share one batch and one map of bin IDs.  Reads go to the database,
  so a chunk does not see the records of the chunks before it in the same call.  `collectGarbage`
  takes its candidates without the lock and commits under it.  `unreserveBatch` takes no lock; it
  writes one batch for every proximity bin, then the radius, and the size of the reserve at the very
  end.

  Key definitions include:
    * `Item`
    * `Chunk`
-/

---- Items And Chunks

namespace Sana.Localstore

open KeyValue Swarm

abbrev BatchID :=
  BitVec 256

/-
  `shed.Item`.  A byte field that is nil in the source has its zero value here: every encoding
  function copies a nil slice into a zeroed buffer.  The depth fields of the source are read by no
  function modelled here.
-/
structure Item where
  address : Address := 0
  data : List UInt8 := []
  accessTimestamp : Nat := 0
  storeTimestamp : Nat := 0
  binID : Nat := 0
  pinCounter : Nat := 0
  tag : Nat := 0
  batchID : BatchID := 0
  index : UInt64 := 0
  timestamp : UInt64 := 0
  sig : List UInt8 := []
  radius : Nat := 0
  immutable : Bool := false
  deriving DecidableEq, Repr

/- `postage.Stamp`. -/
structure Stamp where
  batchID : BatchID
  index : UInt64
  timestamp : UInt64
  sig : List UInt8 := []
  deriving DecidableEq, Repr

/- `swarm.Chunk` with the batch parameters attached to it. -/
structure Chunk where
  address : Address
  data : List UInt8
  tagID : Nat := 0
  stamp : Stamp
  radius : Nat := 0
  immutable : Bool := false
  deriving DecidableEq, Repr

@[simps] def chunkToItem (ch : Chunk) : Item where
  address := ch.address
  data := ch.data
  tag := ch.tagID
  batchID := ch.stamp.batchID
  index := ch.stamp.index
  timestamp := ch.stamp.timestamp
  sig := ch.stamp.sig
  radius := ch.radius
  immutable := ch.immutable

@[simps] def addressToItem (addr : Address) : Item where
  address := addr

---- Keys And Values

/- Key of `pushIndex`: `StoreTimestamp|Hash`. -/
structure PushKey where
  storeTimestamp : Nat
  address : Address
  deriving DecidableEq, Repr

/- Key of `pullIndex`: `PO|BinID`. -/
structure PullKey where
  po : Nat
  binID : Nat
  deriving DecidableEq, Repr

/- Key of `gcIndex`: `AccessTimestamp|BinID|Hash`. -/
structure GCKey where
  accessTimestamp : Nat
  binID : Nat
  address : Address
  deriving DecidableEq, Repr

/- Key of `postageChunksIndex`: `BatchID|PO|Hash`. -/
structure PostageChunksKey where
  batchID : BatchID
  po : Nat
  address : Address
  deriving DecidableEq, Repr

/- Key of `postageIndexIndex`: `BatchID|BatchIndex`. -/
structure PostageIndexKey where
  batchID : BatchID
  index : UInt64
  deriving DecidableEq, Repr

instance : Ord PushKey where
  compare := compareKeys PushKey.storeTimestamp PushKey.address

instance : Std.TransOrd PushKey :=
  inferInstanceAs (Std.TransCmp (compareLex _ _))

instance : Std.LawfulEqOrd PushKey where
  eq_of_compare {left right} hEq := by
    rcases left with ⟨leftTime, leftAddress⟩
    rcases right with ⟨rightTime, rightAddress⟩
    have hParts := eq_of_compareKeys hEq
    simp_all

instance : Ord PullKey where
  compare := compareKeys PullKey.po PullKey.binID

instance : Std.TransOrd PullKey :=
  inferInstanceAs (Std.TransCmp (compareLex _ _))

instance : Std.LawfulEqOrd PullKey where
  eq_of_compare {left right} hEq := by
    rcases left with ⟨leftPO, leftBin⟩
    rcases right with ⟨rightPO, rightBin⟩
    have hParts := eq_of_compareKeys hEq
    simp_all

instance : Ord GCKey where
  compare := compareLex (compareKeys GCKey.accessTimestamp GCKey.binID) (compareOn GCKey.address)

instance : Std.TransOrd GCKey :=
  inferInstanceAs (Std.TransCmp (compareLex _ _))

instance : Std.LawfulEqOrd GCKey where
  eq_of_compare {left right} hEq := by
    rcases left with ⟨leftTime, leftBin, leftAddress⟩
    rcases right with ⟨rightTime, rightBin, rightAddress⟩
    have hOuter := Ordering.then_eq_eq.mp hEq
    have hParts := eq_of_compareKeys hOuter.1
    simpa [compareOn, hParts, and_assoc] using And.intro hParts hOuter.2

instance : Ord PostageChunksKey where
  compare :=
    compareLex (compareKeys PostageChunksKey.batchID PostageChunksKey.po)
      (compareOn PostageChunksKey.address)

instance : Std.TransOrd PostageChunksKey :=
  inferInstanceAs (Std.TransCmp (compareLex _ _))

instance : Std.LawfulEqOrd PostageChunksKey where
  eq_of_compare {left right} hEq := by
    rcases left with ⟨leftBatch, leftPO, leftAddress⟩
    rcases right with ⟨rightBatch, rightPO, rightAddress⟩
    have hOuter := Ordering.then_eq_eq.mp hEq
    have hParts := eq_of_compareKeys hOuter.1
    simpa [compareOn, hParts, and_assoc] using And.intro hParts hOuter.2

instance : Ord PostageIndexKey where
  compare := compareKeys PostageIndexKey.batchID PostageIndexKey.index

instance : Std.TransOrd PostageIndexKey :=
  inferInstanceAs (Std.TransCmp (compareLex _ _))

instance : Std.LawfulEqOrd PostageIndexKey where
  eq_of_compare {left right} hEq := by
    rcases left with ⟨leftBatch, leftIndex⟩
    rcases right with ⟨rightBatch, rightIndex⟩
    have hParts := eq_of_compareKeys hEq
    simp_all

/- Value of `retrievalDataIndex`. -/
structure RetrievalData where
  binID : Nat
  storeTimestamp : Nat
  stamp : Stamp
  data : List UInt8
  deriving DecidableEq, Repr

/- Value of `pullIndex`. -/
structure PullValue where
  address : Address
  batchID : BatchID
  deriving DecidableEq, Repr

/- Value of `gcIndex`. -/
structure GCValue where
  batchID : BatchID
  index : UInt64
  deriving DecidableEq, Repr

/- Value of `postageIndexIndex`. -/
structure PostageIndexValue where
  address : Address
  timestamp : UInt64
  deriving DecidableEq, Repr

---- The Database

/-
  The contents of the database.  A `Uint64Field` or an element of a `Uint64Vector` that was never
  written reads as zero.
-/
structure Store where
  retrievalDataIndex : Index Address RetrievalData
  retrievalAccessIndex : Index Address Nat
  pushIndex : Index PushKey Nat
  pullIndex : Index PullKey PullValue
  binIDs : Index Nat Nat
  gcIndex : Index GCKey GCValue
  pinIndex : Index Address Nat
  postageChunksIndex : Index PostageChunksKey Unit
  postageRadiusIndex : Index BatchID Nat
  postageIndexIndex : Index PostageIndexKey PostageIndexValue
  gcSize : Nat
  reserveSize : Nat

/- The database of a new localstore. -/
def Store.empty : Store where
  retrievalDataIndex := .empty
  retrievalAccessIndex := .empty
  pushIndex := .empty
  pullIndex := .empty
  binIDs := .empty
  gcIndex := .empty
  pinIndex := .empty
  postageChunksIndex := .empty
  postageRadiusIndex := .empty
  postageIndexIndex := .empty
  gcSize := 0
  reserveSize := 0

/- One record of a write batch.  A record without a value deletes its key. -/
inductive Write where
  | retrievalData (key : Address) (value : Option RetrievalData)
  | retrievalAccess (key : Address) (value : Option Nat)
  | push (key : PushKey) (value : Option Nat)
  | pull (key : PullKey) (value : Option PullValue)
  | gc (key : GCKey) (value : Option GCValue)
  | pin (key : Address) (value : Option Nat)
  | postageChunks (key : PostageChunksKey) (value : Option Unit)
  | postageRadius (key : BatchID) (value : Option Nat)
  | postageIndex (key : PostageIndexKey) (value : Option PostageIndexValue)
  | binID (po : Nat) (value : Nat)
  | gcSize (value : Nat)
  | reserveSize (value : Nat)
  deriving DecidableEq, Repr

/- `leveldb.Batch`. -/
abbrev Batch :=
  List Write

/- Apply one record. -/
def Store.write (s : Store) : Write → Store
| .retrievalData key value => { s with retrievalDataIndex := s.retrievalDataIndex.set key value }
| .retrievalAccess key value =>
  { s with retrievalAccessIndex := s.retrievalAccessIndex.set key value }
| .push key value => { s with pushIndex := s.pushIndex.set key value }
| .pull key value => { s with pullIndex := s.pullIndex.set key value }
| .gc key value => { s with gcIndex := s.gcIndex.set key value }
| .pin key value => { s with pinIndex := s.pinIndex.set key value }
| .postageChunks key value => { s with postageChunksIndex := s.postageChunksIndex.set key value }
| .postageRadius key value => { s with postageRadiusIndex := s.postageRadiusIndex.set key value }
| .postageIndex key value => { s with postageIndexIndex := s.postageIndexIndex.set key value }
| .binID po value => { s with binIDs := s.binIDs.put po value }
| .gcSize value => { s with gcSize := value }
| .reserveSize value => { s with reserveSize := value }

/- `shed.WriteBatch`: apply all records in order. -/
def Store.writeBatch (s : Store) (batch : Batch) : Store :=
  batch.foldl Store.write s

@[simp] theorem Store.writeBatch_nil (s : Store) : s.writeBatch [] = s := rfl

@[simp] theorem Store.writeBatch_cons (s : Store) (record : Write) (batch : Batch) :
    s.writeBatch (record :: batch) = (s.write record).writeBatch batch := rfl

theorem Store.writeBatch_append (s : Store) (first second : Batch) :
    s.writeBatch (first ++ second) = (s.writeBatch first).writeBatch second :=
  List.foldl_append

/-
  The parts of `localstore.DB` that change: the database, and the addresses recorded while garbage
  is collected.
-/
structure DB where
  store : Store
  gcRunning : Bool := false
  dirtyAddresses : List Address := []

def DB.writeBatch (batch : Batch) (db : DB) : DB :=
  { db with store := db.store.writeBatch batch }

/- Record addresses as dirty while garbage is collected. -/
def DB.markDirty (addrs : List Address) (db : DB) : DB :=
  if db.gcRunning then { db with dirtyAddresses := db.dirtyAddresses ++ addrs }
  else db

/- Errors the modelled functions return. -/
inductive Err where
  | notFound
  | overwrite
  | invalidMode
  | tagInc
  deriving DecidableEq, Repr

/-
  What `localstore.New` fixes.  `gcTarget` is the value of the function of this name, a
  floating-point product of the cache capacity.  `tagInc` is the result of incrementing the synced
  counter of a tag, when tags are configured; a tag that is not found counts as incremented, since
  the source only logs that.
-/
structure Config where
  baseKey : Address
  gcTarget : Nat
  gcBatchSize : Nat := 2000
  tagInc : Option (Nat → Except Err Unit) := none

/- The proximity order of an address to the base key. -/
def Config.po (cfg : Config) (addr : Address) : Nat :=
  proximity cfg.baseKey addr

---- Index Access Through Items

namespace Item

def pushKey (item : Item) : PushKey :=
  ⟨item.storeTimestamp, item.address⟩

def pullKey (cfg : Config) (item : Item) : PullKey :=
  ⟨cfg.po item.address, item.binID⟩

def gcKey (item : Item) : GCKey :=
  ⟨item.accessTimestamp, item.binID, item.address⟩

def postageChunksKey (cfg : Config) (item : Item) : PostageChunksKey :=
  ⟨item.batchID, cfg.po item.address, item.address⟩

def postageIndexKey (item : Item) : PostageIndexKey :=
  ⟨item.batchID, item.index⟩

/- Records that `PutInBatch` adds for an item. -/

def putRetrievalData (item : Item) : Write :=
  .retrievalData item.address (some
      { binID := item.binID
        storeTimestamp := item.storeTimestamp
        stamp := ⟨item.batchID, item.index, item.timestamp, item.sig⟩
        data := item.data })

def putRetrievalAccess (item : Item) : Write :=
  .retrievalAccess item.address (some item.accessTimestamp)

def putPush (item : Item) : Write :=
  .push item.pushKey (some item.tag)

def putPull (cfg : Config) (item : Item) : Write :=
  .pull (item.pullKey cfg) (some ⟨item.address, item.batchID⟩)

def putGC (item : Item) : Write :=
  .gc item.gcKey (some ⟨item.batchID, item.index⟩)

def putPin (item : Item) : Write :=
  .pin item.address (some item.pinCounter)

def putPostageChunks (cfg : Config) (item : Item) : Write :=
  .postageChunks (item.postageChunksKey cfg) (some ())

def putPostageRadius (item : Item) : Write :=
  .postageRadius item.batchID (some item.radius)

def putPostageIndex (item : Item) : Write :=
  .postageIndex item.postageIndexKey (some ⟨item.address, item.timestamp⟩)

/- Records that `DeleteInBatch` adds for an item. -/

def deleteRetrievalData (item : Item) : Write :=
  .retrievalData item.address none

def deleteRetrievalAccess (item : Item) : Write :=
  .retrievalAccess item.address none

def deletePush (item : Item) : Write :=
  .push item.pushKey none

def deletePull (cfg : Config) (item : Item) : Write :=
  .pull (item.pullKey cfg) none

def deleteGC (item : Item) : Write :=
  .gc item.gcKey none

def deletePin (item : Item) : Write :=
  .pin item.address none

def deletePostageChunks (cfg : Config) (item : Item) : Write :=
  .postageChunks (item.postageChunksKey cfg) none

def deletePostageRadius (item : Item) : Write :=
  .postageRadius item.batchID none

def deletePostageIndex (item : Item) : Write :=
  .postageIndex item.postageIndexKey none

/-
  `Item.Merge` on a number: a decoded zero is filled in from the fields of the key.  Decoded byte
  fields are never empty, so they always replace those of the key.
-/
def mergeField (decoded keyField : Nat) : Nat :=
  if decoded = 0 then keyField else decoded

end Item

namespace Store

/- `retrievalDataIndex.Get`. -/
def getRetrievalData (s : Store) (item : Item) : Option Item :=
  (s.retrievalDataIndex.get item.address).map fun value =>
    { item with
      storeTimestamp := Item.mergeField value.storeTimestamp item.storeTimestamp
      binID := Item.mergeField value.binID item.binID
      batchID := value.stamp.batchID
      index := value.stamp.index
      timestamp := value.stamp.timestamp
      sig := value.stamp.sig
      data := value.data }

/- `retrievalAccessIndex.Get`. -/
def getRetrievalAccess (s : Store) (item : Item) : Option Item :=
  (s.retrievalAccessIndex.get item.address).map fun value =>
    { item with accessTimestamp := Item.mergeField value item.accessTimestamp }

/- `pushIndex.Get`. -/
def getPush (s : Store) (item : Item) : Option Item :=
  (s.pushIndex.get item.pushKey).map fun value =>
    { item with tag := Item.mergeField value item.tag }

/- `pinIndex.Get`. -/
def getPin (s : Store) (item : Item) : Option Item :=
  (s.pinIndex.get item.address).map fun value =>
    { item with pinCounter := Item.mergeField value item.pinCounter }

/- `postageRadiusIndex.Get`. -/
def getPostageRadius (s : Store) (item : Item) : Option Item :=
  (s.postageRadiusIndex.get item.batchID).map fun value =>
    { item with radius := Item.mergeField value item.radius }

/- `postageIndexIndex.Get`. -/
def getPostageIndex (s : Store) (item : Item) : Option Item :=
  (s.postageIndexIndex.get item.postageIndexKey).map fun value =>
      { item with
        address := value.address
        timestamp := value.timestamp }

/- `binIDs.Get`. -/
def getBinID (s : Store) (po : Nat) : Nat :=
  (s.binIDs.get po).getD 0

end Store

end Sana.Localstore

---- Counters

namespace Sana.Localstore

open Program Swarm

/- The new value of a counter, or none when a decrement would take it below zero and is dropped. -/
def changedSize (size : Nat) (change : Int) : Option Nat :=
  if 0 < change then some (size + change.toNat)
  else
    let c := (-change).toNat
    if c > size then none else some (size - c)

def incGCSizeInBatch (batch : Batch) (change : Int) : Call DB Batch := do
  if change = 0 then return batch
  let gcSize ← Call.get fun db => db.store.gcSize
  match changedSize gcSize change with
  | none => return batch
  | some newSize => return batch ++ [.gcSize newSize]

def incReserveSizeInBatch (batch : Batch) (change : Int) : Call DB Batch := do
  if change = 0 then return batch
  let reserveSize ← Call.get fun db => db.store.reserveSize
  match changedSize reserveSize change with
  | none => return batch
  | some newSize => return batch ++ [.reserveSize newSize]

---- Removing And Pinning

/-
  Remove a chunk.  Neither `pushIndex` nor `postageIndexIndex` is touched.  With `check`, the pin is
  deleted only when the chunk has no entry in the gc index.
-/
def setRemove (cfg : Config) (batch : Batch) (item : Item) (check : Bool) :
    Call DB (Batch × Except Err Int) := do
  let item ← if item.accessTimestamp = 0 then
      let i ← Call.get fun db => db.store.getRetrievalAccess item
      match i with
      | some i => pure { item with accessTimestamp := i.accessTimestamp }
      | none => pure item
    else pure item
  let found ← if item.storeTimestamp = 0 then
      Call.get fun db => db.store.getRetrievalData item
    else pure (some item)
  match found with
  | none => return (batch, .error .notFound)
  | some item =>
    let batch := batch ++
      [item.deleteRetrievalData, item.deleteRetrievalAccess, item.deletePull cfg,
        item.deletePostageChunks cfg]
    if check then
      let inGC ← Call.get fun db => db.store.gcIndex.has item.gcKey
      if !inGC then return (batch ++ [item.deletePin], .ok 0)
    return (batch ++ [item.deleteGC], .ok (-1))

/-
  Increment the pin counter.  A chunk that was not pinned but has an access timestamp is taken out
  of the gc index, and counted as taken out without looking whether it was there.
-/
def setPin (batch : Batch) (item : Item) : Call DB (Batch × Except Err Int) := do
  let pinned ← Call.get fun db => db.store.getPin item
  match pinned with
  | some i =>
    let item := { item with pinCounter := i.pinCounter + 1 }
    return (batch ++ [item.putPin], .ok 0)
  | none =>
    let access ← Call.get fun db => db.store.getRetrievalAccess item
    match access with
    | none =>
      let item := { item with pinCounter := 1 }
      return (batch ++ [item.putPin], .ok 0)
    | some i =>
      let item := { item with accessTimestamp := i.accessTimestamp }
      let data ← Call.get fun db => db.store.getRetrievalData item
      match data with
      | none => return (batch, .error .notFound)
      | some i =>
        let item := { item with
          storeTimestamp := i.storeTimestamp
          binID := i.binID
          pinCounter := 1 }
        return (batch ++ [item.deleteGC, item.putPin], .ok (-1))

/-
  Decrement the pin counter.  The last pin puts the chunk into the gc index unless it still waits to
  be pushed.  The item gets its batch ID but not its stamp index.
-/
def setUnpin (batch : Batch) (addr : Address) : Call DB (Batch × Except Err Int) := do
  let item := addressToItem addr
  let pinned ← Call.get fun db => db.store.getPin item
  match pinned with
  | none => return (batch, .error .notFound)
  | some i =>
    let item := { item with pinCounter := i.pinCounter }
    if item.pinCounter > 1 then
      let item := { item with pinCounter := item.pinCounter - 1 }
      return (batch ++ [item.putPin], .ok 0)
    let batch := batch ++ [item.deletePin]
    let data ← Call.get fun db => db.store.getRetrievalData item
    match data with
    | none => return (batch, .error .notFound)
    | some i =>
      let item := { item with
        storeTimestamp := i.storeTimestamp
        binID := i.binID
        batchID := i.batchID }
      let pushed ← Call.get fun db => db.store.getPush item
      if pushed.isSome then return (batch, .ok 0)
      let access ← Call.get fun db => db.store.getRetrievalAccess item
      match access with
      | none =>
        let now ← Call.clockReading
        let item := { item with accessTimestamp := now }
        return (batch ++ [item.putRetrievalAccess, item.putGC], .ok 1)
      | some i =>
        let item := { item with accessTimestamp := i.accessTimestamp }
        return (batch ++ [item.putGC], .ok 1)

---- Reserve Or Cache

def withinRadius (cfg : Config) (item : Item) : Bool :=
  cfg.po item.address ≥ item.radius

/- Pin a chunk for the reserve, or enter it in the gc index. -/
def preserveOrCache (cfg : Config) (batch : Batch) (item : Item) (forcePin forceCache : Bool) :
    Call DB (Batch × Except Err Int) := do
  if !forceCache && (withinRadius cfg item || forcePin) then
    let batch ← if !forcePin then incReserveSizeInBatch batch 1
      else pure batch
    setPin batch item
  else
    let pinned ← Call.get fun db => db.store.pinIndex.has item.address
    if pinned then return (batch, .ok 0)
    let inGC ← Call.get fun db => db.store.gcIndex.has item.gcKey
    if inGC then return (batch, .ok 0)
    return (batch ++ [item.putGC], .ok 1)

/- Count the tag of a pushed item as synced. -/
def incTag (cfg : Config) (pushed : Option Item) : Except Err Unit :=
  match pushed, cfg.tagInc with
  | some i, some inc => if i.tag ≠ 0 then inc i.tag else .ok ()
  | _, _ => .ok ()

/- Handle a push sync receipt.  The item is rebuilt from the address, so its radius is zero. -/
def setSync (cfg : Config) (batch : Batch) (addr : Address) : Call DB (Batch × Except Err Int) := do
  let item := addressToItem addr
  let data ← Call.get fun db => db.store.getRetrievalData item
  match data with
  | none => return (batch ++ [item.deletePush], .ok 0)
  | some i =>
    let item := { item with
      storeTimestamp := i.storeTimestamp
      binID := i.binID
      batchID := i.batchID
      index := i.index
      timestamp := i.timestamp }
    let pushed ← Call.get fun db => db.store.getPush item
    match incTag cfg pushed with
    | .error e => return (batch, .error e)
    | .ok () =>
      let batch := batch ++ [item.deletePush]
      let access ← Call.get fun db => db.store.getRetrievalAccess item
      match access with
      | none =>
        let now ← Call.clockReading
        let item := { item with accessTimestamp := now }
        preserveOrCache cfg (batch ++ [item.putRetrievalAccess]) item false false
      | some i =>
        let item := { item with accessTimestamp := i.accessTimestamp }
        preserveOrCache cfg batch item false false

---- Set

/- `storage.ModeSet`; the source accepts any integer. -/
inductive ModeSet where
  | sync
  | remove
  | pin
  | unpin
  | unknown
  deriving DecidableEq, Repr

/- What one mode does for one address. -/
def setOne (cfg : Config) (mode : ModeSet) (batch : Batch) (addr : Address) :
    Call DB (Batch × Except Err Int) :=
  match mode with
  | .sync => setSync cfg batch addr
  | .remove => setRemove cfg batch (addressToItem addr) true
  | .pin => setPin batch (addressToItem addr)
  | .unpin => setUnpin batch addr
  | .unknown => pure (batch, .error .invalidMode)

/- The loop over the addresses of one call. -/
def setAll (cfg : Config) (mode : ModeSet) :
    List Address → Batch → Int → Call DB (Except Err (Batch × Int))
| [], batch, gcSizeChange => return .ok (batch, gcSizeChange)
| addr :: addrs, batch, gcSizeChange => do
    match ← setOne cfg mode batch addr with
    | (_, .error e) => return .error e
    | (batch, .ok c) => setAll cfg mode addrs batch (gcSizeChange + c)

def set (cfg : Config) (mode : ModeSet) (addrs : List Address) : Call DB (Except Err Unit) := do
  Call.acquire
  Call.set (DB.markDirty addrs)
  let result ← if mode = .unknown then
      pure (.error .invalidMode)
    else setAll cfg mode addrs [] 0
  match result with
  | .error e =>
    Call.release
    return .error e
  | .ok (batch, gcSizeChange) =>
    let batch ← incGCSizeInBatch batch gcSizeChange
    Call.set (DB.writeBatch batch)
    Call.release
    return .ok ()

end Sana.Localstore

---- Helpers

namespace Sana.Localstore

open KeyValue Program Swarm

/- The map of bin IDs that one call fills lazily. -/
abbrev BinIDs :=
  Index Nat Nat

def later (previous current : Item) : Bool :=
  current.timestamp > previous.timestamp

def containsChunk (addr : Address) (chs : List Chunk) : Bool :=
  chs.any fun ch => addr == ch.address

def incBinID (binIDs : BinIDs) (po : Nat) : Call DB (BinIDs × Nat) := do
  let id ← match binIDs.get po with
    | some id => pure id
    | none => Call.get fun db => db.store.getBinID po
  return (binIDs.put po (id + 1), id + 1)

/- What became of the previous chunk of a stamp index. -/
inductive Previous where
  | absent
  | kept
  | removed (gcSizeChange : Int)
  deriving DecidableEq, Repr

/- The change of the gc size that a removal reports. -/
def Previous.gcSizeChange : Previous → Int
| .removed c => c
| _ => 0

/-
  The common start of the three put functions: a chunk with the same stamp index is removed if the
  stamp of the new chunk is later, and stays in place of the new chunk otherwise.
-/
def replacePrevious (cfg : Config) (batch : Batch) (item : Item) :
    Call DB (Batch × Except Err Previous) := do
  let previous ← Call.get fun db => db.store.getPostageIndex item
  match previous with
  | none => return (batch, .ok .absent)
  | some previous =>
    if item.immutable then return (batch, .error .overwrite)
    if !later previous item then return (batch, .ok .kept)
    match ← setRemove cfg batch previous true with
    | (batch, .error e) => return (batch, .error e)
    | (batch, .ok c) => return (batch, .ok (.removed c))

/-
  After a replacement, requests and syncs give back one chunk of the reserve if the new chunk lies
  within the radius that its batch was unreserved to.
-/
def releaseReserve (cfg : Config) (batch : Batch) (item : Item)
    (previous : Previous) : Call DB Batch := do
  match previous with
  | .removed _ =>
    let radius ← Call.get fun db => db.store.getPostageRadius item
    match radius with
    | none => return batch
    | some radius =>
      if cfg.po item.address ≥ radius.radius then incReserveSizeInBatch batch (-1)
      else return batch
  | _ => return batch

---- Put Functions

/- The end of `putRequest`, once the chunk is to be stored. -/
def storeRequest (cfg : Config) (batch : Batch) (binIDs : BinIDs) (item : Item)
    (forcePin forceCache : Bool) (previous : Previous) :
    Call DB (Batch × BinIDs × Except Err (Bool × Int)) := do
  let batch ← releaseReserve cfg batch item previous
  let storeTimestamp ← Call.clockReading
  let (binIDs, binID) ← incBinID binIDs (cfg.po item.address)
  let item := { item with
    storeTimestamp := storeTimestamp
    binID := binID }
  let batch := batch ++ [item.putRetrievalData, item.putPostageChunks cfg, item.putPostageIndex]
  let accessTimestamp ← Call.clockReading
  let item := { item with accessTimestamp := accessTimestamp }
  let batch := batch ++ [item.putRetrievalAccess]
  match ← preserveOrCache cfg batch item forcePin forceCache with
  | (batch, .error e) => return (batch, binIDs, .error e)
  | (batch, .ok c) =>
    let batch := if !forceCache then batch ++ [item.putPull cfg]
      else batch
    return (batch, binIDs, .ok (false, previous.gcSizeChange + c))

def putRequest (cfg : Config) (batch : Batch) (binIDs : BinIDs) (item : Item)
    (forcePin forceCache : Bool) : Call DB (Batch × BinIDs × Except Err (Bool × Int)) := do
  let exist ← Call.get fun db => db.store.retrievalDataIndex.has item.address
  if exist then return (batch, binIDs, .ok (true, 0))
  match ← replacePrevious cfg batch item with
  | (batch, .error e) => return (batch, binIDs, .error e)
  | (batch, .ok .kept) => return (batch, binIDs, .ok (false, 0))
  | (batch, .ok previous) => storeRequest cfg batch binIDs item forcePin forceCache previous

/- The end of `putUpload`, once the chunk is to be stored. -/
def storeUpload (cfg : Config) (batch : Batch) (binIDs : BinIDs) (item : Item) :
    Call DB (Batch × BinIDs × Except Err (Bool × Int)) := do
  let storeTimestamp ← Call.clockReading
  let (binIDs, binID) ← incBinID binIDs (cfg.po item.address)
  let item := { item with
    storeTimestamp := storeTimestamp
    binID := binID }
  let batch := batch ++
    [item.putRetrievalData, item.putPull cfg, item.putPush,
      item.putPostageIndex, item.putPostageChunks cfg]
  return (batch, binIDs, .ok (false, 0))

/- The gc size change of a replacement is not passed on. -/
def putUpload (cfg : Config) (batch : Batch) (binIDs : BinIDs) (item : Item) :
    Call DB (Batch × BinIDs × Except Err (Bool × Int)) := do
  let exist ← Call.get fun db => db.store.retrievalDataIndex.has item.address
  if exist then return (batch, binIDs, .ok (true, 0))
  match ← replacePrevious cfg batch item with
  | (batch, .error e) => return (batch, binIDs, .error e)
  | (batch, .ok .kept) => return (batch, binIDs, .ok (false, 0))
  | (batch, .ok _) => storeUpload cfg batch binIDs item

/-
  The end of `putSync`, once the chunk is to be stored.  The gc size change of a replacement is not
  passed on.
-/
def storeSync (cfg : Config) (batch : Batch) (binIDs : BinIDs) (item : Item) (previous : Previous) :
    Call DB (Batch × BinIDs × Except Err (Bool × Int)) := do
  let batch ← releaseReserve cfg batch item previous
  let storeTimestamp ← Call.clockReading
  let (binIDs, binID) ← incBinID binIDs (cfg.po item.address)
  let item := { item with
    storeTimestamp := storeTimestamp
    binID := binID }
  let batch := batch ++
    [item.putRetrievalData, item.putPull cfg, item.putPostageChunks cfg, item.putPostageIndex]
  let accessTimestamp ← Call.clockReading
  let item := { item with accessTimestamp := accessTimestamp }
  let batch := batch ++ [item.putRetrievalAccess]
  match ← preserveOrCache cfg batch item false false with
  | (batch, .error e) => return (batch, binIDs, .error e)
  | (batch, .ok c) => return (batch, binIDs, .ok (false, c))

def putSync (cfg : Config) (batch : Batch) (binIDs : BinIDs) (item : Item) :
    Call DB (Batch × BinIDs × Except Err (Bool × Int)) := do
  let exist ← Call.get fun db => db.store.retrievalDataIndex.has item.address
  if exist then return (batch, binIDs, .ok (true, 0))
  match ← replacePrevious cfg batch item with
  | (batch, .error e) => return (batch, binIDs, .error e)
  | (batch, .ok .kept) => return (batch, binIDs, .ok (false, 0))
  | (batch, .ok previous) => storeSync cfg batch binIDs item previous

---- Put

/- `storage.ModePut`; the source accepts any integer. -/
inductive ModePut where
  | request
  | sync
  | upload
  | uploadPin
  | requestPin
  | requestCache
  | unknown
  deriving DecidableEq, Repr

/- What one mode does for one chunk that is not a repeat. -/
def putOne (cfg : Config) (mode : ModePut) (batch : Batch) (binIDs : BinIDs) (ch : Chunk) :
    Call DB (Batch × BinIDs × Except Err (Bool × Int)) :=
  let item := chunkToItem ch
  match mode with
  | .request => putRequest cfg batch binIDs item false false
  | .requestPin => putRequest cfg batch binIDs item true false
  | .requestCache => putRequest cfg batch binIDs item false true
  | .upload => putUpload cfg batch binIDs item
  | .uploadPin => do
      match ← putUpload cfg batch binIDs item with
      | (batch, binIDs, .error e) => return (batch, binIDs, .error e)
      | (batch, binIDs, .ok (exist, c)) =>
        match ← setPin batch item with
        | (batch, .error e) => return (batch, binIDs, .error e)
        | (batch, .ok c') => return (batch, binIDs, .ok (exist, c + c'))
  | .sync => putSync cfg batch binIDs item
  | .unknown => pure (batch, binIDs, .error .invalidMode)

/- The variables of `put` that its loop changes. -/
structure PutState where
  batch : Batch := []
  binIDs : BinIDs := .empty
  exist : List Bool := []
  gcSizeChange : Int := 0

/- The loop over the chunks of one call; `seen` is `chs[:i]`. -/
def putAll (cfg : Config) (mode : ModePut) :
    List Chunk → List Chunk → PutState → Call DB (Except Err PutState)
| _, [], st => return .ok st
| seen, ch :: chs, st => do
    if containsChunk ch.address seen then
      putAll cfg mode (seen ++ [ch]) chs { st with exist := st.exist ++ [true] }
    else
      match ← putOne cfg mode st.batch st.binIDs ch with
      | (_, _, .error e) => return .error e
      | (batch, binIDs, .ok (exist, c)) =>
        putAll cfg mode (seen ++ [ch]) chs
          { batch := batch
            binIDs := binIDs
            exist := st.exist ++ [exist]
            gcSizeChange := st.gcSizeChange + c }

/- Whether the lookup before taking the lock is made. -/
def fastPathChunk (mode : ModePut) (chs : List Chunk) : Option Chunk :=
  match chs with
  | [ch] =>
    if mode ≠ .requestPin ∧ mode ≠ .uploadPin then some ch
    else none
  | _ => none

/- The part of `put` under the lock. -/
def putLocked (cfg : Config) (mode : ModePut) (chs : List Chunk) :
    Call DB (Except Err (List Bool)) := do
  Call.acquire
  Call.set (DB.markDirty (chs.map Chunk.address))
  let result ← if mode = .unknown then
      pure (.error .invalidMode)
    else putAll cfg mode [] chs {}
  match result with
  | .error e =>
    Call.release
    return .error e
  | .ok st =>
    let batch := st.batch ++ st.binIDs.entries.map fun entry => .binID entry.1 entry.2
    let batch ← incGCSizeInBatch batch st.gcSizeChange
    Call.set (DB.writeBatch batch)
    Call.release
    return .ok st.exist

def put (cfg : Config) (mode : ModePut) (chs : List Chunk) : Call DB (Except Err (List Bool)) := do
  match fastPathChunk mode chs with
  | some ch =>
    let has ← Call.get fun db => db.store.retrievalDataIndex.has ch.address
    if has then return .ok [true]
    putLocked cfg mode chs
  | none => putLocked cfg mode chs

---- Get

/- The item that `get` reads from `retrievalDataIndex`, for every mode but the pin mode. -/
def getItem (addr : Address) : Call DB (Except Err Item) := do
  let out ← Call.get fun db => db.store.getRetrievalData (addressToItem addr)
  match out with
  | none => return .error .notFound
  | some out => return .ok out

/- Move the gc entry of an item to the current time. -/
def updateGC (item : Item) : Call DB Unit := do
  Call.acquire
  Call.set (DB.markDirty [item.address])
  let access ← Call.get fun db => db.store.getRetrievalAccess item
  let item := match access with
    | some i => { item with accessTimestamp := i.accessTimestamp }
    | none => item
  if item.accessTimestamp = 0 then Call.release
  else
    let batch := [item.deleteGC]
    let inGC ← Call.get fun db => db.store.gcIndex.has item.gcKey
    let now ← Call.clockReading
    let item := { item with accessTimestamp := now }
    let batch := if inGC then batch ++ [item.putGC] else batch
    let batch := batch ++ [item.putRetrievalAccess]
    Call.set (DB.writeBatch batch)
    Call.release

---- Garbage Collection

/- Subtraction of unsigned 64-bit numbers. -/
def sub64 (a b : Nat) : Nat :=
  if b ≤ a then a - b else a + 2 ^ 64 - b

/- The item that iterating over `gcIndex` yields. -/
def gcItem (entry : GCKey × GCValue) : Item where
  accessTimestamp := entry.1.accessTimestamp
  binID := entry.1.binID
  address := entry.1.address
  batchID := entry.2.batchID
  index := entry.2.index

/-
  The iteration over `gcIndex`: collect until few enough entries would remain or the batch size is
  reached.
-/
def gcCandidates (cfg : Config) (gcSize : Nat) : List (GCKey × GCValue) → Nat → List Item
| [], _ => []
| entry :: entries, collectedCount =>
  if sub64 gcSize collectedCount ≤ cfg.gcTarget then []
  else if collectedCount + 1 ≥ cfg.gcBatchSize then [gcItem entry]
  else gcItem entry :: gcCandidates cfg gcSize entries (collectedCount + 1)

/- Start logging dirty addresses. -/
def gcBegin : Call DB Unit := do
  Call.acquire
  Call.set fun db => { db with gcRunning := true }
  Call.release

/- Take the candidates, without the lock. -/
def gcIterate (cfg : Config) (gcSize : Nat) : Call DB (List Item) := do
  let entries ← Call.get fun db => db.store.gcIndex.entries
  return gcCandidates cfg gcSize entries 0

/-
  The first half of `collectGarbage`.  It returns no candidates at all when there is nothing to do.
-/
def gcSnapshot (cfg : Config) : Call DB (Option (List Item)) := do
  gcBegin
  let gcSize ← Call.get fun db => db.store.gcSize
  if gcSize = cfg.gcTarget then return none
  let candidates ← gcIterate cfg gcSize
  return some candidates

/- Records that delete one candidate. -/
def collectRecords (cfg : Config) (item : Item) : Batch :=
  [item.deleteRetrievalData, item.deleteRetrievalAccess, item.deletePull cfg, item.deleteGC,
    item.deletePostageChunks cfg, item.deletePostageIndex]

/- The deferred end of `collectGarbage`. -/
def gcFinish : Call DB Unit := do
  Call.acquire
  Call.set fun db => { db with gcRunning := false, dirtyAddresses := [] }
  Call.release

/-
  The second half of `collectGarbage`, under the lock: drop the dirty candidates and delete the
  others.  It returns the number of collected chunks and whether the run is done.
-/
def gcCommit (cfg : Config) (candidates : List Item) : Call DB (Nat × Bool) := do
  Call.acquire
  let gcSize ← Call.get fun db => db.store.gcSize
  let dirty ← Call.get fun db => db.dirtyAddresses
  let collected := candidates.filter fun item => !dirty.contains item.address
  let batch := collected.flatMap (collectRecords cfg)
  let newSize := sub64 gcSize collected.length
  Call.set (DB.writeBatch (batch ++ [.gcSize newSize]))
  Call.release
  return (collected.length, decide (newSize ≤ cfg.gcTarget))

def collectGarbage (cfg : Config) : Call DB (Nat × Bool) := do
  match ← gcSnapshot cfg with
  | none =>
    gcFinish
    return (0, true)
  | some candidates =>
    let result ← gcCommit cfg candidates
    gcFinish
    return result

---- Unreserving A Batch

/- The chunks of a batch in one bin, in key order. -/
def Store.chunksInBin (s : Store) (id : BatchID) (bin : Nat) : List Address :=
  (s.postageChunksIndex.entries.filter fun entry =>
    entry.1.batchID = id ∧ entry.1.po = bin).map fun entry => entry.1.address

/- What the iteration over one bin accumulates. -/
structure UnpinState where
  batch : Batch := []
  gcSizeChange : Int := 0
  reserveSizeChange : Nat := 0

/-
  Unpin the chunks of one bin.  A chunk that is not found is skipped; the records its unpinning has
  added stay.
-/
def unpinAll : List Address → UnpinState → Call DB UnpinState
| [], st => return st
| addr :: addrs, st => do
    match ← setUnpin st.batch addr with
    | (batch, .error _) => unpinAll addrs { st with batch := batch }
    | (batch, .ok c) =>
      unpinAll addrs
        { batch := batch
          gcSizeChange := st.gcSizeChange + c
          reserveSizeChange := st.reserveSizeChange + 1 }

/-
  One turn of the loop over the bins.  The radius recorded is the bin itself, deleted again after
  the last bin.
-/
def unreserveBin (id : BatchID) (bin reserveSizeChange : Nat) : Call DB Nat := do
  let addrs ← Call.get fun db => db.store.chunksInBin id bin
  let st ← unpinAll addrs { reserveSizeChange := reserveSizeChange }
  let batch ← incGCSizeInBatch st.batch st.gcSizeChange
  let item : Item := { batchID := id, radius := bin }
  let batch := batch ++ [item.putPostageRadius]
  let batch := if bin = maxPO then
      batch ++ [item.deletePostageRadius]
    else batch
  Call.set (DB.writeBatch batch)
  return st.reserveSizeChange

/- The loop over `count` bins, starting at `bin`. -/
def unreserveBins (id : BatchID) : Nat → Nat → Nat → Call DB Nat
| _, 0, reserveSizeChange => return reserveSizeChange
| bin, count + 1, reserveSizeChange => do
    let reserveSizeChange ← unreserveBin id bin reserveSizeChange
    unreserveBins id (bin + 1) count reserveSizeChange

/-
  The end of `UnreserveBatch`: record the radius, unless the batch is unreserved in all bins, and
  adjust the size of the reserve.
-/
def unreserveFinish (id : BatchID) (radius reserveSizeChange : Nat) : Call DB Unit := do
  if radius ≠ maxPO + 1 then
    let item : Item := { batchID := id, radius := radius }
    Call.set (DB.writeBatch [item.putPostageRadius])
  if reserveSizeChange > 0 then
    let batch ← incReserveSizeInBatch [] (-(reserveSizeChange : Int))
    Call.set (DB.writeBatch batch)

def unreserveBatch (id : BatchID) (radius : Nat) : Call DB Nat := do
  let item : Item := { batchID := id }
  let stored ← Call.get fun db => db.store.getPostageRadius item
  let oldRadius := match stored with
    | some i => i.radius
    | none => radius
  let reserveSizeChange ← unreserveBins id oldRadius (radius - oldRadius) 0
  unreserveFinish id radius reserveSizeChange
  return reserveSizeChange

---- Evicting The Reserve

def reserveEvictionBatch : Nat := 200

/-
  The calls that `unreserveFunc` makes for the batches it offers, until enough is evicted.  The
  result is what was evicted, and whether the target is reached.
-/
def evictBatches (target reserveSizeStart : Nat) : List (BatchID × Nat) → Nat → Call DB (Nat × Bool)
| [], totalEvicted => return (totalEvicted, false)
| (id, radius) :: offered, totalEvicted => do
    let e ← unreserveBatch id radius
    let totalEvicted := totalEvicted + e
    if sub64 reserveSizeStart totalEvicted ≤ target then return (totalEvicted, true)
    else if reserveEvictionBatch ≤ totalEvicted then return (totalEvicted, false)
    else evictBatches target reserveSizeStart offered totalEvicted

/- `target` is the value of `reserveEvictionTarget`, which only depends on the capacities. -/
def evictReserve (target : Nat) (offered : List (BatchID × Nat)) : Call DB (Nat × Bool) := do
  Call.acquire
  let reserveSizeStart ← Call.get fun db => db.store.reserveSize
  if reserveSizeStart = target then
    Call.release
    return (0, true)
  else
    let (totalEvicted, done) ← evictBatches target reserveSizeStart offered 0
    Call.release
    return (totalEvicted, done || offered.isEmpty)

end Sana.Localstore
