import AwaDB.Storage.LRUQueue

/-!
# The block cache under many threads (`LRUCache` in `storage/lru_cache.h`)

Any number of threads call `SetOrGet`, `Evict`, `Update` and `AlterCacheSize`, and loads may fail. Each
section under a lock is one step, and the copy of a reader out of the buffer that it was given
(`Block::Read`) is a step of its own.

An `InsertInfo` is an `Insertion`, whose key and buffer do not change, and its two flags. A load that
fails gives the buffer back, but the threads that wait for the lock of the `InsertInfo` have it too.
-/

namespace AwaDB

open Lib

/-! ### The pool -/

/-- `MemoryPool`: `free` is `que_` and `used` is `use_cell_num_`, a `uint32_t`. Buffers are numbered,
and `deleted` are those that were deleted. -/
structure BufferPool where
  free : List ℕ
  used : ℕ
  next : ℕ
  maxCellNum : ℕ
  deleted : List ℕ
deriving DecidableEq, Repr

namespace BufferPool

/-- `GetBuffer`. -/
def getBuffer (pool : BufferPool) : ℕ × BufferPool :=
  let used := (pool.used + 1) % 2 ^ 32
  match pool.free with
  | buffer :: free => (buffer, { pool with free, used })
  | [] => (pool.next, { pool with next := pool.next + 1, used })

/-- The first buffers of the queue are deleted. -/
def deleteFront (pool : BufferPool) (num : ℕ) : BufferPool :=
  { pool with free := pool.free.drop num, deleted := pool.deleted ++ pool.free.take num }

/-- `ReclaimBuffer`. -/
def reclaimBuffer (pool : BufferPool) (buffer : ℕ) : BufferPool :=
  let pool := { pool with
    free := pool.free ++ [buffer]
    used := (pool.used + 2 ^ 32 - 1) % 2 ^ 32 }
  if pool.used + pool.free.length > pool.maxCellNum then pool.deleteFront 1 else pool

/-- `SetMaxBufferNum`. -/
def setMaxBufferNum (pool : BufferPool) (maxCellNum : ℕ) : BufferPool :=
  if pool.free.length + pool.used ≤ maxCellNum then { pool with maxCellNum }
  else
    let delNum :=
      if pool.used > maxCellNum then pool.free.length
      else pool.free.length + pool.used - maxCellNum
    { pool.deleteFront delNum with maxCellNum := pool.maxCellNum - delNum }

/-- Some buffers, one after the other. -/
def reclaimAll (pool : BufferPool) (buffers : List ℕ) : BufferPool :=
  buffers.foldl reclaimBuffer pool

end BufferPool

/-! ### Threads -/

/-- What does not change of an `InsertInfo`. -/
structure Insertion where
  id : ℕ
  key : ℕ
  buffer : ℕ
deriving DecidableEq, Repr

/-- Where a thread is: it is to lock an `InsertInfo`; it has called the load function, with its
result; it has been given a buffer and is to copy from it; its `Update` has found an `InsertInfo` and
is to lock it. -/
inductive ThreadPhase where
  | idle
  | waiting (o : Insertion)
  | loaded (o : Insertion) (res : Bool)
  | copying (key buffer : ℕ)
  | updating (o : Insertion) (beginPos : ℕ) (bytes : Bytes)
deriving DecidableEq, Repr

/-- The bytes that a reader has copied from `offset` on; `none` if the buffer was deleted. -/
structure Copied where
  key : ℕ
  offset : ℕ
  len : ℕ
  bytes : Option Bytes
deriving DecidableEq, Repr

/-- The cache. `cells` are in the order of the queue, `inserting` is `insert_infos_`, `loading` are the
`InsertInfo`s whose lock is held by a thread that loads, and `product` and `clean` have the flags
`is_product_` and `is_clean_`. -/
structure LRUShared where
  sizes : LRUSizes
  pool : BufferPool
  mem : ℕ → Bytes
  cells : List LRUCell
  inserting : List Insertion
  loading : List Insertion
  nextId : ℕ
  product : ℕ → Bool
  clean : ℕ → Bool
  threads : ℕ → ThreadPhase
  copied : List Copied

/-- The steps: the three sections of `SetOrGet` (in the second the load fails if it leaves junk in the
buffer), the copy, the two sections of `Update`, and the other calls. -/
inductive SharedOp where
  | look (thread key : ℕ)
  | load (thread : ℕ) (junk : Option Bytes)
  | finish (thread : ℕ)
  | copy (thread offset len : ℕ)
  | update (thread key beginPos : ℕ) (bytes : Bytes)
  | patch (thread : ℕ)
  | evict (key : ℕ)
  | alterCacheSize (cacheSize : ℕ)
deriving DecidableEq, Repr

namespace LRUShared

/-- The constructor and `Init`. -/
def create (z : LRUSizes) : LRUShared where
  sizes := z
  pool := ⟨[], 0, 0, z.maxSize + z.maxOverflow + 500, []⟩
  mem := fun _ => []
  cells := []
  inserting := []
  loading := []
  nextId := 0
  product := fun _ => false
  clean := fun _ => false
  threads := fun _ => .idle
  copied := []

/-- The `InsertInfo` of a key. -/
def findInsertion (key : ℕ) (s : LRUShared) : Option Insertion :=
  s.inserting.find? fun o => o.key = key

/-- `EvictOverflow`. -/
def evictOverflow (s : LRUShared) : LRUShared :=
  if s.cells.length ≥ s.sizes.maxSize + s.sizes.maxOverflow then
    let evictNum := s.cells.length - s.sizes.maxSize
    { s with
      cells := s.cells.drop evictNum
      pool := s.pool.reclaimAll ((s.cells.take evictNum).map LRUCell.buffer) }
  else s

/-- `SetImpl`. -/
def setImpl (key buffer : ℕ) (s : LRUShared) : LRUShared :=
  match findCell key s.cells with
  | none => evictOverflow { s with cells := s.cells ++ [⟨key, buffer, 0⟩] }
  | some c =>
    { s with
      cells := (hitCell c s.cells).map fun d => if d.key = key then { d with buffer } else d
      pool := s.pool.reclaimBuffer c.buffer }

/-- The `memcpy` of `Update` into the cell, if there is one. -/
def patchCell (key beginPos : ℕ) (bytes : Bytes) (s : LRUShared) : LRUShared :=
  match findCell key s.cells with
  | none => s
  | some c => { s with mem := Function.update s.mem c.buffer (patch (s.mem c.buffer) beginPos bytes) }

/-- The thread goes to a phase. -/
def goes (thread : ℕ) (phase : ThreadPhase) (s : LRUShared) : LRUShared :=
  { s with threads := Function.update s.threads thread phase }

/-- The last section of `SetOrGet`. -/
def finishInsertion (o : Insertion) (res : Bool) (s : LRUShared) : LRUShared :=
  let r :=
    if res = true ∧ s.findInsertion o.key = some o then setImpl o.key o.buffer s
    else { s with pool := s.pool.reclaimBuffer o.buffer }
  { r with
    loading := s.loading.erase o
    clean := Function.update s.clean o.id true
    inserting := if s.clean o.id then s.inserting else s.inserting.filter fun o' => o'.key ≠ o.key }

/-- What `SetOrGet` returns then: the buffer, or a null pointer. -/
def finishPhase (o : Insertion) (res : Bool) (s : LRUShared) : ThreadPhase :=
  if res = true ∧ s.findInsertion o.key = some o then .copying o.key o.buffer else .idle

variable (blocks : ℕ → Bytes) (cellSize : ℕ)

/-- One step; `blocks` are the blocks of the file. A thread that waits for a lock has no step. -/
def step : SharedOp → LRUShared → Option LRUShared
  | .look thread key, s =>
    match s.threads thread with
    | .idle =>
      match findCell key s.cells with
      | some c => some ({ s with cells := hitCell c s.cells }.goes thread (.copying key c.buffer))
      | none =>
        match s.findInsertion key with
        | some o => some (s.goes thread (.waiting o))
        | none =>
          let o : Insertion := ⟨s.nextId, key, s.pool.getBuffer.1⟩
          some ({ s with
            pool := s.pool.getBuffer.2
            inserting := s.inserting ++ [o]
            nextId := s.nextId + 1 }.goes thread (.waiting o))
    | _ => none
  | .load thread junk, s =>
    match s.threads thread with
    | .waiting o =>
      if o ∈ s.loading then none
      else if s.product o.id then some (s.goes thread (.copying o.key o.buffer))
      else
        some ({ s with
          mem := Function.update s.mem o.buffer (junk.getD (blocks o.key))
          product := Function.update s.product o.id junk.isNone
          loading := s.loading ++ [o] }.goes thread (.loaded o junk.isNone))
    | _ => none
  | .finish thread, s =>
    match s.threads thread with
    | .loaded o res => some ((s.finishInsertion o res).goes thread (s.finishPhase o res))
    | _ => none
  | .copy thread offset len, s =>
    match s.threads thread with
    | .copying key buffer =>
      let bytes :=
        if buffer ∈ s.pool.deleted then none else some (((s.mem buffer).drop offset).take len)
      let copied : Copied := ⟨key, offset, len, bytes⟩
      some ({ s with copied := s.copied ++ [copied] }.goes thread .idle)
    | _ => none
  | .update thread key beginPos bytes, s =>
    match s.threads thread with
    | .idle =>
      match s.findInsertion key with
      | none => some (s.patchCell key beginPos bytes)
      | some o => some (s.goes thread (.updating o beginPos bytes))
    | _ => none
  | .patch thread, s =>
    match s.threads thread with
    | .updating o beginPos bytes =>
      if o ∈ s.loading then none
      else some ((s.patchCell o.key beginPos bytes).goes thread .idle)
    | _ => none
  | .evict key, s =>
    match findCell key s.cells with
    | none => some s
    | some c => some { s with cells := s.cells.erase c, pool := s.pool.reclaimBuffer c.buffer }
  | .alterCacheSize cacheSize, s =>
    let sizes := LRUSizes.ofCacheSize cacheSize cellSize
    let s := evictOverflow { s with sizes }
    some { s with pool := s.pool.setMaxBufferNum (sizes.maxSize + 500) }

/-- The insertions in progress: those of the table, and those that a thread loads nevertheless. -/
def inProgress (s : LRUShared) : List Insertion :=
  s.inserting ++ s.loading.filter fun o => o ∉ s.inserting

/-- **A buffer has one owner**: each buffer that was handed out belongs to one cell, to one insertion
in progress, or to the queue of the pool, or was deleted. -/
def OneOwner (s : LRUShared) : Prop :=
  ∀ x, x < s.pool.next → (s.cells.map LRUCell.buffer).count x +
    (s.inProgress.map Insertion.buffer).count x + s.pool.free.count x + s.pool.deleted.count x = 1

/-- No thread goes on with an `InsertInfo` after a load for it has failed and was cleaned up. -/
def NotFailed : SharedOp → LRUShared → Prop
  | .load thread _, s => ∀ o, s.threads thread = .waiting o → s.clean o.id = true →
      s.product o.id = true
  | _, _ => True

end LRUShared

end AwaDB
