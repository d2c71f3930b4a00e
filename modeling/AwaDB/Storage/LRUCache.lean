import AwaDB.Lib.Run
import AwaDB.Storage.Block

/-!
# The block cache (`LRUCache` in `storage/lru_cache.h`)

A reader that does not find a block gets an `InsertInfo`, which it shares with the other readers and
the writer that look for the same key. The first that locks it loads the block into its buffer and
inserts the buffer into the cache; the others wait for the lock and return the buffer. Cells that are
evicted give their buffers back to a pool, which hands them out again.

The state holds the buffers with their bytes, so that a buffer which is used again is visible.
Everything under one lock is one step.
-/

namespace AwaDB

open Lib

/-! ### Buffers -/

/-- `MemoryPool`: `free` is `que_` and `used` is `use_cell_num_`; buffers are numbered, and `next` is
the number of the next one that is allocated. -/
structure MemoryPool where
  free : List ℕ
  used : ℕ
  next : ℕ
  maxCellNum : ℕ
deriving DecidableEq, Repr

namespace MemoryPool

/-- `GetBuffer`. -/
def getBuffer (pool : MemoryPool) : ℕ × MemoryPool :=
  match pool.free with
  | buffer :: free => (buffer, { pool with free, used := pool.used + 1 })
  | [] => (pool.next, { pool with next := pool.next + 1, used := pool.used + 1 })

/-- `ReclaimBuffer`. A buffer that is deleted is not used again. -/
def reclaimBuffer (pool : MemoryPool) (buffer : ℕ) : MemoryPool :=
  let free := pool.free ++ [buffer]
  let used := pool.used - 1
  if used + free.length > pool.maxCellNum then { pool with free := free.tail, used }
  else { pool with free, used }

/-- Some buffers, one after the other. -/
def reclaimAll (pool : MemoryPool) (buffers : List ℕ) : MemoryPool :=
  buffers.foldl reclaimBuffer pool

end MemoryPool

/-! ### Cells -/

/-- `THRESHOLD_OF_SWAP`. -/
def thresholdOfSwap : ℕ := 250

/-- `Cell`, with its key. -/
structure LRUCell where
  key : ℕ
  buffer : ℕ
  hits : ℕ
deriving DecidableEq, Repr

/-- `max_size_` and `max_overflow_`. -/
structure LRUSizes where
  maxSize : ℕ
  maxOverflow : ℕ
deriving DecidableEq, Repr

/-- The cell of a key; `cells_` and `queue_` are one list in the order of the queue. -/
def findCell (key : ℕ) (cells : List LRUCell) : Option LRUCell := cells.find? fun c => c.key = key

/-- The hit of a cell: the hits are counted, and a cell that was hit often goes to the end. -/
def hitCell (c : LRUCell) (cells : List LRUCell) : List LRUCell :=
  if c.hits ≥ thresholdOfSwap then cells.erase c ++ [{ c with hits := 0 }]
  else cells.map fun d => if d = c then { c with hits := c.hits + 1 } else d

/-- `EvictOverflow`. -/
def evictOverflow (z : LRUSizes) (cells : List LRUCell) (pool : MemoryPool) : List LRUCell × MemoryPool :=
  if cells.length ≥ z.maxSize + z.maxOverflow then
    let evictNum := cells.length - z.maxSize
    (cells.drop evictNum, pool.reclaimAll ((cells.take evictNum).map LRUCell.buffer))
  else (cells, pool)

/-- `SetImpl`. -/
def setCell (z : LRUSizes) (key buffer : ℕ) (cells : List LRUCell) (pool : MemoryPool) :
    List LRUCell × MemoryPool :=
  match findCell key cells with
  | none => evictOverflow z (cells ++ [⟨key, buffer, 0⟩]) pool
  | some c =>
    ((hitCell c cells).map fun d => if d.key = key then { d with buffer } else d,
      pool.reclaimBuffer c.buffer)

/-! ### The system -/

/-- `InsertInfo`, with its key and whether its `mtx_` is held. -/
structure InsertInfo where
  key : ℕ
  buffer : ℕ
  isProduct : Bool
  isClean : Bool
  locked : Bool
deriving DecidableEq, Repr

/-- Where a reader is in `SetOrGet`: it is to lock an `InsertInfo`, or has loaded its block and is to
insert it. -/
inductive LRUPhase where
  | idle
  | waiting (info : ℕ)
  | producing (info : ℕ)
deriving DecidableEq, Repr

/-- A call of `SetOrGet` that has returned: the key, the bytes it has returned, and those of the
file at that time. -/
structure Returned where
  key : ℕ
  got : Bytes
  inFile : Bytes
deriving DecidableEq, Repr

/-- The file, the buffers, the cache, the readers, and the calls of `Update` that the writer has
still to make. `inserting` is `insert_infos_`, and `found` the `InsertInfo` that the first of these
calls has found. `returned` are the calls of `SetOrGet` that returned when no write was under way. -/
structure LRUCache where
  file : File
  mem : ℕ → Bytes
  pool : MemoryPool
  cells : List LRUCell
  infos : ℕ → InsertInfo
  nextInfo : ℕ
  inserting : List ℕ
  readers : ℕ → LRUPhase
  pending : List Piece
  found : Option ℕ
  returned : List Returned

/-- The sections of `SetOrGet`: the first under `mtx_`, the load under the lock of the `InsertInfo`,
and the second under `mtx_`. The writer writes to the file, and runs the section of `Update` under
`mtx_`, or the one under the lock of the `InsertInfo` and `mtx_`. -/
inductive LRUOp where
  | look (reader key : ℕ)
  | lock (reader : ℕ)
  | insert (reader : ℕ)
  | write (start : ℕ) (value : Bytes)
  | update
  | updateFound
deriving DecidableEq, Repr

namespace LRUCache

/-- The `InsertInfo` of a key. -/
def findInfo (key : ℕ) (s : LRUCache) : Option ℕ := s.inserting.find? fun i => (s.infos i).key = key

/-- The copy of `Update` into the cell, if there is one. -/
def patchCell (p : Piece) (s : LRUCache) : LRUCache :=
  match findCell p.blockId s.cells with
  | none => s
  | some c =>
    { s with mem := Function.update s.mem c.buffer (patch (s.mem c.buffer) p.blockOffset p.bytes) }

/-- A new `InsertInfo` with a buffer of the pool. -/
def newInfo (key : ℕ) (s : LRUCache) : LRUCache :=
  { s with
    pool := s.pool.getBuffer.2
    infos := Function.update s.infos s.nextInfo ⟨key, s.pool.getBuffer.1, false, false, false⟩
    nextInfo := s.nextInfo + 1
    inserting := s.inserting ++ [s.nextInfo] }

variable (b : BlockSize) (z : LRUSizes)

/-- A cache without cells on a file. -/
def create (file : File) : LRUCache where
  file := file
  mem := fun _ => []
  pool := { free := [], used := 0, next := 0, maxCellNum := z.maxSize + z.maxOverflow + 500 }
  cells := []
  infos := fun _ => ⟨0, 0, false, false, false⟩
  nextInfo := 0
  inserting := []
  readers := fun _ => .idle
  pending := []
  found := none
  returned := []

/-- `SetOrGet` returns a buffer. -/
def returns (key buffer : ℕ) (s : LRUCache) : LRUCache :=
  if s.pending = [] then
    { s with returned := s.returned ++ [⟨key, s.mem buffer, blockOf b s.file key⟩] }
  else s

/-- The last section of `SetOrGet`. The load does not fail. -/
def insertInfo (i : ℕ) (s : LRUCache) : LRUCache :=
  let info := s.infos i
  let set :=
    if s.findInfo info.key = some i then setCell z info.key info.buffer s.cells s.pool
    else (s.cells, s.pool.reclaimBuffer info.buffer)
  { s with
    cells := set.1
    pool := set.2
    inserting := if info.isClean then s.inserting
      else s.inserting.filter fun j => (s.infos j).key ≠ info.key
    infos := Function.update s.infos i { info with isClean := true, locked := false } }

/-- One event. -/
def step : LRUOp → LRUCache → Option LRUCache
  | .look reader key, s =>
    match s.readers reader with
    | .idle =>
      match findCell key s.cells with
      | some c => some (returns b key c.buffer { s with cells := hitCell c s.cells })
      | none =>
        match s.findInfo key with
        | some i => some { s with readers := Function.update s.readers reader (.waiting i) }
        | none =>
          some { newInfo key s with
            readers := Function.update s.readers reader (.waiting s.nextInfo) }
    | _ => none
  | .lock reader, s =>
    match s.readers reader with
    | .waiting i =>
      let info := s.infos i
      if info.locked then none
      else if info.isProduct then
        some (returns b info.key info.buffer
          { s with readers := Function.update s.readers reader .idle })
      else
        some { s with
          mem := Function.update s.mem info.buffer (blockOf b s.file info.key)
          infos := Function.update s.infos i { info with isProduct := true, locked := true }
          readers := Function.update s.readers reader (.producing i) }
    | _ => none
  | .insert reader, s =>
    match s.readers reader with
    | .producing i =>
      some (returns b (s.infos i).key (s.infos i).buffer
        { insertInfo z i s with readers := Function.update s.readers reader .idle })
    | _ => none
  | .write start value, s =>
    if s.pending = [] then
      some { s with
        file := s.file.pwrite (segHeaderSize + start) value
        pending := updates b start value }
    else none
  | .update, s =>
    match s.pending, s.found with
    | p :: pending, none =>
      match s.findInfo p.blockId with
      | none => some { patchCell p s with pending := pending }
      | some i => some { s with found := some i }
    | _, _ => none
  | .updateFound, s =>
    match s.pending, s.found with
    | p :: pending, some i =>
      if (s.infos i).locked then none
      else some { patchCell p s with pending := pending, found := none }
    | _, _ => none

end LRUCache

end AwaDB
