import AwaDB.Lib.Lists
import AwaDB.Storage.Block

/-!
# The items of a storage manager (`storage/storage_manager.cc`)

Items of one length are added to the last segment, through the queue of the writer, and read from
the files of the segments, with a cache for the blocks that are complete. An update goes to the file
and to the cache at once. A read waits until `cur_size_` covers its items.

* `readLoop_eq`: the loop of `Block::Read` reads the bytes of the file, if the cache holds blocks of
  the file.

The writer makes one request at a time; by `AsyncWriter.batches_iff` batches leave the same files.
-/

namespace AwaDB

open Lib

/-- `fixed_value_bytes` and `segment_size`, `seg_block_capacity`, and whether there is a cache. -/
structure StorageOptions where
  g : Geometry
  segBlockCapacity : ℕ
  cached : Bool
  segment_pos : 0 < g.maxSize

/-- `segments_` by its length, with `buffered_size_`, `last_bid_in_disk_` and the files and counters
of the segments; `size_`, the queue of the writer and the cells of the cache. -/
structure StorageManager where
  segments : ℕ
  size : ℕ
  buffered : ℕ → ℕ
  lastBid : ℕ → ℕ
  disk : Disk
  queue : List WriterStruct
  cells : ℕ → Option Bytes

namespace StorageManager

section Model

variable (o : StorageOptions)

/-- `per_block_size_`. -/
def perBlockSize : ℕ := 64 * 1024 / o.g.itemLength * o.g.itemLength

/-- `per_block_size_` as a divisor; `none` where `Block::Read` and `Block::Update` divide by
zero. -/
def blockSize : Option BlockSize :=
  if h : 0 < perBlockSize o then some ⟨perBlockSize o, h⟩ else none

/-- `GetCacheBlockId`. -/
def cacheKey (seg blockId : ℕ) : ℕ := (seg * o.segBlockCapacity + blockId) % 2 ^ 32

/-- A manager without items, whose files are new. -/
def create : StorageManager where
  segments := 1
  size := 0
  buffered := fun _ => 0
  lastBid := fun _ => 0
  disk := { files := fun _ _ => none, curSize := fun _ => 0 }
  queue := []
  cells := fun _ => none

/-- `Extend`. `Segment::Init` keeps what is in the file. -/
def extend (s : StorageManager) : StorageManager :=
  { s with
    segments := s.segments + 1
    buffered := Function.update s.buffered s.segments 0
    lastBid := Function.update s.lastBid s.segments 0
    disk := { s.disk with curSize := Function.update s.disk.curSize s.segments 0 } }

/-- `Add`; `none` is an error. -/
def add (value : Bytes) (s : StorageManager) : Option StorageManager :=
  if value.length = o.g.itemLength then
    let seg := s.segments - 1
    let added := { s with
      size := s.size + 1
      buffered := Function.update s.buffered seg (s.buffered seg + 1)
      queue := s.queue ++ [⟨seg, itemOff o.g (s.buffered seg), value⟩] }
    some (if s.buffered seg + 1 = o.g.maxSize then added.extend else added)
  else none

/-- The calls of `Update` of the cache. -/
def patchCells (seg : ℕ) (pieces : List Piece) (cells : ℕ → Option Bytes) : ℕ → Option Bytes :=
  pieces.foldl (fun cells p => Function.update cells (cacheKey o seg p.blockId)
    ((cells (cacheKey o seg p.blockId)).map fun cell => patch cell p.blockOffset p.bytes)) cells

/-- `Update`; `none` is an error, or not defined. -/
def update (id : ℕ) (value : Bytes) (s : StorageManager) : Option StorageManager :=
  if id < s.size ∧ value.length = o.g.itemLength then
    let seg := id / o.g.maxSize
    let start := id % o.g.maxSize * o.g.itemLength
    let written := { s with
      disk := s.disk.run (.data seg (itemOff o.g (id % o.g.maxSize)) value) }
    if o.cached then
      (blockSize o).map fun b =>
        { written with cells := patchCells o seg (updates b start value) s.cells }
    else some written
  else none

/-- The writer makes the first request. -/
def writeFirst (s : StorageManager) : Option StorageManager :=
  match s.queue with
  | [] => none
  | q :: queue => some { s with disk := s.disk.runAll (syncWrite o.g q), queue := queue }

/-- `last_bid_in_disk_` before a block is read. -/
def refresh (b : BlockSize) (seg blockId : ℕ) (s : StorageManager) : StorageManager :=
  if s.lastBid seg ≤ blockId then
    { s with
      lastBid := Function.update s.lastBid seg (s.disk.curSize seg * o.g.itemLength / b.size) }
  else s

/-- A round of the loop of `Block::Read`, for bytes of one block. -/
def readPiece (b : BlockSize) (seg start len : ℕ) (s : StorageManager) : Bytes × StorageManager :=
  let blockId := start / b.size
  let s := s.refresh o b seg blockId
  if s.lastBid seg ≤ blockId then
    ((s.disk.files seg).pread (segHeaderSize + (blockId * b.size + start % b.size)) len, s)
  else
    let key := cacheKey o seg blockId
    let block := (s.cells key).getD (blockOf b (s.disk.files seg) blockId)
    ((block.drop (start % b.size)).take len,
      { s with cells := Function.update s.cells key (some block) })

/-- The loop of `Block::Read`. A round takes at least one byte. -/
def readLoop (b : BlockSize) (seg : ℕ) : (fuel start nBytes : ℕ) → StorageManager →
    Bytes × StorageManager
  | 0, _, _, s => ([], s)
  | fuel + 1, start, nBytes, s =>
    if nBytes = 0 then ([], s)
    else
      let len := pieceLen b start nBytes
      let piece := readPiece o b seg start len s
      let rest := readLoop b seg fuel (start + len) (nBytes - len) piece.2
      (piece.1 ++ rest.1, rest.2)

/-- `Segment::GetValues`; `none` while it waits, or where it is not defined. -/
def getValues (seg id n : ℕ) (s : StorageManager) : Option (Bytes × StorageManager) :=
  if id + n ≤ s.disk.curSize seg then
    let start := id * o.g.itemLength
    let nBytes := n * o.g.itemLength
    if o.cached then (blockSize o).map fun b => readLoop o b seg nBytes start nBytes s
    else some ((s.disk.files seg).pread (segHeaderSize + start) nBytes, s)
  else none

/-- `Get`; `none` also for an error. -/
def get (id : ℕ) (s : StorageManager) : Option (Bytes × StorageManager) :=
  if id < s.size then getValues o (id / o.g.maxSize) (id % o.g.maxSize) 1 s else none

/-- The loop of `GetHeaders`, with `lens` and `values`. A round takes at least one item; an array of
2 GiB or more cannot be allocated. -/
def headersLoop : (fuel startId n : ℕ) → StorageManager →
    Option (List (ℕ × Bytes) × StorageManager)
  | 0, _, _, s => some ([], s)
  | fuel + 1, startId, n, s =>
    if n = 0 then some ([], s)
    else
      let id := startId % o.g.maxSize
      let len := if o.g.maxSize - id > n then n else o.g.maxSize - id
      if len * o.g.itemLength < 2 ^ 31 then
        (getValues o (startId / o.g.maxSize) id len s).bind fun (value, s) =>
          (headersLoop fuel (startId + len) (n - len) s).map fun (pieces, s) =>
            ((len, value) :: pieces, s)
      else none

/-- `GetHeaders`; `none` also for an error. -/
def getHeaders (startId n : ℕ) (s : StorageManager) :
    Option (List (ℕ × Bytes) × StorageManager) :=
  if startId + n ≤ s.size then headersLoop o n startId n s else none

end Model

end StorageManager

/-- The calls; the writer makes a request, and the cache drops a block. -/
inductive StorageOp where
  | add (value : Bytes)
  | update (id : ℕ) (value : Bytes)
  | get (id : ℕ)
  | getHeaders (startId n : ℕ)
  | write
  | evict (key : ℕ)
deriving DecidableEq, Repr

namespace StorageManager

/-- One event. -/
def step (o : StorageOptions) : StorageOp → StorageManager → Option StorageManager
  | .add value, s => add o value s
  | .update id value, s => update o id value s
  | .get id, s => (get o id s).map Prod.snd
  | .getHeaders startId n, s => (getHeaders o startId n s).map Prod.snd
  | .write, s => writeFirst o s
  | .evict key, s => some { s with cells := Function.update s.cells key none }

/-! ### What is read -/

section Read

variable {o : StorageOptions} {b : BlockSize} {s s' : StorageManager} {seg blockId start len : ℕ}

variable (o b) in
/-- The cells are complete blocks of the files, and the blocks have keys of their own. -/
structure CacheSound (s : StorageManager) : Prop where
  lastBid : ∀ seg, s.lastBid seg * b.size ≤ s.disk.curSize seg * o.g.itemLength
  bound : ∀ seg, s.disk.curSize seg ≤ s.buffered seg
  numbered : ∀ seg blockId, blockId * b.size < s.buffered seg * o.g.itemLength →
    blockId < o.segBlockCapacity ∧ seg * o.segBlockCapacity + blockId < 2 ^ 32
  cells : ∀ key cell, s.cells key = some cell → ∃ seg blockId,
    (blockId + 1) * b.size ≤ s.disk.curSize seg * o.g.itemLength ∧
      cacheKey o seg blockId = key ∧ cell = blockOf b (s.disk.files seg) blockId

/-- A read changes only what the cache knows. -/
def SameFiles (s s' : StorageManager) : Prop :=
  s' = { s with lastBid := s'.lastBid, cells := s'.cells }

theorem SameFiles.refl (s : StorageManager) : SameFiles s s := rfl

theorem SameFiles.trans {t : StorageManager} (h : SameFiles s s') (h' : SameFiles s' t) :
    SameFiles s t := by
  rw [SameFiles] at h h' ⊢
  rw [h', h]

theorem SameFiles.disk (h : SameFiles s s') : s'.disk = s.disk := by rw [h]

/-- A key is one block of one segment. -/
theorem CacheSound.key_inj (h : CacheSound o b s) {seg' blockId' : ℕ}
    (hin : blockId * b.size < s.buffered seg * o.g.itemLength)
    (hin' : blockId' * b.size < s.buffered seg' * o.g.itemLength)
    (hkey : cacheKey o seg blockId = cacheKey o seg' blockId') :
    seg = seg' ∧ blockId = blockId' := by
  obtain ⟨hcap, hlt⟩ := h.numbered seg blockId hin
  obtain ⟨hcap', hlt'⟩ := h.numbered seg' blockId' hin'
  rw [cacheKey, cacheKey, Nat.mod_eq_of_lt hlt, Nat.mod_eq_of_lt hlt'] at hkey
  exact mul_add_inj hcap hcap' hkey

/-- A complete block has items. -/
theorem CacheSound.complete_lt (h : CacheSound o b s)
    (hcomplete : (blockId + 1) * b.size ≤ s.disk.curSize seg * o.g.itemLength) :
    blockId * b.size < s.buffered seg * o.g.itemLength := by
  have hmul := Nat.mul_le_mul_right o.g.itemLength (h.bound seg)
  have hpos := b.pos
  rw [Nat.add_mul, Nat.one_mul] at hcomplete
  omega

/-- A complete block is read as it is in the file. -/
theorem CacheSound.block_eq (h : CacheSound o b s)
    (hcomplete : (blockId + 1) * b.size ≤ s.disk.curSize seg * o.g.itemLength) :
    (s.cells (cacheKey o seg blockId)).getD (blockOf b (s.disk.files seg) blockId) =
      blockOf b (s.disk.files seg) blockId := by
  cases hcell : s.cells (cacheKey o seg blockId) with
  | none => rfl
  | some cell =>
    obtain ⟨seg', blockId', hcomplete', hkey, rfl⟩ := h.cells _ cell hcell
    obtain ⟨rfl, rfl⟩ := h.key_inj (h.complete_lt hcomplete') (h.complete_lt hcomplete) hkey
    rfl

theorem CacheSound.refresh (h : CacheSound o b s) (seg blockId : ℕ) :
    CacheSound o b (s.refresh o b seg blockId) := by
  rw [StorageManager.refresh]
  split
  · refine ⟨fun seg' => ?_, h.bound, h.numbered, h.cells⟩
    show Function.update s.lastBid seg _ seg' * b.size ≤ _
    by_cases hseg : seg' = seg
    · rw [hseg, Function.update_self]
      exact Nat.div_mul_le_self _ _
    · rw [Function.update_of_ne hseg]
      exact h.lastBid seg'
  · exact h

theorem sameFiles_refresh : SameFiles s (s.refresh o b seg blockId) := by
  rw [StorageManager.refresh]
  split <;> rfl

/-- **A round** reads the bytes of the file. -/
theorem readPiece_eq (seg : ℕ) (h : CacheSound o b s) (hblock : start % b.size + len ≤ b.size) :
    (readPiece o b seg start len s).1 = (s.disk.files seg).pread (segHeaderSize + start) len ∧
      SameFiles s (readPiece o b seg start len s).2 ∧
      CacheSound o b (readPiece o b seg start len s).2 := by
  have hstart : start / b.size * b.size + start % b.size = start := Nat.div_add_mod' ..
  have hsound := h.refresh seg (start / b.size)
  have hsame : SameFiles s (s.refresh o b seg (start / b.size)) := sameFiles_refresh
  have hfiles := congrArg Disk.files hsame.disk
  generalize hs : s.refresh o b seg (start / b.size) = t at hsound hsame hfiles
  rw [readPiece]
  dsimp only
  rw [hs]
  split
  · exact ⟨by rw [hfiles, hstart], hsame, hsound⟩
  next hlast =>
    have hcomplete : (start / b.size + 1) * b.size ≤ t.disk.curSize seg * o.g.itemLength :=
      Nat.le_trans (Nat.mul_le_mul_right _ (Nat.lt_of_not_le hlast)) (hsound.lastBid seg)
    rw [hsound.block_eq hcomplete]
    refine ⟨?_, hsame.trans rfl, hsound.lastBid, hsound.bound, hsound.numbered,
      fun key cell hcell => ?_⟩
    · show ((blockOf b (t.disk.files seg) _).drop _).take len = _
      rw [blockOf, File.take_drop_pread hblock, hfiles, Nat.add_assoc, hstart]
    · change Function.update t.cells _ _ key = some cell at hcell
      obtain ⟨hkey, hblock⟩ | ⟨-, hold⟩ := of_update_eq hcell
      · exact ⟨seg, _, hcomplete, hkey.symm, (Option.some.inj hblock).symm⟩
      · exact hsound.cells key cell hold

/-- **The loop** reads the bytes of the file. -/
theorem readLoop_eq {fuel nBytes : ℕ} (seg start : ℕ) (h : CacheSound o b s) (hfuel : nBytes ≤ fuel) :
    (readLoop o b seg fuel start nBytes s).1 =
        (s.disk.files seg).pread (segHeaderSize + start) nBytes ∧
      SameFiles s (readLoop o b seg fuel start nBytes s).2 ∧
      CacheSound o b (readLoop o b seg fuel start nBytes s).2 := by
  induction fuel generalizing start nBytes s with
  | zero =>
    obtain rfl := Nat.le_zero.mp hfuel
    exact ⟨rfl, rfl, h⟩
  | succ fuel ih =>
    rw [readLoop]
    split
    next hzero =>
      rw [hzero]
      exact ⟨rfl, rfl, h⟩
    next hne =>
      obtain ⟨hle, hblock⟩ := pieceLen_le (b := b) start nBytes
      have hpos := pieceLen_pos (b := b) start (Nat.pos_of_ne_zero hne)
      obtain ⟨hbytes, hsame, hsound⟩ := readPiece_eq seg h hblock
      have hless : nBytes - pieceLen b start nBytes ≤ fuel := by omega
      obtain ⟨hrest, hsame', hsound'⟩ := ih (start + pieceLen b start nBytes) hsound hless
      refine ⟨?_, hsame.trans hsame', hsound'⟩
      calc (readPiece o b seg start (pieceLen b start nBytes) s).1 ++ _
          = (s.disk.files seg).pread (segHeaderSize + start) (pieceLen b start nBytes) ++
              (s.disk.files seg).pread (segHeaderSize + start + pieceLen b start nBytes)
                (nBytes - pieceLen b start nBytes) := by
            rw [hbytes, hrest, hsame.disk, Nat.add_assoc]
        _ = _ := by rw [← File.pread_add, Nat.add_sub_cancel' hle]

end Read

end StorageManager

end AwaDB
