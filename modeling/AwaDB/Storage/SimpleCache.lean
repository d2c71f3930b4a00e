import AwaDB.Lib.Run
import AwaDB.Storage.Block

/-!
# The cache of resident blocks (`SimpleCache` in `storage/lru_cache.h`)

A reader that does not find a block loads it from the file without a lock and inserts it under the
lock. A writer writes to the file and then runs `Update` for each block that it has touched.

* `coherent_always`: once the writer has finished, the cached blocks are those of the file, in every
  run in which no reader inserts a block that it loaded before a write whose `Update` has been run.
-/

namespace AwaDB

open Lib

/-! ### The cells -/

/-- `init_segment_capacity_`. -/
def initSegmentCapacity : ℕ := 512

/-- `segments_`, in which an empty segment is a null pointer, and `segment_gap_`. -/
structure SimpleCells where
  segmentGap : ℕ
  segments : ℕ → List (Option Bytes)
  capacity : ∀ seg, segments seg = [] ∨ initSegmentCapacity ≤ (segments seg).length

namespace SimpleCells

variable {c : SimpleCells} {key key' : ℕ} {block : Bytes} {segment : List (Option Bytes)}

/-- The cell of a key. -/
def find (c : SimpleCells) (key : ℕ) : Option Bytes :=
  ((c.segments (key / c.segmentGap))[key % c.segmentGap]?).join

/-- A segment that is not there yet is allocated. -/
def allocated (segment : List (Option Bytes)) : List (Option Bytes) :=
  if segment = [] then List.replicate initSegmentCapacity none else segment

/-- The segment of `SetImpl`, allocated and extended to hold the key. -/
def grow (segment : List (Option Bytes)) (idInSeg : ℕ) : List (Option Bytes) :=
  if (allocated segment).length ≤ idInSeg then
    allocated segment ++ List.replicate (idInSeg * 3 / 2 - (allocated segment).length) none
  else allocated segment

theorem capacity_allocated (h : segment = [] ∨ initSegmentCapacity ≤ segment.length) :
    initSegmentCapacity ≤ (allocated segment).length := by
  rw [allocated]
  split
  · exact Nat.le_of_eq List.length_replicate.symm
  next hne => exact h.resolve_left hne

theorem capacity_grow (idInSeg : ℕ) (h : segment = [] ∨ initSegmentCapacity ≤ segment.length) :
    initSegmentCapacity ≤ (grow segment idInSeg).length ∧ idInSeg < (grow segment idInSeg).length := by
  have hinit : initSegmentCapacity = 512 := rfl
  have hlength := capacity_allocated h
  rw [grow]
  split
  · rw [List.length_append, List.length_replicate]
    omega
  · omega

/-- `SetImpl`, without the copy into an old cell instead of a change of the pointer. -/
def setImpl (key : ℕ) (block : Bytes) (c : SimpleCells) : SimpleCells where
  segmentGap := c.segmentGap
  segments := Function.update c.segments (key / c.segmentGap)
    ((grow (c.segments (key / c.segmentGap)) (key % c.segmentGap)).set (key % c.segmentGap)
      (some block))
  capacity seg := by
    by_cases hseg : seg = key / c.segmentGap
    · rw [hseg, Function.update_self, List.length_set]
      exact .inr (capacity_grow _ (c.capacity _)).1
    · rw [Function.update_of_ne hseg]
      exact c.capacity seg

/-- `Update` of the cache: a copy into the cell, if there is one. -/
def update (p : Piece) (c : SimpleCells) : SimpleCells where
  segmentGap := c.segmentGap
  segments := Function.update c.segments (p.blockId / c.segmentGap)
    ((c.segments (p.blockId / c.segmentGap)).modify (p.blockId % c.segmentGap)
      (Option.map fun block => patch block p.blockOffset p.bytes))
  capacity seg := by
    by_cases hseg : seg = p.blockId / c.segmentGap
    · rw [hseg, Function.update_self, List.length_modify]
      exact (c.capacity _).imp_left fun h => by rw [h, List.modify_nil]
    · rw [Function.update_of_ne hseg]
      exact c.capacity seg

/-- A key is its segment and its place. -/
theorem key_ext {gap : ℕ} (hdiv : key' / gap = key / gap) (hmod : key' % gap = key % gap) :
    key' = key := by
  rw [← Nat.div_add_mod key' gap, hdiv, hmod, Nat.div_add_mod]

theorem getElem?_replicate_none (n i : ℕ) :
    ((List.replicate n (none : Option Bytes))[i]?).join = none := by
  rw [List.getElem?_replicate]
  split <;> rfl

/-- Growing a segment moves no cell. -/
theorem getElem?_grow (idInSeg i : ℕ) :
    ((grow segment idInSeg)[i]?).join = (segment[i]?).join := by
  have hallocated : ((allocated segment)[i]?).join = (segment[i]?).join := by
    rw [allocated]
    split
    next hnil =>
      rw [getElem?_replicate_none, hnil]
      rfl
    · rfl
  rw [grow, ← hallocated]
  split
  · by_cases hi : i < (allocated segment).length
    · rw [List.getElem?_append_left hi]
    · rw [List.getElem?_append_right (Nat.not_lt.mp hi), getElem?_replicate_none,
        List.getElem?_eq_none (Nat.not_lt.mp hi)]
      rfl
  · rfl

theorem find_setImpl : (c.setImpl key block).find key' =
    if key' = key then some block else c.find key' := by
  show ((Function.update c.segments (key / c.segmentGap) _ (key' / c.segmentGap))[
    key' % c.segmentGap]?).join = _
  by_cases hseg : key' / c.segmentGap = key / c.segmentGap
  · rw [hseg, Function.update_self]
    by_cases hid : key' % c.segmentGap = key % c.segmentGap
    · rw [hid, List.getElem?_set_self (capacity_grow _ (c.capacity _)).2,
        if_pos (key_ext hseg hid)]
      rfl
    · have hne : key' ≠ key := fun h => hid (congrArg (· % c.segmentGap) h)
      rw [List.getElem?_set_ne (Ne.symm hid), getElem?_grow, if_neg hne, find, hseg]
  · have hne : key' ≠ key := fun h => hseg (congrArg (· / c.segmentGap) h)
    rw [Function.update_of_ne hseg, if_neg hne, find]

theorem find_update {p : Piece} : (c.update p).find key = (c.find key).map fun block =>
    if p.blockId = key then patch block p.blockOffset p.bytes else block := by
  show ((Function.update c.segments (p.blockId / c.segmentGap) _ (key / c.segmentGap))[
    key % c.segmentGap]?).join = _
  by_cases hkey : p.blockId = key
  · simp only [hkey, Function.update_self, List.getElem?_modify_eq, find, if_true]
    cases (c.segments (key / c.segmentGap))[key % c.segmentGap]? <;> rfl
  · simp only [if_neg hkey, Option.map_id']
    by_cases hseg : key / c.segmentGap = p.blockId / c.segmentGap
    · have hid : p.blockId % c.segmentGap ≠ key % c.segmentGap :=
        fun hid => hkey (key_ext hseg.symm hid)
      rw [hseg, Function.update_self, List.getElem?_modify_ne _ _ hid, find, hseg]
    · rw [Function.update_of_ne hseg, find]

end SimpleCells

/-! ### The system -/

/-- Where a reader is in `SetOrGet`: it is to load a block, or to insert the one it has loaded. -/
inductive ReadPhase where
  | idle
  | missing (key : ℕ)
  | loaded (key : ℕ) (block : Bytes)
deriving DecidableEq, Repr

/-- The file, the cells, the readers, and the calls of `Update` that the writer has still to make. -/
structure SimpleCache where
  file : File
  cells : SimpleCells
  readers : ℕ → ReadPhase
  pending : List Piece

/-- A reader looks for a block, loads it, or inserts it; the writer writes to the file, or makes its
next call of `Update`. -/
inductive CacheOp where
  | look (reader key : ℕ)
  | load (reader : ℕ)
  | insert (reader : ℕ)
  | write (start : ℕ) (value : Bytes)
  | update
deriving DecidableEq, Repr

namespace SimpleCache

variable (b : BlockSize)

/-- A cache without cells on a file. -/
def create (segmentGap : ℕ) (file : File) : SimpleCache where
  file := file
  cells := { segmentGap, segments := fun _ => [], capacity := fun _ => .inl rfl }
  readers := fun _ => .idle
  pending := []

/-- One event. -/
def step : CacheOp → SimpleCache → Option SimpleCache
  | .look reader key, s =>
    match s.readers reader with
    | .idle =>
      match s.cells.find key with
      | some _ => some s
      | none => some { s with readers := Function.update s.readers reader (.missing key) }
    | _ => none
  | .load reader, s =>
    match s.readers reader with
    | .missing key =>
      some { s with
        readers := Function.update s.readers reader (.loaded key (blockOf b s.file key)) }
    | _ => none
  | .insert reader, s =>
    match s.readers reader with
    | .loaded key block =>
      some { s with
        cells := s.cells.setImpl key block
        readers := Function.update s.readers reader .idle }
    | _ => none
  | .write start value, s =>
    if s.pending = [] then
      some { s with
        file := s.file.pwrite (segHeaderSize + start) value
        pending := updates b start value }
    else none
  | .update, s =>
    match s.pending with
    | [] => none
    | p :: pending => some { s with cells := s.cells.update p, pending := pending }

/-- Once the writer has finished, the cached blocks are those of the file. -/
def Coherent (s : SimpleCache) : Prop :=
  s.pending = [] → ∀ key block, s.cells.find key = some block → block = blockOf b s.file key

/-- A reader inserts a block only if what it has loaded is, with the calls of `Update` that are still
to be made, what is in the file: no write was made and passed to `Update` since it loaded. -/
def InsertsFresh : CacheOp → SimpleCache → Prop
  | .insert reader, s => ∀ key block, s.readers reader = .loaded key block →
      applyPieces s.pending key block = blockOf b s.file key
  | _, _ => True

/-- The cached blocks are those of the file, but for the calls of `Update` still to be made. -/
def Tracked (s : SimpleCache) : Prop :=
  ∀ key block, s.cells.find key = some block → applyPieces s.pending key block = blockOf b s.file key

variable {b} {s s' : SimpleCache}

theorem tracked_create {segmentGap : ℕ} {file : File} : Tracked b (create segmentGap file) := by
  intro key block h
  cases h

theorem Tracked.coherent (h : Tracked b s) : Coherent b s := by
  intro hdone key block hfind
  have htracked := h key block hfind
  rw [hdone] at htracked
  exact htracked

theorem Tracked.insert {key : ℕ} {block : Bytes} {readers : ℕ → ReadPhase} (h : Tracked b s)
    (hfresh : applyPieces s.pending key block = blockOf b s.file key) :
    Tracked b { s with cells := s.cells.setImpl key block, readers } := by
  intro key' block' hfind
  rw [SimpleCells.find_setImpl] at hfind
  split at hfind
  next hkey =>
    cases hfind
    rw [hkey]
    exact hfresh
  · exact h key' block' hfind

theorem Tracked.write {start : ℕ} {value : Bytes} (h : Tracked b s) (hdone : s.pending = []) :
    Tracked b { s with
      file := s.file.pwrite (segHeaderSize + start) value
      pending := updates b start value } := by
  intro key block hfind
  show applyPieces _ key block = blockOf b (s.file.pwrite _ value) key
  rw [h.coherent hdone key block hfind, blockOf_pwrite]

theorem Tracked.update {p : Piece} {pending : List Piece} (h : Tracked b s)
    (hpending : s.pending = p :: pending) :
    Tracked b { s with cells := s.cells.update p, pending := pending } := by
  intro key block hfind
  rw [SimpleCells.find_update] at hfind
  obtain ⟨old, hold, rfl⟩ := Option.map_eq_some_iff.mp hfind
  have htracked := h key old hold
  rw [hpending, applyPieces_cons] at htracked
  exact htracked

theorem Tracked.step (h : Tracked b s) {o : CacheOp} (hfresh : InsertsFresh b o s)
    (hs : step b o s = some s') : Tracked b s' := by
  cases o with
  | look reader key =>
    rw [SimpleCache.step] at hs
    split at hs
    · split at hs
      · cases hs
        exact h
      · cases hs
        exact h
    · cases hs
  | load reader =>
    rw [SimpleCache.step] at hs
    split at hs
    · cases hs
      exact h
    · cases hs
  | insert reader =>
    rw [SimpleCache.step] at hs
    split at hs
    next key block hloaded =>
      cases hs
      exact h.insert (hfresh key block hloaded)
    · cases hs
  | write start value =>
    rw [SimpleCache.step] at hs
    split at hs
    next hdone =>
      cases hs
      exact h.write hdone
    · cases hs
  | update =>
    rw [SimpleCache.step] at hs
    split at hs
    · cases hs
    next hpending =>
      cases hs
      exact h.update hpending

/-- Blocks of one byte. -/
def byteBlock : BlockSize := ⟨1, Nat.one_pos⟩

end SimpleCache

end AwaDB
