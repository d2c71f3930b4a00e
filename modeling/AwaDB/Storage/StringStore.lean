import AwaDB.Lib.Lists
import AwaDB.Storage.StringBlock

/-!
# The strings of a storage manager (`storage/storage_manager.cc`)

The strings of a row are added to the last segment, and then the row itself, which may open the
next segment. An update overwrites a string in place when the new one is not longer, and adds it
again when it is. Complete blocks are cached; the cache may drop any block at any time (`LRUCache`)
or none (`SimpleCache`).

* `lossless_always`: every string is read as it was last written, in every run in which no segment
  gets 4 GiB of strings, and no two blocks get one number in the cache.
-/

namespace AwaDB

open Lib

/-- The segments, the number of rows, the cells of the cache for strings, and what the callers have
recorded of the strings. -/
structure StringStore where
  segments : List StringSegment
  size : ℕ
  cells : ℕ → Option Bytes
  records : List StringRecord

/-- `AddString` for the next row, `Add` of the row, `UpdateString` and `GetString` of a recorded
string; the cache drops a block. -/
inductive StringOp where
  | addString (value : Bytes)
  | add
  | updateString (i : ℕ) (value : Bytes)
  | getString (i : ℕ)
  | evict (key : ℕ)
deriving DecidableEq, Repr

namespace StringStore

variable (o : StringOptions)

/-- A segment without strings. -/
def emptySegment : StringSegment where
  file := fun _ => none
  blockPos := []
  strOffset := 0

/-- A store without rows. -/
def create : StringStore where
  segments := [emptySegment]
  size := 0
  cells := fun _ => none
  records := []

/-- The segment of a row. -/
def segOf (rowId : ℕ) : ℕ := rowId / o.segmentSize

/-- `GetCacheBlockId`. -/
def cacheBlockId (seg blockId : ℕ) : ℕ := (seg * o.segBlockCapacity + blockId) % 2 ^ 32

/-- The block that `SetOrGet` returns: the cell, or what it loads. -/
def cachedBlock (s : StringStore) (seg : StringSegment) (key front back : ℕ) : Option Bytes :=
  match s.cells key with
  | some cell => some cell
  | none => if back - front > maxBlockSize then none else some (seg.file.pread front (back - front))

/-- `StorageManager::GetString`; `none` where it is not defined. -/
def getString (s : StringStore) (r : StringRecord) : Option Bytes :=
  (s.segments[segOf o r.rowId]?).bind fun seg =>
    match blockBounds seg r.blockId with
    | some (front, back) =>
      if o.cached then
        match s.cachedBlock seg (cacheBlockId o (segOf o r.rowId) r.blockId) front back with
        | some block => readBlock block r.inBlockPos r.value.length
        | none => some (readFile seg r.blockId r.inBlockPos r.value.length)
      else some (readFile seg r.blockId r.inBlockPos r.value.length)
    | none => some (readFile seg r.blockId r.inBlockPos r.value.length)

/-- `GetString` leaves the block in the cache. -/
def fillCell (s : StringStore) (r : StringRecord) : StringStore :=
  match s.segments[segOf o r.rowId]? with
  | none => s
  | some seg =>
    match blockBounds seg r.blockId with
    | some (front, back) =>
      if o.cached then
        let key := cacheBlockId o (segOf o r.rowId) r.blockId
        { s with cells := Function.update s.cells key (s.cachedBlock seg key front back) }
      else s
    | none => s

/-- `Segment::AddString` of one segment, for a row. -/
def addTo (j rowId : ℕ) (value : Bytes) (seg : StringSegment) (s : StringStore) :
    StringStore × StringRecord :=
  ({ s with segments := s.segments.set j (AwaDB.addString o value seg) },
    addedRecord o rowId value seg)

/-- The copy into a cached block. -/
def patchCell (key pos : ℕ) (value : Bytes) (s : StringStore) : StringStore :=
  { s with
    cells := Function.update s.cells key ((s.cells key).map fun cell => patch cell pos value) }

/-- One event. -/
def step : StringOp → StringStore → Option StringStore
  | .addString value, s =>
    if value.length ≤ maxStringLen then
      let j := s.segments.length - 1
      (s.segments[j]?).map fun seg =>
        let added := s.addTo o j s.size value seg
        { added.1 with records := s.records ++ [added.2] }
    else none
  | .add, s =>
    some { s with
      size := s.size + 1
      segments := if (s.size + 1) % o.segmentSize = 0 then s.segments ++ [emptySegment]
        else s.segments }
  | .updateString i value, s =>
    (s.records[i]?).bind fun r =>
      if value.length ≤ maxStringLen ∧ r.rowId < s.size then
        let j := segOf o r.rowId
        (s.segments[j]?).map fun seg =>
          let inPlace := if value.length ≤ r.value.length then
            AwaDB.updateString o r.blockId r.inBlockPos value seg else none
          match inPlace with
          | some seg' =>
            let t := { s with
              segments := s.segments.set j seg'
              records := s.records.set i { r with value } }
            if o.cached then t.patchCell (cacheBlockId o j r.blockId) r.inBlockPos value else t
          | none =>
            let added := s.addTo o j r.rowId value seg
            { added.1 with records := s.records.set i added.2 }
      else none
  | .getString i, s =>
    (s.records[i]?).bind fun r => if r.rowId < s.size then some (s.fillCell o r) else none
  | .evict key, s => some { s with cells := Function.update s.cells key none }

/-- Every string is read as it was last written for its row. -/
def Lossless (s : StringStore) : Prop :=
  ∀ r ∈ s.records, r.rowId < s.size → s.getString o r = some r.value

/-- The segment has room for the string: its offset stays below 4 GiB and, with a cache, its blocks
keep numbers of their own. -/
def HasRoom (j : ℕ) (value : Bytes) (seg : StringSegment) : Prop :=
  seg.strOffset + value.length < 2 ^ 32 ∧
    (o.cached = true → ∀ b < (AwaDB.addString o value seg).blockPos.length,
      b < o.segBlockCapacity ∧ j * o.segBlockCapacity + b < 2 ^ 32)

/-- A string goes to a segment that has room for it. -/
def Roomy : StringOp → StringStore → Prop
  | .addString value, s => ∀ seg, s.segments[s.segments.length - 1]? = some seg →
      HasRoom o (s.segments.length - 1) value seg
  | .updateString i value, s => ∀ (r : StringRecord) (seg : StringSegment),
      s.records[i]? = some r → s.segments[segOf o r.rowId]? = some seg →
      (value.length ≤ r.value.length →
        AwaDB.updateString o r.blockId r.inBlockPos value seg = none) →
      HasRoom o (segOf o r.rowId) value seg
  | _, _ => True

/-! ### The invariant -/

/-- Where a string stands in the file. -/
def stringPos (seg : StringSegment) (r : StringRecord) : ℕ :=
  (seg.blockPos[r.blockId]?).getD 0 + r.inBlockPos

/-- Two strings of a segment do not overlap. -/
def Apart (seg : StringSegment) (r r' : StringRecord) : Prop :=
  stringPos seg r + r.value.length ≤ stringPos seg r' ∨
    stringPos seg r' + r'.value.length ≤ stringPos seg r

/-- The blocks of a segment have numbers of their own in the cache. -/
def Numbered (j : ℕ) (seg : StringSegment) : Prop :=
  o.cached = true → ∀ b < seg.blockPos.length,
    b < o.segBlockCapacity ∧ j * o.segBlockCapacity + b < 2 ^ 32

/-- A cell is a block of a file that is not the last. -/
def HoldsBlock (segments : List StringSegment) (key : ℕ) (cell : Bytes) : Prop :=
  ∃ j b seg front back, segments[j]? = some seg ∧ seg.blockPos[b]? = some front ∧
    seg.blockPos[b + 1]? = some back ∧ cacheBlockId o j b = key ∧
    cell = seg.file.pread front (back - front)

/-- The strings stand in their blocks, apart from each other, and the cells are blocks of the
files. -/
structure Sound (s : StringStore) : Prop where
  count : s.segments.length = s.size / o.segmentSize + 1
  rows : ∀ (i : ℕ) (r : StringRecord), s.records[i]? = some r → r.rowId ≤ s.size
  blocks : ∀ (j : ℕ) (seg : StringSegment), s.segments[j]? = some seg →
    Blocks seg ∧ Numbered o j seg
  placed : ∀ (i : ℕ) (r : StringRecord) (seg : StringSegment), s.records[i]? = some r →
    s.segments[segOf o r.rowId]? = some seg → ∃ front, Placed seg r front
  apart : ∀ (i i' : ℕ) (r r' : StringRecord) (seg : StringSegment), i ≠ i' →
    s.records[i]? = some r → s.records[i']? = some r' → segOf o r.rowId = segOf o r'.rowId →
    s.segments[segOf o r.rowId]? = some seg → Apart seg r r'
  cells : ∀ (key : ℕ) (cell : Bytes), s.cells key = some cell →
    o.cached = true ∧ HoldsBlock o s.segments key cell

variable {o : StringOptions} {s t : StringStore} {r r' : StringRecord}
  {seg seg' : StringSegment} {value cell : Bytes} {i j key rowId front : ℕ}

theorem stringPos_eq (h : Placed seg r front) : stringPos seg r = front + r.inBlockPos := by
  rw [stringPos, h.block, Option.getD_some]

theorem Apart.symm (h : Apart seg r r') : Apart seg r' r := Or.symm h

/-- A block number of the cache is one block. -/
theorem cacheBlockId_inj {b b' j' : ℕ} (hcached : o.cached = true) (h : Numbered o j seg)
    (h' : Numbered o j' seg') (hb : b < seg.blockPos.length) (hb' : b' < seg'.blockPos.length)
    (hkey : cacheBlockId o j b = cacheBlockId o j' b') : j = j' ∧ b = b' := by
  obtain ⟨hcap, hlt⟩ := h hcached b hb
  obtain ⟨hcap', hlt'⟩ := h' hcached b' hb'
  rw [cacheBlockId, cacheBlockId, Nat.mod_eq_of_lt hlt, Nat.mod_eq_of_lt hlt'] at hkey
  exact mul_add_inj hcap hcap' hkey

/-- A row has its segment. -/
theorem Sound.segment (h : Sound o s) (hrow : rowId ≤ s.size) :
    ∃ seg, s.segments[segOf o rowId]? = some seg := by
  have hle : segOf o rowId ≤ s.size / o.segmentSize := Nat.div_le_div_right hrow
  have hcount := h.count
  exact ⟨_, List.getElem?_eq_getElem (by omega)⟩

/-- **A block that is read** is the block of the file. -/
theorem Sound.cachedBlock_eq (h : Sound o s) (hseg : s.segments[j]? = some seg) {b back : ℕ}
    (hcached : o.cached = true) (hfront : seg.blockPos[b]? = some front)
    (hback : seg.blockPos[b + 1]? = some back) :
    s.cachedBlock seg (cacheBlockId o j b) front back =
      some (seg.file.pread front (back - front)) := by
  obtain ⟨hblocks, hnumbered⟩ := h.blocks j seg hseg
  rw [cachedBlock]
  cases hcell : s.cells (cacheBlockId o j b) with
  | none =>
    have hwide := hblocks.wide b front back hfront hback
    rw [maxStringLen] at hwide
    exact if_neg (by rw [maxBlockSize]; omega)
  | some cell =>
    obtain ⟨-, j', b', seg', front', back', hseg', hfront', hback', hkey, rfl⟩ :=
      h.cells _ _ hcell
    obtain ⟨rfl, rfl⟩ := cacheBlockId_inj hcached (h.blocks _ _ hseg').2 hnumbered
      (List.getElem?_eq_some_iff.mp hfront').1 (List.getElem?_eq_some_iff.mp hfront).1 hkey
    rw [hseg] at hseg'
    cases hseg'
    rw [hfront] at hfront'
    cases hfront'
    rw [hback] at hback'
    cases hback'
    rfl

theorem blockBounds_eq (seg : StringSegment) (b : ℕ) : blockBounds seg b = none ∨ ∃ front back,
    blockBounds seg b = some (front, back) ∧ seg.blockPos[b]? = some front ∧
      seg.blockPos[b + 1]? = some back := by
  rw [blockBounds]
  cases hfront : seg.blockPos[b]? with
  | none => exact .inl rfl
  | some front =>
    cases hback : seg.blockPos[b + 1]? with
    | none => exact .inl rfl
    | some back => exact .inr ⟨front, back, rfl, rfl, rfl⟩

/-- **A string is read as it was written.** -/
theorem Sound.lossless (h : Sound o s) : Lossless o s := by
  intro r hr hrow
  obtain ⟨i, hi⟩ := List.mem_iff_getElem?.mp hr
  obtain ⟨seg, hseg⟩ := h.segment (h.rows i r hi)
  obtain ⟨front, hplaced⟩ := h.placed i r seg hi hseg
  have hfile := hplaced.readFile (h.blocks _ _ hseg).1
  rw [getString, hseg, Option.bind_some]
  obtain hnone | ⟨front', back, hbounds, hfront, hback⟩ := blockBounds_eq seg r.blockId
  · rw [hnone]
    exact congrArg some hfile
  · simp only [hbounds]
    rw [hplaced.block] at hfront
    cases hfront
    split
    next hcached =>
      rw [h.cachedBlock_eq hseg hcached hplaced.block hback]
      exact hplaced.readBlock hback
    · exact congrArg some hfile

/-! ### What an event does -/

/-- A file that changed behind the blocks. -/
theorem HoldsBlock.set {segments : List StringSegment} (h : HoldsBlock o segments key cell)
    (hseg : segments[j]? = some seg)
    (hblock : ∀ b front back, seg.blockPos[b]? = some front → seg.blockPos[b + 1]? = some back →
      cacheBlockId o j b = key → seg'.blockPos[b]? = some front ∧
        seg'.blockPos[b + 1]? = some back ∧
        seg'.file.pread front (back - front) = seg.file.pread front (back - front)) :
    HoldsBlock o (segments.set j seg') key cell := by
  obtain ⟨j', b, seg'', front, back, hseg'', hfront, hback, hkey, hcell⟩ := h
  by_cases hj : j' = j
  · subst hj
    rw [hseg] at hseg''
    cases hseg''
    obtain ⟨hfront', hback', hread⟩ := hblock b front back hfront hback hkey
    exact ⟨j', b, seg', front, back, List.getElem?_set_self (List.getElem?_eq_some_iff.mp hseg).1,
      hfront', hback', hkey, by rw [hread, hcell]⟩
  · exact ⟨j', b, seg'', front, back, by rw [List.getElem?_set_ne (Ne.symm hj)]; exact hseg'',
      hfront, hback, hkey, hcell⟩

/-- **One segment and one record of it are written.** The other strings of the segment stay where they
are, and the one that is written keeps apart from them. -/
theorem Sound.write (h : Sound o s) (hseg : s.segments[j]? = some seg)
    (hblocks : Blocks seg' ∧ Numbered o j seg') (hj : segOf o r.rowId = j) (hrow : r.rowId ≤ s.size)
    {records : List StringRecord} (hi : records[i]? = some r)
    (hother : ∀ i', i' ≠ i → records[i']? = s.records[i']?) (hself : Placed seg' r front)
    (hstay : ∀ i' r', i' ≠ i → s.records[i']? = some r' → segOf o r'.rowId = j →
      ∃ front, Placed seg r' front ∧ Placed seg' r' front)
    (hapart : ∀ i' r', i' ≠ i → s.records[i']? = some r' → segOf o r'.rowId = j → Apart seg' r' r)
    {cells : ℕ → Option Bytes} (hcells : ∀ key cell, cells key = some cell →
      o.cached = true ∧ HoldsBlock o (s.segments.set j seg') key cell) :
    Sound o { s with segments := s.segments.set j seg', cells, records } := by
  have hrecord : ∀ {i' r'}, records[i']? = some r' →
      i' = i ∧ r' = r ∨ i' ≠ i ∧ s.records[i']? = some r' := by
    intro i' r' hr'
    by_cases hii : i' = i
    · rw [hii, hi] at hr'
      exact .inl ⟨hii, (Option.some.inj hr').symm⟩
    · exact .inr ⟨hii, hother i' hii ▸ hr'⟩
  refine ⟨?_, fun i' r' hr' => ?_, fun j' seg'' hseg'' => ?_, fun i' r' seg'' hr' hseg'' => ?_,
    fun i' i'' r' r'' seg'' hne hr' hr'' hsame hseg'' => ?_, hcells⟩
  · show (s.segments.set j _).length = _
    rw [List.length_set]
    exact h.count
  · obtain ⟨-, rfl⟩ | ⟨-, hr'⟩ := hrecord hr'
    · exact hrow
    · exact h.rows i' r' hr'
  · obtain ⟨rfl, rfl⟩ | ⟨-, hseg''⟩ := set_getElem?_eq_some hseg''
    · exact hblocks
    · exact h.blocks j' seg'' hseg''
  · obtain ⟨-, rfl⟩ | ⟨hii, hold⟩ := hrecord hr'
    · obtain ⟨-, rfl⟩ | ⟨hne, -⟩ := set_getElem?_eq_some hseg''
      · exact ⟨front, hself⟩
      · exact absurd hj hne
    · obtain ⟨hj', rfl⟩ | ⟨-, hseg''⟩ := set_getElem?_eq_some hseg''
      · obtain ⟨front', -, hplaced⟩ := hstay i' r' hii hold hj'
        exact ⟨front', hplaced⟩
      · exact h.placed i' r' seg'' hold hseg''
  · obtain ⟨hj', rfl⟩ | ⟨hj', hseg''⟩ := set_getElem?_eq_some hseg''
    · have hj'' := hsame.symm.trans hj'
      obtain ⟨rfl, rfl⟩ | ⟨hii, hr'⟩ := hrecord hr'
      · obtain ⟨hii', -⟩ | ⟨hii', hr''⟩ := hrecord hr''
        · exact absurd hii'.symm hne
        · exact (hapart i'' r'' hii' hr'' hj'').symm
      · obtain ⟨-, rfl⟩ | ⟨hii', hr''⟩ := hrecord hr''
        · exact hapart i' r' hii hr' hj'
        -- two strings that stay
        · obtain ⟨front', hplaced, hplaced'⟩ := hstay i' r' hii hr' hj'
          obtain ⟨front'', hplaced₂, hplaced₂'⟩ := hstay i'' r'' hii' hr'' hj''
          have hapart := h.apart i' i'' r' r'' seg hne hr' hr'' hsame (by rw [hj']; exact hseg)
          rw [Apart, stringPos_eq hplaced, stringPos_eq hplaced₂] at hapart
          rw [Apart, stringPos_eq hplaced', stringPos_eq hplaced₂']
          exact hapart
    · obtain ⟨-, rfl⟩ | ⟨-, hr'⟩ := hrecord hr'
      · exact absurd hj hj'
      · obtain ⟨-, rfl⟩ | ⟨-, hr''⟩ := hrecord hr''
        · exact absurd (hsame.trans hj) hj'
        · exact h.apart i' i'' r' r'' seg'' hne hr' hr'' hsame hseg''

/-- **A string that is added** to a segment with room, for a record of its own. -/
theorem Sound.addTo (h : Sound o s) (hseg : s.segments[j]? = some seg) (hj : segOf o rowId = j)
    (hrow : rowId ≤ s.size) (hvalue : value.length ≤ maxStringLen) (hroom : HasRoom o j value seg)
    {records : List StringRecord} (hi : records[i]? = some (addedRecord o rowId value seg))
    (hother : ∀ i', i' ≠ i → records[i']? = s.records[i']?) :
    Sound o { (s.addTo o j rowId value seg).1 with records } := by
  obtain ⟨hblocks, hnumbered⟩ := h.blocks j seg hseg
  obtain ⟨front, hadded, hpos⟩ := placed_added (o := o) hblocks rowId hroom.1
  have hnew : stringPos (AwaDB.addString o value seg) (addedRecord o rowId value seg) =
      seg.strOffset := (stringPos_eq hadded).trans hpos
  -- the strings that were in the segment stay, and they end before the new one
  have hold : ∀ i' r', i' ≠ i → s.records[i']? = some r' → segOf o r'.rowId = j →
      ∃ front, Placed seg r' front ∧ Placed (AwaDB.addString o value seg) r' front := by
    intro i' r' _ hr' hj'
    obtain ⟨front', hplaced⟩ := h.placed i' r' seg hr' (by rw [hj']; exact hseg)
    exact ⟨front', hplaced, hplaced.addString hroom.1⟩
  have hbefore : ∀ i' r', i' ≠ i → s.records[i']? = some r' → segOf o r'.rowId = j →
      Apart (AwaDB.addString o value seg) r' (addedRecord o rowId value seg) := by
    intro i' r' hne hr' hj'
    obtain ⟨front', hplaced, hplaced'⟩ := hold i' r' hne hr' hj'
    refine .inl ?_
    rw [hnew, stringPos_eq hplaced']
    exact hplaced.inside
  refine h.write hseg ⟨hblocks.addString hvalue hroom.1, hroom.2⟩ hj hrow hi hother hadded hold
    hbefore fun key cell hcell => ?_
  obtain ⟨hcached, hblock⟩ := h.cells key cell hcell
  refine ⟨hcached, hblock.set hseg fun b front back hfront hback _ =>
    ⟨getElem?_addString hfront, getElem?_addString hback, ?_⟩⟩
  have hle := hblocks.le_of_lt (Nat.lt_succ_self b) hfront hback
  have hbound := hblocks.bound back (List.mem_of_getElem? hback)
  exact File.pread_pwrite_disjoint (.inl (by omega))

/-- `UpdateString` in place overwrites the string. -/
theorem updateString_eq_some (hplaced : Placed seg r front) (hblocks : Blocks seg)
    (hle : value.length ≤ r.value.length)
    (h : AwaDB.updateString o r.blockId r.inBlockPos value seg = some seg') :
    seg' = { seg with file := seg.file.pwrite (front + r.inBlockPos) value } := by
  have hinside := hplaced.inside
  have hfits := hblocks.fits
  rw [AwaDB.updateString, hplaced.block] at h
  change (if r.inBlockPos + value.length > o.perBlockSize then none else some _) = _ at h
  split at h
  · cases h
  · rw [Nat.mod_eq_of_lt (by omega)] at h
    exact (Option.some.inj h).symm

/-- The cells after the copy are the blocks of the file that was written. -/
theorem Sound.cell_overwrite (h : Sound o s) (hcached : o.cached = true)
    (hseg : s.segments[j]? = some seg) (hplaced : Placed seg r front)
    (hle : value.length ≤ r.value.length)
    (hcell : Function.update s.cells (cacheBlockId o j r.blockId)
      ((s.cells (cacheBlockId o j r.blockId)).map fun cell => patch cell r.inBlockPos value) key =
        some cell) :
    HoldsBlock o (s.segments.set j
      { seg with file := seg.file.pwrite (front + r.inBlockPos) value }) key cell := by
  obtain ⟨hblocks, hnumbered⟩ := h.blocks _ seg hseg
  obtain ⟨hkey, hpatched⟩ | ⟨hkey, hold⟩ := of_update_eq hcell
  · -- the cell is the block of the string, and gets the copy
    obtain ⟨cell', hcell', rfl⟩ := Option.map_eq_some_iff.mp hpatched
    obtain ⟨-, j', b, seg', front', back, hseg', hfront, hback, hb, rfl⟩ := h.cells _ cell' hcell'
    obtain ⟨rfl, rfl⟩ := cacheBlockId_inj hcached (h.blocks _ _ hseg').2 hnumbered
      (List.getElem?_eq_some_iff.mp hfront).1 (List.getElem?_eq_some_iff.mp hplaced.block).1 hb
    rw [hseg] at hseg'
    cases hseg'
    rw [hplaced.block] at hfront
    cases hfront
    have hend := hplaced.back back hback
    exact ⟨_, _, _, _, back, List.getElem?_set_self (List.getElem?_eq_some_iff.mp hseg).1,
      hplaced.block, hback, hkey.symm, (File.pread_pwrite_inside (by omega)).symm⟩
  · -- another block does not meet the string
    refine (h.cells key cell hold).2.set hseg fun b front' back hfront hback hb =>
      ⟨hfront, hback, File.pread_pwrite_disjoint ?_⟩
    have hne : b ≠ r.blockId := by
      rintro rfl
      exact hkey hb.symm
    have hwidth := hblocks.le_of_lt (Nat.lt_succ_self b) hfront hback
    obtain hbefore | hafter := hplaced.other_block hblocks hfront hback hne
    all_goals omega

/-- **A string that is overwritten in place.** -/
theorem Sound.overwrite (h : Sound o s) (hi : s.records[i]? = some r)
    (hseg : s.segments[segOf o r.rowId]? = some seg) (hplaced : Placed seg r front)
    (hle : value.length ≤ r.value.length) {cells : ℕ → Option Bytes}
    (hcells : cells = if o.cached then
      Function.update s.cells (cacheBlockId o (segOf o r.rowId) r.blockId)
        ((s.cells (cacheBlockId o (segOf o r.rowId) r.blockId)).map fun cell =>
          patch cell r.inBlockPos value) else s.cells) :
    Sound o { s with
      segments := s.segments.set (segOf o r.rowId)
        { seg with file := seg.file.pwrite (front + r.inBlockPos) value }
      cells := cells
      records := s.records.set i { r with value } } := by
  obtain ⟨hblocks, hnumbered⟩ := h.blocks _ seg hseg
  have hpos := stringPos_eq hplaced
  -- the string that is overwritten, and the others
  have hself : Placed { seg with file := seg.file.pwrite (front + r.inBlockPos) value }
      { r with value } front := by
    refine ⟨hplaced.block, ?_, fun back hback => ?_, File.pread_pwrite_self⟩
    · exact Nat.le_trans (Nat.add_le_add_left hle _) hplaced.inside
    · exact Nat.le_trans (Nat.add_le_add_left hle _) (hplaced.back back hback)
  have hother : ∀ i' r', i' ≠ i → s.records[i']? = some r' →
      segOf o r'.rowId = segOf o r.rowId → ∃ front', Placed seg r' front' ∧
      Placed { seg with file := seg.file.pwrite (front + r.inBlockPos) value } r' front' := by
    intro i' r' hne hr' hsame
    obtain ⟨front', hplaced'⟩ := h.placed i' r' seg hr' (by rw [hsame]; exact hseg)
    refine ⟨front', hplaced', hplaced'.block, hplaced'.inside, hplaced'.back, ?_⟩
    have hapart := h.apart i' i r' r seg hne hr' hi hsame (by rw [hsame]; exact hseg)
    rw [Apart, hpos, stringPos_eq hplaced'] at hapart
    show (seg.file.pwrite _ value).pread _ _ = _
    rw [File.pread_pwrite_disjoint (by omega), hplaced'.bytes]
  have hapart : ∀ i' r', i' ≠ i → s.records[i']? = some r' → segOf o r'.rowId = segOf o r.rowId →
      Apart { seg with file := seg.file.pwrite (front + r.inBlockPos) value } r'
        { r with value } := by
    intro i' r' hne hr' hsame
    obtain ⟨front', hplaced', hstays⟩ := hother i' r' hne hr' hsame
    have hapart := h.apart i' i r' r seg hne hr' hi hsame (by rw [hsame]; exact hseg)
    rw [Apart, hpos, stringPos_eq hplaced'] at hapart
    rw [Apart, stringPos_eq hself, stringPos_eq hstays]
    show _ ≤ front + r.inBlockPos ∨ front + r.inBlockPos + value.length ≤ _
    omega
  have hlt : i < s.records.length := (List.getElem?_eq_some_iff.mp hi).1
  have hwritten : Blocks { seg with file := seg.file.pwrite (front + r.inBlockPos) value } :=
    ⟨hblocks.sorted, hblocks.bound, hblocks.last, hblocks.wide, hblocks.fits⟩
  refine h.write hseg ⟨hwritten, hnumbered⟩ (r := { r with value }) rfl (h.rows i r hi)
    (List.getElem?_set_self hlt) (fun i' hne => List.getElem?_set_ne (Ne.symm hne)) hself hother
    hapart fun key cell hcell => ?_
  cases hcached : o.cached with
  | false =>
    rw [hcells, hcached] at hcell
    have hsome := (h.cells key cell hcell).1
    rw [hcached] at hsome
    cases hsome
  | true =>
    rw [hcells, if_pos hcached] at hcell
    exact ⟨rfl, h.cell_overwrite hcached hseg hplaced hle hcell⟩

theorem HoldsBlock.mono {segments segments' : List StringSegment}
    (h : HoldsBlock o segments key cell)
    (hmono : ∀ (j : ℕ) seg, segments[j]? = some seg → segments'[j]? = some seg) :
    HoldsBlock o segments' key cell := by
  obtain ⟨j, b, seg, front, back, hseg, hrest⟩ := h
  exact ⟨j, b, seg, front, back, hmono j seg hseg, hrest⟩

/-- A segment without blocks, whose strings start at the front of the file. -/
theorem blocks_unused (hempty : seg.blockPos = []) (hzero : seg.strOffset = 0) : Blocks seg where
  sorted := hempty ▸ List.Pairwise.nil
  bound p hp := absurd (hempty ▸ hp) List.not_mem_nil
  last := by
    rw [hzero]
    exact Nat.zero_le _
  wide k front back hfront := by
    rw [hempty] at hfront
    cases hfront
  fits := hzero ▸ Nat.two_pow_pos 32

theorem numbered_unused (hempty : seg.blockPos = []) : Numbered o j seg := by
  intro _ b hb
  rw [hempty] at hb
  exact absurd hb (Nat.not_lt_zero b)

/-- **A row**, which may open a segment without strings. -/
theorem Sound.row {unused : StringSegment} {segments : List StringSegment} (h : Sound o s)
    (hempty : unused.blockPos = []) (hzero : unused.strOffset = 0)
    (hsegments : segments = if (s.size + 1) % o.segmentSize = 0 then s.segments ++ [unused]
      else s.segments) : Sound o { s with size := s.size + 1, segments } := by
  have hdiv : (s.size + 1) / o.segmentSize = s.size / o.segmentSize +
      if (s.size + 1) % o.segmentSize = 0 then 1 else 0 := by
    rw [Nat.succ_div]
    simp only [Nat.dvd_iff_mod_eq_zero]
  have hcount := h.count
  have hmono : ∀ (j : ℕ) seg, s.segments[j]? = some seg → segments[j]? = some seg := by
    intro j seg hseg
    rw [hsegments]
    split
    · rw [List.getElem?_append_left (List.getElem?_eq_some_iff.mp hseg).1, hseg]
    · exact hseg
  have hback : ∀ r seg, r ∈ s.records → segments[segOf o r.rowId]? = some seg →
      s.segments[segOf o r.rowId]? = some seg := by
    intro r seg hr hseg
    obtain ⟨i, hi⟩ := List.mem_iff_getElem?.mp hr
    obtain ⟨seg', hseg'⟩ := h.segment (h.rows i r hi)
    rw [hmono _ _ hseg'] at hseg
    rw [hseg', hseg]
  refine ⟨?_, fun i r hr => Nat.le_succ_of_le (h.rows i r hr), fun j seg hseg => ?_,
    fun i r seg hr hseg => h.placed i r seg hr (hback r seg (List.mem_of_getElem? hr) hseg),
    fun i i' r r' seg hne hr hr' hsame hseg =>
      h.apart i i' r r' seg hne hr hr' hsame (hback r seg (List.mem_of_getElem? hr) hseg),
    fun key cell hcell => ⟨(h.cells key cell hcell).1, (h.cells key cell hcell).2.mono hmono⟩⟩
  · show segments.length = (s.size + 1) / o.segmentSize + 1
    rw [hdiv, hsegments]
    split
    · rw [List.length_append, List.length_singleton]
      omega
    · omega
  · change segments[j]? = some seg at hseg
    rw [hsegments] at hseg
    split at hseg
    · rw [List.getElem?_append] at hseg
      split at hseg
      · exact h.blocks j seg hseg
      · obtain rfl := List.mem_singleton.mp (List.mem_of_getElem? hseg)
        exact ⟨blocks_unused hempty hzero, numbered_unused hempty⟩
    · exact h.blocks j seg hseg

/-- `GetString` puts the block of the file into its cell. -/
theorem Sound.fillCell (h : Sound o s) : Sound o (s.fillCell o r) := by
  rw [StringStore.fillCell]
  split
  · exact h
  next seg hseg =>
    obtain hnone | ⟨front, back, hbounds, hfront, hback⟩ := blockBounds_eq seg r.blockId
    · rw [hnone]
      exact h
    · simp only [hbounds]
      split
      next hcached =>
        refine ⟨h.count, h.rows, h.blocks, h.placed, h.apart, fun key cell hcell => ?_⟩
        obtain ⟨hkey, hblock⟩ | ⟨-, hold⟩ := of_update_eq (f := s.cells) hcell
        · rw [h.cachedBlock_eq hseg hcached hfront hback] at hblock
          cases hblock
          exact ⟨hcached, _, _, seg, front, back, hseg, hfront, hback, hkey.symm, rfl⟩
        · exact h.cells key cell hold
      · exact h

theorem Sound.evict (h : Sound o s) (key : ℕ) :
    Sound o { s with cells := Function.update s.cells key none } := by
  refine ⟨h.count, h.rows, h.blocks, h.placed, h.apart, fun key' cell hcell => ?_⟩
  exact h.cells key' cell (of_update_none hcell)

/-- The strings of a new row go to the last segment. -/
theorem Sound.addString (h : Sound o s) (hroomy : Roomy o (.addString value) s)
    (hstep : step o (.addString value) s = some t) : Sound o t := by
  rw [step] at hstep
  split at hstep
  next hvalue =>
    obtain ⟨seg, hseg, rfl⟩ := Option.map_eq_some_iff.mp hstep
    have hj : segOf o s.size = s.segments.length - 1 := by
      rw [h.count]
      rfl
    refine h.addTo (i := s.records.length) hseg hj (Nat.le_refl _) hvalue (hroomy seg hseg) ?_ ?_
    · exact List.getElem?_concat_length
    · intro i' hne
      rw [List.getElem?_append]
      split
      · rfl
      · rw [List.getElem?_eq_none (by rw [List.length_singleton]; omega),
          List.getElem?_eq_none (by omega)]
  · cases hstep

/-- **An update** overwrites the string, or adds it again. -/
theorem Sound.updateString (h : Sound o s) (hroomy : Roomy o (.updateString i value) s)
    (hstep : step o (.updateString i value) s = some t) : Sound o t := by
  rw [step] at hstep
  obtain ⟨r, hi, hstep⟩ := Option.bind_eq_some_iff.mp hstep
  split at hstep
  next hguard =>
    obtain ⟨hvalue, hrow⟩ := hguard
    obtain ⟨seg, hseg, hnext⟩ := Option.map_eq_some_iff.mp hstep
    obtain ⟨front, hplaced⟩ := h.placed i r seg hi hseg
    have hlt : i < s.records.length := (List.getElem?_eq_some_iff.mp hi).1
    dsimp only at hnext
    split at hnext
    next seg' hsome =>
      split at hsome
      next hle =>
        rw [updateString_eq_some hplaced (h.blocks _ seg hseg).1 hle hsome] at hnext
        subst hnext
        have hnew := h.overwrite hi hseg hplaced hle rfl
        split at hnew
        next hcached => rw [if_pos hcached]; exact hnew
        next hcached => rw [if_neg hcached]; exact hnew
      · cases hsome
    next hnone =>
      have hroom : HasRoom o (segOf o r.rowId) value seg := by
        refine hroomy r seg hi hseg fun hle => ?_
        rwa [if_pos hle] at hnone
      subst hnext
      refine h.addTo hseg rfl (h.rows i r hi) hvalue hroom (List.getElem?_set_self hlt) ?_
      exact fun i' hne => List.getElem?_set_ne (Ne.symm hne)
  · cases hstep

/-- **What an event preserves.** -/
theorem Sound.step {op : StringOp} (h : Sound o s) (hroomy : Roomy o op s)
    (hstep : step o op s = some t) : Sound o t := by
  cases op with
  | addString value => exact h.addString hroomy hstep
  | add =>
    cases hstep
    exact h.row rfl rfl rfl
  | updateString i value => exact h.updateString hroomy hstep
  | getString i =>
    obtain ⟨r, -, hstep⟩ := Option.bind_eq_some_iff.mp hstep
    split at hstep
    · cases hstep
      exact h.fillCell
    · cases hstep
  | evict key =>
    cases hstep
    exact h.evict key

theorem sound_create : Sound o create := by
  refine ⟨?_, fun i r hr => ?_, fun j seg hseg => ?_, fun i r seg hr => ?_,
    fun i i' r r' seg hne hr => ?_, fun key cell hcell => ?_⟩
  · show 1 = 0 / o.segmentSize + 1
    rw [Nat.zero_div]
  · cases hr
  · obtain rfl := List.mem_singleton.mp (List.mem_of_getElem? hseg)
    exact ⟨blocks_unused rfl rfl, numbered_unused rfl⟩
  · cases hr
  · cases hr
  · cases hcell

/-- **Strings are lossless**: each is read as it was last written, in every state of every run in
which no segment gets 4 GiB of strings and every block has a number of its own in the cache. -/
theorem lossless_always (o : StringOptions) (ops : List StringOp)
    (h : EachStep (StringStore.step o) (Roomy o) ops create) :
    Always (StringStore.step o) (Lossless o) ops create :=
  (always_of_guard (fun _ _ _ hs hroomy hstep => hs.step hroomy hstep) sound_create h).imp
    fun _ hs => hs.lossless

/-- Blocks of 8 bytes with a cache, and 4 rows in a segment. -/
def shortBlocks : StringOptions where
  perBlockSize := 8
  segBlockCapacity := 4
  segmentSize := 4
  cached := true
  perBlock_le := Nat.le_of_ble_eq_true rfl
  segment_pos := Nat.zero_lt_succ 3

/-- The second string starts a block. The first is read, overwritten in its cell and then moved. -/
theorem lossless_moved : Always (StringStore.step shortBlocks) (Lossless shortBlocks)
    [.addString [1, 2, 3], .add, .addString [4, 5, 6, 7, 8], .getString 0, .updateString 0 [9],
      .getString 0, .updateString 0 [1, 1]] create := by
  refine lossless_always shortBlocks _ (.cons rfl ?_ (.cons rfl trivial (.cons rfl ?_
    (.cons rfl trivial (.cons rfl ?_ (.cons rfl trivial (.cons rfl ?_ trivial)))))))
  · intro seg hseg
    cases hseg
    exact ⟨by decide, by decide⟩
  · intro seg hseg
    cases hseg
    exact ⟨by decide, by decide⟩
  · intro r seg hr hseg hnone
    cases hr
    cases hseg
    cases hnone (by decide)
  · intro r seg hr hseg _
    cases hr
    cases hseg
    exact ⟨by decide, by decide⟩

/-! ### Four GiB of strings -/

/-- A segment that got `n` times the string, which is the first one of row 0. -/
structure Filled (value : Bytes) (n : ℕ) (seg : StringSegment) (s : StringStore) : Prop where
  segments : s.segments = [seg]
  offset : seg.strOffset = n * value.length % 2 ^ 32
  block : seg.blockPos[0]? = some 0
  first : s.records[0]? = some ⟨0, 0, 0, value⟩
  size : s.size = 0

theorem step_addString (hone : s.segments = [seg]) (hvalue : value.length ≤ maxStringLen) :
    StringStore.step o (.addString value) s = some { s with
      segments := [AwaDB.addString o value seg]
      records := s.records ++ [addedRecord o s.size value seg] } := by
  obtain ⟨segments, size, cells, records⟩ := s
  cases hone
  rw [StringStore.step, if_pos hvalue]
  rfl

/-- The first string fits into the first block. -/
theorem filled_one (hvalue : value.length ≤ maxStringLen) (hlt : value.length < o.perBlockSize) :
    ∃ seg s, StringStore.step o (.addString value) create = some s ∧ Filled value 1 seg s := by
  have hstarts : ¬ StartsBlock o value emptySegment := Nat.not_le.mpr (by
    show 0 + value.length < o.perBlockSize
    rwa [Nat.zero_add])
  have hblock : (AwaDB.addString o value emptySegment).blockPos = [0] := if_neg hstarts
  refine ⟨_, _, step_addString rfl hvalue, rfl, ?_, by rw [hblock]; rfl, ?_, rfl⟩
  · show (0 + value.length) % 2 ^ 32 = _
    rw [Nat.zero_add, Nat.one_mul]
  · show some (addedRecord o 0 value emptySegment) = _
    rw [addedRecord, hblock, if_neg hstarts]
    rfl

theorem Filled.step {n : ℕ} (h : Filled value n seg s) (hvalue : value.length ≤ maxStringLen) :
    ∃ seg' t, StringStore.step o (.addString value) s = some t ∧ Filled value (n + 1) seg' t := by
  refine ⟨_, _, step_addString h.segments hvalue, rfl, ?_, getElem?_addString h.block, ?_, h.size⟩
  · show (seg.strOffset + value.length) % 2 ^ 32 = _
    rw [h.offset, Nat.mod_add_mod, Nat.add_mul, Nat.one_mul]
  · have hlt := (List.getElem?_eq_some_iff.mp h.first).1
    exact (List.getElem?_append_left hlt).trans h.first

/-- **The offset** after any number of strings. -/
theorem runOps_filled (n : ℕ) (hvalue : value.length ≤ maxStringLen)
    (hlt : value.length < o.perBlockSize) : ∃ seg s,
      runOps (StringStore.step o) (List.replicate (n + 1) (.addString value)) create = some s ∧
        Filled value (n + 1) seg s := by
  induction n with
  | zero =>
    obtain ⟨seg, s, hs, hfilled⟩ := filled_one hvalue hlt
    exact ⟨seg, s, by rw [List.replicate_one, runOps_cons, hs]; rfl, hfilled⟩
  | succ n ih =>
    obtain ⟨seg, s, hs, hfilled⟩ := ih
    obtain ⟨seg', t, ht, hfilled'⟩ := hfilled.step (o := o) hvalue
    refine ⟨seg', t, ?_, hfilled'⟩
    rw [List.replicate_succ', runOps_append, hs, Option.bind_some, runOps_cons, ht]
    rfl

/-- Without a cache, a string is read from the file. -/
theorem getString_uncached (hcached : o.cached = false) (hread : s.getString o r = some value)
    (hseg : s.segments[segOf o r.rowId]? = some seg) :
    readFile seg r.blockId r.inBlockPos r.value.length = value := by
  rw [getString, hseg, Option.bind_some] at hread
  obtain hnone | ⟨front, back, hbounds, -, -⟩ := blockBounds_eq seg r.blockId
  · rw [hnone] at hread
    exact Option.some.inj hread
  · simp only [hbounds, hcached] at hread
    exact Option.some.inj hread

/-- Blocks of 64 KiB, without a cache. -/
def wideBlocks : StringOptions where
  perBlockSize := maxBlockSize
  segBlockCapacity := 400000
  segmentSize := 500000
  cached := false
  perBlock_le := Nat.le_refl _
  segment_pos := Nat.zero_lt_succ _

/-- The longest string. -/
def longString : Bytes := List.replicate maxStringLen 0

theorem longString_length : longString.length = maxStringLen := List.length_replicate

/-- 65538 of the longest strings are 65534 bytes more than 4 GiB: the next string overwrites the end
of the first one. -/
theorem strings_overwritten : ¬ ∀ (o : StringOptions) (ops : List StringOp),
    Always (StringStore.step o) (Lossless o) ops create := by
  intro h
  have hlong : longString.length ≤ maxStringLen := Nat.le_of_eq longString_length
  have hshort : longString.length < wideBlocks.perBlockSize := by
    rw [longString_length]
    decide
  obtain ⟨seg, s, hrun, hfilled⟩ := runOps_filled (o := wideBlocks) 65537 hlong hshort
  have hoffset : seg.strOffset = 65534 := by
    rw [hfilled.offset, longString_length]
    decide
  have hlast := (h wideBlocks (List.replicate (65537 + 1) (.addString longString) ++
    [.addString [1], .add])).last (by
      rw [runOps_append, hrun, Option.bind_some, runOps_cons,
        step_addString hfilled.segments (by decide)]
      rfl)
  have hread := hlast ⟨0, 0, 0, longString⟩
    (List.mem_append_left _ (List.mem_of_getElem? hfilled.first)) (Nat.succ_pos _)
  have hseg : (if (s.size + 1) % wideBlocks.segmentSize = 0
      then [AwaDB.addString wideBlocks [1] seg] ++ [emptySegment]
      else [AwaDB.addString wideBlocks [1] seg])[segOf wideBlocks 0]? =
        some (AwaDB.addString wideBlocks [1] seg) := by
    split <;> rfl
  have hfile := getString_uncached rfl hread hseg
  rw [readFile, getElem?_addString hfilled.block] at hfile
  -- the last byte of the first string
  have hbyte := congrArg (fun bytes => bytes[65534]?) hfile
  change ((seg.file.pwrite seg.strOffset [1]).pread 0 longString.length)[65534]? =
    longString[65534]? at hbyte
  rw [File.getElem?_pread, longString_length, if_pos (by decide), Nat.zero_add, hoffset,
    File.pwrite, longString, List.getElem?_replicate, if_pos (by decide)] at hbyte
  exact absurd hbyte (by decide)

end StringStore

end AwaDB
