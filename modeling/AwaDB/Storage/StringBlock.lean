import AwaDB.Lib.File
import AwaDB.Lib.Run
import AwaDB.Table.Row

/-!
# Strings of a segment (`storage/string_block.cc`, `storage/segment.cc`)

The strings of a segment stand one behind the other in a file. They are cut into blocks: a string
with which the last block would reach `per_block_size_` starts a new one. A string is found again by
its block, its position in the block and its length. All blocks but the last are cached.

* `Placed.readFile`, `Placed.readBlock`: a string that stands in its block is read as it was
  written;
* `placed_added`, `Placed.addString`: a string that is added stands in its block, and the others
  stay in theirs, as long as the offset of the segment does not overflow.
-/

namespace AwaDB

open Lib

/-- `MAX_BLOCK_SIZE`. -/
def maxBlockSize : ℕ := 65536

/-- `per_block_size_`, which is rounded down to whole items from 64 KiB, `seg_block_capacity`,
`segment_size`, and whether there is a cache for strings. -/
structure StringOptions where
  perBlockSize : ℕ
  segBlockCapacity : ℕ
  segmentSize : ℕ
  cached : Bool
  perBlock_le : perBlockSize ≤ maxBlockSize
  segment_pos : 0 < segmentSize

/-- The file of a segment, `block_pos_` and `str_offset_`. The capacity of the file only grows. -/
structure StringSegment where
  file : File
  blockPos : List ℕ
  strOffset : ℕ

/-- What the caller records of a string, with the row it is for and its value. -/
structure StringRecord where
  rowId : ℕ
  blockId : ℕ
  inBlockPos : ℕ
  value : Bytes
deriving DecidableEq, Repr

section Segment

variable (o : StringOptions)

/-- `block_pos_` with the first block. -/
def startedBlocks (seg : StringSegment) : List ℕ := if seg.blockPos = [] then [0] else seg.blockPos

/-- `in_block_pos` behind the last block. -/
def inLastBlock (seg : StringSegment) : ℕ :=
  (seg.strOffset + 2 ^ 32 - (startedBlocks seg).getLastD 0) % 2 ^ 32 % 2 ^ 16

/-- The string starts a block. -/
def StartsBlock (value : Bytes) (seg : StringSegment) : Prop :=
  inLastBlock seg + value.length ≥ o.perBlockSize

instance (value : Bytes) (seg : StringSegment) : Decidable (StartsBlock o value seg) :=
  inferInstanceAs (Decidable (_ ≥ _))

/-- `Segment::AddString`, with `StringBlock::WriteString`. -/
def addString (value : Bytes) (seg : StringSegment) : StringSegment where
  file := seg.file.pwrite seg.strOffset value
  blockPos :=
    if StartsBlock o value seg then startedBlocks seg ++ [seg.strOffset] else startedBlocks seg
  strOffset := (seg.strOffset + value.length) % 2 ^ 32

/-- The block and the position that `AddString` returns. -/
def addedRecord (rowId : ℕ) (value : Bytes) (seg : StringSegment) : StringRecord where
  rowId := rowId
  blockId := (addString o value seg).blockPos.length - 1
  inBlockPos := if StartsBlock o value seg then 0 else inLastBlock seg
  value := value

/-- `StringBlock::UpdateString`, for the file; `none` is the code -1. -/
def updateString (blockId inBlockPos : ℕ) (value : Bytes) (seg : StringSegment) :
    Option StringSegment :=
  match seg.blockPos[blockId]? with
  | none => none
  | some blockPos =>
    if inBlockPos + value.length > o.perBlockSize then none
    else some { seg with file := seg.file.pwrite ((blockPos + inBlockPos) % 2 ^ 32) value }

end Segment

/-- The file and the bounds of a block that is not the last. -/
def blockBounds (seg : StringSegment) (blockId : ℕ) : Option (ℕ × ℕ) :=
  match seg.blockPos[blockId]?, seg.blockPos[blockId + 1]? with
  | some front, some back => some (front, back)
  | _, _ => none

/-- `StringBlock::Read` from the file. -/
def readFile (seg : StringSegment) (blockId inBlockPos len : ℕ) : Bytes :=
  seg.file.pread (((seg.blockPos[blockId]?).getD 0 + inBlockPos) % 2 ^ 32) len

/-- `StringBlock::Read` from a block in memory; behind its end there is nothing defined. -/
def readBlock (block : Bytes) (inBlockPos len : ℕ) : Option Bytes :=
  if inBlockPos + len ≤ block.length then some ((block.drop inBlockPos).take len) else none

/-! ### Where the blocks are -/

section

variable {o : StringOptions} {seg : StringSegment} {value : Bytes} {r r' : StringRecord}
  {rowId front back : ℕ}

/-- The blocks stand one behind the other, and positions in them fit into 16 bits. -/
structure Blocks (seg : StringSegment) : Prop where
  sorted : seg.blockPos.Pairwise (· ≤ ·)
  bound : ∀ p ∈ seg.blockPos, p ≤ seg.strOffset
  last : seg.strOffset ≤ (startedBlocks seg).getLastD 0 + maxStringLen
  wide : ∀ k front back, seg.blockPos[k]? = some front → seg.blockPos[k + 1]? = some back →
    back ≤ front + maxStringLen
  fits : seg.strOffset < 2 ^ 32

theorem startedBlocks_ne_nil : startedBlocks seg ≠ [] := by
  rw [startedBlocks]
  split
  · exact List.cons_ne_nil _ _
  next h => exact h

theorem Blocks.started (h : Blocks seg) : (startedBlocks seg).Pairwise (· ≤ ·) ∧
    ∀ p ∈ startedBlocks seg, p ≤ seg.strOffset := by
  rw [startedBlocks]
  split
  · refine ⟨List.pairwise_singleton _ _, fun p hp => ?_⟩
    rw [List.mem_singleton.mp hp]
    exact Nat.zero_le _
  · exact ⟨h.sorted, h.bound⟩

theorem getLastD_mem : (startedBlocks seg).getLastD 0 ∈ startedBlocks seg := by
  rw [List.getLastD_eq_getLast?, List.getLast?_eq_some_getLast startedBlocks_ne_nil]
  exact List.getLast_mem _

/-- **The position fits**: it is not cut to 16 bits. -/
theorem Blocks.inLastBlock_eq (h : Blocks seg) :
    inLastBlock seg = seg.strOffset - (startedBlocks seg).getLastD 0 := by
  have hle := h.started.2 _ getLastD_mem
  have hlast := h.last
  have hfits := h.fits
  rw [maxStringLen] at hlast
  rw [inLastBlock]
  omega

/-- The blocks that were there stay. -/
theorem getElem?_addString {k p : ℕ} (h : seg.blockPos[k]? = some p) :
    (addString o value seg).blockPos[k]? = some p := by
  have hlt : k < seg.blockPos.length := (List.getElem?_eq_some_iff.mp h).1
  have hstarted : startedBlocks seg = seg.blockPos := by
    rw [startedBlocks, if_neg]
    rintro hnil
    rw [hnil] at hlt
    exact absurd hlt (Nat.not_lt_zero k)
  show (if StartsBlock o value seg then _ else _)[k]? = _
  split
  · rw [hstarted, List.getElem?_append_left hlt, h]
  · rw [hstarted, h]

/-- The block behind one that was there is the old one, or starts with the new string. -/
theorem getElem?_succ_addString {k front back : ℕ} (hk : seg.blockPos[k]? = some front)
    (hback : (addString o value seg).blockPos[k + 1]? = some back) :
    seg.blockPos[k + 1]? = some back ∨ back = seg.strOffset := by
  have hlt : k < seg.blockPos.length := (List.getElem?_eq_some_iff.mp hk).1
  have hstarted : startedBlocks seg = seg.blockPos := by
    rw [startedBlocks, if_neg]
    intro hnil
    rw [hnil] at hlt
    exact absurd hlt (Nat.not_lt_zero k)
  change (if StartsBlock o value seg then startedBlocks seg ++ [seg.strOffset]
    else startedBlocks seg)[k + 1]? = some back at hback
  rw [hstarted] at hback
  split at hback
  · by_cases hold : k + 1 < seg.blockPos.length
    · rw [List.getElem?_append_left hold] at hback
      exact .inl hback
    · rw [List.getElem?_append_right (Nat.not_lt.mp hold), List.getElem?_singleton] at hback
      split at hback
      · exact .inr (Option.some.inj hback).symm
      · cases hback
  · exact .inl hback

theorem Blocks.le_of_lt (h : Blocks seg) {i j a b : ℕ} (hij : i < j)
    (hi : seg.blockPos[i]? = some a) (hj : seg.blockPos[j]? = some b) : a ≤ b := by
  obtain ⟨hlti, rfl⟩ := List.getElem?_eq_some_iff.mp hi
  obtain ⟨hltj, rfl⟩ := List.getElem?_eq_some_iff.mp hj
  exact List.pairwise_iff_getElem.mp h.sorted i j hlti hltj hij

theorem Blocks.wide_started (h : Blocks seg) {k front back : ℕ}
    (hfront : (startedBlocks seg)[k]? = some front)
    (hback : (startedBlocks seg)[k + 1]? = some back) : back ≤ front + maxStringLen := by
  rw [startedBlocks] at hfront hback
  split at hfront
  next hnil =>
    rw [if_pos hnil] at hback
    cases hback
  next hne =>
    rw [if_neg hne] at hback
    exact h.wide k front back hfront hback

theorem startedBlocks_addString :
    startedBlocks (addString o value seg) = (addString o value seg).blockPos := by
  refine if_neg fun hnil => ?_
  change (if StartsBlock o value seg then startedBlocks seg ++ [seg.strOffset]
    else startedBlocks seg) = [] at hnil
  split at hnil
  · exact absurd hnil (List.append_ne_nil_of_right_ne_nil _ (List.cons_ne_nil _ _))
  · exact startedBlocks_ne_nil hnil

/-- The last block after a string was added. -/
theorem getLastD_addString : (addString o value seg).blockPos.getLastD 0 =
    if StartsBlock o value seg then seg.strOffset else (startedBlocks seg).getLastD 0 := by
  show (if StartsBlock o value seg then startedBlocks seg ++ [seg.strOffset]
    else startedBlocks seg).getLastD 0 = _
  split
  · rw [List.getLastD_eq_getLast?, List.getLast?_concat]
    rfl
  · rfl

/-- A new block stands behind the others. -/
theorem Blocks.sorted_addString (h : Blocks seg) :
    (addString o value seg).blockPos.Pairwise (· ≤ ·) := by
  obtain ⟨hsorted, hbound⟩ := h.started
  show (if StartsBlock o value seg then startedBlocks seg ++ [seg.strOffset]
    else startedBlocks seg).Pairwise (· ≤ ·)
  split
  · refine List.pairwise_append.mpr ⟨hsorted, List.pairwise_singleton _ _, fun p hp q hq => ?_⟩
    rw [List.mem_singleton.mp hq]
    exact hbound p hp
  · exact hsorted

theorem Blocks.addString (h : Blocks seg) (hlength : value.length ≤ maxStringLen)
    (hfits : seg.strOffset + value.length < 2 ^ 32) : Blocks (addString o value seg) := by
  have hoffset : (AwaDB.addString o value seg).strOffset = seg.strOffset + value.length :=
    Nat.mod_eq_of_lt hfits
  obtain ⟨hsorted, hbound⟩ := h.started
  refine ⟨h.sorted_addString, fun p hp => ?_, ?_, fun k front back hfront hback => ?_,
    by rw [hoffset]; exact hfits⟩
  · change p ∈ (if StartsBlock o value seg then startedBlocks seg ++ [seg.strOffset]
      else startedBlocks seg) at hp
    have hle : p ≤ seg.strOffset := by
      split at hp
      · obtain hp | hp := List.mem_append.mp hp
        · exact hbound p hp
        · exact Nat.le_of_eq (List.mem_singleton.mp hp)
      · exact hbound p hp
    rw [hoffset]
    exact Nat.le_trans hle (Nat.le_add_right _ _)
  · rw [startedBlocks_addString, getLastD_addString, hoffset]
    split
    · omega
    next hstarts =>
      have hin := h.inLastBlock_eq
      have hlast := hbound _ getLastD_mem
      have hperBlock := o.perBlock_le
      have hnot : inLastBlock seg + value.length < o.perBlockSize := Nat.not_le.mp hstarts
      rw [maxBlockSize] at hperBlock
      rw [maxStringLen]
      omega
  · change (if StartsBlock o value seg then startedBlocks seg ++ [seg.strOffset]
      else startedBlocks seg)[k]? = some front at hfront
    change (if StartsBlock o value seg then startedBlocks seg ++ [seg.strOffset]
      else startedBlocks seg)[k + 1]? = some back at hback
    split at hback
    next hstarts =>
      rw [if_pos hstarts] at hfront
      by_cases hold : k + 1 < (startedBlocks seg).length
      · rw [List.getElem?_append_left (by omega)] at hfront
        rw [List.getElem?_append_left hold] at hback
        exact h.wide_started hfront hback
      · rw [List.getElem?_append_right (Nat.not_lt.mp hold), List.getElem?_singleton] at hback
        split at hback
        next hindex =>
          cases hback
          have hlength : (startedBlocks seg).length = k + 1 := by omega
          rw [List.getElem?_append_left (by omega)] at hfront
          have hlast : (startedBlocks seg).getLastD 0 = front := by
            rw [List.getLastD_eq_getLast?, List.getLast?_eq_getElem?, hlength, Nat.add_sub_cancel,
              hfront]
            rfl
          rw [← hlast]
          exact h.last
        · cases hback
    next hstarts =>
      rw [if_neg hstarts] at hfront
      exact h.wide_started hfront hback

/-! ### Where a string is -/

/-- A string stands in its block, which starts at `front`. -/
structure Placed (seg : StringSegment) (r : StringRecord) (front : ℕ) : Prop where
  block : seg.blockPos[r.blockId]? = some front
  inside : front + r.inBlockPos + r.value.length ≤ seg.strOffset
  back : ∀ back, seg.blockPos[r.blockId + 1]? = some back →
    front + r.inBlockPos + r.value.length ≤ back
  bytes : seg.file.pread (front + r.inBlockPos) r.value.length = r.value

/-- **A string is read from the file** as it was written. -/
theorem Placed.readFile (h : Placed seg r front) (hblocks : Blocks seg) :
    readFile seg r.blockId r.inBlockPos r.value.length = r.value := by
  have hfits := hblocks.fits
  have hinside := h.inside
  rw [AwaDB.readFile, h.block, Option.getD_some, Nat.mod_eq_of_lt (by omega)]
  exact h.bytes

/-- **A string is read from its block** as it was written. -/
theorem Placed.readBlock (h : Placed seg r front) {back : ℕ}
    (hback : seg.blockPos[r.blockId + 1]? = some back) :
    readBlock (seg.file.pread front (back - front)) r.inBlockPos r.value.length = some r.value := by
  have hle := h.back back hback
  rw [AwaDB.readBlock, File.pread_length, if_pos (by omega), File.take_drop_pread (by omega),
    h.bytes]

/-- A string meets no block but its own. -/
theorem Placed.other_block (h : Placed seg r front) (hblocks : Blocks seg) {b front' back : ℕ}
    (hfront : seg.blockPos[b]? = some front') (hback : seg.blockPos[b + 1]? = some back)
    (hne : b ≠ r.blockId) : back ≤ front ∨ front + r.inBlockPos + r.value.length ≤ front' := by
  obtain hlt | hlt := Nat.lt_or_gt_of_ne hne
  · refine .inl ?_
    obtain hlt | heq := Nat.lt_or_eq_of_le (Nat.succ_le_of_lt hlt)
    · exact hblocks.le_of_lt hlt hback h.block
    · rw [show b + 1 = r.blockId from heq, h.block] at hback
      exact Nat.le_of_eq (Option.some.inj hback).symm
  · refine .inr ?_
    have hnext : r.blockId + 1 < seg.blockPos.length := by
      have hb := (List.getElem?_eq_some_iff.mp hfront).1
      omega
    have hend := h.back _ (List.getElem?_eq_getElem hnext)
    obtain hlt | heq := Nat.lt_or_eq_of_le (Nat.succ_le_of_lt hlt)
    · exact Nat.le_trans hend (hblocks.le_of_lt hlt (List.getElem?_eq_getElem hnext) hfront)
    · rw [show b = r.blockId + 1 from heq.symm, List.getElem?_eq_getElem hnext] at hfront
      exact Nat.le_trans hend (Nat.le_of_eq (Option.some.inj hfront))

/-- A string that was placed stays where it is. -/
theorem Placed.addString (h : Placed seg r front)
    (hfits : seg.strOffset + value.length < 2 ^ 32) : Placed (addString o value seg) r front where
  block := getElem?_addString h.block
  inside := by
    have hoffset : (AwaDB.addString o value seg).strOffset = seg.strOffset + value.length :=
      Nat.mod_eq_of_lt hfits
    have hinside := h.inside
    omega
  back back hback := by
    obtain hold | rfl := getElem?_succ_addString h.block hback
    · exact h.back back hold
    · exact h.inside
  bytes := by
    show (seg.file.pwrite seg.strOffset value).pread _ _ = _
    rw [File.pread_pwrite_disjoint (.inl h.inside), h.bytes]

/-- The block of a string that is added is the last, and the string begins at the end of the file. -/
theorem added_block (hblocks : Blocks seg) (rowId : ℕ) :
    ∃ front, (addString o value seg).blockPos[(addedRecord o rowId value seg).blockId]? = some front ∧
      front + (addedRecord o rowId value seg).inBlockPos = seg.strOffset := by
  have hne : (addString o value seg).blockPos ≠ [] := by
    rw [← startedBlocks_addString]
    exact startedBlocks_ne_nil
  refine ⟨(addString o value seg).blockPos.getLastD 0, ?_, ?_⟩
  · show (addString o value seg).blockPos[(addString o value seg).blockPos.length - 1]? = _
    rw [List.getLastD_eq_getLast?, ← List.getLast?_eq_getElem?, List.getLast?_eq_some_getLast hne]
    rfl
  · rw [getLastD_addString]
    show _ + (if StartsBlock o value seg then 0 else inLastBlock seg) = _
    split
    · rfl
    · have hle := hblocks.started.2 _ getLastD_mem
      rw [hblocks.inLastBlock_eq]
      omega

/-- **A string that is added** stands at the end of the file. -/
theorem placed_added (hblocks : Blocks seg) (rowId : ℕ)
    (hfits : seg.strOffset + value.length < 2 ^ 32) :
    ∃ front, Placed (addString o value seg) (addedRecord o rowId value seg) front ∧
      front + (addedRecord o rowId value seg).inBlockPos = seg.strOffset := by
  have hoffset : (addString o value seg).strOffset = seg.strOffset + value.length :=
    Nat.mod_eq_of_lt hfits
  have hne : (addString o value seg).blockPos ≠ [] := by
    rw [← startedBlocks_addString]
    exact startedBlocks_ne_nil
  have hpos : 0 < (addString o value seg).blockPos.length := List.length_pos_iff.mpr hne
  obtain ⟨front, hblock, hfront⟩ := @added_block o seg value hblocks rowId
  refine ⟨front, ⟨hblock, ?_, fun back hback => ?_, ?_⟩, hfront⟩
  · rw [hfront, hoffset]
    exact Nat.le_refl _
  · change (addString o value seg).blockPos[(addString o value seg).blockPos.length - 1 + 1]? =
      some back at hback
    rw [Nat.sub_add_cancel hpos, List.getElem?_eq_none (Nat.le_refl _)] at hback
    cases hback
  · rw [hfront]
    exact File.pread_pwrite_self

end

end AwaDB
