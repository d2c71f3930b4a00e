import AwaDB.Storage.AsyncWriter

/-!
# Blocks of a segment file (`storage/block.cc`)

A segment file is read in blocks of `per_block_size_` bytes, which are cached. `Block::Update` writes
bytes to the file and then runs `Update` of the cache for each block they touch.

* `blockOf_pwrite`: a block of the file after the write is the block before it, with the copies of
  all these `Update`s made in it.
-/

namespace AwaDB

open Lib

/-- `per_block_size_`, for items that are not longer than 64 KiB. -/
structure BlockSize where
  size : ℕ
  pos : 0 < size

/-- One call of `Update` of the cache. -/
structure Piece where
  blockId : ℕ
  blockOffset : ℕ
  bytes : Bytes
deriving DecidableEq, Repr

section Pieces

variable (b : BlockSize)

/-- `len` in a round of the loops of `Read` and `Update`. -/
def pieceLen (start nBytes : ℕ) : ℕ :=
  let len := if nBytes > b.size then b.size else nBytes
  if len > b.size - start % b.size then b.size - start % b.size else len

/-- The loop of `Block::Update`. A round takes at least one byte, so that `fuel` rounds are enough
for as many bytes. -/
def updateLoop : (fuel : ℕ) → (start : ℕ) → Bytes → List Piece
  | 0, _, _ => []
  | fuel + 1, start, value =>
    if value = [] then []
    else
      let len := pieceLen b start value.length
      ⟨start / b.size, start % b.size, value.take len⟩ ::
        updateLoop fuel (start + len) (value.drop len)

/-- The calls of `Update` for bytes at an offset. -/
def updates (start : ℕ) (value : Bytes) : List Piece := updateLoop b value.length start value

/-- What `ReadBlock` loads. -/
def blockOf (f : File) (blockId : ℕ) : Bytes :=
  f.pread (segHeaderSize + blockId * b.size) b.size

end Pieces

/-- The copies into one block. -/
def applyPieces (pieces : List Piece) (blockId : ℕ) (block : Bytes) : Bytes :=
  pieces.foldl (fun block p =>
    if p.blockId = blockId then patch block p.blockOffset p.bytes else block) block

section

variable {b : BlockSize} {f : File} {start fuel blockId : ℕ} {value bytes : Bytes} {p : Piece}
  {pieces : List Piece} {block : Bytes}

theorem pieceLen_le (start nBytes : ℕ) :
    pieceLen b start nBytes ≤ nBytes ∧ start % b.size + pieceLen b start nBytes ≤ b.size := by
  have hmod := Nat.mod_lt start b.pos
  simp only [pieceLen]
  split <;> split <;> omega

theorem pieceLen_pos (start : ℕ) {nBytes : ℕ} (h : 0 < nBytes) : 0 < pieceLen b start nBytes := by
  have hmod := Nat.mod_lt start b.pos
  have hpos := b.pos
  simp only [pieceLen]
  split <;> split <;> omega

@[simp] theorem applyPieces_nil : applyPieces [] blockId block = block := rfl

theorem applyPieces_cons : applyPieces (p :: pieces) blockId block =
    applyPieces pieces blockId
      (if p.blockId = blockId then patch block p.blockOffset p.bytes else block) := rfl

/-- **A write within one block.** -/
theorem blockOf_pwrite_piece (blockId : ℕ) (h : start % b.size + bytes.length ≤ b.size) :
    blockOf b (f.pwrite (segHeaderSize + start) bytes) blockId =
      if start / b.size = blockId then patch (blockOf b f blockId) (start % b.size) bytes
      else blockOf b f blockId := by
  have hstart : start = start / b.size * b.size + start % b.size := (Nat.div_add_mod' ..).symm
  split
  next hsame =>
    have hoff : segHeaderSize + start = segHeaderSize + blockId * b.size + start % b.size := by
      rw [← hsame]
      omega
    rw [hoff]
    exact File.pread_pwrite_inside h
  next hother =>
    apply File.pread_pwrite_disjoint
    obtain hlt | hlt := Nat.lt_or_gt_of_ne hother
    · have hmul : (start / b.size + 1) * b.size ≤ blockId * b.size := Nat.mul_le_mul_right _ hlt
      rw [Nat.add_mul] at hmul
      omega
    · have hmul : (blockId + 1) * b.size ≤ start / b.size * b.size := Nat.mul_le_mul_right _ hlt
      rw [Nat.add_mul] at hmul
      omega

/-- **The blocks after a write** are the blocks before it with the copies of the loop. -/
theorem blockOf_pwrite_loop (hfuel : value.length ≤ fuel) :
    blockOf b (f.pwrite (segHeaderSize + start) value) blockId =
      applyPieces (updateLoop b fuel start value) blockId (blockOf b f blockId) := by
  induction fuel generalizing start value f with
  | zero =>
    have hnil : value = [] := List.length_eq_zero_iff.mp (Nat.le_zero.mp hfuel)
    rw [hnil, File.pwrite_nil]
    rfl
  | succ fuel ih =>
    rw [updateLoop]
    split
    next hnil =>
      rw [hnil, File.pwrite_nil]
      rfl
    next hne =>
      have hpos := pieceLen_pos (b := b) start (List.length_pos_iff.mpr hne)
      obtain ⟨hle, hblock⟩ := pieceLen_le (b := b) start value.length
      generalize pieceLen b start value.length = len at hpos hle hblock
      have htake : (value.take len).length = len := by rw [List.length_take]; omega
      have hrest : (value.drop len).length ≤ fuel := by rw [List.length_drop]; omega
      calc blockOf b (f.pwrite (segHeaderSize + start) value) blockId
          = blockOf b ((f.pwrite (segHeaderSize + start) (value.take len)).pwrite
              (segHeaderSize + (start + len)) (value.drop len)) blockId := by
            conv_lhs => rw [← List.take_append_drop len value]
            rw [File.pwrite_append, htake, Nat.add_assoc]
        _ = applyPieces (updateLoop b fuel (start + len) (value.drop len)) blockId
              (blockOf b (f.pwrite (segHeaderSize + start) (value.take len)) blockId) := ih hrest
        _ = _ := by
            rw [blockOf_pwrite_piece _ (htake.symm ▸ hblock)]
            rfl

theorem blockOf_pwrite :
    blockOf b (f.pwrite (segHeaderSize + start) value) blockId =
      applyPieces (updates b start value) blockId (blockOf b f blockId) :=
  blockOf_pwrite_loop (Nat.le_refl _)

/-- The bytes of a write are in the file: to copy them again changes nothing. -/
theorem patch_blockOf_loop (hfuel : value.length ≤ fuel) (hp : p ∈ updateLoop b fuel start value) :
    patch (blockOf b (f.pwrite (segHeaderSize + start) value) p.blockId) p.blockOffset p.bytes =
      blockOf b (f.pwrite (segHeaderSize + start) value) p.blockId := by
  induction fuel generalizing start value f with
  | zero => cases hp
  | succ fuel ih =>
    rw [updateLoop] at hp
    split at hp
    · cases hp
    next hne =>
      have hpos := pieceLen_pos (b := b) start (List.length_pos_iff.mpr hne)
      obtain ⟨hle, hblock⟩ := pieceLen_le (b := b) start value.length
      generalize pieceLen b start value.length = len at hp hpos hle hblock
      have htake : (value.take len).length = len := by rw [List.length_take]; omega
      have hrest : (value.drop len).length ≤ fuel := by rw [List.length_drop]; omega
      have hsplit : f.pwrite (segHeaderSize + start) value =
          (f.pwrite (segHeaderSize + start) (value.take len)).pwrite
            (segHeaderSize + (start + len)) (value.drop len) := by
        conv_lhs => rw [← List.take_append_drop len value]
        rw [File.pwrite_append, htake, Nat.add_assoc]
      obtain rfl | hp := List.mem_cons.mp hp
      · have hagain := blockOf_pwrite_piece (b := b) (f := f.pwrite (segHeaderSize + start) value)
          (start / b.size) (htake.symm ▸ hblock)
        rw [if_pos rfl] at hagain
        rw [← hagain, hsplit, File.pwrite_comm (.inr (by rw [htake]; omega)),
          File.pwrite_pwrite_self rfl]
      · rw [hsplit]
        exact ih hrest hp

theorem patch_blockOf (hp : p ∈ updates b start value) :
    patch (blockOf b (f.pwrite (segHeaderSize + start) value) p.blockId) p.blockOffset p.bytes =
      blockOf b (f.pwrite (segHeaderSize + start) value) p.blockId :=
  patch_blockOf_loop (Nat.le_refl _) hp

/-- Copies that change nothing. -/
theorem applyPieces_blockOf (h : ∀ p ∈ pieces,
    patch (blockOf b f p.blockId) p.blockOffset p.bytes = blockOf b f p.blockId) :
    applyPieces pieces blockId (blockOf b f blockId) = blockOf b f blockId := by
  induction pieces with
  | nil => rfl
  | cons p pieces ih =>
    rw [applyPieces_cons]
    split
    next hkey =>
      rw [← hkey, h p List.mem_cons_self, hkey]
      exact ih fun p hp => h p (List.mem_cons_of_mem _ hp)
    · exact ih fun p hp => h p (List.mem_cons_of_mem _ hp)

end

end AwaDB
