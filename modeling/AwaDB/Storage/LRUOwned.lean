import AwaDB.Lib.Lists
import AwaDB.Storage.LRUCache

/-!
# The buffers of the block cache

A buffer belongs to one cell, to one `InsertInfo`, or to the pool (`Owned`), and a key has one cell or
one `InsertInfo`. Every event keeps this; the bytes do not matter.
-/

namespace AwaDB

open Lib

/-! ### Counting buffers -/

section Buffers

variable {pool : MemoryPool} {z : LRUSizes} {cells : List LRUCell} {key buffer x : ℕ} {c d : LRUCell}

/-- The keys and buffers of the cells. -/
def cellEntries (cells : List LRUCell) : List (ℕ × ℕ) := cells.map fun c => (c.key, c.buffer)

/-- The pool hands out a free buffer, or a new one. -/
theorem getBuffer_spec (pool : MemoryPool) : (∃ free, pool.free = pool.getBuffer.1 :: free ∧
      pool.getBuffer.2.free = free ∧ pool.getBuffer.2.next = pool.next) ∨
    (pool.free = [] ∧ pool.getBuffer.1 = pool.next ∧
      pool.getBuffer.2.free = [] ∧ pool.getBuffer.2.next = pool.next + 1) := by
  cases hfree : pool.free with
  | nil => exact .inr (by simp [MemoryPool.getBuffer, hfree])
  | cons buffer free => exact .inl (by simp [MemoryPool.getBuffer, hfree])

theorem count_reclaimBuffer (pool : MemoryPool) (buffer x : ℕ) : (pool.reclaimBuffer buffer).free.count x ≤
    pool.free.count x + [buffer].count x := by
  rw [MemoryPool.reclaimBuffer, ← List.count_append]
  split
  · exact (List.tail_sublist _).count_le x
  · exact Nat.le_refl _

theorem next_reclaimBuffer : (pool.reclaimBuffer buffer).next = pool.next := by
  rw [MemoryPool.reclaimBuffer]
  split <;> rfl

theorem reclaimAll_spec (pool : MemoryPool) (buffers : List ℕ) (x : ℕ) :
    (pool.reclaimAll buffers).next = pool.next ∧
    (pool.reclaimAll buffers).free.count x ≤ pool.free.count x + buffers.count x := by
  induction buffers generalizing pool with
  | nil => exact ⟨rfl, Nat.le_refl _⟩
  | cons buffer buffers ih =>
    obtain ⟨hnext, hcount⟩ := ih (pool.reclaimBuffer buffer)
    have hone := count_reclaimBuffer pool buffer x
    refine ⟨hnext.trans next_reclaimBuffer, ?_⟩
    rw [List.count_cons]
    rw [List.count_singleton] at hone
    exact Nat.le_trans hcount (by omega)

/-- A hit moves a cell, or counts. -/
theorem hitCell_perm (hc : c ∈ cells) : (cellEntries (hitCell c cells)).Perm (cellEntries cells) := by
  rw [hitCell]
  split
  · have hperm := (List.perm_cons_erase hc).map fun c => (c.key, c.buffer)
    refine List.Perm.trans ?_ hperm.symm
    rw [cellEntries, List.map_append]
    exact List.perm_append_comm
  · apply List.Perm.of_eq
    rw [cellEntries, cellEntries, List.map_map]
    refine List.map_congr_left fun d _ => ?_
    by_cases hd : d = c
    · rw [Function.comp_apply, if_pos hd, hd]
    · rw [Function.comp_apply, if_neg hd]

theorem findCell_eq_some (h : findCell key cells = some c) : c ∈ cells ∧ c.key = key :=
  ⟨List.mem_of_find?_eq_some h, by simpa using List.find?_some h⟩

theorem findCell_eq_none : findCell key cells = none ↔ ∀ e ∈ cellEntries cells, e.1 ≠ key := by
  rw [findCell, List.find?_eq_none, cellEntries, List.forall_mem_map]
  simp only [decide_eq_true_eq]

theorem evictOverflow_spec (z : LRUSizes) (cells : List LRUCell) (pool : MemoryPool) (x : ℕ) :
    (cellEntries (evictOverflow z cells pool).1).Sublist (cellEntries cells) ∧
    (evictOverflow z cells pool).2.next = pool.next ∧
    ((cellEntries (evictOverflow z cells pool).1).map Prod.snd).count x +
        (evictOverflow z cells pool).2.free.count x ≤
      ((cellEntries cells).map Prod.snd).count x + pool.free.count x := by
  rw [evictOverflow]
  split
  · generalize cells.length - z.maxSize = num
    obtain ⟨hnext, hcount⟩ :=
      reclaimAll_spec pool ((cells.take num).map LRUCell.buffer) x
    have hsplit : ((cellEntries cells).map Prod.snd).count x =
        ((cells.take num).map LRUCell.buffer).count x +
          ((cellEntries (cells.drop num)).map Prod.snd).count x := by
      conv_lhs => rw [← List.take_append_drop num cells]
      rw [cellEntries, List.map_append, List.map_append, List.count_append, List.map_map]
      rfl
    refine ⟨(List.drop_sublist _ _).map _, hnext, ?_⟩
    show ((cellEntries (cells.drop num)).map Prod.snd).count x +
      (pool.reclaimAll ((cells.take num).map LRUCell.buffer)).free.count x ≤ _
    rw [hsplit]
    omega
  · exact ⟨List.Sublist.refl _, rfl, Nat.le_refl _⟩

/-- `SetImpl` for a key without a cell. -/
theorem setCell_spec (z : LRUSizes) (pool : MemoryPool) (buffer x : ℕ)
    (h : ∀ e ∈ cellEntries cells, e.1 ≠ key) :
    (cellEntries (setCell z key buffer cells pool).1).Sublist (cellEntries cells ++ [(key, buffer)]) ∧
    (setCell z key buffer cells pool).2.next = pool.next ∧
    ((cellEntries (setCell z key buffer cells pool).1).map Prod.snd).count x +
        (setCell z key buffer cells pool).2.free.count x ≤
      ((cellEntries cells).map Prod.snd).count x + [buffer].count x + pool.free.count x := by
  rw [setCell, findCell_eq_none.mpr h]
  have hnew : cellEntries (cells ++ [⟨key, buffer, 0⟩]) = cellEntries cells ++ [(key, buffer)] :=
    List.map_append
  have hspec := evictOverflow_spec z (cells ++ [⟨key, buffer, 0⟩]) pool x
  rw [hnew, List.map_append, List.count_append] at hspec
  exact hspec

end Buffers

namespace LRUCache

variable {b : BlockSize} {z : LRUSizes} {s s' : LRUCache}

/-! ### Who has which buffer -/

def infoKeys (s : LRUCache) : List ℕ := s.inserting.map fun i => (s.infos i).key

def infoBuffers (s : LRUCache) : List ℕ := s.inserting.map fun i => (s.infos i).buffer

/-- A buffer belongs to one cell, to one `InsertInfo` that is not inserted, or to the pool; a key has
one cell or one `InsertInfo`; and an `InsertInfo` whose block is loaded and not inserted is locked
by the one reader that has loaded it. -/
structure Owned (s : LRUCache) : Prop where
  buffers : ∀ x, ((cellEntries s.cells).map Prod.snd).count x + s.infoBuffers.count x +
    s.pool.free.count x ≤ if x < s.pool.next then 1 else 0
  keys : ((cellEntries s.cells).map Prod.fst).Nodup
  infoKeys : s.infoKeys.Nodup
  apart : ∀ i ∈ s.inserting, ∀ e ∈ cellEntries s.cells, e.1 ≠ (s.infos i).key
  opened : ∀ i ∈ s.inserting, i < s.nextInfo ∧ (s.infos i).isClean = false ∧
    ((s.infos i).isProduct = true → (s.infos i).locked = true)
  loading : ∀ i, i < s.nextInfo → (s.infos i).isProduct = false → i ∈ s.inserting
  waiting : ∀ r i, s.readers r = .waiting i → i < s.nextInfo
  producing : ∀ r i, s.readers r = .producing i → i ∈ s.inserting ∧ (s.infos i).isProduct = true
  alone : ∀ r r' i, s.readers r = .producing i → s.readers r' = .producing i → r = r'

theorem owned_create (file : File) : Owned (create z file) where
  buffers x := Nat.zero_le _
  keys := List.nodup_nil
  infoKeys := List.nodup_nil
  apart i hi := absurd hi List.not_mem_nil
  opened i hi := absurd hi List.not_mem_nil
  loading i hi := absurd hi (Nat.not_lt_zero i)
  waiting r i h := by cases h
  producing r i h := by cases h
  alone r r' i h := by cases h

theorem Owned.count_le (h : Owned s) (x : ℕ) :
    ((cellEntries s.cells).map Prod.snd).count x + s.infoBuffers.count x + s.pool.free.count x ≤ 1 := by
  have hcount := h.buffers x
  split at hcount <;> omega

/-- Two cells with one buffer are one cell. -/
theorem Owned.entry_inj (h : Owned s) {e e' : ℕ × ℕ} (he : e ∈ cellEntries s.cells)
    (he' : e' ∈ cellEntries s.cells) (hbuffer : e.2 = e'.2) : e = e' := by
  have hnodup : ((cellEntries s.cells).map Prod.snd).Nodup := by
    refine List.nodup_iff_count_le_one.mpr fun x => ?_
    have hcount := h.count_le x
    omega
  exact List.inj_on_of_nodup_map hnodup he he' hbuffer

/-- The buffer of a cell is not that of an `InsertInfo`. -/
theorem Owned.entry_ne (h : Owned s) {e : ℕ × ℕ} {i : ℕ} (he : e ∈ cellEntries s.cells)
    (hi : i ∈ s.inserting) : e.2 ≠ (s.infos i).buffer := by
  intro hbuffer
  have hcell := List.count_pos_iff.mpr (List.mem_map_of_mem (f := Prod.snd) he)
  have hinfo : 0 < s.infoBuffers.count e.2 := by
    rw [hbuffer]
    exact List.count_pos_iff.mpr (List.mem_map_of_mem (f := fun i => (s.infos i).buffer) hi)
  have hcount := h.count_le e.2
  omega

/-- Two of them with one buffer are one. -/
theorem Owned.info_inj (h : Owned s) {i j : ℕ} (hi : i ∈ s.inserting) (hj : j ∈ s.inserting)
    (hbuffer : (s.infos i).buffer = (s.infos j).buffer) : i = j := by
  have hnodup : s.infoBuffers.Nodup := by
    refine List.nodup_iff_count_le_one.mpr fun x => ?_
    have hcount := h.count_le x
    omega
  exact List.inj_on_of_nodup_map hnodup hi hj hbuffer

/-- Two of them with one key are one. -/
theorem Owned.key_inj (h : Owned s) {i j : ℕ} (hi : i ∈ s.inserting) (hj : j ∈ s.inserting)
    (hkey : (s.infos i).key = (s.infos j).key) : i = j :=
  List.inj_on_of_nodup_map h.infoKeys hi hj hkey

theorem findInfo_eq_some {key i : ℕ} (h : s.findInfo key = some i) :
    i ∈ s.inserting ∧ (s.infos i).key = key :=
  ⟨List.mem_of_find?_eq_some h, by simpa using List.find?_some h⟩

theorem findInfo_eq_none {key : ℕ} :
    s.findInfo key = none ↔ ∀ i ∈ s.inserting, (s.infos i).key ≠ key := by
  rw [findInfo, List.find?_eq_none]
  simp only [decide_eq_true_eq]

/-- The `InsertInfo` of a key is the one that is found. -/
theorem Owned.findInfo_key (h : Owned s) {i : ℕ} (hi : i ∈ s.inserting) :
    s.findInfo (s.infos i).key = some i := by
  cases hfind : s.findInfo (s.infos i).key with
  | none => exact absurd rfl (findInfo_eq_none.mp hfind i hi)
  | some j =>
    obtain ⟨hj, hkey⟩ := findInfo_eq_some hfind
    rw [h.key_inj hj hi hkey]

theorem Owned.hit (h : Owned s) {c : LRUCell} (hc : c ∈ s.cells) :
    Owned { s with cells := hitCell c s.cells } where
  buffers x := by
    rw [((hitCell_perm hc).map Prod.snd).count_eq]
    exact h.buffers x
  keys := ((hitCell_perm hc).map Prod.fst).nodup_iff.mpr h.keys
  infoKeys := h.infoKeys
  apart i hi e he := h.apart i hi e ((hitCell_perm hc).mem_iff.mp he)
  opened := h.opened
  loading := h.loading
  waiting := h.waiting
  producing := h.producing
  alone := h.alone

/-- Files, bytes and the writer do not matter. -/
theorem Owned.frame (h : Owned s) {file : File} {mem : ℕ → Bytes} {pending : List Piece}
    {found : Option ℕ} {returned : List Returned} :
    Owned { s with file, mem, pending, found, returned } :=
  ⟨h.buffers, h.keys, h.infoKeys, h.apart, h.opened, h.loading, h.waiting, h.producing, h.alone⟩

/-- A reader goes to a phase in which it holds no lock. -/
theorem Owned.reader (h : Owned s) (reader : ℕ) {phase : LRUPhase}
    (hwaiting : ∀ i, phase = .waiting i → i < s.nextInfo) (hlock : ∀ i, phase ≠ .producing i) :
    Owned { s with readers := Function.update s.readers reader phase } := by
  have hother : ∀ r i, Function.update s.readers reader phase r = .producing i →
      s.readers r = .producing i := by
    intro r i hr
    obtain ⟨-, hphase⟩ | ⟨-, hold⟩ := of_update_eq hr
    · exact absurd hphase (hlock i)
    · exact hold
  refine ⟨h.buffers, h.keys, h.infoKeys, h.apart, h.opened, h.loading, fun r i hr => ?_,
    fun r i hr => h.producing r i (hother r i hr),
    fun r r' i hr hr' => h.alone r r' i (hother r i hr) (hother r' i hr')⟩
  obtain ⟨-, hphase⟩ | ⟨-, hold⟩ := of_update_eq hr
  · exact hwaiting i hphase
  · exact h.waiting r i hold

/-- The old cellEntries of the table of `InsertInfo`s. -/
theorem infos_old {i : ℕ} {info : InsertInfo} (hi : i < s.nextInfo) :
    Function.update s.infos s.nextInfo info i = s.infos i :=
  Function.update_of_ne (Nat.ne_of_lt hi) ..

theorem Owned.newInfo (h : Owned s) {key : ℕ} (hcell : findCell key s.cells = none)
    (hinfo : s.findInfo key = none) : Owned (newInfo key s) := by
  have hold : ∀ i ∈ s.inserting, (LRUCache.newInfo key s).infos i = s.infos i :=
    fun i hi => infos_old (h.opened i hi).1
  have hnew : (LRUCache.newInfo key s).infos s.nextInfo =
      ⟨key, s.pool.getBuffer.1, false, false, false⟩ := Function.update_self ..
  have hkeys : (LRUCache.newInfo key s).infoKeys = s.infoKeys ++ [key] := by
    show (s.inserting ++ [s.nextInfo]).map _ = _
    rw [List.map_append, List.map_singleton, hnew]
    exact congrArg (· ++ [key]) (List.map_congr_left fun i hi => by rw [hold i hi])
  have hbuffers : (LRUCache.newInfo key s).infoBuffers = s.infoBuffers ++ [s.pool.getBuffer.1] := by
    show (s.inserting ++ [s.nextInfo]).map _ = _
    rw [List.map_append, List.map_singleton, hnew]
    exact congrArg (· ++ [s.pool.getBuffer.1]) (List.map_congr_left fun i hi => by rw [hold i hi])
  refine ⟨fun x => ?_, h.keys, ?_, fun i hi e he => ?_, fun i hi => ?_, fun i hi hproduct => ?_,
    fun r i hr => Nat.lt_succ_of_lt (h.waiting r i hr), fun r i hr => ?_, h.alone⟩
  · have hcount := h.buffers x
    rw [hbuffers, List.count_append, List.count_singleton]
    show ((cellEntries s.cells).map Prod.snd).count x + (s.infoBuffers.count x +
      if s.pool.getBuffer.1 == x then 1 else 0) + s.pool.getBuffer.2.free.count x ≤
      if x < s.pool.getBuffer.2.next then 1 else 0
    obtain ⟨free, hfree, hfree', hnext⟩ | ⟨hfree, hbuffer, hfree', hnext⟩ := getBuffer_spec s.pool
    · rw [hfree, List.count_cons] at hcount
      rw [hfree', hnext]
      omega
    · rw [hfree] at hcount
      rw [hfree', hnext, hbuffer, List.count_nil]
      simp only [List.count_nil] at hcount
      by_cases hx : s.pool.next = x
      · rw [if_neg (by omega)] at hcount
        rw [if_pos (by simpa using hx), if_pos (by omega)]
        omega
      · rw [if_neg (by simpa using hx)]
        split at hcount
        · rw [if_pos (by omega)]
          omega
        · omega
  · rw [hkeys, List.nodup_append]
    refine ⟨h.infoKeys, List.nodup_singleton key, fun k hk k' hk' heq => ?_⟩
    obtain ⟨i, hi, rfl⟩ := List.mem_map.mp hk
    exact findInfo_eq_none.mp hinfo i hi (heq.trans (List.mem_singleton.mp hk'))
  · obtain hi | hi := List.mem_append.mp hi
    · rw [hold i hi]
      exact h.apart i hi e he
    · rw [List.mem_singleton.mp hi, hnew]
      exact findCell_eq_none.mp hcell e he
  · obtain hi | hi := List.mem_append.mp hi
    · rw [hold i hi]
      exact ⟨Nat.lt_succ_of_lt (h.opened i hi).1, (h.opened i hi).2⟩
    · rw [List.mem_singleton.mp hi, hnew]
      exact ⟨Nat.lt_succ_self _, rfl, fun h => h⟩
  · by_cases hnext : i = s.nextInfo
    · rw [hnext]
      exact List.mem_append_right _ List.mem_cons_self
    · have hlt : i < s.nextInfo := by
        have hle : i < s.nextInfo + 1 := hi
        omega
      have hproduct' : (Function.update s.infos s.nextInfo _ i).isProduct = false := hproduct
      rw [infos_old hlt] at hproduct'
      exact List.mem_append_left _ (h.loading i hlt hproduct')
  · obtain ⟨hi, hproduct⟩ := h.producing r i hr
    exact ⟨List.mem_append_left _ hi, by rw [hold i hi]; exact hproduct⟩

/-- Flags of an `InsertInfo` are set. -/
theorem key_update (i : ℕ) (info : InsertInfo) (hkey : info.key = (s.infos i).key) (j : ℕ) :
    (Function.update s.infos i info j).key = (s.infos j).key := by
  by_cases hj : j = i
  · rw [hj, Function.update_self, hkey]
  · rw [Function.update_of_ne hj]

theorem buffer_update (i : ℕ) (info : InsertInfo) (hbuffer : info.buffer = (s.infos i).buffer)
    (j : ℕ) : (Function.update s.infos i info j).buffer = (s.infos j).buffer := by
  by_cases hj : j = i
  · rw [hj, Function.update_self, hbuffer]
  · rw [Function.update_of_ne hj]

/-- A reader locks an `InsertInfo` that has no block yet, and loads the block. -/
theorem Owned.load (h : Owned s) {reader i : ℕ} {mem : ℕ → Bytes}
    (hreader : s.readers reader = .waiting i) (hproduct : (s.infos i).isProduct = false) :
    Owned { s with
      mem
      infos := Function.update s.infos i { s.infos i with isProduct := true, locked := true }
      readers := Function.update s.readers reader (.producing i) } := by
  have hi : i ∈ s.inserting := h.loading i (h.waiting reader i hreader) hproduct
  have hother : ∀ r j, r ≠ reader → s.readers r = .producing j → j ≠ i := by
    rintro r j - hr rfl
    rw [(h.producing r j hr).2] at hproduct
    cases hproduct
  refine ⟨fun x => ?_, h.keys, ?_, fun j hj e he => ?_, fun j hj => ?_, fun j hj hfalse => ?_,
    fun r j hr => ?_, fun r j hr => ?_, fun r r' j hr hr' => ?_⟩
  · have hbuffers : s.inserting.map (fun j => (Function.update s.infos i
        { s.infos i with isProduct := true, locked := true } j).buffer) = s.infoBuffers :=
      List.map_congr_left fun j _ => buffer_update i
        { s.infos i with isProduct := true, locked := true } rfl j
    show _ + (List.map _ s.inserting).count x + _ ≤ _
    rw [hbuffers]
    exact h.buffers x
  · show (s.inserting.map _).Nodup
    rw [List.map_congr_left fun j _ => key_update i
      { s.infos i with isProduct := true, locked := true } rfl j]
    exact h.infoKeys
  · exact fun hkey => h.apart j hj e he (hkey.trans
      (key_update i { s.infos i with isProduct := true, locked := true } rfl j))
  · by_cases heq : j = i
    · subst heq
      show j < s.nextInfo ∧ (Function.update s.infos j _ j).isClean = false ∧
        ((Function.update s.infos j _ j).isProduct = true →
          (Function.update s.infos j _ j).locked = true)
      rw [Function.update_self]
      exact ⟨(h.opened j hj).1, (h.opened j hj).2.1, fun _ => rfl⟩
    · show j < s.nextInfo ∧ (Function.update s.infos i _ j).isClean = false ∧
        ((Function.update s.infos i _ j).isProduct = true →
          (Function.update s.infos i _ j).locked = true)
      rw [Function.update_of_ne heq]
      exact h.opened j hj
  · have hfalse' : (Function.update s.infos i _ j).isProduct = false := hfalse
    by_cases heq : j = i
    · exact heq ▸ hi
    · rw [Function.update_of_ne heq] at hfalse'
      exact h.loading j hj hfalse'
  · obtain ⟨-, hphase⟩ | ⟨-, hold⟩ := of_update_eq (f := s.readers) hr
    · cases hphase
    · exact h.waiting r j hold
  · show j ∈ s.inserting ∧ (Function.update s.infos i _ j).isProduct = true
    obtain ⟨-, hphase⟩ | ⟨hne, hold⟩ := of_update_eq (f := s.readers) hr
    · cases hphase
      rw [Function.update_self]
      exact ⟨hi, rfl⟩
    · rw [Function.update_of_ne (hother r j hne hold)]
      exact h.producing r j hold
  · obtain ⟨heq, hphase⟩ | ⟨hne, hold⟩ := of_update_eq (f := s.readers) hr
    · obtain ⟨heq', -⟩ | ⟨hne', hold'⟩ := of_update_eq (f := s.readers) hr'
      · rw [heq, heq']
      · cases hphase
        exact absurd rfl (hother r' _ hne' hold')
    · obtain ⟨-, hphase'⟩ | ⟨-, hold'⟩ := of_update_eq (f := s.readers) hr'
      · cases hphase'
        exact absurd rfl (hother r _ hne hold)
      · exact h.alone r r' j hold hold'

/-- The table without an `InsertInfo`. -/
theorem Owned.inserting_perm (h : Owned s) {i : ℕ} (hi : i ∈ s.inserting) :
    s.inserting.Perm (i :: s.inserting.filter fun j => (s.infos j).key ≠ (s.infos i).key) := by
  have hnodup : s.inserting.Nodup := List.Nodup.of_map _ h.infoKeys
  refine (List.perm_cons_erase hi).trans (List.Perm.cons i (List.Perm.of_eq ?_))
  rw [hnodup.erase_eq_filter]
  refine List.filter_congr fun j hj => ?_
  by_cases heq : j = i
  · simp [heq]
  · have hkey : (s.infos j).key ≠ (s.infos i).key := fun hkey => heq (h.key_inj hj hi hkey)
    simp [heq, hkey]

/-- The reader that has loaded a block inserts it. -/
theorem Owned.insertInfo_eq (h : Owned s) {i : ℕ} (hi : i ∈ s.inserting) :
    insertInfo z i s =
      { s with
        cells := (setCell z (s.infos i).key (s.infos i).buffer s.cells s.pool).1
        pool := (setCell z (s.infos i).key (s.infos i).buffer s.cells s.pool).2
        inserting := s.inserting.filter fun j => (s.infos j).key ≠ (s.infos i).key
        infos := Function.update s.infos i { s.infos i with isClean := true, locked := false } } := by
  rw [insertInfo, h.findInfo_key hi, if_pos rfl, (h.opened i hi).2.1]
  rfl

theorem Owned.insert (h : Owned s) {reader i : ℕ} (hreader : s.readers reader = .producing i) :
    Owned { insertInfo z i s with readers := Function.update s.readers reader .idle } := by
  obtain ⟨hi, hproduct⟩ := h.producing reader i hreader
  have hperm := h.inserting_perm hi
  rw [h.insertInfo_eq hi]
  have hmem : ∀ j ∈ s.inserting.filter fun j => (s.infos j).key ≠ (s.infos i).key,
      j ∈ s.inserting ∧ (s.infos j).key ≠ (s.infos i).key :=
    fun j hj => ⟨(List.mem_filter.mp hj).1, by simpa using (List.mem_filter.mp hj).2⟩
  have hkept : ∀ j ∈ s.inserting, j ≠ i →
      j ∈ s.inserting.filter fun j => (s.infos j).key ≠ (s.infos i).key :=
    fun j hj hne => List.mem_filter.mpr ⟨hj, by simpa using fun hkey => hne (h.key_inj hj hi hkey)⟩
  have hne : ∀ j ∈ s.inserting.filter fun j => (s.infos j).key ≠ (s.infos i).key, j ≠ i :=
    fun j hj heq => (hmem j hj).2 (heq ▸ rfl)
  have hphase : ∀ r j, Function.update s.readers reader .idle r = .producing j →
      r ≠ reader ∧ s.readers r = .producing j := by
    intro r j hr
    obtain ⟨-, hphase⟩ | hold := of_update_eq hr
    · cases hphase
    · exact hold
  have hbuffer := fun j => buffer_update i
    { s.infos i with isClean := true, locked := false } rfl j
  have hkey := fun j => key_update i
    { s.infos i with isClean := true, locked := false } rfl j
  generalize hrest : (s.inserting.filter fun j => (s.infos j).key ≠ (s.infos i).key) = rest at *
  refine ⟨fun x => ?_, ?_, ?_, fun j hj e he hsame => ?_, fun j hj => ?_, fun j hj hfalse => ?_,
    fun r j hr => ?_, fun r j hr => ?_, fun r r' j hr hr' => ?_⟩
  · obtain ⟨-, hnext, hcount⟩ := setCell_spec z s.pool (s.infos i).buffer x (h.apart i hi)
    have hold := h.buffers x
    have hinfos : s.infoBuffers.count x =
        [(s.infos i).buffer].count x + (rest.map fun j => (s.infos j).buffer).count x := by
      rw [infoBuffers, (hperm.map _).count_eq, List.map_cons, ← List.singleton_append,
        List.count_append]
    have hnew : rest.map (fun j => (Function.update s.infos i
        { s.infos i with isClean := true, locked := false } j).buffer) =
        rest.map fun j => (s.infos j).buffer := List.map_congr_left fun j _ => hbuffer j
    generalize setCell z (s.infos i).key (s.infos i).buffer s.cells s.pool = set at *
    show ((cellEntries set.1).map Prod.snd).count x + (List.map _ rest).count x + set.2.free.count x ≤
      if x < set.2.next then 1 else 0
    rw [hnew, hnext]
    refine Nat.le_trans ?_ hold
    rw [hinfos]
    omega
  · obtain ⟨hsub, -⟩ := setCell_spec z s.pool (s.infos i).buffer 0 (h.apart i hi)
    refine (hsub.map Prod.fst).nodup ?_
    rw [List.map_append, List.nodup_append]
    refine ⟨h.keys, List.nodup_singleton _, fun k hk k' hk' heq => ?_⟩
    obtain ⟨e, he, rfl⟩ := List.mem_map.mp hk
    exact h.apart i hi e he (heq.trans (List.mem_singleton.mp hk'))
  · show (rest.map _).Nodup
    rw [List.map_congr_left fun j _ => hkey j, ← hrest]
    exact (List.filter_sublist.map _).nodup h.infoKeys
  · obtain ⟨hsub, -⟩ := setCell_spec z s.pool (s.infos i).buffer 0 (h.apart i hi)
    have hsame' : e.1 = (s.infos j).key := hsame.trans (hkey j)
    obtain he | he := List.mem_append.mp (hsub.subset he)
    · exact h.apart j (hmem j hj).1 e he hsame'
    · rw [List.mem_singleton.mp he] at hsame'
      exact (hmem j hj).2 hsame'.symm
  · show j < s.nextInfo ∧ (Function.update s.infos i _ j).isClean = false ∧
      ((Function.update s.infos i _ j).isProduct = true →
        (Function.update s.infos i _ j).locked = true)
    rw [Function.update_of_ne (hne j hj)]
    exact h.opened j (hmem j hj).1
  · have hfalse' : (Function.update s.infos i _ j).isProduct = false := hfalse
    by_cases heq : j = i
    · rw [heq, Function.update_self] at hfalse'
      exact absurd (hproduct.symm.trans hfalse') (by decide)
    · rw [Function.update_of_ne heq] at hfalse'
      exact hkept j (h.loading j hj hfalse') heq
  · obtain ⟨-, hidle⟩ | ⟨-, hold⟩ := of_update_eq (f := s.readers) hr
    · cases hidle
    · exact h.waiting r j hold
  · obtain ⟨heq, hold⟩ := hphase r j hr
    obtain ⟨hj, hloaded⟩ := h.producing r j hold
    have hother : j ≠ i := by
      rintro rfl
      exact heq (h.alone r reader j hold hreader)
    refine ⟨hkept j hj hother, ?_⟩
    show (Function.update s.infos i _ j).isProduct = true
    rw [Function.update_of_ne hother]
    exact hloaded
  · exact h.alone r r' j (hphase r j hr).2 (hphase r' j hr').2

end LRUCache

end AwaDB
