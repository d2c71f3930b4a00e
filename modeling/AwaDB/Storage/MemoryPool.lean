import AwaDB.Storage.LRUQueue

/-!
# The limit of the memory pool (`MemoryPool` in `storage/lru_cache.h`)

`SetMaxBufferNum` deletes queued buffers when the pool has more than it is asked to keep. It sets the new
limit only when there is nothing to delete; otherwise it takes the number of deleted buffers from the old
limit.

* `PoolRun`: a pool, the buffers that are handed out and the limit that was asked for last;
* `withinLimit_always`: what every run keeps whose shrinking calls find a full pool;
* `over_limit`: a pool that is shrunk below the buffers in use.
-/

namespace AwaDB

open Lib

/-- The pool, with the buffers handed out and not yet reclaimed, and the last request. -/
structure PoolRun where
  pool : MemoryPool
  out : List ℕ
  requested : ℕ
deriving DecidableEq, Repr

/-- The calls. -/
inductive PoolCall where
  | getBuffer
  | reclaimBuffer (buffer : ℕ)
  | setMaxBufferNum (maxCellNum : ℕ)
deriving DecidableEq, Repr

namespace PoolRun

/-- A pool after `Init`. -/
def init (maxCellNum : ℕ) : PoolRun := ⟨⟨[], 0, 0, maxCellNum⟩, [], maxCellNum⟩

/-- One call. -/
def step : PoolCall → PoolRun → Option PoolRun
  | .getBuffer, s =>
    some { s with pool := s.pool.getBuffer.2, out := s.pool.getBuffer.1 :: s.out }
  | .reclaimBuffer buffer, s =>
    some { s with pool := s.pool.reclaimBuffer buffer, out := s.out.erase buffer }
  | .setMaxBufferNum maxCellNum, s =>
    some { s with pool := s.pool.setMaxBufferNum maxCellNum, requested := maxCellNum }

/-- `use_cell_num_` is a `uint32_t`, and a buffer that is reclaimed is in use. -/
def Legal : PoolCall → PoolRun → Prop
  | .getBuffer, s => s.pool.used + 1 < 2 ^ 32
  | .reclaimBuffer buffer, s => buffer ∈ s.out
  | .setMaxBufferNum maxCellNum, _ => maxCellNum < 2 ^ 32

/-- There is nothing to delete, or the old limit is not above the new one, or the pool is full and the
buffers in use stay within the new limit. -/
def Settled : PoolCall → PoolRun → Prop
  | .setMaxBufferNum maxCellNum, s =>
    s.pool.free.length + s.pool.used ≤ maxCellNum ∨ s.pool.maxCellNum ≤ maxCellNum ∨
      (s.pool.used ≤ maxCellNum ∧ s.pool.maxCellNum ≤ s.pool.free.length + s.pool.used)
  | _, _ => True

instance (call : PoolCall) (s : PoolRun) : Decidable (Legal call s) :=
  match call with
  | .getBuffer => inferInstanceAs (Decidable (s.pool.used + 1 < 2 ^ 32))
  | .reclaimBuffer buffer => inferInstanceAs (Decidable (buffer ∈ s.out))
  | .setMaxBufferNum maxCellNum => inferInstanceAs (Decidable (maxCellNum < 2 ^ 32))

instance (call : PoolCall) (s : PoolRun) : Decidable (Settled call s) :=
  match call with
  | .getBuffer => inferInstanceAs (Decidable True)
  | .reclaimBuffer _ => inferInstanceAs (Decidable True)
  | .setMaxBufferNum maxCellNum =>
    inferInstanceAs (Decidable (s.pool.free.length + s.pool.used ≤ maxCellNum ∨
      s.pool.maxCellNum ≤ maxCellNum ∨
        (s.pool.used ≤ maxCellNum ∧ s.pool.maxCellNum ≤ s.pool.free.length + s.pool.used)))

/-- **The limit**: queued buffers and those in use are no more than was asked for last, while any is
queued; the count is that of the buffers in use. -/
structure WithinLimit (s : PoolRun) : Prop where
  limit : s.pool.free ≠ [] → s.pool.used + s.pool.free.length ≤ s.requested
  used : s.pool.used = s.out.length

/-- What every call keeps: the same for the limit that the pool has. -/
structure Inv (s : PoolRun) : Prop where
  full : s.pool.free ≠ [] → s.pool.used + s.pool.free.length ≤ s.pool.maxCellNum
  used : s.pool.used = s.out.length

variable {s s' : PoolRun} {maxCellNum buffer : ℕ}

theorem inv_init (maxCellNum : ℕ) : Inv (init maxCellNum) where
  full := fun hne => absurd rfl hne
  used := rfl

/-- A buffer from the queue, or a new one. -/
theorem Inv.getBuffer (h : Inv s) :
    Inv { s with pool := s.pool.getBuffer.2, out := s.pool.getBuffer.1 :: s.out } := by
  have hused := h.used
  have hfull := h.full
  unfold MemoryPool.getBuffer
  cases hfree : s.pool.free with
  | nil =>
    refine ⟨fun hne => absurd rfl hne, ?_⟩
    show s.pool.used + 1 = s.out.length + 1
    rw [hused]
  | cons b free =>
    rw [hfree] at hfull
    refine ⟨fun _ => ?_, ?_⟩
    · have hle := hfull (List.cons_ne_nil b free)
      rw [List.length_cons] at hle
      show s.pool.used + 1 + free.length ≤ s.pool.maxCellNum
      omega
    · show s.pool.used + 1 = s.out.length + 1
      rw [hused]

/-- A buffer comes back. When there are too many, the queue was empty before. -/
theorem Inv.reclaimBuffer (h : Inv s) (hout : buffer ∈ s.out) :
    Inv { s with pool := s.pool.reclaimBuffer buffer, out := s.out.erase buffer } := by
  have hused := h.used
  have hpos := List.length_pos_of_mem hout
  have hlength := List.length_erase_of_mem hout
  unfold MemoryPool.reclaimBuffer
  dsimp only
  rw [List.length_append, List.length_singleton]
  split
  · rename_i hmany
    have hnil : s.pool.free = [] := by
      by_contra hne
      have hle := h.full hne
      omega
    refine ⟨fun hne => absurd ?_ hne, ?_⟩
    · show (s.pool.free ++ [buffer]).tail = []
      rw [hnil]
      rfl
    · show s.pool.used - 1 = (s.out.erase buffer).length
      rw [hlength, hused]
  · rename_i hfew
    refine ⟨fun _ => ?_, ?_⟩
    · show s.pool.used - 1 + (s.pool.free ++ [buffer]).length ≤ s.pool.maxCellNum
      rw [List.length_append, List.length_singleton]
      omega
    · show s.pool.used - 1 = (s.out.erase buffer).length
      rw [hlength, hused]

/-- What `SetMaxBufferNum` leaves. -/
theorem setMaxBufferNum_cases (pool : MemoryPool) (maxCellNum : ℕ) :
    (pool.free.length + pool.used ≤ maxCellNum ∧
      pool.setMaxBufferNum maxCellNum = { pool with maxCellNum }) ∨
    (maxCellNum < pool.used ∧ pool.setMaxBufferNum maxCellNum =
      { pool with free := [], maxCellNum := pool.maxCellNum - pool.free.length }) ∨
    (pool.used ≤ maxCellNum ∧ maxCellNum < pool.free.length + pool.used ∧
      (pool.setMaxBufferNum maxCellNum).used = pool.used ∧
      (pool.setMaxBufferNum maxCellNum).free.length + pool.used = maxCellNum ∧
      (pool.setMaxBufferNum maxCellNum).maxCellNum =
        pool.maxCellNum - (pool.free.length + pool.used - maxCellNum)) := by
  unfold MemoryPool.setMaxBufferNum
  split
  · exact .inl ⟨‹_›, rfl⟩
  · rename_i hmany
    by_cases hused : pool.used > maxCellNum
    · refine .inr (.inl ⟨hused, ?_⟩)
      simp [hused]
    · refine .inr (.inr ⟨by omega, by omega, rfl, ?_, ?_⟩)
      · simp only [if_neg hused, List.length_drop]
        omega
      · simp only [if_neg hused]

theorem Inv.setMaxBufferNum (h : Inv s) (maxCellNum : ℕ) :
    Inv { s with pool := s.pool.setMaxBufferNum maxCellNum, requested := maxCellNum } := by
  rcases setMaxBufferNum_cases s.pool maxCellNum with
    ⟨hle, heq⟩ | ⟨hlt, heq⟩ | ⟨hle, hlt, hused, hfree, hmax⟩
  · rw [heq]
    refine ⟨fun _ => ?_, h.used⟩
    show s.pool.used + s.pool.free.length ≤ maxCellNum
    omega
  · rw [heq]
    exact ⟨fun hne => absurd rfl hne, h.used⟩
  · refine ⟨fun _ => ?_, hused.trans h.used⟩
    dsimp only
    rw [hused, hmax]
    by_cases hnil : s.pool.free = []
    · rw [hnil] at hlt
      simp only [List.length_nil] at hlt
      omega
    · have hfull := h.full hnil
      omega

/-! ### Runs -/

/-- The limit of the pool is not above the last request. -/
structure Tight (s : PoolRun) : Prop extends Inv s where
  tight : s.pool.maxCellNum ≤ s.requested

theorem Tight.withinLimit (h : Tight s) : WithinLimit s where
  limit := fun hne => le_trans (h.full hne) h.tight
  used := h.used

theorem tight_init (maxCellNum : ℕ) : Tight (init maxCellNum) := ⟨inv_init maxCellNum, le_refl _⟩

/-- Only a request changes the limit of the pool. -/
theorem getBuffer_maxCellNum (pool : MemoryPool) : pool.getBuffer.2.maxCellNum = pool.maxCellNum := by
  unfold MemoryPool.getBuffer
  split <;> rfl

theorem reclaimBuffer_maxCellNum (pool : MemoryPool) (buffer : ℕ) :
    (pool.reclaimBuffer buffer).maxCellNum = pool.maxCellNum := by
  unfold MemoryPool.reclaimBuffer
  dsimp only
  split <;> rfl

/-- A request that finds nothing to delete, an old limit that is not above it, or a full pool whose buffers
in use stay within it is the limit afterwards, or bounds it. -/
theorem setMaxBufferNum_tight (hsettled : Settled (.setMaxBufferNum maxCellNum) s) :
    (s.pool.setMaxBufferNum maxCellNum).maxCellNum ≤ maxCellNum := by
  have hsettled' : s.pool.free.length + s.pool.used ≤ maxCellNum ∨ s.pool.maxCellNum ≤ maxCellNum ∨
      (s.pool.used ≤ maxCellNum ∧ s.pool.maxCellNum ≤ s.pool.free.length + s.pool.used) := hsettled
  rcases setMaxBufferNum_cases s.pool maxCellNum with
    ⟨hle, heq⟩ | ⟨hlt, heq⟩ | ⟨hle, hlt, -, -, hmax⟩
  · rw [heq]
  · rw [heq]
    show s.pool.maxCellNum - s.pool.free.length ≤ maxCellNum
    omega
  · rw [hmax]
    omega

/-- One legal call that is settled keeps the limit tight. -/
theorem Tight.step {call : PoolCall} (h : Tight s) (hlegal : Legal call s) (hsettled : Settled call s) :
    ∃ s', step call s = some s' ∧ Tight s' := by
  cases call with
  | getBuffer =>
    refine ⟨_, rfl, h.toInv.getBuffer, ?_⟩
    show s.pool.getBuffer.2.maxCellNum ≤ s.requested
    rw [getBuffer_maxCellNum]
    exact h.tight
  | reclaimBuffer buffer =>
    refine ⟨_, rfl, h.toInv.reclaimBuffer hlegal, ?_⟩
    show (s.pool.reclaimBuffer buffer).maxCellNum ≤ s.requested
    rw [reclaimBuffer_maxCellNum]
    exact h.tight
  | setMaxBufferNum maxCellNum =>
    exact ⟨_, rfl, h.toInv.setMaxBufferNum maxCellNum, setMaxBufferNum_tight hsettled⟩

/-- **The pool stays within its limit** in every run whose requests are all settled. -/
theorem withinLimit_always (maxCellNum : ℕ) (calls : List PoolCall)
    (hlegal : Guarded step (fun call s => Legal call s ∧ Settled call s) calls (init maxCellNum)) :
    (∃ s, runOps step calls (init maxCellNum) = some s) ∧
      Always step WithinLimit calls (init maxCellNum) := by
  have hrun := always_of_guarded (P := Tight) (fun call s h hG => h.step hG.1 hG.2)
    (tight_init maxCellNum) hlegal
  exact ⟨hrun.1, hrun.2.imp fun s h => h.withinLimit⟩

/-- A full pool that is shrunk to what is in use. -/
theorem withinLimit_always_shrunk :
    Always step WithinLimit
      [.getBuffer, .getBuffer, .reclaimBuffer 0, .setMaxBufferNum 1, .setMaxBufferNum 3, .getBuffer]
      (init 2) := by
  apply (withinLimit_always 2
    [.getBuffer, .getBuffer, .reclaimBuffer 0, .setMaxBufferNum 1, .setMaxBufferNum 3, .getBuffer] ?_).2
  apply Guarded.cons rfl (by decide)
  apply Guarded.cons rfl (by decide)
  apply Guarded.cons rfl (by decide)
  apply Guarded.cons rfl (by decide)
  apply Guarded.cons rfl (by decide)
  apply Guarded.cons rfl (by decide)
  exact trivial

/-- Two buffers are in use when the limit is set to one; the pool goes on with a limit of two, and keeps
the first one that comes back. -/
theorem over_limit :
    runOps step [.getBuffer, .getBuffer, .setMaxBufferNum 1, .reclaimBuffer 0] (init 2) =
        some ⟨⟨[0], 1, 2, 2⟩, [1], 1⟩ ∧
      Guarded step Legal [.getBuffer, .getBuffer, .setMaxBufferNum 1, .reclaimBuffer 0] (init 2) ∧
      ¬ WithinLimit ⟨⟨[0], 1, 2, 2⟩, [1], 1⟩ := by
  refine ⟨by decide, ?_, fun h => ?_⟩
  · apply Guarded.cons rfl (by decide)
    apply Guarded.cons rfl (by decide)
    apply Guarded.cons rfl (by decide)
    apply Guarded.cons rfl (by decide)
    exact trivial
  · have hle := h.limit (by decide)
    revert hle
    decide

end PoolRun

end AwaDB
