import AwaDB.Storage.LRUCache
import Mathlib.Data.List.AList

/-!
# The queue and the map of the block cache (`LRUCache` in `storage/lru_cache.h`)

Here the calls of one thread are looked at, each as a whole, and the recency queue, the map of the
cells and the counter `cur_size_` are kept apart as in the source. The nodes of the queue are
numbered, so that the iterator in a cell can point at one of them.

* `Structured`: the queue has the keys of the map, each once, each cell points at its own entry, and
  the size is the number of cells and within the limits;
* `structured_always`: that is so in every state of every sequence of calls, which is always
  defined, and no call reports an inconsistency.
-/

namespace AwaDB

open Lib

/-! ### Sizes and the pool -/

/-- The sizes that the constructor and `AlterCacheSize` compute. -/
def LRUSizes.ofCacheSize (cacheSize cellSize : ℕ) : LRUSizes :=
  let maxSize := cacheSize * 1024 * 1024 % 2 ^ 64 / cellSize
  let maxOverflow := min (maxSize / 20) 1000
  ⟨maxSize - maxOverflow, maxOverflow⟩

/-- `MemoryPool::SetMaxBufferNum`. -/
def MemoryPool.setMaxBufferNum (pool : MemoryPool) (maxCellNum : ℕ) : MemoryPool :=
  if pool.free.length + pool.used ≤ maxCellNum then { pool with maxCellNum }
  else
    let delNum :=
      if pool.used > maxCellNum then pool.free.length
      else pool.free.length + pool.used - maxCellNum
    { pool with free := pool.free.drop delNum, maxCellNum := pool.maxCellNum - delNum }

/-! ### The cache -/

/-- `Cell`: `queIte` is the number of the entry that `que_ite` points at. -/
structure QueuedCell where
  value : ℕ
  queIte : ℕ
  hits : ℕ
deriving DecidableEq, Repr

/-- `LRUCache`. `queue` has the entries of `queue_` with their numbers, and `nextEntry` is the next
one. `errors` counts the reports of an inconsistency, and `mem` has the bytes of the buffers. Between
the calls of one thread `insert_infos_` is empty. -/
structure LRUIndex (κ : Type*) where
  sizes : LRUSizes
  cellSize : ℕ
  queue : List (ℕ × κ)
  nextEntry : ℕ
  cells : AList fun _ : κ => QueuedCell
  curSize : ℕ
  pool : MemoryPool
  mem : ℕ → Bytes
  errors : ℕ

/-- The calls. `SetOrGet` has what the load function gives, and the buffer of `Set` comes from the
pool. -/
inductive LRUCall (κ : Type*) where
  | get (key : κ)
  | set (key : κ) (value : ℕ)
  | setOrGet (key : κ) (loaded : Option Bytes)
  | evict (key : κ)
  | update (key : κ) (buffer : Bytes) (beginPos : ℕ)
  | alterCacheSize (cacheSize : ℕ)

namespace LRUIndex

variable {κ : Type*} [DecidableEq κ]

/-- The constructor and `Init`. -/
def create (cacheSize cellSize : ℕ) : LRUIndex κ :=
  let sizes := LRUSizes.ofCacheSize cacheSize cellSize
  { sizes
    cellSize
    queue := []
    nextEntry := 0
    cells := ∅
    curSize := 0
    pool := { free := [], used := 0, next := 0, maxCellNum := sizes.maxSize + sizes.maxOverflow + 500 }
    mem := fun _ => []
    errors := 0 }

/-- The entry that an iterator points at. -/
def entryAt (ite : ℕ) (queue : List (ℕ × κ)) : Option (ℕ × κ) := queue.find? fun e => e.1 = ite

/-- A hit: the entry of a cell that was hit often goes to the end of the queue. -/
def hit (key : κ) (c : QueuedCell) (s : LRUIndex κ) : Option (LRUIndex κ) :=
  if c.hits ≥ thresholdOfSwap then
    (entryAt c.queIte s.queue).map fun e =>
      { s with
        queue := s.queue.erase e ++ [e]
        cells := s.cells.insert key { c with hits := 0 } }
  else some { s with cells := s.cells.insert key { c with hits := c.hits + 1 } }

/-- The loop of `EvictOverflow`, with `fail_pop_num`. -/
def evictLoop : ℕ → ℕ → LRUIndex κ → ℕ × LRUIndex κ
  | 0, failPopNum, s => (failPopNum, s)
  | n + 1, failPopNum, s =>
    match s.queue with
    | [] => evictLoop n (failPopNum + 1) { s with errors := s.errors + 1 }
    | e :: queue =>
      match s.cells.lookup e.2 with
      | none => evictLoop n failPopNum { s with errors := s.errors + 1 }
      | some c =>
        evictLoop n failPopNum
          { s with queue, cells := s.cells.erase e.2, pool := s.pool.reclaimBuffer c.value }

/-- `EvictOverflow`; a cache has fewer cells than an `int` counts. -/
def evictOverflow (s : LRUIndex κ) : LRUIndex κ :=
  if s.curSize ≥ s.sizes.maxSize + s.sizes.maxOverflow then
    let evictNum := s.curSize - s.sizes.maxSize
    let r := evictLoop evictNum 0 { s with curSize := s.curSize - evictNum }
    { r.2 with curSize := r.2.curSize + r.1 }
  else s

/-- `SetImpl`. -/
def setImpl (key : κ) (value : ℕ) (s : LRUIndex κ) : Option (LRUIndex κ) :=
  match s.cells.lookup key with
  | none =>
    some (evictOverflow { s with
      queue := s.queue ++ [(s.nextEntry, key)]
      nextEntry := s.nextEntry + 1
      cells := s.cells.insert key ⟨value, s.nextEntry, 0⟩
      curSize := s.curSize + 1 })
  | some c =>
    (hit key c s).map fun s =>
      { s with
        pool := s.pool.reclaimBuffer c.value
        cells := s.cells.insert key
          { (s.cells.lookup key).getD c with value := value } }

/-- One call. An iterator that points at no entry is undefined. -/
def step : LRUCall κ → LRUIndex κ → Option (LRUIndex κ)
  | .get key, s =>
    match s.cells.lookup key with
    | none => some s
    | some c => hit key c s
  | .set key value, s => setImpl key value s
  | .setOrGet key loaded, s =>
    match s.cells.lookup key with
    | some c => hit key c s
    | none =>
      let buffer := s.pool.getBuffer.1
      let s := { s with pool := s.pool.getBuffer.2 }
      match loaded with
      | none => some { s with pool := s.pool.reclaimBuffer buffer }
      | some bytes => setImpl key buffer { s with mem := Function.update s.mem buffer bytes }
  | .evict key, s =>
    match s.cells.lookup key with
    | none => some s
    | some c =>
      (entryAt c.queIte s.queue).map fun e =>
        { s with
          pool := s.pool.reclaimBuffer c.value
          queue := s.queue.erase e
          cells := s.cells.erase key
          curSize := s.curSize - 1 }
  | .update key buffer beginPos, s =>
    match s.cells.lookup key with
    | none => some s
    | some c =>
      some { s with mem := Function.update s.mem c.value (patch (s.mem c.value) beginPos buffer) }
  | .alterCacheSize cacheSize, s =>
    let sizes := LRUSizes.ofCacheSize cacheSize s.cellSize
    let s := evictOverflow { s with sizes }
    some { s with pool := s.pool.setMaxBufferNum (sizes.maxSize + 500) }

/-! ### Queue and map -/

/-- The queue has the keys of the map, and each cell points at its own entry. -/
structure Linked (s : LRUIndex κ) : Prop where
  keys : (s.queue.map Prod.snd).Perm s.cells.keys
  entries : (s.queue.map Prod.fst).Nodup
  fresh : ∀ e ∈ s.queue, e.1 < s.nextEntry
  own : ∀ key c, s.cells.lookup key = some c → (c.queIte, key) ∈ s.queue
  hits : ∀ key c, s.cells.lookup key = some c → c.hits ≤ thresholdOfSwap

/-- Moreover the size is the number of cells and within the limits, and no inconsistency was
reported. -/
structure Structured (s : LRUIndex κ) : Prop extends Linked s where
  size : s.curSize = s.cells.keys.length
  bound : s.curSize ≤ s.sizes.maxSize + s.sizes.maxOverflow
  errors : s.errors = 0

variable {s : LRUIndex κ} {key : κ} {c : QueuedCell}

theorem structured_create (cacheSize cellSize : ℕ) :
    Structured (create cacheSize cellSize : LRUIndex κ) where
  keys := List.Perm.refl _
  entries := List.nodup_nil
  fresh e he := absurd he List.not_mem_nil
  own key c h := by
    rw [create, AList.lookup_empty] at h
    cases h
  hits key c h := by
    rw [create, AList.lookup_empty] at h
    cases h
  size := rfl
  bound := Nat.zero_le _
  errors := rfl

theorem Linked.length_eq (h : Linked s) : s.queue.length = s.cells.keys.length := by
  rw [← h.keys.length_eq, List.length_map]

/-- The iterator of a cell points at the entry of its key. -/
theorem Linked.entryAt_eq (h : Linked s) (hc : s.cells.lookup key = some c) :
    entryAt c.queIte s.queue = some (c.queIte, key) := by
  have hmem := h.own key c hc
  cases hfind : entryAt c.queIte s.queue with
  | none => exact absurd (by simp) (List.find?_eq_none.mp hfind _ hmem)
  | some e =>
    have hid : e.1 = c.queIte := by simpa using List.find?_some hfind
    exact congrArg some
      (List.inj_on_of_nodup_map h.entries (List.mem_of_find?_eq_some hfind) hmem hid)

theorem mem_keys_of_lookup (hc : s.cells.lookup key = some c) : key ∈ s.cells.keys := by
  have hsome : (s.cells.lookup key).isSome := by rw [hc]; rfl
  exact AList.lookup_isSome.mp hsome

/-- A cell is replaced by one with the same iterator, and the queue reordered. -/
theorem Linked.replace (h : Linked s) (hc : s.cells.lookup key = some c) (c' : QueuedCell)
    (hite : c'.queIte = c.queIte) (hhits : c'.hits ≤ thresholdOfSwap) {queue : List (ℕ × κ)}
    (hqueue : queue.Perm s.queue) (pool : MemoryPool) :
    Linked { s with queue, cells := s.cells.insert key c', pool } where
  keys := by
    rw [AList.keys_insert]
    exact ((hqueue.map Prod.snd).trans h.keys).trans (List.perm_cons_erase (mem_keys_of_lookup hc))
  entries := (hqueue.map Prod.fst).nodup_iff.mpr h.entries
  fresh e he := h.fresh e (hqueue.mem_iff.mp he)
  own key' d hd := by
    by_cases heq : key' = key
    · rw [heq, AList.lookup_insert] at hd
      cases hd
      rw [heq, hite]
      exact hqueue.mem_iff.mpr (h.own key c hc)
    · rw [AList.lookup_insert_ne heq] at hd
      exact hqueue.mem_iff.mpr (h.own key' d hd)
  hits key' d hd := by
    by_cases heq : key' = key
    · rw [heq, AList.lookup_insert] at hd
      cases hd
      exact hhits
    · rw [AList.lookup_insert_ne heq] at hd
      exact h.hits key' d hd

/-- A key is dropped from both. -/
theorem Linked.drop (h : Linked s) (hc : s.cells.lookup key = some c) {queue : List (ℕ × κ)}
    (hqueue : s.queue.Perm ((c.queIte, key) :: queue)) (pool : MemoryPool) (curSize : ℕ) :
    Linked { s with queue, cells := s.cells.erase key, pool, curSize } where
  keys := by
    rw [AList.keys_erase]
    have hperm := ((hqueue.map Prod.snd).symm.trans h.keys).erase key
    rw [List.map_cons, List.erase_cons_head] at hperm
    exact hperm
  entries := by
    have hnodup := (hqueue.map Prod.fst).nodup_iff.mp h.entries
    rw [List.map_cons, List.nodup_cons] at hnodup
    exact hnodup.2
  fresh e he := h.fresh e (hqueue.mem_iff.mpr (List.mem_cons_of_mem _ he))
  own key' d hd := by
    have hne : key' ≠ key := by
      rintro rfl
      rw [AList.lookup_erase] at hd
      cases hd
    rw [AList.lookup_erase_ne hne] at hd
    cases List.mem_cons.mp (hqueue.mem_iff.mp (h.own key' d hd)) with
    | inl heq => exact absurd (congrArg Prod.snd heq) hne
    | inr hmem => exact hmem
  hits key' d hd := by
    have hne : key' ≠ key := by
      rintro rfl
      rw [AList.lookup_erase] at hd
      cases hd
    rw [AList.lookup_erase_ne hne] at hd
    exact h.hits key' d hd

theorem length_keys_erase (hc : s.cells.lookup key = some c) :
    (s.cells.erase key).keys.length + 1 = s.cells.keys.length := by
  rw [AList.keys_erase]
  exact List.length_erase_add_one (mem_keys_of_lookup hc)

/-! ### The operations -/

/-- **A hit** reorders the queue. -/
theorem Structured.hit (h : Structured s) (hc : s.cells.lookup key = some c) :
    ∃ s', LRUIndex.hit key c s = some s' ∧ Structured s' ∧
      ∃ c', s'.cells.lookup key = some c' ∧ c'.queIte = c.queIte ∧ c'.hits ≤ thresholdOfSwap := by
  have hlength : ∀ c', (s.cells.insert key c').keys.length = s.cells.keys.length := by
    intro c'
    rw [AList.keys_insert, List.length_cons]
    exact List.length_erase_add_one (mem_keys_of_lookup hc)
  rw [LRUIndex.hit]
  split
  · rw [h.entryAt_eq hc, Option.map_some]
    have hperm : (s.queue.erase (c.queIte, key) ++ [(c.queIte, key)]).Perm s.queue :=
      List.perm_append_comm.trans (List.perm_cons_erase (h.own key c hc)).symm
    refine ⟨_, rfl, ⟨h.toLinked.replace hc { c with hits := 0 } rfl (Nat.zero_le _) hperm s.pool, ?_,
      h.bound, h.errors⟩, ?_⟩
    · rw [hlength]
      exact h.size
    · exact ⟨_, AList.lookup_insert _, rfl, Nat.zero_le _⟩
  · rename_i hlow
    have hhits : c.hits + 1 ≤ thresholdOfSwap := by omega
    refine ⟨_, rfl,
      ⟨h.toLinked.replace hc { c with hits := c.hits + 1 } rfl hhits (List.Perm.refl _) s.pool, ?_,
        h.bound, h.errors⟩, ?_⟩
    · rw [hlength]
      exact h.size
    · exact ⟨_, AList.lookup_insert _, rfl, hhits⟩

/-- **The loop of `EvictOverflow`** finds an entry and its cell each time. -/
theorem Linked.evictLoop (h : Linked s) {n : ℕ} (hn : n ≤ s.queue.length) (failPopNum : ℕ) :
    ∃ s', LRUIndex.evictLoop n failPopNum s = (failPopNum, s') ∧ Linked s' ∧
      s'.cells.keys.length + n = s.cells.keys.length ∧ s'.curSize = s.curSize ∧
        s'.sizes = s.sizes ∧ s'.errors = s.errors := by
  induction n generalizing s with
  | zero => exact ⟨s, rfl, h, rfl, rfl, rfl, rfl⟩
  | succ n ih =>
    rw [LRUIndex.evictLoop]
    cases hqueue : s.queue with
    | nil =>
      rw [hqueue, List.length_nil] at hn
      omega
    | cons e queue =>
      dsimp only
      have hkey : e.2 ∈ s.cells.keys := by
        apply h.keys.mem_iff.mp
        rw [hqueue]
        exact List.mem_cons_self
      obtain ⟨c, hc⟩ := Option.isSome_iff_exists.mp (AList.lookup_isSome.mpr hkey)
      have hentry : e = (c.queIte, e.2) := by
        have hnodup : (s.queue.map Prod.snd).Nodup := h.keys.nodup_iff.mpr s.cells.keys_nodup
        refine List.inj_on_of_nodup_map hnodup ?_ (h.own e.2 c hc) rfl
        rw [hqueue]
        exact List.mem_cons_self
      have hperm : s.queue.Perm ((c.queIte, e.2) :: queue) := by
        rw [hqueue, ← hentry]
      rw [hc]
      dsimp only
      have hrest : n ≤ queue.length := by
        rw [hqueue, List.length_cons] at hn
        omega
      obtain ⟨s', hloop, hlinked, hlength, hsize, hsizes, herrors⟩ :=
        ih (h.drop hc hperm (s.pool.reclaimBuffer c.value) s.curSize) hrest
      refine ⟨s', hloop, hlinked, ?_, hsize, hsizes, herrors⟩
      have herase := length_keys_erase hc
      dsimp only at hlength
      omega

/-- **`EvictOverflow`** brings the cache within its limits. -/
theorem Linked.evictOverflow (h : Linked s) (hsize : s.curSize = s.cells.keys.length)
    (herrors : s.errors = 0) : Structured s.evictOverflow := by
  rw [LRUIndex.evictOverflow]
  split
  · rename_i hfull
    have hcore : Linked { s with curSize := s.curSize - (s.curSize - s.sizes.maxSize) } :=
      ⟨h.keys, h.entries, h.fresh, h.own, h.hits⟩
    have hle : s.curSize - s.sizes.maxSize ≤ s.queue.length := by
      rw [h.length_eq, ← hsize]
      exact Nat.sub_le _ _
    obtain ⟨s', hloop, hlinked, hlength, hcur, hsizes, herr⟩ := hcore.evictLoop hle 0
    dsimp only at hlength hcur hsizes herr ⊢
    rw [hloop]
    refine ⟨⟨hlinked.keys, hlinked.entries, hlinked.fresh, hlinked.own, hlinked.hits⟩, ?_, ?_, ?_⟩
    · show s'.curSize + 0 = s'.cells.keys.length
      omega
    · show s'.curSize + 0 ≤ s'.sizes.maxSize + s'.sizes.maxOverflow
      rw [hsizes]
      omega
    · exact herr.trans herrors
  · rename_i hroom
    exact ⟨h, hsize, by omega, herrors⟩

/-- **`SetImpl`.** -/
theorem Structured.setImpl (h : Structured s) (key : κ) (value : ℕ) :
    ∃ s', LRUIndex.setImpl key value s = some s' ∧ Structured s' := by
  rw [LRUIndex.setImpl]
  cases hc : s.cells.lookup key with
  | some c =>
    obtain ⟨s', hhit, hs', c', hc', hite, hhits⟩ := h.hit hc
    refine ⟨_, by dsimp only; rw [hhit, Option.map_some], ?_⟩
    rw [hc', Option.getD_some]
    refine ⟨hs'.toLinked.replace hc' { c' with value } rfl hhits (List.Perm.refl _) _, ?_,
      hs'.bound, hs'.errors⟩
    show s'.curSize = (s'.cells.insert key _).keys.length
    rw [AList.keys_insert, List.length_cons, List.length_erase_add_one (mem_keys_of_lookup hc')]
    exact hs'.size
  | none =>
    have hnew : key ∉ s.cells.keys := by
      intro hmem
      have hsome := AList.lookup_isSome.mpr hmem
      rw [hc] at hsome
      cases hsome
    have hkeys : ∀ c', (s.cells.insert key c').keys = key :: s.cells.keys := by
      intro c'
      rw [AList.keys_insert, List.erase_of_not_mem hnew]
    refine ⟨_, rfl, Linked.evictOverflow ⟨?_, ?_, ?_, ?_, ?_⟩ ?_ h.errors⟩
    · rw [hkeys, List.map_append]
      exact List.perm_append_comm.trans (List.Perm.cons key h.keys)
    · rw [List.map_append, List.nodup_append]
      refine ⟨h.entries, List.nodup_singleton _, fun a ha b hb => ?_⟩
      obtain ⟨e, he, rfl⟩ := List.mem_map.mp ha
      rw [List.mem_singleton.mp hb]
      exact Nat.ne_of_lt (h.fresh e he)
    · intro e he
      cases List.mem_append.mp he with
      | inl he => exact Nat.lt_succ_of_lt (h.fresh e he)
      | inr he =>
        rw [List.mem_singleton.mp he]
        exact Nat.lt_succ_self _
    · intro key' d hd
      by_cases heq : key' = key
      · rw [heq, AList.lookup_insert] at hd
        cases hd
        rw [heq]
        exact List.mem_append_right _ List.mem_cons_self
      · rw [AList.lookup_insert_ne heq] at hd
        exact List.mem_append_left _ (h.own key' d hd)
    · intro key' d hd
      by_cases heq : key' = key
      · rw [heq, AList.lookup_insert] at hd
        cases hd
        exact Nat.zero_le _
      · rw [AList.lookup_insert_ne heq] at hd
        exact h.hits key' d hd
    · show s.curSize + 1 = (s.cells.insert key _).keys.length
      rw [hkeys, List.length_cons, h.size]

/-- Buffers and their bytes do not matter. -/
theorem Structured.frame (h : Structured s) (pool : MemoryPool) (mem : ℕ → Bytes) :
    Structured { s with pool, mem } :=
  ⟨⟨h.keys, h.entries, h.fresh, h.own, h.hits⟩, h.size, h.bound, h.errors⟩

/-- **Every call** is defined and keeps the structure. -/
theorem Structured.step (h : Structured s) (call : LRUCall κ) :
    ∃ s', LRUIndex.step call s = some s' ∧ Structured s' := by
  cases call with
  | get key =>
    rw [LRUIndex.step]
    cases hc : s.cells.lookup key with
    | none => exact ⟨s, rfl, h⟩
    | some c =>
      obtain ⟨s', hhit, hs', -⟩ := h.hit hc
      exact ⟨s', hhit, hs'⟩
  | set key value => exact h.setImpl key value
  | setOrGet key loaded =>
    rw [LRUIndex.step]
    cases hc : s.cells.lookup key with
    | some c =>
      obtain ⟨s', hhit, hs', -⟩ := h.hit hc
      exact ⟨s', hhit, hs'⟩
    | none =>
      cases loaded with
      | none => exact ⟨_, rfl, h.frame _ s.mem⟩
      | some bytes => exact (h.frame s.pool.getBuffer.2 _).setImpl key s.pool.getBuffer.1
  | evict key =>
    rw [LRUIndex.step]
    cases hc : s.cells.lookup key with
    | none => exact ⟨s, rfl, h⟩
    | some c =>
      have hperm := List.perm_cons_erase (h.own key c hc)
      refine ⟨_, by dsimp only; rw [h.entryAt_eq hc, Option.map_some],
        h.toLinked.drop hc hperm _ _, ?_, ?_, h.errors⟩
      · have herase := length_keys_erase hc
        have hsize := h.size
        show s.curSize - 1 = (s.cells.erase key).keys.length
        omega
      · exact Nat.le_trans (Nat.sub_le _ _) h.bound
  | update key buffer beginPos =>
    rw [LRUIndex.step]
    cases hc : s.cells.lookup key with
    | none => exact ⟨s, rfl, h⟩
    | some c => exact ⟨_, rfl, h.frame s.pool _⟩
  | alterCacheSize cacheSize =>
    have hlinked : Linked { s with sizes := LRUSizes.ofCacheSize cacheSize s.cellSize } :=
      ⟨h.keys, h.entries, h.fresh, h.own, h.hits⟩
    exact ⟨_, rfl, (hlinked.evictOverflow h.size h.errors).frame _ _⟩

/-- **The structure of the cache** in every sequence of calls, which is defined throughout. -/
theorem structured_always (cacheSize cellSize : ℕ) (calls : List (LRUCall κ)) :
    (∃ s, runOps step calls (create cacheSize cellSize) = some s) ∧
      Always step Structured calls (create cacheSize cellSize) :=
  always_of_total (fun call _ h => h.step call) calls (structured_create cacheSize cellSize)

end LRUIndex

end AwaDB
