import AwaDB.Storage.LRUOwned
import AwaDB.Storage.LRUThreads

/-!
# A cache buffer has one owner

* `Exclusive`: each buffer is in one place, and a key has one cell or one `InsertInfo`;
* `oneOwner_always`: that is so in every run in which no thread goes on with an `InsertInfo` after a
  load for it has failed;
* `twoOwners`: the load of one thread fails, its buffer goes back to the pool, and the thread that
  waits for the lock loads into it.
-/

namespace AwaDB

open Lib

/-! ### The pool -/

namespace BufferPool

/-- How often the pool has a buffer, or has deleted it. -/
def stock (pool : BufferPool) (x : ℕ) : ℕ := pool.free.count x + pool.deleted.count x

theorem getBuffer_spec (pool : BufferPool) :
    (pool.getBuffer.2.next = pool.next ∧
      ∀ x, pool.stock x = [pool.getBuffer.1].count x + pool.getBuffer.2.stock x) ∨
    (pool.getBuffer.1 = pool.next ∧ pool.getBuffer.2.next = pool.next + 1 ∧
      ∀ x, pool.getBuffer.2.stock x = pool.stock x) := by
  cases hfree : pool.free with
  | nil =>
    right
    simp [getBuffer, hfree, stock]
  | cons buffer free =>
    left
    refine ⟨by simp [getBuffer, hfree], fun x => ?_⟩
    simp only [getBuffer, hfree, stock, List.count_cons, List.count_nil]
    omega

theorem stock_deleteFront (pool : BufferPool) (num x : ℕ) :
    (pool.deleteFront num).stock x = pool.stock x := by
  have hsplit : pool.free.count x = (pool.free.take num).count x + (pool.free.drop num).count x := by
    rw [← List.count_append, List.take_append_drop]
  show (pool.free.drop num).count x + (pool.deleted ++ pool.free.take num).count x = _
  rw [stock, List.count_append, hsplit]
  omega

theorem reclaimBuffer_spec (pool : BufferPool) (buffer : ℕ) :
    (pool.reclaimBuffer buffer).next = pool.next ∧
      ∀ x, (pool.reclaimBuffer buffer).stock x = pool.stock x + [buffer].count x := by
  have hadd : ∀ used x, stock { pool with free := pool.free ++ [buffer], used := used } x =
      pool.stock x + [buffer].count x := by
    intro used x
    show (pool.free ++ [buffer]).count x + pool.deleted.count x = _
    rw [stock, List.count_append]
    omega
  rw [reclaimBuffer]
  dsimp only
  split
  · refine ⟨rfl, fun x => ?_⟩
    rw [stock_deleteFront, hadd]
  · exact ⟨rfl, hadd _⟩

theorem reclaimAll_spec (pool : BufferPool) (buffers : List ℕ) :
    (pool.reclaimAll buffers).next = pool.next ∧
      ∀ x, (pool.reclaimAll buffers).stock x = pool.stock x + buffers.count x := by
  induction buffers generalizing pool with
  | nil => exact ⟨rfl, fun x => rfl⟩
  | cons buffer buffers ih =>
    obtain ⟨hnext, hstock⟩ := ih (pool.reclaimBuffer buffer)
    obtain ⟨hnext', hstock'⟩ := pool.reclaimBuffer_spec buffer
    refine ⟨hnext.trans hnext', fun x => ?_⟩
    have hone := hstock' x
    have hrest := hstock x
    rw [List.count_singleton] at hone
    rw [List.count_cons]
    exact hrest.trans (by omega)

theorem setMaxBufferNum_spec (pool : BufferPool) (maxCellNum : ℕ) :
    (pool.setMaxBufferNum maxCellNum).next = pool.next ∧
      ∀ x, (pool.setMaxBufferNum maxCellNum).stock x = pool.stock x := by
  rw [setMaxBufferNum]
  split
  · exact ⟨rfl, fun x => rfl⟩
  · exact ⟨rfl, fun x => pool.stock_deleteFront _ x⟩

end BufferPool

/-! ### Cells -/

theorem hitCell_keys {c : LRUCell} {cells : List LRUCell} (hc : c ∈ cells) :
    ((hitCell c cells).map LRUCell.key).Perm (cells.map LRUCell.key) := by
  have hperm := (hitCell_perm hc).map Prod.fst
  rw [cellEntries, cellEntries, List.map_map, List.map_map] at hperm
  exact hperm

theorem hitCell_buffers {c : LRUCell} {cells : List LRUCell} (hc : c ∈ cells) :
    ((hitCell c cells).map LRUCell.buffer).Perm (cells.map LRUCell.buffer) := by
  have hperm := (hitCell_perm hc).map Prod.snd
  rw [cellEntries, cellEntries, List.map_map, List.map_map] at hperm
  exact hperm

theorem findCell_none {key : ℕ} {cells : List LRUCell} (h : findCell key cells = none) :
    ∀ c ∈ cells, c.key ≠ key := by
  intro c hc
  simpa using List.find?_eq_none.mp h c hc

namespace LRUShared

variable {s : LRUShared}

/-! ### Who has which buffer -/

/-- Each buffer is in one place; a key has one cell or one `InsertInfo`, and one that is loaded is in
the table and locked. -/
structure Exclusive (s : LRUShared) : Prop where
  buffers : ∀ x, (s.cells.map LRUCell.buffer).count x +
    (s.inserting.map Insertion.buffer).count x + s.pool.stock x = if x < s.pool.next then 1 else 0
  keys : (s.cells.map LRUCell.key).Nodup
  ids : (s.inserting.map Insertion.id).Nodup
  infoKeys : (s.inserting.map Insertion.key).Nodup
  apart : ∀ o ∈ s.inserting, ∀ c ∈ s.cells, c.key ≠ o.key
  opened : ∀ o ∈ s.inserting, o.id < s.nextId ∧ s.clean o.id = false
  unused : ∀ id, s.nextId ≤ id → s.product id = false ∧ s.clean id = false
  nodup : s.loading.Nodup
  loading : ∀ o ∈ s.loading, o ∈ s.inserting
  product : ∀ o ∈ s.inserting, s.product o.id = true → o ∈ s.loading

/-- What holds of a thread in a phase. -/
def PhaseOk (s : LRUShared) : ThreadPhase → Prop
  | .waiting o => o.id < s.nextId ∧ (s.clean o.id = false → o ∈ s.inserting)
  | .loaded o _ => o ∈ s.loading
  | _ => True

/-- Moreover an `InsertInfo` is loaded by one thread. -/
structure Held (s : LRUShared) : Prop extends Exclusive s where
  phases : ∀ t, s.PhaseOk (s.threads t)
  alone : ∀ t t' o res res', s.threads t = .loaded o res → s.threads t' = .loaded o res' → t = t'

theorem held_create (z : LRUSizes) : Held (create z) where
  buffers x := (if_neg (Nat.not_lt_zero x)).symm
  keys := List.nodup_nil
  ids := List.nodup_nil
  infoKeys := List.nodup_nil
  apart o ho := absurd ho List.not_mem_nil
  opened o ho := absurd ho List.not_mem_nil
  unused id _ := ⟨rfl, rfl⟩
  nodup := List.nodup_nil
  loading o ho := absurd ho List.not_mem_nil
  product o ho := absurd ho List.not_mem_nil
  phases t := trivial
  alone t t' o res res' h := by cases h

/-- **One owner.** -/
theorem Exclusive.oneOwner (h : Exclusive s) : s.OneOwner := by
  intro x hx
  have hnone : (s.loading.filter fun o => o ∉ s.inserting) = [] := by
    refine List.filter_eq_nil_iff.mpr fun o ho => ?_
    simpa using h.loading o ho
  have hbuffers := h.buffers x
  rw [if_pos hx, BufferPool.stock] at hbuffers
  rw [inProgress, hnone, List.append_nil]
  omega

theorem Exclusive.id_inj (h : Exclusive s) {o o' : Insertion} (ho : o ∈ s.inserting)
    (ho' : o' ∈ s.inserting) (hid : o.id = o'.id) : o = o' :=
  List.inj_on_of_nodup_map h.ids ho ho' hid

theorem Exclusive.key_inj (h : Exclusive s) {o o' : Insertion} (ho : o ∈ s.inserting)
    (ho' : o' ∈ s.inserting) (hkey : o.key = o'.key) : o = o' :=
  List.inj_on_of_nodup_map h.infoKeys ho ho' hkey

theorem findInsertion_eq_some {key : ℕ} {o : Insertion} (h : s.findInsertion key = some o) :
    o ∈ s.inserting ∧ o.key = key :=
  ⟨List.mem_of_find?_eq_some h, by simpa using List.find?_some h⟩

theorem Exclusive.findInsertion_key (h : Exclusive s) {o : Insertion} (ho : o ∈ s.inserting) :
    s.findInsertion o.key = some o := by
  cases hfind : s.findInsertion o.key with
  | none =>
    have hne : o.key ≠ o.key := by simpa using List.find?_eq_none.mp hfind o ho
    exact absurd rfl hne
  | some o' =>
    obtain ⟨ho', hkey⟩ := findInsertion_eq_some hfind
    rw [h.key_inj ho' ho hkey]

/-- Bytes, sizes and threads do not matter. -/
theorem Exclusive.frame (h : Exclusive s) (sizes : LRUSizes) (mem : ℕ → Bytes)
    (threads : ℕ → ThreadPhase) (copied : List Copied) :
    Exclusive { s with sizes, mem, threads, copied } :=
  ⟨h.buffers, h.keys, h.ids, h.infoKeys, h.apart, h.opened, h.unused, h.nodup, h.loading, h.product⟩

/-- Buffers go between the cells and the pool. -/
theorem Exclusive.setCells (h : Exclusive s) {cells : List LRUCell} (pool : BufferPool)
    (hnext : pool.next = s.pool.next)
    (hcount : ∀ x, (cells.map LRUCell.buffer).count x + pool.stock x =
      (s.cells.map LRUCell.buffer).count x + s.pool.stock x)
    (hkeys : (cells.map LRUCell.key).Nodup)
    (happart : ∀ o ∈ s.inserting, ∀ c ∈ cells, c.key ≠ o.key) :
    Exclusive { s with cells, pool } := by
  refine ⟨fun x => ?_, hkeys, h.ids, h.infoKeys, happart, h.opened, h.unused, h.nodup, h.loading,
    h.product⟩
  have hold := h.buffers x
  have hnew := hcount x
  show (cells.map LRUCell.buffer).count x + (s.inserting.map Insertion.buffer).count x +
    pool.stock x = if x < pool.next then 1 else 0
  rw [hnext]
  omega

theorem Exclusive.hit (h : Exclusive s) {c : LRUCell} (hc : c ∈ s.cells) :
    Exclusive { s with cells := hitCell c s.cells } := by
  refine h.setCells s.pool rfl (fun x => ?_) ((hitCell_keys hc).nodup_iff.mpr h.keys) ?_
  · rw [(hitCell_buffers hc).count_eq]
  · intro o ho d hd hkey
    have hmem := (hitCell_keys hc).mem_iff.mp (List.mem_map_of_mem hd)
    obtain ⟨e, he, heq⟩ := List.mem_map.mp hmem
    exact h.apart o ho e he (heq.trans hkey)

/-- The buffers of the first cells go to the pool. -/
theorem reclaimFirst_spec (cells : List LRUCell) (pool : BufferPool) (num : ℕ) :
    (pool.reclaimAll ((cells.take num).map LRUCell.buffer)).next = pool.next ∧
      ∀ x, ((cells.drop num).map LRUCell.buffer).count x +
          (pool.reclaimAll ((cells.take num).map LRUCell.buffer)).stock x =
        (cells.map LRUCell.buffer).count x + pool.stock x := by
  obtain ⟨hnext, hstock⟩ := pool.reclaimAll_spec ((cells.take num).map LRUCell.buffer)
  refine ⟨hnext, fun x => ?_⟩
  have hsplit : (cells.map LRUCell.buffer).count x =
      ((cells.take num).map LRUCell.buffer).count x +
        ((cells.drop num).map LRUCell.buffer).count x := by
    rw [← List.count_append, ← List.map_append, List.take_append_drop]
  rw [hstock, hsplit]
  omega

/-- Some cells are evicted. -/
theorem Exclusive.evictFirst (h : Exclusive s) (num : ℕ) :
    Exclusive { s with
      cells := s.cells.drop num
      pool := s.pool.reclaimAll ((s.cells.take num).map LRUCell.buffer) } := by
  obtain ⟨hnext, hcount⟩ := reclaimFirst_spec s.cells s.pool num
  refine h.setCells _ hnext hcount ?_ fun o ho c hc => h.apart o ho c (List.mem_of_mem_drop hc)
  rw [List.map_drop]
  exact h.keys.sublist (List.drop_sublist _ _)

/-- `EvictOverflow` evicts some of the first cells, or none. -/
theorem evictOverflow_eq (s : LRUShared) : ∃ num, s.evictOverflow = { s with
    cells := s.cells.drop num
    pool := s.pool.reclaimAll ((s.cells.take num).map LRUCell.buffer) } := by
  rw [LRUShared.evictOverflow]
  split
  · exact ⟨_, rfl⟩
  · exact ⟨0, rfl⟩

theorem Exclusive.evict (h : Exclusive s) {c : LRUCell} (hc : c ∈ s.cells) :
    Exclusive { s with cells := s.cells.erase c, pool := s.pool.reclaimBuffer c.buffer } := by
  obtain ⟨hnext, hstock⟩ := s.pool.reclaimBuffer_spec c.buffer
  have hperm := List.perm_cons_erase hc
  refine h.setCells _ hnext (fun x => ?_) ?_ fun o ho d hd => h.apart o ho d (List.mem_of_mem_erase hd)
  · have hcount : (s.cells.map LRUCell.buffer).count x =
        [c.buffer].count x + ((s.cells.erase c).map LRUCell.buffer).count x := by
      rw [(hperm.map LRUCell.buffer).count_eq, List.map_cons, ← List.singleton_append,
        List.count_append]
    rw [hstock, hcount]
    omega
  · exact h.keys.sublist (List.erase_sublist.map _)

theorem Exclusive.setMaxBufferNum (h : Exclusive s) (num : ℕ) :
    Exclusive { s with pool := s.pool.setMaxBufferNum num } := by
  obtain ⟨hnext, hstock⟩ := s.pool.setMaxBufferNum_spec num
  exact h.setCells _ hnext (fun x => by rw [hstock]) h.keys h.apart

/-- **A new `InsertInfo`** gets a buffer of the pool. -/
theorem Exclusive.newInsertion (h : Exclusive s) {key : ℕ} (hcell : findCell key s.cells = none)
    (hinfo : s.findInsertion key = none) :
    Exclusive { s with
      pool := s.pool.getBuffer.2
      inserting := s.inserting ++ [⟨s.nextId, key, s.pool.getBuffer.1⟩]
      nextId := s.nextId + 1 } := by
  have hfresh : ∀ o ∈ s.inserting, o.id ≠ s.nextId := fun o ho => Nat.ne_of_lt (h.opened o ho).1
  have hkey : ∀ o ∈ s.inserting, o.key ≠ key := fun o ho => by
    simpa using List.find?_eq_none.mp hinfo o ho
  refine ⟨fun x => ?_, h.keys, ?_, ?_, fun o ho c hc => ?_, fun o ho => ?_, fun id hid => ?_,
    h.nodup, fun o ho => List.mem_append_left _ (h.loading o ho), fun o ho hproduct => ?_⟩
  · have hold := h.buffers x
    rw [List.map_append, List.count_append, List.map_singleton]
    obtain ⟨hnext, hstock⟩ | ⟨hbuffer, hnext, hstock⟩ := s.pool.getBuffer_spec
    · have hone := hstock x
      dsimp only
      rw [hnext]
      omega
    · have hone := hstock x
      dsimp only
      rw [hnext, hbuffer, hone, List.count_singleton]
      by_cases hx : s.pool.next = x
      · subst hx
        rw [if_neg (Nat.lt_irrefl _)] at hold
        simp only [beq_self_eq_true, if_true, Nat.lt_succ_self]
        omega
      · have hiff : x < s.pool.next + 1 ↔ x < s.pool.next := by omega
        simp only [beq_iff_eq, hx, if_false, hiff]
        omega
  · rw [List.map_append, List.nodup_append]
    refine ⟨h.ids, List.nodup_singleton _, fun a ha b hb => ?_⟩
    obtain ⟨o, ho, rfl⟩ := List.mem_map.mp ha
    rw [List.mem_singleton.mp hb]
    exact hfresh o ho
  · rw [List.map_append, List.nodup_append]
    refine ⟨h.infoKeys, List.nodup_singleton _, fun a ha b hb => ?_⟩
    obtain ⟨o, ho, rfl⟩ := List.mem_map.mp ha
    rw [List.mem_singleton.mp hb]
    exact hkey o ho
  · cases List.mem_append.mp ho with
    | inl ho => exact h.apart o ho c hc
    | inr ho =>
      rw [List.mem_singleton.mp ho]
      exact findCell_none hcell c hc
  · cases List.mem_append.mp ho with
    | inl ho => exact ⟨Nat.lt_succ_of_lt (h.opened o ho).1, (h.opened o ho).2⟩
    | inr ho =>
      rw [List.mem_singleton.mp ho]
      exact ⟨Nat.lt_succ_self _, (h.unused s.nextId (Nat.le_refl _)).2⟩
  · exact h.unused id (Nat.le_of_succ_le hid)
  · cases List.mem_append.mp ho with
    | inl ho => exact h.product o ho hproduct
    | inr ho =>
      rw [List.mem_singleton.mp ho, (h.unused s.nextId (Nat.le_refl _)).1] at hproduct
      cases hproduct

/-- **A load** for an `InsertInfo` of the table. -/
theorem Exclusive.load (h : Exclusive s) {o : Insertion} (ho : o ∈ s.inserting)
    (hfree : o ∉ s.loading) (res : Bool) :
    Exclusive { s with
      product := Function.update s.product o.id res
      loading := s.loading ++ [o] } := by
  refine ⟨h.buffers, h.keys, h.ids, h.infoKeys, h.apart, h.opened, fun id hid => ?_, ?_,
    fun o' ho' => ?_, fun o' ho' hproduct => ?_⟩
  · have hne : id ≠ o.id := by
      have hlt := (h.opened o ho).1
      have hle : s.nextId ≤ id := hid
      omega
    show Function.update s.product o.id res id = false ∧ s.clean id = false
    rw [Function.update_of_ne hne]
    exact h.unused id hid
  · show (s.loading ++ [o]).Nodup
    rw [List.nodup_append]
    refine ⟨h.nodup, List.nodup_singleton _, fun a ha b hb heq => hfree ?_⟩
    rw [← List.mem_singleton.mp hb, ← heq]
    exact ha
  · cases List.mem_append.mp ho' with
    | inl ho' => exact h.loading o' ho'
    | inr ho' =>
      rw [List.mem_singleton.mp ho']
      exact ho
  · by_cases heq : o' = o
    · rw [heq]
      exact List.mem_append_right _ List.mem_cons_self
    · have hid : o'.id ≠ o.id := fun hid => heq (h.id_inj ho' ho hid)
      have hold : Function.update s.product o.id res o'.id = true := hproduct
      rw [Function.update_of_ne hid] at hold
      exact List.mem_append_left _ (h.product o' ho' hold)

/-- The table without an `InsertInfo`. -/
theorem Exclusive.inserting_perm (h : Exclusive s) {o : Insertion} (ho : o ∈ s.inserting) :
    s.inserting.Perm (o :: s.inserting.filter fun o' => o'.key ≠ o.key) := by
  have hnodup : s.inserting.Nodup := List.Nodup.of_map _ h.ids
  refine (List.perm_cons_erase ho).trans (List.Perm.cons o (List.Perm.of_eq ?_))
  rw [hnodup.erase_eq_filter]
  refine List.filter_congr fun o' ho' => ?_
  by_cases heq : o' = o
  · simp [heq]
  · have hkey : o'.key ≠ o.key := fun hkey => heq (h.key_inj ho' ho hkey)
    simp [heq, hkey]

/-- **An `InsertInfo` is cleaned up**, and its buffer goes to the cells or to the pool. -/
theorem Exclusive.remove (h : Exclusive s) {o : Insertion} (ho : o ∈ s.inserting)
    {cells : List LRUCell} {pool : BufferPool} (hnext : pool.next = s.pool.next)
    (hcount : ∀ x, (cells.map LRUCell.buffer).count x + pool.stock x =
      (s.cells.map LRUCell.buffer).count x + [o.buffer].count x + s.pool.stock x)
    (hkeys : (cells.map LRUCell.key).Nodup)
    (hapart : ∀ c ∈ cells, c ∈ s.cells ∨ c.key = o.key) :
    Exclusive { s with
      cells, pool
      loading := s.loading.erase o
      clean := Function.update s.clean o.id true
      inserting := s.inserting.filter fun o' => o'.key ≠ o.key } := by
  have hperm := h.inserting_perm ho
  have hmem : ∀ o' ∈ s.inserting.filter (fun o' => o'.key ≠ o.key),
      o' ∈ s.inserting ∧ o'.key ≠ o.key :=
    fun o' ho' => ⟨(List.mem_filter.mp ho').1, by simpa using (List.mem_filter.mp ho').2⟩
  have hkept : ∀ o' ∈ s.inserting, o' ≠ o → o' ∈ s.inserting.filter fun o' => o'.key ≠ o.key :=
    fun o' ho' hne =>
      List.mem_filter.mpr ⟨ho', by simpa using fun hkey => hne (h.key_inj ho' ho hkey)⟩
  refine ⟨fun x => ?_, hkeys, h.ids.sublist (List.filter_sublist.map _),
    h.infoKeys.sublist (List.filter_sublist.map _), fun o' ho' c hc hkey => ?_, fun o' ho' => ?_,
    fun id hid => ?_, h.nodup.erase o, fun o' ho' => ?_, fun o' ho' hproduct => ?_⟩
  · have hold := h.buffers x
    have hnew := hcount x
    rw [(hperm.map Insertion.buffer).count_eq, List.map_cons, ← List.singleton_append,
      List.count_append] at hold
    dsimp only
    rw [hnext]
    omega
  · obtain ⟨hin, hne⟩ := hmem o' ho'
    cases hapart c hc with
    | inl hold => exact h.apart o' hin c hold hkey
    | inr hnew => exact hne (hkey.symm.trans hnew)
  · obtain ⟨hin, hne⟩ := hmem o' ho'
    have hid : o'.id ≠ o.id := fun hid => hne (congrArg Insertion.key (h.id_inj hin ho hid))
    show o'.id < s.nextId ∧ Function.update s.clean o.id true o'.id = false
    rw [Function.update_of_ne hid]
    exact h.opened o' hin
  · have hne : id ≠ o.id := by
      have hlt := (h.opened o ho).1
      have hle : s.nextId ≤ id := hid
      omega
    show s.product id = false ∧ Function.update s.clean o.id true id = false
    rw [Function.update_of_ne hne]
    exact h.unused id hid
  · obtain ⟨hne, hin⟩ := (h.nodup.mem_erase_iff).mp ho'
    exact hkept o' (h.loading o' hin) hne
  · obtain ⟨hin, hne⟩ := hmem o' ho'
    exact (h.nodup.mem_erase_iff).mpr ⟨fun heq => hne (heq ▸ rfl), h.product o' hin hproduct⟩

/-! ### Threads -/

theorem Held.goes {t : ℕ} {phase : ThreadPhase} (hexclusive : Exclusive s)
    (hphases : ∀ t', t' ≠ t → s.PhaseOk (s.threads t')) (hphase : s.PhaseOk phase)
    (halone : ∀ t₁ t₂ o res res', t₁ ≠ t → t₂ ≠ t → s.threads t₁ = .loaded o res →
      s.threads t₂ = .loaded o res' → t₁ = t₂)
    (hnew : ∀ o res, phase = .loaded o res → ∀ t' res', t' ≠ t → s.threads t' ≠ .loaded o res') :
    Held (s.goes t phase) := by
  have hself : (s.goes t phase).threads t = phase := Function.update_self ..
  have hother : ∀ t', t' ≠ t → (s.goes t phase).threads t' = s.threads t' :=
    fun t' hne => Function.update_of_ne hne ..
  refine ⟨hexclusive.frame s.sizes s.mem _ s.copied, fun t' => ?_, fun t₁ t₂ o res res' h₁ h₂ => ?_⟩
  · show PhaseOk s ((s.goes t phase).threads t')
    by_cases heq : t' = t
    · rw [heq, hself]
      exact hphase
    · rw [hother t' heq]
      exact hphases t' heq
  · by_cases heq₁ : t₁ = t
    · by_cases heq₂ : t₂ = t
      · rw [heq₁, heq₂]
      · rw [heq₁, hself] at h₁
        rw [hother t₂ heq₂] at h₂
        exact absurd h₂ (hnew o res h₁ t₂ res' heq₂)
    · by_cases heq₂ : t₂ = t
      · rw [heq₂, hself] at h₂
        rw [hother t₁ heq₁] at h₁
        exact absurd h₁ (hnew o res' h₂ t₁ res heq₁)
      · rw [hother t₁ heq₁] at h₁
        rw [hother t₂ heq₂] at h₂
        exact halone t₁ t₂ o res res' heq₁ heq₂ h₁ h₂

/-- A thread goes to a phase in which it loads nothing. -/
theorem Held.moves (h : Held s) {t : ℕ} {phase : ThreadPhase} (hphase : s.PhaseOk phase)
    (hidle : ∀ o res, phase ≠ .loaded o res) : Held (s.goes t phase) :=
  Held.goes h.toExclusive (fun t' _ => h.phases t') hphase
    (fun t₁ t₂ o res res' _ _ => h.alone t₁ t₂ o res res') fun o res heq => absurd heq (hidle o res)

/-- Cells, buffers and sizes do not matter to the threads. -/
theorem Held.ofExclusive (h : Held s) {sizes : LRUSizes} {pool : BufferPool} {mem : ℕ → Bytes}
    {cells : List LRUCell} {copied : List Copied}
    (hexclusive : Exclusive { s with sizes, pool, mem, cells, copied }) :
    Held { s with sizes, pool, mem, cells, copied } :=
  ⟨hexclusive, h.phases, h.alone⟩

theorem Held.patchCell (h : Held s) (key beginPos : ℕ) (bytes : Bytes) :
    Held (s.patchCell key beginPos bytes) := by
  rw [LRUShared.patchCell]
  split
  · exact h
  · exact h.ofExclusive (h.toExclusive.frame s.sizes _ s.threads s.copied)

/-- **The first section of `SetOrGet`.** -/
theorem Held.look {s' : LRUShared} (h : Held s) {blocks : ℕ → Bytes} {cellSize thread key : ℕ}
    (hstep : step blocks cellSize (.look thread key) s = some s') : Held s' := by
  rw [step] at hstep
  split at hstep
  · split at hstep
    · rename_i c hc
      cases hstep
      have hcell := (findCell_eq_some hc).1
      exact (h.ofExclusive (h.toExclusive.hit hcell)).moves trivial fun o res heq => by cases heq
    · rename_i hcell
      split at hstep
      · rename_i o ho
        cases hstep
        have hin := (findInsertion_eq_some ho).1
        exact h.moves ⟨(h.opened o hin).1, fun _ => hin⟩ fun o res heq => by cases heq
      · rename_i hinfo
        cases hstep
        refine Held.goes (h.toExclusive.newInsertion hcell hinfo) (fun t' _ => ?_) ?_
          (fun t₁ t₂ o res res' _ _ => h.alone t₁ t₂ o res res') fun o res heq => by cases heq
        · have hphase := h.phases t'
          dsimp only
          cases hthread : s.threads t' with
          | waiting o =>
            rw [hthread] at hphase
            exact ⟨Nat.lt_succ_of_lt hphase.1, fun hclean => List.mem_append_left _ (hphase.2 hclean)⟩
          | loaded o res =>
            rw [hthread] at hphase
            exact hphase
          | idle => trivial
          | copying key buffer => trivial
          | updating o beginPos bytes => trivial
        · exact ⟨Nat.lt_succ_self _, fun _ => List.mem_append_right _ List.mem_cons_self⟩
  · cases hstep

/-- **The second section**, with an `InsertInfo` that has not failed. -/
theorem Held.load {s' : LRUShared} (h : Held s) {blocks : ℕ → Bytes} {cellSize thread : ℕ}
    {junk : Option Bytes} (hguard : NotFailed (.load thread junk) s)
    (hstep : step blocks cellSize (.load thread junk) s = some s') : Held s' := by
  rw [step] at hstep
  split at hstep
  · rename_i o hthread
    split at hstep
    · cases hstep
    · rename_i hfree
      split at hstep
      · cases hstep
        exact h.moves trivial fun o res heq => by cases heq
      · rename_i hproduct
        cases hstep
        have hphase := h.phases thread
        rw [hthread] at hphase
        have hclean : s.clean o.id = false := by
          cases hclean : s.clean o.id with
          | false => rfl
          | true => exact absurd (hguard o hthread hclean) hproduct
        have ho := hphase.2 hclean
        refine Held.goes ((h.toExclusive.load ho hfree junk.isNone).frame s.sizes _ s.threads s.copied)
          (fun t' _ => ?_) (List.mem_append_right _ List.mem_cons_self)
          (fun t₁ t₂ o res res' _ _ => h.alone t₁ t₂ o res res') fun o' res heq t' res' _ hother => ?_
        · have hold := h.phases t'
          dsimp only
          cases hthread' : s.threads t' with
          | waiting o' =>
            rw [hthread'] at hold
            exact hold
          | loaded o' res =>
            rw [hthread'] at hold
            exact List.mem_append_left _ hold
          | idle => trivial
          | copying key buffer => trivial
          | updating o' beginPos bytes => trivial
        · cases heq
          have hold := h.phases t'
          replace hother : s.threads t' = .loaded o res' := hother
          rw [hother] at hold
          exact hfree hold
  · cases hstep

/-- The buffer of an `InsertInfo` goes to a cell of its key, or to the pool. -/
theorem Exclusive.finishInsertion_eq (h : Exclusive s) {o : Insertion} (ho : o ∈ s.inserting)
    (res : Bool) : ∃ cells pool, s.finishInsertion o res = { s with
        cells, pool
        loading := s.loading.erase o
        clean := Function.update s.clean o.id true
        inserting := s.inserting.filter fun o' => o'.key ≠ o.key } ∧
      pool.next = s.pool.next ∧
      (∀ x, (cells.map LRUCell.buffer).count x + pool.stock x =
        (s.cells.map LRUCell.buffer).count x + [o.buffer].count x + s.pool.stock x) ∧
      cells.Sublist (s.cells ++ [⟨o.key, o.buffer, 0⟩]) ∧ (res ≠ true → cells = s.cells) := by
  have hcell : findCell o.key s.cells = none := by
    refine List.find?_eq_none.mpr fun c hc => ?_
    simpa using h.apart o ho c hc
  rw [finishInsertion, h.findInsertion_key ho, (h.opened o ho).2]
  by_cases hres : res = true
  · rw [if_pos ⟨hres, rfl⟩, setImpl, hcell]
    obtain ⟨num, hevict⟩ := evictOverflow_eq { s with cells := s.cells ++ [⟨o.key, o.buffer, 0⟩] }
    dsimp only at hevict ⊢
    rw [hevict]
    obtain ⟨hnext, hcount⟩ := reclaimFirst_spec (s.cells ++ [⟨o.key, o.buffer, 0⟩]) s.pool num
    refine ⟨_, _, rfl, hnext, fun x => ?_, List.drop_sublist _ _, fun hnot => absurd hres hnot⟩
    rw [hcount, List.map_append, List.count_append, List.map_singleton]
  · obtain ⟨hnext, hstock⟩ := s.pool.reclaimBuffer_spec o.buffer
    rw [if_neg fun hcond => hres hcond.1]
    refine ⟨s.cells, _, rfl, hnext, fun x => ?_, List.sublist_append_left _ _, fun _ => rfl⟩
    rw [hstock]
    omega

/-- The state after the last section. -/
theorem Exclusive.finishInsertion (h : Exclusive s) {o : Insertion} (ho : o ∈ s.inserting)
    (res : Bool) : Exclusive (s.finishInsertion o res) ∧
      (s.finishInsertion o res).threads = s.threads ∧
      (s.finishInsertion o res).nextId = s.nextId ∧
      (s.finishInsertion o res).loading = s.loading.erase o ∧
      (s.finishInsertion o res).clean = Function.update s.clean o.id true ∧
      (s.finishInsertion o res).inserting = s.inserting.filter fun o' => o'.key ≠ o.key := by
  obtain ⟨cells, pool, heq, hnext, hcount, hsub, -⟩ := h.finishInsertion_eq ho res
  rw [heq]
  refine ⟨h.remove ho hnext hcount ?_ fun c hc => ?_, rfl, rfl, rfl, rfl, rfl⟩
  · refine (List.Sublist.map LRUCell.key hsub).nodup ?_
    rw [List.map_append, List.nodup_append]
    refine ⟨h.keys, List.nodup_singleton _, fun a ha b hb => ?_⟩
    obtain ⟨c, hc, rfl⟩ := List.mem_map.mp ha
    rw [List.mem_singleton.mp hb]
    exact h.apart o ho c hc
  · cases List.mem_append.mp (hsub.subset hc) with
    | inl hc => exact .inl hc
    | inr hc => exact .inr (by rw [List.mem_singleton.mp hc])

/-- **The last section of `SetOrGet`.** -/
theorem Held.finish {s' : LRUShared} (h : Held s) {blocks : ℕ → Bytes} {cellSize thread : ℕ}
    (hstep : step blocks cellSize (.finish thread) s = some s') : Held s' := by
  rw [step] at hstep
  split at hstep
  · rename_i o res hthread
    have hphase := h.phases thread
    rw [hthread] at hphase
    have ho := h.loading o hphase
    obtain ⟨hexclusive, hthreads, hnext, hloading, hclean, hinserting⟩ :=
      h.toExclusive.finishInsertion ho res
    cases hstep
    refine Held.goes hexclusive (fun t' hne => ?_) ?_ (fun t₁ t₂ o' r r' _ _ => ?_) ?_
    · rw [hthreads]
      have hold := h.phases t'
      cases hthread' : s.threads t' with
      | waiting o' =>
        rw [hthread'] at hold
        show o'.id < _ ∧ (_ = false → o' ∈ _)
        rw [hnext, hclean, hinserting]
        refine ⟨hold.1, fun hfalse => ?_⟩
        have hid : o'.id ≠ o.id := by
          intro hid
          rw [hid, Function.update_self] at hfalse
          cases hfalse
        rw [Function.update_of_ne hid] at hfalse
        have hin := hold.2 hfalse
        refine List.mem_filter.mpr ⟨hin, ?_⟩
        simpa using fun hkey => hid (congrArg Insertion.id (h.key_inj hin ho hkey))
      | loaded o' r =>
        rw [hthread'] at hold
        show o' ∈ _
        rw [hloading]
        refine (h.nodup.mem_erase_iff).mpr ⟨?_, hold⟩
        rintro rfl
        exact hne (h.alone t' thread _ _ _ hthread' hthread)
      | idle => trivial
      | copying key buffer => trivial
      | updating o' beginPos bytes => trivial
    · rw [finishPhase]
      split <;> trivial
    · rw [hthreads]
      exact h.alone t₁ t₂ o' r r'
    · intro o' r heq
      rw [finishPhase] at heq
      split at heq <;> cases heq
  · cases hstep

/-- **Every step** that meets the condition. -/
theorem Held.step {blocks : ℕ → Bytes} {cellSize : ℕ} (op : SharedOp) (s s' : LRUShared)
    (h : Held s) (hguard : NotFailed op s)
    (hstep : LRUShared.step blocks cellSize op s = some s') : Held s' := by
  cases op with
  | look thread key => exact h.look hstep
  | load thread junk => exact h.load hguard hstep
  | finish thread => exact h.finish hstep
  | copy thread offset len =>
    rw [LRUShared.step] at hstep
    split at hstep
    · cases hstep
      refine (h.ofExclusive (h.toExclusive.frame s.sizes s.mem s.threads _)).moves trivial ?_
      exact fun o res heq => by cases heq
    · cases hstep
  | update thread key beginPos bytes =>
    rw [LRUShared.step] at hstep
    split at hstep
    · split at hstep
      · cases hstep
        exact h.patchCell key beginPos bytes
      · cases hstep
        exact h.moves trivial fun o res heq => by cases heq
    · cases hstep
  | patch thread =>
    rw [LRUShared.step] at hstep
    split at hstep
    · split at hstep
      · cases hstep
      · cases hstep
        exact (h.patchCell _ _ _).moves trivial fun o res heq => by cases heq
    · cases hstep
  | evict key =>
    rw [LRUShared.step] at hstep
    split at hstep
    · cases hstep
      exact h
    · rename_i c hc
      cases hstep
      exact h.ofExclusive (h.toExclusive.evict (findCell_eq_some hc).1)
  | alterCacheSize cacheSize =>
    cases hstep
    have hsizes := h.toExclusive.frame (LRUSizes.ofCacheSize cacheSize cellSize) s.mem s.threads s.copied
    obtain ⟨num, hevict⟩ := evictOverflow_eq { s with sizes := LRUSizes.ofCacheSize cacheSize cellSize }
    rw [hevict]
    exact h.ofExclusive ((hsizes.evictFirst num).setMaxBufferNum _)

/-- **A buffer has one owner** in every state of a run in which no thread goes on with a failed
`InsertInfo`. -/
theorem oneOwner_always (blocks : ℕ → Bytes) (cellSize : ℕ) (z : LRUSizes) {ops : List SharedOp}
    (hguard : EachStep (step blocks cellSize) NotFailed ops (create z)) :
    Always (step blocks cellSize) OneOwner ops (create z) :=
  (always_of_guard (fun op s s' => Held.step op s s') (held_create z) hguard).imp
    fun _ h => h.toExclusive.oneOwner

/-! ### Two threads and one block -/

/-- The load of the first thread fails, and the second thread waits for it. -/
def failedLoad : List SharedOp :=
  [.look 0 7, .look 1 7, .load 0 (some []), .finish 0, .load 1 none]

/-- The second thread loads into a buffer that is in the pool. -/
theorem twoOwners : ¬ ∀ (z : LRUSizes) (ops : List SharedOp),
    Always (step (fun _ => []) 65536) OneOwner ops (create z) := by
  intro h
  have hlast := (h ⟨19, 1⟩ failedLoad).last rfl
  exact absurd (hlast 0 (by decide)) (by decide)

/-- Two threads load one block, and the second returns the buffer of the first. -/
theorem oneOwner_shared : Always (step (fun _ => []) 65536) OneOwner
    [.look 0 7, .look 1 7, .load 0 none, .finish 0, .load 1 none, .evict 7] (create ⟨19, 1⟩) :=
  oneOwner_always _ _ _ (.cons rfl trivial (.cons rfl trivial
    (.cons rfl (fun o h hclean => by cases h; cases hclean)
      (.cons rfl trivial (.cons rfl (fun o h _ => by cases h; rfl) (.cons rfl trivial trivial))))))

end LRUShared

end AwaDB
