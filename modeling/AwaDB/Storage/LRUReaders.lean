import AwaDB.Storage.LRUOneOwner

/-!
# A reader copies its own block (`Block::Read` in `storage/block.cc`)

`SetOrGet` returns a pointer to the bytes of a cell, and the reader copies from it when the lock is
released. The cell may be evicted before, and its buffer used again.

* `copies_always`: readers copy bytes of the blocks they ask for as long as no buffer is loaded or
  deleted while a thread that has it is still to copy from it;
* `copies_other`: a reader copies the bytes of a block that another reader has loaded.
-/

namespace AwaDB

open Lib

/-- The steps of readers, and of the calls that take buffers away. -/
def SharedOp.Reads : SharedOp → Prop
  | .update _ _ _ _ => False
  | .patch _ => False
  | _ => True

namespace LRUShared

variable {blocks : ℕ → Bytes} {cellSize : ℕ} {s : LRUShared}

variable (blocks) in
/-- The bytes that were copied are bytes of the blocks. -/
def CopiesOwn (s : LRUShared) : Prop :=
  ∀ r ∈ s.copied, r.bytes = some (((blocks r.key).drop r.offset).take r.len)

/-- A thread in this phase has the buffer, and will copy from it what is loaded there. -/
def HasBuffer (s : LRUShared) (buffer : ℕ) : ThreadPhase → Prop
  | .copying _ buffer' => buffer' = buffer
  | .waiting o => s.product o.id = true ∧ o.buffer = buffer
  | _ => False

/-- No buffer is loaded while a thread has it, and none is deleted. -/
def Undisturbed : SharedOp → LRUShared → Prop
  | .load thread junk, s => NotFailed (.load thread junk) s ∧
      ∀ o, s.threads thread = .waiting o → s.product o.id = false →
        ∀ t, ¬ s.HasBuffer o.buffer (s.threads t)
  | .copy thread _ _, s => ∀ key buffer, s.threads thread = .copying key buffer →
      buffer ∉ s.pool.deleted
  | _, _ => True

theorem Undisturbed.notFailed {op : SharedOp} (h : Undisturbed op s) : NotFailed op s := by
  cases op with
  | load thread junk => exact h.1
  | _ => trivial

variable (blocks) in
/-- What a thread in a phase knows about its buffer. -/
def PhaseLoaded (s : LRUShared) : ThreadPhase → Prop
  | .waiting o => s.product o.id = true → s.mem o.buffer = blocks o.key
  | .loaded o res => res = true → s.mem o.buffer = blocks o.key
  | .copying key buffer => s.mem buffer = blocks key
  | _ => True

variable (blocks) in
/-- The blocks in the cells, those that are loaded, and those that threads have are the blocks of the
file. -/
structure Loaded (s : LRUShared) : Prop extends Held s where
  cells : ∀ e ∈ cellEntries s.cells, s.mem e.2 = blocks e.1
  inserted : ∀ o ∈ s.inserting, s.product o.id = true → s.mem o.buffer = blocks o.key
  threads : ∀ t, s.PhaseLoaded blocks (s.threads t)
  copies : s.CopiesOwn blocks

theorem loaded_create (z : LRUSizes) : Loaded blocks (create z) where
  toHeld := held_create z
  cells _ he := absurd he List.not_mem_nil
  inserted _ ho := absurd ho List.not_mem_nil
  threads _ := trivial
  copies _ hr := absurd hr List.not_mem_nil

/-! ### Buffers that differ -/

theorem Exclusive.cell_ne (h : Exclusive s) {e : ℕ × ℕ} (he : e ∈ cellEntries s.cells) {o : Insertion}
    (ho : o ∈ s.inserting) : e.2 ≠ o.buffer := by
  intro heq
  obtain ⟨c, hc, rfl⟩ := List.mem_map.mp he
  have hcell := List.count_pos_iff.mpr (List.mem_map_of_mem (f := LRUCell.buffer) hc)
  have hinfo := List.count_pos_iff.mpr (List.mem_map_of_mem (f := Insertion.buffer) ho)
  replace heq : c.buffer = o.buffer := heq
  have hcount := h.buffers c.buffer
  rw [← heq] at hinfo
  split at hcount <;> omega

theorem Exclusive.insertion_inj (h : Exclusive s) {o o' : Insertion} (ho : o ∈ s.inserting)
    (ho' : o' ∈ s.inserting) (heq : o.buffer = o'.buffer) : o = o' := by
  have hnodup : (s.inserting.map Insertion.buffer).Nodup := by
    refine List.nodup_iff_count_le_one.mpr fun x => ?_
    have hcount := h.buffers x
    split at hcount <;> omega
  exact List.inj_on_of_nodup_map hnodup ho ho' heq

/-- An `InsertInfo` that a thread waits for has another number than one of the table, or is that. -/
theorem Held.waiting_eq (h : Held s) {t : ℕ} {o o' : Insertion} (ht : s.threads t = .waiting o')
    (ho : o ∈ s.inserting) (hid : o'.id = o.id) : o' = o := by
  have hphase := h.phases t
  rw [ht] at hphase
  have hclean : s.clean o'.id = false := by
    rw [hid]
    exact (h.opened o ho).2
  exact h.id_inj (hphase.2 hclean) ho hid

/-! ### Steps -/

/-- A thread goes to a phase. -/
theorem Loaded.goes {t : ℕ} {phase : ThreadPhase} (hheld : Held (s.goes t phase))
    (hcells : ∀ e ∈ cellEntries s.cells, s.mem e.2 = blocks e.1)
    (hinserted : ∀ o ∈ s.inserting, s.product o.id = true → s.mem o.buffer = blocks o.key)
    (hothers : ∀ t', t' ≠ t → s.PhaseLoaded blocks (s.threads t'))
    (hphase : s.PhaseLoaded blocks phase) (hcopies : s.CopiesOwn blocks) :
    Loaded blocks (s.goes t phase) := by
  refine ⟨hheld, hcells, hinserted, fun t' => ?_, hcopies⟩
  show PhaseLoaded blocks s (Function.update s.threads t phase t')
  by_cases heq : t' = t
  · rw [heq, Function.update_self]
    exact hphase
  · rw [Function.update_of_ne heq]
    exact hothers t' heq

theorem Loaded.look {s' : LRUShared} (h : Loaded blocks s) {thread key : ℕ}
    (hstep : step blocks cellSize (.look thread key) s = some s') : Loaded blocks s' := by
  have hheld := h.toHeld.look hstep
  rw [step] at hstep
  split at hstep
  · split at hstep
    · rename_i c hc
      cases hstep
      obtain ⟨hcell, hkey⟩ := findCell_eq_some hc
      refine Loaded.goes hheld (fun e he => ?_) h.inserted (fun t' _ => h.threads t') ?_ h.copies
      · exact h.cells e ((hitCell_perm hcell).mem_iff.mp he)
      · rw [← hkey]
        exact h.cells (c.key, c.buffer) (List.mem_map_of_mem hcell)
    · split at hstep
      · rename_i o ho
        cases hstep
        exact Loaded.goes hheld h.cells h.inserted (fun t' _ => h.threads t')
          (h.inserted o (findInsertion_eq_some ho).1) h.copies
      · cases hstep
        have hnew := (h.unused s.nextId (Nat.le_refl _)).1
        refine Loaded.goes hheld h.cells (fun o ho hproduct => ?_) (fun t' _ => h.threads t') ?_
          h.copies
        · cases List.mem_append.mp ho with
          | inl ho => exact h.inserted o ho hproduct
          | inr ho =>
            rw [List.mem_singleton.mp ho, hnew] at hproduct
            cases hproduct
        · intro hproduct
          rw [hnew] at hproduct
          cases hproduct
  · cases hstep

/-- **A load** fills the buffer of its own `InsertInfo`, which nobody else has. -/
theorem Loaded.load {s' : LRUShared} (h : Loaded blocks s) {thread : ℕ} {junk : Option Bytes}
    (hguard : Undisturbed (.load thread junk) s)
    (hstep : step blocks cellSize (.load thread junk) s = some s') : Loaded blocks s' := by
  have hheld := h.toHeld.load hguard.1 hstep
  rw [step] at hstep
  split at hstep
  · rename_i o hthread
    split at hstep
    · cases hstep
    · rename_i hfree
      split at hstep
      · rename_i hproduct
        cases hstep
        have hphase := h.threads thread
        rw [hthread] at hphase
        exact Loaded.goes hheld h.cells h.inserted (fun t' _ => h.threads t') (hphase hproduct) h.copies
      · rename_i hproduct
        cases hstep
        replace hproduct := Bool.eq_false_iff.mpr hproduct
        have hphase := h.phases thread
        rw [hthread] at hphase
        have hclean : s.clean o.id = false := by
          cases hclean : s.clean o.id with
          | false => rfl
          | true =>
            rw [hguard.1 o hthread hclean] at hproduct
            cases hproduct
        have ho := hphase.2 hclean
        have hnobody := hguard.2 o hthread hproduct
        have hmem : ∀ buffer, buffer ≠ o.buffer →
            Function.update s.mem o.buffer (junk.getD (blocks o.key)) buffer = s.mem buffer :=
          fun buffer hne => Function.update_of_ne hne ..
        have hself : junk.isNone = true →
            Function.update s.mem o.buffer (junk.getD (blocks o.key)) o.buffer = blocks o.key := by
          intro hnone
          rw [Function.update_self, Option.isNone_iff_eq_none.mp hnone, Option.getD_none]
        refine Loaded.goes hheld (fun e he => ?_) (fun o' ho' hloaded => ?_) (fun t' _ => ?_) hself
          h.copies
        · exact (hmem e.2 (h.cell_ne he ho)).trans (h.cells e he)
        · replace hloaded : Function.update s.product o.id junk.isNone o'.id = true := hloaded
          by_cases heq : o' = o
          · rw [heq, Function.update_self] at hloaded
            rw [heq]
            exact hself hloaded
          · have hid : o'.id ≠ o.id := fun hid => heq (h.id_inj ho' ho hid)
            rw [Function.update_of_ne hid] at hloaded
            have hbuffer : o'.buffer ≠ o.buffer := fun hb => heq (h.insertion_inj ho' ho hb)
            exact (hmem o'.buffer hbuffer).trans (h.inserted o' ho' hloaded)
        · have hold := h.threads t'
          have hother := hnobody t'
          dsimp only
          cases hthread' : s.threads t' with
          | waiting o' =>
            rw [hthread'] at hold hother
            show Function.update s.product o.id junk.isNone o'.id = true → _
            intro hloaded
            by_cases hid : o'.id = o.id
            · have heq := h.toHeld.waiting_eq hthread' ho hid
              rw [heq, Function.update_self] at hloaded
              rw [heq]
              exact hself hloaded
            · rw [Function.update_of_ne hid] at hloaded
              exact (hmem o'.buffer fun hb => hother ⟨hloaded, hb⟩).trans (hold hloaded)
          | loaded o' res =>
            rw [hthread'] at hold
            intro hres
            have hphase' := h.phases t'
            rw [hthread'] at hphase'
            have hbuffer : o'.buffer ≠ o.buffer := by
              intro hb
              have heq := h.insertion_inj (h.loading o' hphase') ho hb
              rw [heq] at hphase'
              exact hfree hphase'
            exact (hmem o'.buffer hbuffer).trans (hold hres)
          | copying key buffer =>
            rw [hthread'] at hold hother
            exact (hmem buffer hother).trans hold
          | idle => trivial
          | updating o' beginPos bytes => trivial
  · cases hstep

theorem Loaded.finish {s' : LRUShared} (h : Loaded blocks s) {thread : ℕ}
    (hstep : step blocks cellSize (.finish thread) s = some s') : Loaded blocks s' := by
  have hheld := h.toHeld.finish hstep
  rw [step] at hstep
  split at hstep
  · rename_i o res hthread
    cases hstep
    have hphase := h.phases thread
    have hloaded := h.threads thread
    rw [hthread] at hphase hloaded
    have ho := h.loading o hphase
    obtain ⟨cells, pool, heq, -, -, hsub, hfailed⟩ := h.toExclusive.finishInsertion_eq ho res
    have hstays : (s.finishInsertion o res).mem = s.mem := by rw [heq]
    rw [heq] at hheld ⊢
    refine Loaded.goes hheld (fun e he => ?_) (fun o' ho' => h.inserted o' (List.mem_filter.mp ho').1)
      (fun t' _ => h.threads t') ?_ h.copies
    · obtain ⟨c, hc, rfl⟩ := List.mem_map.mp he
      by_cases hres : res = true
      · cases List.mem_append.mp (hsub.subset hc) with
        | inl hc => exact h.cells (c.key, c.buffer) (List.mem_map_of_mem hc)
        | inr hc =>
          rw [List.mem_singleton.mp hc]
          exact hloaded hres
      · rw [hfailed hres] at hc
        exact h.cells (c.key, c.buffer) (List.mem_map_of_mem hc)
    · rw [finishPhase]
      split
      · rename_i hcond
        exact hloaded hcond.1
      · trivial
  · cases hstep

/-- Cells go, and their buffers go to the pool. -/
theorem Loaded.dropCells (h : Loaded blocks s) {sizes : LRUSizes} {pool : BufferPool}
    {cells : List LRUCell} (hheld : Held { s with sizes, pool, cells })
    (hsub : cells.Sublist s.cells) : Loaded blocks { s with sizes, pool, cells } :=
  ⟨hheld, fun e he => h.cells e ((hsub.map _).subset he), h.inserted, h.threads, h.copies⟩

/-- **Every step** of the readers that meets the condition. -/
theorem Loaded.step (op : SharedOp) (s s' : LRUShared) (h : Loaded blocks s)
    (hguard : op.Reads ∧ Undisturbed op s)
    (hstep : LRUShared.step blocks cellSize op s = some s') : Loaded blocks s' := by
  have hheld := Held.step op s s' h.toHeld hguard.2.notFailed hstep
  cases op with
  | look thread key => exact h.look hstep
  | load thread junk => exact h.load hguard.2 hstep
  | finish thread => exact h.finish hstep
  | copy thread offset len =>
    rw [LRUShared.step] at hstep
    split at hstep
    · rename_i key buffer hthread
      cases hstep
      refine Loaded.goes hheld h.cells h.inserted (fun t' _ => h.threads t') trivial fun r hr => ?_
      cases List.mem_append.mp hr with
      | inl hr => exact h.copies r hr
      | inr hr =>
        have hkept : buffer ∉ s.pool.deleted := hguard.2 key buffer hthread
        have hphase := h.threads thread
        rw [hthread] at hphase
        rw [List.mem_singleton.mp hr]
        show (if buffer ∈ s.pool.deleted then none else _) = _
        rw [if_neg hkept, hphase]
    · cases hstep
  | update thread key beginPos bytes => exact hguard.1.elim
  | patch thread => exact hguard.1.elim
  | evict key =>
    rw [LRUShared.step] at hstep
    split at hstep
    · cases hstep
      exact h
    · cases hstep
      exact h.dropCells hheld List.erase_sublist
  | alterCacheSize cacheSize =>
    cases hstep
    obtain ⟨num, hevict⟩ := evictOverflow_eq { s with sizes := LRUSizes.ofCacheSize cacheSize cellSize }
    rw [hevict] at hheld ⊢
    exact h.dropCells hheld (List.drop_sublist num s.cells)

/-- **A reader copies its own block** in every state of a run of readers in which no buffer is loaded
or deleted while a thread has it. -/
theorem copies_always (blocks : ℕ → Bytes) (cellSize : ℕ) (z : LRUSizes) {ops : List SharedOp}
    (hreads : ∀ op ∈ ops, op.Reads)
    (hguard : EachStep (step blocks cellSize) Undisturbed ops (create z)) :
    Always (step blocks cellSize) (CopiesOwn blocks) ops (create z) :=
  (always_of_guard (fun op s s' => Loaded.step op s s') (loaded_create z)
    (hguard.and_mem hreads)).imp fun _ h => h.copies

/-- Two readers copy one block. -/
theorem copies_shared : Always (step (fun key => [key.toUInt8]) 65536)
    (CopiesOwn fun key => [key.toUInt8])
    [.look 0 7, .load 0 none, .finish 0, .look 1 7, .copy 1 0 1, .copy 0 0 1]
    (create (LRUSizes.ofCacheSize 1 65536)) := by
  refine copies_always _ _ _ (by simp [SharedOp.Reads]) (.cons rfl trivial (.cons rfl ?_
    (.cons rfl trivial (.cons rfl trivial (.cons rfl ?_ (.cons rfl ?_ trivial))))))
  · refine ⟨?_, fun o h hproduct t hhas => ?_⟩
    · intro o h hclean
      cases h
      cases hclean
    · cases h
      by_cases ht : t = 0
      · subst ht
        cases hhas.1
      · simp [goes, create, HasBuffer, ht] at hhas
  · intro key buffer h
    cases h
    decide
  · intro key buffer h
    cases h
    decide

/-! ### A slow reader -/

/-- A thread reads a block. -/
def readsBlock (thread key : ℕ) : List SharedOp :=
  [.look thread key, .load thread none, .finish thread, .copy thread 0 1]

/-- Thread 0 has the cell of a block when thread 1 reads seventeen others. -/
def slowReader : List SharedOp :=
  [.look 0 0, .load 0 none, .finish 0] ++ (List.range' 1 17).flatMap (readsBlock 1) ++ [.copy 0 0 1]

instance (blocks : ℕ → Bytes) (s : LRUShared) : Decidable (s.CopiesOwn blocks) :=
  inferInstanceAs (Decidable (∀ r ∈ s.copied, _))

/-- A reader copies a block that another reader has loaded. -/
theorem copies_other : ¬ ∀ (blocks : ℕ → Bytes) (z : LRUSizes) (ops : List SharedOp),
    (∀ op ∈ ops, op.Reads) → Always (step blocks 65536) (CopiesOwn blocks) ops (create z) := by
  intro h
  have hreads : ∀ op ∈ slowReader, op.Reads := by
    intro op hop
    cases op with
    | update thread key beginPos bytes => simp [slowReader, readsBlock] at hop
    | patch thread => simp [slowReader, readsBlock] at hop
    | _ => trivial
  have hlast := h (fun key => [key.toUInt8]) (LRUSizes.ofCacheSize 1 65536) slowReader hreads
  have hother : (runOps (step (fun key => [key.toUInt8]) 65536) slowReader
      (create (LRUSizes.ofCacheSize 1 65536))).any
        (fun s => ¬ s.CopiesOwn fun key => [key.toUInt8]) = true := by
    decide +kernel
  obtain ⟨s, hrun, hnot⟩ := (Option.any_eq_true _ _).mp hother
  exact of_decide_eq_true hnot (hlast.last hrun)

end LRUShared

end AwaDB
