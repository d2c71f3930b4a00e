import AwaDB.Storage.LRUOwned

/-!
# The block cache is coherent

* `lru_always`: once the writer has finished, the cached blocks are those of the file, in every run;
  and a call of `SetOrGet` returns the bytes of the file, in every run in which no reader that waits
  for the load of another returns the buffer after the block was evicted.
-/

namespace AwaDB

open Lib

namespace LRUCache

variable {b : BlockSize} {z : LRUSizes} {s s' : LRUCache}

variable (b) in
/-- Once the writer has finished, the cached blocks are those of the file. -/
def Coherent (s : LRUCache) : Prop :=
  s.pending = [] → ∀ c ∈ s.cells, s.mem c.buffer = blockOf b s.file c.key

/-- The calls of `SetOrGet` have returned the bytes of the file. -/
def ReturnsWritten (s : LRUCache) : Prop := ∀ r ∈ s.returned, r.got = r.inFile

/-- A reader that has waited for the load of another gets the lock before the block is evicted. -/
def NotEvicted : LRUOp → LRUCache → Prop
  | .lock reader, s => ∀ i, s.readers reader = .waiting i → (s.infos i).isProduct = true →
      (s.infos i).locked = false → ((s.infos i).key, (s.infos i).buffer) ∈ cellEntries s.cells
  | _, _ => True

variable (b) in
/-- The blocks in the cells, and those that are loaded and not inserted, are those of the file, but
for the calls of `Update` that are still to be made. Where `Update` waits for an `InsertInfo`, a block
that was loaded for another one was loaded after the write. -/
structure Synced (s : LRUCache) : Prop where
  cells : ∀ e ∈ cellEntries s.cells, applyPieces s.pending e.1 (s.mem e.2) = blockOf b s.file e.1
  loaded : ∀ i ∈ s.inserting, (s.infos i).isProduct = true →
    applyPieces s.pending (s.infos i).key (s.mem (s.infos i).buffer) =
      blockOf b s.file (s.infos i).key
  fresh : ∀ w p rest, s.found = some w → s.pending = p :: rest → ∀ i ∈ s.inserting,
    (s.infos i).isProduct = true → (s.infos i).key = p.blockId → i ≠ w →
      s.mem (s.infos i).buffer = blockOf b s.file (s.infos i).key
  written : ∀ p ∈ s.pending,
    patch (blockOf b s.file p.blockId) p.blockOffset p.bytes = blockOf b s.file p.blockId
  found : s.pending = [] → s.found = none

theorem synced_create (file : File) : Synced b (create z file) where
  cells e he := absurd he List.not_mem_nil
  loaded i hi := absurd hi List.not_mem_nil
  fresh w p rest h := by cases h
  written p hp := absurd hp List.not_mem_nil
  found _ := rfl

theorem Synced.coherent (h : Synced b s) : Coherent b s := by
  intro hdone c hc
  have hcell := h.cells (c.key, c.buffer) (List.mem_map_of_mem hc)
  rw [hdone] at hcell
  exact hcell

/-- Readers and results do not matter. -/
theorem Synced.frame (h : Synced b s) {readers : ℕ → LRUPhase} {returned : List Returned} :
    Synced b { s with readers, returned } :=
  ⟨h.cells, h.loaded, h.fresh, h.written, h.found⟩

theorem Synced.hit (h : Synced b s) {c : LRUCell} (hc : c ∈ s.cells) :
    Synced b { s with cells := hitCell c s.cells } :=
  ⟨fun e he => h.cells e ((hitCell_perm hc).mem_iff.mp he), h.loaded, h.fresh, h.written, h.found⟩

theorem Synced.newInfo (h : Synced b s) (howned : Owned s) (key : ℕ) :
    Synced b (newInfo key s) := by
  have hcases : ∀ i ∈ (LRUCache.newInfo key s).inserting,
      ((LRUCache.newInfo key s).infos i).isProduct = true →
        i ∈ s.inserting ∧ (LRUCache.newInfo key s).infos i = s.infos i := by
    intro i hi hproduct
    obtain hi | hi := List.mem_append.mp hi
    · exact ⟨hi, infos_old (howned.opened i hi).1⟩
    · have hnew : (Function.update s.infos s.nextInfo _ i).isProduct = true := hproduct
      rw [List.mem_singleton.mp hi, Function.update_self] at hnew
      cases hnew
  refine ⟨h.cells, fun i hi hproduct => ?_, fun w p rest hfound hpending i hi hproduct => ?_,
    h.written, h.found⟩
  · obtain ⟨hi, hold⟩ := hcases i hi hproduct
    rw [hold] at hproduct ⊢
    exact h.loaded i hi hproduct
  · obtain ⟨hi, hold⟩ := hcases i hi hproduct
    rw [hold] at hproduct ⊢
    exact h.fresh w p rest hfound hpending i hi hproduct

/-- A reader loads a block: it is that of the file. -/
theorem Synced.load (h : Synced b s) (howned : Owned s) {i : ℕ} (hi : i ∈ s.inserting) :
    Synced b { s with
      mem := Function.update s.mem (s.infos i).buffer (blockOf b s.file (s.infos i).key)
      infos := Function.update s.infos i { s.infos i with isProduct := true, locked := true } } := by
  have hother : ∀ j ∈ s.inserting, j ≠ i →
      Function.update s.mem (s.infos i).buffer (blockOf b s.file (s.infos i).key) (s.infos j).buffer =
        s.mem (s.infos j).buffer :=
    fun j hj hne => Function.update_of_ne (fun hbuffer => hne (howned.info_inj hj hi hbuffer)) ..
  refine ⟨fun e he => ?_, fun j hj hproduct => ?_,
    fun w p rest hfound hpending j hj hproduct hkey hne => ?_,
    h.written, h.found⟩
  · show applyPieces s.pending e.1 (Function.update s.mem _ _ e.2) = blockOf b s.file e.1
    rw [Function.update_of_ne (howned.entry_ne he hi)]
    exact h.cells e he
  · by_cases heq : j = i
    · subst heq
      simp only [Function.update_self]
      exact applyPieces_blockOf h.written
    · simp only [Function.update_of_ne heq] at hproduct ⊢
      rw [hother j hj heq]
      exact h.loaded j hj hproduct
  · by_cases heq : j = i
    · subst heq
      simp only [Function.update_self]
    · simp only [Function.update_of_ne heq] at hproduct hkey ⊢
      rw [hother j hj heq]
      exact h.fresh w p rest hfound hpending j hj hproduct hkey hne

theorem Synced.insert (h : Synced b s) (howned : Owned s) {i : ℕ} (hi : i ∈ s.inserting)
    (hproduct : (s.infos i).isProduct = true) : Synced b (insertInfo z i s) := by
  rw [howned.insertInfo_eq hi]
  obtain ⟨hsub, -⟩ := setCell_spec z s.pool (s.infos i).buffer 0 (howned.apart i hi)
  have hinfo : ∀ j, (Function.update s.infos i
      { s.infos i with isClean := true, locked := false } j).isProduct = (s.infos j).isProduct := by
    intro j
    by_cases heq : j = i
    · rw [heq, Function.update_self]
    · rw [Function.update_of_ne heq]
  have hbuffer := fun j => buffer_update i
    { s.infos i with isClean := true, locked := false } rfl j
  have hkey := fun j => key_update i
    { s.infos i with isClean := true, locked := false } rfl j
  refine ⟨fun e he => ?_, fun j hj hloaded => ?_, fun w p rest hfound hpending j hj hloaded hsame hne => ?_,
    h.written, h.found⟩
  · obtain he | he := List.mem_append.mp (hsub.subset he)
    · exact h.cells e he
    · rw [List.mem_singleton.mp he]
      exact h.loaded i hi hproduct
  · simp only [hinfo, hbuffer, hkey] at hloaded ⊢
    exact h.loaded j (List.mem_filter.mp hj).1 hloaded
  · simp only [hinfo, hbuffer, hkey] at hloaded hsame ⊢
    exact h.fresh w p rest hfound hpending j (List.mem_filter.mp hj).1 hloaded hsame hne

theorem Synced.write (h : Synced b s) {start : ℕ} {value : Bytes} (hdone : s.pending = []) :
    Synced b { s with
      file := s.file.pwrite (segHeaderSize + start) value
      pending := updates b start value } := by
  refine ⟨fun e he => ?_, fun i hi hproduct => ?_, fun w p rest hfound => ?_,
    fun p hp => patch_blockOf hp, fun _ => h.found hdone⟩
  · have hcell := h.cells e he
    rw [hdone, applyPieces_nil] at hcell
    show applyPieces _ e.1 (s.mem e.2) = blockOf b (s.file.pwrite _ value) e.1
    rw [hcell, blockOf_pwrite]
  · have hloaded := h.loaded i hi hproduct
    rw [hdone, applyPieces_nil] at hloaded
    show applyPieces _ (s.infos i).key (s.mem _) = blockOf b (s.file.pwrite _ value) (s.infos i).key
    rw [hloaded, blockOf_pwrite]
  · rw [h.found hdone] at hfound
    cases hfound

/-! ### `Update` -/

theorem patchCell_entry (howned : Owned s) (p : Piece) {e : ℕ × ℕ} (he : e ∈ cellEntries s.cells) :
    (patchCell p s).mem e.2 =
      if p.blockId = e.1 then patch (s.mem e.2) p.blockOffset p.bytes else s.mem e.2 := by
  rw [patchCell]
  cases hfind : findCell p.blockId s.cells with
  | none => rw [if_neg (findCell_eq_none.mp hfind e he).symm]
  | some c =>
    obtain ⟨hc, hkey⟩ := findCell_eq_some hfind
    have hcell : (c.key, c.buffer) ∈ cellEntries s.cells := List.mem_map_of_mem hc
    show Function.update s.mem c.buffer _ e.2 = _
    split
    next hsame =>
      have hentry : (c.key, c.buffer) = e :=
        List.inj_on_of_nodup_map howned.keys hcell he (hkey.trans hsame)
      rw [← hentry, Function.update_self]
    next hother =>
      refine Function.update_of_ne (fun hbuffer => hother ?_) ..
      rw [howned.entry_inj he hcell hbuffer]
      exact hkey.symm

theorem patchCell_info (howned : Owned s) (p : Piece) {i : ℕ} (hi : i ∈ s.inserting) :
    (patchCell p s).mem (s.infos i).buffer = s.mem (s.infos i).buffer := by
  rw [patchCell]
  cases hfind : findCell p.blockId s.cells with
  | none => rfl
  | some c =>
    have hcell : (c.key, c.buffer) ∈ cellEntries s.cells :=
      List.mem_map_of_mem (findCell_eq_some hfind).1
    exact Function.update_of_ne (howned.entry_ne hcell hi).symm ..

/-- `Update` changes bytes only. -/
theorem patchCell_eq (p : Piece) : patchCell p s = { s with mem := (patchCell p s).mem } := by
  rw [patchCell]
  split <;> rfl

/-- A call of `Update` is done: no block of the key is loaded, or it was loaded after the write. -/
theorem Synced.patch (h : Synced b s) (howned : Owned s) {p : Piece} {pending : List Piece}
    (hpending : s.pending = p :: pending)
    (hfresh : ∀ i ∈ s.inserting, (s.infos i).isProduct = true → (s.infos i).key = p.blockId →
      s.mem (s.infos i).buffer = blockOf b s.file (s.infos i).key) :
    Synced b { patchCell p s with pending := pending, found := none } := by
  have hwritten : ∀ q ∈ pending,
      Lib.patch (blockOf b s.file q.blockId) q.blockOffset q.bytes = blockOf b s.file q.blockId :=
    fun q hq => h.written q (hpending ▸ List.mem_cons_of_mem _ hq)
  rw [patchCell_eq]
  refine ⟨fun e he => ?_, fun i hi hproduct => ?_, fun w q rest hfound => ?_, hwritten,
    fun _ => rfl⟩
  · have hcell := h.cells e he
    rw [hpending, applyPieces_cons] at hcell
    show applyPieces pending e.1 ((patchCell p s).mem e.2) = blockOf b s.file e.1
    rw [patchCell_entry howned p he]
    exact hcell
  · show applyPieces pending (s.infos i).key ((patchCell p s).mem (s.infos i).buffer) =
      blockOf b s.file (s.infos i).key
    rw [patchCell_info howned p hi]
    by_cases hkey : (s.infos i).key = p.blockId
    · rw [hfresh i hi hproduct hkey]
      exact applyPieces_blockOf hwritten
    · have hloaded := h.loaded i hi hproduct
      rw [hpending, applyPieces_cons, if_neg (Ne.symm hkey)] at hloaded
      exact hloaded
  · cases hfound

/-- `Update` finds an `InsertInfo`, the only one of its key. -/
theorem Synced.find (h : Synced b s) (howned : Owned s) {p : Piece} {pending : List Piece} {i : ℕ}
    (hpending : s.pending = p :: pending) (hfind : s.findInfo p.blockId = some i) :
    Synced b { s with found := some i } := by
  obtain ⟨hi, hkey⟩ := findInfo_eq_some hfind
  refine ⟨h.cells, h.loaded, fun w q rest hfound hrest j hj hproduct hsame hne => ?_, h.written,
    fun hdone => ?_⟩
  · cases hfound
    have hq : p :: pending = q :: rest := hpending.symm.trans hrest
    cases hq
    exact absurd (howned.key_inj hj hi (hsame.trans hkey.symm)) hne
  · rw [show s.pending = [] from hdone] at hpending
    cases hpending

/-! ### Steps -/

/-- What `SetOrGet` returns. -/
theorem returns_spec (key buffer : ℕ) : ∃ returned, returns b key buffer s = { s with returned } ∧
    (ReturnsWritten s → (s.pending = [] → s.mem buffer = blockOf b s.file key) →
      ReturnsWritten { s with returned }) := by
  rw [returns]
  split
  next hdone =>
    refine ⟨_, rfl, fun h hbuffer r hr => ?_⟩
    obtain hr | hr := List.mem_append.mp hr
    · exact h r hr
    · rw [List.mem_singleton.mp hr]
      exact hbuffer hdone
  · exact ⟨s.returned, rfl, fun h _ => h⟩

/-- The invariant of every run. -/
structure Sound (b : BlockSize) (s : LRUCache) : Prop where
  owned : Owned s
  synced : Synced b s

/-- Results do not matter. -/
theorem Sound.returned (h : Sound b s) {returned : List Returned} :
    Sound b { s with returned := returned } :=
  ⟨h.owned.frame, h.synced.frame⟩

theorem Sound.look (h : Sound b s) {reader key : ℕ} (hs : step b z (.look reader key) s = some s') :
    Sound b s' ∧ (ReturnsWritten s → ReturnsWritten s') := by
  rw [step] at hs
  split at hs
  · split at hs
    next c hfind =>
      cases hs
      obtain ⟨hc, hkey⟩ := findCell_eq_some hfind
      have hhit : Sound b { s with cells := hitCell c s.cells } :=
        ⟨h.owned.hit hc, h.synced.hit hc⟩
      obtain ⟨returned, heq, hreturns⟩ :=
        returns_spec (b := b) (s := { s with cells := hitCell c s.cells }) key c.buffer
      rw [heq]
      refine ⟨hhit.returned, fun hold => hreturns hold fun hdone => ?_⟩
      rw [← hkey]
      exact h.synced.coherent hdone c hc
    next hcell =>
      split at hs
      next i hfind =>
        cases hs
        have hi := (h.owned.opened i (findInfo_eq_some hfind).1).1
        exact ⟨⟨h.owned.reader reader (fun j hj => by cases hj; exact hi) (fun j hj => by cases hj),
          h.synced.frame⟩, fun hold => hold⟩
      next hinfo =>
        cases hs
        have hnew := h.owned.newInfo hcell hinfo
        exact ⟨⟨hnew.reader reader (fun j hj => by cases hj; exact Nat.lt_succ_self _)
          (fun j hj => by cases hj), (h.synced.newInfo h.owned key).frame⟩, fun hold => hold⟩
  · cases hs

theorem Sound.lock (h : Sound b s) {reader : ℕ} (hs : step b z (.lock reader) s = some s') :
    Sound b s' ∧ (NotEvicted (.lock reader) s → ReturnsWritten s → ReturnsWritten s') := by
  rw [step] at hs
  split at hs
  next i hreader =>
    simp only at hs
    split at hs
    · cases hs
    next hlocked =>
      split at hs
      next hproduct =>
        cases hs
        have hidle : Sound b { s with readers := Function.update s.readers reader .idle } :=
          ⟨h.owned.reader reader (fun j hj => by cases hj) (fun j hj => by cases hj), h.synced.frame⟩
        obtain ⟨returned, heq, hreturns⟩ := returns_spec (b := b)
          (s := { s with readers := Function.update s.readers reader .idle })
          (s.infos i).key (s.infos i).buffer
        rw [heq]
        refine ⟨hidle.returned, fun hguard hold => hreturns hold fun hdone => ?_⟩
        have hcell := h.synced.cells _ (hguard i hreader hproduct (by simpa using hlocked))
        rw [show s.pending = [] from hdone] at hcell
        exact hcell
      next hproduct =>
        cases hs
        have hfalse : (s.infos i).isProduct = false := by simpa using hproduct
        have hi := h.owned.loading i (h.owned.waiting reader i hreader) hfalse
        exact ⟨⟨h.owned.load hreader hfalse, (h.synced.load h.owned hi).frame⟩, fun _ hold => hold⟩
  · cases hs

theorem Sound.insert (h : Sound b s) {reader : ℕ} (hs : step b z (.insert reader) s = some s') :
    Sound b s' ∧ (ReturnsWritten s → ReturnsWritten s') := by
  rw [step] at hs
  split at hs
  next i hreader =>
    cases hs
    obtain ⟨hi, hproduct⟩ := h.owned.producing reader i hreader
    have hidle : Sound b
        { insertInfo z i s with readers := Function.update s.readers reader .idle } :=
      ⟨h.owned.insert hreader, (h.synced.insert h.owned hi hproduct).frame⟩
    obtain ⟨returned, heq, hreturns⟩ := returns_spec (b := b)
      (s := { insertInfo z i s with readers := Function.update s.readers reader .idle })
      (s.infos i).key (s.infos i).buffer
    rw [heq]
    refine ⟨hidle.returned, fun hold => hreturns hold fun hdone => ?_⟩
    have hloaded := h.synced.loaded i hi hproduct
    rw [show s.pending = [] from hdone] at hloaded
    exact hloaded
  · cases hs

theorem Sound.update (h : Sound b s) (hs : step b z .update s = some s') :
    Sound b s' ∧ s'.returned = s.returned := by
  rw [step] at hs
  split at hs
  next p pending hpending hnone =>
    split at hs
    next hinfo =>
      cases hs
      have hpatch := h.synced.patch h.owned hpending
        fun i hi _ hkey => absurd hkey (findInfo_eq_none.mp hinfo i hi)
      rw [patchCell_eq] at hpatch ⊢
      rw [← hnone] at hpatch
      exact ⟨⟨h.owned.frame, hpatch⟩, rfl⟩
    next i hfind =>
      cases hs
      exact ⟨⟨h.owned.frame, h.synced.find h.owned hpending hfind⟩, rfl⟩
  · cases hs

theorem Sound.updateFound (h : Sound b s) (hs : step b z .updateFound s = some s') :
    Sound b s' ∧ s'.returned = s.returned := by
  rw [step] at hs
  split at hs
  next p pending w hpending hfound =>
    split at hs
    · cases hs
    next hlocked =>
      cases hs
      have hpatch := h.synced.patch h.owned hpending fun i hi hproduct hkey => by
        refine h.synced.fresh w p pending hfound hpending i hi hproduct hkey fun heq => hlocked ?_
        rw [← heq]
        exact (h.owned.opened i hi).2.2 hproduct
      rw [patchCell_eq] at hpatch ⊢
      exact ⟨⟨h.owned.frame, hpatch⟩, rfl⟩
  · cases hs

theorem Sound.write (h : Sound b s) {start : ℕ} {value : Bytes}
    (hs : step b z (.write start value) s = some s') : Sound b s' ∧ s'.returned = s.returned := by
  rw [step] at hs
  split at hs
  next hdone =>
    cases hs
    exact ⟨⟨h.owned.frame, h.synced.write hdone⟩, rfl⟩
  · cases hs

theorem Sound.step (h : Sound b s) {o : LRUOp} (hs : step b z o s = some s') :
    Sound b s' ∧ (NotEvicted o s → ReturnsWritten s → ReturnsWritten s') := by
  cases o with
  | look reader key => exact (h.look hs).imp_right fun hreturns _ => hreturns
  | lock reader => exact h.lock hs
  | insert reader => exact (h.insert hs).imp_right fun hreturns _ => hreturns
  | write start value =>
    obtain ⟨hsound, hreturned⟩ := h.write hs
    exact ⟨hsound, fun _ hold r hr => hold r (hreturned ▸ hr)⟩
  | update =>
    obtain ⟨hsound, hreturned⟩ := h.update hs
    exact ⟨hsound, fun _ hold r hr => hold r (hreturned ▸ hr)⟩
  | updateFound =>
    obtain ⟨hsound, hreturned⟩ := h.updateFound hs
    exact ⟨hsound, fun _ hold r hr => hold r (hreturned ▸ hr)⟩

theorem sound_create (file : File) : Sound b (create z file) :=
  ⟨owned_create file, synced_create file⟩

/-- **The cache is coherent** in every run, and `SetOrGet` returns the bytes of the file in every run
in which no block is evicted before the readers that wait for its load have got it. -/
theorem lru_always (b : BlockSize) (z : LRUSizes) (file : File) (ops : List LRUOp) :
    Lib.Always (step b z) (Coherent b) ops (create z file) ∧
    (Lib.EachStep (step b z) NotEvicted ops (create z file) →
      Lib.Always (step b z) ReturnsWritten ops (create z file)) := by
  constructor
  · exact (Lib.always_of_step (fun _ _ _ h hs => (Sound.step h hs).1) (sound_create file)).imp
      fun _ h => h.synced.coherent
  · intro h
    refine (Lib.always_of_guard (P := fun s => Sound b s ∧ ReturnsWritten s)
      (fun _ _ _ hold hguard hs => ?_)
      ⟨sound_create file, fun r hr => absurd hr List.not_mem_nil⟩ h).imp fun _ hs => hs.2
    obtain ⟨hsound, hreturns⟩ := hold.1.step hs
    exact ⟨hsound, hreturns hguard hold.2⟩

/-- Blocks of one byte, and a cache of one cell. A reader waits for the load of block 0; when it gets
the lock, the block is evicted and its buffer holds block 2. -/
theorem lru_evicted : ¬ ∀ (b : BlockSize) (z : LRUSizes) (file : File) (ops : List LRUOp),
    Lib.Always (step b z) (fun s => Coherent b s ∧ ReturnsWritten s) ops (create z file) := by
  intro h
  have hlast := (h ⟨1, Nat.one_pos⟩ ⟨1, 0⟩ (fun _ => none)
    [.write 0 [5, 6, 7], .update, .update, .update,
      .look 0 0, .look 1 0, .lock 0, .insert 0,
      .look 0 1, .lock 0, .insert 0,
      .look 0 2, .lock 0, .lock 1]).last rfl
  have hsame := hlast.2 ⟨0, [7], [5]⟩ (by decide)
  exact absurd hsame (by decide)

end LRUCache

end AwaDB
