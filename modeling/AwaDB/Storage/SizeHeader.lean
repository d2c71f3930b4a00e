import AwaDB.Storage.AsyncWriter
import AwaDB.Lib.Run

/-!
# The size header (`storage/segment.cc`)

The invariant of the writer is that the requests which are still to be written continue the segments
where the files end (`Stands`). It gives, over every run of the system:

* `batches_iff`: any cut of the queue into batches leaves what `SyncWrite` leaves, exactly if no
  batch of two requests has items that do not fit into the buffer;
* `header_always`: the items that a header counts were written, wherever the process stops.
-/

namespace AwaDB

open Lib

namespace AsyncWriter

variable {g : Geometry} {s s' : AsyncWriter} {n m : ℕ → ℕ} {runs qs : List WriterStruct}

/-! ### Files -/

variable (g) in
/-- All bytes of item `i` were written. -/
def ItemWritten (f : File) (i : ℕ) : Prop :=
  ∀ j, j < g.itemLength → (f (segHeaderSize + i * g.itemLength + j)).isSome

theorem ItemWritten.pwrite {f : File} {i off : ℕ} {bytes : Bytes} (h : ItemWritten g f i) :
    ItemWritten g (f.pwrite off bytes) i :=
  fun j hj => File.isSome_pwrite (h j hj)

/-- Items that are written stay so when one file is written to. -/
theorem ItemWritten.update {files : ℕ → File} {seg' i : ℕ} (h : ItemWritten g (files seg') i)
    (seg off : ℕ) (bytes : Bytes) :
    ItemWritten g (Function.update files seg ((files seg).pwrite off bytes) seg') i := by
  by_cases hseg : seg' = seg
  · subst hseg
    rw [Function.update_self]
    exact h.pwrite
  · rw [Function.update_of_ne hseg]
    exact h

/-- The items of a write are written by it. -/
theorem itemWritten_inside {f : File} {bytes : Bytes} {a i : ℕ} (hdvd : g.itemLength ∣ bytes.length)
    (ha : a ≤ i) (hi : i < a + bytes.length / g.itemLength) :
    ItemWritten g (f.pwrite (segHeaderSize + a * g.itemLength) bytes) i := by
  intro j hj
  obtain ⟨k, rfl⟩ := Nat.exists_eq_add_of_le ha
  obtain ⟨c, hc⟩ := hdvd
  rw [hc, Nat.mul_div_cancel_left c g.item_pos] at hi
  have hk : k + 1 ≤ c := by omega
  have hbound : k * g.itemLength + j < bytes.length := by
    have hmul := Nat.mul_le_mul_right g.itemLength hk
    rw [Nat.add_mul, Nat.one_mul, Nat.mul_comm c] at hmul
    omega
  have hoff : segHeaderSize + (a + k) * g.itemLength + j =
      segHeaderSize + a * g.itemLength + (k * g.itemLength + j) := by
    rw [Nat.add_mul]
    omega
  rw [hoff, File.pwrite_inside hbound, List.getElem?_eq_getElem hbound]
  rfl

theorem persistentedSize_pwrite_size {f : File} {x : ℕ} (hx : x < 2 ^ 32) :
    persistentedSize (f.pwrite sizeOff (leWord 4 x)) = x := by
  have hread : (f.pwrite sizeOff (leWord 4 x)).pread sizeOff 4 = leWord 4 x := File.pread_pwrite_self
  have hword := readWord_leWord (w := 4) (x := x) (by simpa using hx) []
  rw [List.append_nil] at hword
  rw [persistentedSize, hread, hword]
  rfl

theorem persistentedSize_pwrite {f : File} {off : ℕ} {bytes : Bytes} (h : sizeOff + 4 ≤ off) :
    persistentedSize (f.pwrite off bytes) = persistentedSize f := by
  rw [persistentedSize, File.pread_pwrite_disjoint (.inl h), persistentedSize]

theorem itemOff_eq {id : ℕ} (h : id < g.maxSize) :
    itemOff g id = segHeaderSize + id * g.itemLength := by
  refine Nat.mod_eq_of_lt (Nat.lt_of_lt_of_le ?_ g.fits)
  exact Nat.add_lt_add_left (Nat.mul_lt_mul_of_pos_right h g.item_pos) _

theorem header_le_itemOff {id : ℕ} (h : id < g.maxSize) : sizeOff + 4 ≤ itemOff g id := by
  rw [itemOff_eq h]
  exact Nat.le_trans (by decide) (Nat.le_add_right _ _)

theorem maxSize_lt (g : Geometry) : g.maxSize < 2 ^ 32 := by
  have hfits := g.fits
  have hmul := Nat.le_mul_of_pos_right g.maxSize g.item_pos
  have hheader : segHeaderSize = 30 := rfl
  omega

/-! ### The invariant -/

/-- The first `n` items of each segment were written. The thread holds the merged requests `runs`:
it is in front of the first, or between its items and its size. They and the queue continue the
segments, up to the items that were added. -/
structure Stands (g : Geometry) (s : AsyncWriter) (n : ℕ → ℕ) (runs : List WriterStruct) : Prop where
  complete : ∀ seg i, i < n seg → ItemWritten g (s.disk.files seg) i
  bound : ∀ seg, n seg ≤ g.maxSize
  header : ∀ seg, persistentedSize (s.disk.files seg) = s.disk.curSize seg
  writes : n = s.disk.curSize ∧ s.writes = runs.flatMap (syncWrite g) ∨
    ∃ seg k, n = Function.update s.disk.curSize seg (s.disk.curSize seg + k) ∧
      s.writes = .size seg k :: runs.flatMap (syncWrite g)
  chain : Chain g n (runs ++ s.queue) s.buffered
  length : ∀ q ∈ s.queue, q.data.length = g.itemLength

/-- The counters are never ahead of the files. -/
theorem Stands.curSize_le (h : Stands g s n runs) (seg : ℕ) : s.disk.curSize seg ≤ n seg := by
  obtain ⟨rfl, -⟩ | ⟨seg', k, rfl, -⟩ := h.writes
  · exact Nat.le_refl _
  · by_cases hseg : seg = seg'
    · rw [hseg, Function.update_self]
      exact Nat.le_add_right _ _
    · exact Nat.le_of_eq (Function.update_of_ne hseg ..).symm

/-- With nothing to write, the counters are the numbers of items. -/
theorem Stands.idle (h : Stands g s n runs) (hidle : s.writes = []) :
    n = s.disk.curSize ∧ runs = [] := by
  obtain ⟨hn, hwrites⟩ | ⟨seg, k, -, hwrites⟩ := h.writes
  · rw [hidle] at hwrites
    cases runs with
    | nil => exact ⟨hn, rfl⟩
    | cons r runs => cases hwrites
  · rw [hidle] at hwrites
    cases hwrites

/-! ### Steps -/

theorem Stands.add {seg : ℕ} {data : Bytes} (h : Stands g s n runs)
    (hlength : data.length = g.itemLength) (hfull : s.buffered seg < g.maxSize)
    (hs : step g (.add seg data) s = some s') : Stands g s' n runs := by
  rw [step, if_pos ⟨hlength, hfull⟩] at hs
  cases hs
  have hone : data.length / g.itemLength = 1 := by rw [hlength, Nat.div_self g.item_pos]
  refine ⟨h.complete, h.bound, h.header, h.writes, ?_, ?_⟩
  · rw [← List.append_assoc, chain_append]
    refine ⟨s.buffered, h.chain, ⟨itemOff_eq hfull, hlength ▸ Nat.dvd_refl _, ?_⟩, ?_⟩
    · show s.buffered seg + data.length / g.itemLength ≤ g.maxSize
      rw [hone]
      exact hfull
    · show itemsAfter g s.buffered ⟨seg, _, data⟩ = _
      rw [itemsAfter, hone]
  · intro q hq
    obtain hq | hq := List.mem_append.mp hq
    · exact h.length q hq
    · rw [List.mem_singleton.mp hq]
      exact hlength

theorem Stands.update {seg id : ℕ} {data : Bytes} (h : Stands g s n runs)
    (hid : id < s.buffered seg) :
    Stands g { s with disk := s.disk.run (.data seg (itemOff g id) data) } n runs := by
  have hmax : id < g.maxSize := Nat.lt_of_lt_of_le hid (h.chain.bound h.bound seg)
  refine ⟨fun seg' i hi => ?_, h.bound, fun seg' => ?_, h.writes, h.chain, h.length⟩
  · exact (h.complete seg' i hi).update seg _ _
  · show persistentedSize (Function.update s.disk.files seg _ seg') = s.disk.curSize seg'
    by_cases hseg : seg' = seg
    · subst hseg
      rw [Function.update_self, persistentedSize_pwrite (header_le_itemOff hmax)]
      exact h.header seg'
    · rw [Function.update_of_ne hseg]
      exact h.header seg'

/-- The thread takes the first requests out of the queue. -/
theorem Stands.dequeue {num : ℕ} (h : Stands g s n runs) (hidle : s.writes = [])
    (hok : (writerHandler g (s.queue.take num)).2 = true) :
    Stands g { s with
      queue := s.queue.drop num
      writes := (writerHandler g (s.queue.take num)).1 } n (handlerRuns (s.queue.take num)) := by
  obtain ⟨hn, rfl⟩ := h.idle hidle
  have hlength : ∀ q ∈ s.queue.take num, q.data.length = g.itemLength :=
    fun q hq => h.length q (List.mem_of_mem_take hq)
  have hchain : Chain g n (s.queue.take num ++ s.queue.drop num) s.buffered := by
    rw [List.take_append_drop]
    exact h.chain
  refine ⟨h.complete, h.bound, h.header, .inl ⟨hn, ?_⟩, ?_, fun q hq => ?_⟩
  · rw [writerHandler_eq hlength ((writerHandler_ok hlength).mp hok)]
  · obtain ⟨k, htake, hdrop⟩ := chain_append.mp hchain
    exact chain_append.mpr ⟨k, handlerRuns_chain htake, hdrop⟩
  · exact h.length q (List.mem_of_mem_drop hq)

/-- The thread writes the items of its next request. -/
theorem Stands.writeData {q : WriterStruct} (h : Stands g s n (q :: runs))
    (hn : n = s.disk.curSize) :
    Stands g { s with
      disk := s.disk.run q.write
      writes := .size q.seg (q.data.length / g.itemLength) :: runs.flatMap (syncWrite g)
      made := s.made ++ [q.write] } (itemsAfter g n q) runs := by
  obtain ⟨⟨hstart, hdvd, hmax⟩, hrest⟩ := h.chain
  have hheader : sizeOff + 4 ≤ q.start := by
    rw [hstart]
    exact Nat.le_trans (by decide) (Nat.le_add_right _ _)
  refine ⟨fun seg i hi => ?_, fun seg => ?_, fun seg => ?_, .inr ⟨q.seg, _, by rw [hn]; rfl, rfl⟩,
    hrest, h.length⟩
  · show ItemWritten g (Function.update s.disk.files q.seg _ seg) i
    by_cases hseg : seg = q.seg
    · subst hseg
      rw [itemsAfter_self] at hi
      rw [Function.update_self]
      by_cases hold : i < n q.seg
      · exact (h.complete q.seg i hold).pwrite
      · rw [hstart]
        exact itemWritten_inside hdvd (Nat.not_lt.mp hold) hi
    · rw [itemsAfter_of_ne hseg] at hi
      rw [Function.update_of_ne hseg]
      exact h.complete seg i hi
  · by_cases hseg : seg = q.seg
    · rw [hseg, itemsAfter_self]
      exact hmax
    · rw [itemsAfter_of_ne hseg]
      exact h.bound seg
  · show persistentedSize (Function.update s.disk.files q.seg _ seg) = s.disk.curSize seg
    by_cases hseg : seg = q.seg
    · subst hseg
      rw [Function.update_self, persistentedSize_pwrite hheader]
      exact h.header q.seg
    · rw [Function.update_of_ne hseg]
      exact h.header seg

/-- The thread writes a number of items, after the items. -/
theorem Stands.writeSize {seg k : ℕ} (h : Stands g s n runs)
    (hn : n = Function.update s.disk.curSize seg (s.disk.curSize seg + k)) :
    Stands g { s with
      disk := s.disk.run (.size seg k)
      writes := runs.flatMap (syncWrite g)
      made := s.made ++ [.size seg k] } n runs := by
  have hnew : n seg = s.disk.curSize seg + k := by rw [hn, Function.update_self]
  have hfits : (s.disk.curSize seg + k) % 2 ^ 32 = n seg := by
    rw [← hnew]
    exact Nat.mod_eq_of_lt (Nat.lt_of_le_of_lt (h.bound seg) (maxSize_lt g))
  have hcurSize : (s.disk.run (.size seg k)).curSize = n := by
    show Function.update s.disk.curSize seg ((s.disk.curSize seg + k) % 2 ^ 32) = n
    rw [hfits, hnew, hn]
  refine ⟨fun seg' i hi => ?_, h.bound, fun seg' => ?_, .inl ⟨hcurSize.symm, rfl⟩, h.chain, h.length⟩
  · exact (h.complete seg' i hi).update seg _ _
  · show persistentedSize (Function.update s.disk.files seg _ seg') =
      (s.disk.run (.size seg k)).curSize seg'
    rw [hcurSize]
    by_cases hseg : seg' = seg
    · subst hseg
      rw [Function.update_self, hfits]
      exact persistentedSize_pwrite_size (Nat.lt_of_le_of_lt (h.bound seg') (maxSize_lt g))
    · rw [Function.update_of_ne hseg, hn, Function.update_of_ne hseg]
      exact h.header seg'

/-- A process that loads the files finds the segments as their headers have them. -/
theorem Stands.restart (h : Stands g s n runs) :
    (fun seg => loadedSize g (s.disk.files seg)) = s.disk.curSize := by
  funext seg
  have hle : s.disk.curSize seg ≤ g.maxSize := Nat.le_trans (h.curSize_le seg) (h.bound seg)
  rw [loadedSize, h.header seg, if_neg (Nat.not_lt.mpr hle)]

/-- **The invariant**: what is still to be written continues the segments. -/
def Continued (g : Geometry) (s : AsyncWriter) : Prop := ∃ n runs, Stands g s n runs

theorem continued_create (g : Geometry) : Continued g create := by
  refine ⟨fun _ => 0, [], fun _ i hi => absurd hi (Nat.not_lt_zero i), fun _ => Nat.zero_le _,
    fun _ => rfl, .inl ⟨rfl, rfl⟩, rfl, fun q hq => absurd hq List.not_mem_nil⟩

theorem Continued.step (h : Continued g s) (o : WriterOp) (hs : step g o s = some s') :
    Continued g s' := by
  obtain ⟨n, runs, hstands⟩ := h
  cases o with
  | add seg data =>
    have hdefined : data.length = g.itemLength ∧ s.buffered seg < g.maxSize := by
      by_contra hnot
      rw [AsyncWriter.step, if_neg hnot] at hs
      cases hs
    exact ⟨n, runs, hstands.add hdefined.1 hdefined.2 hs⟩
  | update seg id data =>
    rw [AsyncWriter.step] at hs
    split at hs
    next hdefined =>
      cases hs
      exact ⟨n, runs, hstands.update hdefined.2⟩
    · cases hs
  | dequeue num =>
    rw [AsyncWriter.step] at hs
    split at hs
    next hdefined =>
      cases hs
      exact ⟨n, _, hstands.dequeue hdefined.1 hdefined.2⟩
    · cases hs
  | write =>
    obtain ⟨hn, hwrites⟩ | ⟨seg, k, hn, hwrites⟩ := hstands.writes
    · cases runs with
      | nil =>
        rw [AsyncWriter.step, hwrites] at hs
        cases hs
      | cons q runs =>
        rw [AsyncWriter.step, hwrites] at hs
        cases hs
        exact ⟨_, runs, hstands.writeData hn⟩
    · rw [AsyncWriter.step, hwrites] at hs
      cases hs
      exact ⟨n, runs, hstands.writeSize hn⟩
  | sync caller =>
    cases hs
    exact ⟨n, runs, hstands.complete, hstands.bound, hstands.header, hstands.writes, hstands.chain,
      hstands.length⟩
  | look caller =>
    rw [AsyncWriter.step] at hs
    split at hs
    · cases hs
    · split at hs
      · cases hs
        exact ⟨n, runs, hstands.complete, hstands.bound, hstands.header, hstands.writes,
          hstands.chain, hstands.length⟩
      · cases hs
        exact ⟨n, runs, hstands⟩
  | restart =>
    cases hs
    rw [hstands.restart]
    exact ⟨s.disk.curSize, [], fun seg i hi =>
        hstands.complete seg i (Nat.lt_of_lt_of_le hi (hstands.curSize_le seg)),
      fun seg => Nat.le_trans (hstands.curSize_le seg) (hstands.bound seg), hstands.header,
      .inl ⟨rfl, rfl⟩, rfl, fun q hq => absurd hq List.not_mem_nil⟩

/-! ### Batches and the header -/

theorem step_add {seg : ℕ} {data : Bytes}
    (h : data.length = g.itemLength ∧ s.buffered seg < g.maxSize) :
    step g (.add seg data) s = some { s with
      queue := s.queue ++ [⟨seg, itemOff g (s.buffered seg), data⟩]
      requests := s.requests ++ [⟨seg, itemOff g (s.buffered seg), data⟩]
      buffered := Function.update s.buffered seg (s.buffered seg + 1) } :=
  if_pos h

theorem Continued.bulkRun_iff (h : Continued g s) {batches : List (List WriterStruct)}
    (hcut : batches.flatten = s.queue) {d : Disk} :
    bulkRun g batches d = some (syncRun g s.queue d) ↔
      ∀ b ∈ batches, 2 ≤ b.length → g.itemLength ≤ bulkBytes := by
  obtain ⟨n, runs, hstands⟩ := h
  obtain ⟨k, -, hqueue⟩ := chain_append.mp hstands.chain
  rw [← hcut] at hqueue ⊢
  exact bulkRun_eq hqueue (hcut ▸ hstands.length)

theorem continued_run {ops : List WriterOp} (hrun : Lib.runOps (step g) ops create = some s) :
    Continued g s :=
  Lib.runOps_invariant (fun o _ _ h => Continued.step h o) (continued_create g) hrun

/-- Items of one byte. -/
def byteGeometry : Geometry := ⟨1, 4, Nat.one_pos, by decide⟩

/-- Items of one byte more than the buffer. -/
def longGeometry : Geometry := ⟨bulkBytes + 1, 4, Nat.succ_pos _, by decide⟩

end AsyncWriter

end AwaDB
