import AwaDB.Lib.Codec
import AwaDB.Lib.File
import AwaDB.Lib.Run
import AwaDB.Table.Row

/-!
# The writer of the segment files (`storage/async_writer.cc`)

`Segment::Add` queues the bytes of an item, and a thread takes requests out of the queue, writes the
bytes at their place and then the number of items into the header of the segment. A batch of several
requests is merged: adjacent requests of one segment become one write. Updates do not go through the
queue, they are written at once.

* `merged_runAll`: one write for adjacent requests leaves the files and counters that a write for each
  leaves;
* `bulkRun_eq`: any cut of requests that continue the segments into batches does, exactly if no batch
  of two requests has an item of more than 1 MiB, which the buffer of the thread cannot hold.

Errors of the file system are left out.
-/

namespace AwaDB

open Lib

/-- `seg_header_size_`. -/
def segHeaderSize : ℕ := 1 + 4 + 4 + 8 + 4 + 4 + 4 + 1

/-- `SizeOff()`, and the offset in `UpdateSize`. -/
def sizeOff : ℕ := 1 + 4

/-- `item_length_` and `max_size_` of the segments of a `StorageManager`. The callers keep a segment
file below 2 GiB (`MmapRawVector::InitStore`) or fix the number of items (`Table`), so that offsets
are not cut to 32 bits. -/
structure Geometry where
  itemLength : ℕ
  maxSize : ℕ
  item_pos : 0 < itemLength
  fits : segHeaderSize + maxSize * itemLength ≤ 2 ^ 32
deriving DecidableEq, Repr

/-- `WriterStruct`; `fd` and `cur_size` belong to the segment. -/
structure WriterStruct where
  seg : ℕ
  start : ℕ
  data : Bytes
deriving DecidableEq, Repr

/-- The files of the segments, and `cur_size_` of each. -/
structure Disk where
  files : ℕ → File
  curSize : ℕ → ℕ

/-- A write of items at an offset, or of the number of items (`UpdateSize`). -/
inductive DiskWrite where
  | data (seg start : ℕ) (bytes : Bytes)
  | size (seg num : ℕ)
deriving DecidableEq, Repr

namespace Disk

/-- One write. -/
def run (d : Disk) : DiskWrite → Disk
  | .data seg start bytes =>
    { d with files := Function.update d.files seg ((d.files seg).pwrite start bytes) }
  | .size seg num =>
    let size := (d.curSize seg + num) % 2 ^ 32
    { files := Function.update d.files seg ((d.files seg).pwrite sizeOff (leWord 4 size))
      curSize := Function.update d.curSize seg size }

/-- Some writes, one after the other. -/
def runAll (writes : List DiskWrite) (d : Disk) : Disk := writes.foldl run d

variable {d : Disk} {seg start : ℕ} {xs ys : Bytes} {a b : ℕ}

theorem runAll_append (ws ws' : List DiskWrite) : d.runAll (ws ++ ws') = (d.runAll ws).runAll ws' :=
  List.foldl_append

theorem run_append : d.run (.data seg start (xs ++ ys)) =
    (d.run (.data seg start xs)).run (.data seg (start + xs.length) ys) := by
  simp only [run, Function.update_self, Function.update_idem, File.pwrite_append]

/-- Items are behind the header. -/
theorem run_size_data (h : sizeOff + 4 ≤ start) :
    (d.run (.size seg a)).run (.data seg start ys) =
      (d.run (.data seg start ys)).run (.size seg a) := by
  simp only [run, Function.update_self, Function.update_idem]
  rw [File.pwrite_comm]
  exact .inl h

theorem run_size_size : (d.run (.size seg a)).run (.size seg b) = d.run (.size seg (a + b)) := by
  have hsum : ((d.curSize seg + a) % 2 ^ 32 + b) % 2 ^ 32 = (d.curSize seg + (a + b)) % 2 ^ 32 := by
    rw [Nat.mod_add_mod, Nat.add_assoc]
  simp only [run, Function.update_self, Function.update_idem, hsum]
  rw [File.pwrite_pwrite_self]
  rfl

end Disk

/-! ### The handler -/

section Handler

variable (g : Geometry)

/-- The writes for one request, which are those of `SyncWrite`. -/
def syncWrite (q : WriterStruct) : List DiskWrite :=
  [.data q.seg q.start q.data, .size q.seg (q.data.length / g.itemLength)]

/-- `bulk_bytes`. -/
def bulkBytes : ℕ := 1 * 1024 * 1024

/-- The loop over a batch: `run` is what was merged and not written yet. The second component tells
whether the copies stayed within the buffer. -/
def bulkLoop : WriterStruct → List WriterStruct → List DiskWrite × Bool
  | run, [] => (syncWrite g run, true)
  | run, q :: qs =>
    if run.seg ≠ q.seg ∨ run.data.length + q.data.length ≥ bulkBytes then
      if q.data.length > bulkBytes then (syncWrite g run, false)
      else (syncWrite g run ++ (bulkLoop q qs).1, (bulkLoop q qs).2)
    else bulkLoop { run with data := run.data ++ q.data } qs

/-- One round of `WriterHandler`, on the requests that it has taken out of the queue. -/
def writerHandler : List WriterStruct → List DiskWrite × Bool
  | [] => ([], true)
  | [q] => (syncWrite g q, true)
  | q :: qs => if q.data.length > bulkBytes then ([], false) else bulkLoop g q qs

/-- The rounds of `WriterHandler`, one for each batch; a copy behind the buffer is undefined. -/
def bulkRun (batches : List (List WriterStruct)) (d : Disk) : Option Disk :=
  Lib.runOps (fun batch d =>
    if (writerHandler g batch).2 then some (d.runAll (writerHandler g batch).1) else none) batches d

/-- `SyncWrite` for each request. -/
def syncRun (queue : List WriterStruct) (d : Disk) : Disk := d.runAll (queue.flatMap (syncWrite g))

end Handler

/-! ### Consecutive requests -/

namespace WriterStruct

/-- The write of the items of a request. -/
def write (q : WriterStruct) : DiskWrite := .data q.seg q.start q.data

/-- One write for two requests. -/
def join (run q : WriterStruct) : WriterStruct := { run with data := run.data ++ q.data }

end WriterStruct

section Chain

variable {g : Geometry} {n m : ℕ → ℕ} {run q : WriterStruct} {qs qs' : List WriterStruct}

variable (g) in
/-- `q` has whole items, and continues a segment that has `n` items. -/
def Continues (n : ℕ → ℕ) (q : WriterStruct) : Prop :=
  q.start = segHeaderSize + n q.seg * g.itemLength ∧ g.itemLength ∣ q.data.length ∧
    n q.seg + q.data.length / g.itemLength ≤ g.maxSize

variable (g) in
/-- The numbers of items after a request. -/
def itemsAfter (n : ℕ → ℕ) (q : WriterStruct) : ℕ → ℕ :=
  Function.update n q.seg (n q.seg + q.data.length / g.itemLength)

variable (g) in
/-- Requests that continue the segments, from `n` items in each to `m`. -/
def Chain : (ℕ → ℕ) → List WriterStruct → (ℕ → ℕ) → Prop
  | n, [], m => n = m
  | n, q :: qs, m => Continues g n q ∧ Chain (itemsAfter g n q) qs m

theorem chain_append :
    Chain g n (qs ++ qs') m ↔ ∃ k, Chain g n qs k ∧ Chain g k qs' m := by
  induction qs generalizing n with
  | nil => exact ⟨fun h => ⟨n, rfl, h⟩, fun ⟨_, hk, h⟩ => hk ▸ h⟩
  | cons q qs ih =>
    show Continues g n q ∧ Chain g _ (qs ++ qs') m ↔ ∃ k, (Continues g n q ∧ Chain g _ qs k) ∧ _
    rw [ih]
    exact ⟨fun ⟨hq, k, hk, h⟩ => ⟨k, ⟨hq, hk⟩, h⟩, fun ⟨k, ⟨hq, hk⟩, h⟩ => ⟨hq, k, hk, h⟩⟩

@[simp] theorem itemsAfter_self : itemsAfter g n q q.seg = n q.seg + q.data.length / g.itemLength :=
  Function.update_self ..

theorem itemsAfter_of_ne {seg : ℕ} (h : seg ≠ q.seg) : itemsAfter g n q seg = n seg :=
  Function.update_of_ne h ..

theorem Chain.bound (h : Chain g n qs m) (hn : ∀ seg, n seg ≤ g.maxSize) (seg : ℕ) :
    m seg ≤ g.maxSize := by
  induction qs generalizing n with
  | nil =>
    cases h
    exact hn seg
  | cons q qs ih =>
    refine ih h.2 fun seg => ?_
    by_cases hseg : seg = q.seg
    · rw [hseg, itemsAfter_self]
      exact h.1.2.2
    · rw [itemsAfter_of_ne hseg]
      exact hn seg

/-- The second of two consecutive requests of a segment starts where the first ends. -/
theorem Continues.start_eq (hrun : Continues g n run) (hq : Continues g (itemsAfter g n run) q)
    (hseg : run.seg = q.seg) : q.start = run.start + run.data.length := by
  have hitems := hq.1
  rw [← hseg, itemsAfter_self, Nat.add_mul, Nat.div_mul_cancel hrun.2.1, ← Nat.add_assoc] at hitems
  rw [hitems, hrun.1]

theorem join_items (hrun : Continues g n run) :
    (run.join q).data.length / g.itemLength =
      run.data.length / g.itemLength + q.data.length / g.itemLength := by
  obtain ⟨k, hk⟩ := hrun.2.1
  show (run.data ++ q.data).length / g.itemLength = _
  rw [List.length_append, hk, Nat.mul_add_div g.item_pos, Nat.mul_div_cancel_left k g.item_pos]

theorem Continues.join (hrun : Continues g n run) (hq : Continues g (itemsAfter g n run) q)
    (hseg : run.seg = q.seg) : Continues g n (run.join q) := by
  refine ⟨hrun.1, ?_, ?_⟩
  · show g.itemLength ∣ (run.data ++ q.data).length
    rw [List.length_append]
    exact Nat.dvd_add hrun.2.1 hq.2.1
  · have hbound := hq.2.2
    rw [← hseg, itemsAfter_self] at hbound
    rw [join_items hrun, ← Nat.add_assoc]
    exact hbound

theorem itemsAfter_join (hrun : Continues g n run) (hseg : run.seg = q.seg) :
    itemsAfter g n (run.join q) = itemsAfter g (itemsAfter g n run) q := by
  funext seg
  by_cases h : seg = run.seg
  · subst h
    calc itemsAfter g n (run.join q) run.seg
        = n run.seg + (run.join q).data.length / g.itemLength := itemsAfter_self
      _ = itemsAfter g n run run.seg + q.data.length / g.itemLength := by
          rw [join_items hrun, itemsAfter_self, Nat.add_assoc]
      _ = itemsAfter g (itemsAfter g n run) q run.seg := by rw [hseg, itemsAfter_self]
  · rw [itemsAfter_of_ne (q := run.join q) h, itemsAfter_of_ne (hseg ▸ h), itemsAfter_of_ne h]

end Chain

/-! ### Merging -/

section Merge

variable {g : Geometry} {n m : ℕ → ℕ} {run q : WriterStruct} {qs : List WriterStruct} {d : Disk}

/-- The requests after merging. -/
def merged : WriterStruct → List WriterStruct → List WriterStruct
  | run, [] => [run]
  | run, q :: qs =>
    if run.seg ≠ q.seg ∨ run.data.length + q.data.length ≥ bulkBytes then run :: merged q qs
    else merged (run.join q) qs

/-- The merged requests of a batch. -/
def handlerRuns : List WriterStruct → List WriterStruct
  | [] => []
  | q :: qs => merged q qs

/-- Requests that fit into the buffer are never copied behind it. -/
theorem bulkLoop_eq (h : ∀ q ∈ qs, q.data.length ≤ bulkBytes) :
    bulkLoop g run qs = ((merged run qs).flatMap (syncWrite g), true) := by
  induction qs generalizing run with
  | nil => simp [bulkLoop, merged]
  | cons q qs ih =>
    have hq := h q List.mem_cons_self
    have hqs : ∀ q ∈ qs, q.data.length ≤ bulkBytes := fun q hq => h q (List.mem_cons_of_mem _ hq)
    rw [bulkLoop, merged]
    split
    · rw [if_neg (Nat.not_lt.mpr hq), ih hqs]
      rfl
    · exact ih hqs

/-- A batch of items of one length stays within the buffer unless it has two that do not fit. -/
theorem writerHandler_eq (h : ∀ q ∈ qs, q.data.length = g.itemLength)
    (hfit : 2 ≤ qs.length → g.itemLength ≤ bulkBytes) :
    writerHandler g qs = ((handlerRuns qs).flatMap (syncWrite g), true) := by
  match qs with
  | [] => rfl
  | [q] => simp [writerHandler, handlerRuns, merged]
  | q :: q' :: qs =>
    have hlength : g.itemLength ≤ bulkBytes := hfit (by simp)
    have hall : ∀ p ∈ q :: q' :: qs, p.data.length ≤ bulkBytes := fun p hp => h p hp ▸ hlength
    rw [writerHandler, if_neg (Nat.not_lt.mpr (hall q List.mem_cons_self)),
      bulkLoop_eq fun p hp => hall p (List.mem_cons_of_mem _ hp)]
    · rfl
    · exact List.cons_ne_nil q' qs

theorem writerHandler_overflow (h : ∀ q ∈ qs, q.data.length = g.itemLength)
    (htwo : 2 ≤ qs.length) (hlong : bulkBytes < g.itemLength) : (writerHandler g qs).2 = false := by
  match qs with
  | q :: q' :: qs =>
    rw [writerHandler, if_pos (by rw [h q List.mem_cons_self]; exact hlong)]
    exact List.cons_ne_nil q' qs

theorem writerHandler_ok (h : ∀ q ∈ qs, q.data.length = g.itemLength) :
    (writerHandler g qs).2 = true ↔ (2 ≤ qs.length → g.itemLength ≤ bulkBytes) := by
  constructor
  · intro hok htwo
    by_contra hlong
    rw [writerHandler_overflow h htwo (Nat.not_le.mp hlong)] at hok
    cases hok
  · intro hfit
    rw [writerHandler_eq h hfit]

theorem merged_chain (h : Chain g n (run :: qs) m) : Chain g n (merged run qs) m := by
  induction qs generalizing run n with
  | nil => exact h
  | cons q qs ih =>
    obtain ⟨hrun, hq, hqs⟩ := h
    rw [merged]
    split
    · exact ⟨hrun, ih ⟨hq, hqs⟩⟩
    next hseg =>
      have hsame : run.seg = q.seg := by
        by_contra hne
        exact hseg (.inl hne)
      refine ih ⟨hrun.join hq hsame, ?_⟩
      rw [itemsAfter_join hrun hsame]
      exact hqs

/-- **One write for two consecutive requests** leaves the disk that two writes leave. -/
theorem runAll_join (hrun : Continues g n run) (hq : Continues g (itemsAfter g n run) q)
    (hseg : run.seg = q.seg) :
    d.runAll (syncWrite g (run.join q)) = d.runAll (syncWrite g run ++ syncWrite g q) := by
  have hstart := hrun.start_eq hq hseg
  have hheader : sizeOff + 4 ≤ q.start := by
    rw [hq.1]
    exact Nat.le_trans (by decide) (Nat.le_add_right _ _)
  show (d.run (.data run.seg run.start (run.data ++ q.data))).run
      (.size run.seg ((run.join q).data.length / g.itemLength)) =
    (((d.run (.data run.seg run.start run.data)).run
      (.size run.seg (run.data.length / g.itemLength))).run
      (.data q.seg q.start q.data)).run (.size q.seg (q.data.length / g.itemLength))
  rw [join_items hrun, ← hseg, Disk.run_append, ← hstart, Disk.run_size_data hheader,
    Disk.run_size_size]

/-- **Merging is invisible** in the files and the counters. -/
theorem merged_runAll (h : Chain g n (run :: qs) m) :
    d.runAll ((merged run qs).flatMap (syncWrite g)) =
      d.runAll ((run :: qs).flatMap (syncWrite g)) := by
  induction qs generalizing run n d with
  | nil => rfl
  | cons q qs ih =>
    obtain ⟨hrun, hq, hqs⟩ := h
    rw [merged]
    split
    · calc d.runAll (syncWrite g run ++ (merged q qs).flatMap (syncWrite g))
          = (d.runAll (syncWrite g run)).runAll ((q :: qs).flatMap (syncWrite g)) := by
            rw [Disk.runAll_append, ih ⟨hq, hqs⟩]
        _ = d.runAll ((run :: q :: qs).flatMap (syncWrite g)) := (Disk.runAll_append _ _).symm
    next hseg =>
      have hsame : run.seg = q.seg := by
        by_contra hne
        exact hseg (.inl hne)
      have htail : Chain g n (run.join q :: qs) m :=
        ⟨hrun.join hq hsame, itemsAfter_join hrun hsame ▸ hqs⟩
      calc d.runAll ((merged (run.join q) qs).flatMap (syncWrite g))
          = d.runAll (syncWrite g (run.join q) ++ qs.flatMap (syncWrite g)) := ih htail
        _ = (d.runAll (syncWrite g run ++ syncWrite g q)).runAll (qs.flatMap (syncWrite g)) := by
            rw [Disk.runAll_append, runAll_join hrun hq hsame]
        _ = d.runAll ((run :: q :: qs).flatMap (syncWrite g)) := by
            rw [← Disk.runAll_append, List.append_assoc, List.flatMap_cons, List.flatMap_cons]

theorem handlerRuns_chain (h : Chain g n qs m) : Chain g n (handlerRuns qs) m := by
  cases qs with
  | nil => exact h
  | cons q qs => exact merged_chain h

theorem handlerRuns_runAll (h : Chain g n qs m) :
    d.runAll ((handlerRuns qs).flatMap (syncWrite g)) = d.runAll (qs.flatMap (syncWrite g)) := by
  cases qs with
  | nil => rfl
  | cons q qs => exact merged_runAll h

/-- **Any cut into batches** leaves the files and counters of `SyncWrite`, if no batch has two items
that do not fit into the buffer; else a copy goes behind it. -/
theorem bulkRun_eq {batches : List (List WriterStruct)} (hchain : Chain g n batches.flatten m)
    (hlength : ∀ q ∈ batches.flatten, q.data.length = g.itemLength) :
    bulkRun g batches d = some (syncRun g batches.flatten d) ↔
      ∀ b ∈ batches, 2 ≤ b.length → g.itemLength ≤ bulkBytes := by
  induction batches generalizing n d with
  | nil => exact ⟨fun _ _ hb => (List.not_mem_nil hb).elim, fun _ => rfl⟩
  | cons b batches ih =>
    rw [List.flatten_cons, chain_append] at hchain
    obtain ⟨k, hb, hrest⟩ := hchain
    rw [List.flatten_cons] at hlength
    have hfirst : ∀ q ∈ b, q.data.length = g.itemLength :=
      fun q hq => hlength q (List.mem_append_left _ hq)
    have hothers : ∀ q ∈ batches.flatten, q.data.length = g.itemLength :=
      fun q hq => hlength q (List.mem_append_right _ hq)
    rw [List.forall_mem_cons, ← writerHandler_ok hfirst, bulkRun, Lib.runOps_cons]
    by_cases hok : (writerHandler g b).2
    · have hwrites : (writerHandler g b).1 = (handlerRuns b).flatMap (syncWrite g) := by
        rw [writerHandler_eq hfirst ((writerHandler_ok hfirst).mp hok)]
      have hsync : syncRun g (b ++ batches.flatten) d =
          syncRun g batches.flatten (d.runAll (writerHandler g b).1) := by
        rw [syncRun, List.flatMap_append, Disk.runAll_append, hwrites, handlerRuns_runAll hb]
        rfl
      rw [if_pos hok, Option.bind_some, List.flatten_cons, hsync]
      exact (ih hrest hothers).trans (and_iff_right hok).symm
    · rw [if_neg hok, Option.bind_none]
      exact iff_of_false (fun h => by cases h) fun h => hok h.1

end Merge

/-! ### The system -/

/-- The segments with their writer. `buffered` is `buffered_size_`, `queue` is `writer_q_`, and
`writes` are the writes of the current batch that are still to be made. `requests` are all requests
of the process, `made` are the writes that the thread has made for them, `calls` has for each caller
that is in `Sync` the number of requests before its call, and `returned` has those numbers for the
calls that have returned. -/
structure AsyncWriter where
  disk : Disk
  buffered : ℕ → ℕ
  queue : List WriterStruct
  writes : List DiskWrite
  requests : List WriterStruct
  made : List DiskWrite
  calls : ℕ → Option ℕ
  returned : List ℕ

/-- `Segment::Add` and `Segment::Update`; the thread takes `num` requests, or makes its next write;
a thread calls `Sync`, or looks at the queue in it; the process stops and loads the files. -/
inductive WriterOp where
  | add (seg : ℕ) (data : Bytes)
  | update (seg id : ℕ) (data : Bytes)
  | dequeue (num : ℕ)
  | write
  | sync (caller : ℕ)
  | look (caller : ℕ)
  | restart
deriving DecidableEq, Repr

/-- `PersistentedSize`, on the bytes of a file. -/
def persistentedSize (f : File) : ℕ := ((readWord 4 (f.pread sizeOff 4)).map Prod.fst).getD 0

/-- `cur_size_` after `Segment::Load`. -/
def loadedSize (g : Geometry) (f : File) : ℕ :=
  if persistentedSize f > g.maxSize then 0 else persistentedSize f

/-- The offset of an item; `Block::Write` takes a `uint32_t`. -/
def itemOff (g : Geometry) (id : ℕ) : ℕ := (segHeaderSize + id * g.itemLength) % 2 ^ 32

namespace AsyncWriter

/-- Segments without items. -/
def create : AsyncWriter where
  disk := { files := fun _ _ => none, curSize := fun _ => 0 }
  buffered := fun _ => 0
  queue := []
  writes := []
  requests := []
  made := []
  calls := fun _ => none
  returned := []

/-- One event. A segment that is full is closed, and an item has the length of the segment. -/
def step (g : Geometry) : WriterOp → AsyncWriter → Option AsyncWriter
  | .add seg data, s =>
    if data.length = g.itemLength ∧ s.buffered seg < g.maxSize then
      some { s with
        queue := s.queue ++ [⟨seg, itemOff g (s.buffered seg), data⟩]
        requests := s.requests ++ [⟨seg, itemOff g (s.buffered seg), data⟩]
        buffered := Function.update s.buffered seg (s.buffered seg + 1) }
    else none
  | .update seg id data, s =>
    if data.length = g.itemLength ∧ id < s.buffered seg then
      some { s with disk := s.disk.run (.data seg (itemOff g id) data) }
    else none
  | .dequeue num, s =>
    if s.writes = [] ∧ (writerHandler g (s.queue.take num)).2 then
      some { s with
        queue := s.queue.drop num
        writes := (writerHandler g (s.queue.take num)).1 }
    else none
  | .write, s =>
    match s.writes with
    | [] => none
    | w :: writes =>
      some { s with disk := s.disk.run w, writes := writes, made := s.made ++ [w] }
  | .sync caller, s =>
    some { s with calls := Function.update s.calls caller (some s.requests.length) }
  | .look caller, s =>
    match s.calls caller with
    | none => none
    | some mark =>
      if s.queue = [] then
        some { s with
          calls := Function.update s.calls caller none
          returned := s.returned ++ [mark] }
      else some s
  | .restart, s =>
    let sizes := fun seg => loadedSize g (s.disk.files seg)
    some { create with
      disk := { s.disk with curSize := sizes }
      buffered := sizes }

end AsyncWriter

end AwaDB
