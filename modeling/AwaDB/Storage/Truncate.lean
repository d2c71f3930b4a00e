import AwaDB.Storage.ItemArray
import AwaDB.Storage.StringStore
import Mathlib.Data.List.NodupEquivFin

/-!
# Truncation (`StorageManager::Truncate`, `StorageManager::Load`)

Truncation drops segments in memory and writes the size of the last one. The files of the dropped
segments stay: `Load` opens every file that it finds, and a segment that is created again is created
over its old file and the old index of its strings.

* `noResidue_always`: items and strings are those of the array, through truncations, growth and
  restarts, in every run in which a truncation drops no segment that has items or strings, and the
  cache holds no block that is cut.
-/

namespace AwaDB

open Lib

/-- The options of a table: those of `StorageOptions`, and whether there is a cache for strings. -/
structure TableOptions where
  g : Geometry
  segBlockCapacity : ℕ
  cached : Bool
  strCached : Bool
  segment_pos : 0 < g.maxSize

namespace TableOptions

/-- The options for the items. -/
def items (o : TableOptions) : StorageOptions where
  g := o.g
  segBlockCapacity := o.segBlockCapacity
  cached := o.cached
  segment_pos := o.segment_pos

/-- The options for the strings, which have blocks of the same size. -/
def strings (o : TableOptions) : StringOptions where
  perBlockSize := StorageManager.perBlockSize o.items
  segBlockCapacity := o.segBlockCapacity
  segmentSize := o.g.maxSize
  cached := o.strCached
  perBlock_le := Nat.div_mul_le_self _ _
  segment_pos := o.segment_pos

end TableOptions

/-- The items and the strings of a table. `created` is the number of segment files, and `left` has
the files and indexes of strings of the segments that were dropped. -/
structure TableStorage where
  items : StorageManager
  strings : StringStore
  created : ℕ
  left : ℕ → StringSegment

/-- `Add`, another event of the items or of the strings, `Truncate`, and a process that is closed
and loads the files. -/
inductive TableOp where
  | add (value : Bytes)
  | item (op : StorageOp)
  | string (op : StringOp)
  | truncate (n : ℕ)
  | restart
deriving DecidableEq, Repr

namespace TableStorage

section Model

variable (o : TableOptions)

/-- A table without rows. -/
def create : TableStorage where
  items := StorageManager.create
  strings := StringStore.create
  created := 1
  left := fun _ => StringStore.emptySegment

/-- `Segment::Init` for the strings: the file is cut to its first capacity, and the index is
loaded. -/
def opened (seg : StringSegment) : StringSegment where
  file := fun i => if i < segHeaderSize + o.g.maxSize * 4 then seg.file i else none
  blockPos := seg.blockPos
  strOffset := 0

/-- `Extend` for the strings. -/
def extendStrings (s : TableStorage) : TableStorage :=
  { s with
    strings := { s.strings with
      segments := s.strings.segments ++ [opened o (s.left s.strings.segments.length)] }
    created := max s.created (s.strings.segments.length + 1) }

/-- `Add`, which may open a segment. -/
def add (value : Bytes) (s : TableStorage) : Option TableStorage :=
  (StorageManager.add o.items value s.items).map fun items =>
    let added := { s with items, strings := { s.strings with size := s.strings.size + 1 } }
    if items.segments = s.items.segments then added else added.extendStrings o

/-- `SetBaseSize`. -/
def setBaseSize (seg size : ℕ) (s : StorageManager) : StorageManager :=
  { s with
    buffered := Function.update s.buffered seg
      (if s.buffered seg > size then size else s.buffered seg)
    disk :=
      { files := Function.update s.disk.files seg
          ((s.disk.files seg).pwrite sizeOff (leWord 4 size))
        curSize := Function.update s.disk.curSize seg
          (if s.disk.curSize seg > size then size else s.disk.curSize seg) } }

/-- `seg_num` of `Truncate`. -/
def segNum (n : ℕ) : ℕ := n / o.g.maxSize + if n % o.g.maxSize > 0 then 1 else 0

/-- `Truncate` without its calls of `Extend`. -/
def cut (n : ℕ) (s : TableStorage) : TableStorage where
  items :=
    let dropped := { s.items with segments := segNum o n, size := n }
    if n % o.g.maxSize > 0 then setBaseSize (segNum o n - 1) (n % o.g.maxSize) dropped else dropped
  strings := { s.strings with
    segments := s.strings.segments.take (segNum o n)
    size := n
    records := s.strings.records.filter fun r => r.rowId < n }
  created := s.created
  left := fun j => if segNum o n ≤ j then (s.strings.segments[j]?).getD (s.left j) else s.left j

/-- `Truncate`; `none` is an error. -/
def truncate (n : ℕ) (s : TableStorage) : Option TableStorage :=
  if segNum o n > s.items.segments then none
  else
    let t := s.cut o n
    if segNum o n = 0 ∨ t.items.buffered (segNum o n - 1) = o.g.maxSize then
      some ({ t with items := t.items.extend }.extendStrings o)
    else some t

/-- `Load`, in a new process; what was in the queue is lost. -/
def load (s : TableStorage) : TableStorage :=
  let sizes := fun seg => if seg < s.created then loadedSize o.g (s.items.disk.files seg) else 0
  { s with
    items :=
      { segments := s.created
        size := ((List.range s.created).map sizes).sum
        buffered := sizes
        lastBid := fun _ => 0
        disk := { s.items.disk with curSize := sizes }
        queue := []
        cells := fun _ => none }
    strings := { s.strings with
      segments := (List.range s.created).map fun j => (s.strings.segments[j]?).getD (s.left j)
      size := ((List.range s.created).map sizes).sum
      cells := fun _ => none } }

/-- One event. -/
def step : TableOp → TableStorage → Option TableStorage
  | .add value, s => s.add o value
  | .item (.add _), _ => none
  | .item op, s => (StorageManager.step o.items op s.items).map fun items => { s with items }
  | .string .add, _ => none
  | .string op, s => (StringStore.step o.strings op s.strings).map fun strings => { s with strings }
  | .truncate n, s => s.truncate o n
  | .restart, s => some (s.load o)

/-- An array of items under the same calls. -/
def arrayStep : TableOp → List Bytes → List Bytes
  | .add value, items => items ++ [value]
  | .item op, items => StorageManager.arrayStep op items
  | .truncate n, items => items.take n
  | _, items => items

/-- An event of both. -/
def stepBoth (op : TableOp) (p : TableStorage × List Bytes) : Option (TableStorage × List Bytes) :=
  (step o op p.1).map fun s => (s, arrayStep op p.2)

/-- The items and the strings are those that were written. -/
def NoResidue (p : TableStorage × List Bytes) : Prop :=
  StorageManager.Refines o.items (p.1.items, p.2) ∧ StringStore.Lossless o.strings p.1.strings

/-- The cache knows no block of the segment behind an item. -/
def CacheBefore (seg k : ℕ) (s : StorageManager) : Prop :=
  ∀ b, StorageManager.blockSize o.items = some b →
    s.lastBid seg * b.size ≤ k * o.g.itemLength ∧
      ∀ blockId, (s.cells (StorageManager.cacheKey o.items seg blockId)).isSome →
        (blockId + 1) * b.size ≤ k * o.g.itemLength

/-- A truncation drops no segment that has items or strings, the writer has made its requests, and
the cache knows no block that is cut. -/
def Clean : TableOp → TableStorage → Prop
  | .add value, s => StorageManager.Settled o.items (.add value) s.items
  | .item op, s => StorageManager.Settled o.items op s.items
  | .string op, s => StringStore.Roomy o.strings op s.strings
  | .truncate n, s => s.items.queue = [] ∧ n ≤ s.items.size ∧
    (s.items.segments - 1) * o.g.maxSize ≤ n ∧
    (n = (s.items.segments - 1) * o.g.maxSize → s.items.buffered (s.items.segments - 1) = 0 ∧
      ∀ seg, s.strings.segments[s.items.segments - 1]? = some seg → seg.blockPos = []) ∧
    (o.cached = true → CacheBefore o (s.items.segments - 1) (n % o.g.maxSize) s.items)
  | .restart, s => s.items.queue = []

end Model

section

variable {o : TableOptions} {s t : TableStorage} {items : List Bytes} {n : ℕ}

/-! ### The headers -/

/-- The headers have the counters. -/
def Headed (s : StorageManager) : Prop :=
  ∀ seg, persistentedSize (s.disk.files seg) = s.disk.curSize seg

theorem Headed.sameFiles {s t : StorageManager} (h : Headed s)
    (hsame : StorageManager.SameFiles s t) : Headed t := by
  rw [Headed, hsame.disk]
  exact h

/-- Bytes behind the header. -/
theorem Headed.data {d : Disk} {seg start : ℕ} {bytes : Bytes}
    (h : ∀ seg, persistentedSize (d.files seg) = d.curSize seg) (hstart : sizeOff + 4 ≤ start)
    (seg' : ℕ) : persistentedSize ((d.run (.data seg start bytes)).files seg') =
      (d.run (.data seg start bytes)).curSize seg' := by
  show persistentedSize (Function.update d.files seg _ seg') = d.curSize seg'
  by_cases hseg : seg' = seg
  · rw [hseg, Function.update_self, AsyncWriter.persistentedSize_pwrite hstart, h seg]
  · rw [Function.update_of_ne hseg, h seg']

/-- The number of items. -/
theorem Headed.size {d : Disk} {seg num : ℕ}
    (h : ∀ seg, persistentedSize (d.files seg) = d.curSize seg) (seg' : ℕ) :
    persistentedSize ((d.run (.size seg num)).files seg') =
      (d.run (.size seg num)).curSize seg' := by
  show persistentedSize (Function.update d.files seg _ seg') =
    Function.update d.curSize seg _ seg'
  by_cases hseg : seg' = seg
  · rw [hseg, Function.update_self, Function.update_self,
      AsyncWriter.persistentedSize_pwrite_size (Nat.mod_lt _ (Nat.two_pow_pos 32))]
  · rw [Function.update_of_ne hseg, Function.update_of_ne hseg, h seg']

theorem Headed.step {o : StorageOptions} {s t : StorageManager} {op : StorageOp} (h : Headed s)
    (hsound : StorageManager.Sound o s items) (hstep : StorageManager.step o op s = some t) :
    Headed t := by
  cases op with
  | add value =>
    change StorageManager.add o value s = some t at hstep
    rw [StorageManager.add] at hstep
    split at hstep
    · dsimp only at hstep
      cases hstep
      split
      · intro seg
        show persistentedSize (s.disk.files seg) = Function.update s.disk.curSize s.segments 0 seg
        by_cases hseg : seg = s.segments
        · have hle := hsound.curSize_le s.segments
          rw [hsound.last.2.2] at hle
          rw [hseg, Function.update_self, h s.segments]
          exact Nat.le_zero.mp hle
        · rw [Function.update_of_ne hseg, h seg]
      · exact h
    · cases hstep
  | update id value =>
    change StorageManager.update o id value s = some t at hstep
    have hoff : sizeOff + 4 ≤ itemOff o.g (id % o.g.maxSize) :=
      AsyncWriter.header_le_itemOff (Nat.mod_lt id o.segment_pos)
    rw [StorageManager.update] at hstep
    split at hstep
    · dsimp only at hstep
      split at hstep
      · obtain ⟨b, -, rfl⟩ := Option.map_eq_some_iff.mp hstep
        exact Headed.data h hoff
      · cases hstep
        exact Headed.data h hoff
    · cases hstep
  | get id =>
    obtain ⟨⟨bytes, u⟩, hget, rfl⟩ := Option.map_eq_some_iff.mp hstep
    exact h.sameFiles (hsound.of_get hget).1
  | getHeaders startId num =>
    obtain ⟨⟨pieces, u⟩, hget, rfl⟩ := Option.map_eq_some_iff.mp hstep
    exact h.sameFiles (hsound.of_getHeaders hget).1
  | write =>
    change StorageManager.writeFirst o s = some t at hstep
    rw [StorageManager.writeFirst] at hstep
    split at hstep
    · cases hstep
    next q queue hqueue =>
      cases hstep
      have hqueued := hsound.queued
      rw [hqueue] at hqueued
      have hstart : sizeOff + 4 ≤ q.start := by
        rw [hqueued.2.1]
        exact Nat.le_trans (by decide) (Nat.le_add_right _ _)
      exact Headed.size (Headed.data h hstart)
  | evict key =>
    cases hstep
    exact h

/-! ### The strings that are left -/

/-- The records of the rows that are left, with segments that have the same strings. -/
theorem cut_strings {o : StringOptions} {s : StringStore} {segments : List StringSegment}
    (h : StringStore.Sound o s) (hlength : segments.length = s.segments.length)
    (hcount : s.segments.length = n / o.segmentSize + 1)
    (hsame : ∀ (j : ℕ) seg, segments[j]? = some seg → s.segments[j]? = some seg ∨
      seg.blockPos = [] ∧ seg.strOffset = 0 ∧
        ∀ old, s.segments[j]? = some old → old.blockPos = []) :
    StringStore.Sound o { s with
      segments, size := n, records := s.records.filter fun r => r.rowId < n } := by
  obtain ⟨f, hf⟩ := List.sublist_iff_exists_orderEmbedding_getElem?_eq.mp
    (List.filter_sublist (p := fun r : StringRecord => decide (r.rowId < n)) (l := s.records))
  have hold : ∀ (j : ℕ) seg, s.segments[j]? = some seg → seg.blockPos ≠ [] →
      segments[j]? = some seg := by
    intro j seg hseg hne
    have hlt : j < segments.length := hlength ▸ (List.getElem?_eq_some_iff.mp hseg).1
    have hnew : segments[j]? = some segments[j] := List.getElem?_eq_getElem hlt
    obtain heq | ⟨-, -, hnil⟩ := hsame j _ hnew
    · rw [hnew, ← heq, hseg]
    · exact absurd (hnil seg hseg) hne
  have hback : ∀ (i : ℕ) (r : StringRecord) seg, s.records[i]? = some r →
      segments[StringStore.segOf o r.rowId]? = some seg →
      s.segments[StringStore.segOf o r.rowId]? = some seg := by
    intro i r seg hr hseg
    obtain ⟨old, hseg'⟩ := h.segment (h.rows i r hr)
    obtain ⟨front, hplaced⟩ := h.placed i r old hr hseg'
    rw [hold _ old hseg' (by
      rintro hnil
      have hblock := hplaced.block
      rw [hnil] at hblock
      cases hblock)] at hseg
    rw [hseg', hseg]
  refine ⟨hlength.trans hcount, fun i r hr => ?_, fun j seg hseg => ?_, fun i r seg hr hseg => ?_,
    fun i i' r r' seg hne hr hr' hrow hseg => ?_, fun key cell hcell => ?_⟩
  · have hmem := List.mem_filter.mp (List.mem_of_getElem? hr)
    exact Nat.le_of_lt (of_decide_eq_true hmem.2)
  · obtain hseg | ⟨hempty, hzero, -⟩ := hsame j seg hseg
    · exact h.blocks j seg hseg
    · exact ⟨StringStore.blocks_unused hempty hzero, StringStore.numbered_unused hempty⟩
  · change (s.records.filter _)[i]? = some r at hr
    rw [hf] at hr
    exact h.placed (f i) r seg hr (hback _ r seg hr hseg)
  · change (s.records.filter _)[i]? = some r at hr
    change (s.records.filter _)[i']? = some r' at hr'
    rw [hf] at hr hr'
    have hne' : f i ≠ f i' := fun heq => hne (f.injective heq)
    exact h.apart (f i) (f i') r r' seg hne' hr hr' hrow (hback _ r seg hr hseg)
  · obtain ⟨hcached, j, b, seg, front, back, hseg, hfront, hrest⟩ := h.cells key cell hcell
    refine ⟨hcached, j, b, seg, front, back, hold j seg hseg ?_, hfront, hrest⟩
    rintro hnil
    rw [hnil] at hfront
    cases hfront

/-! ### The invariant -/

/-- Items and strings are sound, the headers have the counters, and the segments that were dropped
had no strings. -/
structure Whole (o : TableOptions) (s : TableStorage) (items : List Bytes) : Prop where
  items : StorageManager.Sound o.items s.items items
  headed : Headed s.items
  strings : StringStore.Sound o.strings s.strings
  size : s.strings.size = s.items.size
  created : s.created = s.items.segments
  left : ∀ j, s.items.segments ≤ j → (s.left j).blockPos = []

theorem Whole.segments (h : Whole o s items) :
    s.strings.segments.length = s.items.segments := by
  rw [h.strings.count, h.items.segments, h.size]
  rfl

theorem whole_create (o : TableOptions) : Whole o create [] where
  items := StorageManager.sound_create o.items
  headed _ := rfl
  strings := StringStore.sound_create
  size := rfl
  created := rfl
  left _ _ := rfl

theorem Whole.noResidue (h : Whole o s items) : NoResidue o (s, items) :=
  ⟨h.items.refines, h.strings.lossless⟩

/-- Only `Add` changes the number of items. -/
theorem item_size {op : StorageOp} {t : StorageManager} (h : Whole o s items)
    (hadd : ∀ value, op ≠ .add value) (hstep : StorageManager.step o.items op s.items = some t) :
    t.size = s.items.size ∧ t.segments = s.items.segments := by
  cases op with
  | add value => exact absurd rfl (hadd value)
  | update id value =>
    change StorageManager.update o.items id value s.items = some t at hstep
    rw [StorageManager.update] at hstep
    split at hstep
    · dsimp only at hstep
      split at hstep
      · obtain ⟨b, -, rfl⟩ := Option.map_eq_some_iff.mp hstep
        exact ⟨rfl, rfl⟩
      · cases hstep
        exact ⟨rfl, rfl⟩
    · cases hstep
  | get id =>
    obtain ⟨⟨bytes, u⟩, hget, rfl⟩ := Option.map_eq_some_iff.mp hstep
    rw [(h.items.of_get hget).1]
    exact ⟨rfl, rfl⟩
  | getHeaders startId num =>
    obtain ⟨⟨pieces, u⟩, hget, rfl⟩ := Option.map_eq_some_iff.mp hstep
    rw [(h.items.of_getHeaders hget).1]
    exact ⟨rfl, rfl⟩
  | write =>
    change StorageManager.writeFirst o.items s.items = some t at hstep
    rw [StorageManager.writeFirst] at hstep
    split at hstep
    · cases hstep
    · cases hstep
      exact ⟨rfl, rfl⟩
  | evict key =>
    cases hstep
    exact ⟨rfl, rfl⟩

theorem Whole.item {op : StorageOp} {t : StorageManager} (h : Whole o s items)
    (hadd : ∀ value, op ≠ .add value) (hsettled : StorageManager.Settled o.items op s.items)
    (hstep : StorageManager.step o.items op s.items = some t) :
    Whole o { s with items := t } (StorageManager.arrayStep op items) := by
  obtain ⟨hsize, hsegments⟩ := item_size h hadd hstep
  exact ⟨h.items.step hsettled hstep, h.headed.step h.items hstep, h.strings,
    h.size.trans hsize.symm, h.created.trans hsegments.symm,
    fun j hj => h.left j (hsegments ▸ hj)⟩

theorem string_size {o : StringOptions} {s t : StringStore} {op : StringOp} (hadd : op ≠ .add)
    (hstep : StringStore.step o op s = some t) : t.size = s.size := by
  cases op with
  | add => exact absurd rfl hadd
  | addString value =>
    rw [StringStore.step] at hstep
    split at hstep
    · obtain ⟨seg, -, rfl⟩ := Option.map_eq_some_iff.mp hstep
      rfl
    · cases hstep
  | updateString i value =>
    rw [StringStore.step] at hstep
    obtain ⟨r, -, hstep⟩ := Option.bind_eq_some_iff.mp hstep
    split at hstep
    · obtain ⟨seg, -, hnext⟩ := Option.map_eq_some_iff.mp hstep
      dsimp only at hnext
      split at hnext
      · rw [← hnext]
        split <;> rfl
      · rw [← hnext]
        rfl
    · cases hstep
  | getString i =>
    obtain ⟨r, -, hstep⟩ := Option.bind_eq_some_iff.mp hstep
    split at hstep
    · cases hstep
      rw [StringStore.fillCell]
      split
      · rfl
      · split
        · dsimp only
          split <;> rfl
        · rfl
    · cases hstep
  | evict key =>
    cases hstep
    rfl

theorem Whole.string {op : StringOp} {t : StringStore} (h : Whole o s items) (hadd : op ≠ .add)
    (hroomy : StringStore.Roomy o.strings op s.strings)
    (hstep : StringStore.step o.strings op s.strings = some t) :
    Whole o { s with strings := t } items :=
  ⟨h.items, h.headed, h.strings.step hroomy hstep, (string_size hadd hstep).trans h.size,
    h.created, h.left⟩

/-- A segment is opened with the last item of the one before it. -/
theorem segments_add {o : StorageOptions} {s t : StorageManager} {items items' : List Bytes}
    (h : StorageManager.Sound o s items) (h' : StorageManager.Sound o t items')
    (hsize : t.size = s.size + 1) :
    t.segments = s.segments + if (s.size + 1) % o.g.maxSize = 0 then 1 else 0 := by
  rw [h.segments, h'.segments, hsize, Nat.succ_div]
  simp only [Nat.dvd_iff_mod_eq_zero]
  omega

/-- **A row is added.** -/
theorem Whole.add {value : Bytes} (h : Whole o s items)
    (hsettled : StorageManager.Settled o.items (.add value) s.items)
    (hstep : s.add o value = some t) : Whole o t (items ++ [value]) := by
  obtain ⟨new, hnew, hnext⟩ := Option.map_eq_some_iff.mp hstep
  have hsound := h.items.add hsettled hnew
  have hheaded : Headed new := h.headed.step h.items
    (show StorageManager.step o.items (.add value) s.items = some new from hnew)
  have hsize : new.size = s.items.size + 1 := by
    rw [hsound.size, h.items.size, List.length_append, List.length_singleton]
  have hsegments := segments_add h.items hsound hsize
  have hlength := h.segments
  have hunused : (opened o (s.left s.strings.segments.length)).blockPos = [] :=
    h.left _ (Nat.le_of_eq hlength.symm)
  have hmod : (s.strings.size + 1) % o.strings.segmentSize = 0 ↔
      ¬ new.segments = s.items.segments := by
    rw [hsegments, h.size]
    show (s.items.size + 1) % o.g.maxSize = 0 ↔
      ¬ s.items.segments + (if (s.items.size + 1) % o.g.maxSize = 0 then 1 else 0) = _
    split <;> omega
  dsimp only at hnext
  split at hnext
  next heq =>
    subst hnext
    refine ⟨hsound, hheaded, h.strings.row hunused rfl (if_neg fun hzero => ?_).symm, ?_,
      h.created.trans heq.symm, fun j hj => h.left j (heq ▸ hj)⟩
    · exact hmod.mp hzero heq
    · show s.strings.size + 1 = new.size
      rw [hsize, h.size]
  next hne =>
    subst hnext
    have hnext : new.segments = s.items.segments + 1 := by
      rw [hsegments] at hne ⊢
      split at hne
      next hzero => rw [if_pos hzero]
      · exact absurd rfl hne
    refine ⟨hsound, hheaded, h.strings.row hunused rfl (if_pos (hmod.mpr hne)).symm, ?_, ?_,
      fun j hj => h.left j ?_⟩
    · show s.strings.size + 1 = new.size
      rw [hsize, h.size]
    · show max s.created (s.strings.segments.length + 1) = new.segments
      rw [h.created, hlength, hnext]
      exact Nat.max_eq_right (Nat.le_succ _)
    · change new.segments ≤ j at hj
      omega

/-! ### Load -/

theorem loadedSize_eq {s : StorageManager} {o : StorageOptions} (h : StorageManager.Sound o s items)
    (hheaded : Headed s) (seg : ℕ) : loadedSize o.g (s.disk.files seg) = s.disk.curSize seg := by
  have hle := Nat.le_trans (h.curSize_le seg) (h.buffered_le seg)
  rw [loadedSize, hheaded seg, if_neg (Nat.not_lt.mpr hle)]

/-- The numbers of items of the segments. -/
theorem sum_sizes (size maxSize num : ℕ) :
    ((List.range num).map fun seg => min maxSize (size - seg * maxSize)).sum =
      min (num * maxSize) size := by
  induction num with
  | zero => simp
  | succ num ih =>
    rw [List.range_succ, List.map_append, List.sum_append, ih, Nat.succ_mul]
    simp only [List.map_cons, List.map_nil, List.sum_cons, List.sum_nil]
    omega

/-- A process that loads the files finds what was there. -/
theorem load_eq (h : Whole o s items) (hqueue : s.items.queue = []) :
    s.load o = { s with
      items := { s.items with lastBid := fun _ => 0, cells := fun _ => none }
      strings := { s.strings with cells := fun _ => none } } := by
  have hqueued := h.items.queued
  rw [hqueue] at hqueued
  have hcurSize : s.items.disk.curSize = s.items.buffered := hqueued
  have hsizes : (fun seg => if seg < s.created then
      loadedSize o.g (s.items.disk.files seg) else 0) = s.items.disk.curSize := by
    funext seg
    split
    · exact loadedSize_eq h.items h.headed seg
    next hge =>
      rw [hcurSize, h.items.buffered_eq_zero (h.created ▸ Nat.not_lt.mp hge)]
  have hsum : ((List.range s.created).map s.items.disk.curSize).sum = s.items.size := by
    rw [hcurSize, funext h.items.buffered, sum_sizes, h.created]
    exact Nat.min_eq_right h.items.size_le
  have hsegments : ((List.range s.created).map fun j =>
      (s.strings.segments[j]?).getD (s.left j)) = s.strings.segments := by
    refine List.ext_getElem? fun j => ?_
    rw [List.getElem?_map, h.created, ← h.segments]
    by_cases hj : j < s.strings.segments.length
    · rw [List.getElem?_range hj, Option.map_some, List.getElem?_eq_getElem hj, Option.getD_some]
    · rw [List.getElem?_eq_none (Nat.not_lt.mp hj), List.getElem?_eq_none]
      · rfl
      · rw [List.length_range]
        exact Nat.not_lt.mp hj
  rw [TableStorage.load]
  dsimp only
  rw [hsizes, hsum, hsegments, hqueue, h.created, ← h.size, ← hcurSize]

/-- **A restart.** -/
theorem Whole.load (h : Whole o s items) (hqueue : s.items.queue = []) :
    Whole o (s.load o) items := by
  rw [load_eq h hqueue]
  refine ⟨h.items.sameFiles rfl fun hcached b hb => ?_, h.headed,
    ⟨h.strings.count, h.strings.rows, h.strings.blocks, h.strings.placed, h.strings.apart,
      fun key cell hcell => by cases hcell⟩, h.size, h.created, h.left⟩
  have hcache := h.items.cache hcached b hb
  refine ⟨fun seg => ?_, hcache.bound, hcache.numbered, fun key cell hcell => by cases hcell⟩
  show 0 * b.size ≤ _
  rw [Nat.zero_mul]
  exact Nat.zero_le _

/-! ### Truncate -/

/-- The cache knows no block behind the cut. -/
theorem cut_cache {o : StorageOptions} {b : BlockSize} {s t : StorageManager} {seg k : ℕ}
    (h : StorageManager.CacheSound o b s) (hcells : t.cells = s.cells)
    (hlast : ∀ seg', seg' ≠ seg → t.lastBid seg' ≤ s.lastBid seg')
    (hlast' : t.lastBid seg * b.size ≤ k * o.g.itemLength)
    (hbuffered : t.buffered = Function.update s.buffered seg k) (hk : k ≤ s.buffered seg)
    (hcurSize : t.disk.curSize = Function.update s.disk.curSize seg k)
    (hbefore : ∀ blockId, (s.cells (StorageManager.cacheKey o seg blockId)).isSome →
      (blockId + 1) * b.size ≤ k * o.g.itemLength)
    (hfiles : ∀ seg' blockId, blockOf b (t.disk.files seg') blockId =
      blockOf b (s.disk.files seg') blockId) : StorageManager.CacheSound o b t := by
  have hle : ∀ seg', t.buffered seg' ≤ s.buffered seg' := by
    intro seg'
    rw [hbuffered]
    by_cases hseg : seg' = seg
    · rw [hseg, Function.update_self]
      exact hk
    · exact Nat.le_of_eq (Function.update_of_ne hseg ..)
  refine ⟨fun seg' => ?_, fun seg' => ?_, fun seg' blockId hblock => ?_, fun key cell hcell => ?_⟩
  · rw [hcurSize]
    by_cases hseg : seg' = seg
    · rw [hseg, Function.update_self]
      exact hlast'
    · rw [Function.update_of_ne hseg]
      exact Nat.le_trans (Nat.mul_le_mul_right _ (hlast seg' hseg)) (h.lastBid seg')
  · rw [hcurSize, hbuffered]
    by_cases hseg : seg' = seg
    · rw [hseg, Function.update_self, Function.update_self]
    · rw [Function.update_of_ne hseg, Function.update_of_ne hseg]
      exact h.bound seg'
  · exact h.numbered seg' blockId
      (Nat.lt_of_lt_of_le hblock (Nat.mul_le_mul_right _ (hle seg')))
  · rw [hcells] at hcell
    obtain ⟨seg', blockId, hcomplete, rfl, rfl⟩ := h.cells key cell hcell
    refine ⟨seg', blockId, ?_, rfl, (hfiles seg' blockId).symm⟩
    rw [hcurSize]
    by_cases hseg : seg' = seg
    · subst hseg
      rw [Function.update_self]
      exact hbefore blockId (by rw [hcell]; rfl)
    · rw [Function.update_of_ne hseg]
      exact hcomplete

/-- **The items in front of the cut**, in the last segment. -/
theorem cut_items {o : StorageOptions} {s : StorageManager} {k : ℕ}
    (h : StorageManager.Sound o s items) (hqueue : s.queue = [])
    (hn : n = (s.segments - 1) * o.g.maxSize + k) (hk : 0 < k)
    (hle : k ≤ s.buffered (s.segments - 1))
    (hcache : o.cached = true → ∀ b, StorageManager.blockSize o = some b →
      s.lastBid (s.segments - 1) * b.size ≤ k * o.g.itemLength ∧
        ∀ blockId, (s.cells (StorageManager.cacheKey o (s.segments - 1) blockId)).isSome →
          (blockId + 1) * b.size ≤ k * o.g.itemLength) :
    StorageManager.Sound o (setBaseSize (s.segments - 1) k { s with size := n })
      (items.take n) := by
  obtain ⟨hindex, hroom, -⟩ := h.last
  have hqueued := h.queued
  rw [hqueue] at hqueued
  have hcur : s.disk.curSize = s.buffered := hqueued
  have hbuffered : (if s.buffered (s.segments - 1) > k then k
      else s.buffered (s.segments - 1)) = k := by
    split <;> omega
  have hsize := h.size
  have hpread : ∀ seg off len, segHeaderSize ≤ off →
      (Function.update s.disk.files (s.segments - 1)
        ((s.disk.files (s.segments - 1)).pwrite sizeOff (leWord 4 k)) seg).pread off len =
        (s.disk.files seg).pread off len := by
    intro seg off len hoff
    by_cases hseg : seg = s.segments - 1
    · rw [hseg, Function.update_self]
      have hsizeOff : sizeOff + 4 ≤ segHeaderSize := by decide
      exact File.pread_pwrite_disjoint (.inr (Nat.le_trans hsizeOff hoff))
    · rw [Function.update_of_ne hseg]
  have hmono : ∀ seg, Function.update s.buffered (s.segments - 1) k seg ≤ s.buffered seg := by
    intro seg
    by_cases hseg : seg = s.segments - 1
    · rw [hseg, Function.update_self]
      exact hle
    · exact Nat.le_of_eq (Function.update_of_ne hseg ..)
  have hsegments : 0 < s.segments := h.segments ▸ Nat.succ_pos _
  rw [setBaseSize]
  dsimp only
  rw [hcur, hbuffered]
  refine ⟨?_, fun seg => ?_, ?_, fun v hv => h.itemLength v (List.mem_of_mem_take hv), ?_,
    fun seg k' v hk' hv => ?_, fun hcached hpos => h.defined hcached (by omega),
    fun hcached b hb => ?_⟩
  · show s.segments = n / o.g.maxSize + 1
    rw [hn, Nat.mul_comm, Nat.mul_add_div o.segment_pos, Nat.div_eq_of_lt (by omega)]
    omega
  · show Function.update s.buffered _ k seg = min o.g.maxSize (n - seg * o.g.maxSize)
    by_cases hseg : seg = s.segments - 1
    · rw [hseg, Function.update_self]
      omega
    · rw [Function.update_of_ne hseg]
      obtain hlt | hgt := Nat.lt_or_gt_of_ne hseg
      · have hmul := Nat.mul_le_mul_right o.g.maxSize (Nat.succ_le_of_lt hlt)
        rw [Nat.succ_mul] at hmul
        rw [h.buffered]
        omega
      · have hmul := Nat.mul_le_mul_right o.g.maxSize (Nat.succ_le_of_lt hgt)
        rw [Nat.succ_mul] at hmul
        rw [h.buffered_eq_zero (by omega)]
        omega
  · show n = (items.take n).length
    rw [List.length_take]
    omega
  · show StorageManager.Queued o.g _ _ s.queue _
    rw [hqueue]
    rfl
  · change k' < Function.update s.buffered _ k seg at hk'
    rw [List.getElem?_take] at hv
    split at hv
    · show (Function.update s.disk.files _ _ seg).pread _ _ = v
      rw [hpread _ _ _ (Nat.le_add_right _ _)]
      refine h.stored seg k' v ?_ hv
      rw [hcur]
      exact Nat.lt_of_lt_of_le hk' (hmono seg)
    · cases hv
  · obtain ⟨hlast, hbefore⟩ := hcache hcached b hb
    exact cut_cache (h.cache hcached b hb) rfl (fun _ _ => Nat.le_refl _) hlast rfl hle
      (by rw [hcur]) hbefore fun seg blockId => hpread _ _ _ (Nat.le_add_right _ _)

/-- `SetBaseSize` writes the header. -/
theorem Headed.setBaseSize {s : StorageManager} {seg k : ℕ} (h : Headed s)
    (hk : k ≤ s.disk.curSize seg) (hfits : k < 2 ^ 32) : Headed (setBaseSize seg k s) := by
  have hcurSize : (if s.disk.curSize seg > k then k else s.disk.curSize seg) = k := by
    split <;> omega
  intro seg'
  show persistentedSize (Function.update s.disk.files seg _ seg') =
    Function.update s.disk.curSize seg _ seg'
  rw [hcurSize]
  by_cases hseg : seg' = seg
  · rw [hseg, Function.update_self, Function.update_self,
      AsyncWriter.persistentedSize_pwrite_size hfits]
  · rw [Function.update_of_ne hseg, Function.update_of_ne hseg, h seg']

/-- Where the cut is. -/
theorem cut_eq (h : Whole o s items) (hn : n ≤ s.items.size)
    (hbase : (s.items.segments - 1) * o.g.maxSize ≤ n) :
    n = (s.items.segments - 1) * o.g.maxSize + n % o.g.maxSize ∧
      n / o.g.maxSize = s.items.segments - 1 ∧
      n % o.g.maxSize ≤ s.items.buffered (s.items.segments - 1) := by
  obtain ⟨hindex, hroom, -⟩ := h.items.last
  have hsize := h.items.size
  obtain ⟨k, rfl⟩ := Nat.exists_eq_add_of_le hbase
  change (s.items.segments - 1) * o.g.maxSize + s.items.buffered _ = items.length at hindex
  have hle : k ≤ s.items.buffered (s.items.segments - 1) := by omega
  have hk : k < o.g.maxSize := Nat.lt_of_le_of_lt hle hroom
  rw [Nat.mul_comm, Nat.mul_add_mod, Nat.mul_add_div o.segment_pos, Nat.mod_eq_of_lt hk,
    Nat.div_eq_of_lt hk]
  exact ⟨rfl, Nat.add_zero _, hle⟩

/-- A segment that was dropped before is not touched. -/
theorem Whole.left_cut (h : Whole o s items) {j : ℕ} (hj : s.items.segments ≤ j) :
    ((s.cut o n).left j).blockPos = [] := by
  show (if segNum o n ≤ j then (s.strings.segments[j]?).getD (s.left j) else s.left j).blockPos = []
  rw [List.getElem?_eq_none (by rw [h.segments]; exact hj)]
  split <;> exact h.left j hj

/-- **A truncation** that cuts the last segment. -/
theorem Whole.truncate_inside (h : Whole o s items) (hqueue : s.items.queue = [])
    (hn : n ≤ s.items.size) (hbase : (s.items.segments - 1) * o.g.maxSize ≤ n)
    (hpos : 0 < n % o.g.maxSize)
    (hcache : o.cached = true → CacheBefore o (s.items.segments - 1) (n % o.g.maxSize) s.items)
    (hstep : s.truncate o n = some t) : Whole o t (items.take n) := by
  obtain ⟨hcut, hdiv, hle⟩ := cut_eq h hn hbase
  have hmod := Nat.mod_lt n o.segment_pos
  have hsegments : 0 < s.items.segments := h.items.segments ▸ Nat.succ_pos _
  have hnum : segNum o n = s.items.segments := by
    rw [segNum, hdiv, if_pos hpos]
    omega
  have hcurSize : s.items.disk.curSize = s.items.buffered := by
    have hqueued := h.items.queued
    rw [hqueue] at hqueued
    exact hqueued
  have hitems : (s.cut o n).items =
      setBaseSize (s.items.segments - 1) (n % o.g.maxSize) { s.items with size := n } := by
    show (if n % o.g.maxSize > 0 then _ else _) = _
    rw [if_pos hpos, hnum]
  have hstrings : s.strings.segments.take (segNum o n) = s.strings.segments := by
    rw [hnum, ← h.segments]
    exact List.take_length
  have hopen : ¬ (segNum o n = 0 ∨
      (s.cut o n).items.buffered (segNum o n - 1) = o.g.maxSize) := by
    rw [hitems, hnum]
    rintro (hzero | hfull)
    · omega
    · change Function.update s.items.buffered _ _ _ = _ at hfull
      rw [Function.update_self] at hfull
      split at hfull <;> omega
  rw [TableStorage.truncate, if_neg (by rw [hnum]; exact Nat.lt_irrefl _)] at hstep
  dsimp only at hstep
  rw [if_neg hopen] at hstep
  cases hstep
  refine ⟨?_, ?_, ?_, ?_, ?_, fun j hj => ?_⟩
  · rw [hitems]
    exact cut_items h.items hqueue hcut hpos hle fun hcached => hcache hcached
  · rw [hitems]
    refine Headed.setBaseSize h.headed ?_ ?_
    · show n % o.g.maxSize ≤ s.items.disk.curSize _
      rw [hcurSize]
      exact hle
    · exact Nat.lt_trans hmod (AsyncWriter.maxSize_lt o.g)
  · show StringStore.Sound o.strings { s.strings with
      segments := s.strings.segments.take (segNum o n), size := n, records := _ }
    rw [hstrings]
    refine cut_strings h.strings rfl ?_ fun j seg hseg => .inl hseg
    show s.strings.segments.length = n / o.g.maxSize + 1
    rw [h.segments, hdiv]
    omega
  · rw [hitems]
    rfl
  · rw [hitems]
    exact h.created
  · rw [hitems] at hj
    exact h.left_cut hj

/-- A truncation that drops the last segment, which was not used, opens it again at once. -/
theorem Whole.truncate_unused_eq (h : Whole o s items) (hnum : segNum o n = s.items.segments - 1)
    (hcut : s.items.size = (s.items.segments - 1) * o.g.maxSize) (hsize : s.items.size = n)
    (hzero : n % o.g.maxSize = 0) (hunused : s.items.buffered (s.items.segments - 1) = 0) :
    s.truncate o n = some ({ s.cut o n with items := { s.items with
      lastBid := Function.update s.items.lastBid (s.items.segments - 1) 0 } }.extendStrings o) := by
  have hsegments : 0 < s.items.segments := h.items.segments ▸ Nat.succ_pos _
  have hcur : s.items.disk.curSize (s.items.segments - 1) = 0 :=
    Nat.le_zero.mp (hunused ▸ h.items.curSize_le _)
  have hitems : (s.cut o n).items = { s.items with segments := s.items.segments - 1 } := by
    show (if n % o.g.maxSize > 0 then _ else _) = _
    rw [if_neg (by omega), hnum, ← hsize]
  have hopen : segNum o n = 0 ∨
      (s.cut o n).items.buffered (segNum o n - 1) = o.g.maxSize := by
    rw [hitems, hnum]
    show _ ∨ s.items.buffered (s.items.segments - 1 - 1) = o.g.maxSize
    rw [h.items.buffered, hcut]
    show _ ∨ min o.g.maxSize _ = o.g.maxSize
    obtain hone | htwo := Nat.eq_zero_or_pos (s.items.segments - 1)
    · exact .inl hone
    · refine .inr (Nat.min_eq_left ?_)
      show o.g.maxSize ≤ (s.items.segments - 1) * o.g.maxSize -
        (s.items.segments - 1 - 1) * o.g.maxSize
      rw [← Nat.mul_sub_right_distrib]
      exact Nat.le_mul_of_pos_left _ (by omega)
  have hextend : (s.cut o n).items.extend = { s.items with
      lastBid := Function.update s.items.lastBid (s.items.segments - 1) 0 } := by
    rw [hitems, StorageManager.extend_eq hcur hunused]
    show ({ s.items with
      segments := s.items.segments - 1 + 1
      lastBid := Function.update s.items.lastBid (s.items.segments - 1) 0 } : StorageManager) = _
    rw [Nat.sub_add_cancel hsegments]
  rw [TableStorage.truncate, if_neg (by rw [hnum]; omega)]
  dsimp only
  rw [if_pos hopen, hextend]

/-- **A truncation** that drops the last segment, which was not used, and opens it again. -/
theorem Whole.truncate_unused (h : Whole o s items) (hn : n ≤ s.items.size)
    (hbase : (s.items.segments - 1) * o.g.maxSize ≤ n) (hzero : n % o.g.maxSize = 0)
    (hunused : s.items.buffered (s.items.segments - 1) = 0 ∧
      ∀ seg, s.strings.segments[s.items.segments - 1]? = some seg → seg.blockPos = [])
    (hstep : s.truncate o n = some t) : Whole o t (items.take n) := by
  obtain ⟨hcut, hdiv, hle⟩ := cut_eq h hn hbase
  obtain ⟨hindex, -, -⟩ := h.items.last
  have hsegments : 0 < s.items.segments := h.items.segments ▸ Nat.succ_pos _
  have hlength := h.segments
  have hnum : segNum o n = s.items.segments - 1 := by
    rw [segNum, hdiv, hzero, if_neg (Nat.lt_irrefl 0), Nat.add_zero]
  have hsize : s.items.size = n := by
    rw [h.items.size, ← hindex, hunused.1, hcut, hzero]
    rfl
  have htake : items.take n = items := List.take_of_length_le (by rw [← hsize, h.items.size])
  have hfull : s.items.size = (s.items.segments - 1) * o.g.maxSize := by
    rw [hzero, Nat.add_zero] at hcut
    exact hsize.trans hcut
  rw [h.truncate_unused_eq hnum hfull hsize hzero hunused.1] at hstep
  cases hstep
  rw [htake]
  have hshort : (s.strings.segments.take (segNum o n)).length = s.items.segments - 1 := by
    rw [List.length_take, hlength, hnum]
    omega
  have hlast : (s.cut o n).left (s.items.segments - 1) =
      (s.strings.segments[s.items.segments - 1]?).getD (s.left (s.items.segments - 1)) :=
    if_pos (Nat.le_of_eq hnum)
  have hempty : ((s.cut o n).left (s.items.segments - 1)).blockPos = [] := by
    rw [hlast, List.getElem?_eq_getElem (by omega), Option.getD_some]
    exact hunused.2 _ (List.getElem?_eq_getElem (by omega))
  refine ⟨h.items.sameFiles rfl fun hcached b hb => ?_, h.headed, ?_, hsize.symm, ?_,
    fun j hj => ?_⟩
  · have hcache := h.items.cache hcached b hb
    refine ⟨fun seg => ?_, hcache.bound, hcache.numbered, hcache.cells⟩
    show Function.update s.items.lastBid _ 0 seg * b.size ≤ _
    by_cases hseg : seg = s.items.segments - 1
    · rw [hseg, Function.update_self, Nat.zero_mul]
      exact Nat.zero_le _
    · rw [Function.update_of_ne hseg]
      exact hcache.lastBid seg
  · show StringStore.Sound o.strings { s.strings with
      segments := s.strings.segments.take (segNum o n) ++
        [opened o ((s.cut o n).left (s.strings.segments.take (segNum o n)).length)]
      size := n
      records := _ }
    rw [hshort]
    refine cut_strings h.strings ?_ ?_ fun j seg hseg => ?_
    · rw [List.length_append, hshort, List.length_singleton, hlength]
      omega
    · show s.strings.segments.length = n / o.g.maxSize + 1
      rw [hlength, hdiv]
      omega
    · rw [List.getElem?_append] at hseg
      split at hseg
      · rw [List.getElem?_take] at hseg
        split at hseg
        · exact .inl hseg
        · cases hseg
      next hge =>
        obtain ⟨hj, hone⟩ := List.getElem?_eq_some_iff.mp hseg
        rw [List.length_singleton] at hj
        have hindex : j = s.items.segments - 1 := by omega
        have hopened := List.mem_singleton.mp (List.mem_of_getElem? hseg)
        subst hopened
        refine .inr ⟨hempty, rfl, fun old hold => hunused.2 old (hindex ▸ hold)⟩
  · show max s.created ((s.strings.segments.take (segNum o n)).length + 1) = s.items.segments
    rw [hshort, h.created]
    omega
  · exact h.left_cut hj

/-- An event of the items is not `Add`. -/
theorem step_item {op : StorageOp} (hstep : step o (.item op) s = some t) :
    (∀ value, op ≠ .add value) ∧ ∃ new, StorageManager.step o.items op s.items = some new ∧
      t = { s with items := new } := by
  have hadd : ∀ value, op ≠ .add value := by
    rintro value rfl
    cases hstep
  have hmap : (StorageManager.step o.items op s.items).map (fun items => { s with items }) =
      some t := by
    rw [← hstep]
    cases op with
    | add value => exact absurd rfl (hadd value)
    | _ => rfl
  obtain ⟨new, hnew, heq⟩ := Option.map_eq_some_iff.mp hmap
  exact ⟨hadd, new, hnew, heq.symm⟩

theorem step_string {op : StringOp} (hstep : step o (.string op) s = some t) :
    op ≠ .add ∧ ∃ new, StringStore.step o.strings op s.strings = some new ∧
      t = { s with strings := new } := by
  have hadd : op ≠ .add := by
    rintro rfl
    cases hstep
  have hmap : (StringStore.step o.strings op s.strings).map (fun strings => { s with strings }) =
      some t := by
    rw [← hstep]
    cases op with
    | add => exact absurd rfl hadd
    | _ => rfl
  obtain ⟨new, hnew, heq⟩ := Option.map_eq_some_iff.mp hmap
  exact ⟨hadd, new, hnew, heq.symm⟩

/-- **What an event preserves.** -/
theorem Whole.step {op : TableOp} (h : Whole o s items) (hclean : Clean o op s)
    (hstep : step o op s = some t) : Whole o t (arrayStep op items) := by
  cases op with
  | add value => exact h.add hclean hstep
  | item op =>
    obtain ⟨hadd, new, hnew, rfl⟩ := step_item hstep
    exact h.item hadd hclean hnew
  | string op =>
    obtain ⟨hadd, new, hnew, rfl⟩ := step_string hstep
    exact h.string hadd hclean hnew
  | truncate n =>
    obtain ⟨hqueue, hn, hbase, hunused, hcache⟩ := hclean
    obtain hzero | hpos := Nat.eq_zero_or_pos (n % o.g.maxSize)
    · have hcut := (cut_eq h hn hbase).1
      rw [hzero] at hcut
      exact h.truncate_unused hn hbase hzero (hunused hcut) hstep
    · exact h.truncate_inside hqueue hn hbase hpos hcache hstep
  | restart =>
    cases hstep
    exact h.load hclean

end

/-- Items of two bytes, five of them in a segment. -/
def fiveItems : TableOptions where
  g := ⟨2, 5, Nat.two_pos, Nat.le_of_ble_eq_true rfl⟩
  segBlockCapacity := 4
  cached := false
  strCached := false
  segment_pos := Nat.zero_lt_succ 4

/-- Items of two bytes, one in a segment; blocks have 64 KiB. -/
def oneItem : TableOptions where
  g := ⟨2, 1, Nat.two_pos, Nat.le_of_ble_eq_true rfl⟩
  segBlockCapacity := 4
  cached := false
  strCached := false
  segment_pos := Nat.one_pos

/-- The second of two strings of 40000 bytes starts a block. -/
theorem blockPos_twice {value : Bytes} (hvalue : value.length = 40000) :
    (addString oneItem.strings value
      (addString oneItem.strings value StringStore.emptySegment)).blockPos = [0, 40000] := by
  have hfirst : ¬ StartsBlock oneItem.strings value StringStore.emptySegment := by
    show ¬ 0 + value.length ≥ 65536
    omega
  have hblocks : (addString oneItem.strings value StringStore.emptySegment).blockPos = [0] :=
    if_neg hfirst
  have hoffset : (addString oneItem.strings value StringStore.emptySegment).strOffset = 40000 := by
    show (0 + value.length) % 2 ^ 32 = 40000
    rw [hvalue]
    rfl
  have hstarted :
      startedBlocks (addString oneItem.strings value StringStore.emptySegment) = [0] := by
    rw [startedBlocks, hblocks]
    rfl
  have hsecond : StartsBlock oneItem.strings value
      (addString oneItem.strings value StringStore.emptySegment) := by
    rw [StartsBlock, inLastBlock, hoffset, hstarted, hvalue]
    decide
  rw [addString, if_pos hsecond, hstarted, hoffset]
  rfl

end TableStorage

end AwaDB
