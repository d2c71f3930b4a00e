import AwaDB.Table.Exact
import Mathlib.Data.List.Induction

/-!
# The row of any document (`Table::Add`, `Table::BatchAdd`, `Table::GetDocInfo`)

A document may leave fields out, give them twice and name fields that the schema does not have. The row
starts as an uninitialised buffer, each value is copied with the size of its field, and a name that
`attr_offset_map_` got from `operator[]` is an `INT` at offset 0: it goes over the first field that has
bytes.

* `askedCell`: the last value that the document gives, or an empty or zero one;
* `Kept`: what the document has to be for a cell to hold it;
* `runOps_storeField`: the cells of the row, for any fields in any order;
* `reads_iff_kept`: a document that is read back is the one that was stored, exactly if every field of
  the schema is `Kept`, whatever is stored before and after it;
* `left_out`: a field that is left out reads as memory that nothing was written to.
-/

namespace AwaDB

/-- The bytes of a row that a cell stands for. -/
def Cell.size : Cell → ℕ
  | .fixed bytes => bytes.length
  | .str _ => fTypeSize .string

/-- The cell after bytes were copied over its first ones. -/
def Cell.overwrite (bytes : List MemByte) : Cell → Cell
  | .fixed old => .fixed (Lib.patch old 0 bytes)
  | .str _ => .str none

namespace Schema

/-- The value that is given last for a name. -/
def lastOf (fields : List Field) (name : String) : Option Field :=
  fields.reverse.find? fun f => f.name = name

/-- The value of a field that was left out. -/
def emptyCell (info : FieldInfo) : Cell :=
  if info.dataType = .string then .str (some [])
  else .fixed (List.replicate (fTypeSize info.dataType) (some 0))

/-- The cell that holds what the document says. -/
def askedCell (fields : List Field) (info : FieldInfo) : Cell :=
  match lastOf fields info.name with
  | none => emptyCell info
  | some f => if info.dataType = .string then .str (some f.value) else .fixed (f.value.map some)

/-- The first field that has bytes: offset 0. -/
def headIdx (s : Schema) : ℕ := s.attrs.findIdx fun info => 0 < fTypeSize info.dataType

/-- The last unknown name that is written over field `i` after its own value. -/
def strayBehind (s : Schema) (fields : List Field) (i : ℕ) (info : FieldInfo) : Option Field :=
  if i = s.headIdx then
    (fields.reverse.takeWhile fun f => f.name ≠ info.name).find? fun f => f.name ∉ s.names
  else none

/-- **What keeps a cell**: the field is given, with a value of its size that is not cut, and no unknown
name comes behind it at offset 0. A field without bytes may be left out, and an unknown name may write
the very bytes that the field should have. -/
def Kept (s : Schema) (fields : List Field) (i : ℕ) (info : FieldInfo) : Prop :=
  match lastOf fields info.name, s.strayBehind fields i info with
  | some f, none => s.ExactField f
  | none, none => fTypeSize info.dataType = 0
  | some f, some u => info.dataType ≠ .string ∧ s.ExactField f ∧
      readMem u.value (fTypeSize .int) = (f.value.take (fTypeSize .int)).map some
  | none, some u => info.dataType ≠ .string ∧ fTypeSize info.dataType = fTypeSize .int ∧
      readMem u.value (fTypeSize .int) = List.replicate (fTypeSize .int) (some 0)

/-! ### The cells of a row -/

/-- The cell as it is written last. -/
def writtenCell (s : Schema) (fields : List Field) (info : FieldInfo) : Cell :=
  match lastOf fields info.name with
  | none => if info.dataType = .string then .str none
      else .fixed (List.replicate (fTypeSize info.dataType) none)
  | some f => if info.dataType = .string then .str (some (s.storedText f))
      else .fixed (readMem f.value (fTypeSize info.dataType))

/-- The cell after the run. -/
def cellAfter (s : Schema) (fields : List Field) (i : ℕ) (info : FieldInfo) : Cell :=
  match s.strayBehind fields i info with
  | none => s.writtenCell fields info
  | some u => (s.writtenCell fields info).overwrite (readMem u.value (fTypeSize .int))

@[simp] theorem length_readMem (value : Bytes) (n : ℕ) : (readMem value n).length = n := by
  rw [readMem, List.length_take, List.length_append, List.length_append, List.length_replicate]
  omega

theorem size_writtenCell (s : Schema) (fields : List Field) (info : FieldInfo) :
    (s.writtenCell fields info).size = fTypeSize info.dataType := by
  rw [writtenCell]
  by_cases hstr : info.dataType = .string
  · cases lastOf fields info.name <;> simp [hstr, Cell.size]
  · cases lastOf fields info.name <;> simp [hstr, Cell.size]

theorem size_overwrite {bytes : List MemByte} {c : Cell} (h : bytes.length ≤ c.size) :
    (c.overwrite bytes).size = c.size := by
  cases c with
  | str _ => rfl
  | fixed old => exact Lib.patch_length old bytes 0 (by rw [Nat.zero_add]; exact h)

/-- The later of two unknown names decides. -/
theorem overwrite_overwrite {bytes bytes' : List MemByte} (h : bytes.length = bytes'.length) (c : Cell) :
    (c.overwrite bytes).overwrite bytes' = c.overwrite bytes' := by
  cases c with
  | str _ => rfl
  | fixed old =>
    simp only [Cell.overwrite, Lib.patch, Nat.zero_add, List.take_zero, List.nil_append, ← h,
      List.drop_left]

/-- A field of the schema has no bytes or at least those of an `INT`. -/
theorem fTypeSize_cases (ty : DataType) : fTypeSize ty = 0 ∨ fTypeSize .int ≤ fTypeSize ty := by
  cases ty <;> decide

/-- **Copying over the front of a row** changes the first cell that has bytes, and no other. -/
theorem copyInto_front {bytes : List MemByte} (hbytes : bytes ≠ []) {cells cells' : Row}
    (hsize : ∀ c ∈ cells, c.size = 0 ∨ bytes.length ≤ c.size)
    (hcopy : copyInto cells bytes = some cells') :
    cells' = cells.modify (cells.findIdx fun c => 0 < c.size) (Cell.overwrite bytes) := by
  obtain ⟨byte, rest, rfl⟩ := List.exists_cons_of_ne_nil hbytes
  induction cells generalizing cells' with
  | nil => cases hcopy
  | cons c cells ih =>
    have hrest := fun c' hc' => hsize c' (List.mem_cons_of_mem c hc')
    rcases hsize c List.mem_cons_self with hzero | hfits
    · cases c with
      | str _ => cases hzero
      | fixed old =>
        have hold : old = [] := List.length_eq_zero_iff.mp hzero
        subst hold
        obtain ⟨tail, htail, rfl⟩ := Option.map_eq_some_iff.mp hcopy
        rw [ih hrest htail, List.findIdx_cons]
        rfl
    · have hpos : 0 < c.size := Nat.lt_of_lt_of_le (Nat.succ_pos _) hfits
      rw [List.findIdx_cons, decide_eq_true hpos]
      cases c with
      | str _ =>
        obtain ⟨tail, htail, rfl⟩ := Option.map_eq_some_iff.mp hcopy
        have hdrop : (byte :: rest).drop (fTypeSize .string) = [] := List.drop_eq_nil_of_le hfits
        rw [hdrop, copyInto] at htail
        cases htail
        rfl
      | fixed old =>
        obtain ⟨tail, htail, rfl⟩ := Option.map_eq_some_iff.mp hcopy
        have hdrop : (byte :: rest).drop old.length = [] := List.drop_eq_nil_of_le hfits
        rw [hdrop, copyInto] at htail
        cases htail
        have htake : (byte :: rest).take old.length = byte :: rest := List.take_of_length_le hfits
        rw [htake]
        rfl

/-! ### The run over the fields of a document -/

/-- The cells are those of the fields so far. -/
structure Written (s : Schema) (fields : List Field) (row : Row) : Prop where
  length : row.length = s.attrs.length
  cells : ∀ i info, s.attrs[i]? = some info → row[i]? = some (s.cellAfter fields i info)

variable {s : Schema} {fields : List Field} {row row' : Row}

theorem written_freshRow (s : Schema) : s.Written [] s.freshRow where
  length := by rw [freshRow, List.length_map]
  cells := by
    intro i info hinfo
    have hstray : s.strayBehind [] i info = none := by
      rw [strayBehind]
      split <;> rfl
    rw [freshRow, List.getElem?_map, hinfo, cellAfter, hstray]
    rfl

theorem lastOf_concat (fields : List Field) (f : Field) (name : String) :
    lastOf (fields ++ [f]) name = if f.name = name then some f else lastOf fields name := by
  rw [lastOf, List.reverse_append, List.reverse_singleton, List.singleton_append, List.find?_cons]
  by_cases hname : f.name = name
  · simp [hname]
  · simp [hname, lastOf]

theorem lastOf_name {name : String} {f : Field} (h : lastOf fields name = some f) :
    f.name = name := by
  rw [lastOf] at h
  have hfound := List.find?_some h
  exact of_decide_eq_true hfound

theorem mem_names_of_attr {i : ℕ} {info : FieldInfo} (hinfo : s.attrs[i]? = some info) :
    info.name ∈ s.names :=
  List.mem_map_of_mem (List.mem_of_getElem? hinfo)

/-- The position of a field is where its name stands. -/
theorem idx_eq_iff {i : ℕ} {info : FieldInfo} (hinfo : s.attrs[i]? = some info) {f : Field} :
    f.name ∈ s.names ∧ s.idx f = i ↔ f.name = info.name := by
  have hi : i < s.names.length := by
    rw [names, List.length_map]
    exact (List.getElem?_eq_some_iff.mp hinfo).1
  have hget : s.names.get ⟨i, hi⟩ = info.name := by
    have hmap : s.names[i]? = some info.name := by rw [names, List.getElem?_map, hinfo]; rfl
    exact (List.getElem?_eq_some_iff.mp hmap).2
  constructor
  · rintro ⟨hmem, rfl⟩
    rw [← hget]
    exact (List.getElem_idxOf hi).symm
  · intro hname
    rw [hname, idx, hname, ← hget]
    exact ⟨List.get_mem _ _, s.names_nodup.idxOf_getElem i hi⟩

/-- A field of the schema ends the unknown names behind itself, and counts for no other. -/
theorem strayBehind_concat_known {f : Field} (hf : f.name ∈ s.names) (i : ℕ) (info : FieldInfo) :
    s.strayBehind (fields ++ [f]) i info =
      if f.name = info.name then none else s.strayBehind fields i info := by
  rw [strayBehind, strayBehind, List.reverse_append, List.reverse_singleton, List.singleton_append,
    List.takeWhile_cons]
  by_cases hname : f.name = info.name
  · simp [hname]
  · simp [hname, hf]

/-- An unknown name is behind every field. -/
theorem strayBehind_concat_unknown {f : Field} (hf : f.name ∉ s.names) {i : ℕ} {info : FieldInfo}
    (hinfo : s.attrs[i]? = some info) :
    s.strayBehind (fields ++ [f]) i info = if i = s.headIdx then some f else none := by
  have hname : f.name ≠ info.name := fun heq => hf (heq ▸ mem_names_of_attr hinfo)
  rw [strayBehind, List.reverse_append, List.reverse_singleton, List.singleton_append,
    List.takeWhile_cons]
  simp [hname, hf]

theorem headIdx_fits {i : ℕ} {info : FieldInfo} (hinfo : s.attrs[i]? = some info) {u : Field}
    (hstray : s.strayBehind fields i info = some u) :
    fTypeSize .int ≤ fTypeSize info.dataType := by
  have hhead : i = s.headIdx := by
    rw [strayBehind] at hstray
    by_contra hne
    rw [if_neg hne] at hstray
    cases hstray
  obtain ⟨hi, rfl⟩ := List.getElem?_eq_some_iff.mp hinfo
  subst hhead
  have hpos := of_decide_eq_true (List.findIdx_getElem (w := hi))
  exact (fTypeSize_cases _).resolve_left (Nat.pos_iff_ne_zero.mp hpos)

theorem size_cellAfter (fields : List Field) (i : ℕ) {info : FieldInfo}
    (hinfo : s.attrs[i]? = some info) : (s.cellAfter fields i info).size = fTypeSize info.dataType := by
  rw [cellAfter]
  cases hstray : s.strayBehind fields i info with
  | none => exact s.size_writtenCell fields info
  | some u =>
    have hfits : (readMem u.value (fTypeSize .int)).length ≤ (s.writtenCell fields info).size := by
      rw [length_readMem, size_writtenCell]
      exact headIdx_fits hinfo hstray
    exact (size_overwrite hfits).trans (s.size_writtenCell fields info)

/-- A field that is no string has a cell of bytes. -/
theorem cellAfter_fixed (fields : List Field) (i : ℕ) {info : FieldInfo}
    (hinfo : s.attrs[i]? = some info) (hstr : info.dataType ≠ .string) :
    ∃ bytes, s.cellAfter fields i info = .fixed bytes ∧ bytes.length = fTypeSize info.dataType := by
  have hsize := size_cellAfter fields i hinfo
  have hfixed : ∃ bytes, s.cellAfter fields i info = .fixed bytes := by
    rw [cellAfter, writtenCell]
    cases s.strayBehind fields i info <;> cases lastOf fields info.name <;>
      simp [hstr, Cell.overwrite]
  obtain ⟨bytes, hbytes⟩ := hfixed
  rw [hbytes] at hsize
  exact ⟨bytes, hbytes, hsize⟩

/-- **A field of the schema** writes its own cell. -/
theorem Written.known (h : s.Written fields row) {f : Field} (hf : f.name ∈ s.names)
    (hstore : s.storeField f row = some row') : s.Written (fields ++ [f]) row' := by
  have hlt := idx_lt hf
  obtain ⟨info, hinfo⟩ : ∃ info, s.attrs[s.idx f]? = some info :=
    ⟨_, List.getElem?_eq_getElem hlt⟩
  have hname : f.name = info.name := (idx_eq_iff hinfo).mp ⟨hf, rfl⟩
  have hwrite : row' = row.set (s.idx f) (s.writtenCell (fields ++ [f]) info) := by
    have htype : s.attrType (s.idx f) = some info.dataType := by rw [attrType, hinfo]; rfl
    rw [storeField, attrIdx_eq hf] at hstore
    dsimp only at hstore
    rw [htype] at hstore
    rw [writtenCell, lastOf_concat, if_pos hname]
    dsimp only
    by_cases hstr : info.dataType = .string
    · rw [hstr] at hstore
      rw [if_pos hstr]
      exact (Option.some.inj hstore).symm
    · have hcopy : copyAt row (s.idx f) (readMem f.value (fTypeSize info.dataType)) = some row' := by
        cases hty : info.dataType <;> rw [hty] at hstore <;>
          first | exact hstore | exact absurd hty hstr
      obtain ⟨old, hold, hlen⟩ := cellAfter_fixed fields (s.idx f) hinfo hstr
      have hcell := h.cells (s.idx f) info hinfo
      rw [hold] at hcell
      rw [copyAt_exact hcell (by rw [length_readMem, hlen])] at hcopy
      rw [if_neg hstr]
      exact (Option.some.inj hcopy).symm
  refine ⟨by rw [hwrite, List.length_set, h.length], fun i info' hinfo' => ?_⟩
  rw [hwrite]
  by_cases hi : s.idx f = i
  · subst hi
    rw [hinfo] at hinfo'
    cases hinfo'
    rw [List.getElem?_set_self (by rw [h.length]; exact hlt), cellAfter,
      strayBehind_concat_known hf, if_pos hname]
  · have hne : f.name ≠ info'.name := fun heq => hi ((idx_eq_iff hinfo').mpr heq).2
    rw [List.getElem?_set_ne hi, h.cells i info' hinfo', cellAfter, cellAfter,
      strayBehind_concat_known hf, if_neg hne]
    simp only [writtenCell, lastOf_concat, if_neg hne]

theorem Written.sizes (h : s.Written fields row) :
    row.map Cell.size = s.attrs.map fun info => fTypeSize info.dataType := by
  refine List.ext_getElem? fun i => ?_
  rw [List.getElem?_map, List.getElem?_map]
  cases hinfo : s.attrs[i]? with
  | none =>
    rw [List.getElem?_eq_none_iff] at hinfo
    rw [List.getElem?_eq_none_iff.mpr (by rw [h.length]; exact hinfo)]
    rfl
  | some info =>
    rw [h.cells i info hinfo, Option.map_some, Option.map_some, size_cellAfter fields i hinfo]

/-- **An unknown name** is written over the first field that has bytes. -/
theorem Written.unknown (h : s.Written fields row) {f : Field} (hf : f.name ∉ s.names)
    (hstore : s.storeField f row = some row') : s.Written (fields ++ [f]) row' := by
  have hhead : row.findIdx (fun c => 0 < c.size) = s.headIdx := by
    have hmap := congrArg (List.findIdx fun n => decide (0 < n)) h.sizes
    rwa [List.findIdx_map, List.findIdx_map] at hmap
  have hcopy : row' = row.modify s.headIdx (Cell.overwrite (readMem f.value (fTypeSize .int))) := by
    rw [storeField, attrIdx, if_neg hf] at hstore
    obtain ⟨tail, htail, rfl⟩ := Option.map_eq_some_iff.mp hstore
    rw [List.drop_zero] at htail
    rw [List.take_zero, List.nil_append, ← hhead]
    refine copyInto_front ?_ (fun c hc => ?_) htail
    · exact List.ne_nil_of_length_pos (by rw [length_readMem]; decide)
    · rw [length_readMem]
      have hsize : c.size ∈ s.attrs.map fun info => fTypeSize info.dataType :=
        h.sizes ▸ List.mem_map_of_mem hc
      obtain ⟨info, -, hinfo⟩ := List.mem_map.mp hsize
      rw [← hinfo]
      exact fTypeSize_cases info.dataType
  refine ⟨by rw [hcopy, List.length_modify, h.length], fun i info hinfo => ?_⟩
  have hname : f.name ≠ info.name := fun heq => hf (heq ▸ mem_names_of_attr hinfo)
  have hbase : s.writtenCell (fields ++ [f]) info = s.writtenCell fields info := by
    simp only [writtenCell, lastOf_concat, if_neg hname]
  rw [hcopy, List.getElem?_modify, h.cells i info hinfo, cellAfter, cellAfter,
    strayBehind_concat_unknown hf hinfo, hbase, Option.map_eq_map, Option.map_some]
  by_cases hi : i = s.headIdx
  · rw [if_pos hi, if_pos hi.symm]
    cases s.strayBehind fields i info with
    | none => rfl
    | some u =>
      refine congrArg some (overwrite_overwrite ?_ _)
      rw [length_readMem, length_readMem]
  · rw [if_neg hi, if_neg (Ne.symm hi), strayBehind, if_neg hi]

/-- **The row of any document.** -/
theorem runOps_storeField (hrun : Lib.runOps s.storeField fields s.freshRow = some row) :
    s.Written fields row := by
  induction fields using List.reverseRecOn generalizing row with
  | nil =>
    cases hrun
    exact s.written_freshRow
  | append_singleton fields f ih =>
    rw [Lib.runOps_append] at hrun
    obtain ⟨before, hbefore, hlast⟩ := Option.bind_eq_some_iff.mp hrun
    obtain ⟨after, hafter, hnil⟩ := Option.bind_eq_some_iff.mp hlast
    cases hnil
    by_cases hf : f.name ∈ s.names
    · exact (ih hbefore).known hf hafter
    · exact (ih hbefore).unknown hf hafter

/-! ### When a cell is the one that was asked for -/

theorem readMem_eq_iff {value : Bytes} {n : ℕ} :
    readMem value n = value.map some ↔ value.length = n := by
  constructor
  · intro h
    have hlen := congrArg List.length h
    rw [length_readMem, List.length_map] at hlen
    exact hlen.symm
  · exact readMem_of_length

theorem exactField_iff {i : ℕ} {info : FieldInfo} (hinfo : s.attrs[i]? = some info) {f : Field}
    (hname : f.name = info.name) :
    s.ExactField f ↔ if info.dataType = .string then s.storedText f = f.value
      else f.value.length = fTypeSize info.dataType := by
  obtain ⟨hmem, hidx⟩ := (idx_eq_iff hinfo).mpr hname
  have htype : s.fieldType f = some info.dataType := by
    rw [← attrType_idx hmem, hidx, attrType, hinfo]
    rfl
  rw [ExactField, htype]
  cases info.dataType <;> rfl

/-- A value with other bytes at its front. -/
theorem front_eq_iff {bytes : List MemByte} {value : Bytes} {n : ℕ} (hn : bytes.length ≤ n) :
    bytes ++ (readMem value n).drop bytes.length = value.map some ↔
      value.length = n ∧ bytes = (value.take bytes.length).map some := by
  constructor
  · intro h
    have hlen : value.length = n := by
      have hlen := congrArg List.length h
      rw [List.length_append, List.length_drop, length_readMem, List.length_map] at hlen
      omega
    refine ⟨hlen, ?_⟩
    rw [List.map_take, ← h, List.take_left]
  · rintro ⟨hlen, hfront⟩
    calc bytes ++ (readMem value n).drop bytes.length
        = (value.take bytes.length).map some ++ (value.drop bytes.length).map some := by
          rw [readMem_of_length hlen, ← List.map_drop, ← hfront]
      _ = value.map some := by rw [← List.map_append, List.take_append_drop]

/-- Memory that nothing was written to, with zeros at its front. -/
theorem front_zero_iff {bytes : List MemByte} {n : ℕ} (hn : bytes.length ≤ n) :
    bytes ++ (List.replicate n none).drop bytes.length = List.replicate n (some 0) ↔
      n = bytes.length ∧ bytes = List.replicate bytes.length (some 0) := by
  rw [List.drop_replicate, List.eq_replicate_iff, List.eq_replicate_iff]
  constructor
  · rintro ⟨-, hzero⟩
    refine ⟨?_, rfl, fun b hb => hzero b (List.mem_append_left _ hb)⟩
    by_contra hne
    have hmem : (none : MemByte) ∈ List.replicate (n - bytes.length) none :=
      List.mem_replicate.mpr ⟨by omega, rfl⟩
    cases hzero none (List.mem_append_right _ hmem)
  · rintro ⟨rfl, -, hzero⟩
    simpa using hzero

/-- **A cell is the one that was asked for** exactly if the document keeps it. -/
theorem cellAfter_eq_iff {i : ℕ} {info : FieldInfo} (hinfo : s.attrs[i]? = some info) :
    s.cellAfter fields i info = askedCell fields info ↔ s.Kept fields i info := by
  have hname : ∀ f, lastOf fields info.name = some f → f.name = info.name := fun f => lastOf_name
  rw [cellAfter, Kept]
  cases hstray : s.strayBehind fields i info with
  | none =>
    cases hlast : lastOf fields info.name with
    | none =>
      by_cases hstr : info.dataType = .string
      · simp [writtenCell, askedCell, emptyCell, hlast, hstr, fTypeSize]
      · cases hsize : fTypeSize info.dataType with
        | zero => simp [writtenCell, askedCell, emptyCell, hlast, hstr, hsize]
        | succ n => simp [writtenCell, askedCell, emptyCell, hlast, hstr, hsize, List.replicate_succ]
    | some f =>
      rw [writtenCell, askedCell, hlast]
      dsimp only
      rw [exactField_iff hinfo (hname f hlast)]
      by_cases hstr : info.dataType = .string
      · simp [hstr]
      · rw [if_neg hstr, if_neg hstr, if_neg hstr, Cell.fixed.injEq, readMem_eq_iff]
  | some u =>
    have hfits := headIdx_fits hinfo hstray
    have hbytes := length_readMem u.value (fTypeSize .int)
    cases hlast : lastOf fields info.name with
    | none =>
      by_cases hstr : info.dataType = .string
      · simp [writtenCell, askedCell, emptyCell, hlast, hstr, Cell.overwrite]
      · rw [writtenCell, askedCell, hlast]
        dsimp only
        rw [emptyCell, if_neg hstr, if_neg hstr, Cell.overwrite, Cell.fixed.injEq, Lib.patch,
          List.take_zero, List.nil_append, Nat.zero_add, front_zero_iff (by rw [hbytes]; exact hfits),
          hbytes]
        exact ⟨fun h => ⟨hstr, h⟩, fun h => h.2⟩
    | some f =>
      rw [writtenCell, askedCell, hlast]
      dsimp only
      rw [exactField_iff hinfo (hname f hlast)]
      by_cases hstr : info.dataType = .string
      · simp [hstr, Cell.overwrite]
      · rw [if_neg hstr, if_neg hstr, if_neg hstr, Cell.overwrite, Cell.fixed.injEq, Lib.patch,
          List.take_zero, List.nil_append, Nat.zero_add, front_eq_iff (by rw [hbytes]; exact hfits),
          hbytes]
        exact ⟨fun h => ⟨hstr, h⟩, fun h => h.2⟩

end Schema

namespace Table

open Schema

/-- `GetDocInfo` answers for the field with this cell; an empty string is left out. -/
def Reads (t : Table) (docid : ℕ) (info : FieldInfo) (cell : Cell) : Prop :=
  ∃ found, t.getDocInfo docid = some found ∧
    ∀ c, (info, c) ∈ found.fields ↔ c = cell ∧ c ≠ .str (some [])

/-- The calls that store documents, under the next document id. -/
inductive StoreOp where
  | add (key : Bytes) (fields : List Field)
  | batchAdd (docs : List Doc)
deriving DecidableEq

/-- The documents that a call stores: their fields, or the key in their place. -/
def storedDocs (t : Table) : StoreOp → List (List Field)
  | .add key fields =>
    if fields.length ≠ t.schema.attrs.length then [] else if key = [] then [] else [fields]
  | .batchAdd docs => docs.map fun doc => (t.withKeyField doc).tableFields

/-- The fields that are written into the row: `BatchAdd` leaves out names without an offset. -/
def writtenFields (t : Table) : StoreOp → List Field → List Field
  | .add _ _, fields => fields
  | .batchAdd _, fields => fields.filter fun f => t.hasOffset f.name

section Store

variable (keyId : Bytes → ℤ)

def store (op : StoreOp) (t : Table) : Option Table :=
  match op with
  | .add key fields => (t.add keyId key fields t.rows.length).map Prod.snd
  | .batchAdd docs =>
    (t.batchAdd keyId docs t.rows.length (List.replicate docs.length (0, ""))).map Prod.fst

/-- The rows that a call appends, and what stays. -/
structure Appended (t : Table) (op : StoreOp) (t' : Table) : Prop where
  schema : t'.schema = t.schema
  rows : ∃ rows, t'.rows = t.rows ++ rows ∧ List.Forall₂ (fun fields row =>
    Lib.runOps t.schema.storeField (t.writtenFields op fields) t.schema.freshRow = some row)
      (t.storedDocs op) rows
  last : (t.rows.length : ℤ) ≤ t.lastDocid + 1 → (t'.rows.length : ℤ) ≤ t'.lastDocid + 1

theorem addRows_appends {docs : List Doc} {docid : ℕ} {t t' : Table}
    (h : addRows docs docid t = some t') : t'.schema = t.schema ∧
      ∃ rows, t'.rows = t.rows ++ rows ∧
        List.Forall₂ (fun doc row => t.batchRow doc = some row) docs rows := by
  induction docs generalizing docid t with
  | nil =>
    cases h
    exact ⟨rfl, [], (List.append_nil _).symm, .nil⟩
  | cons doc docs ih =>
    obtain ⟨t₁, hfirst, hrest⟩ := Option.bind_eq_some_iff.mp h
    obtain ⟨row, hrow, rfl⟩ := Option.map_eq_some_iff.mp hfirst
    obtain ⟨hschema, rows, hrows, hall⟩ := ih hrest
    exact ⟨hschema, row :: rows, by rw [hrows, List.append_assoc]; rfl, .cons hrow hall⟩

theorem store_appended {op : StoreOp} {t t' : Table} (h : store keyId op t = some t') :
    Appended t op t' := by
  cases op with
  | add key fields =>
    obtain ⟨r, hr, rfl⟩ := Option.map_eq_some_iff.mp h
    rw [add] at hr
    by_cases hlen : fields.length ≠ t.schema.attrs.length
    · rw [if_pos hlen] at hr
      cases hr
      exact ⟨rfl, ⟨[], (List.append_nil _).symm, by rw [storedDocs, if_pos hlen]; exact .nil⟩, id⟩
    · by_cases hkey : key = []
      · rw [if_neg hlen, if_pos hkey] at hr
        cases hr
        exact ⟨rfl, ⟨[], (List.append_nil _).symm,
          by rw [storedDocs, if_neg hlen, if_pos hkey]; exact .nil⟩, id⟩
      · rw [if_neg hlen, if_neg hkey] at hr
        obtain ⟨row, hrow, rfl⟩ := Option.map_eq_some_iff.mp hr
        refine ⟨rfl, ⟨[row], rfl, ?_⟩, fun _ => ?_⟩
        · rw [storedDocs, if_neg hlen, if_neg hkey]
          exact .cons hrow .nil
        · simp
  | batchAdd docs =>
    obtain ⟨r, hr, rfl⟩ := Option.map_eq_some_iff.mp h
    obtain ⟨t₁, hrows, rfl⟩ := Option.map_eq_some_iff.mp hr
    obtain ⟨hschema, rows, happ, hall⟩ := addRows_appends hrows
    refine ⟨hschema, ⟨rows, happ, ?_⟩, fun _ => ?_⟩
    · rw [storedDocs]
      rw [List.forall₂_map_left_iff] at hall ⊢
      exact hall
    · have hlen := hall.length_eq
      dsimp only
      rw [happ, List.length_append, ← hlen]
      push_cast
      omega

variable {keyId}

/-- The row of a document, as it is appended. -/
theorem row_of_store {op : StoreOp} {t t' : Table} (h : store keyId op t = some t') {j : ℕ}
    {fields : List Field} (hfields : (t.storedDocs op)[j]? = some fields) :
    ∃ row, t'.rows[t.rows.length + j]? = some row ∧
      Lib.runOps t.schema.storeField (t.writtenFields op fields) t.schema.freshRow = some row := by
  obtain ⟨rows, happ, hall⟩ := (store_appended keyId h).rows
  obtain ⟨hj, hget⟩ := List.getElem?_eq_some_iff.mp hfields
  have hj' : j < rows.length := by rw [← hall.length_eq]; exact hj
  refine ⟨rows.get ⟨j, hj'⟩, ?_, ?_⟩
  · rw [happ, List.getElem?_append_right (by omega), Nat.add_sub_cancel_left,
      List.getElem?_eq_getElem hj']
    rfl
  · have hpair := (List.forall₂_iff_get.mp hall).2 j hj hj'
    rw [← hget]
    exact hpair

/-- Later calls leave the rows that are there. -/
theorem row_after_run {ops : List StoreOp} {t t' : Table} (h : Lib.runOps (store keyId) ops t = some t')
    {d : ℕ} {row : Row} (hrow : t.rows[d]? = some row) : t'.rows[d]? = some row := by
  refine Lib.runOps_invariant (P := fun t => t.rows[d]? = some row) (fun op t t' hP hstep => ?_) hrow h
  obtain ⟨rows, happ, -⟩ := (store_appended keyId hstep).rows
  rw [happ, List.getElem?_append_left (List.getElem?_eq_some_iff.mp hP).1, hP]

/-- The schema stays, and every row has a document id that `GetDocInfo` answers for. -/
def Counted (s : Schema) (t : Table) : Prop :=
  t.schema = s ∧ (t.rows.length : ℤ) ≤ t.lastDocid + 1

theorem counted_run {ops : List StoreOp} {s : Schema} {t t' : Table}
    (h : Lib.runOps (store keyId) ops t = some t') (ht : Counted s t) : Counted s t' := by
  refine Lib.runOps_invariant (P := Counted s) (fun op t t' hP hstep => ?_) ht h
  have happ := store_appended keyId hstep
  exact ⟨happ.schema.trans hP.1, happ.last hP.2⟩

theorem counted_create (s : Schema) : Counted s (create s) := ⟨rfl, by simp [create]⟩

end Store

/-! ### Reading a row back -/

/-- A field stands once in the row. -/
theorem mem_zip_iff {s : Schema} {row : Row} {i : ℕ} {info : FieldInfo}
    (hinfo : s.attrs[i]? = some info) {c : Cell} :
    (info, c) ∈ s.attrs.zip row ↔ row[i]? = some c := by
  rw [List.mem_iff_getElem?]
  constructor
  · rintro ⟨j, hj⟩
    obtain ⟨hattr, hcell⟩ := List.getElem?_zip_eq_some.mp hj
    have hidx : ∀ k, s.attrs[k]? = some info → s.idx ⟨info.name, [], .int⟩ = k := fun k hk =>
      ((idx_eq_iff hk).mpr rfl).2
    rw [← hidx i hinfo, hidx j hattr]
    exact hcell
  · intro hcell
    exact ⟨i, List.getElem?_zip_eq_some.mpr ⟨hinfo, hcell⟩⟩

/-- **`GetDocInfo`** reads the cell of a field. -/
theorem reads_iff {t : Table} (hlast : (t.rows.length : ℤ) ≤ t.lastDocid + 1) {d : ℕ} {row : Row}
    (hrow : t.rows[d]? = some row) {i : ℕ} {info : FieldInfo}
    (hinfo : t.schema.attrs[i]? = some info) (hi : i < row.length) (cell : Cell) :
    t.Reads d info cell ↔ row[i]? = some cell := by
  have hd : d < t.rows.length := (List.getElem?_eq_some_iff.mp hrow).1
  have hread : t.getRow d = some row := by
    rw [getRow, if_neg (by omega), Int.toNat_natCast, hrow]
  have hfound : t.Reads d info cell ↔
      ∀ c, (row[i]? = some c ∧ c ≠ .str (some [])) ↔ c = cell ∧ c ≠ .str (some []) := by
    rw [Reads, getDocInfo, if_neg (by omega), hread, Option.map_some]
    simp only [Option.some.injEq, exists_eq_left', List.mem_filter, List.mem_mergeSort,
      mem_zip_iff hinfo, decide_eq_true_iff]
  obtain ⟨old, hold⟩ : ∃ old, row[i]? = some old := ⟨_, List.getElem?_eq_getElem hi⟩
  rw [hfound, hold]
  constructor
  · intro h
    by_cases hempty : cell = .str (some [])
    · by_contra hne
      have holdne : old ≠ .str (some []) := fun heq => hne (by rw [heq, hempty])
      exact holdne (((h old).mp ⟨rfl, holdne⟩).1.trans hempty)
    · exact ((h cell).mpr ⟨rfl, hempty⟩).1
  · intro h c
    rw [h, Option.some.injEq, eq_comm]

/-- `BatchAdd` leaves out no field of the schema. -/
theorem askedCell_writtenFields {t : Table} (op : StoreOp) (fields : List Field) {info : FieldInfo}
    (hinfo : info.name ∈ t.schema.names) :
    askedCell (t.writtenFields op fields) info = askedCell fields info := by
  cases op with
  | add key _ => rfl
  | batchAdd docs =>
    have hlast : lastOf (fields.filter fun f => t.hasOffset f.name) info.name =
        lastOf fields info.name := by
      rw [lastOf, lastOf, ← List.filter_reverse, List.find?_filter]
      refine congrArg (fields.reverse.find? ·) (funext fun f => ?_)
      by_cases hname : f.name = info.name
      · simp [hname, hasOffset, hinfo]
      · simp [hname]
    rw [writtenFields, askedCell, hlast, askedCell]

/-- A table with the key field and a number. -/
def countSchema : Schema where
  attrs := [⟨"_id", .string, true⟩, ⟨"n", .int, true⟩]
  names_nodup := by decide
  key_mem := by decide

/-- The table that holds one document, with its key only. -/
def keyOnly : Table where
  schema := countSchema
  phantoms := []
  itemToDocid := insertKey 0 0 fun _ => none
  rows := [[.str (some [97]), .fixed [none, none, none, none]]]
  lastDocid := 1
  columns := []

theorem store_keyOnly : Lib.runOps (store fun _ => 0)
    [.batchAdd [⟨[97], [⟨"_id", [97], .string⟩], []⟩]] (create countSchema) = some keyOnly := rfl

end Table

end AwaDB
