import AwaDB.Table.UpdateFrame

/-!
# The limit of a string (`Table::CheckStrLen` and its callers)

The length of a string is put into 16 bits before `CheckStrLen` compares it with the limit, in
`Table::Add`, `Table::BatchAdd` and `Table::Update`; the string column has 16 bits and no comparison.

* `LimitKept`: the length fits, or what is left of it is not below the limit;
* `string_limit_iff`: a writer stores the string cut to the limit exactly when its length is kept.
-/

namespace AwaDB

namespace Schema

variable {s : Schema} {f : Field}

/-- The limit that `CheckStrLen` enforces for a field. -/
def strLimit (s : Schema) (name : String) : ℕ :=
  if s.attrs.any fun info => info.name = name ∧ info.isIndex then strMaxIndexLen else maxStringLen

/-- The string cut to the limit. -/
def cut (s : Schema) (f : Field) : Bytes := f.value.take (s.strLimit f.name)

/-- The length is below `2 ^ 16`, or its low 16 bits are not below the limit. -/
def LimitKept (s : Schema) (f : Field) : Prop :=
  f.value.length < 2 ^ 16 ∨ s.strLimit f.name ≤ f.value.length % 2 ^ 16

theorem strLimit_le (s : Schema) (name : String) : s.strLimit name < 2 ^ 16 := by
  unfold strLimit
  split <;> decide

theorem checkStrLen_eq (s : Schema) (name : String) (len : ℕ) :
    s.checkStrLen name len = min len (s.strLimit name) := by
  unfold checkStrLen strLimit
  have hlimits : strMaxIndexLen < maxStringLen := by decide
  cases hindex : s.attrs.any fun info => info.name = name ∧ info.isIndex with
  | true =>
    by_cases hlen : len > strMaxIndexLen
    · simp only [hlen, decide_true, Bool.and_self, if_true]
      rw [if_neg (by omega)]
      omega
    · simp only [hlen, decide_false, Bool.false_and, Bool.false_eq_true, if_false, if_true]
      rw [if_neg (by omega)]
      omega
  | false =>
    simp only [Bool.and_false, Bool.false_eq_true, if_false]
    split <;> omega

/-- The text that is stored is the cut string. -/
theorem storedText_eq_cut_iff : s.storedText f = s.cut f ↔ s.LimitKept f := by
  have hlimit := strLimit_le s f.name
  unfold storedText cut LimitKept
  rw [checkStrLen_eq, List.take_eq_take_iff]
  omega

/-- The string column, for a field that the schema does not have. -/
theorem columnValue_eq_cut_iff (hmem : f.name ∉ s.names) :
    columnValue .string f.value = some ((s.cut f).map some) ↔ s.LimitKept f := by
  have hlimit : s.strLimit f.name = maxStringLen := by
    refine if_neg fun hany => hmem ?_
    obtain ⟨info, hinfo, hname⟩ := List.any_eq_true.mp hany
    exact List.mem_map.mpr ⟨info, hinfo, (of_decide_eq_true hname).1⟩
  have hinj : Function.Injective (List.map (some : UInt8 → MemByte)) :=
    List.map_injective_iff.mpr (Option.some_injective _)
  unfold columnValue cut LimitKept
  rw [hlimit]
  show some _ = some _ ↔ _
  rw [Option.some.injEq, hinj.eq_iff, List.take_eq_take_iff]
  unfold maxStringLen
  omega

end Schema

/-! ### Later values of the same update -/

/-- Copying keeps the sizes of the cells. -/
theorem copyInto_sizes {cells cells' : Row} {bytes : List MemByte}
    (h : copyInto cells bytes = some cells') : cells'.map Cell.size = cells.map Cell.size := by
  have hsize : Cell.size = (fun width => width.getD (fTypeSize .string)) ∘ Cell.width := by
    funext c
    cases c <;> rfl
  rw [hsize, ← List.map_map, copyInto_width h, List.map_map]

theorem copyAt_sizes {row row' : Row} {i : ℕ} {bytes : List MemByte}
    (h : copyAt row i bytes = some row') : row'.map Cell.size = row.map Cell.size := by
  obtain ⟨cells, hcells, rfl⟩ := Option.map_eq_some_iff.mp h
  rw [List.map_append, copyInto_sizes hcells, ← List.map_append, List.take_append_drop]

/-- A copy that does not run over its cell leaves the others. -/
theorem copyAt_within {row row' : Row} {i k : ℕ} {c : Cell} {bytes : List MemByte}
    (hcell : row[i]? = some c) (hlen : bytes.length ≤ c.size) (h : copyAt row i bytes = some row')
    (hk : k ≠ i) : row'[k]? = row[k]? := by
  obtain ⟨hi, hget⟩ := List.getElem?_eq_some_iff.mp hcell
  have hdrop : row.drop i = c :: row.drop (i + 1) := by
    rw [List.drop_eq_getElem_cons hi, hget]
  have hset : ∀ c', row.take i ++ c' :: row.drop (i + 1) = row.set i c' := fun c' =>
    (List.set_eq_take_append_cons_drop.trans (if_pos hi)).symm
  cases bytes with
  | nil =>
    rw [copyAt_nil] at h
    cases h
    rfl
  | cons byte rest =>
    rw [copyAt, hdrop] at h
    obtain ⟨cells, hcells, rfl⟩ := Option.map_eq_some_iff.mp h
    have hnil : (byte :: rest).drop c.size = [] := List.drop_eq_nil_of_le hlen
    cases c with
    | fixed old =>
      obtain ⟨tail, htail, rfl⟩ := Option.map_eq_some_iff.mp hcells
      have hnil' : (byte :: rest).drop old.length = [] := hnil
      rw [hnil', copyInto] at htail
      cases htail
      rw [hset, List.getElem?_set_ne (Ne.symm hk)]
    | str text =>
      obtain ⟨tail, htail, rfl⟩ := Option.map_eq_some_iff.mp hcells
      have hnil' : (byte :: rest).drop (fTypeSize .string) = [] := hnil
      rw [hnil', copyInto] at htail
      cases htail
      rw [hset, List.getElem?_set_ne (Ne.symm hk)]

namespace Schema

variable {s : Schema} {row row' : Row} {f : Field}

/-- The cells have the sizes of the schema. -/
def Sized (s : Schema) (row : Row) : Prop :=
  row.map Cell.size = s.attrs.map fun info => fTypeSize info.dataType

/-- The value stays beside cell `i`: it is for another field, and not longer than that, or for none. -/
def Beside (s : Schema) (i : ℕ) (f : Field) : Prop :=
  f.name ∈ s.names → s.idx f ≠ i ∧
    (f.datatype = .string ∨ ∃ ty, s.fieldType f = some ty ∧ f.value.length ≤ fTypeSize ty)

theorem Sized.length (h : s.Sized row) : row.length = s.attrs.length := by
  have hlen := congrArg List.length h
  rwa [List.length_map, List.length_map] at hlen

theorem Sized.cell (h : s.Sized row) {ty : DataType} (hty : s.fieldType f = some ty) :
    ∃ c, row[s.idx f]? = some c ∧ c.size = fTypeSize ty := by
  have hmem := mem_of_fieldType hty
  have hlt : s.idx f < row.length := by
    rw [h.length]
    exact idx_lt hmem
  refine ⟨row[s.idx f], List.getElem?_eq_getElem hlt, ?_⟩
  have hat := congrArg (·[s.idx f]?) h
  rw [List.getElem?_map, List.getElem?_eq_getElem hlt, List.getElem?_map] at hat
  rw [← attrType_idx hmem, attrType] at hty
  obtain ⟨info, hinfo, rfl⟩ := Option.map_eq_some_iff.mp hty
  rw [hinfo] at hat
  exact Option.some.inj hat

/-- One value of an update keeps the sizes, and the cells that it stays beside. -/
theorem Sized.updateField (h : s.Sized row) (hupdate : s.updateField f row = some row') :
    s.Sized row' ∧ ∀ i, s.Beside i f → row'[i]? = row[i]? := by
  by_cases hmem : f.name ∈ s.names
  · rw [Schema.updateField, attrIdx_eq hmem] at hupdate
    dsimp only at hupdate
    split at hupdate
    · split at hupdate
      · rename_i text htext
        cases hupdate
        obtain ⟨hlt, hget⟩ := List.getElem?_eq_some_iff.mp htext
        refine ⟨?_, fun i hi => List.getElem?_set_ne (hi hmem).1⟩
        unfold Sized at h ⊢
        have hlt' : s.idx f < (row.map Cell.size).length := by rw [List.length_map]; exact hlt
        have hsame : Cell.size (.str (some (s.storedText f))) = (row.map Cell.size)[s.idx f] := by
          rw [List.getElem_map, hget]
          rfl
        rw [List.map_set, hsame, List.set_getElem_self]
        exact h
      · cases hupdate
    · rename_i htype
      refine ⟨(copyAt_sizes hupdate).trans h, fun i hi => ?_⟩
      obtain ⟨hne, hsize⟩ := hi hmem
      obtain ⟨ty, hty, hlen⟩ := hsize.resolve_left htype
      obtain ⟨c, hc, hcsize⟩ := h.cell hty
      exact copyAt_within hc (by rw [List.length_map, hcsize]; exact hlen) hupdate (Ne.symm hne)
  · rw [Schema.updateField, attrIdx, if_neg hmem] at hupdate
    cases hupdate
    exact ⟨h, fun _ _ => rfl⟩

/-- The values that follow. -/
theorem Sized.updateFields {fields : List Field} (h : s.Sized row)
    (hrun : Lib.runOps s.updateField fields row = some row') :
    s.Sized row' ∧ ∀ i, (∀ f ∈ fields, s.Beside i f) → row'[i]? = row[i]? := by
  induction fields generalizing row with
  | nil =>
    cases hrun
    exact ⟨h, fun _ _ => rfl⟩
  | cons f fields ih =>
    obtain ⟨row₁, hfirst, hrest⟩ := Option.bind_eq_some_iff.mp hrun
    obtain ⟨hsized, hcell⟩ := h.updateField hfirst
    obtain ⟨hsized', hcells⟩ := ih hsized hrest
    refine ⟨hsized', fun i hi => ?_⟩
    rw [hcells i fun g hg => hi g (List.mem_cons_of_mem f hg), hcell i (hi f List.mem_cons_self)]

end Schema

/-! ### The writers -/

namespace Table

open Schema

/-- What the two functions that add documents store. -/
theorem store_limit (keyId : Bytes → ℤ) {op : StoreOp} {t t' : Table}
    (hstore : store keyId op t = some t') {k : ℕ} {fields : List Field}
    (hfields : (t.storedDocs op)[k]? = some fields) {i : ℕ} {info : FieldInfo}
    (hinfo : t.schema.attrs[i]? = some info) (hstr : info.dataType = .string) {f : Field}
    (hlast : lastOf (t.writtenFields op fields) info.name = some f) :
    t'.getFieldRawValue ((t.rows.length + k : ℕ) : ℤ) i = some (.str (some (t.schema.cut f))) ↔
      t.schema.LimitKept f ∧ t.schema.strayBehind (t.writtenFields op fields) i info = none := by
  obtain ⟨row, hrow, hrun⟩ := row_of_store hstore hfields
  have hneg : ¬ ((t.rows.length + k : ℕ) : ℤ) < 0 := by omega
  rw [getFieldRawValue, getRow, if_neg hneg, Int.toNat_natCast, hrow, Option.bind_some,
    (runOps_storeField hrun).cells i info hinfo, Option.some.injEq, cellAfter, writtenCell, hlast]
  dsimp only
  rw [if_pos hstr]
  cases t.schema.strayBehind (t.writtenFields op fields) i info with
  | none =>
    rw [Cell.str.injEq, Option.some.injEq, storedText_eq_cut_iff]
    exact (and_iff_left rfl).symm
  | some u =>
    constructor
    · intro h
      cases h
    · intro h
      cases h.2

/-- What an update stores. -/
theorem update_limit {t t' : Table} {d : ℕ} {row : Row} (hrow : t.rows[d]? = some row)
    (hsized : t.schema.Sized row) {before after : List Field} {f : Field}
    (hupdate : t.update (before ++ f :: after) d = some t')
    (hmem : f.name ∈ t.schema.names) (hstr : f.datatype = .string)
    (hafter : ∀ g ∈ after, t.schema.Beside (t.schema.idx f) g) :
    t'.getFieldRawValue d (t.schema.idx f) = some (.str (some (t.schema.cut f))) ↔
      t.schema.LimitKept f := by
  rw [update_eq hrow] at hupdate
  obtain ⟨row', hrun, rfl⟩ := Option.map_eq_some_iff.mp hupdate
  rw [Lib.runOps_append] at hrun
  obtain ⟨row₁, hbefore, hrest⟩ := Option.bind_eq_some_iff.mp hrun
  obtain ⟨row₂, hfirst, hafter'⟩ := Option.bind_eq_some_iff.mp hrest
  obtain ⟨hsized₁, -⟩ := hsized.updateFields hbefore
  obtain ⟨hsized₂, -⟩ := hsized₁.updateField hfirst
  obtain ⟨-, hcells⟩ := hsized₂.updateFields hafter'
  have hcell : row₂[t.schema.idx f]? = some (.str (some (t.schema.storedText f))) := by
    rw [Schema.updateField, attrIdx_eq hmem] at hfirst
    dsimp only at hfirst
    rw [if_pos hstr] at hfirst
    split at hfirst
    · rename_i text htext
      cases hfirst
      exact List.getElem?_set_self (List.getElem?_eq_some_iff.mp htext).1
    · cases hfirst
  have hneg : ¬ (d : ℤ) < 0 := by omega
  have hd : d < t.rows.length := (List.getElem?_eq_some_iff.mp hrow).1
  rw [getFieldRawValue, getRow, if_neg hneg, Int.toNat_natCast, List.getElem?_set_self hd,
    Option.bind_some, hcells _ hafter, hcell, Option.some.injEq, Cell.str.injEq, Option.some.injEq,
    storedText_eq_cut_iff]

end Table

namespace DocidFieldsMgr

theorem putFields_extends {m : DocidFieldsMgr} {fields : List Field}
    {values : String → List (List MemByte)} {r : (String → List (List MemByte)) × List (ℕ × ℕ)}
    (h : m.putFields fields values = some r) : Extends values r.1 := by
  induction fields generalizing values r with
  | nil =>
    cases h
    exact Extends.refl _
  | cons g fields ih =>
    rw [putFields] at h
    split at h
    · exact ih h
    · split at h
      · obtain ⟨r', hr', rfl⟩ := Option.map_eq_some_iff.mp h
        have hext := ih hr'
        exact hext
      · split at h
        · cases h
        · obtain ⟨r', hr', rfl⟩ := Option.map_eq_some_iff.mp h
          have hext := ih hr'
          exact (extends_append values g.name _).trans hext

/-- The first value for a column is put behind those that it has. -/
theorem putFields_column {m : DocidFieldsMgr} {before after : List Field} {f : Field} {c : ColumnField}
    (hc : m.fields f.name = some c) {v : List MemByte} (hkind : columnKind f.datatype ≠ none)
    (hv : columnValue c.dataType f.value = some v) (hbefore : f.name ∉ before.map Field.name)
    {values : String → List (List MemByte)} {r : (String → List (List MemByte)) × List (ℕ × ℕ)}
    (h : m.putFields (before ++ f :: after) values = some r) :
    (r.1 f.name)[(values f.name).length]? = some v := by
  induction before generalizing values r with
  | nil =>
    rw [List.nil_append, putFields, hc] at h
    dsimp only at h
    cases htype : columnKind f.datatype with
    | none => exact absurd htype hkind
    | some kind =>
      rw [htype] at h
      dsimp only at h
      split at h
      · cases h
      · obtain ⟨r', hr', rfl⟩ := Option.map_eq_some_iff.mp h
        apply putFields_extends hr' _ _ _
        rw [Function.update_self, hv]
        exact List.getElem?_concat_length
  | cons g before ih =>
    obtain ⟨hne, hbefore⟩ := not_or.mp (List.mem_cons.not.mp hbefore)
    rw [List.cons_append, putFields] at h
    cases hg : m.fields g.name with
    | none =>
      rw [hg] at h
      exact ih hbefore h
    | some cg =>
      rw [hg] at h
      dsimp only at h
      split at h
      · obtain ⟨r', hr', rfl⟩ := Option.map_eq_some_iff.mp h
        have hput := ih hbefore hr'
        exact hput
      · split at h
        · cases h
        · obtain ⟨r', hr', rfl⟩ := Option.map_eq_some_iff.mp h
          have hput := ih hbefore hr'
          rwa [Function.update_of_ne hne] at hput

/-- What the string column stores. -/
theorem put_limit {m m' : DocidFieldsMgr} {docid : ℕ} {s : Schema} {before after : List Field}
    {f : Field} {c : ColumnField} (hput : m.put docid (before ++ f :: after) = some m')
    (hc : m.fields f.name = some c) (hstr : c.dataType = .string) (htype : f.datatype = .string)
    (hbefore : f.name ∉ before.map Field.name) (hmem : f.name ∉ s.names) :
    (m'.values f.name)[(m.values f.name).length]? = some ((s.cut f).map some) ↔ s.LimitKept f := by
  obtain ⟨r, hr, rfl⟩ := Option.map_eq_some_iff.mp hput
  have hcolumn : columnValue c.dataType f.value =
      some ((f.value.take (f.value.length % 2 ^ 16)).map some) := by
    rw [hstr]
    rfl
  have hvalue := putFields_column hc (by rw [htype]; exact fun h => by cases h) hcolumn hbefore hr
  rw [← Schema.columnValue_eq_cut_iff hmem, ← hstr, hcolumn]
  exact Eq.congr_left hvalue

end DocidFieldsMgr

namespace Table

open Schema

/-- A table with the key and a string that is not indexed. -/
def textSchema : Schema where
  attrs := [⟨"_id", .string, true⟩, ⟨"s", .string, false⟩]
  names_nodup := by decide
  key_mem := by decide

/-- A document with the key `a` and a string. -/
def textDoc (text : Bytes) : Doc := ⟨[97], [⟨"_id", [97], .string⟩, ⟨"s", text, .string⟩], []⟩

end Table

end AwaDB
