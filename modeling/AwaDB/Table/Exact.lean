import AwaDB.Lib.Lists
import AwaDB.Table.Table

/-!
# Values that fit their fields

A value fits its field when it has the size of the field's type, or, in a string field, when it is
not cut. Rows whose cells have the sizes of the schema take such values cell by cell:

* `rowOf_exact`: a complete document of fitting values gets a row that holds each of them;
* `update_exact`: an update with fitting values changes the cells it names to them.
-/

namespace AwaDB

namespace Schema

/-- The type of the field that a value is for. -/
def fieldType (s : Schema) (field : Field) : Option DataType :=
  (s.attrIdx field.name).bind s.attrType

/-- The value fits: it has the size of the field, or is not cut. -/
def ExactField (s : Schema) (field : Field) : Prop :=
  match s.fieldType field with
  | none => False
  | some .string => s.storedText field = field.value
  | some ty => field.value.length = fTypeSize ty

/-- The position of a field in the rows. -/
def idx (s : Schema) (field : Field) : ℕ := s.names.idxOf field.name

/-- The cell that holds a value. -/
def cellOf (s : Schema) (field : Field) : Cell :=
  if s.fieldType field = some .string then .str (some field.value)
  else .fixed (field.value.map some)

/-- The row has a cell for each field, and the fixed ones have their size. -/
structure Shaped (s : Schema) (row : Row) : Prop where
  length : row.length = s.attrs.length
  fixed : ∀ i ty, s.attrType i = some ty → ty ≠ .string →
    ∃ bytes, row[i]? = some (.fixed bytes) ∧ bytes.length = fTypeSize ty

/-- Moreover each string cell leads to a text. -/
structure Solid (s : Schema) (row : Row) : Prop extends Shaped s row where
  str : ∀ i, s.attrType i = some .string → ∃ text, row[i]? = some (.str (some text))

/-! ### Positions -/

theorem ExactField.mem_names {s : Schema} {field : Field} (h : s.ExactField field) :
    field.name ∈ s.names := by
  by_contra hmem
  simp [ExactField, fieldType, attrIdx, hmem] at h

theorem attrIdx_eq {s : Schema} {field : Field} (h : field.name ∈ s.names) :
    s.attrIdx field.name = some (s.idx field) := if_pos h

theorem idx_lt {s : Schema} {field : Field} (h : field.name ∈ s.names) :
    s.idx field < s.attrs.length := by
  have hlt : s.names.idxOf field.name < s.names.length := List.idxOf_lt_length_of_mem h
  rwa [names, List.length_map] at hlt

/-- The type of a field that exists, at its position. -/
theorem attrType_idx {s : Schema} {field : Field} (h : field.name ∈ s.names) :
    s.attrType (s.idx field) = s.fieldType field := by
  rw [fieldType, attrIdx_eq h, Option.bind_some]

theorem nodup_idx {s : Schema} {fields : List Field} (hmem : ∀ f ∈ fields, f.name ∈ s.names)
    (hnodup : (fields.map Field.name).Nodup) : (fields.map s.idx).Nodup := by
  have hmap : fields.map s.idx = (fields.map Field.name).map s.names.idxOf := by
    rw [List.map_map]
    rfl
  rw [hmap]
  refine List.Nodup.map_on ?_ hnodup
  intro a ha b hb heq
  obtain ⟨f, hf, rfl⟩ := List.mem_map.mp ha
  exact (List.idxOf_inj (hmem f hf)).mp heq

/-! ### One value -/

/-- A cell of the size of the field takes the place of one. -/
theorem Shaped.set_cellOf {s : Schema} {row : Row} (h : s.Shaped row) {field : Field}
    (hmem : field.name ∈ s.names)
    (hsize : ∀ ty, s.fieldType field = some ty → ty ≠ .string → field.value.length = fTypeSize ty) :
    s.Shaped (row.set (s.idx field) (s.cellOf field)) where
  length := by rw [List.length_set, h.length]
  fixed := by
    intro i ty hty hne
    by_cases hi : s.idx field = i
    · subst hi
      have htype : s.fieldType field = some ty := by rw [← attrType_idx hmem, hty]
      have hlt : s.idx field < row.length := by
        rw [h.length]
        exact idx_lt hmem
      refine ⟨field.value.map some, ?_, by rw [List.length_map, hsize ty htype hne]⟩
      rw [List.getElem?_set_self hlt, cellOf, if_neg]
      rw [htype]
      exact fun heq => hne (Option.some.inj heq)
    · rw [List.getElem?_set_ne hi]
      exact h.fixed i ty hty hne

theorem Shaped.set {s : Schema} {row : Row} (h : s.Shaped row) {field : Field}
    (hf : s.ExactField field) : s.Shaped (row.set (s.idx field) (s.cellOf field)) := by
  refine h.set_cellOf hf.mem_names fun ty htype hne => ?_
  rw [ExactField, htype] at hf
  cases ty <;> first | exact hf | exact absurd rfl hne

theorem Solid.set {s : Schema} {row : Row} (h : s.Solid row) {field : Field}
    (hf : s.ExactField field) : s.Solid (row.set (s.idx field) (s.cellOf field)) where
  toShaped := h.toShaped.set hf
  str := by
    intro i hty
    by_cases hi : s.idx field = i
    · have hlt : s.idx field < row.length := by
        rw [h.length]
        exact idx_lt hf.mem_names
      subst hi
      have htype : s.fieldType field = some .string := by rw [← attrType_idx hf.mem_names, hty]
      exact ⟨field.value, by rw [List.getElem?_set_self hlt, cellOf, if_pos htype]⟩
    · rw [List.getElem?_set_ne hi]
      exact h.str i hty

/-- **`storeField` with a fitting value** writes its cell. -/
theorem storeField_exact {s : Schema} {row : Row} (h : s.Shaped row) {field : Field}
    (hf : s.ExactField field) :
    s.storeField field row = some (row.set (s.idx field) (s.cellOf field)) := by
  have hmem := hf.mem_names
  have htype := attrType_idx hmem
  rw [storeField, attrIdx_eq hmem]
  dsimp only
  rw [htype]
  cases hty : s.fieldType field with
  | none => simp [ExactField, hty] at hf
  | some ty =>
    rw [ExactField, hty] at hf
    by_cases hstr : ty = .string
    · subst hstr
      simp only at hf
      simp only [cellOf, hty, if_true, hf]
    · obtain ⟨old, hold, hlen⟩ := h.fixed _ ty (htype.trans hty) hstr
      have hval : field.value.length = fTypeSize ty := by
        cases ty <;> first | exact hf | exact absurd rfl hstr
      have hcopy : copyAt row (s.idx field) (readMem field.value (fTypeSize ty)) =
          some (row.set (s.idx field) (s.cellOf field)) := by
        rw [readMem_of_length hval, copyAt_exact hold (by rw [List.length_map, hval, hlen]),
          cellOf, if_neg fun heq => hstr (Option.some.inj (hty ▸ heq))]
      cases ty <;> first | exact hcopy | exact absurd rfl hstr

/-- The document gives the value as a string exactly if the field is one. -/
def SameStringType (s : Schema) (field : Field) : Prop :=
  field.datatype = .string ↔ s.fieldType field = some .string

/-- **`updateField` with a fitting value** writes its cell. -/
theorem updateField_exact {s : Schema} {row : Row} (h : s.Solid row) {field : Field}
    (hf : s.ExactField field) (htype : s.SameStringType field) :
    s.updateField field row = some (row.set (s.idx field) (s.cellOf field)) := by
  have hmem := hf.mem_names
  have hattr := attrType_idx hmem
  rw [updateField, attrIdx_eq hmem]
  dsimp only
  by_cases hstr : field.datatype = .string
  · have hty := htype.mp hstr
    obtain ⟨text, htext⟩ := h.str _ (hattr.trans hty)
    rw [ExactField, hty] at hf
    rw [if_pos hstr, htext]
    simp only at hf ⊢
    rw [hf, cellOf, if_pos hty]
  · rw [if_neg hstr]
    have hnot : ¬ s.fieldType field = some .string := fun heq => hstr (htype.mpr heq)
    cases hty : s.fieldType field with
    | none => simp [ExactField, hty] at hf
    | some ty =>
      have hne : ty ≠ .string := fun heq => hnot (hty.trans (congrArg some heq))
      obtain ⟨old, hold, hlen⟩ := h.fixed _ ty (hattr.trans hty) hne
      rw [ExactField, hty] at hf
      have hval : field.value.length = fTypeSize ty := by
        cases ty <;> first | exact hf | exact absurd rfl hne
      rw [copyAt_exact hold (by rw [List.length_map, hval, hlen]), cellOf, if_neg hnot]

theorem shaped_freshRow (s : Schema) : s.Shaped s.freshRow where
  length := by rw [freshRow, List.length_map]
  fixed := by
    intro i ty hty hne
    obtain ⟨info, hinfo, rfl⟩ := Option.map_eq_some_iff.mp hty
    refine ⟨List.replicate (fTypeSize info.dataType) none, ?_, List.length_replicate⟩
    rw [freshRow, List.getElem?_map, hinfo, Option.map_some, if_neg hne]

end Schema

namespace Table

open Schema

/-- **The row of a complete document** whose values fit holds them all. -/
theorem rowOf_exact {s : Schema} {doc : Doc} (hdoc : Complete s doc)
    (hexact : ∀ f ∈ doc.tableFields, s.ExactField f) :
    ∃ row, rowOf s doc = some row ∧ s.Solid row ∧
      ∀ f ∈ doc.tableFields, row[s.idx f]? = some (s.cellOf f) := by
  have hnames : (doc.tableFields.map Field.name).Nodup :=
    (List.Perm.nodup_iff hdoc).mpr s.names_nodup
  have hstep : ∀ f ∈ doc.tableFields, ∀ row, s.Shaped row →
      s.storeField f row = some (row.set (s.idx f) (s.cellOf f)) ∧
        s.Shaped (row.set (s.idx f) (s.cellOf f)) ∧ s.idx f < row.length := by
    intro f hf row hrow
    refine ⟨storeField_exact hrow (hexact f hf), hrow.set (hexact f hf), ?_⟩
    rw [hrow.length]
    exact idx_lt (hexact f hf).mem_names
  obtain ⟨row, hrow, hshape, hvals, -⟩ := Lib.runOps_assign s.Shaped hstep
    (nodup_idx (fun f hf => (hexact f hf).mem_names) hnames) s.shaped_freshRow
  refine ⟨row, hrow, ⟨hshape, fun i hty => ?_⟩, hvals⟩
  obtain ⟨info, hinfo, htype⟩ := Option.map_eq_some_iff.mp hty
  have hlt : i < s.names.length := by
    rw [names, List.length_map]
    exact (List.getElem?_eq_some_iff.mp hinfo).1
  obtain ⟨f, hf, hname⟩ := List.mem_map.mp (hdoc.mem_iff.mpr (List.getElem_mem hlt))
  have hidx : s.idx f = i := by
    rw [idx, hname]
    exact s.names_nodup.idxOf_getElem i hlt
  have hstr : s.fieldType f = some .string := by
    rw [← attrType_idx (hexact f hf).mem_names, hidx, hty]
  refine ⟨f.value, ?_⟩
  rw [← hidx, hvals f hf, cellOf, if_pos hstr]

/-- **An update with fitting values** puts them into the row of the document and leaves the other
cells and rows as they are. -/
theorem update_exact {t : Table} {fields : List Field} {d : ℕ} {row : Row}
    (hrow : t.rows[d]? = some row) (hsolid : t.schema.Solid row)
    (hnodup : (fields.map Field.name).Nodup) (hexact : ∀ f ∈ fields, t.schema.ExactField f)
    (htype : ∀ f ∈ fields, t.schema.SameStringType f) :
    ∃ row', t.update fields d = some { t with rows := t.rows.set d row' } ∧
      t.schema.Solid row' ∧ (∀ f ∈ fields, row'[t.schema.idx f]? = some (t.schema.cellOf f)) ∧
        ∀ i, i ∉ fields.map t.schema.idx → row'[i]? = row[i]? := by
  obtain ⟨hd, hget⟩ := List.getElem?_eq_some_iff.mp hrow
  have hstep : ∀ f ∈ fields, ∀ row, t.schema.Solid row →
      t.schema.updateField f row = some (row.set (t.schema.idx f) (t.schema.cellOf f)) ∧
        t.schema.Solid (row.set (t.schema.idx f) (t.schema.cellOf f)) ∧
        t.schema.idx f < row.length := by
    intro f hf row hrow
    refine ⟨updateField_exact hrow (hexact f hf) (htype f hf), hrow.set (hexact f hf), ?_⟩
    rw [hrow.length]
    exact idx_lt (hexact f hf).mem_names
  obtain ⟨row', hrun, hsolid', hvals, hother⟩ := Lib.runOps_assign t.schema.Solid hstep
    (nodup_idx (fun f hf => (hexact f hf).mem_names) hnodup) hsolid
  by_cases hnil : fields = []
  · subst hnil
    cases hrun
    refine ⟨row, ?_, hsolid, by simp, fun _ _ => rfl⟩
    rw [Table.update, if_pos rfl, ← hget, List.set_getElem_self hd]
  · refine ⟨row', ?_, hsolid', hvals, hother⟩
    have hneg : ¬ (d : ℤ) < 0 := by omega
    have hread : t.getRow d = some row := by
      rw [getRow, if_neg hneg]
      exact hrow
    rw [Table.update, if_neg hnil, hread, Option.bind_some, hrun]
    rfl

end Table

end AwaDB
