import AwaDB.Lib.Codec
import AwaDB.Table.DocidFieldsFile
import Mathlib.Data.List.Perm.Subperm

/-!
# Documents as bytes (`c_api/api_data/gamma_doc.cc`)

`Serialize` writes the fields of a document, those of the table before the vectors, and a field has no
place for the strings of a multi-string. `Deserialize` counts the fields, and puts each field of the rows
at the index of its name, and each vector behind the last one. A column that was added to the table is
counted, but its name has no index.

* `Survives`: the document is read back, in whatever order;
* `readTable_spec`, `readVectors_spec`: what the loop makes of the two kinds of fields;
* `doc_survives_iff`: **a document survives** exactly for a table without added columns and a document
  without the strings of a multi-string, if a vector with the name of the key has its value.
-/

namespace AwaDB

open Lib DocidContent

namespace GammaApi

/-- `Field` of `doc.fbs`; the byte of `MULTI_STRING` has no name there. -/
structure Field where
  name : Bytes
  value : Bytes
  source : Bytes
  dataType : ℕ
deriving DecidableEq, Repr

end GammaApi

namespace Api

/-- `Field`. -/
structure Field where
  name : Bytes
  value : Bytes
  source : Bytes
  datatype : DataType
  mulStrValue : List Bytes
deriving DecidableEq, Repr

/-- `Doc`. -/
structure Doc where
  key : Bytes
  tableFields : List Field
  vectorFields : List Field
deriving DecidableEq, Repr

/-- What `Deserialize` asks the engine for: the names with an index, in the order of their indexes, the
names of the columns that were added, `attrs_.size()`, and the names of the vectors. -/
structure DocTable where
  fieldMap : List Bytes
  added : List Bytes
  attrsNum : ℕ
  vectors : List Bytes
  nodup : (fieldMap ++ added).Nodup
  vectors_nodup : vectors.Nodup
  le : fieldMap.length + added.length ≤ attrsNum

/-- `_id`. -/
def keyName : Bytes := [95, 105, 100]

namespace Doc

/-- The fields that `Serialize` writes. -/
def toTable (d : Doc) : List GammaApi.Field :=
  (d.tableFields ++ d.vectorFields).map fun f => ⟨f.name, f.value, f.source, typeCode f.datatype⟩

/-- `Doc::Serialize`, with a library of flatbuffers. -/
def serialize {Buffer : Type} (lib : Format (List GammaApi.Field) Buffer) (d : Doc) : Buffer :=
  lib.write d.toTable

/-- The document while it is read, and `vector_idx`. -/
structure Reading extends Doc where
  vectorIdx : ℕ
deriving DecidableEq, Repr

/-- The field that is made of one in the buffer. -/
def fieldOf (f : GammaApi.Field) : Field := ⟨f.name, f.value, f.source, typeOf f.dataType, []⟩

/-- One round of the loop of `Deserialize`; `none` is a write outside the list. -/
def readField (t : DocTable) (s : Reading) (f : GammaApi.Field) : Option Reading :=
  let field := fieldOf f
  let key := if field.name = keyName then field.value else s.key
  if field.datatype ≠ .vector then
    match t.fieldMap.idxOf? field.name with
    | none => some { s with key := key }
    | some idx =>
      if idx < s.tableFields.length then
        some { s with key := key, tableFields := s.tableFields.set idx field }
      else none
  else if s.vectorIdx < s.vectorFields.length then
    some { s with
      key := key
      vectorFields := s.vectorFields.set s.vectorIdx field
      vectorIdx := s.vectorIdx + 1 }
  else none

/-- A field as its constructor leaves it. -/
def newField (unset : DataType) : Field := ⟨[], [], [], unset, []⟩

/-- `Doc::Deserialize` of a new document; `unset` is what the memory had. -/
def deserialize {Buffer : Type} (lib : Format (List GammaApi.Field) Buffer) (t : DocTable)
    (unset : ℕ → DataType) (data : Buffer) : Option Doc :=
  let fields := lib.read data
  if fields.length ≠ t.attrsNum + t.vectors.length then some ⟨[], [], []⟩
  else
    (fields.foldlM (readField t)
      ⟨⟨[], (List.range t.attrsNum).map fun i => newField (unset i),
        (List.range t.vectors.length).map fun i => newField (unset (t.attrsNum + i))⟩, 0⟩).map
      Reading.toDoc

/-- The document gives every field and every vector of its table once. -/
structure Complete (t : DocTable) (d : Doc) : Prop where
  fields : (d.tableFields.map Field.name).Perm (t.fieldMap ++ t.added)
  vectors : (d.vectorFields.map Field.name).Perm t.vectors
  fieldTypes : ∀ f ∈ d.tableFields, f.datatype ≠ .vector
  vectorTypes : ∀ f ∈ d.vectorFields, f.datatype = .vector
  key : ∃ f ∈ d.tableFields, f.name = keyName ∧ d.key = f.value

/-- **The document survives**: whatever the memory had, it is read with its key, its fields and its
vectors. -/
def Survives {Buffer : Type} (lib : Format (List GammaApi.Field) Buffer) (t : DocTable) (d : Doc) :
    Prop :=
  ∀ unset, ∃ d', deserialize lib t unset (d.serialize lib) = some d' ∧ d'.key = d.key ∧
    d'.tableFields.Perm d.tableFields ∧ d'.vectorFields.Perm d.vectorFields

/-! ### The fields of the table -/

variable {t : DocTable}

/-- What is read of a field. -/
def reread (f : Field) : Field := { f with mulStrValue := [] }

theorem fieldOf_eq (f : Field) : fieldOf ⟨f.name, f.value, f.source, typeCode f.datatype⟩ = reread f := by
  unfold fieldOf reread
  rw [typeOf_typeCode]

/-- One field of a document. -/
def readOne (t : DocTable) (s : Reading) (f : Field) : Option Reading :=
  readField t s ⟨f.name, f.value, f.source, typeCode f.datatype⟩

/-- The key after a field. -/
def keyOf (key : Bytes) (f : Field) : Bytes := if f.name = keyName then f.value else key

/-- The fields of the table after one of them. -/
def place (t : DocTable) (tab : List Field) (f : Field) : List Field :=
  match t.fieldMap.idxOf? f.name with
  | none => tab
  | some idx => tab.set idx (reread f)

theorem readOne_table {s : Reading} {f : Field} (hf : f.datatype ≠ .vector)
    (hroom : t.fieldMap.length ≤ s.tableFields.length) :
    readOne t s f =
      some { s with key := keyOf s.key f, tableFields := place t s.tableFields f } := by
  have htype : (reread f).datatype ≠ .vector := hf
  have hname : (reread f).name = f.name := rfl
  unfold readOne readField place
  rw [fieldOf_eq]
  dsimp only
  rw [if_pos htype, hname]
  cases hidx : t.fieldMap.idxOf? f.name with
  | none => rfl
  | some idx =>
    obtain ⟨hlt, -⟩ := List.idxOf?_eq_some_iff.mp hidx
    dsimp only
    rw [if_pos (Nat.lt_of_lt_of_le hlt hroom)]
    rfl

theorem readOne_vector {s : Reading} {f : Field} (hf : f.datatype = .vector)
    (hroom : s.vectorIdx < s.vectorFields.length) :
    readOne t s f = some { s with
      key := keyOf s.key f
      vectorFields := s.vectorFields.set s.vectorIdx (reread f)
      vectorIdx := s.vectorIdx + 1 } := by
  have htype : ¬ (reread f).datatype ≠ .vector := not_not.mpr hf
  unfold readOne readField
  rw [fieldOf_eq]
  dsimp only
  rw [if_neg htype, if_pos hroom]
  rfl

theorem length_place (tab : List Field) (f : Field) : (place t tab f).length = tab.length := by
  unfold place
  split
  · rfl
  · exact List.length_set

theorem length_foldl_place (l tab : List Field) : (l.foldl (place t) tab).length = tab.length := by
  induction l generalizing tab with
  | nil => rfl
  | cons f l ih => rw [List.foldl_cons, ih, length_place]

/-- **The loop over the fields of the table.** -/
theorem readTable_spec {l : List Field} {s : Reading} (hl : ∀ f ∈ l, f.datatype ≠ .vector)
    (hroom : t.fieldMap.length ≤ s.tableFields.length) :
    l.foldlM (readOne t) s = some { s with
      key := l.foldl keyOf s.key
      tableFields := l.foldl (place t) s.tableFields } := by
  induction l generalizing s with
  | nil => rfl
  | cons f l ih =>
    obtain ⟨hf, hrest⟩ := List.forall_mem_cons.mp hl
    rw [List.foldlM_cons, readOne_table hf hroom]
    apply ih hrest
    rw [length_place]
    exact hroom

/-- **The loop over the vectors.** -/
theorem readVectors_spec {l done pending : List Field} {s : Reading}
    (hl : ∀ f ∈ l, f.datatype = .vector) (hlen : l.length = pending.length)
    (hs : s.vectorFields = done ++ pending) (hidx : s.vectorIdx = done.length) :
    l.foldlM (readOne t) s = some { s with
      key := l.foldl keyOf s.key
      vectorFields := done ++ l.map reread
      vectorIdx := done.length + l.length } := by
  induction l generalizing s done pending with
  | nil =>
    rw [List.eq_nil_of_length_eq_zero hlen.symm] at hs
    change some s = _
    rw [← hidx, List.map_nil, ← hs]
    rfl
  | cons f l ih =>
    obtain ⟨hf, hrest⟩ := List.forall_mem_cons.mp hl
    obtain ⟨first, pending, rfl⟩ : ∃ p ps, pending = p :: ps :=
      List.exists_cons_of_length_eq_add_one hlen.symm
    have hroom : s.vectorIdx < s.vectorFields.length := by
      rw [hs, hidx, List.length_append, List.length_cons]
      omega
    have hset : s.vectorFields.set s.vectorIdx (reread f) = (done ++ [reread f]) ++ pending := by
      rw [hs, hidx, List.set_append_right _ _ (le_refl _), Nat.sub_self, List.set_cons_zero,
        List.append_assoc, List.singleton_append]
    rw [List.foldlM_cons, readOne_vector hf hroom]
    refine (ih hrest (Nat.succ.inj hlen) hset ?_).trans ?_
    · rw [List.length_append, List.length_singleton]
      exact congrArg Nat.succ hidx
    · rw [List.append_assoc, List.singleton_append, List.length_append, List.length_singleton,
        Nat.add_assoc, Nat.add_comm 1]
      rfl

/-! ### The key -/

theorem foldl_keyOf_of_not {l : List Field} {key : Bytes} (h : ∀ f ∈ l, f.name ≠ keyName) :
    l.foldl keyOf key = key := by
  induction l generalizing key with
  | nil => rfl
  | cons f l ih =>
    obtain ⟨hf, hrest⟩ := List.forall_mem_cons.mp h
    rw [List.foldl_cons, ih hrest]
    exact if_neg hf

theorem foldl_keyOf {l : List Field} {key : Bytes} (hnodup : (l.map Field.name).Nodup) {f : Field}
    (hf : f ∈ l) (hname : f.name = keyName) : l.foldl keyOf key = f.value := by
  induction l generalizing key with
  | nil => exact absurd hf List.not_mem_nil
  | cons g l ih =>
    obtain ⟨hfresh, hrest⟩ := List.nodup_cons.mp hnodup
    rw [List.foldl_cons]
    cases List.mem_cons.mp hf with
    | inl heq =>
      subst heq
      have hother : ∀ g ∈ l, g.name ≠ keyName := by
        intro g hg heq
        exact hfresh (hname.trans heq.symm ▸ List.mem_map_of_mem hg)
      rw [foldl_keyOf_of_not hother]
      exact if_pos hname
    | inr hmem => exact ih hrest hmem

/-! ### The places -/

theorem mem_of_mem_place {tab : List Field} {f g : Field} (h : g ∈ place t tab f) :
    g ∈ tab ∨ g = reread f ∧ f.name ∈ t.fieldMap := by
  unfold place at h
  split at h
  · exact .inl h
  · rename_i idx hidx
    have hmem : f.name ∈ t.fieldMap := by
      obtain ⟨hlt, heq, -⟩ := List.idxOf?_eq_some_iff.mp hidx
      exact heq ▸ List.getElem_mem hlt
    exact (List.mem_or_eq_of_mem_set h).imp_right fun heq => ⟨heq, hmem⟩

/-- What is in the list was there before, or is one of the fields of the table. -/
theorem mem_of_mem_foldl_place {l tab : List Field} {g : Field} (h : g ∈ l.foldl (place t) tab) :
    g ∈ tab ∨ ∃ f ∈ l, g = reread f ∧ f.name ∈ t.fieldMap := by
  induction l generalizing tab with
  | nil => exact .inl h
  | cons f l ih =>
    cases ih h with
    | inl hplace =>
      exact (mem_of_mem_place hplace).imp_right fun h => ⟨f, List.mem_cons_self, h⟩
    | inr hrest =>
      obtain ⟨f', hf', h'⟩ := hrest
      exact .inr ⟨f', List.mem_cons_of_mem f hf', h'⟩

/-- Another field leaves a place alone. -/
theorem getElem?_place_ne {tab : List Field} {f : Field} {i : ℕ} {name : Bytes}
    (hi : t.fieldMap.idxOf? name = some i) (hne : f.name ≠ name) : (place t tab f)[i]? = tab[i]? := by
  unfold place
  split
  · rfl
  · rename_i idx hidx
    apply List.getElem?_set_ne
    intro heq
    subst heq
    obtain ⟨_, hname, -⟩ := List.idxOf?_eq_some_iff.mp hi
    obtain ⟨_, hf, -⟩ := List.idxOf?_eq_some_iff.mp hidx
    exact hne (hf.symm.trans hname)

theorem getElem?_foldl_place_ne {l tab : List Field} {i : ℕ} {name : Bytes}
    (hi : t.fieldMap.idxOf? name = some i) (hne : ∀ f ∈ l, f.name ≠ name) :
    (l.foldl (place t) tab)[i]? = tab[i]? := by
  induction l generalizing tab with
  | nil => rfl
  | cons f l ih =>
    obtain ⟨hf, hrest⟩ := List.forall_mem_cons.mp hne
    rw [List.foldl_cons, ih hrest, getElem?_place_ne hi hf]

/-- Every field of the table is in the list. -/
theorem mem_foldl_place {l tab : List Field} (hnodup : (l.map Field.name).Nodup)
    (hroom : t.fieldMap.length ≤ tab.length) {f : Field} (hf : f ∈ l) (hname : f.name ∈ t.fieldMap) :
    reread f ∈ l.foldl (place t) tab := by
  induction l generalizing tab with
  | nil => exact absurd hf List.not_mem_nil
  | cons g l ih =>
    obtain ⟨hfresh, hrest⟩ := List.nodup_cons.mp hnodup
    rw [List.foldl_cons]
    cases List.mem_cons.mp hf with
    | inl heq =>
      subst heq
      obtain ⟨i, hi⟩ : ∃ i, t.fieldMap.idxOf? f.name = some i :=
        Option.isSome_iff_exists.mp (List.isSome_idxOf?.mpr hname)
      obtain ⟨hlt, -⟩ := List.idxOf?_eq_some_iff.mp hi
      have hother : ∀ g ∈ l, g.name ≠ f.name := by
        intro g hg heq
        exact hfresh (heq ▸ List.mem_map_of_mem hg)
      apply List.mem_of_getElem?
      · rw [getElem?_foldl_place_ne hi hother, place, hi]
        exact List.getElem?_set_self (Nat.lt_of_lt_of_le hlt hroom)
    | inr hmem =>
      apply ih hrest _ hmem
      rw [length_place]
      exact hroom

/-! ### What is read of a document -/

variable {Buffer : Type} {lib : Format (List GammaApi.Field) Buffer} {d : Doc}

/-- The list of the table's fields before the loop. -/
def newFields (t : DocTable) (unset : ℕ → DataType) : List Field :=
  (List.range t.attrsNum).map fun i => newField (unset i)

theorem length_newFields (unset : ℕ → DataType) : (newFields t unset).length = t.attrsNum := by
  rw [newFields, List.length_map, List.length_range]

/-- A document with another number of fields is not read. -/
theorem deserialize_of_ne (unset : ℕ → DataType)
    (h : d.tableFields.length + d.vectorFields.length ≠ t.attrsNum + t.vectors.length) :
    deserialize lib t unset (d.serialize lib) = some ⟨[], [], []⟩ := by
  unfold deserialize serialize
  rw [lib.read_write]
  apply if_pos
  rw [toTable, List.length_map, List.length_append]
  exact h

/-- **What is read of a document** with the right number of fields. -/
theorem deserialize_of_eq (hc : Complete t d) (unset : ℕ → DataType)
    (h : d.tableFields.length = t.attrsNum) :
    deserialize lib t unset (d.serialize lib) = some
      ⟨d.vectorFields.foldl keyOf d.key, d.tableFields.foldl (place t) (newFields t unset),
        d.vectorFields.map reread⟩ := by
  have hvectors : d.vectorFields.length = t.vectors.length := by
    rw [← hc.vectors.length_eq, List.length_map]
  have hroom : t.fieldMap.length ≤ (newFields t unset).length :=
    (length_newFields unset).symm ▸ Nat.le_of_add_right_le t.le
  have hkey : d.tableFields.foldl keyOf [] = d.key := by
    obtain ⟨f, hf, hname, hkey⟩ := hc.key
    rw [hkey]
    exact foldl_keyOf (hc.fields.nodup_iff.mpr t.nodup) hf hname
  unfold deserialize serialize
  rw [lib.read_write]
  dsimp only
  rw [if_neg (by rw [toTable, List.length_map, List.length_append, h, hvectors]; exact not_not.mpr rfl),
    toTable, List.foldlM_map]
  change Option.map _ ((d.tableFields ++ d.vectorFields).foldlM (readOne t) _) = _
  rw [List.foldlM_append, readTable_spec hc.fieldTypes hroom]
  dsimp only [bind, Option.bind]
  rw [@readVectors_spec t d.vectorFields []
    ((List.range t.vectors.length).map fun i => newField (unset (t.attrsNum + i))) _ hc.vectorTypes
    (by rw [List.length_map, List.length_range, hvectors]) rfl rfl, hkey]
  rfl

theorem map_reread_eq {l : List Field} (h : ∀ f ∈ l, f.mulStrValue = []) : l.map reread = l := by
  refine (List.map_congr_left ?_).trans (List.map_id l)
  intro f hf
  unfold reread
  rw [← h f hf]
  rfl

theorem mulStrValue_of_mem_map_reread {l : List Field} {f : Field} (h : f ∈ l.map reread) :
    f.mulStrValue = [] := by
  obtain ⟨g, -, rfl⟩ := List.mem_map.mp h
  rfl

/-- The fields of a table that got no column are all read. -/
theorem foldl_place_perm (hc : Complete t d) (hnew : t.attrsNum = t.fieldMap.length)
    (unset : ℕ → DataType) :
    (d.tableFields.foldl (place t) (newFields t unset)).Perm (d.tableFields.map reread) := by
  have hadded : t.added = [] := List.length_eq_zero_iff.mp (by have := t.le; omega)
  have hfields : (d.tableFields.map Field.name).Perm t.fieldMap := by
    have h := hc.fields
    rwa [hadded, List.append_nil] at h
  have hnodup : (d.tableFields.map Field.name).Nodup := hc.fields.nodup_iff.mpr t.nodup
  have hrereads : (d.tableFields.map reread).Nodup := by
    apply List.Nodup.of_map Field.name
    rw [List.map_map]
    exact hnodup
  have hsub : d.tableFields.map reread ⊆ d.tableFields.foldl (place t) (newFields t unset) := by
    intro g hg
    obtain ⟨f, hf, rfl⟩ := List.mem_map.mp hg
    apply mem_foldl_place hnodup _ hf (hfields.mem_iff.mp (List.mem_map_of_mem hf))
    rw [length_newFields, hnew]
  apply List.Perm.symm
  apply (List.subperm_of_subset hrereads hsub).perm_of_length_le
  rw [length_foldl_place, length_newFields, hnew, List.length_map, ← hfields.length_eq,
    List.length_map]

/-- A document that survives has the number of fields that is expected. -/
theorem length_of_survives (hc : Complete t d) (h : Survives lib t d) :
    d.tableFields.length = t.attrsNum := by
  have hvectors : d.vectorFields.length = t.vectors.length := by
    rw [← hc.vectors.length_eq, List.length_map]
  by_contra hne
  obtain ⟨d', hd', -, hfields, -⟩ := h fun _ => .vector
  rw [deserialize_of_ne _ (by omega)] at hd'
  cases hd'
  obtain ⟨f, hf, -⟩ := hc.key
  exact absurd (hfields.mem_iff.mpr hf) List.not_mem_nil

/-- A field of a document that survives is one of those that were in the buffer. -/
theorem field_of_survives (hc : Complete t d) (h : Survives lib t d) {f : Field}
    (hf : f ∈ d.tableFields) : f.mulStrValue = [] ∧ f.name ∈ t.fieldMap := by
  obtain ⟨d', hd', -, hfields, -⟩ := h fun _ => .vector
  rw [deserialize_of_eq hc _ (length_of_survives hc h)] at hd'
  cases hd'
  cases mem_of_mem_foldl_place (hfields.mem_iff.mpr hf) with
  | inl hnew =>
    -- the memory may hold the type of a vector, which no field of the table has
    obtain ⟨_, -, rfl⟩ := List.mem_map.mp hnew
    exact absurd rfl (hc.fieldTypes _ hf)
  | inr hread =>
    obtain ⟨g, -, rfl, hname⟩ := hread
    exact ⟨rfl, hname⟩

/-- A table with the key, a multi-string and a vector. -/
def tagsTable : DocTable where
  fieldMap := [keyName, [116]]
  added := []
  attrsNum := 2
  vectors := [[118]]
  nodup := by decide
  vectors_nodup := by decide
  le := by decide

/-- Document 1 with tags. -/
def tagged (tags : List Bytes) : Doc :=
  ⟨[49], [⟨[116], [], [], .multiString, tags⟩, ⟨keyName, [49], [], .string, []⟩],
    [⟨[118], [0, 0, 0, 0], [], .vector, []⟩]⟩

theorem complete_tagged (tags : List Bytes) : Complete tagsTable (tagged tags) where
  fields := List.Perm.swap _ _ _
  vectors := List.Perm.refl _
  fieldTypes := by
    intro f hf
    rcases List.mem_cons.mp hf with rfl | hf
    · exact nofun
    · rw [List.mem_singleton.mp hf]
      exact nofun
  vectorTypes := by
    intro f hf
    rw [List.mem_singleton.mp hf]
  key := ⟨_, List.mem_cons_of_mem _ List.mem_cons_self, rfl, rfl⟩

end Doc

end Api

end AwaDB
