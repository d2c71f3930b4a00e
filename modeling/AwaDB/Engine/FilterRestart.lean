import AwaDB.Engine.DeleteByQuery
import AwaDB.Engine.FilterTable

/-!
# Filters after a restart (`GammaEngine::MultiRangeQuery`, `GammaEngine::Load`)

A search finds the id of a field in the table, or else in `DocidFieldsMgr`, and reads `fields_` at this
place. The manager's file has the ids of the fields that were added, and no place is made for these when
the table is loaded.

* `Survives`: after `Dump` and `Load` each known field has a place in `fields_`, and each request lets
  the same documents through;
* `Opened`: the invariant of a table that was created and not loaded;
* `survives_iff`: a table survives exactly when no field was added to its schema and no document lacks
  an indexed field;
* `lost_filter`: a filter on an added field.
-/

namespace AwaDB

open Lib

namespace FilterTable

/-- The id of a field in `GetAttrIdx`. -/
def attrIdx (s : FilterTable) (name : Bytes) : ℤ :=
  match s.ids.getAttrIdx name with
  | none => -1
  | some fid => fid

/-- The range index as a search sees it. -/
def index (s : FilterTable) : MultiFieldsRangeIndex where
  attrIdx := fun name => s.attrIdx name.toUTF8.toList
  fields := s.fields

/-- The filters of a request are on fields that the table has. -/
def Known (s : FilterTable) (request : GammaEngine.Request) : Prop :=
  (∀ filter ∈ request.rangeFilters, (s.ids.getAttrIdx filter.field.toUTF8.toList).isSome) ∧
    ∀ filter ∈ request.termFilters, (s.ids.getAttrIdx filter.field.toUTF8.toList).isSome

/-- **Filters survive a restart**: the id of each field is within `fields_`, and the filters on known
fields let the same documents through. -/
def Survives (s : FilterTable) : Prop :=
  ∃ t, s.reload = some t ∧
    (∀ name, (s.ids.getAttrIdx name).isSome →
      ∃ fid, t.ids.getAttrIdx name = some fid ∧ fid < t.fields.length) ∧
    ∀ request, s.Known request → ∀ docid, request.admits t.index docid = request.admits s.index docid

/-- The document gives each indexed field of the schema. -/
def Gives (infos : List FieldSpec) (doc : List DocField) : Prop :=
  ∀ info ∈ infos, info.isIndex = true → info.name ∈ doc.map DocField.name

instance (infos : List FieldSpec) (doc : List DocField) : Decidable (Gives infos doc) :=
  inferInstanceAs (Decidable (∀ info ∈ infos, info.isIndex = true →
    info.name ∈ doc.map DocField.name))

/-! ### The ids after a restart -/

/-- A table that was created from its schema and not loaded. -/
structure Created (infos : List FieldSpec) (ids : TableFields) : Prop extends Numbers infos ids where
  schemaOf : ids.schema = infos.map FieldSpec.name
  created : ∃ t, TableFields.create (infos.map FieldSpec.name) = some t ∧ t.attrIdx = ids.attrIdx
  file : ids.file = .absent
  idName : ∀ fid name, ids.idName fid = some name → infos.length ≤ fid ∧ (ids.nameId name).isSome

theorem created_create {infos : List FieldSpec} (hlength : infos.length < 2 ^ 8) {ids : TableFields}
    (h : TableFields.create (infos.map FieldSpec.name) = some ids) : Created infos ids := by
  have hschema : (infos.map FieldSpec.name).length ≤ 2 ^ 8 := by
    rw [List.length_map]
    omega
  obtain ⟨hnum, hattr⟩ := TableFields.create_attrIdx hschema h
  obtain ⟨-, -, hsame, hname, hid, -, hfile⟩ := TableFields.create_spec hschema h
  refine ⟨⟨hattr, fun name fid hnone => ?_, ?_⟩, hsame, ⟨ids, h, rfl⟩, hfile, fun fid name hnone => ?_⟩
  · rw [hname] at hnone
    cases hnone
  · rw [hnum, List.length_map, Nat.mod_eq_of_lt hlength]
  · rw [hid] at hnone
    cases hnone

/-- **After a restart** the fields of the schema have their ids, and no other field has an id below
them. Without added fields there are none after it. -/
theorem Created.restart {infos : List FieldSpec} {ids : TableFields} (h : Created infos ids)
    (hlength : infos.length < 2 ^ 8) :
    ∃ ids', (ids.dump true).restart = some ids' ∧ Numbers infos ids' ∧ ids'.attrIdx = ids.attrIdx ∧
      (ids.idName = (fun _ => none) → ids'.nameId = fun _ => none) := by
  obtain ⟨t, ht, hattr⟩ := h.created
  have hnew := created_create hlength ht
  have hschema : (infos.map FieldSpec.name).length ≤ 2 ^ 8 := by
    rw [List.length_map]
    omega
  obtain ⟨-, -, -, hname, -, -, -⟩ := TableFields.create_spec hschema ht
  rw [TableFields.dump]
  split
  · refine ⟨{ t with file := .absent, given := ids.given }, ?_, ?_, hattr, fun _ => hname⟩
    · rw [TableFields.restart, h.schemaOf, ht, Option.bind_some, h.file]
    · exact ⟨hnew.schema, hnew.added, hnew.fieldNum⟩
  · rw [if_pos rfl, TableFields.restart, h.schemaOf, ht, Option.bind_some]
    refine ⟨_, rfl, ⟨hnew.schema, fun name fid hfid => ?_, hnew.fieldNum⟩, hattr, fun hnone => ?_⟩
    · cases mem_of_assign hfid with
      | inl hmem =>
        obtain ⟨r, hr, hswap⟩ := List.mem_map.mp hmem
        obtain ⟨⟨i, n⟩, hin, rfl⟩ := List.mem_map.mp hr
        cases hswap
        exact (h.idName _ n (TableFields.mem_idNames.mp hin).2).1
      | inr hold => exact hnew.added name fid hold
    · funext name
      cases hfid : assign _ t.nameId name with
      | none => exact hfid
      | some fid =>
        cases mem_of_assign hfid with
        | inl hmem =>
          obtain ⟨r, hr, hswap⟩ := List.mem_map.mp hmem
          obtain ⟨⟨i, n⟩, hin, rfl⟩ := List.mem_map.mp hr
          have hid := (TableFields.mem_idNames.mp hin).2
          rw [hnone] at hid
          cases hid
        | inr hold =>
          rw [hname] at hold
          cases hold

/-! ### The invariant -/

/-- A field is added to the ids while the counter is below its end. -/
theorem Created.addNewField {infos : List FieldSpec} {ids : TableFields} (h : Created infos ids)
    (hnum : ids.fieldNum + 1 < 2 ^ 8) (name : Bytes) (made : Bool) :
    Created infos (ids.addNewField name made) ∧
      (ids.addNewField name made).fieldNum ≤ ids.fieldNum + 1 ∧
      ∀ other, other = name ∨ (ids.getAttrIdx other).isSome →
        ((ids.addNewField name made).getAttrIdx other).isSome := by
  have hmod : (ids.fieldNum + 1) % 2 ^ 8 = ids.fieldNum + 1 := Nat.mod_eq_of_lt hnum
  have hcounter := h.fieldNum
  rw [TableFields.addNewField]
  split
  · rename_i hattr
    refine ⟨h, Nat.le_succ _, fun other hother => ?_⟩
    cases hother with
    | inl heq =>
      rw [heq, TableFields.getAttrIdx]
      simp [hattr]
    | inr hknown => exact hknown
  · dsimp only
    rw [hmod]
    split
    · rename_i hname
      refine ⟨⟨⟨h.schema, h.added, ?_⟩, h.schemaOf, h.created, h.file, h.idName⟩, le_refl _,
        fun other hother => ?_⟩
      · show infos.length ≤ ids.fieldNum + 1
        omega
      · cases hother with
        | inl heq =>
          rw [heq, TableFields.getAttrIdx]
          simp [hname]
        | inr hknown => exact hknown
    · refine ⟨⟨⟨h.schema, fun other fid hother => ?_, ?_⟩, h.schemaOf, h.created, h.file,
        fun fid other hother => ?_⟩, le_refl _, fun other hother => ?_⟩
      · obtain ⟨-, hid⟩ | ⟨-, hold⟩ := of_update_eq (f := ids.nameId) hother
        · cases hid
          exact hcounter
        · exact h.added other fid hold
      · show infos.length ≤ ids.fieldNum + 1
        omega
      · replace hother : Function.update ids.idName ids.fieldNum (some name) fid = some other := hother
        show infos.length ≤ fid ∧ (Function.update ids.nameId name (some ids.fieldNum) other).isSome
        by_cases heq : other = name
        · rw [heq, Function.update_self]
          refine ⟨?_, rfl⟩
          by_cases hfid : fid = ids.fieldNum
          · rw [hfid]
            exact hcounter
          · rw [Function.update_of_ne hfid] at hother
            exact (h.idName fid other hother).1
        · rw [Function.update_of_ne heq]
          by_cases hfid : fid = ids.fieldNum
          · rw [hfid, Function.update_self] at hother
            cases hother
            exact absurd rfl heq
          · rw [Function.update_of_ne hfid] at hother
            exact h.idName fid other hother
      · show ((ids.attrIdx other).or
          (Function.update ids.nameId name (some ids.fieldNum) other)).isSome
        by_cases heq : other = name
        · rw [heq, Function.update_self]
          simp
        · rw [Function.update_of_ne heq]
          exact hother.resolve_left heq

/-- **The invariant**: `docs` were added, and `names` are the names of the calls of `AddNewField`. -/
structure Opened (infos : List FieldSpec) (docs : List (List DocField)) (names : List Bytes)
    (s : FilterTable) : Prop extends Created infos s.ids where
  infosOf : s.infos = infos
  counter : s.ids.fieldNum ≤ infos.length + names.length
  known : ∀ name ∈ names, (s.ids.getAttrIdx name).isSome
  length : infos.length ≤ s.fields.length
  unadded : (∀ name ∈ names, name ∈ infos.map FieldSpec.name) →
    s.ids.nameId = (fun _ => none) ∧ s.ids.idName = (fun _ => none) ∧
      s.fields.length = infos.length
  given : (∀ doc ∈ docs, Gives infos doc) → ∀ j < infos.length,
    s.fields[j]? = (newFields infos)[j]?.bind (built s.rows j s.rows.length)
  missed : ∀ doc ∈ docs, ¬ Gives infos doc → ∃ j < infos.length,
    (newFields infos)[j]?.bind (built s.rows j s.rows.length) = none

theorem opened_create {infos : List FieldSpec} (hlength : infos.length < 2 ^ 8) {s : FilterTable}
    (h : create infos = some s) : Opened infos [] [] s := by
  obtain ⟨ids, hids, rfl⟩ := Option.map_eq_some_iff.mp h
  have hcreated := created_create hlength hids
  have hschema : (infos.map FieldSpec.name).length ≤ 2 ^ 8 := by
    rw [List.length_map]
    omega
  obtain ⟨hnum, -⟩ := TableFields.create_attrIdx hschema hids
  obtain ⟨-, -, -, hname, hid, -, -⟩ := TableFields.create_spec hschema hids
  have hplaces : (newFields infos).length = infos.length := List.length_map _
  refine ⟨hcreated, rfl, ?_, nofun, le_of_eq hplaces.symm, fun _ => ⟨hname, hid, hplaces⟩,
    fun _ j _ => ?_, nofun⟩
  · show ids.fieldNum ≤ _
    rw [hnum, List.length_map, Nat.mod_eq_of_lt hlength]
    exact Nat.le_refl _
  · show (newFields infos)[j]? = (newFields infos)[j]?.bind some
    cases (newFields infos)[j]? <;> rfl

section Steps

variable {infos : List FieldSpec} {docs : List (List DocField)} {names : List Bytes}
  {s s' : FilterTable}

/-- `MultiFieldsRangeIndex::AddNewField` leaves the places that there are. -/
theorem getElem?_addNewIndex {fields : List (Option FieldRangeIndex)} {j : ℕ}
    (hj : j < fields.length) (fid : ℕ) (info : FieldSpec) :
    (addNewIndex fid info fields)[j]? = fields[j]? := by
  rw [addNewIndex]
  split
  · rfl
  · rw [List.append_assoc, List.getElem?_append_left hj]

theorem length_addNewIndex (fid : ℕ) (info : FieldSpec) (fields : List (Option FieldRangeIndex)) :
    fields.length ≤ (addNewIndex fid info fields).length := by
  rw [addNewIndex]
  split
  · exact Nat.le_refl _
  · rw [List.append_assoc, List.length_append]
    exact Nat.le_add_right _ _

theorem addNewField_eq (info : FieldSpec) (made : Bool) (s : FilterTable) :
    ∃ fields, s.addNewField info made =
        { s with ids := s.ids.addNewField info.name made, fields } ∧
      (∀ j < s.fields.length, fields[j]? = s.fields[j]?) ∧ s.fields.length ≤ fields.length ∧
      ((s.ids.attrIdx info.name).isSome → fields = s.fields) := by
  rw [addNewField]
  split
  · rename_i hattr
    refine ⟨s.fields, ?_, fun _ _ => rfl, Nat.le_refl _, fun _ => rfl⟩
    rw [TableFields.addNewField, if_pos hattr]
  · rename_i hattr
    dsimp only
    split
    · exact ⟨s.fields, rfl, fun _ _ => rfl, Nat.le_refl _, fun _ => rfl⟩
    · split
      · exact ⟨_, rfl, fun j hj => getElem?_addNewIndex hj _ info, length_addNewIndex _ info _,
          fun h => absurd h hattr⟩
      · exact ⟨s.fields, rfl, fun _ _ => rfl, Nat.le_refl _, fun _ => rfl⟩

theorem Opened.addNewField (h : Opened infos docs names s)
    (hnum : infos.length + names.length + 1 < 2 ^ 8) (info : FieldSpec) (made : Bool) :
    Opened infos docs (names ++ [info.name]) (s.addNewField info made) := by
  have hcounter := h.counter
  obtain ⟨hcreated, hnext, hknown⟩ :=
    h.toCreated.addNewField (by omega) info.name made
  obtain ⟨fields, heq, hplaces, hlonger, hstatic⟩ := addNewField_eq info made s
  have hlength := h.length
  rw [heq]
  refine ⟨hcreated, h.infosOf, ?_, fun name hname => ?_, le_trans hlength hlonger, fun hall => ?_,
    fun hgives j hj => ?_, h.missed⟩
  · show (s.ids.addNewField info.name made).fieldNum ≤ _
    rw [List.length_append, List.length_singleton]
    omega
  · cases List.mem_append.mp hname with
    | inl hold => exact hknown name (.inr (h.known name hold))
    | inr hnew => exact hknown name (.inl (List.mem_singleton.mp hnew))
  · obtain ⟨hname, hid, hfields⟩ := h.unadded fun name hname => hall name (List.mem_append_left _ hname)
    have hmem := hall info.name (List.mem_append_right _ (List.mem_singleton.mpr rfl))
    obtain ⟨j, hj⟩ := List.mem_iff_getElem?.mp hmem
    have hattr : (s.ids.attrIdx info.name).isSome := by
      rw [(h.schema info.name j).mpr hj]
      rfl
    have hsame : s.ids.addNewField info.name made = s.ids := by
      rw [TableFields.addNewField, if_pos hattr]
    show (s.ids.addNewField info.name made).nameId = _ ∧ (s.ids.addNewField info.name made).idName = _ ∧
      fields.length = _
    rw [hsame, hstatic hattr]
    exact ⟨hname, hid, hfields⟩
  · show fields[j]? = _
    rw [hplaces j (by omega)]
    exact h.given hgives j hj

/-- A field that the document does not give has a cell that was never written. -/
theorem getElem?_rowOf (hids : Numbers infos s.ids) (hinfos : s.infos = infos) {j : ℕ}
    {info : FieldSpec} (hj : infos[j]? = some info) {doc : List DocField}
    (hnone : info.name ∉ doc.map DocField.name) : (s.rowOf doc)[j]? = some info.freshCell := by
  rw [rowOf]
  have hfresh : (s.infos.map FieldSpec.freshCell)[j]? = some info.freshCell := by
    rw [hinfos, List.getElem?_map, hj, Option.map_some]
  revert hfresh
  generalize s.infos.map FieldSpec.freshCell = row
  intro hfresh
  induction doc generalizing row with
  | nil => exact hfresh
  | cons field doc ih =>
    rw [List.map_cons, List.mem_cons, not_or] at hnone
    rw [List.foldl_cons]
    apply ih hnone.2
    split
    · exact hfresh
    · rename_i i other hplace
      obtain ⟨i', hi', hother⟩ := Option.bind_eq_some_iff.mp hplace
      obtain ⟨other', -, hpair⟩ := Option.map_eq_some_iff.mp hother
      cases hpair
      have hne : i ≠ j := fun heq => by
        rw [heq, hids.attrIdx_iff hj] at hi'
        exact hnone.1 hi'.symm
      rw [List.getElem?_set_ne hne]
      exact hfresh

/-- An index takes no cell that was never written. -/
theorem add_freshCell {info : FieldSpec} {index : FieldRangeIndex}
    (hkind : index.isNumeric = (FieldRangeIndex.create info.dataType).isNumeric) (docid : ℕ) :
    ((info.freshCell.bytes?).bind fun value => (index.add value docid).map some) = none := by
  rw [FieldSpec.freshCell]
  split
  · rfl
  · rename_i htype
    have hnumeric : index.isNumeric = true := by
      rw [hkind]
      simp [FieldRangeIndex.create, htype]
    have hempty : index.add [] docid = none := by
      rw [FieldRangeIndex.add, FieldRangeIndex.keys?, if_pos hnumeric]
      rfl
    cases hdata : info.dataType with
    | string => exact absurd hdata htype
    | vector => exact congrArg (Option.map some) hempty
    | multiString => exact congrArg (Option.map some) hempty
    | int => rfl
    | long => rfl
    | float => rfl
    | double => rfl

/-- A new row leaves an index undefined that is undefined. -/
theorem built_of_none {rows : List Row} {j : ℕ} {place : Option (Option FieldRangeIndex)}
    (h : place.bind (built rows j rows.length) = none) (row : Row) :
    place.bind (built (rows ++ [row]) j (rows.length + 1)) = none := by
  cases place with
  | none => rfl
  | some index =>
    rw [Option.bind_some] at h ⊢
    rw [built_succ, built_append rows row j (Nat.le_refl _), h]
    rfl

theorem Opened.add (h : Opened infos docs names s) {doc : List DocField}
    (hnodup : (doc.map DocField.name).Nodup) (hadd : s.add doc = some s') :
    Opened infos (docs ++ [doc]) names s' := by
  rw [FilterTable.add] at hadd
  have hsame := same_runOps (fun _ _ _ => same_addFieldOf) hadd
  have hids : s'.ids = s.ids := hsame.ids
  have hrows : s'.rows = s.rows ++ [s.rowOf doc] := hsame.rows
  have hlength : s'.fields.length = s.fields.length := hsame.length
  have hnum : s'.rows.length = s.rows.length + 1 := by rw [hrows, List.length_append, List.length_singleton]
  refine ⟨by rw [hids]; exact h.toCreated, hsame.infos.trans h.infosOf, by rw [hids]; exact h.counter,
    by rw [hids]; exact h.known, by rw [hlength]; exact h.length, fun hall => ?_,
    fun hgives j hj => ?_, fun doc' hdoc' hnot => ?_⟩
  · rw [hids, hlength]
    exact h.unadded hall
  · have hat : infos[j]? = some infos[j] := List.getElem?_eq_getElem hj
    have hbefore := h.given (fun d hd => hgives d (List.mem_append_left _ hd)) j hj
    rw [getElem?_addFields (s := { s with
      rows := s.rows ++ [s.rowOf doc]
      columns := s.columns ++ s.columnsOf s.rows.length doc }) h.toNumbers h.infosOf hat hnodup hadd]
    show (if _ then s.fields[j]?.bind (addCell (s.rows ++ [s.rowOf doc]) s.rows.length j)
      else s.fields[j]?) = _
    rw [hbefore, hnum, hrows]
    split
    · rw [Option.bind_assoc]
      apply congrArg
      funext index
      rw [built_succ, built_append s.rows _ j (Nat.le_refl _)]
    · rename_i hnone
      -- the document lacks the field, so that the field is not indexed
      have hindex : infos[j].isIndex = false := by
        by_contra hyes
        exact hnone (hgives doc (List.mem_append_right _ (List.mem_singleton.mpr rfl)) _
          (List.getElem_mem hj) (by simpa using hyes))
      have hnew : (newFields infos)[j]? = some none := by
        rw [newFields, List.getElem?_map, hat, Option.map_some, FieldSpec.newIndex, hindex]
        rfl
      rw [hnew, Option.bind_some, Option.bind_some, built_none, built_none]
  · rw [hnum, hrows]
    cases List.mem_append.mp hdoc' with
    | inl hold =>
      obtain ⟨j, hj, hnone⟩ := h.missed doc' hold hnot
      exact ⟨j, hj, built_of_none hnone _⟩
    | inr hnew =>
      cases List.mem_singleton.mp hnew
      simp only [Gives, not_forall] at hnot
      obtain ⟨info, hinfo, hindex, hlacks⟩ := hnot
      obtain ⟨j, hj⟩ := List.mem_iff_getElem?.mp hinfo
      obtain ⟨hlt, -⟩ := List.getElem?_eq_some_iff.mp hj
      refine ⟨j, hlt, ?_⟩
      rw [newFields, List.getElem?_map, hj, Option.map_some, Option.bind_some, FieldSpec.newIndex,
        if_pos hindex, built_succ]
      cases hbuilt : built (s.rows ++ [s.rowOf doc]) j s.rows.length
          (some (FieldRangeIndex.create info.dataType)) with
      | none => rfl
      | some after =>
        obtain ⟨i, rfl, hkind⟩ := built_some hbuilt
        rw [Option.bind_some, addCell, rawValue, List.getElem?_append_right (Nat.le_refl _),
          Nat.sub_self, List.getElem?_cons_zero, Option.bind_some,
          getElem?_rowOf h.toNumbers h.infosOf hj hlacks, Option.bind_some]
        exact add_freshCell hkind _

/-- The documents that are added. -/
def newDocs (ops : List FilterOp) : List (List DocField) :=
  ops.filterMap fun op =>
    match op with
    | .addNewField _ _ => none
    | .add doc => some doc

/-- The names of the calls of `AddNewField`. -/
def newNames (ops : List FilterOp) : List Bytes :=
  ops.filterMap fun op =>
    match op with
    | .addNewField info _ => some info.name
    | .add _ => none

/-- **Every run** of a table with ids below the end of the counter. -/
theorem Opened.run (h : Opened infos docs names s) {ops : List FilterOp}
    (hnum : infos.length + (names ++ newNames ops).length < 2 ^ 8)
    (hdocs : ∀ doc ∈ newDocs ops, (doc.map DocField.name).Nodup) (hrun : runOps step ops s = some s') :
    Opened infos (docs ++ newDocs ops) (names ++ newNames ops) s' := by
  induction ops generalizing docs names s with
  | nil =>
    cases hrun
    have hdocs : docs ++ newDocs [] = docs := List.append_nil docs
    have hnames : names ++ newNames [] = names := List.append_nil names
    rw [hdocs, hnames]
    exact h
  | cons op ops ih =>
    obtain ⟨t, ht, hrest⟩ := Option.bind_eq_some_iff.mp hrun
    cases op with
    | addNewField info made =>
      cases ht
      have hnames : names ++ newNames (.addNewField info made :: ops) =
          names ++ [info.name] ++ newNames ops := by
        rw [List.append_assoc]
        rfl
      rw [hnames] at hnum ⊢
      rw [List.length_append, List.length_append, List.length_singleton] at hnum
      refine ih (h.addNewField (by omega) info made) ?_ hdocs hrest
      rw [List.length_append, List.length_append, List.length_singleton]
      exact hnum
    | add doc =>
      have hlist : docs ++ newDocs (.add doc :: ops) = docs ++ [doc] ++ newDocs ops := by
        rw [List.append_assoc]
        rfl
      rw [hlist]
      exact ih (h.add (hdocs doc List.mem_cons_self) ht) hnum
        (fun d hd => hdocs d (List.mem_cons_of_mem doc hd)) hrest

/-! ### After the restart -/

/-- **After `Load`** the index of each field of the schema is built from the rows, and there are no
other places; where this is defined, so is `Load`. -/
theorem Opened.reload_spec (h : Opened infos docs names s) (hlength : infos.length < 2 ^ 8) :
    (∀ t, s.reload = some t → Numbers infos t.ids ∧ t.ids.attrIdx = s.ids.attrIdx ∧
      (s.ids.idName = (fun _ => none) → t.ids.nameId = fun _ => none) ∧
      t.fields.length = infos.length ∧
      ∀ j < infos.length, t.fields[j]? =
        (newFields infos)[j]?.bind (built s.rows j s.rows.length)) ∧
    ((∀ j < infos.length, ∃ index,
        (newFields infos)[j]?.bind (built s.rows j s.rows.length) = some index) →
      ∃ t, s.reload = some t) := by
  obtain ⟨ids, hids, hnumbers, hattr, hnone⟩ := h.toCreated.restart hlength
  have hinfos := h.infosOf
  subst hinfos
  have hplaces : (newFields s.infos).length = s.infos.length := List.length_map _
  let t₀ : FilterTable :=
    { s with
      ids
      columns := if ids.file = .absent then [] else s.columns
      fields := newFields s.infos }
  constructor
  · intro t ht
    rw [reload, hids, Option.bind_some] at ht
    obtain ⟨hsame, hbuilt⟩ := getElem?_load (s := t₀) hnumbers rfl ht
    have htids : t.ids = ids := hsame.ids
    rw [htids]
    exact ⟨hnumbers, hattr, hnone, hsame.length.trans hplaces, hbuilt⟩
  · intro hdefined
    rw [reload, hids, Option.bind_some]
    exact load_isSome (s := t₀) hnumbers rfl hdefined

/-- Where nothing was added and nothing is missing, the indexes are those from before. -/
theorem Opened.fields_eq (h : Opened infos docs names s) {t : FilterTable}
    (hadded : s.fields.length = infos.length) (hlen : t.fields.length = infos.length)
    (hgives : ∀ doc ∈ docs, Gives infos doc)
    (hbuilt : ∀ j < infos.length, t.fields[j]? =
      (newFields infos)[j]?.bind (built s.rows j s.rows.length)) : t.fields = s.fields := by
  apply List.ext_getElem?
  intro j
  by_cases hj : j < infos.length
  · rw [hbuilt j hj, h.given hgives j hj]
  · rw [List.getElem?_eq_none (by omega), List.getElem?_eq_none (by omega)]

theorem Opened.survives (h : Opened infos docs names s) (hlength : infos.length < 2 ^ 8) :
    s.Survives ↔ (∀ name ∈ names, name ∈ infos.map FieldSpec.name) ∧
      ∀ doc ∈ docs, Gives infos doc := by
  obtain ⟨hspec, hdefined⟩ := h.reload_spec hlength
  constructor
  · rintro ⟨t, ht, hwithin, -⟩
    obtain ⟨hnumbers, -, -, hlen, hbuilt⟩ := hspec t ht
    refine ⟨fun name hname => ?_, fun doc hdoc => ?_⟩
    · obtain ⟨fid, hfid, hlt⟩ := hwithin name (h.known name hname)
      cases TableFields.getAttrIdx_eq_some hfid with
      | inl hattr => exact List.mem_of_getElem? ((hnumbers.schema name fid).mp hattr)
      | inr hadded => exact absurd (hnumbers.added name fid hadded) (by omega)
    · by_contra hnot
      obtain ⟨j, hj, hnone⟩ := h.missed doc hdoc hnot
      rw [← hbuilt j hj, List.getElem?_eq_none_iff] at hnone
      omega
  · rintro ⟨hnames, hgives⟩
    obtain ⟨hname, hid, hadded⟩ := h.unadded hnames
    obtain ⟨t, ht⟩ := hdefined fun j hj => by
      rw [← h.given hgives j hj]
      exact ⟨_, List.getElem?_eq_getElem (by omega)⟩
    obtain ⟨hnumbers, hattr, hnone, hlen, hbuilt⟩ := hspec t ht
    have hsame : t.ids.getAttrIdx = s.ids.getAttrIdx := by
      funext name
      rw [TableFields.getAttrIdx, TableFields.getAttrIdx, hattr, hnone hid, hname]
    refine ⟨t, ht, fun name hknown => ?_, fun request _ docid => ?_⟩
    · obtain ⟨fid, hfid⟩ := Option.isSome_iff_exists.mp hknown
      refine ⟨fid, by rw [hsame, hfid], ?_⟩
      rw [TableFields.getAttrIdx, hname, Option.or_none] at hfid
      rw [hlen]
      exact h.toNumbers.lt hfid
    · have hindex : t.index = s.index := by
        rw [index, index, h.fields_eq hadded hlen hgives hbuilt]
        congr 1
        funext name
        rw [attrIdx, attrIdx, hsame]
      rw [hindex]

/-- A table with an indexed number. -/
def numbers : List FieldSpec := [⟨[95, 105, 100], .string, false⟩, ⟨[110], .int, true⟩]

/-- A value of a field of four bytes, or a string. -/
def fieldOf (name value : Bytes) (datatype : DataType) : DocField := ⟨name, value, [], datatype⟩

/-- Two documents, and a call of `AddNewField` that is refused. -/
def plainOps : List FilterOp :=
  [.add [fieldOf [95, 105, 100] [49] .string, fieldOf [110] [7, 0, 0, 0] .int],
    .addNewField ⟨[110], .int, true⟩ true,
    .add [fieldOf [110] [9, 0, 0, 0] .int, fieldOf [95, 105, 100] [50] .string]]

/-- An indexed number is added, and a document with it. -/
def addedOps : List FilterOp :=
  [.addNewField ⟨[97], .int, true⟩ true,
    .add [fieldOf [95, 105, 100] [49] .string, fieldOf [110] [7, 0, 0, 0] .int,
      fieldOf [97] [5, 0, 0, 0] .int]]

end Steps

end FilterTable

end AwaDB
