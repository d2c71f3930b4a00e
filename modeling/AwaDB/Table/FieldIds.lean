import AwaDB.Lib.Lists
import AwaDB.Lib.Run
import AwaDB.Table.Row
import Mathlib.Data.List.ProdSigma

/-!
# The ids of the fields (`table/table.cc`, `table/docid_fields_mgr.cc`)

The fields of the schema get their ids when the table is created, and a field that is added later gets
the next number of `field_num_`, an 8-bit counter. `DocidFieldsMgr` writes the added fields with their
ids into its file; the counter is not written.

* `UniqueIds`: two fields have two ids, and each field has the id it was first given;
* `uniqueIds_always`: that is so in every run in which no field is added while the counter is at the id
  of another field;
* `reused_id`: after a restart the counter is back at the number of fields of the schema.
-/

namespace AwaDB

open Lib

/-- What `DocidFieldsMgr::Dump` writes: the fields in the order of their ids, and the values as the
docid, the field and the id they were put with. -/
structure FieldsImage where
  fieldsSize : ℕ
  fields : List (ℕ × Bytes)
  stored : List (ℕ × Bytes × ℕ)
deriving DecidableEq, Repr

/-- The file of `DocidFieldsMgr`; `broken` is one that a `Dump` has opened and not finished. -/
inductive FieldsFile where
  | absent
  | whole (image : FieldsImage)
  | broken
deriving DecidableEq, Repr

/-- `Table` and its `DocidFieldsMgr`: `fieldNum` is `field_num_`, `attrIdx` is `attr_idx_map_`, `nameId`
and `idName` are `fid_name2id_` and `fid_id2name_`, and `fieldsSize` is `fields_size_`. `schema` and
`file` are on disk. `given` has the id that a name was first given. -/
structure TableFields where
  fieldNum : ℕ
  attrIdx : Bytes → Option ℕ
  nameId : Bytes → Option ℕ
  idName : ℕ → Option Bytes
  fieldsSize : ℕ
  stored : List (ℕ × Bytes × ℕ)
  file : FieldsFile
  schema : List Bytes
  given : Bytes → Option ℕ

/-- Calls after the table was created. A new column may fail to be made, and a `Dump` that has opened the
file may not come to its end. -/
inductive FieldsOp where
  | addNewField (name : Bytes) (made : Bool)
  | put (docid : ℕ) (name : Bytes)
  | dump (complete : Bool)
  | restart
deriving DecidableEq, Repr

namespace TableFields

/-- The constructor. -/
def empty : TableFields where
  fieldNum := 0
  attrIdx := fun _ => none
  nameId := fun _ => none
  idName := fun _ => none
  fieldsSize := 0
  stored := []
  file := .absent
  schema := []
  given := fun _ => none

/-- `Table::AddField`. -/
def addField (name : Bytes) (s : TableFields) : Option TableFields :=
  if (s.attrIdx name).isSome then none
  else
    some { s with
      attrIdx := Function.update s.attrIdx name (some s.fieldNum)
      fieldNum := (s.fieldNum + 1) % 2 ^ 8 }

/-- The loop of `Table::CreateTable`. -/
def addFields : List Bytes → TableFields → Option TableFields
  | [], s => some s
  | name :: names, s => (s.addField name).bind (addFields names)

/-- `Table::CreateTable` in a new directory. -/
def create (schema : List Bytes) : Option TableFields :=
  (addFields schema empty).map fun s => { s with schema, given := s.attrIdx }

/-- `Table::GetAttrIdx`. -/
def getAttrIdx (s : TableFields) (name : Bytes) : Option ℕ := (s.attrIdx name).or (s.nameId name)

/-- `Table::AddNewField` and `DocidFieldsMgr::AddField`. The counter goes on also when the manager has
the field. -/
def addNewField (name : Bytes) (made : Bool) (s : TableFields) : TableFields :=
  if (s.attrIdx name).isSome then s
  else
    let fid := s.fieldNum
    let s := { s with fieldNum := (s.fieldNum + 1) % 2 ^ 8 }
    if (s.nameId name).isSome then s
    else
      { s with
        nameId := Function.update s.nameId name (some fid)
        idName := Function.update s.idName fid (some name)
        fieldsSize := if made then (s.fieldsSize + 1) % 2 ^ 8 else s.fieldsSize
        given := Function.update s.given name ((s.given name).or (some fid)) }

/-- The entries of `fid_id2name_`. -/
def idNames (s : TableFields) : List (ℕ × Bytes) :=
  (List.range (2 ^ 8)).filterMap fun fid => (s.idName fid).map fun name => (fid, name)

/-- `DocidFieldsMgr::Dump`. The length of a name is written as one byte. -/
def dump (complete : Bool) (s : TableFields) : TableFields :=
  if s.fieldsSize ≠ s.idNames.length then s
  else if complete then
    { s with
      file := .whole
        { fieldsSize := s.fieldsSize
          fields := s.idNames.map fun r => (r.1, r.2.take (r.2.length % 2 ^ 8))
          stored := s.stored } }
  else { s with file := .broken }

/-- `DocidFieldsMgr::Load`. -/
def load (image : FieldsImage) (s : TableFields) : TableFields :=
  { s with
    fieldsSize := image.fieldsSize
    idName := assign image.fields s.idName
    nameId := assign (image.fields.map Prod.swap) s.nameId
    stored := image.stored }

/-- The table is created again, and the manager loads its file if there is one. To load what an
unfinished `Dump` has left is undefined. -/
def restart (s : TableFields) : Option TableFields :=
  (create s.schema).bind fun t =>
    let t := { t with file := s.file, given := s.given }
    match s.file with
    | .absent => some t
    | .whole image => some (t.load image)
    | .broken => none

/-- One step. -/
def step : FieldsOp → TableFields → Option TableFields
  | .addNewField name made, s => some (s.addNewField name made)
  | .put docid name, s =>
    match s.nameId name with
    | none => some s
    | some fid => some { s with stored := s.stored ++ [(docid, name, fid)] }
  | .dump complete, s => some (s.dump complete)
  | .restart, s => s.restart

/-- **Two fields have two ids**, each field has the id it was first given, and a value is read with the
id it was put with. -/
structure UniqueIds (s : TableFields) : Prop where
  distinct : ∀ a b fid, s.getAttrIdx a = some fid → s.getAttrIdx b = some fid → a = b
  keeps : ∀ name fid, s.getAttrIdx name = some fid → s.given name = some fid
  readBack : ∀ docid name fid, (docid, name, fid) ∈ s.stored → s.getAttrIdx name = some fid

/-- A new field gets an id that no other field has, it has no other id from before, and its name has a
length of one byte; and the manager is not loaded after an unfinished `Dump`. -/
def FreshId : FieldsOp → TableFields → Prop
  | .addNewField name _, s => s.getAttrIdx name = none →
      (∀ other, s.getAttrIdx other ≠ some s.fieldNum) ∧
        (s.given name = none ∨ s.given name = some s.fieldNum) ∧ name.length < 2 ^ 8
  | .restart, s => s.file ≠ .broken
  | _, _ => True

/-! ### The schema -/

/-- The first fields of the schema have the ids up to their number. -/
structure Numbered (num : ℕ) (s : TableFields) : Prop where
  fieldNum : s.fieldNum = num % 2 ^ 8
  lt : ∀ name fid, s.attrIdx name = some fid → fid < num
  injective : ∀ a b fid, s.attrIdx a = some fid → s.attrIdx b = some fid → a = b

theorem Numbered.addField {num : ℕ} {name : Bytes} {s s' : TableFields} (h : Numbered num s)
    (hnum : num < 2 ^ 8) (hadd : s.addField name = some s') : Numbered (num + 1) s' := by
  rw [TableFields.addField] at hadd
  split at hadd
  · cases hadd
  · cases hadd
    have hid : s.fieldNum = num := h.fieldNum.trans (Nat.mod_eq_of_lt hnum)
    have hcases : ∀ other fid, Function.update s.attrIdx name (some s.fieldNum) other = some fid →
        other = name ∧ fid = num ∨ s.attrIdx other = some fid := by
      intro other fid hother
      by_cases heq : other = name
      · subst heq
        rw [Function.update_self, hid] at hother
        exact .inl ⟨rfl, (Option.some.inj hother).symm⟩
      · rw [Function.update_of_ne heq] at hother
        exact .inr hother
    refine ⟨?_, fun other fid hother => ?_, fun a b fid ha hb => ?_⟩
    · show (s.fieldNum + 1) % 2 ^ 8 = _
      rw [hid]
    · obtain ⟨-, rfl⟩ | hold := hcases other fid hother
      · exact Nat.lt_succ_self _
      · exact Nat.lt_succ_of_lt (h.lt other fid hold)
    · obtain ⟨rfl, rfl⟩ | holda := hcases a fid ha
      · obtain ⟨rfl, -⟩ | holdb := hcases b _ hb
        · rfl
        · exact absurd (h.lt b _ holdb) (Nat.lt_irrefl _)
      · obtain ⟨rfl, rfl⟩ | holdb := hcases b fid hb
        · exact absurd (h.lt a _ holda) (Nat.lt_irrefl _)
        · exact h.injective a b fid holda holdb

theorem Numbered.addFields {num : ℕ} {names : List Bytes} {s s' : TableFields} (h : Numbered num s)
    (hnum : num + names.length ≤ 2 ^ 8) (hadd : s.addFields names = some s') :
    Numbered (num + names.length) s' := by
  induction names generalizing num s with
  | nil =>
    cases hadd
    exact h
  | cons name names ih =>
    obtain ⟨t, ht, hrest⟩ := Option.bind_eq_some_iff.mp hadd
    rw [List.length_cons] at hnum ⊢
    have hnext := ih (h.addField (by omega) ht) (by omega) hrest
    rwa [Nat.add_right_comm] at hnext

/-- The ids of the schema follow the order of its fields. -/
theorem Numbered.attrIdx_addFields {num : ℕ} {names : List Bytes} {s s' : TableFields}
    (h : Numbered num s) (hnum : num + names.length ≤ 2 ^ 8) (hadd : s.addFields names = some s') :
    (∀ name fid, s.attrIdx name = some fid → s'.attrIdx name = some fid) ∧
      ∀ j name, names[j]? = some name → s'.attrIdx name = some (num + j) := by
  induction names generalizing num s with
  | nil =>
    cases hadd
    exact ⟨fun _ _ hname => hname, fun j name hname => by cases hname⟩
  | cons first names ih =>
    obtain ⟨t, ht, hrest⟩ := Option.bind_eq_some_iff.mp hadd
    rw [List.length_cons] at hnum
    obtain ⟨hkeep, hids⟩ := ih (h.addField (by omega) ht) (by omega) hrest
    have hid : s.fieldNum = num := h.fieldNum.trans (Nat.mod_eq_of_lt (by omega))
    rw [TableFields.addField] at ht
    split at ht
    · cases ht
    · rename_i hnew
      cases ht
      constructor
      · intro name fid hname
        have hne : name ≠ first := fun heq => by
          rw [heq] at hname
          rw [hname] at hnew
          exact hnew rfl
        apply hkeep
        show Function.update s.attrIdx first (some s.fieldNum) name = some fid
        rw [Function.update_of_ne hne, hname]
      · intro j name hname
        cases j with
        | zero =>
          cases hname
          apply hkeep
          show Function.update s.attrIdx first (some s.fieldNum) first = some num
          rw [Function.update_self, hid]
        | succ j =>
          rw [List.getElem?_cons_succ] at hname
          rw [hids j name hname, Nat.add_right_comm, Nat.add_assoc]

/-- The fields of the schema are all that the table has. -/
theorem addFields_frame {names : List Bytes} {s s' : TableFields} (hadd : s.addFields names = some s') :
    s'.nameId = s.nameId ∧ s'.idName = s.idName ∧ s'.stored = s.stored ∧ s'.file = s.file := by
  induction names generalizing s with
  | nil =>
    cases hadd
    exact ⟨rfl, rfl, rfl, rfl⟩
  | cons name names ih =>
    obtain ⟨t, ht, hrest⟩ := Option.bind_eq_some_iff.mp hadd
    rw [TableFields.addField] at ht
    split at ht
    · cases ht
    · cases ht
      have hsame := ih hrest
      exact hsame

theorem create_spec {schema : List Bytes} {s : TableFields} (hschema : schema.length ≤ 2 ^ 8)
    (h : create schema = some s) :
    (∃ num, Numbered num s) ∧ s.given = s.attrIdx ∧ s.schema = schema ∧
      s.nameId = (fun _ => none) ∧ s.idName = (fun _ => none) ∧ s.stored = [] ∧ s.file = .absent := by
  obtain ⟨t, ht, rfl⟩ := Option.map_eq_some_iff.mp h
  have hempty : Numbered 0 empty := ⟨rfl, fun _ _ h => (by cases h), fun _ _ _ h => (by cases h)⟩
  have hnumbered := hempty.addFields (by omega) ht
  obtain ⟨hname, hid, hstored, hfile⟩ := addFields_frame ht
  exact ⟨⟨_, hnumbered.fieldNum, hnumbered.lt, hnumbered.injective⟩, rfl, rfl, hname, hid, hstored, hfile⟩

/-- **The ids of the schema** are the positions of its fields. -/
theorem create_attrIdx {schema : List Bytes} {s : TableFields} (hschema : schema.length ≤ 2 ^ 8)
    (h : create schema = some s) :
    s.fieldNum = schema.length % 2 ^ 8 ∧
      ∀ name fid, s.attrIdx name = some fid ↔ schema[fid]? = some name := by
  obtain ⟨t, ht, rfl⟩ := Option.map_eq_some_iff.mp h
  have hempty : Numbered 0 empty := ⟨rfl, fun _ _ h => (by cases h), fun _ _ _ h => (by cases h)⟩
  have hnumbered := hempty.addFields (by omega) ht
  have hids : ∀ j name, schema[j]? = some name → t.attrIdx name = some j := by
    intro j name hname
    rw [(hempty.attrIdx_addFields (by omega) ht).2 j name hname, Nat.zero_add]
  rw [Nat.zero_add] at hnumbered
  refine ⟨hnumbered.fieldNum, fun name fid => ⟨fun hname => ?_, fun hname => hids fid name hname⟩⟩
  have hlt : fid < schema.length := hnumbered.lt name fid hname
  have hat : schema[fid]? = some schema[fid] := List.getElem?_eq_getElem hlt
  rw [hat, hnumbered.injective name _ fid hname (hids fid _ hat)]

/-! ### The invariant -/

variable {s : TableFields}

/-- An id of a field that was added: it is the first of this field, and no field of the schema has it. -/
structure Added (s : TableFields) (name : Bytes) (fid : ℕ) : Prop where
  given : s.given name = some fid
  length : name.length < 2 ^ 8
  lt : fid < 2 ^ 8
  apart : ∀ other, s.attrIdx other ≠ some fid

/-- The two maps of the manager are one, on its way to the file and back. -/
structure Unique (s : TableFields) : Prop where
  created : ∃ t, create s.schema = some t ∧ t.attrIdx = s.attrIdx
  schema : ∀ name fid, s.attrIdx name = some fid → s.given name = some fid
  fieldNum : s.fieldNum < 2 ^ 8
  names : ∀ name fid, s.nameId name = some fid ↔ s.idName fid = some name
  added : ∀ name fid, s.nameId name = some fid → s.Added name fid
  stored : ∀ docid name fid, (docid, name, fid) ∈ s.stored → s.nameId name = some fid
  file : ∀ image, s.file = .whole image →
    (∀ fid name, (fid, name) ∈ image.fields → s.Added name fid) ∧
    (∀ fid a b, (fid, a) ∈ image.fields → (fid, b) ∈ image.fields → a = b) ∧
    ∀ docid name fid, (docid, name, fid) ∈ image.stored → (fid, name) ∈ image.fields

theorem getAttrIdx_eq_some {name : Bytes} {fid : ℕ} (h : s.getAttrIdx name = some fid) :
    s.attrIdx name = some fid ∨ s.nameId name = some fid := by
  rw [getAttrIdx] at h
  cases hattr : s.attrIdx name with
  | some i =>
    rw [hattr] at h
    exact .inl h
  | none =>
    rw [hattr, Option.none_or] at h
    exact .inr h

/-- A field that was added is not in the schema. -/
theorem Unique.getAttrIdx (h : Unique s) {name : Bytes} {fid : ℕ} (hname : s.nameId name = some fid) :
    s.getAttrIdx name = some fid := by
  have hadded := h.added name fid hname
  cases hattr : s.attrIdx name with
  | some i =>
    have hgiven := h.schema name i hattr
    rw [hadded.given] at hgiven
    cases hgiven
    exact absurd hattr (hadded.apart name)
  | none => rw [TableFields.getAttrIdx, hattr, Option.none_or, hname]

theorem Unique.uniqueIds (h : Unique s) (hschema : s.schema.length ≤ 2 ^ 8) : UniqueIds s := by
  obtain ⟨t, ht, hattr⟩ := h.created
  obtain ⟨⟨num, hnumbered⟩, -⟩ := create_spec hschema ht
  have hinjective : ∀ a b fid, s.attrIdx a = some fid → s.attrIdx b = some fid → a = b := by
    rw [← hattr]
    exact hnumbered.injective
  refine ⟨fun a b fid ha hb => ?_, fun name fid hname => ?_, fun docid name fid hmem => ?_⟩
  · cases getAttrIdx_eq_some ha with
    | inl ha =>
      cases getAttrIdx_eq_some hb with
      | inl hb => exact hinjective a b fid ha hb
      | inr hb => exact absurd ha ((h.added b fid hb).apart a)
    | inr ha =>
      cases getAttrIdx_eq_some hb with
      | inl hb => exact absurd hb ((h.added a fid ha).apart b)
      | inr hb =>
        have hname := (h.names a fid).mp ha
        rw [(h.names b fid).mp hb] at hname
        exact (Option.some.inj hname).symm
  · cases getAttrIdx_eq_some hname with
    | inl hname => exact h.schema name fid hname
    | inr hname => exact (h.added name fid hname).given
  · exact h.getAttrIdx (h.stored docid name fid hmem)

theorem unique_create {schema : List Bytes} (hschema : schema.length ≤ 2 ^ 8)
    (h : create schema = some s) : Unique s := by
  obtain ⟨⟨num, hnumbered⟩, hgiven, hsame, hname, hid, hstored, hfile⟩ := create_spec hschema h
  refine ⟨⟨s, by rw [hsame]; exact h, rfl⟩, fun name fid hattr => by rw [hgiven]; exact hattr, ?_, ?_,
    ?_, ?_, ?_⟩
  · rw [hnumbered.fieldNum]
    exact Nat.mod_lt _ (by decide)
  · intro name fid
    rw [hname, hid]
    simp
  · intro name fid hnone
    rw [hname] at hnone
    cases hnone
  · intro docid name fid hmem
    rw [hstored] at hmem
    cases hmem
  · intro image hwhole
    rw [hfile] at hwhole
    cases hwhole

/-! ### Steps -/

/-- Ids that were given stay given. -/
theorem Added.mono {s' : TableFields} {name : Bytes} {fid : ℕ} (h : s.Added name fid)
    (hattr : s'.attrIdx = s.attrIdx)
    (hgiven : ∀ n i, s.given n = some i → s'.given n = some i) : s'.Added name fid :=
  ⟨hgiven name fid h.given, h.length, h.lt, by rw [hattr]; exact h.apart⟩

/-- The counter goes on, and values are put. -/
theorem Unique.keep (h : Unique s) {fieldNum : ℕ} (hnum : fieldNum < 2 ^ 8)
    {stored : List (ℕ × Bytes × ℕ)}
    (hstored : ∀ docid name fid, (docid, name, fid) ∈ stored → s.nameId name = some fid) :
    Unique { s with fieldNum, stored } := by
  have hmono : ∀ {n i}, s.Added n i → Added { s with fieldNum, stored } n i :=
    fun hadded => hadded.mono rfl fun _ _ hg => hg
  refine ⟨h.created, h.schema, hnum, h.names, fun n i hn => hmono (h.added n i hn), hstored,
    fun image hfile => ?_⟩
  obtain ⟨hadded, hone, himage⟩ := h.file image hfile
  exact ⟨fun i n hmem => hmono (hadded i n hmem), hone, himage⟩

theorem Unique.addNewField (h : Unique s) {name : Bytes} {made : Bool}
    (hguard : FreshId (.addNewField name made) s) : Unique (s.addNewField name made) := by
  have hnum : (s.fieldNum + 1) % 2 ^ 8 < 2 ^ 8 := Nat.mod_lt _ (by decide)
  rw [TableFields.addNewField]
  split
  · exact h
  · rename_i hstatic
    dsimp only
    split
    · exact h.keep hnum h.stored
    · rename_i hknown
      have hattr : s.attrIdx name = none := by simpa using hstatic
      have hname : s.nameId name = none := by simpa using hknown
      have hnone : s.getAttrIdx name = none := by rw [TableFields.getAttrIdx, hattr, hname, Option.or_none]
      obtain ⟨hfree, hfirst, hlength⟩ := hguard hnone
      have hnew : (s.given name).or (some s.fieldNum) = some s.fieldNum := by
        cases hfirst with
        | inl hfirst => rw [hfirst, Option.none_or]
        | inr hfirst => rw [hfirst, Option.some_or]
      have hgiven : ∀ n i, s.given n = some i →
          Function.update s.given name ((s.given name).or (some s.fieldNum)) n = some i := by
        intro n i hn
        by_cases heq : n = name
        · subst heq
          rw [Function.update_self, hn, Option.some_or]
        · rw [Function.update_of_ne heq, hn]
      have hunused : s.idName s.fieldNum = none := by
        cases hid : s.idName s.fieldNum with
        | none => rfl
        | some other =>
          exact absurd (h.getAttrIdx ((h.names other _).mpr hid)) (hfree other)
      have hnot : ∀ fid, s.idName fid ≠ some name := fun fid hid => by
        rw [(h.names name fid).mpr hid] at hname
        cases hname
      refine ⟨h.created, fun n i hn => hgiven n i (h.schema n i hn), hnum, fun n i => ?_, fun n i hn => ?_,
        fun docid n i hmem => ?_, fun image hfile => ?_⟩
      · show Function.update s.nameId name (some s.fieldNum) n = some i ↔
          Function.update s.idName s.fieldNum (some name) i = some n
        by_cases hn : n = name
        · subst hn
          by_cases hi : i = s.fieldNum
          · subst hi
            simp
          · rw [Function.update_self, Function.update_of_ne hi]
            exact ⟨fun heq => absurd (Option.some.inj heq).symm hi, fun hid => absurd hid (hnot i)⟩
        · rw [Function.update_of_ne hn]
          by_cases hi : i = s.fieldNum
          · subst hi
            rw [Function.update_self, h.names, hunused]
            exact ⟨fun heq => (by cases heq), fun heq => absurd (Option.some.inj heq).symm hn⟩
          · rw [Function.update_of_ne hi]
            exact h.names n i
      · by_cases heq : n = name
        · subst heq
          replace hn : Function.update s.nameId n (some s.fieldNum) n = some i := hn
          rw [Function.update_self] at hn
          cases hn
          refine ⟨?_, hlength, h.fieldNum, fun other hother => hfree other ?_⟩
          · show Function.update s.given n ((s.given n).or (some s.fieldNum)) n = _
            rw [Function.update_self, hnew]
          · have hsome : s.attrIdx other = some s.fieldNum := hother
            rw [TableFields.getAttrIdx, hsome, Option.some_or]
        · replace hn : Function.update s.nameId name (some s.fieldNum) n = some i := hn
          rw [Function.update_of_ne heq] at hn
          exact (h.added n i hn).mono rfl hgiven
      · have hold := h.stored docid n i hmem
        have hne : n ≠ name := fun heq => by
          rw [heq, hname] at hold
          cases hold
        show Function.update s.nameId name (some s.fieldNum) n = some i
        rw [Function.update_of_ne hne]
        exact hold
      · obtain ⟨hadded, hone, hstored⟩ := h.file image hfile
        exact ⟨fun fid n hmem => (hadded fid n hmem).mono rfl hgiven, hone, hstored⟩

theorem Unique.put {s' : TableFields} (h : Unique s) {docid : ℕ} {name : Bytes}
    (hstep : step (.put docid name) s = some s') : Unique s' := by
  rw [step] at hstep
  split at hstep
  · cases hstep
    exact h
  · rename_i fid hname
    cases hstep
    refine h.keep h.fieldNum fun d n i hmem => ?_
    cases List.mem_append.mp hmem with
    | inl hold => exact h.stored d n i hold
    | inr hnew =>
      cases List.mem_singleton.mp hnew
      exact hname

theorem mem_idNames {fid : ℕ} {name : Bytes} :
    (fid, name) ∈ s.idNames ↔ fid < 2 ^ 8 ∧ s.idName fid = some name := by
  simp only [idNames, List.mem_filterMap, List.mem_range, Option.map_eq_some_iff, Prod.mk.injEq]
  constructor
  · rintro ⟨i, hi, n, hn, rfl, rfl⟩
    exact ⟨hi, hn⟩
  · rintro ⟨hi, hn⟩
    exact ⟨fid, hi, name, hn, rfl, rfl⟩

/-- **What `Dump` writes**: names of a length of one byte are written whole. -/
theorem Unique.mem_cut (h : Unique s) {fid : ℕ} {name : Bytes} :
    (fid, name) ∈ s.idNames.map (fun r => (r.1, r.2.take (r.2.length % 2 ^ 8))) ↔
      s.nameId name = some fid := by
  have hcut : ∀ {i n}, s.nameId n = some i → n.take (n.length % 2 ^ 8) = n := by
    intro i n hn
    rw [Nat.mod_eq_of_lt (h.added n i hn).length, List.take_length]
  constructor
  · intro hmem
    obtain ⟨⟨i, n⟩, hin, heq⟩ := List.mem_map.mp hmem
    have hn := (h.names n i).mpr (mem_idNames.mp hin).2
    dsimp only at heq
    rw [hcut hn] at heq
    cases heq
    exact hn
  · intro hname
    refine List.mem_map.mpr ⟨(fid, name), ?_, ?_⟩
    · exact mem_idNames.mpr ⟨(h.added name fid hname).lt, (h.names name fid).mp hname⟩
    · dsimp only
      rw [hcut hname]

theorem Unique.dump (h : Unique s) (complete : Bool) : Unique (s.dump complete) := by
  have hadded : ∀ {file : FieldsFile} (n : Bytes) (i : ℕ), s.nameId n = some i →
      Added { s with file } n i := fun n i hn => (h.added n i hn).mono rfl fun _ _ hg => hg
  rw [TableFields.dump]
  split
  · exact h
  · split
    · refine ⟨h.created, h.schema, h.fieldNum, h.names, hadded, h.stored, fun image hfile => ?_⟩
      cases hfile
      refine ⟨fun fid name hmem => hadded name fid (h.mem_cut.mp hmem), fun fid a b ha hb => ?_,
        fun docid name fid hmem => h.mem_cut.mpr (h.stored docid name fid hmem)⟩
      have hname := (h.names a fid).mp (h.mem_cut.mp ha)
      rw [(h.names b fid).mp (h.mem_cut.mp hb)] at hname
      exact (Option.some.inj hname).symm
    · exact ⟨h.created, h.schema, h.fieldNum, h.names, hadded, h.stored, fun image hfile => by cases hfile⟩

/-- **After a restart** the fields are those of the file. -/
theorem Unique.restart {s' : TableFields} (h : Unique s) (hschema : s.schema.length ≤ 2 ^ 8)
    (hstep : s.restart = some s') : Unique s' ∧ s'.schema = s.schema := by
  obtain ⟨t, ht, hattr⟩ := h.created
  obtain ⟨⟨num, hnumbered⟩, -, hsame, hname, hid, hstored, -⟩ := create_spec hschema ht
  rw [TableFields.restart, ht, Option.bind_some] at hstep
  have hnum : t.fieldNum < 2 ^ 8 := by
    rw [hnumbered.fieldNum]
    exact Nat.mod_lt _ (by decide)
  have hstatic : ∀ n i, t.attrIdx n = some i → s.given n = some i := by
    rw [hattr]
    exact h.schema
  cases hfile : s.file with
  | broken =>
    rw [hfile] at hstep
    cases hstep
  | absent =>
    rw [hfile] at hstep
    cases hstep
    refine ⟨⟨⟨t, by rw [← hsame] at ht; exact ht, rfl⟩, hstatic, hnum, fun n i => ?_, fun n i hn => ?_,
      fun d n i hmem => ?_, fun image hwhole => by cases hwhole⟩, hsame⟩
    · show t.nameId n = some i ↔ t.idName i = some n
      rw [hname, hid]
      simp
    · rw [show t.nameId = _ from hname] at hn
      cases hn
    · rw [show t.stored = _ from hstored] at hmem
      cases hmem
  | whole image =>
    rw [hfile] at hstep
    cases hstep
    obtain ⟨hadded, hone, himage⟩ := h.file image hfile
    have hsingle : ∀ n i j, (n, i) ∈ image.fields.map Prod.swap → (n, j) ∈ image.fields.map Prod.swap →
        i = j := by
      intro n i j hi hj
      rw [List.mem_map_swap] at hi hj
      have hgiven := (hadded i n hi).given
      rw [(hadded j n hj).given] at hgiven
      exact (Option.some.inj hgiven).symm
    have hnames : ∀ n i, assign (image.fields.map Prod.swap) t.nameId n = some i ↔
        (i, n) ∈ image.fields := by
      intro n i
      rw [hname, assign_eq_some_iff hsingle, List.mem_map_swap _ _ image.fields]
    have hids : ∀ n i, assign image.fields t.idName i = some n ↔ (i, n) ∈ image.fields := by
      intro n i
      rw [hid, assign_eq_some_iff hone]
    have hmono : ∀ i n, (i, n) ∈ image.fields →
        Added (load image { t with file := .whole image, given := s.given }) n i :=
      fun i n hmem => (hadded i n hmem).mono hattr fun _ _ hg => hg
    refine ⟨⟨⟨t, by rw [← hsame] at ht; exact ht, rfl⟩, hstatic, hnum,
      fun n i => (hnames n i).trans (hids n i).symm, fun n i hn => hmono i n ((hnames n i).mp hn),
      fun d n i hmem => (hnames n i).mpr (himage d n i hmem), fun image' hwhole => ?_⟩, hsame⟩
    cases hwhole
    exact ⟨hmono, hone, himage⟩

theorem schema_addNewField (name : Bytes) (made : Bool) :
    (s.addNewField name made).schema = s.schema := by
  rw [TableFields.addNewField]
  split
  · rfl
  · dsimp only
    split <;> rfl

/-- **Every step** that meets the condition. -/
theorem Unique.step (op : FieldsOp) (s s' : TableFields) (h : Unique s ∧ s.schema.length ≤ 2 ^ 8)
    (hguard : FreshId op s) (hstep : TableFields.step op s = some s') :
    Unique s' ∧ s'.schema.length ≤ 2 ^ 8 := by
  cases op with
  | addNewField name made =>
    cases hstep
    rw [schema_addNewField]
    exact ⟨h.1.addNewField hguard, h.2⟩
  | put docid name =>
    refine ⟨h.1.put hstep, ?_⟩
    rw [TableFields.step] at hstep
    split at hstep <;> cases hstep <;> exact h.2
  | dump complete =>
    cases hstep
    refine ⟨h.1.dump complete, ?_⟩
    rw [TableFields.dump]
    split
    · exact h.2
    · split <;> exact h.2
  | restart =>
    obtain ⟨hunique, hsame⟩ := h.1.restart h.2 hstep
    rw [hsame]
    exact ⟨hunique, h.2⟩

/-- **Field ids are unique** in every run in which a new field gets an id that no other field has. -/
theorem uniqueIds_always {schema : List Bytes} (hschema : schema.length ≤ 2 ^ 8) {s : TableFields}
    (hcreate : create schema = some s) {ops : List FieldsOp}
    (hguard : EachStep TableFields.step FreshId ops s) : Always TableFields.step UniqueIds ops s := by
  obtain ⟨-, -, hsame, -⟩ := create_spec hschema hcreate
  have hlength : s.schema.length ≤ 2 ^ 8 := by
    rw [hsame]
    exact hschema
  exact (always_of_guard Unique.step ⟨unique_create hschema hcreate, hlength⟩ hguard).imp
    fun _ h => h.1.uniqueIds h.2

/-- A table with one field, whose manager was loaded with another one. -/
def reopened : List FieldsOp :=
  [.addNewField [97] true, .put 0 [97], .dump true, .restart, .addNewField [98] true]

/-- The new field has the id of the other one. -/
theorem reused_id : ¬ ∀ (schema : List Bytes) (s : TableFields) (ops : List FieldsOp),
    create schema = some s → Always step UniqueIds ops s := by
  intro h
  obtain ⟨s, hcreate⟩ : ∃ s, create [[95, 105, 100]] = some s := ⟨_, rfl⟩
  cases hcreate
  have hlast := (h [[95, 105, 100]] _ reopened rfl).last rfl
  have hsame := hlast.distinct [97] [98] 1 (by decide) (by decide)
  cases hsame

/-- A field that a restart has lost is added again. -/
theorem uniqueIds_again : ∃ s, create [[95, 105, 100]] = some s ∧ Always step UniqueIds
    [.addNewField [97] true, .restart, .addNewField [97] true] s := by
  obtain ⟨s, hcreate⟩ : ∃ s, create [[95, 105, 100]] = some s := ⟨_, rfl⟩
  have hfree : ∀ (other : Bytes) (nameId : Bytes → Option ℕ), nameId other = none →
      (Function.update (fun _ => none) [95, 105, 100] (some 0) other).or (nameId other) ≠ some 1 := by
    intro other nameId hnone
    rw [hnone, Option.or_none]
    by_cases heq : other = [95, 105, 100]
    · simp [heq]
    · simp [heq]
  have hschema : [[95, 105, 100]].length ≤ 2 ^ 8 := by decide
  refine ⟨s, hcreate, uniqueIds_always hschema hcreate ?_⟩
  cases hcreate
  refine .cons rfl (fun _ => ⟨fun other => hfree other _ rfl, .inl rfl, by decide⟩)
    (.cons rfl (fun h => by cases h) (.cons rfl (fun _ => ⟨fun other => hfree other _ rfl, .inr rfl,
      by decide⟩) trivial))

end TableFields

end AwaDB
