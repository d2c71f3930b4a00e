import AwaDB.Client.AddList

/-!
# The schema file of the library (`__write`, `__read` and `add` of `library.py`)

`data/tables.meta` is written when `add` has created a table, and read when the library is opened. The
five dictionaries of the library have the same tables, and are one list of tables here; the file is the
value that goes through `json`. What `add` asks of the engine is given with the call.

* `writeTable`, `readTable`: a table in the file;
* `add`, `openDir`: the two steps of a program;
* `Copy`: opening the directory again gives the same schema and the same databases;
* `readTypes_write`, `readTable_write`: what of a table comes back.
-/

namespace AwaDB.AwaLocal

open Awa

/-! ### The file -/

/-- What a field of the engine's records has that the library does not set. -/
structure Unset where
  dataType : DataType
  indexingSize : ℕ
  hasSource : Bool

/-- An entry of `fields_info`; a type without a word is left out. -/
structure FieldDict where
  name : String
  dataType : Option String
  isIndex : Bool
deriving DecidableEq

/-- An entry of `vec_fields`. -/
structure VecDict where
  name : String
  dataType : Option String
  isIndex : Bool
  dimension : ℕ
  modelId : String
  storeType : String
  storeParam : String
deriving DecidableEq

/-- A table in `tables.meta`. -/
structure TableMeta where
  fieldsCheck : Bool
  fieldsType : List (List (String × String))
  vectorFieldName : List (String × ℕ)
  docCount : ℕ
  fieldsInfo : List FieldDict
  vecFields : List VecDict
deriving DecidableEq

/-- The cases of a chain that knows the numbers of eight bytes. -/
def sixWords : List (DataType × String) :=
  [(.int, "INT"), (.long, "LONG"), (.float, "FLOAT"), (.string, "STRING"), (.multiString, "MULTI_STRING"),
    (.vector, "VECTOR")]

/-- The cases of a chain that does not. -/
def fiveWords : List (DataType × String) :=
  [(.int, "INT"), (.float, "FLOAT"), (.string, "STRING"), (.multiString, "MULTI_STRING"),
    (.vector, "VECTOR")]

/-- A chain from types to words. -/
def wordOf (cases : List (DataType × String)) (type : DataType) : Option String := cases.lookup type

/-- A chain from words to types. -/
def typeOf (cases : List (DataType × String)) (word : String) : Option DataType :=
  (cases.find? fun c => c.2 = word).map Prod.fst

/-- `fields_type_list` of `__write`. -/
def writeTypes (types : List (String × DataType)) : List (List (String × String)) :=
  types.map fun p => ((wordOf sixWords p.2).map fun word => (p.1, word)).toList

/-- `fields_list` of `__write`. -/
def writeField (info : FieldInfo) : FieldDict := ⟨info.name, wordOf sixWords info.dataType, info.isIndex⟩

/-- `vec_fields_list` of `__write`. -/
def writeVec (info : VectorInfo) : VecDict where
  name := info.name
  dataType := wordOf fiveWords info.dataType
  isIndex := info.isIndex
  dimension := info.dimension
  modelId := info.modelId
  storeType := info.storeType
  storeParam := info.storeParam

/-- `__write`, for a table. -/
def writeTable (t : LocalTable) : TableMeta where
  fieldsCheck := t.check
  fieldsType := writeTypes t.types
  vectorFieldName := t.dims
  docCount := t.docCount
  fieldsInfo := t.attr.fields.map writeField
  vecFields := t.attr.vectorInfos.map writeVec

/-- An item of a dictionary is set: in its place, or as the last. -/
def setItem {α : Type*} (dict : List (String × α)) (name : String) (a : α) : List (String × α) :=
  if (dict.lookup name).isSome then dict.map fun p => (p.1, if p.1 = name then a else p.2)
  else dict ++ [(name, a)]

/-- `table_field_dict` of `__read`. -/
def readTypes (dicts : List (List (String × String))) : List (String × DataType) :=
  dicts.flatten.foldl (fun types p =>
    match typeOf sixWords p.2 with
    | none => types
    | some type => setItem types p.1 type) []

/-- A field of `tables_info` in `__read`; without a word it is a `KeyError`. -/
def readField (unset : Unset) (dict : FieldDict) : Option FieldInfo :=
  dict.dataType.map fun word => ⟨dict.name, (typeOf fiveWords word).getD unset.dataType, dict.isIndex⟩

/-- A vector field of `tables_info` in `__read`. -/
def readVec (unset : Unset) (dict : VecDict) : Option VectorInfo :=
  dict.dataType.map fun word =>
    { name := dict.name
      dataType := (typeOf fiveWords word).getD unset.dataType
      isIndex := dict.isIndex
      dimension := dict.dimension
      modelId := dict.modelId
      storeType := dict.storeType
      storeParam := dict.storeParam
      hasSource := unset.hasSource }

/-- What `add` and `__read` say about the index. -/
def TableInfo.configure (attr : TableInfo) : TableInfo :=
  { attr with
    indexingSize := 10000
    retrievalType := "IVFPQ"
    retrievalParam := "\x7b\"ncentroids\" : 256, \"nsubvector\" : 16\x7d" }

/-- `__read`, for a table. -/
def readTable (unset : Unset) (m : TableMeta) : Option LocalTable :=
  (m.fieldsInfo.mapM (readField unset)).bind fun fields =>
    (m.vecFields.mapM (readVec unset)).map fun vectorInfos =>
      { check := m.fieldsCheck
        types := readTypes m.fieldsType
        dims := m.vectorFieldName
        docCount := m.docCount
        attr := TableInfo.configure ⟨"", fields, vectorInfos, unset.indexingSize, "", ""⟩
        extra := none }

/-! ### The library -/

/-- The library, and the file in its directory; `engines` are the names in `self.tables`. -/
structure State where
  tables : List (String × LocalTable)
  engines : List String
  dbTables : List (String × List String)
  file : Option (List (String × TableMeta))
deriving DecidableEq

/-- `__write`. -/
def writeFile (tables : List (String × LocalTable)) : List (String × TableMeta) :=
  tables.map fun p => (p.1, writeTable p.2)

/-- `__read`; each table is loaded. -/
def readFile (unset : Unset) (m : List (String × TableMeta)) : Option (List (String × LocalTable)) :=
  m.mapM fun p => (readTable unset p.2).map fun t => (p.1, t)

/-- `__init__` on a directory, with or without a file. -/
def openDir (unset : Unset) (file : Option (List (String × TableMeta))) : Option State :=
  (readFile unset (file.getD [])).map fun tables => ⟨tables, tables.map Prod.fst, [], file⟩

/-- The documents of a call. -/
inductive Docs where
  | dict (d : PyDict × String)
  | list (items : List (Option (PyDict × String)))
  | other

/-- The dictionaries of a call; other elements of a list are passed over. -/
def Docs.dicts : Docs → Option (List (PyDict × String))
  | .dict d => some [d]
  | .list items => some items.reduceOption
  | .other => none

/-- A call of `add`, with what the engine answers: whether it is there, and to `Create` and `AddDocs`. -/
structure Call where
  db : String
  table : String
  docs : Docs
  engine : Bool
  create : Bool
  addDocs : Bool

/-- `db_table_name`. -/
def Call.name (c : Call) : String := c.db ++ "/" ++ c.table

/-- A table that was not known. -/
def newTable (unset : Unset) (name : String) : LocalTable where
  check := false
  types := []
  dims := []
  docCount := 0
  attr := ⟨name, [], [], unset.indexingSize, "", ""⟩
  extra := some []

/-- A table of the library is set. -/
def State.set (s : State) (name : String) (t : LocalTable) : State :=
  { s with tables := setItem s.tables name t }

section

variable (loose : DataType → Value → Option Bytes) (embed : Value → Option Value)

/-- The part of `add` that makes documents, with the table as it leaves it; `none` is an exception. -/
def makeDocs (t : LocalTable) (docs : List (PyDict × String)) : LocalTable × Option (List Doc) :=
  match readyDocs embed docs with
  | none => (t, none)
  | some ready =>
    match ready.foldlM (addDicts loose) (Adding.start t, []) with
    | .error e => (e.table, none)
    | .ok (e, handed) => (e.table, some handed)

end

/-- The part of `add` that creates a table. -/
def createTable (s : State) (c : Call) (t : LocalTable) (handed : List Doc) : Option Bool × State :=
  let t := { t with attr := t.attr.configure }
  let t := if c.name ∈ s.engines ∨ c.engine = false then t else { t with docCount := 0 }
  let s := { s.set c.name t with
    engines := if c.name ∈ s.engines then s.engines else s.engines ++ [c.name] }
  if c.engine = false ∨ c.create = false then (some false, s)
  else
    let s := { s with dbTables := setItem s.dbTables c.db ((s.dbTables.lookup c.db).getD [] ++ [c.table]) }
    -- the new fields of a table that was read are not there
    match t.extra with
    | none => (none, s)
    | some _ =>
      if c.addDocs = false then (some false, s)
      else
        let s := s.set c.name { t with docCount := t.docCount + handed.length, check := true }
        (some true, { s with file := some (writeFile s.tables) })

section

variable (unset : Unset) (loose : DataType → Value → Option Bytes) (embed : Value → Option Value)

/-- `add`, with what it returns; `none` is an exception. -/
def add (s : State) (c : Call) : Option Bool × State :=
  if c.db = "" ∨ c.table = "" then (some false, s)
  else
    match c.docs.dicts with
    | none => (some false, s)
    | some docs =>
      let result := makeDocs loose embed ((s.tables.lookup c.name).getD (newTable unset c.name)) docs
      let s := s.set c.name result.1
      match result.2 with
      | none => (none, s)
      | some handed =>
        if result.1.check = false then createTable s c result.1 handed
        else if c.addDocs = false then (some false, s)
        else
          let t := { result.1 with docCount := result.1.docCount + handed.length }
          (some true, s.set c.name t)

/-- The program opens the directory again, or adds documents. -/
inductive Op where
  | openDir
  | add (c : Call)

/-- A step of the program. -/
def step : Op → State → Option State
  | .openDir, s => openDir unset s.file
  | .add c, s => some (add unset loose embed s c).2

end

/-- What a program sees of a table: fields and types, vector dimensions and `TableInfo`. -/
def LocalTable.schema (t : LocalTable) : List (String × DataType) × List (String × ℕ) × TableInfo :=
  (t.types, t.dims, t.attr)

/-- Opening the directory again gives the tables and databases that the program has. -/
def Copy (unset : Unset) (s : State) : Prop :=
  ∃ s', openDir unset s.file = some s' ∧ s'.dbTables = s.dbTables ∧
    ∀ name, (s'.tables.lookup name).map LocalTable.schema = (s.tables.lookup name).map LocalTable.schema

variable {unset : Unset} {loose : DataType → Value → Option Bytes} {embed : Value → Option Value}

/-! ### What comes back -/

theorem lookup_map_ne {α : Type*} {dict : List (String × α)} {name name' : String} {a : α}
    (h : name' ≠ name) :
    (dict.map fun p => (p.1, if p.1 = name then a else p.2)).lookup name' = dict.lookup name' := by
  induction dict with
  | nil => rfl
  | cons p dict ih =>
    obtain ⟨key, b⟩ := p
    by_cases hkey : name' = key
    · subst hkey
      simp [h]
    · simp [List.lookup_cons, beq_false_of_ne hkey, ih]

theorem lookup_map_self {α : Type*} {dict : List (String × α)} {name : String} {a : α}
    (h : (dict.lookup name).isSome) :
    (dict.map fun p => (p.1, if p.1 = name then a else p.2)).lookup name = some a := by
  induction dict with
  | nil => exact nomatch h
  | cons p dict ih =>
    obtain ⟨key, b⟩ := p
    by_cases hkey : name = key
    · subst hkey
      simp
    · rw [List.lookup_cons, beq_false_of_ne hkey] at h
      simp [List.lookup_cons, beq_false_of_ne hkey, ih h]

/-- **An item that is set.** -/
theorem lookup_setItem {α : Type*} (dict : List (String × α)) (name name' : String) (a : α) :
    (setItem dict name a).lookup name' = if name' = name then some a else dict.lookup name' := by
  unfold setItem
  by_cases hsome : (dict.lookup name).isSome
  · rw [if_pos hsome]
    by_cases heq : name' = name
    · rw [if_pos heq, heq, lookup_map_self hsome]
    · rw [if_neg heq, lookup_map_ne heq]
  · rw [if_neg hsome, List.lookup_append]
    by_cases heq : name' = name
    · rw [if_pos heq, heq, Option.not_isSome_iff_eq_none.mp hsome]
      simp
    · rw [if_neg heq]
      simp [List.lookup_cons, beq_false_of_ne heq]

theorem setItem_ne_nil {α : Type*} (dict : List (String × α)) (name : String) (a : α) :
    setItem dict name a ≠ [] := by
  intro h
  have hlookup := lookup_setItem dict name name a
  rw [h, if_pos rfl] at hlookup
  exact nomatch hlookup

/-- A word is read as the type that it was written for. -/
theorem typeOf_wordOf (type : DataType) :
    (wordOf sixWords type).bind (typeOf sixWords) = if type = .double then none else some type := by
  cases type <;> rfl

/-- A chain without the numbers of eight bytes leaves their type out. -/
theorem typeOf_five (type : DataType) : (wordOf sixWords type).map (typeOf fiveWords) =
    if type = .double then none else some (if type = .long then none else some type) := by
  cases type <;> rfl

/-- The fields of a table, one after the other. -/
theorem foldl_readTypes {types : List (String × DataType)} (hdouble : ∀ p ∈ types, p.2 ≠ .double)
    {read : List (String × DataType)} (hnodup : ((read ++ types).map Prod.fst).Nodup) :
    (writeTypes types).flatten.foldl (fun types p =>
      match typeOf sixWords p.2 with
      | none => types
      | some type => setItem types p.1 type) read = read ++ types := by
  induction types generalizing read with
  | nil => exact (List.append_nil read).symm
  | cons p types ih =>
    obtain ⟨hp, hrest⟩ := List.forall_mem_cons.mp hdouble
    obtain ⟨word, hword⟩ : ∃ word, wordOf sixWords p.2 = some word := by
      cases htype : p.2 <;> first | exact ⟨_, rfl⟩ | exact absurd htype hp
    have htype : typeOf sixWords word = some p.2 := by
      have h := typeOf_wordOf p.2
      rw [hword, if_neg hp] at h
      exact h
    have hnew : read.lookup p.1 = none := by
      rw [List.map_append, List.map_cons, List.nodup_middle, List.nodup_cons] at hnodup
      rw [List.lookup_eq_none_iff]
      intro q hq
      rw [bne_iff_ne]
      intro heq
      exact hnodup.1 (heq ▸ List.mem_append_left _ (List.mem_map_of_mem hq))
    have hset : setItem read p.1 p.2 = read ++ [p] := by
      rw [setItem, if_neg (by rw [hnew]; exact nofun)]
    rw [writeTypes, List.map_cons, List.flatten_cons, hword, ← writeTypes]
    dsimp only [Option.map_some, Option.toList_some, List.singleton_append, List.foldl_cons]
    rw [htype]
    dsimp only
    rw [hset, ih hrest (by rwa [List.append_assoc]), List.append_assoc]
    rfl

/-- **The types of the fields come back**, in their order. -/
theorem readTypes_write {types : List (String × DataType)} (hdouble : ∀ p ∈ types, p.2 ≠ .double)
    (hnodup : (types.map Prod.fst).Nodup) : readTypes (writeTypes types) = types :=
  foldl_readTypes hdouble hnodup

/-- A field of `TableInfo` that comes back. -/
def FieldInfo.reread (unset : Unset) (info : FieldInfo) : FieldInfo :=
  { info with dataType := if info.dataType = .long then unset.dataType else info.dataType }

theorem readField_write {info : FieldInfo} (h : info.dataType ≠ .double) :
    readField unset (writeField info) = some (info.reread unset) := by
  have htype := typeOf_five info.dataType
  rw [if_neg h] at htype
  obtain ⟨word, hword, htype⟩ := Option.map_eq_some_iff.mp htype
  unfold readField writeField FieldInfo.reread
  rw [hword, Option.map_some, htype]
  by_cases hlong : info.dataType = .long
  · rw [if_pos hlong, if_pos hlong]
    rfl
  · rw [if_neg hlong, if_neg hlong]
    rfl

theorem readVec_write {info : VectorInfo} (h : info.dataType = .vector) :
    readVec unset (writeVec info) = some { info with hasSource := unset.hasSource } := by
  unfold readVec writeVec
  rw [h]
  rfl

/-- The types of a table are those of values, and each name has one. -/
structure Plain (t : LocalTable) : Prop where
  nodup : (t.types.map Prod.fst).Nodup
  types : ∀ p ∈ t.types, p.2 ≠ .double
  fields : ∀ info ∈ t.attr.fields, info.dataType ≠ .double
  vectors : ∀ info ∈ t.attr.vectorInfos, info.dataType = .vector

/-- A table that comes back: `TableInfo` has no name, and no type for a number of eight bytes. -/
def LocalTable.reread (unset : Unset) (t : LocalTable) : LocalTable :=
  { t with
    attr := TableInfo.configure
      { name := ""
        fields := t.attr.fields.map (FieldInfo.reread unset)
        vectorInfos := t.attr.vectorInfos.map fun info => { info with hasSource := unset.hasSource }
        indexingSize := unset.indexingSize
        retrievalType := ""
        retrievalParam := "" }
    extra := none }

/-- **What comes back of a table**: its types and dimensions, and a part of its `TableInfo`. -/
theorem readTable_write {t : LocalTable} (h : Plain t) :
    readTable unset (writeTable t) = some (t.reread unset) := by
  have hreadFields : (t.attr.fields.map writeField).mapM (readField unset) =
      some (t.attr.fields.map (FieldInfo.reread unset)) := by
    rw [List.mapM_map]
    exact Lib.mapM_eq_map fun info hinfo => readField_write (h.fields info hinfo)
  have hreadVecs : (t.attr.vectorInfos.map writeVec).mapM (readVec unset) =
      some (t.attr.vectorInfos.map fun info => { info with hasSource := unset.hasSource }) := by
    rw [List.mapM_map]
    exact Lib.mapM_eq_map fun info hinfo => readVec_write (h.vectors info hinfo)
  unfold readTable writeTable
  dsimp only
  rw [hreadFields, Option.bind_some, hreadVecs, Option.map_some, readTypes_write h.types h.nodup]
  rfl

/-- **What comes back of the tables.** -/
theorem readFile_write {tables : List (String × LocalTable)} (h : ∀ p ∈ tables, Plain p.2) :
    readFile unset (writeFile tables) = some (tables.map fun p => (p.1, p.2.reread unset)) := by
  unfold readFile writeFile
  rw [List.mapM_map]
  refine Lib.mapM_eq_map fun p hp => ?_
  rw [Function.comp_apply, readTable_write (h p hp)]
  rfl

end AwaDB.AwaLocal
