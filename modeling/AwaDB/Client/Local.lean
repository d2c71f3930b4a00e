import AwaDB.Client.Awa

/-!
# Adding through the library (`AwaLocal.add` of `library.py`)

The fields of a table are checked against its schema and against `fields_type`, which lives for one call.
A field of a new table is declared in its `TableInfo`; on a table that was created, `AddNewField` gets the
name of the table in place of an engine, which is a `TypeError`, and `mul_str_value` is not an attribute
of a bound `Field`. `Except.error` is an exception, with what the call has changed until then.

* `fieldCheck`, `encodeField`, `declare`: the three parts of `__check_add_field`;
* `addDict`: a document is made of a dictionary;
* `processDocEmbedding`: a text is embedded, which changes the size of the dictionary in its own loop.
-/

namespace AwaDB.AwaLocal

open Awa

/-- `awa.FieldInfo`. -/
structure FieldInfo where
  name : String
  dataType : DataType
  isIndex : Bool
deriving DecidableEq

/-- `awa.VectorInfo`. -/
structure VectorInfo where
  name : String
  dataType : DataType
  isIndex : Bool
  dimension : ℕ
  modelId : String
  storeType : String
  storeParam : String
  hasSource : Bool
deriving DecidableEq

/-- `awa.TableInfo`, as far as the library sets it. -/
structure TableInfo where
  name : String
  fields : List FieldInfo
  vectorInfos : List VectorInfo
  indexingSize : ℕ
  retrievalType : String
  retrievalParam : String
deriving DecidableEq

/-- The entries of one table in the dictionaries of the library; `tables_extra_new_fields` may have none. -/
structure LocalTable where
  check : Bool
  types : List (String × DataType)
  dims : List (String × ℕ)
  docCount : ℕ
  attr : TableInfo
  extra : Option (List FieldInfo)
deriving DecidableEq

/-- `awa.Field`. -/
structure Field where
  name : String
  value : Bytes
  datatype : DataType
deriving DecidableEq

/-- `awa.Doc`; `none` is a key that was not set. -/
structure Doc where
  key : Option Bytes
  fields : List Field
deriving DecidableEq

/-- The table, and `fields_type`. -/
structure Pass where
  table : LocalTable
  fieldsType : String → Option DataType

/-- What `__field_check` comes to: a `KeyError`, a negative code, 2, 0 or 1. -/
inductive Checked where
  | failed
  | refused
  | seen
  | known
  | new
deriving DecidableEq

/-- The type of a value; a number is a `LONG` key. -/
def fieldType (name : String) (v : Value) : Option DataType :=
  if name = "_id" ∧ typeof v = some .int then some .long else typeof v

/-- `__field_check`. -/
def fieldCheck (s : Pass) (name : String) (v : Value) : Checked × Pass :=
  match fieldType name v with
  | none => (.refused, s)
  | some type =>
    if (s.fieldsType name).isSome then (.seen, s)
    else
      match s.table.types.lookup name with
      | some old =>
        if type = .string ∧ old = .multiString then
          (.known, { s with fieldsType := Function.update s.fieldsType name (some .multiString) })
        else if type ≠ old then (.refused, s)
        else if type = .vector ∧ s.table.dims.lookup name = none then (.failed, s)
        else if type = .vector ∧ s.table.dims.lookup name ≠ some (dim v) then (.refused, s)
        else (.known, { s with fieldsType := Function.update s.fieldsType name (some type) })
      | none =>
        if s.table.check ∧ type = .vector then (.refused, s)
        else (.new,
          { table := { s.table with types := s.table.types ++ [(name, type)] }
            fieldsType := Function.update s.fieldsType name (some type) })

section

variable (loose : DataType → Value → Option Bytes)

/-- The bytes of a value in a type; `loose` is what Python makes of a value of another type. -/
def encodeField : DataType → Value → Option Bytes
  | .int, .int n => toBytes n 4
  | .int, _ => none
  | .long, .int n => toBytes n 8
  | .long, _ => none
  | .float, .float word => word
  | .string, .str text => text.map utf8
  | .string, _ => none
  | .vector, .list elements => (elements.mapM Elem.word).map List.flatten
  | .vector, .array _ bytes => some bytes
  -- a `Field` has no attribute for the strings
  | .multiString, _ => none
  | type, v => loose type v

/-- `__add_field` and `__add_vector_field`, with the dimension that is set behind it. -/
def declare (t : LocalTable) (ret : Checked) (name : String) (type : DataType) (v : Value) :
    Option LocalTable :=
  if ret = .seen then some t
  else if type = .vector then
    let attr := if t.check then t.attr else
      { t.attr with vectorInfos := t.attr.vectorInfos ++
          [⟨name, .vector, true, dim v, "", "Mmap", "\x7b\"cache_size\" : 2000\x7d", false⟩] }
    let dims := if t.dims.lookup name = some (dim v) then t.dims
      else (name, dim v) :: t.dims.filter fun p => p.1 ≠ name
    some { t with attr := attr, dims := dims }
  else if t.check = false then
    let info : FieldInfo := ⟨name, type, decide (type ≠ .string)⟩
    if type = .multiString then t.extra.map fun extra => { t with extra := some (extra ++ [info]) }
    else some { t with attr := { t.attr with fields := t.attr.fields ++ [info] } }
  -- `AddNewField` is called with a name
  else if ret = .new then none
  else some t

/-- The part of `__check_add_field` that takes a field. -/
def takeField (s : Pass) (ret : Checked) (name : String) (v : Value) :
    Except Pass (Option Field × Pass) :=
  match s.fieldsType name with
  | none => .error s
  | some type =>
    match encodeField loose type v with
    | none => .error s
    | some bytes =>
      match declare s.table ret name type v with
      | none => .error s
      | some table => .ok (some ⟨name, bytes, type⟩, { s with table := table })

/-- `__check_add_field`. -/
def checkAddField (s : Pass) (name : String) (v : Value) : Except Pass (Option Field × Pass) :=
  match fieldCheck s name v with
  | (.failed, s) => .error s
  | (.refused, s) => .ok (none, s)
  | (ret, s) => takeField loose s ret name v

/-! ### A document -/

/-- While a document is made: `has_primary_key` lives for the whole call, too. -/
structure Adding extends Pass where
  doc : Doc
  hasKey : Bool

/-- `AddField`, and `SetKey` for the key. -/
def Doc.add (doc : Doc) (field : Field) : Doc :=
  ⟨if field.name = "_id" then some field.value else doc.key, doc.fields ++ [field]⟩

/-- One field of the dictionary. -/
def addItem (s : Adding) (p : String × Value) : Except Adding Adding :=
  match checkAddField loose s.toPass p.1 p.2 with
  | .error pass => .error { s with toPass := pass }
  | .ok (none, pass) => .ok { s with toPass := pass }
  | .ok (some field, pass) =>
    .ok { toPass := pass, doc := s.doc.add field, hasKey := s.hasKey || decide (p.1 = "_id") }

/-- The key of a document that came without one. -/
def addKey (uuid : String) (s : Adding) : Except Adding Adding :=
  if s.hasKey then .ok s
  else
    match checkAddField loose s.toPass "_id" (.str (some uuid)) with
    | .error pass => .error { s with toPass := pass }
    | .ok (none, pass) => .ok { s with toPass := pass }
    | .ok (some field, pass) => .ok { s with toPass := pass, doc := s.doc.add field }

/-- A document is made of a dictionary; the generated key is given. -/
def addDict (s : Adding) (d : PyDict × String) : Except Adding Adding :=
  d.1.items.foldlM (addItem loose) { s with doc := ⟨none, []⟩ } >>= addKey loose d.2

/-- Before the first document of a call. -/
def Adding.start (t : LocalTable) : Adding := ⟨⟨t, fun _ => none⟩, ⟨none, []⟩, false⟩

/-- The loop over the dictionaries of a call, with the documents that are handed over in the end. -/
def addDicts (s : Adding × List Doc) (d : PyDict × String) : Except Adding (Adding × List Doc) :=
  (addDict loose s.1 d).map fun next => (next, s.2 ++ [next.doc])

end

/-! ### Embedding -/

/-- Put another value under a name. -/
def replaceValue (d : PyDict) (name : String) (v : Value) : PyDict where
  items := d.items.map fun p => (p.1, if p.1 = name then v else p.2)
  nodup := by
    rw [List.map_map]
    exact d.nodup

/-- `__process_doc_embedding`: a dictionary that gets a new name while it is ranged over is a
`RuntimeError`. -/
def processDocEmbedding (embed : Value → Option Value) (d : PyDict) : Option PyDict :=
  match d.items.lookup "embedding_text" with
  | none => some d
  | some text =>
    (embed text).bind fun v =>
      if (d.items.lookup "text_embedding").isSome then some (replaceValue d "text_embedding" v)
      else none

end AwaDB.AwaLocal
