import AwaDB.Lib.Codec
import AwaDB.Table.Row
import Mathlib.Data.Int.Notation
import Mathlib.Logic.Function.Basic

/-!
# Adding through the network client (`clients/awadb_client/client.py`)

The client remembers the types of the fields of a table, and the definition that it will create the
table with. `add` takes the documents one after the other: each field is checked, remembered and
encoded; the first document that comes to its end creates the table, and later fields are added one by
one. The message goes to the server with every document, whatever became of its check.

This is one client and one table that the server does not have before the first call, so that
`__check_table_from_server` finds nothing. A dictionary has each name once, and `__field_check` never
meets a name of the document twice. `none` stands for a Python exception, that leaves everything as it
is at this point. Texts are known by their characters; a text with a lone surrogate has none.
-/

namespace AwaDB.Awa

/-! ### Python values -/

/-- An element of a list: a string, a number with its four bytes as a `float32`, or anything else. -/
inductive Elem where
  | str (text : Option String)
  | num (word : Option Bytes)
  | other
deriving DecidableEq

/-- The value of a field. A float comes with the four bytes of `struct.pack`. -/
inductive Value where
  | int (n : ℤ)
  | str (text : Option String)
  | float (word : Option Bytes)
  | list (elements : List Elem)
  | array (dimension : ℕ) (bytes : Bytes)
  | other
deriving DecidableEq

def Elem.isStr : Elem → Bool
  | .str _ => true
  | _ => false

def Elem.isNum : Elem → Bool
  | .num _ => true
  | _ => false

/-- `typeof`; `ERROR` is `none`. An empty list is a vector. -/
def typeof : Value → Option DataType
  | .int _ => some .int
  | .str _ => some .string
  | .float _ => some .float
  | .list elements =>
    if elements.all Elem.isNum then some .vector
    else if elements.all Elem.isStr then some .multiString
    else none
  | .array _ _ => some .vector
  | .other => none

/-- `__len__`, of a vector. -/
def dim : Value → ℕ
  | .list elements => elements.length
  | .array dimension _ => dimension
  | _ => 0

/-- `str.encode`. -/
def utf8 (text : String) : Bytes := text.toUTF8.data.toList

/-- `int.to_bytes(size, "little")`: an unsigned word, or an `OverflowError`. -/
def toBytes (n : ℤ) (size : ℕ) : Option Bytes :=
  if 0 ≤ n ∧ n < ((256 ^ size : ℕ) : ℤ) then some (Lib.leWord size n.toNat) else none

def Elem.text : Elem → Option String
  | .str text => text
  | _ => none

def Elem.word : Elem → Option Bytes
  | .num word => word
  | _ => none

/-- What `__check_add_field` makes of a value of this type: `value` and `mul_str_value`. -/
def encode (type : DataType) (v : Value) : Option (Bytes × List String) :=
  match type, v with
  | .int, .int n => (toBytes n 4).map fun bytes => (bytes, [])
  | .long, .int n => (toBytes n 8).map fun bytes => (bytes, [])
  | .float, .float word => word.map fun bytes => (bytes, [])
  | .string, .str text => text.map fun s => (utf8 s, [])
  | .multiString, .str text => text.map fun s => ([], [s])
  | .multiString, .list elements => (elements.mapM Elem.text).map fun texts => ([], texts)
  | .vector, .list elements => (elements.mapM Elem.word).map fun words => (words.flatten, [])
  | .vector, .array _ bytes => some (bytes, [])
  | _, _ => none

/-- A dictionary. -/
structure PyDict where
  items : List (String × Value)
  nodup : (items.map Prod.fst).Nodup

/-! ### Messages -/

/-- `Field` of a message. -/
structure PbField where
  name : Option String
  value : Bytes
  type : Option DataType
  mulStrValue : List String
deriving DecidableEq

/-- `doc.fields.add()`. -/
def PbField.new : PbField := ⟨none, [], none, []⟩

/-- `Document` of a message. -/
structure Document where
  id : Option Bytes
  fields : List PbField
deriving DecidableEq

/-- `FieldMeta` of a message; the dimension is that of `vec_meta`. -/
structure Meta where
  name : String
  type : DataType
  isIndex : Bool
  dimension : ℕ
deriving DecidableEq

/-- The `FieldMeta` of a field; strings are not indexed. -/
def metaOf (name : String) (type : DataType) (v : Value) : Meta where
  name := name
  type := type
  isIndex := decide (type ≠ .string)
  dimension := if type = .vector then dim v else 0

/-- A request for the schema: `Create`, or `AddFields` with one field. -/
inductive SchemaRequest where
  | create (fields : List Meta)
  | addFields (field : Meta)
deriving DecidableEq

/-! ### The client and the server -/

/-- What a client has for a table: `tables_fields_check`, `tables_fields_type`,
`tables_vector_fields_type`, the fields of `tables_attr`, and `tables_extra_new_fields`. -/
structure Client where
  check : Bool
  types : String → Option DataType
  dims : String → Option ℕ
  attr : List Meta
  extra : List Meta

/-- The entries that `add` makes for a table. -/
def Client.new : Client := ⟨false, fun _ => none, fun _ => none, [], []⟩

/-- What a server has of the table: the fields that it accepted, when there is a table. `created` are the
definitions of the `Create` requests, and `sent` and `stored` the documents, with what became of their
check at the client. -/
structure Server where
  fields : Option (List (String × DataType))
  created : List (List Meta)
  sent : List (Document × Bool)
  stored : List (Document × Bool)

def Server.new : Server := ⟨none, [], [], []⟩

structure World where
  client : Client
  server : Server

def World.new : World := ⟨Client.new, Server.new⟩

section Requests

variable (accepts : SchemaRequest → Bool)

/-- `Create` and `AddFields` at the server, which may refuse any request: `TABLE_EXIST` for a table that
is there, no field without a table. -/
def Server.respond (s : Server) : SchemaRequest → Bool × Server
  | .create fields =>
    let asked := { s with created := s.created ++ [fields] }
    if s.fields = none ∧ accepts (.create fields) then
      (true, { asked with fields := some (fields.map fun m => (m.name, m.type)) })
    else (false, asked)
  | .addFields field =>
    match s.fields with
    | none => (false, s)
    | some fields =>
      if accepts (.addFields field) then
        (true, { s with fields := some (fields ++ [(field.name, field.type)]) })
      else (false, s)

/-- `AddOrUpdate`: documents without an id are skipped. -/
def Server.store (docs : List (Document × Bool)) (s : Server) : Server :=
  { s with
    sent := s.sent ++ docs
    stored := if s.fields = none then s.stored
      else s.stored ++ docs.filter fun d => d.1.id.isSome }

/-! ### One field -/

/-- The type that `__field_check` starts with: an integer key is a `LONG`. -/
def checkType (name : String) (v : Value) : Option DataType :=
  if name = "_id" ∧ typeof v = some .int then some .long else typeof v

/-- `__field_check`: an error code, or the type of the field and whether it is new. -/
def Client.fieldCheck (c : Client) (name : String) (v : Value) : Except ℤ (DataType × Bool) :=
  match checkType name v with
  | none => .error (-1)
  | some type =>
    match c.types name with
    | some known =>
      if type = .string ∧ known = .multiString then .ok (.multiString, false)
      else if type ≠ known then .error (-3)
      else if type = .vector ∧ c.dims name ≠ some (dim v) then .error (-4)
      else .ok (type, false)
    | none => if c.check ∧ type = .vector then .error (-5) else .ok (type, true)

/-- `tables_fields_type[..][name] = type`, for a new field. -/
def Client.remember (c : Client) (name : String) (type : DataType) (isNew : Bool) : Client :=
  if isNew then { c with types := Function.update c.types name (some type) } else c

/-- `__add_field` and `__add_vector_field`: before the table is created its definition gets the field,
afterwards the server. The answer of the server is not looked at. -/
def World.addField (w : World) (field : Meta) (isNew : Bool) : World :=
  if ¬ w.client.check then
    if field.type ≠ .multiString then
      { w with client := { w.client with attr := w.client.attr ++ [field] } }
    else { w with client := { w.client with extra := w.client.extra ++ [field] } }
  else if isNew ∧ field.type ≠ .vector then
    { w with server := (w.server.respond accepts (.addFields field)).2 }
  else w

/-- `tables_vector_fields_type[..][name] = dimension`. -/
def Client.setDim (c : Client) (name : String) (type : DataType) (v : Value) : Client :=
  if type = .vector then { c with dims := Function.update c.dims name (some (dim v)) } else c

/-- What `__check_add_field` does for a field that passed. -/
def World.putField (w : World) (name : String) (type : DataType) (isNew : Bool) (v : Value) : World :=
  let w := ({ w with client := w.client.remember name type isNew } : World)
  let w := w.addField accepts (metaOf name type v) isNew
  { w with client := w.client.setDim name type v }

/-- `__check_add_field`: the field of the message. -/
def World.checkAddField (w : World) (name : String) (v : Value) : Option (Except ℤ PbField) × World :=
  match w.client.fieldCheck name v with
  | .error code => (some (.error code), w)
  | .ok (type, isNew) =>
    match encode type v with
    | none => (none, { w with client := w.client.remember name type isNew })
    | some content =>
      (some (.ok ⟨some name, content.1, some type, content.2⟩), w.putField accepts name type isNew v)

/-! ### One document -/

/-- The id that a key field gives. -/
def keyOf : Value → Option Bytes
  | .int n => toBytes n 8
  | .str text => text.map utf8
  | _ => none

/-- `doc.id` after a field. -/
def nextId (name : String) (v : Value) (id : Option Bytes) : Option Bytes :=
  if name = "_id" then (keyOf v).or id else id

/-- The loop of `__assemble_doc`: whether the document passed, and the message. A field that failed is
left in it without a name. -/
def assembleFields : List (String × Value) → Document → World → Option (Bool × Document) × World
  | [], doc, w => (some (true, doc), w)
  | p :: items, doc, w =>
    match w.checkAddField accepts p.1 p.2 with
    | (none, w) => (none, w)
    | (some (.error _), w) => (some (false, { doc with fields := doc.fields ++ [PbField.new] }), w)
    | (some (.ok field), w) =>
      assembleFields items ⟨nextId p.1 p.2 doc.id, doc.fields ++ [field]⟩ w

/-- The key of a document without one, whose check is not looked at. -/
def addDefaultKey (uuid : String) (doc : Document) (w : World) : Option (Bool × Document) × World :=
  match w.checkAddField accepts "_id" (.str (some uuid)) with
  | (none, w) => (none, w)
  | (some (.error _), w) => (some (false, ⟨some (utf8 uuid), doc.fields ++ [PbField.new]⟩), w)
  | (some (.ok field), w) => (some (true, ⟨some (utf8 uuid), doc.fields ++ [field]⟩), w)

/-- `AddFields` for the extra fields, up to one that is refused. -/
def addExtras : List Meta → Server → Bool × Server
  | [], s => (true, s)
  | field :: fields, s =>
    let r := s.respond accepts (.addFields field)
    if r.1 then addExtras fields r.2 else (false, r.2)

/-- The end of `__assemble_doc`: the table is created when it is not there. -/
def World.create (w : World) : World :=
  if w.client.check then w
  else
    let r := w.server.respond accepts (.create w.client.attr)
    if r.1 then
      let r := addExtras accepts w.client.extra r.2
      ⟨{ w.client with check := r.1 }, r.2⟩
    else { w with server := r.2 }

/-- `__assemble_doc`. -/
def assembleDoc (items : List (String × Value)) (uuid : String) (w : World) :
    Option (Bool × Document) × World :=
  match assembleFields accepts items ⟨none, []⟩ w with
  | (none, w) => (none, w)
  | (some (false, doc), w) => (some (false, doc), w)
  | (some (true, doc), w) =>
    if "_id" ∈ items.map Prod.fst then (some (true, doc), w.create accepts)
    else
      match addDefaultKey accepts uuid doc w with
      | (none, w) => (none, w)
      | (some out, w) => (some out, w.create accepts)

/-- The loop over the documents of `add`. -/
def assembleDocs : List (PyDict × String) → List (Document × Bool) → World →
    Option (List (Document × Bool)) × World
  | [], docs, w => (some docs, w)
  | d :: ds, docs, w =>
    match assembleDoc accepts d.1.items d.2 w with
    | (none, w) => (none, w)
    | (some out, w) => assembleDocs ds (docs ++ [(out.2, out.1)]) w

end Requests

/-- A call of `add`: its documents, each with the `uuid4` that it gets when it has no key, and what the
server says to the requests of this call. -/
structure AddCall where
  docs : List (PyDict × String)
  accepts : SchemaRequest → Bool

/-- `Awa.add`. -/
def add (call : AddCall) (w : World) : World :=
  match assembleDocs call.accepts call.docs [] w with
  | (none, w) => w
  | (some docs, w) => { w with server := w.server.store docs }

end AwaDB.Awa
