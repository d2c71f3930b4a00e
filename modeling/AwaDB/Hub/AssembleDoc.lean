import AwaDB.Hub.Values
import AwaDB.Lib.Lists
import AwaDB.Lib.Outcome

/-!
# Documents of the REST proxy (`AssembleDoc` of `hub/hub_local_proxy.go`)

The type of a field is guessed from its JSON value: a number is a `FLOAT` if it is printed with a point
and an `INT` otherwise. For a table that exists the guess has to be the type of the schema; only an `INT`
goes into a `LONG` field. The loop runs over the members of the object in any order, a refused document
is skipped, and `broken` stands for a panic.

* `Assembled`: the message has the types of the schema, and bytes that decode to the values;
* `field_iff`: what becomes of one member;
* `assembled_iff`: **a document is assembled** exactly if each of its values has the shape that is
  guessed as the type of its field.
-/

namespace AwaDB.Hub

open Lib BinaryFormat

/-- `Field` of `awadb.proto`, as far as `AssembleDoc` sets it. -/
structure Field where
  name : String
  type : FieldType
  value : Bytes
  mulStrValue : List String
deriving DecidableEq, Repr

/-- `Document` of `awadb.proto`. -/
structure Document where
  id : Option Bytes
  fields : List Field
deriving DecidableEq, Repr

/-- The types of the fields of a table: `checked_tables_schema[db_table_name]`. -/
abbrev Schema := String → Option FieldType

namespace Json

def isString : Json → Bool
  | .string _ => true
  | _ => false

def isNumber : Json → Bool
  | .number _ => true
  | _ => false

def string? : Json → Option String
  | .string s => some s
  | _ => none

def number? : Json → Option Float64
  | .number a => some a
  | _ => none

end Json

variable (overflow : ℕ → Float64 → ℤ) (schema : Schema)

/-- The field of `_id`. -/
def keyField (name : String) : Json → Outcome Unit Field
  | .number a =>
    if isDecimal a then .refused () else .done ⟨name, .long, int64tobytes (int64 overflow a), []⟩
  | .string s => .done ⟨name, .string, Awa.utf8 s, []⟩
  | _ => .refused ()

/-- The field that is guessed from a value. -/
def guessField (name : String) : Json → Outcome Unit Field
  | .number a =>
    if isDecimal a then .done ⟨name, .float, float32tobytes a, []⟩
    else .done ⟨name, .int, int32tobytes (int32 overflow a), []⟩
  | .bool b => .done ⟨name, .int, int32tobytes (if b then 1 else 0), []⟩
  | .string s => .done ⟨name, .string, Awa.utf8 s, []⟩
  | .array elements =>
    let isAllString := elements.all Json.isString
    let isAllFloat := elements.all Json.isNumber
    if (isAllString && isAllFloat) || (!isAllString && !isAllFloat) then .refused ()
    else if isAllString then .done ⟨name, .multiString, [], elements.filterMap Json.string?⟩
    else .done ⟨name, .vector, ((elements.filterMap Json.number?).map float32tobytes).flatten, []⟩
  | _ => .refused ()

/-- The field in the type of the schema. -/
def reconcile (v : Json) (field : Field) : Outcome Unit Field :=
  match schema field.name with
  -- the type that was not found is read
  | none => .broken
  | some type =>
    if type = field.type then .done field
    else if type = .long ∧ field.type = .int then
      match v with
      | .number a => .done { field with type := .long, value := int64tobytes (int64 overflow a) }
      | _ => .broken
    else if type = .int ∧ field.type = .long then
      match v with
      | .number a => .done { field with type := .int, value := int32tobytes (int32 overflow a) }
      | _ => .broken
    else .refused ()

/-- The field of a member of the object. -/
def assembleField (p : String × Json) : Outcome Unit Field :=
  if p.1 = "_id" then keyField overflow p.1 p.2
  else guessField overflow p.1 p.2 >>= reconcile overflow schema p.2

/-- One round of the loop. -/
def assembleStep (doc : Document) (p : String × Json) : Outcome Unit Document :=
  assembleField overflow schema p >>= fun field =>
    .done ⟨if field.name = "_id" then some field.value else doc.id, doc.fields ++ [field]⟩

/-- The field of a generated key. -/
def newKey (uuid : String) : Field := ⟨"_id", .string, Awa.utf8 uuid, []⟩

/-- `AssembleDoc`, for a table that exists. `uuid` is what `NewUUID` returned. -/
def assembleDoc (uuid : Option String) (docStruct : List (String × Json)) : Outcome Unit Document :=
  docStruct.foldlM (assembleStep overflow schema) ⟨none, []⟩ >>= fun doc =>
    if docStruct.any fun p => p.1 = "_id" then .done doc
    else
      match uuid with
      | none => .refused ()
      | some uuid => .done ⟨some (Awa.utf8 uuid), doc.fields ++ [newKey uuid]⟩

/-! ### What the message should be -/

/-- The value is representable in the type. -/
def Representable (type : FieldType) (v : Json) : Prop := ∃ value strings, Encodes type v value strings

/-- The field has the name of the member, the type of the schema, and bytes that decode to the value. -/
def RightField (p : String × Json) (field : Field) : Prop :=
  field.name = p.1 ∧ schema p.1 = some field.type ∧
    Encodes field.type p.2 field.value field.mulStrValue

/-- **The message of a document.** -/
structure Assembled (uuid : String) (docStruct : List (String × Json)) (doc : Document) : Prop where
  fields : ∃ given, List.Forall₂ (RightField schema) docStruct given ∧
    doc.fields = given ++ if docStruct.any fun p => p.1 = "_id" then [] else [newKey uuid]
  types : ∀ field ∈ doc.fields, schema field.name = some field.type
  key : ∃ field ∈ doc.fields, field.name = "_id" ∧ doc.id = some field.value

/-- Every member is in the schema, and representable in its type. -/
def Fits (docStruct : List (String × Json)) : Prop :=
  ∀ p ∈ docStruct, ∃ type, schema p.1 = some type ∧ Representable type p.2

/-- The keys that become a field of their type. -/
def KeyShape : FieldType → Json → Prop
  | .string, .string _ => True
  | .long, .number a => isDecimal a = false
  | _, _ => False

/-- The values whose guess goes into a field of the type. -/
def ValueShape : FieldType → Json → Prop
  | .int, .number a => isDecimal a = false
  | .int, .bool _ => True
  | .long, .number a => isDecimal a = false
  | .float, .number a => isDecimal a = true
  | .string, .string _ => True
  | .multiString, .array elements => elements ≠ []
  | .vector, .array elements => elements ≠ []
  | _, _ => False

/-- The member has the shape that is guessed as its type. -/
def Shape (type : FieldType) (p : String × Json) : Prop :=
  if p.1 = "_id" then KeyShape type p.2 else ValueShape type p.2

variable {overflow schema}

/-! ### One member -/

theorem all_isString (strings : List String) : (strings.map Json.string).all Json.isString = true := by
  simp [Json.isString]

theorem all_isNumber (numbers : List Float64) : (numbers.map Json.number).all Json.isNumber = true := by
  simp [Json.isNumber]

@[simp] theorem filterMap_string? (strings : List String) :
    (strings.map Json.string).filterMap Json.string? = strings := by
  rw [List.filterMap_map]
  exact List.filterMap_some

@[simp] theorem filterMap_number? (numbers : List Float64) :
    (numbers.map Json.number).filterMap Json.number? = numbers := by
  rw [List.filterMap_map]
  exact List.filterMap_some

theorem guessField_strings (name : String) {strings : List String} (h : strings ≠ []) :
    guessField overflow name (.array (strings.map .string)) =
      .done ⟨name, .multiString, [], strings⟩ := by
  obtain ⟨s, rest, rfl⟩ := List.exists_cons_of_ne_nil h
  have hfloat : ((s :: rest).map Json.string).all Json.isNumber = false := rfl
  unfold guessField
  dsimp only
  rw [all_isString, hfloat, filterMap_string?]
  rfl

theorem guessField_numbers (name : String) {numbers : List Float64} (h : numbers ≠ []) :
    guessField overflow name (.array (numbers.map .number)) =
      .done ⟨name, .vector, (numbers.map float32tobytes).flatten, []⟩ := by
  obtain ⟨a, rest, rfl⟩ := List.exists_cons_of_ne_nil h
  have hstring : ((a :: rest).map Json.number).all Json.isString = false := rfl
  unfold guessField
  dsimp only
  rw [all_isNumber, hstring, filterMap_number?]
  rfl

theorem keyField_int (name : String) {a : Float64} (h : isDecimal a = false) :
    keyField overflow name (.number a) = .done ⟨name, .long, int64tobytes (int64 overflow a), []⟩ :=
  if_neg (ne_true_of_eq_false h)

theorem guessField_int (name : String) {a : Float64} (h : isDecimal a = false) :
    guessField overflow name (.number a) = .done ⟨name, .int, int32tobytes (int32 overflow a), []⟩ :=
  if_neg (ne_true_of_eq_false h)

theorem guessField_float (name : String) {a : Float64} (h : isDecimal a = true) :
    guessField overflow name (.number a) = .done ⟨name, .float, float32tobytes a, []⟩ :=
  if_pos h

/-- **The key of a document.** -/
theorem key_iff {name : String} {type : FieldType} {v : Json} (htype : schema name = some type)
    (hfits : Representable type v) :
    (∃ field, keyField overflow name v = .done field ∧ RightField schema (name, v) field) ↔
      KeyShape type v := by
  constructor
  · rintro ⟨field, hdone, -, hschema, -⟩
    cases v with
    | number a =>
      cases hdec : isDecimal a with
      | true => simp [keyField, hdec] at hdone
      | false =>
        simp only [keyField, hdec, Bool.false_eq_true, if_false] at hdone
        cases hdone
        cases htype.symm.trans hschema
        exact hdec
    | string s =>
      cases hdone
      cases htype.symm.trans hschema
      exact trivial
    | null => exact nomatch hdone
    | bool b => exact nomatch hdone
    | array elements => exact nomatch hdone
    | object members => exact nomatch hdone
  · intro hshape
    obtain ⟨value, strings, henc⟩ := hfits
    unfold KeyShape at hshape
    split at hshape
    · exact ⟨_, rfl, rfl, htype, rfl⟩
    · obtain ⟨n, hn, -⟩ := henc
      exact ⟨_, keyField_int name hshape, rfl, htype, _, int_encodes 64 hn, rfl⟩
    · exact hshape.elim

/-! ### A field against the schema -/

/-- A guess that is the type of the schema is kept. -/
theorem reconcile_same {v : Json} {field : Field} (h : schema field.name = some field.type) :
    reconcile overflow schema v field = .done field := by
  unfold reconcile
  rw [h]
  exact if_pos rfl

/-- An integer for a `LONG` field. -/
theorem reconcile_long {a : Float64} {field : Field} (h : schema field.name = some .long)
    (htype : field.type = .int) : reconcile overflow schema (.number a) field =
      .done { field with type := .long, value := int64tobytes (int64 overflow a) } := by
  unfold reconcile
  rw [h, htype]
  rfl

/-- A flag for a `LONG` field is taken for a number. -/
theorem reconcile_flag {b : Bool} {field : Field} (h : schema field.name = some .long)
    (htype : field.type = .int) : reconcile overflow schema (.bool b) field = .broken := by
  unfold reconcile
  rw [h, htype]
  rfl

/-- Any other guess is refused. -/
theorem reconcile_other {v : Json} {field : Field} {type : FieldType}
    (h : schema field.name = some type) (hne : type ≠ field.type)
    (hlong : ¬(type = .long ∧ field.type = .int)) (hguess : field.type ≠ .long) :
    reconcile overflow schema v field = .refused () := by
  unfold reconcile
  rw [h]
  dsimp only
  rw [if_neg hne, if_neg hlong, if_neg fun h => hguess h.2]

/-- A guess that is refused or breaks gives no field. -/
theorem not_right_of_reconcile {v : Json} {guess : Field} {name : String}
    (hguess : guessField overflow name v = .done guess)
    (h : ∀ field, reconcile overflow schema v guess ≠ .done field) :
    ¬∃ field, guessField overflow name v >>= reconcile overflow schema v = .done field ∧
      RightField schema (name, v) field := by
  rintro ⟨field, hdone, -⟩
  rw [hguess] at hdone
  exact h field hdone

/-- A guess in the type of the schema is the field. -/
theorem right_of_same {v : Json} {type : FieldType} {name : String} {value : Bytes}
    {strings : List String} (htype : schema name = some type)
    (hguess : guessField overflow name v = .done ⟨name, type, value, strings⟩)
    (henc : Encodes type v value strings) :
    ∃ field, guessField overflow name v >>= reconcile overflow schema v = .done field ∧
      RightField schema (name, v) field := by
  refine ⟨⟨name, type, value, strings⟩, ?_, rfl, htype, henc⟩
  rw [hguess]
  exact reconcile_same htype

/-- **A number.** -/
theorem number_iff {name : String} {type : FieldType} {a : Float64} (htype : schema name = some type)
    (hfits : Representable type (.number a)) :
    (∃ field, guessField overflow name (.number a) >>= reconcile overflow schema (.number a) =
      .done field ∧ RightField schema (name, .number a) field) ↔ ValueShape type (.number a) := by
  obtain ⟨value, strings, henc⟩ := hfits
  have hother : ∀ {guess : Field}, guessField overflow name (.number a) = .done guess →
      guess.name = name → type ≠ guess.type → ¬(type = .long ∧ guess.type = .int) →
      guess.type ≠ .long → ¬∃ field, guessField overflow name (.number a) >>=
        reconcile overflow schema (.number a) = .done field ∧
          RightField schema (name, .number a) field := by
    intro guess hguess hname hne hlong hguess'
    apply not_right_of_reconcile hguess
    intro field hdone
    rw [reconcile_other (hname ▸ htype) hne hlong hguess'] at hdone
    exact nomatch hdone
  cases hdec : isDecimal a with
  | true =>
    have hguess := @guessField_float overflow name a hdec
    cases type with
    | float => exact iff_of_true (right_of_same htype hguess (float_encodes henc)) hdec
    | int => exact iff_of_false (hother hguess rfl nofun nofun nofun) (by simp [ValueShape, hdec])
    | long => exact iff_of_false (hother hguess rfl nofun nofun nofun) (by simp [ValueShape, hdec])
    | double => exact iff_of_false (hother hguess rfl nofun nofun nofun) (by simp [ValueShape])
    | string => exact henc.elim
    | multiString => exact henc.elim
    | vector => exact henc.elim
    | keyword => exact henc.elim
  | false =>
    have hguess := @guessField_int overflow name a hdec
    cases type with
    | int =>
      obtain ⟨n, hn, -⟩ := henc
      exact iff_of_true (right_of_same htype hguess ⟨_, int_encodes 32 hn, rfl⟩) hdec
    | long =>
      obtain ⟨n, hn, -⟩ := henc
      refine iff_of_true ⟨⟨name, .long, int64tobytes (int64 overflow a), []⟩, ?_, rfl, htype, _,
        int_encodes 64 hn, rfl⟩ hdec
      rw [hguess]
      exact reconcile_long htype rfl
    | float => exact iff_of_false (hother hguess rfl nofun nofun nofun) (by simp [ValueShape, hdec])
    | double => exact iff_of_false (hother hguess rfl nofun nofun nofun) (by simp [ValueShape])
    | string => exact henc.elim
    | multiString => exact henc.elim
    | vector => exact henc.elim
    | keyword => exact henc.elim

/-- **A value of a field.** -/
theorem value_iff {name : String} {type : FieldType} {v : Json} (htype : schema name = some type)
    (hfits : Representable type v) :
    (∃ field, guessField overflow name v >>= reconcile overflow schema v = .done field ∧
      RightField schema (name, v) field) ↔ ValueShape type v := by
  cases v with
  | number a => exact number_iff htype hfits
  | bool b =>
    obtain ⟨value, strings, henc⟩ := hfits
    cases type with
    | int =>
      refine iff_of_true (right_of_same htype rfl ?_) trivial
      cases b with
      | true => rfl
      | false => rfl
    | long =>
      refine iff_of_false (not_right_of_reconcile rfl ?_) nofun
      intro field hdone
      rw [reconcile_flag htype rfl] at hdone
      exact nomatch hdone
    | _ => exact henc.elim
  | string s =>
    obtain ⟨value, strings, henc⟩ := hfits
    cases type with
    | string => exact iff_of_true (right_of_same htype rfl rfl) trivial
    | keyword =>
      refine iff_of_false (not_right_of_reconcile rfl ?_) nofun
      intro field hdone
      have hrefused := @reconcile_other overflow schema (.string s) ⟨name, .string, Awa.utf8 s, []⟩
        .keyword htype nofun nofun nofun
      exact nomatch hrefused.symm.trans hdone
    | _ => exact henc.elim
  | array elements =>
    obtain ⟨value, strings, henc⟩ := hfits
    cases type with
    | multiString =>
      subst henc
      rcases eq_or_ne strings [] with rfl | hne
      · exact iff_of_false (fun ⟨_, hdone, _⟩ => nomatch hdone) (fun h => h rfl)
      · exact iff_of_true (right_of_same htype (guessField_strings name hne) rfl)
          fun h => hne (List.map_eq_nil_iff.mp h)
    | vector =>
      obtain ⟨numbers, words, rfl, hwords, rfl⟩ := henc
      rcases eq_or_ne numbers [] with rfl | hne
      · exact iff_of_false (fun ⟨_, hdone, _⟩ => nomatch hdone) (fun h => h rfl)
      · exact iff_of_true (right_of_same htype (guessField_numbers name hne)
          ⟨numbers, _, rfl, floats_encode hwords, rfl⟩) fun h => hne (List.map_eq_nil_iff.mp h)
    | _ => exact henc.elim
  | null =>
    obtain ⟨value, strings, henc⟩ := hfits
    cases type <;> exact henc.elim
  | object members =>
    obtain ⟨value, strings, henc⟩ := hfits
    cases type <;> exact henc.elim

/-- **A member of a document.** -/
theorem field_iff {p : String × Json} {type : FieldType} (htype : schema p.1 = some type)
    (hfits : Representable type p.2) :
    (∃ field, assembleField overflow schema p = .done field ∧ RightField schema p field) ↔
      Shape type p := by
  unfold assembleField Shape
  split
  · exact key_iff htype hfits
  · exact value_iff htype hfits

/-! ### The loop -/

/-- The key after a field. -/
def keyAfter (id : Option Bytes) (field : Field) : Option Bytes :=
  if field.name = "_id" then some field.value else id

/-- The key is that of the last `_id`. -/
theorem foldl_keyAfter (id : Option Bytes) (fields : List Field) :
    (fields.foldl keyAfter id = id ∧ ∀ field ∈ fields, field.name ≠ "_id") ∨
      ∃ field ∈ fields, field.name = "_id" ∧ fields.foldl keyAfter id = some field.value := by
  induction fields generalizing id with
  | nil => exact .inl ⟨rfl, nofun⟩
  | cons field fields ih =>
    rw [List.foldl_cons]
    rcases ih (keyAfter id field) with ⟨hkept, hnone⟩ | ⟨later, hmem, hlater⟩
    · by_cases hname : field.name = "_id"
      · exact .inr ⟨field, List.mem_cons_self, hname, hkept.trans (if_pos hname)⟩
      · exact .inl ⟨hkept.trans (if_neg hname), List.forall_mem_cons.mpr ⟨hname, hnone⟩⟩
    · exact .inr ⟨later, List.mem_cons_of_mem _ hmem, hlater⟩

/-- **The loop** makes one field of every member. -/
theorem loop_iff {docStruct : List (String × Json)} {doc doc' : Document} :
    docStruct.foldlM (assembleStep overflow schema) doc = .done doc' ↔
      ∃ fields, List.Forall₂ (fun p field => assembleField overflow schema p = .done field)
        docStruct fields ∧ doc' = ⟨fields.foldl keyAfter doc.id, doc.fields ++ fields⟩ := by
  induction docStruct generalizing doc with
  | nil =>
    constructor
    · intro h
      cases h
      exact ⟨[], .nil, by rw [List.append_nil]; rfl⟩
    · rintro ⟨fields, hall, rfl⟩
      cases hall
      rw [List.append_nil]
      rfl
  | cons p rest ih =>
    rw [List.foldlM_cons, Outcome.bind_eq_done_iff]
    constructor
    · rintro ⟨next, hstep, hrest⟩
      obtain ⟨field, hfield, hnext⟩ := Outcome.bind_eq_done_iff.mp hstep
      cases hnext
      obtain ⟨fields, hall, rfl⟩ := ih.mp hrest
      exact ⟨field :: fields, .cons hfield hall, by rw [List.append_assoc]; rfl⟩
    · rintro ⟨fields, hall, rfl⟩
      cases hall with
      | cons hfield hall =>
        rename_i field fields
        refine ⟨_, Outcome.bind_eq_done_iff.mpr ⟨field, hfield, rfl⟩, ih.mpr ⟨fields, hall, ?_⟩⟩
        rw [List.append_assoc]
        rfl

/-- The key of the object, if it has one. -/
theorem any_key_iff {docStruct : List (String × Json)} :
    (docStruct.any fun p => p.1 = "_id") = true ↔ ∃ p ∈ docStruct, p.1 = "_id" := by
  simp

/-- **What `AssembleDoc` returns.** -/
theorem assembleDoc_iff {uuid : String} {docStruct : List (String × Json)} {doc : Document} :
    assembleDoc overflow schema (some uuid) docStruct = .done doc ↔
      ∃ fields, List.Forall₂ (fun p field => assembleField overflow schema p = .done field)
        docStruct fields ∧ doc = if docStruct.any fun p => p.1 = "_id"
          then ⟨fields.foldl keyAfter none, fields⟩
          else ⟨some (Awa.utf8 uuid), fields ++ [newKey uuid]⟩ := by
  unfold assembleDoc
  rw [Outcome.bind_eq_done_iff]
  constructor
  · rintro ⟨doc', hloop, hend⟩
    obtain ⟨fields, hall, rfl⟩ := loop_iff.mp hloop
    refine ⟨fields, hall, ?_⟩
    split at hend
    · rename_i hkey
      cases hend
      rw [if_pos hkey]
      rfl
    · rename_i hkey
      cases hend
      rw [if_neg hkey]
      rfl
  · rintro ⟨fields, hall, rfl⟩
    refine ⟨_, loop_iff.mpr ⟨fields, hall, rfl⟩, ?_⟩
    split
    · rfl
    · rfl

/-- **A document is assembled** exactly if every value has the shape of its type, and a table whose
documents come without a key has keys that are strings. -/
theorem assembled_iff {uuid : String} {docStruct : List (String × Json)} (hfits : Fits schema docStruct) :
    (∃ doc, assembleDoc overflow schema (some uuid) docStruct = .done doc ∧
      Assembled schema uuid docStruct doc) ↔
      (∀ p ∈ docStruct, ∀ type, schema p.1 = some type → Shape type p) ∧
        ((∀ p ∈ docStruct, p.1 ≠ "_id") → schema "_id" = some .string) := by
  constructor
  · rintro ⟨doc, hdone, hdoc⟩
    obtain ⟨fields, hall, heq⟩ := assembleDoc_iff.mp hdone
    obtain ⟨given, hgiven, hfields⟩ := hdoc.fields
    have hsame : given = fields := by
      rw [heq] at hfields
      split at hfields
      · exact (hfields.trans (List.append_nil given)).symm
      · exact (List.append_cancel_right hfields).symm
    subst hsame
    refine ⟨?_, ?_⟩
    · intro p hp type htype
      obtain ⟨field, -, hfield, hright⟩ := exists_of_forall₂ hall hgiven hp
      obtain ⟨type', htype', hrep⟩ := hfits p hp
      cases htype.symm.trans htype'
      exact (field_iff htype hrep).mp ⟨field, hfield, hright⟩
    · intro hnone
      have hkey : ¬(docStruct.any fun p => p.1 = "_id") = true := by
        rw [any_key_iff]
        exact fun ⟨p, hp, heq⟩ => hnone p hp heq
      apply hdoc.types (newKey uuid)
      rw [hfields, if_neg hkey]
      exact List.mem_append_right _ List.mem_cons_self
  · rintro ⟨hshapes, hnew⟩
    have hex : ∀ p ∈ docStruct, ∃ field, assembleField overflow schema p = .done field ∧
        RightField schema p field := by
      intro p hp
      obtain ⟨type, htype, hrep⟩ := hfits p hp
      exact (field_iff htype hrep).mpr (hshapes p hp type htype)
    obtain ⟨fields, hall⟩ := exists_forall₂ hex
    have hright : List.Forall₂ (RightField schema) docStruct fields := hall.imp fun _ _ h => h.2
    have htypes : ∀ field ∈ fields, schema field.name = some field.type := by
      intro field hfield
      obtain ⟨p, -, ⟨hname, hschema, -⟩, -⟩ := exists_of_forall₂ hright.flip hright.flip hfield
      rw [hname]
      exact hschema
    refine ⟨_, assembleDoc_iff.mpr ⟨fields, hall.imp fun _ _ h => h.1, rfl⟩, ?_⟩
    split
    · rename_i hkey
      refine ⟨⟨fields, hright, by rw [if_pos hkey, List.append_nil]⟩, htypes, ?_⟩
      rcases foldl_keyAfter none fields with ⟨-, hnone⟩ | hsome
      · obtain ⟨p, hp, hid⟩ := any_key_iff.mp hkey
        obtain ⟨field, hfield, ⟨hname, -⟩, -⟩ := exists_of_forall₂ hright hright hp
        exact absurd (hname.trans hid) (hnone field hfield)
      · exact hsome
    · rename_i hkey
      refine ⟨⟨fields, hright, by rw [if_neg hkey]⟩, ?_, ?_⟩
      · intro field hfield
        cases List.mem_append.mp hfield with
        | inl hmem => exact htypes field hmem
        | inr hmem =>
          rw [List.mem_singleton.mp hmem]
          exact hnew fun p hp hid => hkey (any_key_iff.mpr ⟨p, hp, hid⟩)
      · exact ⟨newKey uuid, List.mem_append_right _ List.mem_cons_self, rfl, rfl⟩

/-- The number 5. -/
def five : Float64 := ⟨false, 4617315517961601024, by decide +kernel⟩

/-- The number 0.5. -/
def half : Float64 := ⟨false, 4602678819172646912, by decide +kernel⟩

theorem isDecimal_five : isDecimal five = false := by decide +kernel

theorem isDecimal_half : isDecimal half = true := by decide +kernel

theorem isInt_five : IsInt 32 five 5 :=
  ⟨Finite.value_eq_intCast_iff.mpr (by decide +kernel), by decide, by decide⟩

theorem isFloat_five : IsFloat five (leWord 4 1084227584) :=
  ⟨⟨false, 1084227584, by decide +kernel⟩, Finite.value_eq_iff.mpr (by decide +kernel), rfl⟩

theorem isFloat_half : IsFloat half (leWord 4 1056964608) :=
  ⟨⟨false, 1056964608, by decide +kernel⟩, Finite.value_eq_iff.mpr (by decide +kernel), rfl⟩

/-- A table with a count and a price. -/
def shop : Schema := fun name =>
  if name = "_id" then some .string
  else if name = "count" then some .int
  else if name = "price" then some .float
  else none

theorem sale_assembled : ∃ doc, assembleDoc (fun _ _ => 0) shop (some "u")
    [("count", .number five), ("price", .number half)] = .done doc ∧
      Assembled shop "u" [("count", .number five), ("price", .number half)] doc := by
  refine (assembled_iff ?_).mpr ⟨?_, fun _ => rfl⟩
  · intro p hp
    rcases List.mem_cons.mp hp with rfl | hp
    · exact ⟨.int, rfl, int32tobytes 5, [], 5, isInt_five, rfl⟩
    · rw [List.mem_singleton.mp hp]
      exact ⟨.float, rfl, _, [], isFloat_half⟩
  · intro p hp type htype
    rcases List.mem_cons.mp hp with rfl | hp
    · cases htype
      exact isDecimal_five
    · rw [List.mem_singleton.mp hp] at htype ⊢
      cases htype
      exact isDecimal_half

/-- A whole number is refused for a `FLOAT` field. -/
theorem whole_price_refused : Fits shop [("price", .number five)] ∧
    ¬∃ doc, assembleDoc (fun _ _ => 0) shop (some "u") [("price", .number five)] = .done doc := by
  constructor
  · intro p hp
    rw [List.mem_singleton.mp hp]
    exact ⟨.float, rfl, _, [], isFloat_five⟩
  · rintro ⟨doc, hdone⟩
    obtain ⟨fields, hall, -⟩ := assembleDoc_iff.mp hdone
    cases hall with
    | cons hfield _ =>
      obtain ⟨guess, hguess, hrec⟩ := Outcome.bind_eq_done_iff.mp hfield
      rw [guessField_int _ isDecimal_five] at hguess
      cases hguess
      exact nomatch hrec

end AwaDB.Hub
