import AwaDB.Lib.Codec
import AwaDB.Lib.Lists
import AwaDB.Table.DocidTable
import AwaDB.Table.FieldSearch

/-!
# Reading some fields at once (`DocidFieldsMgr::Get` in `table/docid_fields_mgr.cc`)

`Get` for a list of fields reads the array of the docid byte by byte. A field that is unknown or that
the docid lacks is remembered, and the read goes on with the code of `Find`, which is negative then. The
remembered ones are erased at the end, from the last to the first.

* `getLoop_of_found`: where nothing is missing, the first loop reads what `Get` of one field reads;
* `getRound_of_lacks`: a field that is missing makes it read in front of a short array;
* `eraseFields_undefined`: the last loop goes on behind the first remembered field, so that it uses a
  place that is not there, or an iterator that is invalid;
* `agreesWithGet_iff`: **the two forms agree** exactly for an empty list and a docid that is refused.
-/

namespace AwaDB

open Lib

/-- A `Field` that was filled: the bytes that were never written are `none`. -/
structure ReadField where
  name : String
  value : List MemByte
  datatype : DataType
deriving DecidableEq, Repr

namespace DocidFieldsMgr

/-! ### The code -/

/-- A field of the list before it is filled. -/
def unread (f : Field) : ReadField := ⟨f.name, f.value.map some, f.datatype⟩

/-- `DocidFieldsMgr::Get` of one field, and the field that it fills; a vector keeps its value. -/
def getField (m : DocidFieldsMgr) (docid : ℕ) (f : Field) : Option ReadField :=
  (m.fields f.name).bind fun c =>
    (m.get docid f.name).map fun value =>
      ⟨f.name, if columnKind c.dataType = none then f.value.map some else value, c.dataType⟩

/-- The array of a docid: the number of its fields, their ids and their positions. -/
def entryBytes (entry : List (ℕ × ℕ)) : Bytes :=
  UInt8.ofNat entry.length :: (entry.map fun p => UInt8.ofNat p.1) ++ entry.flatMap fun p => leWord 4 p.2

/-- The word at the place `code` of the positions; to read outside of the array is undefined. -/
def readId (bytes : Bytes) (num : ℕ) (code : ℤ) : Option ℕ :=
  if 1 + num + 4 * code < 0 then none
  else (readWord 4 (bytes.drop (1 + num + 4 * code).toNat)).map Prod.fst

/-- `Get` of a column, whose code is not looked at. Behind a fixed-size column the value is a null
pointer, behind another one the field keeps its value. -/
def readColumn (m : DocidFieldsMgr) (c : ColumnField) (id : ℕ) (f : Field) : Option ReadField :=
  match columnKind c.dataType with
  | none => some ⟨f.name, f.value.map some, c.dataType⟩
  | some .fixed => ((m.values f.name)[id]?).map fun value => ⟨f.name, value, c.dataType⟩
  | some _ => some ⟨f.name, ((m.values f.name)[id]?).getD (f.value.map some), c.dataType⟩

/-- A round of the first loop, for the field at `i`: the field, and `erasing_iterators`. -/
def getRound (m : DocidFieldsMgr) (bytes : Bytes) (num i : ℕ) (f : Field) (erasing : List ℕ) :
    Option (ReadField × List ℕ) :=
  let known := m.fields f.name
  let erasing := if known = none then erasing ++ [i] else erasing
  -- an unknown name gets the id 0 and the type `INT` here, but no column
  let fieldId := (known.map ColumnField.id).getD 0
  (findCode num (UInt8.ofNat fieldId) ((bytes.drop 1).take num)).bind fun idPos =>
    let erasing := if idPos < 0 then erasing ++ [i] else erasing
    (readId bytes num idPos).bind fun id =>
      known.bind fun c => (m.readColumn c id f).map fun field => (field, erasing)

/-- The first loop, from the field at `i` on. -/
def getLoop (m : DocidFieldsMgr) (bytes : Bytes) (num : ℕ) :
    ℕ → List Field → List ℕ → Option (List ReadField × List ℕ)
  | _, [], erasing => some ([], erasing)
  | i, f :: fields, erasing =>
    (m.getRound bytes num i f erasing).bind fun r =>
      (m.getLoop bytes num (i + 1) fields r.2).map fun rest => (r.1 :: rest.1, rest.2)

/-- The last loop, `for (uint32_t i = erasing_iterators.size() - 1; i >= 0; i--)`. An iterator is valid
if it is in front of each place that was erased. -/
def eraseFields (erasing : List ℕ) (valid i : ℕ) (fields : List ReadField) : Option (List ReadField) :=
  if 0 ≤ i then
    match erasing[i]? with
    | none => none
    | some place =>
      if _h : place < valid then
        eraseFields erasing place ((i + (2 ^ 32 - 1)) % 2 ^ 32) (fields.eraseIdx place)
      else none
  else some fields
termination_by valid

/-- `DocidFieldsMgr::Get` of some fields: the code, and the list. -/
def getFields (m : DocidFieldsMgr) (docid : ℕ) (fields : List Field) : Option (ℤ × List ReadField) :=
  if m.size ≤ docid then some (-1, fields.map unread)
  else
    (m.entries docid).bind fun entry =>
      let bytes := entryBytes entry
      (bytes[0]?).bind fun fieldsNum =>
        (m.getLoop bytes fieldsNum.toNat 0 fields []).bind fun r =>
          let last := (r.2.length + (2 ^ 64 - 1)) % 2 ^ 64 % 2 ^ 32
          (eraseFields r.2 r.1.length last r.1).map fun fields => (0, fields)

/-- **The list agrees with the reads of one field**: it ends, and it has the fields that `Get` returns. -/
def AgreesWithGet (m : DocidFieldsMgr) (docid : ℕ) (fields : List Field) : Prop :=
  ∃ code, m.getFields docid fields = some (code, fields.filterMap (m.getField docid))

/-! ### The last loop -/

/-- **It has no result**, whatever is to be erased. -/
theorem eraseFields_undefined (erasing : List ℕ) (valid i : ℕ) (fields : List ReadField) :
    eraseFields erasing valid i fields = none := by
  induction valid using Nat.strong_induction_on generalizing i fields with
  | h valid ih =>
    rw [eraseFields, if_pos (Nat.zero_le i)]
    cases erasing[i]? with
    | none => rfl
    | some place =>
      dsimp only
      split
      · rename_i hlt
        exact ih place hlt _ _
      · rfl

/-- **`Get` of some fields** has no result for a docid below `size_`. -/
theorem getFields_undefined {m : DocidFieldsMgr} {docid : ℕ} (h : docid < m.size) (fields : List Field) :
    m.getFields docid fields = none := by
  rw [getFields, if_neg (Nat.not_le.mpr h)]
  cases m.entries docid with
  | none => rfl
  | some entry =>
    show (m.getLoop (entryBytes entry) _ 0 fields []).bind _ = none
    cases m.getLoop (entryBytes entry) (UInt8.ofNat entry.length).toNat 0 fields [] with
    | none => rfl
    | some r =>
      rw [Option.bind_some]
      dsimp only
      rw [eraseFields_undefined, Option.map_none]

/-- It ends where the model with a number of rounds ends. -/
theorem exists_getFields_iff (m : DocidFieldsMgr) (docid : ℕ) (fields : List Field) :
    (∃ r, m.getFields docid fields = some r) ↔
      ∃ rounds found, m.getList rounds docid (fields.map Field.name) = some found := by
  by_cases hsize : m.size ≤ docid
  · rw [getFields, if_pos hsize]
    refine iff_of_true ⟨_, rfl⟩ ⟨0, none, ?_⟩
    rw [getList, if_pos hsize]
  · have hlt : docid < m.size := Nat.lt_of_not_le hsize
    rw [getFields_undefined hlt]
    refine iff_of_false (fun h => ?_) (fun h => ?_)
    · obtain ⟨r, hr⟩ := h
      cases hr
    · obtain ⟨rounds, found, hfound⟩ := h
      rw [getList_undefined hlt] at hfound
      cases hfound

/-! ### The first loop -/

/-- The numbers of an entry fit in its array. -/
structure FitsArray (entry : List (ℕ × ℕ)) : Prop where
  num : entry.length < 2 ^ 8
  ids : ∀ p ∈ entry, p.1 < 2 ^ 8
  positions : ∀ p ∈ entry, p.2 < 2 ^ 32

variable {entry : List (ℕ × ℕ)} {m : DocidFieldsMgr} {docid : ℕ} {f : Field}

theorem toNat_ofNat_of_lt {k : ℕ} (h : k < 2 ^ 8) : (UInt8.ofNat k).toNat = k :=
  (UInt8.toNat_ofNat' ..).trans (Nat.mod_eq_of_lt h)

theorem ids_entryBytes (entry : List (ℕ × ℕ)) :
    ((entryBytes entry).drop 1).take entry.length = entry.map fun p => UInt8.ofNat p.1 := by
  show ((entry.map fun p => UInt8.ofNat p.1) ++ entry.flatMap fun p => leWord 4 p.2).take _ = _
  refine List.take_left' ?_
  rw [List.length_map]

/-- The word of a position. -/
theorem readId_entryBytes (hfits : FitsArray entry) {i : ℕ} {p : ℕ × ℕ} (hp : entry[i]? = some p) :
    readId (entryBytes entry) entry.length i = some p.2 := by
  obtain ⟨hi, hget⟩ := List.getElem?_eq_some_iff.mp hp
  have hat : (1 + (entry.length : ℤ) + 4 * (i : ℤ)).toNat = 1 + entry.length + i * 4 := by omega
  have hword : (entryBytes entry).drop (1 + entry.length + i * 4) =
      leWord 4 p.2 ++ (entry.drop (i + 1)).flatMap fun p => leWord 4 p.2 := by
    have hids : 1 + entry.length = (UInt8.ofNat entry.length ::
        (entry.map fun p => UInt8.ofNat p.1)).length := by
      rw [List.length_cons, List.length_map, Nat.add_comm]
    rw [← List.drop_drop, hids, entryBytes, List.drop_left, drop_flatMap fun p : ℕ × ℕ => length_leWord 4 p.2,
      List.drop_eq_getElem_cons hi, List.flatMap_cons, hget]
  rw [readId, if_neg (by omega), hat, hword,
    readWord_leWord (hfits.positions p (List.mem_of_getElem? hp))]
  rfl

/-- The ids of an entry as the bytes of its array. -/
theorem toNat_ids (hfits : FitsArray entry) :
    (entry.map fun p => UInt8.ofNat p.1).map UInt8.toNat = entry.map Prod.fst := by
  rw [List.map_map]
  refine List.map_congr_left fun p hp => ?_
  exact toNat_ofNat_of_lt (hfits.ids p hp)

/-- `Find` in the array is `find` in the entry. -/
theorem find_entryBytes (hfits : FitsArray entry) {fid : ℕ} (hfid : fid < 2 ^ 8) :
    find fid (entry.map Prod.fst) =
      (findCode entry.length (UInt8.ofNat fid) (((entryBytes entry).drop 1).take entry.length)).bind
        position := by
  have hsize : (entry.map fun p => UInt8.ofNat p.1).length < 2 ^ 31 := by
    have := hfits.num
    rw [List.length_map]
    omega
  have hcode := @find_eq_findCode (UInt8.ofNat fid) _ hsize
  rw [toNat_ids hfits, toNat_ofNat_of_lt hfid, List.length_map] at hcode
  rw [hcode, ids_entryBytes]

theorem eq_of_position {code : ℤ} {i : ℕ} (h : position code = some i) : code = i := by
  rw [position] at h
  split_ifs at h with hcode
  rw [← Option.some.inj h, Int.toNat_of_nonneg hcode]

/-- **A field that `Get` finds** is read like it. -/
theorem getRound_of_found (hentry : m.entries docid = some entry) (hfits : FitsArray entry)
    (hid : ∀ c, m.fields f.name = some c → c.id < 2 ^ 8) {field : ReadField}
    (hget : m.getField docid f = some field) (i : ℕ) (erasing : List ℕ) :
    m.getRound (entryBytes entry) entry.length i f erasing = some (field, erasing) := by
  obtain ⟨c, hc, hget⟩ := Option.bind_eq_some_iff.mp hget
  obtain ⟨value, hvalue, rfl⟩ := Option.map_eq_some_iff.mp hget
  rw [DocidFieldsMgr.get] at hvalue
  split at hvalue
  · cases hvalue
  rw [hentry, hc, Option.bind_some, Option.bind_some, find_entryBytes hfits (hid c hc)] at hvalue
  obtain ⟨at', hat, hvalue⟩ := Option.bind_eq_some_iff.mp hvalue
  obtain ⟨code, hcode, hposition⟩ := Option.bind_eq_some_iff.mp hat
  obtain ⟨p, hp, hvalue⟩ := Option.bind_eq_some_iff.mp hvalue
  have hplace : code = at' := eq_of_position hposition
  have hcolumn : m.readColumn c p.2 f =
      some ⟨f.name, if columnKind c.dataType = none then f.value.map some else value, c.dataType⟩ := by
    rw [readColumn]
    cases hkind : columnKind c.dataType with
    | none => rfl
    | some kind =>
      rw [hkind, if_neg (Option.some_ne_none kind)] at hvalue
      rw [if_neg (Option.some_ne_none kind), hvalue]
      cases kind with
      | fixed => rfl
      | str => rfl
      | multi => rfl
  unfold getRound
  rw [hc]
  dsimp only
  rw [if_neg (Option.some_ne_none c), Option.map_some, Option.getD_some, hcode, Option.bind_some,
    hplace, if_neg (Int.not_lt.mpr (Int.natCast_nonneg at')), readId_entryBytes hfits hp,
    Option.bind_some, Option.bind_some, hcolumn]
  rfl

/-- **Where nothing is missing**, the first loop reads what `Get` of one field reads. -/
theorem getLoop_of_found (hentry : m.entries docid = some entry) (hfits : FitsArray entry)
    (hids : ∀ name c, m.fields name = some c → c.id < 2 ^ 8) {fields : List Field}
    (hfound : ∀ f ∈ fields, (m.getField docid f).isSome) (i : ℕ) (erasing : List ℕ) :
    m.getLoop (entryBytes entry) entry.length i fields erasing =
      some (fields.filterMap (m.getField docid), erasing) := by
  induction fields generalizing i with
  | nil => rfl
  | cons f fields ih =>
    obtain ⟨field, hfield⟩ := Option.isSome_iff_exists.mp (hfound f List.mem_cons_self)
    rw [getLoop, getRound_of_found hentry hfits (hids f.name) hfield, Option.bind_some,
      ih fun g hg => hfound g (List.mem_cons_of_mem f hg), List.filterMap_cons_some hfield]
    rfl

/-- **A field that is missing** from a short entry: the read goes on in front of the array. -/
theorem getRound_of_lacks (hfits : FitsArray entry) (hshort : entry.length < 3)
    (hlacks : ∀ c, m.fields f.name = some c → c.id < 2 ^ 8 ∧ c.id ∉ entry.map Prod.fst) (i : ℕ)
    (erasing : List ℕ) : m.getRound (entryBytes entry) entry.length i f erasing = none := by
  unfold getRound
  cases hc : m.fields f.name with
  | none =>
    -- there is no column, whatever is read before
    refine Option.bind_eq_none_iff.mpr fun code _ => ?_
    exact Option.bind_fun_none _
  | some c =>
    obtain ⟨hid, habsent⟩ := hlacks c hc
    have hfind : find c.id (entry.map Prod.fst) = none := by
      by_contra hsome
      obtain ⟨at', hat⟩ := Option.ne_none_iff_exists'.mp hsome
      exact habsent (List.mem_of_getElem? (find_sound hat))
    rw [find_entryBytes hfits hid] at hfind
    refine Option.bind_eq_none_iff.mpr fun code hcode => ?_
    have hneg : code < 0 := by
      have hposition := Option.bind_eq_none_iff.mp hfind code hcode
      rw [position] at hposition
      split_ifs at hposition with hpos
      exact Int.not_le.mp hpos
    have hread : readId (entryBytes entry) entry.length code = none := if_pos (by omega)
    dsimp only
    rw [hread, Option.bind_none]

/-! ### Both forms -/

/-- **The two forms of `Get` agree** exactly for a docid that is not below `size_` and an empty list. -/
theorem agreesWithGet_iff (m : DocidFieldsMgr) (docid : ℕ) (fields : List Field) :
    m.AgreesWithGet docid fields ↔ m.size ≤ docid ∧ fields = [] := by
  by_cases hsize : m.size ≤ docid
  · have hget : ∀ f ∈ fields, m.getField docid f = none := by
      intro f _
      rw [getField, DocidFieldsMgr.get, if_pos hsize]
      exact Option.bind_fun_none _
    rw [AgreesWithGet, List.filterMap_eq_nil_iff.mpr hget, getFields, if_pos hsize]
    constructor
    · rintro ⟨code, h⟩
      exact ⟨hsize, List.map_eq_nil_iff.mp (Prod.mk.inj (Option.some.inj h)).2⟩
    · rintro ⟨-, rfl⟩
      exact ⟨-1, rfl⟩
  · refine iff_of_false (fun h => ?_) (fun h => hsize h.1)
    obtain ⟨code, h⟩ := h
    rw [getFields_undefined (Nat.lt_of_not_le hsize)] at h
    cases h

/-- One docid with one field, which `Get` of one field finds. -/
theorem agreesWithGet_not : ∃ m,
    (create.addField ⟨"age", .int, false⟩ 0).put 0 [⟨"age", [7, 0, 0, 0], .int⟩] = some m ∧
      m.getField 0 ⟨"age", [], .int⟩ = some ⟨"age", [some 7, some 0, some 0, some 0], .int⟩ ∧
      ¬ m.AgreesWithGet 0 [⟨"age", [], .int⟩] := by
  refine ⟨_, rfl, by decide, fun h => ?_⟩
  obtain ⟨code, hcode⟩ := h
  rw [getFields_undefined (by decide)] at hcode
  cases hcode

end DocidFieldsMgr

end AwaDB
