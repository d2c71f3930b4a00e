import AwaDB.Lib.Codec
import AwaDB.Lib.Lists
import AwaDB.Table.DocidFieldsFile
import Mathlib.Algebra.Order.Ring.Int

/-!
# The schema file of a table (`search/gamma_table_io.cc`)

`TableSchemaIO::Write` puts the members of a `TableInfo` one behind the other, a string behind its length
as an `int`, and the text `NULL` for an empty parameter of a vector store. `Read` takes them off again.
Three members are in neither sequence.

* `reads_tableInfo`: what was written is read, but for those three members;
* `yields_tableInfo`: what a reader can return at all;
* `schema_lossless_iff`: **the file is lossless** exactly when the three members are as in a new
  `TableInfo`, no parameter is the placeholder, and every length is an `int`.
-/

namespace AwaDB

open Lib DocidContent

namespace TableSchemaIO

/-- `FieldInfo`. -/
structure FieldInfo where
  name : Bytes
  dataType : DataType
  isIndex : Bool
deriving DecidableEq, Repr

/-- `VectorInfo`; an `int` is its 32 bits. -/
structure VectorInfo where
  name : Bytes
  dataType : DataType
  isIndex : Bool
  dimension : UInt32
  modelId : Bytes
  storeType : Bytes
  storeParam : Bytes
  hasSource : Bool
deriving DecidableEq, Repr

/-- `TableInfo`. -/
structure TableInfo where
  name : Bytes
  fields : List FieldInfo
  vectorsInfos : List VectorInfo
  indexingSize : UInt32
  retrievalType : Bytes
  retrievalParam : Bytes
  compressMode : UInt32
  retrievalTypes : List Bytes
  retrievalParams : List Bytes
deriving DecidableEq, Repr

/-- `kPlaceHolder`: `NULL`. -/
def kPlaceHolder : Bytes := [78, 85, 76, 76]

/-! ### Writing -/

/-- `FWriteByteArray`: the length is cast to an `int`, and a negative one makes `fwrite` leave the
string. -/
def fWriteByteArray (ba : Bytes) : Option Bytes :=
  let len := ba.length % 2 ^ 32
  if 2 ^ 31 ≤ len then none else some (leWord 4 len ++ ba.take len)

/-- A `bool` is one byte. -/
def writeBool (b : Bool) : Bytes := leWord 1 b.toNat

/-- A loop over a vector whose size is cast to an `int`. -/
def writeAll {α : Type} (write : α → Option Bytes) (xs : List α) : Option Bytes :=
  let num := xs.length % 2 ^ 32
  ((xs.take (if 2 ^ 31 ≤ num then 0 else num)).mapM write).map fun parts =>
    leWord 4 num ++ parts.flatten

/-- The body of the loop of `WriteFieldInfos`. -/
def writeFieldInfo (fi : FieldInfo) : Option Bytes :=
  (fWriteByteArray fi.name).map fun name =>
    name ++ (leWord 2 (typeCode fi.dataType) ++ writeBool fi.isIndex)

/-- What is written for the parameter of a store. -/
def placed (param : Bytes) : Bytes := if param = [] then kPlaceHolder else param

/-- The body of the loop of `WriteVectorInfos`. -/
def writeVectorInfo (vi : VectorInfo) : Option Bytes :=
  (fWriteByteArray vi.name).bind fun name =>
    (fWriteByteArray vi.modelId).bind fun modelId =>
      (fWriteByteArray vi.storeType).bind fun storeType =>
        (fWriteByteArray (placed vi.storeParam)).map fun storeParam =>
          name ++ (leWord 2 (typeCode vi.dataType) ++ (writeBool vi.isIndex ++
            (leWord 4 vi.dimension.toNat ++ (modelId ++ (storeType ++ (storeParam ++
              writeBool vi.hasSource))))))

/-- `TableSchemaIO::Write`. -/
def write (table : TableInfo) : Option Bytes :=
  (writeAll writeFieldInfo table.fields).bind fun fields =>
    (writeAll writeVectorInfo table.vectorsInfos).bind fun vectors =>
      (fWriteByteArray table.retrievalType).bind fun retrievalType =>
        (fWriteByteArray table.retrievalParam).map fun retrievalParam =>
          leWord 4 table.indexingSize.toNat ++ (fields ++ (vectors ++ (retrievalType ++ retrievalParam)))

/-! ### Reading -/

/-- `FReadByteArray`: there is no array of a negative length. -/
def fReadByteArray : Reader Bytes :=
  readBind (readWord 4) fun len => if 2 ^ 31 ≤ len then readFail else readBytes len

def readBool : Reader Bool := readBind (readWord 1) fun byte => readPure (byte = 1)

def readType : Reader DataType := readBind (readWord 2) fun code => readPure (typeOf code)

/-- An `int`. -/
def readInt : Reader UInt32 := readBind (readWord 4) fun word => readPure (UInt32.ofNat word)

/-- A loop up to an `int`. -/
def readAll {α : Type} (read : Reader α) : Reader (List α) :=
  readBind (readWord 4) fun num => readList read (if 2 ^ 31 ≤ num then 0 else num)

/-- The body of the loop of `ReadFieldInfos`. -/
def readFieldInfo : Reader FieldInfo :=
  readBind fReadByteArray fun name => readBind readType fun dataType =>
    readBind readBool fun isIndex => readPure ⟨name, dataType, isIndex⟩

/-- The body of the loop of `ReadVectorInfos`. -/
def readVectorInfo : Reader VectorInfo :=
  readBind fReadByteArray fun name => readBind readType fun dataType =>
    readBind readBool fun isIndex => readBind readInt fun dimension =>
      readBind fReadByteArray fun modelId => readBind fReadByteArray fun storeType =>
        readBind fReadByteArray fun storeParam => readBind readBool fun hasSource =>
          readPure ⟨name, dataType, isIndex, dimension, modelId, storeType,
            if storeParam = kPlaceHolder then [] else storeParam, hasSource⟩

/-- `TableSchemaIO::Read` into a new `TableInfo`. -/
def read (name : Bytes) : Reader TableInfo :=
  readBind readInt fun indexingSize => readBind (readAll readFieldInfo) fun fields =>
    readBind (readAll readVectorInfo) fun vectors => readBind fReadByteArray fun retrievalType =>
      readBind fReadByteArray fun retrievalParam =>
        readPure ⟨name, fields, vectors, indexingSize, retrievalType, retrievalParam, 0, [], []⟩

/-- `Read` of what `Write` produced. -/
def reread (table : TableInfo) : Option TableInfo :=
  (write table).bind fun bytes => (read table.name bytes).map Prod.fst

/-! ### What fits the file -/

/-- The length is an `int`. -/
def Fits {α : Type} (xs : List α) : Prop := xs.length < 2 ^ 31

/-- The strings of a vector fit, and its parameter is not the placeholder. -/
structure VectorInfo.Writable (vi : VectorInfo) : Prop where
  name : Fits vi.name
  modelId : Fits vi.modelId
  storeType : Fits vi.storeType
  storeParam : Fits vi.storeParam
  param : vi.storeParam ≠ kPlaceHolder

/-- The members that are written fit. -/
structure TableInfo.Writable (table : TableInfo) : Prop where
  fields : Fits table.fields
  names : ∀ fi ∈ table.fields, Fits fi.name
  vectors : Fits table.vectorsInfos
  infos : ∀ vi ∈ table.vectorsInfos, vi.Writable
  retrievalType : Fits table.retrievalType
  retrievalParam : Fits table.retrievalParam

/-! ### What was written is read -/

theorem fWriteByteArray_of_fits {ba : Bytes} (h : Fits ba) :
    fWriteByteArray ba = some (leWord 4 ba.length ++ ba) := by
  have hfits : ba.length < 2 ^ 31 := h
  have hmod : ba.length % 2 ^ 32 = ba.length := by omega
  unfold fWriteByteArray
  rw [hmod, if_neg (Nat.not_le.mpr hfits), List.take_length]

theorem reads_fReadByteArray {ba : Bytes} (h : Fits ba) :
    Reads fReadByteArray (leWord 4 ba.length ++ ba) ba := by
  have hfits : ba.length < 2 ^ 31 := h
  have hword : ba.length < 256 ^ 4 := by omega
  refine (readWord_leWord hword).bind ?_
  rw [if_neg (Nat.not_le.mpr hfits)]
  exact reads_readBytes ba

theorem reads_readBool (b : Bool) : Reads readBool (writeBool b) b := by
  have hword : b.toNat < 256 ^ 1 := by cases b <;> decide
  have hread := (readWord_leWord hword).map fun byte => decide (byte = 1)
  have hbool : decide (b.toNat = 1) = b := by cases b <;> rfl
  rwa [hbool] at hread

theorem reads_readType (t : DataType) : Reads readType (leWord 2 (typeCode t)) t := by
  have hword : typeCode t < 256 ^ 2 := by cases t <;> decide
  have hread := (readWord_leWord hword).map typeOf
  rwa [typeOf_typeCode] at hread

theorem reads_readInt (x : UInt32) : Reads readInt (leWord 4 x.toNat) x := by
  have hread := (readWord_leWord (show x.toNat < 256 ^ 4 from x.toNat_lt)).map UInt32.ofNat
  rwa [UInt32.ofNat_toNat] at hread

/-- **A loop** whose bodies match. -/
theorem reads_readAll {α : Type} {write : α → Option Bytes} {read : Reader α} {xs : List α}
    (hfits : Fits xs) (h : ∀ x ∈ xs, ∃ bytes, write x = some bytes ∧ Reads read bytes x) :
    ∃ bytes, writeAll write xs = some bytes ∧ Reads (readAll read) bytes xs := by
  have hlen : xs.length < 2 ^ 31 := hfits
  have hmod : xs.length % 2 ^ 32 = xs.length := by omega
  have hword : xs.length < 256 ^ 4 := by omega
  have hcount : (if 2 ^ 31 ≤ xs.length then 0 else xs.length) = xs.length :=
    if_neg (Nat.not_le.mpr hlen)
  have hwrite : ∀ x ∈ xs, write x = some ((write x).getD []) := by
    intro x hx
    obtain ⟨bytes, hbytes, -⟩ := h x hx
    rw [hbytes, Option.getD_some]
  have hparts : xs.mapM write = some (xs.map fun x => (write x).getD []) :=
    mapM_eq_map hwrite
  refine ⟨leWord 4 xs.length ++ xs.flatMap fun x => (write x).getD [], ?_, ?_⟩
  · unfold writeAll
    dsimp only
    rw [hmod, hcount, List.take_length, hparts, Option.map_some, List.flatMap_def]
  · refine (readWord_leWord hword).bind ?_
    rw [hcount]
    refine readList_flatMap fun x hx => ?_
    obtain ⟨bytes, hbytes, hread⟩ := h x hx
    rwa [hbytes, Option.getD_some]

theorem reads_fieldInfo {fi : FieldInfo} (h : Fits fi.name) :
    ∃ bytes, writeFieldInfo fi = some bytes ∧ Reads readFieldInfo bytes fi := by
  refine ⟨_, by rw [writeFieldInfo, fWriteByteArray_of_fits h, Option.map_some], ?_⟩
  exact (reads_fReadByteArray h).bind ((reads_readType _).bind ((reads_readBool _).map _))

theorem placed_read {param : Bytes} (h : param ≠ kPlaceHolder) :
    (if placed param = kPlaceHolder then [] else placed param) = param := by
  unfold placed
  by_cases hnil : param = []
  · rw [if_pos hnil, if_pos rfl, hnil]
  · rw [if_neg hnil, if_neg h]

theorem fits_placed {param : Bytes} (h : Fits param) : Fits (placed param) := by
  unfold placed
  split
  · show kPlaceHolder.length < 2 ^ 31
    decide
  · exact h

theorem reads_vectorInfo {vi : VectorInfo} (h : vi.Writable) :
    ∃ bytes, writeVectorInfo vi = some bytes ∧ Reads readVectorInfo bytes vi := by
  refine ⟨_, by rw [writeVectorInfo, fWriteByteArray_of_fits h.name, Option.bind_some,
    fWriteByteArray_of_fits h.modelId, Option.bind_some, fWriteByteArray_of_fits h.storeType,
    Option.bind_some, fWriteByteArray_of_fits (fits_placed h.storeParam), Option.map_some], ?_⟩
  have hread : Reads readVectorInfo _ (⟨vi.name, vi.dataType, vi.isIndex, vi.dimension, vi.modelId,
      vi.storeType, if placed vi.storeParam = kPlaceHolder then [] else placed vi.storeParam,
      vi.hasSource⟩ : VectorInfo) :=
    (reads_fReadByteArray h.name).bind ((reads_readType vi.dataType).bind
      ((reads_readBool vi.isIndex).bind ((reads_readInt vi.dimension).bind
        ((reads_fReadByteArray h.modelId).bind ((reads_fReadByteArray h.storeType).bind
          ((reads_fReadByteArray (fits_placed h.storeParam)).bind
            ((reads_readBool vi.hasSource).map _)))))))
  rw [placed_read h.param] at hread
  exact hread

/-- **What was written is read**, but for the members that are in neither sequence. -/
theorem reads_tableInfo {table : TableInfo} (h : table.Writable) :
    ∃ bytes, write table = some bytes ∧ Reads (read table.name) bytes
      { table with compressMode := 0, retrievalTypes := [], retrievalParams := [] } := by
  obtain ⟨fields, hfields, hreadFields⟩ :=
    reads_readAll h.fields fun fi hfi => reads_fieldInfo (h.names fi hfi)
  obtain ⟨vectors, hvectors, hreadVectors⟩ :=
    reads_readAll h.vectors fun vi hvi => reads_vectorInfo (h.infos vi hvi)
  refine ⟨_, by rw [write, hfields, Option.bind_some, hvectors, Option.bind_some,
    fWriteByteArray_of_fits h.retrievalType, Option.bind_some,
    fWriteByteArray_of_fits h.retrievalParam, Option.map_some], ?_⟩
  exact (reads_readInt _).bind (hreadFields.bind (hreadVectors.bind
    ((reads_fReadByteArray h.retrievalType).bind ((reads_fReadByteArray h.retrievalParam).map _))))

/-! ### What a reader returns -/

theorem yields_fReadByteArray : Yields fReadByteArray Fits := by
  refine (yields_true (readWord 4)).bind fun len _ => ?_
  by_cases hlen : 2 ^ 31 ≤ len
  · rw [if_pos hlen]
    exact yields_fail _
  · rw [if_neg hlen]
    intro f x rest hx
    unfold readBytes at hx
    split at hx
    · cases hx
    · cases hx
      show (f.take len).length < 2 ^ 31
      rw [List.length_take]
      omega

theorem yields_readAll {α : Type} {read : Reader α} {P : α → Prop} (h : Yields read P) :
    Yields (readAll read) fun xs => Fits xs ∧ ∀ x ∈ xs, P x := by
  refine (yields_true (readWord 4)).bind fun num _ => ?_
  intro f xs rest hxs
  obtain ⟨hlen, hall⟩ := yields_readList h _ f xs rest hxs
  refine ⟨?_, hall⟩
  show xs.length < 2 ^ 31
  rw [hlen]
  split
  · decide
  · omega

theorem yields_fieldInfo : Yields readFieldInfo fun fi => Fits fi.name :=
  yields_fReadByteArray.bind fun _ hname => (yields_true _).bind fun _ _ =>
    (yields_true _).bind fun _ _ => yields_pure hname

theorem yields_vectorInfo : Yields readVectorInfo VectorInfo.Writable := by
  refine yields_fReadByteArray.bind fun name hname => (yields_true _).bind fun _ _ =>
    (yields_true _).bind fun _ _ => (yields_true _).bind fun _ _ =>
    yields_fReadByteArray.bind fun modelId hmodel => yields_fReadByteArray.bind fun storeType hstore =>
    yields_fReadByteArray.bind fun storeParam hparam => (yields_true _).bind fun _ _ => yields_pure ?_
  refine ⟨hname, hmodel, hstore, ?_, ?_⟩
  · dsimp only
    split
    · exact Nat.two_pow_pos 31
    · exact hparam
  · dsimp only
    split
    · decide
    · assumption

/-- The members that are read fit, and the others are those of a new `TableInfo`. -/
theorem yields_tableInfo (name : Bytes) : Yields (read name) fun table => table.Writable ∧
    table.compressMode = 0 ∧ table.retrievalTypes = [] ∧ table.retrievalParams = [] :=
  (yields_true _).bind fun _ _ => (yields_readAll yields_fieldInfo).bind fun _ hfields =>
    (yields_readAll yields_vectorInfo).bind fun _ hvectors => yields_fReadByteArray.bind fun _ htype =>
    yields_fReadByteArray.bind fun _ hparam => yields_pure
      ⟨⟨hfields.1, hfields.2, hvectors.1, hvectors.2, htype, hparam⟩, rfl, rfl, rfl⟩

/-! ### The file -/

/-- **The schema file is lossless** exactly for the tables that have nothing in the three members that are
not written, and whose members that are written fit. -/
theorem schema_lossless_iff (table : TableInfo) :
    reread table = some table ↔ table.Writable ∧ table.compressMode = 0 ∧
      table.retrievalTypes = [] ∧ table.retrievalParams = [] := by
  constructor
  · intro h
    obtain ⟨bytes, -, hread⟩ := Option.bind_eq_some_iff.mp h
    obtain ⟨⟨t, rest⟩, hread, rfl⟩ := Option.map_eq_some_iff.mp hread
    exact yields_tableInfo t.name bytes t rest hread
  · rintro ⟨hwritable, hcompress, htypes, hparams⟩
    obtain ⟨bytes, hwrite, hread⟩ := reads_tableInfo hwritable
    have hfile := hread []
    rw [List.append_nil] at hfile
    unfold reread
    rw [hwrite, Option.bind_some, hfile, Option.map_some]
    cases table
    cases hcompress
    cases htypes
    cases hparams
    rfl

/-- **The models of a table are lost**: one vector field, and the models in the list that creation takes
when there is no single one. -/
theorem retrieval_types_lost :
    let table : TableInfo :=
      { name := [116]
        fields := [⟨[95, 105, 100], .string, false⟩]
        vectorsInfos := [⟨[118], .vector, true, 4, [], [77, 109, 97, 112], [], false⟩]
        indexingSize := 10000
        retrievalType := []
        retrievalParam := []
        compressMode := 0
        retrievalTypes := [[70, 76, 65, 84]]
        retrievalParams := [[123, 125]] }
    reread table = some { table with retrievalTypes := [], retrievalParams := [] } ∧
      reread table ≠ some table := by
  decide

end TableSchemaIO

end AwaDB
