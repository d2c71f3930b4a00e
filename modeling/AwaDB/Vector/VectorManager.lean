import AwaDB.Table.Table

/-!
# The stored vectors (`vector/raw_vector.cc`, `vector/vector_manager.cc`)

A `RawVector` appends vectors to a storage file and, when it is a `MemoryRawVector`, to segments in
memory that its readers use. With one vector a document the vector id is the document id, which
`Add` takes for granted: the vector goes to the next free position, whatever the document id.

`VectorManager::AddToStore` and `Update` go through the vector fields of a document one by one and
stop at the first that is refused; what they did before stays.
-/

namespace AwaDB

/-- `VectorStorageType`. -/
inductive VectorStorageType where
  | memoryOnly
  | mmap
deriving DecidableEq, Repr

/-- `RawVector`. `file` is its `StorageManager`, `memory` the segments of a `MemoryRawVector`, and
`updatedVids` the queue of its indexes. -/
structure RawVector where
  dimension : ℕ
  dataSize : ℕ
  storeType : VectorStorageType
  isIndex : Bool
  file : List Bytes
  memory : List Bytes
  size : ℕ
  updatedVids : List ℕ
deriving DecidableEq, Repr

namespace RawVector

/-- An empty store for vectors of `dimension` elements of `dataSize` bytes. -/
def create (dimension dataSize : ℕ) (storeType : VectorStorageType) (isIndex : Bool) :
    RawVector where
  dimension := dimension
  dataSize := dataSize
  storeType := storeType
  isIndex := isIndex
  file := []
  memory := []
  size := 0
  updatedVids := []

/-- `vector_byte_size_`. -/
def vectorByteSize (v : RawVector) : ℕ := v.dataSize * v.dimension

/-- What the store is for, and where it keeps its vectors. -/
def kind (v : RawVector) : ℕ × ℕ × VectorStorageType := (v.dimension, v.dataSize, v.storeType)

theorem vectorByteSize_of_kind {v v' : RawVector} (h : v'.kind = v.kind) :
    v'.vectorByteSize = v.vectorByteSize := by
  simp only [kind, Prod.mk.injEq] at h
  rw [vectorByteSize, vectorByteSize, h.1, h.2.1]

/-- `RawVector::Add`: `none` is the code -1. -/
def add (v : RawVector) (field : Field) : Option RawVector :=
  if field.value.length ≠ v.vectorByteSize then none
  else
    some { v with
      file := v.file ++ [field.value]
      memory := if v.storeType = .memoryOnly then v.memory ++ [field.value] else v.memory
      size := v.size + 1 }

/-- `StorageManager::Update`: `false` is `PARAM_ERR`. -/
def updateFile (v : RawVector) (vid : ℤ) (value : Bytes) : Bool × RawVector :=
  if vid < 0 ∨ (v.file.length : ℤ) ≤ vid ∨ value.length ≠ v.vectorByteSize then (false, v)
  else (true, { v with file := v.file.set vid.toNat value })

/-- The `memcpy` of `vector_byte_size_` bytes into the segment of a vector. -/
def copyToMem (v : RawVector) (vid : ℕ) (value : Bytes) : RawVector :=
  { v with memory := v.memory.set vid (value.take v.vectorByteSize) }

/-- `UpdateToStore`. A `MemoryRawVector` first copies into its segment, which is undefined for a
negative vid, and does so before the length is checked. -/
def updateToStore (v : RawVector) (vid : ℤ) (value : Bytes) : Option (Bool × RawVector) :=
  match v.storeType with
  | .mmap => some (v.updateFile vid value)
  | .memoryOnly =>
    if vid < 0 then none
    else some ((v.copyToMem vid.toNat value).updateFile vid value)

/-- `RawVector::Update`; the only error code is -1. -/
def update (v : RawVector) (docid : ℤ) (field : Field) : Option (Bool × RawVector) :=
  if (v.size : ℤ) ≤ docid then some (false, v)
  else if field.value.length / v.dataSize ≤ 0 then some (false, v)
  else v.updateToStore docid field.value

/-- `RawVector::GetVector`, from where the readers read. -/
def getVector (v : RawVector) (vid : ℕ) : Option Bytes :=
  match v.storeType with
  | .memoryOnly => v.memory[vid]?
  | .mmap => v.file[vid]?

/-- The queue of the field's indexes gets the vid. -/
def pushUpdated (v : RawVector) (vid : ℤ) : RawVector :=
  { v with updatedVids := if v.isIndex then v.updatedVids ++ [vid.toNat] else v.updatedVids }

theorem kind_add {v v' : RawVector} {field : Field} (h : v.add field = some v') :
    v'.kind = v.kind := by
  unfold add at h
  split at h
  · cases h
  · cases h
    rfl

theorem kind_update {v : RawVector} {docid : ℤ} {field : Field} {r : Bool × RawVector}
    (h : v.update docid field = some r) : r.2.kind = v.kind := by
  have hfile : ∀ w : RawVector, (w.updateFile docid field.value).2.kind = w.kind := by
    intro w
    unfold updateFile
    split <;> rfl
  unfold update updateToStore at h
  split at h
  · cases h
    rfl
  · split at h
    · cases h
      rfl
    · split at h
      · cases h
        exact hfile v
      · split at h
        · cases h
        · cases h
          exact hfile _

/-! ### Well-formed stores -/

/-- The counter counts the vectors in the file and in memory, and there are no empty vectors. -/
structure WellFormed (v : RawVector) : Prop where
  file : v.file.length = v.size
  memory : v.storeType = .memoryOnly → v.memory.length = v.size
  byteSize_pos : 0 < v.vectorByteSize

theorem WellFormed.add {v v' : RawVector} (hv : v.WellFormed) {field : Field}
    (h : v.add field = some v') : v'.WellFormed := by
  have hsize := vectorByteSize_of_kind (kind_add h)
  unfold RawVector.add at h
  split at h
  · cases h
  · cases h
    refine ⟨?_, fun hmem => ?_, hsize ▸ hv.byteSize_pos⟩
    · show (v.file ++ [field.value]).length = v.size + 1
      rw [List.length_append, hv.file]
      rfl
    · have hmem' : v.storeType = .memoryOnly := hmem
      simp [hmem', hv.memory hmem']

theorem WellFormed.updateFile {v : RawVector} (hv : v.WellFormed) (vid : ℤ) (value : Bytes) :
    (v.updateFile vid value).2.WellFormed := by
  unfold RawVector.updateFile
  split
  · exact hv
  · exact ⟨by simp [hv.file], hv.memory, hv.byteSize_pos⟩

theorem WellFormed.copyToMem {v : RawVector} (hv : v.WellFormed) (vid : ℕ) (value : Bytes) :
    (v.copyToMem vid value).WellFormed :=
  ⟨hv.file, fun hmem => (List.length_set).trans (hv.memory hmem), hv.byteSize_pos⟩

theorem WellFormed.update {v : RawVector} (hv : v.WellFormed) {docid : ℤ} {field : Field}
    {r : Bool × RawVector} (h : v.update docid field = some r) : r.2.WellFormed := by
  unfold RawVector.update RawVector.updateToStore at h
  split at h
  · cases h
    exact hv
  · split at h
    · cases h
      exact hv
    · split at h
      · cases h
        exact hv.updateFile docid field.value
      · split at h
        · cases h
        · cases h
          exact (hv.copyToMem docid.toNat field.value).updateFile docid field.value

/-- **A vector of the right size** is stored under the next vector id. -/
theorem WellFormed.add_exact {v : RawVector} (hv : v.WellFormed) {field : Field}
    (hlen : field.value.length = v.vectorByteSize) :
    ∃ v', v.add field = some v' ∧ v'.size = v.size + 1 ∧ v'.getVector v.size = some field.value ∧
      ∀ i < v.size, v'.getVector i = v.getVector i := by
  refine ⟨_, if_neg (not_not.mpr hlen), rfl, ?_, fun i hi => ?_⟩
  · cases hst : v.storeType with
    | mmap =>
      simp only [getVector]
      rw [← hv.file, List.getElem?_concat_length]
    | memoryOnly =>
      simp only [getVector, if_true]
      rw [← hv.memory hst, List.getElem?_concat_length]
  · cases hst : v.storeType with
    | mmap =>
      simp only [getVector, hst]
      rw [List.getElem?_append_left (by rw [hv.file]; exact hi)]
    | memoryOnly =>
      simp only [getVector, hst, if_true]
      rw [List.getElem?_append_left (by rw [hv.memory hst]; exact hi)]

/-- The division that the lengths of updates are checked with. -/
theorem WellFormed.div_dataSize {v : RawVector} (hv : v.WellFormed) {field : Field}
    (hlen : field.value.length = v.vectorByteSize) :
    field.value.length / v.dataSize = v.dimension ∧ 0 < v.dimension := by
  have hdata : 0 < v.dataSize := Nat.pos_of_mul_pos_right hv.byteSize_pos
  refine ⟨?_, Nat.pos_of_mul_pos_left hv.byteSize_pos⟩
  rw [hlen, vectorByteSize, Nat.mul_div_cancel_left _ hdata]

theorem update_of_le {v : RawVector} {field : Field} {d : ℕ} (hd : v.size ≤ d) :
    v.update d field = some (false, v) := by
  have hle : (v.size : ℤ) ≤ d := by omega
  rw [RawVector.update, if_pos hle]

/-- **An update with a vector of the right size** replaces a vector that is stored. -/
theorem WellFormed.update_of_lt {v : RawVector} (hv : v.WellFormed) {field : Field}
    (hlen : field.value.length = v.vectorByteSize) {d : ℕ} (hd : d < v.size) :
    ∃ v', v.update d field = some (true, v') ∧ v'.size = v.size ∧
      v'.getVector d = some field.value ∧ ∀ i, i ≠ d → v'.getVector i = v.getVector i := by
  obtain ⟨hdiv, hdim⟩ := hv.div_dataSize hlen
  have hle : ¬ (v.size : ℤ) ≤ d := by omega
  have hneg : ¬ (d : ℤ) < 0 := by omega
  have hnot : ¬ field.value.length / v.dataSize ≤ 0 := by omega
  have hok : ∀ w : RawVector, w.file.length = v.size → w.vectorByteSize = v.vectorByteSize →
      ¬ ((d : ℤ) < 0 ∨ (w.file.length : ℤ) ≤ d ∨ field.value.length ≠ w.vectorByteSize) := by
    intro w hw hsize
    rw [hw, hsize]
    omega
  have hnat : (d : ℤ).toNat = d := Int.toNat_natCast d
  rw [RawVector.update, if_neg hle, if_neg hnot, updateToStore]
  cases hst : v.storeType with
  | mmap =>
    refine ⟨_, congrArg some (if_neg (hok v hv.file rfl)), rfl, ?_, fun i hi => ?_⟩
    · simp only [getVector, hst, hnat]
      rw [List.getElem?_set_self (by rw [hv.file]; exact hd)]
    · simp only [getVector, hst, hnat]
      rw [List.getElem?_set_ne (Ne.symm hi)]
  | memoryOnly =>
    have hfull : field.value.take v.vectorByteSize = field.value := by
      rw [← hlen, List.take_length]
    refine ⟨_, (if_neg hneg).trans (congrArg some (if_neg (hok (v.copyToMem (d : ℤ).toNat
      field.value) hv.file rfl))), rfl, ?_, fun i hi => ?_⟩
    · simp only [getVector, RawVector.copyToMem, hst, hnat, hfull]
      rw [List.getElem?_set_self (by rw [hv.memory hst]; exact hd)]
    · simp only [getVector, RawVector.copyToMem, hst, hnat]
      rw [List.getElem?_set_ne (Ne.symm hi)]

end RawVector

/-- `VectorInfo`: what a table says about a vector field. `InitStore` divides by the size of a
vector, so that there are no empty ones. -/
structure VectorInfo where
  name : String
  dimension : ℕ
  dataSize : ℕ
  storeType : VectorStorageType
  isIndex : Bool
  byteSize_pos : 0 < dataSize * dimension
deriving DecidableEq, Repr

/-- `VectorManager`: the map `raw_vectors_`, by the names it has. -/
structure VectorManager where
  names : List String
  raw : String → RawVector

namespace VectorManager

/-- `VectorManager::CreateVectorTable`; a name that occurs twice is refused. -/
def create (infos : List VectorInfo) : VectorManager where
  names := infos.map VectorInfo.name
  raw := fun name =>
    match infos.find? fun info => info.name = name with
    | some info => RawVector.create info.dimension info.dataSize info.storeType info.isIndex
    | none => RawVector.create 0 0 .mmap false

/-- Replace the vectors of one field. -/
def set (m : VectorManager) (name : String) (v : RawVector) : VectorManager :=
  { m with raw := Function.update m.raw name v }

/-- `VectorManager::AddToStore`: the code, and the stores. -/
def addToStore : List Field → VectorManager → ℤ × VectorManager
  | [], m => (0, m)
  | field :: fields, m =>
    if field.name ∉ m.names then addToStore fields m
    else
      match (m.raw field.name).add field with
      | none => (-1, m)
      | some v => addToStore fields (m.set field.name v)

/-- `VectorManager::Update`: the code, and the stores. -/
def update (docid : ℤ) : List Field → VectorManager → Option (ℤ × VectorManager)
  | [], m => some (0, m)
  | field :: fields, m =>
    if field.name ∉ m.names then update docid fields m
    else
      let v := m.raw field.name
      if v.dimension ≠ field.value.length / v.dataSize then some (-1, m)
      else
        match v.update docid field with
        | none => none
        | some (false, v) => some (-1, m.set field.name v)
        | some (true, v) => update docid fields (m.set field.name (v.pushUpdated docid))

/-- `VectorManager::GetVector` of one document for every field, as `GetDoc` asks for it. -/
def getVectors (m : VectorManager) (docid : ℕ) : Option (List (String × Bytes)) :=
  m.names.mapM fun name =>
    if (m.raw name).size ≤ docid then none
    else ((m.raw name).getVector docid).map fun vec => (name, vec)

@[simp] theorem names_set (m : VectorManager) (name : String) (v : RawVector) :
    (m.set name v).names = m.names := rfl

@[simp] theorem raw_set_self (m : VectorManager) (name : String) (v : RawVector) :
    (m.set name v).raw name = v := by
  show Function.update m.raw name v name = v
  rw [Function.update_self]

theorem raw_set_of_ne (m : VectorManager) {name name' : String} (h : name' ≠ name)
    (v : RawVector) : (m.set name v).raw name' = m.raw name' := by
  show Function.update m.raw name v name' = m.raw name'
  rw [Function.update_of_ne h]

/-! ### What never changes -/

/-- The stores have the same fields, of the same kinds. -/
structure SameShape (m m' : VectorManager) : Prop where
  names : m'.names = m.names
  kind : ∀ name, (m'.raw name).kind = (m.raw name).kind

namespace SameShape

theorem refl (m : VectorManager) : SameShape m m := ⟨rfl, fun _ => rfl⟩

theorem vectorByteSize {m m' : VectorManager} (h : SameShape m m') (name : String) :
    (m'.raw name).vectorByteSize = (m.raw name).vectorByteSize :=
  RawVector.vectorByteSize_of_kind (h.kind name)

theorem symm {m m' : VectorManager} (h : SameShape m m') : SameShape m' m :=
  ⟨h.names.symm, fun name => (h.kind name).symm⟩

theorem trans {m₁ m₂ m₃ : VectorManager} (h : SameShape m₁ m₂) (h' : SameShape m₂ m₃) :
    SameShape m₁ m₃ :=
  ⟨h'.names.trans h.names, fun name => (h'.kind name).trans (h.kind name)⟩

/-- Replacing one store by one of its kind. -/
theorem set (m : VectorManager) {name : String} {v : RawVector}
    (hv : v.kind = (m.raw name).kind) : SameShape m (m.set name v) := by
  refine ⟨rfl, fun name' => ?_⟩
  by_cases h : name' = name
  · subst h
    rw [raw_set_self, hv]
  · rw [raw_set_of_ne m h]

end SameShape

theorem addToStore_sameShape (fields : List Field) (m : VectorManager) :
    SameShape m (addToStore fields m).2 := by
  induction fields generalizing m with
  | nil => exact SameShape.refl m
  | cons field fields ih =>
    rw [addToStore]
    split
    · exact ih m
    · split
      · exact SameShape.refl m
      · rename_i v hv
        exact (SameShape.set m (RawVector.kind_add hv)).trans (ih _)

theorem update_sameShape {docid : ℤ} {fields : List Field} {m : VectorManager}
    {r : ℤ × VectorManager} (h : update docid fields m = some r) : SameShape m r.2 := by
  induction fields generalizing m with
  | nil =>
    cases h
    exact SameShape.refl m
  | cons field fields ih =>
    rw [update] at h
    split at h
    · exact ih h
    · simp only at h
      split at h
      · cases h
        exact SameShape.refl m
      · split at h
        · cases h
        · rename_i v hv
          cases h
          exact SameShape.set m (RawVector.kind_update hv)
        · rename_i v hv
          have hkind : (v.pushUpdated docid).kind = (m.raw field.name).kind :=
            RawVector.kind_update hv
          exact (SameShape.set m hkind).trans (ih h)

/-! ### Documents with vectors of the right size -/

/-- Every vector that the document gives for a vector field has its size. -/
def Exact (m : VectorManager) (doc : Doc) : Prop :=
  ∀ field ∈ doc.vectorFields, field.name ∈ m.names →
    field.value.length = (m.raw field.name).vectorByteSize

theorem SameShape.exact {m m' : VectorManager} (h : SameShape m m') {doc : Doc}
    (hdoc : Exact m doc) : Exact m' doc := by
  intro field hf hname
  rw [h.names] at hname
  rw [h.vectorByteSize, hdoc field hf hname]

/-- Vectors of the right size are all stored. -/
theorem addToStore_exact {m : VectorManager} {fields : List Field}
    (h : ∀ field ∈ fields, field.name ∈ m.names →
      field.value.length = (m.raw field.name).vectorByteSize) :
    (addToStore fields m).1 = 0 := by
  induction fields generalizing m with
  | nil => rfl
  | cons field fields ih =>
    have hrest : ∀ f ∈ fields, f.name ∈ m.names →
        f.value.length = (m.raw f.name).vectorByteSize :=
      fun f hf => h f (List.mem_cons_of_mem field hf)
    rw [addToStore]
    split
    · exact ih hrest
    · rename_i hname
      have hlen := h field List.mem_cons_self (not_not.mp hname)
      have hadd : ∃ v, (m.raw field.name).add field = some v := by
        rw [RawVector.add, if_neg (not_not.mpr hlen)]
        exact ⟨_, rfl⟩
      obtain ⟨v, hv⟩ := hadd
      simp only [hv]
      have hshape := SameShape.set m (RawVector.kind_add hv)
      refine ih fun f hf hmem => ?_
      rw [hshape.vectorByteSize]
      exact hrest f hf hmem

/-! ### Updates with vectors of the right size -/

/-- All stores are well formed. -/
def WellFormed (m : VectorManager) : Prop := ∀ name ∈ m.names, (m.raw name).WellFormed

theorem WellFormed.set {m : VectorManager} (h : m.WellFormed) {name : String} {v : RawVector}
    (hv : v.WellFormed) : (m.set name v).WellFormed := by
  intro name' hname
  by_cases heq : name' = name
  · subst heq
    rw [raw_set_self]
    exact hv
  · rw [raw_set_of_ne m heq]
    exact h name' hname

/-- A name of a field is found. -/
theorem exists_found {infos : List VectorInfo} {name : String} (h : name ∈ infos.map VectorInfo.name) :
    ∃ found, (infos.find? fun info => info.name = name) = some found := by
  obtain ⟨info, hmem, hinfo⟩ := List.mem_map.mp h
  rw [← Option.isSome_iff_exists, List.find?_isSome]
  exact ⟨info, hmem, by simpa using hinfo⟩

theorem wellFormed_create (infos : List VectorInfo) : (create infos).WellFormed := by
  intro name hname
  obtain ⟨found, hfound⟩ := exists_found hname
  simp only [create, hfound]
  exact ⟨rfl, fun _ => rfl, found.byteSize_pos⟩

theorem WellFormed.addToStore {m : VectorManager} (h : m.WellFormed) (fields : List Field) :
    (addToStore fields m).2.WellFormed := by
  induction fields generalizing m with
  | nil => exact h
  | cons field fields ih =>
    rw [VectorManager.addToStore]
    split
    · exact ih h
    · rename_i hname
      split
      · exact h
      · rename_i v hv
        exact ih (h.set ((h field.name (not_not.mp hname)).add hv))

theorem WellFormed.update {docid : ℤ} {fields : List Field} {m : VectorManager}
    (h : m.WellFormed) {r : ℤ × VectorManager} (hr : update docid fields m = some r) :
    r.2.WellFormed := by
  induction fields generalizing m with
  | nil =>
    cases hr
    exact h
  | cons field fields ih =>
    rw [VectorManager.update] at hr
    split at hr
    · exact ih h hr
    · rename_i hname
      have hfield := h field.name (not_not.mp hname)
      simp only at hr
      split at hr
      · cases hr
        exact h
      · split at hr
        · cases hr
        · rename_i v hv
          cases hr
          exact h.set (hfield.update hv)
        · rename_i v hv
          have hv' : v.WellFormed := hfield.update hv
          have hpushed : (v.pushUpdated docid).WellFormed :=
            ⟨hv'.file, hv'.memory, hv'.byteSize_pos⟩
          exact ih (h.set hpushed) hr

/-- Every vector that the fields give has a stored vector to replace. -/
def Stored (m : VectorManager) (d : ℕ) (fields : List Field) : Prop :=
  ∀ field ∈ fields, field.name ∈ m.names → d < (m.raw field.name).size

theorem stored_cons {m : VectorManager} {d : ℕ} {field : Field} {fields : List Field} :
    Stored m d (field :: fields) ↔
      (field.name ∈ m.names → d < (m.raw field.name).size) ∧ Stored m d fields :=
  List.forall_mem_cons

/-- **An update with vectors of the right size** is accepted exactly when they are all stored. -/
theorem WellFormed.update_exact {m : VectorManager} (h : m.WellFormed) {d : ℕ}
    {fields : List Field}
    (hexact : ∀ field ∈ fields, field.name ∈ m.names →
      field.value.length = (m.raw field.name).vectorByteSize) {r : ℤ × VectorManager}
    (hr : VectorManager.update d fields m = some r) : r.1 = 0 ↔ Stored m d fields := by
  induction fields generalizing m with
  | nil =>
    cases hr
    exact ⟨fun _ _ hmem => (nomatch hmem), fun _ => rfl⟩
  | cons field fields ih =>
    have hrest : ∀ f ∈ fields, f.name ∈ m.names →
        f.value.length = (m.raw f.name).vectorByteSize :=
      fun f hf => hexact f (List.mem_cons_of_mem field hf)
    rw [stored_cons]
    rw [VectorManager.update] at hr
    by_cases hname : field.name ∈ m.names
    · have hwf := h field.name hname
      have hlen := hexact field List.mem_cons_self hname
      obtain ⟨hdim, -⟩ := hwf.div_dataSize hlen
      simp only [hname, not_true_eq_false, if_false, ne_eq, hdim, true_implies] at hr ⊢
      by_cases hd : d < (m.raw field.name).size
      · obtain ⟨v, hv, hsize, -, -⟩ := hwf.update_of_lt hlen hd
        have hkind : (v.pushUpdated d).kind = (m.raw field.name).kind := RawVector.kind_update hv
        have hshape : SameShape m (m.set field.name (v.pushUpdated d)) := SameShape.set m hkind
        have hv' : v.WellFormed := hwf.update hv
        have hset : (m.set field.name (v.pushUpdated d)).WellFormed :=
          h.set ⟨hv'.file, hv'.memory, hv'.byteSize_pos⟩
        have hsizes : ∀ name, ((m.set field.name (v.pushUpdated d)).raw name).size =
            (m.raw name).size := by
          intro name
          by_cases heq : name = field.name
          · rw [heq, raw_set_self]
            exact hsize
          · rw [raw_set_of_ne m heq]
        have hstored : Stored (m.set field.name (v.pushUpdated d)) d fields ↔ Stored m d fields := by
          simp only [Stored, hsizes, names_set]
        have hexact' : ∀ f ∈ fields, f.name ∈ (m.set field.name (v.pushUpdated d)).names →
            f.value.length = ((m.set field.name (v.pushUpdated d)).raw f.name).vectorByteSize := by
          intro f hf hmem
          rw [hshape.vectorByteSize]
          exact hrest f hf hmem
        rw [hv] at hr
        rw [ih hset hexact' hr, hstored]
        exact ⟨fun hs => ⟨hd, hs⟩, fun hs => hs.2⟩
      · rw [RawVector.update_of_le (Nat.le_of_not_lt hd)] at hr
        cases hr
        have hcode : ¬ (-1 : ℤ) = 0 := by decide
        exact ⟨fun hzero => absurd hzero hcode, fun hs => absurd hs.1 hd⟩
    · rw [if_pos hname] at hr
      rw [ih h hrest hr]
      exact ⟨fun hs => ⟨fun hmem => absurd hmem hname, hs⟩, fun hs => hs.2⟩

/-! ### All the vectors of a document -/

/-- **One vector for each of some fields**, all of the right size, goes to the end of its store. -/
theorem WellFormed.addToStore_all {m : VectorManager} (h : m.WellFormed) {fields : List Field}
    (hnodup : (fields.map Field.name).Nodup)
    (hexact : ∀ f ∈ fields, f.name ∈ m.names ∧
      f.value.length = (m.raw f.name).vectorByteSize) :
    ∃ m', VectorManager.addToStore fields m = (0, m') ∧
      (∀ f ∈ fields, (m'.raw f.name).size = (m.raw f.name).size + 1 ∧
        (m'.raw f.name).getVector (m.raw f.name).size = some f.value ∧
          ∀ i < (m.raw f.name).size, (m'.raw f.name).getVector i = (m.raw f.name).getVector i) ∧
      ∀ name, name ∉ fields.map Field.name → m'.raw name = m.raw name := by
  induction fields generalizing m with
  | nil => exact ⟨m, rfl, by simp, fun _ _ => rfl⟩
  | cons f fields ih =>
    obtain ⟨hmem, hlen⟩ := hexact f List.mem_cons_self
    rw [List.map_cons, List.nodup_cons] at hnodup
    obtain ⟨v, hv, hsize, hnew, hold⟩ := (h f.name hmem).add_exact hlen
    have hshape : SameShape m (m.set f.name v) := SameShape.set m (RawVector.kind_add hv)
    have hne : ∀ g ∈ fields, g.name ≠ f.name := fun g hg heq =>
      hnodup.1 (heq ▸ List.mem_map_of_mem hg)
    obtain ⟨m', hm', hall, hother⟩ := ih (h.set ((h f.name hmem).add hv)) hnodup.2 fun g hg => by
      rw [hshape.names, hshape.vectorByteSize]
      exact hexact g (List.mem_cons_of_mem f hg)
    refine ⟨m', ?_, fun g hg => ?_, fun name hname => ?_⟩
    · rw [VectorManager.addToStore, if_neg (not_not.mpr hmem), hv]
      exact hm'
    · cases List.mem_cons.mp hg with
      | inl heq =>
        rw [heq, hother f.name hnodup.1, raw_set_self]
        exact ⟨hsize, hnew, hold⟩
      | inr hg =>
        have hg' := hall g hg
        rwa [raw_set_of_ne m (hne g hg)] at hg'
    · rw [List.map_cons, List.mem_cons, not_or] at hname
      rw [hother name hname.2, raw_set_of_ne m hname.1]

/-- **An update of the vectors of some fields**, all stored and of the right size, replaces them and
no others. -/
theorem WellFormed.update_all {m : VectorManager} (h : m.WellFormed) {d : ℕ} {fields : List Field}
    (hnodup : (fields.map Field.name).Nodup)
    (hexact : ∀ f ∈ fields, f.name ∈ m.names →
      f.value.length = (m.raw f.name).vectorByteSize) (hstored : Stored m d fields) :
    ∃ m', VectorManager.update d fields m = some (0, m') ∧
      (∀ f ∈ fields, f.name ∈ m.names → (m'.raw f.name).getVector d = some f.value) ∧
      (∀ name, (m'.raw name).size = (m.raw name).size ∧
        ∀ i, i ≠ d → (m'.raw name).getVector i = (m.raw name).getVector i) ∧
      ∀ name, name ∉ fields.map Field.name → m'.raw name = m.raw name := by
  induction fields generalizing m with
  | nil => exact ⟨m, rfl, by simp, fun _ => ⟨rfl, fun _ _ => rfl⟩, fun _ _ => rfl⟩
  | cons f fields ih =>
    rw [List.map_cons, List.nodup_cons] at hnodup
    obtain ⟨hd, hstored⟩ := stored_cons.mp hstored
    by_cases hmem : f.name ∈ m.names
    · have hlen := hexact f List.mem_cons_self hmem
      obtain ⟨v, hv, hsize, hnew, hold⟩ := (h f.name hmem).update_of_lt hlen (hd hmem)
      obtain ⟨hdim, -⟩ := (h f.name hmem).div_dataSize hlen
      have hkind : (v.pushUpdated d).kind = (m.raw f.name).kind := RawVector.kind_update hv
      have hshape : SameShape m (m.set f.name (v.pushUpdated d)) := SameShape.set m hkind
      have hv' : v.WellFormed := (h f.name hmem).update hv
      have hset : (m.set f.name (v.pushUpdated d)).WellFormed :=
        h.set ⟨hv'.file, hv'.memory, hv'.byteSize_pos⟩
      have hsame : ∀ name, ((m.set f.name (v.pushUpdated d)).raw name).size = (m.raw name).size ∧
          ∀ i, i ≠ d → ((m.set f.name (v.pushUpdated d)).raw name).getVector i =
            (m.raw name).getVector i := by
        intro name
        by_cases heq : name = f.name
        · rw [heq, raw_set_self]
          exact ⟨hsize, hold⟩
        · rw [raw_set_of_ne m heq]
          exact ⟨rfl, fun _ _ => rfl⟩
      have hstored' : Stored (m.set f.name (v.pushUpdated d)) d fields := by
        intro g hg hname
        rw [(hsame g.name).1]
        exact hstored g hg hname
      obtain ⟨m', hm', hall, hkeep, hother⟩ := ih hset hnodup.2 (fun g hg hname => by
        rw [hshape.vectorByteSize]
        exact hexact g (List.mem_cons_of_mem f hg) hname) hstored'
      refine ⟨m', ?_, fun g hg hname => ?_, fun name => ?_, fun name hname => ?_⟩
      · rw [VectorManager.update, if_neg (not_not.mpr hmem)]
        simp only [hdim, ne_eq, not_true_eq_false, if_false, hv]
        exact hm'
      · cases List.mem_cons.mp hg with
        | inl heq =>
          rw [heq, hother f.name hnodup.1, raw_set_self]
          exact hnew
        | inr hg => exact hall g hg hname
      · obtain ⟨hsize', hvec'⟩ := hkeep name
        exact ⟨hsize'.trans (hsame name).1, fun i hi =>
          (hvec' i hi).trans ((hsame name).2 i hi)⟩
      · rw [List.map_cons, List.mem_cons, not_or] at hname
        rw [hother name hname.2, raw_set_of_ne m hname.1]
    · obtain ⟨m', hm', hall, hkeep, hother⟩ := ih h hnodup.2
        (fun g hg => hexact g (List.mem_cons_of_mem f hg)) hstored
      refine ⟨m', ?_, fun g hg hname => ?_, hkeep, fun name hname => ?_⟩
      · rw [VectorManager.update, if_pos hmem, hm']
      · cases List.mem_cons.mp hg with
        | inl heq => exact absurd (heq ▸ hname) hmem
        | inr hg => exact hall g hg hname
      · rw [List.map_cons, List.mem_cons, not_or] at hname
        exact hother name hname.2

end VectorManager

end AwaDB
