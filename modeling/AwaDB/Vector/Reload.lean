import AwaDB.Lib.Run
import AwaDB.Vector.VectorManager

/-!
# Reloading the stored vectors (`io/mmap_raw_vector_io.cc`)

`RawVectorFactory` gives both kinds of stores the same loader. `MmapRawVectorIO::Load` cuts the
file to the vectors that are to be kept and, for a `MemoryRawVector`, passes each of them to
`AddToStore`, which fills the segments but appends to the file as well.

* `Faithful` says that the store holds the vectors it was given, in order, in its file and in its
  segments;
* `faithful_always_iff`: a store is faithful throughout its adds, dumps and restarts exactly when
  it is an mmap store, or each restart keeps no vector.
-/

namespace AwaDB.RawVector

/-- `AddToStore`: a `MemoryRawVector` writes the file and its segments. -/
def addToStore (v : RawVector) (value : Bytes) : RawVector :=
  { v with
    file := v.file ++ [value]
    memory := if v.storeType = .memoryOnly then v.memory ++ [value] else v.memory }

theorem add_eq_addToStore (v : RawVector) (field : Field) :
    v.add field =
      if field.value.length ≠ v.vectorByteSize then none
      else some { v.addToStore field.value with size := v.size + 1 } := rfl

/-- The store of a new process over the same file. -/
def reopen (v : RawVector) : RawVector :=
  { v with memory := [], size := 0, updatedVids := [] }

/-- `MmapRawVectorIO::Load`. The headers are copied out of the file before anything is added. -/
def load (v : RawVector) (vecNum : ℕ) : RawVector :=
  let v := { v with file := v.file.take vecNum, size := vecNum }
  if v.storeType = .memoryOnly then v.file.foldl addToStore v else v

/-- What happens to a store. -/
inductive StoreOp where
  | add (field : Field)
  | dump
  | restart (vecNum : ℕ)
deriving DecidableEq, Repr

/-- A store, and the vectors that its vids were given. -/
structure Given where
  store : RawVector
  vectors : List Bytes
deriving DecidableEq, Repr

/-- One step. A vector of the wrong length is refused, and a dump syncs the file. A restart keeps
`vecNum` of the vectors that the store was given. -/
def stepStore : StoreOp → Given → Option Given
  | .add field, g =>
    match g.store.add field with
    | none => some g
    | some v => some ⟨v, g.vectors ++ [field.value]⟩
  | .dump, g => some g
  | .restart vecNum, g =>
    if vecNum ≤ g.vectors.length then
      some ⟨g.store.reopen.load vecNum, g.vectors.take vecNum⟩
    else none

/-- The file and the segments hold the vectors that were given, and each vid reads its own. -/
structure Faithful (g : Given) : Prop where
  file : g.store.file = g.vectors
  memory : g.store.storeType = .memoryOnly → g.store.memory = g.vectors
  size : g.store.size = g.vectors.length
  reads : ∀ vid, g.store.getVector vid = g.vectors[vid]?

/-- A restart that keeps vectors is one of an mmap store. -/
def KeepsOnlyMapped : StoreOp → Given → Prop
  | .restart vecNum, g => g.store.storeType = .mmap ∨ vecNum = 0
  | _, _ => True

/-- Refilling a memory store appends to its file and to its segments. -/
theorem foldl_addToStore (values : List Bytes) {v : RawVector} (hv : v.storeType = .memoryOnly) :
    values.foldl addToStore v =
      { v with file := v.file ++ values, memory := v.memory ++ values } := by
  induction values generalizing v with
  | nil => simp
  | cons value values ih =>
    rw [List.foldl_cons, ih (v := v.addToStore value) hv]
    simp [addToStore, hv]

/-- The reads follow from the contents. -/
theorem faithful_of {g : Given} (hfile : g.store.file = g.vectors)
    (hmemory : g.store.storeType = .memoryOnly → g.store.memory = g.vectors)
    (hsize : g.store.size = g.vectors.length) : Faithful g where
  file := hfile
  memory := hmemory
  size := hsize
  reads := by
    intro vid
    cases hst : g.store.storeType with
    | mmap =>
      simp only [getVector, hst]
      rw [hfile]
    | memoryOnly =>
      simp only [getVector, hst]
      rw [hmemory hst]

theorem Faithful.add {g : Given} (h : Faithful g) {field : Field} {v : RawVector}
    (hv : g.store.add field = some v) : Faithful ⟨v, g.vectors ++ [field.value]⟩ := by
  rw [add_eq_addToStore] at hv
  split at hv
  · cases hv
  · cases hv
    refine faithful_of ?_ (fun hmem => ?_) ?_
    · show g.store.file ++ [field.value] = _
      rw [h.file]
    · have hst : g.store.storeType = .memoryOnly := hmem
      show (if g.store.storeType = .memoryOnly then g.store.memory ++ [field.value]
        else g.store.memory) = _
      rw [if_pos hst, h.memory hst]
    · show g.store.size + 1 = (g.vectors ++ [field.value]).length
      rw [h.size, List.length_append, List.length_singleton]

/-- **One restart.** A faithful store is faithful again exactly when it is an mmap store or keeps
nothing. -/
theorem Faithful.load_iff {g : Given} (h : Faithful g) {vecNum : ℕ}
    (hn : vecNum ≤ g.vectors.length) :
    Faithful ⟨g.store.reopen.load vecNum, g.vectors.take vecNum⟩ ↔
      g.store.storeType = .mmap ∨ vecNum = 0 := by
  have hlen : (g.vectors.take vecNum).length = vecNum := by
    rw [List.length_take, Nat.min_eq_left hn]
  cases hst : g.store.storeType with
  | mmap =>
    have hload : g.store.reopen.load vecNum =
        { g.store.reopen with file := g.store.file.take vecNum, size := vecNum } :=
      if_neg (by show ¬ g.store.storeType = .memoryOnly; rw [hst]; decide)
    refine iff_of_true ?_ (.inl rfl)
    rw [hload]
    refine faithful_of ?_ (fun hmem => ?_) ?_
    · show g.store.file.take vecNum = _
      rw [h.file]
    · have hmem' : g.store.storeType = .memoryOnly := hmem
      rw [hst] at hmem'
      cases hmem'
    · exact hlen.symm
  | memoryOnly =>
    have hload : g.store.reopen.load vecNum =
        { g.store.reopen with
          file := g.vectors.take vecNum ++ g.vectors.take vecNum
          memory := g.vectors.take vecNum
          size := vecNum } := by
      show (if g.store.storeType = .memoryOnly then _ else _) = _
      have hcut : ({ g.store.reopen with
          file := g.store.file.take vecNum
          size := vecNum } : RawVector).storeType = .memoryOnly := hst
      rw [if_pos hst]
      refine (foldl_addToStore _ hcut).trans ?_
      simp [reopen, h.file]
    rw [hload]
    constructor
    · intro hf
      have hfile : g.vectors.take vecNum ++ g.vectors.take vecNum = g.vectors.take vecNum := hf.file
      have hzero := congrArg List.length hfile
      rw [List.length_append, hlen] at hzero
      exact .inr (by omega)
    · intro hzero
      have hvec : vecNum = 0 := hzero.resolve_left (by decide)
      subst hvec
      exact faithful_of rfl (fun _ => rfl) rfl

/-- A step keeps a store faithful exactly when it is no restart of a memory store with vectors. -/
theorem Faithful.step_iff {op : StoreOp} {g g' : Given} (h : Faithful g)
    (hstep : stepStore op g = some g') : Faithful g' ↔ KeepsOnlyMapped op g := by
  cases op with
  | add field =>
    refine iff_of_true ?_ trivial
    simp only [stepStore] at hstep
    split at hstep
    · cases hstep
      exact h
    · rename_i v hv
      cases hstep
      exact h.add hv
  | dump =>
    cases hstep
    exact iff_of_true h trivial
  | restart vecNum =>
    simp only [stepStore] at hstep
    split at hstep
    · rename_i hn
      cases hstep
      exact h.load_iff hn
    · cases hstep

/-- An empty store is faithful. -/
theorem faithful_create (info : VectorInfo) :
    Faithful ⟨RawVector.create info.dimension info.dataSize info.storeType info.isIndex, []⟩ :=
  faithful_of rfl (fun _ => rfl) rfl

/-- **Reloading vectors.** Throughout any sequence of adds, dumps and restarts the file, the
segments and the count of a store are those of the vectors it was given, exactly when every restart
is one of an mmap store or keeps no vector. -/
theorem faithful_always_iff (info : VectorInfo) (ops : List StoreOp) :
    Lib.Always stepStore Faithful ops
        ⟨RawVector.create info.dimension info.dataSize info.storeType info.isIndex, []⟩ ↔
      Lib.EachStep stepStore KeepsOnlyMapped ops
        ⟨RawVector.create info.dimension info.dataSize info.storeType info.isIndex, []⟩ :=
  Lib.always_iff_guard (A := fun _ => True) (fun _ _ _ _ _ => trivial)
    (fun _ _ _ _ hf hstep => hf.step_iff hstep) trivial (faithful_create info)

/-- **A memory store doubles its file.** One vector, a restart, another vector, a restart: vid 1
reads the first vector. -/
theorem reload_doubles_file :
    ¬ Lib.Always stepStore Faithful
        [.add ⟨"v", [1], .vector⟩, .dump, .restart 1, .add ⟨"v", [2], .vector⟩, .dump, .restart 2]
        ⟨RawVector.create 1 1 .memoryOnly true, []⟩ ∧
      (Lib.runOps stepStore
        [.add ⟨"v", [1], .vector⟩, .dump, .restart 1, .add ⟨"v", [2], .vector⟩, .dump, .restart 2]
        ⟨RawVector.create 1 1 .memoryOnly true, []⟩).map
          (fun g => (g.store.getVector 1, g.vectors[1]?)) = some (some [1], some [2]) := by
  have hrun : (Lib.runOps stepStore
      [.add ⟨"v", [1], .vector⟩, .dump, .restart 1, .add ⟨"v", [2], .vector⟩, .dump, .restart 2]
      ⟨RawVector.create 1 1 .memoryOnly true, []⟩).map
        (fun g => (g.store.getVector 1, g.vectors[1]?)) = some (some [1], some [2]) := by decide
  refine ⟨fun halways => ?_, hrun⟩
  obtain ⟨g, hg, hfacts⟩ := Option.map_eq_some_iff.mp hrun
  simp only [Prod.mk.injEq] at hfacts
  have hreads := (halways.last hg).reads 1
  rw [hfacts.1, hfacts.2] at hreads
  cases hreads

end AwaDB.RawVector
