import AwaDB.Engine.Restart

/-!
# Vectors that can be read

A store counts its vectors in `size` and reads them from its file or its segments. After a restart a
`MemoryRawVector` has more in its file than in its segments, so that it is not well formed any more;
its readers still find what it counts.

* `Readable m k`: every field has the vectors of `k` documents;
* `OneEach`: a document gives each field one vector of the right size, and its fields are readable
  with one more document;
* `readable_load`: so they are after a restart.
-/

namespace AwaDB

namespace RawVector

/-- Where the readers look. -/
def kept (v : RawVector) : List Bytes :=
  match v.storeType with
  | .memoryOnly => v.memory
  | .mmap => v.file

theorem getVector_eq (v : RawVector) (vid : ℕ) : v.getVector vid = v.kept[vid]? := by
  rw [getVector, kept]
  cases v.storeType <;> rfl

/-- The store counts the vectors that its readers find. -/
structure Readable (v : RawVector) (k : ℕ) : Prop where
  size : v.size = k
  kept : v.kept.length = k

theorem Readable.add {v v' : RawVector} {k : ℕ} (h : v.Readable k) {field : Field}
    (hv : v.add field = some v') : v'.Readable (k + 1) := by
  rw [RawVector.add] at hv
  split at hv
  · cases hv
  · cases hv
    refine ⟨congrArg (· + 1) h.size, ?_⟩
    have hlen := h.kept
    cases hst : v.storeType with
    | memoryOnly => simpa [RawVector.kept, hst] using hlen
    | mmap => simpa [RawVector.kept, hst] using hlen

/-- What is kept has the length of the memory or of the file. -/
theorem length_kept_congr {v v' : RawVector} (htype : v'.storeType = v.storeType)
    (hmemory : v'.memory.length = v.memory.length) (hfile : v'.file.length = v.file.length) :
    v'.kept.length = v.kept.length := by
  rw [RawVector.kept, RawVector.kept, htype]
  cases v.storeType with
  | memoryOnly => exact hmemory
  | mmap => exact hfile

theorem Readable.updateFile {v : RawVector} {k : ℕ} (h : v.Readable k) (vid : ℤ) (value : Bytes) :
    (v.updateFile vid value).2.Readable k := by
  rw [RawVector.updateFile]
  split
  · exact h
  · let v' : RawVector := { v with file := v.file.set vid.toNat value }
    have hkept : v'.kept.length = v.kept.length := length_kept_congr rfl rfl List.length_set
    exact ⟨h.size, hkept.trans h.kept⟩

theorem Readable.copyToMem {v : RawVector} {k : ℕ} (h : v.Readable k) (vid : ℕ) (value : Bytes) :
    (v.copyToMem vid value).Readable k := by
  have hkept : (v.copyToMem vid value).kept.length = v.kept.length :=
    length_kept_congr rfl List.length_set rfl
  exact ⟨h.size, hkept.trans h.kept⟩

theorem Readable.update {v : RawVector} {k : ℕ} (h : v.Readable k) {docid : ℤ} {field : Field}
    {r : Bool × RawVector} (hr : v.update docid field = some r) : r.2.Readable k := by
  unfold RawVector.update RawVector.updateToStore at hr
  split at hr
  · cases hr
    exact h
  · split at hr
    · cases hr
      exact h
    · split at hr
      · cases hr
        exact h.updateFile docid field.value
      · split at hr
        · cases hr
        · cases hr
          exact (h.copyToMem docid.toNat field.value).updateFile docid field.value

/-- The store of a new process, cut to vectors that the file has. -/
theorem readable_load (v : RawVector) {k : ℕ} (hk : k ≤ v.file.length) :
    (v.reopen.load k).Readable k := by
  have hcut : ({ v.reopen with file := v.file.take k, size := k } : RawVector).storeType =
      v.storeType := rfl
  show (if v.storeType = .memoryOnly then
    (v.file.take k).foldl addToStore { v.reopen with file := v.file.take k, size := k }
      else { v.reopen with file := v.file.take k, size := k }).Readable k
  cases hst : v.storeType with
  | memoryOnly =>
    rw [if_pos rfl, foldl_addToStore _ (hcut.trans hst)]
    exact ⟨rfl, by simpa [RawVector.kept, reopen, hst] using hk⟩
  | mmap =>
    rw [if_neg (by decide)]
    exact ⟨rfl, by simpa [RawVector.kept, reopen, hst] using hk⟩

theorem kind_load (v : RawVector) (k : ℕ) : (v.reopen.load k).kind = v.kind := by
  have hfoldl : ∀ (values : List Bytes) (w : RawVector), (values.foldl addToStore w).kind = w.kind := by
    intro values
    induction values with
    | nil => exact fun _ => rfl
    | cons value values ih => exact fun w => ih (w.addToStore value)
  rw [RawVector.load]
  dsimp only
  split
  · exact hfoldl _ _
  · rfl

end RawVector

namespace VectorManager

/-- Every field has the vectors of `k` documents. -/
def Readable (m : VectorManager) (k : ℕ) : Prop := ∀ name ∈ m.names, (m.raw name).Readable k

theorem Readable.set {m : VectorManager} {k : ℕ} (h : m.Readable k) {name : String}
    {v : RawVector} (hv : v.Readable k) : (m.set name v).Readable k := by
  intro name' hname
  by_cases heq : name' = name
  · subst heq
    rw [raw_set_self]
    exact hv
  · rw [raw_set_of_ne m heq]
    exact h name' hname

theorem Readable.update {docid : ℤ} {fields : List Field} {m : VectorManager} {k : ℕ}
    (h : m.Readable k) {r : ℤ × VectorManager} (hr : update docid fields m = some r) :
    r.2.Readable k := by
  induction fields generalizing m with
  | nil =>
    cases hr
    exact h
  | cons field fields ih =>
    rw [VectorManager.update] at hr
    split at hr
    · exact ih h hr
    · rename_i hname
      have hfield := h field.name (not_not.mp hname)
      simp only at hr
      split at hr
      · cases hr
        exact h
      · split at hr
        · cases hr
        · rename_i v hv
          cases hr
          exact h.set (hfield.update hv)
        · rename_i v hv
          have hv' : v.Readable k := hfield.update hv
          have hpushed : (v.pushUpdated docid).Readable k := ⟨hv'.size, hv'.kept⟩
          exact ih (h.set hpushed) hr

/-- The document gives each vector field one vector, of the right size. -/
structure OneEach (m : VectorManager) (doc : Doc) : Prop where
  exact : Exact m doc
  once : ∀ name ∈ m.names, doc.vectorFields.countP (fun f => f.name = name) = 1

theorem SameShape.oneEach {m m' : VectorManager} (h : SameShape m m') {doc : Doc}
    (hdoc : OneEach m doc) : OneEach m' doc where
  exact := h.exact hdoc.exact
  once := fun name hname => hdoc.once name (h.names ▸ hname)

/-- Each field gets as many vectors as the list gives it. -/
theorem readable_addToStore {m : VectorManager} {fields : List Field} {k : String → ℕ}
    (h : ∀ name ∈ m.names, (m.raw name).Readable (k name))
    (hexact : ∀ f ∈ fields, f.name ∈ m.names →
      f.value.length = (m.raw f.name).vectorByteSize) :
    ∀ name ∈ m.names, ((addToStore fields m).2.raw name).Readable
      (k name + fields.countP fun f => f.name = name) := by
  induction fields generalizing m k with
  | nil => exact h
  | cons f fields ih =>
    have hrest : ∀ g ∈ fields, g.name ∈ m.names →
        g.value.length = (m.raw g.name).vectorByteSize :=
      fun g hg => hexact g (List.mem_cons_of_mem f hg)
    intro name hname
    rw [addToStore]
    by_cases hf : f.name ∈ m.names
    · have hlen := hexact f List.mem_cons_self hf
      have hadd : ∃ v, (m.raw f.name).add f = some v := by
        rw [RawVector.add, if_neg (not_not.mpr hlen)]
        exact ⟨_, rfl⟩
      obtain ⟨v, hv⟩ := hadd
      have hshape := SameShape.set m (RawVector.kind_add hv)
      rw [if_neg (not_not.mpr hf), hv]
      dsimp only
      have hstep : ∀ name' ∈ (m.set f.name v).names, ((m.set f.name v).raw name').Readable
          (k name' + if f.name = name' then 1 else 0) := by
        intro name' hname'
        by_cases heq : f.name = name'
        · rw [if_pos heq, ← heq, raw_set_self]
          exact (h f.name hf).add hv
        · rw [if_neg heq, raw_set_of_ne m (Ne.symm heq)]
          exact h name' hname'
      have hfinal := ih hstep (fun g hg hmem => by
        rw [hshape.vectorByteSize]
        exact hrest g hg hmem) name hname
      rw [List.countP_cons]
      simp only [decide_eq_true_eq]
      have harith : k name + (fields.countP (fun f => f.name = name) +
          if f.name = name then 1 else 0) =
          k name + (if f.name = name then 1 else 0) + fields.countP fun f => f.name = name := by
        omega
      rw [harith]
      exact hfinal
    · rw [if_pos hf]
      have hne : ¬ f.name = name := fun heq => hf (heq ▸ hname)
      rw [List.countP_cons]
      simp only [decide_eq_true_eq, if_neg hne, Nat.add_zero]
      exact ih h hrest name hname

theorem OneEach.readable {m : VectorManager} {k : ℕ} {doc : Doc} (hdoc : OneEach m doc)
    (h : m.Readable k) : (addToStore doc.vectorFields m).2.Readable (k + 1) := by
  intro name hname
  rw [(addToStore_sameShape doc.vectorFields m).names] at hname
  rw [← hdoc.once name hname]
  exact readable_addToStore (k := fun _ => k) h hdoc.exact name hname

/-- The vectors of a document that was added can be read. -/
theorem Readable.getVectors {m : VectorManager} {k d : ℕ} (h : m.Readable k) (hd : d < k) :
    (m.getVectors d).isSome := by
  have hall : ∀ names : List String, (∀ name ∈ names, name ∈ m.names) →
      (names.mapM fun name =>
        if (m.raw name).size ≤ d then none
        else ((m.raw name).getVector d).map fun vec => (name, vec)).isSome := by
    intro names hnames
    induction names with
    | nil => rfl
    | cons name names ih =>
      have hread := h name (hnames name List.mem_cons_self)
      obtain ⟨rest, hrest⟩ := Option.isSome_iff_exists.mp
        (ih fun name' hmem => hnames name' (List.mem_cons_of_mem name hmem))
      have hlt : ¬ (m.raw name).size ≤ d := by
        rw [hread.size]
        omega
      have hlen : d < (m.raw name).kept.length := by
        rw [hread.kept]
        exact hd
      rw [List.mapM_cons, if_neg hlt, RawVector.getVector_eq, List.getElem?_eq_getElem hlen, hrest]
      rfl
  exact hall m.names fun _ h => h

/-- `Load` keeps no more than any file has. -/
theorem diskVecNum_le (m : VectorManager) (docNum : ℕ) :
    m.diskVecNum docNum ≤ docNum ∧ ∀ name ∈ m.names, m.diskVecNum docNum ≤ (m.raw name).file.length := by
  have hall : ∀ (names : List String) (n : ℕ),
      names.foldl (fun n name => min n (m.raw name).file.length) n ≤ n ∧
        ∀ name ∈ names, names.foldl (fun n name => min n (m.raw name).file.length) n ≤
          (m.raw name).file.length := by
    intro names
    induction names with
    | nil => exact fun n => ⟨Nat.le_refl n, fun _ h => nomatch h⟩
    | cons name names ih =>
      intro n
      obtain ⟨hle, hnames⟩ := ih (min n (m.raw name).file.length)
      refine ⟨Nat.le_trans hle (Nat.min_le_left _ _), fun name' hmem => ?_⟩
      cases List.mem_cons.mp hmem with
      | inl heq =>
        rw [heq]
        exact Nat.le_trans hle (Nat.min_le_right _ _)
      | inr hmem => exact hnames name' hmem
  exact hall m.names docNum

theorem readable_load (m : VectorManager) {k : ℕ}
    (hk : ∀ name ∈ m.names, k ≤ (m.raw name).file.length) : (m.load k).Readable k := by
  intro name hname
  show (if name ∈ m.names then (m.raw name).reopen.load k else m.raw name).Readable k
  have hmem : name ∈ m.names := hname
  rw [if_pos hmem]
  exact (m.raw name).readable_load (hk name hmem)

theorem load_sameShape (m : VectorManager) (k : ℕ) : SameShape m (m.load k) := by
  refine ⟨rfl, fun name => ?_⟩
  show RawVector.kind (if name ∈ m.names then (m.raw name).reopen.load k else m.raw name) = _
  split
  · exact (m.raw name).kind_load k
  · rfl

end VectorManager

end AwaDB
