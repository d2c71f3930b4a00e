import AwaDB.Engine.DocsNum
import AwaDB.Engine.Recorded

/-!
# The key map

A document has a key in its row, a bit in the bitmap, and an entry in `item_to_docid_`.

* `keysAgree_always`: while `DelDocByQuery` finds nothing that is not deleted, a key is mapped to
  exactly the document that has it and is not deleted, and `GetDoc` returns the document on record;
* `load_keeps_keys_iff`: a load after such a run, whatever `DelDocByQuery` finds, restores the map
  exactly when no key leads to a deleted document.
-/

namespace AwaDB.GammaEngine

open Table VectorManager Schema

/-! ### Reading a document -/

/-- What `GetDoc` returns holds what the document gives; an empty string is left out. -/
structure Shows (e : GammaEngine) (doc : Doc) (r : Table.DocInfo × List (String × Bytes)) : Prop where
  fields : ∀ f ∈ doc.tableFields, e.table.schema.cellOf f ≠ .str (some []) →
    ∃ p ∈ r.1.fields, p.1.name = f.name ∧ p.2 = e.table.schema.cellOf f
  nothing_else : ∀ p ∈ r.1.fields, ∀ f ∈ doc.tableFields, p.1.name = f.name →
    p.2 = e.table.schema.cellOf f
  vectors : ∀ f ∈ doc.vectorFields, f.name ∈ e.vecManager.names → (f.name, f.value) ∈ r.2

/-- A vector that is counted can be read. -/
theorem getVector_of_lt {v : RawVector} (hv : v.WellFormed) {d : ℕ} (hd : d < v.size) :
    ∃ vec, v.getVector d = some vec := by
  unfold RawVector.getVector
  cases hst : v.storeType with
  | memoryOnly => exact ⟨_, List.getElem?_eq_getElem (by rw [hv.memory hst]; exact hd)⟩
  | mmap => exact ⟨_, List.getElem?_eq_getElem (by rw [hv.file]; exact hd)⟩

theorem getVectors_of_lt {m : VectorManager} (hm : m.WellFormed) {d : ℕ}
    (hd : ∀ name ∈ m.names, d < (m.raw name).size) : ∃ vecs, m.getVectors d = some vecs ∧
      ∀ name ∈ m.names, ∀ vec, (m.raw name).getVector d = some vec → (name, vec) ∈ vecs := by
  unfold getVectors
  have hall : ∀ names : List String, (∀ name ∈ names, name ∈ m.names) →
      ∃ vecs, (names.mapM fun name => if (m.raw name).size ≤ d then none
        else ((m.raw name).getVector d).map fun vec => (name, vec)) = some vecs ∧
        ∀ name ∈ names, ∀ vec, (m.raw name).getVector d = some vec → (name, vec) ∈ vecs := by
    intro names
    induction names with
    | nil => exact fun _ => ⟨[], rfl, by simp⟩
    | cons name names ih =>
      intro hnames
      have hname := hnames name List.mem_cons_self
      obtain ⟨vecs, hvecs, hmem⟩ := ih fun n hn => hnames n (List.mem_cons_of_mem name hn)
      obtain ⟨vec, hvec⟩ := getVector_of_lt (hm name hname) (hd name hname)
      have hsize : ¬ (m.raw name).size ≤ d := Nat.not_le.mpr (hd name hname)
      refine ⟨(name, vec) :: vecs, by simp [hsize, hvec, hvecs], fun n hn v hv => ?_⟩
      cases List.mem_cons.mp hn with
      | inl heq =>
        rw [heq, hvec] at hv
        rw [heq, ← Option.some.inj hv]
        exact List.mem_cons_self
      | inr hn => exact List.mem_cons_of_mem _ (hmem n hn v hv)
  exact hall m.names fun _ h => h

section Read

variable {keyId : Bytes → ℤ} {K : Set Bytes} {schema : Schema} {infos : List VectorInfo}
  {e : GammaEngine} {accepted : Bytes → Option Doc}

/-- **`GetDoc` of a document that stands**, is not deleted, and is not past `last_docid_`. -/
theorem Recorded.getDocByDocid (h : Recorded keyId K schema infos e accepted) {d : ℕ} {doc : Doc}
    (hd : d < e.maxDocid) (hbit : e.docidsBitmap.test d = false)
    (hlast : (d : ℤ) ≤ e.table.lastDocid) (hdoc : Stands e d doc) :
    ∃ r, e.getDocByDocid d = some r ∧ Shows e doc r := by
  obtain ⟨row, hrow⟩ : ∃ row, e.table.rows[d]? = some row :=
    ⟨_, List.getElem?_eq_getElem (by rw [h.rows]; exact hd)⟩
  have hneg : ¬ (d : ℤ) < 0 := by omega
  have hread : e.table.getRow d = some row := by
    rw [getRow, if_neg hneg]
    exact hrow
  obtain ⟨vecs, hvecs, hmem⟩ := getVectors_of_lt h.wellFormed fun name hname => by
    rw [h.vectors name (h.names_eq ▸ hname)]
    exact hd
  have hcell : ∀ f ∈ doc.tableFields, row[e.table.schema.idx f]? = some (e.table.schema.cellOf f) := by
    intro f hf
    have hval := (hdoc.fields f hf).2
    rwa [InStep.getFieldRawValue_eq hrow] at hval
  have hattr : ∀ f ∈ doc.tableFields, ∃ info, e.table.schema.attrs[e.table.schema.idx f]? =
      some info ∧ info.name = f.name := by
    intro f hf
    have hlt := Schema.idx_lt (hdoc.fields f hf).1
    refine ⟨_, List.getElem?_eq_getElem hlt, ?_⟩
    have hget : e.table.schema.names[e.table.schema.names.idxOf f.name]? = some f.name :=
      List.getElem?_idxOf (hdoc.fields f hf).1
    rw [Schema.names, List.getElem?_map] at hget
    obtain ⟨info, hinfo, hname⟩ := Option.map_eq_some_iff.mp hget
    have hsame : e.table.schema.attrs[e.table.schema.idx f]? = some info := hinfo
    rw [List.getElem?_eq_getElem hlt] at hsame
    rw [Option.some.inj hsame, hname]
  obtain ⟨info, hinfo, hfields⟩ : ∃ info, e.table.getDocInfo d = some info ∧
      ∀ p, p ∈ info.fields ↔ p ∈ e.table.schema.attrs.zip row ∧ p.2 ≠ .str (some []) := by
    rw [getDocInfo, if_neg (Int.not_lt.mpr hlast), hread]
    refine ⟨_, rfl, fun p => ?_⟩
    rw [List.mem_filter, List.mem_mergeSort, decide_eq_true_iff]
  refine ⟨(info, vecs), ?_, ?_⟩
  · rw [GammaEngine.getDocByDocid, hbit, if_neg (by decide), hinfo, Option.bind_some, hvecs]
    rfl
  · refine ⟨fun f hf hne => ?_, fun p hp f hf hname => ?_, fun f hf hname => ?_⟩
    · obtain ⟨attr, hattr, hname⟩ := hattr f hf
      refine ⟨(attr, e.table.schema.cellOf f), (hfields _).mpr ⟨?_, hne⟩, hname, rfl⟩
      exact List.mem_of_getElem? (List.getElem?_zip_eq_some.mpr ⟨hattr, hcell f hf⟩)
    · obtain ⟨i, hi⟩ := List.getElem?_of_mem ((hfields p).mp hp).1
      obtain ⟨hattr, hval⟩ := List.getElem?_zip_eq_some.mp hi
      have hidx : e.table.schema.idx f = i := by
        have hnames : e.table.schema.names[i]? = some f.name := by
          rw [Schema.names, List.getElem?_map, hattr, Option.map_some, hname]
        obtain ⟨hlt, hget⟩ := List.getElem?_eq_some_iff.mp hnames
        rw [Schema.idx, ← hget]
        exact e.table.schema.names_nodup.idxOf_getElem i hlt
      rw [← hidx, hcell f hf] at hval
      exact (Option.some.inj hval).symm
    · exact hmem f.name hname f.value (hdoc.vectors f hf hname)

end Read

/-! ### Keys and deleted documents -/

/-- A key is mapped to a document exactly when the document was added, is not deleted, and has the
key; and `GetDoc` returns what is on record. -/
structure KeysAgree (keyId : Bytes → ℤ) (K : Set Bytes) (a : Audited) : Prop where
  mapped_iff : ∀ key ∈ K, ∀ d, a.engine.table.getDocIDByKey keyId key = some d ↔
    d < a.engine.maxDocid ∧ a.engine.docidsBitmap.test d = false ∧
      a.engine.table.rowKey d = some key
  returned : ∀ key ∈ K, ∀ doc, a.accepted key = some doc →
    ∃ r, a.engine.getDoc keyId key = some r ∧ Shows a.engine doc r

/-- What a run of fitting calls keeps. -/
structure Kept (keyId : Bytes → ℤ) (K : Set Bytes) (schema : Schema) (infos : List VectorInfo)
    (strict : Prop) (a : Audited) : Prop where
  recorded : Recorded keyId K schema infos a.engine a.accepted
  marks : Marks strict a.engine a.engine.docidsBitmap
  bounded : a.engine.Bounded
  dumped : a.engine.docidsBitmap.Dumped

section Keys

variable {keyId : Bytes → ℤ} {K : Set Bytes} {schema : Schema} {infos : List VectorInfo}
  {strict : Prop} {a : Audited}

theorem stepRecord_engine {op : Op} {a' : Audited} (h : stepRecord keyId op a = some a') :
    stepOp keyId op a.engine = some a'.engine := by
  cases op with
  | addNewField info =>
    cases h
    rfl
  | delDocByQuery docids =>
    cases h
    rfl
  | addOrUpdate doc =>
    obtain ⟨r, hr, rfl⟩ := Option.map_eq_some_iff.mp h
    rw [stepOp, hr, Option.map_some]
  | addOrUpdateDocs docs result =>
    obtain ⟨st, hst, rfl⟩ := Option.map_eq_some_iff.mp h
    rw [stepOp, hst, Option.map_some]
  | addOrUpdateDocsWithWords docs result =>
    obtain ⟨st, hst, rfl⟩ := Option.map_eq_some_iff.mp h
    rw [stepOp, hst, Option.map_some]
  | delete key =>
    obtain ⟨r, hr, rfl⟩ := Option.map_eq_some_iff.mp h
    rw [stepOp, hr, Option.map_some]
  | delDocByFilter docids =>
    obtain ⟨e, he, rfl⟩ := Option.map_eq_some_iff.mp h
    exact he

namespace Kept

theorem start (keyId : Bytes → ℤ) (K : Set Bytes) (schema : Schema) (infos : List VectorInfo)
    (strict : Prop) : Kept keyId K schema infos strict (startRecord schema infos) where
  recorded := Recorded.start keyId K schema infos
  marks := Marks.start schema infos
  bounded := Bounded.create schema infos
  dumped := (counted_create schema infos).dumped

theorem step (h : Kept keyId K schema infos strict a) (hinj : Set.InjOn keyId K) {op : Op}
    (hkeys : ∀ key ∈ op.keys, key ∈ K) (hfit : FitsOp schema infos strict keyId op a) :
    ∃ a', stepRecord keyId op a = some a' ∧ Kept keyId K schema infos strict a' := by
  obtain ⟨a', ha', hrec, hmarks⟩ := h.recorded.step hinj h.marks hkeys hfit
  have hstep := stepRecord_engine ha'
  exact ⟨a', ha', hrec, hmarks, h.bounded.step hstep, dumped_step h.dumped hstep⟩

/-- What is kept holds throughout a run of fitting calls. -/
theorem always {ops : List Op} (hinj : Set.InjOn keyId { key | ∃ op ∈ ops, key ∈ op.keys })
    (hfit : Lib.Guarded (stepRecord keyId) (FitsOp schema infos strict keyId) ops
      (startRecord schema infos)) :
    (∃ a, Lib.runOps (stepRecord keyId) ops (startRecord schema infos) = some a) ∧
      Lib.Always (stepRecord keyId)
        (Kept keyId { key | ∃ op ∈ ops, key ∈ op.keys } schema infos strict) ops
        (startRecord schema infos) := by
  have hkeys : ∀ op ∈ ops, ∀ key ∈ op.keys, key ∈ { key | ∃ op ∈ ops, key ∈ op.keys } :=
    fun op hop key hkey => ⟨op, hop, hkey⟩
  exact Lib.always_of_guarded (fun op _ h hg => h.step hinj hg.1 hg.2)
    (start keyId _ schema infos strict) (hfit.and_mem hkeys)

/-- The key of a document that is not deleted. -/
theorem mapped_of_live (h : Kept keyId K schema infos strict a) {d : ℕ}
    (hd : d < a.engine.maxDocid) (hbit : a.engine.docidsBitmap.test d = false) {key : Bytes}
    (hrow : a.engine.table.rowKey d = some key) :
    a.engine.table.getDocIDByKey keyId key = some d := by
  obtain ⟨k, hk⟩ := h.marks.live d hd hbit
  obtain ⟨-, key', -, rfl, hrow'⟩ := h.recorded.mapped k d hk
  rw [hrow] at hrow'
  rw [Option.some.inj hrow']
  exact hk

theorem keysAgree (h : Kept keyId K schema infos True a) (hinj : Set.InjOn keyId K) :
    KeysAgree keyId K a where
  mapped_iff := by
    intro key hkey d
    constructor
    · intro hd
      obtain ⟨hlt, key', hkey', hid, hrow⟩ := h.recorded.mapped _ d hd
      obtain rfl := hinj hkey' hkey hid
      exact ⟨hlt, h.marks.visible trivial _ d hd, hrow⟩
    · exact fun hd => h.mapped_of_live hd.1 hd.2.1 hd.2.2
  returned := by
    intro key hkey doc hacc
    cases hfound : a.engine.table.getDocIDByKey keyId key with
    | none =>
      rw [h.recorded.fresh key hkey hfound] at hacc
      cases hacc
    | some d =>
      obtain ⟨doc', hdoc', hstands⟩ := h.recorded.current key hkey d hfound
      obtain rfl : doc' = doc := Option.some.inj (hdoc'.symm.trans hacc)
      rw [getDoc, hfound, Option.bind_some]
      exact h.recorded.getDocByDocid (h.recorded.mapped _ d hfound).1
        (h.marks.visible trivial _ d hfound) (h.bounded.keys _ d hfound).2 hstands

end Kept

end Keys

/-! ### Loading -/

theorem foldl_min_eq {names : List String} {size : String → ℕ} {n : ℕ}
    (h : ∀ name ∈ names, size name = n) : names.foldl (fun n name => min n (size name)) n = n := by
  induction names with
  | nil => rfl
  | cons name names ih =>
    rw [List.foldl_cons, h name List.mem_cons_self, Nat.min_self]
    exact ih fun n hn => h n (List.mem_cons_of_mem name hn)

section Load

variable {keyId : Bytes → ℤ} {K : Set Bytes} {schema : Schema} {infos : List VectorInfo}
  {strict : Prop} {a : Audited}

/-- All files hold the documents. -/
theorem Kept.loadNum_eq (h : Kept keyId K schema infos strict a) :
    a.engine.loadNum = a.engine.maxDocid := by
  rw [loadNum, VectorManager.diskVecNum, h.recorded.rows]
  refine foldl_min_eq fun name hname => ?_
  rw [(h.recorded.wellFormed name hname).file, h.recorded.vectors name (h.recorded.names_eq ▸ hname)]

/-- **The loaded map** is the old one, less the keys of the deleted documents. -/
theorem Kept.load_keys (h : Kept keyId K schema infos strict a) {indexNum : ℕ}
    (hindex : indexNum ≤ a.engine.maxDocid) :
    ∃ e', a.engine.load keyId indexNum = some e' ∧ ∀ k d, e'.table.itemToDocid k = some d ↔
      a.engine.table.itemToDocid k = some d ∧ a.engine.docidsBitmap.test d = false := by
  have htest := BitmapManager.test_reopen h.dumped initBitmapSize
  have hnum := h.loadNum_eq
  have hrow : ∀ d, (a.engine.table.cut a.engine.loadNum).rowKey d = a.engine.table.rowKey d := by
    intro d
    refine Recorded.rowKey_congr (t := a.engine.table) rfl ?_
    show (a.engine.table.rows.take a.engine.loadNum)[d]? = _
    rw [hnum, ← h.recorded.rows, List.take_length]
  have hdefined : ∀ d < a.engine.loadNum,
      (BitmapManager.reopen a.engine.docidsBitmap.file initBitmapSize).test d = false →
        ∃ key, (a.engine.table.cut a.engine.loadNum).rowKey d = some key := by
    intro d hd hbit
    rw [htest] at hbit
    rw [hrow]
    obtain ⟨k, hk⟩ := h.marks.live d (hnum ▸ hd) hbit
    obtain ⟨-, key, -, -, hkey⟩ := h.recorded.mapped k d hk
    exact ⟨key, hkey⟩
  obtain ⟨m, hm⟩ : ∃ m, Lib.runOps ((a.engine.table.cut a.engine.loadNum).loadKey keyId
      (BitmapManager.reopen a.engine.docidsBitmap.file initBitmapSize))
        (List.range a.engine.loadNum) (fun _ => none) = some m := loadKeys_defined hdefined _
  have hold : ∀ k d, m k = some d →
      a.engine.table.itemToDocid k = some d ∧ a.engine.docidsBitmap.test d = false := by
    intro k d hd
    obtain ⟨hlt, hbit, key, hkey, hid⟩ := loadKeys_mem hm hd
    rw [htest] at hbit
    rw [hrow] at hkey
    exact ⟨hid ▸ h.mapped_of_live (hnum ▸ hlt) hbit hkey, hbit⟩
  refine ⟨_, load_of_keys (hnum.symm ▸ hindex) hm, fun k d => ⟨hold k d, fun hd => ?_⟩⟩
  obtain ⟨hlt, key, -, hid, hkey⟩ := h.recorded.mapped k d hd.1
  obtain ⟨d', hd'⟩ := loadKeys_found hm (hnum.symm ▸ hlt) ((htest d).trans hd.2)
    ((hrow d).trans hkey)
  rw [hid] at hd'
  show m k = some d
  rw [hd', ← hd.1, (hold k d' hd').1]

/-- The maps are equal exactly when no key leads to a deleted document. -/
theorem Kept.load_keys_eq_iff (h : Kept keyId K schema infos strict a) {indexNum : ℕ}
    (hindex : indexNum ≤ a.engine.maxDocid) :
    ∃ e', a.engine.load keyId indexNum = some e' ∧
      (e'.table.itemToDocid = a.engine.table.itemToDocid ↔
        ∀ k d, a.engine.table.itemToDocid k = some d → a.engine.docidsBitmap.test d = false) := by
  obtain ⟨e', he', hkeys⟩ := h.load_keys hindex
  refine ⟨e', he', fun heq k d hd => ((hkeys k d).mp (heq ▸ hd)).2, fun hclear => ?_⟩
  funext k
  cases hk : a.engine.table.itemToDocid k with
  | some d => exact (hkeys k d).mpr ⟨hk, hclear k d hk⟩
  | none =>
    cases hk' : e'.table.itemToDocid k with
    | none => rfl
    | some d =>
      rw [((hkeys k d).mp hk').1] at hk
      cases hk

end Load

/-! ### A small engine -/

theorem byteDoc_newFits (key : UInt8) {vec : Bytes} (hvec : vec.length = 4) :
    NewFits keySchema [wordVector] (byteDoc key vec) where
  complete := List.Perm.refl _
  exact := by
    intro f hf
    rw [List.mem_singleton.mp hf]
    rfl
  key := List.cons_ne_nil _ _
  keyField := by
    intro f hf _
    rw [List.mem_singleton.mp hf]
    rfl
  vectorNames := List.Perm.refl _
  vectorNodup := List.nodup_singleton _
  vectors := by
    intro f hf info hinfo _
    rw [List.mem_singleton.mp hf, List.mem_singleton.mp hinfo]
    exact hvec

theorem byteDoc_fitsOp {keyId : Bytes → ℤ} (strict : Prop) (key : UInt8) {vec : Bytes}
    (hvec : vec.length = 4) :
    FitsOp keySchema [wordVector] strict keyId (.addOrUpdate (byteDoc key vec))
      (startRecord keySchema [wordVector]) := by
  have hnew : (startRecord keySchema [wordVector]).engine.table.getDocIDByKey keyId
      (byteDoc key vec).key = none := rfl
  rw [FitsOp, if_pos hnew]
  exact .inr (byteDoc_newFits key hvec)

/-- The engine with one document, marked by `DelDocByQuery`. -/
def marked : List Op := [.addOrUpdate (byteDoc 97 [0, 0, 0, 0]), .delDocByQuery [0]]

theorem marked_keys : { key | ∃ op ∈ marked, key ∈ op.keys } ⊆ { key | key.length = 1 } := by
  intro key hkey
  obtain ⟨op, hop, hmem⟩ := hkey
  simp only [marked, List.mem_cons, List.not_mem_nil, or_false] at hop
  obtain rfl | rfl := hop
  · rw [List.mem_singleton.mp hmem]
    rfl
  · cases hmem

theorem marked_run : ∃ a, Lib.runOps (stepRecord firstByte) marked
    (startRecord keySchema [wordVector]) = some a ∧
      a.engine.table.getDocIDByKey firstByte [97] = some 0 ∧ a.engine.maxDocid = 1 ∧
        a.engine.docidsBitmap.test 0 = true := by
  have hrun : ((Lib.runOps (stepRecord firstByte) marked
      (startRecord keySchema [wordVector])).map fun a =>
        (a.engine.table.getDocIDByKey firstByte [97], a.engine.maxDocid,
          a.engine.docidsBitmap.test 0)) = some (some 0, 1, true) := by decide +kernel
  obtain ⟨a, ha, hfacts⟩ := Option.map_eq_some_iff.mp hrun
  simp only [Prod.mk.injEq] at hfacts
  exact ⟨a, ha, hfacts⟩

theorem marked_fits : Lib.Guarded (stepRecord firstByte) (FitsOp keySchema [wordVector] False
    firstByte) marked (startRecord keySchema [wordVector]) := by
  refine ⟨byteDoc_fitsOp False 97 rfl, fun a ha => ⟨fun d hd => ⟨?_, False.elim⟩, fun _ _ => trivial⟩⟩
  · have hfacts : (stepRecord firstByte (.addOrUpdate (byteDoc 97 [0, 0, 0, 0]))
        (startRecord keySchema [wordVector])).map (fun a => a.engine.maxDocid) = some 1 := by
      decide +kernel
    rw [ha, Option.map_some, Option.some.injEq] at hfacts
    rw [List.mem_singleton.mp hd, hfacts]
    exact Nat.one_pos

end AwaDB.GammaEngine
