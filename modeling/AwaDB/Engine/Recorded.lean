import AwaDB.Engine.Alignment
import AwaDB.Engine.Restart

/-!
# Keys, rows and vectors of any number of fields

The engine beside the documents that it accepted and did not delete, for a table with any number of
vector fields.

* `Recorded` is the invariant without the marks: a key that is mapped leads to a row with that key, and row
  and vectors are those of the document on record;
* `Marks` adds the bitmap: a document whose bit is clear is mapped. It is a relation between an
  engine and a bitmap because `AddOrUpdateDocs` is compared with an engine that has other marks;
* `FitsOp` is the condition on a call, and `Recorded.step` carries both over it. With `strict`, the
  documents that keys lead to are not deleted.
-/

namespace AwaDB.GammaEngine

open Table VectorManager Schema

/-! ### The engine and its records -/

/-- The keys that a call names. -/
def Op.keys : Op → List Bytes
  | .addOrUpdate doc => [doc.key]
  | .addOrUpdateDocs docs _ => docs.map Doc.key
  | .addOrUpdateDocsWithWords docs _ => docs.map Doc.key
  | .delete key => [key]
  | .addNewField _ => []
  | .delDocByQuery _ => []
  | .delDocByFilter _ => []

/-- A deletion takes the documents off the record whose keys it removes. -/
def forget (keyId : Bytes → ℤ) (e : GammaEngine) (accepted : Bytes → Option Doc) :
    Bytes → Option Doc :=
  fun key => if e.table.getDocIDByKey keyId key = none then none else accepted key

/-- The engine and the record after a call. -/
def stepRecord (keyId : Bytes → ℤ) : Op → Audited → Option Audited
  | .addNewField info, a => some ⟨{ a.engine with table := a.engine.table.addNewField info }, a.accepted⟩
  | .addOrUpdate doc, a =>
    (a.engine.addOrUpdate keyId doc).map fun r =>
      ⟨r.2, if r.1 = 0 then record doc a.accepted else a.accepted⟩
  | .addOrUpdateDocs docs result, a =>
    (a.engine.addOrUpdateDocs keyId docs result).map fun st =>
      ⟨st.engine, recordAll st.accepted a.accepted⟩
  | .addOrUpdateDocsWithWords docs result, a =>
    (a.engine.addOrUpdateDocsWithWords keyId docs result).map fun st =>
      ⟨st.engine, recordAll st.accepted a.accepted⟩
  | .delete key, a => (a.engine.delete keyId key).map fun r => ⟨r.2, forget keyId r.2 a.accepted⟩
  | .delDocByQuery docids, a => some ⟨a.engine.delDocByQuery docids, a.accepted⟩
  | .delDocByFilter docids, a =>
    (a.engine.delDocByFilter keyId docids).map fun e => ⟨e, forget keyId e a.accepted⟩

/-- An empty engine. -/
def startRecord (schema : Schema) (infos : List VectorInfo) : Audited where
  engine := create schema infos
  accepted := fun _ => none

/-- Row `d` and the vectors `d` hold what the document gives. -/
structure Stands (e : GammaEngine) (d : ℕ) (doc : Doc) : Prop where
  fields : ∀ f ∈ doc.tableFields, f.name ∈ e.table.schema.names ∧
    e.table.getFieldRawValue d (e.table.schema.idx f) = some (e.table.schema.cellOf f)
  vectors : ∀ f ∈ doc.vectorFields, f.name ∈ e.vecManager.names →
    (e.vecManager.raw f.name).getVector d = some f.value

/-! ### Documents that fit -/

section Fits

variable (schema : Schema) (infos : List VectorInfo)

/-- The vector has the size that its field wants. -/
def VectorFits (f : Field) : Prop :=
  ∀ info ∈ infos, info.name = f.name → f.value.length = info.dataSize * info.dimension

/-- The key field holds the key. -/
def KeyField (doc : Doc) : Prop := ∀ f ∈ doc.tableFields, f.name = "_id" → f.value = doc.key

/-- A new document that fits: every field once, each value of its field's size, a key, and for every
vector field one vector of the right size. -/
structure NewFits (doc : Doc) : Prop where
  complete : Complete schema doc
  exact : ∀ f ∈ doc.tableFields, schema.ExactField f
  key : doc.key ≠ []
  keyField : KeyField doc
  vectorNames : (doc.vectorFields.map Field.name).Perm (infos.map VectorInfo.name)
  vectorNodup : (doc.vectorFields.map Field.name).Nodup
  vectors : ∀ f ∈ doc.vectorFields, VectorFits infos f

/-- The first vector of an update is refused before anything is written. -/
def RefusedFirst (doc : Doc) : Prop :=
  ∃ f rest, doc.vectorFields = f :: rest ∧ f.name ∈ infos.map VectorInfo.name ∧
    ∀ info ∈ infos, info.name = f.name → f.value.length ≠ info.dataSize * info.dimension ∧
      (info.storeType = .mmap ∨ info.dimension ≠ f.value.length / info.dataSize)

/-- An update that fits: any of the fields once, each value of its field's size and kind, and
vectors of the right size. -/
structure UpdateFitsAll (doc : Doc) : Prop where
  nodup : (doc.tableFields.map Field.name).Nodup
  exact : ∀ f ∈ doc.tableFields, schema.ExactField f
  sameType : ∀ f ∈ doc.tableFields, schema.SameStringType f
  keyField : KeyField doc
  vectorNodup : (doc.vectorFields.map Field.name).Nodup
  vectors : ∀ f ∈ doc.vectorFields, VectorFits infos f

/-- A document for a key that exists. -/
def ExistingFits (doc : Doc) : Prop := RefusedFirst infos doc ∨ UpdateFitsAll schema infos doc

/-- The documents of a batch fit, each as an update if its key is known by its turn, and as a new
document otherwise. -/
def BatchFits : (Bytes → Prop) → List Doc → Prop
  | _, [] => True
  | known, doc :: docs =>
    (known doc.key → ExistingFits schema infos doc) ∧
      (¬ known doc.key → NewFits schema infos doc) ∧
        BatchFits (fun key => key = doc.key ∨ known key) docs

/-- The condition on a call: its documents fit, and the bitmap reaches the documents it deletes. A
search finds documents that were added, and with `strict`, `DelDocByQuery` finds none that is not
deleted yet. -/
def FitsOp (strict : Prop) (keyId : Bytes → ℤ) : Op → Audited → Prop
  | .addNewField _, _ => True
  | .addOrUpdate doc, a =>
    if a.engine.table.getDocIDByKey keyId doc.key = none then
      RefusedByTable schema doc ∨ NewFits schema infos doc
    else ExistingFits schema infos doc
  | .addOrUpdateDocs docs _, a =>
    BatchFits schema infos (fun key => a.engine.table.getDocIDByKey keyId key ≠ none) docs
  | .addOrUpdateDocsWithWords docs _, a =>
    BatchFits schema infos (fun key => a.engine.table.getDocIDByKey keyId key ≠ none) docs
  | .delete key, a =>
    ∀ d, a.engine.table.getDocIDByKey keyId key = some d → d < a.engine.docidsBitmap.size
  | .delDocByQuery docids, a =>
    ∀ d ∈ docids, d < a.engine.maxDocid ∧ (strict → a.engine.docidsBitmap.test d = true)
  | .delDocByFilter docids, a =>
    ∀ d ∈ docids, d < a.engine.maxDocid → d < a.engine.docidsBitmap.size

end Fits

/-! ### The invariant -/

/-- What holds of an engine and its record, the marks apart. -/
structure Recorded (keyId : Bytes → ℤ) (K : Set Bytes) (schema : Schema) (infos : List VectorInfo)
    (e : GammaEngine) (accepted : Bytes → Option Doc) : Prop where
  schema_eq : e.table.schema = schema
  shape : SameShape (VectorManager.create infos) e.vecManager
  wellFormed : e.vecManager.WellFormed
  rows : e.table.rows.length = e.maxDocid
  vectors : ∀ name ∈ infos.map VectorInfo.name, (e.vecManager.raw name).size = e.maxDocid
  solid : ∀ row ∈ e.table.rows, schema.Solid row
  mapped : ∀ k d, e.table.itemToDocid k = some d →
    d < e.maxDocid ∧ ∃ key ∈ K, keyId key = k ∧ e.table.rowKey d = some key
  current : ∀ key ∈ K, ∀ d, e.table.getDocIDByKey keyId key = some d →
    ∃ doc, accepted key = some doc ∧ Stands e d doc
  fresh : ∀ key ∈ K, e.table.getDocIDByKey keyId key = none → accepted key = none

/-- The bitmap: a document whose bit is clear is mapped, and there are no bits behind the
documents. -/
structure Marks (strict : Prop) (e : GammaEngine) (bits : BitmapManager) : Prop where
  live : ∀ d < e.maxDocid, bits.test d = false → ∃ k, e.table.itemToDocid k = some d
  clear_above : ∀ d, e.maxDocid ≤ d → bits.test d = false
  clean : bits.Clean
  visible : strict → ∀ k d, e.table.itemToDocid k = some d → bits.test d = false

namespace Recorded

variable {keyId : Bytes → ℤ} {K : Set Bytes} {schema : Schema} {infos : List VectorInfo}
  {e : GammaEngine} {accepted : Bytes → Option Doc}

theorem names_eq (h : Recorded keyId K schema infos e accepted) :
    e.vecManager.names = infos.map VectorInfo.name := h.shape.names

/-- Two keys lead to one document only if they are equal. -/
theorem keys_inj (h : Recorded keyId K schema infos e accepted) {k k' : ℤ} {d : ℕ}
    (hk : e.table.itemToDocid k = some d) (hk' : e.table.itemToDocid k' = some d) : k = k' := by
  obtain ⟨-, key, -, rfl, hrow⟩ := h.mapped k d hk
  obtain ⟨-, key', -, rfl, hrow'⟩ := h.mapped k' d hk'
  rw [hrow] at hrow'
  rw [Option.some.inj hrow']

theorem start (keyId : Bytes → ℤ) (K : Set Bytes) (schema : Schema) (infos : List VectorInfo) :
    Recorded keyId K schema infos (create schema infos) fun _ => none where
  schema_eq := rfl
  shape := SameShape.refl _
  wellFormed := wellFormed_create infos
  rows := rfl
  vectors := by
    intro name _
    show ((VectorManager.create infos).raw name).size = 0
    unfold VectorManager.create
    dsimp only
    split <;> rfl
  solid := fun _ h => nomatch h
  mapped := fun _ _ h => nomatch h
  current := fun _ _ _ h => nomatch h
  fresh := fun _ _ _ => rfl

/-- A vector field is what the table says about it. -/
theorem kind_eq (h : Recorded keyId K schema infos e accepted) {name : String}
    (hname : name ∈ e.vecManager.names) : ∃ info ∈ infos, info.name = name ∧
      (e.vecManager.raw name).kind = (info.dimension, info.dataSize, info.storeType) := by
  obtain ⟨found, hfound⟩ := VectorManager.exists_found (h.names_eq ▸ hname)
  refine ⟨found, List.mem_of_find?_eq_some hfound, by simpa using List.find?_some hfound, ?_⟩
  rw [h.shape.kind]
  simp only [VectorManager.create, hfound]
  rfl

theorem byteSize (h : Recorded keyId K schema infos e accepted) {f : Field}
    (hname : f.name ∈ e.vecManager.names) (hf : VectorFits infos f) :
    f.value.length = (e.vecManager.raw f.name).vectorByteSize := by
  obtain ⟨info, hmem, hinfo, hkind⟩ := h.kind_eq hname
  simp only [RawVector.kind, Prod.mk.injEq] at hkind
  rw [RawVector.vectorByteSize, hkind.1, hkind.2.1]
  exact hf info hmem hinfo

theorem addable (h : Recorded keyId K schema infos e accepted) {doc : Doc}
    (hdoc : NewFits schema infos doc) : Addable e doc where
  complete := h.schema_eq ▸ hdoc.complete
  key := hdoc.key
  exact := fun f hf hname => h.byteSize hname (hdoc.vectors f hf)

/-- A document stands when its row and its vectors do. -/
theorem stands_congr {e e' : GammaEngine} {d : ℕ} {doc : Doc}
    (hschema : e'.table.schema = e.table.schema) (hrow : e'.table.rows[d]? = e.table.rows[d]?)
    (hnames : e'.vecManager.names = e.vecManager.names)
    (hvec : ∀ name ∈ e.vecManager.names,
      (e'.vecManager.raw name).getVector d = (e.vecManager.raw name).getVector d)
    (h : Stands e d doc) : Stands e' d doc := by
  refine ⟨fun f hf => ?_, fun f hf hname => ?_⟩
  · rw [hschema, getFieldRawValue_congr hrow]
    exact h.fields f hf
  · rw [hnames] at hname
    rw [hvec f.name hname]
    exact h.vectors f hf hname

theorem rowKey_congr {t t' : Table} {d : ℕ} (hschema : t'.schema = t.schema)
    (hrow : t'.rows[d]? = t.rows[d]?) : t'.rowKey d = t.rowKey d := by
  rw [rowKey, rowKey, hschema, getFieldRawValue_congr hrow]

/-- The key of a row whose key field holds a value. -/
theorem rowKey_of_cell {t : Table} {d : ℕ} {row : Row} {f : Field} (hrow : t.rows[d]? = some row)
    (hname : f.name = "_id") (hcell : row[t.schema.idx f]? = some (t.schema.cellOf f)) :
    t.rowKey d = some f.value := by
  have hidx : t.schema.attrIdx "_id" = some (t.schema.idx f) := by
    rw [← hname]
    exact attrIdx_eq (hname ▸ t.schema.key_mem)
  rw [rowKey, hidx, Option.bind_some, InStep.getFieldRawValue_eq hrow, hcell, Option.bind_some,
    cellOf]
  by_cases hstr : t.schema.fieldType f = some .string
  · rw [if_pos hstr]
  · rw [if_neg hstr]
    exact Lib.mapM_id_map_some f.value

/-- A row that is rewritten keeps its key when the key field is written with it or not at all. -/
theorem rowKey_set {t : Table} {d : ℕ} {row row' : Row} {fields : List Field} {key : Bytes}
    (hrow : t.rows[d]? = some row) (hnames : ∀ f ∈ fields, f.name ∈ t.schema.names)
    (hvals : ∀ f ∈ fields, row'[t.schema.idx f]? = some (t.schema.cellOf f))
    (hother : ∀ i, i ∉ fields.map t.schema.idx → row'[i]? = row[i]?)
    (hfield : ∀ f ∈ fields, f.name = "_id" → f.value = key) (hkey : t.rowKey d = some key) :
    ({ t with rows := t.rows.set d row' } : Table).rowKey d = some key := by
  have hlt : d < t.rows.length := (List.getElem?_eq_some_iff.mp hrow).1
  have hset : (t.rows.set d row')[d]? = some row' := List.getElem?_set_self hlt
  by_cases hgiven : "_id" ∈ fields.map Field.name
  · obtain ⟨f, hf, hname⟩ := List.mem_map.mp hgiven
    rw [← hfield f hf hname]
    exact rowKey_of_cell hset hname (hvals f hf)
  · have hidx : t.schema.attrIdx "_id" = some (t.schema.names.idxOf "_id") := if_pos t.schema.key_mem
    have hfree : t.schema.names.idxOf "_id" ∉ fields.map t.schema.idx := by
      intro hmem
      obtain ⟨f, hf, heq⟩ := List.mem_map.mp hmem
      have hname : f.name = "_id" := (List.idxOf_inj (hnames f hf)).mp heq
      exact hgiven (hname ▸ List.mem_map_of_mem hf)
    rw [rowKey, hidx, Option.bind_some, InStep.getFieldRawValue_eq hrow] at hkey
    show ((t.schema.attrIdx "_id").bind _).bind _ = _
    rw [hidx, Option.bind_some]
    rw [InStep.getFieldRawValue_eq (t := { t with rows := t.rows.set d row' }) hset,
      hother _ hfree]
    exact hkey

/-! ### New documents -/

/-- The vectors of a new document stand behind those that were there. -/
theorem storeAll_new (h : Recorded keyId K schema infos e accepted) {doc : Doc}
    (hdoc : NewFits schema infos doc) {f : Field} (hf : f ∈ doc.vectorFields) :
    ((storeAll [doc] e.vecManager).raw f.name).size = e.maxDocid + 1 ∧
      ((storeAll [doc] e.vecManager).raw f.name).getVector e.maxDocid = some f.value ∧
      ∀ i < e.maxDocid, ((storeAll [doc] e.vecManager).raw f.name).getVector i =
        (e.vecManager.raw f.name).getVector i := by
  have hnames : ∀ f ∈ doc.vectorFields, f.name ∈ e.vecManager.names := fun f hf =>
    h.names_eq ▸ hdoc.vectorNames.mem_iff.mp (List.mem_map_of_mem hf)
  obtain ⟨m, hm, hall, -⟩ := h.wellFormed.addToStore_all hdoc.vectorNodup fun f hf =>
    ⟨hnames f hf, h.byteSize (hnames f hf) (hdoc.vectors f hf)⟩
  have hstore : storeAll [doc] e.vecManager = m := by
    show (addToStore doc.vectorFields e.vecManager).2 = m
    rw [hm]
  have hsize : (e.vecManager.raw f.name).size = e.maxDocid :=
    h.vectors f.name (h.names_eq ▸ hnames f hf)
  have hstored := hall f hf
  rwa [hsize, ← hstore] at hstored

/-- **A new document that fits** gets the next row and the next vector of every field. -/
theorem added_one (h : Recorded keyId K schema infos e accepted) (hinj : Set.InjOn keyId K)
    {doc : Doc} (hkey : doc.key ∈ K) (hnew : e.table.getDocIDByKey keyId doc.key = none)
    (hdoc : NewFits schema infos doc) {row : Row} (hsolid : schema.Solid row)
    (hvals : ∀ f ∈ doc.tableFields, row[schema.idx f]? = some (schema.cellOf f)) :
    Recorded keyId K schema infos (added keyId [doc] [row] e) (record doc accepted) := by
  have hmem : ∀ name ∈ e.vecManager.names, name ∈ doc.vectorFields.map Field.name :=
    fun name hname => hdoc.vectorNames.mem_iff.mpr (h.names_eq ▸ hname)
  have hshape : SameShape e.vecManager (storeAll [doc] e.vecManager) := storeAll_sameShape _ _
  have hkeys : ∀ k d, insertKey (keyId doc.key) e.maxDocid e.table.itemToDocid k = some d →
      k = keyId doc.key ∧ d = e.maxDocid ∨
        k ≠ keyId doc.key ∧ e.table.itemToDocid k = some d :=
    fun _ _ hd => insertKey_cases hnew hd
  have hlast : (e.table.rows ++ [row])[e.maxDocid]? = some row := by
    rw [← h.rows, List.getElem?_concat_length]
  have hold : ∀ d < e.maxDocid, (e.table.rows ++ [row])[d]? = e.table.rows[d]? :=
    fun d hd => List.getElem?_append_left (by rw [h.rows]; exact hd)
  refine ⟨h.schema_eq, h.shape.trans hshape, h.wellFormed.addToStore doc.vectorFields, ?_,
    fun name hname => ?_, ?_, ?_, ?_, ?_⟩
  · show (e.table.rows ++ [row]).length = e.maxDocid + 1
    rw [List.length_append, h.rows]
    rfl
  · obtain ⟨f, hf, rfl⟩ := List.mem_map.mp (hdoc.vectorNames.mem_iff.mpr hname)
    exact (h.storeAll_new hdoc hf).1
  · intro r hr
    cases List.mem_append.mp hr with
    | inl hr => exact h.solid r hr
    | inr hr =>
      rw [List.mem_singleton.mp hr]
      exact hsolid
  · intro k d hd
    cases hkeys k d hd with
    | inl hk =>
      obtain ⟨rfl, rfl⟩ := hk
      obtain ⟨f, hf, hname⟩ := List.mem_map.mp (hdoc.complete.mem_iff.mpr schema.key_mem)
      refine ⟨Nat.lt_succ_self _, doc.key, hkey, rfl, ?_⟩
      rw [← hdoc.keyField f hf hname]
      apply rowKey_of_cell hlast hname
      show row[e.table.schema.idx f]? = some (e.table.schema.cellOf f)
      rw [h.schema_eq]
      exact hvals f hf
    | inr hk =>
      obtain ⟨hlt, key, hmemK, hid, hrow⟩ := h.mapped k d hk.2
      refine ⟨Nat.lt_succ_of_lt hlt, key, hmemK, hid, hrow ▸ ?_⟩
      exact rowKey_congr rfl (hold d hlt)
  · intro key hkey' d hd
    cases hkeys (keyId key) d hd with
    | inl hk =>
      -- the new document: its row and its vectors are the last ones
      have heq : key = doc.key := hinj hkey' hkey hk.1
      subst heq
      refine ⟨doc, record_self doc accepted, fun g hg => ?_, fun g hg _ => ?_⟩
      · refine ⟨h.schema_eq ▸ hdoc.complete.mem_names hg, ?_⟩
        rw [hk.2, InStep.getFieldRawValue_eq hlast]
        show row[e.table.schema.idx g]? = some (e.table.schema.cellOf g)
        rw [h.schema_eq]
        exact hvals g hg
      · show ((storeAll [doc] e.vecManager).raw g.name).getVector d = _
        rw [hk.2]
        exact (h.storeAll_new hdoc hg).2.1
    | inr hk =>
      obtain ⟨doc', hacc, hstands⟩ := h.current key hkey' d hk.2
      have hne : key ≠ doc.key := fun heq => hk.1 (congrArg keyId heq)
      have hlt := (h.mapped _ d hk.2).1
      refine ⟨doc', (record_of_ne hne accepted).trans hacc, ?_⟩
      refine stands_congr (e := e) rfl (hold d hlt) hshape.names (fun name hname => ?_) hstands
      obtain ⟨f, hf, rfl⟩ := List.mem_map.mp (hmem name hname)
      exact (h.storeAll_new hdoc hf).2.2 d hlt
  · intro key hkey' hnone
    obtain ⟨hk, hold⟩ := insertKey_eq_none (m := e.table.itemToDocid) hnone
    rw [record_of_ne fun heq => hk (congrArg keyId heq)]
    exact h.fresh key hkey' hold

/-- The marks do not matter. -/
theorem withMarks (h : Recorded keyId K schema infos e accepted) (last : ℤ) (bits : BitmapManager) :
    Recorded keyId K schema infos (e.withMarks last bits) accepted :=
  ⟨h.schema_eq, h.shape, h.wellFormed, h.rows, h.vectors, h.solid, h.mapped,
    fun key hkey d hd => by
      obtain ⟨doc, hdoc, hstands⟩ := h.current key hkey d hd
      exact ⟨doc, hdoc, hstands.fields, hstands.vectors⟩, h.fresh⟩

theorem addOrUpdate_new (h : Recorded keyId K schema infos e accepted) (hinj : Set.InjOn keyId K)
    {doc : Doc} (hkey : doc.key ∈ K) (hnew : e.table.getDocIDByKey keyId doc.key = none)
    (hdoc : NewFits schema infos doc) :
    ∃ r, e.addOrUpdate keyId doc = some r ∧ r.1 = 0 ∧ r.2.maxDocid = e.maxDocid + 1 ∧
      r.2.docidsBitmap = e.docidsBitmap.setMaxID (e.maxDocid + 1) ∧
      r.2.table.itemToDocid = insertKey (keyId doc.key) e.maxDocid e.table.itemToDocid ∧
      Recorded keyId K schema infos r.2 (record doc accepted) := by
  obtain ⟨row, hrow, hsolid, hvals⟩ := rowOf_exact hdoc.complete hdoc.exact
  have hstep := h.added_one hinj hkey hnew hdoc hsolid hvals
  refine ⟨(0, (added keyId [doc] [row] e).withMarks e.maxDocid
    (e.docidsBitmap.setMaxID (e.maxDocid + 1))), ?_, rfl, rfl, rfl, rfl, hstep.withMarks _ _⟩
  rw [GammaEngine.addOrUpdate_new keyId hnew (h.addable hdoc), h.schema_eq, hrow]
  rfl

/-! ### Updates -/

/-- An update whose first vector is refused leaves the stores as they are. -/
theorem vectors_refused (h : Recorded keyId K schema infos e accepted) {doc : Doc} {d : ℕ}
    (hd : d < e.maxDocid) (href : RefusedFirst infos doc) :
    VectorManager.update d doc.vectorFields e.vecManager = some (-1, e.vecManager) := by
  obtain ⟨f, rest, hfields, hname, hwrong⟩ := href
  have hmem : f.name ∈ e.vecManager.names := h.names_eq ▸ hname
  obtain ⟨info, hinfo, hiname, hkind⟩ := h.kind_eq hmem
  obtain ⟨hlen, hwhere⟩ := hwrong info hinfo hiname
  rw [hfields]
  exact InStep.update_first_refused hmem hkind (by rw [h.vectors f.name hname]; exact hd) hlen hwhere

/-- **An update that fits** is refused without a change, or replaces the cells and the vectors that
the document gives. -/
theorem update (h : Recorded keyId K schema infos e accepted) (hinj : Set.InjOn keyId K) {doc : Doc}
    (hkey : doc.key ∈ K) {d : ℕ} (hd : e.table.getDocIDByKey keyId doc.key = some d)
    (hdoc : ExistingFits schema infos doc) :
    ∃ r, e.update d doc = some r ∧
      Recorded keyId K schema infos r.2 (if r.1 = 0 then record doc accepted else accepted) := by
  obtain ⟨hlt, key, hkeyK, hid, hrowKey⟩ := h.mapped _ d hd
  obtain rfl : key = doc.key := hinj hkeyK hkey hid
  cases hdoc with
  | inl href =>
    have hvec := h.vectors_refused hlt href
    refine ⟨(-1, e), ?_, ?_⟩
    · rw [GammaEngine.update, hvec]
      rfl
    · exact h
  | inr hfit =>
    have hstored : Stored e.vecManager d doc.vectorFields := by
      intro f _ hname
      rw [h.vectors f.name (h.names_eq ▸ hname)]
      exact hlt
    obtain ⟨m, hm, hvec, hkeep, -⟩ := h.wellFormed.update_all hfit.vectorNodup
      (fun f hf hname => h.byteSize hname (hfit.vectors f hf)) hstored
    have hshape := VectorManager.update_sameShape hm
    have hexact : ∀ f ∈ doc.tableFields, e.table.schema.ExactField f := h.schema_eq ▸ hfit.exact
    obtain ⟨row, hrow⟩ : ∃ row, e.table.rows[d]? = some row :=
      ⟨_, List.getElem?_eq_getElem (by rw [h.rows]; exact hlt)⟩
    have hsolid : e.table.schema.Solid row := h.schema_eq ▸ h.solid row (List.mem_of_getElem? hrow)
    obtain ⟨row', hupdate, hsolid', hvals, hother⟩ := update_exact hrow hsolid hfit.nodup hexact
      (h.schema_eq ▸ hfit.sameType)
    obtain ⟨ops, hops⟩ := InStep.update_writes hm hexact hupdate
    have hset : (e.table.rows.set d row')[d]? = some row' :=
      List.getElem?_set_self (by rw [h.rows]; exact hlt)
    have hrest : ∀ i, i ≠ d → (e.table.rows.set d row')[i]? = e.table.rows[i]? :=
      fun i hi => List.getElem?_set_ne (Ne.symm hi)
    refine ⟨_, hops, ?_⟩
    rw [if_pos rfl]
    refine ⟨h.schema_eq, h.shape.trans hshape, h.wellFormed.update hm,
      (List.length_set).trans h.rows, fun name hname => (hkeep name).1.trans (h.vectors name hname),
      fun r hr => ?_, fun k d' hd' => ?_, fun key hkey' d' hd' => ?_, fun key hkey' hnone => ?_⟩
    · cases List.mem_or_eq_of_mem_set hr with
      | inl hr => exact h.solid r hr
      | inr hr => exact hr ▸ h.schema_eq ▸ hsolid'
    · obtain ⟨hlt', key, hkeyK', hid', hrow'⟩ := h.mapped k d' hd'
      refine ⟨hlt', key, hkeyK', hid', ?_⟩
      by_cases heq : d' = d
      · subst heq
        obtain rfl : key = doc.key := Option.some.inj (hrow'.symm.trans hrowKey)
        exact rowKey_set hrow (fun f hf => (hexact f hf).mem_names) hvals hother hfit.keyField
          hrowKey
      · rw [← hrow']
        exact rowKey_congr (t := e.table) rfl (hrest d' heq)
    · by_cases heq : key = doc.key
      · subst heq
        obtain rfl : d' = d := Option.some.inj (hd'.symm.trans hd)
        refine ⟨doc, record_self doc accepted, fun f hf => ⟨(hexact f hf).mem_names, ?_⟩,
          fun f hf hname => hvec f hf (hshape.names ▸ hname)⟩
        rw [InStep.getFieldRawValue_eq hset]
        exact hvals f hf
      · obtain ⟨doc', hacc, hstands⟩ := h.current key hkey' d' hd'
        have hne : d' ≠ d := by
          intro hdd
          rw [hdd] at hd'
          exact heq (hinj hkey' hkey (h.keys_inj hd' hd))
        exact ⟨doc', (record_of_ne heq accepted).trans hacc, stands_congr (e := e) rfl
          (hrest d' hne) hshape.names (fun name _ => (hkeep name).2 d' hne) hstands⟩
    · have hne : key ≠ doc.key := by
        intro heq
        rw [heq] at hnone
        rw [show e.table.getDocIDByKey keyId doc.key = none from hnone] at hd
        cases hd
      rw [record_of_ne hne]
      exact h.fresh key hkey' hnone

/-! ### Deletions -/

/-- Keys are removed, and taken off the record. -/
theorem removeKeys (h : Recorded keyId K schema infos e (forget keyId e accepted))
    {e' : GammaEngine} (hschema : e'.table.schema = e.table.schema)
    (hrows : e'.table.rows = e.table.rows) (hvec : e'.vecManager = e.vecManager)
    (hmax : e'.maxDocid = e.maxDocid)
    (hkeys : ∀ k d, e'.table.itemToDocid k = some d → e.table.itemToDocid k = some d) :
    Recorded keyId K schema infos e' (forget keyId e' accepted) where
  schema_eq := hschema.trans h.schema_eq
  shape := by rw [hvec]; exact h.shape
  wellFormed := by rw [hvec]; exact h.wellFormed
  rows := by rw [hrows, hmax]; exact h.rows
  vectors := by rw [hvec, hmax]; exact h.vectors
  solid := by rw [hrows]; exact h.solid
  mapped := by
    intro k d hd
    rw [hmax]
    obtain ⟨hlt, key, hkey, hid, hrow⟩ := h.mapped k d (hkeys k d hd)
    exact ⟨hlt, key, hkey, hid, (rowKey_congr hschema (by rw [hrows])).trans hrow⟩
  current := by
    intro key hkey d hd
    obtain ⟨doc, hacc, hstands⟩ := h.current key hkey d (hkeys _ d hd)
    refine ⟨doc, ?_, stands_congr hschema (by rw [hrows]) (by rw [hvec]) (by simp [hvec]) hstands⟩
    have hold : e.table.getDocIDByKey keyId key = some d := hkeys _ d hd
    rw [forget, hold, if_neg (Option.some_ne_none d)] at hacc
    rw [forget, hd, if_neg (Option.some_ne_none d), hacc]
  fresh := by
    intro key _ hnone
    rw [forget, if_pos hnone]

theorem forgetUnmapped (h : Recorded keyId K schema infos e accepted) :
    Recorded keyId K schema infos e (forget keyId e accepted) :=
  { h with
    current := by
      intro key hkey d hd
      rw [forget, hd, if_neg (Option.some_ne_none d)]
      exact h.current key hkey d hd
    fresh := fun key _ hnone => if_pos hnone }

end Recorded

/-! ### The marks -/

namespace Marks

variable {keyId : Bytes → ℤ} {e : GammaEngine} {bits : BitmapManager} {strict : Prop}

theorem start (schema : Schema) (infos : List VectorInfo) :
    Marks strict (create schema infos) (create schema infos).docidsBitmap where
  live := fun d hd => absurd hd (Nat.not_lt_zero d)
  clear_above := fun d _ => by
    rw [create, BitmapManager.test_dump, BitmapManager.test_init]
  clean := (BitmapManager.clean_init initBitmapSize).dump 0 0
  visible := fun _ _ _ h => nomatch h

/-- The keys and the number of documents are all that counts. -/
theorem congr (h : Marks strict e bits) {e' : GammaEngine}
    (hkeys : e'.table.itemToDocid = e.table.itemToDocid) (hmax : e'.maxDocid = e.maxDocid) :
    Marks strict e' bits where
  live := by rw [hkeys, hmax]; exact h.live
  clear_above := by rw [hmax]; exact h.clear_above
  clean := h.clean
  visible := by rw [hkeys]; exact h.visible

theorem grow (h : Marks strict e bits) {bits' : BitmapManager} (hgrow : bits.Grows bits') :
    Marks strict e bits' where
  live := fun d hd hbit => h.live d hd ((hgrow.test h.clean d).symm.trans hbit)
  clear_above := fun d hd => (hgrow.test h.clean d).trans (h.clear_above d hd)
  clean := hgrow.clean h.clean
  visible := fun hs k d hd => (hgrow.test h.clean d).trans (h.visible hs k d hd)

/-- A new document is mapped, and its bit is clear. -/
theorem new (h : Marks strict e bits) {e' : GammaEngine} {k : ℤ} (hk : e.table.itemToDocid k = none)
    (hkeys : e'.table.itemToDocid = insertKey k e.maxDocid e.table.itemToDocid)
    (hmax : e'.maxDocid = e.maxDocid + 1) : Marks strict e' bits where
  live := by
    intro d hd hbit
    rw [hkeys]
    by_cases hlt : d < e.maxDocid
    · obtain ⟨k', hk'⟩ := h.live d hlt hbit
      exact ⟨k', insertKey_of_some hk'⟩
    · obtain rfl : d = e.maxDocid := by omega
      exact ⟨k, by rw [insertKey_apply, if_pos ⟨rfl, hk⟩]⟩
  clear_above := fun d hd => h.clear_above d (by omega)
  clean := h.clean
  visible := by
    intro hs k' d hd
    rw [hkeys] at hd
    cases insertKey_eq_some hd with
    | inl heq => exact h.clear_above d (Nat.le_of_eq heq.symm)
    | inr hold => exact h.visible hs k' d hold

/-- The bit of a document that a key leads to is cleared. -/
theorem unset (h : Marks strict e bits) {k : ℤ} {d : ℕ} (hd : e.table.itemToDocid k = some d) :
    Marks strict e ((bits.unset d).dump d 1) where
  live := by
    intro i hi hbit
    rw [BitmapManager.test_dump, BitmapManager.test_unset] at hbit
    by_cases heq : d = i
    · exact ⟨k, heq ▸ hd⟩
    · rw [if_neg fun hcond => heq hcond.1] at hbit
      exact h.live i hi hbit
  clear_above := by
    intro i hi
    rw [BitmapManager.test_dump, BitmapManager.test_unset]
    split
    · rfl
    · exact h.clear_above i hi
  clean := (h.clean.write d false).dump d 1
  visible := by
    intro hs k' i hi
    rw [BitmapManager.test_dump, BitmapManager.test_unset]
    split
    · rfl
    · exact h.visible hs k' i hi

theorem undelete (h : Marks strict e e.docidsBitmap) {k : ℤ} {d : ℕ}
    (hd : e.table.itemToDocid k = some d) :
    Marks strict (e.undelete d) (e.undelete d).docidsBitmap := by
  unfold GammaEngine.undelete
  split
  · exact (h.unset hd).congr rfl rfl
  · exact h

/-- A document is marked, and the key that leads to it is removed. -/
theorem removeKey (h : Marks strict e e.docidsBitmap) {key : Bytes} {d : ℕ}
    (hinj : ∀ k k', e.table.itemToDocid k = some d → e.table.itemToDocid k' = some d → k = k')
    (hd : e.table.itemToDocid (keyId key) = some d) (hmax : d < e.maxDocid)
    (hsize : d < e.docidsBitmap.size) {e' : GammaEngine}
    (hkeys : e'.table.itemToDocid = Function.update e.table.itemToDocid (keyId key) none)
    (hmax' : e'.maxDocid = e.maxDocid)
    (hbits : e'.docidsBitmap = (e.docidsBitmap.set d).dump d 1) :
    Marks strict e' e'.docidsBitmap := by
  have htest : ∀ i, e'.docidsBitmap.test i = if d = i then true else e.docidsBitmap.test i := by
    intro i
    rw [hbits, BitmapManager.test_dump, BitmapManager.test_set]
    by_cases heq : d = i
    · rw [if_pos ⟨heq, hsize⟩, if_pos heq]
    · rw [if_neg fun hcond => heq hcond.1, if_neg heq]
  refine ⟨fun i hi hbit => ?_, fun i hi => ?_, ?_, fun hs k i hi => ?_⟩
  · rw [htest] at hbit
    split at hbit
    · cases hbit
    · rename_i hne
      obtain ⟨k, hk⟩ := h.live i (hmax' ▸ hi) hbit
      refine ⟨k, ?_⟩
      have hkne : k ≠ keyId key := by
        intro heq
        rw [heq, hd] at hk
        exact hne (Option.some.inj hk)
      rw [hkeys, Function.update_of_ne hkne, hk]
  · have hne : ¬ d = i := by omega
    rw [htest, if_neg hne]
    exact h.clear_above i (hmax' ▸ hi)
  · rw [hbits]
    exact (h.clean.write d true).dump d 1
  · rw [hkeys] at hi
    obtain ⟨-, hno⟩ | ⟨hk, hold⟩ := Lib.of_update_eq hi
    · cases hno
    · have hne : ¬ d = i := fun heq => hk (hinj k _ (heq ▸ hold) hd)
      rw [htest, if_neg hne]
      exact h.visible hs k i hold

/-- A document is marked, and its key stays. -/
theorem mark (h : Marks strict e e.docidsBitmap) (hs : ¬ strict) {d : ℕ} (hmax : d < e.maxDocid) :
    Marks strict (e.markDeleted d) (e.markDeleted d).docidsBitmap where
  live := by
    intro i hi hbit
    apply h.live i hi
    have hbit' : ((e.docidsBitmap.set d).dump d 1).test i = false := hbit
    rw [BitmapManager.test_dump, BitmapManager.test_set] at hbit'
    split at hbit'
    · cases hbit'
    · exact hbit'
  clear_above := by
    intro i hi
    have hi' : e.maxDocid ≤ i := hi
    have hne : ¬ (d = i ∧ d < e.docidsBitmap.size) := fun hcond => by omega
    show ((e.docidsBitmap.set d).dump d 1).test i = false
    rw [BitmapManager.test_dump, BitmapManager.test_set, if_neg hne]
    exact h.clear_above i hi'
  clean := (h.clean.write d true).dump d 1
  visible := fun hs' => absurd hs' hs

end Marks

/-! ### The calls -/

namespace Recorded

variable {keyId : Bytes → ℤ} {K : Set Bytes} {schema : Schema} {infos : List VectorInfo}
  {e : GammaEngine} {accepted : Bytes → Option Doc} {strict : Prop}

/-- `AddOrUpdate` of a document that fits. -/
theorem addOrUpdate (h : Recorded keyId K schema infos e accepted) (hinj : Set.InjOn keyId K)
    (hm : Marks strict e e.docidsBitmap) {doc : Doc} (hkey : doc.key ∈ K)
    (hfit : FitsOp schema infos strict keyId (.addOrUpdate doc) ⟨e, accepted⟩) :
    ∃ r, e.addOrUpdate keyId doc = some r ∧
      Recorded keyId K schema infos r.2 (if r.1 = 0 then record doc accepted else accepted) ∧
      Marks strict r.2 r.2.docidsBitmap := by
  cases hfound : e.table.getDocIDByKey keyId doc.key with
  | none =>
    have hnew : RefusedByTable schema doc ∨ NewFits schema infos doc := by
      rwa [FitsOp, if_pos hfound] at hfit
    cases hnew with
    | inl href => exact ⟨_, addOrUpdate_refused hfound (by rwa [h.schema_eq]), h, hm⟩
    | inr hadd =>
      obtain ⟨r, hr, hzero, hmax, hbits, hkeys, hstep⟩ :=
        h.addOrUpdate_new hinj hkey hfound hadd
      refine ⟨r, hr, by rwa [if_pos hzero], ?_⟩
      rw [hbits]
      exact (hm.grow (.setMaxID _ _)).new hfound hkeys hmax
  | some d =>
    have hupd : ExistingFits schema infos doc := by
      rwa [FitsOp, if_neg (by rw [hfound]; exact Option.some_ne_none d)] at hfit
    obtain ⟨r, hr, hstep⟩ := h.update hinj hkey hfound hupd
    have hframe := update_frame hr
    refine ⟨(if r.1 ≠ 0 then -3 else 0, r.2), ?_, ?_, ?_⟩
    · rw [GammaEngine.addOrUpdate, hfound]
      simp only [hr, Option.map_some]
    · by_cases hzero : r.1 = 0
      · simpa [hzero] using hstep
      · simpa [hzero] using hstep
    · show Marks strict r.2 r.2.docidsBitmap
      rw [hframe.docidsBitmap]
      exact hm.congr hframe.itemToDocid hframe.maxDocid

/-- The loop of `AddOrUpdateDocs` over documents that fit, beside the engine that takes them one by
one. -/
theorem batchRun (hinj : Set.InjOn keyId K) (unset : Bool) {docs : List Doc} {known : Bytes → Prop}
    {st : BatchState} {acc : List Doc} (hsim : Sim keyId K st e acc)
    (h : Recorded keyId K schema infos e (recordAll acc accepted))
    (hm : Marks strict e st.engine.docidsBitmap) (hkeys : ∀ doc ∈ docs, doc.key ∈ K)
    (hknown : ∀ key ∈ K, known key ↔ e.table.getDocIDByKey keyId key ≠ none)
    (hfit : BatchFits schema infos known docs) :
    ∃ st' e' acc', Lib.runOps (batchStep keyId unset) docs st = some st' ∧
      Sim keyId K st' e' acc' ∧ Recorded keyId K schema infos e' (recordAll acc' accepted) ∧
      Marks strict e' st'.engine.docidsBitmap := by
  induction docs generalizing known st e acc with
  | nil => exact ⟨st, e, acc, rfl, hsim, h, hm⟩
  | cons doc docs ih =>
    have hkey := hkeys doc List.mem_cons_self
    have hrest : ∀ d ∈ docs, d.key ∈ K := fun d hd => hkeys d (List.mem_cons_of_mem doc hd)
    obtain ⟨hupd, hadd, hfit⟩ := hfit
    cases hfound : e.table.getDocIDByKey keyId doc.key with
    | none =>
      have hdoc := hadd fun hk => (hknown doc.key hkey).mp hk hfound
      obtain ⟨r, hr, -, hmax, -, hmap, hstep⟩ := h.addOrUpdate_new hinj hkey hfound hdoc
      obtain ⟨-, -, hbatch, hsim'⟩ := hsim.step_new unset hkey hfound (h.addable hdoc) hr
      rw [← InStep.recordAll_append] at hstep
      have hknown' : ∀ key ∈ K, (key = doc.key ∨ known key) ↔
          r.2.table.getDocIDByKey keyId key ≠ none := by
        intro key hk
        rw [InStep.found_insertKey hinj hk hkey hfound hmap, hknown key hk]
      obtain ⟨st', e', acc', hrun, hend⟩ :=
        ih hsim' hstep (hm.new hfound hmap hmax) hrest hknown' hfit
      exact ⟨st', e', acc', by rw [Lib.runOps_cons, hbatch, Option.bind_some, hrun], hend⟩
    | some d =>
      have hsome : e.table.getDocIDByKey keyId doc.key ≠ none := by
        rw [hfound]
        exact Option.some_ne_none d
      have hdoc := hupd ((hknown doc.key hkey).mpr hsome)
      obtain ⟨r, hr, hstep⟩ := h.update hinj hkey hfound hdoc
      obtain ⟨last, st₁, hbatch, hengine, -, hsim'⟩ :=
        hsim.step_existing hinj unset hkey hfound hr
      have hframe := update_frame hr
      rw [← InStep.recordAll_ite] at hstep
      have hm₁ : Marks strict r.2 (runBits st.pending st.engine) :=
        (hm.grow (grows_runBits _ _)).congr hframe.itemToDocid hframe.maxDocid
      have hm' : Marks strict r.2 st₁.engine.docidsBitmap := by
        have hd : (r.2.withMarks last (runBits st.pending st.engine)).table.itemToDocid
            (keyId doc.key) = some d := by
          show r.2.table.itemToDocid (keyId doc.key) = some d
          rw [hframe.itemToDocid]
          exact hfound
        have hwith : Marks strict (r.2.withMarks last (runBits st.pending st.engine))
            (runBits st.pending st.engine) := hm₁.congr rfl rfl
        rw [hengine]
        split
        · refine (hwith.undelete hd).congr ?_ ?_ <;>
          · unfold GammaEngine.undelete
            split <;> rfl
        · exact hm₁
      obtain ⟨st', e', acc', hrun, hend⟩ :=
        ih hsim' hstep hm' hrest (InStep.found_update hr hsome hknown) hfit
      exact ⟨st', e', acc', by rw [Lib.runOps_cons, hbatch, Option.bind_some, hrun], hend⟩

/-- Both overloads of `AddOrUpdateDocs` on documents that fit. -/
theorem addDocs (h : Recorded keyId K schema infos e accepted) (hinj : Set.InjOn keyId K)
    (hm : Marks strict e e.docidsBitmap) (unset : Bool) {docs : List Doc}
    (hkeys : ∀ doc ∈ docs, doc.key ∈ K)
    (hfit : BatchFits schema infos (fun key => e.table.getDocIDByKey keyId key ≠ none) docs)
    (result : BatchResult) :
    ∃ st, GammaEngine.addDocs keyId unset e docs result = some st ∧
      Recorded keyId K schema infos st.engine (recordAll st.accepted accepted) ∧
      Marks strict st.engine st.engine.docidsBitmap := by
  obtain ⟨st, e', acc, hrun, hsim, hstep, hm'⟩ :=
    batchRun hinj unset (sim_init K e result) h hm hkeys (fun _ _ => Iff.rfl) hfit
  obtain ⟨last, hflush⟩ := hsim.flush_eq
  refine ⟨_, by rw [GammaEngine.addDocs, hrun, Option.bind_some, hflush], hstep.withMarks _ _, ?_⟩
  exact (hm'.grow (grows_runBits _ _)).congr rfl rfl

/-- `deleteFromRangeIndex` for all fields is defined. -/
theorem deleteFields_eq (e : GammaEngine) (docid : ℤ) :
    ∃ ops, e.deleteFromRangeIndex docid e.table.schema.fieldMap =
      some { e with fieldOps := e.fieldOps ++ ops } :=
  InStep.deleteFromRangeIndex_names (fun _ hname => List.mem_mergeSort.mp hname) docid

/-- A document is marked, and the key that leads to it removed and forgotten. -/
theorem removeKey (h : Recorded keyId K schema infos e (forget keyId e accepted))
    (hm : Marks strict e e.docidsBitmap) {key : Bytes} {d : ℕ}
    (hd : e.table.getDocIDByKey keyId key = some d) (hsize : d < e.docidsBitmap.size) :
    ∃ e', (((e.markDeleted d).deleteFromRangeIndex d e.table.schema.fieldMap).map fun e' =>
        { e' with table := e'.table.delete keyId key }) = some e' ∧
      Recorded keyId K schema infos e' (forget keyId e' accepted) ∧
      Marks strict e' e'.docidsBitmap ∧ e'.maxDocid = e.maxDocid ∧
      e'.docidsBitmap.size = e.docidsBitmap.size := by
  obtain ⟨ops, hops⟩ := deleteFields_eq (e.markDeleted d) d
  have hmax := (h.mapped _ d hd).1
  refine ⟨{ e.markDeleted d with
    fieldOps := (e.markDeleted d).fieldOps ++ ops
    table := e.table.delete keyId key }, ?_, ?_, ?_, rfl, ?_⟩
  · show ((e.markDeleted d).deleteFromRangeIndex d (e.markDeleted d).table.schema.fieldMap).map _ = _
    rw [hops]
    rfl
  · refine h.removeKeys rfl rfl rfl rfl fun k d' hk => ?_
    exact Table.itemToDocid_of_delete hk
  · exact hm.removeKey (fun k k' => h.keys_inj) hd hmax hsize rfl rfl rfl
  · show ((e.docidsBitmap.set d).dump d 1).size = e.docidsBitmap.size
    rw [BitmapManager.size_dump, BitmapManager.size_set]

/-- `Delete`. -/
theorem delete (h : Recorded keyId K schema infos e accepted) (hm : Marks strict e e.docidsBitmap)
    {key : Bytes}
    (hsize : ∀ d, e.table.getDocIDByKey keyId key = some d → d < e.docidsBitmap.size) :
    ∃ r, e.delete keyId key = some r ∧
      Recorded keyId K schema infos r.2 (forget keyId r.2 accepted) ∧
      Marks strict r.2 r.2.docidsBitmap := by
  cases hfound : e.table.getDocIDByKey keyId key with
  | none => exact ⟨(1, e), by rw [GammaEngine.delete, hfound], h.forgetUnmapped, hm⟩
  | some d =>
    by_cases hdel : e.docidsBitmap.test d = true
    · refine ⟨(2, e), ?_, h.forgetUnmapped, hm⟩
      rw [GammaEngine.delete, hfound]
      simp only [hdel, if_true]
    · obtain ⟨e', he', hrec, hmarks, -⟩ :=
        h.forgetUnmapped.removeKey hm hfound (hsize d hfound)
      obtain ⟨e₁, he₁, rfl⟩ := Option.map_eq_some_iff.mp he'
      refine ⟨(0, _), ?_, hrec, hmarks⟩
      rw [GammaEngine.delete, hfound]
      simp only [hdel, Bool.false_eq_true, if_false, he₁, Option.map_some]

theorem getKeyByDocid_eq (e : GammaEngine) (docid : ℕ) :
    e.getKeyByDocid keyId docid =
      if (docid : ℤ) > e.table.lastDocid then none
      else (e.table.rowKey docid).bind fun key =>
        if e.table.getDocIDByKey keyId key = some docid then some key else none := by
  rw [getKeyByDocid]
  by_cases hlast : (docid : ℤ) > e.table.lastDocid
  · rw [if_pos hlast, if_pos hlast]
  · rw [if_neg hlast, if_neg hlast]
    exact (Option.bind_assoc _ _ _).symm

/-- One document that `DelDocByFilter` has found. -/
theorem deleteFound (h : Recorded keyId K schema infos e (forget keyId e accepted))
    (hm : Marks strict e e.docidsBitmap) {d : ℕ} (hsize : d < e.docidsBitmap.size) :
    ∃ e', GammaEngine.deleteFound keyId d e = some e' ∧
      Recorded keyId K schema infos e' (forget keyId e' accepted) ∧
      Marks strict e' e'.docidsBitmap ∧ e'.docidsBitmap.size = e.docidsBitmap.size := by
  cases hkey : e.getKeyByDocid keyId d with
  | none => exact ⟨e, by rw [GammaEngine.deleteFound, hkey], h, hm, rfl⟩
  | some key =>
    have hd : e.table.getDocIDByKey keyId key = some d := by
      rw [getKeyByDocid_eq] at hkey
      split at hkey
      · cases hkey
      · obtain ⟨key', -, hif⟩ := Option.bind_eq_some_iff.mp hkey
        split at hif
        · rename_i hfound
          cases hif
          exact hfound
        · cases hif
    by_cases hdel : e.docidsBitmap.test d = true
    · refine ⟨e, ?_, h, hm, rfl⟩
      rw [GammaEngine.deleteFound, hkey]
      simp only [hdel, if_true]
    · obtain ⟨e', he', hrec, hmarks, -, hsame⟩ := h.removeKey hm hd hsize
      refine ⟨e', ?_, hrec, hmarks, hsame⟩
      rw [GammaEngine.deleteFound, hkey]
      simp only [hdel, Bool.false_eq_true, if_false]
      exact he'

/-- `DelDocByFilter`. -/
theorem delDocByFilter (h : Recorded keyId K schema infos e accepted)
    (hm : Marks strict e e.docidsBitmap) {docids : List ℕ}
    (hsize : ∀ d ∈ docids, d < e.maxDocid → d < e.docidsBitmap.size) :
    ∃ e', e.delDocByFilter keyId docids = some e' ∧
      Recorded keyId K schema infos e' (forget keyId e' accepted) ∧
      Marks strict e' e'.docidsBitmap := by
  have hall : ∀ d ∈ docids.filter (· < e.maxDocid), d < e.docidsBitmap.size := by
    intro d hd
    obtain ⟨hmem, hlt⟩ := List.mem_filter.mp hd
    exact hsize d hmem (of_decide_eq_true hlt)
  unfold GammaEngine.delDocByFilter
  clear hsize
  replace h := h.forgetUnmapped
  generalize docids.filter (· < e.maxDocid) = found at hall
  induction found generalizing e with
  | nil => exact ⟨e, rfl, h, hm⟩
  | cons d found ih =>
    obtain ⟨e₁, he₁, h₁, hm₁, hsame⟩ := h.deleteFound hm (hall d List.mem_cons_self)
    obtain ⟨e', he', hend⟩ := ih hm₁ h₁ fun i hi => by
      rw [hsame]
      exact hall i (List.mem_cons_of_mem d hi)
    exact ⟨e', by rw [Lib.runOps_cons, he₁, Option.bind_some, he'], hend⟩

/-- `DelDocByQuery` sets bits. -/
theorem delDocByQuery (h : Recorded keyId K schema infos e accepted)
    (hm : Marks strict e e.docidsBitmap) {docids : List ℕ}
    (hdocids : ∀ d ∈ docids, d < e.maxDocid ∧ (strict → e.docidsBitmap.test d = true)) :
    Recorded keyId K schema infos (e.delDocByQuery docids) accepted ∧
      Marks strict (e.delDocByQuery docids) (e.delDocByQuery docids).docidsBitmap := by
  unfold GammaEngine.delDocByQuery
  induction docids generalizing e with
  | nil => exact ⟨h, hm⟩
  | cons d docids ih =>
    obtain ⟨hmax, hset⟩ := hdocids d List.mem_cons_self
    rw [List.foldl_cons]
    split
    · exact ih h hm fun i hi => hdocids i (List.mem_cons_of_mem d hi)
    · rename_i hclear
      have hs : ¬ strict := fun hs => hclear (hset hs)
      have hmarked : Recorded keyId K schema infos (e.markDeleted d) accepted :=
        ⟨h.schema_eq, h.shape, h.wellFormed, h.rows, h.vectors, h.solid, h.mapped,
          fun key hkey d' hd' => by
            obtain ⟨doc, hdoc, hstands⟩ := h.current key hkey d' hd'
            exact ⟨doc, hdoc, hstands.fields, hstands.vectors⟩, h.fresh⟩
      exact ih hmarked (hm.mark hs hmax) fun i hi =>
        ⟨(hdocids i (List.mem_cons_of_mem d hi)).1, fun hs' => absurd hs' hs⟩

theorem addNewField (h : Recorded keyId K schema infos e accepted) (info : FieldInfo) :
    Recorded keyId K schema infos { e with table := e.table.addNewField info } accepted := by
  unfold Table.addNewField
  split
  · exact h
  · split
    · exact h
    · exact ⟨h.schema_eq, h.shape, h.wellFormed, h.rows, h.vectors, h.solid, h.mapped,
        fun key hkey d hd => by
          obtain ⟨doc, hdoc, hstands⟩ := h.current key hkey d hd
          exact ⟨doc, hdoc, hstands.fields, hstands.vectors⟩, h.fresh⟩

/-- **A call that fits** is defined, keeps the record, and keeps the marks. -/
theorem step (hinj : Set.InjOn keyId K) {op : Op} {a : Audited}
    (h : Recorded keyId K schema infos a.engine a.accepted)
    (hm : Marks strict a.engine a.engine.docidsBitmap) (hkeys : ∀ key ∈ op.keys, key ∈ K)
    (hfit : FitsOp schema infos strict keyId op a) :
    ∃ a', stepRecord keyId op a = some a' ∧ Recorded keyId K schema infos a'.engine a'.accepted ∧
      Marks strict a'.engine a'.engine.docidsBitmap := by
  have hdocs : ∀ {docs : List Doc}, (∀ key ∈ docs.map Doc.key, key ∈ K) →
      ∀ doc ∈ docs, doc.key ∈ K := fun hall doc hdoc => hall _ (List.mem_map_of_mem hdoc)
  cases op with
  | addNewField info =>
    have hframe := Bounded.addNewField_frame a.engine.table info
    exact ⟨_, rfl, h.addNewField info, hm.congr hframe.1 rfl⟩
  | addOrUpdate doc =>
    obtain ⟨r, hr, hstep⟩ := h.addOrUpdate hinj hm (hkeys _ (List.mem_singleton.mpr rfl)) hfit
    exact ⟨_, by rw [stepRecord, hr, Option.map_some], hstep⟩
  | addOrUpdateDocs docs result =>
    obtain ⟨st, hst, hstep⟩ := h.addDocs hinj hm true (hdocs hkeys) hfit result
    exact ⟨_, by rw [stepRecord, addOrUpdateDocs, hst, Option.map_some], hstep⟩
  | addOrUpdateDocsWithWords docs result =>
    obtain ⟨st, hst, hstep⟩ := h.addDocs hinj hm false (hdocs hkeys) hfit result
    exact ⟨_, by rw [stepRecord, addOrUpdateDocsWithWords, hst, Option.map_some], hstep⟩
  | delete key =>
    obtain ⟨r, hr, hstep⟩ := h.delete hm hfit
    exact ⟨_, by rw [stepRecord, hr, Option.map_some], hstep⟩
  | delDocByQuery docids => exact ⟨_, rfl, h.delDocByQuery hm hfit⟩
  | delDocByFilter docids =>
    obtain ⟨e', he', hstep⟩ := h.delDocByFilter hm hfit
    exact ⟨_, by rw [stepRecord, he', Option.map_some], hstep⟩

end Recorded

end AwaDB.GammaEngine
