import AwaDB.Engine.Batch
import AwaDB.Table.Exact

/-!
# Rows, vectors and document ids

The engine takes row `d` and vector `d` for document `d`, but appends to the table and to the vector
store in separate steps. With one vector field:

* `Audited` is an engine together with the last document that was accepted for each key;
* `Aligned` says that rows, vectors and `max_docid_` count the same documents, and that the row and
  the vector of a live key are those of its last accepted document;
* `Fits` is the condition on a call: its documents fit the schema and the vector field, or are
  refused before anything is written;
* `aligned_always`: a run whose calls all fit is defined, and aligned in every state.
-/

namespace AwaDB.GammaEngine

open Table VectorManager Schema

/-! ### The engine and what it accepted -/

/-- An engine, and the last accepted document of each key. -/
structure Audited where
  engine : GammaEngine
  accepted : Bytes → Option Doc

/-- The document was accepted. -/
def record (doc : Doc) (accepted : Bytes → Option Doc) : Bytes → Option Doc :=
  Function.update accepted doc.key (some doc)

theorem record_self (doc : Doc) (accepted : Bytes → Option Doc) :
    record doc accepted doc.key = some doc := by
  rw [record, Function.update_self]

theorem record_of_ne {doc : Doc} {key : Bytes} (h : key ≠ doc.key)
    (accepted : Bytes → Option Doc) : record doc accepted key = accepted key := by
  rw [record, Function.update_of_ne h]

/-- The documents were accepted, in this order. -/
def recordAll (docs : List Doc) (accepted : Bytes → Option Doc) : Bytes → Option Doc :=
  docs.foldl (fun accepted doc => record doc accepted) accepted

/-- The calls that add, update and delete by key. -/
inductive WriteOp where
  | addOrUpdate (doc : Doc)
  | addOrUpdateDocs (docs : List Doc) (result : BatchResult)
  | addOrUpdateDocsWithWords (docs : List Doc) (result : BatchResult)
  | delete (key : Bytes)

/-- The keys that a call names. -/
def WriteOp.keys : WriteOp → List Bytes
  | .addOrUpdate doc => [doc.key]
  | .addOrUpdateDocs docs _ => docs.map Doc.key
  | .addOrUpdateDocsWithWords docs _ => docs.map Doc.key
  | .delete key => [key]

/-- The engine after a call. A document is accepted when it was stored or updated without an
error. -/
def stepWrite (keyId : Bytes → ℤ) : WriteOp → Audited → Option Audited
  | .addOrUpdate doc, a =>
    (a.engine.addOrUpdate keyId doc).map fun r =>
      ⟨r.2, if r.1 = 0 then record doc a.accepted else a.accepted⟩
  | .addOrUpdateDocs docs result, a =>
    (a.engine.addOrUpdateDocs keyId docs result).map fun st =>
      ⟨st.engine, recordAll st.accepted a.accepted⟩
  | .addOrUpdateDocsWithWords docs result, a =>
    (a.engine.addOrUpdateDocsWithWords keyId docs result).map fun st =>
      ⟨st.engine, recordAll st.accepted a.accepted⟩
  | .delete key, a => (a.engine.delete keyId key).map fun r => ⟨r.2, a.accepted⟩

/-- An empty engine with one vector field. -/
def start (schema : Schema) (info : VectorInfo) : Audited where
  engine := create schema [info]
  accepted := fun _ => none

/-- Row `d` and vector `d` hold what the document gives. -/
structure Holds (e : GammaEngine) (name : String) (d : ℕ) (doc : Doc) : Prop where
  fields : ∀ f ∈ doc.tableFields, f.name ∈ e.table.schema.names ∧
    e.table.getFieldRawValue d (e.table.schema.idx f) = some (e.table.schema.cellOf f)
  vector : ∀ f ∈ doc.vectorFields, f.name = name →
    (e.vecManager.raw name).getVector d = some f.value

/-- Rows, vectors and `max_docid_` agree, and so do the documents of the live keys. -/
structure Aligned (keyId : Bytes → ℤ) (K : Set Bytes) (name : String) (a : Audited) : Prop where
  rows : a.engine.table.rows.length = a.engine.maxDocid
  vectors : (a.engine.vecManager.raw name).size = a.engine.maxDocid
  current : ∀ key ∈ K, ∀ d, a.engine.table.getDocIDByKey keyId key = some d →
    a.engine.docidsBitmap.test d = false →
      ∃ doc, a.accepted key = some doc ∧ Holds a.engine name d doc

/-! ### Documents that fit -/

section Fits

variable (schema : Schema) (info : VectorInfo)

/-- A new document that fits: every field once, each value of its field's size, a key, and one
vector of the right size. -/
structure AddFits (doc : Doc) : Prop where
  complete : Complete schema doc
  exact : ∀ f ∈ doc.tableFields, schema.ExactField f
  key : doc.key ≠ []
  vector : ∃ f, doc.vectorFields = [f] ∧ f.name = info.name ∧
    f.value.length = info.dataSize * info.dimension

/-- The vector store refuses the vector of an update before it writes anything. -/
def RefusedCleanly (doc : Doc) : Prop :=
  ∃ f ∈ doc.vectorFields, f.name = info.name ∧
    f.value.length ≠ info.dataSize * info.dimension ∧
      (info.storeType = .mmap ∨ info.dimension ≠ f.value.length / info.dataSize)

/-- An update that fits: any of the fields, each value of its field's size and kind, and a vector
of the right size if there is one. -/
structure UpdateAccepted (doc : Doc) : Prop where
  nodup : (doc.tableFields.map Field.name).Nodup
  exact : ∀ f ∈ doc.tableFields, schema.ExactField f
  sameType : ∀ f ∈ doc.tableFields, schema.SameStringType f
  vector : ∀ f ∈ doc.vectorFields, f.name = info.name →
    f.value.length = info.dataSize * info.dimension

/-- A document with at most one vector for a key that exists. -/
def UpdateFits (doc : Doc) : Prop :=
  doc.vectorFields.length ≤ 1 ∧ (RefusedCleanly info doc ∨ UpdateAccepted schema info doc)

/-- `Table::Add` refuses the document before it writes anything. -/
def RefusedByTable (doc : Doc) : Prop :=
  doc.tableFields.length ≠ schema.attrs.length ∨ doc.key = []

/-- The documents of a batch fit, each as an update if its key is known by its turn, and as a new
document otherwise. -/
def AllFit : (Bytes → Prop) → List Doc → Prop
  | _, [] => True
  | known, doc :: docs =>
    (known doc.key → UpdateFits schema info doc) ∧ (¬ known doc.key → AddFits schema info doc) ∧
      AllFit (fun key => key = doc.key ∨ known key) docs

/-- The documents of a call fit. -/
def Fits (keyId : Bytes → ℤ) : WriteOp → Audited → Prop
  | .addOrUpdate doc, a =>
    if a.engine.table.getDocIDByKey keyId doc.key = none then
      RefusedByTable schema doc ∨ AddFits schema info doc
    else UpdateFits schema info doc
  | .addOrUpdateDocs docs _, a =>
    AllFit schema info (fun key => a.engine.table.getDocIDByKey keyId key ≠ none) docs
  | .addOrUpdateDocsWithWords docs _, a =>
    AllFit schema info (fun key => a.engine.table.getDocIDByKey keyId key ≠ none) docs
  | .delete _, _ => True

end Fits

/-! ### The invariant -/

/-- A new document that the table refuses changes nothing. -/
theorem addOrUpdate_refused {keyId : Bytes → ℤ} {e : GammaEngine} {doc : Doc}
    (hnew : e.table.getDocIDByKey keyId doc.key = none)
    (hdoc : RefusedByTable e.table.schema doc) : e.addOrUpdate keyId doc = some (-2, e) := by
  have hadd : ∃ code : ℤ, code ≠ 0 ∧
      e.table.add keyId doc.key doc.tableFields e.maxDocid = some (code, e.table) := by
    by_cases hlen : doc.tableFields.length ≠ e.table.schema.attrs.length
    · exact ⟨-2, by decide, if_pos hlen⟩
    · cases hdoc with
      | inl hne => exact absurd hne hlen
      | inr hkey => exact ⟨-3, by decide, (if_neg hlen).trans (if_pos hkey)⟩
  obtain ⟨code, hcode, hadd⟩ := hadd
  rw [GammaEngine.addOrUpdate, hnew]
  simp only [hadd, Option.map_some, hcode, ne_eq, not_false_eq_true, if_true]

/-- What holds of an engine and the documents it accepted, the marks apart. -/
structure InStep (keyId : Bytes → ℤ) (K : Set Bytes) (schema : Schema) (info : VectorInfo)
    (e : GammaEngine) (accepted : Bytes → Option Doc) : Prop where
  schema_eq : e.table.schema = schema
  names : e.vecManager.names = [info.name]
  kind : (e.vecManager.raw info.name).kind = (info.dimension, info.dataSize, info.storeType)
  wellFormed : e.vecManager.WellFormed
  rows : e.table.rows.length = e.maxDocid
  vectors : (e.vecManager.raw info.name).size = e.maxDocid
  solid : ∀ row ∈ e.table.rows, schema.Solid row
  keys_lt : ∀ k d, e.table.itemToDocid k = some d → d < e.maxDocid
  keys_inj : ∀ k k' d, e.table.itemToDocid k = some d → e.table.itemToDocid k' = some d → k = k'
  current : ∀ key ∈ K, ∀ d, e.table.getDocIDByKey keyId key = some d →
    ∃ doc, accepted key = some doc ∧ Holds e info.name d doc

namespace InStep

variable {keyId : Bytes → ℤ} {K : Set Bytes} {schema : Schema} {info : VectorInfo}
  {e : GammaEngine} {accepted : Bytes → Option Doc}

theorem aligned (h : InStep keyId K schema info e accepted) :
    Aligned keyId K info.name ⟨e, accepted⟩ where
  rows := h.rows
  vectors := h.vectors
  current := fun key hkey d hd _ => h.current key hkey d hd

theorem start (keyId : Bytes → ℤ) (K : Set Bytes) (schema : Schema) (info : VectorInfo) :
    InStep keyId K schema info (create schema [info]) fun _ => none := by
  have hraw : (VectorManager.create [info]).raw info.name =
      RawVector.create info.dimension info.dataSize info.storeType info.isIndex := by
    simp [VectorManager.create]
  refine ⟨rfl, rfl, ?_, wellFormed_create [info], rfl, ?_, ?_, ?_, ?_, ?_⟩
  · exact congrArg RawVector.kind hraw
  · exact congrArg RawVector.size hraw
  · intro row hrow
    cases hrow
  · intro k d hd
    cases hd
  · intro k k' d hd
    cases hd
  · intro key _ d hd
    cases hd

/-- The marks do not matter. -/
theorem withMarks (h : InStep keyId K schema info e accepted) (last : ℤ) (bits : BitmapManager) :
    InStep keyId K schema info (e.withMarks last bits) accepted :=
  ⟨h.schema_eq, h.names, h.kind, h.wellFormed, h.rows, h.vectors, h.solid, h.keys_lt, h.keys_inj,
    fun key hkey d hd => by
      obtain ⟨doc, hdoc, hholds⟩ := h.current key hkey d hd
      exact ⟨doc, hdoc, hholds.fields, hholds.vector⟩⟩

/-- A document stays as it is when its row and its vector do. -/
theorem holds_congr {e e' : GammaEngine} {name : String} {d : ℕ} {doc : Doc}
    (hschema : e'.table.schema = e.table.schema) (hrow : e'.table.rows[d]? = e.table.rows[d]?)
    (hvec : (e'.vecManager.raw name).getVector d = (e.vecManager.raw name).getVector d)
    (h : Holds e name d doc) : Holds e' name d doc := by
  refine ⟨fun f hf => ?_, fun f hf hname => ?_⟩
  · rw [hschema, getFieldRawValue_congr hrow]
    exact h.fields f hf
  · rw [hvec]
    exact h.vector f hf hname

theorem getFieldRawValue_eq {t : Table} {d : ℕ} {row : Row} (hrow : t.rows[d]? = some row) (i : ℕ) :
    t.getFieldRawValue d i = row[i]? := by
  have hneg : ¬ (d : ℤ) < 0 := by omega
  rw [getFieldRawValue, getRow, if_neg hneg, Int.toNat_natCast, hrow, Option.bind_some]

theorem byteSize (h : InStep keyId K schema info e accepted) :
    (e.vecManager.raw info.name).vectorByteSize = info.dataSize * info.dimension := by
  have hkind := h.kind
  simp only [RawVector.kind, Prod.mk.injEq] at hkind
  rw [RawVector.vectorByteSize, hkind.1, hkind.2.1]

theorem wellFormed_raw (h : InStep keyId K schema info e accepted) :
    (e.vecManager.raw info.name).WellFormed :=
  h.wellFormed info.name (by rw [h.names]; exact List.mem_singleton.mpr rfl)

theorem addable (h : InStep keyId K schema info e accepted) {doc : Doc}
    (hdoc : AddFits schema info doc) : Addable e doc where
  complete := h.schema_eq ▸ hdoc.complete
  key := hdoc.key
  exact := by
    obtain ⟨f, hf, hname, hlen⟩ := hdoc.vector
    intro field hfield _
    rw [hf] at hfield
    rw [List.mem_singleton.mp hfield, hname, h.byteSize, hlen]

/-! ### New documents -/

/-- **A new document that fits** gets the next row and the next vector. -/
theorem added_one (h : InStep keyId K schema info e accepted) (hinj : Set.InjOn keyId K)
    {doc : Doc} (hkey : doc.key ∈ K) (hnew : e.table.getDocIDByKey keyId doc.key = none)
    (hdoc : AddFits schema info doc) {row : Row} (hsolid : schema.Solid row)
    (hvals : ∀ f ∈ doc.tableFields, row[schema.idx f]? = some (schema.cellOf f)) :
    InStep keyId K schema info (added keyId [doc] [row] e) (record doc accepted) := by
  obtain ⟨f, hf, hname, hlen⟩ := hdoc.vector
  have hwf := h.wellFormed_raw
  obtain ⟨v, hv, hsize, hvec, hold⟩ := hwf.add_exact (hlen.trans h.byteSize.symm)
  have hstore : storeAll [doc] e.vecManager = e.vecManager.set info.name v := by
    have hmem : ¬ info.name ∉ e.vecManager.names := by
      rw [h.names]
      exact not_not.mpr (List.mem_singleton.mpr rfl)
    show (addToStore doc.vectorFields e.vecManager).2 = _
    rw [hf, addToStore, hname, if_neg hmem, hv]
    rfl
  have hraw : (storeAll [doc] e.vecManager).raw info.name = v := by rw [hstore, raw_set_self]
  have hkeys : ∀ k d, insertKey (keyId doc.key) e.maxDocid e.table.itemToDocid k = some d →
      k = keyId doc.key ∧ d = e.maxDocid ∨
        k ≠ keyId doc.key ∧ e.table.itemToDocid k = some d :=
    fun _ _ hd => insertKey_cases hnew hd
  refine ⟨h.schema_eq, ?_, ?_, ?_, ?_, ?_, ?_, ?_, ?_, ?_⟩
  · show (storeAll [doc] e.vecManager).names = _
    rw [hstore, names_set, h.names]
  · show ((storeAll [doc] e.vecManager).raw info.name).kind = _
    rw [hraw, RawVector.kind_add hv, h.kind]
  · show (storeAll [doc] e.vecManager).WellFormed
    rw [hstore]
    exact h.wellFormed.set (hwf.add hv)
  · show (e.table.rows ++ [row]).length = e.maxDocid + 1
    rw [List.length_append, h.rows]
    rfl
  · show ((storeAll [doc] e.vecManager).raw info.name).size = e.maxDocid + 1
    rw [hraw, hsize, h.vectors]
  · intro r hr
    cases List.mem_append.mp hr with
    | inl hr => exact h.solid r hr
    | inr hr =>
      rw [List.mem_singleton.mp hr]
      exact hsolid
  · intro k d hd
    show d < e.maxDocid + 1
    cases hkeys k d hd with
    | inl hnew' => omega
    | inr hold' =>
      have := h.keys_lt k d hold'.2
      omega
  · exact fun k k' d hd hd' => insertKey_inj hnew h.keys_lt h.keys_inj hd hd'
  · intro key hkey' d hd
    cases hkeys (keyId key) d hd with
    | inl hk =>
      -- the new document: its row and its vector are the last ones
      have heq : key = doc.key := hinj hkey' hkey hk.1
      subst heq
      refine ⟨doc, record_self doc accepted, fun g hg => ?_, fun g hg _ => ?_⟩
      · have hlast : (e.table.rows ++ [row])[d]? = some row := by
          rw [hk.2, ← h.rows, List.getElem?_concat_length]
        refine ⟨h.schema_eq ▸ hdoc.complete.mem_names hg, ?_⟩
        rw [getFieldRawValue_eq hlast]
        show row[e.table.schema.idx g]? = some (e.table.schema.cellOf g)
        rw [h.schema_eq]
        exact hvals g hg
      · rw [hf] at hg
        show ((storeAll [doc] e.vecManager).raw info.name).getVector d = _
        rw [hraw, hk.2, ← h.vectors, hvec, List.mem_singleton.mp hg]
    | inr hk =>
      obtain ⟨doc', hacc, hholds⟩ := h.current key hkey' d hk.2
      have hne : key ≠ doc.key := fun heq => hk.1 (congrArg keyId heq)
      have hd := h.keys_lt _ d hk.2
      refine ⟨doc', (record_of_ne hne accepted).trans hacc, ?_⟩
      refine holds_congr (e := e) rfl ?_ ?_ hholds
      · exact List.getElem?_append_left (by rw [h.rows]; exact hd)
      · show ((storeAll [doc] e.vecManager).raw info.name).getVector d = _
        rw [hraw]
        exact hold d (by rw [h.vectors]; exact hd)

theorem addOrUpdate_new (h : InStep keyId K schema info e accepted) (hinj : Set.InjOn keyId K)
    {doc : Doc} (hkey : doc.key ∈ K) (hnew : e.table.getDocIDByKey keyId doc.key = none)
    (hdoc : AddFits schema info doc) :
    ∃ r, e.addOrUpdate keyId doc = some r ∧ r.1 = 0 ∧
      r.2.table.itemToDocid = insertKey (keyId doc.key) e.maxDocid e.table.itemToDocid ∧
      InStep keyId K schema info r.2 (record doc accepted) := by
  obtain ⟨row, hrow, hsolid, hvals⟩ := rowOf_exact hdoc.complete hdoc.exact
  have hstep := h.added_one hinj hkey hnew hdoc hsolid hvals
  refine ⟨(0, (added keyId [doc] [row] e).withMarks e.maxDocid
    (e.docidsBitmap.setMaxID (e.maxDocid + 1))), ?_, rfl, rfl, hstep.withMarks _ _⟩
  rw [GammaEngine.addOrUpdate_new keyId hnew (h.addable hdoc), h.schema_eq, hrow]
  rfl

/-! ### Updates -/

/-- An update stops at its first vector if it has another dimension, or another size in a file. -/
theorem update_first_refused {m : VectorManager} {info : VectorInfo} {f : Field} {rest : List Field}
    {d : ℕ} (hmem : f.name ∈ m.names)
    (hkind : (m.raw f.name).kind = (info.dimension, info.dataSize, info.storeType))
    (hd : d < (m.raw f.name).size) (hlen : f.value.length ≠ info.dataSize * info.dimension)
    (hwhere : info.storeType = .mmap ∨ info.dimension ≠ f.value.length / info.dataSize) :
    VectorManager.update d (f :: rest) m = some (-1, m) := by
  simp only [RawVector.kind, Prod.mk.injEq] at hkind
  rw [VectorManager.update, if_neg (not_not.mpr hmem)]
  dsimp only
  rw [hkind.1, hkind.2.1]
  by_cases hdim : info.dimension = f.value.length / info.dataSize
  · have hmmap : info.storeType = .mmap := hwhere.resolve_right (not_not.mpr hdim)
    have hsize : ¬ ((m.raw f.name).size : ℤ) ≤ d := by omega
    have hpos : 0 < info.dimension := Nat.pos_of_mul_pos_left info.byteSize_pos
    have hdiv : ¬ f.value.length / info.dataSize ≤ 0 := by omega
    have hbytes : f.value.length ≠ (m.raw f.name).vectorByteSize := by
      rw [RawVector.vectorByteSize, hkind.1, hkind.2.1]
      exact hlen
    have hfile : (m.raw f.name).updateFile d f.value = (false, m.raw f.name) :=
      if_pos (.inr (.inr hbytes))
    have hupdate : (m.raw f.name).update d f = some (false, m.raw f.name) := by
      rw [RawVector.update, if_neg hsize, hkind.2.1, if_neg hdiv, RawVector.updateToStore,
        hkind.2.2, hmmap, hfile]
    rw [if_neg (not_not.mpr hdim), hupdate]
    show some (-1, m.set f.name (m.raw f.name)) = _
    rw [VectorManager.set, Function.update_eq_self]
  · rw [if_pos hdim]

/-- An update whose vector is refused cleanly leaves the stores as they are. -/
theorem vectors_refused (h : InStep keyId K schema info e accepted) {doc : Doc} {d : ℕ}
    (hd : d < e.maxDocid) (hone : doc.vectorFields.length ≤ 1) (href : RefusedCleanly info doc) :
    VectorManager.update d doc.vectorFields e.vecManager = some (-1, e.vecManager) := by
  obtain ⟨f, hf, hname, hlen, hwhere⟩ := href
  have hfields : doc.vectorFields = [f] := by
    obtain ⟨g, hg⟩ := List.length_eq_one_iff.mp
      (Nat.le_antisymm hone (List.length_pos_of_mem hf))
    rw [hg] at hf ⊢
    rw [List.mem_singleton.mp hf]
  have hmem : f.name ∈ e.vecManager.names := by
    rw [h.names, hname]
    exact List.mem_singleton.mpr rfl
  rw [hfields]
  exact update_first_refused hmem (hname ▸ h.kind) (by rw [hname, h.vectors]; exact hd) hlen hwhere

/-- An update with a vector of the right size, or none, changes that vector only. -/
theorem vectors_updated (h : InStep keyId K schema info e accepted) {doc : Doc} {d : ℕ}
    (hd : d < e.maxDocid) (hone : doc.vectorFields.length ≤ 1)
    (hlen : ∀ f ∈ doc.vectorFields, f.name = info.name →
      f.value.length = info.dataSize * info.dimension) :
    ∃ m, VectorManager.update d doc.vectorFields e.vecManager = some (0, m) ∧
      (m.raw info.name).size = (e.vecManager.raw info.name).size ∧
      (∀ f ∈ doc.vectorFields, f.name = info.name →
        (m.raw info.name).getVector d = some f.value) ∧
      ∀ i, i ≠ d → (m.raw info.name).getVector i = (e.vecManager.raw info.name).getVector i := by
  cases hfields : doc.vectorFields with
  | nil => exact ⟨e.vecManager, rfl, rfl, by simp, fun _ _ => rfl⟩
  | cons f rest =>
    have hrest : rest = [] := by
      rw [hfields, List.length_cons] at hone
      exact List.length_eq_zero_iff.mp (by omega)
    subst hrest
    rw [VectorManager.update, h.names]
    by_cases hname : f.name = info.name
    · have hmem : ¬ f.name ∉ [info.name] := not_not.mpr (List.mem_singleton.mpr hname)
      have hwf := h.wellFormed_raw
      have hsize : f.value.length = (e.vecManager.raw info.name).vectorByteSize := by
        rw [h.byteSize]
        exact hlen f (by rw [hfields]; exact List.mem_singleton.mpr rfl) hname
      obtain ⟨v, hv, hvsize, hvec, hold⟩ := hwf.update_of_lt hsize (by rw [h.vectors]; exact hd)
      obtain ⟨hdim, -⟩ := hwf.div_dataSize hsize
      rw [if_neg hmem, hname]
      dsimp only
      rw [hdim, if_neg (not_not.mpr rfl), hv]
      refine ⟨e.vecManager.set info.name (v.pushUpdated d), rfl, ?_, fun g hg _ => ?_, fun i hi => ?_⟩
      · rw [raw_set_self]
        exact hvsize
      · rw [raw_set_self, List.mem_singleton.mp hg]
        exact hvec
      · rw [raw_set_self]
        exact hold i hi
    · have hmem : f.name ∉ [info.name] := fun hmem => hname (List.mem_singleton.mp hmem)
      rw [if_pos hmem]
      refine ⟨e.vecManager, rfl, rfl, fun g hg hgname => ?_, fun _ _ => rfl⟩
      rw [List.mem_singleton.mp hg] at hgname
      exact absurd hgname hname

/-- The range index is called for the fields of the schema. -/
theorem deleteFromRangeIndex_names {e : GammaEngine} {names : List String}
    (hnames : ∀ name ∈ names, name ∈ e.table.schema.names) (docid : ℤ) :
    ∃ ops, e.deleteFromRangeIndex docid names = some { e with fieldOps := e.fieldOps ++ ops } := by
  have hops : ∃ ops, names.mapM (e.deleteOp docid) = some ops := by
    induction names with
    | nil => exact ⟨[], rfl⟩
    | cons name names ih =>
      obtain ⟨ops, hops⟩ := ih fun n hn => hnames n (List.mem_cons_of_mem name hn)
      have hname : e.table.schema.attrIdx name = some (e.table.schema.names.idxOf name) :=
        if_pos (hnames name List.mem_cons_self)
      have hop : ∃ op, e.deleteOp docid name = some op := by
        rw [deleteOp, hname]
        exact ⟨_, rfl⟩
      obtain ⟨op, hop⟩ := hop
      exact ⟨op :: ops, by simp [hop, hops]⟩
  obtain ⟨ops, hops⟩ := hops
  exact ⟨ops, by rw [deleteFromRangeIndex, hops]; rfl⟩

/-- An update whose vectors are taken rewrites the row, and calls the range index. -/
theorem update_writes {e : GammaEngine} {d : ℕ} {doc : Doc} {m : VectorManager} {row' : Row}
    (hm : VectorManager.update d doc.vectorFields e.vecManager = some (0, m))
    (hexact : ∀ f ∈ doc.tableFields, e.table.schema.ExactField f)
    (hupdate : e.table.update doc.tableFields d =
      some { e.table with rows := e.table.rows.set d row' }) :
    ∃ ops, e.update d doc = some (0, { e with
      vecManager := m
      table := { e.table with rows := e.table.rows.set d row' }
      fieldOps := ops }) := by
  have hnames : ∀ name ∈ doc.tableFields.map Field.name, name ∈ e.table.schema.names := by
    intro name hname
    obtain ⟨f, hf, rfl⟩ := List.mem_map.mp hname
    exact (hexact f hf).mem_names
  obtain ⟨ops, hops⟩ := deleteFromRangeIndex_names (e := { e with vecManager := m }) hnames d
  refine ⟨(e.fieldOps ++ ops) ++ doc.tableFields.map fun f => .add (d : ℤ) f.name, ?_⟩
  rw [GammaEngine.update, hm, Option.bind_some]
  simp only [ne_eq, not_true_eq_false, if_false]
  rw [hops, Option.bind_some]
  simp only [hupdate, Option.map_some]
  rfl

/-- **An update that fits** is refused without a change, or replaces the row and the vector. -/
theorem update (h : InStep keyId K schema info e accepted) (hinj : Set.InjOn keyId K) {doc : Doc}
    (hkey : doc.key ∈ K) {d : ℕ} (hd : e.table.getDocIDByKey keyId doc.key = some d)
    (hdoc : UpdateFits schema info doc) :
    ∃ r, e.update d doc = some r ∧
      InStep keyId K schema info r.2 (if r.1 = 0 then record doc accepted else accepted) := by
  have hlt := h.keys_lt _ d hd
  obtain ⟨hone, href | hfit⟩ := hdoc
  · have hvec := h.vectors_refused hlt hone href
    refine ⟨(-1, e), ?_, ?_⟩
    · rw [GammaEngine.update, hvec]
      rfl
    · exact h
  · obtain ⟨m, hm, hsize, hvec, hold⟩ := h.vectors_updated hlt hone hfit.vector
    have hshape := VectorManager.update_sameShape hm
    have hwf := h.wellFormed.update hm
    have hexact : ∀ f ∈ doc.tableFields, e.table.schema.ExactField f := h.schema_eq ▸ hfit.exact
    obtain ⟨row, hrow⟩ : ∃ row, e.table.rows[d]? = some row :=
      ⟨_, List.getElem?_eq_getElem (by rw [h.rows]; exact hlt)⟩
    have hsolid : e.table.schema.Solid row := h.schema_eq ▸ h.solid row (List.mem_of_getElem? hrow)
    obtain ⟨row', hupdate, hsolid', hvals, -⟩ := update_exact hrow hsolid hfit.nodup hexact
      (h.schema_eq ▸ hfit.sameType)
    obtain ⟨ops, hops⟩ := update_writes hm hexact hupdate
    refine ⟨_, hops, ?_⟩
    rw [if_pos rfl]
    have hset : (e.table.rows.set d row')[d]? = some row' :=
      List.getElem?_set_self (by rw [h.rows]; exact hlt)
    refine ⟨h.schema_eq, hshape.names.trans h.names, (hshape.kind _).trans h.kind, hwf,
      (List.length_set).trans h.rows, hsize.trans h.vectors, fun r hr => ?_, h.keys_lt,
      h.keys_inj, fun key hkey' d' hd' => ?_⟩
    · cases List.mem_or_eq_of_mem_set hr with
      | inl hr => exact h.solid r hr
      | inr hr => exact hr ▸ h.schema_eq ▸ hsolid'
    · by_cases heq : key = doc.key
      · subst heq
        have hsame : d' = d := by
          have hd'' : e.table.getDocIDByKey keyId doc.key = some d' := hd'
          rw [hd] at hd''
          exact (Option.some.inj hd'').symm
        subst hsame
        refine ⟨doc, record_self doc accepted, fun f hf => ⟨(hexact f hf).mem_names, ?_⟩, hvec⟩
        rw [getFieldRawValue_eq hset]
        exact hvals f hf
      · obtain ⟨doc', hacc, hholds⟩ := h.current key hkey' d' hd'
        have hne : d' ≠ d := by
          intro hdd
          rw [hdd] at hd'
          exact heq (hinj hkey' hkey (h.keys_inj _ _ d hd' hd))
        exact ⟨doc', (record_of_ne heq accepted).trans hacc, holds_congr (e := e) rfl
          (List.getElem?_set_ne (Ne.symm hne)) (hold d' hne) hholds⟩

/-- A key that is deleted takes nothing else with it. -/
theorem delete (h : InStep keyId K schema info e accepted) (key : Bytes) :
    ∃ r, e.delete keyId key = some r ∧ InStep keyId K schema info r.2 accepted := by
  cases hfound : e.table.getDocIDByKey keyId key with
  | none => exact ⟨(1, e), by rw [GammaEngine.delete, hfound], h⟩
  | some d =>
    by_cases hdel : e.docidsBitmap.test d = true
    · exact ⟨(2, e), by rw [GammaEngine.delete, hfound]; simp only [hdel, if_true], h⟩
    · have hnames : ∀ name ∈ e.table.schema.fieldMap, name ∈ e.table.schema.names :=
        fun name hname => List.mem_mergeSort.mp hname
      obtain ⟨ops, hops⟩ := deleteFromRangeIndex_names (e := e.markDeleted d) hnames d
      have hkeys : ∀ k d', Function.update e.table.itemToDocid (keyId key) none k = some d' →
          e.table.itemToDocid k = some d' := fun k d' hk => Lib.of_update_none hk
      refine ⟨_, by rw [GammaEngine.delete, hfound]; simp only [hdel, Bool.false_eq_true,
        if_false, hops, Option.map_some]; rfl, ?_⟩
      exact ⟨h.schema_eq, h.names, h.kind, h.wellFormed, h.rows, h.vectors, h.solid,
        fun k d' hk => h.keys_lt k d' (hkeys k d' hk),
        fun k k' d' hk hk' => h.keys_inj k k' d' (hkeys k d' hk) (hkeys k' d' hk'),
        fun key' hkey' d' hd' => by
          obtain ⟨doc, hacc, hholds⟩ := h.current key' hkey' d' (hkeys _ d' hd')
          exact ⟨doc, hacc, hholds.fields, hholds.vector⟩⟩

/-- `AddOrUpdate` of a document that fits. -/
theorem addOrUpdate (h : InStep keyId K schema info e accepted) (hinj : Set.InjOn keyId K)
    {doc : Doc} (hkey : doc.key ∈ K)
    (hfit : Fits schema info keyId (.addOrUpdate doc) ⟨e, accepted⟩) :
    ∃ r, e.addOrUpdate keyId doc = some r ∧
      InStep keyId K schema info r.2 (if r.1 = 0 then record doc accepted else accepted) := by
  cases hfound : e.table.getDocIDByKey keyId doc.key with
  | none =>
    have hnew : RefusedByTable schema doc ∨ AddFits schema info doc := by
      rwa [Fits, if_pos hfound] at hfit
    cases hnew with
    | inl href => exact ⟨_, addOrUpdate_refused hfound (by rwa [h.schema_eq]), h⟩
    | inr hadd =>
      obtain ⟨r, hr, hzero, -, hstep⟩ := h.addOrUpdate_new hinj hkey hfound hadd
      exact ⟨r, hr, by rwa [if_pos hzero]⟩
  | some d =>
    have hupd : UpdateFits schema info doc := by
      rwa [Fits, if_neg (by rw [hfound]; exact Option.some_ne_none d)] at hfit
    obtain ⟨r, hr, hstep⟩ := h.update hinj hkey hfound hupd
    refine ⟨(if r.1 ≠ 0 then -3 else 0, r.2), ?_, ?_⟩
    · rw [GammaEngine.addOrUpdate, hfound]
      simp only [hr, Option.map_some]
    · by_cases hzero : r.1 = 0
      · simpa [hzero] using hstep
      · simpa [hzero] using hstep

/-! ### Batches -/

theorem recordAll_append (docs : List Doc) (doc : Doc) (accepted : Bytes → Option Doc) :
    recordAll (docs ++ [doc]) accepted = record doc (recordAll docs accepted) :=
  List.foldl_append

theorem recordAll_ite (c : Prop) [Decidable c] (docs : List Doc) (doc : Doc)
    (accepted : Bytes → Option Doc) :
    recordAll (if c then docs ++ [doc] else docs) accepted =
      if c then record doc (recordAll docs accepted) else recordAll docs accepted := by
  split
  · exact recordAll_append docs doc accepted
  · rfl

/-- The keys that lead to a document once a new key was inserted. -/
theorem found_insertKey (hinj : Set.InjOn keyId K) {e e' : GammaEngine} {key new : Bytes} {d : ℕ}
    (hkey : key ∈ K) (hnewK : new ∈ K) (hnew : e.table.getDocIDByKey keyId new = none)
    (hmap : e'.table.itemToDocid = insertKey (keyId new) d e.table.itemToDocid) :
    e'.table.getDocIDByKey keyId key ≠ none ↔
      key = new ∨ e.table.getDocIDByKey keyId key ≠ none := by
  have hlookup : e'.table.getDocIDByKey keyId key =
      insertKey (keyId new) d e.table.itemToDocid (keyId key) := by
    rw [getDocIDByKey, hmap]
  rw [hlookup, insertKey_apply]
  by_cases heq : key = new
  · rw [if_pos ⟨congrArg keyId heq, hnew⟩]
    exact iff_of_true (Option.some_ne_none d) (.inl heq)
  · rw [if_neg fun hcond => heq (hinj hkey hnewK hcond.1)]
    exact (or_iff_right heq).symm

/-- The keys that lead to a document once a known one was updated. -/
theorem found_update {known : Bytes → Prop} {d : ℕ} {doc : Doc} {r : ℤ × GammaEngine}
    (hr : e.update d doc = some r) (hsome : e.table.getDocIDByKey keyId doc.key ≠ none)
    (hknown : ∀ key ∈ K, known key ↔ e.table.getDocIDByKey keyId key ≠ none) :
    ∀ key ∈ K, (key = doc.key ∨ known key) ↔ r.2.table.getDocIDByKey keyId key ≠ none := by
  intro key hk
  have hlookup : r.2.table.getDocIDByKey keyId key = e.table.getDocIDByKey keyId key := by
    rw [getDocIDByKey, (update_frame hr).itemToDocid, getDocIDByKey]
  rw [hlookup, hknown key hk]
  exact or_iff_right_of_imp fun heq => heq ▸ hsome

/-- The loop of `AddOrUpdateDocs` over documents that fit, beside the engine that takes them one by
one. -/
theorem batchRun (hinj : Set.InjOn keyId K) (unset : Bool) {docs : List Doc} {known : Bytes → Prop}
    {st : BatchState} {acc : List Doc} (hsim : Sim keyId K st e acc)
    (h : InStep keyId K schema info e (recordAll acc accepted))
    (hkeys : ∀ doc ∈ docs, doc.key ∈ K)
    (hknown : ∀ key ∈ K, known key ↔ e.table.getDocIDByKey keyId key ≠ none)
    (hfit : AllFit schema info known docs) :
    ∃ st' e' acc', Lib.runOps (batchStep keyId unset) docs st = some st' ∧
      Sim keyId K st' e' acc' ∧ InStep keyId K schema info e' (recordAll acc' accepted) := by
  induction docs generalizing known st e acc with
  | nil => exact ⟨st, e, acc, rfl, hsim, h⟩
  | cons doc docs ih =>
    have hkey := hkeys doc List.mem_cons_self
    have hrest : ∀ d ∈ docs, d.key ∈ K := fun d hd => hkeys d (List.mem_cons_of_mem doc hd)
    obtain ⟨hupd, hadd, hfit⟩ := hfit
    cases hfound : e.table.getDocIDByKey keyId doc.key with
    | none =>
      have hdoc := hadd fun hk => (hknown doc.key hkey).mp hk hfound
      obtain ⟨r, hr, -, hmap, hstep⟩ := h.addOrUpdate_new hinj hkey hfound hdoc
      obtain ⟨-, -, hbatch, hsim'⟩ := hsim.step_new unset hkey hfound (h.addable hdoc) hr
      rw [← recordAll_append] at hstep
      have hknown' : ∀ key ∈ K, (key = doc.key ∨ known key) ↔
          r.2.table.getDocIDByKey keyId key ≠ none := by
        intro key hk
        rw [found_insertKey hinj hk hkey hfound hmap, hknown key hk]
      obtain ⟨st', e', acc', hrun, hsim', hstep'⟩ := ih hsim' hstep hrest hknown' hfit
      exact ⟨st', e', acc', by rw [Lib.runOps_cons, hbatch, Option.bind_some, hrun], hsim', hstep'⟩
    | some d =>
      have hsome : e.table.getDocIDByKey keyId doc.key ≠ none := by
        rw [hfound]
        exact Option.some_ne_none d
      have hdoc := hupd ((hknown doc.key hkey).mpr hsome)
      obtain ⟨r, hr, hstep⟩ := h.update hinj hkey hfound hdoc
      obtain ⟨last, st₁, hbatch, -, -, hsim'⟩ := hsim.step_existing hinj unset hkey hfound hr
      rw [← recordAll_ite] at hstep
      obtain ⟨st', e', acc', hrun, hsim', hstep'⟩ :=
        ih hsim' hstep hrest (found_update hr hsome hknown) hfit
      exact ⟨st', e', acc', by rw [Lib.runOps_cons, hbatch, Option.bind_some, hrun], hsim', hstep'⟩

/-- Both overloads of `AddOrUpdateDocs` on documents that fit. -/
theorem addDocs (h : InStep keyId K schema info e accepted) (hinj : Set.InjOn keyId K)
    (unset : Bool) {docs : List Doc} (hkeys : ∀ doc ∈ docs, doc.key ∈ K)
    (hfit : AllFit schema info (fun key => e.table.getDocIDByKey keyId key ≠ none) docs)
    (result : BatchResult) :
    ∃ st, GammaEngine.addDocs keyId unset e docs result = some st ∧
      InStep keyId K schema info st.engine (recordAll st.accepted accepted) := by
  obtain ⟨st, e', acc, hrun, hsim, hstep⟩ :=
    batchRun hinj unset (sim_init K e result) h hkeys (fun _ _ => Iff.rfl) hfit
  obtain ⟨last, hflush⟩ := hsim.flush_eq
  exact ⟨_, by rw [GammaEngine.addDocs, hrun, Option.bind_some, hflush], hstep.withMarks _ _⟩

/-- **A call that fits** is defined and keeps the counts and the documents in step. -/
theorem stepWrite (hinj : Set.InjOn keyId K) {op : WriteOp} {a : Audited}
    (h : InStep keyId K schema info a.engine a.accepted) (hkeys : ∀ key ∈ op.keys, key ∈ K)
    (hfit : Fits schema info keyId op a) :
    ∃ a', GammaEngine.stepWrite keyId op a = some a' ∧
      InStep keyId K schema info a'.engine a'.accepted := by
  have hdocs : ∀ {docs : List Doc}, (∀ key ∈ docs.map Doc.key, key ∈ K) →
      ∀ doc ∈ docs, doc.key ∈ K := fun hall doc hdoc => hall _ (List.mem_map_of_mem hdoc)
  cases op with
  | addOrUpdate doc =>
    obtain ⟨r, hr, hstep⟩ := h.addOrUpdate hinj (hkeys _ (List.mem_singleton.mpr rfl)) hfit
    exact ⟨_, by rw [GammaEngine.stepWrite, hr, Option.map_some], hstep⟩
  | addOrUpdateDocs docs result =>
    obtain ⟨st, hst, hstep⟩ := h.addDocs hinj true (hdocs hkeys) hfit result
    exact ⟨_, by rw [GammaEngine.stepWrite, addOrUpdateDocs, hst, Option.map_some], hstep⟩
  | addOrUpdateDocsWithWords docs result =>
    obtain ⟨st, hst, hstep⟩ := h.addDocs hinj false (hdocs hkeys) hfit result
    exact ⟨_, by rw [GammaEngine.stepWrite, addOrUpdateDocsWithWords, hst, Option.map_some], hstep⟩
  | delete key =>
    obtain ⟨r, hr, hstep⟩ := h.delete key
    exact ⟨_, by rw [GammaEngine.stepWrite, hr, Option.map_some], hstep⟩

end InStep

/-- `byteDoc` with a vector of four bytes fits, new or not. -/
theorem byteDoc_fits (key : UInt8) (vec : Bytes) (hvec : vec.length = 4) :
    AddFits keySchema wordVector (byteDoc key vec) ∧
      UpdateFits keySchema wordVector (byteDoc key vec) := by
  have hexact : ∀ f ∈ (byteDoc key vec).tableFields, keySchema.ExactField f := by
    intro f hf
    rw [List.mem_singleton.mp hf]
    rfl
  have hsame : ∀ f ∈ (byteDoc key vec).tableFields, keySchema.SameStringType f := by
    intro f hf
    rw [List.mem_singleton.mp hf]
    exact iff_of_true rfl rfl
  refine ⟨⟨List.Perm.refl _, hexact, List.cons_ne_nil _ _, _, rfl, rfl, hvec⟩, Nat.le_refl 1,
    .inr ⟨List.nodup_singleton _, hexact, hsame, fun f hf _ => ?_⟩⟩
  rw [List.mem_singleton.mp hf]
  exact hvec

end AwaDB.GammaEngine
