import AwaDB.Engine.Reachable
import AwaDB.Vector.Reload

/-!
# Dump and load (`GammaEngine::Dump`, `GammaEngine::Load`)

A new process opens the files of the old one. The table and the raw vectors are cut to the number of
documents that all of them hold; the keys are entered again from the rows whose bit is clear, in the
order of the document ids; the deleted documents are counted again. The file of the bitmap and that of the
dynamic columns are taken as they are.
-/

namespace AwaDB

namespace Table

/-- `GetFieldRawValue` of the key field, as a string. -/
def rowKey (t : Table) (docid : ℕ) : Option Bytes :=
  ((t.schema.attrIdx "_id").bind (t.getFieldRawValue docid)).bind fun cell =>
    match cell with
    | .fixed bytes => bytes.mapM id
    | .str text => text

/-- One round of the loop in `Table::Load`. -/
def loadKey (keyId : Bytes → ℤ) (bitmap : BitmapManager) (t : Table) (docid : ℕ)
    (m : ℤ → Option ℕ) : Option (ℤ → Option ℕ) :=
  if bitmap.test docid then some m
  else (t.rowKey docid).map fun key => insertKey (keyId key) docid m

/-- `Table::Load` in a new process: only the storage was there before. -/
def load (keyId : Bytes → ℤ) (bitmap : BitmapManager) (t : Table) (num : ℕ) : Option Table :=
  let t := { t with rows := t.rows.take num, phantoms := [] }
  (Lib.runOps (t.loadKey keyId bitmap) (List.range num) fun _ => none).map fun keys =>
    { t with itemToDocid := keys, lastDocid := (num : ℤ) - 1 }

end Table

namespace VectorManager

/-- The smallest of the storage sizes, and of `docNum`. -/
def diskVecNum (m : VectorManager) (docNum : ℕ) : ℕ :=
  m.names.foldl (fun n name => min n (m.raw name).file.length) docNum

/-- `VectorManager::Load` of the raw vectors in a new process. -/
def load (m : VectorManager) (vecNum : ℕ) : VectorManager :=
  { m with raw := fun name =>
      if name ∈ m.names then (m.raw name).reopen.load vecNum else m.raw name }

end VectorManager

namespace GammaEngine

/-- The number of documents that `Load` keeps. -/
def loadNum (e : GammaEngine) : ℕ := e.vecManager.diskVecNum e.table.rows.length

/-- `GetDocsNum`. -/
def getDocsNum (e : GammaEngine) : ℤ := e.maxDocid - e.deleteNum

/-- The calls of `field_range_index_->Add` for every field of every document. -/
def loadOps (e : GammaEngine) (num : ℕ) : List FieldOperate :=
  (List.range num).flatMap fun docid => e.table.schema.names.map fun name => .add docid name

/-- `GammaEngine::Load` in a new process over the files of `e`, when the loaded index covers
`indexNum` vectors. -/
def load (keyId : Bytes → ℤ) (indexNum : ℕ) (e : GammaEngine) : Option GammaEngine :=
  let num := e.loadNum
  let bitmap := BitmapManager.reopen e.docidsBitmap.file initBitmapSize
  if indexNum > num then none
  else
    (e.table.load keyId bitmap num).map fun table =>
      { table := table
        vecManager := e.vecManager.load num
        docidsBitmap := bitmap
        maxDocid := num
        deleteNum := ((List.range num).filter fun docid => bitmap.test docid).length
        fieldOps := e.loadOps num }

/-- The calls, and a dump that is followed by a load. -/
inductive RestartOp where
  | call (op : Op)
  | restart (indexNum : ℕ)

/-- The engine after a call or a restart. -/
def stepRestart (keyId : Bytes → ℤ) : RestartOp → GammaEngine → Option GammaEngine
  | .call op, e => stepOp keyId op e
  | .restart indexNum, e => e.load keyId indexNum

end GammaEngine

/-! ### The keys after a load -/

namespace Table

variable {keyId : Bytes → ℤ} {bitmap : BitmapManager} {t : Table} {num : ℕ} {m : ℤ → Option ℕ}

/-- A loaded key leads to a document that has it and is not deleted. -/
theorem loadKeys_mem {k : ℤ} {d : ℕ}
    (h : Lib.runOps (t.loadKey keyId bitmap) (List.range num) (fun _ => none) = some m)
    (hd : m k = some d) :
    d < num ∧ bitmap.test d = false ∧ ∃ key, t.rowKey d = some key ∧ keyId key = k := by
  induction num generalizing m with
  | zero =>
    cases h
    cases hd
  | succ num ih =>
    rw [List.range_succ, Lib.runOps_append] at h
    obtain ⟨m', hm', hstep⟩ := Option.bind_eq_some_iff.mp h
    have hold : m' k = some d → d < num + 1 ∧ bitmap.test d = false ∧
        ∃ key, t.rowKey d = some key ∧ keyId key = k := by
      intro hd
      obtain ⟨hlt, hrest⟩ := ih hm' hd
      exact ⟨Nat.lt_succ_of_lt hlt, hrest⟩
    rw [Lib.runOps_cons, loadKey] at hstep
    by_cases hbit : bitmap.test num = true
    · rw [if_pos hbit] at hstep
      cases hstep
      exact hold hd
    · rw [if_neg hbit] at hstep
      obtain ⟨m'', hm'', hend⟩ := Option.bind_eq_some_iff.mp hstep
      obtain ⟨key, hkey, rfl⟩ := Option.map_eq_some_iff.mp hm''
      cases hend
      rw [insertKey_apply] at hd
      split at hd
      · rename_i hnew
        cases hd
        exact ⟨Nat.lt_succ_self _, Bool.eq_false_iff.mpr hbit, key, hkey, hnew.1.symm⟩
      · exact hold hd

/-- The key of a document that is not deleted is found. -/
theorem loadKeys_found {d : ℕ} {key : Bytes}
    (h : Lib.runOps (t.loadKey keyId bitmap) (List.range num) (fun _ => none) = some m)
    (hd : d < num) (hbit : bitmap.test d = false) (hkey : t.rowKey d = some key) :
    ∃ d', m (keyId key) = some d' := by
  induction num generalizing m with
  | zero => exact absurd hd (Nat.not_lt_zero d)
  | succ num ih =>
    rw [List.range_succ, Lib.runOps_append] at h
    obtain ⟨m', hm', hstep⟩ := Option.bind_eq_some_iff.mp h
    rw [Lib.runOps_cons, loadKey] at hstep
    by_cases heq : d = num
    · rw [← heq, if_neg (by rw [hbit]; decide), hkey] at hstep
      cases hstep
      show ∃ d', insertKey (keyId key) d m' (keyId key) = some d'
      rw [insertKey_apply]
      cases hfound : m' (keyId key) with
      | none => exact ⟨d, if_pos ⟨rfl, rfl⟩⟩
      | some d' => exact ⟨d', if_neg fun hcond => nomatch hcond.2⟩
    · obtain ⟨d', hd'⟩ := ih hm' (by omega)
      by_cases hlast : bitmap.test num = true
      · rw [if_pos hlast] at hstep
        cases hstep
        exact ⟨d', hd'⟩
      · rw [if_neg hlast] at hstep
        obtain ⟨m'', hm'', hend⟩ := Option.bind_eq_some_iff.mp hstep
        obtain ⟨key', -, rfl⟩ := Option.map_eq_some_iff.mp hm''
        cases hend
        exact ⟨d', insertKey_of_some hd'⟩

/-- The keys can be loaded when every document that is not deleted has one. -/
theorem loadKeys_defined (h : ∀ d < num, bitmap.test d = false → ∃ key, t.rowKey d = some key)
    (m : ℤ → Option ℕ) :
    ∃ m', Lib.runOps (t.loadKey keyId bitmap) (List.range num) m = some m' := by
  induction num with
  | zero => exact ⟨m, rfl⟩
  | succ num ih =>
    obtain ⟨m', hm'⟩ := ih fun d hd => h d (Nat.lt_succ_of_lt hd)
    rw [List.range_succ, Lib.runOps_append, hm', Option.bind_some, Lib.runOps_cons, loadKey]
    by_cases hbit : bitmap.test num = true
    · exact ⟨m', by rw [if_pos hbit]; rfl⟩
    · obtain ⟨key, hkey⟩ := h num (Nat.lt_succ_self num) (Bool.eq_false_iff.mpr hbit)
      exact ⟨_, by rw [if_neg hbit, hkey]; rfl⟩

/-- The table as `Load` finds it. -/
def cut (t : Table) (num : ℕ) : Table := { t with rows := t.rows.take num, phantoms := [] }

end Table

/-- `Load` when the index is not ahead and the keys can be entered. -/
theorem GammaEngine.load_of_keys {keyId : Bytes → ℤ} {e : GammaEngine} {indexNum : ℕ}
    {m : ℤ → Option ℕ} (hindex : indexNum ≤ e.loadNum)
    (hm : Lib.runOps ((e.table.cut e.loadNum).loadKey keyId
      (BitmapManager.reopen e.docidsBitmap.file initBitmapSize)) (List.range e.loadNum)
        (fun _ => none) = some m) :
    e.load keyId indexNum = some
      { table := { e.table.cut e.loadNum with itemToDocid := m, lastDocid := (e.loadNum : ℤ) - 1 }
        vecManager := e.vecManager.load e.loadNum
        docidsBitmap := BitmapManager.reopen e.docidsBitmap.file initBitmapSize
        maxDocid := e.loadNum
        deleteNum := ((List.range e.loadNum).filter fun docid =>
          (BitmapManager.reopen e.docidsBitmap.file initBitmapSize).test docid).length
        fieldOps := e.loadOps e.loadNum } := by
  have htable : e.table.load keyId (BitmapManager.reopen e.docidsBitmap.file initBitmapSize)
      e.loadNum = some
        { e.table.cut e.loadNum with itemToDocid := m, lastDocid := (e.loadNum : ℤ) - 1 } := by
    rw [Table.load]
    dsimp only
    rw [show ({ e.table with rows := e.table.rows.take e.loadNum, phantoms := [] } : Table) =
      e.table.cut e.loadNum from rfl, hm]
    rfl
  rw [GammaEngine.load]
  dsimp only
  rw [if_neg (Nat.not_lt.mpr hindex), htable]
  rfl

end AwaDB
