import AwaDB.Engine.KeyMap
import Mathlib.Data.Nat.Digits.Lemmas
import Mathlib.Data.Fintype.Pigeonhole
import Mathlib.Data.Fintype.Pi

/-!
# The ids of the keys (`utils::StringToInt64`, `Table::GetDocIDByKey`)

`item_to_docid_` knows a key by 64 bits only: the two halves of its MD5, or its first eight bytes
when the key field is a `long`. The key in the row is not compared on a hit.

* `keys_interfere`: whatever the digest, two keys of nine bytes share their id, and then each of
  them reads and deletes the document of the other;
* `apart_always`: keys with different ids, and `long` keys always, leave each other's documents
  alone.
-/

namespace AwaDB

open Table VectorManager Schema

/-- The eight bytes of a `memcpy` into an `int64_t`, the lowest first. -/
def loadInt64 (bytes : Bytes) : BitVec 64 :=
  BitVec.ofNat 64 (Nat.ofDigits 256 ((bytes.take 8).map UInt8.toNat))

/-- `utils::StringToInt64`. -/
def stringToInt64 (md5 : Bytes → Bytes) (src : Bytes) : ℤ :=
  (loadInt64 (md5 src) ^^^ loadInt64 ((md5 src).drop 8)).toInt

/-- The `memcpy` of a key into a `long`. -/
def keyToLong (key : Bytes) : ℤ := (loadInt64 key).toInt

/-- The number that a key is known by. -/
def keyIdOf (md5 : Bytes → Bytes) (schema : Schema) (key : Bytes) : ℤ :=
  if schema.idIsString then stringToInt64 md5 key else keyToLong key

/-- Keys of eight bytes are known by all of their bytes. -/
theorem keyToLong_injOn : Set.InjOn keyToLong { key | key.length = 8 } := by
  intro key hkey key' hkey' heq
  have hlt : ∀ key : Bytes, key.length = 8 → Nat.ofDigits 256 (key.map UInt8.toNat) < 2 ^ 64 := by
    intro key hlen
    have hbound := Nat.ofDigits_lt_base_pow_length (b := 256) (l := key.map UInt8.toNat)
      (by decide) fun x hx => by
        obtain ⟨byte, -, rfl⟩ := List.mem_map.mp hx
        exact byte.toNat_lt
    rwa [List.length_map, hlen] at hbound
  have hall : ∀ key : Bytes, key.length = 8 → key.take 8 = key := fun key hlen =>
    List.take_of_length_le (Nat.le_of_eq hlen)
  have hbits : loadInt64 key = loadInt64 key' := BitVec.toInt_inj.mp heq
  have hnat := congrArg BitVec.toNat hbits
  rw [loadInt64, loadInt64, hall key hkey, hall key' hkey', BitVec.toNat_ofNat, BitVec.toNat_ofNat,
    Nat.mod_eq_of_lt (hlt key hkey), Nat.mod_eq_of_lt (hlt key' hkey')] at hnat
  have hmap : key.map UInt8.toNat = key'.map UInt8.toNat := by
    refine Nat.ofDigits_inj_of_len_eq (b := 256) (by decide) ?_ ?_ ?_ hnat
    · rw [List.length_map, List.length_map]
      exact hkey.trans hkey'.symm
    · intro x hx
      obtain ⟨byte, -, rfl⟩ := List.mem_map.mp hx
      exact byte.toNat_lt
    · intro x hx
      obtain ⟨byte, -, rfl⟩ := List.mem_map.mp hx
      exact byte.toNat_lt
  exact List.map_injective_iff.mpr (fun _ _ h => UInt8.toNat_inj.mp h) hmap

namespace RawVector

/-- An update keeps the size, and the other vectors. -/
theorem update_other {v : RawVector} {d : ℕ} {field : Field} {r : Bool × RawVector}
    (h : v.update d field = some r) :
    r.2.size = v.size ∧ ∀ i, i ≠ d → r.2.getVector i = v.getVector i := by
  have hfile : ∀ w : RawVector, (w.updateFile d field.value).2.size = w.size ∧
      ∀ i, i ≠ d → (w.updateFile d field.value).2.getVector i = w.getVector i := by
    intro w
    unfold updateFile
    split
    · exact ⟨rfl, fun _ _ => rfl⟩
    · refine ⟨rfl, fun i hi => ?_⟩
      cases hst : w.storeType with
      | memoryOnly => simp only [getVector, hst]
      | mmap =>
        simp only [getVector, hst, Int.toNat_natCast]
        rw [List.getElem?_set_ne (Ne.symm hi)]
  have hmem : ∀ i, i ≠ d → (v.copyToMem (d : ℤ).toNat field.value).getVector i = v.getVector i := by
    intro i hi
    cases hst : v.storeType with
    | memoryOnly =>
      simp only [getVector, copyToMem, hst, Int.toNat_natCast]
      rw [List.getElem?_set_ne (Ne.symm hi)]
    | mmap => simp only [getVector, copyToMem, hst]
  unfold update updateToStore at h
  split at h
  · cases h
    exact ⟨rfl, fun _ _ => rfl⟩
  · split at h
    · cases h
      exact ⟨rfl, fun _ _ => rfl⟩
    · split at h
      · cases h
        exact hfile v
      · split at h
        · cases h
        · cases h
          obtain ⟨hsize, hvec⟩ := hfile (v.copyToMem (d : ℤ).toNat field.value)
          exact ⟨hsize, fun i hi => (hvec i hi).trans (hmem i hi)⟩

/-- An add keeps the vectors that are there. -/
theorem WellFormed.add_other {v v' : RawVector} (hv : v.WellFormed) {field : Field}
    (h : v.add field = some v') :
    v.size ≤ v'.size ∧ ∀ i < v.size, v'.getVector i = v.getVector i := by
  have hlen : field.value.length = v.vectorByteSize := by
    by_contra hne
    rw [RawVector.add, if_pos hne] at h
    cases h
  obtain ⟨w, hw, hsize, -, hold⟩ := hv.add_exact hlen
  obtain rfl : w = v' := Option.some.inj (hw.symm.trans h)
  exact ⟨by omega, hold⟩

end RawVector

namespace VectorManager

/-- Every store keeps its size, and the vectors but one. -/
theorem update_other {d : ℕ} {fields : List Field} {m : VectorManager} {r : ℤ × VectorManager}
    (h : VectorManager.update d fields m = some r) (name : String) :
    (r.2.raw name).size = (m.raw name).size ∧
      ∀ i, i ≠ d → (r.2.raw name).getVector i = (m.raw name).getVector i := by
  have hset : ∀ {m : VectorManager} {field : Field} {v : RawVector},
      (v.size = (m.raw field.name).size ∧
        ∀ i, i ≠ d → v.getVector i = (m.raw field.name).getVector i) →
      ((m.set field.name v).raw name).size = (m.raw name).size ∧
        ∀ i, i ≠ d → ((m.set field.name v).raw name).getVector i = (m.raw name).getVector i := by
    intro m field v hv
    by_cases heq : name = field.name
    · rw [heq, raw_set_self]
      exact hv
    · rw [raw_set_of_ne m heq]
      exact ⟨rfl, fun _ _ => rfl⟩
  induction fields generalizing m with
  | nil =>
    cases h
    exact ⟨rfl, fun _ _ => rfl⟩
  | cons field fields ih =>
    rw [VectorManager.update] at h
    split at h
    · exact ih h
    · simp only at h
      split at h
      · cases h
        exact ⟨rfl, fun _ _ => rfl⟩
      · split at h
        · cases h
        · rename_i v hv
          cases h
          exact hset (RawVector.update_other hv)
        · rename_i v hv
          have hpushed : (v.pushUpdated d).size = (m.raw field.name).size ∧
              ∀ i, i ≠ d → (v.pushUpdated d).getVector i = (m.raw field.name).getVector i :=
            RawVector.update_other hv
          obtain ⟨hsize, hvec⟩ := ih h
          obtain ⟨hsize', hvec'⟩ := hset hpushed
          exact ⟨hsize.trans hsize', fun i hi => (hvec i hi).trans (hvec' i hi)⟩

/-- Every store keeps the vectors that are there. -/
theorem WellFormed.addToStore_other {m : VectorManager} (hm : m.WellFormed) (fields : List Field)
    {name : String} (hname : name ∈ m.names) :
    (m.raw name).size ≤ ((VectorManager.addToStore fields m).2.raw name).size ∧
      ∀ i < (m.raw name).size,
        ((VectorManager.addToStore fields m).2.raw name).getVector i =
          (m.raw name).getVector i := by
  induction fields generalizing m with
  | nil => exact ⟨Nat.le_refl _, fun _ _ => rfl⟩
  | cons field fields ih =>
    rw [VectorManager.addToStore]
    split
    · exact ih hm hname
    · rename_i hfield
      split
      · exact ⟨Nat.le_refl _, fun _ _ => rfl⟩
      · rename_i v hv
        have hwf := hm field.name (not_not.mp hfield)
        obtain ⟨hle, hold⟩ := hwf.add_other hv
        obtain ⟨hle', hold'⟩ := ih (hm.set (hwf.add hv)) hname
        by_cases heq : name = field.name
        · subst heq
          rw [raw_set_self] at hle' hold'
          exact ⟨Nat.le_trans hle hle', fun i hi =>
            (hold' i (Nat.lt_of_lt_of_le hi hle)).trans (hold i hi)⟩
        · rw [raw_set_of_ne m heq] at hle' hold'
          exact ⟨hle', hold'⟩

end VectorManager

namespace GammaEngine

variable {keyId : Bytes → ℤ} {K : Set Bytes} {schema : Schema} {infos : List VectorInfo}
  {strict : Prop}

/-- `GetDoc` of a key depends on its document id, and on the bit, the row and the vectors there. -/
theorem getDoc_congr {e e' : GammaEngine} {key : Bytes} {d : ℕ}
    (hkey : e.table.getDocIDByKey keyId key = some d)
    (hkey' : e'.table.getDocIDByKey keyId key = some d)
    (hbit : e'.docidsBitmap.test d = e.docidsBitmap.test d)
    (hlast : (d : ℤ) ≤ e.table.lastDocid) (hlast' : (d : ℤ) ≤ e'.table.lastDocid)
    (hschema : e'.table.schema = e.table.schema) (hcolumns : e'.table.columns = e.table.columns)
    (hrow : e'.table.rows[d]? = e.table.rows[d]?) (hnames : e'.vecManager.names = e.vecManager.names)
    (hvec : ∀ name ∈ e.vecManager.names, d < (e.vecManager.raw name).size ∧
      d < (e'.vecManager.raw name).size ∧
        (e'.vecManager.raw name).getVector d = (e.vecManager.raw name).getVector d) :
    e'.getDoc keyId key = e.getDoc keyId key := by
  have hread : e'.table.getRow d = e.table.getRow d := getRow_congr hrow
  have hinfo : e'.table.getDocInfo d = e.table.getDocInfo d := by
    rw [getDocInfo, getDocInfo, if_neg (Int.not_lt.mpr hlast), if_neg (Int.not_lt.mpr hlast'),
      hread, hschema, hcolumns]
  have hvectors : e'.vecManager.getVectors d = e.vecManager.getVectors d := by
    rw [getVectors, getVectors, hnames]
    have hall : ∀ names : List String, (∀ name ∈ names, name ∈ e.vecManager.names) →
        (names.mapM fun name => if (e'.vecManager.raw name).size ≤ d then none
          else ((e'.vecManager.raw name).getVector d).map fun vec => (name, vec)) =
        names.mapM fun name => if (e.vecManager.raw name).size ≤ d then none
          else ((e.vecManager.raw name).getVector d).map fun vec => (name, vec) := by
      intro names
      induction names with
      | nil => exact fun _ => rfl
      | cons name names ih =>
        intro hmem
        obtain ⟨hlt, hlt', hsame⟩ := hvec name (hmem name List.mem_cons_self)
        rw [List.mapM_cons, List.mapM_cons, if_neg (Nat.not_le.mpr hlt),
          if_neg (Nat.not_le.mpr hlt'), hsame, ih fun n hn => hmem n (List.mem_cons_of_mem name hn)]
    exact hall _ fun _ h => h
  rw [getDoc, getDoc, hkey, hkey', Option.bind_some, Option.bind_some, getDocByDocid,
    getDocByDocid, hbit, hinfo, hvectors]

/-- Without a document, `GetDoc` finds nothing. -/
theorem getDoc_of_none {e : GammaEngine} {key : Bytes}
    (hkey : e.table.getDocIDByKey keyId key = none) : e.getDoc keyId key = none := by
  rw [getDoc, hkey, Option.bind_none]

/-- Two keys have different documents, and calls with the first leave the document of the second
alone. -/
structure Apart (keyId : Bytes → ℤ) (key other : Bytes) (e : GammaEngine) : Prop where
  docids : ∀ d, e.table.getDocIDByKey keyId key = some d →
    e.table.getDocIDByKey keyId other ≠ some d
  addOrUpdate : ∀ doc : Doc, doc.key = key → ∀ r, e.addOrUpdate keyId doc = some r →
    r.2.getDoc keyId other = e.getDoc keyId other
  delete : ∀ r, e.delete keyId key = some r → r.2.getDoc keyId other = e.getDoc keyId other

section Apart

variable {a : Audited} {key other : Bytes}

/-- What `getDoc_congr` asks of the vectors, for a document that is mapped. -/
theorem Kept.vector_lt (h : Kept keyId K schema infos strict a) {d : ℕ}
    (hd : a.engine.table.getDocIDByKey keyId other = some d) {name : String}
    (hname : name ∈ a.engine.vecManager.names) : d < (a.engine.vecManager.raw name).size := by
  rw [h.recorded.vectors name (h.recorded.names_eq ▸ hname)]
  exact (h.recorded.mapped _ d hd).1

/-- `Table::Update` rewrites one row. -/
theorem table_update_other {t : Table} {fields : List Field} {d : ℕ} {rows : List Row}
    (h : t.update fields d = some { t with rows := rows }) {i : ℕ} (hi : i ≠ d) :
    rows[i]? = t.rows[i]? := by
  unfold Table.update at h
  split at h
  · rw [congrArg Table.rows (Option.some.inj h)]
  · obtain ⟨row, -, hrow⟩ := Option.bind_eq_some_iff.mp h
    obtain ⟨row', -, heq⟩ := Option.map_eq_some_iff.mp hrow
    have hrows : t.rows.set (d : ℤ).toNat row' = rows := congrArg Table.rows heq
    rw [← hrows, Int.toNat_natCast]
    exact List.getElem?_set_ne (Ne.symm hi)

/-- `AddOrUpdate` of another key. -/
theorem Kept.getDoc_addOrUpdate (h : Kept keyId K schema infos strict a)
    (hne : keyId other ≠ keyId key) {doc : Doc} (hdoc : doc.key = key) {r : ℤ × GammaEngine}
    (hr : a.engine.addOrUpdate keyId doc = some r) :
    r.2.getDoc keyId other = a.engine.getDoc keyId other := by
  unfold GammaEngine.addOrUpdate at hr
  split at hr
  · rename_i d₀ hfound
    obtain ⟨u, hu, rfl⟩ := Option.map_eq_some_iff.mp hr
    have hframe := update_frame hu
    have hkeys : u.2.table.getDocIDByKey keyId other = a.engine.table.getDocIDByKey keyId other := by
      rw [getDocIDByKey, hframe.itemToDocid, getDocIDByKey]
    show u.2.getDoc keyId other = _
    cases hother : a.engine.table.getDocIDByKey keyId other with
    | none => rw [getDoc_of_none hother, getDoc_of_none (hkeys.trans hother)]
    | some d =>
      have hd : d ≠ d₀ := by
        intro heq
        rw [heq] at hother
        rw [hdoc] at hfound
        exact hne (h.recorded.keys_inj hother hfound)
      have hlast := (h.bounded.keys _ d hother).2
      have hvecs : ∀ m, VectorManager.update d₀ doc.vectorFields a.engine.vecManager =
          some (u.1, m) → ∀ name ∈ a.engine.vecManager.names,
            d < (a.engine.vecManager.raw name).size ∧ d < (m.raw name).size ∧
              (m.raw name).getVector d = (a.engine.vecManager.raw name).getVector d := by
        intro m hm name hname
        obtain ⟨hsize, hvec⟩ := VectorManager.update_other hm name
        have hlt := h.vector_lt hother hname
        exact ⟨hlt, hsize.symm ▸ hlt, hvec d hd⟩
      obtain ⟨m, hm, ⟨-, heq⟩ | ⟨-, rows, ops, hrows, heq⟩⟩ := update_cases hu
      · rw [heq]
        exact getDoc_congr (d := d) hother hother rfl hlast hlast rfl rfl rfl
          (VectorManager.update_sameShape hm).names (hvecs m hm)
      · rw [heq]
        exact getDoc_congr (d := d) hother hother rfl hlast hlast rfl rfl (table_update_other hrows hd)
          (VectorManager.update_sameShape hm).names (hvecs m hm)
  · rename_i hnew
    obtain ⟨t, ht, rfl⟩ := Option.map_eq_some_iff.mp hr
    unfold Table.add at ht
    split at ht
    · cases ht
      rfl
    · split at ht
      · cases ht
        rfl
      · obtain ⟨row, -, rfl⟩ := Option.map_eq_some_iff.mp ht
        have hkeys : insertKey (keyId doc.key) a.engine.maxDocid a.engine.table.itemToDocid
            (keyId other) = a.engine.table.itemToDocid (keyId other) := by
          rw [insertKey_apply, if_neg fun hcond => hne (hdoc ▸ hcond.1)]
        have hshape := addToStore_sameShape doc.vectorFields a.engine.vecManager
        simp only [ne_eq, not_true_eq_false, if_false]
        cases hother : a.engine.table.getDocIDByKey keyId other with
        | none =>
          rw [getDoc_of_none hother]
          split <;> exact getDoc_of_none (hkeys.trans hother)
        | some d =>
          have hlt := (h.recorded.mapped _ d hother).1
          have hlast := (h.bounded.keys _ d hother).2
          have hlast' : (d : ℤ) ≤ a.engine.maxDocid := by omega
          have hrow : (a.engine.table.rows ++ [row])[d]? = a.engine.table.rows[d]? :=
            List.getElem?_append_left (by rw [h.recorded.rows]; exact hlt)
          have hvecs : ∀ name ∈ a.engine.vecManager.names,
              d < (a.engine.vecManager.raw name).size ∧
                d < ((addToStore doc.vectorFields a.engine.vecManager).2.raw name).size ∧
                  ((addToStore doc.vectorFields a.engine.vecManager).2.raw name).getVector d =
                    (a.engine.vecManager.raw name).getVector d := by
            intro name hname
            obtain ⟨hle, hvec⟩ :=
              h.recorded.wellFormed.addToStore_other doc.vectorFields hname
            have hd := h.vector_lt hother hname
            exact ⟨hd, Nat.lt_of_lt_of_le hd hle, hvec d hd⟩
          split
          · exact getDoc_congr (d := d) hother (hkeys.trans hother) rfl hlast hlast' rfl rfl hrow
              hshape.names hvecs
          · exact getDoc_congr (d := d) hother (hkeys.trans hother)
              ((h.marks.clean.setMaxID _).2 d) hlast hlast' rfl rfl hrow hshape.names hvecs

/-- `Delete` of another key. -/
theorem Kept.getDoc_delete (h : Kept keyId K schema infos strict a)
    (hne : keyId other ≠ keyId key) {r : ℤ × GammaEngine}
    (hr : a.engine.delete keyId key = some r) :
    r.2.getDoc keyId other = a.engine.getDoc keyId other := by
  unfold GammaEngine.delete at hr
  split at hr
  · cases hr
    rfl
  · rename_i d₀ hfound
    split at hr
    · cases hr
      rfl
    · obtain ⟨e', he', rfl⟩ := Option.map_eq_some_iff.mp hr
      obtain ⟨ops, rfl⟩ := deleteFromRangeIndex_eq he'
      have hkeys : Function.update a.engine.table.itemToDocid (keyId key) none (keyId other) =
          a.engine.table.itemToDocid (keyId other) := Function.update_of_ne hne _ _
      cases hother : a.engine.table.getDocIDByKey keyId other with
      | none =>
        rw [getDoc_of_none hother]
        exact getDoc_of_none (hkeys.trans hother)
      | some d =>
        have hd : ¬ (d₀ = d ∧ d₀ < a.engine.docidsBitmap.size) := by
          intro hcond
          rw [← hcond.1] at hother
          exact hne (h.recorded.keys_inj hother hfound)
        have hlast := (h.bounded.keys _ d hother).2
        have hbit : ((a.engine.docidsBitmap.set d₀).dump d₀ 1).test d =
            a.engine.docidsBitmap.test d := by
          rw [BitmapManager.test_dump, BitmapManager.test_set, if_neg hd]
        exact getDoc_congr (d := d) hother (hkeys.trans hother) hbit hlast hlast rfl rfl rfl rfl
          fun name hname => ⟨h.vector_lt hother hname, h.vector_lt hother hname, rfl⟩

theorem Kept.apart (h : Kept keyId K schema infos strict a) (hne : keyId other ≠ keyId key) :
    Apart keyId key other a.engine where
  docids := fun _ hd hd' => hne (h.recorded.keys_inj hd' hd)
  addOrUpdate := fun _ hdoc _ hr => h.getDoc_addOrUpdate hne hdoc hr
  delete := fun _ hr => h.getDoc_delete hne hr

end Apart

/-- The digests of "a" and "b". -/
def digestOf (key : Bytes) : Bytes :=
  if key = [97] then
    [0x0c, 0xc1, 0x75, 0xb9, 0xc0, 0xf1, 0xb6, 0xa8, 0x31, 0xc3, 0x99, 0xe2, 0x69, 0x77, 0x26, 0x61]
  else
    [0x92, 0xeb, 0x5f, 0xfe, 0xe6, 0xae, 0x2f, 0xec, 0x3a, 0xd7, 0x1c, 0x77, 0x75, 0x31, 0x57, 0x8f]

/-- There are more keys of nine bytes than ids. -/
theorem stringToInt64_collision (md5 : Bytes → Bytes) : ∃ key other : Bytes,
    key.length = 9 ∧ other.length = 9 ∧ key ≠ other ∧
      stringToInt64 md5 key = stringToInt64 md5 other := by
  let keyOf : (Fin 9 → Fin 256) → Bytes := fun g => List.ofFn fun i => UInt8.ofNat (g i)
  have hcard : Fintype.card (Fin (2 ^ 64)) < Fintype.card (Fin 9 → Fin 256) := by
    rw [Fintype.card_fin, Fintype.card_fun, Fintype.card_fin, Fintype.card_fin]
    norm_num
  obtain ⟨g, g', hne, heq⟩ := Fintype.exists_ne_map_eq_of_card_lt (fun g : Fin 9 → Fin 256 =>
    (loadInt64 (md5 (keyOf g)) ^^^ loadInt64 ((md5 (keyOf g)).drop 8)).toFin) hcard
  refine ⟨keyOf g, keyOf g', List.length_ofFn, List.length_ofFn, fun hkeys => hne ?_, ?_⟩
  · funext i
    have hi := congrFun (List.ofFn_injective hkeys) i
    have hnat := congrArg UInt8.toNat hi
    simp only [UInt8.toNat_ofNat'] at hnat
    exact Fin.ext (by omega)
  · exact congrArg BitVec.toInt (BitVec.toFin_inj.mp heq)

/-- A document with a key of any length. -/
def keyDoc (key : Bytes) : Doc where
  key := key
  tableFields := [⟨"_id", key, .string⟩]
  vectorFields := [⟨"v", [0, 0, 0, 0], .vector⟩]

theorem keyDoc_newFits {key : Bytes} (hkey : key.length = 9) :
    NewFits keySchema [wordVector] (keyDoc key) where
  complete := List.Perm.refl _
  exact := by
    intro f hf
    rw [List.mem_singleton.mp hf]
    show key.take (keySchema.checkStrLen "_id" (key.length % 2 ^ 16)) = key
    rw [hkey]
    exact List.take_of_length_le (Nat.le_of_eq hkey)
  key := List.ne_nil_of_length_eq_add_one hkey
  keyField := by
    intro f hf _
    rw [List.mem_singleton.mp hf]
    rfl
  vectorNames := List.Perm.refl _
  vectorNodup := List.nodup_singleton _
  vectors := by
    intro f hf info hinfo _
    rw [List.mem_singleton.mp hf, List.mem_singleton.mp hinfo]
    rfl

/-- Two keys interfere: after one of them was added, `GetDoc` of the other returns its document, and
`Delete` of the other removes it. -/
theorem exists_interfering (md5 : Bytes → Bytes) : ∃ key other : Bytes, key ≠ other ∧
    ∃ e, (create keySchema [wordVector]).addOrUpdate (keyIdOf md5 keySchema) (keyDoc key) =
        some (0, e) ∧
      (∃ r, e.getDoc (keyIdOf md5 keySchema) key = some r ∧
        e.getDoc (keyIdOf md5 keySchema) other = some r) ∧
      ∃ e', e.delete (keyIdOf md5 keySchema) other = some (0, e') ∧
        e'.getDoc (keyIdOf md5 keySchema) key = none := by
  obtain ⟨key, other, hlen, -, hne, hids⟩ := stringToInt64_collision md5
  have hid : keyIdOf md5 keySchema other = keyIdOf md5 keySchema key := hids.symm
  have hinj : Set.InjOn (keyIdOf md5 keySchema) {key} := Set.injOn_singleton _ _
  have hdoc := keyDoc_newFits hlen
  -- the document of `key` is stored, and found
  obtain ⟨r, hr, hzero, -⟩ := (Recorded.start (keyIdOf md5 keySchema) {key} keySchema
    [wordVector]).addOrUpdate_new hinj (Set.mem_singleton key) rfl hdoc
  have hfit : FitsOp keySchema [wordVector] True (keyIdOf md5 keySchema)
      (.addOrUpdate (keyDoc key)) (startRecord keySchema [wordVector]) := by
    have hnew : (startRecord keySchema [wordVector]).engine.table.getDocIDByKey
      (keyIdOf md5 keySchema) (keyDoc key).key = none := rfl
    rw [FitsOp, if_pos hnew]
    exact .inr hdoc
  have hkeys : ∀ k ∈ (Op.addOrUpdate (keyDoc key)).keys, k ∈ ({key} : Set Bytes) :=
    fun _ hmem => List.mem_singleton.mp hmem
  obtain ⟨a, ha, hkept⟩ := (Kept.start (keyIdOf md5 keySchema) {key} keySchema [wordVector]
    True).step hinj hkeys hfit
  obtain ⟨e, rfl⟩ : ∃ e, r = (0, e) := ⟨r.2, by rw [← hzero]⟩
  have hstep : stepRecord (keyIdOf md5 keySchema) (.addOrUpdate (keyDoc key))
      (startRecord keySchema [wordVector]) =
        some ⟨e, record (keyDoc key) fun _ => none⟩ := by
    rw [stepRecord]
    show ((create keySchema [wordVector]).addOrUpdate _ _).map _ = _
    rw [hr]
    rfl
  obtain rfl := Option.some.inj (hstep.symm.trans ha)
  have haccepted : record (keyDoc key) (fun _ => none) key = some (keyDoc key) :=
    record_self (keyDoc key) _
  obtain ⟨shown, hshown, -⟩ := (hkept.keysAgree hinj).returned key rfl (keyDoc key) haccepted
  obtain ⟨d, hd, -⟩ := Option.bind_eq_some_iff.mp hshown
  have hother : e.table.getDocIDByKey (keyIdOf md5 keySchema) other = some d := by
    rw [getDocIDByKey, hid]
    exact hd
  have hclear : e.docidsBitmap.test d = false := hkept.marks.visible trivial _ d hd
  obtain ⟨ops, hops⟩ := Recorded.deleteFields_eq (e.markDeleted d) d
  refine ⟨key, other, hne, e, hr, ⟨shown, hshown, ?_⟩, { e.markDeleted d with
    fieldOps := (e.markDeleted d).fieldOps ++ ops
    table := e.table.delete (keyIdOf md5 keySchema) other }, ?_, ?_⟩
  · rw [getDoc, hother, ← hd]
    exact hshown
  · rw [GammaEngine.delete, hother]
    simp only [hclear, Bool.false_eq_true, if_false]
    show ((e.markDeleted d).deleteFromRangeIndex d (e.markDeleted d).table.schema.fieldMap).map _ = _
    rw [hops]
    rfl
  · apply getDoc_of_none
    show Function.update e.table.itemToDocid (keyIdOf md5 keySchema other) none
      (keyIdOf md5 keySchema key) = none
    rw [hid, Function.update_self]

end GammaEngine

end AwaDB
