import AwaDB.Engine.Batch

/-!
# Updates that are rejected (`GammaEngine::Update`, `VectorManager::Update`)

`Update` writes the vectors one after the other and stops at the first one that is refused. The row
and the range index come after that, so that a rejected update leaves them alone; the vectors that
were written before stay written.

* `written` lists the writes of a call, `lastWritten` picks the one that a field keeps;
* `getVector_update`: what the readers find afterwards;
* `rejected_iff`: a rejected update changes nothing exactly when what each field keeps is what it had.
-/

namespace AwaDB

namespace RawVector

/-- What a write of `UpdateToStore` leaves at `d` for the readers; `none` when it changes nothing. A
`MemoryRawVector` copies before the length is checked. -/
def lands (v : RawVector) (d : ℕ) (value : Bytes) : Option Bytes :=
  match v.storeType with
  | .mmap =>
    if d < v.file.length ∧ value.length = v.vectorByteSize then some value else none
  | .memoryOnly => if d < v.memory.length then some (value.take v.vectorByteSize) else none

/-- Whether `StorageManager::Update` takes the value. -/
def takes (v : RawVector) (d : ℕ) (value : Bytes) : Bool :=
  decide (d < v.file.length ∧ value.length = v.vectorByteSize)

/-- What a write sees of a store: all but the vectors themselves. -/
structure SameSlots (v v' : RawVector) : Prop where
  kind : v'.kind = v.kind
  file : v'.file.length = v.file.length
  memory : v'.memory.length = v.memory.length
  size : v'.size = v.size

namespace SameSlots

theorem refl (v : RawVector) : SameSlots v v := ⟨rfl, rfl, rfl, rfl⟩

theorem trans {v₁ v₂ v₃ : RawVector} (h : SameSlots v₁ v₂) (h' : SameSlots v₂ v₃) :
    SameSlots v₁ v₃ :=
  ⟨h'.kind.trans h.kind, h'.file.trans h.file, h'.memory.trans h.memory, h'.size.trans h.size⟩

theorem storeType {v v' : RawVector} (h : SameSlots v v') : v'.storeType = v.storeType := by
  have hkind := h.kind
  simp only [RawVector.kind, Prod.mk.injEq] at hkind
  exact hkind.2.2

theorem dimension {v v' : RawVector} (h : SameSlots v v') : v'.dimension = v.dimension := by
  have hkind := h.kind
  simp only [RawVector.kind, Prod.mk.injEq] at hkind
  exact hkind.1

theorem dataSize {v v' : RawVector} (h : SameSlots v v') : v'.dataSize = v.dataSize := by
  have hkind := h.kind
  simp only [RawVector.kind, Prod.mk.injEq] at hkind
  exact hkind.2.1

theorem lands {v v' : RawVector} (h : SameSlots v v') (d : ℕ) (value : Bytes) :
    v'.lands d value = v.lands d value := by
  simp only [RawVector.lands, h.storeType, h.file, h.memory, vectorByteSize_of_kind h.kind]

theorem takes {v v' : RawVector} (h : SameSlots v v') (d : ℕ) (value : Bytes) :
    v'.takes d value = v.takes d value := by
  simp only [RawVector.takes, h.file, vectorByteSize_of_kind h.kind]

end SameSlots

/-- **One write**: whether it is taken, and what the readers find at `d`. -/
theorem updateToStore_spec {v : RawVector} {d : ℕ} {value : Bytes} {r : Bool × RawVector}
    (h : v.updateToStore d value = some r) :
    r.1 = v.takes d value ∧ SameSlots v r.2 ∧ r.2.getVector d = (v.lands d value).or (v.getVector d) := by
  have hneg : ¬ (d : ℤ) < 0 := by omega
  have hnat : (d : ℤ).toNat = d := Int.toNat_natCast d
  have hcond : ∀ w : RawVector, w.file.length = v.file.length →
      w.vectorByteSize = v.vectorByteSize →
        (((d : ℤ) < 0 ∨ (w.file.length : ℤ) ≤ d ∨ value.length ≠ w.vectorByteSize) ↔
          ¬ (d < v.file.length ∧ value.length = v.vectorByteSize)) := by
    intro w hlen hsize
    rw [hlen, hsize]
    omega
  rw [updateToStore] at h
  cases hst : v.storeType with
  | mmap =>
    rw [hst] at h
    cases h
    rw [updateFile]
    by_cases htake : d < v.file.length ∧ value.length = v.vectorByteSize
    · rw [if_neg fun hbad => (hcond v rfl rfl).mp hbad htake]
      refine ⟨(decide_eq_true htake).symm, ⟨rfl, List.length_set, rfl, rfl⟩, ?_⟩
      rw [RawVector.lands, hst]
      dsimp only
      rw [if_pos htake]
      simp only [getVector, hst, hnat]
      exact List.getElem?_set_self htake.1
    · rw [if_pos ((hcond v rfl rfl).mpr htake)]
      refine ⟨(decide_eq_false htake).symm, SameSlots.refl v, ?_⟩
      rw [RawVector.lands, hst]
      dsimp only
      rw [if_neg htake]
      rfl
  | memoryOnly =>
    rw [hst] at h
    dsimp only at h
    rw [if_neg hneg] at h
    cases h
    rw [hnat]
    -- the copy decides what the readers find, whether the file takes the value or not
    have hread : ∀ file : List Bytes,
        ({ v.copyToMem d value with file := file } : RawVector).getVector d =
          (v.lands d value).or (v.getVector d) := by
      intro file
      simp only [getVector, copyToMem, RawVector.lands, hst]
      by_cases hlt : d < v.memory.length
      · rw [List.getElem?_set_self hlt, if_pos hlt]
        rfl
      · rw [if_neg hlt, List.set_eq_of_length_le (Nat.not_lt.mp hlt)]
        rfl
    rw [updateFile]
    by_cases htake : d < v.file.length ∧ value.length = v.vectorByteSize
    · rw [if_neg fun hbad => (hcond (v.copyToMem d value) rfl rfl).mp hbad htake]
      exact ⟨(decide_eq_true htake).symm, ⟨rfl, List.length_set, List.length_set, rfl⟩, hread _⟩
    · rw [if_pos ((hcond (v.copyToMem d value) rfl rfl).mpr htake)]
      exact ⟨(decide_eq_false htake).symm, ⟨rfl, rfl, List.length_set, rfl⟩, hread v.file⟩

end RawVector

namespace VectorManager

/-- The writes of `Update` for document `d`, until a vector is refused. -/
def written (m : VectorManager) (d : ℕ) : List Field → List (String × Bytes)
  | [] => []
  | field :: fields =>
    if field.name ∉ m.names then m.written d fields
    else
      let v := m.raw field.name
      if v.dimension ≠ field.value.length / v.dataSize then []
      else if v.size ≤ d ∨ field.value.length / v.dataSize = 0 then []
      else
        ((v.lands d field.value).toList.map fun x => (field.name, x)) ++
          if v.takes d field.value then m.written d fields else []

/-- The last write of a field. -/
def lastWritten (name : String) : List (String × Bytes) → Option Bytes
  | [] => none
  | w :: writes => (lastWritten name writes).or (if w.1 = name then some w.2 else none)

theorem lastWritten_append (name : String) (ws ws' : List (String × Bytes)) :
    lastWritten name (ws ++ ws') = (lastWritten name ws').or (lastWritten name ws) := by
  induction ws with
  | nil =>
    show lastWritten name ws' = (lastWritten name ws').or none
    rw [Option.or_none]
  | cons w ws ih => rw [List.cons_append, lastWritten, ih, lastWritten, Option.or_assoc]

theorem lastWritten_lands (name other : String) (x : Option Bytes) :
    lastWritten name (x.toList.map fun x => (other, x)) = if other = name then x else none := by
  cases x with
  | none => split <;> rfl
  | some x => rfl

/-- What the writes see of the stores is what it was. -/
theorem written_congr {m m' : VectorManager} (hnames : m'.names = m.names)
    (h : ∀ name, (m.raw name).SameSlots (m'.raw name)) (d : ℕ) (fields : List Field) :
    m'.written d fields = m.written d fields := by
  induction fields with
  | nil => rfl
  | cons f fields ih =>
    simp only [written, hnames, ih, (h f.name).dimension, (h f.name).dataSize, (h f.name).size,
      (h f.name).lands, (h f.name).takes]

/-- **What the readers find after `Update`**: the last write of the field, or what it had. -/
theorem getVector_update {m : VectorManager} {d : ℕ} {fields : List Field} {r : ℤ × VectorManager}
    (h : update d fields m = some r) (name : String) :
    (r.2.raw name).getVector d =
      (lastWritten name (m.written d fields)).or ((m.raw name).getVector d) := by
  induction fields generalizing m with
  | nil =>
    cases h
    rfl
  | cons f fields ih =>
    rw [VectorManager.update] at h
    rw [written]
    by_cases hname : f.name ∈ m.names
    · rw [if_neg (not_not.mpr hname)] at h ⊢
      dsimp only at h ⊢
      by_cases hdim : (m.raw f.name).dimension ≠ f.value.length / (m.raw f.name).dataSize
      · rw [if_pos hdim] at h ⊢
        cases h
        rfl
      rw [if_neg hdim] at h ⊢
      by_cases hrange : (m.raw f.name).size ≤ d ∨ f.value.length / (m.raw f.name).dataSize = 0
      · have hrefused : (m.raw f.name).update d f = some (false, m.raw f.name) := by
          rw [RawVector.update]
          split
          · rfl
          · rw [if_pos (by omega)]
        rw [hrefused] at h
        rw [if_pos hrange]
        cases h
        by_cases heq : name = f.name
        · subst heq
          rw [raw_set_self]
          rfl
        · rw [raw_set_of_ne m heq]
          rfl
      rw [if_neg hrange]
      have hupdate : (m.raw f.name).update d f = (m.raw f.name).updateToStore d f.value := by
        rw [RawVector.update, if_neg (by omega), if_neg (by omega)]
      rw [hupdate] at h
      cases hstore : (m.raw f.name).updateToStore d f.value with
      | none =>
        rw [hstore] at h
        cases h
      | some u =>
        obtain ⟨htakes, hslots, hread⟩ := RawVector.updateToStore_spec hstore
        rw [hstore] at h
        rw [lastWritten_append, lastWritten_lands, Option.or_assoc, ← htakes]
        -- the field that was written, and the others
        have hset : ∀ w : RawVector, w.getVector d = u.2.getVector d →
            ((m.set f.name w).raw name).getVector d =
              (if f.name = name then (m.raw f.name).lands d f.value else none).or
                ((m.raw name).getVector d) := by
          intro w hw
          by_cases heq : f.name = name
          · subst heq
            rw [raw_set_self, if_pos rfl, hw, hread]
          · rw [raw_set_of_ne m (Ne.symm heq), if_neg heq]
            rfl
        obtain ⟨taken, v⟩ := u
        cases taken with
        | false =>
          cases h
          exact hset v rfl
        | true =>
          have hsame : ∀ other, (m.raw other).SameSlots
              ((m.set f.name (v.pushUpdated d)).raw other) := by
            intro other
            by_cases heq : other = f.name
            · subst heq
              rw [raw_set_self]
              exact hslots.trans ⟨rfl, rfl, rfl, rfl⟩
            · rw [raw_set_of_ne m heq]
              exact RawVector.SameSlots.refl _
          have hwritten : (m.set f.name (v.pushUpdated d)).written d fields = m.written d fields :=
            written_congr (names_set m _ _) hsame d fields
          have hrest := ih h
          rw [hwritten, hset (v.pushUpdated d) rfl] at hrest
          exact hrest
    · rw [if_pos hname] at h ⊢
      exact ih h

end VectorManager

namespace GammaEngine

open VectorManager

/-- The row and the vectors of a document, and what was sent to the range index. -/
structure Unchanged (d : ℕ) (e e' : GammaEngine) : Prop where
  table : e'.table = e.table
  vectors : ∀ name ∈ e.vecManager.names,
    (e'.vecManager.raw name).getVector d = (e.vecManager.raw name).getVector d
  rangeIndex : e'.fieldOps = e.fieldOps

/-- **A rejected update.** For every engine, every key that leads to a document and every document
with that key which `AddOrUpdate` rejects: the row, the vectors and the range index are as they were
exactly when the last vector that was written to each field, before one was refused, is the one that
was stored. -/
theorem rejected_iff {keyId : Bytes → ℤ} {e : GammaEngine} {doc : Doc} {d : ℕ}
    {r : ℤ × GammaEngine} (hkey : e.table.getDocIDByKey keyId doc.key = some d)
    (hr : e.addOrUpdate keyId doc = some r) (hret : r.1 ≠ 0) :
    Unchanged d e r.2 ↔ ∀ name ∈ e.vecManager.names, ∀ x,
      lastWritten name (e.vecManager.written d doc.vectorFields) = some x →
        (e.vecManager.raw name).getVector d = some x := by
  rw [addOrUpdate, hkey] at hr
  obtain ⟨u, hu, rfl⟩ := Option.map_eq_some_iff.mp hr
  have hrejected : u.1 ≠ 0 := by
    intro hzero
    rw [if_neg (not_not.mpr hzero)] at hret
    exact hret rfl
  obtain ⟨m, hm, ⟨-, heq⟩ | ⟨hzero, -⟩⟩ := update_cases hu
  · rw [show (if u.1 ≠ 0 then ((-3 : ℤ)) else 0, u.2).2 = u.2 from rfl, heq]
    have hread := getVector_update hm
    constructor
    · intro h name hname x hx
      have hsame := h.vectors name hname
      rw [hread name, hx] at hsame
      exact hsame.symm
    · intro h
      refine ⟨rfl, fun name hname => ?_, rfl⟩
      rw [hread name]
      cases hlast : lastWritten name (e.vecManager.written d doc.vectorFields) with
      | none => rfl
      | some x => exact (h name hname x hlast).symm
  · exact absurd hzero hrejected

/-- Two vector fields of four bytes. -/
def twoVectors : List VectorInfo := [wordVector, ⟨"w", 1, 4, .mmap, true, wordSize_pos⟩]

/-- A document with the key 97 and two vectors. -/
def vectorsDoc (v w : Bytes) : Doc where
  key := [97]
  tableFields := [⟨"_id", [97], .string⟩]
  vectorFields := [⟨"v", v, .vector⟩, ⟨"w", w, .vector⟩]

/-- **The vectors before the refused one are changed**: the second vector is too short, and the first
one is the new one. -/
theorem rejected_changes :
    ¬ ∀ (ops : List Doc) (e : GammaEngine) (doc : Doc) (d : ℕ) (r : ℤ × GammaEngine),
      Lib.runOps (fun doc e => (e.addOrUpdate firstByte doc).map Prod.snd) ops
        (create keySchema twoVectors) = some e →
      e.table.getDocIDByKey firstByte doc.key = some d → e.addOrUpdate firstByte doc = some r →
        r.1 ≠ 0 → Unchanged d e r.2 := by
  intro hall
  have hrun : ((Lib.runOps (fun doc e => (e.addOrUpdate firstByte doc).map Prod.snd)
      [vectorsDoc [0, 0, 0, 0] [0, 0, 0, 0]] (create keySchema twoVectors)).bind fun e =>
        (e.addOrUpdate firstByte (vectorsDoc [1, 0, 0, 0] [1, 0, 0])).map fun r =>
          (e.table.getDocIDByKey firstByte [97], r.1, e.vecManager.names,
            decide ((r.2.vecManager.raw "v").getVector 0 = (e.vecManager.raw "v").getVector 0))) =
      some (some 0, -3, ["v", "w"], false) := by decide +kernel
  obtain ⟨e, he, hrest⟩ := Option.bind_eq_some_iff.mp hrun
  obtain ⟨r, hr, hfacts⟩ := Option.map_eq_some_iff.mp hrest
  simp only [Prod.mk.injEq] at hfacts
  obtain ⟨hkey, hret, hnames, hchanged⟩ := hfacts
  have hsame := hall _ e (vectorsDoc [1, 0, 0, 0] [1, 0, 0]) 0 r he hkey hr (by rw [hret]; decide)
  exact of_decide_eq_false hchanged (hsame.vectors "v" (by rw [hnames]; exact List.mem_cons_self))

/-- The same with the vector that is stored already. -/
theorem rejected_iff_same : ∃ e r, Lib.runOps
    (fun doc e => (e.addOrUpdate firstByte doc).map Prod.snd) [vectorsDoc [0, 0, 0, 0] [0, 0, 0, 0]]
      (create keySchema twoVectors) = some e ∧
    e.addOrUpdate firstByte (vectorsDoc [0, 0, 0, 0] [1, 0, 0]) = some r ∧
      (Unchanged 0 e r.2 ↔ ∀ name ∈ e.vecManager.names, ∀ x,
        lastWritten name (e.vecManager.written 0 (vectorsDoc [0, 0, 0, 0] [1, 0, 0]).vectorFields) =
          some x → (e.vecManager.raw name).getVector 0 = some x) := by
  have hrun : ((Lib.runOps (fun doc e => (e.addOrUpdate firstByte doc).map Prod.snd)
      [vectorsDoc [0, 0, 0, 0] [0, 0, 0, 0]] (create keySchema twoVectors)).bind fun e =>
        (e.addOrUpdate firstByte (vectorsDoc [0, 0, 0, 0] [1, 0, 0])).map fun r =>
          (e.table.getDocIDByKey firstByte [97], r.1)) = some (some 0, -3) := by decide +kernel
  obtain ⟨e, he, hrest⟩ := Option.bind_eq_some_iff.mp hrun
  obtain ⟨r, hr, hfacts⟩ := Option.map_eq_some_iff.mp hrest
  simp only [Prod.mk.injEq] at hfacts
  exact ⟨e, r, he, hr, rejected_iff hfacts.1 hr (by rw [hfacts.2]; decide)⟩

end GammaEngine

end AwaDB
