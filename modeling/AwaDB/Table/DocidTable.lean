import AwaDB.Lib.Run
import AwaDB.Table.DocidFieldsMgr

/-!
# The table of the docids (`DocidFieldsMgr` in `table/docid_fields_mgr.cc`)

`docid_fields_map_` is an array that grows, and `Get` has a second form, for some fields at once.

* `put` makes the array twice as long when the docid is beyond it, and copies as many entries as there
  were puts;
* `getList_undefined`: the last loop of `Get` for some fields counts an unsigned index down to zero and
  goes on, so that it has no result for any docid below `size_`;
* `mapOf_iff_noPut`: the manager is a map exactly until the first put.
-/

namespace AwaDB

open Lib

/-- `DocidFieldsMgr` with `capacity_`, the length of `docid_fields_map_`. -/
structure DocidTable where
  mgr : DocidFieldsMgr
  capacity : ℕ

/-- The calls that change it. -/
inductive DocidOp where
  | addField (info : FieldInfo) (fid : ℕ)
  | put (docid : ℕ) (fields : List Field)
deriving DecidableEq, Repr

namespace DocidFieldsMgr

/-- What `Get` of some fields finds for one: nothing, if it is to be erased. A name that is no field
leads to a null pointer. -/
def getOne (m : DocidFieldsMgr) (entry : List (ℕ × ℕ)) (name : String) :
    Option (Option (List MemByte)) :=
  match m.fields name with
  | none => none
  | some c =>
    match find c.id (entry.map Prod.fst) with
    | none => some none
    | some i =>
      some ((entry[i]?).bind fun p =>
        if columnKind c.dataType = none then some [] else (m.values name)[p.2]?)

/-- The first loop, and the places in the list that are to be erased. -/
def getEach (m : DocidFieldsMgr) (entry : List (ℕ × ℕ)) :
    List String → Option (List (String × Option (List MemByte)))
  | [] => some []
  | name :: names =>
    (m.getOne entry name).bind fun value =>
      (m.getEach entry names).map fun rest => (name, value) :: rest

/-- `erasing_iterators`. -/
def erasing (found : List (String × Option (List MemByte))) : List ℕ :=
  (List.range found.length).filter fun i => (found[i]?).all fun r => r.2.isNone

/-- The last loop, `for (uint32_t i = erasing_iterators.size() - 1; i >= 0; i--)`. -/
def eraseLoop (places : List ℕ) : ℕ → ℕ → List (String × Option (List MemByte)) →
    Option (List (String × Option (List MemByte)))
  | 0, _, _ => none
  | fuel + 1, i, found =>
    if 0 ≤ i then
      match places[i]? with
      | none => none
      | some place => eraseLoop places fuel ((i + 2 ^ 32 - 1) % 2 ^ 32) (found.eraseIdx place)
    else some found

/-- `DocidFieldsMgr::Get` of some fields, with a number of rounds for its last loop: the inner `none` is
an error code, the outer one says that it reads where nothing is or does not end. -/
def getList (m : DocidFieldsMgr) (fuel docid : ℕ) (names : List String) :
    Option (Option (List (String × Option (List MemByte)))) :=
  if m.size ≤ docid then some none
  else
    (m.entries docid).bind fun entry =>
      (m.getEach entry names).bind fun found =>
        (eraseLoop (erasing found) fuel (((erasing found).length + 2 ^ 32 - 1) % 2 ^ 32) found).map some

end DocidFieldsMgr

namespace DocidTable

open DocidFieldsMgr

/-- `Init` in a new directory. -/
def create (blockDocsNum : ℕ) : DocidTable := ⟨DocidFieldsMgr.create, blockDocsNum⟩

/-- The array when a docid is put: it is copied once, as far as `size_`. To copy beyond the old array is
undefined. -/
def grow (docid : ℕ) (t : DocidTable) : Option DocidTable :=
  if docid < t.capacity then some t
  else
    let capacity := 2 * t.capacity % 2 ^ 32
    if t.capacity < min t.mgr.size capacity then none
    else
      let entries := fun i => if i < t.mgr.size ∧ i < capacity then t.mgr.entries i else none
      some ⟨{ t.mgr with entries }, capacity⟩

/-- `DocidFieldsMgr::Put`, with its array. -/
def put (docid : ℕ) (fields : List Field) (t : DocidTable) : Option DocidTable :=
  (t.grow docid).bind fun t =>
    if docid < t.capacity then
      (t.mgr.put docid fields).map fun mgr => { t with mgr := { mgr with size := mgr.size % 2 ^ 32 } }
    else none

end DocidTable

/-! ### What was put last -/

/-- The table, and for each docid and name the value that was put last. -/
structure DocidRun where
  table : DocidTable
  last : ℕ → String → Option (List MemByte)

namespace DocidRun

open DocidFieldsMgr

/-- A new table, in which nothing was put. -/
def create (blockDocsNum : ℕ) : DocidRun := ⟨DocidTable.create blockDocsNum, fun _ _ => none⟩

/-- The values after one field was put, if it is known. -/
def putLast (m : DocidFieldsMgr) (docid : ℕ) (last : ℕ → String → Option (List MemByte)) (f : Field) :
    ℕ → String → Option (List MemByte) :=
  if m.containField f.name then
    Function.update last docid (Function.update (last docid) f.name (some (f.value.map some)))
  else last

/-- A call, and what was put last. -/
def step : DocidOp → DocidRun → Option DocidRun
  | .addField info fid, r => some { r with table.mgr := r.table.mgr.addField info fid }
  | .put docid fields, r =>
    (r.table.put docid fields).map fun table =>
      ⟨table, fields.foldl (putLast r.table.mgr docid) r.last⟩

/-- **The manager is a map**: `Get` returns what was put last, and `Get` of some fields agrees with it on
each. -/
structure MapOf (r : DocidRun) : Prop where
  single : ∀ docid name, r.table.mgr.get docid name = r.last docid name
  list : ∀ docid names, ∃ fuel found, r.table.mgr.getList fuel docid names = some found ∧
    ∀ name ∈ names, (found.bind fun l => (l.lookup name).join) = r.table.mgr.get docid name

/-- A put. -/
def IsPut : DocidOp → Prop
  | .put _ _ => True
  | .addField _ _ => False

end DocidRun

namespace DocidFieldsMgr

/-- **The last loop** has no result, whatever is to be erased. -/
theorem eraseLoop_undefined (places : List ℕ) (fuel i : ℕ)
    (found : List (String × Option (List MemByte))) : eraseLoop places fuel i found = none := by
  induction fuel generalizing i found with
  | zero => rfl
  | succ fuel ih =>
    rw [eraseLoop, if_pos (Nat.zero_le i)]
    cases places[i]? with
    | none => rfl
    | some place => exact ih _ _

/-- **`Get` of some fields** has no result for a docid below `size_`. -/
theorem getList_undefined {m : DocidFieldsMgr} {docid : ℕ} (h : docid < m.size) (fuel : ℕ)
    (names : List String) : m.getList fuel docid names = none := by
  rw [getList, if_neg (Nat.not_le.mpr h)]
  cases m.entries docid with
  | none => rfl
  | some entry =>
    rw [Option.bind_some]
    cases m.getEach entry names with
    | none => rfl
    | some found => rw [Option.bind_some, eraseLoop_undefined, Option.map_none]

end DocidFieldsMgr

namespace DocidRun

open DocidFieldsMgr

variable {r r' : DocidRun}

/-- The entries are not looked at. -/
theorem mapOf_of_size (hsize : r.table.mgr.size = 0) (hlast : ∀ docid name, r.last docid name = none) :
    r.MapOf := by
  have hget : ∀ docid name, r.table.mgr.get docid name = none := by
    intro docid name
    rw [DocidFieldsMgr.get, hsize, if_pos (Nat.zero_le docid)]
  refine ⟨fun docid name => (hget docid name).trans (hlast docid name).symm, fun docid names => ?_⟩
  refine ⟨0, none, ?_, fun name _ => (hget docid name).symm⟩
  rw [getList, hsize, if_pos (Nat.zero_le docid)]

theorem not_mapOf (hsize : 0 < r.table.mgr.size) : ¬ r.MapOf := by
  intro h
  obtain ⟨fuel, found, hlist, -⟩ := h.list 0 []
  rw [getList_undefined hsize] at hlist
  cases hlist

theorem size_addField (m : DocidFieldsMgr) (info : FieldInfo) (fid : ℕ) :
    (m.addField info fid).size = m.size := by
  rw [DocidFieldsMgr.addField]
  split <;> rfl

/-- The first put counts. -/
theorem size_put {docid : ℕ} {fields : List Field} (hsize : r.table.mgr.size = 0)
    (hput : step (.put docid fields) r = some r') : r'.table.mgr.size = 1 := by
  obtain ⟨table, htable, rfl⟩ := Option.map_eq_some_iff.mp hput
  obtain ⟨grown, hgrow, htable⟩ := Option.bind_eq_some_iff.mp htable
  have hgrown : grown.mgr.size = 0 := by
    rw [DocidTable.grow] at hgrow
    split at hgrow
    · cases hgrow
      exact hsize
    · dsimp only at hgrow
      split at hgrow
      · cases hgrow
      · cases hgrow
        exact hsize
  split at htable
  · obtain ⟨mgr, hmgr, rfl⟩ := Option.map_eq_some_iff.mp htable
    obtain ⟨_, -, rfl⟩ := Option.map_eq_some_iff.mp hmgr
    show (grown.mgr.size + 1) % 2 ^ 32 = 1
    rw [hgrown]
    rfl
  · cases htable

/-- **The manager is a map exactly until the first put.** -/
theorem mapOf_iff_noPut (blockDocsNum : ℕ) (ops : List DocidOp) :
    (∃ r, runOps step ops (create blockDocsNum) = some r) ∧
      Always step MapOf ops (create blockDocsNum) ↔ ∀ op ∈ ops, ¬ IsPut op := by
  have hempty : ∀ {r : DocidRun}, r.table.mgr.size = 0 → (∀ docid name, r.last docid name = none) →
      ((∃ r', runOps step ops r = some r') ∧ Always step MapOf ops r ↔ ∀ op ∈ ops, ¬ IsPut op) := by
    induction ops with
    | nil =>
      intro r hsize hlast
      exact ⟨fun _ op hop => absurd hop List.not_mem_nil,
        fun _ => ⟨⟨r, rfl⟩, mapOf_of_size hsize hlast⟩⟩
    | cons op ops ih =>
      intro r hsize hlast
      rw [List.forall_mem_cons]
      cases op with
      | addField info fid =>
        have hnext := ih (r := { r with table.mgr := r.table.mgr.addField info fid })
          ((size_addField _ info fid).trans hsize) hlast
        constructor
        · rintro ⟨hrun, halways⟩
          exact ⟨id, hnext.mp ⟨hrun, halways.2 _ rfl⟩⟩
        · rintro ⟨-, hops⟩
          obtain ⟨hrun, halways⟩ := hnext.mpr hops
          refine ⟨hrun, mapOf_of_size hsize hlast, fun r' hr' => ?_⟩
          cases hr'
          exact halways
      | put docid fields =>
        constructor
        · rintro ⟨⟨r', hrun⟩, halways⟩
          obtain ⟨r₁, hput, -⟩ := Option.bind_eq_some_iff.mp hrun
          have hone : 0 < r₁.table.mgr.size := by
            rw [size_put hsize hput]
            exact Nat.one_pos
          exact absurd (halways.2 r₁ hput).here (not_mapOf hone)
        · rintro ⟨hnot, -⟩
          exact absurd trivial hnot
  exact hempty rfl fun _ _ => rfl

/-- A field is added, and a value is put. -/
theorem mapOf_not : ¬ ∀ (blockDocsNum : ℕ) (ops : List DocidOp),
    Always step MapOf ops (create blockDocsNum) := by
  intro h
  let ops : List DocidOp :=
    [.addField ⟨"age", .int, false⟩ 0, .put 0 [⟨"age", [7, 0, 0, 0], .int⟩]]
  have hlast := (h 1 ops).last rfl
  exact not_mapOf (by decide) hlast

end DocidRun

end AwaDB
