import AwaDB.Lib.Lists
import AwaDB.Lib.Run
import AwaDB.Vector.VIDMgr
import Mathlib.Data.List.Infix
import Mathlib.Data.List.Nodup

/-!
# The vectors of a document (`VIDMgr::Add` and its readers in `vector/raw_vector_common.h`)

The array of a document begins with the number of its vectors, and all readers look for the ids in the
cells behind it. `Add` puts the first id there. It puts each other one at the cell whose index is the
number so far, which is the cell before the one that the readers look at.

* `docID2VID_addAll`: what the readers find after any run;
* `Mapped.mem_iff`: where the lists are right, they are the inverse of `vid2docid_`;
* `rightRun_iff_nodup`: **the mapping is right in every state of a run** exactly when no document is
  given two vectors and every id is inside the tables.
-/

namespace AwaDB

open Lib

namespace VIDMgr

/-! ### The code -/

/-- `utils::NewArray<int>(MAX_VECTOR_NUM_PER_DOC + 1, ...)`: the cells are not initialised. -/
def newArray : List (Option ℕ) := List.replicate (maxVectorNumPerDoc + 1) none

/-- A write to an element; behind the end it is undefined. -/
def store {α : Type*} (l : List α) (i : ℕ) (a : α) : Option (List α) :=
  if i < l.length then some (l.set i a) else none

/-- `vid_list[0]`. -/
def counter (vids : List (Option ℕ)) : Option ℕ := (vids[0]?).join

/-- The branch of `Add` for a document that has an array: the code, and the array. -/
def addVid (vid : ℕ) (vids : List (Option ℕ)) : Option (ℤ × List (Option ℕ)) :=
  (counter vids).bind fun num =>
    if maxVectorNumPerDoc ≤ num then some (-1, vids)
    else
      (store vids num (some vid)).bind fun vids =>
        (counter vids).bind fun num => (store vids 0 (some (num + 1))).map fun vids => (0, vids)

/-- `VIDMgr::Add`: the code, and the manager. Nothing checks an index, so that an id behind a table is
undefined. -/
def add (m : VIDMgr) (vid docid : ℕ) : Option (ℤ × VIDMgr) :=
  if m.multiVids then
    (store m.vid2docid vid (docid : ℤ)).bind fun vid2docid =>
      (m.docid2vid[docid]?).bind fun list =>
        (list.elim
          ((store newArray 0 (some 1)).bind fun vids =>
            (store vids 1 (some vid)).map fun vids => ((0 : ℤ), vids))
          (addVid vid)).map fun r =>
            (r.1, { m with vid2docid, docid2vid := m.docid2vid.set docid (some r.2) })
  else some (0, m)

/-- The array of a document; the readers do not expect the null pointer. -/
def vidList (m : VIDMgr) (docid : ℕ) : Option (List (Option ℕ)) := (m.docid2vid[docid]?).join

/-- `VIDMgr::DocID2VID`. -/
def docID2VID (m : VIDMgr) (docid : ℕ) : Option (List (Option ℕ)) :=
  if m.multiVids then
    (m.vidList docid).bind fun vids =>
      (counter vids).bind fun num => (List.range num).mapM fun i => vids[i + 1]?
  else some [some docid]

/-- `VIDMgr::GetFirstVID`. -/
def getFirstVID (m : VIDMgr) (docid : ℕ) : Option (Option ℤ) :=
  if m.multiVids then
    (m.vidList docid).bind fun vids =>
      (counter vids).bind fun num =>
        if num ≤ 0 then some (some (-1)) else (vids[1]?).map fun cell => cell.map Nat.cast
  else some (some docid)

/-- `VIDMgr::GetLastVID`. -/
def getLastVID (m : VIDMgr) (docid : ℕ) : Option (Option ℤ) :=
  if m.multiVids then
    (m.vidList docid).bind fun vids =>
      (counter vids).bind fun num =>
        if num ≤ 0 then some (some (-1)) else (vids[num]?).map fun cell => cell.map Nat.cast
  else some (some docid)

/-! ### Runs -/

/-- Adds for these documents, one vector each; the ids of the vectors count from `first`. -/
def addAll (first : ℕ) (docids : List ℕ) (m : VIDMgr) : Option VIDMgr :=
  runOps (fun p m => (m.add p.2 p.1).map Prod.snd) (docids.zipIdx first) m

/-- The vectors that were added for a document, in this order. -/
def added (first : ℕ) (docids : List ℕ) (docid : ℕ) : List ℕ :=
  ((docids.zipIdx first).filter fun p => p.1 = docid).map Prod.snd

/-- **The mapping is right** for the vectors that were added. -/
structure Mapped (first : ℕ) (docids : List ℕ) (m : VIDMgr) : Prop where
  lists : ∀ docid ∈ docids, m.docID2VID docid = some ((added first docids docid).map some)
  vids : ∀ p ∈ docids.zipIdx first, m.vid2DocID p.2 = p.1

/-- It is right in every state of the run, and no call changes the list of another document. -/
structure RightRun (maxVectorSize first : ℕ) (docids : List ℕ) : Prop where
  mapped : ∀ ds, ds <+: docids → ∃ m, addAll first ds (init true maxVectorSize) = some m ∧
    Mapped first ds m
  frame : ∀ ds d, ds ++ [d] <+: docids → ∀ m code m',
    addAll first ds (init true maxVectorSize) = some m → m.add (first + ds.length) d = some (code, m') →
    ∀ d', d' ≠ d → m'.docID2VID d' = m.docID2VID d'

/-! ### One array -/

variable {α : Type*}

theorem store_of_lt {l : List α} {i : ℕ} (h : i < l.length) (a : α) : store l i a = some (l.set i a) :=
  if_pos h

theorem store_of_le {l : List α} {i : ℕ} (h : l.length ≤ i) (a : α) : store l i a = none :=
  if_neg (Nat.not_lt.mpr h)

/-- What the readers find of these vectors: the second one takes the place of the first. -/
def kept (vs : List ℕ) : List ℕ :=
  if vs.length ≤ 1 then vs else (vs.drop 1).take (maxVectorNumPerDoc - 1)

/-- The array of a document with these vectors. -/
def cells (vs : List ℕ) : List (Option ℕ) :=
  some (min vs.length maxVectorNumPerDoc) :: ((kept vs).map some).rightpad maxVectorNumPerDoc none

theorem length_kept (vs : List ℕ) :
    (kept vs).length = if vs.length ≤ 1 then vs.length else min (vs.length - 1) 9 := by
  unfold kept
  split
  · rfl
  · rw [List.length_take, List.length_drop, Nat.min_comm]
    rfl

theorem length_cells (vs : List ℕ) : (cells vs).length = maxVectorNumPerDoc + 1 := by
  have hle : (kept vs).length ≤ 10 := by
    rw [length_kept]
    split <;> omega
  rw [cells, List.length_cons, List.rightpad, List.length_append, List.length_replicate,
    List.length_map, maxVectorNumPerDoc]
  omega

/-- Behind the tenth vector the array stays as it is. -/
theorem cells_concat_of_full {vs : List ℕ} (h : maxVectorNumPerDoc ≤ vs.length) (v : ℕ) :
    cells (vs ++ [v]) = cells vs := by
  have hten : 10 ≤ vs.length := h
  have hlen : (vs ++ [v]).length = vs.length + 1 := by simp
  have hkept : kept (vs ++ [v]) = kept vs := by
    rw [kept, kept, if_neg (by omega), if_neg (by omega), List.drop_append_of_le_length (by omega),
      List.take_append_of_le_length (by rw [List.length_drop]; exact Nat.sub_le_sub_right h 1)]
  rw [cells, cells, hkept, hlen, Nat.min_eq_right h, Nat.min_eq_right (Nat.le_succ_of_le h)]

/-- The cell that `Add` writes is one before the cell of the new vector. -/
theorem set_kept {vs : List ℕ} (hne : vs ≠ []) (h : vs.length < maxVectorNumPerDoc) (v : ℕ) :
    (((kept vs).map some).rightpad maxVectorNumPerDoc none).set (vs.length - 1) (some v) =
      ((kept (vs ++ [v])).map some).rightpad maxVectorNumPerDoc none := by
  have hten : vs.length < 10 := h
  have hpos : 0 < vs.length := List.length_pos_iff.mpr hne
  have hlen : (vs ++ [v]).length = vs.length + 1 := by simp
  have hkept' : kept (vs ++ [v]) = vs.drop 1 ++ [v] := by
    rw [kept, if_neg (by omega), List.drop_append_of_le_length hpos]
    refine List.take_of_length_le ?_
    rw [List.length_append, List.length_drop, List.length_singleton, maxVectorNumPerDoc]
    omega
  rw [hkept', List.map_append]
  by_cases hone : vs.length = 1
  · obtain ⟨a, rfl⟩ := List.length_eq_one_iff.mp hone
    rfl
  · have hkept : kept vs = vs.drop 1 := by
      rw [kept, if_neg (by omega)]
      refine List.take_of_length_le ?_
      rw [List.length_drop, maxVectorNumPerDoc]
      omega
    have hat : vs.length - 1 = ((vs.drop 1).map some).length := by simp
    rw [hkept, hat]
    refine rightpad_set ?_ _ _
    rw [List.length_map, List.length_drop]
    omega

/-- **A vector for a document that has some.** -/
theorem addVid_cells {vs : List ℕ} (hne : vs ≠ []) (v : ℕ) :
    ∃ code, addVid v (cells vs) = some (code, cells (vs ++ [v])) := by
  have hcounter : counter (cells vs) = some (min vs.length maxVectorNumPerDoc) := rfl
  rw [addVid, hcounter, Option.bind_some]
  by_cases hfull : maxVectorNumPerDoc ≤ vs.length
  · rw [if_pos (Nat.le_min.mpr ⟨hfull, Nat.le_refl _⟩), cells_concat_of_full hfull]
    exact ⟨-1, rfl⟩
  · have hlt : vs.length < maxVectorNumPerDoc := Nat.lt_of_not_le hfull
    have hpos : 0 < vs.length := List.length_pos_iff.mpr hne
    have hmin : min vs.length maxVectorNumPerDoc = vs.length := Nat.min_eq_left hlt.le
    have hplace : vs.length < (cells vs).length := by
      rw [length_cells]
      omega
    have hset : (cells vs).set vs.length (some v) =
        some vs.length :: ((kept (vs ++ [v])).map some).rightpad maxVectorNumPerDoc none := by
      rw [← set_kept hne hlt, cells, hmin]
      obtain ⟨k, hk⟩ := Nat.exists_eq_succ_of_ne_zero hpos.ne'
      rw [hk, List.set_cons_succ, Nat.succ_sub_one]
    have hmin' : min (vs ++ [v]).length maxVectorNumPerDoc = vs.length + 1 := by
      rw [List.length_append, List.length_singleton]
      omega
    rw [hmin, if_neg hfull, store_of_lt hplace, Option.bind_some, hset]
    refine ⟨0, ?_⟩
    rw [cells, hmin']
    rfl

/-! ### The readers -/

/-- What `DocID2VID` returns for a document with these vectors; the last cell was not written if there
are two or more. -/
def listed (vs : List ℕ) : List (Option ℕ) :=
  if vs.length ≤ 1 then vs.map some else (kept vs).map some ++ [none]

theorem take_cells (vs : List ℕ) :
    (((kept vs).map some).rightpad maxVectorNumPerDoc none).take (min vs.length maxVectorNumPerDoc) =
      listed vs := by
  have hlen := length_kept vs
  unfold listed
  split_ifs at hlen ⊢ with hone
  · have hmin : min vs.length maxVectorNumPerDoc = ((kept vs).map some).length := by
      rw [List.length_map, hlen]
      exact Nat.min_eq_left (Nat.le_trans hone (by decide))
    rw [hmin, List.rightpad, List.take_left, kept, if_pos hone]
  · have hmin : min vs.length maxVectorNumPerDoc = ((kept vs).map some).length + 1 := by
      rw [List.length_map, hlen, maxVectorNumPerDoc]
      omega
    have hrest : maxVectorNumPerDoc - ((kept vs).map some).length =
        (maxVectorNumPerDoc - ((kept vs).map some).length - 1) + 1 := by
      rw [List.length_map, hlen, maxVectorNumPerDoc]
      omega
    rw [hmin, List.rightpad, hrest, List.replicate_succ, List.take_append, List.take_of_length_le
      (Nat.le_succ _), Nat.add_sub_cancel_left, List.take_succ_cons, List.take_zero]

/-- The ids are right for one vector at most. -/
theorem listed_eq_map_iff (vs : List ℕ) : listed vs = vs.map some ↔ vs.length ≤ 1 := by
  rw [listed]
  split_ifs with hone
  · exact ⟨fun _ => hone, fun _ => rfl⟩
  · refine ⟨fun h => ?_, fun h => absurd h hone⟩
    have hmem : none ∈ vs.map some := h ▸ List.mem_append_right _ List.mem_cons_self
    obtain ⟨v, -, hv⟩ := List.mem_map.mp hmem
    cases hv

/-- The first and the last id are what `DocID2VID` lists first and last. -/
theorem first_last_of_docID2VID {m : VIDMgr} {docid : ℕ} {l : List (Option ℕ)}
    (h : m.docID2VID docid = some l) (hne : l ≠ []) :
    m.getFirstVID docid = l.head?.map (Option.map Nat.cast) ∧
      m.getLastVID docid = l.getLast?.map (Option.map Nat.cast) := by
  rw [docID2VID] at h
  rw [getFirstVID, getLastVID]
  split_ifs at h ⊢ with hmulti
  · obtain ⟨vids, hvids, h⟩ := Option.bind_eq_some_iff.mp h
    obtain ⟨num, hnum, h⟩ := Option.bind_eq_some_iff.mp h
    obtain ⟨hlen, hall⟩ := of_mapM_range h
    have hpos : 0 < num := hlen ▸ List.length_pos_iff.mpr hne
    obtain ⟨k, rfl⟩ := Nat.exists_eq_succ_of_ne_zero hpos.ne'
    have hfirst : vids[1]? = l.head? := (hall 0 hpos).trans List.head?_eq_getElem?.symm
    have hlast : vids[k + 1]? = l.getLast? := by
      rw [hall k (Nat.lt_succ_self k), List.getLast?_eq_getElem?, hlen, Nat.succ_sub_one]
    rw [hvids, Option.bind_some, Option.bind_some, hnum, Option.bind_some, Option.bind_some,
      if_neg (Nat.not_succ_le_zero k), if_neg (Nat.not_succ_le_zero k), hfirst, hlast]
    exact ⟨rfl, rfl⟩
  · cases h
    exact ⟨rfl, rfl⟩

/-! ### The tables after a run -/

/-- The array of a document, if it has one. -/
def arrayOf (vs : List ℕ) : Option (List (Option ℕ)) := if vs = [] then none else some (cells vs)

/-- The tables have the vectors of these documents. -/
structure Tables (maxVectorSize first : ℕ) (docids : List ℕ) (m : VIDMgr) : Prop where
  multi : m.multiVids = true
  vidSize : m.vid2docid.length = maxVectorSize
  docidSize : m.docid2vid.length = maxVectorSize
  vids : ∀ p ∈ docids.zipIdx first, m.vid2docid[p.2]? = some (p.1 : ℤ)
  lists : ∀ d < maxVectorSize, m.docid2vid[d]? = some (arrayOf (added first docids d))

variable {n first d : ℕ} {docids : List ℕ} {m m' : VIDMgr}

theorem zipIdx_concat (first : ℕ) (docids : List ℕ) (d : ℕ) :
    (docids ++ [d]).zipIdx first = docids.zipIdx first ++ [(d, first + docids.length)] := by
  rw [List.zipIdx_append]
  rfl

theorem added_concat_self (first : ℕ) (docids : List ℕ) (d : ℕ) :
    added first (docids ++ [d]) d = added first docids d ++ [first + docids.length] := by
  simp [added, zipIdx_concat]

theorem added_concat_of_ne (first : ℕ) (docids : List ℕ) {d d' : ℕ} (h : d' ≠ d) :
    added first (docids ++ [d]) d' = added first docids d' := by
  simp [added, zipIdx_concat, Ne.symm h]

theorem tables_init (n first : ℕ) : Tables n first [] (init true n) where
  multi := rfl
  vidSize := List.length_replicate
  docidSize := List.length_replicate
  vids := fun _ hp => absurd hp List.not_mem_nil
  lists := fun _ hd => List.getElem?_replicate_of_lt hd

/-- The array after a vector, in both branches. -/
theorem extend_arrayOf (vs : List ℕ) (v : ℕ) :
    ∃ code, (arrayOf vs).elim
      ((store newArray 0 (some 1)).bind fun vids =>
        (store vids 1 (some v)).map fun vids => ((0 : ℤ), vids))
      (addVid v) = some (code, cells (vs ++ [v])) := by
  unfold arrayOf
  by_cases hnil : vs = []
  · rw [if_pos hnil, hnil]
    exact ⟨0, rfl⟩
  · rw [if_neg hnil]
    exact addVid_cells hnil v

/-- **One call** inside the tables. -/
theorem Tables.add (h : Tables n first docids m) (hvid : first + docids.length < n) (hd : d < n) :
    ∃ code m', m.add (first + docids.length) d = some (code, m') ∧ Tables n first (docids ++ [d]) m' := by
  obtain ⟨code, hcode⟩ := extend_arrayOf (added first docids d) (first + docids.length)
  rw [VIDMgr.add, if_pos h.multi, store_of_lt (h.vidSize ▸ hvid), Option.bind_some, h.lists d hd,
    Option.bind_some, hcode]
  refine ⟨code, _, rfl, h.multi, ?_, ?_, ?_, ?_⟩
  · rw [List.length_set]
    exact h.vidSize
  · rw [List.length_set]
    exact h.docidSize
  · intro p hp
    rw [zipIdx_concat] at hp
    cases List.mem_append.mp hp with
    | inl hp =>
      -- the id of an earlier vector is another one
      have hlt : p.2 < first + docids.length := List.snd_lt_add_of_mem_zipIdx hp
      rw [List.getElem?_set_ne hlt.ne', h.vids p hp]
    | inr hp =>
      rw [List.mem_singleton.mp hp]
      exact List.getElem?_set_self (h.vidSize ▸ hvid)
  · intro d' hd'
    by_cases hself : d' = d
    · rw [hself, List.getElem?_set_self (h.docidSize ▸ hd), added_concat_self, arrayOf, if_neg (by simp)]
    · rw [List.getElem?_set_ne (Ne.symm hself), h.lists d' hd', added_concat_of_ne first docids hself]

/-- Outside the tables it is undefined. -/
theorem Tables.add_undefined (h : Tables n first docids m)
    (hout : ¬ (d < n ∧ first + docids.length < n)) : m.add (first + docids.length) d = none := by
  rw [VIDMgr.add, if_pos h.multi]
  by_cases hvid : first + docids.length < n
  · have hd : n ≤ d := Nat.le_of_not_lt fun hd => hout ⟨hd, hvid⟩
    have hnone : m.docid2vid[d]? = none := List.getElem?_eq_none (h.docidSize ▸ hd)
    rw [store_of_lt (h.vidSize ▸ hvid), Option.bind_some, hnone, Option.bind_none]
  · rw [store_of_le (h.vidSize ▸ Nat.le_of_not_lt hvid), Option.bind_none]

theorem addAll_concat (first : ℕ) (docids : List ℕ) (d : ℕ) (m : VIDMgr) :
    addAll first (docids ++ [d]) m =
      (addAll first docids m).bind fun m => (m.add (first + docids.length) d).map Prod.snd := by
  rw [addAll, zipIdx_concat, runOps_append]
  refine congrArg _ (funext fun m => ?_)
  exact Option.bind_fun_some _

/-- **A run**: the tables after it. -/
theorem tables_of_addAll (h : addAll first docids (init true n) = some m) : Tables n first docids m := by
  induction docids using List.reverseRecOn generalizing m with
  | nil =>
    cases h
    exact tables_init n first
  | append_singleton docids d ih =>
    rw [addAll_concat] at h
    obtain ⟨m₁, hm₁, h⟩ := Option.bind_eq_some_iff.mp h
    by_cases hin : d < n ∧ first + docids.length < n
    · obtain ⟨code, m₂, hm₂, htables⟩ := (ih hm₁).add hin.2 hin.1
      rw [hm₂] at h
      cases h
      exact htables
    · rw [(ih hm₁).add_undefined hin] at h
      cases h

/-- A run is defined if its ids are inside the tables. -/
theorem exists_addAll_iff (n first : ℕ) (docids : List ℕ) :
    (∃ m, addAll first docids (init true n) = some m) ↔
      ∀ p ∈ docids.zipIdx first, p.1 < n ∧ p.2 < n := by
  induction docids using List.reverseRecOn with
  | nil => exact ⟨fun _ p hp => absurd hp List.not_mem_nil, fun _ => ⟨_, rfl⟩⟩
  | append_singleton docids d ih =>
    rw [addAll_concat, zipIdx_concat, List.forall_mem_append, List.forall_mem_singleton, ← ih]
    constructor
    · rintro ⟨m, h⟩
      obtain ⟨m₁, hm₁, h⟩ := Option.bind_eq_some_iff.mp h
      refine ⟨⟨m₁, hm₁⟩, ?_⟩
      by_contra hout
      rw [(tables_of_addAll hm₁).add_undefined hout] at h
      cases h
    · rintro ⟨⟨m₁, hm₁⟩, hd, hvid⟩
      obtain ⟨code, m₂, hm₂, -⟩ := (tables_of_addAll hm₁).add hvid hd
      rw [hm₁, Option.bind_some, hm₂]
      exact ⟨m₂, rfl⟩

/-- **What the readers find after a run**; a document without a vector has no array. -/
theorem docID2VID_addAll (h : addAll first docids (init true n) = some m) (hd : d < n) :
    m.docID2VID d =
      if added first docids d = [] then none else some (listed (added first docids d)) := by
  have htables := tables_of_addAll h
  rw [docID2VID, if_pos htables.multi, vidList, htables.lists d hd, Option.join_some, arrayOf]
  by_cases hnil : added first docids d = []
  · rw [if_pos hnil, if_pos hnil, Option.bind_none]
  · rw [if_neg hnil, if_neg hnil, Option.bind_some, ← take_cells]
    refine mapM_getElem? ?_
    have hlen := length_cells (added first docids d)
    rw [cells, List.length_cons] at hlen
    rw [Nat.succ.inj hlen]
    exact Nat.min_le_right _ _

/-! ### When it is right -/

theorem length_added (first : ℕ) (docids : List ℕ) (d : ℕ) :
    (added first docids d).length = docids.count d := by
  induction docids using List.reverseRecOn with
  | nil => rfl
  | append_singleton docids d' ih =>
    rw [List.count_append, ← ih]
    by_cases hself : d = d'
    · rw [hself, added_concat_self, List.length_append, List.count_singleton_self]
      rfl
    · rw [added_concat_of_ne first docids hself, List.count_eq_zero.mpr (by simpa using hself),
        Nat.add_zero]

theorem mem_added {v : ℕ} : v ∈ added first docids d ↔ (d, v) ∈ docids.zipIdx first := by
  simp [added]

/-- Where the mapping is right, the lists are the inverse of `vid2docid_`. -/
theorem Mapped.mem_iff (h : Mapped first docids m) (hd : d ∈ docids) {v : ℕ} (hv : first ≤ v)
    (hlt : v < first + docids.length) :
    (∃ l, m.docID2VID d = some l ∧ some v ∈ l) ↔ m.vid2DocID v = d := by
  have hlen : v - first < docids.length := by omega
  have hdocid : (docids[v - first], v) ∈ docids.zipIdx first :=
    List.mk_mem_zipIdx_iff_le_and_getElem?_sub.mpr ⟨hv, List.getElem?_eq_getElem hlen⟩
  rw [h.lists d hd, h.vids _ hdocid]
  constructor
  · rintro ⟨l, hl, hmem⟩
    rw [← Option.some.inj hl, List.mem_map] at hmem
    obtain ⟨_, hmem, heq⟩ := hmem
    cases heq
    exact (h.vids _ hdocid).symm.trans (h.vids _ (mem_added.mp hmem))
  · intro heq
    refine ⟨_, rfl, List.mem_map_of_mem ?_⟩
    rw [mem_added, ← Int.ofNat_inj.mp heq]
    exact hdocid

/-- The list of another document stays as it is. -/
theorem docID2VID_add_of_ne {vid d' : ℕ} {code : ℤ} (h : m.add vid d = some (code, m')) (hne : d' ≠ d) :
    m'.docID2VID d' = m.docID2VID d' := by
  rw [add] at h
  split_ifs at h with hmulti
  · obtain ⟨vid2docid, -, h⟩ := Option.bind_eq_some_iff.mp h
    obtain ⟨list, -, h⟩ := Option.bind_eq_some_iff.mp h
    obtain ⟨r, -, h⟩ := Option.map_eq_some_iff.mp h
    cases h
    rw [docID2VID, docID2VID, vidList, vidList, List.getElem?_set_ne (Ne.symm hne)]
  · cases h
    rfl

/-- The lists are right exactly if no document was given two vectors. -/
theorem lists_right_iff (h : addAll first docids (init true n) = some m) :
    (∀ d ∈ docids, m.docID2VID d = some ((added first docids d).map some)) ↔ docids.Nodup := by
  have hin := (exists_addAll_iff n first docids).mp ⟨m, h⟩
  rw [List.nodup_iff_count_le_one]
  have hone : ∀ d ∈ docids, (m.docID2VID d = some ((added first docids d).map some) ↔
      docids.count d ≤ 1) := by
    intro d hd
    have hne : added first docids d ≠ [] := by
      rw [← List.length_pos_iff, length_added]
      exact List.count_pos_iff.mpr hd
    obtain ⟨v, hv⟩ := List.exists_mem_of_ne_nil _ hne
    rw [docID2VID_addAll h (hin _ (mem_added.mp hv)).1, if_neg hne, Option.some_inj, listed_eq_map_iff, length_added]
  constructor
  · intro hall d
    by_cases hd : d ∈ docids
    · exact (hone d hd).mp (hall d hd)
    · rw [List.count_eq_zero.mpr hd]
      exact Nat.zero_le 1
  · exact fun hall d hd => (hone d hd).mpr (hall d)

/-- **The mapping is right in every state of a run** exactly when no document is given two vectors and
every id is inside the tables. -/
theorem rightRun_iff_nodup (n first : ℕ) (docids : List ℕ) :
    RightRun n first docids ↔ docids.Nodup ∧ ∀ p ∈ docids.zipIdx first, p.1 < n ∧ p.2 < n := by
  constructor
  · intro h
    obtain ⟨m, hm, hmapped⟩ := h.mapped docids (List.prefix_refl docids)
    exact ⟨(lists_right_iff hm).mp hmapped.lists, (exists_addAll_iff n first docids).mp ⟨m, hm⟩⟩
  · rintro ⟨hnodup, hin⟩
    refine ⟨fun ds hds => ?_, fun _ _ _ _ _ _ _ hadd d' hne => docID2VID_add_of_ne hadd hne⟩
    obtain ⟨rest, rfl⟩ := hds
    rw [List.zipIdx_append, List.forall_mem_append] at hin
    obtain ⟨m, hm⟩ := (exists_addAll_iff n first ds).mpr hin.1
    refine ⟨m, hm, (lists_right_iff hm).mpr hnodup.of_append_left, fun p hp => ?_⟩
    have htables := tables_of_addAll hm
    rw [vid2DocID, if_pos htables.multi, List.getD_eq_getElem?_getD, htables.vids p hp, Option.getD_some]

/-- Two vectors for one document: the second one is listed first, and then a cell that was not written. -/
theorem rightRun_not : ¬ ∀ (n first : ℕ) (docids : List ℕ), docids.Pairwise (· ≤ ·) →
    (∀ p ∈ docids.zipIdx first, p.1 < n ∧ p.2 < n) → RightRun n first docids := by
  intro h
  obtain ⟨m, hm, hmapped⟩ := (h 2 0 [0, 0] (by decide) (by decide)).mapped [0, 0] (List.prefix_refl _)
  have hlist : (addAll 0 [0, 0] (init true 2)).bind (fun m => m.docID2VID 0) = some [some 1, none] := by
    decide
  rw [hm, Option.bind_some, hmapped.lists 0 (by decide)] at hlist
  exact absurd hlist (by decide)

end VIDMgr

end AwaDB
