import AwaDB.Table.Row
import Mathlib.Algebra.BigOperators.Group.Finset.Basic
import Mathlib.Algebra.Order.BigOperators.Group.Finset

/-!
# The retrieval index (`search/awadb_retrieval.cc`)

`AwadbRetrieval` keeps a list of document ids for each word, to which `AddDoc` appends. `Retrieve`
looks for the ids that all lists of a query hold: it takes the largest first id, and seeks it in one
list after the other; a list that has no such id gives the next one to look for.

`Leap` is the invariant of these loops, and `mem_retrieve` the specification: sorted lists give their
common ids, in order. `textHasDoc_iff` is the same for the binary search that the filter makes on the
result.
-/

namespace AwaDB

/-- `inverted_list_`. A word is entered together with its first document, so that an empty list
stands for a word that is not there. -/
abbrev AwadbRetrieval := Bytes → List ℕ

namespace AwadbRetrieval

/-- `AwadbRetrieval::AddDoc`. The counts of the words are stored but never read. -/
def addDoc (m : AwadbRetrieval) (docid : ℕ) (words : List Bytes) : AwadbRetrieval :=
  words.foldl (fun m word => Function.update m word (m word ++ [docid])) m

/-- `DocDetail::Seek`: the first id from position `pos` on that is not smaller, and the position
behind it. -/
def seek (ids : List ℕ) (docid pos : ℕ) : Option (ℕ × ℕ) :=
  if h : pos < ids.length then
    if docid ≤ ids[pos] then some (ids[pos], pos + 1) else seek ids docid (pos + 1)
  else none
termination_by ids.length - pos

/-- The variables of the loop in `Retrieve`. -/
structure Cursor where
  start : ℕ
  base : ℕ
  count : ℕ
  pos : ℕ → ℕ
  docids : List ℕ

/-- One round of the loops in `Retrieve`: the result, or the next state. -/
def retrieveStep (lists : List (List ℕ)) (c : Cursor) : List ℕ ⊕ Cursor :=
  if c.count < lists.length then
    if c.base = c.count then .inr { c with count := c.count + 1 }
    else
      match seek (lists.getD c.count []) c.start (c.pos c.count) with
      | none => .inl c.docids
      | some (next, p) =>
        let c := { c with pos := Function.update c.pos c.count p }
        if next = c.start then .inr { c with count := c.count + 1 }
        else .inr { c with start := next, base := c.count, count := 0 }
  else
    match seek (lists.getD c.base []) c.start (c.pos c.base) with
    | none => .inl (c.docids ++ [c.start])
    | some (next, p) =>
      .inr { c with
        docids := c.docids ++ [c.start]
        pos := Function.update c.pos c.base p
        start := next
        count := 0 }

/-! ### Seeking -/

/-- What `Seek` finds. -/
theorem seek_eq_some {ids : List ℕ} {docid pos next p : ℕ}
    (h : seek ids docid pos = some (next, p)) :
    ∃ i, p = i + 1 ∧ pos ≤ i ∧ ids[i]? = some next ∧ docid ≤ next ∧
      ∀ j, pos ≤ j → j < i → ∀ x, ids[j]? = some x → x < docid := by
  fun_induction seek ids docid pos with
  | case1 pos hlt hle =>
    cases h
    exact ⟨pos, rfl, Nat.le_refl _, List.getElem?_eq_getElem hlt, hle, fun j hj hji => by omega⟩
  | case2 pos hlt hnot ih =>
    obtain ⟨i, hp, hi, hget, hle, hskip⟩ := ih h
    refine ⟨i, hp, by omega, hget, hle, fun j hj hji x hx => ?_⟩
    by_cases heq : j = pos
    · rw [heq, List.getElem?_eq_getElem hlt] at hx
      rw [← Option.some.inj hx]
      exact Nat.lt_of_not_le hnot
    · exact hskip j (by omega) hji x hx
  | case3 pos hge => cases h

/-- `Seek` fails when all the ids that are left are smaller. -/
theorem seek_eq_none {ids : List ℕ} {docid pos : ℕ} (h : seek ids docid pos = none) :
    ∀ j, pos ≤ j → ∀ x, ids[j]? = some x → x < docid := by
  fun_induction seek ids docid pos with
  | case1 pos hlt hle => cases h
  | case2 pos hlt hnot ih =>
    intro j hj x hx
    by_cases heq : j = pos
    · rw [heq, List.getElem?_eq_getElem hlt] at hx
      rw [← Option.some.inj hx]
      exact Nat.lt_of_not_le hnot
    · exact ih h j (by omega) x hx
  | case3 pos hge =>
    intro j hj x hx
    rw [List.getElem?_eq_none (by omega)] at hx
    cases hx

/-! ### The loop ends -/

/-- How many ids are left in the lists. -/
def left (lists : List (List ℕ)) (pos : ℕ → ℕ) : ℕ :=
  ∑ i ∈ Finset.range lists.length, ((lists.getD i []).length - pos i)

/-- What every round makes smaller. -/
def measure (lists : List (List ℕ)) (c : Cursor) : ℕ :=
  left lists c.pos * (lists.length + 1) + (lists.length - c.count)

theorem left_update {lists : List (List ℕ)} {pos : ℕ → ℕ} {i docid next p : ℕ}
    (h : seek (lists.getD i []) docid (pos i) = some (next, p)) :
    left lists (Function.update pos i p) < left lists pos := by
  obtain ⟨j, rfl, hj, hget, -⟩ := seek_eq_some h
  have hlen : j < (lists.getD i []).length := (List.getElem?_eq_some_iff.mp hget).1
  have hi : i < lists.length := by
    by_contra hge
    rw [List.getD_eq_getElem?_getD, List.getElem?_eq_none (by omega)] at hlen
    exact absurd hlen (Nat.not_lt_zero j)
  refine Finset.sum_lt_sum (fun k _ => ?_) ⟨i, Finset.mem_range.mpr hi, ?_⟩
  · by_cases hk : k = i
    · rw [hk, Function.update_self]
      omega
    · rw [Function.update_of_ne hk]
  · rw [Function.update_self]
    omega

theorem retrieveStep_lt {lists : List (List ℕ)} {c c' : Cursor}
    (h : retrieveStep lists c = .inr c') : measure lists c' < measure lists c := by
  have hsmaller : ∀ {pos : ℕ → ℕ} {k : ℕ}, left lists pos < left lists c.pos →
      left lists pos * (lists.length + 1) + (lists.length - k) < measure lists c := by
    intro pos k hlt
    have hmul : (left lists pos + 1) * (lists.length + 1) ≤
        left lists c.pos * (lists.length + 1) := Nat.mul_le_mul_right _ hlt
    rw [Nat.add_mul] at hmul
    unfold measure
    omega
  unfold retrieveStep at h
  split at h
  · rename_i hcount
    split at h
    · cases h
      show left lists c.pos * _ + (lists.length - (c.count + 1)) < _
      unfold measure
      omega
    · split at h
      · cases h
      · rename_i next p hseek
        dsimp only at h
        split at h
        · cases h
          exact hsmaller (left_update hseek)
        · cases h
          exact hsmaller (left_update hseek)
  · split at h
    · cases h
    · rename_i next p hseek
      cases h
      exact hsmaller (left_update hseek)

/-- The loops in `Retrieve`. -/
def retrieveLoop (lists : List (List ℕ)) (c : Cursor) : List ℕ :=
  match _hstep : retrieveStep lists c with
  | .inl docids => docids
  | .inr c' => retrieveLoop lists c'
termination_by measure lists c
decreasing_by exact retrieveStep_lt _hstep

/-- The largest first id of the lists, and the first list that has it. -/
def largestFirst (lists : List (List ℕ)) : ℕ × ℕ :=
  (List.range lists.length).foldl (fun s i =>
    let first := (lists.getD i []).headD 0
    if s.1 < first then (first, i) else s) (0, 0)

/-- `AwadbRetrieval::Retrieve`. -/
def retrieve (m : AwadbRetrieval) (query : List Bytes) : List ℕ :=
  let lists := query.map m
  if [] ∈ lists then []
  else
    retrieveLoop lists
      { start := (largestFirst lists).1
        base := (largestFirst lists).2
        count := 0
        pos := fun _ => 0
        docids := [] }

/-! ### What the loop keeps -/

/-- The four ways to go on. -/
theorem retrieveStep_inr {lists : List (List ℕ)} {c c' : Cursor}
    (h : retrieveStep lists c = .inr c') :
    (c.base = c.count ∧ c' = { c with count := c.count + 1 }) ∨
    (c.count < lists.length ∧ c.base ≠ c.count ∧ ∃ p,
      seek (lists.getD c.count []) c.start (c.pos c.count) = some (c.start, p) ∧
      c' = { c with pos := Function.update c.pos c.count p, count := c.count + 1 }) ∨
    (c.count < lists.length ∧ c.base ≠ c.count ∧ ∃ next p,
      seek (lists.getD c.count []) c.start (c.pos c.count) = some (next, p) ∧ next ≠ c.start ∧
      c' = { c with
        pos := Function.update c.pos c.count p, start := next, base := c.count, count := 0 }) ∨
    (lists.length ≤ c.count ∧ ∃ next p,
      seek (lists.getD c.base []) c.start (c.pos c.base) = some (next, p) ∧
      c' = { c with
        docids := c.docids ++ [c.start]
        pos := Function.update c.pos c.base p, start := next, count := 0 }) := by
  unfold retrieveStep at h
  split at h
  · rename_i hcount
    split at h
    · rename_i hbase
      cases h
      exact .inl ⟨hbase, rfl⟩
    · rename_i hbase
      split at h
      · cases h
      · rename_i next p hseek
        dsimp only at h
        split at h
        · rename_i heq
          cases h
          subst heq
          exact .inr (.inl ⟨hcount, hbase, p, hseek, rfl⟩)
        · rename_i hne
          cases h
          exact .inr (.inr (.inl ⟨hcount, hbase, next, p, hseek, hne, rfl⟩))
  · rename_i hcount
    split at h
    · cases h
    · rename_i next p hseek
      cases h
      exact .inr (.inr (.inr ⟨Nat.le_of_not_lt hcount, next, p, hseek, rfl⟩))

/-- The two ways to end. -/
theorem retrieveStep_inl {lists : List (List ℕ)} {c : Cursor} {docids : List ℕ}
    (h : retrieveStep lists c = .inl docids) :
    (c.count < lists.length ∧ c.base ≠ c.count ∧
      seek (lists.getD c.count []) c.start (c.pos c.count) = none ∧ docids = c.docids) ∨
    (lists.length ≤ c.count ∧ seek (lists.getD c.base []) c.start (c.pos c.base) = none ∧
      docids = c.docids ++ [c.start]) := by
  unfold retrieveStep at h
  split at h
  · rename_i hcount
    split at h
    · cases h
    · rename_i hbase
      split at h
      · rename_i hseek
        cases h
        exact .inl ⟨hcount, hbase, hseek, rfl⟩
      · dsimp only at h
        split at h <;> cases h
  · rename_i hcount
    split at h
    · rename_i hseek
      cases h
      exact .inr ⟨Nat.le_of_not_lt hcount, hseek, rfl⟩
    · cases h

/-- An id that all lists hold. -/
def Common (lists : List (List ℕ)) (d : ℕ) : Prop := ∀ i < lists.length, d ∈ lists.getD i []

/-- Everything below `start` is decided, and the positions have not passed it. `here` is about
`start` itself: either it was found already, or no list that is still to be asked has passed it. -/
structure Leap (lists : List (List ℕ)) (c : Cursor) : Prop where
  base_lt : c.base < lists.length
  base_mem : c.start ∈ lists.getD c.base []
  consumed : ∀ i j x, j < c.pos i → (lists.getD i [])[j]? = some x → x ≤ c.start
  matched : ∀ i < c.count, i ≠ c.base → c.start ∈ lists.getD i []
  found : ∀ d < c.start, Common lists d → d ∈ c.docids
  here : c.start ∈ c.docids ∨ ∀ i j x, i ≠ c.base → c.count ≤ i → j < c.pos i →
    (lists.getD i [])[j]? = some x → x < c.start
  sound : ∀ d ∈ c.docids, Common lists d ∧ d ≤ c.start
  sorted : c.docids.Pairwise (· ≤ ·)

/-- The result: the common ids, in order. -/
structure Result (lists : List (List ℕ)) (docids : List ℕ) : Prop where
  sorted : docids.Pairwise (· ≤ ·)
  mem_iff : ∀ d, d ∈ docids ↔ Common lists d

namespace Leap

variable {lists : List (List ℕ)} {c c' : Cursor} {i next p : ℕ}

/-- Where a list has no further id, an id from `start` on is `start`, and was passed. -/
theorem passed_of_none (h : Leap lists c)
    (hseek : seek (lists.getD i []) c.start (c.pos i) = none) {d : ℕ}
    (hd : d ∈ lists.getD i []) (hle : c.start ≤ d) :
    d = c.start ∧ ∃ j, j < c.pos i ∧ (lists.getD i [])[j]? = some c.start := by
  obtain ⟨j, hj⟩ := List.getElem?_of_mem hd
  by_cases hpos : j < c.pos i
  · have heq : d = c.start := Nat.le_antisymm (h.consumed i j d hpos hj) hle
    exact ⟨heq, j, hpos, heq ▸ hj⟩
  · exact absurd (seek_eq_none hseek j (Nat.le_of_not_lt hpos) d hj) (Nat.not_lt.mpr hle)

/-- Where a list gives the id `next`, an id from `start` on is not smaller, or was passed. -/
theorem passed_of_some (h : Leap lists c)
    (hsorted : (lists.getD i []).Pairwise (· ≤ ·))
    (hseek : seek (lists.getD i []) c.start (c.pos i) = some (next, p)) {d : ℕ}
    (hd : d ∈ lists.getD i []) (hle : c.start ≤ d) :
    next ≤ d ∨ d = c.start ∧ ∃ j, j < c.pos i ∧ (lists.getD i [])[j]? = some c.start := by
  obtain ⟨k, -, -, hk, -, hskip⟩ := seek_eq_some hseek
  obtain ⟨j, hj⟩ := List.getElem?_of_mem hd
  by_cases hpos : j < c.pos i
  · have heq : d = c.start := Nat.le_antisymm (h.consumed i j d hpos hj) hle
    exact .inr ⟨heq, j, hpos, heq ▸ hj⟩
  · refine .inl ?_
    by_cases hjk : j < k
    · exact absurd (hskip j (Nat.le_of_not_lt hpos) hjk d hj) (Nat.not_lt.mpr hle)
    · obtain ⟨hklt, rfl⟩ := List.getElem?_eq_some_iff.mp hk
      obtain ⟨hjlt, rfl⟩ := List.getElem?_eq_some_iff.mp hj
      by_cases heq : k = j
      · subst heq
        exact Nat.le_refl _
      · exact List.pairwise_iff_getElem.mp hsorted k j hklt hjlt (by omega)

/-- The positions after a list gave the id `next`. -/
theorem consumed_update (h : Leap lists c)
    (hsorted : (lists.getD i []).Pairwise (· ≤ ·))
    (hseek : seek (lists.getD i []) c.start (c.pos i) = some (next, p)) (k j x : ℕ)
    (hj : j < Function.update c.pos i p k) (hx : (lists.getD k [])[j]? = some x) : x ≤ next := by
  obtain ⟨n, rfl, -, hn, hle, -⟩ := seek_eq_some hseek
  by_cases hk : k = i
  · subst hk
    rw [Function.update_self] at hj
    obtain ⟨hjlt, rfl⟩ := List.getElem?_eq_some_iff.mp hx
    obtain ⟨hnlt, rfl⟩ := List.getElem?_eq_some_iff.mp hn
    by_cases heq : j = n
    · subst heq
      exact Nat.le_refl _
    · exact List.pairwise_iff_getElem.mp hsorted j n hjlt hnlt (by omega)
  · rw [Function.update_of_ne hk] at hj
    exact Nat.le_trans (h.consumed k j x hj hx) hle

/-- `start` is common once all lists were asked. -/
theorem common_start (h : Leap lists c) (hcount : lists.length ≤ c.count) :
    Common lists c.start := by
  intro i hi
  by_cases hbase : i = c.base
  · rw [hbase]
    exact h.base_mem
  · exact h.matched i (by omega) hbase

/-- `start` is found already when a list that is still to be asked has passed it. -/
theorem start_mem_of_passed (h : Leap lists c) (hbase : i ≠ c.base) (hcount : c.count ≤ i) {j : ℕ}
    (hj : j < c.pos i) (hx : (lists.getD i [])[j]? = some c.start) : c.start ∈ c.docids :=
  h.here.resolve_right fun hall => Nat.lt_irrefl _ (hall i j c.start hbase hcount hj hx)

/-- The ids found so far, and `start`. -/
theorem snoc_sorted (h : Leap lists c) : (c.docids ++ [c.start]).Pairwise (· ≤ ·) := by
  refine List.pairwise_append.mpr ⟨h.sorted, List.pairwise_singleton _ _, fun d hd x hx => ?_⟩
  rw [List.mem_singleton.mp hx]
  exact (h.sound d hd).2

/-- **The last round.** -/
theorem done (h : Leap lists c) {docids : List ℕ} (hstep : retrieveStep lists c = .inl docids) :
    Result lists docids := by
  obtain ⟨hcount, hbase, hseek, rfl⟩ | ⟨hcount, hseek, rfl⟩ := retrieveStep_inl hstep
  · refine ⟨h.sorted, fun d => ⟨fun hd => (h.sound d hd).1, fun hd => ?_⟩⟩
    by_cases hlt : d < c.start
    · exact h.found d hlt hd
    · obtain ⟨rfl, j, hj, hx⟩ := h.passed_of_none hseek (hd _ hcount) (Nat.le_of_not_lt hlt)
      exact h.start_mem_of_passed (Ne.symm hbase) (Nat.le_refl _) hj hx
  · have hstart := h.common_start hcount
    refine ⟨h.snoc_sorted, fun d => ⟨fun hd => ?_, fun hd => ?_⟩⟩
    · cases List.mem_append.mp hd with
      | inl hd => exact (h.sound d hd).1
      | inr hd => rwa [List.mem_singleton.mp hd]
    · by_cases hlt : d < c.start
      · exact List.mem_append_left _ (h.found d hlt hd)
      · obtain ⟨rfl, -⟩ := h.passed_of_none hseek (hd _ h.base_lt) (Nat.le_of_not_lt hlt)
        exact List.mem_append_right _ (List.mem_singleton.mpr rfl)

/-- The list that is asked has `start`. -/
theorem match_start (h : Leap lists c) (hsorted : (lists.getD c.count []).Pairwise (· ≤ ·))
    (hseek : seek (lists.getD c.count []) c.start (c.pos c.count) = some (c.start, p)) :
    Leap lists { c with pos := Function.update c.pos c.count p, count := c.count + 1 } := by
  obtain ⟨k, -, -, hk, -⟩ := seek_eq_some hseek
  refine ⟨h.base_lt, h.base_mem, h.consumed_update hsorted hseek, fun i hi hne => ?_, h.found, ?_,
    h.sound, h.sorted⟩
  · by_cases hi' : i = c.count
    · rw [hi']
      exact List.mem_of_getElem? hk
    · have hlt : i < c.count + 1 := hi
      exact h.matched i (by omega) hne
  · refine h.here.imp id fun hall i j x hne hle hj => hall i j x hne (Nat.le_of_succ_le hle) ?_
    have hle' : c.count + 1 ≤ i := hle
    have hne' : i ≠ c.count := by omega
    have hj' : j < Function.update c.pos c.count p i := hj
    rwa [Function.update_of_ne hne'] at hj'

/-- The list that is asked gives the next id to look for. -/
theorem pass_start (h : Leap lists c) (hsorted : (lists.getD c.count []).Pairwise (· ≤ ·))
    (hcount : c.count < lists.length) (hbase : c.base ≠ c.count)
    (hseek : seek (lists.getD c.count []) c.start (c.pos c.count) = some (next, p))
    (hne : next ≠ c.start) :
    Leap lists { c with
      pos := Function.update c.pos c.count p, start := next, base := c.count, count := 0 } := by
  obtain ⟨k, -, -, hk, hge, -⟩ := seek_eq_some hseek
  have hlt : c.start < next := by omega
  refine ⟨hcount, List.mem_of_getElem? hk, h.consumed_update hsorted hseek,
    fun i hi => absurd hi (Nat.not_lt_zero i), fun d hd hall => ?_, .inr fun i j x hbase' _ hj hx => ?_,
    fun d hd => ⟨(h.sound d hd).1, Nat.le_of_lt (Nat.lt_of_le_of_lt (h.sound d hd).2 hlt)⟩, h.sorted⟩
  · by_cases hd' : d < c.start
    · exact h.found d hd' hall
    · have hnot : ¬ next ≤ d := Nat.not_le.mpr hd
      obtain ⟨rfl, j, hj, hx⟩ := (h.passed_of_some hsorted hseek (hall _ hcount)
        (Nat.le_of_not_lt hd')).resolve_left hnot
      exact h.start_mem_of_passed (Ne.symm hbase) (Nat.le_refl _) hj hx
  · have hj' : j < Function.update c.pos c.count p i := hj
    rw [Function.update_of_ne hbase'] at hj'
    exact Nat.lt_of_le_of_lt (h.consumed i j x hj' hx) hlt

/-- Every list has `start`: it is an id of the result, and the list that gave it gives the next one. -/
theorem take_start (h : Leap lists c) (hsorted : (lists.getD c.base []).Pairwise (· ≤ ·))
    (hcount : lists.length ≤ c.count)
    (hseek : seek (lists.getD c.base []) c.start (c.pos c.base) = some (next, p)) :
    Leap lists { c with
      docids := c.docids ++ [c.start]
      pos := Function.update c.pos c.base p, start := next, count := 0 } := by
  obtain ⟨k, -, -, hk, hge, -⟩ := seek_eq_some hseek
  have hstart := h.common_start hcount
  have hself : c.start ∈ c.docids ++ [c.start] :=
    List.mem_append_right _ (List.mem_singleton.mpr rfl)
  refine ⟨h.base_lt, List.mem_of_getElem? hk, h.consumed_update hsorted hseek,
    fun i hi => absurd hi (Nat.not_lt_zero i), fun d hd hall => ?_, ?_, fun d hd => ?_, h.snoc_sorted⟩
  · show d ∈ c.docids ++ [c.start]
    by_cases hd' : d < c.start
    · exact List.mem_append_left _ (h.found d hd' hall)
    · have hnot : ¬ next ≤ d := Nat.not_le.mpr hd
      obtain ⟨rfl, -⟩ := (h.passed_of_some hsorted hseek (hall _ h.base_lt)
        (Nat.le_of_not_lt hd')).resolve_left hnot
      exact hself
  · by_cases heq : next = c.start
    · refine .inl ?_
      show next ∈ c.docids ++ [c.start]
      rw [heq]
      exact hself
    · refine .inr fun i j x hbase _ hj hx => ?_
      have hj' : j < Function.update c.pos c.base p i := hj
      rw [Function.update_of_ne hbase] at hj'
      have hle := h.consumed i j x hj' hx
      show x < next
      omega
  · cases List.mem_append.mp hd with
    | inl hd => exact ⟨(h.sound d hd).1, Nat.le_trans (h.sound d hd).2 hge⟩
    | inr hd =>
      rw [List.mem_singleton.mp hd]
      exact ⟨hstart, hge⟩

/-- **A round that goes on.** -/
theorem step (h : Leap lists c) (hsorted : ∀ i, (lists.getD i []).Pairwise (· ≤ ·))
    (hstep : retrieveStep lists c = .inr c') : Leap lists c' := by
  obtain ⟨hbase, rfl⟩ | ⟨hcount, hbase, p, hseek, rfl⟩ | ⟨hcount, hbase, next, p, hseek, hne, rfl⟩ |
    ⟨hcount, next, p, hseek, rfl⟩ := retrieveStep_inr hstep
  · refine ⟨h.base_lt, h.base_mem, h.consumed, fun i hi hne => ?_, h.found, ?_, h.sound, h.sorted⟩
    · have hlt : i < c.count + 1 := hi
      have hne' : i ≠ c.base := hne
      exact h.matched i (by omega) hne
    · exact h.here.imp id fun hall i j x hne hle => hall i j x hne (Nat.le_of_succ_le hle)
  · exact h.match_start (hsorted c.count) hseek
  · exact h.pass_start (hsorted c.count) hcount hbase hseek hne
  · exact h.take_start (hsorted c.base) hcount hseek

end Leap

/-- **The loops give the common ids.** -/
theorem Leap.retrieveLoop {lists : List (List ℕ)} {c : Cursor} (h : Leap lists c)
    (hsorted : ∀ i, (lists.getD i []).Pairwise (· ≤ ·)) :
    Result lists (retrieveLoop lists c) := by
  fun_induction AwadbRetrieval.retrieveLoop lists c with
  | case1 c docids hstep => exact h.done hstep
  | case2 c c' hstep ih => exact ih (h.step hsorted hstep)

/-! ### Retrieving -/

/-- The start of the search: the largest first id, and the first list that begins with it. -/
theorem largestFirst_spec {lists : List (List ℕ)} (hne : lists ≠ []) :
    let s := largestFirst lists
    (s.2 < lists.length ∧ (lists.getD s.2 []).headD 0 = s.1) ∧
      (∀ i < lists.length, (lists.getD i []).headD 0 ≤ s.1) ∧
      ∀ i < s.2, (lists.getD i []).headD 0 < s.1 := by
  have hfold : ∀ n, let s := (List.range n).foldl (fun s i =>
      let first := (lists.getD i []).headD 0
      if s.1 < first then (first, i) else s) (0, 0)
      ((n = 0 ∧ s = (0, 0)) ∨ s.2 < n ∧ (lists.getD s.2 []).headD 0 = s.1) ∧
        (∀ i < n, (lists.getD i []).headD 0 ≤ s.1) ∧
        ∀ i < s.2, (lists.getD i []).headD 0 < s.1 := by
    intro n
    induction n with
    | zero =>
      exact ⟨.inl ⟨rfl, rfl⟩, fun i hi => absurd hi (Nat.not_lt_zero i),
        fun i hi => absurd hi (Nat.not_lt_zero i)⟩
    | succ n ih =>
      rw [List.range_succ, List.foldl_append, List.foldl_cons, List.foldl_nil]
      dsimp only at ih ⊢
      obtain ⟨hat, hmax, hbefore⟩ := ih
      split
      · rename_i hlt
        refine ⟨.inr ⟨Nat.lt_succ_self n, rfl⟩, fun i hi => ?_, fun i hi => ?_⟩
        · by_cases hin : i = n
          · rw [hin]
          · exact Nat.le_trans (hmax i (by omega)) (Nat.le_of_lt hlt)
        · exact Nat.lt_of_le_of_lt (hmax i hi) hlt
      · rename_i hle
        refine ⟨.inr ?_, fun i hi => ?_, hbefore⟩
        · cases hat with
          | inl hzero =>
            obtain ⟨rfl, heq⟩ := hzero
            rw [heq] at hle ⊢
            exact ⟨Nat.lt_succ_self 0, Nat.eq_zero_of_not_pos hle⟩
          | inr hat => exact ⟨Nat.lt_succ_of_lt hat.1, hat.2⟩
        · by_cases hin : i = n
          · rw [hin]
            exact Nat.le_of_not_lt hle
          · exact hmax i (by omega)
  have hlen : 0 < lists.length := List.length_pos_iff.mpr hne
  obtain ⟨hat, hmax, hbefore⟩ := hfold lists.length
  exact ⟨hat.resolve_left fun hzero => absurd hzero.1 (by omega), hmax, hbefore⟩

theorem headD_le {ids : List ℕ} (hsorted : ids.Pairwise (· ≤ ·)) {d : ℕ} (hd : d ∈ ids) :
    ids.headD 0 ≤ d := by
  cases ids with
  | nil => cases hd
  | cons first rest =>
    cases List.mem_cons.mp hd with
    | inl heq => exact Nat.le_of_eq heq.symm
    | inr hd => exact (List.pairwise_cons.mp hsorted).1 d hd

/-- The start of the loops. -/
theorem leap_init {lists : List (List ℕ)} (hne : lists ≠ []) (hfull : [] ∉ lists)
    (hsorted : ∀ i, (lists.getD i []).Pairwise (· ≤ ·)) :
    Leap lists
      { start := (largestFirst lists).1
        base := (largestFirst lists).2
        count := 0
        pos := fun _ => 0
        docids := [] } := by
  obtain ⟨⟨hlt, hhead⟩, -, -⟩ := largestFirst_spec hne
  refine ⟨hlt, ?_, fun i j x hj => absurd hj (Nat.not_lt_zero j),
    fun i hi => absurd hi (Nat.not_lt_zero i), fun d hd hall => ?_,
    .inr fun i j x _ _ hj => absurd hj (Nat.not_lt_zero j), fun d hd => (nomatch hd), List.Pairwise.nil⟩
  · show _ ∈ lists.getD (largestFirst lists).2 []
    cases hget : lists.getD (largestFirst lists).2 [] with
    | nil =>
      rw [List.getD_eq_getElem?_getD, List.getElem?_eq_getElem hlt] at hget
      exact absurd (hget ▸ List.getElem_mem hlt) hfull
    | cons first rest =>
      rw [hget] at hhead
      rw [← hhead]
      exact List.mem_cons_self
  · have hle := headD_le (hsorted _) (hall _ hlt)
    rw [hhead] at hle
    exact absurd hle (Nat.not_le.mpr hd)

/-- The lists of the words of a query are sorted when all lists are. -/
theorem sorted_lists {m : AwadbRetrieval} (hsorted : ∀ word, (m word).Pairwise (· ≤ ·))
    (query : List Bytes) (i : ℕ) : ((query.map m).getD i []).Pairwise (· ≤ ·) := by
  rw [List.getD_eq_getElem?_getD, List.getElem?_map]
  cases query[i]? with
  | none => exact List.Pairwise.nil
  | some word => exact hsorted word

/-- **`Retrieve` gives the sorted common ids** of the words, when their lists are sorted. -/
theorem retrieve_result {m : AwadbRetrieval} (hsorted : ∀ word, (m word).Pairwise (· ≤ ·))
    {query : List Bytes} (hquery : query ≠ []) : Result (query.map m) (retrieve m query) := by
  unfold retrieve
  dsimp only
  split
  · rename_i hempty
    refine ⟨List.Pairwise.nil, fun d => ⟨fun hd => absurd hd List.not_mem_nil, fun hd => ?_⟩⟩
    obtain ⟨i, hi⟩ := List.getElem?_of_mem hempty
    have hmem := hd i (List.getElem?_eq_some_iff.mp hi).1
    rw [List.getD_eq_getElem?_getD, hi] at hmem
    cases hmem
  · rename_i hfull
    have hne : query.map m ≠ [] := fun hnil => hquery (List.map_eq_nil_iff.mp hnil)
    have hlists := sorted_lists hsorted query
    exact Leap.retrieveLoop (leap_init hne hfull hlists) hlists

theorem mem_retrieve {m : AwadbRetrieval} (hsorted : ∀ word, (m word).Pairwise (· ≤ ·))
    {query : List Bytes} (hquery : query ≠ []) (d : ℕ) :
    d ∈ retrieve m query ↔ ∀ word ∈ query, d ∈ m word := by
  rw [(retrieve_result hsorted hquery).mem_iff]
  constructor
  · intro hall word hword
    obtain ⟨i, hi⟩ := List.getElem?_of_mem hword
    have hmem := hall i (by rw [List.length_map]; exact (List.getElem?_eq_some_iff.mp hi).1)
    rwa [List.getD_eq_getElem?_getD, List.getElem?_map, hi] at hmem
  · intro hall i hi
    rw [List.length_map] at hi
    rw [List.getD_eq_getElem?_getD, List.getElem?_map, List.getElem?_eq_getElem hi]
    exact hall _ (List.getElem_mem hi)

/-! ### The filter -/

/-- `MultiRangeQueryResults::TextHasDoc` between the positions `start` and `stop`, which is one past
`end`. -/
def textHasDocIn (ids : List ℕ) (docid start stop : ℕ) : Bool :=
  if h : start < stop then
    let startValue := ids.getD start 0
    if start + 1 = stop then decide (docid = startValue)
    else
      let endValue := ids.getD (stop - 1) 0
      let mid := (stop - 1 + start) / 2
      let midValue := ids.getD mid 0
      if docid < startValue ∨ endValue < docid then false
      else if docid = startValue ∨ docid = endValue then true
      else if docid = midValue then true
      else if midValue < docid then textHasDocIn ids docid (mid + 1) stop
      else textHasDocIn ids docid start mid
  else false
termination_by stop - start

/-- `MultiRangeQueryResults::TextHasDoc`. -/
def textHasDoc (ids : List ℕ) (docid : ℕ) : Bool := textHasDocIn ids docid 0 ids.length

/-- What is found is one of the ids. -/
theorem textHasDocIn_sound {ids : List ℕ} {docid start stop : ℕ} (hstop : stop ≤ ids.length)
    (h : textHasDocIn ids docid start stop = true) : docid ∈ ids := by
  have hget : ∀ i, i < ids.length → docid = ids.getD i 0 → docid ∈ ids := by
    intro i hi heq
    rw [heq, List.getD_eq_getElem?_getD, List.getElem?_eq_getElem hi]
    exact List.getElem_mem hi
  fun_induction textHasDocIn ids docid start stop with
  | case1 start startValue hlt => exact hget start (by omega) (of_decide_eq_true h)
  | case2 => cases h
  | case3 start stop hlt startValue hone endValue hout hends =>
    cases hends with
    | inl heq => exact hget start (by omega) heq
    | inr heq => exact hget (stop - 1) (by omega) heq
  | case4 start stop hlt startValue hone endValue mid midValue hout hends =>
    exact hget mid (by omega) ‹docid = midValue›
  | case5 start stop hlt startValue hone endValue mid midValue hout hends hmid hup ih =>
    exact ih hstop h
  | case6 start stop hlt startValue hone endValue mid midValue hout hends hmid hup ih =>
    exact ih (by omega) h
  | case7 => cases h

/-- An id between the positions is found. -/
theorem textHasDocIn_complete {ids : List ℕ} (hsorted : ids.Pairwise (· ≤ ·))
    {docid start stop i : ℕ} (hstop : stop ≤ ids.length) (hstart : start ≤ i) (hi : i < stop)
    (hget : ids.getD i 0 = docid) : textHasDocIn ids docid start stop = true := by
  have hgetD : ∀ j (hj : j < ids.length), ids.getD j 0 = ids[j] := by
    intro j hj
    rw [List.getD_eq_getElem?_getD, List.getElem?_eq_getElem hj, Option.getD_some]
  have hmono : ∀ j k, j ≤ k → k < ids.length → ids.getD j 0 ≤ ids.getD k 0 := by
    intro j k hjk hk
    rw [hgetD j (by omega), hgetD k hk]
    by_cases heq : j = k
    · subst heq
      exact Nat.le_refl _
    · exact List.pairwise_iff_getElem.mp hsorted j k (by omega) hk (by omega)
  fun_induction textHasDocIn ids docid start stop with
  | case1 start startValue hlt =>
    have heq : i = start := by omega
    rw [heq] at hget
    exact decide_eq_true hget.symm
  | case2 start stop hlt startValue hone endValue hout =>
    exfalso
    have hlow : startValue ≤ ids.getD i 0 := hmono start i hstart (by omega)
    have hhigh : ids.getD i 0 ≤ endValue := hmono i (stop - 1) (by omega) (by omega)
    omega
  | case3 => rfl
  | case4 => rfl
  | case5 start stop hlt startValue hone endValue mid midValue hout hends hmid hup ih =>
    refine ih hstop ?_ hi
    by_contra hle
    have hlow : ids.getD i 0 ≤ midValue := hmono i mid (by omega) (by omega)
    omega
  | case6 start stop hlt startValue hone endValue mid midValue hout hends hmid hup ih =>
    apply ih (by omega) hstart
    by_contra hle
    have hhigh : midValue ≤ ids.getD i 0 := hmono mid i (by omega) (by omega)
    omega
  | case7 start stop hge => omega

/-- **The binary search finds the ids of a sorted list.** -/
theorem textHasDoc_iff {ids : List ℕ} (hsorted : ids.Pairwise (· ≤ ·)) (docid : ℕ) :
    textHasDoc ids docid = true ↔ docid ∈ ids := by
  refine ⟨textHasDocIn_sound (Nat.le_refl _), fun hmem => ?_⟩
  obtain ⟨i, hi⟩ := List.getElem?_of_mem hmem
  obtain ⟨hlt, hget⟩ := List.getElem?_eq_some_iff.mp hi
  apply textHasDocIn_complete hsorted (Nat.le_refl _) (Nat.zero_le i) hlt
  rw [List.getD_eq_getElem?_getD, hi, Option.getD_some]

end AwadbRetrieval

end AwaDB
