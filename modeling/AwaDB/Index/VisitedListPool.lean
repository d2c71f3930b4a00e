import AwaDB.Index.HnswRuns
import AwaDB.Lib.Outcome
import AwaDB.Lib.Run
import AwaDB.Lib.TagSet

/-!
# The visited lists of concurrent searches (`index/impl/hnswlib/visited_list_pool.h`)

A search marks the elements that it has seen in an array that it takes from a pool and gives back. The
arrays are not cleared between two searches: each search has a new tag, of 16 bits. Here any number of
searches take their steps in any order.

* `VisitedList`: the array and the tag; `look`: one element of a list of links;
* `Searches`, `advance`: the pool, the lists, and one step of one search;
* `Sound`, `sound_advance`: no list is with two searches, or with one and in the pool, and each search is
  as far as it is if it is alone and marks in a set;
* `searches_of_run`: each search that ends has found what `searchKnn` finds.
-/

namespace AwaDB.Index

open Lib

/-- `VisitedList`: `curV` and `mass`. -/
abbrev VisitedList := TagSet 16

namespace HierarchicalNSW

variable {D : Type} [LinearOrder D] {ι : Type} [DecidableEq ι]

/-- A query, and what `searchKnn` gets with it. -/
structure Query (V D : Type) where
  rc : RetrievalContext D
  q : V
  k : ℕ
  efSearch : ℕ
  doEfSearchCheck : Bool

/-- A search: what it searches, its entry point, and the bound that it starts with. -/
structure Task (D : Type) [LinearOrder D] where
  search : BestFirst D ℕ
  start : ℕ
  bound : WithTop D

/-- The search of level `0` for a query, from the element that the descent ends at. -/
def Query.task {V : Type} (std : Containers D) (space : Space V D) (g : Graph V) (x : Query V D) :
    Option (Task D) :=
  match g.entry with
  | none => none
  | some (enterpoint, maxlevel) =>
    match descend g true (queryDist space x.rc g x.q) 0 maxlevel enterpoint with
    | .error _ => none
    | .ok currObj =>
      some {
        search := baseLayerST std space x.rc g x.q (g.numDeleted != 0) (max x.efSearch x.k) x.efSearch
          x.doEfSearchCheck
        start := currObj
        bound := if !(g.numDeleted != 0) || !g.deleted currObj then
          ((queryDist space x.rc g x.q currObj : D) : WithTop D) else ⊤ }

/-- The local variables of a search: `candidate_set`, `top_candidates`, `lowerBound` and `nstep`. -/
structure Front (D : Type) where
  candidates : List (WithTop D × ℕ)
  found : List (D × ℕ)
  bound : WithTop D
  steps : ℕ

/-- Where a search is, with the address of its visited list: it has not begun, has a list, is between two
candidates, looks at the links of one, has ended, or has given its list back. -/
inductive Phase (D : Type) where
  | waits
  | taken (vl : ℕ)
  | loop (vl : ℕ) (f : Front D)
  | links (vl : ℕ) (f : Front D) (js : List ℕ)
  | ended (vl : ℕ) (found : List (D × ℕ))
  | done (found : List (D × ℕ))

/-- The visited lists at their addresses, `VisitedListPool`, the next address, and the searches. -/
structure Searches (ι D : Type) where
  lists : ℕ → VisitedList
  pool : List ℕ
  next : ℕ
  phase : ι → Phase D

/-- One element of a list of links. -/
def look (b : BestFirst D ℕ) (vl : VisitedList) (f : Front D) (j : ℕ) : VisitedList × Front D :=
  if vl.mem j then (vl, f)
  else if f.found.length < b.ef ∨ (b.dist j : WithTop D) < f.bound then
    (vl.mark j,
      { f with
        candidates := (↑(b.dist j), j) :: f.candidates
        found := b.kept j f.found
        bound := b.worst (b.kept j f.found) f.bound })
  else (vl.mark j, f)

namespace Searches

section Program

variable (memory : ℕ → List ℕ) (tasks : ι → Task D)

/-- The search `t` is at `p`. -/
def move (s : Searches ι D) (t : ι) (p : Phase D) : Searches ι D :=
  { s with phase := Function.update s.phase t p }

/-- The visited list at an address. -/
def write (s : Searches ι D) (a : ℕ) (vl : VisitedList) : Searches ι D :=
  { s with lists := Function.update s.lists a vl }

/-- The next step of a search. A new list has what is in the memory; `mass` is not read or written beyond
its end. -/
def advance (t : ι) (s : Searches ι D) : Outcome Unit (Searches ι D) :=
  let b := (tasks t).search
  match s.phase t with
  | .waits =>
    -- `getFreeVisitedList`, while it has the lock
    match s.pool with
    | a :: pool => .done ({ s with pool := pool }.move t (.taken a))
    | [] =>
      .done (({ s with next := s.next + 1 }.write s.next (TagSet.create (memory s.next))).move t
        (.taken s.next))
  | .taken a =>
    let vl := (s.lists a).reset
    if (tasks t).start < vl.cells.length then
      .done ((s.write a (vl.mark (tasks t).start)).move t
        (.loop a ⟨[((tasks t).bound, (tasks t).start)], b.offered (tasks t).start [], (tasks t).bound, 0⟩))
    else .broken
  | .loop a f =>
    match b.near.pop f.candidates with
    | none => .done (s.move t (.ended a f.found))
    | some (c, rest) =>
      if f.bound < c.1 ∧ b.stops f.found.length = true then .done (s.move t (.ended a f.found))
      else
        match b.links c.2 with
        | none => .broken
        | some js => .done (s.move t (.links a { f with candidates := rest, steps := f.steps + 1 } js))
  | .links a f [] => .done (s.move t (if b.exhausted f.steps then .ended a f.found else .loop a f))
  | .links a f (j :: js) =>
    let r := look b (s.lists a) f j
    if j < (s.lists a).cells.length then .done ((s.write a r.1).move t (.links a r.2 js)) else .broken
  | .ended a found => .done ({ s with pool := a :: s.pool }.move t (.done found))
  | .done _ => .refused ()

/-- A step that is taken. -/
def step (t : ι) (s : Searches ι D) : Option (Searches ι D) :=
  match advance memory tasks t s with
  | .done s => some s
  | _ => none

/-- `VisitedListPool(1, max_elements)`. -/
def start : Searches ι D := ⟨fun a => TagSet.create (memory a), [0], 1, fun _ => .waits⟩

end Program

/-! ### The array and the set -/

/-- A front with the set of the elements seen. -/
def progress (f : Front D) (seen : Finset ℕ) : Progress D ℕ :=
  ⟨seen, f.candidates, f.found, f.bound, f.steps⟩

/-- The marks of a list are a set. -/
def Marks (vl : VisitedList) (seen : Finset ℕ) : Prop := ∀ i, vl.mem i = true ↔ i ∈ seen

variable {vl : VisitedList} {seen : Finset ℕ} {j : ℕ}

theorem Marks.mark (h : Marks vl seen) (hj : j < vl.cells.length) : Marks (vl.mark j) (insert j seen) := by
  intro i
  rw [TagSet.mem_mark hj, Bool.or_eq_true, decide_eq_true_eq, Finset.mem_insert, h i]

/-- **An element is looked at** in the array as in the set. -/
theorem look_spec (b : BestFirst D ℕ) (h : Marks vl seen) (hj : j < vl.cells.length) (f : Front D) :
    Marks (look b vl f j).1 (insert j seen) ∧
      progress (look b vl f j).2 (insert j seen) = b.visit (progress f seen) j := by
  rw [look, BestFirst.visit]
  show _ ∧ _ = if j ∈ seen then _ else if f.found.length < b.ef ∨ _ < f.bound then _ else _
  by_cases hmem : j ∈ seen
  · rw [if_pos ((h j).mpr hmem), if_pos hmem, Finset.insert_eq_self.mpr hmem]
    exact ⟨h, rfl⟩
  · rw [if_neg fun hold => hmem ((h j).mp hold), if_neg hmem]
    split <;> exact ⟨h.mark hj, rfl⟩

theorem length_look (b : BestFirst D ℕ) (vl : VisitedList) (f : Front D) (j : ℕ) :
    (look b vl f j).1.cells.length = vl.cells.length := by
  rw [look]
  split
  · rfl
  · split <;> exact TagSet.length_mark

theorem ready_look (b : BestFirst D ℕ) (h : vl.Ready) (f : Front D) (j : ℕ) :
    (look b vl f j).1.Ready := by
  rw [look]
  split
  · exact h
  · split <;> exact TagSet.ready_mark h j

theorem candidates_look (b : BestFirst D ℕ) (vl : VisitedList) (f : Front D) (j : ℕ) :
    ∀ c ∈ (look b vl f j).2.candidates, c ∈ f.candidates ∨ c.2 = j := by
  rw [look]
  split
  · exact fun c hc => .inl hc
  · split
    · intro c hc
      cases List.mem_cons.mp hc with
      | inl heq => exact .inr (by rw [heq])
      | inr hold => exact .inl hold
    · exact fun c hc => .inl hc

/-! ### One search -/

/-- **A search is on course**: what the search with a set comes to is what it comes to from here. -/
def OnCourse (task : Task D) (S : Finset ℕ) (lists : ℕ → VisitedList) : Phase D → Prop
  | .waits => True
  | .taken _ => True
  | .loop a f => (∀ c ∈ f.candidates, c.2 ∈ S) ∧ ∃ seen, Marks (lists a) seen ∧ ∃ k, ∀ fuel,
      task.search.run (k + fuel) (task.search.begins task.start task.bound) =
        task.search.run fuel (progress f seen)
  | .links a f js => (∀ c ∈ f.candidates, c.2 ∈ S) ∧ (∀ j ∈ js, j ∈ S) ∧ ∃ seen, Marks (lists a) seen ∧
      ∃ k, ∀ fuel, task.search.run (k + fuel) (task.search.begins task.start task.bound) =
        let s := js.foldl task.search.visit (progress f seen)
        if task.search.exhausted s.steps then some s else task.search.run fuel s
  | .ended _ found | .done found => ∃ r : Progress D ℕ, r.found = found ∧ ∃ k, ∀ fuel,
      task.search.run (k + fuel) (task.search.begins task.start task.bound) = some r

/-- The list that a search has. -/
def holds : Phase D → Option ℕ
  | .taken a | .loop a _ | .links a _ _ | .ended a _ => some a
  | .waits | .done _ => none

/-- Another list is of no concern to a search. -/
theorem OnCourse.congr {task : Task D} {S : Finset ℕ} {lists lists' : ℕ → VisitedList} {p : Phase D}
    (h : OnCourse task S lists p) (hsame : ∀ a, holds p = some a → lists' a = lists a) :
    OnCourse task S lists' p := by
  cases p with
  | waits => exact h
  | taken a => exact h
  | loop a f =>
    obtain ⟨hcandidates, seen, hmarks, hrun⟩ := h
    rw [← hsame a rfl] at hmarks
    exact ⟨hcandidates, seen, hmarks, hrun⟩
  | links a f js =>
    obtain ⟨hcandidates, hjs, seen, hmarks, hrun⟩ := h
    rw [← hsame a rfl] at hmarks
    exact ⟨hcandidates, hjs, seen, hmarks, hrun⟩
  | ended a found => exact h
  | done found => exact h

section Rounds

variable {b : BestFirst D ℕ} {p : Progress D ℕ} {c : WithTop D × ℕ} {rest : List (WithTop D × ℕ)}

/-- More fuel changes nothing. -/
theorem run_add {fuel : ℕ} {r : Progress D ℕ} (h : b.run fuel p = some r) (k : ℕ) :
    b.run (fuel + k) p = some r := by
  induction fuel generalizing p with
  | zero => cases h
  | succ fuel ih =>
    rw [Nat.add_right_comm]
    rw [BestFirst.run] at h ⊢
    cases hpop : b.near.pop p.candidates with
    | none =>
      rw [hpop] at h
      exact h
    | some top =>
      rw [hpop] at h
      dsimp only at h ⊢
      split
      · rename_i hstop
        rwa [if_pos hstop] at h
      · rename_i hstop
        rw [if_neg hstop] at h
        cases hlinks : b.links top.1.2 with
        | none =>
          rw [hlinks] at h
          cases h
        | some js =>
          rw [hlinks] at h
          dsimp only at h ⊢
          split
          · rename_i hexhausted
            rwa [if_pos hexhausted] at h
          · rename_i hexhausted
            rw [if_neg hexhausted] at h
            exact ih h

theorem run_of_none (h : b.near.pop p.candidates = none) (fuel : ℕ) : b.run (fuel + 1) p = some p := by
  rw [BestFirst.run, h]

theorem run_of_stops (h : b.near.pop p.candidates = some (c, rest))
    (hstop : p.bound < c.1 ∧ b.stops p.found.length = true) (fuel : ℕ) : b.run (fuel + 1) p = some p := by
  rw [BestFirst.run, h]
  exact if_pos hstop

theorem run_of_links (h : b.near.pop p.candidates = some (c, rest))
    (hstop : ¬(p.bound < c.1 ∧ b.stops p.found.length = true)) {js : List ℕ}
    (hlinks : b.links c.2 = some js) (fuel : ℕ) : b.run (fuel + 1) p =
      let s := js.foldl b.visit { p with candidates := rest, steps := p.steps + 1 }
      if b.exhausted s.steps then some s else b.run fuel s := by
  rw [BestFirst.run, h]
  dsimp only
  rw [if_neg hstop, hlinks]

end Rounds

/-! ### All searches -/

variable {n : ℕ} {memory : ℕ → List ℕ} {tasks : ι → Task D} {S : Finset ℕ} {s : Searches ι D} {t : ι}
  {a : ℕ} {p : Phase D}

/-- **Between two steps**: the lists are ready to be reset, those in the pool and those of the searches are
all different, and each search is on course. -/
structure Sound (n : ℕ) (tasks : ι → Task D) (S : Finset ℕ) (s : Searches ι D) : Prop where
  lists : ∀ a, (s.lists a).Ready ∧ (s.lists a).cells.length = n
  once : s.pool.Nodup
  old : ∀ a ∈ s.pool, a < s.next
  owned : ∀ t a, holds (s.phase t) = some a → a < s.next ∧ a ∉ s.pool
  alone : ∀ t t' a, holds (s.phase t) = some a → holds (s.phase t') = some a → t = t'
  course : ∀ t, OnCourse (tasks t) S s.lists (s.phase t)

omit [LinearOrder D] in
theorem move_self (s : Searches ι D) (t : ι) (p : Phase D) : (s.move t p).phase t = p :=
  Function.update_self ..

omit [LinearOrder D] in
theorem move_of_ne {t' : ι} (s : Searches ι D) (h : t' ≠ t) (p : Phase D) :
    (s.move t p).phase t' = s.phase t' :=
  Function.update_of_ne h ..

omit [LinearOrder D] [DecidableEq ι] in
theorem write_self (s : Searches ι D) (a : ℕ) : s.write a (s.lists a) = s := by
  rw [write, Function.update_eq_self]

/-- **A search goes on with its list.** -/
theorem Sound.move_write (h : Sound n tasks S s) (hhold : holds (s.phase t) = some a)
    (hp : holds p = some a) {vl : VisitedList} (hready : vl.Ready) (hlen : vl.cells.length = n)
    (hcourse : OnCourse (tasks t) S (Function.update s.lists a vl) p) :
    Sound n tasks S ((s.write a vl).move t p) where
  lists b := by
    show (Function.update s.lists a vl b).Ready ∧ (Function.update s.lists a vl b).cells.length = n
    by_cases hb : b = a
    · rw [hb, Function.update_self]
      exact ⟨hready, hlen⟩
    · rw [Function.update_of_ne hb]
      exact h.lists b
  once := h.once
  old := h.old
  owned t' b hb := by
    by_cases ht : t' = t
    · rw [ht, move_self, hp] at hb
      cases hb
      exact h.owned t a hhold
    · rw [move_of_ne _ ht] at hb
      exact h.owned t' b hb
  alone t₁ t₂ b h₁ h₂ := by
    by_cases ht₁ : t₁ = t
    · by_cases ht₂ : t₂ = t
      · rw [ht₁, ht₂]
      · rw [ht₁, move_self, hp] at h₁
        cases h₁
        rw [move_of_ne _ ht₂] at h₂
        exact ht₁.trans (h.alone t t₂ a hhold h₂)
    · rw [move_of_ne _ ht₁] at h₁
      by_cases ht₂ : t₂ = t
      · rw [ht₂, move_self, hp] at h₂
        cases h₂
        exact (h.alone t₁ t a h₁ hhold).trans ht₂.symm
      · rw [move_of_ne _ ht₂] at h₂
        exact h.alone t₁ t₂ b h₁ h₂
  course t' := by
    by_cases ht : t' = t
    · rw [ht, move_self]
      exact hcourse
    · rw [move_of_ne _ ht]
      refine (h.course t').congr fun b hb => ?_
      have hne : b ≠ a := by
        rintro rfl
        exact ht (h.alone t' t b hb hhold)
      exact Function.update_of_ne hne ..

/-- A search goes on without a change of its list. -/
theorem Sound.move (h : Sound n tasks S s) (hhold : holds (s.phase t) = some a) (hp : holds p = some a)
    (hcourse : OnCourse (tasks t) S s.lists p) : Sound n tasks S (s.move t p) := by
  have hwrite := h.move_write hhold hp (h.lists a).1 (h.lists a).2 (by rwa [Function.update_eq_self])
  rwa [write_self] at hwrite

/-- **A search takes a list from the pool.** -/
theorem Sound.take (h : Sound n tasks S s) {pool : List ℕ} (hpool : s.pool = a :: pool) :
    Sound n tasks S ({ s with pool := pool }.move t (.taken a)) := by
  have honce := h.once
  rw [hpool] at honce
  obtain ⟨hnew, hnodup⟩ := List.nodup_cons.mp honce
  have ha : a ∈ s.pool := by
    rw [hpool]
    exact List.mem_cons_self
  have hsub : ∀ b ∈ pool, b ∈ s.pool := by
    intro b hb
    rw [hpool]
    exact List.mem_cons_of_mem a hb
  refine ⟨h.lists, hnodup, fun b hb => h.old b (hsub b hb), fun t' b hb => ?_, fun t₁ t₂ b h₁ h₂ => ?_,
    fun t' => ?_⟩
  · by_cases ht : t' = t
    · rw [ht, move_self] at hb
      cases hb
      exact ⟨h.old a ha, hnew⟩
    · rw [move_of_ne _ ht] at hb
      exact ⟨(h.owned t' b hb).1, fun hmem => (h.owned t' b hb).2 (hsub b hmem)⟩
  · by_cases ht₁ : t₁ = t
    · by_cases ht₂ : t₂ = t
      · rw [ht₁, ht₂]
      · rw [ht₁, move_self] at h₁
        cases h₁
        rw [move_of_ne _ ht₂] at h₂
        exact absurd ha (h.owned t₂ a h₂).2
    · rw [move_of_ne _ ht₁] at h₁
      by_cases ht₂ : t₂ = t
      · rw [ht₂, move_self] at h₂
        cases h₂
        exact absurd ha (h.owned t₁ a h₁).2
      · rw [move_of_ne _ ht₂] at h₂
        exact h.alone t₁ t₂ b h₁ h₂
  · by_cases ht : t' = t
    · rw [ht, move_self]
      exact trivial
    · rw [move_of_ne _ ht]
      exact h.course t'

omit [DecidableEq ι] in
/-- A list is made, and put into the pool. -/
theorem Sound.make (h : Sound n tasks S s) (hmemory : (memory s.next).length = n) :
    Sound n tasks S
      { s.write s.next (TagSet.create (memory s.next)) with pool := [s.next], next := s.next + 1 } := by
  have hne : ∀ t' b, holds (s.phase t') = some b → b ≠ s.next := fun t' b hb =>
    Nat.ne_of_lt (h.owned t' b hb).1
  refine ⟨fun b => ?_, List.nodup_singleton _, fun b hb => ?_, fun t' b hb => ⟨?_, fun hmem => ?_⟩, h.alone,
    fun t' => (h.course t').congr fun b hb => Function.update_of_ne (hne t' b hb) ..⟩
  · show (Function.update s.lists s.next _ b).Ready ∧ (Function.update s.lists s.next _ b).cells.length = n
    by_cases hb : b = s.next
    · rw [hb, Function.update_self]
      exact ⟨TagSet.ready_create _, hmemory⟩
    · rw [Function.update_of_ne hb]
      exact h.lists b
  · rw [List.mem_singleton.mp hb]
    exact Nat.lt_succ_self _
  · exact Nat.lt_succ_of_lt (h.owned t' b hb).1
  · exact hne t' b hb (List.mem_singleton.mp hmem)

/-- **A search gives its list back.** -/
theorem Sound.release (h : Sound n tasks S s) (hhold : holds (s.phase t) = some a) (hp : holds p = none)
    (hcourse : OnCourse (tasks t) S s.lists p) :
    Sound n tasks S ({ s with pool := a :: s.pool }.move t p) := by
  obtain ⟨hlt, hnot⟩ := h.owned t a hhold
  refine ⟨h.lists, List.nodup_cons.mpr ⟨hnot, h.once⟩, List.forall_mem_cons.mpr ⟨hlt, h.old⟩,
    fun t' b hb => ?_, fun t₁ t₂ b h₁ h₂ => ?_, fun t' => ?_⟩
  · have ht : t' ≠ t := by
      rintro rfl
      rw [move_self, hp] at hb
      cases hb
    rw [move_of_ne _ ht] at hb
    refine ⟨(h.owned t' b hb).1, fun hmem => ?_⟩
    cases List.mem_cons.mp hmem with
    | inl heq =>
      rw [heq] at hb
      exact ht (h.alone t' t a hb hhold)
    | inr hold => exact (h.owned t' b hb).2 hold
  · have hother : ∀ t', holds (({ s with pool := a :: s.pool }.move t p).phase t') = some b → t' ≠ t := by
      rintro t' h' rfl
      rw [move_self, hp] at h'
      cases h'
    rw [move_of_ne _ (hother t₁ h₁)] at h₁
    rw [move_of_ne _ (hother t₂ h₂)] at h₂
    exact h.alone t₁ t₂ b h₁ h₂
  · by_cases ht : t' = t
    · rw [ht, move_self]
      exact hcourse
    · rw [move_of_ne _ ht]
      exact h.course t'

/-- A search resets its list and marks where it starts. -/
theorem Sound.reset (h : Sound n tasks S s) (hS : ∀ v ∈ S, v < n) (hstart : (tasks t).start ∈ S)
    (hphase : s.phase t = .taken a) : (advance memory tasks t s).Safe (Sound n tasks S) := by
  have hhold : holds (s.phase t) = some a := by rw [hphase]; rfl
  rw [advance, hphase]
  dsimp only
  obtain ⟨hready, hlen⟩ := h.lists a
  have hreset : (s.lists a).reset.Ready := TagSet.ready_reset (by decide) hready
  have hlt : (tasks t).start < (s.lists a).reset.cells.length := by
    rw [TagSet.length_reset, hlen]
    exact hS _ hstart
  simp only [if_pos hlt]
  refine h.move_write hhold rfl (TagSet.ready_mark hreset _)
    (by rw [TagSet.length_mark, TagSet.length_reset, hlen]) ⟨fun c hc => ?_, {(tasks t).start}, ?_, 0, ?_⟩
  · rw [List.mem_singleton.mp hc]
    exact hstart
  · rw [Function.update_self]
    have hempty : Marks (s.lists a).reset ∅ := by
      intro i
      rw [TagSet.not_mem_reset (by decide) hready]
      simp
    exact hempty.mark hlt
  · intro fuel
    rw [Nat.zero_add]
    rfl

/-- A search takes its nearest candidate, or ends. -/
theorem Sound.round (h : Sound n tasks S s) (hwithin : (tasks t).search.Within S) {f : Front D}
    (hphase : s.phase t = .loop a f) : (advance memory tasks t s).Safe (Sound n tasks S) := by
  have hhold : holds (s.phase t) = some a := by rw [hphase]; rfl
  have hcourse := h.course t
  rw [hphase] at hcourse
  rw [advance, hphase]
  dsimp only
  obtain ⟨hcandidates, seen, hmarks, k, hrun⟩ := hcourse
  have hnext : ∀ fuel, (tasks t).search.run (k + 1 + fuel)
      ((tasks t).search.begins (tasks t).start (tasks t).bound) =
        (tasks t).search.run (fuel + 1) (progress f seen) := by
    intro fuel
    rw [← hrun (fuel + 1), Nat.add_assoc, Nat.add_comm 1 fuel]
  cases hpop : (tasks t).search.near.pop f.candidates with
  | none =>
    show Sound n tasks S (s.move t (.ended a f.found))
    refine h.move hhold rfl ⟨progress f seen, rfl, k + 1, fun fuel => ?_⟩
    rw [hnext]
    exact run_of_none hpop fuel
  | some top =>
    obtain ⟨c, rest⟩ := top
    have hperm := PriorityQueue.perm_of_pop hpop
    dsimp only
    split
    · rename_i hstop
      show Sound n tasks S (s.move t (.ended a f.found))
      refine h.move hhold rfl ⟨progress f seen, rfl, k + 1, fun fuel => ?_⟩
      rw [hnext]
      exact run_of_stops (p := progress f seen) hpop hstop fuel
    · rename_i hstop
      have hc : c.2 ∈ S := hcandidates c (hperm.mem_iff.mpr List.mem_cons_self)
      obtain ⟨js, hlinks, hjs⟩ := hwithin c.2 hc
      rw [hlinks]
      refine h.move hhold rfl ⟨fun d hd => ?_, hjs, seen, hmarks, k + 1, fun fuel => ?_⟩
      · exact hcandidates d (hperm.mem_iff.mpr (List.mem_cons_of_mem c hd))
      · rw [hnext]
        exact run_of_links (p := progress f seen) hpop hstop hlinks fuel

/-- A search looks at the next link of a candidate. -/
theorem Sound.link (h : Sound n tasks S s) (hS : ∀ v ∈ S, v < n) {f : Front D} {js : List ℕ}
    (hphase : s.phase t = .links a f js) : (advance memory tasks t s).Safe (Sound n tasks S) := by
  have hhold : holds (s.phase t) = some a := by rw [hphase]; rfl
  have hcourse := h.course t
  rw [hphase] at hcourse
  rw [advance, hphase]
  obtain ⟨hcandidates, hjs, seen, hmarks, k, hrun⟩ := hcourse
  obtain ⟨hready, hlen⟩ := h.lists a
  cases js with
  | nil =>
    dsimp only [List.foldl_nil] at hrun
    show Sound n tasks S (s.move t _)
    split
    · rename_i hexhausted
      refine h.move hhold rfl ⟨progress f seen, rfl, k, fun fuel => ?_⟩
      rw [hrun]
      exact if_pos hexhausted
    · rename_i hexhausted
      refine h.move hhold rfl ⟨hcandidates, seen, hmarks, k, fun fuel => ?_⟩
      rw [hrun]
      exact if_neg hexhausted
  | cons j js =>
    obtain ⟨hj, hjs⟩ := List.forall_mem_cons.mp hjs
    have hlt : j < (s.lists a).cells.length := by
      rw [hlen]
      exact hS j hj
    obtain ⟨hmarks', hvisit⟩ := look_spec (tasks t).search hmarks hlt f
    simp only [if_pos hlt]
    refine h.move_write hhold rfl (ready_look _ hready f j) (by rw [length_look, hlen])
      ⟨fun c hc => ?_, hjs, insert j seen, ?_, k, fun fuel => ?_⟩
    · rcases candidates_look _ _ f j c hc with hold | heq
      · exact hcandidates c hold
      · rw [heq]
        exact hj
    · rw [Function.update_self]
      exact hmarks'
    · rw [hrun, List.foldl_cons, hvisit]

/-- **One step of one search.** It does not leave the array or follow a link into nothing, and keeps what
holds between two steps. -/
theorem sound_advance (hmemory : ∀ a, (memory a).length = n) (hS : ∀ v ∈ S, v < n)
    (hstart : (tasks t).start ∈ S) (hwithin : (tasks t).search.Within S) (h : Sound n tasks S s) :
    (advance memory tasks t s).Safe (Sound n tasks S) := by
  cases hphase : s.phase t with
  | waits =>
    rw [advance, hphase]
    dsimp only
    cases hpool : s.pool with
    | nil =>
      have hmake := (h.make (hmemory s.next)).take (t := t) rfl
      obtain ⟨lists, pool, next, phase⟩ := s
      cases hpool
      exact hmake
    | cons a pool => exact h.take hpool
  | taken a => exact h.reset hS hstart hphase
  | loop a f => exact h.round hwithin hphase
  | links a f js => exact h.link hS hphase
  | ended a found =>
    have hcourse := h.course t
    have hhold : holds (s.phase t) = some a := by rw [hphase]; rfl
    rw [hphase] at hcourse
    rw [advance, hphase]
    exact h.release hhold rfl hcourse
  | done found =>
    rw [advance, hphase]
    exact trivial

omit [DecidableEq ι] in
theorem sound_start (hmemory : ∀ a, (memory a).length = n) : Sound n tasks S (start memory) where
  lists a := ⟨TagSet.ready_create _, hmemory a⟩
  once := List.nodup_singleton _
  old b hb := by
    rw [List.mem_singleton.mp hb]
    exact Nat.one_pos
  owned t b hb := by cases hb
  alone t t' b hb := by cases hb
  course t := trivial

/-- Every step of every search. -/
theorem sound_step (hmemory : ∀ a, (memory a).length = n) (hS : ∀ v ∈ S, v < n)
    (htasks : ∀ t, (tasks t).start ∈ S ∧ (tasks t).search.Within S) (t : ι) (s s' : Searches ι D)
    (h : Sound n tasks S s) (hstep : step memory tasks t s = some s') : Sound n tasks S s' := by
  have hsafe := sound_advance hmemory hS (htasks t).1 (htasks t).2 h
  rw [step] at hstep
  cases hadvance : advance memory tasks t s with
  | done s'' =>
    rw [hadvance] at hstep hsafe
    cases hstep
    exact hsafe
  | refused u =>
    rw [hadvance] at hstep
    cases hstep
  | broken =>
    rw [hadvance] at hstep
    cases hstep

/-! ### Searches of an index -/

variable {V : Type} {g : Graph V} {p : Params} {std : Containers D} {space : Space V D}

/-- **The search of a query** ends if it is alone, and `searchKnn` returns what it finds. -/
theorem task_spec (h : g.Valid p) {x : Query V D} {task : Task D} (htask : x.task std space g = some task) :
    task.start ∈ g.onLevel 0 ∧ task.search.Within (g.onLevel 0) ∧ ∃ r : Progress D ℕ,
      task.search.run (g.count + 1) (task.search.begins task.start task.bound) = some r ∧
      searchKnn std space x.rc g x.q x.k x.efSearch x.doEfSearchCheck =
        .ok (std.far.shrunk x.k r.found) := by
  rw [Query.task] at htask
  cases hentry : g.entry with
  | none =>
    rw [hentry] at htask
    cases htask
  | some entry =>
    obtain ⟨enterpoint, maxlevel⟩ := entry
    obtain ⟨hep, hlevel, -⟩ := h.entry_some enterpoint maxlevel hentry
    have hS := h.toOrdered.region
    have hstart : enterpoint ∈ g.onLevel (0 + maxlevel) := by
      rw [Nat.zero_add]
      exact Graph.mem_onLevel.mpr ⟨hep, hlevel.ge⟩
    obtain ⟨currObj, hcurr, hdescend, -, -⟩ :=
      descend_spec hS h.room true (queryDist space x.rc g x.q) 0 maxlevel hstart
    rw [hentry] at htask
    simp only [hdescend, Option.some.injEq] at htask
    subst htask
    have hwithin : (baseLayerST std space x.rc g x.q (g.numDeleted != 0) (max x.efSearch x.k) x.efSearch
        x.doEfSearchCheck).Within (g.onLevel 0) := fun v hv =>
      ⟨g.links v 0, hS.toOption hv, hS.closed 0 v hv⟩
    generalize hbound : (if !(g.numDeleted != 0) || !g.deleted currObj then
      ((queryDist space x.rc g x.q currObj : D) : WithTop D) else ⊤) = bound
    have hadmits : (baseLayerST std space x.rc g x.q (g.numDeleted != 0) (max x.efSearch x.k) x.efSearch
        x.doEfSearchCheck).admits currObj = true → bound = queryDist space x.rc g x.q currObj := by
      intro hadmits
      rw [← hbound, if_pos (Bool.and_eq_true_iff.mp hadmits).1]
    obtain ⟨r, hrun⟩ := Option.isSome_iff_exists.mp
      (BestFirst.search_isSome hwithin hcurr hadmits (hS.card_lt 0))
    refine ⟨hcurr, hwithin, r, hrun, ?_⟩
    simp only [searchKnn, if_neg (Nat.pos_iff_ne_zero.mp (Nat.zero_lt_of_lt hep)), hentry, hdescend,
      searchBaseLayerST, hbound, hrun]

/-- **Any number of searches at a time**, in any order of their steps, of an index that does not change
meanwhile: no step leaves an array, no list is with two searches, and a search that has ended has found
what `searchKnn` finds. -/
theorem searches_of_run (std : Containers D) (space : Space V D) (memory : ℕ → List ℕ)
    (hmemory : ∀ a, (memory a).length = g.maxElements) (h : g.Valid p) {queries : ι → Query V D}
    {tasks : ι → Task D} (htasks : ∀ t, (queries t).task std space g = some (tasks t)) (l : List ι)
    {s : Searches ι D} (hrun : runOps (step memory tasks) l (start memory) = some s) :
    (∀ t, advance memory tasks t s ≠ .broken) ∧
      (∀ t t' a, holds (s.phase t) = some a → holds (s.phase t') = some a → t = t') ∧
      ∀ t found, s.phase t = .done found →
        searchKnn std space (queries t).rc g (queries t).q (queries t).k (queries t).efSearch
          (queries t).doEfSearchCheck = .ok (std.far.shrunk (queries t).k found) := by
  have hS : ∀ v ∈ g.onLevel 0, v < g.maxElements := fun v hv =>
    Nat.lt_of_lt_of_le (Graph.mem_onLevel.mp hv).1 h.room
  have hparts : ∀ t, (tasks t).start ∈ g.onLevel 0 ∧ (tasks t).search.Within (g.onLevel 0) := by
    intro t
    obtain ⟨hstart, hwithin, -⟩ := task_spec h (htasks t)
    exact ⟨hstart, hwithin⟩
  have hsound : Sound g.maxElements tasks (g.onLevel 0) s :=
    runOps_invariant (fun t s s' => sound_step hmemory hS hparts t s s') (sound_start hmemory) hrun
  refine ⟨fun t hbroken => ?_, hsound.alone, fun t found hphase => ?_⟩
  · have hsafe := sound_advance hmemory hS (hparts t).1 (hparts t).2 hsound
    rw [hbroken] at hsafe
    exact hsafe
  · obtain ⟨-, -, r, hr, hresult⟩ := task_spec h (htasks t)
    have hcourse := hsound.course t
    rw [hphase] at hcourse
    obtain ⟨r', rfl, k, hcourse⟩ := hcourse
    have hsame := run_add hr k
    rw [Nat.add_comm, hcourse] at hsame
    cases hsame
    exact hresult

/-- Two elements that are linked. -/
def linkedPair : Graph ℕ where
  data id := 4 * id + 1
  maxElements := 2
  count := 2
  level _ := 0
  links id _ := [1 - id]
  deleted _ := false
  numDeleted := 0
  entry := some (0, 0)

theorem linkedPair_valid : linkedPair.Valid .small where
  size id hid level hlevel := by
    rw [Nat.le_zero.mp hlevel]
    exact Nat.le_add_left 1 3
  nodup id hid level hlevel := List.nodup_singleton _
  closed id hid level hlevel j hj := by
    have hid : id < 2 := hid
    have hj : j = 1 - id := List.mem_singleton.mp hj
    refine ⟨?_, hlevel, ?_⟩
    · show j < 2
      omega
    · omega
  entry_none h := by cases h
  entry_some enterpoint maxlevel h := by
    cases h
    exact ⟨Nat.two_pos, rfl, fun id hid => Nat.le_refl 0⟩
  counted := rfl
  room := Nat.le_refl 2

/-- Two queries. -/
def pairQuery (t : Bool) : Query ℕ ℕ := ⟨everything, if t then 6 else 2, 1, 2, false⟩

/-- Their searches. -/
def pairTask (t : Bool) : Task ℕ where
  search := baseLayerST (.first ℕ) .small everything linkedPair (pairQuery t).q false 2 2 false
  start := 0
  bound := WithTop.some (gap (pairQuery t).q 1)

theorem searches_of_run_pair : ∃ s : Searches Bool ℕ,
    runOps (step (fun _ => [7, 7]) pairTask) ((List.replicate 10 [true, false]).flatten)
      (start fun _ => [7, 7]) = some s ∧ s.pool = [1, 0] ∧ s.phase true = .done [(1, 1), (5, 0)] ∧
      searchKnn (.first ℕ) .small everything linkedPair 6 1 2 false =
        .ok ((Containers.first ℕ).far.shrunk 1 [(1, 1), (5, 0)]) := by
  have htasks : ∀ t, (pairQuery t).task (.first ℕ) .small linkedPair = some (pairTask t) := by
    intro t
    cases t <;> rfl
  refine ⟨_, rfl, rfl, rfl, ?_⟩
  exact (searches_of_run (.first ℕ) .small (fun _ => [7, 7]) (fun _ => rfl) linkedPair_valid
    htasks ((List.replicate 10 [true, false]).flatten) rfl).2.2 true _ rfl

end Searches

end HierarchicalNSW

end AwaDB.Index
