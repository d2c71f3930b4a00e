import AwaDB.Lib.Queue
import Mathlib.Data.Finset.Card
import Mathlib.Logic.Relation
import Mathlib.Order.WithBot

/-!
# Best-first search in a graph

A search that starts at one node, takes up the nearest node it knows, looks at the nodes that one
links to, and keeps the nearest `ef` of the nodes that are admitted.

* `BestFirst`: the graph, the distances, what is admitted, and when the search stops;
* `BestFirst.Inv`: what holds in every round of the loop;
* `BestFirst.sound_of_search`: what is found is reachable and admitted, and listed once;
* `BestFirst.search_isSome`: in a finite part of the graph the loop ends;
* `BestFirst.local_of_search`: no admitted node that a found node links to was missed;
* `BestFirst.complete_of_search`: if `ef` is large enough, everything reachable and admitted is found.
-/

namespace AwaDB.Lib

variable {α D : Type*} [LinearOrder D]

/-- A best-first search. `links` is undefined where the node has no list of links; `stops n` says whether
a candidate beyond the bound ends the search when `n` nodes are kept, and `exhausted n` whether the
search ends after `n` rounds. The two queues take out the farthest kept node and the nearest candidate. -/
structure BestFirst (D α : Type*) [LinearOrder D] where
  links : α → Option (List α)
  dist : α → D
  admits : α → Bool
  ef : ℕ
  stops : ℕ → Bool
  exhausted : ℕ → Bool
  far : PriorityQueue (Prod.fst : D × α → D)
  near : PriorityQueue (fun e : WithTop D × α => OrderDual.toDual e.1)

/-- Where a search stands: the nodes seen, those still to be taken up, those kept, and the bound that a
candidate must not exceed. -/
structure Progress (D α : Type*) where
  visited : Finset α
  candidates : List (WithTop D × α)
  found : List (D × α)
  bound : WithTop D
  steps : ℕ

namespace BestFirst

variable (b : BestFirst D α)

/-! ### The loop -/

/-- The kept nodes and `j`, if it is admitted. -/
def offered (j : α) (found : List (D × α)) : List (D × α) :=
  if b.admits j then (b.dist j, j) :: found else found

/-- The nodes that are kept once `j` was offered: with more than `ef` of them the farthest one goes. -/
def kept (j : α) (found : List (D × α)) : List (D × α) :=
  if b.ef < (b.offered j found).length then
    match b.far.pop (b.offered j found) with
    | none => b.offered j found
    | some (_, rest) => rest
  else b.offered j found

/-- The distance of the farthest kept node. -/
def worst (found : List (D × α)) (bound : WithTop D) : WithTop D :=
  match b.far.pop found with
  | none => bound
  | some (top, _) => top.1

section

variable [DecidableEq α]

/-- The node `j` is seen. -/
def visit (s : Progress D α) (j : α) : Progress D α :=
  if j ∈ s.visited then s
  else if s.found.length < b.ef ∨ (b.dist j : WithTop D) < s.bound then
    { s with
      visited := insert j s.visited
      candidates := (↑(b.dist j), j) :: s.candidates
      found := b.kept j s.found
      bound := b.worst (b.kept j s.found) s.bound }
  else { s with visited := insert j s.visited }

/-- The rounds of the search. The result is undefined if a node without a list of links is taken up. -/
def run : ℕ → Progress D α → Option (Progress D α)
  | 0, _ => none
  | fuel + 1, s =>
    match b.near.pop s.candidates with
    | none => some s
    | some (c, rest) =>
      if s.bound < c.1 ∧ b.stops s.found.length = true then some s
      else
        match b.links c.2 with
        | none => none
        | some js =>
          let s' := js.foldl b.visit { s with candidates := rest, steps := s.steps + 1 }
          if b.exhausted s'.steps then some s' else run fuel s'

/-- The search as it begins. -/
def begins (start : α) (bound : WithTop D) : Progress D α where
  visited := {start}
  candidates := [(bound, start)]
  found := b.offered start []
  bound := bound
  steps := 0

end

/-! ### What is kept -/

variable {b} {found : List (D × α)} {j : α}

theorem mem_offered {e : D × α} :
    e ∈ b.offered j found ↔ e ∈ found ∨ b.admits j = true ∧ e = (b.dist j, j) := by
  rw [offered]
  split
  · rename_i hadmits
    rw [List.mem_cons, and_iff_right hadmits, or_comm]
  · rename_i hadmits
    rw [or_iff_left fun h => hadmits h.1]

theorem length_offered (j : α) (found : List (D × α)) :
    found.length ≤ (b.offered j found).length ∧ (b.offered j found).length ≤ found.length + 1 := by
  rw [offered]
  split
  · rw [List.length_cons]
    exact ⟨Nat.le_succ _, Nat.le_refl _⟩
  · exact ⟨Nat.le_refl _, Nat.le_succ _⟩

/-- What is not kept is not nearer than what is, and is only dropped where `ef` nodes are kept. -/
theorem kept_spec (j : α) (found : List (D × α)) :
    ∃ dropped, (b.kept j found ++ dropped).Perm (b.offered j found) ∧
      ∀ e ∈ dropped, b.ef ≤ (b.kept j found).length ∧ ∀ a ∈ b.kept j found, a.1 ≤ e.1 := by
  rw [kept]
  split
  · rename_i hlt
    cases hpop : b.far.pop (b.offered j found) with
    | none =>
      rw [b.far.pop_eq_none.mp hpop] at hlt
      exact absurd hlt (Nat.not_lt_zero _)
    | some r =>
      obtain ⟨top, rest⟩ := r
      have hperm := PriorityQueue.perm_of_pop hpop
      refine ⟨[top], List.perm_append_comm.trans hperm.symm, fun e he => ?_⟩
      rw [List.mem_singleton.mp he]
      refine ⟨?_, fun a ha => ?_⟩
      · have hlen := PriorityQueue.length_of_pop hpop
        show b.ef ≤ rest.length
        omega
      · exact PriorityQueue.le_of_pop hpop a (hperm.mem_iff.mpr (List.mem_cons_of_mem top ha))
  · refine ⟨[], ?_, fun e he => absurd he List.not_mem_nil⟩
    rw [List.append_nil]

theorem mem_of_mem_kept {e : D × α} (h : e ∈ b.kept j found) :
    e ∈ found ∨ b.admits j = true ∧ e = (b.dist j, j) := by
  obtain ⟨dropped, hperm, -⟩ := b.kept_spec j found
  exact mem_offered.mp (hperm.mem_iff.mp (List.mem_append_left dropped h))

theorem mem_kept_or_le {e : D × α} (h : e ∈ b.offered j found) :
    e ∈ b.kept j found ∨ b.ef ≤ (b.kept j found).length ∧ ∀ a ∈ b.kept j found, a.1 ≤ e.1 := by
  obtain ⟨dropped, hperm, hdropped⟩ := b.kept_spec j found
  cases List.mem_append.mp (hperm.mem_iff.mpr h) with
  | inl hin => exact .inl hin
  | inr hout => exact .inr (hdropped e hout)

theorem length_kept_le (j : α) (found : List (D × α)) :
    (b.kept j found).length ≤ max b.ef found.length := by
  have hoffered := b.length_offered j found
  rw [kept]
  split
  · cases hpop : b.far.pop (b.offered j found) with
    | none =>
      rw [b.far.pop_eq_none.mp hpop]
      exact Nat.zero_le _
    | some r =>
      have hlen := PriorityQueue.length_of_pop hpop
      show r.2.length ≤ _
      omega
  · omega

theorem le_length_kept (j : α) (h : b.ef ≤ found.length) : b.ef ≤ (b.kept j found).length := by
  have hoffered := b.length_offered j found
  rw [kept]
  split
  · cases hpop : b.far.pop (b.offered j found) with
    | none =>
      show b.ef ≤ (b.offered j found).length
      omega
    | some r =>
      have hlen := PriorityQueue.length_of_pop hpop
      show b.ef ≤ r.2.length
      omega
  · omega

/-- The bound is the distance of the farthest kept node, if any is kept. -/
theorem worst_spec (found : List (D × α)) (bound : WithTop D) :
    found = [] ∧ b.worst found bound = bound ∨
      (∃ e ∈ found, b.worst found bound = e.1) ∧ ∀ e ∈ found, (e.1 : WithTop D) ≤ b.worst found bound := by
  cases hpop : b.far.pop found with
  | none => exact .inl ⟨b.far.pop_eq_none.mp hpop, by rw [worst, hpop]⟩
  | some r =>
    have hworst : b.worst found bound = r.1.1 := by rw [worst, hpop]
    rw [hworst]
    refine .inr ⟨⟨r.1, ?_, rfl⟩, fun e he => WithTop.coe_le_coe.mpr (PriorityQueue.le_of_pop hpop e he)⟩
    exact (PriorityQueue.perm_of_pop hpop).mem_iff.mpr List.mem_cons_self

/-! ### The invariant -/

variable (b)

/-- There is a link from `a` to `c`. -/
def Linked (a c : α) : Prop :=
  ∃ js, b.links a = some js ∧ c ∈ js

/-- The links lead from `a` to `c`. -/
def Reach : α → α → Prop :=
  Relation.ReflTransGen b.Linked

/-- What holds between two nodes that the loop looks at. `expanded` are the nodes taken up so far. -/
structure Inv (start : α) (expanded : Finset α) (s : Progress D α) : Prop where
  started : start ∈ s.visited
  reached : ∀ v ∈ s.visited, b.Reach start v
  seen : expanded ⊆ s.visited
  counted : s.steps = expanded.card
  queued : ∀ c ∈ s.candidates, c.2 ∈ s.visited ∧ c.2 ∉ expanded
  queued_dist : ∀ c ∈ s.candidates, b.admits c.2 = true → c.1 = b.dist c.2
  once : (s.candidates.map Prod.snd).Nodup
  cover : ∀ v ∈ s.visited, v ∈ expanded ∨ (∃ c ∈ s.candidates, c.2 = v) ∨
    b.ef ≤ s.found.length ∧ s.bound ≤ b.dist v
  hits : ∀ e ∈ s.found, (e.2 ∈ expanded ∨ ∃ c ∈ s.candidates, c.2 = e.2) ∧ b.admits e.2 = true ∧
    e.1 = b.dist e.2
  distinct : (s.found.map Prod.snd).Nodup
  best : ∀ v ∈ s.visited, b.admits v = true → (b.dist v, v) ∈ s.found ∨
    b.ef ≤ s.found.length ∧ ∀ e ∈ s.found, e.1 ≤ b.dist v
  bounded : ∀ e ∈ s.found, (e.1 : WithTop D) ≤ s.bound
  tight : s.found ≠ [] → ∃ e ∈ s.found, s.bound = e.1
  size : s.found.length ≤ max b.ef 1

/-- Everything that a node taken up links to was seen. -/
def Closed (expanded : Finset α) (s : Progress D α) : Prop :=
  ∀ v ∈ expanded, ∀ js, b.links v = some js → ∀ j ∈ js, j ∈ s.visited

variable {b} {start : α} {expanded : Finset α} {s : Progress D α}

theorem inv_begins {bound : WithTop D} (hbound : b.admits start = true → bound = b.dist start) :
    b.Inv start ∅ (b.begins start bound) where
  started := Finset.mem_singleton_self start
  reached v hv := Finset.mem_singleton.mp hv ▸ .refl
  seen := Finset.empty_subset _
  counted := rfl
  queued := List.forall_mem_singleton.mpr ⟨Finset.mem_singleton_self start, Finset.notMem_empty _⟩
  queued_dist := List.forall_mem_singleton.mpr hbound
  once := List.nodup_singleton _
  cover v hv := .inr (.inl ⟨_, List.mem_cons_self, (Finset.mem_singleton.mp hv).symm⟩)
  hits e he := by
    cases mem_offered.mp he with
    | inl hmem => exact absurd hmem List.not_mem_nil
    | inr hnode =>
      obtain ⟨hadmits, rfl⟩ := hnode
      exact ⟨.inr ⟨_, List.mem_cons_self, rfl⟩, hadmits, rfl⟩
  distinct := by
    show ((b.offered start []).map Prod.snd).Nodup
    rw [offered]
    split
    · exact List.nodup_singleton _
    · exact List.nodup_nil
  best v hv hadmits := by
    rw [Finset.mem_singleton.mp hv] at hadmits ⊢
    exact .inl (mem_offered.mpr (.inr ⟨hadmits, rfl⟩))
  bounded e he := by
    cases mem_offered.mp he with
    | inl hmem => exact absurd hmem List.not_mem_nil
    | inr hnode =>
      obtain ⟨hadmits, rfl⟩ := hnode
      exact le_of_eq (hbound hadmits).symm
  tight hne := by
    obtain ⟨e, he⟩ := List.exists_mem_of_ne_nil _ hne
    refine ⟨e, he, ?_⟩
    cases mem_offered.mp he with
    | inl hmem => exact absurd hmem List.not_mem_nil
    | inr hnode =>
      obtain ⟨hadmits, rfl⟩ := hnode
      exact hbound hadmits
  size := le_trans (b.length_offered start []).2 (Nat.le_max_right _ _)

theorem Inv.found_visited (h : b.Inv start expanded s) {e : D × α} (he : e ∈ s.found) :
    e.2 ∈ s.visited := by
  obtain ⟨hin, -⟩ := h.hits e he
  rcases hin with hexp | ⟨c, hc, heq⟩
  · exact h.seen hexp
  · exact heq ▸ (h.queued c hc).1

/-- The kept nodes have distinct names, and none of them is the node that is offered. -/
theorem Inv.distinct_kept (h : b.Inv start expanded s) (hj : j ∉ s.visited) :
    ((b.kept j s.found).map Prod.snd).Nodup := by
  obtain ⟨dropped, hperm, -⟩ := b.kept_spec j s.found
  have hoffered : ((b.offered j s.found).map Prod.snd).Nodup := by
    rw [offered]
    split
    · rw [List.map_cons, List.nodup_cons]
      refine ⟨fun hmem => ?_, h.distinct⟩
      obtain ⟨e, he, heq⟩ := List.mem_map.mp hmem
      have heq' : e.2 = j := heq
      exact hj (heq' ▸ h.found_visited he)
    · exact h.distinct
  have hall := (hperm.map Prod.snd).nodup_iff.mpr hoffered
  rw [List.map_append] at hall
  exact (List.nodup_append.mp hall).1

/-- Where `ef` nodes are kept, a nearer node only brings the bound down. -/
theorem Inv.worst_le (h : b.Inv start expanded s) (hlt : (b.dist j : WithTop D) < s.bound) :
    b.worst (b.kept j s.found) s.bound ≤ s.bound := by
  rcases b.worst_spec (b.kept j s.found) s.bound with ⟨-, heq⟩ | ⟨⟨e, he, heq⟩, -⟩
  · exact le_of_eq heq
  · rw [heq]
    cases mem_of_mem_kept he with
    | inl hold => exact h.bounded e hold
    | inr hnew =>
      rw [hnew.2]
      exact le_of_lt hlt

/-- What is no nearer than `ef` kept nodes still is after a node was offered that is nearer than the
bound. -/
theorem Inv.kept_le (h : b.Inv start expanded s) (hlt : (b.dist j : WithTop D) < s.bound)
    (hfull : b.ef ≤ s.found.length) {d : D} (hle : ∀ e ∈ s.found, e.1 ≤ d) :
    ∀ e ∈ b.kept j s.found, e.1 ≤ d := by
  intro e he
  cases mem_of_mem_kept he with
  | inl hold => exact hle e hold
  | inr hnew =>
    -- the new node is nearer than the farthest kept one; and if none is kept then `ef` is 0
    cases hfound : s.found with
    | nil =>
      have hlen := b.length_kept_le j s.found
      rw [hfound, List.length_nil] at hlen hfull
      have hzero : (b.kept j []).length = 0 := by omega
      rw [hfound, List.length_eq_zero_iff.mp hzero] at he
      exact absurd he List.not_mem_nil
    | cons a l =>
      obtain ⟨t, ht, htight⟩ := h.tight (by rw [hfound]; exact List.cons_ne_nil a l)
      rw [htight, WithTop.coe_lt_coe] at hlt
      rw [hnew.2]
      exact le_trans (le_of_lt hlt) (hle t ht)

/-! ### How the loop ends -/

/-- Why the loop ends: no candidate is within the bound, or the rounds are used up. -/
def Ended (b : BestFirst D α) (s : Progress D α) : Prop :=
  s.candidates = [] ∨ (∀ c ∈ s.candidates, s.bound < c.1) ∧ b.stops s.found.length = true ∨
    b.exhausted s.steps = true

/-- Where the rounds are not used up, every kept node was taken up. -/
theorem Inv.found_expanded (h : b.Inv start expanded s) (hended : b.Ended s)
    (hrounds : b.exhausted s.steps = false) {e : D × α} (he : e ∈ s.found) : e.2 ∈ expanded := by
  obtain ⟨hin, hadmits, hdist⟩ := h.hits e he
  rcases hin with hexp | ⟨c, hc, heq⟩
  · exact hexp
  · rcases hended with hnil | ⟨hfar, -⟩ | hexhausted
    · rw [hnil] at hc
      exact absurd hc List.not_mem_nil
    · have hkey := h.queued_dist c hc (heq ▸ hadmits)
      have hlt := hfar c hc
      rw [hkey, heq, ← hdist] at hlt
      exact absurd (h.bounded e he) (not_le.mpr hlt)
    · rw [hexhausted] at hrounds
      cases hrounds

/-- Where fewer than `ef` nodes are kept, no candidate is left. -/
theorem Inv.candidates_eq_nil (h : b.Inv start expanded s) (hended : b.Ended s)
    (hrounds : b.exhausted s.steps = false)
    (hstops : (∀ n, b.stops n = true → b.ef ≤ n) ∨ ∀ v, b.Reach start v → b.admits v = true)
    (hroom : s.found.length < b.ef) : s.candidates = [] := by
  rcases hended with hnil | ⟨hfar, hstop⟩ | hexhausted
  · exact hnil
  · cases hstops with
    | inl hfull => exact absurd (hfull _ hstop) (Nat.not_le.mpr hroom)
    | inr hall =>
      -- a candidate would be among the kept nodes, and so within the bound
      by_contra hne
      obtain ⟨c, hc⟩ := List.exists_mem_of_ne_nil _ hne
      have hseen := (h.queued c hc).1
      have hadmits := hall c.2 (h.reached c.2 hseen)
      have hlt := hfar c hc
      rw [h.queued_dist c hc hadmits] at hlt
      rcases h.best c.2 hseen hadmits with hmem | ⟨hfull, -⟩
      · exact absurd (h.bounded _ hmem) (not_le.mpr hlt)
      · omega
  · rw [hexhausted] at hrounds
    cases hrounds

/-- If no candidate is left and there is room, then everything reachable was taken up. -/
theorem Inv.reach_expanded (h : b.Inv start expanded s) (hclosed : b.Closed expanded s)
    (hnil : s.candidates = []) (hroom : s.found.length < b.ef) {v : α} (hv : b.Reach start v) :
    v ∈ expanded := by
  have hseen : ∀ {w}, w ∈ s.visited → w ∈ expanded := by
    intro w hw
    rcases h.cover w hw with hexp | ⟨c, hc, -⟩ | ⟨hfull, -⟩
    · exact hexp
    · rw [hnil] at hc
      exact absurd hc List.not_mem_nil
    · omega
  induction hv with
  | refl => exact hseen h.started
  | tail _ hlink ih =>
    obtain ⟨js, hlinks, hj⟩ := hlink
    exact hseen (hclosed _ ih js hlinks _ hj)

/-- All lists of links of the nodes in `S` are there, and lead to nodes in `S`. -/
def Within (b : BestFirst D α) (S : Finset α) : Prop :=
  ∀ v ∈ S, ∃ js, b.links v = some js ∧ ∀ j ∈ js, j ∈ S

theorem Within.reach {S : Finset α} (h : b.Within S) (hstart : start ∈ S) {v : α}
    (hv : b.Reach start v) : v ∈ S := by
  induction hv with
  | refl => exact hstart
  | tail _ hlink ih =>
    obtain ⟨js, hlinks, hj⟩ := hlink
    obtain ⟨js', hlinks', hall⟩ := h _ ih
    rw [hlinks] at hlinks'
    cases hlinks'
    exact hall _ hj

/-! ### The rounds -/

section

variable [DecidableEq α]

theorem Inv.reached_insert (h : b.Inv start expanded s) (hreach : b.Reach start j) :
    ∀ v ∈ insert j s.visited, b.Reach start v := by
  intro v hv
  cases Finset.mem_insert.mp hv with
  | inl heq => exact heq ▸ hreach
  | inr hold => exact h.reached v hold

/-- A node is taken up. -/
theorem Inv.push (h : b.Inv start expanded s) (hreach : b.Reach start j) (hnew : j ∉ s.visited)
    (hpush : s.found.length < b.ef ∨ (b.dist j : WithTop D) < s.bound) :
    b.Inv start expanded { s with
      visited := insert j s.visited
      candidates := (↑(b.dist j), j) :: s.candidates
      found := b.kept j s.found
      bound := b.worst (b.kept j s.found) s.bound } := by
  have hfresh : j ∉ expanded := fun hmem => hnew (h.seen hmem)
  have hnearer : b.ef ≤ s.found.length → (b.dist j : WithTop D) < s.bound := fun hfull =>
    hpush.resolve_left (Nat.not_lt.mpr hfull)
  exact {
    started := Finset.mem_insert_of_mem h.started
    reached := h.reached_insert hreach
    seen := fun v hv => Finset.mem_insert_of_mem (h.seen hv)
    counted := h.counted
    queued := by
      refine List.forall_mem_cons.mpr ⟨⟨Finset.mem_insert_self j _, hfresh⟩, fun c hc => ?_⟩
      exact ⟨Finset.mem_insert_of_mem (h.queued c hc).1, (h.queued c hc).2⟩
    queued_dist := List.forall_mem_cons.mpr ⟨fun _ => rfl, h.queued_dist⟩
    once := by
      rw [List.map_cons, List.nodup_cons]
      refine ⟨fun hmem => ?_, h.once⟩
      obtain ⟨c, hc, heq⟩ := List.mem_map.mp hmem
      have heq' : c.2 = j := heq
      exact hnew (heq' ▸ (h.queued c hc).1)
    cover := by
      intro v hv
      cases Finset.mem_insert.mp hv with
      | inl heq => exact .inr (.inl ⟨_, List.mem_cons_self, heq.symm⟩)
      | inr hold =>
        rcases h.cover v hold with hexp | ⟨c, hc, heq⟩ | ⟨hfull, hle⟩
        · exact .inl hexp
        · exact .inr (.inl ⟨c, List.mem_cons_of_mem _ hc, heq⟩)
        · exact .inr (.inr ⟨le_length_kept j hfull, le_trans (h.worst_le (hnearer hfull)) hle⟩)
    hits := by
      intro e he
      cases mem_of_mem_kept he with
      | inl hold =>
        obtain ⟨hin, hrest⟩ := h.hits e hold
        refine ⟨?_, hrest⟩
        rcases hin with hexp | ⟨c, hc, heq⟩
        · exact .inl hexp
        · exact .inr ⟨c, List.mem_cons_of_mem _ hc, heq⟩
      | inr hnode =>
        obtain ⟨hadmits, rfl⟩ := hnode
        exact ⟨.inr ⟨_, List.mem_cons_self, rfl⟩, hadmits, rfl⟩
    distinct := h.distinct_kept hnew
    best := by
      intro v hv hadmits
      cases Finset.mem_insert.mp hv with
      | inl heq =>
        subst heq
        exact mem_kept_or_le (mem_offered.mpr (.inr ⟨hadmits, rfl⟩))
      | inr hold =>
        rcases h.best v hold hadmits with hmem | ⟨hfull, hle⟩
        · exact mem_kept_or_le (mem_offered.mpr (.inl hmem))
        · exact .inr ⟨le_length_kept j hfull, h.kept_le (hnearer hfull) hfull hle⟩
    bounded := by
      rcases b.worst_spec (b.kept j s.found) s.bound with ⟨hnil, -⟩ | ⟨-, hall⟩
      · show ∀ e ∈ b.kept j s.found, _
        rw [hnil]
        exact fun e he => absurd he List.not_mem_nil
      · exact hall
    tight := by
      rcases b.worst_spec (b.kept j s.found) s.bound with ⟨hnil, -⟩ | ⟨htight, -⟩
      · exact fun hne => absurd hnil hne
      · exact fun _ => htight
    size := by
      have hlen := b.length_kept_le j s.found
      have hsize := h.size
      show (b.kept j s.found).length ≤ _
      omega }

/-- A node is too far. -/
theorem Inv.skip (h : b.Inv start expanded s) (hreach : b.Reach start j)
    (hpush : ¬(s.found.length < b.ef ∨ (b.dist j : WithTop D) < s.bound)) :
    b.Inv start expanded { s with visited := insert j s.visited } := by
  obtain ⟨hfull, hle⟩ := not_or.mp hpush
  have hfull : b.ef ≤ s.found.length := Nat.not_lt.mp hfull
  have hle : s.bound ≤ b.dist j := not_lt.mp hle
  exact { h with
    started := Finset.mem_insert_of_mem h.started
    reached := h.reached_insert hreach
    seen := fun v hv => Finset.mem_insert_of_mem (h.seen hv)
    queued := fun c hc => ⟨Finset.mem_insert_of_mem (h.queued c hc).1, (h.queued c hc).2⟩
    cover := by
      intro v hv
      cases Finset.mem_insert.mp hv with
      | inl heq => exact .inr (.inr ⟨hfull, heq ▸ hle⟩)
      | inr hold => exact h.cover v hold
    best := by
      intro v hv hadmits
      cases Finset.mem_insert.mp hv with
      | inl heq =>
        exact .inr ⟨hfull, fun e he => heq ▸ WithTop.coe_le_coe.mp (le_trans (h.bounded e he) hle)⟩
      | inr hold => exact h.best v hold hadmits }

/-- **One node is looked at.** -/
theorem Inv.visit (h : b.Inv start expanded s) (hreach : b.Reach start j) :
    b.Inv start expanded (b.visit s j) := by
  rw [BestFirst.visit]
  split
  · exact h
  · rename_i hnew
    split
    · rename_i hpush
      exact h.push hreach hnew hpush
    · rename_i hpush
      exact h.skip hreach hpush

theorem visited_visit (s : Progress D α) (j : α) : (b.visit s j).visited = insert j s.visited := by
  rw [visit]
  split
  · rename_i hmem
    exact (Finset.insert_eq_self.mpr hmem).symm
  · split <;> rfl

theorem visited_foldl (js : List α) (s : Progress D α) :
    s.visited ⊆ (js.foldl b.visit s).visited ∧ ∀ j ∈ js, j ∈ (js.foldl b.visit s).visited := by
  induction js generalizing s with
  | nil => exact ⟨Finset.Subset.refl _, fun j hj => absurd hj List.not_mem_nil⟩
  | cons j js ih =>
    rw [List.foldl_cons]
    obtain ⟨hold, hnew⟩ := ih (b.visit s j)
    rw [visited_visit] at hold
    refine ⟨fun v hv => hold (Finset.mem_insert_of_mem hv), List.forall_mem_cons.mpr ⟨?_, hnew⟩⟩
    exact hold (Finset.mem_insert_self j _)

theorem Inv.foldl (h : b.Inv start expanded s) {js : List α} (hreach : ∀ j ∈ js, b.Reach start j) :
    b.Inv start expanded (js.foldl b.visit s) := by
  induction js generalizing s with
  | nil => exact h
  | cons j js ih =>
    obtain ⟨hj, hjs⟩ := List.forall_mem_cons.mp hreach
    exact ih (h.visit hj) hjs

/-- The nearest candidate is taken up. -/
theorem Inv.take {c : WithTop D × α} {rest : List (WithTop D × α)} (h : b.Inv start expanded s)
    (hpop : b.near.pop s.candidates = some (c, rest)) :
    b.Inv start (insert c.2 expanded) { s with candidates := rest, steps := s.steps + 1 } := by
  have hperm := PriorityQueue.perm_of_pop hpop
  have hc : c ∈ s.candidates := hperm.mem_iff.mpr List.mem_cons_self
  have hrest : ∀ c' ∈ rest, c' ∈ s.candidates := fun c' hc' =>
    hperm.mem_iff.mpr (List.mem_cons_of_mem c hc')
  have honce := (hperm.map Prod.snd).nodup_iff.mp h.once
  rw [List.map_cons, List.nodup_cons] at honce
  have hsplit : ∀ {v}, (∃ c' ∈ s.candidates, c'.2 = v) →
      v ∈ insert c.2 expanded ∨ ∃ c' ∈ rest, c'.2 = v := by
    rintro v ⟨c', hc', heq⟩
    cases List.mem_cons.mp (hperm.mem_iff.mp hc') with
    | inl hfirst => exact .inl (Finset.mem_insert.mpr (.inl (heq ▸ hfirst ▸ rfl)))
    | inr hmem => exact .inr ⟨c', hmem, heq⟩
  exact { h with
    seen := fun v hv => by
      cases Finset.mem_insert.mp hv with
      | inl heq => exact heq ▸ (h.queued c hc).1
      | inr hold => exact h.seen hold
    counted := by
      rw [Finset.card_insert_of_notMem (h.queued c hc).2, ← h.counted]
    queued := fun c' hc' => by
      obtain ⟨hseen, hfresh⟩ := h.queued c' (hrest c' hc')
      refine ⟨hseen, fun hmem => ?_⟩
      cases Finset.mem_insert.mp hmem with
      | inl heq => exact honce.1 (heq ▸ List.mem_map_of_mem hc')
      | inr hold => exact hfresh hold
    queued_dist := fun c' hc' => h.queued_dist c' (hrest c' hc')
    once := honce.2
    cover := fun v hv => by
      rcases h.cover v hv with hexp | hcand | hfar
      · exact .inl (Finset.mem_insert_of_mem hexp)
      · exact (hsplit hcand).imp_right .inl
      · exact .inr (.inr hfar)
    hits := fun e he => by
      obtain ⟨hin, hrest⟩ := h.hits e he
      refine ⟨?_, hrest⟩
      rcases hin with hexp | hcand
      · exact .inl (Finset.mem_insert_of_mem hexp)
      · exact hsplit hcand }

/-- **One round.** What the node that is taken up links to is looked at. -/
theorem Inv.round {c : WithTop D × α} {rest : List (WithTop D × α)} {js : List α}
    (h : b.Inv start expanded s) (hclosed : b.Closed expanded s)
    (hpop : b.near.pop s.candidates = some (c, rest)) (hlinks : b.links c.2 = some js) :
    b.Inv start (insert c.2 expanded)
        (js.foldl b.visit { s with candidates := rest, steps := s.steps + 1 }) ∧
      b.Closed (insert c.2 expanded)
        (js.foldl b.visit { s with candidates := rest, steps := s.steps + 1 }) := by
  have hc : c ∈ s.candidates := (PriorityQueue.perm_of_pop hpop).mem_iff.mpr List.mem_cons_self
  have hreach := h.reached c.2 (h.queued c hc).1
  obtain ⟨hold, hnew⟩ := visited_foldl (b := b) js { s with candidates := rest, steps := s.steps + 1 }
  constructor
  · exact (h.take hpop).foldl fun j hj => hreach.tail ⟨js, hlinks, hj⟩
  · intro v hv js' hjs'
    cases Finset.mem_insert.mp hv with
    | inl heq =>
      rw [heq, hlinks] at hjs'
      cases hjs'
      exact hnew
    | inr hexp => exact fun j hj => hold (hclosed v hexp js' hjs' j hj)

/-! ### The whole search -/

theorem inv_of_run {fuel : ℕ} {s' : Progress D α} (h : b.Inv start expanded s)
    (hclosed : b.Closed expanded s) (hrun : b.run fuel s = some s') :
    ∃ expanded', b.Inv start expanded' s' ∧ b.Closed expanded' s' ∧ b.Ended s' := by
  induction fuel generalizing s expanded with
  | zero => cases hrun
  | succ fuel ih =>
    rw [run] at hrun
    cases hpop : b.near.pop s.candidates with
    | none =>
      rw [hpop] at hrun
      cases hrun
      exact ⟨expanded, h, hclosed, .inl (b.near.pop_eq_none.mp hpop)⟩
    | some r =>
      obtain ⟨c, rest⟩ := r
      simp only [hpop] at hrun
      split at hrun
      · rename_i hstop
        cases hrun
        refine ⟨expanded, h, hclosed, .inr (.inl ⟨fun c' hc' => ?_, hstop.2⟩)⟩
        exact lt_of_lt_of_le hstop.1 (PriorityQueue.le_of_pop hpop c' hc')
      · cases hlinks : b.links c.2 with
        | none => simp [hlinks] at hrun
        | some js =>
          simp only [hlinks] at hrun
          obtain ⟨hinv, hclosed'⟩ := h.round hclosed hpop hlinks
          split at hrun
          · rename_i hexhausted
            cases hrun
            exact ⟨_, hinv, hclosed', .inr (.inr hexhausted)⟩
          · exact ih hinv hclosed' hrun

variable {fuel : ℕ} {bound : WithTop D} {s' : Progress D α}

theorem inv_of_search (hbound : b.admits start = true → bound = b.dist start)
    (hrun : b.run fuel (b.begins start bound) = some s') :
    ∃ expanded, b.Inv start expanded s' ∧ b.Closed expanded s' ∧ b.Ended s' :=
  inv_of_run (inv_begins hbound) (fun v hv => absurd hv (Finset.notMem_empty v)) hrun

/-- **What is found** is reachable and admitted, with its distance, and is listed once. -/
theorem sound_of_search (hbound : b.admits start = true → bound = b.dist start)
    (hrun : b.run fuel (b.begins start bound) = some s') :
    (∀ e ∈ s'.found, b.Reach start e.2 ∧ b.admits e.2 = true ∧ e.1 = b.dist e.2) ∧
      (s'.found.map Prod.snd).Nodup ∧ s'.found.length ≤ max b.ef 1 := by
  obtain ⟨expanded, h, -, -⟩ := inv_of_search hbound hrun
  exact ⟨fun e he => ⟨h.reached _ (h.found_visited he), (h.hits e he).2⟩, h.distinct, h.size⟩

/-- If the start is admitted, then something is found. -/
theorem found_ne_nil_of_search (hef : 0 < b.ef) (hadmits : b.admits start = true)
    (hrun : b.run fuel (b.begins start (b.dist start)) = some s') : s'.found ≠ [] := by
  obtain ⟨expanded, h, -, -⟩ := inv_of_search (fun _ => rfl) hrun
  intro hnil
  rcases h.best start h.started hadmits with hmem | ⟨hfull, -⟩
  · rw [hnil] at hmem
    exact absurd hmem List.not_mem_nil
  · rw [hnil, List.length_nil] at hfull
    omega

/-- **No near link is missed.** An admitted node that a found node links to is found, or `ef` nodes are
found and none of them is farther. -/
theorem local_of_search (hbound : b.admits start = true → bound = b.dist start)
    (hrounds : ∀ n, b.exhausted n = false) (hrun : b.run fuel (b.begins start bound) = some s')
    {e : D × α} (he : e ∈ s'.found) (hlinked : b.Linked e.2 j) (hadmits : b.admits j = true) :
    (b.dist j, j) ∈ s'.found ∨ b.ef ≤ s'.found.length ∧ ∀ e ∈ s'.found, e.1 ≤ b.dist j := by
  obtain ⟨expanded, h, hclosed, hended⟩ := inv_of_search hbound hrun
  obtain ⟨js, hlinks, hj⟩ := hlinked
  have hexp := h.found_expanded hended (hrounds _) he
  exact h.best j (hclosed e.2 hexp js hlinks j hj) hadmits

/-- **A search with room finds everything.** Let `S` be the reachable nodes that are admitted, no more
than `ef` of them. If the search only stops where `ef` nodes are kept, or if everything reachable is
admitted, then exactly the nodes of `S` are found. -/
theorem complete_of_search {S : Finset α} (hS : ∀ v, v ∈ S ↔ b.Reach start v ∧ b.admits v = true)
    (hcard : S.card ≤ b.ef) (hbound : b.admits start = true → bound = b.dist start)
    (hstops : (∀ n, b.stops n = true → b.ef ≤ n) ∨ ∀ v, b.Reach start v → b.admits v = true)
    (hrun : b.run fuel (b.begins start bound) = some s') (hrounds : b.exhausted s'.steps = false) :
    ∀ e, e ∈ s'.found ↔ e.2 ∈ S ∧ e.1 = b.dist e.2 := by
  obtain ⟨expanded, h, hclosed, hended⟩ := inv_of_search hbound hrun
  have hsub : (s'.found.map Prod.snd).toFinset ⊆ S := by
    intro v hv
    obtain ⟨e, he, rfl⟩ := List.mem_map.mp (List.mem_toFinset.mp hv)
    exact (hS e.2).mpr ⟨h.reached _ (h.found_visited he), (h.hits e he).2.1⟩
  have hall : ∀ v ∈ S, (b.dist v, v) ∈ s'.found := by
    intro v hv
    obtain ⟨hreach, hadmits⟩ := (hS v).mp hv
    by_cases hroom : s'.found.length < b.ef
    · have hnil := h.candidates_eq_nil hended hrounds hstops hroom
      have hexp := h.reach_expanded hclosed hnil hroom hreach
      exact (h.best v (h.seen hexp) hadmits).resolve_right fun hfull => by omega
    · -- `ef` different nodes of `S` are all of them
      have hlen := List.toFinset_card_of_nodup h.distinct
      rw [List.length_map] at hlen
      have heq := Finset.eq_of_subset_of_card_le hsub (by omega)
      rw [← heq] at hv
      obtain ⟨e, he, rfl⟩ := List.mem_map.mp (List.mem_toFinset.mp hv)
      obtain ⟨-, -, hdist⟩ := h.hits e he
      rw [← hdist]
      exact he
  intro e
  constructor
  · intro he
    exact ⟨hsub (List.mem_toFinset.mpr (List.mem_map_of_mem he)), (h.hits e he).2.2⟩
  · rintro ⟨hv, hdist⟩
    have hmem := hall e.2 hv
    rw [← hdist] at hmem
    exact hmem

/-! ### The loop ends -/

theorem run_isSome {S : Finset α} (hwithin : b.Within S) (hstart : start ∈ S)
    (h : b.Inv start expanded s) (hclosed : b.Closed expanded s) (hfuel : S.card < fuel + expanded.card) :
    (b.run fuel s).isSome := by
  have hsub : expanded ⊆ S := fun v hv => hwithin.reach hstart (h.reached v (h.seen hv))
  induction fuel generalizing s expanded with
  | zero =>
    have hle := Finset.card_le_card hsub
    omega
  | succ fuel ih =>
    rw [run]
    cases hpop : b.near.pop s.candidates with
    | none => rfl
    | some r =>
      obtain ⟨c, rest⟩ := r
      have hc : c ∈ s.candidates :=
        (PriorityQueue.perm_of_pop hpop).mem_iff.mpr List.mem_cons_self
      obtain ⟨hseen, hfresh⟩ := h.queued c hc
      have hmem := hwithin.reach hstart (h.reached c.2 hseen)
      obtain ⟨js, hlinks, -⟩ := hwithin c.2 hmem
      simp only [hlinks]
      split
      · rfl
      split
      · rfl
      obtain ⟨hinv, hclosed'⟩ := h.round hclosed hpop hlinks
      refine ih hinv hclosed' ?_ (Finset.insert_subset hmem hsub)
      rw [Finset.card_insert_of_notMem hfresh]
      omega

/-- **The search ends** after at most as many rounds as there are nodes in reach. -/
theorem search_isSome {S : Finset α} (hwithin : b.Within S) (hstart : start ∈ S)
    (hbound : b.admits start = true → bound = b.dist start) (hfuel : S.card < fuel) :
    (b.run fuel (b.begins start bound)).isSome := by
  refine run_isSome hwithin hstart (inv_begins hbound)
    (fun v hv => absurd hv (Finset.notMem_empty v)) ?_
  rw [Finset.card_empty]
  exact hfuel

/-- The rounds are as many as the nodes that were taken up. -/
theorem steps_le_of_search {S : Finset α} (hwithin : b.Within S) (hstart : start ∈ S)
    (hbound : b.admits start = true → bound = b.dist start)
    (hrun : b.run fuel (b.begins start bound) = some s') : s'.steps ≤ S.card := by
  obtain ⟨expanded, h, -, -⟩ := inv_of_search hbound hrun
  rw [h.counted]
  exact Finset.card_le_card fun v hv => hwithin.reach hstart (h.reached v (h.seen hv))

end

end BestFirst

end AwaDB.Lib
