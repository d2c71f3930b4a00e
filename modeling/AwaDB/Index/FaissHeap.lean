import AwaDB.Lib.TopK

/-!
# Heaps of the best `k`

The indexes keep the best entries they have seen in the heaps of faiss: pairs of a distance and a label,
with the worst one on top. The heaps are taken as they are used here.

* `MetricType.cmp`: which of two distances is better;
* `HeapOps` and `HeapOps.Correct`: the heap functions and what is relied on;
* `scan`: entries are offered to a heap one after the other;
* `Holds`: what a heap knows of the entries it has seen, kept by `scan`, by merging and by `reorder`.
-/

namespace AwaDB.Index

open Lib

/-- `faiss::MetricType`. -/
inductive MetricType
  | innerProduct
  | l2
  deriving DecidableEq

/-- `HeapForIP::cmp` (`faiss::CMin`) and `HeapForL2::cmp` (`faiss::CMax`): `b` is better than `a`. -/
def MetricType.cmp {D : Type} [LT D] : MetricType → D → D → Prop
  | .innerProduct => fun a b => a < b
  | .l2 => fun a b => a > b

instance {D : Type} [LinearOrder D] (m : MetricType) : DecidableRel (m.cmp : D → D → Prop) :=
  match m with
  | .innerProduct => fun a b => inferInstanceAs (Decidable (a < b))
  | .l2 => fun a b => inferInstanceAs (Decidable (a > b))

instance {D : Type} [LinearOrder D] (m : MetricType) : IsStrictTotalOrder D m.cmp := by
  cases m with
  | innerProduct => exact inferInstanceAs (IsStrictTotalOrder D (· < ·))
  | l2 => exact inferInstanceAs (IsStrictTotalOrder D (· > ·))

/-- What a search uses of a request. -/
structure RetrievalContext (D : Type) where
  metricType : MetricType
  parallelOnQueries : Bool
  isValid : ℕ → Bool
  isSimilarScoreValid : D → Bool

/-- A distance and the label it belongs to; `-1` labels an unfilled place. -/
abbrev Entry (D : Type) := D × ℤ

/-- The functions of `faiss/utils/Heap.h` for one comparison, on the whole array of a heap. -/
structure HeapOps (D : Type) where
  neutral : D
  heapify : ℕ → List (Entry D)
  pop : List (Entry D) → List (Entry D)
  push : List (Entry D) → Entry D → List (Entry D)
  replaceTop : List (Entry D) → Entry D → List (Entry D)
  addn : List (Entry D) → List (Entry D) → List (Entry D)
  reorder : List (Entry D) → List (Entry D)

/-- An unfilled place. -/
def HeapOps.fill {D : Type} (ops : HeapOps D) : Entry D := (ops.neutral, -1)

/-- `s` and unfilled places after it, `k` in all. -/
def HeapOps.filled {D : Type} (ops : HeapOps D) (k : ℕ) (s : List (Entry D)) : List (Entry D) :=
  s ++ List.replicate (k - s.length) ops.fill

/-- What the heap functions are relied on for: the worst entry is on top, entries go in and out one by
one, `heap_addn` keeps the best, and `heap_reorder` sorts the filled places to the front. -/
structure HeapOps.Correct {D : Type} (cmp : D → D → Prop) (ops : HeapOps D)
    (IsHeap : List (Entry D) → Prop) : Prop where
  heapify_eq : ∀ k, ops.heapify k = List.replicate k ops.fill
  heapify : ∀ k, IsHeap (ops.heapify k)
  top_worst : ∀ top rest, IsHeap (top :: rest) → ∀ a ∈ rest, ¬cmp a.1 top.1
  pop : ∀ top rest, IsHeap (top :: rest) →
    (ops.pop (top :: rest)).Perm rest ∧ IsHeap (ops.pop (top :: rest))
  push : ∀ h e, IsHeap h → (ops.push h e).Perm (e :: h) ∧ IsHeap (ops.push h e)
  replaceTop : ∀ top rest e, IsHeap (top :: rest) →
    (ops.replaceTop (top :: rest) e).Perm (e :: rest) ∧ IsHeap (ops.replaceTop (top :: rest) e)
  addn : ∀ h es, IsHeap h → es.length = h.length →
    (ops.addn h es).length = h.length ∧ IsHeap (ops.addn h es) ∧ Keeps cmp (h ++ es) (ops.addn h es)
  reorder : ∀ h, IsHeap h → ∃ s, s.Perm (h.filter fun e => e.2 ≠ -1) ∧
    (s.Pairwise fun a b => ¬cmp a.1 b.1) ∧ ops.reorder h = ops.filled h.length s

variable {D : Type} {cmp : D → D → Prop} {ops : HeapOps D} {IsHeap : List (Entry D) → Prop}

/-- A way to put an entry in the place of the top. -/
def Puts (IsHeap : List (Entry D) → Prop) (put : List (Entry D) → Entry D → List (Entry D)) : Prop :=
  ∀ top rest e, IsHeap (top :: rest) → (put (top :: rest) e).Perm (e :: rest) ∧ IsHeap (put (top :: rest) e)

/-- `heap_pop` and `heap_push`. -/
def HeapOps.popPush (ops : HeapOps D) (h : List (Entry D)) (e : Entry D) : List (Entry D) :=
  ops.push (ops.pop h) e

theorem HeapOps.Correct.puts_popPush (hops : ops.Correct cmp IsHeap) : Puts IsHeap ops.popPush := by
  intro top rest e hheap
  obtain ⟨hperm, hpopped⟩ := hops.pop top rest hheap
  obtain ⟨hpush, hpushed⟩ := hops.push _ e hpopped
  exact ⟨hpush.trans (hperm.cons e), hpushed⟩

theorem HeapOps.Correct.puts_replaceTop (hops : ops.Correct cmp IsHeap) :
    Puts IsHeap ops.replaceTop := hops.replaceTop

theorem HeapOps.Correct.length_heapify (hops : ops.Correct cmp IsHeap) (k : ℕ) :
    (ops.heapify k).length = k := by
  rw [hops.heapify_eq, List.length_replicate]

/-! ### Offering entries -/

section Scan

variable (cmp) [DecidableRel cmp] (put : List (Entry D) → Entry D → List (Entry D))

/-- An entry that is better than the top takes its place. The top of an empty heap is not there. -/
def offer (h : List (Entry D)) (e : Entry D) : Option (List (Entry D)) :=
  match h with
  | [] => none
  | top :: _ => if cmp top.1 e.1 then some (put h e) else some h

/-- Entries are offered one after the other. -/
def scan : List (Entry D) → List (Entry D) → Option (List (Entry D))
  | [], h => some h
  | e :: es, h => (offer cmp put h e).bind (scan es)

theorem scan_append (es es' : List (Entry D)) (h : List (Entry D)) :
    scan cmp put (es ++ es') h = (scan cmp put es h).bind (scan cmp put es') := by
  induction es generalizing h with
  | nil => rfl
  | cons e es ih =>
    rw [List.cons_append, scan, scan, Option.bind_assoc]
    congr 1
    funext h'
    exact ih h'

/-- An empty heap takes no entry. -/
theorem scan_nil (es : List (Entry D)) : scan cmp put es [] = if es = [] then some [] else none := by
  cases es with
  | nil => rfl
  | cons e es => rfl

/-- The entries that are better than an unfilled place. -/
def fitting (neutral : D) (es : List (Entry D)) : List (Entry D) := es.filter fun e => cmp neutral e.1

end Scan

/-! ### What a heap knows -/

/-- The heap `h` holds the best of the entries `found` and of unfilled places. -/
structure Holds (cmp : D → D → Prop) (ops : HeapOps D) (IsHeap : List (Entry D) → Prop)
    (found h : List (Entry D)) : Prop where
  isHeap : IsHeap h
  keeps : ∃ m, Keeps cmp (found ++ List.replicate m ops.fill) h
  atLeast : ∀ a ∈ h, ¬cmp a.1 ops.neutral
  labelled : ∀ e ∈ found, e.2 ≠ -1 ∧ cmp ops.neutral e.1

section Holds

variable [IsStrictTotalOrder D cmp] (hops : ops.Correct cmp IsHeap)

include hops

/-- A fresh heap has found nothing. -/
theorem holds_heapify (k : ℕ) : Holds cmp ops IsHeap [] (ops.heapify k) where
  isHeap := hops.heapify k
  keeps := by
    refine ⟨k, ?_⟩
    rw [hops.heapify_eq, List.nil_append]
    exact Keeps.all _
  atLeast a ha := by
    rw [hops.heapify_eq] at ha
    rw [(List.mem_replicate.mp ha).2]
    exact irrefl_of cmp _
  labelled e he := absurd he List.not_mem_nil

variable {found found' h l : List (Entry D)} [DecidableRel cmp]

omit [IsStrictTotalOrder D cmp] [DecidableRel cmp] hops in
/-- An entry that fits is one more that was found. -/
theorem Holds.labelled_concat (hh : Holds cmp ops IsHeap found h) {e : Entry D}
    (he : e.2 ≠ -1) (hfits : cmp ops.neutral e.1) :
    ∀ b ∈ found ++ [e], b.2 ≠ -1 ∧ cmp ops.neutral b.1 := by
  intro b hb
  rcases List.mem_append.mp hb with hb | hb
  · exact hh.labelled b hb
  · rw [List.mem_singleton.mp hb]
    exact ⟨he, hfits⟩

/-- One entry that is offered. -/
theorem Holds.offer {put : List (Entry D) → Entry D → List (Entry D)} (hput : Puts IsHeap put)
    (hh : Holds cmp ops IsHeap found h) (hne : h ≠ []) {e : Entry D} (he : e.2 ≠ -1) :
    ∃ h', offer cmp put h e = some h' ∧ h'.length = h.length ∧
      Holds cmp ops IsHeap (found ++ fitting cmp ops.neutral [e]) h' := by
  obtain ⟨m, hkeeps⟩ := hh.keeps
  cases h with
  | nil => exact absurd rfl hne
  | cons top rest =>
    have hworst := hops.top_worst top rest hh.isHeap
    by_cases hbetter : cmp top.1 e.1
    · have hfits : cmp ops.neutral e.1 := by
        by_contra hnot
        exact not_better_trans (hh.atLeast top List.mem_cons_self) hnot hbetter
      have hfit : fitting cmp ops.neutral [e] = [e] := List.filter_cons_of_pos (decide_eq_true hfits)
      obtain ⟨hperm, hheap⟩ := hput top rest e hh.isHeap
      refine ⟨put (top :: rest) e, if_pos hbetter, hperm.length_eq, ?_⟩
      rw [hfit]
      constructor
      · exact hheap
      · refine ⟨m, (Keeps.put hkeeps hworst hbetter).perm ?_ hperm.symm⟩
        rw [List.append_assoc]
        exact List.perm_middle.symm
      · intro a ha hback
        rcases List.mem_cons.mp (hperm.mem_iff.mp ha) with rfl | hrest
        · exact irrefl_of cmp _ (trans_of cmp hfits hback)
        · exact hh.atLeast a (List.mem_cons_of_mem top hrest) hback
      · exact hh.labelled_concat he hfits
    · refine ⟨top :: rest, if_neg hbetter, rfl, ?_⟩
      have hpass : ∀ a ∈ top :: rest, ¬cmp a.1 e.1 := by
        intro a ha
        rcases List.mem_cons.mp ha with rfl | ha
        · exact hbetter
        · exact not_better_trans (hworst a ha) hbetter
      by_cases hfits : cmp ops.neutral e.1
      · rw [show fitting cmp ops.neutral [e] = [e] from List.filter_cons_of_pos (decide_eq_true hfits)]
        constructor
        · exact hh.isHeap
        · refine ⟨m, (Keeps.pass hkeeps hpass).perm ?_ (List.Perm.refl _)⟩
          rw [List.append_assoc]
          exact List.perm_middle.symm
        · exact hh.atLeast
        · exact hh.labelled_concat he hfits
      · rw [show fitting cmp ops.neutral [e] = [] from List.filter_cons_of_neg (by simpa using hfits),
          List.append_nil]
        exact hh

/-- **Entries that are offered one after the other.** -/
theorem Holds.scan {put : List (Entry D) → Entry D → List (Entry D)} (hput : Puts IsHeap put)
    (hh : Holds cmp ops IsHeap found h) (hne : h ≠ []) {es : List (Entry D)} (hes : ∀ e ∈ es, e.2 ≠ -1) :
    ∃ h', scan cmp put es h = some h' ∧ h'.length = h.length ∧
      Holds cmp ops IsHeap (found ++ fitting cmp ops.neutral es) h' := by
  induction es generalizing found h with
  | nil =>
    refine ⟨h, rfl, rfl, ?_⟩
    rw [fitting, List.filter_nil, List.append_nil]
    exact hh
  | cons e es ih =>
    obtain ⟨h₁, hoffer, hlen, hh₁⟩ := hh.offer hops hput hne (hes e List.mem_cons_self)
    have hne₁ : h₁ ≠ [] := by
      intro hnil
      rw [hnil] at hlen
      exact hne (List.length_eq_zero_iff.mp hlen.symm)
    obtain ⟨h', hrest, hlen', hh'⟩ := ih hh₁ hne₁ fun e' he' => hes e' (List.mem_cons_of_mem e he')
    refine ⟨h', ?_, hlen'.trans hlen, ?_⟩
    · rw [AwaDB.Index.scan, hoffer]
      exact hrest
    · rw [List.append_assoc] at hh'
      unfold fitting at hh' ⊢
      rwa [← List.filter_append, List.singleton_append] at hh'

/-- **Entries that are offered to a fresh heap**: it finds those that fit, unless it has no place for any
and there are some. -/
theorem scan_heapify {put : List (Entry D) → Entry D → List (Entry D)} (hput : Puts IsHeap put) (k : ℕ)
    {es : List (Entry D)} (hes : ∀ e ∈ es, e.2 ≠ -1) (hk : k ≠ 0 ∨ es = []) :
    ∃ h', AwaDB.Index.scan cmp put es (ops.heapify k) = some h' ∧ h'.length = k ∧
      Holds cmp ops IsHeap (fitting cmp ops.neutral es) h' := by
  have hfresh := holds_heapify hops k
  rcases hk with hk | rfl
  · have hne : ops.heapify k ≠ [] := by
      intro hnil
      have hlen := hops.length_heapify k
      rw [hnil] at hlen
      exact hk hlen.symm
    obtain ⟨h', hscan, hlen, hh'⟩ := hfresh.scan hops hput hne hes
    exact ⟨h', hscan, hlen.trans (hops.length_heapify k), hh'⟩
  · exact ⟨_, rfl, hops.length_heapify k, hfresh⟩

omit [DecidableRel cmp] in
/-- **A heap that takes in another** holds the best of what both have found. -/
theorem Holds.addn (hh : Holds cmp ops IsHeap found h) (hl : Holds cmp ops IsHeap found' l)
    (hlen : l.length = h.length) :
    (ops.addn h l).length = h.length ∧ Holds cmp ops IsHeap (found ++ found') (ops.addn h l) := by
  obtain ⟨m, hkeeps⟩ := hh.keeps
  obtain ⟨m', hkeeps'⟩ := hl.keeps
  obtain ⟨haddn, hheap, hbest⟩ := hops.addn h l hh.isHeap hlen
  refine ⟨haddn, hheap, ⟨m + m', ?_⟩, ?_, ?_⟩
  · refine (hkeeps.merge hkeeps' hbest haddn (haddn.trans hlen.symm)).perm ?_ (List.Perm.refl _)
    rw [List.replicate_add, List.append_assoc, List.append_assoc]
    refine List.Perm.append_left found ?_
    rw [← List.append_assoc, ← List.append_assoc]
    exact List.perm_append_comm.append_right _
  · intro a ha
    rcases List.mem_append.mp (hbest.subset ha) with ha | ha
    · exact hh.atLeast a ha
    · exact hl.atLeast a ha
  · intro e he
    rcases List.mem_append.mp he with he | he
    · exact hh.labelled e he
    · exact hl.labelled e he

omit hops in
/-- The filled places of a heap, put in order, are the best of what was found. -/
theorem Holds.eq_best (hh : Holds cmp ops IsHeap found h) (hdistinct : Distinct found)
    {s : List (Entry D)} (hs : s.Perm (h.filter fun e => e.2 ≠ -1))
    (hsorted : s.Pairwise fun a b => ¬cmp a.1 b.1) : s = best cmp h.length found := by
  obtain ⟨m, hkeeps⟩ := hh.keeps
  refine Keeps.eq_best hkeeps hdistinct (by rfl) (fun e he => ?_) hs hsorted
  obtain ⟨hlabel, hbetter⟩ := hh.labelled e he
  exact ⟨decide_eq_true hlabel, hbetter⟩

/-- **`heap_reorder`** gives the best of what was found, in order, and unfilled places after it. -/
theorem Holds.reorder (hh : Holds cmp ops IsHeap found h) (hdistinct : Distinct found) :
    ops.reorder h = ops.filled h.length (best cmp h.length found) := by
  obtain ⟨s, hperm, hsorted, hreorder⟩ := hops.reorder h hh.isHeap
  rw [hreorder, hh.eq_best hdistinct hperm hsorted]

omit hops in
/-- A heap has the best of what was found and unfilled places, in some order. -/
theorem Holds.perm_filled (hh : Holds cmp ops IsHeap found h) (hdistinct : Distinct found) :
    h.Perm (ops.filled h.length (best cmp h.length found)) := by
  obtain ⟨m, hkeeps⟩ := hh.keeps
  have hs := List.perm_insertionSort (fun a b : Entry D => ¬cmp a.1 b.1) (h.filter fun e => e.2 ≠ -1)
  have hbest := hh.eq_best hdistinct hs (sorted_pairwise _)
  have hunfilled : ∀ e ∈ h.filter fun e => !decide (e.2 ≠ -1), e = ops.fill := by
    intro e he
    obtain ⟨hmem, hlabel⟩ := List.mem_filter.mp he
    rcases List.mem_append.mp (hkeeps.subset hmem) with hfound | hrep
    · exact absurd (hh.labelled e hfound).1 (by simpa using hlabel)
    · exact (List.mem_replicate.mp hrep).2
  have hsplit := List.filter_append_perm (fun e : Entry D => decide (e.2 ≠ -1)) h
  have hlen : (h.filter fun e => !decide (e.2 ≠ -1)).length = h.length - (best cmp h.length found).length := by
    have hsum := hsplit.length_eq
    rw [List.length_append, ← hs.length_eq, hbest] at hsum
    omega
  rw [List.eq_replicate_of_mem hunfilled, hlen] at hsplit
  refine hsplit.symm.trans (List.Perm.append_right _ ?_)
  rw [← hbest]
  exact hs.symm

end Holds

/-! ### A heap -/

/-- The entries of a heap in order, the worst first. -/
def sortedHeap (cmp : D → D → Prop) [DecidableRel cmp] (neutral : D) : HeapOps D where
  neutral := neutral
  heapify k := List.replicate k (neutral, -1)
  pop := List.tail
  push h e := h.orderedInsert (fun a b => ¬cmp b.1 a.1) e
  replaceTop h e := h.tail.orderedInsert (fun a b => ¬cmp b.1 a.1) e
  addn h es := ((h ++ es).insertionSort fun a b => ¬cmp b.1 a.1).drop es.length
  reorder h :=
    let s := (h.filter fun e => e.2 ≠ -1).insertionSort fun a b => ¬cmp a.1 b.1
    s ++ List.replicate (h.length - s.length) (neutral, -1)

/-- A list in order works as a heap. -/
theorem correct_sortedHeap [DecidableRel cmp] [IsStrictTotalOrder D cmp] (neutral : D) :
    (sortedHeap cmp neutral).Correct cmp fun h => h.Pairwise fun a b => ¬cmp b.1 a.1 := by
  have htotal : Std.Total fun a b : Entry D => ¬cmp b.1 a.1 := by
    constructor
    intro a b
    by_contra hnot
    push Not at hnot
    exact irrefl_of cmp _ (trans_of cmp hnot.1 hnot.2)
  have htrans : IsTrans (Entry D) fun a b => ¬cmp b.1 a.1 :=
    ⟨fun a b c hab hbc => not_better_trans hbc hab⟩
  constructor
  · exact fun k => rfl
  · intro k
    refine List.pairwise_replicate.mpr (.inr ?_)
    exact irrefl_of cmp neutral
  · intro top rest hheap a ha
    exact (List.pairwise_cons.mp hheap).1 a ha
  · intro top rest hheap
    exact ⟨List.Perm.refl rest, (List.pairwise_cons.mp hheap).2⟩
  · intro h e hheap
    exact ⟨List.perm_orderedInsert _ e h, List.Pairwise.orderedInsert e h hheap⟩
  · intro top rest e hheap
    exact ⟨List.perm_orderedInsert _ e rest,
      List.Pairwise.orderedInsert e rest (List.pairwise_cons.mp hheap).2⟩
  · intro h es hheap hlen
    have hsorted := List.pairwise_insertionSort (fun a b : Entry D => ¬cmp b.1 a.1) (h ++ es)
    have hperm := List.perm_insertionSort (fun a b : Entry D => ¬cmp b.1 a.1) (h ++ es)
    refine ⟨?_, hsorted.sublist (List.drop_sublist _ _),
      List.take es.length ((h ++ es).insertionSort fun a b => ¬cmp b.1 a.1), ?_, ?_⟩
    · show (List.drop _ _).length = _
      rw [List.length_drop, hperm.length_eq, List.length_append, Nat.add_sub_cancel]
    · refine List.perm_append_comm.trans ?_
      show (List.take _ _ ++ List.drop _ _).Perm _
      rw [List.take_append_drop]
      exact hperm
    · intro a ha b hb
      rw [← List.take_append_drop es.length ((h ++ es).insertionSort fun a b => ¬cmp b.1 a.1)] at hsorted
      exact (List.pairwise_append.mp hsorted).2.2 b hb a ha
  · intro h hheap
    exact ⟨_, List.perm_insertionSort _ _, sorted_pairwise _, rfl⟩

end AwaDB.Index
