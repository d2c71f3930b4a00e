import Mathlib.Data.List.Sort

/-!
# The best few of a list

`cmp a b` says that the distance `b` is better than `a`. Entries are pairs of a distance and a label.

* `Keeps`: a part of a list that nothing outside it is better than;
* `Keeps.merge`: the best of the best of two parts are the best of the whole;
* `best`: the first `k`, best first; `Keeps.eq_best`: what was kept, unfilled places apart.
-/

namespace AwaDB.Lib

variable {D I : Type*} {cmp : D → D → Prop}

/-! ### Keeping the best -/

/-- `kept` is a part of `all` that no entry outside it is better than. -/
def Keeps (cmp : D → D → Prop) (all kept : List (D × I)) : Prop :=
  ∃ dropped, (kept ++ dropped).Perm all ∧ ∀ a ∈ kept, ∀ b ∈ dropped, ¬cmp a.1 b.1

theorem Keeps.all (l : List (D × I)) : Keeps cmp l l :=
  ⟨[], by rw [List.append_nil], fun _ _ _ hb => absurd hb List.not_mem_nil⟩

theorem Keeps.perm {all all' kept kept' : List (D × I)} (h : Keeps cmp all kept) (hall : all.Perm all')
    (hkept : kept.Perm kept') : Keeps cmp all' kept' := by
  obtain ⟨dropped, hperm, hbest⟩ := h
  refine ⟨dropped, ?_, fun a ha b hb => hbest a (hkept.mem_iff.mpr ha) b hb⟩
  exact ((hkept.symm.append_right dropped).trans hperm).trans hall

theorem Keeps.subset {all kept : List (D × I)} (h : Keeps cmp all kept) {e : D × I} (he : e ∈ kept) :
    e ∈ all := by
  obtain ⟨dropped, hperm, -⟩ := h
  exact hperm.mem_iff.mp (List.mem_append_left dropped he)

/-- An entry that does not beat the worst one kept is dropped. -/
theorem Keeps.pass {all kept : List (D × I)} {e : D × I} (h : Keeps cmp all kept)
    (hpass : ∀ a ∈ kept, ¬cmp a.1 e.1) : Keeps cmp (e :: all) kept := by
  obtain ⟨dropped, hperm, hbest⟩ := h
  refine ⟨e :: dropped, List.perm_middle.trans (hperm.cons e), fun a ha b hb => ?_⟩
  rcases List.mem_cons.mp hb with rfl | hb
  · exact hpass a ha
  · exact hbest a ha b hb

section Order

variable [IsStrictTotalOrder D cmp]

/-- Not being beaten passes on. -/
theorem not_better_trans {a b c : D} (hab : ¬cmp a b) (hbc : ¬cmp b c) : ¬cmp a c := by
  intro hac
  rcases trichotomous_of cmp a b with hlt | heq | hgt
  · exact hab hlt
  · exact hbc (heq ▸ hac)
  · exact hbc (trans_of cmp hgt hac)

/-- An entry that beats the worst one kept takes its place. -/
theorem Keeps.put {all rest : List (D × I)} {top e : D × I} (h : Keeps cmp all (top :: rest))
    (htop : ∀ a ∈ rest, ¬cmp a.1 top.1) (hput : cmp top.1 e.1) : Keeps cmp (e :: all) (e :: rest) := by
  obtain ⟨dropped, hperm, hbest⟩ := h
  refine ⟨top :: dropped, (List.perm_middle.trans hperm).cons e, fun a ha b hb => ?_⟩
  rcases List.mem_cons.mp ha with rfl | ha <;> rcases List.mem_cons.mp hb with rfl | hb
  · exact fun hback => irrefl_of cmp _ (trans_of cmp hput hback)
  · exact fun hback => hbest top List.mem_cons_self b hb (trans_of cmp hput hback)
  · exact htop a ha
  · exact hbest a (List.mem_cons_of_mem top ha) b hb

/-- An entry that was dropped from a list of `k` is not better than any of `k` that are kept in its stead. -/
theorem not_better_of_dropped {dropped h l kept rest : List (D × I)}
    (hbest : ∀ a ∈ h, ∀ b ∈ dropped, ¬cmp a.1 b.1) (hkept : (kept ++ rest).Perm (h ++ l))
    (hkeeps : ∀ a ∈ kept, ∀ b ∈ rest, ¬cmp a.1 b.1) (hlen : kept.length = h.length) :
    ∀ a ∈ kept, ∀ b ∈ dropped, ¬cmp a.1 b.1 := by
  classical
  intro a ha b hb hbetter
  -- all of `h` is better than `a`, and none of that is in `rest`
  have hall : h.countP (fun e => cmp a.1 e.1) = h.length := by
    refine List.countP_eq_length.mpr fun e he => decide_eq_true ?_
    by_contra hnot
    exact not_better_trans hnot (hbest e he b hb) hbetter
  have hrest : rest.countP (fun e => cmp a.1 e.1) = 0 :=
    List.countP_eq_zero.mpr fun e he => by simpa using hkeeps a ha e he
  have hcount := hkept.countP_eq fun e => decide (cmp a.1 e.1)
  rw [List.countP_append, List.countP_append, hall, hrest] at hcount
  have hfull : kept.countP (fun e => cmp a.1 e.1) = kept.length :=
    Nat.le_antisymm List.countP_le_length (by omega)
  have hself := List.countP_eq_length.mp hfull a ha
  exact irrefl_of cmp a.1 (of_decide_eq_true hself)

/-- **The best of the best of two parts are the best of the whole.** -/
theorem Keeps.merge {A B h l kept : List (D × I)} (hA : Keeps cmp A h) (hB : Keeps cmp B l)
    (hkept : Keeps cmp (h ++ l) kept) (hlenA : kept.length = h.length) (hlenB : kept.length = l.length) :
    Keeps cmp (A ++ B) kept := by
  obtain ⟨dA, hpermA, hbestA⟩ := hA
  obtain ⟨dB, hpermB, hbestB⟩ := hB
  obtain ⟨rest, hperm, hbest⟩ := hkept
  refine ⟨rest ++ (dA ++ dB), ?_, fun a ha b hb => ?_⟩
  · rw [← List.append_assoc]
    refine (hperm.append_right (dA ++ dB)).trans (List.Perm.trans ?_ (hpermA.append hpermB))
    rw [List.append_assoc, List.append_assoc]
    refine List.Perm.append_left h ?_
    rw [← List.append_assoc, ← List.append_assoc]
    exact List.perm_append_comm.append_right dB
  · rcases List.mem_append.mp hb with hb | hb
    · exact hbest a ha b hb
    · rcases List.mem_append.mp hb with hb | hb
      · exact not_better_of_dropped hbestA hperm hbest hlenA a ha b hb
      · exact not_better_of_dropped hbestB (hperm.trans List.perm_append_comm) hbest hlenB a ha b hb

end Order

/-! ### The best, in order -/

section Best

variable [DecidableRel cmp]

/-- The first `k` of a list, best first. -/
def best (cmp : D → D → Prop) [DecidableRel cmp] (k : ℕ) (l : List (D × I)) : List (D × I) :=
  (l.insertionSort fun a b => ¬cmp a.1 b.1).take k

/-- The distances of a list are pairwise distinct. -/
def Distinct (l : List (D × I)) : Prop := (l.map Prod.fst).Nodup

theorem Distinct.eq_of_fst {l : List (D × I)} (h : Distinct l) {a b : D × I} (ha : a ∈ l) (hb : b ∈ l)
    (heq : a.1 = b.1) : a = b := List.inj_on_of_nodup_map h ha hb heq

theorem Distinct.perm {l l' : List (D × I)} (h : Distinct l) (hperm : l.Perm l') : Distinct l' :=
  (hperm.map Prod.fst).nodup_iff.mp h

variable [IsStrictTotalOrder D cmp]

theorem sorted_pairwise (l : List (D × I)) :
    (l.insertionSort fun a b => ¬cmp a.1 b.1).Pairwise fun a b => ¬cmp a.1 b.1 := by
  have htotal : Std.Total fun a b : D × I => ¬cmp a.1 b.1 := by
    constructor
    intro a b
    by_contra hnot
    push Not at hnot
    exact irrefl_of cmp _ (trans_of cmp hnot.1 hnot.2)
  have htrans : IsTrans (D × I) fun a b => ¬cmp a.1 b.1 := ⟨fun a b c => not_better_trans⟩
  exact List.pairwise_insertionSort _ l

/-- A list that is in order is the list sorted. -/
theorem eq_sorted {l s : List (D × I)} (hdistinct : Distinct l) (hperm : s.Perm l)
    (hs : s.Pairwise fun a b => ¬cmp a.1 b.1) : s = l.insertionSort fun a b => ¬cmp a.1 b.1 := by
  refine List.Perm.eq_of_pairwise (fun a b ha hb hab hba => ?_) hs (sorted_pairwise l)
    (hperm.trans (List.perm_insertionSort _ l).symm)
  refine hdistinct.eq_of_fst (hperm.mem_iff.mp ha) ((List.mem_insertionSort _).mp hb) ?_
  rcases trichotomous_of cmp a.1 b.1 with hlt | heq | hgt
  · exact absurd hlt hab
  · exact heq
  · exact absurd hgt hba

/-- The best do not depend on the order of the list. -/
theorem best_perm {l l' : List (D × I)} (hdistinct : Distinct l') (hperm : l.Perm l') (k : ℕ) :
    best cmp k l = best cmp k l' := by
  unfold best
  rw [eq_sorted hdistinct ((List.perm_insertionSort _ l).trans hperm) (sorted_pairwise l)]

/-- **What was kept of `l` and of enough unfilled places**, the unfilled places taken out and the rest put
in order, is the best of `l`. -/
theorem Keeps.eq_best {l kept s : List (D × I)} {fill : D × I} {m : ℕ} {p : D × I → Bool}
    (h : Keeps cmp (l ++ List.replicate m fill) kept) (hdistinct : Distinct l)
    (hfill : p fill = false) (hl : ∀ e ∈ l, p e = true ∧ cmp fill.1 e.1) (hs : s.Perm (kept.filter p))
    (hsorted : s.Pairwise fun a b => ¬cmp a.1 b.1) : s = best cmp kept.length l := by
  obtain ⟨dropped, hperm, hbest⟩ := h
  have hfilter : (l ++ List.replicate m fill).filter p = l := by
    have hunfilled : (List.replicate m fill).filter p = [] := by
      refine List.filter_eq_nil_iff.mpr fun e he => ?_
      rw [(List.mem_replicate.mp he).2, hfill]
      exact Bool.false_ne_true
    rw [List.filter_append, List.filter_eq_self.mpr fun e he => (hl e he).1, hunfilled, List.append_nil]
  have hsplit : (s ++ dropped.filter p).Perm l := by
    have hkept := hperm.filter p
    rw [List.filter_append, hfilter] at hkept
    exact (hs.append_right _).trans hkept
  -- `s` and what was dropped, in order, is all of `l` in order
  have hwhole : s ++ (dropped.filter p).insertionSort (fun a b => ¬cmp a.1 b.1) =
      l.insertionSort fun a b => ¬cmp a.1 b.1 := by
    refine eq_sorted hdistinct (((List.perm_insertionSort _ _).append_left s).trans hsplit) ?_
    refine List.pairwise_append.mpr ⟨hsorted, sorted_pairwise _, fun a ha b hb => ?_⟩
    exact hbest a (List.mem_of_mem_filter (hs.mem_iff.mp ha)) b
      (List.mem_of_mem_filter ((List.mem_insertionSort _).mp hb))
  unfold best
  rw [← hwhole]
  cases hdropped : dropped.filter p with
  | nil =>
    rw [List.insertionSort_nil, List.append_nil, List.take_of_length_le]
    rw [hs.length_eq]
    exact List.length_filter_le p kept
  | cons b bs =>
    -- an entry was dropped, so no place is unfilled
    have hb : b ∈ dropped.filter p := by
      rw [hdropped]
      exact List.mem_cons_self
    have hfull : kept.filter p = kept := by
      refine List.filter_eq_self.mpr fun a ha => ?_
      by_contra hnot
      have hmem := hperm.mem_iff.mp (List.mem_append_left dropped ha)
      rcases List.mem_append.mp hmem with hal | harep
      · exact hnot (hl a hal).1
      · rw [(List.mem_replicate.mp harep).2] at ha
        have hbl := hsplit.mem_iff.mp (List.mem_append_right s hb)
        exact hbest fill ha b (List.mem_of_mem_filter hb) (hl b hbl).2
    have hlen : kept.length = s.length := by rw [hs.length_eq, hfull]
    rw [hlen, List.take_left']
    rfl

end Best

end AwaDB.Lib
