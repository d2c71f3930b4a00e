import AwaDB.Search.AwadbRetrieval

/-!
# How often `Retrieve` gives a document (`search/awadb_retrieval.cc`)

The ids that `Retrieve` gives are the common ones, in order (`retrieve_result`). This file counts them.
A round that finds an id takes one entry of each list, so that an id comes out as often as the list
with the fewest entries has it. The list that gave the first id is an exception: it was only looked at,
and has its first entry still to give.

* `Tally` is the invariant of the loops, and `retrieve_count` the count;
* `retrieve_conjunction_iff`: the result is the strictly increasing list of the documents with all
  words exactly when each of them has a word of the query once only, other than the word that is looked
  at first.
-/

namespace AwaDB

namespace AwadbRetrieval

/-! ### Seeking, by the entries that were taken -/

theorem take_succ_eq {ids : List ℕ} {pos : ℕ} (h : pos < ids.length) :
    ids.take (pos + 1) = ids.take pos ++ [ids[pos]] := by
  rw [List.take_add_one, List.getElem?_eq_getElem h, Option.toList_some]

/-- `Seek` takes the smaller ids and the one it gives. -/
theorem seek_take {ids : List ℕ} {docid pos next p : ℕ}
    (h : seek ids docid pos = some (next, p)) :
    ∃ skipped, ids.take p = ids.take pos ++ skipped ++ [next] ∧ docid ≤ next ∧
      ∀ x ∈ skipped, x < docid := by
  fun_induction seek ids docid pos with
  | case1 pos hlt hle =>
    cases h
    refine ⟨[], ?_, hle, fun x hx => absurd hx List.not_mem_nil⟩
    rw [List.append_nil]
    exact take_succ_eq hlt
  | case2 pos hlt hnot ih =>
    obtain ⟨skipped, htake, hle, hskip⟩ := ih h
    refine ⟨ids[pos] :: skipped, ?_, hle, fun x hx => ?_⟩
    · rw [htake, take_succ_eq hlt]
      simp only [List.append_assoc, List.cons_append, List.nil_append]
    · cases List.mem_cons.mp hx with
      | inl heq => exact heq ▸ Nat.lt_of_not_le hnot
      | inr hx => exact hskip x hx
  | case3 pos hge => cases h

/-- Where `Seek` fails, smaller ids are left at most. -/
theorem seek_rest {ids : List ℕ} {docid pos : ℕ} (h : seek ids docid pos = none) :
    ∃ skipped, ids = ids.take pos ++ skipped ∧ ∀ x ∈ skipped, x < docid := by
  fun_induction seek ids docid pos with
  | case1 pos hlt hle => cases h
  | case2 pos hlt hnot ih =>
    obtain ⟨skipped, hall, hskip⟩ := ih h
    refine ⟨ids[pos] :: skipped, ?_, fun x hx => ?_⟩
    · rw [take_succ_eq hlt, List.append_assoc] at hall
      exact hall
    · cases List.mem_cons.mp hx with
      | inl heq => exact heq ▸ Nat.lt_of_not_le hnot
      | inr hx => exact hskip x hx
  | case3 pos hge =>
    refine ⟨[], ?_, fun x hx => absurd hx List.not_mem_nil⟩
    rw [List.append_nil, List.take_of_length_le (Nat.le_of_not_lt hge)]

/-! ### Entries taken and entries there are -/

section Counts

variable (lists : List (List ℕ)) (first : ℕ × ℕ)

/-- The entry that was only looked at. -/
def lookedAt (i d : ℕ) : ℕ := if first = (d, i) then 1 else 0

/-- How often list `i` can give the id `d`. -/
def weight (i d : ℕ) : ℕ := (lists.getD i []).count d + lookedAt first i d

/-- How often list `i` gave the id `d`. -/
def drawn (pos : ℕ → ℕ) (i d : ℕ) : ℕ :=
  ((lists.getD i []).take (pos i)).count d + lookedAt first i d

/-- The list with the fewest entries for `d` has `n` of them. -/
def Fewest (d n : ℕ) : Prop :=
  (∀ i < lists.length, n ≤ weight lists first i d) ∧
    ∃ i < lists.length, weight lists first i d = n

end Counts

variable {lists : List (List ℕ)} {first : ℕ × ℕ} {c c' : Cursor} {i d next p : ℕ}

theorem drawn_le_weight (pos : ℕ → ℕ) : drawn lists first pos i d ≤ weight lists first i d :=
  Nat.add_le_add_right ((List.take_sublist _ _).count_le d) _

theorem drawn_zero : drawn lists first (fun _ => 0) i d = lookedAt first i d := by
  unfold drawn
  rw [List.take_zero, List.count_nil, Nat.zero_add]

theorem count_skipped {skipped : List ℕ} {docid : ℕ} (hskip : ∀ x ∈ skipped, x < docid)
    (hd : docid ≤ d) : skipped.count d = 0 :=
  List.count_eq_zero.mpr fun hmem => Nat.lt_irrefl _ (Nat.lt_of_lt_of_le (hskip d hmem) hd)

/-- One entry more after `Seek`. -/
theorem drawn_update {docid : ℕ} {pos : ℕ → ℕ}
    (hseek : seek (lists.getD i []) docid (pos i) = some (next, p)) (hd : docid ≤ d) :
    drawn lists first (Function.update pos i p) i d =
      drawn lists first pos i d + if next = d then 1 else 0 := by
  obtain ⟨skipped, htake, -, hskip⟩ := seek_take hseek
  unfold drawn
  rw [Function.update_self, htake, List.count_append, List.count_append, count_skipped hskip hd,
    List.count_singleton]
  simp only [beq_iff_eq]
  omega

theorem drawn_update_of_ne {pos : ℕ → ℕ} {k : ℕ} (hk : k ≠ i) :
    drawn lists first (Function.update pos i p) k d = drawn lists first pos k d := by
  unfold drawn
  rw [Function.update_of_ne hk]

/-- A list that goes on with `next` has given all it has of the ids before. -/
theorem weight_of_some {docid : ℕ} {pos : ℕ → ℕ}
    (hsorted : (lists.getD i []).Pairwise (· ≤ ·))
    (hseek : seek (lists.getD i []) docid (pos i) = some (next, p)) (hd : docid ≤ d)
    (hnext : d < next) : weight lists first i d = drawn lists first pos i d := by
  obtain ⟨skipped, htake, -, hskip⟩ := seek_take hseek
  have hsplit : lists.getD i [] = (lists.getD i []).take (pos i) ++ skipped ++ [next] ++
      (lists.getD i []).drop p := by
    rw [← htake, List.take_append_drop]
  have hrest : d ∉ (lists.getD i []).drop p := by
    intro hmem
    rw [hsplit] at hsorted
    have hle := (List.pairwise_append.mp hsorted).2.2 next
      (List.mem_append_right _ (List.mem_singleton.mpr rfl)) d hmem
    omega
  unfold weight drawn
  conv_lhs => rw [hsplit]
  rw [List.count_append, List.count_append, List.count_append, count_skipped hskip hd,
    List.count_eq_zero.mpr hrest, List.count_singleton, if_neg (by simp; omega)]
  rfl

/-- So has a list without a further id. -/
theorem weight_of_none {docid : ℕ} {pos : ℕ → ℕ}
    (hseek : seek (lists.getD i []) docid (pos i) = none) (hd : docid ≤ d) :
    weight lists first i d = drawn lists first pos i d := by
  obtain ⟨skipped, hall, hskip⟩ := seek_rest hseek
  unfold weight drawn
  conv_lhs => rw [hall]
  rw [List.count_append, count_skipped hskip hd]
  rfl

/-! ### What the loop keeps -/

/-- Every list that was asked for `start` gave one entry more of it than there are in the result, the
others gave as many. An id below `start` is in the result as often as it will be. -/
structure Tally (lists : List (List ℕ)) (first : ℕ × ℕ) (c : Cursor) : Prop where
  first_le : first.1 ≤ c.start
  asked : ∀ i < lists.length, i < c.count ∨ i = c.base →
    drawn lists first c.pos i c.start = c.docids.count c.start + 1
  waiting : ∀ i < lists.length, c.count ≤ i → i ≠ c.base →
    drawn lists first c.pos i c.start = c.docids.count c.start
  past : ∀ d < c.start, Fewest lists first d (c.docids.count d)

namespace Tally

/-- No list gave less of `start` than there is in the result. -/
theorem le_drawn (h : Tally lists first c) (hi : i < lists.length) :
    c.docids.count c.start ≤ drawn lists first c.pos i c.start := by
  by_cases hask : i < c.count ∨ i = c.base
  · rw [h.asked i hi hask]
    exact Nat.le_succ _
  · rw [h.waiting i hi (Nat.le_of_not_lt fun hlt => hask (.inl hlt)) fun heq => hask (.inr heq)]

/-- Nothing beyond `start` was given. -/
theorem drawn_beyond (h : Tally lists first c) (hleap : Leap lists c) (hd : c.start < d) (i : ℕ) :
    drawn lists first c.pos i d = 0 := by
  have htake : d ∉ (lists.getD i []).take (c.pos i) := by
    intro hmem
    obtain ⟨j, hj⟩ := List.getElem?_of_mem hmem
    rw [List.getElem?_take] at hj
    split at hj
    · rename_i hlt
      exact absurd (hleap.consumed i j d hlt hj) (Nat.not_le.mpr hd)
    · cases hj
  have hlook : lookedAt first i d = 0 := by
    refine if_neg fun heq => ?_
    have hle := h.first_le
    rw [heq] at hle
    exact absurd hle (Nat.not_le.mpr hd)
  unfold drawn
  rw [List.count_eq_zero.mpr htake, hlook]

/-- Nothing beyond `start` is in the result. -/
theorem count_beyond (hleap : Leap lists c) (hd : c.start < d) : c.docids.count d = 0 :=
  List.count_eq_zero.mpr fun hmem => absurd (hleap.sound d hmem).2 (Nat.not_le.mpr hd)

/-- The count is final for `start` and what is beyond it once a list has no more to give: when `n` is
what this list gave of `start`, and no list gave less. -/
theorem fewest_of_exhausted (h : Tally lists first c) (hleap : Leap lists c) {docids : List ℕ}
    (hi : i < lists.length) (hge : c.start ≤ d)
    (hweight : weight lists first i d = drawn lists first c.pos i d)
    (hstart : docids.count c.start = drawn lists first c.pos i c.start)
    (hmin : ∀ k < lists.length, docids.count c.start ≤ drawn lists first c.pos k c.start)
    (hbeyond : ∀ x, c.start < x → docids.count x = 0) :
    Fewest lists first d (docids.count d) := by
  by_cases heq : d = c.start
  · subst heq
    exact ⟨fun k hk => Nat.le_trans (hmin k hk) (drawn_le_weight _), i, hi, by rw [hweight, hstart]⟩
  · have hlt : c.start < d := by omega
    rw [hbeyond d hlt]
    refine ⟨fun k _ => Nat.zero_le _, i, hi, ?_⟩
    rw [hweight]
    exact h.drawn_beyond hleap hlt i

theorem count_snoc_self : (c.docids ++ [c.start]).count c.start = c.docids.count c.start + 1 := by
  rw [List.count_append, List.count_singleton_self]

theorem count_snoc_of_ne (hne : c.start ≠ d) :
    (c.docids ++ [c.start]).count d = c.docids.count d := by
  rw [List.count_append, List.count_singleton, if_neg (by simpa using hne), Nat.add_zero]

/-- **A round that goes on.** -/
theorem step (h : Tally lists first c) (hleap : Leap lists c)
    (hsorted : ∀ i, (lists.getD i []).Pairwise (· ≤ ·))
    (hstep : retrieveStep lists c = .inr c') : Tally lists first c' := by
  obtain ⟨hbase, rfl⟩ | ⟨hcount, hbase, p, hseek, rfl⟩ | ⟨hcount, hbase, next, p, hseek, hne, rfl⟩ |
    ⟨hcount, next, p, hseek, rfl⟩ := retrieveStep_inr hstep
  · -- the list that gave `start` is not asked again
    refine ⟨h.first_le, fun i hi hask => h.asked i hi ?_, fun i hi hle hne => ?_, h.past⟩
    · have hask' : i < c.count + 1 ∨ i = c.base := hask
      omega
    · exact h.waiting i hi (Nat.le_of_succ_le hle) hne
  · -- the list has `start`
    refine ⟨h.first_le, fun i hi hask => ?_, fun i hi hle hne => ?_, h.past⟩
    · have hask' : i < c.count + 1 ∨ i = c.base := hask
      by_cases heq : i = c.count
      · subst heq
        show drawn lists first (Function.update c.pos c.count p) c.count c.start = _
        rw [drawn_update hseek (Nat.le_refl _), if_pos rfl,
          h.waiting c.count hi (Nat.le_refl _) (Ne.symm hbase)]
      · show drawn lists first (Function.update c.pos c.count p) i c.start = _
        rw [drawn_update_of_ne heq]
        exact h.asked i hi (by omega)
    · have hle' : c.count + 1 ≤ i := hle
      have hne' : i ≠ c.base := hne
      show drawn lists first (Function.update c.pos c.count p) i c.start = _
      rw [drawn_update_of_ne (by omega)]
      exact h.waiting i hi (by omega) hne'
  · -- the list gives the next id to look for
    have hge : c.start ≤ next := (seek_take hseek).choose_spec.2.1
    have hlt : c.start < next := by omega
    refine ⟨Nat.le_trans h.first_le hge, fun i hi hask => ?_, fun i hi hle hnbase => ?_,
      fun d hd => ?_⟩
    · have hask' : i < 0 ∨ i = c.count := hask
      have heq : i = c.count := by omega
      subst heq
      show drawn lists first (Function.update c.pos c.count p) c.count next = c.docids.count next + 1
      rw [drawn_update hseek hge, if_pos rfl, h.drawn_beyond hleap hlt, count_beyond hleap hlt]
    · show drawn lists first (Function.update c.pos c.count p) i next = c.docids.count next
      rw [drawn_update_of_ne hnbase, h.drawn_beyond hleap hlt, count_beyond hleap hlt]
    · show Fewest lists first d (c.docids.count d)
      by_cases hd' : d < c.start
      · exact h.past d hd'
      · have hge' : c.start ≤ d := Nat.le_of_not_lt hd'
        exact h.fewest_of_exhausted hleap hcount hge'
          (weight_of_some (hsorted _) hseek hge' hd)
          (h.waiting c.count hcount (Nat.le_refl _) (Ne.symm hbase)).symm
          (fun k hk => h.le_drawn hk) fun x hx => count_beyond hleap hx
  · -- `start` is found
    have hge : c.start ≤ next := (seek_take hseek).choose_spec.2.1
    have hasked : ∀ i < lists.length,
        drawn lists first c.pos i c.start = c.docids.count c.start + 1 :=
      fun i hi => h.asked i hi (.inl (Nat.lt_of_lt_of_le hi hcount))
    have hbase := hasked c.base hleap.base_lt
    refine ⟨Nat.le_trans h.first_le hge, fun i hi hask => ?_, fun i hi hle hnbase => ?_,
      fun d hd => ?_⟩
    · have hask' : i < 0 ∨ i = c.base := hask
      have heq : i = c.base := by omega
      subst heq
      show drawn lists first (Function.update c.pos c.base p) c.base next =
        (c.docids ++ [c.start]).count next + 1
      rw [drawn_update hseek hge, if_pos rfl]
      by_cases heq : c.start = next
      · subst heq
        rw [hbase, count_snoc_self]
      · have hlt : c.start < next := by omega
        rw [h.drawn_beyond hleap hlt, count_snoc_of_ne heq, count_beyond hleap hlt]
    · show drawn lists first (Function.update c.pos c.base p) i next =
        (c.docids ++ [c.start]).count next
      rw [drawn_update_of_ne hnbase]
      by_cases heq : c.start = next
      · subst heq
        rw [hasked i hi, count_snoc_self]
      · have hlt : c.start < next := by omega
        rw [h.drawn_beyond hleap hlt, count_snoc_of_ne heq, count_beyond hleap hlt]
    · show Fewest lists first d ((c.docids ++ [c.start]).count d)
      by_cases hd' : d < c.start
      · rw [count_snoc_of_ne (Nat.ne_of_gt hd')]
        exact h.past d hd'
      · have hge' : c.start ≤ d := Nat.le_of_not_lt hd'
        refine h.fewest_of_exhausted hleap hleap.base_lt hge'
          (weight_of_some (hsorted _) hseek hge' hd) (by rw [hbase, count_snoc_self])
          (fun k hk => by rw [hasked k hk, count_snoc_self]) fun x hx => ?_
        rw [count_snoc_of_ne (Nat.ne_of_lt hx), count_beyond hleap hx]

/-- **The last round.** -/
theorem done (h : Tally lists first c) (hleap : Leap lists c) {docids : List ℕ}
    (hstep : retrieveStep lists c = .inl docids) (d : ℕ) :
    Fewest lists first d (docids.count d) := by
  obtain ⟨hcount, hbase, hseek, rfl⟩ | ⟨hcount, hseek, rfl⟩ := retrieveStep_inl hstep
  · by_cases hd : d < c.start
    · exact h.past d hd
    · have hge : c.start ≤ d := Nat.le_of_not_lt hd
      exact h.fewest_of_exhausted hleap hcount hge (weight_of_none hseek hge)
        (h.waiting c.count hcount (Nat.le_refl _) (Ne.symm hbase)).symm
        (fun k hk => h.le_drawn hk) fun x hx => count_beyond hleap hx
  · have hasked : ∀ i < lists.length,
        drawn lists first c.pos i c.start = c.docids.count c.start + 1 :=
      fun i hi => h.asked i hi (.inl (Nat.lt_of_lt_of_le hi hcount))
    by_cases hd : d < c.start
    · rw [count_snoc_of_ne (Nat.ne_of_gt hd)]
      exact h.past d hd
    · have hge : c.start ≤ d := Nat.le_of_not_lt hd
      refine h.fewest_of_exhausted hleap hleap.base_lt hge (weight_of_none hseek hge)
        (by rw [hasked c.base hleap.base_lt, count_snoc_self])
        (fun k hk => by rw [hasked k hk, count_snoc_self]) fun x hx => ?_
      rw [count_snoc_of_ne (Nat.ne_of_lt hx), count_beyond hleap hx]

end Tally

/-- **The loops count the common ids.** -/
theorem Tally.retrieveLoop (h : Tally lists first c) (hleap : Leap lists c)
    (hsorted : ∀ i, (lists.getD i []).Pairwise (· ≤ ·)) (d : ℕ) :
    Fewest lists first d ((retrieveLoop lists c).count d) := by
  fun_induction AwadbRetrieval.retrieveLoop lists c with
  | case1 c docids hstep => exact h.done hleap hstep d
  | case2 c c' hstep ih => exact ih (h.step hleap hsorted hstep) (hleap.step hsorted hstep)

/-- **An id comes out as often as the list with the fewest entries has it.** -/
theorem retrieve_count {m : AwadbRetrieval} (hsorted : ∀ word, (m word).Pairwise (· ≤ ·))
    {query : List Bytes} (hquery : query ≠ []) (hfull : [] ∉ query.map m) (d : ℕ) :
    Fewest (query.map m) (largestFirst (query.map m)) d ((retrieve m query).count d) := by
  have hne : query.map m ≠ [] := fun hnil => hquery (List.map_eq_nil_iff.mp hnil)
  have hlists := sorted_lists hsorted query
  unfold retrieve
  dsimp only
  rw [if_neg hfull]
  refine Tally.retrieveLoop ⟨Nat.le_refl _, fun i hi hask => ?_, fun i hi hle hnbase => ?_,
    fun d hd => ?_⟩ (leap_init hne hfull hlists) hlists d
  · have hask' : i < 0 ∨ i = (largestFirst (query.map m)).2 := hask
    have heq : i = (largestFirst (query.map m)).2 := by omega
    subst heq
    rw [drawn_zero]
    exact if_pos rfl
  · rw [drawn_zero]
    exact if_neg fun heq => hnbase (congrArg Prod.snd heq).symm
  · -- an id below the first one of the list that was looked at
    obtain ⟨⟨hlt, hhead⟩, -, -⟩ := largestFirst_spec hne
    refine ⟨fun i hi => Nat.zero_le _, (largestFirst (query.map m)).2, hlt, ?_⟩
    have hnot : d ∉ (query.map m).getD (largestFirst (query.map m)).2 [] := by
      intro hmem
      have hle := headD_le (hlists _) hmem
      rw [hhead] at hle
      exact absurd hle (Nat.not_le.mpr hd)
    have hd' : d < (largestFirst (query.map m)).1 := hd
    unfold weight
    rw [List.count_eq_zero.mpr hnot, Nat.zero_add]
    refine if_neg fun heq => ?_
    have heq' : (largestFirst (query.map m)).1 = d := congrArg Prod.fst heq
    omega

/-! ### Documents -/

/-- The index after a sequence of calls of `AddDoc`. The ids come from the `int` that counts the
documents, so that the `-1` of `Seek` is none of them. -/
def ofDocs (docs : List (ℕ × List Bytes)) : AwadbRetrieval :=
  docs.foldl (fun m e => m.addDoc e.1 e.2) fun _ => []

/-- A document is entered once for each time it has the word. -/
theorem addDoc_apply (m : AwadbRetrieval) (docid : ℕ) (words : List Bytes) (word : Bytes) :
    m.addDoc docid words word = m word ++ List.replicate (words.count word) docid := by
  unfold addDoc
  induction words generalizing m with
  | nil => exact (List.append_nil _).symm
  | cons w words ih =>
    rw [List.foldl_cons, ih, List.count_cons]
    by_cases heq : w = word
    · subst heq
      rw [Function.update_self, if_pos (beq_self_eq_true w), List.append_assoc, List.replicate_succ]
      rfl
    · rw [Function.update_of_ne (Ne.symm heq), if_neg (by simpa using heq), Nat.add_zero]

theorem ofDocs_apply (docs : List (ℕ × List Bytes)) (word : Bytes) :
    ofDocs docs word = docs.flatMap fun e => List.replicate (e.2.count word) e.1 := by
  have hfold : ∀ m : AwadbRetrieval, docs.foldl (fun m e => m.addDoc e.1 e.2) m word =
      m word ++ docs.flatMap fun e => List.replicate (e.2.count word) e.1 := by
    induction docs with
    | nil => exact fun m => (List.append_nil _).symm
    | cons e docs ih =>
      intro m
      rw [List.foldl_cons, ih, addDoc_apply, List.flatMap_cons, List.append_assoc]
  exact hfold _

section Docs

variable {docs : List (ℕ × List Bytes)} (hdocs : docs.Pairwise (·.1 < ·.1)) {query : List Bytes}
  {word : Bytes} {words : List Bytes}

theorem mem_ofDocs : d ∈ ofDocs docs word ↔ ∃ e ∈ docs, e.1 = d ∧ word ∈ e.2 := by
  rw [ofDocs_apply, List.mem_flatMap]
  constructor
  · rintro ⟨e, he, hd⟩
    obtain ⟨hcount, heq⟩ := List.mem_replicate.mp hd
    exact ⟨e, he, heq.symm, List.count_pos_iff.mp (Nat.pos_of_ne_zero hcount)⟩
  · rintro ⟨e, he, heq, hword⟩
    exact ⟨e, he, List.mem_replicate.mpr ⟨Nat.ne_of_gt (List.count_pos_iff.mpr hword), heq.symm⟩⟩

include hdocs

theorem ofDocs_sorted (word : Bytes) : (ofDocs docs word).Pairwise (· ≤ ·) := by
  rw [ofDocs_apply, List.pairwise_flatMap]
  refine ⟨fun e _ => List.pairwise_replicate_of_refl, hdocs.imp fun hlt x hx y hy => ?_⟩
  rw [List.eq_of_mem_replicate hx, List.eq_of_mem_replicate hy]
  exact Nat.le_of_lt hlt

/-- An id has one document. -/
theorem words_unique {e : ℕ × List Bytes} (he : e ∈ docs) (hd : (d, words) ∈ docs)
    (heq : e.1 = d) : e.2 = words := by
  have hnodup : (docs.map Prod.fst).Nodup :=
    List.pairwise_map.mpr (hdocs.imp fun hlt => Nat.ne_of_lt hlt)
  rw [List.inj_on_of_nodup_map hnodup he hd heq]

/-- The list of a word has a document as often as the document has the word. -/
theorem count_ofDocs (hd : (d, words) ∈ docs) (word : Bytes) :
    (ofDocs docs word).count d = words.count word := by
  obtain ⟨before, after, rfl⟩ := List.append_of_mem hd
  obtain ⟨-, hafter, hbefore⟩ := List.pairwise_append.mp hdocs
  have hother : ∀ l : List (ℕ × List Bytes), (∀ e ∈ l, e.1 ≠ d) →
      (l.flatMap fun e => List.replicate (e.2.count word) e.1).count d = 0 := by
    intro l hl
    refine List.count_eq_zero.mpr fun hmem => ?_
    obtain ⟨e, he, hde⟩ := List.mem_flatMap.mp hmem
    exact hl e he (List.eq_of_mem_replicate hde).symm
  rw [ofDocs_apply, List.flatMap_append, List.flatMap_cons, List.count_append, List.count_append,
    List.count_replicate_self,
    hother before fun e he => Nat.ne_of_lt (hbefore e he _ List.mem_cons_self),
    hother after fun e he => Nat.ne_of_gt ((List.pairwise_cons.mp hafter).1 e he)]
  exact (Nat.add_zero _).trans (Nat.zero_add _)

/-- A list begins with the first document of its word. -/
theorem headD_ofDocs (hword : ∃ e ∈ docs, e.1 = d ∧ word ∈ e.2) :
    (ofDocs docs word).headD 0 = d ↔ ∀ e ∈ docs, e.1 < d → word ∉ e.2 := by
  have hsorted := ofDocs_sorted hdocs word
  have hmem : d ∈ ofDocs docs word := mem_ofDocs.mpr hword
  have hfirst : (ofDocs docs word).headD 0 ∈ ofDocs docs word := by
    cases hlist : ofDocs docs word with
    | nil => rw [hlist] at hmem; cases hmem
    | cons first rest => exact List.mem_cons_self
  constructor
  · intro heq e he hlt hin
    have hle := headD_le hsorted (mem_ofDocs.mpr ⟨e, he, rfl, hin⟩)
    omega
  · intro hnone
    have hle := headD_le hsorted hmem
    obtain ⟨e, he, heq, hin⟩ := mem_ofDocs.mp hfirst
    have hge : ¬ e.1 < d := fun hlt => hnone e he hlt hin
    omega

end Docs

/-! ### The result as a set of documents -/

/-- The document `d` is the first one with the word, and the words before it in the query have earlier
ones. The list of such a word is the one that was only looked at, when `d` has all words. -/
def Opens (docs : List (ℕ × List Bytes)) (query : List Bytes) (word : Bytes) (d : ℕ) : Prop :=
  (∀ e ∈ docs, e.1 < d → word ∉ e.2) ∧
    ∃ before after, query = before ++ word :: after ∧
      ∀ w ∈ before, ∃ e ∈ docs, e.1 < d ∧ w ∈ e.2

/-- What `Retrieve` should give: the documents with all words, in increasing order. -/
def Conjunction (docs : List (ℕ × List Bytes)) (query : List Bytes) (docids : List ℕ) : Prop :=
  docids.Pairwise (· < ·) ∧
    ∀ d, d ∈ docids ↔ ∃ words, (d, words) ∈ docs ∧ ∀ word ∈ query, word ∈ words

section Query

variable {docs : List (ℕ × List Bytes)} (hdocs : docs.Pairwise (·.1 < ·.1)) {query : List Bytes}
  {words : List Bytes}

include hdocs

/-- The list that was only looked at, for a document with all words. -/
theorem largestFirst_eq_iff (hnodup : query.Nodup) (hd : (d, words) ∈ docs)
    (hall : ∀ word ∈ query, word ∈ words) (hi : i < query.length) :
    largestFirst (query.map (ofDocs docs)) = (d, i) ↔ Opens docs query query[i] d := by
  have hne : query.map (ofDocs docs) ≠ [] := by
    intro hnil
    rw [List.map_eq_nil_iff.mp hnil] at hi
    exact absurd hi (Nat.not_lt_zero i)
  have hget : ∀ j (hj : j < query.length),
      (query.map (ofDocs docs)).getD j [] = ofDocs docs query[j] := by
    intro j hj
    rw [List.getD_eq_getElem?_getD, List.getElem?_map, List.getElem?_eq_getElem hj]
    rfl
  have hhas : ∀ j (hj : j < query.length), ∃ e ∈ docs, e.1 = d ∧ query[j] ∈ e.2 :=
    fun j hj => ⟨_, hd, rfl, hall _ (List.getElem_mem hj)⟩
  have hle : ∀ j (hj : j < query.length), ((query.map (ofDocs docs)).getD j []).headD 0 ≤ d := by
    intro j hj
    rw [hget j hj]
    exact headD_le (ofDocs_sorted hdocs _) (mem_ofDocs.mpr (hhas j hj))
  obtain ⟨⟨hlt, hhead⟩, hmax, hbefore⟩ := largestFirst_spec hne
  rw [List.length_map] at hlt hmax
  constructor
  · intro heq
    rw [heq] at hhead hbefore
    have hhead' : ((query.map (ofDocs docs)).getD i []).headD 0 = d := hhead
    rw [hget i hi] at hhead'
    refine ⟨(headD_ofDocs hdocs (hhas i hi)).mp hhead', query.take i, query.drop (i + 1), ?_,
      fun w hw => ?_⟩
    · rw [List.getElem_cons_drop, List.take_append_drop]
    · obtain ⟨j, hj⟩ := List.getElem?_of_mem hw
      rw [List.getElem?_take] at hj
      split at hj
      · rename_i hji
        obtain ⟨hjlt, rfl⟩ := List.getElem?_eq_some_iff.mp hj
        have hearlier : ((query.map (ofDocs docs)).getD j []).headD 0 < d := hbefore j hji
        rw [hget j hjlt] at hearlier
        by_contra hnone
        have heqd := (headD_ofDocs hdocs (hhas j hjlt)).mpr fun e he helt hin =>
          hnone ⟨e, he, helt, hin⟩
        omega
      · cases hj
  · rintro ⟨hnone, before, after, hquery, hearlier⟩
    have hlen : before.length = i := by
      have hb : before.length < query.length := by
        rw [hquery, List.length_append, List.length_cons]
        omega
      have hat : query[before.length]? = some query[i] := by
        conv_lhs => rw [hquery]
        rw [List.getElem?_append_right (Nat.le_refl _), Nat.sub_self, List.getElem?_cons_zero]
      obtain ⟨hb', heq⟩ := List.getElem?_eq_some_iff.mp hat
      exact (List.Nodup.getElem_inj_iff hnodup).mp heq
    have hheadi : ((query.map (ofDocs docs)).getD i []).headD 0 = d := by
      rw [hget i hi]
      exact (headD_ofDocs hdocs (hhas i hi)).mpr hnone
    have hmaxi := hmax i hi
    have hles := hle _ hlt
    have hfst : (largestFirst (query.map (ofDocs docs))).1 = d := by omega
    have hge : (largestFirst (query.map (ofDocs docs))).2 ≤ i := by
      by_contra hnot
      have hlt' := hbefore i (Nat.lt_of_not_le hnot)
      omega
    have hnlt : ¬ (largestFirst (query.map (ofDocs docs))).2 < i := by
      intro hlt'
      have hmem : query[(largestFirst (query.map (ofDocs docs))).2] ∈ before := by
        refine List.mem_of_getElem? (i := (largestFirst (query.map (ofDocs docs))).2) ?_
        rw [← List.getElem?_append_left (hlen ▸ hlt'), ← hquery, List.getElem?_eq_getElem hlt]
      obtain ⟨e, he, helt, hin⟩ := hearlier _ hmem
      rw [hget _ hlt] at hhead
      exact (headD_ofDocs hdocs (hhas _ hlt)).mp (hhead.trans hfst) e he helt hin
    exact Prod.ext hfst (Nat.le_antisymm hge (Nat.le_of_not_lt hnlt))

/-- When a document with all words comes out once. -/
theorem count_retrieve_le_one_iff (hquery : query ≠ []) (hnodup : query.Nodup)
    (hd : (d, words) ∈ docs) (hall : ∀ word ∈ query, word ∈ words) :
    (retrieve (ofDocs docs) query).count d ≤ 1 ↔
      ∃ word ∈ query, words.count word = 1 ∧ ¬ Opens docs query word d := by
  have hfull : [] ∉ query.map (ofDocs docs) := by
    intro hempty
    obtain ⟨word, hword, hnil⟩ := List.mem_map.mp hempty
    have hmem : d ∈ ofDocs docs word := mem_ofDocs.mpr ⟨_, hd, rfl, hall word hword⟩
    rw [hnil] at hmem
    cases hmem
  have hweight : ∀ i (hi : i < query.length),
      weight (query.map (ofDocs docs)) (largestFirst (query.map (ofDocs docs))) i d ≤ 1 ↔
        words.count query[i] = 1 ∧ ¬ Opens docs query query[i] d := by
    intro i hi
    have hpos : 0 < words.count query[i] := List.count_pos_iff.mpr (hall _ (List.getElem_mem hi))
    unfold weight lookedAt
    rw [List.getD_eq_getElem?_getD, List.getElem?_map, List.getElem?_eq_getElem hi,
      Option.map_some, Option.getD_some, count_ofDocs hdocs hd,
      ← largestFirst_eq_iff hdocs hnodup hd hall hi]
    split
    · rename_i heq
      simp only [heq, not_true_eq_false, and_false, iff_false]
      omega
    · rename_i hne
      simp only [hne, not_false_eq_true, and_true]
      omega
  obtain ⟨hle, i, hi, heq⟩ := retrieve_count (ofDocs_sorted hdocs) hquery hfull d
  rw [List.length_map] at hi hle
  constructor
  · intro hone
    exact ⟨query[i], List.getElem_mem hi, (hweight i hi).mp (heq ▸ hone)⟩
  · rintro ⟨word, hword, hcond⟩
    obtain ⟨j, hj, rfl⟩ := List.getElem_of_mem hword
    exact Nat.le_trans (hle j hj) ((hweight j hj).mpr hcond)

/-- The result holds the documents with all words. -/
theorem mem_retrieve_ofDocs (hquery : query ≠ []) (d : ℕ) :
    d ∈ retrieve (ofDocs docs) query ↔
      ∃ words, (d, words) ∈ docs ∧ ∀ word ∈ query, word ∈ words := by
  rw [mem_retrieve (ofDocs_sorted hdocs) hquery]
  constructor
  · intro hall
    obtain ⟨first, hfirst⟩ := List.exists_mem_of_ne_nil query hquery
    obtain ⟨e, he, rfl, -⟩ := mem_ofDocs.mp (hall first hfirst)
    refine ⟨e.2, he, fun word hword => ?_⟩
    obtain ⟨e', he', heq, hin⟩ := mem_ofDocs.mp (hall word hword)
    exact words_unique hdocs he' he heq ▸ hin
  · rintro ⟨words, hd, hall⟩ word hword
    exact mem_ofDocs.mpr ⟨_, hd, rfl, hall word hword⟩

/-- **`Retrieve` gives the conjunction** exactly when every document with all words of the query has
one of them once only, other than the word that is looked at first. -/
theorem retrieve_conjunction_iff (hquery : query ≠ []) (hnodup : query.Nodup) :
    Conjunction docs query (retrieve (ofDocs docs) query) ↔
      ∀ d words, (d, words) ∈ docs → (∀ word ∈ query, word ∈ words) →
        ∃ word ∈ query, words.count word = 1 ∧ ¬ Opens docs query word d := by
  have hmem := mem_retrieve_ofDocs hdocs hquery
  have hsorted := (retrieve_result (ofDocs_sorted hdocs) hquery).sorted
  constructor
  · rintro ⟨hlt, -⟩ d words hd hall
    have hnodup' : (retrieve (ofDocs docs) query).Nodup := hlt.imp fun h => Nat.ne_of_lt h
    exact (count_retrieve_le_one_iff hdocs hquery hnodup hd hall).mp
      (List.nodup_iff_count_le_one.mp hnodup' d)
  · intro hcond
    have hnodup' : (retrieve (ofDocs docs) query).Nodup := by
      refine List.nodup_iff_count_le_one.mpr fun d => ?_
      by_cases hd : d ∈ retrieve (ofDocs docs) query
      · obtain ⟨words, hd, hall⟩ := (hmem d).mp hd
        exact (count_retrieve_le_one_iff hdocs hquery hnodup hd hall).mpr (hcond d words hd hall)
      · rw [List.count_eq_zero.mpr hd]
        exact Nat.zero_le 1
    exact ⟨(hsorted.and hnodup').imp fun h => Nat.lt_of_le_of_ne h.1 h.2, hmem⟩

end Query

/-- Two documents, both words of the second one: the first word is in an earlier document. -/
theorem retrieve_conjunction_second :
    Conjunction [(0, [[97]]), (1, [[97], [98]])] [[97], [98]]
      (retrieve (ofDocs [(0, [[97]]), (1, [[97], [98]])]) [[97], [98]]) := by
  refine (retrieve_conjunction_iff (by decide) (by decide) (by decide)).mpr fun d words hd hall => ?_
  refine ⟨[97], by decide, ?_⟩
  simp only [List.mem_cons, Prod.mk.injEq, List.not_mem_nil, or_false] at hd
  obtain ⟨rfl, rfl⟩ | ⟨rfl, rfl⟩ := hd
  · exact absurd (hall [98] (by decide)) (by decide)
  · exact ⟨by decide, fun hopens => hopens.1 (0, [[97]]) (by decide) (by decide) (by decide)⟩

/-- One document and its word: the document comes out twice. -/
theorem retrieve_twice :
    ¬ Conjunction [(0, [[97]])] [[97]] (retrieve (ofDocs [(0, [[97]])]) [[97]]) := by
  rintro ⟨hlt, -⟩
  have hnodup : (retrieve (ofDocs [(0, [[97]])]) [[97]]).Nodup := hlt.imp fun h => Nat.ne_of_lt h
  obtain ⟨word, hword, -, hopens⟩ := (count_retrieve_le_one_iff (by decide) (by decide) (by decide)
    (List.mem_singleton.mpr rfl) fun word hword => hword).mp
      (List.nodup_iff_count_le_one.mp hnodup 0)
  rw [List.mem_singleton.mp hword] at hopens
  exact hopens ⟨fun e _ hlt => absurd hlt (Nat.not_lt_zero _), [], [], rfl,
    fun w hw => absurd hw List.not_mem_nil⟩

end AwadbRetrieval

end AwaDB
