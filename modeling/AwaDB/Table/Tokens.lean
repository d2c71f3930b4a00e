import AwaDB.Table.Intersect
import AwaDB.Table.TagCopies
import Mathlib.Algebra.Order.BigOperators.Group.List
import Mathlib.Algebra.Order.Ring.Int
import Mathlib.Data.List.TakeWhile

/-!
# How values and queries are cut (`FieldRangeIndex::Add`, `Delete` and `Search`)

`Add` and `Delete` cut a value with `strtok_r`, which stops at the first NUL byte. `Search` cuts a query
with `utils::split`, which goes through all bytes. A token with a NUL byte, or behind one, is in no node,
and what is before the first NUL byte is found under a tag that the value does not have.

* `sameCut_iff`: the values on which the two agree;
* `Showing.search_spec`: what a search finds that stays inside its bitmap;
* `cutAlike_iff`: after a run of `Add` and `Delete`, the queries that find the documents with a common
  token;
* `cut_short`: a value that does not find itself.
-/

namespace AwaDB

open Lib

/-! ### The two tokenisers -/

variable {v token : Bytes} {b : UInt8}

/-- A byte of a value that is no delimiter is in a token. -/
theorem mem_split (hb : b ≠ kDelim) : b ∈ v ↔ ∃ token ∈ split v, b ∈ token := by
  rw [mem_iff_splitOn hb]
  constructor
  · rintro ⟨token, htoken, hmem⟩
    refine ⟨token, List.mem_filter.mpr ⟨htoken, decide_eq_true fun hnil => ?_⟩, hmem⟩
    rw [hnil] at hmem
    exact List.not_mem_nil hmem
  · rintro ⟨token, htoken, hmem⟩
    exact ⟨token, List.mem_of_mem_filter htoken, hmem⟩

/-- A token is the one token of itself. -/
theorem split_token (h : token ∈ split v) : split token = [token] := by
  obtain ⟨hmem, hne⟩ := List.mem_filter.mp h
  rw [split, List.splitOn_eq_singleton (not_mem_of_splitOn hmem)]
  exact List.filter_eq_self.mpr fun other hother => List.mem_singleton.mp hother ▸ hne

theorem tags_of_not_mem (h : 0 ∉ v) : TagIndex.tags v = split v := by
  rw [TagIndex.tags, cString, List.takeWhile_eq_self_iff.mpr]
  intro b hb
  exact decide_eq_true fun hzero => h (hzero ▸ hb)

/-- `strtok_r` finds no NUL byte. -/
theorem not_mem_of_tags (h : token ∈ TagIndex.tags v) : 0 ∉ token := by
  intro hzero
  have hmem : (0 : UInt8) ∈ cString v := (mem_split (by decide)).mpr ⟨token, h, hzero⟩
  rw [cString] at hmem
  have hother := List.mem_takeWhile_imp hmem
  exact absurd hother (by decide)

namespace Node

/-- The node has the documents of `s`, each of them in its aligned window, and counts some exactly when
there are any. -/
structure Shows (n : Node) (s : Finset ℕ) : Prop where
  size : 0 ≤ n.size
  filled : 0 < n.size ↔ s.Nonempty
  bounds : ∀ d ∈ s, n.minAligned ≤ d ∧ (d : ℤ) ≤ n.maxAligned
  data : n.Covers s

variable {n : Node} {s : Finset ℕ} {d : ℕ}

theorem Shows.holds_iff (h : n.Shows s) : n.Holds d ↔ d ∈ s := by
  have hdata := h.data
  unfold Covers at hdata
  unfold Holds
  cases hn : n.data with
  | sparse docs =>
    rw [hn] at hdata
    rw [← hdata, List.mem_toFinset]
  | dense bitmap =>
    rw [hn] at hdata
    exact hdata.test d

end Node

namespace FieldRangeIndex

open MultiFieldsRangeIndex

variable {i : FieldRangeIndex} {lo hi : ℤ} {bits : Bits} {n : Node} {s : Finset ℕ}

/-- The documents of an array are set one by one. -/
theorem test_foldl_set (h : Window lo hi bits) (docs : List ℕ)
    (hdocs : ∀ d ∈ docs, lo ≤ d ∧ (d : ℤ) ≤ hi) :
    Window lo hi (docs.foldl (fun bits (doc : ℕ) => bits.set (doc - lo).toNat true) bits) ∧
      ∀ d : ℕ, lo ≤ d → (d : ℤ) ≤ hi →
        ((docs.foldl (fun bits (doc : ℕ) => bits.set (doc - lo).toNat true) bits).test (d - lo).toNat =
          true ↔ bits.test (d - lo).toNat = true ∨ d ∈ docs) := by
  induction docs generalizing bits with
  | nil => exact ⟨h, fun d _ _ => by simp⟩
  | cons doc docs ih =>
    obtain ⟨hlow, hhigh⟩ := hdocs doc List.mem_cons_self
    have hlength := h.length
    rw [Bits.length_create] at hlength
    have hnext : Window lo hi (bits.set (doc - lo).toNat true) :=
      ⟨h.le, h.start, h.stop, (List.length_set).trans h.length⟩
    obtain ⟨hwindow, htest⟩ := ih hnext fun d hd => hdocs d (List.mem_cons_of_mem doc hd)
    refine ⟨hwindow, fun d hd₁ hd₂ => ?_⟩
    rw [List.foldl_cons, htest d hd₁ hd₂, Bits.test_set bits (by omega), List.mem_cons]
    by_cases heq : d = doc
    · subst heq
      simp
    · rw [if_neg (by omega), or_iff_right heq]

/-- **One node** of a search adds its documents to the bitmap. -/
theorem collectTag_spec (total : ℤ) (h : Window lo hi bits) (hn : n.Placed) (hs : n.Shows s)
    (hlow : n.IsDense ∨ s.Nonempty → lo ≤ n.minAligned)
    (hhigh : n.IsDense ∨ s.Nonempty → n.maxAligned ≤ hi) :
    ∃ bits', collectTag lo hi n (bits, total) = some (bits', total + n.size) ∧ Window lo hi bits' ∧
      ∀ d : ℕ, lo ≤ d → (d : ℤ) ≤ hi →
        (bits'.test (d - lo).toNat = true ↔ bits.test (d - lo).toNat = true ∨ d ∈ s) := by
  have hdata := hs.data
  unfold Node.Covers at hdata
  rw [collectTag]
  cases hkind : n.data with
  | sparse docs =>
    rw [hkind] at hdata
    have hmem : ∀ d, d ∈ docs ↔ d ∈ s := fun d => by rw [← hdata, List.mem_toFinset]
    obtain ⟨hwindow, htest⟩ := test_foldl_set h docs fun d hd => by
      have hds := (hmem d).mp hd
      have hbounds := hs.bounds d hds
      have h₁ := hlow (.inr ⟨d, hds⟩)
      have h₂ := hhigh (.inr ⟨d, hds⟩)
      omega
    refine ⟨_, rfl, hwindow, fun d hd₁ hd₂ => ?_⟩
    rw [htest d hd₁ hd₂, hmem]
  | dense bitmap =>
    rw [hkind] at hdata
    have h₁ := hlow (.inl ⟨bitmap, hkind⟩)
    have h₂ := hhigh (.inl ⟨bitmap, hkind⟩)
    have hlength := h.length
    rw [Bits.length_create] at hlength
    have hstart := h.start
    obtain ⟨a, ha⟩ := hn.down
    obtain ⟨b, hb⟩ := hn.up
    have hle := hn.aligned_le
    dsimp only
    rw [if_neg (by omega)]
    refine ⟨_, rfl, ⟨h.le, h.start, h.stop, ?_⟩, fun d hd₁ hd₂ => ?_⟩
    · rw [Bits.orWords, Bits.length_onWords]
      exact h.length
    · rw [Bits.orWords, Bits.test_onWords _ _ _ _ _ _ (by omega), ← hdata.test d]
      by_cases hin : n.minAligned ≤ d ∧ (d : ℤ) ≤ n.maxAligned
      · have hwords : n.words = ((n.maxAligned - n.minAligned + 1) / 64).toNat := rfl
        have hpos : (d - lo).toNat - 64 * ((n.minAligned - lo) / 64).toNat + 64 * 0 =
            Node.pos n.minAligned d := by
          rw [Node.pos]
          omega
        rw [if_pos (by omega), hpos, Bool.or_eq_true, and_iff_right hin.1]
      · have hout : ¬ (n.minAligned ≤ d ∧ bitmap.test (Node.pos n.minAligned d) = true) :=
          fun hbit => hin (hs.bounds d ((hdata.test d).mp hbit))
        have hwords : n.words = ((n.maxAligned - n.minAligned + 1) / 64).toNat := rfl
        rw [if_neg (by omega), or_iff_left hout]

/-- **All nodes** of a search. -/
theorem runOps_collectTag_spec (h : Window lo hi bits) (nodes : List Node) (total : ℤ)
    (hnodes : ∀ n ∈ nodes, n.Placed ∧ ∃ s, n.Shows s ∧
      (n.IsDense ∨ s.Nonempty → lo ≤ n.minAligned ∧ n.maxAligned ≤ hi)) :
    ∃ bits', runOps (collectTag lo hi) nodes (bits, total) =
        some (bits', total + (nodes.map Node.size).sum) ∧ Window lo hi bits' ∧
      ∀ d : ℕ, lo ≤ d → (d : ℤ) ≤ hi → (bits'.test (d - lo).toNat = true ↔
        bits.test (d - lo).toNat = true ∨ ∃ n ∈ nodes, n.Holds d) := by
  induction nodes generalizing bits total with
  | nil => exact ⟨bits, by rw [runOps_nil, List.map_nil, List.sum_nil, add_zero], h, fun d _ _ => by simp⟩
  | cons n nodes ih =>
    obtain ⟨hplaced, s, hs, hin⟩ := hnodes n List.mem_cons_self
    obtain ⟨bits₁, hstep, hwindow, htest⟩ :=
      collectTag_spec total h hplaced hs (fun hfull => (hin hfull).1) fun hfull => (hin hfull).2
    obtain ⟨bits₂, hrun, hwindow', htest'⟩ :=
      ih hwindow (total + n.size) fun m hm => hnodes m (List.mem_cons_of_mem n hm)
    refine ⟨bits₂, ?_, hwindow', fun d hd₁ hd₂ => ?_⟩
    · rw [runOps_cons, hstep, Option.bind_some, hrun, List.map_cons, List.sum_cons, add_assoc]
    · rw [htest' d hd₁ hd₂, htest d hd₁ hd₂, List.exists_mem_cons_iff, hs.holds_iff, or_assoc]

/-- The nodes of the index have the documents of `rep`. -/
structure Showing (i : FieldRangeIndex) (rep : Bytes → Finset ℕ) : Prop where
  isString : i.isNumeric = false
  placed : i.tree.AllPlaced
  node : ∀ tag n, i.tree.lookup tag = some n → n.Shows (rep tag)
  empty : ∀ tag, i.tree.lookup tag = none → rep tag = ∅

/-- What the nodes of a search count, a tag as often as the query has it. -/
def tagCount (i : FieldRangeIndex) (query : Bytes) : ℤ := ((i.tagNodes query).map Node.size).sum

variable {rep : Bytes → Finset ℕ} {query : Bytes} {d : ℕ}

theorem Showing.holds_iff (h : i.Showing rep) (tag : Bytes) : i.tree.Holds tag d ↔ d ∈ rep tag := by
  constructor
  · rintro ⟨n, hn, hd⟩
    exact (h.node tag n hn).holds_iff.mp hd
  · intro hd
    cases hn : i.tree.lookup tag with
    | none =>
      rw [h.empty tag hn] at hd
      exact absurd hd (Finset.notMem_empty d)
    | some n => exact ⟨n, hn, (h.node tag n hn).holds_iff.mpr hd⟩

theorem holds_tagNodes : (∃ n ∈ i.tagNodes query, n.Holds d) ↔ ∃ tag ∈ split query, i.tree.Holds tag d := by
  constructor
  · rintro ⟨n, hn, hd⟩
    obtain ⟨tag, htag, hlookup⟩ := List.mem_filterMap.mp hn
    exact ⟨tag, htag, n, hlookup, hd⟩
  · rintro ⟨tag, htag, n, hlookup, hd⟩
    exact ⟨n, List.mem_filterMap.mpr ⟨tag, htag, hlookup⟩, hd⟩

/-- Each node of a search has documents, and says so. -/
theorem Showing.tagNodes (h : i.Showing rep) {n : Node} (hn : n ∈ i.tagNodes query) :
    n.Placed ∧ ∃ s, n.Shows s := by
  obtain ⟨tag, -, hlookup⟩ := List.mem_filterMap.mp hn
  exact ⟨h.placed tag n hlookup, rep tag, h.node tag n hlookup⟩

theorem Showing.search_eq (h : i.Showing rep) (query upper : Bytes) :
    i.search query upper = i.searchTags query := by
  rw [FieldRangeIndex.search, h.isString]
  rfl

/-- The nodes of a search count nothing below zero. -/
theorem Showing.size_nonneg (h : i.Showing rep) : ∀ size ∈ (i.tagNodes query).map Node.size, 0 ≤ size := by
  intro size hsize
  obtain ⟨n, hn, rfl⟩ := List.mem_map.mp hsize
  obtain ⟨-, s, hs⟩ := h.tagNodes hn
  exact hs.size

/-- A node that has a document is one of those that the window is computed from. -/
theorem Showing.filled (h : i.Showing rep) {n : Node} (hn : n ∈ i.tagNodes query) (hd : n.Holds d) :
    n ∈ i.filledNodes query := by
  obtain ⟨-, s, hs⟩ := h.tagNodes hn
  exact mem_filledNodes.mpr ⟨hn, hs.filled.mpr ⟨d, hs.holds_iff.mp hd⟩⟩

/-- **A search that stays inside its bitmap** finds the documents of its tags. -/
theorem Showing.search_spec (h : i.Showing rep) (hcovered : i.Covered query) (upper : Bytes) :
    ∃ r, i.search query upper = some r ∧ r.1 = i.tagCount query ∧ ∀ d : ℕ,
      (0 < r.1 ∧ r.2.has d = true) ↔ ∃ tag ∈ split query, i.tree.Holds tag d := by
  rw [h.search_eq, searchTags_eq]
  by_cases hnil : i.filledNodes query = []
  · rw [hnil, if_pos (by decide)]
    refine ⟨_, rfl, ?_, fun d => iff_of_false (fun hfound => Int.lt_irrefl 0 hfound.1) ?_⟩
    · refine (List.sum_eq_zero fun size hsize => ?_).symm
      have hle := h.size_nonneg size hsize
      obtain ⟨n, hn, rfl⟩ := List.mem_map.mp hsize
      have hnone := filledNodes_eq_nil.mp hnil n hn
      omega
    · rw [← holds_tagNodes]
      rintro ⟨n, hn, hd⟩
      have hmem := h.filled hn hd
      rw [hnil] at hmem
      exact List.not_mem_nil hmem
  · obtain ⟨lo, hlo⟩ : ∃ lo, lo = (i.filledNodes query).foldl (fun m list => min m list.minAligned) intMax :=
      ⟨_, rfl⟩
    obtain ⟨hi, hhi⟩ : ∃ hi, hi = (i.filledNodes query).foldl (fun m list => max m list.maxAligned) 0 :=
      ⟨_, rfl⟩
    obtain ⟨hcover, hzero, hle, hfits, hstart, hstop⟩ :=
      window_bounds hnil (fun n hn => (h.tagNodes (mem_filledNodes.mp hn).1).1) hlo hhi
    rw [covered_iff h.placed hnil hlo hhi] at hcovered
    have hwindow := window_ofRange hzero hle hfits hstart hstop
    obtain ⟨bits, hrun, hwindow', htest⟩ := runOps_collectTag_spec hwindow
      (i.tagNodes query) 0 fun n hn => by
        obtain ⟨hplaced, s, hs⟩ := h.tagNodes hn
        refine ⟨hplaced, s, hs, ?_⟩
        rintro (hdense | hsome)
        · exact hcovered n hn hdense
        · exact hcover n (mem_filledNodes.mpr ⟨hn, hs.filled.mpr hsome⟩)
    have hcount : 0 + ((i.tagNodes query).map Node.size).sum = i.tagCount query := Int.zero_add _
    rw [hcount] at hrun
    have htotal : 0 < i.tagCount query := by
      obtain ⟨m, hm⟩ := List.exists_mem_of_ne_nil _ hnil
      obtain ⟨hmem, hpos⟩ := mem_filledNodes.mp hm
      have hle := List.single_le_sum h.size_nonneg m.size (List.mem_map_of_mem hmem)
      exact Int.lt_of_lt_of_le hpos hle
    rw [← hlo, ← hhi]
    dsimp only
    rw [if_neg (by omega), hrun, Option.map_some]
    refine ⟨_, rfl, rfl, fun d => ?_⟩
    have hhas := has_ofRange hzero hwindow' hfits (i.tagCount query) d
    rw [← holds_tagNodes]
    constructor
    · rintro ⟨-, hd⟩
      obtain ⟨hd₁, hd₂, hbit⟩ := hhas.mp hd
      refine ((htest d hd₁ hd₂).mp hbit).resolve_left fun hnew => ?_
      rw [RangeQueryResult.bitmap_ofRange hzero hle hfits hstart hstop, Bits.test_create] at hnew
      cases hnew
    · rintro ⟨n, hn, hd⟩
      obtain ⟨-, s, hs⟩ := h.tagNodes hn
      have hbounds := hs.bounds d (hs.holds_iff.mp hd)
      have hin := hcover n (h.filled hn hd)
      have hd₁ : lo ≤ d := hin.1.trans hbounds.1
      have hd₂ : (d : ℤ) ≤ hi := hbounds.2.trans hin.2
      exact ⟨htotal, hhas.mpr ⟨hd₁, hd₂, (htest d hd₁ hd₂).mpr (.inr ⟨n, hn, hd⟩)⟩⟩

/-- A search that is defined stays inside its bitmap. -/
theorem Showing.covered (h : i.Showing rep) {upper : Bytes} {r : ℤ × RangeQueryResult}
    (hr : i.search query upper = some r) : i.Covered query := by
  rw [h.search_eq] at hr
  rw [← mergeTags?_inside_iff h.placed, ← searchTags_iff h.placed, hr]
  exact Option.some_ne_none r

end FieldRangeIndex

namespace TagIndex

open FieldRangeIndex

/-- A key that the B-tree finds again: `BT_maxkey` bytes at most, and not the stopper of its last page. -/
def TreeKey (key : Bytes) : Prop := key.length ≤ 255 ∧ key ≠ [255, 255]

instance : DecidablePred TreeKey := fun key =>
  inferInstanceAs (Decidable (key.length ≤ 255 ∧ key ≠ [255, 255]))

/-- A call whose tags are keys. -/
def Taken : TagOp → TagIndex → Prop
  | .add docid value, s => Legal (.add docid value) s ∧ ∀ tag ∈ tags value, TreeKey tag
  | .delete docid, s => Legal (.delete docid) s

instance (op : TagOp) (s : TagIndex) : Decidable (Taken op s) :=
  match op with
  | .add docid value =>
    inferInstanceAs (Decidable (Legal (.add docid value) s ∧ ∀ tag ∈ tags value, TreeKey tag))
  | .delete docid => inferInstanceAs (Decidable (Legal (.delete docid) s))

/-- The tokens have one in common with the query. -/
def Common (tokens : List Bytes) (query : Bytes) : Prop := ∃ token ∈ tokens, token ∈ split query

instance (tokens : List Bytes) (query : Bytes) : Decidable (Common tokens query) :=
  inferInstanceAs (Decidable (∃ token ∈ tokens, token ∈ split query))

/-- **Values and queries are cut alike**: `Search` returns a number that `int` has, and finds the documents
whose values have a token in common with the query; a document without a value is in no node. -/
structure CutAlike (s : TagIndex) (query : Bytes) : Prop where
  search : ∀ upper, ∃ r, s.index.search query upper = some r ∧ r.1 ≤ intMax ∧ ∀ d : ℕ,
    (0 < r.1 ∧ r.2.has d = true) ↔ ∃ v, s.values d = some v ∧ Common (split v) query
  removed : ∀ d, s.values d = none → ∀ tag, ¬ s.index.tree.Holds tag d

/-- The query makes no difference between the bytes of a value and its C string. -/
def SameCut (v query : Bytes) : Prop := Common (split v) query ↔ Common (tags v) query

/-- **The two tokenisers** agree on a value for every query exactly when it has no NUL byte. -/
theorem sameCut_iff (v : Bytes) : (∀ query, SameCut v query) ↔ 0 ∉ v := by
  constructor
  · intro hsame hzero
    obtain ⟨token, htoken, hmem⟩ := (mem_split (by decide)).mp hzero
    have hquery : split token = [token] := split_token htoken
    obtain ⟨tag, htag, hcommon⟩ := (hsame token).mp ⟨token, htoken, hquery ▸ List.mem_singleton_self _⟩
    rw [hquery, List.mem_singleton] at hcommon
    exact not_mem_of_tags htag (hcommon ▸ hmem)
  · intro hnone query
    rw [SameCut, tags_of_not_mem hnone]

variable {s : TagIndex} {query : Bytes} {d : ℕ}

/-- The nodes of a run, without the copies. -/
theorem Kept.showing (h : Kept s) : ∃ rep, s.index.Showing rep ∧
    ∀ tag d, d ∈ rep tag ↔ s.Tagged tag d := by
  obtain ⟨rep, hrep, hcount⟩ := h.tree
  refine ⟨fun tag => (rep tag).toFinset, ⟨h.isString, h.placed, fun tag n hn => ?_, fun tag hn => ?_⟩,
    fun tag d => ?_⟩
  · have hcopies := hrep.node tag n hn
    have hsize := hcopies.size
    refine ⟨by omega, ?_, hcopies.counted.bounds, hcopies.counted.data⟩
    rw [hsize, Int.natCast_pos, Multiset.card_pos, Multiset.toFinset_nonempty]
  · rw [hrep.empty tag hn]
    rfl
  · rw [Multiset.mem_toFinset, ← Multiset.count_pos, hcount, copies_pos]

/-- A document is found by the tags of its value. -/
theorem Kept.holds_iff (h : Kept s) (tag : Bytes) : s.index.tree.Holds tag d ↔ s.Tagged tag d := by
  obtain ⟨rep, hshowing, hmem⟩ := h.showing
  rw [hshowing.holds_iff, hmem]

theorem Kept.common_iff (h : Kept s) {v : Bytes} (hv : s.values d = some v) :
    (∃ tag ∈ split query, s.index.tree.Holds tag d) ↔ Common (tags v) query := by
  constructor
  · rintro ⟨tag, htag, hholds⟩
    obtain ⟨v', hv', hmem⟩ := (h.holds_iff tag).mp hholds
    rw [hv] at hv'
    cases hv'
    exact ⟨tag, hmem, htag⟩
  · rintro ⟨tag, hmem, htag⟩
    exact ⟨tag, htag, (h.holds_iff tag).mpr ⟨v, hv, hmem⟩⟩

/-- **A state of a run.** -/
theorem Kept.alike_iff (h : Kept s) (query : Bytes) : s.CutAlike query ↔
    s.index.Covered query ∧ s.index.tagCount query ≤ intMax ∧
      ∀ d v, s.values d = some v → SameCut v query := by
  obtain ⟨rep, hshowing, -⟩ := h.showing
  constructor
  · intro halike
    obtain ⟨r, hr, hfits, hfound⟩ := halike.search []
    have hcovered := hshowing.covered hr
    obtain ⟨r', hr', hcount, hfound'⟩ := hshowing.search_spec hcovered []
    rw [hr] at hr'
    cases hr'
    refine ⟨hcovered, hcount ▸ hfits, fun d v hv => ?_⟩
    rw [SameCut, ← h.common_iff hv, ← hfound', hfound]
    constructor
    · exact fun hcommon => ⟨v, hv, hcommon⟩
    · rintro ⟨v', hv', hcommon⟩
      rw [hv] at hv'
      cases hv'
      exact hcommon
  · rintro ⟨hcovered, hfits, hsame⟩
    constructor
    · intro upper
      obtain ⟨r, hr, hcount, hfound⟩ := hshowing.search_spec hcovered upper
      refine ⟨r, hr, hcount ▸ hfits, fun d => ?_⟩
      rw [hfound]
      constructor
      · intro hcommon
        obtain ⟨v, hv⟩ : ∃ v, s.values d = some v := by
          obtain ⟨tag, -, hholds⟩ := hcommon
          obtain ⟨v, hv, -⟩ := (h.holds_iff tag).mp hholds
          exact ⟨v, hv⟩
        exact ⟨v, hv, (hsame d v hv).mpr ((h.common_iff hv).mp hcommon)⟩
      · rintro ⟨v, hv, hcommon⟩
        exact (h.common_iff hv).mpr ((hsame d v hv).mp hcommon)
    · intro d hnone tag hholds
      obtain ⟨v, hv, -⟩ := (h.holds_iff tag).mp hholds
      rw [hnone] at hv
      cases hv

theorem legal_of_taken {ops : List TagOp} (h : Guarded step Taken ops s) : Guarded step Legal ops s := by
  induction ops generalizing s with
  | nil => exact trivial
  | cons op ops ih =>
    refine ⟨?_, fun s' hstep => ih (h.2 s' hstep)⟩
    cases op with
    | add d v => exact h.1.1
    | delete d => exact h.1

/-- **Values and queries are cut alike** after a run of `Add` and `Delete` exactly when the bitmaps of the
query are covered, its nodes count no more than `INT_MAX`, and it makes no difference between the bytes of
a stored value and its C string. -/
theorem cutAlike_iff {ops : List TagOp} (htaken : Guarded step Taken ops empty)
    (hrun : runOps step ops empty = some s) (query : Bytes) : s.CutAlike query ↔
      s.index.Covered query ∧ s.index.tagCount query ≤ intMax ∧
        ∀ d v, s.values d = some v → SameCut v query :=
  (kept_empty.run (legal_of_taken htaken) hrun).alike_iff query

/-- One value is added. -/
theorem exists_added (v : Bytes) (hnodup : (tags v).Nodup) :
    ∃ s, runOps step [.add 3 v] empty = some s ∧ s.values 3 = some v := by
  obtain ⟨s, hstep, -⟩ := inv_empty.add (show 3 + 64 < docLimit by decide) rfl hnodup
  obtain ⟨i, -, rfl⟩ := Option.map_eq_some_iff.mp hstep
  refine ⟨_, by rw [runOps_cons, hstep]; rfl, ?_⟩
  dsimp only
  rw [Function.update_self]

theorem cutAlike_one : ∃ s, runOps step [.add 3 [97, 1, 98]] empty = some s ∧ (s.CutAlike [98] ↔
    s.index.Covered [98] ∧ s.index.tagCount [98] ≤ intMax ∧
      ∀ d v, s.values d = some v → SameCut v [98]) := by
  obtain ⟨s, hrun, -⟩ := exists_added [97, 1, 98] (by decide)
  have htaken : Guarded step Taken [.add 3 [97, 1, 98]] empty := ⟨by decide, fun _ _ => trivial⟩
  exact ⟨s, hrun, cutAlike_iff htaken hrun [98]⟩

/-- A value with a NUL byte is stored, and the value itself finds nothing. -/
theorem cut_short : ¬ ∀ (ops : List TagOp) (s : TagIndex) (query : Bytes),
    Guarded step Taken ops empty → runOps step ops empty = some s → s.CutAlike query := by
  intro h
  have htaken : Guarded step Taken [.add 3 [97, 0, 98]] empty := ⟨by decide, fun _ _ => trivial⟩
  obtain ⟨s, hrun, hvalue⟩ := exists_added [97, 0, 98] (by decide)
  have halike := h _ s [97, 0, 98] htaken hrun
  have hsame := ((kept_empty.run (legal_of_taken htaken) hrun).alike_iff _).mp halike
  have hcommon := hsame.2.2 3 _ hvalue
  exact absurd hcommon (by rw [SameCut]; decide)

end TagIndex

end AwaDB
