import AwaDB.Client.ResultItem

/-!
# The ways of a vector to its reader (`GetVector`, `ResultItem::GetVecData`, `Field::GetVecData`)

A search gives the bytes of a vector behind their length, and `ResultItem::GetVecData` takes the words
behind the first one. `GetDoc` prints the numbers, and `Field::GetVecData` takes the words of the text.

* `words_framed`: the words behind the length are those of the vector;
* `getVecData_vectorEntries`: what a search gives for a name, once for each time it was asked for;
* `words_vectorText`: the words of the text are never those of the vector;
* `vectors_survive_iff`: both ways, with the exact conditions.
-/

namespace AwaDB.Awa

open Lib

variable {α β : Type*}

/-- The loops of `GetVecData`: the words of four bytes from the word `start` on. -/
def words (start : ℕ) (bytes : List α) : List (List α) :=
  (List.range' start (bytes.length / 4 - start)).map fun j => (bytes.drop (4 * j)).take 4

/-- `ResultItem::GetVecData`: the words of every entry of the name, one behind the other. -/
def getVecData (name : String) (item : List Entry) : List (List MemByte) :=
  item.flatMap fun p => if p.1 = name then words 1 p.2 else []

/-- The value of a vector field in `GammaEngine::GetDoc`. -/
def vectorText (framed : Bytes) : Bytes :=
  let dimension := framed.length / 4
  91 :: (List.range' 1 (dimension - 1)).flatMap (fun j =>
    NumericType.binary32.text
        (((framed.drop (4 * j)).take 4).foldr (fun byte n => byte.toNat + 256 * n) 0) ++
      if j ≠ dimension - 1 then [44, 32] else []) ++ [93]

/-- The vector fields that `GetDoc` adds to the document: all of them, or none if `GetVector` fails. -/
def docVectors (m : VectorManager) (docid : ℕ) : List (String × Bytes) :=
  (m.names.mapM fun name => (m.framed docid name).map fun bytes => (name, vectorText bytes)).getD []

/-! ### Words -/

theorem words_map (f : α → β) (start : ℕ) (bytes : List α) :
    words start (bytes.map f) = (words start bytes).map (List.map f) := by
  rw [words, words, List.length_map, List.map_map]
  refine List.map_congr_left fun j _ => ?_
  rw [Function.comp_apply, List.map_take, List.map_drop]

theorem length_words (start : ℕ) (bytes : List α) :
    (words start bytes).length = bytes.length / 4 - start := by
  rw [words, List.length_map, List.length_range']

/-- The words behind the first one. -/
theorem words_one_append {header vec : List α} (h : header.length = 4) :
    words 1 (header ++ vec) = words 0 vec := by
  have hcount : (header ++ vec).length / 4 - 1 = vec.length / 4 - 0 := by
    rw [List.length_append, h]
    omega
  have hrange : List.range' 1 (vec.length / 4 - 0) = (List.range' 0 (vec.length / 4 - 0)).map (1 + ·) :=
    by rw [List.map_add_range']
  rw [words, words, hcount, hrange, List.map_map]
  refine List.map_congr_left fun j _ => ?_
  have hdrop : 4 * (1 + j) = header.length + 4 * j := by omega
  rw [Function.comp_apply, hdrop, List.drop_length_add_append]

/-- The first word. -/
theorem head?_words {bytes : List α} (h : 4 ≤ bytes.length) :
    (words 0 bytes).head? = some (bytes.take 4) := by
  obtain ⟨n, hn⟩ : ∃ n, bytes.length / 4 - 0 = n + 1 := ⟨bytes.length / 4 - 1, by omega⟩
  rw [words, hn, List.range'_succ]
  rfl

/-! ### The text of a vector -/

/-- The number of a word of the bytes. -/
def wordAt (bytes : Bytes) (j : ℕ) : ℕ :=
  ((bytes.drop (4 * j)).take 4).foldr (fun byte n => byte.toNat + 256 * n) 0

/-- The text of the number at a place, and the comma behind it unless it is the last one. -/
def textAt (framed : Bytes) (last j : ℕ) : Bytes :=
  NumericType.binary32.text (wordAt framed j) ++ if j ≠ last then [44, 32] else []

theorem length_textAt (framed : Bytes) (last j : ℕ) :
    3 + (if j ≠ last then 2 else 0) ≤ (textAt framed last j).length := by
  have htext := (BinaryFormat.length_text (f := NumericType.binary32) (wordAt framed j)).1
  rw [textAt, List.length_append]
  split
  · rw [List.length_cons, List.length_singleton]
    omega
  · rw [List.length_nil]
    omega

/-- Every number takes three characters, and the commas two. -/
theorem length_texts (framed : Bytes) (last count start : ℕ) (h : start + count = last + 1) :
    5 * count ≤ ((List.range' start count).flatMap (textAt framed last)).length + 2 := by
  induction count generalizing start with
  | zero => omega
  | succ count ih =>
    have hfirst := length_textAt framed last start
    have hrest := ih (start + 1) (by omega)
    rw [List.range'_succ, List.flatMap_cons, List.length_append]
    split at hfirst <;> omega

/-- A word that is not finite does not start a text: its fourth byte would be one of those. -/
theorem finite_of_text {word : ℕ} (rest : Bytes)
    (h : ((91 :: NumericType.binary32.text word ++ rest).take 4).foldr
      (fun byte n => byte.toNat + 256 * n) 0 = word) :
    NumericType.binary32.magnitude word < NumericType.binary32.infinity := by
  by_contra hnot
  have hfour : ∀ text ∈ ([[105, 110, 102], [110, 97, 110], [45, 105, 110, 102], [45, 110, 97, 110]] :
      List Bytes), 4 ≤ (91 :: text).length ∧
        NumericType.binary32.magnitude
          (((91 :: text).take 4).foldr (fun byte n => byte.toNat + 256 * n) 0) <
        NumericType.binary32.infinity := by decide
  obtain ⟨hlen, hfinite⟩ := hfour _ (BinaryFormat.text_of_not_finite hnot)
  rw [List.take_append_of_le_length hlen] at h
  rw [h] at hfinite
  exact hnot hfinite

/-- **The words of the text** are not those of the vector, unless there are none. -/
theorem words_vectorText {header vec : Bytes} {d : ℕ} (hheader : header.length = 4)
    (hlen : vec.length = 4 * d) : words 0 (vectorText (header ++ vec)) = words 0 vec ↔ d = 0 := by
  have hdim : (header ++ vec).length / 4 - 1 = d := by
    rw [List.length_append, hheader, hlen]
    omega
  have htext : vectorText (header ++ vec) =
      91 :: (List.range' 1 d).flatMap (textAt (header ++ vec) d) ++ [93] := by
    rw [← hdim]
    rfl
  constructor
  · intro heq
    by_contra hne
    obtain ⟨n, rfl⟩ := Nat.exists_eq_succ_of_ne_zero hne
    -- the first word of both
    have hlong : 4 ≤ (vectorText (header ++ vec)).length := by
      have hcount := congrArg List.length heq
      rw [length_words, length_words, hlen] at hcount
      omega
    have hhead := congrArg List.head? heq
    rw [head?_words hlong, head?_words (by omega), Option.some.injEq] at hhead
    have hword : wordAt (header ++ vec) 1 = (vec.take 4).foldr (fun byte n => byte.toNat + 256 * n) 0 := by
      rw [wordAt, ← hheader, Nat.mul_one, List.drop_left, hheader]
    -- the first number and what is behind it
    obtain ⟨rest, hsplit, hrest⟩ : ∃ rest, vectorText (header ++ vec) =
        91 :: NumericType.binary32.text (wordAt (header ++ vec) 1) ++ rest ∧
        5 * n ≤ rest.length := by
      have hlength := length_texts (header ++ vec) n.succ n 2 (by omega)
      refine ⟨(if 1 ≠ n.succ then [44, 32] else []) ++
        (List.range' 2 n).flatMap (textAt (header ++ vec) n.succ) ++ [93], ?_, ?_⟩
      · rw [htext, List.range'_succ, List.flatMap_cons, textAt]
        simp only [List.append_assoc, List.cons_append]
      · rw [List.length_append, List.length_append, List.length_singleton]
        split
        · rw [List.length_cons, List.length_singleton]
          omega
        · rw [List.length_nil]
          omega
    have hfinite : NumericType.binary32.magnitude (wordAt (header ++ vec) 1) <
        NumericType.binary32.infinity := by
      apply finite_of_text rest
      rw [← hsplit, hhead, hword]
    have height := (BinaryFormat.length_text (wordAt (header ++ vec) 1)).2 hfinite
    have hcount := congrArg List.length heq
    rw [length_words, length_words, hlen, hsplit, List.length_append, List.length_cons] at hcount
    omega
  · rintro rfl
    have hshort : (vectorText (header ++ vec)).length = 2 := by
      rw [htext, List.range'_zero, List.flatMap_nil]
      rfl
    have hnone : ∀ bytes : Bytes, bytes.length / 4 - 0 = 0 → words 0 bytes = [] := fun bytes h =>
      List.length_eq_zero_iff.mp ((length_words 0 bytes).trans h)
    rw [hnone _ (by rw [hshort]), hnone vec (by rw [hlen])]

/-! ### The entries of an item -/

section

variable {m : VectorManager} {docid : ℕ} {name : String} {vec : Bytes}

/-- A stored vector of 32-bit words, where the readers read it. -/
structure Stored (m : VectorManager) (docid : ℕ) (name : String) (vec : Bytes) : Prop where
  mem : name ∈ m.names
  dataSize : (m.raw name).dataSize = 4
  below : docid < (m.raw name).size
  vector : (m.raw name).getVector docid = some vec
  length : vec.length = (m.raw name).vectorByteSize

theorem Stored.framed (h : Stored m docid name vec) :
    m.framed docid name = some (leWord 4 vec.length ++ vec) := by
  rw [VectorManager.framed, if_neg (Nat.not_le.mpr h.below), h.vector, Option.map_some, ← h.length, List.take_length]

theorem Stored.length_eq (h : Stored m docid name vec) : vec.length = 4 * (m.raw name).dimension := by
  rw [h.length, RawVector.vectorByteSize, h.dataSize]

/-- **The words behind the length** are those of the vector. -/
theorem words_framed (vec : Bytes) : words 1 (leWord 4 vec.length ++ vec) = words 0 vec :=
  words_one_append (length_leWord 4 _)

/-- The words of the name's entries, one vector for each time that it was asked for. -/
theorem getVecData_of_mapM {names : List String} {entries : List Entry} {bytes : Bytes}
    (hframed : m.framed docid name = some bytes)
    (h : (names.mapM fun name => (m.framed docid name).map fun bytes =>
      ((name, bytes.map some) : Entry)) = some entries) :
    getVecData name entries =
      (List.replicate (names.count name) ((words 1 bytes).map (List.map some))).flatten := by
  induction names generalizing entries with
  | nil =>
    cases h
    rfl
  | cons first names ih =>
    rw [List.mapM_cons] at h
    obtain ⟨entry, hentry, htail⟩ := Option.bind_eq_some_iff.mp h
    obtain ⟨rest, hrest, hcons⟩ := Option.bind_eq_some_iff.mp htail
    obtain rfl := Option.some.inj hcons
    obtain ⟨value, hvalue, rfl⟩ := Option.map_eq_some_iff.mp hentry
    rw [getVecData, List.flatMap_cons, ← getVecData, ih hrest, List.count_cons]
    by_cases heq : first = name
    · subst heq
      obtain rfl := Option.some.inj (hvalue.symm.trans hframed)
      rw [if_pos rfl, beq_self_eq_true, if_pos rfl, List.replicate_succ, List.flatten_cons, words_map]
    · rw [if_neg heq, if_neg (by simpa using heq), List.nil_append, Nat.add_zero]

/-- **What a search gives**: nothing if one of the asked vectors is missing. -/
theorem getVecData_vectorEntries (hstored : Stored m docid name vec) (asked : List String) :
    getVecData name (vectorEntries m docid (asked.filter (· ∈ m.names))) =
      if ∀ name ∈ asked, name ∈ m.names → (m.framed docid name).isSome then
        (List.replicate (asked.count name) ((words 0 vec).map (List.map some))).flatten
      else [] := by
  have hcount : (asked.filter (· ∈ m.names)).count name = asked.count name :=
    List.count_filter (by rw [decide_eq_true_iff]; exact hstored.mem)
  have hall : (∀ name ∈ asked, name ∈ m.names → (m.framed docid name).isSome) ↔
      ((asked.filter (· ∈ m.names)).mapM fun name => (m.framed docid name).map fun bytes =>
        ((name, bytes.map some) : Entry)).isSome := by
    rw [mapM_isSome_iff]
    refine forall_congr' fun name' => ?_
    rw [List.mem_filter, decide_eq_true_iff, Option.isSome_map, and_imp]
  rw [vectorEntries]
  cases hmapM : (asked.filter (· ∈ m.names)).mapM fun name => (m.framed docid name).map fun bytes =>
      ((name, bytes.map some) : Entry) with
  | none =>
    rw [hmapM] at hall
    rw [if_neg (fun h => by cases hall.mp h)]
    rfl
  | some entries =>
    rw [hmapM] at hall
    rw [if_pos (hall.mpr rfl), Option.getD_some, getVecData_of_mapM hstored.framed hmapM, hcount,
      words_framed]

/-- Entries of other names. -/
theorem getVecData_append {entries fields : List Entry} (h : ∀ e ∈ fields, e.1 ≠ name) :
    getVecData name (entries ++ fields) = getVecData name entries := by
  have hnil : getVecData name fields = [] :=
    List.flatMap_eq_nil_iff.mpr fun e he => if_neg (h e he)
  rw [getVecData, List.flatMap_append, ← getVecData, ← getVecData, hnil, List.append_nil]

/-- A list is its repetition once, or it is empty. -/
theorem flatten_replicate_iff {l : List α} {n : ℕ} :
    (List.replicate n l).flatten = l ↔ n = 1 ∨ l = [] := by
  constructor
  · intro h
    have hlen := congrArg List.length h
    rw [List.length_flatten, List.map_replicate, List.sum_replicate, smul_eq_mul] at hlen
    by_cases hnil : l = []
    · exact .inr hnil
    · exact .inl (Nat.eq_of_mul_eq_mul_right (List.length_pos_iff.mpr hnil) (by omega))
  · rintro (rfl | rfl)
    · exact List.append_nil l
    · rw [List.flatten_replicate_nil]

/-- The words of a stored vector, one for each dimension. -/
theorem Stored.length_words (h : Stored m docid name vec) :
    (words 0 vec).length = (m.raw name).dimension := by
  rw [Awa.length_words, h.length_eq, Nat.mul_div_cancel_left _ (by decide), Nat.sub_zero]

/-- What `GetDoc` gives for a name. -/
theorem mem_docVectors (hstored : Stored m docid name vec) {value : Bytes} :
    (name, value) ∈ docVectors m docid ↔
      (∀ name ∈ m.names, (m.framed docid name).isSome) ∧
        value = vectorText (leWord 4 vec.length ++ vec) := by
  have hall : (∀ name ∈ m.names, (m.framed docid name).isSome) ↔
      (m.names.mapM fun name => (m.framed docid name).map fun bytes => (name, vectorText bytes)).isSome := by
    rw [mapM_isSome_iff]
    simp only [Option.isSome_map]
  rw [hall, docVectors]
  cases hmapM : m.names.mapM fun name => (m.framed docid name).map fun bytes =>
      (name, vectorText bytes) with
  | none => exact iff_of_false List.not_mem_nil fun h => by cases h.1
  | some entries =>
    rw [Option.getD_some, mem_of_mapM hmapM]
    constructor
    · rintro ⟨name', -, hentry⟩
      obtain ⟨bytes, hbytes, hpair⟩ := Option.map_eq_some_iff.mp hentry
      obtain ⟨rfl, rfl⟩ := Prod.mk.inj hpair
      obtain rfl := Option.some.inj (hbytes.symm.trans hstored.framed)
      exact ⟨rfl, rfl⟩
    · rintro ⟨-, rfl⟩
      exact ⟨name, hstored.mem, by rw [hstored.framed]; rfl⟩

/-- **What the readers decode.** From a search: the stored words, if all asked vectors are there and this
one was asked for once. From `GetDoc`: other words, for every vector that has some. -/
theorem vectors_survive_iff {s : Shelf} {columnNames asked : List String} {row : Row}
    {item : List Entry} (hstored : Stored m docid name vec)
    (hlast : (docid : ℤ) ≤ s.table.lastDocid) (hrow : s.table.rows[docid]? = some row)
    (hsep : s.Separate m columnNames)
    (hpack : s.packResultItem m columnNames docid asked = some item) :
    (getVecData name item = (words 0 vec).map (List.map some) ↔
      (m.raw name).dimension = 0 ∨ asked.count name = 1 ∧
        ∀ name ∈ asked, name ∈ m.names → (m.framed docid name).isSome) ∧
    ((∃ value, (name, value) ∈ docVectors m docid ∧ words 0 value = words 0 vec) ↔
      (m.raw name).dimension = 0 ∧ ∀ name ∈ m.names, (m.framed docid name).isSome) := by
  have hnil : (words 0 vec).map (List.map some) = [] ↔ (m.raw name).dimension = 0 := by
    rw [List.map_eq_nil_iff, ← List.length_eq_zero_iff, hstored.length_words]
  constructor
  · obtain ⟨fields, hfields, rfl⟩ := Option.map_eq_some_iff.mp hpack
    have hother : ∀ e ∈ fields, e.1 ≠ name := fun e he heq =>
      not_mem_of_getDocInfo hlast hrow hsep hfields he (heq ▸ hstored.mem)
    rw [getVecData_append hother, getVecData_vectorEntries hstored]
    split
    · rename_i hall
      rw [flatten_replicate_iff, hnil, or_comm, and_iff_left hall]
    · rename_i hnot
      rw [eq_comm, hnil]
      exact ⟨.inl, fun h => h.resolve_right fun h => hnot h.2⟩
  · have htext := words_vectorText (length_leWord 4 vec.length) hstored.length_eq
    constructor
    · rintro ⟨value, hmem, hwords⟩
      obtain ⟨hall, rfl⟩ := (mem_docVectors hstored).mp hmem
      exact ⟨htext.mp hwords, hall⟩
    · rintro ⟨hzero, hall⟩
      exact ⟨_, (mem_docVectors hstored).mpr ⟨hall, rfl⟩, htext.mpr hzero⟩

end

/-- The vector of one number, 1.0. -/
theorem stored_item : Stored itemVectors 0 "v" [0, 0, 128, 63] := ⟨by decide, rfl, by decide, rfl, rfl⟩

/-- A search for it. -/
theorem vectors_survive_search : ∃ item, itemShelf.packResultItem itemVectors [] 0 ["v", "n"] = some item ∧
    getVecData "v" item = [[some 0, some 0, some 128, some 63]] := by
  have hpack : itemShelf.packResultItem itemVectors [] 0 ["v", "n"] =
      some [("v", [some 4, some 0, some 0, some 0, some 0, some 0, some 128, some 63]),
        ("n", (GammaEngine.numberText (leWord 4 5)).map some)] := rfl
  refine ⟨_, hpack, ?_⟩
  exact (vectors_survive_iff stored_item (by decide) rfl separate_item hpack).1.mpr
    (.inr ⟨by decide, fun _ _ _ => rfl⟩)

/-- Its text, `[1.000000]`, is decoded to two other numbers. -/
theorem get_other_words :
    ¬ ∃ value, ("v", value) ∈ docVectors itemVectors 0 ∧ words 0 value = words 0 [0, 0, 128, 63] := by
  rintro ⟨value, hmem, hwords⟩
  obtain ⟨-, rfl⟩ := (mem_docVectors stored_item).mp hmem
  have hzero := (words_vectorText (length_leWord 4 4) (d := 1) rfl).mp hwords
  cases hzero

end AwaDB.Awa
