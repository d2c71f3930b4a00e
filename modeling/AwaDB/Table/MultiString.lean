import AwaDB.Table.Row

/-!
# Lists of strings (`MultiStrFieldColumnData`, `Response::PackResultItem`, `ResultItem::StrSplit`)

A list of strings is stored as its count, the length of each string and the strings. A reply has the
strings joined by a separator, and the receiver splits them again.

* `multiGet_multiBuffer`: what is stored is read again, unless all strings are empty;
* `multi_string_iff`: the list that is received is the one that was stored exactly when one of the
  strings is not empty.
-/

namespace AwaDB

/-- `MULTI_STRING_SPLIT`. -/
def multiStringSplit : UInt8 := 1

/-- `MultiStrFieldColumnData::Put`: the code, and the buffer that is stored, if there is one. -/
def multiPut (strs : List Bytes) : ℤ × Option Bytes :=
  if strs.length = 0 then (0, none)
  else if strs.length > 255 then (-1, none)
  else if strs.any fun str => str.length > 255 then (-2, none)
  else
    let buf := UInt8.ofNat strs.length :: strs.map (fun str => UInt8.ofNat str.length) ++ strs.flatten
    (0, some (buf.take (buf.length % 2 ^ 16)))

/-- The loop of `MultiStrFieldColumnData::Get`: the strings of the lengths, one behind the other. -/
def cutStrings : List UInt8 → Bytes → List Bytes
  | [], _ => []
  | len :: lens, bytes => bytes.take len.toNat :: cutStrings lens (bytes.drop len.toNat)

/-- `MultiStrFieldColumnData::Get`: the code, and the strings that it appends. -/
def multiGet (stored : Bytes) : ℤ × List Bytes :=
  if stored.length ≤ 2 then (-2, [])
  else
    let count := (stored.headD 0).toNat
    if stored.length ≤ count + 1 then (-3, [])
    else (0, cutStrings ((stored.drop 1).take count) (stored.drop (1 + count)))

/-- The loop over `mul_str_value` in `PackResultItem`. -/
def packStrings (strs : List Bytes) : Bytes := List.intercalate [multiStringSplit] strs

/-- `ResultItem::StrSplit`. -/
def strSplit (str : Bytes) : List Bytes := if str = [] then [] else str.splitOn multiStringSplit

/-- The list that is received. `DocidFieldsMgr::Get` and `PackResultItem` do not look at the code of
the column. -/
def received (strs : List Bytes) : List Bytes :=
  match (multiPut strs).2 with
  | none => []
  | some stored => strSplit (packStrings (multiGet stored).2)

/-- What `Put` takes. -/
structure Storable (strs : List Bytes) : Prop where
  ne_nil : strs ≠ []
  count : strs.length ≤ 255
  length : ∀ str ∈ strs, str.length ≤ 255

variable {strs : List Bytes}

/-! ### Storing and reading -/

/-- The buffer of a list. -/
def multiBuffer (strs : List Bytes) : Bytes :=
  UInt8.ofNat strs.length :: strs.map (fun str => UInt8.ofNat str.length) ++ strs.flatten

theorem length_multiBuffer (strs : List Bytes) :
    (multiBuffer strs).length = 1 + strs.length + strs.flatten.length := by
  rw [multiBuffer, List.cons_append, List.length_cons, List.length_append, List.length_map]
  omega

theorem length_flatten_le (h : ∀ str ∈ strs, str.length ≤ 255) :
    strs.flatten.length ≤ strs.length * 255 := by
  induction strs with
  | nil => exact Nat.zero_le _
  | cons str strs ih =>
    have hfirst := h str List.mem_cons_self
    have hrest := ih fun str' hstr' => h str' (List.mem_cons_of_mem str hstr')
    rw [List.flatten_cons, List.length_append, List.length_cons, Nat.add_mul]
    omega

/-- A list that `Put` takes is stored whole: its buffer has at most 65281 bytes. -/
theorem Storable.multiPut (h : Storable strs) : multiPut strs = (0, some (multiBuffer strs)) := by
  have hpos : strs.length ≠ 0 := fun hzero => h.ne_nil (List.length_eq_zero_iff.mp hzero)
  have hany : ¬ (strs.any fun str => str.length > 255) = true := by
    rw [List.any_eq_true]
    rintro ⟨str, hstr, hlong⟩
    exact absurd (h.length str hstr) (Nat.not_le.mpr (of_decide_eq_true hlong))
  have hflat := length_flatten_le h.length
  have hcount := h.count
  have hsmall : (multiBuffer strs).length < 2 ^ 16 := by
    rw [length_multiBuffer]
    have hmul : strs.length * 255 ≤ 255 * 255 := Nat.mul_le_mul_right 255 hcount
    omega
  have hwhole : (multiBuffer strs).take ((multiBuffer strs).length % 2 ^ 16) = multiBuffer strs := by
    rw [Nat.mod_eq_of_lt hsmall, List.take_length]
  unfold AwaDB.multiPut
  rw [if_neg hpos, if_neg (Nat.not_lt.mpr hcount), if_neg hany]
  exact congrArg (fun stored => ((0 : ℤ), some stored)) hwhole

theorem toNat_ofNat_length {str : Bytes} (h : str.length ≤ 255) :
    (UInt8.ofNat str.length).toNat = str.length :=
  Nat.mod_eq_of_lt (Nat.lt_succ_of_le h)

/-- The strings are cut as they were put together. -/
theorem cutStrings_flatten (h : ∀ str ∈ strs, str.length ≤ 255) :
    cutStrings (strs.map fun str => UInt8.ofNat str.length) strs.flatten = strs := by
  induction strs with
  | nil => rfl
  | cons str strs ih =>
    have hlen := toNat_ofNat_length (h str List.mem_cons_self)
    rw [List.map_cons, List.flatten_cons, cutStrings, hlen, List.take_left, List.drop_left,
      ih fun str' hstr' => h str' (List.mem_cons_of_mem str hstr')]

/-- Whether a string is not empty. -/
theorem flatten_ne_nil_iff : 0 < strs.flatten.length ↔ ∃ str ∈ strs, str ≠ [] := by
  rw [List.length_pos_iff, Ne, List.flatten_eq_nil_iff]
  push Not
  exact Iff.rfl

/-- **What is stored is read again**, unless all strings are empty: then `Get` takes the buffer for one
that is too short. -/
theorem multiGet_multiBuffer (h : Storable strs) :
    (multiGet (multiBuffer strs)).2 = if ∃ str ∈ strs, str ≠ [] then strs else [] := by
  have hlen := length_multiBuffer strs
  have hpos : 0 < strs.length := List.length_pos_iff.mpr h.ne_nil
  have hcount : ((multiBuffer strs).headD 0).toNat = strs.length :=
    Nat.mod_eq_of_lt (Nat.lt_succ_of_le h.count)
  unfold multiGet
  dsimp only
  rw [hcount]
  by_cases hsome : ∃ str ∈ strs, str ≠ []
  · have hflat := flatten_ne_nil_iff.mpr hsome
    have hlens : ((multiBuffer strs).drop 1).take strs.length =
        strs.map fun str => UInt8.ofNat str.length := by
      rw [multiBuffer, List.cons_append, List.drop_one, List.tail_cons]
      exact List.take_left' (List.length_map _)
    have hstrs : (multiBuffer strs).drop (1 + strs.length) = strs.flatten := by
      rw [multiBuffer]
      apply List.drop_left'
      rw [List.length_cons, List.length_map]
      omega
    rw [if_neg (by omega), if_neg (by omega), if_pos hsome, hlens, hstrs]
    exact cutStrings_flatten h.length
  · have hflat : ¬ 0 < strs.flatten.length := fun hflat => hsome (flatten_ne_nil_iff.mp hflat)
    rw [if_neg hsome]
    split
    · rfl
    · rw [if_pos (by omega)]

/-! ### Joining and splitting -/

/-- **Splitting undoes joining**, except for the list of one empty string. -/
theorem strSplit_packStrings (hne : strs ≠ []) (hone : strs ≠ [[]])
    (hsep : ∀ str ∈ strs, multiStringSplit ∉ str) : strSplit (packStrings strs) = strs := by
  have hsplit : (packStrings strs).splitOn multiStringSplit = strs :=
    List.splitOn_intercalate multiStringSplit hsep hne
  unfold strSplit
  rw [if_neg, hsplit]
  intro hempty
  rw [hempty] at hsplit
  exact hone hsplit.symm

/-- **A list of strings is received as it was stored** exactly when one of its strings is not empty. -/
theorem multi_string_iff (h : Storable strs) (hsep : ∀ str ∈ strs, multiStringSplit ∉ str) :
    received strs = strs ↔ ∃ str ∈ strs, str ≠ [] := by
  have hreceived : received strs = strSplit (packStrings (multiGet (multiBuffer strs)).2) := by
    unfold received
    rw [h.multiPut]
  rw [hreceived, multiGet_multiBuffer h]
  by_cases hsome : ∃ str ∈ strs, str ≠ []
  · have hone : strs ≠ [[]] := by
      rintro rfl
      obtain ⟨str, hstr, hne⟩ := hsome
      exact hne (List.mem_singleton.mp hstr)
    rw [if_pos hsome, strSplit_packStrings h.ne_nil hone hsep]
    exact iff_of_true rfl hsome
  · rw [if_neg hsome]
    exact iff_of_false (Ne.symm h.ne_nil) hsome

/-- Empty strings before, between and behind. -/
theorem multi_string_gaps : received [[], [97], [], [98, 99], []] = [[], [97], [], [98, 99], []] :=
  (multi_string_iff ⟨by decide, by decide, by decide⟩ (by decide)).mpr ⟨[97], by decide, by decide⟩

/-- Two empty strings are received as no strings. -/
theorem multi_string_empty : received [[], []] ≠ [[], []] := by decide

end AwaDB
