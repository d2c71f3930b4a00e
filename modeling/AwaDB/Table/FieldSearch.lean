import AwaDB.Table.DocidFieldsMgr

/-!
# The bisection on field ids (`table/docid_fields_mgr.cc`)

`DocidFieldsMgr::Find` looks for a field id among the ids of an entry. Its bounds are 32-bit numbers and
both belong to the part that is searched; each round reads the first id, then the last one and then the
one in the middle, and returns as soon as it knows enough.

* `findRound`: one round, and `none` when it reads behind the ids;
* `findLoop_spec`: from bounds inside the entry the loop ends, and its code is right for that part;
* `find_of_findCode`: the positions that the reads of a document use are these codes;
* `findCode_decides`: **the bisection is correct** for ids that increase.
-/

namespace AwaDB

namespace DocidFieldsMgr

/-- What a round of `DocidFieldsMgr::Find` comes to: the code that is returned, or the next bounds. -/
inductive FindStep where
  | returns (code : ℤ)
  | next (first last : ℕ)
deriving DecidableEq, Repr

/-- One round of the loop; each id is read when the code needs it. The bounds are unsigned. -/
def findRound (fid : UInt8) (ids : List UInt8) (first last : ℕ) : Option FindStep :=
  (ids[first]?).bind fun startValue =>
    if startValue = fid then some (.returns first)
    else if fid < startValue then some (.returns (-2))
    else (ids[last]?).bind fun endValue =>
      if endValue = fid then some (.returns last)
      else if endValue < fid then some (.returns (-3))
      else
        let mid : ℕ := (first + last) % 2 ^ 32 / 2
        (ids[mid]?).map fun midValue =>
          if fid = midValue then .returns mid
          else if midValue < fid then .next ((mid + 1) % 2 ^ 32) last
          else .next first ((mid + (2 ^ 32 - 1)) % 2 ^ 32)

/-- The loop: `none` when a round reads outside or when the rounds have not been enough. -/
def findLoop (fid : UInt8) (ids : List UInt8) : ℕ → ℕ → ℕ → Option ℤ
  | 0, _, _ => none
  | rounds + 1, first, last =>
    match findRound fid ids first last with
    | none => none
    | some (.returns code) => some code
    | some (.next first last) => if first < last then findLoop fid ids rounds first last else some (-4)

/-- `DocidFieldsMgr::Find`, at most `rounds` rounds of it. -/
def findCode (rounds : ℕ) (fid : UInt8) (ids : List UInt8) : Option ℤ :=
  if ids.length = 0 then some (-1) else findLoop fid ids rounds 0 (ids.length - 1)

/-! ### One round -/

variable {fid : UInt8} {ids : List UInt8}

theorem lt_of_increasing (h : ids.Pairwise (· < ·)) {i j : ℕ} {a b : UInt8} (ha : ids[i]? = some a)
    (hb : ids[j]? = some b) (hab : a < b) : i < j := by
  obtain ⟨hi, rfl⟩ := List.getElem?_eq_some_iff.mp ha
  obtain ⟨hj, rfl⟩ := List.getElem?_eq_some_iff.mp hb
  by_contra hle
  have hle' : j ≤ i := Nat.le_of_not_lt hle
  cases Nat.eq_or_lt_of_le hle' with
  | inl heq =>
    subst heq
    exact absurd hab (by simp)
  | inr hlt =>
    have := List.pairwise_iff_getElem.mp h j i hj hi hlt
    exact absurd this (by simpa using UInt8.le_of_lt hab)

theorem exists_getElem? (ids : List UInt8) {i : ℕ} (h : i < ids.length) : ∃ a, ids[i]? = some a :=
  ⟨_, List.getElem?_eq_getElem h⟩

/-- There are no more than 256 of them. -/
theorem le_value_of_increasing (h : ids.Pairwise (· < ·)) {i : ℕ} {a : UInt8}
    (ha : ids[i]? = some a) : i ≤ a.toNat := by
  induction i generalizing a with
  | zero => exact Nat.zero_le _
  | succ i ih =>
    obtain ⟨hi, rfl⟩ := List.getElem?_eq_some_iff.mp ha
    have hprev : ids[i]? = some ids[i] := List.getElem?_eq_getElem (by omega)
    have hlt : ids[i] < ids[i + 1] := List.pairwise_iff_getElem.mp h i (i + 1) _ hi (Nat.lt_succ_self i)
    have := ih hprev
    have := UInt8.lt_iff_toNat_lt.mp hlt
    omega

theorem length_le_of_increasing (h : ids.Pairwise (· < ·)) : ids.length ≤ 2 ^ 8 := by
  cases hn : ids.length with
  | zero => omega
  | succ n =>
    have hlast : ids[n]? = some (ids[n]) := List.getElem?_eq_getElem (by omega)
    have := le_value_of_increasing h hlast
    have := (ids[n]).toNat_lt
    omega

/-- The code is right for the ids from `first` to `last`. -/
def RightCode (fid : UInt8) (ids : List UInt8) (first last : ℕ) (code : ℤ) : Prop :=
  (∃ i : ℕ, code = i ∧ ids[i]? = some fid) ∨
    code < 0 ∧ ∀ i, first ≤ i → i ≤ last → ids[i]? ≠ some fid

/-- **One round** of a part inside the entry reads inside it. It returns a right code, or it leaves a
smaller part that has the id if the part had it. -/
theorem findRound_spec (h : ids.Pairwise (· < ·)) {first last : ℕ} (hle : first ≤ last)
    (hlast : last < ids.length) :
    (∃ code, findRound fid ids first last = some (.returns code) ∧
      RightCode fid ids first last code) ∨
    ∃ first' last', findRound fid ids first last = some (.next first' last') ∧
      first ≤ first' ∧ last' ≤ last ∧ last' - first' < last - first ∧
      ∀ i, first ≤ i → i ≤ last → ids[i]? = some fid →
        first' ≤ i ∧ i ≤ last' ∧ first' < last' := by
  have hsize := length_le_of_increasing h
  have hmid : (first + last) % 2 ^ 32 / 2 = (first + last) / 2 := by omega
  obtain ⟨startValue, hs⟩ := exists_getElem? ids (i := first) (by omega)
  obtain ⟨endValue, he⟩ := exists_getElem? ids hlast
  obtain ⟨midValue, hm⟩ := exists_getElem? ids (i := (first + last) / 2) (by omega)
  simp only [findRound, hs, he, hm, hmid, Option.bind_some, Option.map_some]
  by_cases hstart : startValue = fid
  · rw [if_pos hstart]
    exact .inl ⟨_, rfl, .inl ⟨first, rfl, hstart ▸ hs⟩⟩
  rw [if_neg hstart]
  by_cases hbelow : fid < startValue
  · rw [if_pos hbelow]
    refine .inl ⟨_, rfl, .inr ⟨by decide, fun i hi _ hfid => ?_⟩⟩
    have := lt_of_increasing h hfid hs hbelow
    omega
  rw [if_neg hbelow]
  have hstart' : startValue < fid :=
    UInt8.lt_of_le_of_ne (UInt8.not_lt.mp hbelow) hstart
  by_cases hend : endValue = fid
  · rw [if_pos hend]
    exact .inl ⟨_, rfl, .inl ⟨last, rfl, hend ▸ he⟩⟩
  rw [if_neg hend]
  by_cases habove : endValue < fid
  · rw [if_pos habove]
    refine .inl ⟨_, rfl, .inr ⟨by decide, fun i _ hi hfid => ?_⟩⟩
    have := lt_of_increasing h he hfid habove
    omega
  rw [if_neg habove]
  have hend' : fid < endValue :=
    UInt8.lt_of_le_of_ne (UInt8.not_lt.mp habove) (Ne.symm hend)
  have hlt : first < last := lt_of_increasing h hs he (UInt8.lt_trans hstart' hend')
  by_cases hfound : fid = midValue
  · rw [if_pos hfound]
    exact .inl ⟨_, rfl, .inl ⟨_, rfl, hfound ▸ hm⟩⟩
  rw [if_neg hfound]
  by_cases hright : midValue < fid
  · rw [if_pos hright]
    refine .inr ⟨_, _, rfl, by omega, by omega, by omega, fun i _ hi hfid => ?_⟩
    have hmore : (first + last) / 2 < i := lt_of_increasing h hm hfid hright
    have hless : i < last := lt_of_increasing h hfid he hend'
    omega
  · rw [if_neg hright]
    have hleft : fid < midValue :=
      UInt8.lt_of_le_of_ne (UInt8.not_lt.mp hright) hfound
    -- the middle is behind the first id, so that `mid - 1` does not wrap
    have hpos : first < (first + last) / 2 :=
      lt_of_increasing h hs hm (UInt8.lt_trans hstart' hleft)
    refine .inr ⟨_, _, rfl, by omega, by omega, by omega, fun i hi _ hfid => ?_⟩
    have hmore : first < i := lt_of_increasing h hs hfid hstart'
    have hless : i < (first + last) / 2 := lt_of_increasing h hfid hm hleft
    omega

/-! ### The loop -/

/-- **The loop** ends, and it reads inside the entry. -/
theorem findLoop_spec (h : ids.Pairwise (· < ·)) {rounds first last : ℕ} (hle : first ≤ last)
    (hlast : last < ids.length) (hrounds : last - first < rounds) :
    ∃ code, findLoop fid ids rounds first last = some code ∧ RightCode fid ids first last code := by
  induction rounds generalizing first last with
  | zero => omega
  | succ rounds ih =>
    rw [findLoop]
    obtain ⟨code, hround, hright⟩ | ⟨first', last', hround, hfirst, hlast', hless, hkeeps⟩ :=
      @findRound_spec fid ids h first last hle hlast
    · rw [hround]
      exact ⟨code, rfl, hright⟩
    rw [hround]
    dsimp only
    by_cases hlt : first' < last'
    · rw [if_pos hlt]
      obtain ⟨code, hcode, hright⟩ := ih hlt.le (by omega) (by omega)
      refine ⟨code, hcode, hright.imp_right fun hn => ⟨hn.1, fun i hi hi' hfid => ?_⟩⟩
      obtain ⟨h₁, h₂, -⟩ := hkeeps i hi hi' hfid
      exact hn.2 i h₁ h₂ hfid
    -- the round has looked at both ends of what would be left
    · rw [if_neg hlt]
      refine ⟨-4, rfl, .inr ⟨by decide, fun i hi hi' hfid => ?_⟩⟩
      exact hlt (hkeeps i hi hi' hfid).2.2

/-- As many rounds as there are ids are enough. -/
theorem findCode_spec (fid : UInt8) (h : ids.Pairwise (· < ·)) {rounds : ℕ}
    (hrounds : ids.length ≤ rounds) :
    ∃ code, findCode rounds fid ids = some code ∧ RightCode fid ids 0 (ids.length - 1) code := by
  unfold findCode
  by_cases hnil : ids.length = 0
  · rw [if_pos hnil]
    refine ⟨-1, rfl, .inr ⟨by decide, fun i _ _ => ?_⟩⟩
    rw [List.getElem?_eq_none (by omega)]
    exact fun h => nomatch h
  · rw [if_neg hnil]
    exact findLoop_spec h (Nat.zero_le _) (by omega) (by omega)

/-- **The bisection is correct.** It ends after at most as many rounds as there are ids, without a read
outside of them, with the position of the id when it is there, and with a negative code otherwise. -/
theorem findCode_decides (fid : UInt8) (ids : List UInt8) (h : ids.Pairwise (· < ·)) (rounds : ℕ)
    (hrounds : ids.length ≤ rounds) :
    (∀ i : ℕ, ids[i]? = some fid → findCode rounds fid ids = some (i : ℤ)) ∧
      (fid ∉ ids → ∃ code < 0, findCode rounds fid ids = some code) := by
  obtain ⟨code, hcode, hright⟩ := findCode_spec fid h hrounds
  refine ⟨fun i hi => ?_, fun habsent => ?_⟩
  · have hlt := (List.getElem?_eq_some_iff.mp hi).1
    obtain ⟨j, rfl, hj⟩ | ⟨-, hnone⟩ := hright
    · suffices hij : i = j by rw [hcode, hij]
      have hnodup : ids.Nodup := h.imp fun hab => UInt8.ne_of_lt hab
      exact (List.getElem?_inj hlt hnodup).mp (hi.trans hj.symm)
    · exact absurd hi (hnone i (Nat.zero_le i) (by omega))
  · obtain ⟨j, -, hj⟩ | ⟨hneg, -⟩ := hright
    · exact absurd (List.mem_of_getElem? hj) habsent
    · exact ⟨code, hneg, hcode⟩

/-- Three ids, the last of them asked for, and one that is not there. -/
theorem findCode_decides_three :
    findCode 3 9 [2, 5, 9] = some ((2 : ℕ) : ℤ) ∧ ∃ code < 0, findCode 3 6 [2, 5, 9] = some code :=
  ⟨(findCode_decides 9 [2, 5, 9] (by decide) 3 (by decide)).1 2 rfl,
    (findCode_decides 6 [2, 5, 9] (by decide) 3 (by decide)).2 (by decide)⟩

/-! ### The positions that a read of a document uses -/

/-- The position that a code stands for. -/
def position (code : ℤ) : Option ℕ := if 0 ≤ code then some code.toNat else none

@[simp] theorem position_natCast (i : ℕ) : position i = some i := by simp [position]

theorem findFrom_eq_findLoop (hsize : ids.length < 2 ^ 31) (rounds : ℕ) {first last : ℕ}
    (hle : first ≤ last) (hlast : last < ids.length) :
    findFrom fid.toNat (ids.map UInt8.toNat) rounds first last =
      (findLoop fid ids rounds first last).bind position := by
  induction rounds generalizing first last with
  | zero => rfl
  | succ rounds ih =>
    have hmid : (first + last) % 2 ^ 32 / 2 = (first + last) / 2 := by omega
    obtain ⟨startValue, hs⟩ := exists_getElem? ids (i := first) (by omega)
    obtain ⟨endValue, he⟩ := exists_getElem? ids hlast
    obtain ⟨midValue, hm⟩ := exists_getElem? ids (i := (first + last) / 2) (by omega)
    rw [findFrom, findLoop, findRound]
    simp only [List.getElem?_map, hs, he, hm, hmid, Option.bind_some, Option.map_some,
      UInt8.toNat_inj, ← UInt8.lt_iff_toNat_lt]
    by_cases hstart : startValue = fid
    · simp [hstart]
    rw [if_neg hstart, if_neg hstart]
    by_cases hbelow : fid < startValue
    · simp [hbelow, position]
    rw [if_neg hbelow, if_neg hbelow]
    by_cases hend : endValue = fid
    · simp [hend]
    rw [if_neg hend, if_neg hend]
    by_cases habove : endValue < fid
    · simp [habove, position]
    rw [if_neg habove, if_neg habove]
    by_cases hfound : midValue = fid
    · rw [if_pos hfound, if_pos hfound.symm]
      exact (position_natCast _).symm
    rw [if_neg hfound, if_neg (Ne.symm hfound)]
    by_cases hright : midValue < fid
    · have hnext : ((first + last) / 2 + 1) % 2 ^ 32 = (first + last) / 2 + 1 := by omega
      simp only [if_pos hright, hnext]
      by_cases hlt : (first + last) / 2 + 1 < last
      · rw [if_pos hlt, if_pos hlt]
        exact ih hlt.le hlast
      · rw [if_neg hlt, if_neg hlt]
        rfl
    · -- the first id is less than `fid`, so the middle is not the first
      have hpos : (first + last) / 2 ≠ first := by
        intro heq
        rw [heq, hs] at hm
        cases hm
        exact hbelow (UInt8.lt_of_le_of_ne (UInt8.not_lt.mp hright) (Ne.symm hfound))
      have hnext : ((first + last) / 2 + (2 ^ 32 - 1)) % 2 ^ 32 = (first + last) / 2 - 1 := by omega
      simp only [if_neg hright, hnext]
      by_cases hlt : first < (first + last) / 2 - 1
      · rw [if_pos hlt, if_pos hlt]
        exact ih hlt.le (by omega)
      · rw [if_neg hlt, if_neg hlt]
        rfl

/-- `find`, on which the reads of documents rest, is the position that `Find` returns. -/
theorem find_eq_findCode (hsize : ids.length < 2 ^ 31) :
    find fid.toNat (ids.map UInt8.toNat) = (findCode ids.length fid ids).bind position := by
  unfold find findCode
  rw [List.length_map]
  by_cases hnil : ids.length = 0
  · rw [if_pos hnil, hnil]
    rfl
  · rw [if_neg hnil]
    exact findFrom_eq_findLoop hsize ids.length (Nat.zero_le _) (by omega)

end DocidFieldsMgr

end AwaDB
