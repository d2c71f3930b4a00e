import AwaDB.Api.Request
import AwaDB.Client.Awa
import Mathlib.Algebra.Order.Ring.Int

/-!
# Filters of the Python library (`library.py`)

The keys of a filter dictionary say which side of a field they bound: `max_price` and `maxe_price` from
above, `min_price` and `mine_price` from below, `price` from both. `__add_filter` makes one range filter
for a field when it meets the first entry of the field, sets the sides of that entry, and passes over
the entries of the field that follow. The bytes are those of the type of the value.

* `splitKey`: the field and the side of a key;
* `Kept`: each side of a filter comes from an entry for that side, in the type of the field;
* `addEntries_spec`: each filter is made by the first entry of its field;
* `kept_iff`: **both bounds are kept** exactly when the first entry of each field settles it.
-/

namespace AwaDB

open Lib

namespace AwaLocal

open Awa

/-! ### The loop -/

/-- What a key says about its field, and whether the bound is included. -/
inductive Bound where
  | exact
  | upper (included : Bool)
  | lower (included : Bool)
deriving DecidableEq, Repr

/-- The key begins with `start`. -/
def hasStart (start key : String) : Bool := start.toList.isPrefixOf key.toList

/-- `key[n:]`. -/
def behind (n : ℕ) (key : String) : String := String.ofList (key.toList.drop n)

/-- The chain of `startswith`. -/
def splitKey (key : String) : String × Bound :=
  if hasStart "max_" key then (behind 4 key, .upper false)
  else if hasStart "min_" key then (behind 4 key, .lower false)
  else if hasStart "maxe_" key then (behind 5 key, .upper true)
  else if hasStart "mine_" key then (behind 5 key, .lower true)
  else (key, .exact)

/-- `bytes_value`, by the type of the value; `none` is an `OverflowError`. -/
def bytesValue : Value → Option Bytes
  | .int n => toBytes n 4
  | .float word => word
  | _ => none

/-- The filter that an entry makes for its field. -/
def newRange (name : String) (bytes : Bytes) : Bound → Api.RangeFilter
  | .exact => ⟨utf8 name, bytes, bytes, true, true⟩
  | .upper included => ⟨utf8 name, [], bytes, false, included⟩
  | .lower included => ⟨utf8 name, bytes, [], included, false⟩

/-- `range_filters` and `term_filters`. -/
structure Filters where
  ranges : List (String × Api.RangeFilter)
  terms : List (String × Api.TermFilter)
deriving DecidableEq, Repr

/-- `term_filters[name]`, made when it is not there, with its value. -/
def setTerm (terms : List (String × Api.TermFilter)) (name : String) (value : Bytes) :
    List (String × Api.TermFilter) :=
  if name ∈ terms.map Prod.fst then
    terms.map fun p => if p.1 = name then (name, { p.2 with value := value, isUnion := 1 }) else p
  else terms ++ [(name, ⟨utf8 name, value, 1⟩)]

/-- One entry of the dictionary, for a table with these types. -/
def addEntry (types : String → Option DataType) (s : Filters) (entry : String × Value) :
    Option Filters :=
  let name := (splitKey entry.1).1
  match types name with
  | none => some s
  | some _ =>
    match entry.2 with
    | .str text => text.map fun text => { s with terms := setTerm s.terms name (utf8 text) }
    | v =>
      if typeof v = some .int ∨ typeof v = some .float then
        if name ∈ s.ranges.map Prod.fst then some s
        else (bytesValue v).map fun bytes =>
          { s with ranges := s.ranges ++ [(name, newRange name bytes (splitKey entry.1).2)] }
      else some s

/-- `__add_filter`: the filters that are added to the request. -/
def addFilter (types : String → Option DataType) (filters : List (String × Value)) :
    Option (List Api.RangeFilter × List Api.TermFilter) :=
  (filters.foldlM (addEntry types) ⟨[], []⟩).map fun s =>
    (s.ranges.map Prod.snd, s.terms.map Prod.snd)

/-! ### What the filters are for -/

/-- The types of numbers. -/
def IsNumber (type : DataType) : Prop := type = .int ∨ type = .long ∨ type = .float

instance (type : DataType) : Decidable (IsNumber type) := inferInstanceAs (Decidable (_ ∨ _))

/-- The bytes of a value in the type of a field; `floatWord` has the `float32` of an integer. -/
def encodeAs (floatWord : ℤ → Option Bytes) (type : DataType) (v : Value) : Option Bytes :=
  match type, v with
  | .int, .int n =>
    if -2 ^ 31 ≤ n ∧ n < 2 ^ 31 then some (leWord 4 (n % 2 ^ 32).toNat) else none
  | .long, .int n =>
    if -2 ^ 63 ≤ n ∧ n < 2 ^ 63 then some (leWord 8 (n % 2 ^ 64).toNat) else none
  | .float, .float word => word
  | .float, .int n => floatWord n
  | _, _ => none

/-- The entries that say something of this kind about a field. -/
def given (side : Bound → Option Bool) (filters : List (String × Value)) (name : String) :
    List (Bool × Value) :=
  filters.filterMap fun p =>
    if (splitKey p.1).1 = name then (side (splitKey p.1).2).map fun included => (included, p.2)
    else none

/-- The sides of an entry. -/
def upperSide : Bound → Option Bool
  | .upper included => some included
  | _ => none

def lowerSide : Bound → Option Bool
  | .lower included => some included
  | _ => none

def exactSide : Bound → Option Bool
  | .exact => some true
  | _ => none

/-- The entries for a side: those that name it, and without them the plain one. -/
def sources (side : Bound → Option Bool) (filters : List (String × Value)) (name : String) :
    List (Bool × Value) :=
  if given side filters name = [] then given exactSide filters name else given side filters name

section Kept

variable (floatWord : ℤ → Option Bytes) (types : String → Option DataType)
  (filters : List (String × Value))

/-- The bound of a filter comes from one of the entries for it, and there is none without an entry. -/
def RightBound (type : DataType) (entries : List (Bool × Value)) (value : Bytes) (included : Bool) :
    Prop :=
  if entries = [] then value = [] ∧ included = false
  else ∃ p ∈ entries, encodeAs floatWord type p.2 = some value ∧ included = p.1

/-- The range filter of a field. -/
structure RightRange (name : String) (r : Api.RangeFilter) : Prop where
  field : r.field = utf8 name
  upper : ∀ type, types name = some type →
    RightBound floatWord type (sources upperSide filters name) r.upperValue r.includeUpper
  lower : ∀ type, types name = some type →
    RightBound floatWord type (sources lowerSide filters name) r.lowerValue r.includeLower

/-- The term filter of a field. -/
def RightTerm (name : String) (t : Api.TermFilter) : Prop :=
  t.field = utf8 name ∧
    ∃ key s, (key, .str (some s)) ∈ filters ∧ (splitKey key).1 = name ∧ t.value = utf8 s

/-- The fields of this kind that the dictionary has entries for, each once. -/
def Names (kind : DataType → Prop) (names : List String) : Prop :=
  names.Nodup ∧ ∀ name, name ∈ names ↔
    (∃ type, types name = some type ∧ kind type) ∧ ∃ p ∈ filters, (splitKey p.1).1 = name

/-- **Both bounds are kept**: one range filter for each numeric field and one term filter for each
string field, and each of them right. -/
def Kept : Option (List Api.RangeFilter × List Api.TermFilter) → Prop
  | none => False
  | some (ranges, terms) =>
    (∃ names, Names types filters IsNumber names ∧
      List.Forall₂ (RightRange floatWord types filters) names ranges) ∧
    ∃ names, Names types filters (· = .string) names ∧
      List.Forall₂ (RightTerm filters) names terms

/-- The dictionaries that the claim is about: each key once, numbers for numeric fields and strings
for string fields. -/
structure WellFormed : Prop where
  once : (filters.map Prod.fst).Nodup
  fits : ∀ p ∈ filters, ∃ type, types (splitKey p.1).1 = some type ∧
    ((IsNumber type ∧ ∃ bytes ≠ [], encodeAs floatWord type p.2 = some bytes) ∨
      type = .string ∧ (splitKey p.1).2 = .exact ∧ ∃ s, p.2 = .str (some s))

end Kept

/-! ### Keys -/

/-- The key of a field and a side. -/
def joinKey : String × Bound → List Char
  | (name, .exact) => name.toList
  | (name, .upper false) => "max_".toList ++ name.toList
  | (name, .lower false) => "min_".toList ++ name.toList
  | (name, .upper true) => "maxe_".toList ++ name.toList
  | (name, .lower true) => "mine_".toList ++ name.toList

theorem toList_of_hasStart {start key : String} (h : hasStart start key = true) {n : ℕ}
    (hn : start.toList.length = n) : start.toList ++ (behind n key).toList = key.toList := by
  obtain ⟨rest, hrest⟩ := List.isPrefixOf_iff_prefix.mp h
  rw [behind, String.toList_ofList, ← hrest, ← hn, List.drop_left]

theorem joinKey_splitKey (key : String) : joinKey (splitKey key) = key.toList := by
  unfold splitKey
  by_cases hmax : hasStart "max_" key = true
  · rw [if_pos hmax]
    exact toList_of_hasStart hmax rfl
  rw [if_neg hmax]
  by_cases hmin : hasStart "min_" key = true
  · rw [if_pos hmin]
    exact toList_of_hasStart hmin rfl
  rw [if_neg hmin]
  by_cases hmaxe : hasStart "maxe_" key = true
  · rw [if_pos hmaxe]
    exact toList_of_hasStart hmaxe rfl
  rw [if_neg hmaxe]
  by_cases hmine : hasStart "mine_" key = true
  · rw [if_pos hmine]
    exact toList_of_hasStart hmine rfl
  rw [if_neg hmine]
  rfl

/-- A key is known by its field and its side. -/
theorem splitKey_inj {key key' : String} (h : splitKey key = splitKey key') : key = key' := by
  apply String.toList_inj.mp
  rw [← joinKey_splitKey, ← joinKey_splitKey, h]

theorem utf8_inj {s t : String} (h : utf8 s = utf8 t) : s = t := by
  apply String.toByteArray_inj.mp
  apply ByteArray.ext
  exact Array.toList_inj.mp h

/-! ### What the loop has made -/

/-- The first entry of a field. -/
def firstOf (filters : List (String × Value)) (name : String) : Option (String × Value) :=
  filters.find? fun p => (splitKey p.1).1 = name

/-- After the entries `done`. -/
structure Made (types : String → Option DataType) (done : List (String × Value)) (s : Filters) :
    Prop where
  ranges : Names types done IsNumber (s.ranges.map Prod.fst)
  first : ∀ p ∈ s.ranges, ∃ c bytes, firstOf done p.1 = some c ∧ bytesValue c.2 = some bytes ∧
    p.2 = newRange p.1 bytes (splitKey c.1).2
  terms : Names types done (· = .string) (s.terms.map Prod.fst)
  value : ∀ p ∈ s.terms, RightTerm done p.1 p.2

section Made

variable {floatWord : ℤ → Option Bytes} {types : String → Option DataType}
  {done : List (String × Value)} {names : List String} {kind : DataType → Prop}

theorem Names.pass (h : Names types done kind names) {p : String × Value}
    (hp : ∀ type, types (splitKey p.1).1 = some type → kind type → (splitKey p.1).1 ∈ names) :
    Names types (done ++ [p]) kind names := by
  refine ⟨h.1, fun name => ?_⟩
  rw [h.2 name]
  constructor
  · rintro ⟨htype, q, hq, hname⟩
    exact ⟨htype, q, List.mem_append_left _ hq, hname⟩
  · rintro ⟨⟨type, htype, hkind⟩, q, hq, rfl⟩
    cases List.mem_append.mp hq with
    | inl hq => exact ⟨⟨type, htype, hkind⟩, q, hq, rfl⟩
    | inr hq =>
      rw [List.mem_singleton.mp hq] at htype ⊢
      exact (h.2 _).mp (hp type htype hkind)

theorem Names.grow (h : Names types done kind names) {p : String × Value} {type : DataType}
    (htype : types (splitKey p.1).1 = some type) (hkind : kind type)
    (hnew : (splitKey p.1).1 ∉ names) :
    Names types (done ++ [p]) kind (names ++ [(splitKey p.1).1]) := by
  refine ⟨List.nodup_append.mpr ⟨h.1, List.nodup_singleton _, ?_⟩, fun name => ?_⟩
  · intro a ha b hb
    rw [List.mem_singleton.mp hb]
    exact fun heq => hnew (heq ▸ ha)
  · rw [List.mem_append, List.mem_singleton, h.2 name]
    constructor
    · rintro (⟨htype', q, hq, hname⟩ | rfl)
      · exact ⟨htype', q, List.mem_append_left _ hq, hname⟩
      · exact ⟨⟨type, htype, hkind⟩, p, List.mem_append_right _ List.mem_cons_self, rfl⟩
    · rintro ⟨htype', q, hq, hname⟩
      cases List.mem_append.mp hq with
      | inl hq => exact .inl ⟨htype', q, hq, hname⟩
      | inr hq =>
        rw [List.mem_singleton.mp hq] at hname
        exact .inr hname.symm

theorem RightTerm.append {name : String} {t : Api.TermFilter} (h : RightTerm done name t)
    (p : String × Value) : RightTerm (done ++ [p]) name t := by
  obtain ⟨hfield, key, text, hmem, hname, hvalue⟩ := h
  exact ⟨hfield, key, text, List.mem_append_left _ hmem, hname, hvalue⟩

/-- A number, for the code. -/
theorem isNumber_of_encodeAs {type : DataType} {v : Value} {bytes : Bytes} (htype : IsNumber type)
    (h : encodeAs floatWord type v = some bytes) : typeof v = some .int ∨ typeof v = some .float := by
  obtain rfl | rfl | rfl := htype <;> cases v <;> first | exact .inl rfl | exact .inr rfl | cases h

/-- **The step for a number**: a filter is made for a field that has none yet. -/
theorem addEntry_number {s : Filters} {p : String × Value} {type : DataType}
    (htype : types (splitKey p.1).1 = some type) (hnumber : IsNumber type) {bytes : Bytes}
    (h : encodeAs floatWord type p.2 = some bytes) :
    addEntry types s p = if (splitKey p.1).1 ∈ s.ranges.map Prod.fst then some s
      else (bytesValue p.2).map fun bytes =>
        { s with ranges := s.ranges ++
            [((splitKey p.1).1, newRange (splitKey p.1).1 bytes (splitKey p.1).2)] } := by
  have hv := isNumber_of_encodeAs hnumber h
  unfold addEntry
  dsimp only
  rw [htype]
  obtain ⟨key, v⟩ := p
  cases v with
  | str text => simp [typeof] at hv
  | _ => exact if_pos hv

theorem addEntry_string {s : Filters} {p : String × Value}
    (htype : types (splitKey p.1).1 = some .string) {text : String} (h : p.2 = .str (some text)) :
    addEntry types s p =
      some { s with terms := setTerm s.terms (splitKey p.1).1 (utf8 text) } := by
  obtain ⟨key, v⟩ := p
  cases h
  unfold addEntry
  dsimp only at htype ⊢
  rw [htype]
  rfl

theorem map_fst_setTerm (terms : List (String × Api.TermFilter)) (name : String) (value : Bytes) :
    (setTerm terms name value).map Prod.fst =
      if name ∈ terms.map Prod.fst then terms.map Prod.fst else terms.map Prod.fst ++ [name] := by
  unfold setTerm
  by_cases hmem : name ∈ terms.map Prod.fst
  · rw [if_pos hmem, if_pos hmem, List.map_map]
    apply List.map_congr_left
    intro p _
    by_cases hp : p.1 = name
    · simp [hp]
    · simp [hp]
  · rw [if_neg hmem, if_neg hmem, List.map_append]
    rfl

/-- The term filters afterwards: those of other fields, and one with the value. -/
theorem mem_setTerm {terms : List (String × Api.TermFilter)} {name : String} {value : Bytes}
    {q : String × Api.TermFilter} (h : q ∈ setTerm terms name value)
    (hfield : ∀ p ∈ terms, p.2.field = utf8 p.1) :
    q ∈ terms ∨ q.1 = name ∧ q.2.field = utf8 name ∧ q.2.value = value := by
  unfold setTerm at h
  split at h
  · obtain ⟨p, hp, rfl⟩ := List.mem_map.mp h
    by_cases heq : p.1 = name
    · rw [if_pos heq]
      exact .inr ⟨rfl, heq ▸ hfield p hp, rfl⟩
    · rw [if_neg heq]
      exact .inl hp
  · cases List.mem_append.mp h with
    | inl hq => exact .inl hq
    | inr hq =>
      rw [List.mem_singleton.mp hq]
      exact .inr ⟨rfl, rfl, rfl⟩

theorem firstOf_append {p : String × Value} {name : String} :
    firstOf (done ++ [p]) name =
      (firstOf done name).or (if (splitKey p.1).1 = name then some p else none) := by
  unfold firstOf
  rw [List.find?_append]
  by_cases hname : (splitKey p.1).1 = name
  · simp [hname]
  · simp [hname]

theorem firstOf_eq_none (name : String) (h : ∀ p ∈ done, (splitKey p.1).1 ≠ name) :
    firstOf done name = none := by
  apply List.find?_eq_none.mpr
  intro p hp
  simpa using h p hp

theorem Made.nil : Made types [] ⟨[], []⟩ where
  ranges := ⟨List.nodup_nil, fun _ => by simp⟩
  first := fun _ h => nomatch h
  terms := ⟨List.nodup_nil, fun _ => by simp⟩
  value := fun _ h => nomatch h

/-- **One entry**: it is passed over, or it makes a filter, or it is the first of its field and has no
bytes. -/
theorem Made.step {s : Filters} (h : Made types done s) {p : String × Value} {type : DataType}
    (htype : types (splitKey p.1).1 = some type)
    (hfits : (IsNumber type ∧ ∃ bytes ≠ [], encodeAs floatWord type p.2 = some bytes) ∨
      type = .string ∧ (splitKey p.1).2 = .exact ∧ ∃ s, p.2 = .str (some s)) :
    (∃ s', addEntry types s p = some s' ∧ Made types (done ++ [p]) s') ∨
      addEntry types s p = none ∧ IsNumber type ∧
        firstOf (done ++ [p]) (splitKey p.1).1 = some p ∧ bytesValue p.2 = none := by
  have hkeep : ∀ q ∈ s.ranges, ∃ c bytes, firstOf (done ++ [p]) q.1 = some c ∧
      bytesValue c.2 = some bytes ∧ q.2 = newRange q.1 bytes (splitKey c.1).2 := by
    intro q hq
    obtain ⟨c, bytes, hc, hbytes, hval⟩ := h.first q hq
    refine ⟨c, bytes, ?_, hbytes, hval⟩
    rw [firstOf_append, hc, Option.some_or]
  obtain ⟨hnumber, bytes, -, hbytes⟩ | ⟨rfl, hexact, text, htext⟩ := hfits
  · rw [addEntry_number htype hnumber hbytes]
    have hnot : ∀ type', types (splitKey p.1).1 = some type' → type' ≠ .string := by
      rintro _ h' rfl
      rw [htype] at h'
      cases h'
      exact absurd hnumber (by decide)
    by_cases hmem : (splitKey p.1).1 ∈ s.ranges.map Prod.fst
    · rw [if_pos hmem]
      exact .inl ⟨s, rfl, h.ranges.pass fun _ _ _ => hmem, hkeep,
        h.terms.pass fun _ h' hstr => absurd hstr (hnot _ h'), fun q hq => (h.value q hq).append p⟩
    rw [if_neg hmem]
    have hfirst : firstOf (done ++ [p]) (splitKey p.1).1 = some p := by
      rw [firstOf_append, firstOf_eq_none, if_pos rfl, Option.none_or]
      intro q hq heq
      exact hmem ((h.ranges.2 _).mpr ⟨⟨type, htype, hnumber⟩, q, hq, heq⟩)
    cases hvalue : bytesValue p.2 with
    | none => exact .inr ⟨rfl, hnumber, hfirst, rfl⟩
    | some value =>
      refine .inl ⟨_, rfl, ?_, ?_, h.terms.pass fun _ h' hstr => absurd hstr (hnot _ h'),
        fun q hq => (h.value q hq).append p⟩
      · rw [List.map_append]
        exact h.ranges.grow htype hnumber hmem
      · intro q hq
        cases List.mem_append.mp hq with
        | inl hq => exact hkeep q hq
        | inr hq =>
          rw [List.mem_singleton.mp hq]
          exact ⟨p, value, hfirst, hvalue, rfl⟩
  · refine .inl ⟨_, addEntry_string htype htext, ?_, hkeep, ?_, ?_⟩
    · refine h.ranges.pass fun type' h' hnumber => ?_
      rw [htype] at h'
      cases h'
      exact absurd hnumber (by decide)
    · rw [map_fst_setTerm]
      by_cases hmem : (splitKey p.1).1 ∈ s.terms.map Prod.fst
      · rw [if_pos hmem]
        exact h.terms.pass fun _ _ _ => hmem
      · rw [if_neg hmem]
        exact h.terms.grow htype rfl hmem
    · intro q hq
      obtain hq | ⟨hname, hfield, hvalue⟩ := mem_setTerm hq fun t ht => (h.value t ht).1
      · exact (h.value q hq).append p
      · refine ⟨hname ▸ hfield, p.1, text, List.mem_append_right _ ?_, hname.symm, hvalue⟩
        rw [List.mem_singleton, ← htext]

/-- **The loop** makes the filters, or stops at the first entry of a numeric field. -/
theorem addEntries_spec {rest : List (String × Value)} {s : Filters} (h : Made types done s)
    (hfits : ∀ p ∈ rest, ∃ type, types (splitKey p.1).1 = some type ∧
      ((IsNumber type ∧ ∃ bytes ≠ [], encodeAs floatWord type p.2 = some bytes) ∨
        type = .string ∧ (splitKey p.1).2 = .exact ∧ ∃ s, p.2 = .str (some s))) :
    (∃ s', rest.foldlM (addEntry types) s = some s' ∧ Made types (done ++ rest) s') ∨
      rest.foldlM (addEntry types) s = none ∧ ∃ name type c, types name = some type ∧
        IsNumber type ∧ firstOf (done ++ rest) name = some c ∧ bytesValue c.2 = none := by
  induction rest generalizing done s with
  | nil =>
    refine .inl ⟨s, rfl, ?_⟩
    rwa [List.append_nil]
  | cons p rest ih =>
    obtain ⟨type, htype, hfit⟩ := hfits p List.mem_cons_self
    have hassoc : done ++ p :: rest = done ++ [p] ++ rest := by simp
    rw [List.foldlM_cons]
    obtain ⟨s', hstep, hmade⟩ | ⟨hstep, hnumber, hfirst, hvalue⟩ := h.step htype hfit
    · rw [hstep, hassoc]
      exact ih hmade fun q hq => hfits q (List.mem_cons_of_mem p hq)
    · rw [hstep]
      refine .inr ⟨rfl, _, type, p, htype, hnumber, ?_, hvalue⟩
      rw [hassoc, firstOf, List.find?_append, ← firstOf, hfirst, Option.some_or]

end Made

/-! ### When the filters are right -/

section Right

variable {floatWord : ℤ → Option Bytes} {types : String → Option DataType}
  {filters : List (String × Value)} {name : String} {type : DataType} {c : String × Value}

theorem mem_given {side : Bound → Option Bool} {q : Bool × Value} :
    q ∈ given side filters name ↔
      ∃ p ∈ filters, (splitKey p.1).1 = name ∧ side (splitKey p.1).2 = some q.1 ∧ p.2 = q.2 := by
  unfold given
  rw [List.mem_filterMap]
  constructor
  · rintro ⟨p, hp, hq⟩
    split at hq
    · rename_i hname
      obtain ⟨included, hside, rfl⟩ := Option.map_eq_some_iff.mp hq
      exact ⟨p, hp, hname, hside, rfl⟩
    · cases hq
  · rintro ⟨p, hp, hname, hside, hvalue⟩
    refine ⟨p, hp, ?_⟩
    rw [if_pos hname, hside, hvalue]
    rfl

/-- A side that only one kind of key names is given by one entry. -/
theorem eq_of_mem_given (honce : (filters.map Prod.fst).Nodup) (hc : c ∈ filters)
    (hname : (splitKey c.1).1 = name) {side : Bound → Option Bool} {included : Bool} {v : Value}
    (hside : ∀ b, side b = some included → b = (splitKey c.1).2)
    (hv : (included, v) ∈ given side filters name) : v = c.2 := by
  obtain ⟨p, hp, hpname, hpside, rfl⟩ := mem_given.mp hv
  have hkey : splitKey p.1 = splitKey c.1 := Prod.ext (hpname.trans hname.symm) (hside _ hpside)
  rw [List.inj_on_of_nodup_map honce hp hc (splitKey_inj hkey)]

/-- The bytes that the code makes are those of the field's type. -/
def Direct (floatWord : ℤ → Option Bytes) (type : DataType) (v : Value) : Prop :=
  match type, v with
  | .int, .int n => 0 ≤ n
  | .float, .float _ => True
  | .float, .int n => toBytes n 4 = floatWord n
  | _, _ => False

theorem direct_iff (htype : IsNumber type) {v : Value} {bytes : Bytes}
    (h : encodeAs floatWord type v = some bytes) :
    encodeAs floatWord type v = bytesValue v ↔ Direct floatWord type v := by
  obtain rfl | rfl | rfl := htype
  · cases v with
    | int n =>
      simp only [encodeAs, Option.ite_none_right_eq_some] at h
      simp only [encodeAs, bytesValue, toBytes, Direct, if_pos h.1]
      by_cases hn : 0 ≤ n
      · have hcast : ((256 ^ 4 : ℕ) : ℤ) = 2 ^ 32 := rfl
        have hlt : n < ((256 ^ 4 : ℕ) : ℤ) := by omega
        have hmod : n % 2 ^ 32 = n := by omega
        rw [if_pos ⟨hn, hlt⟩, hmod]
        exact iff_of_true rfl hn
      · simp [hn]
    | _ => cases h
  · cases v with
    | int n =>
      simp only [encodeAs, Option.ite_none_right_eq_some] at h
      simp only [encodeAs, bytesValue, toBytes, Direct, if_pos h.1, iff_false]
      intro heq
      split at heq
      · have hlen := congrArg List.length (Option.some.inj heq)
        simp at hlen
      · cases heq
    | _ => cases h
  · cases v with
    | int n => exact eq_comm
    | float word => exact iff_of_true rfl trivial
    | _ => cases h

/-- A side besides a plain entry says the same, or there is none. -/
def Twin (floatWord : ℤ → Option Bytes) (filters : List (String × Value)) (name : String)
    (type : DataType) (v : Value) (side : Bound → Option Bool) : Prop :=
  given side filters name = [] ∨
    ∃ w, (true, w) ∈ given side filters name ∧ encodeAs floatWord type w = bytesValue v

/-- The entry `c` says all that the entries of its field say. -/
def Settles (floatWord : ℤ → Option Bytes) (filters : List (String × Value)) (name : String)
    (type : DataType) (c : String × Value) : Prop :=
  match (splitKey c.1).2 with
  | .upper _ => Direct floatWord type c.2 ∧ given lowerSide filters name = [] ∧
      given exactSide filters name = []
  | .lower _ => Direct floatWord type c.2 ∧ given upperSide filters name = [] ∧
      given exactSide filters name = []
  | .exact => Twin floatWord filters name type c.2 upperSide ∧
      Twin floatWord filters name type c.2 lowerSide ∧
      (given upperSide filters name = [] ∨ given lowerSide filters name = [] →
        Direct floatWord type c.2)

/-- The value of an entry of a numeric field has bytes in the type of the field. -/
theorem WellFormed.encoded (hwf : WellFormed floatWord types filters)
    (htype : types name = some type) (hnumber : IsNumber type) {p : String × Value}
    (hp : p ∈ filters) (hname : (splitKey p.1).1 = name) :
    ∃ bytes ≠ [], encodeAs floatWord type p.2 = some bytes := by
  obtain ⟨type', htype', ⟨-, hbytes⟩ | ⟨rfl, -⟩⟩ := hwf.fits p hp
  · rw [hname, htype] at htype'
    cases htype'
    exact hbytes
  · rw [hname, htype] at htype'
    cases htype'
    exact absurd hnumber (by decide)

/-- A side that the filter leaves empty is right when no entry is for it. -/
theorem rightBound_nil (hwf : WellFormed floatWord types filters) (htype : types name = some type)
    (hnumber : IsNumber type) (side : Bound → Option Bool) :
    RightBound floatWord type (sources side filters name) [] false ↔
      given side filters name = [] ∧ given exactSide filters name = [] := by
  have hnone : ∀ s : Bound → Option Bool, ∀ q ∈ given s filters name,
      encodeAs floatWord type q.2 ≠ some [] := by
    intro s q hq hnil
    obtain ⟨p, hp, hname, -, hval⟩ := mem_given.mp hq
    obtain ⟨bytes, hne, hbytes⟩ := hwf.encoded htype hnumber hp hname
    rw [hval, hnil] at hbytes
    exact hne (Option.some.inj hbytes).symm
  unfold RightBound sources
  by_cases hside : given side filters name = []
  · rw [if_pos hside]
    by_cases hexact : given exactSide filters name = []
    · rw [if_pos hexact]
      exact iff_of_true ⟨rfl, rfl⟩ ⟨hside, hexact⟩
    · rw [if_neg hexact]
      refine iff_of_false ?_ fun h => hexact h.2
      rintro ⟨q, hq, hnil, -⟩
      exact hnone _ q hq hnil
  · rw [if_neg hside, if_neg hside]
    refine iff_of_false ?_ fun h => hside h.1
    rintro ⟨q, hq, hnil, -⟩
    exact hnone _ q hq hnil

/-- The side that the entry names. -/
theorem rightBound_own (honce : (filters.map Prod.fst).Nodup) (hc : c ∈ filters)
    (hname : (splitKey c.1).1 = name) {side : Bound → Option Bool} {included : Bool}
    (hcside : side (splitKey c.1).2 = some included)
    (hside : ∀ b, side b = some included → b = (splitKey c.1).2) (value : Bytes) :
    RightBound floatWord type (sources side filters name) value included ↔
      encodeAs floatWord type c.2 = some value := by
  have hmem : (included, c.2) ∈ given side filters name := mem_given.mpr ⟨c, hc, hname, hcside, rfl⟩
  have hne : given side filters name ≠ [] := List.ne_nil_of_mem hmem
  unfold RightBound sources
  rw [if_neg hne, if_neg hne]
  constructor
  · rintro ⟨⟨j, v⟩, hv, hval, rfl⟩
    rwa [← eq_of_mem_given honce hc hname hside hv]
  · intro hval
    exact ⟨(included, c.2), hmem, hval, rfl⟩

theorem eq_of_upperSide {b : Bound} {included : Bool} (h : upperSide b = some included) :
    b = .upper included := by
  cases b with
  | upper included' => exact congrArg _ (Option.some.inj h)
  | lower included' => cases h
  | exact => cases h

theorem eq_of_lowerSide {b : Bound} {included : Bool} (h : lowerSide b = some included) :
    b = .lower included := by
  cases b with
  | upper included' => cases h
  | lower included' => exact congrArg _ (Option.some.inj h)
  | exact => cases h

/-- A side besides a plain entry. -/
theorem rightBound_exact (honce : (filters.map Prod.fst).Nodup) (hc : c ∈ filters)
    (hname : (splitKey c.1).1 = name) (hexact : (splitKey c.1).2 = .exact)
    {bytes : Bytes} (hbytes : bytesValue c.2 = some bytes) (side : Bound → Option Bool) :
    RightBound floatWord type (sources side filters name) bytes true ↔
      Twin floatWord filters name type c.2 side ∧
        (given side filters name = [] → encodeAs floatWord type c.2 = bytesValue c.2) := by
  have hside : ∀ b, exactSide b = some true → b = (splitKey c.1).2 := by
    intro b hb
    cases b with
    | exact => exact hexact.symm
    | _ => cases hb
  have hmem : (true, c.2) ∈ given exactSide filters name :=
    mem_given.mpr ⟨c, hc, hname, by rw [hexact]; rfl, rfl⟩
  unfold RightBound sources Twin
  rw [hbytes]
  by_cases hnone : given side filters name = []
  · rw [if_pos hnone, if_neg (List.ne_nil_of_mem hmem)]
    constructor
    · rintro ⟨⟨j, v⟩, hv, hval, rfl⟩
      refine ⟨.inl hnone, fun _ => ?_⟩
      rwa [← eq_of_mem_given honce hc hname hside hv]
    · rintro ⟨-, hval⟩
      exact ⟨(true, c.2), hmem, hval hnone, rfl⟩
  · rw [if_neg hnone, if_neg hnone]
    constructor
    · rintro ⟨⟨j, v⟩, hv, hval, rfl⟩
      exact ⟨.inr ⟨v, hv, hval⟩, fun h => absurd h hnone⟩
    · rintro ⟨hnil | ⟨v, hv, hval⟩, -⟩
      · exact absurd hnil hnone
      · exact ⟨(true, v), hv, hval, rfl⟩

/-- **One filter** is right exactly when its entry settles the field. -/
theorem rightRange_iff (hwf : WellFormed floatWord types filters) (htype : types name = some type)
    (hnumber : IsNumber type) (hfirst : firstOf filters name = some c) {bytes : Bytes}
    (hbytes : bytesValue c.2 = some bytes) :
    RightRange floatWord types filters name (newRange name bytes (splitKey c.1).2) ↔
      Settles floatWord filters name type c := by
  have hc : c ∈ filters := List.mem_of_find?_eq_some hfirst
  have hname : (splitKey c.1).1 = name := by simpa using List.find?_some hfirst
  obtain ⟨value, -, hvalue⟩ := hwf.encoded htype hnumber hc hname
  have hdirect := direct_iff hnumber hvalue
  have hright : ∀ r : Api.RangeFilter, r.field = utf8 name →
      (RightRange floatWord types filters name r ↔
        RightBound floatWord type (sources upperSide filters name) r.upperValue r.includeUpper ∧
        RightBound floatWord type (sources lowerSide filters name) r.lowerValue r.includeLower) := by
    intro r hfield
    constructor
    · intro h
      exact ⟨h.upper type htype, h.lower type htype⟩
    · rintro ⟨hupper, hlower⟩
      refine ⟨hfield, fun t ht => ?_, fun t ht => ?_⟩ <;> rw [htype] at ht <;> cases ht
      · exact hupper
      · exact hlower
  unfold Settles
  cases hbound : (splitKey c.1).2 with
  | upper included =>
    rw [hright _ rfl]
    have hown := @rightBound_own floatWord filters name type c hwf.once hc hname upperSide included
      (by rw [hbound]; rfl) (fun b hb => (eq_of_upperSide hb).trans hbound.symm) bytes
    show RightBound floatWord type (sources upperSide filters name) bytes included ∧
      RightBound floatWord type (sources lowerSide filters name) [] false ↔ _
    rw [hown, rightBound_nil hwf htype hnumber, ← hdirect, hbytes]
  | lower included =>
    rw [hright _ rfl]
    have hown := @rightBound_own floatWord filters name type c hwf.once hc hname lowerSide included
      (by rw [hbound]; rfl) (fun b hb => (eq_of_lowerSide hb).trans hbound.symm) bytes
    show RightBound floatWord type (sources upperSide filters name) [] false ∧
      RightBound floatWord type (sources lowerSide filters name) bytes included ↔ _
    rw [hown, rightBound_nil hwf htype hnumber, ← hdirect, hbytes, and_comm]
  | exact =>
    rw [hright _ rfl]
    show RightBound floatWord type (sources upperSide filters name) bytes true ∧
      RightBound floatWord type (sources lowerSide filters name) bytes true ↔ _
    rw [rightBound_exact hwf.once hc hname hbound hbytes,
      rightBound_exact hwf.once hc hname hbound hbytes, hdirect]
    constructor
    · rintro ⟨⟨hupper, hu⟩, hlower, hl⟩
      exact ⟨hupper, hlower, fun h => h.elim hu hl⟩
    · rintro ⟨hupper, hlower, h⟩
      exact ⟨⟨hupper, fun hu => h (.inl hu)⟩, hlower, fun hl => h (.inr hl)⟩

/-- An entry without bytes settles nothing. -/
theorem bytesValue_of_settles (hwf : WellFormed floatWord types filters)
    (htype : types name = some type) (hnumber : IsNumber type)
    (hfirst : firstOf filters name = some c) (h : Settles floatWord filters name type c) :
    bytesValue c.2 ≠ none := by
  have hc : c ∈ filters := List.mem_of_find?_eq_some hfirst
  have hname : (splitKey c.1).1 = name := by simpa using List.find?_some hfirst
  obtain ⟨value, -, hvalue⟩ := hwf.encoded htype hnumber hc hname
  have hdirect : Direct floatWord type c.2 → bytesValue c.2 ≠ none := by
    intro hd
    rw [← (direct_iff hnumber hvalue).mpr hd, hvalue]
    exact Option.some_ne_none value
  unfold Settles at h
  split at h
  · exact hdirect h.1
  · exact hdirect h.1
  · obtain ⟨hnil | ⟨w, hw, hbytes⟩, -, hd⟩ := h
    · exact hdirect (hd (.inl hnil))
    · obtain ⟨p, hp, hpname, -, rfl⟩ := mem_given.mp hw
      obtain ⟨bytes, -, hsome⟩ := hwf.encoded htype hnumber hp hpname
      rw [← hbytes, hsome]
      exact Option.some_ne_none bytes

/-! ### The dictionary -/

theorem field_newRange (name : String) (bytes : Bytes) (bound : Bound) :
    (newRange name bytes bound).field = utf8 name := by cases bound <;> rfl

/-- A filter is known by its field, in whatever order the names are. -/
theorem rightRange_of_forall₂ {ranges : List (String × Api.RangeFilter)} {names : List String}
    (hfield : ∀ p ∈ ranges, p.2.field = utf8 p.1)
    (h : List.Forall₂ (RightRange floatWord types filters) names (ranges.map Prod.snd)) :
    ∀ p ∈ ranges, RightRange floatWord types filters p.1 p.2 := by
  induction ranges generalizing names with
  | nil => exact fun _ hp => nomatch hp
  | cons q ranges ih =>
    obtain _ | @⟨name, _, names, _, hright, hrest⟩ := h
    have hname : name = q.1 := utf8_inj (hright.field.symm.trans (hfield q List.mem_cons_self))
    intro p hp
    cases List.mem_cons.mp hp with
    | inl heq => exact heq ▸ hname ▸ hright
    | inr hp => exact ih (fun r hr => hfield r (List.mem_cons_of_mem q hr)) hrest p hp

theorem forall₂_keys {α : Type*} {R : String → α → Prop} {l : List (String × α)}
    (h : ∀ p ∈ l, R p.1 p.2) : List.Forall₂ R (l.map Prod.fst) (l.map Prod.snd) := by
  induction l with
  | nil => exact .nil
  | cons p l ih =>
    exact .cons (h p List.mem_cons_self) (ih fun q hq => h q (List.mem_cons_of_mem p hq))

/-- **Both bounds are kept** exactly when the first entry of each numeric field settles it. -/
theorem kept_iff (hwf : WellFormed floatWord types filters) :
    Kept floatWord types filters (addFilter types filters) ↔
      ∀ name type c, types name = some type → IsNumber type → firstOf filters name = some c →
        Settles floatWord filters name type c := by
  unfold addFilter
  obtain ⟨s, hloop, hmade⟩ | ⟨hloop, name, type, c, htype, hnumber, hfirst, hnone⟩ :=
    @addEntries_spec floatWord types [] filters ⟨[], []⟩ Made.nil hwf.fits
  · rw [hloop]
    have hfield : ∀ p ∈ s.ranges, p.2.field = utf8 p.1 := by
      intro p hp
      obtain ⟨c, bytes, -, -, hval⟩ := hmade.first p hp
      rw [hval, field_newRange]
    constructor
    · rintro ⟨⟨names, -, hranges⟩, -⟩ name type c htype hnumber hfirst
      have hc : c ∈ filters := List.mem_of_find?_eq_some hfirst
      have hname : (splitKey c.1).1 = name := by simpa using List.find?_some hfirst
      obtain ⟨p, hp, rfl⟩ := List.mem_map.mp
        ((hmade.ranges.2 name).mpr ⟨⟨type, htype, hnumber⟩, c, hc, hname⟩)
      obtain ⟨c', bytes, hc', hbytes, hval⟩ := hmade.first p hp
      rw [List.nil_append, hfirst] at hc'
      cases hc'
      rw [← rightRange_iff hwf htype hnumber hfirst hbytes, ← hval]
      exact rightRange_of_forall₂ hfield hranges p hp
    · intro h
      refine ⟨⟨_, hmade.ranges, forall₂_keys fun p hp => ?_⟩,
        _, hmade.terms, forall₂_keys hmade.value⟩
      obtain ⟨c, bytes, hc, hbytes, hval⟩ := hmade.first p hp
      obtain ⟨⟨type, htype, hnumber⟩, -⟩ := (hmade.ranges.2 p.1).mp (List.mem_map_of_mem hp)
      rw [hval, rightRange_iff hwf htype hnumber hc hbytes]
      exact h p.1 type c htype hnumber hc
  · rw [hloop]
    refine iff_of_false (fun h => h) fun h => ?_
    exact bytesValue_of_settles hwf htype hnumber hfirst (h name type c htype hnumber hfirst) hnone

end Right

/-! ### A pair of bounds -/

/-- A table with a price and a colour. -/
def shopTypes (name : String) : Option DataType :=
  if name = "price" then some .float else if name = "color" then some .string else none

/-- `{"maxe_price": 15.5, "color": "red"}`: the filters are right. -/
theorem kept_iff_one_bound :
    Kept (fun _ => none) shopTypes
      [("maxe_price", .float (some [0, 0, 120, 65])), ("color", .str (some "red"))]
      (addFilter shopTypes
        [("maxe_price", .float (some [0, 0, 120, 65])), ("color", .str (some "red"))]) := by
  have hprice : splitKey "maxe_price" = ("price", .upper true) := by decide +kernel
  have hcolor : splitKey "color" = ("color", .exact) := by decide +kernel
  refine (kept_iff ⟨by decide, ?_⟩).mpr ?_
  · simp only [List.forall_mem_cons, hprice, hcolor]
    exact ⟨⟨.float, rfl, .inl ⟨by decide, _, by decide, rfl⟩⟩,
      ⟨.string, rfl, .inr ⟨rfl, trivial, "red", rfl⟩⟩, by simp⟩
  · intro name type c htype hnumber hfirst
    have hc := List.mem_of_find?_eq_some hfirst
    have hname : (splitKey c.1).1 = name := by simpa using List.find?_some hfirst
    simp only [List.mem_cons, List.not_mem_nil, or_false] at hc
    obtain rfl | rfl := hc
    · rw [hprice] at hname
      subst hname
      cases htype
      simp only [Settles, hprice]
      exact ⟨trivial, by decide +kernel, by decide +kernel⟩
    · rw [hcolor] at hname
      subst hname
      cases htype
      exact absurd hnumber (by decide)

/-- **The second bound is lost**: `{"max_price": 15.5, "min_price": 4.25}`. -/
theorem second_bound_lost :
    WellFormed (fun _ => none) shopTypes [("max_price", .float (some [0, 0, 120, 65])),
      ("min_price", .float (some [0, 0, 136, 64]))] ∧
    ¬ Kept (fun _ => none) shopTypes [("max_price", .float (some [0, 0, 120, 65])),
      ("min_price", .float (some [0, 0, 136, 64]))]
      (addFilter shopTypes [("max_price", .float (some [0, 0, 120, 65])),
        ("min_price", .float (some [0, 0, 136, 64]))]) := by
  have hmax : splitKey "max_price" = ("price", .upper false) := by decide +kernel
  have hmin : splitKey "min_price" = ("price", .lower false) := by decide +kernel
  have hwf : WellFormed (fun _ => none) shopTypes [("max_price", .float (some [0, 0, 120, 65])),
      ("min_price", .float (some [0, 0, 136, 64]))] := by
    refine ⟨by decide, ?_⟩
    simp only [List.forall_mem_cons, hmax, hmin]
    exact ⟨⟨.float, rfl, .inl ⟨by decide, _, by decide, rfl⟩⟩,
      ⟨.float, rfl, .inl ⟨by decide, _, by decide, rfl⟩⟩, by simp⟩
  have hrun : addFilter shopTypes [("max_price", .float (some [0, 0, 120, 65])),
      ("min_price", .float (some [0, 0, 136, 64]))] =
        some ([⟨utf8 "price", [], [0, 0, 120, 65], false, false⟩], []) := by decide +kernel
  refine ⟨hwf, ?_⟩
  rw [hrun]
  rintro ⟨⟨names, -, hranges⟩, -⟩
  obtain _ | @⟨name, _, _, _, hright, _⟩ := hranges
  have hname : name = "price" := utf8_inj hright.field.symm
  subst hname
  have hlower := (rightBound_nil hwf rfl (by decide) lowerSide).mp (hright.lower .float rfl)
  exact absurd hlower.1 (by decide +kernel)

end AwaLocal

end AwaDB
