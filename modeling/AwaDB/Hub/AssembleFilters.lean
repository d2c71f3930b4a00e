import AwaDB.Hub.AssembleDoc
import AwaDB.Lib.Lists

/-!
# Filters of the REST proxy (`hub/hub_local_proxy.go`)

The handlers of search, get and delete make the filters of a request from a JSON object, whose members
are a list in the order in which Go ranges over them. A `RangeFilter` points to the loop variable for its
name, which is one variable for the whole loop, and `AssembleTermFilters` appends to its own copy of the
slice. A bound is written as a `float32` or as an integer by the text of its number, and a side without a
bound has a default.

* `Carried`: one filter for each well-formed condition, and each of them right;
* `side_iff`: which bound of a condition arrives;
* `carried_iff`: **the filters are carried** exactly if there is no term condition, and no range condition
  but one that is ranged last, gives both sides, and has its numbers in the type of its field.
-/

namespace AwaDB.Hub

open Lib BinaryFormat

/-- `RangeFilter` of `awadb.proto`. -/
structure RangeFilter where
  fieldName : String
  lowerValue : Bytes
  upperValue : Bytes
  includeLower : Bool
  includeUpper : Bool
deriving DecidableEq, Repr

/-- `TermFilter` of `awadb.proto`. -/
structure TermFilter where
  fieldName : String
  value : Option String
  isUnion : Option ℤ
deriving DecidableEq, Repr

variable (overflow : ℕ → Float64 → ℤ)

/-- The bytes of a bound. -/
def boundBytes (value : Float64) : Bytes :=
  if isDecimal value then float32tobytes value else int32tobytes (int32 overflow value)

/-- `AssignRangeValue`. -/
def assignRangeValue (value : Float64) (r : RangeFilter) (valueType : String) : RangeFilter :=
  if valueType ≠ "eq" ∧ valueType ≠ "lt" ∧ valueType ≠ "lte" ∧ valueType ≠ "gt" ∧ valueType ≠ "gte" then
    r
  else
    let bytes := boundBytes overflow value
    let r :=
      if valueType = "lt" ∨ valueType = "lte" then { r with upperValue := bytes }
      else if valueType = "gt" ∨ valueType = "gte" then { r with lowerValue := bytes }
      else if valueType = "eq" then { r with lowerValue := bytes, upperValue := bytes }
      else r
    if valueType = "lte" then { r with includeUpper := true }
    else if valueType = "lt" then { r with includeUpper := false }
    else if valueType = "gte" then { r with includeLower := true }
    else if valueType = "gt" then { r with includeLower := false }
    else if valueType = "eq" then { r with includeUpper := true, includeLower := true }
    else r

/-- A filter before its bounds are assigned: -9999999 and 99999999 as `float32`. -/
def newRangeFilter (fieldName : String) : RangeFilter :=
  ⟨fieldName, leWord 4 0xCB18967F, leWord 4 0x4CBEBC20, false, false⟩

/-- The bounds of a condition. -/
def assignBounds (r : RangeFilter) (members : List (String × Json)) : RangeFilter :=
  members.foldl (fun r m =>
    match m.2 with
    | .number value => assignRangeValue overflow value r m.1
    | _ => r) r

/-- The condition is appended: it is an object of numbers. -/
def rangeOk : Json → Bool
  | .object members => members.all fun m => m.2.isNumber
  | _ => false

/-- The filter of a condition, with the name that its pointer has in the end. -/
def rangeFilter (fieldName : String) (p : String × Json) : Option RangeFilter :=
  match p.2 with
  | .object members =>
    if rangeOk p.2 then some (assignBounds overflow (newRangeFilter fieldName) members) else none
  | _ => none

/-- `AssembleRangeFilters`: the slice that the pointer has then, and what is returned. -/
def assembleRangeFilters (rangeFilters : List RangeFilter) : Json → List RangeFilter × Bool
  | .object members =>
    -- the loop variable has the last name that was ranged over
    let fieldName := (members.getLast?.map Prod.fst).getD ""
    let all := rangeFilters ++ members.filterMap (rangeFilter overflow fieldName)
    (all, !all.isEmpty)
  | _ => (rangeFilters, false)

/-- A member of a term condition that is accepted. -/
def termMemberOk : String × Json → Bool
  | (key, .string s) => key = "value" || (key = "operator" && (s = "or" || s = "and"))
  | _ => false

/-- The condition is appended. -/
def termOk : Json → Bool
  | .object members => members.all termMemberOk
  | _ => false

/-- The value and the operator of a condition. -/
def assignTerm (t : TermFilter) (members : List (String × Json)) : TermFilter :=
  members.foldl (fun t m =>
    match m.2 with
    | .string s =>
      if m.1 = "value" then { t with value := some s }
      else if m.1 = "operator" then
        if s = "or" then { t with isUnion := some 1 }
        else if s = "and" then { t with isUnion := some 0 }
        else t
      else t
    | _ => t) t

/-- The filter of a term condition. -/
def termFilter (fieldName : String) (p : String × Json) : Option TermFilter :=
  match p.2 with
  | .object members =>
    if termOk p.2 then
      let t := assignTerm ⟨fieldName, none, none⟩ members
      some { t with isUnion := some (t.isUnion.getD 1) }
    else none
  | _ => none

/-- `AssembleTermFilters`: its own slice, which the caller does not see, and what is returned. -/
def assembleTermFilters (termFilters : List TermFilter) : Json → List TermFilter × Bool
  | .object members =>
    let fieldName := (members.getLast?.map Prod.fst).getD ""
    let all := termFilters ++ members.filterMap (termFilter fieldName)
    (all, !all.isEmpty)
  | _ => (termFilters, false)

/-- The filters of a request, and `has_filters`. -/
structure Condition where
  rangeFilters : List RangeFilter
  termFilters : List TermFilter
  hasFilters : Bool
deriving DecidableEq, Repr

/-- A member of `filters` that has one of the two names. -/
def filterMember (s : Condition) (p : String × Json) : Option Condition :=
  if p.1 = "range_filters" then
    let (filters, ok) := assembleRangeFilters overflow s.rangeFilters p.2
    some { s with rangeFilters := filters, hasFilters := s.hasFilters || ok }
  else if p.1 = "term_filters" then
    some { s with hasFilters := s.hasFilters || (assembleTermFilters s.termFilters p.2).2 }
  else none

/-- The filters of a search request. -/
def searchFilters (filters : List (String × Json)) : Condition :=
  filters.foldl (fun s p => (filterMember overflow s p).getD s) ⟨[], [], false⟩

/-- What is sent for the ids that were found in the request: nothing without ids and filters, and no
filters with ids. -/
def sendCondition (ids : List Bytes) (s : Condition) : Option Condition :=
  if ids = [] ∧ s.hasFilters = false then none
  else if ids ≠ [] then some { s with rangeFilters := [], termFilters := [] }
  else some s

/-- The filters that get and delete send. -/
def conditionFilters (ids : List Bytes) (filters : List (String × Json)) : Option Condition :=
  (filters.foldlM (filterMember overflow) ⟨[], [], false⟩).bind (sendCondition ids)

/-- The handlers that send filters. -/
inductive Handler where
  | search
  | get (ids : List Bytes)
  | delete (ids : List Bytes)

/-- **The filters that a handler sends**; `none` is an answer without a request. -/
def sentFilters (filters : List (String × Json)) : Handler → Option Condition
  | .search => some (searchFilters overflow filters)
  | .get ids => conditionFilters overflow ids filters
  | .delete ids => conditionFilters overflow ids filters

/-! ### What the request should carry -/

/-- A side of a range. -/
inductive Side where
  | lower
  | upper

/-- The keys that give a bound on the side. -/
def Side.keys : Side → List String
  | .lower => ["gt", "gte", "eq"]
  | .upper => ["lt", "lte", "eq"]

/-- The key of a bound that is not included. -/
def Side.strict : Side → String
  | .lower => "gt"
  | .upper => "lt"

def RangeFilter.value (r : RangeFilter) : Side → Bytes
  | .lower => r.lowerValue
  | .upper => r.upperValue

def RangeFilter.included (r : RangeFilter) : Side → Bool
  | .lower => r.includeLower
  | .upper => r.includeUpper

/-- The conditions under a name. -/
def conditions (name : String) (filters : List (String × Json)) : List (String × Json) :=
  match filters.lookup name with
  | some (.object members) => members
  | _ => []

section

variable (types : Schema)

/-- A range condition: some bounds, at most one for a side, that are numbers of the type of the field. -/
def WellFormedRange (p : String × Json) : Prop :=
  ∃ members type, p.2 = .object members ∧ types p.1 = some type ∧ members ≠ [] ∧
    (∀ m ∈ members, (∃ side : Side, m.1 ∈ side.keys) ∧
      ∃ a, m.2 = .number a ∧ Representable type (.number a)) ∧
    ∀ (side : Side), ∀ m ∈ members, ∀ m' ∈ members, m.1 ∈ side.keys → m'.1 ∈ side.keys → m = m'

/-- The given bound in the type of the field, the given flag, and no bound that was not given. -/
def RightSide (type : FieldType) (members : List (String × Json)) (side : Side) (value : Bytes)
    (included : Bool) : Prop :=
  (∀ m ∈ members, m.1 ∈ side.keys →
    Encodes type m.2 value [] ∧ (included = true ↔ m.1 ≠ side.strict)) ∧
  ((∀ m ∈ members, m.1 ∉ side.keys) → value = [])

/-- The filter of a range condition. -/
def RightRange (p : String × Json) (r : RangeFilter) : Prop :=
  r.fieldName = p.1 ∧ ∃ members type, p.2 = .object members ∧ types p.1 = some type ∧
    ∀ side, RightSide type members side (r.value side) (r.included side)

/-- A term condition: a value and at most one operator, for a field of strings. -/
def WellFormedTerm (p : String × Json) : Prop :=
  ∃ members, p.2 = .object members ∧
    (types p.1 = some .string ∨ types p.1 = some .multiString ∨ types p.1 = some .keyword) ∧
    members.all termMemberOk = true ∧ (members.map Prod.fst).Nodup ∧ ∃ s, ("value", .string s) ∈ members

/-- The filter of a term condition. -/
def RightTerm (p : String × Json) (t : TermFilter) : Prop :=
  t.fieldName = p.1 ∧ ∃ members, p.2 = .object members ∧
    (∃ s, ("value", .string s) ∈ members ∧ t.value = some s) ∧
    (("operator", .string "and") ∈ members → t.isUnion = some 0) ∧
    (("operator", .string "and") ∉ members → t.isUnion = some 1)

/-- The list has the well-formed conditions under a name, each once. -/
def IsConditions (name : String) (wellFormed : String × Json → Prop) (filters l : List (String × Json)) :
    Prop :=
  l.Nodup ∧ ∀ p, p ∈ l ↔ p ∈ conditions name filters ∧ wellFormed p

/-- **The request carries the filters.** -/
def Carried (filters : List (String × Json)) (s : Condition) : Prop :=
  (∃ l, IsConditions "range_filters" (WellFormedRange types) filters l ∧
    List.Forall₂ (RightRange types) l s.rangeFilters) ∧
  ∃ l, IsConditions "term_filters" (WellFormedTerm types) filters l ∧
    List.Forall₂ RightTerm l s.termFilters

end

/-- JSON objects that are maps, as far as filters need it. -/
structure IsMap (filters : List (String × Json)) : Prop where
  names : (filters.map Prod.fst).Nodup
  ranges : ((conditions "range_filters" filters).map Prod.fst).Nodup

variable {overflow} {types : Schema}

/-! ### The bounds of one condition -/

/-- **One bound** sets the sides that its key is for. -/
theorem assign_eq (a : Float64) (r : RangeFilter) (key : String) : assignRangeValue overflow a r key =
    { fieldName := r.fieldName
      lowerValue := if key ∈ Side.lower.keys then boundBytes overflow a else r.lowerValue
      upperValue := if key ∈ Side.upper.keys then boundBytes overflow a else r.upperValue
      includeLower := if key ∈ Side.lower.keys then decide (key ≠ "gt") else r.includeLower
      includeUpper := if key ∈ Side.upper.keys then decide (key ≠ "lt") else r.includeUpper } := by
  by_cases heq : key = "eq"
  · subst heq
    rfl
  by_cases hlt : key = "lt"
  · subst hlt
    rfl
  by_cases hlte : key = "lte"
  · subst hlte
    rfl
  by_cases hgt : key = "gt"
  · subst hgt
    rfl
  by_cases hgte : key = "gte"
  · subst hgte
    rfl
  have hlower : key ∉ Side.lower.keys := by simp only [Side.keys, List.mem_cons, heq, hgt, hgte,
    List.not_mem_nil, or_self, not_false_iff]
  have hupper : key ∉ Side.upper.keys := by simp only [Side.keys, List.mem_cons, heq, hlt, hlte,
    List.not_mem_nil, or_self, not_false_iff]
  rw [if_neg hlower, if_neg hupper, if_neg hlower, if_neg hupper]
  exact if_pos ⟨heq, hlt, hlte, hgt, hgte⟩

theorem side_assign (a : Float64) (r : RangeFilter) (key : String) (side : Side) :
    (assignRangeValue overflow a r key).value side =
        (if key ∈ side.keys then boundBytes overflow a else r.value side) ∧
      (assignRangeValue overflow a r key).included side =
        if key ∈ side.keys then decide (key ≠ side.strict) else r.included side := by
  rw [assign_eq]
  cases side with
  | lower => exact ⟨rfl, rfl⟩
  | upper => exact ⟨rfl, rfl⟩

theorem fieldName_assign (a : Float64) (r : RangeFilter) (key : String) :
    (assignRangeValue overflow a r key).fieldName = r.fieldName := by rw [assign_eq]

theorem fieldName_assignBounds (r : RangeFilter) (members : List (String × Json)) :
    (assignBounds overflow r members).fieldName = r.fieldName := by
  induction members generalizing r with
  | nil => rfl
  | cons m members ih =>
    refine (ih _).trans ?_
    dsimp only
    split
    · exact fieldName_assign _ _ _
    · rfl

/-- **A side of a condition** has the last bound that is given, or its default. -/
theorem side_assignBounds {members : List (String × Json)}
    (hnumbers : ∀ m ∈ members, ∃ a, m.2 = .number a) (r : RangeFilter) (side : Side) :
    (∃ m ∈ members, m.1 ∈ side.keys ∧ ∃ a, m.2 = .number a ∧
      (assignBounds overflow r members).value side = boundBytes overflow a ∧
      (assignBounds overflow r members).included side = decide (m.1 ≠ side.strict)) ∨
    (∀ m ∈ members, m.1 ∉ side.keys) ∧
      (assignBounds overflow r members).value side = r.value side ∧
      (assignBounds overflow r members).included side = r.included side := by
  induction members generalizing r with
  | nil => exact .inr ⟨nofun, rfl, rfl⟩
  | cons m members ih =>
    obtain ⟨hfirst, hrest⟩ := List.forall_mem_cons.mp hnumbers
    obtain ⟨a, ha⟩ := hfirst
    obtain ⟨key, v⟩ := m
    dsimp only at ha
    subst ha
    have hcons : assignBounds overflow r ((key, .number a) :: members) =
        assignBounds overflow (assignRangeValue overflow a r key) members := rfl
    rw [hcons]
    rcases ih hrest (assignRangeValue overflow a r key) with ⟨m, hm, h⟩ | ⟨hnone, hvalue, hincluded⟩
    · exact .inl ⟨m, List.mem_cons_of_mem _ hm, h⟩
    · obtain ⟨hv, hi⟩ := @side_assign overflow a r key side
      rw [hvalue, hincluded, hv, hi]
      by_cases hkey : key ∈ side.keys
      · rw [if_pos hkey, if_pos hkey]
        exact .inl ⟨_, List.mem_cons_self, hkey, a, rfl, rfl, rfl⟩
      · rw [if_neg hkey, if_neg hkey]
        exact .inr ⟨List.forall_mem_cons.mpr ⟨hkey, hnone⟩, rfl, rfl⟩

/-! ### The type of a bound -/

/-- The bytes of the bound are in the type: a number without a point for an integer and one with a point
for a `float32`. Else the other bytes would have to stand for the same number, as those of 0 do. -/
def Typed (overflow : ℕ → Float64 → ℤ) : FieldType → Float64 → Prop
  | .int, a => isDecimal a = false ∨ ∃ n, IsInt 32 a n ∧ float32tobytes a = int32tobytes n
  | .float, a => isDecimal a = true ∨ IsFloat a (int32tobytes (int32 overflow a))
  | _, _ => False

theorem length_boundBytes (a : Float64) : (boundBytes overflow a).length = 4 := by
  unfold boundBytes
  split
  · exact length_leWord 4 _
  · exact length_leWord 4 _

theorem typed_iff {type : FieldType} {a : Float64} (h : Representable type (.number a)) :
    Encodes type (.number a) (boundBytes overflow a) [] ↔ Typed overflow type a := by
  obtain ⟨value, strings, henc⟩ := h
  cases type with
  | int =>
    obtain ⟨n, hn, -⟩ := henc
    unfold boundBytes Typed
    cases hdec : isDecimal a with
    | false => exact iff_of_true ⟨_, int_encodes 32 hn, rfl⟩ (.inl hdec)
    | true => exact ⟨.inr, fun h => h.resolve_left (ne_false_of_eq_true hdec)⟩
  | float =>
    unfold boundBytes Typed
    cases hdec : isDecimal a with
    | true => exact iff_of_true (float_encodes henc) (.inl hdec)
    | false => exact ⟨.inr, fun h => h.resolve_left (ne_true_of_eq_false hdec)⟩
  | long =>
    refine iff_of_false ?_ id
    rintro ⟨n, -, heq⟩
    have hlen := congrArg List.length heq
    rw [length_boundBytes, int64tobytes, length_leWord] at hlen
    exact absurd hlen (by decide)
  | double =>
    refine iff_of_false ?_ id
    intro heq
    have hlen := congrArg List.length heq
    rw [length_boundBytes, length_leWord] at hlen
    exact absurd hlen (by decide)
  | _ => exact henc.elim

/-- Both sides are given, and their numbers are in the type. -/
def Settled (overflow : ℕ → Float64 → ℤ) (types : Schema) (p : String × Json) : Prop :=
  ∃ members type, p.2 = .object members ∧ types p.1 = some type ∧
    ∀ side : Side, ∃ m ∈ members, m.1 ∈ side.keys ∧ ∃ a, m.2 = .number a ∧ Typed overflow type a

theorem value_newRangeFilter (fieldName : String) (side : Side) :
    (newRangeFilter fieldName).value side ≠ [] := by
  cases side <;> exact nofun

/-- **Which side arrives.** -/
theorem side_iff {fieldName : String} {members : List (String × Json)} {type : FieldType}
    (hnumbers : ∀ m ∈ members, ∃ a, m.2 = .number a ∧ Representable type (.number a)) {side : Side}
    (hone : ∀ m ∈ members, ∀ m' ∈ members, m.1 ∈ side.keys → m'.1 ∈ side.keys → m = m') :
    RightSide type members side
        ((assignBounds overflow (newRangeFilter fieldName) members).value side)
        ((assignBounds overflow (newRangeFilter fieldName) members).included side) ↔
      ∃ m ∈ members, m.1 ∈ side.keys ∧ ∃ a, m.2 = .number a ∧ Typed overflow type a := by
  have hside := @side_assignBounds overflow members
    (fun m hm => (hnumbers m hm).imp fun _ h => h.1) (newRangeFilter fieldName) side
  constructor
  · rintro ⟨hgiven, hnone⟩
    rcases hside with ⟨m, hm, hkey, a, ha, hvalue, -⟩ | ⟨hno, hvalue, -⟩
    · obtain ⟨a', ha', hrep⟩ := hnumbers m hm
      cases ha.symm.trans ha'
      have henc := (hgiven m hm hkey).1
      rw [ha, hvalue] at henc
      exact ⟨m, hm, hkey, a, ha, (typed_iff hrep).mp henc⟩
    · exact absurd (hvalue.symm.trans (hnone hno)) (value_newRangeFilter fieldName side)
  · rintro ⟨m, hm, hkey, a, ha, htyped⟩
    rcases hside with ⟨m', hm', hkey', a', ha', hvalue, hincluded⟩ | ⟨hno, -, -⟩
    · cases hone m' hm' m hm hkey' hkey
      cases ha.symm.trans ha'
      obtain ⟨_, hrep', hrep⟩ := hnumbers m hm
      cases ha.symm.trans hrep'
      refine ⟨?_, fun hno => absurd hkey (hno m hm)⟩
      intro m' hm' hkey'
      cases hone m' hm' m hm hkey' hkey
      rw [hvalue, hincluded, ha, decide_eq_true_iff]
      exact ⟨(typed_iff hrep).mpr htyped, Iff.rfl⟩
    · exact absurd hkey (hno m hm)

/-- A condition that is accepted has its filter. -/
theorem rangeFilter_object {fieldName : String} {name : String} {members : List (String × Json)}
    (h : rangeOk (.object members) = true) : rangeFilter overflow fieldName (name, .object members) =
      some (assignBounds overflow (newRangeFilter fieldName) members) := if_pos h

theorem rangeOk_of_wellFormed {p : String × Json} (h : WellFormedRange types p) :
    rangeOk p.2 = true := by
  obtain ⟨members, type, hobject, -, -, hmembers, -⟩ := h
  rw [hobject]
  apply List.all_eq_true.mpr
  intro m hm
  obtain ⟨-, a, ha, -⟩ := hmembers m hm
  rw [ha]
  rfl

theorem isSome_rangeFilter {fieldName : String} {p : String × Json} :
    (rangeFilter overflow fieldName p).isSome = rangeOk p.2 := by
  obtain ⟨name, v⟩ := p
  cases v with
  | object members =>
    unfold rangeFilter
    dsimp only
    split
    · rename_i hok
      exact hok.symm
    · rename_i hok
      exact (eq_false_of_ne_true hok).symm
  | _ => rfl

/-- **A well-formed condition** has a right filter under its name exactly if it is settled. -/
theorem range_iff {p : String × Json} (hwf : WellFormedRange types p) :
    (∃ r, rangeFilter overflow p.1 p = some r ∧ RightRange types p r) ↔ Settled overflow types p := by
  have hok := rangeOk_of_wellFormed hwf
  obtain ⟨name, v⟩ := p
  obtain ⟨members, type, hobject, htype, -, hmembers, hone⟩ := hwf
  dsimp only at hobject htype
  subst hobject
  have hsides := fun side => @side_iff overflow name members type
    (fun m hm => (hmembers m hm).2) side (hone side)
  constructor
  · rintro ⟨r, hr, -, members', type', hobject, htype', hright⟩
    rw [rangeFilter_object hok] at hr
    cases hr
    cases hobject
    exact ⟨members, type', rfl, htype', fun side => (@side_iff overflow name members type'
      (by cases htype.symm.trans htype'; exact fun m hm => (hmembers m hm).2) side (hone side)).mp
      (hright side)⟩
  · rintro ⟨members', type', hobject, htype', hset⟩
    cases hobject
    cases htype.symm.trans htype'
    refine ⟨_, rangeFilter_object hok, fieldName_assignBounds _ _, members, type, rfl, htype, ?_⟩
    exact fun side => (hsides side).mpr (hset side)

/-! ### The conditions of a request -/

/-- The last condition that is ranged over. -/
def IsLast (p : String × Json) (ranges : List (String × Json)) : Prop := ranges.getLast? = some p

/-- The name that the filters have. -/
def lastName (ranges : List (String × Json)) : String := (ranges.getLast?.map Prod.fst).getD ""

/-- The slice behind the pointer. -/
def ranged (overflow : ℕ → Float64 → ℤ) (ranges : List (String × Json)) : List RangeFilter :=
  ranges.filterMap (rangeFilter overflow (lastName ranges))

/-- What the range conditions have to be like. -/
def Clean (overflow : ℕ → Float64 → ℤ) (types : Schema) (ranges : List (String × Json)) : Prop :=
  (∀ p ∈ ranges, rangeOk p.2 = true → WellFormedRange types p) ∧
    ∀ p ∈ ranges, WellFormedRange types p → IsLast p ranges ∧ Settled overflow types p

theorem fieldName_rangeFilter {fieldName : String} {p : String × Json} {r : RangeFilter}
    (h : rangeFilter overflow fieldName p = some r) : r.fieldName = fieldName := by
  obtain ⟨name, v⟩ := p
  cases v with
  | object members =>
    unfold rangeFilter at h
    dsimp only at h
    split at h
    · cases h
      exact fieldName_assignBounds _ _
    · exact nomatch h
  | _ => exact nomatch h

/-- Nothing is appended if no condition is accepted. -/
theorem filterMap_rangeFilter_eq_nil {fieldName : String} {ranges : List (String × Json)} :
    ranges.filterMap (rangeFilter overflow fieldName) = [] ↔ ∀ p ∈ ranges, rangeOk p.2 = false := by
  rw [← List.isEmpty_iff, Lib.isEmpty_filterMap fun _ => isSome_rangeFilter, Bool.not_eq_true',
    List.any_eq_false]
  exact forall₂_congr fun p _ => by rw [Bool.not_eq_true]

/-- The filters of a list with a last condition. -/
theorem ranged_concat (init : List (String × Json)) (p : String × Json) :
    ranged overflow (init ++ [p]) =
      init.filterMap (rangeFilter overflow p.1) ++ [p].filterMap (rangeFilter overflow p.1) := by
  have hname : lastName (init ++ [p]) = p.1 := by
    unfold lastName
    rw [List.getLast?_concat]
    rfl
  rw [ranged, hname, List.filterMap_append]

theorem isLast_concat {init : List (String × Json)} {last p : String × Json} :
    IsLast p (init ++ [last]) ↔ last = p := by
  rw [IsLast, List.getLast?_concat, Option.some_inj]

/-- The names are different, so that the last name is that of the last condition only. -/
theorem ne_last_of_nodup {init : List (String × Json)} {last : String × Json}
    (hnodup : ((init ++ [last]).map Prod.fst).Nodup) : ∀ p ∈ init, p.1 ≠ last.1 := by
  intro p hp heq
  rw [List.map_append, List.map_singleton, List.nodup_append] at hnodup
  exact hnodup.2.2 p.1 (List.mem_map_of_mem hp) last.1 (List.mem_singleton_self _) heq

/-- What is carried is clean. -/
theorem clean_of_carried {init : List (String × Json)} {last : String × Json}
    (hinit : ∀ p ∈ init, p.1 ≠ last.1) {l : List (String × Json)} (hl : l.Nodup)
    (hall : ∀ p, p ∈ l ↔ p ∈ init ++ [last] ∧ WellFormedRange types p)
    (hright : List.Forall₂ (RightRange types) l (ranged overflow (init ++ [last]))) :
    Clean overflow types (init ++ [last]) := by
  rw [ranged_concat] at hright
  have hname : ∀ p ∈ l, last = p := by
    intro p hp
    obtain ⟨r, hr, ⟨hfield, -⟩, -⟩ := exists_of_forall₂ hright hright hp
    have hlast : r.fieldName = last.1 := by
      rw [← List.filterMap_append] at hr
      obtain ⟨q, -, hq⟩ := List.mem_filterMap.mp hr
      exact fieldName_rangeFilter hq
    rcases List.mem_append.mp ((hall p).mp hp).1 with hmem | hmem
    · exact absurd (hfield.symm.trans hlast) (hinit p hmem)
    · exact (List.mem_singleton.mp hmem).symm
  rcases l with _ | ⟨p, l⟩
  · have hnone := filterMap_rangeFilter_eq_nil.mp
      ((@List.filterMap_append _ _ init [last] _).trans (List.forall₂_nil_left_iff.mp hright))
    refine ⟨?_, ?_⟩
    · intro p hp hok
      exact absurd hok (ne_true_of_eq_false (hnone p hp))
    · intro p hp hwf
      exact absurd ((hall p).mpr ⟨hp, hwf⟩) List.not_mem_nil
  · obtain rfl := hname p List.mem_cons_self
    have hnil : l = [] := by
      apply List.eq_nil_iff_forall_not_mem.mpr
      intro q hq
      exact (List.nodup_cons.mp hl).1 (hname q (List.mem_cons_of_mem _ hq) ▸ hq)
    subst hnil
    have hwf := ((hall last).mp List.mem_cons_self).2
    have hok := rangeOk_of_wellFormed hwf
    obtain ⟨r, hr⟩ := Option.isSome_iff_exists.mp
      ((@isSome_rangeFilter overflow last.1 last).trans hok)
    have hsingle : [last].filterMap (rangeFilter overflow last.1) = [r] := by
      rw [List.filterMap_cons_some hr, List.filterMap_nil]
    have hempty : init.filterMap (rangeFilter overflow last.1) = [] := by
      have hlen := hright.length_eq
      rw [hsingle, List.length_append, List.length_singleton, List.length_singleton] at hlen
      exact List.length_eq_zero_iff.mp (by omega)
    rw [hempty, hsingle, List.nil_append] at hright
    have hset := (range_iff hwf).mp ⟨r, hr, (List.forall₂_cons.mp hright).1⟩
    refine ⟨?_, ?_⟩
    · intro p hp hok
      rcases List.mem_append.mp hp with hmem | hmem
      · exact absurd hok (ne_true_of_eq_false (filterMap_rangeFilter_eq_nil.mp hempty p hmem))
      · exact List.mem_singleton.mp hmem ▸ hwf
    · intro p hp hwf
      obtain rfl := hname p ((hall p).mpr ⟨hp, hwf⟩)
      exact ⟨isLast_concat.mpr rfl, hset⟩

/-- What is clean is carried: the last condition alone, if it is accepted. -/
theorem carried_of_clean {init : List (String × Json)} {last : String × Json}
    (hinit : ∀ p ∈ init, p.1 ≠ last.1) (h : Clean overflow types (init ++ [last])) :
    ∃ l : List (String × Json),
      (l.Nodup ∧ ∀ p, p ∈ l ↔ p ∈ init ++ [last] ∧ WellFormedRange types p) ∧
        List.Forall₂ (RightRange types) l (ranged overflow (init ++ [last])) := by
  obtain ⟨hclean, hset⟩ := h
  have hmem : last ∈ init ++ [last] := List.mem_append_right _ List.mem_cons_self
  rw [ranged_concat]
  have hempty : init.filterMap (rangeFilter overflow last.1) = [] := by
    apply filterMap_rangeFilter_eq_nil.mpr
    intro p hp
    by_contra hok
    have hp' : p ∈ init ++ [last] := List.mem_append_left _ hp
    have hwf := hclean p hp' (eq_true_of_ne_false hok)
    exact hinit p hp (congrArg Prod.fst (isLast_concat.mp (hset p hp' hwf).1).symm)
  rw [hempty, List.nil_append]
  have honly : ∀ p, p ∈ init ++ [last] ∧ WellFormedRange types p → last = p :=
    fun p h => isLast_concat.mp (hset p h.1 h.2).1
  by_cases hok : rangeOk last.2 = true
  · have hwf := hclean last hmem hok
    obtain ⟨r, hr, hright⟩ := (range_iff hwf).mpr (hset last hmem hwf).2
    refine ⟨[last], ⟨List.nodup_singleton _, ?_⟩, ?_⟩
    · intro p
      rw [List.mem_singleton]
      refine ⟨fun h => ?_, fun h => (honly p h).symm⟩
      subst h
      exact ⟨hmem, hwf⟩
    · rw [List.filterMap_cons_some hr, List.filterMap_nil]
      exact .cons hright .nil
  · refine ⟨[], ⟨List.nodup_nil, ?_⟩, ?_⟩
    · intro p
      refine ⟨nofun, fun h => ?_⟩
      exact absurd (rangeOk_of_wellFormed (honly p h ▸ h.2 : WellFormedRange types last)) hok
    · have hnone := @isSome_rangeFilter overflow last.1 last
      rw [eq_false_of_ne_true hok, Option.isSome_eq_false_iff, Option.isNone_iff_eq_none] at hnone
      rw [List.filterMap_cons_none hnone]
      exact .nil

/-- **The range conditions are carried** exactly if they are clean. -/
theorem ranged_iff {ranges : List (String × Json)} (hnodup : (ranges.map Prod.fst).Nodup) :
    (∃ l : List (String × Json), (l.Nodup ∧ ∀ p, p ∈ l ↔ p ∈ ranges ∧ WellFormedRange types p) ∧
      List.Forall₂ (RightRange types) l (ranged overflow ranges)) ↔ Clean overflow types ranges := by
  rcases List.eq_nil_or_concat ranges with rfl | ⟨init, last, rfl⟩
  · refine iff_of_true ⟨[], ⟨List.nodup_nil, ?_⟩, .nil⟩ ⟨nofun, nofun⟩
    exact fun p => ⟨nofun, nofun⟩
  rw [List.concat_eq_append] at hnodup ⊢
  have hinit := ne_last_of_nodup hnodup
  constructor
  · intro h
    obtain ⟨l, ⟨hl, hall⟩, hright⟩ := h
    exact clean_of_carried hinit hl hall hright
  · exact carried_of_clean hinit

/-! ### The object -/

theorem conditions_cons_ne {name : String} {p : String × Json} {filters : List (String × Json)}
    (h : p.1 ≠ name) : conditions name (p :: filters) = conditions name filters := by
  obtain ⟨key, v⟩ := p
  unfold conditions
  rw [List.lookup_cons, beq_false_of_ne (Ne.symm h)]

theorem conditions_of_not_mem {name : String} {filters : List (String × Json)}
    (h : name ∉ filters.map Prod.fst) : conditions name filters = [] := by
  induction filters with
  | nil => rfl
  | cons p filters ih =>
    rw [List.map_cons, List.mem_cons, not_or] at h
    rw [conditions_cons_ne (Ne.symm h.1), ih h.2]

/-- The conditions of a value. -/
def members : Json → List (String × Json)
  | .object members => members
  | _ => []

theorem conditions_cons_eq (name : String) (v : Json) (filters : List (String × Json)) :
    conditions name ((name, v) :: filters) = members v := by
  unfold conditions
  rw [List.lookup_cons_self]
  cases v <;> rfl

/-- The slice of the range filters, and whether it has any. -/
theorem assembleRangeFilters_nil (v : Json) : assembleRangeFilters overflow [] v =
    (ranged overflow (members v), (members v).any fun p => rangeOk p.2) := by
  cases v with
  | object members =>
    refine Prod.ext rfl ?_
    show (!(ranged overflow members).isEmpty) = _
    rw [ranged, Lib.isEmpty_filterMap fun _ => isSome_rangeFilter, Bool.not_not]
    rfl
  | _ => rfl

theorem isSome_termFilter {fieldName : String} {p : String × Json} :
    (termFilter fieldName p).isSome = termOk p.2 := by
  obtain ⟨name, v⟩ := p
  cases v with
  | object members =>
    unfold termFilter
    dsimp only
    split
    · rename_i hok
      exact hok.symm
    · rename_i hok
      exact (eq_false_of_ne_true hok).symm
  | _ => rfl

theorem assembleTermFilters_nil (v : Json) :
    (assembleTermFilters [] v).2 = (members v).any fun p => termOk p.2 := by
  cases v with
  | object members =>
    unfold assembleTermFilters
    dsimp only
    rw [List.nil_append, Lib.isEmpty_filterMap fun _ => isSome_termFilter, Bool.not_not]
    rfl
  | _ => rfl

/-- **The filters behind the loop** over the object. -/
theorem searchLoop_eq {filters : List (String × Json)} (hnodup : (filters.map Prod.fst).Nodup)
    {s : Condition} (hterms : s.termFilters = [])
    (hranges : "range_filters" ∈ filters.map Prod.fst → s.rangeFilters = []) :
    filters.foldl (fun s p => (filterMember overflow s p).getD s) s =
      ⟨s.rangeFilters ++ ranged overflow (conditions "range_filters" filters), [],
        s.hasFilters || (conditions "range_filters" filters).any (fun p => rangeOk p.2) ||
          (conditions "term_filters" filters).any fun p => termOk p.2⟩ := by
  induction filters generalizing s with
  | nil =>
    obtain ⟨ranges, terms, has⟩ := s
    dsimp only at hterms
    subst hterms
    simp [conditions, ranged]
  | cons p filters ih =>
    obtain ⟨key, v⟩ := p
    obtain ⟨ranges, terms, has⟩ := s
    dsimp only at hterms
    subst hterms
    obtain ⟨hfresh, hrest⟩ := List.nodup_cons.mp hnodup
    rw [List.foldl_cons]
    by_cases hrange : key = "range_filters"
    · subst hrange
      obtain rfl : ranges = [] := hranges List.mem_cons_self
      have hstep : filterMember overflow ⟨[], [], has⟩ ("range_filters", v) =
          some ⟨ranged overflow (members v), [], has || (members v).any fun p => rangeOk p.2⟩ := by
        unfold filterMember
        rw [if_pos rfl, assembleRangeFilters_nil]
      rw [hstep, Option.getD_some, ih hrest rfl fun h => absurd h hfresh, conditions_cons_eq,
        conditions_of_not_mem hfresh, conditions_cons_ne (show "range_filters" ≠ "term_filters" by decide)]
      simp [ranged]
    · by_cases hterm : key = "term_filters"
      · subst hterm
        have hstep : filterMember overflow ⟨ranges, [], has⟩ ("term_filters", v) =
            some ⟨ranges, [], has || (members v).any fun p => termOk p.2⟩ := by
          unfold filterMember
          rw [if_neg hrange, if_pos rfl, assembleTermFilters_nil]
        have hlater : "range_filters" ∈ filters.map Prod.fst → ranges = [] :=
          fun h => hranges (List.mem_cons_of_mem _ h)
        rw [hstep, Option.getD_some, @ih hrest ⟨ranges, [], _⟩ rfl hlater, conditions_cons_eq,
          conditions_of_not_mem hfresh, conditions_cons_ne hrange]
        simp [Bool.or_right_comm]
      · have hstep : filterMember overflow ⟨ranges, [], has⟩ (key, v) = none := by
          unfold filterMember
          rw [if_neg hrange, if_neg hterm]
        rw [hstep, Option.getD_none, ih hrest rfl fun h => hranges (List.mem_cons_of_mem _ h),
          conditions_cons_ne hrange, conditions_cons_ne hterm]

/-- A search carries the range filters, and no term filter. -/
theorem searchFilters_eq {filters : List (String × Json)} (hnodup : (filters.map Prod.fst).Nodup) :
    searchFilters overflow filters =
      ⟨ranged overflow (conditions "range_filters" filters), [],
        (conditions "range_filters" filters).any (fun p => rangeOk p.2) ||
          (conditions "term_filters" filters).any fun p => termOk p.2⟩ := by
  unfold searchFilters
  rw [searchLoop_eq hnodup rfl fun _ => rfl]
  rfl

/-- The member has one of the two names. -/
def IsFilterName (p : String × Json) : Prop := p.1 = "range_filters" ∨ p.1 = "term_filters"

theorem isSome_filterMember {s : Condition} {p : String × Json} :
    (filterMember overflow s p).isSome ↔ IsFilterName p := by
  unfold filterMember IsFilterName
  by_cases hrange : p.1 = "range_filters"
  · rw [if_pos hrange]
    exact iff_of_true rfl (.inl hrange)
  · rw [if_neg hrange]
    by_cases hterm : p.1 = "term_filters"
    · rw [if_pos hterm]
      exact iff_of_true rfl (.inr hterm)
    · rw [if_neg hterm]
      exact iff_of_false nofun (not_or.mpr ⟨hrange, hterm⟩)

/-- The loop of get and delete is that of search, and refuses another name. -/
theorem foldlM_filterMember {filters : List (String × Json)} {s s' : Condition} :
    filters.foldlM (filterMember overflow) s = some s' ↔
      (∀ p ∈ filters, IsFilterName p) ∧
        filters.foldl (fun s p => (filterMember overflow s p).getD s) s = s' := by
  induction filters generalizing s with
  | nil => exact ⟨fun h => ⟨nofun, Option.some.inj h⟩, fun h => congrArg some h.2⟩
  | cons p filters ih =>
    rw [List.foldlM_cons, List.foldl_cons, List.forall_mem_cons, and_assoc]
    cases hstep : filterMember overflow s p with
    | none =>
      have hname : ¬IsFilterName p := by
        rw [← @isSome_filterMember overflow s p, hstep]
        exact nofun
      exact iff_of_false nofun fun h => hname h.1
    | some next =>
      have hname : IsFilterName p := by
        rw [← @isSome_filterMember overflow s p, hstep]
        rfl
      rw [Option.getD_some, and_iff_right hname]
      exact ih

/-! ### The handlers -/

/-- No filter is right for no well-formed condition. -/
theorem nothing_iff {β : Type} {name : String} {wellFormed : String × Json → Prop}
    {filters : List (String × Json)} {R : String × Json → β → Prop} :
    (∃ l, IsConditions name wellFormed filters l ∧ List.Forall₂ R l []) ↔
      ∀ p ∈ conditions name filters, ¬wellFormed p := by
  constructor
  · rintro ⟨l, ⟨-, hall⟩, hnil⟩ p hp hwf
    cases hnil
    exact absurd ((hall p).mpr ⟨hp, hwf⟩) List.not_mem_nil
  · intro h
    exact ⟨[], ⟨List.nodup_nil, fun p => ⟨nofun, fun hp => absurd hp.2 (h p hp.1)⟩⟩, .nil⟩

/-- What the object has to be like for its filters to be carried: clean range conditions, and no term
condition. -/
def CleanFilters (overflow : ℕ → Float64 → ℤ) (types : Schema) (filters : List (String × Json)) : Prop :=
  Clean overflow types (conditions "range_filters" filters) ∧
    ∀ p ∈ conditions "term_filters" filters, ¬WellFormedTerm types p

/-- What get and delete need besides: only the two names, and without ids some condition that is accepted;
with ids the filters are left out. -/
def KeyedFilters (overflow : ℕ → Float64 → ℤ) (types : Schema) (ids : List Bytes)
    (filters : List (String × Json)) : Prop :=
  (∀ p ∈ filters, IsFilterName p) ∧
    if ids = [] then
      CleanFilters overflow types filters ∧
        ((∃ p ∈ conditions "range_filters" filters, rangeOk p.2 = true) ∨
          ∃ p ∈ conditions "term_filters" filters, termOk p.2 = true)
    else
      (∀ p ∈ conditions "range_filters" filters, ¬WellFormedRange types p) ∧
        ∀ p ∈ conditions "term_filters" filters, ¬WellFormedTerm types p

/-- The same for each handler. -/
def Deliverable (overflow : ℕ → Float64 → ℤ) (types : Schema) (filters : List (String × Json)) :
    Handler → Prop
  | .search => CleanFilters overflow types filters
  | .get ids => KeyedFilters overflow types ids filters
  | .delete ids => KeyedFilters overflow types ids filters

theorem carried_ranged_iff {filters : List (String × Json)} (hmap : IsMap filters) {has : Bool} :
    Carried types filters ⟨ranged overflow (conditions "range_filters" filters), [], has⟩ ↔
      CleanFilters overflow types filters :=
  and_congr (ranged_iff hmap.ranges) nothing_iff

/-- With ids, the filters are left out. -/
theorem sendCondition_ids {ids : List Bytes} (hids : ids ≠ []) {filters : List (String × Json)}
    (s : Condition) : (∃ s', sendCondition ids s = some s' ∧ Carried types filters s') ↔
      (∀ p ∈ conditions "range_filters" filters, ¬WellFormedRange types p) ∧
        ∀ p ∈ conditions "term_filters" filters, ¬WellFormedTerm types p := by
  unfold sendCondition
  rw [if_neg fun h => hids h.1, if_pos hids]
  refine Iff.trans ⟨?_, fun h => ⟨_, rfl, h⟩⟩ (and_congr nothing_iff nothing_iff)
  rintro ⟨s', hs, h⟩
  cases hs
  exact h

/-- Without ids, some filter has to be accepted. -/
theorem sendCondition_nil {filters : List (String × Json)} (s : Condition) :
    (∃ s', sendCondition [] s = some s' ∧ Carried types filters s') ↔
      Carried types filters s ∧ s.hasFilters = true := by
  cases hhas : s.hasFilters with
  | false =>
    have hnone : sendCondition [] s = none := by simp [sendCondition, hhas]
    rw [hnone]
    exact iff_of_false (fun ⟨_, h, _⟩ => nomatch h) fun h => nomatch h.2
  | true =>
    have hsent : sendCondition [] s = some s := by simp [sendCondition, hhas]
    rw [hsent, and_iff_left rfl]
    refine ⟨?_, fun h => ⟨s, rfl, h⟩⟩
    rintro ⟨s', hs, h⟩
    cases hs
    exact h

/-- **Get and delete.** -/
theorem conditionFilters_iff {filters : List (String × Json)} (hmap : IsMap filters) (ids : List Bytes) :
    (∃ s, conditionFilters overflow ids filters = some s ∧ Carried types filters s) ↔
      KeyedFilters overflow types ids filters := by
  have hloop := @foldlM_filterMember overflow filters ⟨[], [], false⟩
  have hsearch := @searchFilters_eq overflow filters hmap.names
  unfold searchFilters at hsearch
  unfold conditionFilters KeyedFilters
  by_cases hnames : ∀ p ∈ filters, IsFilterName p
  · rw [hloop.mpr ⟨hnames, hsearch⟩, and_iff_right hnames, Option.bind_some]
    by_cases hids : ids = []
    · rw [if_pos hids, hids, sendCondition_nil, carried_ranged_iff hmap, Bool.or_eq_true,
        List.any_eq_true, List.any_eq_true]
    · rw [if_neg hids, sendCondition_ids hids]
  · refine iff_of_false ?_ fun h => hnames h.1
    rintro ⟨s, hs, -⟩
    obtain ⟨s', hs', -⟩ := Option.bind_eq_some_iff.mp hs
    exact hnames (hloop.mp hs').1

/-- **The filters are carried** by a handler exactly if they are deliverable. -/
theorem carried_iff {filters : List (String × Json)} (hmap : IsMap filters) (handler : Handler) :
    (∃ s, sentFilters overflow filters handler = some s ∧ Carried types filters s) ↔
      Deliverable overflow types filters handler := by
  cases handler with
  | search =>
    refine Iff.trans ?_ (@carried_ranged_iff overflow types filters hmap
      ((conditions "range_filters" filters).any (fun p => rangeOk p.2) ||
        (conditions "term_filters" filters).any fun p => termOk p.2))
    rw [← searchFilters_eq hmap.names]
    exact ⟨fun ⟨s, hs, h⟩ => by cases hs; exact h, fun h => ⟨_, rfl, h⟩⟩
  | get ids => exact conditionFilters_iff hmap ids
  | delete ids => exact conditionFilters_iff hmap ids

/-- From a number to the same number. -/
def exactly (a : Float64) : Json := .object [("gte", .number a), ("lte", .number a)]

theorem not_both (side : Side) : ¬("gte" ∈ side.keys ∧ "lte" ∈ side.keys) := by
  cases side with
  | lower => decide
  | upper => decide

theorem wellFormed_exactly {types : Schema} {name : String} {type : FieldType} {a : Float64}
    (htype : types name = some type) (hrep : Representable type (.number a)) :
    WellFormedRange types (name, exactly a) := by
  refine ⟨_, type, rfl, htype, nofun, ?_, ?_⟩
  · intro m hm
    rcases List.mem_cons.mp hm with rfl | hm
    · exact ⟨⟨.lower, (by decide : "gte" ∈ Side.lower.keys)⟩, a, rfl, hrep⟩
    · rw [List.mem_singleton.mp hm]
      exact ⟨⟨.upper, (by decide : "lte" ∈ Side.upper.keys)⟩, a, rfl, hrep⟩
  · intro side m hm m' hm' hkey hkey'
    rcases List.mem_cons.mp hm with rfl | hm
    · rcases List.mem_cons.mp hm' with rfl | hm'
      · rfl
      · rw [List.mem_singleton.mp hm'] at hkey'
        exact absurd ⟨hkey, hkey'⟩ (not_both side)
    · rw [List.mem_singleton.mp hm] at hkey ⊢
      rcases List.mem_cons.mp hm' with rfl | hm'
      · exact absurd ⟨hkey', hkey⟩ (not_both side)
      · exact (List.mem_singleton.mp hm').symm

theorem one_price_carried : ∃ s, sentFilters (fun _ _ => 0)
    [("range_filters", .object [("price", exactly half)])] .search = some s ∧
      Carried shop [("range_filters", .object [("price", exactly half)])] s := by
  have hwf : WellFormedRange shop ("price", exactly half) :=
    @wellFormed_exactly shop "price" .float half rfl ⟨_, [], isFloat_half⟩
  have hmap : IsMap [("range_filters", .object [("price", exactly half)])] :=
    ⟨by decide, by decide⟩
  refine (carried_iff hmap .search).mpr ⟨⟨?_, ?_⟩, nofun⟩
  · intro p hp _
    rw [List.mem_singleton.mp hp]
    exact hwf
  · intro p hp _
    rw [List.mem_singleton.mp hp]
    refine ⟨rfl, _, .float, rfl, rfl, ?_⟩
    intro side
    cases side with
    | lower => exact ⟨_, List.mem_cons_self, by decide, half, rfl, .inl isDecimal_half⟩
    | upper =>
      exact ⟨_, List.mem_cons_of_mem _ List.mem_cons_self, by decide, half, rfl, .inl isDecimal_half⟩

/-- Of two conditions, the first gets the name of the second. -/
theorem two_ranges_renamed : ¬∃ s, sentFilters (fun _ _ => 0)
    [("range_filters", .object [("price", exactly half), ("count", exactly five)])] .search = some s ∧
      Carried shop
        [("range_filters", .object [("price", exactly half), ("count", exactly five)])] s := by
  rintro ⟨s, hs, hcarried⟩
  have hwf : WellFormedRange shop ("price", exactly half) :=
    @wellFormed_exactly shop "price" .float half rfl ⟨_, [], isFloat_half⟩
  cases hs
  rw [searchFilters_eq (by decide)] at hcarried
  have hclean := (ranged_iff (by decide)).mp hcarried.1
  have hlast := congrArg (Option.map Prod.fst) (hclean.2 _ List.mem_cons_self hwf).1
  exact absurd hlast (by decide)

end AwaDB.Hub
