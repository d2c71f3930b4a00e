import AwaDB.Table.Table

/-!
# The dynamic columns (`table/docid_fields_mgr.cc`, `table/field_column_data.cc`)

A column that was added after the table was created is not part of the rows. Its values are
appended to a store of its own, and `DocidFieldsMgr` has an entry for each document: the ids of the
fields it was given, and the position of each value in its column.

* `put` replaces the entry of a document; a document that is given no such field has no call;
* `find` searches the ids of an entry, as if they were in order;
* `Own`: each position in an entry leads to a value that the document was given.
-/

namespace AwaDB

/-- The three maps of column data. -/
inductive ColumnKind where
  | fixed
  | str
  | multi
deriving DecidableEq, Repr

/-- Which of the maps has the column of a field of this type; a vector has none. -/
def columnKind : DataType → Option ColumnKind
  | .int => some .fixed
  | .long => some .fixed
  | .float => some .fixed
  | .double => some .fixed
  | .string => some .str
  | .multiString => some .multi
  | .vector => none

/-- What the column's `Put` appends: a fixed-size value is read with the size of the column, the
length of a string is cast to 16 bits. The value of a multi-string is the buffer that `Put` builds
from it, and there is none when it has no strings or one too many or too long. -/
def columnValue (type : DataType) (value : Bytes) : Option (List MemByte) :=
  match columnKind type with
  | some .fixed => some (readMem value (fTypeSize type))
  | some .str => some ((value.take (value.length % 2 ^ 16)).map some)
  | some .multi =>
    if value = [] then none else some ((value.take (value.length % 2 ^ 16)).map some)
  | none => none

/-- `fid_name2id_` and `fid_name2type_` of one name. -/
structure ColumnField where
  id : ℕ
  dataType : DataType
deriving DecidableEq, Repr

/-- `DocidFieldsMgr`: `size` is `size_`, `entries` is `docid_fields_map_`, and `values` are the
stores of the columns. -/
structure DocidFieldsMgr where
  size : ℕ
  fields : String → Option ColumnField
  entries : ℕ → Option (List (ℕ × ℕ))
  values : String → List (List MemByte)

namespace DocidFieldsMgr

/-- A manager in a new directory. -/
def create : DocidFieldsMgr where
  size := 0
  fields := fun _ => none
  entries := fun _ => none
  values := fun _ => []

/-- `DocidFieldsMgr::ContainField`. -/
def containField (m : DocidFieldsMgr) (name : String) : Bool := (m.fields name).isSome

/-- `DocidFieldsMgr::AddField`; the store of the column may be there already. -/
def addField (m : DocidFieldsMgr) (info : FieldInfo) (fid : ℕ) : DocidFieldsMgr :=
  if m.containField info.name then m
  else { m with fields := Function.update m.fields info.name (some ⟨fid, info.dataType⟩) }

/-- The loop of `DocidFieldsMgr::Put`: the columns, and the ids with their positions. A field whose
type belongs to another map than its column meets a null pointer. -/
def putFields (m : DocidFieldsMgr) : List Field → (String → List (List MemByte)) →
    Option ((String → List (List MemByte)) × List (ℕ × ℕ))
  | [], values => some (values, [])
  | field :: fields, values =>
    match m.fields field.name with
    | none => m.putFields fields values
    | some c =>
      match columnKind field.datatype with
      | none => (m.putFields fields values).map fun r => (r.1, (c.id, 0) :: r.2)
      | some kind =>
        if columnKind c.dataType ≠ some kind then none
        else
          let values' := Function.update values field.name
            (values field.name ++ (columnValue c.dataType field.value).toList)
          (m.putFields fields values').map fun r =>
            (r.1, (c.id, (values field.name).length) :: r.2)

/-- `DocidFieldsMgr::Put`. The number of fields is kept in 8 bits. -/
def put (m : DocidFieldsMgr) (docid : ℕ) (fields : List Field) : Option DocidFieldsMgr :=
  (m.putFields fields m.values).map fun r =>
    { m with
      size := m.size + 1
      entries := Function.update m.entries docid (some (r.2.take (r.2.length % 2 ^ 8)))
      values := r.1 }

/-- The loop of `DocidFieldsMgr::Find` on the ids from `first` to `last`. -/
def findFrom (fid : ℕ) (ids : List ℕ) : ℕ → ℕ → ℕ → Option ℕ
  | 0, _, _ => none
  | fuel + 1, first, last =>
    match ids[first]?, ids[last]?, ids[(first + last) / 2]? with
    | some firstValue, some lastValue, some midValue =>
      if firstValue = fid then some first
      else if fid < firstValue then none
      else if lastValue = fid then some last
      else if lastValue < fid then none
      else if midValue = fid then some ((first + last) / 2)
      else
        let first' := if midValue < fid then (first + last) / 2 + 1 else first
        let last' := if midValue < fid then last else (first + last) / 2 - 1
        if first' < last' then findFrom fid ids fuel first' last' else none
    | _, _, _ => none

/-- `DocidFieldsMgr::Find`; each round leaves less of the ids. -/
def find (fid : ℕ) (ids : List ℕ) : Option ℕ := findFrom fid ids ids.length 0 (ids.length - 1)

/-- `DocidFieldsMgr::Get` of one field: `none` for its error codes, and for a position behind the
column. The value of a vector field is left as it was. -/
def get (m : DocidFieldsMgr) (docid : ℕ) (name : String) : Option (List MemByte) :=
  if m.size ≤ docid then none
  else
    (m.entries docid).bind fun entry =>
      (m.fields name).bind fun c =>
        (find c.id (entry.map Prod.fst)).bind fun i =>
          (entry[i]?).bind fun p =>
            if columnKind c.dataType = none then some [] else (m.values name)[p.2]?

/-! ### Searching an entry -/

theorem findFrom_sound {fid i : ℕ} {ids : List ℕ} {fuel first last : ℕ}
    (h : findFrom fid ids fuel first last = some i) : ids[i]? = some fid := by
  induction fuel generalizing first last with
  | zero => cases h
  | succ fuel ih =>
    rw [findFrom] at h
    split at h
    · rename_i firstValue lastValue midValue hfirst hlast hmid
      by_cases hf : firstValue = fid
      · rw [if_pos hf] at h
        rw [← Option.some.inj h, hfirst, hf]
      rw [if_neg hf] at h
      split at h
      · cases h
      by_cases hl : lastValue = fid
      · rw [if_pos hl] at h
        rw [← Option.some.inj h, hlast, hl]
      rw [if_neg hl] at h
      split at h
      · cases h
      by_cases hm : midValue = fid
      · rw [if_pos hm] at h
        rw [← Option.some.inj h, hmid, hm]
      rw [if_neg hm] at h
      dsimp only at h
      split at h
      · split at h
        · exact ih h
        · cases h
      · split at h
        · exact ih h
        · cases h
    · cases h

/-- What `Find` finds is the id it was asked for. -/
theorem find_sound {fid i : ℕ} {ids : List ℕ} (h : find fid ids = some i) : ids[i]? = some fid :=
  findFrom_sound h

/-! ### Whose values an entry leads to -/

/-- The field is of the kind and the size of its column. -/
def Fits (c : ColumnField) (f : Field) : Prop :=
  columnKind c.dataType ≠ none ∧ columnKind f.datatype = columnKind c.dataType ∧
    columnValue c.dataType f.value = some (f.value.map some)

/-- The entry leads to a value of one of the fields. -/
def LeadsTo (m : DocidFieldsMgr) (values : String → List (List MemByte)) (fields : List Field)
    (p : ℕ × ℕ) : Prop :=
  ∃ f ∈ fields, ∃ c, m.fields f.name = some c ∧ c.id = p.1 ∧ columnKind c.dataType ≠ none ∧
    (values f.name)[p.2]? = some (f.value.map some)

/-- The entries from `n` on lead to values that their documents were given. -/
def Own (m : DocidFieldsMgr) (n : ℕ) (given : ℕ → List Field) : Prop :=
  ∀ d, n ≤ d → ∀ entry, m.entries d = some entry → ∀ p ∈ entry, m.LeadsTo m.values (given d) p

/-- No two columns have one id. -/
def Distinct (m : DocidFieldsMgr) : Prop :=
  ∀ a b ca cb, m.fields a = some ca → m.fields b = some cb → ca.id = cb.id → a = b

/-- Every value of `values` is where it was. -/
def Extends (values values' : String → List (List MemByte)) : Prop :=
  ∀ (name : String) (i : ℕ) (v : List MemByte),
    (values name)[i]? = some v → (values' name)[i]? = some v

theorem Extends.refl (values : String → List (List MemByte)) : Extends values values :=
  fun _ _ _ h => h

theorem Extends.trans {v₁ v₂ v₃ : String → List (List MemByte)} (h : Extends v₁ v₂)
    (h' : Extends v₂ v₃) : Extends v₁ v₃ := fun name i v hv => h' name i v (h name i v hv)

theorem extends_append (values : String → List (List MemByte)) (name : String)
    (more : List (List MemByte)) :
    Extends values (Function.update values name (values name ++ more)) := by
  intro name' i v hv
  by_cases heq : name' = name
  · subst heq
    rw [Function.update_self]
    have hlt := (List.getElem?_eq_some_iff.mp hv).1
    rw [List.getElem?_append_left hlt]
    exact hv
  · rw [Function.update_of_ne heq]
    exact hv

theorem LeadsTo.mono {m : DocidFieldsMgr} {values values' : String → List (List MemByte)}
    {fields fields' : List Field} {p : ℕ × ℕ} (h : m.LeadsTo values fields p)
    (hvalues : Extends values values') (hfields : ∀ f ∈ fields, f ∈ fields') :
    m.LeadsTo values' fields' p := by
  obtain ⟨f, hf, c, hc, hid, hkind, hval⟩ := h
  exact ⟨f, hfields f hf, c, hc, hid, hkind, hvalues _ _ _ hval⟩

/-- **What is read was given.** -/
theorem Own.get {m : DocidFieldsMgr} {n : ℕ} {given : ℕ → List Field} (h : m.Own n given)
    (hids : m.Distinct) {d : ℕ} (hd : n ≤ d) {name : String} {v : List MemByte}
    (hget : m.get d name = some v) : ∃ f ∈ given d, f.name = name ∧ v = f.value.map some := by
  rw [DocidFieldsMgr.get] at hget
  split at hget
  · cases hget
  obtain ⟨entry, hentry, hget⟩ := Option.bind_eq_some_iff.mp hget
  obtain ⟨c, hc, hget⟩ := Option.bind_eq_some_iff.mp hget
  obtain ⟨i, hi, hget⟩ := Option.bind_eq_some_iff.mp hget
  obtain ⟨p, hp, hget⟩ := Option.bind_eq_some_iff.mp hget
  have hid : p.1 = c.id := by
    have hfound := find_sound hi
    rw [List.getElem?_map, hp] at hfound
    exact Option.some.inj hfound
  obtain ⟨f, hf, c', hc', hid', hkind, hval⟩ := h d hd entry hentry p (List.mem_of_getElem? hp)
  have hname : f.name = name := hids f.name name c' c hc' hc (hid'.trans hid)
  rw [hname, hc] at hc'
  cases hc'
  rw [if_neg hkind, ← hname, hval] at hget
  exact ⟨f, hf, hname, (Option.some.inj hget).symm⟩

/-! ### Keeping it -/

/-- The loop of `Put` keeps the values that are there, and its entry leads to the new ones. -/
theorem putFields_spec {m : DocidFieldsMgr} {fields : List Field}
    {values : String → List (List MemByte)} {r : (String → List (List MemByte)) × List (ℕ × ℕ)}
    (hfits : ∀ f ∈ fields, ∀ c, m.fields f.name = some c → Fits c f)
    (h : m.putFields fields values = some r) :
    Extends values r.1 ∧ ∀ p ∈ r.2, m.LeadsTo r.1 fields p := by
  induction fields generalizing values r with
  | nil =>
    cases h
    exact ⟨Extends.refl _, fun _ hp => nomatch hp⟩
  | cons f fields ih =>
    have hrest : ∀ g ∈ fields, ∀ c, m.fields g.name = some c → Fits c g :=
      fun g hg => hfits g (List.mem_cons_of_mem f hg)
    have hmono : ∀ {w : String → List (List MemByte)} {p}, m.LeadsTo w fields p →
        m.LeadsTo w (f :: fields) p :=
      fun hp => hp.mono (Extends.refl _) fun g hg => List.mem_cons_of_mem f hg
    rw [putFields] at h
    cases hc : m.fields f.name with
    | none =>
      rw [hc] at h
      obtain ⟨hext, hleads⟩ := ih hrest h
      exact ⟨hext, fun p hp => hmono (hleads p hp)⟩
    | some c =>
      obtain ⟨hcol, hkind, hval⟩ := hfits f List.mem_cons_self c hc
      obtain ⟨kind, hk⟩ := Option.ne_none_iff_exists'.mp hcol
      rw [hc] at h
      dsimp only at h
      rw [hkind, hk] at h
      dsimp only at h
      rw [if_neg (not_not.mpr rfl), hval] at h
      obtain ⟨r', hr', rfl⟩ := Option.map_eq_some_iff.mp h
      obtain ⟨hext, hleads⟩ := ih hrest hr'
      refine ⟨(extends_append values f.name _).trans hext, fun p hp => ?_⟩
      cases List.mem_cons.mp hp with
      | inr hp => exact hmono (hleads p hp)
      | inl heq =>
        subst heq
        refine ⟨f, List.mem_cons_self, c, hc, rfl, hcol, hext _ _ _ ?_⟩
        rw [Function.update_self]
        exact List.getElem?_concat_length

/-- **A put** replaces the entry of one document, and its entry leads to what it was given. -/
theorem Own.put {m m' : DocidFieldsMgr} {n d : ℕ} {given : ℕ → List Field} {fields : List Field}
    (h : m.Own n given) (hput : m.put d fields = some m')
    (hfits : ∀ f ∈ fields, ∀ c, m.fields f.name = some c → Fits c f)
    (hnew : ∀ f ∈ fields, f ∈ given d) : m'.Own n given ∧ m'.fields = m.fields := by
  obtain ⟨r, hr, rfl⟩ := Option.map_eq_some_iff.mp hput
  obtain ⟨hext, hleads⟩ := putFields_spec hfits hr
  refine ⟨fun i hi entry hentry p hp => ?_, rfl⟩
  show m.LeadsTo r.1 (given i) p
  obtain ⟨rfl, hvalues⟩ | ⟨-, hold⟩ := Lib.of_update_eq (f := m.entries) hentry
  · cases hvalues
    exact (hleads p (List.mem_of_mem_take hp)).mono (Extends.refl _) hnew
  · exact (h i hi entry hold p hp).mono hext fun _ hf => hf

theorem Own.mono {m : DocidFieldsMgr} {n : ℕ} {given given' : ℕ → List Field} (h : m.Own n given)
    (hgiven : ∀ d, ∀ f ∈ given d, f ∈ given' d) : m.Own n given' :=
  fun d hd entry hentry p hp => (h d hd entry hentry p hp).mono (Extends.refl _) (hgiven d)

/-- **A new column** under an id that no other one has. -/
theorem Own.addField {m : DocidFieldsMgr} {n : ℕ} {given : ℕ → List Field} (h : m.Own n given)
    (info : FieldInfo) (fid : ℕ) : (m.addField info fid).Own n given := by
  unfold DocidFieldsMgr.addField
  split
  · exact h
  · rename_i hnew
    intro d hd entry hentry p hp
    obtain ⟨f, hf, c, hc, hid, hkind, hval⟩ := h d hd entry hentry p hp
    have hne : f.name ≠ info.name := by
      intro heq
      rw [containField, ← heq, hc] at hnew
      exact hnew rfl
    refine ⟨f, hf, c, ?_, hid, hkind, hval⟩
    show Function.update m.fields info.name _ f.name = some c
    rw [Function.update_of_ne hne, hc]

theorem Distinct.addField {m : DocidFieldsMgr} (h : m.Distinct) {info : FieldInfo} {fid : ℕ}
    (hfid : m.containField info.name = false → ∀ name c, m.fields name = some c → c.id ≠ fid) :
    (m.addField info fid).Distinct := by
  unfold DocidFieldsMgr.addField
  split
  · exact h
  · rename_i hnew
    have hfree := hfid (Bool.eq_false_iff.mpr hnew)
    have hfields : ∀ name c, Function.update m.fields info.name (some ⟨fid, info.dataType⟩) name =
        some c → name = info.name ∧ c.id = fid ∨ name ≠ info.name ∧ m.fields name = some c := by
      intro name c hc
      obtain ⟨heq, hcolumn⟩ | hold := Lib.of_update_eq hc
      · cases hcolumn
        exact .inl ⟨heq, rfl⟩
      · exact .inr hold
    intro a b ca cb ha hb hid
    obtain ⟨rfl, hca⟩ | ⟨-, hca⟩ := hfields a ca ha
    · obtain ⟨rfl, -⟩ | ⟨-, hcb⟩ := hfields b cb hb
      · rfl
      · exact absurd (hid.symm.trans hca) (hfree b cb hcb)
    · obtain ⟨rfl, hcb⟩ | ⟨-, hcb⟩ := hfields b cb hb
      · exact absurd (hid.trans hcb) (hfree a ca hca)
      · exact h a b ca cb hca hcb hid

end DocidFieldsMgr

end AwaDB
