import AwaDB.Client.Awa
import AwaDB.Lib.Lists
import AwaDB.Lib.Run

/-!
# The schema that a client remembers

Types are remembered, and the definition of the table is filled, field by field, before it is known
whether the document passes or the server agrees. A document that fails stops there; what it left in
the client and in the message stays.

* `Agrees`: the definition has each name once, what is remembered was accepted, what was sent is known,
  and what is stored has passed its check;
* `CleanDoc`: a document that leaves no traces. Without a table it fails with its first field, or it
  passes and the server agrees. With a table the server takes its new fields, and it fails before its key;
* `schema_always`: a client agrees with its server in every run of calls with such documents;
* `forgotten_field`: a first document that fails with its second field.
-/

namespace AwaDB.Awa

open Lib

/-- The server has accepted the field with this type. -/
def Server.Has (s : Server) (name : String) (type : DataType) : Prop :=
  ∃ fields, s.fields = some fields ∧ (name, type) ∈ fields

/-- The named fields of a document are fields of the server. -/
def Server.Knows (s : Server) (doc : Document) : Prop :=
  ∀ f ∈ doc.fields, ∀ name, f.name = some name → ∃ type, s.Has name type

/-- **The client's schema is the server's.** -/
structure Agrees (w : World) : Prop where
  once : ∀ fields ∈ w.server.created, (fields.map Meta.name).Nodup
  remembered : ∀ name type, w.client.types name = some type → w.server.Has name type
  known : ∀ d ∈ w.server.sent, w.server.Knows d.1
  whole : ∀ d ∈ w.server.stored, d.2 = true

/-! ### Documents that leave no traces -/

section Clean

variable (accepts : SchemaRequest → Bool) (c : Client)

/-- The fields, when there is a table: one that fails comes before the key, one that cannot be encoded
is not new, and the server takes every new one. -/
def CleanFields (ended : Prop) : List (String × Value) → Option Bytes → Prop
  | [], _ => ended
  | p :: items, id =>
    match c.fieldCheck p.1 p.2 with
    | .error _ => id = none
    | .ok (type, isNew) =>
      match encode type p.2 with
      | none => isNew = false
      | some _ => (isNew = true → accepts (.addFields (metaOf p.1 type p.2)) = true) ∧
          CleanFields ended items (nextId p.1 p.2 id)

/-- The key that a document gets passes the check. -/
def CleanKey (uuid : String) : Prop :=
  match c.fieldCheck "_id" (.str (some uuid)) with
  | .error _ => False
  | .ok (type, isNew) =>
    isNew = true → accepts (.addFields (metaOf "_id" type (.str (some uuid)))) = true

/-- The fields with the key that the document gets. -/
def fullItems (items : List (String × Value)) (uuid : String) : List (String × Value) :=
  if "_id" ∈ items.map Prod.fst then items else items ++ [("_id", .str (some uuid))]

/-- The fields that are new, as they are defined. -/
def newMetas (items : List (String × Value)) : List Meta :=
  items.filterMap fun p =>
    match c.fieldCheck p.1 p.2 with
    | .ok (type, true) => some (metaOf p.1 type p.2)
    | _ => none

/-- The field passes and can be encoded. -/
def Smooth (p : String × Value) : Prop :=
  ∃ type isNew content, c.fieldCheck p.1 p.2 = .ok (type, isNew) ∧ encode type p.2 = some content

/-- A document, when there is no table: it fails with its first field, or it passes, and the server
creates the table and takes the extra fields. -/
def CleanFirst (items : List (String × Value)) (uuid : String) : Prop :=
  (∃ p rest code, items = p :: rest ∧ c.fieldCheck p.1 p.2 = .error code) ∨
    ((∀ p ∈ fullItems items uuid, Smooth c p) ∧
      accepts (.create ((newMetas c (fullItems items uuid)).filter (·.type ≠ .multiString))) = true ∧
      ∀ m ∈ (newMetas c (fullItems items uuid)).filter (·.type = .multiString),
        accepts (.addFields m) = true)

/-- **A document that leaves no traces**, but what it says. -/
def CleanDoc (items : List (String × Value)) (uuid : String) : Prop :=
  if c.check then
    CleanFields accepts c ("_id" ∈ items.map Prod.fst ∨ CleanKey accepts c uuid) items none
  else CleanFirst accepts c items uuid

/-- The documents of a call, each in the state before it. -/
def CleanDocs : List (PyDict × String) → World → Prop
  | [], _ => True
  | d :: ds, w => CleanDoc accepts w.client d.1.items d.2 ∧
      ∀ out w', assembleDoc accepts d.1.items d.2 w = (some out, w') → CleanDocs ds w'

end Clean

def CleanCall (call : AddCall) (w : World) : Prop := CleanDocs call.accepts call.docs w

def addStep (call : AddCall) (w : World) : Option World := some (add call w)

/-! ### The check of a field -/

/-- The clients have the same about a name. -/
def Client.Same (c c' : Client) (name : String) : Prop :=
  c'.check = c.check ∧ c'.types name = c.types name ∧ c'.dims name = c.dims name

theorem Client.Same.fieldCheck {c c' : Client} {name : String} (h : c.Same c' name) (v : Value) :
    c'.fieldCheck name v = c.fieldCheck name v := by
  rw [Client.fieldCheck, Client.fieldCheck, h.1, h.2.1, h.2.2]

/-- A field that passes is remembered with its type, or new. -/
theorem fieldCheck_ok {c : Client} {name : String} {v : Value} {type : DataType} {isNew : Bool}
    (h : c.fieldCheck name v = .ok (type, isNew)) :
    if isNew then c.types name = none ∧ ¬ (c.check = true ∧ type = .vector)
    else c.types name = some type := by
  rw [Client.fieldCheck] at h
  cases hcheck : checkType name v with
  | none => rw [hcheck] at h; cases h
  | some ty =>
    rw [hcheck] at h
    cases htypes : c.types name with
    | none =>
      rw [htypes] at h
      dsimp only at h
      split at h
      · cases h
      · rename_i hnot
        cases h
        exact ⟨rfl, hnot⟩
    | some known =>
      rw [htypes] at h
      dsimp only at h
      split at h
      · rename_i hmulti
        cases h
        rw [hmulti.2]
        rfl
      · split at h
        · cases h
        · rename_i hsame
          split at h
          · cases h
          · cases h
            rw [not_not.mp hsame]
            rfl

/-! ### What the server keeps -/

/-- The server only gains fields, and gets no document in between. -/
structure Grows (s s' : Server) : Prop where
  has : ∀ name type, s.Has name type → s'.Has name type
  sent : s'.sent = s.sent
  stored : s'.stored = s.stored

theorem Grows.refl (s : Server) : Grows s s := ⟨fun _ _ h => h, rfl, rfl⟩

theorem Grows.trans {s₁ s₂ s₃ : Server} (h : Grows s₁ s₂) (h' : Grows s₂ s₃) : Grows s₁ s₃ :=
  ⟨fun name type hhas => h'.has name type (h.has name type hhas), h'.sent.trans h.sent,
    h'.stored.trans h.stored⟩

theorem Grows.knows {s s' : Server} (h : Grows s s') {doc : Document} (hdoc : s.Knows doc) :
    s'.Knows doc := by
  intro f hf name hname
  obtain ⟨type, hhas⟩ := hdoc f hf name hname
  exact ⟨type, h.has name type hhas⟩

variable {accepts : SchemaRequest → Bool}

theorem grows_addFields (s : Server) (field : Meta) :
    Grows s (s.respond accepts (.addFields field)).2 := by
  rw [Server.respond]
  cases hfields : s.fields with
  | none => exact Grows.refl s
  | some fields =>
    dsimp only
    split
    · refine ⟨?_, rfl, rfl⟩
      rintro name type ⟨fields', hfields', hmem⟩
      rw [hfields] at hfields'
      cases hfields'
      exact ⟨_, rfl, List.mem_append_left _ hmem⟩
    · exact Grows.refl s

theorem created_addFields (s : Server) (field : Meta) :
    (s.respond accepts (.addFields field)).2.created = s.created := by
  rw [Server.respond]
  cases s.fields with
  | none => rfl
  | some fields =>
    dsimp only
    split <;> rfl

/-- A field that the server takes. -/
theorem has_addFields {s : Server} {fields : List (String × DataType)} (hfields : s.fields = some fields)
    {field : Meta} (haccepts : accepts (.addFields field) = true) :
    (s.respond accepts (.addFields field)).2.Has field.name field.type := by
  rw [Server.respond, hfields]
  dsimp only
  rw [if_pos haccepts]
  exact ⟨_, rfl, List.mem_append_right _ List.mem_cons_self⟩

theorem Agrees.grows {w : World} (h : Agrees w) {c : Client} {s : Server}
    (hgrows : Grows w.server s)
    (honce : ∀ fields ∈ s.created, (fields.map Meta.name).Nodup)
    (htypes : ∀ name type, c.types name = some type → s.Has name type) : Agrees ⟨c, s⟩ where
  once := honce
  remembered := htypes
  known := by
    rw [hgrows.sent]
    exact fun d hd => hgrows.knows (h.known d hd)
  whole := by
    rw [hgrows.stored]
    exact h.whole

/-! ### A document for a table -/

/-- The client and the server are those of a table that is there. -/
structure Open (w : World) : Prop extends Agrees w where
  check : w.client.check = true
  table : ∃ fields, w.server.fields = some fields

theorem Server.Has.table {s : Server} {name : String} {type : DataType} (h : s.Has name type) :
    ∃ fields, s.fields = some fields := by
  obtain ⟨fields, hfields, -⟩ := h
  exact ⟨fields, hfields⟩

/-- What a field leaves alone. -/
theorem same_putField (w : World) (name : String) (type : DataType) (isNew : Bool) (v : Value)
    {other : String} (hne : other ≠ name) :
    w.client.Same (w.putField accepts name type isNew v).client other := by
  have hremember : w.client.Same (w.client.remember name type isNew) other := by
    rw [Client.remember]
    split
    · exact ⟨rfl, Function.update_of_ne hne _ _, rfl⟩
    · exact ⟨rfl, rfl, rfl⟩
  have hadd : ∀ (w : World) field, w.client.Same (w.addField accepts field isNew).client other := by
    intro w field
    rw [World.addField]
    split
    · split <;> exact ⟨rfl, rfl, rfl⟩
    · split <;> exact ⟨rfl, rfl, rfl⟩
  have hdim : ∀ c : Client, c.Same (c.setDim name type v) other := by
    intro c
    rw [Client.setDim]
    split
    · exact ⟨rfl, rfl, Function.update_of_ne hne _ _⟩
    · exact ⟨rfl, rfl, rfl⟩
  have htrans : ∀ {c₁ c₂ c₃ : Client}, c₁.Same c₂ other → c₂.Same c₃ other → c₁.Same c₃ other :=
    fun h h' => ⟨h'.1.trans h.1, h'.2.1.trans h.2.1, h'.2.2.trans h.2.2⟩
  exact htrans (htrans hremember (hadd _ _)) (hdim _)

/-- **A field that passes** with a table: the server has it afterwards. -/
theorem Open.putField {w : World} (h : Open w) {name : String} {v : Value} {type : DataType}
    {isNew : Bool} (hcheck : w.client.fieldCheck name v = .ok (type, isNew))
    (haccepts : isNew = true → accepts (.addFields (metaOf name type v)) = true) :
    Open (w.putField accepts name type isNew v) ∧
      Grows w.server (w.putField accepts name type isNew v).server ∧
      (w.putField accepts name type isNew v).server.Has name type := by
  obtain ⟨fields, hfields⟩ := h.table
  have hok := fieldCheck_ok hcheck
  have hdims : ∀ c : Client, (c.setDim name type v).types = c.types ∧
      (c.setDim name type v).check = c.check := by
    intro c
    rw [Client.setDim]
    split <;> exact ⟨rfl, rfl⟩
  cases isNew with
  | false =>
    have hput : w.putField accepts name type false v =
        { w with client := w.client.setDim name type v } := by
      simp [World.putField, World.addField, Client.remember, h.check]
    rw [hput]
    refine ⟨⟨h.toAgrees.grows (Grows.refl _) h.once ?_, ?_, h.table⟩, Grows.refl _,
      h.remembered name type hok⟩
    · rw [(hdims _).1]
      exact h.remembered
    · exact (hdims _).2.trans h.check
  | true =>
    obtain ⟨-, hvector⟩ := hok
    have hne : type ≠ .vector := fun heq => hvector ⟨h.check, heq⟩
    have hput : w.putField accepts name type true v =
        ⟨w.client.remember name type true,
          (w.server.respond accepts (.addFields (metaOf name type v))).2⟩ := by
      simp [World.putField, World.addField, Client.remember, Client.setDim, h.check, hne, metaOf]
    have hgrows : Grows w.server (w.server.respond accepts (.addFields (metaOf name type v))).2 :=
      grows_addFields _ _
    have hhas := has_addFields hfields (haccepts rfl)
    rw [hput]
    have honce : ∀ fields ∈ (w.server.respond accepts (.addFields (metaOf name type v))).2.created,
        (fields.map Meta.name).Nodup := by
      rw [created_addFields]
      exact h.once
    refine ⟨⟨h.toAgrees.grows hgrows honce fun other ty hother => ?_, h.check, hhas.table⟩,
      hgrows, hhas⟩
    obtain ⟨rfl, htype⟩ | ⟨-, hold⟩ := of_update_eq (f := w.client.types) hother
    · cases htype
      exact hhas
    · exact hgrows.has other ty (h.remembered other ty hold)

theorem Server.Knows.concat {s : Server} {doc : Document} (h : s.Knows doc) {f : PbField}
    (hf : ∀ name, f.name = some name → ∃ type, s.Has name type) (id : Option Bytes) :
    s.Knows ⟨id, doc.fields ++ [f]⟩ := by
  intro g hg name hname
  rcases List.mem_append.mp hg with hg | hg
  · exact h g hg name hname
  · rw [List.mem_singleton.mp hg] at hname
    exact hf name hname

theorem Client.Same.trans {c₁ c₂ c₃ : Client} {name : String} (h : c₁.Same c₂ name)
    (h' : c₂.Same c₃ name) : c₁.Same c₃ name :=
  ⟨h'.1.trans h.1, h'.2.1.trans h.2.1, h'.2.2.trans h.2.2⟩

/-- What the loop over the fields of a clean document comes to, when there is a table. -/
structure Assembled (ended : Prop) (items : List (String × Value)) (w : World)
    (r : Option (Bool × Document) × World) : Prop where
  isOpen : Open r.2
  grows : Grows w.server r.2.server
  same : ∀ name, name ∉ items.map Prod.fst → w.client.Same r.2.client name
  out : ∀ out, r.1 = some out → r.2.server.Knows out.2 ∧ (out.1 = false → out.2.id = none) ∧
    (out.1 = true → ended)

theorem assembleFields_open {c : Client} {ended : Prop} {items : List (String × Value)}
    {doc : Document} {w : World} (h : Open w) (hnodup : (items.map Prod.fst).Nodup)
    (hsame : ∀ p ∈ items, c.Same w.client p.1) (hdoc : w.server.Knows doc)
    (hclean : CleanFields accepts c ended items doc.id) :
    Assembled ended items w (assembleFields accepts items doc w) := by
  induction items generalizing doc w with
  | nil =>
    refine ⟨h, Grows.refl _, fun _ _ => ⟨rfl, rfl, rfl⟩, fun out hout => ?_⟩
    cases hout
    exact ⟨hdoc, fun hfalse => (Bool.noConfusion hfalse), fun _ => hclean⟩
  | cons p items ih =>
    obtain ⟨hnot, hnodup⟩ := List.nodup_cons.mp hnodup
    have hcheck := (hsame p List.mem_cons_self).fieldCheck p.2
    rw [CleanFields] at hclean
    rw [assembleFields, World.checkAddField]
    cases hresult : c.fieldCheck p.1 p.2 with
    | error code =>
      rw [hresult] at hcheck hclean
      rw [hcheck]
      refine ⟨h, Grows.refl _, fun _ _ => ⟨rfl, rfl, rfl⟩, fun out hout => ?_⟩
      cases hout
      refine ⟨hdoc.concat (fun name hname => ?_) _, fun _ => hclean,
        fun htrue => Bool.noConfusion htrue⟩
      cases hname
    | ok found =>
      obtain ⟨type, isNew⟩ := found
      rw [hresult] at hcheck hclean
      rw [hcheck]
      cases hencode : encode type p.2 with
      | none =>
        -- the call is given up, and the field was remembered before
        dsimp only at hclean ⊢
        rw [hencode] at hclean ⊢
        dsimp only at hclean
        subst hclean
        exact ⟨h, Grows.refl _, fun _ _ => ⟨rfl, rfl, rfl⟩, fun out hout => by cases hout⟩
      | some content =>
        dsimp only at hclean ⊢
        rw [hencode] at hclean ⊢
        obtain ⟨haccepts, hclean⟩ := hclean
        obtain ⟨hopen, hgrows, hhas⟩ := h.putField hcheck haccepts
        have hkeep : ∀ name, name ≠ p.1 →
            w.client.Same (w.putField accepts p.1 type isNew p.2).client name :=
          fun name hne => same_putField w p.1 type isNew p.2 hne
        have hrest : ∀ q ∈ items, c.Same (w.putField accepts p.1 type isNew p.2).client q.1 := by
          intro q hq
          refine (hsame q (List.mem_cons_of_mem p hq)).trans (hkeep q.1 fun heq => hnot ?_)
          rw [← heq]
          exact List.mem_map_of_mem hq
        have hfield : (w.putField accepts p.1 type isNew p.2).server.Knows
            ⟨nextId p.1 p.2 doc.id, doc.fields ++ [⟨some p.1, content.1, some type, content.2⟩]⟩ := by
          refine Server.Knows.concat (hgrows.knows hdoc) (fun name hname => ?_) _
          cases hname
          exact ⟨type, hhas⟩
        have hloop := ih hopen hnodup hrest hfield hclean
        refine ⟨hloop.isOpen, hgrows.trans hloop.grows, fun name hname => ?_, hloop.out⟩
        rw [List.map_cons, List.mem_cons, not_or] at hname
        exact (hkeep name hname.1).trans (hloop.same name hname.2)

/-- A string can be encoded as what it passes for. -/
theorem encode_str {c : Client} {name text : String} {type : DataType} {isNew : Bool}
    (h : c.fieldCheck name (.str (some text)) = .ok (type, isNew)) :
    ∃ content, encode type (.str (some text)) = some content := by
  have htype : checkType name (.str (some text)) = some .string := by
    rw [checkType, if_neg (fun hint => by cases hint.2)]
    rfl
  rw [Client.fieldCheck, htype] at h
  dsimp only at h
  cases htypes : c.types name with
  | none =>
    rw [htypes] at h
    dsimp only at h
    rw [if_neg (fun hvector => by cases hvector.2)] at h
    cases h
    exact ⟨_, rfl⟩
  | some known =>
    rw [htypes] at h
    dsimp only at h
    split at h
    · cases h
      exact ⟨_, rfl⟩
    · split at h
      · cases h
      · split at h
        · cases h
        · cases h
          exact ⟨_, rfl⟩

/-- What a clean document comes to. -/
structure Taken (w : World) (r : Option (Bool × Document) × World) : Prop where
  grows : Grows w.server r.2.server
  out : ∀ out, r.1 = some out → r.2.server.Knows out.2 ∧ (out.1 = false → out.2.id = none)

theorem Open.create {w : World} (h : Open w) : w.create accepts = w := by
  rw [World.create, if_pos h.check]

theorem assembleDoc_open {items : List (String × Value)} {uuid : String} {w : World} (h : Open w)
    (hnodup : (items.map Prod.fst).Nodup)
    (hclean : CleanFields accepts w.client
      ("_id" ∈ items.map Prod.fst ∨ CleanKey accepts w.client uuid) items none) :
    Open (assembleDoc accepts items uuid w).2 ∧ Taken w (assembleDoc accepts items uuid w) := by
  have hempty : w.server.Knows ⟨none, []⟩ := fun f hf => by cases hf
  have hfields := assembleFields_open h hnodup (fun _ _ => ⟨rfl, rfl, rfl⟩) hempty hclean
  rw [assembleDoc]
  rcases hresult : assembleFields accepts items ⟨none, []⟩ w with ⟨_ | ⟨passed, doc⟩, w'⟩
  · rw [hresult] at hfields
    exact ⟨hfields.isOpen, hfields.grows, fun out hout => by cases hout⟩
  · rw [hresult] at hfields
    obtain ⟨hknows, hfalse, htrue⟩ := hfields.out _ rfl
    cases passed with
    | false =>
      refine ⟨hfields.isOpen, hfields.grows, fun out hout => ?_⟩
      cases hout
      exact ⟨hknows, hfalse⟩
    | true =>
      dsimp only
      by_cases hid : "_id" ∈ items.map Prod.fst
      · rw [if_pos hid, hfields.isOpen.create]
        refine ⟨hfields.isOpen, hfields.grows, fun out hout => ?_⟩
        cases hout
        exact ⟨hknows, fun hno => Bool.noConfusion hno⟩
      · rw [if_neg hid]
        have hkey := (htrue rfl).resolve_left hid
        have hcheck := (hfields.same "_id" hid).fieldCheck (.str (some uuid))
        rw [addDefaultKey, World.checkAddField]
        rw [CleanKey] at hkey
        cases hfound : w.client.fieldCheck "_id" (.str (some uuid)) with
        | error code =>
          rw [hfound] at hkey
          exact hkey.elim
        | ok found =>
          obtain ⟨type, isNew⟩ := found
          rw [hfound] at hkey hcheck
          obtain ⟨content, hcontent⟩ := encode_str hfound
          obtain ⟨hopen, hgrows, hhas⟩ := hfields.isOpen.putField hcheck hkey
          rw [show w'.client.fieldCheck "_id" (.str (some uuid)) = _ from hcheck]
          dsimp only
          rw [hcontent]
          dsimp only
          rw [hopen.create]
          refine ⟨hopen, hfields.grows.trans hgrows, fun out hout => ?_⟩
          cases hout
          refine ⟨(hgrows.knows hknows).concat (fun name hname => ?_) _,
            fun hno => Bool.noConfusion hno⟩
          cases hname
          exact ⟨type, hhas⟩

/-! ### The document that creates the table -/

/-- The client has a definition of these fields for a table that is not there. -/
structure Pending (done : List (String × Value)) (w : World) : Prop where
  check : w.client.check = false
  attr : w.client.attr = (newMetas Client.new done).filter (·.type ≠ .multiString)
  extra : w.client.extra = (newMetas Client.new done).filter (·.type = .multiString)
  types : ∀ name type, w.client.types name = some type →
    ∃ m ∈ newMetas Client.new done, m.name = name ∧ m.type = type
  other : ∀ name, name ∉ done.map Prod.fst → Client.new.Same w.client name

/-- The named fields of a document are among the names. -/
def Named (doc : Document) (names : List String) : Prop :=
  ∀ f ∈ doc.fields, ∀ name, f.name = some name → name ∈ names

theorem newMetas_concat {c : Client} {done : List (String × Value)} {p : String × Value}
    {type : DataType} (h : c.fieldCheck p.1 p.2 = .ok (type, true)) :
    newMetas c (done ++ [p]) = newMetas c done ++ [metaOf p.1 type p.2] := by
  rw [newMetas, List.filterMap_append]
  simp [newMetas, h]

/-- Every field is new to a new client. -/
theorem isNew_of_new {name : String} {v : Value} {type : DataType} {isNew : Bool}
    (h : Client.new.fieldCheck name v = .ok (type, isNew)) : isNew = true := by
  cases isNew with
  | true => rfl
  | false => cases fieldCheck_ok h

/-- The names of the fields that are new are those of the fields. -/
theorem newMetas_names {c : Client} {items : List (String × Value)}
    (h : ∀ p ∈ items, ∃ type, c.fieldCheck p.1 p.2 = .ok (type, true)) :
    (newMetas c items).map Meta.name = items.map Prod.fst := by
  induction items with
  | nil => rfl
  | cons p items ih =>
    obtain ⟨type, hp⟩ := h p List.mem_cons_self
    have hrest := ih fun q hq => h q (List.mem_cons_of_mem p hq)
    have hcons : newMetas c (p :: items) = metaOf p.1 type p.2 :: newMetas c items := by
      rw [newMetas, List.filterMap_cons, hp]
      rfl
    rw [hcons, List.map_cons, List.map_cons, hrest]
    rfl

/-- A new field, as long as there is no table. -/
theorem putField_first {w : World} (h : w.client.check = false) (name : String) (type : DataType)
    (v : Value) : w.putField accepts name type true v =
      ⟨{ check := false
         types := Function.update w.client.types name (some type)
         dims := if type = .vector then Function.update w.client.dims name (some (dim v))
           else w.client.dims
         attr := w.client.attr ++ [metaOf name type v].filter (·.type ≠ .multiString)
         extra := w.client.extra ++ [metaOf name type v].filter (·.type = .multiString) }, w.server⟩ := by
  by_cases hmulti : type = .multiString
  · simp [World.putField, World.addField, Client.remember, Client.setDim, metaOf, h, hmulti]
  · by_cases hvector : type = .vector <;>
      simp [World.putField, World.addField, Client.remember, Client.setDim, metaOf, h, hmulti, hvector]

theorem Pending.putField {done : List (String × Value)} {w : World} (h : Pending done w)
    {p : String × Value} {type : DataType}
    (hcheck : Client.new.fieldCheck p.1 p.2 = .ok (type, true)) :
    Pending (done ++ [p]) (w.putField accepts p.1 type true p.2) ∧
      (w.putField accepts p.1 type true p.2).server = w.server := by
  have hmetas : newMetas Client.new (done ++ [p]) =
      newMetas Client.new done ++ [metaOf p.1 type p.2] := newMetas_concat hcheck
  have hother : ∀ other, other ≠ p.1 →
      w.client.Same (w.putField accepts p.1 type true p.2).client other := fun other hne =>
    same_putField w p.1 type true p.2 hne
  rw [putField_first h.check] at hother ⊢
  refine ⟨⟨rfl, ?_, ?_, fun name ty hname => ?_, fun name hname => ?_⟩, rfl⟩
  · rw [hmetas, List.filter_append, ← h.attr]
  · rw [hmetas, List.filter_append, ← h.extra]
  · rw [hmetas]
    obtain ⟨rfl, htype⟩ | ⟨-, hold⟩ := of_update_eq (f := w.client.types) hname
    · cases htype
      exact ⟨_, List.mem_append_right _ List.mem_cons_self, rfl, rfl⟩
    · obtain ⟨m, hm, hsame⟩ := h.types name ty hold
      exact ⟨m, List.mem_append_left _ hm, hsame⟩
  · rw [List.map_append, List.mem_append, not_or] at hname
    refine (h.other name hname.1).trans (hother name fun heq => hname.2 ?_)
    rw [heq]
    exact List.mem_cons_self

theorem assembleFields_pending {items done : List (String × Value)} {doc : Document} {w : World}
    (h : Pending done w) (hnodup : ((done ++ items).map Prod.fst).Nodup)
    (hsmooth : ∀ p ∈ items, Smooth Client.new p) (hdoc : Named doc (done.map Prod.fst)) :
    ∃ doc' w', assembleFields accepts items doc w = (some (true, doc'), w') ∧
      Pending (done ++ items) w' ∧ w'.server = w.server ∧ Named doc' ((done ++ items).map Prod.fst) := by
  induction items generalizing done doc w with
  | nil => exact ⟨doc, w, rfl, by rwa [List.append_nil], rfl, by rwa [List.append_nil]⟩
  | cons p items ih =>
    obtain ⟨type, isNew, content, hcheck, hencode⟩ := hsmooth p List.mem_cons_self
    have hnew := isNew_of_new hcheck
    subst hnew
    have hp : p.1 ∉ done.map Prod.fst := by
      intro hmem
      rw [List.map_append, List.map_cons] at hnodup
      exact (List.nodup_append.mp hnodup).2.2 p.1 hmem p.1 List.mem_cons_self rfl
    obtain ⟨hpending, hserver⟩ : Pending (done ++ [p]) (w.putField accepts p.1 type true p.2) ∧
        (w.putField accepts p.1 type true p.2).server = w.server := h.putField hcheck
    have hnodup' : (((done ++ [p]) ++ items).map Prod.fst).Nodup := by
      rwa [List.append_assoc, List.singleton_append]
    have hdoc' : Named ⟨nextId p.1 p.2 doc.id, doc.fields ++
        [⟨some p.1, content.1, some type, content.2⟩]⟩ ((done ++ [p]).map Prod.fst) := by
      intro f hf name hname
      rw [List.map_append, List.mem_append]
      rcases List.mem_append.mp hf with hf | hf
      · exact .inl (hdoc f hf name hname)
      · rw [List.mem_singleton.mp hf] at hname
        cases hname
        exact .inr List.mem_cons_self
    obtain ⟨doc', w', hloop, hend, hsame, hnamed⟩ := ih hpending hnodup'
      (fun q hq => hsmooth q (List.mem_cons_of_mem p hq)) hdoc'
    rw [List.append_assoc, List.singleton_append] at hend hnamed
    refine ⟨doc', w', ?_, hend, hsame.trans hserver, hnamed⟩
    rw [assembleFields, World.checkAddField, (h.other p.1 hp).fieldCheck, hcheck]
    dsimp only
    rw [hencode]
    exact hloop

/-! ### `Create` -/

theorem addExtras_eq {fields : List (String × DataType)} {metas : List Meta} {s : Server}
    (hfields : s.fields = some fields) (haccepts : ∀ m ∈ metas, accepts (.addFields m) = true) :
    addExtras accepts metas s =
      (true, { s with fields := some (fields ++ metas.map fun m => (m.name, m.type)) }) := by
  induction metas generalizing fields s with
  | nil =>
    rw [addExtras, List.map_nil, List.append_nil, ← hfields]
  | cons m metas ih =>
    have hanswer : s.respond accepts (.addFields m) =
        (true, { s with fields := some (fields ++ [(m.name, m.type)]) }) := by
      rw [Server.respond, hfields]
      dsimp only
      rw [if_pos (haccepts m List.mem_cons_self)]
    rw [addExtras, hanswer]
    dsimp only
    rw [if_pos rfl, ih rfl fun m' hm' => haccepts m' (List.mem_cons_of_mem m hm'), List.map_cons,
      List.append_assoc, List.singleton_append]

/-- **The table is created** with the fields of the document. -/
theorem Pending.create {items : List (String × Value)} {w w₀ : World} (h : Pending items w)
    (hagrees : Agrees w₀) (hserver : w.server = w₀.server) (hempty : w₀.server.fields = none)
    (hnodup : (items.map Prod.fst).Nodup)
    (hsmooth : ∀ p ∈ items, Smooth Client.new p)
    (hcreate : accepts (.create ((newMetas Client.new items).filter (·.type ≠ .multiString))) = true)
    (hextra : ∀ m ∈ (newMetas Client.new items).filter (·.type = .multiString),
      accepts (.addFields m) = true) :
    Open (w.create accepts) ∧ Grows w₀.server (w.create accepts).server ∧
      ∀ name ∈ items.map Prod.fst, ∃ type, (w.create accepts).server.Has name type := by
  rw [← h.attr] at hcreate
  rw [← h.extra] at hextra
  have hnames : (newMetas Client.new items).map Meta.name = items.map Prod.fst := by
    refine newMetas_names fun p hp => ?_
    obtain ⟨type, isNew, content, hcheck, -⟩ := hsmooth p hp
    rw [isNew_of_new hcheck] at hcheck
    exact ⟨type, hcheck⟩
  have hresult : w.create accepts = ⟨{ w.client with check := true },
      { w₀.server with
        created := w₀.server.created ++ [w.client.attr]
        fields := some ((w.client.attr.map fun m => (m.name, m.type)) ++
          w.client.extra.map fun m => (m.name, m.type)) }⟩ := by
    have hanswer : w.server.respond accepts (.create w.client.attr) =
        (true, { w₀.server with
          created := w₀.server.created ++ [w.client.attr]
          fields := some (w.client.attr.map fun m => (m.name, m.type)) }) := by
      rw [Server.respond, hserver]
      exact if_pos ⟨hempty, hcreate⟩
    have hfirst : ¬ w.client.check = true := by
      rw [h.check]
      exact Bool.false_ne_true
    rw [World.create, if_neg hfirst, hanswer]
    dsimp only
    rw [if_pos rfl, addExtras_eq rfl hextra]
  have hhas : ∀ m ∈ newMetas Client.new items, (w.create accepts).server.Has m.name m.type := by
    intro m hm
    rw [hresult]
    refine ⟨_, rfl, List.mem_append.mpr ?_⟩
    by_cases hmulti : m.type = .multiString
    · refine .inr (List.mem_map.mpr ⟨m, ?_, rfl⟩)
      rw [h.extra]
      exact List.mem_filter.mpr ⟨hm, by simpa using hmulti⟩
    · refine .inl (List.mem_map.mpr ⟨m, ?_, rfl⟩)
      rw [h.attr]
      exact List.mem_filter.mpr ⟨hm, by simpa using hmulti⟩
  have hgrows : Grows w₀.server (w.create accepts).server := by
    refine ⟨?_, by rw [hresult], by rw [hresult]⟩
    rintro name type ⟨fields, hfields, -⟩
    rw [hempty] at hfields
    cases hfields
  have honce : ∀ fields ∈ (w.create accepts).server.created, (fields.map Meta.name).Nodup := by
    rw [hresult]
    intro fields hmem
    rcases List.mem_append.mp hmem with hmem | hmem
    · exact hagrees.once fields hmem
    · rw [List.mem_singleton.mp hmem, h.attr]
      have hsub := (List.filter_sublist (l := newMetas Client.new items)
        (p := fun m => decide (m.type ≠ .multiString))).map Meta.name
      exact hsub.nodup (hnames ▸ hnodup)
  have htypes : ∀ name type, (w.create accepts).client.types name = some type →
      (w.create accepts).server.Has name type := by
    intro name type hname
    rw [show (w.create accepts).client.types = w.client.types by rw [hresult]] at hname
    obtain ⟨m, hm, rfl, rfl⟩ := h.types name type hname
    exact hhas m hm
  refine ⟨⟨hagrees.grows hgrows honce htypes, by rw [hresult], by rw [hresult]; exact ⟨_, rfl⟩⟩,
    hgrows, fun name hname => ?_⟩
  rw [← hnames] at hname
  obtain ⟨m, hm, rfl⟩ := List.mem_map.mp hname
  exact ⟨m.type, hhas m hm⟩

/-- The client and the server before there is a table. -/
structure Before (w : World) : Prop extends Agrees w where
  client : w.client = Client.new
  table : w.server.fields = none

theorem pending_new {w : World} (h : w.client = Client.new) : Pending [] w := by
  refine ⟨by rw [h]; rfl, by rw [h]; rfl, by rw [h]; rfl, fun name type hname => ?_, fun name _ => ?_⟩
  · rw [h] at hname
    cases hname
  · rw [h]
    exact ⟨rfl, rfl, rfl⟩

/-- **The first documents**: nothing happens, or the table is created. -/
theorem assembleDoc_before {items : List (String × Value)} {uuid : String} {w : World} (h : Before w)
    (hnodup : (items.map Prod.fst).Nodup) (hclean : CleanFirst accepts Client.new items uuid) :
    (Before (assembleDoc accepts items uuid w).2 ∨ Open (assembleDoc accepts items uuid w).2) ∧
      Taken w (assembleDoc accepts items uuid w) := by
  rcases hclean with ⟨p, rest, code, rfl, hfails⟩ | ⟨hsmooth, hcreate, hextra⟩
  · have hresult : assembleDoc accepts (p :: rest) uuid w =
        (some (false, ⟨none, [PbField.new]⟩), w) := by
      rw [assembleDoc, assembleFields, World.checkAddField, h.client, hfails]
      rfl
    rw [hresult]
    refine ⟨.inl h, Grows.refl _, fun out hout => ?_⟩
    cases hout
    refine ⟨fun f hf name hname => ?_, fun _ => rfl⟩
    rw [List.mem_singleton.mp hf] at hname
    cases hname
  · have hfull : ((fullItems items uuid).map Prod.fst).Nodup := by
      rw [fullItems]
      split
      · exact hnodup
      · rename_i hid
        rw [List.map_append]
        refine List.nodup_append.mpr ⟨hnodup, List.nodup_singleton _, fun name hname other hother => ?_⟩
        rintro rfl
        rw [List.mem_singleton.mp hother] at hname
        exact hid hname
    -- the document passes, and the fields are those with its key
    obtain ⟨doc, w', hresult, hpending, hserver, hnamed⟩ : ∃ doc w',
        assembleDoc accepts items uuid w = (some (true, doc), w'.create accepts) ∧
          Pending (fullItems items uuid) w' ∧ w'.server = w.server ∧
          Named doc ((fullItems items uuid).map Prod.fst) := by
      have hitems : ∀ p ∈ items, Smooth Client.new p := by
        intro p hp
        apply hsmooth p
        rw [fullItems]
        split
        · exact hp
        · exact List.mem_append_left _ hp
      have hempty : Named ⟨none, []⟩ [] := fun f hf => by cases hf
      obtain ⟨doc, w', hloop, hpending, hserver, hnamed⟩ : ∃ doc' w',
          assembleFields accepts items ⟨none, []⟩ w = (some (true, doc'), w') ∧ Pending items w' ∧
            w'.server = w.server ∧ Named doc' (items.map Prod.fst) :=
        assembleFields_pending (pending_new h.client) hnodup hitems hempty
      rw [assembleDoc, hloop]
      dsimp only
      by_cases hid : "_id" ∈ items.map Prod.fst
      · rw [if_pos hid, fullItems, if_pos hid]
        exact ⟨doc, w', rfl, hpending, hserver, hnamed⟩
      · rw [fullItems, if_neg hid] at hsmooth
        rw [if_neg hid, fullItems, if_neg hid, addDefaultKey, World.checkAddField,
          (hpending.other "_id" hid).fieldCheck]
        obtain ⟨type, isNew, content, hcheck, hencode⟩ :=
          hsmooth ("_id", .str (some uuid)) (List.mem_append_right _ List.mem_cons_self)
        have hnew := isNew_of_new hcheck
        subst hnew
        have hstep : Pending (items ++ [("_id", .str (some uuid))])
            (w'.putField accepts "_id" type true (.str (some uuid))) ∧
            (w'.putField accepts "_id" type true (.str (some uuid))).server = w'.server :=
          hpending.putField hcheck
        obtain ⟨hpending', hserver'⟩ := hstep
        rw [show Client.new.fieldCheck "_id" (.str (some uuid)) = _ from hcheck]
        dsimp only
        rw [show encode type (.str (some uuid)) = _ from hencode]
        refine ⟨_, _, rfl, hpending', hserver'.trans hserver, fun f hf name hname => ?_⟩
        rw [List.map_append, List.mem_append]
        rcases List.mem_append.mp hf with hf | hf
        · exact .inl (hnamed f hf name hname)
        · rw [List.mem_singleton.mp hf] at hname
          cases hname
          exact .inr List.mem_cons_self
    obtain ⟨hopen, hgrows, hhas⟩ :=
      hpending.create h.toAgrees hserver h.table hfull hsmooth hcreate hextra
    rw [hresult]
    refine ⟨.inr hopen, hgrows, fun out hout => ?_⟩
    cases hout
    exact ⟨fun f hf name hname => hhas name (hnamed f hf name hname), fun hno => Bool.noConfusion hno⟩

/-! ### Calls -/

/-- What holds between the documents of a call. -/
def Inv (w : World) : Prop := Before w ∨ Open w

theorem Inv.agrees {w : World} (h : Inv w) : Agrees w := by
  rcases h with h | h
  · exact h.toAgrees
  · exact h.toAgrees

theorem assembleDoc_clean {d : PyDict} {uuid : String} {w : World} (h : Inv w)
    (hclean : CleanDoc accepts w.client d.items uuid) :
    Inv (assembleDoc accepts d.items uuid w).2 ∧ Taken w (assembleDoc accepts d.items uuid w) := by
  rcases h with h | h
  · rw [CleanDoc, h.client, if_neg (by exact Bool.false_ne_true)] at hclean
    exact assembleDoc_before h d.nodup hclean
  · rw [CleanDoc, if_pos h.check] at hclean
    obtain ⟨hopen, htaken⟩ := assembleDoc_open h d.nodup hclean
    exact ⟨.inr hopen, htaken⟩

/-- The documents that a call has so far. -/
def Good (s : Server) (docs : List (Document × Bool)) : Prop :=
  ∀ d ∈ docs, s.Knows d.1 ∧ (d.2 = false → d.1.id = none)

theorem assembleDocs_clean {ds : List (PyDict × String)} {docs : List (Document × Bool)} {w : World}
    (h : Inv w) (hdocs : Good w.server docs) (hclean : CleanDocs accepts ds w) :
    Inv (assembleDocs accepts ds docs w).2 ∧
      ∀ out, (assembleDocs accepts ds docs w).1 = some out →
        Good (assembleDocs accepts ds docs w).2.server out := by
  induction ds generalizing docs w with
  | nil =>
    refine ⟨h, fun out hout => ?_⟩
    cases hout
    exact hdocs
  | cons d ds ih =>
    obtain ⟨hfirst, hrest⟩ := hclean
    obtain ⟨hinv, htaken⟩ := assembleDoc_clean h hfirst
    rw [assembleDocs]
    rcases hresult : assembleDoc accepts d.1.items d.2 w with ⟨_ | out, w'⟩
    · rw [hresult] at hinv
      exact ⟨hinv, fun out hout => by cases hout⟩
    · rw [hresult] at hinv htaken
      refine ih hinv (fun d' hd' => ?_) (hrest out w' hresult)
      rcases List.mem_append.mp hd' with hd' | hd'
      · exact ⟨htaken.grows.knows (hdocs d' hd').1, (hdocs d' hd').2⟩
      · rw [List.mem_singleton.mp hd']
        exact htaken.out out rfl

theorem Agrees.store {w : World} (h : Agrees w) {docs : List (Document × Bool)}
    (hdocs : Good w.server docs) : Agrees { w with server := w.server.store docs } where
  once := h.once
  remembered := h.remembered
  known := by
    intro d hd
    rcases List.mem_append.mp hd with hd | hd
    · exact h.known d hd
    · exact (hdocs d hd).1
  whole := by
    intro d hd
    have hmem : d ∈ w.server.stored ∨ d ∈ docs.filter fun d => d.1.id.isSome := by
      rw [Server.store] at hd
      dsimp only at hd
      split at hd
      · exact .inl hd
      · exact List.mem_append.mp hd
    rcases hmem with hd | hd
    · exact h.whole d hd
    · obtain ⟨hd, hid⟩ := List.mem_filter.mp hd
      cases hpassed : d.2 with
      | true => rfl
      | false =>
        rw [(hdocs d hd).2 hpassed] at hid
        cases hid

/-- **One call** with documents that leave no traces. -/
theorem Inv.add {w : World} (h : Inv w) {call : AddCall} (hclean : CleanCall call w) :
    Inv (add call w) := by
  have hempty : Good w.server [] := fun d hd => by cases hd
  obtain ⟨hinv, hgood⟩ := assembleDocs_clean h hempty hclean
  rw [Awa.add]
  rcases hresult : assembleDocs call.accepts call.docs [] w with ⟨_ | docs, w'⟩
  · rw [hresult] at hinv
    exact hinv
  · rw [hresult] at hinv hgood
    have hstore := hinv.agrees.store (hgood docs rfl)
    rcases hinv with hbefore | hopen
    · exact .inl ⟨hstore, hbefore.client, hbefore.table⟩
    · exact .inr ⟨hstore, hopen.check, hopen.table⟩

theorem inv_new : Inv World.new := by
  have hagrees : Agrees World.new := by
    constructor
    · exact fun fields hfields => (List.not_mem_nil hfields).elim
    · intro name type hname
      cases hname
    · exact fun d hd => (List.not_mem_nil hd).elim
    · exact fun d hd => (List.not_mem_nil hd).elim
  exact .inl ⟨hagrees, rfl, rfl⟩

/-- **The client's schema is the server's** in every run of calls whose documents leave no traces. -/
theorem schema_always {calls : List AddCall} (h : EachStep addStep CleanCall calls World.new) :
    Always addStep Agrees calls World.new := by
  have hinv : Always addStep Inv calls World.new := by
    refine always_of_guard (fun call w w' hw hclean hstep => ?_) inv_new h
    cases hstep
    exact hw.add hclean
  exact hinv.imp fun _ hw => hw.agrees

/-- A call with one document, at a server that agrees. -/
def callOf (items : List (String × Value)) (h : (items.map Prod.fst).Nodup) : AddCall :=
  ⟨[(⟨items, h⟩, "u")], fun _ => true⟩

theorem schema_always_small :
    Always addStep Agrees [callOf [("_id", .str (some "k")), ("n", .int 5)] (by decide)] World.new := by
  refine schema_always fun w hw => ⟨⟨?_, fun out w' _ => trivial⟩, trivial⟩
  have hcheck : World.new.client.check = false := rfl
  show CleanDoc _ World.new.client _ _
  rw [CleanDoc, hcheck, if_neg Bool.false_ne_true]
  refine .inr ⟨fun p hp => ?_, rfl, fun _ _ => rfl⟩
  have hp' : p = ("_id", .str (some "k")) ∨ p = ("n", .int 5) := by
    simpa [fullItems, callOf] using hp
  rcases hp' with rfl | rfl
  · exact ⟨.string, true, _, rfl, rfl⟩
  · exact ⟨.int, true, _, rfl, rfl⟩

/-- A first document fails with its second field: the first one is remembered, and there is no table. -/
theorem forgotten_field : ∃ w, Lib.runOps addStep
      [callOf [("n", .int 5), ("x", .other)] (by decide)] World.new = some w ∧
    w.client.types "n" = some .int ∧ w.server.fields = none ∧ ¬ Agrees w := by
  refine ⟨_, rfl, rfl, rfl, fun h => ?_⟩
  obtain ⟨fields, hfields, -⟩ := h.remembered "n" .int rfl
  cases hfields

end AwaDB.Awa
