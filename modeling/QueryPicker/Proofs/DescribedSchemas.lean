import Mathlib
import QueryPicker.Introspection.Decoder

/-!
# What a result describes

A value describes a reference, an argument, a field, a type or a schema by some of its members, and
nothing that stands beside them counts. Items of a list that describe nothing drop out of it, and of
the types of one name the first is kept. Decoding gives what the schema object of a result
describes.
-/

namespace QueryPicker.Introspection

/-- The text that a member holds, if it holds one. -/
def Tells (value : Json) (name : String) (text? : Option String) : Prop :=
  ∀ text, text? = some text ↔ value.get? name = some (.string text)

/-- Whether a member is true. -/
def Flags (value : Json) (name : String) (flag : Bool) : Prop :=
  flag = true ↔ value.get? name = some (.bool true)

/-- What the items of a list describe, in order, without those that describe nothing. -/
inductive Keeps {α : Type} (Describes : Json → α → Prop) : List Json → List α → Prop where
  | nil : Keeps Describes [] []
  | keep {item a items as} (h : Describes item a) (rest : Keeps Describes items as) :
    Keeps Describes (item :: items) (a :: as)
  | drop {item items as} (h : ∀ a, ¬ Describes item a) (rest : Keeps Describes items as) :
    Keeps Describes (item :: items) as

/-- What the list of a member describes, if the member holds a list. -/
def Lists {α : Type} (Describes : Json → α → Prop) (value : Json) (name : String)
    (as? : Option (List α)) : Prop :=
  ∀ as, as? = some as ↔ ∃ items, value.get? name = some (.array items) ∧ Keeps Describes items as

inductive DescribesRef : Json → TypeRef → Prop where
  | named {value kind name} (hkind : value.get? "kind" = some (.string (TypeKind.name kind)))
      (hnamed : kind.isWrapper = false) (hname : value.get? "name" = some (.string name)) :
    DescribesRef value (.named kind name)
  | list {value inner r} (hkind : value.get? "kind" = some (.string "LIST"))
      (hinner : value.get? "ofType" = some inner) (h : DescribesRef inner r) :
    DescribesRef value (.list r)
  | nonNull {value inner r} (hkind : value.get? "kind" = some (.string "NON_NULL"))
      (hinner : value.get? "ofType" = some inner) (h : DescribesRef inner r) :
    DescribesRef value (.nonNull r)

structure DescribesInput (value : Json) (v : InputValue) : Prop where
  name : value.get? "name" = some (.string v.name)
  type : ∃ ref, value.get? "type" = some ref ∧ DescribesRef ref v.type
  description : Tells value "description" v.description
  defaultValue : Tells value "defaultValue" v.defaultValue

/-- A field without a list of arguments has none. -/
structure DescribesField (value : Json) (f : Field) : Prop where
  name : value.get? "name" = some (.string f.name)
  type : ∃ ref, value.get? "type" = some ref ∧ DescribesRef ref f.type
  description : Tells value "description" f.description
  args : ∃ args?, Lists DescribesInput value "args" args? ∧ f.args = args?.getD []
  isDeprecated : Flags value "isDeprecated" f.isDeprecated
  deprecationReason : Tells value "deprecationReason" f.deprecationReason

structure DescribesEnumValue (value : Json) (v : EnumValue) : Prop where
  name : value.get? "name" = some (.string v.name)
  description : Tells value "description" v.description
  isDeprecated : Flags value "isDeprecated" v.isDeprecated
  deprecationReason : Tells value "deprecationReason" v.deprecationReason

def DescribesName (value : Json) (name : String) : Prop := value.get? "name" = some (.string name)

structure DescribesType (value : Json) (t : TypeDef) : Prop where
  name : value.get? "name" = some (.string t.name)
  kind : value.get? "kind" = some (.string t.kind.name)
  unwrapped : t.kind.isWrapper = false
  description : Tells value "description" t.description
  fields : Lists DescribesField value "fields" t.fields?
  inputFields : Lists DescribesInput value "inputFields" t.inputFields?
  enumValues : Lists DescribesEnumValue value "enumValues" t.enumValues?
  possibleTypes : Lists DescribesName value "possibleTypes" t.possibleTypes?

/-- A definition of a type: something with a name and a kind that is no wrapper. -/
def DefinesType (value : Json) : Prop :=
  ∃ name kind, value.get? "name" = some (.string name) ∧
    value.get? "kind" = some (.string (TypeKind.name kind)) ∧ kind.isWrapper = false

/-- The type definitions before which none of the same name stands. -/
def firstOfEachName (definitions : List TypeDef) : List TypeDef :=
  (definitions.zipIdx.filter fun (t, i) => (definitions.take i).all (·.name != t.name)).map (·.1)

/-- The name under the root of an operation, if there is one. -/
def TellsRoot (value : Json) (name : String) (root? : Option String) : Prop :=
  ∀ root, root? = some root ↔
    ∃ type, value.get? name = some type ∧ type.get? "name" = some (.string root)

/-- Types are looked up by their own names. -/
structure Describes (value : Json) (s : Schema) : Prop where
  queryType : TellsRoot value "queryType" (some s.queryType)
  mutationType : TellsRoot value "mutationType" s.mutationType
  subscriptionType : TellsRoot value "subscriptionType" s.subscriptionType
  types : ∃ definitions?, Lists DescribesType value "types" definitions? ∧
    s.types = (firstOfEachName (definitions?.getD [])).map fun t => (t.name, t)

/-- The schema object of a result; the one in `data` counts only if there is none beside it. -/
inductive Holds : Json → Json → Prop where
  | alone {result schema} (h : result.get? "__schema" = some schema)
      (hobject : schema.isObject = true) : Holds result schema
  | inData {result data schema} (hnone : result.get? "__schema" = none)
      (hdata : result.get? "data" = some data) (h : data.get? "__schema" = some schema)
      (hobject : schema.isObject = true) : Holds result schema

variable {value : Json} {name : String}

theorem string?_eq_some_iff {text : String} :
    string? value name = some text ↔ value.get? name = some (.string text) := by
  rw [string?, Option.bind_eq_some_iff]
  constructor
  · rintro ⟨member, hget, htext⟩
    cases member <;> simp [Json.string?] at htext
    rw [hget, htext]
  · exact fun hget => ⟨_, hget, rfl⟩

theorem string?_eq_iff {text? : Option String} :
    string? value name = text? ↔ Tells value name text? := by
  constructor
  · rintro rfl text
    exact string?_eq_some_iff
  · exact fun h => Option.ext fun text => string?_eq_some_iff.trans (h text).symm

theorem flag_eq_iff {b : Bool} : flag value name = b ↔ Flags value name b := by
  have htrue : flag value name = true ↔ value.get? name = some (.bool true) := by
    rw [flag]
    cases hget : value.get? name with
    | none => simp
    | some member => cases member <;> simp [Json.bool?]
  rw [Flags, ← htrue, Bool.eq_iff_iff]
  exact Iff.comm

theorem filterMap_eq_iff {α : Type} {decode : Json → Option α} {Describes : Json → α → Prop}
    (h : ∀ item a, decode item = some a ↔ Describes item a) {items : List Json} {as : List α} :
    items.filterMap decode = as ↔ Keeps Describes items as := by
  induction items generalizing as with
  | nil =>
    constructor
    · rintro rfl
      exact .nil
    · rintro ⟨⟩
      rfl
  | cons item items ih =>
    cases hitem : decode item with
    | none =>
      have hnone : ∀ a, ¬ Describes item a := fun a ha => by
        rw [← h, hitem] at ha
        cases ha
      rw [List.filterMap_cons_none hitem, ih]
      constructor
      · exact .drop hnone
      · rintro (_ | ⟨ha, -⟩ | ⟨-, hrest⟩)
        · exact absurd ha (hnone _)
        · exact hrest
    | some a =>
      have hsome : Describes item a := (h item a).mp hitem
      rw [List.filterMap_cons_some hitem]
      constructor
      · rintro rfl
        exact .keep hsome (ih.mp rfl)
      · rintro (_ | ⟨ha, hrest⟩ | ⟨hnone, -⟩)
        · rw [← h, hitem] at ha
          rw [Option.some.inj ha, ih.mpr hrest]
        · exact absurd hsome (hnone a)

theorem items?_eq_iff {α : Type} {decode : Json → Option α} {Describes : Json → α → Prop}
    (h : ∀ item a, decode item = some a ↔ Describes item a) {as? : Option (List α)} :
    items? decode value name = as? ↔ Lists Describes value name as? := by
  have hsome : ∀ as, items? decode value name = some as ↔
      ∃ items, value.get? name = some (.array items) ∧ Keeps Describes items as := by
    intro as
    rw [items?, Option.map_eq_some_iff]
    constructor
    · rintro ⟨items, hget, hkept⟩
      obtain ⟨member, hmember, hitems⟩ := Option.bind_eq_some_iff.mp hget
      cases member <;> simp [Json.array?] at hitems
      exact ⟨items, hitems ▸ hmember, (filterMap_eq_iff h).mp hkept⟩
    · rintro ⟨items, hget, hkept⟩
      exact ⟨items, Option.bind_eq_some_iff.mpr ⟨_, hget, rfl⟩, (filterMap_eq_iff h).mpr hkept⟩
  constructor
  · rintro rfl as
    exact hsome as
  · exact fun hlists => Option.ext fun as => (hsome as).trans (hlists as).symm

theorem innerRef?_eq (members : Json.Members) :
    innerRef? members = (Entries.get? members "ofType").bind typeRef? := by
  induction members with
  | nil => rfl
  | cons m members ih =>
    obtain ⟨name, value⟩ := m
    by_cases h : name = "ofType" <;> simp [innerRef?, Entries.get?, h, ih]

theorem typeRef?_eq (value : Json) :
    typeRef? value = ((string? value "kind").bind TypeKind.ofName?).bind fun kind =>
      match kind with
      | .list => ((value.get? "ofType").bind typeRef?).map .list
      | .nonNull => ((value.get? "ofType").bind typeRef?).map .nonNull
      | kind => (string? value "name").map (.named kind) := by
  cases value with
  | object members =>
    rw [typeRef?, innerRef?_eq]
    rfl
  | _ => rfl

theorem kind?_eq_some_iff {kind : TypeKind} :
    (string? value "kind").bind TypeKind.ofName? = some kind ↔
      value.get? "kind" = some (.string kind.name) := by
  rw [Option.bind_eq_some_iff]
  constructor
  · rintro ⟨text, htext, hkind⟩
    rw [← TypeKind.eq_name_of_ofName? hkind, ← string?_eq_some_iff, htext]
  · exact fun hget => ⟨kind.name, string?_eq_some_iff.mpr hget, kind.ofName?_name⟩

theorem exists_inner_of_layer {wrap : TypeRef → TypeRef} {r : TypeRef}
    (h : ((value.get? "ofType").bind typeRef?).map wrap = some r) :
    ∃ inner r', value.get? "ofType" = some inner ∧ typeRef? inner = some r' ∧ wrap r' = r := by
  obtain ⟨r', hr', hwrap⟩ := Option.map_eq_some_iff.mp h
  obtain ⟨inner, hinner, hr'⟩ := Option.bind_eq_some_iff.mp hr'
  exact ⟨inner, r', hinner, hr', hwrap⟩

/-- By recursion on the layers of the reference, since the value nests as deep. -/
theorem describesRef_of_typeRef? {value : Json} {r : TypeRef} (h : typeRef? value = some r) :
    DescribesRef value r := by
  rw [typeRef?_eq, Option.bind_eq_some_iff] at h
  obtain ⟨kind, hkind, h⟩ := h
  have hkind := kind?_eq_some_iff.mp hkind
  cases kind with
  | list =>
    obtain ⟨inner, r', hinner, hr', rfl⟩ := exists_inner_of_layer h
    exact .list hkind hinner (describesRef_of_typeRef? hr')
  | nonNull =>
    obtain ⟨inner, r', hinner, hr', rfl⟩ := exists_inner_of_layer h
    exact .nonNull hkind hinner (describesRef_of_typeRef? hr')
  | _ =>
    obtain ⟨name, hname, rfl⟩ := Option.map_eq_some_iff.mp h
    exact .named hkind rfl (string?_eq_some_iff.mp hname)
termination_by r

theorem typeRef?_of_describesRef {r : TypeRef} (h : DescribesRef value r) :
    typeRef? value = some r := by
  induction h with
  | @named value kind name hkind hnamed hname =>
    have hname := string?_eq_some_iff.mpr hname
    rw [typeRef?_eq, kind?_eq_some_iff.mpr hkind]
    cases kind with
    | list | nonNull => cases hnamed
    | _ => exact Option.map_eq_some_iff.mpr ⟨name, hname, rfl⟩
  | @list value inner r hkind hinner _ ih =>
    have hkind : (string? value "kind").bind TypeKind.ofName? = some .list :=
      kind?_eq_some_iff.mpr hkind
    rw [typeRef?_eq, hkind]
    simp [hinner, ih]
  | @nonNull value inner r hkind hinner _ ih =>
    have hkind : (string? value "kind").bind TypeKind.ofName? = some .nonNull :=
      kind?_eq_some_iff.mpr hkind
    rw [typeRef?_eq, hkind]
    simp [hinner, ih]

theorem typeRef?_eq_some_iff {r : TypeRef} : typeRef? value = some r ↔ DescribesRef value r :=
  ⟨describesRef_of_typeRef?, typeRef?_of_describesRef⟩

theorem memberRef?_eq_some_iff {r : TypeRef} :
    (value.get? name).bind typeRef? = some r ↔
      ∃ ref, value.get? name = some ref ∧ DescribesRef ref r := by
  simp only [Option.bind_eq_some_iff, typeRef?_eq_some_iff]

theorem inputValue?_eq_some_iff (value : Json) (v : InputValue) :
    inputValue? value = some v ↔ DescribesInput value v := by
  constructor
  · intro h
    obtain ⟨name, hname, h⟩ := Option.bind_eq_some_iff.mp h
    obtain ⟨type, htype, h⟩ := Option.bind_eq_some_iff.mp h
    obtain rfl := Option.some.inj h
    exact ⟨string?_eq_some_iff.mp hname, memberRef?_eq_some_iff.mp htype, string?_eq_iff.mp rfl,
      string?_eq_iff.mp rfl⟩
  · rintro ⟨hname, htype, hdescription, hdefault⟩
    rw [inputValue?, string?_eq_some_iff.mpr hname, memberRef?_eq_some_iff.mpr htype,
      string?_eq_iff.mpr hdescription, string?_eq_iff.mpr hdefault]
    rfl

theorem field?_eq_some_iff (value : Json) (f : Field) :
    field? value = some f ↔ DescribesField value f := by
  constructor
  · intro h
    obtain ⟨name, hname, h⟩ := Option.bind_eq_some_iff.mp h
    obtain ⟨type, htype, h⟩ := Option.bind_eq_some_iff.mp h
    obtain rfl := Option.some.inj h
    exact ⟨string?_eq_some_iff.mp hname, memberRef?_eq_some_iff.mp htype, string?_eq_iff.mp rfl,
      ⟨_, (items?_eq_iff inputValue?_eq_some_iff).mp rfl, rfl⟩, flag_eq_iff.mp rfl,
      string?_eq_iff.mp rfl⟩
  · rintro ⟨hname, htype, hdescription, ⟨args?, hlists, hargs⟩, hflag, hreason⟩
    rw [field?, string?_eq_some_iff.mpr hname, memberRef?_eq_some_iff.mpr htype,
      string?_eq_iff.mpr hdescription, (items?_eq_iff inputValue?_eq_some_iff).mpr hlists,
      ← hargs, flag_eq_iff.mpr hflag, string?_eq_iff.mpr hreason]
    rfl

theorem enumValue?_eq_some_iff (value : Json) (v : EnumValue) :
    enumValue? value = some v ↔ DescribesEnumValue value v := by
  constructor
  · intro h
    obtain ⟨name, hname, h⟩ := Option.bind_eq_some_iff.mp h
    obtain rfl := Option.some.inj h
    exact ⟨string?_eq_some_iff.mp hname, string?_eq_iff.mp rfl, flag_eq_iff.mp rfl,
      string?_eq_iff.mp rfl⟩
  · rintro ⟨hname, hdescription, hflag, hreason⟩
    rw [enumValue?, string?_eq_some_iff.mpr hname, string?_eq_iff.mpr hdescription,
      flag_eq_iff.mpr hflag, string?_eq_iff.mpr hreason]
    rfl

theorem possibleType?_eq_some_iff (value : Json) (name : String) :
    string? value "name" = some name ↔ DescribesName value name :=
  string?_eq_some_iff

theorem typeDef?_eq_some_iff (value : Json) (t : TypeDef) :
    typeDef? value = some t ↔ DescribesType value t := by
  constructor
  · intro h
    obtain ⟨name, hname, h⟩ := Option.bind_eq_some_iff.mp h
    obtain ⟨kind, hkind, h⟩ := Option.bind_eq_some_iff.mp h
    cases hwrapper : kind.isWrapper with
    | true => simp [hwrapper] at h
    | false =>
      rw [hwrapper] at h
      obtain rfl := Option.some.inj h
      exact ⟨string?_eq_some_iff.mp hname, kind?_eq_some_iff.mp hkind, hwrapper,
        string?_eq_iff.mp rfl, (items?_eq_iff field?_eq_some_iff).mp rfl,
        (items?_eq_iff inputValue?_eq_some_iff).mp rfl,
        (items?_eq_iff enumValue?_eq_some_iff).mp rfl,
        (items?_eq_iff possibleType?_eq_some_iff).mp rfl⟩
  · rintro ⟨hname, hkind, hwrapper, hdescription, hfields, hinputs, henums, hpossible⟩
    rw [typeDef?, string?_eq_some_iff.mpr hname, kind?_eq_some_iff.mpr hkind,
      string?_eq_iff.mpr hdescription, (items?_eq_iff field?_eq_some_iff).mpr hfields,
      (items?_eq_iff inputValue?_eq_some_iff).mpr hinputs,
      (items?_eq_iff enumValue?_eq_some_iff).mpr henums,
      (items?_eq_iff possibleType?_eq_some_iff).mpr hpossible]
    simp [hwrapper]

/-- A definition always describes a type, however little of the rest can be made out. -/
theorem exists_describesType_iff : (∃ t, DescribesType value t) ↔ DefinesType value := by
  constructor
  · rintro ⟨t, h⟩
    exact ⟨t.name, t.kind, h.name, h.kind, h.unwrapped⟩
  · rintro ⟨name, kind, hname, hkind, hwrapper⟩
    have hdecodes : ∃ t, typeDef? value = some t := by
      rw [typeDef?, string?_eq_some_iff.mpr hname, kind?_eq_some_iff.mpr hkind]
      simp [hwrapper]
    obtain ⟨t, ht⟩ := hdecodes
    exact ⟨t, (typeDef?_eq_some_iff value t).mp ht⟩

/-- What stands in front of a list takes its name away from the rest. -/
theorem firstOfEachName_cons (t : TypeDef) (ts : List TypeDef) :
    firstOfEachName (t :: ts) = t :: (firstOfEachName ts).filter (·.name != t.name) := by
  have hlater : (((ts.zipIdx.map fun e => (e.1, e.2 + 1)).filter fun e =>
      ((t :: ts).take e.2).all (·.name != e.1.name)).map (·.1)) =
        (firstOfEachName ts).filter (·.name != t.name) := by
    rw [firstOfEachName, List.filter_map, List.map_map, List.filter_map, List.filter_filter]
    congr 1
    refine List.filter_congr fun e _ => ?_
    simp [Bool.beq_comm, bne]
  rw [← hlater, firstOfEachName, List.zipIdx_cons, List.zipIdx_succ,
    List.filter_cons_of_pos (by simp), List.map_cons]

theorem firstByName_map_name (ts : List TypeDef) :
    firstByName (ts.map fun t => (t.name, t)) =
      (firstOfEachName ts).map fun t => (t.name, t) := by
  induction ts with
  | nil => rfl
  | cons t ts ih =>
    rw [List.map_cons, firstByName, ih, firstOfEachName_cons, List.map_cons, List.filter_map]
    congr 2
    refine List.filter_congr fun u _ => ?_
    by_cases h : u.name = t.name <;> simp [h]

theorem rootTypeName?_eq_iff {root? : Option String} :
    rootTypeName? value name = root? ↔ TellsRoot value name root? := by
  have hsome : ∀ root, rootTypeName? value name = some root ↔
      ∃ type, value.get? name = some type ∧ type.get? "name" = some (.string root) := by
    simp only [rootTypeName?, Option.bind_eq_some_iff, string?_eq_some_iff, implies_true]
  constructor
  · rintro rfl root
    exact hsome root
  · exact fun h => Option.ext fun root => (hsome root).trans (h root).symm

theorem schemaMember?_eq_some_iff {result schema : Json} :
    (schemaMember? result).filter (·.isObject) = some schema ↔ Holds result schema := by
  rw [Option.filter_eq_some_iff, schemaMember?]
  constructor
  · rintro ⟨hmember, hobject⟩
    cases hget : result.get? "__schema" with
    | some member =>
      rw [hget] at hmember
      cases hmember
      exact .alone hget hobject
    | none =>
      rw [hget] at hmember
      obtain ⟨data, hdata, hmember⟩ := Option.bind_eq_some_iff.mp hmember
      exact .inData hget hdata hmember hobject
  · rintro (⟨hget, hobject⟩ | ⟨hnone, hdata, hget, hobject⟩)
    · rw [hget]
      exact ⟨rfl, hobject⟩
    · rw [hnone, hdata]
      exact ⟨hget, hobject⟩

/-- A result is decoded to a schema exactly if its schema object describes that schema. -/
theorem decode_eq_ok_iff {result : Json} {s : Schema} :
    decode result = .ok s ↔ ∃ schema, Holds result schema ∧ Describes schema s := by
  rw [decode]
  cases hmember : (schemaMember? result).filter (·.isObject) with
  | none =>
    refine iff_of_false (by rintro ⟨⟩) ?_
    rintro ⟨schema, hholds, -⟩
    rw [schemaMember?_eq_some_iff.mpr hholds] at hmember
    cases hmember
  | some schema =>
    have hholds := schemaMember?_eq_some_iff.mp hmember
    have hunique : ∀ other, Holds result other → other = schema := fun other hother => by
      rw [schemaMember?_eq_some_iff.mpr hother] at hmember
      exact Option.some.inj hmember
    constructor
    · intro h
      refine ⟨schema, hholds, ?_⟩
      dsimp only at h
      cases hquery : rootTypeName? schema "queryType" with
      | none =>
        rw [hquery] at h
        cases h
      | some queryType =>
        rw [hquery] at h
        obtain rfl := Except.ok.inj h
        exact ⟨rootTypeName?_eq_iff.mp hquery, rootTypeName?_eq_iff.mp rfl,
          rootTypeName?_eq_iff.mp rfl, _, (items?_eq_iff typeDef?_eq_some_iff).mp rfl,
          firstByName_map_name _⟩
    · rintro ⟨other, hother, hquery, hmutation, hsubscription, definitions?, hlists, htypes⟩
      obtain rfl := hunique other hother
      dsimp only
      rw [rootTypeName?_eq_iff.mpr hquery, rootTypeName?_eq_iff.mpr hmutation,
        rootTypeName?_eq_iff.mpr hsubscription, (items?_eq_iff typeDef?_eq_some_iff).mpr hlists]
      obtain ⟨types, queryType, mutationType, subscriptionType, hnodup⟩ := s
      obtain rfl := htypes
      simp only [Schema.ofTypes, Schema.ofEntries, firstByName_map_name]

end QueryPicker.Introspection
