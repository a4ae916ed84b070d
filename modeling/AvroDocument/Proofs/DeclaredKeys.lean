import AvroDocument.Proofs.Nullability

/-!
# AvroDocument.Proofs.DeclaredKeys

Preparing with a strict schema, and without.

* `Encoding.Visit`, `Encoding.Leads`: a value that is prepared at a node, and the values inside it that
  are prepared with it (`Encoding.Visit.Prepared.of_leads`).
* `Encoding.prepareItems_cons_ok`, `Encoding.preparePlain_record_ok`, …: what it takes to prepare a value,
  one equivalence for each kind of node.
* `Encoding.prepareNode_strict`: a strict schema gives what the other gives, where all structs on the way
  are declared.
* `Encoder.prepare_strict_iff`: the same for the documents of an encoder.
-/

namespace AvroDocument

/-- The same options for a schema that is strict, or for one that is not. -/
def Options.withStrictSchema (o : Options) (strict : Bool) : Options :=
  { o with strictSchema := strict }

/-! ## Scalars -/

section scalars

variable {o : Options} {strict : Bool}

theorem Coercion.readText_withStrictSchema (typeName : String) (logical : Option String)
    (text : String) :
    readText (o.withStrictSchema strict) typeName logical text =
      readText o typeName logical text := by
  unfold readText
  generalize Text.trim text = trimmed
  rfl

theorem Coercion.readValue_withStrictSchema (node : Json) (v : Value) :
    readValue (o.withStrictSchema strict) node v = readValue o node v := by
  unfold readValue
  simp only [readText_withStrictSchema]
  rfl

theorem Coercion.convert_withStrictSchema (path : String) (node : Json) (v : Value) :
    convert (o.withStrictSchema strict) path node v = convert o path node v := by
  unfold convert toInteger
  rfl

theorem coerce_withStrictSchema (path : String) (node : Json) (v : Value) :
    coerce (o.withStrictSchema strict) path node v = coerce o path node v := by
  unfold coerce
  simp only [Coercion.readValue_withStrictSchema, Coercion.convert_withStrictSchema]

end scalars

namespace Encoding

/-! ## What it takes to prepare a value -/

section prepared

variable {options : Options} {registry : Schema.Registry} {enclosing inner path : String}
  {plain : Json} {value datum : Value}

theorem checkDeclared_iff {known : List String} {entries : List (Key × Value)} {node : Json} :
    checkDeclared path node known entries = .ok () ↔
      ∀ entry ∈ entries, ∃ key ∈ known, entry.1 = .text key := by
  refine ⟨fun h => ?_, Inference.checkDeclared_ok⟩
  induction entries with
  | nil => exact fun _ hentry => absurd hentry List.not_mem_nil
  | cons entry entries ih =>
    obtain ⟨key, v⟩ := entry
    unfold checkDeclared at h
    simp only at h
    split_ifs at h with hknown
    intro entry hentry
    obtain rfl | hentry := List.mem_cons.mp hentry
    · cases key with
      | text s => exact ⟨s, List.contains_iff_mem.mp hknown, rfl⟩
      | _ => cases hknown
    · exact ih h entry hentry

theorem prepareItems_cons_ok {items : Json} {v : Value} {vs data : List Value} {index : Nat} :
    prepareItems options registry inner path index items (v :: vs) = .ok data ↔
      ∃ datum rest, data = datum :: rest ∧
        prepareNode options registry inner (Pointer.item path index) items v = .ok datum ∧
        prepareItems options registry inner path (index + 1) items vs = .ok rest := by
  rw [prepareItems]
  cases prepareNode options registry inner (Pointer.item path index) items v with
  | error e => simp
  | ok datum =>
    cases prepareItems options registry inner path (index + 1) items vs with
    | error e => simp
    | ok rest => simp [eq_comm]

theorem prepareFields_cons_ok {claimed : List String} {field : Json} {fields : List Json}
    {entries data : List (Key × Value)} :
    prepareFields options registry inner path claimed (field :: fields) entries = .ok data ↔
      ∃ datum rest, data = (.text (Schema.nameOf field), datum) :: rest ∧
        fieldDatum options registry inner path claimed entries field = .ok datum ∧
        prepareFields options registry inner path claimed fields entries = .ok rest := by
  rw [prepareFields_cons]
  cases fieldDatum options registry inner path claimed entries field with
  | error e => simp
  | ok datum =>
    cases prepareFields options registry inner path claimed fields entries with
    | error e => simp
    | ok rest => simp [eq_comm]

theorem preparePlain_array_ok (hkind : Schema.typeName plain = "array") :
    preparePlain options registry inner path plain value = .ok datum ↔
      ∃ vs data, value.items? = some vs ∧ datum = .list data ∧
        prepareItems options registry inner path 0 (Schema.itemsOf plain) vs = .ok data := by
  have hother : Schema.typeName plain ≠ "record" := by
    rw [hkind]
    decide
  unfold preparePlain
  rw [if_neg hother, if_pos hkind]
  cases hvs : value.items? with
  | none => simp [Coercion.refuse]
  | some vs =>
    cases hitems : prepareItems options registry inner path 0 (Schema.itemsOf plain) vs with
    | error e => simp [hitems]
    | ok data => simp [hitems, eq_comm]

/-- The keys that the fields of a record read in a struct. -/
def keysRead (options : Options) (record : Json) (entries : List (Key × Value)) : List String :=
  (Schema.fieldsOf record).filterMap
    (sourceKey? options (claimedNames options (Schema.fieldsOf record)) entries)

/-- Every key of a struct is one that some field of a record reads. -/
def AllRead (options : Options) (record : Json) (entries : List (Key × Value)) : Prop :=
  ∀ entry ∈ entries, ∃ key ∈ keysRead options record entries, entry.1 = .text key

theorem preparePlain_record_ok (hkind : Schema.typeName plain = "record") :
    preparePlain options registry inner path plain value = .ok datum ↔
      ∃ entries data, value = .struct entries ∧ datum = .struct data ∧
        prepareFields options registry inner path
          (claimedNames options (Schema.fieldsOf plain)) (Schema.fieldsOf plain) entries =
            .ok data ∧
        (options.strictSchema = true → AllRead options plain entries) := by
  unfold preparePlain
  rw [if_pos hkind]
  cases value with
  | struct entries =>
    have hdeclared : checkDeclared path plain ((Schema.fieldsOf plain).filterMap
        (sourceKey? options (claimedNames options (Schema.fieldsOf plain)) entries)) entries =
          .ok () ↔ AllRead options plain entries := checkDeclared_iff
    cases hfields : prepareFields options registry inner path
        (claimedNames options (Schema.fieldsOf plain)) (Schema.fieldsOf plain) entries with
    | error e => simp [hfields]
    | ok data =>
      cases hstrict : options.strictSchema with
      | false => simp [hfields, eq_comm]
      | true =>
        cases hcheck : checkDeclared path plain ((Schema.fieldsOf plain).filterMap
            (sourceKey? options (claimedNames options (Schema.fieldsOf plain)) entries)) entries with
        | error e =>
          rw [hcheck] at hdeclared
          simp [hfields, hcheck, ← hdeclared]
        | ok _ =>
          rw [hcheck] at hdeclared
          simp [hfields, hcheck, ← hdeclared, eq_comm]
  | _ => simp [Coercion.refuse]

end prepared

/-! ## The values that are prepared -/

/-- A value that is prepared at a node, inside a namespace. -/
structure Visit where
  enclosing : String
  node : Json
  value : Value

section visits

variable {options : Options} {registry : Schema.Registry} {enclosing inner path : String}
  {node plain : Json} {value : Value}

/-- From a value to one that is prepared with it: the same value at the member of a union, an item of a
list, or the value that a field of a record reads. -/
inductive Leads (options : Options) (registry : Schema.Registry) : Visit → Visit → Prop
  | member {enclosing : String} {members : List Json} {member : Json} {value : Value}
      (hfind : members.find? (fun m => !Schema.isNullMember m) = some member)
      (hpresent : (isNull value || isNullText options member value) = false) :
      Leads options registry ⟨enclosing, .arr members, value⟩ ⟨enclosing, member, value⟩
  | item {enclosing inner : String} {node plain : Json} {value v : Value} {vs : List Value}
      (hnode : ∀ members, node ≠ .arr members)
      (hresolve : registry.resolve node enclosing = .ok (plain, inner))
      (hkind : Schema.typeName plain = "array") (hitems : value.items? = some vs) (hv : v ∈ vs) :
      Leads options registry ⟨enclosing, node, value⟩ ⟨inner, Schema.itemsOf plain, v⟩
  | field {enclosing inner key : String} {node plain f : Json} {entries : List (Key × Value)}
      {v : Value} (hnode : ∀ members, node ≠ .arr members)
      (hresolve : registry.resolve node enclosing = .ok (plain, inner))
      (hkind : Schema.typeName plain = "record") (hf : f ∈ Schema.fieldsOf plain)
      (hsource : sourceKey? options (claimedNames options (Schema.fieldsOf plain)) entries f =
        some key)
      (hv : Value.member? key entries = some v) :
      Leads options registry ⟨enclosing, node, .struct entries⟩ ⟨inner, Schema.typeOf f, v⟩

/-- A struct at a record has no key that no field of the record reads. -/
def Visit.Declared (options : Options) (registry : Schema.Registry) (visit : Visit) : Prop :=
  ∀ record inner entries, (∀ members, visit.node ≠ .arr members) →
    registry.resolve visit.node visit.enclosing = .ok (record, inner) →
    Schema.typeName record = "record" → visit.value = .struct entries →
    AllRead options record entries

/-- So do all structs that are prepared with a value. -/
def Visit.DeclaredThroughout (options : Options) (registry : Schema.Registry) (visit : Visit) : Prop :=
  ∀ other, Relation.ReflTransGen (Leads options registry) visit other →
    other.Declared options registry

theorem Visit.declaredThroughout_iff {visit : Visit} :
    visit.DeclaredThroughout options registry ↔
      visit.Declared options registry ∧
        ∀ next, Leads options registry visit next → next.DeclaredThroughout options registry := by
  constructor
  · intro h
    exact ⟨h visit .refl, fun next hnext other hother => h other (.head hnext hother)⟩
  · rintro ⟨hhere, hnext⟩ other hother
    obtain rfl | ⟨next, hlead, hrest⟩ := hother.cases_head
    · exact hhere
    · exact hnext next hlead other hrest

theorem declaredThroughout_union {members : List Json} :
    (Visit.mk enclosing (.arr members) value).DeclaredThroughout options registry ↔
      ∀ member, members.find? (fun m => !Schema.isNullMember m) = some member →
        (isNull value || isNullText options member value) = false →
        (Visit.mk enclosing member value).DeclaredThroughout options registry := by
  rw [Visit.declaredThroughout_iff]
  constructor
  · rintro ⟨-, hnext⟩ member hfind hpresent
    exact hnext _ (.member hfind hpresent)
  · intro h
    refine ⟨fun _ _ _ hnode => absurd rfl (hnode members), fun next hnext => ?_⟩
    cases hnext with
    | member hfind hpresent => exact h _ hfind hpresent
    | item hnode | field hnode => exact absurd rfl (hnode members)

theorem declaredThroughout_array (hnode : ∀ members, node ≠ .arr members)
    (hresolve : registry.resolve node enclosing = .ok (plain, inner))
    (hkind : Schema.typeName plain = "array") :
    (Visit.mk enclosing node value).DeclaredThroughout options registry ↔
      ∀ vs, value.items? = some vs → ∀ v ∈ vs,
        (Visit.mk inner (Schema.itemsOf plain) v).DeclaredThroughout options registry := by
  rw [Visit.declaredThroughout_iff]
  constructor
  · rintro ⟨-, hnext⟩ vs hitems v hv
    exact hnext _ (.item hnode hresolve hkind hitems hv)
  · intro h
    constructor
    · intro record inner' entries _ hresolve' hrecord
      cases hresolve.symm.trans hresolve'
      exact absurd (hkind.symm.trans hrecord) (by decide)
    · intro next hnext
      cases hnext with
      | member => exact absurd rfl (hnode _)
      | item _ hresolve' _ hitems hv =>
        cases hresolve.symm.trans hresolve'
        exact h _ hitems _ hv
      | field _ hresolve' hrecord =>
        cases hresolve.symm.trans hresolve'
        exact absurd (hkind.symm.trans hrecord) (by decide)

theorem declaredThroughout_record {entries : List (Key × Value)}
    (hnode : ∀ members, node ≠ .arr members)
    (hresolve : registry.resolve node enclosing = .ok (plain, inner))
    (hkind : Schema.typeName plain = "record") :
    (Visit.mk enclosing node (.struct entries)).DeclaredThroughout options registry ↔
      AllRead options plain entries ∧
        ∀ f ∈ Schema.fieldsOf plain, ∀ key v,
          sourceKey? options (claimedNames options (Schema.fieldsOf plain)) entries f = some key →
          Value.member? key entries = some v →
          (Visit.mk inner (Schema.typeOf f) v).DeclaredThroughout options registry := by
  rw [Visit.declaredThroughout_iff]
  constructor
  · rintro ⟨hhere, hnext⟩
    exact ⟨hhere plain inner entries hnode hresolve hkind rfl, fun f hf key v hsource hv =>
      hnext _ (.field hnode hresolve hkind hf hsource hv)⟩
  · rintro ⟨hhere, hfields⟩
    constructor
    · intro record inner' entries' _ hresolve' _ hvalue
      cases hresolve.symm.trans hresolve'
      cases hvalue
      exact hhere
    · intro next hnext
      cases hnext with
      | member => exact absurd rfl (hnode _)
      | item _ hresolve' hother =>
        cases hresolve.symm.trans hresolve'
        exact absurd (hkind.symm.trans hother) (by decide)
      | field _ hresolve' _ hf hsource hv =>
        cases hresolve.symm.trans hresolve'
        exact hfields _ hf _ _ hsource hv

/-- A value that is neither a list at an array nor a struct at a record is prepared alone. -/
theorem declaredThroughout_scalar (hnode : ∀ members, node ≠ .arr members)
    (hresolve : registry.resolve node enclosing = .ok (plain, inner))
    (harray : Schema.typeName plain ≠ "array")
    (hrecord : Schema.typeName plain = "record" → ∀ entries, value ≠ .struct entries) :
    (Visit.mk enclosing node value).DeclaredThroughout options registry := by
  rw [Visit.declaredThroughout_iff]
  constructor
  · intro record inner' entries _ hresolve' hkind hvalue
    cases hresolve.symm.trans hresolve'
    exact absurd hvalue (hrecord hkind entries)
  · intro next hnext
    cases hnext with
    | member => exact absurd rfl (hnode _)
    | item _ hresolve' hkind =>
      cases hresolve.symm.trans hresolve'
      exact absurd hkind harray
    | field _ hresolve' hkind =>
      cases hresolve.symm.trans hresolve'
      exact absurd rfl (hrecord hkind _)

/-! ### What is led to is prepared -/

theorem prepareItems_all {items : Json} {vs data : List Value} {index : Nat}
    (h : prepareItems options registry inner path index items vs = .ok data) :
    ∀ v ∈ vs, ∃ place datum, prepareNode options registry inner place items v = .ok datum := by
  induction vs generalizing index data with
  | nil => exact fun _ hv => absurd hv List.not_mem_nil
  | cons v vs ih =>
    obtain ⟨datum, rest, -, hdatum, hrest⟩ := prepareItems_cons_ok.mp h
    intro w hw
    obtain rfl | hw := List.mem_cons.mp hw
    · exact ⟨_, datum, hdatum⟩
    · exact ih hrest w hw

theorem prepareFields_all {claimed : List String} {fields : List Json}
    {entries data : List (Key × Value)}
    (h : prepareFields options registry inner path claimed fields entries = .ok data) :
    ∀ f ∈ fields, ∃ datum,
      fieldDatum options registry inner path claimed entries f = .ok datum := by
  induction fields generalizing data with
  | nil => exact fun _ hf => absurd hf List.not_mem_nil
  | cons f fields ih =>
    obtain ⟨datum, rest, -, hdatum, hrest⟩ := prepareFields_cons_ok.mp h
    intro g hg
    obtain rfl | hg := List.mem_cons.mp hg
    · exact ⟨datum, hdatum⟩
    · exact ih hrest g hg

/-- A value that is prepared at a node. -/
def Visit.Prepared (options : Options) (registry : Schema.Registry) (visit : Visit) : Prop :=
  ∃ path datum,
    prepareNode options registry visit.enclosing path visit.node visit.value = .ok datum

/-- A value is prepared only when what it leads to is. -/
theorem Leads.prepared {visit next : Visit} (h : Leads options registry visit next)
    (hprepared : visit.Prepared options registry) : next.Prepared options registry := by
  obtain ⟨path, datum, hdatum⟩ := hprepared
  cases h with
  | member hfind hpresent =>
    rw [prepareNode_union, hfind] at hdatum
    simp only [hpresent, Bool.false_eq_true, if_false] at hdatum
    exact ⟨path, datum, hdatum⟩
  | item hnode hresolve hkind hitems hv =>
    rw [prepareNode_other hnode, hresolve] at hdatum
    obtain ⟨vs, data, hvs, -, hdata⟩ := (preparePlain_array_ok hkind).mp hdatum
    cases hitems.symm.trans hvs
    exact prepareItems_all hdata _ hv
  | field hnode hresolve hkind hf hsource hv =>
    rw [prepareNode_other hnode, hresolve] at hdatum
    obtain ⟨_, data, ⟨⟩, -, hdata, -⟩ := (preparePlain_record_ok hkind).mp hdatum
    obtain ⟨datum, hdatum⟩ := prepareFields_all hdata _ hf
    rw [fieldDatum, hsource] at hdatum
    simp only [hv] at hdatum
    exact ⟨_, datum, hdatum⟩

/-- Whatever is met on the way from a prepared value is prepared itself. -/
theorem Visit.Prepared.of_leads {visit other : Visit}
    (hprepared : visit.Prepared options registry)
    (h : Relation.ReflTransGen (Leads options registry) visit other) :
    other.Prepared options registry := by
  induction h with
  | refl => exact hprepared
  | tail _ hlead ih => exact hlead.prepared ih

end visits

/-! ## Strict schemas -/

section strict

variable {options : Options} {registry : Schema.Registry} {inner : String}

/-- A strict schema gives what the other gives for a value, where the structs prepared with it are
declared. -/
def Filtered (options : Options) (registry : Schema.Registry) (visit : Visit) : Prop :=
  ∀ path datum,
    prepareNode (options.withStrictSchema true) registry visit.enclosing path visit.node
        visit.value = .ok datum ↔
      prepareNode (options.withStrictSchema false) registry visit.enclosing path visit.node
          visit.value = .ok datum ∧
        visit.DeclaredThroughout options registry

theorem prepareItems_strict {items : Json} {vs : List Value}
    (h : ∀ v ∈ vs, Filtered options registry ⟨inner, items, v⟩) (path : String) (index : Nat)
    (data : List Value) :
    prepareItems (options.withStrictSchema true) registry inner path index items vs = .ok data ↔
      prepareItems (options.withStrictSchema false) registry inner path index items vs = .ok data ∧
        ∀ v ∈ vs, (Visit.mk inner items v).DeclaredThroughout options registry := by
  induction vs generalizing index data with
  | nil => simp [prepareItems]
  | cons v vs ih =>
    have hfirst := h v List.mem_cons_self (Pointer.item path index)
    have hrest := ih (fun w hw => h w (List.mem_cons_of_mem _ hw)) (index + 1)
    rw [prepareItems_cons_ok, prepareItems_cons_ok, List.forall_mem_cons]
    constructor
    · rintro ⟨datum, rest, rfl, hdatum, hdata⟩
      obtain ⟨hdatum, hv⟩ := (hfirst datum).mp hdatum
      obtain ⟨hdata, hvs⟩ := (hrest rest).mp hdata
      exact ⟨⟨datum, rest, rfl, hdatum, hdata⟩, hv, hvs⟩
    · rintro ⟨⟨datum, rest, rfl, hdatum, hdata⟩, hv, hvs⟩
      exact ⟨datum, rest, rfl, (hfirst datum).mpr ⟨hdatum, hv⟩, (hrest rest).mpr ⟨hdata, hvs⟩⟩

/-- The structs prepared with the value that a field reads are declared. -/
def FieldDeclared (options : Options) (registry : Schema.Registry) (inner : String)
    (claimed : List String) (entries : List (Key × Value)) (field : Json) : Prop :=
  ∀ key v, sourceKey? options claimed entries field = some key →
    Value.member? key entries = some v →
    (Visit.mk inner (Schema.typeOf field) v).DeclaredThroughout options registry

theorem fieldDatum_strict (claimed : List String) {entries : List (Key × Value)} {field : Json}
    (h : ∀ key v, Value.member? key entries = some v →
      Filtered options registry ⟨inner, Schema.typeOf field, v⟩) (path : String) (datum : Value) :
    fieldDatum (options.withStrictSchema true) registry inner path claimed entries field =
        .ok datum ↔
      fieldDatum (options.withStrictSchema false) registry inner path claimed entries field =
          .ok datum ∧
        FieldDeclared options registry inner claimed entries field := by
  have hkey (strict : Bool) : sourceKey? (options.withStrictSchema strict) claimed entries field =
      sourceKey? options claimed entries field := rfl
  have habsent (strict : Bool) : absentValue (options.withStrictSchema strict) path field =
      absentValue options path field := rfl
  unfold fieldDatum FieldDeclared
  simp only [hkey, habsent]
  cases hsource : sourceKey? options claimed entries field with
  | none => simp
  | some key =>
    obtain ⟨v, hv⟩ := sourceKey?_some hsource
    simp only [hv, Option.some.injEq]
    rw [h key v hv]
    refine and_congr_right fun _ => ⟨fun hthroughout => ?_, fun hall => hall key v rfl hv⟩
    rintro _ w rfl hw
    cases hv.symm.trans hw
    exact hthroughout

theorem prepareFields_strict {claimed : List String} {fields : List Json}
    {entries : List (Key × Value)}
    (h : ∀ f ∈ fields, ∀ key v, Value.member? key entries = some v →
      Filtered options registry ⟨inner, Schema.typeOf f, v⟩) (path : String)
    (data : List (Key × Value)) :
    prepareFields (options.withStrictSchema true) registry inner path claimed fields entries =
        .ok data ↔
      prepareFields (options.withStrictSchema false) registry inner path claimed fields entries =
          .ok data ∧
        ∀ f ∈ fields, FieldDeclared options registry inner claimed entries f := by
  induction fields generalizing data with
  | nil => simp [prepareFields]
  | cons f fields ih =>
    have hfirst := fieldDatum_strict claimed (h f List.mem_cons_self) path
    have hrest := ih fun g hg => h g (List.mem_cons_of_mem _ hg)
    rw [prepareFields_cons_ok, prepareFields_cons_ok, List.forall_mem_cons]
    constructor
    · rintro ⟨datum, rest, rfl, hdatum, hdata⟩
      obtain ⟨hdatum, hf⟩ := (hfirst datum).mp hdatum
      obtain ⟨hdata, hfs⟩ := (hrest rest).mp hdata
      exact ⟨⟨datum, rest, rfl, hdatum, hdata⟩, hf, hfs⟩
    · rintro ⟨⟨datum, rest, rfl, hdatum, hdata⟩, hf, hfs⟩
      exact ⟨datum, rest, rfl, (hfirst datum).mpr ⟨hdatum, hf⟩, (hrest rest).mpr ⟨hdata, hfs⟩⟩

theorem preparePlain_scalar_strict {plain : Json} {value : Value}
    (harray : Schema.typeName plain ≠ "array")
    (hrecord : Schema.typeName plain = "record" → ∀ entries, value ≠ .struct entries)
    (path : String) :
    preparePlain (options.withStrictSchema true) registry inner path plain value =
      preparePlain (options.withStrictSchema false) registry inner path plain value := by
  unfold preparePlain
  rw [if_neg harray, if_neg harray]
  by_cases hkind : Schema.typeName plain = "record"
  · rw [if_pos hkind, if_pos hkind]
    cases value with
    | struct entries => exact absurd rfl (hrecord hkind entries)
    | _ => rfl
  · simp only [if_neg hkind, coerce_withStrictSchema]

/-- Every value is filtered, at every node. The recursion is on the value and, at a union, on the node,
because the member sees the same value. -/
theorem prepareNode_strict (enclosing : String) (node : Json) (value : Value) :
    Filtered options registry ⟨enclosing, node, value⟩ := by
  intro path datum
  simp only
  by_cases hunion : ∃ members, node = .arr members
  · obtain ⟨members, rfl⟩ := hunion
    have hnull (strict : Bool) (member : Json) :
        isNullText (options.withStrictSchema strict) member value =
          isNullText options member value := rfl
    rw [prepareNode_union, prepareNode_union, declaredThroughout_union]
    simp only [hnull]
    cases hfind : members.find? fun m => !Schema.isNullMember m with
    | none => simp
    | some member =>
      simp only
      cases hpresent : isNull value || isNullText options member value with
      | true =>
        rw [if_pos rfl, if_pos rfl]
        refine (and_iff_left ?_).symm
        rintro _ ⟨⟩ hother
        rw [hpresent] at hother
        cases hother
      | false =>
        have := Json.sizeOf_lt_of_find? hfind
        have hmember := prepareNode_strict enclosing member value path datum
        rw [if_neg Bool.false_ne_true, if_neg Bool.false_ne_true]
        refine hmember.trans (and_congr_right fun _ => ⟨?_, fun h => h member rfl hpresent⟩)
        rintro hthroughout _ ⟨⟩ -
        exact hthroughout
  · have hnode : ∀ members, node ≠ .arr members := fun members hm => hunion ⟨members, hm⟩
    rw [prepareNode_other hnode, prepareNode_other hnode]
    cases hresolve : registry.resolve node enclosing with
    | error e => simp
    | ok result =>
      obtain ⟨plain, inner⟩ := result
      simp only
      by_cases harray : Schema.typeName plain = "array"
      · rw [preparePlain_array_ok harray, preparePlain_array_ok harray,
          declaredThroughout_array hnode hresolve harray]
        have hitems : ∀ vs, value.items? = some vs →
            ∀ v ∈ vs, Filtered options registry ⟨inner, Schema.itemsOf plain, v⟩ := by
          intro vs hvs v hv
          have := List.sizeOf_lt_of_mem hv
          have := Value.sizeOf_lt_of_items? hvs
          exact prepareNode_strict inner (Schema.itemsOf plain) v
        constructor
        · rintro ⟨vs, data, hvs, rfl, hdata⟩
          obtain ⟨hdata, hall⟩ := (prepareItems_strict (hitems vs hvs) path 0 data).mp hdata
          refine ⟨⟨vs, data, hvs, rfl, hdata⟩, fun ws hws => ?_⟩
          cases hvs.symm.trans hws
          exact hall
        · rintro ⟨⟨vs, data, hvs, rfl, hdata⟩, hall⟩
          exact ⟨vs, data, hvs, rfl,
            (prepareItems_strict (hitems vs hvs) path 0 data).mpr ⟨hdata, hall vs hvs⟩⟩
      by_cases hrecord : Schema.typeName plain = "record" ∧ ∃ entries, value = .struct entries
      · obtain ⟨hrecord, entries, rfl⟩ := hrecord
        rw [preparePlain_record_ok hrecord, preparePlain_record_ok hrecord,
          declaredThroughout_record hnode hresolve hrecord]
        have hfields : ∀ f ∈ Schema.fieldsOf plain, ∀ key v, Value.member? key entries = some v →
            Filtered options registry ⟨inner, Schema.typeOf f, v⟩ := by
          intro f hf key v hv
          have := Value.sizeOf_lt_of_member? hv
          have := Value.sizeOf_lt_struct entries
          exact prepareNode_strict inner (Schema.typeOf f) v
        constructor
        · rintro ⟨_, data, ⟨⟩, rfl, hdata, hread⟩
          obtain ⟨hdata, hall⟩ := (prepareFields_strict hfields path data).mp hdata
          exact ⟨⟨entries, data, rfl, rfl, hdata, fun h => absurd h Bool.false_ne_true⟩, hread rfl, hall⟩
        · rintro ⟨⟨_, data, ⟨⟩, rfl, hdata, -⟩, hread, hall⟩
          exact ⟨entries, data, rfl, rfl, (prepareFields_strict hfields path data).mpr ⟨hdata, hall⟩,
            fun _ => hread⟩
      · have hother : Schema.typeName plain = "record" → ∀ entries, value ≠ .struct entries :=
          fun hkind entries hvalue => hrecord ⟨hkind, entries, hvalue⟩
        rw [preparePlain_scalar_strict harray hother]
        exact (and_iff_left (declaredThroughout_scalar hnode hresolve harray hother)).symm
termination_by (sizeOf value, sizeOf node)

end strict
end Encoding

/-! ## Documents -/

open Encoding in
/-- A strict schema only filters. It prepares a document as the schema that is not strict does, provided
that every struct of the document that is prepared as a record has only keys that some field reads. -/
theorem Encoder.prepare_strict_iff {options : Options} {schema : Json} {e : Encoder}
    (he : Encoder.ofSchema options schema = .ok e) :
    ∃ strict loose,
      Encoder.ofSchema { options with strictSchema := true } schema = .ok strict ∧
      Encoder.ofSchema { options with strictSchema := false } schema = .ok loose ∧
      ∀ document datum,
        strict.prepare document = .ok datum ↔
          loose.prepare document = .ok datum ∧
            ∀ enclosing inner node record entries,
              Relation.ReflTransGen (Leads options (Schema.Registry.ofSchema schema))
                ⟨"", schema, document⟩ ⟨enclosing, node, .struct entries⟩ →
              (∀ members, node ≠ .arr members) →
              (Schema.Registry.ofSchema schema).resolve node enclosing = .ok (record, inner) →
              Schema.typeName record = "record" →
              ∀ entry ∈ entries, ∃ field ∈ Schema.fieldsOf record, ∃ key,
                sourceKey? options (claimedNames options (Schema.fieldsOf record)) entries field =
                  some key ∧ entry.1 = .text key := by
  obtain ⟨layout, hcheck, hlayout, -, rfl⟩ := Encoder.ofSchema_parts he
  have hsame (strict : Bool) : Encoder.ofSchema { options with strictSchema := strict } schema =
      .ok ⟨schema, Schema.Registry.ofSchema schema, layout, options.withStrictSchema strict⟩ :=
    Encoder.ofSchema_eq _ hcheck hlayout
  refine ⟨_, _, hsame true, hsame false, fun document datum => ?_⟩
  refine (prepareNode_strict "" schema document Pointer.root datum).trans (and_congr_right fun _ => ?_)
  constructor
  · intro h enclosing inner node record entries hlead hnode hresolve hkind entry hentry
    obtain ⟨key, hkey, htext⟩ := h _ hlead record inner entries hnode hresolve hkind rfl entry hentry
    obtain ⟨field, hfield, hsource⟩ := List.mem_filterMap.mp hkey
    exact ⟨field, hfield, key, hsource, htext⟩
  · intro h visit hlead record inner entries hnode hresolve hkind hvalue entry hentry
    obtain ⟨enclosing, node, value⟩ := visit
    cases hvalue
    obtain ⟨field, hfield, key, hsource, htext⟩ :=
      h enclosing inner node record entries hlead hnode hresolve hkind entry hentry
    exact ⟨key, List.mem_filterMap.mpr ⟨field, hfield, hsource⟩, htext⟩

open Encoding in
/-- A key that no field reads, in a record inside an array. -/
theorem Encoder.prepare_strict_iff_undeclared :
    let leaf : Json := .obj [("type", .str "record"), ("name", .str "Leaf"),
      ("fields", .arr [.obj [("name", .str "x"), ("type", .str "string")]])]
    let list : Json := .obj [("type", .str "array"), ("items", leaf)]
    let schema : Json := .obj [("type", .str "record"), ("name", .str "R"),
      ("fields", .arr [.obj [("name", .str "a"), ("type", list)]])]
    let options := Options.standard "R" "" (List.replicate 16 7)
    let x : Key × Value := (.text "x", .text "p")
    let document : Value := .struct [(.text "a", .list [.struct [x, (.text "y", .null)]])]
    let datum : Value := .struct [(.text "a", .list [.struct [x]])]
    ∃ strict loose, Encoder.ofSchema { options with strictSchema := true } schema = .ok strict ∧
      Encoder.ofSchema { options with strictSchema := false } schema = .ok loose ∧
      loose.prepare document = .ok datum ∧ strict.prepare document ≠ .ok datum := by
  intro leaf list schema options x document datum
  let layout : Layout := .record "R"
    [("a", none, .array (.record "Leaf" [("x", none, .primitive .string none)]))]
  have hlayout : Layout.ofSchema schema = .ok layout := by decide +kernel
  have hcheck : Schema.check schema = .ok (Schema.Registry.ofSchema schema) := by decide +kernel
  have he (options : Options) : Encoder.ofSchema options schema =
      .ok ⟨schema, Schema.Registry.ofSchema schema, layout, options⟩ :=
    Encoder.ofSchema_eq _ hcheck hlayout
  obtain ⟨strict, loose, hstrict, hloose, hiff⟩ := prepare_strict_iff (he options)
  cases (he _).symm.trans hstrict
  cases (he _).symm.trans hloose
  have hloosely : Encoder.prepare ⟨schema, Schema.Registry.ofSchema schema, layout,
      { options with strictSchema := false }⟩ document = .ok datum := by cbv
  refine ⟨_, _, hstrict, hloose, hloosely, fun hprepared => ?_⟩
  have hdeclared := ((hiff document datum).mp hprepared).2
  have hwhole : (Schema.Registry.ofSchema schema).resolve schema "" = .ok (schema, "") := by decide +kernel
  have hleaf : (Schema.Registry.ofSchema schema).resolve leaf "" = .ok (leaf, "") := by decide +kernel
  have hkey : sourceKey? options (claimedNames options (Schema.fieldsOf schema))
      [(.text "a", .list [.struct [x, (.text "y", .null)]])]
      (.obj [("name", .str "a"), ("type", list)]) = some "a" := by decide
  have hlist : Leads options (Schema.Registry.ofSchema schema) ⟨"", schema, document⟩
      ⟨"", list, .list [.struct [x, (.text "y", .null)]]⟩ :=
    .field (fun _ => Json.noConfusion) hwhole rfl List.mem_cons_self hkey rfl
  have hitem : Leads options (Schema.Registry.ofSchema schema)
      ⟨"", list, .list [.struct [x, (.text "y", .null)]]⟩
      ⟨"", Schema.itemsOf list, .struct [x, (.text "y", .null)]⟩ :=
    .item (fun _ => Json.noConfusion) rfl rfl rfl List.mem_cons_self
  obtain ⟨field, hfield, key, hsource, htext⟩ := hdeclared "" "" leaf leaf _
    (.tail (.single hlist) hitem) (fun _ => Json.noConfusion) hleaf rfl (.text "y", .null)
    (List.mem_cons_of_mem _ List.mem_cons_self)
  cases htext
  obtain rfl := List.mem_singleton.mp hfield
  revert hsource
  decide

end AvroDocument
