import AvroDocument.Proofs.Nullability

/-!
# AvroDocument.Proofs.FieldKeys

The keys of a struct that the fields of a record are read from.

* `Encoding.sourceKey?_iff`: a field reads its original name when the struct has it, and otherwise its
  name in the schema, unless that is the original name of some field.
* `Encoding.ReadFrom.unique`: fields with distinct names and distinct original names share no key.
* `Value.change`: a struct with another value under one key, and what that leaves as it is.
* `Encoding.prepared_fields_apart`: the prepared record has the fields of the schema in order, and a
  value of the struct reaches one of them at most.
-/

namespace AvroDocument

/-! ## Another value under one key -/

namespace Value

/-- A struct with another value under a key that it has. -/
def change (key : Key) (v : Value) (entries : List (Key × Value)) : List (Key × Value) :=
  entries.map fun entry => if entry.1 = key then (entry.1, v) else entry

variable {key : Key} {name : String} {v : Value} {entries : List (Key × Value)}

theorem keys_change (key : Key) (v : Value) (entries : List (Key × Value)) :
    (change key v entries).map (·.1) = entries.map (·.1) := by
  rw [change, List.map_map]
  refine List.map_congr_left fun entry _ => ?_
  rw [Function.comp_apply]
  split <;> rfl

theorem member?_change_other (h : key ≠ .text name) :
    member? name (change key v entries) = member? name entries := by
  induction entries with
  | nil => rfl
  | cons entry entries ih =>
    obtain ⟨k, w⟩ := entry
    have hrest : change key v ((k, w) :: entries) =
        (if k = key then (k, v) else (k, w)) :: change key v entries := rfl
    rw [hrest]
    by_cases hk : k = key
    · have hother : k ≠ .text name := hk ▸ h
      simp only [if_pos hk, member?, if_neg hother]
      exact ih
    · simp only [if_neg hk, member?]
      rw [ih]

end Value

namespace Encoding

open Value (change)

variable {options : Options} {registry : Schema.Registry} {inner path : String}
  {claimed : List String} {fields : List Json} {entries : List (Key × Value)} {field : Json}

theorem hasEntry_change (name : String) (key : Key) (v : Value) (entries : List (Key × Value)) :
    hasEntry name (change key v entries) = hasEntry name entries := by
  rw [hasEntry, hasEntry, Bool.eq_iff_iff, Value.member?_isSome, Value.member?_isSome,
    Value.keys_change]

/-- Which key a field is read from does not depend on the values. -/
theorem sourceKey?_change (options : Options) (claimed : List String) (key : Key) (v : Value)
    (entries : List (Key × Value)) (field : Json) :
    sourceKey? options claimed (change key v entries) field =
      sourceKey? options claimed entries field := by
  simp only [sourceKey?, hasEntry_change]

/-! ## The key of a field -/

/-- A field reads its original name when the struct has it, and otherwise its name in the schema, unless
that name is claimed. -/
theorem sourceKey?_iff {key : String} :
    sourceKey? options claimed entries field = some key ↔
      hasEntry key entries = true ∧
        (key = Schema.altName field options.altNamesKey ∨
          key = Schema.nameOf field ∧
            hasEntry (Schema.altName field options.altNamesKey) entries = false ∧
            key ∉ claimed) := by
  rw [sourceKey?]
  by_cases horiginal : hasEntry (Schema.altName field options.altNamesKey) entries = true
  · rw [if_pos horiginal]
    constructor
    · intro h
      cases h
      exact ⟨horiginal, .inl rfl⟩
    · rintro ⟨-, rfl | ⟨-, hlacks, -⟩⟩
      · rfl
      · rw [horiginal] at hlacks
        cases hlacks
  · rw [if_neg horiginal]
    by_cases hname : (!claimed.contains (Schema.nameOf field) &&
        hasEntry (Schema.nameOf field) entries) = true
    · rw [if_pos hname]
      simp only [Bool.and_eq_true, Bool.not_eq_true', List.contains_eq_mem, decide_eq_false_iff_not]
        at hname
      constructor
      · intro h
        cases h
        exact ⟨hname.2, .inr ⟨rfl, Bool.eq_false_iff.mpr horiginal, hname.1⟩⟩
      · rintro ⟨hentry, rfl | ⟨rfl, -, -⟩⟩
        · exact absurd hentry horiginal
        · rfl
    · rw [if_neg hname]
      constructor
      · intro h
        cases h
      · rintro ⟨hentry, rfl | ⟨rfl, -, hunclaimed⟩⟩
        · exact absurd hentry horiginal
        · exact absurd (by simp [hentry, hunclaimed]) hname

/-- The field at an index is read from a key. -/
def ReadFrom (options : Options) (fields : List Json) (entries : List (Key × Value)) (index : Nat)
    (key : String) : Prop :=
  ∃ field, fields[index]? = some field ∧
    sourceKey? options (claimedNames options fields) entries field = some key

/-- Fields with distinct names and distinct original names share no key. -/
theorem ReadFrom.unique {i j : Nat} {key : String} (hi : ReadFrom options fields entries i key)
    (hj : ReadFrom options fields entries j key) (hnames : (fields.map Schema.nameOf).Nodup)
    (horiginal : (claimedNames options fields).Nodup) : i = j := by
  obtain ⟨f, hf, hkeyf⟩ := hi
  obtain ⟨g, hg, hkeyg⟩ := hj
  have hilt : i < fields.length := (List.getElem?_eq_some_iff.mp hf).1
  have hclaims {h : Json} {k : Nat} (hh : fields[k]? = some h) :
      Schema.altName h options.altNamesKey ∈ claimedNames options fields :=
    List.mem_map_of_mem (List.mem_of_getElem? hh)
  obtain ⟨-, hf' | ⟨hf', -, hunclaimed⟩⟩ := sourceKey?_iff.mp hkeyf
  · obtain ⟨-, hg' | ⟨-, -, hunclaimed⟩⟩ := sourceKey?_iff.mp hkeyg
    · refine (List.getElem?_inj (by rwa [claimedNames, List.length_map]) horiginal).mp ?_
      rw [claimedNames, List.getElem?_map, List.getElem?_map, hf, hg, Option.map_some,
        Option.map_some, ← hf', ← hg']
    · exact absurd (hf' ▸ hclaims hf) hunclaimed
  · obtain ⟨-, hg' | ⟨hg', -, -⟩⟩ := sourceKey?_iff.mp hkeyg
    · exact absurd (hg' ▸ hclaims hg) hunclaimed
    · refine (List.getElem?_inj (by rwa [List.length_map]) hnames).mp ?_
      rw [List.getElem?_map, List.getElem?_map, hf, hg, Option.map_some, Option.map_some, ← hf',
        ← hg']

/-- A field that reads another key, or none, does not see the change. -/
theorem fieldDatum_change {key : Key} {v : Value}
    (h : ∀ name, sourceKey? options claimed entries field = some name → key ≠ .text name) :
    fieldDatum options registry inner path claimed (change key v entries) field =
      fieldDatum options registry inner path claimed entries field := by
  rw [fieldDatum, fieldDatum, sourceKey?_change]
  cases hsource : sourceKey? options claimed entries field with
  | none => rfl
  | some name =>
    simp only
    rw [Value.member?_change_other (h name hsource)]

/-! ## Prepared records -/

/-- What a struct is prepared as at a record: the data of the fields, under their names and in their
order. -/
theorem preparePlain_struct {record : Json} {datum : Value}
    (hkind : Schema.typeName record = "record")
    (h : preparePlain options registry inner path record (.struct entries) = .ok datum) :
    ∃ data : Json → Value, datum = .struct
        (Binary.entriesFor Schema.nameOf data (Schema.fieldsOf record)) ∧
      ∀ f ∈ Schema.fieldsOf record, fieldDatum options registry inner path
        (claimedNames options (Schema.fieldsOf record)) entries f = .ok (data f) := by
  unfold preparePlain at h
  rw [if_pos hkind] at h
  simp only at h
  split at h
  · cases h
  · rename_i prepared hprepared
    have hprepared' : prepareFields options registry inner path
        (claimedNames options (Schema.fieldsOf record)) ((Schema.fieldsOf record).map id) entries =
          .ok prepared := by
      rwa [List.map_id]
    obtain ⟨data, rfl, hdata⟩ := prepareFields_ok hprepared'
    refine ⟨data, ?_, hdata⟩
    split at h
    · split at h
      · cases h
      · cases h
        rfl
    · cases h
      rfl

/-- A field that reads a key holds what its type makes of the value there. -/
theorem fieldDatum_read {key : String} {datum : Value}
    (hkey : sourceKey? options claimed entries field = some key)
    (h : fieldDatum options registry inner path claimed entries field = .ok datum) :
    ∃ v, Value.member? key entries = some v ∧
      prepareNode options registry inner (Pointer.child path key) (Schema.typeOf field) v =
        .ok datum := by
  obtain ⟨v, hv⟩ := sourceKey?_some hkey
  rw [fieldDatum, hkey] at h
  simp only [hv] at h
  exact ⟨v, hv, h⟩

/-- Prepared fields that differ after a change under one key are read from it. -/
theorem readFrom_of_differs {key : Key} {v : Value} {data data' : Json → Value}
    (hdata : ∀ f ∈ fields, fieldDatum options registry inner path (claimedNames options fields)
      entries f = .ok (data f))
    (hdata' : ∀ f ∈ fields, fieldDatum options registry inner path (claimedNames options fields)
      (change key v entries) f = .ok (data' f)) {i : Nat}
    (hi : (Binary.entriesFor Schema.nameOf data fields)[i]? ≠
      (Binary.entriesFor Schema.nameOf data' fields)[i]?) :
    ∃ name, key = .text name ∧ ReadFrom options fields entries i name := by
  by_contra hnone
  apply hi
  rw [Binary.entriesFor, Binary.entriesFor, List.getElem?_map, List.getElem?_map]
  cases hf : fields[i]? with
  | none => rfl
  | some f =>
    have hmem : f ∈ fields := List.mem_of_getElem? hf
    have hsame : (Except.ok (data' f) : Except Failure Value) = .ok (data f) := by
      rw [← hdata' f hmem, ← hdata f hmem]
      exact fieldDatum_change fun name hname hkey => hnone ⟨name, hkey, f, hf, hname⟩
    rw [Option.map_some, Option.map_some, Except.ok.inj hsame]

end Encoding

/-- The fields of a record that a walk meets have distinct names. -/
theorem Schema.Reaches.nodup_names {P : Json → Prop} {schema node record : Json}
    {decls : List (String × Json)} {top : Layout} {enclosing inner : String}
    (h : Reaches (Registry.ofSchema schema) schema enclosing node) (hs : Sound P schema top decls)
    (hnode : ∀ members, node ≠ .arr members)
    (hresolve : (Registry.ofSchema schema).resolve node enclosing = .ok (record, inner))
    (hkind : typeName record = "record") : ((fieldsOf record).map nameOf).Nodup := by
  obtain ⟨l, hl⟩ := h.within hs
  obtain ⟨plain, inner', l', hresolve', hl', hplain, -⟩ := hl.resolve hs hnode
  cases hresolve.symm.trans hresolve'
  cases hl'.form hs.hereditary hplain with
  | record _ hfields _ hnames _ =>
    rw [hfields, List.map_map]
    exact hnames
  | primitive hother => exact absurd hkind (not_kind hother rfl)
  | array hother => exact absurd (hkind.symm.trans hother) (by decide)

namespace Encoding

open Value (change)

/-- A record of an accepted schema whose fields have distinct original names, and a struct. A field reads
its original name, or else its own name when no field claims it; no two fields read the same key. What
the struct is prepared as has the fields of the record, in order, each with what its type makes of the
value under its key, and another value under one key changes no more than the field that reads it. -/
theorem prepared_fields_apart {options : Options} {schema node record : Json} {e : Encoder}
    {enclosing inner : String} (he : Encoder.ofSchema options schema = .ok e)
    (hreach : Schema.Reaches e.registry schema enclosing node)
    (hnode : ∀ members, node ≠ .arr members)
    (hresolve : e.registry.resolve node enclosing = .ok (record, inner))
    (hkind : Schema.typeName record = "record")
    (horiginal : (claimedNames options (Schema.fieldsOf record)).Nodup)
    (entries : List (Key × Value)) :
    let fields := Schema.fieldsOf record
    let prepare (path : String) (entries : List (Key × Value)) :=
      prepareNode options e.registry enclosing path node (.struct entries)
    (∀ f ∈ fields, ∀ key,
      sourceKey? options (claimedNames options fields) entries f = some key ↔
        hasEntry key entries = true ∧
          (key = Schema.altName f options.altNamesKey ∨
            key = Schema.nameOf f ∧
              hasEntry (Schema.altName f options.altNamesKey) entries = false ∧
              ∀ g ∈ fields, Schema.altName g options.altNamesKey ≠ key)) ∧
    (∀ key i j, ReadFrom options fields entries i key → ReadFrom options fields entries j key →
      i = j) ∧
    ∀ path datum, prepare path entries = .ok datum →
      ∃ data, datum = .struct data ∧
        data.map (·.1) = fields.map (fun f => Key.text (Schema.nameOf f)) ∧
        (data.map (·.1)).Nodup ∧
        (∀ (i : Nat) f key, fields[i]? = some f →
          sourceKey? options (claimedNames options fields) entries f = some key →
          ∃ v w, Value.member? key entries = some v ∧
            prepareNode options e.registry inner (Pointer.child path key) (Schema.typeOf f) v =
              .ok w ∧
            data[i]? = some (Key.text (Schema.nameOf f), w)) ∧
        ∀ key v datum', prepare path (change key v entries) = .ok datum' →
          ∃ data', datum' = .struct data' ∧ data'.map (·.1) = data.map (·.1) ∧
            (∀ i, data[i]? ≠ data'[i]? →
              ∃ name, key = .text name ∧ ReadFrom options fields entries i name) ∧
            ∀ i j : Nat, data[i]? ≠ data'[i]? → data[j]? ≠ data'[j]? → i = j := by
  intro fields prepare
  obtain ⟨-, hregistry, decls, hs⟩ := Schema.sound_of_ofSchema he
  have hnames : (fields.map Schema.nameOf).Nodup :=
    Schema.Reaches.nodup_names (hregistry ▸ hreach) hs hnode (hregistry ▸ hresolve) hkind
  have hunique (key : String) (i j : Nat) (hi : ReadFrom options fields entries i key)
      (hj : ReadFrom options fields entries j key) : i = j := hi.unique hj hnames horiginal
  have hplain (path : String) (entries : List (Key × Value)) : prepare path entries =
      preparePlain options e.registry inner path record (.struct entries) := by
    show prepareNode options e.registry enclosing path node (.struct entries) = _
    rw [prepareNode_other hnode, hresolve]
  refine ⟨fun f _ key => ?_, hunique, fun path datum hdatum => ?_⟩
  · rw [sourceKey?_iff]
    simp only [claimedNames, List.mem_map, not_exists, not_and, ne_eq]
  rw [hplain] at hdatum
  obtain ⟨data, rfl, hdata⟩ := preparePlain_struct hkind hdatum
  refine ⟨_, rfl, ?_, Binary.nodup_entriesFor hnames, fun i f key hf hkey => ?_,
    fun key v datum' hdatum' => ?_⟩
  · rw [Binary.entriesFor, List.map_map]
    rfl
  · obtain ⟨v, hv, hread⟩ := fieldDatum_read hkey (hdata f (List.mem_of_getElem? hf))
    refine ⟨v, data f, hv, hread, ?_⟩
    rw [Binary.entriesFor, List.getElem?_map, hf, Option.map_some]
  rw [hplain] at hdatum'
  obtain ⟨data', rfl, hdata'⟩ := preparePlain_struct hkind hdatum'
  refine ⟨_, rfl, ?_, fun i => readFrom_of_differs hdata hdata', fun i j hi hj => ?_⟩
  · rw [Binary.entriesFor, Binary.entriesFor, List.map_map, List.map_map]
    rfl
  · obtain ⟨name, rfl, hreads⟩ := readFrom_of_differs hdata hdata' hi
    obtain ⟨name', hname, hreads'⟩ := readFrom_of_differs hdata hdata' hj
    cases hname
    exact hunique name i j hreads hreads'

/-- Two fields whose names are the original names of each other, and one that is read from its own name.
The struct has the original name of the first, which is the name of the second. -/
theorem prepared_fields_apart_swapped :
    let field (name original : String) : Json := .obj [("name", .str name),
      ("altnames", .obj [("json", .str original)]), ("type", .arr [.str "null", .str "string"])]
    let fields := [field "a" "b", field "b" "a", field "c" "c-c"]
    let schema : Json := .obj [("type", .str "record"), ("name", .str "R"), ("fields", .arr fields)]
    let options := Options.standard "R" "" (List.replicate 16 7)
    let entries : List (Key × Value) := [(.text "b", .text "x"), (.text "c", .text "y")]
    let data : List (Key × Value) :=
      [(.text "a", .text "x"), (.text "b", .null), (.text "c", .text "y")]
    ∃ e, Encoder.ofSchema options schema = .ok e ∧
      e.registry.resolve schema "" = .ok (schema, "") ∧ Schema.typeName schema = "record" ∧
      (claimedNames options fields).Nodup ∧ ReadFrom options fields entries 0 "b" ∧
      ReadFrom options fields entries 2 "c" ∧
      e.prepare (.struct entries) = .ok (.struct data) ∧
      ∀ v datum', e.prepare (.struct (change (.text "b") v entries)) = .ok datum' →
        ∃ data', datum' = .struct data' ∧ ∀ i : Nat, data[i]? ≠ data'[i]? → i = 0 := by
  intro field fields schema options entries data
  let layout : Layout := .record "R" (["a", "b", "c"].map fun name =>
    (name, none, .union [.primitive .null none, .primitive .string none]))
  have hlayout : Layout.ofSchema schema = .ok layout := by decide +kernel
  have hcheck : Schema.check schema = .ok (Schema.Registry.ofSchema schema) := by decide +kernel
  have he : Encoder.ofSchema options schema =
      .ok ⟨schema, Schema.Registry.ofSchema schema, layout, options⟩ :=
    Encoder.ofSchema_eq _ hcheck hlayout
  have hresolve : (Schema.Registry.ofSchema schema).resolve schema "" = .ok (schema, "") := by decide +kernel
  have horiginal : (claimedNames options fields).Nodup := by decide
  have hfirst : ReadFrom options fields entries 0 "b" := ⟨field "a" "b", rfl, by decide⟩
  have hlast : ReadFrom options fields entries 2 "c" := ⟨field "c" "c-c", rfl, by decide⟩
  have hprepare : Encoder.prepare ⟨schema, Schema.Registry.ofSchema schema, layout, options⟩
      (.struct entries) = .ok (.struct data) := by cbv
  obtain ⟨-, hunique, hprepared⟩ := prepared_fields_apart he .whole (fun _ => Json.noConfusion)
    hresolve rfl horiginal entries
  obtain ⟨data₀, hdata₀, -, -, -, hchange⟩ := hprepared Pointer.root _ hprepare
  cases hdata₀
  refine ⟨_, he, hresolve, rfl, horiginal, hfirst, hlast, hprepare,
    fun v datum' hdatum' => ?_⟩
  obtain ⟨data', rfl, -, hreads, -⟩ := hchange _ v datum' hdatum'
  refine ⟨data', rfl, fun i hi => ?_⟩
  obtain ⟨name, hname, hread⟩ := hreads i hi
  cases hname
  exact hunique "b" i 0 hread hfirst

end Encoding
end AvroDocument
