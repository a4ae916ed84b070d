import AvroDocument.Proofs.Resolution
import AvroDocument.Schema.Check

/-!
# AvroDocument.Proofs.Regular

Layouts of the types that documents are written and read as.

* `Layout.Regular`: no maps, enumerations and fixed bytes; unions hold one type besides null; the
  fields of a record have distinct names; no scale is negative.
* `Schema.regular_of_check`: a schema whose types are all supported has such a layout.
-/

namespace AvroDocument
namespace Layout

def isNullType : Layout → Bool
  | primitive .null _ => true
  | _ => false

def isUnion : Layout → Bool
  | union _ => true
  | _ => false

/-- Layouts without maps, enumerations and fixed bytes, in which unions hold one type besides null,
the fields of a record have distinct names and no scale is negative. -/
inductive Regular : Layout → Prop
  | primitive (type : Primitive) {meaning : Option Meaning}
      (hscale : ∀ t scale, meaning = some (.decimal t) → t.scale = some scale → 0 ≤ scale) :
      Regular (.primitive type meaning)
  | reference (name : String) : Regular (.reference name)
  | array {items : Layout} (h : Regular items) : Regular (.array items)
  | union {members : List Layout} (hone : members.countP (!·.isNullType) ≤ 1)
      (hflat : ∀ l ∈ members, l.isUnion = false) (h : ∀ l ∈ members, Regular l) :
      Regular (.union members)
  | record {name : String} {fields : List (String × Option Json × Layout)}
      (hnames : (fields.map (·.1)).Nodup) (h : ∀ f ∈ fields, Regular f.2.2) :
      Regular (.record name fields)

theorem mem_memberDeclarations {members : List Layout} {d : String × Layout} :
    d ∈ memberDeclarations members ↔ ∃ l ∈ members, d ∈ l.declarations := by
  induction members with
  | nil => simp [memberDeclarations]
  | cons l members ih => simp [memberDeclarations, ih]

theorem mem_fieldDeclarations {fields : List (String × Option Json × Layout)}
    {d : String × Layout} :
    d ∈ fieldDeclarations fields ↔ ∃ f ∈ fields, d ∈ f.2.2.declarations := by
  induction fields with
  | nil => simp [fieldDeclarations]
  | cons f fields ih =>
    obtain ⟨name, default, l⟩ := f
    simp [fieldDeclarations, ih]

/-- What a regular layout declares is regular. -/
theorem Regular.declared {l : Layout} (h : l.Regular) :
    ∀ d ∈ l.declarations, d.2.Regular := by
  induction h with
  | primitive | reference => simp [declarations]
  | array _ ih => exact ih
  | union _ _ _ ih =>
    intro d hd
    rw [declarations] at hd
    obtain ⟨l, hl, hd⟩ := mem_memberDeclarations.mp hd
    exact ih l hl d hd
  | record hnames h ih =>
    intro d hd
    rw [declarations] at hd
    obtain rfl | hd := List.mem_cons.mp hd
    · exact .record hnames h
    · obtain ⟨f, hf, hd⟩ := mem_fieldDeclarations.mp hd
      exact ih f hf d hd

theorem meaning?_decimal {p : Primitive} {ms : List (String × Json)} {t : DecimalType}
    (h : meaning? p ms = some (.decimal t)) :
    p = .bytes ∧ Schema.logicalName? (.obj ms) = some "decimal" ∧ t = decimalType ms := by
  unfold meaning? at h
  split at h <;> first | contradiction | cases h
  exact ⟨rfl, ‹_›, rfl⟩

/-- The check of a decimal type refuses a negative scale. -/
theorem scale_nonneg {p : Primitive} {ms : List (String × Json)}
    (h : checkLogical ms = .ok ()) (t : DecimalType) (scale : Int)
    (ht : meaning? p ms = some (.decimal t)) (hscale : t.scale = some scale) : 0 ≤ scale := by
  obtain ⟨-, hlogical, rfl⟩ := meaning?_decimal ht
  have hdecimal : (lookup? "logicalType" ms).any (·.isStr "decimal") = true := by
    rw [Schema.logicalName?, Option.bind_eq_some_iff] at hlogical
    obtain ⟨j, hj, htext⟩ := hlogical
    rw [show lookup? "logicalType" ms = some j from hj, Option.any_some, Json.isStr, htext]
    rfl
  rw [checkLogical, if_pos hdecimal] at h
  unfold decimalType at hscale
  simp only at hscale
  cases hlookup : lookup? "scale" ms with
  | none =>
    rw [hlookup] at hscale
    obtain rfl := Option.some.inj hscale
    exact Int.le_refl 0
  | some s =>
    rw [hlookup] at hscale
    by_contra hnegative
    have hgiven : isGiven s = true := by
      cases s with
      | int n =>
        obtain rfl := Option.some.inj hscale
        simp only [isGiven, decide_eq_true_eq]
        omega
      | bool b => cases b <;> cases hscale <;> omega
      | _ => cases hscale
    rw [checkDecimal, hlookup, Option.filter_some, if_pos hgiven] at h
    simp only [hscale] at h
    rw [if_pos (by simpa using hnegative)] at h
    cases h

end Layout

namespace Schema

open Layout (Regular)

variable {names : List String} {enclosing : String} {node : Json} {layout : Layout}
  {ds : List (String × Json)}

/-! ## Null -/

theorem ofName?_null {name : String} : Primitive.ofName? name = some .null ↔ name = "null" := by
  constructor
  · intro h
    unfold Primitive.ofName? at h
    split at h <;> first | rfl | cases h
  · rintro rfl
    rfl

theorem isNullMember_obj (ms : List (String × Json)) :
    isNullMember (.obj ms) = decide (typeName (.obj ms) = "null") := by
  rw [isNullMember, typeName, typeNode]
  split
  · rename_i name htype
    rw [htype]
    rfl
  · rename_i hother
    cases htype : lookup? "type" ms with
    | none => rfl
    | some type =>
      cases type with
      | str name => exact absurd htype (hother name)
      | _ => rfl

/-- Null is the type of the nodes that count as null in a union. -/
theorem Describes.isNullType (h : Describes names enclosing node layout ds) :
    layout.isNullType = isNullMember node := by
  cases h with
  | @name _ name p hp =>
    by_cases hnull : name = "null"
    · subst hnull
      cases hp
      rfl
    · have hother : p ≠ .null := fun h => hnull (ofName?_null.mp (h ▸ hp))
      cases p <;> first | exact absurd rfl hother | simp [Layout.isNullType, isNullMember, hnull]
  | @reference _ name hp _ =>
    have hnull : name ≠ "null" := by
      rintro rfl
      cases hp
    simp [Layout.isNullType, isNullMember, hnull]
  | union => rfl
  | @annotated _ ms p hp =>
    rw [isNullMember_obj]
    by_cases hnull : typeName (.obj ms) = "null"
    · have hp' := hp
      rw [hnull] at hp'
      cases hp'
      simp [Layout.isNullType, hnull]
    · have hother : p ≠ .null := fun h => hnull (ofName?_null.mp (h ▸ hp))
      cases p <;> first | exact absurd rfl hother | simp [Layout.isNullType, hnull]
  | array hkind | map hkind | enum hkind | fixed hkind | record hkind =>
    rw [isNullMember_obj, hkind]
    rfl

/-! ## Checked schemas -/

section check

variable {schema : Json} {decls : List (String × Json)} {top : Layout} {declared after seen : List String}
  {default : Option Json} {fuel : Nat} {path : String}

theorem not_primitive_named {kind : String} (h : namedKinds.contains kind = true) :
    primitiveNames.contains kind = false ∧ kind ≠ "array" := by
  simp only [namedKinds, List.contains_eq_mem, decide_eq_true_eq, List.mem_cons,
    List.not_mem_nil, or_false] at h
  rcases h with rfl | rfl | rfl <;> decide

/-- Of the declarations only records are supported. -/
theorem checkNode_named {registry : Registry} {ms : List (String × Json)}
    (hnamed : namedKinds.contains (typeName (.obj ms)) = true)
    (h : checkNode registry fuel enclosing path declared (.obj ms) = .ok seen) :
    typeName (.obj ms) = "record" := by
  obtain ⟨hprimitive, harray⟩ := not_primitive_named hnamed
  by_cases hkind : typeName (.obj ms) = "record"
  · exact hkind
  · rw [checkNode] at h
    simp only [hprimitive, harray, hkind, Bool.false_eq_true, if_false] at h
    cases h

/-- A record that was entered is not entered again. -/
theorem checkNode_entered {registry : Registry} {ms : List (String × Json)}
    (hkind : typeName (.obj ms) = "record")
    (hseen : declared.contains (fullName (.obj ms) enclosing) = true) :
    checkNode registry fuel enclosing path declared (.obj ms) = .ok declared := by
  rw [checkNode]
  simp only [hkind, hseen]
  rfl

/-- A reference to a record that was entered adds no names. -/
theorem check_reference (ha : Accepted schema top decls) {name : String}
    (hp : Primitive.ofName? name = none)
    (hmem : referenceName name enclosing ∈ decls.map (·.1))
    (hseen : declared.contains (referenceName name enclosing) = true)
    (h : checkNode (Registry.ofSchema schema) fuel enclosing path declared (.str name) = .ok seen) :
    seen = declared := by
  obtain ⟨ms, outer, l, hdecl, hname, hnamed, -, -⟩ := ha.declaration hmem
  have hprimitive : primitiveNames.contains name = false := by
    rw [Bool.eq_false_iff, Ne, isPrimitive_iff, hp]
    exact Bool.false_ne_true
  rw [checkNode] at h
  simp only [hprimitive, resolve_reference hp (ha.lookup_registry hdecl)] at h
  cases fuel with
  | zero =>
    cases h
    rfl
  | succ fuel =>
    have hfull : fullName (.obj ms)
        (namespaceOf (.obj ms) (splitName (referenceName name enclosing)).1) =
          referenceName name enclosing := by
      rw [fullName_namespaceOf, ← hname]
      exact fullName_namespaceOf ms outer
    simp only [Bool.false_eq_true, if_false] at h
    rw [checkNode_entered (checkNode_named hnamed h) (by rw [hfull]; exact hseen)] at h
    exact (Except.ok.inj h).symm

theorem checkNode_items {registry : Registry} {ms : List (String × Json)}
    (hkind : typeName (.obj ms) = "array") :
    checkNode registry fuel enclosing path declared (.obj ms) =
      checkNode registry fuel enclosing (path ++ "/items") declared (itemsOf (.obj ms)) := by
  rw [checkNode]
  simp only [hkind, if_neg (show ¬ primitiveNames.contains "array" = true by decide), if_true]
  split
  · rename_i items hitems
    rw [itemsOf_eq hitems]
  · rename_i hnone
    have hnull : itemsOf (.obj ms) = .str "null" := by
      simp [itemsOf, Json.getD, Json.get?, Json.members, hnone]
    rw [hnull, checkNode]
    rfl

theorem checkNode_record {registry : Registry} {ms : List (String × Json)}
    (hkind : typeName (.obj ms) = "record") (hfresh : fullName (.obj ms) enclosing ∉ declared) :
    checkNode registry fuel enclosing path declared (.obj ms) =
      checkFields registry fuel (splitName (fullName (.obj ms) enclosing)).1 path
        (fullName (.obj ms) enclosing) [] (fullName (.obj ms) enclosing :: declared)
        (fieldsOf (.obj ms)) := by
  have hseen : declared.contains (fullName (.obj ms) enclosing) = false := by simpa using hfresh
  rw [checkNode]
  simp only [hkind, hseen, if_neg (show ¬ primitiveNames.contains "record" = true by decide),
    if_neg (show ¬ "record" = "array" by decide), if_true, Bool.false_eq_true, if_false]
  split
  · rename_i fields hfields
    rw [fieldsOf_arr hfields]
  · rename_i hnone
    rw [fieldsOf_eq_nil hnone, checkFields]

theorem checkNode_other {registry : Registry} {ms : List (String × Json)}
    (hprimitive : primitiveNames.contains (typeName (.obj ms)) = false)
    (harray : typeName (.obj ms) ≠ "array") (hrecord : typeName (.obj ms) ≠ "record") :
    checkNode registry fuel enclosing path declared (.obj ms) =
      invalid path (.unsupportedType (lookup? "type" ms)) := by
  rw [checkNode]
  simp only [hprimitive, harray, hrecord, Bool.false_eq_true, if_false]

theorem checkNode_primitive {registry : Registry} {ms : List (String × Json)} {p : Primitive}
    (h : Primitive.ofName? (typeName (.obj ms)) = some p) :
    checkNode registry fuel enclosing path declared (.obj ms) = .ok declared := by
  have hprimitive : primitiveNames.contains (typeName (.obj ms)) = true :=
    isPrimitive_iff.mpr (by rw [h]; rfl)
  rw [checkNode]
  simp only [hprimitive, if_true]

theorem checkMembers_cons {registry : Registry} {member : Json} {rest : List Json}
    (hflat : ∀ ms, member ≠ .arr ms) :
    checkMembers registry fuel enclosing path declared (member :: rest) =
      match checkNode registry fuel enclosing path declared member with
      | .error e => .error e
      | .ok entered => checkMembers registry fuel enclosing path entered rest := by
  refine (checkMembers.eq_def registry fuel enclosing path declared _).trans ?_
  cases member with
  | arr ms => exact absurd rfl (hflat ms)
  | _ => rfl

theorem checkMembers_ok {registry : Registry} {member : Json} {rest : List Json}
    (h : checkMembers registry fuel enclosing path declared (member :: rest) = .ok seen) :
    (∀ ms, member ≠ .arr ms) ∧
      ∃ entered, checkNode registry fuel enclosing path declared member = .ok entered ∧
        checkMembers registry fuel enclosing path entered rest = .ok seen := by
  have hflat : ∀ ms, member ≠ .arr ms := by
    rintro ms rfl
    rw [checkMembers] at h
    cases h
  rw [checkMembers_cons hflat] at h
  split at h
  · cases h
  · rename_i entered hcheck
    exact ⟨hflat, entered, hcheck, h⟩

theorem checkFields_typeOf {registry : Registry} {record : String} {taken : List String}
    {field : Json} {rest : List Json} :
    checkFields registry fuel enclosing path record taken declared (field :: rest) =
      if !field.has "name" then invalid path .namelessField
      else if taken.contains (nameOf field) then invalid path (.duplicateField (nameOf field) record)
      else
        match checkNode registry fuel enclosing (path ++ "/" ++ nameOf field) declared
          (typeOf field) with
        | .error e => .error e
        | .ok entered =>
          checkFields registry fuel enclosing path record (nameOf field :: taken) entered rest := by
  rw [checkFields, typeOf, Json.getD]
  simp only
  split
  · rfl
  split
  · rfl
  · cases htype : field.get? "type" with
    | some type => rfl
    | none =>
      rw [Option.getD_none, checkNode]
      rfl

theorem checkFields_cons {registry : Registry} {record : String} {taken : List String}
    {field : Json} {rest : List Json}
    (h : checkFields registry fuel enclosing path record taken declared (field :: rest) =
      .ok seen) :
    ∃ entered, field.has "name" = true ∧ nameOf field ∉ taken ∧
      checkNode registry fuel enclosing (path ++ "/" ++ nameOf field) declared (typeOf field) =
        .ok entered ∧
      checkFields registry fuel enclosing path record (nameOf field :: taken) entered rest =
        .ok seen := by
  rw [checkFields_typeOf] at h
  split at h
  · cases h
  rename_i hnamed
  split at h
  · cases h
  rename_i hnew
  split at h
  · cases h
  · rename_i entered hcheck
    exact ⟨entered, by simpa using hnamed, by simpa using hnew, hcheck, h⟩

theorem Describes.isUnion (h : Describes names enclosing node layout ds)
    (hflat : ∀ ms, node ≠ .arr ms) : layout.isUnion = false := by
  cases h with
  | union => exact absurd rfl (hflat _)
  | _ => rfl

/-- A union that passes has one member at most whose layout is not that of null. -/
theorem countP_layouts {members : List Json} {layouts : List Layout}
    (h : DescribedMembers declared enclosing members layouts after)
    (hone : (nonNullMembers members).length ≤ 1) : layouts.countP (!·.isNullType) ≤ 1 := by
  obtain ⟨pieces, rfl, rfl, -, hpieces⟩ := h
  refine Nat.le_trans ?_ hone
  rw [nonNullMembers, ← List.countP_eq_length_filter, List.countP_map, List.countP_map]
  refine List.countP_mono_left fun p hp hlayout => ?_
  have hnull := (hpieces after (List.Subset.refl _) p hp).isNullType
  simp only [Function.comp_apply, Bool.not_eq_true'] at hlayout ⊢
  rw [hnull] at hlayout
  cases hnode : p.node with
  | str name => simpa [hnode, isNullMember, Json.isStr, Json.text?] using hlayout
  | _ => rfl

theorem ofName_regular {name : String}
    (h : Layout.ofName declared enclosing default name = .ok layout) : layout.Regular := by
  obtain ⟨ds, -, hdescribes⟩ := ofName_described h
  cases hdescribes declared (List.Subset.refl _) with
  | name => exact .primitive _ nofun
  | reference => exact .reference _

theorem ofName_declared {name : String} (hp : Primitive.ofName? name = none)
    (h : Layout.ofName declared enclosing default name = .ok layout) :
    declared.contains (referenceName name enclosing) = true := by
  rw [Layout.ofName] at h
  simp only [hp, Layout.declaredName_eq] at h
  split at h
  · assumption
  · cases h

end check

mutual

/-- What the check has entered behind a node is what the layout of the node declares, and the layout
is regular. -/
theorem LaysOut.regular {schema : Json} {decls : List (String × Json)} {top : Layout}
    (ha : Accepted schema top decls) {declared after seen : List String} {enclosing path : String}
    {fuel : Nat} {node : Json} {layout : Layout}
    (h : LaysOut declared enclosing node layout after) (hn : after ⊆ decls.map (·.1))
    (hc : checkNode (Registry.ofSchema schema) fuel enclosing path declared node = .ok seen) :
    seen = after ∧ layout.Regular := by
  match h with
  | @LaysOut.name _ _ name _ _ h =>
    refine ⟨?_, ofName_regular h⟩
    cases hp : Primitive.ofName? name with
    | some p =>
      have hprimitive : primitiveNames.contains name = true := isPrimitive_iff.mpr (by rw [hp]; rfl)
      rw [checkNode] at hc
      simp only [hprimitive, if_true] at hc
      exact (Except.ok.inj hc).symm
    | none =>
      have hseen := ofName_declared hp h
      exact check_reference ha hp (hn (by simpa using hseen)) hseen hc
  | .union h =>
    rw [checkNode] at hc
    split at hc
    · cases hc
    rename_i hone
    obtain ⟨hseen, hregular⟩ := h.regular ha hn hc
    exact ⟨hseen, .union (countP_layouts h.described (Nat.le_of_not_lt hone))
      (fun l hl => (hregular l hl).1) fun l hl => (hregular l hl).2⟩
  | .array hkind hitems h =>
    rw [checkNode_items hkind, itemsOf_eq hitems] at hc
    obtain ⟨hseen, hregular⟩ := h.regular ha hn hc
    exact ⟨hseen, .array hregular⟩
  | .map hkind _ _ =>
    rw [checkNode_other (by rw [hkind]; decide) (by rw [hkind]; decide)
      (by rw [hkind]; decide)] at hc
    cases hc
  | .enum hkind _ | .fixed hkind _ =>
    have hrecord := checkNode_named (by rw [hkind]; rfl) hc
    exact absurd (hkind.symm.trans hrecord) (by decide)
  | .record hkind hfresh h =>
    rw [checkNode_record hkind hfresh] at hc
    obtain ⟨hseen, hnames, hregular⟩ := h.regular ha hn hc
    exact ⟨hseen, .record hnames fun f hf => (hregular f hf).2⟩
  | .annotated hlogical h =>
    obtain ⟨p, hp, rfl⟩ := ofAnnotated_ok h
    rw [checkNode_primitive hp] at hc
    exact ⟨(Except.ok.inj hc).symm, .primitive p (Layout.scale_nonneg hlogical)⟩

theorem MembersLayOut.regular {schema : Json} {decls : List (String × Json)} {top : Layout}
    (ha : Accepted schema top decls) {declared after seen : List String} {enclosing path : String}
    {fuel : Nat} {members : List Json} {layouts : List Layout}
    (h : MembersLayOut declared enclosing members layouts after) (hn : after ⊆ decls.map (·.1))
    (hc : checkMembers (Registry.ofSchema schema) fuel enclosing path declared members =
      .ok seen) :
    seen = after ∧ ∀ l ∈ layouts, l.isUnion = false ∧ l.Regular := by
  match h with
  | .nil =>
    rw [checkMembers] at hc
    exact ⟨(Except.ok.inj hc).symm, fun _ hl => nomatch hl⟩
  | @MembersLayOut.cons _ _ _ _ member _ layout _ h hrest =>
    obtain ⟨hflat, entered, hcheck, hc⟩ := checkMembers_ok hc
    obtain ⟨rfl, hregular⟩ := h.regular ha (List.Subset.trans hrest.subset hn) hcheck
    obtain ⟨hseen, hall⟩ := hrest.regular ha hn hc
    obtain ⟨_, -, hdescribes⟩ := h.described
    refine ⟨hseen, fun l hl => ?_⟩
    obtain rfl | hl := List.mem_cons.mp hl
    · exact ⟨(hdescribes _ (List.Subset.refl _)).isUnion hflat, hregular⟩
    · exact hall l hl

theorem FieldsLayOut.regular {schema : Json} {decls : List (String × Json)} {top : Layout}
    (ha : Accepted schema top decls) {declared after seen taken : List String}
    {inner path record : String} {fuel : Nat} {fields : List Json}
    {layouts : List (String × Option Json × Layout)}
    (h : FieldsLayOut declared inner fields layouts after) (hn : after ⊆ decls.map (·.1))
    (hc : checkFields (Registry.ofSchema schema) fuel inner path record taken declared fields =
      .ok seen) :
    seen = after ∧ (layouts.map (·.1)).Nodup ∧
      ∀ f ∈ layouts, f.1 ∉ taken ∧ f.2.2.Regular := by
  match h with
  | .nil =>
    rw [checkFields] at hc
    exact ⟨(Except.ok.inj hc).symm, List.nodup_nil, fun _ hf => nomatch hf⟩
  | .cons _ htype h hrest =>
    obtain ⟨entered, -, hnew, hcheck, hc⟩ := checkFields_cons hc
    rw [typeOf_eq htype] at hcheck
    obtain ⟨rfl, hregular⟩ := h.regular ha (List.Subset.trans hrest.subset hn) hcheck
    obtain ⟨hseen, hnames, hall⟩ := hrest.regular ha hn hc
    refine ⟨hseen, ?_, fun f hf => ?_⟩
    · refine List.nodup_cons.mpr ⟨fun hmem => ?_, hnames⟩
      obtain ⟨f, hf, hname⟩ := List.mem_map.mp hmem
      exact (hall f hf).1 (hname ▸ List.mem_cons_self)
    · obtain rfl | hf := List.mem_cons.mp hf
      · exact ⟨hnew, hregular⟩
      · exact ⟨fun hmem => (hall f hf).1 (List.mem_cons_of_mem _ hmem), (hall f hf).2⟩

end

/-- The layout of an accepted schema comes about with no names but those of the declarations. -/
theorem Accepted.laysOut {schema : Json} {layout : Layout} {decls : List (String × Json)}
    (ha : Accepted schema layout decls) (hl : Layout.ofSchema schema = .ok layout) :
    ∃ after, LaysOut [] "" schema layout after ∧ after ⊆ decls.map (·.1) := by
  obtain ⟨after, hlays⟩ := laysOut_ofSchema hl
  obtain ⟨ds, hadds, hdescribes⟩ := hlays.described
  have hnames : ds.map (·.1) = decls.map (·.1) :=
    (hdescribes _ (List.Subset.refl _)).names_eq.symm.trans ha.describes.names_eq
  refine ⟨after, hlays, fun name hname => ?_⟩
  rw [hadds.names, List.append_nil, hnames] at hname
  exact List.mem_reverse.mp hname

/-- A schema that passes the check has a regular layout. -/
theorem regular_of_check {schema : Json} {registry : Registry} {layout : Layout}
    (hc : Schema.check schema = .ok registry) (hl : Layout.ofSchema schema = .ok layout) :
    registry = Registry.ofSchema schema ∧ layout.Regular := by
  obtain ⟨decls, ha⟩ := accepted_of_ofSchema hl
  obtain ⟨after, hlays, hn⟩ := ha.laysOut hl
  rw [Schema.check] at hc
  split at hc
  · cases hc
  rename_i seen hcheck
  exact ⟨(Except.ok.inj hc).symm, (hlays.regular ha hn hcheck).2⟩

end Schema
end AvroDocument
