import AvroDocument.Proofs.ContainerPath
import AvroDocument.Proofs.Decisions
import AvroDocument.Proofs.Inlining
import AvroDocument.Proofs.Recovery
import Mathlib

/-!
# AvroDocument.Proofs.InlinedForms

The normal form of a schema in which references were replaced by what they stand for.

* `exists_recordForm`: two records with one normal form.
* `Schema.ReferencesAtHome`: references that are written where what they stand for has the full name
  that is meant.
* `Inlined.sameForm`: a type and the same type with references inlined have one normal form.
* `equivalent_inlined`: inlining references that are at home gives an equivalent schema.
* `equivalent_inlined_inherited`: inlining another one need not.
-/

namespace AvroDocument
namespace Schema

/-! ## Normal forms -/

section forms

variable {registry registry' : Registry} {fuel fuel' : Nat} {enclosing name : String}
  {stack : List String} {ms ns : List (String × Json)}

theorem normalNode_reference {declared : Json} (hname : primitiveNames.contains name = false)
    (h : registry.find? name enclosing = some declared) :
    normalNode registry (fuel + 1) enclosing stack (.str name) =
      normalNode registry fuel enclosing stack declared := by
  rw [normalNode, Registry.resolve]
  simp only [hname, h]
  rfl

theorem tidy_plainForm {node : Json} (h : node.Tidy) : (plainForm node).Tidy := by
  cases node with
  | obj ms =>
    simp only [plainForm, withoutDoc]
    have hrest : Json.Tidy (.obj (ms.filter fun m => m.1 ≠ "doc")) := by
      obtain ⟨hd, hm⟩ := Json.tidy_obj_iff.mp h
      exact .obj (hd.sublist ((List.filter_sublist).map _)) fun m hm' =>
        hm m (List.mem_filter.mp hm').1
    split
    · rename_i hms
      split
      · exact .str _
      · exact hms ▸ hrest
    · exact hrest
  | _ => exact h

theorem tidy_unionForm {forms : List Json} (h : ∀ form ∈ forms, form.Tidy) :
    (unionForm forms).Tidy :=
  .arr fun form hform => h form ((List.mergeSort_perm _ _).mem_iff.mp hform)

theorem tidy_arrayForm {form : Json} (h : form.Tidy) : (arrayForm form).Tidy :=
  .obj (by decide : ["type", "items"].Nodup)
    (List.forall_mem_cons.mpr ⟨.str _, List.forall_mem_singleton.mpr h⟩)

theorem tidy_recordForm {forms : List Json} (h : ∀ form ∈ forms, form.Tidy) :
    (recordForm name forms).Tidy := by
  have hfields : Json.Tidy (.arr (forms.mergeSort fieldLe)) :=
    .arr fun form hform => h form ((List.mergeSort_perm _ _).mem_iff.mp hform)
  exact .obj (by decide : ["type", "name", "fields"].Nodup) (List.forall_mem_cons.mpr
    ⟨.str _, List.forall_mem_cons.mpr ⟨.str _, List.forall_mem_singleton.mpr hfields⟩⟩)

theorem tidy_fieldForm {field type : Json} (h : field.Tidy) (ht : type.Tidy) :
    (fieldForm field type).Tidy := by
  have hname : (field.getD "name" .null).Tidy := by
    cases field with
    | obj ms =>
      rw [Json.getD]
      cases hget : (Json.obj ms).get? "name" with
      | none => exact .null
      | some name => exact h.lookup hget
    | _ => exact .null
  unfold fieldForm
  cases hdefault : field.get? "default" with
  | none =>
    exact .obj (by decide : ["name", "type"].Nodup)
      (List.forall_mem_cons.mpr ⟨hname, List.forall_mem_singleton.mpr ht⟩)
  | some d =>
    exact .obj (by decide : ["name", "type", "default"].Nodup)
      (List.forall_mem_cons.mpr ⟨hname, List.forall_mem_cons.mpr
        ⟨ht, List.forall_mem_singleton.mpr (tidy_default h d hdefault)⟩⟩)

theorem SameBut.fieldForm_eq {f g : Json} (h : SameBut "type" f g) (type : Json) :
    fieldForm g type = fieldForm f type := by
  simp only [fieldForm, Json.getD, h "name" (by decide), h "default" (by decide)]

/-- Two records have one normal form when they have one full name, the same fields but for types,
and the types one normal form each. -/
theorem exists_recordForm {pairs : List (Json × Json)} (hkind : typeName (.obj ms) = "record")
    (hkind' : typeName (.obj ns) = "record") (hname : fullName (.obj ms) enclosing = name)
    (hname' : fullName (.obj ns) enclosing = name) (hfields : fieldsOf (.obj ms) = pairs.map (·.1))
    (hfields' : fieldsOf (.obj ns) = pairs.map (·.2))
    (hfield : ∀ p ∈ pairs, p.1.has "name" = true ∧ p.1.Tidy ∧ SameBut "type" p.1 p.2)
    (h : name ∉ stack → ∀ p ∈ pairs, ∃ form,
      normalNode registry fuel (splitName name).1 (name :: stack) (typeOf p.1) = .ok form ∧
      normalNode registry' fuel' (splitName name).1 (name :: stack) (typeOf p.2) = .ok form ∧
      form.Tidy) :
    ∃ form, normalNode registry fuel enclosing stack (.obj ms) = .ok form ∧
      normalNode registry' fuel' enclosing stack (.obj ns) = .ok form ∧ form.Tidy := by
  by_cases hstack : name ∈ stack
  · refine ⟨.str name, ?_, ?_, .str _⟩
    · rw [normalNode_entered hkind (hname ▸ hstack), hname]
    · rw [normalNode_entered hkind' (hname' ▸ hstack), hname']
  · obtain ⟨form, hform⟩ := exists_forall_mem (h hstack)
    have hfirst := normalNode_fields hkind hname hstack
      (show _ = (pairs.map fun p => (p.1, form p)).map (·.1) by rw [hfields, List.map_map]; rfl)
      (List.forall_mem_map.mpr fun p hp => (hfield p hp).1)
      (List.forall_mem_map.mpr fun p hp => (hform p hp).1)
    have hsecond := normalNode_fields hkind' hname' hstack
      (show _ = (pairs.map fun p => (p.2, form p)).map (·.1) by rw [hfields', List.map_map]; rfl)
      (List.forall_mem_map.mpr fun p hp => by
        rw [Json.has, (hfield p hp).2.2 "name" (by decide)]
        exact (hfield p hp).1)
      (List.forall_mem_map.mpr fun p hp => (hform p hp).2.1)
    rw [List.map_map] at hfirst hsecond
    have hforms : pairs.map ((fun p => fieldForm p.1 p.2) ∘ fun p => (p.2, form p)) =
        pairs.map ((fun p => fieldForm p.1 p.2) ∘ fun p => (p.1, form p)) :=
      List.map_congr_left fun p hp => (hfield p hp).2.2.fieldForm_eq (form p)
    refine ⟨_, hfirst, hforms ▸ hsecond, tidy_recordForm (List.forall_mem_map.mpr fun p hp => ?_)⟩
    exact tidy_fieldForm (hfield p hp).2.1 (hform p hp).2.2

end forms

/-! ## Inlining keeps the normal form -/

/-- Every reference in a schema is written where the declaration that it stands for has the full
name that is meant: the declaration says its namespace, or the reference is written in it. -/
def ReferencesAtHome (schema : Json) : Prop :=
  ∀ enclosing name declared, StandsIn schema enclosing (.str name) →
    primitiveNames.contains name = false →
    (Registry.ofSchema schema).find? name enclosing = some declared →
    fullName declared enclosing = referenceName name enclosing

/-- A schema and the same schema with references inlined, which declares the same names. -/
structure Inlined (schema schema' : Json) (top : Layout) (decls : List (String × Json)) : Prop where
  accepted : Accepted schema top decls
  allowed : Allowed (Registry.ofSchema schema) "" schema
  tidy : schema.Tidy
  atHome : ReferencesAtHome schema
  inlines : Inlines (Registry.ofSchema schema) "" schema schema'

section inlined

variable {schema schema' node node' : Json} {top : Layout} {decls : List (String × Json)}
  {enclosing : String} {stack : List String}

/-- The last declaration under a name is found. -/
theorem lookup_declareAll_last {ds : List (String × Json)} {name : String}
    (h : name ∈ ds.map (·.1)) (registry : Registry) :
    ∃ d ∈ ds, d.1 = name ∧ lookup? name (registry.declareAll ds) = some d.2 := by
  induction ds generalizing registry with
  | nil => cases h
  | cons d ds ih =>
    by_cases hlater : name ∈ ds.map (·.1)
    · obtain ⟨d', hd', hname, hlookup⟩ := ih hlater (registry.declare d.1 d.2)
      exact ⟨d', List.mem_cons_of_mem _ hd', hname, hlookup⟩
    · obtain rfl := (List.mem_cons.mp h).resolve_right hlater
      refine ⟨d, List.mem_cons_self, rfl, ?_⟩
      show lookup? d.1 ((registry.declare d.1 d.2).declareAll ds) = some d.2
      exact Registry.lookup_declareAll_other hlater (Registry.lookup_declare_same _ _ _)

theorem Inlined.redeclares (h : Inlined schema schema' top decls) :
    Redeclares schema decls "" schema' decls :=
  h.inlines.redeclares h.accepted h.allowed .whole h.accepted.describes (List.Subset.refl _)

/-- What a name that the schema declares stands for in the other one. -/
theorem Inlined.lookup (h : Inlined schema schema' top decls) {name : String} {declared : Json}
    (hmem : (name, declared) ∈ decls) :
    ∃ declared', lookup? name (Registry.ofSchema schema') = some declared' ∧
      Counterpart (Registry.ofSchema schema) name declared declared' := by
  obtain ⟨layout, ds, hd, hreplaces, hnames⟩ := h.redeclares
  obtain ⟨d, hdmem, rfl, hlookup⟩ := lookup_declareAll_last
    (hnames (List.mem_map_of_mem (f := (·.1)) hmem)) []
  obtain ⟨declared', hmem', hcounterpart⟩ := hreplaces d hdmem
  have hregistry : Registry.ofSchema schema' = Registry.declareAll [] ds := hd.collect_eq []
  rw [← h.accepted.unique hmem' hmem, hregistry]
  exact ⟨d.2, hlookup, hcounterpart⟩

/-- The other schema has room for the names. -/
theorem Inlined.length_le (h : Inlined schema schema' top decls) :
    decls.length ≤ schema'.nodeCount := by
  obtain ⟨layout, ds, hd, -, hnames⟩ := h.redeclares
  have hlength := (h.accepted.distinct.subperm hnames).length_le
  rw [List.length_map, List.length_map] at hlength
  exact Nat.le_trans hlength hd.length_le

/-- The number of declarations that are not around a node. -/
def unentered (decls : List (String × Json)) (stack : List String) : Nat :=
  ((decls.map (·.1)).filter fun name => !stack.contains name).length

theorem unentered_cons {name : String} (hmem : name ∈ decls.map (·.1)) (hnew : name ∉ stack) :
    unentered decls (name :: stack) < unentered decls stack :=
  unseen_cons hmem (by simpa using hnew)

/-- Whether a node of a schema and the same node with references inlined have one normal form, under
any records, when there is fuel for the records that are not around them. -/
def SameForm (schema schema' : Json) (decls : List (String × Json)) (bound : Nat)
    (enclosing : String) (node node' : Json) : Prop :=
  ∀ fuel fuel' stack, unentered decls stack ≤ bound → bound < fuel → bound < fuel' →
    ∃ form, normalNode (Registry.ofSchema schema) fuel enclosing stack node = .ok form ∧
      normalNode (Registry.ofSchema schema') fuel' enclosing stack node' = .ok form ∧ form.Tidy

/-- Whether that is so of all nodes when there are fewer records. -/
def SameFormsBelow (schema schema' : Json) (decls : List (String × Json)) (bound : Nat) : Prop :=
  ∀ smaller < bound, ∀ enclosing node node', StandsIn schema enclosing node →
    Inlines (Registry.ofSchema schema) enclosing node node' →
      SameForm schema schema' decls smaller enclosing node node'

/-- A record under its full name. Entering it leaves fewer records. -/
theorem Inlined.sameForm_record (hi : Inlined schema schema' top decls) {name outer : String}
    {bound : Nat} {ms : List (String × Json)} (hmem : (name, .obj ms) ∈ decls)
    (hkind : typeName (.obj ms) = "record") (hs : StandsIn schema outer (.obj ms))
    (houter : fullName (.obj ms) outer = name) (hname : fullName (.obj ms) enclosing = name)
    (hcounterpart : Counterpart (Registry.ofSchema schema) name (.obj ms) node')
    (hname' : fullName node' enclosing = name)
    (ih : SameFormsBelow schema schema' decls bound) {fuel fuel' : Nat}
    (hstack : unentered decls stack ≤ bound) (hfuel : bound ≤ fuel)
    (hfuel' : bound ≤ fuel') :
    ∃ form, normalNode (Registry.ofSchema schema) fuel enclosing stack (.obj ms) = .ok form ∧
      normalNode (Registry.ofSchema schema') fuel' enclosing stack node' = .ok form ∧
      form.Tidy := by
  obtain ⟨ns, rfl, hkind'⟩ := hcounterpart.isRecord
  obtain ⟨pairs, hfields, hfields', hpairs⟩ := hcounterpart.fields
  have hmemField : ∀ p ∈ pairs, p.1 ∈ fieldsOf (.obj ms) :=
    fun p hp => hfields ▸ List.mem_map_of_mem hp
  obtain ⟨-, hnamed⟩ := (hs.allowed hi.allowed).fields hkind
  have htidy := tidy_fieldsOf (hs.typeIn.inherit hereditary_tidy hi.tidy)
  refine exists_recordForm hkind hkind' hname hname' hfields hfields'
    (fun p hp => ⟨(hnamed _ (hmemField p hp)).1, htidy _ (hmemField p hp), (hpairs p hp).1⟩)
    fun hnew p hp => ?_
  have hless := unentered_cons (List.mem_map_of_mem (f := (·.1)) hmem) hnew
  have hinner : StandsIn schema (splitName name).1 (typeOf p.1) :=
    houter ▸ hs.field hkind (hmemField p hp)
  exact ih _ (by omega) _ _ _ hinner (hpairs p hp).2 fuel fuel' (name :: stack) (Nat.le_refl _)
    (by omega) (by omega)

theorem Inlines.of_primitive {registry : Registry} (h : Inlines registry enclosing node node')
    (hprimitive : primitiveNames.contains (typeName node) = true) : node' = node := by
  cases h with
  | same => rfl
  | reference hname =>
    rw [typeName_primitive, hname] at hprimitive
    cases hprimitive
  | union => cases hprimitive
  | array hkind | record hkind => exact absurd (hkind ▸ hprimitive) (by decide)

theorem Inlines.members {registry : Registry} {ms : List Json}
    (h : Inlines registry enclosing (.arr ms) node') :
    ∃ pairs : List (Json × Json), ms = pairs.map (·.1) ∧ node' = .arr (pairs.map (·.2)) ∧
      ∀ p ∈ pairs, Inlines registry enclosing p.1 p.2 := by
  cases h with
  | same =>
    obtain ⟨hfst, hsnd⟩ := map_diagonal ms
    exact ⟨_, hfst, congrArg Json.arr hsnd, List.forall_mem_map.mpr fun _ _ => .same⟩
  | union h => exact ⟨_, rfl, rfl, h⟩
  | array _ hitems => cases hitems
  | record _ hfields => cases hfields

theorem Inlines.items {registry : Registry} {ms : List (String × Json)}
    (h : Inlines registry enclosing (.obj ms) node') (hkind : typeName (.obj ms) = "array") :
    ∃ ns, node' = .obj ns ∧ typeName (.obj ns) = "array" ∧
      Inlines registry enclosing (itemsOf (.obj ms)) (itemsOf (.obj ns)) := by
  cases h with
  | same => exact ⟨ms, rfl, hkind, .same⟩
  | record hrecord => exact absurd (hkind.symm.trans hrecord) (by decide)
  | @array _ _ items items' _ hitems h =>
    have hsame : SameBut "items" (.obj ms) ((Json.obj ms).put "items" items') :=
      sameBut_put hitems _
    have hitemsOf' : itemsOf ((Json.obj ms).put "items" items') = items' := by
      rw [itemsOf, Json.getD, Json.get?_put hitems, if_pos rfl]
      rfl
    exact ⟨_, rfl, (hsame.typeName_eq (by decide)).trans hkind,
      itemsOf_eq hitems ▸ hitemsOf'.symm ▸ h⟩

/-- A reference is followed in both schemas, or was replaced by a copy of what it leads to. -/
theorem Inlined.sameForm_reference (hi : Inlined schema schema' top decls) {name : String}
    {bound : Nat} (hs : StandsIn schema enclosing (.str name))
    (hprimitive : primitiveNames.contains name = false)
    (h : Inlines (Registry.ofSchema schema) enclosing (.str name) node')
    (ih : SameFormsBelow schema schema' decls bound) :
    SameForm schema schema' decls bound enclosing (.str name) node' := by
  intro fuel fuel' stack hstack hfuel hfuel'
  obtain ⟨ms, outer, hmem, hkind, houter, hs', hfind⟩ :=
    hs.reference hi.accepted hi.allowed hprimitive
  have hname := hi.atHome _ _ _ hs hprimitive hfind
  have hdot := hasDot_referenceName name enclosing
  obtain ⟨fuel, rfl⟩ := Nat.exists_eq_add_one.mpr (Nat.zero_lt_of_lt hfuel)
  rw [normalNode_reference hprimitive hfind]
  cases h with
  | same =>
    obtain ⟨declared', hlookup, hcounterpart⟩ := hi.lookup hmem
    have hfind' : (Registry.ofSchema schema').find? name enclosing = some declared' := by
      rw [Registry.find?, hlookup]
      rfl
    obtain ⟨fuel', rfl⟩ := Nat.exists_eq_add_one.mpr (Nat.zero_lt_of_lt hfuel')
    rw [normalNode_reference hprimitive hfind']
    exact hi.sameForm_record hmem hkind hs' houter hname hcounterpart
      (hcounterpart.fullName_eq _ hname hdot) ih hstack (Nat.le_of_lt_succ hfuel)
      (Nat.le_of_lt_succ hfuel')
  | reference _ hfind' =>
    obtain rfl := Option.some.inj (hfind.symm.trans hfind')
    exact hi.sameForm_record hmem hkind hs' houter hname (.copy hkind _) (fullName_copyOf hdot) ih
      hstack (Nat.le_of_lt_succ hfuel) (Nat.le_of_lt hfuel')
  | array _ hitems => cases hitems
  | record _ hfields => cases hfields

/-- A type inside a schema and the same type with references inlined have one normal form. The
induction is on the number of records that are not around it; each reference that is followed leads
to one of them, or to one that is left as its name. -/
theorem Inlined.sameForm (hi : Inlined schema schema' top decls) (bound : Nat) :
    ∀ enclosing node node', StandsIn schema enclosing node →
      Inlines (Registry.ofSchema schema) enclosing node node' →
        SameForm schema schema' decls bound enclosing node node' := by
  induction bound using Nat.strong_induction_on with
  | _ bound ih =>
    intro enclosing node node' hs h
    have hallowed := hs.allowed hi.allowed
    induction hallowed generalizing node' with
    | @name _ name hprimitive =>
      intro fuel fuel' stack _ _ _
      obtain rfl := h.of_primitive hprimitive
      exact ⟨_, normalNode_primitive hprimitive, normalNode_primitive hprimitive, .str _⟩
    | @annotated _ ms hprimitive =>
      intro fuel fuel' stack _ _ _
      obtain rfl := h.of_primitive hprimitive
      exact ⟨_, normalNode_annotated hprimitive, normalNode_annotated hprimitive,
        tidy_plainForm (hs.typeIn.inherit hereditary_tidy hi.tidy)⟩
    | @reference enclosing name declared hfind hkind =>
      by_cases hprimitive : primitiveNames.contains name = true
      · intro fuel fuel' stack _ _ _
        obtain rfl := h.of_primitive hprimitive
        exact ⟨_, normalNode_primitive hprimitive, normalNode_primitive hprimitive, .str _⟩
      · rw [Bool.not_eq_true] at hprimitive
        exact hi.sameForm_reference hs hprimitive h ih
    | @union enclosing members _ _ _ ihmembers =>
      intro fuel fuel' stack hstack hfuel hfuel'
      obtain ⟨pairs, rfl, rfl, hpairs⟩ := h.members
      obtain ⟨form, hform⟩ := exists_forall_mem fun p hp =>
        ihmembers p.1 (List.mem_map_of_mem hp) p.2 (hs.inner (List.mem_map_of_mem hp))
          (hpairs p hp) fuel fuel' stack hstack hfuel hfuel'
      have hfirst := normalNode_union (List.forall_mem_map.mpr fun p hp => (hform p hp).1 :
        ∀ q ∈ pairs.map fun p => (p.1, form p), normalNode _ fuel enclosing stack q.1 = .ok q.2)
      have hsecond := normalNode_union (List.forall_mem_map.mpr fun p hp => (hform p hp).2.1 :
        ∀ q ∈ pairs.map fun p => (p.2, form p), normalNode _ fuel' enclosing stack q.1 = .ok q.2)
      rw [List.map_map, List.map_map] at hfirst hsecond
      exact ⟨_, hfirst, hsecond,
        tidy_unionForm (List.forall_mem_map.mpr fun p hp => (hform p hp).2.2)⟩
    | @array enclosing ms hkind _ ihitems =>
      intro fuel fuel' stack hstack hfuel hfuel'
      obtain ⟨ns, rfl, hkind', hinlines⟩ := h.items hkind
      obtain ⟨form, hfirst, hsecond, htidy⟩ :=
        ihitems _ (hs.items hi.accepted hkind) hinlines fuel fuel' stack hstack hfuel hfuel'
      exact ⟨_, normalNode_array hkind hfirst, normalNode_array hkind' hsecond,
        tidy_arrayForm htidy⟩
    | @record enclosing ms hkind hnamed _ _ _ =>
      intro fuel fuel' stack hstack hfuel hfuel'
      obtain ⟨hcounterpart, hname'⟩ := h.counterpart hkind hnamed
      exact hi.sameForm_record (hs.declared hi.accepted hkind) hkind hs rfl rfl hcounterpart hname'
        ih hstack (Nat.le_of_lt hfuel) (Nat.le_of_lt hfuel')

/-- With references at home, inlining some of them gives a schema with the same normal form. -/
theorem Inlined.normal_eq (hi : Inlined schema schema' top decls) :
    ∃ form, normal schema "" = .ok form ∧ normal schema' "" = .ok form ∧ form.Tidy := by
  have hlength : unentered decls [] ≤ decls.length := by
    rw [unentered]
    exact Nat.le_trans (List.length_filter_le _ _) (List.length_map _).le
  have hbound (schema : Json) (h : decls.length ≤ schema.nodeCount) :
      decls.length < Registry.depthBound schema := by
    rw [Registry.depthBound]
    nlinarith [schema.nodeCount_pos]
  exact hi.sameForm decls.length "" schema schema' .whole hi.inlines _ _ [] hlength
    (hbound schema hi.accepted.length_le) (hbound schema' hi.length_le)

/-- A declaration whose full name does not depend on where it stands. -/
def saysNamespace (node : Json) : Bool := hasDot (textOf node "name") || node.has "namespace"

theorem fullName_of_saysNamespace {ms : List (String × Json)}
    (h : saysNamespace (.obj ms) = true) (enclosing other : String) :
    fullName (.obj ms) enclosing = fullName (.obj ms) other := by
  by_cases hdot : hasDot (textOf (.obj ms) "name") = true
  · simp only [fullName, hdot, if_true]
  · have hspace : (Json.obj ms).has "namespace" = true := by simpa [saysNamespace, hdot] using h
    simp only [fullName, hspace, if_true]

/-- References are at home where every record says its namespace. -/
theorem referencesAtHome_of_saysNamespace (ha : Accepted schema top decls)
    (hallowed : Allowed (Registry.ofSchema schema) "" schema)
    (h : ∀ node, TypeIn schema node → typeName node = "record" → saysNamespace node = true) :
    ReferencesAtHome schema := by
  intro enclosing name declared hs hname hfind
  obtain ⟨ms, outer, -, hkind, houter, hs', hfind'⟩ := hs.reference ha hallowed hname
  obtain rfl := Option.some.inj (hfind.symm.trans hfind')
  rw [← houter]
  exact fullName_of_saysNamespace (h _ hs'.typeIn hkind) enclosing outer

end inlined

/-- With references at home, an accepted schema in which references were replaced by copies of what
they stand for has the same normal form, so it is equivalent. -/
theorem equivalent_inlined {options : Options} {schema schema' : Json} {e : Encoder}
    (he : Encoder.ofSchema options schema = .ok e) (ht : schema.Tidy)
    (hhome : ReferencesAtHome schema)
    (h : Inlines (Registry.ofSchema schema) "" schema schema') :
    normal schema' "" = normal schema "" ∧ equivalent schema schema' = .ok true := by
  obtain ⟨_, hcheck, hlayout, -⟩ := Encoder.ofSchema_parts he
  obtain ⟨decls, ha⟩ := accepted_of_ofSchema hlayout
  have hi : Inlined schema schema' _ decls :=
    ⟨ha, (check_iff_allowed hlayout).mp hcheck, ht, hhome, h⟩
  obtain ⟨form, hform, hform', htidy⟩ := hi.normal_eq
  rw [equivalent, hform, hform']
  exact ⟨rfl, congrArg Except.ok (Json.same_self htidy)⟩

/-! ## A reference from another namespace -/

def emptyRecord (name : String) : Json :=
  .obj [("type", .str "record"), ("name", .str name), ("fields", .arr [])]

/-- A record `b.B` with a field of a type. -/
def recordAway (type : Json) : Json :=
  .obj [("type", .str "record"), ("name", .str "B"), ("namespace", .str "b"),
    ("fields", .arr [.obj [("name", .str "z"), ("type", type)]])]

/-- A record `a.R` with a record, and `b.B` with a field of a type. -/
def besideAway (declared type : Json) : Json :=
  .obj [("type", .str "record"), ("name", .str "R"), ("namespace", .str "a"), ("fields", .arr [
    .obj [("name", .str "x"), ("type", declared)],
    .obj [("name", .str "y"), ("type", recordAway type)]])]

/-- How the records `a.R`, `a.T` and `b.B` are laid out, wherever `a.T` takes its namespace from. -/
def layoutBesideAway : Layout :=
  .record "a.R" [("x", none, .record "a.T" []),
    ("y", none, .record "b.B" [("z", none, .reference "a.T")])]

theorem inlines_besideAway {registry : Registry} {declared copy : Json}
    (h : Inlines registry "b" (.str "a.T") copy) :
    Inlines registry "" (besideAway declared (.str "a.T")) (besideAway declared copy) := by
  have hspace : namespaceOf (recordAway (.str "a.T")) "a" = "b" := by decide +kernel
  have hspace' : namespaceOf (besideAway declared (.str "a.T")) "" = "a" := by
    simp only [namespaceOf, fullName, besideAway]
    cbv
  have haway : Inlines registry "a" (recordAway (.str "a.T")) (recordAway copy) := by
    have hfields : ∀ p ∈ [(Json.obj [("name", .str "z"), ("type", .str "a.T")], copy)],
        Inlines registry (namespaceOf (recordAway (.str "a.T")) "a") (typeOf p.1) p.2 := by
      rw [hspace]
      exact List.forall_mem_singleton.mpr h
    exact Inlines.record rfl rfl hfields
  have hfields : ∀ p ∈ [(Json.obj [("name", .str "x"), ("type", declared)], declared),
        (.obj [("name", .str "y"), ("type", recordAway (.str "a.T"))], recordAway copy)],
      Inlines registry (namespaceOf (besideAway declared (.str "a.T")) "") (typeOf p.1) p.2 := by
    rw [hspace']
    exact List.forall_mem_cons.mpr ⟨.same, List.forall_mem_singleton.mpr haway⟩
  exact Inlines.record rfl rfl hfields

theorem inlines_emptyRecord {registry : Registry} {name : String}
    (h : registry.find? "a.T" "b" = some (emptyRecord name)) :
    Inlines registry "b" (.str "a.T") (emptyRecord "a.T") := by
  have hname : referenceName "a.T" "b" = "a.T" := by decide +kernel
  have hcopy := Inlines.reference (by decide) h
  rw [hname] at hcopy
  exact hcopy

/-- A record under its full name can be copied into another namespace. -/
theorem equivalent_inlined_named :
    let schema := besideAway (emptyRecord "a.T") (.str "a.T")
    ReferencesAtHome schema ∧
      equivalent schema (besideAway (emptyRecord "a.T") (emptyRecord "a.T")) = .ok true := by
  intro schema
  let options := Options.standard "R" "" (List.replicate 16 0)
  have hlayout : Layout.ofSchema schema = .ok layoutBesideAway := by decide +kernel
  have hcheck : check schema = .ok (Registry.ofSchema schema) := by decide +kernel
  have he : Encoder.ofSchema options schema =
      .ok ⟨schema, Registry.ofSchema schema, layoutBesideAway, options⟩ :=
    Encoder.ofSchema_eq _ hcheck hlayout
  have hsays : holdsDown (fun node => typeName node ≠ "record" || saysNamespace node) 4 schema =
    true := by decide +kernel
  obtain ⟨decls, ha⟩ := accepted_of_ofSchema hlayout
  have hhome : ReferencesAtHome schema := by
    refine referencesAtHome_of_saysNamespace ha ((check_iff_allowed hlayout).mp hcheck) ?_
    intro node hnode hkind
    have hnode := holds_of_holdsDown hsays hnode
    simpa [hkind] using hnode
  have htidy : schema.Tidy := by
    simp [schema, besideAway, recordAway, emptyRecord, Json.tidy_obj_iff, Json.tidy_arr_iff,
      Json.Tidy.str]
  have hfind : (Registry.ofSchema schema).find? "a.T" "b" = some (emptyRecord "a.T") := by
    decide +kernel
  exact ⟨hhome, (equivalent_inlined he htidy hhome
    (inlines_besideAway (inlines_emptyRecord hfind))).2⟩

/-- A record that takes its namespace from what is around it gets another name where the reference
stands, but not where its copy does. -/
theorem equivalent_inlined_inherited :
    let schema := besideAway (emptyRecord "T") (.str "a.T")
    let copied := besideAway (emptyRecord "T") (emptyRecord "a.T")
    (∀ options, ∃ e, Encoder.ofSchema options schema = .ok e) ∧
      Inlines (Registry.ofSchema schema) "" schema copied ∧
      equivalent schema copied = .ok false := by
  intro schema copied
  have hlayout : Layout.ofSchema schema = .ok layoutBesideAway := by decide +kernel
  have hcheck : check schema = .ok (Registry.ofSchema schema) := by decide +kernel
  have hfind : (Registry.ofSchema schema).find? "a.T" "b" = some (emptyRecord "T") := by
    decide +kernel
  refine ⟨fun options => ⟨⟨schema, Registry.ofSchema schema, layoutBesideAway, options⟩, ?_⟩,
    inlines_besideAway (inlines_emptyRecord hfind), by cbv⟩
  exact Encoder.ofSchema_eq _ hcheck hlayout

end Schema
end AvroDocument
