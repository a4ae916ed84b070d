import AvroDocument.Proofs.Acceptance
import AvroDocument.Proofs.Bounds
import AvroDocument.Proofs.Within
import Mathlib.Data.List.Permutation

/-!
# AvroDocument.Proofs.Algebra

The types that the check of a schema lets pass, read off the schema itself.

* `Schema.Allowed`: a node of the supported types, with everything written inside it.
* `Schema.check_of_allowed`: no allowed schema is refused, in whatever namespaces the walk meets its
  declarations.
* `Schema.check_iff_allowed`: of the schemas that the binary library takes, exactly the allowed ones
  pass.
* `Schema.check_shadowed`: a record under a name that was entered before is not looked into, so
  another schema can pass.
* `Schema.check_error`: what is refused is refused as an invalid schema.
-/

namespace AvroDocument
namespace Schema

open Inference (Passes)

/-- A node of the supported types in a namespace: a primitive, a reference to a record, an array, a
record with distinct field names, or a union of one type with null. -/
inductive Allowed (registry : Registry) : String → Json → Prop
  | name {enclosing name : String} (h : primitiveNames.contains name = true) :
      Allowed registry enclosing (.str name)
  | reference {enclosing name : String} {declared : Json}
      (h : registry.find? name enclosing = some declared) (hkind : typeName declared = "record") :
      Allowed registry enclosing (.str name)
  | union {enclosing : String} {members : List Json} (hone : (nonNullMembers members).length ≤ 1)
      (hflat : ∀ m ∈ members, ∀ ms, m ≠ .arr ms) (h : ∀ m ∈ members, Allowed registry enclosing m) :
      Allowed registry enclosing (.arr members)
  | annotated {enclosing : String} {ms : List (String × Json)}
      (h : primitiveNames.contains (typeName (.obj ms)) = true) :
      Allowed registry enclosing (.obj ms)
  | array {enclosing : String} {ms : List (String × Json)} (hkind : typeName (.obj ms) = "array")
      (h : Allowed registry enclosing (itemsOf (.obj ms))) : Allowed registry enclosing (.obj ms)
  | record {enclosing : String} {ms : List (String × Json)} (hkind : typeName (.obj ms) = "record")
      (hnamed : ∀ f ∈ fieldsOf (.obj ms), f.has "name" = true)
      (hnames : ((fieldsOf (.obj ms)).map nameOf).Nodup)
      (h : ∀ f ∈ fieldsOf (.obj ms), Allowed registry (namespaceOf (.obj ms) enclosing) (typeOf f)) :
      Allowed registry enclosing (.obj ms)

/-! ## What the registry knows -/

/-- A declaration known under a name is known under its short name too. -/
def Registry.Short (registry : Registry) : Prop :=
  ∀ name, (lookup? name registry).isSome → (lookup? (splitName name).2 registry).isSome

theorem splitName_short (name : String) :
    splitName (splitName name).2 = ("", (splitName name).2) := by
  refine splitName_plain fun hdot => ?_
  simp only [splitName, String.toList_ofList, List.mem_reverse] at hdot
  simpa using List.all_eq_true.mp List.all_takeWhile _ hdot

theorem isSome_lookup_assign {key other : String} {node : Json} {registry : Registry} :
    (lookup? other (assign key node registry)).isSome ↔
      other = key ∨ (lookup? other registry).isSome := by
  rw [lookup?_assign]
  by_cases h : other = key <;> simp [h]

theorem Registry.isSome_declare {registry : Registry} {name other : String} {node : Json} :
    (lookup? other (registry.declare name node)).isSome ↔
      other = name ∨ other = (splitName name).2 ∨ (lookup? other registry).isSome := by
  rw [Registry.declare]
  split
  · rename_i found hfound
    rw [isSome_lookup_assign]
    constructor
    · rintro (h | h)
      · exact .inl h
      · exact .inr (.inr h)
    · rintro (h | rfl | h)
      · exact .inl h
      · exact isSome_lookup_assign.mp (by rw [hfound]; rfl)
      · exact .inr h
  · rw [isSome_lookup_assign, isSome_lookup_assign]
    tauto

theorem Registry.Short.declare {registry : Registry} (h : registry.Short) (name : String)
    (node : Json) : (registry.declare name node).Short := by
  intro other hother
  rw [Registry.isSome_declare] at hother ⊢
  rcases hother with rfl | rfl | hother
  · exact .inr (.inl rfl)
  · exact .inr (.inl (by rw [splitName_short]))
  · exact .inr (.inr (h other hother))

theorem Registry.mem_declare {registry : Registry} {name : String} {node : Json}
    {d : String × Json} (h : d ∈ registry.declare name node) : d ∈ registry ∨ d.2 = node := by
  have hassign {key : String} {r : Registry} (h : d ∈ assign key node r) : d ∈ r ∨ d.2 = node := by
    induction r with
    | nil => exact .inr (by rw [List.mem_singleton.mp h])
    | cons m r ih =>
      rw [assign] at h
      split at h
      all_goals
        rcases List.mem_cons.mp h with rfl | h
        · first | exact .inr rfl | exact .inl List.mem_cons_self
      · exact .inl (List.mem_cons_of_mem _ h)
      · exact (ih h).imp_left (List.mem_cons_of_mem _)
  rw [Registry.declare] at h
  split at h
  · exact hassign h
  · exact (hassign h).elim hassign .inr

/-- The declarations inside a schema keep a property of registries. -/
def Keeps (root : Json) (I : Registry → Prop) : Prop :=
  ∀ registry name declared, declared ∈ root.nodes → isNamed declared = true → I registry →
    I (registry.declare name declared)

section keeps

variable {root : Json} {I : Registry → Prop}

mutual

/-- What every declaration inside a schema keeps, the walk over the schema keeps. -/
theorem collect_keeps (hI : Keeps root I) {enclosing : String} {registry : Registry} (node : Json)
    (hnode : node ∈ root.nodes) (h : I registry) :
    I (Registry.collect enclosing registry node) := by
  match node with
  | .arr members =>
    rw [Registry.collect]
    exact collectItems_keeps hI members (fun m hm => Json.nodes_trans hnode (Json.nodes_item hm)) h
  | .obj ms =>
    rw [Registry.collect]
    simp only
    split
    · rename_i hnamed
      split
      · split
        · rename_i fields hfields
          have := Json.sizeOf_lt_items hfields
          have harr : .arr fields ∈ root.nodes :=
            Json.nodes_trans hnode (Json.nodes_member (mem_of_lookup? hfields))
          exact collectFields_keeps hI fields
            (fun f hf => Json.nodes_trans harr (Json.nodes_item hf)) (hI _ _ _ hnode hnamed h)
        · exact hI _ _ _ hnode hnamed h
      · exact hI _ _ _ hnode hnamed h
    · split
      · split
        · rename_i items hitems
          have := Json.sizeOf_lt_obj hitems
          exact collect_keeps hI items
            (Json.nodes_trans hnode (Json.nodes_member (mem_of_lookup? hitems))) h
        · exact h
      · split
        · split
          · rename_i values hvalues
            have := Json.sizeOf_lt_obj hvalues
            exact collect_keeps hI values
              (Json.nodes_trans hnode (Json.nodes_member (mem_of_lookup? hvalues))) h
          · exact h
        · exact h
  | .null | .bool _ | .int _ | .float _ | .decimal _ | .str _ =>
    rw [Registry.collect]
    · exact h
    · intros; contradiction
    · intros; contradiction
termination_by sizeOf node
decreasing_by
  all_goals first
    | exact Json.sizeOf_lt_arr _
    | assumption

theorem collectItems_keeps (hI : Keeps root I) {enclosing : String} {registry : Registry}
    (members : List Json) (hmembers : ∀ m ∈ members, m ∈ root.nodes) (h : I registry) :
    I (Registry.collectItems enclosing registry members) := by
  match members with
  | [] =>
    rw [Registry.collectItems]
    exact h
  | member :: rest =>
    rw [Registry.collectItems]
    exact collectItems_keeps hI rest (fun m hm => hmembers m (List.mem_cons_of_mem _ hm))
      (collect_keeps hI member (hmembers member List.mem_cons_self) h)
termination_by sizeOf members

theorem collectFields_keeps (hI : Keeps root I) {enclosing : String} {registry : Registry}
    (fields : List Json) (hfields : ∀ f ∈ fields, f ∈ root.nodes) (h : I registry) :
    I (Registry.collectFields enclosing registry fields) := by
  match fields with
  | [] =>
    rw [Registry.collectFields]
    exact h
  | field :: rest =>
    rw [Registry.collectFields]
    refine collectFields_keeps hI rest (fun f hf => hfields f (List.mem_cons_of_mem _ hf)) ?_
    split
    · rename_i type htype
      have := Json.sizeOf_get? htype
      exact collect_keeps hI type
        (Json.nodes_trans (hfields field List.mem_cons_self) (Json.nodes_get htype)) h
    · exact h
termination_by sizeOf fields

end

end keeps

theorem Registry.ofSchema_short (schema : Json) : (Registry.ofSchema schema).Short :=
  collect_keeps (fun _ name _ _ _ h => h.declare name _) schema schema.self_mem_nodes
    fun _ h => by cases h

/-- All declarations are nodes of the schema that declare a name. -/
theorem Registry.ofSchema_mem {schema : Json} {d : String × Json}
    (h : d ∈ Registry.ofSchema schema) : d.2 ∈ schema.nodes ∧ isNamed d.2 = true := by
  have hkeeps : Keeps schema fun registry =>
      ∀ d ∈ registry, d.2 ∈ schema.nodes ∧ isNamed d.2 = true := by
    intro registry name declared hdeclared hnamed hI d hd
    rcases Registry.mem_declare hd with hold | heq
    · exact hI d hold
    · rw [heq]
      exact ⟨hdeclared, hnamed⟩
  exact collect_keeps hkeeps schema schema.self_mem_nodes (fun d hd => by cases hd) d h

/-- A reference that is known in one namespace is known in every other. -/
theorem Registry.Short.find? {registry : Registry} (h : registry.Short) {name enclosing : String}
    (hfound : (registry.find? name enclosing).isSome) (other : String) :
    (registry.find? name other).isSome := by
  have hshort : (lookup? name registry).isSome ∨ hasDot name = true := by
    rw [Registry.find?] at hfound
    cases hplain : lookup? name registry with
    | some _ => exact .inl rfl
    | none =>
      refine .inr (by_contra fun hdot => ?_)
      rw [hplain] at hfound
      have hfull : (lookup? (referenceName name enclosing) registry).isSome := by
        cases hl : lookup? (referenceName name enclosing) registry with
        | some _ => rfl
        | none =>
          rw [hl] at hfound
          cases hfound
      have hname : '.' ∉ name.toList := by simpa [hasDot] using hdot
      have hback := h _ hfull
      rw [referenceName] at hback
      split at hback
      · rw [splitName_dotted enclosing hname, hplain] at hback
        cases hback
      · rw [splitName_plain hname, hplain] at hback
        cases hback
  rw [Registry.find?]
  rcases hshort with hplain | hdot
  · cases lookup? (referenceName name other) registry with
    | some _ => rfl
    | none => exact hplain
  · have hname (ns : String) : referenceName name ns = name := by
      simp [referenceName, hdot]
    rw [Registry.find?, hname] at hfound
    rwa [hname]

theorem Registry.find?_mem {registry : Registry} {name enclosing : String} {declared : Json}
    (h : registry.find? name enclosing = some declared) : ∃ d ∈ registry, d.2 = declared := by
  rw [Registry.find?] at h
  cases hfull : lookup? (referenceName name enclosing) registry with
  | some found =>
    rw [hfull] at h
    cases h
    exact ⟨_, mem_of_lookup? hfull, rfl⟩
  | none =>
    rw [hfull] at h
    exact ⟨_, mem_of_lookup? h, rfl⟩

/-! ## No allowed schema is refused -/

section allowed

variable {registry r : Registry} {enclosing : String} {node : Json}

/-- Declarations of allowed records only. -/
def AllowedRecords (registry r : Registry) : Prop :=
  ∀ d ∈ r, typeName d.2 = "record" ∧ ∃ enclosing, Allowed registry enclosing d.2

structure Registry.Sound (registry : Registry) : Prop where
  short : registry.Short
  records : AllowedRecords registry registry

theorem passes_union {fuel : Nat} {members : List Json}
    (hone : (nonNullMembers members).length ≤ 1) (hflat : ∀ m ∈ members, ∀ ms, m ≠ .arr ms)
    (h : ∀ m ∈ members, Passes registry fuel m) : Passes registry fuel (.arr members) := by
  intro enclosing path seen
  rw [checkNode, if_neg (Nat.not_lt.mpr hone)]
  clear hone
  induction members generalizing seen with
  | nil => exact ⟨seen, by rw [checkMembers]⟩
  | cons m members ih =>
    obtain ⟨entered, hm⟩ := h m List.mem_cons_self enclosing path seen
    rw [checkMembers_cons (hflat m List.mem_cons_self), hm]
    exact ih (fun m hm => hflat m (List.mem_cons_of_mem _ hm))
      (fun m hm => h m (List.mem_cons_of_mem _ hm)) entered

theorem passes_items {fuel : Nat} {ms : List (String × Json)} (hkind : typeName (.obj ms) = "array")
    (h : Passes registry fuel (itemsOf (.obj ms))) : Passes registry fuel (.obj ms) := by
  intro enclosing path seen
  rw [checkNode_items hkind]
  exact h enclosing _ seen

/-- Named fields of passing types pass when their names differ from each other and from those
before. -/
theorem checkFields_passes {fuel : Nat} {fields : List Json}
    (hnamed : ∀ f ∈ fields, f.has "name" = true) (hnames : (fields.map nameOf).Nodup)
    (h : ∀ f ∈ fields, Passes registry fuel (typeOf f)) (enclosing path record : String)
    (taken seen : List String) (htaken : ∀ f ∈ fields, nameOf f ∉ taken) :
    ∃ after, checkFields registry fuel enclosing path record taken seen fields = .ok after := by
  induction fields generalizing taken seen with
  | nil => exact ⟨seen, by rw [checkFields]⟩
  | cons f fields ih =>
    rw [List.map_cons, List.nodup_cons] at hnames
    have hfree : taken.contains (nameOf f) = false := by
      simpa using htaken f List.mem_cons_self
    have hrest (entered : List String) := ih (fun g hg => hnamed g (List.mem_cons_of_mem _ hg))
      hnames.2 (fun g hg => h g (List.mem_cons_of_mem _ hg)) (nameOf f :: taken) entered
      fun g hg hmem => by
        obtain heq | hmem := List.mem_cons.mp hmem
        · exact hnames.1 (heq ▸ List.mem_map_of_mem hg)
        · exact htaken g (List.mem_cons_of_mem _ hg) hmem
    obtain ⟨entered, hpass⟩ := h f List.mem_cons_self enclosing (path ++ "/" ++ nameOf f) seen
    rw [checkFields_typeOf]
    simp only [hnamed f List.mem_cons_self, hfree, Bool.not_true, Bool.false_eq_true, if_false,
      hpass]
    exact hrest _

theorem passes_record {fuel : Nat} {ms : List (String × Json)}
    (hkind : typeName (.obj ms) = "record") (hnamed : ∀ f ∈ fieldsOf (.obj ms), f.has "name" = true)
    (hnames : ((fieldsOf (.obj ms)).map nameOf).Nodup)
    (h : ∀ f ∈ fieldsOf (.obj ms), Passes registry fuel (typeOf f)) :
    Passes registry fuel (.obj ms) := by
  intro enclosing path seen
  by_cases hseen : fullName (.obj ms) enclosing ∈ seen
  · exact ⟨seen, checkNode_entered hkind (by simpa using hseen)⟩
  rw [checkNode_record hkind hseen]
  exact checkFields_passes hnamed hnames h _ _ _ _ _ fun _ _ => List.not_mem_nil

/-- A reference that is known passes when the declarations pass with less fuel. -/
theorem passes_known (hr : registry.Sound) {fuel : Nat} {name : String}
    (hknown : (registry.find? name enclosing).isSome)
    (hbelow : ∀ rest, fuel = rest + 1 → ∀ d ∈ registry, Passes registry rest d.2) :
    Passes registry fuel (.str name) := by
  intro other path seen
  obtain ⟨found, hfound⟩ := Option.isSome_iff_exists.mp (hr.short.find? hknown other)
  obtain ⟨d, hd, rfl⟩ := Registry.find?_mem hfound
  rw [checkNode]
  by_cases hprimitive : primitiveNames.contains name = true
  · exact ⟨seen, by simp only [hprimitive, if_true]⟩
  simp only [hprimitive, Registry.resolve, hfound, Bool.false_eq_true, if_false]
  cases fuel with
  | zero => exact ⟨seen, rfl⟩
  | succ rest => exact hbelow rest rfl d hd _ _ _

theorem Allowed.passes_of (h : Allowed registry enclosing node) (hr : registry.Sound) {fuel : Nat}
    (hbelow : ∀ rest, fuel = rest + 1 → ∀ d ∈ registry, Passes registry rest d.2) :
    Passes registry fuel node := by
  induction h with
  | name h =>
    intro other path seen
    rw [checkNode]
    exact ⟨seen, by simp only [h, if_true]⟩
  | reference h => exact passes_known hr (by rw [h]; rfl) hbelow
  | union hone hflat _ ih => exact passes_union hone hflat ih
  | annotated h =>
    intro other path seen
    rw [checkNode]
    exact ⟨seen, by simp only [h, if_true]⟩
  | array hkind _ ih => exact passes_items hkind ih
  | record hkind hnamed hnames _ ih => exact passes_record hkind hnamed hnames ih

/-- An allowed node passes wherever it stands, by induction on the references that are followed one
inside the other. -/
theorem Allowed.passes (h : Allowed registry enclosing node) (hr : registry.Sound) (fuel : Nat) :
    Passes registry fuel node := by
  induction fuel generalizing enclosing node with
  | zero => exact h.passes_of hr fun _ hrest => absurd hrest.symm (Nat.succ_ne_zero _)
  | succ fuel ih =>
    refine h.passes_of hr fun rest hrest d hd => ?_
    cases hrest
    obtain ⟨-, ns, hallowed⟩ := hr.records d hd
    exact ih hallowed

theorem collectItems_eq (members : List Json) : Registry.collectItems enclosing registry members =
    members.foldl (Registry.collect enclosing) registry := by
  induction members generalizing registry with
  | nil => rw [Registry.collectItems, List.foldl_nil]
  | cons m members ih => rw [Registry.collectItems, ih, List.foldl_cons]

theorem collectFields_eq (fields : List Json) : Registry.collectFields enclosing registry fields =
    fields.foldl (fun r f => Registry.collect enclosing r (typeOf f)) registry := by
  induction fields generalizing registry with
  | nil => rw [Registry.collectFields, List.foldl_nil]
  | cons f fields ih =>
    rw [Registry.collectFields, ih, List.foldl_cons, typeOf, Json.getD]
    split
    · rename_i htype
      rw [htype, Option.getD_some]
    · rename_i htype
      rw [htype, Option.getD_none, collect_null]

/-- Allowed nodes declare allowed records only. -/
theorem Allowed.records_collect (h : Allowed registry enclosing node)
    (hr : AllowedRecords registry r) :
    AllowedRecords registry (Registry.collect enclosing r node) := by
  induction h generalizing r with
  | name | reference =>
    rw [Registry.collect]
    · exact hr
    · intros; contradiction
    · intros; contradiction
  | @union enclosing members _ _ _ ih =>
    rw [Registry.collect, collectItems_eq]
    exact List.foldlRecOn (motive := AllowedRecords registry) members _ hr
      fun r hr m hm => ih m hm hr
  | @annotated _ ms h =>
    obtain ⟨p, hp⟩ := Option.isSome_iff_exists.mp (isPrimitive_iff.mp h)
    have harray : typeName (.obj ms) ≠ "array" := not_kind hp rfl
    have hmap : typeName (.obj ms) ≠ "map" := not_kind hp rfl
    rw [Registry.collect]
    simp only [not_named hp, harray, hmap]
    exact hr
  | @array enclosing ms hkind _ ih =>
    rw [Registry.collect]
    simp only [hkind]
    rw [if_neg (by decide), if_pos trivial]
    split
    · rename_i items hitems
      exact itemsOf_eq hitems ▸ ih hr
    · exact hr
  | @record enclosing ms hkind hnamed hnames h ih =>
    have hdeclared : AllowedRecords registry
        (r.declare (fullName (.obj ms) enclosing) (.obj ms)) := by
      intro d hd
      obtain hd | hd := Registry.mem_declare hd
      · exact hr d hd
      · exact hd ▸ ⟨hkind, enclosing, .record hkind hnamed hnames h⟩
    rw [Registry.collect]
    simp only [hkind]
    rw [if_pos (by decide), if_pos trivial]
    split
    · rename_i fields hfields
      rw [fieldsOf_arr hfields] at ih
      rw [collectFields_eq]
      exact List.foldlRecOn (motive := AllowedRecords registry) fields _ hdeclared
        fun r hr f hf => ih f hf hr
    · exact hdeclared

/-- No allowed schema is refused. -/
theorem check_of_allowed {schema : Json} (h : Allowed (Registry.ofSchema schema) "" schema) :
    check schema = .ok (Registry.ofSchema schema) := by
  have hsound : (Registry.ofSchema schema).Sound :=
    ⟨Registry.ofSchema_short schema, h.records_collect (List.forall_mem_nil _)⟩
  obtain ⟨after, hafter⟩ := h.passes hsound (Registry.depthBound schema) "" Pointer.root []
  rw [check]
  simp only [hafter]

end allowed

/-! ## What passes is allowed -/

section accepted

variable {schema : Json} {decls : List (String × Json)} {top layout : Layout}
  {declared after seen taken : List String} {enclosing path record : String} {fuel : Nat}

/-- A name with a layout is a primitive type or refers to a record. -/
theorem allowed_name (ha : Accepted schema top decls) (hr : top.Regular) {name : String}
    {default : Option Json} (h : Layout.ofName declared enclosing default name = .ok layout)
    (hn : declared ⊆ decls.map (·.1)) :
    Allowed (Registry.ofSchema schema) enclosing (.str name) := by
  cases hp : Primitive.ofName? name with
  | some p => exact .name (isPrimitive_iff.mpr (by rw [hp]; rfl))
  | none =>
    have hmem := hn (List.contains_iff_mem.mp (ofName_declared hp h))
    obtain ⟨ms, outer, l, hdecl, -, hnamed, hlookup, hinside⟩ := ha.declaration hmem
    have hkind := hinside.kind_of_named (hr.declared _ (mem_of_lookup? hlookup)) hnamed
    refine .reference ?_ hkind
    rw [Registry.find?, ha.lookup_registry hdecl]
    rfl

mutual

/-- A node that has a layout and passes is allowed. -/
theorem LaysOut.allowed (ha : Accepted schema top decls) (hr : top.Regular)
    {declared after seen : List String} {enclosing path : String} {node : Json} {layout : Layout}
    (h : LaysOut declared enclosing node layout after) (hn : after ⊆ decls.map (·.1))
    (hc : checkNode (Registry.ofSchema schema) fuel enclosing path declared node = .ok seen) :
    Allowed (Registry.ofSchema schema) enclosing node := by
  match h with
  | .name h => exact allowed_name ha hr h hn
  | .union h =>
    rw [checkNode] at hc
    split at hc
    · cases hc
    rename_i hone
    have hall := h.allowed ha hr hn hc
    exact .union (Nat.le_of_not_lt hone) (fun m hm => (hall m hm).1) fun m hm => (hall m hm).2
  | .array hkind hitems h =>
    have heq := itemsOf_eq hitems
    rw [checkNode_items hkind, heq] at hc
    exact .array hkind (heq ▸ h.allowed ha hr hn hc)
  | .map hkind _ _ =>
    rw [checkNode_other (by rw [hkind]; decide) (by rw [hkind]; decide)
      (by rw [hkind]; decide)] at hc
    cases hc
  | .enum hkind _ | .fixed hkind _ =>
    have hrecord := checkNode_named (by rw [hkind]; rfl) hc
    exact absurd (hkind.symm.trans hrecord) (by decide)
  | .record hkind hfresh h =>
    rw [checkNode_record hkind hfresh] at hc
    obtain ⟨hnames, hall⟩ := h.allowed ha hr hn hc
    exact .record hkind (fun f hf => (hall f hf).1) hnames fun f hf => (hall f hf).2.2
  | .annotated _ h =>
    obtain ⟨p, hp, -⟩ := ofAnnotated_ok h
    exact .annotated (isPrimitive_iff.mpr (by rw [hp]; rfl))

theorem MembersLayOut.allowed (ha : Accepted schema top decls) (hr : top.Regular)
    {declared after seen : List String} {enclosing path : String} {members : List Json}
    {layouts : List Layout} (h : MembersLayOut declared enclosing members layouts after)
    (hn : after ⊆ decls.map (·.1))
    (hc : checkMembers (Registry.ofSchema schema) fuel enclosing path declared members =
      .ok seen) :
    ∀ m ∈ members, (∀ ms, m ≠ .arr ms) ∧ Allowed (Registry.ofSchema schema) enclosing m := by
  match h with
  | .nil => exact List.forall_mem_nil _
  | .cons h hrest =>
    have hmiddle := List.Subset.trans hrest.subset hn
    obtain ⟨hflat, entered, hcheck, hc⟩ := checkMembers_ok hc
    obtain ⟨rfl, -⟩ := h.regular ha hmiddle hcheck
    exact List.forall_mem_cons.mpr
      ⟨⟨hflat, h.allowed ha hr hmiddle hcheck⟩, hrest.allowed ha hr hn hc⟩

theorem FieldsLayOut.allowed (ha : Accepted schema top decls) (hr : top.Regular)
    {declared after seen taken : List String} {inner path record : String} {fields : List Json}
    {layouts : List (String × Option Json × Layout)}
    (h : FieldsLayOut declared inner fields layouts after) (hn : after ⊆ decls.map (·.1))
    (hc : checkFields (Registry.ofSchema schema) fuel inner path record taken declared fields =
      .ok seen) :
    (fields.map nameOf).Nodup ∧ ∀ f ∈ fields, f.has "name" = true ∧ nameOf f ∉ taken ∧
      Allowed (Registry.ofSchema schema) inner (typeOf f) := by
  match h with
  | .nil => exact ⟨List.nodup_nil, List.forall_mem_nil _⟩
  | .cons _ htype h hrest =>
    have hmiddle := List.Subset.trans hrest.subset hn
    have heq := typeOf_eq htype
    obtain ⟨entered, hnamed, hnew, hcheck, hc⟩ := checkFields_cons hc
    rw [heq] at hcheck
    obtain ⟨rfl, -⟩ := h.regular ha hmiddle hcheck
    obtain ⟨hnames, hall⟩ := hrest.allowed ha hr hn hc
    refine ⟨List.nodup_cons.mpr ⟨fun hmem => ?_, hnames⟩, List.forall_mem_cons.mpr
      ⟨⟨hnamed, hnew, heq ▸ h.allowed ha hr hmiddle hcheck⟩, fun f hf => ?_⟩⟩
    · obtain ⟨f, hf, hname⟩ := List.mem_map.mp hmem
      exact (hall f hf).2.1 (hname ▸ List.mem_cons_self)
    · obtain ⟨hnamed, hnew, hallowed⟩ := hall f hf
      exact ⟨hnamed, fun hmem => hnew (List.mem_cons_of_mem _ hmem), hallowed⟩

end

/-- Of the schemas that the binary library takes exactly the allowed ones pass. -/
theorem check_iff_allowed (hl : Layout.ofSchema schema = .ok layout) :
    check schema = .ok (Registry.ofSchema schema) ↔ Allowed (Registry.ofSchema schema) "" schema := by
  refine ⟨fun hc => ?_, check_of_allowed⟩
  obtain ⟨decls, ha⟩ := accepted_of_ofSchema hl
  obtain ⟨after, hlays, hn⟩ := ha.laysOut hl
  obtain ⟨-, hregular⟩ := regular_of_check hc hl
  rw [check] at hc
  split at hc
  · cases hc
  rename_i seen hcheck
  exact hlays.allowed ha hregular hn hcheck

end accepted

/-! ## What the check passes over -/

/-- A record `A` with a field whose type is another record `A`, of which the field is a map. -/
def shadowed : Json :=
  .obj [("type", .str "record"), ("name", .str "A"), ("fields", .arr [
    .obj [("name", .str "x"), ("type", .obj [("type", .str "record"), ("name", .str "A"),
      ("fields", .arr [.obj [("name", .str "y"),
        ("type", .obj [("type", .str "map"), ("values", .str "int")])]])])]])]

theorem not_allowed_map {registry : Registry} {enclosing : String} {ms : List (String × Json)}
    (hkind : typeName (.obj ms) = "map") : ¬ Allowed registry enclosing (.obj ms) := by
  intro h
  cases h with
  | annotated h => exact absurd (hkind ▸ h) (by decide)
  | array h | record h => exact absurd (hkind.symm.trans h) (by decide)

/-- A record under a name that was entered before is not looked into. -/
theorem check_shadowed : check shadowed = .ok (Registry.ofSchema shadowed) ∧
    ¬ Allowed (Registry.ofSchema shadowed) "" shadowed := by
  refine ⟨by cbv, fun h => ?_⟩
  rw [shadowed] at h
  cases h with
  | annotated h | array h => exact absurd h (by decide)
  | record _ _ _ h =>
    have hx := h _ (List.mem_singleton_self _)
    cases hx with
    | annotated h | array h => exact absurd h (by decide)
    | record _ _ _ h => exact not_allowed_map rfl (h _ (List.mem_singleton_self _))

/-! ## How a schema is refused -/

section refused

variable {registry : Registry} {fuel : Nat} {enclosing path record : String}
  {taken seen : List String} {e : Failure}

mutual

theorem checkNode_error {fuel : Nat} {enclosing path : String} {seen : List String} {node : Json}
    (h : checkNode registry fuel enclosing path seen node = .error e) :
    ∃ path fault, e = .invalidSchema path fault := by
  match node with
  | .arr members =>
    rw [checkNode] at h
    split at h
    · cases h
      exact ⟨_, _, rfl⟩
    · exact checkMembers_error h
  | .str name =>
    rw [checkNode] at h
    split at h
    · cases h
    rename_i hprimitive
    rw [Registry.resolve] at h
    simp only [hprimitive] at h
    cases hfound : registry.find? name enclosing with
    | none =>
      rw [hfound] at h
      cases h
      exact ⟨_, _, rfl⟩
    | some declared =>
      rw [hfound] at h
      cases hfuel : fuel with
      | zero =>
        rw [hfuel] at h
        cases h
      | succ rest =>
        rw [hfuel] at h
        exact checkNode_error h
  | .obj ms =>
    rw [checkNode] at h
    simp only at h
    split at h
    · cases h
    split at h
    · split at h
      · rename_i items hitems
        have := Json.sizeOf_lt_obj hitems
        exact checkNode_error h
      · cases h
    split at h
    · split at h
      · cases h
      · split at h
        · rename_i fields hfields
          have := Json.sizeOf_lt_items hfields
          exact checkFields_error h
        · cases h
    · cases h
      exact ⟨_, _, rfl⟩
  | .null | .bool _ | .int _ | .float _ | .decimal _ =>
    rw [checkNode] at h
    · cases h
      exact ⟨_, _, rfl⟩
    all_goals (intros; contradiction)
termination_by (fuel, sizeOf node)
decreasing_by
  all_goals first
    | exact Prod.Lex.left _ _ (by omega)
    | exact Prod.Lex.right _ (Json.sizeOf_lt_arr _)
    | exact Prod.Lex.right _ (by assumption)

theorem checkMembers_error {fuel : Nat} {enclosing path : String} {seen : List String}
    {members : List Json}
    (h : checkMembers registry fuel enclosing path seen members = .error e) :
    ∃ path fault, e = .invalidSchema path fault := by
  match members with
  | [] =>
    rw [checkMembers] at h
    cases h
  | member :: rest =>
    by_cases hflat : ∀ ms, member ≠ .arr ms
    · rw [checkMembers_cons hflat] at h
      split at h
      · rename_i hmember
        cases h
        exact checkNode_error hmember
      · exact checkMembers_error h
    · obtain ⟨ms, hms⟩ := not_forall_not.mp hflat
      subst hms
      rw [checkMembers] at h
      cases h
      exact ⟨_, _, rfl⟩
termination_by (fuel, sizeOf members)
decreasing_by
  all_goals (apply Prod.Lex.right; simp only [List.cons.sizeOf_spec]; omega)

theorem checkFields_error {fuel : Nat} {enclosing path record : String}
    {taken seen : List String} {fields : List Json}
    (h : checkFields registry fuel enclosing path record taken seen fields = .error e) :
    ∃ path fault, e = .invalidSchema path fault := by
  match fields with
  | [] =>
    rw [checkFields] at h
    cases h
  | field :: rest =>
    rw [checkFields] at h
    split at h
    · cases h
      exact ⟨_, _, rfl⟩
    split at h
    · cases h
      exact ⟨_, _, rfl⟩
    simp only at h
    split at h
    · rename_i hfield
      cases h
      split at hfield
      · rename_i type htype
        have := Json.sizeOf_get? htype
        exact checkNode_error hfield
      · cases hfield
    · exact checkFields_error h
termination_by (fuel, sizeOf fields)
decreasing_by
  all_goals (apply Prod.Lex.right; simp only [List.cons.sizeOf_spec]; omega)

end

/-- What is refused is refused as an invalid schema. -/
theorem check_error {schema : Json} (h : check schema = .error e) :
    ∃ path fault, e = .invalidSchema path fault := by
  rw [check] at h
  split at h
  · rename_i hnode
    cases h
    exact checkNode_error hnode
  · cases h

end refused

end Schema
end AvroDocument
