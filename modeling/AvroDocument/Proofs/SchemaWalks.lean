import AvroDocument.Proofs.FullNames
import AvroDocument.Proofs.NormalForms

/-!
# AvroDocument.Proofs.SchemaWalks

The check of a schema and its normal form as the recursions that they are. The walks follow references
back up the schema, so nothing in it gets smaller; they end because a reference leads to a declaration,
and a record is entered once under each of finitely many full names.

* `Schema.checkWalk`, `Schema.normalWalk`: the walks, with calls that are nested to a depth. There is no
  result when the calls are nested deeper.
* `Schema.Room`: the fuel and the depth that are left for a walk. Each step of a walk leaves enough.
* `Schema.checkWalk_halts`, `Schema.normalWalk_eq`: with room, a walk comes to the result of the one
  that has fuel.
* `Schema.check_returns`, `Schema.normal_returns`: a schema has room for its own walks.
-/

namespace AvroDocument

/-! ## Walks that end -/

/-- A walk ends, with the result of a check; what was seen before it counts as seen afterwards. -/
structure Halts {α β : Type} (after : β → List α) (seen : List α) (walked : Option (Except Failure β))
    (checked : Except Failure β) : Prop where
  eq : walked = some checked
  keeps : ∀ result, checked = .ok result → seen ⊆ after result

namespace Halts

variable {α β : Type} {after : β → List α} {seen seen' : List α}
  {walked : Option (Except Failure β)} {checked : Except Failure β}

theorem ok (result : β) : Halts after (after result) (some (.ok result)) (.ok result) :=
  ⟨rfl, fun _ h => Except.ok.inj h ▸ List.Subset.refl _⟩

theorem error (e : Failure) : Halts after seen (some (.error e)) (.error e) :=
  ⟨rfl, fun _ h => nomatch h⟩

theorem mono (hsub : seen ⊆ seen') (h : Halts after seen' walked checked) :
    Halts after seen walked checked :=
  ⟨h.eq, fun result heq => List.Subset.trans hsub (h.keeps result heq)⟩

end Halts

namespace Schema

/-! ## Room for a walk -/

/-- The unit of fuel that a reference takes; it leads to a declaration, which takes none. -/
def cost (node : Json) : Nat := if isNamed node then 0 else 1

theorem cost_le (node : Json) : cost node ≤ 1 := by
  rw [cost]
  split <;> omega

theorem cost_named {node : Json} (h : isNamed node = true) : cost node = 0 := if_pos h

theorem cost_unnamed {node : Json} (h : isNamed node = false) : cost node = 1 := by
  rw [cost, h]
  rfl

/-- The depth to which calls are nested until a reference or a record: one for a declaration; other
nodes lead to a declaration only through a reference. -/
def reach (node : Json) : Nat := if isNamed node then 1 else node.nodeCount + 2

theorem reach_pos (node : Json) : 0 < reach node := by
  rw [reach]
  split <;> omega

theorem reach_le (node : Json) : reach node ≤ node.nodeCount + 2 := by
  rw [reach]
  split <;> omega

theorem reach_named {node : Json} (h : isNamed node = true) : reach node = 1 := if_pos h

theorem reach_unnamed {node : Json} (h : isNamed node = false) : reach node = node.nodeCount + 2 := by
  rw [reach, h]
  rfl

/-- A depth that is enough for every walk over a schema. -/
def walkDepth (outer : String) (schema : Json) : Nat :=
  (fullNames outer schema).length * (schema.nodeCount + 2) + reach schema

/-- Fuel and depth for a walk from a node on: for each full name that was not seen there is fuel for a
reference to it and depth for going down inside a record. -/
structure Room (outer : String) (schema : Json) (seen : List String) (node : Json) (fuel depth : Nat) :
    Prop where
  fuel : unseen (fullNames outer schema) seen + cost node ≤ fuel
  depth : unseen (fullNames outer schema) seen * (schema.nodeCount + 2) + reach node ≤ depth

namespace Room

variable {outer : String} {schema node child : Json} {seen seen' : List String} {fuel depth : Nat}

theorem depth_pos (h : Room outer schema seen node fuel depth) : 0 < depth := by
  have hdepth := h.depth
  have hpos := reach_pos node
  omega

/-- Inside a node that is no declaration. -/
theorem inside (h : Room outer schema seen node fuel (depth + 1)) (hnode : isNamed node = false)
    (hchild : child.nodeCount < node.nodeCount) (hsub : seen ⊆ seen') :
    Room outer schema seen' child fuel depth := by
  have hfuel := h.fuel
  have hdepth := h.depth
  rw [cost_unnamed hnode] at hfuel
  rw [reach_unnamed hnode] at hdepth
  have hless := unseen_mono (fullNames outer schema) hsub
  have hmul := Nat.mul_le_mul_right (schema.nodeCount + 2) hless
  have hcost := cost_le child
  have hreach := reach_le child
  exact ⟨by omega, by omega⟩

/-- From a reference to its declaration. -/
theorem referred {declared : Json} (h : Room outer schema seen node fuel (depth + 1))
    (hnode : isNamed node = false) (hdeclared : isNamed declared = true) :
    ∃ rest, fuel = rest + 1 ∧ Room outer schema seen declared rest depth := by
  have hfuel := h.fuel
  have hdepth := h.depth
  rw [cost_unnamed hnode] at hfuel
  rw [reach_unnamed hnode] at hdepth
  obtain ⟨rest, rfl⟩ := Nat.exists_eq_add_one.mpr (show 0 < fuel by omega)
  refine ⟨rest, rfl, ?_, ?_⟩
  · rw [cost_named hdeclared]
    omega
  · rw [reach_named hdeclared]
    omega

/-- From a record that is entered to the types of its fields. -/
theorem entered {name : String} (h : Room outer schema seen node fuel (depth + 1))
    (hmem : name ∈ fullNames outer schema) (hnew : seen.contains name = false)
    (hchild : child.nodeCount ≤ schema.nodeCount) (hsub : name :: seen ⊆ seen') :
    Room outer schema seen' child fuel depth := by
  have hfuel := h.fuel
  have hdepth := h.depth
  have hless := Nat.lt_of_le_of_lt (unseen_mono _ hsub) (unseen_cons hmem hnew)
  have hmul := Nat.mul_le_mul_right (schema.nodeCount + 2) (Nat.succ_le_of_lt hless)
  rw [Nat.succ_mul] at hmul
  have hcost := cost_le child
  have hreach := reach_le child
  have hpos := reach_pos node
  exact ⟨by omega, by omega⟩

theorem whole (outer : String) (schema : Json) (hdepth : walkDepth outer schema ≤ depth) :
    Room outer schema [] schema (Registry.depthBound schema) depth := by
  rw [walkDepth] at hdepth
  have hlength := length_fullNames outer schema
  have hunseen := unseen_le (fullNames outer schema) []
  have hmul := Nat.mul_le_mul_right (schema.nodeCount + 2) hunseen
  have hcost := cost_le schema
  exact ⟨by omega, by omega⟩

end Room

/-- What stands under a key of a declaration is smaller, also when it is left out. -/
theorem nodeCount_under {ms : List (String × Json)} (h : typeName (.obj ms) ≠ "") (key : String) :
    ((Json.obj ms).getD key (.str "null")).nodeCount < (Json.obj ms).nodeCount := by
  rw [Json.getD]
  cases hvalue : (Json.obj ms).get? key with
  | some value => exact Json.nodeCount_get hvalue
  | none =>
    cases ms with
    | nil => exact absurd rfl h
    | cons m ms =>
      have := m.2.nodeCount_pos
      rw [Json.nodeCount, Json.memberCount]
      simp only [Option.getD_none, Json.nodeCount]
      omega

/-! ## The check -/

/-- Checks the members of a union by walks. -/
def membersWalk (walk : List String → Json → Option (Except Failure (List String))) (path : String)
    (seen : List String) : List Json → Option (Except Failure (List String))
  | [] => some (.ok seen)
  | .arr _ :: _ => some (invalid path .nestedUnion)
  | member :: rest => do
    match ← walk seen member with
    | .error e => some (.error e)
    | .ok seen => membersWalk walk path seen rest

/-- Checks the fields of a record by walks over their types. -/
def fieldsWalk (walk : String → List String → Json → Option (Except Failure (List String)))
    (path record : String) (taken seen : List String) :
    List Json → Option (Except Failure (List String))
  | [] => some (.ok seen)
  | field :: rest =>
    let name := nameOf field
    if !field.has "name" then some (invalid path .namelessField)
    else if taken.contains name then some (invalid path (.duplicateField name record))
    else do
      match ← walk (path ++ "/" ++ name) seen (typeOf field) with
      | .error e => some (.error e)
      | .ok seen => fieldsWalk walk path record (name :: taken) seen rest

/-- Checks a node by calls that are nested to a depth; `seen` holds the full names of the records that
were entered. -/
def checkWalk (registry : Registry) : Nat → String → String → List String → Json →
    Option (Except Failure (List String))
  | 0, _, _, _, _ => none
  | depth + 1, enclosing, path, seen, schema =>
    match schema with
    | .arr members =>
      if 1 < (nonNullMembers members).length then some (invalid path .tooManyMembers)
      else membersWalk (checkWalk registry depth enclosing path) path seen members
    | .str name =>
      if primitiveNames.contains name then some (.ok seen)
      else
        match registry.resolve (.str name) enclosing with
        | .error e => some (.error e)
        | .ok (declared, inner) => checkWalk registry depth inner path seen declared
    | .obj ms =>
      let kind := typeName (.obj ms)
      if primitiveNames.contains kind then some (.ok seen)
      else if kind = "array" then
        checkWalk registry depth enclosing (path ++ "/items") seen (itemsOf (.obj ms))
      else if kind = "record" then
        let name := fullName (.obj ms) enclosing
        if seen.contains name then some (.ok seen)
        else
          fieldsWalk (checkWalk registry depth (splitName name).1) path name [] (name :: seen)
            (fieldsOf (.obj ms))
      else some (invalid path (.unsupportedType (lookup? "type" ms)))
    | node => some (invalid path (.notANode node))

/-- The check of a schema, by calls that are nested to a depth. -/
def checkNested (schema : Json) (depth : Nat) : Option (Except Failure Registry) :=
  let registry := Registry.ofSchema schema
  Except.map (fun _ => registry) <$> checkWalk registry depth "" Pointer.root [] schema

section check

variable {registry : Registry} {fuel : Nat} {enclosing path record : String}
  {taken seen : List String} {members fields : List Json} {ms : List (String × Json)}

/-- A walk over the members of a union ends when each of its walks does, whatever else was seen. -/
theorem membersWalk_halts {walk : List String → Json → Option (Except Failure (List String))}
    (h : ∀ m ∈ members, ∀ seen', seen ⊆ seen' → Halts id seen' (walk seen' m)
      (checkNode registry fuel enclosing path seen' m)) :
    Halts id seen (membersWalk walk path seen members)
      (checkMembers registry fuel enclosing path seen members) := by
  induction members generalizing seen with
  | nil =>
    rw [membersWalk, checkMembers]
    exact .ok _
  | cons member rest ih =>
    by_cases hflat : ∃ inner, member = .arr inner
    · obtain ⟨inner, rfl⟩ := hflat
      rw [membersWalk, checkMembers]
      exact .error _
    · have hflat : ∀ inner, member ≠ .arr inner := fun inner heq => hflat ⟨inner, heq⟩
      have hmember := h member List.mem_cons_self seen (List.Subset.refl _)
      rw [checkMembers_cons hflat, membersWalk, hmember.eq]
      · cases hchecked : checkNode registry fuel enclosing path seen member with
        | error e => exact .error _
        | ok seen' =>
          have hsub := hmember.keeps seen' hchecked
          exact (ih fun m hm seen'' hsub' =>
            h m (List.mem_cons_of_mem _ hm) seen'' (List.Subset.trans hsub hsub')).mono hsub
      · exact hflat

/-- A walk over the fields of a record ends when each walk over a type does, whatever else was seen. -/
theorem fieldsWalk_halts {walk : String → List String → Json → Option (Except Failure (List String))}
    (h : ∀ f ∈ fields, ∀ path seen', seen ⊆ seen' → Halts id seen' (walk path seen' (typeOf f))
      (checkNode registry fuel enclosing path seen' (typeOf f))) :
    Halts id seen (fieldsWalk walk path record taken seen fields)
      (checkFields registry fuel enclosing path record taken seen fields) := by
  induction fields generalizing seen taken with
  | nil =>
    rw [fieldsWalk, checkFields]
    exact .ok _
  | cons field rest ih =>
    rw [fieldsWalk, checkFields_typeOf]
    split
    · exact .error _
    split
    · exact .error _
    · have hfield := h field List.mem_cons_self (path ++ "/" ++ nameOf field) seen (List.Subset.refl _)
      rw [hfield.eq]
      cases hchecked :
          checkNode registry fuel enclosing (path ++ "/" ++ nameOf field) seen (typeOf field) with
      | error e => exact .error _
      | ok seen' =>
        have hsub := hfield.keeps seen' hchecked
        exact (ih fun f hf path seen'' hsub' =>
          h f (List.mem_cons_of_mem _ hf) path seen'' (List.Subset.trans hsub hsub')).mono hsub

end check

/-- The check of a node ends: a reference leads to a declaration, and a record is either one that was
seen or leaves less full names to be seen. Between two records the walk goes down inside a node. -/
theorem checkWalk_halts {schema node : Json} {fuel depth : Nat} {enclosing : String}
    {seen : List String} (path : String) (hs : Stands "" schema enclosing node)
    (hroom : Room "" schema seen node fuel depth) :
    Halts id seen (checkWalk (Registry.ofSchema schema) depth enclosing path seen node)
      (checkNode (Registry.ofSchema schema) fuel enclosing path seen node) := by
  induction depth generalizing fuel enclosing path seen node with
  | zero => exact absurd hroom.depth_pos (Nat.lt_irrefl 0)
  | succ depth ih =>
    cases node with
    | arr members =>
      rw [checkWalk, checkNode]
      split
      · exact .error _
      · refine membersWalk_halts fun m hm seen' hsub => ih path (hs.below (Json.nodes_item hm)) ?_
        have hsmall := Json.nodeCount_le_items hm
        exact hroom.inside rfl (by rw [Json.nodeCount]; omega) hsub
    | str name =>
      rw [checkWalk, checkNode]
      split
      · exact .ok _
      · rename_i hname
        cases hresolve : (Registry.ofSchema schema).resolve (.str name) enclosing with
        | error e => exact .error _
        | ok result =>
          obtain ⟨declared, inner⟩ := result
          obtain ⟨hnamed, -, hs'⟩ := hs.referred (Bool.eq_false_iff.mpr hname) hresolve
          obtain ⟨rest, rfl, hroom'⟩ := hroom.referred rfl hnamed
          exact ih path hs' hroom'
    | obj ms =>
      by_cases harray : typeName (.obj ms) = "array"
      · rw [checkNode_items harray, checkWalk]
        simp only [harray, if_true]
        have hsmall := nodeCount_under (by rw [harray]; decide) "items"
        exact ih _ (hs.under "items") (hroom.inside (isNamed_array harray) hsmall (List.Subset.refl _))
      by_cases hrecord : typeName (.obj ms) = "record"
      · have hnamed := isNamed_record hrecord
        by_cases hseen : fullName (.obj ms) enclosing ∈ seen
        · have hseen := List.contains_iff_mem.mpr hseen
          rw [checkNode_entered hrecord hseen, checkWalk]
          simp only [hrecord, hseen, if_true]
          exact .ok _
        · have hnew : seen.contains (fullName (.obj ms) enclosing) = false := by simpa using hseen
          rw [checkNode_record hrecord hseen, checkWalk]
          simp only [hrecord, hnew, if_true]
          refine (fieldsWalk_halts fun f hf path seen' hsub => ?_).mono (List.subset_cons_self _ _)
          have hfield := (hs.inside hnamed).field hf
          exact ih path hfield (hroom.entered (hs.fullName_mem hnamed) hnew hfield.small hsub)
      · rw [checkWalk, checkNode]
        simp only [harray, hrecord, if_false]
        split
        · exact .ok _
        · exact .error _
    | _ =>
      rw [checkWalk, checkNode]
      all_goals first | exact .error _ | (intros; contradiction)

theorem checkNested_eq {schema : Json} {depth : Nat} (hdepth : walkDepth "" schema ≤ depth) :
    checkNested schema depth = some (check schema) := by
  have hhalts := checkWalk_halts Pointer.root (.whole "" schema) (.whole "" schema hdepth)
  rw [checkNested, hhalts.eq, check]
  cases checkNode (Registry.ofSchema schema) (Registry.depthBound schema) "" Pointer.root [] schema <;>
    rfl

/-- The check of a schema ends. -/
theorem check_returns (schema : Json) : Returns (checkNested schema) (check schema) :=
  ⟨walkDepth "" schema, fun _ hdepth => checkNested_eq hdepth⟩

/-! ## The normal form -/

/-- The normal forms of the members of a union, by walks. -/
def formsWalk (walk : Json → Option (Except Failure Json)) :
    List Json → Option (Except Failure (List Json))
  | [] => some (.ok [])
  | member :: rest => do
    match ← walk member with
    | .error e => some (.error e)
    | .ok member => Except.map (member :: ·) <$> formsWalk walk rest

/-- The normal forms of the fields of a record, by walks over their types. -/
def fieldFormsWalk (walk : Json → Option (Except Failure Json)) :
    List Json → Option (Except Failure (List Json))
  | [] => some (.ok [])
  | field :: rest =>
    if !field.has "name" then some (.error (.missingKey "name"))
    else do
      match ← walk (typeOf field) with
      | .error e => some (.error e)
      | .ok type => Except.map (fieldForm field type :: ·) <$> fieldFormsWalk walk rest

/-- The normal form of a node, by calls that are nested to a depth; `stack` holds the full names of the
records around it. -/
def normalWalk (registry : Registry) : Nat → String → List String → Json →
    Option (Except Failure Json)
  | 0, _, _, _ => none
  | depth + 1, enclosing, stack, schema =>
    match schema with
    | .arr members => Except.map unionForm <$> formsWalk (normalWalk registry depth enclosing stack) members
    | .str name =>
      if primitiveNames.contains name then some (.ok (.str name))
      else
        match registry.resolve (.str name) enclosing with
        | .error e => some (.error e)
        | .ok (declared, _) => normalWalk registry depth enclosing stack declared
    | .obj ms =>
      let kind := typeName (.obj ms)
      if kind = "record" then
        let name := fullName (.obj ms) enclosing
        if stack.contains name then some (.ok (.str name))
        else
          Except.map (recordForm name) <$>
            fieldFormsWalk (normalWalk registry depth (splitName name).1 (name :: stack))
              (fieldsOf (.obj ms))
      else if kind = "array" then
        Except.map arrayForm <$> normalWalk registry depth enclosing stack (itemsOf (.obj ms))
      else if kind = "map" then
        Except.map mapForm <$> normalWalk registry depth enclosing stack (valuesOf (.obj ms))
      else some (.ok (withoutDoc ms))
    | _ => some (.error .noAttribute)

/-- The normal form of a schema inside a namespace, by calls that are nested to a depth. -/
def normalNested (schema : Json) (enclosing : String) (depth : Nat) : Option (Except Failure Json) :=
  normalWalk (Registry.ofSchema schema) depth enclosing [] schema

section normal

variable {registry : Registry} {fuel : Nat} {enclosing : String} {stack : List String}
  {members fields : List Json} {ms : List (String × Json)}
  {walk : Json → Option (Except Failure Json)}

theorem normalNode_items (hkind : typeName (.obj ms) = "array") :
    normalNode registry fuel enclosing stack (.obj ms) =
      (normalNode registry fuel enclosing stack (itemsOf (.obj ms))).map arrayForm := by
  rw [normalNode, itemsOf, Json.getD, Json.get?, Json.members]
  simp only [hkind, if_neg (show ¬ "array" = "record" by decide), if_true]
  cases hitems : lookup? "items" ms with
  | some items =>
    simp only [Option.getD_some]
    cases normalNode registry fuel enclosing stack items <;> rfl
  | none =>
    rw [Option.getD_none, normalNode]
    rfl

theorem normalNode_values (hkind : typeName (.obj ms) = "map") :
    normalNode registry fuel enclosing stack (.obj ms) =
      (normalNode registry fuel enclosing stack (valuesOf (.obj ms))).map mapForm := by
  rw [normalNode, valuesOf, Json.getD, Json.get?, Json.members]
  simp only [hkind, if_neg (show ¬ "map" = "record" by decide),
    if_neg (show ¬ "map" = "array" by decide), if_true]
  cases hvalues : lookup? "values" ms with
  | some values =>
    simp only [Option.getD_some]
    cases normalNode registry fuel enclosing stack values <;> rfl
  | none =>
    rw [Option.getD_none, normalNode]
    rfl

theorem normalNode_unentered (hkind : typeName (.obj ms) = "record")
    (hstack : stack.contains (fullName (.obj ms) enclosing) = false) :
    normalNode registry fuel enclosing stack (.obj ms) =
      (normalFields registry fuel (splitName (fullName (.obj ms) enclosing)).1
        (fullName (.obj ms) enclosing :: stack) (fieldsOf (.obj ms))).map
          (recordForm (fullName (.obj ms) enclosing)) := by
  rw [normalNode, fieldsOf, Json.getD, Json.get?, Json.members]
  simp only [hkind, hstack, if_true, Bool.false_eq_true, if_false]
  cases hfields : lookup? "fields" ms with
  | some value =>
    cases value with
    | arr fields =>
      simp only [Option.getD_some, Json.items]
      cases normalFields registry fuel (splitName (fullName (.obj ms) enclosing)).1
        (fullName (.obj ms) enclosing :: stack) fields <;> rfl
    | _ =>
      rw [Option.getD_some, Json.items, normalFields]
      · rfl
      all_goals
        intro fields h
        cases h
  | none =>
    rw [Option.getD_none, Json.items, normalFields]
    rfl

theorem normalFields_typeOf {field : Json} {rest : List Json} :
    normalFields registry fuel enclosing stack (field :: rest) =
      if !field.has "name" then .error (.missingKey "name")
      else
        match normalNode registry fuel enclosing stack (typeOf field) with
        | .error e => .error e
        | .ok type =>
          (normalFields registry fuel enclosing stack rest).map (fieldForm field type :: ·) := by
  rw [normalFields, typeOf, Json.getD, Json.has]
  cases hname : field.get? "name" with
  | none => rfl
  | some name =>
    cases htype : field.get? "type" with
    | some type =>
      simp only [Option.getD_some]
      cases normalNode registry fuel enclosing stack type with
      | error e => rfl
      | ok form =>
        cases normalFields registry fuel enclosing stack rest with
        | error e => rfl
        | ok forms =>
          simp only [fieldForm, Json.getD, hname]
          rfl
    | none =>
      rw [Option.getD_none, normalNode]
      cases normalFields registry fuel enclosing stack rest with
      | error e => rfl
      | ok forms =>
        simp only [fieldForm, Json.getD, hname]
        rfl

theorem formsWalk_eq (h : ∀ m ∈ members, walk m =
      some (normalNode registry fuel enclosing stack m)) :
    formsWalk walk members = some (normalMembers registry fuel enclosing stack members) := by
  induction members with
  | nil => rw [formsWalk, normalMembers]
  | cons member rest ih =>
    rw [formsWalk, normalMembers, h member List.mem_cons_self,
      ih fun m hm => h m (List.mem_cons_of_mem _ hm)]
    cases normalNode registry fuel enclosing stack member with
    | error e => rfl
    | ok form => cases normalMembers registry fuel enclosing stack rest <;> rfl

theorem fieldFormsWalk_eq (h : ∀ f ∈ fields, walk (typeOf f) =
      some (normalNode registry fuel enclosing stack (typeOf f))) :
    fieldFormsWalk walk fields = some (normalFields registry fuel enclosing stack fields) := by
  induction fields with
  | nil => rw [fieldFormsWalk, normalFields]
  | cons field rest ih =>
    rw [fieldFormsWalk, normalFields_typeOf, h field List.mem_cons_self,
      ih fun f hf => h f (List.mem_cons_of_mem _ hf)]
    split
    · rfl
    · cases normalNode registry fuel enclosing stack (typeOf field) <;> rfl

end normal

/-- The normal form of a node is found. The records around it are passed down, and a record is either
one of them or leaves less full names. -/
theorem normalWalk_eq {schema node : Json} {fuel depth : Nat} {outer enclosing : String}
    {stack : List String} (hs : Stands outer schema enclosing node)
    (hroom : Room outer schema stack node fuel depth) :
    normalWalk (Registry.ofSchema schema) depth enclosing stack node =
      some (normalNode (Registry.ofSchema schema) fuel enclosing stack node) := by
  induction depth generalizing fuel enclosing stack node with
  | zero => exact absurd hroom.depth_pos (Nat.lt_irrefl 0)
  | succ depth ih =>
    cases node with
    | arr members =>
      have hmember : ∀ m ∈ members, normalWalk (Registry.ofSchema schema) depth enclosing stack m =
          some (normalNode (Registry.ofSchema schema) fuel enclosing stack m) := by
        intro m hm
        have hsmall := Json.nodeCount_le_items hm
        exact ih (hs.below (Json.nodes_item hm))
          (hroom.inside rfl (by rw [Json.nodeCount]; omega) (List.Subset.refl _))
      rw [normalWalk, normalNode, formsWalk_eq hmember]
      cases normalMembers (Registry.ofSchema schema) fuel enclosing stack members <;> rfl
    | str name =>
      rw [normalWalk, normalNode]
      split
      · rfl
      · rename_i hname
        cases hresolve : (Registry.ofSchema schema).resolve (.str name) enclosing with
        | error e => rfl
        | ok result =>
          obtain ⟨declared, inner⟩ := result
          obtain ⟨hnamed, hs', -⟩ := hs.referred (Bool.eq_false_iff.mpr hname) hresolve
          obtain ⟨rest, rfl, hroom'⟩ := hroom.referred rfl hnamed
          exact ih hs' hroom'
    | obj ms =>
      by_cases hrecord : typeName (.obj ms) = "record"
      · have hnamed := isNamed_record hrecord
        rw [normalWalk]
        simp only [hrecord, if_true]
        split
        · rename_i hseen
          rw [normalNode_entered hrecord (List.contains_iff_mem.mp hseen)]
        · rename_i hseen
          have hnew := Bool.eq_false_iff.mpr hseen
          have hfield : ∀ f ∈ fieldsOf (.obj ms),
              normalWalk (Registry.ofSchema schema) depth (namespaceOf (.obj ms) enclosing)
                  (fullName (.obj ms) enclosing :: stack) (typeOf f) =
                some (normalNode (Registry.ofSchema schema) fuel (namespaceOf (.obj ms) enclosing)
                  (fullName (.obj ms) enclosing :: stack) (typeOf f)) := by
            intro f hf
            have hstands := (hs.inside hnamed).field hf
            exact ih hstands
              (hroom.entered (hs.fullName_mem hnamed) hnew hstands.small (List.Subset.refl _))
          have hfields := fieldFormsWalk_eq hfield
          rw [namespaceOf] at hfields
          rw [normalNode_unentered hrecord hnew, hfields]
          rfl
      have hunder (hkind : typeName (.obj ms) ≠ "") (hunnamed : isNamed (.obj ms) = false)
          (key : String) :
          normalWalk (Registry.ofSchema schema) depth enclosing stack
              ((Json.obj ms).getD key (.str "null")) =
            some (normalNode (Registry.ofSchema schema) fuel enclosing stack
              ((Json.obj ms).getD key (.str "null"))) :=
        ih (hs.under key) (hroom.inside hunnamed (nodeCount_under hkind key) (List.Subset.refl _))
      by_cases harray : typeName (.obj ms) = "array"
      · rw [normalNode_items harray, normalWalk]
        simp only [harray, if_neg (show ¬ "array" = "record" by decide), if_true]
        rw [itemsOf, hunder (by rw [harray]; decide) (isNamed_array harray)]
        rfl
      by_cases hmap : typeName (.obj ms) = "map"
      · rw [normalNode_values hmap, normalWalk]
        simp only [hmap, if_neg (show ¬ "map" = "record" by decide),
          if_neg (show ¬ "map" = "array" by decide), if_true]
        rw [valuesOf, hunder (by rw [hmap]; decide) (isNamed_map hmap)]
        rfl
      · rw [normalWalk, normalNode]
        simp only [hrecord, harray, hmap, if_false]
    | _ =>
      rw [normalWalk, normalNode]
      all_goals first | rfl | (intros; contradiction)

/-- The normal form of a schema is found, in every namespace. -/
theorem normal_returns (schema : Json) (enclosing : String) :
    Returns (normalNested schema enclosing) (normal schema enclosing) :=
  ⟨walkDepth enclosing schema, fun _ hdepth =>
    normalWalk_eq (.whole enclosing schema) (.whole enclosing schema hdepth)⟩

end Schema
end AvroDocument
