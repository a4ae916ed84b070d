import AvroDocument.Schema.Registry

/-!
# AvroDocument.Schema.Normal

The normal form of a schema, in which two schemas of one structure agree: references are replaced by
what they stand for, records have their full names, fields are in the order of their names and union
members in a fixed order, and notes are dropped. Inside itself a record is left as its full name.

* `Schema.normal`: the normal form.
* `Schema.equivalent`: whether two schemas have the same one.
-/

namespace AvroDocument
namespace Schema

/-- The order of union members: null first, the others by their literals. -/
def memberLe (a b : Json) : Bool :=
  if a.isStr "null" then true
  else if b.isStr "null" then false
  else decide (a.display ≤ b.display)

/-- The order of fields. -/
def fieldLe (a b : Json) : Bool := decide (nameOf a ≤ nameOf b)

/-- An object without its notes; a primitive type that says nothing else becomes its name. -/
def withoutDoc (ms : List (String × Json)) : Json :=
  match ms.filter fun m => m.1 ≠ "doc" with
  | [("type", .str name)] =>
    if primitiveNames.contains name then .str name else .obj [("type", .str name)]
  | rest => .obj rest

mutual

/-- The normal form of a node; `stack` holds the full names of the records around it. Following a
reference takes one unit of fuel. -/
def normalNode (registry : Registry) (fuel : Nat) (enclosing : String) (stack : List String)
    (schema : Json) : Except Failure Json :=
  match schema with
  | .arr members =>
    match normalMembers registry fuel enclosing stack members with
    | .error e => .error e
    | .ok members => .ok (.arr (members.mergeSort memberLe))
  | .str name =>
    if primitiveNames.contains name then .ok (.str name)
    else
      match registry.resolve (.str name) enclosing with
      | .error e => .error e
      | .ok (declared, _) =>
        match fuel with
        | 0 => .ok (.str name)
        | fuel + 1 => normalNode registry fuel enclosing stack declared
  | .obj ms =>
    let kind := typeName (.obj ms)
    if kind = "record" then
      let name := fullName (.obj ms) enclosing
      if stack.contains name then .ok (.str name)
      else
        let fields :=
          match _h : lookup? "fields" ms with
          | some (.arr fields) =>
            normalFields registry fuel (splitName name).1 (name :: stack) fields
          | _ => .ok []
        match fields with
        | .error e => .error e
        | .ok fields =>
          .ok (.obj [("type", .str "record"), ("name", .str name),
            ("fields", .arr (fields.mergeSort fieldLe))])
    else if kind = "array" then
      let items :=
        match _h : lookup? "items" ms with
        | some items => normalNode registry fuel enclosing stack items
        | none => .ok (.str "null")
      match items with
      | .error e => .error e
      | .ok items => .ok (.obj [("type", .str "array"), ("items", items)])
    else if kind = "map" then
      let values :=
        match _h : lookup? "values" ms with
        | some values => normalNode registry fuel enclosing stack values
        | none => .ok (.str "null")
      match values with
      | .error e => .error e
      | .ok values => .ok (.obj [("type", .str "map"), ("values", values)])
    else .ok (withoutDoc ms)
  | _ => .error .noAttribute
termination_by (fuel, sizeOf schema)
decreasing_by
  all_goals first
    | exact Prod.Lex.left _ _ (Nat.lt_succ_self _)
    | exact Prod.Lex.right _ (Json.sizeOf_lt_arr _)
    | exact Prod.Lex.right _ (Json.sizeOf_lt_items _h)
    | exact Prod.Lex.right _ (Json.sizeOf_lt_obj _h)

def normalMembers (registry : Registry) (fuel : Nat) (enclosing : String) (stack : List String)
    (members : List Json) : Except Failure (List Json) :=
  match members with
  | [] => .ok []
  | member :: rest =>
    match normalNode registry fuel enclosing stack member with
    | .error e => .error e
    | .ok member =>
      match normalMembers registry fuel enclosing stack rest with
      | .error e => .error e
      | .ok rest => .ok (member :: rest)
termination_by (fuel, sizeOf members)
decreasing_by
  all_goals (apply Prod.Lex.right; simp only [List.cons.sizeOf_spec]; omega)

/-- The fields of a record keep their names, types and defaults. -/
def normalFields (registry : Registry) (fuel : Nat) (enclosing : String) (stack : List String)
    (fields : List Json) : Except Failure (List Json) :=
  match fields with
  | [] => .ok []
  | field :: rest =>
    match field.get? "name" with
    | none => .error (.missingKey "name")
    | some name =>
      let type :=
        match _h : field.get? "type" with
        | some type => normalNode registry fuel enclosing stack type
        | none => .ok (.str "null")
      match type with
      | .error e => .error e
      | .ok type =>
        match normalFields registry fuel enclosing stack rest with
        | .error e => .error e
        | .ok rest =>
          let default :=
            match field.get? "default" with
            | some d => [("default", d)]
            | none => []
          .ok (.obj ([("name", name), ("type", type)] ++ default) :: rest)
termination_by (fuel, sizeOf fields)
decreasing_by
  · apply Prod.Lex.right
    have := Json.sizeOf_get? _h
    simp only [List.cons.sizeOf_spec]
    omega
  · apply Prod.Lex.right
    simp only [List.cons.sizeOf_spec]
    omega

end

/-- The normal form of a schema inside a namespace. -/
def normal (schema : Json) (enclosing : String) : Except Failure Json :=
  normalNode (Registry.ofSchema schema) (Registry.depthBound schema) enclosing [] schema

/-- Whether two schemas describe one structure. A NaN in a default counts as equal to a NaN. -/
def equivalent (a b : Json) : Except Failure Bool :=
  match normal a "" with
  | .error e => .error e
  | .ok a =>
    match normal b "" with
    | .error e => .error e
    | .ok b => .ok (a.same b)

end Schema
end AvroDocument
