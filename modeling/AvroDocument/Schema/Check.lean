import AvroDocument.Schema.Registry

/-!
# AvroDocument.Schema.Check

The types that documents are written and read as: primitives with or without a logical type, arrays,
records, references to them, and unions of one type with null.

* `Schema.check`: the registry of a schema that holds no other type; the first fault of another.
-/

namespace AvroDocument
namespace Schema

/-- The members of a union other than a bare null. -/
def nonNullMembers (members : List Json) : List Json :=
  members.filter fun m => !m.isStr "null"

def invalid {α : Type} (path : String) (fault : SchemaFault) : Except Failure α :=
  .error (.invalidSchema path fault)

mutual

/-- Checks a node; `seen` holds the full names of the records that were entered. Following a
reference takes one unit of fuel. -/
def checkNode (registry : Registry) (fuel : Nat) (enclosing path : String) (seen : List String)
    (schema : Json) : Except Failure (List String) :=
  match schema with
  | .arr members =>
    if 1 < (nonNullMembers members).length then invalid path .tooManyMembers
    else checkMembers registry fuel enclosing path seen members
  | .str name =>
    if primitiveNames.contains name then .ok seen
    else
      match registry.resolve (.str name) enclosing with
      | .error e => .error e
      | .ok (declared, inner) =>
        match fuel with
        | 0 => .ok seen
        | fuel + 1 => checkNode registry fuel inner path seen declared
  | .obj ms =>
    let kind := typeName (.obj ms)
    if primitiveNames.contains kind then .ok seen
    else if kind = "array" then
      match _h : lookup? "items" ms with
      | some items => checkNode registry fuel enclosing (path ++ "/items") seen items
      | none => .ok seen
    else if kind = "record" then
      let name := fullName (.obj ms) enclosing
      if seen.contains name then .ok seen
      else
        match _h : lookup? "fields" ms with
        | some (.arr fields) =>
          checkFields registry fuel (splitName name).1 path name [] (name :: seen) fields
        | _ => .ok (name :: seen)
    else invalid path (.unsupportedType (lookup? "type" ms))
  | node => invalid path (.notANode node)
termination_by (fuel, sizeOf schema)
decreasing_by
  all_goals first
    | exact Prod.Lex.left _ _ (Nat.lt_succ_self _)
    | exact Prod.Lex.right _ (Json.sizeOf_lt_arr _)
    | exact Prod.Lex.right _ (Json.sizeOf_lt_items _h)
    | exact Prod.Lex.right _ (Json.sizeOf_lt_obj _h)

/-- Checks the members of a union, of which at most one is not null. -/
def checkMembers (registry : Registry) (fuel : Nat) (enclosing path : String)
    (seen : List String) (members : List Json) : Except Failure (List String) :=
  match members with
  | [] => .ok seen
  | .arr _ :: _ => invalid path .nestedUnion
  | member :: rest =>
    match checkNode registry fuel enclosing path seen member with
    | .error e => .error e
    | .ok seen => checkMembers registry fuel enclosing path seen rest
termination_by (fuel, sizeOf members)
decreasing_by
  all_goals (apply Prod.Lex.right; simp only [List.cons.sizeOf_spec]; omega)

/-- Checks the fields of a record; `taken` holds the names of the earlier ones. -/
def checkFields (registry : Registry) (fuel : Nat) (enclosing path record : String)
    (taken seen : List String) (fields : List Json) : Except Failure (List String) :=
  match fields with
  | [] => .ok seen
  | field :: rest =>
    let name := nameOf field
    if !field.has "name" then invalid path .namelessField
    else if taken.contains name then invalid path (.duplicateField name record)
    else
      let checked :=
        match _h : field.get? "type" with
        | some type => checkNode registry fuel enclosing (path ++ "/" ++ name) seen type
        | none => .ok seen
      match checked with
      | .error e => .error e
      | .ok seen => checkFields registry fuel enclosing path record (name :: taken) seen rest
termination_by (fuel, sizeOf fields)
decreasing_by
  · apply Prod.Lex.right
    have := Json.sizeOf_get? _h
    simp only [List.cons.sizeOf_spec]
    omega
  · apply Prod.Lex.right
    simp only [List.cons.sizeOf_spec]
    omega

end

/-- The registry of a schema in which all types are supported. -/
def check (schema : Json) : Except Failure Registry :=
  let registry := Registry.ofSchema schema
  match checkNode registry (Registry.depthBound schema) "" Pointer.root [] schema with
  | .error e => .error e
  | .ok _ => .ok registry

end Schema
end AvroDocument
