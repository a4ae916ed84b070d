import AvroDocument.Failure

/-!
# AvroDocument.Schema.Registry

The named types that a schema declares.

* `Registry.ofSchema`: all declarations, in the order in which they stand in the schema.
* `Registry.resolve`: the declaration that a reference stands for, and the namespace inside it.
-/

namespace AvroDocument
namespace Schema

/-- Declarations under their full names and, the first one wins, under their short names. -/
abbrev Registry := List (String × Json)

namespace Registry

/-- Adds a declaration: the last one counts under a full name, the first one under a short name. -/
def declare (registry : Registry) (name : String) (schema : Json) : Registry :=
  let registry := assign name schema registry
  let short := (splitName name).2
  match lookup? short registry with
  | some _ => registry
  | none => assign short schema registry

mutual

/-- Adds the declarations inside a node; `enclosing` is the namespace around it. -/
def collect (enclosing : String) (registry : Registry) (schema : Json) : Registry :=
  match schema with
  | .arr members => collectItems enclosing registry members
  | .obj ms =>
    let kind := typeName (.obj ms)
    if namedKinds.contains kind then
      let name := fullName (.obj ms) enclosing
      let registry := registry.declare name (.obj ms)
      if kind = "record" then
        match _h : lookup? "fields" ms with
        | some (.arr fields) => collectFields (splitName name).1 registry fields
        | _ => registry
      else registry
    else if kind = "array" then
      match _h : lookup? "items" ms with
      | some items => collect enclosing registry items
      | none => registry
    else if kind = "map" then
      match _h : lookup? "values" ms with
      | some values => collect enclosing registry values
      | none => registry
    else registry
  | _ => registry
termination_by sizeOf schema
decreasing_by
  all_goals first
    | exact Json.sizeOf_lt_arr _
    | exact Json.sizeOf_lt_items _h
    | exact Json.sizeOf_lt_obj _h

def collectItems (enclosing : String) (registry : Registry) : List Json → Registry
  | [] => registry
  | j :: js => collectItems enclosing (collect enclosing registry j) js
termination_by js => sizeOf js

def collectFields (enclosing : String) (registry : Registry) : List Json → Registry
  | [] => registry
  | field :: fields =>
    let registry :=
      match _h : field.get? "type" with
      | some type => collect enclosing registry type
      | none => registry
    collectFields enclosing registry fields
termination_by fields => sizeOf fields
decreasing_by
  · have := Json.sizeOf_get? _h
    simp only [List.cons.sizeOf_spec]
    omega
  · simp only [List.cons.sizeOf_spec]
    omega

end

def ofSchema (schema : Json) : Registry := collect "" [] schema

/-- The declaration that a reference stands for inside a namespace. -/
def find? (registry : Registry) (name enclosing : String) : Option Json :=
  (lookup? (referenceName name enclosing) registry).orElse fun _ => lookup? name registry

/-- The declaration that a node stands for, and the namespace inside it; nodes that are no
references stand for themselves. -/
def resolve (registry : Registry) (schema : Json) (enclosing : String) :
    Except Failure (Json × String) :=
  match schema with
  | .str name =>
    if primitiveNames.contains name then .ok (schema, enclosing)
    else
      match registry.find? name enclosing with
      | none => .error (.invalidSchema Pointer.root (.unknownReference name))
      | some declared =>
        .ok (declared, namespaceOf declared (splitName (referenceName name enclosing)).1)
  | _ => .ok (schema, if isNamed schema then namespaceOf schema enclosing else enclosing)

/-- A bound on the number of references that a walk follows one inside the other before it meets a
full name twice. A full name is made of the name of a declaration and a namespace, and namespaces
are the empty one, those that are written in the schema, and what stands before the last dot of a
name in it. -/
def depthBound (schema : Json) : Nat :=
  let n := schema.nodeCount
  n * (2 * n + 1) + 2

end Registry
end Schema
end AvroDocument
