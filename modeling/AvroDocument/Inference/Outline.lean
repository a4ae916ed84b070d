import AvroDocument.Inference.Naming

/-!
# AvroDocument.Inference.Outline

The outline of a schema: which position has which type. Record names come last, when all records are
known.

* `Outline.ofArena`: the outline of the documents that an arena has seen.
* `Outline.sites`: the records of an outline.
* `Outline.schema`: the schema, given the names of its records.
-/

namespace AvroDocument
namespace Inference

/-- A field: its key, its name, and whether it may be null or missing. -/
structure FieldKey where
  key : String
  name : String
  nullable : Bool

/-- The type of a position. -/
inductive Outline where
  | null
  | scalar (type : Json)
  | array (nullable : Bool) (items : Outline)
  | record (site : RecordSite) (fields : List (FieldKey × Outline))

namespace Outline

/-- The names that lead to the items of a list: the last one gets a mark. -/
def itemPath (path : List String) : List String :=
  path.dropLast ++ [path.getLast?.getD "" ++ "_items"]

/-- The namespace of a record at the end of a path of names. -/
def siteNamespace (outer : String) (path : List String) : String :=
  String.intercalate "." ((if outer = "" then [] else [outer]) ++ path.dropLast)

/-- The outline at a position; `path` holds the names that lead to it, and `outer` the namespace of
the whole. Positions have finite depth, and each level takes one unit of fuel. -/
def ofArena (arena : Arena) (outer : String) : Nat → Position → List String → Outline
  | 0, _, _ => null
  | fuel + 1, position, path =>
    let shape := (arena.get? position).getD {}
    if shape.categories = 0 then null
    else if 1 < shape.categories then scalar widest
    else
      match shape.scalar with
      | some type => scalar type
      | none =>
        if 0 < shape.structs then
          let names := fieldNames (shape.fields.map (·.1))
          let fields := shape.fields.map fun (key, presence) =>
            let name := (lookup? key names).getD key
            let below := position ++ [.key key]
            let nulls := ((arena.get? below).getD {}).nulls
            (FieldKey.mk key name (decide (presence < shape.structs) || decide (0 < nulls)),
              ofArena arena outer fuel below (path ++ [name]))
          record ⟨position, siteNamespace outer path, path.getLast?.getD ""⟩ fields
        else if shape.items = 0 then array false (scalar widest)
        else
          let below := position ++ [.items]
          let nulls := ((arena.get? below).getD {}).nulls
          array (decide (0 < nulls)) (ofArena arena outer fuel below (itemPath path))

mutual

/-- The records of an outline, outer ones first. -/
def sites : Outline → List RecordSite
  | null => []
  | scalar _ => []
  | array _ items => sites items
  | record site fields => site :: fieldSites fields

def fieldSites : List (FieldKey × Outline) → List RecordSite
  | [] => []
  | (_, outline) :: fields => sites outline ++ fieldSites fields

end

/-- The name given to the record at a position. -/
def nameAt (names : List (Position × String)) (site : RecordSite) : String :=
  ((names.find? fun n => n.1 = site.position).map (·.2)).getD site.name

/-- A type that may be null, or as it is. -/
def optional (nullable : Bool) (type : Json) : Json :=
  if nullable then Schema.nullable type else type

def isNull : Outline → Bool
  | null => true
  | _ => false

/-- The members of a field: alternate names that differ are recorded, and what may be missing is null
by default. -/
def fieldMembers (altNamesKey : String) (field : FieldKey) (alwaysNull : Bool) (type : Json) :
    List (String × Json) :=
  let altNames :=
    if field.name = field.key then []
    else [("altnames", Json.obj [(altNamesKey, .str field.key)])]
  let default := if alwaysNull || field.nullable then [("default", Json.null)] else []
  [("name", .str field.name), ("type", if alwaysNull then type else optional field.nullable type)]
    ++ altNames ++ default

mutual

/-- The schema of an outline, given the names of its records. -/
def schema (altNamesKey : String) (names : List (Position × String)) : Outline → Json
  | null => .str "null"
  | scalar type => type
  | array nullable items =>
    .obj [("type", .str "array"), ("items", optional nullable (schema altNamesKey names items))]
  | record site fields =>
    let namespaceMember :=
      if site.namespaceName = "" then [] else [("namespace", Json.str site.namespaceName)]
    .obj ([("type", .str "record"), ("name", .str (nameAt names site))] ++ namespaceMember ++
      [("fields", .arr (schemaFields altNamesKey names fields))])

def schemaFields (altNamesKey : String) (names : List (Position × String)) :
    List (FieldKey × Outline) → List Json
  | [] => []
  | (field, outline) :: fields =>
    .obj (fieldMembers altNamesKey field outline.isNull (schema altNamesKey names outline)) ::
      schemaFields altNamesKey names fields

end

end Outline

/-- The depth of the deepest position. -/
def Arena.depth (arena : Arena) : Nat := (arena.map (·.1.length)).foldl max 0

/-- The schema of the documents counted so far. -/
def Accumulator.schema (a : Accumulator) (typeName namespaceName altNamesKey : String) :
    Except Failure Json :=
  if a.documents = 0 || (a.arena.get? []).isNone then .error (.inference Pointer.root .emptyInput)
  else
    let outer := if namespaceName = "" then "" else Schema.avroNamespace namespaceName
    let outline := Outline.ofArena a.arena outer (a.arena.depth + 1) [] [Schema.avroName typeName]
    .ok (outline.schema altNamesKey (recordNames outline.sites))

end Inference
end AvroDocument
