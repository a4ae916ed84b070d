import AvroDocument.Value.Display

/-!
# AvroDocument.Schema

Schema nodes. A schema is a JSON tree: a string names a primitive type or refers to a named one, an
object declares a type, an array is a union.

* `Schema.avroName`, `Schema.avroNamespace`: valid names made of any text.
* `Schema.fullName`, `Schema.namespaceOf`: the full name of a declaration or reference, and the
  namespace inside a declaration.
* `Schema.isNullable`, `Schema.nonNull`, `Schema.nullable`: unions with null.
* `Schema.typeName`, `Schema.logicalName?`: what a node says about itself.
* `Schema.describe`: a node in a message.
-/

namespace AvroDocument
namespace Schema

def primitiveNames : List String :=
  ["null", "boolean", "int", "long", "float", "double", "bytes", "string"]

/-- The kinds of types that a declaration gives a name. -/
def namedKinds : List String := ["record", "enum", "fixed"]

/-- The kinds of types whose data are handed on as they are read. -/
def opaqueKinds : List String := ["enum", "fixed", "map"]

def timestampNames : List String := ["timestamp-millis", "timestamp-micros"]

def localTimestampNames : List String := ["local-timestamp-millis", "local-timestamp-micros"]

def timeNames : List String := ["time-millis", "time-micros"]

/-! ## Names -/

def isNameChar (c : Char) : Bool := c.isAlphanum || c = '_'

/-- A valid name: other characters become underscores, and one more stands in front of a digit. -/
def avroName (s : String) : String :=
  let cs := s.toList.map fun c => if isNameChar c then c else '_'
  match cs with
  | [] => "_"
  | c :: _ => if c.isDigit then String.ofList ('_' :: cs) else String.ofList cs

/-- A valid name made of a number. -/
def avroNameOfInt (n : Int) : String := avroName ("_" ++ toString n)

/-- A valid namespace: the parts between dots made valid, empty ones dropped. -/
def avroNamespace (s : String) : String :=
  String.intercalate "." (((s.splitOn ".").filter (· ≠ "")).map avroName)

/-- The part of a name before its last dot, and the part behind it. -/
def splitName (name : String) : String × String :=
  let behind := (name.toList.reverse.takeWhile (· ≠ '.')).reverse
  (String.ofList (name.toList.take (name.length - behind.length - 1)), String.ofList behind)

def hasDot (name : String) : Bool := name.toList.contains '.'

/-- The text of a node under a key; other trees count as empty. -/
def textOf (j : Json) (key : String) : String := ((j.get? key).bind Json.text?).getD ""

/-- The full name that a reference stands for inside a namespace. -/
def referenceName (name enclosing : String) : String :=
  if !hasDot name && enclosing ≠ "" then enclosing ++ "." ++ name else name

/-- The full name of a declaration or of a reference. -/
def fullName (schema : Json) (enclosing : String) : String :=
  match schema with
  | .str name => referenceName name enclosing
  | _ =>
    let name := textOf schema "name"
    if hasDot name then name
    else
      let namespaceName := if schema.has "namespace" then textOf schema "namespace" else enclosing
      if namespaceName = "" then name else namespaceName ++ "." ++ name

/-- The namespace inside a declaration. -/
def namespaceOf (schema : Json) (enclosing : String) : String :=
  (splitName (fullName schema enclosing)).1

/-! ## Fields -/

/-- The fields of a record. -/
def fieldsOf (schema : Json) : List Json := (schema.getD "fields" (.arr [])).items

/-- The name of a field. -/
def nameOf (field : Json) : String := textOf field "name"

/-- The type of a field; a field without one has the type null. -/
def typeOf (field : Json) : Json := field.getD "type" (.str "null")

/-- The type of the items of an array. -/
def itemsOf (schema : Json) : Json := schema.getD "items" (.str "null")

/-- The type of the values of a map. -/
def valuesOf (schema : Json) : Json := schema.getD "values" (.str "null")

/-- The other names that a field answers to when it is read. -/
def aliasesOf (field : Json) : List String :=
  (field.getD "aliases" (.arr [])).items.filterMap Json.text?

/-- The name of a field for a purpose: the alternate name recorded for it, or else its own. Alternate
names are texts; what is recorded besides texts counts as none. -/
def altName? (field : Json) (purpose : String) : Option String :=
  match (field.get? "altnames").bind (·.get? purpose) with
  | some (.str s) => some s
  | _ => (field.get? "name").bind Json.text?

/-- The name of a field for a purpose, for fields that have a name. -/
def altName (field : Json) (purpose : String) : String := (altName? field purpose).getD ""

/-! ## Unions with null -/

/-- Whether a union member is null, bare or annotated. -/
def isNullMember : Json → Bool
  | .str s => s = "null"
  | .obj ms =>
    match lookup? "type" ms with
    | some (.str s) => s = "null"
    | _ => false
  | _ => false

/-- Whether a type admits null. -/
def isNullable : Json → Bool
  | .str s => s = "null"
  | .arr members => members.any isNullMember
  | _ => false

/-- The type together with null, which comes first so that it can be the default. -/
def nullable (schema : Json) : Json :=
  if isNullable schema then schema
  else
    match schema with
    | .arr members => .arr (.str "null" :: members)
    | _ => .arr [.str "null", schema]

/-- The first member of a union that is not null; other types as they are. -/
def nonNull : Json → Json
  | .arr members => (members.find? fun m => !isNullMember m).getD (.str "null")
  | schema => schema

/-! ## What a node says -/

/-- The type of a node: the keyword of a declaration, the name of a primitive or a reference. -/
def typeNode : Json → Json
  | .arr _ => .str "union"
  | .obj ms => (lookup? "type" ms).getD (.str "")
  | schema => schema

/-- The type of a node, when it is a name. -/
def typeName (schema : Json) : String := (typeNode schema).text?.getD ""

/-- The logical type of a node, whatever it is. -/
def logicalNode? (schema : Json) : Option Json := schema.get? "logicalType"

/-- The logical type of a node, when it is a name. -/
def logicalName? (schema : Json) : Option String := (logicalNode? schema).bind Json.text?

/-- A primitive node, annotated when a logical type is given. -/
def primitive (name : String) (logical : Option String) : Json :=
  match logical with
  | none => .str name
  | some l =>
    if l = "" then .str name else .obj [("type", .str name), ("logicalType", .str l)]

/-- Whether a node declares a type with a name. -/
def isNamed (schema : Json) : Bool :=
  schema.isObj && namedKinds.contains (typeName schema)

/-! ## Messages -/

/-- A text as it is, another tree as its literal. -/
def plainText : Json → String
  | .str s => s
  | j => j.display

def plainOption : Option Json → String
  | none => "None"
  | some j => plainText j

def describeObject (ms : List (String × Json)) : String :=
  let type := plainOption (lookup? "type" ms)
  match lookup? "logicalType" ms with
  | some l => type ++ "/" ++ plainText l
  | none =>
    if namedKinds.contains (typeName (.obj ms)) then
      type ++ " '" ++ plainOption (lookup? "name" ms) ++ "'"
    else type

mutual

/-- A node in a message. -/
def describe : Json → String
  | .str s => s
  | .obj ms => describeObject ms
  | .arr members => "[" ++ describeMembers members ++ "]"
  | j => j.display

def describeMembers : List Json → String
  | [] => ""
  | [j] => describe j
  | j :: js => describe j ++ ", " ++ describeMembers js

end

end Schema
end AvroDocument
