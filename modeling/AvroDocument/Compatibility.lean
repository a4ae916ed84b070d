import AvroDocument.Schema.Registry

/-!
# AvroDocument.Compatibility

Whether data written with one schema can be read as another without loss: the reader knows every
field that is written, every field of the reader is written or may be missing, and types agree kind
for kind.

* `checkCompatible`: passes, or fails at the first disagreement.
-/

namespace AvroDocument
namespace Compatibility

open Schema (Registry)

def disagree {α : Type} (path : String) (expected : Json) (fault : MismatchFault) :
    Except Failure α :=
  .error (.mismatch ⟨path, expected, fault⟩)

/-- The field of a list with a name; the last one counts. -/
def fieldNamed? (fields : List Json) (name : String) : Option Json :=
  fields.reverse.find? fun f => Schema.nameOf f = name

/-- The written field that a field of the reader takes its data from: the first of its names that is
written. -/
def sourceOf? (written : List Json) (field : Json) : Option Json :=
  (Schema.nameOf field :: Schema.aliasesOf field).findSome? (fieldNamed? written)

/-- The names of fields, each once, in the order of first appearance. -/
def distinctNames (fields : List Json) : List String :=
  fields.foldl (fun names f =>
    if names.contains (Schema.nameOf f) then names else names ++ [Schema.nameOf f]) []

/-- Fails on the first written field that the reader does not take. -/
def checkTaken (path : String) (reader : Json) (written : List Json) (matched : List String) :
    List String → Except Failure Unit
  | [] => .ok ()
  | name :: names =>
    if matched.contains name then checkTaken path reader written matched names
    else
      let type := (fieldNamed? written name).bind (·.get? "type")
      disagree (Pointer.child path name) reader (.unreadField name type)

/-- A pair of types to compare, each in its namespace. -/
structure Pair where
  writer : Json
  reader : Json
  writerNamespace : String
  readerNamespace : String

mutual

/-- Compares a pair of types; `visited` holds the pairs of records that were entered, by their full
names. Each step into a type takes one unit of fuel. -/
def checkPair (writers readers : Registry) : Nat → String → List (String × String) → Pair →
    Except Failure (List (String × String))
  | 0, _, visited, _ => .ok visited
  | fuel + 1, path, visited, pair =>
    if Schema.isNullable pair.writer && !Schema.isNullable pair.reader then
      disagree path pair.reader .mayBeNull
    else
      let writer := Schema.nonNull pair.writer
      let reader := Schema.nonNull pair.reader
      if writer.isStr "null" then .ok visited
      else
        match writers.resolve writer pair.writerNamespace with
        | .error e => .error e
        | .ok (writer, writerNamespace) =>
          match readers.resolve reader pair.readerNamespace with
          | .error e => .error e
          | .ok (reader, readerNamespace) =>
            let kind := Schema.typeName writer
            if Schema.opaqueKinds.contains kind then disagree path reader (.unknownType kind)
            else if !(Schema.typeNode writer).same (Schema.typeNode reader) ||
                !((Schema.logicalNode? writer).getD .null).same
                  ((Schema.logicalNode? reader).getD .null) then
              disagree path reader (.wrongType writer)
            else if kind = "array" then
              checkPair writers readers fuel (path ++ "/items") visited
                ⟨Schema.itemsOf writer, Schema.itemsOf reader, writerNamespace, readerNamespace⟩
            else if kind = "record" then
              let names :=
                (Schema.fullName writer writerNamespace, Schema.fullName reader readerNamespace)
              if visited.contains names then .ok visited
              else
                let written := Schema.fieldsOf writer
                if written.any fun f => !f.has "name" then .error (.missingKey "name")
                else
                  match checkFields writers readers fuel path written writerNamespace
                      readerNamespace [] (names :: visited) (Schema.fieldsOf reader) with
                  | .error e => .error e
                  | .ok (visited, matched) =>
                    (checkTaken path reader written matched (distinctNames written)).map
                      fun _ => visited
            else .ok visited
termination_by fuel _ _ _ => (fuel, 0)

/-- Compares the fields of a reader with those that are written; the names of the written ones that
were taken come back too. -/
def checkFields (writers readers : Registry) (fuel : Nat) (path : String) (written : List Json)
    (writerNamespace readerNamespace : String) (matched : List String)
    (visited : List (String × String)) (fields : List Json) :
    Except Failure (List (String × String) × List String) :=
  match fields with
  | [] => .ok (visited, matched)
  | field :: rest =>
    if !field.has "name" then .error (.missingKey "name")
    else
      let name := Schema.nameOf field
      let below := Pointer.child path name
      match sourceOf? written field with
      | none =>
        if !Schema.isNullable (Schema.typeOf field) && !field.has "default" then
          disagree below ((field.get? "type").getD .null) (.unwrittenField name)
        else
          checkFields writers readers fuel path written writerNamespace readerNamespace matched
            visited rest
      | some source =>
        match checkPair writers readers fuel below visited
            ⟨Schema.typeOf source, Schema.typeOf field, writerNamespace, readerNamespace⟩ with
        | .error e => .error e
        | .ok visited =>
          checkFields writers readers fuel path written writerNamespace readerNamespace
            (Schema.nameOf source :: matched) visited rest
termination_by (fuel, fields.length + 1)

end

/-- A bound on the steps into types one inside the other: between two pairs of records the walk goes
down inside both schemas, and each pair of full names is entered once. -/
def depthBound (writer reader : Json) : Nat :=
  (Registry.depthBound writer * Registry.depthBound reader + 1) *
    (writer.nodeCount + reader.nodeCount + 2)

end Compatibility

/-- Checks that data written with one schema can be read as another without loss. -/
def checkCompatible (writer reader : Json) : Except Failure Unit :=
  (Compatibility.checkPair (Schema.Registry.ofSchema writer) (Schema.Registry.ofSchema reader)
    (Compatibility.depthBound writer reader) Pointer.root [] ⟨writer, reader, "", ""⟩).map
    fun _ => ()

end AvroDocument
