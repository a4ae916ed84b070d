import AvroDocument.Binary64.Text
import AvroDocument.Schema.Registry

/-!
# AvroDocument.Binary.Layout

The binary layout that a schema describes.

* `Layout`: the layout of a type; the name of a type declared earlier stands for its layout.
* `Layout.schemaName`, `Layout.declaredName`: the names of declarations and references here. Those of
  `Schema` are worked out apart; that both agree is a theorem.
* `Layout.ofSchema`: the layout of a schema. Every reference must follow its declaration, names are
  declared once, and defaults must be of the type of their field.
* `Layout.declarations`: the named layouts inside a layout.
-/

namespace AvroDocument

inductive Primitive where
  | null
  | boolean
  | int
  | long
  | float
  | double
  | bytes
  | string
deriving DecidableEq

def Primitive.ofName? : String → Option Primitive
  | "null" => some .null
  | "boolean" => some .boolean
  | "int" => some .int
  | "long" => some .long
  | "float" => some .float
  | "double" => some .double
  | "bytes" => some .bytes
  | "string" => some .string
  | _ => none

/-- The parameters of a decimal type. Without a precision nothing is read or written, and neither
with one of zero digits, which stands for all that are no numbers; a scale may be unusable. -/
structure DecimalType where
  precision : Option Nat
  scale : Option Int
deriving DecidableEq

/-- What the data of a primitive layout stand for. -/
inductive Meaning where
  | timestampMillis
  | timestampMicros
  | localTimestampMillis
  | localTimestampMicros
  | date
  | timeMillis
  | timeMicros
  | decimal (type : DecimalType)
  | uuid
deriving DecidableEq

inductive Layout where
  | primitive (type : Primitive) (meaning : Option Meaning)
  | array (items : Layout)
  | map (values : Layout)
  | union (members : List Layout)
  | enum (name : String) (symbols : List String)
  | fixed (name : String) (size : Option Nat) (decimal : Option DecimalType)
  | record (name : String) (fields : List (String × Option Json × Layout))
  | reference (name : String)
deriving Inhabited

/-- The layouts of declared types under their full names. -/
abbrev Declarations := List (String × Layout)

namespace Layout

mutual

/-- The named layouts inside a layout, outer ones first. -/
def declarations : Layout → Declarations
  | primitive _ _ => []
  | array items => declarations items
  | map values => declarations values
  | union members => memberDeclarations members
  | enum name symbols => [(name, enum name symbols)]
  | fixed name size decimal => [(name, fixed name size decimal)]
  | record name fields => (name, record name fields) :: fieldDeclarations fields
  | reference _ => []

def memberDeclarations : List Layout → Declarations
  | [] => []
  | l :: ls => declarations l ++ memberDeclarations ls

def fieldDeclarations : List (String × Option Json × Layout) → Declarations
  | [] => []
  | (_, _, l) :: fields => declarations l ++ fieldDeclarations fields

end

/-! ## Names -/

/-- What stands before the last dot of a name. -/
def beforeLastDot? (name : String) : Option String :=
  match name.toList.reverse.dropWhile (· ≠ '.') with
  | [] => none
  | _ :: before => some (String.ofList before.reverse)

/-- The namespace that a declaration gives, or else the one around it. -/
def givenNamespace (enclosing : String) (ms : List (String × Json)) : String :=
  match lookup? "namespace" ms with
  | some given => given.text?.getD ""
  | none => enclosing

/-- The namespace inside a declaration, and its full name. A dotted name is a full name, whatever
namespace is given or in scope, and its namespace goes up to the last dot. -/
def schemaName (enclosing : String) (ms : List (String × Json)) : String × String :=
  let name := ((lookup? "name" ms).bind Json.text?).getD ""
  let given := givenNamespace enclosing ms
  match beforeLastDot? name with
  | some before => (before, name)
  | none => if given = "" then ("", name) else (given, given ++ "." ++ name)

/-- The full name that a reference stands for. -/
def declaredName (enclosing name : String) : String :=
  match beforeLastDot? name with
  | some _ => name
  | none => if enclosing = "" then name else enclosing ++ "." ++ name

/-! ## Checks -/

def malformed {α : Type} : Except Failure α := .error (.invalidSchema Pointer.root .malformed)

/-- Whether a parameter counts as given: zero, nothing and empty trees do not. -/
def isGiven : Json → Bool
  | .null => false
  | .bool b => b
  | .int n => n ≠ 0
  | .float x => !x.isZero
  | .decimal _ => true
  | .str s => s ≠ ""
  | .arr js => !js.isEmpty
  | .obj ms => !ms.isEmpty

/-- Whether decimals of a precision fit the two's complement of a number of bytes. -/
def precisionFits (precision : Nat) (size : Int) : Bool :=
  if size ≤ 0 then false
  else
    let bits := 8 * size.toNat - 1
    4 * precision ≤ bits || 10 ^ precision ≤ 2 ^ bits

/-- Checks the precision of a decimal type; that of a fixed one is bounded by its size. -/
def checkPrecision (ms : List (String × Json)) : Except Failure Unit :=
  match (lookup? "precision" ms).filter isGiven with
  | none => .ok ()
  | some precision =>
    match precision.int? with
    | none => malformed
    | some p =>
      if p ≤ 0 then malformed
      else if Schema.typeName (.obj ms) = "fixed" then
        match lookup? "size" ms with
        | none => .error (.missingKey "size")
        | some size =>
          match size.int? with
          | none => malformed
          | some n => if precisionFits p.toNat n then .ok () else malformed
      else .ok ()

/-- Checks scale and precision of a decimal type. -/
def checkDecimal (ms : List (String × Json)) : Except Failure Unit :=
  let scale := (lookup? "scale" ms).filter isGiven
  let scaleIsWrong :=
    match scale with
    | none => false
    | some s =>
      match s.int? with
      | none => true
      | some n => decide (n < 0)
  if scaleIsWrong then malformed
  else
    match checkPrecision ms with
    | .error e => .error e
    | .ok () =>
      match scale.bind Json.int?, ((lookup? "precision" ms).filter isGiven).bind Json.int? with
      | some s, some p => if p < s then malformed else .ok ()
      | _, _ => .ok ()

/-- Checks the logical type of a declaration. -/
def checkLogical (ms : List (String × Json)) : Except Failure Unit :=
  if (lookup? "logicalType" ms).any (·.isStr "decimal") then checkDecimal ms else .ok ()

def isSymbol (s : String) : Bool :=
  match s.toList with
  | [] => false
  | c :: cs => Schema.isNameChar c && !c.isDigit && cs.all Schema.isNameChar

/-- The symbols of an enumeration: distinct names, the default among them. -/
def symbolsOf (ms : List (String × Json)) : Except Failure (List String) :=
  match lookup? "symbols" ms with
  | none => .error (.missingKey "symbols")
  | some symbols =>
    let names := symbols.items.filterMap Json.text?
    let hasDefault :=
      match lookup? "default" ms with
      | none => true
      | some d => names.any d.isStr
    if names.length = symbols.items.length && names.all isSymbol && decide names.Nodup &&
        hasDefault then .ok names
    else malformed

/-! ## Defaults -/

/-- Whether a default can be read as a floating point number. -/
def isFloatLike : Json → Except Failure Bool
  | .int n => if (Binary64.ofInt? n).isSome then .ok true else .error (.overflow .number)
  | .bool _ => .ok true
  | .float _ => .ok true
  | .str s => .ok (Binary64.ofText? s).isSome
  | _ => .ok false

def isText (j : Json) : Bool := j.text?.isSome

def isInteger (j : Json) : Bool := j.int?.isSome

def isNull : Json → Bool
  | .null => true
  | _ => false

def isBoolean : Json → Bool
  | .bool _ => true
  | _ => false

def isFloat : Json → Bool
  | .float _ => true
  | _ => false

/-- Whether a default is of a primitive type given by its bare name. -/
def bareDefaultFits (default : Json) : Primitive → Except Failure Bool
  | .null => .ok (isNull default)
  | .boolean => .ok (isBoolean default)
  | .int => .ok (isInteger default)
  | .long => .ok (isInteger default)
  | .float => isFloatLike default
  | .double => isFloatLike default
  | .bytes => .ok (isText default)
  | .string => .ok (isText default)

/-- Whether a default is of a primitive type given by an object. -/
def annotatedDefaultFits (default : Json) : Primitive → Bool
  | .null => isNull default
  | .boolean => isBoolean default
  | .int => isInteger default
  | .long => isInteger default
  | .float => isFloat default
  | .double => isFloat default
  | .bytes => isText default
  | .string => isText default

/-- Whether a default is of the type of some union member. Only bare primitive names are told
apart. -/
def unionDefaultFits (default : Json) : List Json → Except Failure Bool
  | [] => .ok false
  | member :: rest =>
    match member.text?.bind Primitive.ofName? with
    | none => .ok true
    | some p =>
      match bareDefaultFits default p with
      | .error e => .error e
      | .ok true => .ok true
      | .ok false => unionDefaultFits default rest

/-- Fails when there is a default that does not pass a test. -/
def requireDefault (default : Option Json) (passes : Json → Bool) : Except Failure Unit :=
  if default.all passes then .ok () else malformed

def isArray : Json → Bool
  | .arr _ => true
  | _ => false

/-! ## Layouts of nodes -/

/-- The parameters of a decimal type. -/
def decimalType (ms : List (String × Json)) : DecimalType where
  precision := (lookup? "precision" ms).map fun p => (p.int?.getD 0).toNat
  scale :=
    match lookup? "scale" ms with
    | none => some 0
    | some s => s.int?

/-- The meaning of a logical type; each goes with one primitive type. -/
def meaning? (type : Primitive) (ms : List (String × Json)) : Option Meaning :=
  match type, Schema.logicalName? (.obj ms) with
  | .long, some "timestamp-millis" => some .timestampMillis
  | .long, some "timestamp-micros" => some .timestampMicros
  | .long, some "local-timestamp-millis" => some .localTimestampMillis
  | .long, some "local-timestamp-micros" => some .localTimestampMicros
  | .int, some "date" => some .date
  | .int, some "time-millis" => some .timeMillis
  | .long, some "time-micros" => some .timeMicros
  | .bytes, some "decimal" => some (.decimal (decimalType ms))
  | .string, some "uuid" => some .uuid
  | _, _ => none

/-- The layout of a bare name, which stands for a primitive or for a declared type. -/
def ofName (declared : List String) (enclosing : String) (default : Option Json) (name : String) :
    Except Failure Layout :=
  match Primitive.ofName? name with
  | some p =>
    match default with
    | none => .ok (primitive p none)
    | some d =>
      match bareDefaultFits d p with
      | .error e => .error e
      | .ok true => .ok (primitive p none)
      | .ok false => malformed
  | none =>
    let full := declaredName enclosing name
    if declared.contains full then .ok (reference full) else malformed

/-- The namespace inside a declaration, and its full name, which is not yet taken. -/
def freshName (declared : List String) (enclosing : String) (ms : List (String × Json)) :
    Except Failure (String × String) :=
  if (lookup? "name" ms).isNone then malformed
  else
    let (inner, name) := schemaName enclosing ms
    if declared.contains name then malformed else .ok (inner, name)

/-- The layout of a primitive type given by an object. -/
def ofAnnotated (ms : List (String × Json)) (default : Option Json) : Except Failure Layout :=
  match Primitive.ofName? (Schema.typeName (.obj ms)) with
  | none => malformed
  | some p =>
    match requireDefault default (annotatedDefaultFits · p) with
    | .error e => .error e
    | .ok () => .ok (primitive p (meaning? p ms))

def ofEnum (declared : List String) (enclosing : String) (ms : List (String × Json))
    (default : Option Json) : Except Failure (Layout × List String) :=
  match freshName declared enclosing ms with
  | .error e => .error e
  | .ok (_, name) =>
    match symbolsOf ms with
    | .error e => .error e
    | .ok symbols =>
      match requireDefault default isText with
      | .error e => .error e
      | .ok () => .ok (enum name symbols, name :: declared)

def ofFixed (declared : List String) (enclosing : String) (ms : List (String × Json))
    (default : Option Json) : Except Failure (Layout × List String) :=
  match freshName declared enclosing ms with
  | .error e => .error e
  | .ok (_, name) =>
    match requireDefault default isText with
    | .error e => .error e
    | .ok () =>
      match lookup? "size" ms with
      | none => .error (.missingKey "size")
      | some size =>
        let decimal :=
          if (lookup? "logicalType" ms).any (·.isStr "decimal") then some (decimalType ms)
          else none
        .ok (fixed name (size.int?.filter (0 ≤ ·) |>.map Int.toNat) decimal, name :: declared)

mutual

/-- The layout of a node, and the names declared up to its end. -/
def ofNode (declared : List String) (enclosing : String) (default : Option Json)
    (schema : Json) : Except Failure (Layout × List String) :=
  match schema with
  | .arr members =>
    match ofMembers declared enclosing members with
    | .error e => .error e
    | .ok (layouts, declared) =>
      match default with
      | none => .ok (union layouts, declared)
      | some d =>
        match unionDefaultFits d members with
        | .error e => .error e
        | .ok true => .ok (union layouts, declared)
        | .ok false => malformed
  | .str name => (ofName declared enclosing default name).map (·, declared)
  | .obj ms =>
    if (lookup? "type" ms).isNone then .error (.missingKey "type")
    else
      match checkLogical ms with
      | .error e => .error e
      | .ok () =>
        let kind := Schema.typeName (.obj ms)
        if kind = "array" then
          match _h : lookup? "items" ms with
          | none => .error (.missingKey "items")
          | some items =>
            match ofNode declared enclosing none items with
            | .error e => .error e
            | .ok (layout, declared) =>
              (requireDefault default isArray).map fun _ => (array layout, declared)
        else if kind = "map" then
          match _h : lookup? "values" ms with
          | none => .error (.missingKey "values")
          | some values =>
            match ofNode declared enclosing none values with
            | .error e => .error e
            | .ok (layout, declared) =>
              (requireDefault default Json.isObj).map fun _ => (map layout, declared)
        else if kind = "enum" then ofEnum declared enclosing ms default
        else if kind = "fixed" then ofFixed declared enclosing ms default
        else if kind = "record" then
          match freshName declared enclosing ms with
          | .error e => .error e
          | .ok (inner, name) =>
            match requireDefault default Json.isObj with
            | .error e => .error e
            | .ok () =>
              match _h : lookup? "fields" ms with
              | some (.arr fields) =>
                match ofFields (name :: declared) inner fields with
                | .error e => .error e
                | .ok (fields, declared) => .ok (record name fields, declared)
              | _ => .ok (record name [], name :: declared)
        else (ofAnnotated ms default).map (·, declared)
  | _ => malformed
termination_by sizeOf schema
decreasing_by
  all_goals first
    | exact Json.sizeOf_lt_arr _
    | exact Json.sizeOf_lt_items _h
    | exact Json.sizeOf_lt_obj _h

def ofMembers (declared : List String) (enclosing : String) :
    List Json → Except Failure (List Layout × List String)
  | [] => .ok ([], declared)
  | member :: rest =>
    match ofNode declared enclosing none member with
    | .error e => .error e
    | .ok (layout, declared) =>
      match ofMembers declared enclosing rest with
      | .error e => .error e
      | .ok (layouts, declared) => .ok (layout :: layouts, declared)
termination_by members => sizeOf members

def ofFields (declared : List String) (enclosing : String) :
    List Json → Except Failure (List (String × Option Json × Layout) × List String)
  | [] => .ok ([], declared)
  | field :: rest =>
    if !field.isObj then .error .noAttribute
    else if !isArray (field.getD "aliases" (.arr [])) then malformed
    else if !field.has "name" then .error (.missingKey "name")
    else
      match _h : field.get? "type" with
      | none => .error (.missingKey "type")
      | some type =>
        match ofNode declared enclosing (field.get? "default") type with
        | .error e => .error e
        | .ok (layout, declared) =>
          match ofFields declared enclosing rest with
          | .error e => .error e
          | .ok (fields, declared) =>
            .ok ((Schema.nameOf field, field.get? "default", layout) :: fields, declared)
termination_by fields => sizeOf fields
decreasing_by
  · have := Json.sizeOf_get? _h
    simp only [List.cons.sizeOf_spec]
    omega
  · simp only [List.cons.sizeOf_spec]
    omega

end

/-- The layout of a schema. -/
def ofSchema (schema : Json) : Except Failure Layout :=
  (ofNode [] "" none schema).map (·.1)

end Layout
end AvroDocument
