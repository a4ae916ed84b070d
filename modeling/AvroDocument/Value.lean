import AvroDocument.Calendar
import AvroDocument.Json

/-!
# AvroDocument.Value

The values that documents are made of, and those that payloads hold.

* `Value`: scalars, lists and structs, and the few objects beside them that callers may hand in.
* `Value.kind?`: the kind of an interchange value; other objects have none.
* `Value.ofJson`: the value of a JSON tree.
-/

namespace AvroDocument

/-- The key of a struct; documents have text keys, ill-formed ones may have others. -/
inductive Key where
  | text (s : String)
  | null
  | bool (b : Bool)
  | int (n : Int)
  | float (x : Binary64)
deriving DecidableEq, Inhabited

/-- A value. The last three constructors are no interchange values. A struct is a dictionary; mappings
of other types are left out, and so is text with half of a surrogate pair. -/
inductive Value where
  | null
  | bool (b : Bool)
  | int (n : Int)
  | float (x : Binary64)
  | decimal (d : Decimal)
  | text (s : String)
  | timestamp (t : Timestamp)
  | date (d : Date)
  | time (t : TimeOfDay)
  | bytes (bs : List UInt8)
  | byteArray (bs : List UInt8)
  | list (items : List Value)
  | tuple (items : List Value)
  | struct (entries : List (Key × Value))
  | uuid (s : String)
  | set (items : List Value)
  | missing
deriving Inhabited

/-- The kinds of interchange values. -/
inductive Kind where
  | null
  | bool
  | int
  | float
  | decimal
  | text
  | timestamp
  | date
  | time
  | bytes
  | list
  | struct
deriving DecidableEq

def Kind.name : Kind → String
  | .null => "null"
  | .bool => "bool"
  | .int => "int"
  | .float => "float"
  | .decimal => "decimal"
  | .text => "text"
  | .timestamp => "timestamp"
  | .date => "date"
  | .time => "time"
  | .bytes => "bytes"
  | .list => "list"
  | .struct => "struct"

/-- The range of signed integers of 64 bits. -/
def fitsInt64 (n : Int) : Bool := -9223372036854775808 ≤ n && n ≤ 9223372036854775807

/-- The range of signed integers of 32 bits. -/
def fitsInt32 (n : Int) : Bool := -2147483648 ≤ n && n ≤ 2147483647

namespace Value

/-- The kind of an interchange value. An integer beyond 64 bits counts as an exact decimal. -/
def kind? : Value → Option Kind
  | null => some .null
  | bool _ => some .bool
  | int n => some (if fitsInt64 n then .int else .decimal)
  | float _ => some .float
  | decimal _ => some .decimal
  | text _ => some .text
  | timestamp _ => some .timestamp
  | date _ => some .date
  | time _ => some .time
  | bytes _ => some .bytes
  | byteArray _ => some .bytes
  | list _ => some .list
  | tuple _ => some .list
  | struct _ => some .struct
  | uuid _ => none
  | set _ => none
  | missing => none

/-- The name of a value's type, as messages give it. -/
def typeName : Value → String
  | null => "NoneType"
  | bool _ => "bool"
  | int _ => "int"
  | float _ => "float"
  | decimal _ => "Decimal"
  | text _ => "str"
  | timestamp _ => "datetime"
  | date _ => "date"
  | time _ => "time"
  | bytes _ => "bytes"
  | byteArray _ => "bytearray"
  | list _ => "list"
  | tuple _ => "tuple"
  | struct _ => "dict"
  | uuid _ => "UUID"
  | set _ => "set"
  | missing => "_Missing"

/-- The items of a list or tuple. -/
def items? : Value → Option (List Value)
  | list vs => some vs
  | tuple vs => some vs
  | _ => none

/-- The value under a text key. -/
def member? (key : String) : List (Key × Value) → Option Value
  | [] => none
  | (k, v) :: rest => if k = .text key then some v else member? key rest

/-- Sets the value under a text key: in its place when the key is there, at the end otherwise. -/
def setEntry (key : String) (v : Value) : List (Key × Value) → List (Key × Value)
  | [] => [(.text key, v)]
  | (k, w) :: rest => if k = .text key then (k, v) :: rest else (k, w) :: setEntry key v rest

mutual

/-- The number of values inside a value, itself among them. -/
def nodeCount : Value → Nat
  | list vs => 1 + itemCount vs
  | tuple vs => 1 + itemCount vs
  | struct entries => 1 + entryCount entries
  | set vs => 1 + itemCount vs
  | _ => 1

def itemCount : List Value → Nat
  | [] => 0
  | v :: vs => nodeCount v + itemCount vs

def entryCount : List (Key × Value) → Nat
  | [] => 0
  | (_, v) :: entries => nodeCount v + entryCount entries

end

mutual

/-- The value of a JSON tree. -/
def ofJson : Json → Value
  | .null => null
  | .bool b => bool b
  | .int n => int n
  | .float x => float x
  | .decimal d => decimal d
  | .str s => text s
  | .arr js => list (ofItems js)
  | .obj ms => struct (ofMembers ms)

def ofItems : List Json → List Value
  | [] => []
  | j :: js => ofJson j :: ofItems js

def ofMembers : List (String × Json) → List (Key × Value)
  | [] => []
  | (key, j) :: ms => (.text key, ofJson j) :: ofMembers ms

end

end Value

/-- The type name of a key, as messages give it. -/
def Key.typeName : Key → String
  | .text _ => "str"
  | .null => "NoneType"
  | .bool _ => "bool"
  | .int _ => "int"
  | .float _ => "float"

end AvroDocument
