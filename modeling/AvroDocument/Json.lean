import AvroDocument.Decimal

/-!
# AvroDocument.Json

JSON trees. Numbers keep their kind (integer, floating point, exact decimal) and objects their
order.

* `Json.get?`: a member of an object.
* `Json.nodeCount`: the size of a tree.
* `Json.same`: equality of documents: the order of members does not matter, and numbers (booleans
  among them) are equal when their values are.
-/

namespace AvroDocument

/-- A JSON tree. -/
inductive Json where
  | null
  | bool (b : Bool)
  | int (n : Int)
  | float (x : Binary64)
  | decimal (d : Decimal)
  | str (s : String)
  | arr (items : List Json)
  | obj (members : List (String × Json))
deriving Inhabited

/-- The greatest number of digits of an integer that is converted from text or to text. -/
def Json.digitLimit : Nat := 4300

/-- The value under a key of an association list. -/
def lookup? {α : Type} (key : String) : List (String × α) → Option α
  | [] => none
  | (k, v) :: rest => if k = key then some v else lookup? key rest

/-- Sets the value under a key: in its place when the key is there, at the end otherwise. -/
def assign {α : Type} (key : String) (value : α) : List (String × α) → List (String × α)
  | [] => [(key, value)]
  | (k, v) :: rest => if k = key then (k, value) :: rest else (k, v) :: assign key value rest

theorem sizeOf_lt_of_lookup? {α : Type} [SizeOf α] {key : String} {members : List (String × α)}
    {v : α} (h : lookup? key members = some v) : sizeOf v < sizeOf members := by
  induction members with
  | nil => simp [lookup?] at h
  | cons m rest ih =>
    obtain ⟨k, w⟩ := m
    simp only [lookup?] at h
    split at h
    · cases h
      simp only [List.cons.sizeOf_spec, Prod.mk.sizeOf_spec]
      omega
    · have := ih h
      simp only [List.cons.sizeOf_spec, Prod.mk.sizeOf_spec]
      omega

theorem Json.sizeOf_lt_obj {key : String} {ms : List (String × Json)} {v : Json}
    (h : lookup? key ms = some v) : sizeOf v < sizeOf (Json.obj ms) := by
  have := sizeOf_lt_of_lookup? h
  simp only [Json.obj.sizeOf_spec]
  omega

theorem Json.sizeOf_lt_items {key : String} {ms : List (String × Json)} {js : List Json}
    (h : lookup? key ms = some (.arr js)) : sizeOf js < sizeOf (Json.obj ms) := by
  have := Json.sizeOf_lt_obj h
  simp only [Json.arr.sizeOf_spec] at this
  omega

theorem Json.sizeOf_lt_arr (js : List Json) : sizeOf js < sizeOf (Json.arr js) := by
  simp only [Json.arr.sizeOf_spec]
  omega

namespace Json

/-- The members of an object; other trees have none. -/
def members : Json → List (String × Json)
  | obj ms => ms
  | _ => []

/-- The items of an array; other trees have none. -/
def items : Json → List Json
  | arr js => js
  | _ => []

/-- A member of an object. -/
def get? (j : Json) (key : String) : Option Json := lookup? key j.members

def getD (j : Json) (key : String) (default : Json) : Json := (j.get? key).getD default

def has (j : Json) (key : String) : Bool := (j.get? key).isSome

/-- The text of a string. -/
def text? : Json → Option String
  | str s => some s
  | _ => none

def isStr (j : Json) (s : String) : Bool := j.text? == some s

def isObj : Json → Bool
  | obj _ => true
  | _ => false

/-- The integer of a number that counts; booleans count as zero and one. -/
def int? : Json → Option Int
  | int n => some n
  | bool b => some (if b then 1 else 0)
  | _ => none

theorem sizeOf_get? {j v : Json} {key : String} (h : j.get? key = some v) :
    sizeOf v < sizeOf j := by
  cases j <;> simp only [get?, members, lookup?, reduceCtorEq] at h
  have := sizeOf_lt_of_lookup? h
  simp only [obj.sizeOf_spec]
  omega

mutual

/-- The number of trees inside a tree, itself among them. -/
def nodeCount : Json → Nat
  | arr js => 1 + itemCount js
  | obj ms => 1 + memberCount ms
  | _ => 1

def itemCount : List Json → Nat
  | [] => 0
  | j :: js => nodeCount j + itemCount js

def memberCount : List (String × Json) → Nat
  | [] => 0
  | (_, j) :: ms => nodeCount j + memberCount ms

end

mutual

/-- Whether two documents are equal: members in any order, numbers and booleans by value. -/
def same : Json → Json → Bool
  | null, null => true
  | bool a, bool b => a == b
  | bool a, int n => (if a then 1 else 0) == n
  | bool a, float x => x.equalsInt (if a then 1 else 0)
  | int m, bool b => m == (if b then 1 else 0)
  | int m, int n => m == n
  | int m, float x => x.equalsInt m
  | float x, bool b => x.equalsInt (if b then 1 else 0)
  | float x, int n => x.equalsInt n
  | float x, float y => x.sameNumber y
  | decimal d, decimal e => d == e
  | str s, str t => s == t
  | arr js, arr ks => sameItems js ks
  | obj ms, obj ns => ms.length == ns.length && sameMembers ms ns
  | _, _ => false

def sameItems : List Json → List Json → Bool
  | [], [] => true
  | j :: js, k :: ks => same j k && sameItems js ks
  | _, _ => false

/-- Whether each member of the first list has an equal one under its key in the second. -/
def sameMembers : List (String × Json) → List (String × Json) → Bool
  | [], _ => true
  | (key, j) :: ms, ns =>
    match lookup? key ns with
    | some k => same j k && sameMembers ms ns
    | none => false

end

end Json
end AvroDocument
