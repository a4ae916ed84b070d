import AvroDocument.Text.Numeral
import AvroDocument.Text.Split
import AvroDocument.Value

/-!
# AvroDocument.Pointer

JSON pointers: paths into a document. The path of an error is a pointer with `#` in front, which
stands for the whole document.

* `Pointer.escape`, `Pointer.child`: the segment of a key, and the path of a member or item.
* `Pointer.resolve`: what a pointer leads to in a document.
-/

namespace AvroDocument
namespace Pointer

def escapeChar (c : Char) : List Char :=
  if c = '~' then ['~', '0'] else if c = '/' then ['~', '1'] else [c]

/-- A key as one segment of a pointer: `~` and `/` are escaped. -/
def escape (key : String) : String := String.ofList (key.toList.flatMap escapeChar)

/-- The key of a segment; `none` when a `~` is not followed by `0` or `1`. -/
def unescape? : List Char → Option (List Char)
  | [] => some []
  | '~' :: '0' :: rest => (unescape? rest).map ('~' :: ·)
  | '~' :: '1' :: rest => (unescape? rest).map ('/' :: ·)
  | c :: rest => if c = '~' then none else (unescape? rest).map (c :: ·)

/-- The path of a member. -/
def child (path key : String) : String := path ++ "/" ++ escape key

/-- The path of an item. -/
def item (path : String) (index : Nat) : String := path ++ "/" ++ toString index

/-- The path of a document. -/
def root : String := "#"

/-- The pointer of a path: the path without the mark of the document. -/
def ofPath (path : String) : String :=
  match path.toList with
  | '#' :: rest => String.ofList rest
  | _ => path

/-- The keys of a pointer; `none` when it is neither empty nor starts with a slash, or has a wrong
escape. -/
def keys? (pointer : String) : Option (List String) :=
  if pointer.isEmpty then some []
  else
    match Text.split '/' pointer.toList with
    | [] :: pieces => (pieces.mapM unescape?).map (·.map String.ofList)
    | _ => none

/-- What a pointer leads to: a value, nothing, or the place behind the last item of a list. -/
inductive Target where
  | found (v : Value)
  | absent
  | behindLast

/-- Why a pointer leads nowhere. -/
inductive Fault where
  | malformed
  | badIndex

/-- The number of an index; a key that starts with a zero must be a number as a whole. -/
def index? (key : String) : Except Fault (Option Nat) :=
  match key.toList with
  | '0' :: _ =>
    match Text.readInt? key with
    | some n => .ok (some n.toNat)
    | none => .error .badIndex
  | c :: rest =>
    let digits := if rest.getLast? = some '\n' then rest.dropLast else rest
    if '1' ≤ c && c ≤ '9' && digits.all Char.isDigit then
      .ok (some (Text.digitsValue (c :: digits)))
    else .ok none
  | [] => .ok none

/-- The item at an index of a sequence. -/
def stepItems (key : String) (items : List Value) : Except Fault Target :=
  if key = "-" then .ok .behindLast
  else
    match index? key with
    | .error e => .error e
    | .ok none => .ok .absent
    | .ok (some i) =>
      match items[i]? with
      | some v => .ok (.found v)
      | none => .ok .absent

/-- The value under a key of a struct, or at an index of a list, text or bytes. -/
def step (key : String) : Value → Except Fault Target
  | .struct entries =>
    match Value.member? key entries with
    | some v => .ok (.found v)
    | none => .ok .absent
  | .list vs => stepItems key vs
  | .tuple vs => stepItems key vs
  | .text s => stepItems key (s.toList.map fun c => .text (String.singleton c))
  | .bytes bs => stepItems key (bs.map fun b => .int b.toNat)
  | .byteArray bs => stepItems key (bs.map fun b => .int b.toNat)
  | _ => .ok .absent

def walk : List String → Target → Except Fault Target
  | [], target => .ok target
  | key :: keys, .found v =>
    match step key v with
    | .error e => .error e
    | .ok target => walk keys target
  | _ :: _, _ => .ok .absent

/-- What a pointer leads to in a document. -/
def resolve (pointer : String) (document : Value) : Except Fault Target :=
  match keys? pointer with
  | none => .error .malformed
  | some keys => walk keys (.found document)

end Pointer
end AvroDocument
