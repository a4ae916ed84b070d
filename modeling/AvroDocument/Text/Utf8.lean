import AvroDocument.Text.Quoted

/-!
# AvroDocument.Text.Utf8

Texts as UTF-8 bytes and back.

* `utf8`, `ofUtf8?`: the bytes of a text, and the text of valid bytes.
* `Utf8Fault.find?`: the first fault of invalid bytes.
* `readUtf8`: the text of bytes, or their first fault.
-/

namespace AvroDocument
namespace Text

def utf8 (s : String) : List UInt8 := s.toUTF8.data.toList

def ofUtf8? (bytes : List UInt8) : Option String := String.fromUTF8? ⟨bytes.toArray⟩

/-- Where and why bytes are not UTF-8: the bytes of the broken sequence and their position. -/
structure Utf8Fault where
  position : Nat
  bytes : List UInt8
  reason : String

namespace Utf8Fault

def message (f : Utf8Fault) : String :=
  "'utf-8' codec can't decode " ++
    (match f.bytes with
    | [b] => "byte 0x" ++ hexText 2 b.toNat ++ " in position " ++ toString f.position
    | bs => "bytes in position " ++ toString f.position ++ "-" ++
        toString (f.position + bs.length - 1)) ++
    ": " ++ f.reason

/-- The number of bytes that follow a first byte, and the range of the second one. -/
def followers? (b : UInt8) : Option (Nat × UInt8 × UInt8) :=
  if b < 128 then some (0, 0, 0)
  else if b < 194 then none
  else if b < 224 then some (1, 128, 191)
  else if b = 224 then some (2, 160, 191)
  else if b = 237 then some (2, 128, 159)
  else if b < 240 then some (2, 128, 191)
  else if b = 240 then some (3, 144, 191)
  else if b < 244 then some (3, 128, 191)
  else if b = 244 then some (3, 128, 143)
  else none

/-- Checks the bytes after a first one: those taken so far come back when one is wrong. -/
def takeFollowers : Nat → UInt8 → UInt8 → List UInt8 → List UInt8 →
    Except (List UInt8 × String) (List UInt8)
  | 0, _, _, _, rest => .ok rest
  | _ + 1, _, _, taken, [] => .error (taken, "unexpected end of data")
  | n + 1, low, high, taken, b :: rest =>
    if low ≤ b && b ≤ high then takeFollowers n 128 191 (taken ++ [b]) rest
    else .error (taken, "invalid continuation byte")

/-- The first fault of some bytes; each step takes one sequence, so their number is fuel enough. -/
def findFrom : Nat → Nat → List UInt8 → Option Utf8Fault
  | 0, _, _ => none
  | _, _, [] => none
  | fuel + 1, position, b :: rest =>
    match followers? b with
    | none => some ⟨position, [b], "invalid start byte"⟩
    | some (n, low, high) =>
      match takeFollowers n low high [b] rest with
      | .error (taken, reason) => some ⟨position, taken, reason⟩
      | .ok rest' => findFrom fuel (position + 1 + n) rest'

def find? (bytes : List UInt8) : Option Utf8Fault := findFrom bytes.length 0 bytes

end Utf8Fault

/-- The text of bytes, or their first fault. -/
def readUtf8 (bytes : List UInt8) : Except Utf8Fault String :=
  match Utf8Fault.find? bytes with
  | some fault => .error fault
  | none => .ok ((ofUtf8? bytes).getD "")

end Text
end AvroDocument
