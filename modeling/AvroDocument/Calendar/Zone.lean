import AvroDocument.Calendar
import AvroDocument.Text.Digit

/-!
# AvroDocument.Calendar.Zone

Time zones: a fixed offset, or a table of offsets such as those of the regions of the world.

* `Zone.ofId`: the zone of an identifier, given the regions that are known by a name.
* `Zone.offsetAtWall`: the offset of a local time. A time that the clocks skip or show twice has the
  offset before they change.
* `Zone.offsetAtInstant`: the offset of an instant.
-/

namespace AvroDocument
namespace Calendar

/-- The offsets of a region, by local time and by instant, in microseconds since the start of
year 1. -/
structure OffsetTable where
  atWall : Nat → Offset
  atInstant : Nat → Offset

/-- The zone that timestamps without an offset are taken to be in. -/
inductive Zone where
  | fixed (offset : Offset)
  | table (offsets : OffsetTable)

namespace Zone

def utc : Zone := .fixed Offset.utc

/-- Hours and minutes with a sign in front, with or without a colon and a newline at the end. -/
def readOffsetId? (cs : List Char) : Option (Bool × Nat) :=
  let number? (a b : Char) : Option Nat :=
    if Text.isDigit a && Text.isDigit b then some (Text.digitsValue [a, b]) else none
  let minutes? (a b c d : Char) : Option Nat :=
    match number? a b, number? c d with
    | some h, some m => some (h * 60 + m)
    | _, _ => none
  match cs with
  | sign :: rest =>
    if sign = '+' || sign = '-' then
      let n? :=
        match rest with
        | [a, b, c, d] => minutes? a b c d
        | [a, b, ':', c, d] => minutes? a b c d
        | [a, b, c, d, '\n'] => minutes? a b c d
        | [a, b, ':', c, d, '\n'] => minutes? a b c d
        | _ => none
      n?.map fun n => (decide (sign = '-'), n)
    else none
  | [] => none

/-- Why an identifier names no zone. -/
inductive Fault where
  | unknown
  | offsetTooLarge (micros : Int)

/-- The regions that a machine knows by a name such as `Europe/Lisbon`. -/
abbrev Names := String → Option OffsetTable

/-- The zone of an identifier; nothing, `UTC` and `Z` stand for UTC. -/
def ofId (names : Names) (id : String) : Except Fault Zone :=
  if id = "" || id = "UTC" || id = "Z" then .ok utc
  else
    match readOffsetId? id.toList with
    | some (negative, minutes) =>
      let size : Int := minutes * 60 * secondMicros
      let n := if negative then -size else size
      match Offset.ofMicros? n with
      | some o => .ok (.fixed o)
      | none => .error (.offsetTooLarge n)
    | none =>
      match names id with
      | some offsets => .ok (.table offsets)
      | none => .error .unknown

/-- The offset of a local time, in microseconds since the start of year 1. -/
def offsetAtWall : Zone → Nat → Offset
  | .fixed o, _ => o
  | .table offsets, wall => offsets.atWall wall

/-- The offset of an instant, in microseconds of UTC since the start of year 1. -/
def offsetAtInstant : Zone → Nat → Offset
  | .fixed o, _ => o
  | .table offsets, instant => offsets.atInstant instant

end Zone

end Calendar

namespace Timestamp

open Calendar

/-- A local time read in a zone. -/
def inZone (t : Timestamp) (zone : Zone) : Timestamp :=
  t.withOffset (some (zone.offsetAtWall t.wall))

/-- The local time in a zone of a timestamp with an offset; `none` when the calendar does not hold
the time in UTC or the local one. -/
def toZone? (t : Timestamp) (offset : Offset) (zone : Zone) : Option Timestamp :=
  let instant := t.instantAt offset
  match ofWall? instant (some Offset.utc) with
  | none => none
  | some universal =>
    ofWall? (instant + (zone.offsetAtInstant universal.wall).micros) none

end Timestamp
end AvroDocument
