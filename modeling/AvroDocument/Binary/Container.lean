import AvroDocument.Binary.Reader
import AvroDocument.Binary.Writer
import AvroDocument.Json.Reader
import AvroDocument.Json.Writer

/-!
# AvroDocument.Binary.Container

Container files: a header with the schema of the data, then blocks of records. Sixteen bytes that
stand in the header end every block.

Blocks are held uncompressed whatever compression the header names; the one named `null` is the one
for which these are the bytes of the file.

* `Container.header`, `Container.fullBlocks`: the bytes of a container.
* `Container.readHeader?`, `Container.readBlock`: the parts of one.
-/

namespace AvroDocument
namespace Container

/-- The compressions that blocks may have. -/
def codecs : List String := ["null", "deflate", "bzip2", "xz"]

def magic : List UInt8 := [79, 98, 106, 1]

/-- The bytes in front of the blocks. -/
def header (schema : Json) (codec : String) (sync : List UInt8) : List UInt8 :=
  magic ++ Varint.writeInt 2 ++
    Binary.writeText "avro.codec" ++ Binary.writeText codec ++
    Binary.writeText "avro.schema" ++ Binary.writeText (schema.text Json.Style.ascii) ++
    [0] ++ sync

/-- A block of records. -/
def block (sync : List UInt8) (count : Nat) (body : List UInt8) : List UInt8 :=
  Varint.writeInt count ++ Binary.writeBytes body ++ sync

/-- Records that wait to be written as a block. -/
structure Pending where
  count : Nat := 0
  body : List UInt8 := []

/-- Takes up a record; the bytes of a block come back when there is enough for one. -/
def Pending.add (interval : Int) (sync : List UInt8) (p : Pending) (record : List UInt8) :
    List UInt8 × Pending :=
  let body := p.body ++ record
  if interval ≤ body.length then (block sync (p.count + 1) body, {})
  else ([], ⟨p.count + 1, body⟩)

/-- The last block, if records are left for one. -/
def Pending.flush (sync : List UInt8) (p : Pending) : List UInt8 :=
  if p.count = 0 then [] else block sync p.count p.body

/-- The blocks that are full after some records, and what waits behind them. -/
def fullBlocks (interval : Int) (sync : List UInt8) (p : Pending) :
    List (List UInt8) → List UInt8 × Pending
  | [] => ([], p)
  | record :: records =>
    let (bytes, p) := p.add interval sync record
    let (more, p) := fullBlocks interval sync p records
    (bytes ++ more, p)

/-- What stands in front of the blocks. -/
structure Header where
  schema : Json
  layout : Layout
  codec : String
  sync : List UInt8

/-- The entries of a struct that are texts in bytes. -/
def textEntries? : List (Key × Value) → Option (List (String × String))
  | [] => some []
  | (.text key, .bytes body) :: entries =>
    match Text.ofUtf8? body, textEntries? entries with
    | some s, some rest => some ((key, s) :: rest)
    | _, _ => none
  | _ :: _ => none

/-- Reads the front of a container; the first four bytes are not looked at. -/
def readHeader? (bytes : List UInt8) : Option (Header × List UInt8) :=
  match Binary.takeBytes 4 bytes with
  | .error _ => none
  | .ok (_, rest) =>
    match Binary.read (.map (.primitive .bytes none)) rest with
    | .ok (.struct entries, rest) =>
      match Binary.takeBytes 16 rest, textEntries? entries with
      | .ok (sync, rest), some texts =>
        match (lookup? "avro.schema" texts).map (Json.read .floating) with
        | some (.ok schema) =>
          match Layout.ofSchema schema with
          | .ok layout =>
            some (⟨schema, layout, (lookup? "avro.codec" texts).getD "null", sync⟩, rest)
          | .error _ => none
        | _ => none
      | _, _ => none
    | _ => none

/-- The records of a block: their number and their bytes. -/
structure Block where
  count : Nat
  body : List UInt8

/-- Reads the block at the start of some bytes. A failure tells what was left. A negative number of
records counts as none. -/
def readBlock (sync : List UInt8) (bytes : List UInt8) : Binary.ReadResult Block :=
  match Binary.readInt bytes with
  | .error e => .error e
  | .ok (count, rest) =>
    match Binary.readSized rest with
    | .error e => .error e
    | .ok (body, rest) =>
      match Binary.takeBytes 16 rest with
      | .error e => .error e
      | .ok (mark, rest) => if mark = sync then .ok (⟨count.toNat, body⟩, rest) else .error rest

end Container
end AvroDocument
