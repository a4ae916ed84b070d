import AvroDocument.Text.Printable

/-!
# AvroDocument.Text.Quoted

Texts and bytes between quotes, for messages. A quote, a backslash and whatever is not printable is
escaped; double quotes are used only when the text holds a single quote and no double one.
-/

namespace AvroDocument
namespace Text

/-- The hexadecimal digits of a number, at least `width` of them. -/
def hexText (width n : Nat) : String :=
  let ds := Nat.toDigits 16 n
  String.ofList (List.replicate (width - ds.length) '0' ++ ds)

/-- The quote around a text that holds the given characters. -/
def quoteFor (hasSingle hasDouble : Bool) : Char :=
  if hasSingle && !hasDouble then '"' else '\''

def quoteChar (quote c : Char) : String :=
  if c = quote || c = '\\' then String.ofList ['\\', c]
  else if c = '\t' then "\\t"
  else if c = '\n' then "\\n"
  else if c = '\r' then "\\r"
  else if isPrintable c then String.singleton c
  else if c.toNat < 256 then "\\x" ++ hexText 2 c.toNat
  else if c.toNat < 65536 then "\\u" ++ hexText 4 c.toNat
  else "\\U" ++ hexText 8 c.toNat

/-- The text between quotes. -/
def quoted (s : String) : String :=
  let cs := s.toList
  let quote := quoteFor (cs.contains '\'') (cs.contains '"')
  String.singleton quote ++ String.join (cs.map (quoteChar quote)) ++ String.singleton quote

def quoteByte (escaped : Char) (b : UInt8) : String :=
  let c := Char.ofNat b.toNat
  if c = escaped || c = '\\' then String.ofList ['\\', c]
  else if c = '\t' then "\\t"
  else if c = '\n' then "\\n"
  else if c = '\r' then "\\r"
  else if b < 32 || 126 < b then "\\x" ++ hexText 2 b.toNat
  else String.singleton c

def byteQuote (bytes : List UInt8) : Char := quoteFor (bytes.contains 39) (bytes.contains 34)

def enclosedBytes (quote escaped : Char) (bytes : List UInt8) : String :=
  "b" ++ String.singleton quote ++ String.join (bytes.map (quoteByte escaped)) ++
    String.singleton quote

/-- Bytes between quotes, with the letter that marks them in front. -/
def quotedBytes (bytes : List UInt8) : String :=
  enclosedBytes (byteQuote bytes) (byteQuote bytes) bytes

/-- The bytes of a byte array between quotes; single quotes are escaped whatever stands around. -/
def quotedByteArray (bytes : List UInt8) : String :=
  enclosedBytes (byteQuote bytes) '\'' bytes

end Text
end AvroDocument
