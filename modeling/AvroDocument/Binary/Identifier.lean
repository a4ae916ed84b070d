import AvroDocument.Json.Reader
import AvroDocument.Text.Numeral
import AvroDocument.Text.Quoted

/-!
# AvroDocument.Binary.Identifier

Identifiers in texts.

* `Binary.identifier?`: the canonical form of the identifier that a text spells.
-/

namespace AvroDocument
namespace Binary

/-- Drops a word wherever it stands, from left to right; so many more characters belong to a word that
was met. -/
def dropWord (word : List Char) : Nat → List Char → List Char
  | _, [] => []
  | more + 1, _ :: cs => dropWord word more cs
  | 0, c :: cs =>
    if word.isPrefixOf (c :: cs) then dropWord word (word.length - 1) cs
    else c :: dropWord word 0 cs

def isBrace (c : Char) : Bool := c = '\x7b' || c = '\x7d'

/-- What counts of the text of an identifier: not the words in front of it, braces and hyphens. -/
def identifierChars (cs : List Char) : List Char :=
  (Text.trimBy isBrace (dropWord "uuid:".toList 0 (dropWord "urn:".toList 0 cs))).filter (· ≠ '-')

/-- The value of a hexadecimal digit of any script. -/
def hexDigit? (c : Char) : Option Nat := (Text.digitValue? c).orElse fun _ => Json.hexValue? c

/-- The number that hexadecimal digits spell; other characters count as zero. -/
def hexValue (cs : List Char) : Nat := cs.foldl (fun n c => n * 16 + (hexDigit? c).getD 0) 0

/-- Whether underscores stand only one by one and between other characters. -/
def wellGrouped : List Char → Bool
  | [] => true
  | '_' :: _ => false
  | c :: cs => separated c cs
where
  /-- The same behind a character. -/
  separated (last : Char) : List Char → Bool
    | [] => last ≠ '_'
    | c :: cs => !(last = '_' && c = '_') && separated c cs

/-- The characters behind the mark of hexadecimal numbers and an underscore that follows it. -/
def dropMark : List Char → List Char
  | '0' :: 'x' :: '_' :: cs => cs
  | '0' :: 'X' :: '_' :: cs => cs
  | '0' :: 'x' :: cs => cs
  | '0' :: 'X' :: cs => cs
  | cs => cs

/-- The number that is spelled with the freedom that integers have: blanks around the digits, a sign,
a mark in front and underscores between them. -/
def hexNumber? (cs : List Char) : Option Nat :=
  let (negative, body) := Text.splitSign (Text.trimSpace cs)
  let body := dropMark body
  let ds := body.filter (· ≠ '_')
  if negative && ds.any (fun c => hexDigit? c ≠ some 0) then none
  else if ds.isEmpty || !ds.all (fun c => (hexDigit? c).isSome) || !wellGrouped body then none
  else some (hexValue ds)

/-- The canonical text of a number of 128 bits: 32 hexadecimal digits in five groups. -/
def identifierText (n : Nat) : String :=
  let ds := (Text.hexText 32 n).toList
  let group (i k : Nat) : String := String.ofList ((ds.drop i).take k)
  String.intercalate "-" [group 0 8, group 8 4, group 12 4, group 16 4, group 20 12]

/-- The canonical form of the identifier that a text spells. -/
def identifier? (s : String) : Option String :=
  let cs := identifierChars s.toList
  if cs.length ≠ 32 then none else (hexNumber? cs).map identifierText

end Binary
end AvroDocument
