import AvroDocument.Json
import AvroDocument.Text.Quoted

/-!
# AvroDocument.Json.Writer

Writing JSON text on one line or with indented lines.

* `Json.Style`: the choices, and the ones in use: `spaced`, `compact` and `ascii`.
* `Json.text`, `Json.indentedText`: the text of a tree.
-/

namespace AvroDocument
namespace Json

/-- How trees are written: what stands between items, what stands behind a key, and whether
characters beyond ASCII are escaped. -/
structure Style where
  separator : String
  colon : String
  asciiOnly : Bool

/-- Separators with a space behind them. -/
def Style.spaced : Style := ⟨", ", ": ", false⟩

/-- Separators without spaces. -/
def Style.compact : Style := ⟨",", ":", false⟩

/-- Separators with a space behind them, and ASCII characters only. -/
def Style.ascii : Style := ⟨", ", ": ", true⟩

def unitEscape (n : Nat) : String := "\\u" ++ Text.hexText 4 n

/-- A character inside a string. -/
def charText (asciiOnly : Bool) (c : Char) : String :=
  if c = '"' then "\\\""
  else if c = '\\' then "\\\\"
  else if c = '\n' then "\\n"
  else if c = '\r' then "\\r"
  else if c = '\t' then "\\t"
  else if c = '\x08' then "\\b"
  else if c = '\x0c' then "\\f"
  else if c.toNat < 32 then unitEscape c.toNat
  else if asciiOnly && 126 < c.toNat then
    if c.toNat < 0x10000 then unitEscape c.toNat
    else
      let n := c.toNat - 0x10000
      unitEscape (0xD800 + n / 0x400) ++ unitEscape (0xDC00 + n % 0x400)
  else String.singleton c

def stringText (asciiOnly : Bool) (s : String) : String :=
  "\"" ++ String.join (s.toList.map (charText asciiOnly)) ++ "\""

def floatText (x : Binary64) : String :=
  if x.isNaN then "NaN"
  else if x.isInfinite then (if x.isNegative then "-Infinity" else "Infinity")
  else x.text

def boolText (b : Bool) : String := if b then "true" else "false"

mutual

/-- The text of a tree on one line. -/
def text (style : Style) : Json → String
  | null => "null"
  | bool b => boolText b
  | int n => toString n
  | float x => floatText x
  | decimal d => d.text
  | str s => stringText style.asciiOnly s
  | arr js => "[" ++ itemsText style js ++ "]"
  | obj ms => "\x7b" ++ membersText style ms ++ "\x7d"

def itemsText (style : Style) : List Json → String
  | [] => ""
  | [j] => text style j
  | j :: js => text style j ++ style.separator ++ itemsText style js

def membersText (style : Style) : List (String × Json) → String
  | [] => ""
  | [(key, j)] => stringText style.asciiOnly key ++ style.colon ++ text style j
  | (key, j) :: ms =>
    stringText style.asciiOnly key ++ style.colon ++ text style j ++ style.separator ++
      membersText style ms

end

/-- A new line, indented by two spaces for each level. -/
def newLine (level : Nat) : String := "\n" ++ String.ofList (List.replicate (2 * level) ' ')

mutual

/-- The text of a tree with a line for each item, in ASCII characters. -/
def indentedText (level : Nat) : Json → String
  | arr [] => "[]"
  | arr js => "[" ++ newLine (level + 1) ++ indentedItems (level + 1) js ++ newLine level ++ "]"
  | obj [] => "\x7b\x7d"
  | obj ms =>
    "\x7b" ++ newLine (level + 1) ++ indentedMembers (level + 1) ms ++ newLine level ++ "\x7d"
  | j => text Style.ascii j

def indentedItems (level : Nat) : List Json → String
  | [] => ""
  | [j] => indentedText level j
  | j :: js => indentedText level j ++ "," ++ newLine level ++ indentedItems level js

def indentedMembers (level : Nat) : List (String × Json) → String
  | [] => ""
  | [(key, j)] => stringText true key ++ ": " ++ indentedText level j
  | (key, j) :: ms =>
    stringText true key ++ ": " ++ indentedText level j ++ "," ++ newLine level ++
      indentedMembers level ms

end

end Json
end AvroDocument
