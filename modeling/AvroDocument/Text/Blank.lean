/-!
# AvroDocument.Text.Blank

White space: the characters that are removed from both ends of a text.

* `trim`, `trimChars`: a text without them.
* `trimSpace`: around numbers the information separators are not removed.
-/

namespace AvroDocument
namespace Text

/-- The white space characters of Unicode. -/
def isSpace (c : Char) : Bool :=
  let n := c.toNat
  (9 ≤ n && n ≤ 13) || n == 32 || n == 133 || n == 160 || n == 5760 ||
    (8192 ≤ n && n ≤ 8202) || n == 8232 || n == 8233 || n == 8239 || n == 8287 || n == 12288

/-- White space, and the four information separators. -/
def isBlank (c : Char) : Bool := isSpace c || (28 ≤ c.toNat && c.toNat ≤ 31)

/-- The characters without those of a class at both ends. -/
def trimBy (p : Char → Bool) (cs : List Char) : List Char :=
  ((cs.dropWhile p).reverse.dropWhile p).reverse

def trimChars (cs : List Char) : List Char := trimBy isBlank cs

def trimSpace (cs : List Char) : List Char := trimBy isSpace cs

/-- The text without the blanks at both ends. -/
def trim (s : String) : String := String.ofList (trimChars s.toList)

end Text
end AvroDocument
