import AvroDocument.Json

/-!
# AvroDocument.Json.Reader

Reading JSON text.

Beside the standard grammar the words `NaN`, `Infinity` and `-Infinity` are numbers. Of members with
one key the last value counts, in the place of the first. What a number with a fraction or an
exponent becomes is a parameter: in documents an exact decimal unless there is an exponent, in
schemas a floating point number.

* `Json.read`: the tree of a text that holds one JSON value and nothing else.
* `Json.Fault.text`, `Json.ReadError.message`: what is wrong with other texts, and where.
-/

namespace AvroDocument
namespace Json

/-- What is wrong with a JSON text. -/
inductive Fault where
  | expectingValue
  | expectingName
  | expectingColon
  | expectingComma
  | controlCharacter
  | invalidEscape
  | invalidUnicodeEscape
  | unterminatedString
  | extraData
  | byteOrderMark
deriving DecidableEq

def Fault.text : Fault → String
  | .expectingValue => "Expecting value"
  | .expectingName => "Expecting property name enclosed in double quotes"
  | .expectingColon => "Expecting ':' delimiter"
  | .expectingComma => "Expecting ',' delimiter"
  | .controlCharacter => "Invalid control character at"
  | .invalidEscape => "Invalid \\escape"
  | .invalidUnicodeEscape => "Invalid \\uXXXX escape"
  | .unterminatedString => "Unterminated string starting at"
  | .extraData => "Extra data"
  | .byteOrderMark => "Unexpected UTF-8 BOM (decode using utf-8-sig)"

/-- Why a text is not read: a fault, with the number of characters from its place to the end, or an
integer with more digits than are converted. -/
inductive ReadError where
  | malformed (fault : Fault) (left : Nat)
  | tooManyDigits

abbrev ReadResult (α : Type) := Except ReadError (α × List Char)

/-- What numbers with a fraction or an exponent become. -/
inductive NumberStyle where
  | exact
  | floating
deriving DecidableEq

def fail {α : Type} (fault : Fault) (place : List Char) : Except ReadError α :=
  .error (.malformed fault place.length)

def isSpace (c : Char) : Bool := c = ' ' || c = '\t' || c = '\n' || c = '\r'

def skipSpace (cs : List Char) : List Char := cs.dropWhile isSpace

def hexValue? (c : Char) : Option Nat :=
  if '0' ≤ c && c ≤ '9' then some (c.toNat - 48)
  else if 'a' ≤ c && c ≤ 'f' then some (c.toNat - 87)
  else if 'A' ≤ c && c ≤ 'F' then some (c.toNat - 55)
  else none

/-- The number that four hexadecimal digits spell. -/
def hexUnit? (a b c d : Char) : Option Nat :=
  match hexValue? a, hexValue? b, hexValue? c, hexValue? d with
  | some a, some b, some c, some d => some (((a * 16 + b) * 16 + c) * 16 + d)
  | _, _, _, _ => none

def isHighUnit (n : Nat) : Bool := 0xD800 ≤ n && n ≤ 0xDBFF

def isLowUnit (n : Nat) : Bool := 0xDC00 ≤ n && n ≤ 0xDFFF

/-- The character of a 16-bit unit. A unit that is half of a pair has none of its own: texts with such
an escape are left out, and stand here for those with a replacement character. -/
def unitChar (n : Nat) : Char := if isHighUnit n || isLowUnit n then '\uFFFD' else Char.ofNat n

def pairChar (high low : Nat) : Char :=
  Char.ofNat (0x10000 + (high - 0xD800) * 0x400 + (low - 0xDC00))

def simpleEscape? : Char → Option Char
  | '"' => some '"'
  | '\\' => some '\\'
  | '/' => some '/'
  | 'b' => some '\x08'
  | 'f' => some '\x0c'
  | 'n' => some '\n'
  | 'r' => some '\r'
  | 't' => some '\t'
  | _ => none

/-- The unit of a second escape that directly follows a first one, if there is such an escape; its
digits may be wrong. -/
def secondUnit? : List Char → Option (Option Nat)
  | '\\' :: 'u' :: a :: b :: c :: d :: _ :: _ => some (hexUnit? a b c d)
  | _ => none

/-- Reads a string behind its opening quote; `start` is the number of characters from that quote to
the end of the text, and `taken` holds what was read so far in reverse. -/
def readString (start : Nat) (taken : List Char) : List Char → ReadResult String
  | [] => .error (.malformed .unterminatedString start)
  | '"' :: rest => .ok (String.ofList taken.reverse, rest)
  | ['\\'] => .error (.malformed .unterminatedString start)
  | '\\' :: 'u' :: a :: b :: c :: d :: next :: rest =>
    match hexUnit? a b c d with
    | none => fail .invalidUnicodeEscape ('u' :: a :: b :: c :: d :: next :: rest)
    | some unit =>
      if isHighUnit unit then
        match secondUnit? (next :: rest) with
        | none => readString start (unitChar unit :: taken) (next :: rest)
        | some none => fail .invalidUnicodeEscape rest
        | some (some low) =>
          if isLowUnit low then readString start (pairChar unit low :: taken) (rest.drop 5)
          else readString start (unitChar unit :: taken) (next :: rest)
      else readString start (unitChar unit :: taken) (next :: rest)
  | '\\' :: 'u' :: rest => fail .invalidUnicodeEscape ('u' :: rest)
  | '\\' :: c :: rest =>
    match simpleEscape? c with
    | some e => readString start (e :: taken) rest
    | none => fail .invalidEscape ('\\' :: c :: rest)
  | c :: rest =>
    if c.toNat < 32 then fail .controlCharacter (c :: rest)
    else readString start (c :: taken) rest
termination_by cs => cs.length
decreasing_by all_goals (simp only [List.length_cons, List.length_drop]; omega)

/-- The digits before the point: a zero, or digits that do not start with one. -/
def takeWhole : List Char → List Char × List Char
  | '0' :: rest => (['0'], rest)
  | cs => (cs.takeWhile Char.isDigit, cs.dropWhile Char.isDigit)

/-- A point and digits behind it, when they are there. -/
def takeFraction : List Char → List Char × List Char
  | '.' :: rest =>
    let ds := rest.takeWhile Char.isDigit
    if ds.isEmpty then ([], '.' :: rest) else ('.' :: ds, rest.dropWhile Char.isDigit)
  | cs => ([], cs)

/-- An exponent with at least one digit, when it is there. -/
def takeExponent : List Char → List Char × List Char
  | e :: rest =>
    if e = 'e' || e = 'E' then
      let (sign, body) :=
        match rest with
        | '+' :: body => (['+'], body)
        | '-' :: body => (['-'], body)
        | body => ([], body)
      let ds := body.takeWhile Char.isDigit
      if ds.isEmpty then ([], e :: rest) else (e :: sign ++ ds, body.dropWhile Char.isDigit)
    else ([], e :: rest)
  | [] => ([], [])

/-- The number that a literal with a fraction or an exponent stands for. -/
def fractionalNumber (style : NumberStyle) (literal : List Char) : Json :=
  match Text.Numeral.read? literal with
  | none => .null
  | some n =>
    if style = .exact && !literal.any (fun c => c = 'e' || c = 'E') then
      .decimal (.finite n.negative n.coefficient n.exponent)
    else .float (Binary64.ofNumeral n)

/-- Reads a number; `place` is where it starts. -/
def readNumber (style : NumberStyle) (place : List Char) : ReadResult Json :=
  let (sign, body) :=
    match place with
    | '-' :: body => (['-'], body)
    | body => ([], body)
  let (whole, afterWhole) := takeWhole body
  if whole.isEmpty then fail .expectingValue place
  else
    let (fraction, afterFraction) := takeFraction afterWhole
    let (exponent, rest) := takeExponent afterFraction
    if fraction.isEmpty && exponent.isEmpty then
      if digitLimit < whole.length then .error .tooManyDigits
      else
        let n : Int := Text.digitsValue whole
        .ok (.int (if sign.isEmpty then n else -n), rest)
    else .ok (fractionalNumber style (sign ++ whole ++ fraction ++ exponent), rest)

mutual

/-- Reads a value. Each step of the reader takes one unit of fuel; twice the length of the text and
two more are always enough. -/
def readValue (style : NumberStyle) : Nat → List Char → ReadResult Json
  | 0, cs => fail .expectingValue cs
  | fuel + 1, cs =>
    match cs with
    | '"' :: rest =>
      match readString cs.length [] rest with
      | .error e => .error e
      | .ok (s, rest) => .ok (.str s, rest)
    | '\x7b' :: rest =>
      match skipSpace rest with
      | '\x7d' :: rest => .ok (.obj [], rest)
      | rest => readMembers style fuel [] rest
    | '[' :: rest =>
      match skipSpace rest with
      | ']' :: rest => .ok (.arr [], rest)
      | rest => readItems style fuel [] rest
    | 'n' :: 'u' :: 'l' :: 'l' :: rest => .ok (.null, rest)
    | 't' :: 'r' :: 'u' :: 'e' :: rest => .ok (.bool true, rest)
    | 'f' :: 'a' :: 'l' :: 's' :: 'e' :: rest => .ok (.bool false, rest)
    | 'N' :: 'a' :: 'N' :: rest => .ok (.float (Binary64.nan false), rest)
    | 'I' :: 'n' :: 'f' :: 'i' :: 'n' :: 'i' :: 't' :: 'y' :: rest =>
      .ok (.float (Binary64.infinity false), rest)
    | '-' :: 'I' :: 'n' :: 'f' :: 'i' :: 'n' :: 'i' :: 't' :: 'y' :: rest =>
      .ok (.float (Binary64.infinity true), rest)
    | cs => readNumber style cs

/-- Reads the items of an array from the next item on; `taken` holds the earlier ones in reverse. -/
def readItems (style : NumberStyle) : Nat → List Json → List Char → ReadResult Json
  | 0, _, cs => fail .expectingValue cs
  | fuel + 1, taken, cs =>
    match readValue style fuel cs with
    | .error e => .error e
    | .ok (item, rest) =>
      match skipSpace rest with
      | ']' :: rest => .ok (.arr (item :: taken).reverse, rest)
      | ',' :: rest => readItems style fuel (item :: taken) (skipSpace rest)
      | rest => fail .expectingComma rest

/-- Reads the members of an object from the next key on. -/
def readMembers (style : NumberStyle) :
    Nat → List (String × Json) → List Char → ReadResult Json
  | 0, _, cs => fail .expectingName cs
  | fuel + 1, taken, cs =>
    match cs with
    | '"' :: rest =>
      match readString cs.length [] rest with
      | .error e => .error e
      | .ok (key, rest) =>
        match skipSpace rest with
        | ':' :: rest =>
          match readValue style fuel (skipSpace rest) with
          | .error e => .error e
          | .ok (value, rest) =>
            let taken := assign key value taken
            match skipSpace rest with
            | '\x7d' :: rest => .ok (.obj taken, rest)
            | ',' :: rest => readMembers style fuel taken (skipSpace rest)
            | rest => fail .expectingComma rest
        | rest => fail .expectingColon rest
    | cs => fail .expectingName cs

end

/-- Reads a text that holds one JSON value. -/
def readChars (style : NumberStyle) (cs : List Char) : Except ReadError Json :=
  if cs.head? = some '\uFEFF' then fail .byteOrderMark cs
  else
    match readValue style (2 * cs.length + 2) (skipSpace cs) with
    | .error e => .error e
    | .ok (value, rest) =>
      match skipSpace rest with
      | [] => .ok value
      | rest => fail .extraData rest

def read (style : NumberStyle) (s : String) : Except ReadError Json := readChars style s.toList

/-- A fault with its place in the text: line, column and number of characters before it. -/
def placedMessage (fault : Fault) (s : String) (left : Nat) : String :=
  let before := s.toList.take (s.length - left)
  let line := before.count '\n' + 1
  let column := (before.reverse.takeWhile (· ≠ '\n')).length + 1
  fault.text ++ ": line " ++ toString line ++ " column " ++ toString column ++ " (char " ++
    toString before.length ++ ")"

end Json
end AvroDocument
