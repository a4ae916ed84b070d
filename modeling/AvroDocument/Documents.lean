import AvroDocument.Failure
import AvroDocument.Text.Split
import AvroDocument.Value.Text

/-!
# AvroDocument.Documents

Documents as JSON text: one JSON text, whose items count as documents when it is an array, or one
JSON text on each line.

* `Documents.ofText`: the documents of a text.
* `Documents.number`: the value of a number with a fraction or an exponent.
* `Documents.line`: a document as one line of JSON.
-/

namespace AvroDocument
namespace Documents

/-- The value of a number literal that is no integer: exact, unless it has an exponent. -/
def number (literal : String) : Except Failure Value :=
  if literal.toList.any fun c => c = 'e' || c = 'E' then
    match Binary64.ofText? literal with
    | some x => .ok (.float x)
    | none => .error (.argument .notANumber)
  else
    match Decimal.ofText? literal with
    | some d => .ok (.decimal d)
    | none => .error .invalidOperation

/-- The documents of lines that hold one JSON text each; blank lines are passed over. -/
def ofLines (number : Nat) : List (List Char) → Except Failure (List Value)
  | [] => .ok []
  | line :: lines =>
    match Text.trimChars line with
    | [] => ofLines (number + 1) lines
    | cs =>
      match Json.readChars .exact cs with
      | .error (.malformed fault _) => .error (.argument (.invalidJson number fault))
      | .error .tooManyDigits => .error (.argument .tooManyDigits)
      | .ok tree => (ofLines (number + 1) lines).map (Value.ofJson tree :: ·)

/-- The documents of a text. -/
def ofText (content : String) : Except Failure (List Value) :=
  match Text.trimChars content.toList with
  | [] => .ok []
  | cs =>
    match Json.readChars .exact cs with
    | .ok (.arr trees) => .ok (Value.ofItems trees)
    | .ok tree => .ok [Value.ofJson tree]
    | .error .tooManyDigits => .error (.argument .tooManyDigits)
    | .error (.malformed _ _) => ofLines 1 (Text.split '\n' cs)

/-- A document as one line of JSON. -/
def line (document : Value) : Except Failure String :=
  match document.jsonText with
  | .ok s => .ok s
  | .error fault => .error (Failure.ofText fault)

end Documents
end AvroDocument
