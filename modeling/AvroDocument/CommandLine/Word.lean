import AvroDocument.Text.Numeral
import AvroDocument.Text.Split

/-!
# AvroDocument.CommandLine.Word

The words of a command line, sorted into switches and values.

A switch may be cut short as long as no other one starts alike, and its value may follow behind `=`.
Negative numbers and words with a space are values although they start with a dash, and so is
everything behind `--`.

* `Word.ofTexts?`: the words of a command line, unless a switch is ambiguous.
-/

namespace AvroDocument
namespace CommandLine

/-- What a switch takes. -/
inductive Form where
  | help
  | flag
  | text
  | number
  | oneOf (choices : List String)

/-- Whether a text is a value of a form. -/
def Form.accepts (s : String) : Form → Bool
  | number => (Text.readInt? s).isSome
  | oneOf choices => choices.contains s
  | _ => true

/-- A switch: its name, what it takes, and whether it has to be there. -/
structure Switch where
  name : String
  form : Form
  required : Bool := false

/-- A word: a value, the mark behind which there are only values, a switch with the value behind `=`,
the short switch for help with what is stuck to it, or a switch that does not exist. -/
inductive Word where
  | value (s : String)
  | mark
  | switch (switch : Switch) (given : Option String)
  | shortHelp (stuck : List Char)
  | unknown

namespace Word

/-- Whether what stands behind a dash makes a negative number. -/
def isNumber (cs : List Char) : Bool :=
  let body := if cs.getLast? = some '\n' then cs.dropLast else cs
  match body.dropWhile Text.isDigit with
  | [] => !body.isEmpty
  | '.' :: fraction => !fraction.isEmpty && fraction.all Text.isDigit
  | _ => false

/-- The name of a long switch, and the value behind `=`. -/
def splitGiven (cs : List Char) : String × Option String :=
  let name := cs.takeWhile (· ≠ '=')
  match cs.dropWhile (· ≠ '=') with
  | [] => (String.ofList name, none)
  | _ :: given => (String.ofList name, some (String.ofList given))

/-- A word that starts with a dash and names no switch. -/
def ofUnknown (s : String) (body : List Char) : Word :=
  if isNumber body || body.contains ' ' then .value s else .unknown

/-- A word that starts with two dashes. -/
def ofLong? (switches : List Switch) (s : String) : Option Word :=
  match switches.find? (·.name = s) with
  | some exact => some (.switch exact none)
  | none =>
    let (name, given) := splitGiven s.toList
    match switches.find? fun known => given.isSome && known.name = name with
    | some exact => some (.switch exact given)
    | none =>
      match switches.filter fun known => name.toList.isPrefixOf known.name.toList with
      | [] => some (ofUnknown s (s.toList.drop 1))
      | [cut] => some (.switch cut given)
      | _ => none

def ofText? (switches : List Switch) (s : String) : Option Word :=
  match s.toList with
  | '-' :: '-' :: _ => ofLong? switches s
  | '-' :: 'h' :: stuck => some (.shortHelp stuck)
  | ['-'] => some (.value s)
  | '-' :: body => some (ofUnknown s body)
  | _ => some (.value s)

/-- The words of a command line; `none` when a switch is ambiguous. -/
def ofTexts? (switches : List Switch) : List String → Option (List Word)
  | [] => some []
  | s :: rest =>
    if s = "--" then some (.mark :: rest.map .value)
    else
      match ofText? switches s, ofTexts? switches rest with
      | some word, some words => some (word :: words)
      | _, _ => none

/-- Whether a word belongs to a run of values. -/
def isOperand : Word → Bool
  | value _ => true
  | mark => true
  | _ => false

/-- The values in a run of words. -/
def values : List Word → List String
  | [] => []
  | value s :: words => s :: values words
  | _ :: words => values words

end Word
end CommandLine
end AvroDocument
