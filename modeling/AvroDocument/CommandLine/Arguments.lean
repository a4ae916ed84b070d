import AvroDocument.CommandLine.Word

/-!
# AvroDocument.CommandLine.Arguments

What the words of a command line say: the values that belong to no switch, and the switches with the
values they are given.

* `Arguments.ofTexts`: the arguments in some words, when they are all that is needed and nothing more.
-/

namespace AvroDocument
namespace CommandLine

/-- Why words are no arguments: they ask for help, or they are wrong. -/
inductive Halt where
  | help
  | misuse
deriving DecidableEq

/-- The arguments of a command. -/
structure Arguments where
  operands : List String := []
  /-- The switches in the order given; a flag has an empty value. -/
  given : List (String × String) := []
  /-- Whether there are words that do not belong there. -/
  strays : Bool := false

/-- What the short switch for help means with what is stuck to it. -/
def haltOfShortHelp : List Char → Halt
  | '=' :: _ => .misuse
  | '-' :: _ => .misuse
  | 'h' :: stuck => haltOfShortHelp stuck
  | _ => .help

namespace Arguments

/-- The last value that a switch is given. -/
def value? (a : Arguments) (name : String) : Option String :=
  (a.given.reverse.find? (·.1 = name)).map (·.2)

def value (a : Arguments) (name default : String) : String := (a.value? name).getD default

def isSet (a : Arguments) (name : String) : Bool := (a.value? name).isSome

def give (a : Arguments) (switch : Switch) (value : String) : Except Halt Arguments :=
  if switch.form.accepts value then
    .ok { a with given := a.given ++ [(switch.name, value)] }
  else .error .misuse

/-- Takes up a switch with the words behind it; the words that are left come back. -/
def takeSwitch (a : Arguments) (switch : Switch) (given : Option String) (rest : List Word) :
    Except Halt (Arguments × { left : List Word // left.length ≤ rest.length }) :=
  match switch.form, given with
  | .help, none => .error .help
  | .help, some _ => .error .misuse
  | .flag, none => (a.give switch "").map (·, ⟨rest, Nat.le_refl _⟩)
  | .flag, some _ => .error .misuse
  | _, some value => (a.give switch value).map (·, ⟨rest, Nat.le_refl _⟩)
  | _, none =>
    match rest with
    | .value value :: left => (a.give switch value).map (·, ⟨left, Nat.le_succ _⟩)
    | _ => .error .misuse

/-- Takes up a run of values. Only the first run counts, and in it only the first value unless there
may be many. -/
def takeRun (a : Arguments) (many : Bool) (values : List String) : Arguments :=
  if !a.operands.isEmpty || values.isEmpty then { a with strays := true }
  else if many then { a with operands := values }
  else { a with operands := values.take 1, strays := a.strays || 1 < values.length }

/-- Takes up words one after the other. -/
def gather (many : Bool) (a : Arguments) (words : List Word) : Except Halt Arguments :=
  match words with
  | [] => .ok a
  | .unknown :: rest => gather many { a with strays := true } rest
  | .shortHelp stuck :: _ => .error (haltOfShortHelp stuck)
  | .switch switch given :: rest =>
    match a.takeSwitch switch given rest with
    | .error e => .error e
    | .ok (a, ⟨left, _⟩) => gather many a left
  | word :: rest =>
    let values := Word.values (word :: rest.takeWhile Word.isOperand)
    gather many (a.takeRun many values) (rest.dropWhile Word.isOperand)
termination_by words.length
decreasing_by
  · simp
  · simp only [List.length_cons]
    omega
  · simp only [List.length_cons]
    exact Nat.lt_succ_of_le (List.dropWhile_sublist _).length_le

/-- Whether nothing that is needed is lacking. -/
def isComplete (a : Arguments) (switches : List Switch) : Bool :=
  !a.operands.isEmpty && switches.all fun switch => !switch.required || a.isSet switch.name

/-- The arguments in some words. `strays` tells whether other words were already out of place. -/
def ofTexts (switches : List Switch) (many strays : Bool) (texts : List String) :
    Except Halt Arguments :=
  match Word.ofTexts? switches texts with
  | none => .error .misuse
  | some words =>
    match gather many {} words with
    | .error e => .error e
    | .ok a => if a.isComplete switches && !a.strays && !strays then .ok a else .error .misuse

end Arguments
end CommandLine
end AvroDocument
