import AvroDocument.CommandLine.Arguments
import AvroDocument.Conversion

/-!
# AvroDocument.CommandLine

The command line: a command that turns files into files.

* `Command`: the commands, and the switches of each.
* `Request.ofTexts`: what a command line asks for.
* `Request.run`: the text that is printed, the exit code, and the files afterwards.
-/

namespace AvroDocument
namespace CommandLine

/-- The commands. -/
inductive Command where
  | infer
  | encode
  | decode
deriving DecidableEq

namespace Command

def all : List Command := [infer, encode, decode]

def name : Command → String
  | infer => "infer"
  | encode => "encode"
  | decode => "decode"

/-- What a command does. -/
def purpose : Command → String
  | infer => "Infer an Avro schema from JSON documents"
  | encode => "Convert JSON documents to an Avro container file"
  | decode => "Convert an Avro container file to JSON Lines"

def ofName? (s : String) : Option Command := all.find? (·.name = s)

def policies : List String := [BadRecords.fail, BadRecords.warn, BadRecords.skip].map (·.name)

/-- The switches of a command. -/
def switches : Command → List Switch
  | infer => [
      ⟨"--help", .help, false⟩, ⟨"--out", .text, true⟩, ⟨"--type-name", .text, false⟩,
      ⟨"--namespace", .text, false⟩, ⟨"--rows-to-scan", .number, false⟩]
  | encode => [
      ⟨"--help", .help, false⟩, ⟨"--out", .text, true⟩, ⟨"--schema", .text, false⟩,
      ⟨"--schema-out", .text, false⟩, ⟨"--type-name", .text, false⟩,
      ⟨"--namespace", .text, false⟩, ⟨"--rows-to-scan", .number, false⟩,
      ⟨"--codec", .oneOf Container.codecs, false⟩, ⟨"--on-bad-records", .oneOf policies, false⟩,
      ⟨"--strict-schema", .flag, false⟩, ⟨"--parse-strings", .flag, false⟩,
      ⟨"--time-zone-id", .text, false⟩]
  | decode => [
      ⟨"--help", .help, false⟩, ⟨"--out", .text, true⟩, ⟨"--schema", .text, false⟩,
      ⟨"--strict-unknown-fields", .flag, false⟩, ⟨"--on-bad-records", .oneOf policies, false⟩]

/-- Whether a command takes several input files. -/
def takesMany : Command → Bool
  | decode => false
  | _ => true

end Command

/-- The switches in front of a command. -/
def generalSwitches : List Switch :=
  [⟨"--help", .help, false⟩, ⟨"--version", .flag, false⟩, ⟨"--verbose", .flag, false⟩]

/-- What a command line asks for. -/
inductive Request where
  | help
  | version
  | infer (job : InferenceJob)
  | encode (job : EncodingJob)
  | decode (job : DecodingJob)

/-- The options of a job; what is not given has its default. -/
def settingsOf (a : Arguments) : Settings :=
  let d : Settings := {}
  { d with
    typeName := a.value "--type-name" d.typeName
    namespaceName := a.value "--namespace" d.namespaceName
    rowsToScan := ((a.value? "--rows-to-scan").bind Text.readInt?).getD d.rowsToScan
    strictSchema := a.isSet "--strict-schema"
    strictUnknownFields := a.isSet "--strict-unknown-fields"
    onBadRecords := a.value "--on-bad-records" d.onBadRecords
    parseStrings := a.isSet "--parse-strings"
    timeZoneId := a.value "--time-zone-id" d.timeZoneId
    codec := a.value "--codec" d.codec }

namespace Request

/-- The job of a command. -/
def ofCommand (a : Arguments) : Command → Request
  | .infer => .infer ⟨a.operands, a.value "--out" "", settingsOf a⟩
  | .encode =>
    .encode ⟨a.operands, a.value "--out" "", a.value "--schema" "", a.value "--schema-out" "",
      settingsOf a⟩
  | .decode =>
    .decode ⟨a.operands.headD "", a.value "--out" "", a.value "--schema" "", settingsOf a⟩

/-- Goes over the words in front of the command; `texts` are those words and all behind them as they
were typed. The version is told instead of what the command would do. -/
def ofWords (versionAsked strays : Bool) : List Word → List String → Except Halt Request
  | .unknown :: words, _ :: texts => ofWords versionAsked true words texts
  | .shortHelp stuck :: _, _ => .error (haltOfShortHelp stuck)
  | .switch switch given :: words, _ :: texts =>
    match switch.form, given with
    | _, some _ => .error .misuse
    | .help, none => .error .help
    | _, none => ofWords (versionAsked || switch.name = "--version") strays words texts
  | .value name :: _, _ :: texts =>
    match Command.ofName? name with
    | none => .error .misuse
    | some command =>
      match Arguments.ofTexts command.switches command.takesMany strays texts with
      | .error e => .error e
      | .ok a => .ok (if versionAsked then .version else ofCommand a command)
  | .mark :: _, _ => .error .misuse
  | _, _ => if strays then .error .misuse else .ok (if versionAsked then .version else .help)

/-- What a command line asks for; `none` when it is wrong. -/
def ofTexts? (texts : List String) : Option Request :=
  match Word.ofTexts? generalSwitches texts with
  | none => none
  | some words =>
    match ofWords false false words texts with
    | .ok request => some request
    | .error .help => some .help
    | .error .misuse => none

/-- The same request with the bytes that stand between the blocks of a container. -/
def withSyncMarker (marker : List UInt8) : Request → Request
  | .encode job => .encode { job with settings := { job.settings with syncMarker := marker } }
  | request => request

/-- The names of the files that a request may read. -/
def reads : Request → List String
  | .infer job => job.inputs
  | .encode job => job.schemaFile :: job.inputs
  | .decode job => [job.schemaFile, job.containerFile]
  | _ => []

end Request

/-- What a request comes to: the exit code, the text that is printed, the warnings, and the files. -/
structure Report where
  exitCode : Nat
  output : String
  warnings : List String
  folder : Folder

/-- The text of a list of names. -/
def namesText (names : List String) : String :=
  "[" ++ ", ".intercalate (names.map Text.quoted) ++ "]"

/-- The line that is printed before a command is carried out. -/
def announcement (command : Command) (input output : String) : String :=
  "Executing " ++ command.purpose ++ " with input " ++ input ++ " and output " ++ output ++ "\n"

/-- What a job comes to. -/
def reportOf {α : Type} (announced : String) (converted : Converted α) : Report :=
  match converted.result with
  | .ok _ => ⟨0, announced, converted.warnings, converted.folder⟩
  | .error e =>
    ⟨1, announced ++ "Error:  " ++ e.message ++ "\n", converted.warnings, converted.folder⟩

def versionText : String := "avroshape 0.1.0\n"

/-- A line of help on a command. -/
def Command.usage (command : Command) : String :=
  "  " ++ command.name ++ " INPUT --out FILE    " ++ command.purpose ++ "\n"

def usage : String :=
  "usage: avroshape [--help] [--version] [--verbose] COMMAND\n\n" ++
    String.join (Command.all.map Command.usage)

/-- Carries out a request. -/
def Request.run (folder : Folder) : Request → Report
  | .help => ⟨0, usage, [], folder⟩
  | .version => ⟨0, versionText, [], folder⟩
  | .infer job =>
    reportOf (announcement .infer (namesText job.inputs) job.schemaFile) (job.run folder)
  | .encode job =>
    reportOf (announcement .encode (namesText job.inputs) job.containerFile) (job.run folder)
  | .decode job =>
    reportOf (announcement .decode job.containerFile job.documentsFile) (job.run folder)

end CommandLine
end AvroDocument
