import AvroDocument.Decoding
import AvroDocument.Documents
import AvroDocument.Folder
import AvroDocument.Inference

/-!
# AvroDocument.Conversion

Jobs that turn files into files.

* `Conversion.loadDocuments`: the documents of several files.
* `InferenceJob.run`: documents to a schema.
* `EncodingJob.run`: documents to a container file, against a schema that is given or inferred.
* `DecodingJob.run`: a container file to JSON lines.

The parts of a job are done in a fixed order. What was written before a part fails remains.
-/

namespace AvroDocument

/-- What a job leaves behind: files, warnings, and its result. -/
structure Converted (α : Type) where
  folder : Folder
  warnings : List String
  result : Except Failure α

namespace Conversion

variable (folder : Folder)

/-- A job that fails before anything is written. -/
def stop {α : Type} (failure : Failure) : Converted α := ⟨folder, [], .error failure⟩

/-- The documents of files behind those that are loaded; zero stands for no limit. A file is not
opened when the limit is reached before it. -/
def loadBehind (limit : Nat) (loaded : List Value) : List String → Except Failure (List Value)
  | [] => .ok loaded
  | name :: names =>
    match folder.readText name with
    | .error e => .error e
    | .ok text =>
      match Documents.ofText text with
      | .error e => .error e
      | .ok documents =>
        let loaded := loaded ++ documents
        if limit ≠ 0 && limit ≤ loaded.length then .ok (loaded.take limit)
        else loadBehind limit loaded names

/-- The documents of files, up to a limit. -/
def loadDocuments (limit : Nat) (names : List String) : Except Failure (List Value) :=
  loadBehind folder limit [] names

/-- The schema in a file. -/
def loadSchema (name : String) : Except Failure Json :=
  match folder.readText name with
  | .error e => .error e
  | .ok text =>
    match Json.read .floating text with
    | .ok schema => .ok schema
    | .error (.malformed fault left) => .error (.malformedFile fault text left)
    | .error .tooManyDigits => .error (.argument .tooManyDigits)

/-- The schema in a file, when there is a name for one. -/
def loadSchema? (name : String) : Except Failure (Option Json) :=
  if name = "" then .ok none else (loadSchema folder name).map some

/-- The options of a job that has some input. -/
def optionsFor (inputs : List String) (settings : Settings) : Except Failure Options :=
  if inputs.isEmpty then .error (.argument .inputRequired) else Options.ofSettings settings

def saveSchema (name : String) (schema : Json) : Except Failure Folder :=
  folder.write name (Text.utf8 (schema.indentedText 0))

end Conversion

open Conversion

/-- Infers a schema from documents. -/
structure InferenceJob where
  inputs : List String
  schemaFile : String
  settings : Settings := {}

namespace InferenceJob

/-- The schema that the documents of a job fit. -/
def schema (job : InferenceJob) (folder : Folder) : Except Failure Json :=
  match optionsFor job.inputs job.settings with
  | .error e => .error e
  | .ok options =>
    match loadDocuments folder options.rowsToScan job.inputs with
    | .error e => .error e
    | .ok documents => inferSchema options documents

/-- The schema, which is also saved. -/
def run (job : InferenceJob) (folder : Folder) : Converted Json :=
  match job.schema folder with
  | .error e => stop folder e
  | .ok schema =>
    match saveSchema folder job.schemaFile schema with
    | .error e => stop folder e
    | .ok saved => ⟨saved, [], .ok schema⟩

end InferenceJob

/-- Writes documents to a container file. The schema is inferred when the name of its file is empty;
what was inferred is saved unless the name for that is empty. -/
structure EncodingJob where
  inputs : List String
  containerFile : String
  schemaFile : String := ""
  inferredSchemaFile : String := ""
  settings : Settings := {}

namespace EncodingJob

/-- The schema of a job, and the files when it is saved. -/
def schema (job : EncodingJob) (folder : Folder) (options : Options) (documents : List Value) :
    Except Failure (Json × Folder) :=
  match loadSchema? folder job.schemaFile with
  | .error e => .error e
  | .ok (some schema) => .ok (schema, folder)
  | .ok none =>
    match inferSchema options documents with
    | .error e => .error e
    | .ok schema =>
      if job.inferredSchemaFile = "" then .ok (schema, folder)
      else (saveSchema folder job.inferredSchemaFile schema).map (schema, ·)

/-- Writes the container file. It is there, and empty, before the schema is checked. -/
def writeContainer (job : EncodingJob) (folder : Folder) (options : Options) (schema : Json)
    (documents : List Value) : Converted Nat :=
  match folder.write job.containerFile [] with
  | .error e => stop folder e
  | .ok opened =>
    match Encoder.ofSchema options schema with
    | .error e => stop opened e
    | .ok encoder =>
      let run := encoder.encode documents
      match opened.write job.containerFile run.bytes with
      | .error e => stop opened e
      | .ok written => ⟨written, run.warnings, run.outcome⟩

/-- The number of records that are written. -/
def run (job : EncodingJob) (folder : Folder) : Converted Nat :=
  match optionsFor job.inputs job.settings with
  | .error e => stop folder e
  | .ok options =>
    match loadDocuments folder 0 job.inputs with
    | .error e => stop folder e
    | .ok documents =>
      match job.schema folder options documents with
      | .error e => stop folder e
      | .ok (schema, saved) => job.writeContainer saved options schema documents

end EncodingJob

/-- Reads a container file into a file with one document a line. The schema that the container brings
counts when the name of a schema file is empty. -/
structure DecodingJob where
  containerFile : String
  documentsFile : String
  schemaFile : String := ""
  settings : Settings := {}

namespace DecodingJob

/-- The lines of the documents in a container. -/
def lines (job : DecodingJob) (folder : Folder) (options : Options) : Feed String :=
  match loadSchema? folder job.schemaFile with
  | .error e => .fail e
  | .ok schema =>
    match Decoder.ofSchema options schema with
    | .error e => .fail e
    | .ok decoder =>
      match folder.read job.containerFile with
      | .error e => .fail e
      | .ok bytes => (decoder.decode true bytes).mapItems Documents.line

/-- Writes the lines as far as they are read. -/
def writeLines (job : DecodingJob) (folder : Folder) (feed : Feed String) : Converted Nat :=
  match folder.write job.documentsFile (Text.utf8 (String.join (feed.items.map (· ++ "\n")))) with
  | .error e => stop folder e
  | .ok written =>
    match feed.failure with
    | some e => ⟨written, feed.warnings, .error e⟩
    | none => ⟨written, feed.warnings, .ok feed.items.length⟩

/-- The number of documents that are read. Their file is there, and empty, before the container is
opened. -/
def run (job : DecodingJob) (folder : Folder) : Converted Nat :=
  match Options.ofSettings job.settings with
  | .error e => stop folder e
  | .ok options =>
    match folder.write job.documentsFile [] with
    | .error e => stop folder e
    | .ok opened => job.writeLines opened (job.lines opened options)

end DecodingJob
end AvroDocument
