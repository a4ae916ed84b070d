import AvroDocument.Conversion
import AvroDocument.Proofs.Bytes
import AvroDocument.Proofs.Counting
import AvroDocument.Proofs.Defaults
import Mathlib

/-!
# AvroDocument.Proofs.Sampling

A schema can be inferred from the first documents alone, and files behind them need not be opened.

* `Conversion.loadBehind_scanned`: loading stops at the limit with the documents up to it.
* `Conversion.loadDocuments_scanned`: files with a limit give the first of the documents that they give
  without one.
* `inferred_sampled`: a job that loads a sample infers the schema that a job infers which loads
  everything.
-/

namespace AvroDocument

open Inference (scanned inferSchema_scanned)

namespace Conversion

variable {folder : Folder}

/-- The documents in a file. -/
def documentsIn (folder : Folder) (name : String) : Except Failure (List Value) :=
  match folder.readText name with
  | .error e => .error e
  | .ok text => Documents.ofText text

/-- A file that holds a text whose lines end in a single character each. -/
theorem documentsIn_utf8 {name text : String} (h : folder.read name = .ok (Text.utf8 text))
    (hvalid : (Text.Utf8Fault.find? (Text.utf8 text)).isNone = true)
    (hlines : Folder.plainLines text.toList = text.toList) :
    documentsIn folder name = Documents.ofText text := by
  rw [Option.isNone_iff_eq_none] at hvalid
  simp only [documentsIn, Folder.readText, h, Text.readUtf8, hvalid, Text.ofUtf8?_utf8,
    Option.getD_some, hlines, String.ofList_toList]

theorem loadBehind_cons {name : String} {documents : List Value}
    (h : documentsIn folder name = .ok documents) (limit : Nat) (loaded : List Value)
    (names : List String) :
    loadBehind folder limit loaded (name :: names) =
      if limit ≠ 0 && limit ≤ (loaded ++ documents).length then
        .ok ((loaded ++ documents).take limit)
      else loadBehind folder limit (loaded ++ documents) names := by
  rw [documentsIn] at h
  rw [loadBehind]
  cases htext : folder.readText name with
  | error e =>
    rw [htext] at h
    cases h
  | ok text =>
    rw [htext] at h
    simp only [show Documents.ofText text = .ok documents from h]

/-- Files behind documents that stay below the limit. -/
theorem loadBehind_scanned {limit : Nat} {loaded : List Value} {names : List String}
    {documents : String → List Value}
    (h : ∀ name ∈ names, documentsIn folder name = .ok (documents name))
    (hroom : limit = 0 ∨ loaded.length < limit) :
    loadBehind folder limit loaded names =
      .ok (scanned limit (loaded ++ names.flatMap documents)) := by
  induction names generalizing loaded with
  | nil =>
    rw [loadBehind, List.flatMap_nil, List.append_nil, scanned]
    split
    · rfl
    · rename_i hlimit
      rw [List.take_of_length_le (Nat.le_of_lt (hroom.resolve_left hlimit))]
  | cons name names ih =>
    rw [loadBehind_cons (h name List.mem_cons_self), List.flatMap_cons, ← List.append_assoc]
    split
    · rename_i hfull
      rw [Bool.and_eq_true, decide_eq_true_eq, decide_eq_true_eq] at hfull
      rw [scanned, if_neg hfull.1, List.take_append_of_le_length hfull.2]
    · rename_i hroom'
      refine ih (fun other hother => h other (List.mem_cons_of_mem _ hother)) ?_
      by_cases hlimit : limit = 0
      · exact .inl hlimit
      · refine .inr (Nat.lt_of_not_le fun hle => hroom' ?_)
        simp only [ne_eq, hlimit, not_false_iff, hle, decide_true, Bool.and_self]

/-- Files with a limit give the first of the documents that they give without one. -/
theorem loadDocuments_scanned {names : List String}
    (h : ∀ name ∈ names, ∃ documents, documentsIn folder name = .ok documents) :
    ∃ documents, ∀ limit, loadDocuments folder limit names = .ok (scanned limit documents) := by
  choose! documents hdocuments using h
  refine ⟨names.flatMap documents, fun limit => ?_⟩
  exact loadBehind_scanned hdocuments (Nat.eq_zero_or_pos limit)

end Conversion

open Conversion (documentsIn documentsIn_utf8 loadDocuments loadDocuments_scanned stop)

/-! ## Inference -/

/-- Settings that ask for the same schema. -/
structure Settings.SameSchema (a b : Settings) : Prop where
  typeName : a.typeName = b.typeName
  namespaceName : a.namespaceName = b.namespaceName
  altNamesKey : a.altNamesKey = b.altNamesKey
  rowsToScan : a.rowsToScan = b.rowsToScan

theorem scanned_scanned (limit : Nat) (documents : List Value) :
    scanned limit (scanned limit documents) = scanned limit documents := by
  unfold scanned
  split
  · rfl
  · rw [List.take_take, Nat.min_self]

/-- The documents behind the limit do not count, whether they are there or not. -/
theorem inferSchema_sample {settings settings' : Settings} {options options' : Options}
    (h : Options.ofSettings settings = .ok options)
    (h' : Options.ofSettings settings' = .ok options') (hsame : settings.SameSchema settings')
    (documents : List Value) :
    inferSchema options (scanned options.rowsToScan documents) = inferSchema options' documents := by
  have given := ofSettings_given h
  have given' := ofSettings_given h'
  have hrows : options.rowsToScan = options'.rowsToScan := by
    have heq := given.rowsToScan.trans (hsame.rowsToScan.trans given'.rowsToScan.symm)
    exact_mod_cast heq
  rw [inferSchema_scanned options, inferSchema_scanned options', scanned_scanned, hrows]
  simp only [inferSchema, given.typeName, given.namespaceName, given.altNamesKey, given'.typeName,
    given'.namespaceName, given'.altNamesKey, hsame.typeName, hsame.namespaceName,
    hsame.altNamesKey]

/-- What an encoding job does when its schema was inferred, or failed to be. -/
def EncodingJob.runInferred (job : EncodingJob) (folder : Folder) (options : Options)
    (documents : List Value) : Except Failure Json → Converted Nat
  | .error e => stop folder e
  | .ok schema =>
    match if job.inferredSchemaFile = "" then .ok folder
      else Conversion.saveSchema folder job.inferredSchemaFile schema with
    | .error e => stop folder e
    | .ok saved => job.writeContainer saved options schema documents

theorem EncodingJob.run_inferred {job : EncodingJob} {folder : Folder} {options : Options}
    {documents : List Value} (hinputs : job.inputs ≠ [])
    (ho : Options.ofSettings job.settings = .ok options) (hschema : job.schemaFile = "")
    (hdocuments : loadDocuments folder 0 job.inputs = .ok documents) :
    job.run folder = job.runInferred folder options documents (inferSchema options documents) := by
  have hoptions : Conversion.optionsFor job.inputs job.settings = .ok options := by
    rw [Conversion.optionsFor, if_neg (by simpa using hinputs), ho]
  simp only [run, hoptions, hdocuments, EncodingJob.schema, hschema, Conversion.loadSchema?, if_true]
  cases inferSchema options documents with
  | error e => rfl
  | ok schema =>
    by_cases hsaved : job.inferredSchemaFile = ""
    · simp only [runInferred, hsaved, if_true]
    · simp only [runInferred, hsaved, if_false]
      cases Conversion.saveSchema folder job.inferredSchemaFile schema <;> rfl

/-- Files that all hold documents: with a limit, loading gives the first of the documents that it gives
without one, and a job that infers a schema from these infers what a job does that loads everything
and looks at as many. -/
theorem inferred_sampled {folder : Folder} {sampling : InferenceJob} {encoding : EncodingJob}
    {options options' : Options} (hinputs : sampling.inputs ≠ [])
    (hparse : ∀ name ∈ sampling.inputs, ∃ documents, documentsIn folder name = .ok documents)
    (hfiles : encoding.inputs = sampling.inputs) (hschema : encoding.schemaFile = "")
    (hsame : sampling.settings.SameSchema encoding.settings)
    (ho : Options.ofSettings sampling.settings = .ok options)
    (ho' : Options.ofSettings encoding.settings = .ok options') :
    ∃ documents,
      (∀ limit, loadDocuments folder limit sampling.inputs =
        .ok (if limit = 0 then documents else documents.take limit)) ∧
      sampling.schema folder = inferSchema options' documents ∧
      encoding.run folder =
        encoding.runInferred folder options' documents (sampling.schema folder) := by
  obtain ⟨documents, hdocuments⟩ := loadDocuments_scanned hparse
  have hinferred : sampling.schema folder = inferSchema options' documents := by
    have hoptions : Conversion.optionsFor sampling.inputs sampling.settings = .ok options := by
      rw [Conversion.optionsFor, if_neg (by simpa using hinputs), ho]
    rw [InferenceJob.schema, hoptions]
    simp only [hdocuments, inferSchema_sample ho ho' hsame]
  refine ⟨documents, hdocuments, hinferred, ?_⟩
  rw [hinferred]
  exact EncodingJob.run_inferred (hfiles ▸ hinputs) ho' hschema (hfiles ▸ hdocuments 0)

/-- Two documents on lines, none, and one that would make another schema. -/
def threeFiles : Folder :=
  ⟨[(["a.jsonl"], Text.utf8 "\x7b\x7d\n\x7b\"a\":1\x7d\n"), (["b.json"], Text.utf8 "[]"),
    (["c.json"], Text.utf8 "[\x7b\"a\":true\x7d]")]⟩

/-- A limit that is reached at the end of the first file; the other job looks at as many documents and
writes all of them. -/
theorem inferred_sampled_two :
    let names := ["a.jsonl", "b.json", "c.json"]
    let sampling : InferenceJob := ⟨names, "a.avsc", { rowsToScan := 2 }⟩
    let encoding : EncodingJob :=
      { inputs := names, containerFile := "a.avro", settings := { rowsToScan := 2, codec := "deflate" } }
    let documents := [Value.struct [], .struct [(.text "a", .int 1)], .struct [(.text "a", .bool true)]]
    (∀ name ∈ names, ∃ documents, documentsIn threeFiles name = .ok documents) ∧
      sampling.settings.SameSchema encoding.settings ∧
      ∃ options options', Options.ofSettings sampling.settings = .ok options ∧
        Options.ofSettings encoding.settings = .ok options' ∧
        loadDocuments threeFiles 0 names = .ok documents ∧
        loadDocuments threeFiles 2 names = .ok (documents.take 2) ∧
        sampling.schema threeFiles = inferSchema options' documents ∧
        encoding.run threeFiles =
          encoding.runInferred threeFiles options' documents (sampling.schema threeFiles) := by
  intro names sampling encoding documents
  have ha : documentsIn threeFiles "a.jsonl" = .ok (documents.take 2) :=
    (documentsIn_utf8 rfl (by decide +kernel) rfl).trans (by cbv)
  have hb : documentsIn threeFiles "b.json" = .ok [] :=
    (documentsIn_utf8 rfl (by decide +kernel) rfl).trans (by cbv)
  have hc : documentsIn threeFiles "c.json" = .ok (documents.drop 2) :=
    (documentsIn_utf8 rfl (by decide +kernel) rfl).trans (by cbv)
  have hparse : ∀ name ∈ names, ∃ documents, documentsIn threeFiles name = .ok documents := by
    simp [names, ha, hb, hc]
  have hsame : sampling.settings.SameSchema encoding.settings := ⟨rfl, rfl, rfl, rfl⟩
  obtain ⟨options, ho⟩ : ∃ options, Options.ofSettings sampling.settings = .ok options :=
    ⟨{ Options.standard "Document" "" sampling.settings.syncMarker with rowsToScan := 2 }, by cbv⟩
  obtain ⟨options', ho'⟩ : ∃ options, Options.ofSettings encoding.settings = .ok options :=
    ⟨{ Options.standard "Document" "" encoding.settings.syncMarker with
      rowsToScan := 2, codec := "deflate" }, by cbv⟩
  obtain ⟨loaded, hload, hinferred, hrun⟩ :=
    inferred_sampled (List.cons_ne_nil _ _) hparse rfl rfl hsame ho ho'
  have hall : loadDocuments threeFiles 0 names = .ok documents := by
    rw [loadDocuments, Conversion.loadBehind_cons ha, Conversion.loadBehind_cons hb,
      Conversion.loadBehind_cons hc]
    rfl
  obtain rfl : loaded = documents := Except.ok.inj ((hload 0).symm.trans hall)
  exact ⟨hparse, hsame, options, options', ho, ho', hall, hload 2, hinferred, hrun⟩

end AvroDocument
