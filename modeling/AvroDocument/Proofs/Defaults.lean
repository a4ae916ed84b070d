import AvroDocument.Options

/-!
# AvroDocument.Proofs.Defaults

The options of a job.

* `Options.standard`: those of a job that sets names and a sync marker only; all others have their
  defaults.
* `ofSettings_standard`: they are in order.
* `Options.Given`, `ofSettings_given`: options that are in order say what their settings say.
-/

namespace AvroDocument

/-- The options of a job that sets no others than these. -/
def Options.standard (typeName namespaceName : String) (syncMarker : List UInt8) : Options where
  typeName := typeName
  namespaceName := namespaceName
  altNamesKey := "json"
  rowsToScan := 0
  strictSchema := false
  strictUnknownFields := false
  onBadRecords := .fail
  parseStrings := false
  trueValues := ["t", "true", "enabled", "1", "on", "yes"]
  falseValues := ["f", "false", "disabled", "0", "off", "no", ""]
  nullValues := ["", "#N/A", "#N/A N/A", "#NA", "-1.#IND", "-1.#QNAN", "-NaN", "1.#IND",
    "1.#QNAN", "NA", "n/a", "nan", "null"]
  decimalSeparator := '.'
  datePattern := none
  timePattern := none
  timestampPattern := none
  zone := .utc
  codec := "null"
  syncInterval := 16000
  syncMarker := syncMarker

theorem ofName_error : BadRecords.ofName? "ERROR" = some .fail := by decide

theorem ofSettings_standard (typeName namespaceName : String) {syncMarker : List UInt8}
    (h : syncMarker.length = 16) :
    Options.ofSettings { typeName, namespaceName, syncMarker } =
      .ok (Options.standard typeName namespaceName syncMarker) := by
  unfold Options.ofSettings
  simp only [ofName_error]
  rw [if_neg (by decide)]
  simp only [show ".".toList = ['.'] from rfl, h]
  rfl

/-- What options say that were made of some settings. -/
structure Options.Given (settings : Settings) (options : Options) : Prop where
  typeName : options.typeName = settings.typeName
  namespaceName : options.namespaceName = settings.namespaceName
  altNamesKey : options.altNamesKey = settings.altNamesKey
  rowsToScan : (options.rowsToScan : Int) = settings.rowsToScan
  strictUnknownFields : options.strictUnknownFields = settings.strictUnknownFields
  zone : Calendar.Zone.ofId settings.regions settings.timeZoneId = .ok options.zone
  codec : options.codec = settings.codec
  syncMarker : options.syncMarker = settings.syncMarker
  markerLength : settings.syncMarker.length = 16

theorem ofSettings_given {settings : Settings} {options : Options}
    (h : Options.ofSettings settings = .ok options) : Options.Given settings options := by
  unfold Options.ofSettings at h
  split at h
  · cases h
  rename_i hrows
  split at h
  · cases h
  split at h
  rotate_left
  · cases h
  split at h
  · cases h
  rename_i hmarker
  split at h
  · cases h
  · cases h
  · rename_i zone hzone
    cases h
    exact {
      typeName := rfl
      namespaceName := rfl
      altNamesKey := rfl
      rowsToScan := Int.toNat_of_nonneg (Int.not_lt.mp hrows)
      strictUnknownFields := rfl
      zone := hzone
      codec := rfl
      syncMarker := rfl
      markerLength := Decidable.not_not.mp hmarker }

/-- Options that are in order name the compression and the sync marker that were given. -/
theorem ofSettings_marker {settings : Settings} {options : Options}
    (h : Options.ofSettings settings = .ok options) :
    options.codec = settings.codec ∧ options.syncMarker = settings.syncMarker ∧
      settings.syncMarker.length = 16 :=
  have given := ofSettings_given h
  ⟨given.codec, given.syncMarker, given.markerLength⟩

end AvroDocument
