import AvroDocument.Proofs.Limits
import AvroDocument.Proofs.ScalarReading
import AvroDocument.Proofs.Texts

/-!
# AvroDocument.Proofs.Obstacles

Values that a conversion breaks on, instead of refusing them.

* `Timestamp.toZone?_eq_none`, `toText_error_iff`: local times outside the calendar, and values that
  have no text.
* `Coercion.Misread`, `Coercion.Obstacle`: the texts that reading breaks on at a node, the values that
  converting breaks on, and how.
* `coerce_error`, `Coercion.Breaks.coerce`: the table of scalars refuses a value or breaks on it, and it
  breaks wherever such a value stands.
-/

namespace AvroDocument

/-! ## Local times -/

/-- Whether the calendar holds a number of microseconds. -/
def Calendar.Holds (n : Int) : Prop := 0 ≤ n ∧ n < microSpan

namespace Timestamp

open Calendar (Holds Zone)

theorem ofWall?_eq_none {n : Int} {offset : Option Offset} :
    ofWall? n offset = none ↔ ¬ Holds n := by
  unfold ofWall? Holds
  split
  · rename_i h
    simp only [reduceCtorEq, false_iff, not_not]
    omega
  · rename_i h
    simp only [true_iff]
    omega

/-- A timestamp has no local time in a zone when the calendar does not hold the instant, or not the
local time. -/
theorem toZone?_eq_none {t : Timestamp} {offset : Offset} {zone : Zone} :
    t.toZone? offset zone = none ↔
      ¬ Holds (t.instantAt offset) ∨
      ¬ Holds (t.instantAt offset +
        (zone.offsetAtInstant (t.instantAt offset).toNat).micros) := by
  unfold toZone?
  simp only
  by_cases hinstant : Holds (t.instantAt offset)
  · obtain ⟨universal, huniversal⟩ := Option.ne_none_iff_exists'.mp
      (mt (@ofWall?_eq_none _ (some Offset.utc)).mp (not_not.mpr hinstant))
    have hwall : universal.wall = (t.instantAt offset).toNat := by
      unfold ofWall? at huniversal
      split at huniversal <;> cases huniversal
      rfl
    simp only [huniversal, hwall, ofWall?_eq_none, hinstant, not_true, false_or]
  · rw [ofWall?_eq_none.mpr hinstant]
    simp only [hinstant, not_false_iff, true_or]

end Timestamp

/-! ## Values without a text -/

/-- Whether an object is no interchange value, and no identifier either. -/
def Value.isForeign : Value → Bool
  | .set _ => true
  | .missing => true
  | _ => false

/-- The value that a key is. -/
def Key.value : Key → Value
  | .text s => .text s
  | .null => .null
  | .bool b => .bool b
  | .int n => .int n
  | .float x => .float x

namespace Value

mutual

/-- The values that the text of a value spells, in this order: the value itself, then its items or the
entries of a struct, each key before its value. -/
def spelled : Value → List Value
  | list vs => list vs :: spelledItems vs
  | tuple vs => tuple vs :: spelledItems vs
  | struct entries => struct entries :: spelledEntries entries
  | v => [v]

def spelledItems : List Value → List Value
  | [] => []
  | v :: vs => spelled v ++ spelledItems vs

def spelledEntries : List (Key × Value) → List Value
  | [] => []
  | (k, v) :: entries => k.value :: (spelled v ++ spelledEntries entries)

end

/-- Why a value has no text, whatever is inside it. -/
def ownFault? : Value → Option TextFault
  | int n => if Json.digitLimit < Binary64.digitCount n.natAbs then some .tooManyDigits else none
  | set vs => some (.unsupported (typeName (set vs)))
  | missing => some (.unsupported (typeName missing))
  | _ => none

/-- Why a value other than an identifier has no text: what is wrong with the first value of those that
it spells. -/
def textFault? (v : Value) : Option TextFault := v.spelled.findSome? ownFault?

end Value

/-- The failure of an outcome. -/
def failure? {ε α : Type} : Except ε α → Option ε
  | .error e => some e
  | .ok _ => none

theorem failure?_eq_some {ε α : Type} {outcome : Except ε α} {e : ε} :
    failure? outcome = some e ↔ outcome = .error e := by
  cases outcome <;> simp [failure?]

theorem failure?_map {ε α β : Type} (outcome : Except ε α) (f : α → β) :
    failure? (outcome.map f) = failure? outcome := by
  cases outcome <;> rfl

theorem failure?_integerText (n : Int) : failure? (integerText n) = (Value.int n).ownFault? := by
  rw [integerText, Value.ownFault?]
  split <;> rfl

theorem failure?_jsonName (k : Key) : failure? k.jsonName = k.value.ownFault? := by
  cases k with
  | int n => exact failure?_integerText n
  | _ => rfl

mutual

/-- A value has a JSON tree, unless there is something wrong with a value that it spells. -/
theorem failure?_toJson : (v : Value) → failure? (v.toJson true) = v.textFault?
  | .list vs => by
    have hitems := failure?_toJsonItems vs
    rw [Value.textFault?, Value.spelled, List.findSome?_cons_of_isNone rfl, ← hitems, Value.toJson]
    cases Value.toJsonItems true vs <;> rfl
  | .tuple vs => by
    have hitems := failure?_toJsonItems vs
    rw [Value.textFault?, Value.spelled, List.findSome?_cons_of_isNone rfl, ← hitems, Value.toJson]
    cases Value.toJsonItems true vs <;> rfl
  | .struct es => by
    have hmembers := failure?_toJsonMembers es
    rw [Value.textFault?, Value.spelled, List.findSome?_cons_of_isNone rfl, ← hmembers, Value.toJson]
    cases Value.toJsonMembers true es <;> rfl
  | .int n => by
    rw [Value.toJson, failure?_map, failure?_integerText]
    exact List.findSome?_singleton.symm
  | .null => rfl
  | .bool _ => rfl
  | .float _ => rfl
  | .decimal _ => rfl
  | .text _ => rfl
  | .bytes _ => rfl
  | .byteArray _ => rfl
  | .timestamp _ => rfl
  | .date _ => rfl
  | .time _ => rfl
  | .uuid _ => rfl
  | .set _ => rfl
  | .missing => rfl

theorem failure?_toJsonItems : (vs : List Value) →
    failure? (Value.toJsonItems true vs) = (Value.spelledItems vs).findSome? Value.ownFault?
  | [] => rfl
  | v :: vs => by
    have hv := failure?_toJson v
    have hvs := failure?_toJsonItems vs
    rw [Value.spelledItems, List.findSome?_append, ← hvs, ← Value.textFault?, ← hv, Value.toJsonItems]
    cases v.toJson true with
    | error e => rfl
    | ok j => cases Value.toJsonItems true vs <;> rfl

theorem failure?_toJsonMembers : (es : List (Key × Value)) →
    failure? (Value.toJsonMembers true es) = (Value.spelledEntries es).findSome? Value.ownFault?
  | [] => rfl
  | (k, v) :: es => by
    have hv := failure?_toJson v
    have hes := failure?_toJsonMembers es
    rw [Value.spelledEntries, List.findSome?_cons, List.findSome?_append, ← hes, ← Value.textFault?,
      ← hv, ← failure?_jsonName, Value.toJsonMembers]
    cases k.jsonName with
    | error e => rfl
    | ok name =>
      cases v.toJson true with
      | error e => rfl
      | ok j => cases Value.toJsonMembers true es <;> rfl

end

/-- A value other than an identifier has no text when there is something wrong with a value that it
spells, and the failure says what is wrong with the first. -/
theorem toText_error_iff {v : Value} {fault : TextFault} (h : ∀ s, v ≠ .uuid s) :
    v.toText = .error fault ↔ v.textFault? = some fault := by
  rw [← failure?_toJson, ← failure?_eq_some]
  suffices hsame : failure? v.toText = failure? (v.toJson true) by rw [hsame]
  cases v with
  | uuid s => exact absurd rfl (h s)
  | list | tuple | struct => exact failure?_map _ _
  | int n => rw [Value.toJson, failure?_map]; rfl
  | _ => rfl

namespace Coercion

/-! ## Texts that are read -/

/-- The pattern, if there is one, that texts are read with at a logical type of dates or times. -/
def momentPattern? (options : Options) (logical : String) : Option (Option String) :=
  if logical = "date" then some options.datePattern
  else if Schema.timeNames.contains logical then some options.timePattern
  else if Schema.timestampNames.contains logical then some options.timestampPattern
  else if Schema.localTimestampNames.contains logical then some options.timestampPattern
  else none

/-- A text as it is read as a number: without blanks around it, and with a point for the decimal
separator of the job. -/
def pointed (options : Options) (text : String) : String :=
  String.ofList ((Text.trim text).toList.map fun c =>
    if c = options.decimalSeparator then '.' else c)

/-- How reading a text breaks: by a pattern that names a field twice, or by the digits of an integer
that are too many. -/
inductive Misread (options : Options) (typeName logical text : String) : Failure → Prop
  | pattern {pattern : String} (hkind : typeName ≠ "boolean")
      (hpattern : momentPattern? options logical = some (some pattern))
      (hrepeats : Calendar.repeatsField pattern = true) :
      Misread options typeName logical text .repeatedField
  | digits {n : Int} (hkind : typeName = "int" ∨ typeName = "long")
      (hlogical : momentPattern? options logical = none)
      (hread : Text.readDigits? (pointed options text).toList = some n)
      (hdigits : Json.digitLimit < ((pointed options text).toList.filter Text.isDigit).length) :
      Misread options typeName logical text (.argument .tooManyDigits)

variable {options : Options} {path : String} {node : Json} {v : Value} {f : Failure}

theorem checkPattern_error {pattern : Option String} {value : Option Value} :
    checkPattern pattern value = .error f ↔
      f = .repeatedField ∧ ∃ p, pattern = some p ∧ Calendar.repeatsField p = true := by
  unfold checkPattern
  cases pattern with
  | none => simp
  | some p =>
    simp only [Option.any_some, Option.some.injEq, exists_eq_left']
    split
    · rename_i hrepeats
      exact ⟨fun h => ⟨(Except.error.inj h).symm, hrepeats⟩, fun h => by rw [h.1]⟩
    · rename_i hdistinct
      exact ⟨nofun, fun h => absurd h.2 hdistinct⟩

theorem readInteger_error {text : String} :
    readInteger text = .error f ↔
      f = .argument .tooManyDigits ∧ ∃ n, Text.readDigits? text.toList = some n ∧
        Json.digitLimit < (text.toList.filter Text.isDigit).length := by
  unfold readInteger
  cases Text.readDigits? text.toList with
  | none => simp
  | some n =>
    simp only [Option.some.injEq, exists_eq_left']
    split
    · rename_i hlong
      exact ⟨fun h => ⟨(Except.error.inj h).symm, hlong⟩, fun h => by rw [h.1]⟩
    · rename_i hshort
      exact ⟨nofun, fun h => absurd h.2 hshort⟩

variable {typeName logical text : String}

/-- At dates and times reading breaks by the pattern alone. -/
theorem misread_moment {pattern : Option String} (hkind : typeName ≠ "boolean")
    (hlogical : momentPattern? options logical = some pattern) {value : Option Value} :
    checkPattern pattern value = .error f ↔ Misread options typeName logical text f := by
  rw [checkPattern_error]
  constructor
  · rintro ⟨rfl, p, rfl, hrepeats⟩
    exact .pattern hkind hlogical hrepeats
  · intro h
    cases h with
    | pattern _ hpattern hrepeats =>
      rw [hlogical] at hpattern
      exact ⟨rfl, _, Option.some.inj hpattern, hrepeats⟩
    | digits _ hplain =>
      rw [hlogical] at hplain
      cases hplain

/-- Elsewhere it breaks by the digits of an integer alone. -/
theorem misread_number (hlogical : momentPattern? options logical = none) :
    Misread options typeName logical text f ↔
      (typeName = "int" ∨ typeName = "long") ∧ readInteger (pointed options text) = .error f := by
  rw [readInteger_error]
  constructor
  · intro h
    cases h with
    | pattern _ hpattern =>
      rw [hlogical] at hpattern
      cases hpattern
    | digits hkind _ hread hdigits => exact ⟨hkind, rfl, _, hread, hdigits⟩
  · rintro ⟨hkind, rfl, n, hread, hdigits⟩
    exact .digits hkind hlogical hread hdigits

theorem readText_error_iff {logical : Option String} :
    readText options typeName logical text = .error f ↔
      Misread options typeName (logical.getD "") text f := by
  have hpointed : String.ofList ((Text.trim text).toList.map fun c =>
      if c = options.decimalSeparator then '.' else c) = pointed options text := rfl
  unfold readText
  simp only [hpointed]
  generalize logical.getD "" = logical
  by_cases hboolean : typeName = "boolean"
  · subst hboolean
    rw [if_pos rfl]
    refine ⟨nofun, fun h => ?_⟩
    cases h with
    | pattern hkind => exact absurd rfl hkind
    | digits hkind => exact absurd hkind (by decide)
  rw [if_neg hboolean]
  have hmoment : momentPattern? options logical = _ := rfl
  conv_rhs at hmoment => unfold momentPattern?
  by_cases hdate : logical = "date"
  · rw [if_pos hdate] at hmoment ⊢
    exact misread_moment hboolean hmoment
  rw [if_neg hdate] at hmoment ⊢
  by_cases htime : Schema.timeNames.contains logical = true
  · rw [if_pos htime] at hmoment ⊢
    exact misread_moment hboolean hmoment
  rw [if_neg htime] at hmoment ⊢
  by_cases hinstant : Schema.timestampNames.contains logical = true
  · rw [if_pos hinstant] at hmoment ⊢
    exact misread_moment hboolean hmoment
  rw [if_neg hinstant] at hmoment ⊢
  by_cases hlocal : Schema.localTimestampNames.contains logical = true
  · rw [if_pos hlocal] at hmoment ⊢
    exact misread_moment hboolean hmoment
  rw [if_neg hlocal] at hmoment ⊢
  rw [misread_number hmoment]
  by_cases hinteger : typeName = "int" ∨ typeName = "long"
  · rw [if_pos (by simpa using hinteger)]
    simp only [hinteger, true_and]
    generalize readInteger (pointed options text) = outcome
    cases outcome with
    | error e => exact Iff.rfl
    | ok value => cases value <;> simp
  · rw [if_neg (by simpa using hinteger)]
    simp only [hinteger, false_and, iff_false]
    split <;> nofun

/-! ## Values that are converted -/

/-- Numbers that decimal arithmetic cannot give a scale, and how it fails: scales that are beyond its
exponents, numbers without digits, and numbers with more digits than it has room for. -/
inductive Unworkable (scale : Int) : Decimal → Failure → Prop
  | far {number : Decimal} (h : Decimal.shiftLimit < scale.natAbs) :
      Unworkable scale number .invalidOperation
  | large {number : Decimal} (hnear : scale.natAbs ≤ Decimal.shiftLimit)
      (h : Decimal.workingExponent < -scale) : Unworkable scale number .exponentOverflow
  | infinite {target : Int} {negative : Bool} (ht : targetOf scale = .ok target) :
      Unworkable scale (.infinite negative) .invalidOperation
  | signaling {target : Int} {negative : Bool} {payload : Nat} (ht : targetOf scale = .ok target) :
      Unworkable scale (.nan negative true payload) .invalidOperation
  | digits {target e : Int} {negative : Bool} {c : Nat} (ht : targetOf scale = .ok target)
      (h : Decimal.limitAt target ≤ c * 10 ^ (e - target)) :
      Unworkable scale (.finite negative c e) .invalidOperation

/-- Values that converting breaks on at a node, and how. -/
inductive Obstacle (options : Options) (node : Json) : Value → Failure → Prop
  | integer {n : Int} (hkind : Schema.typeName node = "float" ∨ Schema.typeName node = "double")
      (hlarge : 2 ^ 1024 ≤ n.natAbs + 2 ^ 970) :
      Obstacle options node (.int n) (.overflow .number)
  | signaling {negative : Bool} {payload : Nat}
      (hkind : Schema.typeName node = "float" ∨ Schema.typeName node = "double") :
      Obstacle options node (.decimal (.nan negative true payload)) (.argument .signalingNaN)
  | scale {v : Value} {number : Decimal} (hkind : Schema.typeName node = "bytes")
      (hlogical : Schema.logicalName? node = some "decimal") (hnumber : decimalOf? v = some number)
      (hscale : scaleOf node = .error .wrongOperand) :
      Obstacle options node v .wrongOperand
  | number {v : Value} {number : Decimal} {scale : Int} (hkind : Schema.typeName node = "bytes")
      (hlogical : Schema.logicalName? node = some "decimal") (hnumber : decimalOf? v = some number)
      {f : Failure} (hscale : scaleOf node = .ok scale) (h : Unworkable scale number f) :
      Obstacle options node v f
  | moment {t : Timestamp} {offset : Offset}
      (hkind : Schema.typeName node = "int" ∨ Schema.typeName node = "long")
      (hlogical : Schema.localTimestampNames.contains ((Schema.logicalName? node).getD "") = true)
      (hoffset : t.offset = some offset)
      (houtside : ¬ Calendar.Holds (t.instantAt offset) ∨
        ¬ Calendar.Holds (t.instantAt offset +
          (options.zone.offsetAtInstant (t.instantAt offset).toNat).micros)) :
      Obstacle options node (.timestamp t) (.overflow .time)
  | object {v : Value} {fault : TextFault} (hkind : Schema.typeName node = "string")
      (h : v.textFault? = some fault) : Obstacle options node v (Failure.ofText fault)

/-- The refusals of a value at a path. -/
inductive Refusal (path : String) (node : Json) (v : Value) : Failure → Prop
  | wrongType : Refusal path node v (.encoding path node v .wrongType)
  | outOfRange {n : Int} {typeName : String} :
      Refusal path node v (.encoding path node v (.outOfRange n typeName))
  | wrongScale {number scale : String} :
      Refusal path node v (.encoding path node v (.wrongScale number scale))

theorem refuse_error {α : Type} {w : Value}
    (h : (refuse path node w : Except Failure α) = .error f) : Refusal path node w f := by
  cases h
  exact .wrongType

theorem logicalName?_decimal :
    (Schema.logicalName? node).getD "" = "decimal" ↔ Schema.logicalName? node = some "decimal" := by
  cases Schema.logicalName? node with
  | none => simp
  | some logical => simp

theorem scaleOf_error (h : scaleOf node = .error f) : f = .wrongOperand := by
  unfold scaleOf at h
  split at h <;> cases h
  rfl

theorem targetOf_error {scale : Int} (h : targetOf scale = .error f) (number : Decimal) :
    Unworkable scale number f := by
  unfold targetOf at h
  split at h
  · rename_i hfar
    cases h
    exact .far hfar
  · rename_i hnear
    split at h
    · rename_i hlarge
      cases h
      exact .large (Nat.le_of_not_lt hnear) hlarge
    · cases h

/-- A number at a decimal node. -/
theorem scaled_error {number : Decimal} (h : scaled path node v number = .error f) :
    Refusal path node v f ∨
      (scaleOf node = .error .wrongOperand ∧ f = .wrongOperand) ∨
      ∃ scale, scaleOf node = .ok scale ∧ Unworkable scale number f := by
  unfold scaled at h
  cases hscale : scaleOf node with
  | error e =>
    obtain rfl := scaleOf_error hscale
    rw [hscale] at h
    cases h
    exact .inr (.inl ⟨rfl, rfl⟩)
  | ok scale =>
    rw [hscale] at h
    simp only at h
    cases ht : targetOf scale with
    | error e =>
      rw [ht] at h
      cases h
      exact .inr (.inr ⟨scale, rfl, targetOf_error ht number⟩)
    | ok target =>
      rw [ht] at h
      cases number with
      | infinite negative =>
        cases h
        exact .inr (.inr ⟨scale, rfl, .infinite ht⟩)
      | nan negative signaling payload =>
        cases signaling with
        | true =>
          cases h
          exact .inr (.inr ⟨scale, rfl, .signaling ht⟩)
        | false =>
          cases h
          exact .inl .wrongScale
      | finite negative c e =>
        simp only at h
        cases hr : Decimal.quantize? c e target with
        | none =>
          rw [hr] at h
          cases h
          exact .inr (.inr ⟨scale, rfl, .digits ht ((Decimal.quantize?_eq_none (targetOf_le ht)).mp hr)⟩)
        | some r =>
          rw [hr] at h
          simp only at h
          split at h <;> cases h
          exact .inl .wrongScale

theorem scaled_unworkable {number : Decimal} {scale : Int} (hscale : scaleOf node = .ok scale)
    (h : Unworkable scale number f) : scaled path node v number = .error f := by
  unfold scaled
  rw [hscale]
  simp only
  cases h with
  | far hfar => simp only [targetOf, if_pos hfar]
  | large hnear hlarge => simp only [targetOf, if_neg (Nat.not_lt.mpr hnear), if_pos hlarge]
  | infinite ht => simp only [ht]
  | signaling ht => simp only [ht]
  | digits ht hdigits => simp only [ht, (Decimal.quantize?_eq_none (targetOf_le ht)).mpr hdigits]

/-- An integer node breaks on timestamps that have no local time. -/
theorem toInteger_error {typeName logical : String}
    (h : toInteger options path node typeName logical v = .error f) :
    Refusal path node v f ∨
      Schema.localTimestampNames.contains logical = true ∧ f = .overflow .time ∧
        ∃ t offset, v = .timestamp t ∧ t.offset = some offset ∧
          t.toZone? offset options.zone = none := by
  unfold toInteger at h
  by_cases hdate : logical = "date"
  · rw [if_pos hdate] at h
    split at h
    · cases h
    · exact .inl (refuse_error h)
  rw [if_neg hdate] at h
  by_cases htime : Schema.timeNames.contains logical = true
  · rw [if_pos htime] at h
    split at h
    · cases h
    · exact .inl (refuse_error h)
  rw [if_neg htime] at h
  by_cases hinstant : Schema.timestampNames.contains logical = true
  · rw [if_pos hinstant] at h
    split at h
    · cases h
    · exact .inl (refuse_error h)
  rw [if_neg hinstant] at h
  by_cases hlocal : Schema.localTimestampNames.contains logical = true
  · rw [if_pos hlocal] at h
    split at h
    · rename_i t
      cases hoffset : t.offset with
      | none =>
        rw [hoffset] at h
        cases h
      | some offset =>
        rw [hoffset] at h
        simp only at h
        cases hzone : t.toZone? offset options.zone with
        | none =>
          rw [hzone] at h
          cases h
          exact .inr ⟨hlocal, rfl, t, offset, rfl, hoffset, hzone⟩
        | some local' =>
          rw [hzone] at h
          cases h
    · exact .inl (refuse_error h)
  rw [if_neg hlocal] at h
  split at h
  · simp only at h
    generalize (if typeName = "int" then fitsInt32 _ else fitsInt64 _) = fits at h
    split at h
    · cases h
    · split at h
      · cases h
        exact .inl .outOfRange
      · exact .inl (refuse_error h)
  · exact .inl (refuse_error h)

theorem convert_string (htype : Schema.typeName node = "string") :
    convert options path node v = toString v := by
  unfold convert
  simp only
  rw [htype]
  rfl

theorem toFloat_error (h : toFloat path node v = .error f) :
    Refusal path node v f ∨
      (∃ n, v = .int n ∧ Binary64.ofInt? n = none ∧ f = .overflow .number) ∨
      ∃ negative payload, v = .decimal (.nan negative true payload) ∧
        f = .argument .signalingNaN := by
  unfold toFloat at h
  split at h
  · cases h
  · rename_i n
    split at h <;> cases h
    rename_i hn
    exact .inr (.inl ⟨n, rfl, hn, rfl⟩)
  · rename_i d
    split at h <;> cases h
    rename_i hd
    cases d with
    | nan negative signaling payload =>
      cases signaling with
      | true => exact .inr (.inr ⟨negative, payload, rfl, rfl⟩)
      | false => cases hd
    | finite | infinite => cases hd
  · exact .inl (refuse_error h)

theorem toBytes_error {logical : String} (h : toBytes path node logical v = .error f) :
    Refusal path node v f ∨
      logical = "decimal" ∧ ∃ number, decimalOf? v = some number ∧
        scaled path node v number = .error f := by
  unfold toBytes at h
  split at h
  · rename_i hlogical
    cases hnumber : decimalOf? v with
    | none =>
      rw [hnumber] at h
      exact .inl (refuse_error h)
    | some number =>
      rw [hnumber] at h
      exact .inr ⟨hlogical, number, rfl, h⟩
  · split at h
    · cases h
    · cases h
    · cases h
    · exact .inl (refuse_error h)

/-- A conversion refuses a value, or it breaks on it. -/
theorem convert_error (huuid : Schema.typeName node = "string" → ∀ s, v ≠ .uuid s)
    (h : convert options path node v = .error f) :
    Refusal path node v f ∨ Obstacle options node v f := by
  by_cases hnull : Schema.typeName node = "null"
  · unfold convert at h
    simp only [hnull, if_true] at h
    split at h
    · cases h
    · exact .inl (refuse_error h)
  by_cases hstring : Schema.typeName node = "string"
  · rw [convert_string hstring, toString] at h
    split at h
    · cases h
    · rename_i fault hfault
      cases h
      exact .inr (.object hstring ((toText_error_iff (huuid hstring)).mp hfault))
  by_cases hboolean : Schema.typeName node = "boolean"
  · unfold convert at h
    simp only [hboolean] at h
    rw [if_neg (by decide), if_neg (by decide), if_pos trivial] at h
    split at h
    · cases h
    · exact .inl (refuse_error h)
  by_cases hinteger : Schema.typeName node = "int" ∨ Schema.typeName node = "long"
  · rw [convert_integer hinteger] at h
    obtain hrefused | ⟨hlogical, rfl, t, offset, rfl, hoffset, hzone⟩ := toInteger_error h
    · exact .inl hrefused
    · exact .inr (.moment hinteger hlogical hoffset (Timestamp.toZone?_eq_none.mp hzone))
  by_cases hfloat : Schema.typeName node = "float" ∨ Schema.typeName node = "double"
  · rw [convert_float hfloat] at h
    obtain hrefused | ⟨n, rfl, hn, rfl⟩ | ⟨negative, payload, rfl, rfl⟩ := toFloat_error h
    · exact .inl hrefused
    · exact .inr (.integer hfloat (Binary64.ofInt?_eq_none.mp hn))
    · exact .inr (.signaling hfloat)
  by_cases hbytes : Schema.typeName node = "bytes"
  · rw [convert_bytes hbytes] at h
    obtain hrefused | ⟨hlogical, number, hnumber, hscaled⟩ := toBytes_error h
    · exact .inl hrefused
    · rw [logicalName?_decimal] at hlogical
      obtain hrefused | ⟨hscale, rfl⟩ | ⟨scale, hscale, hunworkable⟩ := scaled_error hscaled
      · exact .inl hrefused
      · exact .inr (.scale hbytes hlogical hnumber hscale)
      · exact .inr (.number hbytes hlogical hnumber hscale hunworkable)
  · unfold convert at h
    simp only at h
    rw [not_or] at hinteger hfloat
    rw [if_neg hnull, if_neg hstring, if_neg hboolean, if_neg (by simpa using hinteger),
      if_neg (by simpa using hfloat), if_neg hbytes] at h
    exact .inl (refuse_error h)

/-- What a conversion breaks on, it breaks on wherever the value stands. -/
theorem Obstacle.convert (h : Obstacle options node v f) (path : String) :
    convert options path node v = .error f := by
  cases h with
  | integer hkind hlarge =>
    rw [convert_float hkind, toFloat]
    simp only [Binary64.ofInt?_eq_none.mpr hlarge]
  | signaling hkind =>
    rw [convert_float hkind]
    rfl
  | scale hkind hlogical hnumber hscale =>
    rw [convert_decimal hkind hlogical hnumber, scaled]
    simp only [hscale]
  | number hkind hlogical hnumber hscale h =>
    rw [convert_decimal hkind hlogical hnumber, scaled_unworkable hscale h]
  | moment hkind hlogical hoffset houtside =>
    obtain ⟨hdate, htime, hinstant⟩ := localTimestampName hlogical
    rw [convert_integer hkind]
    unfold toInteger
    rw [if_neg hdate, if_neg htime, if_neg hinstant, if_pos hlogical]
    simp only [hoffset, Timestamp.toZone?_eq_none.mpr houtside]
  | object hkind h =>
    have huuid : ∀ s, v ≠ .uuid s := by
      rintro s rfl
      cases h
    rw [convert_string hkind, toString, (toText_error_iff huuid).mpr h]

/-! ## The table of scalars -/

/-- The value that is read for another one: identifiers count as their text. -/
def readable : Value → Value
  | .uuid s => .text s
  | v => v

/-- The value that a node sees where another one stands: what was read for it, or the value itself. -/
inductive Seen (options : Options) (node : Json) (v : Value) : Value → Prop
  | itself : Seen options node v v
  | read {w : Value} (h : readValue options node (readable v) = .ok w) : Seen options node v w

/-- Values that the table of scalars breaks on at a node: texts that cannot be read, and values that
cannot be converted after they were read. -/
inductive Breaks (options : Options) (node : Json) (v : Value) : Failure → Prop
  | reading {text : String} {f : Failure} (hoption : options.parseStrings = true)
      (hkind : Schema.typeName node ≠ "string") (htext : readable v = .text text)
      (h : Misread options (Schema.typeName node) ((Schema.logicalName? node).getD "") text f) :
      Breaks options node v f
  | converting {w : Value} {f : Failure} (hforeign : v.isForeign = false)
      (hread : readValue options node (readable v) = .ok w) (h : Obstacle options node w f) :
      Breaks options node v f

theorem coerce_readable (h : v.isForeign = false) (options : Options) (path : String)
    (node : Json) : coerce options path node v =
      (readValue options node (readable v)).bind (convert options path node) := by
  cases v with
  | set vs => cases h
  | missing => cases h
  | _ =>
    unfold coerce readable
    simp only
    generalize readValue options node _ = read
    cases read <;> rfl

theorem readValue_error (h : readValue options node v = .error f) :
    ∃ text, v = .text text ∧ options.parseStrings = true ∧ Schema.typeName node ≠ "string" ∧
      readText options (Schema.typeName node) (Schema.logicalName? node) text = .error f := by
  unfold readValue at h
  split at h
  · rename_i text
    split at h
    · rename_i hreads
      rw [Bool.and_eq_true, decide_eq_true_eq] at hreads
      refine ⟨text, rfl, hreads.1, hreads.2, ?_⟩
      split at h
      · rename_i e he
        cases h
        exact he
      · cases h
      · cases h
    · cases h
  · cases h

theorem readValue_misread {text : String} (hoption : options.parseStrings = true)
    (hkind : Schema.typeName node ≠ "string")
    (h : readText options (Schema.typeName node) (Schema.logicalName? node) text = .error f) :
    readValue options node (.text text) = .error f := by
  have hreads : (options.parseStrings && decide (Schema.typeName node ≠ "string")) = true := by
    rw [hoption, decide_eq_true hkind]
    rfl
  unfold readValue
  simp only [hreads, h]
  rfl

theorem readValue_string (hkind : Schema.typeName node = "string") (options : Options) (v : Value) :
    readValue options node v = .ok v := by
  unfold readValue
  split
  · rw [hkind, if_neg (by simp)]
  · rfl

theorem readable_ne (v : Value) (s : String) : readable v ≠ .uuid s := by
  cases v <;> exact Value.noConfusion

end Coercion

section

open Coercion

variable {options : Options} {path : String} {node : Json} {v : Value} {f : Failure}

/-- The table of scalars refuses a value at a path, or it breaks on it. -/
theorem coerce_error (h : coerce options path node v = .error f) :
    (∃ w, Seen options node v w ∧ Refusal path node w f) ∨ Breaks options node v f := by
  cases hforeign : v.isForeign with
  | true =>
    have hrefused : coerce options path node v = refuse path node v := by
      cases v with
      | set vs => rfl
      | missing => rfl
      | _ => cases hforeign
    exact .inl ⟨v, .itself, refuse_error (hrefused.symm.trans h)⟩
  | false =>
    rw [coerce_readable hforeign] at h
    cases hread : readValue options node (readable v) with
    | error e =>
      rw [hread] at h
      cases h
      obtain ⟨text, htext, hoption, hkind, hmisread⟩ := readValue_error hread
      exact .inr (.reading hoption hkind htext (readText_error_iff.mp hmisread))
    | ok w =>
      rw [hread] at h
      have huuid : Schema.typeName node = "string" → ∀ s, w ≠ .uuid s := by
        intro hkind s hw
        rw [readValue_string hkind, hw] at hread
        exact readable_ne v s (Except.ok.inj hread)
      obtain hrefused | hobstacle := convert_error huuid h
      · exact .inl ⟨w, .read hread, hrefused⟩
      · exact .inr (.converting hforeign hread hobstacle)

/-- What it breaks on, it breaks on wherever the value stands. -/
theorem Coercion.Breaks.coerce (h : Breaks options node v f) (path : String) :
    coerce options path node v = .error f := by
  cases h with
  | reading hoption hkind htext h =>
    have hforeign : v.isForeign = false := by
      cases v with
      | set vs => cases htext
      | missing => cases htext
      | _ => rfl
    rw [coerce_readable hforeign, htext,
      readValue_misread hoption hkind (readText_error_iff.mpr h)]
    rfl
  | converting hforeign hread h =>
    rw [coerce_readable hforeign, hread]
    exact h.convert path

end

end AvroDocument
