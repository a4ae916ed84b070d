import AvroDocument.Proofs.ScalarStability
import AvroDocument.Proofs.Shapes
import AvroDocument.Decoding

/-!
# AvroDocument.Proofs.ScalarReading

Scalars that are reconciled with a primitive node.

* `scalarValue_anywhere`: a scalar has the same value wherever it stands.
* `scalarValue_judged`: a scalar that was read with the layout of the node is itself there, or does
  not fit, or is a decimal that decimal arithmetic cannot take.
-/

namespace AvroDocument

open Coercion

/-! ## Wherever a scalar stands -/

namespace Coercion

variable {options : Options} {path : String} {node : Json} {v datum : Value}

theorem toInteger_anywhere {typeName logical : String}
    (h : toInteger options path node typeName logical v = .ok datum) (path' : String) :
    toInteger options path' node typeName logical v = .ok datum := by
  unfold toInteger at h ⊢
  by_cases hdate : logical = "date"
  · rw [if_pos hdate] at h ⊢
    cases v with
    | date => exact h
    | _ => cases h
  rw [if_neg hdate] at h ⊢
  by_cases htime : Schema.timeNames.contains logical = true
  · rw [if_pos htime] at h ⊢
    cases v with
    | time => exact h
    | _ => cases h
  rw [if_neg htime] at h ⊢
  by_cases hinstant : Schema.timestampNames.contains logical = true
  · rw [if_pos hinstant] at h ⊢
    cases v with
    | timestamp => exact h
    | _ => cases h
  rw [if_neg hinstant] at h ⊢
  by_cases hlocal : Schema.localTimestampNames.contains logical = true
  · rw [if_pos hlocal] at h ⊢
    cases v with
    | timestamp => exact h
    | _ => cases h
  rw [if_neg hlocal] at h ⊢
  cases v with
  | int n =>
    simp only at h ⊢
    by_cases hfits : (if typeName = "int" then fitsInt32 n else fitsInt64 n) = true
    · rw [if_pos hfits] at h ⊢
      exact h
    · rw [if_neg hfits] at h
      split at h <;> cases h
  | _ => cases h

theorem toFloat_anywhere (h : toFloat path node v = .ok datum) (path' : String) :
    toFloat path' node v = .ok datum := by
  cases v with
  | float | int | decimal => exact h
  | _ => cases h

theorem scaled_anywhere {number : Decimal} (h : scaled path node v number = .ok datum)
    (path' : String) : scaled path' node v number = .ok datum := by
  unfold scaled at h ⊢
  cases hscale : scaleOf node with
  | error e =>
    rw [hscale] at h
    cases h
  | ok scale =>
    rw [hscale] at h
    simp only at h ⊢
    cases ht : targetOf scale with
    | error e =>
      rw [ht] at h
      cases h
    | ok target =>
      rw [ht] at h
      cases number with
      | infinite => cases h
      | nan _ signaling _ => cases signaling <;> cases h
      | finite negative c e =>
        simp only at h ⊢
        cases hr : Decimal.quantize? c e target with
        | none =>
          rw [hr] at h
          cases h
        | some r =>
          rw [hr] at h
          simp only at h ⊢
          split_ifs at h ⊢
          exact h

theorem toBytes_anywhere {logical : String} (h : toBytes path node logical v = .ok datum)
    (path' : String) : toBytes path' node logical v = .ok datum := by
  unfold toBytes at h ⊢
  split_ifs at h ⊢
  · cases hnumber : decimalOf? v with
    | none =>
      rw [hnumber] at h
      cases h
    | some number =>
      rw [hnumber] at h
      exact scaled_anywhere h path'
  · cases v with
    | bytes | byteArray | text => exact h
    | _ => cases h

theorem convert_anywhere (h : convert options path node v = .ok datum) (path' : String) :
    convert options path' node v = .ok datum := by
  unfold convert at h ⊢
  simp only at h ⊢
  split_ifs at h ⊢
  · cases v with
    | null => exact h
    | _ => cases h
  · exact h
  · cases v with
    | bool => exact h
    | _ => cases h
  · exact toInteger_anywhere h path'
  · exact toFloat_anywhere h path'
  · exact toBytes_anywhere h path'
  · cases h

end Coercion

section

variable {options : Options} {path : String} {node : Json} {v datum : Value}

/-- What is coerced is read first, unless it is no interchange value; identifiers count as their
text. -/
theorem coerce_eq (options : Options) (node : Json) (v : Value) :
    (∀ path, coerce options path node v = refuse path node v) ∨
      ∀ path, coerce options path node v =
        (readValue options node (match v with | .uuid s => .text s | v => v)).bind
          (convert options path node) := by
  by_cases hother : (∃ vs, v = .set vs) ∨ v = .missing
  · obtain ⟨vs, rfl⟩ | rfl := hother <;> exact .inl fun _ => rfl
  · refine .inr fun path => ?_
    unfold coerce
    split
    · exact absurd (.inl ⟨_, rfl⟩) hother
    · exact absurd (.inr rfl) hother
    · simp only
      generalize readValue options node _ = read
      cases read <;> rfl

theorem coerce_anywhere (h : coerce options path node v = .ok datum) (path' : String) :
    coerce options path' node v = .ok datum := by
  obtain hrefuse | hread := coerce_eq options node v
  · rw [hrefuse] at h
    cases h
  · rw [hread] at h ⊢
    generalize readValue options node _ = read at h ⊢
    cases read with
    | error e => cases h
    | ok w => exact convert_anywhere h path'

theorem scalarValue_ok (hv : v ≠ .null) :
    Decoding.scalarValue options path node v = .ok datum ↔
      coerce options path node v = .ok datum := by
  unfold Decoding.scalarValue
  split
  · exact absurd rfl hv
  · cases coerce options path node v with
    | ok w => rfl
    | error e => cases e <;> simp [Decoding.wrongType, Decoding.mismatch]

theorem scalarValue_anywhere (h : Decoding.scalarValue options path node v = .ok datum)
    (path' : String) : Decoding.scalarValue options path' node v = .ok datum := by
  by_cases hv : v = .null
  · subst hv
    unfold Decoding.scalarValue at h ⊢
    simp only at h ⊢
    split_ifs at h ⊢
    · exact h
    · cases h
  · rw [scalarValue_ok hv] at h ⊢
    exact coerce_anywhere h path'

end

/-! ## Scalars that were read -/

/-- A scalar and the value that it has in a document: an identifier is its text there, and a decimal
has all the places of its type, as far as decimal arithmetic has so many. -/
inductive SameScalar : Value → Value → Prop
  | itself (v : Value) : SameScalar v v
  | identifier (s : String) : SameScalar (.uuid s) (.text s)
  | decimal (negative : Bool) (c k : Nat) (e : Int) :
      SameScalar (.decimal (.finite negative c (e + k)))
        (.decimal (.finite negative (c * 10 ^ k) e))
  | shortened (negative : Bool) (c k : Nat) :
      SameScalar (.decimal (.finite negative (c * 10 ^ k) (Decimal.workingFloor - k)))
        (.decimal (.finite negative c Decimal.workingFloor))

/-- An outcome that is a result, or a failure of a certain kind. -/
def Decoding.FailsOnly {α : Type} (Q : Failure → Prop) (outcome : Except Failure α) : Prop :=
  ∀ e, outcome = .error e → Q e

/-- An outcome that is a result, or says that the data do not fit. -/
def Decoding.Settled {α : Type} (outcome : Except Failure α) : Prop :=
  ∀ e, outcome = .error e → ∃ m, e = .mismatch m

/-- A decimal that decimal arithmetic can give the scale of its type. -/
def Binary.Workable (type : DecimalType) (v : Value) : Prop :=
  ∃ scale target, type.scale = some scale ∧ targetOf scale = .ok target ∧
    ∀ negative c e, v = .decimal (.finite negative c e) →
      (Decimal.quantize? c e target).isSome = true

/-- A datum that was read, and that decimal arithmetic can take if it is a decimal. -/
def Binary.Usable : Binary.ScalarProperty := fun type meaning v =>
  Binary.Stored type meaning v ∧ ∀ t, meaning = some (.decimal t) → Binary.Workable t v

/-- The outcomes that a scalar can have at a node: itself, a refusal of what the node does not hold,
and the failures of decimal arithmetic. -/
structure Coercion.Judged (meaning : Option Meaning) (v : Value) (outcome : Except Failure Value) :
    Prop where
  same : ∀ w, outcome = .ok w → SameScalar v w
  refused : ∀ e, outcome = .error e →
    (∃ path expected actual fault, e = .encoding path expected actual fault) ∨
      ∃ t, meaning = some (.decimal t) ∧ ¬ Binary.Workable t v

namespace Coercion

variable {options : Options} {path : String} {node : Json} {meaning : Option Meaning} {v : Value}

theorem judged_ok {w : Value} (h : SameScalar v w) : Judged meaning v (.ok w) := by
  refine ⟨fun w' hw => ?_, fun e he => ?_⟩
  · cases hw
    exact h
  · cases he

theorem judged_encoding {expected : Json} {actual : Value} {fault : EncodingFault} :
    Judged meaning v (.error (.encoding path expected actual fault)) := by
  refine ⟨fun w hw => ?_, fun e he => ?_⟩
  · cases hw
  · cases he
    exact .inl ⟨_, _, _, _, rfl⟩

/-- Timestamps that agree with a logical type: instants have an offset, local ones have none. -/
def Agrees (logical : String) (v : Value) : Prop :=
  ∀ t, v = .timestamp t →
    (Schema.timestampNames.contains logical = true → t.isAware = true) ∧
      (Schema.localTimestampNames.contains logical = true → t.offset = none)

/-- Integers, dates, times and timestamps are taken as they are or refused. -/
theorem toInteger_judged {typeName logical : String} (h : Agrees logical v) :
    Judged meaning v (toInteger options path node typeName logical v) := by
  unfold toInteger
  split
  · split
    · exact judged_ok (.itself _)
    · exact judged_encoding
  split
  · split
    · exact judged_ok (.itself _)
    · exact judged_encoding
  split
  · rename_i hinstant
    split
    · rename_i t
      rw [if_pos ((h t rfl).1 hinstant)]
      exact judged_ok (.itself _)
    · exact judged_encoding
  split
  · rename_i hlocal
    split
    · rename_i t
      rw [(h t rfl).2 hlocal]
      exact judged_ok (.itself _)
    · exact judged_encoding
  · split
    · rename_i n
      simp only
      generalize (if typeName = "int" then fitsInt32 n else fitsInt64 n) = fits
      split
      · exact judged_ok (.itself _)
      split
      · exact judged_encoding
      · exact judged_encoding
    · exact judged_encoding

theorem scaleOf_decimalType {ms : List (String × Json)} {scale : Int}
    (h : (Layout.decimalType ms).scale = some scale) : scaleOf (.obj ms) = .ok scale := by
  unfold scaleOf
  unfold Layout.decimalType at h
  simp only [Json.getD, Json.get?, Json.members] at h ⊢
  cases hlookup : lookup? "scale" ms with
  | none =>
    rw [hlookup] at h
    cases h
    rfl
  | some s =>
    rw [hlookup] at h
    rw [Option.getD_some]
    simp only at h
    rw [h]

/-- Decimals that were read have the places of their type or fewer. -/
theorem decimalOf?_places {type : DecimalType} {n : Int}
    (h : Binary.decimalOf? type n = some v) :
    ∃ scale negative c, ∃ k : Nat,
      type.scale = some scale ∧ v = .decimal (.finite negative c (-scale + k)) := by
  unfold Binary.decimalOf? at h
  split at h
  · rename_i precision scale _ hscale
    split at h
    · cases h
    · obtain rfl := Option.some.inj h
      rw [Int.sub_eq_add_neg, Int.add_comm]
      exact ⟨scale, _, _, _, hscale, rfl⟩
  · cases h

/-- A decimal that was read keeps its value at the exponent of its type: more places add zeros, and
fewer cut them. -/
theorem sameScalar_exact {scale target : Int} {negative : Bool} {c k n : Nat}
    (ht : targetOf scale = .ok target)
    (hn : Decimal.quantize? c (-scale + k) target = some ⟨n, true⟩) :
    SameScalar (.decimal (.finite negative c (-scale + k)))
      (.decimal (.finite negative n target)) := by
  have hvalue := ((Decimal.quantize?_exact_iff (targetOf_le ht)).mp hn).1
  obtain ⟨-, rfl⟩ := targetOf_eq_ok.mp ht
  obtain hmore | hfewer := le_or_gt (max (-scale) Decimal.workingFloor) (-scale + k)
  · obtain ⟨j, hj⟩ := Int.eq_ofNat_of_zero_le (Int.sub_nonneg_of_le hmore)
    rw [hj, zpow_natCast] at hvalue
    obtain rfl : n = c * 10 ^ j := by exact_mod_cast hvalue
    rw [show -scale + (k : Int) = max (-scale) Decimal.workingFloor + j by omega]
    exact .decimal _ _ _ _
  · -- Only the least exponent is above that of what is read.
    have hfloor : max (-scale) Decimal.workingFloor = Decimal.workingFloor := by omega
    rw [hfloor] at hvalue hfewer ⊢
    obtain ⟨j, hj⟩ := Int.eq_ofNat_of_zero_le (Int.sub_nonneg_of_le hfewer.le)
    have hc : (c : ℚ) = n * 10 ^ j := by
      rw [hvalue, ← zpow_natCast, ← hj, mul_assoc, ← zpow_add₀ (by norm_num)]
      simp
    obtain rfl : c = n * 10 ^ j := by exact_mod_cast hc
    rw [show -scale + (k : Int) = Decimal.workingFloor - j by omega]
    exact .shortened _ _ _

/-- Decimals that were read have the places of their type then, or do not keep their value, unless
decimal arithmetic has not enough digits for them. -/
theorem scaled_judged {ms : List (String × Json)} {n : Int}
    (h : Binary.decimalOf? (Layout.decimalType ms) n = some v) {number : Decimal}
    (hv : v = .decimal number) :
    Judged (some (.decimal (Layout.decimalType ms))) v (scaled path (.obj ms) v number) := by
  obtain ⟨scale, negative, c, k, hscale, rfl⟩ := decimalOf?_places h
  obtain rfl := Value.decimal.inj hv
  -- A failure of decimal arithmetic says that the decimal cannot be worked with.
  have hbroken {e : Failure}
      (h : ∀ target, targetOf scale = .ok target → Decimal.quantize? c (-scale + k) target = none) :
      Judged (some (.decimal (Layout.decimalType ms)))
        (.decimal (.finite negative c (-scale + k))) (.error e) := by
    refine ⟨fun w hw => ?_, fun e he => .inr ⟨_, rfl, ?_⟩⟩
    · cases hw
    · rintro ⟨scale', target, hscale', ht, hworks⟩
      obtain rfl := Option.some.inj (hscale.symm.trans hscale')
      have hsome := hworks _ _ _ rfl
      rw [h target ht] at hsome
      cases hsome
  unfold scaled
  simp only [scaleOf_decimalType hscale]
  cases ht : targetOf scale with
  | error e => exact hbroken fun target ht' => absurd (ht.symm.trans ht') (by simp)
  | ok target =>
    simp only
    cases hr : Decimal.quantize? c (-scale + k) target with
    | none =>
      refine hbroken fun target' ht' => ?_
      obtain rfl := Except.ok.inj (ht.symm.trans ht')
      exact hr
    | some r =>
      obtain ⟨n, exact⟩ := r
      cases exact with
      | false => exact judged_encoding
      | true => exact judged_ok (sameScalar_exact ht hr)

end Coercion

namespace Binary

variable {type : Primitive} {meaning : Option Meaning} {v : Value}

/-- Only integers, bytes and texts have a meaning. -/
theorem wrap_plain {plain : Value} (h : wrap meaning plain = some v)
    (hint : ∀ n, plain ≠ .int n) (hbytes : ∀ bs, plain ≠ .bytes bs)
    (htext : ∀ s, plain ≠ .text s) : v = plain := by
  unfold wrap at h
  split at h
  all_goals first
    | exact (Option.some.inj h).symm
    | exact absurd rfl (hint _)
    | exact absurd rfl (hbytes _)
    | exact absurd rfl (htext _)

/-- The plain data that are read, by their type. -/
theorem readPlain_cases {bytes rest : List UInt8} {plain : Value}
    (h : readPlain type bytes = .ok (plain, rest)) :
    match type with
    | .null => plain = .null
    | .boolean => ∃ b, plain = .bool b
    | .int | .long => ∃ n, plain = .int n
    | .float | .double => ∃ x, plain = .float x
    | .bytes => ∃ bs, plain = .bytes bs
    | .string => ∃ s, plain = .text s := by
  cases type with
  | null =>
    cases h
    rfl
  | boolean =>
    cases bytes with
    | nil => cases h
    | cons b rest =>
      cases h
      exact ⟨_, rfl⟩
  | float =>
    rw [readPlain] at h
    cases htake : takeBytes 4 bytes <;> rw [htake] at h <;> cases h
    exact ⟨_, rfl⟩
  | double =>
    rw [readPlain] at h
    cases htake : takeBytes 8 bytes <;> rw [htake] at h <;> cases h
    exact ⟨_, rfl⟩
  | _ =>
    obtain ⟨_, _, _, hplain⟩ := map_ok h
    exact ⟨_, congrArg Prod.fst hplain⟩

/-- The data that integers stand for: instants have an offset, local timestamps have none. -/
theorem wrap_integer {n : Int} (h : wrap meaning (.int n) = some v) :
    (∃ n, v = .int n) ∨ (∃ d, v = .date d) ∨ (∃ t, v = .time t) ∨
      ∃ t, v = .timestamp t ∧
        (t.isAware = true ∧ (meaning = some .timestampMillis ∨ meaning = some .timestampMicros) ∨
          t.offset = none ∧
            (meaning = some .localTimestampMillis ∨ meaning = some .localTimestampMicros)) := by
  have htimestamp {micros : Int} {offset : Option Offset}
      (h : timestampOf? micros offset = some v) : ∃ t, v = .timestamp t ∧ t.offset = offset := by
    obtain ⟨t, ht, rfl⟩ := Option.map_eq_some_iff.mp h
    refine ⟨t, rfl, ?_⟩
    unfold Timestamp.ofWall? at ht
    split at ht
    · cases ht
      rfl
    · cases ht
  rcases meaning with _ | (_ | _ | _ | _ | _ | _ | _ | _ | _)
  case none => exact .inl ⟨n, (Option.some.inj h).symm⟩
  case some.timestampMillis | some.timestampMicros =>
    obtain ⟨t, rfl, hoffset⟩ := htimestamp h
    exact .inr (.inr (.inr ⟨t, rfl, .inl ⟨by rw [Timestamp.isAware, hoffset]; rfl, by simp⟩⟩))
  case some.localTimestampMillis | some.localTimestampMicros =>
    obtain ⟨t, rfl, hoffset⟩ := htimestamp h
    exact .inr (.inr (.inr ⟨t, rfl, .inr ⟨hoffset, by simp⟩⟩))
  case some.date =>
    obtain ⟨d, -, rfl⟩ := Option.map_eq_some_iff.mp h
    exact .inr (.inl ⟨d, rfl⟩)
  case some.timeMillis | some.timeMicros =>
    obtain ⟨t, -, rfl⟩ := Option.map_eq_some_iff.mp h
    exact .inr (.inr (.inl ⟨t, rfl⟩))
  case some.decimal | some.uuid => exact .inl ⟨n, (Option.some.inj h).symm⟩

end Binary

section

variable {options : Options} {path : String} {node : Json} {type : Primitive}
  {meaning : Option Meaning} {v : Value}

/-- The logical type of a node whose integers are timestamps. -/
theorem logical_of_timestamp (hmeaning : (∃ name, node = .str name ∧ meaning = none) ∨
      ∃ ms, node = .obj ms ∧ meaning = Layout.meaning? type ms) :
    (meaning = some .timestampMillis ∨ meaning = some .timestampMicros →
      Schema.timestampNames.contains ((Schema.logicalName? node).getD "") = true) ∧
    (meaning = some .localTimestampMillis ∨ meaning = some .localTimestampMicros →
      Schema.localTimestampNames.contains ((Schema.logicalName? node).getD "") = true) := by
  obtain ⟨_, -, rfl⟩ | ⟨ms, rfl, rfl⟩ := hmeaning
  · simp
  · unfold Layout.meaning?
    split
    case h_1 hlogical | h_2 hlogical | h_3 hlogical | h_4 hlogical =>
      rw [hlogical]
      simp [Schema.timestampNames, Schema.localTimestampNames]
    all_goals simp

/-- Integers, and the dates and times that they stand for. -/
theorem integer_judged (hname : Schema.typeName node = "int" ∨ Schema.typeName node = "long")
    (hmeaning : (∃ name, node = .str name ∧ meaning = none) ∨
      ∃ ms, node = .obj ms ∧ meaning = Layout.meaning? type ms)
    {n : Int} (hwrap : Binary.wrap meaning (.int n) = some v) :
    Judged meaning v (coerce options path node v) := by
  obtain ⟨hinstant, hlocal⟩ := logical_of_timestamp hmeaning
  have hjudged (hcoerce : coerce options path node v = convert options path node v)
      (h : Agrees ((Schema.logicalName? node).getD "") v) :
      Judged meaning v (coerce options path node v) := by
    rw [hcoerce, convert_integer hname]
    exact toInteger_judged h
  obtain ⟨_, rfl⟩ | ⟨_, rfl⟩ | ⟨_, rfl⟩ | ⟨t, rfl, htimestamp⟩ := Binary.wrap_integer hwrap
  · exact hjudged rfl nofun
  · exact hjudged rfl nofun
  · exact hjudged rfl nofun
  · refine hjudged rfl fun t' ht' => ?_
    cases ht'
    obtain ⟨haware, hmeaning⟩ | ⟨hnaive, hmeaning⟩ := htimestamp
    · exact ⟨fun _ => haware,
        fun hname => absurd (hinstant hmeaning) (localTimestampName hname).2.2⟩
    · exact ⟨fun hname => absurd hname (localTimestampName (hlocal hmeaning)).2.2,
        fun _ => hnaive⟩

theorem coerce_string (htype : Schema.typeName node = "string") (s : String) :
    coerce options path node (.text s) = .ok (.text s) := by
  have hread : readValue options node (.text s) = .ok (.text s) := by
    rw [readValue, htype, if_neg]
    simp
  have hconvert : convert options path node (.text s) = .ok (.text s) := by
    unfold convert
    simp only
    rw [htype]
    rfl
  unfold coerce
  simp only [hread, hconvert]

/-- Bytes, and the decimals that they stand for. -/
theorem bytes_judged (htype : Schema.typeName node = "bytes")
    (hmeaning : (∃ name, node = .str name ∧ meaning = none) ∨
      ∃ ms, node = .obj ms ∧ meaning = Layout.meaning? .bytes ms)
    {bs : List UInt8} (hwrap : Binary.wrap meaning (.bytes bs) = some v) :
    Judged meaning v (coerce options path node v) := by
  have hplain (hsame : v = .bytes bs) : Judged meaning v (coerce options path node v) := by
    subst hsame
    show Judged meaning _ (convert options path node (.bytes bs))
    rw [convert_bytes htype]
    unfold toBytes
    split
    · exact judged_encoding
    · exact judged_ok (.itself _)
  obtain ⟨_, -, rfl⟩ | ⟨ms, rfl, rfl⟩ := hmeaning
  · cases hwrap
    exact hplain rfl
  · cases hdecimal : Layout.meaning? .bytes ms with
    | none =>
      rw [hdecimal] at hwrap hplain
      exact hplain (Option.some.inj hwrap).symm
    | some meaning =>
      obtain ⟨hlogical, rfl⟩ : Schema.logicalName? (.obj ms) = some "decimal" ∧
          meaning = .decimal (Layout.decimalType ms) := by
        unfold Layout.meaning? at hdecimal
        split at hdecimal <;> first | contradiction | cases hdecimal
        exact ⟨‹_›, rfl⟩
      rw [hdecimal] at hwrap
      have hread : Binary.decimalOf? (Layout.decimalType ms) (Word.ofSignedBytes bs) = some v :=
        hwrap
      obtain ⟨scale, negative, c, k, -, rfl⟩ := decimalOf?_places hread
      show Judged _ _ (convert options path (.obj ms) (.decimal (.finite negative c (-scale + k))))
      rw [convert_bytes htype, hlogical, Option.getD_some]
      unfold toBytes
      rw [if_pos rfl]
      exact scaled_judged hread rfl

/-- A scalar that was read with the layout of a node is itself there or refused, or a decimal with
more digits than decimal arithmetic has. -/
theorem coerce_judged (hkind : Primitive.ofName? (Schema.typeName node) = some type)
    (hmeaning : (∃ name, node = .str name ∧ meaning = none) ∨
      ∃ ms, node = .obj ms ∧ meaning = Layout.meaning? type ms)
    (h : Binary.Stored type meaning v) (hnull : type ≠ .null) :
    Judged meaning v (coerce options path node v) := by
  have htype := Primitive.eq_name hkind
  obtain ⟨bytes, rest, plain, hread, hwrap⟩ := h
  have hplain := Binary.readPlain_cases hread
  cases type with
  | null => exact absurd rfl hnull
  | boolean =>
    obtain ⟨b, rfl⟩ := hplain
    obtain rfl := Binary.wrap_plain hwrap nofun nofun nofun
    show Judged meaning _ (convert options path node (.bool b))
    rw [convert_boolean htype]
    exact judged_ok (.itself _)
  | float =>
    obtain ⟨x, rfl⟩ := hplain
    obtain rfl := Binary.wrap_plain hwrap nofun nofun nofun
    show Judged meaning _ (convert options path node (.float x))
    rw [convert_float (.inl htype)]
    exact judged_ok (.itself _)
  | double =>
    obtain ⟨x, rfl⟩ := hplain
    obtain rfl := Binary.wrap_plain hwrap nofun nofun nofun
    show Judged meaning _ (convert options path node (.float x))
    rw [convert_float (.inr htype)]
    exact judged_ok (.itself _)
  | int =>
    obtain ⟨n, rfl⟩ := hplain
    exact integer_judged (.inl htype) hmeaning hwrap
  | long =>
    obtain ⟨n, rfl⟩ := hplain
    exact integer_judged (.inr htype) hmeaning hwrap
  | bytes =>
    obtain ⟨bs, rfl⟩ := hplain
    exact bytes_judged htype hmeaning hwrap
  | string =>
    obtain ⟨s, rfl⟩ := hplain
    rcases meaning with _ | (_ | _ | _ | _ | _ | _ | _ | _ | _)
    case some.uuid =>
      obtain ⟨s, -, rfl⟩ := Option.map_eq_some_iff.mp hwrap
      show Judged _ _ (coerce options path node (.text s))
      rw [coerce_string htype]
      exact judged_ok (.identifier _)
    all_goals
      cases hwrap
      rw [coerce_string htype]
      exact judged_ok (.itself _)

/-- A scalar that was read with the layout of a node is itself there, or it does not fit, or it is a
decimal with more digits than decimal arithmetic has. -/
theorem scalarValue_judged (hkind : Primitive.ofName? (Schema.typeName node) = some type)
    (hmeaning : (∃ name, node = .str name ∧ meaning = none) ∨
      ∃ ms, node = .obj ms ∧ meaning = Layout.meaning? type ms)
    (hstored : Binary.Stored type meaning v) :
    (∀ w, Decoding.scalarValue options path node v = .ok w → SameScalar v w) ∧
      ∀ e, Decoding.scalarValue options path node v = .error e →
        (∃ m, e = .mismatch m) ∨ ∃ t, meaning = some (.decimal t) ∧ ¬ Binary.Workable t v := by
  by_cases hv : v = .null
  · subst hv
    unfold Decoding.scalarValue
    simp only
    split
    · refine ⟨fun w hw => ?_, fun e he => ?_⟩
      · cases hw
        exact .itself _
      · cases he
    · refine ⟨fun w hw => ?_, fun e he => ?_⟩
      · cases hw
      · cases he
        exact .inl ⟨_, rfl⟩
  · have hnull : type ≠ .null := by
      rintro rfl
      obtain ⟨_, _, plain, hread, hwrap⟩ := hstored
      obtain rfl : plain = .null := Binary.readPlain_cases hread
      exact hv (Binary.wrap_plain hwrap nofun nofun nofun)
    have hjudged : Judged meaning v (coerce options path node v) :=
      coerce_judged hkind hmeaning hstored hnull
    refine ⟨fun w hw => hjudged.same w ((scalarValue_ok hv).mp hw), fun e he => ?_⟩
    unfold Decoding.scalarValue at he
    split at he
    · exact absurd rfl hv
    cases hcoerce : coerce options path node v with
    | ok w =>
      rw [hcoerce] at he
      cases he
    | error f =>
      obtain ⟨_, _, _, _, rfl⟩ | hdecimal := hjudged.refused f hcoerce
      · rw [hcoerce] at he
        cases he
        exact .inl ⟨_, rfl⟩
      · exact .inr hdecimal

/-- A scalar that was read with the layout of a node, and that decimal arithmetic can take, has a
value there, or does not fit. -/
theorem scalarValue_settled (hkind : Primitive.ofName? (Schema.typeName node) = some type)
    (hmeaning : (∃ name, node = .str name ∧ meaning = none) ∨
      ∃ ms, node = .obj ms ∧ meaning = Layout.meaning? type ms)
    (husable : Binary.Usable type meaning v) :
    Decoding.Settled (Decoding.scalarValue options path node v) := by
  intro e he
  obtain hmismatch | ⟨t, ht, hnot⟩ := (scalarValue_judged hkind hmeaning husable.1).2 e he
  · exact hmismatch
  · exact absurd (husable.2 t ht) hnot

end

end AvroDocument
