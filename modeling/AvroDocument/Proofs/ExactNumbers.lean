import AvroDocument.Proofs.ContainerPath
import AvroDocument.Proofs.DocumentText
import AvroDocument.Proofs.NumberText
import AvroDocument.Proofs.Places

/-!
# AvroDocument.Proofs.ExactNumbers

Numbers that documents hold exactly come back digit for digit.

* `Json.Literal.Exact`: literals that no floating point number and no 64-bit integer stands for.
* `Json.Literal.written_value`: the value of such a literal is written as its characters.
* `Documents.documented_value`: what is read from texts can be inferred from, written and read.
* `Documents.decode_literals`: literals of texts come back as their characters, in their places.
-/

namespace AvroDocument

/-! ## Digits -/

namespace Text

theorem digitChar_digitsValue {c : Char} (h : c.isDigit = true) :
    digitsValue [c] < 10 ∧ (digitsValue [c]).digitChar = c := by
  have hall : ∀ n < 10, n.digitChar = Char.ofNat (n + 48) := by decide
  obtain ⟨hlow, hhigh⟩ : 48 ≤ c.toNat ∧ c.toNat ≤ 57 := by
    simpa [Char.isDigit, UInt32.le_iff_toNat_le] using h
  have hvalue : digitsValue [c] = c.toNat - 48 := by
    simp [digitsValue, digitValue?_of_isDigit h]
  refine ⟨by omega, ?_⟩
  rw [hvalue, hall _ (by omega), Nat.sub_add_cancel hlow, Char.ofNat_toNat]

/-- Digits with no zero in front are the digits of their value. -/
theorem toDigits_digitsValue {d : Char} {ds : List Char} (hd : d ≠ '0')
    (h : ∀ c ∈ d :: ds, c.isDigit = true) :
    0 < digitsValue (d :: ds) ∧ Nat.toDigits 10 (digitsValue (d :: ds)) = d :: ds := by
  -- By the last digit, since that is the one which division by ten takes away.
  induction ds using List.reverseRecOn with
  | nil =>
    obtain ⟨hlt, hchar⟩ := digitChar_digitsValue (h d List.mem_cons_self)
    refine ⟨Nat.pos_of_ne_zero fun hzero => hd ?_, ?_⟩
    · rw [← hchar, hzero]
      rfl
    · rw [Nat.toDigits_of_lt_base hlt, hchar]
  | append_singleton ds c ih =>
    have hc := h c (by simp)
    obtain ⟨hlt, hchar⟩ := digitChar_digitsValue hc
    obtain ⟨hpos, hdigits⟩ := ih fun e he => h e (by
      rw [← List.cons_append]
      exact List.mem_append_left _ he)
    have hvalue : digitsValue (d :: (ds ++ [c])) = 10 * digitsValue (d :: ds) + digitsValue [c] := by
      rw [← List.cons_append, digitsValue_append, List.length_singleton, Nat.pow_one, Nat.mul_comm]
    rw [hvalue]
    refine ⟨by omega, ?_⟩
    rw [← Nat.toDigits_append_toDigits (by decide) hpos hlt, hdigits, Nat.toDigits_of_lt_base hlt,
      hchar, List.cons_append]

/-- Digits are those of their value behind zeros. -/
theorem exists_padding {ds : List Char} (h : ∀ c ∈ ds, c.isDigit = true) (hne : ds ≠ []) :
    ∃ n, ds = List.replicate n '0' ++ Nat.toDigits 10 (digitsValue ds) := by
  induction ds with
  | nil => exact absurd rfl hne
  | cons d ds ih =>
    by_cases hd : d = '0'
    · subst hd
      by_cases hds : ds = []
      · exact ⟨0, by rw [hds]; rfl⟩
      · obtain ⟨n, hn⟩ := ih (fun c hc => h c (List.mem_cons_of_mem _ hc)) hds
        refine ⟨n + 1, ?_⟩
        rw [digitsValue_zero_cons, List.replicate_succ, List.cons_append, ← hn]
    · exact ⟨0, (toDigits_digitsValue hd h).2.symm⟩

end Text

namespace Json

variable {ds fs : List Char}

theorem Whole.toDigits_eq (h : Whole ds) : Nat.toDigits 10 (Text.digitsValue ds) = ds := by
  obtain rfl | ⟨d, tail, rfl, hd⟩ := h.start
  · rfl
  · exact (Text.toDigits_digitsValue hd h.digits).2

/-- Zeros in front of the digits of a number fill up the places behind the point, and one more. -/
theorem Whole.padded (h : Whole ds) (hf : ∀ c ∈ fs, c.isDigit = true) :
    List.replicate (fs.length + 1 - (Nat.toDigits 10 (Text.digitsValue (ds ++ fs))).length) '0' ++
      Nat.toDigits 10 (Text.digitsValue (ds ++ fs)) = ds ++ fs := by
  have hall : ∀ c ∈ ds ++ fs, c.isDigit = true := fun c hc =>
    (List.mem_append.mp hc).elim (h.digits c) (hf c)
  obtain rfl | ⟨d, tail, rfl, hd⟩ := h.start
  · -- The zero in front of the point and those behind it are all lost in the value.
    obtain ⟨n, hn⟩ := Text.exists_padding hall (by simp)
    have hlength := congrArg List.length hn
    rw [List.length_append, List.length_append, List.length_replicate, List.length_singleton]
      at hlength
    rw [show fs.length + 1 - (Nat.toDigits 10 (Text.digitsValue (['0'] ++ fs))).length = n by omega]
    exact hn.symm
  · rw [List.cons_append] at hall
    have hdigits := (Text.toDigits_digitsValue hd hall).2
    rw [List.cons_append, hdigits, List.length_cons, List.length_append,
      Nat.sub_eq_zero_of_le (by omega)]
    rfl

/-- Digits with a point among them, written out. -/
theorem writtenOut_digits (h : Whole ds) (hf : ∀ c ∈ fs, c.isDigit = true) (hne : fs ≠ []) :
    (Decimal.writtenOut (Text.digitsValue (ds ++ fs)) (-(fs.length : Int))).toList =
      ds ++ '.' :: fs := by
  have hpos := List.length_pos_iff.mpr hne
  rw [Decimal.writtenOut, if_neg (by omega)]
  simp only [Int.neg_neg, Int.toNat_natCast, h.padded hf, String.toList_ofList, List.length_append,
    Nat.add_sub_cancel, List.take_left, List.drop_left]

/-! ## Literals -/

namespace Literal

/-- A literal that is held exactly: with a fraction and no exponent, or an integer beyond 64 bits. -/
def Exact (l : Literal) : Prop :=
  (l.fraction ≠ [] ∧ l.exponent = none) ∨ (l.isInteger = true ∧ fitsInt64 l.value = false)

variable {l : Literal}

theorem chars_fraction (he : l.exponent = none) :
    l.chars = signChars l.negative ++ (l.whole ++ fractionChars l.fraction) := by
  rw [chars, he, exponentPart, List.append_nil]

theorem no_exponent_letter (he : l.exponent = none) :
    l.chars.any (fun c => c = 'e' || c = 'E') = false := by
  rw [List.any_eq_false]
  intro c hc
  have hne : c ≠ 'e' ∧ c ≠ 'E' := by
    obtain rfl | hc | rfl | hc := mem_chars hc
    · decide
    · constructor <;>
      · rintro rfl
        cases hc
    · decide
    · rw [he] at hc
      cases hc
  simp [hne]

/-- Numbers with a fraction and no exponent are read as the decimals that they spell. -/
theorem tree_fraction (hf : l.fraction ≠ []) (he : l.exponent = none) :
    l.tree .exact = .decimal (.finite l.negative (Text.digitsValue (l.whole ++ l.fraction))
      (-(l.fraction.length : Int))) := by
  have hinteger : l.isInteger = false := by
    rw [isInteger, he]
    simpa using hf
  have hread := read_numeral l.negative l.isWhole l.isFraction none
  rw [exponentChars, List.append_nil, ← chars_fraction he, Option.getD_none, Int.zero_sub] at hread
  rw [tree, if_neg (by simp [hinteger]), fractionalNumber, hread]
  simp only [no_exponent_letter he, decide_true, Bool.not_false, Bool.and_self, if_true]

theorem text_fraction (hf : l.fraction ≠ []) (he : l.exponent = none) :
    (Decimal.finite l.negative (Text.digitsValue (l.whole ++ l.fraction))
      (-(l.fraction.length : Int))).positional = l.text := by
  rw [← String.toList_inj, Decimal.positional, text, String.toList_append, String.toList_ofList,
    writtenOut_digits l.isWhole l.isFraction hf, chars_fraction he, fractionChars,
    if_neg (by simpa using hf)]
  cases l.negative <;> rfl

/-- An integer other than zero is written as its literal. -/
theorem text_integer (hl : l.isInteger = true) (hne : l.value ≠ 0) : toString l.value = l.text := by
  rw [isInteger, Bool.and_eq_true, List.isEmpty_iff, Option.isNone_iff_eq_none] at hl
  rw [← String.toList_inj, toString_int, text, String.toList_ofList, chars_fraction hl.2, hl.1,
    fractionChars, List.isEmpty_nil, if_pos rfl, List.append_nil]
  unfold value at hne ⊢
  cases hn : l.negative with
  | true =>
    rw [hn, if_pos rfl] at hne
    rw [if_pos rfl, Int.natAbs_neg, Int.natAbs_natCast, l.isWhole.toDigits_eq,
      decide_eq_true (by omega)]
  | false =>
    rw [if_neg Bool.false_ne_true, Int.natAbs_natCast, l.isWhole.toDigits_eq,
      decide_eq_false (by omega)]

/-- Integers that are not too long to be read are not too long to be written. -/
theorem isReadable_value (hr : l.Readable) : (Source.number l).value.isReadable = true := by
  rw [Source.value, Source.tree, tree, fractionalNumber]
  split
  · next hl =>
    have habs : l.value.natAbs = Text.digitsValue l.whole := by
      unfold value
      split <;> omega
    refine decide_eq_true (le_trans (le_of_eq ?_) (hr hl))
    rw [habs, Binary64.digitCount, l.isWhole.toDigits_eq]
  · split
    · rfl
    · split <;> rfl

/-- A literal that is held exactly is a string by its type, the characters of the literal. -/
theorem Exact.value_spec (h : l.Exact) (hi : ReadableIntegers (Source.number l).value) :
    Inference.leafType? (Source.number l).value = some Inference.widest ∧
      (Source.number l).value.written = l.text := by
  rw [Source.value, Source.tree] at hi ⊢
  obtain ⟨hf, he⟩ | ⟨hl, hbig⟩ := h
  · rw [tree_fraction hf he]
    exact ⟨rfl, text_fraction hf he⟩
  · have hne : l.value ≠ 0 := by
      intro hzero
      rw [hzero] at hbig
      exact absurd hbig (by decide)
    rw [tree, if_pos hl] at hi ⊢
    refine ⟨?_, ?_⟩
    · rw [Value.ofJson, Inference.leafType?_eq Value.noConfusion, Inference.scalarType?_int, hbig]
      rfl
    · rw [← text_integer hl hne, Value.ofJson, Value.written, Value.toText, Value.plainText?,
        integerText_of_readable hi]
      rfl

end Literal

/-! ## Sources -/

namespace Source

/-- The source at a place inside a source. -/
def at? : Place → Source → Option Source
  | [], s => some s
  | .key k :: place, .obj ms => (lookup? k ms).bind (at? place)
  | .item n :: place, .arr js => js[n]?.bind (at? place)
  | _, _ => none

theorem value_arr (js : List Source) : (arr js).value = .list (js.map value) := by
  rw [value, tree, itemTrees_eq, Value.ofJson, Value.ofItems_eq, List.map_map]
  rfl

theorem value_obj (ms : List (String × Source)) :
    (obj ms).value = .struct (ms.map fun m => (.text m.1, m.2.value)) := by
  rw [value, tree, memberTrees_eq, Value.ofJson, Value.ofMembers_eq, List.map_map]
  rfl

theorem member?_value (key : String) (ms : List (String × Source)) :
    Value.member? key (ms.map fun m => (.text m.1, m.2.value)) = (lookup? key ms).map value := by
  induction ms with
  | nil => rfl
  | cons m ms ih =>
    obtain ⟨k, s⟩ := m
    rw [List.map_cons, Value.member?, lookup?, ih]
    by_cases hk : k = key
    · simp [hk]
    · simp [hk]

/-- The value of a source holds the values of its parts in their places. -/
theorem value_at {place : Place} {s t : Source} (h : s.at? place = some t) :
    s.value.at? place = some t.value := by
  induction place generalizing s with
  | nil =>
    cases h
    rfl
  | cons spot place ih =>
    cases spot with
    | key k =>
      cases s with
      | obj ms =>
        rw [at?, Option.bind_eq_some_iff] at h
        obtain ⟨u, hu, h⟩ := h
        rw [value_obj, Value.at?, Value.entries, member?_value, hu]
        exact ih h
      | _ => cases h
    | item n =>
      cases s with
      | arr js =>
        rw [at?, Option.bind_eq_some_iff] at h
        obtain ⟨u, hu, h⟩ := h
        rw [value_arr, Value.at?, Value.items?, Option.bind_some, List.getElem?_map, hu]
        exact ih h
      | _ => cases h

end Source

end Json

/-! ## Documents -/

/-- An interchange value with distinct text keys, instants in the calendar and no integer that is too
long, at any depth. -/
def Documented (v : Value) : Prop :=
  v.Everywhere fun w =>
    w.isPlain = true ∧ (w.entries.map (·.1)).Nodup ∧ w.isReadable = true ∧ w.isTimely = true

namespace Documented

variable {v : Value}

theorem supported (h : Documented v) : Supported v := fun w hw => (h w hw).1

theorem distinctKeys (h : Documented v) : DistinctKeys v := fun w hw => (h w hw).2.1

theorem readableIntegers (h : Documented v) : ReadableIntegers v := fun w hw => (h w hw).2.2.1

theorem inCalendar (h : Documented v) : InCalendar v := fun w hw => (h w hw).2.2.2

theorem list {vs : List Value} (h : ∀ v ∈ vs, Documented v) : Documented (.list vs) :=
  Value.everywhere_iff.mpr ⟨⟨rfl, List.nodup_nil, rfl, rfl⟩, h⟩

theorem struct {ms : List (String × Value)} (hd : (ms.map (·.1)).Nodup)
    (h : ∀ m ∈ ms, Documented m.2) :
    Documented (.struct (ms.map fun m => (.text m.1, m.2))) := by
  refine Value.everywhere_iff.mpr ⟨⟨?_, ?_, rfl, rfl⟩, fun v hv => ?_⟩
  · simp [Value.isPlain, Value.kind?, Value.entries, Key.isText]
  · exact Inference.nodup_entries hd _
  · obtain ⟨e, he, rfl⟩ := List.mem_map.mp hv
    obtain ⟨m, hm, rfl⟩ := List.mem_map.mp he
    exact h m hm

theorem alone (hc : v.children = [])
    (h : v.isPlain = true ∧ (v.entries.map (·.1)).Nodup ∧ v.isReadable = true ∧ v.isTimely = true) :
    Documented v :=
  Value.everywhere_iff.mpr ⟨h, fun _ hw => absurd (hc ▸ hw) List.not_mem_nil⟩

theorem number {l : Json.Literal} (h : l.Readable) : Documented (Json.Source.number l).value := by
  have hi := Json.Literal.isReadable_value h
  revert hi
  rw [Json.Source.value, Json.Source.tree, Json.Literal.tree, Json.fractionalNumber]
  split
  · exact fun hi => .alone rfl ⟨rfl, .nil, hi, rfl⟩
  · split
    · exact fun hi => .alone rfl ⟨rfl, .nil, hi, rfl⟩
    · split <;> exact fun hi => .alone rfl ⟨rfl, .nil, hi, rfl⟩

end Documented

namespace Documents

open Json (Source TextOf ItemsTextOf MembersTextOf)

mutual

/-- What is read from a text can be inferred from, written and read back. -/
theorem documented_value {s : Source} {cs : List Char} (h : TextOf s cs) : Documented s.value := by
  cases h with
  | number h => exact .number h
  | empty hb =>
    rw [Source.value_arr]
    exact .list (List.forall_mem_nil _)
  | arr hb h =>
    rw [Source.value_arr]
    exact .list (documented_items h)
  | bare hb =>
    rw [Source.value_obj]
    exact @Documented.struct [] .nil (List.forall_mem_nil _)
  | @obj ms _ _ hb h hd =>
    have hstruct := @Documented.struct (ms.map fun m => (m.1, m.2.value)) (by rwa [List.map_map])
      (documented_members h)
    rw [Source.value_obj]
    rwa [List.map_map] at hstruct
  | _ => exact .alone rfl ⟨rfl, .nil, rfl, rfl⟩

theorem documented_items {js : List Source} {cs : List Char} (h : ItemsTextOf js cs) :
    ∀ v ∈ js.map Source.value, Documented v := by
  cases h with
  | last h => exact List.forall_mem_singleton.mpr (documented_value h)
  | cons h _ _ hrest =>
    exact List.forall_mem_cons.mpr ⟨documented_value h, documented_items hrest⟩

theorem documented_members {ms : List (String × Source)} {cs : List Char}
    (h : MembersTextOf ms cs) : ∀ m ∈ ms.map fun m => (m.1, m.2.value), Documented m.2 := by
  cases h with
  | last _ _ _ h => exact List.forall_mem_singleton.mpr (documented_value h)
  | cons _ _ _ h _ _ hrest =>
    exact List.forall_mem_cons.mpr ⟨documented_value h, documented_members hrest⟩

end

/-- The documents of a text are structs that can be inferred from, written and read back. -/
theorem documents_documented {docs : List Source} {cs : List Char} (h : DocumentsText docs cs) :
    ∀ d ∈ docs.map Source.value, d.IsStruct ∧ Documented d := by
  have hstruct (ms : List (String × Source)) : (Source.obj ms).value.IsStruct := by
    rw [Source.value_obj]
    rfl
  cases h with
  | object h => exact List.forall_mem_singleton.mpr ⟨hstruct _, documented_value h⟩
  | array h hobj =>
    have hall := documented_value h
    rw [Source.value_arr] at hall
    intro d hd
    refine ⟨?_, hall.child hd⟩
    obtain ⟨s, hs, rfl⟩ := List.mem_map.mp hd
    obtain ⟨ms, rfl⟩ := hobj s hs
    exact hstruct ms
  | lines h =>
    induction h with
    | last h => exact List.forall_mem_singleton.mpr ⟨hstruct _, documented_value h⟩
    | cons h _ _ _ _ ih => exact List.forall_mem_cons.mpr ⟨⟨hstruct _, documented_value h⟩, ih⟩

end Documents

open Inference in
/-- Documents are inferred from, written and read back with any options that look at all of them:
what comes back is the view of every document under the inferred schema, in order. -/
theorem decode_encode_view {settings : Settings} {options : Options}
    (ho : Options.ofSettings settings = .ok options) (hrows : options.rowsToScan = 0)
    (hcodec : Container.codecs.contains settings.codec = true) {docs : List Value} (hne : docs ≠ [])
    (hd : ∀ d ∈ docs, d.IsStruct ∧ Documented d) :
    ∃ schema e d, inferSchema options docs = .ok schema ∧
      Encoder.ofSchema options schema = .ok e ∧ Decoder.ofSchema options (some schema) = .ok d ∧
      (e.encode docs).outcome = .ok docs.length ∧
      d.decode true (e.encode docs).bytes =
        Feed.ofList (docs.map (Schema.view options.altNamesKey schema)) := by
  obtain ⟨hcodecs, hmarker, hlength⟩ := ofSettings_marker ho
  have hsupported : ∀ d ∈ docs, Supported d := fun d h => (hd d h).2.supported
  have hcount : ∀ d ∈ docs, Countable d := fun d h => ⟨(hd d h).1, hsupported d h⟩
  have htidy : ((outlineOf options.typeName options.namespaceName docs).finished
      options.altNamesKey).Tidy :=
    Outline.tidy_schema (valid_of_outlined (outlined_outlineOf hsupported _ _)) _ _
  have hlayout := layout_finished hsupported options.typeName options.namespaceName
    options.altNamesKey
  have hself := checkCompatible_self htidy (check_finished hsupported _ _ _) hlayout
  obtain ⟨houtcome, hdelivers⟩ := delivers_encode htidy hlayout rfl (by rwa [hcodecs])
    (by rwa [hmarker]) rfl fun doc hdoc => decodeRecord_document
      (admits_document hcount (fun d h => (hd d h).2.distinctKeys) hdoc) hsupported
      (hd doc hdoc).2.readableIntegers (hd doc hdoc).2.inCalendar
  refine ⟨_, _, _, (inferSchema_ok_iff hrows).mpr ⟨hne, hcount, rfl⟩,
    encoder_ofSchema hsupported options, decoder_ofSchema hsupported options, houtcome,
    Decoder.documents_of_delivers _ (hdelivers _ ?_)⟩
  intro header hschema
  refine ⟨?_, fun _ _ h => h⟩
  simp only [decoderOf, Decoder.checkHeader, hschema, hself, ite_self]

namespace Documents

open Json (Source Literal TextOf Quotes blank_nil)

/-- Literals that are held exactly come back as their characters, wherever all containers around them
sit at records and arrays of the inferred schema. -/
theorem decode_literals {settings : Settings} {options : Options}
    (ho : Options.ofSettings settings = .ok options) (hrows : options.rowsToScan = 0)
    (hcodec : Container.codecs.contains settings.codec = true) {docs : List Source}
    {cs a b : List Char} (hne : docs ≠ []) (h : DocumentsText docs cs) (ha : Margin a)
    (hb : Margin b) :
    ∃ documents schema e d values,
      ofText (String.ofList (a ++ (cs ++ b))) = .ok documents ∧
      inferSchema options documents = .ok schema ∧
      Encoder.ofSchema options schema = .ok e ∧ Decoder.ofSchema options (some schema) = .ok d ∧
      (e.encode documents).outcome = .ok documents.length ∧
      d.decode true (e.encode documents).bytes = Feed.ofList values ∧
      ∀ (i : Nat) (doc : Source) (place : Place) (l : Literal), docs[i]? = some doc →
        doc.at? place = some (.number l) → l.Exact →
        Schema.Surrounds options.altNamesKey place schema →
        ∃ v, values[i]? = some v ∧ v.at? place = some (.text l.text) := by
  have hdocs := documents_documented h
  obtain ⟨schema, e, d, hinfer, he, hd, hcount, hdecode⟩ := decode_encode_view ho hrows hcodec
    (by simpa using hne) hdocs
  refine ⟨_, schema, e, d, _, ofText_documents h ha hb, hinfer, he, hd, hcount, hdecode, ?_⟩
  intro i doc place l hi hplace hl hs
  have hmem : doc.value ∈ docs.map Source.value :=
    List.mem_map_of_mem (List.mem_of_getElem? hi)
  obtain ⟨hwide, hwritten⟩ := hl.value_spec <|
    (hdocs _ hmem).2.readableIntegers.at_place (Source.value_at hplace)
  refine ⟨Schema.view options.altNamesKey schema doc.value, ?_, ?_⟩
  · rw [List.getElem?_map, List.getElem?_map, hi]
    rfl
  · rw [Inference.view_at hrows (fun v hv => (hdocs v hv).2.distinctKeys) hinfer hmem
      (Source.value_at hplace) hwide hs, hwritten]

/-- A decimal with a zero at its end, beside other scalars, and the least integer beyond 64 bits. -/
theorem decode_literals_lines :
    let text := "\x7b\"a\":[0.10,true]\x7d\n\x7b\"a\":[9223372036854775808]\x7d"
    let settings : Settings := { typeName := "Document", syncMarker := List.replicate 16 7 }
    ∃ options documents schema e d values,
      Options.ofSettings settings = .ok options ∧ ofText text = .ok documents ∧
      inferSchema options documents = .ok schema ∧
      Encoder.ofSchema options schema = .ok e ∧ Decoder.ofSchema options (some schema) = .ok d ∧
      (e.encode documents).outcome = .ok documents.length ∧
      d.decode true (e.encode documents).bytes = Feed.ofList values ∧
      (∃ v, values[0]? = some v ∧ v.at? [.key "a", .item 0] = some (.text "0.10")) ∧
      ∃ v, values[1]? = some v ∧ v.at? [.key "a", .item 0] = some (.text "9223372036854775808") := by
  intro text settings
  let tenth : Literal := ⟨false, ['0'], ['1', '0'], none, ⟨by simp, .inl rfl⟩, by simp⟩
  let large : Literal := ⟨false, ['9', '2', '2', '3', '3', '7', '2', '0', '3', '6', '8', '5', '4', '7',
    '7', '5', '8', '0', '8'], [], none, ⟨by simp, .inr ⟨_, _, rfl, by decide⟩⟩, by simp⟩
  let docs : List Source :=
    [.obj [("a", .arr [.number tenth, .bool true])], .obj [("a", .arr [.number large])]]
  have hkey : Quotes "a".toList ['a'] := .plain (by decide) (by decide) (by decide) .nil
  have hfirst : TextOf (.obj [("a", .arr [.number tenth, .bool true])]) _ :=
    .obj blank_nil (.last hkey blank_nil blank_nil (.arr blank_nil (.cons (.number nofun) blank_nil
      blank_nil (.last (.bool true) blank_nil))) blank_nil) (by decide)
  have hsecond : TextOf (.obj [("a", .arr [.number large])]) _ :=
    .obj blank_nil (.last hkey blank_nil blank_nil (.arr blank_nil
      (.last (.number fun _ => by decide) blank_nil)) blank_nil) (by decide)
  have htext : DocumentsText docs _ :=
    .lines (.cons hfirst (by decide) margin_newline List.mem_cons_self (.last hsecond (by decide)))
  have ho := ofSettings_standard "Document" "" (show (List.replicate 16 7).length = 16 by rfl)
  obtain ⟨documents, schema, e, d, values, hread, hinfer, he, hd, hcount, hdecode, hplaces⟩ :=
    decode_literals ho rfl (by decide) (List.cons_ne_nil _ _) htext margin_nil margin_nil
  have hdocuments : documents = docs.map Source.value :=
    Except.ok.inj (hread.symm.trans (ofText_documents htext margin_nil margin_nil))
  have hschema := ((Inference.inferSchema_ok_iff rfl).mp hinfer).2.2
  have hs : Schema.Surrounds "json" [.key "a", .item 0] schema := by
    rw [hschema, hdocuments]
    decide +kernel
  exact ⟨_, documents, schema, e, d, values, ho, hread, hinfer, he, hd, hcount, hdecode,
    hplaces 0 _ _ tenth rfl rfl (.inl ⟨by decide, rfl⟩) hs,
    hplaces 1 _ _ large rfl rfl (.inr ⟨rfl, by decide⟩) hs⟩

/-- A decimal of three digits behind an integer of one digit too many, which stops the reading of
both. -/
theorem ofText_long_integer :
    ofText (String.ofList ("\x7b\"b\":1".toList ++
      (List.replicate 4300 '0' ++ ",\"a\":1.50\x7d".toList))) = .error (.argument .tooManyDigits) := by
  have hzeros : ∀ c ∈ List.replicate 4300 '0', c.isDigit = true := fun c hc => by
    rw [(List.mem_replicate.mp hc).2]
    rfl
  have hwhole : Json.Whole ('1' :: List.replicate 4300 '0') :=
    ⟨List.forall_mem_cons.mpr ⟨rfl, hzeros⟩, .inr ⟨_, _, rfl, by decide⟩⟩
  let long : Literal := ⟨false, _, [], none, hwhole, List.forall_mem_nil _⟩
  have hkey : Quotes "b".toList ['b'] := .plain (by decide) (by decide) (by decide) .nil
  have hlong : Json.digitLimit < long.whole.length := by
    rw [List.length_cons, List.length_replicate]
    decide
  have hrest : Json.Delimited (",\"a\":1.50".toList ++ ['\x7d']) := by
    intro c hc
    obtain rfl := Option.mem_some.mp hc
    decide
  have hread := ofText_tooManyDigits hkey rfl hlong hrest
  have hchars : long.chars = '1' :: List.replicate 4300 '0' := Literal.chars_natural hwhole
  rw [hchars] at hread
  exact hread

end Documents
end AvroDocument
