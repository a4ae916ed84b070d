import AvroDocument.Proofs.DecimalFields

/-!
# AvroDocument.Proofs.Identifiers

Identifiers that are written as texts and read back.

* `Binary.identifier?_canonical`: the canonical text of an identifier spells the same identifier.
* `encodeRecord_identifier`: any text is written at a field of identifiers. It is read back, as a text of
  the same identifier, when it spells one, and is not read at all when it spells none.
-/

namespace AvroDocument
namespace Binary

/-! ## Hexadecimal digits -/

/-- A hexadecimal digit as it is written. -/
def IsHexDigit (c : Char) : Prop := ∃ d < 16, c = d.digitChar

theorem hexDigit?_digitChar {d : Nat} (h : d < 16) : hexDigit? d.digitChar = some d := by
  have hall : ∀ d < 16, hexDigit? d.digitChar = some d := by decide
  exact hall d h

/-- No digit is a hyphen, an underscore, a sign, a brace, a blank or part of a mark. -/
theorem IsHexDigit.other {c : Char} (h : IsHexDigit c) :
    c ≠ '-' ∧ c ≠ '_' ∧ c ≠ '+' ∧ c ≠ 'x' ∧ c ≠ 'X' ∧ c ≠ 'u' ∧ isBrace c = false ∧
      Text.isSpace c = false := by
  obtain ⟨d, hd, rfl⟩ := h
  revert d
  decide

theorem IsHexDigit.isSome {c : Char} (h : IsHexDigit c) : (hexDigit? c).isSome = true := by
  obtain ⟨d, hd, rfl⟩ := h
  rw [hexDigit?_digitChar hd]
  rfl

theorem hexValue_append (cs : List Char) (c : Char) :
    hexValue (cs ++ [c]) = hexValue cs * 16 + (hexDigit? c).getD 0 := by
  simp [hexValue]

theorem toDigits_hex (n : Nat) :
    (∀ c ∈ Nat.toDigits 16 n, IsHexDigit c) ∧ hexValue (Nat.toDigits 16 n) = n := by
  induction n using Nat.strongRecOn with
  | ind n ih =>
    rw [Nat.toDigits_eq_if (by decide)]
    split
    · rename_i hlt
      refine ⟨fun c hc => ⟨n, hlt, List.mem_singleton.mp hc⟩, ?_⟩
      simp [hexValue, hexDigit?_digitChar hlt]
    · obtain ⟨hdigits, hvalue⟩ := ih (n / 16) (by omega)
      have hlast : n % 16 < 16 := Nat.mod_lt _ (by decide)
      refine ⟨fun c hc => ?_, ?_⟩
      · obtain hc | hc := List.mem_append.mp hc
        · exact hdigits c hc
        · exact ⟨_, hlast, List.mem_singleton.mp hc⟩
      · rw [hexValue_append, hvalue, hexDigit?_digitChar hlast, Option.getD_some]
        omega

/-- Zeros in front do not count. -/
theorem hexValue_zeros (count : Nat) (cs : List Char) :
    hexValue (List.replicate count '0' ++ cs) = hexValue cs := by
  induction count with
  | zero => rfl
  | succ count ih => exact ih

theorem hexDigit?_lt {c : Char} {d : Nat} (h : hexDigit? c = some d) : d < 16 := by
  unfold hexDigit? at h
  cases hdigit : Text.digitValue? c with
  | some e =>
    rw [hdigit] at h
    cases h
    simp only [Text.digitValue?, Option.map_eq_some_iff] at hdigit
    obtain ⟨z, hz, rfl⟩ := hdigit
    have := List.find?_some hz
    simp only [Bool.and_eq_true, decide_eq_true_eq] at this
    omega
  | none =>
    rw [hdigit] at h
    have hvalue : Json.hexValue? c = some d := h
    unfold Json.hexValue? at hvalue
    simp only [Bool.and_eq_true, decide_eq_true_eq, Char.le_def, UInt32.le_iff_toNat_le] at hvalue
    split at hvalue
    · cases hvalue
      rename_i hc
      obtain ⟨-, hc⟩ := hc
      have : c.toNat ≤ 57 := hc
      omega
    · split at hvalue
      · cases hvalue
        rename_i hc
        obtain ⟨-, hc⟩ := hc
        have : c.toNat ≤ 102 := hc
        omega
      · split at hvalue
        · cases hvalue
          rename_i hc
          obtain ⟨-, hc⟩ := hc
          have : c.toNat ≤ 70 := hc
          omega
        · cases hvalue

theorem hexValue_lt (cs : List Char) : hexValue cs < 16 ^ cs.length := by
  induction cs using List.reverseRecOn with
  | nil => decide
  | append_singleton cs c ih =>
    have hlast : (hexDigit? c).getD 0 < 16 := by
      cases hc : hexDigit? c with
      | none => decide
      | some d => exact hexDigit?_lt hc
    rw [hexValue_append, List.length_append, List.length_singleton, Nat.pow_succ]
    omega

/-! ## Canonical texts -/

/-- A word whose first character does not occur is not dropped. -/
theorem dropWord_of_not_mem {first : Char} {word cs : List Char} (h : first ∉ cs) :
    dropWord (first :: word) 0 cs = cs := by
  induction cs with
  | nil => rfl
  | cons c cs ih =>
    obtain ⟨hc, hcs⟩ := not_or.mp fun hmem => h (List.mem_cons.mpr hmem)
    rw [dropWord, List.isPrefixOf, beq_false_of_ne hc, Bool.false_and, if_neg Bool.false_ne_true,
      ih hcs]

theorem dropWhile_of_not {p : Char → Bool} {cs : List Char} (h : ∀ c ∈ cs, p c = false) :
    cs.dropWhile p = cs := by
  cases cs with
  | nil => rfl
  | cons c cs => rw [List.dropWhile_cons_of_neg (by simp [h c List.mem_cons_self])]

theorem trimBy_of_not {p : Char → Bool} {cs : List Char} (h : ∀ c ∈ cs, p c = false) :
    Text.trimBy p cs = cs := by
  rw [Text.trimBy, dropWhile_of_not h,
    dropWhile_of_not fun c hc => h c (List.mem_reverse.mp hc), List.reverse_reverse]

theorem filter_of_ne {d : Char} {cs : List Char} (h : ∀ c ∈ cs, c ≠ d) :
    cs.filter (· ≠ d) = cs :=
  List.filter_eq_self.mpr fun c hc => decide_eq_true (h c hc)

theorem separated_digits {last : Char} {cs : List Char} (hlast : last ≠ '_')
    (h : ∀ c ∈ cs, c ≠ '_') : wellGrouped.separated last cs = true := by
  induction cs generalizing last with
  | nil => simpa [wellGrouped.separated] using hlast
  | cons c cs ih =>
    have hc := h c List.mem_cons_self
    simp [wellGrouped.separated, hlast, ih hc fun d hd => h d (List.mem_cons_of_mem _ hd)]

/-- Digits spell their value. -/
theorem hexNumber?_digits {cs : List Char} (hne : cs ≠ []) (h : ∀ c ∈ cs, IsHexDigit c) :
    hexNumber? cs = some (hexValue cs) := by
  have hspace : Text.trimSpace cs = cs := trimBy_of_not fun c hc => (h c hc).other.2.2.2.2.2.2.2
  have hsign : Text.splitSign cs = (false, cs) := by
    unfold Text.splitSign
    split
    · exact absurd rfl (h _ List.mem_cons_self).other.1
    · exact absurd rfl (h _ List.mem_cons_self).other.2.2.1
    · rfl
  have hmark : dropMark cs = cs := by
    have hx (c : Char) (hc : c ∈ cs) := (h c hc).other.2.2.2.1
    have hX (c : Char) (hc : c ∈ cs) := (h c hc).other.2.2.2.2.1
    unfold dropMark
    split
    · exact absurd rfl (hx _ (by simp))
    · exact absurd rfl (hX _ (by simp))
    · exact absurd rfl (hx _ (by simp))
    · exact absurd rfl (hX _ (by simp))
    · rfl
  have hunderscore (c : Char) (hc : c ∈ cs) : c ≠ '_' := (h c hc).other.2.1
  have hgrouped : wellGrouped cs = true := by
    unfold wellGrouped
    split
    · rfl
    · exact absurd rfl (hunderscore _ List.mem_cons_self)
    · exact separated_digits (hunderscore _ List.mem_cons_self)
        fun c hc => hunderscore c (List.mem_cons_of_mem _ hc)
  have hall : cs.all (fun c => (hexDigit? c).isSome) = true :=
    List.all_eq_true.mpr fun c hc => (h c hc).isSome
  unfold hexNumber?
  simp only [hspace, hsign, hmark, filter_of_ne hunderscore, hgrouped, hall, Bool.false_and,
    List.isEmpty_eq_false_iff.mpr hne, Bool.not_true, Bool.or_self, Bool.false_eq_true, if_false]

/-- What spells a number has a digit for each of its places. -/
theorem hexNumber?_lt {cs : List Char} {n : Nat} (h : hexNumber? cs = some n) :
    n < 16 ^ cs.length := by
  have htrim : (Text.trimSpace cs).length ≤ cs.length := by
    unfold Text.trimSpace Text.trimBy
    rw [List.length_reverse]
    refine (List.length_dropWhile_le _ _).trans ?_
    rw [List.length_reverse]
    exact List.length_dropWhile_le _ _
  have hsign (cs : List Char) : (Text.splitSign cs).2.length ≤ cs.length := by
    unfold Text.splitSign
    split <;> simp
  have hmark (cs : List Char) : (dropMark cs).length ≤ cs.length := by
    unfold dropMark
    split
    · exact Nat.le_add_right _ 3
    · exact Nat.le_add_right _ 3
    · exact Nat.le_add_right _ 2
    · exact Nat.le_add_right _ 2
    · exact Nat.le_refl _
  unfold hexNumber? at h
  have hbody := hsign (Text.trimSpace cs)
  generalize Text.splitSign (Text.trimSpace cs) = signed at h hbody
  obtain ⟨negative, body⟩ := signed
  simp only at h
  split at h
  · cases h
  split at h
  · cases h
  obtain rfl := Option.some.inj h
  refine (hexValue_lt _).trans_le (Nat.pow_le_pow_right (by decide) ?_)
  exact (List.length_filter_le _ _).trans ((hmark _).trans (hbody.trans htrim))

/-- The digits of a number of 128 bits. -/
def identifierDigits (n : Nat) : List Char := (Text.hexText 32 n).toList

theorem identifierDigits_spec {n : Nat} (h : n < 16 ^ 32) :
    (identifierDigits n).length = 32 ∧ (∀ c ∈ identifierDigits n, IsHexDigit c) ∧
      hexValue (identifierDigits n) = n := by
  have hlength := Nat.toDigits_length 16 n 32 (by decide) h
  obtain ⟨hdigits, hvalue⟩ := toDigits_hex n
  rw [identifierDigits, Text.hexText, String.toList_ofList]
  refine ⟨?_, fun c hc => ?_, ?_⟩
  · rw [List.length_append, List.length_replicate]
    omega
  · obtain hc | hc := List.mem_append.mp hc
    · exact ⟨0, by decide, (List.mem_replicate.mp hc).2⟩
    · exact hdigits c hc
  · rw [hexValue_zeros, hvalue]

/-- The digits of a canonical text are grouped, and otherwise as they are. -/
theorem toList_identifierText (n : Nat) :
    (identifierText n).toList =
      (identifierDigits n).take 8 ++ '-' :: (((identifierDigits n).drop 8).take 4 ++
        '-' :: (((identifierDigits n).drop 12).take 4 ++
          '-' :: (((identifierDigits n).drop 16).take 4 ++
            '-' :: ((identifierDigits n).drop 20).take 12))) := by
  have hjoin (a b c d e : String) : String.intercalate "-" [a, b, c, d, e] =
      a ++ "-" ++ b ++ "-" ++ c ++ "-" ++ d ++ "-" ++ e := rfl
  simp [identifierText, identifierDigits, hjoin]

theorem identifierChars_text {n : Nat} (h : n < 16 ^ 32) :
    identifierChars (identifierText n).toList = identifierDigits n := by
  obtain ⟨hlength, hdigits, -⟩ := identifierDigits_spec h
  have hhyphen (i k : Nat) : (((identifierDigits n).drop i).take k).filter (· ≠ '-') =
      ((identifierDigits n).drop i).take k :=
    filter_of_ne fun c hc => (hdigits c (List.mem_of_mem_drop (List.mem_of_mem_take hc))).other.1
  have hchars : ∀ c ∈ (identifierText n).toList, IsHexDigit c ∨ c = '-' := by
    intro c hc
    rw [toList_identifierText] at hc
    simp only [List.mem_append, List.mem_cons] at hc
    have hgroup {i k : Nat} (hc : c ∈ ((identifierDigits n).drop i).take k) : IsHexDigit c :=
      hdigits c (List.mem_of_mem_drop (List.mem_of_mem_take hc))
    obtain hc | rfl | hc | rfl | hc | rfl | hc | rfl | hc := hc
    · exact .inl (hgroup (i := 0) (by rwa [List.drop_zero]))
    all_goals first
      | exact .inr rfl
      | exact .inl (hgroup hc)
  have hu : 'u' ∉ (identifierText n).toList := fun hmem =>
    (hchars _ hmem).elim (fun hc => hc.other.2.2.2.2.2.1 rfl) (by decide)
  have hbrace : ∀ c ∈ (identifierText n).toList, isBrace c = false := fun c hc =>
    (hchars c hc).elim (fun hc => hc.other.2.2.2.2.2.2.1) (fun hc => by subst hc; decide)
  have hfirst := hhyphen 0 8
  rw [List.drop_zero] at hfirst
  have hjoin : identifierDigits n = (identifierDigits n).take 8 ++
      (((identifierDigits n).drop 8).take 4 ++ (((identifierDigits n).drop 12).take 4 ++
        (((identifierDigits n).drop 16).take 4 ++ ((identifierDigits n).drop 20).take 12))) := by
    have hlast : ((identifierDigits n).drop 20).take 12 = (identifierDigits n).drop 20 :=
      List.take_of_length_le (by rw [List.length_drop, hlength])
    have hsplit (i k : Nat) : ((identifierDigits n).drop i).take k ++ (identifierDigits n).drop (i + k) =
        (identifierDigits n).drop i := by
      rw [← List.drop_drop, List.take_append_drop]
    rw [hlast, hsplit 16 4, hsplit 12 4, hsplit 8 4, List.take_append_drop]
  show (Text.trimBy isBrace (dropWord ['u', 'u', 'i', 'd', ':'] 0
    (dropWord ['u', 'r', 'n', ':'] 0 (identifierText n).toList))).filter (· ≠ '-') = _
  rw [dropWord_of_not_mem hu, dropWord_of_not_mem hu, trimBy_of_not hbrace, toList_identifierText]
  simp only [List.filter_append, List.filter_cons, hhyphen, hfirst, ne_eq, not_true, decide_false,
    Bool.false_eq_true, if_false]
  exact hjoin.symm

/-- The canonical text of an identifier spells the same identifier. -/
theorem identifier?_canonical {s canonical : String} (h : identifier? s = some canonical) :
    identifier? canonical = some canonical := by
  unfold identifier? at h
  simp only [ne_eq, ite_not] at h
  split at h
  swap
  · cases h
  rename_i hlength
  obtain ⟨n, hn, rfl⟩ := Option.map_eq_some_iff.mp h
  have hlt := hexNumber?_lt hn
  rw [hlength] at hlt
  obtain ⟨hlength, hdigits, hvalue⟩ := identifierDigits_spec hlt
  have hnumber : hexNumber? (identifierDigits n) = some n := by
    rw [hexNumber?_digits (List.ne_nil_of_length_pos (by omega)) hdigits, hvalue]
  unfold identifier?
  simp only [identifierChars_text hlt, hlength, hnumber]
  rfl

example : identifier? "\x7b00112233-4455-6677-8899-AABBCCDDEEFF\x7d" =
    some "00112233-4455-6677-8899-aabbccddeeff" := by decide +kernel

/-! ## The layout of identifiers -/

variable {s canonical : String}

theorem readPlain_text (s : String) (rest : List UInt8) :
    readPlain .string (writeText s ++ rest) = .ok (.text s, rest) := by
  rw [readPlain, readText_writeText]
  rfl

/-- The bytes of a text hold the identifier that it spells. -/
theorem reads_identifier (h : identifier? s = some canonical) :
    Reads (.primitive .string (some .uuid)) (writeText s) (.uuid canonical) :=
  reads_primitive (readPlain_text s) (by rw [wrap, h]; rfl)

/-- The bytes of a text that spells no identifier are used up, and not read. -/
theorem read_unidentified (h : identifier? s = none) (name field : String) :
    read (.record name [(field, none, .primitive .string (some .uuid))]) (writeText s) =
      .error [] := by
  have htext := readPlain_text s []
  rw [List.append_nil] at htext
  have hwrap : wrap (some .uuid) (.text s) = none := by
    rw [wrap, h]
    rfl
  rw [read, readDatum, readFields, readDatum, htext]
  simp only [hwrap]
  rfl

end Binary

/-! ## Fields of identifiers -/

section identifiers

open Schema (oneField)
open Binary (identifier? writeText)

/-- A node of identifiers. -/
structure Schema.IsIdentifier (ms : List (String × Json)) : Prop where
  kind : typeName (.obj ms) = "string"
  logical : logicalName? (.obj ms) = some "uuid"

variable {options options' : Options} {record field : String} {ms : List (String × Json)}

theorem Schema.IsIdentifier.meaning (h : Schema.IsIdentifier ms) :
    Layout.meaning? .string ms = some .uuid := by
  unfold Layout.meaning?
  rw [h.logical]
  rfl

/-- A text at a field of identifiers is written whatever it is. It is read back, as a text of the same
identifier, when it spells one; when it spells none its bytes cannot be read. -/
theorem encodeRecord_identifier {e : Encoder} {d : Decoder} (hnode : Schema.IsIdentifier ms)
    (he : Encoder.ofSchema options (oneField record field (.obj ms)) = .ok e)
    (hd : Decoder.ofSchema options' (some (oneField record field (.obj ms))) = .ok d) (s : String) :
    e.encodeRecord (.struct [(.text field, .text s)]) = .ok (writeText s) ∧
    (∀ canonical, identifier? s = some canonical → identifier? canonical = some canonical ∧
      d.decodeRecord (writeText s) = .ok (.struct [(.text field, .text canonical)])) ∧
    (identifier? s = none →
      d.decodeRecord (writeText s) = .error (.decoding (writeText s).length .badRecord)) := by
  have hprimitive : Primitive.ofName? (Schema.typeName (.obj ms)) = some .string := by
    rw [hnode.kind]
    rfl
  refine ⟨?_, fun canonical hs => ⟨Binary.identifier?_canonical hs, ?_⟩, fun hs => ?_⟩
  · obtain ⟨-, -, -, name, hlayout⟩ := Encoder.oneField_parts he hprimitive
    have hprepare := Encoder.prepare_oneField he hprimitive (v := .text s) Value.noConfusion
    rw [coerce_string hnode.kind] at hprepare
    have hwrite : Binary.write e.layout (.struct [(.text field, .text s)]) = .ok (writeText s) := by
      rw [hlayout, Binary.write_oneField, hnode.meaning]
      rfl
    rw [Encoder.encodeRecord, hprepare]
    simp only [Except.map, Encoder.writeDatum, hwrite]
  · refine Decoder.decodeRecord_oneField hd hprimitive (v := .uuid canonical) Value.noConfusion ?_
      (coerce_string hnode.kind canonical)
    rw [hnode.meaning]
    exact Binary.reads_identifier hs
  · obtain ⟨layout, -, hlayout, -, rfl⟩ := Decoder.ofSchema_parts hd
    have hread := Binary.read_unidentified hs (Schema.fullName (oneField record field (.obj ms)) "")
      field
    rw [← hnode.meaning, ← Schema.layout_oneField hprimitive hlayout] at hread
    simp only [Decoder.decodeRecord, Decoder.recordResult, hread, Nat.zero_add, List.length_nil,
      Nat.sub_zero]

/-- A greeting is written at a field of identifiers, and cannot be read. -/
theorem encodeRecord_identifier_greeting :
    let type : Json := .obj [("type", .str "string"), ("logicalType", .str "uuid")]
    let options := Options.standard "R" "" (List.replicate 16 7)
    ∃ e d, Encoder.ofSchema options (oneField "R" "x" type) = .ok e ∧
      Decoder.ofSchema options (some (oneField "R" "x" type)) = .ok d ∧
      e.encodeRecord (.struct [(.text "x", .text "hello")]) = .ok (writeText "hello") ∧
      d.decodeRecord (writeText "hello") = .error (.decoding 6 .badRecord) := by
  intro type options
  let schema := oneField "R" "x" type
  let layout : Layout := .record "R" [("x", none, .primitive .string (some .uuid))]
  have hlayout : Layout.ofSchema schema = .ok layout := by decide +kernel
  have hcheck : Schema.check schema = .ok (Schema.Registry.ofSchema schema) := by decide +kernel
  have he : Encoder.ofSchema options schema =
      .ok ⟨schema, Schema.Registry.ofSchema schema, layout, options⟩ :=
    Encoder.ofSchema_eq _ hcheck hlayout
  have hd : Decoder.ofSchema options (some schema) =
      .ok ⟨some (schema, Schema.Registry.ofSchema schema, layout), options⟩ :=
    Decoder.ofSchema_eq _ hcheck hlayout
  have hlength : (writeText "hello").length = 6 := by decide +kernel
  obtain ⟨hwritten, -, hunread⟩ := encodeRecord_identifier ⟨rfl, rfl⟩ he hd "hello"
  rw [hlength] at hunread
  exact ⟨_, _, he, hd, hwritten, hunread (by decide +kernel)⟩

end identifiers

end AvroDocument
