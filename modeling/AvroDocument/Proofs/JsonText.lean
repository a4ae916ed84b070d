import AvroDocument.Proofs.Grammar
import AvroDocument.Proofs.NumberText
import AvroDocument.Proofs.Trees

/-!
# AvroDocument.Proofs.JsonText

Trees come back from their text.

* `Json.Writable`, `Json.reread`: trees that have a text, and what is read from it.
* `Json.exists_source`: the text of a tree is the text of a source, which is read as that.
* `Json.newline_not_mem_text`: the text of a tree stands on one line.
* `Json.read_text`: tidy trees are read back from their text as floating point numbers are.
-/

namespace AvroDocument
namespace Json

/-! ## Escapes -/

/-- The four hexadecimal digits of a 16-bit unit. -/
def unitDigits (n : Nat) : List Char :=
  [(n / 4096).digitChar, (n / 256 % 16).digitChar, (n / 16 % 16).digitChar, (n % 16).digitChar]

theorem hexText_unit {n : Nat} (h : n < 65536) : (Text.hexText 4 n).toList = unitDigits n := by
  have h16 : 1 < 16 := by decide
  rw [Text.hexText, String.toList_ofList, unitDigits, Nat.toDigits_eq_if h16]
  by_cases h1 : n < 16
  · rw [if_pos h1, Nat.div_eq_of_lt (show n < 4096 by omega),
      Nat.div_eq_of_lt (show n < 256 by omega), Nat.div_eq_of_lt h1, Nat.mod_eq_of_lt h1]
    rfl
  rw [if_neg h1, Nat.toDigits_eq_if h16]
  by_cases h2 : n / 16 < 16
  · rw [if_pos h2, Nat.div_eq_of_lt (show n < 4096 by omega),
      Nat.div_eq_of_lt (show n < 256 by omega), Nat.mod_eq_of_lt h2]
    rfl
  rw [if_neg h2, Nat.toDigits_eq_if h16, Nat.div_div_eq_div_mul]
  by_cases h3 : n / (16 * 16) < 16
  · rw [if_pos h3, Nat.div_eq_of_lt (show n < 4096 by omega), Nat.mod_eq_of_lt h3]
    rfl
  rw [if_neg h3, Nat.div_div_eq_div_mul, Nat.toDigits_of_lt_base (by omega)]
  rfl

theorem hexValue?_digitChar {d : Nat} (h : d < 16) : hexValue? d.digitChar = some d := by
  have hall : ∀ d < 16, hexValue? d.digitChar = some d := by decide
  exact hall d h

theorem hexUnit?_unitDigits {n : Nat} (h : n < 65536) :
    hexUnit? (n / 4096).digitChar (n / 256 % 16).digitChar (n / 16 % 16).digitChar
      (n % 16).digitChar = some n := by
  rw [hexUnit?, hexValue?_digitChar (by omega), hexValue?_digitChar (by omega),
    hexValue?_digitChar (by omega), hexValue?_digitChar (by omega)]
  simp only [Option.some.injEq]
  omega

theorem unitEscape_chars {n : Nat} (h : n < 65536) :
    (unitEscape n).toList = '\\' :: 'u' :: unitDigits n := by
  rw [unitEscape, String.toList_append, hexText_unit h]
  rfl

theorem toNat_cases (c : Char) :
    c.toNat < 0xD800 ∨ 0xDFFF < c.toNat ∧ c.toNat < 0x110000 := c.valid

variable {s cs : List Char}

/-- An escape of a unit that is no half of a pair stands for the character of the unit. -/
theorem quotes_unit (h : Quotes s cs) {n : Nat} (hn : n < 0xD800 ∨ 0xDFFF < n) (hlt : n < 65536) :
    Quotes (Char.ofNat n :: s) ((unitEscape n).toList ++ cs) := by
  have hhigh : isHighUnit n = false := by
    unfold isHighUnit
    simp only [Bool.and_eq_false_iff, decide_eq_false_iff_not]
    omega
  have hlow : isLowUnit n = false := by
    unfold isLowUnit
    simp only [Bool.and_eq_false_iff, decide_eq_false_iff_not]
    omega
  rw [unitEscape_chars hlt]
  exact .unit (hexUnit?_unitDigits hlt) hhigh hlow h

/-- Escapes of both halves of a pair stand for one character. -/
theorem quotes_pair (h : Quotes s cs) {high low : Nat} (hh : 0xD800 ≤ high ∧ high ≤ 0xDBFF)
    (hl : 0xDC00 ≤ low ∧ low ≤ 0xDFFF) :
    Quotes (pairChar high low :: s) ((unitEscape high).toList ++ ((unitEscape low).toList ++ cs)) := by
  have hhigh : isHighUnit high = true := by
    unfold isHighUnit
    simp only [Bool.and_eq_true, decide_eq_true_eq]
    omega
  have hlow : isLowUnit low = true := by
    unfold isLowUnit
    simp only [Bool.and_eq_true, decide_eq_true_eq]
    omega
  rw [unitEscape_chars (show high < 65536 by omega), unitEscape_chars (show low < 65536 by omega)]
  exact .pair (hexUnit?_unitDigits (by omega)) hhigh (hexUnit?_unitDigits (by omega)) hlow h

/-! ## Strings -/

/-- What is written for a character: an escape of one letter, of one unit or of two, or itself. -/
inductive CharWritten (c : Char) : String → Prop
  | escape {e : Char} (h : simpleEscape? e = some c) : CharWritten c (String.ofList ['\\', e])
  | unit (h : c.toNat < 65536) : CharWritten c (unitEscape c.toNat)
  | pair (h : 65536 ≤ c.toNat) :
    CharWritten c (unitEscape (0xD800 + (c.toNat - 0x10000) / 0x400) ++
      unitEscape (0xDC00 + (c.toNat - 0x10000) % 0x400))
  | plain (h : 32 ≤ c.toNat) (hquote : c ≠ '"') (hback : c ≠ '\\') :
    CharWritten c (String.singleton c)

theorem charWritten (asciiOnly : Bool) (c : Char) : CharWritten c (charText asciiOnly c) := by
  unfold charText
  by_cases hquote : c = '"'
  · exact if_pos hquote ▸ hquote ▸ .escape (e := '"') rfl
  rw [if_neg hquote]
  by_cases hback : c = '\\'
  · exact if_pos hback ▸ hback ▸ .escape (e := '\\') rfl
  rw [if_neg hback]
  by_cases hc : c = '\n'
  · exact if_pos hc ▸ hc ▸ .escape (e := 'n') rfl
  rw [if_neg hc]
  by_cases hc : c = '\r'
  · exact if_pos hc ▸ hc ▸ .escape (e := 'r') rfl
  rw [if_neg hc]
  by_cases hc : c = '\t'
  · exact if_pos hc ▸ hc ▸ .escape (e := 't') rfl
  rw [if_neg hc]
  by_cases hc : c = '\x08'
  · exact if_pos hc ▸ hc ▸ .escape (e := 'b') rfl
  rw [if_neg hc]
  by_cases hc : c = '\x0c'
  · exact if_pos hc ▸ hc ▸ .escape (e := 'f') rfl
  rw [if_neg hc]
  split
  · exact .unit (by omega)
  · split
    · split
      · exact .unit ‹_›
      · exact .pair (by omega)
    · exact .plain (by omega) hquote hback

/-- What is written for a character stands for it. -/
theorem quotes_char (asciiOnly : Bool) (c : Char) (h : Quotes s cs) :
    Quotes (c :: s) ((charText asciiOnly c).toList ++ cs) := by
  have hvalid := toNat_cases c
  have hwritten := charWritten asciiOnly c
  generalize charText asciiOnly c = written at hwritten ⊢
  cases hwritten with
  | escape hc =>
    rw [String.toList_ofList]
    exact .escape hc h
  | unit hc =>
    have hread := quotes_unit h (n := c.toNat) (by omega) hc
    rwa [Char.ofNat_toNat] at hread
  | pair hc =>
    have hsum : 0x10000 + (0xD800 + (c.toNat - 0x10000) / 0x400 - 0xD800) * 0x400 +
        (0xDC00 + (c.toNat - 0x10000) % 0x400 - 0xDC00) = c.toNat := by omega
    have hread := @quotes_pair _ _ h (0xD800 + (c.toNat - 0x10000) / 0x400)
      (0xDC00 + (c.toNat - 0x10000) % 0x400) (by omega) (by omega)
    rw [pairChar, hsum, Char.ofNat_toNat] at hread
    rw [String.toList_append, List.append_assoc]
    exact hread
  | plain hc hquote hback =>
    rw [String.toList_singleton]
    exact .plain hc hquote hback h

theorem quotes_chars (asciiOnly : Bool) (s : List Char) :
    Quotes s (String.join (s.map (charText asciiOnly))).toList := by
  induction s with
  | nil => exact .nil
  | cons c s ih =>
    rw [List.map_cons, String.join_cons, String.toList_append]
    exact quotes_char asciiOnly c ih

theorem stringText_chars (asciiOnly : Bool) (s : String) : (stringText asciiOnly s).toList =
    '"' :: ((String.join (s.toList.map (charText asciiOnly))).toList ++ ['"']) := by
  rw [stringText, String.toList_append, String.toList_append]
  rfl

/-! ## Numbers -/

/-- The literal that an integer is written as. -/
def Literal.ofInt (n : Int) : Literal where
  negative := decide (n < 0)
  whole := Nat.toDigits 10 n.natAbs
  fraction := []
  exponent := none
  isWhole := whole_toDigits n.natAbs
  isFraction := List.forall_mem_nil _

theorem Literal.chars_ofInt (n : Int) : (Literal.ofInt n).chars = (toString n).toList := by
  rw [toString_int, Literal.chars]
  simp [Literal.ofInt, fractionChars, exponentPart]

theorem Literal.tree_ofInt (style : NumberStyle) (n : Int) :
    (Literal.ofInt n).tree style = .int n := by
  rw [Literal.tree, if_pos (show (Literal.ofInt n).isInteger = true from rfl), Literal.value]
  simp only [Literal.ofInt, Text.digitsValue_toDigits, decide_eq_true_eq, Json.int.injEq]
  split <;> omega

/-- Whether the text of a number has an exponent. -/
def hasExponent (cs : List Char) : Bool := cs.any fun c => c = 'e' || c = 'E'

/-- What a floating point number is read back as: the one NaN that its word stands for, and with
exact numbers the decimal that its text spells when there is no exponent in it. -/
def readFloat (style : NumberStyle) (x : Binary64) : Json :=
  if x.isNaN then .float (Binary64.nan false)
  else if x.isInfinite || style = .floating || hasExponent x.text.toList then .float x
  else .decimal (Decimal.ofBinary64 x)

/-- The decimal of a finite number is the numeral that its text spells. -/
theorem ofBinary64_text {x : Binary64} (hnan : x.isNaN = false) (hinf : x.isInfinite = false)
    {n : Text.Numeral} (h : Text.Numeral.read? x.text.toList = some n) :
    Decimal.ofBinary64 x = .finite n.negative n.coefficient n.exponent := by
  rw [Decimal.ofBinary64, if_neg (by simp [hnan]), if_neg (by simp [hinf])]
  split
  · rename_i hzero
    rw [text_finite hnan hinf, if_pos hzero] at h
    cases hnegative : x.isNegative with
    | true | false =>
      rw [hnegative] at h
      obtain rfl : _ = n := Option.some.inj h
      rfl
  · rw [h]

/-- The literal of a finite number is read as the number, or as the decimal that it spells. -/
theorem tree_of_text {x : Binary64} (hnan : x.isNaN = false) (hinf : x.isInfinite = false)
    {l : Literal} (hl : l.chars = x.text.toList) (hinteger : l.isInteger = false)
    (style : NumberStyle) : l.tree style = readFloat style x := by
  have hreadable : l.Readable := fun h => absurd (hinteger.symm.trans h) Bool.false_ne_true
  have hfloating : l.tree .floating = .float x := by
    have hliteral := @readNumber_literal [] .floating l hreadable delimited_nil
    rw [hl, readNumber_float hnan hinf delimited_nil] at hliteral
    exact (Prod.mk.inj (Except.ok.inj hliteral)).1.symm
  rw [readFloat, hnan, hinf, if_neg Bool.false_ne_true, Bool.false_or]
  cases style with
  | floating => exact hfloating
  | exact =>
    rw [Literal.tree, if_neg (by simp [hinteger]), fractionalNumber, hl] at hfloating ⊢
    cases hnumeral : Text.Numeral.read? x.text.toList with
    | none =>
      rw [hnumeral] at hfloating
      cases hfloating
    | some n =>
      rw [hnumeral] at hfloating
      obtain rfl : Binary64.ofNumeral n = x := by simpa using hfloating
      rw [ofBinary64_text hnan hinf hnumeral, hasExponent]
      cases (Binary64.ofNumeral n).text.toList.any fun c => c = 'e' || c = 'E' <;> rfl

/-! ## Trees -/

/-- A tree that has a text: no exact numbers, no object that holds a key twice, and no integers that
are too long to be read. -/
inductive Writable : Json → Prop
  | null : Writable .null
  | bool (b : Bool) : Writable (.bool b)
  | int (n : Int) (h : Binary64.digitCount n.natAbs ≤ digitLimit) : Writable (.int n)
  | float (x : Binary64) : Writable (.float x)
  | str (s : String) : Writable (.str s)
  | arr {js : List Json} (h : ∀ j ∈ js, Writable j) : Writable (.arr js)
  | obj {ms : List (String × Json)} (hd : (ms.map (·.1)).Nodup) (h : ∀ m ∈ ms, Writable m.2) :
    Writable (.obj ms)

theorem Tidy.writable {j : Json} (h : j.Tidy) : j.Writable := by
  induction h with
  | null => exact .null
  | bool b => exact .bool b
  | int n hn => exact .int n hn
  | float x => exact .float x
  | str s => exact .str s
  | arr _ ih => exact .arr ih
  | obj hd _ ih => exact .obj hd ih

mutual

/-- What is read from the text of a tree. -/
def reread (style : NumberStyle) : Json → Json
  | float x => readFloat style x
  | arr js => arr (rereadItems style js)
  | obj ms => obj (rereadMembers style ms)
  | j => j

def rereadItems (style : NumberStyle) : List Json → List Json
  | [] => []
  | j :: js => reread style j :: rereadItems style js

def rereadMembers (style : NumberStyle) : List (String × Json) → List (String × Json)
  | [] => []
  | (key, j) :: ms => (key, reread style j) :: rereadMembers style ms

end

theorem rereadItems_eq (style : NumberStyle) (js : List Json) :
    rereadItems style js = js.map (reread style) := by
  induction js with
  | nil => rfl
  | cons j js ih => rw [rereadItems, ih, List.map_cons]

theorem rereadMembers_eq (style : NumberStyle) (ms : List (String × Json)) :
    rereadMembers style ms = ms.map fun m => (m.1, m.2.reread style) := by
  induction ms with
  | nil => rfl
  | cons m ms ih =>
    obtain ⟨key, j⟩ := m
    rw [rereadMembers, ih, List.map_cons]

/-- Tidy trees are read as they are. -/
theorem Tidy.reread_floating {j : Json} (h : j.Tidy) : j.reread .floating = j := by
  induction h with
  | float x hx =>
    rw [reread, readFloat]
    split
    · rename_i hnan
      rw [hx hnan]
    · simp
  | @arr js _ ih => rw [reread, rereadItems_eq, List.map_congr_left ih, List.map_id']
  | @obj ms _ _ ih =>
    rw [reread, rereadMembers_eq, List.map_congr_left (g := id), List.map_id]
    exact fun m hm => Prod.ext rfl (ih m hm)
  | _ => rw [reread] <;> intros <;> contradiction

/-- A way of writing that has white space at most behind its commas and colons. -/
structure Style.Standard (style : Style) : Prop where
  separator : ∃ blank, Blank blank ∧ style.separator.toList = ',' :: blank
  colon : ∃ blank, Blank blank ∧ style.colon.toList = ':' :: blank

theorem Style.standard_ascii : Style.ascii.Standard :=
  ⟨⟨[' '], blank_space, rfl⟩, ⟨[' '], blank_space, rfl⟩⟩

theorem Style.standard_spaced : Style.spaced.Standard :=
  ⟨⟨[' '], blank_space, rfl⟩, ⟨[' '], blank_space, rfl⟩⟩

variable {style : Style}

/-- The text of a tree, read in any way, gives what it is read as. -/
def HasSource (style : Style) (j : Json) : Prop :=
  ∃ s, TextOf s (text style j).toList ∧ ∀ numbers, s.tree numbers = j.reread numbers

theorem textOf_string (asciiOnly : Bool) (s : String) :
    TextOf (.str s) (stringText asciiOnly s).toList := by
  rw [stringText_chars]
  exact .str (quotes_chars asciiOnly s.toList)

theorem hasSource_float (style : Style) (x : Binary64) : HasSource style (.float x) := by
  rw [HasSource, text, floatText]
  cases hnan : x.isNaN with
  | true =>
    refine ⟨.nan, ?_, fun numbers => ?_⟩
    · rw [if_pos rfl]
      exact TextOf.nan
    · rw [reread, readFloat, hnan]
      rfl
  | false =>
    rw [if_neg Bool.false_ne_true]
    cases hinf : x.isInfinite with
    | true =>
      have hx := Binary64.infinity_parts hinf
      refine ⟨.infinity x.isNegative, ?_, fun numbers => ?_⟩
      · rw [if_pos rfl]
        cases x.isNegative with
        | true => exact TextOf.infinity true
        | false => exact TextOf.infinity false
      · rw [reread, readFloat, hnan, hinf, Source.tree, hx]
        rfl
    | false =>
      obtain ⟨l, hl, hinteger⟩ := exists_literal hnan hinf
      refine ⟨.number l, ?_, fun numbers => ?_⟩
      · rw [if_neg Bool.false_ne_true, ← hl]
        exact .number fun h => absurd (hinteger.symm.trans h) Bool.false_ne_true
      · rw [reread, Source.tree, tree_of_text hnan hinf hl hinteger]

theorem itemsText_cons (style : Style) (j : Json) {js : List Json} (h : js ≠ []) :
    (itemsText style (j :: js)).toList =
      (text style j).toList ++ (style.separator.toList ++ (itemsText style js).toList) := by
  cases js with
  | nil => exact absurd rfl h
  | cons k js =>
    rw [itemsText, String.toList_append, String.toList_append, List.append_assoc]
    exact List.cons_ne_nil _ _

theorem membersText_cons (style : Style) (key : String) (j : Json) {ms : List (String × Json)}
    (h : ms ≠ []) :
    (membersText style ((key, j) :: ms)).toList =
      (stringText style.asciiOnly key).toList ++ (style.colon.toList ++ ((text style j).toList ++
        (style.separator.toList ++ (membersText style ms).toList))) := by
  cases ms with
  | nil => exact absurd rfl h
  | cons m ms =>
    rw [membersText]
    · simp only [String.toList_append, List.append_assoc]
    · exact List.cons_ne_nil _ _

/-- The items of an array have sources, and their texts make up the text of the items. -/
theorem exists_items (hs : style.Standard) {js : List Json} (hne : js ≠ [])
    (h : ∀ j ∈ js, HasSource style j) :
    ∃ items, ItemsTextOf items (itemsText style js).toList ∧
      ∀ numbers, Source.itemTrees numbers items = rereadItems numbers js := by
  induction js with
  | nil => exact absurd rfl hne
  | cons j js ih =>
    obtain ⟨s, htext, htree⟩ := h j List.mem_cons_self
    by_cases hjs : js = []
    · subst hjs
      refine ⟨[s], ?_, fun numbers => ?_⟩
      · rw [itemsText, ← List.append_nil (text style j).toList]
        exact .last htext blank_nil
      · rw [Source.itemTrees, htree]
        rfl
    · obtain ⟨items, hitems, htrees⟩ := ih hjs fun k hk => h k (List.mem_cons_of_mem _ hk)
      obtain ⟨blank, hblank, hseparator⟩ := hs.separator
      refine ⟨s :: items, ?_, fun numbers => ?_⟩
      · rw [itemsText_cons style j hjs, hseparator]
        exact .cons htext blank_nil hblank hitems
      · rw [Source.itemTrees, htree, htrees]
        rfl

theorem exists_members (hs : style.Standard) {ms : List (String × Json)} (hne : ms ≠ [])
    (h : ∀ m ∈ ms, HasSource style m.2) :
    ∃ members, MembersTextOf members (membersText style ms).toList ∧
      members.map (·.1) = ms.map (·.1) ∧
      ∀ numbers, Source.memberTrees numbers members = rereadMembers numbers ms := by
  induction ms with
  | nil => exact absurd rfl hne
  | cons m ms ih =>
    obtain ⟨key, j⟩ := m
    obtain ⟨s, htext, htree⟩ := h _ List.mem_cons_self
    obtain ⟨blank, hblank, hcolon⟩ := hs.colon
    have hkey := quotes_chars style.asciiOnly key.toList
    by_cases hms : ms = []
    · subst hms
      refine ⟨[(key, s)], ?_, rfl, fun numbers => ?_⟩
      · have hlast := MembersTextOf.last hkey blank_nil hblank htext blank_nil
        rw [membersText]
        simpa [stringText_chars, hcolon] using hlast
      · rw [Source.memberTrees, htree]
        rfl
    · obtain ⟨members, hmembers, hkeys, htrees⟩ := ih hms fun m hm =>
        h m (List.mem_cons_of_mem _ hm)
      obtain ⟨before, hbefore, hseparator⟩ := hs.separator
      refine ⟨(key, s) :: members, ?_, by rw [List.map_cons, List.map_cons, hkeys],
        fun numbers => ?_⟩
      · have hcons := MembersTextOf.cons hkey blank_nil hblank htext blank_nil hbefore hmembers
        rw [membersText_cons style key j hms]
        simpa [stringText_chars, hcolon, hseparator] using hcons
      · rw [Source.memberTrees, htree, htrees]
        rfl

/-- The text of a tree is the text of a source. -/
theorem exists_source (hs : style.Standard) {j : Json} (h : j.Writable) : HasSource style j := by
  induction h with
  | null =>
    refine ⟨.null, ?_, fun _ => rfl⟩
    rw [text]
    exact TextOf.null
  | bool b => exact ⟨.bool b, TextOf.bool b, fun _ => rfl⟩
  | int n hn =>
    refine ⟨.number (.ofInt n), ?_, fun numbers => Literal.tree_ofInt numbers n⟩
    rw [text, ← Literal.chars_ofInt]
    exact .number fun _ => hn
  | float x => exact hasSource_float style x
  | str s => exact ⟨.str s, textOf_string _ s, fun _ => rfl⟩
  | @arr js _ ih =>
    have hchars : (text style (.arr js)).toList = '[' :: ((itemsText style js).toList ++ [']']) := by
      rw [text, String.toList_append, String.toList_append]
      rfl
    rw [HasSource, hchars]
    by_cases hjs : js = []
    · subst hjs
      exact ⟨.arr [], TextOf.empty blank_nil, fun _ => rfl⟩
    · obtain ⟨items, hitems, htrees⟩ := exists_items hs hjs ih
      refine ⟨.arr items, TextOf.arr blank_nil hitems, fun numbers => ?_⟩
      rw [Source.tree, htrees]
      rfl
  | @obj ms hd _ ih =>
    have hchars : (text style (.obj ms)).toList =
        '\x7b' :: ((membersText style ms).toList ++ ['\x7d']) := by
      rw [text, String.toList_append, String.toList_append]
      rfl
    rw [HasSource, hchars]
    by_cases hms : ms = []
    · subst hms
      exact ⟨.obj [], TextOf.bare blank_nil, fun _ => rfl⟩
    · obtain ⟨members, hmembers, hkeys, htrees⟩ := exists_members hs hms ih
      refine ⟨.obj members, TextOf.obj blank_nil hmembers (hkeys ▸ hd), fun numbers => ?_⟩
      rw [Source.tree, htrees]
      rfl

/-! ## One line -/

theorem newline_not_mem_unit {n : Nat} (h : n < 65536) : '\n' ∉ (unitEscape n).toList := by
  have hdigit : ∀ d < 16, '\n' ≠ d.digitChar := by decide
  rw [unitEscape_chars h, unitDigits]
  simp only [List.mem_cons, List.not_mem_nil, or_false, not_or]
  exact ⟨by decide, by decide, hdigit _ (by omega), hdigit _ (by omega), hdigit _ (by omega),
    hdigit _ (by omega)⟩

theorem newline_not_mem_char (asciiOnly : Bool) (c : Char) :
    '\n' ∉ (charText asciiOnly c).toList := by
  have hvalid := toNat_cases c
  have hwritten := charWritten asciiOnly c
  generalize charText asciiOnly c = written at hwritten ⊢
  cases hwritten with
  | @escape e hc =>
    have he : '\n' ≠ e := by
      rintro rfl
      cases hc
    simpa using he
  | unit hc => exact newline_not_mem_unit hc
  | pair hc =>
    rw [String.toList_append, List.mem_append, not_or]
    exact ⟨newline_not_mem_unit (by omega), newline_not_mem_unit (by omega)⟩
  | plain hc =>
    rw [String.toList_singleton, List.mem_singleton]
    rintro rfl
    exact absurd hc (by decide)

theorem newline_not_mem_string (asciiOnly : Bool) (s : String) :
    '\n' ∉ (stringText asciiOnly s).toList := by
  rw [stringText_chars]
  have hchars : ∀ cs : List Char,
      '\n' ∉ (String.join (cs.map (charText asciiOnly))).toList := by
    intro cs
    induction cs with
    | nil => exact List.not_mem_nil
    | cons c cs ih =>
      rw [List.map_cons, String.join_cons, String.toList_append, List.mem_append, not_or]
      exact ⟨newline_not_mem_char asciiOnly c, ih⟩
  simp only [List.mem_cons, List.mem_append, List.not_mem_nil, or_false, not_or]
  exact ⟨by decide, hchars _, by decide⟩

theorem newline_not_mem_literal (l : Literal) : '\n' ∉ l.chars :=
  fun h => absurd (l.isNumberChar_of_mem _ h) (by decide)

theorem newline_not_mem_float (x : Binary64) : '\n' ∉ (floatText x).toList := by
  unfold floatText
  split_ifs with hnan hinf
  · decide
  · decide
  · decide
  · obtain ⟨l, hl, -⟩ := exists_literal (Bool.eq_false_iff.mpr hnan) (Bool.eq_false_iff.mpr hinf)
    rw [← hl]
    exact newline_not_mem_literal l

/-- A way of writing that keeps to one line. -/
structure Style.OneLine (style : Style) : Prop where
  separator : '\n' ∉ style.separator.toList
  colon : '\n' ∉ style.colon.toList

theorem newline_not_mem_items (hs : style.OneLine) {js : List Json}
    (h : ∀ j ∈ js, '\n' ∉ (text style j).toList) : '\n' ∉ (itemsText style js).toList := by
  induction js with
  | nil => exact List.not_mem_nil
  | cons j js ih =>
    have hj := h j List.mem_cons_self
    have hrest := ih fun k hk => h k (List.mem_cons_of_mem _ hk)
    by_cases hjs : js = []
    · subst hjs
      exact hj
    · rw [itemsText_cons style j hjs]
      simp only [List.mem_append, not_or]
      exact ⟨hj, hs.separator, hrest⟩

theorem newline_not_mem_members (hs : style.OneLine) {ms : List (String × Json)}
    (h : ∀ m ∈ ms, '\n' ∉ (text style m.2).toList) : '\n' ∉ (membersText style ms).toList := by
  induction ms with
  | nil => exact List.not_mem_nil
  | cons m ms ih =>
    obtain ⟨key, j⟩ := m
    have hj := h _ List.mem_cons_self
    have hkey := newline_not_mem_string style.asciiOnly key
    have hrest := ih fun m hm => h m (List.mem_cons_of_mem _ hm)
    by_cases hms : ms = []
    · subst hms
      rw [membersText]
      simp only [String.toList_append, List.mem_append, not_or]
      exact ⟨⟨hkey, hs.colon⟩, hj⟩
    · rw [membersText_cons style key j hms]
      simp only [List.mem_append, not_or]
      exact ⟨hkey, hs.colon, hj, hs.separator, hrest⟩

/-- The text of a tree stands on one line. -/
theorem newline_not_mem_text (hs : style.OneLine) {j : Json} (h : j.Writable) :
    '\n' ∉ (text style j).toList := by
  induction h with
  | null =>
    rw [text]
    decide
  | bool b =>
    rw [text]
    cases b <;> decide
  | int n =>
    rw [text, ← Literal.chars_ofInt]
    exact newline_not_mem_literal _
  | float x =>
    rw [text]
    exact newline_not_mem_float x
  | str s =>
    rw [text]
    exact newline_not_mem_string _ s
  | arr _ ih =>
    rw [text, String.toList_append, String.toList_append]
    simp only [List.mem_append, not_or]
    exact ⟨⟨by decide, newline_not_mem_items hs ih⟩, by decide⟩
  | obj _ _ ih =>
    rw [text, String.toList_append, String.toList_append]
    simp only [List.mem_append, not_or]
    exact ⟨⟨by decide, newline_not_mem_members hs ih⟩, by decide⟩

/-- A text that holds a tidy tree and nothing else is read. -/
theorem read_text {j : Json} (h : j.Tidy) : read .floating (j.text Style.ascii) = .ok j := by
  obtain ⟨s, htext, htree⟩ := exists_source Style.standard_ascii h.writable
  rw [read, readChars_textOf htext, htree, h.reread_floating]

end Json
end AvroDocument
