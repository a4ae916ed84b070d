import AvroDocument.Json.Reader

/-!
# AvroDocument.Proofs.Literals

Number literals and how they are read.

* `Json.Literal`: a sign, digits, a fraction and an exponent, in their own characters.
* `Json.Literal.tree`: the tree of a literal.
* `Json.Delimited`: what may stand behind a number.
* `Json.readNumber_literal`: literals are read as their trees, and nothing behind them is.
-/

namespace AvroDocument
namespace Json

/-- What may stand behind a number: nothing that could be part of it. -/
def Delimited (rest : List Char) : Prop :=
  ∀ c ∈ rest.head?, c.isDigit = false ∧ c ≠ '.' ∧ c ≠ 'e' ∧ c ≠ 'E'

/-- Digits of a number: none of them a zero in front of others. -/
structure Whole (ds : List Char) : Prop where
  digits : ∀ c ∈ ds, c.isDigit = true
  start : ds = ['0'] ∨ ∃ c cs, ds = c :: cs ∧ c ≠ '0'

/-- The sign in front of a number. -/
def signChars (negative : Bool) : List Char := if negative then ['-'] else []

/-- The digits of a fraction, with the point in front of them unless there are none. -/
def fractionChars (fs : List Char) : List Char := if fs.isEmpty then [] else '.' :: fs

/-- The exponent of a number. -/
structure Exponent where
  letter : Char
  sign : List Char
  digits : List Char
  isLetter : letter = 'e' ∨ letter = 'E'
  isSign : sign = [] ∨ sign = ['+'] ∨ sign = ['-']
  isDigits : ∀ c ∈ digits, c.isDigit = true
  nonempty : digits ≠ []

def Exponent.chars (e : Exponent) : List Char := e.letter :: (e.sign ++ e.digits)

/-- The characters of an exponent, when there is one. -/
def exponentPart : Option Exponent → List Char
  | none => []
  | some e => e.chars

/-- A number literal. -/
structure Literal where
  negative : Bool
  whole : List Char
  fraction : List Char
  exponent : Option Exponent
  isWhole : Whole whole
  isFraction : ∀ c ∈ fraction, c.isDigit = true

namespace Literal

def chars (l : Literal) : List Char :=
  signChars l.negative ++ (l.whole ++ (fractionChars l.fraction ++ exponentPart l.exponent))

def text (l : Literal) : String := String.ofList l.chars

def isInteger (l : Literal) : Bool := l.fraction.isEmpty && l.exponent.isNone

/-- The integer in front of the point. -/
def value (l : Literal) : Int :=
  if l.negative then -(Text.digitsValue l.whole : Int) else Text.digitsValue l.whole

/-- An integer that is not too long to be read. -/
def Readable (l : Literal) : Prop := l.isInteger = true → l.whole.length ≤ digitLimit

/-- The tree that a literal is read as. -/
def tree (style : NumberStyle) (l : Literal) : Json :=
  if l.isInteger then .int l.value else fractionalNumber style l.chars

end Literal

variable {ds fs rest : List Char}

/-! ## Digits -/

theorem takeWhile_digits {p : Char → Bool} (h : ∀ c ∈ ds, p c = true)
    (hrest : ∀ c ∈ rest.head?, p c = false) :
    (ds ++ rest).takeWhile p = ds ∧ (ds ++ rest).dropWhile p = rest := by
  induction ds with
  | nil =>
    cases rest with
    | nil => exact ⟨rfl, rfl⟩
    | cons c cs =>
      have hc := hrest c rfl
      simp [hc]
  | cons d ds ih =>
    obtain ⟨htake, hdrop⟩ := ih fun c hc => h c (List.mem_cons_of_mem _ hc)
    have hd := h d List.mem_cons_self
    simp [hd, htake, hdrop]

theorem takeWhole_digits (h : Whole ds) (hrest : ∀ c ∈ rest.head?, c.isDigit = false) :
    takeWhole (ds ++ rest) = (ds, rest) := by
  obtain ⟨htake, hdrop⟩ := takeWhile_digits h.digits hrest
  obtain rfl | ⟨c, cs, rfl, hc⟩ := h.start
  · rfl
  · rw [List.cons_append] at htake hdrop ⊢
    rw [takeWhole]
    · rw [htake, hdrop]
    · intro tail heq
      exact hc (List.cons.inj heq).1

theorem takeFraction_chars (h : ∀ c ∈ fs, c.isDigit = true)
    (hrest : ∀ c ∈ rest.head?, c.isDigit = false ∧ c ≠ '.') :
    takeFraction (fractionChars fs ++ rest) = (fractionChars fs, rest) := by
  obtain ⟨htake, hdrop⟩ := takeWhile_digits h fun c hc => (hrest c hc).1
  unfold fractionChars
  cases fs with
  | nil =>
    cases rest with
    | nil => rfl
    | cons c cs =>
      rw [List.isEmpty_nil, if_pos rfl, List.nil_append, takeFraction]
      intro tail heq
      exact (hrest c rfl).2 (List.cons.inj heq).1
  | cons f fs =>
    rw [List.isEmpty_cons, if_neg Bool.false_ne_true, List.cons_append, takeFraction]
    simp only [htake, hdrop, List.isEmpty_cons, Bool.false_eq_true, if_false]

theorem Exponent.isLetter_digit (e : Exponent) : e.letter.isDigit = false ∧ e.letter ≠ '.' := by
  obtain h | h := e.isLetter <;> rw [h] <;> decide

theorem takeExponent_part (e? : Option Exponent) (hrest : Delimited rest) :
    takeExponent (exponentPart e? ++ rest) = (exponentPart e?, rest) := by
  cases e? with
  | none =>
    cases rest with
    | nil => rfl
    | cons c cs =>
      obtain ⟨-, -, he, hE⟩ := hrest c rfl
      simp [exponentPart, takeExponent, he, hE]
  | some e =>
    obtain ⟨letter, sign, digits, hletter, hsign, hdigits, hne⟩ := e
    obtain ⟨htake, hdrop⟩ := takeWhile_digits hdigits fun c hc => (hrest c hc).1
    have hempty : digits.isEmpty = false := by simpa using hne
    have hmark : (decide (letter = 'e') || decide (letter = 'E')) = true := by simpa using hletter
    simp only [exponentPart, Exponent.chars]
    obtain rfl | rfl | rfl := hsign
    · -- Without a sign the digits stand right behind the letter.
      obtain ⟨d, tail, rfl⟩ := List.exists_cons_of_ne_nil hne
      have hd (c : Char) (hc : c.isDigit = false) : d ≠ c := by
        rintro rfl
        rw [hdigits d List.mem_cons_self] at hc
        cases hc
      rw [List.nil_append, List.cons_append, takeExponent]
      · rw [← List.cons_append, if_pos hmark]
        simp only [htake, hdrop, hempty]
        rfl
      · exact fun _ heq => hd _ rfl (List.cons.inj heq).1
      · exact fun _ heq => hd _ rfl (List.cons.inj heq).1
    · simp only [takeExponent, List.cons_append, List.nil_append, hmark, htake, hdrop, hempty]
      rfl
    · simp only [takeExponent, List.cons_append, List.nil_append, hmark, htake, hdrop, hempty]
      rfl

/-! ## Literals -/

theorem head_fraction (hrest : Delimited rest) (e? : Option Exponent) :
    ∀ c ∈ (exponentPart e? ++ rest).head?, c.isDigit = false ∧ c ≠ '.' := by
  intro c hc
  cases e? with
  | none => exact ⟨(hrest c hc).1, (hrest c hc).2.1⟩
  | some e =>
    cases hc
    exact e.isLetter_digit

theorem head_whole (hrest : Delimited rest) (fs : List Char) (e? : Option Exponent) :
    ∀ c ∈ (fractionChars fs ++ (exponentPart e? ++ rest)).head?, c.isDigit = false := by
  intro c hc
  unfold fractionChars at hc
  split at hc
  · exact (head_fraction hrest e? c hc).1
  · cases hc
    rfl

theorem Whole.exists_cons (h : Whole ds) :
    ∃ d tail, ds = d :: tail ∧ d.isDigit = true ∧ d ≠ '-' ∧ d ≠ '+' := by
  have hne {d : Char} (hd : d.isDigit = true) : d ≠ '-' ∧ d ≠ '+' := by
    constructor <;>
    · rintro rfl
      cases hd
  obtain rfl | ⟨c, cs, rfl, -⟩ := h.start
  · exact ⟨'0', [], rfl, by decide⟩
  · have hc := h.digits c List.mem_cons_self
    exact ⟨c, cs, rfl, hc, hne hc⟩

/-- Reads a number behind its sign. -/
def readUnsigned (style : NumberStyle) (place sign body : List Char) : ReadResult Json :=
  let (whole, afterWhole) := takeWhole body
  if whole.isEmpty then fail .expectingValue place
  else
    let (fraction, afterFraction) := takeFraction afterWhole
    let (exponent, rest) := takeExponent afterFraction
    if fraction.isEmpty && exponent.isEmpty then
      if digitLimit < whole.length then .error .tooManyDigits
      else
        let n : Int := Text.digitsValue whole
        .ok (.int (if sign.isEmpty then n else -n), rest)
    else .ok (fractionalNumber style (sign ++ whole ++ fraction ++ exponent), rest)

theorem readNumber_signed {style : NumberStyle} (negative : Bool) (hd : Whole ds)
    (tail : List Char) :
    readNumber style (signChars negative ++ (ds ++ tail)) =
      readUnsigned style (signChars negative ++ (ds ++ tail)) (signChars negative) (ds ++ tail) := by
  cases negative with
  | true => rfl
  | false =>
    obtain ⟨d, ds, rfl, -, hminus, -⟩ := hd.exists_cons
    rw [signChars, if_neg Bool.false_ne_true, List.nil_append, List.cons_append, readNumber]
    · rfl
    · exact fun _ heq => hminus (List.cons.inj heq).1

/-- Literals are read as their trees, unless they are integers with too many digits. -/
theorem readNumber_chars {style : NumberStyle} (l : Literal) (hrest : Delimited rest) :
    readNumber style (l.chars ++ rest) =
      if l.isInteger = true ∧ digitLimit < l.whole.length then .error .tooManyDigits
      else .ok (l.tree style, rest) := by
  have hwhole := takeWhole_digits l.isWhole (head_whole hrest l.fraction l.exponent)
  have hfraction := takeFraction_chars l.isFraction (head_fraction hrest l.exponent)
  have hexponent := takeExponent_part l.exponent hrest
  have hempty : l.whole.isEmpty = false := by
    obtain ⟨d, tail, hds, -⟩ := l.isWhole.exists_cons
    rw [hds]
    rfl
  have hinteger : ((fractionChars l.fraction).isEmpty && (exponentPart l.exponent).isEmpty) =
      l.isInteger := by
    rw [Literal.isInteger]
    congr 1
    · cases l.fraction <;> rfl
    · cases l.exponent <;> rfl
  have hsign : (if (signChars l.negative).isEmpty then (Text.digitsValue l.whole : Int)
      else -(Text.digitsValue l.whole : Int)) = l.value := by
    unfold Literal.value
    cases l.negative <;> rfl
  rw [Literal.chars, List.append_assoc, List.append_assoc, List.append_assoc,
    readNumber_signed _ l.isWhole, readUnsigned]
  simp only [hwhole, hfraction, hexponent, hempty, hinteger, hsign, Bool.false_eq_true, if_false]
  rw [Literal.tree]
  cases hint : l.isInteger with
  | true => simp only [if_true, true_and]
  | false =>
    simp only [Bool.false_eq_true, if_false, false_and]
    rw [Literal.chars, List.append_assoc, List.append_assoc]

theorem readNumber_literal {style : NumberStyle} {l : Literal} (hl : l.Readable)
    (hrest : Delimited rest) : readNumber style (l.chars ++ rest) = .ok (l.tree style, rest) := by
  rw [readNumber_chars l hrest, if_neg fun hlong => Nat.not_lt.mpr (hl hlong.1) hlong.2]

/-- An integer without a sign is its digits. -/
theorem Literal.chars_natural (h : Whole ds) :
    chars ⟨false, ds, [], none, h, List.forall_mem_nil _⟩ = ds := by
  simp [chars, signChars, fractionChars, exponentPart]

theorem Literal.exists_cons (l : Literal) :
    ∃ d tail, l.chars = signChars l.negative ++ d :: tail ∧ d.isDigit = true := by
  obtain ⟨d, tail, hds, hd, -⟩ := l.isWhole.exists_cons
  exact ⟨d, _, by rw [chars, hds, List.cons_append], hd⟩

/-- The characters of a literal: a sign, digits, a point and those of its exponent. -/
theorem Literal.mem_chars {l : Literal} {c : Char} (h : c ∈ l.chars) :
    c = '-' ∨ c.isDigit = true ∨ c = '.' ∨ c ∈ exponentPart l.exponent := by
  rw [Literal.chars, List.mem_append, List.mem_append, List.mem_append] at h
  obtain h | h | h | h := h
  · unfold signChars at h
    split at h
    · exact .inl (List.mem_singleton.mp h)
    · cases h
  · exact .inr (.inl (l.isWhole.digits c h))
  · unfold fractionChars at h
    split at h
    · cases h
    · obtain h | h := List.mem_cons.mp h
      · exact .inr (.inr (.inl h))
      · exact .inr (.inl (l.isFraction c h))
  · exact .inr (.inr (.inr h))

/-- The characters of numbers. -/
def isNumberChar (c : Char) : Bool :=
  c.isDigit || c = '-' || c = '+' || c = '.' || c = 'e' || c = 'E'

theorem isNumberChar_of_digit {c : Char} (h : c.isDigit = true) : isNumberChar c = true := by
  simp [isNumberChar, h]

theorem Exponent.isNumberChar_of_mem (e : Exponent) : ∀ c ∈ e.chars, isNumberChar c = true := by
  intro c hc
  obtain rfl | hc := List.mem_cons.mp hc
  · obtain h | h := e.isLetter <;> simp [isNumberChar, h]
  obtain hc | hc := List.mem_append.mp hc
  · obtain h | h | h := e.isSign <;> rw [h] at hc
    · cases hc
    · obtain rfl := List.mem_singleton.mp hc
      rfl
    · obtain rfl := List.mem_singleton.mp hc
      rfl
  · exact isNumberChar_of_digit (e.isDigits c hc)

theorem Literal.isNumberChar_of_mem (l : Literal) : ∀ c ∈ l.chars, isNumberChar c = true := by
  intro c hc
  obtain rfl | hc | rfl | hc := Literal.mem_chars hc
  · rfl
  · exact isNumberChar_of_digit hc
  · rfl
  · cases hexponent : l.exponent with
    | none =>
      rw [hexponent] at hc
      cases hc
    | some e =>
      rw [hexponent] at hc
      exact e.isNumberChar_of_mem c hc

end Json
end AvroDocument
