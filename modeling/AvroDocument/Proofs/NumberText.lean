import AvroDocument.Json.Writer
import AvroDocument.Proofs.Literals
import AvroDocument.Proofs.Shortest

/-!
# AvroDocument.Proofs.NumberText

Floating point numbers are read back from their text.

* `Json.readNumber_parts`: digits with a fraction or an exponent.
* `Json.exists_literal`: the text of a floating point number is a literal.
* `Json.readNumber_float`: floating point numbers.
-/

namespace AvroDocument

/-! ## Digits -/

namespace Text

theorem digitValue?_of_isDigit {c : Char} (h : c.isDigit = true) :
    digitValue? c = some (c.toNat - 48) := by
  obtain ⟨h1, h2⟩ : 48 ≤ c.toNat ∧ c.toNat ≤ 57 := by
    simpa [Char.isDigit, UInt32.le_iff_toNat_le] using h
  have hfirst : (decide (48 ≤ c.toNat) && decide (c.toNat < 48 + 10)) = true := by
    simp only [Bool.and_eq_true, decide_eq_true_eq]
    omega
  simp only [digitValue?, zeroDigits, List.find?_cons, hfirst, Option.map_some]

theorem isDigit_of_isDigit {c : Char} (h : c.isDigit = true) : isDigit c = true := by
  rw [isDigit, digitValue?_of_isDigit h]
  rfl

theorem foldl_digits (cs : List Char) (n : Nat) :
    cs.foldl (fun n c => 10 * n + (digitValue? c).getD 0) n = n * 10 ^ cs.length + digitsValue cs := by
  induction cs generalizing n with
  | nil => simp [digitsValue]
  | cons c cs ih =>
    rw [digitsValue, List.foldl_cons, List.foldl_cons, ih, ih, List.length_cons, Nat.pow_succ]
    ring

theorem digitsValue_append (as bs : List Char) :
    digitsValue (as ++ bs) = digitsValue as * 10 ^ bs.length + digitsValue bs := by
  rw [digitsValue, List.foldl_append, foldl_digits]
  rfl

theorem digitsValue_zero_cons (cs : List Char) : digitsValue ('0' :: cs) = digitsValue cs := by
  have hzero : digitsValue ['0'] = 0 := rfl
  rw [← List.singleton_append, digitsValue_append, hzero, Nat.zero_mul, Nat.zero_add]

theorem digitsValue_zeros_append (n : Nat) (cs : List Char) :
    digitsValue (List.replicate n '0' ++ cs) = digitsValue cs := by
  induction n with
  | zero => rfl
  | succ n ih => rw [List.replicate_succ, List.cons_append, digitsValue_zero_cons, ih]

theorem digitsValue_append_zeros (cs : List Char) (n : Nat) :
    digitsValue (cs ++ List.replicate n '0') = digitsValue cs * 10 ^ n := by
  have hzeros : digitsValue (List.replicate n '0') = 0 := by
    rw [← List.append_nil (List.replicate n '0'), digitsValue_zeros_append]
    rfl
  rw [digitsValue_append, hzeros, List.length_replicate, Nat.add_zero]

theorem digitsValue_lt {cs : List Char} (h : ∀ c ∈ cs, c.isDigit = true) :
    digitsValue cs < 10 ^ cs.length := by
  induction cs with
  | nil => exact Nat.one_pos
  | cons c cs ih =>
    have hrest := ih fun d hd => h d (List.mem_cons_of_mem _ hd)
    have hc := h c List.mem_cons_self
    have hsingle : digitsValue [c] ≤ 9 := by
      have : c.toNat ≤ 57 := by
        have : 48 ≤ c.toNat ∧ c.toNat ≤ 57 := by
          simpa [Char.isDigit, UInt32.le_iff_toNat_le] using hc
        exact this.2
      simp only [digitsValue, List.foldl_cons, List.foldl_nil, digitValue?_of_isDigit hc,
        Option.getD_some]
      omega
    rw [← List.singleton_append, digitsValue_append, List.length_append, List.length_singleton,
      Nat.pow_add, Nat.pow_one]
    have := Nat.mul_le_mul_right (10 ^ cs.length) hsingle
    omega

theorem digitsValue_toDigits (n : Nat) : digitsValue (Nat.toDigits 10 n) = n := by
  have hfold (cs : List Char) (h : ∀ c ∈ cs, c.isDigit = true) (k : Nat) :
      cs.foldl (fun n c => 10 * n + (digitValue? c).getD 0) k = Nat.ofDigitChars 10 cs k := by
    induction cs generalizing k with
    | nil => rfl
    | cons c cs ih =>
      rw [List.foldl_cons, digitValue?_of_isDigit (h c List.mem_cons_self),
        ih fun d hd => h d (List.mem_cons_of_mem _ hd)]
      rfl
  rw [digitsValue, hfold _ fun c hc => Nat.isDigit_of_mem_toDigits (by decide) (by decide) hc]
  exact Nat.ofDigitChars_ten_toDigits

/-- The digits of a positive number do not start with a zero. -/
theorem head_toDigits {n : Nat} (h : 0 < n) {ds : List Char} :
    Nat.toDigits 10 n ≠ '0' :: ds := by
  intro heq
  have hdigits : ∀ c ∈ Nat.toDigits 10 n, c.isDigit = true :=
    fun c hc => Nat.isDigit_of_mem_toDigits (by decide) (by decide) hc
  have hvalue := digitsValue_toDigits n
  have hlow := Binary64.ten_pow_le_of_digitCount h
  rw [Binary64.digitCount, heq, List.length_cons, Nat.add_sub_cancel] at hlow
  rw [heq, digitsValue_zero_cons] at hvalue
  have hhigh := digitsValue_lt fun c hc => hdigits c (heq ▸ List.mem_cons_of_mem _ hc)
  omega

end Text

namespace Json

variable {ds fs rest : List Char}

/-- The text of an exponent, when there is one. -/
def exponentChars : Option Int → List Char
  | none => []
  | some e => (Binary64.exponentText e).toList

/-- The digits of an exponent. -/
def exponentDigits (e : Int) : List Char :=
  if (Nat.toDigits 10 e.natAbs).length < 2 then '0' :: Nat.toDigits 10 e.natAbs
  else Nat.toDigits 10 e.natAbs

theorem exponentChars_some (e : Int) :
    exponentChars (some e) = 'e' :: (if e < 0 then '-' else '+') :: exponentDigits e := by
  have hlength : (toString e.natAbs).length = (Nat.toDigits 10 e.natAbs).length := by
    rw [Nat.toString_eq_ofList_toDigits, String.length_ofList]
  have hchars : (toString e.natAbs).toList = Nat.toDigits 10 e.natAbs := by
    rw [Nat.toString_eq_ofList_toDigits, String.toList_ofList]
  rw [exponentChars, Binary64.exponentText, exponentDigits, String.toList_append]
  simp only [hlength]
  split
  · split
    · rw [String.toList_append, hchars]
      rfl
    · rw [hchars]
      rfl
  · split
    · rw [String.toList_append, hchars]
      rfl
    · rw [hchars]
      rfl

theorem digits_exponent (e : Int) : ∀ c ∈ exponentDigits e, c.isDigit = true := by
  have h : ∀ c ∈ Nat.toDigits 10 e.natAbs, c.isDigit = true :=
    fun c hc => Nat.isDigit_of_mem_toDigits (by decide) (by decide) hc
  unfold exponentDigits
  split
  · intro c hc
    obtain rfl | hc := List.mem_cons.mp hc
    · rfl
    · exact h c hc
  · exact h

theorem exponentDigits_ne_nil (e : Int) : exponentDigits e ≠ [] := by
  unfold exponentDigits
  split
  · exact List.cons_ne_nil _ _
  · exact Nat.toDigits_ne_nil

theorem digitsValue_exponent (e : Int) : Text.digitsValue (exponentDigits e) = e.natAbs := by
  unfold exponentDigits
  split
  · rw [Text.digitsValue_zero_cons, Text.digitsValue_toDigits]
  · exact Text.digitsValue_toDigits _

/-- The exponent that is written for an integer. -/
def Exponent.ofInt (e : Int) : Exponent where
  letter := 'e'
  sign := [if e < 0 then '-' else '+']
  digits := exponentDigits e
  isLetter := .inl rfl
  isSign := by split <;> simp
  isDigits := digits_exponent e
  nonempty := exponentDigits_ne_nil e

theorem exponentPart_ofInt (e? : Option Int) :
    exponentPart (e?.map Exponent.ofInt) = exponentChars e? := by
  cases e? with
  | none => rfl
  | some e => exact (exponentChars_some e).symm

/-! ## Numbers with a fraction or an exponent -/

/-- Texts of a decimal: behind a sign, and with something behind them that is no part of it, they are
read as the number nearest to it. -/
def ReadsAs (text : List Char) (coefficient : Nat) (exponent : Int) : Prop :=
  ∀ negative rest, Delimited rest →
    readNumber .floating (signChars negative ++ (text ++ rest)) =
      .ok (.float (Binary64.ofDecimal negative coefficient exponent), rest)

theorem splitSign_digits (negative : Bool) (hd : Whole ds) (tail : List Char) :
    Text.splitSign (signChars negative ++ (ds ++ tail)) = (negative, ds ++ tail) := by
  obtain ⟨d, ds, rfl, -, hminus, hplus⟩ := hd.exists_cons
  cases negative with
  | true => rfl
  | false =>
    rw [signChars, if_neg Bool.false_ne_true, List.nil_append, List.cons_append, Text.splitSign]
    · exact fun _ heq => hminus (List.cons.inj heq).1
    · exact fun _ heq => hplus (List.cons.inj heq).1

theorem readExponent?_chars (e? : Option Int) :
    Text.readExponent? (exponentChars e?) = some (e?.getD 0) := by
  cases e? with
  | none => rfl
  | some e =>
    have hall : (exponentDigits e).all Text.isDigit = true := by
      rw [List.all_eq_true]
      exact fun c hc => Text.isDigit_of_isDigit (digits_exponent e c hc)
    have hempty : (exponentDigits e).isEmpty = false := by simpa using exponentDigits_ne_nil e
    rw [exponentChars_some, Text.readExponent?, if_pos (by decide), Text.readDigits?]
    by_cases h : e < 0
    · simp only [if_pos h, Text.splitSign, hall, hempty, digitsValue_exponent, Option.getD_some,
        Bool.not_true, Bool.or_false, Bool.false_eq_true, if_false, if_true, Option.some.injEq]
      omega
    · simp only [if_neg h, Text.splitSign, hall, hempty, digitsValue_exponent, Option.getD_some,
        Bool.not_true, Bool.or_false, Bool.false_eq_true, if_false, Option.some.injEq]
      omega

/-- The numeral of a number with a fraction or an exponent. -/
theorem read_numeral (negative : Bool) (hd : Whole ds) (hf : ∀ c ∈ fs, c.isDigit = true)
    (e? : Option Int) :
    Text.Numeral.read? (signChars negative ++ (ds ++ (fractionChars fs ++ exponentChars e?))) =
      some ⟨negative, Text.digitsValue (ds ++ fs), e?.getD 0 - fs.length⟩ := by
  have hds : ∀ c ∈ ds, Text.isDigit c = true :=
    fun c hc => Text.isDigit_of_isDigit (hd.digits c hc)
  have hfs : ∀ c ∈ fs, Text.isDigit c = true := fun c hc => Text.isDigit_of_isDigit (hf c hc)
  have hpoint : Text.isDigit '.' = false := by decide
  have hletter : Text.isDigit 'e' = false := by decide
  have hexponent : ∀ c ∈ (exponentChars e?).head?, Text.isDigit c = false := by
    intro c hc
    cases e? with
    | none => cases hc
    | some e =>
      rw [exponentChars_some] at hc
      cases hc
      exact hletter
  have hbehind : ∀ c ∈ (fractionChars fs ++ exponentChars e?).head?, Text.isDigit c = false := by
    unfold fractionChars
    split
    · exact hexponent
    · intro c hc
      cases hc
      exact hpoint
  obtain ⟨htake, hdrop⟩ := takeWhile_digits hds hbehind
  obtain ⟨hftake, hfdrop⟩ := takeWhile_digits hfs hexponent
  have hempty : ds.isEmpty = false := by
    obtain ⟨d, tail, rfl, -⟩ := hd.exists_cons
    rfl
  rw [Text.Numeral.read?, splitSign_digits negative hd]
  simp only [htake, hdrop, hempty, Bool.false_and, Bool.false_eq_true, if_false]
  cases fs with
  | nil =>
    rw [show fractionChars [] = [] from rfl, List.nil_append]
    have hread := readExponent?_chars e?
    cases e? with
    | none => rfl
    | some e =>
      rw [exponentChars_some] at hread ⊢
      show (match Text.readExponent? ('e' :: _) with
        | none => none
        | some e' => some (Text.Numeral.mk negative (Text.digitsValue (ds ++ []))
            (e' - ([] : List Char).length))) = _
      rw [hread]
  | cons f fs =>
    rw [show fractionChars (f :: fs) = '.' :: (f :: fs) from rfl, List.cons_append]
    simp only [hftake, hfdrop, readExponent?_chars]

theorem not_isInteger (negative : Bool) (hd : Whole ds) (hf : ∀ c ∈ fs, c.isDigit = true)
    {e? : Option Int} (hpart : fs ≠ [] ∨ e?.isSome = true) :
    (Literal.mk negative ds fs (e?.map Exponent.ofInt) hd hf).isInteger = false := by
  rw [Literal.isInteger, Bool.and_eq_false_iff]
  refine hpart.imp (fun h => by simpa using h) fun h => ?_
  simpa [Option.isNone_iff_eq_none, Option.isSome_iff_ne_none] using h

/-- Digits with a fraction or an exponent are read as the decimal that they spell. -/
theorem readNumber_parts (hd : Whole ds) (hf : ∀ c ∈ fs, c.isDigit = true) (e? : Option Int)
    (hpart : fs ≠ [] ∨ e?.isSome = true) :
    ReadsAs (ds ++ (fractionChars fs ++ exponentChars e?)) (Text.digitsValue (ds ++ fs))
      (e?.getD 0 - fs.length) := by
  intro negative rest hrest
  let l : Literal := ⟨negative, ds, fs, e?.map Exponent.ofInt, hd, hf⟩
  have hinteger : l.isInteger = false := not_isInteger negative hd hf hpart
  have hchars : l.chars =
      signChars negative ++ (ds ++ (fractionChars fs ++ exponentChars e?)) := by
    rw [Literal.chars, exponentPart_ofInt]
  have hreadable : l.Readable := fun h => absurd (hinteger.symm.trans h) Bool.false_ne_true
  have hread := @readNumber_literal _ .floating _ hreadable hrest
  rw [hchars, List.append_assoc] at hread
  rw [hread, Literal.tree, hinteger, if_neg Bool.false_ne_true, hchars, fractionalNumber,
    read_numeral negative hd hf e?]
  rfl

/-! ## Integers -/

theorem whole_toDigits (n : Nat) : Whole (Nat.toDigits 10 n) where
  digits := fun c hc => Nat.isDigit_of_mem_toDigits (by decide) (by decide) hc
  start := by
    obtain rfl | hpos := Nat.eq_zero_or_pos n
    · exact .inl rfl
    · obtain ⟨c, cs, hcs⟩ := List.exists_cons_of_ne_nil (Nat.toDigits_ne_nil (n := n) (b := 10))
      refine .inr ⟨c, cs, hcs, ?_⟩
      rintro rfl
      exact Text.head_toDigits hpos hcs

theorem toString_int (n : Int) :
    (toString n).toList = signChars (decide (n < 0)) ++ Nat.toDigits 10 n.natAbs := by
  cases n with
  | ofNat n =>
    show (toString n).toList = _
    rw [Nat.toString_eq_ofList_toDigits, String.toList_ofList]
    rfl
  | negSucc n =>
    show ("-" ++ toString (n + 1)).toList = _
    rw [Nat.toString_eq_ofList_toDigits, String.toList_append, String.toList_ofList,
      String.toList_ofList, decide_eq_true (Int.negSucc_lt_zero n)]
    rfl

/-! ## Floating point numbers -/

/-- Texts of a decimal that is worth a ratio. -/
def Spells (text : List Char) (v : ℚ) : Prop :=
  ∃ c e, ReadsAs text c e ∧ (c : ℚ) * 10 ^ e = v

/-- Digits with a fraction or an exponent that are worth a ratio. -/
def Parts (text : List Char) (v : ℚ) : Prop :=
  ∃ ds fs e?, Whole ds ∧ (∀ c ∈ fs, c.isDigit = true) ∧ (fs ≠ [] ∨ e?.isSome = true) ∧
    text = ds ++ (fractionChars fs ++ exponentChars e?) ∧
    (Text.digitsValue (ds ++ fs) : ℚ) * 10 ^ (e?.getD 0 - (fs.length : Int)) = v

theorem Parts.spells {text : List Char} {v : ℚ} (h : Parts text v) : Spells text v := by
  obtain ⟨ds, fs, e?, hd, hf, hpart, rfl, hvalue⟩ := h
  exact ⟨_, _, readNumber_parts hd hf e? hpart, hvalue⟩

/-- Digits with the point at a place are worth what they are as parts. The exponent of these is that of
the digits, or that of the zero which stands behind the point where nothing else does. -/
theorem exists_parts {d : Char} (hd : ∀ c ∈ d :: ds, c.isDigit = true) (hstart : d ≠ '0')
    (point : Int) :
    ∃ whole fs e?, Whole whole ∧ (∀ c ∈ fs, c.isDigit = true) ∧ (fs ≠ [] ∨ e?.isSome = true) ∧
      (Binary64.layout (d :: ds) point).toList = whole ++ (fractionChars fs ++ exponentChars e?) ∧
      (Text.digitsValue (whole ++ fs) : ℚ) * 10 ^ (e?.getD 0 - (fs.length : Int)) =
        (Text.digitsValue (d :: ds) : ℚ) * 10 ^ (point - ((d :: ds).length : Int)) ∧
      min (-1) (point - ((d :: ds).length : Int)) ≤ e?.getD 0 - (fs.length : Int) := by
  have hall : Whole (d :: ds) := ⟨hd, .inr ⟨d, ds, rfl, hstart⟩⟩
  have htail : ∀ c ∈ ds, c.isDigit = true := fun c hc => hd c (List.mem_cons_of_mem _ hc)
  have hzeros (n : Nat) : ∀ c ∈ List.replicate n '0', c.isDigit = true := by
    intro c hc
    rw [(List.mem_replicate.mp hc).2]
    rfl
  unfold Binary64.layout
  simp only
  split
  · -- With an exponent: one digit in front of the point, the others behind it.
    have hone : Whole [d] :=
      ⟨fun c hc => hd c (List.mem_singleton.mp hc ▸ List.mem_cons_self), .inr ⟨d, [], rfl, hstart⟩⟩
    refine ⟨_, _, some (point - 1), hone, htail, .inr rfl, ?_, ?_, ?_⟩
    · cases ds with
      | nil =>
        rw [String.toList_append, String.toList_ofList]
        rfl
      | cons c cs =>
        rw [String.toList_append, String.toList_ofList]
        rfl
    · rw [Option.getD_some, List.singleton_append, List.length_cons,
        show point - 1 - (ds.length : Int) = point - ((ds.length + 1 : Nat) : Int) by omega]
    · rw [Option.getD_some, List.length_cons]
      omega
  split
  · -- Behind the point and some zeros.
    rename_i hpoint
    have hfraction : ∀ c ∈ List.replicate (-point).toNat '0' ++ d :: ds, c.isDigit = true := by
      intro c hc
      obtain hc | hc := List.mem_append.mp hc
      · exact hzeros _ c hc
      · exact hd c hc
    refine ⟨_, _, none, ⟨hzeros 1, .inl rfl⟩, hfraction, .inl (by simp), ?_, ?_, ?_⟩
    · rw [String.toList_ofList, fractionChars, if_neg (by simp)]
      simp [exponentChars]
    · rw [show List.replicate 1 '0' = ['0'] from rfl, List.singleton_append,
        Text.digitsValue_zero_cons, Text.digitsValue_zeros_append, List.length_append,
        List.length_replicate, Option.getD_none]
      congr 2
      push_cast
      omega
    · rw [List.length_append, List.length_replicate, Option.getD_none]
      omega
  split
  · -- In front of the point, with zeros between.
    rename_i hpoint hlength
    have hwhole : Whole (d :: ds ++ List.replicate (point.toNat - (d :: ds).length) '0') := by
      refine ⟨?_, .inr ⟨d, _, rfl, hstart⟩⟩
      intro c hc
      obtain hc | hc := List.mem_append.mp hc
      · exact hd c hc
      · exact hzeros _ c hc
    refine ⟨_, _, none, hwhole, hzeros 1, .inl (by simp), ?_, ?_, ?_⟩
    · rw [String.toList_ofList]
      simp [exponentChars, fractionChars]
    · rw [Text.digitsValue_append_zeros, Text.digitsValue_append_zeros, Option.getD_none,
        List.length_replicate]
      have hexponent : point - ((d :: ds).length : Int) =
          ((point.toNat - (d :: ds).length : Nat) : Int) := by omega
      rw [hexponent, zpow_natCast]
      push_cast
      norm_num
      ring
    · rw [List.length_replicate, Option.getD_none]
      omega
  · -- Around the point.
    rename_i hlow hlength
    have hsplit := List.take_append_drop point.toNat (d :: ds)
    have hpoint : 0 < point.toNat := by omega
    have hwhole : Whole ((d :: ds).take point.toNat) := by
      refine ⟨fun c hc => hd c (List.mem_of_mem_take hc), .inr ⟨d, ds.take (point.toNat - 1), ?_, hstart⟩⟩
      obtain ⟨n, hn⟩ : ∃ n, point.toNat = n + 1 := ⟨point.toNat - 1, by omega⟩
      rw [hn, List.take_succ_cons, Nat.add_sub_cancel]
    have hlengths : ((d :: ds).drop point.toNat).length = (d :: ds).length - point.toNat :=
      List.length_drop
    have hne : (d :: ds).drop point.toNat ≠ [] := by
      rw [← List.length_pos_iff]
      omega
    refine ⟨_, _, none, hwhole, fun c hc => hd c (List.mem_of_mem_drop hc), .inl hne, ?_, ?_, ?_⟩
    · rw [String.toList_ofList, fractionChars, if_neg (by simpa using hne)]
      simp [exponentChars]
    · rw [hsplit, hlengths, Option.getD_none]
      congr 2
      omega
    · rw [hlengths, Option.getD_none]
      omega

theorem parts_layout {d : Char} (hd : ∀ c ∈ d :: ds, c.isDigit = true) (hstart : d ≠ '0')
    (point : Int) :
    Parts (Binary64.layout (d :: ds) point).toList
      ((Text.digitsValue (d :: ds) : ℚ) * 10 ^ (point - ((d :: ds).length : Int))) := by
  obtain ⟨whole, fs, e?, hwhole, hf, hpart, htext, hvalue, -⟩ := exists_parts hd hstart point
  exact ⟨whole, fs, e?, hwhole, hf, hpart, htext, hvalue⟩

theorem Spells.read {text : List Char} {v : ℚ} (h : Spells text v) {m : Nat} {q : Int}
    (hc : Binary64.Canonical m q) (hv : Binary64.Near m q v) (negative : Bool)
    (hrest : Delimited rest) :
    readNumber .floating (signChars negative ++ (text ++ rest)) =
      .ok (.float (Binary64.ofScaled negative m q), rest) := by
  obtain ⟨c, e, hread, rfl⟩ := h
  rw [hread negative rest hrest, Binary64.ofDecimal_near hc hv]

/-- Zeros at the end are dropped from digits, and the point moves by as many places. -/
theorem exists_zeros (ds : List Char) :
    ∃ n, ds = (ds.reverse.dropWhile (· == '0')).reverse ++ List.replicate n '0' := by
  refine ⟨(ds.reverse.takeWhile (· == '0')).length, ?_⟩
  have hzeros : ds.reverse.takeWhile (· == '0') =
      List.replicate (ds.reverse.takeWhile (· == '0')).length '0' := by
    rw [List.eq_replicate_iff]
    refine ⟨rfl, fun c hc => ?_⟩
    have := List.all_takeWhile (p := (· == '0')) (l := ds.reverse)
    rw [List.all_eq_true] at this
    simpa using this c hc
  have hsplit := List.takeWhile_append_dropWhile (p := (· == '0')) (l := ds.reverse)
  have := congrArg List.reverse hsplit
  rw [List.reverse_append, List.reverse_reverse] at this
  rw [← List.reverse_replicate, ← hzeros]
  exact this.symm

/-- The shortest digits of a number start with another one than zero, and lie around it. -/
theorem shortestDigits_spec {m : Nat} {q : Int} (hc : Binary64.Canonical m q) :
    ∃ d ds point, Binary64.shortestDigits m q = (d :: ds, point) ∧ d ≠ '0' ∧
      (∀ c ∈ d :: ds, c.isDigit = true) ∧
      Binary64.Near m q ((Text.digitsValue (d :: ds) : ℚ) *
        10 ^ (point - ((d :: ds).length : Int))) := by
  have hnear := Binary64.near_shortest hc
  have hpos := hnear.pos hc
  unfold Binary64.shortestDigits
  generalize Binary64.shortest m q = found at hnear hpos
  obtain ⟨n, k⟩ := found
  simp only at hnear hpos ⊢
  have hn : 0 < n := by
    rw [mul_pos_iff_of_pos_right (by positivity)] at hpos
    exact_mod_cast hpos
  obtain ⟨zeros, hzeros⟩ := exists_zeros (Nat.toDigits 10 n)
  have hvalue := Text.digitsValue_toDigits n
  have hdigits := (whole_toDigits n).digits
  have hstart : ∀ ds, Nat.toDigits 10 n ≠ '0' :: ds := fun _ => Text.head_toDigits hn
  generalize (Nat.toDigits 10 n).reverse.dropWhile (· == '0') = kept at hzeros
  rw [hzeros] at hvalue hdigits hstart
  rw [Text.digitsValue_append_zeros] at hvalue
  have hlength : (Nat.toDigits 10 n).length = kept.reverse.length + zeros := by
    rw [hzeros, List.length_append, List.length_replicate]
  generalize kept.reverse = ds at hvalue hdigits hstart hlength
  cases ds with
  | nil =>
    -- Zeros alone are worth nothing.
    rw [show Text.digitsValue [] = 0 from rfl, Nat.zero_mul] at hvalue
    omega
  | cons d ds =>
    refine ⟨d, ds, _, rfl, ?_, fun c hc => hdigits c (List.mem_append_left _ hc), ?_⟩
    · rintro rfl
      exact hstart _ rfl
    · rw [hlength]
      have hworth : (n : ℚ) * 10 ^ k = (Text.digitsValue (d :: ds) : ℚ) *
          10 ^ (k + ((d :: ds).length + zeros : Nat) - ((d :: ds).length : Int)) := by
        rw [show k + ((d :: ds).length + zeros : Nat) - ((d :: ds).length : Int) = zeros + k by
          push_cast; ring, zpow_add₀ (by norm_num), zpow_natCast, ← mul_assoc, ← hvalue]
        push_cast
        ring
      rwa [← hworth]

/-- The text of a finite number: its sign, and digits with a point. -/
theorem text_finite {x : Binary64} (hnan : x.isNaN = false) (hinf : x.isInfinite = false) :
    x.text.toList = signChars x.isNegative ++ (if x.isZero then "0.0"
      else Binary64.layout (Binary64.shortestDigits x.significand x.scale).1
        (Binary64.shortestDigits x.significand x.scale).2).toList := by
  rw [Binary64.text, if_neg (by simp [hnan])]
  simp only [hinf, Bool.false_eq_true, if_false]
  cases x.isNegative with
  | true => rw [if_pos rfl, String.toList_append]; rfl
  | false => rfl

theorem isFinite_of_not {x : Binary64} (hnan : x.isNaN = false) (hinf : x.isInfinite = false) :
    x.isFinite = true := by
  simp only [Binary64.isNaN, Binary64.isInfinite, Binary64.isFinite] at *
  grind

theorem parts_zero : Parts "0.0".toList 0 :=
  ⟨['0'], ['0'], none, ⟨by simp, .inl rfl⟩, by simp, .inl (by simp), rfl, by
    rw [show Text.digitsValue (['0'] ++ ['0']) = 0 from rfl]
    simp⟩

/-- Finite numbers are read back. -/
theorem readNumber_float {x : Binary64} (hnan : x.isNaN = false) (hinf : x.isInfinite = false)
    (hrest : Delimited rest) :
    readNumber .floating (x.text.toList ++ rest) = .ok (.float x, rest) := by
  rw [text_finite hnan hinf, List.append_assoc]
  cases hzero : x.isZero with
  | true =>
    have hread := @readNumber_parts ['0'] ['0'] ⟨by simp, .inl rfl⟩ (by simp) none
      (.inl (by simp)) x.isNegative rest hrest
    rw [if_pos rfl]
    refine hread.trans ?_
    rw [show Text.digitsValue (['0'] ++ ['0']) = 0 from rfl, Binary64.ofDecimal, if_pos rfl,
      Binary64.zero_parts hzero]
  | false =>
    obtain ⟨hcanonical, hx⟩ := Binary64.ofScaled_parts (isFinite_of_not hnan hinf) hzero
    obtain ⟨d, ds, point, hshortest, hstart, hdigits, hnear⟩ := shortestDigits_spec hcanonical
    rw [if_neg Bool.false_ne_true, hshortest]
    have hread := (parts_layout hdigits hstart point).spells.read hcanonical hnear x.isNegative
      hrest
    rwa [hx] at hread

/-- The text of a finite number is a literal with a fraction or an exponent. -/
theorem exists_literal {x : Binary64} (hnan : x.isNaN = false) (hinf : x.isInfinite = false) :
    ∃ l : Literal, l.chars = x.text.toList ∧ l.isInteger = false := by
  have hparts : ∃ text v, x.text.toList = signChars x.isNegative ++ text ∧ Parts text v := by
    rw [text_finite hnan hinf]
    cases hzero : x.isZero with
    | true => exact ⟨_, _, rfl, parts_zero⟩
    | false =>
      obtain ⟨hcanonical, -⟩ := Binary64.ofScaled_parts (isFinite_of_not hnan hinf) hzero
      obtain ⟨d, ds, point, hshortest, hstart, hdigits, -⟩ := shortestDigits_spec hcanonical
      rw [hshortest]
      exact ⟨_, _, rfl, parts_layout hdigits hstart point⟩
  obtain ⟨text, v, htext, ds, fs, e?, hd, hf, hpart, rfl, -⟩ := hparts
  refine ⟨⟨x.isNegative, ds, fs, e?.map Exponent.ofInt, hd, hf⟩, ?_, not_isInteger _ hd hf hpart⟩
  rw [Literal.chars, exponentPart_ofInt, htext]

end Json
end AvroDocument
