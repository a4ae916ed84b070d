import AvroDocument.Json.Writer
import AvroDocument.Proofs.Association
import AvroDocument.Proofs.Literals

/-!
# AvroDocument.Proofs.Grammar

JSON texts, written down apart from the reader.

* `Json.Source`: a tree as it is written; number literals keep their characters.
* `Json.TextOf`: the texts of a source, with any white space and any escapes that the grammar allows.
* `Json.readValue_textOf`: the reader gives the tree of the source, whatever stands behind the text.
* `Json.readChars_textOf`: texts that hold one source and nothing else.
* `Json.readChars_extra`: texts with something behind the source.

Escapes of half a pair that stand alone are left out, and so are objects that hold a key twice.
-/

namespace AvroDocument
namespace Json

/-- White space between the parts of a text. -/
def Blank (cs : List Char) : Prop := ∀ c ∈ cs, isSpace c = true

theorem blank_nil : Blank [] := List.forall_mem_nil _

theorem blank_space : Blank [' '] := fun c hc => by
  rw [List.mem_singleton.mp hc]
  rfl

/-- What stands between the quotes of a string. An escape of half a pair that stands alone is left
out: what it stands for is no text, which no record can hold. -/
inductive Quotes : List Char → List Char → Prop
  | nil : Quotes [] []
  | plain {c : Char} {s cs : List Char} (hc : 32 ≤ c.toNat) (hquote : c ≠ '"') (hback : c ≠ '\\')
      (h : Quotes s cs) : Quotes (c :: s) (c :: cs)
  | escape {e c : Char} {s cs : List Char} (hc : simpleEscape? e = some c) (h : Quotes s cs) :
      Quotes (c :: s) ('\\' :: e :: cs)
  | unit {a b c d : Char} {n : Nat} {s cs : List Char} (hunit : hexUnit? a b c d = some n)
      (hhigh : isHighUnit n = false) (hlow : isLowUnit n = false) (h : Quotes s cs) :
      Quotes (Char.ofNat n :: s) ('\\' :: 'u' :: a :: b :: c :: d :: cs)
  | pair {a b c d a' b' c' d' : Char} {high low : Nat} {s cs : List Char}
      (hunit : hexUnit? a b c d = some high) (hhigh : isHighUnit high = true)
      (hunit' : hexUnit? a' b' c' d' = some low) (hlow : isLowUnit low = true) (h : Quotes s cs) :
      Quotes (pairChar high low :: s) ('\\' :: 'u' :: a :: b :: c :: d ::
        '\\' :: 'u' :: a' :: b' :: c' :: d' :: cs)

/-- A tree as it is written. -/
inductive Source where
  | null
  | bool (b : Bool)
  | nan
  | infinity (negative : Bool)
  | number (l : Literal)
  | str (s : String)
  | arr (items : List Source)
  | obj (members : List (String × Source))

namespace Source

mutual

/-- The tree that a source is read as. -/
def tree (style : NumberStyle) : Source → Json
  | null => .null
  | bool b => .bool b
  | nan => .float (Binary64.nan false)
  | infinity negative => .float (Binary64.infinity negative)
  | number l => l.tree style
  | str s => .str s
  | arr js => .arr (itemTrees style js)
  | obj ms => .obj (memberTrees style ms)

def itemTrees (style : NumberStyle) : List Source → List Json
  | [] => []
  | j :: js => tree style j :: itemTrees style js

def memberTrees (style : NumberStyle) : List (String × Source) → List (String × Json)
  | [] => []
  | (key, j) :: ms => (key, tree style j) :: memberTrees style ms

end

theorem itemTrees_eq (style : NumberStyle) (js : List Source) :
    itemTrees style js = js.map (tree style) := by
  induction js with
  | nil => rfl
  | cons j js ih => rw [itemTrees, ih, List.map_cons]

theorem memberTrees_eq (style : NumberStyle) (ms : List (String × Source)) :
    memberTrees style ms = ms.map fun m => (m.1, m.2.tree style) := by
  induction ms with
  | nil => rfl
  | cons m ms ih =>
    obtain ⟨key, j⟩ := m
    rw [memberTrees, ih, List.map_cons]

end Source

mutual

/-- The texts of a source. -/
inductive TextOf : Source → List Char → Prop
  | null : TextOf .null ['n', 'u', 'l', 'l']
  | bool (b : Bool) : TextOf (.bool b) (boolText b).toList
  | nan : TextOf .nan ['N', 'a', 'N']
  | infinity (negative : Bool) : TextOf (.infinity negative)
      (signChars negative ++ ['I', 'n', 'f', 'i', 'n', 'i', 't', 'y'])
  | number {l : Literal} (h : l.Readable) : TextOf (.number l) l.chars
  | str {s : String} {cs : List Char} (h : Quotes s.toList cs) :
      TextOf (.str s) ('"' :: (cs ++ ['"']))
  | empty {blank : List Char} (hb : Blank blank) : TextOf (.arr []) ('[' :: (blank ++ [']']))
  | arr {js : List Source} {blank cs : List Char} (hb : Blank blank) (h : ItemsTextOf js cs) :
      TextOf (.arr js) ('[' :: (blank ++ (cs ++ [']'])))
  | bare {blank : List Char} (hb : Blank blank) :
      TextOf (.obj []) ('\x7b' :: (blank ++ ['\x7d']))
  | obj {ms : List (String × Source)} {blank cs : List Char} (hb : Blank blank)
      (h : MembersTextOf ms cs) (hd : (ms.map (·.1)).Nodup) :
      TextOf (.obj ms) ('\x7b' :: (blank ++ (cs ++ ['\x7d'])))

/-- The texts of one item or more. -/
inductive ItemsTextOf : List Source → List Char → Prop
  | last {j : Source} {cs blank : List Char} (h : TextOf j cs) (hb : Blank blank) :
      ItemsTextOf [j] (cs ++ blank)
  | cons {j : Source} {js : List Source} {cs blank blank' rest : List Char} (h : TextOf j cs)
      (hb : Blank blank) (hb' : Blank blank') (hrest : ItemsTextOf js rest) :
      ItemsTextOf (j :: js) (cs ++ (blank ++ ',' :: (blank' ++ rest)))

/-- The texts of one member or more. -/
inductive MembersTextOf : List (String × Source) → List Char → Prop
  | last {key : String} {j : Source} {ks cs blank blank' after : List Char}
      (hk : Quotes key.toList ks) (hb : Blank blank) (hb' : Blank blank') (h : TextOf j cs)
      (ha : Blank after) :
      MembersTextOf [(key, j)]
        ('"' :: (ks ++ '"' :: (blank ++ ':' :: (blank' ++ (cs ++ after)))))
  | cons {key : String} {j : Source} {ms : List (String × Source)}
      {ks cs blank blank' after before rest : List Char} (hk : Quotes key.toList ks)
      (hb : Blank blank) (hb' : Blank blank') (h : TextOf j cs) (ha : Blank after)
      (hbefore : Blank before) (hrest : MembersTextOf ms rest) :
      MembersTextOf ((key, j) :: ms) ('"' :: (ks ++ '"' :: (blank ++ ':' :: (blank' ++
        (cs ++ (after ++ ',' :: (before ++ rest)))))))

end

variable {style : NumberStyle} {cs blank rest : List Char}

/-! ## Strings -/

theorem readString_escape {e c : Char} (h : simpleEscape? e = some c) (start : Nat)
    (taken rest : List Char) :
    readString start taken ('\\' :: e :: rest) = readString start (c :: taken) rest := by
  have hu : e ≠ 'u' := by
    rintro rfl
    cases h
  rw [readString]
  · simp only [h]
  all_goals
    intros
    contradiction

theorem readString_plain {c : Char} (hc : 32 ≤ c.toNat) (hquote : c ≠ '"') (hback : c ≠ '\\')
    (start : Nat) (taken rest : List Char) :
    readString start taken (c :: rest) = readString start (c :: taken) rest := by
  rw [readString]
  · rw [if_neg (Nat.not_lt.mpr hc)]
  all_goals
    intros
    contradiction

/-- A string is read up to its closing quote. -/
theorem readString_quotes {s cs : List Char} (h : Quotes s cs) (start : Nat)
    (taken rest : List Char) :
    readString start taken (cs ++ '"' :: rest) =
      .ok (String.ofList (taken.reverse ++ s), rest) := by
  induction h generalizing taken with
  | nil => simp [readString]
  | @plain c s cs hc hquote hback _ ih =>
    rw [List.cons_append, readString_plain hc hquote hback, ih, List.reverse_cons,
      List.append_assoc]
    rfl
  | @escape e c s cs hc _ ih =>
    rw [List.cons_append, List.cons_append, readString_escape hc, ih, List.reverse_cons,
      List.append_assoc]
    rfl
  | @unit a b c d n s cs hunit hhigh hlow _ ih =>
    -- The reader looks at one character behind the escape, which is the closing quote at least.
    obtain ⟨next, tail, hnext⟩ := List.exists_cons_of_ne_nil
      (List.append_ne_nil_of_right_ne_nil cs (List.cons_ne_nil '"' rest))
    have hrest := ih (Char.ofNat n :: taken)
    rw [hnext, List.reverse_cons, List.append_assoc] at hrest
    simp only [List.cons_append, hnext]
    rw [readString, hunit]
    simp only [hhigh, unitChar, hlow, Bool.or_false, Bool.false_eq_true, if_false]
    exact hrest
  | @pair a b c d a' b' c' d' high low s cs hunit hhigh hunit' hlow _ ih =>
    obtain ⟨next, tail, hnext⟩ := List.exists_cons_of_ne_nil
      (List.append_ne_nil_of_right_ne_nil cs (List.cons_ne_nil '"' rest))
    have hrest := ih (pairChar high low :: taken)
    rw [hnext, List.reverse_cons, List.append_assoc] at hrest
    simp only [List.cons_append, hnext]
    rw [readString, hunit]
    simp only [hhigh, if_true, secondUnit?, hunit', hlow, List.drop_succ_cons, List.drop_zero]
    exact hrest

/-! ## White space -/

theorem skipSpace_of_not {c : Char} {cs : List Char} (h : isSpace c = false) :
    skipSpace (c :: cs) = c :: cs := by
  rw [skipSpace, List.dropWhile_cons_of_neg (by simp [h])]

theorem skipSpace_blank (hb : Blank blank) (cs : List Char) :
    skipSpace (blank ++ cs) = skipSpace cs := by
  rw [skipSpace, List.dropWhile_append_of_pos hb]
  rfl

theorem skipSpace_blank_cons (hb : Blank blank) {c : Char} (hc : isSpace c = false)
    (cs : List Char) : skipSpace (blank ++ c :: cs) = c :: cs := by
  rw [skipSpace_blank hb, skipSpace_of_not hc]

theorem delimited_nil : Delimited [] := fun _ h => absurd h (Option.not_mem_none _)

theorem delimited_cons {c : Char} {cs : List Char} (h : c = ',' ∨ c = ']' ∨ c = '\x7d') :
    Delimited (c :: cs) := by
  intro d hd
  obtain rfl : c = d := by simpa using hd
  obtain rfl | rfl | rfl := h <;> decide

theorem delimited_blank (hb : Blank blank) (h : Delimited rest) : Delimited (blank ++ rest) := by
  cases blank with
  | nil => exact h
  | cons c blank =>
    intro d hd
    obtain rfl : c = d := by simpa using hd
    have hc := hb c List.mem_cons_self
    simp only [isSpace, Bool.or_eq_true, decide_eq_true_eq] at hc
    obtain ((rfl | rfl) | rfl) | rfl := hc <;> decide

/-! ## Where a text starts -/

/-- A text starts with a character that is no space, ends no list and marks no byte order. -/
structure Starts (cs : List Char) : Prop where
  shape : ∃ c tail, cs = c :: tail ∧ isSpace c = false ∧ c ≠ ']' ∧ c ≠ '\x7d' ∧ c ≠ '\uFEFF'

theorem starts_digit {c : Char} (h : c.isDigit = true) (tail : List Char) : Starts (c :: tail) := by
  have hne (d : Char) (hd : d.isDigit = false) : c ≠ d := by
    rintro rfl
    rw [h] at hd
    cases hd
  refine ⟨c, tail, rfl, ?_, hne _ rfl, hne _ rfl, hne _ rfl⟩
  simp [isSpace, hne ' ' rfl, hne '\t' rfl, hne '\n' rfl, hne '\r' rfl]

theorem Literal.starts (l : Literal) : Starts l.chars := by
  obtain ⟨d, tail, hchars, hd⟩ := l.exists_cons
  rw [hchars]
  cases l.negative with
  | true => exact ⟨_, _, rfl, by decide⟩
  | false => exact starts_digit hd tail

theorem TextOf.starts {s : Source} (h : TextOf s cs) : Starts cs := by
  cases h with
  | bool b => cases b <;> exact ⟨_, _, rfl, by decide⟩
  | infinity negative => cases negative <;> exact ⟨_, _, rfl, by decide⟩
  | @number l h => exact l.starts
  | _ => exact ⟨_, _, rfl, by decide⟩

theorem Starts.append (h : Starts cs) (rest : List Char) : Starts (cs ++ rest) := by
  obtain ⟨c, tail, rfl, hc⟩ := h.shape
  exact ⟨c, tail ++ rest, rfl, hc⟩

theorem Starts.skipSpace_eq (h : Starts cs) : skipSpace cs = cs := by
  obtain ⟨c, tail, rfl, hc, -⟩ := h.shape
  exact skipSpace_of_not hc

theorem Starts.length_pos (h : Starts cs) : 0 < cs.length := by
  obtain ⟨c, tail, rfl, -⟩ := h.shape
  exact Nat.succ_pos _

theorem ItemsTextOf.starts {js : List Source} (h : ItemsTextOf js cs) : Starts cs := by
  cases h with
  | last h | cons h => exact h.starts.append _

theorem MembersTextOf.starts {ms : List (String × Source)} (h : MembersTextOf ms cs) :
    Starts cs := by
  cases h with
  | last | cons => exact ⟨_, _, rfl, by decide⟩

/-! ## Values -/

/-- What reads as a number is none of the other values. -/
theorem readValue_literal (l : Literal) (rest : List Char) (fuel : Nat) :
    readValue style (fuel + 1) (l.chars ++ rest) = readNumber style (l.chars ++ rest) := by
  obtain ⟨d, tail, hchars, hd⟩ := l.exists_cons
  have hne (c : Char) (hc : c.isDigit = false) : d ≠ c := by
    rintro rfl
    rw [hd] at hc
    cases hc
  rw [hchars]
  cases hnegative : l.negative with
  | true =>
    rw [show signChars true ++ d :: tail ++ rest = '-' :: d :: (tail ++ rest) from rfl]
    rw [readValue]
    all_goals
      intro rest heq
      simp only [List.cons.injEq] at heq
      first
        | exact absurd heq.1 (by decide)
        | exact hne 'I' rfl heq.2.1
  | false =>
    rw [show signChars false ++ d :: tail ++ rest = d :: (tail ++ rest) from rfl]
    rw [readValue]
    all_goals
      intro rest heq
      simp only [List.cons.injEq] at heq
      exact hne _ rfl heq.1

theorem readValue_quote (fuel : Nat) (rest : List Char) :
    readValue style (fuel + 1) ('"' :: rest) =
      match readString ('"' :: rest).length [] rest with
      | .error e => .error e
      | .ok (s, rest) => .ok (.str s, rest) := rfl

theorem readValue_bracket (fuel : Nat) (rest : List Char) :
    readValue style (fuel + 1) ('[' :: rest) =
      match skipSpace rest with
      | ']' :: rest => .ok (.arr [], rest)
      | rest => readItems style fuel [] rest := rfl

theorem readValue_brace (fuel : Nat) (rest : List Char) :
    readValue style (fuel + 1) ('\x7b' :: rest) =
      match skipSpace rest with
      | '\x7d' :: rest => .ok (.obj [], rest)
      | rest => readMembers style fuel [] rest := rfl

/-- A list of items that does not end at once is entered. -/
theorem readValue_items (hb : Blank blank) (h : Starts cs) (fuel : Nat) :
    readValue style (fuel + 1) ('[' :: (blank ++ cs)) = readItems style fuel [] cs := by
  rw [readValue_bracket, skipSpace_blank hb, h.skipSpace_eq]
  obtain ⟨c, tail, rfl, -, hend, -⟩ := h.shape
  split
  · rename_i heq
    exact absurd (List.cons.inj heq).1 hend
  · rfl

theorem readValue_members (hb : Blank blank) (h : Starts cs) (fuel : Nat) :
    readValue style (fuel + 1) ('\x7b' :: (blank ++ cs)) = readMembers style fuel [] cs := by
  rw [readValue_brace, skipSpace_blank hb, h.skipSpace_eq]
  obtain ⟨c, tail, rfl, -, -, hend, -⟩ := h.shape
  split
  · rename_i heq
    exact absurd (List.cons.inj heq).1 hend
  · rfl

/-- Reading a member up to what stands behind its value. -/
theorem readMembers_member {key : String} {j : Json} {ks blank' after : List Char}
    (hk : Quotes key.toList ks) (hb : Blank blank) (hb' : Blank blank') (hstarts : Starts cs)
    {fuel : Nat} (hread : readValue style fuel (cs ++ (after ++ rest)) = .ok (j, after ++ rest))
    (ha : Blank after) (taken : List (String × Json)) :
    readMembers style (fuel + 1) taken
        ('"' :: (ks ++ '"' :: (blank ++ ':' :: (blank' ++ (cs ++ (after ++ rest)))))) =
      match skipSpace rest with
      | '\x7d' :: rest => .ok (.obj (assign key j taken), rest)
      | ',' :: rest => readMembers style fuel (assign key j taken) (skipSpace rest)
      | rest => fail .expectingComma rest := by
  have hstring (start : Nat) := readString_quotes hk start []
    (blank ++ ':' :: (blank' ++ (cs ++ (after ++ rest))))
  simp only [List.reverse_nil, List.nil_append, String.ofList_toList] at hstring
  have hafter : skipSpace (after ++ rest) = skipSpace rest := skipSpace_blank ha rest
  rw [readMembers]
  simp only [hstring, skipSpace_blank_cons hb (show isSpace ':' = false by decide),
    skipSpace_blank hb', (hstarts.append (after ++ rest)).skipSpace_eq, hread]
  generalize skipSpace (after ++ rest) = behind at hafter ⊢
  subst hafter
  rfl

/-- A member whose value is not read. -/
theorem readMembers_failed {key : String} {ks blank' : List Char} {e : ReadError}
    (hk : Quotes key.toList ks) (hb : Blank blank) (hb' : Blank blank') (hstarts : Starts cs)
    {fuel : Nat} (hread : readValue style fuel cs = .error e) (taken : List (String × Json)) :
    readMembers style (fuel + 1) taken ('"' :: (ks ++ '"' :: (blank ++ ':' :: (blank' ++ cs)))) =
      .error e := by
  have hstring (start : Nat) := readString_quotes hk start [] (blank ++ ':' :: (blank' ++ cs))
  rw [readMembers]
  simp only [hstring, skipSpace_blank_cons hb (show isSpace ':' = false by decide),
    skipSpace_blank hb', hstarts.skipSpace_eq, hread]

mutual

/-- The text of a source is read as the tree of the source, whatever stands behind it, as long as it
is no part of a number; twice the length of the text is fuel enough. -/
theorem readValue_textOf {s : Source} {cs : List Char} (h : TextOf s cs) {fuel : Nat}
    {rest : List Char} (hrest : Delimited rest) (hf : 2 * cs.length ≤ fuel) :
    readValue style fuel (cs ++ rest) = .ok (s.tree style, rest) := by
  obtain ⟨fuel, rfl⟩ : ∃ n, fuel = n + 1 := ⟨fuel - 1, by
    have := h.starts.length_pos
    omega⟩
  match h with
  | .null | .nan => rfl
  | .bool b => cases b <;> rfl
  | .infinity negative => cases negative <;> rfl
  | .number h => exact (readValue_literal _ rest fuel).trans (readNumber_literal h hrest)
  | .str h =>
    have hstring := readString_quotes h
    simp only [List.cons_append, List.append_assoc, readValue_quote, hstring, List.reverse_nil,
      List.nil_append, String.ofList_toList]
    rfl
  | .empty hb =>
    rw [List.cons_append, List.append_assoc, List.singleton_append, readValue_bracket,
      skipSpace_blank_cons hb (by decide)]
    rfl
  | .bare hb =>
    rw [List.cons_append, List.append_assoc, List.singleton_append, readValue_brace,
      skipSpace_blank_cons hb (by decide)]
    rfl
  | .arr hb h =>
    simp only [List.length_cons, List.length_append] at hf
    simp only [List.cons_append, List.append_assoc, List.nil_append]
    rw [readValue_items hb (h.starts.append _)]
    exact readItems_textOf h [] rest (by omega)
  | .obj hb h hd =>
    simp only [List.length_cons, List.length_append] at hf
    simp only [List.cons_append, List.append_assoc, List.nil_append]
    rw [readValue_members hb (h.starts.append _)]
    exact readMembers_textOf h [] rest hd (by omega)

theorem readItems_textOf {js : List Source} {cs : List Char} (h : ItemsTextOf js cs)
    (taken : List Json) {fuel : Nat} (rest : List Char) (hf : 2 * cs.length + 1 ≤ fuel) :
    readItems style fuel taken (cs ++ ']' :: rest) =
      .ok (.arr (taken.reverse ++ Source.itemTrees style js), rest) := by
  obtain ⟨fuel, rfl⟩ : ∃ n, fuel = n + 1 := ⟨fuel - 1, by omega⟩
  match h with
  | .last h hb =>
    rw [List.length_append] at hf
    rw [readItems, List.append_assoc,
      readValue_textOf h (delimited_blank hb (delimited_cons (.inr (.inl rfl)))) (by omega)]
    simp only [skipSpace_blank_cons hb (show isSpace ']' = false by decide), List.reverse_cons]
    rfl
  | .cons h hb hb' hrest =>
    simp only [List.length_append, List.length_cons] at hf
    simp only [List.append_assoc, List.cons_append]
    rw [readItems,
      readValue_textOf h (delimited_blank hb (delimited_cons (.inl rfl))) (by omega)]
    simp only [skipSpace_blank_cons hb (show isSpace ',' = false by decide), skipSpace_blank hb',
      (hrest.starts.append _).skipSpace_eq]
    rw [readItems_textOf hrest _ rest (by omega), List.reverse_cons, List.append_assoc]
    rfl

theorem readMembers_textOf {ms : List (String × Source)} {cs : List Char}
    (h : MembersTextOf ms cs) (taken : List (String × Json)) {fuel : Nat} (rest : List Char)
    (hd : (taken.map (·.1) ++ ms.map (·.1)).Nodup) (hf : 2 * cs.length + 1 ≤ fuel) :
    readMembers style fuel taken (cs ++ '\x7d' :: rest) =
      .ok (.obj (taken ++ Source.memberTrees style ms), rest) := by
  obtain ⟨fuel, rfl⟩ : ∃ n, fuel = n + 1 := ⟨fuel - 1, by omega⟩
  match h with
  | .last hk hb hb' h ha =>
    simp only [List.length_append, List.length_cons] at hf
    have hnew := (List.nodup_append.mp hd).2.2
    simp only [List.append_assoc, List.cons_append]
    rw [readMembers_member hk hb hb' h.starts (readValue_textOf h
      (delimited_blank ha (delimited_cons (.inr (.inr rfl)))) (by omega)) ha,
      assign_new fun hmem => hnew _ hmem _ List.mem_cons_self rfl]
    simp only [skipSpace_of_not (show isSpace '\x7d' = false by decide)]
    rfl
  | .cons hk hb hb' h ha hbefore hrest =>
    simp only [List.length_append, List.length_cons] at hf
    have hnew := (List.nodup_append.mp hd).2.2
    simp only [List.append_assoc, List.cons_append]
    rw [readMembers_member hk hb hb' h.starts (readValue_textOf h
      (delimited_blank ha (delimited_cons (.inl rfl))) (by omega)) ha,
      assign_new fun hmem => hnew _ hmem _ List.mem_cons_self rfl]
    simp only [skipSpace_of_not (show isSpace ',' = false by decide), skipSpace_blank hbefore,
      (hrest.starts.append _).skipSpace_eq]
    rw [readMembers_textOf hrest _ rest (by simpa using hd) (by omega), List.append_assoc]
    rfl

end

/-! ## Texts that hold one value -/

/-- Reading a text up to what stands behind its value. -/
theorem readChars_append {s : Source} (h : TextOf s cs) (hrest : Delimited rest) :
    readChars style (cs ++ rest) =
      match skipSpace rest with
      | [] => .ok (s.tree style)
      | rest => fail .extraData rest := by
  have hstarts := h.starts.append rest
  obtain ⟨c, tail, hcs, -, -, -, hmark⟩ := hstarts.shape
  have hhead : ¬ (cs ++ rest).head? = some '\uFEFF' := by
    rw [hcs]
    simpa using hmark
  have hfuel : 2 * cs.length ≤ 2 * (cs ++ rest).length + 2 := by
    rw [List.length_append]
    omega
  have hread : readValue style (2 * (cs ++ rest).length + 2) (cs ++ rest) =
      .ok (s.tree style, rest) := readValue_textOf h hrest hfuel
  rw [readChars, if_neg hhead, hstarts.skipSpace_eq]
  generalize readValue style _ (cs ++ rest) = outcome at hread ⊢
  subst hread
  rfl

theorem readChars_textOf {s : Source} (h : TextOf s cs) :
    readChars style cs = .ok (s.tree style) := by
  have hread := @readChars_append style _ _ _ h delimited_nil
  rwa [List.append_nil] at hread

/-- A text with more than white space behind its value is refused. -/
theorem readChars_extra {s : Source} (h : TextOf s cs) (hrest : Delimited rest)
    (hextra : skipSpace rest ≠ []) :
    ∃ left, readChars style (cs ++ rest) = .error (.malformed .extraData left) := by
  obtain ⟨c, tail, hcons⟩ := List.exists_cons_of_ne_nil hextra
  rw [readChars_append h hrest, hcons]
  exact ⟨_, rfl⟩

/-- An integer beyond the limit on digits ends the reading of a text, whatever stands behind it. -/
theorem readChars_tooManyDigits {key : String} {ks : List Char} {l : Literal}
    (hk : Quotes key.toList ks) (hl : l.isInteger = true) (hlong : digitLimit < l.whole.length)
    (hrest : Delimited rest) :
    readChars style ('\x7b' :: '"' :: (ks ++ '"' :: ':' :: (l.chars ++ rest))) =
      .error .tooManyDigits := by
  have hnumber (fuel : Nat) : readValue style (fuel + 1) (l.chars ++ rest) =
      .error .tooManyDigits := by
    rw [readValue_literal, readNumber_chars l hrest, if_pos ⟨hl, hlong⟩]
  have hstarts : Starts ('"' :: (ks ++ '"' :: ':' :: (l.chars ++ rest))) :=
    ⟨_, _, rfl, by decide⟩
  have hvalue (fuel : Nat) : readValue style (fuel + 3)
      ('\x7b' :: '"' :: (ks ++ '"' :: ':' :: (l.chars ++ rest))) = .error .tooManyDigits :=
    (readValue_members blank_nil hstarts (fuel + 2)).trans
      (readMembers_failed hk blank_nil blank_nil (l.starts.append rest) (hnumber fuel) [])
  rw [readChars, if_neg (by simp), skipSpace_of_not (by decide)]
  obtain ⟨fuel, hfuel⟩ : ∃ fuel, 2 * ('\x7b' :: '"' :: (ks ++ '"' :: ':' :: (l.chars ++ rest))).length
      + 2 = fuel + 3 := ⟨_, by rw [List.length_cons, Nat.mul_succ]⟩
  rw [hfuel, hvalue fuel]

end Json
end AvroDocument
