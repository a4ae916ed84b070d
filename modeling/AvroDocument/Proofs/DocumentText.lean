import AvroDocument.Documents
import AvroDocument.Proofs.Grammar

/-!
# AvroDocument.Proofs.DocumentText

Texts that hold object documents.

* `Documents.LinesText`: one document on each line, with blanks around them and blank lines between.
* `Documents.DocumentsText`: one document, an array of documents, or documents on lines.
* `Documents.ofText_documents`: the documents of such a text, with blanks around it.
-/

namespace AvroDocument

/-- The value of a source as a document. -/
def Json.Source.value (s : Json.Source) : Value := .ofJson (s.tree .exact)

theorem Value.ofItems_eq (js : List Json) : Value.ofItems js = js.map Value.ofJson := by
  induction js with
  | nil => rfl
  | cons j js ih => rw [ofItems, ih, List.map_cons]

theorem Value.ofMembers_eq (ms : List (String × Json)) :
    Value.ofMembers ms = ms.map fun m => (.text m.1, Value.ofJson m.2) := by
  induction ms with
  | nil => rfl
  | cons m ms ih =>
    obtain ⟨key, j⟩ := m
    rw [ofMembers, ih, List.map_cons]

namespace Documents

open Json (Source TextOf)

/-- Blanks around the documents of a text. -/
def Margin (cs : List Char) : Prop := ∀ c ∈ cs, Text.isBlank c = true

/-- One document on each line. -/
inductive LinesText : List Source → List Char → Prop
  | last {ms : List (String × Source)} {cs : List Char} (h : TextOf (.obj ms) cs)
      (hline : '\n' ∉ cs) : LinesText [.obj ms] cs
  | cons {ms : List (String × Source)} {docs : List Source} {cs gap rest : List Char}
      (h : TextOf (.obj ms) cs) (hline : '\n' ∉ cs) (hg : Margin gap) (hbreak : '\n' ∈ gap)
      (hrest : LinesText docs rest) : LinesText (.obj ms :: docs) (cs ++ (gap ++ rest))

/-- A text of object documents. -/
inductive DocumentsText : List Source → List Char → Prop
  | object {ms : List (String × Source)} {cs : List Char} (h : TextOf (.obj ms) cs) :
      DocumentsText [.obj ms] cs
  | array {docs : List Source} {cs : List Char} (h : TextOf (.arr docs) cs)
      (hobj : ∀ d ∈ docs, ∃ ms, d = .obj ms) : DocumentsText docs cs
  | lines {docs : List Source} {cs : List Char} (h : LinesText docs cs) : DocumentsText docs cs

theorem margin_nil : Margin [] := List.forall_mem_nil _

theorem margin_newline : Margin ['\n'] := fun c hc => by
  rw [List.mem_singleton.mp hc]
  rfl

variable {docs : List Source} {cs rest gap a b : List Char}

/-! ## Blanks -/

/-- A text with no blank at either end. -/
structure Tight (cs : List Char) : Prop where
  front : ∃ c tail, cs = c :: tail ∧ Text.isBlank c = false
  back : ∃ c init, cs = init ++ [c] ∧ Text.isBlank c = false

theorem Tight.append (h : Tight cs) (h' : Tight rest) (mid : List Char) :
    Tight (cs ++ (mid ++ rest)) := by
  obtain ⟨c, tail, rfl, hc⟩ := h.front
  obtain ⟨d, init, rfl, hd⟩ := h'.back
  exact ⟨⟨c, _, rfl, hc⟩, ⟨d, c :: tail ++ (mid ++ init), by simp, hd⟩⟩

theorem trimChars_tight (ha : Margin a) (hb : Margin b) (h : Tight cs) :
    Text.trimChars (a ++ (cs ++ b)) = cs := by
  have hfront : (a ++ (cs ++ b)).dropWhile Text.isBlank = cs ++ b := by
    obtain ⟨c, tail, rfl, hc⟩ := h.front
    rw [List.dropWhile_append_of_pos ha, List.cons_append,
      List.dropWhile_cons_of_neg (by simp [hc])]
  have hback : (cs ++ b).reverse.dropWhile Text.isBlank = cs.reverse := by
    obtain ⟨c, init, rfl, hc⟩ := h.back
    rw [List.reverse_append, List.dropWhile_append_of_pos fun c hc => hb c (List.mem_reverse.mp hc),
      List.reverse_append, List.reverse_singleton, List.singleton_append,
      List.dropWhile_cons_of_neg (by simp [hc])]
  rw [Text.trimChars, Text.trimBy, hfront, hback, List.reverse_reverse]

theorem trimChars_cons {c : Char} (hc : Text.isBlank c = true) (cs : List Char) :
    Text.trimChars (c :: cs) = Text.trimChars cs := by
  rw [Text.trimChars, Text.trimBy, List.dropWhile_cons_of_pos hc]
  rfl

theorem tight_object {ms : List (String × Source)} (h : TextOf (.obj ms) cs) : Tight cs := by
  cases h with
  | @bare blank => exact ⟨⟨_, _, rfl, by decide⟩, ⟨'\x7d', '\x7b' :: blank, rfl, by decide⟩⟩
  | @obj _ blank cs =>
    exact ⟨⟨_, _, rfl, by decide⟩, ⟨'\x7d', '\x7b' :: (blank ++ cs), by simp, by decide⟩⟩

theorem tight_array (h : TextOf (.arr docs) cs) : Tight cs := by
  cases h with
  | @empty blank => exact ⟨⟨_, _, rfl, by decide⟩, ⟨']', '[' :: blank, rfl, by decide⟩⟩
  | @arr _ blank cs =>
    exact ⟨⟨_, _, rfl, by decide⟩, ⟨']', '[' :: (blank ++ cs), by simp, by decide⟩⟩

theorem LinesText.tight (h : LinesText docs cs) : Tight cs := by
  induction h with
  | last h => exact tight_object h
  | cons h _ _ _ _ ih => exact (tight_object h).append ih _

/-! ## Lines -/

/-- Blanks in front of lines do not count. -/
theorem ofLines_margin (hg : Margin gap) {values : List Value}
    (h : ∀ n, ofLines n (Text.split '\n' rest) = .ok values) :
    ∀ n, ofLines n (Text.split '\n' (gap ++ rest)) = .ok values := by
  induction gap with
  | nil => exact h
  | cons c gap ih =>
    intro n
    have hrest := ih fun d hd => hg d (List.mem_cons_of_mem _ hd)
    rw [List.cons_append]
    by_cases hc : c = '\n'
    · rw [hc, Text.split_separator]
      exact hrest (n + 1)
    · obtain ⟨piece, pieces, hsplit⟩ := Text.split_cons '\n' (gap ++ rest)
      have hn := hrest n
      rw [hsplit, ofLines] at hn
      rw [Text.split_other hc hsplit, ofLines, trimChars_cons (hg c List.mem_cons_self)]
      exact hn

/-- A line that holds one text. -/
theorem ofLines_document {s : Source} (h : TextOf s cs) (ht : Tight cs) (hg : Margin gap)
    {lines : List (List Char)} {values : List Value} {n : Nat}
    (hlines : ofLines (n + 1) lines = .ok values) :
    ofLines n ((cs ++ gap) :: lines) = .ok (s.value :: values) := by
  have htrim : Text.trimChars (cs ++ gap) = cs := trimChars_tight margin_nil hg ht
  obtain ⟨c, tail, rfl, -⟩ := ht.front
  rw [ofLines, htrim]
  simp only [Json.readChars_textOf h, hlines]
  rfl

theorem ofLines_linesText (h : LinesText docs cs) :
    ∀ n, ofLines n (Text.split '\n' cs) = .ok (docs.map Source.value) := by
  induction h with
  | @last ms cs h hline =>
    intro n
    have hone := @ofLines_document cs [] _ h (tight_object h) margin_nil [] [] n rfl
    rw [List.append_nil] at hone
    rw [Text.split_last hline]
    exact hone
  | @cons ms docs cs gap rest h hline hg hbreak _ ih =>
    intro n
    obtain ⟨front, back, rfl, hfront⟩ := List.eq_append_cons_of_mem hbreak
    have hsplit : Text.split '\n' (cs ++ (front ++ '\n' :: back ++ rest)) =
        (cs ++ front) :: Text.split '\n' (back ++ rest) := by
      rw [List.append_assoc, List.cons_append, ← List.append_assoc, Text.split_piece]
      rw [List.mem_append, not_or]
      exact ⟨hline, hfront⟩
    have hback : Margin back := fun c hc => hg c (List.mem_append_right _ (List.mem_cons_of_mem _ hc))
    rw [hsplit]
    exact ofLines_document h (tight_object h) (fun c hc => hg c (List.mem_append_left _ hc))
      (ofLines_margin hback ih (n + 1))

/-! ## Texts -/

theorem delimited_margin (hg : Margin gap) (hne : gap ≠ []) (rest : List Char) :
    Json.Delimited (gap ++ rest) := by
  obtain ⟨c, tail, rfl⟩ := List.exists_cons_of_ne_nil hne
  intro d hd
  obtain rfl : c = d := by simpa using hd
  have hblank := hg c List.mem_cons_self
  have hne (e : Char) (he : Text.isBlank e = false) : c ≠ e := by
    rintro rfl
    rw [hblank] at he
    cases he
  refine ⟨?_, hne _ (by decide), hne _ (by decide), hne _ (by decide)⟩
  simp only [Text.isBlank, Text.isSpace, Bool.or_eq_true, Bool.and_eq_true, decide_eq_true_eq,
    beq_iff_eq] at hblank
  rw [Bool.eq_false_iff]
  intro hdigit
  have hbounds : 48 ≤ c.toNat ∧ c.toNat ≤ 57 := by
    simpa [Char.isDigit, UInt32.le_iff_toNat_le] using hdigit
  omega

theorem skipSpace_ne_nil (h : Json.Starts rest) (gap : List Char) :
    Json.skipSpace (gap ++ rest) ≠ [] := by
  induction gap with
  | nil =>
    obtain ⟨c, tail, hrest, -⟩ := h.shape
    rw [List.nil_append, h.skipSpace_eq, hrest]
    exact List.cons_ne_nil _ _
  | cons c gap ih =>
    rw [List.cons_append, Json.skipSpace, List.dropWhile_cons]
    split
    · exact ih
    · exact List.cons_ne_nil _ _

theorem LinesText.starts (h : LinesText docs cs) : Json.Starts cs := by
  cases h with
  | last h => exact h.starts
  | cons h => exact h.starts.append _

/-- The documents of a text, with blanks around it. -/
theorem ofText_documents (h : DocumentsText docs cs) (ha : Margin a) (hb : Margin b) :
    ofText (String.ofList (a ++ (cs ++ b))) = .ok (docs.map Source.value) := by
  have htight : Tight cs := by
    cases h with
    | object h => exact tight_object h
    | array h => exact tight_array h
    | lines h => exact h.tight
  have hread {s : Source} (h : TextOf s cs) : Json.readChars .exact cs = .ok (s.tree .exact) :=
    Json.readChars_textOf h
  rw [ofText, String.toList_ofList, trimChars_tight ha hb htight]
  split
  · obtain ⟨c, tail, hcs, -⟩ := htight.front
    cases hcs
  cases h with
  | object h =>
    simp only [hread h]
    rfl
  | array h hobj =>
    simp only [hread h, Source.tree, Value.ofItems_eq, Source.itemTrees_eq, List.map_map]
    rfl
  | lines h =>
    have hlines := ofLines_linesText h 1
    cases h with
    | last h =>
      simp only [hread h]
      rfl
    | @cons _ _ _ gap _ h _ hg hbreak hrest =>
      obtain ⟨left, herror⟩ := @Json.readChars_extra .exact _ _ _ h
        (delimited_margin hg (List.ne_nil_of_mem hbreak) _) (skipSpace_ne_nil hrest.starts gap)
      simp only [herror]
      exact hlines

/-- An integer beyond the limit on digits ends the reading of documents, too. -/
theorem ofText_tooManyDigits {key : String} {ks : List Char} {l : Json.Literal}
    (hk : Json.Quotes key.toList ks) (hl : l.isInteger = true)
    (hlong : Json.digitLimit < l.whole.length) (hrest : Json.Delimited (rest ++ ['\x7d'])) :
    ofText (String.ofList ('\x7b' :: '"' :: (ks ++ '"' :: ':' ::
      (l.chars ++ (rest ++ ['\x7d']))))) = .error (.argument .tooManyDigits) := by
  have htight : Tight ('\x7b' :: '"' :: (ks ++ '"' :: ':' :: (l.chars ++ (rest ++ ['\x7d'])))) :=
    ⟨⟨_, _, rfl, by decide⟩,
      ⟨'\x7d', '\x7b' :: '"' :: (ks ++ '"' :: ':' :: (l.chars ++ rest)), by simp, by decide⟩⟩
  have htrim := trimChars_tight margin_nil margin_nil htight
  rw [List.nil_append, List.append_nil] at htrim
  rw [ofText, String.toList_ofList, htrim]
  simp only [Json.readChars_tooManyDigits hk hl hlong hrest]

end Documents
end AvroDocument
