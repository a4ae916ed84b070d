import AvroDocument.Proofs.DocumentText
import Mathlib

/-!
# AvroDocument.Proofs.FaultyLines

Which line is reported when the documents of a text cannot be read.

* `Documents.FirstFault`: the first line that is neither blank nor a JSON text.
* `Documents.trimmedLines_front`, `Documents.trimmedLines_back`: blanks around a text add blank lines
  to it and nothing else.
* `Documents.ofText_invalidJson_iff`: the first faulty line is reported, under its number among the
  lines from the first one on that is not blank.
* `Documents.ofText_leading_newline`: in a text that starts with a blank line this is the number of an
  earlier line.
-/

namespace AvroDocument
namespace Documents

/-- The first of some lines, taken without the blanks around them, that is neither empty nor a JSON
text; its index and what is wrong with it. -/
inductive FirstFault : List (List Char) → Nat → Json.Fault → Prop
  | here {line : List Char} {lines : List (List Char)} {fault : Json.Fault} {left : Nat}
      (hline : line ≠ []) (h : Json.readChars .exact line = .error (.malformed fault left)) :
      FirstFault (line :: lines) 0 fault
  | blank {lines : List (List Char)} {i : Nat} {fault : Json.Fault} (h : FirstFault lines i fault) :
      FirstFault ([] :: lines) (i + 1) fault
  | text {line : List Char} {lines : List (List Char)} {i : Nat} {fault : Json.Fault} {tree : Json}
      (hline : Json.readChars .exact line = .ok tree) (h : FirstFault lines i fault) :
      FirstFault (line :: lines) (i + 1) fault

/-- The lines of a text without the blanks around them. -/
def trimmedLines (cs : List Char) : List (List Char) := (Text.split '\n' cs).map Text.trimChars

variable {lines : List (List Char)} {line a b cs : List Char} {fault : Json.Fault} {i n number : Nat}

/-! ## Reading lines -/

theorem firstFault_cons : FirstFault (line :: lines) i fault ↔
    (i = 0 ∧ line ≠ [] ∧ ∃ left, Json.readChars .exact line = .error (.malformed fault left)) ∨
      ∃ j, i = j + 1 ∧ (line = [] ∨ ∃ tree, Json.readChars .exact line = .ok tree) ∧
        FirstFault lines j fault := by
  constructor
  · intro h
    cases h with
    | here hline h => exact .inl ⟨rfl, hline, _, h⟩
    | blank h => exact .inr ⟨_, rfl, .inl rfl, h⟩
    | text hline h => exact .inr ⟨_, rfl, .inr ⟨_, hline⟩, h⟩
  · rintro (⟨rfl, hline, left, h⟩ | ⟨j, rfl, rfl | ⟨tree, hline⟩, h⟩)
    · exact .here hline h
    · exact .blank h
    · exact .text hline h

theorem map_eq_error {α β : Type} {x : Except Failure α} {f : α → β} {e : Failure} :
    x.map f = .error e ↔ x = .error e := by
  cases x <;> simp [Except.map]

/-- Lines that are read from a number on fail at the first faulty one, under its number. -/
theorem ofLines_invalidJson_iff : ofLines number lines = .error (.argument (.invalidJson n fault)) ↔
    ∃ i, n = number + i ∧ FirstFault (lines.map Text.trimChars) i fault := by
  induction lines generalizing number with
  | nil =>
    constructor
    · intro h
      cases h
    · rintro ⟨i, -, h⟩
      cases h
  | cons line lines ih =>
    have hbehind : (∃ j, n = number + 1 + j ∧ FirstFault (lines.map Text.trimChars) j fault) ↔
        ∃ i, n = number + i ∧ ∃ j, i = j + 1 ∧ FirstFault (lines.map Text.trimChars) j fault := by
      constructor
      · rintro ⟨j, rfl, h⟩
        exact ⟨j + 1, by omega, j, rfl, h⟩
      · rintro ⟨_, rfl, j, rfl, h⟩
        exact ⟨j, by omega, h⟩
    rw [List.map_cons, ofLines]
    simp only [firstFault_cons]
    split
    · rename_i hline
      rw [ih, hbehind]
      simp [hline]
    · rename_i hline
      replace hline : Text.trimChars line ≠ [] := hline
      split
      · rename_i hread
        simp only [hline, hread, reduceCtorEq, exists_false, or_self, false_and, and_false, or_false]
        constructor
        · intro h
          cases h
          exact ⟨0, rfl, rfl, hline, _, rfl⟩
        · rintro ⟨_, rfl, rfl, -, left, h⟩
          cases h
          rfl
      · rename_i hread
        simp [hline, hread]
      · rename_i hread
        rw [map_eq_error, ih, hbehind]
        simp [hread]

/-! ## Blanks around a text -/

theorem trimChars_margin (hb : Margin b) (cs : List Char) :
    Text.trimChars (cs ++ b) = Text.trimChars cs := by
  have hblank : b.dropWhile Text.isBlank = [] := List.dropWhile_eq_nil_iff.mpr hb
  have hreverse : b.reverse.dropWhile Text.isBlank = [] :=
    List.dropWhile_eq_nil_iff.mpr fun c hc => hb c (List.mem_reverse.mp hc)
  rw [Text.trimChars, Text.trimBy, List.dropWhile_append]
  split
  · rename_i hall
    rw [Text.trimChars, Text.trimBy, hblank, List.isEmpty_iff.mp hall]
  · rw [List.reverse_append, List.dropWhile_append, hreverse]
    rfl

/-- Blanks in front of a text add one blank line for each line break. -/
theorem trimmedLines_front (ha : Margin a) (cs : List Char) :
    trimmedLines (a ++ cs) = List.replicate (a.count '\n') [] ++ trimmedLines cs := by
  induction a with
  | nil => rfl
  | cons c a ih =>
    have hrest := ih fun d hd => ha d (List.mem_cons_of_mem _ hd)
    rw [List.cons_append]
    by_cases hc : c = '\n'
    · subst hc
      rw [List.count_cons_self, List.replicate_succ, List.cons_append, ← hrest]
      simp only [trimmedLines, Text.split_separator, List.map_cons]
      rfl
    · obtain ⟨piece, pieces, hsplit⟩ := Text.split_cons '\n' (a ++ cs)
      rw [List.count_cons_of_ne hc, ← hrest]
      simp only [trimmedLines, hsplit, Text.split_other hc hsplit, List.map_cons,
        trimChars_cons (ha c List.mem_cons_self)]

theorem trimmedLines_margin (hb : Margin b) :
    trimmedLines b = List.replicate (b.count '\n' + 1) [] := by
  have hlines := trimmedLines_front hb []
  rw [List.append_nil] at hlines
  rw [hlines, List.replicate_succ']
  rfl

/-- Blanks behind a text stand at the end of its last line and in blank lines behind it. -/
theorem trimmedLines_back (hb : Margin b) (cs : List Char) :
    trimmedLines (cs ++ b) = trimmedLines cs ++ List.replicate (b.count '\n') [] := by
  by_cases hbreak : '\n' ∈ cs
  · obtain ⟨line, rest, rfl, hline⟩ := List.eq_append_cons_of_mem hbreak
    have hshorter : rest.length < (line ++ '\n' :: rest).length := by
      simp only [List.length_append, List.length_cons]
      omega
    have hrest := trimmedLines_back hb rest
    simp only [trimmedLines] at hrest ⊢
    rw [List.append_assoc, List.cons_append, Text.split_piece hline, Text.split_piece hline,
      List.map_cons, List.map_cons, hrest, List.cons_append]
  · have hlast : trimmedLines cs = [Text.trimChars cs] := by
      rw [trimmedLines, Text.split_last hbreak, List.map_singleton]
    rw [hlast]
    by_cases hblank : '\n' ∈ b
    · obtain ⟨pad, rest, rfl, hpad⟩ := List.eq_append_cons_of_mem hblank
      have hrest : Margin rest :=
        fun c hc => hb c (List.mem_append_right _ (List.mem_cons_of_mem _ hc))
      have hmargin : Margin pad := fun c hc => hb c (List.mem_append_left _ hc)
      have hbehind := trimmedLines_margin hrest
      have hcount : (pad ++ '\n' :: rest).count '\n' = rest.count '\n' + 1 := by
        rw [List.count_append, List.count_eq_zero.mpr hpad, List.count_cons_self, Nat.zero_add]
      have hfirst : '\n' ∉ cs ++ pad := by
        rw [List.mem_append, not_or]
        exact ⟨hbreak, hpad⟩
      rw [trimmedLines] at hbehind ⊢
      rw [hcount, ← List.append_assoc, Text.split_piece hfirst, List.map_cons, hbehind,
        trimChars_margin hmargin]
      rfl
    · have hone : '\n' ∉ cs ++ b := by
        rw [List.mem_append, not_or]
        exact ⟨hbreak, hblank⟩
      rw [trimmedLines, Text.split_last hone, List.map_singleton, trimChars_margin hb,
        List.count_eq_zero.mpr hblank]
      rfl
termination_by cs.length

/-! ## Faulty lines of a text -/

theorem firstFault_replicate {k : Nat} : FirstFault (List.replicate k [] ++ lines) i fault ↔
    ∃ j, i = k + j ∧ FirstFault lines j fault := by
  induction k generalizing i with
  | zero => simp
  | succ k ih =>
    simp only [List.replicate_succ, List.cons_append, firstFault_cons, ih, ne_eq, not_true, false_and,
      and_false, true_or, true_and, false_or]
    constructor
    · rintro ⟨_, rfl, j, rfl, h⟩
      exact ⟨j, by omega, h⟩
    · rintro ⟨j, rfl, h⟩
      exact ⟨k + j, by omega, j, rfl, h⟩

theorem firstFault_append_replicate {k : Nat} :
    FirstFault (lines ++ List.replicate k []) i fault ↔ FirstFault lines i fault := by
  induction lines generalizing i with
  | nil =>
    have hnone := @firstFault_replicate [] fault i k
    rw [List.append_nil] at hnone
    rw [List.nil_append, hnone]
    constructor
    · rintro ⟨_, _, h⟩
      cases h
    · intro h
      cases h
  | cons line lines ih => rw [List.cons_append, firstFault_cons, firstFault_cons]; simp only [ih]

/-- The number of line breaks in front of the first character of a text that is not blank. -/
def leadingBreaks (cs : List Char) : Nat := (cs.takeWhile Text.isBlank).count '\n'

theorem margin_takeWhile (cs : List Char) : Margin (cs.takeWhile Text.isBlank) := fun c hc =>
  List.all_eq_true.mp (List.all_takeWhile (l := cs)) c hc

/-- A text is its trimmed part between margins. -/
theorem exists_margins (cs : List Char) :
    ∃ b, Margin b ∧ cs = cs.takeWhile Text.isBlank ++ (Text.trimChars cs ++ b) := by
  refine ⟨((cs.dropWhile Text.isBlank).reverse.takeWhile Text.isBlank).reverse, ?_, ?_⟩
  · exact fun c hc => margin_takeWhile _ c (List.mem_reverse.mp hc)
  · rw [Text.trimChars, Text.trimBy, ← List.reverse_append, List.takeWhile_append_dropWhile,
      List.reverse_reverse, List.takeWhile_append_dropWhile]

/-- The faulty line of a text is the one of its trimmed part, behind the line breaks in front of it. -/
theorem firstFault_trimmed (cs : List Char) : FirstFault (trimmedLines cs) i fault ↔
    ∃ j, i = leadingBreaks cs + j ∧ FirstFault (trimmedLines (Text.trimChars cs)) j fault := by
  obtain ⟨b, hb, hcs⟩ := exists_margins cs
  have hlines := trimmedLines_front (margin_takeWhile cs) (Text.trimChars cs ++ b)
  rw [← hcs, trimmedLines_back hb] at hlines
  rw [hlines, firstFault_replicate]
  simp only [firstFault_append_replicate]
  rfl

theorem not_firstFault_nil : ¬ FirstFault (trimmedLines []) i fault := by
  intro h
  have hempty : trimmedLines [] = [[]] := rfl
  rw [hempty, firstFault_cons] at h
  rcases h with ⟨-, hne, -⟩ | ⟨j, -, -, h⟩
  · exact hne rfl
  · cases h

/-- A text whose documents cannot be read is no JSON text, and the line that is reported is its first
faulty one. The number is counted from the first line that is not blank. -/
theorem ofText_invalidJson_iff {content : String} :
    ofText content = .error (.argument (.invalidJson n fault)) ↔
      (∃ found left, Json.readChars .exact (Text.trimChars content.toList) =
        .error (.malformed found left)) ∧
      ∃ i, FirstFault (trimmedLines content.toList) i fault ∧
        i + 1 = leadingBreaks content.toList + n := by
  have hnumber : (∃ i, FirstFault (trimmedLines content.toList) i fault ∧
        i + 1 = leadingBreaks content.toList + n) ↔
      ∃ j, n = 1 + j ∧ FirstFault (trimmedLines (Text.trimChars content.toList)) j fault := by
    simp only [firstFault_trimmed content.toList]
    constructor
    · rintro ⟨_, ⟨j, rfl, h⟩, hn⟩
      exact ⟨j, by omega, h⟩
    · rintro ⟨j, rfl, h⟩
      exact ⟨_, ⟨j, rfl, h⟩, by omega⟩
  rw [hnumber, ofText]
  split
  · rename_i hempty
    simp [hempty, not_firstFault_nil]
  · split
    · rename_i hread
      simp [hread]
    · rename_i hread
      simp [hread]
    · rename_i hread
      simp [hread]
    · rename_i found left hread
      rw [ofLines_invalidJson_iff, hread]
      exact ⟨fun h => ⟨⟨found, left, rfl⟩, h⟩, And.right⟩

/-- Blank lines at the start of a text are not counted: the second line of this one is a JSON text, the
third one is not and is reported as line 2. -/
theorem ofText_leading_newline :
    ofText "\n1\nx" = .error (.argument (.invalidJson 2 .expectingValue)) ∧
      (trimmedLines "\n1\nx".toList)[1]? = some ['1'] ∧
      Json.readChars .exact ['1'] = .ok (.int 1) ∧
      FirstFault (trimmedLines "\n1\nx".toList) 2 .expectingValue := by
  have hwhole : Json.readChars .exact ['1', '\n', 'x'] = .error (.malformed .extraData 1) := rfl
  have hone : Json.readChars .exact ['1'] = .ok (.int 1) := rfl
  have hx : Json.readChars .exact ['x'] = .error (.malformed .expectingValue 1) := rfl
  have hfault : FirstFault (trimmedLines "\n1\nx".toList) 2 .expectingValue :=
    .blank (.text hone (.here (List.cons_ne_nil _ _) hx))
  have htrimmed : Text.trimChars "\n1\nx".toList = ['1', '\n', 'x'] := by decide
  refine ⟨ofText_invalidJson_iff.mpr ?_, by decide, hone, hfault⟩
  exact ⟨⟨_, _, htrimmed ▸ hwhole⟩, 2, hfault, by decide⟩

end Documents
end AvroDocument
