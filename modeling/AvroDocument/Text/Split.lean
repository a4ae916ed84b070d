/-!
# AvroDocument.Text.Split

Texts cut at a character.

* `Text.split`: the pieces between the places where the character stands.
-/

namespace AvroDocument
namespace Text

/-- The pieces of a text between separators; there is one more of them than there are separators. -/
def split (separator : Char) : List Char → List (List Char)
  | [] => [[]]
  | c :: rest =>
    match split separator rest with
    | [] => [[c]]
    | piece :: pieces => if c = separator then [] :: piece :: pieces else (c :: piece) :: pieces

theorem length_split (separator : Char) (cs : List Char) :
    (split separator cs).length = cs.count separator + 1 := by
  induction cs with
  | nil => rfl
  | cons c rest ih =>
    rw [split]
    split
    · next h => simp [h] at ih
    · next piece pieces h =>
      rw [h] at ih
      by_cases hc : c = separator <;> simp_all

section split

variable {separator c : Char} {cs piece : List Char} {pieces : List (List Char)}

theorem split_cons (separator : Char) (cs : List Char) :
    ∃ piece pieces, split separator cs = piece :: pieces := by
  have hlength := length_split separator cs
  cases hsplit : split separator cs with
  | nil =>
    rw [hsplit] at hlength
    cases hlength
  | cons piece pieces => exact ⟨piece, pieces, rfl⟩

theorem split_separator (separator : Char) (cs : List Char) :
    split separator (separator :: cs) = [] :: split separator cs := by
  obtain ⟨piece, pieces, hsplit⟩ := split_cons separator cs
  rw [split, hsplit]
  exact if_pos rfl

theorem split_other (hc : c ≠ separator) (h : split separator cs = piece :: pieces) :
    split separator (c :: cs) = (c :: piece) :: pieces := by
  rw [split, h]
  exact if_neg hc

/-- A piece in front of a separator or of nothing. -/
theorem split_append (h : separator ∉ piece) {rest : List Char}
    (hrest : split separator rest = [] :: pieces) :
    split separator (piece ++ rest) = piece :: pieces := by
  induction piece with
  | nil => exact hrest
  | cons c piece ih =>
    exact split_other (fun hc => h (hc ▸ List.mem_cons_self))
      (ih fun hm => h (List.mem_cons_of_mem _ hm))

theorem split_piece (h : separator ∉ piece) (cs : List Char) :
    split separator (piece ++ separator :: cs) = piece :: split separator cs :=
  split_append h (split_separator separator cs)

theorem split_last (h : separator ∉ piece) : split separator piece = [piece] := by
  have hlast := split_append h (show split separator [] = [[]] from rfl)
  rwa [List.append_nil] at hlast

end split

end Text
end AvroDocument
