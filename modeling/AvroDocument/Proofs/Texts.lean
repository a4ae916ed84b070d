import AvroDocument.Proofs.Parts
import AvroDocument.Value.Text

/-!
# AvroDocument.Proofs.Texts

Every interchange value without too long an integer can be written where only text can stand.

* `toJson_of_supported`: it has a JSON tree.
* `Value.written`, `toText_of_supported`: its text.
-/

namespace AvroDocument

theorem toJsonItems_ok {identifiers : Bool} {vs : List Value}
    (h : ∀ v ∈ vs, ∃ j, v.toJson identifiers = .ok j) :
    ∃ js, Value.toJsonItems identifiers vs = .ok js := by
  induction vs with
  | nil => exact ⟨[], rfl⟩
  | cons v vs ih =>
    obtain ⟨j, hj⟩ := h v List.mem_cons_self
    obtain ⟨js, hjs⟩ := ih fun w hw => h w (List.mem_cons_of_mem _ hw)
    exact ⟨j :: js, by rw [Value.toJsonItems, hj, hjs]⟩

theorem toJsonMembers_ok {identifiers : Bool} {es : List (Key × Value)}
    (h : ∀ e ∈ es, (∃ key, e.1 = .text key) ∧ ∃ j, e.2.toJson identifiers = .ok j) :
    ∃ ms, Value.toJsonMembers identifiers es = .ok ms := by
  induction es with
  | nil => exact ⟨[], rfl⟩
  | cons e es ih =>
    obtain ⟨k, v⟩ := e
    obtain ⟨⟨key, rfl⟩, j, hj⟩ := h (k, v) List.mem_cons_self
    obtain ⟨ms, hms⟩ := ih fun e he => h e (List.mem_cons_of_mem _ he)
    exact ⟨(key, j) :: ms, by simp only [Value.toJsonMembers, Key.jsonName, hj, hms]⟩

theorem integerText_of_readable {n : Int} (h : ReadableIntegers (.int n)) :
    integerText n = .ok (toString n) :=
  if_neg (Nat.not_lt.mpr h.digits)

/-- Interchange values have a JSON tree, unless an integer in them is too long. -/
theorem toJson_of_supported {v : Value} (h : Supported v) (hi : ReadableIntegers v)
    (identifiers : Bool) : ∃ j, v.toJson identifiers = .ok j := by
  induction v using Value.childInduction with
  | step v ih =>
    have hbelow : ∀ w ∈ v.children, ∃ j, w.toJson identifiers = .ok j :=
      fun w hw => ih w hw (h.child hw) (hi.child hw)
    cases v with
    | list vs =>
      obtain ⟨js, hjs⟩ := toJsonItems_ok (show ∀ w ∈ vs, _ from hbelow)
      exact ⟨.arr js, by rw [Value.toJson, hjs]⟩
    | tuple vs =>
      obtain ⟨js, hjs⟩ := toJsonItems_ok (show ∀ w ∈ vs, _ from hbelow)
      exact ⟨.arr js, by rw [Value.toJson, hjs]⟩
    | struct es =>
      obtain ⟨ms, hms⟩ := toJsonMembers_ok (show ∀ e ∈ es, _ from fun e he =>
        ⟨h.key he, hbelow e.2 (List.mem_map_of_mem he)⟩)
      exact ⟨.obj ms, by rw [Value.toJson, hms]⟩
    | int n => exact ⟨.int n, by rw [Value.toJson, integerText_of_readable hi]; rfl⟩
    | uuid _ | set _ | missing => exact absurd h.here (by simp [Value.isPlain, Value.kind?])
    | _ => exact ⟨_, rfl⟩

/-- The text written for a value at a string position; objects that have none count as empty. -/
def Value.written (v : Value) : String := (v.toText.toOption).getD ""

/-- The text of a scalar, if it has one. -/
theorem plainText?_of_readable {v : Value} (h : ReadableIntegers v) :
    v.plainText? = none ∨ ∃ s, v.plainText? = some (.ok s) := by
  cases v with
  | int n => exact .inr ⟨_, congrArg some (integerText_of_readable h)⟩
  | list | tuple | struct | uuid | set | missing => exact .inl rfl
  | _ => exact .inr ⟨_, rfl⟩

theorem toText_of_supported {v : Value} (h : Supported v) (hi : ReadableIntegers v) :
    v.toText = .ok v.written := by
  have hok : ∃ s, v.toText = .ok s := by
    rw [Value.toText]
    obtain hnone | ⟨s, hs⟩ := plainText?_of_readable hi
    · have hk : v.kind?.isNone = false := by
        have hp := h.here
        rw [Value.isPlain, Bool.and_eq_true] at hp
        rw [← Option.not_isSome, hp.1]
        rfl
      obtain ⟨j, hj⟩ := toJson_of_supported h hi true
      refine ⟨j.text Json.Style.compact, ?_⟩
      simp only [hnone, hk, hj, Bool.false_eq_true, if_false]
      rfl
    · rw [hs]
      exact ⟨s, rfl⟩
  obtain ⟨s, hs⟩ := hok
  rw [Value.written, hs]
  rfl

end AvroDocument
