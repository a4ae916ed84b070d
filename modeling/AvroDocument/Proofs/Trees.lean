import AvroDocument.Json.Reader
import AvroDocument.Proofs.Association

/-!
# AvroDocument.Proofs.Trees

JSON trees that a text holds. Inferred schemas are such trees.

* `Json.Tidy`: the trees.
* `Json.same_self`: a tidy tree is the same document as itself.
-/

namespace AvroDocument

theorem Binary64.sameNumber_self (x : Binary64) : x.sameNumber x = true := by
  simp [sameNumber]

namespace Json

/-- A tree that a text holds: no object holds a key twice, integers are not too long to be read, and
the one NaN is the one that its word stands for. -/
inductive Tidy : Json → Prop
  | null : Tidy .null
  | bool (b : Bool) : Tidy (.bool b)
  | int (n : Int) (h : Binary64.digitCount n.natAbs ≤ digitLimit) : Tidy (.int n)
  | float (x : Binary64) (h : x.isNaN = true → x = Binary64.nan false) : Tidy (.float x)
  | str (s : String) : Tidy (.str s)
  | arr {js : List Json} (h : ∀ j ∈ js, Tidy j) : Tidy (.arr js)
  | obj {ms : List (String × Json)} (hd : (ms.map (·.1)).Nodup) (h : ∀ m ∈ ms, Tidy m.2) :
    Tidy (.obj ms)

theorem Tidy.item {js : List Json} (h : Tidy (.arr js)) : ∀ j ∈ js, Tidy j := by
  cases h with
  | arr h => exact h

theorem Tidy.lookup {ms : List (String × Json)} (h : Tidy (.obj ms)) {key : String} {j : Json}
    (hl : lookup? key ms = some j) : Tidy j := by
  cases h with
  | obj _ h => exact h _ (mem_of_lookup? hl)

theorem tidy_arr_iff {js : List Json} : Tidy (.arr js) ↔ ∀ j ∈ js, Tidy j := ⟨Tidy.item, .arr⟩

theorem tidy_obj_iff {ms : List (String × Json)} :
    Tidy (.obj ms) ↔ (ms.map (·.1)).Nodup ∧ ∀ m ∈ ms, Tidy m.2 := by
  constructor
  · intro h
    cases h with
    | obj hd h => exact ⟨hd, h⟩
  · exact fun ⟨hd, h⟩ => .obj hd h

theorem sameItems_self {js : List Json} (h : ∀ j ∈ js, j.same j = true) :
    sameItems js js = true := by
  induction js with
  | nil => rw [sameItems]
  | cons j js ih =>
    rw [sameItems, h j List.mem_cons_self, ih fun k hk => h k (List.mem_cons_of_mem _ hk)]
    rfl

theorem sameMembers_self {ms ns : List (String × Json)} (hd : (ns.map (·.1)).Nodup)
    (hsub : ∀ m ∈ ms, m ∈ ns) (h : ∀ m ∈ ms, m.2.same m.2 = true) :
    sameMembers ms ns = true := by
  induction ms with
  | nil => rw [sameMembers]
  | cons m ms ih =>
    obtain ⟨key, j⟩ := m
    have hl : lookup? key ns = some j := lookup?_of_mem hd (hsub _ List.mem_cons_self)
    rw [sameMembers]
    simp only [hl]
    rw [h (key, j) List.mem_cons_self,
      ih (fun m hm => hsub m (List.mem_cons_of_mem _ hm)) fun m hm =>
        h m (List.mem_cons_of_mem _ hm)]
    rfl

theorem same_self {j : Json} (h : Tidy j) : j.same j = true := by
  induction h with
  | null => rw [same]
  | bool b => rw [same, beq_self_eq_true]
  | int n => rw [same, beq_self_eq_true]
  | float x => rw [same, Binary64.sameNumber_self]
  | str s => rw [same, beq_self_eq_true]
  | arr _ ih =>
    rw [same]
    exact sameItems_self ih
  | obj hd _ ih =>
    rw [same, beq_self_eq_true, sameMembers_self hd (fun _ hm => hm) ih]
    rfl

end Json
end AvroDocument
