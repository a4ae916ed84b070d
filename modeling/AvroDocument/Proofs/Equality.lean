import AvroDocument.Binary.Layout

/-!
# AvroDocument.Proofs.Equality

Trees and layouts are told apart by computation.

* `Json.identical_iff`, `Layout.identical_iff`: what is made in the same way is equal.
* `decidableOk`: whether a result is a value is decided by that value.
-/

namespace AvroDocument

namespace Json

mutual

/-- Whether two trees are made in the same way. -/
def identical : Json → Json → Bool
  | null, null => true
  | bool b, bool c => b = c
  | int m, int n => m = n
  | float x, float y => x = y
  | decimal d, decimal e => d = e
  | str s, str t => s = t
  | arr js, arr ks => identicalItems js ks
  | obj ms, obj ns => identicalMembers ms ns
  | _, _ => false

def identicalItems : List Json → List Json → Bool
  | [], [] => true
  | j :: js, k :: ks => identical j k && identicalItems js ks
  | _, _ => false

def identicalMembers : List (String × Json) → List (String × Json) → Bool
  | [], [] => true
  | (key, j) :: ms, (key', k) :: ns => key = key' && identical j k && identicalMembers ms ns
  | _, _ => false

end

mutual

theorem identical_iff (j k : Json) : identical j k = true ↔ j = k := by
  cases j with
  | arr js =>
    cases k with
    | arr ks => rw [identical, identicalItems_iff, arr.injEq]
    | _ => simp [identical]
  | obj ms =>
    cases k with
    | obj ns => rw [identical, identicalMembers_iff, obj.injEq]
    | _ => simp [identical]
  | _ => cases k <;> simp [identical]

theorem identicalItems_iff (js ks : List Json) : identicalItems js ks = true ↔ js = ks := by
  cases js with
  | nil => cases ks <;> simp [identicalItems]
  | cons j js =>
    cases ks with
    | nil => simp [identicalItems]
    | cons k ks =>
      rw [identicalItems, Bool.and_eq_true, identical_iff, identicalItems_iff, List.cons.injEq]

theorem identicalMembers_iff (ms ns : List (String × Json)) :
    identicalMembers ms ns = true ↔ ms = ns := by
  cases ms with
  | nil => cases ns <;> simp [identicalMembers]
  | cons m ms =>
    obtain ⟨key, j⟩ := m
    cases ns with
    | nil => simp [identicalMembers]
    | cons n ns =>
      obtain ⟨key', k⟩ := n
      rw [identicalMembers, Bool.and_eq_true, Bool.and_eq_true, decide_eq_true_eq, identical_iff,
        identicalMembers_iff, List.cons.injEq, Prod.mk.injEq]

end

instance : DecidableEq Json := fun j k => decidable_of_iff _ (identical_iff j k)

end Json

namespace Layout

mutual

/-- Whether two layouts are made in the same way. -/
def identical : Layout → Layout → Bool
  | primitive type meaning, primitive type' meaning' => type = type' && meaning = meaning'
  | array items, array items' => identical items items'
  | map values, map values' => identical values values'
  | union members, union members' => identicalMembers members members'
  | enum name symbols, enum name' symbols' => name = name' && symbols = symbols'
  | fixed name size decimal, fixed name' size' decimal' =>
    name = name' && size = size' && decimal = decimal'
  | record name fields, record name' fields' => name = name' && identicalFields fields fields'
  | reference name, reference name' => name = name'
  | _, _ => false

def identicalMembers : List Layout → List Layout → Bool
  | [], [] => true
  | l :: ls, k :: ks => identical l k && identicalMembers ls ks
  | _, _ => false

def identicalFields : List (String × Option Json × Layout) → List (String × Option Json × Layout) →
    Bool
  | [], [] => true
  | (name, default, l) :: fields, (name', default', l') :: fields' =>
    name = name' && default = default' && identical l l' && identicalFields fields fields'
  | _, _ => false

end

mutual

theorem identical_iff (l k : Layout) : identical l k = true ↔ l = k := by
  cases l with
  | array items =>
    cases k with
    | array items' => rw [identical, identical_iff, array.injEq]
    | _ => simp [identical]
  | map values =>
    cases k with
    | map values' => rw [identical, identical_iff, map.injEq]
    | _ => simp [identical]
  | union members =>
    cases k with
    | union members' => rw [identical, identicalMembers_iff, union.injEq]
    | _ => simp [identical]
  | record name fields =>
    cases k with
    | record name' fields' =>
      rw [identical, Bool.and_eq_true, decide_eq_true_eq, identicalFields_iff, record.injEq]
    | _ => simp [identical]
  | _ => cases k <;> simp [identical, and_assoc]

theorem identicalMembers_iff (ls ks : List Layout) : identicalMembers ls ks = true ↔ ls = ks := by
  cases ls with
  | nil => cases ks <;> simp [identicalMembers]
  | cons l ls =>
    cases ks with
    | nil => simp [identicalMembers]
    | cons k ks =>
      rw [identicalMembers, Bool.and_eq_true, identical_iff, identicalMembers_iff, List.cons.injEq]

theorem identicalFields_iff (fields fields' : List (String × Option Json × Layout)) :
    identicalFields fields fields' = true ↔ fields = fields' := by
  cases fields with
  | nil => cases fields' <;> simp [identicalFields]
  | cons field fields =>
    obtain ⟨name, default, l⟩ := field
    cases fields' with
    | nil => simp [identicalFields]
    | cons field' fields' =>
      obtain ⟨name', default', l'⟩ := field'
      simp only [identicalFields, Bool.and_eq_true, decide_eq_true_eq, identical_iff,
        identicalFields_iff, List.cons.injEq, Prod.mk.injEq, and_assoc]

end

instance : DecidableEq Layout := fun l k => decidable_of_iff _ (identical_iff l k)

end Layout

/-- A result is known to be a value by that value; failures are not compared. -/
instance decidableOk {ε α : Type} [DecidableEq α] (result : Except ε α) (a : α) :
    Decidable (result = .ok a) :=
  match result with
  | .ok b => decidable_of_iff (b = a) (Iff.of_eq (Except.ok.injEq b a).symm)
  | .error _ => isFalse nofun

end AvroDocument
