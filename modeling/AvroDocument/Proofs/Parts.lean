import AvroDocument.Value

/-!
# AvroDocument.Proofs.Parts

Values inside values, and properties that hold of all of them.

* `Value.children`, `Value.childInduction`: induction over what lies directly inside a value.
* `Value.Everywhere`: a property of a value and of everything inside it.
* `Supported`: interchange values with text keys, at any depth.
* `DistinctKeys`: no struct holds a key twice.
* `ReadableIntegers`: no integer is too long for text.
-/

namespace AvroDocument
namespace Value

/-- The values directly inside a value. -/
def children : Value → List Value
  | list vs => vs
  | tuple vs => vs
  | set vs => vs
  | struct entries => entries.map (·.2)
  | _ => []

/-- The entries of a struct; other values have none. -/
def entries : Value → List (Key × Value)
  | struct entries => entries
  | _ => []

theorem sizeOf_lt_of_entry {e : Key × Value} {es : List (Key × Value)} (h : e ∈ es) :
    sizeOf e.2 < sizeOf es := by
  have := List.sizeOf_lt_of_mem h
  obtain ⟨k, v⟩ := e
  simp only [Prod.mk.sizeOf_spec] at this
  show sizeOf v < sizeOf es
  omega

theorem sizeOf_lt_of_child {v w : Value} (h : w ∈ v.children) : sizeOf w < sizeOf v := by
  cases v with
  | list vs | tuple vs | set vs =>
    have := List.sizeOf_lt_of_mem (show w ∈ vs from h)
    simp only [list.sizeOf_spec, tuple.sizeOf_spec, set.sizeOf_spec]
    omega
  | struct es =>
    obtain ⟨e, he, rfl⟩ := List.mem_map.mp (show w ∈ es.map (·.2) from h)
    have := sizeOf_lt_of_entry he
    simp only [struct.sizeOf_spec]
    omega
  | _ => cases h

/-- Induction over values: what holds of a value when it holds of all its children holds of all. -/
theorem childInduction {motive : Value → Prop}
    (step : ∀ v, (∀ w ∈ v.children, motive w) → motive v) (v : Value) : motive v := by
  suffices h : ∀ n v, sizeOf v < n → motive v from h _ v (Nat.lt_succ_self _)
  intro n
  induction n with
  | zero =>
    intro v hv
    omega
  | succ n ih =>
    intro v hv
    refine step v fun w hw => ih w ?_
    have := sizeOf_lt_of_child hw
    omega

mutual

/-- All values inside a value, itself first. -/
def parts : Value → List Value
  | list vs => list vs :: itemParts vs
  | tuple vs => tuple vs :: itemParts vs
  | set vs => set vs :: itemParts vs
  | struct es => struct es :: entryParts es
  | v => [v]

def itemParts : List Value → List Value
  | [] => []
  | v :: vs => parts v ++ itemParts vs

def entryParts : List (Key × Value) → List Value
  | [] => []
  | (_, v) :: es => parts v ++ entryParts es

end

theorem itemParts_eq (vs : List Value) : itemParts vs = vs.flatMap parts := by
  induction vs with
  | nil => rfl
  | cons v vs ih => rw [itemParts, ih, List.flatMap_cons]

theorem entryParts_eq (es : List (Key × Value)) :
    entryParts es = (es.map (·.2)).flatMap parts := by
  induction es with
  | nil => rfl
  | cons e es ih =>
    obtain ⟨k, v⟩ := e
    rw [entryParts, ih, List.map_cons, List.flatMap_cons]

theorem parts_eq (v : Value) : v.parts = v :: v.children.flatMap parts := by
  cases v <;> simp only [parts, children, itemParts_eq, entryParts_eq, List.flatMap_nil]

/-- A property of a value and of everything inside it. -/
def Everywhere (p : Value → Prop) (v : Value) : Prop := ∀ w ∈ v.parts, p w

theorem everywhere_iff {p : Value → Prop} {v : Value} :
    v.Everywhere p ↔ p v ∧ ∀ w ∈ v.children, w.Everywhere p := by
  unfold Everywhere
  rw [parts_eq]
  simp only [List.mem_cons, List.mem_flatMap, forall_eq_or_imp, forall_exists_index, and_imp]
  constructor
  · intro h
    exact ⟨h.1, fun w hw x hx => h.2 x w hw hx⟩
  · intro h
    exact ⟨h.1, fun x w hw hx => h.2 w hw x hx⟩

theorem Everywhere.here {p : Value → Prop} {v : Value} (h : v.Everywhere p) : p v :=
  (everywhere_iff.mp h).1

theorem Everywhere.child {p : Value → Prop} {v w : Value} (h : v.Everywhere p)
    (hw : w ∈ v.children) : w.Everywhere p :=
  (everywhere_iff.mp h).2 w hw

theorem Everywhere.entry {p : Value → Prop} {es : List (Key × Value)} {k : Key} {v : Value}
    (h : (struct es).Everywhere p) (hv : (k, v) ∈ es) : v.Everywhere p :=
  h.child (List.mem_map.mpr ⟨(k, v), hv, rfl⟩)

theorem Everywhere.item {p : Value → Prop} {v w : Value} {vs : List Value} (h : v.Everywhere p)
    (hv : v.items? = some vs) (hw : w ∈ vs) : w.Everywhere p := by
  cases v <;> cases hv <;> exact h.child hw

instance (p : Value → Prop) [DecidablePred p] (v : Value) : Decidable (v.Everywhere p) :=
  inferInstanceAs (Decidable (∀ w ∈ v.parts, p w))

end Value

/-! ## Documents -/

def Key.isText : Key → Bool
  | .text _ => true
  | _ => false

/-- Whether a value is an interchange value, and a struct with text keys if it is a struct. -/
def Value.isPlain (v : Value) : Bool := v.kind?.isSome && v.entries.all (·.1.isText)

/-- Interchange values with text keys, at any depth. -/
def Supported (v : Value) : Prop := v.Everywhere fun w => w.isPlain = true

/-- No struct in a value holds a key twice. -/
def DistinctKeys (v : Value) : Prop := v.Everywhere fun w => (w.entries.map (·.1)).Nodup

instance (v : Value) : Decidable (Supported v) :=
  inferInstanceAs (Decidable (v.Everywhere fun w => w.isPlain = true))

instance (v : Value) : Decidable (DistinctKeys v) :=
  inferInstanceAs (Decidable (v.Everywhere fun w => (w.entries.map (·.1)).Nodup))

/-- An integer that is not too long to be converted from text and to text. -/
def Value.isReadable : Value → Bool
  | .int n => decide (Binary64.digitCount n.natAbs ≤ Json.digitLimit)
  | _ => true

/-- No integer in a value is too long to be converted from text and to text. -/
def ReadableIntegers (v : Value) : Prop := v.Everywhere fun w => w.isReadable = true

instance (v : Value) : Decidable (ReadableIntegers v) :=
  inferInstanceAs (Decidable (v.Everywhere fun w => w.isReadable = true))

theorem ReadableIntegers.digits {n : Int} (h : ReadableIntegers (.int n)) :
    Binary64.digitCount n.natAbs ≤ Json.digitLimit :=
  of_decide_eq_true h.here

theorem Supported.key {es : List (Key × Value)} (h : Supported (.struct es)) {k : Key} {v : Value}
    (hv : (k, v) ∈ es) : ∃ key, k = .text key := by
  have hp := h.here
  simp only [Value.isPlain, Value.entries, Bool.and_eq_true, List.all_eq_true] at hp
  have hk := hp.2 (k, v) hv
  cases k with
  | text key => exact ⟨key, rfl⟩
  | _ => cases hk

/-- A value is a struct. -/
def Value.IsStruct (v : Value) : Prop := v.kind? = some .struct

instance (v : Value) : Decidable v.IsStruct := inferInstanceAs (Decidable (_ = _))

theorem Value.IsStruct.eq {v : Value} (h : v.IsStruct) : v = .struct v.entries := by
  cases v with
  | struct es => rfl
  | int n =>
    simp only [Value.IsStruct, Value.kind?, Option.some.injEq] at h
    split at h <;> cases h
  | _ => cases h

end AvroDocument
