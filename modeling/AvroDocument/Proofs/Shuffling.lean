import AvroDocument.Proofs.Outlining
import Mathlib.Data.List.Forall2

/-!
# AvroDocument.Proofs.Shuffling

Documents whose keys and items come in another order look alike to inference.

* `Shuffled`: one value with the entries of structs and the items of lists in another order, at any
  depth.
* `SameSightings`: values that leave the same sightings, in whatever order.
* `Shuffled.sameSightings`: at each position shuffled values leave the same sightings.
* `classify_eq`, `keysOf_perm`, `mayMiss_eq`: all that an outline says is read from them.
-/

namespace AvroDocument

/-- One value with the entries of structs and the items of lists in another order, at any depth. -/
inductive Shuffled : Value → Value → Prop
  | refl (v : Value) : Shuffled v v
  | trans {u v w : Value} (h : Shuffled u v) (h' : Shuffled v w) : Shuffled u w
  | entries {es es' : List (Key × Value)} (h : es.Perm es') : Shuffled (.struct es) (.struct es')
  | items {vs ws : List Value} (h : vs.Perm ws) : Shuffled (.list vs) (.list ws)
  | tupleItems {vs ws : List Value} (h : vs.Perm ws) : Shuffled (.tuple vs) (.tuple ws)
  | entry {l r : List (Key × Value)} {k : Key} {v w : Value} (h : Shuffled v w) :
    Shuffled (.struct (l ++ (k, v) :: r)) (.struct (l ++ (k, w) :: r))
  | item {l r : List Value} {v w : Value} (h : Shuffled v w) :
    Shuffled (.list (l ++ v :: r)) (.list (l ++ w :: r))
  | tupleItem {l r : List Value} {v w : Value} (h : Shuffled v w) :
    Shuffled (.tuple (l ++ v :: r)) (.tuple (l ++ w :: r))

theorem Shuffled.kind? {v w : Value} (h : Shuffled v w) : v.kind? = w.kind? := by
  induction h with
  | trans _ _ ih ih' => exact ih.trans ih'
  | _ => rfl

theorem supported_struct {es : List (Key × Value)} :
    Supported (.struct es) ↔ ∀ e ∈ es, e.1.isText = true ∧ Supported e.2 := by
  unfold Supported
  rw [Value.everywhere_iff]
  simp only [Value.isPlain, Value.kind?, Value.entries, Value.children, Option.isSome_some,
    Bool.true_and, List.all_eq_true, List.mem_map, forall_exists_index, and_imp,
    forall_apply_eq_imp_iff₂]
  exact ⟨fun h e he => ⟨h.1 e he, h.2 e he⟩, fun h => ⟨fun e he => (h e he).1, fun e he => (h e he).2⟩⟩

theorem supported_list {vs : List Value} : Supported (.list vs) ↔ ∀ v ∈ vs, Supported v := by
  unfold Supported
  rw [Value.everywhere_iff]
  simp [Value.isPlain, Value.kind?, Value.entries, Value.children]

theorem supported_tuple {vs : List Value} : Supported (.tuple vs) ↔ ∀ v ∈ vs, Supported v := by
  unfold Supported
  rw [Value.everywhere_iff]
  simp [Value.isPlain, Value.kind?, Value.entries, Value.children]

theorem Shuffled.supported {v w : Value} (h : Shuffled v w) : Supported v ↔ Supported w := by
  induction h with
  | refl v => exact Iff.rfl
  | trans _ _ ih ih' => exact ih.trans ih'
  | entries h => simp only [supported_struct, h.mem_iff]
  | items h => simp only [supported_list, h.mem_iff]
  | tupleItems h => simp only [supported_tuple, h.mem_iff]
  | entry _ ih =>
    simp only [supported_struct, List.mem_append, List.mem_cons, or_imp, forall_and, forall_eq, ih]
  | item _ ih =>
    simp only [supported_list, List.mem_append, List.mem_cons, or_imp, forall_and, forall_eq, ih]
  | tupleItem _ ih =>
    simp only [supported_tuple, List.mem_append, List.mem_cons, or_imp, forall_and, forall_eq, ih]

namespace Inference

/-! ## The same sightings -/

/-- Values that leave the same sightings, in whatever order. -/
def SameSightings (vs ws : List Value) : Prop :=
  (vs.flatMap sightingsOf).Perm (ws.flatMap sightingsOf)

theorem SameSightings.append {vs ws vs' ws' : List Value} (h : SameSightings vs ws)
    (h' : SameSightings vs' ws') : SameSightings (vs ++ vs') (ws ++ ws') := by
  unfold SameSightings
  rw [List.flatMap_append, List.flatMap_append]
  exact List.Perm.append h h'

theorem sameSightings_of_perm {vs ws : List Value} (h : vs.Perm ws) : SameSightings vs ws :=
  h.flatMap_right _

theorem observed_perm (p : Position) {vs ws : List Value} (h : vs.Perm ws) :
    (observed p vs).Perm (observed p ws) := by
  rw [observed_eq_flatMap p vs, observed_eq_flatMap p ws]
  exact h.flatMap_right _

/-- Values that leave the same sightings at each position inside them. -/
def LookAlike (vs ws : List Value) : Prop :=
  ∀ p, SameSightings (observed p vs) (observed p ws)

theorem LookAlike.append {vs ws vs' ws' : List Value} (h : LookAlike vs ws)
    (h' : LookAlike vs' ws') : LookAlike (vs ++ vs') (ws ++ ws') := by
  intro p
  rw [observed_both, observed_both]
  exact (h p).append (h' p)

theorem lookAlike_refl (vs : List Value) : LookAlike vs vs := fun _ => List.Perm.refl _

theorem lookAlike_of_perm {vs ws : List Value} (h : vs.Perm ws) : LookAlike vs ws :=
  fun p => sameSightings_of_perm (observed_perm p h)

theorem LookAlike.trans {us vs ws : List Value} (h : LookAlike us vs) (h' : LookAlike vs ws) :
    LookAlike us ws := fun p => (h p).trans (h' p)

/-- It is enough to compare what two values say of themselves and what lies one step inside. -/
theorem lookAlike_single {v w : Value} (hhere : (sightingsOf v).Perm (sightingsOf w))
    (hbelow : ∀ step, LookAlike (inside step v) (inside step w)) : LookAlike [v] [w] := by
  intro p
  cases p with
  | nil =>
    unfold SameSightings
    rw [observed, observed, List.flatMap_singleton, List.flatMap_singleton]
    exact hhere
  | cons step p =>
    rw [observed_single, observed_single]
    exact hbelow step p

theorem inside_append (step : Step) (l r : List (Key × Value)) :
    inside step (.struct (l ++ r)) = inside step (.struct l) ++ inside step (.struct r) := by
  cases step with
  | key key => simp [inside, Value.entries]
  | items => rfl

theorem inside_cons (step : Step) (k : Key) (v : Value) (r : List (Key × Value)) :
    inside step (.struct ((k, v) :: r)) =
      inside step (.struct [(k, v)]) ++ inside step (.struct r) :=
  inside_append step [(k, v)] r

theorem lookAlike_entry {v w : Value} (h : LookAlike [v] [w]) (k : Key) (step : Step) :
    LookAlike (inside step (.struct [(k, v)])) (inside step (.struct [(k, w)])) := by
  cases step with
  | items => exact lookAlike_refl _
  | key key =>
    by_cases hk : k = .text key
    · simpa [inside, Value.entries, hk] using h
    · simpa [inside, Value.entries, hk] using lookAlike_refl []

theorem inside_perm {es es' : List (Key × Value)} (h : es.Perm es') (step : Step) :
    (inside step (.struct es)).Perm (inside step (.struct es')) := by
  cases step with
  | key key => exact (h.filter _).map _
  | items => exact List.Perm.refl _

theorem Shuffled.lookAlike {v w : Value} (h : Shuffled v w) : LookAlike [v] [w] := by
  induction h with
  | refl v => exact lookAlike_refl _
  | trans _ _ ih ih' => exact ih.trans ih'
  | entries h =>
    refine lookAlike_single ?_ fun step => lookAlike_of_perm (inside_perm h step)
    exact ((h.filterMap _).cons _).cons _
  | items h | tupleItems h =>
    refine lookAlike_single (((h.map _).cons _).cons _) fun step => ?_
    cases step with
    | key key => exact lookAlike_refl _
    | items => exact lookAlike_of_perm h
  | @entry l r k v w _ ih =>
    refine lookAlike_single ?_ fun step => ?_
    · simp only [sightingsOf, List.filterMap_append, List.filterMap_cons]
      exact List.Perm.refl _
    · rw [inside_append, inside_append, inside_cons, inside_cons step k w]
      exact (lookAlike_refl _).append ((lookAlike_entry ih k step).append (lookAlike_refl _))
  | @item l r v w _ ih | @tupleItem l r v w _ ih =>
    refine lookAlike_single ?_ fun step => ?_
    · simp only [sightingsOf, List.map_append, List.map_cons]
      exact List.Perm.refl _
    · cases step with
      | key key => exact lookAlike_refl _
      | items =>
        show LookAlike (l ++ ([v] ++ r)) (l ++ ([w] ++ r))
        exact (lookAlike_refl _).append (ih.append (lookAlike_refl _))

theorem lookAlike_of_forall₂ {vs ws : List Value} (h : List.Forall₂ Shuffled vs ws) :
    LookAlike vs ws := by
  induction h with
  | nil => exact lookAlike_refl _
  | @cons v w vs ws hvw _ ih =>
    show LookAlike ([v] ++ vs) ([w] ++ ws)
    exact (Shuffled.lookAlike hvw).append ih

/-! ## Shapes of the same sightings -/

namespace Sighting

def key? : Sighting → Option String
  | field key => some key
  | _ => none

def scalar? : Sighting → Option Json
  | scalar type => some type
  | _ => none

def isNull : Sighting → Bool
  | null => true
  | _ => false

def isStruct : Sighting → Bool
  | struct => true
  | _ => false

def isList : Sighting → Bool
  | list => true
  | _ => false

def isItem : Sighting → Bool
  | item => true
  | _ => false

end Sighting

theorem see_scalar (s : Shape) (type : Json) :
    s.see (.scalar type) = { s with scalar := widenBy s.scalar (some type) } := by
  rw [Shape.see]
  cases h : s.scalar <;> rfl

/-- The parts of a shape, counted in any order but for the keys. -/
theorem foldl_see (s : Shape) (l : List Sighting) :
    (l.foldl Shape.see s).nulls = s.nulls + l.countP Sighting.isNull ∧
      (l.foldl Shape.see s).structs = s.structs + l.countP Sighting.isStruct ∧
      (l.foldl Shape.see s).lists = s.lists + l.countP Sighting.isList ∧
      (l.foldl Shape.see s).items = s.items + l.countP Sighting.isItem ∧
      (l.foldl Shape.see s).scalar = (l.map Sighting.scalar?).foldl widenBy s.scalar ∧
      (l.foldl Shape.see s).fields = tallyFrom s.fields (l.filterMap Sighting.key?) := by
  induction l generalizing s with
  | nil => exact ⟨rfl, rfl, rfl, rfl, rfl, rfl⟩
  | cons x l ih =>
    obtain ⟨hn, hs, hl, hi, hc, hf⟩ := ih (s.see x)
    simp only [List.foldl_cons, List.countP_cons, List.map_cons]
    rw [hn, hs, hl, hi, hc, hf]
    cases x with
    | scalar type =>
      rw [see_scalar]
      exact ⟨rfl, rfl, rfl, rfl, rfl, rfl⟩
    | null => exact ⟨by simp [Shape.see, Sighting.isNull]; omega, rfl, rfl, rfl, rfl, rfl⟩
    | struct => exact ⟨rfl, by simp [Shape.see, Sighting.isStruct]; omega, rfl, rfl, rfl, rfl⟩
    | list => exact ⟨rfl, rfl, by simp [Shape.see, Sighting.isList]; omega, rfl, rfl, rfl⟩
    | item => exact ⟨rfl, rfl, rfl, by simp [Shape.see, Sighting.isItem]; omega, rfl, rfl⟩
    | _ => exact ⟨rfl, rfl, rfl, rfl, rfl, rfl⟩

theorem scalar_mem_of_sightings {vs : List Value} {x : Sighting} (hx : x ∈ vs.flatMap sightingsOf)
    {type : Json} (ht : x.scalar? = some type) : type ∈ scalarTypes := by
  obtain ⟨v, _, hx⟩ := List.mem_flatMap.mp hx
  by_cases hl : isLeaf v = true
  · rw [sightingsOf_leaf hl] at hx
    rcases List.mem_cons.mp hx with rfl | hx
    · cases ht
    · cases h : scalarType? v with
      | none =>
        rw [h] at hx
        cases hx
      | some t =>
        rw [h] at hx
        rw [List.mem_singleton.mp hx] at ht
        cases ht
        exact leafType?_mem (v := v) (by rw [leafType?, if_pos hl, h])
  · cases v with
    | null =>
      rcases List.mem_cons.mp hx with rfl | hx
      · cases ht
      · rw [List.mem_singleton.mp hx] at ht
        cases ht
    | struct es =>
      simp only [sightingsOf, List.mem_cons, List.mem_filterMap] at hx
      rcases hx with rfl | rfl | ⟨⟨k, w⟩, _, hk⟩
      · cases ht
      · cases ht
      · cases k <;> cases hk
        cases ht
    | list ws | tuple ws =>
      simp only [sightingsOf, List.mem_cons, List.mem_map] at hx
      rcases hx with rfl | rfl | ⟨_, _, rfl⟩ <;> cases ht
    | _ => exact absurd rfl hl

/-- Two shapes that differ at most in the order of their keys. -/
structure SameShape (s t : Shape) : Prop where
  nulls : s.nulls = t.nulls
  structs : s.structs = t.structs
  lists : s.lists = t.lists
  items : s.items = t.items
  scalar : s.scalar = t.scalar
  keys : (s.fields.map (·.1)).Perm (t.fields.map (·.1))
  counts : ∀ key, (lookup? key s.fields).getD 0 = (lookup? key t.fields).getD 0

theorem SameSightings.sameShape {vs ws : List Value} (h : SameSightings vs ws) :
    SameShape (Shape.ofValues vs) (Shape.ofValues ws) := by
  have h' : (vs.flatMap sightingsOf).Perm (ws.flatMap sightingsOf) := h
  obtain ⟨hn, hs, hl, hi, hc, hf⟩ := foldl_see {} (vs.flatMap sightingsOf)
  obtain ⟨hn', hs', hl', hi', hc', hf'⟩ := foldl_see {} (ws.flatMap sightingsOf)
  have hkeys := h'.filterMap Sighting.key?
  refine ⟨?_, ?_, ?_, ?_, ?_, ?_, fun key => ?_⟩
  · rw [Shape.ofValues, hn, Shape.ofValues, hn', h'.countP_eq]
  · rw [Shape.ofValues, hs, Shape.ofValues, hs', h'.countP_eq]
  · rw [Shape.ofValues, hl, Shape.ofValues, hl', h'.countP_eq]
  · rw [Shape.ofValues, hi, Shape.ofValues, hi', h'.countP_eq]
  · rw [Shape.ofValues, hc, Shape.ofValues, hc']
    refine List.Perm.foldl_eq' (h'.map _) (fun x hx y hy seen => ?_) none
    obtain ⟨a, ha, rfl⟩ := List.mem_map.mp hx
    obtain ⟨b, hb, rfl⟩ := List.mem_map.mp hy
    exact widenBy_right_comm (fun _ => scalar_mem_of_sightings ha)
      (fun _ => scalar_mem_of_sightings hb) seen
  · rw [Shape.ofValues, hf, Shape.ofValues, hf']
    exact keys_tally_perm hkeys
  · rw [Shape.ofValues, hf, Shape.ofValues, hf']
    show (lookup? key (tally _)).getD 0 = (lookup? key (tally _)).getD 0
    rw [lookup?_tally, lookup?_tally, hkeys.count_eq]

theorem SameShape.classify_eq {vs ws : List Value}
    (h : SameShape (Shape.ofValues vs) (Shape.ofValues ws)) : classify vs = classify ws := by
  simp only [classify, Shape.categories, h.structs, h.lists, h.items, h.scalar]
  rfl

theorem SameShape.keysOf_perm {vs ws : List Value}
    (h : SameShape (Shape.ofValues vs) (Shape.ofValues ws)) : (keysOf vs).Perm (keysOf ws) := by
  have hk := h.keys
  rw [Shape.ofValues_fields, Shape.ofValues_fields] at hk
  exact hk

theorem LookAlike.here {vs ws : List Value} (h : LookAlike vs ws) :
    SameShape (Shape.ofValues vs) (Shape.ofValues ws) := (h []).sameShape

theorem LookAlike.below {vs ws : List Value} (h : LookAlike vs ws) (step : Step) :
    LookAlike (vs.flatMap (inside step)) (ws.flatMap (inside step)) := fun p => h (step :: p)

theorem LookAlike.nulls_eq {vs ws : List Value} (h : LookAlike vs ws) :
    vs.countP (fun v => v.kind? = some .null) = ws.countP fun v => v.kind? = some .null := by
  rw [← Shape.ofValues_nulls, ← Shape.ofValues_nulls, h.here.nulls]

theorem LookAlike.fieldOf_eq {vs ws : List Value} (h : LookAlike vs ws) (key : String) :
    fieldOf vs key = fieldOf ws key := by
  have hcount := h.here.counts key
  rw [Shape.ofValues_fields, Shape.ofValues_fields, lookup?_tally, lookup?_tally] at hcount
  have hstructs := h.here.structs
  rw [Shape.ofValues_structs, Shape.ofValues_structs] at hstructs
  rw [fieldOf, fieldOf, mayMiss, mayMiss, hcount, hstructs, (h.below (.key key)).nulls_eq,
    nameOfKey_perm (nodup_keysOf vs) h.here.keysOf_perm]

end Inference
end AvroDocument
