import AvroDocument.Inference
import AvroDocument.Proofs.Association
import AvroDocument.Proofs.Parts

/-!
# AvroDocument.Proofs.Observation

What inference knows of the documents: at each position the shape of the values observed there, and
nothing else.

* `observed`: the values at a position of some documents.
* `Shape.ofValues`: the shape of values, one after the other.
* `obstacle_ofValue`: a walk goes through exactly when the value is supported.
* `addAll_ok`: counting documents succeeds exactly when all of them are supported structs.
* `shape_addAll`: the arena holds at each position the shape of the values observed there.
-/

namespace AvroDocument
namespace Inference

/-! ## Values at positions -/

/-- The values one step inside a value. -/
def inside : Step → Value → List Value
  | .key key, v => (v.entries.filter fun e => e.1 = .text key).map (·.2)
  | .items, v => v.items?.getD []

/-- The values at a position of some values. -/
def observed : Position → List Value → List Value
  | [], vs => vs
  | step :: p, vs => observed p (vs.flatMap (inside step))

theorem observed_append (p q : Position) (vs : List Value) :
    observed (p ++ q) vs = observed q (observed p vs) := by
  induction p generalizing vs with
  | nil => rfl
  | cons step p ih => exact ih _

theorem observed_step (p : Position) (step : Step) (vs : List Value) :
    observed (p ++ [step]) vs = (observed p vs).flatMap (inside step) :=
  observed_append p [step] vs

theorem observed_flatMap {α : Type} (p : Position) (f : α → List Value) (l : List α) :
    observed p (l.flatMap f) = l.flatMap fun a => observed p (f a) := by
  induction p generalizing f with
  | nil => rfl
  | cons step p ih =>
    rw [observed, List.flatMap_assoc, ih]
    rfl

theorem observed_eq_flatMap (p : Position) (vs : List Value) :
    observed p vs = vs.flatMap fun v => observed p [v] := by
  have h := observed_flatMap p (fun v => [v]) vs
  rwa [List.flatMap_singleton'] at h

theorem observed_both (p : Position) (vs ws : List Value) :
    observed p (vs ++ ws) = observed p vs ++ observed p ws := by
  rw [observed_eq_flatMap p (vs ++ ws), List.flatMap_append, ← observed_eq_flatMap,
    ← observed_eq_flatMap]

theorem observed_cons (p : Position) (v : Value) (vs : List Value) :
    observed p (v :: vs) = observed p [v] ++ observed p vs :=
  observed_both p [v] vs

theorem observed_nil (p : Position) : observed p [] = [] := by
  rw [observed_eq_flatMap, List.flatMap_nil]

theorem observed_single (step : Step) (p : Position) (v : Value) :
    observed (step :: p) [v] = observed p (inside step v) := by
  rw [observed, List.flatMap_singleton]

theorem mem_children_of_mem_inside {step : Step} {v w : Value} (h : w ∈ inside step v) :
    w ∈ v.children := by
  cases step with
  | key key =>
    obtain ⟨e, he, rfl⟩ := List.mem_map.mp h
    cases v with
    | struct es => exact List.mem_map.mpr ⟨e, (List.mem_filter.mp he).1, rfl⟩
    | _ => cases he
  | items =>
    cases v with
    | list vs | tuple vs => exact h
    | _ => cases h

/-! ## Sightings of one value -/

/-- The sighting of a key. -/
def fieldSighting? : Key → Option Sighting
  | .text key => some (.field key)
  | _ => none

/-- What a walk counts at the position of a value itself. -/
def sightingsOf : Value → List Sighting
  | .null => [.occurrence, .null]
  | .struct es => .occurrence :: .struct :: es.filterMap fun e => fieldSighting? e.1
  | .list vs => .occurrence :: .list :: vs.map fun _ => .item
  | .tuple vs => .occurrence :: .list :: vs.map fun _ => .item
  | v => .occurrence :: ((scalarType? v).map Sighting.scalar).toList

/-- The shape of values that are observed one after the other. -/
def Shape.ofValues (vs : List Value) : Shape := (vs.flatMap sightingsOf).foldl Shape.see {}

/-- The sightings of a walk at one position. -/
def sightingsAt (p : Position) (l : List (Position × Sighting)) : List Sighting :=
  (l.filter fun s => s.1 = p).map (·.2)

theorem sightingsAt_append (p : Position) (l l' : List (Position × Sighting)) :
    sightingsAt p (l ++ l') = sightingsAt p l ++ sightingsAt p l' := by
  simp only [sightingsAt, List.filter_append, List.map_append]

theorem sightingsAt_here (p : Position) (s : Sighting) (l : List (Position × Sighting)) :
    sightingsAt p ((p, s) :: l) = s :: sightingsAt p l := by
  simp [sightingsAt]

theorem sightingsAt_other {p q : Position} (h : q ≠ p) (s : Sighting)
    (l : List (Position × Sighting)) : sightingsAt p ((q, s) :: l) = sightingsAt p l := by
  simp [sightingsAt, h]

theorem sightingsAt_all (p : Position) (l : List Sighting) :
    sightingsAt p (l.map fun s => (p, s)) = l := by
  induction l with
  | nil => rfl
  | cons s l ih => rw [List.map_cons, sightingsAt_here, ih]

theorem sightingsAt_none {p : Position} {l : List (Position × Sighting)}
    (h : ∀ s ∈ l, s.1 ≠ p) : sightingsAt p l = [] := by
  rw [sightingsAt, List.filter_eq_nil_iff.mpr, List.map_nil]
  intro s hs
  simp [h s hs]

/-! ## Walks -/

namespace Trace

theorem obstacle_andThen (a b : Trace) :
    (andThen a b).obstacle = none ↔ a.obstacle = none ∧ b.obstacle = none := by
  unfold andThen
  cases h : a.obstacle with
  | none => simp
  | some o => simp [h]

theorem sightings_andThen {a : Trace} (h : a.obstacle = none) (b : Trace) :
    (andThen a b).sightings = a.sightings ++ b.sightings := by
  unfold andThen
  rw [h]

theorem mem_andThen {a b : Trace} {s : Position × Sighting}
    (h : s ∈ (andThen a b).sightings) : s ∈ a.sightings ∨ s ∈ b.sightings := by
  unfold andThen at h
  split at h
  · exact .inl h
  · exact List.mem_append.mp h

end Trace

/-- A walk that starts at a position stays below it. -/
def StaysBelow (p : Position) (t : Trace) : Prop := ∀ s ∈ t.sightings, p <+: s.1

theorem StaysBelow.andThen {p : Position} {a b : Trace} (ha : StaysBelow p a)
    (hb : StaysBelow p b) : StaysBelow p (a.andThen b) := by
  intro s hs
  rcases Trace.mem_andThen hs with hs | hs
  · exact ha s hs
  · exact hb s hs

theorem StaysBelow.step {p : Position} {step : Step} {t : Trace}
    (h : StaysBelow (p ++ [step]) t) : StaysBelow p t :=
  fun s hs => (List.prefix_append p [step]).trans (h s hs)

theorem staysBelow_here (p : Position) (l : List Sighting) (o : Option Obstacle) :
    StaysBelow p ⟨l.map fun s => (p, s), o⟩ := by
  intro s hs
  obtain ⟨_, _, rfl⟩ := List.mem_map.mp hs
  exact List.prefix_refl p

theorem staysBelow_ofItems {vs : List Value}
    (hv : ∀ v ∈ vs, ∀ p path, StaysBelow p (Trace.ofValue p path v)) (p : Position)
    (path : String) (index : Nat) : StaysBelow p (Trace.ofItems p path index vs) := by
  induction vs generalizing index with
  | nil => exact fun s hs => absurd hs List.not_mem_nil
  | cons v vs ih =>
    rw [Trace.ofItems]
    refine (staysBelow_here p [.item] none).andThen (StaysBelow.andThen ?_ ?_)
    · exact (hv v List.mem_cons_self _ _).step
    · exact ih (fun w hw => hv w (List.mem_cons_of_mem _ hw)) _

theorem staysBelow_ofEntries {es : List (Key × Value)}
    (hv : ∀ e ∈ es, ∀ p path, StaysBelow p (Trace.ofValue p path e.2)) (p : Position)
    (path : String) : StaysBelow p (Trace.ofEntries p path es) := by
  induction es with
  | nil => exact fun s hs => absurd hs List.not_mem_nil
  | cons e es ih =>
    obtain ⟨k, v⟩ := e
    cases k with
    | text key =>
      rw [Trace.ofEntries]
      refine (staysBelow_here p [.field key] none).andThen (StaysBelow.andThen ?_ ?_)
      · exact (hv (.text key, v) List.mem_cons_self _ _).step
      · exact ih fun e he => hv e (List.mem_cons_of_mem _ he)
    | _ => exact fun s hs => absurd hs List.not_mem_nil

/-- Whether a value is neither null nor a container that a walk goes into. -/
def isLeaf : Value → Bool
  | .null => false
  | .struct _ => false
  | .list _ => false
  | .tuple _ => false
  | _ => true

theorem ofValue_leaf {v : Value} (h : isLeaf v = true) (p : Position) (path : String) :
    Trace.ofValue p path v =
      match scalarType? v with
      | some type => ⟨[(p, .occurrence), (p, .scalar type)], none⟩
      | none => ⟨[(p, .occurrence)], some (.unsupportedValue path v.typeName)⟩ := by
  cases v <;> first | rfl | cases h

theorem sightingsOf_leaf {v : Value} (h : isLeaf v = true) :
    sightingsOf v = .occurrence :: ((scalarType? v).map Sighting.scalar).toList := by
  cases v <;> first | rfl | cases h

theorem inside_leaf {v : Value} (h : isLeaf v = true) (step : Step) : inside step v = [] := by
  cases step <;> cases v <;> first | rfl | cases h

theorem inside_null (step : Step) : inside step .null = [] := by
  cases step <;> rfl

theorem staysBelow_ofValue (v : Value) :
    ∀ p path, StaysBelow p (Trace.ofValue p path v) := by
  induction v using Value.childInduction with
  | step v ih =>
    intro p path
    have hhere : ∀ (o : Option Obstacle) (l : List Sighting),
        StaysBelow p ⟨(p, .occurrence) :: l.map fun s => (p, s), o⟩ :=
      fun o l => staysBelow_here p (.occurrence :: l) o
    cases v with
    | null => exact hhere none [.null]
    | struct es =>
      refine (hhere none [.struct]).andThen (staysBelow_ofEntries ?_ p path)
      exact fun e he => ih e.2 (List.mem_map.mpr ⟨e, he, rfl⟩)
    | list vs | tuple vs =>
      exact (hhere none [.list]).andThen (staysBelow_ofItems ih p path 0)
    | _ =>
      rw [ofValue_leaf rfl]
      split
      · next type _ => exact hhere none [.scalar type]
      · exact hhere _ []

/-! ## Which walks go through -/

theorem obstacle_ofItems {vs : List Value}
    (hv : ∀ v ∈ vs, ∀ p path, (Trace.ofValue p path v).obstacle = none ↔ Supported v)
    (p : Position) (path : String) (index : Nat) :
    (Trace.ofItems p path index vs).obstacle = none ↔ ∀ v ∈ vs, Supported v := by
  induction vs generalizing index with
  | nil => simp [Trace.ofItems]
  | cons v vs ih =>
    rw [Trace.ofItems, Trace.obstacle_andThen, Trace.obstacle_andThen,
      hv v List.mem_cons_self, ih fun w hw => hv w (List.mem_cons_of_mem _ hw)]
    simp only [true_and, List.mem_cons, forall_eq_or_imp]

theorem obstacle_ofEntries {es : List (Key × Value)}
    (hv : ∀ e ∈ es, ∀ p path, (Trace.ofValue p path e.2).obstacle = none ↔ Supported e.2)
    (p : Position) (path : String) :
    (Trace.ofEntries p path es).obstacle = none ↔
      es.all (·.1.isText) = true ∧ ∀ e ∈ es, Supported e.2 := by
  induction es with
  | nil => simp [Trace.ofEntries]
  | cons e es ih =>
    obtain ⟨k, v⟩ := e
    cases k with
    | text key =>
      rw [Trace.ofEntries, Trace.obstacle_andThen, Trace.obstacle_andThen,
        hv (.text key, v) List.mem_cons_self, ih fun e he => hv e (List.mem_cons_of_mem _ he)]
      simp only [true_and, List.mem_cons, forall_eq_or_imp, List.all_cons, Key.isText,
        Bool.true_and]
      exact and_left_comm
    | _ => simp [Trace.ofEntries, Key.isText]

theorem scalarType?_int (n : Int) :
    scalarType? (.int n) = some (if fitsInt64 n then .str "long" else widest) := by
  by_cases h : fitsInt64 n = true <;> simp [scalarType?, Value.kind?, h]

theorem scalarType?_isSome {v : Value} (h : isLeaf v = true) :
    (scalarType? v).isSome = v.kind?.isSome := by
  cases v with
  | int n => rw [scalarType?_int, Value.kind?, Option.isSome_some, Option.isSome_some]
  | null | struct _ | list _ | tuple _ => cases h
  | _ => rfl

theorem supported_leaf {v : Value} (h : isLeaf v = true) :
    Supported v ↔ v.kind?.isSome = true := by
  unfold Supported
  rw [Value.everywhere_iff]
  cases v with
  | null | struct _ | list _ | tuple _ => cases h
  | set vs => simp [Value.isPlain, Value.kind?]
  | _ => simp [Value.isPlain, Value.children, Value.entries]

/-- A walk goes through a value exactly when the value is supported. -/
theorem obstacle_ofValue (v : Value) :
    ∀ p path, (Trace.ofValue p path v).obstacle = none ↔ Supported v := by
  induction v using Value.childInduction with
  | step v ih =>
    intro p path
    cases v with
    | null =>
      have h : Supported .null := by decide
      simp [Trace.ofValue, h]
    | struct es =>
      have he : ∀ e ∈ es, ∀ p path, (Trace.ofValue p path e.2).obstacle = none ↔ Supported e.2 :=
        fun e he => ih e.2 (List.mem_map.mpr ⟨e, he, rfl⟩)
      rw [Trace.ofValue, Trace.obstacle_andThen, obstacle_ofEntries he, Supported,
        Value.everywhere_iff]
      simp only [Value.isPlain, Value.kind?, Value.entries, Value.children, List.mem_map,
        forall_exists_index, and_imp, forall_apply_eq_imp_iff₂, Option.isSome_some, Bool.true_and,
        true_and]
      rfl
    | list vs | tuple vs =>
      have hv : ∀ v ∈ vs, ∀ p path, (Trace.ofValue p path v).obstacle = none ↔ Supported v := ih
      rw [Trace.ofValue, Trace.obstacle_andThen, obstacle_ofItems hv, Supported,
        Value.everywhere_iff]
      simp only [Value.isPlain, Value.kind?, Value.entries, Value.children, Option.isSome_some,
        List.all_nil, Bool.true_and, true_and]
      rfl
    | _ =>
      rw [ofValue_leaf rfl, supported_leaf rfl, ← scalarType?_isSome rfl]
      split <;> simp_all

/-! ## Sightings at a position -/

theorem StaysBelow.elsewhere {q : Position} {step : Step} {t : Trace}
    (h : StaysBelow (q ++ [step]) t) {step' : Step} (hne : step ≠ step') (p : Position) :
    sightingsAt (q ++ step' :: p) t.sightings = [] := by
  refine sightingsAt_none fun s hs e => hne ?_
  obtain ⟨r, hr⟩ := h s hs
  rw [e, List.append_assoc, List.append_cancel_left_eq, List.singleton_append] at hr
  exact (List.cons.inj hr).1

theorem StaysBelow.above {q : Position} {step : Step} {t : Trace}
    (h : StaysBelow (q ++ [step]) t) : sightingsAt q t.sightings = [] := by
  refine sightingsAt_none fun s hs e => ?_
  have := (h s hs).length_le
  rw [e, List.length_append, List.length_singleton] at this
  omega

/-- What a walk through a value counts: at each position the sightings of the values there. -/
def CountsParts (v : Value) : Prop :=
  ∀ q path p, (Trace.ofValue q path v).obstacle = none ∧
    sightingsAt (q ++ p) (Trace.ofValue q path v).sightings =
      (observed p [v]).flatMap sightingsOf

theorem sightingsAt_child {v : Value} (h : CountsParts v) (q : Position) (step step' : Step)
    (path : String) (p : Position) :
    sightingsAt (q ++ step' :: p) (Trace.ofValue (q ++ [step]) path v).sightings =
      (observed p (if step = step' then [v] else [])).flatMap sightingsOf := by
  split
  · next hs =>
    subst hs
    rw [← (h (q ++ [step]) path p).2, List.append_assoc]
    rfl
  · next hs =>
    rw [(staysBelow_ofValue v _ path).elsewhere hs, observed_nil]
    rfl

theorem sightings_items_cons {v : Value} (h : CountsParts v) (q : Position) (path : String)
    (index : Nat) (vs : List Value) :
    (Trace.ofItems q path index (v :: vs)).sightings =
      (q, .item) :: ((Trace.ofValue (q ++ [.items]) (Pointer.item path index) v).sightings ++
        (Trace.ofItems q path (index + 1) vs).sightings) := by
  rw [Trace.ofItems, Trace.sightings_andThen rfl, Trace.sightings_andThen (h _ _ []).1]
  rfl

theorem sightingsAt_items_here {vs : List Value} (hv : ∀ v ∈ vs, CountsParts v) (q : Position)
    (path : String) (index : Nat) :
    sightingsAt q (Trace.ofItems q path index vs).sightings = vs.map fun _ => .item := by
  induction vs generalizing index with
  | nil => rfl
  | cons v vs ih =>
    rw [sightings_items_cons (hv v List.mem_cons_self), sightingsAt_here, sightingsAt_append,
      (staysBelow_ofValue v _ _).above, ih fun w hw => hv w (List.mem_cons_of_mem _ hw)]
    rfl

theorem sightingsAt_items_below {vs : List Value} (hv : ∀ v ∈ vs, CountsParts v) (q : Position)
    (path : String) (index : Nat) (step : Step) (p : Position) :
    sightingsAt (q ++ step :: p) (Trace.ofItems q path index vs).sightings =
      (observed p (inside step (.list vs))).flatMap sightingsOf := by
  induction vs generalizing index with
  | nil => cases step <;> (rw [show inside _ (Value.list []) = [] from rfl, observed_nil]; rfl)
  | cons v vs ih =>
    have hne : q ≠ q ++ step :: p := fun e => by simp at e
    rw [sightings_items_cons (hv v List.mem_cons_self), sightingsAt_other hne,
      sightingsAt_append, sightingsAt_child (hv v List.mem_cons_self),
      ih fun w hw => hv w (List.mem_cons_of_mem _ hw), ← List.flatMap_append]
    cases step with
    | key key => rw [if_neg (by simp), observed_nil]; rfl
    | items =>
      rw [if_pos rfl, ← observed_cons]
      rfl

theorem sightings_entries_cons {key : String} {v : Value} (h : CountsParts v) (q : Position)
    (path : String) (es : List (Key × Value)) :
    (Trace.ofEntries q path ((.text key, v) :: es)).sightings =
      (q, .field key) ::
        ((Trace.ofValue (q ++ [.key key]) (Pointer.child path key) v).sightings ++
          (Trace.ofEntries q path es).sightings) := by
  rw [Trace.ofEntries, Trace.sightings_andThen rfl, Trace.sightings_andThen (h _ _ []).1]
  rfl

theorem sightingsAt_entries_here {es : List (Key × Value)}
    (hk : es.all (·.1.isText) = true) (hv : ∀ e ∈ es, CountsParts e.2) (q : Position)
    (path : String) :
    sightingsAt q (Trace.ofEntries q path es).sightings =
      es.filterMap fun e => fieldSighting? e.1 := by
  induction es with
  | nil => rfl
  | cons e es ih =>
    obtain ⟨k, v⟩ := e
    rw [List.all_cons, Bool.and_eq_true] at hk
    cases k with
    | text key =>
      rw [sightings_entries_cons (hv (.text key, v) List.mem_cons_self), sightingsAt_here,
        sightingsAt_append, (staysBelow_ofValue v _ _).above,
        ih hk.2 fun e he => hv e (List.mem_cons_of_mem _ he)]
      rfl
    | _ => exact absurd hk.1 (by simp [Key.isText])

theorem inside_key_cons (key k : String) (v : Value) (es : List (Key × Value)) :
    inside (.key key) (.struct ((.text k, v) :: es)) =
      (if Step.key k = .key key then [v] else []) ++ inside (.key key) (.struct es) := by
  by_cases h : k = key <;> simp [inside, Value.entries, h]

theorem sightingsAt_entries_below {es : List (Key × Value)}
    (hk : es.all (·.1.isText) = true) (hv : ∀ e ∈ es, CountsParts e.2) (q : Position)
    (path : String) (step : Step) (p : Position) :
    sightingsAt (q ++ step :: p) (Trace.ofEntries q path es).sightings =
      (observed p (inside step (.struct es))).flatMap sightingsOf := by
  induction es with
  | nil => cases step <;> (rw [show inside _ (Value.struct []) = [] from rfl, observed_nil]; rfl)
  | cons e es ih =>
    obtain ⟨k, v⟩ := e
    rw [List.all_cons, Bool.and_eq_true] at hk
    have hne : q ≠ q ++ step :: p := fun e => by simp at e
    cases k with
    | text k =>
      rw [sightings_entries_cons (hv (.text k, v) List.mem_cons_self), sightingsAt_other hne,
        sightingsAt_append, sightingsAt_child (hv (.text k, v) List.mem_cons_self),
        ih hk.2 fun e he => hv e (List.mem_cons_of_mem _ he), ← List.flatMap_append]
      cases step with
      | key key => rw [inside_key_cons, observed_both]
      | items => rw [if_neg (by simp), observed_nil]; rfl
    | _ => exact absurd hk.1 (by simp [Key.isText])

/-- A walk through a supported value counts at each position the sightings of the values there. -/
theorem countsParts (v : Value) : Supported v → CountsParts v := by
  induction v using Value.childInduction with
  | step v ih =>
    intro hs q path p
    refine ⟨(obstacle_ofValue v q path).mpr hs, ?_⟩
    have hne : ∀ step r, q ≠ q ++ step :: r := fun step r e => by simp at e
    cases v with
    | null =>
      cases p with
      | nil =>
        rw [List.append_nil]
        exact sightingsAt_all q [.occurrence, .null]
      | cons step p =>
        rw [observed_single, inside_null, observed_nil, Trace.ofValue,
          sightingsAt_other (hne step p), sightingsAt_other (hne step p)]
        rfl
    | struct es =>
      have hv : ∀ e ∈ es, CountsParts e.2 := fun e he =>
        ih e.2 (List.mem_map.mpr ⟨e, he, rfl⟩) (hs.entry he)
      have hk : es.all (·.1.isText) = true := hs.here
      rw [Trace.ofValue, Trace.sightings_andThen rfl, sightingsAt_append]
      cases p with
      | nil =>
        rw [List.append_nil, sightingsAt_here, sightingsAt_here, sightingsAt_entries_here hk hv,
          observed, List.flatMap_singleton]
        rfl
      | cons step p =>
        rw [sightingsAt_other (hne step p), sightingsAt_other (hne step p),
          sightingsAt_entries_below hk hv, observed_single]
        rfl
    | list vs | tuple vs =>
      have hv : ∀ v ∈ vs, CountsParts v := fun v hv => ih v hv (hs.child hv)
      rw [Trace.ofValue, Trace.sightings_andThen rfl, sightingsAt_append]
      cases p with
      | nil =>
        rw [List.append_nil, sightingsAt_here, sightingsAt_here, sightingsAt_items_here hv,
          observed, List.flatMap_singleton]
        rfl
      | cons step p =>
        rw [sightingsAt_other (hne step p), sightingsAt_other (hne step p),
          sightingsAt_items_below hv, observed_single]
        cases step <;> rfl
    | _ =>
      obtain ⟨type, htype⟩ :=
        Option.isSome_iff_exists.mp ((scalarType?_isSome rfl).trans ((supported_leaf rfl).mp hs))
      rw [ofValue_leaf rfl, htype]
      cases p with
      | nil =>
        rw [observed, List.flatMap_singleton, sightingsOf_leaf rfl, htype, List.append_nil]
        exact sightingsAt_all q [.occurrence, .scalar type]
      | cons step p =>
        rw [observed_single, inside_leaf rfl, observed_nil, sightingsAt_other (hne step p),
          sightingsAt_other (hne step p)]
        rfl

end Inference
end AvroDocument
