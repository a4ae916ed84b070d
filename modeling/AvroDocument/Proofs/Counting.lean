import AvroDocument.Proofs.Observation

/-!
# AvroDocument.Proofs.Counting

What an arena holds after documents have been counted.

* `tally`: keys with the number of times they occur, in the order of first occurrence.
* `Shape.ofValues_nulls` and the like: each part of a shape as a count over the values.
* `addAll_ok_iff`: documents are counted exactly when all of them are supported structs.
* `shape_arenaOf`: at each position the arena holds the shape of the values observed there.
* `inferSchema_ok_iff`: when inference succeeds, and the schema it gives.
* `inferSchema_scanned`: a limit leaves out the documents behind it.
-/

namespace AvroDocument
namespace Inference

/-! ## Tallies -/

/-- Keys with the number of times they occur, in the order of first occurrence, added to a tally. -/
def tallyFrom (counts : List (String × Nat)) (ks : List String) : List (String × Nat) :=
  ks.foldl (fun l k => assign k ((lookup? k l).getD 0 + 1) l) counts

/-- Keys with the number of times they occur, in the order of first occurrence. -/
def tally (ks : List String) : List (String × Nat) := tallyFrom [] ks

theorem tallyFrom_append (counts : List (String × Nat)) (ks ks' : List String) :
    tallyFrom counts (ks ++ ks') = tallyFrom (tallyFrom counts ks) ks' :=
  List.foldl_append

theorem lookup?_tallyFrom (counts : List (String × Nat)) (ks : List String) (key : String) :
    (lookup? key (tallyFrom counts ks)).getD 0 = (lookup? key counts).getD 0 + ks.count key := by
  induction ks generalizing counts with
  | nil => rfl
  | cons k ks ih =>
    rw [tallyFrom, List.foldl_cons]
    rw [← tallyFrom, ih, lookup?_assign]
    by_cases h : key = k
    · subst h
      rw [if_pos rfl, Option.getD_some, List.count_cons_self]
      omega
    · have h' : (k == key) = false := by simpa using fun e : k = key => h e.symm
      rw [if_neg h, List.count_cons, h']
      rfl

theorem mem_keys_tallyFrom {counts : List (String × Nat)} {ks : List String} {key : String} :
    key ∈ (tallyFrom counts ks).map (·.1) ↔ key ∈ counts.map (·.1) ∨ key ∈ ks := by
  induction ks generalizing counts with
  | nil => simp [tallyFrom]
  | cons k ks ih =>
    rw [tallyFrom, List.foldl_cons]
    rw [← tallyFrom, ih, keys_assign, List.mem_cons]
    split
    · next h =>
      constructor
      · rintro (hk | hk)
        · exact .inl hk
        · exact .inr (.inr hk)
      · rintro (hk | rfl | hk)
        · exact .inl hk
        · exact .inl h
        · exact .inr hk
    · rw [List.mem_append, List.mem_singleton, or_assoc]

theorem nodup_keys_tallyFrom {counts : List (String × Nat)} {ks : List String}
    (h : (counts.map (·.1)).Nodup) : ((tallyFrom counts ks).map (·.1)).Nodup := by
  induction ks generalizing counts with
  | nil => exact h
  | cons k ks ih => exact ih (nodup_keys_assign h)

theorem nodup_keys_tally (ks : List String) : ((tally ks).map (·.1)).Nodup :=
  nodup_keys_tallyFrom List.nodup_nil

theorem mem_keys_tally {ks : List String} {key : String} :
    key ∈ (tally ks).map (·.1) ↔ key ∈ ks := by
  rw [tally, mem_keys_tallyFrom]
  simp

theorem lookup?_tally (ks : List String) (key : String) :
    (lookup? key (tally ks)).getD 0 = ks.count key := by
  rw [tally, lookup?_tallyFrom]
  exact Nat.zero_add _

/-- The count that stands beside a key of a tally. -/
theorem snd_of_mem_tally {ks : List String} {e : String × Nat} (h : e ∈ tally ks) :
    e.2 = ks.count e.1 := by
  rw [← lookup?_tally, lookup?_of_mem (nodup_keys_tally ks) h]
  rfl

/-- Tallies of the same keys in another order hold the same keys. -/
theorem keys_tally_perm {ks ks' : List String} (h : ks.Perm ks') :
    ((tally ks).map (·.1)).Perm ((tally ks').map (·.1)) := by
  refine (List.perm_ext_iff_of_nodup (nodup_keys_tally ks) (nodup_keys_tally ks')).mpr ?_
  intro key
  rw [mem_keys_tally, mem_keys_tally, h.mem_iff]

/-! ## Shapes of values -/

/-- The text keys of a value, if it is a struct. -/
def textKeys (v : Value) : List String :=
  v.entries.filterMap fun e =>
    match e.1 with
    | .text key => some key
    | _ => none

/-- The type of a scalar that is not null. -/
def leafType? (v : Value) : Option Json := if isLeaf v then scalarType? v else none

/-- The type seen so far, widened by that of one more value. -/
def widenBy (seen : Option Json) (type : Option Json) : Option Json :=
  match seen, type with
  | seen, none => seen
  | none, some type => some type
  | some seen, some type => some (widen seen type)

/-- A shape with one more value. -/
def Shape.add (s : Shape) (v : Value) : Shape := (sightingsOf v).foldl Shape.see s

theorem Shape.ofValues_eq_foldl (vs : List Value) : ofValues vs = vs.foldl Shape.add {} := by
  rw [ofValues, List.foldl_flatMap]
  rfl

theorem Shape.foldl_items (s : Shape) (vs : List Value) :
    (vs.map fun _ => Sighting.item).foldl Shape.see s = { s with items := s.items + vs.length } := by
  induction vs generalizing s with
  | nil => rfl
  | cons v vs ih =>
    rw [List.map_cons, List.foldl_cons, ih, List.length_cons, Nat.add_comm vs.length 1,
      ← Nat.add_assoc]
    rfl

theorem Shape.foldl_fields (s : Shape) (es : List (Key × Value)) :
    (es.filterMap fun e => fieldSighting? e.1).foldl Shape.see s =
      { s with fields := tallyFrom s.fields (textKeys (.struct es)) } := by
  induction es generalizing s with
  | nil => rfl
  | cons e es ih =>
    obtain ⟨k, v⟩ := e
    cases k with
    | text key => exact ih _
    | _ => exact ih _

theorem Shape.add_eq (s : Shape) (v : Value) :
    s.add v = {
      occurrences := s.occurrences + 1
      nulls := s.nulls + if v.kind? = some .null then 1 else 0
      scalar := widenBy s.scalar (leafType? v)
      structs := s.structs + if v.kind? = some .struct then 1 else 0
      fields := tallyFrom s.fields (textKeys v)
      lists := s.lists + if v.kind? = some .list then 1 else 0
      items := s.items + (inside .items v).length } := by
  cases v with
  | null => rfl
  | struct es =>
    rw [Shape.add, sightingsOf, List.foldl_cons, List.foldl_cons, Shape.foldl_fields]
    rfl
  | list vs | tuple vs =>
    rw [Shape.add, sightingsOf, List.foldl_cons, List.foldl_cons, Shape.foldl_items]
    rfl
  | int n =>
    rw [Shape.add, sightingsOf_leaf rfl, leafType?, scalarType?_int]
    obtain ⟨o, nl, sc, st, fs, ls, is⟩ := s
    by_cases h : fitsInt64 n = true <;> cases sc <;> simp [Shape.see, Value.kind?, isLeaf, widenBy,
      inside, Value.items?, textKeys, Value.entries, tallyFrom, h]
  | _ =>
    rw [Shape.add, sightingsOf_leaf rfl]
    obtain ⟨o, nl, sc, st, fs, ls, is⟩ := s
    cases sc <;> rfl

theorem Shape.foldl_add (s : Shape) (vs : List Value) :
    vs.foldl Shape.add s = {
      occurrences := s.occurrences + vs.length
      nulls := s.nulls + vs.countP fun v => v.kind? = some .null
      scalar := (vs.map leafType?).foldl widenBy s.scalar
      structs := s.structs + vs.countP fun v => v.kind? = some .struct
      fields := tallyFrom s.fields (vs.flatMap textKeys)
      lists := s.lists + vs.countP fun v => v.kind? = some .list
      items := s.items + (vs.flatMap (inside .items)).length } := by
  induction vs generalizing s with
  | nil => rfl
  | cons v vs ih =>
    rw [List.foldl_cons, ih, Shape.add_eq]
    simp only [List.length_cons, List.countP_cons, List.map_cons, List.foldl_cons,
      List.flatMap_cons, tallyFrom_append, List.length_append, decide_eq_true_eq, Shape.mk.injEq,
      true_and]
    omega

/-- The shape of values, part by part. -/
theorem Shape.ofValues_eq (vs : List Value) :
    ofValues vs = {
      occurrences := vs.length
      nulls := vs.countP fun v => v.kind? = some .null
      scalar := (vs.map leafType?).foldl widenBy none
      structs := vs.countP fun v => v.kind? = some .struct
      fields := tally (vs.flatMap textKeys)
      lists := vs.countP fun v => v.kind? = some .list
      items := (vs.flatMap (inside .items)).length } := by
  rw [ofValues_eq_foldl, foldl_add]
  simp only [Nat.zero_add]
  rfl

theorem Shape.ofValues_nulls (vs : List Value) :
    (ofValues vs).nulls = vs.countP fun v => v.kind? = some .null := by rw [ofValues_eq]

theorem Shape.ofValues_structs (vs : List Value) :
    (ofValues vs).structs = vs.countP fun v => v.kind? = some .struct := by rw [ofValues_eq]

theorem Shape.ofValues_lists (vs : List Value) :
    (ofValues vs).lists = vs.countP fun v => v.kind? = some .list := by rw [ofValues_eq]

theorem Shape.ofValues_items (vs : List Value) :
    (ofValues vs).items = (vs.flatMap (inside .items)).length := by rw [ofValues_eq]

theorem Shape.ofValues_fields (vs : List Value) :
    (ofValues vs).fields = tally (vs.flatMap textKeys) := by rw [ofValues_eq]

/-! ## Types of scalars -/

/-- The types that scalars have. -/
def scalarTypes : List Json :=
  [.str "boolean", .str "long", .str "double", widest, .str "bytes",
    Schema.primitive "long" (some "timestamp-micros"),
    Schema.primitive "long" (some "local-timestamp-micros"),
    Schema.primitive "int" (some "date"), Schema.primitive "long" (some "time-micros")]

theorem scalarTypes_eq : scalarTypes =
    [.str "boolean", .str "long", .str "double", .str "string", .str "bytes",
      .obj [("type", .str "long"), ("logicalType", .str "timestamp-micros")],
      .obj [("type", .str "long"), ("logicalType", .str "local-timestamp-micros")],
      .obj [("type", .str "int"), ("logicalType", .str "date")],
      .obj [("type", .str "long"), ("logicalType", .str "time-micros")]] := rfl

theorem leafType?_mem {v : Value} {type : Json} (h : leafType? v = some type) :
    type ∈ scalarTypes := by
  cases v with
  | int n =>
    rw [leafType?, if_pos (show isLeaf (.int n) = true from rfl), scalarType?_int,
      Option.some.injEq] at h
    subst h
    split <;> simp [scalarTypes]
  | timestamp t =>
    simp only [leafType?, isLeaf, if_true, scalarType?, Value.kind?, Option.some.injEq] at h
    subst h
    split <;> simp [scalarTypes]
  | null | struct _ | list _ | tuple _ => cases h
  | uuid _ | set _ | missing => cases h
  | _ =>
    cases h
    simp [scalarTypes]

theorem eq_of_same {a b : Json} (ha : a ∈ scalarTypes) (hb : b ∈ scalarTypes)
    (h : a.same b = true) : a = b := by
  simp only [scalarTypes_eq, List.mem_cons, List.not_mem_nil, or_false] at ha hb
  rcases ha with rfl | rfl | rfl | rfl | rfl | rfl | rfl | rfl | rfl <;>
    rcases hb with rfl | rfl | rfl | rfl | rfl | rfl | rfl | rfl | rfl <;>
    first | rfl | simp [Json.same, Json.sameMembers, lookup?] at h

theorem same_self {a : Json} (ha : a ∈ scalarTypes) : a.same a = true := by
  simp only [scalarTypes_eq, List.mem_cons, List.not_mem_nil, or_false] at ha
  rcases ha with rfl | rfl | rfl | rfl | rfl | rfl | rfl | rfl | rfl <;>
    simp [Json.same, Json.sameMembers, lookup?]

theorem widen_comm {a b : Json} (ha : a ∈ scalarTypes) (hb : b ∈ scalarTypes) :
    widen a b = widen b a := by
  unfold widen
  by_cases h : a = b
  · subst h
    rfl
  · have hab : ¬ a.same b = true := fun e => h (eq_of_same ha hb e)
    have hba : ¬ b.same a = true := fun e => h (eq_of_same hb ha e).symm
    rw [if_neg hab, if_neg hba]

theorem widen_right_comm (a b c : Json) : widen (widen a b) c = widen (widen a c) b := by
  unfold widen
  by_cases hb : a.same b = true <;> by_cases hc : a.same c = true <;> simp [hb, hc]

theorem widenBy_right_comm {x y : Option Json} (hx : ∀ t, x = some t → t ∈ scalarTypes)
    (hy : ∀ t, y = some t → t ∈ scalarTypes) (seen : Option Json) :
    widenBy (widenBy seen x) y = widenBy (widenBy seen y) x := by
  cases x with
  | none => cases seen <;> cases y <;> rfl
  | some a =>
    cases y with
    | none => cases seen <;> rfl
    | some b =>
      cases seen with
      | none => exact congrArg some (widen_comm (hx a rfl) (hy b rfl))
      | some c => exact congrArg some (widen_right_comm c a b)

/-- The type of all scalars among some values. -/
def widenedType? (vs : List Value) : Option Json := (vs.map leafType?).foldl widenBy none

theorem Shape.ofValues_scalar (vs : List Value) :
    (ofValues vs).scalar = widenedType? vs := by
  rw [ofValues_eq]
  rfl

theorem foldl_widenBy_some (types : List (Option Json)) (seen : Json) :
    ∃ type, types.foldl widenBy (some seen) = some type ∧ (type = seen ∨ type = widest) ∧
      ∀ t, some t ∈ types → seen ∈ scalarTypes → t ∈ scalarTypes → t = type ∨ type = widest := by
  induction types generalizing seen with
  | nil => exact ⟨seen, rfl, .inl rfl, fun t ht => absurd ht List.not_mem_nil⟩
  | cons x types ih =>
    cases x with
    | none =>
      obtain ⟨type, h, hs, ht⟩ := ih seen
      refine ⟨type, h, hs, fun t hm => ht t ?_⟩
      simpa using hm
    | some a =>
      obtain ⟨type, h, hs, ht⟩ := ih (widen seen a)
      refine ⟨type, h, ?_, ?_⟩
      · rcases hs with hs | hs
        · rw [hs, widen]
          split
          · exact .inl rfl
          · exact .inr rfl
        · exact .inr hs
      · intro t hm hseen hst
        by_cases hw : type = widest
        · exact .inr hw
        have htype : type = widen seen a := hs.resolve_right hw
        have hsame : seen.same a = true := by
          rw [widen] at htype
          split at htype
          · assumption
          · exact absurd htype hw
        rw [widen, if_pos hsame] at htype ht
        rcases List.mem_cons.mp hm with e | hm
        · cases e
          exact .inl ((htype.trans (eq_of_same hseen hst hsame)).symm)
        · exact ht t hm hseen hst

theorem widenedType?_cons (v : Value) (vs : List Value) :
    widenedType? (v :: vs) =
      match leafType? v with
      | none => widenedType? vs
      | some a => (vs.map leafType?).foldl widenBy (some a) := by
  rw [widenedType?, List.map_cons, List.foldl_cons]
  cases leafType? v <;> rfl

theorem widenedType?_eq_none {vs : List Value} :
    widenedType? vs = none ↔ ∀ v ∈ vs, leafType? v = none := by
  induction vs with
  | nil => simp [widenedType?]
  | cons v vs ih =>
    rw [widenedType?_cons]
    cases h : leafType? v with
    | none => simp [h, ih]
    | some a =>
      obtain ⟨type, htype, _⟩ := foldl_widenBy_some (vs.map leafType?) a
      simp [htype, h]

/-- The type of all scalars is the type of each of them, unless it is the widest. -/
theorem leafType?_of_widenedType? {vs : List Value} {type : Json}
    (h : widenedType? vs = some type) {v : Value} (hv : v ∈ vs) {t : Json}
    (ht : leafType? v = some t) : t = type ∨ type = widest := by
  induction vs with
  | nil => cases hv
  | cons w vs ih =>
    rw [widenedType?_cons] at h
    cases hw : leafType? w with
    | none =>
      rw [hw] at h
      rcases List.mem_cons.mp hv with rfl | hv
      · rw [hw] at ht
        cases ht
      · exact ih h hv
    | some a =>
      rw [hw] at h
      obtain ⟨type', htype', hs, hall⟩ := foldl_widenBy_some (vs.map leafType?) a
      obtain rfl : type' = type := Option.some.inj (htype'.symm.trans h)
      rcases List.mem_cons.mp hv with rfl | hv
      · rw [hw] at ht
        cases ht
        exact hs.imp Eq.symm id
      · refine hall t ?_ (leafType?_mem hw) (leafType?_mem ht)
        exact List.mem_map.mpr ⟨v, hv, ht⟩

theorem widenedType?_mem {vs : List Value} {type : Json} (h : widenedType? vs = some type) :
    type ∈ scalarTypes := by
  induction vs with
  | nil => cases h
  | cons w vs ih =>
    rw [widenedType?_cons] at h
    cases hw : leafType? w with
    | none =>
      rw [hw] at h
      exact ih h
    | some a =>
      rw [hw] at h
      obtain ⟨type', htype', hs, _⟩ := foldl_widenBy_some (vs.map leafType?) a
      obtain rfl : type' = type := Option.some.inj (htype'.symm.trans h)
      rcases hs with rfl | rfl
      · exact leafType?_mem hw
      · simp [scalarTypes]

/-! ## Arenas -/

theorem get?_record (arena : Arena) (p q : Position) (s : Sighting) :
    (arena.record p s).get? q =
      if p = q then some (((arena.get? p).getD {}).see s) else arena.get? q := by
  induction arena with
  | nil => rfl
  | cons e rest ih =>
    obtain ⟨p', shape⟩ := e
    rw [Arena.record]
    by_cases hp : p' = p
    · subst hp
      rw [if_pos rfl, Arena.get?, Arena.get?, if_pos rfl, Arena.get?]
      split <;> rfl
    · rw [if_neg hp, Arena.get?, ih, Arena.get?, if_neg hp, Arena.get?]
      by_cases hq : p' = q
      · subst hq
        rw [if_pos rfl, if_neg fun e => hp e.symm, if_pos rfl]
      · rw [if_neg hq, if_neg hq]

/-- At each position an arena counts the sightings there, one after the other. -/
theorem shape_recordAll (arena : Arena) (l : List (Position × Sighting)) (q : Position) :
    ((arena.recordAll l).get? q).getD {} =
      (sightingsAt q l).foldl Shape.see ((arena.get? q).getD {}) := by
  induction l generalizing arena with
  | nil => rfl
  | cons e l ih =>
    obtain ⟨p, s⟩ := e
    rw [Arena.recordAll, List.foldl_cons]
    rw [← Arena.recordAll, ih, get?_record]
    by_cases hp : p = q
    · subst hp
      rw [if_pos rfl, sightingsAt_here]
      rfl
    · rw [if_neg hp, sightingsAt_other hp]

theorem get?_recordAll_isSome {arena : Arena} {l : List (Position × Sighting)} {q : Position}
    (h : (arena.get? q).isSome ∨ sightingsAt q l ≠ []) :
    ((arena.recordAll l).get? q).isSome := by
  induction l generalizing arena with
  | nil =>
    rcases h with h | h
    · exact h
    · exact absurd rfl h
  | cons e l ih =>
    obtain ⟨p, s⟩ := e
    rw [Arena.recordAll, List.foldl_cons]
    refine ih ?_
    rw [get?_record]
    by_cases hp : p = q
    · exact .inl (by rw [if_pos hp]; rfl)
    · rw [if_neg hp]
      rwa [sightingsAt_other hp] at h

theorem le_foldl_max (ns : List Nat) (m : Nat) :
    m ≤ ns.foldl max m ∧ ∀ n ∈ ns, n ≤ ns.foldl max m := by
  induction ns generalizing m with
  | nil => simp
  | cons n ns ih =>
    obtain ⟨hm, hns⟩ := ih (max m n)
    rw [List.foldl_cons]
    refine ⟨by omega, fun k hk => ?_⟩
    rcases List.mem_cons.mp hk with rfl | hk
    · omega
    · exact hns k hk

theorem mem_of_get? {arena : Arena} {q : Position} (h : (arena.get? q).isSome) :
    q ∈ arena.map (·.1) := by
  induction arena with
  | nil => cases h
  | cons e rest ih =>
    obtain ⟨p, s⟩ := e
    rw [Arena.get?] at h
    split at h
    · next hp => simp [hp]
    · exact List.mem_cons_of_mem _ (ih h)

/-- No position of an arena is deeper than its depth. -/
theorem length_le_depth {arena : Arena} {q : Position} (h : (arena.get? q).isSome) :
    q.length ≤ arena.depth := by
  obtain ⟨e, he, rfl⟩ := List.mem_map.mp (mem_of_get? h)
  exact (le_foldl_max (arena.map (·.1.length)) 0).2 _ (List.mem_map.mpr ⟨e, he, rfl⟩)

/-! ## Counting documents -/

/-- A document that inference takes: a struct of interchange values with text keys. -/
def Countable (d : Value) : Prop := d.IsStruct ∧ Supported d

instance (d : Value) : Decidable (Countable d) :=
  inferInstanceAs (Decidable (d.IsStruct ∧ Supported d))

theorem add_eq_ok {a a' : Accumulator} {d : Value} :
    a.add d = (a', none) ↔ Countable d ∧
      a' = ⟨a.arena.recordAll (Trace.ofValue [] Pointer.root d).sightings, a.documents + 1⟩ := by
  unfold Accumulator.add Countable Value.IsStruct
  cases hk : d.kind? with
  | none => simp
  | some k =>
    cases k with
    | struct =>
      simp only [true_and]
      cases ho : (Trace.ofValue [] Pointer.root d).obstacle with
      | none =>
        have := (obstacle_ofValue d [] Pointer.root).mp ho
        simp [this, eq_comm]
      | some o =>
        have hs : ¬ Supported d := by
          intro hs
          rw [(obstacle_ofValue d [] Pointer.root).mpr hs] at ho
          cases ho
        simp [hs]
    | _ => simp

/-- The sightings of documents. -/
def sightingsIn (docs : List Value) : List (Position × Sighting) :=
  docs.flatMap fun d => (Trace.ofValue [] Pointer.root d).sightings

theorem addAll_ok_iff {a a' : Accumulator} {docs : List Value} :
    a.addAll 0 docs = .ok a' ↔ (∀ d ∈ docs, Countable d) ∧
      a' = ⟨a.arena.recordAll (sightingsIn docs), a.documents + docs.length⟩ := by
  induction docs generalizing a with
  | nil => simp [Accumulator.addAll, sightingsIn, Arena.recordAll, eq_comm]
  | cons d docs ih =>
    rw [Accumulator.addAll]
    simp only [ne_eq, not_true, decide_false, Bool.false_and, Bool.false_eq_true, if_false]
    cases ha : a.add d with
    | mk a1 failure =>
      cases failure with
      | some f =>
        have hd : ¬ Countable d := by
          intro hd
          have hok := (add_eq_ok (a := a)).mpr ⟨hd, rfl⟩
          rw [ha] at hok
          cases hok
        simp [hd]
      | none =>
        obtain ⟨hd, rfl⟩ := add_eq_ok.mp ha
        have hr : Arena.recordAll a.arena (sightingsIn (d :: docs)) =
            Arena.recordAll (Arena.recordAll a.arena (Trace.ofValue [] Pointer.root d).sightings)
              (sightingsIn docs) := by
          rw [sightingsIn, List.flatMap_cons, Arena.recordAll, List.foldl_append]
          rfl
        rw [ih, hr, List.length_cons, Nat.add_comm docs.length 1, ← Nat.add_assoc]
        simp [hd]

/-- The arena of documents. -/
def arenaOf (docs : List Value) : Arena := Arena.recordAll [] (sightingsIn docs)

theorem sightingsAt_sightingsIn {docs : List Value} (h : ∀ d ∈ docs, Supported d) (p : Position) :
    sightingsAt p (sightingsIn docs) = (observed p docs).flatMap sightingsOf := by
  induction docs with
  | nil => rw [observed_nil]; rfl
  | cons d docs ih =>
    have hd := (countsParts d (h d List.mem_cons_self) [] Pointer.root p).2
    rw [List.nil_append] at hd
    rw [sightingsIn, List.flatMap_cons, sightingsAt_append, hd, ← sightingsIn,
      ih fun e he => h e (List.mem_cons_of_mem _ he), observed_cons p d docs,
      List.flatMap_append]

/-- At each position the arena holds the shape of the values observed there. -/
theorem shape_arenaOf {docs : List Value} (h : ∀ d ∈ docs, Supported d) (p : Position) :
    ((arenaOf docs).get? p).getD {} = Shape.ofValues (observed p docs) := by
  rw [arenaOf, shape_recordAll, sightingsAt_sightingsIn h]
  rfl

theorem sightingsOf_ne_nil (v : Value) : sightingsOf v ≠ [] := by
  cases v <;> simp [sightingsOf]

theorem arenaOf_isSome {docs : List Value} (h : ∀ d ∈ docs, Supported d) {p : Position}
    (hp : observed p docs ≠ []) : ((arenaOf docs).get? p).isSome := by
  refine get?_recordAll_isSome (.inr ?_)
  rw [sightingsAt_sightingsIn h]
  obtain ⟨v, hv⟩ := List.exists_mem_of_ne_nil _ hp
  obtain ⟨s, hs⟩ := List.exists_mem_of_ne_nil _ (sightingsOf_ne_nil v)
  exact List.ne_nil_of_mem (List.mem_flatMap.mpr ⟨v, hv, hs⟩)

theorem observed_of_depth {docs : List Value} (h : ∀ d ∈ docs, Supported d) {p : Position}
    (hp : (arenaOf docs).depth < p.length) : observed p docs = [] := by
  refine Classical.byContradiction fun hne => ?_
  have := length_le_depth (arenaOf_isSome h hne)
  omega

/-! ## The schema of documents -/

/-- The namespace around the records of an inferred schema. -/
def outerNamespace (namespaceName : String) : String :=
  if namespaceName = "" then "" else Schema.avroNamespace namespaceName

/-- The outline of documents. -/
def outlineOf (typeName namespaceName : String) (docs : List Value) : Outline :=
  Outline.ofArena (arenaOf docs) (outerNamespace namespaceName) ((arenaOf docs).depth + 1) []
    [Schema.avroName typeName]

/-- The schema of an outline whose records have their final names. -/
def Outline.finished (altNamesKey : String) (outline : Outline) : Json :=
  outline.schema altNamesKey (recordNames outline.sites)

theorem schema_arenaOf {docs : List Value} (h : ∀ d ∈ docs, Countable d) {n : Nat}
    {typeName namespaceName altNamesKey : String} {schema : Json} :
    Accumulator.schema ⟨arenaOf docs, n⟩ typeName namespaceName altNamesKey = .ok schema ↔
      n ≠ 0 ∧ docs ≠ [] ∧ schema = (outlineOf typeName namespaceName docs).finished altNamesKey := by
  have hroot : ((arenaOf docs).get? []).isNone = true ↔ docs = [] := by
    constructor
    · intro hn
      refine Classical.byContradiction fun hne => ?_
      have := arenaOf_isSome (fun d hd => (h d hd).2) (p := []) hne
      rw [Option.isNone_iff_eq_none] at hn
      rw [hn] at this
      cases this
    · rintro rfl
      rfl
  unfold Accumulator.schema
  by_cases hn : n = 0
  · simp [hn]
  · by_cases hd : docs = []
    · rw [if_pos (by rw [hroot.mpr hd, Bool.or_true])]
      simp [hd]
    · have hnot : ((arenaOf docs).get? []).isNone = false := by
        rw [Bool.eq_false_iff, Ne, hroot]
        exact hd
      simp only [hn, hnot, decide_false, Bool.or_self, Bool.false_eq_true, if_false,
        Except.ok.injEq, ne_eq, not_false_iff, hd, true_and]
      exact eq_comm

/-- Inference from all documents succeeds exactly when there are some and all of them are supported
structs. -/
theorem inferSchema_ok_iff {options : Options} (hrows : options.rowsToScan = 0)
    {docs : List Value} {schema : Json} :
    inferSchema options docs = .ok schema ↔
      docs ≠ [] ∧ (∀ d ∈ docs, Countable d) ∧
        schema = (outlineOf options.typeName options.namespaceName docs).finished
          options.altNamesKey := by
  unfold inferSchema
  rw [hrows]
  constructor
  · intro h
    split at h
    · cases h
    · next a ha =>
      obtain ⟨hd, rfl⟩ := addAll_ok_iff.mp ha
      obtain ⟨_, hne, hs⟩ := (schema_arenaOf hd).mp h
      exact ⟨hne, hd, hs⟩
  · rintro ⟨hne, hd, hs⟩
    have ha := (addAll_ok_iff (a := {})).mpr ⟨hd, rfl⟩
    rw [ha]
    refine (schema_arenaOf hd).mpr ⟨?_, hne, hs⟩
    have := List.length_pos_iff.mpr hne
    show 0 + docs.length ≠ 0
    omega

/-! ## Limits -/

/-- The documents that inference looks at; zero stands for no limit. -/
def scanned (limit : Nat) (docs : List Value) : List Value :=
  if limit = 0 then docs else docs.take limit

theorem addAll_limit {limit : Nat} (hlimit : limit ≠ 0) (a : Accumulator) (docs : List Value) :
    a.addAll limit docs = a.addAll 0 (docs.take (limit - a.documents)) := by
  induction docs generalizing a with
  | nil => rw [List.take_nil, Accumulator.addAll, Accumulator.addAll]
  | cons d docs ih =>
    by_cases hfull : limit ≤ a.documents
    · rw [Nat.sub_eq_zero_of_le hfull, List.take_zero, Accumulator.addAll, Accumulator.addAll]
      simp [hlimit, hfull]
    · obtain ⟨room, hroom⟩ : ∃ room, limit - a.documents = room + 1 :=
        ⟨limit - a.documents - 1, by omega⟩
      rw [hroom, List.take_succ_cons, Accumulator.addAll, Accumulator.addAll]
      simp only [hlimit, hfull, ne_eq, not_true, not_false_iff, decide_true, decide_false,
        Bool.and_false, Bool.false_and, Bool.false_eq_true, if_false]
      cases ha : a.add d with
      | mk a1 failure =>
        cases failure with
        | some f => rfl
        | none =>
          obtain ⟨_, rfl⟩ := add_eq_ok.mp ha
          simp only [ih]
          rw [show limit - (a.documents + 1) = room by omega]

theorem addAll_scanned (limit : Nat) (docs : List Value) :
    Accumulator.addAll limit {} docs = Accumulator.addAll 0 {} (scanned limit docs) := by
  by_cases h : limit = 0
  · rw [h]
    rfl
  · rw [addAll_limit h, scanned, if_neg h]
    rfl

/-- With a limit, inference takes the documents up to it and no others. -/
theorem inferSchema_scanned (options : Options) (docs : List Value) :
    inferSchema options docs =
      inferSchema { options with rowsToScan := 0 } (scanned options.rowsToScan docs) := by
  unfold inferSchema
  rw [addAll_scanned]

end Inference
end AvroDocument
