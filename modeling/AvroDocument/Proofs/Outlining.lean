import AvroDocument.Proofs.Counting
import AvroDocument.Proofs.Naming

/-!
# AvroDocument.Proofs.Outlining

The outline of a position as a function of the values observed there.

* `classify`: which type some values have together.
* `Outlined`: the outline of values, by their class and the outlines of what lies inside them.
* `Outlined.of_classify`: what the outline of values of a class is.
* `outlined_ofArena`: the outlines that inference builds are these.
* `Admits`: the values that an outline has room for.
* `admits_of_outlined`: it has room for every value it was made of.
-/

namespace AvroDocument
namespace Inference

/-! ## Classes of values -/

/-- What some values are together. -/
inductive Category where
  | nothing
  | mixed
  | scalar (type : Json)
  | record
  | emptyArray
  | array

/-- Null alone says nothing; values of different kinds are mixed. -/
def classify (vs : List Value) : Category :=
  let s := Shape.ofValues vs
  if s.categories = 0 then .nothing
  else if 1 < s.categories then .mixed
  else
    match s.scalar with
    | some type => .scalar type
    | none => if 0 < s.structs then .record else if s.items = 0 then .emptyArray else .array

/-- The keys of the structs among some values, in the order of first observation. -/
def keysOf (vs : List Value) : List String := (tally (vs.flatMap textKeys)).map (·.1)

/-- Whether a key is missing from a struct among some values, or null in one. -/
def mayMiss (vs : List Value) (key : String) : Bool :=
  decide ((vs.flatMap textKeys).count key < vs.countP fun v => v.kind? = some .struct) ||
    decide (0 < (vs.flatMap (inside (.key key))).countP fun v => v.kind? = some .null)

/-- The field of a key. -/
def fieldOf (vs : List Value) (key : String) : FieldKey :=
  ⟨key, nameOfKey (keysOf vs) key, mayMiss vs key⟩

/-- The outline of some values at a position, `path` being the names that lead there. -/
inductive Outlined (outer : String) : Position → List String → List Value → Outline → Prop
  | null {p : Position} {path : List String} {vs : List Value} (h : classify vs = .nothing) :
    Outlined outer p path vs .null
  | mixed {p : Position} {path : List String} {vs : List Value} (h : classify vs = .mixed) :
    Outlined outer p path vs (.scalar widest)
  | scalar {p : Position} {path : List String} {vs : List Value} {type : Json}
    (h : classify vs = .scalar type) : Outlined outer p path vs (.scalar type)
  | emptyArray {p : Position} {path : List String} {vs : List Value}
    (h : classify vs = .emptyArray) : Outlined outer p path vs (.array false (.scalar widest))
  | array {p : Position} {path : List String} {vs : List Value} {items : Outline}
    (h : classify vs = .array)
    (below : Outlined outer (p ++ [.items]) (Outline.itemPath path) (vs.flatMap (inside .items))
      items) :
    Outlined outer p path vs
      (.array (decide (0 < (vs.flatMap (inside .items)).countP fun v => v.kind? = some .null)) items)
  | record {p : Position} {path : List String} {vs : List Value} {types : String → Outline}
    (h : classify vs = .record)
    (below : ∀ key ∈ keysOf vs, Outlined outer (p ++ [.key key])
      (path ++ [nameOfKey (keysOf vs) key]) (vs.flatMap (inside (.key key))) (types key)) :
    Outlined outer p path vs
      (.record ⟨p, Outline.siteNamespace outer path, path.getLast?.getD ""⟩
        ((keysOf vs).map fun key => (fieldOf vs key, types key)))

/-- What the outline of values of a class is. -/
theorem Outlined.of_classify {outer : String} {p : Position} {path : List String}
    {vs : List Value} {o : Outline} (ho : Outlined outer p path vs o) :
    match classify vs with
    | .nothing => o = .null
    | .mixed => o = .scalar widest
    | .scalar type => o = .scalar type
    | .record => ∃ types : String → Outline,
        o = .record ⟨p, Outline.siteNamespace outer path, path.getLast?.getD ""⟩
          ((keysOf vs).map fun key => (fieldOf vs key, types key)) ∧
        ∀ key ∈ keysOf vs, Outlined outer (p ++ [.key key])
          (path ++ [nameOfKey (keysOf vs) key]) (vs.flatMap (inside (.key key))) (types key)
    | .emptyArray => o = .array false (.scalar widest)
    | .array => ∃ items : Outline,
        o = .array (decide (0 < (vs.flatMap (inside .items)).countP fun v => v.kind? = some .null))
          items ∧
        Outlined outer (p ++ [.items]) (Outline.itemPath path) (vs.flatMap (inside .items))
          items := by
  cases ho with
  | null h | mixed h | scalar h | emptyArray h => simp only [h]
  | array h below =>
    simp only [h]
    exact ⟨_, rfl, below⟩
  | record h below =>
    simp only [h]
    exact ⟨_, rfl, below⟩

/-! ## The outlines of an arena -/

theorem classify_nil : classify [] = .nothing := rfl

theorem ofArena_succ (arena : Arena) (outer : String) (fuel : Nat) (p : Position)
    (path : List String) {vs : List Value} (hvs : (arena.get? p).getD {} = Shape.ofValues vs)
    (hbelow : ∀ step, (arena.get? (p ++ [step])).getD {} =
      Shape.ofValues (vs.flatMap (inside step))) :
    Outline.ofArena arena outer (fuel + 1) p path =
      match classify vs with
      | .nothing => .null
      | .mixed => .scalar widest
      | .scalar type => .scalar type
      | .record =>
        .record ⟨p, Outline.siteNamespace outer path, path.getLast?.getD ""⟩
          ((keysOf vs).map fun key => (fieldOf vs key,
            Outline.ofArena arena outer fuel (p ++ [.key key])
              (path ++ [nameOfKey (keysOf vs) key])))
      | .emptyArray => .array false (.scalar widest)
      | .array =>
        .array (decide (0 < (vs.flatMap (inside .items)).countP fun v => v.kind? = some .null))
          (Outline.ofArena arena outer fuel (p ++ [.items]) (Outline.itemPath path)) := by
  rw [Outline.ofArena, hvs]
  simp only [classify, hbelow]
  by_cases h0 : (Shape.ofValues vs).categories = 0
  · rw [if_pos h0, if_pos h0]
  rw [if_neg h0, if_neg h0]
  by_cases h1 : 1 < (Shape.ofValues vs).categories
  · rw [if_pos h1, if_pos h1]
  rw [if_neg h1, if_neg h1]
  cases (Shape.ofValues vs).scalar with
  | some type => rfl
  | none =>
    by_cases hs : 0 < (Shape.ofValues vs).structs
    · rw [if_pos hs, if_pos hs]
      simp only [Shape.ofValues_fields, Shape.ofValues_structs, Shape.ofValues_nulls, keysOf,
        List.map_map]
      congr 1
      refine List.map_congr_left fun e he => ?_
      have hcount := snd_of_mem_tally he
      simp only [Function.comp_apply, fieldOf, mayMiss, keysOf, hcount, nameOfKey]
    · rw [if_neg hs, if_neg hs]
      by_cases hi : (Shape.ofValues vs).items = 0
      · rw [if_pos hi, if_pos hi]
      · rw [if_neg hi, if_neg hi]
        simp only [Shape.ofValues_nulls]

/-- The outlines that inference builds are those of the values observed. -/
theorem outlined_ofArena {docs : List Value} (hd : ∀ d ∈ docs, Supported d) (outer : String)
    (fuel : Nat) (p : Position) (path : List String)
    (hf : fuel + p.length = (arenaOf docs).depth + 1) :
    Outlined outer p path (observed p docs)
      (Outline.ofArena (arenaOf docs) outer fuel p path) := by
  induction fuel generalizing p path with
  | zero =>
    rw [observed_of_depth hd (by omega)]
    exact .null classify_nil
  | succ fuel ih =>
    have hshape := shape_arenaOf hd
    have hstep : ∀ step, (observed p docs).flatMap (inside step) = observed (p ++ [step]) docs :=
      fun step => (observed_step p step docs).symm
    rw [ofArena_succ _ _ _ _ _ (hshape p) fun step => by rw [hshape, hstep]]
    have hlen : ∀ step, fuel + (p ++ [step]).length = (arenaOf docs).depth + 1 := by
      intro step
      rw [List.length_append, List.length_singleton]
      omega
    cases h : classify (observed p docs) with
    | nothing => exact .null h
    | mixed => exact .mixed h
    | scalar type => exact .scalar h
    | emptyArray => exact .emptyArray h
    | array =>
      refine .array h ?_
      rw [hstep]
      exact ih _ _ (hlen _)
    | record =>
      refine .record h fun key _ => ?_
      rw [hstep]
      exact ih _ _ (hlen _)

theorem outlined_outlineOf {docs : List Value} (hd : ∀ d ∈ docs, Supported d)
    (typeName namespaceName : String) :
    Outlined (outerNamespace namespaceName) [] [Schema.avroName typeName] docs
      (outlineOf typeName namespaceName docs) :=
  outlined_ofArena hd _ _ [] _ rfl

/-! ## What the values of a class are -/

theorem supported_cases {v : Value} (h : Supported v) :
    v = .null ∨ (∃ es, v = .struct es) ∨ (∃ ws, v.items? = some ws) ∨
      ∃ type, leafType? v = some type := by
  by_cases hl : isLeaf v = true
  · have hsome := (scalarType?_isSome hl).trans ((supported_leaf hl).mp h)
    obtain ⟨type, ht⟩ := Option.isSome_iff_exists.mp hsome
    refine .inr (.inr (.inr ⟨type, ?_⟩))
    rw [leafType?, if_pos hl, ht]
  · cases v with
    | null => exact .inl rfl
    | struct es => exact .inr (.inl ⟨es, rfl⟩)
    | list ws | tuple ws => exact .inr (.inr (.inl ⟨ws, rfl⟩))
    | _ => exact absurd rfl hl

/-- The parts of a shape that decide on its class. -/
theorem classify_spec (vs : List Value) :
    match classify vs with
    | .nothing => widenedType? vs = none ∧ (Shape.ofValues vs).structs = 0 ∧
        (Shape.ofValues vs).lists = 0
    | .mixed => 1 < (Shape.ofValues vs).categories
    | .scalar type => widenedType? vs = some type ∧ (Shape.ofValues vs).structs = 0 ∧
        (Shape.ofValues vs).lists = 0
    | .record => widenedType? vs = none ∧ 0 < (Shape.ofValues vs).structs ∧
        (Shape.ofValues vs).lists = 0
    | .emptyArray => widenedType? vs = none ∧ (Shape.ofValues vs).structs = 0 ∧
        vs.flatMap (inside .items) = []
    | .array => widenedType? vs = none ∧ (Shape.ofValues vs).structs = 0 ∧
        vs.flatMap (inside .items) ≠ [] := by
  rw [← Shape.ofValues_scalar, ← List.length_eq_zero_iff, Ne, ← List.length_eq_zero_iff,
    ← Shape.ofValues_items]
  unfold classify Shape.categories
  cases hc : (Shape.ofValues vs).scalar with
  | some type =>
    rcases Nat.eq_zero_or_pos (Shape.ofValues vs).structs with hs | hs <;>
      rcases Nat.eq_zero_or_pos (Shape.ofValues vs).lists with hl | hl <;> simp [hc, hs, hl]
  | none =>
    rcases Nat.eq_zero_or_pos (Shape.ofValues vs).structs with hs | hs <;>
      rcases Nat.eq_zero_or_pos (Shape.ofValues vs).lists with hl | hl <;>
        by_cases hi : (Shape.ofValues vs).items = 0 <;> simp [hc, hs, hl, hi]

theorem not_struct {vs : List Value} (h : (Shape.ofValues vs).structs = 0)
    {es : List (Key × Value)} : Value.struct es ∉ vs := by
  intro hv
  rw [Shape.ofValues_structs, List.countP_eq_zero] at h
  exact h _ hv (by simp [Value.kind?])

theorem not_list {vs : List Value} (h : (Shape.ofValues vs).lists = 0) {v : Value}
    (hv : v ∈ vs) : v.items? = none := by
  rw [Shape.ofValues_lists, List.countP_eq_zero] at h
  have hk := h v hv
  cases v with
  | list ws | tuple ws => exact absurd (by simp [Value.kind?]) hk
  | _ => rfl

theorem not_leaf {vs : List Value} (h : widenedType? vs = none) {v : Value} (hv : v ∈ vs) :
    leafType? v = none := widenedType?_eq_none.mp h v hv

/-- Values of a class are null or of the form that the class names. -/
theorem forms_of_classify {vs : List Value} (hs : ∀ v ∈ vs, Supported v) {v : Value}
    (hv : v ∈ vs) : v = .null ∨
      match classify vs with
      | .nothing => False
      | .mixed => True
      | .scalar type => ∃ t, leafType? v = some t ∧ (t = type ∨ type = widest)
      | .record => ∃ es, v = .struct es
      | .emptyArray => v.items? = some []
      | .array => ∃ ws, v.items? = some ws := by
  have hspec := classify_spec vs
  rcases supported_cases (hs v hv) with rfl | ⟨es, rfl⟩ | ⟨ws, hw⟩ | ⟨t, ht⟩
  · exact .inl rfl
  · refine .inr ?_
    cases h : classify vs <;> rw [h] at hspec
    case mixed => trivial
    case record => exact ⟨es, rfl⟩
    all_goals exact absurd hv (not_struct hspec.2.1)
  · refine .inr ?_
    cases h : classify vs <;> rw [h] at hspec
    case mixed => trivial
    case array => exact ⟨ws, hw⟩
    case emptyArray =>
      have hnil := hspec.2.2
      rw [List.flatMap_eq_nil_iff] at hnil
      have := hnil v hv
      rw [inside, hw, Option.getD_some] at this
      rw [hw, this]
    all_goals
      rw [not_list hspec.2.2 hv] at hw
      cases hw
  · refine .inr ?_
    cases h : classify vs <;> rw [h] at hspec
    case mixed => trivial
    case scalar type => exact ⟨t, ht, leafType?_of_widenedType? hspec.1 hv ht⟩
    all_goals
      rw [not_leaf hspec.1 hv] at ht
      cases ht

/-! ## Room for values -/

/-- The values that an outline has room for; `nullable` tells whether null has been added to it.
A key that a struct lacks counts as null. -/
inductive Admits : Outline → Bool → Value → Prop
  | added {o : Outline} : Admits o true .null
  | nothing {nullable : Bool} : Admits .null nullable .null
  | text {nullable : Bool} {v : Value} (hn : v ≠ .null) (hs : Supported v) :
    Admits (.scalar widest) nullable v
  | scalar {nullable : Bool} {type : Json} {v : Value} (hw : type ≠ widest)
    (h : leafType? v = some type) : Admits (.scalar type) nullable v
  | list {nullable below : Bool} {items : Outline} {v : Value} {ws : List Value}
    (h : v.items? = some ws) (hall : ∀ w ∈ ws, Admits items below w) :
    Admits (.array below items) nullable v
  | struct {nullable : Bool} {site : RecordSite} {fields : List (FieldKey × Outline)}
    {es : List (Key × Value)} (hkeys : ∀ e ∈ es, ∃ f ∈ fields, e.1 = .text f.1.key)
    (hall : ∀ f ∈ fields, Admits f.2 f.1.nullable ((Value.member? f.1.key es).getD .null)) :
    Admits (.record site fields) nullable (.struct es)

theorem mem_textKeys {v : Value} {key : String} :
    key ∈ textKeys v ↔ Key.text key ∈ v.entries.map (·.1) := by
  unfold textKeys
  rw [List.mem_filterMap, List.mem_map]
  constructor
  · rintro ⟨⟨k, w⟩, he, hk⟩
    cases k <;> cases hk
    exact ⟨_, he, rfl⟩
  · rintro ⟨⟨k, w⟩, he, hk⟩
    cases hk
    exact ⟨_, he, rfl⟩

theorem mem_keysOf {vs : List Value} {key : String} :
    key ∈ keysOf vs ↔ ∃ v ∈ vs, key ∈ textKeys v := by
  rw [keysOf, mem_keys_tally, List.mem_flatMap]

theorem nodup_keysOf (vs : List Value) : (keysOf vs).Nodup := nodup_keys_tally _

theorem textKeys_cons (key : String) (w : Value) (es : List (Key × Value)) :
    textKeys (.struct ((.text key, w) :: es)) = key :: textKeys (.struct es) := rfl

theorem nodup_textKeys {v : Value} (h : (v.entries.map (·.1)).Nodup) : (textKeys v).Nodup := by
  have hes : textKeys v = textKeys (.struct v.entries) := rfl
  rw [hes]
  generalize v.entries = es at h
  induction es with
  | nil => exact List.nodup_nil
  | cons e es ih =>
    obtain ⟨k, w⟩ := e
    rw [List.map_cons, List.nodup_cons] at h
    cases k with
    | text key =>
      rw [textKeys_cons, List.nodup_cons]
      exact ⟨fun hm => h.1 (mem_textKeys.mp hm), ih h.2⟩
    | _ => exact ih h.2

theorem isStruct_of_textKeys {v : Value} {key : String} (h : key ∈ textKeys v) :
    v.kind? = some .struct := by
  cases v with
  | struct es => rfl
  | _ => cases h

theorem count_textKeys_le {vs : List Value} (hd : ∀ v ∈ vs, (v.entries.map (·.1)).Nodup)
    (key : String) :
    (vs.flatMap textKeys).count key ≤ vs.countP fun v => v.kind? = some .struct := by
  induction vs with
  | nil => exact Nat.le_refl _
  | cons v vs ih =>
    rw [List.flatMap_cons, List.count_append, List.countP_cons]
    have hrest := ih fun w hw => hd w (List.mem_cons_of_mem _ hw)
    by_cases hk : key ∈ textKeys v
    · have hone := (nodup_textKeys (hd v List.mem_cons_self)).count (a := key)
      rw [if_pos hk] at hone
      rw [hone, isStruct_of_textKeys hk]
      simp only [decide_true, if_true]
      omega
    · rw [List.count_eq_zero_of_not_mem hk]
      omega

/-- A key that a struct lacks may be missing. -/
theorem mayMiss_of_lacking {vs : List Value} (hd : ∀ v ∈ vs, (v.entries.map (·.1)).Nodup)
    {es : List (Key × Value)} (hv : Value.struct es ∈ vs) {key : String}
    (hk : key ∉ textKeys (.struct es)) : mayMiss vs key = true := by
  obtain ⟨l, r, rfl⟩ := List.append_of_mem hv
  have hl := count_textKeys_le (fun v hv => hd v (List.mem_append_left _ hv)) key
  have hr := count_textKeys_le
    (fun v hv => hd v (List.mem_append_right _ (List.mem_cons_of_mem _ hv))) key
  rw [mayMiss, Bool.or_eq_true, decide_eq_true_eq]
  left
  rw [List.flatMap_append, List.flatMap_cons, List.count_append, List.count_append,
    List.count_eq_zero_of_not_mem hk, List.countP_append, List.countP_cons,
    show (Value.struct es).kind? = some .struct from rfl]
  simp only [decide_true, if_true]
  omega

theorem countP_null_pos {vs : List Value} (h : Value.null ∈ vs) :
    decide (0 < vs.countP fun v => v.kind? = some .null) = true :=
  decide_eq_true (List.countP_pos_iff.mpr ⟨.null, h, rfl⟩)

theorem mem_inside_key {key : String} {w : Value} {es : List (Key × Value)}
    (h : Value.member? key es = some w) : w ∈ inside (.key key) (.struct es) := by
  rw [inside]
  refine List.mem_map.mpr ⟨(.text key, w), ?_, rfl⟩
  rw [List.mem_filter]
  exact ⟨Value.mem_of_member? h, by simp⟩

/-- The values an outline is made of, and what it takes for it to have room for all of them: they
are supported, and no struct holds a key twice. -/
def Plain (v : Value) : Prop := Supported v ∧ DistinctKeys v

theorem plain_inside {vs : List Value} (h : ∀ v ∈ vs, Plain v) (step : Step) :
    ∀ w ∈ vs.flatMap (inside step), Plain w := by
  intro w hw
  obtain ⟨v, hv, hw⟩ := List.mem_flatMap.mp hw
  have hc := mem_children_of_mem_inside hw
  exact ⟨(h v hv).1.child hc, (h v hv).2.child hc⟩

/-- An outline has room for every value it was made of. -/
theorem admits_of_outlined {outer : String} {p : Position} {path : List String} {vs : List Value}
    {o : Outline} (ho : Outlined outer p path vs o) :
    (∀ v ∈ vs, Plain v) → ∀ v ∈ vs, ∀ nullable, (v = .null → nullable = true) →
      Admits o nullable v := by
  induction ho with
  | null h =>
    intro hp v hv nullable _
    have hform := forms_of_classify (fun v hv => (hp v hv).1) hv
    rw [h] at hform
    rcases hform with rfl | hf
    · exact .nothing
    · exact absurd hf id
  | mixed h =>
    intro hp v hv nullable hn
    by_cases hnull : v = .null
    · rw [hnull, hn hnull]
      exact .added
    · exact .text hnull (hp v hv).1
  | @scalar p path vs type h =>
    intro hp v hv nullable hn
    have hform := forms_of_classify (fun v hv => (hp v hv).1) hv
    rw [h] at hform
    by_cases hnull : v = .null
    · rw [hnull, hn hnull]
      exact .added
    · obtain ⟨t, ht, hw⟩ := hform.resolve_left hnull
      by_cases hwide : type = widest
      · rw [hwide]
        exact .text hnull (hp v hv).1
      · rw [hw.resolve_right hwide] at ht
        exact .scalar hwide ht
  | emptyArray h =>
    intro hp v hv nullable hn
    have hform := forms_of_classify (fun v hv => (hp v hv).1) hv
    rw [h] at hform
    rcases hform with rfl | hf
    · rw [hn rfl]
      exact .added
    · exact .list hf fun w hw => absurd hw List.not_mem_nil
  | @array p path vs items h _ ih =>
    intro hp v hv nullable hn
    have hform := forms_of_classify (fun v hv => (hp v hv).1) hv
    rw [h] at hform
    rcases hform with rfl | ⟨ws, hws⟩
    · rw [hn rfl]
      exact .added
    · refine .list hws fun w hw => ?_
      have hmem : w ∈ vs.flatMap (inside .items) :=
        List.mem_flatMap.mpr ⟨v, hv, by rw [inside, hws]; exact hw⟩
      refine ih (plain_inside hp .items) w hmem _ fun e => ?_
      exact countP_null_pos (e ▸ hmem)
  | @record p path vs types h _ ih =>
    intro hp v hv nullable hn
    have hform := forms_of_classify (fun v hv => (hp v hv).1) hv
    rw [h] at hform
    rcases hform with rfl | ⟨es, rfl⟩
    · rw [hn rfl]
      exact .added
    refine .struct (fun e he => ?_) fun f hf => ?_
    · obtain ⟨key, hkey⟩ := (hp _ hv).1.key he
      refine ⟨_, List.mem_map_of_mem (mem_keysOf.mpr ⟨_, hv, mem_textKeys.mpr ?_⟩), hkey⟩
      exact List.mem_map.mpr ⟨e, he, hkey⟩
    · obtain ⟨key, hkey, rfl⟩ := List.mem_map.mp hf
      have hdistinct : ∀ v ∈ vs, (v.entries.map (·.1)).Nodup := fun v hv => (hp v hv).2.here
      simp only [fieldOf]
      cases hw : Value.member? key es with
      | none =>
        rw [mayMiss_of_lacking hdistinct hv]
        · exact .added
        · rw [mem_textKeys]
          exact Value.member?_eq_none.mp hw
      | some w =>
        have hmem : w ∈ vs.flatMap (inside (.key key)) :=
          List.mem_flatMap.mpr ⟨_, hv, mem_inside_key hw⟩
        refine ih key hkey (plain_inside hp (.key key)) w hmem _ fun e => ?_
        rw [mayMiss, countP_null_pos (e ▸ hmem), Bool.or_true]

end Inference
end AvroDocument
