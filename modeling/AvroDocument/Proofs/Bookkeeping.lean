import AvroDocument.Proofs.Shuffling
import Mathlib.Data.List.Induction

/-!
# AvroDocument.Proofs.Bookkeeping

What the counters of an arena say of each other, also when documents failed part of the way.

* `times`: how often a kind of sighting was made at a position.
* `Walked`: the sightings of a walk, which may have been cut short anywhere.
* `walked_ofValue`: every walk is one, by the constructors of the value.
* `Accumulator.Invariant`: what the counters of an accumulator say of each other.
* `Counts.add`, `Counts.addEach`, `Counts.invariant`: it holds after any documents, whether they were
  taken or not.
-/

namespace AvroDocument
namespace Inference

/-! ## Counting sightings -/

namespace Sighting

def isOccurrence : Sighting → Bool
  | occurrence => true
  | _ => false

/-- Whether a sighting is that of a value one step further. -/
def crosses : Step → Sighting → Bool
  | .key k, field key => k = key
  | .items, s => s.isItem
  | _, _ => false

theorem isOccurrence_occurrence : isOccurrence occurrence = true := rfl

theorem isNull_occurrence : isNull occurrence = false := rfl

theorem isStruct_occurrence : isStruct occurrence = false := rfl

theorem isList_occurrence : isList occurrence = false := rfl

theorem crosses_occurrence (s : Step) : crosses s occurrence = false := by cases s <;> rfl

/-- What is seen at a position before the step to one of its fields or items. -/
def step : Step → Sighting
  | .key k => field k
  | .items => item

section step

variable (s : Step)

theorem isOccurrence_step : isOccurrence (step s) = false := by cases s <;> rfl

theorem isNull_step : isNull (step s) = false := by cases s <;> rfl

theorem isStruct_step : isStruct (step s) = false := by cases s <;> rfl

theorem isList_step : isList (step s) = false := by cases s <;> rfl

theorem scalar?_step : scalar? (step s) = none := by cases s <;> rfl

theorem crosses_step (s' : Step) : crosses s' (step s) = true ↔ s' = s := by
  cases s <;> cases s' <;> simp [crosses, step, isItem]

end step

end Sighting

open Sighting (isOccurrence isNull isStruct isList crosses)

/-- How often a kind of sighting was made at a position. -/
def times (f : Sighting → Bool) (p : Position) (l : List (Position × Sighting)) : Nat :=
  (sightingsAt p l).countP f

section times

variable (f : Sighting → Bool) (p : Position)

theorem times_nil : times f p [] = 0 := rfl

theorem times_cons (s : Position × Sighting) (l : List (Position × Sighting)) :
    times f p (s :: l) = times f p l + if s.1 = p ∧ f s.2 then 1 else 0 := by
  obtain ⟨q, s⟩ := s
  by_cases h : q = p
  · subst h
    rw [times, sightingsAt_here, List.countP_cons, ← times]
    simp
  · rw [times, sightingsAt_other h, ← times, if_neg fun hs => h hs.1, Nat.add_zero]

theorem times_append (l l' : List (Position × Sighting)) :
    times f p (l ++ l') = times f p l + times f p l' := by
  rw [times, sightingsAt_append, List.countP_append, times, times]

end times

theorem append_step_inj {p q : Position} {step step' : Step} :
    q ++ [step] = p ++ [step'] ↔ q = p ∧ step = step' := by
  constructor
  · intro h
    obtain ⟨hp, hs⟩ := List.append_inj' h rfl
    exact ⟨hp, List.cons.inj hs |>.1⟩
  · rintro ⟨rfl, rfl⟩
    rfl

/-! ## Walks -/

/-- The sightings of a walk through the value at `p`: beside the one that the walk starts with, every
occurrence was counted one step before it. -/
structure Walked (p : Position) (l : List (Position × Sighting)) : Prop where
  steps : ∀ q step, times isOccurrence (q ++ [step]) l =
    times (crosses step) q l + if q ++ [step] = p then 1 else 0
  presence : ∀ q key, times (crosses (.key key)) q l ≤ times isStruct q l
  kinds : ∀ q, times isNull q l + times isStruct q l + times isList q l ≤ times isOccurrence q l
  seen : ∀ s ∈ l, 0 < times isOccurrence s.1 l
  scalars : ∀ s ∈ l, ∀ type, s.2.scalar? = some type → type ∈ scalarTypes

/-- The sightings of a walk through what is inside the value at `p`, of whose keys only `keys` may have
been counted. -/
structure WalkedInside (p : Position) (keys : List String) (l : List (Position × Sighting)) :
    Prop where
  steps : ∀ q step, times isOccurrence (q ++ [step]) l = times (crosses step) q l
  presence : ∀ q key, times (crosses (.key key)) q l ≤
    times isStruct q l + if q = p ∧ key ∈ keys then 1 else 0
  kinds : ∀ q, times isNull q l + times isStruct q l + times isList q l ≤ times isOccurrence q l
  seen : ∀ s ∈ l, s.1 = p ∨ 0 < times isOccurrence s.1 l
  scalars : ∀ s ∈ l, ∀ type, s.2.scalar? = some type → type ∈ scalarTypes

theorem walkedInside_nil (p : Position) (keys : List String) : WalkedInside p keys [] where
  steps _ _ := rfl
  presence _ _ := Nat.zero_le _
  kinds _ := Nat.le_refl _
  seen _ h := absurd h List.not_mem_nil
  scalars _ h := absurd h List.not_mem_nil

/-- A step and the walk behind it, in front of the rest of a walk. -/
theorem WalkedInside.cons {p : Position} {keys keys' : List String} {step : Step}
    {child rest : List (Position × Sighting)} (hc : Walked (p ++ [step]) child)
    (hr : WalkedInside p keys rest)
    (hkeys : ∀ key, (if key ∈ keys then 1 else 0) + (if .key key = step then 1 else 0) ≤
      if key ∈ keys' then 1 else 0) :
    WalkedInside p keys' ((p, Sighting.step step) :: (child ++ rest)) where
  steps q step' := by
    have h := hc.steps q step'
    have h' := hr.steps q step'
    simp only [append_step_inj] at h
    simp only [times_cons, times_append, Sighting.isOccurrence_step, Sighting.crosses_step,
      @eq_comm _ p q, Bool.false_eq_true, and_false, if_false]
    omega
  presence q key := by
    have h := hc.presence q key
    have h' := hr.presence q key
    have hk := hkeys key
    simp only [times_cons, times_append, Sighting.isStruct_step, Sighting.crosses_step,
      @eq_comm _ p q, Bool.false_eq_true, and_false, if_false]
    by_cases hq : q = p
    · simp only [hq, true_and] at h h' ⊢
      omega
    · simp only [hq, false_and, if_false] at h h' ⊢
      omega
  kinds q := by
    have h := hc.kinds q
    have h' := hr.kinds q
    simp only [times_cons, times_append, Sighting.isOccurrence_step, Sighting.isNull_step,
      Sighting.isStruct_step, Sighting.isList_step, Bool.false_eq_true, and_false, if_false]
    omega
  seen s hs := by
    simp only [times_cons, times_append]
    obtain rfl | hs := List.mem_cons.mp hs
    · exact .inl rfl
    obtain hs | hs := List.mem_append.mp hs
    · have := hc.seen s hs
      exact .inr (by omega)
    · exact (hr.seen s hs).imp_right fun h => by omega
  scalars s hs type htype := by
    obtain rfl | hs := List.mem_cons.mp hs
    · rw [Sighting.scalar?_step] at htype
      cases htype
    obtain hs | hs := List.mem_append.mp hs
    · exact hc.scalars s hs type htype
    · exact hr.scalars s hs type htype

/-- What is seen of a value of a kind, and the walk through what is inside it. -/
theorem WalkedInside.walked {p : Position} {keys : List String} {kind : Sighting}
    {more : List (Position × Sighting)} (h : WalkedInside p keys more)
    (hstruct : isStruct kind = true ∨ keys = []) (hoccurrence : isOccurrence kind = false)
    (hcrosses : ∀ step, crosses step kind = false)
    (hscalar : ∀ type, kind.scalar? = some type → type ∈ scalarTypes) :
    Walked p ((p, .occurrence) :: (p, kind) :: more) where
  steps q step := by
    have h' := h.steps q step
    simp only [times_cons, hcrosses, hoccurrence, Sighting.isOccurrence_occurrence,
      Sighting.crosses_occurrence, @eq_comm _ p, Bool.false_eq_true, and_false, if_false, and_true]
    omega
  presence q key := by
    have h' := h.presence q key
    simp only [times_cons, hcrosses, Sighting.isStruct_occurrence, Sighting.crosses_occurrence,
      @eq_comm _ p, Bool.false_eq_true, and_false, if_false]
    obtain hstruct | rfl := hstruct
    · by_cases hq : q = p
      · simp only [hq, true_and, hstruct, if_true] at h' ⊢
        split at h' <;> omega
      · simp only [hq, false_and, if_false] at h' ⊢
        omega
    · simp only [List.not_mem_nil, and_false, if_false] at h'
      omega
  kinds q := by
    have h' := h.kinds q
    have hone : (if q = p ∧ isNull kind then 1 else 0) + (if q = p ∧ isStruct kind then 1 else 0) +
        (if q = p ∧ isList kind then 1 else 0) ≤ if q = p then 1 else 0 := by
      by_cases hq : q = p <;> cases kind <;> simp [hq, isNull, isStruct, isList]
    simp only [times_cons, hoccurrence, Sighting.isOccurrence_occurrence,
      Sighting.isNull_occurrence, Sighting.isStruct_occurrence, Sighting.isList_occurrence,
      @eq_comm _ p, Bool.false_eq_true, and_false, if_false, and_true]
    omega
  seen s hs := by
    simp only [times_cons]
    rw [List.mem_cons, List.mem_cons] at hs
    have hp : s.1 = p ∨ 0 < times isOccurrence s.1 more := by
      obtain rfl | rfl | hs := hs
      · exact .inl rfl
      · exact .inl rfl
      · exact h.seen s hs
    obtain hp | hp := hp
    · rw [if_pos (show p = s.1 ∧ isOccurrence .occurrence = true from ⟨hp.symm, rfl⟩)]
      omega
    · omega
  scalars s hs type htype := by
    rw [List.mem_cons, List.mem_cons] at hs
    obtain rfl | rfl | hs := hs
    · cases htype
    · exact hscalar type htype
    · exact h.scalars s hs type htype

/-- A value that cannot be classified is counted, and nothing else. -/
theorem walked_occurrence (p : Position) : Walked p [(p, .occurrence)] where
  steps q step := by
    simp [times_cons, times_nil, isOccurrence, Sighting.crosses_occurrence, @eq_comm _ p]
  presence q key := by simp [times_cons, times_nil, crosses]
  kinds q := by simp [times_cons, times_nil, isNull, isStruct, isList]
  seen s hs := by
    cases List.mem_singleton.mp hs
    simp [times_cons, isOccurrence]
  scalars s hs type htype := by
    cases List.mem_singleton.mp hs
    cases htype

/-! ## The walks -/

theorem Trace.sightings_cut (a b : Trace) :
    ∃ more, (more = [] ∨ more = b.sightings) ∧ (a.andThen b).sightings = a.sightings ++ more := by
  unfold andThen
  split
  · exact ⟨[], .inl rfl, (List.append_nil _).symm⟩
  · exact ⟨b.sightings, .inr rfl, rfl⟩

/-- What is behind a cut is a walk like the whole. -/
theorem WalkedInside.cut {p : Position} {keys : List String} {more l : List (Position × Sighting)}
    (h : WalkedInside p keys l) (hmore : more = [] ∨ more = l) : WalkedInside p keys more := by
  obtain rfl | rfl := hmore
  · exact walkedInside_nil p keys
  · exact h

theorem walked_ofItems {vs : List Value}
    (hv : ∀ v ∈ vs, ∀ p path, Walked p (Trace.ofValue p path v).sightings) (p : Position)
    (path : String) (index : Nat) :
    WalkedInside p [] (Trace.ofItems p path index vs).sightings := by
  induction vs generalizing index with
  | nil => exact walkedInside_nil p []
  | cons v vs ih =>
    have hrest := ih (fun w hw => hv w (List.mem_cons_of_mem _ hw)) (index + 1)
    obtain ⟨more, hmore, hcut⟩ := Trace.sightings_cut
      (Trace.ofValue (p ++ [.items]) (Pointer.item path index) v)
      (Trace.ofItems p path (index + 1) vs)
    rw [Trace.ofItems, Trace.sightings_andThen rfl, hcut]
    show WalkedInside p [] ((p, Sighting.step .items) :: (_ ++ more))
    exact (hrest.cut hmore).cons (hv v List.mem_cons_self _ _) fun key => by simp

theorem walked_ofEntries {es : List (Key × Value)} (hk : (es.map (·.1)).Nodup)
    (hv : ∀ e ∈ es, ∀ p path, Walked p (Trace.ofValue p path e.2).sightings) (p : Position)
    (path : String) :
    WalkedInside p (textKeys (.struct es)) (Trace.ofEntries p path es).sightings := by
  induction es with
  | nil => exact walkedInside_nil p _
  | cons e es ih =>
    obtain ⟨k, v⟩ := e
    rw [List.map_cons, List.nodup_cons] at hk
    cases k with
    | text key =>
      have hrest := ih hk.2 fun e he => hv e (List.mem_cons_of_mem _ he)
      obtain ⟨more, hmore, hcut⟩ := Trace.sightings_cut
        (Trace.ofValue (p ++ [.key key]) (Pointer.child path key) v) (Trace.ofEntries p path es)
      rw [Trace.ofEntries, Trace.sightings_andThen rfl, hcut]
      show WalkedInside p _ ((p, Sighting.step (.key key)) :: (_ ++ more))
      refine (hrest.cut hmore).cons (hv (.text key, v) List.mem_cons_self _ _) fun key' => ?_
      -- A struct has the key once, so it is not among the keys behind this entry.
      have hkeys : key' ∈ textKeys (.struct ((.text key, v) :: es)) ↔
          key' = key ∨ key' ∈ textKeys (.struct es) := List.mem_cons
      have hnew : key ∉ textKeys (.struct es) := fun h => hk.1 (mem_textKeys.mp h)
      by_cases hsame : key' = key
      · subst hsame
        simp [hnew, hkeys]
      · simp [hsame, hkeys]
    | _ => exact walkedInside_nil p _

theorem type?_leaf {v : Value} {type : Json} (hl : isLeaf v = true)
    (h : scalarType? v = some type) : type ∈ scalarTypes :=
  leafType?_mem (show leafType? v = some type by rw [leafType?, if_pos hl, h])

/-- The sightings of a walk, up to where it ends, keep the books. -/
theorem walked_ofValue (v : Value) :
    DistinctKeys v → ∀ p path, Walked p (Trace.ofValue p path v).sightings := by
  induction v using Value.childInduction with
  | step v ih =>
    intro hd p path
    cases v with
    | null =>
      exact (walkedInside_nil p []).walked (.inr rfl) rfl (fun step => by cases step <;> rfl)
        fun _ h => by cases h
    | struct es =>
      have hv : ∀ e ∈ es, ∀ p path, Walked p (Trace.ofValue p path e.2).sightings :=
        fun e he => ih e.2 (List.mem_map.mpr ⟨e, he, rfl⟩) (hd.entry he)
      rw [Trace.ofValue, Trace.sightings_andThen rfl]
      exact (walked_ofEntries hd.here hv p path).walked (.inl rfl) rfl
        (fun step => by cases step <;> rfl) fun _ h => by cases h
    | list vs | tuple vs =>
      have hv : ∀ v ∈ vs, ∀ p path, Walked p (Trace.ofValue p path v).sightings :=
        fun v hv => ih v hv (hd.child hv)
      rw [Trace.ofValue, Trace.sightings_andThen rfl]
      exact (walked_ofItems hv p path 0).walked (.inr rfl) rfl
        (fun step => by cases step <;> rfl) fun _ h => by cases h
    | _ =>
      rw [ofValue_leaf rfl]
      split
      · rename_i type htype
        refine (walkedInside_nil p []).walked (.inr rfl) rfl (fun step => by cases step <;> rfl) ?_
        rintro _ ⟨⟩
        exact type?_leaf rfl htype
      · exact walked_occurrence p

/-! ## Arenas -/

/-- Walks from the root, one after the other. -/
theorem Walked.append {l l' : List (Position × Sighting)} (h : Walked [] l) (h' : Walked [] l') :
    Walked [] (l ++ l') where
  steps q step := by
    have hs := h.steps q step
    have hs' := h'.steps q step
    rw [if_neg (List.append_ne_nil_of_right_ne_nil q (List.cons_ne_nil step []))] at hs hs' ⊢
    rw [times_append, times_append]
    omega
  presence q key := by
    have hp := h.presence q key
    have hp' := h'.presence q key
    rw [times_append, times_append]
    omega
  kinds q := by
    have hk := h.kinds q
    have hk' := h'.kinds q
    simp only [times_append]
    omega
  seen s hs := by
    rw [times_append]
    obtain hs | hs := List.mem_append.mp hs
    · have := h.seen s hs
      omega
    · have := h'.seen s hs
      omega
  scalars s hs := (List.mem_append.mp hs).elim (h.scalars s) (h'.scalars s)

theorem walked_nil : Walked [] [] where
  steps q step := by simp [times_nil]
  presence _ _ := Nat.zero_le _
  kinds _ := Nat.le_refl _
  seen _ h := absurd h List.not_mem_nil
  scalars _ h := absurd h List.not_mem_nil

theorem occurrences_foldl_see (s : Shape) (l : List Sighting) :
    (l.foldl Shape.see s).occurrences = s.occurrences + l.countP isOccurrence := by
  induction l generalizing s with
  | nil => rfl
  | cons x l ih =>
    rw [List.foldl_cons, ih, List.countP_cons]
    cases x with
    | occurrence =>
      rw [Sighting.isOccurrence_occurrence, if_pos rfl, Nat.add_comm _ 1, ← Nat.add_assoc]
      rfl
    | scalar type =>
      rw [see_scalar]
      rfl
    | _ => rfl

theorem get?_recordAll_iff {arena : Arena} {l : List (Position × Sighting)} {q : Position} :
    ((arena.recordAll l).get? q).isSome ↔ (arena.get? q).isSome ∨ sightingsAt q l ≠ [] := by
  refine ⟨fun h => ?_, get?_recordAll_isSome⟩
  induction l generalizing arena with
  | nil => exact .inl h
  | cons e l ih =>
    obtain ⟨p, s⟩ := e
    by_cases hp : p = q
    · subst hp
      rw [sightingsAt_here]
      exact .inr (List.cons_ne_nil _ _)
    · rw [sightingsAt_other hp]
      have hrecord : ((arena.record p s).get? q).isSome ∨ sightingsAt q l ≠ [] := ih h
      rwa [get?_record, if_neg hp] at hrecord

/-- An arena holds the positions that were sighted, each with the shape of its sightings. -/
theorem get?_recordAll (l : List (Position × Sighting)) (q : Position) :
    (Arena.recordAll [] l).get? q =
      if sightingsAt q l = [] then none else some ((sightingsAt q l).foldl Shape.see {}) := by
  have hsome : ((Arena.recordAll [] l).get? q).isSome ↔
      (Arena.get? q []).isSome ∨ sightingsAt q l ≠ [] := get?_recordAll_iff
  have hshape := shape_recordAll [] l q
  cases hget : (Arena.recordAll [] l).get? q with
  | none =>
    rw [hget] at hsome
    rw [if_pos]
    simpa [Arena.get?] using hsome
  | some shape =>
    rw [hget] at hsome hshape
    rw [if_neg (by simpa [Arena.get?] using hsome)]
    exact congrArg some hshape

/-- The parts of a shape in an arena, as counts of sightings. -/
theorem shape_parts {l : List (Position × Sighting)} {p : Position} {shape : Shape}
    (h : (Arena.recordAll [] l).get? p = some shape) :
    shape.occurrences = times isOccurrence p l ∧ shape.nulls = times isNull p l ∧
      shape.structs = times isStruct p l ∧ shape.lists = times isList p l ∧
      shape.items = times (crosses .items) p l ∧
      shape.scalar = ((sightingsAt p l).map Sighting.scalar?).foldl widenBy none ∧
      shape.fields = tally ((sightingsAt p l).filterMap Sighting.key?) := by
  rw [get?_recordAll] at h
  split at h
  · cases h
  · cases h
    have hoccurrences := occurrences_foldl_see {} (sightingsAt p l)
    obtain ⟨hnulls, hstructs, hlists, hitems, hscalar, hfields⟩ := foldl_see {} (sightingsAt p l)
    simp only [Nat.zero_add] at hoccurrences hnulls hstructs hlists hitems
    exact ⟨hoccurrences, hnulls, hstructs, hlists, hitems, hscalar, hfields⟩

theorem count_key? (l : List Sighting) (key : String) :
    (l.filterMap Sighting.key?).count key = l.countP (crosses (.key key)) := by
  induction l with
  | nil => rfl
  | cons s l ih =>
    rw [List.filterMap_cons, List.countP_cons, ← ih]
    cases s with
    | field k => simp [Sighting.key?, crosses, List.count_cons, @eq_comm _ key]
    | _ => rfl

theorem lookup?_tally_eq (ks : List String) (key : String) :
    lookup? key (tally ks) = if ks.count key = 0 then none else some (ks.count key) := by
  have hcount := lookup?_tally ks key
  cases hl : lookup? key (tally ks) with
  | none =>
    rw [hl, Option.getD_none] at hcount
    rw [if_pos hcount.symm]
  | some n =>
    rw [hl] at hcount
    have hmem : key ∈ ks := mem_keys_tally.mp (lookup?_isSome.mp (by rw [hl]; rfl))
    rw [if_neg (Nat.pos_iff_ne_zero.mp (List.count_pos_iff.mpr hmem)), ← hcount]
    rfl

theorem foldl_widenBy_mem {types : List (Option Json)}
    (h : ∀ type, some type ∈ types → type ∈ scalarTypes) {type : Json}
    (hf : types.foldl widenBy none = some type) : type ∈ scalarTypes := by
  induction types with
  | nil => cases hf
  | cons x types ih =>
    cases x with
    | none => exact ih (fun t ht => h t (List.mem_cons_of_mem _ ht)) hf
    | some a =>
      obtain ⟨type', htype', hs, -⟩ := foldl_widenBy_some types a
      obtain rfl : type' = type := Option.some.inj (htype'.symm.trans hf)
      obtain rfl | rfl := hs
      · exact h _ List.mem_cons_self
      · simp [scalarTypes]

/-! ## The invariant -/

/-- What the counters of an accumulator say of each other. -/
structure Accumulator.Invariant (a : Accumulator) : Prop where
  prefixClosed : ∀ p q, p <+: q → (a.arena.get? q).isSome → (a.arena.get? p).isSome
  fields : ∀ p shape, a.arena.get? p = some shape → ∀ key,
    lookup? key shape.fields = (a.arena.get? (p ++ [.key key])).map (·.occurrences)
  items : ∀ p shape, a.arena.get? p = some shape →
    (if shape.items = 0 then none else some shape.items) =
      (a.arena.get? (p ++ [.items])).map (·.occurrences)
  presence : ∀ p shape, a.arena.get? p = some shape → ∀ key n,
    lookup? key shape.fields = some n → n ≤ shape.structs
  kinds : ∀ p shape, a.arena.get? p = some shape →
    shape.nulls + shape.structs + shape.lists ≤ shape.occurrences
  documents : a.documents ≤ ((a.arena.get? []).getD {}).structs
  /-- No key is counted twice. -/
  keys : ∀ p shape, a.arena.get? p = some shape → (shape.fields.map (·.1)).Nodup
  scalars : ∀ p shape, a.arena.get? p = some shape → ∀ type,
    shape.scalar = some type → type ∈ scalarTypes

section invariant

variable {l : List (Position × Sighting)} (h : Walked [] l)

include h

theorem Walked.sightingsAt_eq_nil {q : Position} :
    sightingsAt q l = [] ↔ times isOccurrence q l = 0 := by
  constructor
  · intro hnil
    rw [times, hnil]
    rfl
  · intro hzero
    refine sightingsAt_none fun s hs hq => ?_
    have := h.seen s hs
    rw [hq] at this
    omega

theorem Walked.occurrences (q : Position) :
    ((Arena.recordAll [] l).get? q).map (·.occurrences) =
      if times isOccurrence q l = 0 then none else some (times isOccurrence q l) := by
  by_cases hzero : times isOccurrence q l = 0
  · rw [get?_recordAll, if_pos (h.sightingsAt_eq_nil.mpr hzero), if_pos hzero]
    rfl
  · obtain ⟨shape, hshape⟩ : ∃ shape, (Arena.recordAll [] l).get? q = some shape :=
      ⟨_, (get?_recordAll l q).trans (if_neg (mt h.sightingsAt_eq_nil.mp hzero))⟩
    rw [if_neg hzero, hshape, Option.map_some, (shape_parts hshape).1]

/-- Behind a step there are as many occurrences as the step was taken. -/
theorem Walked.occurrences_step (p : Position) (step : Step) :
    ((Arena.recordAll [] l).get? (p ++ [step])).map (·.occurrences) =
      if times (crosses step) p l = 0 then none else some (times (crosses step) p l) := by
  have hstep := h.steps p step
  rw [if_neg (List.append_ne_nil_of_right_ne_nil p (List.cons_ne_nil step []))] at hstep
  rw [h.occurrences, hstep]
  rfl

theorem Walked.prefixClosed (p : Position) {q : Position}
    (hq : ((Arena.recordAll [] l).get? q).isSome) (hp : p <+: q) :
    ((Arena.recordAll [] l).get? p).isSome := by
  obtain ⟨r, rfl⟩ := hp
  induction r using List.reverseRecOn with
  | nil => rwa [List.append_nil] at hq
  | append_singleton r step ih =>
    refine ih ?_
    rw [← List.append_assoc] at hq
    -- The step was counted at the position in front of it.
    have hstep := h.occurrences_step (p ++ r) step
    obtain ⟨shape, hshape⟩ := Option.isSome_iff_exists.mp hq
    rw [hshape] at hstep
    rw [get?_recordAll, if_neg]
    · rfl
    · intro hnil
      rw [times, hnil] at hstep
      cases hstep

theorem Walked.invariant {n : Nat} (hn : n ≤ times isStruct [] l) :
    Accumulator.Invariant ⟨Arena.recordAll [] l, n⟩ := by
  have hfields : ∀ p shape, (Arena.recordAll [] l).get? p = some shape → ∀ key,
      lookup? key shape.fields =
        if times (crosses (.key key)) p l = 0 then none
        else some (times (crosses (.key key)) p l) := by
    intro p shape hget key
    obtain ⟨-, -, -, -, -, -, hfields⟩ := shape_parts hget
    rw [hfields, lookup?_tally_eq, count_key?]
    rfl
  constructor
  · exact fun p q hp hq => h.prefixClosed p hq hp
  · intro p shape hget key
    rw [hfields p shape hget, h.occurrences_step]
  · intro p shape hget
    obtain ⟨-, -, -, -, hitems, -⟩ := shape_parts hget
    rw [h.occurrences_step, hitems]
  · intro p shape hget key m hm
    obtain ⟨-, -, hstructs, -⟩ := shape_parts hget
    rw [hfields p shape hget] at hm
    split at hm
    · cases hm
    · cases hm
      rw [hstructs]
      exact h.presence p key
  · intro p shape hget
    obtain ⟨hoccurrences, hnulls, hstructs, hlists, -⟩ := shape_parts hget
    rw [hoccurrences, hnulls, hstructs, hlists]
    exact h.kinds p
  · obtain ⟨-, hstructs, -⟩ := foldl_see {} (sightingsAt [] l)
    rw [shape_recordAll]
    simp only [Arena.get?, Option.getD_none, hstructs, Nat.zero_add]
    exact hn
  · intro p shape hget
    obtain ⟨-, -, -, -, -, -, hfields⟩ := shape_parts hget
    rw [hfields]
    exact nodup_keys_tally _
  · intro p shape hget type htype
    obtain ⟨-, -, -, -, -, hscalar, -⟩ := shape_parts hget
    rw [hscalar] at htype
    refine foldl_widenBy_mem (fun t ht => ?_) htype
    obtain ⟨s, hs, hst⟩ := List.mem_map.mp ht
    obtain ⟨e, he, rfl⟩ := List.mem_map.mp hs
    exact h.scalars e (List.mem_filter.mp he).1 t hst

end invariant

/-! ## Runs -/

namespace Accumulator

/-- Counts documents one after the other, whatever becomes of each; the outcomes come along. -/
def addEach (a : Accumulator) : List Value → Accumulator × List (Option Failure)
  | [] => (a, [])
  | document :: documents =>
    let (a, outcome) := a.add document
    let (a, outcomes) := a.addEach documents
    (a, outcome :: outcomes)

/-- An accumulator that has counted walks from the root, one or more for each document. -/
def Counts (a : Accumulator) : Prop :=
  ∃ l, Walked [] l ∧ a.arena = Arena.recordAll [] l ∧ a.documents ≤ times isStruct [] l

theorem counts_empty : Counts {} := ⟨[], walked_nil, rfl, Nat.le_refl _⟩

theorem Counts.invariant {a : Accumulator} (h : a.Counts) : a.Invariant := by
  obtain ⟨l, hl, harena, hdocuments⟩ := h
  obtain ⟨arena, documents⟩ := a
  simp only at harena hdocuments
  subst harena
  exact hl.invariant hdocuments

/-- The walk through a struct counts it. -/
theorem times_struct_pos {d : Value} (h : d.kind? = some .struct) (path : String) :
    0 < times isStruct [] (Trace.ofValue [] path d).sightings := by
  cases d with
  | struct es =>
    rw [Trace.ofValue, Trace.sightings_andThen rfl]
    simp only [List.cons_append, times_cons, isStruct, and_self, if_true]
    omega
  | int n => exact absurd h (by rw [Value.kind?]; split <;> simp)
  | _ => cases h

/-- Whatever becomes of a document, the walk through it is counted as far as it went. -/
theorem Counts.add {a : Accumulator} (h : a.Counts) {d : Value} (hd : DistinctKeys d) :
    (a.add d).1.Counts := by
  obtain ⟨l, hl, harena, hdocuments⟩ := h
  have hwalk := walked_ofValue d hd [] Pointer.root
  have hmore : a.arena.recordAll (Trace.ofValue [] Pointer.root d).sightings =
      Arena.recordAll [] (l ++ (Trace.ofValue [] Pointer.root d).sightings) := by
    rw [harena, Arena.recordAll, Arena.recordAll, Arena.recordAll, List.foldl_append]
  unfold Accumulator.add
  cases hkind : d.kind? with
  | none => exact ⟨l, hl, harena, hdocuments⟩
  | some kind =>
    cases kind with
    | struct =>
      have hpos := times_struct_pos hkind Pointer.root
      simp only
      split
      · refine ⟨_, hl.append hwalk, hmore, ?_⟩
        rw [times_append]
        exact Nat.le_add_right_of_le hdocuments
      · refine ⟨_, hl.append hwalk, hmore, ?_⟩
        rw [times_append]
        exact Nat.add_le_add hdocuments hpos
    | _ => exact ⟨l, hl, harena, hdocuments⟩

theorem Counts.addEach {a : Accumulator} (h : a.Counts) {docs : List Value}
    (hd : ∀ d ∈ docs, DistinctKeys d) : (a.addEach docs).1.Counts := by
  induction docs generalizing a with
  | nil => exact h
  | cons d docs ih =>
    exact ih (h.add (hd d List.mem_cons_self)) fun d h => hd d (List.mem_cons_of_mem _ h)

theorem documents_add (a : Accumulator) (d : Value) :
    (a.add d).1.documents = a.documents + if (a.add d).2.isNone then 1 else 0 := by
  unfold Accumulator.add
  split
  · rfl
  · cases hobstacle : (Trace.ofValue [] Pointer.root d).obstacle <;> simp [hobstacle]
  · rfl

/-- An accumulator counts the documents that it took. -/
theorem documents_addEach (a : Accumulator) (docs : List Value) :
    (a.addEach docs).1.documents = a.documents + (a.addEach docs).2.countP (·.isNone) := by
  induction docs generalizing a with
  | nil => rfl
  | cons d docs ih =>
    rw [Accumulator.addEach]
    simp only [ih, documents_add, List.countP_cons]
    omega

end Accumulator

end Inference
end AvroDocument
