import AvroDocument.Proofs.Acceptance
import AvroDocument.Proofs.Bookkeeping
import Mathlib

/-!
# AvroDocument.Proofs.Completion

The schema of an accumulator can always be made, also when documents failed part of the way.

* `Outline.ofArena?`: the outline when every lookup has to find something.
* `ofArena?_eq`: every lookup does, by the invariant of the counters.
* `schema_addEach`: after any documents there is a schema in order as soon as one was taken.
-/

namespace AvroDocument
namespace Inference

/-! ## Lookups -/

theorem mapM_some_map {α β : Type} {f : α → Option β} {g : α → β} {l : List α}
    (h : ∀ a ∈ l, f a = some (g a)) : l.mapM f = some (l.map g) := by
  induction l with
  | nil => rfl
  | cons a l ih =>
    rw [List.mapM_cons, h a List.mem_cons_self, ih fun b hb => h b (List.mem_cons_of_mem _ hb)]
    rfl

/-- The outline at a position, like `Outline.ofArena`, when every lookup has to find something: shapes,
names of keys, and the last name of a path. -/
def Outline.ofArena? (arena : Arena) (outer : String) :
    Nat → Position → List String → Option Outline
  | 0, _, _ => none
  | fuel + 1, position, path => do
    let shape ← arena.get? position
    if shape.categories = 0 then return .null
    else if 1 < shape.categories then return .scalar widest
    else
      match shape.scalar with
      | some type => return .scalar type
      | none =>
        if 0 < shape.structs then
          let names := fieldNames (shape.fields.map (·.1))
          let last ← path.getLast?
          let fields ← shape.fields.mapM fun (key, presence) => do
            let name ← lookup? key names
            let below ← arena.get? (position ++ [.key key])
            let outline ← ofArena? arena outer fuel (position ++ [.key key]) (path ++ [name])
            return (FieldKey.mk key name
              (decide (presence < shape.structs) || decide (0 < below.nulls)), outline)
          return .record ⟨position, siteNamespace outer path, last⟩ fields
        else if shape.items = 0 then return .array false (.scalar widest)
        else
          let last ← path.getLast?
          let below ← arena.get? (position ++ [.items])
          let items ← ofArena? arena outer fuel (position ++ [.items])
            (path.dropLast ++ [last ++ "_items"])
          return .array (decide (0 < below.nulls)) items

variable {a : Accumulator}

theorem Accumulator.Invariant.field (h : a.Invariant) {p : Position} {shape : Shape}
    (hp : a.arena.get? p = some shape) {e : String × Nat} (he : e ∈ shape.fields) :
    ∃ below, a.arena.get? (p ++ [.key e.1]) = some below := by
  have hlookup := h.fields p shape hp e.1
  rw [lookup?_of_mem (h.keys p shape hp) he] at hlookup
  obtain ⟨below, hbelow, -⟩ := Option.map_eq_some_iff.mp hlookup.symm
  exact ⟨below, hbelow⟩

theorem Accumulator.Invariant.item (h : a.Invariant) {p : Position} {shape : Shape}
    (hp : a.arena.get? p = some shape) (hitems : shape.items ≠ 0) :
    ∃ below, a.arena.get? (p ++ [.items]) = some below := by
  have hcount := h.items p shape hp
  rw [if_neg hitems] at hcount
  obtain ⟨below, hbelow, -⟩ := Option.map_eq_some_iff.mp hcount.symm
  exact ⟨below, hbelow⟩

theorem lookup_fieldNames {keys : List String} {key : String} (h : key ∈ keys) :
    lookup? key (fieldNames keys) = some (nameOfKey keys key) := by
  have hk : key ∈ (fieldNames keys).map (·.1) := (keys_fieldNames_perm keys).mem_iff.mpr h
  obtain ⟨name, hname⟩ := Option.isSome_iff_exists.mp (lookup?_isSome.mpr hk)
  rw [nameOfKey, hname]
  rfl

/-- Every lookup on the way to an outline finds something. -/
theorem ofArena?_eq (h : a.Invariant) (outer : String) (fuel : Nat) (p : Position)
    (path : List String) (hp : (a.arena.get? p).isSome) (hf : a.arena.depth < fuel + p.length)
    (hpath : path ≠ []) :
    Outline.ofArena? a.arena outer fuel p path = some (Outline.ofArena a.arena outer fuel p path) := by
  induction fuel generalizing p path with
  | zero =>
    have := length_le_depth hp
    omega
  | succ fuel ih =>
    obtain ⟨shape, hshape⟩ := Option.isSome_iff_exists.mp hp
    obtain ⟨last, hlast⟩ : ∃ last, path.getLast? = some last :=
      ⟨_, List.getLast?_eq_getLast_of_ne_nil hpath⟩
    have hbelow : ∀ step, a.arena.depth < fuel + (p ++ [step]).length := by
      intro step
      rw [List.length_append, List.length_singleton]
      omega
    rw [Outline.ofArena?, Outline.ofArena, hshape]
    simp only [Option.bind_eq_bind, Option.bind_some, Option.getD_some, Option.pure_def]
    by_cases h0 : shape.categories = 0
    · rw [if_pos h0, if_pos h0]
    rw [if_neg h0, if_neg h0]
    by_cases h1 : 1 < shape.categories
    · rw [if_pos h1, if_pos h1]
    rw [if_neg h1, if_neg h1]
    cases shape.scalar with
    | some type => rfl
    | none =>
      simp only
      by_cases hs : 0 < shape.structs
      · rw [if_pos hs, if_pos hs, hlast]
        simp only [Option.bind_some, Option.getD_some]
        rw [mapM_some_map]
        · rfl
        · rintro ⟨key, presence⟩ he
          obtain ⟨below, hget⟩ := h.field hshape he
          have hkey : key ∈ shape.fields.map (·.1) := List.mem_map.mpr ⟨_, he, rfl⟩
          simp only at hget
          have hchild := ih (p ++ [.key key])
            (path ++ [nameOfKey (shape.fields.map (·.1)) key]) (by rw [hget]; rfl)
            (hbelow _) (List.append_ne_nil_of_right_ne_nil _ (List.cons_ne_nil _ _))
          simp only [lookup_fieldNames hkey, hget, hchild, Option.bind_some, Option.getD_some]
      · rw [if_neg hs, if_neg hs]
        by_cases hi : shape.items = 0
        · rw [if_pos hi, if_pos hi]
        · rw [if_neg hi, if_neg hi, hlast]
          obtain ⟨below, hget⟩ := h.item hshape hi
          have hrest := ih (p ++ [.items]) (Outline.itemPath path)
            (by rw [hget]; rfl) (hbelow _) (List.append_ne_nil_of_right_ne_nil _ (List.cons_ne_nil _ _))
          simp only [Option.bind_some, hget, Option.getD_some]
          have hlast' : path.dropLast ++ [last ++ "_items"] = Outline.itemPath path := by
            rw [Outline.itemPath, hlast]
            rfl
          rw [hlast', hrest]
          rfl

/-! ## Schemas -/

theorem nodup_map_nameOfKey {keys : List String} (h : keys.Nodup) :
    (keys.map (nameOfKey keys)).Nodup :=
  h.map_on fun _ hk _ hk' => nameOfKey_inj h hk hk'

/-- The outline of an arena whose counters agree is in order. -/
theorem valid_ofArena (h : a.Invariant) (outer : String) (fuel : Nat) (p : Position)
    (path : List String) : (Outline.ofArena a.arena outer fuel p path).Valid := by
  induction fuel generalizing p path with
  | zero => exact .null
  | succ fuel ih =>
    rw [Outline.ofArena]
    cases hshape : a.arena.get? p with
    | none => exact .null
    | some shape =>
      simp only [Option.getD_some]
      split
      · exact .null
      split
      · exact .scalar widest_mem
      cases hscalar : shape.scalar with
      | some type => exact .scalar (h.scalars p shape hshape type hscalar)
      | none =>
        simp only
        split
        · have hkeys := h.keys p shape hshape
          refine .record ?_ ?_ (fun f hf => ?_) (fun f hf => ?_)
          · rw [List.map_map]
            exact hkeys
          · have hnames := nodup_map_nameOfKey hkeys
            rw [List.map_map] at hnames ⊢
            exact hnames
          · obtain ⟨e, he, rfl⟩ := List.mem_map.mp hf
            exact valid_nameOfKey (List.mem_map.mpr ⟨e, he, rfl⟩)
          · obtain ⟨e, -, rfl⟩ := List.mem_map.mp hf
            exact ih _ _
        split
        · exact .array (.scalar widest_mem)
        · exact .array (ih _ _)

/-- What an accumulator knows after any documents, whether it took them or not: its counters agree; it
has no schema exactly when it took none of them; and otherwise every lookup finds something, and the
schema is in order. -/
theorem schema_addEach {docs : List Value} (hd : ∀ d ∈ docs, DistinctKeys d)
    (typeName namespaceName altNamesKey : String) :
    let run := Accumulator.addEach {} docs
    run.1.Invariant ∧
      (none ∉ run.2 → run.1.schema typeName namespaceName altNamesKey =
        .error (.inference Pointer.root .emptyInput)) ∧
      (none ∈ run.2 → ∃ outline registry,
        Outline.ofArena? run.1.arena (outerNamespace namespaceName) (run.1.arena.depth + 1) []
          [Schema.avroName typeName] = some outline ∧
        run.1.schema typeName namespaceName altNamesKey = .ok (outline.finished altNamesKey) ∧
        Schema.check (outline.finished altNamesKey) = .ok registry) := by
  intro run
  have hinvariant : run.1.Invariant := (Accumulator.counts_empty.addEach hd).invariant
  have hcount : run.1.documents = 0 + run.2.countP (·.isNone) :=
    Accumulator.documents_addEach {} docs
  refine ⟨hinvariant, fun hnone => ?_, fun hsome => ?_⟩
  · have hzero : run.1.documents = 0 := by
      rw [hcount, List.countP_eq_zero.mpr]
      intro outcome hmem
      cases outcome with
      | none => exact absurd hmem hnone
      | some failure => exact Bool.false_ne_true
    rw [Accumulator.schema, hzero]
    rfl
  · have hpos : 0 < run.1.documents := by
      rw [hcount, Nat.zero_add]
      exact List.countP_pos_iff.mpr ⟨none, hsome, rfl⟩
    have hroot : (run.1.arena.get? []).isSome := by
      have hdocuments := hinvariant.documents
      cases hget : run.1.arena.get? [] with
      | some shape => rfl
      | none =>
        rw [hget] at hdocuments
        exact absurd hpos (Nat.not_lt.mpr hdocuments)
    refine ⟨_, _, ofArena?_eq hinvariant _ _ [] _ hroot (Nat.lt_succ_self _)
      (List.cons_ne_nil _ _), ?_, check_schema (valid_ofArena hinvariant _ _ _ _)⟩
    rw [Accumulator.schema, if_neg]
    · rfl
    · rw [Option.isNone_eq_false_iff.mpr hroot, Bool.or_false, decide_eq_true_eq]
      exact Nat.pos_iff_ne_zero.mp hpos

/-- A document that ends in the middle of a list, one that is no struct, and one that is taken. -/
theorem schema_addEach_cut :
    let docs := [Value.struct [(.text "a b", .list [.int 1, .set []]), (.text "c", .null)], .int 3,
      .struct [(.text "a b", .tuple []), (.text "c", .struct [(.text "d", .text "x")])]]
    let run := Accumulator.addEach {} docs
    (∀ d ∈ docs, DistinctKeys d) ∧ none ∈ run.2 ∧ run.2.map (·.isNone) = [false, false, true] ∧
      run.1.Invariant ∧
      (none ∉ run.2 → run.1.schema "Document" "ns" "json" =
        .error (.inference Pointer.root .emptyInput)) ∧
      (none ∈ run.2 → ∃ outline registry,
        Outline.ofArena? run.1.arena (outerNamespace "ns") (run.1.arena.depth + 1) []
          [Schema.avroName "Document"] = some outline ∧
        run.1.schema "Document" "ns" "json" = .ok (outline.finished "json") ∧
        Schema.check (outline.finished "json") = .ok registry) := by
  intro docs run
  have hd : ∀ d ∈ docs, DistinctKeys d := by decide
  have houtcomes : run.2.map (·.isNone) = [false, false, true] := by cbv
  have hnone : none ∈ run.2 := by
    have hmem : true ∈ run.2.map (·.isNone) := by
      rw [houtcomes]
      decide
    obtain ⟨outcome, houtcome, hisNone⟩ := List.mem_map.mp hmem
    rwa [← Option.isNone_iff_eq_none.mp hisNone]
  exact ⟨hd, hnone, houtcomes, schema_addEach hd "Document" "ns" "json"⟩

end Inference
end AvroDocument
