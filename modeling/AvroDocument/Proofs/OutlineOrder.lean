import AvroDocument.Proofs.OutlineSchema
import AvroDocument.Proofs.Shuffling

/-!
# AvroDocument.Proofs.OutlineOrder

Outlines of the same sightings differ in the order of fields only, and so do their schemas.

* `Outline.Alike`: outlines that differ in the order of fields only.
* `alike_of_outlined`: values that look alike have outlines that are alike.
* `Outline.Alike.sites`: the records of both are the same ones.
* `Reordered`: one schema with the fields of records in another order.
* `Outline.Alike.reordered`: the schemas of outlines that are alike.
-/

namespace AvroDocument
namespace Inference

/-- Outlines that differ in the order of fields only. -/
inductive Outline.Alike : Outline → Outline → Prop
  | null : Alike .null .null
  | scalar {type : Json} (h : type ∈ scalarTypes) : Alike (.scalar type) (.scalar type)
  | array {nullable : Bool} {items items' : Outline} (h : Alike items items') :
    Alike (.array nullable items) (.array nullable items')
  | record {site : RecordSite} {keys keys' : List String} {field : String → FieldKey}
    {types types' : String → Outline} (hp : keys.Perm keys')
    (hn : (keys.map fun k => (field k).name).Nodup)
    (h : ∀ k ∈ keys, Alike (types k) (types' k)) :
    Alike (.record site (keys.map fun k => (field k, types k)))
      (.record site (keys'.map fun k => (field k, types' k)))

/-- Values that look alike have outlines that are alike. -/
theorem alike_of_outlined {outer : String} {p : Position} {path : List String} {vs ws : List Value}
    {o o' : Outline} (ho : Outlined outer p path vs o) (hl : LookAlike vs ws)
    (ho' : Outlined outer p path ws o') : o.Alike o' := by
  have hcases := ho'.of_classify
  induction ho generalizing ws o' with
  | null h =>
    rw [← hl.here.classify_eq, h] at hcases
    obtain rfl : o' = .null := hcases
    exact .null
  | mixed h =>
    rw [← hl.here.classify_eq, h] at hcases
    obtain rfl : o' = .scalar widest := hcases
    exact .scalar widest_mem
  | @scalar p path vs type h =>
    rw [← hl.here.classify_eq, h] at hcases
    obtain rfl : o' = .scalar type := hcases
    exact .scalar (scalar_mem_of_classify h)
  | emptyArray h =>
    rw [← hl.here.classify_eq, h] at hcases
    obtain rfl : o' = .array false (.scalar widest) := hcases
    exact .array (.scalar widest_mem)
  | array h _ ih =>
    rw [← hl.here.classify_eq, h] at hcases
    obtain ⟨items', rfl, below'⟩ := hcases
    rw [(hl.below .items).nulls_eq]
    exact .array (ih (hl.below .items) below' below'.of_classify)
  | @record p path vs types h _ ih =>
    rw [← hl.here.classify_eq, h] at hcases
    obtain ⟨types', rfl, below'⟩ := hcases
    have hf : fieldOf ws = fieldOf vs := funext fun k => (hl.fieldOf_eq k).symm
    rw [hf]
    refine .record hl.here.keysOf_perm (nodup_names vs) fun k hk => ?_
    have hname : nameOfKey (keysOf ws) k = nameOfKey (keysOf vs) k :=
      (nameOfKey_perm (nodup_keysOf vs) hl.here.keysOf_perm k).symm
    have hbelow := below' k (hl.here.keysOf_perm.mem_iff.mp hk)
    rw [hname] at hbelow
    exact ih k hk (hl.below (.key k)) hbelow hbelow.of_classify

/-! ## Records -/

theorem fieldSites_eq (fields : List (FieldKey × Outline)) :
    Outline.fieldSites fields = fields.flatMap fun f => f.2.sites := by
  induction fields with
  | nil => rfl
  | cons f fields ih => rw [Outline.fieldSites, ih, List.flatMap_cons]

theorem fieldSites_map (keys : List String) (field : String → FieldKey)
    (types : String → Outline) :
    Outline.fieldSites (keys.map fun k => (field k, types k)) =
      keys.flatMap fun k => (types k).sites := by
  rw [fieldSites_eq, List.flatMap_map]

theorem flatMap_perm_congr {α β : Type} {l : List α} {f g : α → List β}
    (h : ∀ a ∈ l, (f a).Perm (g a)) : (l.flatMap f).Perm (l.flatMap g) := by
  induction l with
  | nil => exact List.Perm.refl _
  | cons a l ih =>
    rw [List.flatMap_cons, List.flatMap_cons]
    exact (h a List.mem_cons_self).append (ih fun b hb => h b (List.mem_cons_of_mem _ hb))

/-- Outlines that are alike hold the same records. -/
theorem Outline.Alike.sites {o o' : Outline} (h : o.Alike o') : o.sites.Perm o'.sites := by
  induction h with
  | null => exact List.Perm.refl _
  | scalar _ => exact List.Perm.refl _
  | array _ ih => exact ih
  | @record site keys keys' field types types' hp _ _ ih =>
    rw [Outline.sites, Outline.sites, fieldSites_map, fieldSites_map]
    exact ((flatMap_perm_congr ih).trans (hp.flatMap_right _)).cons _

/-- The records of an outline lie at or below its position, no two of them at one position. -/
theorem sites_of_outlined {outer : String} {p : Position} {path : List String} {vs : List Value}
    {o : Outline} (ho : Outlined outer p path vs o) :
    (o.sites.map (·.position)).Nodup ∧ ∀ s ∈ o.sites, p <+: s.position := by
  induction ho with
  | null _ | mixed _ | scalar _ | emptyArray _ =>
    exact ⟨List.nodup_nil, fun s hs => absurd hs List.not_mem_nil⟩
  | array _ _ ih =>
    exact ⟨ih.1, fun s hs => (List.prefix_append _ _).trans (ih.2 s hs)⟩
  | @record p path vs types _ _ ih =>
    rw [Outline.sites, fieldSites_map, List.map_cons, List.nodup_cons, List.map_flatMap]
    have hbelow : ∀ s ∈ (keysOf vs).flatMap fun k => (types k).sites,
        ∃ k ∈ keysOf vs, p ++ [.key k] <+: s.position := by
      intro s hs
      obtain ⟨k, hk, hs⟩ := List.mem_flatMap.mp hs
      exact ⟨k, hk, (ih k hk).2 s hs⟩
    refine ⟨⟨fun hm => ?_, ?_⟩, fun s hs => ?_⟩
    · rw [← List.map_flatMap] at hm
      obtain ⟨s, hs, e⟩ := List.mem_map.mp hm
      obtain ⟨k, _, hpre⟩ := hbelow s hs
      have hlen : (p ++ [Step.key k]).length ≤ p.length := by
        rw [e] at hpre
        exact hpre.length_le
      rw [List.length_append, List.length_singleton] at hlen
      omega
    · rw [List.nodup_iff_pairwise_ne, List.pairwise_flatMap]
      refine ⟨fun k hk => List.nodup_iff_pairwise_ne.mp (ih k hk).1, ?_⟩
      refine List.Pairwise.imp_of_mem ?_ (List.nodup_iff_pairwise_ne.mp (nodup_keysOf vs))
      intro a b ha hb hne q hq r hr e
      subst e
      obtain ⟨s, hs, rfl⟩ := List.mem_map.mp hq
      obtain ⟨t, ht, e⟩ := List.mem_map.mp hr
      have h1 := (ih a ha).2 s hs
      have h2 := (ih b hb).2 t ht
      rw [e] at h2
      have h3 := List.prefix_of_prefix_length_le h1 h2 (by simp)
      obtain ⟨r, hr⟩ := h3
      rw [List.append_assoc, List.append_cancel_left_eq] at hr
      simp only [List.singleton_append, List.cons.injEq, Step.key.injEq] at hr
      exact hne hr.1
    · rcases List.mem_cons.mp hs with rfl | hs
      · exact List.prefix_refl _
      · obtain ⟨k, _, hpre⟩ := hbelow s hs
        exact (List.prefix_append _ _).trans hpre

/-! ## Schemas -/

end Inference

/-- One schema with the fields of records, at any depth, in another order. -/
inductive Reordered : Json → Json → Prop
  | refl (j : Json) : Reordered j j
  | trans {i j k : Json} (h : Reordered i j) (h' : Reordered j k) : Reordered i k
  | fields (front back : List (String × Json)) {fs gs : List Json} (h : fs.Perm gs)
    (hrecord : lookup? "type" front = some (.str "record")) :
    Reordered (.obj (front ++ ("fields", .arr fs) :: back))
      (.obj (front ++ ("fields", .arr gs) :: back))
  | item (front back : List Json) {j k : Json} (h : Reordered j k) :
    Reordered (.arr (front ++ j :: back)) (.arr (front ++ k :: back))
  | member (front back : List (String × Json)) {key : String} {j k : Json} (h : Reordered j k) :
    Reordered (.obj (front ++ (key, j) :: back)) (.obj (front ++ (key, k) :: back))

theorem reordered_items {ks : List String} {f g : String → Json}
    (h : ∀ k ∈ ks, Reordered (f k) (g k)) (front : List Json) :
    Reordered (.arr (front ++ ks.map f)) (.arr (front ++ ks.map g)) := by
  induction ks generalizing front with
  | nil => exact .refl _
  | cons k ks ih =>
    have hrest := ih (fun x hx => h x (List.mem_cons_of_mem _ hx)) (front ++ [g k])
    rw [List.append_assoc, List.append_assoc] at hrest
    exact (Reordered.item front _ (h k List.mem_cons_self)).trans hrest

namespace Inference

theorem Outline.Alike.knownScalar {o o' : Outline} (h : o.Alike o') :
    o.KnownScalar ∧ o'.KnownScalar := by
  cases h with
  | scalar h =>
    refine ⟨fun type e => ?_, fun type e => ?_⟩ <;>
      (cases e; exact h)
  | _ => exact ⟨(fun _ e => nomatch e), fun _ e => nomatch e⟩

theorem Outline.Alike.isNull_eq {o o' : Outline} (h : o.Alike o') : o.isNull = o'.isNull := by
  cases h <;> rfl

/-- Adding null to types keeps them reorderings of one another. -/
theorem Outline.Alike.optional {o o' : Outline} (h : o.Alike o') {altNamesKey : String}
    {names : List (Position × String)}
    (hr : Reordered (o.schema altNamesKey names) (o'.schema altNamesKey names))
    (nullable : Bool) :
    Reordered (optional nullable (o.schema altNamesKey names))
      (optional nullable (o'.schema altNamesKey names)) := by
  rw [optional_schema h.knownScalar.1, optional_schema h.knownScalar.2, ← h.isNull_eq]
  split
  · exact Reordered.item [.str "null"] [] hr
  · exact hr

theorem Outline.Alike.reordered {o o' : Outline} (h : o.Alike o') (altNamesKey : String)
    (names : List (Position × String)) :
    Reordered (o.schema altNamesKey names) (o'.schema altNamesKey names) := by
  induction h with
  | null => exact .refl _
  | scalar _ => exact .refl _
  | @array nullable items items' h ih =>
    exact Reordered.member [("type", .str "array")] [] (h.optional ih nullable)
  | @record site keys keys' field types types' hp _ h ih =>
    rw [schema, schema, schemaFields_map, schemaFields_map]
    refine (Reordered.member _ _ ?_).trans (Reordered.fields _ _ (hp.map _) ?_)
    · refine reordered_items (fun k hk => ?_) []
      rw [fieldMembers_eq, fieldMembers_eq, ← (h k hk).isNull_eq]
      refine Reordered.member [_] _ ?_
      split
      · exact ih k hk
      · exact (h k hk).optional (ih k hk) _
    · rfl

end Inference
end AvroDocument
