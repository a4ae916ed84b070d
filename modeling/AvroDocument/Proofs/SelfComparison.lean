import AvroDocument.Proofs.Comparison
import AvroDocument.Proofs.Trees
import AvroDocument.Proofs.Within

/-!
# AvroDocument.Proofs.SelfComparison

A schema whose types are all supported can be read as itself.

* `Schema.hereditary_tidy`: what stands inside a tidy schema is tidy.
* `Compatibility.checkPair_self`: a pair of one type with itself passes.
* `checkCompatible_self`: the whole comparison passes.
-/

namespace AvroDocument

namespace Schema

theorem tidy_typeOf {field : Json} (h : field.Tidy) : (typeOf field).Tidy := by
  unfold typeOf Json.getD
  cases htype : field.get? "type" with
  | none => exact .str "null"
  | some type =>
    cases field with
    | obj ms => exact h.lookup htype
    | _ => cases htype

theorem hereditary_tidy : Hereditary Json.Tidy where
  member h hm := h.item _ hm
  items h _ hitems := h.lookup hitems
  values h _ hvalues := h.lookup hvalues
  field {ms f} h _ hf := by
    refine tidy_typeOf ?_
    unfold fieldsOf Json.getD at hf
    cases hfields : (Json.obj ms).get? "fields" with
    | none =>
      rw [hfields] at hf
      cases hf
    | some fields =>
      rw [hfields] at hf
      have htidy := h.lookup hfields
      cases fields with
      | arr js => exact htidy.item _ hf
      | _ => cases hf

end Schema

namespace Compatibility

open Schema (Registry Within Sound Form)

section

variable {schema node : Json} {decls : List (String × Json)} {top l : Layout}
  {enclosing : String}

theorem same_logical (h : node.Tidy) :
    ((Schema.logicalNode? node).getD .null).same ((Schema.logicalNode? node).getD .null) = true := by
  unfold Schema.logicalNode?
  cases node with
  | obj ms =>
    cases hlogical : (Json.obj ms).get? "logicalType" with
    | none => exact Json.same_self .null
    | some logical => exact Json.same_self (h.lookup hlogical)
  | _ => exact Json.same_self .null

theorem same_type {kind : String} (h : Schema.typeName node = kind) (hkind : kind ≠ "") :
    (Schema.typeNode node).same (Schema.typeNode node) = true := by
  rw [typeNode_of_typeName h hkind]
  exact Json.same_self (.str kind)

/-- A field with a name of its own is found under it. -/
theorem fieldNamed?_self {fields : List Json} (hd : (fields.map Schema.nameOf).Nodup) {f : Json}
    (hf : f ∈ fields) : fieldNamed? fields (Schema.nameOf f) = some f := by
  unfold fieldNamed?
  cases hfind : fields.reverse.find? fun g => Schema.nameOf g = Schema.nameOf f with
  | none =>
    rw [List.find?_eq_none] at hfind
    exact absurd (decide_eq_true rfl) (hfind f (List.mem_reverse.mpr hf))
  | some g =>
    have hg := List.mem_reverse.mp (List.mem_of_find?_eq_some hfind)
    have hname := List.find?_some hfind
    exact congrArg some (eq_of_nodup_map hd hg hf (by simpa using hname))

theorem sourceOf?_self {fields : List Json} (hd : (fields.map Schema.nameOf).Nodup) {f : Json}
    (hf : f ∈ fields) : sourceOf? fields f = some f := by
  rw [sourceOf?, List.findSome?_cons, fieldNamed?_self hd hf]

theorem of_mem_distinctNames {fields : List Json} {name : String}
    (h : name ∈ distinctNames fields) : ∃ f ∈ fields, Schema.nameOf f = name := by
  suffices hstep : ∀ names : List String, name ∈ fields.foldl (fun names f =>
      if names.contains (Schema.nameOf f) then names else names ++ [Schema.nameOf f]) names →
      name ∈ names ∨ ∃ f ∈ fields, Schema.nameOf f = name by
    obtain hname | hname := hstep [] h
    · cases hname
    · exact hname
  clear h
  induction fields with
  | nil => exact fun _ hname => .inl hname
  | cons f fields ih =>
    intro names hname
    obtain hname | ⟨g, hg, rfl⟩ := ih _ hname
    · dsimp only at hname
      split at hname
      · exact .inl hname
      · obtain hname | hname := List.mem_append.mp hname
        · exact .inl hname
        · exact .inr ⟨f, List.mem_cons_self, (List.mem_singleton.mp hname).symm⟩
    · exact .inr ⟨g, List.mem_cons_of_mem _ hg, rfl⟩

theorem opaqueKinds_primitive {name : String} {type : Primitive} (h : Primitive.ofName? name = some type) :
    Schema.opaqueKinds.contains name = false := by
  have henum : name ≠ "enum" := Schema.not_kind h rfl
  have hfixed : name ≠ "fixed" := Schema.not_kind h rfl
  have hmap : name ≠ "map" := Schema.not_kind h rfl
  simp [Schema.opaqueKinds, henum, hfixed, hmap]

theorem checkTaken_all {path : String} {reader : Json} {written : List Json}
    {matched names : List String} (h : ∀ name ∈ names, name ∈ matched) :
    checkTaken path reader written matched names = .ok () := by
  induction names with
  | nil => rfl
  | cons name names ih =>
    have hname : matched.contains name = true := by simpa using h name List.mem_cons_self
    rw [checkTaken, if_pos hname]
    exact ih fun other hother => h other (List.mem_cons_of_mem _ hother)

/-- The fields of a record pass when their types do. -/
theorem checkFields_self {registry : Registry} {fuel : Nat} {fields written : List Json}
    (hd : (written.map Schema.nameOf).Nodup) (hsub : fields ⊆ written)
    (hnamed : ∀ f ∈ written, f.has "name" = true)
    (hpair : ∀ f ∈ written, ∀ path visited, ∃ visited', checkPair registry registry fuel path visited
      ⟨Schema.typeOf f, Schema.typeOf f, enclosing, enclosing⟩ = .ok visited')
    (path : String) (matched : List String) (visited : List (String × String)) :
    ∃ visited' matched', checkFields registry registry fuel path written enclosing enclosing matched
        visited fields = .ok (visited', matched') ∧ matched ⊆ matched' ∧
      ∀ f ∈ fields, Schema.nameOf f ∈ matched' := by
  induction fields generalizing matched visited with
  | nil => exact ⟨visited, matched, by rw [checkFields], List.Subset.refl _, fun _ hf => nomatch hf⟩
  | cons f fields ih =>
    have hf : f ∈ written := hsub List.mem_cons_self
    obtain ⟨middle, hmiddle⟩ := hpair f hf (Pointer.child path (Schema.nameOf f)) visited
    obtain ⟨visited', matched', hrest, hkept, hmatched⟩ :=
      ih (fun g hg => hsub (List.mem_cons_of_mem _ hg)) (Schema.nameOf f :: matched) middle
    refine ⟨visited', matched', ?_, fun name hname => hkept (List.mem_cons_of_mem _ hname), ?_⟩
    · rw [checkFields]
      simp only [hnamed f hf, sourceOf?_self hd hf, hmiddle, hrest]
      rfl
    · intro g hg
      obtain rfl | hg := List.mem_cons.mp hg
      · exact hkept List.mem_cons_self
      · exact hmatched g hg

/-- A type passes with itself. -/
theorem checkPair_self (hs : Sound Json.Tidy schema top decls) {fuel : Nat}
    (h : Within Json.Tidy schema decls enclosing node l) (path : String)
    (visited : List (String × String)) : ∃ visited', checkPair (Registry.ofSchema schema) (Registry.ofSchema schema) fuel path visited
      ⟨node, node, enclosing, enclosing⟩ = .ok visited' := by
  induction fuel generalizing path visited enclosing node l with
  | zero => exact ⟨visited, by rw [checkPair]⟩
  | succ fuel ih =>
    rw [checkPair]
    simp only [Bool.and_not_self, Bool.false_eq_true, if_false]
    obtain hnull | ⟨l', hwithin, hflat⟩ := h.nonNull hs.hereditary
    · rw [hnull]
      exact ⟨visited, rfl⟩
    · by_cases hnull : (Schema.nonNull node).isStr "null" = true
      · exact ⟨visited, by rw [if_pos hnull]⟩
      rw [if_neg hnull]
      obtain ⟨plain, inner, l'', hresolve, hplain, hisPlain, -⟩ := hwithin.resolve hs hflat
      simp only [hresolve, same_logical hplain.holds]
      cases hplain.form hs.hereditary hisPlain with
      | primitive hkind =>
        have hne : Schema.typeName plain ≠ "" := Schema.not_kind hkind rfl
        have harray : Schema.typeName plain ≠ "array" := Schema.not_kind hkind rfl
        have hrecord : Schema.typeName plain ≠ "record" := Schema.not_kind hkind rfl
        refine ⟨visited, ?_⟩
        simp only [opaqueKinds_primitive hkind, same_type rfl hne, harray, hrecord]
        rfl
      | array hkind hitems =>
        obtain ⟨visited', hvisited⟩ := ih hitems (path ++ "/items") visited
        refine ⟨visited', ?_⟩
        simp only [hkind, same_type hkind (by decide)]
        exact hvisited
      | @record pieces hkind hfields hfield hnames hpieces =>
        by_cases hseen : visited.contains
            (Schema.fullName plain inner, Schema.fullName plain inner) = true
        · refine ⟨visited, ?_⟩
          simp only [hkind, same_type hkind (by decide), hseen]
          rfl
        have hnamed : ∀ f ∈ Schema.fieldsOf plain, f.has "name" = true := by
          rw [hfields]
          intro f hf
          obtain ⟨p, hp, rfl⟩ := List.mem_map.mp hf
          exact (hfield p hp).named
        have hall : (Schema.fieldsOf plain).any (fun f => !f.has "name") = false := by
          simpa using hnamed
        have hd : ((Schema.fieldsOf plain).map Schema.nameOf).Nodup := by
          rwa [hfields, List.map_map]
        obtain ⟨visited', matched, hcheck, -, hmatched⟩ :=
          checkFields_self hd (List.Subset.refl _) hnamed (by
            rw [hfields]
            intro f hf path visited
            obtain ⟨p, hp, rfl⟩ := List.mem_map.mp hf
            exact ih (hpieces p hp) path visited)
            path [] ((Schema.fullName plain inner, Schema.fullName plain inner) :: visited)
        have htaken : ∀ name ∈ distinctNames (Schema.fieldsOf plain), name ∈ matched := by
          intro name hname
          obtain ⟨f, hf, rfl⟩ := of_mem_distinctNames hname
          exact hmatched f hf
        refine ⟨visited', ?_⟩
        simp only [hkind, same_type hkind (by decide), hseen, hall, hcheck, checkTaken_all htaken]
        rfl

end

end Compatibility

/-- A tidy schema whose types are all supported passes the comparison with itself. -/
theorem checkCompatible_self {schema : Json} {registry : Schema.Registry} {layout : Layout}
    (ht : schema.Tidy) (hcheck : Schema.check schema = .ok registry)
    (hlayout : Layout.ofSchema schema = .ok layout) : checkCompatible schema schema = .ok () := by
  obtain ⟨-, hregular⟩ := Schema.regular_of_check hcheck hlayout
  obtain ⟨decls, hs⟩ := Schema.sound_of_layout Schema.hereditary_tidy ht hlayout hregular
  obtain ⟨visited, hvisited⟩ := Compatibility.checkPair_self hs hs.within Pointer.root []
  rw [checkCompatible, hvisited]
  rfl

end AvroDocument
