import AvroDocument.Proofs.Algebra

/-!
# AvroDocument.Proofs.FullNames

The full names that a walk over a schema can meet, whatever references it follows.

* `Schema.spaces`, `Schema.fullNames`: the namespaces and the full names, finitely many of them.
* `Schema.Stands`: where a walk stands. It comes from there to no other nodes and no other namespaces.
* `Schema.length_fullNames`: there is fuel for more references than there are full names.
-/

namespace AvroDocument
namespace Schema

/-- The texts in a schema. -/
def texts (schema : Json) : List String := schema.nodes.filterMap Json.text?

/-- The nodes of a schema that declare a name. -/
def namedNodes (schema : Json) : List Json := schema.nodes.filter isNamed

/-- The namespaces that a walk meets: the one that it starts in, the empty one, those that are written
in the schema, and what stands before the last dot of a name. -/
def spaces (outer : String) (schema : Json) : List String :=
  outer :: "" :: (texts schema ++ (texts schema).map fun text => (splitName text).1)

/-- The full names of the declarations in all of these namespaces. -/
def fullNames (outer : String) (schema : Json) : List String :=
  (namedNodes schema).flatMap fun node => (spaces outer schema).map (fullName node)

variable {outer enclosing inner name : String} {schema node declared : Json} {ms : List (String × Json)}

theorem isNamed_obj (ms : List (String × Json)) :
    isNamed (.obj ms) = namedKinds.contains (typeName (.obj ms)) := rfl

theorem isNamed_iff : isNamed node = true ↔
    ∃ ms, node = .obj ms ∧ namedKinds.contains (typeName (.obj ms)) = true := by
  cases node with
  | obj ms => simp [isNamed_obj]
  | _ => simp [isNamed, Json.isObj]

theorem isNamed_record (h : typeName (.obj ms) = "record") : isNamed (.obj ms) = true := by
  rw [isNamed_obj, h]
  rfl

theorem isNamed_array (h : typeName node = "array") : isNamed node = false := by
  rw [isNamed, h]
  exact Bool.and_false _

theorem isNamed_map (h : typeName node = "map") : isNamed node = false := by
  rw [isNamed, h]
  exact Bool.and_false _

/-! ## Their number -/

/-- No node both declares a name and is a text. -/
theorem length_named_texts (nodes : List Json) :
    (nodes.filter isNamed).length + (nodes.filterMap Json.text?).length ≤ nodes.length := by
  induction nodes with
  | nil => exact Nat.le_refl _
  | cons node nodes ih =>
    cases htext : node.text? with
    | none =>
      have hfilter := List.length_filter_le isNamed [node]
      rw [List.filterMap_cons_none htext, ← List.singleton_append, List.filter_append,
        List.length_append, List.length_append]
      omega
    | some text =>
      have hnamed : ¬ isNamed node = true := by
        rw [isNamed_iff]
        rintro ⟨ms, rfl, -⟩
        cases htext
      rw [List.filterMap_cons_some htext, List.filter_cons_of_neg hnamed, List.length_cons,
        List.length_cons]
      omega

theorem length_fullNames (outer : String) (schema : Json) :
    (fullNames outer schema).length + 2 ≤ Registry.depthBound schema := by
  have hlength : (fullNames outer schema).length =
      (namedNodes schema).length * (2 * (texts schema).length + 2) := by
    simp only [fullNames, List.length_flatMap, List.length_map, List.map_const', List.sum_replicate_nat,
      spaces, List.length_cons, List.length_append]
    congr 1
    omega
  have hcount := length_named_texts schema.nodes
  rw [Json.length_nodes] at hcount
  change (namedNodes schema).length + (texts schema).length ≤ schema.nodeCount at hcount
  rw [hlength, Registry.depthBound]
  cases hnamed : (namedNodes schema).length with
  | zero => simp
  | succ d =>
    rw [hnamed] at hcount
    have := Nat.mul_le_mul (show d + 1 ≤ schema.nodeCount by omega)
      (show 2 * (texts schema).length + 2 ≤ 2 * schema.nodeCount + 1 by omega)
    exact Nat.add_le_add_right this 2

/-! ## Namespaces -/

theorem outer_mem_spaces (outer : String) (schema : Json) : outer ∈ spaces outer schema :=
  List.mem_cons_self

theorem empty_mem_spaces (outer : String) (schema : Json) : "" ∈ spaces outer schema :=
  List.mem_cons_of_mem _ List.mem_cons_self

theorem text_mem_spaces (h : name ∈ texts schema) : name ∈ spaces outer schema :=
  List.mem_cons_of_mem _ (List.mem_cons_of_mem _ (List.mem_append_left _ h))

theorem front_mem_spaces (h : name ∈ texts schema) : (splitName name).1 ∈ spaces outer schema :=
  List.mem_cons_of_mem _ (List.mem_cons_of_mem _
    (List.mem_append_right _ (List.mem_map_of_mem (f := fun text => (splitName text).1) h)))

theorem textOf_mem (hnode : node ∈ schema.nodes) (key : String) :
    textOf node key = "" ∨ textOf node key ∈ texts schema := by
  rw [textOf]
  cases hvalue : node.get? key with
  | none => exact .inl rfl
  | some value =>
    cases htext : value.text? with
    | none =>
      refine .inl ?_
      rw [Option.bind_some, htext]
      rfl
    | some text =>
      refine .inr (List.mem_filterMap.mpr ⟨value, Json.nodes_trans hnode (Json.nodes_get hvalue), ?_⟩)
      rw [Option.bind_some, htext]
      rfl

theorem split_referenceName_mem (hname : name ∈ texts schema) (h : enclosing ∈ spaces outer schema) :
    (splitName (referenceName name enclosing)).1 ∈ spaces outer schema := by
  rw [referenceName]
  split
  · rename_i hplain
    have hdot : '.' ∉ name.toList := by
      intro hmem
      simp [hasDot, hmem] at hplain
    rw [splitName_dotted enclosing hdot]
    exact h
  · exact front_mem_spaces hname

/-- The namespace that a name without a dot is declared in. -/
theorem declaredSpace_mem (hnode : node ∈ schema.nodes) (h : enclosing ∈ spaces outer schema) :
    (if node.has "namespace" then textOf node "namespace" else enclosing) ∈ spaces outer schema := by
  split
  · rcases textOf_mem hnode "namespace" with hempty | hmem
    · rw [hempty]
      exact empty_mem_spaces outer schema
    · exact text_mem_spaces hmem
  · exact h

theorem split_fullName_mem (hnode : .obj ms ∈ schema.nodes) (h : enclosing ∈ spaces outer schema) :
    (splitName (fullName (.obj ms) enclosing)).1 ∈ spaces outer schema := by
  have hspace := declaredSpace_mem hnode h
  rw [fullName]
  · simp only
    generalize (if (Json.obj ms).has "namespace" then _ else enclosing) = space at hspace ⊢
    split
    · rename_i hdot
      rcases textOf_mem hnode "name" with hempty | hmem
      · rw [hempty] at hdot
        cases hdot
      · exact front_mem_spaces hmem
    · rename_i hplain
      have hdot : '.' ∉ (textOf (.obj ms) "name").toList := by simpa [hasDot] using hplain
      split
      · rw [splitName_plain hdot]
        exact empty_mem_spaces outer schema
      · rw [splitName_dotted _ hdot]
        exact hspace
  · intros
    contradiction

/-! ## Where a walk stands -/

/-- A node of a schema, or the type that stands for an absent one, in one of the namespaces. -/
structure Stands (outer : String) (schema : Json) (enclosing : String) (node : Json) : Prop where
  node : node ∈ schema.nodes ∨ node = .str "null"
  space : enclosing ∈ spaces outer schema

namespace Stands

theorem whole (outer : String) (schema : Json) : Stands outer schema outer schema :=
  ⟨.inl schema.self_mem_nodes, outer_mem_spaces outer schema⟩

theorem small (h : Stands outer schema enclosing node) : node.nodeCount ≤ schema.nodeCount := by
  rcases h.node with hnode | rfl
  · exact Json.nodeCount_le_of_mem hnode
  · exact schema.nodeCount_pos

theorem mem_nodes (h : Stands outer schema enclosing node) (hnode : node ≠ .str "null") :
    node ∈ schema.nodes := h.node.resolve_right hnode

theorem below (h : Stands outer schema enclosing node) {child : Json}
    (hchild : child ∈ node.nodes) : Stands outer schema enclosing child := by
  refine ⟨?_, h.space⟩
  rcases h.node with hnode | rfl
  · exact .inl (Json.nodes_trans hnode hchild)
  · exact .inr (List.mem_singleton.mp hchild)

/-- What stands under a key of a node, or else null. -/
theorem under (h : Stands outer schema enclosing node) (key : String) :
    Stands outer schema enclosing (node.getD key (.str "null")) := by
  rw [Json.getD]
  cases hvalue : node.get? key with
  | none => exact ⟨.inr rfl, h.space⟩
  | some value => exact h.below (Json.nodes_get hvalue)

theorem nonNull (h : Stands outer schema enclosing node) :
    Stands outer schema enclosing (nonNull node) := by
  cases node with
  | arr members =>
    rw [Schema.nonNull]
    cases hfind : members.find? fun m => !isNullMember m with
    | none => exact ⟨.inr rfl, h.space⟩
    | some m => exact h.below (Json.nodes_item (List.mem_of_find?_eq_some hfind))
  | _ => exact h

theorem field (h : Stands outer schema enclosing node) {f : Json} (hf : f ∈ fieldsOf node) :
    Stands outer schema enclosing (typeOf f) := by
  refine (h.below ?_).under "type"
  rw [fieldsOf, Json.getD] at hf
  cases hfields : node.get? "fields" with
  | none => rw [hfields] at hf; cases hf
  | some fields =>
    rw [hfields] at hf
    cases fields with
    | arr js => exact Json.nodes_trans (Json.nodes_get hfields) (Json.nodes_item hf)
    | _ => cases hf

theorem fullName_mem (h : Stands outer schema enclosing node) (hnamed : isNamed node = true) :
    fullName node enclosing ∈ fullNames outer schema := by
  obtain ⟨ms, rfl, -⟩ := isNamed_iff.mp hnamed
  exact List.mem_flatMap.mpr ⟨_, List.mem_filter.mpr ⟨h.mem_nodes (by simp), hnamed⟩,
    List.mem_map_of_mem h.space⟩

/-- Inside a declaration a walk goes on in another of the namespaces. -/
theorem inside (h : Stands outer schema enclosing node) (hnamed : isNamed node = true) :
    Stands outer schema (namespaceOf node enclosing) node := by
  obtain ⟨ms, rfl, -⟩ := isNamed_iff.mp hnamed
  exact ⟨h.node, split_fullName_mem (h.mem_nodes (by simp)) h.space⟩

theorem referred (h : Stands outer schema enclosing (.str name))
    (hname : primitiveNames.contains name = false)
    (hresolve : (Registry.ofSchema schema).resolve (.str name) enclosing = .ok (declared, inner)) :
    isNamed declared = true ∧ Stands outer schema enclosing declared ∧
      Stands outer schema inner declared := by
  have hmem : name ∈ texts schema := by
    refine List.mem_filterMap.mpr ⟨.str name, h.mem_nodes ?_, rfl⟩
    intro hnull
    cases hnull
    cases hname
  simp only [Registry.resolve, hname, Bool.false_eq_true, if_false] at hresolve
  split at hresolve
  · cases hresolve
  · rename_i found hfind
    cases hresolve
    obtain ⟨d, hd, rfl⟩ := Registry.find?_mem hfind
    obtain ⟨hnode, hnamed⟩ := Registry.ofSchema_mem hd
    have hreference : Stands outer schema (splitName (referenceName name enclosing)).1 d.2 :=
      ⟨.inl hnode, split_referenceName_mem hmem h.space⟩
    exact ⟨hnamed, ⟨.inl hnode, h.space⟩, hreference.inside hnamed⟩

end Stands

end Schema
end AvroDocument
