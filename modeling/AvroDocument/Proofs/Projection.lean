import AvroDocument.Proofs.Revision
import AvroDocument.Proofs.ScalarReading
import Mathlib.Data.List.Find
import Mathlib.Data.List.Nodup

/-!
# AvroDocument.Proofs.Projection

Data of a schema that are read with a revised one.

* `fieldValue_kept`, `fieldValue_added`: the fields that both schemas have, and the new ones.
* `Revises.projects`: the revised schema makes the projection of whatever the first one makes.
* `Revises.settles`: data that decimal arithmetic can take have a value under the revised schema, or
  do not fit it.
-/

namespace AvroDocument
namespace Schema

/-! ## Nodes, members, items and fields -/

section parts

variable {types : Declarations} {P : Binary.ScalarProperty} {schema : Json}
  {decls : List (String × Json)} {enclosing inner path : String} {l : Layout} {datum : Value}

theorem stored_null {v : Value} (h : Binary.Stored .null none v) : v = .null := by
  obtain ⟨bytes, rest, plain, hread, hwrap⟩ := h
  obtain rfl : plain = .null := Binary.readPlain_cases hread
  exact Binary.wrap_plain hwrap nofun nofun nofun

theorem shaped_list {items : Layout} (h : Binary.Shaped types P (.array items) datum) :
    ∃ vs, datum = .list vs ∧ ∀ v ∈ vs, Binary.Shaped types P items v := by
  cases h with
  | array h => exact ⟨_, rfl, h⟩

theorem shaped_struct {name : String} {pieces : List Piece}
    (h : Binary.Shaped types P (.record name (pieces.map Piece.field)) datum) :
    ∃ stored : Piece → Value,
      datum = .struct (Binary.entriesFor (fun p => nameOf p.node) stored pieces) ∧
        ∀ p ∈ pieces, Binary.Shaped types P p.layout (stored p) := by
  cases h with
  | @record _ _ stored h =>
    refine ⟨fun p => stored p.field, ?_, fun p hp => h _ (List.mem_map_of_mem hp)⟩
    rw [List.map_map]
    rfl

/-- The layout of what is not null in a union is that of the one member that is not null. -/
theorem Within.present_member {ms : List Json} {member : Json} {layouts : List Layout}
    (h : Within (TypeIn schema) schema decls enclosing (.arr ms) (.union layouts))
    (hP : ∀ v, P .null none v → Binary.Stored .null none v) (hl : l ∈ layouts)
    (hshaped : Binary.Shaped types P l datum) (hdatum : datum ≠ .null)
    (hfind : ms.find? (fun m => !isNullMember m) = some member) :
    Within (TypeIn schema) schema decls enclosing member l := by
  obtain ⟨pieces, rfl, hlayouts, hone, hpieces⟩ := h.members (hereditary_typeIn schema)
  obtain rfl := Layout.union.inj hlayouts
  obtain ⟨p, hp, rfl⟩ := List.mem_map.mp (List.mem_of_find?_eq_some hfind)
  have hpnull : isNullMember p.node = false := by simpa using List.find?_some hfind
  obtain ⟨q, hq, rfl⟩ := List.mem_map.mp hl
  obtain ⟨hqwithin, hqnull, -⟩ := hpieces q hq
  have hqpresent : isNullMember q.node = false := by
    by_contra hnull
    rw [Bool.not_eq_false] at hnull
    rw [hqwithin.layout_null (hqnull.trans hnull)] at hshaped
    cases hshaped with
    | primitive h => exact hdatum (stored_null (hP _ h))
  obtain rfl : q = p := eq_of_countP_le_one hone hq hp (by rw [hqpresent]; rfl)
    (by rw [hpnull]; rfl)
  exact hqwithin

/-- What is not null in a union has the shape of the one member that is not null. -/
theorem Within.present {ms : List Json} {member : Json}
    (h : Within (TypeIn schema) schema decls enclosing (.arr ms) l)
    (hP : ∀ v, P .null none v → Binary.Stored .null none v)
    (hshaped : Binary.Shaped types P l datum)
    (hdatum : datum ≠ .null) (hfind : ms.find? (fun m => !isNullMember m) = some member) :
    ∃ l', Within (TypeIn schema) schema decls enclosing member l' ∧
      Binary.Shaped types P l' datum := by
  obtain ⟨pieces, -, rfl, -, -⟩ := h.members (hereditary_typeIn schema)
  cases hshaped with
  | union hmember hshaped =>
    exact ⟨_, h.present_member hP hmember hshaped hdatum hfind, hshaped⟩

theorem Within.standalone_members {ms : List Json}
    (h : Within (TypeIn schema) schema decls enclosing (.arr ms) l) (hfree : ReferenceFree schema) :
    ∀ m ∈ ms, Standalone m := by
  obtain ⟨pieces, rfl, -, -, hpieces⟩ := h.members (hereditary_typeIn schema)
  intro m hm
  obtain ⟨p, hp, rfl⟩ := List.mem_map.mp hm
  obtain ⟨hwithin, -, hunion⟩ := hpieces p hp
  exact hwithin.standalone hfree hunion

section members

variable {members : List (Json × Json)}

theorem find?_first :
    (members.map (·.1)).find? (fun m => !isNullMember m) =
      (members.find? fun m => !isNullMember m.1).map (·.1) := List.find?_map

theorem find?_revised (h : ∀ m ∈ members, isNullMember m.2 = isNullMember m.1) :
    (members.map (·.2)).find? (fun m => !isNullMember m) =
      (members.find? fun m => !isNullMember m.1).map (·.2) := by
  rw [List.find?_map]
  exact congrArg (Option.map Prod.snd) (List.find?_congr fun m hm => congrArg not (h m hm))

theorem isNullable_revised (h : ∀ m ∈ members, isNullMember m.2 = isNullMember m.1) :
    isNullable (.arr (members.map (·.2))) = isNullable (.arr (members.map (·.1))) := by
  show (members.map (·.2)).any isNullMember = (members.map (·.1)).any isNullMember
  rw [List.any_map, List.any_map, Bool.eq_iff_iff, List.any_eq_true, List.any_eq_true]
  constructor
  · rintro ⟨m, hm, hnull⟩
    exact ⟨m, hm, (h m hm).symm.trans hnull⟩
  · rintro ⟨m, hm, hnull⟩
    exact ⟨m, hm, (h m hm).trans hnull⟩

end members

section fields

variable {r : Reconciler} {node f : Json} {entries : List (Key × Value)}

theorem valueFields_ok {fields : List Json} {taken values : List (Key × Value)}
    (h : r.valueFields inner path taken fields entries = .ok values) :
    ∀ f ∈ fields, ∃ v, r.fieldValue inner path entries f = .ok v := by
  induction fields generalizing taken with
  | nil => exact List.forall_mem_nil _
  | cons g fields ih =>
    rw [Reconciler.valueFields_cons] at h
    cases hfirst : r.fieldValue inner path entries g with
    | error e =>
      rw [hfirst] at h
      cases h
    | ok v =>
      rw [hfirst] at h
      intro f hf
      obtain rfl | hf := List.mem_cons.mp hf
      · exact ⟨v, hfirst⟩
      · exact ih h f hf

/-- The fields of a document, each with a value of its own. -/
def shownFields (purpose : String) (fields : List Json) (view : Json → Value) :
    List (Key × Value) := Binary.entriesFor (altName · purpose) view fields

/-- A record that has a value has one for every field. -/
theorem valueNode_record_ok (hplain : Plain inner node) (hkind : typeName node = "record")
    (hnames : ((fieldsOf node).map (altName · r.options.altNamesKey)).Nodup) {v : Value}
    (h : r.valueNode inner path node (.struct entries) = .ok v) :
    ∃ view : Json → Value, v = .struct (shownFields r.options.altNamesKey (fieldsOf node) view) ∧
      ∀ f ∈ fieldsOf node, r.fieldValue inner path entries f = .ok (view f) := by
  rw [valueNode_plain hplain, Reconciler.valuePlain, if_pos hkind] at h
  cases hvalues : r.valueFields inner path [] (fieldsOf node) entries with
  | error e =>
    rw [hvalues] at h
    cases h
  | ok values =>
    have hview : ∀ f ∈ fieldsOf node, r.fieldValue inner path entries f =
        .ok ((r.fieldValue inner path entries f).toOption.getD .null) := by
      intro f hf
      obtain ⟨v, hv⟩ := valueFields_ok hvalues f hf
      rw [hv]
      rfl
    have hall : r.valueFields inner path [] ((fieldsOf node).map id) entries = .ok ([] ++ _) :=
      valueFields_map hnames hview fun _ _ => List.not_mem_nil
    rw [List.map_id, hvalues] at hall
    refine ⟨_, ?_, hview⟩
    rw [hvalues] at h
    simp only at h
    have hstruct : Value.struct values = v := by
      split at h
      · split at h
        · cases h
        · exact Except.ok.inj h
      · exact Except.ok.inj h
    rw [← hstruct, Except.ok.inj hall]
    rfl

/-- For a reader that is not strict, a record has a value when every field has one. -/
theorem valueNode_record_of (hplain : Plain inner node) (hkind : typeName node = "record")
    (hlenient : r.strict = false)
    (hnames : ((fieldsOf node).map (altName · r.options.altNamesKey)).Nodup) {view : Json → Value}
    (h : ∀ f ∈ fieldsOf node, r.fieldValue inner path entries f = .ok (view f)) :
    r.valueNode inner path node (.struct entries) =
      .ok (.struct (shownFields r.options.altNamesKey (fieldsOf node) view)) := by
  have hall : r.valueFields inner path [] ((fieldsOf node).map id) entries = .ok ([] ++ _) :=
    valueFields_map hnames h fun _ _ => List.not_mem_nil
  rw [List.map_id] at hall
  rw [valueNode_plain hplain, Reconciler.valuePlain, if_pos hkind]
  simp only [hall, hlenient]
  rfl

variable {pieces : List Piece} {stored : Piece → Value}

/-- A field that the older schema has is found under its own name. -/
theorem sourceName?_kept (hnames : (pieces.map fun p => nameOf p.node).Nodup) {p : Piece}
    (hp : p ∈ pieces) (hname : nameOf f = nameOf p.node) :
    Decoding.sourceName? (Binary.entriesFor (fun p => nameOf p.node) stored pieces) f =
      some (nameOf f) := by
  refine List.find?_cons_of_pos ?_
  rw [hname, Binary.member?_entriesFor hnames hp]
  rfl

/-- A field that the older schema has gets its data, under the name of the field there. -/
theorem fieldValue_kept (hnames : (pieces.map fun p => nameOf p.node).Nodup) {p : Piece}
    (hp : p ∈ pieces) (hname : nameOf f = nameOf p.node) :
    r.fieldValue inner path (Binary.entriesFor (fun p => nameOf p.node) stored pieces) f =
      r.valueNode inner (Pointer.child path (altName f r.options.altNamesKey)) (typeOf f)
        (stored p) := by
  have hmember : Value.member? (nameOf f)
      (Binary.entriesFor (fun p => nameOf p.node) stored pieces) = some (stored p) := by
    rw [hname]
    exact Binary.member?_entriesFor hnames hp
  rw [Reconciler.fieldValue, sourceName?_kept hnames hp hname]
  simp only [hmember]

/-- A field that is new gets null or its default. -/
theorem fieldValue_added (h : Addition (pieces.map (·.node)) f) :
    r.fieldValue inner path (Binary.entriesFor (fun p => nameOf p.node) stored pieces) f =
      .ok (addedValue f) := by
  have hsource : Decoding.sourceName? (Binary.entriesFor (fun p => nameOf p.node) stored pieces) f =
      none := by
    refine List.find?_eq_none.mpr fun name hname => ?_
    have hnew := h.new name hname
    rw [List.map_map] at hnew
    have hnone : Value.member? name
        (Binary.entriesFor (fun p => nameOf p.node) stored pieces) = none := by
      rw [Value.member?_eq_none]
      intro hmem
      rw [Binary.entriesFor, List.map_map] at hmem
      obtain ⟨p, hp, hkey⟩ := List.mem_map.mp hmem
      exact hnew (List.mem_map.mpr ⟨p, hp, Key.text.inj hkey⟩)
    rw [hnone]
    exact Bool.false_ne_true
  rw [Reconciler.fieldValue, hsource]
  simp only [Decoding.absentValue, addedValue]
  by_cases hnull : isNullable (typeOf f) = true
  · rw [if_pos hnull, if_pos hnull]
  · rw [if_neg hnull, if_neg hnull]
    obtain hoptional | hdefault := h.optional
    · exact absurd hoptional hnull
    · obtain ⟨default, hdefault⟩ := Option.isSome_iff_exists.mp hdefault
      rw [hdefault]
      rfl

/-- A field of a newer record has data in the older one, or it is new. -/
theorem fieldValue_revised {older : Json} (hfields : fieldsOf older = pieces.map (·.node))
    (hnames : (pieces.map fun p => nameOf p.node).Nodup)
    (hadded : nameOf f ∉ (fieldsOf older).map nameOf → Addition (fieldsOf older) f) :
    (∃ p ∈ pieces, p.node ∈ fieldsOf older ∧ nameOf f = nameOf p.node ∧
      r.fieldValue inner path (Binary.entriesFor (fun p => nameOf p.node) stored pieces) f =
        r.valueNode inner (Pointer.child path (altName f r.options.altNamesKey)) (typeOf f)
          (stored p)) ∨
    nameOf f ∉ (fieldsOf older).map nameOf ∧
      r.fieldValue inner path (Binary.entriesFor (fun p => nameOf p.node) stored pieces) f =
        .ok (addedValue f) := by
  by_cases hold : nameOf f ∈ (fieldsOf older).map nameOf
  · obtain ⟨g, hg, hname⟩ := List.mem_map.mp hold
    obtain ⟨p, hp, rfl⟩ := List.mem_map.mp (hfields ▸ hg)
    exact .inl ⟨p, hp, hg, hname.symm, fieldValue_kept hnames hp hname.symm⟩
  · exact .inr ⟨hold, fieldValue_added (hfields ▸ hadded hold)⟩

end fields

end parts

/-! ## Data of a revised schema -/

section reading

variable {w r : Reconciler} {types : Declarations} {schema older newer : Json}
  {decls : List (String × Json)} {enclosing enclosing' inner inner' path path' purpose : String}
  {l : Layout} {datum v : Value}

theorem projects_items {items items' : Json} {vs values : List Value}
    (h : ∀ d ∈ vs, ∀ path v, w.valueNode inner path items d = .ok v → ∀ path',
      r.valueNode inner' path' items' d = .ok (project purpose items items' v))
    {index index' : Nat} (hvalues : w.valueItems inner path index items vs = .ok values) :
    r.valueItems inner' path' index' items' vs =
      .ok (projectItems purpose items items' values) := by
  induction vs generalizing index index' values with
  | nil =>
    rw [Reconciler.valueItems] at hvalues ⊢
    cases hvalues
    rw [projectItems]
  | cons d vs ih =>
    rw [Reconciler.valueItems] at hvalues ⊢
    cases hfirst : w.valueNode inner (Pointer.item path index) items d with
    | error e =>
      rw [hfirst] at hvalues
      cases hvalues
    | ok first =>
      rw [hfirst] at hvalues
      cases hrest : w.valueItems inner path (index + 1) items vs with
      | error e =>
        simp only [hrest] at hvalues
        cases hvalues
      | ok rest =>
        simp only [hrest] at hvalues
        cases hvalues
        rw [h d List.mem_cons_self _ _ hfirst]
        simp only [ih (fun d hd => h d (List.mem_cons_of_mem _ hd)) hrest]
        rw [projectItems]

/-- The value of a field in a projection, from a document with all fields of the older schema. -/
theorem projectField_kept {f g : Json} {fields : List Json} {view : Json → Value}
    (hnames : (fields.map nameOf).Nodup) (hkeys : (fields.map (altName · purpose)).Nodup)
    (hg : g ∈ fields) (hname : nameOf f = nameOf g) (hsame : SameBut "type" g f) :
    projectField purpose fields (shownFields purpose fields view) f =
      project purpose (typeOf g) (typeOf f) (view g) := by
  have hfind : fields.find? (fun g => nameOf g = nameOf f) = some g := by
    cases hfind : fields.find? (fun g => nameOf g = nameOf f) with
    | none =>
      rw [List.find?_eq_none] at hfind
      exact absurd (by simpa using hname.symm) (hfind g hg)
    | some g' =>
      have hg' : nameOf g' = nameOf f := by simpa using List.find?_some hfind
      rw [List.inj_on_of_nodup_map hnames (List.mem_of_find?_eq_some hfind) hg (hg'.trans hname)]
  have hkey : altName f purpose = altName g purpose := by
    rw [altName, altName, altName?, altName?, hsame "altnames" (by decide),
      hsame "name" (by decide)]
  have hmember : Value.member? (altName f purpose) (shownFields purpose fields view) =
      some (view g) := by
    rw [hkey]
    exact Binary.member?_entriesFor hkeys hg
  rw [projectField, hfind]
  simp only
  split
  · rename_i hnone
    rw [hmember] at hnone
    cases hnone
  · rename_i v hv
    rw [hmember] at hv
    cases hv
    rfl

theorem projectField_added {f : Json} {fields : List Json} {entries : List (Key × Value)}
    (h : nameOf f ∉ fields.map nameOf) : projectField purpose fields entries f = addedValue f := by
  have hfind : fields.find? (fun g => nameOf g = nameOf f) = none := by
    refine List.find?_eq_none.mpr fun g hg hname => h ?_
    rw [← of_decide_eq_true hname]
    exact List.mem_map_of_mem hg
  rw [projectField, hfind]

theorem project_union {members : List (Json × Json)} {m : Json × Json}
    (hnull : ∀ m ∈ members, isNullMember m.2 = isNullMember m.1)
    (hfind : members.find? (fun m => !isNullMember m.1) = some m) (hwriter : Standalone m.1)
    (hreader : Standalone m.2) :
    project purpose (.arr (members.map (·.1))) (.arr (members.map (·.2))) v =
      project purpose m.1 m.2 v := by
  refine project_congr ?_ ?_ v
  · rw [nonNull_standalone hwriter, nonNull, find?_first, hfind]
    rfl
  · rw [nonNull_standalone hreader, nonNull, find?_revised hnull, hfind]
    rfl

/-- The revised schema makes the projection of whatever the first one makes. -/
theorem Revises.projects (h : Revises older newer) (hoptions : r.options = w.options)
    (hlenient : r.strict = false) (hfree : ReferenceFree schema)
    (holder : DistinctAltNames w.options.altNamesKey older)
    (hnewer : DistinctAltNames w.options.altNamesKey newer)
    (hwithin : Within (TypeIn schema) schema decls enclosing older l)
    (hshaped : Binary.Shaped types Binary.Stored l datum)
    (hvalue : w.valueNode enclosing path older datum = .ok v) :
    r.valueNode enclosing' path' newer datum =
      .ok (project w.options.altNamesKey older newer v) := by
  induction h generalizing enclosing enclosing' path path' l datum v with
  | @leaf node hunion harray hrecord =>
    have halone := hwithin.standalone hfree hunion
    rw [halone.valueNode_eq] at hvalue ⊢
    rw [project_leaf halone harray hrecord]
    have hform := hwithin.form_standalone halone
    cases hform with
    | primitive hkind =>
      rw [valueNode_primitive (halone.plain _) hkind] at hvalue ⊢
      rw [hoptions]
      exact scalarValue_anywhere hvalue path'
    | array hkind => exact absurd hkind harray
    | record hkind => exact absurd hkind hrecord
  | @union members h ih =>
    -- The members agree in which of them is null, so both unions choose at the same place.
    have halone : ∀ m ∈ members, Standalone m.1 := fun m hm =>
      hwithin.standalone_members hfree m.1 (List.mem_map_of_mem hm)
    have hnull : ∀ m ∈ members, isNullMember m.2 = isNullMember m.1 :=
      fun m hm => (h m hm).isNullMember_eq (halone m hm)
    rw [Reconciler.valueNode_union] at hvalue ⊢
    rw [isNullable_revised hnull, find?_revised hnull]
    by_cases hdatum : datum = .null
    · subst hdatum
      rw [Encoding.isNull, if_pos rfl] at hvalue ⊢
      split at hvalue
      · rename_i hnullable
        cases hvalue
        rw [if_pos hnullable]
        exact congrArg Except.ok project_null.symm
      · cases hvalue
    · rw [Encoding.isNull_eq hdatum, if_neg Bool.false_ne_true] at hvalue ⊢
      rw [find?_first] at hvalue
      cases hfind : members.find? fun m => !isNullMember m.1 with
      | none =>
        rw [hfind] at hvalue
        cases hvalue
      | some m =>
        rw [hfind] at hvalue
        have hm := List.mem_of_find?_eq_some hfind
        obtain ⟨l', hmember, hinner⟩ := hwithin.present (fun _ h => h) hshaped hdatum
          (find?_first.trans (congrArg (Option.map Prod.fst) hfind))
        rw [project_union hnull hfind (halone m hm) ((h m hm).standalone (halone m hm)).2]
        exact ih m hm (holder.inner (List.mem_map_of_mem hm))
          (hnewer.inner (List.mem_map_of_mem hm)) hmember hinner hvalue
  | @array older newer hkind hsame h ih =>
    have halone : Standalone older :=
      hwithin.standalone hfree (not_union_of_kind hkind (by decide))
    obtain ⟨ms, ks, rfl, rfl, hkind'⟩ := hsame.objects (by decide) halone hkind rfl (by decide)
    have halone' : Standalone (.obj ks) := .inl rfl
    obtain ⟨items, rfl, hitems⟩ := hwithin.items_standalone halone hkind
    obtain ⟨vs, rfl, hall⟩ := shaped_list hshaped
    rw [halone.valueNode_eq, valueNode_array (halone.plain _) hkind] at hvalue
    split at hvalue
    · cases hvalue
    rename_i values hvalues
    cases hvalue
    have hresult : r.valueItems (innerOf (.obj ks) enclosing') path' 0 (itemsOf (.obj ks)) vs =
        .ok (projectItems w.options.altNamesKey (itemsOf (.obj ms)) (itemsOf (.obj ks)) values) :=
      projects_items (fun d hd path v hv path' =>
        ih (holder.items hkind) (hnewer.items hkind') hitems (hall d hd) hv) hvalues
    rw [halone'.valueNode_eq, valueNode_array (halone'.plain _) hkind', hresult,
      project_list halone halone' hkind']
  | @record older newer hkind hsame hkept h hadded ih =>
    have halone : Standalone older :=
      hwithin.standalone hfree (not_union_of_kind hkind (by decide))
    obtain ⟨ms, ks, rfl, rfl, hkind'⟩ := hsame.objects (by decide) halone hkind rfl (by decide)
    have halone' : Standalone (.obj ks) := .inl rfl
    obtain ⟨name, pieces, rfl, hfields, hnames, hpieces⟩ :=
      hwithin.fields_standalone halone hkind
    obtain ⟨stored, rfl, hparts⟩ := shaped_struct hshaped
    rw [halone.valueNode_eq] at hvalue
    obtain ⟨view, rfl, hview⟩ := valueNode_record_ok (halone.plain _) hkind
      (holder _ .whole hkind) hvalue
    -- The data are looked up by the names of fields, the projection by their alternate names.
    have hall : ∀ f ∈ fieldsOf (.obj ks), r.fieldValue (innerOf (.obj ks) enclosing') path'
        (Binary.entriesFor (fun p => nameOf p.node) stored pieces) f =
          .ok (projectField w.options.altNamesKey (fieldsOf (.obj ms))
            (shownFields w.options.altNamesKey (fieldsOf (.obj ms)) view) f) := by
      intro f hf
      obtain ⟨p, hp, hg, hname, hvalue⟩ | ⟨hnew, hvalue⟩ :=
        fieldValue_revised hfields hnames (hadded f hf)
      · have hfirst := hview p.node hg
        rw [fieldValue_kept hnames hp rfl] at hfirst
        rw [hvalue, projectField_kept (by rwa [hfields, List.map_map])
          (holder _ .whole hkind) hg hname (hkept _ hg f hf hname)]
        exact ih _ hg f hf hname (holder.field hkind hg) (hnewer.field hkind' hf)
          (hpieces p hp) (hparts p hp) hfirst
      · rw [projectField_added hnew]
        exact hvalue
    rw [halone'.valueNode_eq, valueNode_record_of (halone'.plain _) hkind' hlenient
      (hoptions ▸ hnewer _ .whole hkind') hall, hoptions, project_struct halone halone' hkind']
    rfl

/-! ## Data that do not fit -/

section failsOnly

open Decoding (FailsOnly)

variable {Q : Failure → Prop}

theorem failsOnly_ok {α : Type} (a : α) : FailsOnly Q (.ok a) := fun _ h => nomatch h

theorem failsOnly_mismatch (hQ : ∀ m, Q (.mismatch m)) {α : Type} {expected : Json}
    {fault : MismatchFault} : FailsOnly Q (Decoding.mismatch path expected fault : Except Failure α) := by
  intro e h
  cases h
  exact hQ _

/-- What fails with the failure of another outcome fails like it. -/
theorem failsOnly_error {α β : Type} {outcome : Except Failure α} {e : Failure}
    (h : FailsOnly Q outcome) (he : outcome = .error e) :
    FailsOnly Q (.error e : Except Failure β) := by
  intro e' he'
  cases he'
  exact h e he

theorem failsOnly_items {items : Json} {vs : List Value}
    (h : ∀ d ∈ vs, ∀ path, FailsOnly Q (r.valueNode inner path items d)) (index : Nat) :
    FailsOnly Q (r.valueItems inner path index items vs) := by
  induction vs generalizing index with
  | nil =>
    rw [Reconciler.valueItems]
    exact failsOnly_ok _
  | cons d vs ih =>
    rw [Reconciler.valueItems]
    split
    · rename_i he
      exact failsOnly_error (h d List.mem_cons_self _) he
    split
    · rename_i he
      exact failsOnly_error (ih (fun d hd => h d (List.mem_cons_of_mem _ hd)) _) he
    · exact failsOnly_ok _

theorem failsOnly_array {node : Json} {vs : List Value} (hplain : Plain inner node)
    (hkind : typeName node = "array")
    (h : ∀ d ∈ vs, ∀ path, FailsOnly Q (r.valueNode inner path (itemsOf node) d)) :
    FailsOnly Q (r.valueNode inner path node (.list vs)) := by
  rw [valueNode_array hplain hkind]
  split
  · rename_i he
    exact failsOnly_error (failsOnly_items h 0) he
  · exact failsOnly_ok _

theorem failsOnly_fields {fields : List Json} {entries : List (Key × Value)}
    (h : ∀ f ∈ fields, FailsOnly Q (r.fieldValue inner path entries f))
    (taken : List (Key × Value)) : FailsOnly Q (r.valueFields inner path taken fields entries) := by
  induction fields generalizing taken with
  | nil =>
    rw [Reconciler.valueFields]
    exact failsOnly_ok _
  | cons f fields ih =>
    rw [Reconciler.valueFields_cons]
    split
    · rename_i he
      exact failsOnly_error (h f List.mem_cons_self) he
    · exact ih (fun f hf => h f (List.mem_cons_of_mem _ hf)) _

theorem failsOnly_known (hQ : ∀ m, Q (.mismatch m)) {schema : Json} {known : List String}
    (entries : List (Key × Value)) :
    FailsOnly Q (Decoding.checkKnown path schema known entries) := by
  induction entries with
  | nil => exact failsOnly_ok _
  | cons entry entries ih =>
    rw [Decoding.checkKnown]
    split
    · exact ih
    · exact failsOnly_mismatch hQ

theorem failsOnly_record (hQ : ∀ m, Q (.mismatch m)) {node : Json} {entries : List (Key × Value)}
    (hplain : Plain inner node) (hkind : typeName node = "record")
    (h : ∀ f ∈ fieldsOf node, FailsOnly Q (r.fieldValue inner path entries f)) :
    FailsOnly Q (r.valueNode inner path node (.struct entries)) := by
  rw [valueNode_plain hplain, Reconciler.valuePlain, if_pos hkind]
  split
  · rename_i he
    exact failsOnly_error (failsOnly_fields h []) he
  split
  · split
    · rename_i he
      exact failsOnly_error (failsOnly_known hQ entries) he
    · exact failsOnly_ok _
  · exact failsOnly_ok _

/-- At a union a datum fails as it does at the member that is not null. -/
theorem failsOnly_union (hQ : ∀ m, Q (.mismatch m)) {members : List Json} {enclosing : String}
    (h : ∀ member, members.find? (fun m => !isNullMember m) = some member → datum ≠ .null →
      FailsOnly Q (r.valueNode enclosing path member datum)) :
    FailsOnly Q (r.valueNode enclosing path (.arr members) datum) := by
  rw [Reconciler.valueNode_union]
  by_cases hdatum : datum = .null
  · rw [hdatum, Encoding.isNull, if_pos rfl]
    split
    · exact failsOnly_ok _
    · exact failsOnly_mismatch hQ
  · rw [Encoding.isNull_eq hdatum, if_neg Bool.false_ne_true]
    split
    · exact failsOnly_mismatch hQ
    · rename_i member hfind
      exact h member hfind hdatum

open Decoding (Settled)

/-- Under a revised schema, data that decimal arithmetic can take have a value or do not fit. -/
theorem Revises.settles (h : Revises older newer) (hfree : ReferenceFree schema)
    (hwithin : Within (TypeIn schema) schema decls enclosing older l)
    (hshaped : Binary.Shaped types Binary.Usable l datum) :
    Settled (r.valueNode enclosing' path' newer datum) := by
  induction h generalizing enclosing enclosing' path' l datum with
  | @leaf node hunion harray hrecord =>
    have halone := hwithin.standalone hfree hunion
    rw [halone.valueNode_eq]
    have hform := hwithin.form_standalone halone
    cases hform with
    | primitive hkind hmeaning =>
      cases hshaped with
      | primitive husable =>
        rw [valueNode_primitive (halone.plain _) hkind]
        exact scalarValue_settled hkind hmeaning husable
    | array hkind => exact absurd hkind harray
    | record hkind => exact absurd hkind hrecord
  | @union members h ih =>
    have halone : ∀ m ∈ members, Standalone m.1 := fun m hm =>
      hwithin.standalone_members hfree m.1 (List.mem_map_of_mem hm)
    have hnull : ∀ m ∈ members, isNullMember m.2 = isNullMember m.1 :=
      fun m hm => (h m hm).isNullMember_eq (halone m hm)
    refine failsOnly_union (fun m => ⟨m, rfl⟩) fun member hfind hdatum => ?_
    rw [find?_revised hnull, Option.map_eq_some_iff] at hfind
    obtain ⟨m, hfind, rfl⟩ := hfind
    obtain ⟨l', hmember, hinner⟩ := hwithin.present (fun _ h => h.1) hshaped hdatum
      (find?_first.trans (congrArg (Option.map Prod.fst) hfind))
    exact ih m (List.mem_of_find?_eq_some hfind) hmember hinner
  | @array older newer hkind hsame h ih =>
    have halone : Standalone older :=
      hwithin.standalone hfree (not_union_of_kind hkind (by decide))
    obtain ⟨ms, ks, rfl, rfl, hkind'⟩ := hsame.objects (by decide) halone hkind rfl (by decide)
    have halone' : Standalone (.obj ks) := .inl rfl
    obtain ⟨items, rfl, hitems⟩ := hwithin.items_standalone halone hkind
    obtain ⟨vs, rfl, hall⟩ := shaped_list hshaped
    rw [halone'.valueNode_eq]
    exact failsOnly_array (halone'.plain _) hkind' fun d hd path => ih hitems (hall d hd)
  | @record older newer hkind hsame hkept h hadded ih =>
    have halone : Standalone older :=
      hwithin.standalone hfree (not_union_of_kind hkind (by decide))
    obtain ⟨ms, ks, rfl, rfl, hkind'⟩ := hsame.objects (by decide) halone hkind rfl (by decide)
    have halone' : Standalone (.obj ks) := .inl rfl
    obtain ⟨name, pieces, rfl, hfields, hnames, hpieces⟩ :=
      hwithin.fields_standalone halone hkind
    obtain ⟨stored, rfl, hparts⟩ := shaped_struct hshaped
    rw [halone'.valueNode_eq]
    refine failsOnly_record (fun m => ⟨m, rfl⟩) (halone'.plain _) hkind' fun f hf => ?_
    obtain ⟨p, hp, hg, hname, hvalue⟩ | ⟨-, hvalue⟩ :=
      fieldValue_revised hfields hnames (hadded f hf)
    · rw [hvalue]
      exact ih _ hg f hf hname (hpieces p hp) (hparts p hp)
    · rw [hvalue]
      exact failsOnly_ok _

end failsOnly

end reading

end Schema
end AvroDocument
