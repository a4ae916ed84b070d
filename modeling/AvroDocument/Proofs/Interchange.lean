import AvroDocument.Proofs.ContainerPath
import AvroDocument.Proofs.Decisions
import AvroDocument.Proofs.Matching
import AvroDocument.Proofs.NormalForms
import AvroDocument.Proofs.WellFormed
import Mathlib

/-!
# AvroDocument.Proofs.Interchange

Which schemas without references are equivalent.

* `Schema.Interchangeable`: schemas that differ in the order of fields and union members, in notes,
  and in how names and primitive types are spelled.
* `interchangeable_union`, `interchangeable_array`, `interchangeable_record`: what that means for
  each kind of node.
* `Forms.same_iff`: normal forms are the same document exactly for such nodes.
* `equivalent_iff`: exactly such schemas are equivalent.
* `inferSchema_referenceFree`, `inferSchema_equivalent`: inferred schemas refer to no declared type,
  so the same holds of them.
-/

namespace AvroDocument

namespace Json

/-! ## Equality of documents -/

theorem sameItems_iff {js ks : List Json} :
    sameItems js ks = true ↔ List.Forall₂ (fun j k => j.same k = true) js ks := by
  induction js generalizing ks with
  | nil => cases ks <;> simp [sameItems]
  | cons j js ih =>
    cases ks with
    | nil => simp [sameItems]
    | cons k ks => rw [sameItems, Bool.and_eq_true, ih, List.forall₂_cons]

theorem same_str_left {s : String} {j : Json} : (str s).same j = true ↔ j = str s := by
  cases j with
  | str t =>
    rw [same, beq_iff_eq, str.injEq]
    exact eq_comm
  | _ => simp [same]

theorem same_str_right {s : String} {j : Json} : j.same (str s) = true ↔ j = str s := by
  cases j <;> simp [same]

theorem sameMembers_lookup {ms ns : List (String × Json)} (h : sameMembers ms ns = true)
    {key : String} {j : Json} (hmem : (key, j) ∈ ms) :
    ∃ k, lookup? key ns = some k ∧ j.same k = true := by
  induction ms with
  | nil => cases hmem
  | cons m ms ih =>
    rw [sameMembers] at h
    split at h
    · rename_i k hlookup
      rw [Bool.and_eq_true] at h
      obtain rfl | hmem := List.mem_cons.mp hmem
      · exact ⟨k, hlookup, h.1⟩
      · exact ih h.2 hmem
    · cases h

/-- An object with the same one member. -/
theorem same_single_left {key s : String} {ns : List (String × Json)}
    (h : (obj [(key, str s)]).same (obj ns) = true) : ns = [(key, str s)] := by
  rw [same, Bool.and_eq_true, beq_iff_eq] at h
  obtain ⟨n, rfl⟩ := List.length_eq_one_iff.mp h.1.symm
  obtain ⟨k, hlookup, hsame⟩ := sameMembers_lookup h.2 List.mem_cons_self
  obtain rfl := same_str_left.mp hsame
  rw [List.mem_singleton.mp (mem_of_lookup? hlookup)]

theorem same_single_right {key s : String} {ms : List (String × Json)}
    (h : (obj ms).same (obj [(key, str s)]) = true) : ms = [(key, str s)] := by
  rw [same, Bool.and_eq_true, beq_iff_eq] at h
  obtain ⟨⟨key', j⟩, rfl⟩ := List.length_eq_one_iff.mp h.1
  obtain ⟨k, hlookup, hsame⟩ := sameMembers_lookup h.2 List.mem_cons_self
  obtain ⟨rfl, rfl⟩ := Prod.mk.inj (List.mem_singleton.mp (mem_of_lookup? hlookup))
  rw [same_str_right.mp hsame]

end Json

namespace Schema

variable {mayOmit : Bool} {enclosing : String} {a b : Json}

/-! ## Interchangeable schemas -/

/-- What a primitive node says beside its notes. -/
def saysOf : Json → Json
  | .str name => .obj [("type", .str name)]
  | .obj ms => .obj (ms.filter fun m => m.1 ≠ "doc")
  | node => node

/-- Whether two nodes say the same under a key, or both nothing. -/
def SameMember (key : String) (j k : Json) : Prop :=
  Option.Rel (fun x y => x.same y = true) (j.get? key) (k.get? key)

/-- Nodes that can be turned into each other inside a namespace: by putting record fields and union
members in another order; by adding and removing what says nothing of the structure, which on
primitive nodes is notes only; by spelling a full name in another way; and by writing a primitive
type as its name or as an object. Where a record without fields may omit its list of fields, that is
one more. -/
inductive Interchangeable (mayOmit : Bool) : String → Json → Json → Prop
  | primitive {enclosing : String} {a b : Json} (ha : primitiveNames.contains (typeName a) = true)
      (hsame : (saysOf a).same (saysOf b) = true) : Interchangeable mayOmit enclosing a b
  | union {enclosing : String} {members : List Json} {pairs : List (Json × Json)}
      (horder : members.Perm (pairs.map (·.2)))
      (h : ∀ p ∈ pairs, Interchangeable mayOmit enclosing p.1 p.2) :
      Interchangeable mayOmit enclosing (.arr (pairs.map (·.1))) (.arr members)
  | array {enclosing : String} {a b : Json} (ha : typeName a = "array") (hb : typeName b = "array")
      (h : Interchangeable mayOmit enclosing (itemsOf a) (itemsOf b)) :
      Interchangeable mayOmit enclosing a b
  | record {enclosing : String} {a b : Json} {pairs : List (Json × Json)}
      (ha : typeName a = "record") (hb : typeName b = "record")
      (hname : fullName a enclosing = fullName b enclosing)
      (homit : mayOmit = true ∨ a.has "fields" = b.has "fields")
      (hfields : fieldsOf a = pairs.map (·.1)) (horder : (fieldsOf b).Perm (pairs.map (·.2)))
      (hfield : ∀ p ∈ pairs, SameMember "name" p.1 p.2 ∧ SameMember "default" p.1 p.2)
      (h : ∀ p ∈ pairs, Interchangeable mayOmit (splitName (fullName a enclosing)).1
        (typeOf p.1) (typeOf p.2)) :
      Interchangeable mayOmit enclosing a b

theorem typeName_arr (ms : List Json) : typeName (.arr ms) = "union" := rfl

theorem interchangeable_union {ms ns : List Json} :
    Interchangeable mayOmit enclosing (.arr ms) (.arr ns) ↔
      Matched (Interchangeable mayOmit enclosing) ms ns := by
  rw [matched_iff_pairs]
  constructor
  · intro h
    cases h with
    | primitive ha => cases ha
    | union horder h => exact ⟨_, rfl, horder, h⟩
    | array ha | record ha => exact absurd ((typeName_arr ms).symm.trans ha) (by decide)
  · rintro ⟨pairs, rfl, horder, h⟩
    exact .union horder h

theorem interchangeable_primitive (ha : primitiveNames.contains (typeName a) = true) :
    Interchangeable mayOmit enclosing a b ↔ (saysOf a).same (saysOf b) = true := by
  constructor
  · intro h
    cases h with
    | primitive _ hsame => exact hsame
    | union => cases ha
    | array hkind | record hkind => exact absurd (hkind ▸ ha) (by decide)
  · exact .primitive ha

theorem interchangeable_array (ha : typeName a = "array") (hb : typeName b = "array") :
    Interchangeable mayOmit enclosing a b ↔
      Interchangeable mayOmit enclosing (itemsOf a) (itemsOf b) := by
  constructor
  · intro h
    cases h with
    | primitive hprimitive => exact absurd (ha ▸ hprimitive) (by decide)
    | union => exact absurd ((typeName_arr _).symm.trans ha) (by decide)
    | array _ _ h => exact h
    | record hkind => exact absurd (ha.symm.trans hkind) (by decide)
  · exact .array ha hb

/-- Records are interchangeable when their full names are one and their fields can be paired off so
that names, types and defaults agree. -/
theorem interchangeable_record (ha : typeName a = "record") (hb : typeName b = "record") :
    Interchangeable mayOmit enclosing a b ↔
      fullName a enclosing = fullName b enclosing ∧
        (mayOmit = true ∨ a.has "fields" = b.has "fields") ∧
        Matched (fun f g => SameMember "name" f g ∧ SameMember "default" f g ∧
          Interchangeable mayOmit (splitName (fullName a enclosing)).1 (typeOf f) (typeOf g))
          (fieldsOf a) (fieldsOf b) := by
  rw [matched_iff_pairs]
  constructor
  · intro h
    cases h with
    | primitive hprimitive => exact absurd (ha ▸ hprimitive) (by decide)
    | union => exact absurd ((typeName_arr _).symm.trans ha) (by decide)
    | array hkind => exact absurd (ha.symm.trans hkind) (by decide)
    | record _ _ hname homit hfields horder hfield h =>
      exact ⟨hname, homit, _, hfields, horder, fun p hp =>
        ⟨(hfield p hp).1, (hfield p hp).2, h p hp⟩⟩
  · rintro ⟨hname, homit, pairs, hfields, horder, h⟩
    exact .record ha hb hname homit hfields horder (fun p hp => ⟨(h p hp).1, (h p hp).2.1⟩)
      fun p hp => (h p hp).2.2

/-! ## Normal forms of one kind -/

theorem same_typeName (h : a.same b = true) (hne : typeName a ≠ "") : typeName b = typeName a := by
  cases a with
  | str s => rw [Json.same_str_left.mp h]
  | arr js =>
    cases b with
    | arr ks => rfl
    | _ => simp [Json.same] at h
  | obj ms =>
    cases b with
    | obj ns =>
      rw [Json.same, Bool.and_eq_true] at h
      simp only [typeName, typeNode] at hne ⊢
      cases htype : lookup? "type" ms with
      | none =>
        rw [htype] at hne
        exact absurd rfl hne
      | some j =>
        rw [htype] at hne
        cases j with
        | str s =>
          obtain ⟨k, hlookup, hsame⟩ := Json.sameMembers_lookup h.2 (mem_of_lookup? htype)
          rw [hlookup, Json.same_str_left.mp hsame]
        | _ => exact absurd rfl hne
    | _ => simp [Json.same] at h
  | _ => exact absurd rfl hne

theorem typeName_saysOf (node : Json) : typeName (saysOf node) = typeName node := by
  cases node with
  | obj ms =>
    simp only [saysOf, typeName, typeNode]
    rw [lookup_filter (by decide)]
  | _ => rfl

/-- A primitive node says nothing but its type, or else its normal form is what it says. -/
theorem plainForm_cases (h : primitiveNames.contains (typeName a) = true) :
    ∃ ms, saysOf a = .obj ms ∧
      ((∃ name, ms = [("type", .str name)] ∧ plainForm a = .str name) ∨
        (∀ name, ms ≠ [("type", .str name)]) ∧ plainForm a = .obj ms) := by
  have hsays := typeName_saysOf a
  cases a with
  | str name => exact ⟨_, rfl, .inl ⟨name, rfl, rfl⟩⟩
  | obj ms =>
    refine ⟨_, rfl, ?_⟩
    simp only [plainForm, saysOf, withoutDoc] at hsays ⊢
    split
    · rename_i name hms
      rw [hms] at hsays
      have hname : typeName (.obj ms) = name := hsays.symm
      rw [hname] at h
      exact .inl ⟨name, hms, if_pos h⟩
    · rename_i hms
      exact .inr ⟨hms, rfl⟩
  | _ => cases h

theorem plainForm_same (ha : primitiveNames.contains (typeName a) = true)
    (hb : primitiveNames.contains (typeName b) = true) :
    (plainForm a).same (plainForm b) = true ↔ (saysOf a).same (saysOf b) = true := by
  obtain ⟨ms, hms, hforma⟩ := plainForm_cases ha
  obtain ⟨ns, hns, hformb⟩ := plainForm_cases hb
  rw [hms, hns]
  obtain ⟨name, rfl, hforma⟩ | ⟨hother, hforma⟩ := hforma <;>
    obtain ⟨name', rfl, hformb⟩ | ⟨hother', hformb⟩ := hformb <;>
    rw [hforma, hformb]
  · simp [Json.same, Json.sameMembers, lookup?]
  · exact iff_of_false (by simp [Json.same]) fun h => hother' name (Json.same_single_left h)
  · exact iff_of_false (by simp [Json.same]) fun h => hother name' (Json.same_single_right h)

theorem fieldForm_same {f g t u : Json} (hf : f.has "name" = true) (hg : g.has "name" = true) :
    (fieldForm f t).same (fieldForm g u) = true ↔
      SameMember "name" f g ∧ SameMember "default" f g ∧ t.same u = true := by
  obtain ⟨name, hname⟩ := Option.isSome_iff_exists.mp hf
  obtain ⟨name', hname'⟩ := Option.isSome_iff_exists.mp hg
  simp only [fieldForm, SameMember, Json.getD, hname, hname']
  cases f.get? "default" <;> cases g.get? "default" <;>
    simp [Json.same, Json.sameMembers, lookup?, and_comm]

theorem recordForm_same {name name' : String} {fs gs : List Json} :
    (recordForm name fs).same (recordForm name' gs) = true ↔
      name = name' ∧ Json.sameItems (fs.mergeSort fieldLe) (gs.mergeSort fieldLe) = true := by
  simp [recordForm, Json.same, Json.sameMembers, lookup?]

theorem arrayForm_same {j k : Json} :
    (arrayForm j).same (arrayForm k) = true ↔ j.same k = true := by
  simp [arrayForm, Json.same, Json.sameMembers, lookup?]

/-! ### Sorted parts -/

theorem isStr_iff {j : Json} {s : String} : j.isStr s = true ↔ j = .str s := by
  cases j <;> simp [Json.isStr, Json.text?]

theorem same_isStr (h : a.same b = true) (s : String) : a.isStr s = b.isStr s := by
  rw [Bool.eq_iff_iff, isStr_iff, isStr_iff]
  constructor
  · rintro rfl
    exact Json.same_str_left.mp h
  · rintro rfl
    exact Json.same_str_right.mp h

theorem memberLe_trans (j k l : Json) (hjk : memberLe j k = true) (hkl : memberLe k l = true) :
    memberLe j l = true := by
  unfold memberLe at hjk hkl ⊢
  by_cases hj : j.isStr "null" = true
  · rw [if_pos hj]
  rw [if_neg hj] at hjk ⊢
  by_cases hk : k.isStr "null" = true
  · rw [if_pos hk] at hjk
    cases hjk
  rw [if_neg hk] at hjk hkl
  by_cases hl : l.isStr "null" = true
  · rw [if_pos hl] at hkl
    cases hkl
  rw [if_neg hl] at hkl ⊢
  exact Inference.leString_trans _ _ _ hjk hkl

theorem memberLe_total (j k : Json) : (memberLe j k || memberLe k j) = true := by
  unfold memberLe
  by_cases hj : j.isStr "null" = true
  · rw [if_pos hj, Bool.true_or]
  by_cases hk : k.isStr "null" = true
  · rw [if_neg hj, if_pos hk, if_pos hk, Bool.or_true]
  rw [if_neg hj, if_neg hk, if_neg hk, if_neg hj]
  exact Inference.leString_total _ _

/-- There is only one member that is not null. -/
theorem eq_of_nonNull {members : List Json} (hone : (nonNullMembers members).length ≤ 1)
    (ha : a ∈ members) (hb : b ∈ members) (hna : a.isStr "null" ≠ true)
    (hnb : b.isStr "null" ≠ true) : a = b := by
  have hmema : a ∈ nonNullMembers members := List.mem_filter.mpr ⟨ha, by simpa using hna⟩
  have hmemb : b ∈ nonNullMembers members := List.mem_filter.mpr ⟨hb, by simpa using hnb⟩
  obtain ⟨k, hk⟩ := List.length_eq_one_iff.mp
    (Nat.le_antisymm hone (List.length_pos_of_mem hmema))
  rw [hk, List.mem_singleton] at hmema hmemb
  rw [hmema, hmemb]

theorem unionForm_same {ms ns : List Json} (hms : (nonNullMembers ms).length ≤ 1)
    (hns : (nonNullMembers ns).length ≤ 1) :
    (unionForm ms).same (unionForm ns) = true ↔
      Matched (fun j k => j.same k = true) ms ns := by
  rw [unionForm, unionForm, Json.same, Json.sameItems_iff]
  refine forall₂_mergeSort_iff memberLe_trans memberLe_total ?_ ?_
  · intro j hj k hk hjk hkj
    unfold memberLe at hjk hkj
    by_cases hnj : j.isStr "null" = true
    · rw [if_pos hnj] at hkj
      split at hkj
      · rename_i hnk
        rw [isStr_iff.mp hnj, isStr_iff.mp hnk]
      · cases hkj
    · by_cases hnk : k.isStr "null" = true
      · rw [if_neg hnj, if_pos hnk] at hjk
        cases hjk
      · exact eq_of_nonNull hns hj hk hnj hnk
  · intro j hj j' hj' k hk k' hk' hsame hsame'
    unfold memberLe
    rw [← same_isStr hsame, ← same_isStr hsame']
    split
    · rfl
    rename_i hnj
    split
    · rfl
    rename_i hnj'
    rw [eq_of_nonNull hms hj hj' hnj hnj', eq_of_nonNull hns hk hk'
      (same_isStr hsame "null" ▸ hnj) (same_isStr hsame' "null" ▸ hnj')]
    simp

theorem SameMember.nameOf_eq {f g : Json} (h : SameMember "name" f g) : nameOf f = nameOf g := by
  have htext {j k : Json} (hsame : j.same k = true) : j.text? = k.text? := by
    cases j with
    | str s => rw [Json.same_str_left.mp hsame]
    | _ =>
      cases k with
      | str s => exact congrArg Json.text? (Json.same_str_right.mp hsame)
      | _ => rfl
  unfold SameMember at h
  unfold nameOf textOf
  generalize f.get? "name" = name at h ⊢
  generalize g.get? "name" = name' at h ⊢
  cases h with
  | none => rfl
  | some hsame => exact congrArg (·.getD "") (htext hsame)

/-- The normal forms of records are the same when the names are and the fields can be paired off. -/
theorem fieldForms_same {fs gs : List (Json × Json)} {name name' : String}
    (hf : ∀ p ∈ fs, p.1.has "name" = true) (hg : ∀ p ∈ gs, p.1.has "name" = true)
    (hnames : (gs.map (nameOf ·.1)).Nodup) :
    (recordForm name (fs.map fun p => fieldForm p.1 p.2)).same
        (recordForm name' (gs.map fun p => fieldForm p.1 p.2)) = true ↔
      name = name' ∧ Matched (fun p q => SameMember "name" p.1 q.1 ∧
        SameMember "default" p.1 q.1 ∧ p.2.same q.2 = true) fs gs := by
  rw [recordForm_same, Json.sameItems_iff]
  refine and_congr_right fun _ => Iff.trans
    (forall₂_mergeSort_iff (fun _ _ _ => Inference.leString_trans _ _ _)
      (fun _ _ => Inference.leString_total _ _) ?_ ?_) ?_
  · intro j hj k hk hjk hkj
    refine eq_of_nodup_map ?_ hj hk (Inference.leString_antisymm hjk hkj)
    rw [List.map_map]
    exact (List.map_congr_left fun p hp => nameOf_fieldForm (hg p hp) p.2) ▸ hnames
  · simp only [List.forall_mem_map]
    intro p hp p' hp' q hq q' hq' hsame hsame'
    have hname := ((fieldForm_same (hf p hp) (hg q hq)).mp hsame).1.nameOf_eq
    have hname' := ((fieldForm_same (hf p' hp') (hg q' hq')).mp hsame').1.nameOf_eq
    rw [fieldLe, fieldLe, nameOf_fieldForm (hf p hp), nameOf_fieldForm (hf p' hp'),
      nameOf_fieldForm (hg q hq), nameOf_fieldForm (hg q' hq'), hname, hname']
  · rw [matched_map]
    exact matched_congr fun p hp q hq => fieldForm_same (hf p hp) (hg q hq)

/-! ## Equivalent schemas -/

section forms

variable {ja jb : Json}

theorem primitive_ne_empty (h : primitiveNames.contains (typeName a) = true) : typeName a ≠ "" := by
  intro hempty
  rw [hempty] at h
  exact absurd h (by decide)

theorem Forms.typeName_ne (h : Forms enclosing a ja) : typeName a ≠ "" := by
  cases h with
  | primitive h => exact primitive_ne_empty h
  | union => rw [typeName_arr]; decide
  | array hkind | record hkind => rw [hkind]; decide

theorem Forms.typeName_eq (h : Forms enclosing a ja) : typeName ja = typeName a := by
  cases h with
  | primitive h =>
    obtain ⟨ms, hms, hform⟩ := plainForm_cases h
    rw [← typeName_saysOf a, hms]
    obtain ⟨name, rfl, hform⟩ | ⟨-, hform⟩ := hform <;> rw [hform]
    rfl
  | union => rfl
  | array hkind | record hkind =>
    rw [hkind]
    rfl

theorem Interchangeable.typeName_eq (h : Interchangeable mayOmit enclosing a b) :
    typeName b = typeName a := by
  cases h with
  | primitive ha hsame =>
    rw [← typeName_saysOf a, ← typeName_saysOf b]
    exact same_typeName hsame (by rw [typeName_saysOf]; exact primitive_ne_empty ha)
  | union => rfl
  | array ha hb | record ha hb => rw [ha, hb]

/-- Nodes of different types have different normal forms. -/
theorem Forms.same_iff_of_ne (ha : Forms enclosing a ja) (hb : Forms enclosing b jb)
    (hne : typeName b ≠ typeName a) :
    ja.same jb = true ↔ Interchangeable mayOmit enclosing a b := by
  refine iff_of_false (fun hsame => hne ?_) fun h => hne h.typeName_eq
  rw [← ha.typeName_eq, ← hb.typeName_eq]
  exact same_typeName hsame (ha.typeName_eq ▸ ha.typeName_ne)

/-- The normal forms of two nodes are the same document exactly when the nodes are
interchangeable. -/
theorem Forms.same_iff (ha : Forms enclosing a ja) (hb : Forms enclosing b jb) :
    ja.same jb = true ↔ Interchangeable true enclosing a b := by
  induction ha generalizing b jb with
  | @primitive _ a ha =>
    by_cases hkind : typeName b = typeName a
    · cases hb with
      | primitive hb => exact (plainForm_same ha hb).trans (interchangeable_primitive ha).symm
      | union => exact absurd (hkind.symm.trans (typeName_arr _) ▸ ha) (by decide)
      | array hb | record hb => exact absurd (hkind.symm.trans hb ▸ ha) (by decide)
    · exact Forms.same_iff_of_ne (.primitive ha) hb hkind
  | @union _ pairs hone h ih =>
    by_cases hkind : typeName b = "union"
    · cases hb with
      | primitive hb => exact absurd (hkind ▸ hb) (by decide)
      | union hone' hb =>
        rw [unionForm_same hone hone', interchangeable_union, matched_map, matched_map]
        exact matched_congr fun p hp q hq => ih p hp (hb q hq)
      | array hb | record hb => exact absurd (hkind.symm.trans hb) (by decide)
    · exact Forms.same_iff_of_ne (.union hone h) hb hkind
  | @array _ ms _ harray h ih =>
    by_cases hkind : typeName b = "array"
    · cases hb with
      | primitive hb => exact absurd (hkind ▸ hb) (by decide)
      | union => exact absurd ((typeName_arr _).symm.trans hkind) (by decide)
      | array _ hb => rw [arrayForm_same, interchangeable_array harray hkind, ih hb]
      | record hb => exact absurd (hkind.symm.trans hb) (by decide)
    · exact Forms.same_iff_of_ne (.array harray h) hb (harray ▸ hkind)
  | @record _ ms pairs hrecord hfields hnamed hnames h ih =>
    by_cases hkind : typeName b = "record"
    · cases hb with
      | primitive hb => exact absurd (hkind ▸ hb) (by decide)
      | union => exact absurd ((typeName_arr _).symm.trans hkind) (by decide)
      | array hb => exact absurd (hkind.symm.trans hb) (by decide)
      | record _ hfields' hnamed' hnames' hb =>
        rw [fieldForms_same hnamed hnamed' hnames', interchangeable_record hrecord hkind, hfields,
          hfields', matched_map]
        refine and_congr_right fun hname => ?_
        rw [← hname] at hb
        rw [matched_congr fun p hp q hq =>
          and_congr_right fun _ => and_congr_right fun _ => ih p hp (hb q hq)]
        exact (and_iff_right (.inl rfl)).symm
    · exact Forms.same_iff_of_ne (.record hrecord hfields hnamed hnames h) hb (hrecord ▸ hkind)

end forms

theorem equivalent_of_layouts {layout layout' : Layout} (ha : Layout.ofSchema a = .ok layout)
    (hb : Layout.ofSchema b = .ok layout') (hca : check a = .ok (Registry.ofSchema a))
    (hcb : check b = .ok (Registry.ofSchema b)) (hfa : ReferenceFree a) (hfb : ReferenceFree b) :
    ∃ result, equivalent a b = .ok result ∧ (result = true ↔ Interchangeable true "" a b) := by
  obtain ⟨ja, hja, hforms⟩ := exists_normal ha hca hfa
  obtain ⟨jb, hjb, hforms'⟩ := exists_normal hb hcb hfb
  refine ⟨ja.same jb, ?_, hforms.same_iff hforms'⟩
  rw [equivalent, hja, hjb]

/-- A schema refers to no declared type when neither it nor a type directly inside it does. -/
theorem referenceFree_of_inner (hself : notReference a = true)
    (h : ∀ type ∈ innerTypes a, ReferenceFree type) : ReferenceFree a := by
  have hinner {type : Json} (htype : TypeIn a type) :
      type = a ∨ ∃ inner ∈ innerTypes a, TypeIn inner type := by
    induction htype with
    | whole => exact .inl rfl
    | inner _ hmem ih =>
      obtain rfl | ⟨inner, hinner, hin⟩ := ih
      · exact .inr ⟨_, hmem, .whole⟩
      · exact .inr ⟨inner, hinner, hin.inner hmem⟩
  intro name hname
  obtain rfl | ⟨inner, hmem, hin⟩ := hinner hname
  · exact hself
  · exact h inner hmem name hin

end Schema

namespace Inference

open Schema (ReferenceFree referenceFree_of_inner)

theorem referenceFree_null : ReferenceFree (.str "null") :=
  referenceFree_of_inner rfl (List.forall_mem_nil _)

theorem referenceFree_scalar {type : Json} (h : type ∈ scalarTypes) : ReferenceFree type := by
  simp only [scalarTypes_eq, List.mem_cons, List.not_mem_nil, or_false] at h
  rcases h with rfl | rfl | rfl | rfl | rfl | rfl | rfl | rfl | rfl <;>
    exact referenceFree_of_inner rfl (List.forall_mem_nil _)

theorem referenceFree_optional {o : Outline} (hk : o.KnownScalar) {altNamesKey : String}
    {names : List (Position × String)} (h : ReferenceFree (o.schema altNamesKey names))
    (nullable : Bool) :
    ReferenceFree (Outline.optional nullable (o.schema altNamesKey names)) := by
  rw [Outline.optional_schema hk]
  split
  · refine referenceFree_of_inner rfl ?_
    exact List.forall_mem_cons.mpr ⟨referenceFree_null, List.forall_mem_singleton.mpr h⟩
  · exact h

theorem Outline.Valid.referenceFree {o : Outline} (h : o.Valid) (altNamesKey : String)
    (names : List (Position × String)) : ReferenceFree (o.schema altNamesKey names) := by
  induction h with
  | null => exact referenceFree_null
  | scalar h => exact referenceFree_scalar h
  | array h ih =>
    exact referenceFree_of_inner rfl
      (List.forall_mem_singleton.mpr (referenceFree_optional h.knownScalar ih _))
  | @record site fields _ _ _ h ih =>
    refine referenceFree_of_inner rfl fun type htype => ?_
    obtain ⟨_, hfield, rfl⟩ := List.mem_map.mp htype
    rw [schema_record, fieldsOf_record, schemaFields_eq] at hfield
    obtain ⟨f, hf, rfl⟩ := List.mem_map.mp hfield
    show ReferenceFree (Schema.typeOf (fieldSchema altNamesKey names f))
    rw [typeOf_field (h f hf)]
    exact referenceFree_optional (h f hf).knownScalar (ih f hf) _

/-- Inferred schemas refer to no declared type. -/
theorem inferSchema_referenceFree {options : Options} {docs : List Value} {schema : Json}
    (h : inferSchema options docs = .ok schema) : ReferenceFree schema := by
  rw [inferSchema_scanned] at h
  obtain ⟨_, hcount, rfl⟩ := (inferSchema_ok_iff rfl).mp h
  have ho := outlined_outlineOf (fun d hd => (hcount d hd).2) options.typeName
    options.namespaceName
  exact (valid_of_outlined ho).referenceFree _ _

/-- Exactly the interchangeable ones of inferred schemas are equivalent. -/
theorem inferSchema_equivalent {options options' : Options} {docs docs' : List Value} {a b : Json}
    (ha : inferSchema options docs = .ok a) (hb : inferSchema options' docs' = .ok b) :
    ∃ result, Schema.equivalent a b = .ok result ∧
      (result = true ↔ Schema.Interchangeable true "" a b) := by
  obtain ⟨hcheck, ⟨_, hlayout⟩, -⟩ := inferSchema_wellFormed ha
  obtain ⟨hcheck', ⟨_, hlayout'⟩, -⟩ := inferSchema_wellFormed hb
  exact Schema.equivalent_of_layouts hlayout hlayout' hcheck hcheck' (inferSchema_referenceFree ha)
    (inferSchema_referenceFree hb)

end Inference

end AvroDocument
