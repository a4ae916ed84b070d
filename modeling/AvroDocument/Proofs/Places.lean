import AvroDocument.Proofs.Agreement
import AvroDocument.Proofs.Exactness
import AvroDocument.Proofs.Shown
import AvroDocument.Proofs.View
import Mathlib.Data.List.Infix

/-!
# AvroDocument.Proofs.Places

Places inside documents, and what stands there after a document was written and read.

* `Place`, `Value.at?`: the way to a value inside a document.
* `Schema.Surrounds`: all containers around a place sit at records and arrays of a schema.
* `shown_at`, `view_at`: through these, what is a string by its type comes back as its text in its
  place.
-/

namespace AvroDocument

open Inference (Step Position)

/-- A step into a value: to what is under a key, or to the item with a number. -/
inductive Spot where
  | key (k : String)
  | item (n : Nat)

abbrev Place := List Spot

/-- All items of a list share one step. -/
def Spot.step : Spot → Step
  | .key k => .key k
  | .item _ => .items

def Place.position (place : Place) : Position := place.map Spot.step

/-- The value at a place inside a value. -/
def Value.at? : Place → Value → Option Value
  | [], v => some v
  | .key k :: place, v => (Value.member? k v.entries).bind (at? place)
  | .item n :: place, v => (v.items?.bind fun vs => vs[n]?).bind (at? place)

/-- What holds everywhere in a value holds everywhere in what stands at a place. -/
theorem Value.Everywhere.at_place {p : Value → Prop} {place : Place} {v w : Value}
    (h : v.Everywhere p) (hw : v.at? place = some w) : w.Everywhere p := by
  induction place generalizing v with
  | nil =>
    cases hw
    exact h
  | cons spot place ih =>
    cases spot with
    | key k =>
      rw [Value.at?, Option.bind_eq_some_iff] at hw
      obtain ⟨u, hu, hw⟩ := hw
      cases v with
      | struct es => exact ih (h.entry (Value.mem_of_member? hu)) hw
      | _ => cases hu
    | item n =>
      rw [Value.at?, Option.bind_eq_some_iff] at hw
      obtain ⟨u, hu, hw⟩ := hw
      obtain ⟨vs, hvs, hu⟩ := Option.bind_eq_some_iff.mp hu
      exact ih (h.item hvs (List.mem_of_getElem? hu)) hw

namespace Schema

/-- A type of structs or lists, maybe null as well. -/
def isContainer (node : Json) : Bool :=
  typeName (nonNull node) = "record" || typeName (nonNull node) = "array"

/-- All containers around a place sit at records and arrays of a schema. -/
def Surrounds (altNamesKey : String) (place : Place) (schema : Json) : Prop :=
  ∀ q, q <+: place.position → q ≠ place.position →
    (nodeAt? altNamesKey q schema).any isContainer = true

variable {altNamesKey : String} {spot : Spot} {place : Place} {schema : Json}

instance : Decidable (Surrounds altNamesKey place schema) :=
  decidable_of_iff (∀ q ∈ place.position.inits, q ≠ place.position →
    (nodeAt? altNamesKey q schema).any isContainer = true) (by simp only [List.mem_inits, Surrounds])

/-- A place inside a value starts at a record or an array. -/
theorem Surrounds.here (h : Surrounds altNamesKey (spot :: place) schema) :
    isContainer schema = true := h [] List.nil_prefix (List.cons_ne_nil _ _).symm

/-- The rest of a place lies in the type that its first step leads to. -/
theorem Surrounds.below (h : Surrounds altNamesKey (spot :: place) schema) {inner : Json}
    (hinner : ∀ q, nodeAt? altNamesKey (spot.step :: q) schema = nodeAt? altNamesKey q inner) :
    Surrounds altNamesKey place inner := by
  intro q hprefix hne
  rw [← hinner]
  exact h _ (List.cons_prefix_cons.mpr ⟨rfl, hprefix⟩) fun heq => hne (List.cons.inj heq).2

end Schema

namespace Inference

open Schema (Surrounds nodeAt?)

variable {altNamesKey : String} {names : List (Position × String)} {place : Place} {spot : Spot}

/-! ## Steps into schemas -/

theorem find?_key {α : Type} {l : List α} {key : α → String} (hk : (l.map key).Nodup) {a : α}
    (ha : a ∈ l) : l.find? (fun b => key b = key a) = some a := by
  induction l with
  | nil => cases ha
  | cons b l ih =>
    rw [List.map_cons, List.nodup_cons] at hk
    obtain rfl | ha := List.mem_cons.mp ha
    · rw [List.find?_cons_of_pos (by simp)]
    · have hne : key b ≠ key a := fun e => hk.1 (e ▸ List.mem_map_of_mem ha)
      rw [List.find?_cons_of_neg (by simpa using hne), ih hk.2 ha]

theorem nodeAt_field {site : RecordSite} {fields : List (FieldKey × Outline)}
    (hv : (Outline.record site fields).Valid) {f : FieldKey × Outline} (hf : f ∈ fields)
    (nullable : Bool) (q : Position) :
    nodeAt? altNamesKey (.key f.1.key :: q)
        (Outline.optional nullable ((Outline.record site fields).schema altNamesKey names)) =
      nodeAt? altNamesKey q (Outline.optional f.1.nullable (f.2.schema altNamesKey names)) := by
  rw [nodeAt?, nonNull_optional hv, fieldsOf_schema]
  obtain ⟨hkeys, hfields⟩ : (fields.map (·.1.key)).Nodup ∧ ∀ g ∈ fields, Outline.Valid g.2 := by
    cases hv with
    | record hkeys _ _ hfields => exact ⟨hkeys, hfields⟩
  have hfind : (fields.map (fieldSchema altNamesKey names)).find?
      (fun field => Schema.altName field altNamesKey = f.1.key) =
        some (fieldSchema altNamesKey names f) := by
    simp only [List.find?_map, Function.comp_def, altName_fieldSchema]
    rw [find?_key hkeys hf, Option.map_some]
  simp only [hfind, typeName_struct, if_true, Option.bind_some, typeOf_field (hfields f hf)]

theorem nodeAt_items {below : Bool} {items : Outline} (hv : (Outline.array below items).Valid)
    (nullable : Bool) (q : Position) :
    nodeAt? altNamesKey (.items :: q)
        (Outline.optional nullable ((Outline.array below items).schema altNamesKey names)) =
      nodeAt? altNamesKey q (Outline.optional below (items.schema altNamesKey names)) := by
  rw [nodeAt?, nonNull_optional hv, itemsOf_schema]
  simp only [typeName_array, if_true]

/-- A scalar has no places inside. -/
theorem not_surrounds_scalar {type : Json} (h : type ∈ scalarTypes) (nullable : Bool) :
    ¬ Surrounds altNamesKey (spot :: place)
      (Outline.optional nullable ((Outline.scalar type).schema altNamesKey names)) := by
  intro hs
  have hhere := hs.here
  rw [Schema.isContainer, nonNull_optional (.scalar h), Bool.or_eq_true, decide_eq_true_eq,
    decide_eq_true_eq] at hhere
  exact hhere.elim (typeName_scalar h).1 (typeName_scalar h).2

/-! ## What stands at a place -/

/-- Through records and arrays, a value that is a string by its type comes back as its text. -/
theorem shown_at {o : Outline} {nullable : Bool} {v w : Value} (h : Admits o nullable v)
    (hv : o.Valid) (hw : v.at? place = some w) (hwide : leafType? w = some widest)
    (hs : Surrounds altNamesKey place
      (Outline.optional nullable (o.schema altNamesKey names))) :
    (o.shown v).at? place = some (.text w.written) := by
  induction h generalizing place w with
  | added | nothing =>
    cases place with
    | nil =>
      cases hw
      cases hwide
    | cons spot place => cases spot <;> cases hw
  | @text nullable v hn _ =>
    cases place with
    | nil =>
      cases hw
      rw [shown_text hn]
      rfl
    | cons spot place => exact absurd hs (not_surrounds_scalar widest_mem nullable)
  | @scalar nullable type v hne ht =>
    cases place with
    | nil =>
      cases hw
      exact absurd (Option.some.inj (ht.symm.trans hwide)) hne
    | cons spot place => exact absurd hs (not_surrounds_scalar (leafType?_mem ht) nullable)
  | @list nullable below items v ws hi _ ih =>
    have hitems : items.Valid := by
      cases hv with
      | array hitems => exact hitems
    cases place with
    | nil =>
      cases hw
      cases v <;> cases hi <;> cases hwide
    | cons spot place =>
      cases spot with
      | key k => cases v <;> cases hi <;> cases hw
      | item n =>
        rw [Value.at?, hi, Option.bind_some, Option.bind_eq_some_iff] at hw
        obtain ⟨u, hu, hw⟩ := hw
        have hbelow := hs.below fun q => nodeAt_items hv nullable q
        rw [shown_items hi, Value.at?, Value.items?, Option.bind_some, List.getElem?_map, hu]
        exact ih u (List.mem_of_getElem? hu) hitems hw hwide hbelow
  | @struct nullable site fields es hkeys _ ih =>
    cases place with
    | nil =>
      cases hw
      cases hwide
    | cons spot place =>
      cases spot with
      | item n => cases hw
      | key k =>
        rw [Value.at?, Option.bind_eq_some_iff] at hw
        obtain ⟨u, hu, hw⟩ := hw
        obtain ⟨f, hf, hkey⟩ := hkeys _ (Value.mem_of_member? hu)
        obtain rfl := Key.text.inj hkey
        have hmember : (Value.member? f.1.key es).getD .null = u := by
          rw [show Value.member? f.1.key es = some u from hu, Option.getD_some]
        have hbelow := hs.below fun q => nodeAt_field hv hf nullable q
        cases hv with
        | record hdistinct _ _ hfields =>
          rw [shown_struct, Value.at?, Value.entries, member?_fields hdistinct _ hf,
            Option.bind_some]
          rw [← hmember] at hw
          exact ih f hf (hfields f hf) hw hwide hbelow

/-- What an inferred schema shows of a document at a place. -/
theorem view_at {options : Options} (hrows : options.rowsToScan = 0) {docs : List Value}
    (hk : ∀ d ∈ docs, DistinctKeys d) {schema : Json} (h : inferSchema options docs = .ok schema)
    {doc w : Value} (hdoc : doc ∈ docs) (hw : doc.at? place = some w)
    (hwide : leafType? w = some widest) (hs : Surrounds options.altNamesKey place schema) :
    (Schema.view options.altNamesKey schema doc).at? place = some (.text w.written) := by
  obtain ⟨-, hcount, rfl⟩ := (inferSchema_ok_iff hrows).mp h
  have hadmits : Admits (outlineOf options.typeName options.namespaceName docs) false doc :=
    admits_document hcount hk hdoc
  have hv := valid_of_outlined (outlined_outlineOf (fun d hd => (hcount d hd).2) options.typeName
    options.namespaceName)
  rw [Outline.finished, view_admits hadmits hv]
  exact shown_at hadmits hv hw hwide hs

end Inference
end AvroDocument
