import AvroDocument.Proofs.Reconciliation
import Mathlib.Data.List.Nodup

/-!
# AvroDocument.Proofs.Shown

Values after they were written and read.

* `Outline.shown`: what comes back for a value.
* `shown_eq_null`: only null comes back as null.
* `shown_shown`: what came back comes back as it is.
* `everywhere_shown`: what is inside it; it is supported, holds no key twice and stays in the calendar.
-/

namespace AvroDocument

/-! ## Instants in UTC -/

namespace Timestamp

theorem instant_inUtc (t : Timestamp) : t.inUtc.instant? = t.instant? := by
  obtain ⟨wall, bounded, offset⟩ := t
  cases offset with
  | none => rfl
  | some o =>
    simp only [inUtc, instant?, Option.map_some, ofInstant?, ofWall?]
    split
    · rename_i h
      rw [show Offset.utc.micros = 0 from rfl, Int.add_zero] at h
      simp only [Option.getD_some, Option.map_some, Option.some.injEq,
        show Offset.utc.micros = 0 from rfl, Int.add_zero, instantAt] at h ⊢
      omega
    · rfl

theorem inUtc_inUtc (t : Timestamp) : t.inUtc.inUtc = t.inUtc := by
  rw [inUtc, instant_inUtc]
  cases h : t.instant? with
  | none => rfl
  | some n =>
    simp only
    cases hn : ofInstant? n Offset.utc with
    | none => rfl
    | some u => rw [inUtc, h, Option.getD_some]; simp only [hn, Option.getD_some]

end Timestamp

namespace Inference

theorem storedScalar_stored (v : Value) : storedScalar (storedScalar v) = storedScalar v := by
  cases v with
  | timestamp t => exact congrArg Value.timestamp t.inUtc_inUtc
  | _ => rfl

theorem isTimely_stored {v : Value} (h : v.isTimely = true) : (storedScalar v).isTimely = true := by
  cases v with
  | timestamp t =>
    rw [storedScalar, Value.isTimely, t.instant_inUtc]
    exact h
  | byteArray bs => rfl
  | _ => exact h

theorem ne_null_of_leafType? {v : Value} {type : Json} (h : leafType? v = some type) :
    v ≠ .null := by
  rintro rfl
  cases h

/-! ## What comes back -/

/-- What comes back for a value that was written and read. -/
def Outline.shown (o : Outline) (v : Value) : Value := o.image (·.key) storedScalar v

theorem shown_null (o : Outline) : o.shown .null = .null := image_null _ _ o

theorem shown_text {v : Value} (h : v ≠ .null) :
    (Outline.scalar widest).shown v = .text v.written := image_text _ _ h

theorem shown_leaf {type : Json} {v : Value} (hw : type ≠ widest) (h : leafType? v = some type) :
    (Outline.scalar type).shown v = storedScalar v := image_leaf _ _ hw h

theorem shown_items {v : Value} {ws : List Value} (h : v.items? = some ws) (nullable : Bool)
    (items : Outline) : (Outline.array nullable items).shown v = .list (ws.map items.shown) :=
  image_items _ _ h nullable items

theorem shown_struct (site : RecordSite) (fields : List (FieldKey × Outline))
    (es : List (Key × Value)) :
    (Outline.record site fields).shown (.struct es) = .struct (fields.map fun f =>
      (.text f.1.key, f.2.shown ((Value.member? f.1.key es).getD .null))) :=
  congrArg Value.struct (fieldImages_eq _ _ fields es)

theorem nodup_entries {α : Type} {l : List α} {key : α → String} (hk : (l.map key).Nodup)
    (value : α → Value) : ((l.map fun a => (Key.text (key a), value a)).map (·.1)).Nodup := by
  have htext : (l.map fun a => (Key.text (key a), value a)).map (·.1) = (l.map key).map .text := by
    rw [List.map_map, List.map_map]
    rfl
  rw [htext]
  exact hk.map fun _ _ => Key.text.inj

/-- The entry of a field in a struct that came back. -/
theorem member?_fields {fields : List (FieldKey × Outline)} (hk : (fields.map (·.1.key)).Nodup)
    (value : FieldKey × Outline → Value) {f : FieldKey × Outline} (hf : f ∈ fields) :
    Value.member? f.1.key (fields.map fun g => (.text g.1.key, value g)) = some (value f) :=
  Value.member?_of_mem (nodup_entries hk value) (List.mem_map_of_mem hf)

/-- Only null comes back as null. -/
theorem shown_eq_null {o : Outline} {nullable : Bool} {v : Value} (h : Admits o nullable v) :
    o.shown v = .null ↔ v = .null := by
  refine ⟨fun e => ?_, fun e => e ▸ shown_null o⟩
  cases h with
  | added | nothing => rfl
  | text hn _ => rw [shown_text hn] at e; cases e
  | scalar hw ht =>
    rw [shown_leaf hw ht] at e
    exact absurd e (ne_null_of_leafType? (leafType?_stored ht))
  | list hi _ => rw [shown_items hi] at e; cases e
  | struct _ _ => rw [shown_struct] at e; cases e

/-- What came back comes back as it is. -/
theorem shown_shown {o : Outline} {nullable : Bool} {v : Value} (h : Admits o nullable v)
    (hv : o.Valid) : o.shown (o.shown v) = o.shown v := by
  induction h with
  | added | nothing => rw [shown_null, shown_null]
  | text hn _ => rw [shown_text hn, shown_text Value.noConfusion]; rfl
  | scalar hw ht =>
    rw [shown_leaf hw ht, shown_leaf hw (leafType?_stored ht), storedScalar_stored]
  | list hi _ ih =>
    cases hv with
    | array hitems =>
      rw [shown_items hi, shown_items rfl, List.map_map]
      exact congrArg Value.list (List.map_congr_left fun w hw => ih w hw hitems)
  | struct _ _ ih =>
    cases hv with
    | record hkeys _ _ hfields =>
      rw [shown_struct, shown_struct]
      refine congrArg Value.struct (List.map_congr_left fun f hf => ?_)
      rw [member?_fields hkeys _ hf, Option.getD_some, ih f hf (hfields f hf)]

/-- What holds of null, of text, of lists, of structs with distinct text keys and of what comes back for
scalars holds of everything inside a value that came back. -/
theorem everywhere_shown {p : Value → Prop} (hnull : p .null) (htext : ∀ s, p (.text s))
    (hlist : ∀ ws, p (.list ws))
    (hstruct : ∀ es : List (String × Value), (es.map (·.1)).Nodup →
      p (.struct (es.map fun e => (.text e.1, e.2))))
    (hleaf : ∀ v type, type ≠ widest → leafType? v = some type → v.isTimely = true →
      p (storedScalar v))
    {o : Outline} {nullable : Bool} {v : Value} (h : Admits o nullable v) (hv : o.Valid)
    (hc : InCalendar v) : (o.shown v).Everywhere p := by
  have alone : ∀ w : Value, w.children = [] → p w → w.Everywhere p := fun w hw hp =>
    Value.everywhere_iff.mpr ⟨hp, fun x hx => absurd (hw ▸ hx) List.not_mem_nil⟩
  induction h with
  | added | nothing =>
    rw [shown_null]
    exact alone _ rfl hnull
  | text hn _ =>
    rw [shown_text hn]
    exact alone _ rfl (htext _)
  | @scalar nullable type v hw ht =>
    rw [shown_leaf hw ht]
    refine alone _ ?_ (hleaf v type hw ht hc.here)
    cases v with
    | null | struct _ | list _ | tuple _ | set _ => cases ht
    | _ => rfl
  | @list nullable below items v ws hi _ ih =>
    cases hv with
    | array hitems =>
      rw [shown_items hi]
      refine Value.everywhere_iff.mpr ⟨hlist _, fun x hx => ?_⟩
      obtain ⟨w, hw, rfl⟩ := List.mem_map.mp (show x ∈ ws.map items.shown from hx)
      refine ih w hw hitems (hc.child ?_)
      cases v <;> cases hi <;> exact hw
  | @struct nullable site fields es _ _ ih =>
    cases hv with
    | record hkeys _ _ hfields =>
      rw [shown_struct]
      refine Value.everywhere_iff.mpr ⟨?_, fun x hx => ?_⟩
      · have hs := hstruct (fields.map fun f =>
          (f.1.key, f.2.shown ((Value.member? f.1.key es).getD .null))) (by rwa [List.map_map])
        rwa [List.map_map] at hs
      · obtain ⟨e, he, rfl⟩ := List.mem_map.mp hx
        obtain ⟨f, hf, rfl⟩ := List.mem_map.mp he
        refine ih f hf (hfields f hf) ?_
        cases hw : Value.member? f.1.key es with
        | none => exact show InCalendar .null by decide
        | some w => exact hc.entry (Value.mem_of_member? hw)

theorem isPlain_leaf {v : Value} {type : Json} (h : leafType? v = some type) :
    v.isPlain = true := by
  cases v with
  | uuid _ | set _ | missing => cases h
  | null | struct _ | list _ | tuple _ => cases h
  | _ => rfl

theorem entries_leaf {v : Value} {type : Json} (h : leafType? v = some type) : v.entries = [] := by
  cases v with
  | struct _ => cases h
  | _ => rfl

/-- Integers of more than 64 bits come back as text. -/
theorem isReadable_leaf {v : Value} {type : Json} (hw : type ≠ widest) (h : leafType? v = some type) :
    v.isReadable = true := by
  cases v with
  | int n =>
    have hn : fitsInt64 n = true := by
      by_contra hn
      exact hw (by simpa [leafType?, isLeaf, scalarType?, Value.kind?, hn] using h.symm)
    simp only [fitsInt64, Bool.and_eq_true, decide_eq_true_eq] at hn
    have hdigits : Binary64.digitCount n.natAbs ≤ 19 :=
      (Nat.length_toDigits_le_iff (by decide) (by decide)).mpr (by omega)
    exact decide_eq_true (hdigits.trans (by decide))
  | _ => rfl

section document

variable {o : Outline} {nullable : Bool} {v : Value}

theorem supported_shown (h : Admits o nullable v) (hv : o.Valid) (hc : InCalendar v) :
    Supported (o.shown v) := by
  refine everywhere_shown (p := fun w => w.isPlain = true) rfl (fun _ => rfl) (fun _ => rfl)
    (fun es _ => ?_) (fun w type _ ht _ => isPlain_leaf (leafType?_stored ht)) h hv hc
  simp [Value.isPlain, Value.kind?, Value.entries, Key.isText]

theorem distinctKeys_shown (h : Admits o nullable v) (hv : o.Valid) (hc : InCalendar v) :
    DistinctKeys (o.shown v) := by
  refine everywhere_shown List.nodup_nil (fun _ => List.nodup_nil) (fun _ => List.nodup_nil)
    (fun es hes => nodup_entries hes _) (fun w type _ ht _ => ?_) h hv hc
  rw [entries_leaf (leafType?_stored ht)]
  exact List.nodup_nil

theorem inCalendar_shown (h : Admits o nullable v) (hv : o.Valid) (hc : InCalendar v) :
    InCalendar (o.shown v) :=
  everywhere_shown (p := fun w => w.isTimely = true) rfl (fun _ => rfl) (fun _ => rfl)
    (fun _ _ => rfl) (fun _ _ _ _ => isTimely_stored) h hv hc

theorem readableIntegers_shown (h : Admits o nullable v) (hv : o.Valid) (hc : InCalendar v) :
    ReadableIntegers (o.shown v) :=
  everywhere_shown (p := fun w => w.isReadable = true) rfl (fun _ => rfl) (fun _ => rfl)
    (fun _ _ => rfl) (fun _ _ hw ht _ => isReadable_leaf hw (leafType?_stored ht)) h hv hc

end document

end Inference
end AvroDocument
