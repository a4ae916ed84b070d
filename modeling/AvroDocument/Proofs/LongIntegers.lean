import AvroDocument.Proofs.Agreement
import AvroDocument.Proofs.DeclaredKeys
import AvroDocument.Proofs.ReadBack

/-!
# AvroDocument.Proofs.LongIntegers

Integers with more digits than are written as text.

* `readableIntegers_of_toText`: a value has a text only when it holds no such integer.
* `readableIntegers_of_prepared`: at the types that were inferred for it, it is prepared only then.
* `encodeRecord_iff_readableIntegers`: the documents that an inferred schema does not take are those
  that hold one.
-/

namespace AvroDocument

/-! ## Texts -/

namespace Value

theorem self_mem_spelled (v : Value) : v ∈ v.spelled := by
  cases v <;> exact List.mem_cons_self

theorem spelledItems_eq (vs : List Value) : spelledItems vs = vs.flatMap spelled := by
  induction vs with
  | nil => rfl
  | cons v vs ih => rw [spelledItems, ih, List.flatMap_cons]

theorem mem_spelledEntries {es : List (Key × Value)} {v w : Value} (hv : v ∈ es.map (·.2))
    (hw : w ∈ v.spelled) : w ∈ spelledEntries es := by
  induction es with
  | nil => cases hv
  | cons e es ih =>
    obtain ⟨k, x⟩ := e
    rw [spelledEntries]
    refine List.mem_cons_of_mem _ (List.mem_append.mpr ?_)
    obtain rfl | hv := List.mem_cons.mp hv
    · exact .inl hw
    · exact .inr (ih hv)

/-- The text of an interchange value spells what is directly inside it. -/
theorem mem_spelled_of_child {v w x : Value} (hv : v.isPlain = true) (hw : w ∈ v.children)
    (hx : x ∈ w.spelled) : x ∈ v.spelled := by
  cases v with
  | list vs | tuple vs =>
    refine List.mem_cons_of_mem _ ?_
    rw [spelledItems_eq]
    exact List.mem_flatMap.mpr ⟨w, hw, hx⟩
  | struct es => exact List.mem_cons_of_mem _ (mem_spelledEntries hw hx)
  | set vs => cases hv
  | _ => cases hw

/-- The text of an interchange value spells everything inside it. -/
theorem mem_spelled (v : Value) : Supported v → ∀ w ∈ v.parts, w ∈ v.spelled := by
  induction v using childInduction with
  | step v ih =>
    intro hs w hw
    rw [parts_eq] at hw
    obtain rfl | hw := List.mem_cons.mp hw
    · exact self_mem_spelled _
    · obtain ⟨x, hx, hw⟩ := List.mem_flatMap.mp hw
      exact mem_spelled_of_child hs.here hx (ih x hx (hs.child hx) w hw)

end Value

/-- An interchange value that has a text holds no integer that is too long. -/
theorem readableIntegers_of_toText {v : Value} {s : String} (hs : Supported v)
    (h : v.toText = .ok s) : ReadableIntegers v := by
  have huuid : ∀ s, v ≠ .uuid s := by
    rintro s rfl
    exact absurd hs.here (by simp [Value.isPlain, Value.kind?])
  have hnone : v.textFault? = none := by
    cases hfault : v.textFault? with
    | none => rfl
    | some fault => cases h.symm.trans ((toText_error_iff huuid).mpr hfault)
  intro w hw
  have hown := List.findSome?_eq_none_iff.mp hnone w (v.mem_spelled hs w hw)
  cases w with
  | int n =>
    refine decide_eq_true (Nat.not_lt.mp fun hlong => ?_)
    rw [Value.ownFault?, if_pos hlong] at hown
    cases hown
  | _ => rfl

namespace Inference

open Encoding (Visit Leads)

section prepared

variable {options : Options} {registry : Schema.Registry} {names : List (Position × String)}
  {enclosing : String}

theorem readableIntegers_of_childless {v : Value} (hv : v.children = [])
    (h : v.isReadable = true) : ReadableIntegers v := by
  refine Value.everywhere_iff.mpr ⟨h, fun w hw => ?_⟩
  rw [hv] at hw
  cases hw

/-- A scalar of a type of its own is no long integer. -/
theorem readableIntegers_of_leafType {type : Json} {v : Value} (hw : type ≠ widest)
    (h : leafType? v = some type) : ReadableIntegers v := by
  cases v with
  | int n =>
    rw [leafType?, if_pos (show isLeaf (.int n) = true from rfl), scalarType?_int,
      Option.some.injEq] at h
    split at h
    · rename_i hfits
      exact readableIntegers_of_childless rfl
        (decide_eq_true ((Coercion.digitCount_int64 hfits).trans (by decide)))
    · exact absurd h.symm hw
  | null | struct | list | tuple => cases h
  | set => cases h
  | _ => exact readableIntegers_of_childless rfl rfl

/-- What is prepared where null was added to a type is prepared at the type itself. -/
theorem prepared_of_optional {o : Outline} (hv : o.Valid) {nullable : Bool} {v : Value}
    (hn : v ≠ .null) (ht : ∀ s, v = .text s → o = .scalar widest)
    (h : Visit.Prepared options registry
      ⟨enclosing, Outline.optional nullable (o.schema options.altNamesKey names), v⟩) :
    Visit.Prepared options registry ⟨enclosing, o.schema options.altNamesKey names, v⟩ := by
  rw [Outline.optional_schema hv.knownScalar] at h
  split at h
  · rename_i hnull
    rw [Bool.and_eq_true, Bool.not_eq_true'] at hnull
    refine (Leads.member (find?_nullable (not_nullMember hv hnull.2 _)) ?_).prepared h
    rw [Encoding.isNull_eq hn, isNullText_schema ht]
    rfl
  · exact h

/-- What is coerced where only text can stand has a text. -/
theorem toText_of_coerce {path : String} {v d : Value} (hs : Supported v)
    (h : coerce options path widest v = .ok d) : ∃ s, v.toText = .ok s := by
  have hconvert : Coercion.toString v = .ok d := by
    cases v with
    | uuid _ | set _ | missing => exact absurd hs.here (by simp [Value.isPlain, Value.kind?])
    | _ =>
      unfold coerce at h
      simp only [readValue_widest] at h
      exact h
  rw [Coercion.toString] at hconvert
  split at hconvert
  · exact ⟨_, ‹_›⟩
  · cases hconvert

/-- A value that a valid outline has room for holds no integer that is too long, if it is prepared. -/
theorem readableIntegers_of_prepared {o : Outline} {nullable : Bool} {v : Value}
    (ha : Admits o nullable v) (hv : o.Valid) (hd : DistinctKeys v) (enclosing : String)
    (h : Visit.Prepared options registry
      ⟨enclosing, Outline.optional nullable (o.schema options.altNamesKey names), v⟩) :
    ReadableIntegers v := by
  induction ha generalizing enclosing with
  | added | nothing => exact readableIntegers_of_childless rfl rfl
  | text hn hs =>
    obtain ⟨path, d, hprepared⟩ := prepared_of_optional hv hn (fun _ _ => rfl) h
    rw [Outline.schema, prepare_scalar widest_mem hn] at hprepared
    obtain ⟨s, htext⟩ := toText_of_coerce hs hprepared
    exact readableIntegers_of_toText hs htext
  | scalar hw htype => exact readableIntegers_of_leafType hw htype
  | @list nullable below items v ws hi _ ih =>
    have hitems : items.Valid := by
      cases hv with
      | array hi => exact hi
    have hnode := prepared_of_optional hv (fun e => by subst e; cases hi)
      (fun s e => by subst e; cases hi) h
    have hchildren : v.children = ws ∧ v.isReadable = true := by
      cases v <;> cases hi <;> exact ⟨rfl, rfl⟩
    refine Value.everywhere_iff.mpr ⟨hchildren.2, fun w hw => ?_⟩
    rw [hchildren.1] at hw
    exact ih w hw hitems (hd.item hi hw) enclosing
      ((Leads.item (fun _ => Json.noConfusion) rfl rfl hi hw).prepared hnode)
  | @struct nullable site fields es hkeys _ ih =>
    have hfields : ∀ f ∈ fields, Outline.Valid f.2 := by
      cases hv with
      | record _ _ _ h => exact h
    have hnode := prepared_of_optional hv Value.noConfusion (fun s e => Value.noConfusion e) h
    rw [schema_fields] at hnode
    refine Value.everywhere_iff.mpr ⟨rfl, fun w hw => ?_⟩
    obtain ⟨e, he, rfl⟩ := List.mem_map.mp hw
    obtain ⟨f, hf, hkey⟩ := hkeys e he
    have hentry : Value.member? f.1.key es = some e.2 :=
      Value.member?_of_mem hd.here (by rw [← hkey]; exact he)
    have hsource : Encoding.sourceKey? options
        (Encoding.claimedNames options (fields.map (fieldSchema options.altNamesKey names))) es
        (fieldSchema options.altNamesKey names f) = some f.1.key := by
      rw [sourceKey?_field hkeys, if_pos (by rw [Encoding.hasEntry, hentry]; rfl)]
    have hbelow := ih f hf (hfields f hf)
    rw [hentry, Option.getD_some, ← typeOf_field (hfields f hf)] at hbelow
    have hrecord : Schema.fieldsOf (.obj (recordMembers names site
        (fields.map (fieldSchema options.altNamesKey names)))) =
          fields.map (fieldSchema options.altNamesKey names) := fieldsOf_record site _
    have hlead := @Leads.field options registry enclosing _ _ _ _ _ _ _
      (fun _ => Json.noConfusion) (resolve_record site _) (typeName_record ..)
      (hrecord.symm ▸ List.mem_map_of_mem hf) (hrecord.symm ▸ hsource) hentry
    exact hbelow (hd.child hw) _ (hlead.prepared hnode)

end prepared

end Inference

open Inference

/-- The documents that a schema was inferred from are written with it exactly when no integer in them
has more digits than are written as text, whatever the options for writing. -/
theorem encodeRecord_iff_readableIntegers {options job : Options} (hrows : options.rowsToScan = 0)
    (hjob : job.altNamesKey = options.altNamesKey) {docs : List Value} {schema : Json}
    (hdocs : ∀ d ∈ docs, DistinctKeys d) (h : inferSchema options docs = .ok schema) :
    ∃ e, Encoder.ofSchema job schema = .ok e ∧ ∀ doc ∈ docs,
      (∃ bytes, e.encodeRecord doc = .ok bytes) ↔ ReadableIntegers doc := by
  obtain ⟨_, hcount, rfl⟩ := (inferSchema_ok_iff hrows).mp h
  have hd : ∀ d ∈ docs, Supported d := fun d h => (hcount d h).2
  rw [← hjob]
  refine ⟨_, encoder_ofSchema hd job, fun doc hdoc => ⟨?_, ?_⟩⟩
  · rintro ⟨bytes, hbytes⟩
    obtain ⟨datum, hdatum, -⟩ := Encoder.encodeRecord_ok hbytes
    exact readableIntegers_of_prepared (admits_document hcount hdocs hdoc)
      (valid_of_outlined (outlined_outlineOf hd options.typeName options.namespaceName))
      (hdocs doc hdoc) "" ⟨Pointer.root, datum, hdatum⟩
  · exact encodeRecord_document (admits_document hcount hdocs hdoc) hd

end AvroDocument
