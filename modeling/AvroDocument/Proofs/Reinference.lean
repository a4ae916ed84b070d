import AvroDocument.Proofs.Classes
import AvroDocument.Proofs.RoundTrip
import AvroDocument.Proofs.Shown

/-!
# AvroDocument.Proofs.Reinference

Documents that came back from a container have the schema that they were written with, and come back
unchanged from then on.

* `Returned`: values that came back for others, with other nulls among them.
* `Returned.items`, `Returned.below`: what lies inside them came back too.
* `outlined_returned`: both have the same outline.
* `inferSchema_decode_encode`: inference, writing and reading a second time change nothing.
-/

namespace AvroDocument
namespace Inference

/-! ## Values beside nulls -/

/-- Some values without the nulls among them. -/
def present (vs : List Value) : List Value := vs.filter fun v => v.kind? ≠ some .null

theorem mem_present {vs : List Value} {v : Value} : v ∈ present vs ↔ v ∈ vs ∧ v ≠ .null := by
  rw [present, List.mem_filter, decide_eq_true_eq, Ne, kind?_null]

theorem present_null (vs : List Value) : present (.null :: vs) = present vs := rfl

theorem present_cons {v : Value} (h : v ≠ .null) (vs : List Value) :
    present (v :: vs) = v :: present vs :=
  List.filter_cons_of_pos (by rw [decide_eq_true_eq, Ne, kind?_null]; exact h)

/-- Nulls have nothing inside. -/
theorem flatMap_present {α : Type} {f : Value → List α} (h : f .null = []) (vs : List Value) :
    (present vs).flatMap f = vs.flatMap f := by
  induction vs with
  | nil => rfl
  | cons v vs ih =>
    by_cases hn : v = .null
    · subst hn
      rw [present_null, List.flatMap_cons, h, List.nil_append, ih]
    · rw [present_cons hn, List.flatMap_cons, List.flatMap_cons, ih]

theorem throughout_iff {p : Value → Prop} {vs : List Value} :
    Throughout p vs ↔ present vs ≠ [] ∧ ∀ v ∈ present vs, p v := by
  constructor
  · rintro ⟨⟨v, hv, hn⟩, hall⟩
    exact ⟨List.ne_nil_of_mem (mem_present.mpr ⟨hv, hn⟩), fun w hw =>
      hall w (mem_present.mp hw).1 (mem_present.mp hw).2⟩
  · rintro ⟨hne, hall⟩
    obtain ⟨v, hv⟩ := List.exists_mem_of_ne_nil _ hne
    exact ⟨⟨v, mem_present.mp hv⟩, fun w hw hn => hall w (mem_present.mpr ⟨hw, hn⟩)⟩

theorem present_eq_nil {vs : List Value} : present vs = [] ↔ ∀ v ∈ vs, v = .null := by
  simp only [List.eq_nil_iff_forall_not_mem, mem_present, not_and, ne_eq, Classical.not_not]

/-- Values that came back for others, with other nulls among them. -/
def Returned (o : Outline) (vs ws : List Value) : Prop := present ws = (present vs).map o.shown

section returned

variable {outer : String} {p : Position} {path : List String} {vs ws : List Value} {o : Outline}

theorem Returned.throughout (h : Returned o vs ws) {p q : Value → Prop} (hp : Throughout p vs)
    (hq : ∀ v ∈ vs, v ≠ .null → p v → q (o.shown v)) : Throughout q ws := by
  obtain ⟨hne, hall⟩ := throughout_iff.mp hp
  rw [throughout_iff, h]
  refine ⟨by simpa using hne, fun w hw => ?_⟩
  obtain ⟨v, hv, rfl⟩ := List.mem_map.mp hw
  obtain ⟨hmem, hn⟩ := mem_present.mp hv
  exact hq v hmem hn (hall v hv)

/-- What lies inside values that came back. -/
theorem Returned.flatMap (h : Returned o vs ws) {α : Type} {f : Value → List α}
    (hf : f .null = []) : ws.flatMap f = (present vs).flatMap fun v => f (o.shown v) := by
  rw [← flatMap_present hf, h, List.flatMap_map]

/-- Each value comes back in its place. -/
theorem returned_map (h : ∀ v ∈ vs, o.shown v = .null ↔ v = .null) :
    Returned o vs (vs.map o.shown) := by
  rw [Returned, present, present, List.filter_map]
  refine congrArg _ (List.filter_congr fun v hv => decide_eq_decide.mpr (not_congr ?_))
  rw [kind?_null, kind?_null]
  exact h v hv

/-- Values at a string position come back as text. -/
theorem Returned.texts (h : Returned (.scalar widest) vs ws) (hex : ∃ v ∈ vs, v ≠ .null) :
    classify ws = .scalar widest := by
  refine classify_scalars (h.throughout (p := fun _ => True) ⟨hex, fun _ _ _ => trivial⟩ ?_)
  intro v _ hn _
  rw [shown_text hn]
  rfl

end returned

/-! ## Lists that came back -/

theorem inside_shown {v : Value} (h : v.IsList) (nullable : Bool) (items : Outline) :
    inside .items ((Outline.array nullable items).shown v) = (inside .items v).map items.shown := by
  obtain ⟨us, hi⟩ := h.items
  rw [shown_items hi, inside, inside, hi]
  rfl

/-- The items of lists come back in their places, nulls among them. -/
theorem Returned.items {vs ws : List Value} {nullable : Bool} {items : Outline}
    (h : Returned (.array nullable items) vs ws) (hlists : Throughout Value.IsList vs) :
    ws.flatMap (inside .items) = (vs.flatMap (inside .items)).map items.shown := by
  rw [h.flatMap (inside_null _), ← flatMap_present (inside_null _) vs, List.map_flatMap]
  refine List.flatMap_congr fun v hv => inside_shown ?_ _ _
  exact (throughout_iff.mp hlists).2 v hv

theorem Returned.lists {vs ws : List Value} {nullable : Bool} {items : Outline}
    (h : Returned (.array nullable items) vs ws) (hlists : Throughout Value.IsList vs) :
    Throughout Value.IsList ws := by
  refine h.throughout hlists fun v _ _ hv => ?_
  obtain ⟨us, hi⟩ := Value.IsList.items hv
  rw [shown_items hi]
  rfl

/-! ## Structs that came back -/

theorem inside_key {v : Value} (hd : (v.entries.map (·.1)).Nodup) (key : String) :
    inside (.key key) v = (Value.member? key v.entries).toList := by
  rw [inside]
  generalize v.entries = es at hd ⊢
  induction es with
  | nil => rfl
  | cons e es ih =>
    obtain ⟨k, w⟩ := e
    rw [List.map_cons, List.nodup_cons] at hd
    rw [Value.member?]
    by_cases hk : k = .text key
    · subst hk
      have hrest : es.filter (fun e => e.1 = .text key) = [] := by
        rw [List.filter_eq_nil_iff]
        intro e he hkey
        rw [decide_eq_true_eq] at hkey
        exact hd.1 (List.mem_map.mpr ⟨e, he, hkey⟩)
      rw [List.filter_cons_of_pos (by simp), hrest, if_pos rfl]
      rfl
    · rw [List.filter_cons_of_neg (by simpa using hk), if_neg hk, ih hd.2]

theorem eraseDups_nodup {ks : List String} (h : ks.Nodup) : ks.eraseDups = ks := by
  induction ks with
  | nil => rfl
  | cons k ks ih =>
    rw [List.nodup_cons] at h
    have hself : ks.filter (fun other => !other == k) = ks := by
      rw [List.filter_eq_self]
      intro other hother
      simpa using fun e : other = k => h.1 (e ▸ hother)
    rw [List.eraseDups_cons, hself, ih h.2]

/-- Distinct keys that are observed again and again stand in the order in which they stand. -/
theorem eraseDups_repeated {α : Type} {l : List α} (hl : l ≠ []) {ks : List String}
    (h : ks.Nodup) : (l.flatMap fun _ => ks).eraseDups = ks := by
  cases l with
  | nil => exact absurd rfl hl
  | cons a l =>
    have hrest : (l.flatMap fun _ => ks).removeAll ks = [] := by
      rw [List.removeAll, List.filter_eq_nil_iff]
      intro k hk
      obtain ⟨_, _, hk⟩ := List.mem_flatMap.mp hk
      simpa using hk
    rw [List.flatMap_cons, List.eraseDups_append, hrest, eraseDups_nodup h]
    exact List.append_nil ks

/-- Values under a key, null where there is none, against those that are there. -/
theorem present_members {α : Type} {shown : Value → Value} (hnull : shown .null = .null)
    {member : α → Option Value} {l : List α}
    (h : ∀ a ∈ l, ∀ w, member a = some w → w ≠ .null → shown w ≠ .null) :
    present (l.map fun a => shown ((member a).getD .null)) =
      (present (l.flatMap fun a => (member a).toList)).map shown := by
  induction l with
  | nil => rfl
  | cons a l ih =>
    have hrest := ih fun b hb => h b (List.mem_cons_of_mem _ hb)
    rw [List.map_cons, List.flatMap_cons]
    cases ha : member a with
    | none => rw [Option.getD_none, hnull, present_null, hrest]; rfl
    | some w =>
      rw [Option.getD_some, Option.toList_some, List.singleton_append]
      by_cases hw : w = .null
      · subst hw
        rw [hnull, present_null, present_null, hrest]
      · rw [present_cons (h a List.mem_cons_self w ha hw), present_cons hw, hrest, List.map_cons]

section records

variable {outer : String} {p : Position} {path : List String} {vs ws : List Value}
  {site : RecordSite} {types : String → Outline} {key : String}

/-- The fields of the record of some structs. -/
def fieldsFrom (vs : List Value) (types : String → Outline) : List (FieldKey × Outline) :=
  (keysOf vs).map fun key => (fieldOf vs key, types key)

theorem keys_fieldsFrom (vs : List Value) (types : String → Outline) :
    (fieldsFrom vs types).map (·.1.key) = keysOf vs := by
  rw [fieldsFrom, List.map_map]
  exact List.map_id' _

theorem textKeys_shown {v : Value} (h : v.IsStruct) :
    textKeys ((Outline.record site (fieldsFrom vs types)).shown v) = keysOf vs := by
  rw [h.eq, shown_struct, ← keys_fieldsFrom vs types, textKeys, Value.entries, List.filterMap_map,
    ← List.filterMap_eq_map]
  rfl

theorem inside_struct {v : Value} (h : v.IsStruct) (hkey : key ∈ keysOf vs) :
    inside (.key key) ((Outline.record site (fieldsFrom vs types)).shown v) =
      [(types key).shown ((Value.member? key v.entries).getD .null)] := by
  have hkeys : ((fieldsFrom vs types).map (·.1.key)).Nodup := by
    rw [keys_fieldsFrom]
    exact nodup_keysOf vs
  have hf : (fieldOf vs key, types key) ∈ fieldsFrom vs types := List.mem_map_of_mem hkey
  have hmember := member?_fields hkeys
    (fun f => f.2.shown ((Value.member? f.1.key v.entries).getD .null)) hf
  rw [h.eq, shown_struct]
  exact (inside_key (v := .struct _) (nodup_entries hkeys _) key).trans
    (congrArg Option.toList hmember)

/-- Structs that came back all have the same keys, in the order of their record. -/
theorem Returned.keysOf (h : Returned (.record site (fieldsFrom vs types)) vs ws)
    (hstructs : Throughout Value.IsStruct vs) : keysOf ws = keysOf vs := by
  obtain ⟨hne, hall⟩ := throughout_iff.mp hstructs
  rw [keysOf_eq ws, h.flatMap rfl, List.flatMap_congr fun v hv => textKeys_shown (hall v hv)]
  exact eraseDups_repeated hne (nodup_keysOf vs)

/-- Under a key of such structs there is one value for each, null where the original lacks the key. -/
theorem Returned.under (h : Returned (.record site (fieldsFrom vs types)) vs ws)
    (hstructs : Throughout Value.IsStruct vs) (hkey : key ∈ Inference.keysOf vs) :
    ws.flatMap (inside (.key key)) =
      (present vs).map fun v => (types key).shown ((Value.member? key v.entries).getD .null) := by
  obtain ⟨_, hall⟩ := throughout_iff.mp hstructs
  rw [h.flatMap (inside_null _), List.map_eq_flatMap]
  exact List.flatMap_congr fun v hv => inside_struct (hall v hv) hkey

theorem under_members (hd : ∀ v ∈ vs, (v.entries.map (·.1)).Nodup) (key : String) :
    vs.flatMap (inside (.key key)) =
      (present vs).flatMap fun v => (Value.member? key v.entries).toList := by
  rw [← flatMap_present (inside_null _)]
  exact List.flatMap_congr fun v hv => inside_key (hd v (mem_present.mp hv).1) key

/-- What comes back under a key came from what was there. -/
theorem Returned.below (h : Returned (.record site (fieldsFrom vs types)) vs ws)
    (hstructs : Throughout Value.IsStruct vs) (hd : ∀ v ∈ vs, (v.entries.map (·.1)).Nodup)
    (hkey : key ∈ Inference.keysOf vs)
    (hnull : ∀ w ∈ vs.flatMap (inside (.key key)), (types key).shown w = .null ↔ w = .null) :
    Returned (types key) (vs.flatMap (inside (.key key))) (ws.flatMap (inside (.key key))) := by
  rw [Returned, h.under hstructs hkey, under_members hd]
  refine present_members (shown_null _) fun v hv w hw hn => ?_
  refine mt (hnull w ?_).mp hn
  rw [under_members hd]
  exact List.mem_flatMap.mpr ⟨v, hv, by rw [hw]; exact List.mem_singleton.mpr rfl⟩

/-- What may be missing from structs is null where it was missing, so that the same may be missing from
what came back. -/
theorem Returned.mayMiss (h : Returned (.record site (fieldsFrom vs types)) vs ws)
    (hstructs : Throughout Value.IsStruct vs) (hd : ∀ v ∈ vs, (v.entries.map (·.1)).Nodup)
    (hd' : ∀ w ∈ ws, (w.entries.map (·.1)).Nodup) (hkey : key ∈ Inference.keysOf vs)
    (hnull : ∀ w ∈ vs.flatMap (inside (.key key)), (types key).shown w = .null ↔ w = .null) :
    mayMiss ws key = mayMiss vs key := by
  obtain ⟨_, hall⟩ := throughout_iff.mp hstructs
  rw [Bool.eq_iff_iff, mayMiss_iff hd', mayMiss_iff hd, h.under hstructs hkey]
  constructor
  · rintro (⟨w, hw, hs, hlacks⟩ | hn)
    · have hpresent : w ∈ present ws := mem_present.mpr ⟨hw, fun e => by subst e; cases hs⟩
      rw [h] at hpresent
      obtain ⟨v, hv, rfl⟩ := List.mem_map.mp hpresent
      exact absurd hkey (textKeys_shown (hall v hv) ▸ hlacks)
    · obtain ⟨v, hv, hshown⟩ := List.mem_map.mp hn
      obtain ⟨hmem, _⟩ := mem_present.mp hv
      cases hm : Value.member? key v.entries with
      | none =>
        refine .inl ⟨v, hmem, hall v hv, ?_⟩
        rw [mem_textKeys]
        exact Value.member?_eq_none.mp hm
      | some w =>
        have hw : w ∈ vs.flatMap (inside (.key key)) := by
          rw [under_members hd]
          exact List.mem_flatMap.mpr ⟨v, hv, by rw [hm]; exact List.mem_singleton.mpr rfl⟩
        rw [hm, Option.getD_some, hnull w hw] at hshown
        exact .inr (hshown ▸ hw)
  · rintro (⟨v, hv, hs, hlacks⟩ | hn)
    · have hm : Value.member? key v.entries = none := by
        rw [Value.member?_eq_none, ← mem_textKeys]
        exact hlacks
      refine .inr (List.mem_map.mpr ⟨v, mem_present.mpr ⟨hv, ?_⟩, ?_⟩)
      · rintro rfl
        cases hs
      · rw [hm, Option.getD_none, shown_null]
    · rw [under_members hd] at hn
      obtain ⟨v, hv, hn⟩ := List.mem_flatMap.mp hn
      refine .inr (List.mem_map.mpr ⟨v, hv, ?_⟩)
      rw [Option.mem_toList.mp hn, Option.getD_some, shown_null]

end records

/-! ## Outlines of what came back -/

/-- Values have one outline. -/
theorem Outlined.unique {outer : String} {p : Position} {path : List String} {vs : List Value}
    {o o' : Outline} (h : Outlined outer p path vs o) (h' : Outlined outer p path vs o') :
    o = o' := by
  have hcases := h'.of_classify
  induction h generalizing o' with
  | null h | mixed h | scalar h | emptyArray h =>
    rw [h] at hcases
    exact hcases.symm
  | array h _ ih =>
    rw [h] at hcases
    obtain ⟨items', rfl, below'⟩ := hcases
    rw [ih below' below'.of_classify]
  | record h _ ih =>
    rw [h] at hcases
    obtain ⟨types', rfl, below'⟩ := hcases
    refine congrArg (Outline.record _) (List.map_congr_left fun key hkey => ?_)
    rw [ih key hkey (below' key hkey) (below' key hkey).of_classify]

theorem shown_eq_null_of_outlined {outer : String} {p : Position} {path : List String}
    {vs : List Value} {o : Outline} (ho : Outlined outer p path vs o) (hp : ∀ v ∈ vs, Plain v) :
    ∀ v ∈ vs, o.shown v = .null ↔ v = .null := fun v hv =>
  shown_eq_null (admits_of_outlined ho hp v hv true fun _ => rfl)

/-- What came back has the outline of the original values. -/
theorem outlined_returned {outer : String} {p : Position} {path : List String} {vs : List Value}
    {o : Outline} (ho : Outlined outer p path vs o) :
    (∀ v ∈ vs, Plain v) → ∀ {ws}, (∀ w ∈ ws, Plain w) → Returned o vs ws →
      Outlined outer p path ws o := by
  induction ho with
  | @null p path vs h =>
    intro hp ws _ hr
    have hnil : present vs = [] :=
      present_eq_nil.mpr ((classify_nothing_iff fun v hv => (hp v hv).1).mp h)
    refine .null (classify_null (present_eq_nil.mp ?_))
    rw [hr, hnil, List.map_nil]
  | @mixed p path vs h =>
    intro hp ws _ hr
    have hcases := classify_cases fun v hv => (hp v hv).1
    rw [h] at hcases
    exact .scalar (hr.texts hcases)
  | @scalar p path vs type h =>
    intro hp ws _ hr
    have hcases := classify_cases fun v hv => (hp v hv).1
    rw [h] at hcases
    obtain ⟨hex, hclass⟩ := hcases
    by_cases hw : type = widest
    · subst hw
      exact .scalar (hr.texts hex)
    · refine .scalar (classify_scalars (hr.throughout (hclass.resolve_left hw) ?_))
      intro v _ _ ht
      rw [shown_leaf hw ht]
      exact leafType?_stored ht
  | @emptyArray p path vs h =>
    intro hp ws _ hr
    have hcases := classify_cases fun v hv => (hp v hv).1
    rw [h] at hcases
    obtain ⟨hlists, hnone⟩ := hcases
    refine .emptyArray ?_
    rw [classify_lists (hr.lists hlists), hr.items hlists, hnone]
    rfl
  | @array p path vs items h below ih =>
    intro hp ws hp' hr
    have hcases := classify_cases fun v hv => (hp v hv).1
    rw [h] at hcases
    obtain ⟨hlists, hsome⟩ := hcases
    have hplain := plain_inside hp .items
    have hnull := shown_eq_null_of_outlined below hplain
    have hitems := hr.items hlists
    have hclass : classify ws = .array := by
      rw [classify_lists (hr.lists hlists), hitems, if_neg (by simpa using hsome)]
    have hnulls : decide (0 < (ws.flatMap (inside .items)).countP fun v => v.kind? = some .null) =
        decide (0 < (vs.flatMap (inside .items)).countP fun v => v.kind? = some .null) := by
      rw [Bool.eq_iff_iff, countP_null_pos_iff, countP_null_pos_iff, hitems, List.mem_map]
      constructor
      · rintro ⟨u, hu, e⟩
        exact (hnull u hu).mp e ▸ hu
      · exact fun hu => ⟨.null, hu, shown_null _⟩
    rw [← hnulls]
    refine .array hclass (ih hplain (plain_inside hp' .items) ?_)
    rw [hitems]
    exact returned_map hnull
  | @record p path vs types h below ih =>
    intro hp ws hp' hr
    have hcases := classify_cases fun v hv => (hp v hv).1
    rw [h] at hcases
    have hd : ∀ v ∈ vs, (v.entries.map (·.1)).Nodup := fun v hv => (hp v hv).2.here
    have hd' : ∀ w ∈ ws, (w.entries.map (·.1)).Nodup := fun w hw => (hp' w hw).2.here
    have hr' : Returned (.record _ (fieldsFrom vs types)) vs ws := hr
    have hkeys : keysOf ws = keysOf vs := hr'.keysOf hcases
    have hclass : classify ws = .record := by
      refine classify_structs (hr'.throughout hcases fun v _ _ hs => ?_)
      rw [Value.IsStruct.eq hs, shown_struct]
      rfl
    have hnull := fun key (hkey : key ∈ keysOf vs) =>
      shown_eq_null_of_outlined (below key hkey) (plain_inside hp (.key key))
    have hfields : ((keysOf ws).map fun key => (fieldOf ws key, types key)) =
        (keysOf vs).map fun key => (fieldOf vs key, types key) := by
      rw [hkeys]
      refine List.map_congr_left fun key hkey => ?_
      rw [fieldOf, fieldOf, hkeys, hr'.mayMiss hcases hd hd' hkey (hnull key hkey)]
    rw [← hfields]
    refine .record hclass fun key hkey => ?_
    rw [hkeys] at hkey ⊢
    exact ih key hkey (plain_inside hp _) (plain_inside hp' _)
      (hr'.below hcases hd hkey (hnull key hkey))

/-! ## Documents -/

section documents

variable {docs : List Value} (typeName namespaceName : String)

/-- Structs come back from where all values are structs. -/
theorem isStruct_shown {outer : String} {p : Position} {path : List String} {vs : List Value}
    {o : Outline} (ho : Outlined outer p path vs o) (hs : Throughout Value.IsStruct vs) {v : Value}
    (hv : v.IsStruct) : (o.shown v).IsStruct := by
  have hcases := ho.of_classify
  rw [classify_structs hs] at hcases
  obtain ⟨types, rfl, _⟩ := hcases
  rw [hv.eq, shown_struct]
  rfl

/-- What comes back for documents of an outline. -/
def returnedDocuments (typeName namespaceName : String) (docs : List Value) : List Value :=
  docs.map (outlineOf typeName namespaceName docs).shown

/-- What came back are documents. -/
theorem documents_returned (hd : ∀ d ∈ docs, Countable d) (hk : ∀ d ∈ docs, DistinctKeys d)
    (hc : ∀ d ∈ docs, InCalendar d) :
    ∀ d ∈ returnedDocuments typeName namespaceName docs,
      Countable d ∧ DistinctKeys d ∧ ReadableIntegers d ∧ InCalendar d := by
  intro d hmem
  obtain ⟨doc, hdoc, rfl⟩ := List.mem_map.mp hmem
  have ho := outlined_outlineOf (fun d h => (hd d h).2) typeName namespaceName
  have ha : Admits (outlineOf typeName namespaceName docs) false doc :=
    admits_document hd hk hdoc
  have hv := valid_of_outlined ho
  have hstructs : Throughout Value.IsStruct docs := by
    refine ⟨⟨doc, hdoc, fun e => ?_⟩, fun d h _ => (hd d h).1⟩
    subst e
    cases (hd _ hdoc).1
  exact ⟨⟨isStruct_shown ho hstructs (hd doc hdoc).1, supported_shown ha hv (hc doc hdoc)⟩,
    distinctKeys_shown ha hv (hc doc hdoc), readableIntegers_shown ha hv (hc doc hdoc),
    inCalendar_shown ha hv (hc doc hdoc)⟩

/-- What came back has the outline of the documents. -/
theorem outlineOf_returned (hd : ∀ d ∈ docs, Countable d) (hk : ∀ d ∈ docs, DistinctKeys d)
    (hc : ∀ d ∈ docs, InCalendar d) :
    outlineOf typeName namespaceName (returnedDocuments typeName namespaceName docs) =
      outlineOf typeName namespaceName docs := by
  have hreturned := documents_returned typeName namespaceName hd hk hc
  have ho := outlined_outlineOf (fun d h => (hd d h).2) typeName namespaceName
  have ho' := outlined_outlineOf (fun d h => (hreturned d h).1.2) typeName namespaceName
  have hplain : ∀ d ∈ docs, Plain d := fun d h => ⟨(hd d h).2, hk d h⟩
  refine ho'.unique (outlined_returned ho hplain ?_ ?_)
  · exact fun d h => ⟨(hreturned d h).1.2, (hreturned d h).2.1⟩
  · exact returned_map (shown_eq_null_of_outlined ho hplain)

/-- What came back comes back as it is. -/
theorem returnedDocuments_again (hd : ∀ d ∈ docs, Countable d) (hk : ∀ d ∈ docs, DistinctKeys d)
    (hc : ∀ d ∈ docs, InCalendar d) :
    returnedDocuments typeName namespaceName (returnedDocuments typeName namespaceName docs) =
      returnedDocuments typeName namespaceName docs := by
  rw [returnedDocuments, outlineOf_returned _ _ hd hk hc, returnedDocuments, List.map_map]
  exact List.map_congr_left fun _ h => shown_shown (admits_document hd hk h)
    (valid_of_outlined (outlined_outlineOf (fun d h => (hd d h).2) typeName namespaceName))

/-- The container of documents is read back as what comes back for them. -/
theorem decode_encode_returned (job : Options) (hd : ∀ d ∈ docs, Countable d)
    (hk : ∀ d ∈ docs, DistinctKeys d) (hi : ∀ d ∈ docs, ReadableIntegers d)
    (hc : ∀ d ∈ docs, InCalendar d)
    (hcodec : Container.codecs.contains job.codec = true) (hs : job.syncMarker.length = 16)
    (hstrict : job.strictUnknownFields = false) :
    let e := encoderOf job typeName namespaceName docs
    let d := decoderOf job typeName namespaceName docs
    (e.encode docs).outcome = .ok docs.length ∧
      d.decode true (e.encode docs).bytes =
        Feed.ofList (returnedDocuments typeName namespaceName docs) := by
  obtain ⟨hwritten, hread⟩ := @decode_encode docs typeName namespaceName job hd hk hi hc hcodec
    hs hstrict
  refine ⟨hwritten, hread.trans (congrArg Feed.ofList (List.map_congr_left fun _ h => ?_))⟩
  exact view_admits (admits_document hd hk h)
    (valid_of_outlined (outlined_outlineOf (fun d h => (hd d h).2) typeName namespaceName))

end documents

end Inference

open Inference

/-- Documents without too long an integer are written with the schema inferred from them and read back. What comes back is inferred
to have that same schema, and comes back from a second round trip unchanged. -/
theorem inferSchema_decode_encode (typeName namespaceName : String) {marker : List UInt8}
    (hmarker : marker.length = 16) {docs : List Value} (hne : docs ≠ [])
    (hd : ∀ d ∈ docs, d.IsStruct ∧ Supported d ∧ DistinctKeys d ∧ ReadableIntegers d ∧ InCalendar d) :
    ∃ options schema e d docs',
      Options.ofSettings { typeName, namespaceName, syncMarker := marker } = .ok options ∧
      inferSchema options docs = .ok schema ∧
      Encoder.ofSchema options schema = .ok e ∧
      Decoder.ofSchema options (some schema) = .ok d ∧
      (e.encode docs).outcome = .ok docs.length ∧
      d.decode true (e.encode docs).bytes = Feed.ofList docs' ∧
      inferSchema options docs' = .ok schema ∧
      (e.encode docs').outcome = .ok docs'.length ∧
      d.decode true (e.encode docs').bytes = Feed.ofList docs' := by
  have hcount : ∀ d ∈ docs, Countable d := fun d h => ⟨(hd d h).1, (hd d h).2.1⟩
  have hkeys : ∀ d ∈ docs, DistinctKeys d := fun d h => (hd d h).2.2.1
  have hintegers : ∀ d ∈ docs, ReadableIntegers d := fun d h => (hd d h).2.2.2.1
  have hcalendar : ∀ d ∈ docs, InCalendar d := fun d h => (hd d h).2.2.2.2
  have hsupported : ∀ d ∈ docs, Supported d := fun d h => (hd d h).2.1
  have hcodec : Container.codecs.contains "null" = true := by decide
  let job := Options.standard typeName namespaceName marker
  let docs' := returnedDocuments typeName namespaceName docs
  have hreturned : ∀ d ∈ docs', Countable d ∧ DistinctKeys d ∧ ReadableIntegers d ∧ InCalendar d :=
    documents_returned typeName namespaceName hcount hkeys hcalendar
  have houtline : outlineOf typeName namespaceName docs' = outlineOf typeName namespaceName docs :=
    outlineOf_returned typeName namespaceName hcount hkeys hcalendar
  -- the schema depends on the outline only, and so do the writer and the reader made of it
  have hencoder : encoderOf job typeName namespaceName docs' =
      encoderOf job typeName namespaceName docs := by rw [encoderOf, houtline, encoderOf]
  have hdecoder : decoderOf job typeName namespaceName docs' =
      decoderOf job typeName namespaceName docs := by rw [decoderOf, houtline, decoderOf]
  have hagain : returnedDocuments typeName namespaceName docs' = docs' :=
    returnedDocuments_again typeName namespaceName hcount hkeys hcalendar
  obtain ⟨hwritten, hread⟩ := decode_encode_returned typeName namespaceName job hcount hkeys
    hintegers hcalendar hcodec hmarker rfl
  obtain ⟨hwritten', hread'⟩ := decode_encode_returned typeName namespaceName job
    (fun d h => (hreturned d h).1) (fun d h => (hreturned d h).2.1)
    (fun d h => (hreturned d h).2.2.1) (fun d h => (hreturned d h).2.2.2) hcodec hmarker rfl
  rw [hencoder] at hwritten'
  rw [hencoder, hdecoder, hagain] at hread'
  have hinfer' : inferSchema job docs' =
      .ok ((outlineOf typeName namespaceName docs).finished job.altNamesKey) :=
    (inferSchema_ok_iff rfl).mpr ⟨mt List.map_eq_nil_iff.mp hne, fun d h => (hreturned d h).1,
      by rw [← houtline]; rfl⟩
  exact ⟨job, _, _, _, docs', ofSettings_standard typeName namespaceName hmarker,
    (inferSchema_ok_iff rfl).mpr ⟨hne, hcount, rfl⟩, encoder_ofSchema hsupported job,
    decoder_ofSchema hsupported job, hwritten, hread, hinfer', hwritten', hread'⟩

/-- Two documents in which a key is widened, another is missing, and a third holds a tuple with a null,
an exact decimal, bytes of the other kind and an instant one hour east of UTC. -/
theorem inferSchema_decode_encode_widened :
    let instant : Timestamp := ⟨63000000000000000, by decide, some ⟨3600000000, by decide⟩⟩
    let docs := [Value.struct [(.text "a b", .int 1), (.text "t", .timestamp instant)],
      .struct [(.text "a b", .list []), (.text "l", .tuple [.null, .byteArray [1, 2]]),
        (.text "n", .decimal (.finite false 15 (-1)))]]
    ∃ options schema e d docs',
      Options.ofSettings { typeName := "Document", syncMarker := List.replicate 16 7 } =
        .ok options ∧
      inferSchema options docs = .ok schema ∧
      Encoder.ofSchema options schema = .ok e ∧
      Decoder.ofSchema options (some schema) = .ok d ∧
      (e.encode docs).outcome = .ok docs.length ∧
      d.decode true (e.encode docs).bytes = Feed.ofList docs' ∧
      inferSchema options docs' = .ok schema ∧
      (e.encode docs').outcome = .ok docs'.length ∧
      d.decode true (e.encode docs').bytes = Feed.ofList docs' :=
  inferSchema_decode_encode "Document" "" (by decide) (List.cons_ne_nil _ _) (by decide)

end AvroDocument
