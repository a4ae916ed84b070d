import AvroDocument.Proofs.Projection
import AvroDocument.Proofs.SelfComparison
import AvroDocument.Proofs.WrittenEnds

/-!
# AvroDocument.Proofs.Recovery

What is read where an encoder wrote something.

* `Binary.Recovered`: a datum whose bytes are read up to their end, as a datum that decimal
  arithmetic can take, unless reading fails.
* `recovered_primitive`, `recovered_array`, `recovered_union`, `recovered_record`: for each kind of
  layout, given the same for the layouts inside it.
* `Encoding.Arising`: a datum at a node that a document is prepared to or that a default stands for.
* `recovered_arising`: whatever arises at a node of a schema without references is recovered.
-/

namespace AvroDocument
namespace Binary

/-- A datum whose bytes are read up to their end, as a datum that decimal arithmetic can take,
unless reading fails. -/
def Recovered (types : Declarations) (fuel : Nat) (layout : Layout) (datum : Value) : Prop :=
  ∀ bytes, writeDatum types fuel layout datum = .ok bytes →
    ∀ fuel' rest r, readDatum types fuel' layout (bytes ++ rest) = .ok r →
      r.2 = rest ∧ Shaped types Usable layout r.1

section recovered

variable {types : Declarations} {fuel : Nat} {layout : Layout} {datum : Value}

/-! ## Primitive layouts -/

/-- Primitive data are recovered, if decimals are. -/
theorem recovered_primitive {type : Primitive} {meaning : Option Meaning}
    (hdecimal : ∀ t, meaning = some (.decimal t) → ∀ bytes,
      writeDatum types fuel (.primitive type meaning) datum = .ok bytes →
        ∃ stored, Workable t stored ∧ Stable types (.primitive type meaning) datum stored) :
    Recovered types fuel (.primitive type meaning) datum := by
  intro bytes hwrite fuel' rest r hread
  have hread' := hread
  rw [readDatum_primitive, andThen_ok] at hread
  obtain ⟨plain', rest', hplain, hwrap⟩ := hread
  obtain ⟨hwrap, hrest⟩ := accept_ok hwrap
  rw [hrest]
  refine ⟨?_, .primitive ⟨⟨_, _, plain', hplain, hwrap⟩, fun t ht => ?_⟩⟩
  · rw [writeDatum] at hwrite
    split at hwrite
    · cases hwrite
    · exact spans_plain hwrite _ _ _ hplain
  -- What is read for a decimal is the datum that is stored for it, and that one is workable.
  · obtain ⟨stored, hworkable, hstable⟩ := hdecimal t ht bytes hwrite
    obtain ⟨least, hleast⟩ := hstable.read fuel bytes hwrite
    -- Primitive data are read alike with any fuel.
    have hsame := hleast least (Nat.le_refl _) rest
    rw [readDatum_primitive] at hread' hsame
    rw [hread'] at hsame
    cases hsame
    exact hworkable

/-! ## Unions -/

theorem recovered_union {members : List Layout}
    (h : ∀ l ∈ members, fits types fuel l datum = .ok true → Recovered types fuel l datum) :
    Recovered types fuel (.union members) datum := by
  intro bytes hwrite fuel' rest r hread
  rw [writeDatum] at hwrite
  split at hwrite
  · cases hwrite
  · cases hwrite
  rename_i i hmember
  obtain ⟨l, hl, hfits⟩ := memberFor?_some hmember
  have hin := List.mem_of_getElem? hl
  rw [writeMember_eq hl] at hwrite
  cases hbody : writeDatum types fuel l datum with
  | error e =>
    rw [hbody] at hwrite
    cases hwrite
  | ok body =>
    rw [hbody] at hwrite
    cases hwrite
    have hplace := place?_natCast (List.getElem?_eq_some_iff.mp hl).1
    rw [readDatum, List.append_assoc, readInt_writeInt] at hread
    simp only [hplace, readMember_eq hl] at hread
    obtain ⟨hrest, hshaped⟩ := h l hin hfits body hbody fuel' rest r hread
    exact ⟨hrest, .union hin hshaped⟩

/-! ## Arrays -/

theorem recovered_items {vs : List Value} {part : Value → List UInt8}
    (h : ∀ v ∈ vs, Recovered types fuel layout v)
    (hpart : ∀ v ∈ vs, writeDatum types fuel layout v = .ok (part v)) {fuel' : Nat}
    {rest : List UInt8} {r : List Value × List UInt8}
    (hread : readItems types fuel' layout vs.length (vs.flatMap part ++ rest) = .ok r) :
    r.2 = rest ∧ ∀ v ∈ r.1, Shaped types Usable layout v := by
  induction vs generalizing r with
  | nil =>
    rw [List.length_nil, readItems_zero] at hread
    obtain ⟨hr, hrest⟩ := accept_ok hread
    rw [← Option.some.inj hr]
    exact ⟨hrest, List.forall_mem_nil _⟩
  | cons v vs ih =>
    rw [List.length_cons, List.flatMap_cons, List.append_assoc, readItems_succ, andThen_ok] at hread
    obtain ⟨first, behind, hfirst, hread⟩ := hread
    obtain ⟨others, rest', hothers, rfl⟩ := map_ok hread
    obtain ⟨hbehind, hshaped⟩ := h v List.mem_cons_self _ (hpart v List.mem_cons_self) _ _ _ hfirst
    simp only at hbehind
    rw [hbehind] at hothers
    obtain ⟨hrest, hall⟩ := ih (fun w hw => h w (List.mem_cons_of_mem _ hw))
      (fun w hw => hpart w (List.mem_cons_of_mem _ hw)) hothers
    refine ⟨hrest, fun w hw => ?_⟩
    obtain rfl | hw := List.mem_cons.mp hw
    · exact hshaped
    · exact hall w hw

theorem recovered_array
    (hall : ∀ vs, datum.items? = some vs → ∀ v ∈ vs, Recovered types fuel layout v) :
    Recovered types fuel (.array layout) datum := by
  intro bytes hwrite fuel' rest r hread
  rw [writeDatum] at hwrite
  split at hwrite
  swap
  · cases hwrite
  rename_i vs hvs
  have h := hall vs hvs
  cases hbody : writeItems types fuel layout vs with
  | error e =>
    rw [hbody] at hwrite
    cases hwrite
  | ok body =>
    rw [hbody] at hwrite
    cases hwrite
    rw [← List.map_id vs, writeItems_eq] at hbody
    obtain ⟨part, rfl, hpart⟩ := joined_ok hbody
    rw [readDatum] at hread
    obtain ⟨stored, rest', hblocks, rfl⟩ := map_ok hread
    rw [writeBlock] at hblocks
    split at hblocks
    · rw [readBlocks_end] at hblocks
      cases hblocks
      exact ⟨rfl, .array (List.forall_mem_nil _)⟩
    · rename_i hsome
      rw [List.append_assoc, List.append_assoc, readBlocks_eq, andThen_ok] at hblocks
      obtain ⟨count, behind, hcount, hblocks⟩ := hblocks
      rw [readBlockCount_writeInt] at hcount
      cases hcount
      rw [if_neg hsome] at hblocks
      cases fuel' with
      | zero => cases hblocks
      | succ fuel' =>
        obtain ⟨items, behind, hitems, hblocks⟩ := andThen_ok.mp hblocks
        obtain ⟨hbehind, hall⟩ := recovered_items h hpart hitems
        simp only at hbehind
        rw [hbehind, List.nil_append, readBlocks_end] at hblocks
        cases hblocks
        exact ⟨rfl, .array hall⟩

/-! ## Records -/

theorem recovered_record {name : String} {fields : List (String × Option Json × Layout)}
    (hnames : (fields.map (·.1)).Nodup)
    (h : ∀ es, datum = .struct es → ∀ f ∈ fields,
      Recovered types fuel f.2.2 (fieldValue es f.1 f.2.1)) :
    Recovered types fuel (.record name fields) datum := by
  intro bytes hwrite fuel' rest r hread
  refine ⟨spans_datum _ hwrite fuel' _ _ _ hread, ?_⟩
  obtain ⟨stored, hstored, hall⟩ := readRecord_parts hnames hwrite hread
  rw [hstored]
  refine .record fun f hf => ?_
  obtain ⟨es, part, rest', hes, hpart, hfield⟩ := hall f hf
  exact (h es hes f hf part hpart fuel' rest' _ hfield).2

end recovered

end Binary

/-! ## Data that can come up at a node -/

open Schema (TypeIn Within Form Piece Standalone ReferenceFree)
open Encoding (prepareNode)

theorem Value.mem_ofItems {js : List Json} {v : Value} (h : v ∈ Value.ofItems js) :
    ∃ j ∈ js, v = Value.ofJson j := by
  induction js with
  | nil => cases h
  | cons j js ih =>
    rw [Value.ofItems] at h
    obtain rfl | h := List.mem_cons.mp h
    · exact ⟨j, List.mem_cons_self, rfl⟩
    · obtain ⟨k, hk, hv⟩ := ih h
      exact ⟨k, List.mem_cons_of_mem _ hk, hv⟩

theorem Value.member?_ofMembers {ms : List (String × Json)} {key : String} {v : Value}
    (h : Value.member? key (Value.ofMembers ms) = some v) : ∃ m ∈ ms, v = Value.ofJson m.2 := by
  induction ms with
  | nil => cases h
  | cons m ms ih =>
    obtain ⟨name, j⟩ := m
    rw [Value.ofMembers, Value.member?] at h
    split at h
    · exact ⟨_, List.mem_cons_self, (Option.some.inj h).symm⟩
    · obtain ⟨m, hm, hv⟩ := ih h
      exact ⟨m, List.mem_cons_of_mem _ hm, hv⟩

/-- A datum at a node: one that a tree such as a default stands for, or that a value is prepared
to. -/
inductive Encoding.Arising (r : Reconciler) (node : Json) : Value → Prop
  | tree {j : Json} (h : j.Tidy) : Arising r node (Value.ofJson j)
  | prepared {enclosing path : String} {value datum : Value}
      (h : prepareNode r.options r.registry enclosing path node value = .ok datum) :
      Arising r node datum

open Encoding (Arising)

section arising

variable {r : Reconciler} {node : Json} {datum : Value}

theorem Encoding.Arising.null : Arising r node .null := by
  have h : Arising r node (Value.ofJson .null) := .tree .null
  rwa [Value.ofJson] at h

theorem prepareNode_standalone (h : Standalone node) (enclosing path : String) (v : Value) :
    prepareNode r.options r.registry enclosing path node v =
      prepareNode r.options r.registry (Schema.innerOf node enclosing) path node v := by
  rw [prepareNode_plain (h.plain enclosing), Encoding.prepareNode_other h.not_union, h.resolve]

/-- The items of a list at an array. -/
theorem arising_item (hnode : Standalone node) (hkind : Schema.typeName node = "array")
    (h : Arising r node datum) {vs : List Value} (hvs : datum.items? = some vs) :
    ∀ v ∈ vs, Arising r (Schema.itemsOf node) v := by
  cases h with
  | @tree j htidy =>
    cases htidy with
    | @arr js hall =>
      rw [Value.ofJson] at hvs
      cases hvs
      intro v hv
      obtain ⟨j, hj, rfl⟩ := Value.mem_ofItems hv
      exact .tree (hall j hj)
    | _ =>
      rw [Value.ofJson] at hvs
      cases hvs
  | @prepared enclosing path value _ hprepare =>
    rw [prepareNode_standalone hnode, prepareNode_array (hnode.plain enclosing) hkind] at hprepare
    split at hprepare
    swap
    · cases hprepare
    split at hprepare
    · cases hprepare
    rename_i data hdata
    cases hprepare
    cases hvs
    intro d hd
    obtain ⟨v, -, path, hprepare⟩ := prepareItems_ok hdata d hd
    exact .prepared hprepare

/-- A datum at a union, for the member that is not null. -/
theorem arising_member {pieces : List Piece}
    (hone : pieces.countP (fun p => !Schema.isNullMember p.node) ≤ 1) {p : Piece} (hp : p ∈ pieces)
    (hpresent : Schema.isNullMember p.node = false)
    (h : Arising r (.arr (pieces.map (·.node))) datum) : Arising r p.node datum := by
  cases h with
  | tree htidy => exact .tree htidy
  | @prepared enclosing path value _ hprepare =>
    have habsent {c : Bool} (h : (if c then .ok .null
        else Coercion.refuse path (.arr (pieces.map (·.node))) value : Except Failure Value) =
          .ok datum) : Arising r p.node datum := by
      split at h
      · cases h
        exact .null
      · cases h
    rw [Encoding.prepareNode_union] at hprepare
    split at hprepare
    · exact habsent hprepare
    rename_i member hfind
    split at hprepare
    · exact habsent hprepare
    obtain ⟨q, hq, rfl⟩ := List.mem_map.mp (List.mem_of_find?_eq_some hfind)
    have hqpresent := List.find?_some hfind
    obtain rfl : q = p := eq_of_countP_le_one hone hq hp hqpresent (by rw [hpresent]; rfl)
    exact .prepared hprepare

/-- The datum of a field that a record lacks, or that it is prepared with. -/
theorem arising_absent {f : Json} {default : Option Json} (hdefault : ∀ j ∈ default, j.Tidy) :
    Arising r f ((default.map Value.ofJson).getD .null) := by
  cases default with
  | none => exact .null
  | some j => exact .tree (hdefault j rfl)

theorem arising_fieldDatum {inner path : String} {claimed : List String}
    {entries : List (Key × Value)} {f : Json} (hdefault : ∀ j ∈ f.get? "default", j.Tidy)
    (h : Encoding.fieldDatum r.options r.registry inner path claimed entries f = .ok datum) :
    Arising r (Schema.typeOf f) datum := by
  have habsent (h : Encoding.absentValue r.options path f = .ok datum) :
      Arising r (Schema.typeOf f) datum := by
    unfold Encoding.absentValue at h
    simp only at h
    split at h
    · cases h
      exact .null
    split at h
    · rename_i j hj
      cases h
      exact .tree (hdefault j hj)
    · cases h
  unfold Encoding.fieldDatum at h
  split at h
  · exact habsent h
  split at h
  · exact habsent h
  · exact .prepared h

/-- The fields of a record. -/
theorem arising_field (hnode : Standalone node) (hkind : Schema.typeName node = "record")
    {pieces : List Piece} (hfields : Schema.fieldsOf node = pieces.map (·.node))
    (hnames : (pieces.map fun p => Schema.nameOf p.node).Nodup)
    (hdefault : ∀ p ∈ pieces, p.default = p.node.get? "default" ∧ ∀ j ∈ p.default, j.Tidy)
    {es : List (Key × Value)} (h : Arising r node (.struct es)) :
    ∀ p ∈ pieces, Arising r (Schema.typeOf p.node)
      (Binary.fieldValue es (Schema.nameOf p.node) p.default) := by
  intro p hp
  obtain ⟨hsame, htidies⟩ := hdefault p hp
  generalize hdatum : Value.struct es = datum at h
  cases h with
  | @tree j htidy =>
    cases htidy with
    | @obj ms _ hall =>
      rw [Value.ofJson] at hdatum
      cases hdatum
      rw [Binary.fieldValue]
      split
      · rename_i v hv
        obtain ⟨m, hm, rfl⟩ := Value.member?_ofMembers hv
        exact .tree (hall m hm)
      · exact arising_absent htidies
    | _ =>
      rw [Value.ofJson] at hdatum
      cases hdatum
  | @prepared enclosing path value _ hprepare =>
    rw [prepareNode_standalone hnode] at hprepare
    obtain ⟨entries, data, rfl, rfl, hdata⟩ :=
      prepareNode_record_ok (hnode.plain enclosing) hkind hprepare
    cases hdatum
    rw [hfields] at hdata
    obtain ⟨datumOf, rfl, hall⟩ := prepareFields_ok hdata
    rw [Binary.fieldValue, Binary.member?_entriesFor hnames hp]
    exact arising_fieldDatum (hsame ▸ htidies) (hall p hp)

/-! ## Decimals -/

/-- What the table of scalars takes at a decimal type can be worked with. -/
theorem workable_of_coerced {options : Options} {path : String} {ms : List (String × Json)}
    {stored view : Value} (htype : Schema.typeName (.obj ms) = "bytes")
    (hl : Schema.logicalName? (.obj ms) = some "decimal")
    (h : coerce options path (.obj ms) stored = .ok view) :
    Binary.Workable (Layout.decimalType ms) stored := by
  obtain ⟨scale, target, _, _, hscale, ht, -⟩ := coerce_decimal_ok htype hl h
  refine ⟨scale, target, scale_decimalType hscale, ht, fun negative c e hstored => ?_⟩
  have hscaled : Coercion.scaled path (.obj ms) stored (.finite negative c e) = .ok view := by
    rw [← coerce_decimal options path htype hl (congrArg Coercion.decimalOf? hstored)]
    exact h
  obtain ⟨scale', target', n, hscale', ht', hn, hroom, -⟩ := scaled_finite.mp hscaled
  obtain rfl := Except.ok.inj (hscale.symm.trans hscale')
  obtain rfl := Except.ok.inj (ht.symm.trans ht')
  rw [(Decimal.quantize?_exact_iff (targetOf_le ht)).mpr ⟨hn, hroom⟩]
  rfl

/-- Decimals that arise at a node are read back so that they can be worked with. -/
theorem arising_decimal {types : Declarations} {fuel : Nat} {type : Primitive}
    {meaning : Option Meaning} {t : DecimalType} (hnode : Standalone node)
    (hkind : Primitive.ofName? (Schema.typeName node) = some type)
    (hmeaning : (∃ name, node = .str name ∧ meaning = none) ∨
      ∃ ms, node = .obj ms ∧ meaning = Layout.meaning? type ms)
    (ht : meaning = some (.decimal t)) (h : Arising r node datum) {bytes : List UInt8}
    (hwrite : Binary.writeDatum types fuel (.primitive type meaning) datum = .ok bytes) :
    ∃ stored, Binary.Workable t stored ∧
      Binary.Stable types (.primitive type meaning) datum stored := by
  obtain ⟨_, -, rfl⟩ | ⟨ms, rfl, rfl⟩ := hmeaning
  · cases ht
  obtain ⟨rfl, hl, rfl⟩ := Layout.meaning?_decimal ht
  have htype := Primitive.eq_name hkind
  rw [ht] at hwrite ⊢
  cases h with
  | @tree j htidy =>
    -- No tree but a number is a decimal, and no tree is bytes.
    cases htidy <;>
    · rw [Value.ofJson, Binary.writeDatum] at hwrite
      cases hwrite
  | @prepared enclosing path value _ hprepare =>
    rw [prepareNode_standalone hnode, prepareNode_primitive (hnode.plain enclosing) hkind]
      at hprepare
    split at hprepare
    · rw [if_neg (by rw [htype]; decide)] at hprepare
      cases hprepare
    · obtain ⟨stored, view, hrenewed⟩ := renewed_decimal htype hl hprepare hwrite
      exact ⟨stored, workable_of_coerced htype hl (hrenewed.shown ""), hrenewed.stable⟩

/-! ## Whatever arises -/

theorem Schema.TypeIn.inherit {P : Json → Prop} {schema node : Json} (h : TypeIn schema node)
    (hP : Schema.Hereditary P) (hschema : P schema) : P node := by
  induction h with
  | whole => exact hschema
  | @inner node type _ htype ih =>
    cases node with
    | arr members => exact hP.member ih htype
    | obj ms =>
      rw [Schema.innerTypes] at htype
      split at htype
      · rename_i hkind
        exact hP.items ih hkind (by simpa using htype)
      split at htype
      · rename_i hkind
        exact hP.values ih hkind (by simpa using htype)
      split at htype
      · rename_i hkind
        obtain ⟨f, hf, rfl⟩ := List.mem_map.mp htype
        exact hP.field ih hkind hf
      · cases htype
    | _ => cases htype

theorem tidy_fieldsOf (h : node.Tidy) : ∀ f ∈ Schema.fieldsOf node, f.Tidy := by
  intro f hf
  unfold Schema.fieldsOf Json.getD at hf
  cases hfields : node.get? "fields" with
  | none =>
    rw [hfields] at hf
    cases hf
  | some fields =>
    rw [hfields] at hf
    cases node with
    | obj ms =>
      have htidy := h.lookup hfields
      cases fields with
      | arr js => exact htidy.item f hf
      | _ => cases hf
    | _ => cases hfields

theorem tidy_default {f : Json} (h : f.Tidy) : ∀ j ∈ f.get? "default", j.Tidy := by
  intro j hj
  cases f with
  | obj ms => exact h.lookup hj
  | _ => cases hj

variable {schema : Json} {decls : List (String × Json)} {types : Declarations} {fuel : Nat}
  {enclosing : String} {l : Layout}

/-- Whether whatever arises at a node with a layout is recovered. -/
def RecoversAll (r : Reconciler) (schema : Json) (decls : List (String × Json))
    (types : Declarations) (fuel : Nat) (l : Layout) : Prop :=
  ∀ enclosing node datum, Within (TypeIn schema) schema decls enclosing node l →
    Arising r node datum → Binary.Recovered types fuel l datum

/-- One kind of node, given the same for the layouts inside. -/
theorem recovered_step (hfree : ReferenceFree schema) (htidy : schema.Tidy)
    (ih : ∀ l', sizeOf l' < sizeOf l → RecoversAll r schema decls types fuel l') :
    RecoversAll r schema decls types fuel l := by
  intro enclosing node datum hwithin h
  by_cases hunion : ∃ members, node = .arr members
  · obtain ⟨members, rfl⟩ := hunion
    obtain ⟨pieces, rfl, rfl, hone, hpieces⟩ := hwithin.members (Schema.hereditary_typeIn schema)
    refine Binary.recovered_union fun l hl _ => ?_
    have hsmall : sizeOf l < sizeOf (Layout.union (pieces.map (·.layout))) := by
      have := List.sizeOf_lt_of_mem hl
      simp only [Layout.union.sizeOf_spec]
      omega
    obtain ⟨p, hp, rfl⟩ := List.mem_map.mp hl
    obtain ⟨hmember, hnull, -⟩ := hpieces p hp
    cases hpresent : Schema.isNullMember p.node with
    | true =>
      rw [hmember.layout_null (hnull.trans hpresent)]
      exact Binary.recovered_primitive (by simp)
    | false => exact ih _ hsmall _ _ _ hmember (arising_member hone hp hpresent h)
  · have halone := hwithin.standalone hfree fun members he => hunion ⟨members, he⟩
    cases hwithin.form_standalone halone with
    | primitive hkind hmeaning =>
      exact Binary.recovered_primitive fun t ht bytes hwrite =>
        arising_decimal halone hkind hmeaning ht h hwrite
    | array hkind hitems =>
      refine Binary.recovered_array fun vs hvs v hv =>
        ih _ ?_ _ _ _ hitems (arising_item halone hkind h hvs v hv)
      simp only [Layout.array.sizeOf_spec]
      omega
    | @record pieces hkind hfields hfield hnames hpieces =>
      refine Binary.recovered_record (by rwa [List.map_map]) fun es hes f hf => ?_
      have hsmall := List.sizeOf_lt_of_mem hf
      obtain ⟨p, hp, rfl⟩ := List.mem_map.mp hf
      subst hes
      have hdefault : ∀ p ∈ pieces,
          p.default = p.node.get? "default" ∧ ∀ j ∈ p.default, j.Tidy := by
        intro p hp
        have hmem : p.node ∈ Schema.fieldsOf node := hfields ▸ List.mem_map_of_mem hp
        have htidies := tidy_default (tidy_fieldsOf
          (hwithin.holds.inherit Schema.hereditary_tidy htidy) _ hmem)
        exact ⟨(hfield p hp).default_eq, (hfield p hp).default_eq ▸ htidies⟩
      refine ih p.layout ?_ _ _ _ (hpieces p hp)
        (arising_field halone hkind hfields hnames hdefault h p hp)
      simp only [Piece.field, Prod.mk.sizeOf_spec] at hsmall
      simp only [Layout.record.sizeOf_spec]
      omega

/-- Whatever arises at a node of a schema without references is recovered. -/
theorem recovered_arising (hfree : ReferenceFree schema) (htidy : schema.Tidy) (l : Layout) :
    RecoversAll r schema decls types fuel l := by
  suffices hsize : ∀ n l, sizeOf l < n → RecoversAll r schema decls types fuel l
    from hsize _ l (Nat.lt_succ_self _)
  intro n
  induction n with
  | zero => exact fun l hl => absurd hl (Nat.not_lt_zero _)
  | succ n ih =>
    intro l hl
    exact recovered_step hfree htidy fun l' hl' =>
      ih l' (Nat.lt_of_lt_of_le hl' (Nat.le_of_lt_succ hl))

end arising

end AvroDocument
