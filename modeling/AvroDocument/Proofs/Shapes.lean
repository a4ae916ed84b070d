import AvroDocument.Proofs.ReadDepth
import AvroDocument.Proofs.Regular

/-!
# AvroDocument.Proofs.Shapes

The shape of the data that are read with a layout.

* `Binary.Shaped`: data with the items, members and fields that a layout has, and a property of the
  scalars in them.
* `Binary.shaped_of_read`: what is read with a regular layout has its shape.
-/

namespace AvroDocument
namespace Binary

/-- A property of the data of primitive layouts. -/
abbrev ScalarProperty := Primitive → Option Meaning → Value → Prop

/-- Data of the shape of a layout, whose scalars have a property. A record holds exactly the fields
of its layout, in their order. -/
inductive Shaped (types : Declarations) (P : ScalarProperty) : Layout → Value → Prop
  | primitive {type : Primitive} {meaning : Option Meaning} {v : Value} (h : P type meaning v) :
      Shaped types P (.primitive type meaning) v
  | array {items : Layout} {vs : List Value} (h : ∀ v ∈ vs, Shaped types P items v) :
      Shaped types P (.array items) (.list vs)
  | union {members : List Layout} {l : Layout} {v : Value} (hmember : l ∈ members)
      (h : Shaped types P l v) : Shaped types P (.union members) v
  | record {name : String} {fields : List (String × Option Json × Layout)}
      {datum : String × Option Json × Layout → Value}
      (h : ∀ f ∈ fields, Shaped types P f.2.2 (datum f)) :
      Shaped types P (.record name fields)
        (.struct (fields.map fun f => (Key.text f.1, datum f)))
  | reference {name : String} {l : Layout} {v : Value} (hlookup : lookup? name types = some l)
      (h : Shaped types P l v) : Shaped types P (.reference name) v

/-- A datum that is read with a primitive layout. -/
def Stored : ScalarProperty := fun type meaning v =>
  ∃ bytes rest plain, readPlain type bytes = .ok (plain, rest) ∧ wrap meaning plain = some v

theorem accept_ok {α : Type} {a? : Option α} {bytes : List UInt8} {r : α × List UInt8}
    (h : accept a? bytes = .ok r) : a? = some r.1 ∧ r.2 = bytes := by
  cases a? with
  | none => cases h
  | some a =>
    cases h
    exact ⟨rfl, rfl⟩

/-! ## Fields one by one -/

section fields

variable {f : String × Option Json × Layout} {fields : List (String × Option Json × Layout)}

theorem fresh_behind {taken : List (Key × Value)} (v : Value)
    (hnames : ((f :: fields).map (·.1)).Nodup)
    (htaken : ∀ g ∈ f :: fields, Key.text g.1 ∉ taken.map (·.1)) :
    ∀ g ∈ fields, Key.text g.1 ∉ (taken ++ [(Key.text f.1, v)]).map (·.1) := by
  intro g hg hmem
  rw [List.map_cons, List.nodup_cons] at hnames
  rw [List.map_append, List.mem_append] at hmem
  obtain hmem | hmem := hmem
  · exact htaken g (List.mem_cons_of_mem _ hg) hmem
  · rw [List.map_singleton, List.mem_singleton, Key.text.injEq] at hmem
    exact hnames.1 (hmem ▸ List.mem_map_of_mem hg)

/-- The datum of one more field beside those of others. -/
theorem exists_datum (hnames : ((f :: fields).map (·.1)).Nodup) (v : Value)
    (datum : String × Option Json × Layout → Value) :
    ∃ datum' : String × Option Json × Layout → Value,
      datum' f = v ∧ ∀ g ∈ fields, datum' g = datum g := by
  rw [List.map_cons, List.nodup_cons] at hnames
  refine ⟨fun g => if g.1 = f.1 then v else datum g, if_pos rfl, fun g hg => if_neg ?_⟩
  exact fun hname => hnames.1 (hname ▸ List.mem_map_of_mem hg)

/-- The entries of fields, when the first one is already taken. -/
theorem entries_behind {P : String × Option Json × Layout → Value → Prop} {v : Value}
    {taken : List (Key × Value)} (hnames : ((f :: fields).map (·.1)).Nodup) (hv : P f v)
    {r : List (Key × Value)}
    (h : ∃ datum : String × Option Json × Layout → Value,
      r = taken ++ [(Key.text f.1, v)] ++ (fields.map fun g => (Key.text g.1, datum g)) ∧
        ∀ g ∈ fields, P g (datum g)) :
    ∃ datum : String × Option Json × Layout → Value,
      r = taken ++ ((f :: fields).map fun g => (Key.text g.1, datum g)) ∧
        ∀ g ∈ f :: fields, P g (datum g) := by
  obtain ⟨datum, rfl, hall⟩ := h
  obtain ⟨datum', hfirst, hothers⟩ := exists_datum hnames v datum
  have hlater : (fields.map fun g => (Key.text g.1, datum' g)) =
      fields.map fun g => (Key.text g.1, datum g) :=
    List.map_congr_left fun g hg => by rw [hothers g hg]
  refine ⟨datum', ?_, fun g hg => ?_⟩
  · rw [List.map_cons, hlater, hfirst, List.append_assoc, List.singleton_append]
  · obtain rfl | hg := List.mem_cons.mp hg
    · rwa [hfirst]
    · rw [hothers g hg]
      exact hall g hg

end fields

/-! ## What is read -/

mutual

theorem shaped_datum {types : Declarations} (htypes : ∀ d ∈ types, d.2.Regular) {fuel : Nat}
    {bytes : List UInt8} (layout : Layout) (hregular : layout.Regular) {r : Value × List UInt8}
    (h : readDatum types fuel layout bytes = .ok r) : Shaped types Stored layout r.1 := by
  cases layout with
  | primitive type meaning =>
    rw [readDatum_primitive, andThen_ok] at h
    obtain ⟨plain, rest, hplain, h⟩ := h
    exact .primitive ⟨bytes, rest, plain, hplain, (accept_ok h).1⟩
  | array items =>
    rw [readDatum] at h
    obtain ⟨vs, rest, hblocks, rfl⟩ := map_ok h
    cases hregular with
    | array hitems =>
      exact .array (shaped_blocks htypes items hitems [] (List.forall_mem_nil _) hblocks)
  | union members =>
    rw [readDatum_union, andThen_ok] at h
    obtain ⟨n, rest, -, h⟩ := h
    obtain ⟨i, rest', -, h⟩ := andThen_ok.mp h
    cases hregular with
    | union _ _ hmembers =>
      obtain ⟨l, hl, hshaped⟩ := shaped_member htypes members hmembers i h
      exact .union hl hshaped
  | record name fields =>
    rw [readDatum] at h
    obtain ⟨entries, rest, hfields, rfl⟩ := map_ok h
    cases hregular with
    | record hnames hinner =>
      obtain ⟨datum, rfl, hshaped⟩ :=
        shaped_fields htypes fields hnames hinner [] (fun _ _ => List.not_mem_nil) hfields
      exact .record hshaped
  | reference name =>
    cases fuel with
    | zero =>
      rw [readDatum_outOfFuel] at h
      cases h
    | succ fuel =>
      rw [readDatum_reference, andThen_ok] at h
      obtain ⟨layout, rest, hlookup, h⟩ := h
      have hname := (accept_ok hlookup).1
      exact .reference hname
        (shaped_datum htypes layout (htypes _ (mem_of_lookup? hname)) h)
  | map | enum | fixed => cases hregular
termination_by (fuel, sizeOf layout, 0)

theorem shaped_blocks {types : Declarations} (htypes : ∀ d ∈ types, d.2.Regular) {fuel : Nat}
    {bytes : List UInt8} (items : Layout) (hregular : items.Regular) (taken : List Value)
    (htaken : ∀ v ∈ taken, Shaped types Stored items v) {r : List Value × List UInt8}
    (h : readBlocks types fuel items taken bytes = .ok r) :
    ∀ v ∈ r.1, Shaped types Stored items v := by
  rw [readBlocks_eq, andThen_ok] at h
  obtain ⟨count, rest, -, h⟩ := h
  by_cases hzero : count = 0
  · rw [if_pos hzero] at h
    rw [← Option.some.inj (accept_ok h).1]
    exact htaken
  rw [if_neg hzero] at h
  cases fuel with
  | zero => cases h
  | succ fuel =>
    obtain ⟨vs, rest', hitems, h⟩ := andThen_ok.mp h
    have hvs := shaped_items htypes items hregular count hitems
    refine shaped_blocks htypes items hregular (taken ++ vs) (fun v hv => ?_) h
    obtain hv | hv := List.mem_append.mp hv
    · exact htaken v hv
    · exact hvs v hv
termination_by (fuel, sizeOf items, 0)

theorem shaped_items {types : Declarations} (htypes : ∀ d ∈ types, d.2.Regular) {fuel : Nat}
    {bytes : List UInt8} (items : Layout) (hregular : items.Regular) (count : Nat)
    {r : List Value × List UInt8} (h : readItems types fuel items count bytes = .ok r) :
    ∀ v ∈ r.1, Shaped types Stored items v := by
  cases count with
  | zero =>
    rw [readItems_zero] at h
    rw [← Option.some.inj (accept_ok h).1]
    exact List.forall_mem_nil _
  | succ count =>
    rw [readItems_succ, andThen_ok] at h
    obtain ⟨v, rest, hv, h⟩ := h
    obtain ⟨vs, rest', hvs, rfl⟩ := map_ok h
    have hfirst := shaped_datum htypes items hregular hv
    have hrest := shaped_items htypes items hregular count hvs
    intro w hw
    obtain rfl | hw := List.mem_cons.mp hw
    · exact hfirst
    · exact hrest w hw
termination_by (fuel, sizeOf items, count + 1)

theorem shaped_member {types : Declarations} (htypes : ∀ d ∈ types, d.2.Regular) {fuel : Nat}
    {bytes : List UInt8} (members : List Layout) (hregular : ∀ l ∈ members, l.Regular)
    (index : Nat) {r : Value × List UInt8}
    (h : readMember types fuel members index bytes = .ok r) :
    ∃ l ∈ members, Shaped types Stored l r.1 := by
  cases members with
  | nil =>
    rw [readMember] at h
    cases h
  | cons member members =>
    cases index with
    | zero =>
      rw [readMember] at h
      exact ⟨member, List.mem_cons_self,
        shaped_datum htypes member (hregular member List.mem_cons_self) h⟩
    | succ i =>
      rw [readMember] at h
      obtain ⟨l, hl, hshaped⟩ := shaped_member htypes members
        (fun l hl => hregular l (List.mem_cons_of_mem _ hl)) i h
      exact ⟨l, List.mem_cons_of_mem _ hl, hshaped⟩
termination_by (fuel, sizeOf members, 0)

theorem shaped_fields {types : Declarations} (htypes : ∀ d ∈ types, d.2.Regular) {fuel : Nat}
    {bytes : List UInt8} (fields : List (String × Option Json × Layout))
    (hnames : (fields.map (·.1)).Nodup) (hregular : ∀ f ∈ fields, f.2.2.Regular)
    (taken : List (Key × Value)) (htaken : ∀ f ∈ fields, Key.text f.1 ∉ taken.map (·.1))
    {r : List (Key × Value) × List UInt8}
    (h : readFields types fuel fields taken bytes = .ok r) :
    ∃ datum : String × Option Json × Layout → Value,
      r.1 = taken ++ (fields.map fun f => (Key.text f.1, datum f)) ∧
        ∀ f ∈ fields, Shaped types Stored f.2.2 (datum f) := by
  match fields with
  | [] =>
    rw [readFields_nil] at h
    rw [← Option.some.inj (accept_ok h).1]
    exact ⟨fun _ => .null, (List.append_nil _).symm, List.forall_mem_nil _⟩
  | (name, default, layout) :: fields =>
    rw [readFields_cons, andThen_ok] at h
    obtain ⟨v, rest, hv, h⟩ := h
    rw [Value.setEntry_new (htaken _ List.mem_cons_self)] at h
    have hfirst := shaped_datum htypes layout (hregular _ List.mem_cons_self) hv
    have hrest := shaped_fields htypes fields (List.nodup_cons.mp hnames).2
      (fun g hg => hregular g (List.mem_cons_of_mem _ hg)) _ (fresh_behind v hnames htaken) h
    exact entries_behind (P := fun f v => Shaped types Stored f.2.2 v) hnames hfirst hrest
termination_by (fuel, sizeOf fields, 0)

end

/-- What is read has the shape of its layout. -/
theorem shaped_of_read {layout : Layout} (hregular : layout.Regular) {bytes rest : List UInt8}
    {v : Value} (h : read layout bytes = .ok (v, rest)) :
    Shaped layout.declarations Stored layout v :=
  shaped_datum hregular.declared layout hregular h

end Binary
end AvroDocument
