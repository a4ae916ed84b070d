import AvroDocument.Proofs.DocumentText
import AvroDocument.Proofs.JsonText
import AvroDocument.Proofs.Texts

/-!
# AvroDocument.Proofs.JsonLines

Documents written as JSON lines are read back.

* `Value.reread`: what is read from the JSON text of a value.
* `Documents.line_source`: the line of a document is the text of a source with that value.
* `Documents.ofText_lines`: the lines of documents are read as the documents, in order.
-/

namespace AvroDocument

/-- What is read from the text of a floating point number: the decimal that the text spells when the
number is finite and its text has no exponent. A NaN has no sign and no payload in its text. -/
def Value.rereadFloat (x : Binary64) : Value :=
  if x.isNaN then .float (Binary64.nan false)
  else if x.isInfinite || Json.hasExponent x.text.toList then .float x
  else .decimal (Decimal.ofBinary64 x)

mutual

/-- What is read from the JSON text of a value: tuples become lists, and the scalars that JSON cannot
hold their texts. -/
def Value.reread : Value → Value
  | .null => .null
  | .bool b => .bool b
  | .int n => .int n
  | .text s => .text s
  | .float x => rereadFloat x
  | .list vs => .list (rereadItems vs)
  | .tuple vs => .list (rereadItems vs)
  | .struct es => .struct (rereadEntries es)
  | v => .text v.written

def Value.rereadItems : List Value → List Value
  | [] => []
  | v :: vs => v.reread :: rereadItems vs

def Value.rereadEntries : List (Key × Value) → List (Key × Value)
  | [] => []
  | (k, v) :: es => (k, v.reread) :: rereadEntries es

end

/-! ## Trees -/

theorem Value.rereadFloat_eq (x : Binary64) :
    Value.ofJson (Json.readFloat .exact x) = rereadFloat x := by
  unfold rereadFloat Json.readFloat
  split
  · rfl
  · simp only [reduceCtorEq, decide_false, Bool.or_false]
    split <;> rfl

/-- A value whose tree has a text, from which it is reread. -/
def Rereads (v : Value) : Prop :=
  ∃ j, v.toJson false = .ok j ∧ j.Writable ∧ Value.ofJson (j.reread .exact) = v.reread

theorem rereads_items {vs : List Value} (h : ∀ v ∈ vs, Rereads v) :
    ∃ js, Value.toJsonItems false vs = .ok js ∧ (∀ j ∈ js, j.Writable) ∧
      Value.ofItems (Json.rereadItems .exact js) = Value.rereadItems vs := by
  induction vs with
  | nil => exact ⟨[], rfl, List.forall_mem_nil _, rfl⟩
  | cons v vs ih =>
    obtain ⟨j, hj, hwritable, hreread⟩ := h v List.mem_cons_self
    obtain ⟨js, hjs, hall, hrest⟩ := ih fun w hw => h w (List.mem_cons_of_mem _ hw)
    refine ⟨j :: js, by rw [Value.toJsonItems, hj, hjs], ?_, ?_⟩
    · exact List.forall_mem_cons.mpr ⟨hwritable, hall⟩
    · rw [Json.rereadItems, Value.ofItems, hreread, hrest, Value.rereadItems]

theorem rereads_members {es : List (Key × Value)} (hkeys : ∀ e ∈ es, ∃ key, e.1 = .text key)
    (h : ∀ e ∈ es, Rereads e.2) :
    ∃ ms, Value.toJsonMembers false es = .ok ms ∧ es.map (·.1) = ms.map (Key.text ·.1) ∧
      (∀ m ∈ ms, m.2.Writable) ∧
      Value.ofMembers (Json.rereadMembers .exact ms) = Value.rereadEntries es := by
  induction es with
  | nil => exact ⟨[], rfl, rfl, List.forall_mem_nil _, rfl⟩
  | cons e es ih =>
    obtain ⟨k, v⟩ := e
    obtain ⟨key, rfl⟩ := hkeys _ List.mem_cons_self
    obtain ⟨j, hj, hwritable, hreread⟩ := h _ List.mem_cons_self
    obtain ⟨ms, hms, hnames, hall, hrest⟩ := ih (fun e he => hkeys e (List.mem_cons_of_mem _ he))
      fun e he => h e (List.mem_cons_of_mem _ he)
    refine ⟨(key, j) :: ms, by simp only [Value.toJsonMembers, Key.jsonName, hj, hms], ?_, ?_, ?_⟩
    · rw [List.map_cons, List.map_cons, hnames]
    · exact List.forall_mem_cons.mpr ⟨hwritable, hall⟩
    · rw [Json.rereadMembers, Value.ofMembers, hreread, hrest, Value.rereadEntries]

/-- Every interchange value has a tree, from whose text it is reread. -/
theorem rereads_of_supported {v : Value} (h : Supported v) (hd : DistinctKeys v)
    (hi : ReadableIntegers v) : Rereads v := by
  induction v using Value.childInduction with
  | step v ih =>
    have hbelow : ∀ w ∈ v.children, Rereads w :=
      fun w hw => ih w hw (h.child hw) (hd.child hw) (hi.child hw)
    cases v with
    | null => exact ⟨.null, rfl, .null, rfl⟩
    | bool b => exact ⟨.bool b, rfl, .bool b, rfl⟩
    | int n =>
      refine ⟨.int n, ?_, .int n hi.digits, rfl⟩
      rw [Value.toJson, integerText_of_readable hi]
      rfl
    | float x => exact ⟨.float x, rfl, .float x, Value.rereadFloat_eq x⟩
    | list vs | tuple vs =>
      obtain ⟨js, hjs, hall, hrest⟩ := rereads_items (show ∀ w ∈ vs, Rereads w from hbelow)
      refine ⟨.arr js, by rw [Value.toJson, hjs], .arr hall, ?_⟩
      rw [Json.reread, Value.ofJson, hrest, Value.reread]
    | struct es =>
      obtain ⟨ms, hms, hnames, hall, hrest⟩ := rereads_members
        (show ∀ e ∈ es, _ from fun e he => h.key he) fun e he => hbelow e.2 (List.mem_map_of_mem he)
      have hkeys : (ms.map (·.1)).Nodup := by
        have hdistinct : (es.map (·.1)).Nodup := hd.here
        have hmap : es.map (·.1) = (ms.map (·.1)).map Key.text := by rw [hnames, List.map_map]; rfl
        exact (hmap ▸ hdistinct).of_map _
      refine ⟨.obj ms, by rw [Value.toJson, hms], .obj hkeys hall, ?_⟩
      rw [Json.reread, Value.ofJson, hrest, Value.reread]
    | uuid _ | set _ | missing => exact absurd h.here (by simp [Value.isPlain, Value.kind?])
    | _ => exact ⟨.str _, rfl, .str _, rfl⟩

/-! ## Lines -/

namespace Documents

open Json (Source TextOf Literal Style fractionalNumber exists_source newline_not_mem_text)

theorem eq_obj_of_tree {s : Source} {ms : List (String × Json)} (h : s.tree .exact = .obj ms) :
    ∃ members, s = .obj members := by
  cases s with
  | obj members => exact ⟨members, rfl⟩
  | number l =>
    rw [Source.tree, Literal.tree, fractionalNumber] at h
    split at h
    · cases h
    · split at h
      · cases h
      · split at h <;> cases h
  | _ => cases h

theorem oneLine_spaced : Style.spaced.OneLine := ⟨by decide, by decide⟩

/-- The line of a document is the text of an object. -/
theorem line_source {doc : Value} (hs : doc.IsStruct) (h : Supported doc) (hd : DistinctKeys doc)
    (hi : ReadableIntegers doc) :
    ∃ line ms, Documents.line doc = .ok line ∧ TextOf (.obj ms) line.toList ∧
      '\n' ∉ line.toList ∧ (Source.obj ms).value = doc.reread := by
  obtain ⟨j, hj, hwritable, hreread⟩ := rereads_of_supported h hd hi
  obtain ⟨s, htext, htree⟩ := exists_source Style.standard_spaced hwritable
  have hline : Documents.line doc = .ok (j.text Style.spaced) := by
    rw [Documents.line, Value.jsonText, hj]
    rfl
  have hobj : ∃ ms, s.tree .exact = .obj ms := by
    rw [hs.eq, Value.reread] at hreread
    rw [htree]
    cases hj : j.reread .exact with
    | obj ms => exact ⟨ms, rfl⟩
    | _ =>
      rw [hj] at hreread
      cases hreread
  obtain ⟨_, hms⟩ := hobj
  obtain ⟨ms, rfl⟩ := eq_obj_of_tree hms
  refine ⟨_, ms, hline, htext, newline_not_mem_text oneLine_spaced hwritable, ?_⟩
  rw [Source.value, htree, hreread]

/-- Documents with their lines, one line break behind each. -/
theorem linesText_lines {docs : List Value} (hne : docs ≠ [])
    (hd : ∀ d ∈ docs, d.IsStruct ∧ Supported d ∧ DistinctKeys d ∧ ReadableIntegers d) :
    ∃ lines sources cs, docs.mapM line = .ok lines ∧ LinesText sources cs ∧
      (String.join (lines.map (· ++ "\n"))).toList = cs ++ ['\n'] ∧
      sources.map Source.value = docs.map Value.reread := by
  induction docs with
  | nil => exact absurd rfl hne
  | cons doc docs ih =>
    obtain ⟨hstruct, hsupported, hdistinct, hintegers⟩ := hd doc List.mem_cons_self
    obtain ⟨text, ms, hline, htext, hbreak, hvalue⟩ :=
      line_source hstruct hsupported hdistinct hintegers
    by_cases hdocs : docs = []
    · subst hdocs
      refine ⟨[text], [.obj ms], text.toList, ?_, .last htext hbreak, ?_, ?_⟩
      · rw [List.mapM_cons, hline]
        rfl
      · simp
      · rw [List.map_singleton, hvalue, List.map_singleton]
    · obtain ⟨lines, sources, cs, hlines, hsources, hchars, hvalues⟩ :=
        ih hdocs fun d hm => hd d (List.mem_cons_of_mem _ hm)
      refine ⟨text :: lines, .obj ms :: sources, _, ?_,
        .cons htext hbreak margin_newline List.mem_cons_self hsources, ?_, ?_⟩
      · rw [List.mapM_cons, hline, hlines]
        rfl
      · rw [List.map_cons, String.join_cons, String.toList_append, hchars]
        simp
      · rw [List.map_cons, hvalue, hvalues, List.map_cons]

/-- The lines of documents are read as the documents, in order. -/
theorem ofText_lines {docs : List Value}
    (hd : ∀ d ∈ docs, d.IsStruct ∧ Supported d ∧ DistinctKeys d ∧ ReadableIntegers d) :
    ∃ lines, docs.mapM line = .ok lines ∧
      ofText (String.join (lines.map (· ++ "\n"))) = .ok (docs.map Value.reread) := by
  by_cases hdocs : docs = []
  · subst hdocs
    exact ⟨[], rfl, rfl⟩
  obtain ⟨lines, sources, cs, hlines, hsources, hchars, hvalues⟩ := linesText_lines hdocs hd
  have hread := ofText_documents (.lines hsources) margin_nil margin_newline
  rw [List.nil_append, ← hchars, String.ofList_toList, hvalues] at hread
  exact ⟨lines, hlines, hread⟩

/-- A float, an exact decimal with a zero at its end, no members at all, and line breaks in texts. -/
theorem ofText_lines_three :
    let docs := [Value.struct [(.text "a", .float ⟨0x3FF8000000000000⟩)], .struct [],
      .struct [(.text "b\n", .tuple [.decimal (.finite true 150 (-2)), .text "\u2028\n"])]]
    ∃ lines, docs.mapM line = .ok lines ∧
      ofText (String.join (lines.map (· ++ "\n"))) = .ok
        [.struct [(.text "a", .decimal (.finite false 15 (-1)))], .struct [],
          .struct [(.text "b\n", .list [.text "-1.50", .text "\u2028\n"])]] := by
  intro docs
  have hd : ∀ d ∈ docs, d.IsStruct ∧ Supported d ∧ DistinctKeys d ∧ ReadableIntegers d := by decide
  have hreread : docs.map Value.reread =
      [.struct [(.text "a", .decimal (.finite false 15 (-1)))], .struct [],
        .struct [(.text "b\n", .list [.text "-1.50", .text "\u2028\n"])]] := by rfl
  exact hreread ▸ ofText_lines hd

end Documents
end AvroDocument
