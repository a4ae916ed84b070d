import AvroDocument.Compatibility
import AvroDocument.Proofs.Bounds
import AvroDocument.Proofs.Resolution

/-!
# AvroDocument.Proofs.Comparison

What it means that two schemas pass the comparison.

* `Meets`: what a pair of types comes down to when nulls are left out and references followed.
* `Passed`: a pair that agrees, down to the pairs of records that were entered.
* `Takes`: a pair of records whose fields pass, none of the written ones left out.
* `checkPair_spec`, `checkCompatible_spec`: a comparison that passes enters records all of which are
  taken; its fuel lasts.
-/

namespace AvroDocument

theorem Json.eq_of_same_str {s : String} {j : Json} (h : (Json.str s).same j = true) :
    j = .str s := by
  cases j with
  | str t =>
    simp only [Json.same, beq_iff_eq] at h
    rw [h]
  | _ => simp [Json.same] at h

namespace Compatibility

open Schema (Registry Accepted Inside Plain Resolves)

/-! ## Pairs -/

section pairs

variable (writers readers : Registry)

/-- A pair of types comes down to another one when null is left out of unions and references are
followed. -/
structure Meets (p q : Pair) : Prop where
  written : writers.resolve (Schema.nonNull p.writer) p.writerNamespace =
    .ok (q.writer, q.writerNamespace)
  read : readers.resolve (Schema.nonNull p.reader) p.readerNamespace =
    .ok (q.reader, q.readerNamespace)

/-- Two types of one kind, which is not an opaque one. -/
structure Alike (q : Pair) : Prop where
  known : Schema.opaqueKinds.contains (Schema.typeName q.writer) = false
  type : (Schema.typeNode q.writer).same (Schema.typeNode q.reader) = true
  logical : ((Schema.logicalNode? q.writer).getD .null).same
    ((Schema.logicalNode? q.reader).getD .null) = true

/-- The items of two arrays. -/
def Pair.items (q : Pair) : Pair :=
  ⟨Schema.itemsOf q.writer, Schema.itemsOf q.reader, q.writerNamespace, q.readerNamespace⟩

/-- A written field of a record and one that takes its data. -/
def Pair.field (q : Pair) (source field : Json) : Pair :=
  ⟨Schema.typeOf source, Schema.typeOf field, q.writerNamespace, q.readerNamespace⟩

/-- The full names of two records. -/
def Pair.names (q : Pair) : String × String :=
  (Schema.fullName q.writer q.writerNamespace, Schema.fullName q.reader q.readerNamespace)

/-- Null is not written where it cannot be read. -/
def Pair.Nullable (p : Pair) : Prop :=
  Schema.isNullable p.writer = true → Schema.isNullable p.reader = true

/-- A pair that agrees, down to pairs of records of some names. -/
inductive Passed (visited : List (String × String)) : Pair → Prop
  | null {p : Pair} (hn : p.Nullable) (h : (Schema.nonNull p.writer).isStr "null" = true) :
      Passed visited p
  | scalar {p q : Pair} (hn : p.Nullable) (hm : Meets writers readers p q) (ha : Alike q)
      (harray : Schema.typeName q.writer ≠ "array") (hrecord : Schema.typeName q.writer ≠ "record") :
      Passed visited p
  | array {p q : Pair} (hn : p.Nullable) (hm : Meets writers readers p q) (ha : Alike q)
      (hkind : Schema.typeName q.writer = "array") (h : Passed visited q.items) : Passed visited p
  | record {p q : Pair} (hn : p.Nullable) (hm : Meets writers readers p q) (ha : Alike q)
      (hkind : Schema.typeName q.writer = "record") (h : q.names ∈ visited) : Passed visited p

variable {writers readers}

theorem Passed.mono {visited visited' : List (String × String)} {p : Pair}
    (hsub : visited ⊆ visited') (h : Passed writers readers visited p) :
    Passed writers readers visited' p := by
  induction h with
  | null hn h => exact .null hn h
  | scalar hn hm ha harray hrecord => exact .scalar hn hm ha harray hrecord
  | array hn hm ha hkind _ ih => exact .array hn hm ha hkind ih
  | record hn hm ha hkind h => exact .record hn hm ha hkind (hsub h)

variable (writers readers) in
/-- A pair of records: fields that are read from a written one pass, others may be missing, and
every written one is read. -/
structure Takes (visited : List (String × String)) (q : Pair) : Prop where
  read : ∀ f ∈ Schema.fieldsOf q.reader, ∀ source,
    sourceOf? (Schema.fieldsOf q.writer) f = some source →
      Passed writers readers visited (q.field source f)
  unwritten : ∀ f ∈ Schema.fieldsOf q.reader, sourceOf? (Schema.fieldsOf q.writer) f = none →
    Schema.isNullable (Schema.typeOf f) = true ∨ f.has "default" = true
  taken : ∀ name ∈ (Schema.fieldsOf q.writer).map Schema.nameOf,
    ∃ f ∈ Schema.fieldsOf q.reader, ∃ source,
      sourceOf? (Schema.fieldsOf q.writer) f = some source ∧ Schema.nameOf source = name

theorem Takes.mono {visited visited' : List (String × String)} {q : Pair}
    (hsub : visited ⊆ visited') (h : Takes writers readers visited q) :
    Takes writers readers visited' q where
  read f hf source hs := (h.read f hf source hs).mono hsub
  unwritten := h.unwritten
  taken := h.taken

end pairs

theorem nodeCount_nonNull (node : Json) :
    (Schema.nonNull node).nodeCount ≤ node.nodeCount := by
  cases node with
  | arr members =>
    simp only [Schema.nonNull]
    cases hfind : members.find? fun m => !Schema.isNullMember m with
    | none => exact Json.nodeCount_pos _
    | some m =>
      have := Json.nodeCount_le_items (List.mem_of_find?_eq_some hfind)
      simp only [Option.getD_some, Json.nodeCount]
      omega
  | _ => exact Nat.le_refl _

/-! ## Pairs inside two schemas -/

section sites

variable (writer reader : Json) (written read : List (String × Json))

/-- A pair of types that stand somewhere in two schemas. -/
structure Site (p : Pair) : Prop where
  writer : ∃ l, Inside writer written p.writerNamespace p.writer l
  reader : ∃ l, Inside reader read p.readerNamespace p.reader l

/-- A pair of records that are declared in two schemas. -/
structure Records (q : Pair) : Prop where
  site : Site writer reader written read q
  plainWriter : Plain q.writerNamespace q.writer
  plainReader : Plain q.readerNamespace q.reader
  writerKind : Schema.typeName q.writer = "record"
  readerKind : Schema.typeName q.reader = "record"

variable {writer reader written read} {layout readLayout : Layout}

theorem typeNode_of_typeName {node : Json} {kind : String} (h : Schema.typeName node = kind)
    (hne : kind ≠ "") : Schema.typeNode node = .str kind := by
  unfold Schema.typeName at h
  cases htype : Schema.typeNode node with
  | str s =>
    rw [htype] at h
    exact congrArg Json.str h
  | _ =>
    rw [htype] at h
    exact absurd h.symm hne

theorem Alike.readerKind {q : Pair} (h : Alike q) {kind : String}
    (hkind : Schema.typeName q.writer = kind) (hne : kind ≠ "") :
    Schema.typeName q.reader = kind := by
  have htype := h.type
  rw [typeNode_of_typeName hkind hne] at htype
  rw [Schema.typeName, Json.eq_of_same_str htype]
  rfl

variable {p q : Pair}

theorem Site.nonNull (h : Site writer reader written read p) :
    (∃ l, Inside writer written p.writerNamespace (Schema.nonNull p.writer) l) ∧
      ∃ l, Inside reader read p.readerNamespace (Schema.nonNull p.reader) l := by
  obtain ⟨_, hl⟩ := h.writer
  obtain ⟨_, hk⟩ := h.reader
  exact ⟨hl.nonNull, hk.nonNull⟩

/-- The types that a pair of places comes down to, with their layouts. -/
theorem Site.resolved (h : Site writer reader written read p) (hw : Accepted writer layout written)
    (hr : Accepted reader readLayout read)
    (hm : Meets (Registry.ofSchema writer) (Registry.ofSchema reader) p q)
    (hkind : Schema.typeName q.writer ≠ "union") (hkind' : Schema.typeName q.reader ≠ "union") :
    (∃ l l', Resolves writer written layout.declarations (Schema.nonNull p.writer) l q.writer
        q.writerNamespace l') ∧
      ∃ l l', Resolves reader read readLayout.declarations (Schema.nonNull p.reader) l q.reader
        q.readerNamespace l' := by
  obtain ⟨⟨l, hl⟩, ⟨k, hk⟩⟩ := h.nonNull
  obtain ⟨l', hl'⟩ := hl.resolved hw hm.written hkind
  obtain ⟨k', hk'⟩ := hk.resolved hr hm.read hkind'
  exact ⟨⟨l, l', hl'⟩, ⟨k, k', hk'⟩⟩

/-- The items of two arrays stand in the schemas, and those written are smaller. -/
theorem Site.items (h : Site writer reader written read p) (hw : Accepted writer layout written)
    (hr : Accepted reader readLayout read)
    (hm : Meets (Registry.ofSchema writer) (Registry.ofSchema reader) p q) (ha : Alike q)
    (hkind : Schema.typeName q.writer = "array") :
    Site writer reader written read q.items ∧ q.items.writer.nodeCount < p.writer.nodeCount := by
  have hkind' := ha.readerKind hkind (by decide)
  obtain ⟨⟨l, l', hl⟩, ⟨k, k', hk⟩⟩ := h.resolved hw hr hm (by rw [hkind]; decide)
    (by rw [hkind']; decide)
  obtain ⟨_, _, hitems, hlt⟩ := hl.inside.items hl.isPlain hkind
  obtain ⟨_, _, hitems', _⟩ := hk.inside.items hk.isPlain hkind'
  refine ⟨⟨⟨_, hitems⟩, ⟨_, hitems'⟩⟩, ?_⟩
  rcases hl.same_or_named with ⟨hsame, -⟩ | hnamed
  · have hle := nodeCount_nonNull p.writer
    rw [← hsame] at hle
    exact Nat.lt_of_lt_of_le hlt hle
  · rw [hkind] at hnamed
    cases hnamed

/-- Two records that a pair of places comes down to are declared in the schemas. -/
theorem Site.records (h : Site writer reader written read p) (hw : Accepted writer layout written)
    (hr : Accepted reader readLayout read)
    (hm : Meets (Registry.ofSchema writer) (Registry.ofSchema reader) p q) (ha : Alike q)
    (hkind : Schema.typeName q.writer = "record") : Records writer reader written read q := by
  have hkind' := ha.readerKind hkind (by decide)
  obtain ⟨⟨l, l', hl⟩, ⟨k, k', hk⟩⟩ := h.resolved hw hr hm (by rw [hkind]; decide)
    (by rw [hkind']; decide)
  exact ⟨⟨⟨l', hl.inside⟩, ⟨k', hk.inside⟩⟩, hl.isPlain, hk.isPlain, hkind, hkind'⟩

/-- The types of the fields of two records stand in the schemas. -/
theorem Records.field (h : Records writer reader written read q) {source field : Json}
    (hs : source ∈ Schema.fieldsOf q.writer) (hf : field ∈ Schema.fieldsOf q.reader) :
    Site writer reader written read (q.field source field) := by
  obtain ⟨l, hl⟩ := h.site.writer
  obtain ⟨k, hk⟩ := h.site.reader
  obtain ⟨pieces, hfields, _, _, hpieces, _⟩ := hl.fields h.plainWriter h.writerKind
  obtain ⟨pieces', hfields', _, _, hpieces', _⟩ := hk.fields h.plainReader h.readerKind
  rw [hfields] at hs
  rw [hfields'] at hf
  obtain ⟨s, hsmem, rfl⟩ := List.mem_map.mp hs
  obtain ⟨f, hfmem, rfl⟩ := List.mem_map.mp hf
  exact ⟨⟨_, hpieces s hsmem⟩, ⟨_, hpieces' f hfmem⟩⟩

/-- Two records of a pair of places are among the pairs of declarations. -/
theorem Records.names_mem (h : Records writer reader written read q) :
    q.names.1 ∈ written.map (·.1) ∧ q.names.2 ∈ read.map (·.1) := by
  obtain ⟨l, hl⟩ := h.site.writer
  obtain ⟨k, hk⟩ := h.site.reader
  obtain ⟨_, _, _, _, _, hmem, _⟩ := hl.fields h.plainWriter h.writerKind
  obtain ⟨_, _, _, _, _, hmem', _⟩ := hk.fields h.plainReader h.readerKind
  exact ⟨List.mem_map_of_mem (f := (·.1)) hmem, List.mem_map_of_mem (f := (·.1)) hmem'⟩

end sites

/-! ## Fuel -/

section fuel

variable (written read : List (String × Json))

/-- The pairs of full names that a comparison can enter. -/
def enterable : List (String × String) :=
  written.flatMap fun d => read.map fun e => (d.1, e.1)

/-- The number of pairs that were not entered yet. -/
def remaining (visited : List (String × String)) : Nat :=
  ((enterable written read).filter fun names => !visited.contains names).length

variable {written read}

theorem mem_enterable {names : String × String} (hw : names.1 ∈ written.map (·.1))
    (hr : names.2 ∈ read.map (·.1)) : names ∈ enterable written read := by
  obtain ⟨d, hd, hdname⟩ := List.mem_map.mp hw
  obtain ⟨e, he, hename⟩ := List.mem_map.mp hr
  exact List.mem_flatMap.mpr ⟨d, hd, List.mem_map.mpr ⟨e, he, by rw [hdname, hename]⟩⟩

theorem length_enterable : (enterable written read).length = written.length * read.length := by
  unfold enterable
  induction written with
  | nil => simp
  | cons d written ih => simp [ih, Nat.succ_mul, Nat.add_comm]

theorem remaining_mono {visited visited' : List (String × String)} (h : visited ⊆ visited') :
    remaining written read visited' ≤ remaining written read visited := unseen_mono _ h

/-- Entering a new pair leaves one less. -/
theorem remaining_cons {visited : List (String × String)} {names : String × String}
    (hmem : names ∈ enterable written read) (hnew : visited.contains names = false) :
    remaining written read (names :: visited) < remaining written read visited :=
  unseen_cons hmem hnew

end fuel

/-! ## The comparison -/

section comparison

theorem mem_of_sourceOf? {written : List Json} {field source : Json}
    (h : sourceOf? written field = some source) : source ∈ written := by
  obtain ⟨name, _, hname⟩ := List.exists_of_findSome?_eq_some h
  exact List.mem_reverse.mp (List.mem_of_find?_eq_some hname)

theorem mem_distinctNames {fields : List Json} {f : Json} (hf : f ∈ fields) :
    Schema.nameOf f ∈ distinctNames fields := by
  have hgrow (fields : List Json) : ∀ names : List String,
      names ⊆ fields.foldl (fun names f =>
        if names.contains (Schema.nameOf f) then names else names ++ [Schema.nameOf f]) names := by
    induction fields with
    | nil => exact fun names => List.Subset.refl _
    | cons g fields ih =>
      intro names name hname
      refine ih _ ?_
      dsimp only
      split
      · exact hname
      · exact List.mem_append_left _ hname
  have hmem : ∀ names : List String, Schema.nameOf f ∈ fields.foldl (fun names f =>
      if names.contains (Schema.nameOf f) then names else names ++ [Schema.nameOf f]) names := by
    induction hf with
    | head fields =>
      intro names
      refine hgrow fields _ ?_
      dsimp only
      split
      · rename_i hcontains
        simpa using hcontains
      · exact List.mem_append_right _ (List.mem_singleton_self _)
    | tail g _ ih => exact fun names => ih _
  exact hmem []

theorem mem_of_checkTaken {path : String} {reader : Json} {written : List Json}
    {matched names : List String} (h : checkTaken path reader written matched names = .ok ()) :
    ∀ name ∈ names, name ∈ matched := by
  induction names with
  | nil => exact fun _ hname => nomatch hname
  | cons name names ih =>
    rw [checkTaken] at h
    split at h
    · rename_i hcontains
      intro other hother
      rcases List.mem_cons.mp hother with rfl | hother
      · simpa using hcontains
      · exact ih h other hother
    · cases h

variable (writer reader : Json) (written read : List (String × Json))

/-- What a comparison enters is taken. -/
structure Enters (visited visited' : List (String × String)) : Prop where
  keeps : visited ⊆ visited'
  takes : ∀ names ∈ visited', names ∈ visited ∨ ∃ q : Pair, q.names = names ∧
    Records writer reader written read q ∧
      Takes (Registry.ofSchema writer) (Registry.ofSchema reader) visited' q

variable {writer reader written read}

theorem Enters.refl (visited : List (String × String)) :
    Enters writer reader written read visited visited :=
  ⟨List.Subset.refl _, fun _ h => .inl h⟩

theorem Enters.trans {a b c : List (String × String)}
    (h : Enters writer reader written read a b) (h' : Enters writer reader written read b c) :
    Enters writer reader written read a c where
  keeps := fun _ hmem => h'.keeps (h.keeps hmem)
  takes names hnames := by
    rcases h'.takes names hnames with hb | hc
    · rcases h.takes names hb with ha | ⟨q, hq, hrecords, htakes⟩
      · exact .inl ha
      · exact .inr ⟨q, hq, hrecords, htakes.mono h'.keeps⟩
    · exact .inr hc

variable (writer reader written read) in
/-- What it means that comparisons with some fuel pass. -/
def PairSpec (fuel : Nat) : Prop :=
  ∀ path visited visited' p, Site writer reader written read p →
    remaining written read visited * (writer.nodeCount + 1) + p.writer.nodeCount ≤ fuel →
    checkPair (Registry.ofSchema writer) (Registry.ofSchema reader) fuel path visited p =
      .ok visited' →
    Enters writer reader written read visited visited' ∧
      Passed (Registry.ofSchema writer) (Registry.ofSchema reader) visited' p

variable (writer reader written read) in
/-- What it means that the fields of two records pass, up to the names that were taken. -/
structure FieldsSpec (q : Pair) (fields : List Json) (matched matched' : List String)
    (visited visited' : List (String × String)) : Prop where
  enters : Enters writer reader written read visited visited'
  read : ∀ f ∈ fields, ∀ source, sourceOf? (Schema.fieldsOf q.writer) f = some source →
    Passed (Registry.ofSchema writer) (Registry.ofSchema reader) visited' (q.field source f)
  unwritten : ∀ f ∈ fields, sourceOf? (Schema.fieldsOf q.writer) f = none →
    Schema.isNullable (Schema.typeOf f) = true ∨ f.has "default" = true
  matched : ∀ name ∈ matched', name ∈ matched ∨ ∃ f ∈ fields, ∃ source,
    sourceOf? (Schema.fieldsOf q.writer) f = some source ∧ Schema.nameOf source = name

theorem checkFields_spec {fuel : Nat} (hpair : PairSpec writer reader written read fuel) {q : Pair}
    (hq : Records writer reader written read q) {path : String} {fields : List Json}
    (hfields : fields ⊆ Schema.fieldsOf q.reader) {matched matched' : List String}
    {visited visited' : List (String × String)}
    (hfuel : remaining written read visited * (writer.nodeCount + 1) + writer.nodeCount ≤ fuel)
    (h : checkFields (Registry.ofSchema writer) (Registry.ofSchema reader) fuel path
      (Schema.fieldsOf q.writer) q.writerNamespace q.readerNamespace matched visited fields =
        .ok (visited', matched')) :
    FieldsSpec writer reader written read q fields matched matched' visited visited' := by
  induction fields generalizing matched visited with
  | nil =>
    rw [checkFields] at h
    cases h
    exact ⟨.refl _, fun _ hf => absurd hf List.not_mem_nil,
      fun _ hf => absurd hf List.not_mem_nil, fun _ h => .inl h⟩
  | cons f fields ih =>
    have hrest : fields ⊆ Schema.fieldsOf q.reader := fun g hg => hfields (List.mem_cons_of_mem _ hg)
    rw [checkFields] at h
    split at h
    · cases h
    simp only at h
    split at h
    · rename_i hsource
      split at h
      · cases h
      · rename_i hmissing
        have hspec := ih hrest hfuel h
        refine ⟨hspec.enters, ?_, ?_, ?_⟩
        · intro g hg source hs
          rcases List.mem_cons.mp hg with rfl | hg
          · rw [hsource] at hs
            cases hs
          · exact hspec.read g hg source hs
        · intro g hg hs
          rcases List.mem_cons.mp hg with rfl | hg
          · by_cases hnull : Schema.isNullable (Schema.typeOf g) = true
            · exact .inl hnull
            · exact .inr (by simpa [hnull] using hmissing)
          · exact hspec.unwritten g hg hs
        · intro name hname
          rcases hspec.matched name hname with hold | ⟨g, hg, hsource⟩
          · exact .inl hold
          · exact .inr ⟨g, List.mem_cons_of_mem _ hg, hsource⟩
    · rename_i source hsource
      split at h
      · cases h
      · rename_i middle hcheck
        have hmem := mem_of_sourceOf? hsource
        have hsite := hq.field hmem (hfields List.mem_cons_self)
        obtain ⟨l, hl⟩ := hsite.writer
        have hsmall := hl.small
        obtain ⟨henters, hpassed⟩ := hpair _ _ _ _ hsite
          (by simp only [Pair.field] at hsmall ⊢; omega) hcheck
        have hless : remaining written read _ ≤ remaining written read _ :=
          remaining_mono henters.keeps
        have hspec := ih hrest (by
          have := Nat.mul_le_mul_right (writer.nodeCount + 1) hless
          omega) h
        refine ⟨henters.trans hspec.enters, ?_, ?_, ?_⟩
        · intro g hg source' hs
          rcases List.mem_cons.mp hg with rfl | hg
          · rw [hsource] at hs
            cases hs
            exact hpassed.mono hspec.enters.keeps
          · exact hspec.read g hg source' hs
        · intro g hg hs
          rcases List.mem_cons.mp hg with rfl | hg
          · rw [hsource] at hs
            cases hs
          · exact hspec.unwritten g hg hs
        · intro name hname
          rcases hspec.matched name hname with hold | ⟨g, hg, hs⟩
          · rcases List.mem_cons.mp hold with rfl | hold
            · exact .inr ⟨f, List.mem_cons_self, source, hsource, rfl⟩
            · exact .inl hold
          · exact .inr ⟨g, List.mem_cons_of_mem _ hg, hs⟩

/-- A pair of records is entered: its fields pass, and none of the written ones is left out. -/
theorem enters_records {fuel : Nat} (hpair : PairSpec writer reader written read fuel) {q : Pair}
    (hq : Records writer reader written read q) {path : String} {visited visited' : List (String × String)}
    {matched : List String} (hnew : visited.contains q.names = false)
    (hfuel : remaining written read visited * (writer.nodeCount + 1) ≤ fuel)
    (hfields : checkFields (Registry.ofSchema writer) (Registry.ofSchema reader) fuel path
      (Schema.fieldsOf q.writer) q.writerNamespace q.readerNamespace [] (q.names :: visited)
        (Schema.fieldsOf q.reader) = .ok (visited', matched))
    (htaken : checkTaken path q.reader (Schema.fieldsOf q.writer) matched
      (distinctNames (Schema.fieldsOf q.writer)) = .ok ()) :
    Enters writer reader written read visited visited' ∧ q.names ∈ visited' := by
  have hless := remaining_cons (mem_enterable hq.names_mem.1 hq.names_mem.2) hnew
  have hroom := Nat.mul_le_mul_right (writer.nodeCount + 1) (Nat.succ_le_of_lt hless)
  rw [Nat.succ_mul] at hroom
  have hspec := checkFields_spec hpair hq (List.Subset.refl _) (by omega) hfields
  have hentered : q.names ∈ visited' := hspec.enters.keeps List.mem_cons_self
  refine ⟨⟨fun _ h => hspec.enters.keeps (List.mem_cons_of_mem _ h), ?_⟩, hentered⟩
  intro names hnames
  rcases hspec.enters.takes names hnames with hold | htakes
  · rcases List.mem_cons.mp hold with rfl | hold
    · refine .inr ⟨q, rfl, hq, hspec.read, hspec.unwritten, ?_⟩
      intro name hname
      obtain ⟨f, hf, rfl⟩ := List.mem_map.mp hname
      rcases hspec.matched _ (mem_of_checkTaken htaken _ (mem_distinctNames hf)) with hnone | hsome
      · cases hnone
      · exact hsome
    · exact .inl hold
  · exact .inr htakes

variable {layout readLayout : Layout}

/-- A comparison that passes: whatever it enters is taken, and its fuel lasts, because each pair of
full names is entered once and what is written gets smaller in between. -/
theorem checkPair_spec (hw : Accepted writer layout written) (hr : Accepted reader readLayout read)
    (fuel : Nat) : PairSpec writer reader written read fuel := by
  induction fuel with
  | zero =>
    intro path visited visited' p _ hfuel
    have := p.writer.nodeCount_pos
    omega
  | succ fuel ih =>
    intro path visited visited' p hsite hfuel h
    rw [checkPair] at h
    split at h
    · cases h
    · rename_i hnullable
      have hn : p.Nullable := by
        intro hnull
        simpa [hnull] using hnullable
      simp only at h
      split at h
      · rename_i hnull
        cases h
        exact ⟨.refl _, .null hn hnull⟩
      · split at h
        · cases h
        · rename_i w nw hwritten
          split at h
          · cases h
          · rename_i r nr hread
            let q : Pair := ⟨w, r, nw, nr⟩
            have hm : Meets (Registry.ofSchema writer) (Registry.ofSchema reader) p q :=
              ⟨hwritten, hread⟩
            split at h
            · cases h
            · rename_i hknown
              split at h
              · cases h
              · rename_i hsame
                simp only [Bool.or_eq_true, Bool.not_eq_true', not_or, Bool.not_eq_false] at hsame
                have ha : Alike q := ⟨by simpa using hknown, hsame.1, hsame.2⟩
                by_cases harray : Schema.typeName w = "array"
                · rw [if_pos harray] at h
                  obtain ⟨hitems, hlt⟩ := hsite.items hw hr hm ha harray
                  obtain ⟨henters, hpassed⟩ := ih _ _ _ q.items hitems (by omega) h
                  exact ⟨henters, .array hn hm ha harray hpassed⟩
                rw [if_neg harray] at h
                by_cases hrecord : Schema.typeName w = "record"
                · rw [if_pos hrecord] at h
                  have hrecords := hsite.records hw hr hm ha hrecord
                  by_cases hvisited : visited.contains (Schema.fullName w nw, Schema.fullName r nr)
                  · rw [if_pos hvisited] at h
                    cases h
                    have hmem : q.names ∈ visited := List.contains_iff_mem.mp hvisited
                    exact ⟨.refl _, .record hn hm ha hrecord hmem⟩
                  rw [if_neg hvisited] at h
                  split at h
                  · cases h
                  · split at h
                    · cases h
                    · rename_i visited'' matched hfields
                      obtain ⟨_, htaken, hresult⟩ := map_eq_ok h
                      cases hresult
                      have := p.writer.nodeCount_pos
                      obtain ⟨henters, hmem⟩ := enters_records ih hrecords
                        (Bool.eq_false_iff.mpr hvisited) (by omega) hfields htaken
                      exact ⟨henters, .record hn hm ha hrecord hmem⟩
                rw [if_neg hrecord] at h
                cases h
                exact ⟨.refl _, .scalar hn hm ha harray hrecord⟩

theorem nodeCount_le_depthBound (schema : Json) :
    schema.nodeCount ≤ Registry.depthBound schema := by
  have : schema.nodeCount * 1 ≤ schema.nodeCount * (2 * schema.nodeCount + 1) :=
    Nat.mul_le_mul_left _ (by omega)
  simp only [Registry.depthBound]
  omega

/-- There is fuel for as many pairs as there can be full names on the two sides. -/
theorem le_depthBound {writer reader : Json} {pairs : Nat}
    (h : pairs ≤ Registry.depthBound writer * Registry.depthBound reader) :
    pairs * (writer.nodeCount + 1) + writer.nodeCount ≤ depthBound writer reader := by
  have hmul := Nat.mul_le_mul_right (writer.nodeCount + 1) h
  have hwide := Nat.mul_le_mul_left (Registry.depthBound writer * Registry.depthBound reader)
    (show writer.nodeCount + 1 ≤ writer.nodeCount + reader.nodeCount + 2 by omega)
  rw [depthBound, Nat.succ_mul]
  omega

theorem fuel_suffices (hw : Accepted writer layout written) (hr : Accepted reader readLayout read) :
    remaining written read [] * (writer.nodeCount + 1) + writer.nodeCount ≤
      depthBound writer reader :=
  le_depthBound <|
    calc remaining written read [] ≤ (enterable written read).length := List.length_filter_le _ _
      _ = written.length * read.length := length_enterable
      _ ≤ Registry.depthBound writer * Registry.depthBound reader :=
        Nat.mul_le_mul (Nat.le_trans hw.length_le (nodeCount_le_depthBound writer))
          (Nat.le_trans hr.length_le (nodeCount_le_depthBound reader))

/-- Two schemas that pass the comparison agree at their roots, and every pair of records that this
depends on is taken. -/
theorem checkCompatible_spec (hw : Accepted writer layout written)
    (hr : Accepted reader readLayout read) (h : checkCompatible writer reader = .ok ()) :
    ∃ visited, Passed (Registry.ofSchema writer) (Registry.ofSchema reader) visited
        ⟨writer, reader, "", ""⟩ ∧
      ∀ names ∈ visited, ∃ q : Pair, q.names = names ∧ Records writer reader written read q ∧
        Takes (Registry.ofSchema writer) (Registry.ofSchema reader) visited q := by
  rw [checkCompatible] at h
  cases hcheck : checkPair (Registry.ofSchema writer) (Registry.ofSchema reader)
      (depthBound writer reader) Pointer.root [] ⟨writer, reader, "", ""⟩ with
  | error e => rw [hcheck] at h; cases h
  | ok visited =>
    obtain ⟨henters, hpassed⟩ := checkPair_spec hw hr _ _ _ _ _ ⟨⟨_, hw.inside⟩, ⟨_, hr.inside⟩⟩
      (fuel_suffices hw hr) hcheck
    refine ⟨visited, hpassed, fun names hnames => ?_⟩
    rcases henters.takes names hnames with hnone | hsome
    · cases hnone
    · exact hsome

end comparison

end Compatibility
end AvroDocument
