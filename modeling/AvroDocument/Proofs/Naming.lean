import AvroDocument.Inference.Outline
import AvroDocument.Proofs.Association
import AvroDocument.Proofs.DottedNames

/-!
# AvroDocument.Proofs.Naming

Names are valid, distinct, and the same in whatever order keys and records arrive.

* `Schema.ValidName`: letters, digits and underscores, no digit first.
* `firstFree_not_mem`: a name made with a suffix is not taken.
* `fieldNames_perm`, `nodup_fieldNames`: the names of the keys of one record.
* `recordNames_perm`, `nodup_fullNames`: the names of records.
-/

namespace AvroDocument
namespace Schema

/-! ## Valid names -/

/-- Letters, digits and underscores, at least one and no digit first. -/
def ValidName (s : String) : Prop :=
  s.toList.all isNameChar = true ∧ ∃ c, s.toList.head? = some c ∧ c.isDigit = false

theorem ValidName.no_dot {s : String} (h : ValidName s) : '.' ∉ s.toList := by
  intro hm
  have := List.all_eq_true.mp h.1 '.' hm
  revert this
  decide

theorem ValidName.hasDot {s : String} (h : ValidName s) : hasDot s = false := by
  rw [Schema.hasDot, Bool.eq_false_iff]
  intro hc
  exact h.no_dot (List.contains_iff_mem.mp hc)

theorem ValidName.append {s t : String} (h : ValidName s) (ht : t.toList.all isNameChar = true) :
    ValidName (s ++ t) := by
  obtain ⟨hs, c, hc, hd⟩ := h
  refine ⟨?_, c, ?_, hd⟩
  · rw [String.toList_append, List.all_append, hs, ht]
    rfl
  · rw [String.toList_append, List.head?_append, hc]
    rfl

theorem avroName_valid (s : String) : ValidName (avroName s) := by
  have hall : ∀ cs : List Char,
      (cs.map fun c => if isNameChar c then c else '_').all isNameChar = true := by
    intro cs
    rw [List.all_map, List.all_eq_true]
    intro c _
    show isNameChar (if isNameChar c then c else '_') = true
    split
    · assumption
    · decide
  unfold avroName
  have h := hall s.toList
  revert h
  generalize s.toList.map (fun c => if isNameChar c then c else '_') = cs
  intro h
  cases cs with
  | nil => exact ⟨by decide, '_', by decide, by decide⟩
  | cons c cs =>
    simp only
    split
    · refine ⟨?_, '_', by rw [String.toList_ofList]; rfl, by decide⟩
      rw [String.toList_ofList, List.all_cons, h]
      decide
    · next hd =>
      refine ⟨by rw [String.toList_ofList]; exact h, c, by rw [String.toList_ofList]; rfl, ?_⟩
      simpa using hd

end Schema

namespace Inference

open Schema (ValidName)

/-! ## Free names -/

theorem toDigits_ten_inj {m n : Nat} (h : Nat.toDigits 10 m = Nat.toDigits 10 n) : m = n := by
  rw [← Nat.ofDigitChars_ten_toDigits (n := m), h, Nat.ofDigitChars_ten_toDigits]

theorem suffixed_inj {name : String} {m n : Nat} (h : suffixed name m = suffixed name n) :
    m = n := by
  have hlist : ∀ k, (suffixed name (k + 1)).toList =
      name.toList ++ '_' :: Nat.toDigits 10 (k + 2) := by
    intro k
    rw [suffixed, String.toList_append, String.toList_append, List.append_assoc]
    exact congrArg (name.toList ++ '_' :: ·) String.toList_ofList
  have hne : ∀ k, suffixed name 0 ≠ suffixed name (k + 1) := by
    intro k e
    have := congrArg List.length ((congrArg String.toList e).trans (hlist k))
    rw [List.length_append, List.length_cons] at this
    simp only [suffixed] at this
    omega
  cases m with
  | zero =>
    cases n with
    | zero => rfl
    | succ n => exact absurd h (hne n)
  | succ m =>
    cases n with
    | zero => exact absurd h.symm (hne m)
    | succ n =>
      have := congrArg String.toList h
      rw [hlist, hlist, List.append_cancel_left_eq, List.cons.injEq] at this
      have := toDigits_ten_inj this.2
      omega

theorem suffixed_valid {name : String} (h : ValidName name) (n : Nat) :
    ValidName (suffixed name n) := by
  cases n with
  | zero => exact h
  | succ n =>
    rw [suffixed]
    refine (h.append (by decide)).append ?_
    rw [Nat.toString_eq_ofList_toDigits, String.toList_ofList, List.all_eq_true]
    intro c hc
    have hd : c.isDigit = true := Nat.isDigit_of_mem_toDigits (by decide) (by decide) hc
    rw [Schema.isNameChar, Char.isAlphanum, hd, Bool.or_true]
    rfl

/-- The first candidate that is free; there is one, because there are more candidates than names
taken. -/
theorem firstFree_spec (front : String) (taken : List String) (name : String) :
    ∃ n ≤ taken.length, firstFree front taken name = suffixed name n ∧
      front ++ suffixed name n ∉ taken ∧ ∀ m < n, front ++ suffixed name m ∈ taken := by
  unfold firstFree
  cases hf : ((List.range (taken.length + 1)).map (suffixed name)).find? fun candidate =>
      !taken.contains (front ++ candidate) with
  | some c =>
    obtain ⟨hfree, n, hn, hc, hbefore⟩ := List.find?_eq_some_iff_getElem.mp hf
    rw [List.length_map, List.length_range] at hn
    rw [List.getElem_map, List.getElem_range] at hc
    subst hc
    refine ⟨n, Nat.le_of_lt_succ hn, rfl, by simpa using hfree, fun m hm => ?_⟩
    have htaken := hbefore m hm
    rw [List.getElem_map, List.getElem_range] at htaken
    simpa using htaken
  | none =>
    exfalso
    rw [List.find?_eq_none] at hf
    have hsub : ((List.range (taken.length + 1)).map fun n => front ++ suffixed name n) ⊆ taken := by
      intro s hs
      obtain ⟨n, hn, rfl⟩ := List.mem_map.mp hs
      have := hf _ (List.mem_map_of_mem hn)
      simpa using this
    have hnodup : ((List.range (taken.length + 1)).map fun n =>
        front ++ suffixed name n).Nodup := by
      rw [List.nodup_iff_pairwise_ne, List.pairwise_map]
      refine List.Pairwise.imp ?_ (List.nodup_range (n := taken.length + 1))
      intro m n hmn e
      exact hmn (suffixed_inj ((String.append_right_inj front).mp e))
    have := hnodup.length_le_of_subset hsub
    rw [List.length_map, List.length_range] at this
    omega

theorem firstFree_not_mem (front : String) (taken : List String) (name : String) :
    front ++ firstFree front taken name ∉ taken := by
  obtain ⟨n, -, hname, hfree, -⟩ := firstFree_spec front taken name
  rwa [hname]

theorem firstFree_valid (front : String) (taken : List String) {name : String}
    (h : ValidName name) : ValidName (firstFree front taken name) := by
  obtain ⟨n, -, hname, -⟩ := firstFree_spec front taken name
  rw [hname]
  exact suffixed_valid h n

/-- Only which names are taken counts, not their order. -/
theorem firstFree_perm (front : String) {taken taken' : List String} (h : taken.Perm taken')
    (name : String) : firstFree front taken name = firstFree front taken' name := by
  unfold firstFree
  have hc : (fun candidate => !taken.contains (front ++ candidate)) =
      fun candidate => !taken'.contains (front ++ candidate) := by
    funext candidate
    rw [h.contains_eq]
  rw [h.length_eq, hc]

/-! ## Sorting -/

/-- Sorting forgets the order in which the items of a list came. -/
theorem mergeSort_perm_eq {α : Type} {le : α → α → Bool} {l l' : List α}
    (trans : ∀ a b c, le a b = true → le b c = true → le a c = true)
    (total : ∀ a b, (le a b || le b a) = true)
    (antisymm : ∀ a ∈ l, ∀ b ∈ l, le a b = true → le b a = true → a = b)
    (h : l.Perm l') : l.mergeSort le = l'.mergeSort le := by
  have hp : (l.mergeSort le).Perm (l'.mergeSort le) :=
    (List.mergeSort_perm l le).trans (h.trans (List.mergeSort_perm l' le).symm)
  refine List.Perm.eq_of_pairwise ?_ (List.pairwise_mergeSort trans total l)
    (List.pairwise_mergeSort trans total l') hp
  intro a b ha hb
  exact antisymm a ((List.mergeSort_perm l le).mem_iff.mp ha)
    b (h.mem_iff.mpr ((List.mergeSort_perm l' le).mem_iff.mp hb))

theorem leString_trans (a b c : String) (hab : decide (a ≤ b) = true)
    (hbc : decide (b ≤ c) = true) : decide (a ≤ c) = true :=
  decide_eq_true (String.le_trans (of_decide_eq_true hab) (of_decide_eq_true hbc))

theorem leString_total (a b : String) : (decide (a ≤ b) || decide (b ≤ a)) = true := by
  rw [Bool.or_eq_true, decide_eq_true_eq, decide_eq_true_eq]
  exact String.le_total a b

theorem leString_antisymm {a b : String} (hab : decide (a ≤ b) = true)
    (hba : decide (b ≤ a) = true) : a = b :=
  String.le_antisymm (of_decide_eq_true hab) (of_decide_eq_true hba)

/-! ## Names of keys -/

theorem keys_nameKeys (names : List (String × String)) (keys : List String) :
    (nameKeys names keys).map (·.1) = names.map (·.1) ++ keys := by
  induction keys generalizing names with
  | nil => rw [nameKeys, List.append_nil]
  | cons key keys ih =>
    rw [nameKeys, ih, List.map_append, List.append_assoc]
    rfl

theorem nodup_nameKeys {names : List (String × String)} (keys : List String)
    (h : (names.map (·.2)).Nodup) : ((nameKeys names keys).map (·.2)).Nodup := by
  induction keys generalizing names with
  | nil => exact h
  | cons key keys ih =>
    refine ih ?_
    rw [List.map_append, List.nodup_append]
    refine ⟨h, by simp, ?_⟩
    intro a ha b hb e
    rw [List.map_singleton, List.mem_singleton] at hb
    have hfree := firstFree_not_mem "" (names.map (·.2)) (Schema.avroName key)
    rw [String.empty_append] at hfree
    subst e
    subst hb
    exact hfree ha

theorem valid_nameKeys {names : List (String × String)} (keys : List String)
    (h : ∀ n ∈ names, ValidName n.2) : ∀ n ∈ nameKeys names keys, ValidName n.2 := by
  induction keys generalizing names with
  | nil => exact h
  | cons key keys ih =>
    refine ih fun n hn => ?_
    rcases List.mem_append.mp hn with hn | hn
    · exact h n hn
    · rw [List.mem_singleton] at hn
      subst hn
      exact firstFree_valid "" _ (Schema.avroName_valid key)

theorem nameKeys_perm {names names' : List (String × String)} (keys : List String)
    (h : names.Perm names') : (nameKeys names keys).Perm (nameKeys names' keys) := by
  induction keys generalizing names names' with
  | nil => exact h
  | cons key keys ih =>
    have hf := firstFree_perm "" (h.map (·.2)) (Schema.avroName key)
    refine ih ?_
    simp only [hf]
    exact h.append_right _

theorem isName_valid {key : String} (h : isName key = true) : ValidName key := by
  have : Schema.avroName key = key := by simpa [isName] using h
  rw [← this]
  exact Schema.avroName_valid key

/-- Every key has a name. -/
theorem keys_fieldNames_perm (keys : List String) :
    ((fieldNames keys).map (·.1)).Perm keys := by
  unfold fieldNames
  rw [keys_nameKeys, List.map_map]
  refine List.Perm.trans (List.Perm.append_left _ (List.mergeSort_perm _ _)) ?_
  rw [show (keys.filter isName).map ((fun n => n.1) ∘ fun k => (k, k)) = keys.filter isName from
    List.map_id' _]
  exact List.filter_append_perm isName keys

/-- No two keys have one name. -/
theorem nodup_fieldNames {keys : List String} (h : keys.Nodup) :
    ((fieldNames keys).map (·.2)).Nodup := by
  refine nodup_nameKeys _ ?_
  rw [List.map_map, show (keys.filter isName).map ((fun n => n.2) ∘ fun k => (k, k)) =
    keys.filter isName from List.map_id' _]
  exact h.filter _

theorem valid_fieldNames (keys : List String) : ∀ n ∈ fieldNames keys, ValidName n.2 := by
  refine valid_nameKeys _ fun n hn => ?_
  obtain ⟨k, hk, rfl⟩ := List.mem_map.mp hn
  exact isName_valid (List.mem_filter.mp hk).2

/-- The names of keys do not depend on the order of the keys. -/
theorem fieldNames_perm {keys keys' : List String} (h : keys.Perm keys') :
    (fieldNames keys).Perm (fieldNames keys') := by
  unfold fieldNames
  have hs : (keys.filter fun k => !isName k).mergeSort (fun a b => decide (a ≤ b)) =
      (keys'.filter fun k => !isName k).mergeSort fun a b => decide (a ≤ b) :=
    mergeSort_perm_eq leString_trans leString_total (fun _ _ _ _ => leString_antisymm)
      (h.filter _)
  simp only [hs]
  exact nameKeys_perm _ ((h.filter _).map _)

/-- The name of a key among the keys of one record. -/
def nameOfKey (keys : List String) (key : String) : String :=
  (lookup? key (fieldNames keys)).getD key

theorem mem_fieldNames {keys : List String} {key : String} (h : key ∈ keys) :
    (key, nameOfKey keys key) ∈ fieldNames keys := by
  have hk : key ∈ (fieldNames keys).map (·.1) := (keys_fieldNames_perm keys).mem_iff.mpr h
  obtain ⟨name, hn⟩ := Option.isSome_iff_exists.mp (lookup?_isSome.mpr hk)
  rw [nameOfKey, hn]
  exact mem_of_lookup? hn

theorem valid_nameOfKey {keys : List String} {key : String} (h : key ∈ keys) :
    ValidName (nameOfKey keys key) := valid_fieldNames keys _ (mem_fieldNames h)

theorem nameOfKey_inj {keys : List String} (hd : keys.Nodup) {k k' : String} (hk : k ∈ keys)
    (hk' : k' ∈ keys) (h : nameOfKey keys k = nameOfKey keys k') : k = k' := by
  have hm := mem_fieldNames hk
  have hm' := mem_fieldNames hk'
  exact congrArg Prod.fst (eq_of_nodup_map (nodup_fieldNames hd) hm hm' h)

theorem nameOfKey_perm {keys keys' : List String} (hd : keys.Nodup) (h : keys.Perm keys')
    (key : String) : nameOfKey keys key = nameOfKey keys' key := by
  have hn : ((fieldNames keys).map (·.1)).Nodup := (keys_fieldNames_perm keys).nodup_iff.mpr hd
  rw [nameOfKey, nameOfKey, lookup?_perm hn (fieldNames_perm h)]

/-! ## The order of positions -/

theorem stepsLe_total (p q : Position) : (stepsLe p q || stepsLe q p) = true := by
  induction p generalizing q with
  | nil => rfl
  | cons a p ih =>
    cases q with
    | nil => rfl
    | cons b q =>
      cases a with
      | key a =>
        cases b with
        | key b =>
          rw [stepsLe, stepsLe]
          by_cases h : a = b
          · subst h
            rw [if_pos rfl, if_pos rfl]
            exact ih q
          · rw [if_neg h, if_neg fun e => h e.symm]
            exact leString_total a b
        | items => rfl
      | items =>
        cases b with
        | key b => rfl
        | items => exact ih q

theorem stepsLe_antisymm {p q : Position} (hpq : stepsLe p q = true) (hqp : stepsLe q p = true) :
    p = q := by
  induction p generalizing q with
  | nil =>
    cases q with
    | nil => rfl
    | cons b q => cases hqp
  | cons a p ih =>
    cases q with
    | nil => cases hpq
    | cons b q =>
      cases a with
      | key a =>
        cases b with
        | key b =>
          rw [stepsLe] at hpq hqp
          by_cases h : a = b
          · subst h
            rw [if_pos rfl] at hpq hqp
            rw [ih hpq hqp]
          · rw [if_neg h] at hpq
            rw [if_neg fun e => h e.symm] at hqp
            exact absurd (leString_antisymm hpq hqp) h
        | items => cases hqp
      | items =>
        cases b with
        | key b => cases hpq
        | items => rw [ih hpq hqp]

theorem stepsLe_trans {p q r : Position} (hpq : stepsLe p q = true) (hqr : stepsLe q r = true) :
    stepsLe p r = true := by
  induction p generalizing q r with
  | nil => rfl
  | cons a p ih =>
    cases q with
    | nil => cases hpq
    | cons b q =>
      cases r with
      | nil => cases b <;> cases hqr
      | cons c r =>
        cases a with
        | items =>
          cases b with
          | key b => cases hpq
          | items =>
            cases c with
            | key c => cases hqr
            | items => exact ih hpq hqr
        | key a =>
          cases c with
          | items => rfl
          | key c =>
            cases b with
            | items => cases hqr
            | key b =>
              rw [stepsLe] at hpq hqr ⊢
              by_cases hab : a = b
              · subst hab
                rw [if_pos rfl] at hpq
                by_cases hac : a = c
                · rw [if_pos hac] at hqr ⊢
                  exact ih hpq hqr
                · rw [if_neg hac] at hqr ⊢
                  exact hqr
              · rw [if_neg hab] at hpq
                by_cases hbc : b = c
                · subst hbc
                  rw [if_neg hab]
                  exact hpq
                · rw [if_neg hbc] at hqr
                  have hac : a ≠ c := by
                    rintro rfl
                    exact hab (leString_antisymm hpq hqr)
                  rw [if_neg hac]
                  exact leString_trans a b c hpq hqr

theorem positionLe_total (p q : Position) : (positionLe p q || positionLe q p) = true := by
  unfold positionLe
  by_cases h : p.length = q.length
  · rw [if_pos h, if_pos h.symm]
    exact stepsLe_total p q
  · rw [if_neg h, if_neg fun e => h e.symm, Bool.or_eq_true, decide_eq_true_eq, decide_eq_true_eq]
    omega

theorem length_le_of_positionLe {p q : Position} (h : positionLe p q = true) :
    p.length ≤ q.length := by
  unfold positionLe at h
  split at h
  · omega
  · have := of_decide_eq_true h
    omega

theorem positionLe_antisymm {p q : Position} (hpq : positionLe p q = true)
    (hqp : positionLe q p = true) : p = q := by
  have h : p.length = q.length :=
    Nat.le_antisymm (length_le_of_positionLe hpq) (length_le_of_positionLe hqp)
  unfold positionLe at hpq hqp
  rw [if_pos h] at hpq
  rw [if_pos h.symm] at hqp
  exact stepsLe_antisymm hpq hqp

theorem positionLe_trans {p q r : Position} (hpq : positionLe p q = true)
    (hqr : positionLe q r = true) : positionLe p r = true := by
  have h1 := length_le_of_positionLe hpq
  have h2 := length_le_of_positionLe hqr
  unfold positionLe at hpq hqr ⊢
  by_cases h : p.length = r.length
  · have hpq' : p.length = q.length := by omega
    have hqr' : q.length = r.length := by omega
    rw [if_pos hpq'] at hpq
    rw [if_pos hqr'] at hqr
    rw [if_pos h]
    exact stepsLe_trans hpq hqr
  · rw [if_neg h]
    exact decide_eq_true (by omega)

/-! ## Names of records -/

/-- The names of records do not depend on the order in which the records come. -/
theorem recordNames_perm {sites sites' : List RecordSite} (hd : (sites.map (·.position)).Nodup)
    (h : sites.Perm sites') : recordNames sites = recordNames sites' := by
  have hs : (sites.mergeSort fun a b => positionLe a.position b.position) =
      sites'.mergeSort fun a b => positionLe a.position b.position := by
    refine mergeSort_perm_eq (fun _ _ _ => positionLe_trans) (fun _ _ => positionLe_total _ _) ?_ h
    intro a ha b hb hab hba
    exact eq_of_nodup_map hd ha hb (positionLe_antisymm hab hba)
  rw [recordNames, recordNames, hs]

open Outline (nameAt)

/-- The full name of a record, with a dot in front when it has no namespace. -/
def markedName (names : List (Position × String)) (site : RecordSite) : String :=
  site.namespaceName ++ "." ++ nameAt names site

theorem nameAt_cons (p : Position) (name : String) (names : List (Position × String))
    (site : RecordSite) :
    nameAt ((p, name) :: names) site = if p = site.position then name else nameAt names site := by
  unfold nameAt
  rw [List.find?_cons]
  by_cases h : p = site.position <;> simp [h]

theorem nameSites_spec (sites : List RecordSite) (taken : List String)
    (hd : (sites.map (·.position)).Nodup) :
    (sites.map (markedName (nameSites taken sites))).Nodup ∧
      ∀ s ∈ sites, markedName (nameSites taken sites) s ∉ taken ∧
        (ValidName s.name → ValidName (nameAt (nameSites taken sites) s)) := by
  induction sites generalizing taken with
  | nil => exact ⟨List.nodup_nil, fun s hs => absurd hs List.not_mem_nil⟩
  | cons site sites ih =>
    rw [List.map_cons, List.nodup_cons] at hd
    rw [nameSites]
    have hfree := firstFree_not_mem (site.namespaceName ++ ".") taken site.name
    have hvalid : ValidName site.name →
        ValidName (firstFree (site.namespaceName ++ ".") taken site.name) := firstFree_valid _ _
    revert hfree hvalid
    generalize firstFree (site.namespaceName ++ ".") taken site.name = name
    intro hfree hvalid
    obtain ⟨hnodup, hrest⟩ := ih ((site.namespaceName ++ "." ++ name) :: taken) hd.2
    revert hnodup hrest
    generalize nameSites ((site.namespaceName ++ "." ++ name) :: taken) sites = names
    intro hnodup hrest
    have hhere : nameAt ((site.position, name) :: names) site = name := by
      rw [nameAt_cons, if_pos rfl]
    have hbehind : ∀ s ∈ sites, nameAt ((site.position, name) :: names) s = nameAt names s := by
      intro s hs
      rw [nameAt_cons, if_neg]
      intro e
      exact hd.1 (e ▸ List.mem_map_of_mem hs)
    have hmap : sites.map (markedName ((site.position, name) :: names)) =
        sites.map (markedName names) := by
      refine List.map_congr_left fun s hs => ?_
      rw [markedName, hbehind s hs, markedName]
    refine ⟨?_, fun s hs => ?_⟩
    · rw [List.map_cons, hmap, List.nodup_cons, markedName, hhere]
      refine ⟨fun hm => ?_, hnodup⟩
      obtain ⟨s, hs, e⟩ := List.mem_map.mp hm
      exact (hrest s hs).1 (e ▸ List.mem_cons_self)
    · rcases List.mem_cons.mp hs with rfl | hs
      · rw [markedName, hhere]
        exact ⟨hfree, hvalid⟩
      · rw [markedName, hbehind s hs]
        exact ⟨fun hm => (hrest s hs).1 (List.mem_cons_of_mem _ hm), (hrest s hs).2⟩

/-- No two records have one full name. -/
theorem nodup_markedNames {sites : List RecordSite} (hd : (sites.map (·.position)).Nodup) :
    (sites.map (markedName (recordNames sites))).Nodup := by
  have hp := List.mergeSort_perm sites fun a b => positionLe a.position b.position
  have hs := (nameSites_spec _ [] ((hp.map (·.position)).nodup_iff.mpr hd)).1
  exact (hp.map _).nodup_iff.mp hs

theorem valid_nameAt {sites : List RecordSite} (hd : (sites.map (·.position)).Nodup)
    {site : RecordSite} (hs : site ∈ sites) (hv : ValidName site.name) :
    ValidName (nameAt (recordNames sites) site) := by
  have hp := List.mergeSort_perm sites fun a b => positionLe a.position b.position
  exact ((nameSites_spec _ [] ((hp.map (·.position)).nodup_iff.mpr hd)).2 site
    (hp.mem_iff.mpr hs)).2 hv

end Inference
end AvroDocument
