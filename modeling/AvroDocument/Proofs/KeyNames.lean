import AvroDocument.Proofs.Bounds
import AvroDocument.Proofs.Naming
import Mathlib

/-!
# AvroDocument.Proofs.KeyNames

How the keys of a record come by their names.

* `search`, `seekFieldNames`: names sought form by form, in rounds.
* `seekFieldNames_returns`: every search ends, and gives the names of `fieldNames`.
* `TakenBefore`: the names that are taken when it is a key's turn.
* `fieldNames_served`: each key gets the first form of its name that is free at its turn.
-/

namespace AvroDocument
namespace Inference

open Schema (ValidName avroName)

/-! ## Searching -/

/-- The first form of a name that is not taken, from a form on, sought in some rounds; none when each
of these finds a form that is taken. -/
def search (taken : List String) (name : String) : Nat → Nat → Option String
  | 0, _ => none
  | rounds + 1, n =>
    if taken.contains (suffixed name n) then search taken name rounds (n + 1)
    else some (suffixed name n)

/-- Names for keys in turn, as `nameKeys` gives them, each sought in some rounds. -/
def seekNames (rounds : Nat) (names : List (String × String)) :
    List String → Option (List (String × String))
  | [] => some names
  | key :: keys =>
    match search (names.map (·.2)) (avroName key) rounds 0 with
    | none => none
    | some name => seekNames rounds (names ++ [(key, name)]) keys

/-- The keys that need another name, in the order in which they get it. -/
def invalidKeys (keys : List String) : List String :=
  (keys.filter fun k => !isName k).mergeSort fun a b => decide (a ≤ b)

/-- Names for the keys of one record, as `fieldNames` gives them, each sought in some rounds. -/
def seekFieldNames (rounds : Nat) (keys : List String) : Option (List (String × String)) :=
  seekNames rounds ((keys.filter isName).map fun k => (k, k)) (invalidKeys keys)

/-- A search passes over the forms that are taken. -/
theorem search_eq {taken : List String} {name : String} {rounds n k : Nat}
    (hfree : suffixed name (n + k) ∉ taken) (htaken : ∀ m < n + k, suffixed name m ∈ taken)
    (hrounds : k < rounds) : search taken name rounds n = some (suffixed name (n + k)) := by
  induction k generalizing n rounds with
  | zero =>
    obtain ⟨rest, rfl⟩ := Nat.exists_eq_add_one.mpr hrounds
    rw [search, if_neg (by simpa using hfree)]
    rfl
  | succ k ih =>
    obtain ⟨rest, rfl⟩ := Nat.exists_eq_add_one.mpr (Nat.lt_of_le_of_lt (Nat.zero_le _) hrounds)
    have hnext : n + 1 + k = n + (k + 1) := by omega
    rw [search, if_pos (by simpa using htaken n (by omega)),
      ih (hnext ▸ hfree) (hnext ▸ htaken) (by omega), hnext]

/-- A search comes to its end in one round more than there are names taken. -/
theorem search_firstFree {taken : List String} {rounds : Nat} (hrounds : taken.length < rounds)
    (name : String) : search taken name rounds 0 = some (firstFree "" taken name) := by
  obtain ⟨n, hn, hname, hfree, htaken⟩ := firstFree_spec "" taken name
  simp only [String.empty_append] at hfree htaken
  have hsearch := @search_eq taken name rounds 0 n (by rwa [Nat.zero_add]) (by rwa [Nat.zero_add])
    (Nat.lt_of_le_of_lt hn hrounds)
  rw [hsearch, hname, Nat.zero_add]

theorem seekNames_eq {rounds : Nat} {names : List (String × String)} {keys : List String}
    (hrounds : names.length + keys.length ≤ rounds) :
    seekNames rounds names keys = some (nameKeys names keys) := by
  induction keys generalizing names with
  | nil => rfl
  | cons key keys ih =>
    rw [List.length_cons] at hrounds
    rw [seekNames, search_firstFree (by rw [List.length_map]; omega)]
    exact ih (by rw [List.length_append, List.length_singleton]; omega)

/-- The names of the keys are found: as many rounds as there are keys are enough. -/
theorem seekFieldNames_returns (keys : List String) :
    Returns (seekFieldNames · keys) (fieldNames keys) := by
  refine ⟨keys.length, fun rounds hrounds => seekNames_eq ?_⟩
  have hall := (List.filter_append_perm isName keys).length_eq
  rw [List.length_append] at hall
  rw [List.length_map, invalidKeys, (List.mergeSort_perm _ _).length_eq, hall]
  exact hrounds

/-! ## Valid keys and others -/

theorem map_nameChars {cs : List Char} (h : cs.all Schema.isNameChar = true) :
    cs.map (fun c => if Schema.isNameChar c then c else '_') = cs := by
  conv => rhs; rw [← List.map_id cs]
  exact List.map_congr_left fun c hc => if_pos (List.all_eq_true.mp h c hc)

theorem isName_iff {key : String} : isName key = true ↔ ValidName key := by
  refine ⟨isName_valid, fun ⟨hall, c, hc, hdigit⟩ => ?_⟩
  obtain ⟨cs, hcs⟩ := List.head?_eq_some_iff.mp hc
  rw [isName, decide_eq_true_eq, avroName, map_nameChars hall, hcs]
  simp only [hdigit]
  rw [← hcs]
  exact String.ofList_toList

/-! ## Keys in turn -/

theorem nameKeys_append (names : List (String × String)) (front back : List String) :
    nameKeys names (front ++ back) = nameKeys (nameKeys names front) back := by
  induction front generalizing names with
  | nil => rfl
  | cons key front ih =>
    rw [List.cons_append, nameKeys, nameKeys]
    exact ih _

theorem subset_nameKeys (names : List (String × String)) (keys : List String) :
    names ⊆ nameKeys names keys := by
  induction keys generalizing names with
  | nil => exact List.Subset.refl _
  | cons key keys ih =>
    rw [nameKeys]
    exact fun _ h => ih _ (List.mem_append_left _ h)

theorem mem_invalidKeys {keys : List String} {key : String} :
    key ∈ invalidKeys keys ↔ key ∈ keys ∧ ¬ ValidName key := by
  rw [invalidKeys, (List.mergeSort_perm _ _).mem_iff, List.mem_filter, ← isName_iff]
  simp

/-- Distinct keys come strictly one after the other. -/
theorem pairwise_invalidKeys {keys : List String} (h : keys.Nodup) :
    (invalidKeys keys).Pairwise (· < ·) := by
  have hsorted := List.pairwise_mergeSort leString_trans leString_total
    (keys.filter fun k => !isName k)
  have hnodup : (invalidKeys keys).Nodup := (List.mergeSort_perm _ _).nodup_iff.mpr (h.filter _)
  refine (hsorted.and hnodup).imp fun {a b} hab => ?_
  exact String.not_le.mp fun hba => hab.2 (String.le_antisymm (of_decide_eq_true hab.1) hba)

/-- The names that are taken when a key gets its name: the valid keys, and the names of the keys in
front of it that are no valid names. -/
def TakenBefore (keys : List String) (key name : String) : Prop :=
  (name ∈ keys ∧ ValidName name) ∨
    ∃ other ∈ keys, ¬ ValidName other ∧ other < key ∧ (other, name) ∈ fieldNames keys

section turn

variable {keys front back : List String} {key : String}

/-- The names given before a key gets its name. -/
def givenBefore (keys front : List String) : List (String × String) :=
  nameKeys ((keys.filter isName).map fun k => (k, k)) front

theorem fieldNames_turn (hkeys : invalidKeys keys = front ++ key :: back) :
    givenBefore keys front ⊆ fieldNames keys ∧
      (key, firstFree "" ((givenBefore keys front).map (·.2)) (avroName key)) ∈ fieldNames keys := by
  have hnames : fieldNames keys = nameKeys (givenBefore keys front ++
      [(key, firstFree "" ((givenBefore keys front).map (·.2)) (avroName key))]) back := by
    rw [fieldNames, ← invalidKeys, hkeys, nameKeys_append, nameKeys, givenBefore]
  have hsubset := hnames ▸ subset_nameKeys _ back
  exact ⟨fun _ h => hsubset (List.mem_append_left _ h),
    hsubset (List.mem_append_right _ (List.mem_singleton_self _))⟩

theorem entry_unique (h : keys.Nodup) {a b : String × String} (ha : a ∈ fieldNames keys)
    (hb : b ∈ fieldNames keys) (hab : a.1 = b.1) : a = b :=
  eq_of_nodup_map ((keys_fieldNames_perm keys).nodup_iff.mpr h) ha hb hab

theorem keys_givenBefore (keys front : List String) :
    (givenBefore keys front).map (·.1) = keys.filter isName ++ front := by
  rw [givenBefore, keys_nameKeys, List.map_map]
  exact congrArg (· ++ front) (List.map_id' _)

theorem mem_givenBefore_of_isName {name : String} (hname : name ∈ keys.filter isName) :
    (name, name) ∈ givenBefore keys front :=
  subset_nameKeys _ _ (List.mem_map_of_mem hname)

/-- What is given before a key gets its name is what is taken then. -/
theorem mem_givenBefore (h : keys.Nodup) (hkeys : invalidKeys keys = front ++ key :: back)
    {name : String} : name ∈ (givenBefore keys front).map (·.2) ↔ TakenBefore keys key name := by
  have hsubset := (fieldNames_turn hkeys).1
  have hsorted := pairwise_invalidKeys h
  rw [hkeys, List.pairwise_append] at hsorted
  constructor
  · intro hgiven
    obtain ⟨entry, hentry, rfl⟩ := List.mem_map.mp hgiven
    have hkey := List.mem_map_of_mem (f := (·.1)) hentry
    rw [keys_givenBefore, List.mem_append] at hkey
    rcases hkey with hvalid | hfront
    · have hsame := entry_unique h (hsubset hentry) (hsubset (mem_givenBefore_of_isName hvalid)) rfl
      obtain ⟨hmem, hname⟩ := List.mem_filter.mp hvalid
      rw [hsame]
      exact .inl ⟨hmem, isName_iff.mp hname⟩
    · obtain ⟨hmem, hinvalid⟩ := mem_invalidKeys.mp (hkeys ▸ List.mem_append_left _ hfront)
      exact .inr ⟨entry.1, hmem, hinvalid, hsorted.2.2 _ hfront _ List.mem_cons_self,
        hsubset hentry⟩
  · rintro (⟨hmem, hvalid⟩ | ⟨other, hmem, hinvalid, hless, hother⟩)
    · have hname := List.mem_filter.mpr ⟨hmem, isName_iff.mpr hvalid⟩
      exact List.mem_map_of_mem (f := (·.2)) (mem_givenBefore_of_isName hname)
    · have hfront : other ∈ front := by
        have hturn := hkeys ▸ mem_invalidKeys.mpr ⟨hmem, hinvalid⟩
        rcases List.mem_append.mp hturn with hfront | hbehind
        · exact hfront
        rcases List.mem_cons.mp hbehind with rfl | hback
        · exact absurd hless (String.lt_irrefl _)
        · exact absurd hless (String.lt_asymm ((List.pairwise_cons.mp hsorted.2.1).1 _ hback))
      have hkey : other ∈ (givenBefore keys front).map (·.1) := by
        rw [keys_givenBefore]
        exact List.mem_append_right _ hfront
      obtain ⟨entry, hentry, hsame⟩ := List.mem_map.mp hkey
      have heq := entry_unique h (hsubset hentry) hother hsame
      exact List.mem_map.mpr ⟨entry, hentry, by rw [heq]⟩

end turn

/-- A key that is no valid name gets the first form of its name that is not taken before; fewer forms
than there are keys are passed over. -/
theorem served_invalid {keys : List String} (h : keys.Nodup) {key : String} (hkey : key ∈ keys)
    (hinvalid : ¬ ValidName key) :
    ∃ n < keys.length, (key, suffixed (avroName key) n) ∈ fieldNames keys ∧
      ¬ TakenBefore keys key (suffixed (avroName key) n) ∧
      ∀ m < n, TakenBefore keys key (suffixed (avroName key) m) := by
  obtain ⟨front, back, hkeys⟩ := List.append_of_mem (mem_invalidKeys.mpr ⟨hkey, hinvalid⟩)
  obtain ⟨n, hn, hname, hfree, htaken⟩ :=
    firstFree_spec "" ((givenBefore keys front).map (·.2)) (avroName key)
  simp only [String.empty_append, mem_givenBefore h hkeys] at hfree htaken
  have hmem := (fieldNames_turn hkeys).2
  rw [hname] at hmem
  refine ⟨n, ?_, hmem, hfree, htaken⟩
  -- the key itself is still without a name
  have hlength : ((givenBefore keys front).map (·.1)).length < keys.length := by
    rw [keys_givenBefore]
    have hall := (List.filter_append_perm isName keys).length_eq
    have hothers := congrArg List.length hkeys
    rw [invalidKeys, (List.mergeSort_perm _ _).length_eq] at hothers
    simp only [List.length_append, List.length_cons] at hall hothers ⊢
    omega
  rw [List.length_map] at hn hlength
  omega

/-- The names of the keys of one record: every search for a name ends, each key has one valid name and
no two share one, valid keys keep theirs, the others get the first form that is free when they are
served in the order of the keys, and it does not matter how the keys were presented. -/
theorem fieldNames_served {keys : List String} (h : keys.Nodup) :
    Returns (seekFieldNames · keys) (fieldNames keys) ∧
      ((fieldNames keys).map (·.1)).Perm keys ∧
      ((fieldNames keys).map (·.2)).Nodup ∧
      (∀ entry ∈ fieldNames keys, ValidName entry.2) ∧
      (∀ key ∈ keys, ValidName key → (key, key) ∈ fieldNames keys) ∧
      (∀ key ∈ keys, ¬ ValidName key → ∃ n < keys.length,
        (key, suffixed (avroName key) n) ∈ fieldNames keys ∧
          ¬ TakenBefore keys key (suffixed (avroName key) n) ∧
          ∀ m < n, TakenBefore keys key (suffixed (avroName key) m)) ∧
      ∀ keys', keys.Perm keys' →
        ∀ key, lookup? key (fieldNames keys') = lookup? key (fieldNames keys) := by
  refine ⟨seekFieldNames_returns keys, keys_fieldNames_perm keys, nodup_fieldNames h,
    valid_fieldNames keys, ?_, fun key hkey => served_invalid h hkey, ?_⟩
  · intro key hkey hvalid
    exact subset_nameKeys _ _
      (List.mem_map_of_mem (List.mem_filter.mpr ⟨hkey, isName_iff.mpr hvalid⟩))
  · intro keys' hperm key
    have hnodup := (keys_fieldNames_perm keys).nodup_iff.mpr h
    exact (lookup?_perm hnodup (fieldNames_perm hperm)).symm

/-- Keys whose names collide with valid keys, with a suffixed one among them, and with each other. -/
theorem fieldNames_served_colliding :
    let keys := ["a-b", "a_b", "9", "a b", "a_b_2", "_9"]
    keys.Nodup ∧
      Returns (seekFieldNames · keys) [("a_b", "a_b"), ("a_b_2", "a_b_2"), ("_9", "_9"),
        ("9", "_9_2"), ("a b", "a_b_3"), ("a-b", "a_b_4")] ∧
      lookup? "a-b" (fieldNames keys.reverse) = some "a_b_4" := by
  intro keys
  have hd : keys.Nodup := by decide
  have hnames : fieldNames keys = [("a_b", "a_b"), ("a_b_2", "a_b_2"), ("_9", "_9"), ("9", "_9_2"),
      ("a b", "a_b_3"), ("a-b", "a_b_4")] := by cbv
  obtain ⟨hseek, -, -, -, -, -, hperm⟩ := fieldNames_served hd
  refine ⟨hd, hnames ▸ hseek, ?_⟩
  rw [hperm keys.reverse (List.reverse_perm keys).symm, hnames]
  rfl

end Inference
end AvroDocument
