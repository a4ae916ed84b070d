import AvroDocument.Value

/-!
# AvroDocument.Proofs.Association

Association lists under text keys: members of JSON objects (`lookup?`, `assign`) and entries of
structs (`Value.member?`, `Value.setEntry`).

* `lookup?_assign`, `keys_assign`: what setting a key changes.
* `lookup?_perm`: with distinct keys the order does not matter.
* `Value.member?_setEntry`, `Value.member?_perm`: the same for entries.
-/

namespace AvroDocument

variable {α : Type}

/-- Items that a function tells apart are equal when their images are. -/
theorem eq_of_nodup_map {β : Type} {f : α → β} {l : List α} (hd : (l.map f).Nodup) {a b : α}
    (ha : a ∈ l) (hb : b ∈ l) (h : f a = f b) : a = b := by
  induction l with
  | nil => cases ha
  | cons c l ih =>
    rw [List.map_cons, List.nodup_cons] at hd
    rcases List.mem_cons.mp ha with rfl | ha'
    · rcases List.mem_cons.mp hb with rfl | hb'
      · rfl
      · exact absurd (h ▸ List.mem_map_of_mem hb') hd.1
    · rcases List.mem_cons.mp hb with rfl | hb'
      · exact absurd (h ▸ List.mem_map_of_mem ha') hd.1
      · exact ih hd.2 ha' hb'

/-! ## Members -/

theorem lookup?_isSome {key : String} {l : List (String × α)} :
    (lookup? key l).isSome ↔ key ∈ l.map (·.1) := by
  induction l with
  | nil => simp [lookup?]
  | cons m rest ih =>
    obtain ⟨k, v⟩ := m
    by_cases hk : k = key
    · simp [lookup?, hk]
    · have hk' : ¬ key = k := fun h => hk h.symm
      simp [lookup?, hk, hk', ih]

theorem lookup?_eq_none {key : String} {l : List (String × α)} :
    lookup? key l = none ↔ key ∉ l.map (·.1) := by
  rw [← lookup?_isSome]
  cases lookup? key l <;> simp

theorem mem_of_lookup? {key : String} {v : α} {l : List (String × α)}
    (h : lookup? key l = some v) : (key, v) ∈ l := by
  induction l with
  | nil => simp [lookup?] at h
  | cons m rest ih =>
    obtain ⟨k, w⟩ := m
    simp only [lookup?] at h
    split at h
    · next hk =>
      cases h
      subst hk
      exact List.mem_cons_self
    · exact List.mem_cons_of_mem _ (ih h)

theorem lookup?_of_mem {key : String} {v : α} {l : List (String × α)}
    (hd : (l.map (·.1)).Nodup) (h : (key, v) ∈ l) : lookup? key l = some v := by
  induction l with
  | nil => cases h
  | cons m rest ih =>
    obtain ⟨k, w⟩ := m
    simp only [List.map_cons, List.nodup_cons] at hd
    rw [lookup?]
    rcases List.mem_cons.mp h with here | behind
    · cases here
      rw [if_pos rfl]
    · have hk : k ≠ key := by
        intro e
        subst e
        exact hd.1 (List.mem_map_of_mem behind)
      rw [if_neg hk]
      exact ih hd.2 behind

/-- With distinct keys the order of members does not matter. -/
theorem lookup?_perm {key : String} {l l' : List (String × α)} (hd : (l.map (·.1)).Nodup)
    (h : l.Perm l') : lookup? key l = lookup? key l' := by
  have hd' : (l'.map (·.1)).Nodup := (h.map _).nodup_iff.mp hd
  cases hl : lookup? key l with
  | none =>
    have hk := lookup?_eq_none.mp hl
    rw [(h.map _).mem_iff] at hk
    exact (lookup?_eq_none.mpr hk).symm
  | some v => exact (lookup?_of_mem hd' (h.mem_iff.mp (mem_of_lookup? hl))).symm

theorem lookup?_assign {key k : String} {v : α} {l : List (String × α)} :
    lookup? k (assign key v l) = if k = key then some v else lookup? k l := by
  induction l with
  | nil => simp [assign, lookup?, eq_comm]
  | cons m rest ih =>
    obtain ⟨k', w⟩ := m
    rw [assign]
    by_cases hk : k' = key
    · subst hk
      rw [if_pos rfl, lookup?, lookup?]
      by_cases h : k' = k
      · simp [h]
      · have h' : ¬ k = k' := fun e => h e.symm
        simp [h, h']
    · rw [if_neg hk, lookup?, lookup?, ih]
      by_cases h : k' = k
      · subst h
        simp [hk]
      · simp [h]

theorem keys_assign {key : String} {v : α} {l : List (String × α)} :
    (assign key v l).map (·.1) =
      if key ∈ l.map (·.1) then l.map (·.1) else l.map (·.1) ++ [key] := by
  induction l with
  | nil => rfl
  | cons m rest ih =>
    obtain ⟨k, w⟩ := m
    rw [assign]
    by_cases hk : k = key
    · subst hk
      simp
    · have hk' : ¬ key = k := fun h => hk h.symm
      rw [if_neg hk, List.map_cons, ih]
      by_cases h : key ∈ rest.map (·.1)
      · simp [h]
      · simp [h, hk']

theorem nodup_keys_assign {key : String} {v : α} {l : List (String × α)}
    (hd : (l.map (·.1)).Nodup) : ((assign key v l).map (·.1)).Nodup := by
  rw [keys_assign]
  split
  · exact hd
  · next h =>
    refine List.nodup_append.mpr ⟨hd, by simp, ?_⟩
    intro a ha b hb
    rw [List.mem_singleton] at hb
    subst hb
    exact fun e => h (e ▸ ha)

theorem assign_new {key : String} {v : α} {l : List (String × α)}
    (h : key ∉ l.map (·.1)) : assign key v l = l ++ [(key, v)] := by
  induction l with
  | nil => rfl
  | cons m rest ih =>
    obtain ⟨k, w⟩ := m
    simp only [List.map_cons, List.mem_cons, not_or] at h
    rw [assign, if_neg (fun e => h.1 e.symm), ih h.2, List.cons_append]

/-! ## Entries -/

namespace Value

theorem member?_isSome {key : String} {entries : List (Key × Value)} :
    (member? key entries).isSome ↔ Key.text key ∈ entries.map (·.1) := by
  induction entries with
  | nil => simp [member?]
  | cons e rest ih =>
    obtain ⟨k, v⟩ := e
    by_cases hk : k = .text key
    · simp [member?, hk]
    · have hk' : ¬ Key.text key = k := fun h => hk h.symm
      simp [member?, hk, hk', ih]

theorem member?_eq_none {key : String} {entries : List (Key × Value)} :
    member? key entries = none ↔ Key.text key ∉ entries.map (·.1) := by
  rw [← member?_isSome]
  cases member? key entries <;> simp

theorem mem_of_member? {key : String} {v : Value} {entries : List (Key × Value)}
    (h : member? key entries = some v) : (.text key, v) ∈ entries := by
  induction entries with
  | nil => simp [member?] at h
  | cons e rest ih =>
    obtain ⟨k, w⟩ := e
    simp only [member?] at h
    split at h
    · next hk =>
      cases h
      subst hk
      exact List.mem_cons_self
    · exact List.mem_cons_of_mem _ (ih h)

theorem member?_of_mem {key : String} {v : Value} {entries : List (Key × Value)}
    (hd : (entries.map (·.1)).Nodup) (h : (.text key, v) ∈ entries) :
    member? key entries = some v := by
  induction entries with
  | nil => cases h
  | cons e rest ih =>
    obtain ⟨k, w⟩ := e
    simp only [List.map_cons, List.nodup_cons] at hd
    rw [member?]
    rcases List.mem_cons.mp h with here | behind
    · cases here
      rw [if_pos rfl]
    · have hk : k ≠ .text key := by
        intro e
        subst e
        exact hd.1 (List.mem_map.mpr ⟨(.text key, v), behind, rfl⟩)
      rw [if_neg hk]
      exact ih hd.2 behind

theorem setEntry_new {key : String} {v : Value} {entries : List (Key × Value)}
    (h : Key.text key ∉ entries.map (·.1)) : setEntry key v entries = entries ++ [(.text key, v)] := by
  induction entries with
  | nil => rfl
  | cons e rest ih =>
    obtain ⟨k, w⟩ := e
    simp only [List.map_cons, List.mem_cons, not_or] at h
    rw [setEntry, if_neg (fun e => h.1 e.symm), ih h.2, List.cons_append]

end Value
end AvroDocument
