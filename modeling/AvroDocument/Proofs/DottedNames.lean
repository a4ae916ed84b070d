import AvroDocument.Binary.Layout
import Mathlib.Data.List.TakeWhile

/-!
# AvroDocument.Proofs.DottedNames

Names with dots, split at the last one.

* `Schema.splitName_dotted`, `Schema.splitName_plain`: the two parts of a name.
* `Layout.schemaName_eq`, `Layout.declaredName_eq`: the layout of a schema gives declarations and
  references the names that the schema model gives them.
-/

namespace AvroDocument
namespace Schema

theorem takeWhile_no_dot {cs : List Char} (h : '.' ∉ cs) : cs.takeWhile (· ≠ '.') = cs := by
  induction cs with
  | nil => rfl
  | cons c cs ih =>
    simp only [List.mem_cons, not_or] at h
    have hc : c ≠ '.' := fun e => h.1 e.symm
    rw [List.takeWhile_cons_of_pos (by simpa using hc), ih h.2]

theorem takeWhile_append_dot {cs ds : List Char} (h : '.' ∉ cs) :
    (cs ++ '.' :: ds).takeWhile (· ≠ '.') = cs := by
  induction cs with
  | nil => rfl
  | cons c cs ih =>
    simp only [List.mem_cons, not_or] at h
    have hc : c ≠ '.' := fun e => h.1 e.symm
    rw [List.cons_append, List.takeWhile_cons_of_pos (by simpa using hc), ih h.2]

theorem toList_dotted (ns name : String) :
    (ns ++ "." ++ name).toList = ns.toList ++ '.' :: name.toList := by
  rw [String.toList_append, String.toList_append, List.append_assoc]
  rfl

theorem splitName_dotted (ns : String) {name : String} (h : '.' ∉ name.toList) :
    splitName (ns ++ "." ++ name) = (ns, name) := by
  have hl := toList_dotted ns name
  have hr : '.' ∉ name.toList.reverse := fun hm => h (List.mem_reverse.mp hm)
  have hb : ((ns ++ "." ++ name).toList.reverse.takeWhile (· ≠ '.')).reverse = name.toList := by
    rw [hl, List.reverse_append, List.reverse_cons, List.append_assoc, List.singleton_append,
      takeWhile_append_dot hr, List.reverse_reverse]
  have hlen : (ns ++ "." ++ name).length - name.toList.length - 1 = ns.toList.length := by
    rw [← String.length_toList, hl, List.length_append, List.length_cons]
    omega
  simp only [splitName, hb, hlen]
  rw [hl, List.take_left, String.ofList_toList, String.ofList_toList]

theorem splitName_plain {name : String} (h : '.' ∉ name.toList) :
    splitName name = ("", name) := by
  have hb : (name.toList.reverse.takeWhile (· ≠ '.')).reverse = name.toList := by
    rw [takeWhile_no_dot fun hm => h (List.mem_reverse.mp hm), List.reverse_reverse]
  have hlen : name.length - name.toList.length - 1 = 0 := by
    rw [String.length_toList]
    omega
  simp only [splitName, hb, hlen]
  rw [List.take_zero, String.ofList_toList]

end Schema

namespace Layout

open Schema (fullName hasDot referenceName splitName)

theorem dropWhile_reverse_eq_nil {cs : List Char} :
    cs.reverse.dropWhile (· ≠ '.') = [] ↔ '.' ∉ cs := by
  rw [List.dropWhile_eq_nil_iff]
  simp only [List.mem_reverse, decide_eq_true_eq]
  exact ⟨fun h hdot => h _ hdot rfl, fun h c hc e => h (e ▸ hc)⟩

/-- A name has no dot, or it is what stands before its last dot, that dot and a rest without one. -/
theorem beforeLastDot?_spec (name : String) :
    (beforeLastDot? name = none ∧ '.' ∉ name.toList) ∨
      ∃ before behind, beforeLastDot? name = some before ∧ name = before ++ "." ++ behind ∧
        '.' ∉ behind.toList := by
  unfold beforeLastDot?
  cases hdrop : name.toList.reverse.dropWhile (· ≠ '.') with
  | nil => exact .inl ⟨rfl, dropWhile_reverse_eq_nil.mp hdrop⟩
  | cons c before =>
    have hstops := List.head?_dropWhile_not (· ≠ '.') name.toList.reverse
    rw [hdrop] at hstops
    obtain rfl : c = '.' := by simpa using hstops
    have hwhole := List.takeWhile_append_dropWhile (p := fun c => decide (c ≠ '.'))
      (l := name.toList.reverse)
    rw [hdrop] at hwhole
    generalize hbehind : name.toList.reverse.takeWhile (· ≠ '.') = behind at hwhole
    have hname : name.toList = before.reverse ++ '.' :: behind.reverse := by
      rw [← List.reverse_reverse name.toList, ← hwhole, List.reverse_append, List.reverse_cons,
        List.append_assoc, List.singleton_append]
    refine .inr ⟨String.ofList before.reverse, String.ofList behind.reverse, rfl, ?_, ?_⟩
    · refine String.toList_injective ?_
      rw [Schema.toList_dotted, String.toList_ofList, String.toList_ofList, hname]
    · rw [String.toList_ofList, List.mem_reverse, ← hbehind]
      intro hdot
      simpa using List.mem_takeWhile_imp hdot

theorem givenNamespace_eq (enclosing : String) (ms : List (String × Json)) :
    givenNamespace enclosing ms =
      if (Json.obj ms).has "namespace" then Schema.textOf (.obj ms) "namespace" else enclosing := by
  unfold givenNamespace Json.has Schema.textOf Json.get? Json.members
  cases lookup? "namespace" ms <;> rfl

/-- A declaration has the same full name, and the same namespace inside it. -/
theorem schemaName_eq (enclosing : String) (ms : List (String × Json)) :
    schemaName enclosing ms =
      ((splitName (fullName (.obj ms) enclosing)).1, fullName (.obj ms) enclosing) := by
  have hname : ((lookup? "name" ms).bind Json.text?).getD "" = Schema.textOf (.obj ms) "name" := rfl
  unfold schemaName fullName
  simp only [hname, ← givenNamespace_eq]
  generalize Schema.textOf (.obj ms) "name" = name
  generalize givenNamespace enclosing ms = given
  obtain ⟨hnone, hdot⟩ | ⟨before, behind, hsome, rfl, hdot⟩ := beforeLastDot?_spec name
  · have hplain : hasDot name = false := by simpa [hasDot] using hdot
    simp only [hnone, hplain, Bool.false_eq_true, if_false]
    split
    · rw [Schema.splitName_plain hdot]
    · rw [Schema.splitName_dotted given hdot]
  · have hdotted : hasDot (before ++ "." ++ behind) = true := by
      simp [hasDot]
    simp only [hsome, hdotted, if_true, Schema.splitName_dotted before hdot]

/-- A reference stands for the same full name. -/
theorem declaredName_eq (enclosing name : String) :
    declaredName enclosing name = referenceName name enclosing := by
  unfold declaredName referenceName
  obtain ⟨hnone, hdot⟩ | ⟨before, behind, hsome, rfl, -⟩ := beforeLastDot?_spec name
  · have hplain : hasDot name = false := by simpa [hasDot] using hdot
    simp only [hnone, hplain]
    by_cases henclosing : enclosing = "" <;> simp [henclosing]
  · have hdotted : hasDot (before ++ "." ++ behind) = true := by
      simp [hasDot]
    simp [hsome, hdotted]

/-- Inside a dotted name without a namespace the namespace is that of the name, so that `I` and
`p.q.I` are one type: the library takes this schema. -/
example :
    (ofSchema (.obj [("type", .str "record"), ("name", .str "p.q.R"), ("fields", .arr [
      .obj [("name", .str "i"), ("type", .obj [("type", .str "record"), ("name", .str "I"),
        ("fields", .arr [])])],
      .obj [("name", .str "j"), ("type", .str "I")],
      .obj [("name", .str "k"), ("type", .str "p.q.I")]])])).isOk = true := by
  decide +kernel

end Layout
end AvroDocument
