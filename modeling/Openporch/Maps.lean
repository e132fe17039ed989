import Openporch.Ids
import Mathlib.Data.List.Basic

/-!
# Maps in key order

`BTreeMap` and `BTreeSet`, and the orders the identifiers are kept in: by their text, and descriptors by type, class
and ID.
-/

namespace Openporch
open Std.ExtTreeMap Std.LawfulEqOrd

abbrev BTreeMap (K V : Type) [Ord K] := Std.ExtTreeMap K V compare

abbrev BTreeSet (K : Type) [Ord K] := Std.ExtTreeSet K compare

section
variable {K V U : Type} [Ord K] [Std.TransOrd K] [Std.LawfulEqOrd K] {m : BTreeMap K V} {s : BTreeSet K} {k a : K} {v : V}

theorem BTreeMap.get_insert [DecidableEq K] : (m.insert k v)[a]? = if k = a then some v else m[a]? := by
  simp [getElem?_insert]

omit [Std.LawfulEqOrd K] in
theorem BTreeMap.mem_iff : k ∈ m ↔ ∃ v, m[k]? = some v := by
  rw [mem_iff_isSome_getElem?, Option.isSome_iff_exists]

omit [Std.LawfulEqOrd K] in
theorem BTreeMap.get_eq_none : m[k]? = none ↔ m.contains k = false := by
  rw [← Bool.not_eq_true, contains_iff_mem, BTreeMap.mem_iff]
  cases m[k]? <;> simp

theorem BTreeMap.exists_of_ne_empty (h : m ≠ ∅) : ∃ (k : K) (v : V), m[k]? = some v := by
  by_contra hnone
  push Not at hnone
  refine h (ext_getElem? fun k => ?_)
  rw [getElem?_empty]
  exact Option.eq_none_iff_forall_ne_some.2 (hnone k)

theorem BTreeMap.get_filter {f} : (m.filter f)[k]? = m[k]?.filter (f k) := by
  rw [getElem?_filter]
  refine Option.ext fun v => ?_
  simp [Option.filter_eq_some_iff]

theorem BTreeSet.mem_insert_iff : a ∈ s.insert k ↔ k = a ∨ a ∈ s := by
  rw [Std.ExtTreeSet.mem_insert, Std.compare_eq_iff_eq]

theorem BTreeSet.mem_filter_iff {f : K → Bool} : k ∈ s.filter f ↔ k ∈ s ∧ f k = true := by
  simp [Std.ExtTreeSet.mem_filter]

end

instance : Ord ObjectId := ⟨compareOn ObjectId.text⟩

instance : Std.TransOrd ObjectId := inferInstanceAs (Std.TransCmp (compareOn ObjectId.text))

instance : Std.LawfulEqOrd ObjectId where
  compare_self {a} := Std.ReflOrd.compare_self (a := a.text)
  eq_of_compare {a b} h := by
    have htext : a.text = b.text := eq_of_compare h
    cases a
    cases b
    cases htext
    rfl

instance : Ord ResourceTypeId := ⟨compareOn ResourceTypeId.text⟩

instance : Std.TransOrd ResourceTypeId := inferInstanceAs (Std.TransCmp (compareOn ResourceTypeId.text))

namespace Descriptor

def cmp : Descriptor → Descriptor → Ordering :=
  compareLex (compareOn fun d => d.ty.text) (compareLex (compareOn fun d => d.cls.text) (compareOn fun d => d.id.text))

instance : Ord Descriptor := ⟨cmp⟩

instance : Std.TransOrd Descriptor := inferInstanceAs (Std.TransCmp (compareLex (compareOn fun d => d.ty.text)
  (compareLex (compareOn fun d : Descriptor => d.cls.text) (compareOn fun d => d.id.text))))

instance : Std.LawfulEqOrd Descriptor where
  toReflCmp := inferInstanceAs (Std.ReflCmp (compareLex (compareOn fun d : Descriptor => d.ty.text)
    (compareLex (compareOn fun d => d.cls.text) (compareOn fun d => d.id.text))))
  eq_of_compare {a b} h := by
    have hcmp : cmp a b = .eq := h
    simp only [cmp, compareLex_eq_eq, compareOn] at hcmp
    exact ext_text (eq_of_compare hcmp.1) (eq_of_compare hcmp.2.1)
      (eq_of_compare hcmp.2.2)

end Descriptor
end Openporch
