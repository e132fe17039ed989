import Mathlib.Data.List.Basic

/-!
# Regular expressions

Classes of characters, concatenation, repetition and lookahead. An expression is read as a relation
between the text where it starts and the text that it leaves; a whole text matches when nothing is left.
-/

namespace Patterns
variable {α : Type}

inductive Regex (α : Type) where
  | one (p : α → Bool)
  | seq (r q : Regex α)
  | rep (r : Regex α) (least : Nat) (most : Option Nat)
  | ahead (r : Regex α)

namespace Regex

def Steps (R : List α → List α → Prop) : Nat → List α → List α → Prop
  | 0, s, t => s = t
  | n + 1, s, t => ∃ u, R s u ∧ Steps R n u t

def Matches : Regex α → List α → List α → Prop
  | one p, s, t => ∃ c, p c = true ∧ s = c :: t
  | seq r q, s, t => ∃ u, r.Matches s u ∧ q.Matches u t
  | rep r least most, s, t => ∃ n, least ≤ n ∧ (∀ m ∈ most, n ≤ m) ∧ Steps r.Matches n s t
  -- What is looked at is not taken.
  | ahead r, s, t => s = t ∧ ∃ u, r.Matches s u

variable {p : α → Bool} {r : Regex α} {s t : List α} {least : Nat} {most : Option Nat}

theorem steps_one {n : Nat} : Steps (one p).Matches n s t ↔ ∃ w, w.length = n ∧ w.all p = true ∧ s = w ++ t := by
  induction n generalizing s with
  | zero => simp [Steps, List.length_eq_zero_iff]
  | succ n ih =>
    simp only [Steps, ih]
    constructor
    · rintro ⟨_, ⟨c, hc, rfl⟩, w, hn, hw, rfl⟩
      exact ⟨c :: w, by simp [hn], by simp [hc, hw], rfl⟩
    · rintro ⟨_ | ⟨c, w⟩, hn, hw, rfl⟩
      · simp at hn
      · rw [List.all_cons, Bool.and_eq_true] at hw
        exact ⟨w ++ t, ⟨c, hw.1, rfl⟩, w, by simpa using hn, hw.2, rfl⟩

theorem matches_class : (rep (one p) least most).Matches s t
    ↔ ∃ w, least ≤ w.length ∧ (∀ m ∈ most, w.length ≤ m) ∧ w.all p = true ∧ s = w ++ t := by
  constructor
  · rintro ⟨n, hl, hm, hs⟩
    obtain ⟨w, rfl, hw⟩ := steps_one.mp hs
    exact ⟨w, hl, hm, hw⟩
  · rintro ⟨w, hl, hm, hw⟩
    exact ⟨_, hl, hm, steps_one.mpr ⟨w, rfl, hw⟩⟩

theorem matches_opt : (rep r 0 (some 1)).Matches s t ↔ s = t ∨ r.Matches s t := by
  constructor
  · rintro ⟨_ | _ | n, -, hn, hs⟩
    · exact .inl hs
    · obtain ⟨u, hr, rfl⟩ := hs
      exact .inr hr
    · have := hn 1 rfl
      omega
  · rintro (rfl | hr)
    · exact ⟨0, by simp, by simp, rfl⟩
    · exact ⟨1, by simp, by simp, t, hr, rfl⟩

end Regex
end Patterns
