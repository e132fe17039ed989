import Mathlib.Data.List.Chain

/-!
# Relations without cycles

`Acyclic`, how to show it (a rank that falls along the edges) and refute it (a closed chain), and what adding edges to
a relation does to it.
-/

namespace Acyclicity
open Relation List

variable {α : Type} {R S T : α → α → Prop} {x y : α}

def Acyclic (R : α → α → Prop) : Prop := ∀ x, ¬ TransGen R x x

theorem Acyclic.mono (h : ∀ x y, S x y → R x y) (hR : Acyclic R) : Acyclic S := fun x hx => hR x (TransGen.mono h x x hx)

theorem Acyclic.irrefl (h : Acyclic R) (x : α) : ¬ R x x := fun hx => h x (.single hx)

theorem Acyclic.of_rank (rank : α → Nat) (h : ∀ x y, R x y → rank y < rank x) : Acyclic R := by
  have hpath : ∀ {x y}, TransGen R x y → rank y < rank x := by
    intro x y hxy
    induction hxy with
    | single hstep => exact h _ _ hstep
    | tail _ hstep ih => exact (h _ _ hstep).trans ih
  exact fun x hx => lt_irrefl _ (hpath hx)

theorem reflTransGen_of_isChain {l : List α} (h : (x :: l).IsChain R) : ReflTransGen R x ((x :: l).getLast (by simp)) := by
  induction l generalizing x with
  | nil => exact .refl
  | cons y l ih =>
    obtain ⟨hxy, hrest⟩ := isChain_cons_cons.1 h
    exact .head hxy (ih hrest)

theorem not_acyclic_of_isChain {c : List α} (hlen : 2 ≤ c.length) (hends : c.head? = c.getLast?) (h : c.IsChain R) :
    ¬ Acyclic R := by
  match c, hlen with
  | x :: y :: l, _ =>
    obtain ⟨hxy, hrest⟩ := isChain_cons_cons.1 h
    have hlast : x = (y :: l).getLast (by simp) := by
      rw [head?_cons, getLast?_eq_getLast_of_ne_nil (by simp), Option.some.injEq] at hends
      simpa using hends
    intro hacyclic
    have hback : ReflTransGen R y x := hlast ▸ reflTransGen_of_isChain hrest
    exact hacyclic x (.head' hxy hback)

theorem transGen_or (h : TransGen (fun x y => R x y ∨ T x y) x y) : TransGen R x y ∨
    ∃ a b, T a b ∧ ReflTransGen (fun x y => R x y ∨ T x y) x a ∧ ReflTransGen (fun x y => R x y ∨ T x y) b y := by
  induction h with
  | single hstep =>
    rcases hstep with hR | hT
    · exact .inl (.single hR)
    · exact .inr ⟨_, _, hT, .refl, .refl⟩
  | tail hpath hstep ih =>
    rcases ih with hR | ⟨a, b, hT, hxa, hby⟩
    · rcases hstep with hR' | hT
      · exact .inl (hR.tail hR')
      · exact .inr ⟨_, _, hT, hpath.to_reflTransGen, .refl⟩
    · exact .inr ⟨a, b, hT, hxa, hby.tail hstep⟩

theorem acyclic_or_iff : Acyclic (fun x y => R x y ∨ T x y) ↔
    Acyclic R ∧ ∀ a b, T a b → ¬ ReflTransGen (fun x y => R x y ∨ T x y) b a := by
  constructor
  · intro h
    refine ⟨h.mono fun x y => .inl, fun a b hT hback => h a (.head' (.inr hT) hback)⟩
  · rintro ⟨hR, hT⟩ x hx
    rcases transGen_or hx with hx | ⟨a, b, hab, hxa, hbx⟩
    · exact hR x hx
    · exact hT a b hab (hbx.trans hxa)

end Acyclicity
