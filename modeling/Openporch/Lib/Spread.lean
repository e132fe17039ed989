import Openporch.Lib.Loop

/-!
# Passes over a list until one changes nothing

A `Spread` visits every item of a list, again and again, and marks an item once a visit says so; a visit may look at
what is marked already. `run` stops after the first pass that marks nothing.
-/

namespace Spreading
open Loops List

variable {ι σ : Type}

structure Spread (ι σ : Type) where
  /-- The state with the item marked; `none` when it is passed over. -/
  visit : σ → ι → Option σ
  marked : σ → ι → Bool
  fresh : ∀ {s i s'}, visit s i = some s' → marked s i = false
  marks : ∀ {s i s'}, visit s i = some s' → marked s' i = true
  keeps : ∀ {s i s' j}, visit s i = some s' → marked s j = true → marked s' j = true

namespace Spread
variable (p : Spread ι σ) {s s' : σ} {i : ι} {items : List ι}

def next (x : σ × Bool) (i : ι) : σ × Bool :=
  match p.visit x.1 i with
  | some s' => (s', true)
  | none => x

def pass (items : List ι) (s : σ) : σ × Bool := items.foldl p.next (s, false)

def left (items : List ι) (s : σ) : Nat := items.countP fun i => !p.marked s i

theorem left_le (h : p.visit s i = some s') : p.left items s' ≤ p.left items s := by
  refine countP_mono_left fun j _ hj => ?_
  cases hs : p.marked s j with
  | true => rw [p.keeps h hs] at hj; exact hj
  | false => rfl

theorem left_lt (h : p.visit s i = some s') (hi : i ∈ items) : p.left items s' < p.left items s := by
  obtain ⟨pre, post, rfl⟩ := append_of_mem hi
  have hpre : p.left pre s' ≤ p.left pre s := p.left_le h
  have hpost : p.left post s' ≤ p.left post s := p.left_le h
  simp only [left, countP_append, countP_cons, p.fresh h, p.marks h] at *
  simp
  omega

theorem foldl_inv (Inv : σ → Prop) (hstep : ∀ s i s', i ∈ items → Inv s → p.visit s i = some s' → Inv s') (x : σ × Bool)
    (h : Inv x.1) : Inv (items.foldl p.next x).1 := by
  induction items generalizing x with
  | nil => exact h
  | cons i items ih =>
    refine ih (fun s j s' hj => hstep s j s' (mem_cons_of_mem _ hj)) _ ?_
    unfold next
    split
    · rename_i s' hs'
      exact hstep x.1 i s' mem_cons_self h hs'
    · exact h

theorem foldl_true (s : σ) : (items.foldl p.next (s, true)).2 = true := by
  induction items generalizing s with
  | nil => rfl
  | cons i items ih =>
    rw [foldl_cons, next]
    split <;> exact ih _

theorem foldl_left (x : σ × Bool) (l : List ι) : p.left items (l.foldl p.next x).1 ≤ p.left items x.1 := by
  induction l generalizing x with
  | nil => exact Nat.le_refl _
  | cons i l ih =>
    refine Nat.le_trans (ih _) ?_
    unfold next
    split
    · rename_i s' hs'
      exact p.left_le hs'
    · exact Nat.le_refl _

theorem pass_cases (l : List ι) (hl : ∀ i ∈ l, i ∈ items) (s : σ) : (l.foldl p.next (s, false)).2 = true ∧
      p.left items (l.foldl p.next (s, false)).1 < p.left items s ∨
    l.foldl p.next (s, false) = (s, false) ∧ ∀ i ∈ l, p.visit s i = none := by
  induction l with
  | nil => exact .inr ⟨rfl, by simp⟩
  | cons i l ih =>
    rw [foldl_cons, next]
    cases hs : p.visit s i with
    | some s' =>
      refine .inl ⟨p.foldl_true s', ?_⟩
      exact Nat.lt_of_le_of_lt (p.foldl_left (s', true) l) (p.left_lt hs (hl i mem_cons_self))
    | none =>
      rcases ih fun j hj => hl j (mem_cons_of_mem _ hj) with h | ⟨heq, hnone⟩
      · exact .inl h
      · refine .inr ⟨heq, fun j hj => ?_⟩
        rcases mem_cons.1 hj with rfl | hj
        · exact hs
        · exact hnone j hj

def loop (items : List ι) : Loop σ σ where
  step s := if (p.pass items s).2 then .inr (p.pass items s).1 else .inl (p.pass items s).1
  measure := p.left items
  decreases := by
    intro s s' h
    rcases p.pass_cases items (fun _ hi => hi) s with ⟨hchanged, hlt⟩ | ⟨heq, -⟩
    · rw [pass, if_pos hchanged] at h
      cases h
      exact hlt
    · rw [pass, heq] at h
      cases h

def run (items : List ι) (s : σ) : σ := (p.loop items).run s

theorem run_inv (Inv : σ → Prop) (hstep : ∀ s i s', i ∈ items → Inv s → p.visit s i = some s' → Inv s') (s : σ)
    (h : Inv s) : Inv (p.run items s) := by
  refine (p.loop items).run_induct Inv Inv (fun s s' hs h => ?_) (fun s s' hs h => ?_) s h
  all_goals
    have hpass : Inv (p.pass items s).1 := p.foldl_inv Inv hstep (s, false) hs
    unfold loop at h
    dsimp only at h
    split at h <;> cases h
    exact hpass

theorem run_stable (items : List ι) (s : σ) : ∀ i ∈ items, p.visit (p.run items s) i = none := by
  refine (p.loop items).run_induct (fun _ => True) (fun s => ∀ i ∈ items, p.visit s i = none) (fun _ _ _ _ => trivial)
    (fun s s' _ h => ?_) s trivial
  rcases p.pass_cases items (fun _ hi => hi) s with ⟨hchanged, -⟩ | ⟨heq, hnone⟩
  · unfold loop pass at h
    dsimp only at h
    rw [if_pos hchanged] at h
    cases h
  · unfold loop pass at h
    dsimp only at h
    rw [heq] at h
    cases h
    exact hnone

end Spread
end Spreading
