import Mathlib.Data.List.Basic

/-!
# Texts that are read in one way

`Reads enc Follow`: a word `enc a` followed by something that may follow it (`Follow`) determines both `a` and what
follows; `stack` is a text of lines read from its end.
-/

namespace Code
open List

variable {α β χ : Type}

def Reads (enc : α → List χ) (Follow : List χ → Prop) : Prop :=
  ∀ a b r s, Follow r → Follow s → enc a ++ r = enc b ++ s → a = b ∧ r = s

def Any (_ : List χ) : Prop := True

def Stops (p : χ → Bool) (r : List χ) : Prop := ∀ c ∈ r.head?, p c = false

theorem stops_nil (p : χ → Bool) : Stops p [] := by simp [Stops]

theorem stops_cons {p : χ → Bool} {c : χ} (h : p c = false) (r : List χ) : Stops p (c :: r) := by simpa [Stops] using h

variable {enc : α → List χ} {Follow : List χ → Prop} {p : χ → Bool}

theorem Reads.injective (h : Reads enc Follow) (hnil : Follow []) : Function.Injective enc := by
  intro a b hab
  exact (h a b [] [] hnil hnil (by rw [hab])).1

theorem append_inj_of_stops {u v r s : List χ} (hu : ∀ c ∈ u, p c = true) (hv : ∀ c ∈ v, p c = true)
    (hr : Stops p r) (hs : Stops p s) (h : u ++ r = v ++ s) : u = v ∧ r = s := by
  induction u generalizing v with
  | nil =>
    cases v with
    | nil => exact ⟨rfl, h⟩
    | cons c v =>
      have hc : p c = false := hr c (by rw [show r = c :: (v ++ s) from h]; rfl)
      rw [hv c (by simp)] at hc
      cases hc
  | cons c u ih =>
    cases v with
    | nil =>
      have hc : p c = false := hs c (by rw [show s = c :: (u ++ r) from h.symm]; rfl)
      rw [hu c (by simp)] at hc
      cases hc
    | cons d v =>
      simp only [cons_append, cons.injEq] at h
      obtain ⟨rfl, h⟩ := h
      obtain ⟨rfl, hrs⟩ := ih (fun c hc => hu c (by simp [hc])) (fun c hc => hv c (by simp [hc])) h
      exact ⟨rfl, hrs⟩

theorem Reads.flatMap {stop : χ} (h : Reads enc Any) (hstop : ∀ a t, enc a ≠ stop :: t) (hne : ∀ a, enc a ≠ []) :
    Reads (fun w : List α => w.flatMap enc ++ [stop]) Any := by
  have hhead : ∀ a r s, enc a ++ r ≠ stop :: s := by
    intro a r s heq
    cases ha : enc a with
    | nil => exact hne a ha
    | cons c t =>
      rw [ha, cons_append, cons.injEq] at heq
      exact hstop a t (heq.1 ▸ ha)
  intro v
  induction v with
  | nil =>
    intro w r s _ _ heq
    cases w with
    | nil => exact ⟨rfl, by simpa using heq⟩
    | cons b w => exact absurd heq.symm (by simpa using hhead b _ _)
  | cons a v ih =>
    intro w r s _ _ heq
    cases w with
    | nil => exact absurd heq (by simpa using hhead a _ _)
    | cons b w =>
      simp only [flatMap_cons, append_assoc] at heq
      obtain ⟨rfl, htail⟩ := h a b _ _ trivial trivial heq
      obtain ⟨rfl, hrs⟩ := ih w r s trivial trivial (by simpa using htail)
      exact ⟨rfl, hrs⟩

section Stack
variable (stop : χ)

/-- A text that ends with the lines, newest first, each ended by `stop`. -/
def stack (base : List χ) : List (List χ) → List χ
  | [] => base ++ [stop]
  | l :: ls => stack base ls ++ (l ++ [stop])

variable {stop} {base base' l l' : List χ} {ls ls' : List (List χ)}

theorem stack_eq (base : List χ) (ls : List (List χ)) :
    stack stop base ls = base ++ [stop] ++ ls.reverse.flatMap (· ++ [stop]) := by
  induction ls with
  | nil => simp [stack]
  | cons l ls ih => simp [stack, ih]

theorem stack_eq_concat (stop : χ) (base : List χ) (ls : List (List χ)) : ∃ t, stack stop base ls = t ++ [stop] := by
  cases ls with
  | nil => exact ⟨base, rfl⟩
  | cons l ls => exact ⟨stack stop base ls ++ l, by simp [stack]⟩

theorem stack_pop [DecidableEq χ] (hl : stop ∉ l) (hl' : stop ∉ l')
    (h : stack stop base (l :: ls) = stack stop base' (l' :: ls')) :
    l = l' ∧ stack stop base ls = stack stop base' ls' := by
  obtain ⟨t, ht⟩ := stack_eq_concat stop base ls
  obtain ⟨t', ht'⟩ := stack_eq_concat stop base' ls'
  have hreverse := congrArg reverse h
  simp only [stack, ht, ht', reverse_append, reverse_cons, reverse_nil, nil_append,
    cons_append, cons.injEq, true_and] at hreverse
  have hletters : ∀ {m : List χ}, stop ∉ m → ∀ c ∈ m.reverse, (decide (c ≠ stop)) = true := by
    intro m hm c hc
    simp only [ne_eq, decide_not, Bool.not_eq_true', decide_eq_false_iff_not]
    rintro rfl
    exact hm (mem_reverse.1 hc)
  obtain ⟨hll, hrest⟩ := append_inj_of_stops (hletters hl) (hletters hl') (stops_cons (by simp) _)
    (stops_cons (by simp) _) hreverse
  refine ⟨reverse_injective hll, ?_⟩
  rw [ht, ht', reverse_injective (cons.inj hrest).2]

theorem stack_inj [DecidableEq χ] {P : List χ → Prop} {v v' : List χ} (hls : ∀ l ∈ ls, stop ∉ l ∧ P l)
    (hls' : ∀ l ∈ ls', stop ∉ l ∧ P l) (hv : stop ∉ v ∧ ¬ P v) (hv' : stop ∉ v' ∧ ¬ P v')
    (h : stack stop base (ls ++ [v]) = stack stop base' (ls' ++ [v'])) : base = base' ∧ v = v' ∧ ls = ls' := by
  induction ls generalizing ls' with
  | nil =>
    cases ls' with
    | nil =>
      obtain ⟨hvv, hbase⟩ := stack_pop hv.1 hv'.1 h
      exact ⟨append_cancel_right hbase, hvv, rfl⟩
    | cons l' ls' =>
      obtain ⟨rfl, _⟩ := stack_pop hv.1 (hls' l' (by simp)).1 h
      exact absurd (hls' v (by simp)).2 hv.2
  | cons l ls ih =>
    cases ls' with
    | nil =>
      obtain ⟨rfl, _⟩ := stack_pop (hls l (by simp)).1 hv'.1 h
      exact absurd (hls l (by simp)).2 hv'.2
    | cons l' ls' =>
      obtain ⟨rfl, hrest⟩ := stack_pop (hls l (by simp)).1 (hls' l' (by simp)).1 h
      obtain ⟨hbase, hvv, rfl⟩ := ih (fun m hm => hls m (by simp [hm])) (fun m hm => hls' m (by simp [hm])) hrest
      exact ⟨hbase, hvv, rfl⟩

end Stack
end Code
