/-!
# Computations that may fail

Inversion of `Except`, and the rule of a fold whose step may fail: an invariant that speaks of the items folded so
far.
-/

namespace Fallible
open List Except

variable {ε ε' α β σ : Type}

theorem ok_bind (a : α) (f : α → Except ε β) : (ok a >>= f) = f a := rfl

variable {x : Except ε α} {a : α} {f : α → Except ε β}

theorem isOk_elim (h : x.isOk = true) : ∃ a, x = .ok a := by
  cases x with
  | ok a => exact ⟨a, rfl⟩
  | error e => cases h

theorem eq_ok_getD (h : x.isOk = true) (b : α) : x = .ok (x.toOption.getD b) := by
  obtain ⟨a, rfl⟩ := isOk_elim h
  rfl

theorem toOption_eq_some : x.toOption = some a ↔ x = .ok a := by
  cases x <;> simp [Except.toOption]

theorem toOption_any {f : α → Bool} (h : x.toOption.any f = true) : ∃ a, x = .ok a ∧ f a = true := by
  cases x with
  | ok a => exact ⟨a, rfl, h⟩
  | error e => cases h

variable {b : β} {e : ε} {l : List α}

theorem bind_eq_ok : (x >>= f) = .ok b ↔ ∃ a, x = .ok a ∧ f a = .ok b := by
  cases x <;> simp [bind, Except.bind]

theorem bind_eq_error : (x >>= f) = .error e ↔ x = .error e ∨ ∃ a, x = .ok a ∧ f a = .error e := by
  cases x <;> simp [bind, Except.bind]

theorem map_eq_ok {f : α → β} : x.map f = .ok b ↔ ∃ a, x = .ok a ∧ f a = b := by
  cases x <;> simp [Except.map]

theorem mapError_eq_ok {f : ε → ε'} : x.mapError f = .ok a ↔ x = .ok a := by
  cases x with
  | ok b => exact ⟨fun h => congrArg _ (ok.inj h), fun h => congrArg _ (ok.inj h)⟩
  | error e => exact ⟨nofun, nofun⟩

theorem map_eq_error {f : α → β} : x.map f = .error e ↔ x = .error e := by
  cases x <;> simp [Except.map]

theorem mapError_eq_error {f : ε → ε'} {e : ε'} : x.mapError f = .error e ↔ ∃ e0, x = .error e0 ∧ f e0 = e := by
  cases x with
  | ok b => exact ⟨nofun, nofun⟩
  | error e0 =>
    constructor
    · exact fun h => ⟨e0, rfl, error.inj h⟩
    · rintro ⟨_, h, rfl⟩
      cases h
      rfl

theorem mapM_ok_of_mem {l' : List β} (h : l.mapM f = .ok l') (ha : a ∈ l) : ∃ b, f a = .ok b := by
  induction l generalizing l' with
  | nil => cases ha
  | cons x l ih =>
    rw [mapM_cons] at h
    obtain ⟨b, hb, h⟩ := bind_eq_ok.1 h
    obtain ⟨bs, hbs, -⟩ := bind_eq_ok.1 h
    rcases mem_cons.1 ha with rfl | ha
    · exact ⟨b, hb⟩
    · exact ih hbs ha

theorem forM_eq_ok {f : α → Except ε Unit} {u : Unit} : l.forM f = .ok u ↔ ∀ a ∈ l, f a = .ok () := by
  induction l with
  | nil => simp [List.forM, pure, Except.pure]
  | cons a l ih =>
    change (f a >>= fun _ => l.forM f) = .ok u ↔ _
    rw [bind_eq_ok, ih, forall_mem_cons]
    constructor
    · rintro ⟨_, ha, hl⟩
      exact ⟨ha, hl⟩
    · rintro ⟨ha, hl⟩
      exact ⟨(), ha, hl⟩

/-- What holds at the start of nothing folded, and each step that succeeds keeps for one more item, holds at the
end. -/
theorem foldlM_ok {step : σ → α → Except ε σ} (Inv : List α → σ → Prop)
    (hstep : ∀ seen a s s', Inv seen s → step s a = .ok s' → Inv (seen ++ [a]) s') :
    ∀ (l seen : List α) {s s' : σ}, Inv seen s → l.foldlM step s = .ok s' → Inv (seen ++ l) s' := by
  intro l
  induction l with
  | nil =>
    intro seen s s' hs h
    cases h
    rwa [append_nil]
  | cons a l ih =>
    intro seen s s' hs h
    rw [foldlM_cons, bind_eq_ok] at h
    obtain ⟨s1, hstep1, hrest⟩ := h
    rw [append_cons]
    exact ih _ (hstep seen a s s1 hs hstep1) hrest

end Fallible
