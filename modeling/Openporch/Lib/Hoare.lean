/-!
# Pre- and postconditions of failing state transformers

A step of `EStateM ε σ` keeps its state when it fails, so its specification has two postconditions:
`Triple P x Q E` says that from a state in `P`, `x` either returns a value and a state in `Q` or fails
with an error and a state in `E`.
-/

namespace Hoare
open List

variable {ε σ α β : Type} {P P' : σ → Prop} {Q Q' : α → σ → Prop} {E E' : ε → σ → Prop}
  {x : EStateM ε σ α}

theorem bind_ok {s s' : σ} {a : α} (h : x s = .ok a s') (f : α → EStateM ε σ β) : (x >>= f) s = f a s' := by
  show EStateM.bind x f s = _
  rw [EStateM.bind, h]

theorem bind_error {s s' : σ} {e : ε} (h : x s = .error e s') (f : α → EStateM ε σ β) :
    (x >>= f) s = .error e s' := by
  show EStateM.bind x f s = _
  rw [EStateM.bind, h]

def Triple (P : σ → Prop) (x : EStateM ε σ α) (Q : α → σ → Prop) (E : ε → σ → Prop) : Prop :=
  ∀ s, P s → match x s with
    | .ok a s' => Q a s'
    | .error e s' => E e s'

/-- `x` keeps `I`, and returns something in `Q`. -/
abbrev Keeping (I : σ → Prop) (x : EStateM ε σ α) (Q : α → Prop) : Prop :=
  Triple I x (fun a s => Q a ∧ I s) fun _ s => I s

namespace Triple

variable {s s' : σ} {a : α} {e : ε} {F : Prop}

theorem ok (h : Triple P x Q E) (hs : P s) (hx : x s = .ok a s') : Q a s' := by
  have := h s hs
  rwa [hx] at this

theorem error (h : Triple P x Q E) (hs : P s) (hx : x s = .error e s') : E e s' := by
  have := h s hs
  rwa [hx] at this

theorem bind {Q : β → σ → Prop} {R : α → σ → Prop} {f : α → EStateM ε σ β} (hx : Triple P x R E)
    (hf : ∀ a, Triple (R a) (f a) Q E) : Triple P (x >>= f) Q E := by
  intro s hs
  cases hr : x s with
  | ok a s' => rw [bind_ok hr]; exact hf a s' (hx.ok hs hr)
  | error e s' => rw [bind_error hr]; exact hx.error hs hr

theorem pure (h : ∀ s, P s → Q a s) : Triple P (pure a : EStateM ε σ α) Q E := h

theorem throw (h : ∀ s, P s → E e s) : Triple P (throw e : EStateM ε σ α) Q E := h

theorem get {Q} (h : ∀ s, P s → Q s s) : Triple P (MonadState.get : EStateM ε σ σ) Q E := h

theorem weaken (h : Triple P x Q E) (hP : ∀ s, P' s → P s) (hQ : ∀ a s, Q a s → Q' a s)
    (hE : ∀ e s, E e s → E' e s) : Triple P' x Q' E' := by
  intro s hs
  cases hr : x s with
  | ok a s' => exact hQ a s' (h.ok (hP s hs) hr)
  | error e s' => exact hE e s' (h.error (hP s hs) hr)

theorem fails (h : Triple P x Q E) (hE : ∀ e s, E e s → E' e s) : Triple P x Q E' :=
  h.weaken (fun _ hs => hs) (fun _ _ ha => ha) hE

theorem of_fact (h : F → Triple P x Q E) : Triple (fun s => F ∧ P s) x Q E :=
  fun s hs => h hs.1 s hs.2

theorem const (h : F) : Triple P x (fun _ _ => F) (fun _ _ => True) := by
  intro s _
  cases x s with
  | ok a s' => exact h
  | error e s' => trivial

/-- The rule of a fold: an invariant that speaks of the items folded so far, kept by the step of each item of the
list where it stands. -/
theorem foldlM {τ : Type} {step : τ → α → EStateM ε σ τ} (Inv : List α → τ → σ → Prop) (l seen : List α)
    (hstep : ∀ pre a post, l = pre ++ a :: post → ∀ t,
      Triple (Inv (seen ++ pre) t) (step t a) (Inv (seen ++ pre ++ [a])) E) (t : τ) :
    Triple (Inv seen t) (l.foldlM step t) (Inv (seen ++ l)) E := by
  induction l generalizing seen t with
  | nil =>
    rw [append_nil]
    exact pure fun s hs => hs
  | cons a l ih =>
    rw [foldlM_cons, append_cons]
    refine bind (by simpa using hstep [] a l rfl t) fun t' => ih (seen ++ [a]) (fun pre x post hl t => ?_) t'
    have hx := hstep (a :: pre) x post (by rw [hl, cons_append]) t
    simpa using hx

end Triple
end Hoare
