/-!
# Runs of a transition system

The state after a sequence of events, newest first, the steps taken on the way, and the rules that carry
an invariant along.
-/

namespace Transition
variable {σ ε : Type}

structure Taken (σ ε : Type) where
  before : σ
  event : ε
  after : σ

section
variable (step : σ → ε → σ) (init : σ)

def after : List ε → σ
  | [] => init
  | e :: earlier => step (after earlier) e

def taken : List ε → List (Taken σ ε)
  | [] => []
  | e :: earlier => ⟨after step init earlier, e, after step init (e :: earlier)⟩ :: taken earlier

end

variable {step : σ → ε → σ} {init : σ} {events : List ε}

theorem invariant {I : σ → Prop} (hinit : I init) (hstep : ∀ s e, I s → I (step s e)) :
    ∀ events, I (after step init events)
  | [] => hinit
  | e :: earlier => hstep _ e (invariant hinit hstep earlier)

theorem invariant_taken {I : List (Taken σ ε) → σ → Prop} (hinit : I [] init)
    (hstep : ∀ trace s e, I trace s → I (⟨s, e, step s e⟩ :: trace) (step s e)) :
    ∀ events, I (taken step init events) (after step init events)
  | [] => hinit
  | e :: earlier => hstep _ _ e (invariant_taken hinit hstep earlier)

theorem exists_turning {P : σ → Prop} (hinit : ¬ P init) (h : P (after step init events)) :
    ∃ t ∈ taken step init events, ¬ P t.before ∧ P t.after := by
  induction events with
  | nil => exact absurd h hinit
  | cons e earlier ih =>
    by_cases hbefore : P (after step init earlier)
    · obtain ⟨t, ht, hturn⟩ := ih hbefore
      exact ⟨t, List.mem_cons_of_mem _ ht, hturn⟩
    · exact ⟨_, List.mem_cons_self, hbefore, h⟩

end Transition
