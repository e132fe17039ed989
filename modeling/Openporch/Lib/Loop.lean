/-!
# Loops that end, and calls that take time

`Loop` is a `loop { … }` whose body either leaves with a result or goes round again; a measure that every
further round lowers makes `Loop.run` total.

`Call` is one call to the outside on a virtual clock: what it answers, after how long (or never), and
what the outside looks like then. `Call.within` drops the call at a time limit.
-/

namespace Loops
variable {σ β W α : Type}

structure Loop (σ β : Type) where
  /-- One round: leave with a result, or go on. -/
  step : σ → β ⊕ σ
  measure : σ → Nat
  decreases : ∀ s s', step s = .inr s' → measure s' < measure s

namespace Loop
variable (l : Loop σ β)

def run (s : σ) : β :=
  match _h : l.step s with
  | .inl b => b
  | .inr s' => run s'
termination_by l.measure s
decreasing_by exact l.decreases s s' _h

theorem run_induct (Inv : σ → Prop) (Post : β → Prop)
    (hstep : ∀ s s', Inv s → l.step s = .inr s' → Inv s')
    (hexit : ∀ s b, Inv s → l.step s = .inl b → Post b) (s : σ) (h : Inv s) : Post (l.run s) := by
  fun_induction run l s with
  | case1 s b hs => exact hexit s b h hs
  | case2 s s' hs ih => exact ih (hstep s s' h hs)

end Loop

structure Call (W α : Type) where
  /-- How long the call takes; `none` when it never answers. -/
  after : Option Nat
  answer : α
  /-- The outside once the call has answered. -/
  left : W
  /-- The outside when the call is dropped unanswered after that long. -/
  dropped : Nat → W

/-- The call given at most `limit`: its answer if it came in time, how long it took and the outside
afterwards. -/
def Call.within (c : Call W α) (limit : Nat) : Option α × Nat × W :=
  match c.after with
  | some t => if t ≤ limit then (some c.answer, t, c.left) else (none, limit, c.dropped limit)
  | none => (none, limit, c.dropped limit)

def Call.map {β : Type} (f : α → β) (c : Call W α) : Call W β := { c with answer := f c.answer }

def Call.now (answer : α) (w : W) : Call W α := { after := some 0, answer, left := w, dropped := fun _ => w }

end Loops
