import Openporch.Lib.Loop

/-!
# Calls one after another

A `Step` is a call made on the outside as it is; steps compose in time, and dropping a sequence drops the call that is
running then. `Keeps I x`: from an outside in `I`, the step leaves it in `I`, whether it answers or is dropped.
-/

namespace Loops
variable {W E α β ε : Type}

def Call.bind (c : Call W α) (f : α → W → Call W β) : Call W β where
  after := c.after.bind fun t => (f c.answer c.left).after.map (t + ·)
  answer := (f c.answer c.left).answer
  left := (f c.answer c.left).left
  dropped t := match c.after with
    | some t₀ => if t₀ ≤ t then (f c.answer c.left).dropped (t - t₀) else c.dropped t
    | none => c.dropped t

def Step (W α : Type) : Type := W → Call W α

instance : Monad (Step W) where
  pure a := Call.now a
  bind x f := fun w => (x w).bind f

def Step.read (f : W → α) : Step W α := fun w => Call.now (f w) w

def Keeps (I : W → Prop) (x : Step W α) : Prop := ∀ w, I w → I (x w).left ∧ ∀ t, I ((x w).dropped t)

namespace Keeps
variable {I : W → Prop} {x : Step W α}

theorem pure (a : α) : Keeps I (pure a : Step W α) := fun _ h => ⟨h, fun _ => h⟩

theorem read (f : W → α) : Keeps I (Step.read f) := fun _ h => ⟨h, fun _ => h⟩

theorem bind {f : α → Step W β} (hx : Keeps I x) (hf : ∀ a, Keeps I (f a)) : Keeps I (x >>= f) := by
  intro w hw
  obtain ⟨hleft, hdropped⟩ := hx w hw
  obtain ⟨hleft', hdropped'⟩ := hf (x w).answer (x w).left hleft
  refine ⟨hleft', fun t => ?_⟩
  change I (match (x w).after with
    | some t₀ => if t₀ ≤ t then (f (x w).answer (x w).left).dropped (t - t₀) else (x w).dropped t
    | none => (x w).dropped t)
  split
  · split
    · exact hdropped' _
    · exact hdropped t
  · exact hdropped t

theorem within (hx : Keeps I x) {w : W} (hw : I w) (limit : Nat) : I ((x w).within limit).2.2 := by
  obtain ⟨hleft, hdropped⟩ := hx w hw
  unfold Call.within
  split
  · split
    · exact hleft
    · exact hdropped limit
  · exact hdropped limit

theorem exceptPure (a : α) : Keeps I (Pure.pure a : ExceptT ε (Step W) α).run :=
  pure (Except.ok a)

theorem throw (e : ε) : Keeps I (throw e : ExceptT ε (Step W) α).run :=
  pure (Except.error e)

theorem exceptBind {x : ExceptT ε (Step W) α} {f : α → ExceptT ε (Step W) β} (hx : Keeps I x.run)
    (hf : ∀ a, Keeps I (f a).run) : Keeps I (x >>= f).run := by
  refine bind hx fun r => ?_
  cases r with
  | ok a => exact hf a
  | error e => exact pure (Except.error e)

end Keeps

structure Watched (W E : Type) where
  world : W
  /-- Newest first. -/
  events : List E

def Step.lift (x : Step W α) : Step (Watched W E) α := fun s =>
  { after := (x s.world).after
    answer := (x s.world).answer
    left := { s with world := (x s.world).left }
    dropped := fun t => { s with world := (x s.world).dropped t } }

def Step.logged (e : E) (x : Step (Watched W E) α) : Step (Watched W E) α := fun s =>
  x { s with events := e :: s.events }

theorem Keeps.lift {P : List E → Prop} (x : Step W α) : Keeps (fun s : Watched W E => P s.events) x.lift :=
  fun _ h => ⟨h, fun _ => h⟩

theorem Keeps.logged {P : List E → Prop} {e : E} {x : Step (Watched W E) α} (he : ∀ events, P events → P (e :: events))
    (hx : Keeps (fun s => P s.events) x) : Keeps (fun s => P s.events) (x.logged e) :=
  fun s h => hx { s with events := e :: s.events } (he s.events h)

end Loops
