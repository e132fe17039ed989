import Openporch.DriverTrace
import Openporch.Lib.Step

/-!
# What a run keeps of the world

If every call of a driver, for the requests a run may make, keeps an invariant of the world, then so do `converge`
and `remove`.
-/

namespace Openporch
open Loops Hoare

variable {W α : Type}

/-- The driver's calls for requests in `G` keep `I`, and another cookie leaves a request in `G`. -/
structure DriverKeeps (d : Driver W) (I : W → Prop) (G : DriverRequest → Prop) : Prop where
  put : ∀ req, G req → Keeps I (d.put req)
  get : ∀ req, G req → Keeps I (d.get req)
  delete : ∀ req, G req → Keeps I (d.delete req)
  cancel : ∀ req, G req → Keeps I (d.cancel req)
  cookie : ∀ req cookie, G req → G { req with cookie }

/-- The run's world is in `I` and its request in `G`. -/
def Run.Good (I : W → Prop) (G : DriverRequest → Prop) (s : Run W) : Prop := I s.world ∧ G s.req

variable {d : Driver W} {I : W → Prop} {G : DriverRequest → Prop} {req : DriverRequest} {w : W}

theorem DriverKeeps.run (h : DriverKeeps d I G) : Run.Keeps d (Run.Good I G) where
  made {s c s1} hmade hs := by
    cases hmade with
    | put _ hw => exact ⟨(congrArg (I ·.2.2) hw).mp ((h.put s.req hs.2).within hs.1 (s.deadline - s.now)), hs.2⟩
    | delete _ hw => exact ⟨(congrArg (I ·.2.2) hw).mp ((h.delete s.req hs.2).within hs.1 (s.deadline - s.now)), hs.2⟩
    | get hw => exact ⟨(congrArg (I ·.2.2) hw).mp ((h.get s.req hs.2).within hs.1 (s.deadline - s.now)), hs.2⟩
    | cancel hw => exact ⟨(congrArg (I ·.2.2) hw).mp ((h.cancel s.req hs.2).within hs.1 cancelGrace), hs.2⟩
  cookie s _ hs := ⟨hs.1, h.cookie s.req _ hs.2⟩
  wait _ _ hs := hs

theorem converge_keeps (h : DriverKeeps d I G) (hreq : G req) (hw : I w) (timeout now : Nat) :
    I (converge d req timeout w now).run.world := by
  obtain ⟨r, hr, ho⟩ := converge_outcome d req timeout w now
  rw [hr]
  exact (h.run.outcome ⟨hw, hreq⟩ ho).1

theorem remove_keeps (h : DriverKeeps d I G) (hreq : G req) (hw : I w) (timeout now : Nat) :
    I (remove d req timeout w now).run.world := by
  obtain ⟨r, hr, ho⟩ := remove_outcome d req timeout w now
  rw [hr]
  exact (h.run.outcome ⟨hw, hreq⟩ ho).1

end Openporch
