import Openporch.ExecutorSpec

/-!
# The identity a job's calls carry

A run changes nothing of its request but the cookie, so all its calls carry one operation and one GUResID. A job makes
its request from its own.
-/

namespace Openporch
open Loops Hoare List

variable {W α : Type}

structure Run.Serves (id : Operation × Guresid) (s : Run W) : Prop where
  req : s.req.identity = id
  calls : ∀ c ∈ s.calls, c.request.identity = id

variable {id : Operation × Guresid} (d : Driver W)

theorem Run.Serves.keeps : Run.Keeps d (Run.Serves id) where
  made {s c s1} h hs := by
    refine ⟨h.request.1 ▸ hs.req, fun c' hc' => ?_⟩
    rcases mem_cons.1 (h.calls ▸ hc') with rfl | hc'
    · rw [h.request.2]
      exact hs.req
    · exact hs.calls c' hc'
  cookie _ _ hs := ⟨hs.req, hs.calls⟩
  wait _ _ hs := ⟨hs.req, hs.calls⟩

theorem Run.new_serves (req : DriverRequest) (timeout : Nat) (world : W) (now : Nat) :
    (Run.new req timeout world now).Serves req.identity := ⟨rfl, fun _ hc => absurd hc not_mem_nil⟩

variable (sv : Services W) (job : ProvisionJob) (world : W) (now : Nat)

theorem runProvision_identity :
    ∀ c ∈ (execState (runProvision sv job (.start world now))).calls, c.request.identity = job.identity := by
  rcases (runProvision_runs sv job world now).calls fun _ _ _ => (finishProvision_calls ..).1 with h | ⟨p, s, hready, h⟩
  · rw [h]; exact fun _ hc => absurd hc not_mem_nil
  · rw [h, ← hready.1.2.2]
    obtain ⟨r, hr, ho⟩ := converge_outcome p.driver p.req p.timeout s.world s.now
    rw [hr]
    exact ((Run.Serves.keeps p.driver).outcome (Run.new_serves _ _ _ _) ho).calls

theorem runDeprovision_identity :
    ∀ c ∈ (execState (runDeprovision sv job (.start world now))).calls, c.request.identity = job.identity := by
  rcases (runDeprovision_runs sv job world now).calls fun _ _ _ => congrArg _ (finishDeprovision_calls ..)
    with h | ⟨p, s, hready, h⟩
  · rw [h]; exact fun _ hc => absurd hc not_mem_nil
  · rw [h, ← hready.1.2.2]
    obtain ⟨r, hr, ho⟩ := remove_outcome p.driver p.req p.timeout s.world s.now
    rw [hr]
    exact ((Run.Serves.keeps p.driver).outcome (Run.new_serves _ _ _ _) ho).calls

end Openporch
