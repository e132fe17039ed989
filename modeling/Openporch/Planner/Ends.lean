import Openporch.Planner.Attempts

/-!
# How a task ends

The outcomes that the loops of attempts leave with. A task that ends pending ran out of time.
-/

namespace Openporch
open Loops Hoare

variable {W α β : Type}

inductive Fails (deadline : Nat) (s : PlannerRun W) : Outcome → Prop
  | failed (error : String) : Fails deadline s (.failed error)
  | unknown (error : String) : Fails deadline s (.unknown error)
  | cleanupPending (error : String) : Fails deadline s (.cleanupPending error)
  | pending (error : String) : deadline ≤ s.now → Fails deadline s (.pending error)

def FailsBy (deadline : Nat) (x : PlanM W α) : Prop :=
  Triple (fun _ => True) x (fun _ _ => True) fun o s => Fails deadline s o

def FailedAs (deadline : Nat) : EStateM.Result Outcome (PlannerRun W) α → Prop
  | .ok _ _ => True
  | .error o s => Fails deadline s o

namespace FailsBy
variable {deadline : Nat} (p : Planner W)

theorem bind {x : PlanM W α} {f : α → PlanM W β} (hx : FailsBy deadline x) (hf : ∀ a, FailsBy deadline (f a)) :
    FailsBy deadline (x >>= f) :=
  Triple.bind hx hf

theorem failed (error : String) : FailsBy deadline (throw (.failed error) : PlanM W α) := fun _ _ => .failed error

theorem unknown (error : String) : FailsBy deadline (throw (.unknown error) : PlanM W α) := fun _ _ => .unknown error

theorem cleanupPending (error : String) : FailsBy deadline (throw (.cleanupPending error) : PlanM W α) :=
  fun _ _ => .cleanupPending error

theorem pure (a : α) : FailsBy deadline (pure a : PlanM W α) := fun _ _ => trivial

theorem of_ok {x : PlanM W α} (h : ∀ s, ∃ a s', x s = .ok a s') : FailsBy deadline x := by
  intro s _
  obtain ⟨a, s', hx⟩ := h s
  rw [hx]
  trivial

theorem transact (tx : Nat → Db → Result α × Db) : FailsBy deadline (transact p tx) := by
  refine of_ok fun s => ?_
  unfold Openporch.transact
  dsimp only
  split <;> exact ⟨_, _, rfl⟩

theorem beginOperation (start : OperationStart) : FailsBy deadline (beginOperation p start) := fun s _ =>
  transact p _ { s with drawn := s.drawn + 1 } trivial

theorem checkpoint (id : String) (result : CheckpointResult) : FailsBy deadline (checkpoint p id result) := by
  refine (transact p _).bind fun r => ?_
  cases r <;> exact pure _

theorem execute (attempt : Nat) (stopped late : String) (run : Exec W → EStateM.Result ExecFailure (Exec W) α) :
    FailsBy deadline (execute p attempt deadline stopped late run) := of_ok fun _ => ⟨_, _, rfl⟩

theorem within_none (c : Call W α) (deadline now : Nat) (h : (c.within (deadline - now)).1 = none) :
    deadline ≤ now + (c.within (deadline - now)).2.1 := by
  unfold Call.within at h ⊢
  split at h
  · split at h
    · cases h
    · rename_i hlate
      simp only [if_neg hlate]
      omega
  · dsimp only
    omega

theorem acquireSlot : FailsBy deadline (acquireSlot p deadline) := by
  intro s _
  have hlate := within_none (p.acquire s.world) deadline s.now
  unfold Openporch.acquireSlot
  generalize (p.acquire s.world).within (deadline - s.now) = answer at hlate
  obtain ⟨answer, t, world⟩ := answer
  cases answer with
  | none => exact .pending _ (hlate rfl)
  | some slot =>
    cases slot with
    | false => exact .failed _
    | true =>
      dsimp only
      split
      · rename_i h
        split at h
        · cases h
        · trivial
      · rename_i h
        split at h
        · rename_i hpassed
          cases h
          exact .pending _ hpassed
        · cases h

theorem backoff (attempt : Nat) : FailsBy deadline (backoff p attempt) := of_ok fun _ => ⟨_, _, rfl⟩

theorem waitForRetry (attempt : Nat) (error : String) (retryAfter : Option Nat) :
    FailsBy deadline (waitForRetry p attempt deadline error retryAfter) := by
  unfold Openporch.waitForRetry
  split
  · exact failed _
  · refine bind ?_ fun delay s _ => ?_
    · cases retryAfter with
      | some t => exact pure t
      | none => exact backoff p attempt
    · unfold sleepUntilRetry
      split
      · rename_i h
        split at h
        · cases h
        · trivial
      · rename_i h
        split at h
        · cases h
          exact .failed _
        · cases h

theorem attemptsLoop {body : Nat → PlanM W (Option α)} (hbody : ∀ a s s', body a s = .ok none s' → a < p.limits.attempts)
    (h : ∀ a, FailsBy deadline (body a)) : FailsBy deadline fun s => (attemptsLoop p body hbody).run (0, s) := by
  intro s _
  have hfailed : FailedAs deadline ((Openporch.attemptsLoop p body hbody).run (0, s)) := by
    refine Loop.run_induct _ (fun _ => True) (FailedAs deadline) (fun _ _ _ _ => trivial) (fun q r _ hstep => ?_) (0, s) trivial
    dsimp only [Openporch.attemptsLoop] at hstep
    have hq := h (q.1 + 1) q.2 trivial
    split at hstep
    · cases hstep
      trivial
    · cases hstep
    · rename_i hfail
      cases hstep
      rw [hfail] at hq
      exact hq
  revert hfailed
  dsimp only
  cases (Openporch.attemptsLoop p body hbody).run (0, s) <;> exact id

end FailsBy

namespace NodeRun
variable (n : NodeRun) (p : Planner W)

theorem fail_failsBy (attempt : Nat) (id : String) (f : ExecFailure) : FailsBy n.deadline (n.fail p attempt id f) := by
  cases f with
  | permanent error => exact .bind (.checkpoint p _ _) fun _ => .failed _
  | uncertain error cookie => exact .bind (.checkpoint p _ _) fun _ => .unknown _
  | retryable error retryAfter => exact .bind (.checkpoint p _ _) fun _ => .waitForRetry p _ _ _

end NodeRun

inductive NodeEnd where
  | provisioned (outputs : ResourceOutputs)
  | failed (error : String)
  | unknown (error : String)
  | pending (error : String)
  | cleanupPending (error : String)
  /-- The task panicked. Its operation, if one started, stays open for recovery. -/
  | stopped

def NodeEnd.outcome : NodeEnd → Outcome
  | provisioned _ => .provisioned
  | failed e => .failed e
  | unknown e => .unknown e
  | pending e => .pending e
  | cleanupPending e => .cleanupPending e
  | stopped => .unknown "provisioning stopped unexpectedly; recover the resource"

inductive DeletionEnd where
  | deleted
  | failed (error : String)
  | unknown (error : String)
  | pending (error : String)
  | cleanupPending (error : String)
deriving DecidableEq

def DeletionEnd.outcome : DeletionEnd → Outcome
  | deleted => .deleted
  | failed e => .failed e
  | unknown e => .unknown e
  | pending e => .pending e
  | cleanupPending e => .cleanupPending e

namespace DeleteRun
variable (n : DeleteRun) (p : Planner W)

def run (s : PlannerRun W) : Outcome × PlannerRun W :=
  match n.attempts p s with
  | .ok () s' => (.deleted, s')
  | .error o s' => (o, s')

theorem removeRecord_failsBy (id : String) (tried tries : Nat) : FailsBy n.deadline (removeRecord p id tried tries) := by
  induction tries generalizing tried with
  | zero => exact .pure _
  | succ tries ih =>
    refine .bind (.of_ok fun s => ⟨_, _, rfl⟩) fun _ => .bind (.checkpoint p _ _) fun recorded => ?_
    cases recorded with
    | true => exact .pure _
    | false => exact ih _

theorem recordDeletion_failsBy (id : String) : FailsBy n.deadline (recordDeletion p id) := by
  refine .bind (n.removeRecord_failsBy p id 0 3) fun removed => ?_
  cases removed with
  | true => exact .pure _
  | false =>
    refine .bind (.checkpoint p _ _) fun recorded => ?_
    cases recorded with
    | true => exact .bind (.cleanupPending _) fun _ => .bind (.checkpoint p _ _) fun _ => .unknown _
    | false => exact .bind (.checkpoint p _ _) fun _ => .unknown _

theorem checkFirst_failsBy (attempt : Nat) : FailsBy n.deadline (n.checkFirst p attempt) := by
  unfold checkFirst
  split
  · intro s _
    have hlate := FailsBy.within_none (p.services.check n.permitRequest s.world) n.deadline s.now
    unfold checkPermit
    generalize (p.services.check n.permitRequest s.world).within (n.deadline - s.now) = answer at hlate
    obtain ⟨answer, t, world⟩ := answer
    cases answer with
    | none => exact .pending _ (hlate rfl)
    | some allowed =>
      cases allowed with
      | ok _ => trivial
      | error e => exact .failed _
  · exact .pure _

theorem fail_failsBy (attempt : Nat) (id : String) (f : ExecFailure) : FailsBy n.deadline (n.fail p attempt id f) := by
  cases f with
  | permanent error => exact .bind (.checkpoint p _ _) fun _ => .failed _
  | uncertain error cookie => exact .bind (.checkpoint p _ _) fun _ => .unknown _
  | retryable error retryAfter =>
    refine .bind (.checkpoint p _ _) fun recorded => ?_
    cases recorded with
    | false => exact .bind (.failed _) fun _ => .waitForRetry p _ _ _
    | true => exact .waitForRetry p _ _ _

theorem attempts_failsBy : FailsBy n.deadline (n.attempts p) := by
  unfold attempts
  split
  · exact .failed _
  · rename_i r _
    refine FailsBy.attemptsLoop p _ fun a => ?_
    refine .bind (.acquireSlot p) fun _ => .bind (n.checkFirst_failsBy p a) fun _ => .bind (.beginOperation p _) fun started => ?_
    cases started with
    | error e => cases e <;> exact .failed _
    | ok started =>
      refine .bind ?_ fun result => ?_
      · unfold delete
        split
        · exact .pure _
        · exact .execute p a _ _ _
      · cases result with
        | ok _ => exact .bind (n.recordDeletion_failsBy p _) fun _ => .pure _
        | error f => exact .bind (n.fail_failsBy p a _ f) fun _ => .pure _

theorem deletion_ends (s : PlannerRun W) : ∃ e : DeletionEnd, (n.run p s).1 = e.outcome ∧
    ∀ error, e = .pending error → n.deadline ≤ (n.run p s).2.now := by
  have hfails := n.attempts_failsBy p s trivial
  unfold run
  cases h : n.attempts p s with
  | ok _ s' => exact ⟨.deleted, rfl, nofun⟩
  | error o s' =>
    rw [h] at hfails
    dsimp only at hfails ⊢
    cases hfails with
    | failed error => exact ⟨.failed error, rfl, nofun⟩
    | unknown error => exact ⟨.unknown error, rfl, nofun⟩
    | cleanupPending error => exact ⟨.cleanupPending error, rfl, nofun⟩
    | pending error hlate => exact ⟨.pending error, rfl, fun _ _ => hlate⟩

end DeleteRun
end Openporch
