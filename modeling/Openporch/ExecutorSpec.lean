import Openporch.Executor

/-!
# The executor's steps

One triple for each step of a job around its mutation. The steps before it make no driver call but the
preview, and the request they arrive at is for the registered driver, with the job's own cookie, operation and GUResID
(`Ready`).
-/

namespace Openporch
open Hoare

variable {W α : Type}

def execState : EStateM.Result ExecFailure (Exec W) α → Exec W
  | .ok _ s | .error _ s => s

def ProvisionJob.operation (job : ProvisionJob) : Operation :=
  { id := job.operationId, fingerprint := job.inputFingerprint }

def ProvisionJob.identity (job : ProvisionJob) : Operation × Guresid := (job.operation, job.guresid)

def DriverRequest.identity (req : DriverRequest) : Operation × Guresid := (req.operation, req.guresid)

structure SameCall (req req' : DriverRequest) : Prop where
  cookie : req'.cookie = req.cookie
  identity : req'.identity = req.identity

section Steps
variable {I : Exec W → Prop}

theorem execState_keeps {x : ExecM W α} {Q : α → Prop} {s : Exec W} (h : Keeping I x Q) (hs : I s) : I (execState (x s)) := by
  have hx := h s hs
  cases hr : x s with
  | ok a s' => rw [hr] at hx; exact hx.2
  | error e s' => rw [hr] at hx; exact hx

theorem ofExcept_spec (r : Except ExecFailure α) : Keeping I (ExecM.ofExcept r) (r = .ok ·) := by
  intro s hs
  cases r with
  | ok a => exact ⟨rfl, hs⟩
  | error e => exact hs

abbrev Serves (I : Exec W → Prop) (f : W → α × Nat × W) : Prop :=
  ∀ s, I s → I { s with world := (f s.world).2.2, now := s.now + (f s.world).2.1 }

theorem serve_spec {E : ExecFailure → Exec W → Prop} {f : W → α × Nat × W} (hf : Serves I f) :
    Triple I (ExecM.serve f) (fun _ s => I s) E := hf

/-- Secrets and credentials are served without a change to what `I` speaks of. -/
structure Services.Keep (sv : Services W) (I : Exec W → Prop) : Prop where
  readSecrets : ∀ job sources chk, Serves I (sv.readSecrets job sources chk)
  credentials : ∀ job window, Serves I (sv.credentials job window)
  write : ∀ name value, Serves I (sv.write name value)

variable (sv : Services W) (job : ProvisionJob)

/-- What a request carries: the job's own cookie and identity for the registered driver, and the inputs rendered with
what was read. -/
structure Requested (read : SecretRef → Option String) (call : DriverJob W) : Prop where
  driver : sv.driver job = .ok call.driver
  cookie : sv.openCookie job = .ok call.req.cookie
  identity : call.req.identity = job.identity
  permit : call.req.permit = none
  resource : split job.inputs.resource read = .ok (call.req.resource, call.req.resourceSecrets)
  paths : call.req.resourceSecretPaths = job.inputs.resource.secretPaths []
  secrets : ∃ secrets refs, object job.inputs.secrets read "`driver_inputs.secrets`" = .ok secrets ∧
    object job.inputs.secretRefs read "`driver_inputs.secret_refs`" = .ok refs ∧ call.req.secrets = secrets.extend refs

section Served
variable {sv} (hI : sv.Keep I)
include hI

theorem request_spec (sources : List (SecretRef × SecretSource)) (chk : Bool) :
    Keeping I (request sv job sources chk) fun call => ∃ read, Requested sv job read call := by
  unfold request
  refine .bind (ofExcept_spec _) fun driver => .of_fact fun hd => ?_
  refine .bind (ofExcept_spec _) fun values => .of_fact fun _ => ?_
  refine .bind (.get (Q := fun _ s => I s) fun s hs => hs) fun _ => ?_
  refine .bind (ofExcept_spec _) fun timeout => .of_fact fun _ => ?_
  refine .bind (serve_spec (hI.readSecrets _ _ _)) fun answer => ?_
  refine .bind (ofExcept_spec _) fun read => .of_fact fun _ => ?_
  refine .bind (ofExcept_spec _) fun resource => .of_fact fun hsplit => ?_
  refine .bind (ofExcept_spec _) fun secrets => .of_fact fun hsecrets => ?_
  refine .bind (ofExcept_spec _) fun refs => .of_fact fun hrefs => ?_
  refine .bind (serve_spec (hI.credentials _ _)) fun answer => ?_
  refine .bind (ofExcept_spec _) fun account => .of_fact fun _ => ?_
  refine .bind (ofExcept_spec _) fun cookie => .of_fact fun hc => ?_
  exact .pure fun s hs => ⟨⟨read, hd, hc, rfl, rfl, hsplit, rfl, secrets, refs, hsecrets, hrefs, rfl⟩, hs⟩

theorem refresh_spec (req : DriverRequest) (window : Nat) :
    Keeping I (refresh sv job req window) fun r => ∃ credentials, r.1 = { req with credentials } := by
  unfold refresh
  refine .bind (serve_spec (hI.credentials _ _)) fun _ => .bind (ofExcept_spec _) fun a => .of_fact fun _ => ?_
  cases a <;> exact .pure fun s hs => ⟨⟨_, rfl⟩, hs⟩

theorem writeSecrets_spec : ∀ secrets : JsonMap, Triple I (writeSecrets sv job secrets) (fun _ s => I s)
    (fun f s => f.isUncertain = true ∧ I s)
  | [] => .pure fun _ hs => hs
  | (key, value) :: rest => by
    unfold writeSecrets
    refine .bind (serve_spec (hI.write _ _)) fun a => ?_
    cases a with
    | error e => exact .throw fun _ hs => ⟨rfl, hs⟩
    | ok ref => exact .bind (writeSecrets_spec rest) fun _ => .pure fun _ hs => hs

theorem provisioned_spec (outputs : DriverOutputs) (cookie : Option Cookie) (target : Option String) :
    Triple I (provisioned sv job outputs cookie target) (fun _ s => checkOutputs job.outputSchema outputs = .ok () ∧ I s)
      (fun f s => (checkOutputs job.outputSchema outputs = .ok () ∧ f.isUncertain = true ∨
        (∃ e, checkOutputs job.outputSchema outputs = .error e) ∧ ∃ m, f = .permanent m) ∧ I s) := by
  unfold provisioned
  cases h : checkOutputs job.outputSchema outputs with
  | error e =>
    intro s hs
    exact ⟨.inr ⟨⟨e, rfl⟩, _, rfl⟩, hs⟩
  | ok _ =>
    refine .bind (R := fun _ s => I s) (fun _ hs => hs) fun _ => ?_
    refine .bind ((writeSecrets_spec job hI _).fails fun f s hf => ?_) fun _ => ?_
    · exact ⟨.inl ⟨rfl, hf.1⟩, hf.2⟩
    · exact .pure fun s hs => ⟨rfl, hs⟩

theorem finishProvision_spec (req : DriverRequest) (target : Option String) (plan : Plan)
    (settled : Settled W DriverOutputs) :
    Keeping I (finishProvision sv job req target plan settled) fun _ => True := by
  unfold finishProvision
  dsimp only
  split
  · exact .throw fun _ hs => hs
  · rename_i outputs _
    intro s hs
    have hspec := provisioned_spec job hI outputs settled.cookie target s hs
    dsimp only [ExecM.mapError]
    rcases hp : provisioned sv job outputs settled.cookie target s with ⟨result, s'⟩ | ⟨f, s'⟩ <;> rw [hp] at hspec
    · exact ⟨trivial, hspec.2⟩
    · exact hspec.2

end Served

theorem finishDeprovision_spec (req : DriverRequest) (settled : Settled W Unit) :
    Keeping I (finishDeprovision sv job req settled) fun _ => True := by
  unfold finishDeprovision
  dsimp only
  split
  · exact .throw fun _ hs => hs
  · exact .pure fun _ hs => ⟨trivial, hs⟩

end Steps

section Prepare
variable {C : List DriverCall → List (DriverRequest × Option (Except DriverError Plan)) → Prop}
  (sv : Services W) (job : ProvisionJob)

theorem keep_calls : sv.Keep fun s => C s.calls s.previews :=
  ⟨fun _ _ _ _ hs => hs, fun _ _ _ hs => hs, fun _ _ _ hs => hs⟩

theorem permit_spec (action : DestructiveAction) (plan : Option (String × List (Action × String))) :
    Triple (fun s : Exec W => C s.calls s.previews) (permit sv job action plan) (fun _ s => C s.calls s.previews)
      (fun _ s => C s.calls s.previews) := by
  intro s hs
  unfold permit
  dsimp only
  rcases (sv.check (permitRequest job action plan) s.world).within (job.deadline - s.now) with
    ⟨_ | _ | _, t, world⟩ <;> exact hs

theorem authorizePlan_spec (req : DriverRequest) (p : Plan) :
    Keeping (fun s : Exec W => C s.calls s.previews) (authorizePlan sv job req p) (SameCall req) := by
  cases p with
  | noEffects => exact .pure fun s hs => ⟨⟨rfl, rfl⟩, hs⟩
  | actions actions fingerprint =>
    simp only [authorizePlan]
    split
    · exact .bind (permit_spec sv job _ _) fun _ => .pure fun s hs => ⟨⟨rfl, rfl⟩, hs⟩
    · exact .pure fun s hs => ⟨⟨rfl, rfl⟩, hs⟩
  | unknown =>
    simp only [authorizePlan]
    split
    · exact .bind (permit_spec sv job _ _) fun _ => .pure fun s hs => ⟨⟨rfl, rfl⟩, hs⟩
    · exact .pure fun s hs => ⟨⟨rfl, rfl⟩, hs⟩

theorem authorizeDeletion_spec (req : DriverRequest) (p : Plan) :
    Keeping (fun s : Exec W => C s.calls s.previews) (authorizeDeletion sv job req p) (SameCall req) := by
  cases p with
  | actions actions fingerprint =>
    exact .bind (permit_spec sv job _ _) fun _ => .pure fun s hs => ⟨⟨rfl, rfl⟩, hs⟩
  | _ => exact .pure fun s hs => ⟨⟨rfl, rfl⟩, hs⟩

/-- Nothing but the preview was asked of the driver, and `plan` is what came of it. -/
def Planned (plan : Plan) (calls : List DriverCall)
    (previews : List (DriverRequest × Option (Except DriverError Plan))) : Prop :=
  calls = [] ∧ ((∃ r, (r, some (.ok .noEffects)) ∈ previews) ↔ plan = .noEffects)

theorem plan_spec (d : Driver W) (req : DriverRequest) (timeout : Nat) (delete : Bool) :
    Triple (fun s : Exec W => s.calls = [] ∧ s.previews = []) (plan d req timeout delete)
      (fun p s => Planned p s.calls s.previews) (fun _ s => s.calls = []) := by
  rintro s ⟨hc, hp⟩
  unfold plan
  by_cases h : (!d.info.capabilities.preview) = true
  · rw [if_pos h]
    exact ⟨hc, by simp [hp]⟩
  · rw [if_neg h]
    generalize (if delete then d.planDelete req s.world else d.plan req s.world).within timeout = w
    rcases w with ⟨_ | _ | p, t, world⟩
    · exact hc
    · exact hc
    · exact ⟨hc, by simp [hp, eq_comm]⟩

def Ready (p : Prepared W) (s : Exec W) : Prop :=
  (sv.driver job = .ok p.driver ∧ sv.openCookie job = .ok p.req.cookie ∧ p.req.identity = job.identity) ∧
    Planned p.plan s.calls s.previews

/-- What `prepareProvision` and `prepareDeprovision` have in common. -/
def prepareWith (sources : List (SecretRef × SecretSource)) (checkCriteria delete : Bool)
    (authorize : DriverRequest → Plan → ExecM W DriverRequest) (target : Option String → Option String → Option String) :
    ExecM W (Prepared W) := do
  let call ← request sv job sources checkCriteria
  let plan ← plan call.driver call.req call.timeout delete
  let req ← authorize call.req plan
  let timeout := min call.timeout (job.deadline - (← get).now)
  let (req, refreshed) ← refresh sv job req timeout
  return { driver := call.driver, req, timeout, target := target call.target refreshed, plan }

theorem prepareProvision_eq : prepareProvision sv job = prepareWith sv job job.inputs.sources true false
    (authorizePlan sv job) fun target refreshed => refreshed.or target := rfl

theorem prepareDeprovision_eq : prepareDeprovision sv job = prepareWith sv job
    (if job.inputs.sources.isEmpty then inferredSources job else job.inputs.sources) false true
    (authorizeDeletion sv job) fun target _ => target := rfl

theorem prepareWith_spec {sources} {chk delete : Bool} {authorize target}
    (hauthorize : ∀ req p, Keeping (fun s : Exec W => Planned p s.calls s.previews) (authorize req p) (SameCall req)) :
    Triple (fun s : Exec W => s.calls = [] ∧ s.previews = []) (prepareWith sv job sources chk delete authorize target)
      (Ready sv job) (fun _ s => s.calls = []) := by
  refine .bind ((request_spec job (keep_calls (C := fun c p => c = [] ∧ p = []) sv) _ _).fails fun _ _ h => h.1) fun call =>
    .of_fact fun ⟨read, hc⟩ => ?_
  refine .bind (plan_spec _ _ _ _) fun p => ?_
  refine .bind ((hauthorize _ p).fails fun _ _ h => h.1) fun req => .of_fact fun hreq => ?_
  refine .bind (.get (Q := fun _ s => Planned p s.calls s.previews) fun _ hs => hs) fun _ => ?_
  refine .bind ((refresh_spec job (keep_calls (C := Planned p) sv) _ _).fails fun _ _ h => h.1) fun ⟨req', refreshed⟩ =>
    .of_fact fun ⟨credentials, hr⟩ => ?_
  subst hr
  exact .pure fun s hs => ⟨⟨hc.driver, hreq.cookie ▸ hc.cookie, hreq.identity.trans hc.identity⟩, hs⟩

theorem prepareProvision_spec : Triple (fun s : Exec W => s.calls = [] ∧ s.previews = [])
    (prepareProvision sv job) (Ready sv job) (fun _ s => s.calls = []) :=
  prepareProvision_eq sv job ▸ prepareWith_spec sv job fun req p => authorizePlan_spec sv job req p

theorem prepareDeprovision_spec : Triple (fun s : Exec W => s.calls = [] ∧ s.previews = [])
    (prepareDeprovision sv job) (Ready sv job) (fun _ s => s.calls = []) :=
  prepareDeprovision_eq sv job ▸ prepareWith_spec sv job fun req p => authorizeDeletion_spec sv job req p

end Prepare

section Runs
variable (sv : Services W) (job : ProvisionJob) {β : Type}

/-- A run fails before it asks for the change, or ends as the change is finished. -/
inductive Runs (change : Prepared W → W → Nat → Settled W α) (finish : Prepared W → Settled W α → ExecM W β) :
    EStateM.Result ExecFailure (Exec W) β → Prop
  | unready {f s} (hcalls : s.calls = []) : Runs change finish (.error f s)
  | ready {p s s'} (hready : Ready sv job p s)
      (hcalls : s'.calls = (change p s.world s.now).run.calls)
      (hpreviews : s'.previews = s.previews) :
    Runs change finish (finish p (change p s.world s.now) s')

variable {sv job}

theorem runs {prepare} (change : Prepared W → W → Nat → Settled W α) (finish : Prepared W → Settled W α → ExecM W β)
    (world : W) (now : Nat)
    (hprepare : Triple (fun s : Exec W => s.calls = [] ∧ s.previews = []) prepare (Ready sv job) fun _ s => s.calls = []) :
    Runs sv job change finish ((prepare >>= fun p => ExecM.settle (change p) >>= finish p) (.start world now)) := by
  have hprep := hprepare (.start world now) ⟨rfl, rfl⟩
  rcases hp : prepare (.start world now) with ⟨p, s⟩ | ⟨f, s⟩ <;> rw [hp] at hprep
  · rw [bind_ok hp]
    exact .ready hprep ((congrArg _ hprep.2.1).trans (List.append_nil _)) rfl
  · rw [bind_error hp]
    exact .unready hprep

theorem Runs.calls {change : Prepared W → W → Nat → Settled W α} {finish : Prepared W → Settled W α → ExecM W β}
    {r : EStateM.Result ExecFailure (Exec W) β} (h : Runs sv job change finish r)
    (hfinish : ∀ p settled, ∀ s, (execState (finish p settled s)).calls = s.calls) :
    (execState r).calls = [] ∨ ∃ p s, Ready sv job p s ∧ (execState r).calls = (change p s.world s.now).run.calls := by
  cases h with
  | unready hcalls => exact .inl hcalls
  | @ready p s s' hready hcalls _ => exact .inr ⟨p, s, hready, (hfinish p _ s').trans hcalls⟩

variable (sv job) (world : W) (now : Nat)

theorem finishProvision_calls (req : DriverRequest) (target : Option String) (plan : Plan)
    (settled : Settled W DriverOutputs) (s : Exec W) :
    (execState (finishProvision sv job req target plan settled s)).calls = s.calls ∧
      (execState (finishProvision sv job req target plan settled s)).previews = s.previews :=
  execState_keeps (finishProvision_spec job (keep_calls (C := fun c p => c = s.calls ∧ p = s.previews) sv) req target plan
    settled) ⟨rfl, rfl⟩

theorem finishDeprovision_calls (req : DriverRequest) (settled : Settled W Unit) (s : Exec W) :
    execState (finishDeprovision sv job req settled s) = s :=
  execState_keeps (I := (· = s)) (finishDeprovision_spec sv job req settled) rfl

theorem runProvision_runs : Runs sv job (fun p => converge p.driver p.req p.timeout)
    (fun p => finishProvision sv job p.req p.target p.plan) (runProvision sv job (.start world now)) :=
  runs _ _ world now (prepareProvision_spec sv job)

theorem runDeprovision_runs : Runs sv job (fun p => remove p.driver p.req p.timeout)
    (fun p => finishDeprovision sv job p.req) (runDeprovision sv job (.start world now)) :=
  runs _ _ world now (prepareDeprovision_spec sv job)

end Runs
end Openporch
