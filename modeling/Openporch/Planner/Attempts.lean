import Openporch.DriverOperation
import Openporch.Scope
import Openporch.Store.Outcomes

/-!
# Attempts

The planner's two loops around a job: `NodeRun::run` provisions a node and `DeleteRun::attempts` deletes a resource,
each with an operation the store records first and again after a failure that may be retried.

What surrounds a loop is a `Planner` over an arbitrary world.
-/

namespace Openporch
open Loops Hoare

variable {W α : Type}

inductive Outcome where
  | provisioned
  | failed (error : String)
  | unknown (error : String)
  | pending (error : String)
  | deleted
  | cleanupPending (error : String)
  | kept (reason : String)
deriving DecidableEq

structure Limits where
  attempts : Nat
  backoff : Nat
  maxBackoff : Nat

structure Planner (W : Type) where
  services : Services W
  limits : Limits
  /-- Waits for a slot; `false` when the planner is shutting down. -/
  acquire : W → Call W Bool
  /-- What the other tasks do to the database, and how long our turn takes to come. -/
  others : W → Db → Db × Nat × W
  /-- The database's own failure of a transaction. -/
  fault : W → Option StoreError × W
  stops : W → Bool × W
  /-- A random number, for the jitter of a delay. -/
  jitter : W → Nat × W
  ids : Nat → String
  guresids : Nat → Guresid

structure PlannerRun (W : Type) where
  world : W
  now : Nat
  db : Db
  drawn : Nat
  /-- The driver calls with the attempt that made them, newest attempt first. -/
  sent : List (Nat × DriverCall)

abbrev PlanM (W : Type) := EStateM Outcome (PlannerRun W)

section Steps
variable (p : Planner W)

def acquireSlot (deadline : Nat) : PlanM W Unit := fun s =>
  let (answer, t, world) := (p.acquire s.world).within (deadline - s.now)
  let s := { s with world, now := s.now + t }
  match answer with
  | none => .error (.pending "the deployment ran out of time") s
  | some false => .error (.failed "the planner is shutting down") s
  | some true => if deadline ≤ s.now then .error (.pending "the deployment ran out of time") s else .ok () s

def transact (tx : Nat → Db → Result α × Db) : PlanM W (Result α) := fun s =>
  let (db, t, world) := p.others s.world s.db
  let (fault, world) := p.fault world
  let s := { s with db, world, now := s.now + t }
  match fault with
  | some e => .ok (.error e) s
  | none => .ok (tx s.now s.db).1 { s with db := (tx s.now s.db).2 }

def committed (tx : Db → Result Db) (db : Db) : Result Unit × Db :=
  match tx db with
  | .ok db' => (.ok (), db')
  | .error e => (.error e, db)

/-- `begin_operation` with the next identifiers. -/
def beginOperation (start : OperationStart) : PlanM W (Result OperationStarted) := fun s =>
  transact p (fun now db => db.beginOperation now (p.ids s.drawn) (p.guresids s.drawn) start)
    { s with drawn := s.drawn + 1 }

def checkpoint (id : String) (result : CheckpointResult) : PlanM W Bool := do
  match ← transact p fun _ => committed fun db => db.checkpointOperation id result with
  | .ok () => return true
  | .error _ => return false

def execute (attempt deadline : Nat) (stopped late : String) (run : Exec W → EStateM.Result ExecFailure (Exec W) α) :
    PlanM W (Except ExecFailure α) := fun s =>
  let r := run (.start s.world s.now)
  let (stops, world) := p.stops (execState r).world
  let sent := (execState r).calls.map (attempt, ·) ++ s.sent
  let result : Except ExecFailure α :=
    if deadline < (execState r).now then .error (.uncertain late none)
    else if stops then .error (.uncertain stopped none)
    else match r with
      | .ok a _ => .ok a
      | .error f _ => .error f
  .ok result { s with world, now := min (execState r).now deadline, sent }

def backoff (attempt : Nat) : PlanM W Nat := fun s =>
  let exp := min (p.limits.backoff * 2 ^ min (attempt - 1) 16) p.limits.maxBackoff
  let (random, world) := p.jitter s.world
  .ok (exp / 2 + random % (exp - exp / 2 + 1)) { s with world }

def retryDelay (attempt : Nat) : Option Nat → PlanM W Nat
  | some t => pure t
  | none => backoff p attempt

def sleepUntilRetry (deadline : Nat) (error : String) (delay : Nat) : PlanM W Unit := fun s =>
  if deadline ≤ s.now + delay then .error (.failed (error ++ " (no time left for another attempt)")) s
  else .ok () { s with now := s.now + delay }

/-- The end of an attempt that may be retried: the wait before the next one, or the outcome when there
is none. -/
def waitForRetry (attempt deadline : Nat) (error : String) (retryAfter : Option Nat) : PlanM W Unit :=
  if p.limits.attempts ≤ attempt then
    throw (.failed (error ++ " (after " ++ toString attempt ++ " attempts)"))
  else do
    let delay ← retryDelay p attempt retryAfter
    sleepUntilRetry deadline error delay

def attemptsLoop (body : Nat → PlanM W (Option α))
    (hbody : ∀ a s s', body a s = .ok none s' → a < p.limits.attempts) :
    Loop (Nat × PlannerRun W) (EStateM.Result Outcome (PlannerRun W) α) where
  step := fun (a, s) => match body (a + 1) s with
    | .ok (some r) s' => .inl (.ok r s')
    | .ok none s' => .inr (a + 1, s')
    | .error e s' => .inl (.error e s')
  measure q := p.limits.attempts - q.1
  decreases := by
    rintro ⟨a, s⟩ ⟨a', s'⟩ h
    dsimp only at h
    split at h
    · cases h
    · rename_i hb
      cases h
      have := hbody _ _ _ hb
      show p.limits.attempts - (a + 1) < p.limits.attempts - a
      omega
    · cases h

def Limited (a : Nat) (x : PlanM W (Option α)) : Prop :=
  Triple (fun _ => True) x (fun r _ => r = none → a < p.limits.attempts) (fun _ _ => True)

theorem Limited.lt {a : Nat} {x : PlanM W (Option α)} (h : Limited p a x) (s s' : PlannerRun W)
    (hx : x s = .ok none s') : a < p.limits.attempts :=
  h.ok trivial hx rfl

theorem waitForRetry_spec (a deadline : Nat) (error : String) (retryAfter : Option Nat) :
    Triple (fun _ : PlannerRun W => True) (waitForRetry p a deadline error retryAfter)
      (fun _ _ => a < p.limits.attempts) (fun _ _ => True) := by
  unfold waitForRetry
  by_cases h : p.limits.attempts ≤ a
  · rw [if_pos h]
    exact fun _ _ => trivial
  · rw [if_neg h]
    exact .const (Nat.lt_of_not_le h)

end Steps

/-- What `NodeRun` holds of its node, definition and scope. `resolve` is the resolution of the node's inputs and
cloud account once the GUResID is known. -/
structure NodeRun where
  context : JobContext
  descriptor : Descriptor
  definitionId : String
  definitionVersion : Int
  definition : Json
  driverType : String
  fingerprint : String
  resolve : OperationStarted → Except String (JobInputs × Option String)
  /-- The inputs as JSON, secrets as references. -/
  inputsJson : JobInputs → Json
  dependencies : Json
  dependsOn : List String
  pin : Option Json
  outputSchema : Option ResourceType
  deadline : Nat

def Json.ofInt : Int → Json
  | .ofNat n => .num (.posInt n)
  | .negSucc n => .num (.negInt n)

def Json.ofOption : Option String → Json
  | some s => .str s
  | none => .null

def beginFailure : StoreError → Outcome
  | .recoveryRequired d => .failed ("an earlier operation's outcome is unknown; recover the resource first (" ++
      (StoreError.recoveryRequired d).text ++ ")")
  | .migrationRequired d current wanted => .failed (StoreError.migrationRequired d current wanted).text
  | .detached d => .failed (StoreError.detached d).text
  | other => .failed ("the operation was not recorded: " ++ other.text)

namespace NodeRun
variable (n : NodeRun) (p : Planner W)

def start : OperationStart :=
  { org := n.context.org, app := n.context.app, env := n.context.env, deploymentId := n.context.deploymentId
    descriptor := n.descriptor, definitionId := some n.definitionId, definitionVersion := some n.definitionVersion
    driverType := some n.driverType, kind := .put, inputFingerprint := n.fingerprint
    recovery := .obj [("definition_id", .str n.definitionId), ("definition_version", .ofInt n.definitionVersion),
      ("driver_type", .str n.driverType)] }

def job (started : OperationStarted) (inputs : JobInputs) (account : Option String) : ProvisionJob :=
  { operationId := started.operationId, descriptor := n.descriptor, guresid := started.guresid
    context := n.context, driverType := n.driverType, driverAccount := account, inputs
    inputFingerprint := n.fingerprint, cookie := none, target := none, pin := n.pin, existing := false
    outputSchema := n.outputSchema, deadline := n.deadline }

def accountName : Option String → String
  | some a => "cloud account `" ++ a ++ "`"
  | none => "no cloud account"

variable (job : ProvisionJob)

def addPriorState : Option Resource → Except ExecFailure ProvisionJob
  | none => .ok job
  | some r =>
    if r.lastDeployId.isSome && r.driverAccount ≠ job.driverAccount then
      .error (.permanent ("`" ++ n.descriptor.text ++ "` was provisioned in " ++ accountName r.driverAccount ++
        ", but its definition now uses " ++ accountName job.driverAccount ++
        "; migrate or replace the resource explicitly"))
    else .ok { job with existing := r.isProvisioned, cookie := r.cookie, target := r.target }

def withPriorState : PlanM W (Except ExecFailure ProvisionJob) := do
  let read (db : Db) : Result (Option Resource) := do
    db.checkOrg n.context.org
    return db.resource? n.context.app n.context.env n.descriptor.text
  match ← transact p fun _ db => (read db, db) with
  | .error e => return .error (.retryable ("the resource's driver state could not be read: " ++ e.text) none)
  | .ok r => return n.addPriorState job r

def recorded : Json :=
  .obj [("definition_id", .str n.definitionId), ("definition_version", .ofInt n.definitionVersion),
    ("definition", n.definition), ("driver_type", .str n.driverType),
    ("driver_account", .ofOption job.driverAccount), ("guresid", .str job.guresid.text),
    ("inputs", n.inputsJson job.inputs), ("dependencies", n.dependencies), ("existing", .bool job.existing)]

def provision (attempt : Nat) (job : ProvisionJob) : PlanM W (Except ExecFailure ProvisionResult) := do
  match ← n.withPriorState p job with
  | .error f => return .error f
  | .ok job =>
    match ← transact p fun _ => committed fun db => db.recordOperationInputs job.operationId (n.recorded job) with
    | .error e => return .error (.retryable ("the operation's inputs were not recorded: " ++ e.text) none)
    | .ok () =>
      execute p attempt n.deadline
        "the executor stopped unexpectedly while the resource was provisioning"
        "the deployment ran out of time while the resource was provisioning" (runProvision p.services job)

def provisionedResult (r : ProvisionResult) : Provisioned :=
  { outputs := .obj r.outputs, secretOutputs := r.secretOutputs, cookie := r.cookie, recovery := .null
    inputs := n.inputsJson job.inputs, dependencies := n.dependsOn
    snapshot := .obj [("deployment_id", .str n.context.deploymentId),
      ("definition_version", .ofInt n.definitionVersion), ("definition", n.definition)]
    account := job.driverAccount, target := r.target, backend := r.backend, externalIds := r.externalIds
    pin := r.pin }

def succeed (r : ProvisionResult) : PlanM W ResourceOutputs := do
  if ← checkpoint p job.operationId (.provisioned (n.provisionedResult job r)) then
    return { values := r.outputs, secrets := .ofList r.secretOutputs _, guresid := some job.guresid
             account := job.driverAccount }
  let error := "the resource provisioned, but its result could not be recorded"
  let _ ← checkpoint p job.operationId (.unknown error none)
  throw (.unknown error)

def fail (attempt : Nat) (id : String) : ExecFailure → PlanM W Unit
  | .permanent error => do
    let _ ← checkpoint p id (.failed error)
    throw (.failed error)
  | .uncertain error cookie => do
    let _ ← checkpoint p id (.unknown error cookie)
    throw (.unknown error)
  | .retryable error retryAfter => do
    let _ ← checkpoint p id (.failed error)
    waitForRetry p attempt n.deadline error retryAfter

def attempt (attempt : Nat) : PlanM W (Option ResourceOutputs) := do
  acquireSlot p n.deadline
  match ← beginOperation p n.start with
  | .error e => throw (beginFailure e)
  | .ok started =>
    match n.resolve started with
    | .error error =>
      let _ ← checkpoint p started.operationId (.failed error)
      throw (.failed error)
    | .ok (inputs, account) =>
      let job := n.job started inputs account
      match ← n.provision p attempt job with
      | .ok r => return some (← n.succeed p job r)
      | .error f =>
        n.fail p attempt job.operationId f
        return none

theorem fail_spec (a : Nat) (id : String) (f : ExecFailure) : Triple (fun _ : PlannerRun W => True)
    (n.fail p a id f) (fun _ _ => a < p.limits.attempts) (fun _ _ => True) := by
  cases f with
  | permanent error => exact .bind (.const trivial) fun _ => .throw fun _ _ => trivial
  | uncertain error cookie => exact .bind (.const trivial) fun _ => .throw fun _ _ => trivial
  | retryable error retryAfter => exact .bind (.const trivial) fun _ => waitForRetry_spec p a _ _ _

theorem attempt_limited (a : Nat) : Limited p a (n.attempt p a) := by
  refine .bind (.const trivial) fun _ => .bind (.const trivial) fun r => ?_
  cases r with
  | error e => exact .throw fun _ _ => trivial
  | ok started =>
    dsimp only
    cases n.resolve started with
    | error e => exact .bind (.const trivial) fun _ => .throw fun _ _ => trivial
    | ok ia =>
      refine .bind (.const trivial) fun r => ?_
      cases r with
      | ok r => exact .bind (.const trivial) fun _ => .pure fun _ _ h => nomatch h
      | error f => exact .bind (n.fail_spec p a _ f) fun _ => .pure fun _ h _ => h

def run : PlanM W ResourceOutputs := fun s =>
  (attemptsLoop p (n.attempt p) fun a => (n.attempt_limited p a).lt).run (0, s)

end NodeRun

/-- What a resource recorded when it last provisioned, which deleting it uses. -/
structure Recorded where
  driverType : String
  definitionId : String
  inputs : JobInputs
  driverAccount : Option String

def JobInputs.absent : JobInputs :=
  { values := .null, secrets := .value .null, secretRefs := .value .null, resource := .value .null, sources := [] }

def noInputs : Json → Bool
  | .null => true
  | .obj fields => fields.isEmpty
  | _ => false

def Recorded.of (decode : Json → Except String JobInputs) (r : Resource) : Except String Recorded := do
  let driverType ← match r.driverType with
    | some d => pure d
    | none => throw "the resource has no recorded driver"
  let definitionId := r.definitionId.getD ""
  if !isValidObjectId definitionId then throw "the resource has no valid recorded definition"
  let inputs ← if noInputs r.inputs then pure .absent
    else (decode r.inputs).mapError fun e => "the resource's recorded inputs are unreadable: " ++ e
  if r.driverAccount.any (!isValidObjectId ·) then throw "the resource's recorded cloud account is invalid"
  return { driverType, definitionId, inputs, driverAccount := r.driverAccount }

structure DeleteRun where
  context : JobContext
  resource : Resource
  descriptor : Descriptor
  decodeInputs : Json → Except String JobInputs
  deadline : Nat

def deletionFailure : StoreError → Outcome
  | .recoveryRequired d => .failed ("an earlier operation's outcome is unknown; recover the resource first (" ++
      (StoreError.recoveryRequired d).text ++ ")")
  | other => .failed ("the deletion was not recorded: " ++ other.text)

namespace DeleteRun
variable (n : DeleteRun) (p : Planner W)

def fingerprint : String := "delete"

def start (r : Recorded) : OperationStart :=
  { org := n.context.org, app := n.context.app, env := n.context.env, deploymentId := n.context.deploymentId
    descriptor := n.descriptor, definitionId := n.resource.definitionId
    definitionVersion := n.resource.definitionVersion, driverType := some r.driverType, kind := .delete
    inputFingerprint := fingerprint
    recovery := .obj [("definition_id", .ofOption n.resource.definitionId),
      ("definition_version", (n.resource.definitionVersion.map Json.ofInt).getD .null),
      ("driver_type", .str r.driverType), ("driver_account", .ofOption n.resource.driverAccount),
      ("inputs", n.resource.inputs), ("cleanup_only", .bool n.resource.cleanupPending)] }

def job (r : Recorded) (started : OperationStarted) : ProvisionJob :=
  { operationId := started.operationId, descriptor := n.descriptor, guresid := started.guresid, context := n.context
    driverType := r.driverType, driverAccount := r.driverAccount, inputs := r.inputs
    inputFingerprint := fingerprint, cookie := n.resource.cookie, target := n.resource.target, pin := none
    existing := true, outputSchema := none, deadline := n.deadline }

def permitRequest : PermitRequest :=
  { org := n.context.org, app := n.context.app, env := n.context.env, descriptor := n.resource.descriptor
    guresid := some n.resource.guresid, deployment := some n.context.deploymentId, action := .delete
    permits := n.context.permits, plan := none, planned := [] }

def checkPermit : PlanM W Unit := fun s =>
  let (answer, t, world) := (p.services.check n.permitRequest s.world).within (n.deadline - s.now)
  let s := { s with world, now := s.now + t }
  match answer with
  | some (.ok ()) => .ok () s
  | some (.error e) => .error (.failed ("approval_required: " ++ e)) s
  | none => .error (.pending "the deployment ran out of time") s

/-- Removes the record, with up to `tries` more tries after a growing pause. -/
def removeRecord (id : String) (tried : Nat) : Nat → PlanM W Bool
  | 0 => return false
  | tries + 1 => do
    modify fun s => { s with now := s.now + 50 * 1000000 * tried }
    if ← checkpoint p id .deleted then return true
    removeRecord id (tried + 1) tries

def recordDeletion (id : String) : PlanM W Unit := do
  if ← removeRecord p id 0 3 then return ()
  let error := "the resource was deleted, but its record could not be removed"
  if ← checkpoint p id (.cleanupPending error) then throw (.cleanupPending error)
  let _ ← checkpoint p id (.unknown error none)
  throw (.unknown error)

def fail (attempt : Nat) (id : String) : ExecFailure → PlanM W Unit
  | .permanent error => do
    let _ ← checkpoint p id (.failed error)
    throw (.failed error)
  | .uncertain error cookie => do
    let _ ← checkpoint p id (.unknown error cookie)
    throw (.unknown error)
  | .retryable error retryAfter => do
    if !(← checkpoint p id (.failed error)) then
      throw (.failed (error ++ " (the failure could not be recorded, so it is not retried)"))
    waitForRetry p attempt n.deadline error retryAfter

def delete (attempt : Nat) (job : ProvisionJob) : PlanM W (Except ExecFailure Unit) :=
  if n.resource.cleanupPending then return .ok ()
  else execute p attempt n.deadline
    "the executor stopped unexpectedly while the resource was being deleted"
    "the deployment ran out of time while the resource was being deleted" (runDeprovision p.services job)

def checkFirst (attempt : Nat) : PlanM W Unit :=
  if attempt = 1 && !n.resource.cleanupPending then n.checkPermit p else return ()

def attempt (r : Recorded) (attempt : Nat) : PlanM W (Option Unit) := do
  acquireSlot p n.deadline
  -- after the slot, so that a permit that waited until the deadline is still unused
  n.checkFirst p attempt
  match ← beginOperation p (n.start r) with
  | .error e => throw (deletionFailure e)
  | .ok started =>
    let job := n.job r started
    match ← n.delete p attempt job with
    | .ok () => return some (← recordDeletion p job.operationId)
    | .error f =>
      n.fail p attempt job.operationId f
      return none

theorem fail_spec (a : Nat) (id : String) (f : ExecFailure) : Triple (fun _ : PlannerRun W => True)
    (n.fail p a id f) (fun _ _ => a < p.limits.attempts) (fun _ _ => True) := by
  cases f with
  | permanent error => exact .bind (.const trivial) fun _ => .throw fun _ _ => trivial
  | uncertain error cookie => exact .bind (.const trivial) fun _ => .throw fun _ _ => trivial
  | retryable error retryAfter =>
    refine .bind (.const trivial) fun recorded => ?_
    cases recorded with
    | false => exact fun _ _ => trivial
    | true => exact waitForRetry_spec p a _ _ _

theorem attempt_limited (r : Recorded) (a : Nat) : Limited p a (n.attempt p r a) := by
  refine .bind (.const trivial) fun _ => .bind (.const trivial) fun _ => .bind (.const trivial) fun started => ?_
  cases started with
  | error e => exact .throw fun _ _ => trivial
  | ok started =>
    refine .bind (.const trivial) fun result => ?_
    cases result with
    | ok _ => exact .bind (.const trivial) fun _ => .pure fun _ _ h => nomatch h
    | error f => exact .bind (n.fail_spec p a _ f) fun _ => .pure fun _ h _ => h

def attempts : PlanM W Unit :=
  match Recorded.of n.decodeInputs n.resource with
  | .error e => throw (.failed e)
  | .ok r => fun s => (attemptsLoop p (n.attempt p r) fun a => (n.attempt_limited p r a).lt).run (0, s)

end DeleteRun
end Openporch
