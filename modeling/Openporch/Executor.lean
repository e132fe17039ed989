import Openporch.Catalog
import Openporch.DriverTrace
import Openporch.Resolved

/-!
# The executor

`run_provision` and `run_deprovision` of `crates/engine/src/executor.rs`. What the executor asks of the
rest of the system is `Services`, which may answer anything and take any time.
-/

namespace Openporch
open Loops

variable {W α : Type}

structure JobContext where
  org : String
  app : String
  env : String
  envType : String
  deploymentId : String
  permits : List String

inductive SecretSource where
  | values
  | output (guresid : Guresid)
deriving DecidableEq

structure JobInputs where
  values : Json
  secrets : Resolved
  secretRefs : Resolved
  resource : Resolved
  sources : List (SecretRef × SecretSource)

structure Sealed where
  text : String
deriving DecidableEq

structure ProvisionJob where
  operationId : String
  descriptor : Descriptor
  guresid : Guresid
  context : JobContext
  driverType : String
  driverAccount : Option String
  inputs : JobInputs
  inputFingerprint : String
  cookie : Option Sealed
  target : Option String
  pin : Option Json
  existing : Bool
  outputSchema : Option ResourceType
  deadline : Nat

inductive ExecFailure where
  /-- Nothing changed, and retrying cannot help. -/
  | permanent (error : String)
  /-- Nothing changed; retry later. -/
  | retryable (error : String) (retryAfter : Option Nat)
  /-- Infrastructure may have changed; recovery must observe it first. -/
  | uncertain (error : String) (cookie : Option Sealed)
deriving DecidableEq

structure ProvisionResult where
  outputs : JsonMap
  secretOutputs : List (String × SecretRef) := []
  cookie : Option Sealed := none
  target : Option String
  backend : Option String
  externalIds : List String
  pin : Option Json

inductive DestructiveAction where
  | delete
  | detach
  | replace
  | unknown
deriving DecidableEq

structure PermitRequest where
  org : String
  app : String
  env : String
  descriptor : String
  guresid : Option String
  deployment : Option String
  action : DestructiveAction
  permits : List String
  plan : Option String
  planned : List (String × String)

/-- What the executor calls: each answers after some time and may change the world. -/
structure Services (W : Type) where
  driver : ProvisionJob → Except ExecFailure (Driver W)
  readSecrets : ProvisionJob → List (SecretRef × SecretSource) → Bool → W →
    Except ExecFailure (SecretRef → Option String) × Nat × W
  credentials : ProvisionJob → Nat → W → Except ExecFailure (Option (JsonMap × String)) × Nat × W
  check : PermitRequest → W → Call W (Except String Unit)
  write : String → String → W → Except String SecretRef × Nat × W
  openCookie : ProvisionJob → Except ExecFailure (Option Cookie)
  sealCookie : ProvisionJob → Cookie → Sealed

/-- The executor's side of a job: the world and the clock, and, newest first, the driver calls, the
previews and the permit checks made with their answers. -/
structure Exec (W : Type) where
  world : W
  now : Nat
  calls : List DriverCall
  previews : List (DriverRequest × Option (Except DriverError Plan))
  checks : List (PermitRequest × Option (Except String Unit))

def Exec.start (world : W) (now : Nat) : Exec W := { world, now, calls := [], previews := [], checks := [] }

abbrev ExecM (W : Type) := EStateM ExecFailure (Exec W)

def ExecM.ofExcept : Except ExecFailure α → ExecM W α
  | .ok a => pure a
  | .error f => throw f

def ExecM.serve (f : W → α × Nat × W) : ExecM W α := fun s =>
  let (a, t, world) := f s.world
  .ok a { s with world, now := s.now + t }

def driverFailure : DriverError → ExecFailure
  | e@(.invalid _ _) | e@(.unsupported _) | e@(.conflict _) => .permanent e.text
  | .transient message retryAfter => .retryable message retryAfter
  | e@(.timeout _) | e@(.uncertain _) => .uncertain e.text none
  | .withCookie error _ => driverFailure error

/-- A failed `put` or `delete`; `accepted` is whether it left a new cookie. -/
def mutationFailure (e : DriverError) (accepted : Bool) : ExecFailure :=
  match driverFailure e with
  | .uncertain error cookie => .uncertain error cookie
  | .permanent error =>
    if accepted then .uncertain ("the driver accepted the change, then failed: " ++ error) none
    else .permanent error
  | .retryable error retryAfter =>
    if accepted then .uncertain ("the driver accepted the change, then failed: " ++ error) none
    else .retryable error retryAfter

def ExecFailure.isUncertain : ExecFailure → Bool
  | .uncertain _ _ => true
  | _ => false

def ExecFailure.withCookie (newer : Option Sealed) : ExecFailure → ExecFailure
  | .uncertain error cookie => .uncertain error (newer.or cookie)
  | f => f

def missingSecret (r : SecretRef) : ExecFailure := .permanent ("secret `" ++ r.reference ++ "` was not read")

def renderInput (read : SecretRef → Option String) (r : Resolved) : Except ExecFailure Json :=
  (r.render read).mapError missingSecret

def object (r : Resolved) (read : SecretRef → Option String) (what : String) : Except ExecFailure JsonMap := do
  match ← renderInput read r with
  | .obj map => .ok map
  | .null => .ok []
  | _ => .error (.permanent (what ++ " is not an object"))

def splitFields (read : SecretRef → Option String) (plain secret : JsonMap) :
    List (String × Resolved) → Except ExecFailure (JsonMap × JsonMap)
  | [] => .ok (plain, secret)
  | (k, f) :: rest => do
    let v ← renderInput read f
    if f.isTainted then splitFields read plain (secret.insert k v) rest
    else splitFields read (plain.insert k v) secret rest

def split (r : Resolved) (read : SecretRef → Option String) : Except ExecFailure (JsonMap × JsonMap) :=
  match r with
  | .value (.obj plain) => .ok (plain, [])
  | .value .null => .ok ([], [])
  | .object fields => splitFields read [] [] fields
  | _ => .error (.permanent "the resource inputs are not an object")

def inferredSources (job : ProvisionJob) : List (SecretRef × SecretSource) :=
  (job.inputs.secrets.references ++ job.inputs.resource.references).eraseDups.map fun r =>
    (r, match (r.reference.toList.splitAt 10) with
      | (pre, rest) =>
        if pre = "resources/".toList then
          match splitOnce '/' rest with
          | some (g, _) => if h : isGuresid (String.ofList g) then .output ⟨String.ofList g, h⟩ else .values
          | none => .values
        else .values)

structure DriverJob (W : Type) where
  driver : Driver W
  req : DriverRequest
  timeout : Nat
  target : Option String

variable (sv : Services W) (job : ProvisionJob)

def request (sources : List (SecretRef × SecretSource)) (checkCriteria : Bool) :
    ExecM W (DriverJob W) := do
  let driver ← ExecM.ofExcept (sv.driver job)
  let values ← ExecM.ofExcept <| match job.inputs.values with
    | .obj values => .ok values
    | .null => .ok []
    | other => .error (.permanent ("the driver inputs are not an object: " ++ other.text))
  let remaining := job.deadline - (← get).now
  let timeout ← ExecM.ofExcept ((callTimeout values (some remaining)).mapError driverFailure)
  let read ← ExecM.ofExcept (← ExecM.serve (sv.readSecrets job sources checkCriteria))
  let (resource, resourceSecrets) ← ExecM.ofExcept (split job.inputs.resource read)
  let secrets ← ExecM.ofExcept (object job.inputs.secrets read "`driver_inputs.secrets`")
  let refs ← ExecM.ofExcept (object job.inputs.secretRefs read "`driver_inputs.secret_refs`")
  let account ← ExecM.ofExcept (← ExecM.serve (sv.credentials job timeout))
  let cookie ← ExecM.ofExcept (sv.openCookie job)
  let context : DriverContext :=
    { org := job.context.org, app := job.context.app, env := job.context.env, envType := job.context.envType,
      resId := job.descriptor.id.text, resClass := job.descriptor.cls.text }
  let req : DriverRequest :=
    { guresid := job.guresid, operation := { id := job.operationId, fingerprint := job.inputFingerprint },
      resourceType := job.descriptor.ty.text, resource, resourceSecrets,
      resourceSecretPaths := job.inputs.resource.secretPaths [], values, secrets := secrets.extend refs,
      credentials := account.map (·.1), context, cookie, permit := none, pin := job.pin }
  return { driver, req, timeout, target := account.map (·.2) }

def planFailure : DriverError → ExecFailure
  | e@(.invalid _ _) | e@(.unsupported _) => driverFailure e
  | other => .retryable ("planning failed: " ++ other.text) none

/-- The driver's preview of the call, or `unknown` when it cannot preview. -/
def plan (d : Driver W) (req : DriverRequest) (timeout : Nat) (delete : Bool) : ExecM W Plan := fun s =>
  if !d.info.capabilities.preview then .ok .unknown s
  else
    let (answer, t, world) := (if delete then d.planDelete req s.world else d.plan req s.world).within timeout
    let s := { s with world, now := s.now + t, previews := (req, answer) :: s.previews }
    match answer with
    | some (.ok plan) => .ok plan s
    | some (.error e) => .error (planFailure e) s
    | none => .error (planFailure (.timeout timeout)) s

def actionName : Action → String
  | .create => "create"
  | .update => "update"
  | .replace => "replace"
  | .delete => "delete"

def permitRequest (action : DestructiveAction)
    (plan : Option (String × List (Action × String))) : PermitRequest :=
  { org := job.context.org, app := job.context.app, env := job.context.env,
    descriptor := job.descriptor.text, guresid := some job.guresid.text,
    deployment := some job.context.deploymentId, action, permits := job.context.permits,
    plan := plan.map (·.1), planned := ((plan.map (·.2)).getD []).map fun (a, address) => (actionName a, address) }

def permit (action : DestructiveAction) (plan : Option (String × List (Action × String))) :
    ExecM W Unit := fun s =>
  let req := permitRequest job action plan
  let (answer, t, world) := (sv.check req s.world).within (job.deadline - s.now)
  let s := { s with world, now := s.now + t, checks := (req, answer) :: s.checks }
  match answer with
  | some (.ok ()) => .ok () s
  | some (.error e) => .error (.permanent ("approval_required: " ++ e)) s
  | none => .error (.permanent "the deployment ran out of time before its permits were checked") s

variable (req : DriverRequest)

def refresh (window : Nat) : ExecM W (DriverRequest × Option String) := do
  match ← ExecM.ofExcept (← ExecM.serve (sv.credentials job window)) with
  | none => return (req, none)
  | some (credentials, target) => return ({ req with credentials := some credentials }, some target)

def ExecM.settle (f : W → Nat → Settled W α) : ExecM W (Settled W α) := fun s =>
  let settled := f s.world s.now
  .ok settled { s with world := settled.run.world, now := settled.run.now, calls := settled.run.calls ++ s.calls }

def newerCookie (cookie : Option Cookie) : Option Sealed :=
  (cookie.filter fun c => some c ≠ req.cookie).map (sv.sealCookie job)

def secretText : Json → String
  | .str s => s
  | other => other.text

def checkOutputs (schema : Option ResourceType) (outputs : DriverOutputs) : Except OutputError Unit :=
  match schema with
  | none => .ok ()
  | some ty => do
    ty.validateOutputs outputs.values outputs.secrets.keys
    outputs.secrets.forM fun (name, value) => ty.validateSecretOutput name value

def writeSecrets (job : ProvisionJob) : JsonMap → ExecM W (List (String × SecretRef))
  | [] => return []
  | (key, value) :: rest => do
    let name := "resources/" ++ job.guresid.text ++ "/outputs/" ++ key
    match ← ExecM.serve (sv.write name (secretText value)) with
    | .error e => throw (.uncertain ("the resource provisioned, but its secret output `" ++ key
        ++ "` could not be stored: " ++ e) none)
    | .ok reference => return (key, reference) :: (← writeSecrets job rest)

def provisioned (outputs : DriverOutputs) (cookie : Option Cookie) (target : Option String) :
    ExecM W ProvisionResult := do
  ExecM.ofExcept ((checkOutputs job.outputSchema outputs).mapError fun e =>
    .permanent ("the driver's outputs are invalid: " ++ e.text))
  let secretOutputs ← writeSecrets sv job outputs.secrets
  let { backend, externalIds, pin } := outputs.footprint
  let cookie := cookie.map (sv.sealCookie job)
  return { outputs := outputs.values, secretOutputs, cookie, target, backend, externalIds, pin }

def keepFailure (changed : Bool) : ExecFailure → ExecFailure
  | .permanent error =>
    if changed then .uncertain ("the driver made the change, but " ++ error) none else .permanent error
  | .retryable error retryAfter =>
    if changed then .uncertain ("the driver made the change, but " ++ error) none else .retryable error retryAfter
  | f => f

def ExecM.mapError (f : ExecFailure → ExecFailure) (x : ExecM W α) : ExecM W α := fun s =>
  match x s with
  | .ok a s => .ok a s
  | .error e s => .error (f e) s

def destructive (actions : List (Action × String)) : Option DestructiveAction :=
  if actions.any (·.1 = .replace) then some .replace
  else if actions.any (·.1 = .delete) then some .delete
  else none

def authorizePlan : Plan → ExecM W DriverRequest
  | .noEffects => return req
  | .actions actions fingerprint =>
    match destructive actions with
    | some action => do
      permit sv job action (some (fingerprint, actions))
      return { req with permit := some fingerprint }
    | none => return req
  | .unknown =>
    if job.existing then do
      permit sv job .unknown none
      return req
    else return req

def finishProvision (target : Option String) (plan : Plan)
    (settled : Settled W DriverOutputs) : ExecM W ProvisionResult := do
  let newer := newerCookie sv job req settled.cookie
  match settled.result with
  | .error e => throw ((mutationFailure e newer.isSome).withCookie newer)
  | .ok outputs =>
    let changed := plan ≠ .noEffects || newer.isSome
    (provisioned sv job outputs settled.cookie target).mapError
      fun f => (keepFailure changed f).withCookie newer

structure Prepared (W : Type) where
  driver : Driver W
  req : DriverRequest
  timeout : Nat
  target : Option String
  plan : Plan

def prepareProvision : ExecM W (Prepared W) := do
  let { driver, req, timeout, target } ← request sv job job.inputs.sources true
  let plan ← plan driver req timeout false
  let req ← authorizePlan sv job req plan
  let timeout := min timeout (job.deadline - (← get).now)
  let (req, refreshed) ← refresh sv job req timeout
  return { driver, req, timeout, target := refreshed.or target, plan }

def runProvision : ExecM W ProvisionResult := do
  let { driver, req, timeout, target, plan } ← prepareProvision sv job
  let settled ← ExecM.settle (converge driver req timeout)
  finishProvision sv job req target plan settled

def authorizeDeletion : Plan → ExecM W DriverRequest
  | .actions actions fingerprint => do
    permit sv job .delete (some (fingerprint, actions))
    return { req with permit := some fingerprint }
  | .noEffects | .unknown => return req

def finishDeprovision (settled : Settled W Unit) : ExecM W Unit :=
  let newer := newerCookie sv job req settled.cookie
  match settled.result with
  | .error e => throw ((mutationFailure e newer.isSome).withCookie newer)
  | .ok () => return ()

def prepareDeprovision : ExecM W (Prepared W) := do
  let sources := if job.inputs.sources.isEmpty then inferredSources job else job.inputs.sources
  let { driver, req, timeout, target } ← request sv job sources false
  let plan ← plan driver req timeout true
  let req ← authorizeDeletion sv job req plan
  let timeout := min timeout (job.deadline - (← get).now)
  let (req, _) ← refresh sv job req timeout
  return { driver, req, timeout, target, plan }

def runDeprovision : ExecM W Unit := do
  let { driver, req, timeout, .. } ← prepareDeprovision sv job
  let settled ← ExecM.settle (remove driver req timeout)
  finishDeprovision sv job req settled

end Openporch
