import Openporch.Store.Deployments

/-!
# Operations

The transactions that open, close, recover and resolve driver operations. A transaction's error leaves the
database as it was, with one exception: `begin_operation` commits when it finds an operation abandoned with
an unknown outcome, and refuses then.
-/

namespace Openporch

structure OperationStart where
  org : String
  app : String
  env : String
  deploymentId : String
  descriptor : Descriptor
  definitionId : Option String
  definitionVersion : Option Int
  driverType : Option String
  kind : OperationKind
  inputFingerprint : String
  recovery : Json

structure OperationStarted where
  operationId : String
  guresid : Guresid
  attempt : Nat
deriving DecidableEq

structure Provisioned where
  outputs : Json
  secretOutputs : List (String × SecretRef)
  cookie : Option Sealed
  recovery : Json
  inputs : Json
  dependencies : List String
  snapshot : Json
  account : Option String
  target : Option String
  backend : Option String
  externalIds : List String
  pin : Option Json

inductive CheckpointResult where
  | provisioned (p : Provisioned)
  | deleted
  | failed (error : String)
  | cleanupPending (error : String)
  | unknown (error : String) (cookie : Option Sealed)

inductive Resolution where
  | observed (result : CheckpointResult)
  | repeatable (reason : String)
  | recoveryRequired (reason : String)
  | confirmed
  | operator (reason : String)

/-- `json_type(recovery, '$.inputs') IS NOT NULL` -/
def hasInputs (recovery : Json) : Bool := (recovery.field? "inputs").isSome

/-- `json_extract(recovery, '$.restored') = 1` -/
def isRestored (recovery : Json) : Bool :=
  match recovery.field? "restored" with
  | some (.bool b) => b
  | some (.num (.posInt n)) => n = 1
  | _ => false

/-- The status a restored operation's resource had: `provisioned` when none is recorded. -/
def restoredStatus (recovery : Json) : Result String :=
  match recovery.field? "restored_status" with
  | none | some .null => .ok "provisioned"
  | some (.str s) => .ok s
  | some _ => .error (.database "error occurred while decoding column 7")

def OperationKind.failedStatus : OperationKind → ResourceStatus
  | put => .failed
  | delete => .deletionFailed

def OperationKind.runningStatus : OperationKind → ResourceStatus
  | put => .provisioning
  | delete => .deleting

def Resource.isProvisioned (r : Resource) : Bool := r.lastDeployId.isSome || r.cookie.isSome || r.target.isSome

namespace Db
variable (db : Db)

/-- Closes `op`, the started operation on `r`, the way a restart would. -/
def abandon (r : Resource) (op : OperationRow) : OperationState × ResourceStatus × String :=
  if op.kind = .delete && r.cleanupPending then (.failed, .deletionFailed, "abandoned; cleanup pending")
  else if op.kind = .put && !hasInputs op.recovery then
    -- the inputs are recorded right before the driver runs
    (.failed, .failed, "abandoned before the driver was called")
  else (.unknown, .unknown, "abandoned without a recorded result")

def runStatusOf : OperationState → RunStatus
  | .unknown => .unknown
  | _ => .failed

def close (op : OperationRow) (state : OperationState) (status : ResourceStatus) (error : String) : Db :=
  ((db.setOperation op.id fun o => { o with state, error := some error }).setResource op.guresid
    fun r => { r with status }).setRunsOf op.deploymentId op.guresid
    fun d => { d with status := runStatusOf state, error := some error }

def startedOn? (guresid : String) : Option OperationRow :=
  db.operations.find? fun o => o.guresid = guresid && o.state = .started

/-- Closes an operation whose deployment finished without recording the result. The inner error is a
refusal that is committed. -/
def closeAbandoned (r : Resource) : Result (Result Unit × Db) :=
  match db.startedOn? r.guresid with
  | none => .ok (.ok (), db)
  | some op => do
    let d ← orError (.database "no rows returned") (db.deployments.find? (·.id = op.deploymentId))
    refuseIf (d.status = .inProgress)
      (.conflict ("operation `" ++ op.id ++ "` on `" ++ r.descriptor ++ "` has not finished"))
    let (state, status, error) := abandon r op
    let refusal := if state = .unknown then .error (.recoveryRequired r.descriptor) else .ok ()
    return (refusal, db.close op state status error)

variable (start : OperationStart)

def startColumns (r : Resource) : Resource :=
  { r with
    status := start.kind.runningStatus
    definitionId := if r.lastDeployId.isNone then start.definitionId.or r.definitionId else r.definitionId
    definitionVersion :=
      if r.lastDeployId.isNone then start.definitionVersion.or r.definitionVersion else r.definitionVersion
    driverType := if r.lastDeployId.isNone then start.driverType.or r.driverType else r.driverType
    cleanupPending := if start.kind = .put then false else r.cleanupPending }

def newResource (guresid : String) : Resource :=
  { app := start.app, env := start.env, descriptor := start.descriptor.text, guresid
    definitionId := start.definitionId, definitionVersion := start.definitionVersion, driverType := start.driverType
    driverAccount := none, status := .provisioning, inputs := .obj [], outputs := .obj [], secretOutputs := []
    cookie := none, target := none, backend := none, recovery := start.recovery, snapshot := .obj []
    externalIds := [], dependencies := [], ownership := .owned, lastDeployId := none, scheduledDeletion := false
    cleanupPending := false }

def isDetached (app env descriptor : String) : Bool :=
  ((db.tombstones.filter fun t => t.app = app && t.env = env && t.descriptor = descriptor).getLast?).any
    (·.reason = .detached)

def claimResource (newGuresid : Guresid) (start : OperationStart) : Result (Result Guresid × Db) :=
  let descriptor := start.descriptor.text
  match db.resource? start.app start.env descriptor with
  | some r =>
    if r.status.isBlocked then .error (.recoveryRequired descriptor)
    else if start.kind = .put && r.isProvisioned && r.driverType.isSome &&
        start.driverType.any (fun d => r.driverType ≠ some d) then
      .error (.migrationRequired descriptor (r.driverType.getD "") (start.driverType.getD ""))
    else do
      match ← db.closeAbandoned r with
      | (.error e, db) => return (.error e, db)
      | (.ok (), db) =>
        if h : isGuresid r.guresid then return (.ok ⟨r.guresid, h⟩, db.setResource r.guresid (startColumns start))
        else throw (.corrupt r.guresid)
  | none =>
    if start.kind = .delete then .error (.notFound ("active resource `" ++ descriptor ++ "`"))
    else if db.isDetached start.app start.env descriptor then .error (.detached descriptor)
    else if (db.resourceOf? newGuresid.text).isSome then
      .error (.database "UNIQUE constraint failed: active_resources.guresid")
    else .ok (.ok newGuresid, { db with resources := db.resources ++ [newResource start newGuresid.text] })

def newOperation (now : Nat) (id guresid : String) (start : OperationStart) (attempt : Nat) : OperationRow :=
  { id, app := start.app, env := start.env, deploymentId := start.deploymentId, guresid, kind := start.kind
    inputFingerprint := start.inputFingerprint, state := .started, attempt, recovery := start.recovery, error := none
    startedAt := now, definitionId := start.definitionId, definitionVersion := start.definitionVersion
    driverType := start.driverType }

def insertOperation (op : OperationRow) : Result Db := do
  refuseIf (db.operation? op.id).isSome (.database "UNIQUE constraint failed: operations.id")
  return { db with operations := db.operations ++ [op] }

def startRun (guresid : String) (attempt : Nat) : Db :=
  let isRow (r : DeploymentResource) := r.app = start.app && r.env = start.env &&
    r.deploymentId = start.deploymentId && r.descriptor = start.descriptor.text
  let row : DeploymentResource :=
    { app := start.app, env := start.env, deploymentId := start.deploymentId, descriptor := start.descriptor.text
      guresid, status := .provisioning, attempts := attempt, outputs := none, error := none }
  if db.runs.any isRow then
    let again (r : DeploymentResource) := { r with status := .provisioning, attempts := attempt, error := none }
    { db with runs := Table.update isRow again db.runs }
  else { db with runs := db.runs ++ [row] }

def checkInProgress : Result Unit :=
  match db.deployment? start.app start.env start.deploymentId with
  | none => .error (.notFound ("deployment `" ++ start.deploymentId ++ "`"))
  | some d => refuseIf (d.status ≠ .inProgress)
      (.conflict ("deployment `" ++ start.deploymentId ++ "` is " ++ d.status.text))

def recordStart (now : Nat) (id : String) (guresid : Guresid) (start : OperationStart) :
    Result (OperationStarted × Db) := do
  let attempts := db.operations.filter fun o => o.deploymentId = start.deploymentId && o.guresid = guresid.text
  let attempt := attempts.length + 1
  let db ← db.insertOperation (newOperation now id guresid.text start attempt)
  return (⟨id, guresid, attempt⟩, db.startRun start guresid.text attempt)

/-- The transaction of `begin_operation`; the inner error is a refusal that is committed. -/
def beginTx (now : Nat) (id : String) (newGuresid : Guresid) (start : OperationStart) :
    Result (Result OperationStarted × Db) := do
  db.checkOrg start.org
  db.checkInProgress start
  match ← db.claimResource newGuresid start with
  | (.error e, db) => return (.error e, db)
  | (.ok guresid, db) =>
    let (started, db) ← db.recordStart now id guresid start
    return (.ok started, db)

def beginOperation (now : Nat) (id : String) (newGuresid : Guresid) (start : OperationStart) :
    Result OperationStarted × Db :=
  match db.beginTx now id newGuresid start with
  | .ok r => r
  | .error e => (.error e, db)

end Db
end Openporch
