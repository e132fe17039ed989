import Openporch.Executor
import Openporch.Lib.Fallible
import Openporch.Lib.Table

/-!
# The store's tables

The rows of one organisation's database: `check_org` refuses every other organisation, so the
organisation column is kept once. Columns no transaction reads (times of change, names, comments' texts)
are left out; a cookie's key, nonce and ciphertext are one sealed text.
-/

namespace Openporch

inductive ResourceStatus where
  | pending
  | provisioning
  | provisioned
  | failed
  | unknown
  | recoveryRequired
  | deleting
  | deletionFailed
deriving DecidableEq, Repr

namespace ResourceStatus

def text : ResourceStatus → String
  | pending => "pending"
  | provisioning => "provisioning"
  | provisioned => "provisioned"
  | failed => "failed"
  | unknown => "unknown"
  | recoveryRequired => "recovery_required"
  | deleting => "deleting"
  | deletionFailed => "deletion_failed"

def parse? (s : String) : Option ResourceStatus :=
  [pending, provisioning, provisioned, failed, unknown, recoveryRequired, deleting, deletionFailed].find?
    (·.text = s)

@[simp]
theorem parse?_text (s : ResourceStatus) : parse? s.text = some s := by
  cases s <;> decide

def isRunning (s : ResourceStatus) : Bool := s = provisioning || s = deleting

def isBlocked (s : ResourceStatus) : Bool := s = unknown || s = recoveryRequired

end ResourceStatus

inductive OperationState where
  | started
  | succeeded
  | failed
  | unknown
deriving DecidableEq, Repr

def OperationState.text : OperationState → String
  | started => "started"
  | succeeded => "succeeded"
  | failed => "failed"
  | unknown => "unknown"

inductive OperationKind where
  | put
  | delete
deriving DecidableEq, Repr

def OperationKind.text : OperationKind → String
  | put => "put"
  | delete => "delete"

inductive DeploymentStatus where
  | inProgress
  | succeeded
  | failed
deriving DecidableEq, Repr

def DeploymentStatus.text : DeploymentStatus → String
  | inProgress => "in_progress"
  | succeeded => "succeeded"
  | failed => "failed"

inductive DeploymentKind where
  | deploy
  | deleteEnv
deriving DecidableEq, Repr

inductive EnvState where
  | active
  | deleting
  | deletionFailed
deriving DecidableEq, Repr

def EnvState.text : EnvState → String
  | active => "active"
  | deleting => "deleting"
  | deletionFailed => "deletion_failed"

inductive AppState where
  | active
  | deleting
deriving DecidableEq, Repr

inductive Ownership where
  | owned
  | adopted
  | external
deriving DecidableEq, Repr

/-- How one resource fared in a deployment. -/
inductive RunStatus where
  | pending
  | provisioning
  | provisioned
  | deleted
  | failed
  | skipped
  | unknown
deriving DecidableEq, Repr

inductive TombstoneReason where
  | deleted
  | detached
  | released
deriving DecidableEq, Repr

def DestructiveAction.text : DestructiveAction → String
  | delete => "delete"
  | detach => "detach"
  | replace => "replace"
  | unknown => "unknown"

structure EnvType where
  id : String
  isProtected : Bool
deriving DecidableEq

structure App where
  id : String
  state : AppState
deriving DecidableEq

structure Env where
  app : String
  id : String
  envType : String
  generation : Nat
  desiredSetId : Option String
  lastSuccessfulSetId : Option String
  lastSuccessfulDeployId : Option String
  state : EnvState
deriving DecidableEq

structure Delta where
  app : String
  env : Option String
  id : String
  content : Json
  frozenAt : Option Nat
deriving DecidableEq

structure PlanRow where
  app : String
  env : String
  id : String
  baseGeneration : Nat
  expiresAt : Nat
deriving DecidableEq

structure Permit where
  id : String
  app : String
  env : String
  plan : String
  descriptor : String
  guresid : Option String
  action : DestructiveAction
  planFingerprint : Option String
  baseGeneration : Nat
  configDigest : String
  issuer : String
  expiresAt : Nat
  boundTo : Option String
  usedAt : Option Nat
deriving DecidableEq

structure Deployment where
  app : String
  env : String
  id : String
  seq : Nat
  kind : DeploymentKind
  actor : String
  setId : Option String
  deltaId : Option String
  generation : Nat
  status : DeploymentStatus
  idempotencyKey : Option String
  requestFingerprint : Option String
  snapshot : Json
  error : Option String
deriving DecidableEq

structure DeploymentResource where
  app : String
  env : String
  deploymentId : String
  descriptor : String
  guresid : String
  status : RunStatus
  attempts : Nat
  outputs : Option Json
  error : Option String
deriving DecidableEq

structure Resource where
  app : String
  env : String
  descriptor : String
  guresid : String
  definitionId : Option String
  definitionVersion : Option Int
  driverType : Option String
  driverAccount : Option String
  status : ResourceStatus
  inputs : Json
  outputs : Json
  secretOutputs : List (String × SecretRef)
  cookie : Option Sealed
  target : Option String
  backend : Option String
  recovery : Json
  snapshot : Json
  externalIds : List String
  dependencies : List String
  ownership : Ownership
  lastDeployId : Option String
  scheduledDeletion : Bool
  cleanupPending : Bool
deriving DecidableEq

structure OperationRow where
  id : String
  app : String
  env : String
  deploymentId : String
  guresid : String
  kind : OperationKind
  inputFingerprint : String
  state : OperationState
  attempt : Nat
  recovery : Json
  error : Option String
  startedAt : Nat
  definitionId : Option String
  definitionVersion : Option Int
  driverType : Option String
deriving DecidableEq

/-- `state IN ('started', 'unknown')` -/
def OperationRow.isOpen (o : OperationRow) : Bool := o.state = .started || o.state = .unknown

structure Tombstone where
  app : String
  env : String
  descriptor : String
  guresid : String
  reason : TombstoneReason
  /-- What a detached resource depended on, of the record's body. -/
  dependencies : List String := []
deriving DecidableEq

inductive OrgRole where
  | administrator
  | manager
  | member
  | orgViewer
deriving DecidableEq, Repr

/-- Ordered from weakest to strongest. -/
inductive AppRole where
  | viewer
  | developer
  | owner
deriving DecidableEq, Repr

structure Roles where
  org : Option OrgRole := none
  apps : List (String × AppRole) := []
  deployer : List String := []
deriving DecidableEq

structure Db where
  org : String
  principals : List (String × Roles)
  envTypes : List EnvType
  apps : List App
  envs : List Env
  sets : List (String × String)
  deltas : List Delta
  plans : List PlanRow
  permits : List Permit
  deployments : List Deployment
  runs : List DeploymentResource
  resources : List Resource
  operations : List OperationRow
  tombstones : List Tombstone
deriving DecidableEq

inductive StoreError where
  | notFound (what : String)
  | alreadyExists (what : String)
  | staleGeneration (expected actual : Nat)
  | busy (deployment : String)
  | detached (descriptor : String)
  | recoveryRequired (descriptors : String)
  | migrationRequired (descriptor current wanted : String)
  | permitInvalid (message : String)
  | approvalRequired (message : String)
  | idempotencyMismatch (key : String)
  | invalid (message : String)
  | conflict (message : String)
  | forbidden (message : String)
  | corrupt (message : String)
  | database (message : String)
deriving DecidableEq

def StoreError.text : StoreError → String
  | notFound what => what ++ " not found"
  | alreadyExists what => what ++ " already exists"
  | staleGeneration expected actual =>
    "environment generation is " ++ toString actual ++ ", not the expected " ++ toString expected
  | busy deployment => "deployment " ++ deployment ++ " is already running in this environment"
  | detached descriptor => "`" ++ descriptor ++ "` was detached from management; adopt the existing object " ++
      "explicitly instead of provisioning a new one"
  | recoveryRequired descriptors => "resources need recovery before new changes: " ++ descriptors
  | migrationRequired descriptor current wanted => "`" ++ descriptor ++ "` is managed by driver `" ++ current ++
      "`, but its definition now uses `" ++ wanted ++ "`; migrate or replace the resource explicitly"
  | permitInvalid message | approvalRequired message | invalid message | conflict message
  | forbidden message => message
  | idempotencyMismatch key => "idempotency key `" ++ key ++ "` was already used for a different request"
  | corrupt message => "corrupt record: " ++ message
  | database message => "database error: " ++ message

abbrev Result := Except StoreError

/-- `ok_or`: the row, or the error when there is none. -/
def orError {α : Type} (e : StoreError) : Option α → Result α
  | some a => .ok a
  | none => .error e

/-- Refuses with `e` when `c` holds. -/
def refuseIf (c : Bool) (e : StoreError) : Result Unit := if c then .error e else .ok ()

section
variable {α : Type} {a : α} {e : StoreError}

@[simp]
theorem orError_eq_ok {o : Option α} : orError e o = .ok a ↔ o = some a := by
  cases o <;> simp [orError]

@[simp]
theorem refuseIf_eq_ok {c : Bool} {u : Unit} : refuseIf c e = .ok u ↔ c = false := by
  cases c <;> simp [refuseIf]

end

namespace Db
variable (db : Db)

def checkOrg (org : String) : Result Unit := refuseIf (org ≠ db.org) (.notFound ("organization `" ++ org ++ "`"))

def operation? (id : String) : Option OperationRow := db.operations.find? (·.id = id)

def resource? (app env descriptor : String) : Option Resource :=
  db.resources.find? fun r => r.app = app && r.env = env && r.descriptor = descriptor

def resourceOf? (guresid : String) : Option Resource := db.resources.find? (·.guresid = guresid)

def deployment? (app env id : String) : Option Deployment :=
  db.deployments.find? fun d => d.app = app && d.env = env && d.id = id

def running? (app env : String) : Option Deployment :=
  db.deployments.find? fun d => d.app = app && d.env = env && d.status = .inProgress

def env? (app env : String) : Option Env := db.envs.find? fun e => e.app = app && e.id = env

def setOperation (id : String) (f : OperationRow → OperationRow) : Db :=
  { db with operations := Table.update (·.id = id) f db.operations }

def setResource (guresid : String) (f : Resource → Resource) : Db :=
  { db with resources := Table.update (·.guresid = guresid) f db.resources }

def setDeployment (app env id : String) (f : Deployment → Deployment) : Db :=
  { db with deployments := Table.update (fun d => d.app = app && d.env = env && d.id = id) f db.deployments }

def setEnv (app env : String) (f : Env → Env) : Db :=
  { db with envs := Table.update (fun e => e.app = app && e.id = env) f db.envs }

def setPermit (id : String) (f : Permit → Permit) : Db :=
  { db with permits := Table.update (·.id = id) f db.permits }

/-- `UPDATE deployment_resources … WHERE deployment_id = ? AND guresid = ?` -/
def setRunsOf (deployment guresid : String) (f : DeploymentResource → DeploymentResource) : Db :=
  { db with runs := Table.update (fun r => r.deploymentId = deployment && r.guresid = guresid) f db.runs }

end Db
end Openporch
