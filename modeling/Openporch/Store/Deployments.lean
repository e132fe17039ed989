import Openporch.Store.Permits

/-!
# Accepting and finishing deployments

`accept_in_tx`, `accept_app_deletion`, `finish_in_tx` and what they remove. Each function is the body of one
transaction: an error leaves the database as it was.
-/

namespace Openporch
open Table

structure DeploymentRequest where
  org : String
  app : String
  env : String
  actor : String
  expectedGeneration : Nat
  idempotencyKey : Option String
  fingerprint : String
  kind : DeploymentKind
  setId : Option String
  deltaId : Option String
  deltaContent : Option Json
  snapshot : Json
  /-- The actor of the request's audit intent. -/
  auditActor : Option String
  permits : PermitBinding

inductive Acceptance where
  | created (d : Deployment)
  | replayed (d : Deployment)

def Acceptance.deployment : Acceptance → Deployment
  | created d | replayed d => d

namespace Db
variable (db : Db)

def checkCreateAppAuthority (actor : Option String) : Result Unit :=
  match actor with
  | none => .ok ()
  | some actor =>
    refuseIf ((db.rolesIn actor).org ≠ some .administrator && (db.rolesIn actor).org ≠ some .manager)
      (.forbidden ("`" ++ actor ++ "` is not an administrator or manager"))

def ensureEnvType (id : String) : Db :=
  if db.envTypes.any (·.id = id) then db else { db with envTypes := db.envTypes ++ [{ id, isProtected := false }] }

def insertEnv (app id envType : String) (taken : StoreError) : Result Db := do
  refuseIf (db.env? app id).isSome taken
  let row : Env :=
    { app, id, envType, generation := 0, desiredSetId := none, lastSuccessfulSetId := none
      lastSuccessfulDeployId := none, state := .active }
  return { db with envs := db.envs ++ [row] }

/-- The application, its `development` environment and its owner's role. -/
def createApp (org id owner : String) (actor : Option String) : Result Db := do
  db.checkOrg org
  db.checkCreateAppAuthority actor
  refuseIf (db.apps.any (·.id = id)) (.alreadyExists ("application `" ++ id ++ "`"))
  let row : App := { id, state := .active }
  let db := { db with apps := db.apps ++ [row] }.ensureEnvType "development"
  let db ← db.insertEnv id "development" "development" (.database "UNIQUE constraint failed: envs.id")
  refuseIf (!db.principals.any (·.1 = owner)) (.database "FOREIGN KEY constraint failed")
  let owns (p : String × Roles) : String × Roles := (p.1, { p.2 with apps := p.2.apps ++ [(id, .owner)] })
  return { db with principals := update (·.1 = owner) owns db.principals }

def createEnv (org app id envType : String) (actor : Option String) : Result Db := do
  db.checkOrg org
  refuseIf (!db.envTypes.any (·.id = envType)) (.notFound ("environment type `" ++ envType ++ "`"))
  let row ← orError (.notFound ("application `" ++ app ++ "`")) (db.apps.find? (·.id = app))
  refuseIf (row.state ≠ .active) (.conflict ("application `" ++ app ++ "` is being deleted"))
  db.checkEnvAuthority actor app envType
  db.insertEnv app id envType (.alreadyExists ("environment `" ++ app ++ "/" ++ id ++ "`"))

variable (req : DeploymentRequest)

def prior? : Option Deployment :=
  req.idempotencyKey.bind fun key => db.deployments.find? fun d =>
    d.app = req.app && d.env = req.env && d.actor = req.actor && d.idempotencyKey = some key

def checkKind (app : App) (env : Env) : Result Unit :=
  let what := "environment `" ++ req.app ++ "/" ++ req.env ++ "` is "
  match req.kind with
  | .deploy =>
    if app.state ≠ .active then .error (.conflict ("application `" ++ req.app ++ "` is being deleted"))
    else refuseIf (env.state ≠ .active) (.conflict (what ++ env.state.text))
  | .deleteEnv =>
    if env.state = .deleting then .error (.conflict (what ++ "already being deleted"))
    else refuseIf (req.env = "development" && app.state = .active)
      (.conflict "the `development` environment exists as long as its application")

def checkSet : Result Unit :=
  match req.kind, req.setId with
  | .deploy, none => .error (.conflict "a deployment needs a set")
  | .deleteEnv, some _ => .error (.conflict "an environment deletion deploys no set")
  | .deploy, some set => refuseIf (!db.sets.contains (req.app, set)) (.notFound ("set `" ++ set ++ "`"))
  | .deleteEnv, none => .ok ()

def delta? (app id : String) : Option Delta := db.deltas.find? fun d => d.app = app && d.id = id

def freezeDelta (now : Nat) (req : DeploymentRequest) : Result Db :=
  match req.deltaId with
  | none => .ok db
  | some id => do
    let delta ← orError (.notFound ("delta `" ++ id ++ "`")) (db.delta? req.app id)
    refuseIf (req.deltaContent.any (· ≠ delta.content))
      (.conflict ("delta `" ++ id ++ "` changed while the deployment was being prepared"))
    let frozen := update (fun d => d.app = req.app && d.id = id)
      (fun d => { d with frozenAt := d.frozenAt.or (some now) }) db.deltas
    return { db with deltas := frozen }

def uncertain (app env : String) : List String :=
  ((db.resources.filter fun r => r.app = app && r.env = env && r.status.isBlocked).map (·.descriptor)).insertionSort
    (· ≤ ·)

def nextSeq (app env : String) : Nat :=
  ((db.deployments.filter fun d => d.app = app && d.env = env).map (·.seq)).foldl max 0 + 1

def newDeployment (id : String) (req : DeploymentRequest) (generation : Nat) : Deployment :=
  { app := req.app, env := req.env, id, seq := db.nextSeq req.app req.env, kind := req.kind, actor := req.actor
    setId := req.setId, deltaId := req.deltaId, generation, status := .inProgress
    idempotencyKey := req.idempotencyKey, requestFingerprint := some req.fingerprint, snapshot := req.snapshot
    error := none }

def acceptEnv (generation : Nat) (e : Env) : Env :=
  { e with
    generation
    desiredSetId := req.setId.or e.desiredSetId
    state := if req.kind = .deleteEnv then .deleting else e.state }

def checkAcceptance : Result Env := do
  let env ← orError (.notFound ("environment `" ++ req.app ++ "/" ++ req.env ++ "`")) (db.env? req.app req.env)
  db.checkEnvAuthority req.auditActor req.app env.envType
  let app ← orError (.database "no rows returned") (db.apps.find? (·.id = req.app))
  checkKind req app env
  refuseIf (env.generation ≠ req.expectedGeneration) (.staleGeneration req.expectedGeneration env.generation)
  match db.running? req.app req.env with
  | some d => throw (.busy d.id)
  | none =>
    let uncertain := db.uncertain req.app req.env
    refuseIf (!uncertain.isEmpty) (.recoveryRequired (", ".intercalate uncertain))
    db.checkSet req
    return env

def acceptNew (now : Nat) (id : String) (req : DeploymentRequest) : Result (Acceptance × Db) := do
  let env ← db.checkAcceptance req
  let db ← db.freezeDelta now req
  let db ← db.bindPermits now req.app req.env env.generation id req.permits
  refuseIf (db.deployment? req.app req.env id).isSome (.database "UNIQUE constraint failed: deployments.id")
  let d := db.newDeployment id req (env.generation + 1)
  let db := { db with deployments := db.deployments ++ [d] }
  return (.created d, db.setEnv req.app req.env (acceptEnv req (env.generation + 1)))

def acceptInTx (now : Nat) (id : String) (req : DeploymentRequest) : Result (Acceptance × Db) :=
  match db.prior? req with
  | some d =>
    if d.requestFingerprint ≠ some req.fingerprint then
      .error (.idempotencyMismatch (req.idempotencyKey.getD ""))
    else .ok (.replayed d, db)
  | none => db.acceptNew now id req

def acceptDeployment (now : Nat) (id : String) (req : DeploymentRequest) : Result (Acceptance × Db) := do
  db.checkOrg req.org
  db.acceptInTx now id req

def removeApp (app : String) : Db :=
  { db with
    deltas := delete (·.app = app) db.deltas
    sets := delete (·.1 = app) db.sets
    principals := db.principals.map fun p => (p.1, { p.2 with apps := delete (·.1 = app) p.2.apps })
    apps := delete (·.id = app) db.apps }

def removeEnv (app env : String) : Db :=
  { db with
    tombstones := db.tombstones ++ (db.resources.filter fun r => r.app = app && r.env = env).map fun r =>
      { app, env, descriptor := r.descriptor, guresid := r.guresid, reason := .released }
    permits := delete (fun p => p.app = app && p.env = env) db.permits
    plans := delete (fun p => p.app = app && p.env = env) db.plans
    resources := delete (fun r => r.app = app && r.env = env) db.resources
    operations := delete (fun o => o.app = app && o.env = env) db.operations
    runs := delete (fun r => r.app = app && r.env = env) db.runs
    deployments := delete (fun d => d.app = app && d.env = env) db.deployments
    deltas := delete (fun d => d.app = app && d.env = some env) db.deltas
    envs := delete (fun e => e.app = app && e.id = env) db.envs }

def toDelete (app env : String) : List String :=
  ((db.resources.filter fun r => r.app = app && r.env = env &&
    (r.ownership = .owned || (r.ownership = .adopted && r.scheduledDeletion))).map (·.descriptor)).insertionSort (· ≤ ·)

def finishError (d : Deployment) (error : Option String) : Option String :=
  let left := (db.toDelete d.app d.env).take 5
  if d.kind = .deleteEnv && error.isNone && !left.isEmpty then
    some ("resources to delete remain: " ++ ", ".intercalate left ++ "; delete the environment again")
  else error

def finishRemoval (app env : String) : Result Db := do
  let db := db.removeEnv app env
  let row ← orError (.database "no rows returned") (db.apps.find? (·.id = app))
  return if row.state = .deleting && (db.envs.filter (·.app = app)).isEmpty then db.removeApp app else db

def finishInTx (app env id : String) (error : Option String) : Result Db := do
  let d ← orError (.notFound ("deployment `" ++ id ++ "`")) (db.deployment? app env id)
  refuseIf (d.status ≠ .inProgress) (.conflict ("deployment `" ++ id ++ "` is already " ++ d.status.text))
  let error := db.finishError d error
  let db := db.setDeployment app env id fun d =>
    { d with status := if error.isSome then .failed else .succeeded, error }
  match d.kind, error with
  | .deploy, none => return db.setEnv app env fun e =>
      { e with lastSuccessfulSetId := d.setId, lastSuccessfulDeployId := some id }
  | .deploy, some _ => return db
  | .deleteEnv, some _ => return db.setEnv app env fun e => { e with state := .deletionFailed }
  | .deleteEnv, none => db.finishRemoval app env

def finishDeployment (org app env id : String) (error : Option String) : Result Db := do
  db.checkOrg org
  db.finishInTx app env id error

end Db

structure AppDeletionRequest where
  org : String
  app : String
  actor : String
  snapshot : Json
  auditActor : Option String
  permits : List (String × PermitBinding)

def AppDeletionRequest.ofEnv (req : AppDeletionRequest) (e : Env) (permits : PermitBinding) : DeploymentRequest :=
  { org := req.org, app := req.app, env := e.id, actor := req.actor, expectedGeneration := e.generation
    idempotencyKey := none, fingerprint := "", kind := .deleteEnv, setId := none, deltaId := none
    deltaContent := none, snapshot := req.snapshot, auditActor := req.auditActor, permits }

namespace Db
variable (db : Db)

def deleteEnv (now : Nat) (id : String) (req : AppDeletionRequest) (e : Env) : Result (Acceptance × Db) :=
  let what := "environment `" ++ req.app ++ "/" ++ e.id ++ "` "
  if e.state = .deleting then
    match db.deployments.find? fun d => d.app = req.app && d.env = e.id && d.status = .inProgress &&
        d.kind = .deleteEnv with
    | some d => .ok (.replayed d, db)
    | none => .error (.corrupt (what ++ "has no running deletion"))
  else do
    let permits ← orError (.conflict (what ++ "was added while the application's deletion was prepared; try again"))
      (req.permits.lookup e.id)
    db.acceptInTx now id (req.ofEnv e permits)

def deleteEnvs (now : Nat) (ids : Nat → String) (req : AppDeletionRequest) :
    Db → List (Env × Nat) → Result (List Acceptance × Db)
  | db, [] => .ok ([], db)
  | db, (e, i) :: rest => do
    let (a, db) ← db.deleteEnv now (ids i) req e
    let (acceptances, db) ← deleteEnvs now ids req db rest
    return (a :: acceptances, db)

def acceptAppDeletion (now : Nat) (ids : Nat → String) (req : AppDeletionRequest) :
    Result ((List Acceptance × Bool) × Db) := do
  db.checkOrg req.org
  refuseIf (!db.apps.any (·.id = req.app)) (.notFound ("application `" ++ req.app ++ "`"))
  db.checkAppAuthority req.auditActor req.app
  let envs := (db.envs.filter (·.app = req.app)).insertionSort fun a b =>
    if a.id = "development" then b.id = "development" else b.id = "development" ∨ a.id ≤ b.id
  envs.forM fun e => db.checkEnvAuthority req.auditActor req.app e.envType
  let db := { db with apps := update (·.id = req.app) (fun a => { a with state := .deleting }) db.apps }
  let (deletions, db) ← deleteEnvs now ids req db envs.zipIdx
  return ((deletions, envs.isEmpty), if envs.isEmpty then db.removeApp req.app else db)

end Db
end Openporch
