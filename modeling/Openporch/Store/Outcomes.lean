import Openporch.Store.Operations
import Mathlib.Data.String.Basic

/-!
# Outcomes of operations

How an operation's outcome is recorded (`checkpoint_operation`), established later (`resolve_operation`), or
closed by a restart (`recover_interrupted`) or a restore (`mark_restored`); and the two other ways a
resource's record changes, `detach_resource` and `schedule_deletion`.
-/

namespace Openporch

/-- `json_set(snapshot, '$.pins.<descriptor>', pin)`, making the object of pins when there is none. -/
def pinSnapshot (descriptor : String) (pin : Json) : Json → Json
  | .obj fields =>
    let pins := match JsonMap.get fields "pins" with
      | some (.obj pins) => pins
      | _ => []
    .obj (JsonMap.insert fields "pins" (.obj (JsonMap.insert pins descriptor pin)))
  | other => other

structure UncertainOperation where
  operationId : String
  deploymentId : String
  guresid : String
  app : String
  env : String
  descriptor : String
deriving DecidableEq

structure RecoveryReport where
  failedDeployments : List String
  uncertain : List UncertainOperation
deriving DecidableEq

namespace Db
variable (db : Db)

def operation (id : String) : Result OperationRow := orError (.notFound ("operation `" ++ id ++ "`")) (db.operation? id)

def recordOperationInputs (id : String) (recovery : Json) : Result Db := do
  let op ← db.operation id
  refuseIf (op.state ≠ .started) (.conflict ("operation `" ++ id ++ "` is no longer started"))
  return db.setOperation id fun o => { o with recovery }

variable (op : OperationRow)

def checkResult (result : CheckpointResult) : Result Unit :=
  let what := "operation `" ++ op.id ++ "` "
  let mismatch : Result Unit := .error (.conflict (what ++ "is a " ++ op.kind.text ++ "; the result does not match it"))
  match result, op.kind with
  | .provisioned _, .put => .ok ()
  | .deleted, .delete => .ok ()
  | .cleanupPending _, .delete => if op.state = .started then .ok () else mismatch
  | .provisioned _, .delete | .deleted, .put | .cleanupPending _, .put => mismatch
  -- an unknown outcome is resolved only by observing the resource
  | .failed _, _ | .unknown _ _, _ => refuseIf (op.state = .unknown) (.conflict (what ++
      "has an unknown outcome; it is resolved only by an observation of the resource"))

def CheckpointResult.state : CheckpointResult → OperationState
  | .provisioned _ | .deleted => .succeeded
  | .failed _ | .cleanupPending _ => .failed
  | .unknown _ _ => .unknown

def CheckpointResult.error? : CheckpointResult → Option String
  | .provisioned _ | .deleted => none
  | .failed e => some e
  | .cleanupPending e => some ("cleanup pending: " ++ e)
  | .unknown e _ => some e

def CheckpointResult.runStatus : CheckpointResult → RunStatus
  | .provisioned _ => .provisioned
  | .deleted => .deleted
  | .failed _ | .cleanupPending _ => .failed
  | .unknown _ _ => .unknown

def CheckpointResult.outputs? : CheckpointResult → Option Json
  | .provisioned p => some p.outputs
  | _ => none

def provisionedColumns (p : Provisioned) (r : Resource) : Resource :=
  { r with
    status := .provisioned, outputs := p.outputs, secretOutputs := p.secretOutputs, cookie := p.cookie
    recovery := p.recovery, inputs := p.inputs, dependencies := p.dependencies, snapshot := p.snapshot
    driverAccount := p.account, target := p.target, backend := p.backend, externalIds := p.externalIds
    definitionId := op.definitionId.or r.definitionId
    definitionVersion := op.definitionVersion.or r.definitionVersion
    driverType := op.driverType.or r.driverType, lastDeployId := some op.deploymentId }

def keepPin (descriptor : String) : Option Json → Db
  | none => db
  | some pin => db.setDeployment op.app op.env op.deploymentId fun d =>
      { d with snapshot := pinSnapshot descriptor pin d.snapshot }

def bury (r : Resource) (reason : TombstoneReason) : Db :=
  { db with
    tombstones := db.tombstones ++ [{
      app := r.app, env := r.env, descriptor := r.descriptor, guresid := r.guresid, reason
      dependencies := if reason = .detached then r.dependencies else [] }]
    resources := Table.delete (·.guresid = r.guresid) db.resources }

def applyResult (r : Resource) : CheckpointResult → Db
  | .provisioned p => (db.setResource op.guresid (provisionedColumns op p)).keepPin op r.descriptor p.pin
  | .deleted => db.bury r .deleted
  | .failed _ => db.setResource op.guresid fun r => { r with status := op.kind.failedStatus }
  | .cleanupPending _ => db.setResource op.guresid fun r =>
      { r with cleanupPending := true, status := .deletionFailed }
  | .unknown _ cookie => db.setResource op.guresid fun r => { r with cookie := cookie.or r.cookie, status := .unknown }

def finishRun (descriptor : String) (result : CheckpointResult) : Db :=
  let isRow (r : DeploymentResource) := r.app = op.app && r.env = op.env && r.deploymentId = op.deploymentId &&
    r.descriptor = descriptor
  let row (r : DeploymentResource) := { r with
    status := CheckpointResult.runStatus result, error := CheckpointResult.error? result
    outputs := CheckpointResult.outputs? result }
  { db with runs := Table.update isRow row db.runs }

def checkpointInTx (id : String) (result : CheckpointResult) : Result Db := do
  let op ← db.operation id
  refuseIf (!op.isOpen) (.conflict ("operation `" ++ id ++ "` is already " ++ op.state.text))
  checkResult op result
  let r ← orError (.database "no rows returned") (db.resourceOf? op.guresid)
  let db := (db.applyResult op r result).setOperation id fun o =>
    { o with state := CheckpointResult.state result, error := CheckpointResult.error? result }
  return db.finishRun op r.descriptor result

def checkpointOperation (id : String) (result : CheckpointResult) : Result Db := db.checkpointInTx id result

def latest : List OperationRow → Option OperationRow
  | [] => none
  | o :: rest => match latest rest with
    | some o' => if o.startedAt < o'.startedAt then some o' else some o
    | none => some o

def unknownOperation (org app env descriptor : String) : Result (Option (OperationRow × Resource)) := do
  db.checkOrg org
  return (db.resource? app env descriptor).bind fun r =>
    (latest (db.operations.filter fun o => o.guresid = r.guresid && o.state = .unknown)).map fun o => (o, r)

def keepRecoveryCookie (id : String) (observedWith : Option Sealed) (cookie : Sealed) : Db :=
  match db.operations.find? fun o => o.id = id && o.state = .unknown with
  | none => db
  | some op => db.setResource op.guresid fun r =>
      if r.cookie = observedWith then { r with cookie := some cookie } else r

def repeatLater (deploymentId error : String) : Db :=
  ((db.setOperation op.id fun o => { o with state := .failed, error := some error }).setResource op.guresid
    fun r => { r with status := op.kind.failedStatus }).setRunsOf deploymentId op.guresid
    fun d => { d with status := .failed, error := some error }

def restored? : Result (Option String) :=
  if isRestored op.recovery then (restoredStatus op.recovery).map some else .ok none

def resolveAs (restored : Option String) (actor : Option String) : Resolution → Result Db
  | .observed result => db.checkpointInTx op.id result
  | .confirmed => do
    let text ← orError (.conflict ("operation `" ++ op.id ++ "` was not restored from a backup")) restored
    let status ← orError (.database "CHECK constraint failed: status") (ResourceStatus.parse? text)
    return (db.setOperation op.id fun o => { o with state := .succeeded, error := none }).setResource op.guresid
      fun r => { r with status }
  | .repeatable reason => .ok (db.repeatLater op (deploymentOf op restored) ("recovered: " ++ reason))
  | .operator reason => do
    let actor ← orError (.forbidden "only an administrator resolves an unknown outcome") actor
    db.checkAdminAuthority (some actor)
    return db.repeatLater op (deploymentOf op restored) ("resolved by `" ++ actor ++ "`: " ++ reason)
  | .recoveryRequired reason =>
    let error := "recovery required: " ++ reason
    .ok (((db.setOperation op.id fun o => { o with error := some error }).setResource op.guresid
      fun r => { r with status := .recoveryRequired }).setRunsOf (deploymentOf op restored) op.guresid
      fun d => { d with error := some error })
where
  /-- A restore's operation belongs to no deployment. -/
  deploymentOf (op : OperationRow) (restored : Option String) : String :=
    if restored.isSome then "" else op.deploymentId

def resolveOperation (id : String) (resolution : Resolution) (actor : Option String) : Result Db := do
  let op ← db.operation id
  let restored ← restored? op
  refuseIf (op.state ≠ .unknown)
    (.conflict ("operation `" ++ id ++ "` is " ++ op.state.text ++ "; its outcome is already known"))
  match db.running? op.app op.env with
  | some d => throw (.busy d.id)
  | none => db.resolveAs op restored actor resolution

def isCleanup (o : OperationRow) : Bool :=
  o.state = .started && o.kind = .delete && (db.resourceOf? o.guresid).any (·.cleanupPending)

def isUnstarted (o : OperationRow) : Bool := o.state = .started && o.kind = .put && !hasInputs o.recovery

def closeAll (state : OperationState) (status : ResourceStatus) (error : String) (ops : List OperationRow) : Db :=
  ops.foldl (fun db op => db.close op state status error) db

def interruptedError (running uncertain cleanups unstarted : Nat) : String :=
  let parts := ["interrupted by a server restart"] ++
    (if uncertain > 0 then [toString uncertain ++ " resource(s) may have changed and need recovery before the " ++
      "environment is deployed again"] else []) ++
    (if cleanups > 0 then [toString cleanups ++ " deleted resource(s) keep their records until the next " ++
      "deployment finishes the cleanup"] else []) ++
    (if unstarted > 0 then [toString unstarted ++ " resource(s) had not reached their driver and are retried by the " ++
      "next deployment"] else []) ++
    (if running = 0 then ["no operation was in flight, so deploy again to continue"] else [])
  "; ".intercalate parts

def finishAll (error : Deployment → String) : Db → List Deployment → Result Db
  | db, [] => .ok db
  | db, d :: rest => do
    let db ← db.finishInTx d.app d.env d.id (some (error d))
    finishAll error db rest

def recoverInterrupted : Result (RecoveryReport × Db) := do
  let running := db.deployments.filter (·.status = .inProgress)
  let cleanups := db.operations.filter db.isCleanup
  let db := db.closeAll .failed .deletionFailed "interrupted by a restart; cleanup pending" cleanups
  let unstarted := db.operations.filter isUnstarted
  let db := db.closeAll .failed .failed
    "interrupted by a restart before the driver was called; nothing changed" unstarted
  let uncertain := (db.operations.filter (·.state = .started)).insertionSort fun a b => a.startedAt ≤ b.startedAt
  let report := uncertain.filterMap fun o => (db.resourceOf? o.guresid).map fun r =>
    { operationId := o.id, deploymentId := o.deploymentId, guresid := o.guresid, app := r.app, env := r.env
      descriptor := r.descriptor }
  let db := db.closeAll .unknown .unknown "interrupted by a restart" uncertain
  let count (ops : List OperationRow) (d : Deployment) := (ops.filter (·.deploymentId = d.id)).length
  let error (d : Deployment) := interruptedError (count uncertain d + count cleanups d + count unstarted d)
    (count uncertain d) (count cleanups d) (count unstarted d)
  let db ← finishAll error db running
  return ({ failedDeployments := running.map (·.id), uncertain := report }, db)

def restoredError : String := "restored from a backup; observing the resource before it is changed"

def restoredRecovery (status : ResourceStatus) : Json → Json
  | .obj fields => .obj (JsonMap.insert (JsonMap.insert fields "restored" (.bool true)) "restored_status" (.str status.text))
  | other => other

def restoredOperation (now : Nat) (id : String) (r : Resource) (last : OperationRow) : OperationRow :=
  { id, app := r.app, env := r.env, deploymentId := last.deploymentId, guresid := r.guresid, kind := .put
    inputFingerprint := last.inputFingerprint, state := .unknown, attempt := last.attempt
    recovery := restoredRecovery r.status last.recovery, error := some restoredError, startedAt := now
    definitionId := none, definitionVersion := none, driverType := none }

def markRestoredOne (now : Nat) (id : String) (r : Resource) : Result (Option UncertainOperation × Db) :=
  let found (o : OperationRow) (id : String) : UncertainOperation :=
    { operationId := id, deploymentId := o.deploymentId, guresid := r.guresid, app := r.app, env := r.env
      descriptor := r.descriptor }
  match latest (db.operations.filter fun o => o.guresid = r.guresid && o.isOpen) with
  | some o => .ok (if isRestored o.recovery then some (found o o.id) else none, db)
  | none =>
    match latest (db.operations.filter fun o =>
        o.guresid = r.guresid && o.kind = .put && o.state = .succeeded && hasInputs o.recovery) with
    | none => .ok (none, db)
    | some last => do
      let db ← db.insertOperation (restoredOperation now id r last)
      return (some (found last id), db.setResource r.guresid fun r => { r with status := .unknown })

def isRestorable (r : Resource) : Bool := !r.cleanupPending && r.status ≠ .deletionFailed

def markEach (now : Nat) (ids : Nat → String) : Db → List (Resource × Nat) → Result (List UncertainOperation × Db)
  | db, [] => .ok ([], db)
  | db, (r, i) :: rest => do
    let (marked, db) ← db.markRestoredOne now (ids i) r
    let (others, db) ← markEach now ids db rest
    return (marked.toList ++ others, db)

def markRestored (now : Nat) (ids : Nat → String) : Result (List UncertainOperation × Db) :=
  let resources := (db.resources.filter isRestorable).insertionSort fun a b =>
    [a.app, a.env, a.descriptor] ≤ [b.app, b.env, b.descriptor]
  markEach now ids db resources.zipIdx

structure Detach where
  descriptor : String
  guresid : String
  permits : Option (List String)

def detachUse (org app env : String) (detach : Detach) (presented : List String) : PermitUse :=
  { org, app, env, deployment := none, presented, descriptor := detach.descriptor, guresid := some detach.guresid
    action := .detach, fingerprint := none }

def useDetachPermit (now : Nat) (org app env : String) (detach : Detach) : Result Db :=
  match detach.permits with
  | none => .ok db
  | some presented => (db.consumePermit now (detachUse org app env detach presented)).map (·.2)

def checkDetach (r : Resource) (detach : Detach) : Result Unit := do
  let what := "`" ++ detach.descriptor ++ "` "
  refuseIf (r.guresid ≠ detach.guresid) (.conflict (what ++ "was replaced by another resource; check it again"))
  refuseIf r.status.isBlocked (.recoveryRequired detach.descriptor)
  refuseIf r.lastDeployId.isNone (.conflict (what ++ "never provisioned; delete it or deploy it instead"))
  refuseIf r.cleanupPending (.conflict (what ++
    "was already deleted; the next deployment that leaves it out removes its record"))

def nextGeneration (e : Env) : Env := { e with generation := e.generation + 1 }

def detachResource (now : Nat) (org app env : String) (detach : Detach) (actor : Option String) : Result Db := do
  db.checkOrg org
  db.checkAdminAuthority actor
  match db.running? app env with
  | some d => throw (.busy d.id)
  | none =>
    let r ← orError (.notFound ("active resource `" ++ detach.descriptor ++ "`"))
      (db.resource? app env detach.descriptor)
    checkDetach r detach
    match db.operations.find? fun o => o.guresid = r.guresid && o.isOpen with
    | some op => throw (.conflict ("operation `" ++ op.id ++ "` on `" ++ detach.descriptor ++ "` has not finished"))
    | none =>
      let db ← db.useDetachPermit now org app env detach
      return (db.bury r .detached).setEnv app env nextGeneration

def scheduleDeletion (org app env descriptor : String) (actor : Option String) : Result Db := do
  db.checkOrg org
  let envType ← db.envType app env
  db.checkEnvAuthority actor app envType
  let r ← orError (.notFound ("active resource `" ++ descriptor ++ "`")) (db.resource? app env descriptor)
  refuseIf (r.ownership = .external) (.conflict ("`" ++ descriptor ++ "` is external; openporch never deletes it"))
  -- scheduling again changes nothing
  if r.scheduledDeletion then return db
  match db.running? app env with
  | some d => throw (.busy d.id)
  | none =>
    let isRow (r : Resource) := r.app = app && r.env = env && r.descriptor = descriptor
    let scheduled := Table.update isRow (fun r => { r with scheduledDeletion := true }) db.resources
    return { db with resources := scheduled }.setEnv app env nextGeneration

end Db
end Openporch
