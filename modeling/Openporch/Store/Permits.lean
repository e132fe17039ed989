import Openporch.Store.Rows
import Mathlib.Data.List.Sort

/-!
# Authority and destructive-action permits

Who may deploy and administer, and the life of a permit: issued from a plan, bound by the acceptance of one deployment
or by a detach, and used under the authority its issuer has at that moment.
-/

namespace Openporch

def AppRole.rank : AppRole → Nat
  | viewer => 0
  | developer => 1
  | owner => 2

namespace Db
variable (db : Db)

def rolesIn (principal : String) : Roles := (db.principals.lookup principal).getD {}

def isAdministrator (principal : String) : Bool := (db.rolesIn principal).org = some .administrator

def checkEnvAuthority (actor : Option String) (app envType : String) : Result Unit :=
  match actor with
  | none => .ok ()
  | some actor =>
    if db.isAdministrator actor then .ok ()
    else if !((db.rolesIn actor).apps.lookup app).any (fun role => AppRole.developer.rank ≤ role.rank) then
      .error (.forbidden ("`" ++ actor ++ "` is not `developer` or `owner` on `" ++ app ++ "`"))
    else if !(db.rolesIn actor).deployer.contains envType then
      .error (.forbidden ("requires the `deployer` role on environment type `" ++ envType ++ "`"))
    else .ok ()

def checkAdminAuthority (actor : Option String) : Result Unit :=
  match actor with
  | none => .ok ()
  | some actor =>
    refuseIf (!db.isAdministrator actor) (.forbidden ("`" ++ actor ++ "` is not an administrator"))

def checkAppAuthority (actor : Option String) (app : String) : Result Unit :=
  match actor with
  | none => .ok ()
  | some actor =>
    refuseIf (!(db.isAdministrator actor || (db.rolesIn actor).apps.lookup app = some .owner))
      (.forbidden ("`" ++ actor ++ "` is not `owner` on `" ++ app ++ "`"))

def isProtected (envType : String) : Bool :=
  (db.envTypes.find? (·.id = envType)).any (·.isProtected)

/-- In an environment of a protected type a destructive permit needs an administrator, and a change of
unknown impact gets none. -/
def checkProtection (envType : String) (action : DestructiveAction) (issuer : String) : Result Unit :=
  if !db.isProtected envType then .ok ()
  else if action = .unknown then
    .error (.forbidden ("environment type `" ++ envType ++ "` is protected: a change whose impact its driver " ++
      "cannot preview gets no permit; deploy it where its driver can plan it, or remove the protection"))
  else match db.checkAdminAuthority (some issuer) with
    | .error (.forbidden _) => .error (.forbidden ("environment type `" ++ envType ++ "` is protected: `" ++ issuer ++
        "` is not an administrator, which a " ++ action.text ++ " permit there needs"))
    | other => other

/-- Why `issuer` no longer holds the authority an `action` permit needs. -/
def issuerLost (app envType : String) (action : DestructiveAction) (issuer : String) : Result (Option String) :=
  let authority := if action = .detach then db.checkAdminAuthority (some issuer)
    else db.checkEnvAuthority (some issuer) app envType
  match authority.bind fun _ => db.checkProtection envType action issuer with
  | .ok () => .ok none
  | .error (.forbidden e) => .ok (some e)
  | .error e => .error e

def envType (app env : String) : Result String :=
  (orError (.notFound ("environment `" ++ app ++ "/" ++ env ++ "`")) (db.env? app env)).map (·.envType)

/-- `fetch_one` of the generation: a missing row is a database error. -/
def generationOf (app env : String) : Result Nat :=
  (orError (.database "no rows returned") (db.env? app env)).map (·.generation)

end Db

def permitTtlMs : Nat := 60 * 60 * 1000

/-- What `bound_to` holds for a permit a detach used. -/
def detachedMark : String := "detach"

def DestructiveAction.parse? (s : String) : Option DestructiveAction :=
  [.delete, .detach, .replace, .unknown].find? (·.text = s)

structure NewPermit where
  descriptor : String
  guresid : Option String
  action : String
  planFingerprint : Option String
  configDigest : String

structure PermitBinding where
  presented : List String
  digests : List (String × String)
  required : List (String × DestructiveAction)

structure PermitUse where
  org : String
  app : String
  env : String
  deployment : Option String
  presented : List String
  descriptor : String
  guresid : Option String
  action : DestructiveAction
  fingerprint : Option String

namespace Db
variable (db : Db) (now : Nat)

def putPlan (id : String) (org app env : String) (actor : Option String) (baseGeneration : Nat) : Result Db := do
  db.checkOrg org
  refuseIf actor.isNone (.forbidden "plans need an acting principal")
  refuseIf (db.plans.any (·.id = id)) (.database "UNIQUE constraint failed: plans.org_id, plans.id")
  return { db with plans := db.plans ++ [{ app, env, id, baseGeneration, expiresAt := now + permitTtlMs }] }

def newPermit (app env plan issuer : String) (baseGeneration : Nat) (id : String) (p : NewPermit) (action : DestructiveAction) :
    Permit :=
  { id, app, env, plan, descriptor := p.descriptor, guresid := p.guresid, action
    planFingerprint := p.planFingerprint, baseGeneration, configDigest := p.configDigest, issuer
    expiresAt := now + permitTtlMs, boundTo := none, usedAt := none }

def insertPermit (db : Db) (p : Permit) : Result Db := do
  refuseIf (db.permits.any (·.id = p.id)) (.database "UNIQUE constraint failed: permits.org_id, permits.id")
  return { db with permits := db.permits ++ [p] }

def parseAction (p : NewPermit) : Result (NewPermit × DestructiveAction) :=
  (orError (.invalid ("`" ++ p.action ++ "` is not a destructive action; use one of " ++
    "delete, detach, replace, unknown")) (DestructiveAction.parse? p.action)).map fun a => (p, a)

/-- Each new permit gets the identifier `prm-<hex>` of its place in `ids`. -/
def issuePermits (ids : Nat → String) (org app env plan : String) (permits : List NewPermit) (actor : Option String) :
    Result Db := do
  db.checkOrg org
  let issuer ← orError (.forbidden "permits need an acting principal") actor
  let row ← orError (.notFound ("plan `" ++ plan ++ "`"))
    (db.plans.find? fun p => p.app = app && p.env = env && p.id = plan)
  refuseIf (row.expiresAt ≤ now) (.permitInvalid ("plan `" ++ plan ++ "` has expired; preview again"))
  let generation ← db.generationOf app env
  refuseIf (row.baseGeneration ≠ generation) (.permitInvalid ("plan `" ++ plan ++ "` was made at generation " ++
    toString row.baseGeneration ++ ", but the environment is at " ++ toString generation ++ "; preview again"))
  let permits ← permits.mapM parseAction
  let envType ← db.envType app env
  db.checkEnvAuthority (some issuer) app envType
  if permits.any (·.2 = .detach) then db.checkAdminAuthority (some issuer)
  permits.forM fun p => db.checkProtection envType p.2 issuer
  permits.zipIdx.foldlM (fun db p =>
    db.insertPermit (newPermit now app env plan issuer row.baseGeneration ("prm-" ++ ids p.2) p.1.1 p.1.2)) db

/-- Why a candidate does not authorise the action, or `none` when it does. -/
def permitRefusal (u : PermitUse) (envType : String) (generation : Nat) (p : Permit) : Result (Option String) :=
  let named := "permit `" ++ p.id ++ "` "
  if p.guresid.isSome && p.guresid ≠ u.guresid then .ok (some (named ++ "is for another resource identity"))
  else if p.planFingerprint.isSome && p.planFingerprint ≠ u.fingerprint then
    .ok (some (named ++ "covers driver plan " ++ p.planFingerprint.getD "" ++ ", not this one"))
  -- a detach binds the permit itself, with the checks an acceptance makes
  else if u.deployment.isNone && p.boundTo.isSome then .ok (some (named ++ "was already used"))
  else if u.deployment.isNone && p.expiresAt ≤ now then .ok (some (named ++ "has expired"))
  else if u.deployment.isNone && p.baseGeneration ≠ generation then
    .ok (some (named ++ "was issued at generation " ++ toString p.baseGeneration ++
      ", but the environment is at " ++ toString generation))
  else (db.issuerLost u.app envType u.action p.issuer).map (·.map fun e => named ++ "no longer holds: " ++ e)

def firstPermit (u : PermitUse) (envType : String) (generation : Nat) : List Permit → Result (Except (List String) Permit)
  | [] => .ok (.error [])
  | p :: rest => do
    match ← db.permitRefusal now u envType generation p with
    | none => return .ok p
    | some e => return (← firstPermit u envType generation rest).mapError (e :: ·)

def permitCandidates (u : PermitUse) : List Permit :=
  let covers (p : Permit) := p.app = u.app && p.env = u.env && p.descriptor = u.descriptor && p.action = u.action
  match u.deployment with
  | some deployment =>
    (db.permits.filter fun p => p.boundTo = some deployment && covers p).insertionSort fun a b => a.id ≤ b.id
  | none => u.presented.filterMap fun id => db.permits.find? fun p => p.id = id && covers p

/-- `COALESCE` keeps the first use and the deployment the permit is bound to. -/
def markUsed (p : Permit) : Permit :=
  { p with usedAt := p.usedAt.or (some now), boundTo := p.boundTo.or (some detachedMark) }

def consumePermit (u : PermitUse) : Result (Permit × Db) := do
  refuseIf (u.deployment.isNone && u.action ≠ .detach)
    (.invalid ("a " ++ u.action.text ++ " permit is used only by the deployment it is bound to"))
  let envType ← db.envType u.app u.env
  let generation ← db.generationOf u.app u.env
  let what := u.action.text ++ " of `" ++ u.descriptor ++ "`"
  match ← db.firstPermit now u envType generation (db.permitCandidates u) with
  | .ok p => return (p, db.setPermit p.id (markUsed now))
  | .error [] => throw (.approvalRequired ("no permit covers the " ++ what))
  | .error refused => throw (.approvalRequired ("no permit covers the " ++ what ++ ": " ++ "; ".intercalate refused))

def usePermit (u : PermitUse) : Result Db := do
  db.checkOrg u.org
  refuseIf u.deployment.isNone (.invalid "a detach uses its permit inside the detach itself")
  return (← db.consumePermit now u).2

def bindable (app env envType : String) (generation : Nat) (digests : List (String × String)) (id : String) :
    Result Permit := do
  let named := "permit `" ++ id ++ "` "
  let p ← orError (.permitInvalid (named ++ "was not issued for `" ++ app ++ "/" ++ env ++ "`"))
    (db.permits.find? fun p => p.app = app && p.env = env && p.id = id)
  refuseIf p.boundTo.isSome (.permitInvalid (named ++ "was already bound to another deployment; preview again"))
  refuseIf (p.expiresAt ≤ now) (.permitInvalid (named ++ "has expired; preview again"))
  refuseIf (p.baseGeneration ≠ generation) (.permitInvalid (named ++ "was issued at generation " ++
    toString p.baseGeneration ++ ", but the environment is at " ++ toString generation ++ "; preview again"))
  refuseIf (p.action = .detach) (.permitInvalid (named ++ "is for a detach, which no deployment runs"))
  match ← db.issuerLost app envType p.action p.issuer with
  | some e => throw (.permitInvalid (named ++ "no longer holds: " ++ e))
  | none =>
    refuseIf (digests.lookup p.descriptor ≠ some p.configDigest) (.permitInvalid (named ++ "is for `" ++ p.descriptor ++
      "` as previewed, but its configuration has changed since or the deployment does not change it; preview again"))
    return p

def bindEach (app env envType : String) (generation : Nat) (deployment : String) (digests : List (String × String)) :
    Db → List String → Result (List (String × DestructiveAction) × Db)
  | db, [] => .ok ([], db)
  | db, id :: rest => do
    let p ← db.bindable now app env envType generation digests id
    let (covered, db) ← bindEach app env envType generation deployment digests
      (db.setPermit id fun p => { p with boundTo := some deployment }) rest
    return ((p.descriptor, p.action) :: covered, db)

def bindPermits (app env : String) (generation : Nat) (deployment : String) (binding : PermitBinding) : Result Db := do
  let presented := binding.presented.dedup.insertionSort (· ≤ ·)
  let envType ← if presented.isEmpty then pure "" else db.envType app env
  let (covered, db) ← bindEach now app env envType generation deployment binding.digests db presented
  let missing := binding.required.filter fun r => !covered.contains r
  refuseIf (!missing.isEmpty) (.approvalRequired ("the deployment needs permits for: " ++
    ", ".intercalate (missing.map fun r => r.2.text ++ " of `" ++ r.1 ++ "`") ++ "; preview it and request them"))
  return db

end Db
end Openporch
