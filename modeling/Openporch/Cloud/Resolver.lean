import Openporch.Json
import Openporch.Maps
import Openporch.Text
import Openporch.Lib.Transition

/-!
# Cloud credentials

The role sessions of `crates/engine/src/cloud/mod.rs`. Any number of calls resolve accounts at once, each in the atomic
steps the code takes. Times are in nanoseconds.
-/

namespace Openporch.Cloud

def second : Nat := 10 ^ 9

def expiryMargin : Nat := 60 * second

def defaultSession : Nat := 3600 * second

structure AwsCredentials where
  accessKeyId : String
  secretAccessKey : String
  sessionToken : Option String
  region : Option String
  expiresAt : Option Nat
deriving DecidableEq

def AwsCredentials.validFor (c : AwsCredentials) (now window : Nat) : Bool :=
  c.expiresAt.all fun at' => now + window + expiryMargin ≤ at'

inductive CloudError where
  | invalid (message : String)
  | rejected (message : String)
  | unavailable (message : String)
  | expiring (message : String)
  | throttled (message : String) (retryAfter : Option Nat)
deriving DecidableEq

structure AssumeRole where
  roleArn : String
  externalId : String
  sessionName : String
  duration : Nat
  region : Option String
deriving DecidableEq

/-- An `aws-role` account; accounts of the other types have no sessions. -/
structure CloudAccount where
  id : AccountId
  config : JsonMap

namespace CloudAccount
variable (account : CloudAccount)

def configText (key : String) : Option String :=
  (account.config.get key).bind fun v =>
    match v with
    | .str s => if (trim s.toList).isEmpty then none else some s
    | _ => none

def configStr (key : String) : Except CloudError String :=
  match account.configText key with
  | some s => .ok s
  | none => .error (.invalid ("cloud account `" ++ account.id.text ++ "` has no `config." ++ key ++ "`"))

def region : Option String := account.configText "region"

def sessionDuration : Except CloudError Nat :=
  match account.config.get "session_duration" with
  | none => .ok defaultSession
  | some (.num (.posInt secs)) => .ok (secs * second)
  | some _ => .error (.invalid ("cloud account `" ++ account.id.text ++ "` has a non-numeric `config.session_duration`"))

def roleRequest : Except CloudError AssumeRole := do
  let duration ← account.sessionDuration
  let roleArn ← account.configStr "role_arn"
  let externalId ← account.configStr "external_id"
  return {
    roleArn, externalId, duration
    sessionName := String.ofList (("openporch-" ++ account.id.text).toList.take 64)
    region := account.region }

end CloudAccount

/-- How an option of a text is printed for debugging (`{:?}`). -/
structure Debug where
  text : Option String → String

def fingerprint (debug : Debug) (r : AssumeRole) : String :=
  r.roleArn ++ "\n" ++ r.externalId ++ "\n" ++ toString (r.duration / second) ++ "\n" ++ debug.text r.region

/-- The call that obtained a session: what it had read, and when it read it and kept the session. -/
structure Source where
  account : CloudAccount
  request : AssumeRole
  readAt : Nat
  keptAt : Nat

structure Session where
  fingerprint : String
  credentials : AwsCredentials
  /-- Not kept by the code. -/
  source : Source

abbrev Sessions := BTreeMap String Session

def Sessions.lookUp (sessions : Sessions) (key fingerprint : String) (now window : Nat) : Option Session :=
  (show BTreeMap String Session from sessions)[key]?.filter fun s =>
    s.fingerprint = fingerprint && s.credentials.validFor now window

def Sessions.prune (sessions : Sessions) (now : Nat) : Sessions :=
  sessions.filter fun _ s => s.credentials.expiresAt.any fun at' => now < at'

/-- What `role_session` checks first. -/
def checkedRequest (account : CloudAccount) (window : Nat) : Except CloudError AssumeRole :=
  account.roleRequest.bind fun request =>
    if window + expiryMargin > request.duration then
      .error (.expiring ("the operation needs credentials for " ++ toString ((window + expiryMargin) / second) ++
        "s, but sessions of cloud account `" ++ account.id.text ++ "` last " ++ toString (request.duration / second) ++
        "s; raise `config.session_duration`"))
    else .ok request

/-- What `role_session` makes of the credentials STS returned. -/
def checkedCredentials (account : CloudAccount) (request : AssumeRole) (window now : Nat) (c : AwsCredentials) :
    Except CloudError AwsCredentials :=
  let c := { c with region := request.region }
  match c.expiresAt with
  | none => .error (.unavailable "STS returned role credentials without an expiry")
  | some expiresAt =>
    if c.validFor now window then .ok c
    else .error (.expiring ("the role session for cloud account `" ++ account.id.text ++ "` expires at " ++
      toString (expiresAt / second) ++ " seconds after the epoch, before the operation's " ++ toString (window / second) ++
      "s window ends"))

/-- What a call has when it enters `role_session`. -/
structure Reading where
  /-- The generation it took before it read the account. -/
  generation : UInt64
  account : CloudAccount
  window : Nat
  readAt : Nat

structure Hit where
  reading : Reading
  request : AssumeRole
  session : Session
  now : Nat
  foundAt : Nat

inductive Call where
  | idle
  | took (generation : UInt64)
  | read (r : Reading)
  /-- No session fits: STS is asked. -/
  | asking (r : Reading) (request : AssumeRole)
  | obtained (r : Reading) (request : AssumeRole) (c : AwsCredentials)
  | pruned (r : Reading) (request : AssumeRole) (c : AwsCredentials)
  | failed (e : CloudError)
  /-- Credentials returned, from the cache when it was hit. -/
  | returned (c : AwsCredentials) (hit : Option Hit)

/-- A call of `forget`: when it counted, and when it returned. -/
structure Forget where
  account : String
  countedAt : Nat
  returnedAt : Option Nat

structure World where
  sessions : Sessions := ∅
  /-- How many `forget` calls have counted. -/
  forgotten : UInt64 := 0
  calls : Nat → Call := fun _ => .idle
  /-- The `forget` calls, newest first. One that has not returned holds the lock. -/
  forgets : List Forget := []
  time : Nat := 0

inductive Event where
  /-- Call `k` takes the generation. -/
  | take (k : Nat)
  /-- It reads the account from the store, whatever it holds then. -/
  | read (k : Nat) (account : CloudAccount) (window : Nat)
  | lookUp (k now : Nat)
  | answer (k : Nat) (result : Except CloudError AwsCredentials) (now : Nat)
  | pruneIn (k now : Nat)
  | keep (k : Nat)
  | dropCall (k : Nat)
  | prune (now : Nat)
  /-- `forget` has the lock and counts. -/
  | forget (account : String)
  | forgotten

namespace World
variable (debug : Debug) (w : World)

/-- No `forget` holds the lock. -/
def unlocked : Bool := w.forgets.all (·.returnedAt.isSome)

def set (k : Nat) (c : Call) : World := { w with calls := fun j => if j = k then c else w.calls j }

/-- The first part of `role_session`, up to where it asks STS. -/
def start (r : Reading) (now : Nat) : Call :=
  match checkedRequest r.account r.window with
  | .error e => .failed e
  | .ok request =>
    match w.sessions.lookUp r.account.id.text (fingerprint debug request) now r.window with
    | some session => .returned session.credentials (some { reading := r, request, session, now, foundAt := w.time })
    | none => .asking r request

def answered (r : Reading) (request : AssumeRole) (now : Nat) (result : Except CloudError AwsCredentials) : Call :=
  match result.bind (checkedCredentials r.account request r.window now) with
  | .error e => .failed e
  | .ok c => .obtained r request c

/-- The last part of `role_session`, under the lock: a session is kept unless something was forgotten since the account
was read. -/
def kept (r : Reading) (request : AssumeRole) (c : AwsCredentials) : Sessions :=
  if w.forgotten = r.generation then
    w.sessions.insert r.account.id.text
      { fingerprint := fingerprint debug request, credentials := c
        source := { account := r.account, request, readAt := r.readAt, keptAt := w.time } }
  else w.sessions

def act : Event → World
  | .take k =>
    match w.calls k with
    | .idle => w.set k (.took w.forgotten)
    | _ => w
  | .read k account window =>
    match w.calls k with
    | .took generation => w.set k (.read { generation, account, window, readAt := w.time })
    | _ => w
  | .lookUp k now =>
    match w.calls k with
    | .read r => if w.unlocked then w.set k (w.start debug r now) else w
    | _ => w
  | .answer k result now =>
    match w.calls k with
    | .asking r request => w.set k (answered r request now result)
    | _ => w
  | .pruneIn k now =>
    match w.calls k with
    | .obtained r request c =>
      if w.unlocked then { w.set k (.pruned r request c) with sessions := w.sessions.prune now } else w
    | _ => w
  | .keep k =>
    match w.calls k with
    | .pruned r request c =>
      if w.unlocked then { w.set k (.returned c none) with sessions := w.kept debug r request c } else w
    | _ => w
  | .dropCall k =>
    match w.calls k with
    | .asking _ _ => w.set k .idle
    | _ => w
  | .prune now => if w.unlocked then { w with sessions := w.sessions.prune now } else w
  | .forget account =>
    if w.unlocked then
      { w with
        forgotten := w.forgotten + 1
        forgets := { account, countedAt := w.time, returnedAt := none } :: w.forgets }
    else w
  | .forgotten =>
    match w.forgets with
    | { account, countedAt, returnedAt := none } :: earlier =>
      { w with
        sessions := w.sessions.erase account
        forgets := { account, countedAt, returnedAt := some w.time } :: earlier }
    | _ => w

def step (e : Event) : World := { w.act debug e with time := w.time + 1 }

end World

def after (debug : Debug) (events : List Event) : World := Transition.after (World.step debug) {} events

end Openporch.Cloud
