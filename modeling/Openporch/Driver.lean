import Openporch.Ids
import Openporch.Json
import Openporch.Lib.Loop

/-!
# The driver contract

The types of `crates/drivers/src/lib.rs`. A `Driver` acts on a world `W` of which nothing is assumed:
each call may take any time, answer anything and leave the world in any state.

Durations and instants are nanoseconds.
-/

namespace Openporch
open Loops

def secs (n : Nat) : Nat := n * 1000000000

/-- `Duration`'s `{:?}`: the largest unit that leaves a whole part, and only the decimals needed. -/
def debugDuration (d : Nat) : String :=
  if secs 1 ≤ d then decimal (d / secs 1) (d % secs 1) 9 ++ "s"
  else if 1000000 ≤ d then decimal (d / 1000000) (d % 1000000) 6 ++ "ms"
  else if 1000 ≤ d then decimal (d / 1000) (d % 1000) 3 ++ "µs"
  else toString d ++ "ns"
where
  decimal (whole frac width : Nat) : String :=
    let digits := (toString frac).toList
    let padded := List.replicate (width - digits.length) '0' ++ digits
    let kept := (padded.reverse.dropWhile (· = '0')).reverse
    if kept.isEmpty then toString whole else toString whole ++ "." ++ String.ofList kept

structure Cookie where
  version : Nat
  data : String
deriving DecidableEq, Repr

def maxCookieBytes : Nat := 10 * 1024

inductive DriverError where
  | invalid (code : Option String) (message : String)
  | conflict (message : String)
  | transient (message : String) (retryAfter : Option Nat)
  | timeout (after : Nat)
  | uncertain (reason : String)
  | unsupported (what : String)
  | withCookie (error : DriverError) (cookie : Cookie)
deriving DecidableEq, Repr

namespace DriverError

/-- `Display`. -/
def text : DriverError → String
  | invalid (some c) message => c ++ ": " ++ message
  | invalid none message => message
  | conflict m => "conflict: " ++ m
  | transient message _ => message
  | timeout d => "the driver did not finish within " ++ debugDuration d
  | uncertain m => "the outcome is unknown: " ++ m
  | unsupported m => "unsupported: " ++ m
  | withCookie error _ => error.text

/-- The error with `cookie` attached, when there is one; an attached cookie is replaced. -/
def attach : DriverError → Option Cookie → DriverError
  | withCookie error _, some cookie => withCookie error cookie
  | error, some cookie => withCookie error cookie
  | error, none => error

def split : DriverError → DriverError × Option Cookie
  | withCookie error cookie => (error.split.1, some cookie)
  | other => (other, none)

def unclear : DriverError → Bool
  | timeout _ | uncertain _ => true
  | _ => false

theorem split_bare (e : DriverError) : e.split.1.split = (e.split.1, none) := by
  induction e with
  | withCookie error cookie ih => exact ih
  | _ => rfl

theorem split_attach_fst (e : DriverError) (cookie : Option Cookie) :
    (e.attach cookie).split.1 = e.split.1 := by
  cases cookie with
  | none => cases e <;> rfl
  | some c => cases e <;> rfl

theorem split_attach_snd (e : DriverError) (cookie : Option Cookie) :
    (e.attach cookie).split.2 = cookie.or e.split.2 := by
  cases cookie with
  | none => cases e <;> rfl
  | some c => cases e <;> rfl

end DriverError

/-- `Cookie::check`: refuses a cookie larger than `maxCookieBytes`. -/
def Cookie.check (c : Cookie) : Except DriverError Unit :=
  if maxCookieBytes < c.data.utf8ByteSize then
    .error (.invalid none ("the driver returned a " ++ toString c.data.utf8ByteSize
      ++ " byte cookie; the limit is " ++ toString maxCookieBytes))
  else .ok ()

structure Operation where
  id : String
  fingerprint : String
deriving DecidableEq, Repr

structure DriverContext where
  org : String
  app : String
  env : String
  envType : String
  resId : String
  resClass : String
deriving DecidableEq, Repr

structure DriverRequest where
  guresid : Guresid
  operation : Operation
  resourceType : String
  /-- The resolved inputs with no secret inside. -/
  resource : JsonMap
  /-- The resolved inputs with a secret anywhere inside, whole. -/
  resourceSecrets : JsonMap
  resourceSecretPaths : List (List String)
  values : JsonMap
  secrets : JsonMap
  credentials : Option JsonMap
  context : DriverContext
  cookie : Option Cookie
  /-- The plan fingerprint a permit authorizes. -/
  permit : Option String
  pin : Option Json
deriving DecidableEq

structure Footprint where
  backend : Option String := none
  externalIds : List String := []
  pin : Option Json := none
deriving DecidableEq

structure DriverOutputs where
  values : JsonMap := []
  secrets : JsonMap := []
  footprint : Footprint := {}
deriving DecidableEq

inductive PutOutcome where
  | ready (outputs : DriverOutputs) (cookie : Option Cookie)
  | inProgress (pollAfter : Nat) (cookie : Option Cookie)
deriving DecidableEq

inductive Observation where
  | absent (cookie : Option Cookie)
  | inProgress (pollAfter : Nat) (cookie : Option Cookie)
  | ready (outputs : DriverOutputs) (cookie : Option Cookie)
  | failed (error : DriverError)
  | unknown (reason : String) (cookie : Option Cookie)
deriving DecidableEq

inductive DeleteOutcome where
  | deleted
  | inProgress (pollAfter : Nat) (cookie : Option Cookie)
deriving DecidableEq

inductive Action where
  | create
  | update
  | replace
  | delete
deriving DecidableEq, Repr

inductive Plan where
  | unknown
  | noEffects
  | actions (actions : List (Action × String)) (fingerprint : String)
deriving DecidableEq

def Observation.cookie : Observation → Option Cookie
  | absent c | inProgress _ c | ready _ c | unknown _ c => c
  | failed error => error.split.2

structure Capabilities where
  observe : Bool := false
  /-- A retried operation identity converges instead of duplicating effects. -/
  recover : Bool := false
  preview : Bool := false
  cancel : Bool := false
deriving DecidableEq, Repr

structure DriverInfo where
  id : String
  protocolVersion : String
  cookieVersion : Nat
  capabilities : Capabilities
deriving DecidableEq, Repr

structure Driver (W : Type) where
  info : DriverInfo
  put : DriverRequest → W → Call W (Except DriverError PutOutcome)
  get : DriverRequest → W → Call W (Except DriverError Observation)
  delete : DriverRequest → W → Call W (Except DriverError DeleteOutcome)
  cancel : DriverRequest → W → Call W (Except DriverError Observation)
  plan : DriverRequest → W → Call W (Except DriverError Plan)
  planDelete : DriverRequest → W → Call W (Except DriverError Plan)

end Openporch
