import Openporch.Executor
import Openporch.Lib.Step
import Openporch.Tofu.Plan

/-!
# The OpenTofu driver

`put`, `delete`, `plan`, `plan_delete` and `get` of `crates/drivers/src/opentofu/mod.rs`. The `tofu` binary and what the
driver does with files are a `Host`, which may answer anything: each run of `tofu plan` may save another plan.
-/

namespace Openporch.Tofu
open Loops ExceptT

variable {W α : Type}

def codeFailed : String := "TOFU-001"
def codePermit : String := "TOFU-002"
def codeInput : String := "TOFU-003"
def errorLines : Nat := 20
def maxErrorLogBytes : Nat := 64 * 1024

inductive Failure where
  /-- Bad inputs; nothing ran. -/
  | input (message : String)
  | command (what stderr : String)
  | locked (stderr : String)
  /-- A failure once an apply started. -/
  | uncertain (what stderr : String)
  /-- The plan needs a permit the request does not carry. -/
  | permit (message : String)
  /-- The local machine failed. -/
  | io (message : String)

def Failure.afterApply : Failure → Failure
  | command what stderr | uncertain what stderr => uncertain what stderr
  -- nothing ran without the lock
  | locked stderr => locked stderr
  | input what | permit what | io what => uncertain what ""

structure Output where
  success : Bool
  stdout : String
  stderr : String

inductive State where
  | present (doc : Json)
  /-- Never applied, or deleted. -/
  | absent
  /-- An empty S3 workspace from a preview or a failed plan. -/
  | unapplied

structure Setup where
  initArgs : List String
  varFiles : List String

/-- The machine: the binary, the parser of what it prints, and the driver's files. -/
structure Host (W : Type) where
  workspaces : Bool
  backend : String
  lockTimeoutMs : Nat
  parse : String → Option Json
  redact : DriverRequest → W → String → String
  log : DriverRequest → W → String
  exec : List String → Step W (Except String Output)
  state : DriverRequest → Step W (Except DriverError State)
  retained : DriverRequest → Step W (Except DriverError Json)
  retainedPin : DriverRequest → Step W (Option Json)
  start : DriverRequest → Step W (Except Failure Unit)
  /-- The current source, or what an earlier apply retained. -/
  prepare : DriverRequest → Option Json → Step W (Except Failure Setup)
  /-- A module that holds only the backend. -/
  prepareBackend : DriverRequest → Step W (Except Failure Setup)
  protect : DriverRequest → Step W (Except Failure Unit)
  retainedFiles : DriverRequest → Step W (Except Failure (List (String × Option String)))
  restoreRetainedFiles : List (String × Option String) → Step W (Except Failure Unit)
  retain : DriverRequest → Step W (Except Failure Unit)
  pinned : DriverRequest → Step W (Except Failure Json)
  cookie : DriverRequest → Step W (Except Failure (Option Cookie))
  markDeleted : DriverRequest → Step W (Except Failure Unit)
  clearState : DriverRequest → Step W (Except Failure Unit)

inductive Event where
  | checked (req : PermitRequest) (answer : Except String Unit)
  | applied (p : Saved)

abbrev World (W : Type) := Watched W Event

abbrev TofuM (W : Type) := ExceptT Failure (Step (World W))

def TofuM.host (x : Step W (Except Failure α)) : TofuM W α := mk x.lift

def TofuM.afterApply (x : TofuM W α) : TofuM W α := mk do
  match ← x.run with
  | .ok a => pure (.ok a)
  | .error f => pure (.error f.afterApply)

/-- The text from its first `Error: ` on. -/
def firstError : List Char → Option (List Char)
  | [] => none
  | c :: rest => if "Error: ".toList.isPrefixOf (c :: rest) then some (c :: rest) else firstError rest

def isLocked (stderr : String) : Bool :=
  (firstError stderr.toList).any "Error: Error acquiring the state lock".toList.isPrefixOf

def commandResult (what : String) : Except String Output → Except Failure Output
  | .error e => .error (.io ("running `tofu`: " ++ e))
  | .ok out =>
    if out.success then .ok out
    else if isLocked out.stderr then .error (.locked out.stderr)
    else .error (.command ("tofu: " ++ what) out.stderr)

section
variable (h : Host W)

def tofu (what : String) (args : List String) : TofuM W Output := mk do
  return commandResult what (← (h.exec args).lift)

def lockTimeout : String := "-lock-timeout=" ++ toString h.lockTimeoutMs ++ "ms"

def inWorkspaces (what : String) : List (List String) → TofuM W Unit
  | [] => return ()
  | args :: rest =>
    if h.workspaces then do
      let _ ← tofu h what args
      inWorkspaces what rest
    else return ()

/-- `init`, then a saved plan. The source returns the plan's actions and fingerprint, which the plan determines. -/
def planRun (setup : Setup) (req : DriverRequest) (destroy : Bool) : TofuM W Saved := do
  let _ ← tofu h "init failed" (["init", "-input=false"] ++ setup.initArgs)
  inWorkspaces h "selecting the resource's workspace failed"
    [["workspace", "select", "-or-create=true", req.guresid.text]]
  let state ← tofu h "reading state failed" ["state", "pull"]
  let _ ← tofu h "plan failed" (["plan", "-input=false", "-out=openporch.tfplan", lockTimeout h] ++
    (if destroy then ["-destroy"] else []) ++ setup.varFiles)
  let shown ← tofu h "reading the plan failed" ["show", "-json", "openporch.tfplan"]
  match h.parse shown.stdout with
  | none => throw (.io "`tofu show -json` printed no plan")
  | some plan =>
    return { guresid := req.guresid, destroy, inputs := req.operation.fingerprint, state := h.parse state.stdout
             shown := plan }

variable (sha256 : String → String) (req : DriverRequest)

/-- Applies the saved plan, refusing destructive changes without a matching permit. What the apply runs is retained
first; any failure once the apply starts is uncertain. -/
def applyRun (p : Saved) : TofuM W Unit := do
  if !p.destructive.isEmpty && req.permit ≠ some (p.fingerprint sha256) then
    throw (.permit ("the plan destroys or replaces " ++ ", ".intercalate p.destructive ++
      "; it needs a permit for plan " ++ p.fingerprint sha256))
  else
    let before ← TofuM.host (h.retainedFiles req)
    TofuM.host (h.retain req)
    let apply := tofu h "apply failed" ["apply", "-input=false", lockTimeout h, "openporch.tfplan"]
    match ← (ExceptT.lift (Step.logged (.applied p) apply.run) : TofuM W (Except Failure Output)) with
    | .ok _ => return ()
    | .error (.locked stderr) =>
      -- nothing ran, so the record of a started apply is undone
      TofuM.host (h.restoreRetainedFiles before)
      throw (.locked stderr)
    | .error f => throw f.afterApply

/-- `tofu output -json`, or a state's outputs, as values and secrets. -/
def splitOutputs (outputs : JsonMap) : DriverOutputs :=
  let value (o : Json) : Json := o.at "value"
  let isSensitive (o : Json) : Bool := o.field? "sensitive" = some (.bool true)
  { values := (outputs.filter fun f => !isSensitive f.2).map fun f => (f.1, value f.2)
    secrets := (outputs.filter fun f => isSensitive f.2).map fun f => (f.1, value f.2) }

def outputs : TofuM W DriverOutputs := do
  let out ← tofu h "reading outputs failed" ["output", "-json"]
  match (h.parse out.stdout).bind Json.asObject? with
  | none => throw (.io "`tofu output -json` printed no outputs")
  | some outputs =>
    let split := splitOutputs outputs
    return { split with footprint := { split.footprint with backend := some h.backend } }

def putInner (setup : Setup) (req : DriverRequest) : TofuM W (DriverOutputs × Option Cookie) := do
  let p ← planRun h setup req false
  applyRun h sha256 req p
  let outputs ← (outputs h).afterApply
  let pin ← (TofuM.host (h.pinned req)).afterApply
  let cookie ← (TofuM.host (h.cookie req)).afterApply
  return ({ outputs with footprint := { outputs.footprint with pin := some pin } }, cookie)

def removeState : TofuM W Unit := do
  inWorkspaces h "removing the resource's state failed"
    [["workspace", "select", "default"], ["workspace", "delete", req.guresid.text]]
  TofuM.host (h.clearState req)

def deleteInner (setup : Setup) (req : DriverRequest) : TofuM W Unit := do
  let p ← planRun h setup req true
  applyRun h sha256 req p
  -- destruction is confirmed: mark it first, so that a repeated delete is a no-op
  (TofuM.host (h.markDeleted req)).afterApply
  (removeState h req).afterApply

/-- `str::lines`. -/
def lines (s : String) : List (List Char) :=
  let parts := s.toList.splitOn '\n'
  let parts := if parts.getLast? = some [] then parts.dropLast else parts
  parts.map fun l => if l.getLast? = some '\r' then l.dropLast else l

def logTail : List Char → List Char
  | [] => []
  | c :: rest => if ((c :: rest).map (·.utf8Size)).sum ≤ maxErrorLogBytes then c :: rest else logTail rest

def lockedText (stderr : String) : String :=
  let id := (lines stderr).findSome? fun l =>
    let l := trim l
    if "ID:".toList.isPrefixOf l then some (trim (l.drop 3)) else none
  match id.filter fun id => !id.isEmpty && id.all fun c => (c.isAlphanum || c = '-') with
  | some id =>
    "the resource's OpenTofu state is locked by another run (lock " ++ String.ofList id ++
      "); if no run holds it, an operator can release it with `tofu force-unlock " ++ String.ofList id ++ "`"
  | none => "the resource's OpenTofu state is locked by another run"

def commandText (redact : String → String) (log : String) (appendLogs : Bool) (what stderr : String) : String :=
  let kept := (lines (redact stderr)).filter fun l => !(trim l).isEmpty
  let tail := "\n".intercalate ((kept.drop (kept.length - errorLines)).map String.ofList)
  redact what ++ ":\n" ++ tail ++
    if appendLogs then "\n\nFull log:\n" ++ String.ofList (logTail log.toList) else ""

def driverError (redact : String → String) (log : String) (appendLogs : Bool) : Failure → DriverError
  | .input m => .invalid (some codeInput) (redact m)
  | .permit m => .invalid (some codePermit) m
  | .locked stderr => .conflict (lockedText (redact stderr))
  | .io m => .invalid (some codeFailed) (redact m)
  | .command what stderr => .invalid (some codeFailed) (commandText redact log appendLogs what stderr)
  | .uncertain what stderr =>
    .uncertain ("infrastructure may have changed: " ++ commandText redact log appendLogs what stderr)

abbrev CallM (W : Type) := ExceptT DriverError (Step (World W))

def CallM.host (x : Step W (Except DriverError α)) : CallM W α := mk x.lift

def finish (result : Except Failure α) (appendLogs : Bool) : CallM W α := mk <|
  Step.read fun s => result.mapError (driverError (h.redact req s.world) (h.log req s.world) appendLogs)

def appendLogs : Bool := req.values.get "append_logs_to_error" = some (.bool true)

/-- Starts a run and prepares it, then runs `body`; local state is protected even after a failure, since a partial
apply writes state too. -/
def withRun (retained : Option Json) (body : Setup → TofuM W α) : CallM W α := do
  match ← (ExceptT.lift (h.start req).lift : CallM W (Except Failure Unit)) with
  | .error f => finish h req (.error f) false
  | .ok () =>
    let run : TofuM W α := do
      let setup ← TofuM.host (h.prepare req retained)
      body setup
    let result ← (ExceptT.lift run.run : CallM W (Except Failure α))
    let kept ← (ExceptT.lift (h.protect req).lift : CallM W (Except Failure Unit))
    finish h req (result.bind fun a => kept.map fun _ => a) (appendLogs req)

/-- Runs `body` in an initialized module that holds only the backend. -/
def withBareRun (body : TofuM W α) : CallM W α := do
  match ← (ExceptT.lift (h.start req).lift : CallM W (Except Failure Unit)) with
  | .error f => finish h req (.error f) false
  | .ok () =>
    let run : TofuM W α := do
      let setup ← TofuM.host (h.prepareBackend req)
      let _ ← tofu h "init failed" (["init", "-input=false"] ++ setup.initArgs)
      body
    let result ← (ExceptT.lift run.run : CallM W (Except Failure α))
    finish h req result false

def preview (p : Saved) : Plan := toPlan (p.actions, p.fingerprint sha256)

def plan : CallM W Plan := do
  let _ ← CallM.host (h.state req)
  let p ← withRun h req none fun setup => planRun h setup req false
  return preview sha256 p

def planDelete : CallM W Plan := do
  match ← CallM.host (h.state req) with
  | .absent | .unapplied => return .noEffects
  | .present _ =>
    let retained ← CallM.host (h.retained req)
    let p ← withRun h req (some retained) fun setup => planRun h setup req true
    return preview sha256 p

def put : CallM W PutOutcome := do
  let _ ← CallM.host (h.state req)
  let (outputs, cookie) ← withRun h req none fun setup => putInner h sha256 setup req
  return .ready outputs cookie

def get : CallM W Observation := do
  match ← (ExceptT.lift (h.state req).lift : CallM W (Except DriverError State)) with
  | .ok (.present doc) =>
    let outputs := splitOutputs ((doc.at "outputs").asObject?.getD [])
    let pin ← (ExceptT.lift (h.retainedPin req).lift : CallM W (Option Json))
    return .ready { outputs with footprint := { backend := some h.backend, pin } } none
  | .ok .absent | .ok .unapplied => return .absent none
  | .error e => return .unknown e.text none

def delete : CallM W DeleteOutcome := do
  match ← CallM.host (h.state req) with
  -- nothing was applied, or an earlier delete finished
  | .absent => return .deleted
  | .unapplied =>
    withBareRun h req (removeState h req)
    return .deleted
  | .present _ =>
    let retained ← CallM.host (h.retained req)
    withRun h req (some retained) fun setup => deleteInner h sha256 setup req
    return .deleted

def info : DriverInfo :=
  { id := "openporch/opentofu", protocolVersion := "builtin", cookieVersion := 1
    capabilities := { observe := true, recover := true, preview := true, cancel := false } }

def driver : Driver (World W) where
  info := info
  put req := (put h sha256 req).run
  get req := (get h req).run
  delete req := (delete h sha256 req).run
  cancel _ := Call.now (.error (.unsupported "cancellation"))
  plan req := (plan h sha256 req).run
  planDelete req := (planDelete h sha256 req).run

end

end Openporch.Tofu
