import Openporch.Graph
import Openporch.Spelling

/-!
# Workload documents

`crates/core/src/workload.rs`: the workload document with its JSON, its validation, and its conversion into a module of
a deployment set, which translates `${resources.<key>.<output>}` into `${externals.<key>.<output>}` or
`${shared.<id>.<output>}`.
-/

namespace Openporch

/-- `IndexMap` with text keys, in insertion order. -/
structure IndexMap (α : Type) where
  entries : List (String × α)
  nodup : (entries.map (·.1)).Nodup

namespace IndexMap
variable {α : Type}

def empty : IndexMap α := ⟨[], .nil⟩

def get (m : IndexMap α) (key : String) : Option α := m.entries.lookup key

def contains (m : IndexMap α) (key : String) : Bool := m.entries.any (·.1 = key)

def json (f : α → Json) (m : IndexMap α) : JsonMap := m.entries.map fun (k, v) => (k, f v)

end IndexMap

def strings (l : List String) : Json := .arr (l.map .str)

def texts (m : BTreeMap String String) : JsonMap := m.toList.map fun (k, v) => (k, .str v)

structure File where
  mode : Option String := none
  source : Option String := none
  content : Option String := none
  /-- Disables placeholder expansion in the content. -/
  noExpand : Option Bool := none

def File.json (f : File) : Json :=
  .obj (optional "mode" (f.mode.map .str) ++ optional "source" (f.source.map .str) ++
    optional "content" (f.content.map .str) ++ optional "noExpand" (f.noExpand.map .bool))

structure Quantities where
  memory : Option String := none
  cpu : Option String := none

def Quantities.json (q : Quantities) : Json :=
  .obj (optional "memory" (q.memory.map .str) ++ optional "cpu" (q.cpu.map .str))

structure ContainerResources where
  limits : Option Quantities := none
  requests : Option Quantities := none

def ContainerResources.json (r : ContainerResources) : Json :=
  .obj (optional "limits" (r.limits.map (·.json)) ++ optional "requests" (r.requests.map (·.json)))

structure HttpHeader where
  name : String
  value : String

def HttpHeader.json (h : HttpHeader) : Json := .obj [("name", .str h.name), ("value", .str h.value)]

structure HttpProbe where
  scheme : Option String := none
  host : Option String := none
  path : String
  port : UInt16
  httpHeaders : List HttpHeader := []

def HttpProbe.json (p : HttpProbe) : Json :=
  .obj (optional "scheme" (p.scheme.map .str) ++ optional "host" (p.host.map .str) ++
    [("path", .str p.path), ("port", .num (.posInt p.port.toNat))] ++
    if p.httpHeaders.isEmpty then [] else [("httpHeaders", .arr (p.httpHeaders.map (·.json)))])

structure ExecProbe where
  command : List String

structure Probe where
  httpGet : Option HttpProbe := none
  exec : Option ExecProbe := none

def Probe.json (p : Probe) : Json :=
  .obj (optional "httpGet" (p.httpGet.map (·.json)) ++
    optional "exec" (p.exec.map fun e => .obj [("command", strings e.command)]))

structure Container where
  image : String
  command : Option (List String) := none
  args : Option (List String) := none
  vars : IndexMap String := .empty
  files : IndexMap File := .empty
  resources : Option ContainerResources := none
  livenessProbe : Option Probe := none
  readinessProbe : Option Probe := none

def Container.json (c : Container) : Json :=
  .obj ([("image", .str c.image)] ++ optional "command" (c.command.map strings) ++ optional "args" (c.args.map strings) ++
    nonEmpty "variables" (c.vars.json .str) ++ nonEmpty "files" (c.files.json File.json) ++
    optional "resources" (c.resources.map (·.json)) ++ optional "livenessProbe" (c.livenessProbe.map (·.json)) ++
    optional "readinessProbe" (c.readinessProbe.map (·.json)))

structure ServicePort where
  port : UInt16
  targetPort : Option UInt16 := none
  protocol : Option String := none

def ServicePort.json (p : ServicePort) : Json :=
  .obj ([("port", .num (.posInt p.port.toNat))] ++ optional "targetPort" (p.targetPort.map fun n => .num (.posInt n.toNat)) ++
    optional "protocol" (p.protocol.map .str))

structure Service where
  ports : IndexMap ServicePort := .empty

def Service.json (s : Service) : Json := .obj [("ports", .obj (s.ports.json ServicePort.json))]

inductive Package where
  | zip (artifact runtime handler : String)
  | image (name : String)

def Package.json : Package → Json
  | zip artifact runtime handler =>
    .obj [("type", .str "zip"), ("artifact", .str artifact), ("runtime", .str runtime), ("handler", .str handler)]
  | image name => .obj [("type", .str "image"), ("image", .str name)]

structure Concurrency where
  reserved : Option UInt32 := none
  provisioned : Option UInt32 := none

def Concurrency.json (c : Concurrency) : Json :=
  .obj (optional "reserved" (c.reserved.map fun n => .num (.posInt n.toNat)) ++
    optional "provisioned" (c.provisioned.map fun n => .num (.posInt n.toNat)))

structure Function where
  package : Package
  vars : IndexMap String := .empty
  memory : String := "256Mi"
  timeout : String := "30s"
  concurrency : Option Concurrency := none

def Function.json (f : Function) : Json :=
  .obj ([("package", f.package.json)] ++ nonEmpty "variables" (f.vars.json .str) ++
    [("memory", .str f.memory), ("timeout", .str f.timeout)] ++ optional "concurrency" (f.concurrency.map (·.json)))

inductive HttpAuth where
  | none
  | iam

def HttpAuth.text : HttpAuth → String
  | none => "none"
  | iam => "iam"

structure HttpTrigger where
  /-- For containers, the name of a service port. -/
  port : Option String := none
  path : Option String := none
  auth : Option HttpAuth := none

structure ScheduleTrigger where
  cron : String
  timezone : Option String := none
  input : Option Json := none

structure QueueTrigger where
  /-- The key of the queue under `resources`. -/
  resource : String
  batchSize : Option UInt32 := none

structure TopicTrigger where
  resource : String

structure StreamTrigger where
  resource : String
  batchSize : Option UInt32 := none
  startingPosition : Option String := none

inductive Trigger where
  | http (t : HttpTrigger)
  | schedule (t : ScheduleTrigger)
  | queue (t : QueueTrigger)
  | topic (t : TopicTrigger)
  | stream (t : StreamTrigger)

namespace Trigger

def kind : Trigger → String
  | http _ => "http"
  | schedule _ => "schedule"
  | queue _ => "queue"
  | topic _ => "topic"
  | stream _ => "stream"

def resource : Trigger → Option String
  | queue t => some t.resource
  | topic t => some t.resource
  | stream t => some t.resource
  | http _ | schedule _ => none

def body : Trigger → JsonMap
  | http t => optional "port" (t.port.map .str) ++ optional "path" (t.path.map .str) ++ optional "auth" (t.auth.map (.str ·.text))
  | schedule t => [("cron", .str t.cron)] ++ optional "timezone" (t.timezone.map .str) ++ optional "input" t.input
  | queue t => [("resource", .str t.resource)] ++ optional "batchSize" (t.batchSize.map fun n => .num (.posInt n.toNat))
  | topic t => [("resource", .str t.resource)]
  | stream t => [("resource", .str t.resource)] ++ optional "batchSize" (t.batchSize.map fun n => .num (.posInt n.toNat)) ++
      optional "startingPosition" (t.startingPosition.map .str)

def json (t : Trigger) : Json := .obj [(t.kind, .obj t.body)]

end Trigger

structure ResourceRequest where
  ty : ResourceTypeId
  cls : Option ClassId := none
  /-- The shared resource; without it the dependency is private to the workload. -/
  id : Option String := none
  params : Option Json := none
  annotations : Option (BTreeMap String String) := none

def ResourceRequest.json (r : ResourceRequest) : Json :=
  .obj ([("type", .str r.ty.text)] ++ optional "class" (r.cls.map (.str ·.text)) ++ optional "id" (r.id.map .str) ++
    optional "params" r.params ++ optional "metadata" (r.annotations.map fun a => .obj [("annotations", .obj (texts a))]))

inductive DeployStatus where
  | deploy
  | available

def DeployStatus.text : DeployStatus → String
  | deploy => "deploy"
  | available => "available"

structure Deploy where
  status : Option DeployStatus := none
  timeout : Option String := none

def Deploy.json (d : Deploy) : Json :=
  .obj (optional "status" (d.status.map (.str ·.text)) ++ optional "timeout" (d.timeout.map .str))

structure Metadata where
  name : WorkloadId
  cls : Option ClassId := none
  annotations : BTreeMap String String := ∅

def Metadata.json (m : Metadata) : Json :=
  .obj ([("name", .str m.name.text)] ++ optional "class" (m.cls.map (.str ·.text)) ++
    nonEmpty "annotations" (texts m.annotations))

structure Workload where
  apiVersion : String := "openporch.dev/v1"
  kind : String := "Workload"
  metadata : Metadata
  containers : Option (IndexMap Container) := none
  function : Option Function := none
  service : Option Service := none
  triggers : IndexMap Trigger := .empty
  resources : IndexMap ResourceRequest := .empty
  deploy : Option Deploy := none
  /-- Driver-specific settings. -/
  target : Option JsonMap := none

structure WorkloadError where
  path : String
  message : String
deriving DecidableEq

namespace Workload
variable (w : Workload)

def json : Json :=
  .obj ([("apiVersion", .str w.apiVersion), ("kind", .str w.kind), ("metadata", w.metadata.json)] ++
    optional "containers" (w.containers.map fun c => .obj (c.json Container.json)) ++
    optional "function" (w.function.map (·.json)) ++ optional "service" (w.service.map (·.json)) ++
    nonEmpty "triggers" (w.triggers.json Trigger.json) ++ nonEmpty "resources" (w.resources.json ResourceRequest.json) ++
    optional "deploy" (w.deploy.map (·.json)) ++ optional "target" (w.target.map .obj))

def cls : ClassId := w.metadata.cls.getD .default

def containerEntries : List (String × Container) := (w.containers.map (·.entries)).getD []

/-- The pointers to the content of files with `noExpand`. -/
def noExpandPointers : List (List String) :=
  w.containerEntries.flatMap fun (id, c) => c.files.entries.filterMap fun (target, f) =>
    if f.noExpand = some true ∧ f.content.isSome then some ["containers", id, "files", target, "content"] else none

end Workload

def allDigits (s : List Char) : Bool := s.all Char.isDigit

/-- A Kubernetes-style quantity such as `256Mi`, `0.5` or `250m`. -/
def isQuantity (s : String) : Bool :=
  ["Ki", "Mi", "Gi", "Ti", "Pi", "Ei", "k", "M", "G", "T", "P", "E", "m", ""].any fun suffix =>
    (stripSuffix suffix.toList s.toList).any fun num =>
      match splitOnce '.' num with
      | none => !num.isEmpty && allDigits num
      | some (whole, frac) => !whole.isEmpty && allDigits whole && !frac.isEmpty && allDigits frac

/-- The rest of a duration, `digits` after a digit. -/
def isDurationFrom (digits : Bool) : List Char → Bool
  | [] => !digits
  | 'm' :: 's' :: rest => digits && isDurationFrom false rest
  | c :: rest =>
    if c.isDigit then isDurationFrom true rest else digits && (c = 's' || c = 'm' || c = 'h') && isDurationFrom false rest

/-- A duration such as `30s`, `5m` or `1h30m`. -/
def isDuration (s : String) : Bool := !s.isEmpty && isDurationFrom false s.toList

def splitWhitespace (s : List Char) : List (List Char) := (s.splitOnP isWhitespace).filter (!·.isEmpty)

def isCron (s : String) : Bool :=
  let fields := splitWhitespace s.toList
  fields.length = 5 && fields.all (·.all fun c => c.isAlphanum || "*,/-?LW#".toList.contains c)

def Workload.check (ok : Bool) (path message : String) : Except WorkloadError Unit :=
  if ok then .ok () else .error ⟨path, message⟩

/-- `join`. -/
def joinPath (path key : String) : String := if path.isEmpty then key else path ++ "." ++ key

def checkParts (f : String → List Part → Except WorkloadError Unit) (path s : String) : Except WorkloadError Unit := do
  let parts ← (parseTemplate s).mapError fun e => ⟨path, e.text⟩
  f path parts

mutual

/-- Checks every string in the value; `item` is the path of an item. -/
def checkStrings (item : String → Nat → String) (f : String → List Part → Except WorkloadError Unit) (path : String) :
    Json → Except WorkloadError Unit
  | .str s => checkParts f path s
  | .arr items => checkItems item f path 0 items
  | .obj fields => checkFields item f path fields
  | _ => .ok ()

def checkItems (item : String → Nat → String) (f : String → List Part → Except WorkloadError Unit) (path : String) (i : Nat) :
    List Json → Except WorkloadError Unit
  | [] => .ok ()
  | v :: rest => do
    checkStrings item f (item path i) v
    checkItems item f path (i + 1) rest

def checkFields (item : String → Nat → String) (f : String → List Part → Except WorkloadError Unit) (path : String) :
    List (String × Json) → Except WorkloadError Unit
  | [] => .ok ()
  | (k, v) :: rest => do
    checkStrings item f (joinPath path k) v
    checkFields item f path rest

end

def rejectPlaceholders (v : Json) (path : String) : Except WorkloadError Unit :=
  checkStrings (fun path i => joinPath path (toString i))
    (fun path parts => Workload.check (placeholders parts).isEmpty path
      "placeholders are not supported in resource params") path v

/-- A workload uses `resources`, `values` and `pod`. -/
def checkRoot (path : String) (p : RawPlaceholder) : Except WorkloadError Unit :=
  match p.root with
  | "resources" | "values" | "pod" => .ok ()
  | "context" => .error ⟨path, "`" ++ p.text ++
      "`: workloads cannot use `context` placeholders; use `values` for environment configuration"⟩
  | other => .error ⟨path, "`" ++ p.text ++ "`: unknown placeholder root `" ++ other ++ "`"⟩

def checkPlaceholders (v : Json) (path : String) : Except WorkloadError Unit :=
  checkStrings (fun path i => path ++ "[" ++ toString i ++ "]")
    (fun path parts => (placeholders parts).forM (checkRoot path)) path v

def pointerIndex (key : String) : Option Nat :=
  match key.toList with
  | '+' :: _ | '0' :: _ :: _ => none
  | cs => parseU64 cs

def Json.pointer : List String → Json → Option Json
  | [], v => some v
  | key :: path, .obj fields => (JsonMap.get fields key).bind (pointer path)
  | key :: path, .arr items => (pointerIndex key).bind fun i => items[i]?.bind (pointer path)
  | _ :: _, _ => none

def setAsideOne (x : Json × SetAside) (p : List String) : Json × SetAside :=
  match x.1.pointer p with
  | none => x
  | some old => (x.1.setAt p .null, x.2 ++ [(p, old)])

def setAside (v : Json) (pointers : List (List String)) : Json × SetAside := pointers.foldl setAsideOne (v, [])

namespace Workload
variable (w : Workload)

def checkShape : Except WorkloadError Unit :=
  match w.containers, w.function with
  | some _, some _ => .error ⟨".", "a workload is either containers or a function, not both"⟩
  | none, none => .error ⟨".", "a workload needs `containers` or `function`"⟩
  | some c, none => check (!c.entries.isEmpty) "containers" "at least one container is required"
  | none, some _ => .ok ()

def checkQuantity (path : String) (v : Option String) : Except WorkloadError Unit :=
  check (v.all isQuantity) path ("`" ++ v.getD "" ++ "` is not a quantity")

def checkContainer (id : String) (c : Container) : Except WorkloadError Unit := do
  check (!c.image.isEmpty) ("containers." ++ id ++ ".image") "must not be empty"
  c.files.entries.forM fun (target, f) => check (f.source.isSome != f.content.isSome)
    ("containers." ++ id ++ ".files." ++ target) "set exactly one of `source` and `content`"
  [("limits", c.resources.bind (·.limits)), ("requests", c.resources.bind (·.requests))].forM fun (field, q) => do
    checkQuantity ("containers." ++ id ++ ".resources." ++ field ++ ".memory") (q.bind (·.memory))
    checkQuantity ("containers." ++ id ++ ".resources." ++ field ++ ".cpu") (q.bind (·.cpu))

def checkPackage : Package → Except WorkloadError Unit
  | .zip artifact runtime handler =>
    [("artifact", artifact), ("runtime", runtime), ("handler", handler)].forM fun (name, v) =>
      check (!v.isEmpty) ("function.package." ++ name) "must not be empty"
  | .image name => check (!name.isEmpty) "function.package.image" "must not be empty"

def checkFunction (f : Function) : Except WorkloadError Unit := do
  checkPackage f.package
  check (isQuantity f.memory) "function.memory" ("`" ++ f.memory ++ "` is not a quantity such as `256Mi`")
  check (isDuration f.timeout) "function.timeout" ("`" ++ f.timeout ++ "` is not a duration such as `30s`")

def checkResource (key : String) (r : ResourceRequest) : Except WorkloadError Unit := do
  check (r.id.all isValidObjectId) ("resources." ++ key ++ ".id") objectIdRule
  -- params go to the driver as they are: placeholders would be neither translated nor ordered in the graph
  match r.params with
  | some params => rejectPlaceholders params ("resources." ++ key ++ ".params")
  | none => .ok ()

def checkTrigger (name : String) (t : Trigger) : Except WorkloadError Unit := do
  let path := "triggers." ++ name ++ "." ++ t.kind
  check (t.resource.all w.resources.contains) (path ++ ".resource")
    ("resource `" ++ t.resource.getD "" ++ "` is not declared under `resources`")
  match t with
  | .schedule s => check (isCron s.cron) (path ++ ".cron") ("`" ++ s.cron ++ "` is not a 5-field cron expression")
  | .http h =>
    match h.port with
    | none => .ok ()
    | some port => do
      check w.function.isNone (path ++ ".port") "functions have no ports"
      check (w.service.any (·.ports.contains port)) (path ++ ".port") ("`" ++ port ++ "` is not a service port")
  | _ => .ok ()

def validate : Except WorkloadError Unit := do
  w.checkShape
  w.containerEntries.forM fun (id, c) => checkContainer id c
  check (!(w.service.isSome && w.function.isSome)) "service" "`service` applies to container workloads only"
  w.function.forM checkFunction
  w.resources.entries.forM fun (key, r) => checkResource key r
  w.triggers.entries.forM fun (name, t) => w.checkTrigger name t
  let timeout := w.deploy.bind (·.timeout)
  check (timeout.all isDuration) "deploy.timeout" ("`" ++ timeout.getD "" ++ "` is not a duration such as `5m`")
  -- file content with `noExpand` is kept literally
  checkPlaceholders (setAside w.json w.noExpandPointers).1 ""

end Workload

def replaceChar (c : Char) (text : List Char) (s : List Char) : List Char := s.flatMap fun x => if x = c then text else [x]

def escapePointer (key : String) : String :=
  String.ofList (replaceChar '/' ['~', '1'] (replaceChar '~' ['~', '0'] key.toList))

def pointerText (pointer : List String) : String := String.join (pointer.map fun key => "/" ++ escapePointer key)

def pointerPath (pointer : List String) : String :=
  String.ofList (replaceChar '/' ['.'] ((pointerText pointer).toList.dropWhile (· = '/')))

def isSecretSink (pointer : List String) : Bool :=
  match (splitAll '/' ((pointerText pointer).toList.dropWhile (· = '/'))).map String.ofList with
  | ["containers", _, "variables", _] | ["containers", _, "files", _, "content"] | ["function", "variables", _] => true
  | _ => false

def segmentText (name : String) : Segment :=
  if name.toList.all fun c => c.isAlphanum || c = '-' || c = '_' then .name name else .quoted name

def outputBody (key : String) (r : ResourceRequest) (output : String) (rest : List Segment) : List Char :=
  (match r.id with
    | some id => "shared".toList ++ (segmentText id).text.toList
    | none => "externals".toList ++ (segmentText key).text.toList) ++
    pathChars (segmentText output :: rest)

section
variable (resources : IndexMap ResourceRequest) (types : List ResourceType)

def checkOutput (p : RawPlaceholder) (r : ResourceRequest) (output : String) (rest : List Segment) : Except String OutputKind :=
  match types.find? (·.id = r.ty) with
  | none => .error ("`" ++ p.text ++ "`: unknown resource type `" ++ r.ty.text ++ "`")
  | some ty =>
    match ty.outputKind output, ty.hasOpenOutputs with
    | some .secret, _ =>
      if rest.isEmpty then .ok .secret else .error ("`" ++ p.text ++ "`: secret output `" ++ output ++ "` has no fields")
    | some .value, _ | none, true => .ok .value
    | none, false =>
      .error ("`" ++ p.text ++ "`: resource type `" ++ r.ty.text ++ "` has no output `" ++ output ++ "`")

/-- Translates `${resources.<key>.<output>...}` and says whether the output is secret. -/
def translateResourcePlaceholder (p : RawPlaceholder) : Except String (String × Bool) :=
  let expected := "`" ++ p.text ++ "`: expected `resources.<key>.<output>`"
  match p.segments with
  | _ :: first :: second :: rest =>
    match first.key, second.key with
    | some key, some output =>
      match resources.get key with
      | none => .error ("`" ++ p.text ++ "`: resource `" ++ key ++ "` is not declared under `resources`")
      | some r => do
        let kind ← checkOutput types p r output rest
        return (String.ofList (['$', '{'] ++ outputBody key r output rest ++ ['}']), kind = .secret)
    | _, _ => .error expected
  | _ => .error expected

def translatePart : Part → Except String (String × Option String)
  | .literal l => .ok (String.ofList (escapeOpens l.toList), none)
  | .placeholder p =>
    if p.root = "resources" then do
      let (text, secret) ← translateResourcePlaceholder resources types p
      return (text, if secret then some p.text else none)
    else .ok (p.text, none)

def translateString (pointer : List String) (s : String) : Except WorkloadError (String × Bool) := do
  let parts ← (parseTemplate s).mapError fun e => ⟨pointerPath pointer, e.text⟩
  if (placeholders parts).isEmpty then return (s, false)
  else
    let out ← (parts.mapM (translatePart resources types)).mapError fun m => ⟨pointerPath pointer, m⟩
    match out.findSome? (·.2) with
    | none => return (String.join (out.map (·.1)), false)
    | some placeholder =>
      if isSecretSink pointer then return (String.join (out.map (·.1)), true)
      else .error ⟨pointerPath pointer,
        "`" ++ placeholder ++ "` is a secret output; secrets can only be used in variables and file content"⟩

mutual

def translate (pointer : List String) : Json → Except WorkloadError (Json × List String)
  | .str s => do
    let (out, secret) ← translateString resources types pointer s
    return (.str out, if secret then [pointerText pointer] else [])
  | .arr items => do
    let (items, paths) ← translateItems pointer 0 items
    return (.arr items, paths)
  | .obj fields => do
    let (fields, paths) ← translateFields pointer fields
    return (.obj fields, paths)
  | v => return (v, [])

def translateItems (pointer : List String) (i : Nat) : List Json → Except WorkloadError (List Json × List String)
  | [] => return ([], [])
  | v :: rest => do
    let (v, paths) ← translate (pointer ++ [toString i]) v
    let (rest, more) ← translateItems pointer (i + 1) rest
    return (v :: rest, paths ++ more)

def translateFields (pointer : List String) : List (String × Json) → Except WorkloadError (List (String × Json) × List String)
  | [] => return ([], [])
  | (k, v) :: rest => do
    let (v, paths) ← translate (pointer ++ [k]) v
    let (rest, more) ← translateFields pointer rest
    return ((k, v) :: rest, paths ++ more)

end

end

structure ConvertedWorkload where
  id : WorkloadId
  module : Module
  /-- The pointers into the spec of strings that contain secret outputs. -/
  secretPaths : List String

namespace Workload
variable (w : Workload)

/-- The triggers, with the `http` trigger that the first service port implies. -/
def effectiveTriggers : List (String × Trigger) :=
  let hasHttp := w.triggers.entries.any fun | (_, .http _) => true | _ => false
  match (w.service.bind (·.ports.entries.head?)).map (·.1) with
  | some name =>
    if !hasHttp && w.containers.isSome && !w.triggers.contains name then
      w.triggers.entries ++ [(name, .http { port := some name })]
    else w.triggers.entries
  | none => w.triggers.entries

def externals : BTreeMap String External :=
  w.resources.entries.foldl (fun m (key, r) =>
    m.insert key { ty := r.ty, cls := r.cls.getD .default, id := r.id, params := r.params.filter (· ≠ .null) }) ∅

def deployJson : Json :=
  let deploy := w.deploy.getD {}
  .obj [("status", .str (deploy.status.getD .available).text), ("timeout", .str (deploy.timeout.getD "5m"))]

def spec : Json :=
  .obj (optional "containers" (w.containers.map fun c => .obj (c.json Container.json)) ++
    optional "function" (w.function.map (·.json)) ++ optional "service" (w.service.map (·.json)) ++
    nonEmpty "triggers" (w.effectiveTriggers.map fun (name, t) => (name, t.json)) ++ [("deploy", w.deployJson)] ++
    optional "target" (w.target.map .obj) ++ nonEmpty "annotations" (texts w.metadata.annotations))

/-- The module, with the placeholders of the spec translated and the content of `noExpand` files as it is. -/
def toModule (types : List ResourceType) : Except WorkloadError ConvertedWorkload := do
  let (aside, kept) := setAside w.spec w.noExpandPointers
  let (translated, secretPaths) ← translate w.resources types [] aside
  let spec := kept.foldl (fun v x => v.setAt x.1 x.2) translated
  return {
    id := w.metadata.name
    module := { cls := w.cls, spec := spec.asObject?.getD [], externals := w.externals }
    secretPaths }

end Workload
end Openporch
