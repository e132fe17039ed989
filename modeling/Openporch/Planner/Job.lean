import Openporch.Graph
import Openporch.Store.Operations

/-!
# The inputs of a job

`scope_for` and `NodeRun::job` of `crates/engine/src/planner.rs`: what a node's placeholders may read once other nodes
have finished, and the inputs and cloud account they resolve to.
-/

namespace Openporch
open Asking

/-- What `from_snapshot` admits as a shared value: text, or a secret reference. -/
def SharedValue.isText : SharedValue → Bool
  | .value (.str _) | .secret _ => true
  | .value _ => false

structure Engine.Deployment where
  org : OrgId
  app : AppId
  env : EnvId
  envType : EnvTypeId
  id : String
  setId : String
  graph : ResourceGraph
  definitions : BTreeMap DefinitionId (Int × ResourceDefinition)
  values : BTreeMap String SharedValue
  textValues : ∀ (key : String) (v : SharedValue), values[key]? = some v → v.isText = true
  permits : List String
  /-- The version of the driver's code each resource ran, by descriptor. -/
  pins : BTreeMap String Json
  types : BTreeMap ResourceTypeId ResourceType
  teardown : Bool

namespace Engine.Deployment
variable (dep : Deployment)

def hasPrefix (pre s : String) : Bool := (stripPrefix pre.toList s.toList).isSome

def afterPrefix (pre s : String) : Option String := (stripPrefix pre.toList s.toList).map String.ofList

def isDependencyPath (path : String) : Bool :=
  hasPrefix "modules." path && containsText ".externals.".toList path.toList

variable (node : Node)

def ownPaths : List String :=
  (node.requests.filter fun r => hasPrefix "modules." r.path && !containsText ".externals.".toList r.path.toList).map
    (·.path)

def sharedId (other : Node) (r : Request) : Option String :=
  (afterPrefix "shared." r.path).or
    (if isDependencyPath r.path then afterPrefix "shared." other.descriptor.id.text else none)

/-- The key under which the workload with the path `own` sees a node requested like this. -/
def externalKey (own : String) (r : Request) : Option String :=
  (afterPrefix own r.path).bind (afterPrefix ".externals.")

variable (done : BTreeMap Descriptor ResourceOutputs)

def finished : List (Node × Request × ResourceOutputs) :=
  dep.graph.nodes.toList.flatMap fun (_, other) =>
    match done[other.descriptor]? with
    | none => []
    | some outputs => other.requests.map fun r => (other, r, outputs)

def sharedScope : BTreeMap String ResourceOutputs :=
  (dep.finished done).foldl (fun m (other, r, outputs) => (sharedId other r).elim m fun id => m.insert id outputs) ∅

def keyedExternals : List (String × Descriptor × ResourceOutputs) :=
  (dep.finished done).flatMap fun (other, r, outputs) =>
    (ownPaths node).filterMap fun own => (externalKey own r).map fun key => (key, other.descriptor, outputs)

def coprovisionedBy (path : String) : Option String := do
  let rest ← stripPrefix "definition `".toList path.toList
  let (_, rest) ← splitOnceAt "` provision.".toList rest
  let (_, source) ← rsplitOnceAt " for `".toList rest
  (stripSuffix "`".toList source).map String.ofList

def isCoprovisioned (other : Node) : Bool :=
  other.requests.any fun r => (coprovisionedBy r.path).any fun source => node.dependsOn.toList.any (·.text = source)

def coExternals : List (String × ResourceOutputs) :=
  if (ownPaths node).isEmpty then []
  else
    let keyed := (dep.keyedExternals node done).map (·.2.1)
    node.dependsOn.toList.filterMap fun d =>
      if keyed.contains d then none
      else do
        let other ← dep.graph.nodes[d]?
        if isCoprovisioned node other then (done[d]?).map fun outputs => (d.text, outputs) else none

def externalScope : BTreeMap String ResourceOutputs :=
  ((dep.keyedExternals node done).map (fun x => (x.1, x.2.2)) ++ dep.coExternals node done).foldl
    (fun m x => m.insert x.1 x.2) ∅

def context (d : Descriptor) (guresid : Option Guresid) : ContextKey → Option Json
  | .orgId => some (.str dep.org.text)
  | .appId => some (.str dep.app.text)
  | .envId => some (.str dep.env.text)
  | .envType => some (.str dep.envType.text)
  | .resType => some (.str d.ty.text)
  | .resClass => some (.str d.cls.text)
  | .resId => some (.str d.id.text)
  | .resGuresid => guresid.map fun g => .str g.text
  | .deployId => some (.str dep.id)
  | .deploySetId => some (.str dep.setId)

def implicitTypes : List ResourceTypeId := (builtinTypes.filter (·.use = .implicit)).map (·.id)

/-- `scope_for`, with the GUResID once the operation has begun. -/
def scopeFor (guresid : Option Guresid) : MapScope :=
  { context := dep.context node.descriptor guresid
    referrer := some node.descriptor
    implicitTypes
    resources := done
    externals := dep.externalScope node done
    shared := dep.sharedScope done
    values := dep.values }

def readTarget (d : Descriptor) (target : ResourceRef) : Descriptor := target.resolve d (implicitTypes.contains target.ty)

theorem descriptorFor_scopeFor (guresid : Option Guresid) (target : ResourceRef) :
    (dep.scopeFor node done guresid).descriptorFor target = .ok (readTarget node.descriptor target) := rfl

end Engine.Deployment

def SecretRef.read (fields : JsonMap) : Option SecretRef := do
  guard (fields.all fun f => f.1 = "store" || f.1 = "ref" || f.1 = "version")
  let store ← (fields.get "store").bind Json.asStr?
  let reference ← (fields.get "ref").bind Json.asStr?
  match fields.get "version" with
  | none | some .null => return { store, reference, version := none }
  | some (.str version) => return { store, reference, version := some version }
  | some _ => none

mutual

def references : Json → Resolved
  | .obj fields =>
    match SecretRef.read fields with
    | some r => .secret ⟨[.secret r]⟩
    | none =>
      let items := referencesFields fields
      if items.all (!·.2.isTainted) then .value (.obj fields) else .object items
  | .arr items =>
    let found := referencesItems items
    if found.all (!·.isTainted) then .value (.arr items) else .array found
  | other => .value other

def referencesItems : List Json → List Resolved
  | [] => []
  | v :: rest => references v :: referencesItems rest

def referencesFields : List (String × Json) → List (String × Resolved)
  | [] => []
  | (k, v) :: rest => (k, references v) :: referencesFields rest

end

def SecretRef.cmp : SecretRef → SecretRef → Ordering :=
  compareLex (compareOn store) (compareLex (compareOn reference) (compareOn version))

def SecretSource.cmp : SecretSource → SecretSource → Ordering :=
  compareOn fun
    | .values => none
    | .output g => some g.text

/-- `into_sources`: where the secrets found came from, sorted. -/
def intoSources (found : List (Expr × Found)) : List (SecretRef × SecretSource) :=
  let seen := found.filterMap fun (_, f) =>
    match f.lookup, f.source with
    | .secret r, some source => some (r, source)
    | _, _ => none
  seen.dedup.mergeSort fun a b => (compareLex (fun x y => x.1.cmp y.1) (fun x y => x.2.cmp y.2) a b).isLE

/-- Whether `s` can follow a dot in a placeholder. -/
def isName (s : String) : Bool := !s.isEmpty && s.toList.all fun c => c.isAlphanum || c = '_' || c = '-'

def outputPlaceholder (key name : String) : String :=
  if isName key then "$\x7bexternals." ++ key ++ "." ++ name ++ "\x7d"
  else "$\x7bexternals['" ++ key ++ "']." ++ name ++ "\x7d"

/-- Placeholders for the outputs of the dependency `key`, by name. -/
def outputPlaceholders (key : String) (outputs : ResourceOutputs) : Json :=
  .obj (JsonMap.extend [] (((outputs.values.map (·.1) ++ outputs.secrets.keys).filter isName).map fun name =>
    (name, .str (outputPlaceholder key name))))

variable (externals : BTreeMap String ResourceOutputs)

def addDependencyOutputs : Json → Json
  | .obj fields => .obj (JsonMap.insert fields "dependencies"
      (.obj (externals.toList.map fun (key, outputs) => (key, outputPlaceholders key outputs))))
  | params => params

def addOutputs : Json → Json
  | .obj body =>
    match (JsonMap.get body "resource").bind Json.asStr? with
    | none => .obj body
    | some key =>
      match externals[key]? with
      | none => .obj body
      | some outputs => .obj (JsonMap.insert body "outputs" (outputPlaceholders key outputs))
  | body => body

def addTriggerOutputs (spec : Json) : Json :=
  spec.modify "triggers" (Json.modifyValues (Json.modifyValues (addOutputs externals)))

/-- The content of a file marked `noExpand`. -/
def setAsideContent (path : List String) : Json → Json × SetAside
  | .obj file =>
    match JsonMap.get file "noExpand", JsonMap.get file "content" with
    | some (.bool true), some content =>
      ((Json.obj file).modify "content" fun _ => .null, [(path ++ ["content"], content)])
    | _, _ => (.obj file, [])
  | file => (file, [])

def setAsideFields (path : List String) (f : List String → Json → Json × SetAside) : Json → Json × SetAside
  | .obj fields =>
    (.obj (fields.map fun (k, v) => (k, (f (path ++ [k]) v).1)), fields.flatMap fun (k, v) => (f (path ++ [k]) v).2)
  | v => (v, [])

def setAsideField (key : String) (path : List String) (f : List String → Json → Json × SetAside) (v : Json) :
    Json × SetAside :=
  match v.field? key with
  | none => (v, [])
  | some below => (v.modify key fun _ => (f (path ++ [key]) below).1, (f (path ++ [key]) below).2)

/-- Takes the content of files marked `noExpand` out of a workload spec, with the path of each. -/
def setAsideNoExpand (path : List String) : Json → Json × SetAside :=
  setAsideField "containers" path fun path => setAsideFields path fun path container =>
    setAsideField "files" path (fun path => setAsideFields path setAsideContent) container

def Resolved.put : List String → Json → Resolved → Resolved
  | [], content, _ => .value content
  | path, content, .value v => .value (v.setAt path content)
  | key :: path, content, .object fields =>
    .object (fields.map fun (k, r) => if k = key then (k, put path content r) else (k, r))
  | _, _, r => r

variable (node : Node)

def jobParams (externals : BTreeMap String ResourceOutputs) : Json × SetAside :=
  let params := node.params.getD .null
  if node.descriptor.ty = .workload then
    setAsideField "spec" [] (fun path spec => setAsideNoExpand path (addTriggerOutputs externals spec))
      (addDependencyOutputs externals params)
  else (params, [])

inductive JobError where
  | inputs (definition : DefinitionId) (e : PlaceholderError)
  | secretInValues (definition : DefinitionId)
  | accountNotText (definition : DefinitionId)
  | accountId (definition : DefinitionId) (e : IdError)
  | params (d : Descriptor) (e : PlaceholderError)

def JobError.text : JobError → String
  | inputs definition e => "definition `" ++ definition.text ++ "`: " ++ e.text
  | secretInValues definition => "definition `" ++ definition.text ++ "`: driver_inputs.values contains a secret"
  | accountNotText definition => "definition `" ++ definition.text ++ "`: driver_account must resolve to a string"
  | accountId definition e => "definition `" ++ definition.text ++ "`: driver_account: " ++ e.text
  | params d e => "`" ++ d.text ++ "`: " ++ e.text

abbrev JobM := Ask Expr Reason Found JobError

def driverInputs (dfn : ResourceDefinition) : JobM (Json × Resolved × List (Expr × Found)) := do
  let plain ← (resolveValue .definition .plain "driver_inputs.values" (.obj dfn.driverInputs.values)).mapError
    (.inputs dfn.id)
  let values ← Ask.ofExcept (match plain with
    | .value v => .ok v
    | _ => .error (.secretInValues dfn.id))
  let secrets ← ((resolveValue .definition .secret "driver_inputs.secrets" (.obj dfn.driverInputs.secrets)).mapError
    (.inputs dfn.id)).record
  return (values, secrets)

/-- The cloud account the resolved `driver_account` names. -/
def accountOf (dfn : ResourceDefinition) : Resolved → Except JobError AccountId
  | .value (.str s) => (AccountId.new s).mapError (.accountId dfn.id)
  | _ => .error (.accountNotText dfn.id)

def driverAccount (dfn : ResourceDefinition) : JobM (Option AccountId) :=
  match dfn.driverAccount with
  | none => return none
  | some account => do
    let r ← (resolveValue .driverAccount .plain "driver_account" (.str account)).mapError (.inputs dfn.id)
    return some (← Ask.ofExcept (accountOf dfn r))

def paramsDialect : Dialect :=
  if (node.requests.any fun r => r.params.isSome &&
      (Engine.Deployment.hasPrefix "modules." r.path || Engine.Deployment.hasPrefix "shared." r.path)) then .set
  else .definition

def resolveParams (externals : BTreeMap String ResourceOutputs) : JobM (Resolved × List (Expr × Found)) := do
  let (params, aside) := jobParams node externals
  let (resource, found) ← ((resolveValue (paramsDialect node) .secret "params" params).mapError
    (.params node.descriptor)).record
  return (aside.foldl (fun r (path, content) => r.put path content) resource, found)

def jobInputs (dfn : ResourceDefinition) (externals : BTreeMap String ResourceOutputs) :
    JobM (JobInputs × Option AccountId) := do
  let (values, secrets, found) ← driverInputs dfn
  let account ← driverAccount dfn
  let (resource, found') ← resolveParams node externals
  return ({ values, secrets, secretRefs := references (.obj dfn.driverInputs.secretRefs), resource,
            sources := intoSources (found ++ found') }, account)

def Number.ofInt : Int → Number
  | .ofNat n => .posInt n
  | .negSucc n => .negInt n

def ResourceOutputs.json (o : ResourceOutputs) : Json :=
  .obj ([("values", .obj o.values), ("secrets", .obj (o.secrets.toList.map fun (k, r) => (k, r.json)))] ++
    optional "guresid" (o.guresid.map (.str ·.text)) ++ optional "account" (o.account.map .str))

def fingerprintDocument (version : Int) (dfn : ResourceDefinition)
    (dependencies : BTreeMap Descriptor ResourceOutputs) : Json :=
  .obj [("descriptor", .str node.descriptor.text), ("definition", dfn.json),
    ("definition_version", .num (.ofInt version)), ("params", node.params.getD .null),
    ("dependencies", .obj (dependencies.toList.map fun (d, o) => (d.text, o.json)))]

def fingerprint (sha256 : String → String) (node : Node) (version : Int) (dfn : ResourceDefinition)
    (dependencies : BTreeMap Descriptor ResourceOutputs) : String :=
  sha256 (toCanonicalString (fingerprintDocument node version dfn dependencies))

namespace Engine.Deployment
variable (dep : Engine.Deployment)

def jobContext : JobContext :=
  { org := dep.org.text, app := dep.app.text, env := dep.env.text, envType := dep.envType.text, deploymentId := dep.id,
    permits := dep.permits }

/-- `NodeRun::job`: the node's inputs resolved into a job. -/
def job (scope : MapScope) (node : Node) (dfn : ResourceDefinition) (inputFingerprint : String)
    (started : OperationStarted) (deadline : Nat) : Except JobError ProvisionJob := do
  let (inputs, account) ← (jobInputs node dfn scope.externals).run scope.answer
  return {
    operationId := started.operationId
    descriptor := node.descriptor
    guresid := started.guresid
    context := dep.jobContext
    driverType := dfn.driverType
    driverAccount := account.map (·.text)
    inputs
    inputFingerprint
    cookie := none
    target := none
    pin := dep.pins[node.descriptor.text]?
    existing := false
    outputSchema := dep.types[node.descriptor.ty]?
    deadline }

def dependencies (node : Node) (done : BTreeMap Descriptor ResourceOutputs) : BTreeMap Descriptor ResourceOutputs :=
  done.filter fun d _ => node.dependsOn.contains d

end Engine.Deployment
end Openporch
