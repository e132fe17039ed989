import Openporch.Canonical
import Openporch.Definition
import Openporch.Scope

/-!
# Building the resource graph

`crates/core/src/graph.rs`. The builder only ever requests nodes, adds edges and notes co-provisioning, so what the set
and each matched definition make it do is a list of `Op`s that it runs in order. A `Stop` that is no `GraphError` does
not happen.
-/

namespace Openporch

structure External where
  ty : ResourceTypeId
  cls : ClassId := .default
  /-- The shared resource; without it the dependency is private to the workload. -/
  id : Option String := none
  params : Option Json := none

structure Module where
  cls : ClassId := .default
  spec : JsonMap := []
  externals : BTreeMap String External := ∅

structure SharedResource where
  ty : ResourceTypeId
  cls : ClassId := .default
  params : Option Json := none

structure DeploymentSet where
  modules : BTreeMap WorkloadId Module
  shared : BTreeMap String SharedResource

structure Request where
  path : String
  /-- The requested inputs in canonical form; references carry none. -/
  params : Option String
deriving DecidableEq

def Request.cmp : Request → Request → Ordering :=
  compareLex (compareOn Request.path) (compareOn Request.params)

def Request.json (r : Request) : Json := .obj ([("path", .str r.path)] ++ optional "params" (r.params.map .str))

structure Node where
  descriptor : Descriptor
  definition : DefinitionId
  driverType : String
  params : Option Json
  /-- The requests that put the node in the graph, sorted. -/
  requests : List Request
  dependsOn : BTreeSet Descriptor

def Node.json (n : Node) : Json :=
  .obj ([("descriptor", .str n.descriptor.text), ("definition", .str n.definition.text),
      ("driver_type", .str n.driverType)] ++ optional "params" n.params ++
    [("requests", .arr (n.requests.map Request.json)), ("depends_on", .arr (n.dependsOn.toList.map (.str ·.text)))])

structure ResourceGraph where
  nodes : BTreeMap Descriptor Node
  /-- Every node's dependencies are in earlier layers. -/
  layers : List (List Descriptor)

structure GraphInput where
  org : OrgId
  app : AppId
  env : EnvId
  envType : EnvTypeId
  set : DeploymentSet
  definitions : List ResourceDefinition
  /-- All resource types, built-in and custom. -/
  types : List ResourceType
  classes : ClassRegistry

inductive GraphError where
  | unknownType (path : String) (ty : ResourceTypeId)
  | invalidId (path : String) (source : IdError)
  | missingClass (path : String) (ty : ResourceTypeId) (cls : ClassId)
  | noDefinition (path : String) (source : MatchError)
  | placeholder (definition : DefinitionId) (source : PlaceholderError)
  | conflict (descriptor : Descriptor) (first second : String)
  | cycle (path : List Descriptor)

def GraphError.text : GraphError → String
  | unknownType path ty => path ++ ": unknown resource type `" ++ ty.text ++ "`"
  | invalidId path source => path ++ ": " ++ source.text
  | missingClass path ty cls =>
    path ++ ": class `" ++ cls.text ++ "` is not defined for resource type `" ++ ty.text ++ "`"
  | noDefinition path source => path ++ ": " ++ source.text
  | placeholder definition source => "definition `" ++ definition.text ++ "`: " ++ source.text
  | conflict descriptor first second =>
    "conflicting requests for `" ++ descriptor.text ++ "`: `" ++ first ++ "` and `" ++ second ++
      "` ask for different inputs"
  | cycle path => "dependency cycle: " ++ " -> ".intercalate (path.map Descriptor.text)

inductive Stop where
  | error (e : GraphError)
  /-- An `expect` or an index that fails. -/
  | panic
  /-- A loop that has not ended. -/
  | spin

structure CoProvision where
  source : Descriptor
  co : Descriptor
  matchDependents : Bool
deriving DecidableEq

namespace CoProvision

def cmp : CoProvision → CoProvision → Ordering :=
  compareLex (compareOn source) (compareLex (compareOn co) (compareOn matchDependents))

instance : Ord CoProvision := ⟨cmp⟩

instance : Std.TransOrd CoProvision :=
  inferInstanceAs (Std.TransCmp (compareLex (compareOn source) (compareLex (compareOn co) (compareOn matchDependents))))

instance : Std.LawfulEqOrd CoProvision where
  toReflCmp :=
    inferInstanceAs (Std.ReflCmp (compareLex (compareOn source) (compareLex (compareOn co) (compareOn matchDependents))))
  eq_of_compare {a b} h := by
    have hcmp : cmp a b = .eq := h
    simp only [cmp, compareLex_eq_eq, compareOn] at hcmp
    obtain ⟨hsource, hco, hmatch⟩ := hcmp
    cases a
    cases b
    cases Std.LawfulEqOrd.eq_of_compare hsource
    cases Std.LawfulEqOrd.eq_of_compare hco
    cases Std.LawfulEqOrd.eq_of_compare hmatch
    rfl

end CoProvision

inductive Op where
  | request (d : Descriptor) (path : String) (params : Option Json)
  /-- `a` depends on `b`. -/
  | edge (a b : Descriptor)
  | coProvision (c : CoProvision)
  | fail (e : GraphError)

namespace GraphInput
variable (input : GraphInput)

def resourceType (ty : ResourceTypeId) : Option ResourceType := input.types.find? (·.id = ty)

def isImplicit (ty : ResourceTypeId) : Bool := (input.resourceType ty).any (·.use = .implicit)

def resolveRef (target : ResourceRef) (referrer : Descriptor) : Descriptor :=
  target.resolve referrer (input.isImplicit target.ty)

def contextFor (d : Descriptor) : ResourceContext :=
  { org := input.org, app := input.app, env := input.env, envType := input.envType, res := d }

def baseEnv : Descriptor := { ty := .baseEnv, cls := .default, id := ⟨"base-env", by decide⟩ }

variable (wid : WorkloadId)

def workload (m : Module) : Descriptor :=
  { ty := .workload, cls := m.cls, id := .workload wid }

variable (m : Module)

def workloadParams : Json :=
  .obj [("id", .str wid.text), ("class", .str m.cls.text), ("spec", .obj m.spec)]

def externalPath (key : String) : String := "modules." ++ wid.text ++ ".externals." ++ key

def externalId (key : String) (ext : External) : Except IdError ResId :=
  match ext.id with
  | some id => ResId.shared id
  | none => ResId.priv wid key

def externalOps (key : String) (ext : External) : List Op :=
  match externalId wid key ext with
  | .error e => [.fail (.invalidId (externalPath wid key) e)]
  | .ok id =>
    let dep : Descriptor := { ty := ext.ty, cls := ext.cls, id }
    [.request dep (externalPath wid key) (some (ext.params.getD .null)), .edge (workload wid m) dep]

def moduleOps : List Op :=
  .request (workload wid m) ("modules." ++ wid.text) (some (workloadParams wid m)) ::
    m.externals.toList.flatMap fun (key, ext) => externalOps wid m key ext

def sharedOps (id : String) (s : SharedResource) : List Op :=
  match ResId.shared id with
  | .error e => [.fail (.invalidId ("shared." ++ id) e)]
  | .ok rid => [.request { ty := s.ty, cls := s.cls, id := rid } ("shared." ++ id) (some (s.params.getD .null))]

/-- The resource of the set that `${shared.<id>...}` reads. -/
def sharedTarget (set : DeploymentSet) (id : String) : Option Descriptor := do
  let s ← set.shared[id]?
  let rid ← (ResId.shared id).toOption
  return { ty := s.ty, cls := s.cls, id := rid }

def specPlaceholders : List (String × RawPlaceholder × Expr) :=
  (collectPlaceholders .set "spec" (.obj m.spec)).toOption.getD []

def sharedReads : List Op :=
  (specPlaceholders m).flatMap fun (_, _, expr) =>
    match expr with
    | .shared id _ => (sharedTarget input.set id).toList.map (.edge (workload wid m))
    | _ => []

def seeds : List Op :=
  .request baseEnv "base-env" none ::
    input.set.modules.toList.flatMap (fun (wid, m) => moduleOps wid m) ++
    input.set.shared.toList.flatMap (fun (id, s) => sharedOps id s) ++
    input.set.modules.toList.flatMap (fun (wid, m) => input.sharedReads wid m)

variable (d : Descriptor)

/-- The path of a request that a definition makes for the resource `d`. -/
def definitionPath (definition : DefinitionId) (loc : String) : String :=
  "definition `" ++ definition.text ++ "` " ++ loc ++ " for `" ++ d.text ++ "`"

variable (dfn : ResourceDefinition)

def inputPlaceholders : Except PlaceholderError (List (String × RawPlaceholder × Expr)) := do
  let values ← collectPlaceholders .definition "driver_inputs.values" (.obj dfn.driverInputs.values)
  let secrets ← collectPlaceholders .definition "driver_inputs.secrets" (.obj dfn.driverInputs.secrets)
  let account ← match dfn.driverAccount with
    | some account => collectPlaceholders .driverAccount "driver_account" (.str account)
    | none => pure []
  return values ++ secrets ++ account

/-- A reference in the definition's inputs: `d` depends on the resource. -/
def referenceOps (loc : String) : Expr → List Op
  | .resource target _ =>
    let dep := input.resolveRef target d
    [.request dep (definitionPath d dfn.id loc) none, .edge d dep]
  | _ => []

/-- A reference in the params of the co-provisioned `co`, which depends on the resource. -/
def paramOps (co : Descriptor) (dfn : ResourceDefinition) (loc : String) : Expr → List Op
  | .resource target _ =>
    let dep := input.resolveRef target d
    .request dep (definitionPath d dfn.id loc) none :: if dep ≠ co then [.edge co dep] else []
  | _ => []

def provisionParamOps (co : Descriptor) (dfn : ResourceDefinition) (key : String) (prov : Provision) : List Op :=
  match collectPlaceholders .definition ("provision." ++ key ++ ".params") (prov.params.getD .null) with
  | .error e => [.fail (.placeholder dfn.id e)]
  | .ok found => found.flatMap fun (loc, _, expr) => input.paramOps d co dfn loc expr

def coEdge (co : Descriptor) (prov : Provision) : Op := if prov.isDependent then .edge d co else .edge co d

def provisionOps (key : String) (prov : Provision) : List Op :=
  let loc := "provision." ++ key
  match ResourceRef.parse key with
  | .error e => [.fail (.placeholder dfn.id { placeholder := key, location := loc, kind := .syntaxError e.text })]
  | .ok target =>
    let co := input.resolveRef target d
    [.request co (definitionPath d dfn.id loc) (some (prov.params.getD .null)), coEdge d co prov] ++
      input.provisionParamOps d co dfn key prov ++
      [.coProvision { source := d, co, matchDependents := prov.matchDependents }]

/-- The references and co-provisioned resources of `d`'s matched definition. -/
def expansion : List Op :=
  match inputPlaceholders dfn with
  | .error e => [.fail (.placeholder dfn.id e)]
  | .ok found =>
    found.flatMap (fun (loc, _, expr) => input.referenceOps d dfn loc expr) ++
      dfn.provision.toList.flatMap (fun (key, prov) => input.provisionOps d dfn key prov)

def targets (found : List (String × RawPlaceholder × Expr)) : List ResourceRef :=
  found.filterMap fun
    | (_, _, .resource target _) => some target
    | _ => none

def definitionRefs : List ResourceRef :=
  targets ((inputPlaceholders dfn).toOption.getD []) ++
    dfn.provision.toList.flatMap fun (key, prov) =>
      (ResourceRef.parse key).toOption.toList ++
        targets ((collectPlaceholders .definition ("provision." ++ key ++ ".params") (prov.params.getD .null)).toOption.getD [])

def ids : List ResId :=
  (input.seeds.filterMap fun
    | .request d _ _ => some d.id
    | _ => none) ++
  input.types.map (·.id.asResId) ++ (input.definitions.flatMap definitionRefs).filterMap (·.id)

def descriptors : List Descriptor :=
  input.types.flatMap fun ty => (.default :: input.classes.classes.map (·.2)).flatMap fun cls =>
    input.ids.map fun id => { ty := ty.id, cls, id }

end GraphInput

structure Builder where
  nodes : BTreeMap Descriptor Node
  /-- The request that fixed each node's params. -/
  explicit : BTreeMap Descriptor (String × String)
  queue : List Descriptor
  co : BTreeSet CoProvision

namespace Builder
variable (input : GraphInput) (b : Builder)

def empty : Builder := { nodes := ∅, explicit := ∅, queue := [], co := ∅ }

def insertRequest (r : Request) (requests : List Request) : List Request :=
  if r ∈ requests then requests else requests.orderedInsert (fun a b => (Request.cmp a b).isLE) r

/-- Params other than `null`. -/
def given (params : Option Json) : Option Json := params.filter (· ≠ .null)

def again (d : Descriptor) (node : Node) (path : String) (params : Option Json) : Except GraphError Builder :=
  let canonical := params.map toCanonicalString
  let node' := { node with requests := insertRequest { path, params := canonical } node.requests }
  match canonical with
  | none => .ok { b with nodes := b.nodes.insert d node' }
  | some c =>
    match b.explicit[d]? with
    | some (first, existing) =>
      if existing ≠ c then .error (if first ≤ path then .conflict d first path else .conflict d path first)
      else .ok { b with nodes := b.nodes.insert d node' }
    | none => .ok { b with
        nodes := b.nodes.insert d { node' with params := given params }
        explicit := b.explicit.insert d (path, c) }

/-- A request that supplies inputs passes some, `null` when it sets none, and all of them must agree. -/
def request (d : Descriptor) (path : String) (params : Option Json) : Except GraphError Builder :=
  if (input.resourceType d.ty).isNone then .error (.unknownType path d.ty)
  else if !input.classes.contains d.ty d.cls then .error (.missingClass path d.ty d.cls)
  else
    match b.nodes[d]? with
    | some node => b.again d node path params
    | none =>
      match selectDefinition input.definitions (input.contextFor d) with
      | .error e => .error (.noDefinition path e)
      | .ok dfn =>
        let canonical := params.map toCanonicalString
        .ok { b with
          nodes := b.nodes.insert d
            { descriptor := d, definition := dfn.id, driverType := dfn.driverType, params := given params
              requests := [{ path, params := canonical }], dependsOn := ∅ }
          explicit := canonical.elim b.explicit fun c => b.explicit.insert d (path, c)
          queue := b.queue ++ [d] }

def edge (a t : Descriptor) : Except Stop (Builder × Bool) :=
  match b.nodes[a]? with
  | none => .error .panic
  | some node =>
    .ok ({ b with nodes := b.nodes.insert a { node with dependsOn := node.dependsOn.insert t } },
      !node.dependsOn.contains t)

def apply : Op → Except Stop Builder
  | .request d path params => (b.request input d path params).mapError .error
  | .edge a t => (b.edge a t).map (·.1)
  | .coProvision c => .ok { b with co := b.co.insert c }
  | .fail e => .error (.error e)

def expand (d : Descriptor) : Except Stop Builder :=
  match b.nodes[d]? with
  | none => .error .panic
  | some node =>
    match input.definitions.find? (·.id = node.definition) with
    | none => .error .panic
    | some dfn => (input.expansion d dfn).foldlM (apply input) b

def expandAll : Nat → Builder → Except Stop Builder
  | 0, b => if b.queue.isEmpty then .ok b else .error .spin
  | bound + 1, b =>
    match b.queue with
    | [] => .ok b
    | d :: queue => do expandAll bound (← expand input { b with queue } d)

def consumers (c : CoProvision) : List Descriptor :=
  ((b.nodes.toList.map (·.2)).filter fun n =>
    n.dependsOn.contains c.source && n.descriptor ≠ c.co && n.descriptor ≠ c.source).map (·.descriptor)

/-- Adds the edges to `t`; also whether any is new. -/
def addEdges (t : Descriptor) : List Descriptor → Builder × Bool → Except Stop (Builder × Bool)
  | [], r => .ok r
  | a :: rest, (b, added) => do
    let (b, new) ← b.edge a t
    addEdges t rest (b, added || new)

def matchRound : List CoProvision → Builder × Bool → Except Stop (Builder × Bool)
  | [], r => .ok r
  | c :: rest, (b, added) => do matchRound rest (← addEdges c.co (b.consumers c) (b, added))

def matchDependents : Nat → Builder → Except Stop Builder
  | 0, _ => .error .spin
  | bound + 1, b => do
    let (b, added) ← matchRound (b.co.toList.filter (·.matchDependents)) (b, false)
    if added then matchDependents bound b else return b

end Builder

abbrev Remaining := BTreeMap Descriptor (BTreeSet Descriptor)

namespace Remaining

def ready (r : Remaining) : List Descriptor := (r.toList.filter (·.2.isEmpty)).map (·.1)

def remove (r : Remaining) (layer : List Descriptor) : Remaining :=
  (r.filter fun d _ => !layer.contains d).map fun _ deps => deps.filter (!layer.contains ·)

def follow (r : Remaining) (current : Descriptor) : Nat → List Descriptor → Except Stop (List Descriptor)
  | 0, _ => .error .spin
  | bound + 1, path =>
    match r[current]? with
    | none => .error .panic
    | some deps =>
      match deps.toList.head? with
      | none => .error .panic
      | some next =>
        match path.idxOf? next with
        | some i => .ok (path.drop i ++ [next])
        | none => follow r next bound (path ++ [next])

def findCycle (r : Remaining) : Except Stop (List Descriptor) :=
  match r.keys.head? with
  | none => .error .panic
  | some start => r.follow start r.size [start]

def layers : Nat → Remaining → Except Stop (List (List Descriptor))
  | 0, r => if r.isEmpty then .ok [] else .error .spin
  | bound + 1, r =>
    if r.isEmpty then .ok []
    else
      let layer := r.ready
      if layer.isEmpty then do throw (.error (.cycle (← r.findCycle)))
      else do return layer :: (← layers bound (r.remove layer))

end Remaining

def topologicalLayers (nodes : BTreeMap Descriptor Node) : Except Stop (List (List Descriptor)) :=
  Remaining.layers nodes.size (nodes.map fun _ n => n.dependsOn)

def expandInput (input : GraphInput) : Except Stop Builder := do
  let b ← input.seeds.foldlM (Builder.apply input) .empty
  Builder.expandAll input input.descriptors.length b

def wireInput (input : GraphInput) : Except Stop Builder := do
  let b ← expandInput input
  Builder.matchDependents (b.nodes.size * b.nodes.size + 1) b

def buildGraph (input : GraphInput) : Except Stop ResourceGraph := do
  let b ← wireInput input
  return { nodes := b.nodes, layers := ← topologicalLayers b.nodes }

end Openporch
