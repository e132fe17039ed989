import Openporch.Ids
import Openporch.Json

/-!
# Resource types

`crates/core/src/catalog.rs`: the built-in types, how a type is used, and the check of a driver's outputs against the output
schema of the resource's type.
-/

namespace Openporch

namespace Json

/-- `Value::get` with a key. -/
def field? : Json → String → Option Json
  | obj fields, key => JsonMap.get fields key
  | _, _ => none

def asStr? : Json → Option String
  | str s => some s
  | _ => none

def asArray? : Json → Option (List Json)
  | arr items => some items
  | _ => none

def asObject? : Json → Option JsonMap
  | obj fields => some fields
  | _ => none

end Json

namespace ResourceTypeId

def workload : ResourceTypeId := ⟨"workload", by decide⟩

def baseEnv : ResourceTypeId := ⟨"base-env", by decide⟩

def config : ResourceTypeId := ⟨"config", by decide⟩

def dns : ResourceTypeId := ⟨"dns", by decide⟩

def dynamodbTable : ResourceTypeId := ⟨"dynamodb-table", by decide⟩

def awsRole : ResourceTypeId := ⟨"aws-role", by decide⟩

def awsPolicy : ResourceTypeId := ⟨"aws-policy", by decide⟩

end ResourceTypeId

inductive ResourceUse where
  | direct
  | indirect
  /-- Exists once per environment. -/
  | implicit
deriving DecidableEq, Repr

structure ResourceType where
  id : ResourceTypeId
  use : ResourceUse
  outputsSchema : Json
deriving DecidableEq

inductive OutputKind where
  | value
  | secret
deriving DecidableEq

structure OutputError where
  ty : ResourceTypeId
  output : String
  problem : String
deriving DecidableEq

def OutputError.text (e : OutputError) : String :=
  "output `" ++ e.output ++ "` of resource type `" ++ e.ty.text ++ "` " ++ e.problem

def jsonTypeMatches (want : String) (v : Json) : Bool :=
  match want, v with
  | "string", .str _ | "integer", .num (.posInt _) | "integer", .num (.negInt _)
  | "number", .num _ | "boolean", .bool _ | "object", .obj _ | "array", .arr _ | "null", .null => true
  | "string", _ | "integer", _ | "number", _ | "boolean", _ | "object", _ | "array", _ | "null", _ => false
  | _, _ => true

namespace ResourceType
variable (ty : ResourceType) (kind : OutputKind)

def section? : Option JsonMap := do
  let props ← ty.outputsSchema.field? "properties"
  let sect ← props.field? (match kind with | .value => "values" | .secret => "secrets")
  sect.asObject?

def declared : List (String × Json × Bool) :=
  match ty.section? kind with
  | none => []
  | some sect =>
    let required := ((JsonMap.get sect "required").bind Json.asArray?).getD [] |>.filterMap Json.asStr?
    ((JsonMap.get sect "properties").bind Json.asObject?).getD [] |>.map fun (k, v) => (k, v, required.contains k)

def isOpen : Bool :=
  ((ty.section? kind).bind (JsonMap.get · "additionalProperties")).all (· ≠ .bool false)

def outputKind (name : String) : Option OutputKind :=
  [OutputKind.value, .secret].find? fun kind => (ty.declared kind).any (·.1 = name)

def hasOpenOutputs : Bool := ty.isOpen .value || ty.isOpen .secret

def outputErr (output problem : String) : OutputError := { ty := ty.id, output, problem }

def checkValues (values : JsonMap) (secrets : List String) :
    List (String × Json × Bool) → Except OutputError Unit
  | [] => .ok ()
  | (name, schema, required) :: rest =>
    match JsonMap.get values name with
    | some v =>
      match (schema.field? "type").bind Json.asStr? with
      | some want =>
        if jsonTypeMatches want v then checkValues values secrets rest
        else .error (ty.outputErr name ("must be of type " ++ want))
      | none => checkValues values secrets rest
    | none =>
      if secrets.contains name then .error (ty.outputErr name "must be a value output, not a secret")
      else if required then .error (ty.outputErr name "is missing")
      else checkValues values secrets rest

def checkSecrets (values : JsonMap) (secrets : List String) :
    List (String × Json × Bool) → Except OutputError Unit
  | [] => .ok ()
  | (name, _, required) :: rest =>
    if (JsonMap.get values name).isSome then .error (ty.outputErr name "must be a secret output, not a value")
    else if required && !secrets.contains name then .error (ty.outputErr name "is missing")
    else checkSecrets values secrets rest

def validateOutputs (values : JsonMap) (secrets : List String) : Except OutputError Unit := do
  if let some name := values.keys.find? secrets.contains then
    throw (ty.outputErr name "must be a secret output, not a value")
  ty.checkValues values secrets (ty.declared .value)
  ty.checkSecrets values secrets (ty.declared .secret)

def validateSecretOutput (name : String) (value : Json) : Except OutputError Unit :=
  match (ty.declared .secret).find? (·.1 = name) with
  | none => .ok ()
  | some (_, schema, _) =>
    match (schema.field? "type").bind Json.asStr? with
    | some want =>
      if jsonTypeMatches want value then .ok () else .error (ty.outputErr name ("must be of type " ++ want))
    | none => .ok ()

end ResourceType

section
open ResourceUse

def outputs (values : List (String × String × Bool)) (secrets : List (String × Bool)) (isOpen : Bool) : Json :=
  let sect (props : JsonMap) (required : List String) : Json :=
    .obj [("type", .str "object"), ("properties", .obj props), ("required", .arr (required.map .str)),
      ("additionalProperties", .bool isOpen)]
  .obj [("$schema", .str "https://json-schema.org/draft/2020-12/schema"), ("type", .str "object"),
    ("properties", .obj [
      ("values", sect (values.map fun (n, t, _) => (n, .obj [("type", .str t)])) ((values.filter (·.2.2)).map (·.1))),
      ("secrets", sect (secrets.map fun (n, _) => (n, .obj [("type", .str "string")]))
        ((secrets.filter (·.2)).map (·.1)))])]

def builtinTypes : List ResourceType :=
  let db := outputs [("host", "string", true), ("name", "string", true), ("port", "integer", true)]
    [("username", true), ("password", true)] false
  [⟨.workload, implicit, outputs [("url", "string", false)] [] true⟩,
    ⟨.baseEnv, implicit, outputs [] [] true⟩,
    ⟨⟨"k8s-cluster", by decide⟩, implicit, outputs [("name", "string", true), ("server", "string", false),
      ("loadbalancer", "string", false), ("region", "string", false)] [("credentials", false)] false⟩,
    ⟨⟨"k8s-namespace", by decide⟩, implicit, outputs [("namespace", "string", true)] [] false⟩,
    ⟨⟨"k8s-service-account", by decide⟩, indirect, outputs [("name", "string", true)] [] false⟩,
    ⟨.config, direct, outputs [] [] true⟩,
    ⟨.dns, direct, outputs [("host", "string", true)] [] false⟩,
    ⟨⟨"route", by decide⟩, direct, outputs [] [] false⟩,
    ⟨⟨"postgres", by decide⟩, direct, db⟩,
    ⟨⟨"postgres-instance", by decide⟩, indirect, outputs [("host", "string", true), ("port", "integer", true)]
      [("username", true), ("password", true)] false⟩,
    ⟨⟨"mysql", by decide⟩, direct, db⟩,
    ⟨⟨"redis", by decide⟩, direct, outputs [("host", "string", true), ("port", "integer", true)]
      [("username", false), ("password", true)] false⟩,
    ⟨⟨"s3", by decide⟩, direct, outputs [("bucket", "string", true), ("region", "string", true),
      ("arn", "string", false)] [] false⟩,
    ⟨⟨"sqs", by decide⟩, direct, outputs [("arn", "string", true), ("url", "string", true),
      ("region", "string", true)] [] false⟩,
    ⟨⟨"sns-topic", by decide⟩, direct, outputs [("arn", "string", true), ("region", "string", true),
      ("name", "string", false)] [] false⟩,
    ⟨.dynamodbTable, direct, outputs [("name", "string", true), ("arn", "string", true), ("region", "string", true),
      ("stream_arn", "string", false)] [] false⟩,
    ⟨.awsRole, indirect, outputs [("arn", "string", true), ("name", "string", false)] [] false⟩,
    ⟨.awsPolicy, indirect, outputs [("arn", "string", true)] [] false⟩]

end

end Openporch
