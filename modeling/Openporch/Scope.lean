import Openporch.Executor
import Openporch.Lib.Ask
import Openporch.Maps
import Openporch.Placeholder

/-!
# Resolving placeholders

`resolve_value`, `collect_placeholders` and `MapScope` of `crates/core/src/placeholder.rs`. The resolver is a
computation that asks a scope for what each placeholder reads.
-/

namespace Openporch
open Asking

inductive Lookup where
  | value (v : Json)
  | secret (r : SecretRef)
deriving DecidableEq

structure Found where
  lookup : Lookup
  source : Option SecretSource
deriving DecidableEq

inductive Sink where
  /-- Secrets are rejected. -/
  | plain
  /-- Secrets are kept as expressions. -/
  | secret
deriving DecidableEq

abbrev ResolveM := Ask Expr Reason Found PlaceholderError

variable (dialect : Dialect)

def lookUp (sink : Sink) (location : String) (p : RawPlaceholder) : ResolveM Lookup :=
  let err (kind : PlaceholderErrorKind) : PlaceholderError := { placeholder := p.text, location, kind }
  match Expr.interpret p dialect with
  | .error k => .fail (err k)
  | .ok e => .ask e (fun r => err (.unresolvable r)) fun found =>
    match found.lookup, sink with
    | .secret _, .plain => .fail (err .secretInNonSecret)
    | l, _ => .done l

def lookUps (sink : Sink) (location : String) : List RawPlaceholder → ResolveM (List Lookup)
  | [] => return []
  | p :: rest => do return (← lookUp dialect sink location p) :: (← lookUps sink location rest)

def pushLiteral (parts : List SecretPart) (s : String) : List SecretPart :=
  match parts.getLast? with
  | some (.literal last) => parts.dropLast ++ [.literal (last ++ s)]
  | _ => if s.isEmpty then parts else parts ++ [.literal s]

def pushLookup (parts : List SecretPart) : Lookup → List SecretPart
  | .value (.str v) => pushLiteral parts v
  | .value v => pushLiteral parts v.text
  | .secret r => parts ++ [.secret r]

def fillIn (filled : List SecretPart) : List Part → List Lookup → List SecretPart
  | .literal l :: rest, lookups => fillIn (pushLiteral filled l) rest lookups
  | .placeholder _ :: rest, l :: lookups => fillIn (pushLookup filled l) rest lookups
  | _, _ => filled

def assemble (parts : List Part) (lookups : List Lookup) : Resolved :=
  match parts, lookups with
  | [.placeholder _], [.value v] => .value v
  | [.placeholder _], [.secret r] => .secret ⟨[.secret r]⟩
  | parts, lookups =>
    let filled := fillIn [] parts lookups
    if (filled.any fun | .secret _ => true | .literal _ => false) then .secret ⟨filled⟩
    else .value (.str (String.join (filled.map fun | .literal s => s | .secret _ => "")))

def resolveString (sink : Sink) (location s : String) : ResolveM Resolved :=
  match parseTemplate s with
  | .error kind => .fail { placeholder := s, location, kind }
  | .ok parts => do
    let lookups ← lookUps dialect sink location (placeholders parts)
    return assemble parts lookups

def Resolved.ofItems (items : List Resolved) : Resolved :=
  match items.mapM fun | .value v => some v | _ => none with
  | some vs => .value (.arr vs)
  | none => .array items

def Resolved.ofFields (fields : List (String × Resolved)) : Resolved :=
  match fields.mapM fun | (k, .value v) => some (k, v) | _ => none with
  | some vs => .value (.obj vs)
  | none => .object fields

mutual

def resolveValue (dialect : Dialect) (sink : Sink) (location : String) : Json → ResolveM Resolved
  | .str s => resolveString dialect sink location s
  | .arr items => do return .ofItems (← resolveItems dialect sink location 0 items)
  | .obj fields => do return .ofFields (← resolveFields dialect sink location fields)
  | other => return .value other

def resolveItems (dialect : Dialect) (sink : Sink) (location : String) (i : Nat) : List Json → ResolveM (List Resolved)
  | [] => return []
  | v :: rest => do
    let r ← resolveValue dialect sink (location ++ "[" ++ toString i ++ "]") v
    return r :: (← resolveItems dialect sink location (i + 1) rest)

def resolveFields (dialect : Dialect) (sink : Sink) (location : String) :
    List (String × Json) → ResolveM (List (String × Resolved))
  | [] => return []
  | (k, v) :: rest => do
    let r ← resolveValue dialect sink (location ++ "." ++ k) v
    return (k, r) :: (← resolveFields dialect sink location rest)

end

def collectOne (location : String) (p : RawPlaceholder) : Except PlaceholderError (String × RawPlaceholder × Expr) :=
  match Expr.interpret p dialect with
  | .error kind => .error { placeholder := p.text, location, kind }
  | .ok e => .ok (location, p, e)

def collectString (location s : String) : Except PlaceholderError (List (String × RawPlaceholder × Expr)) :=
  match parseTemplate s with
  | .error kind => .error { placeholder := s, location, kind }
  | .ok parts => (placeholders parts).mapM (collectOne dialect location)

mutual

/-- `collect_placeholders`: every placeholder in the value, interpreted, with its location. -/
def collectPlaceholders (dialect : Dialect) (location : String) :
    Json → Except PlaceholderError (List (String × RawPlaceholder × Expr))
  | .str s => collectString dialect location s
  | .arr items => collectItems dialect location 0 items
  | .obj fields => collectFields dialect location fields
  | _ => return []

def collectItems (dialect : Dialect) (location : String) (i : Nat) :
    List Json → Except PlaceholderError (List (String × RawPlaceholder × Expr))
  | [] => return []
  | v :: rest => do
    let found ← collectPlaceholders dialect (location ++ "[" ++ toString i ++ "]") v
    return found ++ (← collectItems dialect location (i + 1) rest)

def collectFields (dialect : Dialect) (location : String) :
    List (String × Json) → Except PlaceholderError (List (String × RawPlaceholder × Expr))
  | [] => return []
  | (k, v) :: rest => do
    let found ← collectPlaceholders dialect (location ++ "." ++ k) v
    return found ++ (← collectFields dialect location rest)

end

structure ResourceOutputs where
  values : JsonMap
  secrets : BTreeMap String SecretRef
  guresid : Option Guresid
  /-- The cloud account the resource's definition used. -/
  account : Option String

def walk (v : Json) : List Segment → Except Reason Json
  | [] => .ok v
  | seg :: path =>
    let below : Option Json := match seg, v with
      | .index i, .arr items => items[i]?
      | .name k, .obj fields | .quoted k, .obj fields => JsonMap.get fields k
      | _, _ => none
    match below with
    | some v => walk v path
    | none => .error (.noField seg.text)

def ResourceOutputs.get (o : ResourceOutputs) : List Segment → Except Reason Lookup
  | [] => .error .noOutputName
  | first :: rest =>
    match first.key with
    | none => .error .outputNamesAreStrings
    | some name =>
      match o.secrets[name]? with
      | some r => if rest.isEmpty then .ok (.secret r) else .error (.secretOutputFields name)
      | none =>
        match JsonMap.get o.values name with
        | none => .error (.noOutput name)
        | some v => (walk v rest).map .value

inductive SharedValue where
  | value (v : Json)
  | secret (r : SecretRef)
deriving DecidableEq

structure MapScope where
  context : ContextKey → Option Json
  /-- The resource whose inputs are resolved, for partial references. -/
  referrer : Option Descriptor
  implicitTypes : List ResourceTypeId
  resources : BTreeMap Descriptor ResourceOutputs
  externals : BTreeMap String ResourceOutputs
  shared : BTreeMap String ResourceOutputs
  values : BTreeMap String SharedValue

namespace MapScope
variable (s : MapScope)

def descriptorFor (target : ResourceRef) : Except Reason Descriptor :=
  let implicit := s.implicitTypes.contains target.ty
  match s.referrer, target.cls, target.id with
  | some r, _, _ => .ok (target.resolve r implicit)
  | none, some cls, some id => .ok { ty := target.ty, cls, id }
  | none, _, _ =>
    if implicit then .ok (target.resolve { ty := target.ty, cls := .default, id := ⟨"x", by decide⟩ } true)
    else .error (.needsClassAndId target.text)

def outputsFor : Expr → Except Reason ResourceOutputs
  | .resource target _ => do
    let d ← s.descriptorFor target
    s.resources[d]?.elim (.error (.notInGraph d.text)) .ok
  | .externals key _ => s.externals[key]?.elim (.error (.noDependency key)) .ok
  | .shared id _ => s.shared[id]?.elim (.error (.noShared id)) .ok
  | _ => .error .noOutputName

def lookupValue (key : String) (path : List Segment) : Except Reason Lookup :=
  match s.values[key]? with
  | some (.value v) => (walk v path).map .value
  | some (.secret r) => if path.isEmpty then .ok (.secret r) else .error (.secretValueFields key)
  | none => .error (.noValue key)

def lookupResource (target : ResourceRef) (field : ResourceField) : Except Reason Lookup := do
  let d ← s.descriptorFor target
  let outputs ← s.resources[d]?.elim (.error (.notInGraph d.text)) .ok
  match field with
  | .outputs path => outputs.get path
  | .guresid => outputs.guresid.elim (.error (.noGuresid d.text)) fun g => .ok (.value (.str g.text))
  | .account => outputs.account.elim (.error (.noAccount d.text)) fun a => .ok (.value (.str a))

def lookup : Expr → Except Reason Lookup
  | .context key => (s.context key).elim (.error (.noContext key.path)) fun v => .ok (.value v)
  | .resource target field => s.lookupResource target field
  | .externals key path => do (← s.externals[key]?.elim (.error (.noDependency key)) .ok).get path
  | .shared id path => do (← s.shared[id]?.elim (.error (.noShared id)) .ok).get path
  | .values key path => s.lookupValue key path
  | .pod path => .error (.pod (".".intercalate path))

def outputOf (e : Expr) : Option Guresid :=
  match s.outputsFor e with
  | .ok outputs => outputs.guresid
  | .error _ => none

/-- `Recording`: the look-up, and where a secret it finds came from. -/
def answer (e : Expr) : Except Reason Found := do
  let lookup ← s.lookup e
  let source := match lookup, e with
    | .value _, _ => none
    | .secret _, .values _ _ => some .values
    | .secret _, e => (s.outputOf e).map .output
  return { lookup, source }

end MapScope
end Openporch
