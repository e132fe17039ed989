import Openporch.Executor
import Openporch.JsonAlike

/-!
# The resource variables

`split_resource` of `crates/drivers/src/opentofu/mod.rs`, which tells what goes into the plain variable `resource` from
what goes into `resource_secrets`: every value at a secret path is taken out of its input and put alone at that path
among the secrets.
-/

namespace Openporch.Tofu.Inputs

/-- `Map::remove` where fields keep their order: the last one takes the place. -/
def swapRemove {α : Type} (key : String) (fields : List (String × α)) : List (String × α) :=
  match fields.getLast? with
  | none => []
  | some last =>
    if last.1 = key then fields.dropLast
    else if fields.any (·.1 = key) then fields.dropLast.map fun f => if f.1 = key then last else f
    else fields

/-- Removes the value at the path: from an object its key, in an array it becomes `null`. The value and what is left. -/
def take : List String → Json → Option (Json × Json)
  | [], v => some (v, .null)
  | key :: path, .obj m =>
    if path = [] then (JsonMap.get m key).map fun x => (x, .obj (swapRemove key m))
    else (JsonMap.get m key).bind fun v => (take path v).map fun (x, v') => (x, .obj (JsonMap.insert m key v'))
  | key :: path, .arr items =>
    (parseU64 key.toList).bind fun i => items[i]?.bind fun v => (take path v).map fun (x, v') => (x, .arr (items.set i v'))
  | _ :: _, _ => none

def objectAt (m : JsonMap) (key : String) : JsonMap :=
  match m.get key with
  | some (.obj c) => c
  | _ => []

def put (value : Json) : List String → JsonMap → JsonMap
  | [], m => m
  | [last], m => m.insert last value
  | key :: next :: path, m => m.insert key (.obj (put value (next :: path) (objectAt m key)))

variable (paths : List (List String))

def pathsOf (key : String) : List (List String) :=
  ((paths.filter fun p => p.head? = some key).filter fun p =>
    !paths.any fun q => q.length < p.length && q.isPrefixOf p).map List.tail

def move (left : Json × JsonMap) (path : List String) : Option (Json × JsonMap) :=
  (take path left.1).map fun (x, v) => (v, put x path left.2)

def splitInput (out : JsonMap × JsonMap) (input : String × Json) : JsonMap × JsonMap :=
  let ps := pathsOf paths input.1
  match ps.foldlM move (input.2, []) with
  | some (v, moved) =>
    if !ps.isEmpty && !ps.any List.isEmpty then (out.1.insert input.1 v, out.2.insert input.1 (.obj moved))
    else (out.1, out.2.insert input.1 input.2)
  | none => (out.1, out.2.insert input.1 input.2)

def splitResource (req : DriverRequest) : JsonMap × JsonMap :=
  req.resourceSecrets.foldl (splitInput req.resourceSecretPaths) (req.resource, [])

def setAt (x : Json) : List String → Json → Json
  | [], _ => x
  | key :: path, .obj m => .obj (JsonMap.insert m key (setAt x path ((JsonMap.get m key).getD .null)))
  | key :: path, .arr items => .arr (items.mapIdx fun i v => if toString i = key then setAt x path v else v)
  | _ :: _, v => v

def overlayInput (ps : List (List String)) (secret v : Json) : Json :=
  ps.foldr (fun p v => (secret.descend p).elim v fun x => setAt x p v) v

/-- The secrets put into the plain part, at their paths and nowhere else. -/
def overlay (plain secrets : JsonMap) : JsonMap :=
  secrets.foldl (fun m f =>
    m.insert f.1 (overlayInput (Json.pathsBelow f.1 paths) f.2 ((plain.get f.1).getD .null))) plain

end Openporch.Tofu.Inputs
