import Openporch.Catalog
import Openporch.Driver
import Mathlib.Data.List.Sort

/-!
# OpenTofu plans and their fingerprints

What `plan_run` of `crates/drivers/src/opentofu/mod.rs` makes of the plan that `tofu show -json` prints: the actions
it previews, and the fingerprint that a permit for it names.
-/

namespace Openporch

/-- `v[key]`: null where there is no such field. -/
def Json.at (v : Json) (key : String) : Json := (v.field? key).getD .null

namespace Tofu

/-- The action kinds of a plan change, such as `["delete", "create"]`. -/
def kinds (change : Json) : List String := ((change.at "actions").asArray?.getD []).filterMap Json.asStr?

def actionOf : List String → Option Action
  | [] | ["no-op"] | ["read"] => none
  | ["create"] => some .create
  | ["update"] => some .update
  -- `forget` drops an object from state, leaving it unmanaged
  | ["delete"] | ["forget"] => some .delete
  -- replacements and any action the driver does not know
  | _ => some .replace

structure Change where
  address : String
  actions : Json
  replacePaths : Json
  reason : Json
deriving DecidableEq

def Change.of (change : Json) : Change where
  address := (change.at "address").asStr?.getD ""
  actions := (change.at "change").at "actions"
  replacePaths := (change.at "change").at "replace_paths"
  reason := change.at "action_reason"

def Change.text (c : Change) : String := (Json.arr [.str c.address, c.actions, c.replacePaths, c.reason]).text

/-- A saved plan as the driver sees it: the call it is for, the state it was made against, if that is JSON, and what
`tofu show` prints. -/
structure Saved where
  guresid : Guresid
  destroy : Bool
  inputs : String
  state : Option Json
  shown : Json

def stateVersion : Option Json → String
  | none => "none"
  | some s => (s.at "lineage").text ++ " " ++ (s.at "serial").text

def fingerprint (sha256 : String → String) (covered : List String) : String :=
  sha256 (String.join (covered.map (· ++ "\n")))

namespace Saved
variable (p : Saved)

def resourceChanges : List Json := ((p.shown.at "resource_changes").asArray?).getD []

def effects : List (Action × Change) :=
  p.resourceChanges.filterMap fun change => (actionOf (kinds (change.at "change"))).map fun a => (a, .of change)

def outputChanges : List (Action × String) :=
  (((p.shown.at "output_changes").asObject?).getD []).filterMap fun f =>
    if kinds f.2 = [] ∨ kinds f.2 = ["no-op"] then none else some (.update, "output." ++ f.1)

def actions : List (Action × String) :=
  (p.effects.map (fun e => (e.1, e.2.address)) ++ p.outputChanges).insertionSort fun a b => a.2 ≤ b.2

/-- What a permit covers: the resource, the call, the inputs, the state it plans against and each change with its
reasons. Values are left out, so the fingerprint reveals nothing about secrets. -/
def covered : List String :=
  [p.guresid.text, if p.destroy then "destroy" else "apply", p.inputs, stateVersion p.state] ++
    (p.effects.map (·.2.text)).insertionSort (· ≤ ·)

def fingerprint (sha256 : String → String) : String := Tofu.fingerprint sha256 p.covered

def destructive : List String := (p.actions.filter fun a => a.1 = .delete || a.1 = .replace).map (·.2)

end Saved

def toPlan : List (Action × String) × String → Plan
  | ([], _) => .noEffects
  | (actions, fingerprint) => .actions actions fingerprint

end Tofu
end Openporch
