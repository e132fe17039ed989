import Openporch.Planner.Preview

/-!
# The input fingerprint

`fingerprint` and `NodeRun::job` of `crates/engine/src/planner.rs`. The fingerprint is a digest of canonical JSON, so it
says of the definition, the params and the dependencies' outputs what that says.
-/

namespace Openporch
open Asking Fallible

section
variable {sha256 : String → String} {node node' : Node} {version version' : Int} {dfn dfn' : ResourceDefinition}
  {deps deps' : BTreeMap Descriptor ResourceOutputs}

end

namespace Engine.Deployment

def settles (node : Node) : Expr → Bool
  | .context .resType | .context .resClass | .context .resId | .context .resGuresid | .pod _ => true
  | .resource target _ => node.dependsOn.contains (readTarget node.descriptor target)
  | _ => false

section
variable {dep dep' : Engine.Deployment} {node node' : Node} {dfn : ResourceDefinition}
  {done done' : BTreeMap Descriptor ResourceOutputs} {guresid : Guresid} {e : Expr}

end

variable {node : Node} {dfn : ResourceDefinition}

end Engine.Deployment

def JobInputs.greeting (inputs : JobInputs) : Option Json :=
  match inputs.resource with
  | .value v => (v.field? "spec").bind (·.field? "greeting")
  | _ => none

end Openporch
