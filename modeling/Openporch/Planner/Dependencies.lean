import Openporch.Planner.Scheduling
import Openporch.Translation

/-!
# What a workload reads of its dependencies

A placeholder of a workload document names a dependency by its key. It reads the dependency's own output exactly when
the printed text closes where it should and, for a shared ID, the dependency is the last resource of the graph with that
ID.
-/

namespace Openporch
open Engine.Deployment List Fallible GraphInput

def ResourceRequest.external (r : ResourceRequest) : External :=
  { ty := r.ty, cls := r.cls.getD .default, id := r.id, params := r.params.filter (· ≠ .null) }

/-- The deployment is of the set, which has the workload; its node is `n`. -/
structure Engine.Deployment.Runs (dep : Engine.Deployment) (input : GraphInput) (wid : WorkloadId) (m : Module) (n : Node) :
    Prop where
  graph : buildGraph input = .ok dep.graph
  module : input.set.modules[wid]? = some m
  node : dep.graph.nodes[GraphInput.workload wid m]? = some n

section
variable {input : GraphInput} {b : Builder} {dep : Engine.Deployment} {wid : WorkloadId} {m : Module} {n : Node}
  {key path : String} {r : ResourceRequest} {x : Descriptor} {done : BTreeMap Descriptor ResourceOutputs}

variable {α : Type} {k output : String} {p : RawPlaceholder} {body : List Char} {out : String × Option String}

variable {outputs : ResourceOutputs}

theorem mem_finished {other : Node} {req : Request} : (other, req, outputs) ∈ dep.finished done ↔
    ∃ d : Descriptor, dep.graph.nodes[d]? = some other ∧ req ∈ other.requests ∧ done[other.descriptor]? = some outputs := by
  unfold finished
  rw [mem_flatMap]
  constructor
  · rintro ⟨⟨d, other'⟩, hmem, h⟩
    have hother := Std.ExtTreeMap.mem_toList_iff_getElem?_eq_some.1 hmem
    dsimp only at h
    split at h
    · cases h
    · rename_i outputs' houtputs
      obtain ⟨req', hreq, heq⟩ := mem_map.1 h
      cases heq
      exact ⟨d, hother, hreq, houtputs⟩
  · rintro ⟨d, hother, hreq, houtputs⟩
    refine ⟨(d, other), Std.ExtTreeMap.mem_toList_iff_getElem?_eq_some.2 hother, ?_⟩
    dsimp only
    rw [houtputs]
    exact mem_map.2 ⟨req, hreq, rfl⟩

def Engine.Deployment.allDone (dep : Engine.Deployment) (outputs : Descriptor → ResourceOutputs) :
    BTreeMap Descriptor ResourceOutputs := dep.graph.nodes.map fun d _ => outputs d

theorem allDone_get {outputs} (hx : x ∈ dep.graph.nodes) : (dep.allDone outputs)[x]? = some (outputs x) := by
  obtain ⟨other, hother⟩ := BTreeMap.mem_iff.1 hx
  simp [allDone, hother]

def ResourceOutputs.only (output : String) (rest : List Segment) : ResourceOutputs :=
  .having output (rest ++ [.name "x"])

variable {resources : IndexMap ResourceRequest} {types : List ResourceType}

section
variable {w : Workload} {types : List ResourceType} {c : ConvertedWorkload}

end

end

variable (text : String)

def hubVariables : IndexMap String := ⟨[("HUB", text)], by simp⟩

def hubContainers : IndexMap Container := ⟨[("main", { image := "hub", vars := hubVariables text })], by simp⟩

def hubWorkload : Workload :=
  { metadata := { name := greeterDefinition.id }
    containers := some (hubContainers text)
    resources := ⟨[("east", { ty := .dns, id := some "hub" }), ("west", { ty := .dynamodbTable, id := some "hub" }),
      ("zone", { ty := .dns }), ("settings", { ty := .config })], by decide⟩ }

def hubText (path : String) : String := "$\x7bresources." ++ path ++ "\x7d"

def quotePlaceholder : RawPlaceholder :=
  { text := hubText "settings[\"it's\"]", segments := [.name "resources", .name "settings", .quoted "it's"] }

end Openporch
