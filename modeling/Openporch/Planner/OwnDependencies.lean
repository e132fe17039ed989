import Openporch.Planner.Dependencies
import Openporch.Planner.References

/-!
# What reaches a workload's job

A workload sees its dependencies by their keys and, by descriptor, what is co-provisioned with them. `scope_for` finds
the latter by the text of the requests' paths, which name the definition that asked and the resource it asked for.
-/

namespace Openporch
open Engine.Deployment List Fallible GraphInput BTreeMap

variable {input : GraphInput} {b : Builder} {d x : Descriptor} {loc path : String} {dfn : DefinitionId}

namespace GraphInput

/-- The module has `x` as a dependency with the key. -/
def Declares (wid : WorkloadId) (m : Module) (key : String) (x : Descriptor) : Prop :=
  ∃ ext id, m.externals[key]? = some ext ∧ externalId wid key ext = .ok id ∧ x = { ty := ext.ty, cls := ext.cls, id }

theorem Declares.unique {wid : WorkloadId} {m : Module} {key : String} {x x' : Descriptor} (h : Declares wid m key x)
    (h' : Declares wid m key x') : x = x' := by
  obtain ⟨ext, id, hext, hid, rfl⟩ := h
  obtain ⟨ext', id', hext', hid', rfl⟩ := h'
  rw [hext] at hext'
  cases hext'
  rw [hid] at hid'
  cases hid'
  rfl

end GraphInput

theorem mem_of_foldl_insert {α : Type} {l : List (String × α)} {m : BTreeMap String α} {k : String} {v : α}
    (h : (l.foldl (fun m x => m.insert x.1 x.2) m)[k]? = some v) : (k, v) ∈ l ∨ m[k]? = some v := by
  induction l generalizing m with
  | nil => exact .inr h
  | cons x l ih =>
    rcases ih h with hin | hrest
    · exact .inl (mem_cons_of_mem _ hin)
    · rw [get_insert] at hrest
      split at hrest
      · rename_i hk
        cases hrest
        exact .inl (hk ▸ mem_cons_self)
      · exact .inr hrest

theorem foldl_insert_mem {α : Type} {l : List (String × α)} {m : BTreeMap String α} {k : String}
    (h : k ∈ m ∨ ∃ v, (k, v) ∈ l) : k ∈ l.foldl (fun m x => m.insert x.1 x.2) m := by
  induction l generalizing m with
  | nil => exact h.resolve_right (by simp)
  | cons x l ih =>
    refine ih ?_
    rw [Std.ExtTreeMap.mem_insert, Std.LawfulEqOrd.compare_eq_iff_eq]
    rcases h with h | ⟨v, h⟩
    · exact .inl (.inr h)
    · rcases mem_cons.1 h with rfl | h
      · exact .inl (.inl rfl)
      · exact .inr ⟨v, h⟩

section
variable {dep : Engine.Deployment} {wid : WorkloadId} {m : Module} {n : Node} {key : String} {outputs : ResourceOutputs}
  {done : BTreeMap Descriptor ResourceOutputs}

theorem mem_ownPaths_workload (hw : dep.Runs input wid m n) {own : String} : own ∈ ownPaths n ↔ own = "modules." ++ wid.text := by
  rw [mem_ownPaths hw.graph hw.node]
  constructor
  · rintro ⟨wid', m', -, heq, rfl⟩
    rw [workload_injective heq]
  · rintro rfl
    exact ⟨wid, m, hw.module, rfl, rfl⟩

theorem mem_keyedExternals (hw : dep.Runs input wid m n) :
    (key, x, outputs) ∈ dep.keyedExternals n done ↔ Declares wid m key x ∧ done[x]? = some outputs := by
  have hpath : ∀ {req : Request}, externalKey ("modules." ++ wid.text) req = some key ↔
      req.path = externalPath wid key := by
    intro req
    rw [externalKey_eq_some]
    simp [externalPath, String.append_assoc]
  unfold keyedExternals
  rw [mem_flatMap]
  constructor
  · rintro ⟨⟨other, req, outputs'⟩, hfin, hmem⟩
    obtain ⟨own, hown, hmem⟩ := mem_filterMap.1 hmem
    obtain ⟨key', hkey, heq⟩ := Option.map_eq_some_iff.1 hmem
    cases heq
    obtain ⟨d, hother, hreq, hdone⟩ := mem_finished.1 hfin
    rw [(mem_ownPaths_workload hw).1 hown, hpath] at hkey
    obtain ⟨m', ext, id, hm', hext, hid, hd⟩ := Asks.external_of (built_asks hw.graph hother hreq)
      (hkey.trans (by rw [externalPath, String.append_assoc]))
    rw [hw.module] at hm'
    cases hm'
    rw [built_descriptor hw.graph hother] at hdone ⊢
    exact ⟨⟨ext, id, hext, hid, hd⟩, hdone⟩
  · rintro ⟨⟨ext, id, hext, hid, rfl⟩, hdone⟩
    obtain ⟨other, hother, hreq⟩ := built_seed hw.graph (.external hw.module hext hid)
    have hdesc := built_descriptor hw.graph hother
    refine ⟨(other, _, outputs), mem_finished.2 ⟨_, hother, hreq, by rw [hdesc, hdone]⟩, ?_⟩
    refine mem_filterMap.2 ⟨_, (mem_ownPaths_workload hw).2 rfl, ?_⟩
    rw [hpath.2 rfl, hdesc]
    rfl

theorem mem_coExternals (hw : dep.Runs input wid m n) : (key, outputs) ∈ dep.coExternals n done ↔
      ∃ x ∈ n.dependsOn, key = x.text ∧ done[x]? = some outputs ∧ (∀ k, ¬ Declares wid m k x) ∧
        ∃ other, dep.graph.nodes[x]? = some other ∧ isCoprovisioned n other = true := by
  have hkeyed : ∀ {x : Descriptor}, done[x]? = some outputs →
      (x ∈ (dep.keyedExternals n done).map (·.2.1) ↔ ∃ k, Declares wid m k x) := by
    intro x hdone
    rw [mem_map]
    constructor
    · rintro ⟨⟨k, x, outputs'⟩, hmem, rfl⟩
      exact ⟨k, ((mem_keyedExternals hw).1 hmem).1⟩
    · rintro ⟨k, hk⟩
      exact ⟨(k, x, outputs), (mem_keyedExternals hw).2 ⟨hk, hdone⟩, rfl⟩
  have hown : (ownPaths n).isEmpty = false := by
    rw [isEmpty_eq_false_iff_exists_mem]
    exact ⟨_, (mem_ownPaths_workload hw).2 rfl⟩
  unfold coExternals
  rw [if_neg (by simp [hown]), mem_filterMap]
  constructor
  · rintro ⟨x, hx, h⟩
    split at h
    · cases h
    · rename_i hnot
      obtain ⟨other, hother, h⟩ := Option.bind_eq_some_iff.1 h
      split at h
      · rename_i hco
        obtain ⟨outputs', hdone, heq⟩ := Option.map_eq_some_iff.1 h
        cases heq
        rw [contains_iff_mem, hkeyed hdone, not_exists] at hnot
        exact ⟨x, Std.ExtTreeSet.mem_toList.1 hx, rfl, hdone, hnot, other, hother, hco⟩
      · cases h
  · rintro ⟨x, hx, rfl, hdone, hnot, other, hother, hco⟩
    refine ⟨x, Std.ExtTreeSet.mem_toList.2 hx, ?_⟩
    rw [if_neg (by rw [contains_iff_mem, hkeyed hdone, not_exists]; exact hnot), hother]
    simp [hco, hdone]

namespace Engine.Deployment

/-- The resource is handed to the workload by its descriptor: something co-provisioned with a dependency, which the workload
does not declare itself. -/
def HandsCo (dep : Engine.Deployment) (wid : WorkloadId) (m : Module) (n : Node) (x : Descriptor) : Prop :=
  x ∈ n.dependsOn ∧ (∀ key, ¬ Declares wid m key x) ∧
    ∃ other, dep.graph.nodes[x]? = some other ∧ isCoprovisioned n other = true

def Hands (dep : Engine.Deployment) (wid : WorkloadId) (m : Module) (n : Node) (key : String) (x : Descriptor) : Prop :=
  Declares wid m key x ∨ key = x.text ∧ dep.HandsCo wid m n x

theorem externals_handed (hw : dep.Runs input wid m n) (h : (dep.externalScope n done)[key]? = some outputs) :
    ∃ x, dep.Hands wid m n key x ∧ done[x]? = some outputs := by
  rcases mem_of_foldl_insert h with hmem | hempty
  · rcases mem_append.1 hmem with hmem | hmem
    · obtain ⟨⟨key', x, outputs'⟩, hkeyed, heq⟩ := mem_map.1 hmem
      cases heq
      obtain ⟨hdecl, houtputs⟩ := (mem_keyedExternals hw).1 hkeyed
      exact ⟨x, .inl hdecl, houtputs⟩
    · obtain ⟨x, hx, hkey, houtputs, hco⟩ := (mem_coExternals hw).1 hmem
      exact ⟨x, .inr ⟨hkey, hx, hco⟩, houtputs⟩
  · simp at hempty

theorem handed_mem (hw : dep.Runs input wid m n) (h : dep.Hands wid m n key x) (hdone : done[x]? = some outputs) :
    key ∈ dep.externalScope n done := by
  rcases h with hdecl | ⟨rfl, hx, hco⟩
  · have hkeyed := (mem_keyedExternals hw).2 ⟨hdecl, hdone⟩
    exact foldl_insert_mem (.inr ⟨outputs, mem_append_left _ (mem_map.2 ⟨_, hkeyed, rfl⟩)⟩)
  · have hmem := (mem_coExternals hw).2 ⟨x, hx, rfl, hdone, hco⟩
    exact foldl_insert_mem (.inr ⟨outputs, mem_append_right _ hmem⟩)

end Engine.Deployment

end

def clerkModule : Module :=
  { externals := ((∅ : BTreeMap String External).insert "policy" { ty := .awsPolicy, id := some "orders" }).insert "table"
      { ty := .dynamodbTable, id := some "orders" } }

def clerkInput (m : Module) (inputs : DriverInputs) (policy : Provision) : GraphInput :=
  { companions [] with
    set := { modules := (∅ : BTreeMap WorkloadId Module).insert greeterDefinition.id m, shared := ∅ }
    definitions := { greeterDefinition with driverInputs := inputs } ::
      (ledgerInput.definitions.filter (·.ty = .dns) ++ ((companions []).definitions.map fun dfn =>
        if dfn.ty = .dynamodbTable then { dfn with provision := .ofList [("aws-policy", policy)] _ } else dfn)) }

def clerkGraph (input : GraphInput) : ResourceGraph := (buildGraph input).toOption.getD { nodes := ∅, layers := [] }

def clerkKeys (m : Module) (input : GraphInput) : Option (List String) :=
  (buildGraph input).toOption.bind fun g => g.nodes[workload greeterDefinition.id m]?.map fun n =>
    ((greeterOver g).externalScope n ((greeterOver g).allDone fun _ => .empty)).keys

theorem clerk_built {m : Module} {input : GraphInput} {keys : List String} (h : clerkKeys m input = some keys) :
    buildGraph input = .ok (greeterOver (clerkGraph input)).graph ∧
      ∃ n, (greeterOver (clerkGraph input)).graph.nodes[workload greeterDefinition.id m]? = some n ∧
        (∀ d ∈ n.dependsOn, d ∈ (greeterOver (clerkGraph input)).allDone fun _ => .empty) ∧
        ((greeterOver (clerkGraph input)).externalScope n
          ((greeterOver (clerkGraph input)).allDone fun _ => .empty)).keys = keys := by
  unfold clerkKeys at h
  obtain ⟨g, hg, h⟩ := Option.bind_eq_some_iff.1 h
  obtain ⟨n, hn, hkeys⟩ := Option.map_eq_some_iff.1 h
  have hgraph : clerkGraph input = g := by rw [clerkGraph, hg, Option.getD_some]
  rw [toOption_eq_some] at hg
  rw [hgraph, greeterOver_graph]
  refine ⟨hg, n, hn, fun d hd => ?_, hkeys⟩
  obtain ⟨b, hb⟩ := built_expanded hg
  have hnode : d ∈ (greeterOver g).graph.nodes := built_target hg hb hn hd
  exact mem_iff.2 ⟨_, allDone_get hnode⟩

end Openporch
