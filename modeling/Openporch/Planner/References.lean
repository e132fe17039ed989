import Openporch.GraphBuilt
import Openporch.Planner.Job

/-!
# References of a job

`Builder::resolve_ref` resolves a reference when the graph is built, and `MapScope::descriptor_for` when the job runs.
For the omitted parts of a reference, the builder asks the catalog whether a type is implicit, the scope only knows the
built-in types.
-/

namespace Openporch
open Relation Acyclicity Engine.Deployment Fallible GraphInput

variable {input : GraphInput} {b : Builder} {g : ResourceGraph} {d s x t : Descriptor} {target : ResourceRef}

/-- The reference `target` occurs in the inputs of `d`'s job, and the builder resolves it for `s`. -/
inductive GraphInput.Refers (input : GraphInput) (b : Builder) : Descriptor → Descriptor → ResourceRef → Prop where
  /-- In the inputs or the cloud account of `d`'s own definition. -/
  | inputs {d dfn found loc raw target field} (hd : d ∈ b.nodes)
      (hdfn : input.definitionOf d = some dfn) (hfound : inputPlaceholders dfn = .ok found)
      (h : (loc, raw, .resource target field) ∈ found) : Refers input b d d target
  /-- In the params that `s`'s definition co-provisions `d` with. -/
  | params {s dfn key prov co found loc raw target field} (hs : s ∈ b.nodes)
      (hdfn : input.definitionOf s = some dfn) (hprov : dfn.provision[key]? = some prov)
      (hkey : ResourceRef.parse key = .ok co) (hfound : paramPlaceholders key prov = .ok found)
      (h : (loc, raw, .resource target field) ∈ found) :
    Refers input b (input.resolveRef co s) s target

def ResourceRef.inherited (r : ResourceRef) (referrer : Descriptor) (implicit : Bool) : ClassId × ResId :=
  if implicit then (.default, r.ty.asResId) else (referrer.cls, referrer.id)

theorem ResourceRef.resolve_eq_iff {r : ResourceRef} {d s : Descriptor} {i j : Bool} : r.resolve d i = r.resolve s j ↔
    (r.cls = none → (r.inherited d i).1 = (r.inherited s j).1) ∧ (r.id = none → (r.inherited d i).2 = (r.inherited s j).2) := by
  have hresolve : ∀ (d : Descriptor) (i : Bool), r.resolve d i =
      { ty := r.ty, cls := r.cls.getD (r.inherited d i).1, id := r.id.getD (r.inherited d i).2 } := by
    intro d i
    cases i <;> rfl
  rw [hresolve, hresolve, Descriptor.mk.injEq]
  cases r.cls <;> cases r.id <;> simp

/-- Each part that the reference omits is taken from the same by the planner, for `d`, and by the builder, for `s`. -/
structure GraphInput.InheritsAlike (input : GraphInput) (d s : Descriptor) (target : ResourceRef) : Prop where
  cls : target.cls = none →
    (target.inherited d (implicitTypes.contains target.ty)).1 = (target.inherited s (input.isImplicit target.ty)).1
  id : target.id = none →
    (target.inherited d (implicitTypes.contains target.ty)).2 = (target.inherited s (input.isImplicit target.ty)).2

theorem inheritsAlike_iff : input.InheritsAlike d s target ↔ readTarget d target = input.resolveRef target s := by
  refine Iff.trans ?_ ResourceRef.resolve_eq_iff.symm
  exact ⟨fun h => ⟨h.cls, h.id⟩, fun h => ⟨h.1, h.2⟩⟩

theorem reads_of_refers (h : input.Refers b d s target) (hne : input.resolveRef target s ≠ d) :
    input.Reads b d (input.resolveRef target s) := by
  cases h with
  | inputs hd hdfn hfound hmem => exact .inputs hd hdfn hfound hmem
  | params hs hdfn hprov hkey hfound hmem => exact .params hs hdfn hprov hkey hfound hmem hne

/-- The job of `d` reads what the builder made of the reference, which is in the graph and ready before `d` runs. -/
structure GraphInput.ReferenceAgrees (input : GraphInput) (g : ResourceGraph) (n : Node) (d s : Descriptor)
    (target : ResourceRef) : Prop where
  same : readTarget d target = input.resolveRef target s
  node : readTarget d target ∈ g.nodes
  waits : readTarget d target ∈ n.dependsOn

/-- A job's reference agrees with the graph exactly when it takes its omitted parts where the builder takes them and is
no reference of a co-provisioned resource to itself. -/
theorem references_agree_iff (input : GraphInput) (b : Builder) (g : ResourceGraph) (hb : expandInput input = .ok b)
    (hg : buildGraph input = .ok g) (d : Descriptor) (n : Node) (hn : g.nodes[d]? = some n) (s : Descriptor)
    (target : ResourceRef) (hrefers : input.Refers b d s target) :
    input.ReferenceAgrees g n d s target ↔ input.InheritsAlike d s target ∧ readTarget d target ≠ d := by
  constructor
  · rintro ⟨hsame, -, hwaits⟩
    refine ⟨inheritsAlike_iff.2 hsame, fun hself => ?_⟩
    rw [built_dependsOn_iff hg hb hn, hself] at hwaits
    exact (built_acyclic hg hb).irrefl d hwaits
  · rintro ⟨halike, hne⟩
    have hsame := inheritsAlike_iff.1 halike
    have hwaits : readTarget d target ∈ n.dependsOn := by
      rw [built_dependsOn_iff hg hb hn]
      rw [hsame] at hne ⊢
      exact .inl (.inl (reads_of_refers hrefers hne))
    exact ⟨hsame, built_target hg hb hn hwaits, hwaits⟩

def clusterType : ResourceTypeId := ⟨"acme/cluster", by decide⟩

def tableInput (inputs : DriverInputs) (provision : List (String × Provision)) (use : ResourceUse) : GraphInput :=
  { companions [] with
    definitions := (companions []).definitions.filter (·.ty ≠ .dynamodbTable) ++
      [{ plainDefinition ⟨"orders-table", by decide⟩ .dynamodbTable provision with driverInputs := inputs },
        plainDefinition ⟨"cluster", by decide⟩ clusterType []]
    types := (companions []).types ++ [{ id := clusterType, use, outputsSchema := .null }] }

def clusterInputs : DriverInputs := { values := [("cluster", .str "$\x7bresources['acme/cluster'].outputs.name\x7d")] }

def ordersTable : Descriptor := { ty := .dynamodbTable, cls := .default, id := ⟨"shared.orders", by decide⟩ }

def policyProvision : Provision := { params := some (.obj [("role", .str "$\x7bresources.aws-role.outputs.arn\x7d")]) }

theorem mem_of_targets {found} (h : (targets found).contains target = true) :
    ∃ loc raw field, (loc, raw, .resource target field) ∈ found := by
  obtain ⟨⟨loc, raw, e⟩, hmem, he⟩ := List.mem_filterMap.1 (List.contains_iff_mem.1 h)
  cases e with
  | resource target' field =>
    obtain rfl := Option.some.inj he
    exact ⟨loc, raw, field, hmem⟩
  | _ => cases he

theorem refers_of_inputs (hd : d ∈ b.nodes) (h : ((input.definitionOf d).any fun dfn =>
    (inputPlaceholders dfn).toOption.any fun found => (targets found).contains target) = true) :
    input.Refers b d d target := by
  obtain ⟨dfn, hdfn, h⟩ := (Option.any_eq_true _ _).1 h
  obtain ⟨found, hfound, h⟩ := toOption_any h
  obtain ⟨loc, raw, field, hmem⟩ := mem_of_targets h
  exact .inputs hd hdfn hfound hmem

theorem refers_of_params (key : String) {co : ResourceRef} (hs : s ∈ b.nodes) (hkey : ResourceRef.parse key = .ok co)
    (h : ((input.definitionOf s).any fun dfn => dfn.provision[key]?.any fun prov =>
      (paramPlaceholders key prov).toOption.any fun found =>
        (targets found).contains target) = true) : input.Refers b (input.resolveRef co s) s target := by
  obtain ⟨dfn, hdfn, h⟩ := (Option.any_eq_true _ _).1 h
  obtain ⟨prov, hprov, h⟩ := (Option.any_eq_true _ _).1 h
  obtain ⟨found, hfound, h⟩ := toOption_any h
  obtain ⟨loc, raw, field, hmem⟩ := mem_of_targets h
  exact .params hs hdfn hprov hkey hfound hmem

theorem built_of_check {check} (h : (buildGraph input).toOption.any check = true) :
    ∃ b g, expandInput input = .ok b ∧ buildGraph input = .ok g ∧ check g = true := by
  obtain ⟨g, hg, hcheck⟩ := toOption_any h
  obtain ⟨b, hb⟩ := built_expanded hg
  exact ⟨b, g, hb, hg, hcheck⟩

def ResourceGraph.hasOnly (d t : Descriptor) (g : ResourceGraph) : Bool := g.nodes.contains d && !g.nodes.contains t

theorem hasOnly_iff : g.hasOnly d t = true ↔ d ∈ g.nodes ∧ t ∉ g.nodes := by
  rw [ResourceGraph.hasOnly, Bool.and_eq_true_iff, Bool.not_eq_true', ← Bool.not_eq_true]
  simp only [Std.ExtTreeMap.contains_iff_mem]

def clusterRef : ResourceRef := { ty := clusterType, cls := none, id := none }

def roleRef : ResourceRef := { ty := .awsRole, cls := none, id := none }

def policyRef : ResourceRef := { ty := .awsPolicy, cls := none, id := some ⟨"p1", by decide⟩ }

/-- The table's job looks for a cluster with the table's ID, and the graph has the environment's; the policy's job looks
for a role with the policy's ID, and the graph has the table's. -/
theorem references_missed :
    (∃ b g, expandInput (tableInput clusterInputs [] .implicit) = .ok b ∧
      buildGraph (tableInput clusterInputs [] .implicit) = .ok g ∧ ordersTable ∈ g.nodes ∧
      (tableInput clusterInputs [] .implicit).Refers b ordersTable ordersTable clusterRef ∧
      readTarget ordersTable clusterRef ∉ g.nodes) ∧
    ∃ b g, expandInput (tableInput {} [("aws-policy#p1", policyProvision)] .direct) = .ok b ∧
      buildGraph (tableInput {} [("aws-policy#p1", policyProvision)] .direct) = .ok g ∧
      ordersTable ∈ g.nodes ∧ ∃ policy ∈ g.nodes,
        (tableInput {} [("aws-policy#p1", policyProvision)] .direct).Refers b policy ordersTable roleRef ∧
        readTarget policy roleRef ∉ g.nodes := by
  constructor
  · obtain ⟨b, g, hb, hg, hcheck⟩ := built_of_check (by decide +kernel :
      ((buildGraph (tableInput clusterInputs [] .implicit)).toOption.any
        (ResourceGraph.hasOnly ordersTable (readTarget ordersTable clusterRef))) = true)
    obtain ⟨hd, hnot⟩ := hasOnly_iff.1 hcheck
    exact ⟨b, g, hb, hg, hd, refers_of_inputs ((built_mem_iff hg hb).1 hd) (by decide +kernel), hnot⟩
  · let input := tableInput {} [("aws-policy#p1", policyProvision)] .direct
    obtain ⟨b, g, hb, hg, hcheck⟩ := built_of_check (by decide +kernel :
      ((buildGraph input).toOption.any fun g => g.nodes.contains ordersTable && g.hasOnly (input.resolveRef policyRef ordersTable)
        (readTarget (input.resolveRef policyRef ordersTable) roleRef)) = true)
    obtain ⟨htable, hcheck⟩ := Bool.and_eq_true_iff.1 hcheck
    obtain ⟨hd, hnot⟩ := hasOnly_iff.1 hcheck
    have htable : ordersTable ∈ g.nodes := Std.ExtTreeMap.contains_iff_mem.1 htable
    exact ⟨b, g, hb, hg, htable, _, hd,
      refers_of_params "aws-policy#p1" ((built_mem_iff hg hb).1 htable) (by decide +kernel) (by decide +kernel), hnot⟩

def baseEnvInputs : DriverInputs := { values := [("region", .str "$\x7bresources.base-env.outputs.region\x7d")] }

def baseEnvRef : ResourceRef := { ty := .baseEnv, cls := none, id := none }

theorem builtin_references_agree_iff : ∃ b g n, expandInput (tableInput baseEnvInputs [] .direct) = .ok b ∧
    buildGraph (tableInput baseEnvInputs [] .direct) = .ok g ∧ g.nodes[ordersTable]? = some n ∧
    (tableInput baseEnvInputs [] .direct).Refers b ordersTable ordersTable baseEnvRef ∧
    (tableInput baseEnvInputs [] .direct).ReferenceAgrees g n ordersTable ordersTable baseEnvRef := by
  obtain ⟨b, g, hb, hg, hd⟩ := built_of_check (by decide +kernel :
    ((buildGraph (tableInput baseEnvInputs [] .direct)).toOption.any (·.nodes.contains ordersTable)) = true)
  have hd := Std.ExtTreeMap.contains_iff_mem.1 hd
  obtain ⟨n, hn⟩ := BTreeMap.mem_iff.1 hd
  have hrefers : (tableInput baseEnvInputs [] .direct).Refers b ordersTable ordersTable baseEnvRef :=
    refers_of_inputs ((built_mem_iff hg hb).1 hd) (by decide +kernel)
  refine ⟨b, g, n, hb, hg, hn, hrefers, (references_agree_iff _ b g hb hg _ n hn _ _ hrefers).2 ?_⟩
  exact ⟨⟨by decide, by decide⟩, by decide⟩

end Openporch
