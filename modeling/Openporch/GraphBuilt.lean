import Openporch.GraphConsumers

/-!
# What a built graph has

The edges of a built graph in terms of what its input asks for, and its requests, which say by their path where they
come from.
-/

namespace Openporch
open Op Relation Acyclicity List Fallible GraphInput

variable {input : GraphInput} {b : Builder} {g : ResourceGraph} {x d t : Descriptor} {path : String} {params : Option Json}
  {order : List Descriptor}

theorem built_acyclic (hg : buildGraph input = .ok g) (hb : expandInput input = .ok b) :
    Acyclic fun x t => input.Specified b x t ∨ input.Swept b x t := by
  by_contra hcyclic
  obtain ⟨c, hc⟩ := (buildGraph_cycle_iff hb).2 hcyclic
  rw [hg] at hc
  cases hc

theorem built_expanded (hg : buildGraph input = .ok g) : ∃ b, expandInput input = .ok b := by
  rw [buildGraph_eq] at hg
  obtain ⟨b', hb', -⟩ := bind_eq_ok.1 hg
  obtain ⟨b, hb, -⟩ := bind_eq_ok.1 hb'
  exact ⟨b, hb⟩

theorem built_wired (hg : buildGraph input = .ok g) (hb : expandInput input = .ok b) :
    ∃ order b', Expanded input order b ∧ Builder.SameNodes b b' ∧ Wired input order b' ∧ g.nodes = b'.nodes := by
  obtain ⟨order, hexpanded⟩ := expandInput_ok hb
  obtain ⟨b', hmatch, hsame, hwired⟩ := hexpanded.matchDependents
  have hwire : wireInput input = .ok b' := by rw [wireInput, hb]; exact hmatch
  rw [buildGraph_eq, hwire] at hg
  obtain ⟨layers, -, rfl⟩ := map_eq_ok.1 hg
  exact ⟨order, b', hexpanded, hsame, hwired, rfl⟩

theorem built_mem_iff (hg : buildGraph input = .ok g) (hb : expandInput input = .ok b) : d ∈ g.nodes ↔ d ∈ b.nodes := by
  obtain ⟨order, b', -, hsame, -, hnodes⟩ := built_wired hg hb
  rw [hnodes, hsame.mem]

variable {n : Node}

theorem built_dependsOn_iff (hg : buildGraph input = .ok g) (hb : expandInput input = .ok b)
    (hn : g.nodes[d]? = some n) : t ∈ n.dependsOn ↔ input.Specified b d t ∨ input.Swept b d t := by
  have hacyclic := built_acyclic hg hb
  obtain ⟨order, b', hexpanded, -, hwired, hnodes⟩ := built_wired hg hb
  have hedge : t ∈ n.dependsOn ↔ b.Waits d t := by
    rw [hexpanded.built.waits_iff, ← hwired.edge]
    refine ⟨fun ht => ⟨n, hnodes ▸ hn, ht⟩, ?_⟩
    rintro ⟨n', hn', ht⟩
    rw [← hnodes, hn] at hn'
    cases hn'
    exact ht
  rw [hedge]
  exact ⟨hexpanded.waits_specified, hexpanded.specified_waits (hexpanded.acyclic_iff.2 hacyclic)⟩

theorem built_target (hg : buildGraph input = .ok g) (hb : expandInput input = .ok b)
    (hn : g.nodes[d]? = some n) (ht : t ∈ n.dependsOn) : t ∈ g.nodes := by
  obtain ⟨order, b', hexpanded, -, hwired, hnodes⟩ := built_wired hg hb
  rw [hnodes] at hn ⊢
  exact hwired.target ⟨n, hn, ht⟩

/-- The requests of the set, and of the definitions of the resources in `known`: who, with which path and inputs. -/
inductive GraphInput.Requested (input : GraphInput) (known : Descriptor → Prop) : Descriptor → String → Option Json → Prop where
  | baseEnv : Requested input known GraphInput.baseEnv "base-env" none
  | workload {wid m} (hm : input.set.modules[wid]? = some m) :
    Requested input known (GraphInput.workload wid m) ("modules." ++ wid.text) (some (workloadParams wid m))
  | external {wid m key ext id} (hm : input.set.modules[wid]? = some m)
      (hext : m.externals[key]? = some ext) (hid : externalId wid key ext = .ok id) :
    Requested input known { ty := ext.ty, cls := ext.cls, id } (externalPath wid key)
      (some (ext.params.getD .null))
  | shared {id s rid} (hs : input.set.shared[id]? = some s) (hid : ResId.shared id = .ok rid) :
    Requested input known { ty := s.ty, cls := s.cls, id := rid } ("shared." ++ id) (some (s.params.getD .null))
  | reference {x dfn found loc raw target field} (hx : known x)
      (hdfn : input.definitionOf x = some dfn) (hfound : inputPlaceholders dfn = .ok found)
      (h : (loc, raw, .resource target field) ∈ found) :
    Requested input known (input.resolveRef target x) (definitionPath x dfn.id loc) none
  | provision {x dfn key prov co} (hx : known x) (hdfn : input.definitionOf x = some dfn)
      (hprov : dfn.provision[key]? = some prov) (hkey : ResourceRef.parse key = .ok co) :
    Requested input known (input.resolveRef co x) (definitionPath x dfn.id ("provision." ++ key))
      (some (prov.params.getD .null))
  | param {x dfn key prov co found loc raw target field} (hx : known x)
      (hdfn : input.definitionOf x = some dfn) (hprov : dfn.provision[key]? = some prov)
      (hkey : ResourceRef.parse key = .ok co) (hfound : paramPlaceholders key prov = .ok found)
      (h : (loc, raw, .resource target field) ∈ found) :
    Requested input known (input.resolveRef target x) (definitionPath x dfn.id loc) none

/-- Who asks for `x` with the path. -/
inductive GraphInput.Asks (input : GraphInput) : Descriptor → String → Prop where
  | baseEnv : Asks input GraphInput.baseEnv "base-env"
  | workload {wid m} (hm : input.set.modules[wid]? = some m) :
    Asks input (GraphInput.workload wid m) ("modules." ++ wid.text)
  | external {wid m key ext id} (hm : input.set.modules[wid]? = some m)
      (hext : m.externals[key]? = some ext) (hid : externalId wid key ext = .ok id) :
    Asks input { ty := ext.ty, cls := ext.cls, id } (externalPath wid key)
  | shared {id s rid} (hs : input.set.shared[id]? = some s) (hid : ResId.shared id = .ok rid) :
    Asks input { ty := s.ty, cls := s.cls, id := rid } ("shared." ++ id)
  | definition {x d dfn loc} : Asks input x (definitionPath d dfn loc)

namespace GraphInput
variable {known : Descriptor → Prop}

theorem seeds_requested (h : .request x path params ∈ input.seeds) : input.Requested known x path params := by
  cases mem_seeds.1 h with
  | baseEnv => exact .baseEnv
  | workload hm => exact .workload hm
  | external hm hext hid => exact .external hm hext hid
  | shared hs hid => exact .shared hs hid

theorem opsOf_requested (hd : known d) (h : .request x path params ∈ input.opsOf d) : input.Requested known x path params := by
  obtain ⟨dfn, hdfn, ⟨e, h⟩ | ⟨found, hfound, h⟩⟩ := opsOf_cases h
  · cases h
  · cases h with
    | reference hmem => exact .reference hd hdfn hfound hmem
    | provision hprov hkey => exact .provision hd hdfn hprov hkey
    | param hprov hkey hparams hmem => exact .param hd hdfn hprov hkey hparams hmem

theorem opsFor_requested (hknown : ∀ d ∈ order, known d) (h : .request x path params ∈ input.opsFor order) :
    input.Requested known x path params := by
  rcases mem_opsFor.1 h with h | ⟨d, hd, h⟩
  · exact seeds_requested h
  · exact opsOf_requested (hknown d hd) h

theorem Requested.asks (h : input.Requested known x path params) : input.Asks x path := by
  cases h with
  | baseEnv => exact .baseEnv
  | workload hm => exact .workload hm
  | external hm hext hid => exact .external hm hext hid
  | shared hs hid => exact .shared hs hid
  | reference | provision | param => exact .definition

end GraphInput

theorem Expanded.requested (h : Expanded input order b) (hr : input.Requested (· ∈ b.nodes) x path params) :
    .request x path params ∈ input.opsFor order := by
  have hseed : ∀ {op}, input.SeedOp op → op ∈ input.opsFor order := fun hop =>
    mem_append_left _ (mem_seeds.2 hop)
  cases hr with
  | baseEnv => exact hseed .baseEnv
  | workload hm => exact hseed (.workload hm)
  | external hm hext hid => exact hseed (.external hm hext hid)
  | shared hs hid => exact hseed (.shared hs hid)
  | reference hx hdfn hfound hmem => exact h.does hx hdfn hfound (.reference hmem)
  | provision hx hdfn hprov hkey =>
    obtain ⟨found, hfound⟩ := h.found hx hdfn
    exact h.does hx hdfn hfound (.provision hprov hkey)
  | param hx hdfn hprov hkey hparams hmem =>
    obtain ⟨found, hfound⟩ := h.found hx hdfn
    exact h.does hx hdfn hfound (.param hprov hkey hparams hmem)

/-- A node of a built graph is filed under its descriptor, and its requests are those of the set and of the definitions
of the graph's nodes. -/
theorem built_requests (hg : buildGraph input = .ok g) : ∃ order, (∀ d, d ∈ g.nodes ↔ d ∈ order) ∧
    (∀ d path params, .request d path params ∈ input.opsFor order → d ∈ g.nodes) ∧
    ∀ (d : Descriptor) (n : Node), g.nodes[d]? = some n → n.descriptor = d ∧
      ∀ r, r ∈ n.requests ↔ ∃ path params, .request d path params ∈ input.opsFor order ∧ r = Request.of (path, params) := by
  obtain ⟨order, b, hwired, hnodes, -⟩ := buildGraph_ok hg
  obtain ⟨b0, hexpanded, hsame⟩ := hwired.expanded
  refine ⟨order, fun d => ?_, fun d path params hop => ?_, fun d n hn => ?_⟩
  · rw [hnodes, hsame.mem]
    exact hexpanded.mem d
  · rw [hnodes, hsame.mem]
    exact (hexpanded.built.mem d).2 ⟨path, params, hop⟩
  obtain ⟨n0, hn0, hbare⟩ := hsame.get (hnodes ▸ hn)
  have hnode := hexpanded.built.node d n0 hn0
  have hdescriptor : (Builder.bare n).descriptor = (Builder.bare n0).descriptor := congrArg Node.descriptor hbare
  have hrequests : (Builder.bare n).requests = (Builder.bare n0).requests := congrArg Node.requests hbare
  refine ⟨Eq.trans hdescriptor hnode.descriptor, fun r => ?_⟩
  rw [show n.requests = n0.requests from hrequests, hnode.requests]
  constructor
  · rintro ⟨⟨path, params⟩, hasked, rfl⟩
    exact ⟨path, params, mem_asked.1 hasked, rfl⟩
  · rintro ⟨path, params, hop, rfl⟩
    exact ⟨(path, params), mem_asked.2 hop, rfl⟩

theorem built_descriptor (hg : buildGraph input = .ok g) (hn : g.nodes[d]? = some n) : n.descriptor = d := by
  obtain ⟨order, -, -, hnode⟩ := built_requests hg
  exact (hnode d n hn).1

theorem built_asks (hg : buildGraph input = .ok g) (hn : g.nodes[d]? = some n) {r : Request} (hr : r ∈ n.requests) :
    input.Asks d r.path := by
  obtain ⟨order, -, -, hnode⟩ := built_requests hg
  obtain ⟨path, params, hop, rfl⟩ := ((hnode d n hn).2 r).1 hr
  exact (opsFor_requested (fun _ _ => trivial) hop : input.Requested (fun _ => True) d path params).asks

theorem built_request (hg : buildGraph input = .ok g)
    (h : .request d path params ∈ input.seeds ∨ ∃ x ∈ g.nodes, .request d path params ∈ input.opsOf x) :
    ∃ n, g.nodes[d]? = some n ∧ Request.of (path, params) ∈ n.requests := by
  obtain ⟨order, hmem, hin, hnode⟩ := built_requests hg
  have hop : .request d path params ∈ input.opsFor order := by
    rcases h with h | ⟨x, hx, h⟩
    · exact mem_append_left _ h
    · exact mem_append_right _ (mem_flatMap.2 ⟨x, (hmem x).1 hx, h⟩)
  obtain ⟨n, hn⟩ := BTreeMap.mem_iff.1 (hin d path params hop)
  exact ⟨n, hn, ((hnode d n hn).2 _).2 ⟨path, params, hop, rfl⟩⟩

theorem built_seed (hg : buildGraph input = .ok g) (h : input.SeedOp (.request d path params)) :
    ∃ n, g.nodes[d]? = some n ∧ Request.of (path, params) ∈ n.requests := built_request hg (.inl (mem_seeds.2 h))

theorem built_externalId (hg : buildGraph input = .ok g) {wid : WorkloadId} {m : Module} {key : String} {ext : External}
    (hm : input.set.modules[wid]? = some m) (hext : m.externals[key]? = some ext) :
    ∃ id, externalId wid key ext = .ok id := by
  obtain ⟨order, b, hwired, -, -⟩ := buildGraph_ok hg
  obtain ⟨b0, hexpanded, -⟩ := hwired.expanded
  cases hid : externalId wid key ext with
  | error e =>
    have hop := mem_seeds.2 (.badExternal hm hext hid)
    exact absurd (mem_append_left _ hop) (hexpanded.built.fails _)
  | ok id => exact ⟨id, rfl⟩

end Openporch
