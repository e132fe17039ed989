import Openporch.Planner.Externals
import Openporch.Planner.Preview

/-!
# Jobs and the order of their run

A node's scope is built from everything that has finished. Its job is the same whatever else has finished exactly when
every placeholder that the job gets to reads something it waits for.
-/

namespace Openporch
open Asking Relation Engine.Deployment List Fallible Ask ResourceOutputs BTreeMap MapScope

variable {input : GraphInput} {g : ResourceGraph} {b : Builder} {d t x : Descriptor} {n : Node}
  {done done' : BTreeMap Descriptor ResourceOutputs}

def ResourceGraph.Edge (g : ResourceGraph) (x t : Descriptor) : Prop := ∃ n, g.nodes[x]? = some n ∧ t ∈ n.dependsOn

/-- The resources that `d` waits for, directly or not. -/
def ResourceGraph.Needs (g : ResourceGraph) : Descriptor → Descriptor → Prop := TransGen g.Edge

structure ResourceGraph.Finished (g : ResourceGraph) (n : Node) (done : BTreeMap Descriptor ResourceOutputs) : Prop where
  nodes : ∀ x ∈ done, x ∈ g.nodes
  closed : ∀ x t, x ∈ done → g.Edge x t → t ∈ done
  ready : ∀ t ∈ n.dependsOn, t ∈ done

theorem ResourceGraph.Finished.needs (h : g.Finished n done) (hn : g.nodes[d]? = some n) (ht : g.Needs d t) : t ∈ done := by
  induction ht with
  | single hedge =>
    obtain ⟨n', hn', ht⟩ := hedge
    rw [hn] at hn'
    cases hn'
    exact h.ready _ ht
  | tail _ hedge ih => exact h.closed _ _ ih hedge

/-- Outputs that agree on everything `d` waits for. -/
def ResourceGraph.Agree (g : ResourceGraph) (d : Descriptor) (done done' : BTreeMap Descriptor ResourceOutputs) : Prop :=
  ∀ t, g.Needs d t → done[t]? = done'[t]?

def JobError.told (node : Node) : JobError → Option (Expr × Reason)
  | .inputs _ e => Openporch.told .driverAccount e
  | .params _ e => Openporch.told (paramsDialect node) e
  | .secretInValues _ | .accountNotText _ | .accountId _ _ => none

section
variable (node : Node) (dfn : ResourceDefinition)

theorem inputs_blames {dialect : Dialect} (hle : dialect.Within .driverAccount) (sink : Sink) (location : String) (v : Json) :
    ((resolveValue dialect sink location v).mapError (.inputs dfn.id)).Blames (JobError.told node) := by
  have htold : ∀ err, JobError.told node (.inputs dfn.id err) = told .driverAccount err := fun _ => rfl
  exact (resolveValue_blames hle sink location v).mapError htold

theorem params_blames (sink : Sink) (location : String) (v : Json) :
    ((resolveValue (paramsDialect node) sink location v).mapError (.params node.descriptor)).Blames (JobError.told node) := by
  have htold : ∀ err, JobError.told node (.params node.descriptor err) = told (paramsDialect node) err := fun _ => rfl
  exact (resolveValue_blames (.refl _) sink location v).mapError htold

theorem driverInputs_blames : (driverInputs dfn).Blames (JobError.told node) := by
  refine (inputs_blames node dfn definition_within _ _ _).bind fun r => Ask.Blames.bind (Ask.Blames.ofExcept ?_) fun _ =>
    (inputs_blames node dfn definition_within _ _ _).record.bind fun _ => trivial
  intro err herr
  split at herr <;> cases herr
  rfl

theorem driverAccount_blames : (driverAccount dfn).Blames (JobError.told node) := by
  unfold driverAccount
  split
  · trivial
  · refine (inputs_blames node dfn (.refl _) _ _ _).bind fun r => Ask.Blames.bind (Ask.Blames.ofExcept ?_) fun _ => trivial
    intro err herr
    unfold accountOf at herr
    split at herr
    · obtain ⟨_, -, rfl⟩ := mapError_eq_error.1 herr
      rfl
    · cases herr
      rfl

theorem jobInputs_blames (externals : BTreeMap String ResourceOutputs) :
    (jobInputs node dfn externals).Blames (JobError.told node) := by
  refine (driverInputs_blames node dfn).bind fun _ => (driverAccount_blames node dfn).bind fun _ =>
    Ask.Blames.bind ?_ fun _ => trivial
  exact (params_blames node _ _ _).record.bind fun _ => trivial

end

theorem MapScope.answer_of_error {s : MapScope} {e : Expr} {r : Reason} (h : s.lookup e = .error r) : s.answer e = .error r := by
  unfold answer
  rw [h]
  rfl

def outputName (path : List Segment) : Option String := path.head?.bind Segment.key

theorem ResourceOutputs.get_noName {path : List Segment} (h : outputName path = none) :
    ∃ r, (∀ o : ResourceOutputs, o.get path = .error r) ∧ ∀ id, r ≠ .noShared id := by
  cases path with
  | nil => exact ⟨_, fun _ => rfl, nofun⟩
  | cons seg path =>
    have hkey : seg.key = none := by simpa [outputName] using h
    refine ⟨.outputNamesAreStrings, fun o => ?_, nofun⟩
    simp only [get, hkey]

/-- The placeholder reads the same whatever else has finished: a resource that `d` waits for or that is not in the
graph; under a shared ID, the last resource that has it, or any when no output is named. -/
def Engine.Deployment.Settled (dep : Engine.Deployment) (d : Descriptor) : Expr → Prop
  | .resource target _ => readTarget d target ∈ dep.graph.nodes → dep.graph.Needs d (readTarget d target)
  | .shared id path => ∀ p, (dep.providers id).getLast? = some p → dep.graph.Needs d p ∨
      outputName path = none ∧ ∃ q ∈ dep.providers id, dep.graph.Needs d q
  | _ => True

theorem getLast?_filterMap_eq {α β : Type} {f} {l : List α} {a : α} {v : β} (hl : l.getLast? = some a)
    (ha : f a = some v) : (l.filterMap f).getLast? = some v := by
  obtain ⟨l', rfl⟩ := getLast?_eq_some_iff.1 hl
  simp [filterMap_append, ha]

section
variable {dep : Engine.Deployment} {guresid : Option Guresid} {e : Expr} {id : String} {o : ResourceOutputs}

theorem sharedScope_last {p : Descriptor} (hp : (dep.providers id).getLast? = some p)
    (ho : done[p]? = some o) : (dep.sharedScope done)[id]? = some o := by
  rw [sharedScope_get]
  exact getLast?_filterMap_eq hp ho

theorem sharedScope_some {q : Descriptor} (hq : q ∈ dep.providers id) (hdone : q ∈ done) :
    ∃ o, (dep.sharedScope done)[id]? = some o := by
  obtain ⟨o, ho⟩ := mem_iff.1 hdone
  have hmem : o ∈ (dep.providers id).filterMap (done[·]?) := mem_filterMap.2 ⟨q, hq, ho⟩
  rw [sharedScope_get]
  exact ⟨_, getLast?_eq_some_getLast (ne_nil_of_mem hmem)⟩

theorem lookup_shared {found} (path : List Segment) (h : (dep.sharedScope done)[id]? = found) :
    (dep.scopeFor n done guresid).lookup (.shared id path) = found.elim (.error (.noShared id)) (·.get path) := by
  subst h
  simp only [MapScope.lookup]
  rw [show (dep.scopeFor n done guresid).shared = dep.sharedScope done from rfl]
  cases (dep.sharedScope done)[id]? <;> rfl

theorem lookup_resource {found} {target : ResourceRef} (field : ResourceField) (hdesc : n.descriptor = d)
    (h : done[readTarget d target]? = found) : (dep.scopeFor n done guresid).lookup (.resource target field) =
      found.elim (.error (.notInGraph (readTarget d target).text)) fun outputs =>
        match field with
        | .outputs path => outputs.get path
        | .guresid => outputs.guresid.elim (.error (.noGuresid (readTarget d target).text)) fun g => .ok (.value (.str g.text))
        | .account => outputs.account.elim (.error (.noAccount (readTarget d target).text)) fun a => .ok (.value (.str a)) := by
  subst h hdesc
  simp only [MapScope.lookup, MapScope.lookupResource, dep.descriptorFor_scopeFor, ok_bind]
  rw [show (dep.scopeFor n done guresid).resources = done from rfl]
  cases done[readTarget n.descriptor target]? <;> rfl

theorem answer_of_settled (hg : buildGraph input = .ok dep.graph) (hb : expandInput input = .ok b)
    (hn : dep.graph.nodes[d]? = some n) (hdone : dep.graph.Finished n done) (hdone' : dep.graph.Finished n done')
    (hagree : dep.graph.Agree d done done') (he : dep.Settled d e) :
    (dep.scopeFor n done guresid).answer e = (dep.scopeFor n done' guresid).answer e := by
  have hdesc := built_descriptor hg hn
  cases e with
  | context key => exact answer_context rfl
  | values key path => exact answer_values rfl
  | pod path => rfl
  | externals key path =>
    refine answer_externals ?_
    have hsame : dep.externalScope n done = dep.externalScope n done' :=
      externalScope_congr hg hb hn fun t ht => hagree t (.single ⟨n, hn, ht⟩)
    exact congrArg (fun m : BTreeMap String ResourceOutputs => m[key]?) hsame
  | resource target field =>
    refine answer_resource (dep.descriptorFor_scopeFor n done guresid target)
      (dep.descriptorFor_scopeFor n done' guresid target) ?_
    change done[readTarget n.descriptor target]? = done'[readTarget n.descriptor target]?
    rw [hdesc]
    by_cases hmem : readTarget d target ∈ dep.graph.nodes
    · exact hagree _ (he hmem)
    · rw [Std.ExtTreeMap.getElem?_eq_none fun h => hmem (hdone.nodes _ h),
        Std.ExtTreeMap.getElem?_eq_none fun h => hmem (hdone'.nodes _ h)]
  | shared id path =>
    cases hp : (dep.providers id).getLast? with
    | none =>
      refine answer_shared ?_
      change (dep.sharedScope done)[id]? = (dep.sharedScope done')[id]?
      rw [sharedScope_get, sharedScope_get, getLast?_eq_none_iff.1 hp]
      rfl
    | some p =>
      rcases he p hp with hneeds | ⟨hname, q, hq, hneeds⟩
      · refine answer_shared ?_
        change (dep.sharedScope done)[id]? = (dep.sharedScope done')[id]?
        obtain ⟨o, ho⟩ := mem_iff.1 (hdone.needs hn hneeds)
        rw [sharedScope_last hp ho, sharedScope_last hp ((hagree p hneeds) ▸ ho)]
      · obtain ⟨r, hr, -⟩ := get_noName hname
        obtain ⟨o, ho⟩ := sharedScope_some hq (hdone.needs hn hneeds)
        obtain ⟨o', ho'⟩ := sharedScope_some hq (hdone'.needs hn hneeds)
        rw [answer_of_error ((lookup_shared path ho).trans (hr o)),
          answer_of_error ((lookup_shared path ho').trans (hr o'))]

end

open Classical in
/-- What `d` waits for as it has finished, and for every other node the same outputs, or none. -/
noncomputable def ResourceGraph.fill (g : ResourceGraph) (d : Descriptor) (done : BTreeMap Descriptor ResourceOutputs)
    (rest : Option ResourceOutputs) : BTreeMap Descriptor ResourceOutputs :=
  g.nodes.filterMap fun x _ => if g.Needs d x then done[x]? else rest

section
variable {rest : Option ResourceOutputs}

theorem fill_needs (hx : x ∈ g.nodes) (hneeds : g.Needs d x) : (g.fill d done rest)[x]? = done[x]? := by
  obtain ⟨n, hn⟩ := mem_iff.1 hx
  simp [ResourceGraph.fill, Std.ExtTreeMap.getElem?_filterMap, hn, hneeds]

theorem fill_rest (hx : x ∈ g.nodes) (hneeds : ¬ g.Needs d x) : (g.fill d done rest)[x]? = rest := by
  obtain ⟨n, hn⟩ := mem_iff.1 hx
  simp [ResourceGraph.fill, Std.ExtTreeMap.getElem?_filterMap, hn, hneeds]

theorem fill_nodes (hx : x ∈ g.fill d done rest) : x ∈ g.nodes := by
  obtain ⟨o, ho⟩ := mem_iff.1 hx
  by_contra hnot
  simp [ResourceGraph.fill, Std.ExtTreeMap.getElem?_filterMap, Std.ExtTreeMap.getElem?_eq_none hnot] at ho

theorem ResourceGraph.Needs.mem (hclosed : ∀ x t, g.Edge x t → t ∈ g.nodes) (h : g.Needs d t) : t ∈ g.nodes := by
  cases h with
  | single hedge => exact hclosed _ _ hedge
  | tail _ hedge => exact hclosed _ _ hedge

theorem fill_agree (hclosed : ∀ x t, g.Edge x t → t ∈ g.nodes) : g.Agree d done (g.fill d done rest) := fun _ ht =>
  (fill_needs (ht.mem hclosed) ht).symm

theorem fill_finished (hclosed : ∀ x t, g.Edge x t → t ∈ g.nodes) (hn : g.nodes[d]? = some n) (hdone : g.Finished n done) :
    g.Finished n (g.fill d done rest) where
  nodes _ hx := fill_nodes hx
  closed x t hx hedge := by
    by_cases hneeds : g.Needs d x
    · -- what is needed needs only what is needed
      have ht : g.Needs d t := .tail hneeds hedge
      rw [mem_iff, fill_needs (hclosed x t hedge) ht, ← mem_iff]
      exact hdone.needs hn ht
    · by_cases ht : g.Needs d t
      · rw [mem_iff, fill_needs (hclosed x t hedge) ht, ← mem_iff]
        exact hdone.needs hn ht
      · have hxn := fill_nodes hx
        rw [mem_iff, fill_rest hxn hneeds] at hx
        rw [mem_iff, fill_rest (hclosed x t hedge) ht]
        exact hx
  ready t ht := by
    have hneeds : g.Needs d t := .single ⟨n, hn, ht⟩
    rw [mem_iff, fill_needs (hneeds.mem hclosed) hneeds, ← mem_iff]
    exact hdone.ready t ht

end

def ResourceOutputs.empty : ResourceOutputs := { values := [], secrets := ∅, guresid := none, account := none }

def nested : List Segment → Json
  | [] => .null
  | .name k :: path | .quoted k :: path => .obj [(k, nested path)]
  | .index i :: path => .arr (List.replicate i .null ++ [nested path])

theorem walk_nested (path : List Segment) : walk (nested path) path = .ok .null := by
  induction path with
  | nil => rfl
  | cons seg path ih => cases seg <;> simp [nested, walk, JsonMap.get, ih]

def ResourceOutputs.having (name : String) (path : List Segment) : ResourceOutputs :=
  { empty with values := [(name, nested path)] }

theorem ResourceOutputs.get_having {path : List Segment} {name : String} (h : outputName path = some name) :
    (having name path.tail).get path = .ok (.value .null) := by
  cases path with
  | nil => cases h
  | cons seg path =>
    have hkey : seg.key = some name := by simpa [outputName] using h
    simp [get, hkey, having, empty, JsonMap.get, walk_nested]
    rfl

theorem ResourceOutputs.get_empty (path : List Segment) :
    ∃ r, empty.get path = .error r ∧ (∀ id, r ≠ .noShared id) ∧ ∀ d, r ≠ .notInGraph d := by
  cases path with
  | nil => exact ⟨_, rfl, nofun, nofun⟩
  | cons seg path =>
    cases hkey : seg.key with
    | none => exact ⟨.outputNamesAreStrings, by simp [get, hkey], nofun, nofun⟩
    | some name => exact ⟨.noOutput name, by simp [get, hkey, empty, JsonMap.get], nofun, nofun⟩

namespace Engine.Deployment
variable (dep : Engine.Deployment) (d : Descriptor) (n : Node) (dfn : ResourceDefinition) (guresid : Option Guresid)

/-- The inputs of the node's job, or its error, once `done` has finished. -/
def inputsAfter (done : BTreeMap Descriptor ResourceOutputs) : Except JobError (JobInputs × Option AccountId) :=
  (jobInputs n dfn (dep.externalScope n done)).run (dep.scopeFor n done guresid).answer

def looksUp (done : BTreeMap Descriptor ResourceOutputs) : List Expr :=
  (jobInputs n dfn (dep.externalScope n done)).asked (dep.scopeFor n done guresid).answer

def ScheduleIndependent : Prop := ∀ done done', dep.graph.Finished n done → dep.graph.Finished n done' →
  dep.graph.Agree d done done' → dep.inputsAfter n dfn guresid done = dep.inputsAfter n dfn guresid done'

variable {dep d n dfn guresid}

theorem inputsAfter_eq (hg : buildGraph input = .ok dep.graph) (hn : dep.graph.nodes[d]? = some n)
    (hagree : dep.graph.Agree d done done') : dep.inputsAfter n dfn guresid done' =
      (jobInputs n dfn (dep.externalScope n done)).run (dep.scopeFor n done' guresid).answer := by
  obtain ⟨b, hb⟩ := built_expanded hg
  unfold inputsAfter
  rw [externalScope_congr hg hb hn fun t ht => hagree t (.single ⟨n, hn, ht⟩)]

theorem scheduleIndependent_of_settled (hg : buildGraph input = .ok dep.graph) (hn : dep.graph.nodes[d]? = some n)
    (h : ∀ done, dep.graph.Finished n done → ∀ e ∈ dep.looksUp n dfn guresid done, dep.Settled d e) :
    dep.ScheduleIndependent d n dfn guresid := by
  intro done done' hdone hdone' hagree
  obtain ⟨b, hb⟩ := built_expanded hg
  rw [inputsAfter_eq hg hn hagree]
  exact (run_congr _ fun e he => answer_of_settled hg hb hn hdone hdone' hagree (h done hdone e he)).1

theorem providers_mem (hg : buildGraph input = .ok dep.graph) {id : String} {p : Descriptor} (hp : p ∈ dep.providers id) :
    p ∈ dep.graph.nodes := by
  obtain ⟨other, hother, rfl⟩ := mem_map.1 hp
  obtain ⟨⟨x, _⟩, hmem, rfl⟩ := mem_map.1 (mem_filter.1 hother).1
  have hx := Std.ExtTreeMap.mem_toList_iff_getElem?_eq_some.1 hmem
  rw [built_descriptor hg hx]
  exact mem_iff.2 ⟨_, hx⟩

theorem unsettled_shared {id : String} {path : List Segment} (he : ¬ dep.Settled d (.shared id path)) :
    ∃ p, (dep.providers id).getLast? = some p ∧ ¬ dep.graph.Needs d p ∧
      (outputName path = none → ∀ q ∈ dep.providers id, ¬ dep.graph.Needs d q) := by
  by_contra hnot
  refine he fun p hp => ?_
  by_contra hp'
  rw [not_or, not_and] at hp'
  exact hnot ⟨p, hp, hp'.1, fun hname q hq hneeds => hp'.2 hname ⟨q, hq, hneeds⟩⟩

theorem refused_of_unsettled (hg : buildGraph input = .ok dep.graph) (hn : dep.graph.nodes[d]? = some n) {e : Expr}
    (he : ¬ dep.Settled d e) :
    ∃ r, (dep.scopeFor n (dep.graph.fill d done (some .empty)) guresid).answer e = .error r ∧
      (∀ id, r ≠ .noShared id) ∧ ∀ x, r ≠ .notInGraph x := by
  have hdesc := built_descriptor hg hn
  have hempty : ∀ x ∈ dep.graph.nodes, ¬ dep.graph.Needs d x → (dep.graph.fill d done (some .empty))[x]? = some .empty :=
    fun _ => fill_rest
  cases e with
  | resource target field =>
    obtain ⟨hmem, hneeds⟩ := Classical.not_imp.1 he
    have hfound := hempty _ hmem hneeds
    cases field with
    | outputs path =>
      obtain ⟨r, hr, hne⟩ := get_empty path
      exact ⟨r, answer_of_error ((lookup_resource _ hdesc hfound).trans hr), hne⟩
    | guresid | account => exact ⟨_, answer_of_error (lookup_resource _ hdesc hfound), by simp, by simp⟩
  | shared id path =>
    obtain ⟨p, hp, hneeds, -⟩ := unsettled_shared he
    obtain ⟨r, hr, hne⟩ := get_empty path
    have hlast := sharedScope_last hp (hempty p (providers_mem hg (mem_of_getLast? hp)) hneeds)
    exact ⟨r, answer_of_error ((lookup_shared path hlast).trans hr), hne⟩
  | _ => exact absurd trivial he

theorem answer_unsettled (hg : buildGraph input = .ok dep.graph) (hn : dep.graph.nodes[d]? = some n) {e : Expr}
    (he : ¬ dep.Settled d e) {r : Reason} (hshared : ∀ id, r ≠ .noShared id) (hgraph : ∀ x, r ≠ .notInGraph x) :
    ∃ rest, (dep.scopeFor n (dep.graph.fill d done rest) guresid).answer e ≠ .error r := by
  have hdesc := built_descriptor hg hn
  cases e with
  | resource target field =>
    obtain ⟨hmem, hneeds⟩ := Classical.not_imp.1 he
    refine ⟨none, fun h => hgraph (readTarget d target).text ?_⟩
    exact Except.error.inj (h.symm.trans (answer_of_error (lookup_resource field hdesc (fill_rest hmem hneeds))))
  | shared id path =>
    obtain ⟨p, hp, hneeds, hnone⟩ := unsettled_shared he
    cases hname : outputName path with
    | some name =>
      -- the last resource with the ID has the output
      refine ⟨some (.having name path.tail), fun h => ?_⟩
      have hlast : (dep.sharedScope (dep.graph.fill d done (some (.having name path.tail))))[id]? = _ :=
        sharedScope_last hp (fill_rest (providers_mem hg (mem_of_getLast? hp)) hneeds)
      unfold answer at h
      rw [lookup_shared path hlast, Option.elim_some, get_having hname] at h
      cases h
    | none =>
      -- no resource with the ID has finished
      refine ⟨none, fun h => hshared id ?_⟩
      have hscope : (dep.sharedScope (dep.graph.fill d done none))[id]? = none := by
        rw [sharedScope_get, getLast?_eq_none_iff, filterMap_eq_nil_iff]
        exact fun q hq => fill_rest (providers_mem hg hq) (hnone hname q hq)
      exact Except.error.inj (h.symm.trans (answer_of_error (lookup_shared path hscope)))
  | _ => exact absurd trivial he

theorem settled_of_scheduleIndependent (hg : buildGraph input = .ok dep.graph) (hn : dep.graph.nodes[d]? = some n)
    (h : dep.ScheduleIndependent d n dfn guresid) (hdone : dep.graph.Finished n done) :
    ∀ e ∈ dep.looksUp n dfn guresid done, dep.Settled d e := by
  intro e he
  by_contra hunsettled
  obtain ⟨b, hb⟩ := built_expanded hg
  have hclosed : ∀ x t, dep.graph.Edge x t → t ∈ dep.graph.nodes := fun x t ⟨m, hm, ht⟩ => built_target hg hb hm ht
  have hfill : ∀ rest, dep.graph.Finished n (dep.graph.fill d done rest) ∧
      dep.graph.Agree d done (dep.graph.fill d done rest) := fun _ => ⟨fill_finished hclosed hn hdone, fill_agree hclosed⟩
  -- the first unsettled placeholder ends the job when everything else has finished with no outputs
  obtain ⟨err, e', r, hrun, htold, -, he'⟩ := run_refused (jobInputs_blames n dfn _)
    (fun e hX => answer_of_settled hg hb hn hdone (hfill (some .empty)).1 (hfill (some .empty)).2 (not_not.1 hX))
    (fun e hX => (refused_of_unsettled hg hn hX).imp fun _ hr => hr.1) he hunsettled
  have hr := (refused_of_run (jobInputs_blames n dfn _) hrun htold).2
  obtain ⟨r', hr', hshared, hgraph⟩ : ∃ r, (dep.scopeFor n (dep.graph.fill d done (some .empty)) guresid).answer e' = .error r ∧
      _ := refused_of_unsettled hg hn he'
  rw [hr] at hr'
  cases hr'
  -- and it does not end like this with other outputs
  obtain ⟨rest, hrest⟩ : ∃ rest, (dep.scopeFor n (dep.graph.fill d done rest) guresid).answer e' ≠ .error r :=
    answer_unsettled hg hn he' hshared hgraph
  have hsame := (h done _ hdone (hfill (some .empty)).1 (hfill (some .empty)).2).symm.trans
    (h done _ hdone (hfill rest).1 (hfill rest).2)
  rw [inputsAfter_eq hg hn (hfill (some .empty)).2, inputsAfter_eq hg hn (hfill rest).2, hrun] at hsame
  exact hrest (refused_of_run (jobInputs_blames n dfn _) hsame.symm htold).2

/-- A job is the same whatever else has finished exactly when, whatever has finished, every placeholder that it gets to is
settled by what its node waits for. -/
theorem schedule_independent_iff (input : GraphInput) (dep : Engine.Deployment) (hg : buildGraph input = .ok dep.graph)
    (d : Descriptor) (n : Node) (hn : dep.graph.nodes[d]? = some n) (dfn : ResourceDefinition) (guresid : Option Guresid) :
    dep.ScheduleIndependent d n dfn guresid ↔
      ∀ done, dep.graph.Finished n done → ∀ e ∈ dep.looksUp n dfn guresid done, dep.Settled d e :=
  ⟨fun h _ hdone => settled_of_scheduleIndependent hg hn h hdone, scheduleIndependent_of_settled hg hn⟩

end Engine.Deployment

def ledgerDefinition : ResourceDefinition := plainDefinition ⟨"ledger", by decide⟩ .dynamodbTable []

def ledgerInput : GraphInput :=
  { companions [] with
    set := {
      modules := ∅
      shared := .ofList [("ledger", { ty := .dynamodbTable, params := some (.obj [("zone", .str "$\x7bshared.zone.host\x7d")]) }),
        ("zone", { ty := .dns })] _ }
    definitions := (companions []).definitions.filter (·.ty ≠ .dynamodbTable) ++
      [ledgerDefinition, plainDefinition ⟨"zone", by decide⟩ .dns []] }

def ledgerGraph : ResourceGraph := (buildGraph ledgerInput).toOption.getD { nodes := ∅, layers := [] }

def greeterOver (graph : ResourceGraph) : Engine.Deployment := { greeter "" "" with graph := graph }

def ledgerDeployment : Engine.Deployment := greeterOver ledgerGraph

def ledger : Descriptor := { ty := .dynamodbTable, cls := .default, id := ⟨"shared.ledger", by decide⟩ }

def zone : Descriptor := { ty := .dns, cls := .default, id := ⟨"shared.zone", by decide⟩ }

def zoneDone : BTreeMap Descriptor ResourceOutputs :=
  (∅ : BTreeMap Descriptor ResourceOutputs).insert zone { empty with values := [("host", .str "z")] }

theorem greeterOver_graph (graph : ResourceGraph) : (greeterOver graph).graph = graph := rfl

theorem ledger_built : buildGraph ledgerInput = .ok ledgerDeployment.graph := by
  rw [ledgerDeployment, greeterOver_graph]
  exact eq_ok_getD (by decide +kernel) _

/-- The ledger's job has its zone only if the zone happens to have finished: the graph lets it run before. -/
theorem ledger_depends_on_schedule : buildGraph ledgerInput = .ok ledgerDeployment.graph ∧
    ∃ n, ledgerDeployment.graph.nodes[ledger]? = some n ∧
      ¬ ledgerDeployment.ScheduleIndependent ledger n ledgerDefinition none := by
  obtain ⟨n, hn, hcheck⟩ := (Option.any_eq_true _ _).1 (by decide +kernel :
    (ledgerDeployment.graph.nodes[ledger]?.any fun n => n.dependsOn.isEmpty &&
      (!(ledgerDeployment.inputsAfter n ledgerDefinition none ∅).isOk &&
        (ledgerDeployment.inputsAfter n ledgerDefinition none zoneDone).isOk)) = true)
  obtain ⟨hempty, hcheck⟩ := Bool.and_eq_true_iff.1 hcheck
  obtain ⟨hfails, hruns⟩ := Bool.and_eq_true_iff.1 hcheck
  have hnone : ∀ t, t ∉ n.dependsOn := fun t ht => by
    rw [Std.ExtTreeSet.isEmpty_iff.1 hempty] at ht
    exact absurd ht Std.ExtTreeSet.not_mem_empty
  have hzone : (ledgerDeployment.graph.nodes[zone]?.any fun m => m.dependsOn.isEmpty) = true := by decide +kernel
  obtain ⟨m, hm, hmempty⟩ := (Option.any_eq_true _ _).1 hzone
  refine ⟨ledger_built, n, hn, fun h => ?_⟩
  have hsame := h ∅ zoneDone ⟨by simp, by simp, fun t ht => absurd ht (hnone t)⟩ ⟨?_, ?_, fun t ht => absurd ht (hnone t)⟩ ?_
  · rw [hsame, hruns] at hfails
    cases hfails
  · intro x hx
    obtain ⟨o, ho⟩ := BTreeMap.mem_iff.1 hx
    rw [zoneDone, BTreeMap.get_insert] at ho
    split at ho
    · rename_i heq
      exact heq ▸ BTreeMap.mem_iff.2 ⟨m, hm⟩
    · simp at ho
  · intro x t hx ⟨m', hm', ht⟩
    obtain ⟨o, ho⟩ := BTreeMap.mem_iff.1 hx
    rw [zoneDone, BTreeMap.get_insert] at ho
    split at ho
    · rename_i heq
      rw [← heq, hm] at hm'
      cases hm'
      rw [Std.ExtTreeSet.isEmpty_iff.1 hmempty] at ht
      exact absurd ht Std.ExtTreeSet.not_mem_empty
    · simp at ho
  · intro t ht
    obtain ⟨x, ⟨n', hn', hx⟩, -⟩ := TransGen.head'_iff.1 ht
    rw [hn] at hn'
    cases hn'
    exact absurd hx (hnone x)

/-- The definition of the ledger refers to the zone, so that the ledger waits for it. -/
def zonedDefinition : ResourceDefinition :=
  { ledgerDefinition with
    driverInputs := { values := [("zone", .str "$\x7bresources['dns#shared.zone'].outputs.host\x7d")] } }

def zonedInput : GraphInput :=
  { ledgerInput with
    set := { modules := ∅, shared := .ofList [("ledger", { ty := .dynamodbTable }), ("zone", { ty := .dns })] _ }
    definitions := zonedDefinition :: ledgerInput.definitions.filter (·.ty ≠ .dynamodbTable) }

def zonedDeployment : Engine.Deployment :=
  greeterOver ((buildGraph zonedInput).toOption.getD { nodes := ∅, layers := [] })

theorem zoned_built : buildGraph zonedInput = .ok zonedDeployment.graph := by
  rw [zonedDeployment, greeterOver_graph]
  exact eq_ok_getD (by decide +kernel) _

def zoneRead : Expr := .resource ⟨.dns, none, some zone.id⟩ (.outputs [.name "host"])

theorem zonedLedger_only {externals} (hty : n.descriptor.ty ≠ .workload) (hparams : n.params = none) :
    (jobInputs n zonedDefinition externals).Only (· = zoneRead) := by
  have hjob : jobParams n externals = (.null, []) := by rw [jobParams, if_neg hty, hparams, Option.getD_none]
  have hvalues : reads .definition (.obj zonedDefinition.driverInputs.values) = [some zoneRead] := by decide +kernel
  refine Ask.Only.bind (.bind ?_ fun _ => .bind .ofExcept fun _ => .bind ?_ fun _ => trivial) fun _ =>
    .bind trivial fun _ => .bind ?_ fun _ => trivial
  · refine (Ask.Only.mono (fun e he => ?_) (resolveValue_only _ _ _ _)).mapError
    rw [hvalues, mem_singleton] at he
    exact Option.some.inj he
  · exact trivial
  · rw [resolveParams, hjob]
    exact trivial

/-- The job of such a ledger reads the zone, whatever else has finished. -/
theorem zonedLedger_independent : ∃ n, zonedDeployment.graph.nodes[ledger]? = some n ∧ zone ∈ n.dependsOn ∧
    zonedDeployment.looksUp n zonedDefinition none zoneDone = [zoneRead] ∧
    zonedDeployment.ScheduleIndependent ledger n zonedDefinition none := by
  obtain ⟨n, hn, hcheck⟩ := (Option.any_eq_true _ _).1 (by decide +kernel :
    (zonedDeployment.graph.nodes[ledger]?.any fun n => decide (zone ∈ n.dependsOn ∧
      zonedDeployment.looksUp n zonedDefinition none zoneDone = [zoneRead] ∧ n.descriptor.ty ≠ .workload ∧
        n.params = none)) = true)
  obtain ⟨hzone, hasked, hty, hparams⟩ := of_decide_eq_true hcheck
  refine ⟨n, hn, hzone, hasked,
    (schedule_independent_iff zonedInput zonedDeployment zoned_built ledger n hn zonedDefinition none).2 fun done _ e he => ?_⟩
  cases (zonedLedger_only hty hparams).asked he
  exact fun _ => .single ⟨n, hn, hzone⟩

end Openporch
