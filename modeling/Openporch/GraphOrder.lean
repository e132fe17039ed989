import Openporch.GraphSound
import Mathlib.Data.Finset.Prod

/-!
# Expansion in any order

`build_graph` visits the set's entries and each definition's `provision` by their keys, and the queue from its front. A
`Turn` takes any queued node, and visits its `provision` in any order. Every run keeps `Underway`: the builder holds
what the set and the nodes expanded so far make it do.
-/

namespace Openporch
open Fallible Op List GraphInput Std.ExtTreeMap

namespace GraphInput
variable (input : GraphInput)

inductive Entry where
  | module (wid : WorkloadId) (m : Module)
  | shared (id : String) (s : SharedResource)

def Entry.ops : Entry → List Op
  | .module wid m => moduleOps wid m
  | .shared id s => sharedOps id s

def entries : List Entry :=
  input.set.modules.toList.map (fun (wid, m) => .module wid m) ++
    input.set.shared.toList.map (fun (id, s) => .shared id s)

/-- `seeds` with the entries, and then the modules for what they read, in the given orders. -/
def seedsIn (entries : List Entry) (reads : List (WorkloadId × Module)) : List Op :=
  .request baseEnv "base-env" none :: entries.flatMap Entry.ops ++
    reads.flatMap fun (wid, m) => input.sharedReads wid m

variable (d : Descriptor) (dfn : ResourceDefinition) (provision : List (String × Provision))

/-- `expansion` with `provision` in the given order. -/
def expansionIn : List Op :=
  match inputPlaceholders dfn with
  | .error e => [.fail (.placeholder dfn.id e)]
  | .ok found =>
    found.flatMap (fun (loc, _, expr) => input.referenceOps d dfn loc expr) ++
      provision.flatMap (fun (key, prov) => input.provisionOps d dfn key prov)

theorem seeds_eq : input.seeds = input.seedsIn input.entries input.set.modules.toList := by
  simp [seeds, seedsIn, entries, flatMap_append, flatMap_map, Entry.ops]

theorem expansion_eq :
    input.expansion d dfn = input.expansionIn d dfn dfn.provision.toList := rfl

variable {input} {op : Op} {es : List Entry} {reads : List (WorkloadId × Module)}

theorem mem_flatMap_perm {α : Type} {l l' : List α} (h : l.Perm l') (f : α → List Op) :
    op ∈ l.flatMap f ↔ op ∈ l'.flatMap f := by simp only [mem_flatMap, h.mem_iff]

theorem mem_seedsIn (hes : es.Perm input.entries)
    (hreads : reads.Perm input.set.modules.toList) : op ∈ input.seedsIn es reads ↔ op ∈ input.seeds := by
  rw [seeds_eq, seedsIn, seedsIn, mem_append, mem_append, mem_cons, mem_cons, mem_flatMap_perm hes,
    mem_flatMap_perm hreads]

theorem mem_expansionIn {d : Descriptor} {dfn provision} (h : provision.Perm dfn.provision.toList) :
    op ∈ input.expansionIn d dfn provision ↔ op ∈ input.expansion d dfn := by
  rw [expansion_eq]
  unfold expansionIn
  split
  · rfl
  · rw [mem_append, mem_append, mem_flatMap_perm h]

theorem Entry.ops_sound (e : Entry) : Sound (fun _ => False) e.ops := by
  cases e with
  | module wid m => exact moduleOps_sound wid m
  | shared id s => exact sharedOps_sound id s

theorem seedsIn_sound (hes : es.Perm input.entries)
    (hreads : reads.Perm input.set.modules.toList) : Sound (fun _ => False) (input.seedsIn es reads) := by
  refine Sound.append (Sound.flatMap fun e _ => e.ops_sound.mono fun _ => False.elim) ?_
  -- Shared resources are requested before the edges to them, in whichever order the entries come.
  have hentry : ∀ {e : Entry} {t : Descriptor}, e ∈ input.entries → Requests e.ops t →
      Requests (.request baseEnv "base-env" none :: es.flatMap Entry.ops) t := by
    rintro e t he ⟨path, params, hreq⟩
    exact ⟨path, params, mem_cons_of_mem _ (mem_flatMap.2 ⟨e, hes.mem_iff.2 he, hreq⟩)⟩
  refine Sound.flatMap fun p hp => input.sharedReads_sound (.inr ?_) fun id t ht => .inr ?_
  · refine hentry (mem_append_left _ (mem_map.2 ⟨p, hreads.mem_iff.1 hp, rfl⟩)) ?_
    exact ⟨_, _, mem_cons_self⟩
  · obtain ⟨path, params, hreq⟩ := input.sharedTarget_requested ht
    obtain ⟨q, hq, hreq⟩ := mem_flatMap.1 hreq
    exact hentry (mem_append_right _ (mem_map.2 ⟨q, hq, rfl⟩)) ⟨path, params, hreq⟩

theorem expansionIn_sound :
    Sound (· = d) (input.expansionIn d dfn provision) := by
  unfold expansionIn
  split
  · exact ⟨nofun, trivial⟩
  · refine Sound.append (.flatMap fun ⟨loc, _, e⟩ _ => input.referenceOps_sound d dfn loc e) ?_
    exact (Sound.flatMap fun ⟨key, prov⟩ _ => input.provisionOps_sound d dfn key prov).mono fun _ => .inl

theorem seeds_sound : Sound (fun _ => False) input.seeds := by
  rw [seeds_eq]
  exact seedsIn_sound (.refl _) (.refl _)

theorem opsOf_sound : Sound (· = d) (input.opsOf d) := by
  unfold opsOf
  cases input.definitionOf d with
  | none => trivial
  | some dfn => exact expansionIn_sound d dfn dfn.provision.toList

end GraphInput

namespace Builder
variable (input : GraphInput) (b : Builder)

/-- `expand` with the definition's `provision` in the order it is given. -/
def expandIn (order : ResourceDefinition → List (String × Provision)) (d : Descriptor) : Except Stop Builder :=
  match b.nodes[d]? with
  | none => .error .panic
  | some node =>
    match input.definitions.find? (·.id = node.definition) with
    | none => .error .panic
    | some dfn => (input.expansionIn d dfn (order dfn)).foldlM (apply input) b

inductive Turn : Except Stop Builder → Prop where
  | expand {front back d order} (hqueue : b.queue = front ++ d :: back)
      (horder : ∀ dfn, (order dfn).Perm dfn.provision.toList) :
    Turn ({ b with queue := front ++ back }.expandIn input order d)

inductive Turns : Nat → Builder → Builder → Prop where
  | none {b : Builder} : Turns 0 b b
  | turn {n : Nat} {b b₁ b' : Builder} (h : Turn input b (.ok b₁)) (hrest : Turns n b₁ b') : Turns (n + 1) b b'

def Ends (r : Except Stop Builder) : Prop :=
  ∃ n b', Turns input n b b' ∧ ((b'.queue = [] ∧ r = .ok b') ∨ ∃ e, Turn input b' (.error e) ∧ r = .error e)

end Builder

variable {input : GraphInput} {ops : List Op} {b b' : Builder} {done : List Descriptor} {d : Descriptor}

theorem Builder.expandAll_ends (bound : Nat) (b : Builder) :
    Ends input b (expandAll input bound b) ∨
      expandAll input bound b = .error .spin ∧ ∃ b', Turns input bound b b' ∧ b'.queue ≠ [] := by
  have hempty : ∀ {b : Builder}, b.queue = [] → Ends input b (.ok b) := fun h => ⟨0, _, .none, .inl ⟨h, rfl⟩⟩
  induction bound generalizing b with
  | zero =>
    rw [expandAll]
    split
    · rename_i hqueue
      exact .inl (hempty (List.isEmpty_iff.1 hqueue))
    · rename_i hqueue
      exact .inr ⟨rfl, b, .none, fun h => hqueue (List.isEmpty_iff.2 h)⟩
  | succ bound ih =>
    rw [expandAll]
    split
    · rename_i hqueue
      exact .inl (hempty hqueue)
    · rename_i d queue hqueue
      have horder : ∀ dfn : ResourceDefinition, dfn.provision.toList.Perm dfn.provision.toList := fun _ => .refl _
      have hfront : b.queue = [] ++ d :: queue := hqueue
      have hturn : Turn input b (expand input { b with queue } d) := .expand hfront horder
      cases hexpand : expand input { b with queue } d with
      | error e =>
        rw [hexpand] at hturn
        exact .inl ⟨0, b, .none, .inr ⟨e, hturn, rfl⟩⟩
      | ok b₁ =>
        rw [hexpand] at hturn
        rw [ok_bind]
        rcases ih b₁ with ⟨n, b', hturns, hend⟩ | ⟨hspin, b', hturns, hqueue'⟩
        · exact .inl ⟨n + 1, b', .turn hturn hturns, hend⟩
        · exact .inr ⟨hspin, b', .turn hturn hturns, hqueue'⟩

inductive GraphInput.Demanded (input : GraphInput) : Descriptor → Prop where
  | seed {d : Descriptor} (h : Requests input.seeds d) : Demanded input d
  | expanded {x d : Descriptor} (hx : Demanded input x) (h : Requests (input.opsOf x) d) : Demanded input d

def GraphInput.Makes (input : GraphInput) (op : Op) : Prop :=
  op ∈ input.seeds ∨ ∃ x, input.Demanded x ∧ op ∈ input.opsOf x

namespace GraphInput

theorem mem_opsFor {op : Op} : op ∈ input.opsFor done ↔ op ∈ input.seeds ∨ ∃ x ∈ done, op ∈ input.opsOf x := by
  simp [opsFor]

theorem makes_of_mem (hdone : ∀ x ∈ done, input.Demanded x) {op : Op} (h : op ∈ input.opsFor done) : input.Makes op := by
  rcases mem_opsFor.1 h with h | ⟨x, hx, h⟩
  · exact .inl h
  · exact .inr ⟨x, hdone x hx, h⟩

theorem Makes.demanded {path : String} {params : Option Json} (h : input.Makes (.request d path params)) :
    input.Demanded d := by
  rcases h with h | ⟨x, hx, h⟩
  · exact .seed ⟨path, params, h⟩
  · exact .expanded hx ⟨path, params, h⟩

end GraphInput

/-- How far a run has come: the nodes in `done` are expanded. -/
structure Underway (input : GraphInput) (done : List Descriptor) (b : Builder) : Prop where
  built : Built input (input.opsFor done) b
  queued : Queued done b
  demanded : ∀ x ∈ done, input.Demanded x

theorem Underway.node (h : Underway input done b) (hd : d ∈ b.nodes) : input.Demanded d := by
  obtain ⟨path, params, hreq⟩ := (h.built.mem d).1 hd
  exact (makes_of_mem h.demanded hreq).demanded

variable {es : List GraphInput.Entry} {reads : List (WorkloadId × Module)} {e : Stop} {r : Except Stop Builder}

theorem Underway.start (hes : es.Perm input.entries)
    (hreads : reads.Perm input.set.modules.toList)
    (h : (input.seedsIn es reads).foldlM (Builder.apply input) .empty = .ok b) : Underway input [] b where
  built := (Built.empty.foldlM h).congr fun op => by
    rw [nil_append, mem_seedsIn hes hreads, mem_opsFor]
    simp
  queued := Queued.empty.foldlM h
  demanded := by simp

theorem start_error (hes : es.Perm input.entries)
    (hreads : reads.Perm input.set.modules.toList)
    (h : (input.seedsIn es reads).foldlM (Builder.apply input) .empty = .error e) :
    ∃ g, e = .error g ∧ input.Refused input.Makes g := by
  obtain ⟨g, rfl, hg⟩ := Built.empty.foldlM_error (seedsIn_sound hes hreads) (fun _ => False.elim) h
  refine ⟨g, rfl, hg.mono fun op hop => .inl ?_⟩
  exact (mem_seedsIn hes hreads).1 hop

theorem Underway.turn_ops (h : Underway input done b) (hr : Builder.Turn input b r) :
    ∃ d queue ops, d ∈ b.nodes ∧ Queued (done ++ [d]) { b with queue } ∧ Sound (· = d) ops ∧
      (∀ op, op ∈ input.opsFor done ++ ops ↔ op ∈ input.opsFor (done ++ [d])) ∧
      r = ops.foldlM (Builder.apply input) { b with queue } := by
  obtain ⟨hqueue, horder⟩ := hr
  rename_i front back d order
  have hd : d ∈ b.nodes := (h.queued.mem d).2 (by simp [hqueue])
  obtain ⟨n, hn⟩ := BTreeMap.mem_iff.1 hd
  have hnode := h.built.node d n hn
  obtain ⟨dfn, hdfn⟩ : ∃ dfn, input.definitions.find? (·.id = n.definition) = some dfn := by
    obtain ⟨dfn, hdfn, hid, -⟩ := hnode.matched
    exact Option.isSome_iff_exists.1 (find?_isSome.2 ⟨dfn, selectDefinition_mem hdfn, by simp [hid]⟩)
  have hperm : (done ++ [d] ++ (front ++ back)).Perm (done ++ b.queue) := by
    rw [hqueue, append_assoc, singleton_append]
    exact perm_middle.symm.append_left done
  refine ⟨d, front ++ back, input.expansionIn d dfn (order dfn), hd, ⟨?_, fun x => ?_⟩,
    expansionIn_sound d dfn _, fun op => ?_, by simp [Builder.expandIn, hn, hdfn]⟩
  · exact hperm.nodup_iff.2 h.queued.nodup
  · rw [hperm.mem_iff]
    exact h.queued.mem x
  · have hops : input.opsOf d = input.expansion d dfn := by
      rw [GraphInput.opsOf, hnode.definitionOf, hdfn]
      rfl
    rw [opsFor_append, mem_append, mem_append, mem_expansionIn (horder dfn), hops]

theorem Underway.demanded_append (h : Underway input done b) (hd : d ∈ b.nodes) : ∀ x ∈ done ++ [d], input.Demanded x := by
  intro x hx
  rcases mem_append.1 hx with hx | hx
  · exact h.demanded x hx
  · exact mem_singleton.1 hx ▸ h.node hd

theorem Underway.turn (h : Underway input done b) (hr : Builder.Turn input b (.ok b')) :
    ∃ d, Underway input (done ++ [d]) b' := by
  obtain ⟨d, queue, ops, hd, hqueued, -, hops, hrun⟩ := h.turn_ops hr
  exact ⟨d, ((h.built.queue queue).foldlM hrun.symm).congr hops, hqueued.foldlM hrun.symm, h.demanded_append hd⟩

theorem Underway.turn_error (h : Underway input done b) (hr : Builder.Turn input b (.error e)) :
    ∃ g, e = .error g ∧ input.Refused input.Makes g := by
  obtain ⟨d, queue, ops, hd, -, hsound, hops, hrun⟩ := h.turn_ops hr
  obtain ⟨g, rfl, hg⟩ := (h.built.queue queue).foldlM_error hsound (by rintro x rfl; exact hd) hrun.symm
  exact ⟨g, rfl, hg.mono fun op hop => makes_of_mem (h.demanded_append hd) ((hops op).1 hop)⟩

theorem Underway.turns (h : Underway input done b) {n : Nat} (hr : Builder.Turns input n b b') :
    ∃ done', Underway input done' b' ∧ done'.length = done.length + n := by
  induction hr generalizing done with
  | none => exact ⟨done, h, rfl⟩
  | turn hturn hrest ih =>
    obtain ⟨d, h1⟩ := h.turn hturn
    obtain ⟨done', h', hlen⟩ := ih h1
    refine ⟨done', h', ?_⟩
    rw [hlen, length_append, length_singleton]
    omega

namespace GraphInput
variable (input : GraphInput)

def asks : List Descriptor :=
  input.seeds.filterMap fun
    | .request d _ _ => some d
    | _ => none

def refs : List ResourceRef := input.definitions.flatMap definitionRefs

def writtenClasses : Finset ClassId := (input.asks.map (·.cls) ++ input.refs.filterMap (·.cls)).toFinset

def writtenIds : Finset ResId :=
  (input.asks.map (·.id) ++ input.refs.filterMap (·.id) ++
    (input.types.filter (·.use = .implicit)).map (·.id.asResId)).toFinset

def nodeBound : Nat := (input.types.map (·.id)).toFinset.card * input.writtenClasses.card * input.writtenIds.card

variable {input}

theorem mem_asks (h : Requests input.seeds d) : d ∈ input.asks := by
  obtain ⟨path, params, h⟩ := h
  exact mem_filterMap.2 ⟨_, h, rfl⟩

theorem default_written : ClassId.default ∈ input.writtenClasses := by
  refine mem_toFinset.2 (mem_append_left _ (mem_map.2 ⟨baseEnv, mem_asks ⟨"base-env", none, ?_⟩, rfl⟩))
  exact mem_append_left _ (mem_append_left _ mem_cons_self)

theorem resolveRef_written {target : ResourceRef} (htarget : target ∈ input.refs) (hcls : d.cls ∈ input.writtenClasses)
    (hid : d.id ∈ input.writtenIds) :
    (input.resolveRef target d).cls ∈ input.writtenClasses ∧ (input.resolveRef target d).id ∈ input.writtenIds := by
  have hclass : ∀ c ∈ input.writtenClasses, target.cls.getD c ∈ input.writtenClasses := by
    intro c hc
    cases htext : target.cls with
    | none => exact hc
    | some cls => exact mem_toFinset.2 (mem_append_right _ (mem_filterMap.2 ⟨target, htarget, htext⟩))
  have hresId : ∀ i ∈ input.writtenIds, target.id.getD i ∈ input.writtenIds := by
    intro i hi
    cases htext : target.id with
    | none => exact hi
    | some id =>
      refine mem_toFinset.2 (mem_append_left _ (mem_append_right _ ?_))
      exact mem_filterMap.2 ⟨target, htarget, htext⟩
  unfold resolveRef ResourceRef.resolve
  split
  · rename_i himplicit
    obtain ⟨ty, hty, huse⟩ := (Option.any_eq_true ..).1 himplicit
    have hname : ty.id = target.ty := by simpa using find?_some hty
    refine ⟨hclass _ default_written, hresId _ (mem_toFinset.2 (mem_append_right _ ?_))⟩
    refine mem_map.2 ⟨ty, mem_filter.2 ⟨mem_of_find?_eq_some hty, huse⟩, by rw [hname]⟩
  · exact ⟨hclass _ hcls, hresId _ hid⟩

theorem Demanded.written (h : input.Demanded d) : d.cls ∈ input.writtenClasses ∧ d.id ∈ input.writtenIds := by
  induction h with
  | seed h =>
    refine ⟨mem_toFinset.2 (mem_append_left _ ?_),
      mem_toFinset.2 (mem_append_left _ (mem_append_left _ ?_))⟩
    · exact mem_map.2 ⟨_, mem_asks h, rfl⟩
    · exact mem_map.2 ⟨_, mem_asks h, rfl⟩
  | @expanded x d hx h ih =>
    obtain ⟨dfn, hdfn, target, htarget, rfl⟩ := opsOf_requests h
    exact resolveRef_written (mem_flatMap.2 ⟨dfn, definitionOf_mem hdfn, htarget⟩) ih.1 ih.2

theorem writtenIds_subset {id : ResId} (h : id ∈ input.writtenIds) : id ∈ input.ids := by
  simp only [writtenIds, toFinset_append, Finset.mem_union, mem_toFinset] at h
  simp only [ids, mem_append]
  rcases h with (h | h) | h
  · obtain ⟨d, hd, rfl⟩ := mem_map.1 h
    refine .inl (.inl ?_)
    obtain ⟨op, hop, hd⟩ := mem_filterMap.1 hd
    refine mem_filterMap.2 ⟨op, hop, ?_⟩
    cases op with
    | request d' path params => exact congrArg (Option.map Descriptor.id) hd
    | edge | coProvision | fail => cases hd
  · exact .inr h
  · obtain ⟨ty, hty, rfl⟩ := mem_map.1 h
    exact .inl (.inr (mem_map.2 ⟨ty, mem_of_mem_filter hty, rfl⟩))

end GraphInput

theorem NodeOf.mem_type {n : Node} (h : NodeOf input ops d n) : d.ty ∈ input.types.map (·.id) := by
  obtain ⟨ty, hty⟩ := Option.isSome_iff_exists.1 h.typed
  exact mem_map.2 ⟨ty, mem_of_find?_eq_some hty, by simpa using find?_some hty⟩

theorem Underway.length_done_le (h : Underway input done b) : done.length ≤ b.nodes.size := by
  have hsub : done ⊆ b.nodes.keys := fun x hx =>
    mem_keys.2 ((h.queued.mem x).2 (mem_append_left _ hx))
  have hnodup : done.Nodup := (nodup_append'.1 h.queued.nodup).1
  rw [← length_keys]
  exact (subperm_of_subset hnodup hsub).length_le

theorem Underway.size_le (h : Underway input done b) : b.nodes.size ≤ input.nodeBound := by
  have hmem : ∀ d ∈ b.nodes.keys, (d.ty, d.cls, d.id) ∈
      (input.types.map (·.id)).toFinset ×ˢ input.writtenClasses ×ˢ input.writtenIds := by
    intro d hd
    have hd := mem_keys.1 hd
    obtain ⟨n, hn⟩ := BTreeMap.mem_iff.1 hd
    obtain ⟨hcls, hid⟩ := (h.node hd).written
    exact Finset.mk_mem_product (mem_toFinset.2 (h.built.node d n hn).mem_type) (Finset.mk_mem_product hcls hid)
  have hinj : Set.InjOn (fun d : Descriptor => (d.ty, d.cls, d.id)) (b.nodes.keys.toFinset : Set Descriptor) := by
    rintro ⟨ty, cls, id⟩ - ⟨ty', cls', id'⟩ - heq
    simpa using heq
  have hnodup : b.nodes.keys.Nodup := nodup_keys
  rw [← length_keys, ← toFinset_card_of_nodup hnodup, nodeBound, mul_assoc,
    ← Finset.card_product, ← Finset.card_product]
  exact Finset.card_le_card_of_injOn _ (fun d hd => hmem d (mem_toFinset.1 hd)) hinj

structure Expanded (input : GraphInput) (order : List Descriptor) (b : Builder) : Prop where
  built : Built input (input.opsFor order) b
  nodup : order.Nodup
  mem : ∀ d, d ∈ b.nodes ↔ d ∈ order

inductive Expands (input : GraphInput) : Except Stop Builder → Prop where
  | refused {es reads e : _} (hes : es.Perm input.entries)
      (hreads : reads.Perm input.set.modules.toList)
      (h : (input.seedsIn es reads).foldlM (Builder.apply input) .empty = .error e) :
    Expands input (.error e)
  | ended {es reads b r : _} (hes : es.Perm input.entries)
      (hreads : reads.Perm input.set.modules.toList)
      (h : (input.seedsIn es reads).foldlM (Builder.apply input) .empty = .ok b)
      (hr : b.Ends input r) : Expands input r

theorem Underway.expanded (h : Underway input done b) (hqueue : b.queue = []) :
    Expanded input done b ∧ ∀ d, input.Demanded d ↔ d ∈ b.nodes := by
  have hmem : ∀ d, d ∈ b.nodes ↔ d ∈ done := fun d => by simpa [hqueue] using h.queued.mem d
  refine ⟨⟨h.built, by simpa [hqueue] using h.queued.nodup, hmem⟩, fun d => ⟨fun hd => ?_, h.node⟩⟩
  induction hd with
  | seed hreq =>
    obtain ⟨path, params, hreq⟩ := hreq
    exact (h.built.mem _).2 ⟨path, params, mem_opsFor.2 (.inl hreq)⟩
  | expanded hx hreq ih =>
    obtain ⟨path, params, hreq⟩ := hreq
    exact (h.built.mem _).2 ⟨path, params, mem_opsFor.2 (.inr ⟨_, (hmem _).1 ih, hreq⟩)⟩

theorem Expands.cases (h : Expands input r) :
    (∃ order b, r = .ok b ∧ Expanded input order b ∧ ∀ d, input.Demanded d ↔ d ∈ b.nodes) ∨
      ∃ g, r = .error (.error g) ∧ input.Refused input.Makes g := by
  cases h with
  | refused hes hreads h =>
    obtain ⟨g, rfl, hg⟩ := start_error hes hreads h
    exact .inr ⟨g, rfl, hg⟩
  | ended hes hreads h hr =>
    obtain ⟨n, b', hturns, hend⟩ := hr
    obtain ⟨order, hprogress, -⟩ := (Underway.start hes hreads h).turns hturns
    rcases hend with ⟨hqueue, rfl⟩ | ⟨e, hturn, rfl⟩
    · exact .inl ⟨order, b', rfl, hprogress.expanded hqueue⟩
    · obtain ⟨g, rfl, hg⟩ := hprogress.turn_error hturn
      exact .inr ⟨g, rfl, hg⟩

theorem Expands.inv {Inv : Builder → Prop} (hempty : Inv .empty)
    (hqueue : ∀ (b : Builder) queue, Inv b → Inv { b with queue })
    (happly : ∀ {b b' : Builder} {op : Op}, Inv b → b.apply input op = .ok b' → Inv b') (h : Expands input (.ok b)) :
    Inv b := by
  have hfold : ∀ {b b' : Builder} {ops : List Op}, Inv b → ops.foldlM (Builder.apply input) b = .ok b' → Inv b' :=
    fun {b b' ops} hb h => foldlM_ok (fun _ => Inv) (fun _ _ _ _ hb h => happly hb h) ops [] hb h
  have hturns : ∀ {n : Nat} {b b' : Builder}, Builder.Turns input n b b' → Inv b → Inv b' := by
    intro n b b' h
    induction h with
    | none => exact id
    | @turn n b b₁ b' h hrest ih =>
      intro hb
      refine ih ?_
      generalize hr : (Except.ok b₁ : Except Stop Builder) = r at h
      obtain ⟨-, -⟩ := h
      unfold Builder.expandIn at hr
      split at hr
      · cases hr
      · split at hr
        · cases hr
        · exact hfold (hqueue _ _ hb) hr.symm
  generalize hr : (Except.ok b : Except Stop Builder) = r at h
  cases h with
  | refused => cases hr
  | ended hes hreads h hends =>
    obtain ⟨n, b', hrun, hend⟩ := hends
    rcases hend with ⟨-, rfl⟩ | ⟨e, -, rfl⟩
    · cases hr
      exact hturns hrun (hfold hempty h)
    · cases hr

theorem Underway.mem_descriptors (h : Underway input done b) (hd : d ∈ b.nodes) : d ∈ input.descriptors := by
  obtain ⟨n, hn⟩ := BTreeMap.mem_iff.1 hd
  have hnode := h.built.node d n hn
  obtain ⟨ty, hty, hname⟩ := mem_map.1 hnode.mem_type
  refine mem_flatMap.2 ⟨ty, hty, mem_flatMap.2 ⟨d.cls, GraphInput.ClassRegistry.mem_of_contains hnode.classed, ?_⟩⟩
  exact mem_map.2 ⟨d.id, writtenIds_subset (h.node hd).written.2, by rw [hname]⟩

theorem expandInput_expands (input : GraphInput) : Expands input (expandInput input) := by
  unfold expandInput
  rw [seeds_eq]
  cases hseeds : (input.seedsIn input.entries input.set.modules.toList).foldlM (Builder.apply input) .empty with
  | error e => exact .refused (.refl _) (.refl _) hseeds
  | ok b =>
    rw [ok_bind]
    rcases Builder.expandAll_ends input.descriptors.length b with hends | ⟨-, b', hturns, hqueue⟩
    · exact .ended (.refl _) (.refl _) hseeds hends
    · exfalso
      obtain ⟨done, h, hlen⟩ := (Underway.start (.refl _) (.refl _) hseeds).turns hturns
      have hle := subperm_of_subset h.queued.nodup fun x hx => h.mem_descriptors ((h.queued.mem x).2 hx)
      have hle := hle.length_le
      rw [length_append, hlen, length_nil, Nat.zero_add] at hle
      exact hqueue (length_eq_zero_iff.1 (by omega))

theorem GraphInput.Refused.not_cycle {g : GraphError} (h : input.Refused input.Makes g) (c : List Descriptor) :
    g ≠ .cycle c := by
  cases h with
  | failed h =>
    rcases h with h | ⟨x, -, h⟩
    · exact seeds_sound.fail h c
    · exact (opsOf_sound x).fail h c
  | _ => simp

end Openporch
