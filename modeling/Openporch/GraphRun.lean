import Openporch.Graph
import Openporch.Lib.Fallible

/-!
# What the builder holds

`Built` relates a builder to the list of operations it ran: its nodes are the resources requested, with every request
and edge of the list, whatever the order. It is kept by each operation.
-/

namespace Openporch
open Fallible List Builder ResourceRef BTreeMap Std.ExtTreeMap

namespace Op

/-- The requests for `d`, with their paths and params. -/
def asked (ops : List Op) (d : Descriptor) : List (String × Option Json) :=
  ops.filterMap fun
    | .request d' path params => if d' = d then some (path, params) else none
    | _ => none

variable {ops : List Op} {d : Descriptor} {path : String} {params : Option Json}

theorem mem_asked : (path, params) ∈ asked ops d ↔ .request d path params ∈ ops := by
  simp only [asked, mem_filterMap]
  constructor
  · rintro ⟨op, hop, h⟩
    split at h
    · split at h
      · rename_i heq
        cases h
        exact heq ▸ hop
      · cases h
    · cases h
  · intro h
    exact ⟨_, h, by simp⟩

@[simp]
theorem asked_append (ops' : List Op) : asked (ops ++ ops') d = asked ops d ++ asked ops' d := filterMap_append

@[simp]
theorem asked_request (d' : Descriptor) :
    asked [.request d' path params] d = if d' = d then [(path, params)] else [] := by
  by_cases h : d' = d <;> simp [asked, h]

@[simp]
theorem asked_edge (a t : Descriptor) : asked [.edge a t] d = [] := rfl

@[simp]
theorem asked_coProvision (c : CoProvision) : asked [.coProvision c] d = [] := rfl

end Op

open Op

def Request.of (a : String × Option Json) : Request := { path := a.1, params := a.2.map toCanonicalString }

/-- The inputs of a node: those of the request that fixed them, with which the others that supply any agree. -/
inductive ParamsOf (asked : List (String × Option Json)) : Option Json → Option (String × String) → Prop where
  | unset (h : ∀ a ∈ asked, a.2 = none) : ParamsOf asked none none
  | fixed {path p} (h : (path, some p) ∈ asked)
      (hall : ∀ a ∈ asked, ∀ q, a.2 = some q → toCanonicalString q = toCanonicalString p) :
    ParamsOf asked (given (some p)) (some (path, toCanonicalString p))

/-- A node for `d` once `ops` ran. -/
structure NodeOf (input : GraphInput) (ops : List Op) (d : Descriptor) (n : Node) : Prop where
  descriptor : n.descriptor = d
  typed : (input.resourceType d.ty).isSome = true
  classed : input.classes.contains d.ty d.cls = true
  matched : ∃ dfn, selectDefinition input.definitions (input.contextFor d) = .ok dfn ∧ n.definition = dfn.id ∧
    n.driverType = dfn.driverType
  requests : ∀ r, r ∈ n.requests ↔ ∃ a ∈ asked ops d, r = Request.of a
  dependsOn : ∀ t, t ∈ n.dependsOn ↔ .edge d t ∈ ops

theorem Builder.mem_insertRequest {r s : Request} {requests : List Request} :
    r ∈ insertRequest s requests ↔ r = s ∨ r ∈ requests := by
  unfold insertRequest
  split
  · rename_i h
    constructor
    · exact .inr
    · rintro (rfl | hr)
      · exact h
      · exact hr
  · rw [mem_orderedInsert]

variable {input : GraphInput} {ops : List Op} {d : Descriptor} {n : Node} {b b' : Builder}
  {op : Op} {params : Option Json}

theorem NodeOf.other (h : NodeOf input ops d n) (hasked : asked [op] d = []) (hedge : ∀ t, op ≠ .edge d t) :
    NodeOf input (ops ++ [op]) d n where
  descriptor := h.descriptor
  typed := h.typed
  classed := h.classed
  matched := h.matched
  requests r := by simp [h.requests, hasked]
  dependsOn t := by simp [h.dependsOn, (hedge t).symm]

theorem NodeOf.edge (h : NodeOf input ops d n) (t : Descriptor) :
    NodeOf input (ops ++ [.edge d t]) d { n with dependsOn := n.dependsOn.insert t } where
  descriptor := h.descriptor
  typed := h.typed
  classed := h.classed
  matched := h.matched
  requests r := by simp [h.requests]
  dependsOn t' := by
    rw [BTreeSet.mem_insert_iff, h.dependsOn]
    simp [or_comm, eq_comm]

theorem NodeOf.again (h : NodeOf input ops d n) (path : String) (params params' : Option Json) :
    NodeOf input (ops ++ [.request d path params]) d
      { n with requests := insertRequest (Request.of (path, params)) n.requests, params := params' } where
  descriptor := h.descriptor
  typed := h.typed
  classed := h.classed
  matched := h.matched
  requests r := by
    rw [mem_insertRequest, h.requests]
    simp only [asked_append, asked_request, if_true, mem_append, mem_singleton]
    constructor
    · rintro (rfl | ⟨a, ha, rfl⟩)
      · exact ⟨_, .inr rfl, rfl⟩
      · exact ⟨a, .inl ha, rfl⟩
    · rintro ⟨a, ha | rfl, rfl⟩
      · exact .inr ⟨a, ha, rfl⟩
      · exact .inl rfl
  dependsOn t := by simp [h.dependsOn]

variable {path : String}

theorem Builder.again_cases (h : b.again d n path params = .ok b') : ∃ params', b'.nodes = b.nodes.insert d
        { n with requests := insertRequest (Request.of (path, params)) n.requests, params := params' } ∧
      b'.queue = b.queue ∧ b'.co = b.co ∧
      ((params' = n.params ∧ b'.explicit = b.explicit ∧
          ∀ p, params = some p → ∃ first, b.explicit[d]? = some (first, toCanonicalString p)) ∨
        ∃ p, params = some p ∧ b.explicit[d]? = none ∧ params' = given params ∧
          b'.explicit = b.explicit.insert d (path, toCanonicalString p)) := by
  cases params with
  | none =>
    cases h
    exact ⟨n.params, rfl, rfl, rfl, .inl ⟨rfl, rfl, fun p hp => nomatch hp⟩⟩
  | some p =>
    simp only [again, Option.map_some] at h
    split at h
    · rename_i first existing hexplicit
      split at h
      · cases h
      · rename_i hagree
        cases h
        refine ⟨n.params, rfl, rfl, rfl, .inl ⟨rfl, rfl, fun q hq => ⟨first, ?_⟩⟩⟩
        cases hq
        rw [hexplicit, Decidable.not_not.1 hagree]
    · rename_i hexplicit
      cases h
      exact ⟨given (some p), rfl, rfl, rfl, .inr ⟨p, rfl, hexplicit, rfl, rfl⟩⟩

theorem Builder.request_cases (h : b.request input d path params = .ok b') :
    (input.resourceType d.ty).isSome = true ∧ input.classes.contains d.ty d.cls = true ∧
      ((∃ n, b.nodes[d]? = some n ∧ b.again d n path params = .ok b') ∨
        ∃ dfn, b.nodes[d]? = none ∧ selectDefinition input.definitions (input.contextFor d) = .ok dfn ∧
          b' = { b with
            nodes := b.nodes.insert d
              { descriptor := d, definition := dfn.id, driverType := dfn.driverType, params := given params
                requests := [Request.of (path, params)], dependsOn := ∅ }
            explicit := (params.map toCanonicalString).elim b.explicit fun c => b.explicit.insert d (path, c)
            queue := b.queue ++ [d] }) := by
  unfold request at h
  split at h
  · cases h
  · rename_i htype
    split at h
    · cases h
    · rename_i hclass
      refine ⟨by simpa [Option.isSome_iff_ne_none] using htype, by simpa using hclass, ?_⟩
      split at h
      · rename_i n hn
        exact .inl ⟨n, hn, h⟩
      · rename_i hn
        split at h
        · cases h
        · rename_i dfn hdfn
          cases h
          exact .inr ⟨dfn, hn, hdfn, rfl⟩

/-- What a builder holds once `ops` ran. -/
structure Built (input : GraphInput) (ops : List Op) (b : Builder) : Prop where
  mem : ∀ d, d ∈ b.nodes ↔ ∃ path params, .request d path params ∈ ops
  node : ∀ d n, b.nodes[d]? = some n → NodeOf input ops d n
  params : ∀ d n, b.nodes[d]? = some n → ParamsOf (asked ops d) n.params b.explicit[d]?
  explicit : ∀ d, d ∉ b.nodes → b.explicit[d]? = none
  edge : ∀ a t, .edge a t ∈ ops → a ∈ b.nodes
  co : ∀ c, c ∈ b.co ↔ .coProvision c ∈ ops
  fails : ∀ e, .fail e ∉ ops

theorem ParamsOf.unset_of {asked} (h : ParamsOf asked params none) : ∀ a ∈ asked, a.2 = none := by
  generalize hexplicit : (none : Option (String × String)) = explicit at h
  cases h with
  | unset hnone => exact hnone
  | fixed hp hall => cases hexplicit

theorem ParamsOf.fixed_of {asked} {first existing : String} (h : ParamsOf asked params (some (first, existing))) :
    ∃ p, (first, some p) ∈ asked ∧ existing = toCanonicalString p := by
  generalize hexplicit : some (first, existing) = explicit at h
  cases h with
  | unset hnone => cases hexplicit
  | fixed hp hall =>
    cases hexplicit
    exact ⟨_, hp, rfl⟩

variable {explicit : Option (String × String)} {ops' : List Op}

theorem ParamsOf.congr {asked asked'} (h : ParamsOf asked params explicit) (hasked : ∀ a, a ∈ asked ↔ a ∈ asked') :
    ParamsOf asked' params explicit := by
  cases h with
  | unset hnone => exact .unset fun a ha => hnone a ((hasked a).2 ha)
  | fixed hp hall => exact .fixed ((hasked _).1 hp) fun a ha => hall a ((hasked a).2 ha)

theorem ParamsOf.again {asked} {params' : Option Json} (h : ParamsOf asked params' explicit)
    (hagree : ∀ p, params = some p → ∃ first, explicit = some (first, toCanonicalString p)) :
    ParamsOf (asked ++ [(path, params)]) params' explicit := by
  cases h with
  | unset hnone =>
    refine .unset fun a ha => ?_
    rcases mem_append.1 ha with ha | ha
    · exact hnone a ha
    · obtain rfl := mem_singleton.1 ha
      cases params with
      | none => rfl
      | some p => obtain ⟨first, hfirst⟩ := hagree p rfl; cases hfirst
  | fixed hp hall =>
    refine .fixed (mem_append_left _ hp) fun a ha q hq => ?_
    rcases mem_append.1 ha with ha | ha
    · exact hall a ha q hq
    · obtain rfl := mem_singleton.1 ha
      obtain ⟨first, hfirst⟩ := hagree q hq
      exact (Prod.mk.inj (Option.some.inj hfirst)).2.symm

theorem ParamsOf.fix {asked} {p : Json} (h : ∀ a ∈ asked, a.2 = none) :
    ParamsOf (asked ++ [(path, some p)]) (given (some p)) (some (path, toCanonicalString p)) := by
  refine .fixed (by simp) fun a ha q hq => ?_
  rcases mem_append.1 ha with ha | ha
  · rw [h a ha] at hq
    cases hq
  · obtain rfl := mem_singleton.1 ha
    cases hq
    rfl

theorem Built.empty : Built input [] .empty where
  mem d := by simp [Builder.empty]
  node d n h := by simp [Builder.empty] at h
  params d n h := by simp [Builder.empty] at h
  explicit d _ := by simp [Builder.empty]
  edge a t h := nomatch h
  co c := by simp [Builder.empty]
  fails e h := nomatch h

theorem Built.queue (h : Built input ops b) (queue : List Descriptor) : Built input ops { b with queue } :=
  ⟨h.mem, h.node, h.params, h.explicit, h.edge, h.co, h.fails⟩

theorem Built.congr (h : Built input ops b) (hops : ∀ op, op ∈ ops ↔ op ∈ ops') : Built input ops' b := by
  have hasked : ∀ d a, a ∈ asked ops d ↔ a ∈ asked ops' d := fun d a => mem_asked.trans ((hops _).trans mem_asked.symm)
  refine ⟨fun d => ?_, fun d n hn => ?_, fun d n hn => ?_, h.explicit, fun a t ht => h.edge a t ((hops _).2 ht), fun c => ?_,
    fun e he => h.fails e ((hops _).2 he)⟩
  · simp only [h.mem, hops]
  · have hnode := h.node d n hn
    refine ⟨hnode.descriptor, hnode.typed, hnode.classed, hnode.matched, fun r => ?_, fun t => ?_⟩
    · simp only [hnode.requests, hasked]
    · rw [hnode.dependsOn, hops]
  · exact (h.params d n hn).congr (hasked d)
  · rw [h.co, hops]

theorem Built.asked_eq_nil (h : Built input ops b) (hd : b.nodes[d]? = none) : asked ops d = [] := by
  refine eq_nil_iff_forall_not_mem.2 fun a ha => ?_
  have hmem : d ∈ b.nodes := (h.mem d).2 ⟨a.1, a.2, mem_asked.1 ha⟩
  obtain ⟨n, hn⟩ := mem_iff.1 hmem
  rw [hd] at hn
  cases hn

theorem Built.insert (h : Built input ops b) (hnodes : b'.nodes = b.nodes.insert d n)
    (hexplicit : ∀ d' ≠ d, b'.explicit[d']? = b.explicit[d']?) (hco : b'.co = b.co) (hasked : ∀ d' ≠ d, asked [op] d' = [])
    (hedge : ∀ d' ≠ d, ∀ t, op ≠ .edge d' t) (hop : ∀ c, op ≠ .coProvision c) (hfail : ∀ e, op ≠ .fail e)
    (hmem : ∃ path params, .request d path params ∈ ops ++ [op]) (hnode : NodeOf input (ops ++ [op]) d n)
    (hparams : ParamsOf (asked (ops ++ [op]) d) n.params b'.explicit[d]?) : Built input (ops ++ [op]) b' where
  mem d' := by
    by_cases hd : d' = d
    · subst hd
      simpa [hnodes] using hmem
    · have hsame : d' ∈ b'.nodes ↔ d' ∈ b.nodes := by
        simp [hnodes, Ne.symm hd]
      rw [hsame, h.mem]
      have hnot : ∀ path params, op ≠ .request d' path params := by
        rintro path params rfl
        have := hasked d' hd
        simp at this
      simp [(hnot _ _).symm]
  node d' n' hn := by
    rw [hnodes, get_insert] at hn
    split at hn
    · rename_i hd
      cases hn
      exact hd ▸ hnode
    · rename_i hd
      exact (h.node d' n' hn).other (hasked d' (Ne.symm hd)) (hedge d' (Ne.symm hd))
  params d' n' hn := by
    rw [hnodes, get_insert] at hn
    split at hn
    · rename_i hd
      cases hn
      exact hd ▸ hparams
    · rename_i hd
      rw [hexplicit d' (Ne.symm hd), asked_append, hasked d' (Ne.symm hd), append_nil]
      exact h.params d' n' hn
  explicit d' hd' := by
    have hd : d' ≠ d := by
      rintro rfl
      exact hd' (by simp [hnodes])
    rw [hexplicit d' hd]
    refine h.explicit d' fun hmem => hd' ?_
    simp [hnodes, hmem]
  edge a t ht := by
    rcases mem_append.1 ht with ht | ht
    · simp [hnodes, h.edge a t ht]
    · have ha : a = d := Decidable.byContradiction fun ha => hedge a ha t (mem_singleton.1 ht).symm
      simp [hnodes, ha]
  co c := by simp [hco, h.co, (hop c).symm]
  fails e he := by
    rcases mem_append.1 he with he | he
    · exact h.fails e he
    · exact hfail e (mem_singleton.1 he).symm

theorem Built.request (h : Built input ops b) (hb : b.request input d path params = .ok b') :
    Built input (ops ++ [.request d path params]) b' := by
  obtain ⟨htyped, hclassed, ⟨n, hn, hagain⟩ | ⟨dfn, hn, hdfn, rfl⟩⟩ := request_cases hb
  · obtain ⟨params', hnodes, -, hco, hparams⟩ := again_cases hagain
    have hold := h.params d n hn
    refine h.insert hnodes ?_ hco (by simp +contextual [eq_comm]) (by simp) (by simp) (by simp) ⟨path, params, by simp⟩
      ((h.node d n hn).again path params params') ?_
    · intro d' hd'
      rcases hparams with ⟨-, hsame, -⟩ | ⟨p, -, -, -, hset⟩
      · rw [hsame]
      · simp [hset, get_insert, Ne.symm hd']
    · simp only [asked_append, asked_request, if_true]
      rcases hparams with ⟨rfl, hsame, hagree⟩ | ⟨p, rfl, hnone, rfl, hset⟩
      · rw [hsame]
        exact hold.again hagree
      · rw [hnone] at hold
        rw [hset, get_insert, if_pos rfl]
        exact .fix hold.unset_of
  · have hnil := h.asked_eq_nil hn
    have hnot : d ∉ b.nodes := fun hmem => by
      obtain ⟨n, hn'⟩ := mem_iff.1 hmem
      rw [hn] at hn'
      cases hn'
    have hexplicit : b.explicit[d]? = none := h.explicit d hnot
    refine h.insert rfl ?_ rfl (by simp +contextual [eq_comm]) (by simp) (by simp) (by simp) ⟨path, params, by simp⟩ ?_ ?_
    · intro d' hd'
      cases params with
      | none => rfl
      | some p => simp [get_insert, Ne.symm hd']
    · exact {
        descriptor := rfl, typed := htyped, classed := hclassed, matched := ⟨dfn, hdfn, rfl, rfl⟩
        requests := fun r => by simp [hnil]
        dependsOn := fun t => by
          have hedge : Op.edge d t ∉ ops := fun ht => hnot (h.edge d t ht)
          simp [hedge] }
    · rw [asked_append, hnil]
      cases params with
      | none => simpa [hexplicit, given] using ParamsOf.unset (by simp)
      | some p => simpa using (ParamsOf.fix (by simp) : ParamsOf ([] ++ [(path, some p)]) _ _)

theorem Built.apply (h : Built input ops b) (hb : b.apply input op = .ok b') : Built input (ops ++ [op]) b' := by
  cases op with
  | request d path params => exact h.request (mapError_eq_ok.1 hb)
  | edge a t =>
    obtain ⟨⟨b1, new⟩, hedge, rfl⟩ := map_eq_ok.1 hb
    unfold Builder.edge at hedge
    split at hedge
    · cases hedge
    · rename_i n hn
      cases hedge
      have hmem : a ∈ b.nodes := mem_iff.2 ⟨n, hn⟩
      obtain ⟨path, params, hreq⟩ := (h.mem a).1 hmem
      refine h.insert rfl (fun _ _ => rfl) rfl (by simp) ?_ (by simp) (by simp) ⟨path, params, by simp [hreq]⟩
        ((h.node a n hn).edge t) ?_
      · rintro d' hd' t' heq
        cases heq
        exact hd' rfl
      · simpa using h.params a n hn
  | coProvision c =>
    cases hb
    exact {
      mem := fun d => by simp [h.mem]
      node := fun d n hn => (h.node d n hn).other rfl (by simp)
      params := fun d n hn => by simpa using h.params d n hn
      explicit := h.explicit
      edge := fun a t ht => h.edge a t (by simpa using ht)
      co := fun c' => by
        rw [BTreeSet.mem_insert_iff, h.co]
        simp [or_comm, eq_comm]
      fails := fun e he => h.fails e (by simpa using he) }
  | fail e => cases hb

theorem Built.foldlM (h : Built input ops b) (hb : ops'.foldlM (Builder.apply input) b = .ok b') :
    Built input (ops ++ ops') b' :=
  foldlM_ok (Built input) (fun _ _ _ _ h hb => h.apply hb) ops' ops h hb

structure Queued (done : List Descriptor) (b : Builder) : Prop where
  nodup : (done ++ b.queue).Nodup
  mem : ∀ d, d ∈ b.nodes ↔ d ∈ done ++ b.queue

variable {done : List Descriptor}

theorem Queued.empty : Queued [] .empty := ⟨nodup_nil, by simp [Builder.empty]⟩

theorem Queued.apply (h : Queued done b) (hb : b.apply input op = .ok b') : Queued done b' := by
  have hsame : ∀ {a : Descriptor} {n n' : Node}, b.nodes[a]? = some n → b'.nodes = b.nodes.insert a n' →
      b'.queue = b.queue → Queued done b' := by
    intro a n n' hn hnodes hqueue
    refine ⟨hqueue ▸ h.nodup, fun d => ?_⟩
    rw [hqueue, ← h.mem, hnodes]
    have ha : a ∈ b.nodes := mem_iff.2 ⟨n, hn⟩
    constructor
    · intro hd
      rcases mem_insert.1 hd with heq | hd
      · exact Std.LawfulEqOrd.eq_of_compare heq ▸ ha
      · exact hd
    · intro hd
      exact mem_insert.2 (.inr hd)
  cases op with
  | request d path params =>
    obtain ⟨-, -, ⟨n, hn, hagain⟩ | ⟨dfn, hn, -, rfl⟩⟩ := Builder.request_cases (mapError_eq_ok.1 hb)
    · obtain ⟨params', hnodes, hqueue, -, -⟩ := Builder.again_cases hagain
      exact hsame hn hnodes hqueue
    · have hnot : d ∉ done ++ b.queue := fun hd => by
        obtain ⟨n, hn'⟩ := mem_iff.1 ((h.mem d).2 hd)
        rw [hn] at hn'
        cases hn'
      refine ⟨?_, fun d' => ?_⟩
      · rw [← append_assoc]
        exact nodup_append'.2 ⟨h.nodup, nodup_singleton d, by simpa using hnot⟩
      · simp only [mem_insert, Std.LawfulEqOrd.compare_eq_iff_eq, h.mem, mem_append,
          mem_singleton]
        grind
  | edge a t =>
    obtain ⟨⟨b1, new⟩, hedge, rfl⟩ := map_eq_ok.1 hb
    unfold Builder.edge at hedge
    split at hedge
    · cases hedge
    · rename_i n hn
      cases hedge
      exact hsame hn rfl rfl
  | coProvision c =>
    cases hb
    exact ⟨h.nodup, h.mem⟩
  | fail e => cases hb

theorem Queued.foldlM (h : Queued done b) {ops : List Op} (hb : ops.foldlM (Builder.apply input) b = .ok b') :
    Queued done b' :=
  foldlM_ok (fun _ => Queued done) (fun _ _ _ _ h hb => h.apply hb) ops [] h hb

namespace GraphInput
variable (input : GraphInput)

def definitionOf (d : Descriptor) : Option ResourceDefinition :=
  (selectDefinition input.definitions (input.contextFor d)).toOption.bind fun dfn =>
    input.definitions.find? (·.id = dfn.id)

/-- What the node `d` makes the builder do. -/
def opsOf (d : Descriptor) : List Op := (input.definitionOf d).elim [] (input.expansion d)

def opsFor (done : List Descriptor) : List Op := input.seeds ++ done.flatMap input.opsOf

theorem opsFor_append (done : List Descriptor) (d : Descriptor) :
    input.opsFor (done ++ [d]) = input.opsFor done ++ input.opsOf d := by
  simp [opsFor, append_assoc]

inductive SeedOp : Op → Prop where
  | baseEnv : SeedOp (.request baseEnv "base-env" none)
  | workload {wid m} (hm : input.set.modules[wid]? = some m) :
    SeedOp (.request (workload wid m) ("modules." ++ wid.text) (some (workloadParams wid m)))
  | external {wid m key ext id} (hm : input.set.modules[wid]? = some m) (hext : m.externals[key]? = some ext)
      (hid : externalId wid key ext = .ok id) :
    SeedOp (.request { ty := ext.ty, cls := ext.cls, id } (externalPath wid key) (some (ext.params.getD .null)))
  | needs {wid m key ext id} (hm : input.set.modules[wid]? = some m) (hext : m.externals[key]? = some ext)
      (hid : externalId wid key ext = .ok id) : SeedOp (.edge (workload wid m) { ty := ext.ty, cls := ext.cls, id })
  | badExternal {wid m key ext e} (hm : input.set.modules[wid]? = some m) (hext : m.externals[key]? = some ext)
      (hid : externalId wid key ext = .error e) : SeedOp (.fail (.invalidId (externalPath wid key) e))
  | shared {id s rid} (hs : input.set.shared[id]? = some s) (hid : ResId.shared id = .ok rid) :
    SeedOp (.request { ty := s.ty, cls := s.cls, id := rid } ("shared." ++ id) (some (s.params.getD .null)))
  | badShared {id s e} (hs : input.set.shared[id]? = some s) (hid : ResId.shared id = .error e) :
    SeedOp (.fail (.invalidId ("shared." ++ id) e))
  | reads {wid m loc raw id path t} (hm : input.set.modules[wid]? = some m)
      (h : (loc, raw, .shared id path) ∈ specPlaceholders m) (ht : sharedTarget input.set id = some t) :
    SeedOp (.edge (workload wid m) t)

abbrev paramPlaceholders (key : String) (prov : Provision) : Except PlaceholderError (List (String × RawPlaceholder × Expr)) :=
  collectPlaceholders .definition ("provision." ++ key ++ ".params") (prov.params.getD .null)

/-- What the definition of `d`, with these placeholders in its inputs, makes the builder do. -/
inductive DefinitionOp (d : Descriptor) (dfn : ResourceDefinition) (found : List (String × RawPlaceholder × Expr)) :
    Op → Prop where
  | reference {loc raw target field} (h : (loc, raw, .resource target field) ∈ found) :
    DefinitionOp d dfn found (.request (input.resolveRef target d) (definitionPath d dfn.id loc) none)
  | refers {loc raw target field} (h : (loc, raw, .resource target field) ∈ found) :
    DefinitionOp d dfn found (.edge d (input.resolveRef target d))
  | badKey {key prov e} (hprov : dfn.provision[key]? = some prov) (hkey : parse key = .error e) :
    DefinitionOp d dfn found (.fail (.placeholder dfn.id
      { placeholder := key, location := "provision." ++ key, kind := .syntaxError e.text }))
  | provision {key prov co} (hprov : dfn.provision[key]? = some prov) (hkey : parse key = .ok co) :
    DefinitionOp d dfn found
      (.request (input.resolveRef co d) (definitionPath d dfn.id ("provision." ++ key)) (some (prov.params.getD .null)))
  | dependent {key prov co} (hprov : dfn.provision[key]? = some prov) (hkey : parse key = .ok co)
      (h : prov.isDependent = true) : DefinitionOp d dfn found (.edge d (input.resolveRef co d))
  | independent {key prov co} (hprov : dfn.provision[key]? = some prov) (hkey : parse key = .ok co)
      (h : prov.isDependent = false) : DefinitionOp d dfn found (.edge (input.resolveRef co d) d)
  | badParams {key prov co e} (hprov : dfn.provision[key]? = some prov) (hkey : parse key = .ok co)
      (h : paramPlaceholders key prov = .error e) : DefinitionOp d dfn found (.fail (.placeholder dfn.id e))
  | param {key prov co params loc raw target field} (hprov : dfn.provision[key]? = some prov)
      (hkey : parse key = .ok co) (hparams : paramPlaceholders key prov = .ok params)
      (h : (loc, raw, .resource target field) ∈ params) :
    DefinitionOp d dfn found (.request (input.resolveRef target d) (definitionPath d dfn.id loc) none)
  | paramEdge {key prov co params loc raw target field} (hprov : dfn.provision[key]? = some prov)
      (hkey : parse key = .ok co) (hparams : paramPlaceholders key prov = .ok params)
      (h : (loc, raw, .resource target field) ∈ params) (hne : input.resolveRef target d ≠ input.resolveRef co d) :
    DefinitionOp d dfn found (.edge (input.resolveRef co d) (input.resolveRef target d))
  | coProvision {key prov co} (hprov : dfn.provision[key]? = some prov) (hkey : parse key = .ok co) :
    DefinitionOp d dfn found (.coProvision ⟨d, input.resolveRef co d, prov.matchDependents⟩)

variable {input} {op : Op} {d : Descriptor} {dfn : ResourceDefinition} {found : List (String × RawPlaceholder × Expr)}

theorem mem_seeds : op ∈ input.seeds ↔ input.SeedOp op := by
  simp only [seeds, cons_append, mem_cons, mem_append, mem_flatMap, Prod.exists,
    mem_toList_iff_getElem?_eq_some, moduleOps, externalOps, sharedOps, sharedReads]
  constructor
  · rintro (rfl | (⟨wid, m, hm, rfl | ⟨key, ext, hext, h⟩⟩ | ⟨id, s, hs, h⟩) | ⟨wid, m, hm, loc, raw, e, hmem, h⟩)
    · exact .baseEnv
    · exact .workload hm
    · split at h
      · cases mem_singleton.1 h
        exact .badExternal hm hext ‹_›
      · rcases mem_pair.1 h with rfl | rfl
        · exact .external hm hext ‹_›
        · exact .needs hm hext ‹_›
    · split at h <;> cases mem_singleton.1 h
      · exact .badShared hs ‹_›
      · exact .shared hs ‹_›
    · cases e with
      | shared id path =>
        obtain ⟨t, ht, rfl⟩ := mem_map.1 h
        exact .reads hm hmem (Option.mem_toList.1 ht)
      | _ => cases h
  · intro h
    cases h with
    | baseEnv => exact .inl rfl
    | workload hm => exact .inr (.inl (.inl ⟨_, _, hm, .inl rfl⟩))
    | external hm hext hid | needs hm hext hid | badExternal hm hext hid =>
      exact .inr (.inl (.inl ⟨_, _, hm, .inr ⟨_, _, hext, by simp [hid]⟩⟩))
    | shared hs hid | badShared hs hid => exact .inr (.inl (.inr ⟨_, _, hs, by simp [hid]⟩))
    | reads hm h ht => exact .inr (.inr ⟨_, _, hm, _, _, _, h, by simp [ht]⟩)

theorem mem_expansion (hfound : inputPlaceholders dfn = .ok found) : op ∈ input.expansion d dfn ↔
    input.DefinitionOp d dfn found op := by
  simp only [expansion, hfound, mem_append, mem_flatMap, Prod.exists, mem_toList_iff_getElem?_eq_some,
    provisionOps, provisionParamOps]
  constructor
  · rintro (⟨loc, raw, e, hmem, h⟩ | ⟨key, prov, hprov, h⟩)
    · cases e with
      | resource target field =>
        rcases mem_pair.1 h with rfl | rfl
        · exact .reference hmem
        · exact .refers hmem
      | _ => cases h
    · split at h
      · cases mem_singleton.1 h
        exact .badKey hprov ‹_›
      · rename_i co hkey
        rw [mem_append, mem_append, mem_singleton] at h
        rcases h with (h | h) | rfl
        · rcases mem_pair.1 h with rfl | h
          · exact .provision hprov hkey
          · cases hdep : prov.isDependent <;> rw [h, coEdge, hdep]
            · exact .independent hprov hkey hdep
            · exact .dependent hprov hkey hdep
        · split at h
          · cases mem_singleton.1 h
            exact .badParams hprov hkey ‹_›
          · rename_i params hparams
            obtain ⟨⟨loc, raw, e⟩, hmem, h⟩ := mem_flatMap.1 h
            cases e with
            | resource target field =>
              rcases mem_cons.1 h with rfl | h
              · exact .param hprov hkey hparams hmem
              · split at h
                · cases mem_singleton.1 h
                  exact .paramEdge hprov hkey hparams hmem ‹_›
                · cases h
            | _ => cases h
        · exact .coProvision hprov hkey
  · intro h
    cases h with
    | reference h | refers h => exact .inl ⟨_, _, _, h, by simp [referenceOps]⟩
    | badKey hprov | provision hprov | dependent hprov | independent hprov | coProvision hprov =>
      exact .inr ⟨_, _, hprov, by simp [coEdge, *]⟩
    | badParams hprov hkey hparams => exact .inr ⟨_, _, hprov, by simp [hkey, hparams]⟩
    | param hprov hkey hparams h | paramEdge hprov hkey hparams h =>
      refine .inr ⟨_, _, hprov, ?_⟩
      simp only [hkey, hparams, mem_append, mem_flatMap]
      exact .inl (.inr ⟨_, h, by simp [paramOps, *]⟩)

theorem mem_opsOf : op ∈ input.opsOf d ↔ ∃ dfn, input.definitionOf d = some dfn ∧ op ∈ input.expansion d dfn := by
  unfold opsOf
  cases input.definitionOf d <;> simp

theorem opsOf_cases (h : op ∈ input.opsOf d) : ∃ dfn, input.definitionOf d = some dfn ∧
    ((∃ e, op = .fail (.placeholder dfn.id e)) ∨ ∃ found, inputPlaceholders dfn = .ok found ∧
      input.DefinitionOp d dfn found op) := by
  obtain ⟨dfn, hdfn, h⟩ := mem_opsOf.1 h
  refine ⟨dfn, hdfn, ?_⟩
  cases hfound : inputPlaceholders dfn with
  | error e => exact .inl ⟨e, by simpa [expansion, hfound] using h⟩
  | ok found => exact .inr ⟨found, rfl, (mem_expansion hfound).1 h⟩

end GraphInput

theorem NodeOf.definitionOf (h : NodeOf input ops d n) :
    input.definitionOf d = input.definitions.find? (·.id = n.definition) := by
  obtain ⟨dfn, hdfn, hid, -⟩ := h.matched
  simp [GraphInput.definitionOf, hdfn, Except.toOption, hid]

end Openporch
