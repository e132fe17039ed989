import Openporch.GraphBuild
import Openporch.Lib.Acyclic

/-!
# Consumers and co-provisioned resources

The edges before `match_dependents` are of two kinds: a resource *reads* another one, or a source and what it
co-provisions are tied together. Between those two no edge makes a consumer; the code lets them follow all the same, and
so makes cycles.
-/

namespace Openporch
open Fallible Relation Op Acyclicity List GraphInput

variable {input : GraphInput} {b b' : Builder} {order : List Descriptor} {x t a : Descriptor}

/-- `x` reads `a`: a workload its dependencies and the shared resources of its set, a resource what its definition's
inputs refer to, and a co-provisioned one what its params refer to. -/
inductive GraphInput.Reads (input : GraphInput) (b : Builder) : Descriptor → Descriptor → Prop where
  | set {x a : Descriptor} (h : .edge x a ∈ input.seeds) : Reads input b x a
  | inputs {d dfn found loc raw target field} (hd : d ∈ b.nodes)
      (hdfn : input.definitionOf d = some dfn) (hfound : inputPlaceholders dfn = .ok found)
      (h : (loc, raw, .resource target field) ∈ found) :
    Reads input b d (input.resolveRef target d)
  | params {d dfn key prov co found loc raw target field} (hd : d ∈ b.nodes)
      (hdfn : input.definitionOf d = some dfn) (hprov : dfn.provision[key]? = some prov)
      (hkey : ResourceRef.parse key = .ok co) (hfound : paramPlaceholders key prov = .ok found)
      (h : (loc, raw, .resource target field) ∈ found)
      (hne : input.resolveRef target d ≠ input.resolveRef co d) :
    Reads input b (input.resolveRef co d) (input.resolveRef target d)

/-- `x` and `a` are a source and what it co-provisions, and `x` waits for `a`. -/
inductive GraphInput.Tied (input : GraphInput) (b : Builder) : Descriptor → Descriptor → Prop where
  | dependent {d dfn key prov co} (hd : d ∈ b.nodes) (hdfn : input.definitionOf d = some dfn)
      (hprov : dfn.provision[key]? = some prov) (hkey : ResourceRef.parse key = .ok co)
      (h : prov.isDependent = true) : Tied input b d (input.resolveRef co d)
  | independent {d dfn key prov co} (hd : d ∈ b.nodes) (hdfn : input.definitionOf d = some dfn)
      (hprov : dfn.provision[key]? = some prov) (hkey : ResourceRef.parse key = .ok co)
      (h : prov.isDependent = false) : Tied input b (input.resolveRef co d) d

namespace Expanded

variable {dfn : ResourceDefinition}

theorem does (h : Expanded input order b) (hd : a ∈ b.nodes) (hdfn : input.definitionOf a = some dfn) {found}
    (hfound : inputPlaceholders dfn = .ok found) {op : Op} (hop : input.DefinitionOp a dfn found op) :
    op ∈ input.opsFor order :=
  mem_opsFor.2
    (.inr ⟨a, (h.mem a).1 hd, mem_opsOf.2 ⟨dfn, hdfn, (mem_expansion hfound).2 hop⟩⟩)

theorem found (h : Expanded input order b) (hd : a ∈ b.nodes)
    (hdfn : input.definitionOf a = some dfn) : ∃ found, inputPlaceholders dfn = .ok found := by
  cases hfound : inputPlaceholders dfn with
  | ok found => exact ⟨found, rfl⟩
  | error e =>
    refine absurd (mem_opsFor.2 (.inr ⟨a, (h.mem a).1 hd, ?_⟩)) (h.built.fails (.placeholder dfn.id e))
    exact mem_opsOf.2 ⟨dfn, hdfn, by simp [expansion, hfound]⟩

theorem edge_of_reads (h : Expanded input order b) (hr : input.Reads b x t) : .edge x t ∈ input.opsFor order := by
  cases hr with
  | set hseed => exact mem_append_left _ hseed
  | inputs hd hdfn hfound hmem => exact h.does hd hdfn hfound (.refers hmem)
  | params hd hdfn hprov hkey hparams hmem hne =>
    obtain ⟨found, hfound⟩ := h.found hd hdfn
    exact h.does hd hdfn hfound (.paramEdge hprov hkey hparams hmem hne)

theorem edge_of_tied (h : Expanded input order b) (ht : input.Tied b x t) : .edge x t ∈ input.opsFor order := by
  cases ht with
  | dependent hd hdfn hprov hkey hdep =>
    obtain ⟨found, hfound⟩ := h.found hd hdfn
    exact h.does hd hdfn hfound (.dependent hprov hkey hdep)
  | independent hd hdfn hprov hkey hdep =>
    obtain ⟨found, hfound⟩ := h.found hd hdfn
    exact h.does hd hdfn hfound (.independent hprov hkey hdep)

theorem edge_iff (h : Expanded input order b) : .edge x t ∈ input.opsFor order ↔ input.Reads b x t ∨ input.Tied b x t := by
  refine ⟨fun he => ?_, fun he => he.elim h.edge_of_reads h.edge_of_tied⟩
  rcases mem_opsFor.1 he with he | ⟨d, hd, he⟩
  · exact .inl (.set he)
  have hnode := (h.mem d).2 hd
  obtain ⟨dfn, hdfn, ⟨e, he⟩ | ⟨found, hfound, he⟩⟩ := opsOf_cases he
  · cases he
  · cases he with
    | refers hmem => exact .inl (.inputs hnode hdfn hfound hmem)
    | dependent hprov hkey hdep => exact .inr (.dependent hnode hdfn hprov hkey hdep)
    | independent hprov hkey hdep => exact .inr (.independent hnode hdfn hprov hkey hdep)
    | paramEdge hprov hkey hparams hmem hne => exact .inl (.params hnode hdfn hprov hkey hparams hmem hne)

end Expanded

/-- The co-provisioned resources `t` that consumers of `a` wait for, for an `x` that is neither. -/
def Builder.Follows (b : Builder) (x a t : Descriptor) : Prop := (⟨a, t, true⟩ : CoProvision) ∈ b.co ∧ x ≠ t

namespace GraphInput

/-- A source and what it co-provisions, in either order. -/
def Companions (input : GraphInput) (b : Builder) (x a : Descriptor) : Prop := input.Tied b x a ∨ input.Tied b a x

/-- A consumer edge: what `x` reads, and what follows from it, unless the two are companions. -/
inductive Consumes (input : GraphInput) (b : Builder) : Descriptor → Descriptor → Prop where
  | reads {x a : Descriptor} (h : input.Reads b x a) (hfree : ¬ input.Companions b x a) : Consumes input b x a
  | matched {x a t : Descriptor} (h : Consumes input b x a) (hm : b.Follows x a t) (hfree : ¬ input.Companions b x t) :
    Consumes input b x t

/-- The edges before `match_dependents`, and those of the consumers of a source to what is matched with it. -/
def Specified (input : GraphInput) (b : Builder) (x t : Descriptor) : Prop :=
  input.Reads b x t ∨ input.Tied b x t ∨ ∃ a, input.Consumes b x a ∧ b.Follows x a t

/-- `x` waits for a companion, and the code makes it wait for what is matched with that one. -/
def Swept (input : GraphInput) (b : Builder) (x t : Descriptor) : Prop :=
  ∃ a, input.Specified b x a ∧ input.Companions b x a ∧ TransGen (b.Matches x) a t

theorem Consumes.specified (h : input.Consumes b x t) : input.Specified b x t := by
  cases h with
  | reads hr _ => exact .inl hr
  | matched h hm _ => exact .inr (.inr ⟨_, h, hm⟩)

theorem Specified.consumes_or (h : input.Specified b x t) :
    input.Consumes b x t ∨ input.Specified b x t ∧ input.Companions b x t := by
  by_cases hfree : input.Companions b x t
  · exact .inr ⟨h, hfree⟩
  · rcases h with hr | htied | ⟨a, hc, hm⟩
    · exact .inl (.reads hr hfree)
    · exact absurd (.inl htied) hfree
    · exact .inl (hc.matched hm hfree)

end GraphInput

theorem Expanded.waits_specified (h : Expanded input order b) (hw : b.Waits x t) :
    input.Specified b x t ∨ input.Swept b x t := by
  obtain ⟨a, hedge, hpath⟩ := hw
  have hfirst : input.Specified b x a := by
    rcases h.edge_iff.1 (h.built.edge_iff.1 hedge) with hr | htied
    · exact .inl hr
    · exact .inr (.inl htied)
  -- along the path `x` stays a consumer until it meets a companion, and is swept along from there
  have hreached : (input.Consumes b x t ∨ input.Specified b x t ∧ input.Companions b x t) ∨ input.Swept b x t := by
    induction hpath with
    | refl => exact .inl hfirst.consumes_or
    | tail _ hm ih =>
      rcases ih with (hc | ⟨hs, hcompanions⟩) | ⟨c, hs, hcompanions, hswept⟩
      · exact .inl (Specified.consumes_or (.inr (.inr ⟨_, hc, hm.1, hm.2.1⟩)))
      · exact .inr ⟨_, hs, hcompanions, .single hm⟩
      · exact .inr ⟨c, hs, hcompanions, hswept.tail hm⟩
  rcases hreached with (hc | ⟨hs, -⟩) | hswept
  · exact .inl hc.specified
  · exact .inl hs
  · exact .inr hswept

theorem Expanded.specified_waits (h : Expanded input order b) (hacyclic : Acyclic b.Waits)
    (hs : input.Specified b x t ∨ input.Swept b x t) : b.Waits x t := by
  have hedge : ∀ {x t}, input.Reads b x t ∨ input.Tied b x t → b.Waits x t := fun he =>
    .of_edge (h.built.edge_iff.2 (h.edge_iff.2 he))
  have hspecified : ∀ {t}, input.Specified b x t → b.Waits x t := by
    rintro t (hr | htied | ⟨a, hc, hm⟩)
    · exact hedge (.inl hr)
    · exact hedge (.inr htied)
    · have hfollow : ∀ {a t}, b.Waits x a → b.Follows x a t → b.Waits x t := by
        intro a t hw hm
        refine hw.matched ⟨hm.1, hm.2, ?_⟩
        rintro rfl
        exact hacyclic.irrefl x hw
      refine hfollow ?_ hm
      clear hm
      induction hc with
      | reads hr _ => exact hedge (.inl hr)
      | matched _ hm _ ih => exact hfollow ih hm
  rcases hs with hs | ⟨a, hs, -, hpath⟩
  · exact hspecified hs
  · obtain ⟨a0, hedge0, hpath0⟩ := hspecified hs
    exact ⟨a0, hedge0, hpath0.trans hpath.to_reflTransGen⟩

theorem Expanded.acyclic_iff (h : Expanded input order b) :
    Acyclic b.Waits ↔ Acyclic fun x t => input.Specified b x t ∨ input.Swept b x t :=
  ⟨fun hacyclic => hacyclic.mono fun _ _ hs => h.specified_waits hacyclic hs,
    fun hacyclic => hacyclic.mono fun _ _ hw => h.waits_specified hw⟩

theorem Remaining.Layered.acyclic {r : Remaining} {layers} (h : Layered r layers) : Acyclic r.Edge := by
  refine .of_rank (fun d => layers.findIdx (d ∈ ·)) fun d t hdt => ?_
  have hmem : d ∈ layers.flatten := by
    obtain ⟨deps, hdeps, -⟩ := hdt
    exact (h.mem d).2 (BTreeMap.mem_iff.2 ⟨deps, hdeps⟩)
  obtain ⟨layer, hlayer, hd⟩ := mem_flatten.1 hmem
  have hlt : layers.findIdx (d ∈ ·) < layers.length := findIdx_lt_length_of_exists ⟨layer, hlayer, by simpa using hd⟩
  have hfound : d ∈ layers[layers.findIdx (d ∈ ·)] := by
    simpa using findIdx_getElem (w := hlt)
  obtain ⟨j, layer', hj, hlayer', ht⟩ := h.earlier _ _ d t (getElem?_eq_getElem hlt) hfound hdt
  obtain ⟨hj', rfl⟩ := List.getElem?_eq_some_iff.1 hlayer'
  refine lt_of_le_of_lt (not_lt.1 fun hlater => ?_) hj
  exact absurd ht (by simpa using not_of_lt_findIdx hlater)

theorem buildGraph_cycle_iff (h : expandInput input = .ok b) : (∃ c, buildGraph input = .error (.error (.cycle c))) ↔
    ¬ Acyclic fun x t => input.Specified b x t ∨ input.Swept b x t := by
  obtain ⟨order, hexpanded⟩ := expandInput_ok h
  obtain ⟨b', hmatch, -, hwired⟩ := hexpanded.matchDependents
  have hwire : wireInput input = .ok b' := by rw [wireInput, h]; exact hmatch
  have hedges : b'.Edge = b.Waits := by
    funext x t
    exact propext ((hwired.edge x t).trans hexpanded.built.waits_iff.symm)
  rw [← hexpanded.acyclic_iff, ← hedges, buildGraph_eq, hwire]
  rcases hwired.layers with ⟨l, hl, hlayered⟩ | ⟨c, hc, hcycle⟩
  · have hacyclic : Acyclic b'.Edge := hlayered.acyclic.mono fun _ _ => remaining_edge.2
    simp [Except.bind, Except.map, hl, hacyclic]
  · have hcyclic := not_acyclic_of_isChain hcycle.length hcycle.ends hcycle.edges
    simp [Except.bind, Except.map, hc, hcyclic]

/-- `match_dependents` gives an acyclic graph a cycle exactly when some resource that waits for a companion is swept
along to what is matched with that one and leads back to it. -/
theorem cycle_manufactured_iff (input : GraphInput) (b : Builder) (h : expandInput input = .ok b) :
    (Acyclic (input.Specified b) → ∀ c, buildGraph input ≠ .error (.error (.cycle c))) ↔
      (Acyclic (input.Specified b) → ∀ x t, input.Swept b x t →
        ¬ ReflTransGen (fun x t => input.Specified b x t ∨ input.Swept b x t) t x) := by
  have hcycle := buildGraph_cycle_iff h
  rw [acyclic_or_iff] at hcycle
  constructor
  · intro hp hacyclic x t hswept hback
    have hnot : ¬ (Acyclic (input.Specified b) ∧ ∀ a b', input.Swept b a b' →
        ¬ ReflTransGen (fun x t => input.Specified b x t ∨ input.Swept b x t) b' a) := fun h' => h'.2 x t hswept hback
    obtain ⟨c, hc⟩ := hcycle.2 hnot
    exact hp hacyclic c hc
  · intro hp hacyclic c hc
    exact hcycle.1 ⟨c, hc⟩ ⟨hacyclic, hp hacyclic⟩

def plainDefinition (id : DefinitionId) (ty : ResourceTypeId) (provision : List (String × Provision)) :
    ResourceDefinition :=
  { id, name := "", ty, driverType := "openporch/echo", driverAccount := none, driverInputs := {}
    provision := .ofList provision _, criteria := [{}] }

def companions (keys : List String) : GraphInput :=
  { org := ⟨"acme", by decide⟩, app := ⟨"shop", by decide⟩, env := ⟨"dev", by decide⟩, envType := ⟨"development", by decide⟩
    set := { modules := ∅, shared := .ofList [("orders", { ty := .dynamodbTable })] _ }
    definitions := [plainDefinition ⟨"base", by decide⟩ .baseEnv [],
      plainDefinition ⟨"table", by decide⟩ .dynamodbTable (keys.map (·, { matchDependents := true })),
      plainDefinition ⟨"policy", by decide⟩ .awsPolicy [],
      plainDefinition ⟨"role", by decide⟩ .awsRole []]
    types := builtinTypes
    classes := { classes := [] } }

def GraphInput.readsNothing (input : GraphInput) : Bool :=
  (input.seeds.all fun
    | .edge _ _ => false
    | _ => true) &&
  input.definitions.all fun dfn => (inputPlaceholders dfn).toOption.all (·.isEmpty) &&
    dfn.provision.toList.all fun (_, prov) => prov.params.isNone

def GraphInput.tiesDown (input : GraphInput) (ty : String) (nodes : List Descriptor) : Bool :=
  nodes.all fun d => (input.definitionOf d).all fun dfn => dfn.provision.toList.all fun (key, prov) =>
    (ResourceRef.parse key).toOption.all fun co =>
      !prov.isDependent && d.ty.text = ty && (input.resolveRef co d).ty.text ≠ ty

theorem GraphInput.specified_acyclic {ty : String} (hreads : input.readsNothing = true)
    (hties : input.tiesDown ty b.nodes.keys = true) : Acyclic (input.Specified b) := by
  simp only [readsNothing, Bool.and_eq_true, all_eq_true, Option.all_eq_true, List.isEmpty_iff,
    Option.isNone_iff_eq_none] at hreads
  simp only [tiesDown, all_eq_true, Option.all_eq_true, Bool.and_eq_true, Bool.not_eq_true', decide_eq_true_eq,
    Std.ExtTreeMap.mem_keys] at hties
  have hnone : ∀ {x t}, ¬ input.Reads b x t := by
    intro x t hr
    cases hr with
    | set hseed => exact absurd (hreads.1 _ hseed) (by simp)
    | @inputs d dfn found loc raw target field hd hdfn hfound hmem =>
      obtain ⟨hempty, -⟩ := hreads.2 _ (definitionOf_mem hdfn)
      obtain rfl : found = [] := hempty found (by rw [hfound]; rfl)
      cases hmem
    | params hd hdfn hprov hkey hfound hmem hne =>
      obtain ⟨-, hparams⟩ := hreads.2 _ (definitionOf_mem hdfn)
      have hnull := hparams _ (Std.ExtTreeMap.mem_toList_iff_getElem?_eq_some.2 hprov)
      dsimp only at hnull
      rw [paramPlaceholders, hnull] at hfound
      cases hfound
      cases hmem
  refine .of_rank (fun d => if d.ty.text = ty then 0 else 1) fun x t hxt => ?_
  rcases hxt with hr | htied | ⟨a, hc, -⟩
  · exact absurd hr hnone
  · cases htied with
    | dependent hd hdfn hprov hkey hdep =>
      obtain ⟨⟨hfalse, -⟩, -⟩ := hties _ hd _ hdfn _ (Std.ExtTreeMap.mem_toList_iff_getElem?_eq_some.2 hprov) _
        (by rw [hkey]; rfl)
      dsimp only at hfalse
      rw [hfalse] at hdep
      cases hdep
    | independent hd hdfn hprov hkey hdep =>
      obtain ⟨⟨-, hty⟩, hne⟩ := hties _ hd _ hdfn _ (Std.ExtTreeMap.mem_toList_iff_getElem?_eq_some.2 hprov) _
        (by rw [hkey]; rfl)
      simp [hty, hne]
  · induction hc with
    | reads hr _ => exact absurd hr hnone
    | matched _ _ _ ih => exact ih

def reportedCycle : Except Stop ResourceGraph → Option (List Descriptor)
  | .error (.error (.cycle c)) => some c
  | _ => none

theorem eq_of_reportedCycle {r c} (h : reportedCycle r = some c) : r = .error (.error (.cycle c)) := by
  unfold reportedCycle at h
  split at h
  · cases h
    rfl
  · cases h

/-- With two companions each waits for the other, though neither reads it. -/
theorem two_companions_cycle : ∃ b, expandInput (companions ["aws-policy", "aws-role"]) = .ok b ∧
    Acyclic ((companions ["aws-policy", "aws-role"]).Specified b) ∧
    ∃ c, buildGraph (companions ["aws-policy", "aws-role"]) = .error (.error (.cycle c)) := by
  obtain ⟨b, hb⟩ := isOk_elim (by decide +kernel : (expandInput (companions ["aws-policy", "aws-role"])).isOk = true)
  have hties : ((expandInput (companions ["aws-policy", "aws-role"])).toOption.all fun b =>
      (companions ["aws-policy", "aws-role"]).tiesDown "dynamodb-table" b.nodes.keys) = true := by decide +kernel
  rw [hb] at hties
  refine ⟨b, hb, specified_acyclic (by decide +kernel) hties, ?_⟩
  have hcycle : (reportedCycle (buildGraph (companions ["aws-policy", "aws-role"]))).map (·.map Descriptor.text) =
      some ["aws-policy.default#shared.orders", "aws-role.default#shared.orders", "aws-policy.default#shared.orders"] := by
    decide +kernel
  obtain ⟨c, hc, -⟩ := Option.map_eq_some_iff.1 hcycle
  exact ⟨c, eq_of_reportedCycle hc⟩

theorem one_companion_sound : ∃ b, expandInput (companions ["aws-policy"]) = .ok b ∧
    ((Acyclic ((companions ["aws-policy"]).Specified b) →
        ∀ c, buildGraph (companions ["aws-policy"]) ≠ .error (.error (.cycle c))) ↔
      (Acyclic ((companions ["aws-policy"]).Specified b) → ∀ x t, (companions ["aws-policy"]).Swept b x t →
        ¬ ReflTransGen (fun x t => (companions ["aws-policy"]).Specified b x t ∨ (companions ["aws-policy"]).Swept b x t)
          t x)) := by
  obtain ⟨b, hb⟩ := isOk_elim (by decide +kernel : (expandInput (companions ["aws-policy"])).isOk = true)
  exact ⟨b, hb, cycle_manufactured_iff _ b hb⟩

end Openporch
