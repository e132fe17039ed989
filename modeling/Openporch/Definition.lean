import Openporch.Catalog
import Openporch.Maps
import Openporch.Resolved

/-!
# Resource definitions

The resource definitions of `crates/core/src/model.rs` with their JSON, the matching of a definition to a resource
(`crates/core/src/criteria.rs`), and the classes and built-in types of the catalog.
-/

namespace Openporch
open List

def optional (key : String) (v : Option Json) : JsonMap := v.toList.map fun v => (key, v)

def nonEmpty (key : String) (m : JsonMap) : JsonMap := if m.isEmpty then [] else [(key, .obj m)]

def SecretRef.json (r : SecretRef) : Json :=
  .obj ([("store", .str r.store), ("ref", .str r.reference)] ++ optional "version" (r.version.map .str))

structure Criterion where
  id : Option CriterionId := none
  envType : Option EnvTypeId := none
  appId : Option AppId := none
  envId : Option EnvId := none
  resId : Option ResId := none
  /-- When absent, only the `default` class matches. -/
  cls : Option ClassId := none

def Criterion.json (c : Criterion) : Json :=
  .obj (optional "id" (c.id.map (.str ·.text)) ++ optional "env_type" (c.envType.map (.str ·.text)) ++
    optional "app_id" (c.appId.map (.str ·.text)) ++ optional "env_id" (c.envId.map (.str ·.text)) ++
    optional "res_id" (c.resId.map (.str ·.text)) ++ optional "class" (c.cls.map (.str ·.text)))

structure DriverInputs where
  values : JsonMap := []
  secrets : JsonMap := []
  secretRefs : JsonMap := []

def DriverInputs.json (i : DriverInputs) : Json :=
  .obj ([("values", .obj i.values)] ++ nonEmpty "secrets" i.secrets ++ nonEmpty "secret_refs" i.secretRefs)

structure Provision where
  /-- The source waits for the co-provisioned resource. -/
  isDependent : Bool := false
  /-- Consumers of the source also depend on the co-provisioned resource. -/
  matchDependents : Bool := false
  params : Option Json := none

def Provision.json (p : Provision) : Json :=
  .obj ([("is_dependent", .bool p.isDependent), ("match_dependents", .bool p.matchDependents)] ++
    optional "params" p.params)

structure ResourceDefinition where
  id : DefinitionId
  name : String
  ty : ResourceTypeId
  driverType : String
  driverAccount : Option String
  driverInputs : DriverInputs
  /-- By `<type>[.<class>][#<id>]`. -/
  provision : BTreeMap String Provision
  criteria : List Criterion

def ResourceDefinition.json (d : ResourceDefinition) : Json :=
  .obj ([("id", .str d.id.text), ("name", .str d.name), ("type", .str d.ty.text), ("driver_type", .str d.driverType)] ++
    optional "driver_account" (d.driverAccount.map .str) ++ [("driver_inputs", d.driverInputs.json)] ++
    nonEmpty "provision" (d.provision.toList.map fun (k, p) => (k, p.json)) ++
    [("criteria", .arr (d.criteria.map Criterion.json))])

structure ResourceContext where
  org : OrgId
  app : AppId
  env : EnvId
  envType : EnvTypeId
  res : Descriptor

inductive MatchError where
  | noMatch (ctx : ResourceContext)
  | ambiguous (descriptor : String) (definitions : List DefinitionId) (weight : Nat)

def MatchError.text : MatchError → String
  | noMatch ctx =>
    "no resource definition matches type `" ++ ctx.res.ty.text ++ "`, class `" ++ ctx.res.cls.text ++
      "`, resource ID `" ++ ctx.res.id.text ++ "` in app `" ++ ctx.app.text ++ "`, env `" ++ ctx.env.text ++
      "` (env type `" ++ ctx.envType.text ++ "`)"
  | ambiguous descriptor definitions weight =>
    "ambiguous match for `" ++ descriptor ++ "`: definitions " ++
      " and ".intercalate (definitions.map fun d => "`" ++ d.text ++ "`") ++ " match with equal weight " ++
      toString weight

def fieldWeight {α : Type} [DecidableEq α] (weight : Nat) (want : Option α) (have_ : α) : Option Nat :=
  match want with
  | none => some 0
  | some v => if v = have_ then some weight else none

def classWeight (want : Option ClassId) (cls : ClassId) : Option Nat :=
  match want with
  | some v => if v = cls then some 16 else none
  | none => if cls.isDefault then some 0 else none

def criterionWeight (c : Criterion) (ctx : ResourceContext) : Option Nat := do
  let envType ← fieldWeight 1 c.envType ctx.envType
  let app ← fieldWeight 2 c.appId ctx.app
  let env ← fieldWeight 4 c.envId ctx.env
  let res ← fieldWeight 8 c.resId ctx.res.id
  let cls ← classWeight c.cls ctx.res.cls
  return envType + app + env + res + cls

def definitionWeight (d : ResourceDefinition) (ctx : ResourceContext) : Option Nat :=
  if d.ty ≠ ctx.res.ty then none else (d.criteria.filterMap (criterionWeight · ctx)).max?

def keepBest (ctx : ResourceContext) (best : List ResourceDefinition × Nat) (d : ResourceDefinition) :
    List ResourceDefinition × Nat :=
  match definitionWeight d ctx with
  | none => best
  | some w =>
    if best.1.isEmpty || w > best.2 then ([d], w)
    else if w = best.2 then (best.1 ++ [d], best.2)
    else best

def selectDefinition (defs : List ResourceDefinition) (ctx : ResourceContext) : Except MatchError ResourceDefinition :=
  match defs.foldl (keepBest ctx) ([], 0) with
  | ([], _) => .error (.noMatch ctx)
  | ([d], _) => .ok d
  | (best, weight) =>
    .error (.ambiguous ctx.res.text ((best.map (·.id)).mergeSort fun a b => (compare a b).isLE) weight)

variable {defs : List ResourceDefinition} {ctx : ResourceContext} {d : ResourceDefinition}

theorem keepBest_mem {best d'} (hbest : ∀ x ∈ best.1, x ∈ defs) (hd : d ∈ defs) (h : d' ∈ (keepBest ctx best d).1) :
    d' ∈ defs := by
  unfold keepBest at h
  split at h
  · exact hbest d' h
  · split at h
    · obtain rfl := mem_singleton.1 h
      exact hd
    · split at h
      · rcases mem_append.1 h with h | h
        · exact hbest d' h
        · obtain rfl := mem_singleton.1 h
          exact hd
      · exact hbest d' h

theorem selectDefinition_mem
    (h : selectDefinition defs ctx = .ok d) : d ∈ defs := by
  have hfold : ∀ (l : List ResourceDefinition) (best : List ResourceDefinition × Nat), (∀ x ∈ l, x ∈ defs) →
      (∀ x ∈ best.1, x ∈ defs) → ∀ x ∈ (l.foldl (keepBest ctx) best).1, x ∈ defs := by
    intro l
    induction l with
    | nil => exact fun best _ hbest => hbest
    | cons y l ih =>
      intro best hl hbest
      refine ih _ (fun x hx => hl x (mem_cons_of_mem _ hx)) fun x hx => ?_
      exact keepBest_mem hbest (hl y mem_cons_self) hx
  have hmem := hfold defs ([], 0) (fun _ h => h) (by simp)
  unfold selectDefinition at h
  split at h
  · cases h
  · rename_i heq
    cases h
    rw [heq] at hmem
    exact hmem d (by simp)
  · cases h

/-- The classes defined for each type; `default` exists for every type. -/
structure ClassRegistry where
  classes : List (ResourceTypeId × ClassId)

def ClassRegistry.contains (r : ClassRegistry) (ty : ResourceTypeId) (cls : ClassId) : Bool :=
  cls.isDefault || r.classes.contains (ty, cls)

end Openporch
