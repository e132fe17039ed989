import Openporch.Sets
import Openporch.Lib.Fallible

/-!
# Deltas

`apply_delta`, `workload_delta` and `diff_sets` of `crates/core/src/sets.rs`. Each loop of `apply_delta` touches the
workloads it names and no other, so what it does is said key by key (`foldlM_keyed`).
-/

namespace Openporch
open Fallible List SharedResource Std.ExtTreeMap BTreeMap

def Number.unsignedZero : Number → Number
  | .float _ 0 exp shortest => .float false 0 exp shortest
  | n => n

/-- Rust's `==` of JSON compares these: it ignores the order of keys and the sign of zero. -/
def Json.normal (v : Json) : Json := v.form fun n => .num n.unsignedZero

def Module.normal (m : Module) : Module := m.form fun n => .num n.unsignedZero

def sharedNormal (shared : BTreeMap String SharedResource) : BTreeMap String SharedResource :=
  shared.map fun _ => form fun n => .num n.unsignedZero

def DeploymentSet.normal (s : DeploymentSet) : DeploymentSet := s.form fun n => .num n.unsignedZero

/-- `json_patch`, and serde's reading of workloads and shared resources. -/
structure Patcher (Op : Type) where
  diff : Json → Json → List Op
  patch : Json → List Op → Except String Json
  readModule : Json → Except String Module
  readShared : Json → Except String (BTreeMap String SharedResource)

/-- A patch that was computed leads to its target, and nothing to do changes nothing. -/
structure Patcher.Lawful {Op : Type} (p : Patcher Op) : Prop where
  patch_diff (a b : Json) : ∃ v, p.patch a (p.diff a b) = .ok v ∧ v.normal = b.normal
  patch_nil (v : Json) : p.patch v [] = .ok v

/-- What serde wrote of the workload it reads back, as it does unless `params` is a `null` of its own. -/
def Patcher.ReadsModule {Op : Type} (p : Patcher Op) (m : Module) : Prop :=
  ∀ v : Json, v.normal = m.json.normal → ∃ m', p.readModule v = .ok m' ∧ m'.normal = m.normal

def Patcher.ReadsShared {Op : Type} (p : Patcher Op) (shared : BTreeMap String SharedResource) : Prop :=
  ∀ v : Json, v.normal = (Json.obj (shared.json id json)).normal →
    ∃ shared', p.readShared v = .ok shared' ∧ sharedNormal shared' = sharedNormal shared

structure ModuleChanges (Op : Type) where
  add : BTreeMap WorkloadId Module := ∅
  remove : List WorkloadId := []
  update : BTreeMap WorkloadId (List Op) := ∅

structure SetDelta (Op : Type) where
  modules : ModuleChanges Op := {}
  shared : List Op := []

def SetDelta.isEmpty {Op : Type} (d : SetDelta Op) : Bool :=
  d.modules.add.isEmpty && d.modules.remove.isEmpty && d.modules.update.isEmpty && d.shared.isEmpty

inductive DeltaError where
  | removeMissing (id : WorkloadId)
  | addExisting (id : WorkloadId)
  | updateMissing (id : WorkloadId)
  | updateFailed (workload : WorkloadId) (reason : String)
  | sharedFailed (reason : String)

def DeltaError.text : DeltaError → String
  | removeMissing id => "cannot remove workload `" ++ id.text ++ "`: it is not in the set"
  | addExisting id => "cannot add workload `" ++ id.text ++ "`: it is already in the set"
  | updateMissing id => "cannot update workload `" ++ id.text ++ "`: it is not in the set"
  | updateFailed workload reason => "cannot update workload `" ++ workload.text ++ "`: " ++ reason
  | sharedFailed reason => "cannot update shared resources: " ++ reason

section
variable {Op : Type} (p : Patcher Op)

abbrev Touch := Option Module → Except DeltaError (Option Module)

def removal (id : WorkloadId) : Touch
  | some _ => .ok none
  | none => .error (.removeMissing id)

def addition (id : WorkloadId) (m : Module) : Touch
  | none => .ok (some m)
  | some _ => .error (.addExisting id)

def Patcher.update (id : WorkloadId) (ops : List Op) : Touch
  | none => .error (.updateMissing id)
  | some m => do
    let doc ← (p.patch m.json ops).mapError (.updateFailed id)
    return some (← (p.readModule doc).mapError (.updateFailed id))

def SetDelta.touches (delta : SetDelta Op) : List (WorkloadId × Touch) :=
  delta.modules.remove.map (fun id => (id, removal id)) ++
    delta.modules.add.toList.map (fun x => (x.1, addition x.1 x.2)) ++
    delta.modules.update.toList.map fun x => (x.1, p.update x.1 x.2)

def touch (ms : BTreeMap WorkloadId Module) (x : WorkloadId × Touch) : Except DeltaError (BTreeMap WorkloadId Module) := do
  return match ← x.2 ms[x.1]? with
    | some m => ms.insert x.1 m
    | none => ms.erase x.1

def updateShared (shared : BTreeMap String SharedResource) (ops : List Op) :
    Except DeltaError (BTreeMap String SharedResource) :=
  if ops.isEmpty then .ok shared else do
    let doc ← (p.patch (.obj (shared.json id json)) ops).mapError .sharedFailed
    (p.readShared doc).mapError .sharedFailed

def applyDelta (set : DeploymentSet) (delta : SetDelta Op) : Except DeltaError DeploymentSet := do
  let modules ← (delta.touches p).foldlM touch set.modules
  let shared ← updateShared p set.shared delta.shared
  return ⟨modules, shared⟩

/-- The delta that brings the workload to `m`. -/
def workloadDelta (set : DeploymentSet) (id : WorkloadId) (m : Module) : SetDelta Op :=
  match set.modules[id]? with
  | none => { modules := { add := (∅ : BTreeMap WorkloadId Module).insert id m } }
  | some old => { modules := { update := (∅ : BTreeMap WorkloadId (List Op)).insert id (p.diff old.json m.json) } }

/-- The delta that transforms `a` into `b`. -/
def diffSets (a b : DeploymentSet) : SetDelta Op := {
  modules := {
    remove := a.modules.keys.filter fun id => !b.modules.contains id
    add := b.modules.filter fun id _ => !a.modules.contains id
    update := b.modules.filterMap fun id m => do
      let old ← a.modules[id]?
      if old.normal ≠ m.normal then some (p.diff old.json m.json) else none }
  shared :=
    if sharedNormal a.shared ≠ sharedNormal b.shared then
      p.diff (.obj (a.shared.json id json)) (.obj (b.shared.json id json))
    else [] }

end

theorem foldlM_touch (l : List (WorkloadId × Touch)) {ms} (hnodup : (l.map (·.1)).Nodup)
    (hok : ∀ x ∈ l, ∃ o, x.2 ms[x.1]? = .ok o) : ∃ ms', l.foldlM touch ms = .ok ms' ∧
      (∀ x ∈ l, x.2 ms[x.1]? = .ok ms'[x.1]?) ∧ ∀ k, k ∉ l.map (·.1) → ms'[k]? = ms[k]? := by
  induction l generalizing ms with
  | nil => exact ⟨ms, rfl, by simp, fun _ _ => rfl⟩
  | cons x l ih =>
    rw [map_cons, nodup_cons] at hnodup
    obtain ⟨⟨o, ho⟩, hok⟩ := forall_mem_cons.1 hok
    obtain ⟨ms1, hms1, hself, hother⟩ : ∃ ms1, touch ms x = .ok ms1 ∧ ms1[x.1]? = o ∧ ∀ k, k ≠ x.1 → ms1[k]? = ms[k]? := by
      cases o with
      | none => exact ⟨ms.erase x.1, by rw [touch, ho]; rfl, by simp, fun k hk => by simp [getElem?_erase, hk.symm]⟩
      | some m =>
        exact ⟨ms.insert x.1 m, by rw [touch, ho]; rfl, by simp, fun k hk => by rw [get_insert, if_neg hk.symm]⟩
    have hne : ∀ y ∈ l, ms1[y.1]? = ms[y.1]? := fun y hy => hother _ fun heq => hnodup.1 (heq ▸ mem_map_of_mem hy)
    obtain ⟨ms', hms', hdone, hrest⟩ := ih hnodup.2 fun y hy => hne y hy ▸ hok y hy
    refine ⟨ms', ?_, forall_mem_cons.2 ⟨?_, fun y hy => hne y hy ▸ hdone y hy⟩, fun k hk => ?_⟩
    · rw [foldlM_cons, hms1]
      exact hms'
    · rw [hrest _ hnodup.1, hself, ho]
    · rw [map_cons, mem_cons, not_or] at hk
      rw [hrest k hk.2, hother k hk.1]

section
variable {Op : Type} {p : Patcher Op} {a b : DeploymentSet} {delta : SetDelta Op}

/-- The delta takes each workload it touches, and the shared resources, from `a` to `b`, where the rest is equal. -/
structure SetDelta.Brings (p : Patcher Op) (delta : SetDelta Op) (a b : DeploymentSet) : Prop where
  nodup : ((delta.touches p).map (·.1)).Nodup
  touched : ∀ x ∈ delta.touches p, ∃ o, x.2 a.modules[x.1]? = .ok o ∧ o.map Module.normal = b.modules[x.1]?.map Module.normal
  rest : ∀ id, id ∉ (delta.touches p).map (·.1) → a.modules[id]?.map Module.normal = b.modules[id]?.map Module.normal
  shared : delta.shared = [] ∧ sharedNormal a.shared = sharedNormal b.shared ∨
    delta.shared = p.diff (.obj (a.shared.json id json)) (.obj (b.shared.json id json))

theorem updateShared_ok (hp : p.Lawful) (ha : p.ReadsShared a.shared) (hb : p.ReadsShared b.shared) (h : delta.Brings p a b) :
    ∃ shared, updateShared p a.shared delta.shared = .ok shared ∧ sharedNormal shared = sharedNormal b.shared := by
  rcases h.shared with ⟨hnil, hsame⟩ | hdiff
  · exact ⟨a.shared, by rw [hnil]; rfl, hsame⟩
  · obtain ⟨v, hv, hvb⟩ := hp.patch_diff (.obj (a.shared.json id json)) (.obj (b.shared.json id json))
    rw [← hdiff] at hv
    obtain ⟨shared, hread, hshared⟩ := hb v hvb
    rw [updateShared]
    split
    · -- nothing to do: the documents are the same already, and are read as the same resources
      rename_i hnil
      rw [List.isEmpty_iff.1 hnil, hp.patch_nil] at hv
      cases hv
      obtain ⟨shared', hread', hshared'⟩ := ha _ rfl
      cases hread.symm.trans hread'
      exact ⟨a.shared, rfl, hshared'.symm.trans hshared⟩
    · exact ⟨shared, by rw [hv]; simp only [Except.mapError, ok_bind, hread], hshared⟩

theorem applyDelta_of_brings (hp : p.Lawful) (ha : p.ReadsShared a.shared) (hb : p.ReadsShared b.shared)
    (h : delta.Brings p a b) : ∃ out, applyDelta p a delta = .ok out ∧ out.normal = b.normal := by
  obtain ⟨ms, hms, hdone, hrest⟩ := foldlM_touch _ h.nodup fun x hx => (h.touched x hx).imp fun _ ho => ho.1
  obtain ⟨shared, hshared, hnormal⟩ := updateShared_ok hp ha hb h
  refine ⟨⟨ms, shared⟩, by rw [applyDelta, hms, ok_bind, hshared]; rfl, ?_⟩
  refine congrArg₂ DeploymentSet.mk (map_eq_iff.2 fun k => ?_) hnormal
  by_cases hk : k ∈ (delta.touches p).map (·.1)
  · obtain ⟨x, hx, rfl⟩ := mem_map.1 hk
    obtain ⟨o, ho, hb⟩ := h.touched x hx
    cases (hdone x hx).symm.trans ho
    exact hb
  · rw [hrest k hk]
    exact h.rest k hk

theorem update_ok (hp : p.Lawful) (id : WorkloadId) (old : Module) {m : Module} (hm : p.ReadsModule m) :
    ∃ o, p.update id (p.diff old.json m.json) (some old) = .ok o ∧ o.map Module.normal = some m.normal := by
  obtain ⟨v, hv, hvm⟩ := hp.patch_diff old.json m.json
  obtain ⟨m', hm', hnormal⟩ := hm v hvm
  exact ⟨some m', by simp only [Patcher.update, hv, hm', Except.mapError, ok_bind]; rfl, congrArg some hnormal⟩

theorem touches_keys (p : Patcher Op) (delta : SetDelta Op) : (delta.touches p).map (·.1) =
    delta.modules.remove ++ delta.modules.add.keys ++ delta.modules.update.keys := by
  rw [← map_fst_toList_eq_keys, ← map_fst_toList_eq_keys]
  simp [SetDelta.touches, Function.comp_def]

variable {id : WorkloadId}

theorem mem_entries {V : Type} {m : BTreeMap WorkloadId V} {v : V} : (id, v) ∈ m.toList ↔ m[id]? = some v :=
  mem_toList_iff_getElem?_eq_some

theorem mem_remove : id ∈ (diffSets p a b).modules.remove ↔ (∃ old, a.modules[id]? = some old) ∧ b.modules[id]? = none := by
  rw [diffSets, mem_filter, Std.ExtTreeMap.mem_keys, mem_iff, get_eq_none, Bool.not_eq_true']

theorem get_add {m : Module} : (diffSets p a b).modules.add[id]? = some m ↔ a.modules[id]? = none ∧ b.modules[id]? = some m := by
  rw [diffSets, get_filter, Option.filter_eq_some_iff, get_eq_none, Bool.not_eq_true', and_comm]

theorem get_update {ops : List Op} : (diffSets p a b).modules.update[id]? = some ops ↔
    ∃ old m, a.modules[id]? = some old ∧ b.modules[id]? = some m ∧ old.normal ≠ m.normal ∧ ops = p.diff old.json m.json := by
  rw [diffSets, getElem?_filterMap']
  cases b.modules[id]? <;> cases a.modules[id]? <;> simp [eq_comm]

theorem diffSets_brings (hp : p.Lawful) (hmodules : ∀ (id : WorkloadId) m, b.modules[id]? = some m → p.ReadsModule m) :
    (diffSets p a b).Brings p a b where
  nodup := by
    rw [touches_keys, nodup_append, nodup_append]
    refine ⟨⟨nodup_keys.filter _, nodup_keys, ?_⟩, nodup_keys, ?_⟩
    all_goals
      simp only [mem_append, Std.ExtTreeMap.mem_keys, mem_iff, mem_remove, get_add, get_update]
      grind
  touched := by
    simp only [SetDelta.touches, forall_mem_append, forall_mem_map, Prod.forall, mem_entries, mem_remove, get_add,
      get_update]
    refine ⟨⟨?_, ?_⟩, ?_⟩
    · rintro id ⟨⟨old, hold⟩, hb⟩
      exact ⟨none, by rw [hold]; rfl, by rw [hb]⟩
    · rintro id m ⟨ha, hb⟩
      exact ⟨some m, by rw [ha]; rfl, by rw [hb]⟩
    · rintro id ops ⟨old, m, ha, hb, -, rfl⟩
      rw [ha, hb]
      exact update_ok hp id old (hmodules id m hb)
  rest id hid := by
    simp only [touches_keys, mem_append, not_or, Std.ExtTreeMap.mem_keys, mem_iff, mem_remove, get_add, get_update] at hid
    cases ha : a.modules[id]? <;> cases hb : b.modules[id]? <;> simp_all
  shared := by
    unfold diffSets
    dsimp only
    split
    · exact .inr rfl
    · rename_i hsame
      exact .inl ⟨rfl, not_not.1 hsame⟩

theorem workloadDelta_brings (hp : p.Lawful) (a : DeploymentSet) (id : WorkloadId) {m : Module} (hm : p.ReadsModule m) :
    (workloadDelta p a id m).Brings p a { a with modules := a.modules.insert id m } := by
  obtain ⟨t, ht, hshared, o, ho, hsame⟩ : ∃ t, (workloadDelta p a id m).touches p = [(id, t)] ∧
      (workloadDelta p a id m).shared = [] ∧ ∃ o, t a.modules[id]? = .ok o ∧ o.map Module.normal = some m.normal := by
    unfold workloadDelta
    cases a.modules[id]? with
    | none => exact ⟨addition id m, rfl, rfl, some m, rfl, rfl⟩
    | some old => exact ⟨p.update id (p.diff old.json m.json), rfl, rfl, update_ok hp id old hm⟩
  refine ⟨by simp [ht], ?_, fun k hk => ?_, .inl ⟨hshared, rfl⟩⟩
  · rw [ht, forall_mem_singleton]
    exact ⟨o, ho, by simp [hsame]⟩
  · rw [ht, map_singleton, mem_singleton] at hk
    rw [get_insert, if_neg (Ne.symm hk)]

theorem SetDelta.Brings.normal_eq (hp : p.Lawful) (ha : p.ReadsShared a.shared) (hb : p.ReadsShared b.shared)
    (h : delta.Brings p a b) (hempty : delta.isEmpty = true) : a.normal = b.normal := by
  obtain ⟨out, hout, hnormal⟩ := applyDelta_of_brings hp ha hb h
  obtain ⟨⟨add, remove, update⟩, shared⟩ := delta
  simp only [SetDelta.isEmpty, Bool.and_eq_true, Std.ExtTreeMap.isEmpty_iff, List.isEmpty_iff] at hempty
  obtain ⟨⟨⟨rfl, rfl⟩, rfl⟩, rfl⟩ := hempty
  cases show Except.ok a = Except.ok out from hout
  exact hnormal

theorem diffSets_isEmpty (h : a.normal = b.normal) : (diffSets p a b).isEmpty = true := by
  obtain ⟨hmodules, hshared⟩ := DeploymentSet.mk.inj h
  have hget : ∀ k : WorkloadId, a.modules[k]?.map Module.normal = b.modules[k]?.map Module.normal :=
    map_eq_iff.1 hmodules
  simp only [SetDelta.isEmpty, Bool.and_eq_true, Std.ExtTreeMap.isEmpty_iff, List.isEmpty_iff]
  refine ⟨⟨⟨?_, eq_nil_iff_forall_not_mem.2 fun k hk => ?_⟩, ?_⟩, if_neg (not_not.2 hshared)⟩
  · by_contra hne
    obtain ⟨k, m, hm⟩ := exists_of_ne_empty hne
    obtain ⟨ha, hb⟩ := get_add.1 hm
    simpa [ha, hb] using hget k
  · obtain ⟨⟨old, ha⟩, hb⟩ := mem_remove.1 hk
    simpa [ha, hb] using hget k
  · by_contra hne
    obtain ⟨k, ops, hops⟩ := exists_of_ne_empty hne
    obtain ⟨old, m, ha, hb, hdiff, -⟩ := get_update.1 hops
    exact hdiff (by simpa [ha, hb] using hget k)

end

theorem Json.write_mapNum {w : Number → List Char} {g : Number → Number} (hg : ∀ n, w (g n) = w n) (v : Json) :
    (v.mapNum fun n => .num (g n)).write w = v.write w := by
  induction v with
  | null | str | bool => rfl
  | num n => exact hg n
  | arr items ih =>
    rw [mapNum, mapNumItems_eq, write, write]
    refine congrArg ('[' :: · ++ [']']) ?_
    induction items with
    | nil => rfl
    | cons v vs ih' =>
      obtain ⟨hv, ih⟩ := forall_mem_cons.1 ih
      rw [map_cons, writeItems, writeItems, hv, ih' ih, isEmpty_map]
  | obj fields ih =>
    rw [mapNum, mapNumFields_eq, write, write]
    refine congrArg ('{' :: · ++ ['}']) ?_
    induction fields with
    | nil => rfl
    | cons f fs ih' =>
      obtain ⟨hv, ih⟩ := forall_mem_cons.1 ih
      rw [map_cons, writeFields, writeFields, hv, ih' ih, isEmpty_map]

theorem DeploymentSet.id_eq (sha256 : String → String) {a b : DeploymentSet} (h : a.normal = b.normal) :
    a.id sha256 = b.id sha256 := by
  have hzero : ∀ n : Number, n.unsignedZero.canonicalChars = n.canonicalChars := by
    intro n
    rcases n with _ | _ | ⟨neg, digits, exp, shortest⟩
    · rfl
    · rfl
    · cases digits <;> rfl
  have hwrite : ∀ v : Json, v.canonicalChars = v.normal.write Number.canonicalChars :=
    fun v => (Json.write_mapNum hzero v.sortKeys).symm
  have hjson : a.json.normal = b.json.normal := DeploymentSet.form_eq_iff.1 h
  rw [id, id, canonicalJson, canonicalJson, toCanonicalString, toCanonicalString, hwrite, hwrite, hjson]

/-- Over a lawful `json_patch` and a serde that reads back what it wrote of the sets: the difference of two sets leads
from the one to the other, so to its ID; it is empty exactly for equal sets; and a workload's delta replaces that
workload only. -/
theorem deltas_inverse {Op : Type} {p : Patcher Op} (hp : p.Lawful) (sha256 : String → String) (a b : DeploymentSet)
    (ha : p.ReadsShared a.shared) (hb : p.ReadsShared b.shared)
    (hmodules : ∀ (id : WorkloadId) m, b.modules[id]? = some m → p.ReadsModule m) :
    (∃ out, applyDelta p a (diffSets p a b) = .ok out ∧ out.normal = b.normal ∧ out.id sha256 = b.id sha256) ∧
    ((diffSets p a b).isEmpty = true ↔ a.normal = b.normal) ∧
    ∀ (id : WorkloadId) (m : Module), p.ReadsModule m → ∃ out, applyDelta p a (workloadDelta p a id m) = .ok out ∧
      out.normal = ({ a with modules := a.modules.insert id m } : DeploymentSet).normal := by
  have hbrings := diffSets_brings (a := a) hp hmodules
  refine ⟨?_, ⟨hbrings.normal_eq hp ha hb, diffSets_isEmpty⟩, fun id m hm => ?_⟩
  · obtain ⟨out, hout, hnormal⟩ := applyDelta_of_brings hp ha hb hbrings
    exact ⟨out, hout, hnormal, DeploymentSet.id_eq sha256 hnormal⟩
  · exact applyDelta_of_brings hp ha ha (workloadDelta_brings hp a id hm)

def readClass (m : JsonMap) : Option ClassId :=
  match m.get "class" with
  | none => some .default
  | some v => do (ClassId.new (← v.asStr?)).toOption

/-- Reads an object with these fields and no others. -/
def readFields (names : List String) (v : Json) : Option JsonMap := v.asObject?.filter (·.all fun f => names.contains f.1)

def SharedResource.read (v : Json) : Option SharedResource := do
  let m ← readFields ["type", "class", "params"] v
  return { ty := ← (ResourceTypeId.new (← (← m.get "type").asStr?)).toOption, cls := ← readClass m
           params := (m.get "params").filter (· ≠ .null) }

def External.read (v : Json) : Option External := do
  let m ← readFields ["type", "class", "id", "params"] v
  let shared ← SharedResource.read (.obj (m.filter (·.1 ≠ "id")))
  let id ← match (m.get "id").filter (· ≠ .null) with
    | none => some none
    | some id => id.asStr?.map some
  return { ty := shared.ty, cls := shared.cls, id, params := shared.params }

def readMap {V : Type} (read : Json → Option V) (v : Json) : Option (BTreeMap String V) := do
  return .ofList (← (← v.asObject?).mapM fun f => do return (f.1, ← read f.2)) _

def Module.read (v : Json) : Option Module := do
  let m ← readFields ["class", "spec", "externals"] v
  return { cls := ← readClass m, spec := ← ((m.get "spec").getD (.obj [])).asObject?
           externals := ← readMap External.read ((m.get "externals").getD (.obj [])) }

/-- Patches replace whole documents, and serde reads them with their keys sorted. -/
def replacing : Patcher Json where
  diff _ b := [b]
  patch v ops := .ok (ops.headD v)
  readModule v := (Module.read v.normal).elim (.error "no workload") .ok
  readShared v := (readMap read v.normal).elim (.error "no shared resources") .ok

theorem replacing_lawful : replacing.Lawful := ⟨fun _ b => ⟨b, rfl, rfl⟩, fun _ => rfl⟩

theorem replacing_readsModule {m : Module} (h : (Module.read m.json.normal).map Module.normal = some m.normal) :
    replacing.ReadsModule m := by
  intro v hv
  obtain ⟨m', hread, hsame⟩ := Option.map_eq_some_iff.1 h
  exact ⟨m', by simp only [replacing, hv, hread, Option.elim_some], hsame⟩

theorem replacing_readsShared {shared} (h : (readMap read (Json.obj (shared.json id json)).normal).map sharedNormal =
      some (sharedNormal shared)) : replacing.ReadsShared shared := by
  intro v hv
  obtain ⟨shared', hread, hsame⟩ := Option.map_eq_some_iff.1 h
  exact ⟨shared', by simp only [replacing, hv, hread, Option.elim_some], hsame⟩

def shopModule : Module :=
  { spec := [("image", .str "cart")]
    externals := .ofList [("orders", { ty := .dynamodbTable, params := some (.obj [("hash", .str "id")]) })] _ }

def shopSet (m : Module) (shared : List (String × SharedResource)) : DeploymentSet :=
  ⟨(∅ : BTreeMap WorkloadId Module).insert ⟨"cart", by decide⟩ m, .ofList shared _⟩

/-- A workload gets a dependency and the set a shared resource. -/
theorem replacing_inverse :
    ∃ out, applyDelta replacing (shopSet {} []) (diffSets replacing (shopSet {} [])
        (shopSet shopModule [("zone", { ty := .dns })])) = .ok out ∧
      out.normal = (shopSet shopModule [("zone", { ty := .dns })]).normal := by
  have hmodules : ∀ (id : WorkloadId) m, (shopSet shopModule [("zone", { ty := .dns })]).modules[id]? = some m →
      replacing.ReadsModule m := by
    intro id m hm
    rw [shopSet, BTreeMap.get_insert] at hm
    split at hm
    · cases hm
      exact replacing_readsModule (by decide +kernel)
    · simp at hm
  obtain ⟨out, hout, hnormal, -⟩ := (deltas_inverse replacing_lawful id (shopSet {} []) _
    (replacing_readsShared (by decide +kernel)) (replacing_readsShared (by decide +kernel)) hmodules).1
  exact ⟨out, hout, hnormal⟩

end Openporch
