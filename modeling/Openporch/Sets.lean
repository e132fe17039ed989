import Openporch.Graph

/-!
# Deployment sets

`crates/core/src/sets.rs`: the JSON of a set, its canonical text and its ID. Rust compares sets part by part, their JSON
without regard to the order of keys; a `form` of a set replaces its JSON by one that is sorted, so that sets are
compared by their forms.
-/

namespace Openporch
open List Json

deriving instance DecidableEq for External, SharedResource, Module

def BTreeMap.json {K V : Type} [Ord K] [Std.TransOrd K] (name : K → String) (f : V → Json) (m : BTreeMap K V) : JsonMap :=
  m.toList.map fun x => (name x.1, f x.2)

def External.json (e : External) : Json :=
  .obj ([("type", .str e.ty.text), ("class", .str e.cls.text)] ++ optional "id" (e.id.map .str) ++
    optional "params" e.params)

def Module.json (m : Module) : Json :=
  .obj [("class", .str m.cls.text), ("spec", .obj m.spec), ("externals", .obj (m.externals.json id External.json))]

def SharedResource.json (r : SharedResource) : Json :=
  .obj ([("type", .str r.ty.text), ("class", .str r.cls.text)] ++ optional "params" r.params)

namespace DeploymentSet

def json (s : DeploymentSet) : Json :=
  .obj [("modules", .obj (s.modules.json ObjectId.text Module.json)),
    ("shared", .obj (s.shared.json id SharedResource.json))]

def canonicalJson (s : DeploymentSet) : String := toCanonicalString s.json

/-- The set ID; `sha256` is the unpadded base64url digest of a text. -/
def id (sha256 : String → String) (s : DeploymentSet) : String := sha256 s.canonicalJson

end DeploymentSet

section
variable (g : Number → Json)

def External.form (e : External) : External := { e with params := e.params.map (Json.form g) }

def SharedResource.form (r : SharedResource) : SharedResource := { r with params := r.params.map (Json.form g) }

def Module.form (m : Module) : Module := {
  m with
  spec := sortEntries (m.spec.map fun f => (f.1, f.2.form g))
  externals := m.externals.map fun _ => External.form g }

def DeploymentSet.form (s : DeploymentSet) : DeploymentSet :=
  ⟨s.modules.map fun _ => Module.form g, s.shared.map fun _ => SharedResource.form g⟩

end

section
variable {K V U : Type} [Ord K] [Std.TransOrd K] [Std.LawfulEqOrd K] {name : K → String} {f : V → Json} {m m' : BTreeMap K V}
  {g : Number → Json}

theorem BTreeMap.json_nodup (hname : Function.Injective name) : ((m.json name f).map (·.1)).Nodup := by
  have hkeys := m.distinct_keys_toList
  rw [BTreeMap.json, map_map]
  refine pairwise_map.2 (hkeys.imp fun {a b} hab heq => ?_)
  rw [Std.LawfulEqOrd.compare_eq_iff_eq] at hab
  exact hab (hname heq)

theorem BTreeMap.json_get (hname : Function.Injective name) (k : K) : (m.json name f).get (name k) = m[k]?.map f := by
  refine Option.ext fun v => ?_
  rw [JsonMap.get_eq_some (json_nodup hname), BTreeMap.json, mem_map, Option.map_eq_some_iff]
  constructor
  · rintro ⟨⟨k', u⟩, hmem, heq⟩
    obtain ⟨hk, hv⟩ := Prod.mk.inj heq
    obtain rfl : k' = k := hname hk
    exact ⟨u, Std.ExtTreeMap.mem_toList_iff_getElem?_eq_some.1 hmem, hv⟩
  · rintro ⟨u, hu, rfl⟩
    exact ⟨(k, u), Std.ExtTreeMap.mem_toList_iff_getElem?_eq_some.2 hu, rfl⟩

theorem BTreeMap.map_eq_iff {h : V → U} :
    (m.map (fun _ => h) : BTreeMap K U) = m'.map (fun _ => h) ↔ ∀ k : K, m[k]?.map h = m'[k]?.map h := by
  have hget : ∀ (m : BTreeMap K V) (k : K), (m.map (fun _ => h) : BTreeMap K U)[k]? = m[k]?.map h :=
    fun _ _ => Std.ExtTreeMap.getElem?_map
  constructor
  · intro heq k
    rw [← hget, ← hget, heq]
  · refine fun heq => Std.ExtTreeMap.ext_getElem? fun k => ?_
    rw [hget, hget, heq]

theorem BTreeMap.form_eq_iff (m m' : BTreeMap K V) (hname : Function.Injective name) {h : V → U}
    (hh : ∀ v v', h v = h v' ↔ (f v).form g = (f v').form g) :
    (m.map (fun _ => h) : BTreeMap K U) = m'.map (fun _ => h) ↔
      (obj (m.json name f)).form g = (obj (m'.json name f)).form g := by
  have hvalues : (∀ k : K, m[k]?.map h = m'[k]?.map h) ↔
      ∀ k : K, m[k]?.map (fun v => (f v).form g) = m'[k]?.map fun v => (f v).form g := by
    refine forall_congr' fun k => ?_
    cases m[k]? <;> cases m'[k]? <;> simp [hh]
  rw [map_eq_iff, hvalues]
  constructor
  · intro heq
    have hlist : ∀ m : BTreeMap K V, (m.json name f).map (fun x => (x.1, x.2.form g)) =
        (m.map fun _ v => (f v).form g).toList.map fun x => (name x.1, x.2) := by
      intro m
      rw [Std.ExtTreeMap.toList_map, BTreeMap.json, map_map, map_map]
      rfl
    rw [form_obj, form_obj, hlist, hlist, map_eq_iff.2 heq]
  · intro heq k
    have hget := form_get (json_nodup hname) (json_nodup hname) heq (name k)
    rw [json_get hname, json_get hname, Option.map_map, Option.map_map] at hget
    exact hget

end

section
variable {g : Number → Json}

@[simp]
theorem Json.form_str (s : String) : (str s).form g = .str s := rfl

theorem ObjectId.text_injective : Function.Injective ObjectId.text := by
  intro a b h
  cases a
  cases b
  cases h
  rfl

theorem ClassId.text_inj {c c' : ClassId} : c.text = c'.text ↔ c = c' := by cases c; cases c'; simp

theorem ResourceTypeId.text_inj {c c' : ResourceTypeId} : c.text = c'.text ↔ c = c' := by cases c; cases c'; simp

theorem optional_form (key : String) (v : Option Json) :
    (optional key v).map (fun f => (f.1, f.2.form g)) = optional key (v.map (form g)) := by
  cases v <;> rfl

theorem External.form_eq_iff {e e' : External} : e.form g = e'.form g ↔ e.json.form g = e'.json.form g := by
  have hkeys : ∀ e : External, ((([("type", .str e.ty.text), ("class", .str e.cls.text)] ++ optional "id" (e.id.map .str) ++
      optional "params" e.params) : JsonMap).map (·.1)).Nodup := by
    intro e
    cases e.id <;> cases e.params <;> simp [optional]
  constructor
  · intro h
    obtain ⟨hty, hcls, hid, hparams⟩ := External.mk.inj h
    simp only [json, Json.form_obj, map_append, optional_form, hty, hcls, hid, hparams]
  · intro h
    have hget := Json.form_get (hkeys e) (hkeys e') h
    have hty := hget "type"
    have hcls := hget "class"
    have hid := hget "id"
    have hparams := hget "params"
    obtain ⟨ty, cls, id, params⟩ := e
    obtain ⟨ty', cls', id', params'⟩ := e'
    cases id <;> cases id' <;> cases params <;> cases params' <;>
      simp_all [JsonMap.get, optional, lookup_cons, External.form, ClassId.text_inj, ResourceTypeId.text_inj]

theorem SharedResource.form_eq_iff {r r' : SharedResource} : r.form g = r'.form g ↔ r.json.form g = r'.json.form g := by
  have hkeys : ∀ r : SharedResource, ((([("type", .str r.ty.text), ("class", .str r.cls.text)] ++
      optional "params" r.params) : JsonMap).map (·.1)).Nodup := by
    intro r
    cases r.params <;> simp [optional]
  constructor
  · intro h
    obtain ⟨hty, hcls, hparams⟩ := SharedResource.mk.inj h
    simp only [json, Json.form_obj, map_append, optional_form, hty, hcls, hparams]
  · intro h
    have hget := Json.form_get (hkeys r) (hkeys r') h
    have hty := hget "type"
    have hcls := hget "class"
    have hparams := hget "params"
    obtain ⟨ty, cls, params⟩ := r
    obtain ⟨ty', cls', params'⟩ := r'
    cases params <;> cases params' <;>
      simp_all [JsonMap.get, optional, lookup_cons, SharedResource.form, ClassId.text_inj, ResourceTypeId.text_inj]

theorem Module.form_eq_iff {m m' : Module} : m.form g = m'.form g ↔ m.json.form g = m'.json.form g := by
  have hexternals := BTreeMap.form_eq_iff (f := External.json) (h := External.form g) m.externals m'.externals
    Function.injective_id fun _ _ => External.form_eq_iff
  have hspec : ∀ m : Module, (Json.obj m.spec).form g = .obj (m.form g).spec := fun m => Json.form_obj g m.spec
  constructor
  · intro h
    obtain ⟨hcls, -, hfields⟩ := Module.mk.inj h
    simp only [json, Json.form_obj g [_, _, _], map_cons, map_nil, hcls, hspec, h, hexternals.1 hfields]
  · intro h
    have hget := Json.form_get (by simp) (by simp) h
    have hcls : m.cls.text = m'.cls.text := by simpa [JsonMap.get, lookup_cons] using hget "class"
    have hsame : (m.form g).spec = (m'.form g).spec :=
      Json.obj.inj ((hspec m).symm.trans ((Option.some.inj (hget "spec")).trans (hspec m')))
    have hfields := hexternals.2 (Option.some.inj (hget "externals"))
    rw [ClassId.text_inj] at hcls
    simp only [form, Module.mk.injEq] at hsame ⊢
    exact ⟨hcls, hsame, hfields⟩

theorem DeploymentSet.form_eq_iff {a b : DeploymentSet} : a.form g = b.form g ↔ a.json.form g = b.json.form g := by
  have hmodules := BTreeMap.form_eq_iff (f := Module.json) (h := Module.form g) a.modules b.modules
    ObjectId.text_injective fun _ _ => Module.form_eq_iff
  have hshared := BTreeMap.form_eq_iff (f := SharedResource.json) (h := SharedResource.form g) a.shared b.shared
    Function.injective_id fun _ _ => SharedResource.form_eq_iff
  rw [form, form, DeploymentSet.mk.injEq, hmodules, hshared]
  constructor
  · rintro ⟨hm, hs⟩
    simp only [json, Json.form_obj g [_, _], map_cons, map_nil, hm, hs]
  · intro h
    have hget := Json.form_get (by simp) (by simp) h
    exact ⟨Option.some.inj (hget "modules"), Option.some.inj (hget "shared")⟩

end

end Openporch
