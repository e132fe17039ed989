import Openporch.JsonText
import Openporch.Lib.Fallible
import Openporch.Resolved
import Openporch.SecretLayout

/-!
# Rendering resolved values

What rendering gives for arrays and objects, and where the secrets of a resolved value are: below each child, at the
paths of its secrets.
-/

namespace Openporch
open List Fallible

section
variable {read : SecretRef → Option String}

theorem renderFields_cons {k : String} {r : Resolved} {rest} {m : JsonMap}
    (h : Resolved.renderFields read ((k, r) :: rest) = .ok m) :
    ∃ v m', r.render read = .ok v ∧ Resolved.renderFields read rest = .ok m' ∧ m = (k, v) :: m' := by
  rw [Resolved.renderFields] at h
  obtain ⟨v, hv, h⟩ := bind_eq_ok.1 h
  obtain ⟨m', hm', h⟩ := bind_eq_ok.1 h
  cases h
  exact ⟨v, m', hv, hm', rfl⟩

end

theorem SecretExpr.render_total {read : SecretRef → Option String} (hread : ∀ r, (read r).isSome = true) (e : SecretExpr) :
    ∃ t, e.render (fun r => (read r).elim (.error r) Except.ok) = .ok t := by
  obtain ⟨parts⟩ := e
  unfold SecretExpr.render
  generalize "" = out
  induction parts generalizing out with
  | nil => exact ⟨out, rfl⟩
  | cons p parts ih =>
    rw [foldlM_cons]
    cases p with
    | literal s => exact ih _
    | secret r =>
      obtain ⟨t, ht⟩ := Option.isSome_iff_exists.1 (hread r)
      dsimp only
      rw [ht]
      exact ih _

namespace Resolved
variable {read : SecretRef → Option String}

def out (read : SecretRef → Option String) (r : Resolved) : Json := (r.render read).toOption.getD .null

def Renders (read : SecretRef → Option String) (r : Resolved) : Prop := r.render read = .ok (r.out read)

variable {r : Resolved} {v : Json} {items : List Resolved}

theorem renders_of_eq (h : r.render read = .ok v) : r.Renders read ∧ v = r.out read := by
  have hout : r.out read = v := by rw [out, h]; rfl
  exact ⟨by rw [Renders, hout, h], hout.symm⟩

variable {fields : List (String × Resolved)}

theorem renderFields_eq_ok {m : JsonMap} :
    renderFields read fields = .ok m ↔ (∀ f ∈ fields, f.2.Renders read) ∧ m = fields.map fun f => (f.1, f.2.out read) := by
  induction fields generalizing m with
  | nil => simp [renderFields, eq_comm]
  | cons f fields ih =>
    simp only [renderFields, bind_eq_ok, ih, forall_mem_cons]
    constructor
    · rintro ⟨v, hv, _, ⟨hall, rfl⟩, ⟨⟩⟩
      obtain ⟨hr, rfl⟩ := renders_of_eq hv
      exact ⟨⟨hr, hall⟩, rfl⟩
    · rintro ⟨⟨hr, hall⟩, rfl⟩
      exact ⟨_, hr, _, ⟨hall, rfl⟩, rfl⟩

theorem renderItems_eq_ok {vs : List Json} :
    renderItems read items = .ok vs ↔ (∀ r ∈ items, r.Renders read) ∧ vs = items.map (out read) := by
  induction items generalizing vs with
  | nil => simp [renderItems, eq_comm]
  | cons r items ih =>
    simp only [renderItems, bind_eq_ok, ih, forall_mem_cons]
    constructor
    · rintro ⟨v, hv, _, ⟨hall, rfl⟩, ⟨⟩⟩
      obtain ⟨hr, rfl⟩ := renders_of_eq hv
      exact ⟨⟨hr, hall⟩, rfl⟩
    · rintro ⟨⟨hr, hall⟩, rfl⟩
      exact ⟨_, hr, _, ⟨hall, rfl⟩, rfl⟩

theorem render_object : (object fields).render read = .ok v ↔
    (∀ f ∈ fields, f.2.Renders read) ∧ v = .obj (fields.map fun f => (f.1, f.2.out read)) := by
  rw [render, map_eq_ok]
  constructor
  · rintro ⟨m, hm, rfl⟩
    obtain ⟨hall, rfl⟩ := renderFields_eq_ok.1 hm
    exact ⟨hall, rfl⟩
  · rintro ⟨hall, rfl⟩
    exact ⟨_, renderFields_eq_ok.2 ⟨hall, rfl⟩, rfl⟩

theorem render_array : (array items).render read = .ok v ↔
    (∀ r ∈ items, r.Renders read) ∧ v = .arr (items.map (out read)) := by
  rw [render, map_eq_ok]
  constructor
  · rintro ⟨vs, hvs, rfl⟩
    obtain ⟨hall, rfl⟩ := renderItems_eq_ok.1 hvs
    exact ⟨hall, rfl⟩
  · rintro ⟨hall, rfl⟩
    exact ⟨_, renderItems_eq_ok.2 ⟨hall, rfl⟩, rfl⟩

theorem render_total (hread : ∀ r, (read r).isSome = true) (r : Resolved) : ∃ v, r.render read = .ok v := by
  induction r with
  | value v => exact ⟨v, rfl⟩
  | secret e =>
    obtain ⟨t, ht⟩ := SecretExpr.render_total hread e
    exact ⟨.str t, by rw [render, ht]; rfl⟩
  | array items ih => exact ⟨_, render_array.2 ⟨fun r hr => (ih r hr).elim fun _ h => (renders_of_eq h).1, rfl⟩⟩
  | object fields ih => exact ⟨_, render_object.2 ⟨fun f hf => (ih f hf).elim fun _ h => (renders_of_eq h).1, rfl⟩⟩

def children : Resolved → List (String × Resolved)
  | array items => items.mapIdx fun i r => (toString i, r)
  | object fields => fields
  | _ => []

/-- A value in memory: the keys of an object are distinct, and an array has at most `isize::MAX` items. -/
inductive Representable : Resolved → Prop
  | value (v : Json) : Representable (.value v)
  | secret (e : SecretExpr) : Representable (.secret e)
  | array {items : List Resolved} : items.length < 2 ^ 63 → (∀ r ∈ items, Representable r) → Representable (.array items)
  | object {fields : List (String × Resolved)} : (fields.map (·.1)).Nodup → (∀ f ∈ fields, Representable f.2) →
    Representable (.object fields)

variable {c : String × Resolved} {read1 read2 : SecretRef → Option String}

theorem mem_children_array :
    c ∈ (array items).children ↔ ∃ i : Nat, c.1 = toString i ∧ items[i]? = some c.2 := by
  unfold children
  rw [mem_mapIdx]
  constructor
  · rintro ⟨i, hi, rfl⟩
    exact ⟨i, rfl, getElem?_eq_getElem hi⟩
  · rintro ⟨i, hkey, hget⟩
    obtain ⟨hi, heq⟩ := List.getElem?_eq_some_iff.1 hget
    exact ⟨i, hi, Prod.ext hkey.symm heq⟩

theorem Representable.child (hr : r.Representable) (hc : c ∈ r.children) : c.2.Representable := by
  cases hr with
  | value | secret => cases hc
  | array _ hall =>
    obtain ⟨i, -, hget⟩ := mem_children_array.1 hc
    exact hall _ (mem_of_getElem? hget)
  | object _ hall => exact hall c hc

theorem Representable.nodup (hr : r.Representable) : (r.children.map (·.1)).Nodup := by
  cases hr with
  | value | secret => exact nodup_nil
  | object hkeys _ => exact hkeys
  | @array items _ _ =>
    rw [nodup_iff_pairwise_ne, pairwise_iff_getElem]
    intro i j hi hj hij heq
    simp only [children, getElem_map, getElem_mapIdx] at heq
    exact Nat.ne_of_lt hij (toString_nat_inj (congrArg String.toList heq))

theorem secretPaths_eq (path : List String) (r : Resolved) : r.secretPaths path = (r.secretPaths []).map (path ++ ·) := by
  induction r generalizing path with
  | value | secret => simp [secretPaths]
  | array items ih =>
    rw [secretPaths, secretPaths]
    generalize 0 = i
    induction items generalizing i with
    | nil => rfl
    | cons r rest ih' =>
      obtain ⟨hr, ih⟩ := forall_mem_cons.1 ih
      rw [secretPathsItems, secretPathsItems, hr (path ++ _), hr ([] ++ _), ih' ih, map_append, map_map]
      simp [Function.comp_def]
  | object fields ih =>
    rw [secretPaths, secretPaths]
    induction fields with
    | nil => rfl
    | cons f rest ih' =>
      obtain ⟨hr, ih⟩ := forall_mem_cons.1 ih
      rw [secretPathsFields, secretPathsFields, hr (path ++ _), hr ([] ++ _), ih' ih, map_append, map_map]
      simp [Function.comp_def]

theorem secretPaths_children (hr : ∀ e, r ≠ .secret e) :
    r.secretPaths [] = r.children.flatMap fun c => (c.2.secretPaths []).map (c.1 :: ·) := by
  cases r with
  | value v => rfl
  | secret e => exact absurd rfl (hr e)
  | object fields =>
    unfold children
    rw [secretPaths]
    induction fields with
    | nil => rfl
    | cons f fields ih =>
      obtain ⟨k, r⟩ := f
      rw [secretPathsFields, secretPaths_eq, flatMap_cons, ih (by simp)]
      rfl
  | array items =>
    unfold children
    rw [secretPaths]
    -- the index of the first item, to go on to the items after it
    suffices h : ∀ k, secretPathsItems [] k items =
        (items.mapIdx fun i r => (toString (i + k), r)).flatMap fun c => (c.2.secretPaths []).map (c.1 :: ·) from h 0
    clear hr
    induction items with
    | nil => intro k; rfl
    | cons r items ih =>
      intro k
      rw [secretPathsItems, secretPaths_eq, ih (k + 1), mapIdx_cons, flatMap_cons]
      simp [Nat.add_assoc, Nat.add_comm 1 k]

theorem mem_secretPaths {q : List String} : q ∈ r.secretPaths [] ↔
    (q = [] ∧ ∃ e, r = .secret e) ∨ ∃ c ∈ r.children, ∃ p ∈ c.2.secretPaths [], q = c.1 :: p := by
  by_cases hr : ∃ e, r = .secret e
  · obtain ⟨e, rfl⟩ := hr
    simp [secretPaths, children]
  · have hchildren := secretPaths_children fun e he => hr ⟨e, he⟩
    rw [hchildren]
    simp only [hr, and_false, false_or, mem_flatMap, mem_map, eq_comm]

theorem Representable.apart (hr : r.Representable) : (r.secretPaths []).Pairwise Apart := by
  have hbelow : ∀ r : Resolved, (∀ e, r ≠ .secret e) → (r.children.map (·.1)).Nodup →
      (∀ c ∈ r.children, (c.2.secretPaths []).Pairwise Apart) → (r.secretPaths []).Pairwise Apart := by
    intro r hr hkeys hall
    rw [secretPaths_children hr, pairwise_flatMap]
    constructor
    · intro c hc
      exact (hall c hc).map _ fun p q h => h.cons c.1
    · rw [nodup_iff_pairwise_ne, pairwise_map] at hkeys
      refine hkeys.imp fun hne x hx y hy => ?_
      obtain ⟨p, -, rfl⟩ := mem_map.1 hx
      obtain ⟨q, -, rfl⟩ := mem_map.1 hy
      exact apart_of_ne hne p q
  induction hr with
  | value => exact .nil
  | secret => exact pairwise_singleton _ _
  | array hlen hall ih =>
    refine hbelow _ (by simp) (Representable.array hlen hall).nodup fun c hc => ?_
    obtain ⟨i, -, hget⟩ := mem_children_array.1 hc
    exact ih _ (mem_of_getElem? hget)
  | object hkeys hall ih => exact hbelow _ (by simp) hkeys ih

/-- "At least one secret inside": a value that is no plain one has a secret, at a path of its own. -/
def HoldsSecrets (r : Resolved) : Prop := ∀ c ∈ r.children, c.2.isTainted = true → c.2.secretPaths [] ≠ []

instance (r : Resolved) : Decidable r.HoldsSecrets :=
  inferInstanceAs (Decidable (∀ c ∈ r.children, c.2.isTainted = true → c.2.secretPaths [] ≠ []))

theorem renderItems_congr (h : ∀ r ∈ items, r.render read1 = r.render read2) :
    renderItems read1 items = renderItems read2 items := by
  induction items with
  | nil => rfl
  | cons r items ih =>
    obtain ⟨hr, hrest⟩ := forall_mem_cons.1 h
    rw [renderItems, renderItems, hr, ih hrest]

theorem renderFields_congr (h : ∀ f ∈ fields, f.2.render read1 = f.2.render read2) :
    renderFields read1 fields = renderFields read2 fields := by
  induction fields with
  | nil => rfl
  | cons f fields ih =>
    obtain ⟨hf, hrest⟩ := forall_mem_cons.1 h
    rw [renderFields, renderFields, hf, ih hrest]

theorem Representable.render_eq (hr : r.Representable) (hnone : ∀ q, q ∉ r.secretPaths [])
    (read1 read2 : SecretRef → Option String) : r.render read1 = r.render read2 := by
  have hbelow : ∀ {r : Resolved}, (∀ q, q ∉ r.secretPaths []) → ∀ c ∈ r.children, ∀ q, q ∉ c.2.secretPaths [] :=
    fun hnone c hc q hq => hnone _ (mem_secretPaths.2 (.inr ⟨c, hc, q, hq, rfl⟩))
  induction hr with
  | value => rfl
  | secret e => exact absurd mem_cons_self (hnone [])
  | array _ _ ih =>
    rw [render, render]
    refine congrArg _ (renderItems_congr fun r hr => ih r hr ?_)
    obtain ⟨i, hi⟩ := mem_iff_getElem?.1 hr
    exact hbelow hnone (toString i, r) (mem_children_array.2 ⟨i, rfl, hi⟩)
  | object _ _ ih =>
    rw [render, render]
    exact congrArg _ (renderFields_congr fun f hf => ih f hf (hbelow hnone f hf))

end Resolved
end Openporch
