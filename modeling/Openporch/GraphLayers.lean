import Openporch.GraphSound
import Mathlib.Data.List.Chain

/-!
# Layers and cycles

`topological_layers` on a graph whose edges lead to nodes: it lists every node once, after its dependencies, or finds
a real cycle.
-/

namespace Openporch
open Fallible List Std.ExtTreeMap

namespace Remaining
variable {r : Remaining} {d t : Descriptor}

/-- `d` waits for `t`. -/
def Edge (r : Remaining) (d t : Descriptor) : Prop := ∃ deps, r[d]? = some deps ∧ t ∈ deps

def Closed (r : Remaining) : Prop := ∀ d t, r.Edge d t → t ∈ r

theorem mem_ready : d ∈ r.ready ↔ ∃ deps, r[d]? = some deps ∧ deps = ∅ := by
  simp only [ready, mem_map, mem_filter, Prod.exists, mem_toList_iff_getElem?_eq_some,
    Std.ExtTreeSet.isEmpty_iff, exists_and_right, exists_eq_right]

theorem get_remove (layer : List Descriptor) : (r.remove layer)[d]? =
    (r[d]?.filter fun _ => !layer.contains d).map fun deps => deps.filter (!layer.contains ·) := by
  rw [remove, Std.ExtTreeMap.getElem?_map, BTreeMap.get_filter]

variable {layer : List Descriptor}

theorem mem_remove : d ∈ r.remove layer ↔ d ∈ r ∧ d ∉ layer := by
  simp only [BTreeMap.mem_iff, get_remove, Option.map_eq_some_iff, Option.filter_eq_some_iff]
  simp

theorem edge_remove : (r.remove layer).Edge d t ↔ r.Edge d t ∧ d ∉ layer ∧ t ∉ layer := by
  simp only [Edge, get_remove, Option.map_eq_some_iff, Option.filter_eq_some_iff]
  constructor
  · rintro ⟨_, ⟨deps, ⟨hdeps, hd⟩, rfl⟩, ht⟩
    obtain ⟨ht, hlayer⟩ := BTreeSet.mem_filter_iff.1 ht
    exact ⟨⟨deps, hdeps, ht⟩, by simpa using hd, by simpa using hlayer⟩
  · rintro ⟨⟨deps, hdeps, ht⟩, hd, hlayer⟩
    exact ⟨_, ⟨deps, ⟨hdeps, by simpa using hd⟩, rfl⟩, BTreeSet.mem_filter_iff.2 ⟨ht, by simpa using hlayer⟩⟩

theorem Closed.remove (h : r.Closed) (layer : List Descriptor) : (r.remove layer).Closed := fun d t hdt => by
  obtain ⟨hdt, -, ht⟩ := edge_remove.1 hdt
  exact mem_remove.2 ⟨h d t hdt, ht⟩

theorem nodup_ready : r.ready.Nodup := by
  have hkeys : (r.toList.map (·.1)).Nodup := by
    rw [map_fst_toList_eq_keys]
    exact nodup_keys
  exact (filter_sublist.map _).nodup hkeys

theorem size_remove (hlayer : layer ≠ []) (hmem : ∀ d ∈ layer, d ∈ r) : (r.remove layer).size < r.size := by
  rw [← length_keys, ← length_keys]
  have hsub : (r.remove layer).keys ⊆ r.keys := fun d hd =>
    mem_keys.2 (mem_remove.1 (mem_keys.1 hd)).1
  obtain ⟨d, hd⟩ := exists_mem_of_ne_nil layer hlayer
  have hperm := subperm_of_subset nodup_keys hsub
  refine lt_of_le_of_ne hperm.length_le fun heq => ?_
  have hd' : d ∈ (r.remove layer).keys :=
    (hperm.perm_of_length_le heq.ge).mem_iff.2 (mem_keys.2 (hmem d hd))
  exact (mem_remove.1 (mem_keys.1 hd')).2 hd

structure IsCycle (E : Descriptor → Descriptor → Prop) (c : List Descriptor) : Prop where
  length : 2 ≤ c.length
  ends : c.head? = c.getLast?
  edges : c.IsChain E

theorem follow_spec (hclosed : r.Closed) (hwaits : ∀ d ∈ r, ∃ t, r.Edge d t) {bound : Nat} {current : Descriptor}
    {path} (hlast : path.getLast? = some current) (hchain : path.IsChain r.Edge) (hnodup : path.Nodup)
    (hmem : ∀ d ∈ path, d ∈ r) (hbound : r.size < path.length + bound) :
    ∃ c, r.follow current bound path = .ok c ∧ IsCycle r.Edge c := by
  induction bound generalizing current path with
  | zero =>
    have hlen : path.length ≤ r.size := by
      rw [← length_keys]
      exact (subperm_of_subset hnodup fun d hd => mem_keys.2 (hmem d hd)).length_le
    omega
  | succ bound ih =>
    have hcurrent : current ∈ r := hmem _ (mem_of_getLast? hlast)
    obtain ⟨t, deps, hdeps, ht⟩ := hwaits current hcurrent
    have hsome : deps.toList.head? ≠ none := fun hnone => by
      rw [← Std.ExtTreeSet.mem_toList, head?_eq_none_iff.1 hnone] at ht
      cases ht
    obtain ⟨next, hnext⟩ := Option.ne_none_iff_exists'.1 hsome
    have hedge : r.Edge current next := ⟨deps, hdeps, Std.ExtTreeSet.mem_toList.1 (mem_of_head? hnext)⟩
    have hlonger : (path ++ [next]).IsChain r.Edge := by
      refine List.IsChain.append hchain (isChain_singleton next) fun x hx y hy => ?_
      rw [hlast] at hx
      cases hx
      cases hy
      exact hedge
    simp only [follow, hdeps, hnext]
    cases hidx : path.idxOf? next with
    | some i =>
      refine ⟨_, rfl, ?_⟩
      obtain ⟨hi, hget, -⟩ := findIdx?_eq_some_iff_getElem.1 hidx
      have hget : path[i] = next := by simpa using hget
      have hdrop : path.drop i ++ [next] = (path ++ [next]).drop i := by
        rw [drop_append_of_le_length hi.le]
      refine ⟨?_, ?_, hdrop ▸ hlonger.drop i⟩
      · simp
        omega
      · rw [getLast?_concat, drop_eq_getElem_cons hi, cons_append, head?_cons, hget]
    | none =>
      have hnot : next ∉ path := fun h => by
        rw [idxOf?_eq_none_iff] at hidx
        exact hidx h
      refine ih (by simp) hlonger ?_ ?_ ?_
      · exact nodup_append'.2 ⟨hnodup, nodup_singleton _, by simpa using hnot⟩
      · intro d hd
        rcases mem_append.1 hd with hd | hd
        · exact hmem d hd
        · obtain rfl := mem_singleton.1 hd
          exact hclosed _ _ hedge
      · rw [length_append, length_singleton]
        omega

theorem findCycle_spec (hclosed : r.Closed) (hwaits : ∀ d ∈ r, ∃ t, r.Edge d t) (hne : r ≠ ∅) :
    ∃ c, r.findCycle = .ok c ∧ IsCycle r.Edge c := by
  have hkeys : r.keys.head? ≠ none := fun hnone => by
    rw [head?_eq_none_iff] at hnone
    refine hne (eq_empty_iff_forall_not_mem.2 fun d hd => ?_)
    rw [← Std.ExtTreeMap.mem_keys, hnone] at hd
    cases hd
  obtain ⟨start, hstart⟩ := Option.ne_none_iff_exists'.1 hkeys
  have hmem : start ∈ r := mem_keys.1 (mem_of_head? hstart)
  simp only [findCycle, hstart]
  refine follow_spec hclosed hwaits rfl (isChain_singleton _) (nodup_singleton _) ?_ ?_
  · intro d hd
    rwa [mem_singleton.1 hd]
  · rw [length_singleton]
    omega

structure Layered (r : Remaining) (layers : List (List Descriptor)) : Prop where
  nodup : layers.flatten.Nodup
  mem : ∀ d, d ∈ layers.flatten ↔ d ∈ r
  earlier : ∀ (i : Nat) (layer : List Descriptor) (d t : Descriptor), layers[i]? = some layer → d ∈ layer → r.Edge d t →
    ∃ j layer', j < i ∧ layers[j]? = some layer' ∧ t ∈ layer'

theorem Layered.cons {rest} (h : Layered (r.remove r.ready) rest) : Layered r (r.ready :: rest) where
  nodup := by
    rw [flatten_cons]
    refine nodup_append'.2 ⟨nodup_ready, h.nodup, fun d hd hrest => ?_⟩
    exact (mem_remove.1 ((h.mem d).1 hrest)).2 hd
  mem d := by
    rw [flatten_cons, mem_append, h.mem, mem_remove]
    constructor
    · rintro (hd | ⟨hd, -⟩)
      · obtain ⟨deps, hdeps, -⟩ := mem_ready.1 hd
        exact BTreeMap.mem_iff.2 ⟨deps, hdeps⟩
      · exact hd
    · intro hd
      by_cases hready : d ∈ r.ready
      · exact .inl hready
      · exact .inr ⟨hd, hready⟩
  earlier i layer d t hlayer hd hdt := by
    cases i with
    | zero =>
      cases hlayer
      obtain ⟨deps, hdeps, rfl⟩ := mem_ready.1 hd
      obtain ⟨deps', hdeps', ht⟩ := hdt
      rw [hdeps] at hdeps'
      cases hdeps'
      simp at ht
    | succ i =>
      by_cases ht : t ∈ r.ready
      · exact ⟨0, r.ready, Nat.succ_pos i, rfl, ht⟩
      · have hlayer' : rest[i]? = some layer := hlayer
        have hmem : d ∈ rest.flatten := mem_flatten.2 ⟨layer, mem_of_getElem? hlayer', hd⟩
        have hdt' := edge_remove.2 ⟨hdt, (mem_remove.1 ((h.mem d).1 hmem)).2, ht⟩
        obtain ⟨j, layer', hj, hlayer'', ht'⟩ := h.earlier i layer d t hlayer' hd hdt'
        exact ⟨j + 1, layer', Nat.succ_lt_succ hj, hlayer'', ht'⟩

theorem IsCycle.mono {E E' c} (hE : ∀ d t, E d t → E' d t) (h : IsCycle E c) : IsCycle E' c :=
  ⟨h.length, h.ends, h.edges.imp hE⟩

theorem layers_spec {bound : Nat} (hclosed : r.Closed) (hbound : r.size ≤ bound) :
    (∃ l, layers bound r = .ok l ∧ Layered r l) ∨
      ∃ c, layers bound r = .error (.error (.cycle c)) ∧ IsCycle r.Edge c := by
  have hend : ∀ {r : Remaining}, r.isEmpty = true → Layered r [] := fun hempty => by
    obtain rfl := isEmpty_iff.1 hempty
    exact ⟨nodup_nil, by simp, by simp⟩
  induction bound generalizing r with
  | zero =>
    have hempty : r.isEmpty = true :=
      isEmpty_iff.2 (eq_empty_iff_size_eq_zero.2 (Nat.le_zero.1 hbound))
    exact .inl ⟨[], by simp [layers, hempty], hend hempty⟩
  | succ bound ih =>
    by_cases hempty : r.isEmpty = true
    · exact .inl ⟨[], by simp [layers, hempty], hend hempty⟩
    · by_cases hready : r.ready = []
      · have hwaits : ∀ d ∈ r, ∃ t, r.Edge d t := by
          intro d hd
          obtain ⟨deps, hdeps⟩ := BTreeMap.mem_iff.1 hd
          have hne : deps ≠ ∅ := fun hnone => by
            have hmem : d ∈ r.ready := mem_ready.2 ⟨deps, hdeps, hnone⟩
            rw [hready] at hmem
            cases hmem
          obtain ⟨t, ht⟩ : ∃ t, t ∈ deps := Classical.byContradiction fun h =>
            hne (Std.ExtTreeSet.ext_mem fun t => ⟨fun ht => (h ⟨t, ht⟩).elim, by simp⟩)
          exact ⟨t, deps, hdeps, ht⟩
        obtain ⟨c, hc, hcycle⟩ := findCycle_spec hclosed hwaits fun h => hempty (isEmpty_iff.2 h)
        refine .inr ⟨c, ?_, hcycle⟩
        simp only [layers, hempty, hready, hc]
        rfl
      · have hmem : ∀ d ∈ r.ready, d ∈ r := fun d hd => by
          obtain ⟨deps, hdeps, -⟩ := mem_ready.1 hd
          exact BTreeMap.mem_iff.2 ⟨deps, hdeps⟩
        have hsize := size_remove hready hmem
        have hstep : layers (bound + 1) r = (layers bound (r.remove r.ready)).map (r.ready :: ·) := by
          have hfalse : r.ready.isEmpty = false := by simpa using hready
          simp only [layers, hempty, hfalse]
          cases layers bound (r.remove r.ready) <;> rfl
        rw [hstep]
        rcases ih (hclosed.remove r.ready) (by omega) with ⟨l, hl, hlayered⟩ | ⟨c, hc, hcycle⟩
        · exact .inl ⟨r.ready :: l, by rw [hl]; rfl, hlayered.cons⟩
        · exact .inr ⟨c, by rw [hc]; rfl, hcycle.mono fun d t hdt => (edge_remove.1 hdt).1⟩

end Remaining
end Openporch
