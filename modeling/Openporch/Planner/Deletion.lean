import Openporch.Graph
import Openporch.Lib.Spread
import Openporch.Store.Journal
import Mathlib.Data.List.Induction

/-!
# What a deployment deletes

`crates/engine/src/planner/deprovision.rs`: which of an environment's active resources a deployment leaves out and
deletes, and which of these it must delete to succeed.
-/

namespace Openporch
open Loops List Fallible Descriptor Std.ExtTreeSet

namespace Resource

def mustGo (teardown : Bool) (ty : ResourceTypeId) (r : Resource) : Bool :=
  match r.ownership with
  | .owned => teardown || ty.text = "workload"
  | .adopted => teardown && r.scheduledDeletion
  | .external => false

def deletable (teardown : Bool) (ty : ResourceTypeId) (r : Resource) : Bool :=
  match r.ownership with
  | .owned | .adopted => r.scheduledDeletion || r.mustGo teardown ty
  | .external => false

theorem deletable_of_mustGo {teardown : Bool} {ty : ResourceTypeId} {r : Resource} (h : r.mustGo teardown ty = true) :
    r.deletable teardown ty = true := by
  unfold deletable
  cases hown : r.ownership with
  | external => simp [mustGo, hown] at h
  | owned => simp [h]
  | adopted => simp [h]

end Resource

structure Selection where
  candidates : BTreeMap Descriptor Resource := ∅
  mandatory : BTreeSet String := ∅
  leftOut : List (Descriptor × Resource) := []

section Candidates
variable (graph : ResourceGraph) (teardown : Bool)

def selectOne (s : Selection) (r : Resource) : Selection :=
  match parse r.descriptor with
  | .error _ => s
  | .ok d =>
    if graph.nodes.contains d then s
    else if !(r.deletable teardown d.ty || r.cleanupPending) then { s with leftOut := s.leftOut ++ [(d, r)] }
    else
      { s with
        mandatory := if r.mustGo teardown d.ty then s.mandatory.insert r.descriptor else s.mandatory
        candidates := s.candidates.insert d r }

namespace Selection

def ownedByRemoved (s : Selection) (r : Resource) : Bool := r.ownership = .owned && r.dependencies.any s.mandatory.contains

/-- What `retain` does with one resource. -/
def retainOne (s : Selection) (x : Descriptor × Resource) : Selection :=
  if s.ownedByRemoved x.2 then
    { s with mandatory := s.mandatory.insert x.2.descriptor, candidates := s.candidates.insert x.1 x.2 }
  else { s with leftOut := s.leftOut ++ [x] }

def retain (s : Selection) : Selection := s.leftOut.foldl retainOne { s with leftOut := [] }

variable {s : Selection} {x : Descriptor × Resource}

theorem retainOne_kept (h : s.ownedByRemoved x.2 = false) :
    s.retainOne x = { s with leftOut := s.leftOut ++ [x] } := by simp [retainOne, h]

theorem retainOne_taken (h : s.ownedByRemoved x.2 = true) : s.retainOne x =
    { s with mandatory := s.mandatory.insert x.2.descriptor, candidates := s.candidates.insert x.1 x.2 } := by simp [retainOne, h]

theorem foldl_retainOne_kept {l} (h : ∀ x ∈ l, s.ownedByRemoved x.2 = false) :
    l.foldl retainOne s = { s with leftOut := s.leftOut ++ l } := by
  induction l generalizing s with
  | nil => simp
  | cons x l ih =>
    have hrest : ∀ y ∈ l, Selection.ownedByRemoved { s with leftOut := s.leftOut ++ [x] } y.2 = false :=
      fun y hy => h y (mem_cons_of_mem _ hy)
    rw [foldl_cons, retainOne_kept (h x mem_cons_self), ih hrest]
    simp

theorem foldl_retainOne_length (l : List (Descriptor × Resource)) (s : Selection) :
    (l.foldl retainOne s).leftOut.length ≤ s.leftOut.length + l.length := by
  induction l generalizing s with
  | nil => simp
  | cons x l ih =>
    have hle := ih (s.retainOne x)
    rw [foldl_cons, length_cons]
    cases hx : s.ownedByRemoved x.2 with
    | true => rw [retainOne_taken hx] at hle ⊢; simp only at hle; omega
    | false =>
      rw [retainOne_kept hx] at hle ⊢
      simp only [length_append, length_cons, length_nil] at hle
      omega

theorem retain_cases (l : List (Descriptor × Resource)) (s : Selection) : (∀ x ∈ l, s.ownedByRemoved x.2 = false) ∨
    (l.foldl retainOne s).leftOut.length < s.leftOut.length + l.length := by
  induction l generalizing s with
  | nil => exact .inl (by simp)
  | cons x l ih =>
    rw [foldl_cons, length_cons]
    cases hx : s.ownedByRemoved x.2 with
    | true =>
      have hle := foldl_retainOne_length l (s.retainOne x)
      rw [retainOne_taken hx] at hle ⊢
      simp only at hle
      omega
    | false =>
      rw [retainOne_kept hx]
      rcases ih { s with leftOut := s.leftOut ++ [x] } with hall | hlt
      · refine .inl fun y hy => ?_
        rcases mem_cons.1 hy with rfl | hy
        · exact hx
        · exact hall y hy
      · right
        simp only [length_append, length_cons, length_nil] at hlt
        omega

def ownedLoop : Loop Selection Selection where
  step s := if s.retain.mandatory.size = s.mandatory.size then .inl s.retain else .inr s.retain
  measure s := s.leftOut.length
  decreases := by
    intro s s' h
    split at h
    · cases h
    · rename_i hsize
      cases h
      rcases retain_cases s.leftOut { s with leftOut := [] } with hnone | hlt
      · rw [retain, foldl_retainOne_kept hnone] at hsize
        exact absurd rfl hsize
      · rw [length_nil, Nat.zero_add] at hlt
        exact hlt

end Selection

def selection (active : List Resource) : Selection := Selection.ownedLoop.run (active.foldl (selectOne graph teardown) {})

def deletionCandidates (active : List Resource) : BTreeMap Descriptor Resource × BTreeSet String :=
  ((selection graph teardown active).candidates, (selection graph teardown active).mandatory)

end Candidates

structure Inventory where
  rows : List Resource
  unique : (rows.map (·.descriptor)).Nodup

theorem Inventory.eq_of_descriptor (active : Inventory) {r r' : Resource} (hr : r ∈ active.rows) (hr' : r' ∈ active.rows)
    (h : r.descriptor = r'.descriptor) : r = r' :=
  inj_on_of_nodup_map active.unique hr hr' h

section
variable {graph : ResourceGraph} {teardown : Bool} {active : List Resource} {r : Resource} {d : Descriptor}

structure LeftOut (graph : ResourceGraph) (r : Resource) (d : Descriptor) : Prop where
  text : d.text = r.descriptor
  absent : d ∉ graph.nodes

theorem LeftOut.unique {d' : Descriptor} (h : LeftOut graph r d) (h' : LeftOut graph r d') : d = d' :=
  text_injective (h.text.trans h'.text.symm)

theorem selectOne_leftOut (s : Selection) (h : LeftOut graph r d) : selectOne graph teardown s r =
    if r.deletable teardown d.ty || r.cleanupPending then
      { s with
        mandatory := if r.mustGo teardown d.ty then s.mandatory.insert r.descriptor else s.mandatory
        candidates := s.candidates.insert d r }
    else { s with leftOut := s.leftOut ++ [(d, r)] } := by
  have habsent : graph.nodes.contains d = false := by
    rw [← Bool.not_eq_true, Std.ExtTreeMap.contains_iff_mem]
    exact h.absent
  unfold selectOne
  rw [parse_eq_ok.2 h.text]
  dsimp only
  rw [habsent, if_neg Bool.false_ne_true]
  cases r.deletable teardown d.ty || r.cleanupPending <;> rfl

theorem selectOne_other (s : Selection) (h : ∀ d, ¬ LeftOut graph r d) : selectOne graph teardown s r = s := by
  unfold selectOne
  split
  · rfl
  · rename_i d hparse
    have hmem : d ∈ graph.nodes := by
      by_contra hd
      exact h d ⟨parse_eq_ok.1 hparse, hd⟩
    rw [if_pos (Std.ExtTreeMap.contains_iff_mem.2 hmem)]

/-- What the first loop found in the resources it has seen. -/
structure Selected (graph : ResourceGraph) (teardown : Bool) (seen : List Resource) (s : Selection) : Prop where
  mandatory : ∀ k, k ∈ s.mandatory ↔ ∃ r ∈ seen, ∃ d, LeftOut graph r d ∧ r.mustGo teardown d.ty = true ∧ r.descriptor = k
  candidates : ∀ d r, s.candidates[d]? = some r ↔
    r ∈ seen ∧ LeftOut graph r d ∧ (r.deletable teardown d.ty || r.cleanupPending) = true
  leftOut : ∀ d r, (d, r) ∈ s.leftOut ↔
    r ∈ seen ∧ LeftOut graph r d ∧ (r.deletable teardown d.ty || r.cleanupPending) = false
  sublist : (s.leftOut.map (·.2)).Sublist seen

section
variable {seen : List Resource} {r : Resource} {d : Descriptor} {s : Selection}

theorem seen_iff {P : Prop} {r' : Resource} (h : r' = r → LeftOut graph r' d → ¬ P) :
    r' ∈ seen ++ [r] ∧ LeftOut graph r' d ∧ P ↔ r' ∈ seen ∧ LeftOut graph r' d ∧ P := by
  rw [mem_append, mem_singleton]
  exact ⟨fun ⟨hmem, hleft, hp⟩ => ⟨hmem.resolve_right fun heq => h heq hleft hp, hleft, hp⟩, fun ⟨hmem, h⟩ => ⟨.inl hmem, h⟩⟩

theorem exists_seen_iff {P : Resource → Descriptor → Prop} (h : ∀ d, LeftOut graph r d → ¬ P r d) :
    (∃ r' ∈ seen ++ [r], ∃ d, LeftOut graph r' d ∧ P r' d) ↔ ∃ r' ∈ seen, ∃ d, LeftOut graph r' d ∧ P r' d := by
  simp only [← exists_and_left]
  exact exists_congr fun r' => exists_congr fun d => seen_iff fun heq hleft => heq ▸ h d (heq ▸ hleft)

theorem Selected.candidate (h : Selected graph teardown seen s) (hnew : ∀ r' ∈ seen, r'.descriptor ≠ r.descriptor)
    (hd : LeftOut graph r d) (hdel : (r.deletable teardown d.ty || r.cleanupPending) = true) :
    Selected graph teardown (seen ++ [r]) { s with
      mandatory := if r.mustGo teardown d.ty then s.mandatory.insert r.descriptor else s.mandatory
      candidates := s.candidates.insert d r } := by
  have hd' : ∀ d', LeftOut graph r d' ↔ d' = d := fun d' => ⟨fun h => h.unique hd, fun h => h ▸ hd⟩
  refine ⟨fun k => ?_, fun d' r' => ?_, fun d' r' => ?_, h.sublist.trans (sublist_append_left _ _)⟩
  · simp only [mem_append, mem_singleton]
    have hr : (∃ d', LeftOut graph r d' ∧ r.mustGo teardown d'.ty = true ∧ r.descriptor = k) ↔
        r.mustGo teardown d.ty = true ∧ r.descriptor = k := by simp [hd']
    simp only [or_and_right, exists_or, exists_eq_left, hr, ← h.mandatory]
    cases r.mustGo teardown d.ty <;> simp [or_comm]
  · simp only [mem_append, mem_singleton, BTreeMap.get_insert, or_and_right, ← h.candidates]
    by_cases hdd : d = d'
    · subst hdd
      rw [if_pos rfl, Option.some.injEq]
      constructor
      · rintro rfl
        exact .inr ⟨rfl, hd, hdel⟩
      · rintro (hold | ⟨rfl, -⟩)
        · obtain ⟨hmem, hleft, -⟩ := (h.candidates d r').1 hold
          exact absurd (hleft.text.symm.trans hd.text) (hnew r' hmem)
        · rfl
    · rw [if_neg hdd]
      refine ⟨.inl, ?_⟩
      rintro (hold | ⟨rfl, hleft, -⟩)
      · exact hold
      · exact absurd (hd.unique hleft) hdd
  · refine (h.leftOut d' r').trans (seen_iff fun heq hleft => ?_).symm
    subst heq
    rw [(hd' d').1 hleft, hdel]
    exact Bool.noConfusion

theorem Selected.aside (h : Selected graph teardown seen s) (hd : LeftOut graph r d)
    (hdel : (r.deletable teardown d.ty || r.cleanupPending) = false) :
    Selected graph teardown (seen ++ [r]) { s with leftOut := s.leftOut ++ [(d, r)] } := by
  refine ⟨fun k => ?_, fun d' r' => ?_, fun d' r' => ?_, ?_⟩
  · rw [h.mandatory, exists_seen_iff]
    rintro d' hleft ⟨hgo, -⟩
    rw [← hleft.unique hd, Resource.deletable_of_mustGo hgo] at hdel
    cases hdel
  · refine (h.candidates d' r').trans (seen_iff fun heq hleft => ?_).symm
    subst heq
    rw [hleft.unique hd, hdel]
    exact Bool.noConfusion
  · simp only [mem_append, mem_singleton, Prod.mk.injEq, or_and_right, ← h.leftOut]
    refine or_congr_right ⟨?_, ?_⟩
    · rintro ⟨rfl, rfl⟩
      exact ⟨rfl, hd, hdel⟩
    · rintro ⟨rfl, hleft, -⟩
      exact ⟨hleft.unique hd, rfl⟩
  · rw [map_append]
    exact h.sublist.append (List.Sublist.refl _)

theorem Selected.included (h : Selected graph teardown seen s) (hother : ∀ d, ¬ LeftOut graph r d) :
    Selected graph teardown (seen ++ [r]) s := by
  refine ⟨fun k => ?_, fun d r' => ?_, fun d r' => ?_, h.sublist.trans (sublist_append_left _ _)⟩
  · rw [h.mandatory, exists_seen_iff fun d hd => absurd hd (hother d)]
  · exact (h.candidates d r').trans (seen_iff fun heq hd => absurd (heq ▸ hd) (hother d)).symm
  · exact (h.leftOut d r').trans (seen_iff fun heq hd => absurd (heq ▸ hd) (hother d)).symm

end

theorem selected_foldl (hunique : (active.map (·.descriptor)).Nodup) :
    Selected graph teardown active (active.foldl (selectOne graph teardown) {}) := by
  induction active using List.reverseRecOn with
  | nil => exact ⟨by simp, by simp, by simp, by simp⟩
  | append_singleton seen r ih =>
    rw [map_append, map_singleton] at hunique
    have hseen := ih hunique.of_append_left
    have hnew : ∀ r' ∈ seen, r'.descriptor ≠ r.descriptor := fun r' hr' heq =>
      disjoint_of_nodup_append hunique (mem_map_of_mem hr') (by simp [heq])
    rw [foldl_append, foldl_cons, foldl_nil]
    by_cases hleft : ∃ d, LeftOut graph r d
    · obtain ⟨d, hd⟩ := hleft
      rw [selectOne_leftOut _ hd]
      cases hdel : r.deletable teardown d.ty || r.cleanupPending with
      | true =>
        rw [if_pos rfl]
        exact hseen.candidate hnew hd hdel
      | false =>
        rw [if_neg (by simp)]
        exact hseen.aside hd hdel
    · rw [selectOne_other _ fun d hd => hleft ⟨d, hd⟩]
      exact hseen.included fun d hd => hleft ⟨d, hd⟩

/-- What the deployment must delete to succeed: what must go, and of the rest what an owner takes with it. -/
inductive Removed (graph : ResourceGraph) (teardown : Bool) (active : List Resource) : String → Prop
  | mustGo {r : Resource} {d : Descriptor} : r ∈ active → LeftOut graph r d → r.mustGo teardown d.ty = true →
      Removed graph teardown active r.descriptor
  | owned {r : Resource} {d : Descriptor} {dep : String} : r ∈ active → LeftOut graph r d →
      (r.deletable teardown d.ty || r.cleanupPending) = false → r.ownership = .owned → dep ∈ r.dependencies →
      Removed graph teardown active dep → Removed graph teardown active r.descriptor

/-- What the second loop keeps, with `rest` still to visit in this pass. -/
structure Retaining (graph : ResourceGraph) (teardown : Bool) (active : List Resource) (rest : List (Descriptor × Resource))
    (s : Selection) : Prop where
  removed : ∀ k ∈ s.mandatory, Removed graph teardown active k
  mustGo : ∀ r ∈ active, ∀ d, LeftOut graph r d → r.mustGo teardown d.ty = true → r.descriptor ∈ s.mandatory
  candidates : ∀ d r, s.candidates[d]? = some r ↔ r ∈ active ∧ LeftOut graph r d ∧
    ((r.deletable teardown d.ty || r.cleanupPending) = true ∨ r.descriptor ∈ s.mandatory)
  leftOut : ∀ d r, (d, r) ∈ s.leftOut ++ rest ↔ r ∈ active ∧ LeftOut graph r d ∧
    (r.deletable teardown d.ty || r.cleanupPending) = false ∧ r.descriptor ∉ s.mandatory
  nodup : (s.leftOut ++ rest).Nodup

variable {s : Selection} {rest : List (Descriptor × Resource)} {k : String}

theorem Selected.retaining (h : Selected graph teardown active s) (hunique : (active.map (·.descriptor)).Nodup) :
    Retaining graph teardown active [] s := by
  have hkey : ∀ {r r'}, r ∈ active → r' ∈ active → r.descriptor = r'.descriptor → r = r' :=
    fun hr hr' heq => inj_on_of_nodup_map hunique hr hr' heq
  have hmust : ∀ {r d}, r ∈ active → LeftOut graph r d → r.descriptor ∈ s.mandatory → r.mustGo teardown d.ty = true := by
    intro r d hr hd hk
    obtain ⟨r', hr', d', hd', hgo, heq⟩ := (h.mandatory _).1 hk
    obtain rfl := hkey hr' hr heq
    rwa [hd.unique hd']
  refine ⟨fun k hk => ?_, fun r hr d hd hgo => (h.mandatory _).2 ⟨r, hr, d, hd, hgo, rfl⟩, fun d r => ?_, fun d r => ?_, ?_⟩
  · obtain ⟨r, hr, d, hd, hgo, rfl⟩ := (h.mandatory k).1 hk
    exact .mustGo hr hd hgo
  · rw [h.candidates]
    refine ⟨fun ⟨hr, hd, hdel⟩ => ⟨hr, hd, .inl hdel⟩, ?_⟩
    rintro ⟨hr, hd, hdel | hk⟩
    · exact ⟨hr, hd, hdel⟩
    · refine ⟨hr, hd, ?_⟩
      rw [Resource.deletable_of_mustGo (hmust hr hd hk), Bool.true_or]
  · rw [append_nil, h.leftOut]
    refine ⟨fun ⟨hr, hd, hnot⟩ => ⟨hr, hd, hnot, fun hk => ?_⟩, fun ⟨hr, hd, hnot, _⟩ => ⟨hr, hd, hnot⟩⟩
    rw [Resource.deletable_of_mustGo (hmust hr hd hk)] at hnot
    cases hnot
  · rw [append_nil]
    exact List.Nodup.of_map _ (h.sublist.nodup (List.Nodup.of_map _ hunique))

theorem Retaining.retainOne {x} (h : Retaining graph teardown active (x :: rest) s)
    (hunique : (active.map (·.descriptor)).Nodup) : Retaining graph teardown active rest (s.retainOne x) := by
  obtain ⟨d, r⟩ := x
  cases htake : s.ownedByRemoved r with
  | false =>
    rw [Selection.retainOne_kept htake]
    have happend : s.leftOut ++ [(d, r)] ++ rest = s.leftOut ++ (d, r) :: rest := by simp
    exact ⟨h.removed, h.mustGo, h.candidates, by rw [happend]; exact h.leftOut, by rw [happend]; exact h.nodup⟩
  | true =>
    obtain ⟨hr, hd, hnot, -⟩ := (h.leftOut d r).1 (by simp)
    have hkey : ∀ {r'}, r' ∈ active → r'.descriptor = r.descriptor → r' = r :=
      fun hr' heq => inj_on_of_nodup_map hunique hr' hr heq
    rw [Selection.retainOne_taken htake]
    refine ⟨fun k hk => ?_, fun r' hr' d' hd' hgo => ?_, fun d' r' => ?_, fun d' r' => ?_, ?_⟩
    · rcases BTreeSet.mem_insert_iff.1 hk with rfl | hk
      · simp only [Selection.ownedByRemoved, Bool.and_eq_true, decide_eq_true_eq, any_eq_true] at htake
        obtain ⟨howned, dep, hdep, hmem⟩ := htake
        exact .owned hr hd hnot howned hdep (h.removed dep (contains_iff_mem.1 hmem))
      · exact h.removed k hk
    · exact BTreeSet.mem_insert_iff.2 (.inr (h.mustGo r' hr' d' hd' hgo))
    · rw [BTreeMap.get_insert, BTreeSet.mem_insert_iff]
      by_cases hdd : d = d'
      · subst hdd
        rw [if_pos rfl, Option.some.injEq]
        constructor
        · rintro rfl
          exact ⟨hr, hd, .inr (.inl rfl)⟩
        · rintro ⟨hr', hd', -⟩
          exact (hkey hr' (hd'.text.symm.trans hd.text)).symm
      · rw [if_neg hdd, h.candidates]
        refine and_congr_right fun hr' => and_congr_right fun hd' => or_congr_right ⟨.inr, ?_⟩
        rintro (heq | hk)
        · obtain rfl := hkey hr' heq.symm
          exact absurd (hd.unique hd') hdd
        · exact hk
    · have hsame : (d', r') ∈ s.leftOut ++ rest ↔ (d', r') ∈ s.leftOut ++ (d, r) :: rest ∧ (d', r') ≠ (d, r) := by
        have hnew : (d, r) ∉ s.leftOut ++ rest := (nodup_middle.1 h.nodup).notMem
        constructor
        · intro hmem
          exact ⟨by simp only [mem_append, mem_cons] at hmem ⊢; tauto, fun heq => hnew (heq ▸ hmem)⟩
        · rintro ⟨hmem, hne⟩
          simp only [mem_append, mem_cons] at hmem ⊢
          tauto
      rw [hsame, h.leftOut, BTreeSet.mem_insert_iff]
      constructor
      · rintro ⟨⟨hr', hd', hnot', hk⟩, hne⟩
        refine ⟨hr', hd', hnot', ?_⟩
        rintro (heq | hk')
        · obtain rfl := hkey hr' heq.symm
          exact hne (by rw [hd.unique hd'])
        · exact hk hk'
      · rintro ⟨hr', hd', hnot', hk⟩
        exact ⟨⟨hr', hd', hnot', fun hk' => hk (.inr hk')⟩, fun heq => hk (.inl (by rw [(Prod.mk.inj heq).2]))⟩
    · exact (nodup_middle.1 h.nodup).of_cons

theorem Retaining.foldl (h : Retaining graph teardown active rest s) (hunique : (active.map (·.descriptor)).Nodup) :
    Retaining graph teardown active [] (rest.foldl Selection.retainOne s) := by
  induction rest generalizing s with
  | nil => exact h
  | cons x rest ih => exact ih (h.retainOne hunique)

theorem Retaining.retain (h : Retaining graph teardown active [] s) (hunique : (active.map (·.descriptor)).Nodup) :
    Retaining graph teardown active [] s.retain := by
  refine Retaining.foldl ⟨h.removed, h.mustGo, h.candidates, ?_, ?_⟩ hunique
  · simpa using h.leftOut
  · simpa using h.nodup

theorem Retaining.foldl_size (h : Retaining graph teardown active rest s) (hunique : (active.map (·.descriptor)).Nodup) :
    s.mandatory.size ≤ (rest.foldl Selection.retainOne s).mandatory.size ∧
      ((rest.foldl Selection.retainOne s).mandatory.size = s.mandatory.size → ∀ x ∈ rest, s.ownedByRemoved x.2 = false) := by
  induction rest generalizing s with
  | nil => exact ⟨Nat.le_refl _, fun _ x hx => absurd hx not_mem_nil⟩
  | cons x rest ih =>
    obtain ⟨hle, hsame⟩ := ih (h.retainOne hunique)
    rw [foldl_cons]
    cases htake : s.ownedByRemoved x.2 with
    | true =>
      have hsize : (s.retainOne x).mandatory.size = s.mandatory.size + 1 := by
        obtain ⟨-, -, -, hnew⟩ := (h.leftOut x.1 x.2).1 (by simp)
        rw [← Std.ExtTreeSet.contains_iff_mem] at hnew
        simp [Selection.retainOne_taken htake, Std.ExtTreeSet.size_insert, hnew]
      rw [hsize] at hle
      exact ⟨by omega, fun heq => by omega⟩
    | false =>
      rw [Selection.retainOne_kept htake] at hle hsame ⊢
      refine ⟨hle, fun heq y hy => ?_⟩
      rcases mem_cons.1 hy with rfl | hy
      · exact htake
      · exact hsame heq y hy

structure SelectionSpec (graph : ResourceGraph) (teardown : Bool) (active : List Resource) (s : Selection) : Prop where
  mandatory : ∀ k, k ∈ s.mandatory ↔ Removed graph teardown active k
  candidates : ∀ d r, s.candidates[d]? = some r ↔ r ∈ active ∧ LeftOut graph r d ∧
    ((r.deletable teardown d.ty || r.cleanupPending) = true ∨ r.descriptor ∈ s.mandatory)

theorem selection_spec (hunique : (active.map (·.descriptor)).Nodup) :
    SelectionSpec graph teardown active (selection graph teardown active) := by
  refine Selection.ownedLoop.run_induct (Retaining graph teardown active []) (SelectionSpec graph teardown active)
    (fun s s' hs hstep => ?_) (fun s s' hs hstep => ?_) _ ((selected_foldl hunique).retaining hunique)
  · unfold Selection.ownedLoop at hstep
    dsimp only at hstep
    split at hstep <;> cases hstep
    exact hs.retain hunique
  · unfold Selection.ownedLoop at hstep
    dsimp only at hstep
    split at hstep <;> cases hstep
    rename_i hsize
    have hstart : Retaining graph teardown active s.leftOut { s with leftOut := [] } :=
      ⟨hs.removed, hs.mustGo, hs.candidates, by simpa using hs.leftOut, by simpa using hs.nodup⟩
    have hnone := (hstart.foldl_size hunique).2 hsize
    have hstable : s.retain = s := by
      rw [Selection.retain, Selection.foldl_retainOne_kept hnone]
      rfl
    rw [hstable]
    refine ⟨fun k => ⟨hs.removed k, fun hk => ?_⟩, hs.candidates⟩
    -- whatever can still be taken is in what is left out, and nothing there can
    induction hk with
    | mustGo hr hd hgo => exact hs.mustGo _ hr _ hd hgo
    | owned hr hd hnot howned hdep _ ih =>
      by_contra hk
      have hleft := hnone _ (by simpa using (hs.leftOut _ _).2 ⟨hr, hd, hnot, hk⟩)
      simp only [Selection.ownedByRemoved, howned, decide_true, Bool.true_and] at hleft
      exact absurd (any_eq_true.2 ⟨_, hdep, contains_iff_mem.2 ih⟩) (by rw [hleft]; exact Bool.false_ne_true)

def Outside (graph : ResourceGraph) (r : Resource) : Prop := ∀ d ∈ graph.nodes, d.text ≠ r.descriptor

def Resource.Goes (teardown : Bool) (r : Resource) : Prop :=
  match r.ownership with
  | .owned => teardown = true ∨ ∃ d, parse r.descriptor = .ok d ∧ d.ty.text = "workload"
  | .adopted => teardown = true ∧ r.scheduledDeletion = true
  | .external => False

structure TakesAlong (graph : ResourceGraph) (teardown : Bool) (active : List Resource) (S : Set String) : Prop where
  goes : ∀ r ∈ active, Outside graph r → r.Goes teardown → r.descriptor ∈ S
  owned : ∀ r ∈ active, Outside graph r → r.ownership = .owned → ∀ dep ∈ r.dependencies, dep ∈ S → r.descriptor ∈ S

inductive GoesAlong (graph : ResourceGraph) (teardown : Bool) (active : List Resource) : Resource → Prop
  | goes {r : Resource} : r ∈ active → Outside graph r → r.Goes teardown → GoesAlong graph teardown active r
  | owned {r owner : Resource} : r ∈ active → Outside graph r → r.ownership = .owned → owner.descriptor ∈ r.dependencies →
      GoesAlong graph teardown active owner → GoesAlong graph teardown active r

theorem LeftOut.outside (h : LeftOut graph r d) : Outside graph r := fun _ hd' htext =>
  h.absent (text_injective (h.text.trans htext.symm) ▸ hd')

theorem Outside.leftOut (h : Outside graph r) (hd : parse r.descriptor = .ok d) : LeftOut graph r d :=
  ⟨parse_eq_ok.1 hd, fun hmem => h d hmem (parse_eq_ok.1 hd)⟩

theorem LeftOut.goes_iff (h : LeftOut graph r d) : r.Goes teardown ↔ r.mustGo teardown d.ty = true := by
  unfold Resource.Goes Resource.mustGo
  cases r.ownership with
  | owned =>
    have hworkload : (∃ d', parse r.descriptor = .ok d' ∧ d'.ty.text = "workload") ↔ d.ty.text = "workload" := by
      rw [parse_eq_ok.2 h.text]
      simp
    simp [hworkload]
  | adopted => simp
  | external => simp

theorem Removed.resource (h : Removed graph teardown active k) : ∃ r ∈ active, ∃ d, LeftOut graph r d ∧
    r.descriptor = k ∧ (r.mustGo teardown d.ty = true ∨
      (r.deletable teardown d.ty || r.cleanupPending) = false ∧ r.ownership = .owned) := by
  cases h with
  | mustGo hr hd hgo => exact ⟨_, hr, _, hd, rfl, .inl hgo⟩
  | owned hr hd hnot howned _ _ => exact ⟨_, hr, _, hd, rfl, .inr ⟨hnot, howned⟩⟩

theorem Removed.mem {S : Set String} (hS : TakesAlong graph teardown active S) (h : Removed graph teardown active k) :
    k ∈ S := by
  induction h with
  | mustGo hr hd hgo => exact hS.goes _ hr hd.outside (hd.goes_iff.2 hgo)
  | owned hr hd _ howned hdep _ ih => exact hS.owned _ hr hd.outside howned _ hdep ih

theorem GoesAlong.mem {S : Set String} (hS : TakesAlong graph teardown active S) (h : GoesAlong graph teardown active r) :
    r.descriptor ∈ S := by
  induction h with
  | goes hr hout hgo => exact hS.goes _ hr hout hgo
  | owned hr hout howned hdep _ ih => exact hS.owned _ hr hout howned _ hdep ih

theorem Removed.goesAlong (h : Removed graph teardown active k) :
    ∃ r, r.descriptor = k ∧ GoesAlong graph teardown active r := by
  induction h with
  | mustGo hr hd hgo => exact ⟨_, rfl, .goes hr hd.outside (hd.goes_iff.2 hgo)⟩
  | owned hr hd _ howned hdep _ ih =>
    obtain ⟨owner, rfl, howner⟩ := ih
    exact ⟨_, rfl, .owned hr hd.outside howned hdep howner⟩

theorem GoesAlong.resource (h : GoesAlong graph teardown active r) : r ∈ active ∧ Outside graph r ∧
    (r.Goes teardown ∨ r.ownership = .owned) := by
  cases h with
  | goes hr hout hgo => exact ⟨hr, hout, .inl hgo⟩
  | owned hr hout howned _ _ => exact ⟨hr, hout, .inr howned⟩

variable (graph teardown) in
/-- The removals of a deployment, as they should be. -/
structure RemovalsComplete (active : Inventory) : Prop where
  least : IsLeast {S | TakesAlong graph teardown active.rows S} {k | k ∈ (deletionCandidates graph teardown active.rows).2}
  candidates : ∀ k ∈ (deletionCandidates graph teardown active.rows).2,
    ∃ (d : Descriptor) (r : Resource), (deletionCandidates graph teardown active.rows).1[d]? = some r ∧ r.descriptor = k
  allowed : ∀ (d : Descriptor) (r : Resource), (deletionCandidates graph teardown active.rows).1[d]? = some r → d ∉ graph.nodes ∧
    r.ownership ≠ .external ∧ (r.ownership = .adopted → r.scheduledDeletion = true ∨ r.cleanupPending = true)
  order : ∀ rows, rows.Perm active.rows →
    deletionCandidates graph teardown rows = deletionCandidates graph teardown active.rows

variable (graph teardown) in
/-- What goes along has a valid descriptor and, unless it goes by itself, is neither scheduled for deletion nor already
deleted by its driver; and nothing external is. -/
structure TakenUnscheduled (active : Inventory) : Prop where
  goesAlong : ∀ r, GoesAlong graph teardown active.rows r → (∃ d, parse r.descriptor = .ok d) ∧
    (r.Goes teardown ∨ r.scheduledDeletion = false ∧ r.cleanupPending = false)
  external : ∀ r ∈ active.rows, Outside graph r → (∃ d, parse r.descriptor = .ok d) → r.ownership = .external →
    r.cleanupPending = false

section
variable {active : Inventory}
variable (active) in
theorem mem_mandatory {k : String} :
    k ∈ (deletionCandidates graph teardown active.rows).2 ↔ Removed graph teardown active.rows k :=
  (selection_spec active.unique).mandatory k

variable (active) in
theorem mem_candidates : (deletionCandidates graph teardown active.rows).1[d]? = some r ↔ r ∈ active.rows ∧ LeftOut graph r d ∧
    ((r.deletable teardown d.ty || r.cleanupPending) = true ∨ Removed graph teardown active.rows r.descriptor) := by
  rw [← mem_mandatory active]
  exact (selection_spec active.unique).candidates d r

theorem Removed.of_mem (hr : r ∈ active.rows) (h : Removed graph teardown active.rows r.descriptor) : ∃ d, LeftOut graph r d ∧
    (r.mustGo teardown d.ty = true ∨ (r.deletable teardown d.ty || r.cleanupPending) = false ∧ r.ownership = .owned) := by
  obtain ⟨r', hr', d, hd, heq, hwhy⟩ := h.resource
  obtain rfl := active.eq_of_descriptor hr' hr heq
  exact ⟨d, hd, hwhy⟩

theorem Removed.imp {rows rows' : List Resource} (h : ∀ r ∈ rows, Outside graph r → r ∈ rows') {k : String}
    (hk : Removed graph teardown rows k) : Removed graph teardown rows' k := by
  induction hk with
  | mustGo hr hd hgo => exact .mustGo (h _ hr hd.outside) hd hgo
  | owned hr hd hnot howned hdep _ ih => exact .owned (h _ hr hd.outside) hd hnot howned hdep ih

theorem deletionCandidates_congr {other : Inventory} (h : ∀ r, Outside graph r → (r ∈ other.rows ↔ r ∈ active.rows)) :
    deletionCandidates graph teardown other.rows = deletionCandidates graph teardown active.rows := by
  have hremoved : ∀ k, Removed graph teardown other.rows k ↔ Removed graph teardown active.rows k :=
    fun k => ⟨.imp fun r hr hout => (h r hout).1 hr, .imp fun r hr hout => (h r hout).2 hr⟩
  refine Prod.ext (Std.ExtTreeMap.ext_getElem? fun d => Option.ext fun r => ?_) (ext_mem fun k => ?_)
  · rw [mem_candidates other, mem_candidates active, hremoved]
    exact and_congr_left fun hd => h r hd.1.outside
  · rw [mem_mandatory other, mem_mandatory active, hremoved]

theorem deletionCandidates_perm {rows : List Resource} (h : rows.Perm active.rows) :
    deletionCandidates graph teardown rows = deletionCandidates graph teardown active.rows := by
  let other : Inventory := ⟨rows, (h.map _).nodup_iff.2 active.unique⟩
  have hsame : ∀ r, Outside graph r → (r ∈ other.rows ↔ r ∈ active.rows) := fun r _ => h.mem_iff
  exact deletionCandidates_congr hsame

theorem takenUnscheduled_of_complete (h : RemovalsComplete graph teardown active) : TakenUnscheduled graph teardown active := by
  refine ⟨fun r hr => ?_, fun r hr hout ⟨d, hd⟩ hexternal => ?_⟩
  · obtain ⟨hmem, -, -⟩ := hr.resource
    have hremoved : Removed graph teardown active.rows r.descriptor := (mem_mandatory active).1 (hr.mem h.least.1)
    obtain ⟨d, hd, hgo | ⟨hnot, howned⟩⟩ := hremoved.of_mem hmem
    · exact ⟨⟨d, parse_eq_ok.2 hd.text⟩, .inl (hd.goes_iff.2 hgo)⟩
    · refine ⟨⟨d, parse_eq_ok.2 hd.text⟩, .inr ?_⟩
      simp only [Resource.deletable, howned, Bool.or_eq_false_iff] at hnot
      exact ⟨hnot.1.1, hnot.2⟩
  · by_contra hpending
    have hcleanup : r.cleanupPending = true := by simpa using hpending
    have hcandidate : (deletionCandidates graph teardown active.rows).1[d]? = some r :=
      (mem_candidates active).2 ⟨hr, hout.leftOut hd, .inl (by simp [hcleanup])⟩
    exact (h.allowed d r hcandidate).2.1 hexternal

theorem complete_of_takenUnscheduled (h : TakenUnscheduled graph teardown active) : RemovalsComplete graph teardown active := by
  have hremoved : ∀ r, GoesAlong graph teardown active.rows r → Removed graph teardown active.rows r.descriptor := by
    intro r hr
    induction hr with
    | goes hr hout hgo =>
      obtain ⟨⟨d, hd⟩, -⟩ := h.goesAlong _ (.goes hr hout hgo)
      exact .mustGo hr (hout.leftOut hd) ((hout.leftOut hd).goes_iff.1 hgo)
    | @owned r owner hr hout howned hdep howner ih =>
      obtain ⟨⟨d, hd⟩, hgo | ⟨hscheduled, hcleanup⟩⟩ := h.goesAlong _ (.owned hr hout howned hdep howner)
      · exact .mustGo hr (hout.leftOut hd) ((hout.leftOut hd).goes_iff.1 hgo)
      · cases hmust : r.mustGo teardown d.ty with
        | true => exact .mustGo hr (hout.leftOut hd) hmust
        | false =>
          exact .owned hr (hout.leftOut hd) (by simp [Resource.deletable, howned, hscheduled, hcleanup, hmust]) howned hdep ih
  refine ⟨⟨⟨fun r hr hout hgo => ?_, fun r hr hout howned dep hdep hmem => ?_⟩, fun S hS k hk => ?_⟩, fun k hk => ?_,
    fun d r hdr => ?_, fun rows hperm => deletionCandidates_perm hperm⟩
  · exact (mem_mandatory active).2 (hremoved r (.goes hr hout hgo))
  · obtain ⟨owner, rfl, howner⟩ := ((mem_mandatory active).1 hmem).goesAlong
    exact (mem_mandatory active).2 (hremoved r (.owned hr hout howned hdep howner))
  · exact ((mem_mandatory active).1 hk).mem hS
  · have hk := (mem_mandatory active).1 hk
    obtain ⟨r, hr, d, hd, rfl, -⟩ := hk.resource
    exact ⟨d, r, (mem_candidates active).2 ⟨hr, hd, .inr hk⟩, rfl⟩
  · obtain ⟨hr, hd, hwhy⟩ := (mem_candidates active).1 hdr
    have hvalid : ∃ d, parse r.descriptor = .ok d := ⟨d, parse_eq_ok.2 hd.text⟩
    refine ⟨hd.absent, fun hexternal => ?_, fun hadopted => ?_⟩
    · have hcleanup := h.external r hr hd.outside hvalid hexternal
      rcases hwhy with hdel | hk
      · simp [Resource.deletable, hexternal, hcleanup] at hdel
      · obtain ⟨d', -, hgo | ⟨-, howned⟩⟩ := hk.of_mem hr
        · simp [Resource.mustGo, hexternal] at hgo
        · rw [hexternal] at howned
          cases howned
    · rcases hwhy with hdel | hk
      · simp only [Resource.deletable, Resource.mustGo, hadopted, Bool.or_eq_true, Bool.and_eq_true] at hdel
        tauto
      · obtain ⟨d', -, hgo | ⟨-, howned⟩⟩ := hk.of_mem hr
        · simp only [Resource.mustGo, hadopted, Bool.and_eq_true] at hgo
          exact .inl hgo.2
        · rw [hadopted] at howned
          cases howned

end

end

/-- A removed workload takes what it owns with it exactly when none of that is scheduled for deletion, or deleted but
for its record. -/
theorem removals_complete_iff (graph : ResourceGraph) (teardown : Bool) (active : Inventory) :
    RemovalsComplete graph teardown active ↔ TakenUnscheduled graph teardown active :=
  ⟨takenUnscheduled_of_complete, complete_of_takenUnscheduled⟩

def provisionedResource (descriptor : String) (dependencies : List String) : Resource :=
  { app := "shop", env := "dev", descriptor, guresid := "", definitionId := some "table", definitionVersion := some 1
    driverType := some "echo", driverAccount := none, status := .provisioned, inputs := .obj [], outputs := .obj []
    secretOutputs := [], cookie := none, target := none, backend := none, recovery := .obj [], snapshot := .obj []
    externalIds := [], dependencies, ownership := .owned, lastDeployId := some "d1", scheduledDeletion := false
    cleanupPending := false }

def webWorkload : Resource := provisionedResource "workload.default#modules.web" []

def webTrigger : Resource :=
  { provisionedResource "trigger.default#modules.web.externals.timer" [webWorkload.descriptor] with scheduledDeletion := true }

/-- The trigger is owned by a removed workload, but is not among what the deployment must delete. -/
theorem scheduled_trigger_not_mandatory :
    ¬ RemovalsComplete { nodes := ∅, layers := [] } false ⟨[webWorkload, webTrigger], by decide⟩ := by
  intro h
  have houtside : ∀ r, Outside { nodes := ∅, layers := [] } r := fun r d hd => absurd hd Std.ExtTreeMap.not_mem_empty
  have hworkload : webWorkload.Goes false := by
    obtain ⟨d, hd, hty⟩ := toOption_any (by decide +kernel :
      ((Descriptor.parse webWorkload.descriptor).toOption.any fun d => d.ty.text = "workload") = true)
    exact .inr ⟨d, hd, by simpa using hty⟩
  obtain ⟨-, hgoes | ⟨hscheduled, -⟩⟩ := (takenUnscheduled_of_complete h).goesAlong webTrigger
    (.owned (by simp) (houtside _) rfl (mem_singleton.2 rfl) (.goes (by simp) (houtside _) hworkload))
  · rcases hgoes with hteardown | ⟨d, hd, hty⟩
    · cases hteardown
    · have htype : (Descriptor.parse webTrigger.descriptor).toOption.map (·.ty.text) = some "trigger" := by decide +kernel
      rw [hd] at htype
      have hother : d.ty.text = "trigger" := Option.some.inj htype
      rw [hty] at hother
      exact absurd hother (by decide)
  · cases hscheduled

end Openporch
