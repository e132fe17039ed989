import Openporch.Planner.Deprovision

/-!
# Checks before a deletion

`check_deletions` runs first: what the deployment will delete must still be possible to delete with the driver code it
was applied with. `kept_candidates` predicts which candidates something that stays will still use.
-/

namespace Openporch
open Loops Tasking Spreading List

variable {W : Type} (graph : ResourceGraph)

def inGraph : BTreeSet String := .ofList (graph.nodes.keys.map Descriptor.text) _

variable (active : List Resource) (tombstones : List Tombstone)

def predictedUsers : BTreeMap String (BTreeSet String) :=
  (recordedUses (active.filter fun r => !(inGraph graph).contains r.descriptor) tombstones id).foldl addUser ∅

section Prediction
variable (users : BTreeMap String (BTreeSet String)) (names mandatory : BTreeSet String)

def predictOne (kept : BTreeSet String) (r : Resource) : Option (BTreeSet String) :=
  if kept.contains r.descriptor || mandatory.contains r.descriptor then none
  else if (userList users r.descriptor).any fun u => !names.contains u || kept.contains u then some (kept.insert r.descriptor)
  else none

theorem predictOne_eq_some {kept kept'} {r : Resource} :
    predictOne users names mandatory kept r = some kept' ↔ r.descriptor ∉ kept ∧ r.descriptor ∉ mandatory ∧
      (∃ u ∈ userList users r.descriptor, u ∉ names ∨ u ∈ kept) ∧ kept' = kept.insert r.descriptor := by
  unfold predictOne
  split
  · rename_i hskip
    simp only [Bool.or_eq_true, Std.ExtTreeSet.contains_iff_mem] at hskip
    simp only [reduceCtorEq, false_iff]
    tauto
  · rename_i hskip
    simp only [Bool.or_eq_true, Std.ExtTreeSet.contains_iff_mem, not_or] at hskip
    have hany : ((userList users r.descriptor).any fun u => !names.contains u || kept.contains u) = true ↔
        ∃ u ∈ userList users r.descriptor, u ∉ names ∨ u ∈ kept := by
      simp only [any_eq_true, Bool.or_eq_true, Bool.not_eq_eq_eq_not, Bool.not_true, ← Bool.not_eq_true,
        Std.ExtTreeSet.contains_iff_mem]
    split
    · rename_i h
      simp only [hskip, not_false_eq_true, true_and, hany.1 h, Option.some.injEq]
      exact eq_comm
    · rename_i h
      simp only [reduceCtorEq, false_iff]
      exact fun hall => h (hany.2 hall.2.2.1)

def predicting : Spread Resource (BTreeSet String) where
  visit := predictOne users names mandatory
  marked kept r := kept.contains r.descriptor
  fresh := by
    intro kept r kept' h
    obtain ⟨hnew, -⟩ := (predictOne_eq_some users names mandatory).1 h
    rw [← Bool.not_eq_true, Std.ExtTreeSet.contains_iff_mem]
    exact hnew
  marks := by
    intro kept r kept' h
    obtain ⟨-, -, -, rfl⟩ := (predictOne_eq_some users names mandatory).1 h
    simp
  keeps := by
    intro kept r kept' y h hy
    obtain ⟨-, -, -, rfl⟩ := (predictOne_eq_some users names mandatory).1 h
    simp [hy]

end Prediction

def keptCandidates (candidates : Candidates)
    (mandatory : BTreeSet String) : BTreeSet String :=
  (predicting (predictedUsers graph active tombstones) candidates.names mandatory).run (candidates.toList.map (·.2)) ∅

def uncheckedNodes (e : StoreError) : BTreeMap Descriptor String :=
  graph.nodes.map fun _ _ => "the resources the deployment deletes could not be listed to check: " ++ e.text

def keptToCheck (tombstones : Result (List Tombstone)) (candidates : Candidates)
    (mandatory : BTreeSet String) : Result (BTreeSet String) :=
  if candidates.toList.all fun x => x.2.cleanupPending || mandatory.contains x.2.descriptor then .ok ∅
  else tombstones.map fun tombstones => keptCandidates graph active tombstones candidates mandatory

def toCheck (candidates : Candidates) (kept : BTreeSet String) : List (Descriptor × Resource) :=
  candidates.toList.filter fun x => !(x.2.cleanupPending || kept.contains x.2.descriptor)

/-- One check: `retained` is `check_retained` with its retries. -/
def checkDeletion (decode : Json → Except String JobInputs) (retained : Descriptor → Resource → Recorded → Except String Unit)
    (missing : BTreeMap Descriptor String) (x : Descriptor × Resource) : BTreeMap Descriptor String :=
  match Recorded.of decode x.2 with
  | .error e => missing.insert x.1 ("the deployment deletes this resource, but " ++ e)
  | .ok recorded =>
    if !isGuresid x.2.guresid then
      missing.insert x.1 "the deployment deletes this resource, but its recorded GUResID is invalid"
    else
      match retained x.1 x.2 recorded with
      | .ok () => missing
      | .error reason =>
        missing.insert x.1 ("the deployment deletes this resource, but the version it was applied with, which the deletion " ++
          "runs, is not available: " ++ reason)

def checkDeletions (teardown : Bool) (active : Result (List Resource)) (tombstones : Result (List Tombstone))
    (decode : Json → Except String JobInputs) (retained : Descriptor → Resource → Recorded → Except String Unit) :
    BTreeMap Descriptor String :=
  match active with
  | .error e => uncheckedNodes graph e
  | .ok active =>
    let (candidates, mandatory) := deletionCandidates graph teardown active
    if candidates.isEmpty then ∅
    else
      match keptToCheck graph active tombstones candidates mandatory with
      | .error e => uncheckedNodes graph e
      | .ok kept => (toCheck candidates kept).foldl (checkDeletion decode retained) ∅

def outsideRows : List Resource :=
  active.filter fun r => !(inGraph graph).contains r.descriptor

def PredictedUse (user k : String) : Prop :=
  (∃ r ∈ outsideRows graph active, k ∈ r.dependencies ∧ r.descriptor = user) ∨
    ∃ t ∈ tombstones, t.reason = .detached ∧ k ∈ t.dependencies ∧ t.descriptor = user

/-- A chain of candidates that are not mandatory, each used by the next, ends with a user that is no candidate. -/
inductive Predicted (graph : ResourceGraph) (active : List Resource) (tombstones : List Tombstone) (candidates : Candidates)
    (mandatory : BTreeSet String) : String → Prop
  | stays {d : Descriptor} {r : Resource} {u : String} : candidates[d]? = some r → r.descriptor ∉ mandatory →
      PredictedUse graph active tombstones u r.descriptor → ¬ candidates.Named u →
      Predicted graph active tombstones candidates mandatory r.descriptor
  | kept {d : Descriptor} {r : Resource} {u : String} : candidates[d]? = some r → r.descriptor ∉ mandatory →
      PredictedUse graph active tombstones u r.descriptor → Predicted graph active tombstones candidates mandatory u →
      Predicted graph active tombstones candidates mandatory r.descriptor

/-- A candidate that is deleted if every deletion succeeds: all that use it are gone or are deleted before it. -/
inductive CanGo (active : List Resource) (tombstones : List Tombstone) (candidates : Candidates) : String → Prop
  | cleanup {d : Descriptor} {r : Resource} : candidates[d]? = some r → r.cleanupPending = true →
      CanGo active tombstones candidates r.descriptor
  | users {d : Descriptor} {r : Resource} : candidates[d]? = some r →
      (∀ u, Uses active tombstones u r.descriptor → CanGo active tombstones candidates u) →
      CanGo active tombstones candidates r.descriptor

section
variable {graph : ResourceGraph} {active : List Resource} {tombstones : List Tombstone} {candidates : Candidates}
  {mandatory : BTreeSet String} {k u : String}

theorem mem_inGraph : k ∈ inGraph graph ↔ ∃ d ∈ graph.nodes, d.text = k := by
  rw [inGraph, Std.ExtTreeSet.mem_ofList, contains_iff_mem]
  simp [Std.ExtTreeMap.mem_keys]

theorem mem_outsideRows {r : Resource} : r ∈ outsideRows graph active ↔ r ∈ active ∧ Outside graph r := by
  rw [outsideRows, mem_filter, Bool.not_eq_true', ← Bool.not_eq_true, Std.ExtTreeSet.contains_iff_mem, mem_inGraph]
  simp [Outside]

theorem mem_predictedUsers : u ∈ userList (predictedUsers graph active tombstones) k ↔
    PredictedUse graph active tombstones u k := by
  rw [predictedUsers, userList_foldl]
  simp [userList, recordedUses, PredictedUse, outsideRows, and_assoc]

theorem mem_keptCandidates : k ∈ keptCandidates graph active tombstones candidates mandatory ↔
    Predicted graph active tombstones candidates mandatory k := by
  constructor
  · refine Spread.run_inv (predicting (predictedUsers graph active tombstones) candidates.names mandatory)
      (fun kept => ∀ k ∈ kept, Predicted graph active tombstones candidates mandatory k)
        (fun kept r kept' hr hkept hvisit => ?_) ∅
      (fun k hk => absurd hk Std.ExtTreeSet.not_mem_empty) k
    obtain ⟨-, hnot, ⟨u, hu, hwhy⟩, rfl⟩ := (predictOne_eq_some _ _ _).1 hvisit
    obtain ⟨⟨d, r⟩, hdr, rfl⟩ := mem_map.1 hr
    have hr := Std.ExtTreeMap.mem_toList_iff_getElem?_eq_some.1 hdr
    intro k hk
    rcases BTreeSet.mem_insert_iff.1 hk with rfl | hk
    · rcases hwhy with hwhy | hwhy
      · exact .stays hr hnot (mem_predictedUsers.1 hu) fun h => hwhy (mem_names.2 h)
      · exact .kept hr hnot (mem_predictedUsers.1 hu) (hkept u hwhy)
    · exact hkept k hk
  · have hstable := Spread.run_stable (predicting (predictedUsers graph active tombstones) candidates.names mandatory)
      (candidates.toList.map (·.2)) ∅
    have hclosed : ∀ {d : Descriptor} {r : Resource} {u : String}, candidates[d]? = some r → r.descriptor ∉ mandatory →
        PredictedUse graph active tombstones u r.descriptor →
        (¬ candidates.Named u ∨ u ∈ keptCandidates graph active tombstones candidates mandatory) →
        r.descriptor ∈ keptCandidates graph active tombstones candidates mandatory := by
      intro d r u hr hnot hu hwhy
      by_contra hk
      have hvisit := hstable r (mem_map.2 ⟨(d, r), Std.ExtTreeMap.mem_toList_iff_getElem?_eq_some.2 hr, rfl⟩)
      have hsome := (predictOne_eq_some (predictedUsers graph active tombstones) candidates.names mandatory).2
        ⟨hk, hnot, ⟨u, mem_predictedUsers.2 hu, hwhy.imp_left fun h hmem => h (mem_names.1 hmem)⟩, rfl⟩
      exact absurd (hvisit.symm.trans hsome) nofun
    intro hk
    induction hk with
    | stays hr hnot hu hstays => exact hclosed hr hnot hu (.inl hstays)
    | kept hr hnot hu _ ih => exact hclosed hr hnot hu (.inr ih)

end

/-- The inventory once the deployment has converged: what is in the graph depends only on what is in it, and nothing
else has changed. -/
structure ConvergedTo (graph : ResourceGraph) (active active' : Inventory) : Prop where
  outside : ∀ r, Outside graph r → (r ∈ active'.rows ↔ r ∈ active.rows)
  inside : ∀ r ∈ active'.rows, ¬ Outside graph r → ∀ dep ∈ r.dependencies, ∃ d ∈ graph.nodes, d.text = dep

def DeletionsChecked (teardown : Bool) (active : Inventory) (tombstones : List Tombstone) : Prop :=
  ∀ active', ConvergedTo graph active active' → ∀ (W : Type) (world : DeletionWorld W) (w : W) (d : Descriptor),
    .spawned d ∈ (deprovision world graph teardown (.ok active'.rows) (.ok tombstones) true
      (graph.nodes.map fun _ _ => .provisioned) w).log →
    ∀ r, (deletionCandidates graph teardown active'.rows).1[d]? = some r → r.cleanupPending = false →
      ∃ kept, keptToCheck graph active.rows (.ok tombstones) (deletionCandidates graph teardown active.rows).1
          (deletionCandidates graph teardown active.rows).2 = .ok kept ∧
        (d, r) ∈ toCheck (deletionCandidates graph teardown active.rows).1 kept

def PredictionHolds (teardown : Bool) (active : Inventory) (tombstones : List Tombstone) : Prop :=
  ∀ (d : Descriptor) (r : Resource), (deletionCandidates graph teardown active.rows).1[d]? = some r → r.cleanupPending = false →
    Predicted graph active.rows tombstones (deletionCandidates graph teardown active.rows).1
      (deletionCandidates graph teardown active.rows).2 r.descriptor →
    ¬ CanGo (outsideRows graph active.rows) tombstones (deletionCandidates graph teardown active.rows).1 r.descriptor

section
variable {graph : ResourceGraph} {teardown : Bool} {active active' : Inventory} {tombstones : List Tombstone} {d : Descriptor}
  {r : Resource}

theorem ConvergedTo.candidates_eq (h : ConvergedTo graph active active') :
    deletionCandidates graph teardown active'.rows = deletionCandidates graph teardown active.rows :=
  deletionCandidates_congr h.outside

theorem ConvergedTo.uses_iff (h : ConvergedTo graph active active') (hd : LeftOut graph r d) {u : String} :
    Uses active'.rows tombstones u r.descriptor ↔ Uses (outsideRows graph active.rows) tombstones u r.descriptor := by
  refine or_congr_left (exists_congr fun user => ?_)
  rw [mem_outsideRows]
  constructor
  · rintro ⟨huser, hdep, hu⟩
    have hout : Outside graph user := by
      by_contra hin
      obtain ⟨d', hd', htext⟩ := h.inside user huser hin _ hdep
      exact hd.outside d' hd' htext
    exact ⟨⟨(h.outside user hout).1 huser, hout⟩, hdep, hu⟩
  · rintro ⟨⟨huser, hout⟩, hdep, hu⟩
    exact ⟨(h.outside user hout).2 huser, hdep, hu⟩

variable {candidates : Candidates} {mandatory : BTreeSet String} {rows : List Resource} {k : String}

theorem canGo_of_spawned {W : Type} {world} {w : W} {outcomes}
    (htext : ∀ (d : Descriptor) (r : Resource), candidates[d]? = some r → d.text = r.descriptor) {pre post}
    (hlog : (runDeletions world candidates mandatory rows tombstones outcomes w).log = pre ++ .spawned d :: post)
    (hr : candidates[d]? = some r) : CanGo rows tombstones candidates r.descriptor := by
  have hlawful := runDeletions_lawful world candidates mandatory rows tombstones outcomes w
  induction hlen : pre.length using Nat.strong_induction_on generalizing pre d post r with
  | h n ih =>
    obtain ⟨r', hr', hwhy⟩ := runDeletions_after world mandatory outcomes w hlog
    rw [hr] at hr'
    cases hr'
    rcases hwhy with hcleanup | hall
    · exact .cleanup hr hcleanup
    · refine .users hr fun u hu => ?_
      -- the user was spawned before it was deleted, and so before this one
      obtain ⟨d', rfl, hended⟩ := hall u hu
      rw [hlog] at hlawful
      obtain ⟨pre', post', hpre⟩ := append_of_mem (hlawful.of_append.spawned_of_ended hended)
      have hlog' : (runDeletions world candidates mandatory rows tombstones outcomes w).log =
          pre' ++ .spawned d' :: (post' ++ .spawned d :: post) := by rw [hlog, hpre]; simp
      obtain ⟨r', hr', -⟩ := runDeletions_after world mandatory outcomes w hlog'
      rw [htext d' r' hr']
      exact ih pre'.length (by rw [← hlen, hpre]; simp) hlog' hr' rfl

def allSucceed : DeletionWorld Unit where
  late w := (false, w)
  pick w := (0, w)
  finish _ w := (.deleted, w)

theorem ended_of_canGo (mandatory : BTreeSet String) (outcomes : BTreeMap Descriptor Outcome)
    (htext : ∀ (d : Descriptor) (r : Resource), candidates[d]? = some r → d.text = r.descriptor)
    (hk : CanGo rows tombstones candidates k) : ∃ d, d.text = k ∧
      .ended d .deleted ∈ (runDeletions allSucceed candidates mandatory rows tombstones outcomes ()).log := by
  have hlawful := runDeletions_lawful allSucceed candidates mandatory rows tombstones outcomes ()
  have hlate : ∀ d, .late d ∉ (runDeletions allSucceed candidates mandatory rows tombstones outcomes ()).log := fun d hd => by
    obtain ⟨_, hnow⟩ := hlawful.of_late hd
    cases hnow
  have hsucceed : ∀ d e, .ended d e ∈ (runDeletions allSucceed candidates mandatory rows tombstones outcomes ()).log →
      e = .deleted := fun d e he => by
    obtain ⟨_, _, _, -, heq⟩ := hlawful.of_ended he
    exact heq
  induction hk with
  | cleanup hr hcleanup => exact ⟨_, htext _ _ hr, ended_of_ready hr (hlate _) (hsucceed _) (.inl hcleanup)⟩
  | users hr _ ih => exact ⟨_, htext _ _ hr, ended_of_ready hr (hlate _) (hsucceed _) (.inr ih)⟩

theorem ConvergedTo.canGo (h : ConvergedTo graph active active')
    (hk : CanGo active'.rows tombstones (deletionCandidates graph teardown active.rows).1 k) :
    CanGo (outsideRows graph active.rows) tombstones (deletionCandidates graph teardown active.rows).1 k := by
  induction hk with
  | cleanup hr hcleanup => exact .cleanup hr hcleanup
  | users hr _ ih => exact .users hr fun u hu => ih u ((h.uses_iff ((mem_candidates active).1 hr).2.1).2 hu)

theorem mem_toCheck {kept} :
    (d, r) ∈ toCheck candidates kept ↔ candidates[d]? = some r ∧ r.cleanupPending = false ∧ r.descriptor ∉ kept := by
  rw [toCheck, mem_filter, Std.ExtTreeMap.mem_toList_iff_getElem?_eq_some, Bool.not_eq_true', Bool.or_eq_false_iff,
    ← Bool.not_eq_true (kept.contains _), Std.ExtTreeSet.contains_iff_mem]

theorem keptToCheck_eq (hr : candidates[d]? = some r) (hcleanup : r.cleanupPending = false) (hnot : r.descriptor ∉ mandatory) :
    keptToCheck graph active.rows (.ok tombstones) candidates mandatory =
      .ok (keptCandidates graph active.rows tombstones candidates mandatory) := by
  unfold keptToCheck
  rw [if_neg]
  · rfl
  · intro hall
    have hthis := all_eq_true.1 hall (d, r) (Std.ExtTreeMap.mem_toList_iff_getElem?_eq_some.2 hr)
    simp only [hcleanup, Bool.false_or, Std.ExtTreeSet.contains_iff_mem] at hthis
    exact hnot hthis

theorem Predicted.not_mandatory (h : Predicted graph rows tombstones candidates mandatory k) : k ∉ mandatory := by
  cases h with
  | stays _ hnot _ _ => exact hnot
  | kept _ hnot _ _ => exact hnot

theorem predictionHolds_of_checked (h : DeletionsChecked graph teardown active tombstones) :
    PredictionHolds graph teardown active tombstones := by
  intro d r hr hcleanup hpredicted hcan
  let rest : Inventory := ⟨outsideRows graph active.rows, (filter_sublist.map _).nodup active.unique⟩
  have hconverged : ConvergedTo graph active rest := by
    refine ⟨fun r hout => ?_, fun r hr hin => absurd (mem_outsideRows.1 hr).2 hin⟩
    exact ⟨fun h => (mem_outsideRows.1 h).1, fun h => mem_outsideRows.2 ⟨h, hout⟩⟩
  have hr' := hr
  rw [← hconverged.candidates_eq] at hr'
  have htext : ∀ (d : Descriptor) (r : Resource), (deletionCandidates graph teardown rest.rows).1[d]? = some r →
      d.text = r.descriptor := fun d r hr => ((mem_candidates rest).1 hr).2.1.text
  have hcan' : CanGo rest.rows tombstones (deletionCandidates graph teardown rest.rows).1 r.descriptor := by
    rw [hconverged.candidates_eq]
    exact hcan
  obtain ⟨d', hd', hended⟩ := ended_of_canGo (deletionCandidates graph teardown rest.rows).2
    (graph.nodes.map fun _ _ => .provisioned) htext hcan'
  obtain rfl := Descriptor.text_injective (hd'.trans (htext d r hr').symm)
  have hspawned := (runDeletions_lawful _ _ _ _ _ _ _).spawned_of_ended hended
  have hrun : (deprovision allSucceed graph teardown (.ok rest.rows) (.ok tombstones) true
      (graph.nodes.map fun _ _ => .provisioned)
      ()).log = (runDeletions allSucceed (deletionCandidates graph teardown rest.rows).1
        (deletionCandidates graph teardown rest.rows).2
        rest.rows tombstones (graph.nodes.map fun _ _ => .provisioned) ()).log := by
    rw [deprovision_converged, if_neg]
    intro hempty
    rw [Std.ExtTreeMap.isEmpty_iff.1 hempty] at hr'
    simp at hr'
  obtain ⟨kept, hkept, hmem⟩ := h rest hconverged Unit allSucceed () d' (hrun ▸ hspawned) r hr' hcleanup
  rw [keptToCheck_eq hr hcleanup hpredicted.not_mandatory] at hkept
  cases hkept
  exact (mem_toCheck.1 hmem).2.2 (mem_keptCandidates.2 hpredicted)

theorem checked_of_predictionHolds (h : PredictionHolds graph teardown active tombstones) :
    DeletionsChecked graph teardown active tombstones := by
  intro active' hconverged W world w d hspawned r hr hcleanup
  rw [deprovision_converged] at hspawned
  split at hspawned
  · cases hspawned
  obtain ⟨pre, post, hlog⟩ := append_of_mem hspawned
  have hcan := canGo_of_spawned (fun d r hr => ((mem_candidates active').1 hr).2.1.text) hlog hr
  rw [hconverged.candidates_eq] at hr hcan
  by_cases hmandatory : r.descriptor ∈ (deletionCandidates graph teardown active.rows).2
  · have hunpredicted : r.descriptor ∉ keptCandidates graph active.rows tombstones
        (deletionCandidates graph teardown active.rows).1 (deletionCandidates graph teardown active.rows).2 :=
      fun hk => (mem_keptCandidates.1 hk).not_mandatory hmandatory
    unfold keptToCheck
    split
    · exact ⟨∅, rfl, mem_toCheck.2 ⟨hr, hcleanup, Std.ExtTreeSet.not_mem_empty⟩⟩
    · exact ⟨_, rfl, mem_toCheck.2 ⟨hr, hcleanup, hunpredicted⟩⟩
  · refine ⟨_, keptToCheck_eq hr hcleanup hmandatory, mem_toCheck.2 ⟨hr, hcleanup, fun hk => ?_⟩⟩
    exact h d r hr hcleanup (mem_keptCandidates.1 hk) (hconverged.canGo hcan)

end

/-- Every deletion is checked before anything runs exactly when nothing that is predicted to stay can go. -/
theorem deletions_checked_iff (graph : ResourceGraph) (teardown : Bool) (active : Inventory) (tombstones : List Tombstone) :
    DeletionsChecked graph teardown active tombstones ↔ PredictionHolds graph teardown active tombstones :=
  ⟨predictionHolds_of_checked, checked_of_predictionHolds⟩

def edgeRoute : Resource := provisionedResource "route.default#edge" ["dns.default#pool"]

def poolRecord : Resource :=
  { provisionedResource "dns.default#pool" ["bucket.default#base"] with scheduledDeletion := true, cleanupPending := true }

def baseBucket : Resource := { provisionedResource "bucket.default#base" [] with scheduledDeletion := true }

def poolInventory : Inventory := ⟨[edgeRoute, poolRecord, baseBucket], by decide⟩

def spawnsNamed (name : String) : Event Descriptor DeletionEnd → Bool
  | .spawned d => d.text = name
  | _ => false

/-- The bucket is predicted to stay because the pool's record is; but the record is removed, and then the bucket is
deleted unchecked. -/
theorem base_deleted_unchecked : ¬ DeletionsChecked { nodes := ∅, layers := [] } false poolInventory [] := by
  intro h
  have hout : ∀ r, Outside { nodes := ∅, layers := [] } r := fun r d hd => absurd hd Std.ExtTreeMap.not_mem_empty
  have hspawns : ((deprovision allSucceed { nodes := ∅, layers := [] } false (.ok poolInventory.rows) (.ok []) true
      ((∅ : BTreeMap Descriptor Node).map fun _ _ => .provisioned) ()).log.any (spawnsNamed baseBucket.descriptor)) = true := by
    decide +kernel
  obtain ⟨e, he, hname⟩ := any_eq_true.1 hspawns
  cases e with
  | late d => cases hname
  | ended d e => cases hname
  | spawned d =>
    have htext : d.text = baseBucket.descriptor := of_decide_eq_true hname
    have hcandidate : (deletionCandidates { nodes := ∅, layers := [] } false poolInventory.rows).1[d]? = some baseBucket :=
      (mem_candidates poolInventory).2 ⟨by simp [poolInventory], ⟨htext, Std.ExtTreeMap.not_mem_empty⟩, .inl rfl⟩
    obtain ⟨kept, hkept, hmem⟩ := h poolInventory ⟨fun r _ => Iff.rfl, fun r _ hin => absurd (hout r) hin⟩ Unit allSucceed () d he
      baseBucket hcandidate rfl
    have hpredicted : ((keptToCheck { nodes := ∅, layers := [] } poolInventory.rows (.ok [])
        (deletionCandidates { nodes := ∅, layers := [] } false poolInventory.rows).1
        (deletionCandidates { nodes := ∅, layers := [] } false poolInventory.rows).2).toOption.any
          (·.contains baseBucket.descriptor)) = true := by decide +kernel
    rw [hkept] at hpredicted
    exact (mem_toCheck.1 hmem).2.2 (Std.ExtTreeSet.contains_iff_mem.1 hpredicted)

end Openporch
