import Openporch.Lib.Acyclic
import Openporch.Lib.Tasks
import Openporch.Planner.Deletion
import Openporch.Planner.Ends
import Mathlib.Order.WellFoundedSet

/-!
# Deleting what a deployment leaves out

`deprovision`: the candidates are deleted in reverse dependency order, each once all that use it are gone. What is left
at the end is kept, if something that stays uses it, or pending.
-/

namespace Openporch
open Loops Tasking Spreading List BTreeMap

variable {W : Type} (users : BTreeMap String (BTreeSet String))

def addUser (x : String × String) : BTreeMap String (BTreeSet String) :=
  users.insert x.1 ((users[x.1]?.getD ∅).insert x.2)

def userList (descriptor : String) : List String :=
  users[descriptor]?.elim [] (·.toList)

/-- The dependencies that are recorded, each with who recorded it. A detached resource keeps running, so it still uses
what it depended on. -/
def recordedUses (active : List Resource) (tombstones : List Tombstone) (detached : String → String) : List (String × String) :=
  (active.flatMap fun r => r.dependencies.map fun dep => (dep, r.descriptor)) ++
    (tombstones.filter (·.reason = .detached)).flatMap fun t => t.dependencies.map fun dep => (dep, detached t.descriptor)

def detachedName (descriptor : String) : String := descriptor ++ " (detached)"

def usersOf (active : List Resource) (tombstones : List Tombstone) : BTreeMap String (BTreeSet String) :=
  (recordedUses active tombstones detachedName).foldl addUser ∅

structure DeletionWorld (W : Type) where
  late : W → Bool × W
  pick : W → Nat × W
  finish : Descriptor → W → DeletionEnd × W

structure Progress where
  outcomes : BTreeMap Descriptor Outcome
  deleted : BTreeSet String := ∅

def Progress.join (p : Progress) (d : Descriptor) (e : DeletionEnd) : Progress :=
  { outcomes := p.outcomes.insert d e.outcome, deleted := if e = .deleted then p.deleted.insert d.text else p.deleted }

variable {d : Descriptor} {u : String} {active : List Resource} {tombstones : List Tombstone}

theorem Progress.mem_deleted_join {p : Progress} {e : DeletionEnd} :
    u ∈ (p.join d e).deleted ↔ u ∈ p.deleted ∨ e = .deleted ∧ d.text = u := by
  unfold join
  split
  · rename_i he
    rw [BTreeSet.mem_insert_iff, or_comm]
    simp [he]
  · rename_i he
    simp [he]

abbrev Candidates := BTreeMap Descriptor Resource

def Candidates.names (candidates : Candidates) : BTreeSet String := .ofList (candidates.toList.map (·.2.descriptor)) _

def deletionReady (deleted : BTreeSet String) (r : Resource) : Bool :=
  r.cleanupPending || (userList users r.descriptor).all deleted.contains

variable (world : DeletionWorld W) (candidates : Candidates)

def deletionTasks (users : BTreeMap String (BTreeSet String)) :
    Tasks Descriptor Descriptor DeletionEnd Progress W where
  items := candidates.keys
  ready p d := candidates[d]?.any (deletionReady users p.deleted)
  late := world.late
  spawn _ d := d
  pick := world.pick
  finish := world.finish
  join := Progress.join

section Kept
variable (users : BTreeMap String (BTreeSet String)) (deleted : BTreeSet String) (candidateNames mandatory : BTreeSet String)

def blockers (r : Resource) : List String := (userList users r.descriptor).filter fun u => !deleted.contains u

variable (kept : BTreeMap String String)

def keeper (r : Resource) : Option String :=
  (blockers users deleted r).find? fun u => !candidateNames.contains u || kept.contains u

def keepOne (x : Descriptor × Resource) : Option (BTreeMap String String) :=
  if kept.contains x.2.descriptor || mandatory.contains x.2.descriptor then none
  else (keeper users deleted candidateNames kept x.2).map fun u => kept.insert x.2.descriptor u

theorem keepOne_eq_some {kept kept' x} :
    keepOne users deleted candidateNames mandatory kept x = some kept' ↔ x.2.descriptor ∉ kept ∧ x.2.descriptor ∉ mandatory ∧
      ∃ u, keeper users deleted candidateNames kept x.2 = some u ∧ kept' = kept.insert x.2.descriptor u := by
  unfold keepOne
  split
  · rename_i hskip
    simp only [Bool.or_eq_true, Std.ExtTreeMap.contains_iff_mem, Std.ExtTreeSet.contains_iff_mem] at hskip
    simp only [reduceCtorEq, false_iff]
    tauto
  · rename_i hskip
    simp only [Bool.or_eq_true, Std.ExtTreeMap.contains_iff_mem, Std.ExtTreeSet.contains_iff_mem, not_or] at hskip
    rw [Option.map_eq_some_iff]
    simp only [hskip, not_false_eq_true, true_and]
    exact exists_congr fun u => and_congr_right fun _ => eq_comm

def keeping : Spread (Descriptor × Resource) (BTreeMap String String) where
  visit := keepOne users deleted candidateNames mandatory
  marked kept x := kept.contains x.2.descriptor
  fresh := by
    intro kept x kept' h
    obtain ⟨hnew, -⟩ := (keepOne_eq_some users deleted candidateNames mandatory).1 h
    rw [← Bool.not_eq_true, Std.ExtTreeMap.contains_iff_mem]
    exact hnew
  marks := by
    intro kept x kept' h
    obtain ⟨-, -, u, -, rfl⟩ := (keepOne_eq_some users deleted candidateNames mandatory).1 h
    simp
  keeps := by
    intro kept x kept' y h hy
    obtain ⟨-, -, u, -, rfl⟩ := (keepOne_eq_some users deleted candidateNames mandatory).1 h
    simp [hy]

def pendingReason (late : Bool) (r : Resource) : String :=
  match (blockers users deleted r).head? with
  | some u =>
    if " (detached)".toList.isSuffixOf u.toList then
      "still used by `" ++ u ++ "`, which openporch no longer manages; detach this resource too to leave it in place, then retry"
    else if !candidateNames.contains u || kept.contains u then
      "still used by `" ++ u ++ "`, which stays; schedule it for deletion too"
    else "waiting for `" ++ u ++ "` to be deleted"
  | none => if late then "the deployment ran out of time" else "deletion stopped unexpectedly"

def leftOutcome (late : Bool) (r : Resource) : Outcome :=
  match kept[r.descriptor]? with
  | some u => .kept ("scheduled for deletion, but still used by `" ++ u ++ "`")
  | none => .pending (pendingReason users deleted candidateNames kept late r)

end Kept

structure Deprovisioned where
  outcomes : BTreeMap Descriptor Outcome
  /-- What the run did, in order. -/
  log : List (Event Descriptor DeletionEnd) := []
  listed : Except String Unit := .ok ()

def unlisted (e : StoreError) : Except String Unit := .error ("the resources to delete could not be listed: " ++ e.text)

def leavePending (outcomes : BTreeMap Descriptor Outcome) (d : Descriptor) : BTreeMap Descriptor Outcome :=
  if outcomes.contains d then outcomes
  else outcomes.insert d (.pending "deleted only once the deployment's other resources provision")

def recordLeft (outcome : Bool → Resource → Outcome) (acc : BTreeMap Descriptor Outcome × W)
    (x : Descriptor × Resource) : BTreeMap Descriptor Outcome × W :=
  (acc.1.insert x.1 (outcome (world.late acc.2).1 x.2), (world.late acc.2).2)

def runDeletions (mandatory : BTreeSet String) (active : List Resource)
    (tombstones : List Tombstone) (outcomes : BTreeMap Descriptor Outcome) (w : W) : Deprovisioned :=
  let users := usersOf active tombstones
  let s := (deletionTasks world candidates users).run w { outcomes }
  let undecided := candidates.toList.filter fun x => !s.acc.outcomes.contains x.1
  let kept := (keeping users s.acc.deleted candidates.names mandatory).run undecided ∅
  let left := undecided.foldl (recordLeft world (leftOutcome users s.acc.deleted candidates.names kept)) (s.acc.outcomes, s.world)
  { outcomes := left.1, log := s.log }

def deprovision (graph : ResourceGraph) (teardown : Bool) (active : Result (List Resource))
    (tombstones : Result (List Tombstone)) (converged : Bool) (outcomes : BTreeMap Descriptor Outcome) (w : W) : Deprovisioned :=
  match active with
  | .error e => { outcomes, listed := unlisted e }
  | .ok active =>
    let (candidates, mandatory) := deletionCandidates graph teardown active
    if candidates.isEmpty then { outcomes }
    else if !converged then { outcomes := candidates.keys.foldl leavePending outcomes }
    else
      match tombstones with
      | .error e => { outcomes, listed := unlisted e }
      | .ok tombstones => runDeletions world candidates mandatory active tombstones outcomes w

theorem userList_addUser (x : String × String) (k u : String) :
    u ∈ userList (addUser users x) k ↔ u ∈ userList users k ∨ (k, u) = x := by
  obtain ⟨k', u'⟩ := x
  simp only [userList, addUser, get_insert]
  by_cases hk : k' = k
  · subst hk
    have hpair : (k', u) = (k', u') ↔ u' = u := by simp [eq_comm]
    rw [if_pos rfl, Option.elim_some, Std.ExtTreeSet.mem_toList, BTreeSet.mem_insert_iff, hpair, or_comm]
    cases users[k']? <;> simp
  · have hne : ¬ (k, u) = (k', u') := fun h => hk (Prod.mk.inj h).1.symm
    rw [if_neg hk]
    simp [hne]

theorem userList_foldl (pairs : List (String × String)) (users : BTreeMap String (BTreeSet String)) (k u : String) :
    u ∈ userList (pairs.foldl addUser users) k ↔ u ∈ userList users k ∨ (k, u) ∈ pairs := by
  induction pairs generalizing users with
  | nil => simp
  | cons x pairs ih => rw [foldl_cons, ih, userList_addUser, mem_cons, or_assoc]

theorem mem_userList {k : String} :
    u ∈ userList (usersOf active tombstones) k ↔ (∃ r ∈ active, k ∈ r.dependencies ∧ r.descriptor = u) ∨
      ∃ t ∈ tombstones, t.reason = .detached ∧ k ∈ t.dependencies ∧ detachedName t.descriptor = u := by
  rw [usersOf, userList_foldl]
  simp [userList, recordedUses, and_assoc]

section
variable {world : DeletionWorld W} {candidates : Candidates} {users : BTreeMap String (BTreeSet String)}

theorem mem_deleted (p : Progress) (log : List (Event Descriptor DeletionEnd)) (u : String) :
    u ∈ ((deletionTasks world candidates users).replay p log).deleted ↔
      u ∈ p.deleted ∨ ∃ d, d.text = u ∧ .ended d .deleted ∈ log := by
  have h := Tasks.holds_replay (t := deletionTasks world candidates users) (M := fun p => u ∈ p.deleted)
    (fun _ _ _ => Progress.mem_deleted_join) p log
  simpa [and_assoc] using h

end

def Uses (active : List Resource) (tombstones : List Tombstone) (user k : String) : Prop :=
  (∃ r ∈ active, k ∈ r.dependencies ∧ r.descriptor = user) ∨
    ∃ t ∈ tombstones, t.reason = .detached ∧ k ∈ t.dependencies ∧ detachedName t.descriptor = user

def Records (active : List Resource) (a b : String) : Prop := ∃ r ∈ active, r.descriptor = a ∧ b ∈ r.dependencies

def DeletedIn (log : List (Event Descriptor DeletionEnd)) (u : String) : Prop := ∃ d, d.text = u ∧ .ended d .deleted ∈ log

def Candidates.Named (u : String) : Prop :=
  ∃ (d : Descriptor) (r : Resource), candidates[d]? = some r ∧ r.descriptor = u

structure DeletionsOrdered (active : List Resource) (tombstones : List Tombstone) (candidates : Candidates)
    (mandatory : BTreeSet String) (res : Deprovisioned) : Prop where
  /-- A deletion starts after all users are gone. -/
  after : ∀ pre d post, res.log = pre ++ .spawned d :: post → ∃ r, candidates[d]? = some r ∧ (r.cleanupPending = false →
    (∀ user ∈ active, r.descriptor ∈ user.dependencies → DeletedIn pre user.descriptor) ∧
      ∀ t ∈ tombstones, t.reason = .detached → r.descriptor ∉ t.dependencies)
  /-- Each candidate has one outcome, that of its task if it was attempted. -/
  once : ∀ d ∈ candidates, ∃ o, res.outcomes[d]? = some o ∧ ∀ e, .ended d e ∈ res.log → o = e.outcome
  kept : ∀ (d : Descriptor) (r : Resource) (reason : String), candidates[d]? = some r →
    res.outcomes[d]? = some (.kept reason) → r.descriptor ∉ mandatory ∧ ∃ stays, ¬ candidates.Named stays ∧
      Relation.TransGen (fun a b => Uses active tombstones b a ∧ ¬ DeletedIn res.log b) r.descriptor stays
  complete : Acyclicity.Acyclic (Records active) → (∀ d, .late d ∉ res.log) → (∀ d e, .ended d e ∈ res.log → e = .deleted) →
    ∀ (d : Descriptor) (r : Resource), candidates[d]? = some r →
      (∀ u, Relation.TransGen (fun a b => Uses active tombstones b a) r.descriptor u → candidates.Named u) →
      res.outcomes[d]? = some .deleted

section
variable {world : DeletionWorld W} {candidates : Candidates} {mandatory : BTreeSet String} {active : List Resource}
  {tombstones : List Tombstone} {outcomes : BTreeMap Descriptor Outcome} {w : W} {d : Descriptor} {r : Resource} {u k : String}

theorem mem_userList_iff : u ∈ userList (usersOf active tombstones) k ↔ Uses active tombstones u k := mem_userList

theorem mem_names : u ∈ candidates.names ↔ candidates.Named u := by
  rw [Candidates.names, Std.ExtTreeSet.mem_ofList, contains_iff_mem]
  simp [Candidates.Named, Std.ExtTreeMap.mem_toList_iff_getElem?_eq_some]

theorem deletionReady_iff {deleted} : deletionReady (usersOf active tombstones) deleted r = true ↔
    r.cleanupPending = true ∨ ∀ u, Uses active tombstones u r.descriptor → u ∈ deleted := by
  simp [deletionReady, mem_userList_iff]

theorem foldl_recordLeft (world : DeletionWorld W) (outcome : Bool → Resource → Outcome)
    (l : List (Descriptor × Resource)) (hnodup : (l.map (·.1)).Nodup)
    (acc : BTreeMap Descriptor Outcome × W) (d : Descriptor) :
    (∀ r, (d, r) ∈ l → ∃ late, (l.foldl (recordLeft world outcome) acc).1[d]? = some (outcome late r)) ∧
      (d ∉ l.map (·.1) → (l.foldl (recordLeft world outcome) acc).1[d]? = acc.1[d]?) := by
  induction l generalizing acc with
  | nil => simp
  | cons x l ih =>
    obtain ⟨hnew, hnodup⟩ := nodup_cons.1 hnodup
    obtain ⟨hin, hout⟩ := ih hnodup (recordLeft world outcome acc x)
    have hstep : (recordLeft world outcome acc x).1[d]? =
        if x.1 = d then some (outcome (world.late acc.2).1 x.2) else acc.1[d]? :=
      get_insert
    rw [foldl_cons]
    refine ⟨fun r hr => ?_, fun hd => ?_⟩
    · rcases mem_cons.1 hr with rfl | hr
      · rw [hout hnew, hstep, if_pos rfl]
        exact ⟨_, rfl⟩
      · exact hin r hr
    · rw [map_cons, mem_cons, not_or] at hd
      rw [hout hd.2, hstep, if_neg (Ne.symm hd.1)]

variable (world candidates mandatory active tombstones outcomes w) in
theorem runDeletions_lawful : (deletionTasks world candidates (usersOf active tombstones)).Lawful { outcomes }
    (runDeletions world candidates mandatory active tombstones outcomes w).log := (Tasks.run_ended _ _).lawful

theorem outcomes_view {log users} (h : (deletionTasks world candidates users).Lawful { outcomes } log)
    (d : Descriptor) :
    (∀ e, .ended d e ∈ log → ((deletionTasks world candidates users).replay { outcomes } log).outcomes[d]? = some e.outcome) ∧
      ((∀ e, .ended d e ∉ log) → ((deletionTasks world candidates users).replay { outcomes } log).outcomes[d]? =
        outcomes[d]?) := by
  have hjoin : ∀ (p : Progress) (k : Descriptor) (e : DeletionEnd) (k' : Descriptor),
      ((deletionTasks world candidates users).join p k e).outcomes[k']? = if k = k' then some e.outcome else p.outcomes[k']? :=
    fun p k e k' => get_insert
  refine h.view (fun p d => p.outcomes[d]?) DeletionEnd.outcome (fun p k e => ?_) fun p k e k' hk => ?_
  · exact (hjoin p k e k).trans (if_pos rfl)
  · exact (hjoin p k e k').trans (if_neg hk)

def KeptByChain (active : List Resource) (tombstones : List Tombstone) (candidates : Candidates) (mandatory : BTreeSet String)
    (deleted : BTreeSet String) (kept : BTreeMap String String) : Prop :=
  ∀ k ∈ kept, k ∉ mandatory ∧ ∃ stays, ¬ candidates.Named stays ∧
    Relation.TransGen (fun a b => Uses active tombstones b a ∧ b ∉ deleted) k stays

theorem keeping_chain (deleted : BTreeSet String) (undecided : List (Descriptor × Resource)) :
    KeptByChain active tombstones candidates mandatory deleted
      ((keeping (usersOf active tombstones) deleted candidates.names mandatory).run undecided ∅) := by
  refine Spread.run_inv _ (KeptByChain active tombstones candidates mandatory deleted) (fun kept x kept' _ hkept hvisit => ?_) ∅
    (fun k hk => absurd hk Std.ExtTreeMap.not_mem_empty)
  obtain ⟨-, hnot, u, hkeeper, rfl⟩ := (keepOne_eq_some _ _ _ _).1 hvisit
  intro k hk
  rw [Std.ExtTreeMap.mem_insert, Std.LawfulEqOrd.compare_eq_iff_eq] at hk
  rcases hk with rfl | hk
  · refine ⟨hnot, ?_⟩
    have hmem := mem_of_find?_eq_some hkeeper
    rw [blockers, mem_filter, mem_userList_iff, Bool.not_eq_true', ← Bool.not_eq_true,
      Std.ExtTreeSet.contains_iff_mem] at hmem
    have hstays := find?_some hkeeper
    rw [Bool.or_eq_true, Bool.not_eq_true', ← Bool.not_eq_true, Std.ExtTreeSet.contains_iff_mem, mem_names,
      Std.ExtTreeMap.contains_iff_mem] at hstays
    rcases hstays with hstays | hu
    · exact ⟨u, hstays, .single hmem⟩
    · obtain ⟨-, stays, hstays, hchain⟩ := hkept u hu
      exact ⟨stays, hstays, .head hmem hchain⟩
  · exact hkept k hk

theorem detachedName_ne (s : String) (d : Descriptor) : d.text ≠ detachedName s := by
  intro h
  refine d.space_not_mem ?_
  rw [h, detachedName, String.toList_append]
  exact mem_append_right _ (by decide)

section
variable (world mandatory outcomes w)

theorem runDeletions_after {pre post}
    (h : (runDeletions world candidates mandatory active tombstones outcomes w).log = pre ++ .spawned d :: post) :
    ∃ r, candidates[d]? = some r ∧ (r.cleanupPending = true ∨
      ∀ u, Uses active tombstones u r.descriptor → DeletedIn pre u) := by
  have hlawful := runDeletions_lawful world candidates mandatory active tombstones outcomes w
  rw [h] at hlawful
  obtain ⟨-, -, hready⟩ := hlawful.of_spawned
  obtain ⟨r, hr, hready⟩ := (Option.any_eq_true _ _).1 hready
  refine ⟨r, hr, (deletionReady_iff.1 hready).imp_right fun hall u hu => ?_⟩
  rcases (mem_deleted _ _ u).1 (hall u hu) with hnone | hdeleted
  · exact absurd hnone Std.ExtTreeSet.not_mem_empty
  · exact hdeleted

end

variable (world mandatory active tombstones outcomes w) in
/-- The loop over what the tasks left undecided. -/
theorem runDeletions_left (d : Descriptor) :
    let s := (deletionTasks world candidates (usersOf active tombstones)).run w { outcomes }
    let res := (runDeletions world candidates mandatory active tombstones outcomes w).outcomes[d]?
    (∀ r, candidates[d]? = some r → s.acc.outcomes[d]? = none → ∃ kept late,
      KeptByChain active tombstones candidates mandatory s.acc.deleted kept ∧
        res = some (leftOutcome (usersOf active tombstones) s.acc.deleted candidates.names kept late r)) ∧
      (candidates[d]? = none ∨ s.acc.outcomes[d]? ≠ none → res = s.acc.outcomes[d]?) := by
  intro s res
  let undecided := candidates.toList.filter fun x => !s.acc.outcomes.contains x.1
  have hundecided : ∀ r, (d, r) ∈ undecided ↔ candidates[d]? = some r ∧ s.acc.outcomes[d]? = none := fun r => by
    rw [mem_filter, Std.ExtTreeMap.mem_toList_iff_getElem?_eq_some, Bool.not_eq_true', get_eq_none]
  have hnodup : (undecided.map (·.1)).Nodup := by
    refine (filter_sublist.map _).nodup ?_
    rw [Std.ExtTreeMap.map_fst_toList_eq_keys]
    exact Std.ExtTreeMap.nodup_keys
  obtain ⟨hleft, hother⟩ := foldl_recordLeft world (leftOutcome (usersOf active tombstones) s.acc.deleted
    candidates.names ((keeping (usersOf active tombstones) s.acc.deleted candidates.names mandatory).run undecided ∅))
    undecided hnodup (s.acc.outcomes, s.world) d
  refine ⟨fun r hr hnone => ?_, fun h => hother fun hmem => ?_⟩
  · obtain ⟨late, hlate⟩ := hleft r ((hundecided r).2 ⟨hr, hnone⟩)
    exact ⟨_, late, keeping_chain s.acc.deleted undecided, hlate⟩
  · obtain ⟨x, hx, rfl⟩ := mem_map.1 hmem
    obtain ⟨hr, hnone⟩ := (hundecided x.2).1 hx
    rw [hr, hnone] at h
    simp at h

theorem runDeletions_outcome (hnone : outcomes[d]? = none) (hr : candidates[d]? = some r) :
    let res := runDeletions world candidates mandatory active tombstones outcomes w
    (∃ e, .ended d e ∈ res.log ∧ res.outcomes[d]? = some e.outcome) ∨
      (∀ e, .ended d e ∉ res.log) ∧ ∃ deleted kept late, (∀ u, u ∈ deleted ↔ DeletedIn res.log u) ∧
        KeptByChain active tombstones candidates mandatory deleted kept ∧
        res.outcomes[d]? = some (leftOutcome (usersOf active tombstones) deleted candidates.names kept late r) := by
  intro res
  let s := (deletionTasks world candidates (usersOf active tombstones)).run w { outcomes }
  have hended : (deletionTasks world candidates (usersOf active tombstones)).Ended { outcomes } s := Tasks.run_ended _ _
  have hview := outcomes_view hended.lawful d
  rw [← hended.replayed] at hview
  obtain ⟨hleft, hother⟩ := runDeletions_left world mandatory active tombstones outcomes w d
  by_cases hattempted : ∃ e, .ended d e ∈ s.log
  · obtain ⟨e, he⟩ := hattempted
    have hsome := hview.1 e he
    exact .inl ⟨e, he, (hother (.inr fun h => by rw [hsome] at h; cases h)).trans hsome⟩
  · have hnever : ∀ e, .ended d e ∉ s.log := fun e he => hattempted ⟨e, he⟩
    obtain ⟨kept, late, hchain, hlate⟩ := hleft r hr ((hview.2 hnever).trans hnone)
    refine .inr ⟨hnever, s.acc.deleted, kept, late, fun u => ?_, hchain, hlate⟩
    rw [hended.replayed, mem_deleted]
    exact ⟨fun h => h.resolve_left Std.ExtTreeSet.not_mem_empty, .inr⟩

/-- What is ready at the end was attempted. -/
theorem ended_of_ready (hr : candidates[d]? = some r)
    (hlate : .late d ∉ (runDeletions world candidates mandatory active tombstones outcomes w).log)
    (hsucceed : ∀ e, .ended d e ∈ (runDeletions world candidates mandatory active tombstones outcomes w).log → e = .deleted)
    (hready : r.cleanupPending = true ∨ ∀ u, Uses active tombstones u r.descriptor →
      DeletedIn (runDeletions world candidates mandatory active tombstones outcomes w).log u) :
    .ended d .deleted ∈ (runDeletions world candidates mandatory active tombstones outcomes w).log := by
  let s := (deletionTasks world candidates (usersOf active tombstones)).run w { outcomes }
  have hended : (deletionTasks world candidates (usersOf active tombstones)).Ended { outcomes } s := Tasks.run_ended _ _
  have hready : (deletionTasks world candidates (usersOf active tombstones)).ready s.acc d = true := by
    refine (Option.any_eq_true _ _).2 ⟨r, hr, deletionReady_iff.2 (hready.imp_right fun hall u hu => ?_)⟩
    rw [hended.replayed, mem_deleted]
    exact .inr (hall u hu)
  have hstarted : Tasks.Started s.log d := by
    by_contra hnot
    rw [hended.stable d (Std.ExtTreeMap.mem_keys.2 (mem_iff.2 ⟨r, hr⟩)) hnot] at hready
    cases hready
  obtain ⟨e, he⟩ := hended.joined d (hstarted.resolve_right hlate)
  rwa [hsucceed e he] at he

theorem runDeletions_complete (htext : ∀ (d : Descriptor) (r : Resource), candidates[d]? = some r → d.text = r.descriptor)
    (hacyclic : Acyclicity.Acyclic (Records active))
    (hlate : ∀ d, .late d ∉ (runDeletions world candidates mandatory active tombstones outcomes w).log)
    (hsucceed : ∀ d e, .ended d e ∈ (runDeletions world candidates mandatory active tombstones outcomes w).log → e = .deleted)
    (hr : candidates[d]? = some r)
    (hgone : ∀ u, Relation.TransGen (fun a b => Uses active tombstones b a) r.descriptor u → candidates.Named u) :
    .ended d .deleted ∈ (runDeletions world candidates mandatory active tombstones outcomes w).log := by
  let names : Set String := {k | candidates.Named k}
  have hfinite : names.Finite := by
    refine (finite_toSet (candidates.toList.map (·.2.descriptor))).subset ?_
    rintro k ⟨d, r, hr, rfl⟩
    exact mem_map.2 ⟨(d, r), Std.ExtTreeMap.mem_toList_iff_getElem?_eq_some.2 hr, rfl⟩
  have : IsStrictOrder String (Relation.TransGen (Records active)) := { irrefl := hacyclic, trans := fun _ _ _ => .trans }
  have hwf : names.WellFoundedOn (Relation.TransGen (Records active)) := hfinite.wellFoundedOn
  -- along the records there is a first user; what it uses is ready once it is deleted
  refine hwf.induction (x := r.descriptor) (P := fun k => ∀ (d : Descriptor) (r : Resource),
    candidates[d]? = some r → r.descriptor = k →
      (∀ u, Relation.TransGen (fun a b => Uses active tombstones b a) k u → candidates.Named u) →
      .ended d .deleted ∈ (runDeletions world candidates mandatory active tombstones outcomes w).log)
    ⟨d, r, hr, rfl⟩ ?_ d r hr rfl hgone
  rintro k - ih d r hr rfl hgone
  refine ended_of_ready hr (hlate d) (hsucceed d) (.inr fun u hu => ?_)
  obtain ⟨d', r', hr', rfl⟩ := hgone u (.single hu)
  have hrecords : Records active r'.descriptor r.descriptor := by
    rcases hu with ⟨user, huser, hdep, heq⟩ | ⟨t, -, -, -, heq⟩
    · exact ⟨user, huser, heq, hdep⟩
    · exact absurd ((htext d' r' hr').trans heq.symm) (detachedName_ne _ d')
  exact ⟨d', htext d' r' hr',
    ih r'.descriptor ⟨d', r', hr', rfl⟩ (.single hrecords) d' r' hr' rfl fun v hv => hgone v (.head hu hv)⟩

theorem foldl_leavePending (l : List Descriptor) (outcomes : BTreeMap Descriptor Outcome) :
    (∀ d, d ∈ outcomes ∨ d ∈ l → d ∈ l.foldl leavePending outcomes) ∧
      ∀ d ∈ outcomes, (l.foldl leavePending outcomes)[d]? = outcomes[d]? := by
  induction l generalizing outcomes with
  | nil => simp
  | cons d l ih =>
    have hstep : d ∈ leavePending outcomes d ∧ ∀ d' ∈ outcomes, d' ∈ leavePending outcomes d ∧
        (leavePending outcomes d)[d']? = outcomes[d']? := by
      unfold leavePending
      split
      · rename_i hd
        exact ⟨Std.ExtTreeMap.contains_iff_mem.1 hd, fun d' hd' => ⟨hd', rfl⟩⟩
      · rename_i hd
        rw [Std.ExtTreeMap.contains_iff_mem] at hd
        refine ⟨by simp, fun d' hd' => ⟨Std.ExtTreeMap.mem_insert.2 (.inr hd'), ?_⟩⟩
        rw [get_insert, if_neg fun (heq : d = d') => hd (heq ▸ hd')]
    obtain ⟨hmem, hsame⟩ := ih (leavePending outcomes d)
    rw [foldl_cons]
    refine ⟨fun d' hd' => hmem d' ?_, fun d' hd' => (hsame d' (hstep.2 d' hd').1).trans (hstep.2 d' hd').2⟩
    rcases hd' with hd' | hd'
    · exact .inl (hstep.2 d' hd').1
    · rcases mem_cons.1 hd' with rfl | hd'
      · exact .inl hstep.1
      · exact .inr hd'

theorem runDeletions_ordered (htext : ∀ (d : Descriptor) (r : Resource), candidates[d]? = some r → d.text = r.descriptor)
    (hnew : ∀ d ∈ candidates, outcomes[d]? = none) :
    DeletionsOrdered active tombstones candidates mandatory
      (runDeletions world candidates mandatory active tombstones outcomes w) := by
  refine ⟨fun pre d post hlog => ?_, fun d hd => ?_, fun d r reason hr hkept => ?_,
    fun hacyclic hlate hsucceed d r hr hgone => ?_⟩
  · obtain ⟨r, hr, hcleanup | hall⟩ := runDeletions_after world mandatory outcomes w hlog
    · exact ⟨r, hr, fun hnot => by rw [hcleanup] at hnot; cases hnot⟩
    · refine ⟨r, hr, fun _ => ⟨fun user huser hdep => hall _ (.inl ⟨user, huser, hdep, rfl⟩), fun t ht hreason hdep => ?_⟩⟩
      obtain ⟨d', hd', -⟩ := hall _ (.inr ⟨t, ht, hreason, hdep, rfl⟩)
      exact detachedName_ne _ d' hd'
  · obtain ⟨r, hr⟩ := mem_iff.1 hd
    rcases runDeletions_outcome (hnew d hd) hr with ⟨e, he, hout⟩ | ⟨hnever, _, _, _, -, -, hout⟩
    · refine ⟨_, hout, fun e' he' => ?_⟩
      rw [(runDeletions_lawful world candidates mandatory active tombstones outcomes w).ended_unique he he']
    · exact ⟨_, hout, fun e he => absurd he (hnever e)⟩
  · rcases runDeletions_outcome (hnew d (mem_iff.2 ⟨r, hr⟩)) hr with ⟨e, -, hout⟩ | ⟨-, deleted, kept, late, hdeleted,
      hchain, hout⟩
    · rw [hkept] at hout
      cases e <;> cases hout
    · rw [hkept, leftOutcome] at hout
      cases hk : kept[r.descriptor]? with
      | none => rw [hk] at hout; cases hout
      | some u =>
        obtain ⟨hnot, stays, hstays, hpath⟩ := hchain r.descriptor (mem_iff.2 ⟨u, hk⟩)
        refine ⟨hnot, stays, hstays, Relation.TransGen.mono (fun a b ⟨huses, hb⟩ =>
          ⟨huses, fun h => hb ((hdeleted b).2 h)⟩) _ _ hpath⟩
  · have hended := runDeletions_complete htext hacyclic hlate hsucceed hr hgone
    rcases runDeletions_outcome (hnew d (mem_iff.2 ⟨r, hr⟩)) hr with ⟨e, he, hout⟩ | ⟨hnever, -⟩
    · rw [hsucceed d e he] at hout
      exact hout
    · exact absurd hended (hnever _)

end

section
variable (world : DeletionWorld W) (graph : ResourceGraph) (teardown : Bool) (active : List Resource)
  (tombstones : List Tombstone)
  (outcomes : BTreeMap Descriptor Outcome) (w : W)

theorem deprovision_converged : deprovision world graph teardown (.ok active) (.ok tombstones) true outcomes w =
    if (deletionCandidates graph teardown active).1.isEmpty then { outcomes }
    else runDeletions world (deletionCandidates graph teardown active).1 (deletionCandidates graph teardown active).2 active
      tombstones outcomes w := rfl

theorem deprovision_not_converged (tombstones : Result (List Tombstone)) :
    deprovision world graph teardown (.ok active) tombstones false outcomes w =
      { outcomes := (deletionCandidates graph teardown active).1.keys.foldl leavePending outcomes } := by
  change (if (deletionCandidates graph teardown active).1.isEmpty then { outcomes } else _ : Deprovisioned) = _
  split
  · rename_i hempty
    rw [Std.ExtTreeMap.isEmpty_iff.1 hempty]
    rfl
  · rfl

end

theorem runDeletions_other {world} {candidates : Candidates} {mandatory outcomes} {w : W} (hd : d ∉ candidates) :
    (runDeletions world candidates mandatory active tombstones outcomes w).outcomes[d]? = outcomes[d]? := by
  let s := (deletionTasks world candidates (usersOf active tombstones)).run w { outcomes }
  have hended : (deletionTasks world candidates (usersOf active tombstones)).Ended { outcomes } s := Tasks.run_ended _ _
  have hnever : ∀ e, .ended d e ∉ s.log := fun e he => by
    obtain ⟨pre, post, -, hlog, -⟩ := hended.lawful.of_ended he
    exact hd (Std.ExtTreeMap.mem_keys.1 (hlog ▸ hended.lawful).of_spawned.1)
  have hview := (outcomes_view hended.lawful d).2 hnever
  rw [← hended.replayed] at hview
  have hnone : candidates[d]? = none := Std.ExtTreeMap.getElem?_eq_none hd
  exact ((runDeletions_left world mandatory active tombstones outcomes w d).2 (.inl hnone)).trans hview

theorem deprovision_other (graph : ResourceGraph) (teardown : Bool) (active : Result Inventory)
    (tombstones : Result (List Tombstone)) (converged : Bool) (outcomes : BTreeMap Descriptor Outcome) (w : W)
    (hd : d ∈ outcomes) (hgraph : d ∈ graph.nodes ∨ converged = false) :
    (deprovision world graph teardown (active.map (·.rows)) tombstones converged outcomes w).outcomes[d]? = outcomes[d]? := by
  cases active with
  | error e => rfl
  | ok active =>
    cases converged with
    | false =>
      change (deprovision world graph teardown (.ok active.rows) tombstones false outcomes w).outcomes[d]? = _
      rw [deprovision_not_converged]
      exact (foldl_leavePending _ outcomes).2 d hd
    | true =>
      have hnot : d ∉ (deletionCandidates graph teardown active.rows).1 := fun hmem => by
        obtain ⟨r, hr⟩ := mem_iff.1 hmem
        exact ((mem_candidates active).1 hr).2.1.absent (hgraph.resolve_right nofun)
      cases tombstones with
      | error e =>
        change (if _ then ({ outcomes } : Deprovisioned) else { outcomes, listed := _ }).outcomes[d]? = _
        split <;> rfl
      | ok tombstones =>
        change (deprovision world graph teardown (.ok active.rows) (.ok tombstones) true outcomes w).outcomes[d]? = _
        rw [deprovision_converged]
        split
        · rfl
        · exact runDeletions_other hnot

/-- A deployment deletes in reverse dependency order, whatever its tasks do and in whatever order they end; and if it
did not converge it starts nothing. -/
theorem deletions_ordered (world : DeletionWorld W) (graph : ResourceGraph) (teardown : Bool) (active : Inventory)
    (tombstones : List Tombstone) (w : W) :
    DeletionsOrdered active.rows tombstones (deletionCandidates graph teardown active.rows).1
        (deletionCandidates graph teardown active.rows).2
        (deprovision world graph teardown (.ok active.rows) (.ok tombstones) true (graph.nodes.map fun _ _ => .provisioned) w) ∧
      ∀ outcomes, (deprovision world graph teardown (.ok active.rows) (.ok tombstones) false outcomes w).log = [] ∧
        ∀ d ∈ (deletionCandidates graph teardown active.rows).1,
          d ∈ (deprovision world graph teardown (.ok active.rows) (.ok tombstones) false outcomes w).outcomes := by
  constructor
  · rw [deprovision_converged]
    split
    · rename_i hempty
      have hnone : ∀ (d : Descriptor) (r : Resource), (deletionCandidates graph teardown active.rows).1[d]? ≠ some r := by
        rw [Std.ExtTreeMap.isEmpty_iff.1 hempty]
        simp
      refine ⟨fun pre d post hlog => by simp at hlog, fun d hd => ?_, fun d r _ hr => absurd hr (hnone d r),
        fun _ _ _ d r hr => absurd hr (hnone d r)⟩
      obtain ⟨r, hr⟩ := BTreeMap.mem_iff.1 hd
      exact absurd hr (hnone d r)
    · refine runDeletions_ordered (fun d r hr => ((mem_candidates active).1 hr).2.1.text) fun d hd => ?_
      obtain ⟨r, hr⟩ := BTreeMap.mem_iff.1 hd
      rw [BTreeMap.get_eq_none, Std.ExtTreeMap.contains_map, ← Bool.not_eq_true, Std.ExtTreeMap.contains_iff_mem]
      exact ((mem_candidates active).1 hr).2.1.absent
  · intro outcomes
    rw [deprovision_not_converged]
    exact ⟨rfl, fun d hd => (foldl_leavePending _ outcomes).1 d (.inr (Std.ExtTreeMap.mem_keys.2 hd))⟩

end Openporch
