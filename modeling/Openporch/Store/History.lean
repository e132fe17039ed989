import Openporch.Lib.Transition
import Openporch.Planner.Attempts
import Openporch.Store.Evolution

/-!
# Histories of the store

A `System` is the database together with what its users did: the identifiers drawn, the operations begun, and which of
them may call, or called, their drivers. An `Event` is a transaction, committed or not, or a call of a driver. No event
draws an identifier that was drawn before; a put's driver is called only after its inputs were recorded, a deletion's
only after it began on a resource without a pending cleanup. Any other event changes nothing.
-/

namespace Openporch
open List Fallible List.Subset
open Transition (Taken)
open Journal (Status Phase Rights Moves Agree Within)

/-- Whatever administration makes of the tables that it changes alone. -/
structure Configuration where
  principals : List (String × Roles)
  envTypes : List EnvType
  apps : List App
  sets : List (String × String)
  deltas : List Delta

inductive Transaction where
  | configure (c : Configuration)
  | createApp (org id owner : String) (actor : Option String)
  | createEnv (org app id envType : String) (actor : Option String)
  | putPlan (now : Nat) (id org app env : String) (actor : Option String) (generation : Nat)
  | usePermit (now : Nat) (u : PermitUse)
  | accept (now : Nat) (id : String) (req : DeploymentRequest)
  | acceptAppDeletion (now : Nat) (ids : Nat → String) (req : AppDeletionRequest)
  | finish (org app env id : String) (error : Option String)
  | checkpoint (id : String) (result : CheckpointResult)
  | resolve (id : String) (resolution : Resolution) (actor : Option String)
  | keepRecoveryCookie (id : String) (observedWith : Option Sealed) (cookie : Sealed)
  | detach (now : Nat) (org app env : String) (d : Db.Detach) (actor : Option String)
  | scheduleDeletion (org app env descriptor : String) (actor : Option String)
  | recoverInterrupted

namespace Db
variable (db : Db)

def configure (c : Configuration) : Db :=
  { db with principals := c.principals, envTypes := c.envTypes, apps := c.apps, sets := c.sets, deltas := c.deltas }

end Db

namespace Transaction

def run (db : Db) : Transaction → Result Db
  | configure c => .ok (db.configure c)
  | createApp org id owner actor => db.createApp org id owner actor
  | createEnv org app id envType actor => db.createEnv org app id envType actor
  | putPlan now id org app env actor generation => db.putPlan now id org app env actor generation
  | usePermit now u => db.usePermit now u
  | accept now id req => (db.acceptDeployment now id req).map (·.2)
  | acceptAppDeletion now ids req => (db.acceptAppDeletion now ids req).map (·.2)
  | finish org app env id error => db.finishDeployment org app env id error
  | checkpoint id result => db.checkpointOperation id result
  | resolve id resolution actor => db.resolveOperation id resolution actor
  | keepRecoveryCookie id observedWith cookie => .ok (db.keepRecoveryCookie id observedWith cookie)
  | detach now org app env d actor => db.detachResource now org app env d actor
  | scheduleDeletion org app env descriptor actor => db.scheduleDeletion org app env descriptor actor
  | recoverInterrupted => db.recoverInterrupted.map (·.2)

def ownFailure : Transaction → String → Prop
  | checkpoint id (.failed _), i | checkpoint id (.cleanupPending _), i | resolve id (.repeatable _) _, i
  | resolve id (.operator _) _, i => i = id
  | _, _ => False

end Transaction

inductive Begin where
  | put (n : NodeRun)
  | delete (n : DeleteRun) (r : Recorded)

def Begin.start : Begin → OperationStart
  | put n => n.start
  | delete n r => n.start r

inductive Event where
  | transact (t : Transaction)
  | begin (now : Nat) (id : String) (guresid : Guresid) (b : Begin)
  | recordInputs (id : String) (n : NodeRun) (job : ProvisionJob)
  | call (id : String)
  | markRestored (now : Nat) (ids : Nat → String)
  | issuePermits (now : Nat) (ids : Nat → String) (org app env plan : String) (permits : List NewPermit)
      (actor : Option String)

/-- See `Transaction.ownFailure`. -/
def Event.ownFailure : Event → String → Prop
  | transact t => t.ownFailure
  | _ => fun _ => False

structure System where
  db : Db
  ids : List String
  guresids : List String
  /-- What `begin_operation` returned. -/
  begun : List OperationStarted
  /-- The operations whose runs may call the driver. -/
  ready : List String
  called : List String
  permitIds : List String

namespace System

def empty (org : String) : System where
  db := { org, principals := [], envTypes := [], apps := [], envs := [], sets := [], deltas := [], plans := []
          permits := [], deployments := [], runs := [], resources := [], operations := [], tombstones := [] }
  ids := []
  guresids := []
  begun := []
  ready := []
  called := []
  permitIds := []

variable (s : System)

def commit : Result Db → System
  | .ok db => { s with db }
  | .error _ => s

def deletes (start : OperationStart) : Bool :=
  start.kind = .delete &&
    (s.db.resource? start.app start.env start.descriptor.text).any fun r => !r.cleanupPending

def begin (now : Nat) (id : String) (guresid : Guresid) (start : OperationStart) : System :=
  let r := s.db.beginOperation now id guresid start
  match r.1 with
  | .error _ => { s with db := r.2, ids := id :: s.ids, guresids := guresid.text :: s.guresids }
  | .ok started =>
    { s with
      db := r.2
      ids := id :: s.ids
      guresids := guresid.text :: s.guresids
      begun := started :: s.begun
      ready := if s.deletes start then id :: s.ready else s.ready }

def recordInputs (id : String) (recovery : Json) : System :=
  match s.db.recordOperationInputs id recovery with
  | .error _ => s
  | .ok db =>
    let isPut := (s.db.operation? id).any (·.kind = .put)
    { s with db, ready := if isPut then id :: s.ready else s.ready }

def markRestored (now : Nat) (ids : Nat → String) : System :=
  match s.db.markRestored now ids with
  | .error _ => s
  | .ok (_, db) => { s with db, ids := (List.range s.db.resources.length).map ids ++ s.ids }

def issuePermits (now : Nat) (ids : Nat → String) (org app env plan : String) (permits : List NewPermit)
    (actor : Option String) : System :=
  match s.db.issuePermits now ids org app env plan permits actor with
  | .error _ => s
  | .ok db => { s with db, permitIds := (List.range permits.length).map (fun i => "prm-" ++ ids i) ++ s.permitIds }

def step : Event → System
  | .transact t => s.commit (t.run s.db)
  | .begin now id guresid b =>
    if s.ids.contains id || s.guresids.contains guresid.text then s else s.begin now id guresid b.start
  | .recordInputs id n job => s.recordInputs id (n.recorded job)
  | .call id => if s.ready.contains id then { s with called := id :: s.called } else s
  | .markRestored now ids =>
    if (List.range s.db.resources.length).any fun i => s.ids.contains (ids i) then s else s.markRestored now ids
  | .issuePermits now ids org app env plan permits actor =>
    if (List.range permits.length).any fun i => s.permitIds.contains ("prm-" ++ ids i) then s
    else s.issuePermits now ids org app env plan permits actor

def after (org : String) (events : List Event) : System := Transition.after step (empty org) events

def history (org : String) (events : List Event) : List (Taken System Event) := Transition.taken step (empty org) events

end System

theorem Transaction.evolves {db db' : Db} {rights} (t : Transaction) (h : db.Sound) (htx : t.run db = .ok db')
    (hown : ∀ i, t.ownFailure i → rights.own i) : Db.Evolves rights db db' := by
  cases t with
  | configure c =>
    cases htx
    exact h.same rfl rfl
  | createApp org id owner actor => exact (Db.createApp_same htx).evolves h
  | createEnv org app id envType actor => exact (Db.createEnv_same htx).evolves h
  | putPlan now id org app env actor generation => exact (Db.putPlan_same htx).evolves h
  | usePermit now u => exact (Db.usePermit_same htx).evolves h
  | accept now id req =>
    obtain ⟨q, hq, rfl⟩ := map_eq_ok.1 htx
    exact (Db.acceptDeployment_same hq).evolves h
  | acceptAppDeletion now ids req =>
    obtain ⟨q, hq, rfl⟩ := map_eq_ok.1 htx
    exact (Db.acceptAppDeletion_same hq).evolves h
  | finish org app env id error =>
    obtain ⟨_, _, htx⟩ := bind_eq_ok.1 htx
    exact Db.finishInTx_evolves h htx
  | checkpoint id result =>
    refine Db.checkpointInTx_evolves h htx fun hfailed => hown id ?_
    cases result with
    | failed e => rfl
    | cleanupPending e => rfl
    | provisioned p => cases hfailed
    | deleted => cases hfailed
    | unknown e cookie => cases hfailed
  | resolve id resolution actor =>
    refine Db.resolveOperation_evolves h htx fun hrepeats => hown id ?_
    cases resolution with
    | repeatable reason => rfl
    | operator reason => rfl
    | observed result => cases hrepeats
    | confirmed => cases hrepeats
    | recoveryRequired reason => cases hrepeats
  | keepRecoveryCookie id observedWith cookie =>
    cases htx
    exact Db.keepRecoveryCookie_evolves h
  | detach now org app env d actor => exact Db.detachResource_evolves h htx
  | scheduleDeletion org app env descriptor actor => exact Db.scheduleDeletion_evolves h htx
  | recoverInterrupted =>
    obtain ⟨q, hq, rfl⟩ := map_eq_ok.1 htx
    exact Db.recoverInterrupted_evolves h hq

theorem Begin.start_plain (b : Begin) : isRestored b.start.recovery = false := by
  cases b <;> rfl

theorem NodeRun.recorded_plain (n : NodeRun) (job : ProvisionJob) :
    hasInputs (n.recorded job) = true ∧ isRestored (n.recorded job) = false :=
  ⟨rfl, rfl⟩

namespace System
variable {s : System}

def rights (s : System) (e : Event) : Rights String String where
  own := e.ownFailure
  fresh i := i ∈ (s.step e).ids ∧ i ∉ s.ids
  unused g := g ∈ (s.step e).guresids ∧ g ∉ s.guresids

structure Sound (s : System) : Prop where
  db : s.db.Sound
  within : s.db.journal.Within (· ∈ s.ids) (· ∈ s.guresids)

theorem begin_ids (s : System) (now : Nat) (id : String) (guresid : Guresid) (start : OperationStart) :
    (s.begin now id guresid start).ids = id :: s.ids ∧
      (s.begin now id guresid start).guresids = guresid.text :: s.guresids ∧
      (s.begin now id guresid start).db = (s.db.beginOperation now id guresid start).2 := by
  unfold begin
  dsimp only
  split <;> exact ⟨rfl, rfl, rfl⟩

theorem step_begin {now : Nat} {id : String} {guresid : Guresid} {b : Begin} (hid : id ∉ s.ids)
    (hg : guresid.text ∉ s.guresids) : s.step (.begin now id guresid b) = s.begin now id guresid b.start := by
  change (if _ then _ else _) = _
  rw [if_neg (by simp [hid, hg])]

theorem step_ids (s : System) (e : Event) : s.ids ⊆ (s.step e).ids ∧ s.guresids ⊆ (s.step e).guresids := by
  cases e with
  | transact t =>
    change s.ids ⊆ (s.commit (t.run s.db)).ids ∧ s.guresids ⊆ (s.commit (t.run s.db)).guresids
    cases t.run s.db <;> exact ⟨refl _, refl _⟩
  | begin now id guresid b =>
    change s.ids ⊆ System.ids (if _ then s else _) ∧ s.guresids ⊆ System.guresids (if _ then s else _)
    obtain ⟨hids, hguresids, _⟩ := s.begin_ids now id guresid b.start
    split
    · exact ⟨refl _, refl _⟩
    · rw [hids, hguresids]
      exact ⟨subset_cons_self _ _, subset_cons_self _ _⟩
  | recordInputs id n job =>
    change s.ids ⊆ (s.recordInputs id (n.recorded job)).ids ∧ s.guresids ⊆ (s.recordInputs id (n.recorded job)).guresids
    unfold recordInputs
    split <;> exact ⟨refl _, refl _⟩
  | call id =>
    change s.ids ⊆ System.ids (if _ then _ else s) ∧ s.guresids ⊆ System.guresids (if _ then _ else s)
    split <;> exact ⟨refl _, refl _⟩
  | markRestored now ids =>
    change s.ids ⊆ System.ids (if _ then s else s.markRestored now ids) ∧
      s.guresids ⊆ System.guresids (if _ then s else s.markRestored now ids)
    unfold markRestored
    split
    · exact ⟨refl _, refl _⟩
    · split
      · exact ⟨refl _, refl _⟩
      · exact ⟨subset_append_right _ _, refl _⟩
  | issuePermits now ids org app env plan permits actor =>
    change s.ids ⊆ System.ids (if _ then s else s.issuePermits now ids org app env plan permits actor) ∧
      s.guresids ⊆ System.guresids (if _ then s else s.issuePermits now ids org app env plan permits actor)
    unfold issuePermits
    split
    · exact ⟨refl _, refl _⟩
    · split <;> exact ⟨refl _, refl _⟩

theorem step_evolves (h : s.Sound) (e : Event) : Db.Evolves (s.rights e) s.db (s.step e).db := by
  cases e with
  | transact t =>
    change Db.Evolves _ s.db (s.commit (t.run s.db)).db
    cases htx : t.run s.db with
    | error e => exact .refl h.db
    | ok db' => exact t.evolves h.db htx fun i hi => hi
  | begin now id guresid b =>
    have hrights : ∀ i, (s.rights (.begin now id guresid b)).fresh i ↔
        i ∈ (s.step (.begin now id guresid b)).ids ∧ i ∉ s.ids := fun _ => Iff.rfl
    have hunused : ∀ g, (s.rights (.begin now id guresid b)).unused g ↔
        g ∈ (s.step (.begin now id guresid b)).guresids ∧ g ∉ s.guresids := fun _ => Iff.rfl
    generalize s.rights (.begin now id guresid b) = rights at hrights hunused
    unfold step at hrights hunused ⊢
    dsimp only at hrights hunused ⊢
    split at hrights
    · rename_i hdrawn
      rw [if_pos hdrawn]
      exact .refl h.db
    · rename_i hdrawn
      obtain ⟨hids, hguresids, hdb⟩ := s.begin_ids now id guresid b.start
      rw [if_neg hdrawn] at hunused ⊢
      simp only [Bool.or_eq_true, contains_iff_mem, not_or] at hdrawn
      rw [hdb]
      refine (Db.beginOperation_evolves h.db b.start_plain ?_ ?_ ?_).1
      · exact (hrights id).2 ⟨hids ▸ mem_cons_self, hdrawn.1⟩
      · exact (hunused guresid.text).2 ⟨hguresids ▸ mem_cons_self, hdrawn.2⟩
      · intro o ho hg
        exact hdrawn.2 (hg ▸ (h.within.entries (Db.entry_eq (h.db.toRows.operation? ho))).2)
  | recordInputs id n job =>
    have hplain := n.recorded_plain job
    change Db.Evolves _ s.db (s.recordInputs id (n.recorded job)).db
    unfold recordInputs
    split
    · exact .refl h.db
    · rename_i db' htx
      exact Db.recordOperationInputs_evolves h.db htx hplain.1 hplain.2
  | call id =>
    change Db.Evolves _ s.db (if s.ready.contains id then { s with called := id :: s.called } else s).db
    split <;> exact .refl h.db
  | markRestored now ids =>
    have hrights : ∀ i, (s.rights (.markRestored now ids)).fresh i ↔
        i ∈ (s.step (.markRestored now ids)).ids ∧ i ∉ s.ids := fun _ => Iff.rfl
    generalize s.rights (.markRestored now ids) = rights at hrights
    unfold step markRestored at hrights ⊢
    dsimp only at hrights ⊢
    split at hrights
    · rename_i hdrawn
      rw [if_pos hdrawn]
      exact .refl h.db
    · rename_i hdrawn
      rw [if_neg hdrawn]
      cases htx : s.db.markRestored now ids with
      | error e => exact .refl h.db
      | ok q =>
        simp only [htx] at hrights
        refine Db.markRestored_evolves h.db (fun i hi => (hrights (ids i)).2 ⟨?_, ?_⟩) htx
        · exact mem_append_left _ (mem_map_of_mem (mem_range.2 hi))
        · intro hmem
          exact hdrawn (any_eq_true.2 ⟨i, mem_range.2 hi, by simpa using hmem⟩)
  | issuePermits now ids org app env plan permits actor =>
    change Db.Evolves _ s.db (System.db (if _ then s else s.issuePermits now ids org app env plan permits actor))
    unfold issuePermits
    split
    · exact .refl h.db
    · split
      · exact .refl h.db
      · rename_i db' htx
        exact (Db.issuePermits_same htx).evolves h.db

theorem Sound.step (h : s.Sound) (e : Event) : (s.step e).Sound := by
  have hevolves := step_evolves h e
  obtain ⟨hids, hguresids⟩ := s.step_ids e
  exact ⟨hevolves.sound, (h.within.mono (fun i hi => hids hi) fun g hg => hguresids hg).moves h.db.agree hevolves.moves
    (fun i hi => hi.1) fun g hg => hg.1⟩

theorem empty_sound (org : String) : (empty org).Sound := by
  have hentry : ∀ i, (empty org).db.journal.entry i = none := fun _ => rfl
  have hstatus : ∀ g, (empty org).db.journal.status g = none := fun _ => rfl
  refine ⟨⟨⟨nodup_nil, nodup_nil, nodup_nil, ?_, ?_⟩, ⟨?_, ?_, ?_⟩⟩, ⟨?_, ?_⟩⟩
  iterate 2 · exact fun o ho => absurd ho not_mem_nil
  all_goals simp [hentry, hstatus]

theorem after_sound (org : String) (events : List Event) : (after org events).Sound :=
  Transition.invariant (empty_sound org) (fun _ e h => h.step e) events

/-- An operation that ended keeps its outcome whatever happens later, until its record is removed. -/
theorem outcomes_final (org : String) (earlier later : List Event) (id : String) :
    ((after org earlier).db.operation? id).all fun o => o.isOpen ||
      ((after org (later ++ earlier)).db.operation? id).all fun o' => o'.guresid = o.guresid ∧ o'.state = o.state := by
  cases ho : (after org earlier).db.operation? id with
  | none => rfl
  | some o =>
    cases hopen : o.isOpen with
    | true => simp [hopen]
    | false =>
      have hended := ((after org earlier).db.phase_isOpen o).trans hopen
      have hentry := Db.entry_eq ho
      -- By induction over the later events: nothing turns the operation, and its identifier is not drawn again.
      have hrun : id ∈ (after org (later ++ earlier)).ids ∧
          ((after org (later ++ earlier)).db.journal.entry id = some (o.guresid, (after org earlier).db.phase o) ∨
            (after org (later ++ earlier)).db.journal.entry id = none) := by
        induction later with
        | nil => exact ⟨((after_sound org earlier).within.entries hentry).1, .inl hentry⟩
        | cons e later ih =>
          exact ⟨(step_ids _ e).1 ih.1, (step_evolves (after_sound org _) e).moves.ended (fun h => h.2 ih.1) hended ih.2⟩
      cases ho' : (after org (later ++ earlier)).db.operation? id with
      | none => simp
      | some o' =>
        rw [Db.entry_eq ho'] at hrun
        rcases Phase.not_isOpen_iff.1 hended with hp | hp <;>
          simp_all [Db.phase_succeeded, Db.phase_failed]

end System
end Openporch
