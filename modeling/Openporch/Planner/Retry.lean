import Openporch.Accepted
import Openporch.Planner.Attempts
import Openporch.Store.Evolution

/-!
# Retries and the identity of operations

Every attempt records a new operation, and the driver calls of an attempt carry that operation's ID with a fingerprint
that all attempts share. So two calls carry the same operation exactly when one attempt made them both (`Renamed`). What
they all share is the GUResID of the resource's record, which is there from the first attempt on (`OneResource`).
-/

namespace Openporch
open Loops Hoare List Fallible OperationStart

variable {W α β : Type}

def OperationStart.key (start : OperationStart) : String × String × String :=
  (start.app, start.env, start.descriptor.text)

namespace Db
variable {db db' : Db} {key : String × String × String}

/-- The GUResID of the active resource. -/
def owner (db : Db) (key : String × String × String) : Option String :=
  (db.resource? key.1 key.2.1 key.2.2).map (·.guresid)

theorem owner_congr (h : db'.resources = db.resources) : db'.owner key = db.owner key := by
  rw [owner, resource?, h]
  rfl

theorem owner_setResource (g : String) {u} (hu : KeepsResource u) :
    (db.setResource g u).owner key = db.owner key := by
  have hfind : (db.setResource g u).resource? key.1 key.2.1 key.2.2 =
      (db.resource? key.1 key.2.1 key.2.2).map fun r => if r.guresid = g then u r else r := by
    refine (Table.find?_update_of fun r _ => ?_).trans (by simp [resource?])
    have hkey := (hu r).2
    simp only [Resource.key, Prod.mk.injEq] at hkey
    rw [hkey.1, hkey.2.1, hkey.2.2]
  rw [owner, hfind, Option.map_map]
  refine congrArg (Option.map · _) (funext fun r => ?_)
  dsimp only [Function.comp_apply]
  split
  · exact (hu r).1
  · rfl

theorem closeAbandoned_owner {r : Resource} {res : Result Unit} (h : db.closeAbandoned r = .ok (res, db')) :
    db'.owner key = db.owner key := by
  unfold closeAbandoned at h
  split at h
  · cases h
    rfl
  · simp only [bind_eq_ok] at h
    obtain ⟨_, _, _, _, h⟩ := h
    cases h
    exact owner_setResource _ fun _ => ⟨rfl, rfl⟩

theorem checkpointOperation_owner {id : String} {result} (hresult : result ≠ .deleted)
    (h : db.checkpointOperation id result = .ok db') : db'.owner key = db.owner key := by
  simp only [checkpointOperation, checkpointInTx, bind_eq_ok] at h
  obtain ⟨op, _, _, _, _, _, r, _, h⟩ := h
  cases h
  cases result with
  | deleted => exact absurd rfl hresult
  | provisioned p =>
    exact (owner_congr (keepPin_same op r.descriptor p.pin).resources).trans (owner_setResource _ fun _ => ⟨rfl, rfl⟩)
  | failed | cleanupPending | unknown => exact owner_setResource _ fun _ => ⟨rfl, rfl⟩

theorem recordStart_owner {now : Nat} {id : String} {g : Guresid} {start : OperationStart} {q}
    (h : db.recordStart now id g start = .ok q) :
    q.1.operationId = id ∧ q.1.guresid = g ∧ q.2.owner key = db.owner key := by
  simp only [recordStart, insertOperation, bind_eq_ok] at h
  obtain ⟨db2, ⟨_, _, hinsert⟩, h⟩ := h
  cases hinsert
  cases h
  refine ⟨rfl, rfl, owner_congr ?_⟩
  unfold startRun
  dsimp only
  split <;> rfl

/-- `begin_operation` gives the new operation the GUResID of the record, which is there from then on. -/
theorem beginOperation_owner (db : Db) (now : Nat) (id : String) (g : Guresid) (start : OperationStart) :
    match db.beginOperation now id g start with
    | (.ok started, db') => started.operationId = id ∧
      db'.owner start.key = some started.guresid.text ∧
      ∀ g', db.owner start.key = some g' → g' = started.guresid.text
    | (.error _, db') => db'.owner start.key =
      db.owner start.key := by
  unfold beginOperation
  cases htx : db.beginTx now id g start with
  | error e => rfl
  | ok r =>
    simp only [beginTx, bind_eq_ok] at htx
    obtain ⟨_, _, _, _, ⟨claimed, db1⟩, hclaim, htx⟩ := htx
    cases claimed with
    | error e =>
      cases htx
      obtain ⟨_, _, _, hclose⟩ := claimResource_error hclaim
      exact closeAbandoned_owner hclose
    | ok guresid =>
      simp only [bind_eq_ok] at htx
      obtain ⟨⟨started, db2⟩, hrecord, htx⟩ := htx
      cases htx
      obtain ⟨hid, rfl, howner⟩ := recordStart_owner hrecord
      refine ⟨hid, howner.trans ?_, fun g' hg' => ?_⟩
      all_goals rcases claimResource_ok hclaim with ⟨r, db0, hr, _, hclose, hg, rfl⟩ | ⟨hr, _, rfl, _, rfl⟩
      · have hkept : (db0.setResource r.guresid (startColumns start)).owner start.key = db0.owner start.key :=
          owner_setResource _ fun _ => ⟨rfl, rfl⟩
        rw [hkept, closeAbandoned_owner hclose, owner, key, hr, hg]
        rfl
      · rw [owner, resource?, find?_append, ← resource?, key, hr]
        simp [newResource]
      · rw [owner, key, hr] at hg'
        exact (Option.some.inj hg').symm.trans hg.symm
      · rw [owner, key, hr] at hg'
        cases hg'

end Db

/-- The other tasks leave the resource's record alone, as they do while a deployment runs in its environment. -/
def Planner.KeepsOwner (p : Planner W) (key : String × String × String) : Prop :=
  ∀ w db g, Db.owner db key = some g → (p.others w db).1.owner key = some g

section Frame
variable (p : Planner W) (key : String × String × String)

/-- Nothing was sent or drawn and, if `K`, the resource's record is still there. -/
structure Still (K : Prop) (s s' : PlannerRun W) : Prop where
  drawn : s'.drawn = s.drawn
  sent : s'.sent = s.sent
  owner : K → ∀ g, s.db.owner key = some g → s'.db.owner key = some g

def planState : EStateM.Result Outcome (PlannerRun W) α → PlannerRun W
  | .ok _ s | .error _ s => s

def Quiet (K : Prop) (x : PlanM W α) : Prop := ∀ s, Still key K s (planState (x s))

variable {key} {K : Prop}

theorem Quiet.bind {x : PlanM W α} {f : α → PlanM W β} (hx : Quiet key K x) (hf : ∀ a, Quiet key K (f a)) :
    Quiet key K (x >>= f) := by
  intro s
  have h := hx s
  cases hr : x s with
  | error e s' => rw [bind_error hr]; rw [hr] at h; exact h
  | ok a s' =>
    rw [bind_ok hr]
    rw [hr] at h
    have h' := hf a s'
    exact ⟨h'.drawn.trans h.drawn, h'.sent.trans h.sent, fun hK g hg => h'.owner hK g (h.owner hK g hg)⟩

theorem quiet_pure (a : α) : Quiet key K (pure a : PlanM W α) := fun _ => ⟨rfl, rfl, fun _ _ h => h⟩

theorem quiet_throw (e : Outcome) : Quiet key K (throw e : PlanM W α) := fun _ => ⟨rfl, rfl, fun _ _ h => h⟩

theorem acquireSlot_quiet (deadline : Nat) : Quiet key K (acquireSlot p deadline) := by
  intro s
  unfold acquireSlot
  rcases (p.acquire s.world).within (deadline - s.now) with ⟨_ | _ | _, t, world⟩
  · exact ⟨rfl, rfl, fun _ _ h => h⟩
  · exact ⟨rfl, rfl, fun _ _ h => h⟩
  · dsimp only
    by_cases h : deadline ≤ s.now + t
    · rw [if_pos h]; exact ⟨rfl, rfl, fun _ _ h => h⟩
    · rw [if_neg h]; exact ⟨rfl, rfl, fun _ _ h => h⟩

variable (hK : K → p.KeepsOwner key)

include hK

theorem transact_quiet {tx : Nat → Db → Result α × Db}
    (htx : K → ∀ now db, (tx now db).2.owner key = db.owner key) : Quiet key K (transact p tx) := by
  intro s
  unfold transact
  dsimp only
  cases (p.fault (p.others s.world s.db).2.2).1 with
  | some e => exact ⟨rfl, rfl, fun h g hg => hK h _ _ g hg⟩
  | none => exact ⟨rfl, rfl, fun h g hg => (htx h _ _).trans (hK h _ _ g hg)⟩

theorem committed_quiet {tx : Db → Result Db}
    (htx : K → ∀ db db', tx db = .ok db' → db'.owner key = db.owner key) :
    Quiet key K (transact p fun _ => committed tx) := by
  refine transact_quiet p hK fun h now db => ?_
  unfold committed
  cases hdb : tx db with
  | ok db' => exact htx h db db' hdb
  | error e => rfl

theorem checkpoint_quiet (id : String) {result : CheckpointResult} (hresult : K → result ≠ .deleted) :
    Quiet key K (checkpoint p id result) := by
  refine (committed_quiet p hK fun h _ _ => Db.checkpointOperation_owner (hresult h)).bind fun r => ?_
  cases r <;> exact quiet_pure _

omit hK

theorem waitForRetry_quiet (attempt deadline : Nat) (error : String) (retryAfter : Option Nat) :
    Quiet key K (waitForRetry p attempt deadline error retryAfter) := by
  unfold waitForRetry
  by_cases h : p.limits.attempts ≤ attempt
  · rw [if_pos h]; exact quiet_throw _
  · rw [if_neg h]
    refine Quiet.bind ?_ fun delay s => ?_
    · cases retryAfter with
      | none => exact fun _ => ⟨rfl, rfl, fun _ _ h => h⟩
      | some t => exact quiet_pure t
    · unfold sleepUntilRetry
      by_cases hd : deadline ≤ s.now + delay
      · rw [if_pos hd]; exact ⟨rfl, rfl, fun _ _ h => h⟩
      · rw [if_neg hd]; exact ⟨rfl, rfl, fun _ _ h => h⟩

end Frame

section Attempt
variable (p : Planner W) (key : String × String × String) {m k a : Nat} {fp : String} {held : Option Guresid}

/-- The calls of attempt `i + 1` carry the identifier drawn `i`-th after `m`. -/
def Numbered (m : Nat) (fp : String) (sent : List (Nat × DriverCall)) : Prop :=
  ∀ q ∈ sent, ∃ i, q.1 = i + 1 ∧ q.2.request.operation = { id := p.ids (m + i), fingerprint := fp }

/-- The calls carry one GUResID. -/
def OneResource (sent : List (Nat × DriverCall)) : Prop :=
  ∀ q ∈ sent, ∀ q' ∈ sent, q.2.request.guresid = q'.2.request.guresid

/-- What is left of the calls at the end. -/
def Ended (m : Nat) (fp : String) (s : PlannerRun W) : Prop :=
  Numbered p m fp s.sent ∧ (p.KeepsOwner key → OneResource s.sent)

/-- The state around a step of a loop that has drawn `k` identifiers: the calls carry the GUResID of the record, and so
does the operation that was begun. -/
def Drawn (m : Nat) (fp : String) (k : Nat) (held : Option Guresid) (s : PlannerRun W) : Prop :=
  s.drawn = k ∧ Numbered p m fp s.sent ∧ (p.KeepsOwner key →
    (∀ q ∈ s.sent, s.db.owner key = some q.2.request.guresid.text) ∧
      ∀ g ∈ held, s.db.owner key = some g.text)

def Steady (m : Nat) (fp : String) (k : Nat) (held : Option Guresid) (x : PlanM W α) : Prop :=
  Triple (Drawn p key m fp k held) x (fun _ => Drawn p key m fp k held) (fun _ => Ended p key m fp)

variable {p key} {s : PlannerRun W} {x : PlanM W α}

theorem Drawn.ended (h : Drawn p key m fp k held s) : Ended p key m fp s := by
  refine ⟨h.2.1, fun hkeeps q hq q' hq' => ?_⟩
  have howner := (h.2.2 hkeeps).1
  have htext := Option.some.inj ((howner q hq).symm.trans (howner q' hq'))
  generalize q.2.request.guresid = g at htext ⊢
  generalize q'.2.request.guresid = g' at htext ⊢
  cases g
  cases g'
  cases htext
  rfl

theorem Drawn.release (h : Drawn p key m fp k held s) : Drawn p key m fp k none s :=
  ⟨h.1, h.2.1, fun hkeeps => ⟨(h.2.2 hkeeps).1, fun _ hg => by cases hg⟩⟩

theorem Drawn.still {s' : PlannerRun W} (hs : Drawn p key m fp k held s)
    (h : Still key (p.KeepsOwner key) s s') : Drawn p key m fp k held s' := by
  refine ⟨h.drawn.trans hs.1, h.sent ▸ hs.2.1, fun hK => ⟨fun q hq => ?_, fun g hg => ?_⟩⟩
  · exact h.owner hK _ ((hs.2.2 hK).1 q (h.sent ▸ hq))
  · exact h.owner hK _ ((hs.2.2 hK).2 g hg)

theorem Quiet.steady (h : Quiet key (p.KeepsOwner key) x) :
    Steady p key m fp k held x := by
  intro s hs
  have hstill := h s
  cases hr : x s <;> rw [hr] at hstill
  · exact hs.still hstill
  · exact (hs.still hstill).ended

/-- The end of a run, which needs no record any more. -/
theorem Quiet.ends (h : Quiet key False x) :
    Triple (Drawn p key m fp k held) x (fun _ => Ended p key m fp) (fun _ => Ended p key m fp) := by
  intro s hs
  have hended := hs.ended
  have hsent := (h s).sent
  unfold Ended at hended ⊢
  cases hr : x s <;> rw [hr] at hsent <;> rw [← hsent] at hended <;> exact hended

theorem beginOperation_spec (start : OperationStart) :
    Triple (Drawn p start.key m fp k none) (beginOperation p start)
    (fun r s => (∀ started, r = .ok started → started.operationId = p.ids k) ∧
      Drawn p start.key m fp (k + 1) (r.toOption.map (·.guresid)) s)
    (fun _ => Ended p start.key m fp) := by
  rintro s ⟨rfl, hs, howned⟩
  unfold beginOperation transact
  dsimp only
  cases (p.fault (p.others s.world s.db).2.2).1 with
  | some e =>
    exact ⟨nofun, rfl, hs, fun hK => ⟨fun q hq => hK _ _ _ ((howned hK).1 q hq), fun _ hg => by cases hg⟩⟩
  | none =>
    dsimp only
    have hbegun := Db.beginOperation_owner (p.others s.world s.db).1
      (s.now + (p.others s.world s.db).2.1) (p.ids s.drawn) (p.guresids s.drawn) start
    cases hr : Db.beginOperation (p.others s.world s.db).1 (s.now + (p.others s.world s.db).2.1) (p.ids s.drawn)
      (p.guresids s.drawn) start with
    | mk r db' =>
      rw [hr] at hbegun
      cases r with
      | error e =>
        exact ⟨nofun, rfl, hs, fun hK => ⟨fun q hq => hbegun.trans (hK _ _ _ ((howned hK).1 q hq)),
          fun _ hg => by cases hg⟩⟩
      | ok started =>
        obtain ⟨hid, howner, hsame⟩ := hbegun
        refine ⟨fun _ h => by cases h; exact hid, rfl, hs, fun hK => ⟨fun q hq => ?_, fun _ hg => ?_⟩⟩
        · exact howner.trans (congrArg some (hsame _ (hK _ _ _ ((howned hK).1 q hq))).symm)
        · cases hg
          exact howner

theorem execute_steady {g : Guresid} {run : Exec W → EStateM.Result ExecFailure (Exec W) α} (deadline : Nat)
    (stopped late : String) (hrun : ∀ world now, ∀ c ∈ (execState (run (.start world now))).calls,
      c.request.identity = ({ id := p.ids (m + a), fingerprint := fp }, g)) :
    Steady p key m fp k (some g) (execute p (a + 1) deadline stopped late run) := by
  rintro s ⟨hk, hs, howned⟩
  have hnew : ∀ q ∈ (execState (run (.start s.world s.now))).calls.map (a + 1, ·), q.1 = a + 1 ∧
      q.2.request.operation = { id := p.ids (m + a), fingerprint := fp } ∧ q.2.request.guresid = g := by
    intro q hq
    obtain ⟨c, hc, rfl⟩ := mem_map.1 hq
    exact ⟨rfl, Prod.mk.inj (hrun _ _ c hc)⟩
  refine ⟨hk, fun q hq => ?_, fun hK => ⟨fun q hq => ?_, (howned hK).2⟩⟩
  · rcases mem_append.1 hq with hq | hq
    · exact ⟨a, (hnew q hq).1, (hnew q hq).2.1⟩
    · exact hs q hq
  · rcases mem_append.1 hq with hq | hq
    · rw [(hnew q hq).2.2]
      exact (howned hK).2 g rfl
    · exact (howned hK).1 q hq

/-- An attempt draws one identifier, and unless the run ends with it the record is still there. -/
def Attempted (p : Planner W) (key : String × String × String) (m : Nat) (fp : String) (a : Nat)
    (x : PlanM W (Option α)) : Prop :=
  Triple (Drawn p key m fp (m + a) none) x
    (fun r s => Ended p key m fp s ∧ (r = none → Drawn p key m fp (m + a + 1) none s)) (fun _ => Ended p key m fp)

theorem Quiet.attempted {x : PlanM W (Option α)} (h : Quiet key (p.KeepsOwner key) x) :
    Triple (Drawn p key m fp k held) x (fun r s => Ended p key m fp s ∧ (r = none → Drawn p key m fp k none s))
      (fun _ => Ended p key m fp) :=
  h.steady.weaken (fun _ hs => hs) (fun _ _ hs => ⟨hs.ended, fun _ => hs.release⟩) fun _ _ hs => hs

end Attempt

namespace NodeRun
variable (n : NodeRun) (p : Planner W) {m k a : Nat} {g : Guresid}

def key : String × String × String := (n.context.app, n.context.env, n.descriptor.text)

theorem addPriorState_identity {job job' : ProvisionJob} {r} (h : n.addPriorState job r = .ok job') :
    job'.identity = job.identity := by
  cases r with
  | none => cases h; rfl
  | some r =>
    simp only [addPriorState] at h
    split_ifs at h
    cases h
    rfl

theorem withPriorState_spec (job : ProvisionJob) :
    Triple (Drawn p n.key m n.fingerprint k (some g)) (n.withPriorState p job)
      (fun r s => (∀ job', r = .ok job' → job'.identity = job.identity) ∧ Drawn p n.key m n.fingerprint k (some g) s)
      (fun _ => Ended p n.key m n.fingerprint) := by
  refine .bind (transact_quiet p id fun _ _ _ => rfl).steady fun r => ?_
  cases r with
  | error e => exact .pure fun _ hs => ⟨nofun, hs⟩
  | ok r => exact .pure fun _ hs => ⟨fun _ h => n.addPriorState_identity h, hs⟩

theorem recordInputs_quiet (id : String) (recovery : Json) : Quiet n.key (p.KeepsOwner n.key)
    (transact p fun _ => committed fun db => db.recordOperationInputs id recovery) := by
  refine committed_quiet p (fun h => h) fun _ db db' h => ?_
  simp only [Db.recordOperationInputs, bind_eq_ok] at h
  obtain ⟨_, _, _, _, h⟩ := h
  cases h
  rfl

theorem provision_steady (job : ProvisionJob) (hjob : job.identity = (⟨p.ids (m + a), n.fingerprint⟩, g)) :
    Steady p n.key m n.fingerprint k (some g) (n.provision p (a + 1) job) := by
  refine .bind (n.withPriorState_spec p job) fun r => .of_fact fun hr => ?_
  cases r with
  | error f => exact (quiet_pure _).steady
  | ok job' =>
    refine .bind (n.recordInputs_quiet p _ _).steady fun recorded => ?_
    cases recorded with
    | error e => exact (quiet_pure _).steady
    | ok _ =>
      refine execute_steady _ _ _ fun world now c hc => ?_
      rw [← hjob, ← hr job' rfl]
      exact runProvision_identity p.services job' world now c hc

theorem succeed_quiet (job : ProvisionJob) (r : ProvisionResult) :
    Quiet n.key (p.KeepsOwner n.key) (n.succeed p job r) := by
  refine (checkpoint_quiet p id _ fun _ => by simp).bind fun recorded => ?_
  cases recorded with
  | true => exact quiet_pure _
  | false => exact (checkpoint_quiet p id _ fun _ => by simp).bind fun _ => quiet_throw _

theorem fail_quiet (a : Nat) (id : String) (f : ExecFailure) : Quiet n.key (p.KeepsOwner n.key) (n.fail p a id f) := by
  cases f with
  | permanent error | uncertain error cookie =>
    exact (checkpoint_quiet p (fun h => h) _ fun _ => by simp).bind fun _ => quiet_throw _
  | retryable error retryAfter =>
    exact (checkpoint_quiet p (fun h => h) _ fun _ => by simp).bind fun _ => waitForRetry_quiet p _ _ _ _

theorem attempt_spec : Attempted p n.key m n.fingerprint a (n.attempt p (a + 1)) := by
  refine .bind (acquireSlot_quiet p _).steady fun _ => .bind (beginOperation_spec n.start) fun r =>
    .of_fact fun hr => ?_
  cases r with
  | error e => exact (quiet_throw _).attempted
  | ok started =>
    dsimp only
    cases n.resolve started with
    | error e => exact ((checkpoint_quiet p id _ fun _ => by simp).bind fun _ => quiet_throw _).attempted
    | ok ia =>
      have hjob : (n.job started ia.1 ia.2).identity = (⟨p.ids (m + a), n.fingerprint⟩, started.guresid) := by
        rw [← hr started rfl]; rfl
      refine .bind (n.provision_steady p _ hjob) fun result => ?_
      cases result with
      | ok r => exact ((n.succeed_quiet p _ r).bind fun _ => quiet_pure _).attempted
      | error f => exact ((n.fail_quiet p _ _ f).bind fun _ => quiet_pure _).attempted

end NodeRun

namespace DeleteRun
variable (n : DeleteRun) (p : Planner W) {m k a : Nat} {g : Guresid}

def key : String × String × String := (n.context.app, n.context.env, n.descriptor.text)

theorem checkFirst_quiet (a : Nat) : Quiet n.key (p.KeepsOwner n.key) (n.checkFirst p a) := by
  unfold checkFirst
  by_cases h : (a = 1 && !n.resource.cleanupPending) = true
  · rw [if_pos h]
    intro s
    unfold checkPermit
    rcases (p.services.check n.permitRequest s.world).within (n.deadline - s.now) with ⟨_ | _ | _, t, world⟩ <;>
      exact ⟨rfl, rfl, fun _ _ h => h⟩
  · rw [if_neg h]; exact quiet_pure _

theorem delete_steady (job : ProvisionJob) (hjob : job.identity = (⟨p.ids (m + a), fingerprint⟩, g)) :
    Steady p n.key m fingerprint k (some g) (n.delete p (a + 1) job) := by
  unfold delete
  by_cases h : n.resource.cleanupPending = true
  · rw [if_pos h]; exact (quiet_pure _).steady
  · rw [if_neg h]
    refine execute_steady _ _ _ fun world now c hc => ?_
    rw [← hjob]
    exact runDeprovision_identity p.services job world now c hc

theorem removeRecord_quiet (id : String) (tries : Nat) : ∀ tried, Quiet n.key False (removeRecord p id tried tries) := by
  induction tries with
  | zero => exact fun _ => quiet_pure _
  | succ tries ih =>
    intro tried
    refine Quiet.bind (fun _ => ⟨rfl, rfl, nofun⟩) fun _ => (checkpoint_quiet p nofun _ nofun).bind fun recorded => ?_
    cases recorded with
    | true => exact quiet_pure _
    | false => exact ih (tried + 1)

theorem recordDeletion_quiet (id : String) : Quiet n.key False (recordDeletion p id) := by
  refine (n.removeRecord_quiet p id 3 0).bind fun removed => ?_
  cases removed with
  | true => exact quiet_pure _
  | false =>
    refine (checkpoint_quiet p nofun _ nofun).bind fun marked => ?_
    cases marked with
    | true => exact quiet_throw _
    | false => exact (checkpoint_quiet p nofun _ nofun).bind fun _ => quiet_throw _

theorem fail_quiet (a : Nat) (id : String) (f : ExecFailure) : Quiet n.key (p.KeepsOwner n.key) (n.fail p a id f) := by
  cases f with
  | permanent error | uncertain error cookie =>
    exact (checkpoint_quiet p (fun h => h) _ fun _ => by simp).bind fun _ => quiet_throw _
  | retryable error retryAfter =>
    refine (checkpoint_quiet p (fun h => h) _ fun _ => by simp).bind fun recorded => ?_
    cases recorded with
    | false => exact quiet_throw _
    | true => exact waitForRetry_quiet p _ _ _ _

theorem attempt_spec (r : Recorded) : Attempted p n.key m fingerprint a (n.attempt p r (a + 1)) := by
  refine .bind (acquireSlot_quiet p _).steady fun _ => .bind (n.checkFirst_quiet p _).steady fun _ =>
    .bind (beginOperation_spec (n.start r)) fun started => .of_fact fun hs => ?_
  cases started with
  | error e => exact (quiet_throw _).attempted
  | ok started =>
    have hjob : (n.job r started).identity = (⟨p.ids (m + a), fingerprint⟩, started.guresid) := by
      rw [← hs started rfl]; rfl
    refine .bind (n.delete_steady p _ hjob) fun result => ?_
    cases result with
    | ok _ => exact .bind (n.recordDeletion_quiet p _).ends fun _ => .pure fun _ h => ⟨h, nofun⟩
    | error f => exact ((n.fail_quiet p _ _ f).bind fun _ => quiet_pure _).attempted

end DeleteRun

section Loops
variable (p : Planner W)

theorem attemptsLoop_ended {m : Nat} {fp : String} {key : String × String × String} {body : Nat → PlanM W (Option α)}
    {hbody : ∀ a s s', body a s = .ok none s' → a < p.limits.attempts}
    (hspec : ∀ a, Attempted p key m fp a (body (a + 1))) (s : PlannerRun W) (hs : Drawn p key m fp m none s) :
    Ended p key m fp (planState ((attemptsLoop p body hbody).run (0, s))) := by
  refine Loop.run_induct _ (fun q : Nat × PlannerRun W => Drawn p key m fp (m + q.1) none q.2)
    (fun r => Ended p key m fp (planState r)) ?_ ?_ (0, s) hs
  · rintro ⟨a, s⟩ ⟨a', s'⟩ hq hstep
    have h := hspec a s hq
    dsimp only [attemptsLoop] at hstep
    split at hstep <;> cases hstep
    rename_i hb
    rw [hb] at h
    exact h.2 rfl
  · rintro ⟨a, s⟩ r hq hstep
    have h := hspec a s hq
    dsimp only [attemptsLoop] at hstep
    split at hstep <;> cases hstep <;> rename_i hb <;> rw [hb] at h
    · exact h.1
    · exact h

/-- The calls share their fingerprint, and two of them share their operation exactly when one attempt
made them both. -/
def Renamed (fp : String) (sent : List (Nat × DriverCall)) : Prop :=
  ∀ q ∈ sent, q.2.request.operation.fingerprint = fp ∧
    ∀ q' ∈ sent, q.2.request.operation = q'.2.request.operation ↔ q.1 = q'.1

theorem Numbered.renamed {p : Planner W} {m : Nat} {fp : String} {sent} (hids : Function.Injective p.ids)
    (h : Numbered p m fp sent) : Renamed fp sent := by
  intro q hq
  obtain ⟨i, hi, hop⟩ := h q hq
  refine ⟨by rw [hop], fun q' hq' => ?_⟩
  obtain ⟨j, hj, hop'⟩ := h q' hq'
  rw [hop, hop', hi, hj]
  constructor
  · intro heq
    have hid : p.ids (m + i) = p.ids (m + j) := congrArg Operation.id heq
    have := hids hid
    omega
  · intro heq
    obtain rfl : i = j := by omega
    rfl

/-- Retries change the operation and keep the resource: the driver calls of a node's attempts, and of a deletion's, share
the fingerprint and carry the same operation exactly when they belong to the same attempt, and they carry one GUResID. -/
theorem retries_rename_operation (hids : Function.Injective p.ids) (s : PlannerRun W) :
    (∀ n : NodeRun, Renamed n.fingerprint (planState (n.run p { s with sent := [] })).sent ∧
      (p.KeepsOwner n.key → OneResource (planState (n.run p { s with sent := [] })).sent)) ∧
    (∀ n : DeleteRun, Renamed DeleteRun.fingerprint (planState (n.attempts p { s with sent := [] })).sent ∧
      (p.KeepsOwner n.key → OneResource (planState (n.attempts p { s with sent := [] })).sent)) := by
  have hs : ∀ fp key, Drawn p key s.drawn fp s.drawn none { s with sent := [] } :=
    fun fp key => ⟨rfl, fun _ hq => absurd hq not_mem_nil, fun _ => ⟨fun _ hq => absurd hq not_mem_nil, nofun⟩⟩
  constructor
  · intro n
    have hended : Ended p n.key s.drawn n.fingerprint (planState (n.run p { s with sent := [] })) :=
      attemptsLoop_ended p (fun _ => n.attempt_spec p) _ (hs _ _)
    exact ⟨hended.1.renamed hids, hended.2⟩
  · intro n
    have hended : Ended p n.key s.drawn DeleteRun.fingerprint (planState (n.attempts p { s with sent := [] })) := by
      unfold DeleteRun.attempts
      cases Recorded.of n.decodeInputs n.resource with
      | error e => exact (hs _ _).ended
      | ok r => exact attemptsLoop_ended p (fun _ => n.attempt_spec p r) _ (hs _ _)
    exact ⟨hended.1.renamed hids, hended.2⟩

end Loops

def SameOperation (sent : List (Nat × DriverCall)) : Prop :=
  ∀ q ∈ sent, q.2.isMutation = true → ∀ q' ∈ sent, q'.2.isMutation = true →
    q.2.request.operation = q'.2.request.operation

/-- Answers every request with `500`, which is retried because the driver recovers. -/
def busyPeer : HttpDriver Unit where
  info := { id := "acme/dns", protocolVersion, cookieVersion := 1, capabilities := { observe := true, recover := true } }
  decode _ := none
  redact _ m := m
  send _ _ w := .now (.response { status := 500, protocol := some protocolVersion, setCookie := none,
                                  retryAfter := none, body := .whole none 1 0 }) w

def busyPlanner : Planner Unit where
  services := { driver := fun _ => .ok busyPeer.toDriver, readSecrets := fun _ _ _ w => (.ok fun _ => none, 0, w)
                credentials := fun _ _ w => (.ok none, 0, w), check := fun _ w => .now (.ok ()) w
                write := fun _ _ w => (.error "unavailable", 0, w), openCookie := fun _ => .ok none
                sealCookie := fun _ c => ⟨c.data⟩ }
  limits := { attempts := 2, backoff := secs 1, maxBackoff := secs 30 }
  acquire w := .now true w
  others w db := (db, 0, w)
  fault w := (none, w)
  stops w := (false, w)
  jitter w := (0, w)
  ids i := String.ofList (List.replicate i 'a')
  guresids _ := dnsJob.guresid

theorem busyPlanner_ids : Function.Injective busyPlanner.ids := by
  intro i j h
  have := congrArg (fun s => s.toList.length) h
  simpa [busyPlanner] using this

def deployingDb : Db where
  org := "acme"
  principals := []
  envTypes := []
  apps := [{ id := "shop", state := .active }]
  envs := [{ app := "shop", id := "dev", envType := "development", generation := 1, desiredSetId := none
             lastSuccessfulSetId := none, lastSuccessfulDeployId := none, state := .active }]
  sets := []
  deltas := []
  plans := []
  permits := []
  deployments := [{ app := "shop", env := "dev", id := "d-1", seq := 1, kind := .deploy, actor := "ada", setId := none
                    deltaId := none, generation := 1, status := .inProgress, idempotencyKey := none
                    requestFingerprint := none, snapshot := .obj [], error := none }]
  runs := []
  resources := []
  operations := []
  tombstones := []

def dnsNode : NodeRun where
  context := { org := "acme", app := "shop", env := "dev", envType := "development", deploymentId := "d-1"
               permits := [] }
  descriptor := dnsJob.descriptor
  definitionId := "dns"
  definitionVersion := 1
  definition := .obj []
  driverType := "acme/dns"
  fingerprint := "f-1"
  resolve _ := .ok (.absent, none)
  inputsJson _ := .obj []
  dependencies := .obj []
  dependsOn := []
  pin := none
  outputSchema := none
  deadline := secs 3600

def busyStart : PlannerRun Unit := { world := (), now := 0, db := deployingDb, drawn := 0, sent := [] }

/-- Two attempts, each with one `put` and an identifier of its own. -/
def putTwice : List (Nat × DriverCall) → Bool
  | [(2, .put r _), (1, .put r' _)] => r.operation.id ≠ r'.operation.id
  | _ => false

theorem busyPlanner_putTwice : putTwice (planState (dnsNode.run busyPlanner busyStart)).sent = true := by
  decide +kernel

theorem retries_not_sameOperation : ¬ ∀ (W : Type) (p : Planner W) (s : PlannerRun W) (n : NodeRun),
    Function.Injective p.ids → SameOperation (planState (n.run p { s with sent := [] })).sent := by
  intro h
  have hsame := h Unit busyPlanner busyStart dnsNode busyPlanner_ids
  have htwice := busyPlanner_putTwice
  change SameOperation (planState (dnsNode.run busyPlanner busyStart)).sent at hsame
  generalize (planState (dnsNode.run busyPlanner busyStart)).sent = sent at hsame htwice
  unfold putTwice at htwice
  split at htwice
  · rename_i r a r' a'
    have := hsame (2, .put r a) (by simp) rfl (1, .put r' a') (by simp) rfl
    simp only [ne_eq, decide_not, Bool.not_eq_true', decide_eq_false_iff_not] at htwice
    exact htwice (congrArg Operation.id this)
  · cases htwice

/-- The two attempts of `busyPlanner_putTwice`, as the general theorem has them. -/
theorem busyPlanner_renames : Function.Injective busyPlanner.ids ∧ busyPlanner.KeepsOwner dnsNode.key ∧
    Renamed "f-1" (planState (dnsNode.run busyPlanner busyStart)).sent ∧
    OneResource (planState (dnsNode.run busyPlanner busyStart)).sent := by
  have hkeeps : busyPlanner.KeepsOwner dnsNode.key := fun _ _ _ h => h
  obtain ⟨hrenamed, hone⟩ := (retries_rename_operation busyPlanner busyPlanner_ids busyStart).1 dnsNode
  exact ⟨busyPlanner_ids, hkeeps, hrenamed, hone hkeeps⟩

end Openporch
