import Openporch.Store.Authority
import Openporch.Store.Evolution

/-!
# What each transaction does to the permits

A permit's row is new with its issue, is bound by an acceptance, is marked by its use, disappears with its
environment, and is the same otherwise.
-/

namespace Openporch
open Fallible

namespace Db
variable {db db' : Db}
  {actor : Option String} {org app : String} {generation : Nat} {q : Acceptance × Db} {req : AppDeletionRequest}
  {id env : String} {now : Nat} {ids : Nat → String}

theorem createApp_permits {owner : String} (h : db.createApp org id owner actor = .ok db') : db'.permits = db.permits := by
  simp only [createApp, insertEnv, ensureEnvType, bind_eq_ok] at h
  obtain ⟨_, _, _, _, _, _, db1, ⟨_, _, h1⟩, _, _, h⟩ := h
  cases h1
  cases h
  dsimp only
  split <;> rfl

variable {envType deployment : String} {f : Permit → Permit}

theorem createEnv_permits (h : db.createEnv org app id envType actor = .ok db') : db'.permits = db.permits := by
  simp only [createEnv, insertEnv, bind_eq_ok] at h
  obtain ⟨_, _, _, _, _, _, _, _, _, _, _, _, h⟩ := h
  cases h
  rfl

theorem putPlan_permits (h : db.putPlan now id org app env actor generation = .ok db') : db'.permits = db.permits := by
  simp only [putPlan, bind_eq_ok] at h
  obtain ⟨_, _, _, _, _, _, h⟩ := h
  cases h
  rfl

theorem closeAbandoned_permits {r : Resource} {res : Result Unit} (h : db.closeAbandoned r = .ok (res, db')) :
    db'.permits = db.permits := by
  unfold closeAbandoned at h
  split at h
  · cases h
    rfl
  · simp only [bind_eq_ok] at h
    obtain ⟨_, _, _, _, h⟩ := h
    cases h
    rfl

theorem startRun_permits (start : OperationStart) (g : String) (attempt : Nat) :
    (db.startRun start g attempt).permits = db.permits := by
  unfold startRun
  dsimp only
  split <;> rfl

theorem recordStart_permits {g : Guresid} {start : OperationStart} {q} (h : db.recordStart now id g start = .ok q) :
    q.2.permits = db.permits := by
  simp only [recordStart, bind_eq_ok, insertOperation] at h
  obtain ⟨db1, ⟨_, _, hinsert⟩, h⟩ := h
  cases hinsert
  cases h
  exact startRun_permits start g.text _

theorem beginOperation_permits (now : Nat) (id : String) (g : Guresid) (start : OperationStart) :
    (db.beginOperation now id g start).2.permits = db.permits := by
  unfold beginOperation
  cases htx : db.beginTx now id g start with
  | error e => rfl
  | ok q =>
    simp only [beginTx, bind_eq_ok] at htx
    obtain ⟨_, _, _, _, ⟨claimed, db1⟩, hclaim, htx⟩ := htx
    cases claimed with
    | error e =>
      cases htx
      obtain ⟨_, _, _, hclose⟩ := claimResource_error hclaim
      exact closeAbandoned_permits hclose
    | ok guresid =>
      simp only [bind_eq_ok] at htx
      obtain ⟨q', hrecord, htx⟩ := htx
      cases htx
      refine (recordStart_permits hrecord).trans ?_
      rcases claimResource_ok hclaim with ⟨_, _, _, _, hclose, _, rfl⟩ | ⟨_, _, _, _, rfl⟩
      · have hpermits := closeAbandoned_permits hclose
        exact hpermits
      · rfl

theorem recordOperationInputs_permits {recovery : Json} (h : db.recordOperationInputs id recovery = .ok db') :
    db'.permits = db.permits := by
  simp only [recordOperationInputs, bind_eq_ok] at h
  obtain ⟨_, _, _, _, h⟩ := h
  cases h
  rfl

theorem applyResult_permits (op : OperationRow) (r : Resource) (result : CheckpointResult) :
    (db.applyResult op r result).permits = db.permits := by
  cases result with
  | provisioned p => cases hpin : p.pin <;> simp only [applyResult, hpin, keepPin] <;> rfl
  | deleted => rfl
  | failed e => rfl
  | cleanupPending e => rfl
  | unknown e cookie => rfl

theorem checkpointInTx_permits {result} (h : db.checkpointInTx id result = .ok db') : db'.permits = db.permits := by
  simp only [checkpointInTx, bind_eq_ok] at h
  obtain ⟨op, _, _, _, _, _, r, _, h⟩ := h
  cases h
  exact applyResult_permits op r result

theorem resolveOperation_permits {resolution : Resolution} (h : db.resolveOperation id resolution actor = .ok db') :
    db'.permits = db.permits := by
  simp only [resolveOperation, bind_eq_ok] at h
  obtain ⟨op, _, restored, _, _, _, h⟩ := h
  split at h
  · cases h
  · cases resolution with
    | observed result => exact checkpointInTx_permits h
    | repeatable reason =>
      cases h
      rfl
    | operator reason =>
      simp only [resolveAs, bind_eq_ok] at h
      obtain ⟨_, _, _, _, h⟩ := h
      cases h
      rfl
    | recoveryRequired reason =>
      cases h
      rfl
    | confirmed =>
      simp only [resolveAs, bind_eq_ok] at h
      obtain ⟨_, _, _, _, h⟩ := h
      cases h
      rfl

theorem keepRecoveryCookie_permits (id : String) (observedWith : Option Sealed) (cookie : Sealed) :
    (db.keepRecoveryCookie id observedWith cookie).permits = db.permits := by
  unfold keepRecoveryCookie
  split <;> rfl

theorem scheduleDeletion_permits {descriptor : String} (h : db.scheduleDeletion org app env descriptor actor = .ok db') :
    db'.permits = db.permits := by
  simp only [scheduleDeletion, bind_eq_ok] at h
  obtain ⟨_, _, _, _, _, _, r, _, _, _, h⟩ := h
  split at h
  · cases h
    rfl
  · split at h
    · cases h
    · cases h
      rfl

theorem markEach_permits (rs : List (Resource × Nat)) {x} (h : markEach now ids db rs = .ok x) :
    x.2.permits = db.permits := by
  induction rs generalizing db x with
  | nil =>
    cases h
    rfl
  | cons q rs ih =>
    obtain ⟨r, i⟩ := q
    simp only [markEach, bind_eq_ok] at h
    obtain ⟨q1, h1, q2, h2, h⟩ := h
    cases h
    refine (ih h2).trans ?_
    unfold markRestoredOne at h1
    dsimp only at h1
    split at h1
    · cases h1
      rfl
    · split at h1
      · cases h1
        rfl
      · simp only [bind_eq_ok, insertOperation] at h1
        obtain ⟨_, ⟨_, _, hinsert⟩, h1⟩ := h1
        cases hinsert
        cases h1
        rfl

theorem closeAll_permits {state : OperationState} {status : ResourceStatus} {error : String} (ops : List OperationRow) :
    (db.closeAll state status error ops).permits = db.permits := by
  induction ops generalizing db with
  | nil => rfl
  | cons op ops ih => exact ih

theorem finishInTx_permits {error : Option String} (h : db.finishInTx app env id error = .ok db') :
    db'.permits.Sublist db.permits ∧ (error.isSome → db'.permits = db.permits) := by
  simp only [finishInTx, bind_eq_ok] at h
  obtain ⟨d, _, _, _, h⟩ := h
  split at h
  iterate 3
    · cases h
      exact ⟨List.Sublist.refl _, fun _ => rfl⟩
  · rename_i herror
    simp only [finishRemoval, bind_eq_ok] at h
    obtain ⟨row, _, h⟩ := h
    cases h
    refine ⟨?_, fun hsome => ?_⟩
    · split <;> split <;> exact List.filter_sublist
    · rw [finishError_eq_none herror] at hsome
      cases hsome

theorem finishAll_permits {error} (ds : List Deployment) (h : finishAll error db ds = .ok db') :
    db'.permits = db.permits := by
  induction ds generalizing db with
  | nil =>
    cases h
    rfl
  | cons d ds ih =>
    simp only [finishAll, bind_eq_ok] at h
    obtain ⟨db1, h1, h⟩ := h
    exact (ih h).trans ((finishInTx_permits h1).2 rfl)

theorem recoverInterrupted_permits {q} (h : db.recoverInterrupted = .ok q) : q.2.permits = db.permits := by
  simp only [recoverInterrupted, bind_eq_ok] at h
  obtain ⟨db4, hfinish, h⟩ := h
  cases h
  refine (finishAll_permits _ hfinish).trans ?_
  rw [closeAll_permits, closeAll_permits, closeAll_permits]

theorem setPermit_ids (id : String) (hf : ∀ p, (f p).id = p.id) :
    (db.setPermit id f).permits.map (·.id) = db.permits.map (·.id) :=
  Table.keys_update fun p _ => hf p

theorem mem_setPermit {p : Permit} (hids : (db.permits.map (·.id)).Nodup) {q : Permit}
    (hq : q ∈ db.permits) (hid : q.id = id) (h : p ∈ (db.setPermit id f).permits) : p ∈ db.permits ∨ p = f q := by
  obtain ⟨r, hr, hp⟩ := Table.mem_update.1 h
  split at hp
  · rename_i hkey
    rw [decide_eq_true_eq] at hkey
    obtain rfl := Table.eq_of_key hids hr hq (hkey.trans hid.symm)
    exact .inr hp.symm
  · exact .inl (hp ▸ hr)

/-- What an acceptance keeps: authority, earlier deployments, and the permits it does not bind. -/
structure Admits (db db' : Db) : Prop where
  principals : db'.principals = db.principals
  envTypes : db'.envTypes = db.envTypes
  types : ∀ app env, (db'.env? app env).map (·.envType) = (db.env? app env).map (·.envType)
  deployments : ∀ {app env id d}, db.deployment? app env id = some d → db'.deployment? app env id = some d
  ids : db'.permits.map (·.id) = db.permits.map (·.id)
  unbound : ∀ p ∈ db'.permits, p.boundTo = none → p ∈ db.permits

/-- The acceptance from `db` to `db'` binds the permit to deployment `id`. -/
structure Binds (db db' : Db) (now : Nat) (digests : List (String × String)) (p : Permit) (id : String) : Prop where
  row : p ∈ db.permits
  free : p.boundTo = none
  unexpired : now < p.expiresAt
  authority : db.Authorises p
  digest : digests.lookup p.descriptor = some p.configDigest
  fresh : db.deployment? p.app p.env id = none
  deployment : ∃ d, db'.deployment? p.app p.env id = some d ∧ d.generation = p.baseGeneration + 1

namespace Admits

theorem refl : Admits db db :=
  ⟨rfl, rfl, fun _ _ => rfl, fun h => h, rfl, fun _ h _ => h⟩

variable {db1 db2 db3 : Db} {p : Permit}

theorem trans (h : Admits db1 db2) (h' : Admits db2 db3) : Admits db1 db3 where
  principals := h'.principals.trans h.principals
  envTypes := h'.envTypes.trans h.envTypes
  types app env := (h'.types app env).trans (h.types app env)
  deployments hd := h'.deployments (h.deployments hd)
  ids := h'.ids.trans h.ids
  unbound p hp hfree := h.unbound p (h'.unbound p hp hfree) hfree

theorem authorises (h : Admits db db') (hp : db'.Authorises p) : db.Authorises p := by
  obtain ⟨e', he', hmay⟩ := hp
  have htype := h.types p.app p.env
  rw [he', Option.map_some] at htype
  obtain ⟨e, he, hsame⟩ := Option.map_eq_some_iff.1 htype.symm
  have hsame' : db'.mayPermit = db.mayPermit := by
    unfold mayPermit deploys isAdministrator isProtected rolesIn
    rw [h.principals, h.envTypes]
  exact ⟨e, he, by rw [hsame, ← hsame', hmay]⟩

theorem binds {db4 : Db} {now : Nat} {digests} {id : String} (h : Admits db1 db2)
    (hbinds : Binds db2 db3 now digests p id) (h' : Admits db3 db4) : Binds db1 db4 now digests p id where
  row := h.unbound p hbinds.row hbinds.free
  free := hbinds.free
  unexpired := hbinds.unexpired
  authority := h.authorises hbinds.authority
  digest := hbinds.digest
  fresh := by
    cases hd : db1.deployment? p.app p.env id with
    | none => rfl
    | some d => exact absurd (h.deployments hd) (by rw [hbinds.fresh]; exact nofun)
  deployment := by
    obtain ⟨d, hd, hgeneration⟩ := hbinds.deployment
    exact ⟨d, h'.deployments hd, hgeneration⟩

end Admits

theorem bindEach_ok {digests} (ids : List String) {q} (hnodup : (db.permits.map (·.id)).Nodup)
    (htype : db.envType app env = .ok envType)
    (h : bindEach now app env envType generation deployment digests db ids = .ok q) :
    Admits db q.2 ∧ q.2.deployments = db.deployments ∧ ∀ p ∈ q.2.permits, p ∈ db.permits ∨
      ∃ p₀, db.Bindable now app env generation digests p₀ ∧ p = { p₀ with boundTo := some deployment } := by
  induction ids generalizing db q with
  | nil =>
    cases h
    exact ⟨.refl, rfl, fun p hp => .inl hp⟩
  | cons id ids ih =>
    simp only [bindEach, bind_eq_ok] at h
    obtain ⟨p1, hp1, q', hq', h⟩ := h
    cases h
    obtain ⟨hbindable, rfl⟩ := bindable_ok htype hp1
    let bound := fun p : Permit => { p with boundTo := some deployment }
    have hkeys : (db.setPermit p1.id bound).permits.map (·.id) = db.permits.map (·.id) :=
      setPermit_ids p1.id fun _ => rfl
    have hrows : ∀ p ∈ (db.setPermit p1.id bound).permits, p ∈ db.permits ∨ p = bound p1 :=
      fun p hp => mem_setPermit hnodup hbindable.row rfl hp
    have hfirst : Admits db (db.setPermit p1.id bound) := by
      refine ⟨rfl, rfl, fun _ _ => rfl, fun hd => hd, hkeys, fun p hp hfree => ?_⟩
      rcases hrows p hp with hrow | rfl
      · exact hrow
      · cases hfree
    have hnodup1 : ((db.setPermit p1.id bound).permits.map (·.id)).Nodup := hkeys ▸ hnodup
    obtain ⟨hrest, hdeployments, hpermits⟩ := ih hnodup1 htype hq'
    refine ⟨hfirst.trans hrest, hdeployments, fun p hp => ?_⟩
    rcases hpermits p hp with hrow | ⟨p₀, hp0, rfl⟩
    · rcases hrows p hrow with hrow | rfl
      · exact .inl hrow
      · exact .inr ⟨p1, hbindable, rfl⟩
    · refine .inr ⟨p₀, ?_, rfl⟩
      exact { hp0 with row := hfirst.unbound p₀ hp0.row hp0.free, authority := hp0.authority }

theorem bindPermits_ok {binding : PermitBinding} (hnodup : (db.permits.map (·.id)).Nodup)
    (h : db.bindPermits now app env generation deployment binding = .ok db') :
    Admits db db' ∧ db'.deployments = db.deployments ∧ ∀ p ∈ db'.permits, p ∈ db.permits ∨
      ∃ p₀, db.Bindable now app env generation binding.digests p₀ ∧ p = { p₀ with boundTo := some deployment } := by
  unfold bindPermits at h
  dsimp only at h
  split at h
  · rename_i hnone
    simp only [bind_eq_ok, List.isEmpty_iff.1 hnone] at h
    obtain ⟨_, _, q, hq, _, _, h⟩ := h
    cases h
    cases hq
    exact ⟨.refl, rfl, fun p hp => .inl hp⟩
  · simp only [bind_eq_ok] at h
    obtain ⟨envType, htype, q, hq, _, _, h⟩ := h
    cases h
    exact bindEach_ok _ hnodup htype hq

theorem freezeDelta_admits {req} (h : db.freezeDelta now req = .ok db') :
    Admits db db' ∧ db'.deployments = db.deployments ∧ db'.permits = db.permits := by
  unfold freezeDelta at h
  split at h
  · cases h
    exact ⟨.refl, rfl, rfl⟩
  · simp only [bind_eq_ok] at h
    obtain ⟨_, _, _, _, h⟩ := h
    cases h
    exact ⟨⟨rfl, rfl, fun _ _ => rfl, fun hd => hd, rfl, fun _ hp _ => hp⟩, rfl, rfl⟩

theorem env?_acceptEnv (req : DeploymentRequest) (generation : Nat) (app env : String) :
    (((db.setEnv req.app req.env (acceptEnv req generation)).env? app env).map fun e => e.envType) =
      (db.env? app env).map fun e => e.envType := by
  have hupdate : (db.setEnv req.app req.env (acceptEnv req generation)).env? app env = _ :=
    Table.find?_update_of fun e _ => rfl
  rw [hupdate, Option.map_map]
  congr 1
  funext e
  dsimp only [Function.comp]
  split <;> rfl

theorem acceptNew_permits {req} (hnodup : (db.permits.map (·.id)).Nodup) (h : db.acceptNew now id req = .ok q) :
    Admits db q.2 ∧ ∀ p ∈ q.2.permits, p ∈ db.permits ∨
      ∃ p₀, Binds db q.2 now req.permits.digests p₀ id ∧ p₀.app = req.app ∧ p₀.env = req.env ∧
        p = { p₀ with boundTo := some id } := by
  simp only [acceptNew, bind_eq_ok, refuseIf_eq_ok] at h
  obtain ⟨env, _, db1, h1, db2, h2, _, hfresh, h⟩ := h
  cases h
  obtain ⟨hfreeze, hdeployments1, hpermits1⟩ := freezeDelta_admits h1
  obtain ⟨hbind, hdeployments2, hrows⟩ := bindPermits_ok (hpermits1 ▸ hnodup) h2
  rw [Option.isSome_eq_false_iff, Option.isNone_iff_eq_none] at hfresh
  set d := db2.newDeployment id req (env.generation + 1) with hd
  have hadd : Admits db2 ({ db2 with deployments := db2.deployments ++ [d] }.setEnv req.app req.env
      (acceptEnv req (env.generation + 1))) := by
    refine ⟨rfl, rfl, env?_acceptEnv req _, fun hfound => ?_, rfl, fun _ hp _ => hp⟩
    exact (List.find?_append ..).trans (by rw [← deployment?, hfound]; rfl)
  have hdb : Admits db db2 := hfreeze.trans hbind
  refine ⟨hdb.trans hadd, fun p hp => ?_⟩
  rcases hrows p hp with hrow | ⟨p₀, hp0, rfl⟩
  · exact .inl (hpermits1 ▸ hrow)
  · refine .inr ⟨p₀, ?_, hp0.app, hp0.env, rfl⟩
    have hnone : db.deployment? p₀.app p₀.env id = none := by
      rw [deployment?, ← hdeployments1, ← hdeployments2, hp0.app, hp0.env]
      exact hfresh
    refine ⟨hpermits1 ▸ hp0.row, hp0.free, hp0.unexpired, hfreeze.authorises hp0.authority, hp0.digest, hnone, d, ?_, ?_⟩
    · rw [hp0.app, hp0.env]
      refine (List.find?_append ..).trans ?_
      rw [← deployment?, hfresh]
      simp [hd, newDeployment]
    · rw [hp0.generation]
      rfl

theorem acceptInTx_permits {req} (hnodup : (db.permits.map (·.id)).Nodup) (h : db.acceptInTx now id req = .ok q) :
    Admits db q.2 ∧ ∀ p ∈ q.2.permits, p ∈ db.permits ∨
      ∃ p₀, Binds db q.2 now req.permits.digests p₀ id ∧ p₀.app = req.app ∧ p₀.env = req.env ∧
        p = { p₀ with boundTo := some id } := by
  unfold acceptInTx at h
  split at h
  · split at h
    · cases h
    · cases h
      exact ⟨.refl, fun p hp => .inl hp⟩
  · exact acceptNew_permits hnodup h

def BindsEnv (db db' : Db) (now : Nat) (req : AppDeletionRequest) (p p₀ : Permit) : Prop :=
  ∃ binding id, req.permits.lookup p₀.env = some binding ∧ p₀.app = req.app ∧
    Binds db db' now binding.digests p₀ id ∧ p = { p₀ with boundTo := some id }

theorem deleteEnv_permits {e : Env} (hnodup : (db.permits.map (·.id)).Nodup) (h : db.deleteEnv now id req e = .ok q) :
    Admits db q.2 ∧ ∀ p ∈ q.2.permits, p ∈ db.permits ∨ ∃ p₀, BindsEnv db q.2 now req p p₀ := by
  unfold deleteEnv at h
  dsimp only at h
  split at h
  · split at h
    · cases h
      exact ⟨.refl, fun p hp => .inl hp⟩
    · cases h
  · simp only [bind_eq_ok, orError_eq_ok] at h
    obtain ⟨binding, hbinding, h⟩ := h
    obtain ⟨hadmits, hrows⟩ := acceptInTx_permits hnodup h
    refine ⟨hadmits, fun p hp => ?_⟩
    rcases hrows p hp with hrow | ⟨p₀, hbinds, happ, henv, heq⟩
    · exact .inl hrow
    · refine .inr ⟨p₀, binding, id, ?_, happ, hbinds, heq⟩
      rw [henv]
      exact hbinding

theorem deleteEnvs_permits (envs : List (Env × Nat)) {q} (hnodup : (db.permits.map (·.id)).Nodup)
    (h : deleteEnvs now ids req db envs = .ok q) :
    Admits db q.2 ∧ ∀ p ∈ q.2.permits, p ∈ db.permits ∨ ∃ p₀, BindsEnv db q.2 now req p p₀ := by
  induction envs generalizing db q with
  | nil =>
    cases h
    exact ⟨.refl, fun p hp => .inl hp⟩
  | cons e envs ih =>
    obtain ⟨e, i⟩ := e
    simp only [deleteEnvs, bind_eq_ok] at h
    obtain ⟨q1, h1, q2, h2, h⟩ := h
    cases h
    obtain ⟨hfirst, hrows1⟩ := deleteEnv_permits hnodup h1
    obtain ⟨hrest, hrows2⟩ := ih (hfirst.ids ▸ hnodup) h2
    refine ⟨hfirst.trans hrest, fun p hp => ?_⟩
    rcases hrows2 p hp with hrow | ⟨p₀, binding, id, hbinding, happ, hbinds, heq⟩
    · rcases hrows1 p hrow with hrow | ⟨p₀, binding, id, hbinding, happ, hbinds, heq⟩
      · exact .inl hrow
      · exact .inr ⟨p₀, binding, id, hbinding, happ, Admits.binds .refl hbinds hrest, heq⟩
    · exact .inr ⟨p₀, binding, id, hbinding, happ, hfirst.binds hbinds .refl, heq⟩

theorem acceptAppDeletion_permits {q} (hnodup : (db.permits.map (·.id)).Nodup)
    (h : db.acceptAppDeletion now ids req = .ok q) : q.2.permits.map (·.id) = db.permits.map (·.id) ∧
      ∀ p ∈ q.2.permits, p ∈ db.permits ∨ ∃ p₀, BindsEnv db q.2 now req p p₀ := by
  simp only [acceptAppDeletion, bind_eq_ok] at h
  obtain ⟨_, _, _, _, _, _, _, _, q', h', h⟩ := h
  cases h
  split
  · rename_i hnone
    rw [List.isEmpty_iff.1 hnone] at h'
    cases h'
    exact ⟨rfl, fun p hp => .inl hp⟩
  · obtain ⟨hadmits, hrows⟩ := deleteEnvs_permits _ (by exact hnodup) h'
    refine ⟨hadmits.ids, fun p hp => ?_⟩
    rcases hrows p hp with hrow | ⟨p₀, binding, id, hbinding, happ, hbinds, heq⟩
    · exact .inl hrow
    · -- the application's own row is no part of what a binding says
      exact .inr ⟨p₀, binding, id, hbinding, happ, { hbinds with }, heq⟩

theorem consumePermit_permits {u : PermitUse} {q : Permit × Db} (hnodup : (db.permits.map (·.id)).Nodup)
    (h : db.consumePermit now u = .ok q) :
    q.2.permits.map (·.id) = db.permits.map (·.id) ∧ ∀ p ∈ q.2.permits, p ∈ db.permits ∨ p = markUsed now q.1 := by
  obtain ⟨hcovers, hdb⟩ := consumePermit_ok h
  rw [hdb]
  exact ⟨setPermit_ids _ fun _ => rfl, fun p hp => mem_setPermit hnodup hcovers.row rfl hp⟩

end Db
end Openporch
