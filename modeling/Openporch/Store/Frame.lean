import Openporch.Store.Outcomes

/-!
# Transactions that leave resources and operations alone

Issuing, binding and using permits, accepting deployments and, unless an environment is removed, finishing
them write neither of the two tables.
-/

namespace Openporch
open Fallible

namespace Db

structure SameRecords (db db' : Db) : Prop where
  operations : db'.operations = db.operations
  resources : db'.resources = db.resources

variable {db db1 db2 db3 : Db}

theorem SameRecords.trans (h : SameRecords db1 db2) (h' : SameRecords db2 db3) : SameRecords db1 db3 :=
  ⟨h'.operations.trans h.operations, h'.resources.trans h.resources⟩

variable {app org : String} {db' : Db} {actor : Option String} {generation : Nat} {req : DeploymentRequest}
  {q : Acceptance × Db} {now : Nat} {id env envType : String} {ids : Nat → String}

theorem putPlan_same (h : db.putPlan now id org app env actor generation = .ok db') : SameRecords db db' := by
  simp only [putPlan, bind_eq_ok] at h
  obtain ⟨_, _, _, _, _, _, h⟩ := h
  cases h
  exact ⟨rfl, rfl⟩

theorem insertPermit_same {p : Permit} (h : db.insertPermit p = .ok db') : SameRecords db db' := by
  simp only [insertPermit, bind_eq_ok] at h
  obtain ⟨_, _, h⟩ := h
  cases h
  exact ⟨rfl, rfl⟩

theorem foldlM_same {α : Type} {f : Db → α → Result Db} (hf : ∀ db a db', f db a = .ok db' → SameRecords db db') (as : List α)
    (h : as.foldlM f db = .ok db') : SameRecords db db' := by
  induction as generalizing db with
  | nil =>
    cases h
    exact ⟨rfl, rfl⟩
  | cons a as ih =>
    rw [List.foldlM_cons, bind_eq_ok] at h
    obtain ⟨db1, h1, h⟩ := h
    exact (hf db a db1 h1).trans (ih h)

theorem issuePermits_same {plan : String} {permits : List NewPermit}
    (h : db.issuePermits now ids org app env plan permits actor = .ok db') : SameRecords db db' := by
  simp only [issuePermits, bind_eq_ok] at h
  obtain ⟨_, _, _, _, _, _, _, _, _, _, _, _, _, _, _, _, _, _, h⟩ := h
  split at h
  · simp only [bind_eq_ok] at h
    obtain ⟨_, _, _, _, h⟩ := h
    exact foldlM_same (fun _ _ _ => insertPermit_same) _ h
  · simp only [bind_eq_ok] at h
    obtain ⟨_, _, h⟩ := h
    exact foldlM_same (fun _ _ _ => insertPermit_same) _ h

variable {u : PermitUse} {deployment : String} {error : Option String}

theorem consumePermit_same {q : Permit × Db} (h : db.consumePermit now u = .ok q) : SameRecords db q.2 := by
  simp only [consumePermit, bind_eq_ok] at h
  obtain ⟨_, _, _, _, _, _, found, _, h⟩ := h
  split at h
  · cases h
    exact ⟨rfl, rfl⟩
  · cases h
  · cases h

theorem usePermit_same (h : db.usePermit now u = .ok db') : SameRecords db db' := by
  simp only [usePermit, bind_eq_ok] at h
  obtain ⟨_, _, _, _, q, hq, h⟩ := h
  cases h
  exact consumePermit_same hq

theorem useDetachPermit_same {detach : Detach} (h : db.useDetachPermit now org app env detach = .ok db') :
    SameRecords db db' := by
  unfold useDetachPermit at h
  split at h
  · cases h
    exact ⟨rfl, rfl⟩
  · rename_i presented _
    cases hc : db.consumePermit now (detachUse org app env detach presented) with
    | error e => simp [hc, Except.map] at h
    | ok q =>
      simp only [hc, Except.map, Except.ok.injEq] at h
      exact h ▸ consumePermit_same hc

theorem bindEach_same {digests} (ids : List String) {q}
    (h : bindEach now app env envType generation deployment digests db ids = .ok q) : SameRecords db q.2 := by
  induction ids generalizing db q with
  | nil =>
    cases h
    exact ⟨rfl, rfl⟩
  | cons id ids ih =>
    simp only [bindEach, bind_eq_ok] at h
    obtain ⟨p, _, q', hq', h⟩ := h
    cases h
    exact ⟨(ih hq').operations, (ih hq').resources⟩

theorem bindPermits_same {binding : PermitBinding}
    (h : db.bindPermits now app env generation deployment binding = .ok db') : SameRecords db db' := by
  unfold bindPermits at h
  dsimp only at h
  split at h
  all_goals
    simp only [bind_eq_ok] at h
    obtain ⟨_, _, q, hq, _, _, h⟩ := h
    cases h
    exact bindEach_same _ hq

theorem insertEnv_same {taken : StoreError} (h : db.insertEnv app id envType taken = .ok db') : SameRecords db db' := by
  simp only [insertEnv, bind_eq_ok] at h
  obtain ⟨_, _, h⟩ := h
  cases h
  exact ⟨rfl, rfl⟩

theorem ensureEnvType_same (id : String) : SameRecords db (db.ensureEnvType id) := by
  unfold ensureEnvType
  split <;> exact ⟨rfl, rfl⟩

theorem createApp_same {owner : String} (h : db.createApp org id owner actor = .ok db') : SameRecords db db' := by
  simp only [createApp, bind_eq_ok] at h
  obtain ⟨_, _, _, _, _, _, db1, h1, _, _, h⟩ := h
  cases h
  have hsame := (ensureEnvType_same "development").trans (insertEnv_same h1)
  exact ⟨hsame.operations, hsame.resources⟩

theorem createEnv_same (h : db.createEnv org app id envType actor = .ok db') : SameRecords db db' := by
  simp only [createEnv, bind_eq_ok] at h
  obtain ⟨_, _, _, _, _, _, _, _, _, _, h⟩ := h
  exact insertEnv_same h

theorem freezeDelta_same (h : db.freezeDelta now req = .ok db') : SameRecords db db' := by
  unfold freezeDelta at h
  split at h
  · cases h
    exact ⟨rfl, rfl⟩
  · simp only [bind_eq_ok] at h
    obtain ⟨_, _, _, _, h⟩ := h
    cases h
    exact ⟨rfl, rfl⟩

theorem acceptNew_same (h : db.acceptNew now id req = .ok q) : SameRecords db q.2 := by
  simp only [acceptNew, bind_eq_ok] at h
  obtain ⟨_, _, db1, h1, db2, h2, _, _, h⟩ := h
  cases h
  have hsame := (freezeDelta_same h1).trans (bindPermits_same h2)
  exact ⟨hsame.operations, hsame.resources⟩

theorem acceptInTx_same (h : db.acceptInTx now id req = .ok q) : SameRecords db q.2 := by
  unfold acceptInTx at h
  split at h
  · split at h
    · cases h
    · cases h
      exact ⟨rfl, rfl⟩
  · exact acceptNew_same h

theorem acceptDeployment_same (h : db.acceptDeployment now id req = .ok q) : SameRecords db q.2 := by
  simp only [acceptDeployment, bind_eq_ok] at h
  obtain ⟨_, _, h⟩ := h
  exact acceptInTx_same h

theorem deleteEnv_same {req} {e : Env} (h : db.deleteEnv now id req e = .ok q) : SameRecords db q.2 := by
  unfold deleteEnv at h
  dsimp only at h
  split at h
  · split at h
    · cases h
      exact ⟨rfl, rfl⟩
    · cases h
  · simp only [bind_eq_ok] at h
    obtain ⟨_, _, h⟩ := h
    exact acceptInTx_same h

theorem deleteEnvs_same {req} (envs : List (Env × Nat)) {q} (h : deleteEnvs now ids req db envs = .ok q) :
    SameRecords db q.2 := by
  induction envs generalizing db q with
  | nil =>
    cases h
    exact ⟨rfl, rfl⟩
  | cons e envs ih =>
    obtain ⟨e, i⟩ := e
    simp only [deleteEnvs, bind_eq_ok] at h
    obtain ⟨q1, h1, q2, h2, h⟩ := h
    cases h
    have hrest := ih h2
    exact (deleteEnv_same h1).trans hrest

theorem acceptAppDeletion_same {req q} (h : db.acceptAppDeletion now ids req = .ok q) : SameRecords db q.2 := by
  simp only [acceptAppDeletion, bind_eq_ok] at h
  obtain ⟨_, _, _, _, _, _, _, _, q', h', h⟩ := h
  cases h
  have hsame := deleteEnvs_same _ h'
  dsimp only
  split <;> exact ⟨hsame.operations, hsame.resources⟩

theorem finishRemoval_same (h : db.finishRemoval app env = .ok db') : SameRecords (db.removeEnv app env) db' := by
  simp only [finishRemoval, bind_eq_ok] at h
  obtain ⟨row, _, h⟩ := h
  cases h
  split <;> exact ⟨rfl, rfl⟩

theorem finishError_eq_none {d : Deployment} (h : db.finishError d error = none) :
    error = none := by
  unfold finishError at h
  dsimp only at h
  split at h
  · cases h
  · exact h

theorem finishInTx_cases (h : db.finishInTx app env id error = .ok db') :
    SameRecords db db' ∨ error = none ∧ SameRecords (db.removeEnv app env) db' := by
  simp only [finishInTx, bind_eq_ok] at h
  obtain ⟨d, _, _, _, h⟩ := h
  split at h
  iterate 3
    · cases h
      exact .inl ⟨rfl, rfl⟩
  · rename_i herror
    have hremoved := finishRemoval_same h
    exact .inr ⟨finishError_eq_none herror, hremoved.operations, hremoved.resources⟩

theorem finishAll_same {error} (ds : List Deployment) (h : finishAll error db ds = .ok db') : SameRecords db db' := by
  induction ds generalizing db with
  | nil =>
    cases h
    exact ⟨rfl, rfl⟩
  | cons d ds ih =>
    simp only [finishAll, bind_eq_ok] at h
    obtain ⟨db1, h1, h⟩ := h
    rcases finishInTx_cases h1 with hsame | ⟨hnone, _⟩
    · exact hsame.trans (ih h)
    · cases hnone

end Db
end Openporch
