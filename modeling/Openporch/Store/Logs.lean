import Openporch.Planner.Log
import Openporch.Store.Frame

/-!
# The log of a deployment

The `logs` table of `crates/store/src/sqlite.rs`, beside the database. A deployment's lines are added only while it
is in progress, and its outcome is logged in the transaction that records it.
-/

namespace Openporch
open List Fallible
open Relation (ReflTransGen)

/-- A line that was logged: one of a batch or of a recovery, or the outcome of a deployment. -/
inductive LogText where
  | line (line : LogLine)
  | outcome (error : Option String)

def LogText.level : LogText → String
  | line l => l.level
  | outcome none => "info"
  | outcome (some _) => "error"

def LogText.message : LogText → String
  | line l => l.message
  | outcome none => "deployment succeeded"
  | outcome (some e) => "deployment failed: " ++ e

structure LogRow where
  app : String
  env : String
  deploymentId : String
  text : LogText

/-- The columns of a deployment that its log depends on. -/
structure DeploymentEnd where
  app : String
  env : String
  id : String
  status : DeploymentStatus
  error : Option String
deriving DecidableEq

def Deployment.ended (d : Deployment) : DeploymentEnd := ⟨d.app, d.env, d.id, d.status, d.error⟩

namespace DeploymentEnd
variable (d : DeploymentEnd)

abbrev row (text : LogText) : LogRow := ⟨d.app, d.env, d.id, text⟩

def finish (error : Option String) : DeploymentEnd :=
  { d with status := if error.isSome then .failed else .succeeded, error }

/-- The deployment's log, in the order of `seq`. -/
def log (rows : List LogRow) : List LogText :=
  (rows.filter fun r => r.app = d.app && r.env = d.env && r.deploymentId = d.id).map (·.text)

end DeploymentEnd

/-- The database, and the rows of the log in the order of `seq`. -/
structure LogStore where
  db : Db
  rows : List LogRow

namespace LogStore
variable (s : LogStore)

def logInTx (id : String) (text : LogText) : List LogRow :=
  (s.db.deployments.filter fun d => d.id = id && d.status = .inProgress).map (·.ended.row text)

def appendLogs (org app env id : String) (lines : List LogLine) : Result LogStore := do
  s.db.checkOrg org
  return { s with rows := s.rows ++ lines.flatMap fun line => (s.db.deployments.filter fun d =>
    d.app = app && d.env = env && d.id = id && d.status = .inProgress).map (·.ended.row (.line line)) }

def finishInTx (app env id : String) (error : Option String) : Result LogStore := do
  let db ← s.db.finishInTx app env id error
  let d ← orError (.notFound ("deployment `" ++ id ++ "`")) (s.db.deployment? app env id)
  let error := s.db.finishError d error
  let rows := s.rows ++ s.logInTx id (.outcome error)
  -- The log of an environment goes with it.
  return ⟨db, if d.kind = .deleteEnv && error.isNone then Table.delete (fun r => r.app = app && r.env = env) rows else rows⟩

def finishDeployment (org app env id : String) (error : Option String) : Result LogStore := do
  s.db.checkOrg org
  s.finishInTx app env id error

def closeAll (now : Int) (state : OperationState) (status : ResourceStatus) (error level message : String)
    (ops : List OperationRow) : LogStore where
  db := s.db.closeAll state status error ops
  rows := s.rows ++ ops.flatMap fun op => s.logInTx op.deploymentId (.line
    { seq := 0, operationId := some op.id, descriptor := (s.db.resourceOf? op.guresid).map (·.descriptor)
      guresid := some op.guresid, time := now, level, message })

def finishAll (error : Deployment → String) : LogStore → List Deployment → Result LogStore
  | s, [] => .ok s
  | s, d :: rest => do
    let s ← s.finishInTx d.app d.env d.id (some (error d))
    finishAll error s rest

def recoverInterrupted (now : Int) : Result LogStore :=
  let running := s.db.deployments.filter (·.status = .inProgress)
  let cleanups := s.db.operations.filter s.db.isCleanup
  let s := s.closeAll now .failed .deletionFailed "interrupted by a restart; cleanup pending" "warn"
    "deleted, but removing its record was interrupted by a restart; deploy again to finish the cleanup" cleanups
  let unstarted := s.db.operations.filter Db.isUnstarted
  let s := s.closeAll now .failed .failed "interrupted by a restart before the driver was called; nothing changed" "warn"
    "interrupted by a restart before the driver was called; nothing changed, so deploy again" unstarted
  let uncertain := (s.db.operations.filter (·.state = .started)).insertionSort fun a b => a.startedAt ≤ b.startedAt
  let s := s.closeAll now .unknown .unknown "interrupted by a restart" "error"
    "outcome unknown: interrupted by a restart; the resource needs recovery before it is deployed again" uncertain
  let count (ops : List OperationRow) (d : Deployment) := (ops.filter (·.deploymentId = d.id)).length
  finishAll (fun d => Db.interruptedError (count uncertain d + count cleanups d + count unstarted d)
    (count uncertain d) (count cleanups d) (count unstarted d)) s running

end LogStore

inductive LogTransaction where
  | append (org app env id : String) (lines : List LogLine)
  | finish (org app env id : String) (error : Option String)
  | recover (now : Int)
  /-- Any other transaction. It may accept deployments, under identifiers that no recorded one has. -/
  | other (db : Db)

structure LogView where
  deployments : List DeploymentEnd
  rows : List LogRow

def LogStore.view (s : LogStore) : LogView := ⟨s.db.deployments.map (·.ended), s.rows⟩

namespace LogView

def accepts (old new : List DeploymentEnd) : Bool :=
  old.isPrefixOf new && (new.drop old.length).all (·.status = .inProgress) && decide (new.map (·.id)).Nodup

end LogView

def LogTransaction.step (s : LogStore) : LogTransaction → LogStore
  | append org app env id lines => (s.appendLogs org app env id lines).toOption.getD s
  | finish org app env id error => (s.finishDeployment org app env id error).toOption.getD s
  | recover now => (s.recoverInterrupted now).toOption.getD s
  | other db => if LogView.accepts s.view.deployments (db.deployments.map (·.ended)) then { s with db } else s

/-- What a line does to the deployment whose log it is added to. -/
inductive DeploymentEnd.Logs (d : DeploymentEnd) : LogText → DeploymentEnd → Prop
  | line (l : LogLine) : Logs d (.line l) d
  | outcome (error : Option String) : Logs d (.outcome error) (d.finish error)

namespace LogView

inductive Write (v : LogView) : LogView → Prop
  | intro {d d' text} (hd : d ∈ v.deployments) (hrun : d.status = .inProgress) (hw : d.Logs text d') :
    Write v ⟨Table.update (· = d) (fun _ => d') v.deployments, v.rows ++ [d.row text]⟩

def remove (v : LogView) (app env : String) : LogView where
  deployments := Table.delete (fun d => d.app = app && d.env = env) v.deployments
  rows := Table.delete (fun r => r.app = app && r.env = env) v.rows

def Logged (rows : List LogRow) (d : DeploymentEnd) : Prop :=
  ∃ lines : List LogLine, if d.status = .inProgress then d.log rows = lines.map .line
    else d.log rows = lines.map .line ++ [.outcome d.error] ∧ d.status = if d.error.isSome then .failed else .succeeded

structure Inv (v : LogView) : Prop where
  ids : (v.deployments.map (·.id)).Nodup
  home : ∀ r ∈ v.rows, ∃ d ∈ v.deployments, r = d.row r.text
  logged : ∀ d ∈ v.deployments, Logged v.rows d

def Grows (v v' : LogView) : Prop :=
  ∀ d ∈ v.deployments, ∃ d' ∈ v'.deployments, d'.id = d.id ∧ d'.app = d.app ∧ d'.env = d.env ∧
    d.log v.rows <+: d'.log v'.rows ∧ (d.status ≠ .inProgress → d' = d ∧ d.log v'.rows = d.log v.rows)

variable {v v' v1 : LogView} {d e : DeploymentEnd} {text : LogText}

theorem log_write (rows : List LogRow) : e.log (rows ++ [d.row text]) =
    e.log rows ++ if d.app = e.app ∧ d.env = e.env ∧ d.id = e.id then [text] else [] := by
  rw [DeploymentEnd.log, filter_append, map_append]
  congr 1
  split_ifs with h
  · simp [h]
  · rw [filter_cons_of_neg, filter_nil, map_nil]
    simpa [and_assoc] using h

theorem Grows.trans (h : Grows v v1) (h' : Grows v1 v') : Grows v v' := by
  intro d hd
  obtain ⟨d1, hd1, hid, happ, henv, hlog, hdone⟩ := h d hd
  obtain ⟨d', hd', hid', happ', henv', hlog', hdone'⟩ := h' d1 hd1
  refine ⟨d', hd', hid'.trans hid, happ'.trans happ, henv'.trans henv, hlog.trans hlog', fun hne => ?_⟩
  obtain ⟨rfl, heq⟩ := hdone hne
  obtain ⟨rfl, heq'⟩ := hdone' hne
  exact ⟨rfl, heq'.trans heq⟩

theorem Grows.refl (v : LogView) : Grows v v := fun d hd => ⟨d, hd, rfl, rfl, rfl, prefix_rfl, fun _ => ⟨rfl, rfl⟩⟩

theorem Write.spec (h : v.Inv) (hw : Write v v') : v'.Inv ∧ Grows v v' := by
  obtain @⟨d, d', text, hd, hrun, hlogs⟩ := hw
  have hkey : d'.app = d.app ∧ d'.env = d.env ∧ d'.id = d.id := by cases hlogs <;> exact ⟨rfl, rfl, rfl⟩
  have hsame : ∀ rows, d'.log rows = d.log rows := fun rows => by
    rw [DeploymentEnd.log, hkey.1, hkey.2.1, hkey.2.2]
    rfl
  have hother : ∀ e ∈ v.deployments, e ≠ d → e.log (v.rows ++ [d.row text]) = e.log v.rows := fun e he hne => by
    rw [log_write, if_neg fun heq => hne (Table.eq_of_key h.ids he hd heq.2.2.symm), append_nil]
  have hown : d.log (v.rows ++ [d.row text]) = d.log v.rows ++ [text] := by
    rw [log_write, if_pos ⟨rfl, rfl, rfl⟩]
  refine ⟨⟨?_, fun r hr => ?_, fun e he => ?_⟩, fun e he => ?_⟩
  · rw [Table.keys_update]
    · exact h.ids
    · intro e he
      rw [of_decide_eq_true he, hkey.2.2]
  · have hold : ∃ e ∈ v.deployments, r = e.row r.text := by
      rcases mem_append.1 hr with hr | hr
      · exact h.home r hr
      · exact ⟨d, hd, mem_singleton.1 hr ▸ rfl⟩
    obtain ⟨e, he, heq⟩ := hold
    refine ⟨_, Table.mem_update.2 ⟨e, he, rfl⟩, heq.trans ?_⟩
    split_ifs with hed
    · rw [of_decide_eq_true hed, DeploymentEnd.row, DeploymentEnd.row, hkey.1, hkey.2.1, hkey.2.2]
    · rfl
  · obtain ⟨e0, he0, rfl⟩ := Table.mem_update.1 he
    by_cases hed : e0 = d
    · obtain ⟨lines, hlines⟩ := h.logged d hd
      rw [if_pos hrun] at hlines
      rw [if_pos (decide_eq_true hed), Logged]
      simp only [hsame, hown, hlines]
      cases hlogs with
      | line l => exact ⟨lines ++ [l], by simp [hrun]⟩
      | outcome error => exact ⟨lines, by cases error <;> simp [DeploymentEnd.finish]⟩
    · rw [if_neg (by simpa using hed), Logged]
      simp only [hother e0 he0 hed]
      exact h.logged e0 he0
  · by_cases hed : e = d
    · subst hed
      refine ⟨d', Table.mem_update.2 ⟨e, hd, if_pos (decide_eq_true rfl)⟩, hkey.2.2, hkey.1, hkey.2.1, ?_,
        fun hne => absurd hrun hne⟩
      rw [hsame, hown]
      exact prefix_append _ _
    · refine ⟨e, Table.mem_update.2 ⟨e, he, if_neg (by simpa using hed)⟩, rfl, rfl, rfl, ?_⟩
      rw [hother e he hed]
      exact ⟨prefix_rfl, fun _ => ⟨rfl, rfl⟩⟩

theorem writes_spec (h : v.Inv) (hw : ReflTransGen Write v v') : v'.Inv ∧ Grows v v' := by
  induction hw with
  | refl => exact ⟨h, .refl v⟩
  | tail _ hw ih =>
    obtain ⟨hinv, hgrows⟩ := hw.spec ih.1
    exact ⟨hinv, ih.2.trans hgrows⟩

theorem log_remove {app env : String} (hd : (decide (d.app = app) && decide (d.env = env)) = false) :
    d.log (v.remove app env).rows = d.log v.rows := by
  show ((Table.delete _ v.rows).filter _).map _ = _
  rw [Table.delete, filter_filter]
  refine congrArg _ (filter_congr fun r _ => ?_)
  by_cases h : (r.app = d.app && r.env = d.env && r.deploymentId = d.id) = true
  · simp only [Bool.and_eq_true, decide_eq_true_eq] at h
    rw [h.1.1, h.1.2, hd]
    simp
  · simp only [Bool.not_eq_true] at h
    rw [h]
    simp

theorem remove_inv (h : v.Inv) (app env : String) : (v.remove app env).Inv := by
  refine ⟨Table.nodup_delete h.ids, fun r hr => ?_, fun d hd => ?_⟩
  · obtain ⟨hr, hkept⟩ := Table.mem_delete.1 hr
    obtain ⟨d, hd, heq⟩ := h.home r hr
    refine ⟨d, Table.mem_delete.2 ⟨hd, ?_⟩, heq⟩
    rw [heq] at hkept
    exact hkept
  · obtain ⟨hd, hkept⟩ := Table.mem_delete.1 hd
    rw [Logged, log_remove hkept]
    exact h.logged d hd

theorem accept_inv (h : v.Inv) {new} (hacc : accepts v.deployments new = true) :
    Inv ⟨new, v.rows⟩ ∧ Grows v ⟨new, v.rows⟩ := by
  rw [accepts, Bool.and_eq_true, Bool.and_eq_true, isPrefixOf_iff_prefix, all_eq_true, decide_eq_true_eq] at hacc
  obtain ⟨⟨⟨added, rfl⟩, hrun⟩, hids⟩ := hacc
  rw [drop_left] at hrun
  refine ⟨⟨hids, fun r hr => ?_, fun d hd => ?_⟩, fun d hd => ⟨d, mem_append_left _ hd, rfl, rfl, rfl, prefix_rfl,
    fun _ => ⟨rfl, rfl⟩⟩⟩
  · obtain ⟨d, hd, heq⟩ := h.home r hr
    exact ⟨d, mem_append_left _ hd, heq⟩
  · rcases mem_append.1 hd with hold | hnew
    · exact h.logged d hold
    · -- No row has the identifier of a deployment that was not recorded.
      have hnone : d.log v.rows = [] := by
        rw [DeploymentEnd.log, map_eq_nil_iff, filter_eq_nil_iff]
        intro r hr hmine
        obtain ⟨e, he, heq⟩ := h.home r hr
        rw [heq] at hmine
        rw [map_append] at hids
        refine disjoint_of_nodup_append hids (mem_map_of_mem he) (mem_map.2 ⟨d, hnew, ?_⟩)
        simp only [Bool.and_eq_true, decide_eq_true_eq] at hmine
        exact hmine.2.symm
      refine ⟨[], ?_⟩
      rw [hnone, if_pos (of_decide_eq_true (hrun d hnew))]
      rfl

theorem update_self {ds} : Table.update (· = d) (fun _ => d) ds = ds := by
  refine (map_congr_left fun e _ => ?_).trans (map_id ds)
  split_ifs with h
  · exact (of_decide_eq_true h).symm
  · rfl

variable {ds : List Deployment} {rows : List LogRow}

theorem filter_one (h : Inv ⟨ds.map (·.ended), rows⟩) {p} {id : String} (hp : ∀ d, p d = true → d.id = id) :
    ds.filter p = [] ∨ ∃ d ∈ ds, p d = true ∧ ds.filter p = [d] := by
  have hids := h.ids
  rw [map_map] at hids
  have hle := Table.length_le_one ((filter_sublist (p := p)).map _ |>.nodup hids) fun a ha b hb =>
    (hp a (mem_filter.1 ha).2).trans (hp b (mem_filter.1 hb).2).symm
  rcases hf : ds.filter p with _ | ⟨d, _ | ⟨e, more⟩⟩
  · exact .inl rfl
  · have hd : d ∈ ds.filter p := by rw [hf]; exact mem_cons_self
    exact .inr ⟨d, (mem_filter.1 hd).1, (mem_filter.1 hd).2, rfl⟩
  · rw [hf, length_cons, length_cons] at hle
    omega

theorem filter_eq (h : Inv ⟨ds.map (·.ended), rows⟩) {p} {e : Deployment} (he : e ∈ ds)
    (hp : ∀ d, p d = true → d.id = e.id) (hpe : p e = true) : ds.filter p = [e] := by
  have hmem := mem_filter.2 ⟨he, hpe⟩
  rcases filter_one h hp with hnone | ⟨x, -, -, hone⟩
  · rw [hnone] at hmem
    cases hmem
  · rw [hone] at hmem
    rw [hone, mem_singleton.1 hmem]

theorem writes_lines {α : Type} (p : α → Deployment → Bool) (id : α → String) (line : α → LogLine)
    (hp : ∀ x d, p x d = true → d.id = id x ∧ d.status = .inProgress) (xs : List α) (h : Inv ⟨ds.map (·.ended), rows⟩) :
    ReflTransGen Write ⟨ds.map (·.ended), rows⟩
      ⟨ds.map (·.ended), rows ++ xs.flatMap fun x => (ds.filter (p x)).map (·.ended.row (.line (line x)))⟩ := by
  induction xs generalizing rows with
  | nil =>
    rw [flatMap_nil, append_nil]
  | cons x xs ih =>
    rw [flatMap_cons, ← append_assoc]
    have hfirst : ReflTransGen Write ⟨ds.map (·.ended), rows⟩
        ⟨ds.map (·.ended), rows ++ (ds.filter (p x)).map (·.ended.row (.line (line x)))⟩ := by
      rcases filter_one h fun d hd => (hp x d hd).1 with hnone | ⟨d, hd, hpd, hone⟩
      · rw [hnone, map_nil, append_nil]
      · have hw := Write.intro (v := ⟨ds.map (·.ended), rows⟩) (mem_map_of_mem hd) (hp x d hpd).2 (.line (line x))
        rw [update_self] at hw
        rw [hone]
        exact .single hw
    exact hfirst.trans (ih (writes_spec h hfirst).1)

end LogView

namespace Db
variable {db db' : Db} {app env id : String} {error : Option String}

theorem finishRemoval_deployments (h : db.finishRemoval app env = .ok db') :
    db'.deployments = (db.removeEnv app env).deployments := by
  simp only [finishRemoval, bind_eq_ok] at h
  obtain ⟨row, _, h⟩ := h
  cases h
  split <;> rfl

def withOutcome (db : Db) (app env id : String) (error : Option String) : Db := db.setDeployment app env id fun d =>
  { d with status := if error.isSome then .failed else .succeeded, error }

theorem finishInTx_deployments (h : db.finishInTx app env id error = .ok db') :
    ∃ d, db.deployment? app env id = some d ∧ d.status = .inProgress ∧
      let after := db.withOutcome app env id (db.finishError d error)
      db'.deployments = if d.kind = .deleteEnv && (db.finishError d error).isNone then (after.removeEnv app env).deployments
        else after.deployments := by
  simp only [finishInTx, bind_eq_ok, orError_eq_ok, refuseIf_eq_ok] at h
  obtain ⟨d, hd, _, hrun, h⟩ := h
  refine ⟨d, hd, by simpa using hrun, ?_⟩
  split at h
  · rename_i hkind _
    cases h
    rw [hkind]
    rfl
  · rename_i hkind _
    cases h
    rw [hkind]
    rfl
  · rename_i hkind herror
    cases h
    rw [hkind, herror]
    rfl
  · rename_i hkind herror
    rw [finishRemoval_deployments h, hkind, herror]
    rfl

theorem withOutcome_ended {d : Deployment} (hids : (db.deployments.map (·.id)).Nodup) (hd : d ∈ db.deployments) :
    (db.withOutcome d.app d.env d.id error).deployments.map (·.ended) =
      Table.update (· = d.ended) (fun _ => d.ended.finish error) (db.deployments.map (·.ended)) := by
  show (Table.update _ _ _).map _ = _
  rw [Table.update, Table.update, map_map, map_map]
  refine map_congr_left fun e he => ?_
  by_cases hed : e = d
  · subst hed
    simp [Deployment.ended, DeploymentEnd.finish]
  · have hid : e.id ≠ d.id := fun hid => hed (Table.eq_of_key hids he hd hid)
    simp [Deployment.ended, hid]

theorem closeAll_deployments (state : OperationState) (status : ResourceStatus) (error : String) (ops : List OperationRow) :
    (db.closeAll state status error ops).deployments = db.deployments := by
  induction ops generalizing db with
  | nil => rfl
  | cons op ops ih => exact ih

end Db

namespace LogStore
open LogView

variable {s s' : LogStore} {app env id : String} {error : Option String}

theorem finishInTx_spec (h : s.view.Inv) (hok : s.finishInTx app env id error = .ok s') :
    ∃ v, Write s.view v ∧ (s'.view = v ∨ error = none ∧ s'.view = v.remove app env) := by
  simp only [finishInTx, bind_eq_ok, orError_eq_ok] at hok
  obtain ⟨db, htx, d, hd, hok⟩ := hok
  obtain ⟨d', hd', hrun, hrows⟩ := Db.finishInTx_deployments htx
  cases hd'.symm.trans hd
  have hmem := mem_of_find?_eq_some hd
  have hkey := find?_some hd
  simp only [Bool.and_eq_true, decide_eq_true_eq] at hkey
  obtain ⟨⟨rfl, rfl⟩, rfl⟩ := hkey
  have hids := h.ids
  rw [view, map_map] at hids
  generalize herror : s.db.finishError d error = e at hrows hok
  dsimp only at hrows
  have hone : s.logInTx d.id (.outcome e) = [d.ended.row (.outcome e)] := by
    rw [logInTx, filter_eq h hmem (fun x hx => by simp_all) (by simp [hrun])]
    rfl
  rw [hone] at hok
  have hw := Write.intro (v := s.view) (mem_map_of_mem hmem) hrun (.outcome e)
  refine ⟨_, hw, ?_⟩
  cases hok
  by_cases hgone : (d.kind = .deleteEnv && e.isNone) = true
  · rw [if_pos hgone] at hrows
    rw [Bool.and_eq_true, Option.isNone_iff_eq_none] at hgone
    refine .inr ⟨Db.finishError_eq_none (herror.trans hgone.2), ?_⟩
    rw [view, hrows, if_pos (by simp [hgone]), LogView.remove, view, ← Db.withOutcome_ended hids hmem]
    simp only [Db.removeEnv, Table.delete, filter_map]
    rfl
  · rw [if_neg hgone] at hrows
    left
    rw [view, hrows, Db.withOutcome_ended hids hmem, if_neg hgone]
    rfl

theorem finishAll_writes {error} (ds : List Deployment) (h : s.view.Inv) (hok : finishAll error s ds = .ok s') :
    ReflTransGen Write s.view s'.view := by
  induction ds generalizing s with
  | nil =>
    cases hok
    exact .refl
  | cons d ds ih =>
    simp only [finishAll, bind_eq_ok] at hok
    obtain ⟨s1, h1, hok⟩ := hok
    obtain ⟨v, hw, rfl | ⟨hnone, -⟩⟩ := finishInTx_spec h h1
    · exact .head hw (ih (hw.spec h).1 hok)
    · cases hnone

theorem closeAll_writes (h : s.view.Inv) (now : Int) (state : OperationState) (status : ResourceStatus)
    (error level message : String) (ops : List OperationRow) :
    ReflTransGen Write s.view (s.closeAll now state status error level message ops).view := by
  rw [view, view, closeAll, Db.closeAll_deployments]
  exact writes_lines _ (·.deploymentId) _ (fun op d hd => by simpa using hd) ops h

theorem recoverInterrupted_writes {now : Int} (h : s.view.Inv) (hok : s.recoverInterrupted now = .ok s') :
    ReflTransGen Write s.view s'.view := by
  have close : ∀ {s1 : LogStore} {state status error level message ops}, ReflTransGen Write s.view s1.view →
      ReflTransGen Write s.view (s1.closeAll now state status error level message ops).view :=
    fun hs => hs.trans (closeAll_writes (writes_spec h hs).1 ..)
  have finish : ∀ {s1 : LogStore} {error ds}, finishAll error s1 ds = .ok s' → ReflTransGen Write s.view s1.view →
      ReflTransGen Write s.view s'.view := fun hok hs => hs.trans (finishAll_writes _ (writes_spec h hs).1 hok)
  simp only [recoverInterrupted] at hok
  exact finish hok (close (close (close .refl)))

theorem finishInTx_db : (s.finishInTx app env id error).map (·.db) = s.db.finishInTx app env id error := by
  unfold finishInTx
  cases htx : s.db.finishInTx app env id error with
  | error => rfl
  | ok db =>
    obtain ⟨d, hd, -⟩ := Db.finishInTx_deployments htx
    rw [ok_bind, hd]
    rfl

theorem finishAll_db {error} (ds : List Deployment) :
    (finishAll error s ds).map (·.db) = Db.finishAll error s.db ds := by
  induction ds generalizing s with
  | nil => rfl
  | cons d ds ih =>
    rw [finishAll, Db.finishAll, ← finishInTx_db]
    cases s.finishInTx d.app d.env d.id (some (error d)) with
    | error => rfl
    | ok s' => exact ih

/-- The recovery does to the database what it does without the log. -/
theorem recoverInterrupted_db (now : Int) :
    (s.recoverInterrupted now).map (·.db) = s.db.recoverInterrupted.map (·.2) := by
  have hreported : ∀ (x : Result Db) (report : RecoveryReport),
      x = ((do let db ← x; return (report, db)) : Result (RecoveryReport × Db)).map (·.2) := by
    intro x report
    cases x with
    | error => rfl
    | ok => rfl
  exact (finishAll_db _).trans (hreported _ _)

theorem append_log {d : DeploymentEnd} (h : s.view.Inv) (hd : d ∈ s.view.deployments) (hrun : d.status = .inProgress)
    (lines : List LogLine) :
    d.log ((LogTransaction.append s.db.org d.app d.env d.id lines).step s).rows = d.log s.rows ++ lines.map .line := by
  obtain ⟨e, he, rfl⟩ := mem_map.1 hd
  have horg : s.db.checkOrg s.db.org = .ok () := refuseIf_eq_ok.2 (by simp)
  rw [LogTransaction.step, appendLogs, horg]
  show e.ended.log (s.rows ++ lines.flatMap _) = _
  simp only [filter_eq h he (p := fun d => d.app = e.ended.app && d.env = e.ended.env && d.id = e.ended.id &&
    d.status = .inProgress) (fun x hx => by simp_all [Deployment.ended]) (by simpa [Deployment.ended] using hrun)]
  generalize s.rows = rows
  induction lines generalizing rows with
  | nil => simp
  | cons l lines ih =>
    rw [flatMap_cons, ← append_assoc, ih, map_singleton, log_write, if_pos ⟨rfl, rfl, rfl⟩, append_assoc]
    rfl

end LogStore

namespace LogView

def Kept (v v' : LogView) (d : DeploymentEnd) : Prop :=
  (∃ d' ∈ v'.deployments, d'.id = d.id ∧ d.log v.rows <+: d'.log v'.rows ∧
    (d.status ≠ .inProgress → d' = d ∧ d.log v'.rows = d.log v.rows)) ∨
  (∀ d' ∈ v'.deployments, ¬ (d'.app = d.app ∧ d'.env = d.env)) ∧ d.log v'.rows = []

variable {v v' v1 : LogView} {d : DeploymentEnd}

theorem Grows.kept (h : Grows v v') (hd : d ∈ v.deployments) : Kept v v' d := by
  obtain ⟨d', hd', hid, -, -, hlog⟩ := h d hd
  exact .inl ⟨d', hd', hid, hlog⟩

theorem Grows.kept_remove (h : Grows v v1) (app env : String) (hd : d ∈ v.deployments) : Kept v (v1.remove app env) d := by
  obtain ⟨d', hd', hid, happ, henv, hlog, hdone⟩ := h d hd
  by_cases hgone : d.app = app ∧ d.env = env
  · refine .inr ⟨fun e he => ?_, ?_⟩
    · obtain ⟨-, hkept⟩ := Table.mem_delete.1 he
      rw [hgone.1, hgone.2]
      simpa using hkept
    · rw [DeploymentEnd.log, map_eq_nil_iff, filter_eq_nil_iff]
      intro r hr
      obtain ⟨-, hkept⟩ := Table.mem_delete.1 hr
      rw [hgone.1, hgone.2, hkept]
      simp
  · have hstays : (decide (d'.app = app) && decide (d'.env = env)) = false := by
      simpa [happ, henv] using hgone
    refine .inl ⟨d', Table.mem_delete.2 ⟨hd', hstays⟩, hid, ?_⟩
    rw [log_remove hstays]
    refine ⟨hlog, fun hne => ?_⟩
    obtain ⟨rfl, heq⟩ := hdone hne
    exact ⟨rfl, (log_remove hstays).trans heq⟩

end LogView

open LogView

theorem LogTransaction.step_spec {s : LogStore} (h : s.view.Inv) (ev : LogTransaction) :
    (ev.step s).view.Inv ∧ ∀ d ∈ s.view.deployments, s.view.Kept (ev.step s).view d := by
  have same : s.view.Inv ∧ ∀ d ∈ s.view.deployments, s.view.Kept s.view d := ⟨h, fun _ hd => (Grows.refl _).kept hd⟩
  have written : ∀ {s' : LogStore}, ReflTransGen Write s.view s'.view →
      s'.view.Inv ∧ ∀ d ∈ s.view.deployments, s.view.Kept s'.view d := fun hw =>
    ⟨(writes_spec h hw).1, fun _ hd => (writes_spec h hw).2.kept hd⟩
  cases ev with
  | append org app env id lines =>
    rw [step]
    cases hok : s.appendLogs org app env id lines with
    | error => exact same
    | ok s' =>
      simp only [LogStore.appendLogs, bind_eq_ok] at hok
      obtain ⟨_, -, hok⟩ := hok
      cases hok
      exact written (writes_lines (fun _ d => d.app = app && d.env = env && d.id = id && d.status = .inProgress) (fun _ => id) _
        (fun _ d hd => by simp at hd; exact ⟨hd.1.2, hd.2⟩) lines h)
  | finish org app env id error =>
    rw [step]
    cases hok : s.finishDeployment org app env id error with
    | error => exact same
    | ok s' =>
      simp only [LogStore.finishDeployment, bind_eq_ok] at hok
      obtain ⟨_, -, hok⟩ := hok
      obtain ⟨v, hw, hv | ⟨-, hv⟩⟩ := LogStore.finishInTx_spec h hok
      · exact written (hv ▸ .single hw)
      · obtain ⟨hinv, hgrows⟩ := hw.spec h
        show s'.view.Inv ∧ ∀ d ∈ s.view.deployments, s.view.Kept s'.view d
        rw [hv]
        exact ⟨remove_inv hinv app env, fun _ hd => hgrows.kept_remove app env hd⟩
  | recover now =>
    rw [step]
    cases hok : s.recoverInterrupted now with
    | error => exact same
    | ok s' => exact written (LogStore.recoverInterrupted_writes h hok)
  | other db =>
    rw [step]
    split_ifs with hacc
    · obtain ⟨hinv, hgrows⟩ := accept_inv h hacc
      exact ⟨hinv, fun _ hd => hgrows.kept hd⟩
    · exact same

/-- A finished deployment's log has one outcome, its own and last; a log keeps its lines and, once finished, gets no
more, until its environment is removed; and a batch is added in its order after the lines before. -/
theorem logs_complete (db : Db) (events : List LogTransaction) :
    let init : LogStore := ⟨{ db with deployments := [] }, []⟩
    let s := Transition.after LogTransaction.step init events
    (∀ d ∈ s.db.deployments, d.status ≠ .inProgress → ∃ lines : List LogLine,
      d.ended.log s.rows = lines.map .line ++ [.outcome d.error] ∧ d.status = if d.error.isSome then .failed else .succeeded) ∧
    ∀ t ∈ Transition.taken LogTransaction.step init events, ∀ d ∈ t.before.view.deployments,
      t.before.view.Kept t.after.view d ∧
      ∀ lines, t.event = .append t.before.db.org d.app d.env d.id lines → d.status = .inProgress →
        d.log t.after.rows = d.log t.before.rows ++ lines.map .line := by
  intro init s
  have hrun : ∀ events, (Transition.after LogTransaction.step init events).view.Inv :=
    Transition.invariant (I := fun s : LogStore => s.view.Inv) ⟨nodup_nil, fun _ hr => absurd hr not_mem_nil,
      fun _ hd => absurd hd not_mem_nil⟩
      fun _ (ev : LogTransaction) h => (ev.step_spec h).1
  refine ⟨fun d hd hne => ?_, ?_⟩
  · obtain ⟨lines, hlines⟩ := (hrun events).logged d.ended (mem_map_of_mem hd)
    exact ⟨lines, (if_neg hne).mp hlines⟩
  · clear s
    induction events with
    | nil =>
      intro t ht
      cases ht
    | cons ev earlier ih =>
      refine forall_mem_cons.2 ⟨fun d hd => ⟨(ev.step_spec (hrun earlier)).2 d hd, fun lines hev hd' => ?_⟩, ih⟩
      dsimp only at hev hd
      subst hev
      exact LogStore.append_log (hrun earlier) hd hd' lines

def shopDb (deployments : List Deployment) : Db :=
  { org := "acme", principals := [], envTypes := [], apps := [{ id := "shop", state := .active }], sets := []
    envs := [{ app := "shop", id := "dev", envType := "development", generation := 1, desiredSetId := none
               lastSuccessfulSetId := none, lastSuccessfulDeployId := none, state := .deleting }]
    deltas := [], plans := [], permits := [], deployments, runs := [], resources := [], operations := [], tombstones := [] }

def shopDeployment (id : String) (kind : DeploymentKind) (status : DeploymentStatus) : Deployment :=
  { app := "shop", env := "dev", id, seq := 1, kind, actor := "ada", setId := none, deltaId := none, generation := 1, status
    idempotencyKey := none, requestFingerprint := none, snapshot := .null, error := none }

/-- A deployment succeeds, and then the deletion of its environment. -/
theorem finished_log_removed : ∃ t ∈ Transition.taken LogTransaction.step ⟨shopDb [], []⟩
      [.finish "acme" "shop" "dev" "d-2" none,
        .other (shopDb [shopDeployment "d-1" .deploy .succeeded, shopDeployment "d-2" .deleteEnv .inProgress]),
        .finish "acme" "shop" "dev" "d-1" none, .other (shopDb [shopDeployment "d-1" .deploy .inProgress])],
    ∃ d ∈ t.before.view.deployments, d.status ≠ .inProgress ∧ (d.log t.before.rows).length = 1 ∧
      (d.log t.after.rows).length = 0 ∧ (t.before.db.env? "shop" "dev").isSome ∧ t.after.db.env? "shop" "dev" = none :=
  ⟨_, mem_cons_self, (shopDeployment "d-1" .deploy .succeeded).ended, by decide +kernel⟩

end Openporch
