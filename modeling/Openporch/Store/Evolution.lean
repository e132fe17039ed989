import Openporch.Store.Frame
import Openporch.Store.Journal

/-!
# Every transaction moves the journal

One theorem for each transaction that writes resources or operations. The rights it needs are its caller's:
who may record a failure, and which identifiers were drawn for it.
-/

namespace Openporch
open List Fallible
open Journal (Status Phase Rights Writes Move Moves Agree)

namespace Db
variable {db db' : Db} {rights : Rights String String}

theorem SameRecords.evolves (hsame : SameRecords db db') (h : db.Sound) : Evolves rights db db' :=
  h.same hsame.operations hsame.resources

variable {op o : OperationRow} {actor : Option String} {app : String} {r : Resource} {newGuresid : Guresid}
  {id error env : String} {state : OperationState} {status : ResourceStatus} {now : Nat} {ops : List OperationRow}
  {start : OperationStart}

theorem operation_eq_ok (h : db.operation id = .ok op) : op.id = id ∧ db.operation? op.id = some op := by
  rw [Db.operation, orError_eq_ok] at h
  have hid := operation?_id h
  exact ⟨hid, hid ▸ h⟩

theorem Sound.close (h : db.Sound) (hop : db.operation? op.id = some op) (hopen : op.isOpen = true)
    (hstatus : status.journal = state.status) (hstopped : state ≠ .started)
    (hfailed : state = .failed → rights.own op.id ∨ op.state = .started ∧ db.armed op = false) :
    Evolves rights db (db.close op state status error) :=
  h.update (fun o => { o with state, error := some error }) (fun r => { r with status }) hop hopen
    (fun _ => ⟨rfl, rfl, rfl, rfl, fun _ => rfl⟩) (fun _ => ⟨rfl, rfl⟩) rfl rfl (fun _ => hstatus) hstopped hfailed

theorem armed_congr
    (h : (db'.resourceOf? o.guresid).map (·.cleanupPending) = (db.resourceOf? o.guresid).map (·.cleanupPending)) :
    db'.armed o = db.armed o := by
  cases hk : o.kind with
  | put => simp only [armed, hk]
  | delete =>
    simp only [armed, hk]
    cases hr : db.resourceOf? o.guresid with
    | none => cases hr' : db'.resourceOf? o.guresid <;> simp_all
    | some r => cases hr' : db'.resourceOf? o.guresid <;> simp_all

theorem close_operation?_ne {i : String} (hi : i ≠ op.id) : (db.close op state status error).operation? i = db.operation? i :=
  operation?_setOperation_ne (by exact fun _ => rfl) hi

theorem close_armed : (db.close op state status error).armed o = db.armed o := by
  refine armed_congr ?_
  change ((db.setResource op.guresid fun r => { r with status }).resourceOf? o.guresid).map (·.cleanupPending) = _
  by_cases hg : o.guresid = op.guresid
  · rw [hg, resourceOf?_setResource_self]
    · cases db.resourceOf? op.guresid <;> rfl
    · exact fun _ => rfl
  · rw [resourceOf?_setResource_ne _ hg]
    exact fun _ => rfl

theorem Sound.closeAll (hstatus : status.journal = state.status) (hstopped : state ≠ .started) (ops : List OperationRow)
    (hids : (ops.map (·.id)).Nodup) (h : db.Sound)
    (hops : ∀ o ∈ ops, db.operation? o.id = some o ∧ o.state = .started ∧ (state = .failed → db.armed o = false)) :
    Evolves rights db (db.closeAll state status error ops) := by
  induction ops generalizing db with
  | nil => exact .refl h
  | cons op ops ih =>
    obtain ⟨hop, hstarted, hquiet⟩ := hops op mem_cons_self
    rw [map_cons, nodup_cons] at hids
    have hopen : op.isOpen = true := by
      rw [OperationRow.isOpen, hstarted]
      rfl
    have hclose : Evolves rights db (db.close op state status error) :=
      h.close hop hopen hstatus hstopped fun hf => .inr ⟨hstarted, hquiet hf⟩
    refine hclose.trans (ih hids.2 hclose.sound ?_)
    intro o ho
    obtain ⟨ho', hst, hq⟩ := hops o (mem_cons_of_mem _ ho)
    have hne : o.id ≠ op.id := fun e => hids.1 (e ▸ mem_map_of_mem ho)
    exact ⟨by rw [close_operation?_ne hne, ho'], hst, fun hf => by rw [close_armed, hq hf]⟩

variable {recovery : Json} {resolution : Resolution} {org descriptor : String} {g : Guresid} {ids : Nat → String}
  {x : List UncertainOperation × Db}

theorem recordOperationInputs_evolves (h : db.Sound) (htx : db.recordOperationInputs id recovery = .ok db')
    (hinputs : hasInputs recovery = true) (hplain : isRestored recovery = false) : Evolves rights db db' := by
  simp only [recordOperationInputs, bind_eq_ok, refuseIf_eq_ok] at htx
  obtain ⟨op, hop, _, hstarted, htx⟩ := htx
  cases htx
  obtain ⟨rfl, hrow⟩ := operation_eq_ok hop
  simp only [ne_eq, decide_not, Bool.not_eq_false', decide_eq_true_eq] at hstarted
  have hopen : op.isOpen = true := by
    rw [OperationRow.isOpen, hstarted]
    rfl
  have hkeeps : KeepsOperation fun o => { o with recovery } :=
    fun _ => ⟨rfl, rfl, rfl, rfl, fun hr => absurd hr (by simp [hplain])⟩
  refine h.turn (h.toRows.updateOperations hkeeps rfl rfl) { op with recovery } hrow hopen ?_ rfl ?_ ?_ ?_ ?_ ?_
  · rw [operation?_setOperation_self fun o => (hkeeps o).1, hrow]
    rfl
  · exact fun i hi => operation?_setOperation_ne (fun o => (hkeeps o).1) hi
  · exact fun g _ => rfl
  · left
    have hmirror := h.agree.mirrored (entry_eq hrow) (by rw [phase_isOpen, hopen])
    rw [phase_status] at hmirror
    exact hmirror
  · intro _
    refine ⟨hstarted, fun harmed => ?_⟩
    cases hk : op.kind with
    | put => simp only [armed, hinputs]
    | delete =>
      simp only [armed, hk] at harmed ⊢
      exact harmed
  · intro hf
    simp [hstarted] at hf

theorem bury_resourceOf? (hrows : db.Rows) (r : Resource) (reason : TombstoneReason) (g : String) :
    (db.bury r reason).resourceOf? g = (db.resourceOf? g).filter fun r' => !decide (r'.guresid = r.guresid) :=
  Table.find?_delete hrows.guresids

theorem keepPin_same (op : OperationRow) (descriptor : String) (pin : Option Json) :
    SameRecords db (db.keepPin op descriptor pin) := by
  cases pin with
  | none => exact ⟨rfl, rfl⟩
  | some pin => exact ⟨rfl, rfl⟩

theorem CheckpointResult.state_ne_started (result : CheckpointResult) : CheckpointResult.state result ≠ .started := by
  cases result <;> simp [CheckpointResult.state]

theorem checkpointInTx_evolves {result} (h : db.Sound) (htx : db.checkpointInTx id result = .ok db')
    (hown : CheckpointResult.state result = .failed → rights.own id) : Evolves rights db db' := by
  simp only [checkpointInTx, bind_eq_ok, refuseIf_eq_ok, orError_eq_ok] at htx
  obtain ⟨op, hop, _, hopen, _, _, r, hr, htx⟩ := htx
  cases htx
  obtain ⟨rfl, hrow⟩ := operation_eq_ok hop
  simp only [Bool.not_eq_false'] at hopen
  let ended (o : OperationRow) : OperationRow :=
    { o with state := CheckpointResult.state result, error := CheckpointResult.error? result }
  have hkeeps : KeepsOperation ended := fun _ => ⟨rfl, rfl, rfl, rfl, fun _ => rfl⟩
  have hfailed : (ended op).state = .failed → rights.own op.id ∨ op.state = .started ∧ db.armed op = false :=
    fun hf => .inl (hown hf)
  have hstopped := CheckpointResult.state_ne_started result
  cases result with
  | provisioned p =>
    refine h.update ended (provisionedColumns op p) hrow hopen hkeeps (fun _ => ⟨rfl, rfl⟩) ?_ ?_
      (fun _ => rfl) hstopped hfailed
    · exact congrArg (Table.update _ ended) (keepPin_same op r.descriptor p.pin).operations
    · exact (keepPin_same op r.descriptor p.pin).resources
  | deleted =>
    have hguresid := resourceOf?_guresid hr
    have hrows : (db.bury r .deleted).Rows := h.toRows.deleteResources rfl rfl
    refine h.turn (hrows.updateOperations hkeeps rfl rfl) (ended op) hrow hopen ?_ rfl ?_ ?_ (.inr ⟨?_, rfl⟩)
      (fun hst => absurd hst hstopped) hfailed
    · exact (operation?_setOperation_self fun o => (hkeeps o).1).trans (congrArg (Option.map ended) hrow)
    · exact fun i hi => operation?_setOperation_ne (fun o => (hkeeps o).1) hi
    · intro g hg
      refine (bury_resourceOf? h.toRows r .deleted g).trans ?_
      cases hr' : db.resourceOf? g with
      | none => rfl
      | some r' => simp [resourceOf?_guresid hr', hguresid, hg]
    · have hgone : (db.bury r .deleted).resourceOf? op.guresid = none := by
        rw [bury_resourceOf? h.toRows, hr]
        simp
      exact congrArg (Option.map _) hgone
  | failed e =>
    refine h.update ended (fun r => { r with status := op.kind.failedStatus }) hrow hopen hkeeps
      (fun _ => ⟨rfl, rfl⟩) rfl rfl (fun _ => ?_) hstopped hfailed
    cases hk : op.kind <;> rfl
  | cleanupPending e =>
    exact h.update ended (fun r => { r with cleanupPending := true, status := .deletionFailed }) hrow hopen hkeeps
      (fun _ => ⟨rfl, rfl⟩) rfl rfl (fun _ => rfl) hstopped hfailed
  | unknown e cookie =>
    exact h.update ended (fun r => { r with cookie := cookie.or r.cookie, status := .unknown }) hrow hopen hkeeps
      (fun _ => ⟨rfl, rfl⟩) rfl rfl (fun _ => rfl) hstopped hfailed

theorem restored?_eq_some {text : String} (h : restored? op = .ok (some text)) :
    isRestored op.recovery = true ∧ restoredStatus op.recovery = .ok text := by
  unfold restored? at h
  split at h
  · rename_i hr
    cases hs : restoredStatus op.recovery with
    | error e => simp [hs, Except.map] at h
    | ok s =>
      simp only [hs, Except.map, Except.ok.injEq, Option.some.injEq] at h
      exact ⟨hr, by rw [h]⟩
  · cases h

def Resolution.repeats : Resolution → Bool
  | .repeatable _ | .operator _ => true
  | .observed _ | .confirmed | .recoveryRequired _ => false

theorem repeatLater_evolves {deployment : String} (h : db.Sound) (hop : db.operation? op.id = some op)
    (hopen : op.isOpen = true) (hown : rights.own op.id) : Evolves rights db (db.repeatLater op deployment error) := by
  refine h.update (fun o => { o with state := .failed, error := some error })
    (fun r => { r with status := op.kind.failedStatus }) hop hopen (fun _ => ⟨rfl, rfl, rfl, rfl, fun _ => rfl⟩)
    (fun _ => ⟨rfl, rfl⟩) rfl rfl (fun _ => ?_) (by simp) fun _ => .inl hown
  cases hk : op.kind <;> rfl

theorem resolveAs_evolves {restored : Option String} (h : db.Sound)
    (hop : db.operation? op.id = some op) (hunknown : op.state = .unknown) (hrestored : restored? op = .ok restored)
    (htx : db.resolveAs op restored actor resolution = .ok db')
    (hown : Resolution.repeats resolution = true → rights.own op.id) : Evolves rights db db' := by
  have hopen : op.isOpen = true := by
    rw [OperationRow.isOpen, hunknown]
    rfl
  cases resolution with
  | observed result =>
    refine checkpointInTx_evolves h htx ?_
    -- a failure is not recorded over an unknown outcome
    intro hfailed
    simp only [resolveAs, checkpointInTx, bind_eq_ok, Db.operation, orError_eq_ok, hop] at htx
    obtain ⟨_, hop', _, _, _, hresult, _⟩ := htx
    cases hop'
    cases result with
    | provisioned p => cases hfailed
    | deleted => cases hfailed
    | failed e => simp [checkResult, refuseIf, hunknown] at hresult
    | cleanupPending e => cases hk : op.kind <;> simp [checkResult, hunknown, hk] at hresult
    | unknown e cookie => cases hfailed
  | repeatable reason =>
    cases htx
    exact repeatLater_evolves h hop hopen (hown rfl)
  | operator reason =>
    simp only [resolveAs, bind_eq_ok] at htx
    obtain ⟨_, _, _, _, htx⟩ := htx
    cases htx
    exact repeatLater_evolves h hop hopen (hown rfl)
  | recoveryRequired reason =>
    cases htx
    refine h.update (fun o => { o with error := some ("recovery required: " ++ reason) })
      (fun r => { r with status := .recoveryRequired }) hop hopen (fun _ => ⟨rfl, rfl, rfl, rfl, fun _ => rfl⟩)
      (fun _ => ⟨rfl, rfl⟩) rfl rfl (fun _ => ?_) ?_ fun hf => ?_
    · simp only [hunknown]
      rfl
    · simp [hunknown]
    · simp [hunknown] at hf
  | confirmed =>
    simp only [resolveAs, bind_eq_ok, orError_eq_ok] at htx
    obtain ⟨text, rfl, status, hparse, htx⟩ := htx
    cases htx
    obtain ⟨hr, htext⟩ := restored?_eq_some hrestored
    obtain ⟨st, hidle, hst⟩ := h.restored op (h.toRows.operation?_iff.1 hop).1 hr
    obtain rfl : st.text = text := by simpa [hst] using htext
    rw [ResourceStatus.parse?_text, Option.some.injEq] at hparse
    subst hparse
    exact h.update (fun o => { o with state := .succeeded, error := none }) (fun r => { r with status := st }) hop hopen
      (fun _ => ⟨rfl, rfl, rfl, rfl, fun _ => rfl⟩) (fun _ => ⟨rfl, rfl⟩) rfl rfl (fun _ => hidle) (by simp)
      fun hf => by simp at hf

theorem resolveOperation_evolves (h : db.Sound)
    (htx : db.resolveOperation id resolution actor = .ok db') (hown : Resolution.repeats resolution = true → rights.own id) :
    Evolves rights db db' := by
  simp only [resolveOperation, bind_eq_ok, refuseIf_eq_ok] at htx
  obtain ⟨op, hop, restored, hrestored, _, hunknown, htx⟩ := htx
  obtain ⟨rfl, hrow⟩ := operation_eq_ok hop
  simp only [ne_eq, decide_not, Bool.not_eq_false', decide_eq_true_eq] at hunknown
  split at htx
  · cases htx
  · exact resolveAs_evolves h hrow hunknown hrestored htx hown

theorem keepRecoveryCookie_evolves {observedWith : Option Sealed} {cookie : Sealed} (h : db.Sound) :
    Evolves rights db (db.keepRecoveryCookie id observedWith cookie) := by
  unfold keepRecoveryCookie
  split
  · exact .refl h
  · refine h.columns (fun r => if r.cookie = observedWith then { r with cookie := some cookie } else r) ?_ ?_ ?_ rfl rfl
    · intro r
      dsimp only
      split <;> exact ⟨rfl, rfl⟩
    · intro r
      split <;> rfl
    · intro r
      split <;> rfl

theorem scheduleDeletion_evolves (h : db.Sound)
    (htx : db.scheduleDeletion org app env descriptor actor = .ok db') : Evolves rights db db' := by
  simp only [scheduleDeletion, bind_eq_ok] at htx
  obtain ⟨_, _, _, _, _, _, r, _, _, _, htx⟩ := htx
  split at htx
  · cases htx
    exact .refl h
  · split at htx
    · cases htx
    · cases htx
      exact h.columns (fun r => { r with scheduledDeletion := true }) (fun _ => ⟨rfl, rfl⟩) (fun _ => rfl)
        (fun _ => rfl) rfl rfl

theorem detachResource_evolves {detach : Detach} (h : db.Sound)
    (htx : db.detachResource now org app env detach actor = .ok db') : Evolves rights db db' := by
  simp only [detachResource, bind_eq_ok] at htx
  obtain ⟨_, _, _, _, htx⟩ := htx
  split at htx
  · cases htx
  · simp only [bind_eq_ok, orError_eq_ok] at htx
    obtain ⟨r, hr, _, _, htx⟩ := htx
    split at htx
    · cases htx
    · rename_i hnone
      simp only [bind_eq_ok] at htx
      obtain ⟨db1, hpermit, htx⟩ := htx
      cases htx
      have hsame : SameRecords db db1 := useDetachPermit_same hpermit
      have hused : Evolves rights db db1 := hsame.evolves h
      refine hused.trans (hused.sound.dropResources rfl rfl ?_)
      intro o ho r' hr' hg hopen hgone
      rw [hsame.operations] at ho
      refine absurd (find?_eq_none.1 hnone o ho) ?_
      simp only [decide_eq_true_eq] at hgone
      simp [hopen, ← hg, hgone]

theorem removeEnv_evolves (h : db.Sound) : Evolves rights db (db.removeEnv app env) := by
  refine h.drop rfl rfl ?_ ?_
  · intro o ho r hr hg hp
    obtain ⟨happ, henv⟩ := h.home o ho r hr hg
    rw [happ, henv]
    exact hp
  · intro o ho r hr hg _ hq
    obtain ⟨happ, henv⟩ := h.home o ho r hr hg
    rw [happ, henv] at hq
    exact hq

theorem finishInTx_evolves {error : Option String} (h : db.Sound) (htx : db.finishInTx app env id error = .ok db') :
    Evolves rights db db' := by
  rcases finishInTx_cases htx with hsame | ⟨_, hsame⟩
  · exact hsame.evolves h
  · have hremoved : Evolves rights db (db.removeEnv app env) := removeEnv_evolves h
    exact hremoved.trans (hsame.evolves hremoved.sound)

theorem Sound.closeSelected (h : db.Sound) (state : OperationState) (status : ResourceStatus) (error : String)
    (hstatus : status.journal = state.status) (hstopped : state ≠ .started) {p}
    (hperm : ops.Perm (db.operations.filter p))
    (hp : ∀ o, p o = true → o.state = .started ∧ (state = .failed → db.armed o = false)) :
    Evolves rights db (db.closeAll state status error ops) := by
  have hids : ((db.operations.filter p).map (·.id)).Nodup := h.ids.sublist (filter_sublist.map _)
  refine Sound.closeAll hstatus hstopped ops ((hperm.map _).nodup_iff.2 hids) h ?_
  intro o ho
  obtain ⟨hmem, hpo⟩ := mem_filter.1 (hperm.mem_iff.1 ho)
  exact ⟨h.toRows.operation? hmem, hp o hpo⟩

theorem isCleanup_quiet (h : db.isCleanup o = true) : o.state = .started ∧ db.armed o = false := by
  simp only [isCleanup, Bool.and_eq_true, decide_eq_true_eq] at h
  obtain ⟨⟨hst, hk⟩, hpending⟩ := h
  exact ⟨hst, by simp [armed, hk, hpending]⟩

theorem isUnstarted_quiet (h : isUnstarted o = true) : o.state = .started ∧ db.armed o = false := by
  simp only [isUnstarted, Bool.and_eq_true, decide_eq_true_eq, Bool.not_eq_true'] at h
  obtain ⟨⟨hst, hk⟩, hinputs⟩ := h
  exact ⟨hst, by simp [armed, hk, hinputs]⟩

theorem recoverInterrupted_evolves {q} (h : db.Sound) (htx : db.recoverInterrupted = .ok q) :
    Evolves rights db q.2 := by
  simp only [recoverInterrupted, bind_eq_ok] at htx
  obtain ⟨db4, hfinish, htx⟩ := htx
  cases htx
  have hcleanups : Evolves rights db _ :=
    h.closeSelected .failed .deletionFailed "interrupted by a restart; cleanup pending" rfl (by simp) (.refl _)
      fun o ho => (isCleanup_quiet ho).imp_right fun hquiet _ => hquiet
  have hunstarted : Evolves rights _ _ := hcleanups.sound.closeSelected .failed .failed
    "interrupted by a restart before the driver was called; nothing changed" rfl (by simp) (.refl _)
      fun o ho => (isUnstarted_quiet ho).imp_right fun hquiet _ => hquiet
  have huncertain : Evolves rights _ _ := hunstarted.sound.closeSelected .unknown .unknown "interrupted by a restart"
    rfl (by simp) (p := fun o => o.state = .started) (perm_insertionSort (fun a b => a.startedAt ≤ b.startedAt) _)
      fun o ho => ⟨by simpa using ho, nofun⟩
  have hclosed := (hcleanups.trans hunstarted).trans huncertain
  exact hclosed.trans ((finishAll_same _ hfinish).evolves hclosed.sound)

theorem resource?_eq_some (h : db.resource? app env descriptor = some r) :
    r ∈ db.resources ∧ r.app = app ∧ r.env = env ∧ r.descriptor = descriptor := by
  refine ⟨mem_of_find?_eq_some h, ?_⟩
  simpa [and_assoc] using find?_some h

theorem startedOn?_eq_some {g : String} (h : db.startedOn? g = some op) :
    op ∈ db.operations ∧ op.guresid = g ∧ op.state = .started := by
  refine ⟨mem_of_find?_eq_some h, ?_⟩
  simpa using find?_some h

theorem Sound.idle (h : db.Sound) (hr : r ∈ db.resources) (hblocked : r.status.isBlocked = false)
    (hnone : db.startedOn? r.guresid = none) : r.status.journal = .idle := by
  by_contra hidle
  obtain ⟨i, p, hentry, hopen⟩ := h.agree.claimed (status_eq (h.toRows.resourceOf? hr)) hidle
  obtain ⟨o, ho, hg, rfl⟩ := entry_eq_some.1 hentry
  rcases Phase.isOpen_iff.1 hopen with ⟨b, hrunning⟩ | huncertain
  · refine absurd (find?_eq_none.1 hnone o (h.toRows.operation?_iff.1 ho).1) ?_
    simp [hg, (phase_running.1 hrunning).1]
  · have hmirror := h.agree.mirrored hentry hopen
    rw [status_eq (h.toRows.resourceOf? hr), huncertain, Option.some.injEq] at hmirror
    simp only [ResourceStatus.journal, hblocked, Bool.false_eq_true, if_false, Phase.status] at hmirror
    split at hmirror <;> cases hmirror

def Freed (db : Db) (r : Resource) : Prop :=
  ∃ st : ResourceStatus, st.journal = .idle ∧ db.resourceOf? r.guresid = some { r with status := st }

theorem closeAbandoned_evolves {res : Result Unit} (h : db.Sound) (hr : r ∈ db.resources)
    (hblocked : r.status.isBlocked = false) (htx : db.closeAbandoned r = .ok (res, db')) :
    Evolves rights db db' ∧ (res = .ok () → db'.Freed r) := by
  have hrow := h.toRows.resourceOf? hr
  unfold closeAbandoned at htx
  split at htx
  · rename_i hnone
    cases htx
    exact ⟨.refl h, fun _ => ⟨r.status, h.idle hr hblocked hnone, hrow⟩⟩
  · rename_i op hop
    simp only [bind_eq_ok] at htx
    obtain ⟨d, _, _, _, htx⟩ := htx
    cases htx
    obtain ⟨hmem, hg, hst⟩ := startedOn?_eq_some hop
    have hopen : op.isOpen = true := by
      rw [OperationRow.isOpen, hst]
      rfl
    have hclose : Evolves rights db (db.close op (abandon r op).1 (abandon r op).2.1 (abandon r op).2.2) := by
      refine h.close (h.toRows.operation? hmem) hopen ?_ ?_ ?_
      · unfold abandon
        split
        · rfl
        · split <;> rfl
      · unfold abandon
        split
        · simp
        · split <;> simp
      · intro hfailed
        refine .inr ⟨hst, ?_⟩
        unfold abandon at hfailed
        split at hfailed
        · rename_i hcleanup
          simp only [Bool.and_eq_true, decide_eq_true_eq] at hcleanup
          simp [armed, hcleanup.1, hg, hrow, hcleanup.2]
        · split at hfailed
          · rename_i hinputs
            simp only [Bool.and_eq_true, decide_eq_true_eq, Bool.not_eq_true'] at hinputs
            simp [armed, hinputs.1, hinputs.2]
          · cases hfailed
    refine ⟨hclose, fun hok => ⟨(abandon r op).2.1, ?_, ?_⟩⟩
    · revert hok
      unfold abandon
      split
      · exact fun _ => rfl
      · split
        · exact fun _ => rfl
        · intro hok
          cases hok
    · change (db.setResource op.guresid _).resourceOf? _ = _
      rw [hg, resourceOf?_setResource_self, hrow]
      · rfl
      · exact fun _ => rfl

theorem claimResource_ok (htx : db.claimResource newGuresid start = .ok (.ok g, db')) :
    (∃ r db1, db.resource? start.app start.env start.descriptor.text = some r ∧ r.status.isBlocked = false ∧
      db.closeAbandoned r = .ok (.ok (), db1) ∧ g.text = r.guresid ∧
      db' = db1.setResource r.guresid (startColumns start)) ∨
    (db.resource? start.app start.env start.descriptor.text = none ∧ start.kind = .put ∧ g = newGuresid ∧
      db.resourceOf? newGuresid.text = none ∧
      db' = { db with resources := db.resources ++ [newResource start newGuresid.text] }) := by
  unfold claimResource at htx
  dsimp only at htx
  split at htx
  · rename_i r hr
    left
    split at htx
    · cases htx
    · rename_i hblocked
      split at htx
      · cases htx
      · simp only [bind_eq_ok] at htx
        obtain ⟨⟨res, db1⟩, hclose, htx⟩ := htx
        split at htx
        · cases htx
        · rename_i heq
          cases heq
          split at htx
          · cases htx
            exact ⟨r, db1, hr, by simpa using hblocked, hclose, rfl, rfl⟩
          · cases htx
  · rename_i hr
    right
    split at htx
    · cases htx
    · rename_i hk
      split at htx
      · cases htx
      · split at htx
        · cases htx
        · rename_i hg
          cases htx
          refine ⟨hr, ?_, rfl, by simpa using hg, rfl⟩
          cases hk' : start.kind with
          | put => rfl
          | delete => exact absurd hk' hk

theorem claimResource_error {e : StoreError} (htx : db.claimResource newGuresid start = .ok (.error e, db')) :
    ∃ r, db.resource? start.app start.env start.descriptor.text = some r ∧ r.status.isBlocked = false ∧
      db.closeAbandoned r = .ok (.error e, db') := by
  unfold claimResource at htx
  dsimp only at htx
  split at htx
  · rename_i r hr
    split at htx
    · cases htx
    · rename_i hblocked
      split at htx
      · cases htx
      · simp only [bind_eq_ok] at htx
        obtain ⟨⟨res, db1⟩, hclose, htx⟩ := htx
        split at htx
        · rename_i heq
          cases heq
          cases htx
          exact ⟨r, hr, by simpa using hblocked, hclose⟩
        · split at htx <;> cases htx
  · split at htx
    · cases htx
    · split at htx
      · cases htx
      · split at htx <;> cases htx

structure Begun (db : Db) (start : OperationStart) (id g : String) (db' : Db) (op : OperationRow) : Prop where
  row : db'.operation? id = some op
  state : op.state = .started
  guresid : op.guresid = g
  kind : op.kind = start.kind
  armed : start.kind = .delete →
    (db.resource? start.app start.env start.descriptor.text).any (fun r => !r.cleanupPending) = true →
    db'.armed op = true

theorem startRun_same (start : OperationStart) (g : String) (attempt : Nat) :
    SameRecords db (db.startRun start g attempt) := by
  unfold startRun
  dsimp only
  split <;> exact ⟨rfl, rfl⟩

theorem recordStart_ok {q} (htx : db.recordStart now id g start = .ok q) :
    ∃ attempt, q.1 = ⟨id, g, attempt⟩ ∧ db.operation? id = none ∧
      q.2.operations = db.operations ++ [newOperation now id g.text start attempt] ∧ q.2.resources = db.resources := by
  simp only [recordStart, bind_eq_ok, insertOperation, refuseIf_eq_ok] at htx
  obtain ⟨db1, ⟨_, hid, hinsert⟩, htx⟩ := htx
  cases hinsert
  cases htx
  exact ⟨_, rfl, by simpa [newOperation] using hid, (startRun_same start g.text _).operations,
    (startRun_same start g.text _).resources⟩

theorem operation?_append (hops : db'.operations = db.operations ++ [op]) (hnone : db.operation? op.id = none) :
    db'.operation? op.id = some op ∧ ∀ i, i ≠ op.id → db'.operation? i = db.operation? i := by
  unfold operation? at hnone ⊢
  rw [hops]
  refine ⟨?_, fun i hi => ?_⟩
  · rw [find?_append, hnone]
    simp
  · rw [find?_append]
    have : ¬ op.id = i := fun e => hi e.symm
    cases db.operations.find? fun o => o.id = i <;> simp [this]

theorem runningStatus_journal (kind : OperationKind) : kind.runningStatus.journal = .running := by
  cases kind <;> rfl

theorem Sound.beginOn (h : db.Sound) (op : OperationRow) (u : Resource → Resource) (hfree : db.Freed r)
    (hfresh : rights.fresh op.id) (hnone : db.operation? op.id = none) (hg : op.guresid = r.guresid) (happ : op.app = r.app)
    (henv : op.env = r.env) (hopen : op.isOpen = true)
    (hrestored : isRestored op.recovery = true → ∃ st : ResourceStatus, st.journal = .idle ∧
      restoredStatus op.recovery = .ok st.text)
    (hu : KeepsResource u) (hstatus : ∀ r, (u r).status.journal = op.state.status)
    (hops : db'.operations = db.operations ++ [op]) (hres : db'.resources = (db.setResource r.guresid u).resources) :
    Evolves rights db db' ∧ ∃ st, db'.resourceOf? r.guresid = some (u { r with status := st }) := by
  obtain ⟨st, hidle, hrow⟩ := hfree
  have hrows : (db.setResource r.guresid u).Rows := h.toRows.updateResources hu rfl rfl
  have hresource : ∀ g, db'.resourceOf? g = (db.setResource r.guresid u).resourceOf? g := by
    intro g
    rw [resourceOf?, resourceOf?, hres]
  have hrow' : db'.resourceOf? r.guresid = some (u { r with status := st }) := by
    rw [hresource, resourceOf?_setResource_self fun r => (hu r).1, hrow]
    rfl
  obtain ⟨hop, hothers⟩ := operation?_append hops hnone
  refine ⟨h.begin (hrows.addOperation hnone ?_ hrestored hops hres) hfresh hnone hop hopen (.inl ?_) hothers ?_ ?_,
    st, hrow'⟩
  · intro r' hr' hg'
    have hr' := hrows.resourceOf? hr'
    rw [hg', hg, ← hresource, hrow'] at hr'
    cases hr'
    rw [happ, henv]
    exact hu.home { r with status := st }
  · rw [hg, status_eq hrow, hidle]
  · intro g hne
    rw [hresource, resourceOf?_setResource_ne (fun r => (hu r).1) (hg ▸ hne)]
  · rw [hg, status_eq hrow', hstatus]

theorem Sound.beginNew (h : db.Sound) (r : Resource) (op : OperationRow) (hfresh : rights.fresh op.id)
    (hunused : rights.unused op.guresid) (hnew : ∀ o ∈ db.operations, o.guresid ≠ op.guresid)
    (hnone : db.operation? op.id = none) (hg : op.guresid = r.guresid) (happ : op.app = r.app) (henv : op.env = r.env)
    (hst : op.state = .started) (hstatus : r.status = .provisioning) (hplain : isRestored op.recovery = false)
    (hkey : db.resource? r.app r.env r.descriptor = none) (habsent : db.resourceOf? r.guresid = none)
    (hops : db'.operations = db.operations ++ [op]) (hres : db'.resources = db.resources ++ [r]) :
    Evolves rights db db' := by
  have hrows : ({ db with resources := db.resources ++ [r] } : Db).Rows :=
    h.toRows.addResource hkey habsent (hg ▸ hnew) rfl rfl
  have hresource : ∀ g, db'.resourceOf? g = (db.resourceOf? g).or (if r.guresid = g then some r else none) := by
    intro g
    rw [resourceOf?, hres, find?_append]
    by_cases e : r.guresid = g <;> simp [resourceOf?, e]
  obtain ⟨hop, hothers⟩ := operation?_append hops hnone
  have hnoneStatus : db.journal.status op.guresid = none := by simp [journal, hg, habsent]
  refine h.begin (hrows.addOperation hnone ?_ ?_ hops hres) hfresh hnone hop ?_ (.inr ⟨hnoneStatus, hunused⟩) hothers
    ?_ ?_
  · intro r' hr' hg'
    rcases mem_append.1 hr' with hr' | hr'
    · exact absurd (find?_eq_none.1 habsent r' hr') (by simp [hg', hg])
    · rw [mem_singleton] at hr'
      subst hr'
      exact ⟨happ.symm, henv.symm⟩
  · intro hr
    rw [hplain] at hr
    cases hr
  · rw [OperationRow.isOpen, hst]
    rfl
  · intro g hne
    rw [hresource, if_neg fun e => hne (e.symm.trans hg.symm), Option.or_none]
  · rw [status_eq (r := r), hst, hstatus]
    · rfl
    · rw [hresource, hg, habsent]
      simp

theorem beginTx_evolves {res} (h : db.Sound) (hplain : isRestored start.recovery = false) (hfresh : rights.fresh id)
    (hunused : rights.unused newGuresid.text) (hnew : ∀ o ∈ db.operations, o.guresid ≠ newGuresid.text)
    (htx : db.beginTx now id newGuresid start = .ok (res, db')) :
    Evolves rights db db' ∧ ∀ started, res = .ok started → started.operationId = id ∧
      ∃ op, Begun db start id started.guresid.text db' op := by
  simp only [beginTx, bind_eq_ok] at htx
  obtain ⟨_, _, _, _, ⟨claimed, db2⟩, hclaim, htx⟩ := htx
  cases claimed with
  | error e =>
    cases htx
    obtain ⟨r, hr, hblocked, hclose⟩ := claimResource_error hclaim
    exact ⟨(closeAbandoned_evolves h (resource?_eq_some hr).1 hblocked hclose).1, nofun⟩
  | ok g =>
    simp only [bind_eq_ok] at htx
    obtain ⟨⟨started, db3⟩, hrecord, htx⟩ := htx
    cases htx
    obtain ⟨attempt, hstarted, hnone, hops, hres⟩ := recordStart_ok hrecord
    dsimp only at hstarted hops hres
    subst hstarted
    rcases claimResource_ok hclaim with ⟨r, db1, hr, hblocked, hclose, hg, rfl⟩ | ⟨hr, hk, rfl, habsent, rfl⟩
    · obtain ⟨hmem, happ, henv, _⟩ := resource?_eq_some hr
      obtain ⟨hclosed, hfree⟩ := closeAbandoned_evolves h hmem hblocked hclose
      obtain ⟨hbegun, st, hrow⟩ := hclosed.sound.beginOn (newOperation now id g.text start attempt)
        (startColumns start) (hfree rfl) hfresh hnone hg happ.symm henv.symm rfl
        (fun hr => absurd hr (by simp [newOperation, hplain])) (fun _ => ⟨rfl, rfl⟩)
        (fun _ => runningStatus_journal start.kind) hops hres
      refine ⟨hclosed.trans hbegun, ?_⟩
      rintro _ ⟨rfl⟩
      refine ⟨rfl, newOperation now id g.text start attempt, (operation?_append hops hnone).1, rfl, rfl, rfl, ?_⟩
      intro hk hclean
      have hpending : r.cleanupPending = false := by simpa [hr] using hclean
      simp [armed, newOperation, hk, hg, hrow, startColumns, hpending]
    · refine ⟨h.beginNew (newResource start g.text) (newOperation now id g.text start attempt) hfresh hunused
        hnew hnone rfl rfl rfl rfl rfl hplain hr habsent hops hres, ?_⟩
      rintro _ ⟨rfl⟩
      refine ⟨rfl, newOperation now id g.text start attempt, (operation?_append hops hnone).1, rfl, rfl, rfl, ?_⟩
      intro hk'
      rw [hk] at hk'
      cases hk'

theorem beginOperation_evolves (h : db.Sound) (hplain : isRestored start.recovery = false) (hfresh : rights.fresh id)
    (hunused : rights.unused newGuresid.text) (hnew : ∀ o ∈ db.operations, o.guresid ≠ newGuresid.text) :
    Evolves rights db (db.beginOperation now id newGuresid start).2 ∧
      ∀ started, (db.beginOperation now id newGuresid start).1 = .ok started → started.operationId = id ∧
        ∃ op, Begun db start id started.guresid.text (db.beginOperation now id newGuresid start).2 op := by
  unfold beginOperation
  cases htx : db.beginTx now id newGuresid start with
  | error e => exact ⟨.refl h, nofun⟩
  | ok q => exact beginTx_evolves h hplain hfresh hunused hnew htx

theorem latest_eq_none (h : latest ops = none) : ops = [] := by
  cases ops with
  | nil => rfl
  | cons o ops =>
    unfold latest at h
    split at h
    · split at h <;> cases h
    · cases h

theorem latest_mem (h : latest ops = some o) : o ∈ ops := by
  induction ops with
  | nil => cases h
  | cons o' ops ih =>
    unfold latest at h
    split at h
    · rename_i o'' ho''
      split at h
      · cases h
        exact mem_cons_of_mem _ (ih ho'')
      · cases h
        exact mem_cons_self
    · cases h
      exact mem_cons_self

theorem restoredRecovery_status {st : ResourceStatus} (h : hasInputs recovery = true) :
    restoredStatus (restoredRecovery st recovery) = .ok st.text := by
  cases recovery with
  | obj fields => simp [restoredStatus, restoredRecovery, Json.field?, JsonMap.get_insert_self]
  | _ => simp [hasInputs, Json.field?] at h

theorem markRestoredOne_evolves {q} (h : db.Sound) (hr : db.resourceOf? r.guresid = some r) (hfresh : rights.fresh id)
    (htx : db.markRestoredOne now id r = .ok q) :
    Evolves rights db q.2 ∧ ∀ g, g ≠ r.guresid → q.2.resourceOf? g = db.resourceOf? g := by
  unfold markRestoredOne at htx
  dsimp only at htx
  split at htx
  · cases htx
    exact ⟨.refl h, fun _ _ => rfl⟩
  · rename_i hclosed
    split at htx
    · cases htx
      exact ⟨.refl h, fun _ _ => rfl⟩
    · rename_i last hlast
      simp only [bind_eq_ok, insertOperation, refuseIf_eq_ok] at htx
      obtain ⟨db1, ⟨_, hnone, hinsert⟩, htx⟩ := htx
      cases hinsert
      cases htx
      have hidle : r.status.journal = .idle := by
        by_contra hidle
        obtain ⟨i, p, hentry, hopen⟩ := h.agree.claimed (status_eq hr) hidle
        obtain ⟨o, ho, hg, rfl⟩ := entry_eq_some.1 hentry
        rw [phase_isOpen] at hopen
        have hmem : o ∈ db.operations.filter fun o => o.guresid = r.guresid && o.isOpen := by
          simp [(h.toRows.operation?_iff.1 ho).1, hg, hopen]
        rw [latest_eq_none hclosed] at hmem
        cases hmem
      have hinputs : hasInputs last.recovery = true := by
        have := latest_mem hlast
        simp only [mem_filter, Bool.and_eq_true] at this
        exact this.2.2
      refine ⟨And.left (h.beginOn (restoredOperation now id r last) (fun r => { r with status := .unknown })
        ⟨r.status, hidle, hr⟩ hfresh (by simpa using hnone) rfl rfl rfl rfl
        (fun _ => ⟨r.status, hidle, restoredRecovery_status hinputs⟩) (fun _ => ⟨rfl, rfl⟩) (fun _ => rfl) rfl rfl), ?_⟩
      intro g hg
      exact resourceOf?_setResource_ne (by exact fun _ => rfl) hg

theorem markEach_evolves (rs : List (Resource × Nat)) (hids : ∀ q ∈ rs, rights.fresh (ids q.2))
    (hnodup : (rs.map (·.1.guresid)).Nodup) (h : db.Sound) (hrs : ∀ q ∈ rs, db.resourceOf? q.1.guresid = some q.1)
      (htx : markEach now ids db rs = .ok x) : Evolves rights db x.2 := by
  induction rs generalizing db x with
  | nil =>
    cases htx
    exact .refl h
  | cons q rs ih =>
    obtain ⟨r, i⟩ := q
    simp only [markEach, bind_eq_ok] at htx
    obtain ⟨q1, h1, q2, h2, htx⟩ := htx
    cases htx
    rw [map_cons, nodup_cons] at hnodup
    obtain ⟨hmark, hothers⟩ := markRestoredOne_evolves h (hrs (r, i) mem_cons_self) (hids (r, i) mem_cons_self) h1
    have hrest := ih (fun q hq => hids q (mem_cons_of_mem _ hq)) hnodup.2 hmark.sound (fun q hq => ?_) h2
    · exact hmark.trans hrest
    · rw [hothers q.1.guresid, hrs q (mem_cons_of_mem _ hq)]
      exact fun e => hnodup.1 (e ▸ mem_map_of_mem (f := fun q => q.1.guresid) hq)

theorem markRestored_evolves (h : db.Sound)
    (hids : ∀ i < db.resources.length, rights.fresh (ids i)) (htx : db.markRestored now ids = .ok x) :
    Evolves rights db x.2 := by
  unfold markRestored at htx
  dsimp only at htx
  have hperm := perm_insertionSort (fun a b : Resource => [a.app, a.env, a.descriptor] ≤ [b.app, b.env, b.descriptor])
    (db.resources.filter isRestorable)
  have hmem : ∀ q ∈ ((db.resources.filter isRestorable).insertionSort fun a b =>
      [a.app, a.env, a.descriptor] ≤ [b.app, b.env, b.descriptor]).zipIdx, q.1 ∈ db.resources ∧
        q.2 < db.resources.length := by
    intro q hq
    obtain ⟨hlt, hget⟩ := mem_zipIdx' hq
    refine ⟨?_, ?_⟩
    · have : q.1 ∈ db.resources.filter isRestorable := hperm.mem_iff.1 (hget ▸ getElem_mem hlt)
      exact (mem_filter.1 this).1
    · rw [hperm.length_eq] at hlt
      exact Nat.lt_of_lt_of_le hlt (length_filter_le _ _)
  refine markEach_evolves _ (fun q hq => hids q.2 (hmem q hq).2) ?_ h
    (fun q hq => h.toRows.resourceOf? (hmem q hq).1) htx
  have hnodup : ((db.resources.filter isRestorable).map (·.guresid)).Nodup := h.guresids.sublist (filter_sublist.map _)
  have hfst : ∀ l : List Resource, l.zipIdx.map (fun q => q.1.guresid) = l.map (·.guresid) := by
    intro l
    change l.zipIdx.map ((fun r : Resource => r.guresid) ∘ Prod.fst) = _
    rw [← map_map, zipIdx_map_fst]
  rw [hfst]
  exact (hperm.map _).nodup_iff.2 hnodup

end Db
end Openporch
