import Openporch.Store.History

/-!
# Resource status and operation log agree

In every reachable database a resource's status says whether an operation on it runs, has an unknown outcome, or
neither. So `unknown_operation` finds the operation that blocks a resource, and finds none on any other.
-/

namespace Openporch
open List OperationState
open Journal (Phase)

theorem ResourceStatus.journal_running {st : ResourceStatus} :
    st.journal = .running ↔ st = .provisioning ∨ st = .deleting := by
  cases st <;> decide

theorem ResourceStatus.journal_blocked {st : ResourceStatus} :
    st.journal = .blocked ↔ st = .unknown ∨ st = .recoveryRequired := by
  cases st <;> decide

namespace Db
variable {db : Db} {r : Resource}

structure StatusAgrees (db : Db) (r : Resource) : Prop where
  single : (db.operations.filter fun o => o.guresid = r.guresid && o.isOpen).length ≤ 1
  running : r.status = .provisioning ∨ r.status = .deleting ↔
    ∃ o ∈ db.operations, o.guresid = r.guresid ∧ o.state = .started
  blocked : r.status = .unknown ∨ r.status = .recoveryRequired ↔
    ∃ o ∈ db.operations, o.guresid = r.guresid ∧ o.state = .unknown
  /-- The blocking operation is the one found. -/
  found : ∀ o ∈ db.operations, o.guresid = r.guresid → o.state = .unknown →
    db.unknownOperation db.org r.app r.env r.descriptor = .ok (some (o, r))
  notFound : ¬ (r.status = .unknown ∨ r.status = .recoveryRequired) →
    db.unknownOperation db.org r.app r.env r.descriptor = .ok none

def Agrees (db : Db) : Prop := ∀ r ∈ db.resources, db.StatusAgrees r

theorem Sound.open_unique (h : db.Sound) {o o' : OperationRow} (ho : o ∈ db.operations) (ho' : o' ∈ db.operations)
    (hg : o.guresid = o'.guresid) (hopen : o.isOpen = true) (hopen' : o'.isOpen = true) : o = o' := by
  have hentry := entry_eq (h.toRows.operation? ho)
  rw [hg] at hentry
  have hid := h.agree.unique hentry (entry_eq (h.toRows.operation? ho')) (by rw [phase_isOpen, hopen])
    (by rw [phase_isOpen, hopen'])
  exact Table.eq_of_key h.ids ho ho' hid

theorem Sound.status_iff (h : db.Sound) (hr : r ∈ db.resources) (st : OperationState) (hst : st.status ≠ .idle) :
    r.status.journal = st.status ↔ ∃ o ∈ db.operations, o.guresid = r.guresid ∧ o.state = st := by
  have hrow := status_eq (h.toRows.resourceOf? hr)
  constructor
  · intro hstatus
    obtain ⟨i, p, hentry, hopen⟩ := h.agree.claimed hrow (hstatus ▸ hst)
    have hmirror := h.agree.mirrored hentry hopen
    obtain ⟨o, ho, hg, rfl⟩ := entry_eq_some.1 hentry
    rw [hrow, phase_status, Option.some.injEq, hstatus] at hmirror
    refine ⟨o, (h.toRows.operation?_iff.1 ho).1, hg, ?_⟩
    rw [phase_isOpen] at hopen
    cases hs : o.state <;> cases st <;> simp_all [status, OperationRow.isOpen]
  · rintro ⟨o, ho, hg, rfl⟩
    have hopen : o.isOpen = true := by
      cases hs : o.state <;> simp_all [status, OperationRow.isOpen]
    have hmirror := h.agree.mirrored (entry_eq (h.toRows.operation? ho)) (by rw [phase_isOpen, hopen])
    rw [hg, hrow, phase_status, Option.some.injEq] at hmirror
    exact hmirror

theorem Rows.resource? (h : db.Rows) (hr : r ∈ db.resources) : db.resource? r.app r.env r.descriptor = some r := by
  have hkey := (Table.find?_key_iff (k := r.key) h.keys).2 ⟨hr, rfl⟩
  have hsame : (fun r' : Resource => decide (r'.key = r.key)) =
      fun r' => r'.app = r.app && r'.env = r.env && r'.descriptor = r.descriptor := by
    funext r'
    simp [Resource.key, Bool.and_assoc]
  rw [hsame] at hkey
  exact hkey

theorem unknownOperation_eq (h : db.Rows) (hr : r ∈ db.resources) :
    db.unknownOperation db.org r.app r.env r.descriptor =
      .ok ((latest (db.operations.filter fun o => o.guresid = r.guresid && o.state = .unknown)).map fun o => (o, r)) := by
  simp [unknownOperation, checkOrg, refuseIf, h.resource? hr, bind, Except.bind, pure, Except.pure]

theorem Sound.agrees (h : db.Sound) : db.Agrees := by
  intro r hr
  have hrunning := h.status_iff hr .started (by simp [status])
  have hblocked := h.status_iff hr .unknown (by simp [status])
  rw [show started.status = .running from rfl, ResourceStatus.journal_running] at hrunning
  rw [show unknown.status = .blocked from rfl, ResourceStatus.journal_blocked] at hblocked
  refine ⟨?_, hrunning, hblocked, ?_, ?_⟩
  · refine Table.length_le_one (h.ids.sublist (filter_sublist.map _)) ?_
    intro o ho o' ho'
    simp only [mem_filter, Bool.and_eq_true, decide_eq_true_eq] at ho ho'
    rw [h.open_unique ho.1 ho'.1 (ho.2.1.trans ho'.2.1.symm) ho.2.2 ho'.2.2]
  · intro o ho hg hst
    rw [unknownOperation_eq h.toRows hr]
    cases hlatest : latest (db.operations.filter fun o => o.guresid = r.guresid && o.state = .unknown) with
    | none =>
      have hmem : o ∈ db.operations.filter fun o => o.guresid = r.guresid && o.state = .unknown := by simp [ho, hg, hst]
      rw [latest_eq_none hlatest] at hmem
      cases hmem
    | some o' =>
      have hmem := latest_mem hlatest
      simp only [mem_filter, Bool.and_eq_true, decide_eq_true_eq] at hmem
      have hsame : o' = o := h.open_unique hmem.1 ho (hmem.2.1.trans hg.symm) (by simp [OperationRow.isOpen, hmem.2.2])
        (by simp [OperationRow.isOpen, hst])
      simp [hsame]
  · intro hfree
    rw [unknownOperation_eq h.toRows hr]
    cases hlatest : latest (db.operations.filter fun o => o.guresid = r.guresid && o.state = .unknown) with
    | none => rfl
    | some o =>
      have hmem := latest_mem hlatest
      simp only [mem_filter, Bool.and_eq_true, decide_eq_true_eq] at hmem
      exact absurd (hblocked.2 ⟨o, hmem.1, hmem.2.1, hmem.2.2⟩) hfree

end Db

theorem System.after_agrees (org : String) (events : List Event) : (System.after org events).db.Agrees :=
  (System.after_sound org events).db.agrees

end Openporch
