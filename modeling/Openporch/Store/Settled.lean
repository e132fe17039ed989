import Openporch.Planner.Retry
import Openporch.Store.History

/-!
# No mutation over an unknown outcome

When `begin_operation` succeeds on a resource, the outcome of every earlier operation on it whose driver was called is
known, and none of those counts as failed only because it was abandoned or interrupted.
-/

namespace Openporch
open List Fallible Db
open Transition (Taken)
open Journal (Phase Rights)

namespace System
variable {s : System}

def hasFailed (s : System) (id : String) : Prop := ∃ o, s.db.operation? id = some o ∧ o.state = .failed

def FailsIn (t : Taken System Event) (id : String) : Prop := ¬ t.before.hasFailed id ∧ t.after.hasFailed id

variable {id i : String}

theorem hasFailed_iff : s.hasFailed id ↔ s.db.journal.Failed id := by
  constructor
  · rintro ⟨o, ho, hst⟩
    exact ⟨o.guresid, by rw [entry_eq ho, phase_failed.2 hst]⟩
  · rintro ⟨k, hk⟩
    obtain ⟨o, ho, _, hphase⟩ := entry_eq_some.1 hk
    exact ⟨o, ho, phase_failed.1 hphase⟩

theorem begin_spec (h : s.Sound) {now : Nat} {guresid : Guresid} {b : Begin} (hg : guresid.text ∉ s.guresids)
    {started} (hbegin : (s.db.beginOperation now id guresid b.start).1 = .ok started) : started.operationId = id ∧
      ∃ op, Begun s.db b.start id started.guresid.text (s.db.beginOperation now id guresid b.start).2 op := by
  let anyone : Rights String String := ⟨fun _ => True, fun _ => True, fun _ => True⟩
  have hevolves : Evolves anyone s.db (s.db.beginOperation now id guresid b.start).2 ∧ _ :=
    beginOperation_evolves h.db b.start_plain trivial trivial fun o ho hsame =>
      hg (hsame ▸ (h.within.entries (entry_eq (h.db.toRows.operation? ho))).2)
  exact hevolves.2 started hbegin

inductive Effect (s : System) : Event → System → Prop where
  | same {e s'} (hbegun : s'.begun = s.begun) (hready : s'.ready = s.ready)
      (hcalled : s'.called = s.called) : Effect s e s'
  | begun {now id guresid b started s'} (hg : guresid.text ∉ s.guresids)
      (hbegin : (s.db.beginOperation now id guresid b.start).1 = .ok started)
      (hdb : s'.db = (s.db.beginOperation now id guresid b.start).2)
      (hbegun : s'.begun = started :: s.begun)
      (hready : s'.ready = if s.deletes b.start then id :: s.ready else s.ready)
      (hcalled : s'.called = s.called) : Effect s (.begin now id guresid b) s'
  | recorded {id n job s'} (hrecord : s.db.recordOperationInputs id (n.recorded job) = .ok s'.db)
      (hbegun : s'.begun = s.begun)
      (hready : s'.ready = if (s.db.operation? id).any (·.kind = .put) then id :: s.ready else s.ready)
      (hcalled : s'.called = s.called) : Effect s (.recordInputs id n job) s'
  | called {id s'} (hmay : id ∈ s.ready) (hbegun : s'.begun = s.begun)
      (hready : s'.ready = s.ready) (hcalled : s'.called = id :: s.called) :
    Effect s (.call id) s'

theorem step_effect (s : System) (e : Event) : Effect s e (s.step e) := by
  cases e with
  | transact t =>
    change Effect s _ (s.commit (t.run s.db))
    cases t.run s.db <;> exact .same rfl rfl rfl
  | begin now id guresid b =>
    change Effect s _ (if (s.ids.contains id || s.guresids.contains guresid.text) = true then s else
      s.begin now id guresid b.start)
    split
    · exact .same rfl rfl rfl
    · rename_i hdrawn
      simp only [Bool.or_eq_true, contains_iff_mem, not_or] at hdrawn
      unfold System.begin
      dsimp only
      split
      · exact .same rfl rfl rfl
      · rename_i started hbegin
        exact .begun hdrawn.2 hbegin rfl rfl rfl rfl
  | recordInputs id n job =>
    change Effect s _ (s.recordInputs id (n.recorded job))
    unfold recordInputs
    split
    · exact .same rfl rfl rfl
    · rename_i db' htx
      exact .recorded htx rfl rfl rfl
  | call id =>
    change Effect s _ (if s.ready.contains id = true then { s with called := id :: s.called } else s)
    split
    · rename_i hmay
      exact .called (by simpa using hmay) rfl rfl rfl
    · exact .same rfl rfl rfl
  | markRestored now ids =>
    change Effect s _ (if _ then s else s.markRestored now ids)
    unfold markRestored
    split
    · exact .same rfl rfl rfl
    · split <;> exact .same rfl rfl rfl
  | issuePermits now ids org app env plan permits actor =>
    change Effect s _ (if _ then s else s.issuePermits now ids org app env plan permits actor)
    unfold issuePermits
    split
    · exact .same rfl rfl rfl
    · split <;> exact .same rfl rfl rfl

variable {s' : System} {e : Event}

theorem Effect.mem_begun (h : s.Sound) (heffect : Effect s e s') {b} (hb : b ∈ s'.begun) :
    b ∈ s.begun ∨ ∃ p, s'.db.journal.entry b.operationId = some (b.guresid.text, .running p) := by
  cases heffect with
  | same hbegun _ _ => exact .inl (hbegun ▸ hb)
  | recorded _ hbegun _ _ => exact .inl (hbegun ▸ hb)
  | called _ hbegun _ _ => exact .inl (hbegun ▸ hb)
  | begun hg hbegin hdb hbegun _ _ =>
    rw [hbegun] at hb
    rcases mem_cons.1 hb with rfl | hb
    · right
      obtain ⟨hid, op, hop⟩ := begin_spec h hg hbegin
      have hrunning := entry_eq hop.row
      rw [hop.guresid, phase_running.2 ⟨hop.state, rfl⟩] at hrunning
      exact ⟨_, by rw [hdb, hid]; exact hrunning⟩
    · exact .inl hb

theorem record_armed {db' : Db} {n : NodeRun} {job : ProvisionJob}
    (htx : s.db.recordOperationInputs id (n.recorded job) = .ok db')
    (hput : (s.db.operation? id).any (·.kind = .put) = true) :
    ∃ g, db'.journal.entry id = some (g, .running true) := by
  simp only [recordOperationInputs, bind_eq_ok, refuseIf_eq_ok] at htx
  obtain ⟨op, hop, _, hstarted, htx⟩ := htx
  cases htx
  obtain ⟨rfl, hrow⟩ := operation_eq_ok hop
  have hkind : op.kind = .put := by simpa [hrow] using hput
  have hrow' : (s.db.setOperation op.id fun o => { o with recovery := n.recorded job }).operation? op.id =
      some { op with recovery := n.recorded job } := by
    rw [operation?_setOperation_self, hrow]
    · rfl
    · exact fun _ => rfl
  refine ⟨op.guresid, ?_⟩
  rw [entry_eq hrow', phase_running.2 ⟨by simpa using hstarted, rfl⟩]
  simp [armed, hkind, (n.recorded_plain job).1]

theorem Effect.mem_ready (h : s.Sound) (heffect : Effect s e s') (hi : i ∈ s'.ready) :
    i ∈ s.ready ∨ ∃ g, s'.db.journal.entry i = some (g, .running true) := by
  cases heffect with
  | same _ hready _ => exact .inl (hready ▸ hi)
  | called _ _ hready _ => exact .inl (hready ▸ hi)
  | recorded hrecord _ hready _ =>
    rw [hready] at hi
    split at hi
    · rename_i hput
      rcases mem_cons.1 hi with rfl | hi
      · exact .inr (record_armed hrecord hput)
      · exact .inl hi
    · exact .inl hi
  | begun hg hbegin hdb _ hready _ =>
    rw [hready] at hi
    split at hi
    · rename_i hdeletes
      rcases mem_cons.1 hi with rfl | hi
      · right
        obtain ⟨_, op, hop⟩ := begin_spec h hg hbegin
        simp only [deletes, Bool.and_eq_true, decide_eq_true_eq] at hdeletes
        refine ⟨op.guresid, ?_⟩
        rw [hdb, entry_eq hop.row, phase_running.2 ⟨hop.state, hop.armed hdeletes.1 hdeletes.2⟩]
      · exact .inl hi
    · exact .inl hi

theorem Effect.ready_subset (heffect : Effect s e s') : s.ready ⊆ s'.ready := by
  cases heffect with
  | same _ hready _ => rw [hready]; exact List.Subset.refl _
  | called _ _ hready _ => rw [hready]; exact List.Subset.refl _
  | recorded _ _ hready _ =>
    rw [hready]
    split
    · exact subset_cons_self _ _
    · exact List.Subset.refl _
  | begun _ _ _ _ hready _ =>
    rw [hready]
    split
    · exact subset_cons_self _ _
    · exact List.Subset.refl _

theorem Effect.mem_called (heffect : Effect s e s') (hi : i ∈ s'.called) : i ∈ s.called ∨ i ∈ s.ready := by
  cases heffect with
  | same _ _ hcalled => exact .inl (hcalled ▸ hi)
  | begun _ _ _ _ _ hcalled => exact .inl (hcalled ▸ hi)
  | recorded _ _ _ hcalled => exact .inl (hcalled ▸ hi)
  | called hmay _ _ hcalled =>
    rw [hcalled] at hi
    rcases mem_cons.1 hi with rfl | hi
    · exact .inr hmay
    · exact .inl hi

structure Traced (trace : List (Taken System Event)) (s : System) : Prop where
  sound : s.Sound
  begun : ∀ b ∈ s.begun, b.operationId ∈ s.ids ∧ b.guresid.text ∈ s.guresids ∧
    s.db.journal.Kept b.operationId b.guresid.text
  ready : ∀ i ∈ s.ready, i ∈ s.ids ∧ s.db.journal.Armed i
  called : ∀ i ∈ s.called, i ∈ s.ready
  failures : ∀ t ∈ trace, ∀ i, FailsIn t i →
    t.event.ownFailure i ∨ i ∈ s.ids ∧ i ∉ s.ready ∧ s.db.journal.Past i

theorem Traced.step {trace} (h : Traced trace s) (e : Event) : Traced (⟨s, e, s.step e⟩ :: trace) (s.step e) := by
  have hevolves := step_evolves h.sound e
  have heffect := s.step_effect e
  have hagree := h.sound.db.agree
  obtain ⟨hids, hguresids⟩ := s.step_ids e
  have hsound := h.sound.step e
  have hold : ∀ {i}, i ∈ s.ids → ¬ (s.rights e).fresh i := fun hi hfresh => hfresh.2 hi
  have hnew : ∀ {i}, i ∈ (s.step e).ready → i ∉ s.ready → ¬ (s.step e).db.journal.Past i := by
    intro i hi hnot hpast
    obtain ⟨g, hg⟩ := (heffect.mem_ready h.sound hi).resolve_left hnot
    exact hpast g true hg
  refine ⟨hsound, ?_, ?_, ?_, ?_⟩
  · intro b hb
    rcases heffect.mem_begun h.sound hb with hb | ⟨p, hp⟩
    · obtain ⟨hi, hg, hkept⟩ := h.begun b hb
      exact ⟨hids hi, hguresids hg, hkept.moves hagree hevolves.moves (hold hi) fun hunused => hunused.2 hg⟩
    · obtain ⟨hi, hg⟩ := hsound.within.entries hp
      exact ⟨hi, hg, .inl ⟨_, hp⟩⟩
  · intro i hi
    rcases heffect.mem_ready h.sound hi with hi | ⟨g, hg⟩
    · obtain ⟨hdrawn, harmed⟩ := h.ready i hi
      exact ⟨hids hdrawn, harmed.moves hagree hevolves.moves (hold hdrawn)⟩
    · refine ⟨(hsound.within.entries hg).1, fun k hk => ?_⟩
      rw [hg] at hk
      cases hk
  · intro i hi
    rcases heffect.mem_called hi with hi | hi
    · exact heffect.ready_subset (h.called i hi)
    · exact heffect.ready_subset hi
  · intro t ht i hfails
    rcases mem_cons.1 ht with rfl | ht
    · -- the step just taken
      obtain ⟨hbefore, hafter⟩ := hfails
      rw [hasFailed_iff] at hbefore hafter
      by_cases hready : i ∈ s.ready
      · obtain ⟨hdrawn, harmed⟩ := h.ready i hready
        exact .inl (harmed.failed hagree hevolves.moves (hold hdrawn) hbefore hafter)
      · obtain ⟨k, hk⟩ := hafter
        have hpast : (s.step e).db.journal.Past i := by
          intro k' b hrunning
          rw [hk] at hrunning
          cases hrunning
        exact .inr ⟨(hsound.within.entries hk).1, fun hi => hnew hi hready hpast, hpast⟩
    · -- an earlier one: an operation that does not run never becomes ready
      rcases h.failures t ht i hfails with hown | ⟨hdrawn, hready, hpast⟩
      · exact .inl hown
      · have hpast := hpast.moves hagree hevolves.moves (hold hdrawn)
        exact .inr ⟨hids hdrawn, fun hi => hnew hi hready hpast, hpast⟩

theorem empty_traced (org : String) : Traced [] (empty org) where
  sound := empty_sound org
  begun _ hb := absurd hb not_mem_nil
  ready _ hi := absurd hi not_mem_nil
  called _ hi := absurd hi not_mem_nil
  failures _ ht := absurd ht not_mem_nil

theorem traced (org : String) (events : List Event) : Traced (history org events) (after org events) :=
  Transition.invariant_taken (empty_traced org) (fun _ _ e h => h.step e) events

/-- The operation's outcome is known, and if it is a failure it came to be one by what its own run recorded or by
a resolution that repeats it. -/
def Settles (trace : List (Taken System Event)) (s : System) (id g : String) : Prop :=
  ∃ o, s.db.operation? id = some o ∧ o.guresid = g ∧ (o.state = .succeeded ∨ o.state = .failed ∧
    (∃ t ∈ trace, FailsIn t id) ∧ ∀ t ∈ trace, FailsIn t id → t.event.ownFailure id)

theorem begin_over_settled (org : String) (events : List Event) {now : Nat} {id : String} {guresid : Guresid} {b : Begin}
    {started : OperationStarted} (hid : id ∉ (after org events).ids) (hg : guresid.text ∉ (after org events).guresids)
    (hbegin : ((after org events).db.beginOperation now id guresid b.start).1 = .ok started) :
    ∀ op ∈ (after org events).begun, op.guresid = started.guresid → op.operationId ∈ (after org events).called →
      Settles (history org (.begin now id guresid b :: events)) (after org (.begin now id guresid b :: events))
        op.operationId started.guresid.text := by
  intro op hop hsame hcalled
  have hbefore := traced org events
  have hafter := traced org (.begin now id guresid b :: events)
  have hready := hbefore.called _ hcalled
  have hstep : after org (.begin now id guresid b :: events) = (after org events).begin now id guresid b.start :=
    step_begin hid hg
  -- the operation that began is open on the resource, so every other one has ended
  obtain ⟨hstarted, row, hrow⟩ := begin_spec hbefore.sound hg hbegin
  have hentry := Db.entry_eq hrow.row
  rw [← (System.begin_ids _ now id guresid b.start).2.2, ← hstep, hrow.guresid] at hentry
  have hopen : (Db.phase (after org (.begin now id guresid b :: events)).db row).isOpen = true := by
    rw [Db.phase_isOpen, OperationRow.isOpen, hrow.state]
    rfl
  have hold : op ∈ (after org (.begin now id guresid b :: events)).begun := by
    rw [hstep, System.begin, hbegin]
    exact mem_cons_of_mem _ hop
  have hne : op.operationId ≠ id := fun e => hid (e ▸ (hbefore.begun op hop).1)
  have hkept := (hafter.begun op hold).2.2
  rw [hsame] at hkept
  rcases hafter.sound.db.agree.ended hentry hopen hne hkept with hended | hended
  · obtain ⟨o, ho, hg', hphase⟩ := Db.entry_eq_some.1 hended
    exact ⟨o, ho, hg', .inl (Db.phase_succeeded.1 hphase)⟩
  · obtain ⟨o, ho, hg', hphase⟩ := Db.entry_eq_some.1 hended
    have hfailed := Db.phase_failed.1 hphase
    refine ⟨o, ho, hg', .inr ⟨hfailed, ?_, ?_⟩⟩
    · have hinit : ¬ (empty org).hasFailed op.operationId := by
        rintro ⟨o, ho, _⟩
        cases ho
      exact Transition.exists_turning (P := fun s : System => s.hasFailed op.operationId) hinit ⟨o, ho, hfailed⟩
    · intro t ht hfails
      rcases hafter.failures t ht _ hfails with hown | ⟨_, hnot, _⟩
      · exact hown
      · exact absurd ((step_effect _ (.begin now id guresid b)).ready_subset hready) hnot

def dnsGuresid : Guresid := dnsJob.guresid

def dnsDeployment : DeploymentRequest where
  org := "acme"
  app := "shop"
  env := "dev"
  actor := "ada"
  expectedGeneration := 0
  idempotencyKey := none
  fingerprint := "r-1"
  kind := .deploy
  setId := some "set-1"
  deltaId := none
  deltaContent := none
  snapshot := .obj []
  auditActor := none
  permits := ⟨[], [], []⟩

def failedPut : List Event :=
  [.transact (.checkpoint "op-1" (.failed "refused")), .call "op-1",
   .recordInputs "op-1" dnsNode (dnsNode.job ⟨"op-1", dnsGuresid, 1⟩ .absent none),
   .begin 2 "op-1" dnsGuresid (.put dnsNode), .transact (.accept 1 "d-1" dnsDeployment),
   .transact (.createEnv "acme" "shop" "dev" "development" none),
   .transact (.configure { principals := [], envTypes := [⟨"development", false⟩], apps := [⟨"shop", .active⟩]
                           sets := [("shop", "set-1")], deltas := [] })]

def repeatedPut : Event := .begin 3 "op-2" ⟨"00000000000000000000000000000000", by decide⟩ (.put dnsNode)

theorem failedPut_settles :
    (⟨"op-1", dnsGuresid, 1⟩ : OperationStarted) ∈ (after "acme" failedPut).begun ∧
      "op-1" ∈ (after "acme" failedPut).called ∧
      Settles (history "acme" (repeatedPut :: failedPut)) (after "acme" (repeatedPut :: failedPut)) "op-1"
        dnsGuresid.text := by
  have hbegun : (⟨"op-1", dnsGuresid, 1⟩ : OperationStarted) ∈ (after "acme" failedPut).begun := by decide +kernel
  have hcalled : "op-1" ∈ (after "acme" failedPut).called := by decide +kernel
  have hbegin : ((after "acme" failedPut).db.beginOperation 3 "op-2" ⟨"00000000000000000000000000000000", by decide⟩
      (Begin.put dnsNode).start).1 = .ok ⟨"op-2", dnsGuresid, 2⟩ := by decide +kernel
  exact ⟨hbegun, hcalled, begin_over_settled "acme" failedPut (by decide +kernel) (by decide +kernel) hbegin _ hbegun rfl
    hcalled⟩

end System
end Openporch
