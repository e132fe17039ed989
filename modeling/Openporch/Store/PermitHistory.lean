import Openporch.Store.History
import Openporch.Store.PermitRows

/-!
# Permits over whole histories

Every use of a permit by a deployment comes after the acceptance of that deployment, which bound the permit, and after
the issue of the permit; `PermitsSound` says what held at each of the three.
-/

namespace Openporch
open List Fallible Db
open Transition (Taken)

def Permit.asIssued (p : Permit) : Permit := { p with boundTo := none, usedAt := none }

namespace System

structure Issued (t : Taken System Event) (p : Permit) : Prop where
  event : ∃ now ids org permits, p.expiresAt = now + permitTtlMs ∧
    t.event = .issuePermits now ids org p.app p.env p.plan permits (some p.issuer)
  drawn : p.id ∉ t.before.permitIds ∧ p.id ∈ t.after.permitIds
  row : p ∈ t.after.db.permits
  issuable : t.before.db.Issuable p

/-- The event accepts a deployment in the environment, with these permits; an application's deletion accepts one in
each of its environments. -/
inductive Accepts : Event → Nat → String → String → PermitBinding → Prop
  | deployment (now : Nat) (id : String) (req : DeploymentRequest) :
    Accepts (.transact (.accept now id req)) now req.app req.env req.permits
  | application (now : Nat) (ids : Nat → String) (req : AppDeletionRequest) {env binding}
      (h : req.permits.lookup env = some binding) :
    Accepts (.transact (.acceptAppDeletion now ids req)) now req.app env binding

/-- The step accepted deployment `id`, which bound the permit. -/
def BoundBy (t : Taken System Event) (p : Permit) (id : String) : Prop :=
  ∃ now binding, Accepts t.event now p.app p.env binding ∧
    Binds t.before.db t.after.db now binding.digests p id

/-- The step authorised an action with the permit. A deployment's identifier is hexadecimal, so it is not the mark
that a detach leaves. -/
inductive Uses (t : Taken System Event) : PermitUse → Permit → Prop
  | deployment {now u p db} (event : t.event = .transact (.usePermit now u))
      (committed : t.before.db.usePermit now u = .ok db)
      (consumed : t.before.db.consumePermit now u = .ok (p, db))
      (id : u.deployment ≠ some detachedMark) : Uses t u p
  | detach {now org app env d actor presented p db db'}
      (event : t.event = .transact (.detach now org app env d actor))
      (committed : t.before.db.detachResource now org app env d actor = .ok db')
      (hpresented : d.permits = some presented)
      (consumed : t.before.db.consumePermit now (detachUse org app env d presented) = .ok (p, db)) :
    Uses t (detachUse org app env d presented) p

structure PermitsSound (history : List (Taken System Event)) : Prop where
  /-- The use by a deployment, its acceptance and the issue, newest first. -/
  consumed : ∀ t ∈ history, ∀ u p id, Uses t u p → u.deployment = some id → t.before.db.Covers u p ∧
    ∃ accepted issued, [t, accepted, issued].Sublist history ∧ BoundBy accepted p.asIssued id ∧
      Issued issued p.asIssued
  /-- Two steps that use one permit are uses by one deployment. -/
  once : history.Pairwise fun t t' => ∀ u p u' p', Uses t u p → Uses t' u' p' → p.id = p'.id →
    u.deployment.isSome ∧ u.deployment = u'.deployment

/-- Where a permit's row after the step comes from. -/
inductive RowOf (t : Taken System Event) (p : Permit) : Prop
  | kept (row : p ∈ t.before.db.permits)
  | issued (issued : Issued t p)
  | bound {p₀ id} (bound : BoundBy t p₀ id) (eq : p = { p₀ with boundTo := some id })
  | used {p₀ now} (row : p₀ ∈ t.before.db.permits) (eq : p = markUsed now p₀)

variable {s : System} {db : Db} {t : Taken System Event} {p : Permit} {u : PermitUse}
  {db' : Db} {now : Nat} {org app env : String} {actor : Option String}

theorem detachResource_permits {d : Detach}
    (h : db.detachResource now org app env d actor = .ok db') :
    ∃ db1, db.useDetachPermit now org app env d = .ok db1 ∧ db'.permits = db1.permits := by
  simp only [detachResource, bind_eq_ok] at h
  obtain ⟨_, _, _, _, h⟩ := h
  split at h
  · cases h
  · simp only [bind_eq_ok] at h
    obtain ⟨_, _, _, _, h⟩ := h
    split at h
    · cases h
    · simp only [bind_eq_ok] at h
      obtain ⟨db1, h1, h⟩ := h
      cases h
      exact ⟨db1, h1, rfl⟩

theorem transact_permits {t : Transaction} (hnodup : (s.db.permits.map (·.id)).Nodup)
    (htx : t.run s.db = .ok db') :
    (db'.permits.map (·.id)).Nodup ∧ ∀ p ∈ db'.permits, RowOf ⟨s, .transact t, { s with db := db' }⟩ p := by
  have hsublist : db'.permits.Sublist s.db.permits →
      (db'.permits.map (·.id)).Nodup ∧ ∀ p ∈ db'.permits, RowOf ⟨s, .transact t, { s with db := db' }⟩ p :=
    fun h => ⟨hnodup.sublist (h.map _), fun p hp => .kept (h.subset hp)⟩
  have hsame : db'.permits = s.db.permits → _ := fun h => hsublist (h ▸ List.Sublist.refl _)
  cases t with
  | configure c =>
    cases htx
    exact hsame rfl
  | createApp org id owner actor => exact hsame (createApp_permits htx)
  | createEnv org app id envType actor => exact hsame (createEnv_permits htx)
  | putPlan now id org app env actor generation => exact hsame (putPlan_permits htx)
  | usePermit now u =>
    simp only [Transaction.run, usePermit, bind_eq_ok] at htx
    obtain ⟨_, _, _, _, q, hq, htx⟩ := htx
    cases htx
    obtain ⟨hids, hrows⟩ := consumePermit_permits hnodup hq
    refine ⟨hids ▸ hnodup, fun p hp => ?_⟩
    rcases hrows p hp with hrow | rfl
    · exact .kept hrow
    · exact .used (consumePermit_ok hq).1.row rfl
  | accept now id req =>
    obtain ⟨q, hq, rfl⟩ := map_eq_ok.1 htx
    obtain ⟨_, _, hq⟩ := bind_eq_ok.1 hq
    obtain ⟨hadmits, hrows⟩ := acceptInTx_permits hnodup hq
    refine ⟨hadmits.ids ▸ hnodup, fun p hp => ?_⟩
    rcases hrows p hp with hrow | ⟨p₀, hbinds, happ, henv, rfl⟩
    · exact .kept hrow
    · exact .bound ⟨now, req.permits, by rw [happ, henv]; exact .deployment now id req, hbinds⟩ rfl
  | acceptAppDeletion now ids req =>
    obtain ⟨q, hq, rfl⟩ := map_eq_ok.1 htx
    obtain ⟨hids, hrows⟩ := acceptAppDeletion_permits hnodup hq
    refine ⟨hids ▸ hnodup, fun p hp => ?_⟩
    rcases hrows p hp with hrow | ⟨p₀, binding, id, hbinding, happ, hbinds, rfl⟩
    · exact .kept hrow
    · exact .bound ⟨now, binding, by rw [happ]; exact .application now ids req hbinding, hbinds⟩ rfl
  | finish org app env id error =>
    obtain ⟨_, _, htx⟩ := bind_eq_ok.1 htx
    exact hsublist (finishInTx_permits htx).1
  | checkpoint id result => exact hsame (checkpointInTx_permits htx)
  | resolve id resolution actor => exact hsame (resolveOperation_permits htx)
  | keepRecoveryCookie id observedWith cookie =>
    cases htx
    exact hsame (keepRecoveryCookie_permits id observedWith cookie)
  | detach now org app env d actor =>
    obtain ⟨db1, h1, hpermits⟩ := detachResource_permits htx
    unfold useDetachPermit at h1
    split at h1
    · cases h1
      exact hsame hpermits
    · obtain ⟨q, hq, rfl⟩ := map_eq_ok.1 h1
      obtain ⟨hids, hrows⟩ := consumePermit_permits hnodup hq
      rw [hpermits]
      refine ⟨hids ▸ hnodup, fun p hp => ?_⟩
      rcases hrows p hp with hrow | rfl
      · exact .kept hrow
      · exact .used (consumePermit_ok hq).1.row rfl
  | scheduleDeletion org app env descriptor actor => exact hsame (scheduleDeletion_permits htx)
  | recoverInterrupted =>
    obtain ⟨q, hq, rfl⟩ := map_eq_ok.1 htx
    exact hsame (recoverInterrupted_permits hq)

theorem begin_permits (s : System) (now : Nat) (id : String) (guresid : Guresid) (start : OperationStart) :
    (s.begin now id guresid start).db.permits = s.db.permits ∧ (s.begin now id guresid start).permitIds = s.permitIds := by
  refine ⟨?_, ?_⟩
  · rw [(s.begin_ids now id guresid start).2.2]
    exact beginOperation_permits now id guresid start
  · unfold begin
    dsimp only
    split <;> rfl

theorem recordInputs_permits (s : System) (id : String) (recovery : Json) :
    (s.recordInputs id recovery).db.permits = s.db.permits ∧ (s.recordInputs id recovery).permitIds = s.permitIds := by
  unfold recordInputs
  split
  · exact ⟨rfl, rfl⟩
  · rename_i db htx
    exact ⟨recordOperationInputs_permits htx, rfl⟩

theorem markRestored_permits (s : System) (now : Nat) (ids : Nat → String) :
    (s.markRestored now ids).db.permits = s.db.permits ∧ (s.markRestored now ids).permitIds = s.permitIds := by
  unfold markRestored
  split
  · exact ⟨rfl, rfl⟩
  · rename_i found db htx
    exact ⟨markEach_permits _ htx, rfl⟩

structure StepPermits (t : Taken System Event) : Prop where
  ids : (t.after.db.permits.map (·.id)).Nodup
  rows : ∀ p ∈ t.after.db.permits, RowOf t p
  drawn : t.before.permitIds ⊆ t.after.permitIds

theorem stepPermits_of_same (hnodup : (t.before.db.permits.map (·.id)).Nodup)
    (hpermits : t.after.db.permits = t.before.db.permits) (hids : t.after.permitIds = t.before.permitIds) : StepPermits t :=
  ⟨hpermits ▸ hnodup, fun _ hp => .kept (hpermits ▸ hp), hids ▸ List.Subset.refl _⟩

theorem issue_permits {ids : Nat → String} {plan : String} {permits : List NewPermit} (hnodup : (s.db.permits.map (·.id)).Nodup)
    (hdrawn : ¬ ((List.range permits.length).any fun i => s.permitIds.contains ("prm-" ++ ids i)) = true) :
    StepPermits ⟨s, .issuePermits now ids org app env plan permits actor,
      s.issuePermits now ids org app env plan permits actor⟩ := by
  unfold issuePermits
  split
  · exact stepPermits_of_same hnodup rfl rfl
  · rename_i db htx
    obtain ⟨issued, hdb, hnodup', hissued⟩ := issuePermits_ok htx
    refine ⟨hnodup' hnodup, fun p hp => ?_, subset_append_right _ _⟩
    have hmem : p ∈ s.db.permits ++ issued := by
      rw [hdb] at hp
      exact hp
    rcases mem_append.1 hmem with hrow | hnew
    · exact .kept hrow
    · obtain ⟨hissuable, rfl, rfl, rfl, rfl, hexpires, i, hi, hid⟩ := hissued p hnew
      refine .issued ⟨⟨now, ids, org, permits, hexpires, rfl⟩, ⟨?_, ?_⟩, hp, hissuable⟩
      · intro hold
        refine hdrawn (any_eq_true.2 ⟨i, mem_range.2 hi, ?_⟩)
        rw [← hid]
        simpa using hold
      · exact mem_append_left _ (mem_map.2 ⟨i, mem_range.2 hi, hid.symm⟩)

theorem step_permits (hnodup : (s.db.permits.map (·.id)).Nodup) (e : Event) : StepPermits ⟨s, e, s.step e⟩ := by
  have hsame : ∀ s' : System, s'.db.permits = s.db.permits ∧ s'.permitIds = s.permitIds → StepPermits ⟨s, e, s'⟩ :=
    fun _ h => stepPermits_of_same hnodup h.1 h.2
  cases e with
  | transact t =>
    change StepPermits ⟨s, _, s.commit (t.run s.db)⟩
    cases htx : t.run s.db with
    | error err => exact hsame s ⟨rfl, rfl⟩
    | ok db =>
      obtain ⟨hids, hrows⟩ := transact_permits hnodup htx
      exact ⟨hids, hrows, List.Subset.refl _⟩
  | begin now id guresid b =>
    change StepPermits ⟨s, _, if _ then s else _⟩
    split
    · exact hsame s ⟨rfl, rfl⟩
    · exact hsame _ (s.begin_permits now id guresid b.start)
  | recordInputs id n job => exact hsame _ (s.recordInputs_permits id (n.recorded job))
  | call id =>
    change StepPermits ⟨s, _, if _ then { s with called := id :: s.called } else s⟩
    split
    · exact hsame { s with called := id :: s.called } ⟨rfl, rfl⟩
    · exact hsame s ⟨rfl, rfl⟩
  | markRestored now ids =>
    change StepPermits ⟨s, _, if _ then s else _⟩
    split
    · exact hsame s ⟨rfl, rfl⟩
    · exact hsame _ (s.markRestored_permits now ids)
  | issuePermits now ids org app env plan permits actor =>
    change StepPermits ⟨s, _, if _ then s else _⟩
    split
    · exact hsame s ⟨rfl, rfl⟩
    · rename_i hdrawn
      exact issue_permits hnodup hdrawn

def usedBy (u : PermitUse) : String := u.deployment.getD detachedMark

structure Tracked (history : List (Taken System Event)) (s : System) : Prop where
  ids : (s.db.permits.map (·.id)).Nodup
  drawn : ∀ p ∈ s.db.permits, p.id ∈ s.permitIds
  unused : ∀ p ∈ s.db.permits, p.boundTo = none → p.usedAt = none
  issued : ∀ p ∈ s.db.permits, ∃ issued ∈ history, Issued issued p.asIssued
  bound : ∀ p ∈ s.db.permits, ∀ id, p.boundTo = some id → id ≠ detachedMark →
    ∃ accepted issued, [accepted, issued].Sublist history ∧ BoundBy accepted p.asIssued id ∧ Issued issued p.asIssued
  used : ∀ t ∈ history, ∀ u p, Uses t u p →
    p.id ∈ s.permitIds ∧ ∀ q ∈ s.db.permits, q.id = p.id → q.boundTo = some (usedBy u)

theorem asIssued_of_unused (hfree : p.boundTo = none) (hunused : p.usedAt = none) : p.asIssued = p := by
  cases p
  simp_all [Permit.asIssued]

theorem Uses.covers (h : Uses t u p) : t.before.db.Covers u p := by
  cases h with
  | deployment _ _ consumed _ => exact (consumePermit_ok consumed).1
  | detach _ _ _ consumed => exact (consumePermit_ok consumed).1

theorem markUsed_boundTo (h : db.Covers u p) (now : Nat) : (markUsed now p).boundTo = some (usedBy u) := by
  unfold markUsed usedBy
  cases hu : u.deployment with
  | none => simp [h.free hu]
  | some id => simp [h.bound id hu]

theorem consumed_boundTo {c : Permit × Db} (hnodup : (db.permits.map (·.id)).Nodup)
    (h : db.consumePermit now u = .ok c) : ∀ q ∈ c.2.permits, q.id = c.1.id → q.boundTo = some (usedBy u) := by
  intro q hq hid
  obtain ⟨hcovers, hdb⟩ := consumePermit_ok h
  rw [hdb] at hq
  obtain ⟨r, hr, rfl⟩ := Table.mem_update.1 hq
  split at hid
  · rename_i hkey
    obtain rfl : r = c.1 := Table.eq_of_key hnodup hr hcovers.row (by simpa using hkey)
    rw [if_pos hkey]
    exact markUsed_boundTo hcovers now
  · rename_i hkey
    exact absurd hid (by simpa using hkey)

theorem Uses.boundTo {e : Event} (hnodup : (s.db.permits.map (·.id)).Nodup) (h : Uses ⟨s, e, s.step e⟩ u p) :
    ∀ q ∈ (s.step e).db.permits, q.id = p.id → q.boundTo = some (usedBy u) := by
  cases h with
  | @deployment now _ _ db event committed consumed _ =>
    cases event
    have hstep : s.step (.transact (.usePermit now u)) = { s with db } := by
      change s.commit (s.db.usePermit now u) = _
      rw [committed]
      rfl
    rw [hstep]
    exact consumed_boundTo hnodup consumed
  | @detach now org app env d actor presented _ db db' event committed hpresented consumed =>
    cases event
    have hstep : s.step (.transact (.detach now org app env d actor)) = { s with db := db' } := by
      change s.commit (s.db.detachResource now org app env d actor) = _
      rw [committed]
      rfl
    rw [hstep]
    obtain ⟨db1, h1, hpermits⟩ := detachResource_permits committed
    simp only [useDetachPermit, hpresented, consumed] at h1
    cases h1
    rw [hpermits]
    exact consumed_boundTo hnodup consumed

theorem RowOf.boundTo {i by' : String} {q : Permit} (h : RowOf t q) (hid : q.id = i) (hdrawn : i ∈ t.before.permitIds)
    (hused : ∀ q ∈ t.before.db.permits, q.id = i → q.boundTo = some by') : q.boundTo = some by' := by
  cases h with
  | kept row => exact hused q row hid
  | issued issued => exact absurd (hid ▸ hdrawn) issued.drawn.1
  | @bound p₀ id bound eq =>
    obtain ⟨_, _, _, hbinds⟩ := bound
    have hsome := hused p₀ hbinds.row (by rw [← hid, eq])
    rw [hbinds.free] at hsome
    cases hsome
  | @used p₀ now row eq =>
    have hsome := hused p₀ row (by rw [← hid, eq]; rfl)
    rw [eq, markUsed, hsome]
    rfl

theorem RowOf.origin (h : RowOf t p) :
    Issued t p ∨ ∃ p₀ ∈ t.before.db.permits, p.asIssued = p₀.asIssued ∧ (p.boundTo = none → p = p₀) := by
  cases h with
  | kept row => exact .inr ⟨p, row, rfl, fun _ => rfl⟩
  | issued issued => exact .inl issued
  | @bound p₀ id bound eq =>
    obtain ⟨_, _, _, hbinds⟩ := bound
    subst eq
    exact .inr ⟨p₀, hbinds.row, rfl, nofun⟩
  | @used p₀ now row eq =>
    subst eq
    exact .inr ⟨p₀, row, rfl, fun hfree => by simp [markUsed] at hfree⟩

theorem Tracked.step {history} (h : Tracked history s) (e : Event) :
    Tracked (⟨s, e, s.step e⟩ :: history) (s.step e) := by
  obtain ⟨hids, hrows, hdrawn⟩ := step_permits h.ids e
  refine ⟨hids, fun p hp => ?_, fun p hp hfree => ?_, fun p hp => ?_, fun p hp id hbound hid => ?_, ?_⟩
  · rcases (hrows p hp).origin with issued | ⟨p₀, hrow, hsame, _⟩
    · exact issued.drawn.2
    · have hid : p.asIssued.id = p₀.asIssued.id := by rw [hsame]
      change p.id = p₀.id at hid
      exact hid ▸ hdrawn (h.drawn p₀ hrow)
  · rcases (hrows p hp).origin with issued | ⟨p₀, hrow, _, heq⟩
    · exact issued.issuable.unused
    · obtain rfl := heq hfree
      exact h.unused p hrow hfree
  · rcases (hrows p hp).origin with issued | ⟨p₀, hrow, hsame, _⟩
    · refine ⟨_, mem_cons_self, ?_⟩
      rwa [asIssued_of_unused issued.issuable.free issued.issuable.unused]
    · obtain ⟨t, ht, hissued⟩ := h.issued p₀ hrow
      exact ⟨t, mem_cons_of_mem _ ht, hsame ▸ hissued⟩
  · cases hrows p hp with
    | kept row =>
      obtain ⟨accepted, issued, horder, hfacts⟩ := h.bound p row id hbound hid
      exact ⟨accepted, issued, horder.cons _, hfacts⟩
    | issued issued =>
      rw [issued.issuable.free] at hbound
      cases hbound
    | @bound p₀ id' bound eq =>
      subst eq
      cases hbound
      have ⟨_, _, _, hbinds⟩ := bound
      obtain ⟨issued, hmem, hissued⟩ := h.issued p₀ hbinds.row
      have hsame := asIssued_of_unused hbinds.free (h.unused p₀ hbinds.row hbinds.free)
      refine ⟨_, issued, (singleton_sublist.2 hmem).cons_cons _, ?_, hissued⟩
      change BoundBy _ p₀.asIssued _
      rwa [hsame]
    | @used p₀ now row eq =>
      subst eq
      have hbefore : p₀.boundTo = some id := by
        cases hp0 : p₀.boundTo with
        | none =>
          simp only [markUsed, hp0, Option.none_or, Option.some.injEq] at hbound
          exact absurd hbound.symm hid
        | some id' => simpa [markUsed, hp0] using hbound
      obtain ⟨accepted, issued, horder, hfacts⟩ := h.bound p₀ row id hbefore hid
      exact ⟨accepted, issued, horder.cons _, hfacts⟩
  · intro t ht u p huses
    rcases mem_cons.1 ht with rfl | ht
    · exact ⟨hdrawn (h.drawn p huses.covers.row), huses.boundTo h.ids⟩
    · obtain ⟨hmem, hused⟩ := h.used t ht u p huses
      exact ⟨hdrawn hmem, fun q hq hid => (hrows q hq).boundTo hid hmem hused⟩

theorem tracked (org : String) (events : List Event) : Tracked (history org events) (after org events) := by
  refine Transition.invariant_taken ?_ (fun _ _ e h => h.step e) events
  refine ⟨nodup_nil, ?_, ?_, ?_, ?_, ?_⟩
  all_goals exact fun _ h => absurd h not_mem_nil

theorem Uses.id_ne (h : Uses t u p) : u.deployment ≠ some detachedMark := by
  cases h with
  | deployment _ _ _ id => exact id
  | detach _ _ _ _ => exact nofun

theorem PermitsSound.cons {history} (h : PermitsSound history) (htracked : Tracked history t.before) :
    PermitsSound (t :: history) where
  consumed t' ht' u p id huses hid := by
    rcases mem_cons.1 ht' with rfl | ht'
    · have hcovers := huses.covers
      have hne : id ≠ detachedMark := fun hmark => huses.id_ne (hmark ▸ hid)
      obtain ⟨accepted, issued, horder, hfacts⟩ := htracked.bound p hcovers.row id (hcovers.bound id hid) hne
      exact ⟨hcovers, accepted, issued, horder.cons_cons _, hfacts⟩
    · obtain ⟨hcovers, accepted, issued, horder, hfacts⟩ := h.consumed t' ht' u p id huses hid
      exact ⟨hcovers, accepted, issued, horder.cons _, hfacts⟩
  once := by
    refine pairwise_cons.2 ⟨fun t' ht' u p u' p' huses huses' hid => ?_, h.once⟩
    have hcovers := huses.covers
    have hbound := (htracked.used t' ht' u' p' huses').2 p hcovers.row hid
    -- a detach needs a permit that nothing used, a deployment one that is bound to it
    cases hu : u.deployment with
    | none =>
      rw [hcovers.free hu] at hbound
      cases hbound
    | some id =>
      rw [hcovers.bound id hu, Option.some.injEq] at hbound
      refine ⟨rfl, ?_⟩
      cases hu' : u'.deployment with
      | none =>
        rw [usedBy, hu', Option.getD_none] at hbound
        exact absurd (hbound ▸ hu) huses.id_ne
      | some id' =>
        rw [usedBy, hu', Option.getD_some] at hbound
        rw [hbound]

theorem permits_sound (org : String) (events : List Event) : PermitsSound (history org events) := by
  induction events with
  | nil => exact ⟨fun t ht => absurd ht not_mem_nil, List.Pairwise.nil⟩
  | cons e events ih => exact ih.cons (tracked org events)

end System
end Openporch
