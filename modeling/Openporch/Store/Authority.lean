import Openporch.Store.Frame

/-!
# What a permit's issue, binding and use check

`mayPermit` says who may permit a destructive action; the three transactions of a permit's life check it, each at its
own time.
-/

namespace Openporch
open List Fallible

namespace Db
variable (db : Db)

def deploys (principal app envType : String) : Bool :=
  db.isAdministrator principal ||
    ((db.rolesIn principal).apps.lookup app).any (fun role => AppRole.developer.rank ≤ role.rank) &&
      (db.rolesIn principal).deployer.contains envType

/-- A detach needs an administrator. So does anything destructive where the type is protected, and there no one
may permit a change of unknown impact. -/
def mayPermit (app envType : String) (action : DestructiveAction) (issuer : String) : Bool :=
  (if action = .detach then db.isAdministrator issuer else db.deploys issuer app envType) &&
    (!db.isProtected envType || action ≠ .unknown && db.isAdministrator issuer)

def Authorises (p : Permit) : Prop :=
  ∃ e, db.env? p.app p.env = some e ∧ db.mayPermit p.app e.envType p.action p.issuer = true

variable {db} {app env envType : String} {action : DestructiveAction} {issuer : String}

theorem checkEnvAuthority_ok {u : Unit} :
    db.checkEnvAuthority (some issuer) app envType = .ok u ↔ db.deploys issuer app envType = true := by
  unfold checkEnvAuthority deploys
  dsimp only
  split
  · simp_all
  · split
    · simp_all
    · split <;> simp_all

theorem checkAdminAuthority_ok {u : Unit} :
    db.checkAdminAuthority (some issuer) = .ok u ↔ db.isAdministrator issuer = true := by
  simp [checkAdminAuthority]

theorem checkProtection_ok {u : Unit} : db.checkProtection envType action issuer = .ok u ↔
    (!db.isProtected envType || action ≠ .unknown && db.isAdministrator issuer) = true := by
  unfold checkProtection
  split
  · simp_all
  · split
    · simp_all
    · by_cases hadmin : db.isAdministrator issuer = true
      · simp_all [checkAdminAuthority, refuseIf]
      · simp_all [checkAdminAuthority, refuseIf]

theorem issuerLost_none :
    db.issuerLost app envType action issuer = .ok none ↔ db.mayPermit app envType action issuer = true := by
  have hauthority : (if action = .detach then db.checkAdminAuthority (some issuer)
      else db.checkEnvAuthority (some issuer) app envType) = .ok () ↔
        (if action = .detach then db.isAdministrator issuer else db.deploys issuer app envType) = true := by
    split
    · exact checkAdminAuthority_ok
    · exact checkEnvAuthority_ok
  unfold issuerLost mayPermit
  rw [Bool.and_eq_true, ← hauthority, ← checkProtection_ok (u := ())]
  dsimp only
  generalize (if action = .detach then db.checkAdminAuthority (some issuer)
      else db.checkEnvAuthority (some issuer) app envType) = authority
  generalize db.checkProtection envType action issuer = protection
  cases authority with
  | error e => cases e <;> simp [Except.bind]
  | ok u =>
    cases protection with
    | error e => cases e <;> simp [Except.bind]
    | ok u => simp [Except.bind]

structure Covers (db : Db) (u : PermitUse) (p : Permit) : Prop where
  row : p ∈ db.permits
  app : p.app = u.app
  env : p.env = u.env
  descriptor : p.descriptor = u.descriptor
  action : p.action = u.action
  guresid : ∀ g, p.guresid = some g → u.guresid = some g
  fingerprint : ∀ f, p.planFingerprint = some f → u.fingerprint = some f
  authority : db.Authorises p
  /-- A deployment uses the permits bound to it. -/
  bound : ∀ deployment, u.deployment = some deployment → p.boundTo = some deployment
  /-- A detach uses a permit that nothing used. -/
  free : u.deployment = none → p.boundTo = none

variable {u : PermitUse} {p : Permit} {generation : Nat}

theorem mem_permitCandidates (h : p ∈ db.permitCandidates u) :
    p ∈ db.permits ∧ p.app = u.app ∧ p.env = u.env ∧ p.descriptor = u.descriptor ∧ p.action = u.action ∧
      ∀ deployment, u.deployment = some deployment → p.boundTo = some deployment := by
  unfold permitCandidates at h
  dsimp only at h
  split at h
  · rename_i deployment hu
    rw [(perm_insertionSort _ _).mem_iff, mem_filter] at h
    simp only [Bool.and_eq_true, decide_eq_true_eq] at h
    obtain ⟨hmem, hbound, ⟨⟨happ, henv⟩, hdescriptor⟩, haction⟩ := h
    refine ⟨hmem, happ, henv, hdescriptor, haction, fun d hd => ?_⟩
    rw [hbound, ← hd, hu]
  · rename_i hu
    obtain ⟨id, _, hid⟩ := mem_filterMap.1 h
    have hp := find?_some hid
    simp only [Bool.and_eq_true, decide_eq_true_eq] at hp
    obtain ⟨_, ⟨⟨happ, henv⟩, hdescriptor⟩, haction⟩ := hp
    refine ⟨mem_of_find?_eq_some hid, happ, henv, hdescriptor, haction, fun d hd => ?_⟩
    rw [hu] at hd
    cases hd

variable {now : Nat} {permits : List NewPermit} {db' : Db}

theorem firstPermit_ok {ps : List Permit} (h : db.firstPermit now u envType generation ps = .ok (.ok p)) :
    p ∈ ps ∧ db.permitRefusal now u envType generation p = .ok none := by
  induction ps with
  | nil => cases h
  | cons q ps ih =>
    simp only [firstPermit, bind_eq_ok] at h
    obtain ⟨refusal, hrefusal, h⟩ := h
    cases refusal with
    | none =>
      cases h
      exact ⟨mem_cons_self, hrefusal⟩
    | some e =>
      simp only [bind_eq_ok] at h
      obtain ⟨rest, hrest, h⟩ := h
      cases rest with
      | error es => cases h
      | ok q' =>
        cases h
        obtain ⟨hmem, hp⟩ := ih hrest
        exact ⟨mem_cons_of_mem _ hmem, hp⟩

theorem permitRefusal_none (h : db.permitRefusal now u envType generation p = .ok none) :
    (∀ g, p.guresid = some g → u.guresid = some g) ∧ (∀ f, p.planFingerprint = some f → u.fingerprint = some f) ∧
      (u.deployment = none → p.boundTo = none) ∧ db.mayPermit u.app envType u.action p.issuer = true := by
  unfold permitRefusal at h
  dsimp only at h
  split at h
  · cases h
  · rename_i hguresid
    split at h
    · cases h
    · rename_i hfingerprint
      split at h
      · cases h
      · rename_i hbound
        split at h
        · cases h
        · split at h
          · cases h
          · obtain ⟨lost, hlost, h⟩ := map_eq_ok.1 h
            cases lost with
            | some e => cases h
            | none =>
              refine ⟨?_, ?_, ?_, issuerLost_none.1 hlost⟩
              · intro g hg
                have hsame : some g = u.guresid := by simpa [hg] using hguresid
                exact hsame.symm
              · intro f hf
                have hsame : some f = u.fingerprint := by simpa [hf] using hfingerprint
                exact hsame.symm
              · intro hu
                simpa [hu] using hbound

theorem env?_of_envType (h : db.envType app env = .ok envType) : ∃ e, db.env? app env = some e ∧ e.envType = envType := by
  obtain ⟨e, he, rfl⟩ := map_eq_ok.1 h
  exact ⟨e, orError_eq_ok.1 he, rfl⟩

theorem consumePermit_ok {q : Permit × Db} (h : db.consumePermit now u = .ok q) :
    db.Covers u q.1 ∧ q.2 = db.setPermit q.1.id (markUsed now) := by
  simp only [consumePermit, bind_eq_ok] at h
  obtain ⟨_, _, envType, henvType, _, _, found, hfound, h⟩ := h
  split at h
  · rename_i p
    cases h
    obtain ⟨hmem, hrefusal⟩ := firstPermit_ok hfound
    obtain ⟨hrow, happ, henv, hdescriptor, haction, hbound⟩ := mem_permitCandidates hmem
    obtain ⟨hguresid, hfingerprint, hfree, hmay⟩ := permitRefusal_none hrefusal
    obtain ⟨e, he, rfl⟩ := env?_of_envType henvType
    refine ⟨⟨hrow, happ, henv, hdescriptor, haction, hguresid, hfingerprint, ?_, hbound, hfree⟩, rfl⟩
    exact ⟨e, by rw [happ, henv]; exact he, by rw [happ, haction]; exact hmay⟩
  · cases h
  · cases h

/-- The permit may be bound to a deployment accepted at this time and generation, with these digests. -/
structure Bindable (db : Db) (now : Nat) (app env : String) (generation : Nat) (digests : List (String × String))
    (p : Permit) : Prop where
  row : p ∈ db.permits
  app : p.app = app
  env : p.env = env
  free : p.boundTo = none
  unexpired : now < p.expiresAt
  generation : p.baseGeneration = generation
  notDetach : p.action ≠ .detach
  authority : db.Authorises p
  digest : digests.lookup p.descriptor = some p.configDigest

theorem bindable_ok {digests} {id : String} (henvType : db.envType app env = .ok envType)
    (h : db.bindable now app env envType generation digests id = .ok p) :
    db.Bindable now app env generation digests p ∧ p.id = id := by
  simp only [bindable, bind_eq_ok, orError_eq_ok, refuseIf_eq_ok] at h
  obtain ⟨p', hp, _, hfree, _, hexpires, _, hgeneration, _, hdetach, lost, hlost, h⟩ := h
  cases lost with
  | some e => cases h
  | none =>
    simp only [bind_eq_ok, refuseIf_eq_ok] at h
    obtain ⟨_, hdigest, h⟩ := h
    cases h
    have hkey := find?_some hp
    simp only [Bool.and_eq_true, decide_eq_true_eq] at hkey
    obtain ⟨⟨happ, henv⟩, hid⟩ := hkey
    obtain ⟨e, he, rfl⟩ := env?_of_envType henvType
    refine ⟨⟨mem_of_find?_eq_some hp, happ, henv, by simpa using hfree, by simpa using hexpires,
      by simpa using hgeneration, by simpa using hdetach, ⟨e, ?_, ?_⟩, by simpa using hdigest⟩, hid⟩
    · rw [happ, henv]
      exact he
    · rw [happ]
      exact issuerLost_none.1 hlost

structure Issuable (db : Db) (p : Permit) : Prop where
  free : p.boundTo = none
  unused : p.usedAt = none
  generation : db.generationOf p.app p.env = .ok p.baseGeneration
  authority : db.Authorises p

theorem parseActions_length {parsed} (h : permits.mapM parseAction = .ok parsed) :
    parsed.length = permits.length := by
  induction permits generalizing parsed with
  | nil =>
    cases h
    rfl
  | cons p permits ih =>
    rw [mapM_cons] at h
    simp only [bind_eq_ok] at h
    obtain ⟨_, _, rest, hrest, h⟩ := h
    cases h
    simp [ih hrest]

theorem insertPermits_ok {α : Type} {row : α → Permit} (as : List α)
    (h : as.foldlM (fun db a => db.insertPermit (row a)) db = .ok db') :
    db' = { db with permits := db.permits ++ as.map row } ∧
      ((db.permits.map (·.id)).Nodup → (db'.permits.map (·.id)).Nodup) := by
  induction as generalizing db with
  | nil =>
    cases h
    simp
  | cons a as ih =>
    rw [foldlM_cons, bind_eq_ok] at h
    obtain ⟨db1, h1, h⟩ := h
    simp only [insertPermit, bind_eq_ok, refuseIf_eq_ok] at h1
    obtain ⟨_, hnew, h1⟩ := h1
    cases h1
    obtain ⟨rfl, hnodup⟩ := ih h
    refine ⟨by simp, fun hids => hnodup (Table.nodup_append_one hids fun hmem => ?_)⟩
    obtain ⟨p, hp, hid⟩ := mem_map.1 hmem
    have hany : db.permits.any (fun p => decide (p.id = (row a).id)) = true :=
      any_eq_true.2 ⟨p, hp, by simpa using hid⟩
    simp [hany] at hnew

theorem issuePermits_ok {ids : Nat → String} {org plan : String}
    {actor : Option String} (h : db.issuePermits now ids org app env plan permits actor = .ok db') :
    ∃ issued, db' = { db with permits := db.permits ++ issued } ∧
      ((db.permits.map (·.id)).Nodup → (db'.permits.map (·.id)).Nodup) ∧
      ∀ p ∈ issued, db.Issuable p ∧ p.app = app ∧ p.env = env ∧ p.plan = plan ∧ actor = some p.issuer ∧
        p.expiresAt = now + permitTtlMs ∧ ∃ i < permits.length, p.id = "prm-" ++ ids i := by
  simp only [issuePermits, bind_eq_ok, orError_eq_ok, refuseIf_eq_ok] at h
  obtain ⟨_, _, issuer, hactor, row, _, _, _, generation, hgeneration, _, hsame, parsed, hparsed, envType, henvType,
    _, hdeploys, h⟩ := h
  have hrest : (parsed.any (fun p => decide (p.2 = .detach)) = true → db.isAdministrator issuer = true) ∧
      (parsed.forM fun p => db.checkProtection envType p.2 issuer) = .ok () ∧
      parsed.zipIdx.foldlM (fun db p => db.insertPermit
        (newPermit now app env plan issuer row.baseGeneration ("prm-" ++ ids p.2) p.1.1 p.1.2)) db = .ok db' := by
    split at h
    · simp only [bind_eq_ok] at h
      obtain ⟨_, hadmin, _, hprotected, h⟩ := h
      exact ⟨fun _ => checkAdminAuthority_ok.1 hadmin, hprotected, h⟩
    · rename_i hnone
      simp only [bind_eq_ok] at h
      obtain ⟨_, hprotected, h⟩ := h
      exact ⟨fun hany => absurd hany hnone, hprotected, h⟩
  obtain ⟨hadmin, hprotected, hinsert⟩ := hrest
  obtain ⟨hdb, hnodup⟩ := insertPermits_ok _ hinsert
  refine ⟨_, hdb, hnodup, fun p hp => ?_⟩
  obtain ⟨⟨⟨new, action⟩, i⟩, hmem, rfl⟩ := mem_map.1 hp
  obtain ⟨e, he, rfl⟩ := env?_of_envType henvType
  have haction := forM_eq_ok.1 hprotected (new, action) (fst_mem_of_mem_zipIdx hmem)
  have hmay : db.mayPermit app e.envType action issuer = true := by
    rw [mayPermit, Bool.and_eq_true, ← checkProtection_ok (u := ())]
    refine ⟨?_, haction⟩
    split
    · rename_i hdetach
      exact hadmin (any_eq_true.2 ⟨_, fst_mem_of_mem_zipIdx hmem, by simpa using hdetach⟩)
    · exact checkEnvAuthority_ok.1 hdeploys
  have hbase : row.baseGeneration = generation := by simpa using hsame
  refine ⟨⟨rfl, rfl, ?_, ⟨e, he, hmay⟩⟩, rfl, rfl, rfl, hactor, rfl, i, ?_, rfl⟩
  · exact hgeneration.trans (by rw [hbase]; rfl)
  · rw [← parseActions_length hparsed]
    exact snd_lt_of_mem_zipIdx hmem

end Db
end Openporch
