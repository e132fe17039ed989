import Openporch.Store.Authority

/-!
# Permissions and delegation

Which permissions a principal's roles give (`evaluate` of `crates/server/src/rbac.rs`), and when one principal may act
for another, as in issuing its tokens (`covers` of `crates/store/src/identity.rs`). The store's transactions check
authority once more.
-/

namespace Openporch
open List

inductive OrgPerm where
  | readMembers
  | readAll
  | manageMembers
  | createApp
  | administer

inductive AppPerm where
  | read
  | configure
  | manage
  | deploy

inductive Permission where
  | publicRoute
  | authenticated
  | org (perm : OrgPerm)
  | app (perm : AppPerm)

inductive Decision where
  | allow
  | deny (reason : String)
  /-- The principal may not see the object at all. -/
  | hidden
deriving DecidableEq

def OrgRole.covers (issuer target : OrgRole) : Bool :=
  issuer = .administrator || target = .member || issuer = target

namespace Roles
variable (roles issuer target : Roles)

def isAdmin : Bool := roles.org = some .administrator

def canSeeApp (app : String) : Bool :=
  roles.isAdmin || roles.org = some .orgViewer || (roles.apps.lookup app).isSome

def develops (app : String) : Bool :=
  (roles.apps.lookup app).any fun role => AppRole.developer.rank ≤ role.rank

def evaluateApp (perm : AppPerm) (app : String) (envType : Option String) : Decision :=
  if !roles.canSeeApp app then .hidden
  else match perm with
    | .read => .allow
    | .configure =>
      if roles.develops app then .allow else .deny ("requires `developer` or `owner` on `" ++ app ++ "`")
    | .manage =>
      if roles.apps.lookup app = some .owner then .allow else .deny ("requires `owner` on `" ++ app ++ "`")
    | .deploy =>
      if !roles.develops app then .deny ("requires `developer` or `owner` on `" ++ app ++ "`")
      else match envType with
        | some t =>
          if roles.deployer.contains t then .allow
          else .deny ("requires the `deployer` role on environment type `" ++ t ++ "`")
        | none => .deny "no environment in scope"

/-- The scope is the application and the environment type of the route's path. -/
def evaluate (perm : Permission) (app envType : Option String) : Decision :=
  match roles.org with
  | none => .deny "not a member of the organization"
  | some .administrator => .allow
  | some role =>
    match perm with
    | .publicRoute | .authenticated | .org .readMembers => .allow
    | .org .readAll =>
      if role = .orgViewer then .allow else .deny "requires the `administrator` or `orgViewer` role"
    | .org .manageMembers | .org .createApp =>
      if role = .manager then .allow else .deny "requires the `administrator` or `manager` role"
    | .org .administer => .deny "requires the `administrator` role"
    | .app p =>
      match app with
      | none => .deny "no application in scope"
      | some app => roles.evaluateApp p app envType

def covers : Bool :=
  issuer.isAdmin || match issuer.org, target.org with
    | some i, some t =>
      i.covers t && target.apps.all (fun a => (issuer.apps.lookup a.1).any fun r => a.2.rank ≤ r.rank) &&
        target.deployer.all issuer.deployer.contains
    | _, _ => target.org.isNone && target.apps.isEmpty && target.deployer.isEmpty

variable {issuer target : Roles}

/-- What `covers` says of two members when the issuer is no administrator. -/
structure Within (target issuer : Roles) : Prop where
  org : target.org = some .member ∧ issuer.org ≠ none ∨ target.org = issuer.org
  apps : ∀ app role, target.apps.lookup app = some role → ∃ r, issuer.apps.lookup app = some r ∧ role.rank ≤ r.rank
  deployer : ∀ t ∈ target.deployer, t ∈ issuer.deployer

theorem covers_elim (h : issuer.covers target = true) (hi : issuer.isAdmin = false) :
    target.org = none ∨ target.Within issuer := by
  rw [covers, hi, Bool.false_or] at h
  split at h
  case h_1 i t horg ht =>
    simp only [Bool.and_eq_true, all_eq_true, contains_iff_mem] at h
    obtain ⟨⟨hcovers, happs⟩, hdeployer⟩ := h
    simp only [OrgRole.covers, Bool.or_eq_true, decide_eq_true_eq] at hcovers
    refine .inr ⟨?_, fun app role hrole => ?_, hdeployer⟩
    · rcases hcovers with (rfl | rfl) | rfl
      · simp [isAdmin, horg] at hi
      · exact .inl ⟨ht, by simp [horg]⟩
      · exact .inr (ht.trans horg.symm)
    · obtain ⟨l1, l2, hl, -⟩ := lookup_eq_some_iff.1 hrole
      simpa [Option.any_eq_true] using happs (app, role) (by simp [hl])
  case h_2 =>
    simp only [Bool.and_eq_true, Option.isNone_iff_eq_none] at h
    exact .inl h.1.1

namespace Within

theorem canSeeApp (h : target.Within issuer) (hi : issuer.isAdmin = false) (app : String)
    (hs : target.canSeeApp app = true) : issuer.canSeeApp app = true := by
  have ht : target.isAdmin = false := by
    rcases h.org with ⟨horg, -⟩ | horg
    · simp [isAdmin, horg]
    · simpa [isAdmin, horg] using hi
  simp only [Roles.canSeeApp, ht, hi, Bool.false_or, Bool.or_eq_true, decide_eq_true_eq] at hs ⊢
  rcases hs with hs | hs
  · rcases h.org with ⟨horg, -⟩ | horg
    · simp [horg] at hs
    · exact .inl (horg ▸ hs)
  · obtain ⟨role, hrole⟩ := Option.isSome_iff_exists.1 hs
    obtain ⟨r, hr, -⟩ := h.apps app role hrole
    exact .inr (by simp [hr])

theorem develops (h : target.Within issuer) (app : String) (hd : target.develops app = true) :
    issuer.develops app = true := by
  obtain ⟨role, hrole, hrank⟩ := (Option.any_eq_true ..).1 hd
  obtain ⟨r, hr, hle⟩ := h.apps app role hrole
  simp only [decide_eq_true_eq] at hrank
  simpa [Roles.develops, hr] using hrank.trans hle

theorem owns (h : target.Within issuer) (app : String) (ht : target.apps.lookup app = some .owner) :
    issuer.apps.lookup app = some .owner := by
  obtain ⟨r, hr, hle⟩ := h.apps app _ ht
  cases r <;> simp_all [AppRole.rank]

theorem evaluateApp (h : target.Within issuer) (hi : issuer.isAdmin = false) (perm : AppPerm) (app : String)
    (envType : Option String) (ht : target.evaluateApp perm app envType = .allow) :
    issuer.evaluateApp perm app envType = .allow := by
  have hsee := h.canSeeApp hi app
  have hdevelops := h.develops app
  have howns := h.owns app
  have hdeployer := h.deployer
  unfold Roles.evaluateApp at ht ⊢
  cases perm <;> cases envType <;> grind

end Within

/-- Whoever covers another's roles is allowed everything that the other is, in every scope. -/
theorem covers_evaluate (h : issuer.covers target = true) (perm : Permission) (app envType : Option String)
    (ht : target.evaluate perm app envType = .allow) : issuer.evaluate perm app envType = .allow := by
  cases hi : issuer.isAdmin with
  | true =>
    rw [isAdmin, decide_eq_true_eq] at hi
    simp [evaluate, hi]
  | false =>
    rcases covers_elim h hi with hnone | hwithin
    · simp [evaluate, hnone] at ht
    · have happ := hwithin.evaluateApp hi
      have horg := hwithin.org
      unfold evaluate isAdmin at *
      cases perm <;> grind

def shopManager : Roles := { org := some .manager, apps := [("shop", .owner)], deployer := ["development"] }

def shopService : Roles := { org := some .member, apps := [("shop", .developer)], deployer := ["development"] }

theorem shopManager_deploys :
    shopManager.covers shopService = true ∧
      shopManager.evaluate (.app .deploy) (some "shop") (some "development") = .allow :=
  have hcovers : shopManager.covers shopService = true := by decide
  ⟨hcovers, covers_evaluate hcovers (.app .deploy) (some "shop") (some "development") (by decide)⟩

theorem evaluateApp_manage {app : String} {envType : Option String} :
    roles.evaluateApp .manage app envType = .allow ↔ roles.apps.lookup app = some .owner := by
  unfold evaluateApp canSeeApp
  cases roles.apps.lookup app <;> grind

theorem evaluateApp_deploy {app t : String} :
    roles.evaluateApp .deploy app (some t) = .allow ↔ roles.develops app = true ∧ t ∈ roles.deployer := by
  unfold evaluateApp canSeeApp develops
  cases roles.apps.lookup app <;> grind

/-- Before a handler runs, the server allows a member exactly what the store's transactions then allow. -/
theorem evaluate_iff_authority (db : Db) (actor app envType : String) :
    let roles := db.rolesIn actor
    let Allowed (perm : Permission) (check : Result Unit) : Prop :=
      roles.evaluate perm (some app) (some envType) = .allow ↔ roles.org ≠ none ∧ check = .ok ()
    Allowed (.org .administer) (db.checkAdminAuthority (some actor)) ∧
    Allowed (.org .createApp) (db.checkCreateAppAuthority (some actor)) ∧
    Allowed (.app .manage) (db.checkAppAuthority (some actor) app) ∧
    Allowed (.app .deploy) (db.checkEnvAuthority (some actor) app envType) := by
  simp only [Db.checkAdminAuthority, Db.checkCreateAppAuthority, Db.checkAppAuthority, Db.checkEnvAuthority_ok,
    refuseIf_eq_ok, Db.isAdministrator, Db.deploys]
  generalize db.rolesIn actor = roles
  cases horg : roles.org with
  | none => simp [evaluate, horg]
  | some role => cases role <;> simp [evaluate, horg, evaluateApp_manage, evaluateApp_deploy, develops]

end Roles
end Openporch
