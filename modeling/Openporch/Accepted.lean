import Openporch.ExecutorSpec
import Openporch.Http

/-!
# Accepted mutations

Once a driver has answered that a `put` or `delete` is in progress, the job must not fail as if nothing
had happened (`Truthful`). What is missed is a failed poll without a new cookie (`LostPoll`) and, after a
preview of no effects, refused outputs (`LostOutputs`).
-/

namespace Openporch
open Hoare List

variable {W α : Type}

/-- The job fails after an accepted mutation only with an unknown outcome or with the failure that the
driver reported for the operation. -/
def Truthful : EStateM.Result ExecFailure (Exec W) α → Prop
  | .ok _ _ => True
  | .error f s => (∃ c ∈ s.calls, c.accepts = true) →
      f.isUncertain = true ∨ ∃ c ∈ s.calls, ∃ e, c.reports = some e ∧ f = driverFailure e

def Unmarked (info : DriverInfo) (cookie : Option Cookie) (calls : List DriverCall) : Prop :=
  (∃ c ∈ calls, c.accepts = true) ∧ ∀ k, newestCookie info calls = some k → cookie = some k

/-- The run's last `get` failed, with an error that does not itself say the outcome is unknown. -/
def LostPoll (info : DriverInfo) (cookie : Option Cookie) (s : Exec W) : Prop :=
  Unmarked info cookie s.calls ∧ ∃ e, lastAnswer info s.calls = some (.error e) ∧ e.split.1.unclear = false

def LostOutputs (info : DriverInfo) (cookie : Option Cookie) (schema : Option ResourceType) (s : Exec W) : Prop :=
  Unmarked info cookie s.calls ∧ (∃ r, (r, some (.ok .noEffects)) ∈ s.previews) ∧
    ∃ outputs k e, lastAnswer info s.calls = some (.ok (.ready outputs k)) ∧ checkOutputs schema outputs = .error e

variable (e : DriverError)

theorem driverFailure_split : driverFailure e.split.1 = driverFailure e := by
  induction e with
  | withCookie error cookie ih => exact ih
  | _ => rfl

theorem driverFailure_isUncertain : (driverFailure e).isUncertain = e.split.1.unclear := by
  induction e with
  | withCookie error cookie ih => exact ih
  | _ => rfl

theorem mutationFailure_isUncertain (accepted : Bool) :
    (mutationFailure e accepted).isUncertain = (e.split.1.unclear || accepted) := by
  rw [← driverFailure_isUncertain, mutationFailure]
  cases driverFailure e <;> cases accepted <;> rfl

theorem mutationFailure_unaccepted : mutationFailure e false = driverFailure e := by
  rw [mutationFailure]
  cases driverFailure e <;> rfl

theorem withCookie_isUncertain (newer : Option Sealed) (f : ExecFailure) :
    (f.withCookie newer).isUncertain = f.isUncertain := by
  cases f <;> rfl

theorem withCookie_none (f : ExecFailure) : f.withCookie none = f := by
  cases f <;> rfl

theorem keepFailure_isUncertain (changed : Bool) (f : ExecFailure) :
    (keepFailure changed f).isUncertain = (f.isUncertain || changed) := by
  cases f <;> cases changed <;> rfl

theorem newerCookie_eq_none (sv : Services W) (job : ProvisionJob) (req : DriverRequest) (newest : Option Cookie) :
    newerCookie sv job req (newest.or req.cookie) = none ↔ ∀ k, newest = some k → req.cookie = some k := by
  rw [newerCookie, Option.map_eq_none_iff]
  cases newest with
  | none => cases req.cookie <;> simp
  | some k => by_cases h : req.cookie = some k <;> simp [Option.filter, h, eq_comm]

section Finish
variable (sv : Services W) (job : ProvisionJob) {req : DriverRequest} {info : DriverInfo}

theorem mutationFailure_truthful_iff {e : DriverError} (s : Exec W) (hend : PollEnd info s.calls e) (newer : Option Sealed)
    (hnewer : newer = none ↔ ∀ k, newestCookie info s.calls = some k → req.cookie = some k) :
    Truthful (α := α) (.error ((mutationFailure e newer.isSome).withCookie newer) s) ↔
      ¬ LostPoll info req.cookie s := by
  simp only [Truthful, LostPoll, Unmarked, withCookie_isUncertain, mutationFailure_isUncertain, ← hnewer]
  cases hend with
  | unclear hu hq =>
    have hsplit : e.split.1 = e := by cases e <;> first | rfl | cases hu
    rw [hsplit, hu]
    refine iff_of_true (fun _ => .inl rfl) ?_
    rintro ⟨-, e', hl, he'⟩
    rw [hq e' hl] at he'
    cases he'
  | @refused e0 hl hsil =>
    rw [DriverError.split_bare, hl]
    have hrep : ¬ ∃ c ∈ s.calls, ∃ e, c.reports = some e ∧
        (mutationFailure e0.split.1 newer.isSome).withCookie newer = driverFailure e := by
      rintro ⟨c, hc, e, he, -⟩
      rw [hsil c hc] at he
      cases he
    rw [or_iff_left hrep]
    cases newer with
    | none => cases hu : e0.split.1.unclear <;> simp [hu]
    | some k => simp
  | @reported e0 hl =>
    refine iff_of_true (fun _ => ?_) ?_
    · cases newer with
      | some k => exact .inl (by simp)
      | none =>
        obtain ⟨r, hr⟩ := lastAnswer_mem hl
        refine .inr ⟨_, hr, e0, rfl, ?_⟩
        rw [withCookie_none]
        exact (mutationFailure_unaccepted _).trans (driverFailure_split e0)
    · rintro ⟨-, e', he', -⟩
      cases hl.symm.trans he'

theorem finishProvision_truthful_iff {plan : Plan} {r} (hend : ConvergeEnd info req r) (target : Option String)
    (s : Exec W) (hs : s.calls = (Settled.of r).run.calls)
    (hplan : (∃ r, (r, some (.ok .noEffects)) ∈ s.previews) ↔ plan = .noEffects) :
    Truthful (finishProvision sv job req target plan (.of r) s) ↔
      ¬ (LostPoll info req.cookie s ∨ LostOutputs info req.cookie job.outputSchema s) := by
  cases r with
  | error e run =>
    obtain ⟨htrack, hpoll, hun⟩ := hend
    have hcookie : run.req.cookie = (newestCookie info s.calls).or req.cookie := by rw [hs, htrack]; rfl
    have hno : ¬ LostOutputs info req.cookie job.outputSchema s := by
      rintro ⟨-, -, outputs, k, e, hl, -⟩
      rw [hs] at hl
      exact hun outputs k hl
    rw [or_iff_left hno]
    refine mutationFailure_truthful_iff s (by rw [hs]; exact hpoll) _ ?_
    show newerCookie sv job req run.req.cookie = none ↔ _
    rw [hcookie]
    exact newerCookie_eq_none sv job req _
  | ok outputs run =>
    obtain ⟨htrack, hsil, k, hlast⟩ := hend
    rw [← show s.calls = run.calls from hs] at hsil hlast
    have hcookie : run.req.cookie = (newestCookie info s.calls).or req.cookie := by rw [hs, htrack]; rfl
    have hnewer := newerCookie_eq_none sv job req (newestCookie info s.calls)
    rw [← hcookie] at hnewer
    have hno : ¬ LostPoll info req.cookie s := by
      rintro ⟨-, e, hl, -⟩
      cases hlast.symm.trans hl
    -- what is lost is exactly a refused result of a driver that announced no change and left no mark
    have hlost : LostOutputs info req.cookie job.outputSchema s ↔
        ((∃ c ∈ s.calls, c.accepts = true) ∧ newerCookie sv job req run.req.cookie = none) ∧ plan = .noEffects ∧
          ∃ e, checkOutputs job.outputSchema outputs = .error e := by
      rw [LostOutputs, Unmarked, hplan, hnewer, hlast]
      simp
    rw [or_iff_right hno, hlost]
    have hspec := provisioned_spec job (keep_calls (C := fun c _ => c = s.calls) sv) outputs run.req.cookie target s rfl
    show Truthful ((provisioned sv job outputs run.req.cookie target).mapError (fun f =>
      (keepFailure (plan ≠ .noEffects || (newerCookie sv job req run.req.cookie).isSome) f).withCookie
        (newerCookie sv job req run.req.cookie)) s) ↔ _
    generalize newerCookie sv job req run.req.cookie = newer
    dsimp only [ExecM.mapError]
    rcases hp : provisioned sv job outputs run.req.cookie target s with ⟨result, s'⟩ | ⟨f, s'⟩ <;> rw [hp] at hspec
    · exact iff_of_true trivial fun h => by obtain ⟨-, -, e, he⟩ := h; cases hspec.1.symm.trans he
    · obtain ⟨hf, hcalls⟩ := hspec
      have htruth : ∀ g, Truthful (α := ProvisionResult) (.error g s') ↔
          ((∃ c ∈ s.calls, c.accepts = true) → g.isUncertain = true) := by
        intro g
        refine imp_congr (by rw [hcalls]) (or_iff_left ?_)
        rintro ⟨c, hc, e, he, -⟩
        rw [hsil c (hcalls ▸ hc)] at he
        cases he
      rw [htruth, withCookie_isUncertain, keepFailure_isUncertain]
      rcases hf with ⟨hok, hf⟩ | ⟨he, m, rfl⟩
      · simp [hf, hok]
      · cases newer <;> by_cases hp : plan = .noEffects <;> simp [hp, he, ExecFailure.isUncertain]

theorem finishDeprovision_truthful_iff {r} (hend : RemoveEnd info req r) (s : Exec W)
    (hs : s.calls = (Settled.of r).run.calls) :
    Truthful (finishDeprovision sv job req (.of r) s) ↔ ¬ LostPoll info req.cookie s := by
  cases r with
  | ok _ run =>
    refine iff_of_true trivial ?_
    rintro ⟨-, e, hl, -⟩
    rw [hs] at hl
    exact hend e hl
  | error e run =>
    obtain ⟨htrack, hpoll⟩ := hend
    have hcookie : run.req.cookie = (newestCookie info s.calls).or req.cookie := by rw [hs, htrack]; rfl
    refine mutationFailure_truthful_iff s (by rw [hs]; exact hpoll) _ ?_
    show newerCookie sv job req run.req.cookie = none ↔ _
    rw [hcookie]
    exact newerCookie_eq_none sv job req _

end Finish

section Jobs
variable (sv : Services W) (job : ProvisionJob)

theorem truthful_of_unaccepted {r : EStateM.Result ExecFailure (Exec W) α}
    (h : ∀ c ∈ (execState r).calls, c.accepts = false) : Truthful r := by
  cases r with
  | ok a s => trivial
  | error f s =>
    rintro ⟨c, hc, ha⟩
    rw [h c hc] at ha
    cases ha

theorem not_unmarked_of_unaccepted {info : DriverInfo} {cookie : Option Cookie} {calls}
    (h : ∀ c ∈ calls, c.accepts = false) : ¬ Unmarked info cookie calls := by
  rintro ⟨⟨c, hc, ha⟩, -⟩
  rw [h c hc] at ha
  cases ha

variable {sv job}

theorem truthful_iff {r : EStateM.Result ExecFailure (Exec W) α} {L : DriverInfo → Option Cookie → Exec W → Prop}
    (hlost : ∀ {info cookie s}, L info cookie s → Unmarked info cookie s.calls)
    (h : (∀ c ∈ (execState r).calls, c.accepts = false) ∨ ∃ d cookie, sv.driver job = .ok d ∧
      sv.openCookie job = .ok cookie ∧ (Truthful r ↔ ¬ L d.info cookie (execState r))) :
    Truthful r ↔ ∀ d cookie, sv.driver job = .ok d → sv.openCookie job = .ok cookie →
      ¬ L d.info cookie (execState r) := by
  rcases h with hun | ⟨d, cookie, hd, hc, h⟩
  · exact iff_of_true (truthful_of_unaccepted hun) fun _ _ _ _ hl => not_unmarked_of_unaccepted hun (hlost hl)
  · rw [h]
    constructor
    · intro h d' cookie' hd' hc'
      cases hd.symm.trans hd'
      cases hc.symm.trans hc'
      exact h
    · exact fun h => h _ _ hd hc

variable (sv job)

theorem runProvision_truthful_iff (world : W) (now : Nat) :
    Truthful (runProvision sv job (.start world now)) ↔
      ∀ d cookie, sv.driver job = .ok d → sv.openCookie job = .ok cookie →
        ¬ (LostPoll d.info cookie (execState (runProvision sv job (.start world now))) ∨
          LostOutputs d.info cookie job.outputSchema (execState (runProvision sv job (.start world now)))) := by
  refine truthful_iff (L := fun info cookie s => LostPoll info cookie s ∨ LostOutputs info cookie job.outputSchema s)
    (fun hl => hl.elim (·.1) (·.1)) ?_
  have hruns := runProvision_runs sv job world now
  generalize runProvision sv job (.start world now) = result at hruns ⊢
  cases hruns with
  | unready hcalls => exact .inl fun c hc => absurd (hcalls ▸ hc) not_mem_nil
  | @ready p s s' hready hcalls hpreviews =>
    obtain ⟨⟨hd, hc, -⟩, -, hplan⟩ := hready
    rcases converge_end p.driver p.req p.timeout s.now s.world with hun | ⟨r, hr, hend⟩
    · exact .inl (by rw [(finishProvision_calls ..).1, hcalls]; exact hun)
    · rw [hr] at hcalls ⊢
      refine .inr ⟨p.driver, _, hd, hc, ?_⟩
      rw [finishProvision_truthful_iff sv job hend p.target s' hcalls (hpreviews ▸ hplan)]
      obtain ⟨hk, hkp⟩ := finishProvision_calls sv job p.req p.target p.plan (.of r) s'
      simp only [LostPoll, LostOutputs, hk, hkp]

theorem runDeprovision_truthful_iff (world : W) (now : Nat) :
    Truthful (runDeprovision sv job (.start world now)) ↔
      ∀ d cookie, sv.driver job = .ok d → sv.openCookie job = .ok cookie →
        ¬ LostPoll d.info cookie (execState (runDeprovision sv job (.start world now))) := by
  refine truthful_iff (·.1) ?_
  have hruns := runDeprovision_runs sv job world now
  generalize runDeprovision sv job (.start world now) = result at hruns ⊢
  cases hruns with
  | unready hcalls => exact .inl fun c hc => absurd (hcalls ▸ hc) not_mem_nil
  | @ready p s s' hready hcalls _ =>
    obtain ⟨⟨hd, hc, -⟩, -, -⟩ := hready
    rcases remove_end p.driver p.req p.timeout s.now s.world with hun | ⟨r, hr, hend⟩
    · exact .inl (by rw [finishDeprovision_calls, hcalls]; exact hun)
    · rw [hr] at hcalls ⊢
      refine .inr ⟨p.driver, _, hd, hc, ?_⟩
      rw [finishDeprovision_truthful_iff sv job hend s' hcalls, finishDeprovision_calls]

/-- Both jobs report an accepted mutation truthfully exactly when no poll fails and no announced no-op
ends in refused outputs while the newest cookie the driver returned is still the job's own. -/
theorem accepted_truthful_iff (world : W) (now : Nat) :
    (Truthful (runProvision sv job (.start world now)) ↔
      ∀ d cookie, sv.driver job = .ok d → sv.openCookie job = .ok cookie →
        ¬ (LostPoll d.info cookie (execState (runProvision sv job (.start world now))) ∨
          LostOutputs d.info cookie job.outputSchema (execState (runProvision sv job (.start world now))))) ∧
    (Truthful (runDeprovision sv job (.start world now)) ↔
      ∀ d cookie, sv.driver job = .ok d → sv.openCookie job = .ok cookie →
        ¬ LostPoll d.info cookie (execState (runDeprovision sv job (.start world now)))) :=
  ⟨runProvision_truthful_iff sv job world now, runDeprovision_truthful_iff sv job world now⟩

end Jobs

/-- Answers `202` without a cookie to a mutation and `403` to the poll after it. -/
def forgetfulPeer : HttpDriver Unit where
  info := { id := "acme/dns", protocolVersion, cookieVersion := 1, capabilities := { observe := true } }
  decode _ := none
  redact _ m := m
  send method _ w :=
    let status := if method = .get then 403 else 202
    .now (.response { status, protocol := some protocolVersion, setCookie := none, retryAfter := none,
                      body := .whole none 1 0 }) w

def forgetfulServices : Services Unit where
  driver _ := .ok forgetfulPeer.toDriver
  readSecrets _ _ _ w := (.ok fun _ => none, 0, w)
  credentials _ _ w := (.ok none, 0, w)
  check _ w := .now (.ok ()) w
  write _ _ w := (.error "unavailable", 0, w)
  openCookie _ := .ok none
  sealCookie _ c := ⟨c.data⟩

def dnsJob : ProvisionJob where
  operationId := "op-1"
  descriptor := ⟨.dns, .default, ⟨"shared.api-dns", by decide⟩⟩
  guresid := ⟨"0123456789abcdef0123456789abcdef", by decide⟩
  context := { org := "acme", app := "shop", env := "dev", envType := "development", deploymentId := "d-1", permits := [] }
  driverType := "acme/dns"
  driverAccount := none
  inputs := { values := .null, secrets := .value .null, secretRefs := .value .null, resource := .value .null,
              sources := [] }
  inputFingerprint := "f-1"
  cookie := none
  target := none
  pin := none
  existing := false
  outputSchema := none
  deadline := secs 3600

/-- The driver accepted the `put`, and the job fails as if nothing had changed. -/
def forgotten : EStateM.Result ExecFailure (Exec Unit) ProvisionResult → Bool
  | .error (.permanent _) s => s.calls.any (·.accepts) && s.calls.all (·.reports.isNone)
  | _ => false

theorem forgotten_dnsJob : forgotten (runProvision forgetfulServices dnsJob (.start () 0)) = true := by
  decide +kernel

theorem not_always_truthful : ¬ ∀ (W : Type) (sv : Services W) (job : ProvisionJob) (world : W) (now : Nat),
    Truthful (runProvision sv job (.start world now)) ∧ Truthful (runDeprovision sv job (.start world now)) := by
  intro h
  have ht := (h Unit forgetfulServices dnsJob () 0).1
  have hf := forgotten_dnsJob
  cases hr : runProvision forgetfulServices dnsJob (.start () 0) with
  | ok r s => rw [hr] at hf; cases hf
  | error f s =>
    rw [hr] at ht hf
    cases f with
    | permanent m =>
      simp only [forgotten, Bool.and_eq_true, any_eq_true, all_eq_true, Option.isNone_iff_eq_none] at hf
      rcases ht hf.1 with hu | ⟨c, hc, e, he, -⟩
      · cases hu
      · rw [hf.2 c hc] at he; cases he
    | _ => cases hf

end Openporch
