import Openporch.Accepted
import Openporch.DriverWorld
import Openporch.Tofu.Driver
import Openporch.Tofu.Fingerprint

/-!
# Nothing is destroyed without a permit for that plan

The executor's jobs over the OpenTofu driver, in a watched world: the log has the permit checks that were answered and
the plans that were applied.
-/

namespace Openporch.Tofu
open Loops Hoare List

variable {W α : Type}

def watch (sha256 : String → String) (host : ProvisionJob → Except ExecFailure (Host W)) (sv : Services W) :
    Services (World W) where
  driver job := (host job).map fun h => driver h sha256
  readSecrets job sources checkCriteria s :=
    let (a, t, world) := sv.readSecrets job sources checkCriteria s.world
    (a, t, { s with world })
  credentials job window s :=
    let (a, t, world) := sv.credentials job window s.world
    (a, t, { s with world })
  check req s :=
    let c := sv.check req s.world
    { after := c.after
      answer := c.answer
      left := { world := c.left, events := .checked req c.answer :: s.events }
      dropped := fun t => { s with world := c.dropped t } }
  write name value s :=
    let (a, t, world) := sv.write name value s.world
    (a, t, { s with world })
  openCookie := sv.openCookie
  sealCookie := sv.sealCookie

def Saved.destroys (p : Saved) : Bool :=
  p.resourceChanges.any fun c =>
    !([[], ["no-op"], ["read"], ["create"], ["update"]].contains (kinds (c.at "change")))

def Permitted (job : ProvisionJob) (fp : String) (events : List Event) : Prop :=
  ∃ action actions, .checked (permitRequest job action (some (fp, actions))) (.ok ()) ∈ events

def Guarded (sha256 : String → String) (job : ProvisionJob) (events : List Event) : Prop :=
  ∀ later p earlier, events = later ++ .applied p :: earlier → p.destroys = true →
    Permitted job (p.fingerprint sha256) earlier

def Allowed (sha256 : String → String) (job : ProvisionJob) (permit : Option String) (events : List Event) : Prop :=
  Guarded sha256 job events ∧ ∀ fp, permit = some fp → Permitted job fp events

variable {sha256 : String → String} {job : ProvisionJob}

theorem actionOf_destructive {ks : List String}
    (h : (!([[], ["no-op"], ["read"], ["create"], ["update"]].contains ks)) = true) :
    actionOf ks = some .delete ∨ actionOf ks = some .replace := by
  unfold actionOf
  split <;> simp_all

variable {p : Saved} {events : List Event}

theorem destructive_ne_nil (h : p.destroys = true) : p.destructive ≠ [] := by
  obtain ⟨c, hc, hkinds⟩ := any_eq_true.1 h
  obtain ⟨a, ha, haction⟩ : ∃ a, (a = .delete ∨ a = .replace) ∧ actionOf (kinds (c.at "change")) = some a := by
    rcases actionOf_destructive hkinds with ha | ha
    · exact ⟨_, .inl rfl, ha⟩
    · exact ⟨_, .inr rfl, ha⟩
  have heffect : (a, Change.of c) ∈ p.effects := mem_filterMap.2 ⟨c, hc, by simp [haction]⟩
  have hmem : (a, (Change.of c).address) ∈ p.actions := by
    rw [Saved.actions, (perm_insertionSort _ _).mem_iff]
    exact mem_append_left _ (mem_map.2 ⟨_, heffect, rfl⟩)
  refine ne_nil_of_mem (mem_map.2 ⟨_, mem_filter.2 ⟨hmem, ?_⟩, rfl⟩)
  simpa using ha

theorem guarded_nil : Guarded sha256 job [] := by
  intro later p earlier h
  cases later <;> cases h

theorem Guarded.checked (h : Guarded sha256 job events) (req : PermitRequest)
    (answer : Except String Unit) : Guarded sha256 job (.checked req answer :: events) := by
  intro later p earlier heq hp
  cases later with
  | nil => cases heq
  | cons e later => exact h later p earlier (List.cons.inj heq).2 hp

theorem Allowed.applied {permit : Option String} (h : Allowed sha256 job permit events)
    (hp : p.destructive = [] ∨ permit = some (p.fingerprint sha256)) :
    Allowed sha256 job permit (.applied p :: events) := by
  refine ⟨fun later q earlier heq hq => ?_, fun fp hfp => ?_⟩
  · cases later with
    | nil =>
      cases heq
      rcases hp with hnone | hpermit
      · exact absurd hnone (destructive_ne_nil hq)
      · exact h.2 _ hpermit
    | cons e later => exact h.1 later q earlier (List.cons.inj heq).2 hq
  · obtain ⟨action, actions, hmem⟩ := h.2 fp hfp
    exact ⟨action, actions, mem_cons_of_mem _ hmem⟩

section Driver
variable {P : List Event → Prop} {h : Host W} {req : DriverRequest}

abbrev Quiet (P : List Event → Prop) (x : Step (World W) α) : Prop := Loops.Keeps (fun s : World W => P s.events) x

theorem tofu_quiet (what : String) (args : List String) : Quiet P (tofu h what args).run :=
  .bind (.lift _) fun _ => .pure _

theorem host_quiet (x : Step W (Except Failure α)) : Quiet P (TofuM.host x).run := .lift x

theorem callHost_quiet (x : Step W (Except DriverError α)) : Quiet P (CallM.host x).run := .lift x

theorem lift_quiet {ε : Type} {x} (hx : Quiet P x) : Quiet P (ExceptT.lift x : ExceptT ε (Step (World W)) α).run :=
  .bind hx fun _ => .pure _

theorem afterApply_quiet {x : TofuM W α} (hx : Quiet P x.run) : Quiet P x.afterApply.run := by
  refine .bind hx fun r => ?_
  cases r <;> exact .pure _

theorem inWorkspaces_quiet (what : String) (commands : List (List String)) :
    Quiet P (inWorkspaces h what commands).run := by
  induction commands with
  | nil => exact .exceptPure _
  | cons args rest ih =>
    unfold inWorkspaces
    split
    · exact .exceptBind (tofu_quiet _ _) fun _ => ih
    · exact .exceptPure _

theorem planRun_quiet (setup : Setup) (destroy : Bool) : Quiet P (planRun h setup req destroy).run := by
  refine .exceptBind (tofu_quiet _ _) fun _ => .exceptBind (inWorkspaces_quiet _ _) fun _ => ?_
  refine .exceptBind (tofu_quiet _ _) fun state => .exceptBind (tofu_quiet _ _) fun _ => ?_
  refine .exceptBind (tofu_quiet _ _) fun shown => ?_
  cases h.parse shown.stdout with
  | none => exact .throw _
  | some plan => exact .exceptPure _

theorem outputs_quiet : Quiet P (outputs h).run := by
  refine .exceptBind (tofu_quiet _ _) fun out => ?_
  cases (h.parse out.stdout).bind Json.asObject? with
  | none => exact .throw _
  | some outputs => exact .exceptPure _

theorem removeState_quiet : Quiet P (removeState h req).run :=
  .exceptBind (inWorkspaces_quiet _ _) fun _ => host_quiet _

theorem applyRun_keeps (p : Saved) : Quiet (Allowed sha256 job req.permit) (applyRun h sha256 req p).run := by
  unfold applyRun
  split
  · exact .throw _
  · rename_i hrefused
    have hpermit : p.destructive = [] ∨ req.permit = some (p.fingerprint sha256) := by
      by_cases hnone : p.destructive = []
      · exact .inl hnone
      · exact .inr (by simpa [hnone] using hrefused)
    refine .exceptBind (host_quiet _) fun before => .exceptBind (host_quiet _) fun _ => ?_
    refine .exceptBind (lift_quiet (.logged (fun _ hevents => hevents.applied hpermit) (tofu_quiet _ _))) fun r => ?_
    cases r with
    | ok out => exact .exceptPure _
    | error f =>
      cases f with
      | locked stderr => exact .exceptBind (host_quiet _) fun _ => .throw _
      | _ => exact .throw _

theorem putInner_keeps (setup : Setup) : Quiet (Allowed sha256 job req.permit) (putInner h sha256 setup req).run := by
  refine .exceptBind (planRun_quiet _ _) fun p => .exceptBind (applyRun_keeps p) fun _ => ?_
  refine .exceptBind (afterApply_quiet outputs_quiet) fun outputs => ?_
  refine .exceptBind (afterApply_quiet (host_quiet _)) fun pin => ?_
  exact .exceptBind (afterApply_quiet (host_quiet _)) fun cookie => .exceptPure _

theorem deleteInner_keeps (setup : Setup) : Quiet (Allowed sha256 job req.permit) (deleteInner h sha256 setup req).run := by
  refine .exceptBind (planRun_quiet _ _) fun p => .exceptBind (applyRun_keeps p) fun _ => ?_
  exact .exceptBind (afterApply_quiet (host_quiet _)) fun _ => afterApply_quiet removeState_quiet

theorem finish_quiet (result : Except Failure α) (append : Bool) : Quiet P (finish h req result append).run :=
  .read _

theorem withRun_keeps {retained : Option Json} {body : Setup → TofuM W α} (hbody : ∀ setup, Quiet P (body setup).run) :
    Quiet P (withRun h req retained body).run := by
  refine .exceptBind (lift_quiet (.lift _)) fun started => ?_
  cases started with
  | error f => exact finish_quiet _ _
  | ok u =>
    refine .exceptBind (lift_quiet (.exceptBind (host_quiet _) hbody)) fun result => ?_
    exact .exceptBind (lift_quiet (.lift _)) fun kept => finish_quiet _ _

theorem withBareRun_keeps {body : TofuM W α} (hbody : Quiet P body.run) : Quiet P (withBareRun h req body).run := by
  refine .exceptBind (lift_quiet (.lift _)) fun started => ?_
  cases started with
  | error f => exact finish_quiet _ _
  | ok u =>
    refine .exceptBind (lift_quiet (.exceptBind (host_quiet _) fun setup => ?_)) fun result => finish_quiet _ _
    exact .exceptBind (tofu_quiet _ _) fun _ => hbody

theorem plan_quiet : Quiet P (plan h sha256 req).run := by
  refine .exceptBind (callHost_quiet _) fun _ => ?_
  exact .exceptBind (withRun_keeps fun setup => planRun_quiet setup false) fun p => .exceptPure _

theorem planDelete_quiet : Quiet P (planDelete h sha256 req).run := by
  refine .exceptBind (callHost_quiet _) fun state => ?_
  cases state with
  | present doc =>
    refine .exceptBind (callHost_quiet _) fun retained => ?_
    exact .exceptBind (withRun_keeps fun setup => planRun_quiet setup true) fun p => .exceptPure _
  | _ => exact .exceptPure _

theorem get_quiet : Quiet P (get h req).run := by
  refine .exceptBind (lift_quiet (.lift _)) fun state => ?_
  cases state with
  | error e => exact .exceptPure _
  | ok state =>
    cases state with
    | present doc => exact .exceptBind (lift_quiet (.lift _)) fun pin => .exceptPure _
    | _ => exact .exceptPure _

theorem put_keeps : Quiet (Allowed sha256 job req.permit) (put h sha256 req).run := by
  refine .exceptBind (callHost_quiet _) fun _ => ?_
  exact .exceptBind (withRun_keeps putInner_keeps) fun r => .exceptPure _

theorem delete_keeps : Quiet (Allowed sha256 job req.permit) (delete h sha256 req).run := by
  refine .exceptBind (callHost_quiet _) fun state => ?_
  cases state with
  | absent => exact .exceptPure _
  | unapplied => exact .exceptBind (withBareRun_keeps removeState_quiet) fun _ => .exceptPure _
  | present doc =>
    refine .exceptBind (callHost_quiet _) fun retained => ?_
    exact .exceptBind (withRun_keeps deleteInner_keeps) fun _ => .exceptPure _

theorem driver_keeps (permit : Option String) :
    DriverKeeps (driver h sha256) (fun s => Allowed sha256 job permit s.events) (·.permit = permit) where
  put _ hreq := hreq ▸ put_keeps
  get _ _ := get_quiet
  delete _ hreq := hreq ▸ delete_keeps
  cancel _ _ := fun _ hs => ⟨hs, fun _ => hs⟩
  cookie _ _ hreq := hreq

end Driver

section Executor
variable {P : List Event → Prop} {host : ProvisionJob → Except ExecFailure (Host W)} {sv : Services W}

theorem watch_keep : (watch sha256 host sv).Keep fun s => P s.world.events :=
  ⟨fun _ _ _ _ hs => hs, fun _ _ _ hs => hs, fun _ _ _ hs => hs⟩

theorem execPlan_quiet (h : Host W) (req : DriverRequest) (timeout : Nat) (del : Bool) :
    Keeping (fun s : Exec (World W) => P s.world.events) (Openporch.plan (driver h sha256) req timeout del)
      fun _ => True := by
  intro s hs
  have hkept : P ((if del then (driver h sha256).planDelete req s.world
      else (driver h sha256).plan req s.world).within timeout).2.2.events := by
    split
    · exact Loops.Keeps.within planDelete_quiet hs timeout
    · exact Loops.Keeps.within plan_quiet hs timeout
  unfold Openporch.plan
  rw [if_neg (by simp [driver, info])]
  generalize (if del then (driver h sha256).planDelete req s.world
      else (driver h sha256).plan req s.world).within timeout = answered at hkept
  rcases answered with ⟨_ | _ | p, t, world⟩
  · exact hkept
  · exact hkept
  · exact ⟨trivial, hkept⟩

variable (sha256 host sv) in
theorem check_within (req : PermitRequest) (s : World W) (limit : Nat) :
    (∃ answer t world, ((watch sha256 host sv).check req s).within limit =
      (some answer, t, ⟨world, .checked req answer :: s.events⟩)) ∨
    ∃ t world, ((watch sha256 host sv).check req s).within limit = (none, t, ⟨world, s.events⟩) := by
  unfold Call.within
  split
  · split
    · exact .inl ⟨_, _, _, rfl⟩
    · exact .inr ⟨_, _, rfl⟩
  · exact .inr ⟨_, _, rfl⟩

theorem permit_logged (action : DestructiveAction) (plan : Option (String × List (Action × String))) :
    Triple (fun s : Exec (World W) => Guarded sha256 job s.world.events)
      (permit (watch sha256 host sv) job action plan)
      (fun _ s => Guarded sha256 job s.world.events ∧
        .checked (permitRequest job action plan) (.ok ()) ∈ s.world.events)
      (fun _ s => Guarded sha256 job s.world.events) := by
  intro s hs
  unfold permit
  dsimp only
  have hanswer := check_within sha256 host sv (permitRequest job action plan) s.world (job.deadline - s.now)
  rcases hanswer with ⟨answer, t, world, heq⟩ | ⟨t, world, heq⟩
  · rw [heq]
    cases answer with
    | error e => exact hs.checked _ _
    | ok u => exact ⟨hs.checked _ _, mem_cons_self⟩
  · rw [heq]
    exact hs

theorem Guarded.allowed {req : DriverRequest} {events : List Event} (hreq : req.permit = none)
    (h : Guarded sha256 job events) : Allowed sha256 job req.permit events := by
  refine ⟨h, fun fp hfp => ?_⟩
  rw [hreq] at hfp
  cases hfp

abbrev Authorizes (sha256 : String → String) (job : ProvisionJob) (x : ExecM (World W) DriverRequest) : Prop :=
  Triple (fun s : Exec (World W) => Guarded sha256 job s.world.events) x
    (fun req' s => Allowed sha256 job req'.permit s.world.events) (fun _ s => Guarded sha256 job s.world.events)

theorem permitted (req : DriverRequest) (action : DestructiveAction) (actions : List (Action × String)) (fp : String) :
    Authorizes sha256 job (do
      permit (watch sha256 host sv) job action (some (fp, actions))
      return { req with permit := some fp }) := by
  refine .bind (permit_logged _ _) fun _ => .pure fun s hs => ⟨hs.1, ?_⟩
  rintro _ ⟨⟩
  exact ⟨_, actions, hs.2⟩

theorem authorizePlan_allowed {req : DriverRequest} (hreq : req.permit = none) (p : Plan) :
    Authorizes sha256 job (authorizePlan (watch sha256 host sv) job req p) := by
  cases p with
  | noEffects => exact .pure fun s hs => hs.allowed hreq
  | actions actions fp =>
    simp only [authorizePlan]
    split
    · exact permitted req _ actions fp
    · exact .pure fun s hs => hs.allowed hreq
  | unknown =>
    simp only [authorizePlan]
    split
    · exact .bind (permit_logged _ _) fun _ => .pure fun s hs => hs.1.allowed hreq
    · exact .pure fun s hs => hs.allowed hreq

theorem authorizeDeletion_allowed {req : DriverRequest} (hreq : req.permit = none) (p : Plan) :
    Authorizes sha256 job (authorizeDeletion (watch sha256 host sv) job req p) := by
  cases p with
  | actions actions fp => exact permitted req _ actions fp
  | _ => exact .pure fun s hs => hs.allowed hreq

def Prepares (sha256 : String → String) (job : ProvisionJob) (x : ExecM (World W) (Prepared (World W))) : Prop :=
  Triple (fun s : Exec (World W) => Guarded sha256 job s.world.events) x
    (fun p s => (∃ h : Host W, p.driver = driver h sha256) ∧ Allowed sha256 job p.req.permit s.world.events)
    (fun _ s => Guarded sha256 job s.world.events)

theorem driver_eq {d} (hd : (watch sha256 host sv).driver job = .ok d) : ∃ h : Host W, d = driver h sha256 := by
  change (host job).map _ = _ at hd
  cases hh : host job with
  | error e =>
    rw [hh] at hd
    cases hd
  | ok h =>
    rw [hh] at hd
    cases hd
    exact ⟨h, rfl⟩

theorem prepareWith_prepares {sources} {chk delete : Bool} {authorize}
    (hauthorize : ∀ {req}, req.permit = none → ∀ p, Authorizes sha256 job (authorize req p))
    (target : Option String → Option String → Option String) :
    Prepares sha256 job (prepareWith (watch sha256 host sv) job sources chk delete authorize target) := by
  refine .bind (request_spec job watch_keep _ _) fun ⟨d, req, timeout, target⟩ => .of_fact fun ⟨read, hcall⟩ => ?_
  obtain ⟨h, rfl⟩ := driver_eq hcall.driver
  refine .bind (execPlan_quiet h _ _ _) fun p => .of_fact fun _ => ?_
  refine .bind (hauthorize hcall.permit p) fun req => ?_
  refine .bind (.get (Q := fun _ s => Allowed sha256 job req.permit s.world.events) fun _ hs => hs) fun _ => ?_
  refine .bind ((refresh_spec job watch_keep _ _).fails fun _ _ h => h.1) fun r => .of_fact fun ⟨_, hr⟩ => ?_
  exact .pure fun s hs => ⟨⟨h, rfl⟩, hr ▸ hs⟩

theorem settle_allowed {f : World W → Nat → Settled (World W) α} {permit : Option String}
    (hf : ∀ w now, Allowed sha256 job permit w.events → Allowed sha256 job permit (f w now).run.world.events) :
    Triple (fun s : Exec (World W) => Allowed sha256 job permit s.world.events) (ExecM.settle f)
      (fun _ s => Guarded sha256 job s.world.events) (fun _ s => Guarded sha256 job s.world.events) :=
  fun s hs => (hf s.world s.now hs).1

theorem runProvision_guarded : Keeping (fun s : Exec (World W) => Guarded sha256 job s.world.events)
    (runProvision (watch sha256 host sv) job) fun _ => True := by
  unfold runProvision
  rw [prepareProvision_eq]
  refine .bind (prepareWith_prepares authorizePlan_allowed _) fun ⟨d, req, timeout, target, p⟩ => .of_fact fun ⟨h, hd⟩ => ?_
  cases hd
  refine .bind (settle_allowed fun w now hw => ?_) fun settled => finishProvision_spec job watch_keep _ _ _ _
  exact converge_keeps (driver_keeps req.permit) rfl hw timeout now

theorem runDeprovision_guarded : Keeping (fun s : Exec (World W) => Guarded sha256 job s.world.events)
    (runDeprovision (watch sha256 host sv) job) fun _ => True := by
  unfold runDeprovision
  rw [prepareDeprovision_eq]
  refine .bind (prepareWith_prepares authorizeDeletion_allowed _) fun ⟨d, req, timeout, target, p⟩ => .of_fact fun ⟨h, hd⟩ => ?_
  cases hd
  refine .bind (settle_allowed fun w now hw => ?_) fun settled => finishDeprovision_spec _ _ _ _
  exact remove_keeps (driver_keeps req.permit) rfl hw timeout now

end Executor

/-- Over injective hashes, a job applies a plan that destroys something only after a check of its own permits for that
plan's fingerprint, and plans with one fingerprint agree in what a permit covers. -/
theorem destroys_only_permitted (hsha : Function.Injective sha256) :
    (∀ (W : Type) (host : ProvisionJob → Except ExecFailure (Host W)) (sv : Services W) (job : ProvisionJob) (w : W)
      (now : Nat),
      Guarded sha256 job (execState (runProvision (watch sha256 host sv) job (.start ⟨w, []⟩ now))).world.events ∧
      Guarded sha256 job (execState (runDeprovision (watch sha256 host sv) job (.start ⟨w, []⟩ now))).world.events) ∧
    ∀ p q : Saved, p.fingerprint sha256 = q.fingerprint sha256 → p.Agree q := by
  refine ⟨fun W host sv job w now => ⟨?_, ?_⟩, fun p q h => fingerprint_agree hsha h⟩
  · exact execState_keeps runProvision_guarded guarded_nil
  · exact execState_keeps runDeprovision_guarded guarded_nil

def bucketPlan (actions : String) : Json :=
  .obj [("resource_changes", .arr [.obj [("address", .str "aws_s3_bucket.logs"),
    ("change", .obj [("actions", .arr [.str actions])])]])]

def retiringHost : Host Unit where
  workspaces := false
  backend := "local"
  lockTimeoutMs := 0
  parse text := if text = "plan" then some (bucketPlan "delete") else none
  redact _ _ text := text
  log _ _ := ""
  exec args := pure (.ok ⟨true, if args.head? = some "show" then "plan" else "", ""⟩)
  state _ := pure (.ok (.present .null))
  retained _ := pure (.ok .null)
  retainedPin _ := pure none
  start _ := pure (.ok ())
  prepare _ _ := pure (.ok ⟨[], []⟩)
  prepareBackend _ := pure (.ok ⟨[], []⟩)
  protect _ := pure (.ok ())
  retainedFiles _ := pure (.ok [])
  restoreRetainedFiles _ := pure (.ok ())
  retain _ := pure (.ok ())
  pinned _ := pure (.ok .null)
  cookie _ := pure (.ok none)
  markDeleted _ := pure (.ok ())
  clearState _ := pure (.ok ())

def retirement : List Event :=
  (execState (runDeprovision (watch id (fun _ => .ok retiringHost) forgetfulServices) dnsJob (.start ⟨(), []⟩ 0))).world.events

/-- The bucket is deleted, and the job's permits were checked for that plan before. -/
theorem retirement_guarded : (retirement.any fun
      | .applied p => p.destroys
      | .checked _ _ => false) = true ∧ Guarded id dnsJob retirement :=
  ⟨by decide +kernel, ((destroys_only_permitted Function.injective_id).1 Unit _ _ _ _ _).2⟩

def bucketSaved (changes : Json) : Saved :=
  { guresid := dnsJob.guresid, destroy := false, inputs := "f-1", state := none, shown := changes }

/-- Changes without effects are not part of the fingerprint: one plan reads the bucket, the other leaves it alone. -/
theorem not_all_changes_fingerprinted : ¬ ∀ sha256 : String → String, Function.Injective sha256 → ∀ p q : Saved,
    p.fingerprint sha256 = q.fingerprint sha256 →
    (p.resourceChanges.map Change.of).Perm (q.resourceChanges.map Change.of) := by
  intro h
  have hsame : (bucketSaved (bucketPlan "read")).fingerprint id = (bucketSaved (bucketPlan "no-op")).fingerprint id := by
    decide +kernel
  have hperm := h id Function.injective_id _ _ hsame
  revert hperm
  decide +kernel

end Openporch.Tofu
