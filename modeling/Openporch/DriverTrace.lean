import Openporch.DriverRun
import Mathlib.Logic.Relation

/-!
# What a run's calls say

The calls of a run determine what it carries and how it ends: the request always holds the newest cookie
that could be kept (`Run.Tracks`), and once the driver accepted the operation, the end of the polling is
read off the answer to the last `get`.
-/

namespace Openporch
open Loops Hoare List

variable {W α : Type}

namespace DriverCall

def cookie : DriverCall → Option Cookie
  | put _ (some (.ok (.ready _ c))) | put _ (some (.ok (.inProgress _ c))) => c
  | delete _ (some (.ok (.inProgress _ c))) => c
  | get _ (some (.ok o)) | cancel _ (some (.ok o)) => o.cookie
  | put _ (some (.error e)) | delete _ (some (.error e)) => e.split.2
  | get _ (some (.error e)) | cancel _ (some (.error e)) => e.split.2
  | _ => none

def accepts : DriverCall → Bool
  | put _ (some (.ok (.inProgress _ _))) | delete _ (some (.ok (.inProgress _ _))) => true
  | _ => false

def reports : DriverCall → Option DriverError
  | get _ (some (.ok (.failed e))) => some e
  | _ => none

end DriverCall

variable (info : DriverInfo)

def newestCookie (calls : List DriverCall) : Option Cookie :=
  calls.findSome? fun c => c.cookie.filter info.keeps

/-- The answer to the last call if that was a `get` and its cookie, if any, could be kept. -/
def lastAnswer : List DriverCall → Option (Except DriverError Observation)
  | .get req (some answer) :: _ =>
    if (DriverCall.get req (some answer)).cookie.all info.keeps then some answer else none
  | _ => none

theorem lastAnswer_mem {info : DriverInfo} {calls answer} (h : lastAnswer info calls = some answer) :
    ∃ r, .get r (some answer) ∈ calls := by
  unfold lastAnswer at h
  split at h
  · split_ifs at h
    cases h
    exact ⟨_, mem_cons_self⟩
  · cases h

/-- The request is the given one with the newest cookie of the calls `calls`. -/
def Run.Carries (req : DriverRequest) (s : Run W) (calls : List DriverCall) : Prop :=
  s.req = { req with cookie := (newestCookie info calls).or req.cookie }

def Run.Tracks (req : DriverRequest) (s : Run W) : Prop :=
  s.Carries info req s.calls

section Tracks
variable {info : DriverInfo} {req : DriverRequest} {s : Run W} {calls : List DriverCall} {c : DriverCall}

theorem newestCookie_cons (info : DriverInfo) (c : DriverCall) (calls : List DriverCall) :
    newestCookie info (c :: calls) = (c.cookie.filter info.keeps).or (newestCookie info calls) := by
  simp only [newestCookie, findSome?_cons]
  cases c.cookie.filter info.keeps <;> rfl

theorem Run.Carries.withCookie (h : s.Carries info req calls) (hs : s.calls = c :: calls)
    (hk : c.cookie.all info.keeps = true) : (s.withCookie c.cookie).Tracks info req := by
  show { s.req with cookie := c.cookie.or s.req.cookie } = _
  rw [show (s.withCookie c.cookie).calls = c :: calls from hs, newestCookie_cons, h]
  cases hc : c.cookie with
  | none => rfl
  | some x =>
    rw [hc] at hk
    simp only [Option.all_some] at hk
    simp [Option.filter, hk]

theorem Run.Carries.refused (h : s.Carries info req calls) (hs : s.calls = c :: calls)
    (hk : c.cookie.all info.keeps = false) : s.Tracks info req := by
  rw [Run.Tracks, Run.Carries, hs, newestCookie_cons]
  cases hc : c.cookie with
  | none => rw [hc] at hk; cases hk
  | some x =>
    rw [hc] at hk
    simp only [Option.all_some] at hk
    simp only [Option.filter, hk]
    exact h

theorem Run.new_tracks (info : DriverInfo) (req : DriverRequest) (timeout : Nat) (world : W) (now : Nat) :
    (Run.new req timeout world now).Tracks info req := by
  simp [Run.Tracks, Run.Carries, Run.new, newestCookie]

theorem cancelled_cookie (req : DriverRequest) (answer : Option (Except DriverError Observation)) :
    (DriverCall.cancel req answer).cookie = (cancelled answer).2 := by
  rcases answer with _ | _ | o
  · rfl
  · rfl
  · cases o <;> rfl

end Tracks

namespace DriverCall

def request : DriverCall → DriverRequest
  | put req _ | get req _ | delete req _ | cancel req _ => req

/-- The call is a `put` or a `delete`. -/
def isMutation : DriverCall → Bool
  | put _ _ | delete _ _ => true
  | get _ _ | cancel _ _ => false

def failure : DriverCall → Option DriverError
  | put _ (some (.error e)) | delete _ (some (.error e)) => some e
  | get _ (some (.error e)) | get _ (some (.ok (.failed e))) => some e
  | _ => none

def settles (deleting : Bool) : DriverCall → Bool
  | put _ (some (.ok (.ready _ _))) | get _ (some (.ok (.ready _ _))) => !deleting
  | c => c.failure.isSome

end DriverCall

namespace Run

/-- The driver was called within the time left, or to cancel. A run starts with its mutation. -/
inductive Made (d : Driver W) (s : Run W) : DriverCall → Run W → Prop
  | put {a t w} (hfirst : s.calls = []) (h : (d.put s.req s.world).within (s.deadline - s.now) = (a, t, w)) :
    Made d s (.put s.req a) (s.record w t (.put s.req a))
  | delete {a t w} (hfirst : s.calls = []) (h : (d.delete s.req s.world).within (s.deadline - s.now) = (a, t, w)) :
    Made d s (.delete s.req a) (s.record w t (.delete s.req a))
  | get {a t w} (h : (d.get s.req s.world).within (s.deadline - s.now) = (a, t, w)) :
    Made d s (.get s.req a) (s.record w t (.get s.req a))
  | cancel {a t w} (h : (d.cancel s.req s.world).within cancelGrace = (a, t, w)) :
    Made d s (.cancel s.req a) (s.record w t (.cancel s.req a))

inductive Round (d : Driver W) (deleting : Bool) (s : Run W) : Run W → Prop
  | wait (wait : Nat) (h : s.now < s.last) : Round d deleting s { s with now := min (s.now + max wait minPoll) s.last }
  | call {c s₁} (h : s.Made d c s₁) (hkept : c.cookie.all d.info.keeps = true) (hopen : c.settles deleting = false) :
    Round d deleting s (s₁.withCookie c.cookie)

abbrev Rounds (d : Driver W) (deleting : Bool) : Run W → Run W → Prop := Relation.ReflTransGen (Round d deleting)

/-- How a run fails: over a cookie that cannot be kept, with the failure of its last call, or without a clear outcome. -/
inductive Halts (d : Driver W) (deleting : Bool) (s₀ : Run W) : DriverError → Run W → Prop
  | refused {s c s₁ m} (hr : s₀.Rounds d deleting s) (h : s.Made d c s₁) (hk : c.cookie.all d.info.keeps = false) :
    Halts d deleting s₀ (.uncertain m) s₁
  | failed {s c s₁ e} (hr : s₀.Rounds d deleting s) (h : s.Made d c s₁) (hk : c.cookie.all d.info.keeps = true)
      (he : c.failure = some e) : Halts d deleting s₀ e.split.1 (s₁.withCookie c.cookie)
  | unclear {s e} (hr : s₀.Rounds d deleting s) (he : e.unclear = true) : Halts d deleting s₀ e s

/-- How a run ends: with a call that is `Done`, of which it keeps a cookie, or failing. -/
inductive Outcome (d : Driver W) (deleting : Bool) (Done : DriverCall → α → Option Cookie → Prop) (s₀ : Run W) :
    EStateM.Result DriverError (Run W) α → Prop
  | done {s c s₁ a k} (hr : s₀.Rounds d deleting s) (h : s.Made d c s₁) (hd : Done c a k) :
    Outcome d deleting Done s₀ (.ok a (s₁.withCookie k))
  | halted {e s} (h : s₀.Halts d deleting e s) : Outcome d deleting Done s₀ (.error e s)

end Run

/-- What finishes a `put`: the resource is ready, and the cookie can be kept. -/
inductive Run.Converged (info : DriverInfo) : DriverCall → DriverOutputs → Option Cookie → Prop
  | put {r a k} (hk : k.all info.keeps = true) : Converged info (.put r (some (.ok (.ready a k)))) a k
  | get {r a k} (hk : k.all info.keeps = true) : Converged info (.get r (some (.ok (.ready a k)))) a k

/-- What finishes a `delete`: the resource is gone, and nothing of it is kept. -/
inductive Run.Removed : DriverCall → Unit → Option Cookie → Prop
  | delete {r} : Removed (.delete r (some (.ok .deleted))) () none
  | absent {r k} : Removed (.get r (some (.ok (.absent k)))) () none

section Outcome
variable {d : Driver W} {deleting : Bool} {s₀ s s₁ : Run W} {c : DriverCall} {req : DriverRequest}
  {Done : DriverCall → α → Option Cookie → Prop} {β : Type} {call : DriverRequest → W → Call W (Except DriverError β)}
  {record : DriverRequest → Option (Except DriverError β) → DriverCall}

namespace Run

theorem Made.calls (h : s.Made d c s₁) : s₁.calls = c :: s.calls := by
  cases h <;> rfl

theorem Made.request (h : s.Made d c s₁) : s₁.req = s.req ∧ c.request = s.req := by
  cases h <;> exact ⟨rfl, rfl⟩

theorem absorb_halts {e : DriverError} (hr : s₀.Rounds d deleting s) (h : s.Made d c s₁) (hc : c.failure = some e)
    (hcookie : c.cookie = e.split.2) : ∃ e' s', (∀ α : Type, absorb d (.error e : Except DriverError α) s₁ = .error e' s') ∧
      s₀.Halts d deleting e' s' := by
  obtain ⟨e', s', ha, heq⟩ := absorb_error d e s₁
  refine ⟨e', s', heq, ?_⟩
  cases ha with
  | kept hk =>
    rw [← hcookie] at hk ⊢
    exact .failed hr h hk hc
  | refused m hk => exact .refused hr h (hcookie ▸ hk)

theorem timedOut_halts (hr : s₀.Rounds d deleting s) : ∃ e s',
    (∀ α : Type, absorb d (.error (timedOut d s).1 : Except DriverError α) (timedOut d s).2 = .error e s') ∧
      s₀.Halts d deleting e s' := by
  obtain ⟨e, s', ha, heq⟩ := absorb_error d (timedOut d s).1 (timedOut d s).2
  refine ⟨e, s', heq, ?_⟩
  unfold timedOut at ha
  split_ifs at ha with hc
  · cases ha with
    | kept => exact .unclear hr rfl
    | refused m hk => cases hk
  · rcases hw : (d.cancel s.req s.world).within cancelGrace with ⟨answer, t, world⟩
    rw [hw] at ha
    have hcookie : ∀ e : DriverError, e.split.2 = none →
        (e.attach (cancelled answer).2).split.2 = (DriverCall.cancel s.req answer).cookie := by
      intro e he
      rw [cancelled_cookie, DriverError.split_attach_snd, he, Option.or_none]
    cases ha with
    | kept hk =>
      rw [hcookie _ (by split_ifs <;> rfl)] at hk ⊢
      refine .unclear (hr.tail (.call (.cancel hw) hk rfl)) ?_
      rw [DriverError.split_attach_fst]
      split_ifs <;> rfl
    | refused m hk =>
      rw [hcookie _ (by split_ifs <;> rfl)] at hk
      exact .refused hr (.cancel hw) hk

theorem attempt_outcome (hr : s₀.Rounds d deleting s)
    (hmade : ∀ {a t w}, (call s.req s.world).within (s.deadline - s.now) = (a, t, w) →
      s.Made d (record s.req a) (s.record w t (record s.req a)))
    (herror : ∀ e, (record s.req (some (.error e))).failure = some e ∧ (record s.req (some (.error e))).cookie = e.split.2)
    (hdropped : (record s.req none).settles deleting = false ∧ (record s.req none).cookie = none) :
    (∃ a s₁, attempt d call record s = .ok a s₁ ∧ s.Made d (record s.req (some (.ok a))) s₁) ∨
    ∃ e s', attempt d call record s = .error e s' ∧ s₀.Halts d deleting e s' := by
  rw [attempt_eq]
  unfold bounded
  split_ifs
  · obtain ⟨e, s', heq, hhalts⟩ := timedOut_halts hr
    exact .inr ⟨e, s', heq β, hhalts⟩
  · rcases hw : (call s.req s.world).within (s.deadline - s.now) with ⟨_ | e | a, t, w⟩
    · have hround := Round.call (hmade hw) (by rw [hdropped.2]; rfl) hdropped.1
      rw [hdropped.2] at hround
      obtain ⟨e, s', heq, hhalts⟩ := timedOut_halts (hr.tail hround)
      exact .inr ⟨e, s', heq β, hhalts⟩
    · obtain ⟨e', s', heq, hhalts⟩ := absorb_halts hr (hmade hw) (herror e).1 (herror e).2
      exact .inr ⟨e', s', heq β, hhalts⟩
    · exact .inl ⟨a, _, rfl, hmade hw⟩

theorem observe_outcome (hr : s₀.Rounds d deleting s) (wait : Nat) :
    (∃ o s₁ s2, observe d wait s = .ok o s₁ ∧ s₀.Rounds d deleting s2 ∧ s2.Made d (.get s2.req (some (.ok o))) s₁) ∨
    ∃ e s', observe d wait s = .error e s' ∧ s₀.Halts d deleting e s' := by
  rcases pause_cases (d := d) wait s with ⟨hlt, hp⟩ | hp
  · rw [observe_of_paused hp]
    have hr' := hr.tail (.wait wait hlt)
    rcases attempt_outcome hr' .get (fun _ => ⟨rfl, rfl⟩) ⟨rfl, rfl⟩ with ⟨o, s₁, ho, hmade⟩ | hfailed
    · exact .inl ⟨o, s₁, _, ho, hr', hmade⟩
    · exact .inr hfailed
  · rw [observe_of_timedOut hp]
    obtain ⟨e, s', heq, hhalts⟩ := timedOut_halts hr
    exact .inr ⟨e, s', heq _, hhalts⟩

theorem polls_outcome {on hclock}
    (hon : ∀ {s s₁ o}, s₀.Rounds d deleting s → s.Made d (.get s.req (some (.ok o))) s₁ →
      Handled (s₀.Rounds d deleting) (s₀.Outcome d deleting Done) (on o s₁)) (hr : s₀.Rounds d deleting s)
    (wait : Nat) : s₀.Outcome d deleting Done ((pollLoop d on hclock).run (wait, s)) := by
  refine pollLoop_end (G := s₀.Rounds d deleting) ?_ ?_ wait s hr
  · intro wait s e s' hr ho
    rcases observe_outcome hr wait with ⟨o, s₁, s2, heq, -, -⟩ | ⟨e', s₁, heq, hhalts⟩ <;> rw [ho] at heq <;> cases heq
    exact .halted hhalts
  · intro wait s o s' hr ho
    rcases observe_outcome hr wait with ⟨o, s₁, s2, heq, hr', hmade⟩ | ⟨e', s₁, heq, -⟩ <;> rw [ho] at heq <;> cases heq
    exact hon hr' hmade

end Run

open Run

theorem keep_ends {γ : Type} {f : Unit → RunM W γ} {R : EStateM.Result DriverError (Run W) γ → Prop}
    (hr : s₀.Rounds d deleting s) (h : s.Made d c s₁)
    (hf : c.cookie.all d.info.keeps = true → R (f () (s₁.withCookie c.cookie)))
    (hR : ∀ {e s}, s₀.Halts d deleting e s → R (.error e s) := by exact fun h => .halted h) : R ((keep d c.cookie >>= f) s₁) := by
  cases hk : c.cookie.all d.info.keeps with
  | true =>
    rw [keep_bind_of_keeps hk]
    exact hf hk
  | false =>
    obtain ⟨m, hm⟩ := keep_bind_of_refused hk f s₁
    rw [hm]
    exact hR (.refused hr h hk)

variable {e : DriverError} {o : Observation}

theorem failed_handled (hr : s₀.Rounds d deleting s) (h : s.Made d (.get s.req (some (.ok (.failed e)))) s₁) :
    Handled (s₀.Rounds d deleting) (s₀.Outcome d deleting Done) (absorb d (.error e : Except DriverError (α ⊕ Nat)) s₁) := by
  obtain ⟨e', s', heq, hhalts⟩ := absorb_halts hr h rfl rfl
  rw [heq]
  exact .halted hhalts

theorem convergeOn_outcome (hr : s₀.Rounds d false s) (h : s.Made d (.get s.req (some (.ok o))) s₁) :
    Handled (s₀.Rounds d false) (s₀.Outcome d false (Converged d.info)) (convergeOn d o s₁) := by
  cases o with
  | ready outputs cookie => exact keep_ends hr h fun hk => .done hr h (.get hk)
  | inProgress pollAfter cookie => exact keep_ends hr h fun hk => hr.tail (.call h hk rfl)
  | failed error => exact failed_handled hr h
  | absent | unknown => exact keep_ends hr h fun hk => .halted (.unclear (hr.tail (.call h hk rfl)) rfl)

theorem removeOn_outcome (hr : s₀.Rounds d true s) (h : s.Made d (.get s.req (some (.ok o))) s₁) :
    Handled (s₀.Rounds d true) (s₀.Outcome d true Removed) (removeOn d o s₁) := by
  cases o with
  | absent cookie => exact Outcome.done (k := none) hr h .absent
  | ready | inProgress => exact keep_ends hr h fun hk => hr.tail (.call h hk rfl)
  | failed error => exact failed_handled hr h
  | unknown reason cookie => exact keep_ends hr h fun hk => .halted (.unclear (hr.tail (.call h hk rfl)) rfl)

section
variable (d : Driver W) (req : DriverRequest) (timeout : Nat) (world : W) (now : Nat)

theorem converge_outcome :
    ∃ r, converge d req timeout world now = .of r ∧ (Run.new req timeout world now).Outcome d false (Converged d.info) r := by
  refine ⟨_, rfl, ?_⟩
  rcases attempt_outcome (s := Run.new req timeout world now) .refl (.put rfl) (fun _ => ⟨rfl, rfl⟩) ⟨rfl, rfl⟩
    with ⟨a, s₁, ha, h⟩ | ⟨e, s', he, hhalts⟩
  · rw [Run.converge, bind_ok ha]
    cases a with
    | ready outputs cookie => exact keep_ends .refl h fun hk => .done .refl h (.put hk)
    | inProgress pollAfter cookie =>
      exact keep_ends .refl h fun hk => polls_outcome convergeOn_outcome (.single (.call h hk rfl)) pollAfter
  · rw [Run.converge, bind_error he]
    exact .halted hhalts

theorem remove_outcome :
    ∃ r, remove d req timeout world now = .of r ∧ (Run.new req timeout world now).Outcome d true Removed r := by
  refine ⟨_, rfl, ?_⟩
  rcases attempt_outcome (s := Run.new req timeout world now) .refl (.delete rfl) (fun _ => ⟨rfl, rfl⟩) ⟨rfl, rfl⟩
    with ⟨a, s₁, ha, h⟩ | ⟨e, s', he, hhalts⟩
  · rw [Run.remove, bind_ok ha]
    cases a with
    | deleted => exact Outcome.done (k := none) .refl h .delete
    | inProgress pollAfter cookie =>
      exact keep_ends .refl h fun hk => polls_outcome removeOn_outcome (.single (.call h hk rfl)) pollAfter
  · rw [Run.remove, bind_error he]
    exact .halted hhalts

end

structure Run.Keeps (d : Driver W) (P : Run W → Prop) : Prop where
  made : ∀ {s c s₁}, s.Made d c s₁ → P s → P s₁
  cookie : ∀ s k, P s → P (s.withCookie k)
  wait : ∀ s now, P s → P { s with now }

variable {P : Run W → Prop} {r : EStateM.Result DriverError (Run W) α}

theorem Run.Keeps.rounds (hP : Keeps d P) (h0 : P s₀) (hr : s₀.Rounds d deleting s) : P s := by
  induction hr with
  | refl => exact h0
  | tail _ hround ih =>
    cases hround with
    | wait => exact hP.wait _ _ ih
    | call h => exact hP.cookie _ _ (hP.made h ih)

theorem Run.Keeps.outcome (hP : Keeps d P) (h0 : P s₀) (h : s₀.Outcome d deleting Done r) : P (Settled.of r).run := by
  cases h with
  | done hr h => exact hP.cookie _ _ (hP.made h (hP.rounds h0 hr))
  | halted h =>
    cases h with
    | refused hr h => exact hP.made h (hP.rounds h0 hr)
    | failed hr h => exact hP.cookie _ _ (hP.made h (hP.rounds h0 hr))
    | unclear hr => exact hP.rounds h0 hr

def Unready (info : DriverInfo) (calls : List DriverCall) : Prop :=
  ∀ outputs cookie, lastAnswer info calls ≠ some (.ok (.ready outputs cookie))

/-- How polling fails: with an outcome that is not known, with the error the last `get` failed with, or
with the failure the last `get` reported. -/
inductive PollEnd (info : DriverInfo) (calls : List DriverCall) : DriverError → Prop
  | unclear {e : DriverError} : e.unclear = true →
      (∀ e', lastAnswer info calls = some (.error e') → e'.split.1.unclear = true) → PollEnd info calls e
  | refused {e : DriverError} : lastAnswer info calls = some (.error e) →
      (∀ c ∈ calls, c.reports = none) → PollEnd info calls e.split.1
  | reported {e : DriverError} : lastAnswer info calls = some (.ok (.failed e)) →
      PollEnd info calls e.split.1

/-- The end of a `put` that the driver accepted, read off its last answer. -/
def ConvergeEnd (info : DriverInfo) (req : DriverRequest) :
    EStateM.Result DriverError (Run W) DriverOutputs → Prop
  | .ok outputs s => s.Tracks info req ∧ (∀ c ∈ s.calls, c.reports = none) ∧
      ∃ cookie, lastAnswer info s.calls = some (.ok (.ready outputs cookie))
  | .error e s => s.Tracks info req ∧ PollEnd info s.calls e ∧ Unready info s.calls

/-- The end of a `delete` that the driver accepted. -/
def RemoveEnd (info : DriverInfo) (req : DriverRequest) : EStateM.Result DriverError (Run W) Unit → Prop
  | .ok _ s => ∀ e, lastAnswer info s.calls ≠ some (.error e)
  | .error e s => s.Tracks info req ∧ PollEnd info s.calls e

variable {info : DriverInfo} {calls : List DriverCall} {timeout now : Nat} {world : W}

theorem lastAnswer_get {r : DriverRequest} {answer}
    (hk : (DriverCall.get r (some answer)).cookie.all info.keeps = true) :
    lastAnswer info (.get r (some answer) :: calls) = some answer := by
  simp only [lastAnswer, hk, if_true]

theorem lastAnswer_refused (hk : c.cookie.all info.keeps = false) : lastAnswer info (c :: calls) = none := by
  unfold lastAnswer
  split
  · rename_i heq
    cases heq
    rw [hk]
    rfl
  · rfl

theorem reports_of_open (h : c.settles deleting = false) : c.reports = none := by
  unfold DriverCall.reports
  split
  · cases h
  · rfl

theorem Run.Rounds.tracks (hr : (Run.new req timeout world now).Rounds d deleting s) :
    s.Tracks d.info req ∧ ∀ c ∈ s.calls, c.settles deleting = false := by
  induction hr with
  | refl => exact ⟨Run.new_tracks d.info req timeout world now, fun c hc => by cases hc⟩
  | tail _ hround ih =>
    cases hround with
    | wait => exact ih
    | call h hk hopen =>
      refine ⟨Run.Carries.withCookie (h.request.1.trans ih.1) h.calls hk, fun c hc => ?_⟩
      rcases mem_cons.1 (h.calls ▸ hc) with rfl | hc
      · exact hopen
      · exact ih.2 c hc

theorem Run.Made.unaccepted (h : s.Made d c s₁) (hfirst : c.isMutation = true) (hc : c.accepts = false) :
    ∀ c' ∈ s₁.calls, c'.accepts = false := by
  have hnone : s.calls = [] := by
    cases h with
    | put hnone | delete hnone => exact hnone
    | get | cancel => cases hfirst
  rw [h.calls, hnone]
  intro c' hc'
  rw [mem_singleton.1 hc', hc]

theorem Run.Halts.ends (h : (Run.new req timeout world now).Halts d deleting e s) :
    (∀ c ∈ s.calls, c.accepts = false) ∨
      s.Tracks d.info req ∧ PollEnd d.info s.calls e ∧ (deleting = false → Unready d.info s.calls) := by
  cases h with
  | refused hr h hk =>
    have hlast : lastAnswer d.info s.calls = none := by rw [h.calls, lastAnswer_refused hk]
    refine .inr ⟨Run.Carries.refused (h.request.1.trans hr.tracks.1) h.calls hk, .unclear rfl fun e he => ?_, fun _ _ _ he => ?_⟩
    · cases hlast.symm.trans he
    · cases hlast.symm.trans he
  | unclear hr he =>
    obtain ⟨htracks, hopen⟩ := hr.tracks
    refine .inr ⟨htracks, .unclear he fun e' hl => ?_, fun hd outputs cookie hl => ?_⟩
    · obtain ⟨r, hmem⟩ := lastAnswer_mem hl
      cases hopen _ hmem
    · obtain ⟨r, hmem⟩ := lastAnswer_mem hl
      subst hd
      cases hopen _ hmem
  | failed hr h hk he =>
    obtain ⟨htracks, hopen⟩ := hr.tracks
    have htracks' := Run.Carries.withCookie (h.request.1.trans htracks) h.calls hk
    have hunaccepted := h.unaccepted
    cases h with
    | @get a t w h =>
      rcases a with _ | e | o
      · cases he
      · cases he
        refine .inr ⟨htracks', .refused (lastAnswer_get hk) fun c hc => ?_, fun _ _ _ hl => ?_⟩
        on_goal 2 => cases (lastAnswer_get hk).symm.trans hl
        rcases mem_cons.1 hc with rfl | hc
        · rfl
        · exact reports_of_open (hopen c hc)
      · cases o <;> cases he
        exact .inr ⟨htracks', .reported (lastAnswer_get hk), fun _ _ _ hl => by cases (lastAnswer_get hk).symm.trans hl⟩
    | @put a t w hfirst h | @delete a t w hfirst h =>
      rcases a with _ | e | a <;> cases he
      exact .inl (hunaccepted rfl rfl)
    | cancel => cases he

variable (d req timeout world now)

theorem converge_end :
    (∀ c ∈ (converge d req timeout world now).run.calls, c.accepts = false) ∨
    ∃ r, converge d req timeout world now = .of r ∧ ConvergeEnd d.info req r := by
  obtain ⟨r, hr, ho⟩ := converge_outcome d req timeout world now
  rw [hr]
  cases ho with
  | done hrounds h hd =>
    obtain ⟨htracks, hopen⟩ := hrounds.tracks
    have htracks' := Run.Carries.withCookie (h.request.1.trans htracks) h.calls
    cases hd with
    | put hk => exact .inl (h.unaccepted rfl rfl)
    | get hk =>
      refine .inr ⟨_, rfl, htracks' hk, fun c hc => ?_, _, (congrArg _ h.calls).trans (lastAnswer_get hk)⟩
      rcases mem_cons.1 (h.calls ▸ hc) with rfl | hc
      · rfl
      · exact reports_of_open (hopen c hc)
  | halted h =>
    rcases h.ends with hun | ⟨htracks, hpoll, hunready⟩
    · exact .inl hun
    · exact .inr ⟨_, rfl, htracks, hpoll, hunready rfl⟩

theorem remove_end :
    (∀ c ∈ (remove d req timeout world now).run.calls, c.accepts = false) ∨
    ∃ r, remove d req timeout world now = .of r ∧ RemoveEnd d.info req r := by
  obtain ⟨r, hr, ho⟩ := remove_outcome d req timeout world now
  rw [hr]
  cases ho with
  | done hrounds h hd =>
    cases hd with
    | delete => exact .inl (h.unaccepted rfl rfl)
    | absent =>
      refine .inr ⟨_, rfl, fun e he => ?_⟩
      have hlast := (congrArg _ h.calls).symm.trans he
      rw [lastAnswer] at hlast
      split_ifs at hlast
      cases hlast
  | halted h =>
    rcases h.ends with hun | ⟨htracks, hpoll, -⟩
    · exact .inl hun
    · exact .inr ⟨_, rfl, htracks, hpoll⟩

end Outcome

/-- Each call carries the newest cookie returned before it, and only the first is a `put` or a `delete`. -/
def CallsCarry (info : DriverInfo) (req : DriverRequest) : List DriverCall → Prop
  | [] => True
  | c :: earlier => c.request = { req with cookie := (newestCookie info earlier).or req.cookie } ∧
      (c.isMutation = true → earlier = []) ∧ CallsCarry info req earlier

section Carry
variable {d : Driver W} {deleting : Bool} {req : DriverRequest} {timeout now : Nat} {world : W} {s s₁ : Run W}
  {c : DriverCall} {e : DriverError}

theorem CallsCarry.made (h : CallsCarry d.info req s.calls) (ht : s.Tracks d.info req) (hmade : s.Made d c s₁)
    (k : Option Cookie) : CallsCarry d.info req (s₁.withCookie k).calls := by
  rw [show (s₁.withCookie k).calls = c :: s.calls from hmade.calls]
  refine ⟨hmade.request.2.trans ht, fun hc => ?_, h⟩
  cases hmade with
  | put hfirst | delete hfirst => exact hfirst
  | get | cancel => cases hc

theorem Run.Rounds.carry (hr : (Run.new req timeout world now).Rounds d deleting s) : CallsCarry d.info req s.calls := by
  induction hr with
  | refl => trivial
  | tail hr hround ih =>
    cases hround with
    | wait => exact ih
    | call hmade => exact ih.made (Rounds.tracks hr).1 hmade _

theorem Run.Halts.carry (h : (Run.new req timeout world now).Halts d deleting e s) :
    CallsCarry d.info req s.calls ∧ s.Tracks d.info req := by
  cases h with
  | refused hr h hk => exact ⟨hr.carry.made hr.tracks.1 h none, Carries.refused (h.request.1.trans hr.tracks.1) h.calls hk⟩
  | failed hr h hk => exact ⟨hr.carry.made hr.tracks.1 h _, Carries.withCookie (h.request.1.trans hr.tracks.1) h.calls hk⟩
  | unclear hr => exact ⟨hr.carry, hr.tracks.1⟩

end Carry

/-- Whatever the driver answers: every call carries the newest cookie it returned that can be kept, the last of them is
reported, and a success is the answer to the last call. Of the answer that a resource is gone nothing is kept. -/
theorem cookies_carried (d : Driver W) (req : DriverRequest) (timeout : Nat) (world : W) (now : Nat) :
    (let s := converge d req timeout world now
    CallsCarry d.info req s.run.calls ∧ s.cookie = (newestCookie d.info s.run.calls).or req.cookie ∧
      ∀ outputs, s.result = .ok outputs → ∃ c k, s.run.calls.head? = some c ∧ Run.Converged d.info c outputs k) ∧
    (let s := remove d req timeout world now
    CallsCarry d.info req s.run.calls ∧
      (s.cookie = (newestCookie d.info s.run.calls).or req.cookie ∧ (∃ e, s.result = .error e) ∨
      s.cookie = (newestCookie d.info s.run.calls.tail).or req.cookie ∧ ∃ c, s.run.calls.head? = some c ∧
        Run.Removed c () none)) := by
  refine ⟨?_, ?_⟩
  · obtain ⟨r, hr, ho⟩ := converge_outcome d req timeout world now
    simp only [hr]
    cases ho with
    | halted h => exact ⟨h.carry.1, congrArg (·.cookie) h.carry.2, nofun⟩
    | @done s c s₁ a k hrounds h hd =>
      refine ⟨hrounds.carry.made hrounds.tracks.1 h k, ?_, fun outputs ho => ?_⟩
      · cases hd with
        | put hk | get hk => exact congrArg (·.cookie) (Run.Carries.withCookie (h.request.1.trans hrounds.tracks.1) h.calls hk)
      · cases ho
        exact ⟨c, k, congrArg head? h.calls, hd⟩
  · obtain ⟨r, hr, ho⟩ := remove_outcome d req timeout world now
    simp only [hr]
    cases ho with
    | halted h => exact ⟨h.carry.1, .inl ⟨congrArg (·.cookie) h.carry.2, _, rfl⟩⟩
    | @done s c s₁ a k hrounds h hd =>
      obtain ⟨rfl, hd'⟩ : k = none ∧ Run.Removed c () none := by cases hd <;> exact ⟨rfl, by constructor⟩
      have hcalls : (s₁.withCookie none).calls = c :: s.calls := h.calls
      have hcookie := congrArg (·.cookie) (h.request.1.trans hrounds.tracks.1)
      refine ⟨hrounds.carry.made hrounds.tracks.1 h none, .inr ⟨hcookie.trans ?_, c, congrArg head? h.calls, hd'⟩⟩
      rw [Settled.of, hcalls, tail_cons]

end Openporch
