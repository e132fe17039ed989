import Openporch.Driver
import Openporch.Lib.Hoare
import Openporch.Text
import Mathlib.Tactic.Common

/-!
# Running one driver operation

`crates/drivers/src/run.rs` on a virtual clock: `converge` calls `put` and polls `get` until the resource
is ready, `remove` calls `delete` and polls until it is absent, both within a deadline and asking the
driver to cancel when it passes.

`Run.calls` is not in the source: it lists the calls made and what each was answered, newest first.
-/

namespace Openporch
open Loops Hoare

variable {W α : Type}

def defaultTimeout : Nat := secs (15 * 60)
def maxTimeout : Nat := secs (24 * 3600)
def minPoll : Nat := secs 1
def finalPollMargin : Nat := secs 30
def cancelGrace : Nat := secs 60

/-- The whole seconds of a `timeout` input, before the limit of a day is checked. -/
def timeoutSecs : Json → Option Nat
  | .num (.posInt n) => some n
  | .num (.float neg digits exp _) =>
    -- whole numbers written as floats, such as `90.0`
    let whole := if 0 ≤ exp then some (digits * 10 ^ exp.toNat)
      else if digits % 10 ^ (-exp).toNat = 0 then some (digits / 10 ^ (-exp).toNat) else none
    whole.filter fun n => !neg && 1 ≤ n && secs n ≤ maxTimeout
  | .str s =>
    let s := trim s.toList
    let digits := s.takeWhile Char.isDigit
    let unit := s.dropWhile Char.isDigit
    match parseU64 digits, unit with
    | some n, [] | some n, ['s'] => some n
    | some n, ['m'] => if n * 60 < 2 ^ 64 then some (n * 60) else none
    | some n, ['h'] => if n * 3600 < 2 ^ 64 then some (n * 3600) else none
    | _, _ => none
  | _ => none

def parseTimeout (v : Json) : Option Nat := ((timeoutSecs v).filter (0 < ·)).map secs

def callTimeout (values : JsonMap) (remaining : Option Nat) : Except DriverError Nat := do
  let configured ← match values.get "timeout" with
    | none | some .null => .ok defaultTimeout
    | some v => match (parseTimeout v).filter (· ≤ maxTimeout) with
      | some t => .ok t
      | none => .error (.invalid none ("`timeout` must be a positive number of seconds or a duration such as "
          ++ "`90s`, `15m` or `1h`, at most a day, not " ++ v.text))
  match remaining with
  | some 0 => .error (.invalid none "the deployment deadline has passed; the driver was not called")
  | some r => .ok (min configured r)
  | none => .ok configured

/-- A driver call and its answer; `none` when it was dropped at its time limit. -/
inductive DriverCall where
  | put (req : DriverRequest) (answer : Option (Except DriverError PutOutcome))
  | get (req : DriverRequest) (answer : Option (Except DriverError Observation))
  | delete (req : DriverRequest) (answer : Option (Except DriverError DeleteOutcome))
  | cancel (req : DriverRequest) (answer : Option (Except DriverError Observation))

structure Run (W : Type) where
  world : W
  now : Nat
  req : DriverRequest
  timeout : Nat
  deadline : Nat
  calls : List DriverCall

abbrev RunM (W : Type) := EStateM DriverError (Run W)

def RunM.of (f : Run W → α × Run W) : RunM W α := fun s => .ok (f s).1 (f s).2

def Run.new (req : DriverRequest) (timeout : Nat) (world : W) (now : Nat) : Run W :=
  let timeout := min timeout maxTimeout
  { world, now, req, timeout, deadline := now + timeout, calls := [] }

/-- The run after a call that took `t` and left `world`. -/
def Run.record (s : Run W) (world : W) (t : Nat) (call : DriverCall) : Run W :=
  { s with world, now := s.now + t, calls := call :: s.calls }

def Run.last (s : Run W) : Nat := s.deadline - min (s.timeout / 20) finalPollMargin

def checkCookie (info : DriverInfo) (cookie : Cookie) : Except String Unit :=
  match cookie.check with
  | .error e => .error e.text
  | .ok () =>
    if cookie.version ≠ info.cookieVersion then
      .error ("the driver returned a version " ++ toString cookie.version
        ++ " cookie but declares version " ++ toString info.cookieVersion)
    else .ok ()

def cancelled : Option (Except DriverError Observation) → Bool × Option Cookie
  | some (.ok (.absent cookie)) => (true, cookie)
  | some (.ok (.failed error)) => (true, error.split.2)
  | some (.ok (.inProgress _ cookie)) | some (.ok (.ready _ cookie))
  | some (.ok (.unknown _ cookie)) => (false, cookie)
  | some (.error error) => (false, error.split.2)
  | none => (false, none)

section Steps
variable (d : Driver W)

def timedOut (s : Run W) : DriverError × Run W :=
  if !d.info.capabilities.cancel then (.timeout s.timeout, s)
  else
    let (answer, t, world) := (d.cancel s.req s.world).within cancelGrace
    let error : DriverError := if (cancelled answer).1 then .timeout s.timeout
      else .uncertain ("the driver did not finish within " ++ debugDuration s.timeout
        ++ " and did not confirm that the operation stopped")
    (error.attach (cancelled answer).2, s.record world t (.cancel s.req answer))

variable (call : DriverRequest → W → Call W (Except DriverError α))
  (record : DriverRequest → Option (Except DriverError α) → DriverCall)

def bounded (s : Run W) :
    Except DriverError α × Run W :=
  if s.deadline - s.now = 0 then (.error (timedOut d s).1, (timedOut d s).2)
  else
    let (answer, t, world) := (call s.req s.world).within (s.deadline - s.now)
    let s := s.record world t (record s.req answer)
    match answer with
    | some result => (result, s)
    | none => (.error (timedOut d s).1, (timedOut d s).2)

def keep : Option Cookie → RunM W Unit
  | none => pure ()
  | some cookie => match checkCookie d.info cookie with
    | .error e => throw (.uncertain e)
    | .ok () => modify fun s => { s with req := { s.req with cookie := some cookie } }

def absorb : Except DriverError α → RunM W α
  | .error (.withCookie error cookie) => do
    keep d (DriverError.withCookie error cookie).split.2
    throw (DriverError.withCookie error cookie).split.1
  | .error e => throw e
  | .ok a => pure a

def attempt : RunM W α := do
  let result ← RunM.of (bounded d call record)
  absorb d result

/-- Waits before the next poll, at most until `Run.last`. -/
def pause (wait : Nat) (s : Run W) : Except DriverError Unit × Run W :=
  if s.last ≤ s.now then (.error (timedOut d s).1, (timedOut d s).2)
  else (.ok (), { s with now := min (s.now + max wait minPoll) s.last })

def observe (wait : Nat) : RunM W Observation := do
  let paused ← RunM.of (pause d wait)
  absorb d paused
  attempt d d.get .get

/-- What `converge` does with an observation: settle, or poll again after a wait. -/
def convergeOn : Observation → RunM W (DriverOutputs ⊕ Nat)
  | .ready outputs cookie => do keep d cookie; return .inl outputs
  | .inProgress pollAfter cookie => do keep d cookie; return .inr pollAfter
  | .failed error => absorb d (.error error)
  | .absent cookie => do
    keep d cookie
    throw (.uncertain "`put` reported an operation in progress, but `get` found no resource")
  | .unknown reason cookie => do keep d cookie; throw (.uncertain reason)

/-- What `remove` does with an observation. -/
def removeOn : Observation → RunM W (Unit ⊕ Nat)
  | .absent _ => return .inl ()
  | .inProgress pollAfter cookie => do keep d cookie; return .inr pollAfter
  -- still there while the deletion runs
  | .ready _ cookie => do keep d cookie; return .inr minPoll
  | .failed error => absorb d (.error error)
  | .unknown reason cookie => do keep d cookie; throw (.uncertain reason)

def Run.withCookie (s : Run W) (cookie : Option Cookie) : Run W :=
  { s with req := { s.req with cookie := cookie.or s.req.cookie } }

/-- The cookie passes `checkCookie`. -/
def DriverInfo.keeps (info : DriverInfo) (cookie : Cookie) : Bool :=
  match checkCookie info cookie with
  | .ok () => true
  | .error _ => false

variable {d} {cookie : Option Cookie} {e : DriverError}

theorem keep_of_keeps (h : cookie.all d.info.keeps = true) (s : Run W) :
    keep d cookie s = .ok () (s.withCookie cookie) := by
  cases cookie with
  | none => rfl
  | some c =>
    simp only [Option.all_some, DriverInfo.keeps] at h
    unfold keep
    split at h
    · rename_i hc; simp only [hc]; rfl
    · cases h

theorem keep_of_refused (h : cookie.all d.info.keeps = false) (s : Run W) :
    ∃ m, keep d cookie s = .error (.uncertain m) s := by
  cases cookie with
  | none => cases h
  | some c =>
    simp only [Option.all_some, DriverInfo.keeps] at h
    unfold keep
    split at h
    · cases h
    · rename_i m hc; simp only [hc]; exact ⟨m, rfl⟩

theorem keep_bind_of_keeps (h : cookie.all d.info.keeps = true) (f : Unit → RunM W α) (s : Run W) :
    (keep d cookie >>= f) s = f () (s.withCookie cookie) :=
  bind_ok (keep_of_keeps h s) f

theorem keep_bind_of_refused (h : cookie.all d.info.keeps = false) (f : Unit → RunM W α) (s : Run W) :
    ∃ m, (keep d cookie >>= f) s = .error (.uncertain m) s := by
  obtain ⟨m, hm⟩ := keep_of_refused h s
  exact ⟨m, bind_error hm f⟩

theorem absorb_ok (a : α) (s : Run W) : absorb d (.ok a) s = .ok a s := rfl

/-- How a failure is passed on: without its cookie, which is recorded, or, when the cookie cannot be
kept, as an uncertain outcome. -/
inductive Absorbed (d : Driver W) (e : DriverError) (s : Run W) : DriverError → Run W → Prop
  | kept : e.split.2.all d.info.keeps = true → Absorbed d e s e.split.1 (s.withCookie e.split.2)
  | refused (m : String) : e.split.2.all d.info.keeps = false → Absorbed d e s (.uncertain m) s

theorem absorb_error (d : Driver W) (e : DriverError) (s : Run W) : ∃ e' s', Absorbed d e s e' s' ∧
    ∀ α : Type, absorb d (.error e : Except DriverError α) s = .error e' s' := by
  cases h : e.split.2.all d.info.keeps with
  | true =>
    refine ⟨_, _, .kept h, fun α => ?_⟩
    cases e with
    | withCookie error c => exact keep_bind_of_keeps h _ s
    | _ => rfl
  | false =>
    cases e with
    | withCookie error c =>
      obtain ⟨m, hm⟩ := keep_of_refused h s
      exact ⟨_, _, .refused m h, fun α => bind_error hm _⟩
    | _ => cases h

structure SameClock (s s' : Run W) : Prop where
  now : s'.now = s.now
  timeout : s'.timeout = s.timeout
  deadline : s'.deadline = s.deadline

def resultState : EStateM.Result DriverError (Run W) α → Run W
  | .ok _ s | .error _ s => s

theorem SameClock.refl (s : Run W) : SameClock s s := ⟨rfl, rfl, rfl⟩

variable {s s' : Run W} {wait : Nat} {on : Observation → RunM W (α ⊕ Nat)}

theorem SameClock.last (h : SameClock s s') : s'.last = s.last := by
  simp only [Run.last, h.timeout, h.deadline]

theorem keep_bind_clock (cookie : Option Cookie) (f : Unit → RunM W α) (s : Run W)
    (hf : ∀ s, SameClock s (resultState (f () s))) :
    SameClock s (resultState ((keep d cookie >>= f) s)) := by
  cases h : cookie.all d.info.keeps with
  | true => rw [keep_bind_of_keeps h]; exact ⟨(hf _).now, (hf _).timeout, (hf _).deadline⟩
  | false => obtain ⟨m, hm⟩ := keep_bind_of_refused h f s; rw [hm]; exact .refl s

theorem absorb_clock (r : Except DriverError α) (s : Run W) : SameClock s (resultState (absorb d r s)) := by
  cases r with
  | ok a => exact .refl s
  | error e =>
    obtain ⟨e', s', h, heq⟩ := absorb_error d e s
    rw [heq]
    cases h with
    | kept => exact ⟨rfl, rfl, rfl⟩
    | refused => exact .refl s

theorem convergeOn_clock (o : Observation) (s : Run W) : SameClock s (resultState (convergeOn d o s)) := by
  cases o with
  | failed error => exact absorb_clock _ s
  | _ => exact keep_bind_clock _ _ s fun _ => .refl _

theorem removeOn_clock (o : Observation) (s : Run W) : SameClock s (resultState (removeOn d o s)) := by
  cases o with
  | absent => exact .refl s
  | failed error => exact absorb_clock _ s
  | _ => exact keep_bind_clock _ _ s fun _ => .refl _

theorem attempt_eq (s : Run W) :
    attempt d call record s = absorb d (bounded d call record s).1 (bounded d call record s).2 := rfl

variable {a : α} {s₁ : Run W} {o : Observation}

theorem absorb_eq_ok {r} (h : absorb d r s = .ok a s') : r = .ok a ∧ s' = s := by
  cases r with
  | ok b =>
    cases h
    exact ⟨rfl, rfl⟩
  | error e =>
    obtain ⟨e', s₁, -, heq⟩ := absorb_error d e s
    rw [heq] at h
    cases h

theorem attempt_eq_ok {call record} (h : attempt d call record s = .ok a s') : s.now ≤ s'.now ∧ s'.last = s.last := by
  rw [attempt_eq] at h
  obtain ⟨hr, rfl⟩ := absorb_eq_ok h
  unfold bounded at hr ⊢
  split_ifs at hr ⊢
  generalize (call s.req s.world).within (s.deadline - s.now) = answered at hr ⊢
  rcases answered with ⟨_ | r, t, world⟩
  · cases hr
  · exact ⟨Nat.le_add_right _ t, rfl⟩

theorem pause_cases (wait : Nat) (s : Run W) :
    (s.now < s.last ∧ pause d wait s = (.ok (), { s with now := min (s.now + max wait minPoll) s.last })) ∨
    (pause d wait s = (.error (timedOut d s).1, (timedOut d s).2)) := by
  unfold pause
  split_ifs with h
  · exact .inr rfl
  · exact .inl ⟨Nat.lt_of_not_le h, rfl⟩

theorem observe_of_paused (h : pause d wait s = (.ok (), s₁)) : observe d wait s = attempt d d.get .get s₁ := by
  simp only [observe, RunM.of, bind, EStateM.bind, h, absorb_ok]

theorem observe_of_timedOut (h : pause d wait s = (.error e, s₁)) :
    observe d wait s = absorb d (.error e) s₁ := by
  obtain ⟨e', s', -, heq⟩ := absorb_error d e s₁
  simp only [observe, RunM.of, bind, EStateM.bind, h, heq]

theorem observe_eq_ok (h : observe d wait s = .ok o s') :
    s.now < s.last ∧ s.now < s'.now ∧ s'.last = s.last := by
  rcases pause_cases (d := d) wait s with ⟨hlt, hp⟩ | hp
  · rw [observe_of_paused hp] at h
    obtain ⟨hnow, hlast⟩ := attempt_eq_ok h
    have hpoll : 0 < minPoll := by decide
    refine ⟨hlt, Nat.lt_of_lt_of_le ?_ hnow, hlast⟩
    show s.now < min (s.now + max wait minPoll) s.last
    omega
  · rw [observe_of_timedOut hp] at h
    cases (absorb_eq_ok h).1

/-- One round of a polling loop: a poll, and what `on` makes of its observation. -/
def pollRound (d : Driver W) (on : Observation → RunM W (α ⊕ Nat)) (p : Nat × Run W) :
    EStateM.Result DriverError (Run W) α ⊕ (Nat × Run W) :=
  match (observe d p.1 >>= on) p.2 with
  | .ok (.inl a) s => .inl (.ok a s)
  | .ok (.inr wait) s => .inr (wait, s)
  | .error e s => .inl (.error e s)

theorem pollRound_of_error (h : observe d wait s = .error e s') : pollRound d on (wait, s) = .inl (.error e s') := by
  simp only [pollRound, bind, EStateM.bind, h]

theorem pollRound_of_ok (h : observe d wait s = .ok o s') : pollRound d on (wait, s) = match on o s' with
      | .ok (.inl a) s => .inl (.ok a s)
      | .ok (.inr wait) s => .inr (wait, s)
      | .error e s => .inl (.error e s) := by
  simp only [pollRound, bind, EStateM.bind, h]

theorem pollRound_inr {p : Nat × Run W} (h : pollRound d on (wait, s) = .inr p) :
    ∃ o s₁, observe d wait s = .ok o s₁ ∧ on o s₁ = .ok (.inr p.1) p.2 := by
  cases ho : observe d wait s with
  | error e s' => rw [pollRound_of_error ho] at h; cases h
  | ok o s₁ =>
    rw [pollRound_of_ok ho] at h
    refine ⟨o, s₁, rfl, ?_⟩
    split at h
    · cases h
    · rename_i hon; cases h; exact hon
    · cases h

/-- The polling loop. Every round that goes on has moved the clock closer to `Run.last`. -/
def pollLoop (d : Driver W) (on : Observation → RunM W (α ⊕ Nat))
    (hon : ∀ o s, SameClock s (resultState (on o s))) :
    Loop (Nat × Run W) (EStateM.Result DriverError (Run W) α) where
  step := pollRound d on
  measure p := p.2.last - p.2.now
  decreases := by
    rintro ⟨wait, s⟩ ⟨wait', s'⟩ h
    obtain ⟨o, s₁, ho, hs'⟩ := pollRound_inr h
    obtain ⟨hlt, hnow, hlast⟩ := observe_eq_ok ho
    have hc := hon o s₁
    rw [hs'] at hc
    have hl : s'.last = s₁.last := hc.last
    have hn : s'.now = s₁.now := hc.now
    show s'.last - s'.now < s.last - s.now
    omega

/-- An observation was handled: the polling goes on in a state that is `G`, or ends as `End`. -/
def Handled (G : Run W → Prop) (End : EStateM.Result DriverError (Run W) α → Prop) :
    EStateM.Result DriverError (Run W) (α ⊕ Nat) → Prop
  | .ok (.inl a) s => End (.ok a s)
  | .ok (.inr _) s => G s
  | .error e s => End (.error e s)

/-- The rule of the polling loop: `G` is kept by every round that goes on, and a failed poll and an
observation that settles make `End`. -/
theorem pollLoop_end {hon} {G : Run W → Prop} {End}
    (herror : ∀ wait s e s', G s → observe d wait s = .error e s' → End (.error e s'))
    (hok : ∀ wait s o s', G s → observe d wait s = .ok o s' → Handled G End (on o s')) (wait : Nat) (s : Run W)
    (h : G s) : End ((pollLoop d on hon).run (wait, s)) := by
  have round : ∀ (p : Nat × Run W), G p.2 → match pollRound d on p with
      | .inl r => End r
      | .inr p' => G p'.2 := by
    rintro ⟨wait, s⟩ h
    cases ho : observe d wait s with
    | error e s' => rw [pollRound_of_error ho]; exact herror wait s e s' h ho
    | ok o s' =>
      rw [pollRound_of_ok ho]
      have := hok wait s o s' h ho
      rcases hr : on o s' with ⟨_ | _, s₁⟩ | ⟨e, s₁⟩ <;> rw [hr] at this <;> exact this
  refine Loop.run_induct _ (fun p => G p.2) _ (fun p p' hp hstep => ?_) (fun p r hp hstep => ?_) _ h
  · have := round p hp
    rwa [show pollRound d on p = .inr p' from hstep] at this
  · have := round p hp
    rwa [show pollRound d on p = .inl r from hstep] at this

/-- `put`, and while it reports the operation in progress, `get` until the resource is ready. -/
def Run.converge (d : Driver W) : RunM W DriverOutputs := do
  match ← attempt d d.put .put with
  | .ready outputs cookie =>
    keep d cookie
    return outputs
  | .inProgress pollAfter cookie =>
    keep d cookie
    fun s => (pollLoop d (convergeOn d) convergeOn_clock).run (pollAfter, s)

/-- `delete`, and while it reports the operation in progress, `get` until the resource is absent. -/
def Run.remove (d : Driver W) : RunM W Unit := do
  match ← attempt d d.delete .delete with
  | .deleted => return ()
  | .inProgress pollAfter cookie =>
    keep d cookie
    fun s => (pollLoop d (removeOn d) removeOn_clock).run (pollAfter, s)

/-- How a `put` or `delete` settled, with the latest cookie, and the run it took. -/
structure Settled (W α : Type) where
  result : Except DriverError α
  cookie : Option Cookie
  run : Run W

def Settled.of : EStateM.Result DriverError (Run W) α → Settled W α
  | .ok a s => { result := .ok a, cookie := s.req.cookie, run := s }
  | .error e s => { result := .error e, cookie := s.req.cookie, run := s }

def converge (d : Driver W) (req : DriverRequest) (timeout : Nat) (world : W) (now : Nat) :
    Settled W DriverOutputs :=
  .of (Run.converge d (Run.new req timeout world now))

def remove (d : Driver W) (req : DriverRequest) (timeout : Nat) (world : W) (now : Nat) : Settled W Unit :=
  .of (Run.remove d (Run.new req timeout world now))

end Steps
end Openporch
