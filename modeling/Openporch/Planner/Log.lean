import Mathlib.Logic.Function.Basic
import Mathlib.Tactic.SplitIfs
import Openporch.Lib.Transition

/-!
# The quota of a deployment's log

`Writer::send` of `crates/engine/src/planner/log.rs`, called by any number of tasks at once. A step is
one operation on what the tasks share: the flags, the lock of `used` and the channel.
-/

namespace Openporch
open List Transition

structure LogLine where
  seq : Nat
  operationId : Option String
  descriptor : Option String
  guresid : Option String
  time : Int
  level : String
  message : String

/-- What the channel is given, and by which of the calls of `tx.send`. -/
inductive LogEntry where
  | line (line : LogLine)
  | status (line : LogLine)
  | warning (line : LogLine)
  | close

inductive SendOutcome where
  | queued
  | dropped
  | closed
deriving DecidableEq

/-- A call of `send` that returned. -/
structure SendCall (τ : Type) where
  task : τ
  line : LogLine
  exempt : Bool
  outcome : SendOutcome

/-- Where a task is in `send`. -/
inductive SendAt where
  | idle
  | entered (line : LogLine) (exempt : Bool)
  | status (line : LogLine)
  | waiting (line : LogLine)
  | locked (line : LogLine)
  | exceeding (line : LogLine)
  | warn (line : LogLine)
  | within (line : LogLine)
  | leaving (line : LogLine) (outcome : SendOutcome)

/-- The writer and its tasks; the channel and the calls have the newest first. -/
structure Writer (τ : Type) where
  quota : Nat
  used : Nat
  holder : Option τ
  truncated : Bool
  closed : Bool
  queue : List LogEntry
  tasks : τ → SendAt
  returned : List (SendCall τ)

inductive LogEvent (τ : Type) where
  | send (t : τ) (line : LogLine) (exempt : Bool)
  | run (t : τ)
  | close
  | closing

namespace Writer
variable {τ : Type}

def new (τ : Type) (quota : Nat) : Writer τ := ⟨quota, 0, none, false, false, [], fun _ => .idle, []⟩

def truncation (quota : Nat) (line : LogLine) : LogLine :=
  ⟨0, none, none, none, line.time, "warn",
    "the log reached its quota of " ++ toString quota ++ " bytes; later lines were dropped"⟩

section
variable [DecidableEq τ] (s : Writer τ)

def go (t : τ) (a : SendAt) : Writer τ := { s with tasks := Function.update s.tasks t a }

def done (t : τ) (line : LogLine) (exempt : Bool) (outcome : SendOutcome) : Writer τ :=
  { s.go t .idle with returned := ⟨t, line, exempt, outcome⟩ :: s.returned }

def run (t : τ) : Writer τ :=
  match s.tasks t with
  | .idle => s
  | .entered line exempt =>
    if s.closed then s.done t line exempt .closed
    else s.go t (if exempt then .status line else .waiting line)
  | .status line => { s with queue := .status line :: s.queue }.done t line true .queued
  | .waiting line => if s.holder.isNone then { s with holder := some t }.go t (.locked line) else s
  | .locked line =>
    if s.truncated then s.go t (.leaving line .dropped)
    else
      let used := s.used + line.message.utf8ByteSize
      { s with used }.go t (if used > s.quota then .exceeding line else .within line)
  | .exceeding line =>
    if s.truncated then s.go t (.leaving line .dropped) else { s with truncated := true }.go t (.warn line)
  | .warn line => { s with queue := .warning (truncation s.quota line) :: s.queue }.go t (.leaving line .dropped)
  | .within line => { s with queue := .line line :: s.queue }.go t (.leaving line .queued)
  | .leaving line outcome => { s with holder := none }.done t line false outcome

/-- `close` stores its flag and then sends `Message::Close`. -/
def step : LogEvent τ → Writer τ
  | .send t line exempt =>
    match s.tasks t with
    | .idle => s.go t (.entered line exempt)
    | _ => s
  | .run t => s.run t
  | .close => { s with closed := true }
  | .closing => if s.closed then { s with queue := .close :: s.queue } else s

end

end Writer

namespace LogEntry

def size : LogEntry → Nat
  | line l => l.message.utf8ByteSize
  | _ => 0

def isWarning : LogEntry → Bool
  | warning _ => true
  | _ => false

def statusLine : LogEntry → Option LogLine
  | status l => some l
  | _ => none

def plainLine : LogEntry → Option LogLine
  | line l => some l
  | _ => none

def isBound : LogEntry → Bool
  | line _ | warning _ => true
  | _ => false

end LogEntry

section
variable (queue : List LogEntry)

def total : Nat := queue.foldr (·.size + ·) 0

def warned : Bool := queue.any LogEntry.isWarning

end

def Ordered : List LogEntry → Prop
  | [] => True
  | e :: older => (e.isBound = true → warned older = false) ∧ Ordered older

namespace SendCall
variable {τ : Type}

def statusLine (c : SendCall τ) : Option LogLine :=
  if c.exempt ∧ c.outcome ≠ .closed then some c.line else none

def plainLine (c : SendCall τ) : Option LogLine :=
  if c.exempt = false ∧ c.outcome = .queued then some c.line else none

def ofTask [DecidableEq τ] (t : τ) (c : SendCall τ) : Option (LogLine × Bool) :=
  if c.task = t then some (c.line, c.exempt) else none

end SendCall

structure LogKept {τ : Type} (quota : Nat) (queue : List LogEntry) (returned : List (SendCall τ)) (closed : Bool) :
    Prop where
  bound : total queue ≤ quota
  ordered : Ordered queue
  dropped : ∀ c ∈ returned, c.outcome = .dropped → c.exempt = false ∧ warned queue = true
  status : queue.filterMap LogEntry.statusLine = returned.filterMap SendCall.statusLine
  opened : closed = false → LogEntry.close ∉ queue ∧ ∀ c ∈ returned, c.outcome ≠ .closed

section
variable {τ : Type} {quota : Nat} {queue : List LogEntry} {returned : List (SendCall τ)} {closed : Bool}

theorem LogKept.push (h : LogKept quota queue returned closed) {e : LogEntry} (hsize : e.size + total queue ≤ quota)
    (hbound : e.isBound = true → warned queue = false) (hstatus : e.statusLine = none)
    (hclose : closed = false → .close ≠ e) : LogKept quota (e :: queue) returned closed := by
  refine ⟨by simpa [total] using hsize, ⟨hbound, h.ordered⟩, fun c hc hdrop => ?_, ?_,
    fun hopen => ⟨?_, (h.opened hopen).2⟩⟩
  · obtain ⟨hexempt, hwarned⟩ := h.dropped c hc hdrop
    rw [warned] at hwarned ⊢
    rw [any_cons, hwarned, Bool.or_true]
    exact ⟨hexempt, rfl⟩
  · rw [filterMap_cons, hstatus]
    exact h.status
  · exact not_mem_cons_of_ne_of_not_mem (hclose hopen) (h.opened hopen).1

theorem LogKept.returns (h : LogKept quota queue returned closed) {c : SendCall τ}
    (hdrop : c.outcome = .dropped → c.exempt = false ∧ warned queue = true) (hstatus : c.statusLine = none)
    (hopen : closed = false → c.outcome ≠ .closed) : LogKept quota queue (c :: returned) closed := by
  refine ⟨h.bound, h.ordered, forall_mem_cons.mpr ⟨hdrop, h.dropped⟩, ?_, fun hc => ⟨(h.opened hc).1, ?_⟩⟩
  · rw [filterMap_cons, hstatus]
    exact h.status
  · exact forall_mem_cons.mpr ⟨hopen hc, (h.opened hc).2⟩

theorem LogKept.pushStatus (h : LogKept quota queue returned closed) (t : τ) (line : LogLine) :
    LogKept quota (.status line :: queue) (⟨t, line, true, .queued⟩ :: returned) closed := by
  refine ⟨by simpa [total, LogEntry.size] using h.bound, ⟨by simp [LogEntry.isBound], h.ordered⟩, ?_, ?_, ?_⟩
  · simpa [warned, LogEntry.isWarning] using h.dropped
  · simpa [LogEntry.statusLine, SendCall.statusLine] using h.status
  · simpa using h.opened

end

namespace SendAt

def call : SendAt → Option (LogLine × Bool)
  | idle => none
  | entered line exempt => some (line, exempt)
  | status line => some (line, true)
  | waiting line | locked line | exceeding line | warn line | within line | leaving line _ => some (line, false)

theorem eq_idle {a : SendAt} (h : a.call = none) : a = idle := by
  cases a with
  | idle => rfl
  | _ => cases h

def plainLine : SendAt → Option LogLine
  | leaving line .queued => some line
  | _ => none

end SendAt

namespace Writer
variable {τ : Type}

def inside : SendAt → Bool
  | .locked _ | .exceeding _ | .warn _ | .within _ | .leaving _ _ => true
  | _ => false

def Settled (s : Writer τ) : Prop :=
  if s.truncated then warned s.queue = true else warned s.queue = false ∧ s.used = total s.queue

def Held (s : Writer τ) : SendAt → Prop
  | .locked _ => s.Settled
  | .exceeding _ => s.truncated = false ∧ warned s.queue = false
  | .warn _ => s.truncated = true ∧ warned s.queue = false
  | .within line => s.truncated = false ∧ warned s.queue = false ∧
    s.used = total s.queue + line.message.utf8ByteSize ∧ s.used ≤ s.quota
  | .leaving _ outcome => s.Settled ∧ (outcome = .dropped → warned s.queue = true) ∧ outcome ≠ .closed
  | _ => True

/-- The line that the task inside has queued, and not yet told. -/
def flight (s : Writer τ) : Option LogLine := s.holder.bind fun t => (s.tasks t).plainLine

def Told (s : Writer τ) : Prop :=
  s.queue.filterMap LogEntry.plainLine = s.flight.toList ++ s.returned.filterMap SendCall.plainLine

structure Guarded (s : Writer τ) : Prop where
  lock : ∀ t, inside (s.tasks t) = true ↔ s.holder = some t
  free : s.holder = none → s.Settled
  held : ∀ t, s.Held (s.tasks t)

structure Inv (s : Writer τ) : Prop where
  guarded : s.Guarded
  kept : LogKept s.quota s.queue s.returned s.closed

variable {s s' : Writer τ} {t : τ} {a : SendAt}

theorem held_of_outside (h : inside a = false) : s.Held a := by
  cases a <;> trivial

theorem Guarded.alone (hs : s.Guarded) (hat : s.tasks t = a) (ha : inside a = true) :
    (∀ u ≠ t, inside (s.tasks u) = false) ∧ s.holder = some t ∧ s.Held a := by
  have hholder : s.holder = some t := (hs.lock t).mp (hat ▸ ha)
  refine ⟨fun u hu => ?_, hholder, hat ▸ hs.held t⟩
  rw [← Bool.not_eq_true, hs.lock u, hholder]
  simpa using Ne.symm hu

theorem Guarded.returns (hs : s.Guarded) (returned : List (SendCall τ)) : Guarded { s with returned } :=
  ⟨hs.lock, hs.free, hs.held⟩

theorem Guarded.push (hs : s.Guarded) {e : LogEntry} (he : e.isBound = false) :
    Guarded { s with queue := e :: s.queue } := by
  have htotal : total (e :: s.queue) = total s.queue := by
    cases e <;> simp_all [total, LogEntry.size, LogEntry.isBound]
  have hwarned : warned (e :: s.queue) = warned s.queue := by
    cases e <;> simp_all [warned, LogEntry.isWarning, LogEntry.isBound]
  have hsettled : Settled { s with queue := e :: s.queue } ↔ s.Settled := by simp only [Settled, htotal, hwarned]
  refine ⟨hs.lock, fun h => hsettled.mpr (hs.free h), fun t => ?_⟩
  have hheld := hs.held t
  revert hheld
  cases s.tasks t <;> simp only [Held, hsettled, htotal, hwarned, imp_self]

theorem Told.returns (hs : s.Told) {c : SendCall τ} (hc : c.plainLine = none) :
    Told { s with returned := c :: s.returned } := by
  rw [Told, filterMap_cons_none hc]
  exact hs

theorem inv_new (quota : Nat) : (new τ quota).Inv :=
  ⟨⟨fun _ => by simp [new, inside], fun _ => ⟨rfl, rfl⟩, fun _ => trivial⟩,
    ⟨Nat.zero_le _, trivial, by simp [new], rfl, by simp [new]⟩⟩

variable [DecidableEq τ]

theorem Guarded.go (hs : s.Guarded) (hat : inside (s.tasks t) = false) (ha : inside a = false) :
    (s.go t a).Guarded := by
  refine ⟨fun u => ?_, hs.free, fun u => ?_⟩ <;> simp only [Writer.go, Function.update_apply] <;> split
  · rename_i hu
    rw [ha, ← hs.lock u, hu, hat]
  · exact hs.lock u
  · exact held_of_outside ha
  · exact hs.held u

theorem Guarded.within (halone : ∀ u ≠ t, inside (s.tasks u) = false) (ha : inside a = true) (h : s.Held a)
    (hholder : s.holder = some t) : (s.go t a).Guarded := by
  refine ⟨fun u => ?_, fun hnone => ?_, fun u => ?_⟩
  · simp only [Writer.go, Function.update_apply, hholder]
    split
    · rename_i hu
      simp [hu, ha]
    · rename_i hu
      simp [halone u hu, Ne.symm hu]
  · exact absurd (hholder.symm.trans hnone) (by simp)
  · simp only [Writer.go, Function.update_apply]
    split
    · exact h
    · rename_i hu
      exact held_of_outside (halone u hu)

theorem Guarded.leaves (halone : ∀ u ≠ t, inside (s.tasks u) = false) (h : s.Settled) :
    ({ s with holder := none }.go t .idle).Guarded := by
  refine ⟨fun u => ?_, fun _ => h, fun u => ?_⟩ <;> simp only [Writer.go, Function.update_apply] <;> split
  · simp [inside]
  · rename_i hu
    simp [halone u hu]
  · trivial
  · rename_i hu
    exact held_of_outside (halone u hu)

theorem Inv.run (hs : s.Inv) (t : τ) : (s.run t).Inv := by
  obtain ⟨hguard, hkept⟩ := hs
  rw [Writer.run]
  cases hat : s.tasks t with
  | idle => exact ⟨hguard, hkept⟩
  | entered line exempt =>
    have hout : inside (s.tasks t) = false := by rw [hat]; rfl
    dsimp only
    split
    · rename_i hclosed
      refine ⟨(hguard.go hout (a := .idle) rfl).returns _,
        hkept.returns (fun h => by cases h) (by simp [SendCall.statusLine]) fun h => ?_⟩
      exact absurd (hclosed.symm.trans h) (by simp)
    · exact ⟨hguard.go hout (by cases exempt <;> rfl), hkept⟩
  | status line =>
    have hout : inside (s.tasks t) = false := by rw [hat]; rfl
    exact ⟨((hguard.push (e := .status line) rfl).go (a := .idle) hout rfl).returns _, hkept.pushStatus t line⟩
  | waiting line =>
    dsimp only
    split
    · rename_i hnone
      rw [Option.isNone_iff_eq_none] at hnone
      refine ⟨.within (fun u _ => ?_) rfl (hguard.free hnone) rfl, hkept⟩
      rw [← Bool.not_eq_true, hguard.lock u, hnone]
      simp
    · exact ⟨hguard, hkept⟩
  | locked line =>
    obtain ⟨halone, hholder, hsettled⟩ := hguard.alone hat rfl
    have hcases := hsettled
    rw [Held, Settled] at hcases
    dsimp only
    split
    · rename_i htrunc
      rw [if_pos htrunc] at hcases
      exact ⟨.within halone rfl ⟨hsettled, fun _ => hcases, by simp⟩ hholder, hkept⟩
    · rename_i htrunc
      rw [if_neg htrunc] at hcases
      rw [Bool.not_eq_true] at htrunc
      refine ⟨?_, hkept⟩
      split
      · exact .within halone rfl ⟨htrunc, hcases.1⟩ hholder
      · rename_i hle
        exact .within halone rfl ⟨htrunc, hcases.1, congrArg (· + _) hcases.2, Nat.le_of_not_lt hle⟩ hholder
  | exceeding line =>
    obtain ⟨halone, hholder, htrunc, hwarned⟩ := hguard.alone hat rfl
    dsimp only
    rw [if_neg (by simp [htrunc])]
    exact ⟨.within halone rfl ⟨rfl, hwarned⟩ hholder, hkept⟩
  | warn line =>
    obtain ⟨halone, hholder, htrunc, hwarned⟩ := hguard.alone hat rfl
    have hnow : warned (.warning (truncation s.quota line) :: s.queue) = true := rfl
    refine ⟨.within halone rfl ⟨?_, fun _ => hnow, by simp⟩ hholder, hkept.push ?_ (fun _ => hwarned) rfl (by simp)⟩
    · rw [Settled, if_pos htrunc]
      exact hnow
    · simpa [LogEntry.size] using hkept.bound
  | within line =>
    obtain ⟨halone, hholder, htrunc, hwarned, hused, hle⟩ := hguard.alone hat rfl
    have hsize : total (.line line :: s.queue) = s.used := by
      rw [hused, Nat.add_comm]
      rfl
    refine ⟨.within halone rfl ⟨?_, by simp, by simp⟩ hholder, hkept.push ?_ (fun _ => hwarned) rfl (by simp)⟩
    · rw [Settled, if_neg (by simp [htrunc])]
      exact ⟨hwarned, hsize.symm⟩
    · exact Nat.le_trans (Nat.le_of_eq hsize) hle
  | leaving line outcome =>
    obtain ⟨halone, -, hsettled, hdrop, hopened⟩ := hguard.alone hat rfl
    exact ⟨(Guarded.leaves halone hsettled).returns _,
      hkept.returns (fun h => ⟨rfl, hdrop h⟩) (by simp [SendCall.statusLine]) fun _ => hopened⟩

theorem Inv.step (hs : s.Inv) (e : LogEvent τ) : (s.step e).Inv := by
  cases e with
  | send t line exempt =>
    rw [Writer.step]
    split
    · rename_i hat
      exact ⟨hs.guarded.go (by rw [hat]; rfl) rfl, hs.kept⟩
    · exact hs
  | run t => exact hs.run t
  | close => exact ⟨⟨hs.guarded.lock, hs.guarded.free, hs.guarded.held⟩, { hs.kept with opened := fun h => by cases h }⟩
  | closing =>
    rw [Writer.step]
    split
    · rename_i hclosed
      have hpush := hs.kept.push (e := .close) (by simpa [LogEntry.size] using hs.kept.bound) (fun h => by cases h) rfl
      exact ⟨hs.guarded.push rfl, hpush fun h => absurd (hclosed.symm.trans h) (by simp)⟩
    · exact hs

theorem run_quota (s : Writer τ) (t : τ) : (s.run t).quota = s.quota ∧ (s.run t).closed = s.closed := by
  rw [run]
  split <;> first | exact ⟨rfl, rfl⟩ | (split <;> exact ⟨rfl, rfl⟩)

theorem step_quota (s : Writer τ) (e : LogEvent τ) : (s.step e).quota = s.quota := by
  cases e with
  | run t => exact (s.run_quota t).1
  | send t line exempt =>
    rw [step]
    split <;> rfl
  | close => rfl
  | closing =>
    rw [step]
    split <;> rfl

theorem closed_iff (s : Writer τ) (events : List (LogEvent τ)) (hs : s.closed = false) :
    (after step s events).closed = true ↔ .close ∈ events := by
  induction events with
  | nil => simp [Transition.after, hs]
  | cons e events ih =>
    rw [mem_cons, ← ih, Transition.after]
    cases e with
    | run t => simp [step, (run_quota _ t).2]
    | send t line exempt =>
      rw [step]
      split <;> simp [go]
    | close => simp [step]
    | closing =>
      rw [step]
      split <;> simp

theorem flight_go (h : a.plainLine = (s.tasks t).plainLine) : (s.go t a).flight = s.flight := by
  refine congrArg s.holder.bind (funext fun u => ?_)
  simp only [go, Function.update_apply]
  split
  · rename_i hu
    rw [hu, h]
  · rfl

theorem flight_holder (h : s.holder = some t) : (s.go t a).flight = a.plainLine := by
  simp [flight, go, h]

theorem Told.go (hs : s.Told) (h : a.plainLine = (s.tasks t).plainLine) : (s.go t a).Told := by
  rw [Told, flight_go h]
  exact hs

theorem Told.run (hs : s.Told) (hguard : s.Guarded) (t : τ) : (s.run t).Told := by
  rw [Writer.run]
  cases hat : s.tasks t with
  | idle => exact hs
  | entered line exempt =>
    dsimp only
    split
    · exact (hs.go (a := .idle) (by rw [hat]; rfl)).returns (by simp [SendCall.plainLine])
    · exact hs.go (by rw [hat]; cases exempt <;> rfl)
  | status line => exact hs.go (a := .idle) (by rw [hat]; rfl)
  | waiting line =>
    dsimp only
    split
    · rename_i hnone
      have hflight : s.flight = none := by rw [flight, Option.isNone_iff_eq_none.1 hnone]; rfl
      rw [Told, flight_holder rfl]
      rwa [Told, hflight] at hs
    · exact hs
  | locked line =>
    dsimp only
    split
    · exact hs.go (by rw [hat]; rfl)
    · exact Told.go (s := { s with used := _ }) hs (by rw [hat]; split <;> rfl)
  | exceeding line =>
    dsimp only
    split
    · exact hs.go (by rw [hat]; rfl)
    · exact Told.go (s := { s with truncated := true }) hs (by rw [hat]; rfl)
  | warn line =>
    exact Told.go (s := { s with queue := .warning (truncation s.quota line) :: s.queue }) hs (by rw [hat]; rfl)
  | within line =>
    obtain ⟨-, hholder, -⟩ := hguard.alone hat rfl
    have hflight : s.flight = none := by rw [flight, hholder, Option.bind_some, hat]; rfl
    dsimp only
    rw [Told, flight_holder (s := { s with queue := .line line :: s.queue }) hholder]
    rw [Told, hflight] at hs
    exact congrArg (line :: ·) hs
  | leaving line outcome =>
    obtain ⟨-, hholder, -⟩ := hguard.alone hat rfl
    have hflight : s.flight = (SendAt.leaving line outcome).plainLine := by rw [flight, hholder, Option.bind_some, hat]
    rw [Told, hflight] at hs
    refine hs.trans ?_
    cases outcome <;> rfl

theorem Told.step (hs : s.Told) (hguard : s.Guarded) (e : LogEvent τ) : (s.step e).Told := by
  cases e with
  | send t line exempt =>
    rw [Writer.step]
    split
    · rename_i hat
      exact hs.go (by rw [hat]; rfl)
    · exact hs
  | run t => exact hs.run hguard t
  | close => exact hs
  | closing =>
    rw [Writer.step]
    split <;> exact hs

/-- The calls of a task, the newest first: the one it is in and those that returned. -/
def calls (s : Writer τ) (t : τ) : List (LogLine × Bool) := (s.tasks t).call.toList ++ s.returned.filterMap (SendCall.ofTask t)

theorem calls_run (s : Writer τ) (t u : τ) : (s.run t).calls u = s.calls u := by
  rw [run]
  by_cases hu : u = t
  · subst hu
    split <;> rename_i hat <;> (try split) <;> simp [calls, done, go, hat, SendAt.call, SendCall.ofTask]
    all_goals split_ifs <;> simp_all
  · split <;> (try split) <;> simp [calls, done, go, hu, Ne.symm hu, SendCall.ofTask]

/-- The call that an event begins: `send` by a task that is in none. -/
def sentBy (t : τ) (k : Taken (Writer τ) (LogEvent τ)) : Option (LogLine × Bool) :=
  match k.event with
  | .send u line exempt => if u = t ∧ (k.before.tasks t).call = none then some (line, exempt) else none
  | _ => none

theorem calls_step (s : Writer τ) (e : LogEvent τ) (t : τ) :
    (s.step e).calls t = (sentBy t ⟨s, e, s.step e⟩).toList ++ s.calls t := by
  cases e with
  | run u => exact s.calls_run u t
  | close => rfl
  | closing =>
    rw [step]
    split <;> rfl
  | send u line exempt =>
    have hsent : sentBy t ⟨s, .send u line exempt, s.step (.send u line exempt)⟩ =
        if u = t ∧ (s.tasks t).call = none then some (line, exempt) else none := rfl
    rw [hsent, step]
    split
    · rename_i hat
      by_cases hu : u = t
      · subst hu
        rw [if_pos ⟨rfl, by rw [hat]; rfl⟩]
        simp [calls, go, hat, SendAt.call]
      · rw [if_neg fun h => hu h.1]
        simp [calls, go, Ne.symm hu]
    · rename_i hat
      rw [if_neg]
      · rfl
      · rintro ⟨rfl, hcall⟩
        exact hat (SendAt.eq_idle hcall)

/-- The steps that are left of a call, while nobody else is inside. -/
def left : SendAt → Nat
  | .idle => 0
  | .status _ | .leaving _ _ => 1
  | .warn _ | .within _ => 2
  | .exceeding _ => 3
  | .locked _ => 4
  | .waiting _ => 5
  | .entered _ _ => 6

theorem left_run (hs : s.Guarded) (h : s.holder = none ∨ s.holder = some t) :
    left ((s.run t).tasks t) ≤ left (s.tasks t) - 1 ∧ ((s.run t).holder = none ∨ (s.run t).holder = some t) := by
  have hlock := hs.lock t
  rw [run]
  split <;> rename_i hat <;> rw [hat] at hlock <;> (try split) <;> simp_all [done, go, left, inside]
  all_goals split_ifs <;> simp

theorem idle_after (hs : s.Inv) (h : s.holder = none ∨ s.holder = some t) :
    (after step s (replicate 6 (.run t))).tasks t = .idle := by
  have hstep : ∀ n, let s' := after step s (replicate n (.run t))
      s'.Inv ∧ left (s'.tasks t) ≤ left (s.tasks t) - n ∧ (s'.holder = none ∨ s'.holder = some t) := by
    intro n
    induction n with
    | zero => exact ⟨hs, Nat.le_refl _, h⟩
    | succ n ih =>
      obtain ⟨hs', hleft, hholder⟩ := ih
      obtain ⟨hleft', hholder'⟩ := left_run hs'.guarded hholder
      refine ⟨hs'.run t, ?_, hholder'⟩
      rw [replicate_succ, Transition.after, step]
      omega
  obtain ⟨-, hleft, -⟩ := hstep 6
  have hsix : left (s.tasks t) ≤ 6 := by cases s.tasks t <;> simp [left]
  have hzero : left ((after step s (replicate 6 (.run t))).tasks t) = 0 := by omega
  generalize (after step s (replicate 6 (.run t))).tasks t = a at hzero ⊢
  cases a with
  | idle => rfl
  | _ => cases hzero

end Writer

theorem Ordered.newer {queue newer older : List LogEntry} {e : LogEntry} (h : Ordered queue)
    (hq : queue = newer ++ e :: older) (he : e.isWarning = true) : ∀ x ∈ newer, x.isBound = false := by
  induction newer generalizing queue with
  | nil => simp
  | cons y newer ih =>
    subst hq
    refine forall_mem_cons.mpr ⟨?_, ih h.2 rfl⟩
    by_contra hbound
    simpa [warned, he] using h.1 (by simpa using hbound)

/-- In every interleaving: the lines are within the quota; after a warning come no line and no other warning; a call
that dropped its line finds a warning queued; the status lines queued are those of the calls that did not find the log
closed, and the other lines those of the calls that say so. The calls are those of the `send` events, and one that is
not held up returns. -/
theorem quota_kept {τ : Type} [DecidableEq τ] (quota : Nat) (events : List (LogEvent τ)) :
    let s := Transition.after Writer.step (Writer.new τ quota) events
    total s.queue ≤ quota ∧
    (∀ newer w older, s.queue = newer ++ .warning w :: older → ∀ e ∈ newer, e.isBound = false) ∧
    (∀ c ∈ s.returned, c.outcome = .dropped → c.exempt = false ∧ ∃ w, .warning w ∈ s.queue) ∧
    s.queue.filterMap LogEntry.statusLine = s.returned.filterMap SendCall.statusLine ∧
    s.queue.filterMap LogEntry.plainLine = s.flight.toList ++ s.returned.filterMap SendCall.plainLine ∧
    (s.closed = true ↔ .close ∈ events) ∧
    (s.closed = false → .close ∉ s.queue ∧ ∀ c ∈ s.returned, c.outcome ≠ .closed) ∧
    ∀ t,
      (Transition.taken Writer.step (Writer.new τ quota) events).filterMap (Writer.sentBy t) =
        (s.tasks t).call.toList ++ s.returned.filterMap (SendCall.ofTask t) ∧
      (s.holder = none ∨ s.holder = some t →
        (Transition.after Writer.step s (replicate 6 (.run t))).tasks t = .idle) := by
  intro s
  obtain ⟨hs, htold⟩ : s.Inv ∧ s.Told := Transition.invariant (I := fun s : Writer τ => s.Inv ∧ s.Told)
    ⟨Writer.inv_new quota, rfl⟩ (fun _ e h => ⟨h.1.step e, h.2.step h.1.guarded e⟩) events
  have hquota : s.quota = quota := Transition.invariant (I := fun s => Writer.quota s = quota) rfl
    (fun _ _ h => (Writer.step_quota _ _).trans h) events
  refine ⟨hquota ▸ hs.kept.bound, fun _ _ _ hq => hs.kept.ordered.newer hq rfl, fun c hc hdrop => ?_, hs.kept.status,
    htold, Writer.closed_iff _ events rfl, hs.kept.opened, fun t => ⟨?_, Writer.idle_after hs⟩⟩
  · obtain ⟨hexempt, hwarned⟩ := hs.kept.dropped c hc hdrop
    obtain ⟨e, he, hw⟩ := any_eq_true.mp hwarned
    cases e with
    | warning w => exact ⟨hexempt, w, he⟩
    | _ => cases hw
  · refine Transition.invariant_taken (I := fun trace s => trace.filterMap (Writer.sentBy t) = Writer.calls s t) rfl
      (fun trace s e h => ?_) events
    rw [Writer.calls_step, ← h, filterMap_cons]
    split <;> rename_i heq <;> rw [heq] <;> rfl

end Openporch
