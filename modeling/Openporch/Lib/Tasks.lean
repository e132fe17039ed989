import Openporch.Lib.Loop
import Mathlib.Data.List.Induction
import Mathlib.Data.List.Nodup

/-!
# A loop that spawns tasks and joins them

`Tasks` is the loop around a set of tasks: every item that is ready is spawned, unless it is too late; then any of the
running tasks ends, and its result may make more items ready.

`State.log` keeps what happened, in order; `Lawful` says which logs are possible.
-/

namespace Tasking
open Loops List

variable {κ τ ρ A W : Type}

inductive Event (κ ρ : Type) where
  | spawned (k : κ)
  /-- Ready, but too late to start. -/
  | late (k : κ)
  | ended (k : κ) (r : ρ)
deriving DecidableEq

structure Tasks (κ τ ρ A W : Type) where
  items : List κ
  ready : A → κ → Bool
  late : W → Bool × W
  spawn : A → κ → τ
  /-- Which of the running tasks ends next. -/
  pick : W → Nat × W
  finish : τ → W → ρ × W
  join : A → κ → ρ → A

structure State (κ τ ρ A W : Type) where
  world : W
  acc : A
  started : List κ := []
  running : List (κ × τ) := []
  log : List (Event κ ρ) := []

namespace Tasks
variable (t : Tasks κ τ ρ A W)

def joinAt (s : State κ τ ρ A W) (i : Fin s.running.length) (world : W) : State κ τ ρ A W :=
  let (k, task) := s.running.get i
  let (r, world) := t.finish task world
  { s with world, acc := t.join s.acc k r, running := s.running.eraseIdx i, log := s.log ++ [.ended k r] }

variable {t}
variable (t) in
def replay (acc : A) (log : List (Event κ ρ)) : A :=
  log.foldl (fun a e => match e with
    | .ended k r => t.join a k r
    | _ => a) acc

theorem replay_spawned (acc : A) (log : List (Event κ ρ)) (k : κ) : t.replay acc (log ++ [.spawned k]) = t.replay acc log := by
  simp [replay, foldl_append]

theorem replay_late (acc : A) (log : List (Event κ ρ)) (k : κ) : t.replay acc (log ++ [.late k]) = t.replay acc log := by
  simp [replay, foldl_append]

theorem replay_ended (acc : A) (log : List (Event κ ρ)) (k : κ) (r : ρ) :
    t.replay acc (log ++ [.ended k r]) = t.join (t.replay acc log) k r := by
  simp [replay, foldl_append]

theorem holds_replay {M : A → Prop} {P : κ → ρ → Prop} (hjoin : ∀ a k r, M (t.join a k r) ↔ M a ∨ P k r) (acc : A)
    (log : List (Event κ ρ)) : M (t.replay acc log) ↔ M acc ∨ ∃ k r, P k r ∧ .ended k r ∈ log := by
  induction log using List.reverseRecOn with
  | nil => simp [replay]
  | append_singleton log e ih =>
    cases e with
    | spawned k => simpa [replay_spawned] using ih
    | late k => simpa [replay_late] using ih
    | ended k r =>
      rw [replay_ended, hjoin, ih, or_assoc]
      refine or_congr_right ⟨?_, ?_⟩
      · rintro (⟨k, r, h, hr⟩ | h)
        · exact ⟨k, r, h, mem_append_left _ hr⟩
        · exact ⟨k, r, h, by simp⟩
      · rintro ⟨k', r', h, hr⟩
        rcases mem_append.1 hr with hr | hr
        · exact .inl ⟨k', r', h, hr⟩
        · cases mem_singleton.1 hr
          exact .inr h

def Started (log : List (Event κ ρ)) (k : κ) : Prop := .spawned k ∈ log ∨ .late k ∈ log

variable (t) in
inductive Lawful (acc : A) : List (Event κ ρ) → Prop
  | nil : Lawful acc []
  | late {log k world} :
    Lawful acc log → k ∈ t.items → ¬ Started log k →
      t.ready (t.replay acc log) k = true → (t.late world).1 = true → Lawful acc (log ++ [.late k])
  | spawned {log k} :
    Lawful acc log → k ∈ t.items → ¬ Started log k →
      t.ready (t.replay acc log) k = true → Lawful acc (log ++ [.spawned k])
  | ended {pre post k} (world : W) :
    Lawful acc (pre ++ .spawned k :: post) →
      (∀ r, .ended k r ∉ pre ++ .spawned k :: post) →
      Lawful acc (pre ++ .spawned k :: post ++ [.ended k (t.finish (t.spawn (t.replay acc pre) k) world).1])

variable {acc : A} {k : κ} {s : State κ τ ρ A W}

theorem Lawful.spawned_of_ended {log} (h : t.Lawful acc log) {r : ρ} (hr : .ended k r ∈ log) : .spawned k ∈ log := by
  induction h with
  | nil => cases hr
  | late _ _ _ _ _ ih | spawned _ _ _ _ ih =>
    rcases mem_append.1 hr with hr | hr
    · exact mem_append_left _ (ih hr)
    · cases mem_singleton.1 hr
  | @ended pre post k' world _ _ ih =>
    rcases mem_append.1 hr with hr | hr
    · exact mem_append_left _ (ih hr)
    · obtain ⟨rfl, -⟩ := Event.ended.inj (mem_singleton.1 hr)
      simp

variable (t) in
structure Going (acc : A) (s : State κ τ ρ A W) : Prop where
  lawful : t.Lawful acc s.log
  replayed : s.acc = t.replay acc s.log
  started : ∀ k, k ∈ s.started ↔ Started s.log k
  running : ∀ x ∈ s.running, (∃ pre post, s.log = pre ++ .spawned x.1 :: post ∧ x.2 = t.spawn (t.replay acc pre) x.1) ∧
    ∀ r, .ended x.1 r ∉ s.log
  spawned : ∀ k, .spawned k ∈ s.log → (∃ task, (k, task) ∈ s.running) ∨ ∃ r, .ended k r ∈ s.log
  nodup : (s.running.map (·.1)).Nodup

section
variable {acc : A} {log pre post : List (Event κ ρ)} {k : κ} {r : ρ}

theorem eq_snoc_cases {e e' : Event κ ρ} (h : pre ++ e :: post = log ++ [e']) :
    pre = log ∧ e = e' ∨ ∃ post', log = pre ++ e :: post' := by
  rcases eq_nil_or_concat post with rfl | ⟨post', x, rfl⟩
  · obtain ⟨hpre, hlast⟩ := append_inj h (by have := congrArg List.length h; simp at this; exact this)
    exact .inl ⟨hpre, head_eq_of_cons_eq hlast⟩
  · rw [concat_eq_append, ← cons_append, ← append_assoc] at h
    exact .inr ⟨post', (append_inj h (by have := congrArg List.length h; simp at this; simp; omega)).1.symm⟩

theorem Lawful.of_spawned (h : t.Lawful acc (pre ++ .spawned k :: post)) : k ∈ t.items ∧ ¬ Started pre k ∧
    t.ready (t.replay acc pre) k = true := by
  generalize hlog : pre ++ Event.spawned k :: post = log at h
  induction h generalizing post with
  | nil => simp at hlog
  | late _ _ _ _ _ ih =>
    rcases eq_snoc_cases hlog with ⟨-, heq⟩ | ⟨post', hlog'⟩
    · cases heq
    · exact ih hlog'.symm
  | spawned _ hk hnew hready ih =>
    rcases eq_snoc_cases hlog with ⟨rfl, heq⟩ | ⟨post', hlog'⟩
    · cases heq
      exact ⟨hk, hnew, hready⟩
    · exact ih hlog'.symm
  | ended _ _ _ ih =>
    rcases eq_snoc_cases hlog with ⟨-, heq⟩ | ⟨post', hlog'⟩
    · cases heq
    · exact ih hlog'.symm

theorem Lawful.of_append (h : t.Lawful acc (pre ++ post)) : t.Lawful acc pre := by
  induction post using List.reverseRecOn with
  | nil => rwa [append_nil] at h
  | append_singleton post e ih =>
    rw [← append_assoc] at h
    generalize hlog : pre ++ post ++ [e] = log at h
    refine ih ?_
    cases h with
    | nil => simp at hlog
    | late h | spawned h | ended _ h => exact (append_inj_left' hlog rfl) ▸ h

theorem Lawful.of_ended (h : t.Lawful acc log) (hr : .ended k r ∈ log) : ∃ pre post world,
    log = pre ++ .spawned k :: post ∧ r = (t.finish (t.spawn (t.replay acc pre) k) world).1 := by
  induction h with
  | nil => cases hr
  | late _ _ _ _ _ ih | spawned _ _ _ _ ih =>
    rcases mem_append.1 hr with hr | hr
    · obtain ⟨pre, post, world, rfl, hfinish⟩ := ih hr
      exact ⟨pre, post ++ [_], world, by rw [append_assoc]; rfl, hfinish⟩
    · cases mem_singleton.1 hr
  | @ended pre post k' world _ _ ih =>
    rcases mem_append.1 hr with hr | hr
    · obtain ⟨pre', post', world', heq, hfinish⟩ := ih hr
      exact ⟨pre', post' ++ [_], world', by rw [heq, append_assoc]; rfl, hfinish⟩
    · obtain ⟨rfl, rfl⟩ := Event.ended.inj (mem_singleton.1 hr)
      exact ⟨pre, post ++ [_], world, by rw [append_assoc]; rfl, rfl⟩

theorem Lawful.ended_unique (h : t.Lawful acc log) {r' : ρ} (hr : .ended k r ∈ log) (hr' : .ended k r' ∈ log) : r = r' := by
  induction h with
  | nil => cases hr
  | late _ _ _ _ _ ih | spawned _ _ _ _ ih => exact ih (by simpa using hr) (by simpa using hr')
  | ended _ _ hnone ih =>
    rcases mem_append.1 hr with hr | hr <;> rcases mem_append.1 hr' with hr' | hr'
    · exact ih hr hr'
    · obtain ⟨rfl, -⟩ := Event.ended.inj (mem_singleton.1 hr')
      exact absurd hr (hnone r)
    · obtain ⟨rfl, -⟩ := Event.ended.inj (mem_singleton.1 hr)
      exact absurd hr' (hnone r')
    · exact ((Event.ended.inj (mem_singleton.1 hr)).2).trans (Event.ended.inj (mem_singleton.1 hr')).2.symm

theorem Lawful.view {β : Type} (h : t.Lawful acc log) (view : A → κ → Option β) (f : ρ → β)
    (hsame : ∀ a k r, view (t.join a k r) k = some (f r)) (hother : ∀ a k r k', k ≠ k' → view (t.join a k r) k' = view a k') :
    (∀ r, .ended k r ∈ log → view (t.replay acc log) k = some (f r)) ∧
      ((∀ r, .ended k r ∉ log) → view (t.replay acc log) k = view acc k) := by
  induction h with
  | nil => exact ⟨fun r hr => absurd hr not_mem_nil, fun _ => rfl⟩
  | late _ _ _ _ _ ih | spawned _ _ _ _ ih =>
    simp only [replay_late, replay_spawned]
    refine ⟨fun r hr => ih.1 r (by simpa using hr), fun hnone => ih.2 fun r hr => hnone r (mem_append_left _ hr)⟩
  | @ended pre post k' world _ hnone ih =>
    rw [replay_ended]
    by_cases hk : k' = k
    · subst hk
      refine ⟨fun r hr => ?_, fun hnone => absurd (mem_append_right _ (mem_singleton.2 rfl)) (hnone _)⟩
      rcases mem_append.1 hr with hr | hr
      · exact absurd hr (hnone r)
      · rw [hsame, (Event.ended.inj (mem_singleton.1 hr)).2]
    · rw [hother _ _ _ _ hk]
      refine ⟨fun r hr => ih.1 r ?_, fun hnone => ih.2 fun r hr => hnone r (mem_append_left _ hr)⟩
      rcases mem_append.1 hr with hr | hr
      · exact hr
      · exact absurd (Event.ended.inj (mem_singleton.1 hr)).1.symm hk

theorem Lawful.of_late (h : t.Lawful acc log) (hk : .late k ∈ log) : ∃ world, (t.late world).1 = true := by
  induction h with
  | nil => cases hk
  | @late _ _ world _ _ _ _ hlate _ => exact ⟨world, hlate⟩
  | spawned _ _ _ _ ih | ended _ _ _ ih => exact ih (by simpa using hk)

end

section
variable {acc : A} {s : State κ τ ρ A W} {k : κ} {world : W}

theorem mem_eraseIdx_of_nodup {l : List (κ × τ)} (hnodup : (l.map (·.1)).Nodup) (i : Fin l.length) (x : κ × τ) :
    x ∈ l.eraseIdx i ↔ x ∈ l ∧ x.1 ≠ (l.get i).1 := by
  rw [mem_eraseIdx_iff_getElem]
  constructor
  · rintro ⟨j, hj, hne, rfl⟩
    refine ⟨getElem_mem hj, fun heq => hne ?_⟩
    have hsame : l.get ⟨j, hj⟩ = l.get i := inj_on_of_nodup_map hnodup (get_mem _ _) (get_mem _ _) heq
    exact congrArg Fin.val ((List.Nodup.of_map _ hnodup).get_inj_iff.1 hsame)
  · rintro ⟨hx, hne⟩
    obtain ⟨j, hj, rfl⟩ := getElem_of_mem hx
    exact ⟨j, hj, fun h => hne (by simp [h]), rfl⟩

theorem Going.late (h : t.Going acc s) (hk : k ∈ t.items) (hnew : k ∉ s.started) (hready : t.ready s.acc k = true)
    (hlate : (t.late s.world).1 = true) : t.Going acc { s with world, started := k :: s.started, log := s.log ++ [.late k] } := by
  refine ⟨?_, ?_, fun x => ?_, fun x hx => ?_, fun x hx => ?_, h.nodup⟩
  · exact .late h.lawful hk (fun hs => hnew ((h.started k).2 hs)) (h.replayed ▸ hready) hlate
  · rw [h.replayed, replay_late]
  · simp only [mem_cons, h.started, Started, mem_append, not_mem_nil, or_false, reduceCtorEq,
      Event.late.injEq]
    tauto
  · obtain ⟨⟨pre, post, hlog, htask⟩, hnone⟩ := h.running x hx
    refine ⟨⟨pre, post ++ [.late k], by simp [hlog], htask⟩, fun r hr => hnone r ?_⟩
    simpa using hr
  · have hx : .spawned x ∈ s.log := by simpa using hx
    exact (h.spawned x hx).imp_right fun hended => hended.imp fun r hr => mem_append_left _ hr

theorem Going.spawn (h : t.Going acc s) (hk : k ∈ t.items) (hnew : k ∉ s.started) (hready : t.ready s.acc k = true) :
    t.Going acc { s with
      world, started := k :: s.started, running := s.running ++ [(k, t.spawn s.acc k)], log := s.log ++ [.spawned k] } := by
  have hnot : ¬ Started s.log k := fun hs => hnew ((h.started k).2 hs)
  refine ⟨?_, ?_, fun x => ?_, fun x hx => ?_, fun x hx => ?_, ?_⟩
  · exact .spawned h.lawful hk hnot (h.replayed ▸ hready)
  · rw [h.replayed, replay_spawned]
  · simp only [mem_cons, h.started, Started, mem_append, not_mem_nil, or_false, reduceCtorEq,
      Event.spawned.injEq]
    tauto
  · rcases mem_append.1 hx with hx | hx
    · obtain ⟨⟨pre, post, hlog, htask⟩, hnone⟩ := h.running x hx
      refine ⟨⟨pre, post ++ [.spawned k], by simp [hlog], htask⟩, fun r hr => hnone r ?_⟩
      simpa using hr
    · obtain rfl := mem_singleton.1 hx
      refine ⟨⟨s.log, [], rfl, by rw [h.replayed]⟩, fun r hr => hnot (.inl ?_)⟩
      exact h.lawful.spawned_of_ended (r := r) (by simpa using hr)
  · rcases mem_append.1 hx with hx | hx
    · rcases h.spawned x hx with ⟨task, htask⟩ | ⟨r, hr⟩
      · exact .inl ⟨task, mem_append_left _ htask⟩
      · exact .inr ⟨r, mem_append_left _ hr⟩
    · obtain rfl := Event.spawned.inj (mem_singleton.1 hx)
      exact .inl ⟨_, mem_append_right _ (mem_singleton.2 rfl)⟩
  · rw [map_append, map_singleton]
    refine nodup_append.2 ⟨h.nodup, by simp, fun a ha b hb heq => ?_⟩
    obtain rfl := mem_singleton.1 hb
    obtain ⟨x, hx, rfl⟩ := mem_map.1 ha
    obtain ⟨⟨pre, post, hlog, -⟩, -⟩ := h.running x hx
    exact hnot (.inl (by rw [hlog, ← heq]; simp))

theorem Going.join (h : t.Going acc s) (i : Fin s.running.length) : t.Going acc (t.joinAt s i world) := by
  have hget : s.running.get i ∈ s.running := get_mem _ _
  obtain ⟨⟨pre, post, hlog, htask⟩, hnone⟩ := h.running _ hget
  have hrest : ∀ x, x ∈ s.running.eraseIdx i ↔ x ∈ s.running ∧ x.1 ≠ (s.running.get i).1 := mem_eraseIdx_of_nodup h.nodup i
  refine ⟨?_, ?_, fun x => ?_, fun x hx => ?_, fun x hx => ?_, ?_⟩
  · have hended := Lawful.ended world (hlog ▸ h.lawful) (hlog ▸ hnone)
    rw [← hlog, ← htask] at hended
    exact hended
  · simp only [joinAt, replay_ended, h.replayed]
  · simp [joinAt, h.started, Started]
  · obtain ⟨hx, hne⟩ := (hrest x).1 hx
    obtain ⟨⟨pre', post', hlog', htask'⟩, hnone'⟩ := h.running x hx
    refine ⟨⟨pre', post' ++ [.ended _ _], (congrArg (· ++ _) hlog').trans (append_assoc _ _ _), htask'⟩, fun r hr => ?_⟩
    rcases mem_append.1 hr with hr | hr
    · exact hnone' r hr
    · exact hne (Event.ended.inj (mem_singleton.1 hr)).1
  · have hx : .spawned x ∈ s.log := by simpa [joinAt] using hx
    rcases h.spawned x hx with ⟨task, hmem⟩ | ⟨r, hr⟩
    · by_cases hxk : x = (s.running.get i).1
      · exact .inr ⟨_, mem_append_right _ (mem_singleton.2 (by rw [hxk]))⟩
      · exact .inl ⟨task, (hrest _).2 ⟨hmem, hxk⟩⟩
    · exact .inr ⟨r, mem_append_left _ hr⟩
  · exact h.nodup.sublist ((eraseIdx_sublist _ _).map _)

end

variable (t) in
/-- What starting an item and ending a task keep, the loop keeps. -/
structure Kept (Inv : State κ τ ρ A W → Prop) : Prop where
  late : ∀ s k, k ∈ t.items → k ∉ s.started → t.ready s.acc k = true → (t.late s.world).1 = true → Inv s →
    Inv { s with world := (t.late s.world).2, started := k :: s.started, log := s.log ++ [.late k] }
  spawned : ∀ s k, k ∈ t.items → k ∉ s.started → t.ready s.acc k = true → Inv s →
    Inv { s with
      world := (t.late s.world).2, started := k :: s.started, running := s.running ++ [(k, t.spawn s.acc k)]
      log := s.log ++ [.spawned k] }
  ended : ∀ s (i : Fin s.running.length), Inv s → Inv (t.joinAt s i (t.pick s.world).2)

theorem going_kept (acc : A) : t.Kept (t.Going acc) :=
  ⟨fun _ _ hk hnew hready hlate h => h.late hk hnew hready hlate, fun _ _ hk hnew hready h => h.spawn hk hnew hready,
    fun _ i h => h.join i⟩

variable [DecidableEq κ]

section
variable (t) (s : State κ τ ρ A W)

def visit (k : κ) : State κ τ ρ A W :=
  if s.started.contains k || !t.ready s.acc k then s
  else
    let (late, world) := t.late s.world
    let s := { s with world, started := k :: s.started }
    if late then { s with log := s.log ++ [.late k] }
    else { s with running := s.running ++ [(k, t.spawn s.acc k)], log := s.log ++ [.spawned k] }

def pass : State κ τ ρ A W := t.items.foldl t.visit s

def step : State κ τ ρ A W ⊕ State κ τ ρ A W :=
  let s := t.pass s
  if h : 0 < s.running.length then
    let (i, world) := t.pick s.world
    .inr (t.joinAt s ⟨i % s.running.length, Nat.mod_lt _ h⟩ world)
  else .inl s

def left : Nat := 2 * t.items.countP (fun k => !s.started.contains k) + s.running.length

theorem visit_cases (k : κ) : t.visit s k = s ∧ (k ∈ s.started ∨ t.ready s.acc k = false) ∨
    k ∉ s.started ∧ t.ready s.acc k = true ∧
      ((t.late s.world).1 = true ∧
          t.visit s k = { s with world := (t.late s.world).2, started := k :: s.started, log := s.log ++ [.late k] } ∨
        t.visit s k = { s with
          world := (t.late s.world).2, started := k :: s.started, running := s.running ++ [(k, t.spawn s.acc k)]
          log := s.log ++ [.spawned k] }) := by
  unfold visit
  by_cases hstarted : k ∈ s.started
  · exact .inl ⟨by simp [hstarted], .inl hstarted⟩
  · cases hready : t.ready s.acc k with
    | false => exact .inl ⟨by simp, .inr rfl⟩
    | true =>
      refine .inr ⟨hstarted, rfl, ?_⟩
      cases hlate : (t.late s.world).1 <;> simp [hstarted, hlate]

theorem countP_started (items : List κ) (started : List κ) (k : κ) :
    items.countP (fun x => !(k :: started).contains x) ≤ items.countP fun x => !started.contains x := by
  refine countP_mono_left fun x _ hx => ?_
  simp only [contains_cons, Bool.not_eq_true', Bool.or_eq_false_iff] at hx ⊢
  exact hx.2

theorem countP_started_lt {items : List κ} {started : List κ} {k : κ} (hk : k ∈ items) (hnew : k ∉ started) :
    items.countP (fun x => !(k :: started).contains x) < items.countP fun x => !started.contains x := by
  obtain ⟨pre, post, rfl⟩ := append_of_mem hk
  have hpre := countP_started pre started k
  have hpost := countP_started post started k
  have hself : (k :: started).contains k = true := by simp
  have hother : started.contains k = false := by simpa using hnew
  simp only [countP_append, countP_cons, hself, hother, Bool.not_true, Bool.not_false, if_true]
  simp only [Bool.false_eq_true, if_false]
  omega

theorem left_visit {k : κ} (hk : k ∈ t.items) : t.left (t.visit s k) ≤ t.left s := by
  rcases t.visit_cases s k with ⟨heq, -⟩ | ⟨hnew, -, ⟨-, heq⟩ | heq⟩
  · exact Nat.le_of_eq (congrArg t.left heq)
  all_goals
    have hlt := countP_started_lt hk hnew
    rw [heq]
    simp only [left, length_append, length_cons, length_nil]
    omega

theorem left_foldl (l : List κ) (hl : ∀ k ∈ l, k ∈ t.items) (s : State κ τ ρ A W) : t.left (l.foldl t.visit s) ≤ t.left s := by
  induction l generalizing s with
  | nil => exact Nat.le_refl _
  | cons k l ih =>
    rw [foldl_cons]
    exact Nat.le_trans (ih (fun x hx => hl x (mem_cons_of_mem _ hx)) _) (t.left_visit s (hl k mem_cons_self))

def loop : Loop (State κ τ ρ A W) (State κ τ ρ A W) where
  step := t.step
  measure := t.left
  decreases := by
    intro s s' h
    have hpass : t.left (t.pass s) ≤ t.left s := t.left_foldl t.items (fun _ hk => hk) s
    unfold step at h
    dsimp only at h
    split at h
    · rename_i hrunning
      cases h
      refine Nat.lt_of_lt_of_le ?_ hpass
      have hlen := length_eraseIdx_of_lt (Nat.mod_lt (t.pick (t.pass s).world).1 hrunning)
      simp only [left, joinAt, hlen]
      omega
    · cases h

def run (world : W) (acc : A) : State κ τ ρ A W := t.loop.run { world, acc }

end

variable {Inv : State κ τ ρ A W → Prop}

theorem Kept.visit (h : t.Kept Inv) (hk : k ∈ t.items) (hs : Inv s) : Inv (t.visit s k) := by
  rcases t.visit_cases s k with ⟨heq, -⟩ | ⟨hnew, hready, ⟨hlate, heq⟩ | heq⟩
  · rwa [heq]
  · rw [heq]
    exact h.late s k hk hnew hready hlate hs
  · rw [heq]
    exact h.spawned s k hk hnew hready hs

theorem Kept.foldl (h : t.Kept Inv) {l : List κ} (hl : ∀ k ∈ l, k ∈ t.items) (hs : Inv s) :
    Inv (l.foldl t.visit s) := by
  induction l generalizing s with
  | nil => exact hs
  | cons k l ih =>
    exact ih (fun x hx => hl x (mem_cons_of_mem _ hx)) (h.visit (hl k mem_cons_self) hs)

theorem acc_visit (s : State κ τ ρ A W) (k : κ) : (t.visit s k).acc = s.acc ∧
    (∀ x ∈ s.started, x ∈ (t.visit s k).started) ∧ (k ∈ (t.visit s k).started ∨ t.ready s.acc k = false) := by
  rcases t.visit_cases s k with ⟨heq, hwhy⟩ | ⟨-, -, ⟨-, heq⟩ | heq⟩
  · rw [heq]
    exact ⟨rfl, fun x hx => hx, hwhy⟩
  all_goals
    rw [heq]
    exact ⟨rfl, fun x hx => mem_cons_of_mem _ hx, .inl mem_cons_self⟩

theorem acc_foldl (l : List κ) (s : State κ τ ρ A W) : (l.foldl t.visit s).acc = s.acc ∧
    (∀ x ∈ s.started, x ∈ (l.foldl t.visit s).started) ∧
      ∀ k ∈ l, k ∈ (l.foldl t.visit s).started ∨ t.ready s.acc k = false := by
  induction l generalizing s with
  | nil => exact ⟨rfl, fun x hx => hx, by simp⟩
  | cons k l ih =>
    rw [foldl_cons]
    obtain ⟨hacc, hkeep, hk⟩ := t.acc_visit s k
    obtain ⟨hacc', hkeep', hl⟩ := ih (t.visit s k)
    refine ⟨hacc'.trans hacc, fun x hx => hkeep' x (hkeep x hx), fun x hx => ?_⟩
    rcases mem_cons.1 hx with rfl | hx
    · exact hk.imp_left (hkeep' x)
    · exact (hl x hx).imp_right fun h => hacc ▸ h

theorem Kept.run (h : t.Kept Inv) {world : W} (hs : Inv { world, acc }) : Inv (t.run world acc) ∧
    (t.run world acc).running = [] ∧
      ∀ k ∈ t.items, k ∈ (t.run world acc).started ∨ t.ready (t.run world acc).acc k = false := by
  refine t.loop.run_induct Inv (fun s => Inv s ∧ s.running = [] ∧
    ∀ k ∈ t.items, k ∈ s.started ∨ t.ready s.acc k = false) (fun s s' hs hstep => ?_) (fun s s' hs hstep => ?_) _ hs
  all_goals
    have hpass : Inv (t.pass s) := h.foldl (fun _ hk => hk) hs
    unfold loop step at hstep
    dsimp only at hstep
    split at hstep <;> cases hstep
  · exact h.ended _ _ hpass
  · rename_i hrunning
    refine ⟨hpass, length_eq_zero_iff.1 (by omega), fun k hk => ?_⟩
    obtain ⟨hacc, -, hall⟩ := t.acc_foldl t.items s
    exact (hall k hk).imp_right fun h => (congrArg (t.ready · k) hacc).trans h

variable (t) in
structure Ended (acc : A) (s : State κ τ ρ A W) : Prop where
  lawful : t.Lawful acc s.log
  replayed : s.acc = t.replay acc s.log
  joined : ∀ k, .spawned k ∈ s.log → ∃ r, .ended k r ∈ s.log
  /-- What was not started is not ready. -/
  stable : ∀ k ∈ t.items, ¬ Started s.log k → t.ready s.acc k = false

theorem run_ended (world : W) (acc : A) : t.Ended acc (t.run world acc) := by
  have hstart : t.Going acc { world, acc } :=
    ⟨.nil, rfl, by simp [Started], by simp, by simp, by simp⟩
  obtain ⟨hgoing, hrunning, hstable⟩ := (t.going_kept acc).run hstart
  refine ⟨hgoing.lawful, hgoing.replayed, fun k hk => ?_, fun k hk hnot => ?_⟩
  · rcases hgoing.spawned k hk with ⟨task, hmem⟩ | hended
    · rw [hrunning] at hmem
      cases hmem
    · exact hended
  · exact (hstable k hk).resolve_left fun hs => hnot ((hgoing.started k).1 hs)

end Tasks
end Tasking
