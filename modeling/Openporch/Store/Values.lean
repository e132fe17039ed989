import Mathlib.Data.List.Sort
import Openporch.Maps
import Openporch.Store.Rows
import Openporch.Lib.Transition

/-!
# Shared values and their versions

`crates/store/src/sqlite_values.rs`. One table has the values of applications, with an empty environment,
and of environments. Every change records the values of its scope as a new version.
-/

namespace Openporch
open List Fallible Table

inductive ValueContent where
  | value (text : String)
  | secretRef (ref : SecretRef)
deriving DecidableEq

structure PutValue where
  key : String
  description : String
  content : ValueContent
  create : Bool

structure ValueRow where
  app : String
  env : String
  key : String
  description : String
  content : ValueContent
deriving DecidableEq

structure ValueSetVersion where
  app : String
  env : String
  id : Nat
  content : BTreeMap String (String × ValueContent)

structure ValueDb where
  values : List ValueRow
  /-- The newest first. -/
  versions : List ValueSetVersion

/-- What other tables say of a change: `check_scope`, `check_values_authority` and `check_secret_use`. -/
structure ValueChecks where
  scope : Result Unit
  authority : Result Unit
  secretUse : SecretRef → Result Unit

def ValueChecks.content (checks : ValueChecks) : ValueContent → Result Unit
  | .value _ => .ok ()
  | .secretRef r => checks.secretUse r

def scopeName (app env : String) : String :=
  if env.isEmpty then "application `" ++ app ++ "`" else "environment `" ++ app ++ "/" ++ env ++ "`"

def scopeOf (env : Option EnvId) : String := env.elim "" (·.text)

namespace ValueDb

section
variable (db : ValueDb) (app env key : String)

def valuesOf : List ValueRow := db.values.filter fun r => r.app = app && r.env = env

def versionsOf : List ValueSetVersion := db.versions.filter fun v => v.app = app && v.env = env

def isRow (r : ValueRow) : Bool := r.app = app && r.env = env && r.key = key

def valueRow : Option ValueRow := db.values.find? (isRow app env key)

def contentOf (rows : List ValueRow) : BTreeMap String (String × ValueContent) :=
  .ofList (rows.map fun r => (r.key, r.description, r.content)) compare

def recordVersion : ValueDb :=
  let latest := ((db.versionsOf app env).map (·.id)).foldr max 0
  { db with versions := ⟨app, env, latest + 1, contentOf (db.valuesOf app env)⟩ :: db.versions }

end

section
variable (db : ValueDb) (checks : ValueChecks) (app : String) (env : Option EnvId)

def putValue (value : PutValue) : Result ValueDb := do
  let scope := scopeOf env
  let key := value.key
  checks.scope
  checks.authority
  let found := (db.valueRow app scope key).isSome
  refuseIf (found && value.create) (.alreadyExists ("value `" ++ key ++ "` in " ++ scopeName app scope))
  refuseIf (!found && !value.create) (.notFound ("value `" ++ key ++ "` in " ++ scopeName app scope))
  refuseIf (env.isSome && (db.valueRow app "" key).isNone) (.invalid ("environment value `" ++ key ++
    "` overrides an application value, but `" ++ app ++ "` has no value `" ++ key ++ "`"))
  checks.content value.content
  let row : ValueRow := { app, env := scope, key, description := value.description, content := value.content }
  return { db with values := delete (isRow app scope key) db.values ++ [row] }.recordVersion app scope

def deleteValue (key : String) : Result ValueDb := do
  let scope := scopeOf env
  checks.authority
  refuseIf (db.valueRow app scope key).isNone (.notFound ("value `" ++ key ++ "` in " ++ scopeName app scope))
  let overriding := ((db.values.filter fun r => r.app = app && r.key = key && r.env ≠ "").map (·.env)).insertionSort (· ≤ ·)
  refuseIf (env.isNone && !overriding.isEmpty) (.conflict ("value `" ++ key ++ "` is overridden in environments " ++
    ", ".intercalate (overriding.map fun e => "`" ++ e ++ "`") ++ "; delete the overrides first"))
  return { db with values := delete (isRow app scope key) db.values }.recordVersion app scope

def removeScopes (p : String → String → Bool) : ValueDb where
  values := delete (fun r => p r.app r.env) db.values
  versions := delete (fun v => p v.app v.env) db.versions

end

end ValueDb

inductive ValueEvent where
  | put (checks : ValueChecks) (app : String) (env : Option EnvId) (value : PutValue)
  | delete (checks : ValueChecks) (app : String) (env : Option EnvId) (key : String)
  | removeEnv (app : String) (env : EnvId)
  | removeApp (app : String)

namespace ValueEvent

def step (db : ValueDb) : ValueEvent → ValueDb
  | put checks app env value => (db.putValue checks app env value).toOption.getD db
  | delete checks app env key => (db.deleteValue checks app env key).toOption.getD db
  | removeEnv app env => db.removeScopes fun a e => a = app && e = env.text
  | removeApp app => db.removeScopes fun a _ => a = app

def touches : ValueEvent → String → String → Bool
  | put _ app env _, a, e | delete _ app env _, a, e => a = app && e = scopeOf env
  | removeEnv app env, a, e => a = app && e = env.text
  | removeApp app, a, _ => a = app

end ValueEvent

namespace ValueDb

/-- The versions are numbered from 1, and the newest has the current values. -/
structure History (db : ValueDb) (app env : String) : Prop where
  numbered : (db.versionsOf app env).map (·.id) = (List.range (db.versionsOf app env).length).reverse.map (· + 1)
  current : ∀ v ∈ (db.versionsOf app env).head?, v.content = contentOf (db.valuesOf app env)

def Overridden (db : ValueDb) : Prop :=
  ∀ r ∈ db.values, r.env ≠ "" → ∃ s ∈ db.values, s.app = r.app ∧ s.env = "" ∧ s.key = r.key

structure Inv (db : ValueDb) : Prop where
  overridden : db.Overridden
  history : ∀ app env, db.History app env

variable {db db' : ValueDb} {app env : String}

theorem foldr_max_range (n : Nat) : ((List.range n).reverse.map (· + 1)).foldr max 0 = n := by
  induction n with
  | zero => rfl
  | succ n ih =>
    rw [range_succ, reverse_append, map_append, foldr_append, ih]
    simp

theorem versionsOf_record (a e : String) : (db.recordVersion app env).versionsOf a e =
    if a = app ∧ e = env then
      ⟨app, env, ((db.versionsOf app env).map (·.id)).foldr max 0 + 1, contentOf (db.valuesOf app env)⟩ :: db.versionsOf app env
    else db.versionsOf a e := by
  rw [recordVersion, versionsOf, filter_cons]
  by_cases h : a = app ∧ e = env
  · obtain ⟨rfl, rfl⟩ := h
    simp only [decide_true, Bool.and_self, if_true, and_self]
    rfl
  · have hscope : (decide (app = a) && decide (env = e)) = false := by
      rw [← Bool.not_eq_true, Bool.and_eq_true, decide_eq_true_eq, decide_eq_true_eq]
      exact fun hboth => h ⟨hboth.1.symm, hboth.2.symm⟩
    simp only [hscope, if_neg h]
    rfl

def Changes (db : ValueDb) (app env : String) (db' : ValueDb) : Prop :=
  ∃ values, db' = { db with values }.recordVersion app env ∧
    ∀ a e, ¬ (a = app ∧ e = env) → values.filter (fun r => r.app = a && r.env = e) = db.valuesOf a e

variable {a e key : String} {p : String → String → Bool}

theorem Changes.frame (hc : db.Changes app env db') (hscope : ¬ (a = app ∧ e = env)) :
    db'.valuesOf a e = db.valuesOf a e ∧ db'.versionsOf a e = db.versionsOf a e := by
  obtain ⟨values, rfl, hvalues⟩ := hc
  refine ⟨hvalues a e hscope, ?_⟩
  rw [versionsOf_record, if_neg hscope]
  rfl

theorem Changes.history (hc : db.Changes app env db') (h : ∀ a e, db.History a e) (a e : String) : db'.History a e := by
  by_cases hscope : a = app ∧ e = env
  · obtain ⟨rfl, rfl⟩ := hscope
    obtain ⟨values, rfl, -⟩ := hc
    have hn := (h a e).numbered
    rw [versionsOf] at hn
    refine ⟨?_, ?_⟩ <;> rw [versionsOf_record, if_pos ⟨rfl, rfl⟩]
    · rw [map_cons, versionsOf, hn, foldr_max_range, length_cons, range_succ]
      simp
    · intro v hv
      cases hv
      rfl
  · obtain ⟨hvalues, hversions⟩ := hc.frame hscope
    have hold := h a e
    exact ⟨by rw [hversions]; exact hold.numbered, by rw [hversions, hvalues]; exact hold.current⟩

theorem filter_delete {α : Type} {p q : α → Bool} {rows : List α} (h : ∀ r, q r = true → p r = false) :
    (delete p rows).filter q = rows.filter q := by
  rw [delete, filter_filter]
  refine filter_congr fun r _ => ?_
  cases hq : q r with
  | false => rfl
  | true => rw [h r hq]; rfl

theorem isRow_iff {r : ValueRow} : isRow app env key r = true ↔ r.app = app ∧ r.env = env ∧ r.key = key := by
  simp [isRow, and_assoc]

theorem filter_deleteRow (hscope : ¬ (a = app ∧ e = env)) :
    (delete (isRow app env key) db.values).filter (fun r => r.app = a && r.env = e) = db.valuesOf a e := by
  refine filter_delete fun r hr => ?_
  rw [Bool.and_eq_true, decide_eq_true_eq, decide_eq_true_eq] at hr
  rw [← Bool.not_eq_true, isRow_iff]
  exact fun h => hscope ⟨hr.1.symm.trans h.1, hr.2.symm.trans h.2.1⟩

theorem exists_of_valueRow (h : (db.valueRow app env key).isNone = false) :
    ∃ s ∈ db.values, s.app = app ∧ s.env = env ∧ s.key = key := by
  obtain ⟨s, hs⟩ := Option.isSome_iff_exists.1 (by simpa using h)
  exact ⟨s, mem_of_find?_eq_some hs, isRow_iff.1 (find?_some hs)⟩

theorem text_ne (env : EnvId) : env.text ≠ "" := fun h => by
  have hlen := env.chars_spec.2.1
  rw [h] at hlen
  cases hlen

section
variable {checks : ValueChecks} {env : Option EnvId}

theorem putValue_spec {value : PutValue} (h : db.putValue checks app env value = .ok db') :
    db.Changes app (scopeOf env) db' ∧ (db.Overridden → db'.Overridden) := by
  simp only [putValue, bind_eq_ok, refuseIf_eq_ok] at h
  obtain ⟨_, -, _, -, _, -, _, -, _, happ, _, -, h⟩ := h
  cases h
  refine ⟨⟨_, rfl, fun a e hscope => ?_⟩, fun hover r hr hne => ?_⟩
  · have hother : ¬ (app = a ∧ scopeOf env = e) := fun h => hscope ⟨h.1.symm, h.2.symm⟩
    rw [filter_append, filter_deleteRow hscope]
    simp [hother]
  · have hbase : ∃ s ∈ db.values, s.app = r.app ∧ s.env = "" ∧ s.key = r.key := by
      rcases mem_append.1 hr with hr | hr
      · exact hover r (mem_delete.1 hr).1 hne
      · obtain rfl := mem_singleton.1 hr
        cases env with
        | none => exact absurd rfl hne
        | some env => exact exists_of_valueRow (by simpa using happ)
    obtain ⟨s, hs, ha, he, hk⟩ := hbase
    -- The application's row stays, or the new row has its key.
    by_cases hrow : isRow app (scopeOf env) value.key s = true
    · obtain ⟨ha', he', hk'⟩ := isRow_iff.1 hrow
      exact ⟨_, mem_append_right _ mem_cons_self, ha'.symm.trans ha, he'.symm.trans he, hk'.symm.trans hk⟩
    · exact ⟨s, mem_append_left _ (mem_delete.2 ⟨hs, by simpa using hrow⟩), ha, he, hk⟩

theorem deleteValue_spec {key : String} (h : db.deleteValue checks app env key = .ok db') :
    db.Changes app (scopeOf env) db' ∧ (db.Overridden → db'.Overridden) := by
  simp only [deleteValue, bind_eq_ok, refuseIf_eq_ok] at h
  obtain ⟨_, -, _, -, _, hnone, h⟩ := h
  cases h
  refine ⟨⟨_, rfl, fun a e hscope => filter_deleteRow hscope⟩, fun hover r hr hne => ?_⟩
  obtain ⟨hold, -⟩ := mem_delete.1 hr
  obtain ⟨s, hs, ha, he, hk⟩ := hover r hold hne
  refine ⟨s, mem_delete.2 ⟨hs, ?_⟩, ha, he, hk⟩
  rw [← Bool.not_eq_true, isRow_iff]
  rintro ⟨happ, henv, hkey⟩
  cases env with
  | some env => exact text_ne env (henv.symm.trans he)
  | none =>
    have hmem : r.env ∈ ((db.values.filter fun r => r.app = app && r.key = key && r.env ≠ "").map
        (·.env)).insertionSort (· ≤ ·) :=
      (mem_insertionSort _).2 (mem_map_of_mem (mem_filter.2
        ⟨hold, by simp [← ha, ← hk, happ, hkey, hne]⟩))
    rw [Option.isNone_none, Bool.true_and, Bool.not_eq_false', List.isEmpty_iff] at hnone
    rw [hnone] at hmem
    cases hmem

end

theorem removeScopes_spec (h : db.Inv) (hp : ∀ a e, p a "" = true → p a e = true) :
    (db.removeScopes p).Inv ∧ ∀ a e, p a e = false →
      (db.removeScopes p).valuesOf a e = db.valuesOf a e ∧ (db.removeScopes p).versionsOf a e = db.versionsOf a e := by
  have hframe : ∀ a e, p a e = false → (db.removeScopes p).valuesOf a e = db.valuesOf a e ∧
      (db.removeScopes p).versionsOf a e = db.versionsOf a e := by
    intro a e hpe
    constructor <;> exact filter_delete fun r hr => by
      rw [Bool.and_eq_true, decide_eq_true_eq, decide_eq_true_eq] at hr
      rw [hr.1, hr.2, hpe]
  refine ⟨⟨fun r hr hne => ?_, fun a e => ?_⟩, hframe⟩
  · obtain ⟨hr, hkept⟩ := mem_delete.1 hr
    obtain ⟨s, hs, ha, he, hk⟩ := h.overridden r hr hne
    refine ⟨s, mem_delete.2 ⟨hs, ?_⟩, ha, he, hk⟩
    rw [← Bool.not_eq_true, ha, he]
    exact fun hgone => by simp [hp _ _ hgone] at hkept
  · cases hpe : p a e with
    | false =>
      obtain ⟨hvalues, hversions⟩ := hframe a e hpe
      exact ⟨by rw [hversions]; exact (h.history a e).numbered, by rw [hversions, hvalues]; exact (h.history a e).current⟩
    | true =>
      have hnone : (db.removeScopes p).versionsOf a e = [] := by
        refine filter_eq_nil_iff.2 fun v hv hscope => ?_
        rw [Bool.and_eq_true, decide_eq_true_eq, decide_eq_true_eq] at hscope
        obtain ⟨-, hkept⟩ := mem_delete.1 hv
        rw [hscope.1, hscope.2, hpe] at hkept
        cases hkept
      exact ⟨by rw [hnone]; rfl, by rw [hnone]; simp⟩

theorem step_spec (h : db.Inv) (ev : ValueEvent) : (ev.step db).Inv ∧ ∀ a e, ev.touches a e = false →
    (ev.step db).valuesOf a e = db.valuesOf a e ∧ (ev.step db).versionsOf a e = db.versionsOf a e := by
  have hchange : ∀ {app env} {r : Result ValueDb}, (∀ db', r = .ok db' → db.Changes app env db' ∧
    (db.Overridden → db'.Overridden)) →
      (r.toOption.getD db).Inv ∧ ∀ a e, (a = app && e = env) = false →
        (r.toOption.getD db).valuesOf a e = db.valuesOf a e ∧ (r.toOption.getD db).versionsOf a e = db.versionsOf a e := by
    intro app env r hr
    cases r with
    | error => exact ⟨h, fun _ _ _ => ⟨rfl, rfl⟩⟩
    | ok db' =>
      obtain ⟨hc, hover⟩ := hr db' rfl
      exact ⟨⟨hover h.overridden, hc.history h.history⟩, fun a e hscope => hc.frame (by simpa using hscope)⟩
  cases ev with
  | put checks app env value => exact hchange fun _ => putValue_spec
  | delete checks app env key => exact hchange fun _ => deleteValue_spec
  | removeEnv app env =>
    refine removeScopes_spec (p := fun a e => a = app && e = env.text) h fun a e hp => ?_
    rw [Bool.and_eq_true, decide_eq_true_eq, decide_eq_true_eq] at hp
    exact absurd hp.2.symm (text_ne env)
  | removeApp app => exact removeScopes_spec (p := fun a _ => a = app) h fun a e hp => hp

/-- After any events, an environment's values override values of their application; the versions of each scope are
numbered from 1, the highest having its current values; and no event changed a scope that it was not about. -/
theorem values_consistent (events : List ValueEvent) :
    (Transition.after ValueEvent.step ⟨[], []⟩ events).Overridden ∧
    (∀ app env, (Transition.after ValueEvent.step ⟨[], []⟩ events).History app env) ∧
    ∀ t ∈ Transition.taken ValueEvent.step ⟨[], []⟩ events, ∀ app env, t.event.touches app env = false →
      t.after.valuesOf app env = t.before.valuesOf app env ∧ t.after.versionsOf app env = t.before.versionsOf app env := by
  have hrun : ∀ events, (Transition.after ValueEvent.step ⟨[], []⟩ events).Inv :=
    Transition.invariant ⟨by simp [Overridden], fun app env => ⟨rfl, by simp [versionsOf]⟩⟩ fun _ ev h => (step_spec h ev).1
  refine ⟨(hrun events).overridden, (hrun events).history, ?_⟩
  induction events with
  | nil =>
    intro t ht
    cases ht
  | cons ev earlier ih =>
    refine forall_mem_cons.2 ⟨fun app env hscope => ?_, ih⟩
    exact (step_spec (hrun earlier) ev).2 app env hscope

theorem Changes.versions (hc : db.Changes app env db') (a e : String) : db.versionsOf a e <:+ db'.versionsOf a e := by
  by_cases hscope : a = app ∧ e = env
  · obtain ⟨rfl, rfl⟩ := hscope
    obtain ⟨values, rfl, -⟩ := hc
    rw [versionsOf_record, if_pos ⟨rfl, rfl⟩]
    exact suffix_cons ..
  · exact (hc.frame hscope).2 ▸ suffix_refl _

theorem removeScopes_versions (h : p app env = false) :
    (db.removeScopes p).versionsOf app env = db.versionsOf app env :=
  filter_delete fun v hv => by
    rw [Bool.and_eq_true, decide_eq_true_eq, decide_eq_true_eq] at hv
    rw [hv.1, hv.2, h]

/-- A version that was recorded stays as it is, below the newer ones, until its scope is removed. -/
theorem versions_kept (earlier later : List ValueEvent) (app env : String) :
    (∃ ev ∈ later, ev = .removeApp app ∨ ∃ id, ev = .removeEnv app id ∧ id.text = env) ∨
      (Transition.after ValueEvent.step ⟨[], []⟩ earlier).versionsOf app env <:+
        (Transition.after ValueEvent.step ⟨[], []⟩ (later ++ earlier)).versionsOf app env := by
  induction later with
  | nil => exact .inr (suffix_refl _)
  | cons ev later ih =>
    rcases ih with ⟨ev', hev', hremoved⟩ | ih
    · exact .inl ⟨ev', mem_cons_of_mem _ hev', hremoved⟩
    rw [cons_append, Transition.after]
    generalize Transition.after ValueEvent.step ⟨[], []⟩ (later ++ earlier) = db at ih ⊢
    have hchange {app' env' : String} {r : Result ValueDb} (hr : ∀ db', r = .ok db' → db.Changes app' env' db') :
        db.versionsOf app env <:+ (r.toOption.getD db).versionsOf app env := by
      cases r with
      | error => exact suffix_refl _
      | ok db' => exact (hr db' rfl).versions app env
    cases ev with
    | put checks app' env' value => exact .inr (ih.trans (hchange fun _ h => (putValue_spec h).1))
    | delete checks app' env' key => exact .inr (ih.trans (hchange fun _ h => (deleteValue_spec h).1))
    | removeEnv app' id =>
      by_cases hscope : app = app' ∧ env = id.text
      · exact .inl ⟨_, mem_cons_self, .inr ⟨id, by rw [hscope.1], hscope.2.symm⟩⟩
      · exact .inr (by rwa [ValueEvent.step, removeScopes_versions (by simpa using hscope)])
    | removeApp app' =>
      by_cases happ : app = app'
      · exact .inl ⟨_, mem_cons_self, .inl (by rw [happ])⟩
      · exact .inr (by rwa [ValueEvent.step, removeScopes_versions (by simpa using happ)])

end ValueDb
end Openporch
