/-!
# Computations that ask

`Ask` is a computation that puts questions to an outside, one after another: which ones may depend on the answers so
far, and a refused question ends it with an error that blames it. `run` is the computation before an outside, `trace`
what it asks there and is told.
-/

namespace Asking
open List

inductive Ask (E R A ε α : Type) where
  | done (a : α)
  | fail (err : ε)
  | ask (e : E) (blame : R → ε) (next : A → Ask E R A ε α)

namespace Ask
variable {E R A ε ε' α β : Type}

def bind : Ask E R A ε α → (α → Ask E R A ε β) → Ask E R A ε β
  | done a, f => f a
  | fail err, _ => fail err
  | ask e blame next, f => ask e blame fun x => (next x).bind f

instance : Monad (Ask E R A ε) where
  pure := done
  bind := bind

def ofExcept : Except ε α → Ask E R A ε α
  | .ok a => done a
  | .error err => fail err

def mapError (f : ε → ε') : Ask E R A ε α → Ask E R A ε' α
  | done a => done a
  | fail err => fail (f err)
  | ask e blame next => ask e (fun r => f (blame r)) fun x => (next x).mapError f

def record : Ask E R A ε α → Ask E R A ε (α × List (E × A))
  | done a => done (a, [])
  | fail err => fail err
  | ask e blame next => ask e blame fun x => (next x).record.bind fun (a, seen) => done (a, (e, x) :: seen)

def run (s : E → Except R A) : Ask E R A ε α → Except ε α
  | done a => .ok a
  | fail err => .error err
  | ask e blame next =>
    match s e with
    | .ok x => (next x).run s
    | .error r => .error (blame r)

def trace (s : E → Except R A) : Ask E R A ε α → List (E × Except R A)
  | done _ | fail _ => []
  | ask e _ next =>
    match s e with
    | .ok x => (e, .ok x) :: (next x).trace s
    | .error r => [(e, .error r)]

def asked (s : E → Except R A) (q : Ask E R A ε α) : List E := (q.trace s).map (·.1)

variable {s t : E → Except R A} {e : E} {blame : R → ε} {next : A → Ask E R A ε α}

theorem asked_of_ok {x : A} (h : s e = .ok x) : (ask e blame next).asked s = e :: (next x).asked s := by
  simp [asked, trace, h]

variable {r : R} {q' : Ask E R A ε α}

theorem asked_of_error (h : s e = .error r) : (ask e blame next).asked s = [e] := by
  simp [asked, trace, h]

theorem mem_asked_ask : e ∈ (ask e blame next).asked s := by
  cases h : s e with
  | ok x => simp [asked_of_ok h]
  | error r => simp [asked_of_error h]

variable {q : Ask E R A ε α} {f : α → Ask E R A ε β} {a : α}

theorem mem_trace {x : Except R A} : (e, x) ∈ q.trace s ↔ e ∈ q.asked s ∧ x = s e := by
  induction q with
  | done a => simp [asked, trace]
  | fail err => simp [asked, trace]
  | ask e' blame next ih =>
    cases h : s e' with
    | error r => simp +contextual [asked, trace, h]
    | ok y =>
      rw [asked_of_ok h, mem_cons, trace, h, mem_cons, ih]
      constructor
      · rintro (heq | ⟨hmem, rfl⟩)
        · obtain ⟨rfl, rfl⟩ := Prod.mk.inj heq
          exact ⟨.inl rfl, h.symm⟩
        · exact ⟨.inr hmem, rfl⟩
      · rintro ⟨rfl | hmem, rfl⟩
        · exact .inl (by rw [h])
        · exact .inr ⟨hmem, rfl⟩

theorem run_bind (q : Ask E R A ε α) (f : α → Ask E R A ε β) : (q >>= f).run s = q.run s >>= fun a => (f a).run s := by
  change (q.bind f).run s = _
  induction q with
  | done a => rfl
  | fail err => rfl
  | ask e' blame next ih =>
    simp only [Ask.bind, run]
    cases s e' with
    | error r => rfl
    | ok x => exact ih x

theorem run_bind_eq_ok {b : β} : (q >>= f).run s = .ok b ↔ ∃ a, q.run s = .ok a ∧ (f a).run s = .ok b := by
  rw [run_bind]
  cases q.run s <;> simp [Bind.bind, Except.bind]

theorem run_mapError (q : Ask E R A ε α) (f : ε → ε') : (q.mapError f).run s = (q.run s).mapError f := by
  induction q with
  | done a => rfl
  | fail err => rfl
  | ask e' blame next ih =>
    simp only [mapError, run]
    cases s e' with
    | error r => rfl
    | ok x => exact ih x

theorem run_of_record {seen : List (E × A)} (h : q.record.run s = .ok (a, seen)) : q.run s = .ok a := by
  induction q generalizing seen with
  | done b =>
    cases h
    rfl
  | fail err => cases h
  | ask e' blame next ih =>
    simp only [record, run] at h ⊢
    cases hs : s e' with
    | error r =>
      rw [hs] at h
      cases h
    | ok x =>
      rw [hs] at h
      dsimp only at h ⊢
      change ((next x).record >>= fun p => done (p.1, (e', x) :: p.2)).run s = .ok (a, seen) at h
      rw [run_bind] at h
      cases hr : (next x).record.run s with
      | error err =>
        rw [hr] at h
        cases h
      | ok p =>
        rw [hr] at h
        cases h
        exact ih x hr

theorem trace_bind (h : q.run s = .ok a) (f : α → Ask E R A ε β) : (q >>= f).trace s = q.trace s ++ (f a).trace s := by
  change (q.bind f).trace s = _
  induction q with
  | done b =>
    cases h
    rfl
  | fail err => cases h
  | ask e' blame next ih =>
    simp only [Ask.bind, trace, run] at h ⊢
    cases hs : s e' with
    | error r =>
      rw [hs] at h
      cases h
    | ok x =>
      rw [hs] at h
      exact congrArg ((e', .ok x) :: ·) (ih x h)

theorem answered_of_run (h : q.run s = .ok a) (he : e ∈ q.asked s) : ∃ x, s e = .ok x := by
  induction q with
  | done _ => cases he
  | fail _ => cases he
  | ask e' blame next ih =>
    simp only [run] at h
    cases hs : s e' with
    | error r =>
      rw [hs] at h
      cases h
    | ok x =>
      rw [hs] at h
      rw [asked_of_ok hs, mem_cons] at he
      rcases he with rfl | he
      · exact ⟨x, hs⟩
      · exact ih x h he

theorem run_congr (q : Ask E R A ε α) (h : ∀ e ∈ q.asked s, s e = t e) : q.run s = q.run t ∧ q.trace s = q.trace t := by
  induction q with
  | done a => exact ⟨rfl, rfl⟩
  | fail err => exact ⟨rfl, rfl⟩
  | ask e blame next ih =>
    have he : s e = t e := h e mem_asked_ask
    simp only [run, trace, ← he]
    cases hs : s e with
    | error r => exact ⟨rfl, rfl⟩
    | ok x =>
      rw [asked_of_ok hs] at h
      obtain ⟨hrun, htrace⟩ := ih x fun e' he' => h e' (mem_cons_of_mem _ he')
      exact ⟨hrun, congrArg ((e, .ok x) :: ·) htrace⟩

/-- The relation goes through `pure` and `bind`. -/
structure Through (Q : ∀ α : Type, Ask E R A ε α → Ask E R A ε α → Prop) : Prop where
  pure {α : Type} (a : α) : Q α (pure a) (pure a)
  bind {α β : Type} {q q' : Ask E R A ε α} {f f' : α → Ask E R A ε β} : Q α q q' → (∀ a, Q β (f a) (f' a)) →
    Q β (q >>= f) (q' >>= f')

/-- `told` reads the question and its refusal off an error that blames one, and nothing off any other. -/
def Blames (told : ε → Option (E × R)) : Ask E R A ε α → Prop
  | done _ => True
  | fail err => told err = none
  | ask e blame next => (∀ r, told (blame r) = some (e, r)) ∧ ∀ x, (next x).Blames told

variable {told : ε → Option (E × R)}

theorem Blames.bind (hq : q.Blames told) (hf : ∀ a, (f a).Blames told) : (q >>= f).Blames told := by
  change (q.bind f).Blames told
  induction q with
  | done a => exact hf a
  | fail err => exact hq
  | ask e blame next ih => exact ⟨hq.1, fun x => ih x (hq.2 x)⟩

theorem Blames.ofExcept {r : Except ε α} (h : ∀ err, r = .error err → told err = none) :
    (ofExcept r : Ask E R A ε α).Blames told := by
  cases r with
  | ok a => trivial
  | error err => exact h err rfl

theorem Blames.mapError {told'} {f : ε → ε'} (hf : ∀ err, told' (f err) = told err) (hq : q.Blames told) :
    (q.mapError f).Blames told' := by
  induction q with
  | done a => trivial
  | fail err => exact (hf err).trans hq
  | ask e blame next ih => exact ⟨fun r => (hf _).trans (hq.1 r), fun x => ih x (hq.2 x)⟩

theorem Blames.record (hq : q.Blames told) : q.record.Blames told := by
  induction q with
  | done a => trivial
  | fail err => exact hq
  | ask e blame next ih => exact ⟨hq.1, fun x => (ih x (hq.2 x)).bind fun _ => trivial⟩

theorem refused_of_run (hq : q.Blames told) {err : ε} {e : E} (hrun : q.run s = .error err)
    (hr : told err = some (e, r)) : e ∈ q.asked s ∧ s e = .error r := by
  induction q with
  | done a => cases hrun
  | fail err' =>
    cases hrun
    rw [show told err = none from hq] at hr
    cases hr
  | ask e' blame next ih =>
    simp only [run] at hrun
    cases hs : s e' with
    | error r' =>
      rw [hs] at hrun
      cases hrun
      rw [hq.1 r'] at hr
      cases hr
      exact ⟨mem_asked_ask, hs⟩
    | ok x =>
      rw [hs] at hrun
      obtain ⟨he, hse⟩ := ih x (hq.2 x) hrun
      exact ⟨by rw [asked_of_ok hs]; exact mem_cons_of_mem _ he, hse⟩

theorem run_refused (hq : q.Blames told) {X : E → Prop} (hsame : ∀ e, ¬ X e → s e = t e)
    (hrefused : ∀ e, X e → ∃ r, t e = .error r) {e : E} (he : e ∈ q.asked s) (hX : X e) :
    ∃ err e' r, q.run t = .error err ∧ told err = some (e', r) ∧ e' ∈ q.asked s ∧ X e' := by
  classical
  induction q with
  | done a => cases he
  | fail err => cases he
  | ask e' blame next ih =>
    by_cases hX' : X e'
    · obtain ⟨r, hr⟩ := hrefused e' hX'
      refine ⟨blame r, e', r, ?_, hq.1 r, mem_asked_ask, hX'⟩
      simp only [run, hr]
    · have hs' := hsame e' hX'
      cases hs : s e' with
      | error r' =>
        rw [asked_of_error hs, mem_singleton] at he
        exact absurd (he ▸ hX) hX'
      | ok x =>
        rw [asked_of_ok hs, mem_cons] at he
        have hnext : e ∈ (next x).asked s := he.resolve_left fun h => hX' (h ▸ hX)
        obtain ⟨err, e'', r, hrun, htold, hasked, hX''⟩ := ih x (hq.2 x) hnext
        refine ⟨err, e'', r, ?_, htold, by rw [asked_of_ok hs]; exact mem_cons_of_mem _ hasked, hX''⟩
        simp only [run, ← hs', hs]
        exact hrun

/-- It asks nothing but what `P` holds of. -/
def Only (P : E → Prop) : Ask E R A ε α → Prop
  | done _ | fail _ => True
  | ask e _ next => P e ∧ ∀ x, (next x).Only P

variable {P : E → Prop}

theorem Only.bind (hq : q.Only P) (hf : ∀ a, (f a).Only P) : (q >>= f).Only P := by
  change (q.bind f).Only P
  induction q with
  | done a => exact hf a
  | fail err => trivial
  | ask e blame next ih => exact ⟨hq.1, fun x => ih x (hq.2 x)⟩

theorem Only.ofExcept {r : Except ε α} : (ofExcept r : Ask E R A ε α).Only P := by
  cases r with
  | ok a => trivial
  | error err => trivial

theorem Only.mapError {f : ε → ε'} (hq : q.Only P) : (q.mapError f).Only P := by
  induction q with
  | done a => trivial
  | fail err => trivial
  | ask e blame next ih => exact ⟨hq.1, fun x => ih x (hq.2 x)⟩

theorem Only.record (hq : q.Only P) : q.record.Only P := by
  induction q with
  | done a => trivial
  | fail err => trivial
  | ask e blame next ih => exact ⟨hq.1, fun x => (ih x (hq.2 x)).bind fun _ => trivial⟩

theorem Only.mono {P' : E → Prop} (h : ∀ e, P e → P' e) (hq : q.Only P) : q.Only P' := by
  induction q with
  | done a => trivial
  | fail err => trivial
  | ask e blame next ih => exact ⟨h e hq.1, fun x => ih x (hq.2 x)⟩

theorem Only.asked (hq : q.Only P) {e : E} (he : e ∈ q.asked s) : P e := by
  induction q with
  | done a => cases he
  | fail err => cases he
  | ask e' blame next ih =>
    cases hs : s e' with
    | error r =>
      rw [asked_of_error hs, mem_singleton] at he
      exact he ▸ hq.1
    | ok x =>
      rw [asked_of_ok hs, mem_cons] at he
      rcases he with rfl | he
      · exact hq.1
      · exact ih x (hq.2 x) he

/-- The computation asks the questions of the list in order, whatever it is told; at a `none` it fails. -/
def Script : List (Option E) → Ask E R A ε α → Prop
  | [], done _ => True
  | none :: _, fail _ => True
  | some e' :: l, ask e _ next => e = e' ∧ ∀ x, Script l (next x)
  | _, _ => False

variable {l l' : List (Option E)}

theorem Script.bind (hq : Script l q) (hf : ∀ a, Script l' (f a)) : Script (l ++ l') (q >>= f) := by
  change Script (l ++ l') (q.bind f)
  induction q generalizing l with
  | done a =>
    match l, hq with
    | [], _ => exact hf a
  | fail err =>
    match l, hq with
    | none :: _, _ => trivial
  | ask e blame next ih =>
    match l, hq with
    | some _ :: l, hq => exact ⟨hq.1, fun x => ih x (hq.2 x)⟩

theorem Script.mapError {f : ε → ε'} (hq : Script l q) : Script l (q.mapError f) := by
  induction q generalizing l with
  | done a =>
    match l, hq with
    | [], _ => trivial
  | fail err =>
    match l, hq with
    | none :: _, _ => trivial
  | ask e blame next ih =>
    match l, hq with
    | some _ :: l, hq => exact ⟨hq.1, fun x => ih x (hq.2 x)⟩

theorem Script.map {f : α → β} (hq : Script l q) : Script l (q >>= fun a => pure (f a)) := by
  have h : Script (l ++ []) (q >>= fun a => pure (f a)) := hq.bind fun _ => trivial
  rwa [append_nil] at h

theorem Script.record (hq : Script l q) : Script l q.record := by
  induction q generalizing l with
  | done a =>
    match l, hq with
    | [], _ => trivial
  | fail err =>
    match l, hq with
    | none :: _, _ => trivial
  | ask e blame next ih =>
    match l, hq with
    | some _ :: l, hq => exact ⟨hq.1, fun x => (ih x (hq.2 x)).map⟩

theorem Script.mem_asked (hq : Script l q) {e : E} :
    e ∈ q.asked s ↔ ∃ before after, l = before ++ some e :: after ∧ ∀ x ∈ before, ∃ e' a, x = some e' ∧ s e' = .ok a := by
  induction q generalizing l with
  | done a =>
    match l, hq with
    | [], _ => simp [asked, trace]
  | fail err =>
    match l, hq with
    | none :: l, _ =>
      refine ⟨fun h => absurd h (by simp [asked, trace]), ?_⟩
      rintro ⟨before, after, hl, hbefore⟩
      cases before with
      | nil => simp at hl
      | cons x before =>
        obtain ⟨rfl, -⟩ := cons.inj hl
        obtain ⟨e', a, h, -⟩ := hbefore none mem_cons_self
        cases h
  | ask e' blame next ih =>
    match l, hq with
    | some _ :: l, hq =>
      obtain ⟨rfl, hnext⟩ := hq
      cases hs : s e' with
      | error r =>
        rw [asked_of_error hs, mem_singleton]
        constructor
        · rintro rfl
          exact ⟨[], l, rfl, by simp⟩
        · rintro ⟨before, after, hl, hbefore⟩
          cases before with
          | nil => exact (Option.some.inj (cons.inj hl).1).symm
          | cons x before =>
            obtain ⟨rfl, -⟩ := cons.inj hl
            obtain ⟨e'', a, h, ha⟩ := hbefore _ mem_cons_self
            cases h
            rw [hs] at ha
            cases ha
      | ok x =>
        rw [asked_of_ok hs, mem_cons, ih x (hnext x)]
        constructor
        · rintro (rfl | ⟨before, after, rfl, hbefore⟩)
          · exact ⟨[], l, rfl, by simp⟩
          · refine ⟨some e' :: before, after, rfl, ?_⟩
            intro y hy
            rcases mem_cons.1 hy with rfl | hy
            · exact ⟨e', x, rfl, hs⟩
            · exact hbefore y hy
        · rintro ⟨before, after, hl, hbefore⟩
          cases before with
          | nil => exact .inl (Option.some.inj (cons.inj hl).1).symm
          | cons y before =>
            obtain ⟨-, rfl⟩ := cons.inj hl
            exact .inr ⟨before, after, rfl, fun z hz => hbefore z (mem_cons_of_mem _ hz)⟩

theorem Script.asked_initial (hq : Script l q) : (q.asked s).map some <+: l := by
  induction q generalizing l with
  | done a => exact nil_prefix
  | fail err => exact nil_prefix
  | ask e' blame next ih =>
    match l, hq with
    | some _ :: l, hq =>
      obtain ⟨rfl, hnext⟩ := hq
      cases hs : s e' with
      | error r =>
        rw [asked_of_error hs]
        exact cons_prefix_cons.2 ⟨rfl, nil_prefix⟩
      | ok x =>
        rw [asked_of_ok hs]
        exact cons_prefix_cons.2 ⟨rfl, ih x (hnext x)⟩

theorem Script.asked_of_run (hq : Script l q) (h : q.run s = .ok a) : (q.asked s).map some = l := by
  induction q generalizing l with
  | done b =>
    match l, hq with
    | [], _ => rfl
  | fail err => cases h
  | ask e' blame next ih =>
    match l, hq with
    | some _ :: l, hq =>
      obtain ⟨rfl, hnext⟩ := hq
      simp only [run] at h
      cases hs : s e' with
      | error r =>
        rw [hs] at h
        cases h
      | ok x =>
        rw [hs] at h
        rw [asked_of_ok hs]
        exact congrArg (some e' :: ·) (ih x (hnext x) h)

theorem Script.run_of_answered (hq : Script l q) (h : ∀ x ∈ l, ∃ e a, x = some e ∧ s e = .ok a) : ∃ a, q.run s = .ok a := by
  induction q generalizing l with
  | done b => exact ⟨b, rfl⟩
  | fail err =>
    match l, hq with
    | none :: l, _ =>
      obtain ⟨e, a, hnone, -⟩ := h none mem_cons_self
      cases hnone
  | ask e' blame next ih =>
    match l, hq with
    | some _ :: l, hq =>
      obtain ⟨rfl, hnext⟩ := hq
      obtain ⟨hfirst, hrest⟩ := forall_mem_cons.1 h
      obtain ⟨e, x, he, hs⟩ := hfirst
      cases he
      obtain ⟨a, hrun⟩ := ih x (hnext x) hrest
      exact ⟨a, by simp only [run, hs, hrun]⟩

theorem Script.answered_iff (hq : Script l q) : (∃ a, q.run s = .ok a) ↔ ∀ x ∈ l, ∃ e a, x = some e ∧ s e = .ok a := by
  refine ⟨?_, hq.run_of_answered⟩
  rintro ⟨a, hrun⟩ x hx
  rw [← hq.asked_of_run hrun] at hx
  obtain ⟨e, he, rfl⟩ := mem_map.1 hx
  obtain ⟨a, ha⟩ := answered_of_run hrun he
  exact ⟨e, a, rfl, ha⟩

def Guarded (bad : A → Bool) (refusal : ε → Prop) : Ask E R A ε α → Ask E R A ε α → Prop
  | done a, done b => a = b
  | fail err, fail err' => err = err'
  | ask e blame next, ask e' blame' next' => e = e' ∧ blame = blame' ∧
    ∀ x, (bad x = true → ∃ err, next x = fail err ∧ refusal err) ∧ (bad x = false → Guarded bad refusal (next x) (next' x))
  | _, _ => False

variable {bad : A → Bool} {refusal : ε → Prop}

theorem Guarded.bind {f'} (hq : Guarded bad refusal q q') (hf : ∀ a, Guarded bad refusal (f a) (f' a)) :
    Guarded bad refusal (q >>= f) (q' >>= f') := by
  change Guarded bad refusal (q.bind f) (q'.bind f')
  induction q generalizing q' with
  | done a =>
    cases q' with
    | done b => exact (show a = b from hq) ▸ hf a
    | fail | ask => cases hq
  | fail err =>
    cases q' with
    | fail err' => exact hq
    | done | ask => cases hq
  | ask e blame next ih =>
    cases q' with
    | ask e' blame' next' =>
      refine ⟨hq.1, hq.2.1, fun x => ⟨fun hx => ?_, fun hx => ih x ((hq.2.2 x).2 hx)⟩⟩
      obtain ⟨err, herr, hrefusal⟩ := (hq.2.2 x).1 hx
      exact ⟨err, by dsimp only; rw [herr]; rfl, hrefusal⟩
    | done | fail => cases hq

theorem Guarded.run (hq : Guarded bad refusal q q') :
    ((∀ e x, (e, .ok x) ∈ q'.trace s → bad x = false) ∧ q.run s = q'.run s ∧ q.trace s = q'.trace s) ∨
      (∃ e x, (e, .ok x) ∈ q'.trace s ∧ bad x = true) ∧ q.trace s <+: q'.trace s ∧
        ∃ err, q.run s = .error err ∧ refusal err := by
  induction q generalizing q' with
  | done a =>
    cases q' with
    | done b => exact .inl ⟨by simp [trace], congrArg Except.ok hq, rfl⟩
    | fail | ask => cases hq
  | fail err =>
    cases q' with
    | fail err' => exact .inl ⟨by simp [trace], congrArg Except.error hq, rfl⟩
    | done | ask => cases hq
  | ask e blame next ih =>
    cases q' with
    | ask e' blame' next' =>
      obtain ⟨rfl, rfl, hnext⟩ := hq
      simp only [Ask.run, trace]
      cases hs : s e with
      | error r => exact .inl ⟨by simp, rfl, rfl⟩
      | ok x =>
        dsimp only
        cases hx : bad x with
        | true =>
          obtain ⟨err, herr, hrefusal⟩ := (hnext x).1 hx
          rw [herr]
          exact .inr ⟨⟨e, x, mem_cons_self, hx⟩, cons_prefix_cons.2 ⟨rfl, nil_prefix⟩, err, rfl, hrefusal⟩
        | false =>
          rcases ih x ((hnext x).2 hx) with ⟨hgood, hrun, htrace⟩ | ⟨⟨e', y, hy, hbad⟩, htrace, hrefused⟩
          · refine .inl ⟨fun e' y hy => ?_, hrun, congrArg _ htrace⟩
            rcases mem_cons.1 hy with heq | hy
            · cases heq
              exact hx
            · exact hgood e' y hy
          · exact .inr ⟨⟨e', y, mem_cons_of_mem _ hy, hbad⟩, cons_prefix_cons.2 ⟨rfl, htrace⟩, hrefused⟩
    | done | fail => cases hq

end Ask
end Asking
