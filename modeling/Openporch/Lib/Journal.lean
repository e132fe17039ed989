import Mathlib.Logic.Relation
import Mathlib.Tactic.ByContra

/-!
# A journal of operations on records

Each record has at most one operation in flight. An operation is written down first and armed once its
effects may begin; one whose outcome was lost is uncertain and blocks its record until the outcome is
established. `Agree` says that the records' statuses mirror the operations. A `Move` is one write to the
journal.
-/

namespace Journal

inductive Status where
  | idle
  | running
  | blocked
deriving DecidableEq

inductive Phase where
  | running (armed : Bool)
  | uncertain
  | succeeded
  | failed
deriving DecidableEq

namespace Phase

def isOpen : Phase → Bool
  | running _ | uncertain => true
  | succeeded | failed => false

def status : Phase → Status
  | running _ => .running
  | uncertain => .blocked
  | succeeded | failed => .idle

@[simp]
theorem isOpen_running (b : Bool) : (running b).isOpen = true := rfl

@[simp]
theorem isOpen_uncertain : uncertain.isOpen = true := rfl

variable {p : Phase}

theorem isOpen_iff : p.isOpen = true ↔ (∃ b, p = running b) ∨ p = uncertain := by
  cases p <;> simp [isOpen]

theorem not_isOpen_iff : p.isOpen = false ↔ p = succeeded ∨ p = failed := by
  cases p <;> simp [isOpen]

theorem status_idle : p.status = .idle ↔ p.isOpen = false := by
  cases p <;> simp [isOpen, status]

end Phase
end Journal

structure Journal (ι κ : Type) where
  /-- The status of a record; none when there is no such record. -/
  status : κ → Option Journal.Status
  /-- The record an operation is on, and how far it got. -/
  entry : ι → Option (κ × Journal.Phase)

namespace Journal
variable {ι κ : Type}

/-- The statuses mirror the operations, of which at most one is open on each record. -/
structure Agree (j : Journal ι κ) : Prop where
  unique : ∀ {i i' k p p'}, j.entry i = some (k, p) → j.entry i' = some (k, p') → p.isOpen = true →
    p'.isOpen = true → i = i'
  mirrored : ∀ {i k p}, j.entry i = some (k, p) → p.isOpen = true → j.status k = some p.status
  claimed : ∀ {k st}, j.status k = some st → st ≠ .idle → ∃ i p, j.entry i = some (k, p) ∧ p.isOpen = true

/-- Operation `i` on record `k` is now in phase `q`, the record's status follows, and nothing else changed. A
record may disappear with the operation that ends on it. -/
structure Writes (j j' : Journal ι κ) (i : ι) (k : κ) (q : Phase) : Prop where
  entry : j'.entry i = some (k, q)
  status : j'.status k = some q.status ∨ j'.status k = none ∧ q.isOpen = false
  entries : ∀ i', i' ≠ i → j'.entry i' = j.entry i'
  statuses : ∀ k', k' ≠ k → j'.status k' = j.status k'

structure Rights (ι κ : Type) where
  own : ι → Prop
  fresh : ι → Prop
  unused : κ → Prop

inductive Move (rights : Rights ι κ) (j j' : Journal ι κ) : Prop where
  | begin (i : ι) (k : κ) (p : Phase) (hfresh : rights.fresh i) (hnone : j.entry i = none)
      (hfree : j.status k = some .idle ∨ j.status k = none ∧ rights.unused k) (hopen : p.isOpen = true)
      (hwrites : Writes j j' i k p)
  | turn (i : ι) (k : κ) (p q : Phase) (hentry : j.entry i = some (k, p)) (hopen : p.isOpen = true)
      (hrunning : ∀ b, q = .running b → ∃ b', p = .running b' ∧ (b' = true → b = true))
      (hfailed : q = .failed → rights.own i ∨ p = .running false)
      (hwrites : Writes j j' i k q)
  | drop (I : ι → Prop) (K : κ → Prop)
      (hdropped : ∀ i k p, j.entry i = some (k, p) → I i → K k ∨ j.status k = none)
      (hopen : ∀ i k p, j.entry i = some (k, p) → p.isOpen = true → K k → I i)
      (hstatus : ∀ k, K k → j'.status k = none) (hstatuses : ∀ k, ¬ K k → j'.status k = j.status k)
      (hentry : ∀ i, I i → j'.entry i = none) (hentries : ∀ i, ¬ I i → j'.entry i = j.entry i)

abbrev Moves (rights : Rights ι κ) : Journal ι κ → Journal ι κ → Prop := Relation.ReflTransGen (Move rights)

variable {rights : Rights ι κ} {j j' : Journal ι κ} {i : ι} {k : κ}

theorem Agree.closed (h : Agree j) (hidle : j.status k = some .idle ∨ j.status k = none) {p : Phase}
    (hentry : j.entry i = some (k, p)) : p.isOpen = false := by
  by_contra hopen
  rw [Bool.not_eq_false] at hopen
  have hstatus := h.mirrored hentry hopen
  rcases hidle with hidle | hidle
  · rw [hidle, Option.some.injEq] at hstatus
    rw [Phase.status_idle.1 hstatus.symm] at hopen
    cases hopen
  · rw [hidle] at hstatus
    cases hstatus

theorem Agree.writes (h : Agree j) {q : Phase} (hw : Writes j j' i k q)
    (halone : ∀ i' p, j.entry i' = some (k, p) → p.isOpen = true → i' = i)
    (hhere : ∀ k' p, j.entry i = some (k', p) → k' = k) : Agree j' := by
  have hother : ∀ {i' k' p'}, i' ≠ i → j'.entry i' = some (k', p') → p'.isOpen = true →
      j.entry i' = some (k', p') ∧ k' ≠ k := by
    intro i' k' p' hne he ho
    rw [hw.entries i' hne] at he
    refine ⟨he, ?_⟩
    rintro rfl
    exact hne (halone i' p' he ho)
  have hself : ∀ {k' p'}, j'.entry i = some (k', p') → k' = k ∧ p' = q := by
    intro k' p' he
    rw [hw.entry] at he
    cases he
    exact ⟨rfl, rfl⟩
  refine ⟨?_, ?_, ?_⟩
  · intro i1 i2 k' p1 p2 h1 h2 ho1 ho2
    by_cases e1 : i1 = i
    · by_cases e2 : i2 = i
      · rw [e1, e2]
      · subst e1
        exact absurd (hself h1).1 (hother e2 h2 ho2).2
    · by_cases e2 : i2 = i
      · subst e2
        exact absurd (hself h2).1 (hother e1 h1 ho1).2
      · exact h.unique (hother e1 h1 ho1).1 (hother e2 h2 ho2).1 ho1 ho2
  · intro i' k' p' he ho
    by_cases e : i' = i
    · subst e
      obtain ⟨rfl, rfl⟩ := hself he
      rcases hw.status with hst | ⟨_, hclosed⟩
      · exact hst
      · rw [hclosed] at ho
        cases ho
    · obtain ⟨he, hne⟩ := hother e he ho
      rw [hw.statuses k' hne]
      exact h.mirrored he ho
  · intro k' st hst hidle
    by_cases e : k' = k
    · subst e
      rcases hw.status with hst' | ⟨hnone, _⟩
      · rw [hst', Option.some.injEq] at hst
        refine ⟨i, q, hw.entry, ?_⟩
        by_contra ho
        rw [Bool.not_eq_true, ← Phase.status_idle, hst] at ho
        exact hidle ho
      · rw [hnone] at hst
        cases hst
    · rw [hw.statuses k' e] at hst
      obtain ⟨i', p', he, ho⟩ := h.claimed hst hidle
      refine ⟨i', p', ?_, ho⟩
      rw [hw.entries i' ?_, he]
      rintro rfl
      exact e (hhere k' p' he)

variable {I : ι → Prop} {K : κ → Prop}

theorem Agree.drop (h : Agree j) (hdropped : ∀ i k p, j.entry i = some (k, p) → I i → K k ∨ j.status k = none)
    (hopen : ∀ i k p, j.entry i = some (k, p) → p.isOpen = true → K k → I i) (hstatus : ∀ k, K k → j'.status k = none)
    (hstatuses : ∀ k, ¬ K k → j'.status k = j.status k) (hentry : ∀ i, I i → j'.entry i = none)
    (hentries : ∀ i, ¬ I i → j'.entry i = j.entry i) : Agree j' := by
  have hkept : ∀ {i' k' p'}, j'.entry i' = some (k', p') → ¬ I i' ∧ j.entry i' = some (k', p') := by
    intro i' k' p' he
    have hI : ¬ I i' := by
      intro hI
      rw [hentry i' hI] at he
      cases he
    exact ⟨hI, hentries i' hI ▸ he⟩
  refine ⟨?_, ?_, ?_⟩
  · intro i1 i2 k' p1 p2 h1 h2 ho1 ho2
    exact h.unique (hkept h1).2 (hkept h2).2 ho1 ho2
  · intro i' k' p' he ho
    obtain ⟨hI, he⟩ := hkept he
    rw [hstatuses k' fun hK => hI (hopen i' k' p' he ho hK)]
    exact h.mirrored he ho
  · intro k' st hst hidle
    have hK : ¬ K k' := by
      intro hK
      rw [hstatus k' hK] at hst
      cases hst
    rw [hstatuses k' hK] at hst
    obtain ⟨i', p', he, ho⟩ := h.claimed hst hidle
    refine ⟨i', p', ?_, ho⟩
    rw [hentries i' ?_, he]
    intro hI
    rcases hdropped i' k' p' he hI with hK' | hnone
    · exact hK hK'
    · rw [hnone] at hst
      cases hst

theorem Agree.move (h : Agree j) (hmove : Move rights j j') : Agree j' := by
  cases hmove with
  | begin i k p _ hnone hfree hopen hw =>
    refine h.writes hw ?_ fun k' p' he => absurd he (by simp [hnone])
    intro i' p' he ho
    rw [h.closed (hfree.imp_right And.left) he] at ho
    cases ho
  | turn i k p q hentry hopen _ _ hw =>
    refine h.writes hw (fun i' p' he ho => h.unique he hentry ho hopen) ?_
    intro k' p' he
    rw [hentry] at he
    cases he
    rfl
  | drop I K hdropped hopen hstatus hstatuses hentry hentries =>
    exact h.drop hdropped hopen hstatus hstatuses hentry hentries

theorem Moves.keeps {I : Journal ι κ → Prop} (hmoves : Moves rights j j') (hagree : Agree j)
    (hstep : ∀ a b, Agree a → Move rights a b → I a → I b) (h : I j) : I j' := by
  have : Agree j' ∧ I j' := by
    induction hmoves with
    | refl => exact ⟨hagree, h⟩
    | tail _ hmove ih => exact ⟨ih.1.move hmove, hstep _ _ ih.1 hmove ih.2⟩
  exact this.2

theorem Moves.ended {p : Phase} (hmoves : Moves rights j j') (hold : ¬ rights.fresh i) (hended : p.isOpen = false)
    (h : j.entry i = some (k, p) ∨ j.entry i = none) : j'.entry i = some (k, p) ∨ j'.entry i = none := by
  induction hmoves with
  | refl => exact h
  | tail _ hmove ih =>
    cases hmove with
    | begin i' _ _ hfresh _ _ _ hw => rwa [hw.entries i fun e => hold (e ▸ hfresh)]
    | turn i' _ _ _ hentry hopen _ _ hw =>
      -- Only an operation in flight is turned, so this one is another.
      rwa [hw.entries i (by rintro rfl; simp_all)]
    | drop I K _ _ _ _ hentry hentries =>
      by_cases hI : I i
      · exact .inr (hentry i hI)
      · rwa [hentries i hI]

/-- Whatever operation `i` does, it does not run unarmed. -/
def Armed (j : Journal ι κ) (i : ι) : Prop := ∀ k, j.entry i ≠ some (k, .running false)

/-- Operation `i` no longer runs, or never did. -/
def Past (j : Journal ι κ) (i : ι) : Prop := ∀ k b, j.entry i ≠ some (k, .running b)

def Failed (j : Journal ι κ) (i : ι) : Prop := ∃ k, j.entry i = some (k, .failed)

/-- Operation `i` on record `k` is still written down, or the record is gone. -/
def Kept (j : Journal ι κ) (i : ι) (k : κ) : Prop := (∃ p, j.entry i = some (k, p)) ∨ j.status k = none

theorem Move.entry_cases (hmove : Move rights j j') (hold : ¬ rights.fresh i) :
    j'.entry i = j.entry i ∨ j'.entry i = none ∨
      ∃ k p q, j.entry i = some (k, p) ∧ j'.entry i = some (k, q) ∧
        (∀ b, q = .running b → ∃ b', p = .running b' ∧ (b' = true → b = true)) ∧
        (q = .failed → rights.own i ∨ p = .running false) := by
  cases hmove with
  | begin i' k p hfresh _ _ _ hw =>
    left
    refine hw.entries i ?_
    rintro rfl
    exact hold hfresh
  | turn i' k p q hentry _ hrunning hfailed hw =>
    by_cases e : i = i'
    · subst e
      exact .inr (.inr ⟨k, p, q, hentry, hw.entry, hrunning, hfailed⟩)
    · exact .inl (hw.entries i e)
  | drop I K _ _ _ _ hentry hentries =>
    by_cases hI : I i
    · exact .inr (.inl (hentry i hI))
    · exact .inl (hentries i hI)

theorem Armed.moves (h : Armed j i) (hagree : Agree j) (hmoves : Moves rights j j') (hold : ¬ rights.fresh i) :
    Armed j' i := by
  refine hmoves.keeps hagree (I := fun j => Armed j i) ?_ h
  intro a b _ hmove h k hk
  rcases hmove.entry_cases hold with he | he | ⟨k', p, q, hp, hq, hrunning, _⟩
  · exact h k (he ▸ hk)
  · simp [he] at hk
  · rw [hq] at hk
    cases hk
    obtain ⟨b', rfl, hb⟩ := hrunning false rfl
    cases b' with
    | true => simp at hb
    | false => exact h k hp

theorem Past.moves (h : Past j i) (hagree : Agree j) (hmoves : Moves rights j j') (hold : ¬ rights.fresh i) :
    Past j' i := by
  refine hmoves.keeps hagree (I := fun j => Past j i) ?_ h
  intro a b _ hmove h k b' hk
  rcases hmove.entry_cases hold with he | he | ⟨k', p, q, hp, hq, hrunning, _⟩
  · exact h k b' (he ▸ hk)
  · simp [he] at hk
  · rw [hq] at hk
    cases hk
    obtain ⟨b'', rfl, _⟩ := hrunning b' rfl
    exact h k b'' hp

theorem Armed.failed (h : Armed j i) (hagree : Agree j) (hmoves : Moves rights j j') (hold : ¬ rights.fresh i)
    (hbefore : ¬ Failed j i) (hafter : Failed j' i) : rights.own i := by
  by_contra hown
  have : Armed j' i ∧ ¬ Failed j' i := by
    refine hmoves.keeps hagree (I := fun j => Armed j i ∧ ¬ Failed j i) ?_ ⟨h, hbefore⟩
    intro a b hagree hmove ⟨h, hbefore⟩
    refine ⟨h.moves hagree (.single hmove) hold, ?_⟩
    rintro ⟨k, hk⟩
    rcases hmove.entry_cases hold with he | he | ⟨k', p, q, hp, hq, _, hfailed⟩
    · exact hbefore ⟨k, he ▸ hk⟩
    · simp [he] at hk
    · rw [hq] at hk
      cases hk
      rcases hfailed rfl with ho | rfl
      · exact hown ho
      · exact h k hp
  exact this.2 hafter

theorem Kept.moves (h : Kept j i k) (hagree : Agree j) (hmoves : Moves rights j j') (hold : ¬ rights.fresh i)
    (hused : ¬ rights.unused k) : Kept j' i k := by
  refine hmoves.keeps hagree (I := fun j => Kept j i k) ?_ h
  intro a b hagree hmove h
  cases hmove with
  | begin i' k' p hfresh _ hfree _ hw =>
    have hi : i ≠ i' := fun e => hold (e ▸ hfresh)
    rcases h with ⟨p', he⟩ | hnone
    · exact .inl ⟨p', hw.entries i hi ▸ he⟩
    · right
      rw [hw.statuses k, hnone]
      rintro rfl
      rcases hfree with hidle | ⟨_, hunused⟩
      · simp [hnone] at hidle
      · exact hused hunused
  | turn i' k' p q hentry hopen _ _ hw =>
    rcases h with ⟨p', he⟩ | hnone
    · by_cases e : i = i'
      · subst e
        rw [hentry] at he
        cases he
        exact .inl ⟨q, hw.entry⟩
      · exact .inl ⟨p', hw.entries i e ▸ he⟩
    · right
      rw [hw.statuses k, hnone]
      rintro rfl
      simp [hagree.mirrored hentry hopen] at hnone
  | drop I K hdropped _ hstatus hstatuses hentry hentries =>
    by_cases hK : K k
    · exact .inr (hstatus k hK)
    · rcases h with ⟨p', he⟩ | hnone
      · by_cases hI : I i
        · rcases hdropped i k p' he hI with hK' | hnone
          · exact absurd hK' hK
          · exact .inr (hstatuses k hK ▸ hnone)
        · exact .inl ⟨p', hentries i hI ▸ he⟩
      · exact .inr (hstatuses k hK ▸ hnone)

/-- All operations are among `I` and all records among `K`. -/
structure Within (j : Journal ι κ) (I : ι → Prop) (K : κ → Prop) : Prop where
  entries : ∀ {i k p}, j.entry i = some (k, p) → I i ∧ K k
  records : ∀ {k st}, j.status k = some st → K k

theorem Within.moves (h : Within j I K) (hagree : Agree j) (hmoves : Moves rights j j') (hI : ∀ i, rights.fresh i → I i)
    (hK : ∀ k, rights.unused k → K k) : Within j' I K := by
  have hwrites : ∀ {a b : Journal ι κ} {i k q}, Within a I K → Writes a b i k q → I i → K k → Within b I K := by
    intro a b i k q h hw hi hk
    refine ⟨?_, ?_⟩
    · intro i' k' p' he
      by_cases e : i' = i
      · subst e
        rw [hw.entry] at he
        cases he
        exact ⟨hi, hk⟩
      · exact h.entries (hw.entries i' e ▸ he)
    · intro k' st hst
      by_cases e : k' = k
      · exact e ▸ hk
      · exact h.records (hw.statuses k' e ▸ hst)
  refine hmoves.keeps hagree (I := fun j => Within j I K) ?_ h
  intro a b _ hmove h
  cases hmove with
  | begin i k p hfresh _ hfree _ hw =>
    refine hwrites h hw (hI i hfresh) ?_
    rcases hfree with hidle | ⟨_, hunused⟩
    · exact h.records hidle
    · exact hK k hunused
  | turn i k p q hentry _ _ _ hw => exact hwrites h hw (h.entries hentry).1 (h.entries hentry).2
  | drop J L _ _ hstatus hstatuses hentry hentries =>
    refine ⟨?_, ?_⟩
    · intro i k p he
      by_cases hJ : J i
      · simp [hentry i hJ] at he
      · exact h.entries (hentries i hJ ▸ he)
    · intro k st hst
      by_cases hL : L k
      · simp [hstatus k hL] at hst
      · exact h.records (hstatuses k hL ▸ hst)

theorem Within.mono {I' : ι → Prop} {K' : κ → Prop} (h : Within j I K) (hI : ∀ i, I i → I' i) (hK : ∀ k, K k → K' k) :
    Within j I' K' :=
  ⟨fun he => ⟨hI _ (h.entries he).1, hK _ (h.entries he).2⟩, fun hst => hK _ (h.records hst)⟩

theorem Agree.ended (h : Agree j) {p : Phase} (hentry : j.entry i = some (k, p)) (hopen : p.isOpen = true) {i' : ι}
    (hne : i' ≠ i) (hkept : Kept j i' k) :
    j.entry i' = some (k, .succeeded) ∨ j.entry i' = some (k, .failed) := by
  rcases hkept with ⟨p', he⟩ | hnone
  · have hclosed : p'.isOpen = false := by
      by_contra ho
      exact hne (h.unique he hentry (by simpa using ho) hopen)
    rcases Phase.not_isOpen_iff.1 hclosed with rfl | rfl
    · exact .inl he
    · exact .inr he
  · simp [h.mirrored hentry hopen] at hnone

end Journal
