import Openporch.Catalog
import Mathlib.Data.List.Infix

/-!
# Leaves laid out in nested objects

`insert_with` of `crates/server/src/secret_inputs.rs` puts a value at a path of nested objects, making the objects above
it, and refuses to overwrite a leaf or to nest one inside another. `Laid` says what a map holds after leaves were put
into it.
-/

namespace Openporch
open List JsonMap Option

def Json.descend : List String → Json → Option Json
  | [], v => some v
  | key :: path, v => (v.field? key).bind (descend path)

inductive Json.Has : Json → List String → Json → Prop
  | here (v : Json) : Json.Has v [] v
  | field {fields k v p w} : (k, v) ∈ fields → Json.Has v p w → Json.Has (.obj fields) (k :: p) w

/-- Inserts the value at the path; `isLeaf` decides which objects are leaves. -/
def insertWith (isLeaf : JsonMap → Bool) (value : Json) : List String → JsonMap → Option JsonMap
  | [], _ => none
  | [last], node => if (node.get last).isSome then none else some (node.insert last value)
  | key :: next :: path, node =>
    match (node.get key).getD (.obj []) with
    | .obj below =>
      -- An existing leaf here means that one secret would nest inside another.
      if isLeaf below then none else (insertWith isLeaf value (next :: path) below).map fun m => node.insert key (.obj m)
    | _ => none

namespace Json

theorem descend_cons (key : String) (path : List String) (m : JsonMap) :
    (obj m).descend (key :: path) = (m.get key).bind (descend path) := rfl

theorem descend_append (p q : List String) (v : Json) : v.descend (p ++ q) = (v.descend p).bind (descend q) := by
  induction p generalizing v with
  | nil => rfl
  | cons key p ih =>
    rw [cons_append, descend, descend]
    cases v.field? key with
    | none => rfl
    | some w => exact ih w

variable {p : List String} {v w : Json}

theorem exists_of_descend {key : String} {rest : List String}
    (h : v.descend (p ++ key :: rest) = some w) :
    ∃ m x, v.descend p = some (obj m) ∧ get m key = some x ∧ x.descend rest = some w := by
  rw [descend_append, bind_eq_some_iff] at h
  obtain ⟨u, hu, h⟩ := h
  rw [descend, bind_eq_some_iff] at h
  obtain ⟨x, hx, h⟩ := h
  cases u with
  | obj m => exact ⟨m, x, hu, hx, h⟩
  | _ => cases hx

theorem descend_prefix {q : List String} (h : v.descend q = some w) (hp : p <+: q) :
    ∃ u, v.descend p = some u := by
  obtain ⟨t, rfl⟩ := hp
  rw [descend_append, bind_eq_some_iff] at h
  obtain ⟨u, hu, -⟩ := h
  exact ⟨u, hu⟩

end Json

section
variable {isLeaf : JsonMap → Bool} {value : Json} {path : List String} {m m' : JsonMap}

theorem insertWith_cons {key next : String} (h : insertWith isLeaf value (key :: next :: path) m = some m') :
    ∃ below below', (m.get key).getD (.obj []) = .obj below ∧ isLeaf below = false ∧
      insertWith isLeaf value (next :: path) below = some below' ∧ m' = m.insert key (.obj below') := by
  rw [insertWith] at h
  split at h
  · rename_i below hbelow
    split at h
    · cases h
    · rename_i hleaf
      obtain ⟨below', hinsert, rfl⟩ := map_eq_some_iff.1 h
      exact ⟨below, below', hbelow, by simpa using hleaf, hinsert, rfl⟩
  · cases h

theorem insertWith_last {last : String} (h : insertWith isLeaf value [last] m = some m') :
    m.get last = none ∧ m' = m.insert last value := by
  rw [insertWith] at h
  split at h
  · cases h
  · rename_i hnone
    cases h
    exact ⟨by simpa using hnone, rfl⟩

theorem descend_insertWith (h : insertWith isLeaf value path m = some m') : (Json.obj m').descend path = some value := by
  induction path generalizing m m' with
  | nil => cases h
  | cons key path ih =>
    cases path with
    | nil =>
      obtain ⟨-, rfl⟩ := insertWith_last h
      rw [Json.descend_cons, get_insert_self]
      rfl
    | cons next path =>
      obtain ⟨below, below', -, -, hinsert, rfl⟩ := insertWith_cons h
      rw [Json.descend_cons, get_insert_self]
      exact ih hinsert

theorem descend_insertWith_other (h : insertWith isLeaf value path m = some m') {q : List String} (hq : ¬ q <+: path)
    (hq' : ¬ path <+: q) : (Json.obj m').descend q = (Json.obj m).descend q := by
  induction path generalizing m m' q with
  | nil => cases h
  | cons key path ih =>
    cases q with
    | nil => exact absurd nil_prefix hq
    | cons k q =>
      rw [cons_prefix_cons, not_and] at hq hq'
      by_cases hk : k = key
      · subst hk
        cases path with
        | nil => exact absurd nil_prefix (hq' rfl)
        | cons next path =>
          obtain ⟨below, below', hbelow, -, hinsert, rfl⟩ := insertWith_cons h
          have hrest := ih hinsert (hq rfl) (hq' rfl)
          rw [Json.descend_cons, Json.descend_cons, get_insert_self, bind_some, hrest]
          cases hget : m.get k with
          | some v =>
            rw [hget, getD_some] at hbelow
            rw [hbelow, bind_some]
          | none =>
            rw [hget, getD_none] at hbelow
            cases hbelow
            cases q with
            | nil => exact absurd nil_prefix (hq rfl)
            | cons l q => rfl
      · rw [Json.descend_cons, Json.descend_cons]
        congr 1
        cases path with
        | nil =>
          obtain ⟨-, rfl⟩ := insertWith_last h
          exact get_insert_of_ne m value hk
        | cons next path =>
          obtain ⟨below, below', -, -, -, rfl⟩ := insertWith_cons h
          exact get_insert_of_ne m _ hk

theorem insertWith_isSome (hnew : isLeaf [] = false) : (insertWith isLeaf value path m).isSome = true ↔ path ≠ [] ∧
    ∀ q v, q ≠ [] → q <+: path → (Json.obj m).descend q = some v → q ≠ path ∧ ∃ c, v = .obj c ∧ isLeaf c = false := by
  induction path generalizing m with
  | nil => simp [insertWith]
  | cons key path ih =>
    cases path with
    | nil =>
      have hwhole : ∀ q : List String, q ≠ [] → q <+: [key] → q = [key] := by
        intro q hne hq
        obtain ⟨k, q, rfl⟩ := exists_cons_of_ne_nil hne
        obtain ⟨rfl, hnil⟩ := cons_prefix_cons.1 hq
        rw [prefix_nil.1 hnil]
      constructor
      · intro h
        obtain ⟨m', h⟩ := isSome_iff_exists.1 h
        refine ⟨by simp, fun q v hne hq hv => ?_⟩
        rw [hwhole q hne hq, Json.descend_cons, (insertWith_last h).1] at hv
        cases hv
      · rintro ⟨-, h⟩
        have hnone : m.get key = none := by
          by_contra hsome
          obtain ⟨v, hv⟩ := ne_none_iff_exists'.1 hsome
          exact (h [key] v (by simp) (prefix_refl _) (by rw [Json.descend_cons, hv]; rfl)).1 rfl
        simp [insertWith, hnone]
    | cons next path =>
      constructor
      · intro h
        obtain ⟨m', h⟩ := isSome_iff_exists.1 h
        obtain ⟨below, below', hbelow, hleaf, hinsert, -⟩ := insertWith_cons h
        have hrest := (ih (m := below)).1 (by rw [hinsert]; rfl)
        refine ⟨by simp, fun q v hne hq hv => ?_⟩
        obtain ⟨k, q, rfl⟩ := exists_cons_of_ne_nil hne
        obtain ⟨rfl, hrel⟩ := cons_prefix_cons.1 hq
        rw [Json.descend_cons, bind_eq_some_iff] at hv
        obtain ⟨w, hw, hv⟩ := hv
        rw [hw, getD_some] at hbelow
        subst hbelow
        cases q with
        | nil =>
          cases hv
          exact ⟨by simp, below, rfl, hleaf⟩
        | cons l q =>
          obtain ⟨hne', hc⟩ := hrest.2 (l :: q) v (by simp) hrel hv
          exact ⟨fun heq => hne' (List.cons.inj heq).2, hc⟩
      · rintro ⟨-, h⟩
        -- the object to go on in, with what is in it
        obtain ⟨below, hbelow, hleaf, hin⟩ : ∃ below, (m.get key).getD (.obj []) = .obj below ∧ isLeaf below = false ∧
            ∀ q v, (Json.obj below).descend q = some v → q ≠ [] → (Json.obj m).descend (key :: q) = some v := by
          cases hget : m.get key with
          | none =>
            refine ⟨[], rfl, hnew, fun q v hv hne => ?_⟩
            obtain ⟨k, q, rfl⟩ := exists_cons_of_ne_nil hne
            cases hv
          | some v =>
            obtain ⟨-, c, rfl, hc⟩ := h [key] v (by simp) (by simp [cons_prefix_cons])
              (by rw [Json.descend_cons, hget]; rfl)
            exact ⟨c, rfl, hc, fun q v hv _ => by rw [Json.descend_cons, hget]; exact hv⟩
        have hrest : (insertWith isLeaf value (next :: path) below).isSome = true := by
          refine ih.2 ⟨by simp, fun q v hne hq hv => ?_⟩
          obtain ⟨hne', hc⟩ := h (key :: q) v (by simp) (cons_prefix_cons.2 ⟨rfl, hq⟩) (hin q v hv hne)
          exact ⟨fun heq => hne' (by rw [heq]), hc⟩
        obtain ⟨below', hinsert⟩ := isSome_iff_exists.1 hrest
        rw [insertWith, hbelow]
        dsimp only
        rw [hleaf, hinsert]
        rfl

theorem nodup_insertWith (h : insertWith isLeaf value path m = some m') (hm : m.keys.Nodup) : m'.keys.Nodup := by
  cases path with
  | nil => cases h
  | cons key path =>
    cases path with
    | nil =>
      obtain ⟨-, rfl⟩ := insertWith_last h
      exact nodup_insert hm key value
    | cons next path =>
      obtain ⟨below, below', -, -, -, rfl⟩ := insertWith_cons h
      exact nodup_insert hm key _

theorem has_insertWith (h : insertWith isLeaf value path m = some m') {p : List String} {w : Json}
    (hw : (Json.obj m').Has p w) : (∃ c, w = .obj c) ∨ (Json.obj m).Has p w ∨ ∃ q, value.Has q w := by
  induction path generalizing m m' p with
  | nil => cases h
  | cons key path ih =>
    cases hw with
    | here => exact .inl ⟨_, rfl⟩
    | field hmem hbelow =>
      cases path with
      | nil =>
        obtain ⟨-, rfl⟩ := insertWith_last h
        rcases mem_insert hmem with hmem | heq
        · exact .inr (.inl (.field hmem hbelow))
        · cases heq
          exact .inr (.inr ⟨_, hbelow⟩)
      | cons next path =>
        obtain ⟨below, below', hget, -, hinsert, rfl⟩ := insertWith_cons h
        rcases mem_insert hmem with hmem | heq
        · exact .inr (.inl (.field hmem hbelow))
        · cases heq
          rcases ih hinsert hbelow with hobj | hold | hnew
          · exact .inl hobj
          · -- the object below was there, or it was new and there was nothing in it
            cases hkey : m.get key with
            | some v =>
              rw [hkey, getD_some] at hget
              subst hget
              exact .inr (.inl (.field (mem_of_get hkey) hold))
            | none =>
              rw [hkey, getD_none] at hget
              cases hget
              cases hold with
              | here => exact .inl ⟨_, rfl⟩
              | field hmem => cases hmem
          · exact .inr (.inr hnew)

end

def Apart (p q : List String) : Prop := ¬ p <+: q ∧ ¬ q <+: p

theorem Apart.cons {p q : List String} (h : Apart p q) (key : String) : Apart (key :: p) (key :: q) := by
  unfold Apart at h ⊢
  rwa [cons_prefix_cons, cons_prefix_cons, and_iff_right rfl, and_iff_right rfl]

theorem Apart.symm {p q : List String} (h : Apart p q) : Apart q p := And.symm h

theorem apart_of_ne {k l : String} (h : k ≠ l) (p q : List String) : Apart (k :: p) (l :: q) :=
  ⟨fun hpq => h (cons_prefix_cons.1 hpq).1, fun hpq => h (cons_prefix_cons.1 hpq).1.symm⟩

/-- The map holds the leaves: each has a value of it at its path, and whatever the map holds is above, at or below a
leaf. -/
structure Laid {ι : Type} (leaf : List String → ι → Prop) (Value : ι → Json → Prop) (m : JsonMap) : Prop where
  nonempty : ∀ p i, leaf p i → p ≠ []
  at_leaf : ∀ p i, leaf p i → ∃ v, Value i v ∧ (Json.obj m).descend p = some v
  only : ∀ q v, q ≠ [] → (Json.obj m).descend q = some v → ∃ p i, leaf p i ∧ (p <+: q ∨ q <+: p)

structure LeafRule (isLeaf : JsonMap → Bool) (IsValue : Json → Prop) : Prop where
  fresh : isLeaf [] = false
  closed : ∀ c, IsValue (.obj c) → isLeaf c = true
  container : ∀ (c : JsonMap) k w, c.get k = some w → (IsValue w ∨ ∃ c', w = .obj c') → isLeaf c = false

namespace Laid
variable {ι : Type} {leaf : List String → ι → Prop} {Value : ι → Json → Prop} {m m' : JsonMap}

theorem empty (hleaf : ∀ p i, ¬ leaf p i) : Laid leaf Value [] where
  nonempty p i h := absurd h (hleaf p i)
  at_leaf p i h := absurd h (hleaf p i)
  only q v hne hv := by
    obtain ⟨k, q, rfl⟩ := exists_cons_of_ne_nil hne
    cases hv

theorem rename (hl : Laid leaf Value m) {κ : Type} {leaf' : List String → κ → Prop} {Value' : κ → Json → Prop}
    (hfrom : ∀ p k, leaf' p k → ∃ i, leaf p i ∧ ∀ v, Value i v → Value' k v)
    (hto : ∀ p i, leaf p i → ∃ k, leaf' p k) : Laid leaf' Value' m where
  nonempty p k hk := by
    obtain ⟨i, hi, -⟩ := hfrom p k hk
    exact hl.nonempty p i hi
  at_leaf p k hk := by
    obtain ⟨i, hi, hvalue⟩ := hfrom p k hk
    obtain ⟨v, hv, hat⟩ := hl.at_leaf p i hi
    exact ⟨v, hvalue v hv, hat⟩
  only q v hne hv := by
    obtain ⟨p, i, hi, hpq⟩ := hl.only q v hne hv
    obtain ⟨k, hk⟩ := hto p i hi
    exact ⟨p, k, hk, hpq⟩

theorem above (hl : Laid leaf Value m) {p q : List String} {i : ι} (hi : leaf p i) (hq : q <+: p) (hne : q ≠ p) :
    ∃ d k x, (Json.obj m).descend q = some (.obj d) ∧ JsonMap.get d k = some x ∧ (Value i x ∨ ∃ c, x = .obj c) := by
  obtain ⟨v, hv, hat⟩ := hl.at_leaf p i hi
  obtain ⟨t, rfl⟩ := hq
  cases t with
  | nil => exact absurd (append_nil q).symm hne
  | cons k t =>
    obtain ⟨d, x, hd, hx, hrest⟩ := Json.exists_of_descend hat
    refine ⟨d, k, x, hd, hx, ?_⟩
    cases t with
    | nil =>
      cases hrest
      exact .inl hv
    | cons k' t =>
      cases x with
      | obj c => exact .inr ⟨c, rfl⟩
      | _ => cases hrest

section
variable {isLeaf : JsonMap → Bool} {IsValue : Json → Prop} {value : Json} {path : List String}

theorem insert_iff (rule : LeafRule isLeaf IsValue) (hl : Laid leaf Value m)
    (hvalue : ∀ p i v, leaf p i → Value i v → IsValue v) :
    (insertWith isLeaf value path m).isSome = true ↔ path ≠ [] ∧ ∀ p i, leaf p i → Apart p path := by
  rw [insertWith_isSome rule.fresh]
  refine and_congr_right fun hpath => ⟨fun h p i hi => ⟨fun hp => ?_, fun hp => ?_⟩, fun h q v hne hq hv => ?_⟩
  · obtain ⟨v, hv, hat⟩ := hl.at_leaf p i hi
    obtain ⟨-, c, rfl, hc⟩ := h p v (hl.nonempty p i hi) hp hat
    rw [rule.closed c (hvalue p i _ hi hv)] at hc
    cases hc
  · obtain ⟨v, -, hat⟩ := hl.at_leaf p i hi
    obtain ⟨u, hu⟩ := Json.descend_prefix hat hp
    exact (h path u hpath (prefix_refl _) hu).1 rfl
  · obtain ⟨p, i, hi, hpq | hqp⟩ := hl.only q v hne hv
    · exact absurd (hpq.trans hq) (h p i hi).1
    · have hstrict : q ≠ p := fun heq => (h p i hi).1 (heq ▸ hq)
      obtain ⟨d, k, x, hd, hx, hbelow⟩ := hl.above hi hqp hstrict
      rw [hv] at hd
      cases hd
      refine ⟨fun heq => (h p i hi).2 (heq ▸ hqp), d, rfl, rule.container d k x hx ?_⟩
      exact hbelow.imp_left (hvalue p i x hi)

theorem insert (hl : Laid leaf Value m) (h : insertWith isLeaf value path m = some m')
    (hapart : ∀ p i, leaf p i → Apart p path) {leaf'} {j : ι} (hj : Value j value)
    (hleaf : ∀ p i, leaf' p i ↔ leaf p i ∨ p = path ∧ i = j) : Laid leaf' Value m' where
  nonempty p i hi := by
    rcases (hleaf p i).1 hi with hi | ⟨rfl, -⟩
    · exact hl.nonempty p i hi
    · rintro rfl
      cases h
  at_leaf p i hi := by
    rcases (hleaf p i).1 hi with hi | ⟨rfl, rfl⟩
    · obtain ⟨v, hv, hat⟩ := hl.at_leaf p i hi
      exact ⟨v, hv, by rw [descend_insertWith_other h (hapart p i hi).1 (hapart p i hi).2, hat]⟩
    · exact ⟨value, hj, descend_insertWith h⟩
  only q v hne hv := by
    by_cases hq : path <+: q ∨ q <+: path
    · exact ⟨path, j, (hleaf _ _).2 (.inr ⟨rfl, rfl⟩), hq⟩
    · rw [not_or] at hq
      rw [descend_insertWith_other h hq.2 hq.1] at hv
      obtain ⟨p, i, hi, hpq⟩ := hl.only q v hne hv
      exact ⟨p, i, (hleaf p i).2 (.inl hi), hpq⟩

end

end Laid

/-- A change of values that goes through the objects that are `Inner`, field by field. -/
structure Fieldwise (Inner : JsonMap → Prop) (T : Json → Json → Prop) : Prop where
  obj : ∀ c j, Inner c → T (.obj c) j → ∃ c', j = .obj c' ∧ keys c' = c.keys ∧
    ∀ k v, c.get k = some v → ∃ v', get c' k = some v' ∧ T v v'

section
variable {Inner : JsonMap → Prop} {T : Json → Json → Prop}

theorem Fieldwise.descend (hT : Fieldwise Inner T) {q : List String} {v v' : Json} (h : T v v')
    (hinner : ∀ p u, p <+: q → p ≠ q → v.descend p = some u → ∃ d, u = .obj d ∧ Inner d) :
    (v.descend q = none → v'.descend q = none) ∧ ∀ w, v.descend q = some w → ∃ w', v'.descend q = some w' ∧ T w w' := by
  induction q generalizing v v' with
  | nil =>
    constructor
    · intro hnone
      cases hnone
    · intro w hw
      cases hw
      exact ⟨v', rfl, h⟩
  | cons k q ih =>
    obtain ⟨c, rfl, hc⟩ := hinner [] v nil_prefix (by simp) rfl
    obtain ⟨c', rfl, hkeys, hfield⟩ := hT.obj c v' hc h
    rw [Json.descend_cons, Json.descend_cons]
    cases hget : get c k with
    | none =>
      have hnone : get c' k = none := by
        rw [get_eq_none, hkeys]
        exact get_eq_none.1 hget
      rw [hnone]
      exact ⟨fun _ => rfl, fun w hw => by cases hw⟩
    | some x =>
      obtain ⟨x', hx', hTx⟩ := hfield k x hget
      rw [hx', bind_some, bind_some]
      refine ih hTx fun p u hp hne hu => ?_
      refine hinner (k :: p) u (cons_prefix_cons.2 ⟨rfl, hp⟩) (fun heq => hne (List.cons.inj heq).2) ?_
      rw [Json.descend_cons, hget]
      exact hu

variable {ι : Type} {leaf : List String → ι → Prop} {Value : ι → Json → Prop} {m m' : JsonMap}

theorem Laid.change (hl : Laid leaf Value m) (hT : Fieldwise Inner T) (h : T (.obj m) (.obj m')) (hroot : Inner m)
    (hinner : ∀ p i (d : JsonMap) k x, leaf p i → d.get k = some x → (Value i x ∨ ∃ c, x = .obj c) → Inner d) :
    Laid leaf (fun i v' => ∃ v, Value i v ∧ T v v') m' where
  nonempty := hl.nonempty
  at_leaf p i hi := by
    obtain ⟨v, hv, hat⟩ := hl.at_leaf p i hi
    have hdescend := (hT.descend (q := p) h fun q u hq hne hu => ?_).2 v hat
    · obtain ⟨v', hv', hTv⟩ := hdescend
      exact ⟨v', ⟨v, hv, hTv⟩, hv'⟩
    · obtain ⟨d, k, x, hd, hx, hbelow⟩ := hl.above hi hq hne
      rw [hu] at hd
      cases hd
      exact ⟨d, rfl, hinner p i d k x hi hx hbelow⟩
  only q v' hne hv' := by
    by_contra hnone
    have hdescend := hT.descend (q := q) h fun p u hp hne' hu => ?_
    · cases hq : (Json.obj m).descend q with
      | none =>
        rw [hdescend.1 hq] at hv'
        cases hv'
      | some w => exact hnone (hl.only q w hne hq)
    · -- what is above `q` is the root or lies above a leaf
      by_cases hp' : p = []
      · subst hp'
        cases hu
        exact ⟨m, rfl, hroot⟩
      · obtain ⟨p', i, hi, hpq | hqp⟩ := hl.only p u hp' hu
        · exact absurd ⟨p', i, hi, .inl (hpq.trans hp)⟩ hnone
        · by_cases heq : p = p'
          · exact absurd ⟨p', i, hi, .inl (heq ▸ hp)⟩ hnone
          · obtain ⟨d, k, x, hd, hx, hbelow⟩ := hl.above hi hqp heq
            rw [hu] at hd
            cases hd
            exact ⟨d, rfl, hinner p' i d k x hi hx hbelow⟩

end

section
variable {ι : Type} {left right : List String → ι → Prop} {Value : ι → Json → Prop} {a b : JsonMap}

theorem descend_extend (hb : b.keys.Nodup) (k : String) (p : List String) :
    (Json.obj (a.extend b)).descend (k :: p) = ((b.get k).or (a.get k)).bind (Json.descend p) := by
  rw [Json.descend_cons, get_extend a hb]

theorem Laid.get_isSome (hb : Laid right Value b) (k : String) :
    (b.get k).isSome = true ↔ ∃ p i, right p i ∧ p.head? = some k := by
  constructor
  · intro h
    obtain ⟨v, hv⟩ := isSome_iff_exists.1 h
    obtain ⟨p, i, hi, hpk | hkp⟩ := hb.only [k] v (by simp) (by rw [Json.descend_cons, hv]; rfl)
    · obtain ⟨l, p, rfl⟩ := exists_cons_of_ne_nil (hb.nonempty p i hi)
      exact ⟨l :: p, i, hi, congrArg some (cons_prefix_cons.1 hpk).1⟩
    · obtain ⟨t, rfl⟩ := hkp
      exact ⟨_, i, hi, rfl⟩
  · rintro ⟨p, i, hi, hhead⟩
    obtain ⟨v, -, hat⟩ := hb.at_leaf p i hi
    obtain ⟨t, rfl⟩ := head?_eq_some_iff.1 hhead
    rw [Json.descend_cons, bind_eq_some_iff] at hat
    obtain ⟨x, hx, -⟩ := hat
    rw [hx]
    rfl

/-- Extending one map by another, field by field at the top, keeps the leaves of both exactly when no two of them,
one of each, start with the same field. -/
theorem Laid.extend_iff (ha : Laid left Value a) (hb : Laid right Value b) (hnodup : b.keys.Nodup)
    (hapart : ∀ p i q j, left p i → right q j → Apart p q) :
    Laid (fun p i => left p i ∨ right p i) Value (a.extend b) ↔
      ∀ p i q j, left p i → right q j → p.head? ≠ q.head? := by
  constructor
  · intro h p i q j hp hq hhead
    obtain ⟨k, t, rfl⟩ := exists_cons_of_ne_nil (ha.nonempty p i hp)
    have hsome := (hb.get_isSome k).2 ⟨q, j, hq, hhead.symm⟩
    obtain ⟨x, hx⟩ := isSome_iff_exists.1 hsome
    obtain ⟨v, -, hat⟩ := h.at_leaf (k :: t) i (.inl hp)
    rw [descend_extend hnodup, hx, some_or, ← hx, ← Json.descend_cons] at hat
    -- so the other map holds something at the leaf's path, and it is not apart from all its leaves
    obtain ⟨q', j', hq', hcmp⟩ := hb.only (k :: t) v (by simp) hat
    rcases hcmp with hcmp | hcmp
    · exact (hapart _ _ _ _ hp hq').2 hcmp
    · exact (hapart _ _ _ _ hp hq').1 hcmp
  · intro h
    refine ⟨?_, ?_, ?_⟩
    · rintro p i (hp | hp)
      · exact ha.nonempty p i hp
      · exact hb.nonempty p i hp
    · rintro p i (hp | hp)
      · obtain ⟨v, hv, hat⟩ := ha.at_leaf p i hp
        obtain ⟨k, t, rfl⟩ := exists_cons_of_ne_nil (ha.nonempty p i hp)
        refine ⟨v, hv, ?_⟩
        have hnone : b.get k = none := by
          rw [← not_isSome_iff_eq_none, hb.get_isSome k]
          rintro ⟨q, j, hq, hhead⟩
          exact h _ _ _ _ hp hq hhead.symm
        rw [descend_extend hnodup, hnone, none_or, ← Json.descend_cons]
        exact hat
      · obtain ⟨v, hv, hat⟩ := hb.at_leaf p i hp
        obtain ⟨k, t, rfl⟩ := exists_cons_of_ne_nil (hb.nonempty p i hp)
        refine ⟨v, hv, ?_⟩
        obtain ⟨x, hx⟩ := isSome_iff_exists.1 ((hb.get_isSome k).2 ⟨_, i, hp, rfl⟩)
        rw [descend_extend hnodup, hx, some_or, ← hx, ← Json.descend_cons]
        exact hat
    · intro q v hne hv
      obtain ⟨k, t, rfl⟩ := exists_cons_of_ne_nil hne
      rw [descend_extend hnodup] at hv
      cases hx : b.get k with
      | some x =>
        rw [hx, some_or, ← hx, ← Json.descend_cons] at hv
        obtain ⟨p, i, hi, hcmp⟩ := hb.only _ v hne hv
        exact ⟨p, i, .inr hi, hcmp⟩
      | none =>
        rw [hx, none_or, ← Json.descend_cons] at hv
        obtain ⟨p, i, hi, hcmp⟩ := ha.only _ v hne hv
        exact ⟨p, i, .inl hi, hcmp⟩

end

end Openporch
