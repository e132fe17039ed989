import Openporch.JsonText
import Openporch.SecretLayout

/-!
# Values compared place by place

The places of a value are the paths into its objects and arrays. Two values are alike where they have the same thing at
every place, whatever the order of fields, as `serde_json` compares them.
-/

namespace Openporch
open List

namespace Json

def children : Json → JsonMap
  | obj fields => fields
  | arr items => items.mapIdx fun i v => (toString i, v)
  | _ => []

def reach : List String → Json → Option Json
  | [], v => some v
  | key :: path, v => (v.children.get key).bind (reach path)

def head : Json → Json
  | obj _ => obj []
  | arr items => arr (items.map fun _ => null)
  | v => v

def AlikeOff (paths : List (List String)) (a b : Json) : Prop :=
  ∀ q, (∀ p ∈ paths, ¬ p <+: q) → (a.reach q).map head = (b.reach q).map head

def Alike (a b : Json) : Prop := AlikeOff [] a b

theorem get_children_arr (items : List Json) (i : Nat) : (arr items).children.get (toString i) = items[i]? := by
  unfold children JsonMap.get
  dsimp only
  -- the index of the first item, to go on to the items after it
  suffices h : ∀ k, (items.mapIdx fun i v => (toString (i + k), v)).lookup (toString (i + k)) = items[i]? from h 0
  induction items generalizing i with
  | nil => simp
  | cons v items ih =>
    intro k
    rw [mapIdx_cons, lookup_cons]
    cases i with
    | zero => simp
    | succ i =>
      have hne : (toString (i + 1 + k) == toString (0 + k)) = false := by
        rw [beq_eq_false_iff_ne]
        intro heq
        have hn := toString_nat_inj (congrArg String.toList heq)
        omega
      rw [hne, getElem?_cons_succ]
      have hrest := ih i (k + 1)
      simp only [Nat.add_assoc, Nat.add_comm 1 k] at hrest ⊢
      exact hrest

variable {items : List Json} {key : String}

theorem get_children_arr_eq_some {v : Json} (h : (arr items).children.get key = some v) :
    ∃ i : Nat, key = toString i ∧ items[i]? = some v := by
  have hmem := JsonMap.mem_of_get h
  obtain ⟨i, hi, heq⟩ := mem_mapIdx.1 hmem
  cases heq
  exact ⟨i, rfl, by simp [hi]⟩

theorem get_children_arr_congr {items' : List Json}
    (h : ∀ i : Nat, key = toString i → items[i]? = items'[i]?) : (arr items).children.get key =
      (arr items').children.get key := by
  by_cases hkey : ∃ i : Nat, key = toString i
  · obtain ⟨i, rfl⟩ := hkey
    rw [get_children_arr, get_children_arr, h i rfl]
  · have hnone : ∀ l : List Json, (arr l).children.get key = none := fun l =>
      Option.eq_none_iff_forall_ne_some.2 fun v hv => by
        obtain ⟨i, hi, -⟩ := get_children_arr_eq_some hv
        exact hkey ⟨i, hi⟩
    rw [hnone, hnone]

theorem reach_cons (key : String) (path : List String) (v : Json) :
    v.reach (key :: path) = (v.children.get key).bind (reach path) := rfl

variable {paths : List (List String)} {a b c : Json}

theorem AlikeOff.refl (paths : List (List String)) (a : Json) : AlikeOff paths a a := fun _ _ => rfl

theorem AlikeOff.trans (h : AlikeOff paths a b) (h' : AlikeOff paths b c) : AlikeOff paths a c :=
  fun q hq => (h q hq).trans (h' q hq)

theorem AlikeOff.mono {paths'} (h : AlikeOff paths a b) (hsub : ∀ p ∈ paths, p ∈ paths') : AlikeOff paths' a b :=
  fun q hq => h q fun p hp => hq p (hsub p hp)

def pathsBelow (key : String) (paths : List (List String)) : List (List String) :=
  paths.filterMap fun
    | k :: p => if k = key then some p else none
    | [] => none

theorem mem_pathsBelow {p : List String} : p ∈ pathsBelow key paths ↔ key :: p ∈ paths := by
  unfold pathsBelow
  rw [mem_filterMap]
  constructor
  · rintro ⟨q, hq, h⟩
    cases q with
    | nil => cases h
    | cons k q =>
      dsimp only at h
      split at h
      · rename_i hk
        cases h
        exact hk ▸ hq
      · cases h
  · exact fun h => ⟨key :: p, h, by simp⟩

theorem AlikeOff.of_children (hhead : a.head = b.head)
    (hchildren : ∀ key, [key] ∉ paths → (a.children.get key = none ∧ b.children.get key = none) ∨
      ∃ v w, a.children.get key = some v ∧ b.children.get key = some w ∧ AlikeOff (pathsBelow key paths) v w) :
    AlikeOff paths a b := by
  intro q hq
  cases q with
  | nil => exact congrArg some hhead
  | cons key q =>
    rw [reach_cons, reach_cons]
    have hkey : [key] ∉ paths := fun hmem => hq _ hmem (cons_prefix_cons.2 ⟨rfl, nil_prefix⟩)
    rcases hchildren key hkey with ⟨ha, hb⟩ | ⟨v, w, ha, hb, hvw⟩
    · rw [ha, hb]
    · rw [ha, hb]
      exact hvw q fun p hp hpq => hq _ (mem_pathsBelow.1 hp) (cons_prefix_cons.2 ⟨rfl, hpq⟩)

theorem child_refl (paths : List (List String)) (o : Option Json) :
    (o = none ∧ o = none) ∨ ∃ v w, o = some v ∧ o = some w ∧ AlikeOff paths v w := by
  cases o with
  | none => exact .inl ⟨rfl, rfl⟩
  | some v => exact .inr ⟨v, v, rfl, rfl, AlikeOff.refl _ _⟩

theorem AlikeOff.child (h : AlikeOff paths a b) (hroot : [] ∉ paths) (hkey : [key] ∉ paths) :
    (a.children.get key = none ∧ b.children.get key = none) ∨
      ∃ v w, a.children.get key = some v ∧ b.children.get key = some w ∧ AlikeOff (pathsBelow key paths) v w := by
  have hbelow : ∀ q, (∀ p ∈ pathsBelow key paths, ¬ p <+: q) → ∀ p ∈ paths, ¬ p <+: key :: q := by
    intro q hq p hp hpq
    cases p with
    | nil => exact hroot hp
    | cons k p =>
      obtain ⟨rfl, hrest⟩ := cons_prefix_cons.1 hpq
      exact hq p (mem_pathsBelow.2 hp) hrest
  have hreach : ∀ q, (∀ p ∈ pathsBelow key paths, ¬ p <+: q) →
      ((a.children.get key).bind (reach q)).map head = ((b.children.get key).bind (reach q)).map head :=
    fun q hq => h (key :: q) (hbelow q hq)
  have hhead := hreach [] fun p hp hnil => by
    rw [prefix_nil.1 hnil, mem_pathsBelow] at hp
    exact hkey hp
  cases hv : a.children.get key with
  | none =>
    rw [hv] at hhead
    cases hw : b.children.get key with
    | none => exact .inl ⟨rfl, rfl⟩
    | some w => rw [hw] at hhead; cases hhead
  | some v =>
    rw [hv] at hhead hreach
    cases hw : b.children.get key with
    | none => rw [hw] at hhead; cases hhead
    | some w =>
      rw [hw] at hreach
      exact .inr ⟨v, w, rfl, rfl, hreach⟩

end Json
end Openporch
