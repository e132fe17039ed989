import Openporch.JsonText
import Mathlib.Data.List.Lex
import Mathlib.Data.List.Sort

/-!
# Canonical JSON

`to_canonical_string` of `crates/core/src/canonical.rs`: keys in the order of their UTF-16 code units, and numbers as
ECMAScript prints them.
-/

namespace Openporch
open Code List

/-- The double nearest to `n`, which is an integer too; between two, the even one. -/
def nearestDouble (n : Nat) : Nat :=
  let unit := 2 ^ (Nat.log2 n + 1 - 53)
  let below := n / unit
  let rest := 2 * (n % unit)
  (if rest > unit ∨ rest = unit ∧ below % 2 = 1 then below + 1 else below) * unit

/-- The multiple of `10 ^ k` nearest to the double `v` that reads back as `v`, for the largest `k` up to the given one
that has any: what the shortest digits of `v` denote. -/
def shortestFrom (v : Nat) : Nat → Nat
  | 0 => v
  | k + 1 =>
    let unit := 10 ^ (k + 1)
    let below := v / unit * unit
    let above := below + unit
    let nearestFirst := if 2 * (v - below) > unit then [above, below] else [below, above]
    (nearestFirst.find? (nearestDouble · = v)).getD (shortestFrom v k)

/-- What the double for the integer `n` prints as; integers up to `2 ^ 53` print exactly. -/
def printedInteger (n : Nat) : Nat := if n ≤ 2 ^ 53 then n else shortestFrom (nearestDouble n) 20

/-- `es_number` for the digits `ds` times `10 ^ exp`. -/
def esChars (ds : List Char) (exp : Int) : List Char :=
  let k : Int := ds.length
  let n := k + exp
  if k ≤ n ∧ n ≤ 21 then ds ++ List.replicate (n - k).toNat '0'
  else if 0 < n ∧ n ≤ 21 then ds.take n.toNat ++ '.' :: ds.drop n.toNat
  else if -6 < n ∧ n ≤ 0 then '0' :: '.' :: List.replicate (-n).toNat '0' ++ ds
  else
    let e := exponentChars (n - 1)
    if k = 1 then ds ++ 'e' :: e else ds.take 1 ++ '.' :: ds.drop 1 ++ 'e' :: e

def Number.canonicalChars : Number → List Char
  | posInt n => (toString (printedInteger n)).toList
  | negInt n => '-' :: (toString (printedInteger (n + 1))).toList
  | float _ 0 _ _ => ['0']
  | float neg digits exp _ => (if neg then ['-'] else []) ++ esChars (toString digits).toList exp

def utf16Units (c : Char) : List Nat :=
  if c.toNat < 0x10000 then [c.toNat]
  else [0xD800 + (c.toNat - 0x10000) / 0x400, 0xDC00 + (c.toNat - 0x10000) % 0x400]

def utf16 (s : String) : List Nat := s.toList.flatMap utf16Units

def sortEntries (fields : List (String × Json)) : List (String × Json) :=
  fields.insertionSort fun a b => utf16 a.1 ≤ utf16 b.1

namespace Json

mutual

def sortKeys : Json → Json
  | .arr items => .arr (sortKeysItems items)
  | .obj fields => .obj (sortEntries (sortKeysFields fields))
  | v => v

def sortKeysItems : List Json → List Json
  | [] => []
  | v :: rest => v.sortKeys :: sortKeysItems rest

def sortKeysFields : List (String × Json) → List (String × Json)
  | [] => []
  | (k, v) :: rest => (k, v.sortKeys) :: sortKeysFields rest

end

def canonicalChars (v : Json) : List Char := v.sortKeys.write Number.canonicalChars

end Json

def toCanonicalString (v : Json) : String := String.ofList v.canonicalChars

variable {ds : List Char} {fs gs : JsonMap}

theorem esChars_letters (hds : Digits ds) (exp : Int) : Letters (esChars ds exp) := by
  have htake : ∀ n, Letters (ds.take n) := fun n c hc => hds.letters c (mem_of_mem_take hc)
  have hdrop : ∀ n, Letters (ds.drop n) := fun n c hc => hds.letters c (mem_of_mem_drop hc)
  unfold esChars
  dsimp only
  split
  · exact hds.letters.append (digits_zeros _).letters
  · split
    · exact (htake _).append (.cons rfl (hdrop _))
    · split
      · exact .append (.cons rfl (.cons rfl (digits_zeros _).letters)) hds.letters
      · have hpower := Letters.cons (c := 'e') rfl (letters_exponent (ds.length + exp - 1))
        split
        · exact hds.letters.append hpower
        · exact ((htake 1).append (.cons rfl (hdrop 1))).append hpower

theorem esChars_head (hds : Digits ds) (hne : ds ≠ []) (exp : Int) :
    ∃ c t, esChars ds exp = c :: t ∧ c.isDigit = true := by
  obtain ⟨d, ds', rfl⟩ := exists_cons_of_ne_nil hne
  have hd : d.isDigit = true := hds d (by simp)
  unfold esChars
  simp only
  split
  · exact ⟨d, _, rfl, hd⟩
  · split
    · rename_i hn
      obtain ⟨n, hn⟩ : ∃ n : Nat, ((d :: ds').length + exp).toNat = n + 1 :=
        Nat.exists_eq_add_one_of_ne_zero (by omega)
      rw [hn]
      exact ⟨d, _, rfl, hd⟩
    · split
      · exact ⟨'0', _, rfl, rfl⟩
      · split <;> exact ⟨d, _, rfl, hd⟩

theorem numberText_canonicalChars : NumberText Number.canonicalChars where
  letters n := by
    cases n with
    | posInt n => exact (digits_toString _).letters
    | negInt n => exact .cons rfl (digits_toString _).letters
    | float neg digits exp shortest =>
      cases digits with
      | zero => exact .cons rfl letters_nil
      | succ d =>
        cases neg
        · exact esChars_letters (digits_toString _) exp
        · exact .cons rfl (esChars_letters (digits_toString _) exp)
  head n := by
    cases n with
    | posInt n =>
      obtain ⟨c, t, h, hc⟩ := toString_head (printedInteger n)
      exact ⟨c, t, h, kindOf_digit hc⟩
    | negInt n => exact ⟨'-', _, rfl, rfl⟩
    | float neg digits exp shortest =>
      cases digits with
      | zero => exact ⟨'0', [], rfl, rfl⟩
      | succ d =>
        cases neg
        · have hne : (toString (d + 1)).toList ≠ [] := toList_toString (d + 1) ▸ Nat.toDigits_ne_nil
          obtain ⟨c, t, h, hc⟩ := esChars_head (digits_toString (d + 1)) hne exp
          exact ⟨c, t, h, kindOf_digit hc⟩
        · exact ⟨'-', _, rfl, rfl⟩

def Json.canonicalForm (v : Json) : Json := v.sortKeys.mapNum fun n => .str (String.ofList n.canonicalChars)

theorem canonical_inj {v u : Json} (h : toCanonicalString v = toCanonicalString u) : v.canonicalForm = u.canonicalForm := by
  have htext : v.canonicalChars ++ [] = u.canonicalChars ++ [] := by
    rw [String.ofList_injective h]
  refine (Json.write_reads numberText_canonicalChars ?_ v.sortKeys u.sortKeys [] [] (stops_nil _) (stops_nil _) htext
    (Json.kind_eq numberText_canonicalChars htext)).1
  intro n m hnm
  rw [hnm]

theorem Json.sortKeysFields_eq (fs : List (String × Json)) :
    sortKeysFields fs = fs.map fun f => (f.1, f.2.sortKeys) := by
  induction fs with
  | nil => rfl
  | cons f fs ih => rw [sortKeysFields, ih, map_cons]

def Json.form (g : Number → Json) (v : Json) : Json := v.sortKeys.mapNum g

theorem Json.form_obj (g : Number → Json) (fs : List (String × Json)) :
    (obj fs).form g = .obj (sortEntries (fs.map fun f => (f.1, f.2.form g))) := by
  have hsort : ∀ es : List (String × Json), (sortEntries es).map (fun f => (f.1, f.2.mapNum g)) =
      sortEntries (es.map fun f => (f.1, f.2.mapNum g)) :=
    fun es => map_insertionSort _ _ _ es fun _ _ _ _ => Iff.rfl
  show obj (mapNumFields g (sortEntries (sortKeysFields fs))) = _
  rw [mapNumFields_eq, sortKeysFields_eq, hsort, map_map]
  rfl

theorem Json.form_get {g} (hf : (fs.map (·.1)).Nodup) (hg : (gs.map (·.1)).Nodup)
    (h : (obj fs).form g = (obj gs).form g) (k : String) : (fs.get k).map (form g) = (gs.get k).map (form g) := by
  rw [form_obj, form_obj, obj.injEq] at h
  have hsort : ∀ m : JsonMap, (sortEntries m).Perm m := perm_insertionSort _
  have hperm := (hsort _).symm.trans (h ▸ hsort _)
  have hkeys : ∀ {m : JsonMap}, (m.map fun f => (f.1, f.2.form g)).map (·.1) = m.map (·.1) := by simp
  have hget : ∀ m : JsonMap, (m.get k).map (form g) = JsonMap.get (m.map fun f => (f.1, f.2.form g)) k := by
    intro m
    induction m with
    | nil => rfl
    | cons f m ih =>
      rw [JsonMap.get, lookup_cons, JsonMap.get, map_cons, lookup_cons]
      by_cases hk : k = f.1
      · simp [hk]
      · rw [show (k == f.1) = false by simpa using hk]
        exact ih
  rw [hget, hget]
  refine Option.ext fun v => ?_
  rw [JsonMap.get_eq_some (by rwa [hkeys]), JsonMap.get_eq_some (by rwa [hkeys]), hperm.mem_iff]

theorem Json.canonicalForm_get (hf : (fs.map (·.1)).Nodup) (hg : (gs.map (·.1)).Nodup)
    (h : (obj fs).canonicalForm = (obj gs).canonicalForm) (k : String) :
    (fs.get k).map canonicalForm = (gs.get k).map canonicalForm := form_get hf hg h k

end Openporch
