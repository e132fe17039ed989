/-!
# JSON values

`serde_json::Value` as the crates use it: objects keep the order their fields were inserted in
(`preserve_order`), and a number is a `u64`, a negative `i64` or a finite double. A double is given by
the shortest decimal digits that read back as it.
-/

namespace Openporch
open List

inductive Number where
  | posInt (n : Nat)
  /-- The number `-(n + 1)`. -/
  | negInt (n : Nat)
  /-- `digits * 10 ^ exp`, negated when `neg`. -/
  | float (neg : Bool) (digits : Nat) (exp : Int) (shortest : digits % 10 ≠ 0 ∨ digits = 0 ∧ exp = 0)
deriving DecidableEq, Repr

inductive Json where
  | null
  | bool (b : Bool)
  | num (n : Number)
  | str (s : String)
  | arr (items : List Json)
  | obj (fields : List (String × Json))
deriving Repr

/-- `serde_json::Map`: the fields in insertion order. -/
abbrev JsonMap := List (String × Json)

namespace Json

mutual

def decEq : (a b : Json) → Decidable (a = b)
  | .null, .null => isTrue rfl
  | .bool a, .bool b => decidable_of_iff (a = b) (by simp)
  | .num a, .num b => decidable_of_iff (a = b) (by simp)
  | .str a, .str b => decidable_of_iff (a = b) (by simp)
  | .arr a, .arr b => match decEqItems a b with
    | isTrue h => isTrue (h ▸ rfl)
    | isFalse h => isFalse fun e => h (Json.arr.inj e)
  | .obj a, .obj b => match decEqFields a b with
    | isTrue h => isTrue (h ▸ rfl)
    | isFalse h => isFalse fun e => h (Json.obj.inj e)
  | .null, .bool _ | .null, .num _ | .null, .str _ | .null, .arr _ | .null, .obj _
  | .bool _, .null | .bool _, .num _ | .bool _, .str _ | .bool _, .arr _ | .bool _, .obj _
  | .num _, .null | .num _, .bool _ | .num _, .str _ | .num _, .arr _ | .num _, .obj _
  | .str _, .null | .str _, .bool _ | .str _, .num _ | .str _, .arr _ | .str _, .obj _
  | .arr _, .null | .arr _, .bool _ | .arr _, .num _ | .arr _, .str _ | .arr _, .obj _
  | .obj _, .null | .obj _, .bool _ | .obj _, .num _ | .obj _, .str _ | .obj _, .arr _ =>
    isFalse (by simp)

def decEqItems : (a b : List Json) → Decidable (a = b)
  | [], [] => isTrue rfl
  | [], _ :: _ | _ :: _, [] => isFalse (by simp)
  | x :: xs, y :: ys => match decEq x y, decEqItems xs ys with
    | isTrue h, isTrue hs => isTrue (h ▸ hs ▸ rfl)
    | isFalse h, _ => isFalse fun e => h (cons.inj e).1
    | _, isFalse h => isFalse fun e => h (cons.inj e).2

def decEqFields : (a b : List (String × Json)) → Decidable (a = b)
  | [], [] => isTrue rfl
  | [], _ :: _ | _ :: _, [] => isFalse (by simp)
  | (k, x) :: xs, (l, y) :: ys => match decEq x y, decEqFields xs ys with
    | isTrue h, isTrue hs => decidable_of_iff (k = l) (by simp [h, hs])
    | isFalse h, _ => isFalse fun e => h (Prod.mk.inj (cons.inj e).1).2
    | _, isFalse h => isFalse fun e => h (cons.inj e).2

end

instance : DecidableEq Json := decEq

@[elab_as_elim, induction_eliminator]
theorem induct {P : Json → Prop} (null : P .null) (bool : ∀ b, P (.bool b)) (num : ∀ n, P (.num n)) (str : ∀ s, P (.str s))
    (arr : ∀ items : List Json, (∀ v ∈ items, P v) → P (.arr items))
    (obj : ∀ fields : JsonMap, (∀ f ∈ fields, P f.2) → P (.obj fields)) (v : Json) : P v :=
  @Json.rec P (fun items => ∀ v ∈ items, P v) (fun fields => ∀ f ∈ fields, P f.2) (fun f => P f.2) null bool num str arr obj
    (forall_mem_nil _) (fun _ _ hv hvs => forall_mem_cons.2 ⟨hv, hvs⟩)
    (forall_mem_nil _) (fun _ _ hf hfs => forall_mem_cons.2 ⟨hf, hfs⟩) (fun _ _ h => h) v

end Json

def exponentChars : Int → List Char
  | .ofNat n => '+' :: (toString n).toList
  | .negSucc n => '-' :: (toString (n + 1)).toList

/-- `zmij`'s layout of the digits `ds` times `10 ^ k`. -/
def floatChars (ds : List Char) (k : Int) : List Char :=
  let n : Int := ds.length
  let kk := n + k
  if 0 ≤ k ∧ kk ≤ 16 then ds ++ replicate k.toNat '0' ++ ['.', '0']
  else if 0 < kk ∧ kk ≤ 16 then ds.take kk.toNat ++ '.' :: ds.drop kk.toNat
  else if -5 < kk ∧ kk ≤ 0 then '0' :: '.' :: replicate (-kk).toNat '0' ++ ds
  else if n = 1 then ds ++ 'e' :: exponentChars (kk - 1)
  else ds.take 1 ++ '.' :: ds.drop 1 ++ 'e' :: exponentChars (kk - 1)

def Number.chars : Number → List Char
  | posInt n => (toString n).toList
  | negInt n => '-' :: (toString (n + 1)).toList
  | float neg 0 _ _ => (if neg then ['-'] else []) ++ ['0', '.', '0']
  | float neg digits exp _ => (if neg then ['-'] else []) ++ floatChars (toString digits).toList exp

def hexDigit (n : Nat) : Char := "0123456789abcdef".toList.getD n '0'

def escapeChar (c : Char) : List Char :=
  match c with
  | '"' => ['\\', '"']
  | '\\' => ['\\', '\\']
  | '\n' => ['\\', 'n']
  | '\r' => ['\\', 'r']
  | '\t' => ['\\', 't']
  | c =>
    if c.toNat = 8 then ['\\', 'b']
    else if c.toNat = 12 then ['\\', 'f']
    else if c.toNat < 32 then ['\\', 'u', '0', '0', hexDigit (c.toNat / 16), hexDigit (c.toNat % 16)]
    else [c]

def stringChars (s : String) : List Char := '"' :: s.toList.flatMap escapeChar ++ ['"']

namespace Json

mutual

/-- The compact text of a value, with numbers written by `w`. -/
def write (w : Number → List Char) : Json → List Char
  | .null => "null".toList
  | .bool true => "true".toList
  | .bool false => "false".toList
  | .num n => w n
  | .str s => stringChars s
  | .arr items => '[' :: writeItems w items ++ [']']
  | .obj fields => '{' :: writeFields w fields ++ ['}']

def writeItems (w : Number → List Char) : List Json → List Char
  | [] => []
  | v :: rest => v.write w ++ if rest.isEmpty then [] else ',' :: writeItems w rest

def writeFields (w : Number → List Char) : List (String × Json) → List Char
  | [] => []
  | (k, v) :: rest => stringChars k ++ ':' :: (v.write w ++ if rest.isEmpty then [] else ',' :: writeFields w rest)

end

/-- The text that `serde_json::to_string` writes. -/
def chars (v : Json) : List Char := v.write Number.chars

def text (v : Json) : String := String.ofList v.chars

end Json

namespace JsonMap

def get (m : JsonMap) (key : String) : Option Json := m.lookup key

def insert (m : JsonMap) (key : String) (v : Json) : JsonMap :=
  if m.any (·.1 = key) then m.map fun f => if f.1 = key then (key, v) else f else m ++ [(key, v)]

theorem get_insert_self (m : JsonMap) (key : String) (v : Json) : (m.insert key v).get key = some v := by
  induction m with
  | nil => simp [insert, get]
  | cons f m ih =>
    obtain ⟨k, w⟩ := f
    unfold insert get at ih ⊢
    by_cases hk : k = key
    · simp [hk]
    · have hne : (key == k) = false := by simpa using fun e => hk e.symm
      by_cases hany : m.any (·.1 = key) = true
      · rw [if_pos hany] at ih
        rw [if_pos (by simp [hany]), map_cons, if_neg hk, lookup_cons, hne]
        exact ih
      · rw [if_neg hany] at ih
        rw [if_neg (by simp [hk, hany]), cons_append, lookup_cons, hne]
        exact ih

variable {k : String} {m : JsonMap} {v : Json} {key : String}

theorem get_insert_of_ne (m : JsonMap) (v : Json) (hk : k ≠ key) : (m.insert key v).get k = m.get k := by
  have hkey : (k == key) = false := by simpa using hk
  unfold insert
  by_cases hany : m.any (·.1 = key) = true
  · rw [if_pos hany]
    clear hany
    induction m with
    | nil => rfl
    | cons f m ih =>
      obtain ⟨l, w⟩ := f
      unfold get at ih ⊢
      by_cases hl : l = key
      · rw [map_cons, if_pos hl, lookup_cons, lookup_cons, hl, hkey]
        exact ih
      · rw [map_cons, if_neg hl, lookup_cons, lookup_cons, ih]
  · rw [if_neg hany]
    clear hany
    induction m with
    | nil => simp [get, lookup_cons, hkey]
    | cons f m ih =>
      unfold get at ih ⊢
      rw [cons_append, lookup_cons, lookup_cons, ih]

theorem get_insert (m : JsonMap) (key k : String) (v : Json) :
    (m.insert key v).get k = if k = key then some v else m.get k := by
  by_cases hk : k = key
  · rw [if_pos hk, hk, get_insert_self]
  · rw [if_neg hk, get_insert_of_ne m v hk]

def extend (m fields : JsonMap) : JsonMap := fields.foldl (fun m f => m.insert f.1 f.2) m

def keys (m : JsonMap) : List String := m.map (·.1)

theorem get_eq_none : m.get key = none ↔ key ∉ m.keys := by
  induction m with
  | nil => simp [get, keys]
  | cons f m ih =>
    obtain ⟨k, v⟩ := f
    unfold get keys at ih ⊢
    by_cases hk : key = k
    · simp [hk]
    · have hne : (key == k) = false := by simpa using hk
      rw [lookup_cons, hne, ih]
      simp [hk]

theorem keys_insert (m : JsonMap) (key : String) (v : Json) :
    (m.insert key v).keys = if m.any (·.1 = key) then m.keys else m.keys ++ [key] := by
  unfold insert keys
  split
  · rw [map_map]
    refine map_congr_left fun f _ => ?_
    dsimp only [Function.comp_apply]
    split
    · rename_i hf
      exact hf.symm
    · rfl
  · simp

theorem nodup_insert (hm : m.keys.Nodup) (key : String) (v : Json) : (m.insert key v).keys.Nodup := by
  rw [keys_insert]
  split
  · exact hm
  · rename_i hany
    rw [nodup_append]
    refine ⟨hm, by simp, fun a ha b hb hab => hany ?_⟩
    obtain ⟨f, hf, rfl⟩ := mem_map.1 ha
    rw [mem_singleton] at hb
    exact any_eq_true.2 ⟨f, hf, by simpa using hab.trans hb⟩

theorem mem_of_get (h : m.get k = some v) : (k, v) ∈ m := by
  unfold get at h
  induction m with
  | nil => cases h
  | cons f m ih =>
    obtain ⟨l, w⟩ := f
    rw [lookup_cons] at h
    split at h
    · rename_i heq
      cases h
      rw [show k = l by simpa using heq]
      exact mem_cons_self
    · exact mem_cons_of_mem _ (ih h)

theorem mem_insert {f : String × Json} (h : f ∈ m.insert key v) : f ∈ m ∨ f = (key, v) := by
  unfold insert at h
  split at h
  · obtain ⟨g, hg, rfl⟩ := mem_map.1 h
    split
    · exact .inr rfl
    · exact .inl hg
  · simpa using h

theorem get_eq_some (hm : (m.map (·.1)).Nodup) : m.get k = some v ↔ (k, v) ∈ m := by
  induction m with
  | nil => simp [get]
  | cons f m ih =>
    obtain ⟨l, u⟩ := f
    rw [map_cons, nodup_cons] at hm
    rw [get, lookup_cons, mem_cons]
    by_cases hk : k = l
    · subst hk
      have hnot : (k, v) ∉ m := fun h => hm.1 (mem_map.2 ⟨_, h, rfl⟩)
      simp [hnot, eq_comm]
    · rw [show (k == l) = false by simpa using hk]
      simpa [hk, get] using ih hm.2

theorem get_map (m : JsonMap) (g : String → Json → Json) (k : String) :
    JsonMap.get (m.map fun f => (f.1, g f.1 f.2)) k = (m.get k).map (g k) := by
  induction m with
  | nil => rfl
  | cons f m ih =>
    obtain ⟨l, v⟩ := f
    unfold get at ih ⊢
    rw [map_cons, lookup_cons, lookup_cons, ih]
    by_cases hk : k = l
    · simp [hk]
    · rw [show (k == l) = false by simpa using hk]

theorem get_extend (m : JsonMap) {fields : JsonMap} (hfields : fields.keys.Nodup) (k : String) :
    (m.extend fields).get k = (fields.get k).or (m.get k) := by
  induction fields generalizing m with
  | nil => rfl
  | cons f fields ih =>
    obtain ⟨l, v⟩ := f
    rw [keys, map_cons, nodup_cons] at hfields
    have hrest := ih (m.insert l v) hfields.2
    rw [extend, foldl_cons]
    rw [extend] at hrest
    rw [hrest, get_insert]
    by_cases hk : k = l
    · have hnone : JsonMap.get fields k = none := get_eq_none.2 (hk ▸ hfields.1)
      rw [hnone, if_pos hk, hk]
      simp [get]
    · have hne : (k == l) = false := by simpa using hk
      rw [if_neg hk]
      unfold get
      rw [lookup_cons, hne]

end JsonMap

def Json.modify (key : String) (f : Json → Json) : Json → Json
  | .obj fields => .obj (fields.map fun (k, v) => if k = key then (k, f v) else (k, v))
  | v => v

def Json.modifyValues (f : Json → Json) : Json → Json
  | .obj fields => .obj (fields.map fun (k, v) => (k, f v))
  | v => v

abbrev SetAside := List (List String × Json)

def Json.setAt : List String → Json → Json → Json
  | [], _, value => value
  | key :: path, v, value => v.modify key fun below => setAt path below value

end Openporch
