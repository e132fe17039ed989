import Openporch.SpecShape
import Openporch.Planner.Handed

/-!
# Content that is not expanded

A job resolves a workload's params with the content of `noExpand` files set aside, and puts it back afterwards
(`set_aside_no_expand` and `put` in `crates/engine/src/planner.rs`).
-/

namespace Openporch
open Asking List Fallible JsonMap GraphInput Ask

/-- The value at the path, where `index` reads a key as the index of an array. -/
def Json.seek (index : String → Option Nat) : List String → Json → Option Json
  | [], v => some v
  | key :: path, .obj fields => (JsonMap.get fields key).bind (seek index path)
  | key :: path, .arr items => (index key).bind fun i => items[i]?.bind (seek index path)
  | _ :: _, _ => none

def Resolved.seek (index : String → Option Nat) : List String → Resolved → Option Resolved
  | path, .value v => (v.seek index path).map .value
  | [], r => some r
  | key :: path, .object fields => (fields.lookup key).bind (seek index path)
  | key :: path, .array items => (index key).bind fun i => items[i]?.bind (seek index path)
  | _ :: _, .secret _ => none

def Resolved.pointer : List String → Resolved → Option Resolved := Resolved.seek pointerIndex

def Resolved.dig : List String → Resolved → Option Resolved := Resolved.seek fun _ => none

section
variable {index : String → Option Nat} {v u x : Json} {p q : List String} {key : String} {r : Resolved}

theorem seek_pointer (p : List String) (v : Json) : v.seek pointerIndex p = v.pointer p := by
  induction p generalizing v with
  | nil => cases v <;> rfl
  | cons key p ih =>
    have hbelow : Json.seek pointerIndex p = Json.pointer p := funext ih
    cases v <;> simp [Json.seek, Json.pointer, hbelow]

theorem seek_dig (p : List String) (v : Json) : v.seek (fun _ => none) p = v.dig p := by
  induction p generalizing v with
  | nil => cases v <;> rfl
  | cons key p ih =>
    have hbelow : Json.seek (fun _ => none) p = Json.dig p := funext ih
    cases v <;> simp [Json.seek, Json.dig, Json.field?, hbelow]

theorem seek_of_dig (h : v.dig p = some u) : v.seek index p = some u := by
  induction p generalizing v with
  | nil => cases v <;> exact h
  | cons key p ih =>
    obtain ⟨below, hbelow, hrest⟩ := Option.bind_eq_some_iff.1 h
    cases v with
    | obj fields => exact Option.bind_eq_some_iff.2 ⟨below, hbelow, ih hrest⟩
    | _ => cases hbelow

theorem Parted.symm (h : Parted p q) : Parted q p := ⟨h.2, h.1⟩

theorem Parted.below (h : Parted (key :: p) (key :: q)) : Parted p q :=
  ⟨fun hpre => h.1 ((prefix_cons_inj _).2 hpre), fun hpre => h.2 ((prefix_cons_inj _).2 hpre)⟩

theorem seek_setAt (h : Parted p q) (v x : Json) : (v.setAt p x).seek index q = v.seek index q := by
  induction q generalizing p v with
  | nil => exact absurd nil_prefix h.2
  | cons key q ih =>
    cases p with
    | nil => exact absurd nil_prefix h.1
    | cons k p =>
      cases v with
      | obj fields =>
        change (((Json.obj fields).modify k fun below => below.setAt p x).field? key).bind (Json.seek index q) =
          ((Json.obj fields).field? key).bind (Json.seek index q)
        rw [field_modify]
        cases (Json.obj fields).field? key with
        | none => rfl
        | some below =>
          rw [Option.map_some, Option.bind_some, Option.bind_some]
          by_cases hkey : key = k
          · rw [if_pos hkey]
            subst hkey
            exact ih h.below below
          · rw [if_neg hkey]
      | _ => rfl

end

namespace Resolved
variable {index : String → Option Nat}

theorem seek_value (p : List String) (v : Json) : (value v).seek index p = (v.seek index p).map value := by
  cases p <;> rw [seek]

theorem seek_nil (r : Resolved) : r.seek index [] = some r := by
  cases r with
  | value v => cases v <;> rfl
  | secret | array | object => rfl

theorem lookup_values (m : JsonMap) (key : String) :
    (m.map fun f => (f.1, value f.2)).lookup key = (m.get key).map value := by
  induction m with
  | nil => rfl
  | cons f m ih =>
    rw [map_cons, lookup_cons, JsonMap.get, lookup_cons, ih]
    split <;> rfl

theorem seek_ofFields (fields : List (String × Resolved)) (key : String) (p : List String) :
    (ofFields fields).seek index (key :: p) = (fields.lookup key).bind (seek index p) := by
  rcases ofFields_cases fields with ⟨m, rfl, heq⟩ | ⟨-, heq⟩
  · rw [heq, lookup_values, seek, Json.seek]
    cases JsonMap.get m key with
    | none => rfl
    | some v => exact (seek_value p v).symm
  · rw [heq, seek]

theorem seek_ofItems (items : List Resolved) (key : String) (p : List String) :
    (ofItems items).seek index (key :: p) = (index key).bind fun i => items[i]?.bind (seek index p) := by
  rcases ofItems_cases items with ⟨vs, rfl, heq⟩ | ⟨-, heq⟩
  · rw [heq, seek, Json.seek]
    cases index key with
    | none => rfl
    | some i =>
      rw [Option.bind_some, Option.bind_some, getElem?_map]
      cases vs[i]? with
      | none => rfl
      | some v => exact (seek_value p v).symm
  · rw [heq, seek]

end Resolved

section
variable {index : String → Option Nat} {dialect : Dialect} {sink : Sink} {location : String} {s : Expr → Except Reason Found}
  {v : Json}

theorem resolveFields_get {fields rs} {key : String} (h : (resolveFields dialect sink location fields).run s = .ok rs)
    (hv : JsonMap.get fields key = some v) :
    ∃ r, (resolveValue dialect sink location v).run s = .ok r ∧ rs.lookup key = some r := by
  induction fields generalizing rs with
  | nil => cases hv
  | cons f fields ih =>
    obtain ⟨k, u⟩ := f
    rw [resolveFields] at h
    obtain ⟨r, hr, h⟩ := run_bind_eq_ok.1 h
    obtain ⟨rs, hrs, h⟩ := run_bind_eq_ok.1 h
    cases h
    rw [get_field] at hv
    rw [lookup_cons]
    by_cases hk : key = k
    · rw [if_pos hk] at hv
      cases hv
      exact ⟨r, resolveValue_location hr, by simp [hk]⟩
    · rw [if_neg hk] at hv
      rw [show (key == k) = false by simpa using hk]
      exact ih hrs hv

theorem resolveItems_get {items : List Json} {rs : List Resolved} {i j : Nat}
    (h : (resolveItems dialect sink location j items).run s = .ok rs) (hv : items[i]? = some v) :
    ∃ r, (resolveValue dialect sink location v).run s = .ok r ∧ rs[i]? = some r := by
  induction items generalizing rs i j with
  | nil => cases hv
  | cons u items ih =>
    rw [resolveItems] at h
    obtain ⟨r, hr, h⟩ := run_bind_eq_ok.1 h
    obtain ⟨rs, hrs, h⟩ := run_bind_eq_ok.1 h
    cases h
    cases i with
    | zero =>
      cases hv
      exact ⟨r, resolveValue_location hr, rfl⟩
    | succ i =>
      rw [getElem?_cons_succ] at hv ⊢
      exact ih hrs hv

theorem resolveValue_seek {u : Json} {p : List String} {r : Resolved}
    (h : (resolveValue dialect sink location v).run s = .ok r) (hu : v.seek index p = some u) :
    ∃ r', (resolveValue dialect sink location u).run s = .ok r' ∧ r.seek index p = some r' := by
  induction p generalizing v r with
  | nil =>
    have hv : v = u := by cases v <;> simpa [Json.seek] using hu
    exact ⟨r, hv ▸ h, Resolved.seek_nil r⟩
  | cons key p ih =>
    cases v with
    | arr items =>
      rw [resolveValue] at h
      obtain ⟨rs, hrs, h⟩ := run_bind_eq_ok.1 h
      cases h
      obtain ⟨i, hi, hu⟩ := Option.bind_eq_some_iff.1 hu
      obtain ⟨below, hbelow, hu⟩ := Option.bind_eq_some_iff.1 hu
      obtain ⟨r, hr, hget⟩ := resolveItems_get hrs hbelow
      obtain ⟨r', hr', hseek⟩ := ih hr hu
      exact ⟨r', hr', by rw [Resolved.seek_ofItems, hi, Option.bind_some, hget, Option.bind_some, hseek]⟩
    | obj fields =>
      rw [resolveValue] at h
      obtain ⟨rs, hrs, h⟩ := run_bind_eq_ok.1 h
      cases h
      obtain ⟨below, hbelow, hu⟩ := Option.bind_eq_some_iff.1 hu
      obtain ⟨r, hr, hget⟩ := resolveFields_get hrs hbelow
      obtain ⟨r', hr', hseek⟩ := ih hr hu
      exact ⟨r', hr', by rw [Resolved.seek_ofFields, hget, Option.bind_some, hseek]⟩
    | _ => cases hu

end

namespace Resolved
variable {index : String → Option Nat}

theorem lookup_put (fields : List (String × Resolved)) (k key : String) (f : Resolved → Resolved) :
    (fields.map fun (y : String × Resolved) => if y.1 = k then (y.1, f y.2) else (y.1, y.2)).lookup key =
      (fields.lookup key).map fun r => if key = k then f r else r := by
  induction fields with
  | nil => rfl
  | cons y fields ih =>
    obtain ⟨k', r⟩ := y
    rw [map_cons]
    by_cases hkey : key = k'
    · subst hkey
      by_cases hk : key = k <;> simp [hk]
    · have hne : (key == k') = false := by simpa using hkey
      by_cases hk : k' = k
      · rw [hk] at hne
        simp [hk, lookup_cons, hne, ih]
      · simp [hk, lookup_cons, hne, ih]

variable {p : List String} {r : Resolved} {q : List String} {r' : Resolved} {kept : SetAside}

theorem seek_put (h : Parted p q) (content : Json) (r : Resolved) :
    (r.put p content).seek index q = r.seek index q := by
  induction q generalizing p r with
  | nil => exact absurd nil_prefix h.2
  | cons key q ih =>
    cases p with
    | nil => exact absurd nil_prefix h.1
    | cons k p =>
      cases r with
      | secret | array => rfl
      | value v => rw [put, seek_value, seek_value, seek_setAt h]; simp
      | object fields =>
        rw [put, seek, seek, lookup_put]
        cases fields.lookup key with
        | none => rfl
        | some below =>
          rw [Option.map_some, Option.bind_some, Option.bind_some]
          by_cases hkey : key = k
          · rw [if_pos hkey]
            subst hkey
            exact ih h.below below
          · rw [if_neg hkey]

theorem dig_put (h : r.dig p = some r') (content : Json) : (r.put p content).dig p = some (value content) := by
  unfold dig at h ⊢
  induction p generalizing r with
  | nil =>
    cases r <;> exact seek_nil _
  | cons key p ih =>
    cases r with
    | secret | array => cases h
    | value v =>
      rw [seek_value, seek_dig] at h
      obtain ⟨u, hu, -⟩ := Option.map_eq_some_iff.1 h
      rw [put, seek_value, seek_dig, dig_setAt_self hu]
      · rfl
      · simp
    | object fields =>
      obtain ⟨below, hbelow, h⟩ := Option.bind_eq_some_iff.1 h
      rw [put, seek, lookup_put, hbelow, Option.map_some, if_pos rfl, Option.bind_some]
      exact ih h

theorem seek_of_dig (h : r.dig p = some r') : r.seek index p = some r' := by
  unfold dig at h
  induction p generalizing r with
  | nil =>
    rw [seek_nil] at h ⊢
    exact h
  | cons key p ih =>
    cases r with
    | secret | array => cases h
    | value v =>
      rw [seek_value, seek_dig] at h
      obtain ⟨u, hu, heq⟩ := Option.map_eq_some_iff.1 h
      rw [seek_value, Openporch.seek_of_dig hu]
      exact congrArg some heq
    | object fields =>
      obtain ⟨below, hbelow, h⟩ := Option.bind_eq_some_iff.1 h
      exact Option.bind_eq_some_iff.2 ⟨below, hbelow, ih h⟩

theorem seek_putBack (h : ∀ x ∈ kept, Parted x.1 q) (r : Resolved) :
    (kept.foldl (fun r x => r.put x.1 x.2) r).seek index q = r.seek index q := by
  induction kept generalizing r with
  | nil => rfl
  | cons x kept ih =>
    obtain ⟨hx, hkept⟩ := forall_mem_cons.1 h
    rw [foldl_cons, ih hkept, seek_put hx]

theorem dig_putBack (hkept : (kept.map (·.1)).Pairwise Parted) (h : ∀ x ∈ kept, ∃ r', r.dig x.1 = some r') :
    ∀ x ∈ kept, (kept.foldl (fun r x => r.put x.1 x.2) r).dig x.1 = some (value x.2) := by
  induction kept generalizing r with
  | nil => simp
  | cons x kept ih =>
    rw [map_cons, pairwise_cons] at hkept
    obtain ⟨hx, hkept⟩ := hkept
    have hparted : ∀ y ∈ kept, Parted x.1 y.1 := fun y hy => hx y.1 (mem_map_of_mem hy)
    obtain ⟨⟨r', hr'⟩, hrest⟩ := forall_mem_cons.1 h
    rw [foldl_cons]
    refine forall_mem_cons.2 ⟨?_, ih hkept fun y hy => ?_⟩
    · unfold dig
      rw [seek_putBack fun y hy => (hparted y hy).symm]
      exact dig_put hr' x.2
    · obtain ⟨r'', hr''⟩ := hrest y hy
      refine ⟨r'', ?_⟩
      unfold dig
      rw [seek_put (hparted y hy)]
      exact hr''

end Resolved

theorem pointer_append (p q : List String) (v : Json) : v.pointer (p ++ q) = (v.pointer p).bind (Json.pointer q) := by
  induction p generalizing v with
  | nil => cases v <;> rfl
  | cons key p ih =>
    have hbelow : Json.pointer (p ++ q) = fun v => (v.pointer p).bind (Json.pointer q) := funext ih
    cases v with
    | arr items => simp [Json.pointer, hbelow, Option.bind_assoc]
    | obj fields => simp [Json.pointer, hbelow, Option.bind_assoc]
    | _ => rfl

theorem pointer_leaf {v : Json} (hv : v.isLeaf = true) (k : String) (p : List String) : v.pointer (k :: p) = none := by
  cases v with
  | arr items =>
    obtain rfl := List.isEmpty_iff.1 hv
    simp [Json.pointer]
  | obj fields =>
    obtain rfl := List.isEmpty_iff.1 hv
    rfl
  | _ => rfl

section
variable {f : List String → Json → Json × SetAside} {v : Json} {key : String} {path : List String}

def Spares (f : List String → Json → Json × SetAside) (v : Json) : Prop :=
  ∀ path ptr u, u.isLeaf = true → v.pointer ptr = some u → (∀ x ∈ (f path v).2, ¬ x.1 <+: path ++ ptr) →
    (f path v).1.pointer ptr = some u

def Takes (f : List String → Json → Json × SetAside) (v : Json) : Prop :=
  ∀ path, ∀ x ∈ (f path v).2, ∃ q, x.1 = path ++ q ∧ (OnceAlong q v → v.dig q = some x.2 ∧ (f path v).1.dig q = some .null)

def Shaped (f : List String → Json → Json × SetAside) : Prop :=
  ∀ path v, ((f path v.shape).2.map (·.1)) = (f path v).2.map (·.1)

theorem setAsideContent_cases (v : Json) :
    (v.field? "noExpand" ≠ some (.bool true) ∨ v.field? "content" = none) ∧ (∀ path, setAsideContent path v = (v, [])) ∨
    ∃ content, v.field? "noExpand" = some (.bool true) ∧ v.field? "content" = some content ∧
      ∀ path, setAsideContent path v = (v.modify "content" fun _ => .null, [(path ++ ["content"], content)]) := by
  cases v with
  | obj file =>
    unfold setAsideContent
    dsimp only
    split
    · rename_i content hexpand hcontent
      exact .inr ⟨content, hexpand, hcontent, fun _ => rfl⟩
    · rename_i hother
      refine .inl ⟨?_, fun _ => rfl⟩
      by_contra hneither
      rw [not_or, not_not] at hneither
      obtain ⟨content, hcontent⟩ := Option.ne_none_iff_exists'.1 hneither.2
      exact hother content hneither.1 hcontent
  | _ => exact .inl ⟨.inr rfl, fun _ => rfl⟩

variable {ptr : List String} {u : Json}

theorem pointer_modify (g : Json → Json) (hu : u.isLeaf = true) (hptr : v.pointer ptr = some u)
    (hg : ∀ below rest, v.field? key = some below → ptr = key :: rest → below.pointer rest = some u →
      (g below).pointer rest = some u) :
    (v.modify key g).pointer ptr = some u := by
  cases ptr with
  | nil =>
    cases hptr
    exact congrArg some (modify_leaf hu key g)
  | cons k rest =>
    cases v with
    | arr items => exact hptr
    | obj fields =>
      obtain ⟨below, hbelow, hptr⟩ := Option.bind_eq_some_iff.1 hptr
      change (((Json.obj fields).modify key g).field? k).bind (Json.pointer rest) = some u
      rw [field_modify, show (Json.obj fields).field? k = some below from hbelow, Option.map_some, Option.bind_some]
      by_cases hk : k = key
      · rw [if_pos hk]
        subst hk
        exact hg below rest hbelow rfl hptr
      · rw [if_neg hk]
        exact hptr
    | _ => cases hptr

theorem pointer_mapValues {fields} (g : String → Json → Json) (hu : u.isLeaf = true)
    (hptr : (Json.obj fields).pointer ptr = some u)
    (hg : ∀ k below rest, JsonMap.get fields k = some below → ptr = k :: rest → below.pointer rest = some u →
      (g k below).pointer rest = some u) :
    (Json.obj (fields.map fun y => (y.1, g y.1 y.2))).pointer ptr = some u := by
  cases ptr with
  | nil =>
    cases hptr
    obtain rfl := List.isEmpty_iff.1 hu
    rfl
  | cons k rest =>
    obtain ⟨below, hbelow, hptr⟩ := Option.bind_eq_some_iff.1 hptr
    refine Option.bind_eq_some_iff.2 ⟨g k below, ?_, hg k below rest hbelow rfl hptr⟩
    rw [get_map, hbelow, Option.map_some]

theorem pointer_modifyValues {g : Json → Json} (hu : u.isLeaf = true) (hptr : v.pointer ptr = some u)
    (hg : ∀ k below rest, v.field? k = some below → below.pointer rest = some u → (g below).pointer rest = some u) :
    (v.modifyValues g).pointer ptr = some u := by
  cases v with
  | obj fields => exact pointer_mapValues (fun _ => g) hu hptr fun k below rest hbelow _ hrest => hg k below rest hbelow hrest
  | _ => exact hptr

theorem setAsideContent_spares (v : Json) : Spares setAsideContent v := by
  intro path ptr u hu hptr hout
  rcases setAsideContent_cases v with ⟨-, heq⟩ | ⟨content, -, -, heq⟩
  · rw [heq]
    exact hptr
  · rw [heq] at hout ⊢
    refine pointer_modify (fun _ => .null) hu hptr fun below rest _ hrest _ => ?_
    refine absurd ?_ (hout _ (mem_singleton_self _))
    rw [hrest]
    exact (prefix_append_right_inj path).2 (by simp)

theorem setAsideContent_takes (v : Json) : Takes setAsideContent v := by
  intro path x hx
  rcases setAsideContent_cases v with ⟨-, heq⟩ | ⟨content, -, hcontent, heq⟩
  · rw [heq] at hx
    cases hx
  · rw [heq] at hx ⊢
    obtain rfl := mem_singleton.1 hx
    refine ⟨["content"], rfl, fun _ => ⟨?_, ?_⟩⟩
    · rw [Json.dig, hcontent]
      rfl
    · rw [Json.dig, field_modify, hcontent]
      rfl

theorem setAsideContent_shaped : Shaped setAsideContent := by
  intro path v
  have hexpand : v.shape.field? "noExpand" = some (.bool true) ↔ v.field? "noExpand" = some (.bool true) := by
    rw [field_shape]
    cases v.field? "noExpand" with
    | none => simp
    | some u => cases u <;> simp [Json.shape]
  have hcontent : v.shape.field? "content" = none ↔ v.field? "content" = none := by
    rw [field_shape, Option.map_eq_none_iff]
  rcases setAsideContent_cases v with ⟨hno, heq⟩ | ⟨content, hyes, hsome, heq⟩ <;>
    rcases setAsideContent_cases v.shape with ⟨hno', heq'⟩ | ⟨content', hyes', hsome', heq'⟩
  · rw [heq, heq']
  · rcases hno with hno | hno
    · exact absurd (hexpand.1 hyes') hno
    · rw [hcontent.2 hno] at hsome'
      cases hsome'
  · rcases hno' with hno' | hno'
    · exact absurd (hexpand.2 hyes) hno'
    · rw [hcontent.1 hno'] at hsome
      cases hsome
  · rw [heq, heq']
    rfl

theorem setAsideFields_spares (h : ∀ v, Spares f v) (v : Json) : Spares (fun path => setAsideFields path f) v := by
  intro path ptr u hu hptr hout
  cases v with
  | obj fields =>
    refine pointer_mapValues (fun k v => (f (path ++ [k]) v).1) hu hptr fun k below rest hbelow hrest hptr' => ?_
    refine h below (path ++ [k]) rest u hu hptr' fun x hx => ?_
    have hnot := hout x (mem_flatMap.2 ⟨(k, below), mem_of_get hbelow, hx⟩)
    rwa [hrest, append_cons] at hnot
  | _ => exact hptr

theorem setAsideFields_takes (h : ∀ v, Takes f v) (v : Json) : Takes (fun path => setAsideFields path f) v := by
  intro path x hx
  cases v with
  | obj fields =>
    obtain ⟨⟨k, below⟩, hmem, hx⟩ := mem_flatMap.1 hx
    obtain ⟨q, hq, htaken⟩ := h below (path ++ [k]) x hx
    refine ⟨k :: q, by rw [hq, ← append_cons], fun hone => ?_⟩
    obtain ⟨hkeys, hone⟩ := hone
    have hbelow : JsonMap.get fields k = some below := (get_eq_some (hkeys fields rfl)).2 hmem
    obtain ⟨hwas, hnull⟩ := htaken (hone below hbelow)
    refine ⟨Option.bind_eq_some_iff.2 ⟨below, hbelow, hwas⟩, Option.bind_eq_some_iff.2 ⟨_, ?_, hnull⟩⟩
    change JsonMap.get (fields.map fun y => (y.1, (f (path ++ [y.1]) y.2).1)) k = _
    rw [get_map fields (fun k v => (f (path ++ [k]) v).1) k, hbelow, Option.map_some]
  | _ => cases hx

theorem setAsideFields_shaped (h : Shaped f) : Shaped (fun path => setAsideFields path f) := by
  intro path v
  cases v with
  | obj fields =>
    simp only [Json.shape, setAsideFields, shapeFields_eq, map_flatMap, flatMap_map]
    exact flatMap_congr fun y _ => h (path ++ [y.1]) y.2
  | _ => rfl

theorem setAsideField_spares (h : ∀ v, Spares f v) (v : Json) : Spares (fun path => setAsideField key path f) v := by
  intro path ptr u hu hptr hout
  dsimp only [setAsideField] at hout ⊢
  cases hbelow : v.field? key with
  | none => exact hptr
  | some below =>
    rw [hbelow] at hout
    refine pointer_modify (fun _ => (f (path ++ [key]) below).1) hu hptr fun below' rest hbelow' hrest hptr' => ?_
    cases hbelow.symm.trans hbelow'
    refine h below (path ++ [key]) rest u hu hptr' fun x hx => ?_
    have hnot := hout x hx
    rwa [hrest, append_cons] at hnot

theorem setAsideField_takes (h : ∀ v, Takes f v) (v : Json) : Takes (fun path => setAsideField key path f) v := by
  intro path x hx
  dsimp only [setAsideField] at hx ⊢
  cases hbelow : v.field? key with
  | none =>
    rw [hbelow] at hx
    cases hx
  | some below =>
    rw [hbelow] at hx
    obtain ⟨q, hq, htaken⟩ := h below (path ++ [key]) x hx
    refine ⟨key :: q, by rw [hq, ← append_cons], fun hone => ?_⟩
    obtain ⟨hwas, hnull⟩ := htaken (hone.2 below hbelow)
    refine ⟨Option.bind_eq_some_iff.2 ⟨below, hbelow, hwas⟩, ?_⟩
    rw [Json.dig, field_modify, hbelow, Option.map_some, if_pos rfl, Option.bind_some]
    exact hnull

theorem setAsideField_shaped (h : Shaped f) : Shaped (fun path => setAsideField key path f) := by
  intro path v
  dsimp only [setAsideField]
  rw [field_shape]
  cases v.field? key with
  | none => rfl
  | some below => exact h (path ++ [key]) below

theorem setAsideNoExpand_spares (v : Json) : Spares setAsideNoExpand v :=
  setAsideField_spares (setAsideFields_spares (setAsideField_spares (setAsideFields_spares setAsideContent_spares))) v

theorem setAsideNoExpand_takes (v : Json) : Takes setAsideNoExpand v :=
  setAsideField_takes (setAsideFields_takes (setAsideField_takes (setAsideFields_takes setAsideContent_takes))) v

theorem setAsideNoExpand_shaped : Shaped setAsideNoExpand :=
  setAsideField_shaped (setAsideFields_shaped (setAsideField_shaped (setAsideFields_shaped setAsideContent_shaped)))

end

theorem file_paths (path : List String) (f : File) : (setAsideContent path f.json).2.map (·.1) =
    if f.noExpand = some true ∧ f.content.isSome then [path ++ ["content"]] else [] := by
  rcases setAsideContent_cases f.json with ⟨hno, heq⟩ | ⟨content, hyes, hsome, heq⟩
  · rw [heq, if_neg]
    · rfl
    · rintro ⟨h, h'⟩
      rw [f.field_noExpand, f.field_content, h] at hno
      rcases hno with hno | hno
      · exact hno rfl
      · rw [Option.map_eq_none_iff] at hno
        rw [hno] at h'
        cases h'
  · rw [heq, if_pos]
    · rfl
    · rw [f.field_noExpand] at hyes
      rw [f.field_content] at hsome
      obtain ⟨b, hb, heq⟩ := Option.map_eq_some_iff.1 hyes
      obtain ⟨t, ht, -⟩ := Option.map_eq_some_iff.1 hsome
      cases heq
      exact ⟨hb, by rw [ht]; rfl⟩

theorem files_paths (path : List String) (ct : Container) :
    (setAsideField "files" path (fun path => setAsideFields path setAsideContent) ct.json).2.map (·.1) =
      ct.files.entries.flatMap fun y => if y.2.noExpand = some true ∧ y.2.content.isSome then
        [path ++ ["files", y.1, "content"]] else [] := by
  unfold setAsideField
  rw [ct.field_files]
  by_cases hnil : ct.files.json File.json = []
  · rw [if_pos hnil]
    rw [IndexMap.json, map_eq_nil_iff] at hnil
    rw [hnil]
    rfl
  · rw [if_neg hnil]
    simp only [setAsideFields, IndexMap.json, map_flatMap, flatMap_map, file_paths]
    simp

theorem noExpand_paths (path : List String) (w : Workload) :
    (setAsideNoExpand path w.spec).2.map (·.1) = w.noExpandPointers.map (path ++ ·) := by
  unfold setAsideNoExpand Workload.noExpandPointers Workload.containerEntries
  rw [setAsideField, Workload.field_containers]
  cases w.containers with
  | none => rfl
  | some containers =>
    simp only [Option.map_some, setAsideFields, IndexMap.json, map_flatMap, flatMap_map, files_paths]
    simp only [Option.getD_some, filterMap_eq_flatMap_toList, map_flatMap]
    refine flatMap_congr fun y _ => flatMap_congr fun z _ => ?_
    split <;> simp

/-- The bodies of the triggers have no `outputs` yet. -/
def NoOutputs (spec : Json) : Prop := ∀ name kind, spec.dig ["triggers", name, kind, "outputs"] = none

variable {externals : BTreeMap String ResourceOutputs} {u : Json} {ptr : List String} {n : Node}

theorem pointer_addOutputs {body : Json}
    (hno : body.field? "outputs" = none) (hu : u.isLeaf = true) (hptr : body.pointer ptr = some u) :
    (addOutputs externals body).pointer ptr = some u := by
  cases body with
  | obj fields =>
    unfold addOutputs
    dsimp only
    split
    · exact hptr
    · rename_i key hkey
      split
      · exact hptr
      · cases ptr with
        | nil =>
          -- a leaf has no `resource`
          cases hptr
          obtain rfl := List.isEmpty_iff.1 hu
          cases hkey
        | cons k ptr =>
          obtain ⟨below, hbelow, hptr⟩ := Option.bind_eq_some_iff.1 hptr
          have hk : k ≠ "outputs" := by
            rintro rfl
            rw [show JsonMap.get fields "outputs" = none from hno] at hbelow
            cases hbelow
          refine Option.bind_eq_some_iff.2 ⟨below, ?_, hptr⟩
          rw [get_insert_of_ne fields _ hk, hbelow]
  | _ => exact hptr

theorem pointer_addTriggerOutputs {spec : Json}
    (hno : NoOutputs spec) (hu : u.isLeaf = true) (hptr : spec.pointer ptr = some u) :
    (addTriggerOutputs externals spec).pointer ptr = some u := by
  refine pointer_modify _ hu hptr fun triggers rest htriggers _ hrest => ?_
  refine pointer_modifyValues hu hrest fun name trigger rest hname hrest => ?_
  refine pointer_modifyValues hu hrest fun kind body rest hkind hrest => ?_
  refine pointer_addOutputs ?_ hu hrest
  have hnone := hno name kind
  rw [Json.dig, htriggers, Option.bind_some, Json.dig, hname, Option.bind_some, Json.dig, hkind, Option.bind_some,
    Json.dig] at hnone
  simpa [Json.dig] using hnone

theorem setAsideNoExpand_addTriggerOutputs (externals : BTreeMap String ResourceOutputs) (path : List String) (spec : Json) :
    setAsideNoExpand path (addTriggerOutputs externals spec) =
      (addTriggerOutputs externals (setAsideNoExpand path spec).1, (setAsideNoExpand path spec).2) := by
  refine Prod.ext (setAsideField_modify (by decide) path _ _ spec) ?_
  unfold setAsideNoExpand addTriggerOutputs
  rw [setAsideField, setAsideField, field_modify]
  cases spec.field? "containers" <;> rfl

theorem jobParams_spec {wid : WorkloadId} {m : Module} (hty : n.descriptor.ty = .workload)
    (hparams : n.params = some (workloadParams wid m)) (externals : BTreeMap String ResourceOutputs) :
    (jobParams n externals).1.field? "spec" =
        some (addTriggerOutputs externals (setAsideNoExpand ["spec"] (.obj m.spec)).1) ∧
      (jobParams n externals).2 = (setAsideNoExpand ["spec"] (.obj m.spec)).2 := by
  unfold jobParams
  rw [hparams, Option.getD_some, if_pos hty]
  dsimp only [workloadParams, addDependencyOutputs]
  have hspec : ∀ dependencies, (Json.obj (JsonMap.insert [("id", .str wid.text), ("class", .str m.cls.text),
    ("spec", .obj m.spec)]
      "dependencies" dependencies)).field? "spec" = some (.obj m.spec) := fun _ => rfl
  rw [setAsideField, hspec]
  dsimp only
  rw [field_modify, hspec, nil_append, setAsideNoExpand_addTriggerOutputs]
  exact ⟨rfl, rfl⟩

namespace Workload
variable {w : Workload} {types : List ResourceType} {c : ConvertedWorkload}

theorem aside_paths (hc : w.toModule types = .ok c) (path : List String) :
    (setAsideNoExpand path (.obj c.module.spec)).2.map (·.1) = w.noExpandPointers.map (path ++ ·) := by
  rw [← setAsideNoExpand_shaped, (module_spec hc).1, setAsideNoExpand_shaped, noExpand_paths]

theorem mem_aside (hc : w.toModule types = .ok c) {path : List String} {x}
    (hx : x ∈ (setAsideNoExpand path (.obj c.module.spec)).2) : ∃ id target text, w.NoExpand id target text ∧
      x = (path ++ contentPath id target, .str text) ∧
      (setAsideNoExpand path (.obj c.module.spec)).1.dig (contentPath id target) = some .null := by
  obtain ⟨hshape, hcontent⟩ := module_spec hc
  have hpath : x.1 ∈ w.noExpandPointers.map (path ++ ·) := by
    rw [← aside_paths hc]
    exact mem_map_of_mem hx
  obtain ⟨p, hp, hpx⟩ := mem_map.1 hpath
  obtain ⟨id, target, text, h, rfl⟩ := mem_noExpandPointers.1 hp
  obtain ⟨q, hq, htaken⟩ := setAsideNoExpand_takes (.obj c.module.spec) path x hx
  obtain rfl : contentPath id target = q := append_cancel_left (hpx.trans hq)
  obtain ⟨hwas, hnull⟩ := htaken (h.once.congr hshape)
  refine ⟨id, target, text, h, Prod.ext hpx.symm ?_, hnull⟩
  exact Option.some.inj (hwas.symm.trans (hcontent id target text h))

theorem NoExpand.mem_aside {id target text : String} (h : w.NoExpand id target text) (hc : w.toModule types = .ok c)
    (path : List String) : (path ++ contentPath id target, .str text) ∈ (setAsideNoExpand path (.obj c.module.spec)).2 := by
  have hpath : path ++ contentPath id target ∈ (setAsideNoExpand path (.obj c.module.spec)).2.map (·.1) := by
    rw [aside_paths hc]
    exact mem_map.2 ⟨_, mem_noExpandPointers.2 ⟨id, target, text, h, rfl⟩, rfl⟩
  obtain ⟨x, hx, heq⟩ := mem_map.1 hpath
  obtain ⟨id', target', text', h', rfl, -⟩ := Workload.mem_aside hc hx
  have hsame := append_cancel_left heq
  have hdig := h'.dig
  rw [hsame, h.dig] at hdig
  cases hdig
  rwa [hsame] at hx

end Workload

def ConvertedWorkload.Job (c : ConvertedWorkload) (scope : MapScope) (n : Node) (job : ProvisionJob) : Prop :=
  n.descriptor.ty = .workload ∧ n.params = some (workloadParams c.id c.module) ∧
    ∃ (dep : Engine.Deployment) (dfn : ResourceDefinition) (fingerprint : String) (started : OperationStarted) (deadline : Nat),
      dep.job scope n dfn fingerprint started deadline = .ok job

theorem ConvertedWorkload.Job.resource {c : ConvertedWorkload} {scope : MapScope} {job : ProvisionJob}
    (h : c.Job scope n job) :
    ∃ r, (resolveValue (paramsDialect n) .secret "params" (jobParams n scope.externals).1).run scope.answer =
      .ok r ∧ job.inputs.resource = (jobParams n scope.externals).2.foldl (fun r x => r.put x.1 x.2) r := by
  obtain ⟨-, -, dep, dfn, fingerprint, started, deadline, h⟩ := h
  obtain ⟨⟨inputs, account⟩, hinputs, h⟩ := bind_eq_ok.1 h
  cases h
  rw [jobInputs] at hinputs
  obtain ⟨_, -, hinputs⟩ := run_bind_eq_ok.1 hinputs
  obtain ⟨_, -, hinputs⟩ := run_bind_eq_ok.1 hinputs
  obtain ⟨⟨resource, found⟩, hresource, hinputs⟩ := run_bind_eq_ok.1 hinputs
  cases hinputs
  rw [resolveParams] at hresource
  obtain ⟨⟨r, found'⟩, hr, hresource⟩ := run_bind_eq_ok.1 hresource
  cases hresource
  have hrun := run_of_record hr
  rw [run_mapError] at hrun
  exact ⟨r, mapError_eq_ok.1 hrun, rfl⟩

section
variable {w : Workload} {types : List ResourceType} {c : ConvertedWorkload} {scope : MapScope} {n : Node} {job : ProvisionJob}

theorem ConvertedWorkload.Job.seek_spec {index} (h : c.Job scope n job) {r : Resolved}
    (hr : (resolveValue (paramsDialect n) .secret "params" (jobParams n scope.externals).1).run scope.answer = .ok r)
    {q : List String} {u : Json}
    (hu : (addTriggerOutputs scope.externals (setAsideNoExpand ["spec"] (.obj c.module.spec)).1).seek index q = some u) :
    ∃ r', (resolveValue (paramsDialect n) .secret "params" u).run scope.answer = .ok r' ∧
      r.seek index ("spec" :: q) = some r' := by
  obtain ⟨hspec, -⟩ := jobParams_spec h.1 h.2.1 scope.externals
  refine resolveValue_seek hr ?_
  cases hparams : (jobParams n scope.externals).1 with
  | obj fields =>
    rw [hparams] at hspec
    exact Option.bind_eq_some_iff.2 ⟨_, hspec, hu⟩
  | _ =>
    rw [hparams] at hspec
    cases hspec

theorem noOutputs_aside (hc : w.toModule types = .ok c) (path : List String) :
    NoOutputs (setAsideNoExpand path (.obj c.module.spec)).1 := by
  intro name kind
  have htriggers : (setAsideNoExpand path (.obj c.module.spec)).1.field? "triggers" =
    (Json.obj c.module.spec).field? "triggers" := by
    unfold setAsideNoExpand
    rw [setAsideField]
    cases (Json.obj c.module.spec).field? "containers" with
    | none => rfl
    | some containers => simp [field_modify]
  have hnone : (Json.obj c.module.spec).shape.dig ["triggers", name, kind, "outputs"] = none := by
    rw [(Workload.module_spec hc).1, dig_shape, Workload.no_trigger_outputs]
    rfl
  rw [dig_shape, Option.map_eq_none_iff] at hnone
  rw [Json.dig, htriggers]
  exact hnone

theorem job_content (hc : w.toModule types = .ok c) (h : c.Job scope n job) {id target text : String}
    (hfile : w.NoExpand id target text) :
    job.inputs.resource.pointer ("spec" :: contentPath id target) = some (.value (.str text)) := by
  obtain ⟨r, hr, hresource⟩ := h.resource
  rw [(jobParams_spec h.1 h.2.1 scope.externals).2] at hresource
  have hparted : ((setAsideNoExpand ["spec"] (.obj c.module.spec)).2.map (·.1)).Pairwise Parted := by
    rw [Workload.aside_paths hc, pairwise_map]
    refine (Workload.noExpandPointers_parted w).imp fun hab => ?_
    exact ⟨fun hpre => hab.1 ((prefix_cons_inj _).1 hpre), fun hpre => hab.2 ((prefix_cons_inj _).1 hpre)⟩
  have hdigs : ∀ x ∈ (setAsideNoExpand ["spec"] (.obj c.module.spec)).2, ∃ r', r.dig x.1 = some r' := by
    intro x hx
    obtain ⟨id, target, text, -, rfl, hnull⟩ := Workload.mem_aside hc hx
    have hseek : (addTriggerOutputs scope.externals (setAsideNoExpand ["spec"] (.obj c.module.spec)).1).seek (fun _ => none)
        (contentPath id target) = some .null := by
      obtain ⟨containers, hcontainers, hnull⟩ := Option.bind_eq_some_iff.1 hnull
      rw [seek_dig, addTriggerOutputs, contentPath, Json.dig, field_modify, hcontainers]
      exact hnull
    obtain ⟨r', -, hget⟩ := h.seek_spec hr hseek
    exact ⟨r', hget⟩
  have hput := Resolved.dig_putBack hparted hdigs _ (hfile.mem_aside hc ["spec"])
  rw [← hresource] at hput
  exact Resolved.seek_of_dig hput

theorem job_leaf (hc : w.toModule types = .ok c) (h : c.Job scope n job) {ptr : List String} {v : Json} (hleaf : v.isLeaf = true)
    (hptr : (Json.obj c.module.spec).pointer ptr = some v) (hout : ∀ p ∈ w.noExpandPointers, ¬ p <+: ptr) :
    ∃ r, (resolveValue (paramsDialect n) .secret "params" v).run scope.answer = .ok r ∧
      job.inputs.resource.pointer ("spec" :: ptr) = some r := by
  obtain ⟨r, hr, hresource⟩ := h.resource
  rw [(jobParams_spec h.1 h.2.1 scope.externals).2] at hresource
  have hspared : (setAsideNoExpand ["spec"] (.obj c.module.spec)).1.pointer ptr = some v := by
    refine setAsideNoExpand_spares (.obj c.module.spec) ["spec"] ptr v hleaf hptr fun x hx hpre => ?_
    obtain ⟨id, target, text, hfile, rfl, -⟩ := Workload.mem_aside hc hx
    exact hout _ (Workload.mem_noExpandPointers.2 ⟨id, target, text, hfile, rfl⟩) ((prefix_cons_inj _).1 hpre)
  have hseek : (addTriggerOutputs scope.externals (setAsideNoExpand ["spec"] (.obj c.module.spec)).1).seek pointerIndex ptr =
      some v := by
    rw [seek_pointer]
    exact pointer_addTriggerOutputs (noOutputs_aside hc ["spec"]) hleaf hspared
  obtain ⟨r', hr', hget⟩ := h.seek_spec hr hseek
  refine ⟨r', hr', ?_⟩
  rw [hresource, Resolved.pointer, Resolved.seek_putBack, hget]
  intro x hx
  obtain ⟨id, target, text, hfile, rfl, -⟩ := Workload.mem_aside hc hx
  have hcontent := (Workload.module_spec hc).2 id target text hfile
  have hnot := hout _ (Workload.mem_noExpandPointers.2 ⟨id, target, text, hfile, rfl⟩)
  refine ⟨fun hpre => hnot ((prefix_cons_inj _).1 hpre), fun hpre => ?_⟩
  -- a leaf has nothing below it, and the content is below no leaf
  obtain ⟨rest, hrest⟩ := (prefix_cons_inj _).1 hpre
  replace hrest : ptr ++ rest = contentPath id target := hrest
  have hbelow := pointer_of_dig hcontent
  rw [← hrest, pointer_append, hptr, Option.bind_some] at hbelow
  cases rest with
  | nil => exact hnot ⟨[], by rw [append_nil, ← hrest, append_nil]⟩
  | cons k rest => cases (pointer_leaf hleaf k rest).symm.trans hbelow

end

/-- The strings of a document's spec keep everything but the placeholders they name dependencies with, the content of
`noExpand` files stays as it is, and a job has the module's other leaves resolved. -/
structure Workload.Carried (w : Workload) (c : ConvertedWorkload) : Prop where
  strings : ∀ ptr s, w.StringAt ptr s → ∃ parts out, parseTemplate s = .ok parts ∧
    (Json.obj c.module.spec).pointer ptr = some (.str out) ∧ parseTemplate out = .ok (parts.map (setPart w.resources))
  contents : ∀ scope n job, c.Job scope n job → ∀ id target text, w.NoExpand id target text →
    job.inputs.resource.pointer ("spec" :: contentPath id target) = some (.value (.str text))
  leaves : ∀ scope n job, c.Job scope n job → ∀ ptr v, v.isLeaf = true → (Json.obj c.module.spec).pointer ptr = some v →
    (∀ p ∈ w.noExpandPointers, ¬ p <+: ptr) → ∃ r, (resolveValue (paramsDialect n) .secret "params" v).run scope.answer = .ok r ∧
      job.inputs.resource.pointer ("spec" :: ptr) = some r

theorem Workload.sharedIds {w : Workload} (h : w.validate = .ok ()) : SharedIds w.resources := by
  intro key r id hr hid
  unfold Workload.validate at h
  obtain ⟨-, -, h⟩ := bind_eq_ok.1 h
  obtain ⟨-, -, h⟩ := bind_eq_ok.1 h
  obtain ⟨-, -, h⟩ := bind_eq_ok.1 h
  obtain ⟨-, -, h⟩ := bind_eq_ok.1 h
  obtain ⟨_, hresources, -⟩ := bind_eq_ok.1 h
  obtain ⟨before, after, hentries, -⟩ := lookup_eq_some_iff.1 hr
  have hmem : (key, r) ∈ w.resources.entries := by
    rw [hentries]
    exact mem_append_right _ mem_cons_self
  obtain ⟨_, hcheck, -⟩ := bind_eq_ok.1 (forM_eq_ok.1 hresources _ hmem)
  rw [hid, Option.all_some, Workload.check] at hcheck
  split at hcheck
  · assumption
  · cases hcheck

section
variable {w : Workload} {types : List ResourceType} {c : ConvertedWorkload}

def Workload.AllSurvive (w : Workload) : Prop :=
  ∀ ptr s parts, w.StringAt ptr s → parseTemplate s = .ok parts → ∀ p ∈ placeholders parts, Survives w.resources p

theorem carried_of_survive (hv : w.validate = .ok ()) (hc : w.toModule types = .ok c) (h : w.AllSurvive) : w.Carried c where
  strings ptr s hs := by
    obtain ⟨at', out, secret, hout, hptr⟩ := hs.translated hc
    obtain ⟨parts, hparts, -⟩ := bind_eq_ok.1 hout
    have hparts := mapError_eq_ok.1 hparts
    exact ⟨parts, out, hparts, hptr, (string_translated_iff (Workload.sharedIds hv) hparts hout).2 (h ptr s parts hs hparts)⟩
  contents _ _ _ hjob _ _ _ hfile := job_content hc hjob hfile
  leaves _ _ _ hjob _ _ hleaf hptr hout := job_leaf hc hjob hleaf hptr hout

theorem survive_of_carried (hv : w.validate = .ok ()) (hc : w.toModule types = .ok c) (h : w.Carried c) : w.AllSurvive := by
  intro ptr s parts hs hparts
  obtain ⟨at', out, secret, hout, hptr⟩ := hs.translated hc
  obtain ⟨parts', out', hparts', hptr', hread⟩ := h.strings ptr s hs
  cases hparts.symm.trans hparts'
  cases hptr.symm.trans hptr'
  exact (string_translated_iff (Workload.sharedIds hv) hparts hout).1 hread

end

/-- Converting a valid document and building its job change nothing but the placeholders that name dependencies, exactly when
all of these survive being printed in the set's syntax. -/
theorem workload_carried_iff (w : Workload) (hv : w.validate = .ok ()) (types : List ResourceType) (c : ConvertedWorkload)
    (hc : w.toModule types = .ok c) : w.Carried c ↔ w.AllSurvive :=
  ⟨survive_of_carried hv hc, carried_of_survive hv hc⟩

def literalFiles : IndexMap File := ⟨[("/etc/motd", { content := some "$\x7bresources", noExpand := some true })], by simp⟩

def literalContainers (text : String) : IndexMap Container :=
  ⟨[("main", { image := "hub", vars := hubVariables text, files := literalFiles })], by simp⟩

def literalWorkload (text : String) : Workload := { hubWorkload text with containers := some (literalContainers text) }

theorem literal_converts {text : String} (h : ((literalWorkload text).validate.isOk &&
    ((literalWorkload text).toModule ledgerInput.types).isOk) = true) :
    (literalWorkload text).validate = .ok () ∧ ∃ c, (literalWorkload text).toModule ledgerInput.types = .ok c := by
  obtain ⟨hvalid, hmodule⟩ := Bool.and_eq_true_iff.1 h
  obtain ⟨⟨⟩, hvalid⟩ := isOk_elim hvalid
  exact ⟨hvalid, isOk_elim hmodule⟩

theorem literal_carried_iff : ∃ c, (literalWorkload (hubText "zone.host")).toModule ledgerInput.types = .ok c ∧
    ((literalWorkload (hubText "zone.host")).Carried c ↔ (literalWorkload (hubText "zone.host")).AllSurvive) := by
  have hok := @literal_converts (hubText "zone.host") (by decide +kernel)
  obtain ⟨hv, c, hc⟩ := hok
  exact ⟨c, hc, workload_carried_iff _ hv _ c hc⟩

/-- An output named with a quote is printed between quotes. -/
theorem literal_quote_lost : ∃ c, (literalWorkload (hubText "settings[\"it's\"]")).validate = .ok () ∧
    (literalWorkload (hubText "settings[\"it's\"]")).toModule ledgerInput.types = .ok c ∧
    ¬ (literalWorkload (hubText "settings[\"it's\"]")).Carried c := by
  have hok := @literal_converts (hubText "settings[\"it's\"]") (by decide +kernel)
  obtain ⟨hv, c, hc⟩ := hok
  refine ⟨c, hv, hc, fun hcarried => ?_⟩
  have hstring : (literalWorkload (hubText "settings[\"it's\"]")).StringAt ["containers", "main", "variables", "HUB"]
      (hubText "settings[\"it's\"]") := by
    refine ⟨fun p hp => ?_, rfl⟩
    obtain rfl := mem_singleton.1 hp
    decide
  have hsurvives := survive_of_carried hv hc hcarried _ _ [.placeholder quotePlaceholder] hstring (by decide +kernel)
    quotePlaceholder
    (mem_singleton.2 rfl)
  obtain ⟨-, -, hcloses⟩ := hsurvives "settings" _ (.quoted "it's") "it's" []
    ⟨by decide, ⟨.name "resources", .name "settings", rfl, rfl⟩, rfl, rfl⟩
  exact absurd hcloses (by decide)

end Openporch
