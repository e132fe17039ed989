import Mathlib.Data.List.Nodup

/-!
# Tables as lists of rows

An `UPDATE … WHERE`, a `DELETE … WHERE` and a look-up by a key, over rows of any type. That a key
stays unique under an update is said by `keys_update`.
-/

namespace Table
open List

variable {α κ : Type}

def update (p : α → Bool) (f : α → α) (rows : List α) : List α :=
  rows.map fun r => if p r then f r else r

def delete (p : α → Bool) (rows : List α) : List α := rows.filter fun r => !p r

variable {p q : α → Bool} {f : α → α} {key : α → κ} {rows : List α} {r : α}

theorem mem_update : r ∈ update p f rows ↔ ∃ s ∈ rows, (if p s then f s else s) = r := mem_map

theorem mem_delete : r ∈ delete p rows ↔ r ∈ rows ∧ p r = false := by
  simp [delete]

theorem keys_update (hf : ∀ r, p r = true → key (f r) = key r) : (update p f rows).map key = rows.map key := by
  rw [update, map_map]
  refine map_congr_left fun r _ => ?_
  by_cases hp : p r = true
  · simp [hp, hf r hp]
  · simp [hp]

theorem nodup_delete (h : (rows.map key).Nodup) : ((delete p rows).map key).Nodup :=
  h.sublist (filter_sublist.map key)

theorem nodup_append_one (h : (rows.map key).Nodup) (hr : key r ∉ rows.map key) : ((rows ++ [r]).map key).Nodup := by
  rw [map_append, nodup_append]
  refine ⟨h, by simp, ?_⟩
  rintro a ha b hb rfl
  obtain rfl : a = key r := by simpa using hb
  exact hr ha

theorem eq_of_key (h : (rows.map key).Nodup) {s : α} (hr : r ∈ rows) (hs : s ∈ rows) (hk : key r = key s) : r = s :=
  inj_on_of_nodup_map h hr hs hk

theorem length_le_one (h : (rows.map key).Nodup) (hone : ∀ r ∈ rows, ∀ s ∈ rows, key r = key s) : rows.length ≤ 1 := by
  match rows, h, hone with
  | [], _, _ => simp
  | [r], _, _ => simp
  | r :: s :: rest, h, hone =>
    have hkey := hone r (by simp) s (by simp)
    simp [hkey] at h

theorem find?_update_of (hq : ∀ r, p r = true → q (f r) = q r) :
    (update p f rows).find? q = (rows.find? q).map fun r => if p r then f r else r := by
  rw [update, find?_map]
  congr 2
  funext r
  by_cases hp : p r = true
  · simp [hp, hq r hp]
  · simp [hp]

section
variable [DecidableEq κ] {k : κ}

theorem find?_update (hf : ∀ r, p r = true → key (f r) = key r) :
    (update p f rows).find? (fun r => key r = k) =
      (rows.find? fun r => key r = k).map fun r => if p r then f r else r :=
  find?_update_of fun r hr => by rw [hf r hr]

theorem find?_key_iff (h : (rows.map key).Nodup) : rows.find? (fun r => key r = k) = some r ↔ r ∈ rows ∧ key r = k := by
  constructor
  · intro hr
    exact ⟨mem_of_find?_eq_some hr, by simpa using find?_some hr⟩
  · rintro ⟨hr, rfl⟩
    cases hs : rows.find? fun s => key s = key r with
    | none => exact absurd (find?_eq_none.1 hs r hr) (by simp)
    | some s =>
      have hkey : key s = key r := by simpa using find?_some hs
      rw [eq_of_key h (mem_of_find?_eq_some hs) hr hkey]

theorem find?_perm {rows' : List α} (h : (rows.map key).Nodup) (hperm : rows'.Perm rows) :
    rows'.find? (fun r => key r = k) = rows.find? (fun r => key r = k) := by
  have h' : (rows'.map key).Nodup := (hperm.map key).nodup_iff.2 h
  refine Option.ext fun r => ?_
  rw [find?_key_iff h, find?_key_iff h', hperm.mem_iff]

theorem find?_delete (h : (rows.map key).Nodup) :
    (delete p rows).find? (fun r => key r = k) = (rows.find? fun r => key r = k).filter fun r => !p r := by
  ext r
  rw [find?_key_iff (nodup_delete h), mem_delete, Option.filter_eq_some_iff, find?_key_iff h]
  simp only [Bool.not_eq_true']
  tauto

end

end Table
