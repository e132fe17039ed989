import Openporch.SecretMerge
import Openporch.Lib.Transition

/-!
# Pinned secrets

`pin_secrets` of `crates/server/src/handlers/deploys.rs` fixes the versions a deployment reads while other requests
write secrets and discard those of rejected changes. A version is pinned as soon as it is written, before its change is
accepted, and `write` gives out the number of a discarded version again.
-/

namespace Openporch
open Transition BuiltinSecretStore List Fallible

/-- The store, the versions of changes that are still to be decided, and the pins with what each read as when it was
taken. -/
structure Vault where
  db : SecretDb
  written : List SecretRef := []
  pins : List (SecretRef × Except SecretError String) := []

inductive VaultEvent where
  | write (name value : String)
  | accept (r : SecretRef)
  /-- The change that wrote the version is rejected. -/
  | discard (r : SecretRef)
  | pin (name : String)

namespace Vault
variable (b : BuiltinSecretStore)

def step (v : Vault) : VaultEvent → Vault
  | .write name value =>
    match b.write name value v.db with
    | .ok (r, db) => { v with db, written := r :: v.written }
    | .error _ => v
  | .accept r => { v with written := v.written.erase r }
  | .discard r => if r ∈ v.written then { v with db := b.discard r v.db, written := v.written.erase r } else v
  | .pin name =>
    match b.latest name v.db with
    | some n =>
      let r := { named name with version := some (toString n) }
      { v with pins := (r, b.read r v.db) :: v.pins }
    | none => v

def Kept (v : Vault) : Prop := ∀ p ∈ v.pins, b.read p.1 v.db = p.2 ∨ ∃ e, b.read p.1 v.db = .error e

def Spares (t : Taken Vault VaultEvent) : Prop := ∀ r, t.event = .discard r → r ∉ t.before.pins.map Prod.fst

structure Inv (v : Vault) : Prop where
  written : ∀ r ∈ v.written, ∃ row, r = pin row
  pins : ∀ p ∈ v.pins, ∃ row ∈ v.db.versions, row.org = b.org ∧ p = (pin row, b.read (pin row) v.db)

variable {b} {v : Vault}

theorem read_pin {db db' : SecretDb} {row : SecretVersion} (h : row ∈ db.versions) (h' : row ∈ db'.versions)
    (horg : row.org = b.org) :
    b.read (pin row) db = b.read (pin row) db' := by
  have hpinned : pinned (pin row) = .ok (some row.version) := by
    rw [pinned, pin]
    dsimp only
    rw [parseI64_toString row.isI64]
    rfl
  have hrow : b.rowFor (pin row).reference (some row.version) db =
      b.rowFor (pin row).reference (some row.version) db' :=
    (rowFor_eq h horg).trans (rowFor_eq h' horg).symm
  simp only [BuiltinSecretStore.read, hpinned, ok_bind, hrow]

theorem Inv.pins_of (h : v.Inv b) {db : SecretDb}
    (hkeep : ∀ row ∈ v.db.versions, pin row ∈ v.pins.map Prod.fst → row ∈ db.versions) :
    ∀ p ∈ v.pins, ∃ row ∈ db.versions, row.org = b.org ∧ p = (pin row, b.read (pin row) db) := by
  rintro p hp
  obtain ⟨row, hrow, horg, rfl⟩ := h.pins p hp
  have hrow' := hkeep row hrow (mem_map_of_mem hp)
  exact ⟨row, hrow', horg, by rw [read_pin hrow hrow' horg]⟩

theorem Inv.step (h : v.Inv b) (e : VaultEvent) (hspares : ∀ r, e = .discard r → r ∉ v.pins.map Prod.fst) :
    (v.step b e).Inv b := by
  unfold Vault.step
  cases e with
  | write name value =>
    dsimp only
    split
    · rename_i r db hwrite
      obtain ⟨-, hinsert, rfl⟩ := write_eq_ok.1 hwrite
      refine ⟨fun r hr => ?_, h.pins_of fun row hrow _ => ?_⟩
      · rcases mem_cons.1 hr with rfl | hr
        · exact ⟨_, rfl⟩
        · exact h.written r hr
      · rw [versions_insert hinsert]
        exact mem_append_left _ hrow
    · exact h
  | accept r => exact ⟨fun r' hr' => h.written r' (mem_of_mem_erase hr'), h.pins⟩
  | discard r =>
    dsimp only
    split
    · rename_i hr
      obtain ⟨gone, rfl⟩ := h.written r hr
      refine ⟨fun r' hr' => h.written r' (mem_of_mem_erase hr'), h.pins_of fun row hrow hpin => ?_⟩
      -- the row goes only if the pin is the discarded reference
      have hne : ¬ (row.ref = gone.ref ∧ row.version = gone.version) := by
        rintro ⟨href, hversion⟩
        refine hspares _ rfl ?_
        rwa [pin, ← href, ← hversion]
      simp only [BuiltinSecretStore.discard, pin, named, Option.bind_some,
        parseI64_toString gone.isI64, if_true, mem_filter, Bool.not_eq_true', Bool.and_eq_false_imp, Bool.and_eq_true,
        decide_eq_false_iff_not]
      exact ⟨hrow, fun hname hversion => hne ⟨of_decide_eq_true hname.2, hversion⟩⟩
    · exact h
  | pin name =>
    dsimp only
    split
    · rename_i n hlatest
      obtain ⟨row, hrow, rfl⟩ := mem_map.1 (max?_mem hlatest)
      obtain ⟨hmem, horg, rfl⟩ := mem_rowsOf.1 hrow
      refine ⟨h.written, fun p hp => ?_⟩
      rcases mem_cons.1 hp with rfl | hp
      · exact ⟨row, hmem, horg, rfl⟩
      · exact h.pins p hp
    · exact h

end Vault

/-- Where no pinned version is discarded, every pin reads for good as it did when it was taken. -/
theorem pins_kept (b : BuiltinSecretStore) (db : SecretDb) (events : List VaultEvent)
    (h : ∀ t ∈ taken (Vault.step b) { db } events, Vault.Spares t) : (after (Vault.step b) { db } events).Kept b := by
  have hinv : (after (Vault.step b) { db } events).Inv b := by
    refine invariant_taken (I := fun trace v => (∀ t ∈ trace, Vault.Spares t) → v.Inv b) (fun _ => ⟨by simp, by simp⟩)
      (fun trace v e ih htrace => ?_) events h
    exact (ih fun t ht => htrace t (mem_cons_of_mem _ ht)).step e (htrace _ mem_cons_self)
  intro p hp
  obtain ⟨row, -, -, rfl⟩ := hinv.pins p hp
  exact .inl rfl

def reusedVersion : List VaultEvent :=
  [.write "db" "b", .discard { store := "openporch", reference := "db", version := some "1" }, .pin "db", .write "db" "a"]

theorem discarded_pin_changes : ∃ p ∈ (after (Vault.step porchStore) { db := .empty } reusedVersion).pins,
    p.2 = .ok "a" ∧ porchStore.read p.1 (after (Vault.step porchStore) { db := .empty } reusedVersion).db = .ok "b" := by
  refine ⟨_, mem_cons_self, ?_, ?_⟩ <;> decide +kernel

def laterDiscard : List VaultEvent :=
  [.discard { store := "openporch", reference := "db", version := some "2" }, .write "db" "b", .pin "db", .write "db" "a"]

theorem later_discard_kept : (∀ t ∈ taken (Vault.step porchStore) { db := .empty } laterDiscard, Vault.Spares t) ∧
    (after (Vault.step porchStore) { db := .empty } laterDiscard).Kept porchStore := by
  have hspares : ∀ t ∈ taken (Vault.step porchStore) { db := .empty } laterDiscard, Vault.Spares t := by
    rintro t ht r hr
    simp only [laterDiscard, taken, mem_cons, not_mem_nil, or_false] at ht
    rcases ht with rfl | rfl | rfl | rfl <;> cases hr
    decide +kernel
  exact ⟨hspares, pins_kept porchStore .empty _ hspares⟩

end Openporch
