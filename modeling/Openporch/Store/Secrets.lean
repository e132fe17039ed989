import Openporch.JsonText
import Openporch.Lib.Fallible
import Openporch.Maps
import Openporch.Resolved
import Mathlib.Data.List.Nodup

/-!
# The built-in secret store

`crates/store/src/secrets.rs`: values are sealed under a master key and kept in versions, a version being bound to the
row it was written for by the associated data.
-/

namespace Openporch
open List Fallible

def builtinStore : String := "openporch"

inductive SecretError where
  | notFound (store reference : String) (version : Option String)
  | invalidReference (reference reason : String)
  | missingKey (keyId : String)
  | decrypt (store reference : String)
  | store (message : String)
deriving DecidableEq

def SecretError.text : SecretError → String
  | notFound id reference version =>
    "secret `" ++ reference ++ "`" ++ (version.elim "" (" version " ++ ·)) ++ " not found in store `" ++ id ++ "`"
  | invalidReference reference reason => "invalid secret reference `" ++ reference ++ "`: " ++ reason
  | missingKey keyId => "master key `" ++ keyId ++ "` is not available"
  | decrypt id reference => "secret `" ++ reference ++ "` in store `" ++ id ++ "` could not be decrypted"
  | store message => message

/-- `char::is_control`. -/
def isControl (c : Char) : Bool := c.toNat < 32 || (127 ≤ c.toNat && c.toNat < 160)

def validateReference (r : SecretRef) : Except SecretError Unit :=
  let fields := [r.store, r.reference] ++ r.version.toList
  if r.store.isEmpty || r.reference.isEmpty then
    .error (.invalidReference r.reference "`store` and `ref` are required")
  else if fields.any fun s => containsText ['$', '{'] s.toList then
    .error (.invalidReference r.reference "placeholders are not allowed in secret references")
  else if fields.any fun s => 512 < s.utf8ByteSize || s.toList.any isControl then
    .error (.invalidReference r.reference "references are at most 512 characters without control characters")
  else .ok ()

abbrev Bytes := List UInt8

structure Cipher where
  encrypt : (key nonce : Bytes) → (aad text : String) → Bytes
  decrypt : (key nonce : Bytes) → (aad : String) → Bytes → Option String
  decrypt_encrypt : ∀ key nonce aad text, decrypt key nonce aad (encrypt key nonce aad text) = some text

/-- The active key seals; retired keys still open. -/
structure Keyring where
  active : String
  keys : BTreeMap String Bytes
  key : Bytes
  active_key : keys[active]? = some key

/-- A row of `secret_versions`. -/
structure SecretVersion where
  org : String
  ref : String
  version : Int
  keyId : String
  nonce : Bytes
  ciphertext : Bytes
  isI64 : IsI64 version
deriving DecidableEq

def SecretVersion.key (row : SecretVersion) : String × String × Int := (row.org, row.ref, row.version)

structure SecretDb where
  versions : List SecretVersion
  draws : Nat
  keyed : (versions.map SecretVersion.key).Nodup

def SecretDb.empty : SecretDb := { versions := [], draws := 0, keyed := nodup_nil }

/-- `INSERT`, refused where the row's key is taken. -/
def SecretDb.insert (db : SecretDb) (row : SecretVersion) : Except SecretError SecretDb :=
  if h : row.key ∈ db.versions.map SecretVersion.key then
    .error (.store "UNIQUE constraint failed: secret_versions.org_id, secret_versions.ref, secret_versions.version")
  else
    .ok { versions := db.versions ++ [row], draws := db.draws + 1,
          keyed := by
            rw [map_append, nodup_append]
            refine ⟨db.keyed, by simp, fun x hx y hy hxy => h ?_⟩
            rw [map_singleton, mem_singleton] at hy
            exact hy ▸ hxy ▸ hx }

/-- The number after an `i64`, as it wraps around. -/
def nextI64 (n : Int) : Int := (n + 1).bmod (2 ^ 64)

theorem isI64_nextI64 (n : Int) : IsI64 (nextI64 n) := by
  have hlow := Int.le_bmod (x := n + 1) (m := 2 ^ 64) (by decide)
  have hhigh := Int.bmod_lt (x := n + 1) (m := 2 ^ 64) (by decide)
  unfold IsI64 nextI64
  omega

structure BuiltinSecretStore where
  cipher : Cipher
  keyring : Keyring
  org : String
  nonce : Nat → Bytes
  nonce_length : ∀ n, (nonce n).length = 12

namespace BuiltinSecretStore
variable (b : BuiltinSecretStore)

def aad (reference : String) (version : Int) : String :=
  "openporch-secret:v1:" ++ b.org ++ ":" ++ reference ++ ":" ++ toString version

def rowsOf (name : String) (db : SecretDb) : List SecretVersion :=
  db.versions.filter fun row => row.org = b.org && row.ref = name

def latest (name : String) (db : SecretDb) : Option Int := ((b.rowsOf name db).map (·.version)).max?

def newRow (name value : String) (db : SecretDb) : SecretVersion :=
  let version := nextI64 ((b.latest name db).getD 0)
  { org := b.org, ref := name, version, keyId := b.keyring.active, nonce := b.nonce db.draws,
    ciphertext := b.cipher.encrypt b.keyring.key (b.nonce db.draws) (b.aad name version) value
    isI64 := isI64_nextI64 _ }

def named (name : String) : SecretRef := { store := builtinStore, reference := name, version := none }

def pin (row : SecretVersion) : SecretRef := { named row.ref with version := some (toString row.version) }

/-- Writes a new version of `name` and returns a reference pinning it. -/
def write (name value : String) (db : SecretDb) : Except SecretError (SecretRef × SecretDb) := do
  validateReference (named name)
  let db' ← db.insert (b.newRow name value db)
  return (pin (b.newRow name value db), db')

def openRow (row : SecretVersion) : Except SecretError (Option String) :=
  match b.keyring.keys[row.keyId]? with
  | none => .error (.missingKey row.keyId)
  | some key =>
    if row.nonce.length = 12 then .ok (b.cipher.decrypt key row.nonce (b.aad row.ref row.version) row.ciphertext)
    else .ok none

def newest (rows : List SecretVersion) : Option SecretVersion :=
  rows.find? fun row => some row.version = (rows.map (·.version)).max?

def pinned (r : SecretRef) : Except SecretError (Option Int) :=
  match r.version with
  | none => .ok none
  | some v => ((parseI64 v.toList).map some).elim (.error (.notFound builtinStore r.reference r.version)) .ok

def rowFor (reference : String) (version : Option Int) (db : SecretDb) : Option SecretVersion :=
  newest ((b.rowsOf reference db).filter fun row => version.all (· = row.version))

def checkBuiltin (r : SecretRef) : Except SecretError Unit :=
  if r.store ≠ builtinStore then
    .error (.invalidReference r.reference ("store `" ++ r.store ++ "` is not the built-in store"))
  else .ok ()

def read (r : SecretRef) (db : SecretDb) : Except SecretError String := do
  validateReference r
  checkBuiltin r
  let version ← pinned r
  let row ← (b.rowFor r.reference version db).elim (.error (.notFound builtinStore r.reference r.version)) .ok
  (← b.openRow row).elim (.error (.decrypt builtinStore r.reference)) .ok

def discard (r : SecretRef) (db : SecretDb) : SecretDb :=
  match r.version.bind fun v => parseI64 v.toList with
  | some version =>
    if r.store = builtinStore then
      { db with
        versions := db.versions.filter fun row => !(row.org = b.org && row.ref = r.reference && row.version = version)
        keyed := db.keyed.sublist (filter_sublist.map _) }
    else db
  | none => db

theorem utf8ByteSize_le (s : String) : s.utf8ByteSize ≤ 4 * s.toList.length := by
  rw [← String.ofList_toList (s := s), String.toList_ofList]
  induction s.toList with
  | nil => simp
  | cons c cs ih =>
    have hc := c.utf8Size_le_four
    rw [String.ofList_cons, String.utf8ByteSize_append, String.utf8ByteSize_singleton, length_cons]
    omega

theorem isDigit_range {c : Char} (h : c.isDigit = true) : 48 ≤ c.toNat ∧ c.toNat ≤ 57 := by
  unfold Char.isDigit at h
  simp only [Bool.and_eq_true, decide_eq_true_eq, UInt32.le_iff_toNat_le] at h
  exact h

section
variable {b : BuiltinSecretStore} {db db' : SecretDb} {row : SecretVersion} {r : SecretRef} {name value text : String}

theorem eq_of_key {row' : SecretVersion} (h : row ∈ db.versions) (h' : row' ∈ db.versions) (hkey : row.key = row'.key) :
    row = row' := inj_on_of_nodup_map db.keyed h h' hkey

theorem mem_rowsOf : row ∈ b.rowsOf name db ↔ row ∈ db.versions ∧ row.org = b.org ∧ row.ref = name := by
  simp [rowsOf]

variable {rows : List SecretVersion}

theorem newest_mem (h : newest rows = some row) : row ∈ rows := mem_of_find?_eq_some h

theorem newest_eq (hmem : row ∈ rows) (hall : ∀ row' ∈ rows, row' = row) :
    newest rows = some row := by
  have hmax : (rows.map (·.version)).max? = some row.version := by
    rw [max?_eq_some_iff]
    refine ⟨mem_map_of_mem hmem, fun v hv => ?_⟩
    obtain ⟨row', hrow', rfl⟩ := mem_map.1 hv
    rw [hall row' hrow']
  have hsome : (newest rows).isSome = true := find?_isSome.2 ⟨row, hmem, by simp [hmax]⟩
  obtain ⟨row', hrow'⟩ := Option.isSome_iff_exists.1 hsome
  rw [hrow', hall row' (newest_mem hrow')]

theorem mem_of_rowFor {version : Option Int} (h : b.rowFor name version db = some row) :
    row ∈ db.versions ∧ row.org = b.org ∧ row.ref = name ∧ ∀ v, version = some v → row.version = v := by
  obtain ⟨hmem, hversion⟩ := mem_filter.1 (newest_mem h)
  obtain ⟨hrow, horg, hname⟩ := mem_rowsOf.1 hmem
  refine ⟨hrow, horg, hname, ?_⟩
  rintro v rfl
  simpa [eq_comm] using hversion

theorem rowFor_eq (hrow : row ∈ db.versions) (horg : row.org = b.org) :
    b.rowFor row.ref (some row.version) db = some row := by
  refine newest_eq (mem_filter.2 ⟨mem_rowsOf.2 ⟨hrow, horg, rfl⟩, by simp⟩) fun row' hrow' => ?_
  obtain ⟨hmem, hversion⟩ := mem_filter.1 hrow'
  obtain ⟨hrow', horg', hname'⟩ := mem_rowsOf.1 hmem
  refine eq_of_key hrow' hrow ?_
  have hv : row.version = row'.version := by simpa using hversion
  simp [SecretVersion.key, horg, horg', hname', hv]

theorem read_eq_ok : b.read r db = .ok text ↔ validateReference r = .ok () ∧ r.store = builtinStore ∧
    ∃ version row, pinned r = .ok version ∧ b.rowFor r.reference version db = some row ∧ b.openRow row = .ok (some text) := by
  unfold read
  simp only [bind_eq_ok]
  constructor
  · rintro ⟨⟨⟩, hvalid, ⟨⟩, hstore, version, hversion, row, hrow, o, ho, htext⟩
    refine ⟨hvalid, ?_, version, row, hversion, ?_, ?_⟩
    · by_contra hne
      rw [checkBuiltin, if_pos hne] at hstore
      cases hstore
    · cases h : b.rowFor r.reference version db with
      | none =>
        rw [h] at hrow
        cases hrow
      | some row' =>
        rw [h] at hrow
        cases hrow
        rfl
    · cases o with
      | none => cases htext
      | some t =>
        cases htext
        exact ho
  · rintro ⟨hvalid, hstore, version, row, hversion, hrow, ho⟩
    exact ⟨(), hvalid, (), if_neg (not_not.2 hstore), version, hversion, row, by rw [hrow]; rfl, some text, ho, rfl⟩

theorem read_of_subset (hsub : db.versions ⊆ db'.versions) (hpin : r.version.isSome = true)
    (h : b.read r db = .ok text) : b.read r db' = .ok text := by
  obtain ⟨hvalid, hstore, version, row, hversion, hrow, ho⟩ := read_eq_ok.1 h
  obtain ⟨hmem, horg, hname, hv⟩ := mem_of_rowFor hrow
  refine read_eq_ok.2 ⟨hvalid, hstore, version, row, hversion, ?_, ho⟩
  obtain ⟨v, hr⟩ := Option.isSome_iff_exists.1 hpin
  cases hp : parseI64 v.toList with
  | none =>
    rw [pinned, hr] at hversion
    simp [hp] at hversion
  | some n =>
    have hsome : version = some n := by
      rw [pinned, hr] at hversion
      simpa [hp] using hversion.symm
    rw [hsome, ← hv n hsome, ← hname]
    exact rowFor_eq (hsub hmem) horg

theorem versions_insert (h : db.insert row = .ok db') : db'.versions = db.versions ++ [row] := by
  unfold SecretDb.insert at h
  split at h
  · cases h
  · cases h
    rfl

theorem write_eq_ok : b.write name value db = .ok (r, db') ↔ validateReference (named name) = .ok () ∧
    db.insert (b.newRow name value db) = .ok db' ∧ r = pin (b.newRow name value db) := by
  unfold write
  simp only [bind_eq_ok]
  constructor
  · rintro ⟨⟨⟩, hvalid, db1, hinsert, h⟩
    cases h
    exact ⟨hvalid, hinsert, rfl⟩
  · rintro ⟨hvalid, hinsert, rfl⟩
    exact ⟨(), hvalid, db', hinsert, rfl⟩

theorem openRow_newRow : b.openRow (b.newRow name value db) = .ok (some value) := by
  unfold openRow
  rw [show (b.newRow name value db).keyId = b.keyring.active from rfl, b.keyring.active_key]
  dsimp only
  rw [if_pos (show (b.newRow name value db).nonce.length = 12 from b.nonce_length db.draws)]
  exact congrArg Except.ok (b.cipher.decrypt_encrypt ..)

theorem validate_pin (h : validateReference (named row.ref) = .ok ()) : validateReference (pin row) = .ok () := by
  have hsmall : (toString row.version).utf8ByteSize ≤ 512 := by
    have hlen := length_toString_i64 row.isI64
    have hsize := utf8ByteSize_le (toString row.version)
    omega
  have hchars : ∀ c ∈ (toString row.version).toList, isControl c = false ∧ c ≠ '$' := by
    intro c hc
    rcases mem_toString_int hc with rfl | hdigit
    · decide
    · have hrange := isDigit_range hdigit
      constructor
      · have hlow : decide (c.toNat < 32) = false := decide_eq_false (by omega)
        have hhigh : decide (127 ≤ c.toNat) = false := decide_eq_false (by omega)
        rw [isControl, hlow, hhigh]
        rfl
      · rintro rfl
        exact absurd hrange (by decide)
  have hplain : containsText ['$', '{'] (toString row.version).toList = false := by
    rw [Bool.eq_false_iff]
    intro hinfix
    obtain ⟨s, t, hst⟩ := containsText_iff.1 hinfix
    exact (hchars '$' (by rw [← hst]; simp)).2 rfl
  unfold validateReference at h ⊢
  dsimp only [pin, named] at h ⊢
  simp only [Option.toList, append_nil, any_append, any_cons, any_nil, Bool.or_false, hplain] at h ⊢
  have hquiet : (decide (512 < (toString row.version).utf8ByteSize) ||
      (toString row.version).toList.any isControl) = false := by
    rw [decide_eq_false (Nat.not_lt.2 hsmall), Bool.false_or, Bool.eq_false_iff]
    intro hany
    obtain ⟨c, hc, hcontrol⟩ := any_eq_true.1 hany
    rw [(hchars c hc).1] at hcontrol
    cases hcontrol
  rw [hquiet, Bool.or_false]
  exact h

theorem read_write (h : b.write name value db = .ok (r, db')) : b.read r db' = .ok value := by
  obtain ⟨hvalid, hinsert, rfl⟩ := write_eq_ok.1 h
  refine read_eq_ok.2 ⟨validate_pin hvalid, rfl, some (b.newRow name value db).version, b.newRow name value db, ?_, ?_,
    openRow_newRow⟩
  · rw [pinned, pin]
    dsimp only
    rw [parseI64_toString (b.newRow name value db).isI64]
    rfl
  · exact rowFor_eq (by rw [versions_insert hinsert]; simp) rfl

theorem read_later (h : b.write name value db = .ok (r, db')) {r' : SecretRef} (hpin : r'.version.isSome = true)
    (hread : b.read r' db = .ok text) : b.read r' db' = .ok text := by
  obtain ⟨-, hinsert, -⟩ := write_eq_ok.1 h
  refine read_of_subset ?_ hpin hread
  rw [versions_insert hinsert]
  exact subset_append_left ..

end

end BuiltinSecretStore
end Openporch
