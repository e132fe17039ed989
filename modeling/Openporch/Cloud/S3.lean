import Openporch.Ids
import Openporch.Text

/-!
# Artifacts in S3

`S3Object` and `S3Version` of `crates/engine/src/cloud/mod.rs`. Escapes are decoded on the bytes of a text
and written on its characters.
-/

namespace Openporch.Cloud
open List

structure S3Version where
  bucket : List Char
  key : List Char
  version : List Char
deriving DecidableEq

structure S3Object where
  bucket : List Char
  key : List Char
deriving DecidableEq

def hexValue (b : UInt8) : Option Nat :=
  if 48 ≤ b ∧ b ≤ 57 then some (b.toNat - 48)
  else if 97 ≤ b ∧ b ≤ 102 then some (b.toNat - 87)
  else if 65 ≤ b ∧ b ≤ 70 then some (b.toNat - 55)
  else none

/-- The loop of `percent_decode`. -/
def unescape : List UInt8 → Option (List UInt8)
  | [] => some []
  | b :: rest =>
    if b = 37 then
      match rest with
      | high :: low :: rest =>
        match hexValue high, hexValue low with
        | some high, some low => (unescape rest).map (UInt8.ofNat (16 * high + low) :: ·)
        | _, _ => none
      | _ => none
    else (unescape rest).map (b :: ·)

def percentDecode (s : List Char) : Option (List Char) := do
  let bytes ← unescape (s.flatMap String.utf8EncodeChar)
  return (← bytes.toByteArray.utf8Decode?).toList

/-- `%` and the two digits of `02X`. -/
def escapeChar (c : Char) : List Char :=
  if ['%', '?', '#', '&'].contains c then ['%', Nat.digitChar (c.toNat / 16), (Nat.digitChar (c.toNat % 16)).toUpper] else [c]

def escape (s : List Char) : List Char := s.flatMap escapeChar

def S3Version.parse (uri : List Char) : Option S3Version := do
  let (path, query) ← (← stripPrefix "s3://".toList uri) |> splitOnce '?'
  let (bucket, key) ← splitOnce '/' path
  let version ← (splitAll '&' query).findSome? (stripPrefix "versionId=".toList)
  let key ← percentDecode key
  let version ← percentDecode version
  if bucket.isEmpty || key.isEmpty || version.isEmpty || uri.contains '#' then none else some ⟨bucket, key, version⟩

def S3Object.parse (uri : List Char) : Option S3Object := do
  let path ← stripPrefix "s3://".toList uri
  if path.contains '?' || path.contains '#' then none
  else
    let (bucket, key) ← splitOnce '/' path
    let key ← percentDecode key
    if bucket.isEmpty || key.isEmpty then none else some ⟨bucket, key⟩

/-- `S3Object::at` -/
def S3Object.versioned (o : S3Object) (version : List Char) : S3Version := ⟨o.bucket, o.key, version⟩

def S3Object.text (o : S3Object) : List Char := "s3://".toList ++ (o.bucket ++ '/' :: escape o.key)

def S3Version.text (w : S3Version) : List Char :=
  "s3://".toList ++ (w.bucket ++ '/' :: escape w.key ++ '?' :: ("versionId=".toList ++ escape w.version))

theorem unescape_plain {bytes : List UInt8} (h : 37 ∉ bytes) (rest : List UInt8) :
    unescape (bytes ++ rest) = (unescape rest).map (bytes ++ ·) := by
  induction bytes with
  | nil => simp
  | cons b bytes ih =>
    rw [mem_cons, not_or] at h
    rw [cons_append, unescape.eq_def]
    simp only [if_neg (Ne.symm h.1), ih h.2, Option.map_map]
    rfl

variable {c : Char} {o : S3Object} {w : S3Version} {uri : List Char}

theorem percent_not_mem (h : c ≠ '%') : 37 ∉ String.utf8EncodeChar c := by
  have hne : c.val.toNat ≠ 37 := fun hval => h (Char.ext (UInt32.toNat_inj.1 hval))
  have hbyte : ∀ n, n % 256 ≠ 37 → (37 : UInt8) ≠ UInt8.ofNat n := fun n hn heq => by
    have hval := congrArg UInt8.toNat heq
    rw [UInt8.toNat_ofNat'] at hval
    exact hn hval.symm
  unfold String.utf8EncodeChar
  dsimp only
  split
  · simp only [mem_singleton]
    exact hbyte _ (by omega)
  · split
    · simp only [mem_cons, not_mem_nil, or_false, not_or]
      exact ⟨hbyte _ (by omega), hbyte _ (by omega)⟩
    · split <;> simp only [mem_cons, not_mem_nil, or_false, not_or]
      · exact ⟨hbyte _ (by omega), hbyte _ (by omega), hbyte _ (by omega)⟩
      · exact ⟨hbyte _ (by omega), hbyte _ (by omega), hbyte _ (by omega), hbyte _ (by omega)⟩

theorem unescape_escape (s : List Char) :
    unescape ((escape s).flatMap String.utf8EncodeChar) = some (s.flatMap String.utf8EncodeChar) := by
  induction s with
  | nil => rfl
  | cons c s ih =>
    rw [escape, flatMap_cons, flatMap_append, flatMap_cons, ← escape]
    by_cases hc : c ∈ ['%', '?', '#', '&']
    · simp only [mem_cons, not_mem_nil, or_false] at hc
      rcases hc with rfl | rfl | rfl | rfl
      all_goals
        refine Eq.trans ?_ (congrArg (Option.map (_ :: ·)) ih)
        rfl
    · have hplain : escapeChar c = [c] := if_neg (by simpa using hc)
      rw [hplain, flatMap_singleton, unescape_plain (percent_not_mem fun h => hc (by simp [h])), ih]
      rfl

theorem percentDecode_escape (s : List Char) : percentDecode (escape s) = some s := by
  rw [percentDecode, unescape_escape]
  have hdecode := utf8Decode?_utf8Encode (l := s)
  rw [List.utf8Encode] at hdecode
  simp [hdecode]

theorem escape_chars (hc : c ∈ ['?', '#', '&']) (s : List Char) : c ∉ escape s := by
  intro hmem
  obtain ⟨d, -, hd⟩ := mem_flatMap.1 hmem
  rw [escapeChar] at hd
  split at hd
  · rename_i hspecial
    simp only [contains_eq_mem, decide_eq_true_eq, mem_cons, not_mem_nil, or_false] at hc hspecial
    rcases hspecial with rfl | rfl | rfl | rfl <;> rcases hc with rfl | rfl | rfl <;> revert hd <;> decide
  · rename_i hplain
    obtain rfl := mem_singleton.1 hd
    exact hplain (by simp_all)

def Plain (bucket : List Char) : Prop := bucket ≠ [] ∧ '/' ∉ bucket ∧ '?' ∉ bucket ∧ '#' ∉ bucket

theorem S3Object.parse_text (hb : Plain o.bucket) (hk : o.key ≠ []) : parse o.text = some o := by
  have hquery : '?' ∉ o.bucket ++ '/' :: escape o.key := by simp [hb.2.2.1, escape_chars]
  have hmark : '#' ∉ o.bucket ++ '/' :: escape o.key := by simp [hb.2.2.2, escape_chars]
  have hstrip : stripPrefix "s3://".toList o.text = some (o.bucket ++ '/' :: escape o.key) := stripPrefix_eq_some.2 rfl
  rw [parse, hstrip]
  simp [-mem_append, hquery, hmark, splitOnce_append hb.2.1, percentDecode_escape, hb.1, hk]

theorem S3Version.parse_text (hb : Plain w.bucket) (hk : w.key ≠ []) (hv : w.version ≠ []) :
    parse w.text = some w := by
  have hquery : '?' ∉ w.bucket ++ '/' :: escape w.key := by simp [hb.2.2.1, escape_chars]
  have hmark : '#' ∉ w.text := by simp [text, hb.2.2.2, escape_chars]
  have hstrip : stripPrefix "s3://".toList w.text = some (w.bucket ++ '/' :: escape w.key ++
      '?' :: ("versionId=".toList ++ escape w.version)) := stripPrefix_eq_some.2 rfl
  have hone : splitAll '&' ("versionId=".toList ++ escape w.version) = ["versionId=".toList ++ escape w.version] :=
    splitAll_of_not_mem (by simp [escape_chars])
  have hversion : stripPrefix "versionId=".toList ("versionId=".toList ++ escape w.version) = some (escape w.version) :=
    stripPrefix_eq_some.2 rfl
  rw [parse, hstrip]
  simp only [Option.bind_eq_bind, Option.bind_some, splitOnce_append hquery, splitOnce_append hb.2.1, hone,
    findSome?_cons, hversion, percentDecode_escape]
  simp [hb.1, hk, hv, hmark]

theorem S3Object.parse_spec (h : parse uri = some o) :
    (∃ path, uri = "s3://".toList ++ path ∧ '?' ∉ path) ∧ Plain o.bucket ∧ o.key ≠ [] := by
  obtain ⟨path, hpath, h⟩ := Option.bind_eq_some_iff.1 h
  split at h
  · cases h
  · rename_i hchars
    obtain ⟨⟨bucket, rest⟩, hsplit, h⟩ := Option.bind_eq_some_iff.1 h
    obtain ⟨key, -, h⟩ := Option.bind_eq_some_iff.1 h
    split at h
    · cases h
    · rename_i hne
      cases h
      simp only [Bool.or_eq_true, contains_eq_mem, decide_eq_true_eq, not_or, List.isEmpty_iff] at hchars hne
      refine ⟨⟨path, stripPrefix_eq_some.1 hpath, hchars.1⟩, ⟨hne.1, splitOnce_before hsplit, ?_, ?_⟩, hne.2⟩
      · exact fun hmem => hchars.1 (splitOnce_eq hsplit ▸ mem_append_left _ hmem)
      · exact fun hmem => hchars.2 (splitOnce_eq hsplit ▸ mem_append_left _ hmem)

theorem S3Version.parse_spec (h : parse uri = some w) :
    (∃ path, uri = "s3://".toList ++ path ∧ '?' ∈ path) ∧ Plain w.bucket ∧ w.key ≠ [] ∧ w.version ≠ [] := by
  obtain ⟨path, hpath, h⟩ := Option.bind_eq_some_iff.1 h
  obtain ⟨⟨before, query⟩, hquery, h⟩ := Option.bind_eq_some_iff.1 h
  obtain ⟨⟨bucket, rest⟩, hsplit, h⟩ := Option.bind_eq_some_iff.1 h
  obtain ⟨escaped, -, h⟩ := Option.bind_eq_some_iff.1 h
  obtain ⟨key, -, h⟩ := Option.bind_eq_some_iff.1 h
  obtain ⟨version, -, h⟩ := Option.bind_eq_some_iff.1 h
  split at h
  · cases h
  · rename_i hne
    cases h
    simp only [Bool.or_eq_true, contains_eq_mem, decide_eq_true_eq, not_or, List.isEmpty_iff] at hne
    obtain ⟨⟨⟨hbucket, hkey⟩, hversion⟩, hmark⟩ := hne
    have huri := stripPrefix_eq_some.1 hpath
    rw [splitOnce_eq hquery, splitOnce_eq hsplit] at huri
    refine ⟨⟨path, stripPrefix_eq_some.1 hpath, by rw [splitOnce_eq hquery]; simp⟩,
      ⟨hbucket, splitOnce_before hsplit, ?_, ?_⟩, hkey, hversion⟩
    · exact fun hmem => splitOnce_before hquery (splitOnce_eq hsplit ▸ mem_append_left _ hmem)
    · exact fun hmem => hmark (by simp [huri, hmem])

/-- The text of what a URI was read as is read as the same, also for an object with a version, and no URI is
both an object and a version. -/
theorem uris_read_again (uri : List Char) :
    (∀ o, S3Object.parse uri = some o → S3Object.parse o.text = some o ∧
      ∀ version ≠ [], S3Version.parse (o.versioned version).text = some (o.versioned version)) ∧
    (∀ w, S3Version.parse uri = some w → S3Version.parse w.text = some w) ∧
    ((S3Object.parse uri).isSome = true → S3Version.parse uri = none) := by
  refine ⟨fun o ho => ?_, fun w hw => ?_, fun ho => ?_⟩
  · obtain ⟨-, hb, hk⟩ := S3Object.parse_spec ho
    exact ⟨S3Object.parse_text hb hk, fun version hv => S3Version.parse_text (w := o.versioned version) hb hk hv⟩
  · obtain ⟨-, hb, hk, hv⟩ := S3Version.parse_spec hw
    exact S3Version.parse_text hb hk hv
  · obtain ⟨o, ho⟩ := Option.isSome_iff_exists.1 ho
    obtain ⟨⟨path, hpath, hno⟩, -⟩ := S3Object.parse_spec ho
    refine Option.eq_none_iff_forall_ne_some.2 fun w hw => ?_
    obtain ⟨⟨path', hpath', hquery⟩, -⟩ := S3Version.parse_spec hw
    rw [append_cancel_left (hpath.symm.trans hpath')] at hno
    exact hno hquery

/-- `?` and `#` stand in the key, `&` and `%` in the version. -/
theorem plan_read_again :
    let o : S3Object := ⟨"artifacts".toList, "a?b#c/plan".toList⟩
    S3Object.parse "s3://artifacts/a%3Fb%23c/plan".toList = some o ∧ S3Object.parse o.text = some o ∧
      S3Version.parse (o.versioned "1&2%".toList).text = some (o.versioned "1&2%".toList) := by
  have hread : S3Object.parse "s3://artifacts/a%3Fb%23c/plan".toList = some ⟨"artifacts".toList, "a?b#c/plan".toList⟩ := by
    decide +kernel
  obtain ⟨hobject, -⟩ := uris_read_again "s3://artifacts/a%3Fb%23c/plan".toList
  obtain ⟨hagain, hversions⟩ := hobject _ hread
  exact ⟨hread, hagain, hversions _ (by decide)⟩

end Openporch.Cloud
