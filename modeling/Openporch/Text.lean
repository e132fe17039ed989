import Mathlib.Algebra.Group.Int.Defs
import Mathlib.Algebra.Group.Nat.Defs

/-!
# Strings

The methods of `str` that the crates use, over lists of characters.
-/

namespace Openporch
open List

/-- `char::is_whitespace`. -/
def isWhitespace (c : Char) : Bool :=
  (9 ≤ c.toNat && c.toNat ≤ 13) || c.toNat = 32 || c.toNat = 0x85 || c.toNat = 0xA0 || c.toNat = 0x1680
    || (0x2000 ≤ c.toNat && c.toNat ≤ 0x200A) || c.toNat = 0x2028 || c.toNat = 0x2029 || c.toNat = 0x202F
    || c.toNat = 0x205F || c.toNat = 0x3000

def trim (s : List Char) : List Char :=
  ((s.dropWhile isWhitespace).reverse.dropWhile isWhitespace).reverse

/-- `str::parse::<u64>`, which accepts a leading `+`. -/
def parseU64 (s : List Char) : Option Nat :=
  let digits := match s with
    | '+' :: rest => rest
    | s => s
  if digits.isEmpty || !digits.all Char.isDigit then none
  else
    let n := digits.foldl (fun n c => n * 10 + (c.toNat - '0'.toNat)) 0
    if n < 2 ^ 64 then some n else none

def parseDigits (digits : List Char) : Option Nat :=
  if digits.isEmpty || !digits.all Char.isDigit then none
  else some (digits.foldl (fun n c => n * 10 + (c.toNat - '0'.toNat)) 0)

/-- What `str::parse` reads where it reads no minus sign, before the range is checked. -/
def parseUnsigned (s : List Char) : Option Nat :=
  parseDigits (match s with
    | '+' :: rest => rest
    | s => s)

theorem parseU64_eq (s : List Char) : parseU64 s = (parseUnsigned s).filter (· < 2 ^ 64) := by
  unfold parseU64 parseUnsigned parseDigits
  dsimp only
  split
  · split <;> simp [Option.filter]
  · split <;> simp [Option.filter]

/-- The numbers an `i64` holds. -/
def IsI64 (n : Int) : Prop := -2 ^ 63 ≤ n ∧ n < 2 ^ 63

instance (n : Int) : Decidable (IsI64 n) := inferInstanceAs (Decidable (_ ∧ _))

/-- `str::parse::<i64>`. -/
def parseI64 (s : List Char) : Option Int :=
  Option.filter IsI64 (match s with
    | '-' :: rest => (parseDigits rest).map fun n => -Int.ofNat n
    | s => (parseUnsigned s).map Int.ofNat)

def stripPrefix (pre s : List Char) : Option (List Char) :=
  if pre.isPrefixOf s then some (s.drop pre.length) else none

def stripSuffix (suf s : List Char) : Option (List Char) :=
  if suf.isSuffixOf s then some (s.take (s.length - suf.length)) else none

variable {pre s sep a b : List Char}

theorem stripPrefix_eq_some {rest : List Char} : stripPrefix pre s = some rest ↔ s = pre ++ rest := by
  unfold stripPrefix
  constructor
  · intro h
    split at h
    · rename_i hpre
      obtain ⟨t, rfl⟩ := isPrefixOf_iff_prefix.1 hpre
      cases h
      simp
    · cases h
  · rintro rfl
    simp

/-- `str::contains`. -/
def containsText (part : List Char) : List Char → Bool
  | [] => part.isEmpty
  | c :: rest => part.isPrefixOf (c :: rest) || containsText part rest

theorem containsText_iff {part : List Char} : containsText part s = true ↔ part <:+: s := by
  induction s with
  | nil => simp [containsText]
  | cons c s ih => simp [containsText, ih, infix_cons_iff]

/-- `split_once` at a longer separator: the text before and after its first occurrence. -/
def splitOnceAt (sep : List Char) : List Char → Option (List Char × List Char)
  | [] => if sep.isEmpty then some ([], []) else none
  | c :: rest =>
    match stripPrefix sep (c :: rest) with
    | some after => some ([], after)
    | none => (splitOnceAt sep rest).map fun (a, b) => (c :: a, b)

/-- `rsplit_once`: the text before and after the last occurrence. -/
def rsplitOnceAt (sep s : List Char) : Option (List Char × List Char) :=
  (splitOnceAt sep.reverse s.reverse).map fun (after, before) => (before.reverse, after.reverse)

theorem stripPrefix_eq_none : stripPrefix pre s = none ↔ ¬ pre <+: s := by
  rw [Option.eq_none_iff_forall_ne_some]
  simp only [ne_eq, stripPrefix_eq_some]
  exact ⟨fun h ⟨rest, hrest⟩ => h rest hrest.symm, fun h rest hrest => h ⟨rest, hrest.symm⟩⟩

theorem stripSuffix_append (suf s : List Char) : stripSuffix suf (s ++ suf) = some s := by
  unfold stripSuffix
  simp

theorem splitOnceAt_eq (h : splitOnceAt sep s = some (a, b)) : s = a ++ sep ++ b := by
  induction s generalizing a with
  | nil =>
    unfold splitOnceAt at h
    split at h
    · rename_i hsep
      cases h
      rw [List.isEmpty_iff.1 hsep]
      rfl
    · cases h
  | cons c s ih =>
    unfold splitOnceAt at h
    split at h
    · rename_i after hafter
      cases h
      exact stripPrefix_eq_some.1 hafter
    · obtain ⟨⟨a', b'⟩, hsplit, heq⟩ := Option.map_eq_some_iff.1 h
      cases heq
      rw [ih hsplit]
      rfl

theorem splitOnceAt_append {c : Char} (ha : c ∉ a) (sep b : List Char) :
    splitOnceAt (c :: sep) (a ++ c :: sep ++ b) = some (a, b) := by
  induction a with
  | nil =>
    have hstrip : stripPrefix (c :: sep) (c :: (sep ++ b)) = some b := stripPrefix_eq_some.2 rfl
    rw [nil_append, cons_append, splitOnceAt, hstrip]
  | cons x a ih =>
    rw [mem_cons, not_or] at ha
    have hstrip : stripPrefix (c :: sep) (x :: (a ++ c :: sep ++ b)) = none := by
      rw [stripPrefix_eq_none]
      exact fun h => ha.1 (cons_prefix_cons.1 h).1
    rw [cons_append, cons_append, splitOnceAt, hstrip, ih ha.2]
    rfl

end Openporch
