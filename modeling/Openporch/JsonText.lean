import Openporch.Json
import Openporch.Lib.Code
import Openporch.Text
import Mathlib.Tactic.Linarith
import Mathlib.Tactic.Ring

/-!
# The text of a value determines it

The compact text of a JSON value, followed by anything that does not go on a number, is read in one way
(`Json.chars_reads`); so two values with one text are one value.
-/

namespace Openporch
open Code List

def layout (whole : List Char) (frac : Option (List Char)) (exp : Option Int) : List Char :=
  whole ++ (frac.elim [] ('.' :: ·) ++ exp.elim [] fun n => 'e' :: exponentChars n)

def Digits (ds : List Char) : Prop := ∀ c ∈ ds, c.isDigit = true

theorem digits_toString (n : Nat) : Digits (toString n).toList := by
  intro c hc
  rw [show (toString n).toList = Nat.toDigits 10 n from Nat.toList_repr] at hc
  exact Nat.isDigit_of_mem_toDigits (by decide) (by decide) hc

variable {ds : List Char} {n : Int} {c : Char}

theorem digits_append {es : List Char} (hd : Digits ds) (he : Digits es) : Digits (ds ++ es) := by
  intro c hc
  rcases mem_append.1 hc with hc | hc
  · exact hd c hc
  · exact he c hc

theorem digits_zeros (n : Nat) : Digits (List.replicate n '0') := by
  intro c hc
  rw [eq_of_mem_replicate hc]
  rfl

theorem toList_toString (n : Nat) : (toString n).toList = Nat.toDigits 10 n := Nat.toList_repr

theorem toString_head (n : Nat) : ∃ c t, (toString n).toList = c :: t ∧ c.isDigit = true := by
  have hne : (toString n).toList ≠ [] := toList_toString n ▸ Nat.toDigits_ne_nil
  obtain ⟨c, t, h⟩ := exists_cons_of_ne_nil hne
  exact ⟨c, t, h, digits_toString n c (by rw [h]; exact mem_cons_self)⟩

theorem parseDigits_toString (n : Nat) : parseDigits (toString n).toList = some n := by
  have hvalue : (toString n).toList.foldl (fun n c => n * 10 + (c.toNat - '0'.toNat)) 0 = n := by
    have h := Nat.ofDigitChars_ten_toDigits (n := n)
    rw [← toList_toString, Nat.ofDigitChars_eq_foldl] at h
    simpa [Nat.mul_comm] using h
  obtain ⟨c, t, htext, hc⟩ := toString_head n
  have hall : (toString n).toList.all Char.isDigit = true := all_eq_true.2 (digits_toString n)
  rw [htext] at hvalue hall ⊢
  unfold parseDigits
  rw [hvalue, hall]
  rfl

theorem parseUnsigned_toString (n : Nat) : parseUnsigned (toString n).toList = some n := by
  have h := parseDigits_toString n
  obtain ⟨c, t, htext, hc⟩ := toString_head n
  rw [htext] at h ⊢
  unfold parseUnsigned
  split
  · -- the text starts with a digit
    rename_i heq
    cases heq
    cases hc
  · exact h

theorem toString_nat_inj {m n : Nat} (h : (toString m).toList = (toString n).toList) : m = n := by
  rw [toList_toString, toList_toString] at h
  rw [← Nat.ofDigitChars_ten_toDigits (n := m), h, Nat.ofDigitChars_ten_toDigits]

theorem toList_negSucc (n : Nat) : (toString (Int.negSucc n)).toList = '-' :: (toString (n + 1)).toList := by
  change ("-" ++ toString (n + 1)).toList = _
  simp

theorem parseU64_toString {i : Nat} (hi : i < 2 ^ 64) : parseU64 (toString i).toList = some i := by
  rw [parseU64_eq, parseUnsigned_toString, Option.filter_some, if_pos (by simpa using hi)]

theorem parseI64_toString (hn : IsI64 n) : parseI64 (toString n).toList = some n := by
  cases n with
  | ofNat a =>
    have hread := parseUnsigned_toString a
    obtain ⟨c, t, htext, hc⟩ := toString_head a
    rw [htext] at hread
    rw [show toString (Int.ofNat a) = toString a from rfl, htext]
    unfold parseI64
    split
    · rename_i heq
      cases heq
      cases hc
    · rw [hread, Option.map_some, Option.filter_some, if_pos (decide_eq_true hn)]
  | negSucc a =>
    rw [toList_negSucc, parseI64, parseDigits_toString, Option.map_some, Option.filter_some]
    exact if_pos (decide_eq_true hn)

theorem mem_toString_int (h : c ∈ (toString n).toList) : c = '-' ∨ c.isDigit = true := by
  cases n with
  | ofNat a => exact .inr (digits_toString a c h)
  | negSucc a =>
    rw [toList_negSucc] at h
    rcases mem_cons.1 h with h | h
    · exact .inl h
    · exact .inr (digits_toString _ c h)

theorem length_toString_le {n : Nat} {k : Nat} (hk : 0 < k) (hn : n < 10 ^ k) : (toString n).toList.length ≤ k := by
  rw [toList_toString]
  exact (Nat.length_toDigits_le_iff (by decide) hk).2 hn

theorem length_toString_i64 (hn : IsI64 n) : (toString n).toList.length ≤ 20 := by
  obtain ⟨hlow, hhigh⟩ := hn
  cases n with
  | ofNat a =>
    have ha : (a : Int) < 2 ^ 63 := hhigh
    exact length_toString_le (k := 20) (by decide) (by omega)
  | negSucc a =>
    have h := length_toString_le (n := a + 1) (k := 19) (by decide) (by omega)
    rw [toList_negSucc, length_cons]
    omega

theorem exponentChars_inj {m : Int} (h : exponentChars m = exponentChars n) : m = n := by
  cases m <;> cases n <;> obtain ⟨hsign, hdigits⟩ := List.cons.inj h
  · rw [toString_nat_inj hdigits]
  · cases hsign
  · cases hsign
  · rw [Nat.succ.inj (toString_nat_inj hdigits)]

theorem layout_inj {i i' : List Char} {f f'} {e e' : Option Int} (hi : Digits i) (hi' : Digits i')
    (hf : ∀ d ∈ f, Digits d) (hf' : ∀ d ∈ f', Digits d) (h : layout i f e = layout i' f' e') :
    i = i' ∧ f = f' ∧ e = e' := by
  have hexp : ∀ e : Option Int, Stops Char.isDigit (e.elim [] fun n => 'e' :: exponentChars n) := by
    rintro (_ | n)
    · exact stops_nil _
    · exact stops_cons rfl _
  have hfrac : ∀ (f : Option (List Char)) (e : Option Int),
      Stops Char.isDigit (f.elim [] ('.' :: ·) ++ e.elim [] fun n => 'e' :: exponentChars n) := by
    rintro (_ | d) e
    · exact hexp e
    · exact stops_cons rfl _
  obtain ⟨rfl, htail⟩ := append_inj_of_stops hi hi' (hfrac f e) (hfrac f' e') h
  have hpoint : ∀ (d : List Char) (e e' : Option Int), '.' :: d ++ (e.elim [] fun n => 'e' :: exponentChars n) ≠
      e'.elim [] fun n => 'e' :: exponentChars n := by
    rintro d e (_ | n) <;> simp
  have hexps : ∀ e e' : Option Int, (e.elim [] fun n => 'e' :: exponentChars n) =
      (e'.elim [] fun n => 'e' :: exponentChars n) → e = e' := by
    rintro (_ | n) (_ | n') h
    · rfl
    · cases h
    · cases h
    · rw [exponentChars_inj (List.cons.inj h).2]
  refine ⟨rfl, ?_⟩
  match f, f', hf, hf', htail with
  | none, none, _, _, h => exact ⟨rfl, hexps e e' h⟩
  | some d, none, _, _, h => exact absurd h (hpoint d e e')
  | none, some d', _, _, h => exact absurd h.symm (hpoint d' e' e)
  | some d, some d', hf, hf', h =>
    obtain ⟨hd, h⟩ := append_inj_of_stops (hf d rfl) (hf' d' rfl) (hexp e) (hexp e') (List.cons.inj h).2
    exact ⟨by rw [hd], hexps e e' h⟩

theorem floatChars_layout (hds : Digits ds) (hne : ds ≠ []) (k : Int) :
    ∃ i f e, floatChars ds k = layout i f e ∧ (Digits i ∧ i ≠ []) ∧ (∀ d ∈ f, Digits d) ∧ (f.isSome ∨ e.isSome) ∧
      ∃ a : Nat, Nat.ofDigitChars 10 (i ++ f.getD []) 0 = Nat.ofDigitChars 10 ds 0 * 10 ^ a ∧
        e.getD 0 - ((f.getD []).length : Int) = k - a := by
  have hlen : 0 < ds.length := length_pos_of_ne_nil hne
  have htake : ∀ n, Digits (ds.take n) := fun n c hc => hds c (mem_of_mem_take hc)
  have hdrop : ∀ n, Digits (ds.drop n) := fun n c hc => hds c (mem_of_mem_drop hc)
  unfold floatChars
  dsimp only
  split
  · -- whole numbers end in `.0`
    refine ⟨ds ++ List.replicate k.toNat '0', some ['0'], none, by simp [layout],
      ⟨digits_append hds (digits_zeros _), by simp [hne]⟩,
      by simpa using digits_zeros 1, by simp, k.toNat + 1, ?_, ?_⟩
    · simp only [Option.getD_some, Nat.ofDigitChars_append, Nat.ofDigitChars_replicate_zero]
      rw [show ['0'] = List.replicate 1 '0' from rfl, Nat.ofDigitChars_replicate_zero]
      ring
    · simp
      omega
  · split
    · -- the point is among the digits
      refine ⟨ds.take (ds.length + k).toNat, some (ds.drop (ds.length + k).toNat), none, by simp [layout],
        ⟨htake _, ?_⟩, by simpa using hdrop _, by simp, 0, by simp, ?_⟩
      · intro hnil
        rcases take_eq_nil_iff.1 hnil with hzero | hnil
        · omega
        · exact hne hnil
      · simp
        omega
    · split
      · -- the point is before the digits
        refine ⟨['0'], some (List.replicate (-(ds.length + k)).toNat '0' ++ ds), none, by simp [layout],
          ⟨digits_zeros 1, by simp⟩,
          by simpa using digits_append (digits_zeros _) hds, by simp, 0, ?_, ?_⟩
        · simp only [Option.getD_some, Nat.ofDigitChars_append, Nat.ofDigitChars_replicate_zero]
          rw [show ['0'] = List.replicate 1 '0' from rfl, Nat.ofDigitChars_replicate_zero]
          simp
        · simp
          omega
      · split
        · -- one digit and an exponent
          rename_i hone
          refine ⟨ds, none, some (ds.length + k - 1), by simp [layout], ⟨hds, hne⟩, by simp, by simp, 0, by simp, ?_⟩
          simp
          omega
        · -- the point after the first digit, and an exponent
          refine ⟨ds.take 1, some (ds.drop 1), some (ds.length + k - 1), by simp [layout],
            ⟨htake _, by simp [hne]⟩, by simpa using hdrop 1, by simp, 0, ?_, ?_⟩
          · rw [Option.getD_some, take_append_drop]
            simp
          · simp
            omega

variable {k k' : Int} {d d' : Nat} {l : List Char}

theorem shortest_inj {a a' : Nat} (hd : d % 10 ≠ 0 ∨ d = 0 ∧ k = 0) (hd' : d' % 10 ≠ 0 ∨ d' = 0 ∧ k' = 0)
    (hvalue : d * 10 ^ a = d' * 10 ^ a') (hplace : k - a = k' - a') : d = d' ∧ k = k' := by
  have hle : ∀ {d d' a a' : Nat}, d % 10 ≠ 0 → a ≤ a' → d * 10 ^ a = d' * 10 ^ a' → a = a' ∧ d = d' := by
    intro d d' a a' hd hle hvalue
    obtain ⟨b, rfl⟩ := Nat.exists_eq_add_of_le hle
    have hd' : d = d' * 10 ^ b := by
      have hpos : 0 < 10 ^ a := by positivity
      refine Nat.eq_of_mul_eq_mul_right hpos ?_
      rw [hvalue]
      ring
    cases b with
    | zero => exact ⟨rfl, by simpa using hd'⟩
    | succ b =>
      refine absurd ?_ hd
      rw [hd', pow_succ, ← Nat.mul_assoc, Nat.mul_mod_left]
  have hzero : ∀ {d d' a a' : Nat}, d = 0 → d * 10 ^ a = d' * 10 ^ a' → d' = 0 := by
    rintro d d' a a' rfl hvalue
    have : d' * 10 ^ a' = 0 := by simpa using hvalue.symm
    simpa using this
  rcases hd with hd | ⟨rfl, rfl⟩
  · rcases hd' with hd' | ⟨rfl, rfl⟩
    · rcases Nat.le_total a a' with h | h
      · obtain ⟨rfl, rfl⟩ := hle hd h hvalue
        exact ⟨rfl, by omega⟩
      · obtain ⟨rfl, rfl⟩ := hle hd' h hvalue.symm
        exact ⟨rfl, by omega⟩
    · rw [hzero rfl hvalue.symm] at hd
      exact absurd rfl hd
  · rcases hd' with hd' | ⟨rfl, rfl⟩
    · rw [hzero rfl hvalue] at hd'
      exact absurd rfl hd'
    · exact ⟨rfl, rfl⟩

theorem floatChars_inj (hd : d % 10 ≠ 0 ∨ d = 0 ∧ k = 0) (hd' : d' % 10 ≠ 0 ∨ d' = 0 ∧ k' = 0)
    (h : floatChars (toString d).toList k = floatChars (toString d').toList k') : d = d' ∧ k = k' := by
  have hdigits : ∀ n : Nat, (toString n).toList ≠ [] := fun n => toList_toString n ▸ Nat.toDigits_ne_nil
  have hvalue : ∀ n : Nat, Nat.ofDigitChars 10 (toString n).toList 0 = n := fun n => by
    rw [toList_toString, Nat.ofDigitChars_ten_toDigits]
  obtain ⟨i, f, e, htext, hi, hf, _, a, hsame, hplace⟩ := floatChars_layout (digits_toString d) (hdigits d) k
  obtain ⟨i', f', e', htext', hi', hf', _, a', hsame', hplace'⟩ := floatChars_layout (digits_toString d') (hdigits d') k'
  rw [htext, htext'] at h
  obtain ⟨rfl, rfl, rfl⟩ := layout_inj hi.1 hi'.1 hf hf' h
  refine shortest_inj hd hd' ?_ (hplace.symm.trans hplace')
  rw [← hvalue d, ← hvalue d', ← hsame, hsame']

namespace Number

def isNegative : Number → Bool
  | posInt _ => false
  | negInt _ => true
  | float neg _ _ _ => neg

def isFloat : Number → Bool
  | float _ _ _ _ => true
  | _ => false

def magnitude : Number → List Char
  | posInt n => (toString n).toList
  | negInt n => (toString (n + 1)).toList
  | float _ digits exp _ => floatChars (toString digits).toList exp

theorem chars_eq (n : Number) : n.chars = (if n.isNegative then ['-'] else []) ++ n.magnitude := by
  cases n with
  | posInt n => rfl
  | negInt n => rfl
  | float neg digits exp shortest =>
    cases digits with
    | zero =>
      have hexp : exp = 0 := by simpa using shortest
      subst hexp
      rfl
    | succ d => rfl

theorem magnitude_layout (n : Number) : ∃ i f e, n.magnitude = layout i f e ∧ (Digits i ∧ i ≠ []) ∧
    (∀ d ∈ f, Digits d) ∧ (n.isFloat = true ↔ f.isSome ∨ e.isSome) := by
  have hne : ∀ n : Nat, (toString n).toList ≠ [] := fun n => toList_toString n ▸ Nat.toDigits_ne_nil
  have hint : ∀ n : Nat, (toString n).toList = layout (toString n).toList none none := fun n => by simp [layout]
  cases n with
  | posInt n => exact ⟨_, none, none, hint n, ⟨digits_toString n, hne n⟩, by simp, by simp [isFloat]⟩
  | negInt n => exact ⟨_, none, none, hint (n + 1), ⟨digits_toString _, hne _⟩, by simp, by simp [isFloat]⟩
  | float neg digits exp shortest =>
    obtain ⟨i, f, e, htext, hi, hf, hsome, _⟩ := floatChars_layout (digits_toString digits) (hne digits) exp
    exact ⟨i, f, e, htext, hi, hf, by simpa [isFloat] using hsome⟩

theorem magnitude_head (n : Number) : ∃ c t, n.magnitude = c :: t ∧ c.isDigit = true := by
  obtain ⟨i, f, e, htext, ⟨hi, hne⟩, _⟩ := n.magnitude_layout
  cases i with
  | nil => exact absurd rfl hne
  | cons c i => exact ⟨c, _, htext, hi c (by simp)⟩

theorem chars_injective : Function.Injective chars := by
  intro n m h
  rw [n.chars_eq, m.chars_eq] at h
  have hsign : n.isNegative = m.isNegative ∧ n.magnitude = m.magnitude := by
    obtain ⟨c, t, hn, hc⟩ := n.magnitude_head
    obtain ⟨d, u, hm, hd⟩ := m.magnitude_head
    rw [hn, hm] at h
    cases hneg : n.isNegative <;> cases hneg' : m.isNegative <;>
      simp only [hneg, hneg', if_true, Bool.false_eq_true, if_false, nil_append, cons_append,
        List.cons.injEq, true_and] at h
    · exact ⟨rfl, by rw [hn, hm, h.1, h.2]⟩
    · rw [h.1] at hc
      cases hc
    · rw [← h.1] at hd
      cases hd
    · exact ⟨rfl, by rw [hn, hm, h.1, h.2]⟩
  obtain ⟨hneg, hmag⟩ := hsign
  have hfloat : n.isFloat = m.isFloat := by
    obtain ⟨i, f, e, htext, hi, hf, hn⟩ := n.magnitude_layout
    obtain ⟨i', f', e', htext', hi', hf', hm⟩ := m.magnitude_layout
    rw [htext, htext'] at hmag
    obtain ⟨rfl, rfl, rfl⟩ := layout_inj hi.1 hi'.1 hf hf' hmag
    rw [Bool.eq_iff_iff, hn, hm]
  match n, m, hneg, hfloat, hmag with
  | posInt a, posInt b, _, _, hmag => rw [toString_nat_inj hmag]
  | negInt a, negInt b, _, _, hmag => rw [Nat.succ.inj (toString_nat_inj hmag)]
  | float neg d k hd, float neg' d' k' hd', hneg, _, hmag =>
    obtain ⟨rfl, rfl⟩ := floatChars_inj hd hd' hmag
    cases hneg
    rfl

end Number

def isNumberChar (c : Char) : Bool := c.isDigit || c = '-' || c = '+' || c = '.' || c = 'e'

def Letters (l : List Char) : Prop := ∀ c ∈ l, isNumberChar c = true

theorem letters_nil : Letters [] := fun _ hc => absurd hc not_mem_nil

theorem Letters.cons (hc : isNumberChar c = true) (hl : Letters l) : Letters (c :: l) := by
  intro d hd
  rcases mem_cons.1 hd with rfl | hd
  · exact hc
  · exact hl d hd

theorem Letters.append {m : List Char} (hl : Letters l) (hm : Letters m) : Letters (l ++ m) := by
  intro c hc
  rcases mem_append.1 hc with hc | hc
  · exact hl c hc
  · exact hm c hc

theorem Digits.letters (hds : Digits ds) : Letters ds := fun c hc => by
  simp [isNumberChar, hds c hc]

theorem letters_exponent (e : Int) : Letters (exponentChars e) := by
  cases e <;> exact .cons rfl (digits_toString _).letters

theorem Number.letters_chars (n : Number) : Letters n.chars := by
  obtain ⟨i, f, e, htext, hi, hf, _⟩ := n.magnitude_layout
  rw [n.chars_eq, htext, layout]
  have hsign : Letters (if n.isNegative then ['-'] else []) := by
    split
    · exact .cons rfl letters_nil
    · exact letters_nil
  refine hsign.append (.append hi.1.letters (.append ?_ ?_))
  · cases f with
    | none => exact letters_nil
    | some d => exact .cons rfl (hf d rfl).letters
  · cases e with
    | none => exact letters_nil
    | some e => exact .cons rfl (letters_exponent e)

def hexValue (c : Char) : Nat := "0123456789abcdef".toList.idxOf c

theorem hexValue_hexDigit : ∀ n < 16, hexValue (hexDigit n) = n := by decide

def unescape : List Char → Option (Char × List Char)
  | '\\' :: 'n' :: r => some ('\n', r)
  | '\\' :: 'r' :: r => some ('\r', r)
  | '\\' :: 't' :: r => some ('\t', r)
  | '\\' :: 'b' :: r => some (Char.ofNat 8, r)
  | '\\' :: 'f' :: r => some (Char.ofNat 12, r)
  | '\\' :: 'u' :: '0' :: '0' :: a :: b :: r => some (Char.ofNat (16 * hexValue a + hexValue b), r)
  | '\\' :: c :: r => some (c, r)
  | c :: r => some (c, r)
  | [] => none

theorem unescape_escapeChar (c : Char) (r : List Char) : unescape (escapeChar c ++ r) = some (c, r) := by
  unfold escapeChar
  split
  iterate 5 · rfl
  · rename_i hslash _ _ _
    split
    · rename_i h
      exact congrArg (fun c => some (c, r)) (by rw [← h, Char.ofNat_toNat])
    · split
      · rename_i h
        exact congrArg (fun c => some (c, r)) (by rw [← h, Char.ofNat_toNat])
      · split
        · have hhigh := hexValue_hexDigit (c.toNat / 16) (by omega)
          have hlow := hexValue_hexDigit (c.toNat % 16) (by omega)
          simp only [cons_append, nil_append, unescape, hhigh, hlow, Nat.div_add_mod, Char.ofNat_toNat]
        · rw [singleton_append, unescape.eq_def]
          split <;> simp_all

theorem escapeChar_reads : Reads escapeChar Any := by
  intro a b r s _ _ h
  have hread := unescape_escapeChar a r
  rw [h, unescape_escapeChar, Option.some.injEq, Prod.mk.injEq] at hread
  exact ⟨hread.1.symm, hread.2.symm⟩

theorem escapeChar_ne_nil (c : Char) : escapeChar c ≠ [] := by
  intro h
  have hread := unescape_escapeChar c []
  rw [h] at hread
  cases hread

theorem escapeChar_ne_quote (c : Char) (t : List Char) : escapeChar c ≠ '"' :: t := by
  intro h
  have hread := unescape_escapeChar c []
  rw [h] at hread
  obtain rfl : '"' = c := (Prod.mk.inj (Option.some.inj hread)).1
  cases h

theorem stringChars_reads : Reads stringChars Any := by
  intro a b r s hr hs h
  have htail := (List.cons.inj h).2
  obtain ⟨hab, hrs⟩ := escapeChar_reads.flatMap escapeChar_ne_quote escapeChar_ne_nil a.toList b.toList r s hr hs htail
  exact ⟨String.toList_injective hab, hrs⟩

inductive Kind where
  | null | yes | no | number | string | array | object | other
deriving DecidableEq

def kindOf (c : Char) : Kind :=
  if c = 'n' then .null
  else if c = 't' then .yes
  else if c = 'f' then .no
  else if c = '"' then .string
  else if c = '[' then .array
  else if c = '{' then .object
  else if c.isDigit || c = '-' then .number
  else .other

theorem kindOf_digit (hc : c.isDigit = true) : kindOf c = .number := by
  have hne : ∀ d : Char, d.isDigit = false → c ≠ d := by
    rintro d hd rfl
    rw [hc] at hd
    cases hd
  simp [kindOf, hc, hne]

structure NumberText (w : Number → List Char) : Prop where
  letters : ∀ n, Letters (w n)
  head : ∀ n, ∃ c t, w n = c :: t ∧ kindOf c = .number

theorem numberText_chars : NumberText Number.chars where
  letters := Number.letters_chars
  head n := by
    obtain ⟨c, t, hmag, hc⟩ := n.magnitude_head
    rw [n.chars_eq, hmag]
    cases n.isNegative
    · exact ⟨c, t, rfl, kindOf_digit hc⟩
    · exact ⟨'-', c :: t, rfl, rfl⟩

namespace Json

def kind : Json → Kind
  | .null => .null
  | .bool true => .yes
  | .bool false => .no
  | .num _ => .number
  | .str _ => .string
  | .arr _ => .array
  | .obj _ => .object

mutual

def mapNum (g : Number → Json) : Json → Json
  | .num n => g n
  | .arr items => .arr (mapNumItems g items)
  | .obj fields => .obj (mapNumFields g fields)
  | v => v

def mapNumItems (g : Number → Json) : List Json → List Json
  | [] => []
  | v :: rest => v.mapNum g :: mapNumItems g rest

def mapNumFields (g : Number → Json) : List (String × Json) → List (String × Json)
  | [] => []
  | (k, v) :: rest => (k, v.mapNum g) :: mapNumFields g rest

end

theorem mapNumItems_eq (g : Number → Json) (vs : List Json) : mapNumItems g vs = vs.map (·.mapNum g) := by
  induction vs with
  | nil => rfl
  | cons v vs ih => rw [mapNumItems, ih, map_cons]

theorem mapNumFields_eq (g : Number → Json) (fs : List (String × Json)) :
    mapNumFields g fs = fs.map fun f => (f.1, f.2.mapNum g) := by
  induction fs with
  | nil => rfl
  | cons f fs ih => rw [mapNumFields, ih, map_cons]

theorem mapNum_num (v : Json) : v.mapNum .num = v := by
  induction v with
  | arr items ih => rw [mapNum, mapNumItems_eq, map_congr_left ih, map_id']
  | obj fields ih =>
    have hmap : fields.map (fun f => (f.1, f.2.mapNum .num)) = fields.map id :=
      map_congr_left fun f hf => Prod.ext rfl (ih f hf)
    rw [mapNum, mapNumFields_eq, hmap, map_id]
  | _ => rfl

section Write
variable {w : Number → List Char} (hw : NumberText w)
include hw

theorem write_kind (v : Json) : ∃ c t, v.write w = c :: t ∧ kindOf c = v.kind := by
  cases v with
  | bool b => cases b <;> exact ⟨_, _, rfl, rfl⟩
  | num n => exact hw.head n
  | _ => exact ⟨_, _, rfl, rfl⟩

theorem kind_eq {v u : Json} {r s : List Char} (h : v.write w ++ r = u.write w ++ s) : v.kind = u.kind := by
  obtain ⟨c, t, hv, hc⟩ := write_kind hw v
  obtain ⟨d, t', hu, hd⟩ := write_kind hw u
  rw [hv, hu, cons_append, cons_append, List.cons.injEq] at h
  rw [← hc, ← hd, h.1]

theorem write_ne_cons {c : Char} (hc : kindOf c = .other) (v : Json) (r s : List Char) : v.write w ++ r ≠ c :: s := by
  intro h
  obtain ⟨d, t, hv, hd⟩ := write_kind hw v
  rw [hv, cons_append, List.cons.injEq] at h
  rw [h.1, hc] at hd
  cases v with
  | bool b => cases b <;> cases hd
  | _ => cases hd

end Write

theorem stops_tail {stop : Char} (hstop : isNumberChar stop = false) (last : Bool) (rest r : List Char) :
    Stops isNumberChar ((if last then [] else ',' :: rest) ++ stop :: r) := by
  cases last
  · exact stops_cons rfl _
  · exact stops_cons hstop _

theorem tail_inj {α β : Type} {enc : List α → List Char} {f : List α → List β} {stop : Char} {as bs : List α}
    {r s : List Char} (hcomma : ',' ≠ stop)
    (hread : ∀ r s, enc as ++ stop :: r = enc bs ++ stop :: s → f as = f bs ∧ r = s)
    (h : (if as.isEmpty then [] else ',' :: enc as) ++ stop :: r =
      (if bs.isEmpty then [] else ',' :: enc bs) ++ stop :: s) : f as = f bs ∧ r = s := by
  cases as with
  | nil =>
    cases bs with
    | nil => exact ⟨rfl, (List.cons.inj h).2⟩
    | cons b bs => exact absurd (List.cons.inj h).1.symm hcomma
  | cons a as =>
    cases bs with
    | nil => exact absurd (List.cons.inj h).1 hcomma
    | cons b bs => exact hread r s (List.cons.inj h).2

section Reads
variable {w : Number → List Char} {g : Number → Json}

mutual

/-- Values with one text are the same, but for numbers that are written alike. -/
theorem write_reads (hw : NumberText w) (hg : ∀ n m, w n = w m → g n = g m) : (v u : Json) → (r s : List Char) →
    Stops isNumberChar r → Stops isNumberChar s → v.write w ++ r = u.write w ++ s → v.kind = u.kind →
    v.mapNum g = u.mapNum g ∧ r = s
  | .null, .null, _, _, _, _, h, _ | .bool true, .bool true, _, _, _, _, h, _ | .bool false, .bool false, _, _, _, _, h, _ =>
    ⟨rfl, append_cancel_left h⟩
  | .num n, .num m, _, _, hr, hs, h, _ => by
    obtain ⟨hnm, hrs⟩ := append_inj_of_stops (hw.letters n) (hw.letters m) hr hs h
    exact ⟨hg n m hnm, hrs⟩
  | .str a, .str b, r, s, _, _, h, _ => by
    obtain ⟨rfl, hrs⟩ := stringChars_reads a b r s trivial trivial h
    exact ⟨rfl, hrs⟩
  | .arr items, .arr items', r, s, _, _, h, _ => by
    obtain ⟨hitems, hrs⟩ := writeItems_reads hw hg items items' r s (by simpa [write] using h)
    exact ⟨congrArg Json.arr hitems, hrs⟩
  | .obj fields, .obj fields', r, s, _, _, h, _ => by
    obtain ⟨hfields, hrs⟩ := writeFields_reads hw hg fields fields' r s (by simpa [write] using h)
    exact ⟨congrArg Json.obj hfields, hrs⟩

theorem writeItems_reads (hw : NumberText w) (hg : ∀ n m, w n = w m → g n = g m) : (vs us : List Json) →
    (r s : List Char) → writeItems w vs ++ ']' :: r = writeItems w us ++ ']' :: s → mapNumItems g vs = mapNumItems g us ∧ r = s
  | [], [], r, s, h => ⟨rfl, (List.cons.inj h).2⟩
  | [], u :: us, r, s, h => by
    rw [writeItems, writeItems, append_assoc] at h
    exact absurd h.symm (write_ne_cons hw rfl u _ _)
  | v :: vs, [], r, s, h => by
    rw [writeItems, writeItems, append_assoc] at h
    exact absurd h (write_ne_cons hw rfl v _ _)
  | v :: vs, u :: us, r, s, h => by
    rw [writeItems, writeItems, append_assoc, append_assoc] at h
    obtain ⟨hvu, htail⟩ := write_reads hw hg v u _ _ (stops_tail rfl _ _ _) (stops_tail rfl _ _ _) h (kind_eq hw h)
    obtain ⟨hrest, hrs⟩ := tail_inj (by decide) (fun r s => writeItems_reads hw hg vs us r s) htail
    exact ⟨by rw [mapNumItems, mapNumItems, hvu, hrest], hrs⟩

theorem writeFields_reads (hw : NumberText w) (hg : ∀ n m, w n = w m → g n = g m) : (fs es : List (String × Json)) →
    (r s : List Char) → writeFields w fs ++ '}' :: r = writeFields w es ++ '}' :: s →
      mapNumFields g fs = mapNumFields g es ∧ r = s
  | [], [], r, s, h => ⟨rfl, (List.cons.inj h).2⟩
  | [], (k, u) :: es, r, s, h => by
    rw [writeFields, writeFields] at h
    cases (List.cons.inj h).1
  | (k, v) :: fs, [], r, s, h => by
    rw [writeFields, writeFields] at h
    cases (List.cons.inj h).1
  | (k, v) :: fs, (l, u) :: es, r, s, h => by
    rw [writeFields, writeFields, append_assoc, append_assoc] at h
    obtain ⟨rfl, hvalue⟩ := stringChars_reads k l _ _ trivial trivial h
    rw [cons_append, cons_append, List.cons.injEq, append_assoc, append_assoc] at hvalue
    obtain ⟨hvu, htail⟩ := write_reads hw hg v u _ _ (stops_tail rfl _ _ _) (stops_tail rfl _ _ _) hvalue.2
      (kind_eq hw hvalue.2)
    obtain ⟨hrest, hrs⟩ := tail_inj (by decide) (fun r s => writeFields_reads hw hg fs es r s) htail
    exact ⟨by rw [mapNumFields, mapNumFields, hvu, hrest], hrs⟩

end

end Reads

theorem chars_kind (v : Json) : ∃ c t, v.chars = c :: t ∧ kindOf c = v.kind := write_kind numberText_chars v

theorem chars_reads : Reads chars (Stops isNumberChar) := by
  intro v u r s hr hs h
  have hread := write_reads numberText_chars (fun n m hnm => congrArg Json.num (Number.chars_injective hnm)) v u r s hr hs h
    (kind_eq numberText_chars h)
  rwa [mapNum_num, mapNum_num] at hread

theorem chars_injective : Function.Injective chars := chars_reads.injective (stops_nil _)

theorem text_injective : Function.Injective text :=
  fun _ _ h => chars_injective (String.ofList_injective h)

end Json

theorem escapeChar_no_newline (c : Char) : '\n' ∉ escapeChar c := by
  unfold escapeChar
  split
  iterate 5 · decide
  · rename_i hnewline _ _
    split
    · decide
    · split
      · decide
      · split
        · have hhex : ∀ n < 16, hexDigit n ≠ '\n' := by decide
          have hhigh := hhex (c.toNat / 16) (by omega)
          have hlow := hhex (c.toNat % 16) (by omega)
          simp [hhigh.symm, hlow.symm]
        · simpa using fun h : '\n' = c => hnewline h.symm

theorem stringChars_no_newline (s : String) : '\n' ∉ stringChars s := by
  simp only [stringChars, cons_append, mem_cons, mem_append, mem_flatMap, not_mem_nil,
    or_false, not_or, not_exists, not_and]
  exact ⟨by decide, fun c _ => escapeChar_no_newline c, by decide⟩

theorem write_no_newline {w} (hw : NumberText w) (v : Json) : '\n' ∉ v.write w := by
  induction v with
  | null => exact show '\n' ∉ "null".toList by decide
  | bool b =>
    cases b with
    | true => exact show '\n' ∉ "true".toList by decide
    | false => exact show '\n' ∉ "false".toList by decide
  | num n =>
    intro h
    cases hw.letters n _ h
  | str s => exact stringChars_no_newline s
  | arr items ih =>
    simp only [Json.write, cons_append, mem_cons, mem_append, not_mem_nil, or_false, not_or]
    refine ⟨by decide, ?_, by decide⟩
    induction items with
    | nil => exact not_mem_nil
    | cons v vs ih' =>
      obtain ⟨hv, ih⟩ := forall_mem_cons.1 ih
      rw [Json.writeItems, mem_append, not_or]
      exact ⟨hv, by split <;> simp [ih' ih]⟩
  | obj fields ih =>
    simp only [Json.write, cons_append, mem_cons, mem_append, not_mem_nil, or_false, not_or]
    refine ⟨by decide, ?_, by decide⟩
    induction fields with
    | nil => exact not_mem_nil
    | cons f fs ih' =>
      obtain ⟨hv, ih⟩ := forall_mem_cons.1 ih
      rw [Json.writeFields, mem_append, mem_cons, mem_append]
      simp only [not_or]
      exact ⟨stringChars_no_newline f.1, by decide, hv, by split <;> simp [ih' ih]⟩

theorem chars_no_newline (v : Json) : '\n' ∉ v.chars := write_no_newline numberText_chars v

end Openporch
