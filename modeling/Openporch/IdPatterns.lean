import Openporch.Ids
import Openporch.Lib.Regex

/-!
# The published patterns of the identifiers

`OBJECT_ID_PATTERN` and `RESOURCE_TYPE_PATTERN` of `crates/core/src/ids.rs`, against the validators.
-/

namespace Openporch
open Patterns (Regex)
open Patterns.Regex List

def isIdChar (c : Char) : Bool := isLowerAlnum c || c = '-'

/-- `[a-z0-9]+(?:-[a-z0-9]+)*` -/
def objectIdPattern : Regex Char :=
  .seq (.rep (.one isLowerAlnum) 1 none) (.rep (.seq (.one (· = '-')) (.rep (.one isLowerAlnum) 1 none)) 0 none)

/-- `[a-z0-9](?:[a-z0-9-]{0,48}[a-z0-9])?` -/
def typeNamePattern : Regex Char :=
  .seq (.one isLowerAlnum) (.rep (.seq (.rep (.one isIdChar) 0 (some 48)) (.one isLowerAlnum)) 0 (some 1))

/-- `(?:(?=[a-z0-9-]{2,50}/)[a-z0-9]+(?:-[a-z0-9]+)*/)?`, and then the name. -/
def resourceTypePattern : Regex Char :=
  .seq (.rep (.seq (.ahead (.seq (.rep (.one isIdChar) 2 (some 50)) (.one (· = '/'))))
    (.seq objectIdPattern (.one (· = '/')))) 0 (some 1)) typeNamePattern

/-- Groups of letters and digits with single hyphens between them, read from the left. -/
inductive IdBody : List Char → Prop where
  | one {a} (ha : isLowerAlnum a = true) : IdBody [a]
  | cons {a w} (ha : isLowerAlnum a = true) (h : IdBody w) : IdBody (a :: w)
  | dash {a w} (ha : isLowerAlnum a = true) (h : IdBody w) : IdBody (a :: '-' :: w)

variable {w s t : List Char}

theorem ne_dash {c : Char} (h : isLowerAlnum c = true) : c ≠ '-' := by
  rintro rfl
  exact absurd h (by decide)

theorem IdBody.steps {n : Nat} (hne : w ≠ []) (hw : w.all isLowerAlnum = true)
    (h : Steps (Regex.seq (.one (· = '-')) (.rep (.one isLowerAlnum) 1 none)).Matches n s t) :
    ∃ x, IdBody x ∧ w ++ s = x ++ t := by
  -- The groups that follow, from the last one; each is put after what is on its left.
  induction n generalizing w s with
  | zero =>
    obtain rfl : s = t := h
    refine ⟨w, ?_, rfl⟩
    induction w with
    | nil => exact absurd rfl hne
    | cons a w ih =>
      rw [all_cons, Bool.and_eq_true] at hw
      rcases w with _ | ⟨b, w⟩
      · exact .one hw.1
      · exact .cons hw.1 (ih (by simp) hw.2)
  | succ n ih =>
    obtain ⟨u, ⟨v, ⟨c, hc, rfl⟩, hv⟩, hs⟩ := h
    obtain rfl : c = '-' := by simpa using hc
    obtain ⟨w', hl, -, hw', rfl⟩ := matches_class.mp hv
    obtain ⟨x, hx, heq⟩ := ih (ne_nil_of_length_pos (by omega)) hw' hs
    refine ⟨w ++ '-' :: x, ?_, by simp [heq]⟩
    clear heq
    induction w with
    | nil => exact absurd rfl hne
    | cons a w ih =>
      rw [all_cons, Bool.and_eq_true] at hw
      rcases w with _ | ⟨b, w⟩
      · exact .dash hw.1 hx
      · exact .cons hw.1 (ih (by simp) hw.2)

theorem IdBody.matched (h : IdBody w) (t : List Char) : objectIdPattern.Matches (w ++ t) t := by
  induction h with
  | @one a ha => exact ⟨t, matches_class.mpr ⟨[a], by simp, by simp, by simpa using ha, rfl⟩, 0, by simp, by simp, rfl⟩
  | @cons a w ha _ ih =>
    obtain ⟨u, hu, hrest⟩ := ih
    obtain ⟨x, hl, -, hx, heq⟩ := matches_class.mp hu
    exact ⟨u, matches_class.mpr ⟨a :: x, by simp, by simp, by simp [ha, hx], by simp [heq]⟩, hrest⟩
  | @dash a w ha _ ih =>
    obtain ⟨u, hu, n, -, -, hs⟩ := ih
    refine ⟨'-' :: (w ++ t), matches_class.mpr ⟨[a], by simp, by simp, by simpa using ha, rfl⟩, n + 1, by simp, by simp, ?_⟩
    exact ⟨u, ⟨w ++ t, ⟨'-', by simp, rfl⟩, hu⟩, hs⟩

theorem objectIdPattern_matches : objectIdPattern.Matches s t ↔ ∃ w, IdBody w ∧ s = w ++ t := by
  constructor
  · rintro ⟨u, hu, n, -, -, hs⟩
    obtain ⟨w, hl, -, hw, rfl⟩ := matches_class.mp hu
    exact IdBody.steps (ne_nil_of_length_pos (by omega)) hw hs
  · rintro ⟨w, hw, rfl⟩
    exact hw.matched t

theorem IdBody.of_windows {a : Char} (ha : isLowerAlnum a = true) (hlast : (a :: w).getLast?.all isLowerAlnum = true)
    (hw : idWindows (a :: w) = true) : IdBody (a :: w) := by
  induction hn : w.length using Nat.strongRecOn generalizing a w with
  | _ n ih =>
    rcases w with _ | ⟨b, w⟩
    · exact .one ha
    · simp only [idWindows, Bool.and_eq_true, Bool.or_eq_true, decide_eq_true_eq] at hw
      obtain ⟨⟨-, hb⟩, hrest⟩ := hw
      rcases hb with hb | rfl
      · exact .cons ha (ih w.length (by simp at hn; omega) hb (by simpa using hlast) hrest rfl)
      · rcases w with _ | ⟨c, w⟩
        · exact absurd (by simpa using hlast) (by decide : ¬isLowerAlnum '-' = true)
        · simp only [idWindows, Bool.and_eq_true, Bool.or_eq_true, decide_eq_true_eq] at hrest
          obtain ⟨⟨⟨hdash, -⟩, hc⟩, hrest⟩ := hrest
          have hc : isLowerAlnum c = true := hc.resolve_right fun h => by simp [h] at hdash
          exact .dash ha (ih w.length (by simp at hn; omega) hc (by simpa using hlast) hrest rfl)

theorem IdBody.windows (h : IdBody w) :
    (∃ a v, w = a :: v ∧ isLowerAlnum a = true) ∧ w.getLast?.all isLowerAlnum = true ∧ idWindows w = true := by
  induction h with
  | @one a ha => exact ⟨⟨a, [], rfl, ha⟩, by simpa using ha, rfl⟩
  | @cons a w ha _ ih =>
    obtain ⟨⟨b, v, rfl, hb⟩, hlast, hw⟩ := ih
    exact ⟨⟨a, b :: v, rfl, ha⟩, by simpa using hlast, by simp [idWindows, ha, hb, hw, ne_dash ha]⟩
  | @dash a w ha _ ih =>
    obtain ⟨⟨b, v, rfl, hb⟩, hlast, hw⟩ := ih
    exact ⟨⟨a, '-' :: b :: v, rfl, ha⟩, by simpa using hlast, by simp [idWindows, ha, hb, hw, ne_dash ha, ne_dash hb]⟩

theorem isValidObjectIdChars_iff : isValidObjectIdChars w = true ↔ (2 ≤ w.length ∧ w.length ≤ 50) ∧ IdBody w := by
  simp only [isValidObjectIdChars, Bool.and_eq_true, decide_eq_true_eq, and_assoc]
  refine and_congr_right fun hlen => and_congr_right fun _ => ?_
  constructor
  · rintro ⟨hhead, hlast, hw⟩
    rcases w with _ | ⟨a, w⟩
    · simp at hlen
    · exact .of_windows (by simpa using hhead) hlast hw
  · intro h
    obtain ⟨⟨a, v, rfl, ha⟩, hlast, hw⟩ := h.windows
    exact ⟨by simpa using ha, hlast, hw⟩

theorem isIdChar_of_alnum {c : Char} (h : isLowerAlnum c = true) : isIdChar c = true := by
  rw [isIdChar, h, Bool.true_or]

theorem alnum_of_ne_dash {c : Char} (h : isIdChar c = true) (hne : c ≠ '-') : isLowerAlnum c = true := by
  simpa [isIdChar, hne] using h

theorem slash_not_mem (h : w.all isIdChar = true) : '/' ∉ w :=
  fun hmem => absurd (all_eq_true.mp h _ hmem) (by decide)

theorem IdBody.all (h : IdBody w) : w.all isIdChar = true := by
  induction h with
  | one ha => simp [isIdChar_of_alnum ha]
  | cons ha _ ih => simp [isIdChar_of_alnum ha, ih]
  | dash ha _ ih => simp [isIdChar_of_alnum ha, ih, show isIdChar '-' = true from rfl]

theorem isTypeNameChars_iff : isTypeNameChars s = true
    ↔ (s ≠ [] ∧ s.length ≤ 50) ∧ s.all isIdChar = true ∧ s.head? ≠ some '-' ∧ s.getLast? ≠ some '-' := by
  simp only [isTypeNameChars, Bool.and_eq_true, bne_iff_ne, decide_eq_true_eq, and_assoc, Bool.not_eq_true',
    isEmpty_eq_false_iff]
  rfl

theorem typeNamePattern_matches : typeNamePattern.Matches s [] ↔ isTypeNameChars s = true := by
  rw [isTypeNameChars_iff]
  constructor
  · rintro ⟨u, ⟨c, hc, rfl⟩, hu⟩
    rcases matches_opt.mp hu with rfl | ⟨v, hv, d, hd, rfl⟩
    · exact ⟨by simp, by simp [isIdChar_of_alnum hc], by simpa using ne_dash hc, by simpa using ne_dash hc⟩
    · obtain ⟨m, -, hlen, hm, rfl⟩ := matches_class.mp hv
      have hlen := hlen 48 rfl
      refine ⟨⟨by simp, by simp; omega⟩, ?_, by simpa using ne_dash hc, ?_⟩
      · rw [all_cons, all_append, hm]
        simp [isIdChar_of_alnum hc, isIdChar_of_alnum hd]
      · rw [← cons_append, getLast?_concat]
        simpa using ne_dash hd
  · rintro ⟨⟨hne, hlen⟩, hall, hhead, hlast⟩
    rcases s with _ | ⟨c, u⟩
    · exact absurd rfl hne
    · rw [all_cons, Bool.and_eq_true] at hall
      refine ⟨u, ⟨c, alnum_of_ne_dash hall.1 (by simpa using hhead), rfl⟩, matches_opt.mpr ?_⟩
      rcases u.eq_nil_or_concat with rfl | ⟨m, d, rfl⟩
      · exact .inl rfl
      · rw [concat_eq_append] at hall hlast hlen ⊢
        rw [← cons_append, getLast?_concat] at hlast
        simp only [all_append, Bool.and_eq_true, all_cons, all_nil, and_true] at hall
        simp only [length_cons, length_append, length_nil] at hlen
        refine .inr ⟨[d], matches_class.mpr ⟨m, by simp, ?_, hall.2.1, rfl⟩, d, ?_, rfl⟩
        · intro n hn
          cases hn
          omega
        · exact alnum_of_ne_dash hall.2.2 (by simpa using hlast)

theorem resourceTypePattern_matches : resourceTypePattern.Matches s [] ↔ typeNamePattern.Matches s []
    ∨ ∃ org name, s = org ++ '/' :: name ∧ isValidObjectIdChars org = true ∧ typeNamePattern.Matches name [] := by
  constructor
  · rintro ⟨name, hopt, hname⟩
    rcases matches_opt.mp hopt with rfl | ⟨_, ⟨rfl, u, v, hv, c, hc, rfl⟩, _, horg, d, hd, rfl⟩
    · exact .inl hname
    · obtain ⟨k, hmin, hmax, hk, rfl⟩ := matches_class.mp hv
      obtain ⟨org, hbody, heq⟩ := objectIdPattern_matches.mp horg
      obtain rfl : c = '/' := by simpa using hc
      obtain rfl : d = '/' := by simpa using hd
      have hfirst := splitOnce_append (slash_not_mem hk) u
      rw [heq, splitOnce_append (slash_not_mem hbody.all), Option.some.injEq, Prod.mk.injEq] at hfirst
      obtain ⟨rfl, -⟩ := hfirst
      exact .inr ⟨org, name, heq, isValidObjectIdChars_iff.mpr ⟨⟨hmin, hmax 50 rfl⟩, hbody⟩, hname⟩
  · rintro (h | ⟨org, name, rfl, horg, hname⟩)
    · exact ⟨s, matches_opt.mpr (.inl rfl), h⟩
    · obtain ⟨⟨hmin, hmax⟩, hbody⟩ := isValidObjectIdChars_iff.mp horg
      refine ⟨name, matches_opt.mpr (.inr ⟨_, ⟨rfl, name, '/' :: name, matches_class.mpr ?_, '/', by simp, rfl⟩, ?_⟩), hname⟩
      · exact ⟨org, hmin, by simpa using hmax, hbody.all, rfl⟩
      · exact ⟨'/' :: name, hbody.matched _, '/', by simp, rfl⟩

theorem isResourceType_iff (s : String) : isResourceType s = true ↔ resourceTypePattern.Matches s.toList [] := by
  rw [resourceTypePattern_matches, typeNamePattern_matches, isResourceType]
  constructor
  · intro h
    split at h
    · rename_i org name hsplit
      rw [Bool.and_eq_true] at h
      exact .inr ⟨org, name, splitOnce_eq hsplit, h.1, typeNamePattern_matches.mpr h.2⟩
    · exact .inl h
  · rintro (h | ⟨org, name, heq, horg, hname⟩)
    · have hslash := slash_not_mem (isTypeNameChars_iff.mp h).2.1
      cases hsplit : splitOnce '/' s.toList with
      | none => exact h
      | some parts => exact absurd (by rw [splitOnce_eq hsplit]; simp) hslash
    · rw [heq, splitOnce_append (slash_not_mem (isValidObjectIdChars_iff.mp horg).2.all)]
      simp [horg, typeNamePattern_matches.mp hname]

/-- The validators accept exactly the published language. -/
theorem validators_published (s : String) :
    (isValidObjectId s = true ↔ (2 ≤ s.length ∧ s.length ≤ 50) ∧ objectIdPattern.Matches s.toList []) ∧
    ((ResourceTypeId.new s).isOk = true ↔ s.length ≤ 101 ∧ resourceTypePattern.Matches s.toList []) := by
  constructor
  · rw [isValidObjectId, isValidObjectIdChars_iff, objectIdPattern_matches, String.length_toList]
    simp
  · rw [← isResourceType_iff, ResourceTypeId.new]
    split
    · rename_i h
      have hlen := (ResourceTypeId.chars_spec ⟨s, h⟩).2.2
      rw [String.length_toList] at hlen
      simp [h, hlen, Except.isOk, Except.toBool]
    · rename_i h
      simp [h, Except.isOk, Except.toBool]

end Openporch
