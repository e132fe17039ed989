/-!
# Identifiers

`crates/core/src/ids.rs`: each identifier is a string with a proof that its validator accepts it, so
an invalid one cannot be built. The validators read ASCII only, so they are written over characters.
-/

namespace Openporch
open List

def maxIdLen : Nat := 50

def isLowerAlnum (c : Char) : Bool := ('a' ≤ c && c ≤ 'z') || ('0' ≤ c && c ≤ '9')

/-- The rule of `windows(2)`: characters are alphanumeric or `-`, and no two `-` are adjacent. -/
def idWindows : List Char → Bool
  | a :: b :: rest =>
    (!(a = '-' && b = '-') && (isLowerAlnum a || a = '-') && (isLowerAlnum b || b = '-')) && idWindows (b :: rest)
  | _ => true

def isValidObjectIdChars (b : List Char) : Bool :=
  2 ≤ b.length && b.length ≤ maxIdLen && b.head?.all isLowerAlnum && b.getLast?.all isLowerAlnum && idWindows b

def isValidObjectId (s : String) : Bool := isValidObjectIdChars s.toList

def isTypeNameChars (b : List Char) : Bool :=
  !b.isEmpty && b.length ≤ maxIdLen && b.all (fun c => isLowerAlnum c || c = '-')
    && b.head? != some '-' && b.getLast? != some '-'

/-- `split_once`: the text before and after the first `c`. -/
def splitOnce (c : Char) : List Char → Option (List Char × List Char)
  | [] => none
  | x :: xs => if x = c then some ([], xs) else (splitOnce c xs).map fun (a, b) => (x :: a, b)

def isResourceType (s : String) : Bool :=
  match splitOnce '/' s.toList with
  | some (org, name) => isValidObjectIdChars org && isTypeNameChars name
  | none => isTypeNameChars s.toList

/-- `split`: the pieces between the occurrences of `c`. -/
def splitAll (c : Char) : List Char → List (List Char)
  | [] => [[]]
  | x :: xs =>
    if x = c then [] :: splitAll c xs
    else match splitAll c xs with
      | [] => [[x]]
      | seg :: rest => (x :: seg) :: rest

def isResIdChar (c : Char) : Bool := c.isAlphanum || c = '-' || c = '_'

def isResId (s : String) : Bool :=
  !s.isEmpty && s.length ≤ 255 && (splitAll '.' s.toList).all fun seg => !seg.isEmpty && seg.all isResIdChar

def isHexLower (c : Char) : Bool := ('0' ≤ c && c ≤ '9') || ('a' ≤ c && c ≤ 'f')

def isGuresid (s : String) : Bool := s.toList.length = 32 && s.toList.all isHexLower

/-- An invalid identifier, with the rule it broke. -/
structure IdError where
  kind : String
  value : String
  reason : String
deriving DecidableEq

def IdError.text (e : IdError) : String := "invalid " ++ e.kind ++ " `" ++ e.value ++ "`: " ++ e.reason

def objectIdRule : String :=
  "IDs use lowercase letters, digits and single hyphens, start and end with a letter or digit, and are 2 to 50 " ++
    "characters long"

structure ObjectId where
  text : String
  valid : isValidObjectId text = true
deriving DecidableEq

abbrev OrgId := ObjectId
abbrev AppId := ObjectId
abbrev EnvId := ObjectId
abbrev EnvTypeId := ObjectId
abbrev DefinitionId := ObjectId
abbrev CriterionId := ObjectId
abbrev AccountId := ObjectId
abbrev WorkloadId := ObjectId

def ObjectId.new (kind s : String) : Except IdError ObjectId :=
  if h : isValidObjectId s = true then .ok ⟨s, h⟩ else .error ⟨kind, s, objectIdRule⟩

def AccountId.new : String → Except IdError AccountId := ObjectId.new "cloud account ID"

structure ClassId where
  text : String
  valid : isValidObjectId text = true
deriving DecidableEq

structure ResourceTypeId where
  text : String
  valid : isResourceType text = true
deriving DecidableEq

structure ResId where
  text : String
  valid : isResId text = true
deriving DecidableEq

structure Guresid where
  text : String
  valid : isGuresid text = true
deriving DecidableEq

def ClassId.new (s : String) : Except IdError ClassId :=
  if h : isValidObjectId s = true then .ok ⟨s, h⟩ else .error ⟨"class", s, objectIdRule⟩

def ResourceTypeId.new (s : String) : Except IdError ResourceTypeId :=
  if h : isResourceType s = true then .ok ⟨s, h⟩
  else .error ⟨"resource type", s, "types are lowercase names such as `postgres`, or `\x7borg\x7d/\x7bname\x7d` for custom types"⟩

def ResId.new (s : String) : Except IdError ResId :=
  if h : isResId s = true then .ok ⟨s, h⟩
  else .error ⟨"resource ID", s, "resource IDs are dot-separated segments of letters, digits, `-` and `_`"⟩

def ClassId.default : ClassId := ⟨"default", by decide⟩

def ClassId.isDefault (c : ClassId) : Bool := c.text = "default"

structure Descriptor where
  ty : ResourceTypeId
  cls : ClassId
  id : ResId
deriving DecidableEq

/-- `<type>.<class>#<id>`. -/
def Descriptor.text (d : Descriptor) : String := d.ty.text ++ "." ++ d.cls.text ++ "#" ++ d.id.text

variable {c : Char} {s a : List Char} {b : List Char}

theorem splitOnce_eq (h : splitOnce c s = some (a, b)) : s = a ++ c :: b := by
  induction s generalizing a with
  | nil => cases h
  | cons x xs ih =>
    rw [splitOnce] at h
    split at h
    · cases h
      simp_all
    · obtain ⟨⟨a', b'⟩, hsplit, hab⟩ := Option.map_eq_some_iff.1 h
      cases hab
      rw [ih hsplit, cons_append]

theorem splitOnce_before (h : splitOnce c s = some (a, b)) : c ∉ a := by
  induction s generalizing a with
  | nil => cases h
  | cons x xs ih =>
    rw [splitOnce] at h
    split at h
    · cases h
      exact not_mem_nil
    · rename_i hx
      obtain ⟨⟨a', b'⟩, hsplit, hab⟩ := Option.map_eq_some_iff.1 h
      cases hab
      rw [mem_cons, not_or]
      exact ⟨fun e => hx e.symm, ih hsplit⟩

theorem splitOnce_append (h : c ∉ a) (b : List Char) : splitOnce c (a ++ c :: b) = some (a, b) := by
  induction a with
  | nil => simp [splitOnce]
  | cons x xs ih =>
    simp only [mem_cons, not_or] at h
    rw [cons_append, splitOnce, if_neg fun e => h.1 e.symm, ih h.2]
    rfl

theorem splitOnce_of_not_mem (h : c ∉ s) : splitOnce c s = none := by
  induction s with
  | nil => rfl
  | cons x xs ih =>
    simp only [mem_cons, not_or] at h
    rw [splitOnce, if_neg fun e => h.1 e.symm, ih h.2]
    rfl

theorem not_mem_of_splitOnce (h : splitOnce c s = none) : c ∉ s := by
  induction s with
  | nil => exact not_mem_nil
  | cons x xs ih =>
    rw [splitOnce] at h
    split at h
    · cases h
    · rename_i hx
      rw [mem_cons, not_or]
      exact ⟨fun e => hx e.symm, ih (Option.map_eq_none_iff.1 h)⟩

theorem idWindows_all (hlen : 2 ≤ b.length) (h : idWindows b = true) :
    ∀ c ∈ b, isLowerAlnum c = true ∨ c = '-' := by
  induction b with
  | nil => simp
  | cons x xs ih =>
    cases xs with
    | nil => simp at hlen
    | cons y ys =>
      simp only [idWindows, Bool.and_eq_true, Bool.or_eq_true, decide_eq_true_eq] at h
      obtain ⟨⟨⟨-, hx⟩, hy⟩, hrest⟩ := h
      intro c hc
      rcases mem_cons.1 hc with rfl | hc
      · exact hx
      · cases ys with
        | nil => obtain rfl := mem_singleton.1 hc; exact hy
        | cons z zs => exact ih (by simp) hrest c hc

theorem ResourceTypeId.chars_spec (ty : ResourceTypeId) : (∀ c ∈ ty.text.toList, isLowerAlnum c = true ∨ c = '-' ∨ c = '/') ∧
    ty.text.toList ≠ [] ∧ ty.text.toList.length ≤ 101 := by
  have hname : ∀ {b : List Char}, isTypeNameChars b = true →
      (∀ c ∈ b, isLowerAlnum c = true ∨ c = '-' ∨ c = '/') ∧ b ≠ [] ∧ b.length ≤ 50 := by
    intro b hb
    simp only [isTypeNameChars, Bool.and_eq_true, all_eq_true, Bool.or_eq_true, decide_eq_true_eq,
      Bool.not_eq_true', isEmpty_eq_false_iff] at hb
    obtain ⟨⟨⟨⟨hne, hlen⟩, hall⟩, -⟩, -⟩ := hb
    exact ⟨fun c hc => (hall c hc).imp_right .inl, hne, hlen⟩
  have hvalid := ty.valid
  rw [isResourceType] at hvalid
  cases hsplit : splitOnce '/' ty.text.toList with
  | none =>
    rw [hsplit] at hvalid
    obtain ⟨hall, hne, hlen⟩ := hname hvalid
    exact ⟨hall, hne, by omega⟩
  | some parts =>
    obtain ⟨org, name⟩ := parts
    rw [hsplit] at hvalid
    simp only [Bool.and_eq_true] at hvalid
    obtain ⟨horg, hvalidName⟩ := hvalid
    obtain ⟨hall, -, hlen⟩ := hname hvalidName
    simp only [isValidObjectIdChars, Bool.and_eq_true, decide_eq_true_eq] at horg
    obtain ⟨⟨⟨⟨hmin, hmax⟩, -⟩, -⟩, hwindows⟩ := horg
    rw [splitOnce_eq hsplit]
    have hbound : org.length ≤ 50 := hmax
    refine ⟨fun c hc => ?_, by simp, by simp; omega⟩
    rcases mem_append.1 hc with hc | hc
    · exact (idWindows_all hmin hwindows c hc).imp_right .inl
    · rcases mem_cons.1 hc with rfl | hc
      · exact .inr (.inr rfl)
      · exact hall c hc

theorem splitAll_of_not_mem (h : c ∉ s) : splitAll c s = [s] := by
  induction s with
  | nil => rfl
  | cons x xs ih =>
    simp only [mem_cons, not_or] at h
    rw [splitAll, if_neg fun e => h.1 e.symm, ih h.2]

theorem isResIdChar_of_lowerAlnum (h : isLowerAlnum c = true) : isResIdChar c = true := by
  simp only [isLowerAlnum, Bool.or_eq_true, Bool.and_eq_true, decide_eq_true_eq] at h
  have hlower : c.isLower = true ↔ 'a' ≤ c ∧ c ≤ 'z' :=
    Bool.and_eq_true_iff.trans (and_congr decide_eq_true_iff decide_eq_true_iff)
  have hdigit : c.isDigit = true ↔ '0' ≤ c ∧ c ≤ '9' :=
    Bool.and_eq_true_iff.trans (and_congr decide_eq_true_iff decide_eq_true_iff)
  change ((((c.isUpper || c.isLower) || c.isDigit) || decide (c = '-')) || decide (c = '_')) = true
  rcases h with h | h
  · rw [hlower.2 h, Bool.or_true, Bool.true_or, Bool.true_or, Bool.true_or]
  · rw [hdigit.2 h, Bool.or_true, Bool.true_or, Bool.true_or]

/-- The type name as a resource ID, with `-` for the `/` of a custom type. -/
def ResourceTypeId.asResId (ty : ResourceTypeId) : ResId where
  text := String.ofList (ty.text.toList.map fun c => if c = '/' then '-' else c)
  valid := by
    obtain ⟨hall, hne, hlen⟩ := ty.chars_spec
    have hchars : ∀ c ∈ ty.text.toList.map (fun c => if c = '/' then '-' else c), isResIdChar c = true := by
      intro c hc
      obtain ⟨d, hd, rfl⟩ := mem_map.1 hc
      rcases hall d hd with h | rfl | rfl
      · split
        · rfl
        · exact isResIdChar_of_lowerAlnum h
      · rfl
      · rfl
    have hdot : '.' ∉ ty.text.toList.map (fun c => if c = '/' then '-' else c) := fun h => by
      have hc := hchars _ h
      cases hc
    simp only [isResId, String.toList_ofList, splitAll_of_not_mem hdot, Bool.and_eq_true, decide_eq_true_eq,
      all_cons, all_nil, all_eq_true, Bool.not_eq_true', and_true]
    refine ⟨⟨?_, ?_⟩, ?_, hchars⟩
    · simpa using hne
    · rw [String.length_ofList, length_map]
      omega
    · simpa using hne

theorem splitAll_ne_nil (c : Char) (s : List Char) : splitAll c s ≠ [] := by
  cases s with
  | nil => simp [splitAll]
  | cons x xs =>
    rw [splitAll]
    split
    · simp
    · split <;> simp

theorem splitAll_sep (c : Char) (a b : List Char) : splitAll c (a ++ c :: b) = splitAll c a ++ splitAll c b := by
  induction a with
  | nil => simp [splitAll]
  | cons x xs ih =>
    rw [cons_append, splitAll, splitAll, ih]
    split
    · rfl
    · cases hxs : splitAll c xs with
      | nil => exact absurd hxs (splitAll_ne_nil c xs)
      | cons seg segs => rfl

theorem splitAll_append (h : c ∉ a) (b : List Char) : splitAll c (a ++ c :: b) = a :: splitAll c b := by
  rw [splitAll_sep, splitAll_of_not_mem h]
  rfl

theorem mem_splitAll {x : Char} (hx : x ∈ s) : x = c ∨ ∃ seg ∈ splitAll c s, x ∈ seg := by
  induction s with
  | nil => cases hx
  | cons y ys ih =>
    by_cases hy : y = c
    · rcases mem_cons.1 hx with rfl | hx
      · exact .inl hy
      · refine (ih hx).imp_right fun ⟨seg, hseg, hx⟩ => ⟨seg, ?_, hx⟩
        rw [splitAll, if_pos hy]
        exact mem_cons_of_mem _ hseg
    · rw [splitAll, if_neg hy]
      cases hys : splitAll c ys with
      | nil => exact absurd hys (splitAll_ne_nil c ys)
      | cons seg segs =>
        rw [hys] at ih
        rcases mem_cons.1 hx with rfl | hx
        · exact .inr ⟨x :: seg, mem_cons_self, mem_cons_self⟩
        · refine (ih hx).imp_right fun ⟨seg', hseg', hx⟩ => ?_
          rcases mem_cons.1 hseg' with rfl | hseg'
          · exact ⟨y :: seg', mem_cons_self, mem_cons_of_mem _ hx⟩
          · exact ⟨seg', mem_cons_of_mem _ hseg', hx⟩

theorem ObjectId.chars_spec (id : ObjectId) : (∀ c ∈ id.text.toList, isLowerAlnum c = true ∨ c = '-') ∧
    2 ≤ id.text.toList.length ∧ id.text.toList.length ≤ 50 := by
  have hvalid := id.valid
  simp only [isValidObjectId, isValidObjectIdChars, Bool.and_eq_true, decide_eq_true_eq] at hvalid
  obtain ⟨⟨⟨⟨hmin, hmax⟩, -⟩, -⟩, hwindows⟩ := hvalid
  exact ⟨idWindows_all hmin hwindows, hmin, hmax⟩

/-- `modules.<workload>`. -/
def ResId.workload (w : WorkloadId) : ResId where
  text := "modules." ++ w.text
  valid := by
    obtain ⟨hall, hmin, hmax⟩ := w.chars_spec
    have hchars : ∀ c ∈ w.text.toList, isResIdChar c = true := by
      intro c hc
      rcases hall c hc with h | rfl
      · exact isResIdChar_of_lowerAlnum h
      · rfl
    have hdot : '.' ∉ w.text.toList := fun h => by
      have hc := hchars _ h
      cases hc
    have hsplit : splitAll '.' ("modules." ++ w.text).toList = ["modules".toList, w.text.toList] := by
      rw [String.toList_append, show "modules.".toList = "modules".toList ++ ['.'] from rfl, append_assoc]
      exact (splitAll_append (by decide) w.text.toList).trans (by rw [splitAll_of_not_mem hdot])
    have hne : w.text.toList ≠ [] := fun h => by simp [h] at hmin
    have hlen : ("modules." ++ w.text).length ≤ 255 := by
      rw [String.length_append, ← String.length_toList (s := w.text)]
      have hprefix : "modules.".length = 8 := rfl
      omega
    simp only [isResId, hsplit, Bool.and_eq_true, decide_eq_true_eq, all_cons, all_nil, all_eq_true,
      Bool.not_eq_true', and_true]
    have hmodules : ∀ c ∈ "modules".toList, isResIdChar c = true := all_eq_true.1 rfl
    exact ⟨⟨by simp, hlen⟩, ⟨rfl, hmodules⟩, by simpa using hne, hchars⟩

/-- `modules.<workload>.externals.<key>`. -/
def ResId.priv (w : WorkloadId) (key : String) : Except IdError ResId :=
  ResId.new ("modules." ++ w.text ++ ".externals." ++ key)

/-- `shared.<id>`. -/
def ResId.shared (id : String) : Except IdError ResId := ResId.new ("shared." ++ id)

theorem ClassId.chars_spec (cls : ClassId) : ∀ c ∈ cls.text.toList, isLowerAlnum c = true ∨ c = '-' := by
  have hvalid := cls.valid
  simp only [isValidObjectId, isValidObjectIdChars, Bool.and_eq_true, decide_eq_true_eq] at hvalid
  obtain ⟨⟨⟨⟨hmin, -⟩, -⟩, -⟩, hwindows⟩ := hvalid
  exact idWindows_all hmin hwindows

theorem Descriptor.ext_text {a b : Descriptor} (ht : a.ty.text = b.ty.text) (hc : a.cls.text = b.cls.text)
    (hi : a.id.text = b.id.text) : a = b := by
  obtain ⟨⟨_, _⟩, ⟨_, _⟩, ⟨_, _⟩⟩ := a
  obtain ⟨⟨_, _⟩, ⟨_, _⟩, ⟨_, _⟩⟩ := b
  cases ht
  cases hc
  cases hi
  rfl

theorem Descriptor.text_injective : Function.Injective Descriptor.text := by
  have hsplit : ∀ d : Descriptor, splitOnce '.' d.text.toList =
        some (d.ty.text.toList, d.cls.text.toList ++ '#' :: d.id.text.toList) ∧
      splitOnce '#' (d.cls.text.toList ++ '#' :: d.id.text.toList) = some (d.cls.text.toList, d.id.text.toList) := by
    intro d
    have hdot : '.' ∉ d.ty.text.toList := fun h => by
      rcases d.ty.chars_spec.1 _ h with h | h | h <;> cases h
    have hhash : '#' ∉ d.cls.text.toList := fun h => by
      rcases d.cls.chars_spec _ h with h | h <;> cases h
    refine ⟨?_, splitOnce_append hhash _⟩
    rw [← splitOnce_append hdot]
    simp [Descriptor.text, String.toList_append]
  intro a b h
  have hdot := (hsplit a).1.symm.trans (h ▸ (hsplit b).1)
  obtain ⟨hty, hrest⟩ := Prod.mk.inj (Option.some.inj hdot)
  have hhash := (hsplit a).2.symm.trans (hrest ▸ (hsplit b).2)
  obtain ⟨hcls, hid⟩ := Prod.mk.inj (Option.some.inj hhash)
  exact ext_text (String.toList_injective hty) (String.toList_injective hcls) (String.toList_injective hid)

theorem ResId.chars_spec (id : ResId) : ∀ c ∈ id.text.toList, isResIdChar c = true ∨ c = '.' := by
  have hvalid := id.valid
  simp only [isResId, Bool.and_eq_true, all_eq_true] at hvalid
  intro c hc
  rcases mem_splitAll (c := '.') hc with hdot | ⟨seg, hseg, hc⟩
  · exact .inr hdot
  · exact .inl ((hvalid.2 seg hseg).2 c hc)

theorem Descriptor.chars_spec (d : Descriptor) (h : c ∈ d.text.toList) :
    isLowerAlnum c = true ∨ isResIdChar c = true ∨ c ∈ ['-', '/', '.', '#'] := by
  simp only [Descriptor.text, String.toList_append, mem_append] at h
  rcases h with (((h | h) | h) | h) | h
  · rcases d.ty.chars_spec.1 _ h with h | rfl | rfl
    · exact .inl h
    · exact .inr (.inr (by decide))
    · exact .inr (.inr (by decide))
  · obtain rfl : c = '.' := by simpa using h
    exact .inr (.inr (by decide))
  · rcases d.cls.chars_spec _ h with h | rfl
    · exact .inl h
    · exact .inr (.inr (by decide))
  · obtain rfl : c = '#' := by simpa using h
    exact .inr (.inr (by decide))
  · rcases d.id.chars_spec _ h with h | rfl
    · exact .inr (.inl h)
    · exact .inr (.inr (by decide))

theorem Descriptor.space_not_mem (d : Descriptor) : ' ' ∉ d.text.toList := fun h =>
  absurd (d.chars_spec h) (by decide)

/-- The reverse of `text`: what is left of the first `#`, split at its first dot, and what is right of it. -/
def Descriptor.parse (s : String) : Except IdError Descriptor :=
  let invalid : IdError := ⟨"resource descriptor", s, "expected `<type>.<class>#<res_id>`"⟩
  match splitOnce '#' s.toList with
  | none => .error invalid
  | some (head, id) =>
    match splitOnce '.' head with
    | none => .error invalid
    | some (ty, cls) => do
      return { ty := ← ResourceTypeId.new (String.ofList ty), cls := ← ClassId.new (String.ofList cls)
               id := ← ResId.new (String.ofList id) }

theorem Descriptor.parse_eq_ok {s : String} {d : Descriptor} : Descriptor.parse s = .ok d ↔ d.text = s := by
  constructor
  · intro h
    unfold Descriptor.parse at h
    dsimp only at h
    split at h
    · cases h
    rename_i head id hhash
    split at h
    · cases h
    rename_i ty cls hdot
    simp only [ResourceTypeId.new, ClassId.new, ResId.new] at h
    split at h
    · split at h
      · split at h
        · cases h
          apply String.toList_injective
          rw [splitOnce_eq hhash, splitOnce_eq hdot]
          simp [Descriptor.text, String.toList_append]
        · cases h
      · cases h
    · cases h
  · rintro rfl
    have hhash : '#' ∉ d.ty.text.toList ++ '.' :: d.cls.text.toList := fun h => by
      rcases mem_append.1 h with h | h
      · rcases d.ty.chars_spec.1 _ h with h | h | h <;> cases h
      · rcases mem_cons.1 h with h | h
        · cases h
        · rcases d.cls.chars_spec _ h with h | h <;> cases h
    have hdot : '.' ∉ d.ty.text.toList := fun h => by
      rcases d.ty.chars_spec.1 _ h with h | h | h <;> cases h
    have htext : d.text.toList = (d.ty.text.toList ++ '.' :: d.cls.text.toList) ++ '#' :: d.id.text.toList := by
      simp [Descriptor.text, String.toList_append]
    rw [Descriptor.parse]
    simp only [htext, splitOnce_append hhash, splitOnce_append hdot, String.ofList_toList, ResourceTypeId.new,
      ClassId.new, ResId.new,
      dif_pos d.ty.valid, dif_pos d.cls.valid, dif_pos d.id.valid]
    rfl

end Openporch
