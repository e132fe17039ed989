import Openporch.Spelling

/-!
# Templates are read without loss

A string that is read falls into spans, one for each part: a placeholder's span is its text, a literal's span holds no
`${` and is the literal with the escapes written out.
-/

namespace Openporch
open List Fallible

def unescapeOpens : List Char → List Char
  | [] => []
  | '$' :: '\\' :: '{' :: rest => '$' :: '{' :: unescapeOpens rest
  | c :: rest => c :: unescapeOpens rest

inductive PartSpan : Part → List Char → Prop where
  | literal {span} :
    ¬ ['$', '{'] <:+: span → PartSpan (.literal (String.ofList (unescapeOpens span))) span
  | placeholder (p : RawPlaceholder) : PartSpan (.placeholder p) p.text.toList

variable {c : Char} {span : List Char} {parts : List Part} {segs : List Segment}

theorem unescapeOpens_cons {rest : List Char} (h : c = '$' → ¬ ['\\', '{'] <+: rest) :
    unescapeOpens (c :: rest) = c :: unescapeOpens rest := by
  rw [unescapeOpens]
  rintro rest' rfl rfl
  exact h rfl ⟨rest', rfl⟩

/-- Spans for what is left of a string, of which `lit` was read already. -/
def SpansFrom (lit cs : List Char) (parts : List Part) : Prop :=
  ∃ span spans more, cs = span ++ spans.flatten ∧ ¬ ['$', '{'] <:+: span ∧
    parts = literalPart (lit ++ unescapeOpens span) ++ more ∧ List.Forall₂ PartSpan more spans

theorem unescapeOpens_eq_nil (h : unescapeOpens span = []) : span = [] := by
  fun_cases unescapeOpens span with
  | case1 => rfl
  | case2 | case3 => simp [unescapeOpens] at h

theorem literalPart_span (h : ¬ ['$', '{'] <:+: span) :
    ∃ spans, spans.flatten = span ∧ List.Forall₂ PartSpan (literalPart (unescapeOpens span)) spans := by
  unfold literalPart
  split
  · rename_i hempty
    exact ⟨[], by simp [unescapeOpens_eq_nil (List.isEmpty_iff.1 hempty)], .nil⟩
  · exact ⟨[span], by simp, .cons (.literal h) .nil⟩

variable {cs : List Char} {seg : Segment} {root : String} {spans : List (List Char)}

theorem SpansFrom.forall₂ (h : SpansFrom [] cs parts) :
    ∃ spans, spans.flatten = cs ∧ List.Forall₂ PartSpan parts spans := by
  obtain ⟨span, spans, more, rfl, hspan, rfl, hmore⟩ := h
  obtain ⟨spans', hflatten, hlit⟩ := literalPart_span hspan
  exact ⟨spans' ++ spans, by rw [flatten_append, hflatten], rel_append hlit hmore⟩

theorem partsFrom_spans {lit : List Char} {skip : Nat} (h : partsFrom lit skip cs = .ok parts) :
    SpansFrom lit (cs.drop skip) parts := by
  fun_induction partsFrom lit skip cs generalizing parts with
  | case1 lit skip =>
    cases h
    exact ⟨[], [], [], by simp, by simp, by simp [unescapeOpens], .nil⟩
  | case2 lit skip c rest ih => exact ih h
  | case3 lit c rest hc ih =>
    simp only [Bool.and_eq_true, decide_eq_true_eq, isPrefixOf_iff_prefix] at hc
    obtain ⟨rfl, tail, rfl⟩ := hc
    obtain ⟨span, spans, more, hcs, hspan, rfl, hmore⟩ := ih h
    refine ⟨'$' :: '\\' :: '{' :: span, spans, more, ?_, ?_, ?_, hmore⟩
    · simpa using hcs
    · simpa [infix_cons_iff] using hspan
    · simp [unescapeOpens]
  | case4 => cases h
  | case5 lit c rest hc hc' body hbody ih =>
    simp only [Bool.and_eq_true, decide_eq_true_eq, isPrefixOf_iff_prefix] at hc'
    obtain ⟨rfl, tail, rfl⟩ := hc'
    obtain ⟨segments, hsegments, h⟩ := bind_eq_ok.1 h
    obtain ⟨more, hmore, h⟩ := bind_eq_ok.1 h
    cases h
    obtain ⟨after, hafter⟩ := placeholderBody_eq hbody
    obtain ⟨spans, hflatten, hspans⟩ := (ih hmore).forall₂
    refine ⟨[], (['$', '{'] ++ body ++ ['}']) :: spans,
      .placeholder (.of body segments) :: more, ?_, by simp, by simp [unescapeOpens], ?_⟩
    · have htail : tail = body ++ '}' :: after := by simpa using hafter
      rw [flatten_cons, hflatten]
      simp [htail]
    · refine .cons ?_ hspans
      have hspan := PartSpan.placeholder (.of body segments)
      rwa [String.toList_ofList] at hspan
  | case6 lit c rest hc hc' ih =>
    simp only [Bool.and_eq_true, decide_eq_true_eq, isPrefixOf_iff_prefix, not_and] at hc hc'
    obtain ⟨span, spans, more, hcs, hspan, rfl, hmore⟩ := ih h
    rw [drop_zero] at hcs
    have hpre : ∀ {pat : List Char}, pat <+: span → pat <+: rest := fun hpat => hcs ▸ hpat.trans (prefix_append _ _)
    refine ⟨c :: span, spans, more, by rw [drop_zero, hcs]; rfl, ?_, ?_, hmore⟩
    · rw [infix_cons_iff, cons_prefix_cons]
      rintro (⟨rfl, hbrace⟩ | hin)
      · exact hc' rfl (hpre hbrace)
      · exact hspan hin
    · rw [unescapeOpens_cons fun hdollar hesc => hc hdollar (hpre hesc)]
      simp

/-- The parts as they are written: literals with `${` escaped, placeholders as their text. -/
def printParts (parts : List Part) : List Char :=
  parts.flatMap fun
    | .literal l => escapeOpens l.toList
    | .placeholder p => p.text.toList

theorem printParts_append (parts parts' : List Part) : printParts (parts ++ parts') = printParts parts ++ printParts parts' :=
  flatMap_append

theorem printParts_literalPart (lit : List Char) : printParts (literalPart lit) = escapeOpens lit := by
  unfold literalPart printParts
  split
  · rename_i hempty
    simp [List.isEmpty_iff.1 hempty, escapeOpens]
  · simp

theorem partsFrom_print {items} {last : List Char} (hitems : ∀ x ∈ items, Unescaped x.1)
    (hread : ∀ x ∈ items, ∃ body, x.2.Read body) (hlast : Unescaped last) :
    partsFrom [] 0 (printParts (partsOf items last)) = .ok (partsOf items last) := by
  induction items with
  | nil =>
    have hparts : partsFrom [] 0 (escapeOpens last ++ []) = partsFrom ([] ++ last) 0 [] :=
      partsFrom_escapeOpens hlast (by simp)
    rw [append_nil] at hparts
    rw [show partsOf [] last = literalPart last from rfl, printParts_literalPart, hparts]
    rfl
  | cons x items ih =>
    obtain ⟨hx, hitems⟩ := forall_mem_cons.1 hitems
    obtain ⟨⟨body, htext, hcloses, hsegs⟩, hread⟩ := forall_mem_cons.1 hread
    have hprint : printParts (partsOf (x :: items) last) =
        escapeOpens x.1 ++ '$' :: '{' :: (body ++ '}' :: printParts (partsOf items last)) := by
      rw [partsOf_cons, printParts_append, printParts_literalPart]
      simp [printParts, htext]
    rw [hprint, partsFrom_escapeOpens hx (by simp), nil_append, partsFrom_placeholder (closes_iff.2 hcloses), hsegs,
      ok_bind, ih hitems hread, partsOf_cons]
    obtain ⟨lit, text, segs⟩ := x
    cases htext
    rfl

theorem parse_print {s : String} (h : parseTemplate s = .ok parts) :
    parseTemplate (String.ofList (printParts parts)) = .ok parts := by
  obtain ⟨items, last, hread⟩ := parseTemplate_readAs h
  rw [hread.parts_eq, parseTemplate, String.toList_ofList, partsFrom_print hread.unescaped hread.read hread.last]
  rfl

def IsPathName (s : String) : Prop := s ≠ "" ∧ ∀ c ∈ s.toList, isNameChar c = true ∧ c ≠ '}'

/-- A segment that can be printed: names as above, keys without the quote and the bracket that end them, and indexes
that are machine numbers. -/
def Segment.Writable : Segment → Prop
  | .name s => IsPathName s
  | .quoted s => '\'' ∉ s.toList ∧ ']' ∉ s.toList
  | .index i => i < 2 ^ 64

theorem Segment.Writable.printable (h : seg.Writable) : seg.Printable := by
  cases seg with
  | name s => exact ⟨h.1, fun c hc => (h.2 c hc).1⟩
  | quoted s => exact h.2
  | index i => exact h

theorem isNameChar_unquoted (h : isNameChar c = true) : c ≠ '\'' ∧ c ≠ '"' := by
  constructor
  · rintro rfl
    cases h
  · rintro rfl
    cases h

theorem isAlphanum_iff : c.isAlphanum = true ↔ (65 ≤ c.toNat ∧ c.toNat ≤ 90) ∨ (97 ≤ c.toNat ∧ c.toNat ≤ 122) ∨
    (48 ≤ c.toNat ∧ c.toNat ≤ 57) := by
  have hbetween : ∀ a b : Char, (decide (a ≤ c) && decide (c ≤ b)) = true ↔ a.toNat ≤ c.toNat ∧ c.toNat ≤ b.toNat := by
    intro a b
    rw [Bool.and_eq_true_iff, decide_eq_true_iff, decide_eq_true_iff]
    exact Iff.rfl
  have hupper : c.isUpper = true ↔ 65 ≤ c.toNat ∧ c.toNat ≤ 90 := decide_eq_true_iff
  have hlower : c.isLower = true ↔ 97 ≤ c.toNat ∧ c.toNat ≤ 122 := hbetween 'a' 'z'
  have hdigit : c.isDigit = true ↔ 48 ≤ c.toNat ∧ c.toNat ≤ 57 := hbetween '0' '9'
  change ((c.isUpper || c.isLower) || c.isDigit) = true ↔ _
  rw [Bool.or_eq_true, Bool.or_eq_true, hupper, hlower, hdigit, or_assoc]

theorem isResIdChar_spec (h : isResIdChar c = true) : isNameChar c = true ∧ c ≠ '}' ∧ c ≠ '\'' ∧ c ≠ '"' ∧ c ≠ ']' := by
  simp only [isResIdChar, Bool.or_eq_true, decide_eq_true_eq, isAlphanum_iff] at h
  have hcode : ∀ d : Char, c = d → c.toNat = d.toNat := fun d hd => hd ▸ rfl
  have hlit : ∀ d : Char, c.toNat ≠ d.toNat → c ≠ d := fun d hne hd => hne (hcode d hd)
  rcases h with (h | rfl) | rfl
  · have hdot : '.'.toNat = 46 := rfl
    have hopen : '['.toNat = 91 := rfl
    have hclose : ']'.toNat = 93 := rfl
    have hsingle : '\''.toNat = 39 := rfl
    have hdouble : '"'.toNat = 34 := rfl
    have hbrace : '}'.toNat = 125 := rfl
    refine ⟨?_, hlit _ (by omega), hlit _ (by omega), hlit _ (by omega), hlit _ (by omega)⟩
    simp only [isNameChar, isWhitespace, Bool.and_eq_true, Bool.not_eq_true', Bool.or_eq_false_iff, Bool.and_eq_false_iff,
      decide_eq_true_eq, decide_eq_false_iff_not]
    refine ⟨⟨⟨⟨⟨hlit _ (by omega), hlit _ (by omega)⟩, hlit _ (by omega)⟩, hlit _ (by omega)⟩, hlit _ (by omega)⟩, ?_⟩
    omega
  · decide
  · decide

theorem passes_segment (h : seg.Writable) : Passes seg.text.toList := by
  cases seg with
  | name s =>
    refine passes_plain fun c hc => ?_
    simp only [Segment.text, String.toList_append, mem_append] at hc
    rcases hc with hc | hc
    · simp at hc
      simp [hc]
    · exact ⟨(h.2 c hc).2, isNameChar_unquoted (h.2 c hc).1⟩
  | index i =>
    refine passes_plain fun c hc => ?_
    simp only [Segment.text, String.toList_append, mem_append] at hc
    rcases hc with (hc | hc) | hc
    · simp at hc
      simp [hc]
    · have hdigit := digits_toString i c hc
      refine ⟨?_, ?_, ?_⟩ <;> rintro rfl <;> cases hdigit
    · simp at hc
      simp [hc]
  | quoted s =>
    intro text
    have htext : (Segment.quoted s).text.toList ++ text = '[' :: '\'' :: (s.toList ++ '\'' :: ']' :: text) := by
      simp [Segment.text]
    rw [htext, placeholderBody_cons, if_neg (by simp), placeholderBody_cons, if_neg (by simp [quoteAfter]),
      show quoteAfter '\'' (quoteAfter '[' none) = some '\'' from rfl, placeholderBody_quoted h.1, placeholderBody_cons,
      if_neg (by simp), show quoteAfter ']' none = none from rfl]
    simp [Segment.text, Option.map_map, Function.comp_def]

theorem passes_path (h : ∀ seg ∈ segs, seg.Writable) : Passes (pathChars segs) := by
  induction segs with
  | nil => exact passes_plain (by simp [pathChars])
  | cons seg segs ih =>
    obtain ⟨hseg, hsegs⟩ := forall_mem_cons.1 h
    exact (passes_segment hseg).append (ih hsegs)

theorem closes_path (hroot : IsPathName root) (hsegs : ∀ seg ∈ segs, seg.Writable) :
    closes (root.toList ++ pathChars segs) = true := by
  have hplain : ∀ c ∈ root.toList, c ≠ '}' ∧ c ≠ '\'' ∧ c ≠ '"' :=
    fun c hc => ⟨(hroot.2 c hc).2, isNameChar_unquoted (hroot.2 c hc).1⟩
  have hbody : placeholderBody none (root.toList ++ pathChars segs ++ '}' :: []) = some (root.toList ++ pathChars segs) := by
    rw [(passes_plain hplain).append (passes_path hsegs)]
    simp [placeholderBody_cons]
  exact closes_iff.1 hbody

def pathText (root : String) (segs : List Segment) : String :=
  String.ofList (['$', '{'] ++ (root.toList ++ pathChars segs) ++ ['}'])

theorem parse_of_closes (hroot : IsPathName root) (hsegs : ∀ seg ∈ segs, seg.Printable)
    (hcloses : closes (root.toList ++ pathChars segs) = true) :
    parseTemplate (pathText root segs) = .ok [.placeholder ⟨pathText root segs, .name root :: segs⟩] := by
  have hread : parsePath (root.toList ++ pathChars segs) = .ok (.name root :: segs) := by
    rw [parsePath_root (by simpa using hroot.1) (fun c hc => (hroot.2 c hc).1) (pathChars_head segs),
      segmentsFrom_pathChars hsegs, String.ofList_toList]
    rfl
  have hbody : placeholderBody none (root.toList ++ pathChars segs ++ '}' :: []) = some (root.toList ++ pathChars segs) :=
    closes_iff.2 hcloses
  have hparts : partsFrom [] 0 ('$' :: '{' :: (root.toList ++ pathChars segs ++ '}' :: [])) = _ := partsFrom_placeholder hbody
  have htext : ['$', '{'] ++ (root.toList ++ pathChars segs) ++ ['}'] =
      '$' :: '{' :: (root.toList ++ pathChars segs ++ '}' :: []) := by simp
  rw [parseTemplate, pathText, String.toList_ofList, htext, hparts, hread]
  simp only [← htext]
  rfl

theorem parse_path (hroot : IsPathName root) (hsegs : ∀ seg ∈ segs, seg.Writable) :
    parseTemplate (pathText root segs) = .ok [.placeholder ⟨pathText root segs, .name root :: segs⟩] :=
  parse_of_closes hroot (fun seg hseg => (hsegs seg hseg).printable) (closes_path hroot hsegs)

theorem infix_of_mem_flatten (h : span ∈ spans) : span <:+: spans.flatten := by
  obtain ⟨before, after, rfl⟩ := append_of_mem h
  exact ⟨before.flatten, after.flatten, by simp⟩

theorem text_mem_spans (h : List.Forall₂ PartSpan parts spans) {p : RawPlaceholder}
    (hp : .placeholder p ∈ parts) : p.text.toList ∈ spans := by
  induction h with
  | nil => cases hp
  | cons hspan _ ih =>
    rcases mem_cons.1 hp with rfl | hp
    · cases hspan
      exact mem_cons_self
    · exact mem_cons_of_mem _ (ih hp)

/-- Nothing is lost in reading: a string falls into the spans of its parts, the parts printed are read as the same parts,
and a path printed as one placeholder is read as that path. -/
theorem templates_lossless :
    (∀ s parts, parseTemplate s = .ok parts →
      parseTemplate (String.ofList (printParts parts)) = .ok parts ∧
      (∀ p ∈ placeholders parts, p.text.toList <:+: s.toList) ∧
      ∃ spans : List (List Char), spans.flatten = s.toList ∧ List.Forall₂ PartSpan parts spans) ∧
    (∀ root segs, IsPathName root → (∀ seg ∈ segs, seg.Writable) →
      parseTemplate (pathText root segs) = .ok [.placeholder ⟨pathText root segs, .name root :: segs⟩]) := by
  refine ⟨fun s parts h => ?_, fun root segs => parse_path⟩
  obtain ⟨spans, hflatten, hspans⟩ := (partsFrom_spans (mapError_eq_ok.1 h)).forall₂
  rw [drop_zero] at hflatten
  refine ⟨parse_print h, fun p hp => ?_, spans, hflatten, hspans⟩
  obtain ⟨part, hpart, hp⟩ := mem_filterMap.1 hp
  cases part with
  | literal l => cases hp
  | placeholder q =>
    cases hp
    exact hflatten ▸ infix_of_mem_flatten (text_mem_spans hspans hpart)

theorem values_path_lossless :
    parseTemplate (pathText "values" [.quoted "K\x7d.[#\"", .index 0, .name "x"]) =
      .ok [.placeholder ⟨pathText "values" [.quoted "K\x7d.[#\"", .index 0, .name "x"],
        [.name "values", .quoted "K\x7d.[#\"", .index 0, .name "x"]⟩] := by
  refine templates_lossless.2 "values" _ ⟨by decide, by simp; decide⟩ ?_
  simp only [mem_cons, not_mem_nil, or_false, forall_eq_or_imp, forall_eq]
  exact ⟨⟨by decide, by decide⟩, show 0 < 2 ^ 64 by decide, by decide, by simp; decide⟩

/-- A brace in a name ends the placeholder there, and a bracket in a key ends the key. -/
theorem path_cut_short :
    parseTemplate (pathText "values" [.name "a\x7db"]) ≠
      .ok [.placeholder ⟨pathText "values" [.name "a\x7db"], [.name "values", .name "a\x7db"]⟩] ∧
    parseTemplate (pathText "values" [.quoted "a]b"]) ≠
      .ok [.placeholder ⟨pathText "values" [.quoted "a]b"], [.name "values", .quoted "a]b"]⟩] := by
  decide +kernel

end Openporch
