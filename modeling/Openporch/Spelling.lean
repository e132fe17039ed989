import Openporch.Canonical
import Openporch.Resolution
import Mathlib.Data.List.TakeWhile

/-!
# Placeholders written and read back

A path that was read can be printed segment by segment with `Segment::Display` and reads as the same segments. Only
where the placeholder ends can go wrong: `find_placeholder_end` counts quotes of both kinds, and printing puts every
quoted segment between single quotes.
-/

namespace Openporch
open List Fallible Segment

def Segment.selects : Segment → String ⊕ Nat
  | .name k | .quoted k => .inl k
  | .index i => .inr i

def Segment.Printable : Segment → Prop
  | .name s => s ≠ "" ∧ ∀ c ∈ s.toList, isNameChar c = true
  | .quoted s => ']' ∉ s.toList
  | .index i => i < 2 ^ 64

def pathChars (segs : List Segment) : List Char := segs.flatMap (·.text.toList)

theorem pathChars_cons (seg : Segment) (segs : List Segment) :
    pathChars (seg :: segs) = seg.text.toList ++ pathChars segs := rfl

variable {seg : Segment} {segs segs' : List Segment} {cs rest : List Char}

theorem Segment.text_head (seg : Segment) : ∃ c cs, seg.text.toList = c :: cs ∧ (c = '.' ∨ c = '[') := by
  cases seg with
  | name s => exact ⟨'.', s.toList, by simp [text], .inl rfl⟩
  | quoted s => exact ⟨'[', _, by simp only [text, String.toList_append]; rfl, .inr rfl⟩
  | index i => exact ⟨'[', _, by simp only [text, String.toList_append]; rfl, .inr rfl⟩

theorem pathChars_head (segs : List Segment) : ∀ c ∈ (pathChars segs).head?, isNameChar c = false := by
  intro c hc
  cases segs with
  | nil => cases hc
  | cons seg segs =>
    obtain ⟨c', cs, htext, hc'⟩ := seg.text_head
    rw [pathChars_cons, htext] at hc
    cases hc
    rcases hc' with rfl | rfl <;> decide

theorem segmentsFrom_skip (first : Bool) (cs rest : List Char) :
    segmentsFrom first cs.length (cs ++ rest) = segmentsFrom first 0 rest := by
  induction cs with
  | nil => rfl
  | cons c cs ih => rw [length_cons, cons_append, segmentsFrom, ih]

theorem takeWhile_append_stop {p : Char → Bool} (hall : ∀ c ∈ cs, p c = true) (hstop : ∀ c ∈ rest.head?, p c = false) :
    (cs ++ rest).takeWhile p = cs := by
  rw [takeWhile_append_of_pos hall]
  cases rest with
  | nil => simp
  | cons c rest => simp [hstop c rfl]

theorem head_dropWhile (p : Char → Bool) (cs : List Char) : ∀ c ∈ (cs.dropWhile p).head?, p c = false := by
  intro c hc
  have h := head?_dropWhile_not p cs
  rw [hc] at h
  exact h

theorem segmentsFrom_name (hne : cs ≠ []) (hall : ∀ c ∈ cs, isNameChar c = true)
    (hstop : ∀ c ∈ rest.head?, isNameChar c = false) :
    segmentsFrom false 0 ('.' :: (cs ++ rest)) = (segmentsFrom false 0 rest).map (.name (String.ofList cs) :: ·) := by
  rw [segmentsFrom, if_neg (by decide), if_pos (by decide)]
  dsimp only
  rw [takeWhile_append_stop hall hstop, if_neg (by simpa using hne), segmentsFrom_skip]
  cases segmentsFrom false 0 rest <;> rfl

theorem segmentsFrom_bracket (hnot : ']' ∉ cs) (hseg : bracketed cs = .ok seg) (rest : List Char) :
    segmentsFrom false 0 ('[' :: (cs ++ ']' :: rest)) = (segmentsFrom false 0 rest).map (seg :: ·) := by
  have htake : (cs ++ ']' :: rest).takeWhile (· ≠ ']') = cs :=
    takeWhile_append_stop (fun c hc => by simpa using fun h : c = ']' => hnot (h ▸ hc)) (by simp)
  have hskip := segmentsFrom_skip false (cs ++ [']']) rest
  rw [append_assoc, length_append] at hskip
  rw [segmentsFrom, if_pos rfl]
  dsimp only
  rw [htake, if_neg (by simp), hseg, ok_bind]
  change (segmentsFrom false (cs.length + [']'].length) (cs ++ ([']'] ++ rest)) >>= fun segs => .ok (seg :: segs)) = _
  rw [hskip]
  cases segmentsFrom false 0 rest <;> rfl

theorem bracketed_quoted (q : List Char) : bracketed ('\'' :: (q ++ ['\''])) = .ok (.quoted (String.ofList q)) := by
  have hpre : stripPrefix ['\''] ('\'' :: (q ++ ['\''])) = some (q ++ ['\'']) := stripPrefix_eq_some.2 rfl
  unfold bracketed
  rw [hpre, Option.bind_some, stripSuffix_append]
  rfl

theorem digits_no_bracket (i : Nat) : ']' ∉ (toString i).toList := fun h => by
  have hdigit := digits_toString i _ h
  cases hdigit

variable {i skip : Nat} {more text after : List Char} {parts : List Part}

theorem bracketed_index (hi : i < 2 ^ 64) : bracketed (toString i).toList = .ok (.index i) := by
  obtain ⟨c, t, htext, hc⟩ := toString_head i
  have hquote : ∀ q : Char, q.isDigit = false → stripPrefix [q] (toString i).toList = none := by
    intro q hq
    cases h : stripPrefix [q] (toString i).toList with
    | none => rfl
    | some rest =>
      rw [stripPrefix_eq_some, htext] at h
      cases h
      rw [hq] at hc
      cases hc
  unfold bracketed
  rw [hquote '\'' (by decide), hquote '"' (by decide), parseU64_toString hi]
  rfl

theorem segmentsFrom_bracket_text (h : seg.Printable) (hname : ∀ s, seg ≠ .name s) (rest : List Char) :
    segmentsFrom false 0 (seg.text.toList ++ rest) = (segmentsFrom false 0 rest).map (seg :: ·) := by
  cases seg with
  | name s => exact absurd rfl (hname s)
  | quoted s =>
    have hnot : ']' ∉ '\'' :: (s.toList ++ ['\'']) := by simpa using (show ']' ∉ s.toList from h)
    simpa [text] using segmentsFrom_bracket hnot (bracketed_quoted s.toList) rest
  | index i => simpa [text] using segmentsFrom_bracket (digits_no_bracket i) (bracketed_index h) rest

theorem segmentsFrom_text (h : seg.Printable) (hstop : ∀ c ∈ rest.head?, isNameChar c = false) :
    segmentsFrom false 0 (seg.text.toList ++ rest) = (segmentsFrom false 0 rest).map (seg :: ·) := by
  by_cases hname : ∃ s, seg = .name s
  · obtain ⟨s, rfl⟩ := hname
    have hread := segmentsFrom_name (by simpa using h.1) h.2 hstop
    simpa [text] using hread
  · exact segmentsFrom_bracket_text h (fun s hs => hname ⟨s, hs⟩) rest

theorem segmentsFrom_pathChars (h : ∀ seg ∈ segs, seg.Printable) : segmentsFrom false 0 (pathChars segs) = .ok segs := by
  induction segs with
  | nil => rfl
  | cons seg segs ih =>
    rw [pathChars_cons, segmentsFrom_text (h _ mem_cons_self) (pathChars_head segs),
      ih fun s hs => h s (mem_cons_of_mem _ hs)]
    rfl

theorem parsePath_root (hne : cs ≠ []) (hall : ∀ c ∈ cs, isNameChar c = true) (hstop : ∀ c ∈ rest.head?, isNameChar c = false) :
    parsePath (cs ++ rest) = (segmentsFrom false 0 rest).map (.name (String.ofList cs) :: ·) := by
  cases cs with
  | nil => exact absurd rfl hne
  | cons c cs =>
    have hc : isNameChar c = true := hall c mem_cons_self
    have hopen : c ≠ '[' := fun h => by
      rw [h] at hc
      cases hc
    rw [parsePath, if_neg (by simp), cons_append, segmentsFrom, if_neg hopen, if_neg (by simp), if_pos (by simp [hc])]
    dsimp only
    rw [takeWhile_append_stop (fun x hx => hall x (mem_cons_of_mem _ hx)) hstop, segmentsFrom_skip]
    cases segmentsFrom false 0 rest <;> rfl

theorem stripSuffix_eq_some {suf s rest : List Char} (h : stripSuffix suf s = some rest) : s = rest ++ suf := by
  unfold stripSuffix at h
  split at h
  · rename_i hsuf
    obtain ⟨t, rfl⟩ := isSuffixOf_iff_suffix.1 hsuf
    cases h
    simp
  · cases h

theorem parseU64_lt (h : parseU64 cs = some i) : i < 2 ^ 64 := by
  unfold parseU64 at h
  grind

theorem bracketed_printable (hnot : ']' ∉ cs) (h : bracketed cs = .ok seg) : seg.Printable := by
  have hquoted : ∀ {quote : Char} {q : List Char},
      ((stripPrefix [quote] cs).bind (stripSuffix [quote])) = some q → ']' ∉ q := by
    intro quote q hq hmem
    obtain ⟨mid, hmid, hq⟩ := Option.bind_eq_some_iff.1 hq
    rw [stripPrefix_eq_some.1 hmid, stripSuffix_eq_some hq] at hnot
    exact hnot (by simp [hmem])
  unfold bracketed at h
  split at h
  · rename_i q hq
    cases h
    change ']' ∉ (String.ofList q).toList
    rw [String.toList_ofList]
    rcases Option.or_eq_some_iff.1 hq with hq | ⟨-, hq⟩ <;> exact hquoted hq
  · split at h
    · rename_i i hi
      cases h
      exact parseU64_lt hi
    · cases h

theorem segmentsFrom_printable {first : Bool} (h : segmentsFrom first skip cs = .ok segs) :
    ∀ seg ∈ segs, seg.Printable := by
  fun_induction segmentsFrom first skip cs generalizing segs with
  | case1 => cases h; simp
  | case2 first skip c rest ih => exact ih h
  | case3 => cases h
  | case4 first rest =>
    rename_i inner hlen ih
    obtain ⟨seg, hseg, h⟩ := bind_eq_ok.1 h
    obtain ⟨more, hmore, h⟩ := bind_eq_ok.1 h
    cases h
    have hnot : ']' ∉ inner := fun hmem => by simpa using mem_takeWhile_imp hmem
    exact forall_mem_cons.2 ⟨bracketed_printable hnot hseg, ih hmore⟩
  | case5 => cases h
  | case6 first c rest hc hdot =>
    rename_i name hname ih
    obtain ⟨more, hmore, h⟩ := bind_eq_ok.1 h
    cases h
    refine forall_mem_cons.2 ⟨⟨by simpa using hname, fun x hx => ?_⟩, ih hmore⟩
    rw [String.toList_ofList] at hx
    exact mem_takeWhile_imp hx
  | case7 first c rest hc hdot hfirst =>
    rename_i name ih
    obtain ⟨more, hmore, h⟩ := bind_eq_ok.1 h
    cases h
    refine forall_mem_cons.2 ⟨⟨by simp, fun x hx => ?_⟩, ih hmore⟩
    rw [String.toList_ofList] at hx
    rcases mem_cons.1 hx with rfl | hx
    · simp only [Bool.and_eq_true] at hfirst
      exact hfirst.2
    · exact mem_takeWhile_imp hx
  | case8 => cases h

variable {c : Char} {cut lit : List Char}

def closes (body : List Char) : Bool := placeholderBody none (body ++ ['}']) = some body

def quoteAfter (c : Char) : Option Char → Option Char
  | some q => if c = q then none else some q
  | none => if c = '\'' || c = '"' then some c else none

section
variable {quote : Option Char} {body text : List Char}

theorem placeholderBody_cons (quote : Option Char) (c : Char) (text : List Char) : placeholderBody quote (c :: text) =
    if quote = none ∧ c = '}' then some [] else (placeholderBody (quoteAfter c quote) text).map (c :: ·) := by
  cases quote with
  | some q => rw [if_neg (by simp), placeholderBody, quoteAfter]
  | none =>
    rw [placeholderBody, quoteAfter]
    by_cases hquote : (decide (c = '\'') || decide (c = '"')) = true
    · have hbrace : c ≠ '}' := by
        rintro rfl
        cases hquote
      rw [if_pos hquote, if_pos hquote, if_neg (by simp [hbrace])]
    · rw [if_neg hquote, if_neg hquote]
      simp only [true_and]

theorem placeholderBody_eq (h : placeholderBody quote text = some body) : ∃ after, text = body ++ '}' :: after := by
  induction text generalizing quote body with
  | nil => cases h
  | cons c text ih =>
    rw [placeholderBody_cons] at h
    split at h
    · rename_i hend
      cases h
      exact ⟨text, by rw [hend.2]; rfl⟩
    · obtain ⟨body', hbody, rfl⟩ := Option.map_eq_some_iff.1 h
      obtain ⟨after, rfl⟩ := ih hbody
      exact ⟨after, rfl⟩

theorem placeholderBody_self (quote : Option Char) (body after after' : List Char) :
    placeholderBody quote (body ++ '}' :: after) = some body ↔ placeholderBody quote (body ++ '}' :: after') = some body := by
  induction body generalizing quote with
  | nil => simp [placeholderBody_cons]
  | cons c body ih =>
    rw [cons_append, cons_append, placeholderBody_cons, placeholderBody_cons]
    split
    · simp
    · simpa using ih (quoteAfter c quote)

theorem closes_iff {after : List Char} : placeholderBody none (body ++ '}' :: after) = some body ↔ closes body = true := by
  rw [placeholderBody_self none body after []]
  simp [closes]

theorem placeholderBody_plain (h : ∀ c ∈ cs, c ≠ '}' ∧ c ≠ '\'' ∧ c ≠ '"') (text : List Char) :
    placeholderBody none (cs ++ text) = (placeholderBody none text).map (cs ++ ·) := by
  induction cs with
  | nil => simp
  | cons c cs ih =>
    obtain ⟨hbrace, hsingle, hdouble⟩ := h c mem_cons_self
    have hquote : quoteAfter c none = none := by simp [quoteAfter, hsingle, hdouble]
    rw [cons_append, placeholderBody_cons, if_neg (by simp [hbrace]), hquote,
      ih fun x hx => h x (mem_cons_of_mem _ hx), Option.map_map]
    rfl

def Passes (cs : List Char) : Prop := ∀ text, placeholderBody none (cs ++ text) = (placeholderBody none text).map (cs ++ ·)

theorem Passes.append {cs cs' : List Char} (h : Passes cs) (h' : Passes cs') : Passes (cs ++ cs') := by
  intro text
  rw [append_assoc, h, h', Option.map_map]
  congr 1
  funext body
  simp

theorem passes_plain {cs : List Char} (h : ∀ c ∈ cs, c ≠ '}' ∧ c ≠ '\'' ∧ c ≠ '"') : Passes cs := placeholderBody_plain h

theorem closes_append {a plain : List Char} (h : ∀ c ∈ plain, c ≠ '}' ∧ c ≠ '\'' ∧ c ≠ '"') :
    closes (a ++ plain) = true ↔ closes a = true := by
  have hquoted : ∀ {q : Char} {cs : List Char}, (q = '\'' ∨ q = '"') → (∀ c ∈ cs, c ≠ '\'' ∧ c ≠ '"') →
      placeholderBody (some q) cs = none := by
    intro q cs hq hcs
    induction cs with
    | nil => rfl
    | cons c cs ih =>
      obtain ⟨hc, hcs⟩ := forall_mem_cons.1 hcs
      have hne : c ≠ q := by rcases hq with rfl | rfl <;> simp [hc]
      rw [placeholderBody_cons, if_neg (by simp), quoteAfter, if_neg hne, ih hcs]
      rfl
  have hscan : ∀ quote : Option Char, (∀ q ∈ quote, q = '\'' ∨ q = '"') →
      (placeholderBody quote (a ++ plain ++ ['}']) = some (a ++ plain) ↔ placeholderBody quote (a ++ ['}']) = some a) := by
    intro quote hquote
    induction a generalizing quote with
    | nil =>
      cases quote with
      | none =>
        rw [nil_append, placeholderBody_plain h]
        simp [placeholderBody_cons]
      | some q =>
        have hplain : ∀ c ∈ plain ++ ['}'], c ≠ '\'' ∧ c ≠ '"' := by
          intro c hc
          rcases mem_append.1 hc with hc | hc
          · exact (h c hc).2
          · simp at hc
            simp [hc]
        rw [nil_append, hquoted (hquote q rfl) hplain, nil_append, hquoted (hquote q rfl) (by simp)]
        simp
    | cons c a ih =>
      simp only [cons_append, placeholderBody_cons]
      split
      · simp
      · have hnext : ∀ q ∈ quoteAfter c quote, q = '\'' ∨ q = '"' := by
          intro q hq
          unfold quoteAfter at hq
          split at hq
          · split at hq
            · cases hq
            · exact hquote q hq
          · split at hq
            · rename_i hc
              cases hq
              simpa using hc
            · cases hq
        simpa using ih _ hnext
  unfold closes
  simpa using hscan none (by simp)

theorem placeholderBody_quoted {q : Char} {cs : List Char} (h : q ∉ cs) (text : List Char) :
    placeholderBody (some q) (cs ++ q :: text) = (placeholderBody none text).map fun body => cs ++ q :: body := by
  induction cs with
  | nil =>
    rw [nil_append, placeholderBody_cons, if_neg (by simp), show quoteAfter q (some q) = none from if_pos rfl]
    rfl
  | cons c cs ih =>
    simp only [mem_cons, not_or] at h
    rw [cons_append, placeholderBody_cons, if_neg (by simp),
      show quoteAfter c (some q) = some q from if_neg fun e => h.1 e.symm, ih h.2, Option.map_map]
    rfl

end

/-- `${` replaced by its escape. -/
def escapeOpens : List Char → List Char
  | [] => []
  | '$' :: '{' :: rest => '$' :: '\\' :: '{' :: escapeOpens rest
  | c :: rest => c :: escapeOpens rest

def Unescaped (lit : List Char) : Prop := ¬ ['$', '\\', '{'] <:+: lit

structure ReadSoFar (lit rest : List Char) : Prop where
  unescaped : Unescaped lit
  dollar : ∀ l, lit = l ++ ['$'] → ¬ ['\\', '{'] <+: rest
  backslash : ∀ l, lit = l ++ ['$', '\\'] → ¬ ['{'] <+: rest

theorem ReadSoFar.nil (rest : List Char) : ReadSoFar [] rest := ⟨by simp [Unescaped], by simp, by simp⟩

theorem infix_append_singleton {pat : List Char} (h : pat <:+: lit ++ [c]) : pat <:+: lit ∨ pat <:+ lit ++ [c] := by
  obtain ⟨a, b, heq⟩ := h
  rcases eq_nil_or_concat b with rfl | ⟨b, x, rfl⟩
  · exact .inr ⟨a, by simpa using heq⟩
  · rw [concat_eq_append, ← append_assoc] at heq
    exact .inl ⟨a, b, (append_inj' heq rfl).1⟩

theorem ReadSoFar.push {rest : List Char} (h : ReadSoFar lit (c :: rest)) (hc : c = '$' → ¬ ['\\', '{'] <+: rest) :
    ReadSoFar (lit ++ [c]) rest where
  unescaped hinfix := by
    rcases infix_append_singleton hinfix with hin | ⟨l, hl⟩
    · exact h.unescaped hin
    · have hl' : (l ++ ['$', '\\']) ++ ['{'] = lit ++ [c] := by simpa using hl
      obtain ⟨hlit, hlast⟩ := append_inj' hl' rfl
      cases hlast
      exact h.backslash l hlit.symm (by simp)
  dollar l hl := by
    obtain ⟨-, hlast⟩ := append_inj' hl rfl
    cases hlast
    exact hc rfl
  backslash l hl := by
    have hl' : lit ++ [c] = (l ++ ['$']) ++ ['\\'] := by simpa using hl
    obtain ⟨hlit, hlast⟩ := append_inj' hl' rfl
    cases hlast
    intro hpre
    exact h.dollar l hlit (by simpa using hpre)

theorem ReadSoFar.escape {rest rest' : List Char} (h : ReadSoFar lit rest) : ReadSoFar (lit ++ ['$', '{']) rest' where
  unescaped hinfix := by
    have hinfix' : ['$', '\\', '{'] <:+: (lit ++ ['$']) ++ ['{'] := by simpa using hinfix
    rcases infix_append_singleton hinfix' with hin | ⟨l, hl⟩
    · rcases infix_append_singleton hin with hin | ⟨l, hl⟩
      · exact h.unescaped hin
      · have hl' : (l ++ ['$', '\\']) ++ ['{'] = lit ++ ['$'] := by simpa using hl
        cases (append_inj' hl' rfl).2
    · have hl' : (l ++ ['$']) ++ ['\\', '{'] = lit ++ ['$', '{'] := by simpa using hl
      cases (append_inj' hl' rfl).2
  dollar l hl := by
    have hl' : (lit ++ ['$']) ++ ['{'] = l ++ ['$'] := by simpa using hl
    cases (append_inj' hl' rfl).2
  backslash l hl := by
    have hl' : (lit ++ ['$']) ++ ['{'] = (l ++ ['$']) ++ ['\\'] := by simpa using hl
    cases (append_inj' hl' rfl).2

theorem escapeOpens_head (text : List Char) : (escapeOpens text).head? = text.head? := by
  fun_cases escapeOpens text <;> rfl

theorem head_escapeOpens (hafter : ∀ c ∈ after.head?, c = '$') (hc : c ≠ '$')
    (htext : text.head? ≠ some c) : (escapeOpens text ++ after).head? ≠ some c := by
  intro hhead
  rw [head?_append, escapeOpens_head] at hhead
  rcases Option.or_eq_some_iff.1 hhead with hhead | ⟨-, hhead⟩
  · exact htext hhead
  · exact hc (hafter c hhead)

theorem partsFrom_plain {rest : List Char} (hc : c = '$' → ¬ ['\\', '{'] <+: rest ∧ ¬ ['{'] <+: rest) :
    partsFrom lit 0 (c :: rest) = partsFrom (lit ++ [c]) 0 rest := by
  rw [partsFrom, if_neg, if_neg]
  · simp only [Bool.and_eq_true, decide_eq_true_eq, isPrefixOf_iff_prefix]
    exact fun h => (hc h.1).2 h.2
  · simp only [Bool.and_eq_true, decide_eq_true_eq, isPrefixOf_iff_prefix]
    exact fun h => (hc h.1).1 h.2

theorem partsFrom_escapeOpens (h : Unescaped text) (hafter : ∀ c ∈ after.head?, c = '$') :
    partsFrom lit 0 (escapeOpens text ++ after) = partsFrom (lit ++ text) 0 after := by
  fun_induction escapeOpens text generalizing lit with
  | case1 => simp
  | case2 rest ih =>
    have hrest : Unescaped rest := fun hin => h (hin.trans ⟨['$', '{'], [], by simp⟩)
    have hread : partsFrom lit 0 ('$' :: '\\' :: '{' :: (escapeOpens rest ++ after)) =
        partsFrom (lit ++ ['$', '{']) 0 (escapeOpens rest ++ after) := by
      rw [partsFrom, if_pos (by simp), partsFrom, partsFrom]
    rw [cons_append, cons_append, cons_append, hread, ih hrest]
    simp
  | case3 c rest hopen ih =>
    have hrest : Unescaped rest := fun hin => h (hin.trans ⟨[c], [], by simp⟩)
    rw [cons_append, partsFrom_plain, ih hrest]
    · simp
    · rintro rfl
      have hbrace : rest.head? ≠ some '{' := by
        intro hhead
        cases rest with
        | nil => cases hhead
        | cons d rest =>
          cases hhead
          exact hopen rest rfl rfl
      have hnot := head_escapeOpens hafter (by decide) hbrace
      refine ⟨?_, ?_⟩
      · rintro ⟨tail, htail⟩
        cases rest with
        | nil =>
          have hhead := hafter '\\' (by rw [← show _ = after from htail]; rfl)
          cases hhead
        | cons d rest =>
          have hd : d = '\\' := by
            have hhead := congrArg head? htail
            rw [head?_append, head?_append, escapeOpens_head] at hhead
            simpa using hhead.symm
          subst hd
          have htail' : '{' :: tail = escapeOpens rest ++ after := by
            have heq : '\\' :: '{' :: tail = '\\' :: (escapeOpens rest ++ after) := by simpa [escapeOpens] using htail
            exact (cons.inj heq).2
          -- the text would hold the escape
          have hrest' : rest.head? = some '{' := by
            by_contra hne
            refine head_escapeOpens hafter (by decide) hne ?_
            rw [← htail']
            rfl
          obtain ⟨rest', rfl⟩ : ∃ rest', rest = '{' :: rest' := head?_eq_some_iff.1 hrest'
          exact h ⟨[], rest', by simp⟩
      · rintro ⟨tail, htail⟩
        rw [← htail] at hnot
        exact hnot rfl

/-- The placeholder with this text between its braces. -/
abbrev RawPlaceholder.of (body : List Char) (segments : List Segment) : RawPlaceholder :=
  ⟨String.ofList (['$', '{'] ++ body ++ ['}']), segments⟩

def RawPlaceholder.Read (p : RawPlaceholder) (body : List Char) : Prop :=
  p.text = String.ofList (['$', '{'] ++ body ++ ['}']) ∧ closes body = true ∧ parsePath body = .ok p.segments

def partsOf (items : List (List Char × RawPlaceholder)) (last : List Char) : List Part :=
  items.flatMap (fun x => literalPart x.1 ++ [.placeholder x.2]) ++ literalPart last

structure ReadAs (parts : List Part) (items : List (List Char × RawPlaceholder)) (last : List Char) : Prop where
  parts_eq : parts = partsOf items last
  unescaped : ∀ x ∈ items, Unescaped x.1
  read : ∀ x ∈ items, ∃ body, x.2.Read body
  last : Unescaped last

theorem partsFrom_readAs (hlit : ReadSoFar lit (cs.drop skip))
    (h : partsFrom lit skip cs = .ok parts) : ∃ items last, ReadAs parts items last := by
  fun_induction partsFrom lit skip cs generalizing parts with
  | case1 lit skip =>
    cases h
    exact ⟨[], lit, ⟨by simp [partsOf], by simp, by simp, hlit.unescaped⟩⟩
  | case2 lit skip c rest ih => exact ih hlit h
  | case3 lit c rest hc ih => exact ih hlit.escape h
  | case4 => cases h
  | case5 lit c rest hc hc' body hbody ih =>
    obtain ⟨segments, hsegments, h⟩ := bind_eq_ok.1 h
    obtain ⟨more, hmore, h⟩ := bind_eq_ok.1 h
    cases h
    obtain ⟨items, last, hread⟩ := ih (.nil _) hmore
    have hcloses : closes body = true := by
      obtain ⟨after, hafter⟩ := placeholderBody_eq hbody
      rw [hafter] at hbody
      exact closes_iff.1 hbody
    refine ⟨(lit, .of body segments) :: items, last, ⟨?_, ?_, ?_, hread.last⟩⟩
    · rw [hread.parts_eq]
      simp [partsOf]
    · exact forall_mem_cons.2 ⟨hlit.unescaped, hread.unescaped⟩
    · exact forall_mem_cons.2 ⟨⟨body, rfl, hcloses, hsegments⟩, hread.read⟩
  | case6 lit c rest hc hc' ih =>
    refine ih (hlit.push fun hdollar hpre => hc ?_) h
    simp [hdollar, hpre]

theorem parseTemplate_readAs {s : String} (h : parseTemplate s = .ok parts) :
    ∃ items last, ReadAs parts items last := partsFrom_readAs (.nil _) (mapError_eq_ok.1 h)

theorem partsFrom_skip (lit cs rest : List Char) : partsFrom lit cs.length (cs ++ rest) = partsFrom lit 0 rest := by
  induction cs with
  | nil => rfl
  | cons c cs ih => rw [length_cons, cons_append, partsFrom, ih]

theorem partsFrom_placeholder {body : List Char} (h : placeholderBody none (body ++ '}' :: after) = some body) :
    partsFrom lit 0 ('$' :: '{' :: (body ++ '}' :: after)) = (do
      let segments ← parsePath body
      let parts ← partsFrom [] 0 after
      return literalPart lit ++ .placeholder (.of body segments) :: parts) := by
  have hskip := partsFrom_skip [] ('{' :: (body ++ ['}'])) after
  have hlen : ('{' :: (body ++ ['}'])).length = body.length + 2 := by simp
  have htext : '{' :: (body ++ ['}']) ++ after = '{' :: (body ++ '}' :: after) := by simp
  rw [hlen, htext] at hskip
  rw [partsFrom, if_neg (by simp), if_pos (by simp), tail_cons, h]
  dsimp only
  rw [hskip]

def rewritten (f : RawPlaceholder → List Char) (items : List (List Char × RawPlaceholder)) (last : List Char) : List Char :=
  items.flatMap (fun x => escapeOpens x.1 ++ '$' :: '{' :: (f x.2 ++ ['}'])) ++ escapeOpens last

inductive PartRel (R : RawPlaceholder → RawPlaceholder → Prop) : Part → Part → Prop where
  | literal (s : String) : PartRel R (.literal s) (.literal s)
  | placeholder {p q} : R p q → PartRel R (.placeholder p) (.placeholder q)

theorem forall₂_literalPart (R : RawPlaceholder → RawPlaceholder → Prop) (lit : List Char) :
    Forall₂ (PartRel R) (literalPart lit) (literalPart lit) := by
  unfold literalPart
  split
  · exact .nil
  · exact .cons (.literal _) .nil

section
variable {f : RawPlaceholder → List Char} {R : RawPlaceholder → RawPlaceholder → Prop} {Good : RawPlaceholder → Prop}
  {items : List (List Char × RawPlaceholder)} {last : List Char}

theorem rewritten_cons (f : RawPlaceholder → List Char) (x : List Char × RawPlaceholder)
    (items : List (List Char × RawPlaceholder))
    (last : List Char) : rewritten f (x :: items) last =
      escapeOpens x.1 ++ '$' :: '{' :: (f x.2 ++ '}' :: rewritten f items last) := by
  simp [rewritten]

theorem partsOf_cons (x : List Char × RawPlaceholder) (items : List (List Char × RawPlaceholder)) (last : List Char) :
    partsOf (x :: items) last = literalPart x.1 ++ .placeholder x.2 :: partsOf items last := by
  simp [partsOf]

theorem forall₂_after_literal {lit : List Char} {p q : RawPlaceholder} {parts parts' : List Part} :
    Forall₂ (PartRel R) (literalPart lit ++ .placeholder p :: parts) (literalPart lit ++ .placeholder q :: parts') ↔
      R p q ∧ Forall₂ (PartRel R) parts parts' := by
  have hrel : PartRel R (.placeholder p) (.placeholder q) ↔ R p q :=
    ⟨fun h => by cases h; assumption, .placeholder⟩
  unfold literalPart
  split
  · simp [forall₂_cons, hrel]
  · simp [forall₂_cons, hrel, PartRel.literal]

/-- Spelled as `text`, a good placeholder is read as one that `R` relates to it, and only a good one is. -/
structure Respelled (R : RawPlaceholder → RawPlaceholder → Prop) (Good : RawPlaceholder → Prop) (p : RawPlaceholder)
    (text : List Char) : Prop where
  good : Good p → closes text = true ∧ ∃ segs, parsePath text = .ok segs ∧ R p (.of text segs)
  bad : ∀ {body segs after}, placeholderBody none (text ++ '}' :: after) = some body → parsePath body = .ok segs →
    R p (.of body segs) → Good p

theorem rewritten_iff (hitems : ∀ x ∈ items, Unescaped x.1) (hlast : Unescaped last)
    (hspelled : ∀ x ∈ items, Respelled R Good x.2 (f x.2)) :
    (∃ parts, partsFrom [] 0 (rewritten f items last) = .ok parts ∧ Forall₂ (PartRel R) (partsOf items last) parts) ↔
      ∀ x ∈ items, Good x.2 := by
  induction items with
  | nil =>
    have hread : partsFrom [] 0 (escapeOpens last ++ []) = _ := partsFrom_escapeOpens hlast (by simp)
    refine iff_of_true ⟨literalPart last, ?_, forall₂_literalPart R last⟩ (by simp)
    simpa [rewritten, partsFrom] using hread
  | cons x items ih =>
    obtain ⟨hx, hitems⟩ := forall_mem_cons.1 hitems
    obtain ⟨hspelledx, hspelled⟩ := forall_mem_cons.1 hspelled
    rw [forall_mem_cons, ← ih hitems hspelled, rewritten_cons, partsFrom_escapeOpens hx (by simp), nil_append,
      partsOf_cons]
    have hstep : Good x.2 → ((∃ parts, partsFrom x.1 0 ('$' :: '{' :: (f x.2 ++ '}' :: rewritten f items last)) = .ok parts ∧
        Forall₂ (PartRel R) (literalPart x.1 ++ .placeholder x.2 :: partsOf items last) parts) ↔
        ∃ parts, partsFrom [] 0 (rewritten f items last) = .ok parts ∧
          Forall₂ (PartRel R) (partsOf items last) parts) := by
      intro hg
      obtain ⟨hcloses, segs, hsegs, hR⟩ := hspelledx.good hg
      rw [partsFrom_placeholder (closes_iff.2 hcloses), hsegs, ok_bind]
      constructor
      · rintro ⟨parts, hparts, hrel⟩
        obtain ⟨more, hmore, hparts⟩ := bind_eq_ok.1 hparts
        cases hparts
        exact ⟨more, hmore, (forall₂_after_literal.1 hrel).2⟩
      · rintro ⟨more, hmore, hrel⟩
        exact ⟨_, bind_eq_ok.2 ⟨more, hmore, rfl⟩, forall₂_after_literal.2 ⟨hR, hrel⟩⟩
    constructor
    · rintro ⟨parts, hparts, hrel⟩
      have hg : Good x.2 := by
        cases hbody : placeholderBody none (f x.2 ++ '}' :: rewritten f items last) with
        | none =>
          rw [partsFrom, if_neg (by simp), if_pos (by simp), tail_cons, hbody] at hparts
          cases hparts
        | some body =>
          obtain ⟨after, hafter⟩ := placeholderBody_eq hbody
          have hself := hbody
          rw [hafter] at hparts hself
          rw [partsFrom_placeholder hself] at hparts
          obtain ⟨segs, hsegs, hparts⟩ := bind_eq_ok.1 hparts
          obtain ⟨more, hmore, hparts⟩ := bind_eq_ok.1 hparts
          cases hparts
          exact hspelledx.bad hbody hsegs (forall₂_after_literal.1 hrel).1
      exact ⟨hg, (hstep hg).1 ⟨parts, hparts, hrel⟩⟩
    · rintro ⟨hg, hrest⟩
      exact (hstep hg).2 hrest

end

end Openporch
