import Openporch.Deferred
import Openporch.Planner.OwnDependencies

/-!
# The outputs handed to a workload

`output_placeholders` of `crates/engine/src/planner.rs` writes a placeholder for each output of a workload's
dependencies, which is resolved with the rest of the params. A key that is no name is written in quotes as it is, so a
quote or a bracket in it ends the key.
-/

namespace Openporch
open Asking List Fallible JsonMap Ask BTreeMap Segment

theorem isName_pathName {s : String} (h : isName s = true) : IsPathName s := by
  simp only [isName, Bool.and_eq_true, Bool.not_eq_true', all_eq_true] at h
  refine ⟨by simpa using h.1, fun c hc => ?_⟩
  have hchar : isResIdChar c = true := by
    have hc := h.2 c hc
    simp only [isResIdChar, Bool.or_eq_true, decide_eq_true_eq] at hc ⊢
    tauto
  exact ⟨(isResIdChar_spec hchar).1, (isResIdChar_spec hchar).2.1⟩

def keySegment (key : String) : Segment := if isName key then .name key else .quoted key

theorem outputPlaceholder_eq (key name : String) :
    outputPlaceholder key name = pathText "externals" [keySegment key, .name name] := by
  apply String.toList_injective
  unfold outputPlaceholder keySegment
  split <;> simp [pathText, pathChars, text]

def Holdable (key : String) : Bool :=
  isName key || !key.toList.contains ']' && closes ("externals['" ++ key ++ "']").toList

section
variable {key name location : String}

theorem isPathName_externals : IsPathName "externals" := ⟨by decide, by simp; decide⟩

theorem pathName_plain {s : String} (h : IsPathName s) : ∀ c ∈ '.' :: s.toList, c ≠ '}' ∧ c ≠ '\'' ∧ c ≠ '"' := by
  intro c hc
  rcases mem_cons.1 hc with rfl | hc
  · decide
  · exact ⟨(h.2 c hc).2, isNameChar_unquoted (h.2 c hc).1⟩

theorem closes_output (hkey : isName key = false) (hname : isName name = true) :
    closes ("externals".toList ++ pathChars [keySegment key, .name name]) = true ↔
      closes ("externals['" ++ key ++ "']").toList = true := by
  have hbody : "externals".toList ++ pathChars [keySegment key, .name name] =
      ("externals['" ++ key ++ "']").toList ++ '.' :: name.toList := by simp [keySegment, hkey, pathChars, text]
  rw [hbody, closes_append (pathName_plain (isName_pathName hname))]

theorem parse_output (hkey : Holdable key = true) (hname : isName name = true) :
    parseTemplate (outputPlaceholder key name) =
      .ok [.placeholder ⟨outputPlaceholder key name, [.name "externals", keySegment key, .name name]⟩] := by
  have hlast : (Segment.name name).Writable := isName_pathName hname
  rw [outputPlaceholder_eq]
  by_cases hplain : isName key = true
  · have hsegs : ∀ seg ∈ [keySegment key, .name name], seg.Writable := by
      rw [keySegment, if_pos hplain]
      simpa using ⟨(isName_pathName hplain : (Segment.name key).Writable), hlast⟩
    exact parse_path isPathName_externals hsegs
  · simp only [Holdable, hplain, Bool.false_or, Bool.and_eq_true, Bool.not_eq_true'] at hkey
    have hbracket : ']' ∉ key.toList := by simpa using hkey.1
    have hsegs : ∀ seg ∈ [keySegment key, .name name], seg.Printable := by
      rw [keySegment, if_neg hplain]
      simpa using ⟨(hbracket : (Segment.quoted key).Printable), hlast.printable⟩
    exact parse_of_closes isPathName_externals hsegs ((closes_output (by simpa using hplain) hname).2 hkey.2)

theorem interpret_keySegment (text : String) :
    Expr.interpret ⟨text, [.name "externals", keySegment key, .name name]⟩ .set = .ok (.externals key [.name name]) := by
  unfold keySegment
  split <;> rfl

def Lookup.resolved : Lookup → Resolved
  | .value v => .value v
  | .secret r => .secret ⟨[.secret r]⟩

theorem resolveString_whole {dialect : Dialect} {answer} {t : String} {p : RawPlaceholder} {r : Resolved}
    (h : parseTemplate t = .ok [.placeholder p]) : (resolveString dialect .secret location t).run answer = .ok r ↔
      ∃ e found, Expr.interpret p dialect = .ok e ∧ answer e = .ok found ∧ r = found.lookup.resolved := by
  have hassemble : ∀ l : Lookup, assemble [.placeholder p] [l] = l.resolved := fun l => by cases l <;> rfl
  rw [resolveString, h]
  simp only [run_bind_eq_ok, show placeholders [.placeholder p] = [p] from rfl, lookUps, lookUp]
  cases hinterpret : Expr.interpret p dialect with
  | error k => simp [Ask.run]
  | ok e =>
    cases hanswer : answer e with
    | error reason => simp [Ask.run, hanswer]
    | ok found =>
      have hpure : ∀ {α : Type} (a : α), Ask.run answer (pure a : ResolveM α) = .ok a := fun _ => rfl
      cases hlookup : found.lookup <;> simp [Ask.run, hanswer, hlookup, hpure, hassemble, eq_comm]

theorem resolveString_output {s : MapScope} {outputs} {l : Lookup} (hkey : Holdable key = true)
    (hname : isName name = true) (hout : s.externals[key]? = some outputs) (hl : outputs.get [.name name] = .ok l) :
    (resolveString .set .secret location (outputPlaceholder key name)).run s.answer = .ok l.resolved := by
  have hlookup : s.lookup (.externals key [.name name]) = .ok l := by
    simp only [MapScope.lookup, hout, Option.elim_some, ok_bind, hl]
  exact (resolveString_whole (parse_output hkey hname)).2
    ⟨_, _, interpret_keySegment _, bind_eq_ok.2 ⟨l, hlookup, rfl⟩, rfl⟩

end

variable {seg : Segment} {key name : String} {s : MapScope}
  {cs : List Char} {p : RawPlaceholder} {m : JsonMap} {f : String × Json}

theorem segmentsFrom_cons_inv {more : List Segment} (h : segmentsFrom false 0 cs = .ok (seg :: more)) :
    ∃ rest, segmentsFrom false 0 rest = .ok more ∧
      ((∃ inner, ']' ∉ inner ∧ cs = '[' :: (inner ++ ']' :: rest)) ∨
        ∃ name, (∀ c ∈ name, isNameChar c = true) ∧ cs = '.' :: (name ++ rest)) := by
  cases cs with
  | nil => cases h
  | cons c cs =>
    unfold segmentsFrom at h
    split at h
    · rename_i hopen
      dsimp only at h
      split at h
      · cases h
      · rename_i hlen
        obtain ⟨seg', -, h⟩ := bind_eq_ok.1 h
        obtain ⟨more', hmore, h⟩ := bind_eq_ok.1 h
        cases h
        have hcs := cs.takeWhile_append_dropWhile (p := (· ≠ ']'))
        have hnot : ']' ∉ cs.takeWhile (· ≠ ']') := fun hmem => by simpa using mem_takeWhile_imp hmem
        have hstop := head_dropWhile (fun c => decide (c ≠ ']')) cs
        generalize cs.takeWhile (· ≠ ']') = inner at hcs hnot hlen hmore
        generalize cs.dropWhile (· ≠ ']') = tail at hcs hstop
        cases tail with
        | nil => simp [← hcs] at hlen
        | cons x rest =>
          obtain rfl : x = ']' := by simpa using hstop x rfl
          have hskip := segmentsFrom_skip false (inner ++ [']']) rest
          rw [length_append, append_assoc] at hskip
          rw [← hcs, show inner.length + 1 = inner.length + [']'].length from rfl] at hmore
          exact ⟨rest, hskip ▸ hmore, .inl ⟨inner, hnot, by rw [hopen, hcs]⟩⟩
    · split at h
      · rename_i hdot
        dsimp only at h
        split at h
        · cases h
        · obtain ⟨more', hmore, h⟩ := bind_eq_ok.1 h
          cases h
          have hcs := cs.takeWhile_append_dropWhile (p := isNameChar)
          have hskip := segmentsFrom_skip false (cs.takeWhile isNameChar) (cs.dropWhile isNameChar)
          rw [hcs, hmore] at hskip
          simp only [Bool.not_false, Bool.and_true, decide_eq_true_eq] at hdot
          exact ⟨_, hskip.symm, .inr ⟨_, fun c hc => mem_takeWhile_imp hc, by rw [hdot, hcs]⟩⟩
      · split at h
        · rename_i hfirst
          cases hfirst
        · cases h

theorem segmentsFrom_nil_inv (h : segmentsFrom false 0 cs = .ok []) : cs = [] := by
  cases cs with
  | nil => rfl
  | cons c cs =>
    unfold segmentsFrom at h
    split at h
    · dsimp only at h
      split at h
      · cases h
      · obtain ⟨seg, -, h⟩ := bind_eq_ok.1 h
        obtain ⟨more, -, h⟩ := bind_eq_ok.1 h
        cases h
    · split at h
      · dsimp only at h
        split at h
        · cases h
        · obtain ⟨more, -, h⟩ := bind_eq_ok.1 h
          cases h
      · split at h
        · rename_i hfirst
          cases hfirst
        · cases h

theorem segmentsFrom_single {u v : List Char} (h : segmentsFrom false 0 (u ++ ']' :: v) = .ok [seg]) : v = [] := by
  obtain ⟨rest, hrest, htext⟩ := segmentsFrom_cons_inv h
  obtain rfl := segmentsFrom_nil_inv hrest
  rcases htext with ⟨inner, hinner, htext⟩ | ⟨name, hname, htext⟩
  · have hopen : ']' ∉ '[' :: inner := by simpa using hinner
    have hsplit : splitOnce ']' ('[' :: (inner ++ ']' :: [])) = some ('[' :: inner, []) := splitOnce_append hopen []
    by_cases hu : ']' ∈ u
    · obtain ⟨a, b, rfl, ha⟩ := eq_append_cons_of_mem hu
      rw [← htext, append_assoc, cons_append, splitOnce_append ha] at hsplit
      simp at hsplit
    · rw [← htext, splitOnce_append hu] at hsplit
      exact (Prod.mk.inj (Option.some.inj hsplit)).2
  · have hmem : ']' ∈ '.' :: (name ++ []) := htext ▸ by simp
    simp only [append_nil, mem_cons, Char.reduceEq, false_or] at hmem
    exact absurd (hname _ hmem) (by decide)

theorem read_of_single {s : String} (h : parseTemplate s = .ok [.placeholder p]) :
    p.text = s ∧ ∃ body, p.Read body := by
  obtain ⟨spans, hflatten, hspans⟩ := (partsFrom_spans (mapError_eq_ok.1 h)).forall₂
  obtain ⟨items, last, hread⟩ := parseTemplate_readAs h
  constructor
  · cases hspans with
    | cons hspan hnil =>
      cases hnil
      cases hspan
      exact String.toList_injective (by simpa using hflatten)
  · have hmem : .placeholder p ∈ partsOf items last := hread.parts_eq ▸ mem_cons_self
    rcases mem_append.1 hmem with hmem | hmem
    · obtain ⟨x, hx, hmem⟩ := mem_flatMap.1 hmem
      rcases mem_append.1 hmem with hmem | hmem
      · exact absurd hmem mem_literalPart
      · obtain ⟨body, hbody⟩ := hread.read x hx
        simp only [mem_singleton, Part.placeholder.injEq] at hmem
        exact ⟨body, hmem ▸ hbody⟩
    · exact absurd hmem mem_literalPart

theorem segments_of_bracket (hkey : isName key = false) (hbracket : ']' ∈ key.toList) {seg' : Segment} :
    segmentsFrom false 0 (pathChars [keySegment key, .name name]) ≠ .ok [seg, seg'] := by
  intro h
  obtain ⟨a, b, hsplit, ha⟩ := eq_append_cons_of_mem hbracket
  have htext : pathChars [keySegment key, .name name] = '[' :: (('\'' :: a) ++
    ']' :: (b ++ '\'' :: ']' :: '.' :: name.toList)) := by
    simp [keySegment, hkey, pathChars, text, hsplit]
  obtain ⟨rest, hrest, ⟨inner, hinner, hcs⟩ | ⟨other, -, hcs⟩⟩ := segmentsFrom_cons_inv h
  · rw [htext, List.cons.injEq] at hcs
    have hfirst := congrArg (splitOnce ']') hcs.2
    rw [splitOnce_append hinner, splitOnce_append (by simpa using ha)] at hfirst
    simp only [Option.some.injEq, Prod.mk.injEq] at hfirst
    have hone : segmentsFrom false 0 ((b ++ ['\'']) ++ ']' :: '.' :: name.toList) = .ok [seg'] := by
      rw [← hrest, ← hfirst.2]
      simp
    exact absurd (segmentsFrom_single hone) (by simp)
  · rw [htext] at hcs
    simp at hcs

def FlatOutputs (o : ResourceOutputs) : Prop := ∀ path l, o.get path = .ok l → ∃ seg, path = [seg]

theorem interpret_externals_inv {segs : List Segment} {e : Expr} (hp : p.segments = .name "externals" :: segs)
    (h : Expr.interpret p .set = .ok e) : ∃ key seg path, segs = seg :: path ∧ e = .externals key path := by
  have hinterpret : Expr.interpret p .set = Expr.interpretOutput "externals" .externals segs := by
    unfold Expr.interpret RawPlaceholder.root
    rw [hp]
    rfl
  rw [hinterpret, Expr.interpretOutput] at h
  split at h
  · rename_i key seg path hkeyed
    cases h
    cases segs with
    | nil => cases hkeyed
    | cons first rest =>
      obtain ⟨k, -, heq⟩ := Option.map_eq_some_iff.1 hkeyed
      cases heq
      exact ⟨_, first, seg :: path, rfl, rfl⟩
  · cases h

theorem resolveString_unheld {location : String} (hkey : Holdable key = false) (hname : isName name = true)
    (hflat : ∀ (k : String) (o : ResourceOutputs), s.externals[k]? = some o → FlatOutputs o) (b : Bool) :
    (resolveString .set .secret location (outputPlaceholder key name)).run s.answer ≠ .ok (.value (.bool b)) := by
  intro h
  simp only [Holdable, Bool.or_eq_false_iff, Bool.and_eq_false_iff, Bool.not_eq_false'] at hkey
  obtain ⟨hplain, hkey⟩ := hkey
  obtain ⟨parts, ls, hparts, -, hb, -, hlen⟩ := resolveString_found h
  rcases assemble_cases hlen with ⟨p, l, rfl, rfl⟩ | htext
  · -- one placeholder is the whole text, so it ends where it should and the key has a bracket
    obtain ⟨htext, body, hbody, hcloses, hsegs⟩ := read_of_single hparts
    obtain rfl : body = "externals".toList ++ pathChars [keySegment key, .name name] := by
      rw [outputPlaceholder_eq, hbody, pathText, ← String.toList_inj, String.toList_ofList, String.toList_ofList] at htext
      exact append_cancel_left (append_cancel_right htext)
    have hbracket : ']' ∈ key.toList := by
      rcases hkey with hbracket | hends
      · simpa using hbracket
      · rw [closes_output hplain hname, hends] at hcloses
        cases hcloses
    rw [parsePath_root (by decide) (fun c hc => (isPathName_externals.2 c hc).1) (pathChars_head _)] at hsegs
    obtain ⟨segs, hread, hp⟩ := map_eq_ok.1 hsegs
    obtain ⟨e, found, he, hans, -⟩ := (resolveString_whole hparts).1 h
    obtain ⟨k, seg, path, rfl, rfl⟩ := interpret_externals_inv hp.symm he
    obtain ⟨l, hl, -⟩ := bind_eq_ok.1 hans
    obtain ⟨o, ho, hl⟩ := bind_eq_ok.1 hl
    have hscope : s.externals[k]? = some o := by
      cases hk : s.externals[k]? with
      | none => simp [hk] at ho
      | some o' => simpa [hk] using ho
    obtain ⟨seg', rfl⟩ := hflat k o hscope path l hl
    exact segments_of_bracket hplain hbracket hread
  · rcases htext ls with ⟨-, heq⟩ | ⟨-, heq⟩
    · rw [heq] at hb
      cases hb
    · rw [heq] at hb
      cases hb

theorem JsonMap.mem_insert_iff {v : Json} :
    f ∈ m.insert key v ↔ f ∈ m ∧ f.1 ≠ key ∨ f = (key, v) := by
  unfold insert
  split
  · rename_i hany
    obtain ⟨g, hg, hkey⟩ := any_eq_true.1 hany
    simp only [decide_eq_true_eq] at hkey
    rw [mem_map]
    constructor
    · rintro ⟨h, hh, rfl⟩
      split
      · exact .inr rfl
      · rename_i hne
        exact .inl ⟨hh, hne⟩
    · rintro (⟨hf, hne⟩ | rfl)
      · exact ⟨f, hf, if_neg hne⟩
      · exact ⟨g, hg, if_pos hkey⟩
  · rename_i hany
    have hnone : ∀ g ∈ m, g.1 ≠ key := fun g hg hkey => hany (any_eq_true.2 ⟨g, hg, by simpa using hkey⟩)
    rw [mem_append, mem_singleton]
    constructor
    · rintro (hf | rfl)
      · exact .inl ⟨hf, hnone f hf⟩
      · exact .inr rfl
    · rintro (⟨hf, -⟩ | rfl)
      · exact .inl hf
      · exact .inr rfl

theorem JsonMap.mem_extend {fields : JsonMap} (h : f ∈ m.extend fields) : f ∈ m ∨ f ∈ fields := by
  unfold extend at h
  induction fields generalizing m with
  | nil => exact .inl h
  | cons g fields ih =>
    rcases ih h with h | h
    · rcases mem_insert h with h | rfl
      · exact .inl h
      · exact .inr mem_cons_self
    · exact .inr (mem_cons_of_mem _ h)

section
variable {dialect : Dialect} {P : Option Expr → Prop}

/-- Whatever the first value reads is read by the second, or is one of `P`. -/
def ReadsWithin (dialect : Dialect) (P : Option Expr → Prop) (v w : Json) : Prop :=
  ∀ x ∈ reads dialect v, x ∈ reads dialect w ∨ P x

theorem ReadsWithin.refl (v : Json) : ReadsWithin dialect P v v := fun _ hx => .inl hx

theorem ReadsWithin.fields {fields : List (String × Json)} {f g : String × Json → Json}
    (h : ∀ y, ReadsWithin dialect P (f y) (g y)) :
    ReadsWithin dialect P (.obj (fields.map fun y => (y.1, f y))) (.obj (fields.map fun y => (y.1, g y))) := by
  intro x hx
  obtain ⟨z, hz, hx⟩ := mem_readsFields.1 hx
  obtain ⟨y, hy, rfl⟩ := mem_map.1 hz
  exact (h y x hx).imp_left fun hx => mem_readsFields.2 ⟨_, mem_map.2 ⟨y, hy, rfl⟩, hx⟩

theorem ReadsWithin.modify {f g : Json → Json} (h : ∀ v, ReadsWithin dialect P (f v) (g v)) (key : String) (v : Json) :
    ReadsWithin dialect P (v.modify key f) (v.modify key g) := by
  cases v with
  | obj fields =>
    rw [modify_obj, modify_obj]
    refine .fields fun y => ?_
    split
    · exact h y.2
    · exact .refl _
  | _ => exact .refl _

theorem ReadsWithin.modifyValues {f g : Json → Json} (h : ∀ v, ReadsWithin dialect P (f v) (g v)) (v : Json) :
    ReadsWithin dialect P (v.modifyValues f) (v.modifyValues g) := by
  cases v with
  | obj fields => exact .fields fun y => h y.2
  | _ => exact .refl _

variable {key key' : String}

theorem ReadsWithin.insert {m m' : JsonMap} {v v' : Json} (hv : ∀ x ∈ reads dialect v, P x)
    (h : ∀ f ∈ m, f.1 ≠ key → ∃ f' ∈ m', f'.1 ≠ key ∧ ReadsWithin dialect P f.2 f'.2) :
    ReadsWithin dialect P (.obj (m.insert key v)) (.obj (m'.insert key v')) := by
  intro x hx
  obtain ⟨f, hf, hx⟩ := mem_readsFields.1 hx
  rcases mem_insert_iff.1 hf with ⟨hf, hne⟩ | rfl
  · obtain ⟨f', hf', hne', hwithin⟩ := h f hf hne
    exact (hwithin x hx).imp_left fun hx => mem_readsFields.2 ⟨f', mem_insert_iff.2 (.inl ⟨hf', hne'⟩), hx⟩
  · exact .inr (hv x hx)

theorem modify_comm (hne : key ≠ key') (f g : Json → Json) (v : Json) :
    (v.modify key f).modify key' g = (v.modify key' g).modify key f := by
  cases v with
  | obj fields =>
    simp only [modify_obj, map_map, Json.obj.injEq]
    refine map_congr_left fun y _ => ?_
    dsimp only [Function.comp_apply]
    by_cases hkey : y.1 = key
    · have hother : y.1 ≠ key' := hkey ▸ hne
      simp [hkey, hne]
    · simp [hkey]
  | _ => rfl

theorem setAsideField_modify (hne : key ≠ key') (path : List String) (f : List String → Json → Json × SetAside)
    (g : Json → Json) (v : Json) :
    (setAsideField key path f (v.modify key' g)).1 = (setAsideField key path f v).1.modify key' g := by
  unfold setAsideField
  rw [field_modify]
  cases v.field? key with
  | none => rfl
  | some below =>
    simp only [Option.map_some, if_neg hne]
    exact modify_comm hne.symm _ _ v

theorem modify_insert (hne : key ≠ key') (m : JsonMap) (v : Json) (f : Json → Json) :
    (Json.obj (JsonMap.insert m key v)).modify key' f =
      .obj (JsonMap.insert (m.map fun y => (y.1, if y.1 = key' then f y.2 else y.2)) key v) := by
  rw [modify_obj, Json.obj.injEq]
  unfold JsonMap.insert
  simp only [any_map, Function.comp_def]
  split
  · rw [map_map, map_map]
    refine map_congr_left fun y _ => ?_
    dsimp only [Function.comp_apply]
    by_cases hkey : y.1 = key
    · simp [hkey, hne]
    · simp [hkey]
  · simp [hne]

variable {externals : BTreeMap String ResourceOutputs}

/-- The placeholders for outputs read what `P` allows. -/
def OutputsRead (dialect : Dialect) (P : Option Expr → Prop) (externals : BTreeMap String ResourceOutputs) : Prop :=
  ∀ (key : String) (outputs : ResourceOutputs), externals[key]? = some outputs →
    ∀ x ∈ reads dialect (outputPlaceholders key outputs), P x

theorem addOutputs_within (h : OutputsRead dialect P externals) (v : Json) :
    ReadsWithin dialect P (addOutputs externals v) (addOutputs ∅ v) := by
  cases v with
  | obj body =>
    cases hres : (get body "resource").bind Json.asStr? with
    | none =>
      simp only [addOutputs, hres]
      exact .refl _
    | some key =>
      simp only [addOutputs, hres, Std.ExtTreeMap.getElem?_empty]
      cases hout : externals[key]? with
      | none => exact .refl _
      | some outputs =>
        intro x hx
        obtain ⟨f, hf, hx⟩ := mem_readsFields.1 hx
        rcases mem_insert hf with hf | rfl
        · exact .inl (mem_readsFields.2 ⟨f, hf, hx⟩)
        · exact .inr (h key outputs hout x hx)
  | _ => exact .refl _

theorem addTriggerOutputs_within (h : OutputsRead dialect P externals) (path : List String) (spec : Json) :
    ReadsWithin dialect P (setAsideNoExpand path (addTriggerOutputs externals spec)).1
      (setAsideNoExpand path (addTriggerOutputs ∅ spec)).1 := by
  unfold setAsideNoExpand addTriggerOutputs
  rw [setAsideField_modify (by decide), setAsideField_modify (by decide)]
  exact .modify (fun v => .modifyValues (fun v => .modifyValues (addOutputs_within h) v) v) _ _

theorem dependencies_read (h : OutputsRead dialect P externals) : ∀ x ∈ reads dialect
    (.obj (externals.toList.map fun (key, outputs) => (key, outputPlaceholders key outputs))), P x := by
  intro x hx
  obtain ⟨f, hf, hx⟩ := mem_readsFields.1 hx
  obtain ⟨⟨key, outputs⟩, hmem, rfl⟩ := mem_map.1 hf
  exact h key outputs (Std.ExtTreeMap.mem_toList_iff_getElem?_eq_some.1 hmem) x hx

theorem jobParams_within (h : OutputsRead dialect P externals) (node : Node) :
    ReadsWithin dialect P (jobParams node externals).1 (jobParams node ∅).1 := by
  unfold jobParams
  dsimp only
  split
  · generalize node.params.getD .null = params
    cases params with
    | obj fields =>
      unfold setAsideField addDependencyOutputs
      dsimp only
      have hspec : ∀ v : Json, (Json.obj (insert fields "dependencies" v)).field? "spec" = (Json.obj fields).field? "spec" :=
        fun v => get_insert_of_ne fields v (by decide)
      rw [hspec, hspec]
      cases (Json.obj fields).field? "spec" with
      | none => exact .insert (dependencies_read h) fun f hf hne => ⟨f, hf, hne, .refl _⟩
      | some spec =>
        dsimp only
        rw [modify_insert (by decide), modify_insert (by decide)]
        refine .insert (dependencies_read h) fun f hf hne => ?_
        obtain ⟨y, hy, rfl⟩ := mem_map.1 hf
        refine ⟨_, mem_map.2 ⟨y, hy, rfl⟩, hne, ?_⟩
        dsimp only
        split
        · exact addTriggerOutputs_within h _ spec
        · exact .refl _
    | _ => exact .refl _
  · exact .refl _

end

def ResourceOutputs.names (o : ResourceOutputs) : List String := (o.values.map (·.1) ++ o.secrets.keys).filter isName

theorem field_outputPlaceholders {text : String} {outputs}
    (h : (outputPlaceholders key outputs).field? name = some (.str text)) :
    name ∈ outputs.names ∧ text = outputPlaceholder key name := by
  have hmem := mem_of_get h
  rcases mem_extend hmem with hmem | hmem
  · cases hmem
  · obtain ⟨name', hname, heq⟩ := mem_map.1 hmem
    cases heq
    exact ⟨hname, rfl⟩

theorem get_of_names {o : ResourceOutputs} (h : name ∈ o.names) : ∃ l, o.get [.name name] = .ok l := by
  obtain ⟨hmem, -⟩ := mem_filter.1 h
  simp only [ResourceOutputs.get, key]
  cases hsecret : o.secrets[name]? with
  | some r => exact ⟨.secret r, rfl⟩
  | none =>
    rcases mem_append.1 hmem with hmem | hmem
    · cases hvalue : get o.values name with
      | none => exact absurd hmem (get_eq_none.1 hvalue)
      | some v => exact ⟨.value v, rfl⟩
    · obtain ⟨r, hr⟩ := mem_iff.1 (Std.ExtTreeMap.mem_keys.1 hmem)
      rw [hsecret] at hr
      cases hr

theorem outputsRead_of_holdable (h : ∀ key ∈ s.externals, Holdable key = true) :
    OutputsRead .set (fun x => ∃ e a, x = some e ∧ s.answer e = .ok a) s.externals := by
  intro key outputs hout x hx
  obtain ⟨f, hf, hx⟩ := mem_readsFields.1 hx
  rcases mem_extend hf with hf | hf
  · cases hf
  · obtain ⟨name, hname, rfl⟩ := mem_map.1 hf
    have hkey := h key (mem_iff.2 ⟨outputs, hout⟩)
    have hplain : isName name = true := (mem_filter.1 hname).2
    obtain ⟨l, hl⟩ := get_of_names hname
    have hreads : readsString .set (outputPlaceholder key name) = [some (.externals key [.name name])] := by
      rw [readsString, parse_output hkey hplain]
      simp [placeholders, interpret_keySegment, Except.toOption]
    have hlookup : s.lookup (.externals key [.name name]) = .ok l := by
      simp only [MapScope.lookup, hout, Option.elim_some, ok_bind, hl]
    rw [reads, Json.texts, flatMap_singleton, hreads, mem_singleton] at hx
    exact ⟨_, _, hx, bind_eq_ok.2 ⟨l, hlookup, rfl⟩⟩

theorem jobInputs_unbroken {n : Node} (hdialect : paramsDialect n = .set) (h : ∀ key ∈ s.externals, Holdable key = true)
    (dfn : ResourceDefinition) {r} (hrun : (jobInputs n dfn ∅).run s.answer = .ok r) :
    ∃ r', (jobInputs n dfn s.externals).run s.answer = .ok r' := by
  obtain ⟨⟨values, secrets, found⟩, hinputs, hrun⟩ := run_bind_eq_ok.1 hrun
  obtain ⟨account, haccount, hrun⟩ := run_bind_eq_ok.1 hrun
  obtain ⟨x, hparams, hrun⟩ := run_bind_eq_ok.1 hrun
  have hanswered := (resolveParams_script n ∅).answered_iff.1 ⟨x, hparams⟩
  obtain ⟨y, hy⟩ := (resolveParams_script n s.externals).answered_iff.2 fun z hz => by
    rw [hdialect] at hz hanswered
    exact (jobParams_within (outputsRead_of_holdable h) n z hz).elim (hanswered z) id
  exact ⟨_, run_bind_eq_ok.2 ⟨_, hinputs, run_bind_eq_ok.2 ⟨_, haccount, run_bind_eq_ok.2 ⟨y, hy, rfl⟩⟩⟩⟩

namespace Engine.Deployment

/-- Whatever its dependencies' outputs are, each placeholder written for one resolves to the output of that name of the
dependency with the key, and a job that resolves without them resolves with them. -/
structure OutputsHanded (dep : Engine.Deployment) (wid : WorkloadId) (m : Module) (n : Node) : Prop where
  resolved : ∀ (done : BTreeMap Descriptor ResourceOutputs) (guresid : Option Guresid), (∀ d ∈ n.dependsOn, d ∈ done) →
    ∀ (key : String) (outputs : ResourceOutputs), (dep.scopeFor n done guresid).externals[key]? = some outputs →
    ∀ name text : String, (outputPlaceholders key outputs).field? name = some (.str text) →
    ∀ (x : Descriptor) (o : ResourceOutputs), dep.Hands wid m n key x → done[x]? = some o →
    ∃ l, o.get [.name name] = .ok l ∧ ∀ location,
      (resolveString (paramsDialect n) .secret location text).run (dep.scopeFor n done guresid).answer = .ok l.resolved
  unbroken : ∀ (done : BTreeMap Descriptor ResourceOutputs) (guresid : Option Guresid), (∀ d ∈ n.dependsOn, d ∈ done) →
    ∀ (dfn : ResourceDefinition) (r : JobInputs × Option AccountId),
    (jobInputs n dfn ∅).run (dep.scopeFor n done guresid).answer = .ok r →
    ∃ r', (jobInputs n dfn (dep.scopeFor n done guresid).externals).run (dep.scopeFor n done guresid).answer = .ok r'

section
variable {input : GraphInput} {dep : Engine.Deployment} {wid : WorkloadId} {m : Module} {n : Node} {x : Descriptor} {key : String}
  {done : BTreeMap Descriptor ResourceOutputs} {outputs : ResourceOutputs}

theorem Hands.unique (hapart : ∀ y, dep.HandsCo wid m n y → y.text ∉ m.externals) {x' : Descriptor}
    (h : dep.Hands wid m n key x) (h' : dep.Hands wid m n key x') : x = x' := by
  have hclash : ∀ {a b : Descriptor}, GraphInput.Declares wid m key a → key = b.text → ¬ dep.HandsCo wid m n b := by
    rintro a b ⟨ext, id, hext, -⟩ rfl hb
    exact hapart b hb (mem_iff.2 ⟨ext, hext⟩)
  rcases h with hdecl | ⟨hkey, hco⟩
  · rcases h' with hdecl' | ⟨hkey', hco'⟩
    · exact hdecl.unique hdecl'
    · exact absurd hco' (hclash hdecl hkey')
  · rcases h' with hdecl' | ⟨hkey', -⟩
    · exact absurd hco (hclash hdecl' hkey)
    · exact Descriptor.text_injective (hkey.symm.trans hkey')

theorem holdable_text (d : Descriptor) : Holdable d.text = true := by
  have hchars : ∀ c ∈ d.text.toList, c ≠ '\'' ∧ c ≠ ']' := by
    intro c hc
    have hres : ∀ {c}, isResIdChar c = true → c ≠ '\'' ∧ c ≠ ']' := fun h =>
      ⟨(isResIdChar_spec h).2.2.1, (isResIdChar_spec h).2.2.2.2⟩
    rcases d.chars_spec hc with h | h | h
    · exact hres (isResIdChar_of_lowerAlnum h)
    · exact hres h
    · simp only [mem_cons, not_mem_nil, or_false] at h
      rcases h with rfl | rfl | rfl | rfl <;> decide
  have hwritable : (quoted d.text).Writable := ⟨fun h => (hchars _ h).1 rfl, fun h => (hchars _ h).2 rfl⟩
  have hcloses : closes ("externals".toList ++ pathChars [.quoted d.text]) = true :=
    closes_path isPathName_externals (by simpa using hwritable)
  have hbody : "externals".toList ++ pathChars [.quoted d.text] = ("externals['" ++ d.text ++ "']").toList := by
    simp [pathChars, text]
  rw [Holdable, Bool.or_eq_true, Bool.and_eq_true, ← hbody]
  exact .inr ⟨by simpa using hwritable.2, hcloses⟩

theorem paramsDialect_workload (hw : dep.Runs input wid m n) : paramsDialect n = .set := by
  obtain ⟨n', hn', hr⟩ := built_seed hw.graph (.workload hw.module)
  rw [hw.node] at hn'
  cases hn'
  refine if_pos (any_eq_true.2 ⟨_, hr, ?_⟩)
  have hpath : hasPrefix "modules." ("modules." ++ wid.text) = true := hasPrefix_iff.2 ⟨wid.text, rfl⟩
  simp [Request.of, hpath]

def onlyFor (x d : Descriptor) : ResourceOutputs :=
  { values := [("x", .bool (decide (d = x)))], secrets := ∅, guresid := none, account := none }

theorem onlyFor_flat (x d : Descriptor) : FlatOutputs (onlyFor x d) := by
  intro path l h
  cases path with
  | nil => cases h
  | cons first rest =>
    cases rest with
    | nil => exact ⟨first, rfl⟩
    | cons seg rest =>
      simp only [ResourceOutputs.get, onlyFor] at h
      split at h
      · cases h
      · rename_i name hname
        simp only [Std.ExtTreeMap.getElem?_empty] at h
        split at h
        · cases h
        · rename_i v hv
          obtain ⟨-, rfl⟩ : name = "x" ∧ v = .bool (decide (d = x)) := by
            have hmem := mem_of_get hv
            simpa using hmem
          obtain ⟨w, hw, -⟩ := map_eq_ok.1 h
          cases seg <;> cases hw

theorem onlyFor_get (x d : Descriptor) : (onlyFor x d).get [.name "x"] = .ok (.value (.bool (decide (d = x)))) := by
  simp [ResourceOutputs.get, onlyFor, key, JsonMap.get, walk, Except.map]

theorem onlyFor_placeholder (key : String) (x d : Descriptor) :
    (outputPlaceholders key (onlyFor x d)).field? "x" = some (.str (outputPlaceholder key "x")) := by
  have hnames : ((onlyFor x d).values.map (·.1) ++ (onlyFor x d).secrets.keys).filter isName = ["x"] := by
    simp [onlyFor]
    decide
  rw [outputPlaceholders, hnames]
  rfl

theorem Hands.mem_dependsOn (hw : dep.Runs input wid m n) (h : dep.Hands wid m n key x) : x ∈ n.dependsOn := by
  obtain ⟨b, hb⟩ := built_expanded hw.graph
  rcases h with ⟨ext, id, hext, hid, rfl⟩ | ⟨-, hx, -⟩
  · exact edge_of_external hw.graph hb hw.node hw.module hext hid
  · exact hx

theorem onlyFor_done (hg : buildGraph input = .ok dep.graph) (hn : dep.graph.nodes[GraphInput.workload wid m]? = some n)
    (x : Descriptor) : ∀ t ∈ n.dependsOn, (dep.allDone (onlyFor x))[t]? = some (onlyFor x t) := by
  obtain ⟨b, hb⟩ := built_expanded hg
  exact fun t ht => allDone_get (built_target hg hb hn ht)

theorem OutputsHanded.onlyFor (hw : dep.Runs input wid m n) (h : dep.OutputsHanded wid m n) (x : Descriptor) {d : Descriptor}
    (hd : dep.Hands wid m n key d) : (resolveString .set .secret "params" (outputPlaceholder key "x")).run
      (dep.scopeFor n (dep.allDone (onlyFor x)) none).answer = .ok (.value (.bool (decide (d = x)))) := by
  have hdone := onlyFor_done hw.graph hw.node x
  have hdd := hdone d (hd.mem_dependsOn hw)
  obtain ⟨outputs, hout⟩ := mem_iff.1 (handed_mem hw hd hdd)
  obtain ⟨y, hy, hydone⟩ := externals_handed hw hout
  rw [hdone y (hy.mem_dependsOn hw)] at hydone
  cases hydone
  obtain ⟨l, hl, hrun⟩ := h.resolved _ none (fun t ht => mem_iff.2 ⟨_, hdone t ht⟩) key _ hout "x" _
    (onlyFor_placeholder key x y) d _ hd hdd
  rw [onlyFor_get] at hl
  cases hl
  rw [paramsDialect_workload hw] at hrun
  exact hrun "params"

theorem declared_of_mem (hg : buildGraph input = .ok dep.graph) (hm : input.set.modules[wid]? = some m)
    (h : key ∈ m.externals) : ∃ x, GraphInput.Declares wid m key x := by
  obtain ⟨ext, hext⟩ := mem_iff.1 h
  obtain ⟨id, hid⟩ := built_externalId hg hm hext
  exact ⟨_, ext, id, hext, hid, rfl⟩

theorem OutputsHanded.holdable (hw : dep.Runs input wid m n) (h : dep.OutputsHanded wid m n) (hkey : key ∈ m.externals) :
    Holdable key = true := by
  obtain ⟨x, hx⟩ := declared_of_mem hw.graph hw.module hkey
  by_contra hnot
  refine resolveString_unheld (by simpa using hnot) (by decide) (fun k o ho => ?_) _ (h.onlyFor hw x (.inl hx))
  obtain ⟨y, hy, hydone⟩ := externals_handed hw ho
  rw [onlyFor_done hw.graph hw.node x y (hy.mem_dependsOn hw)] at hydone
  cases hydone
  exact onlyFor_flat x y

theorem OutputsHanded.apart (hw : dep.Runs input wid m n) (h : dep.OutputsHanded wid m n) (hco : dep.HandsCo wid m n x) :
    x.text ∉ m.externals := by
  intro hkey
  obtain ⟨d, hd⟩ := declared_of_mem hw.graph hw.module hkey
  -- the same placeholder would read both
  have hsame := (h.onlyFor hw x (.inl hd)).symm.trans (h.onlyFor hw x (.inr ⟨rfl, hco⟩))
  simp only [decide_true, Except.ok.injEq, Resolved.value.injEq, Json.bool.injEq, decide_eq_true_eq] at hsame
  exact hco.2.1 _ (hsame ▸ hd)

/-- The outputs handed to a workload resolve to themselves exactly when placeholders can hold the keys of its dependencies and
none of the keys is the descriptor of something co-provisioned that it is handed as well. -/
theorem handed_outputs_iff (input : GraphInput) (dep : Engine.Deployment) (hg : buildGraph input = .ok dep.graph)
    (wid : WorkloadId)
    (m : Module) (hm : input.set.modules[wid]? = some m) (n : Node)
    (hn : dep.graph.nodes[GraphInput.workload wid m]? = some n) : dep.OutputsHanded wid m n ↔
      (∀ key ∈ m.externals, Holdable key = true) ∧ ∀ x, dep.HandsCo wid m n x → x.text ∉ m.externals := by
  refine ⟨fun h => ⟨fun key hkey => h.holdable ⟨hg, hm, hn⟩ hkey, fun x hx => h.apart ⟨hg, hm, hn⟩ hx⟩, fun ⟨hkeys, hapart⟩ => ?_⟩
  have hholdable : ∀ {done guresid key}, key ∈ (dep.scopeFor n done guresid).externals → Holdable key = true := by
    intro done guresid key hkey
    obtain ⟨outputs, hout⟩ := BTreeMap.mem_iff.1 hkey
    obtain ⟨x, ⟨ext, id, hext, -⟩ | ⟨rfl, -⟩, -⟩ := externals_handed ⟨hg, hm, hn⟩ hout
    · exact hkeys key (BTreeMap.mem_iff.2 ⟨ext, hext⟩)
    · exact holdable_text x
  have hdialect := paramsDialect_workload ⟨hg, hm, hn⟩
  refine ⟨fun done guresid _ key outputs hout name text htext x o hx ho => ?_, fun done guresid _ dfn r hrun => ?_⟩
  · obtain ⟨hname, rfl⟩ := field_outputPlaceholders htext
    obtain ⟨y, hy, hydone⟩ := externals_handed ⟨hg, hm, hn⟩ hout
    obtain rfl := hx.unique hapart hy
    rw [ho] at hydone
    cases hydone
    obtain ⟨l, hl⟩ := get_of_names hname
    refine ⟨l, hl, fun location => ?_⟩
    rw [hdialect]
    exact resolveString_output (hholdable (BTreeMap.mem_iff.2 ⟨_, hout⟩)) (mem_filter.1 hname).2 hout hl
  · exact jobInputs_unbroken hdialect (fun key hkey => hholdable hkey) dfn hrun

end

theorem hash_mem_text (d : Descriptor) : '#' ∈ d.text.toList := by simp [Descriptor.text]

/-- The clerk's outputs come back, as a name is no descriptor. -/
theorem clerk_outputs_handed : ∃ n,
    (greeterOver (clerkGraph (clerkInput clerkModule {} { matchDependents := true }))).OutputsHanded greeterDefinition.id
      clerkModule n := by
  have hkeys : clerkKeys clerkModule (clerkInput clerkModule {} { matchDependents := true }) = some ["policy", "table"] := by
    decide +kernel
  obtain ⟨hg, n, hn, -⟩ := clerk_built hkeys
  have hmem : ∀ {key : String}, key ∈ clerkModule.externals → key ∈ ["policy", "table"] := by
    intro key hkey
    simp only [clerkModule, Std.ExtTreeMap.mem_insert, Std.LawfulEqOrd.compare_eq_iff_eq, Std.ExtTreeMap.not_mem_empty,
      or_false] at hkey
    rcases hkey with rfl | rfl <;> simp
  refine ⟨n, (handed_outputs_iff _ _ hg greeterDefinition.id clerkModule
    (by rw [clerkInput, BTreeMap.get_insert, if_pos rfl]) n hn).2 ⟨fun key hkey => ?_, fun x _ hx => ?_⟩⟩
  · have hkey := hmem hkey
    simp only [mem_cons, not_mem_nil, or_false] at hkey
    rcases hkey with rfl | rfl <;> decide +kernel
  · have hkey := hmem hx
    have hhash := hash_mem_text x
    simp only [mem_cons, not_mem_nil, or_false] at hkey
    rcases hkey with hkey | hkey <;> rw [hkey] at hhash <;> exact absurd hhash (by decide)

def crossedModule : Module :=
  { externals := ((∅ : BTreeMap String External).insert "db'].rows['x" { ty := .dynamodbTable, id := some "ledger" }).insert "db"
      { ty := .dynamodbTable, id := some "orders" } }

/-- The placeholder for the ledger's `host` reads a row of the orders. -/
theorem crossed_outputs :
    parseTemplate (outputPlaceholder "db'].rows['x" "host") = .ok [.placeholder ⟨outputPlaceholder "db'].rows['x" "host",
      [.name "externals", .quoted "db", .name "rows", .quoted "x", .name "host"]⟩] ∧
    ∃ n, buildGraph (clerkInput crossedModule {} {}) = .ok (greeterOver (clerkGraph (clerkInput crossedModule {} {}))).graph ∧
      (greeterOver (clerkGraph (clerkInput crossedModule {} {}))).graph.nodes[
        GraphInput.workload greeterDefinition.id crossedModule]? = some n ∧
      ¬ (greeterOver (clerkGraph (clerkInput crossedModule {} {}))).OutputsHanded greeterDefinition.id crossedModule n := by
  refine ⟨by decide +kernel, ?_⟩
  have hkeys : clerkKeys crossedModule (clerkInput crossedModule {} {}) = some ["db", "db'].rows['x"] := by decide +kernel
  obtain ⟨hg, n, hn, -⟩ := clerk_built hkeys
  refine ⟨n, hg, hn, fun h => ?_⟩
  have hkey : "db'].rows['x" ∈ crossedModule.externals := by simp [crossedModule]
  have hheld := OutputsHanded.holdable ⟨hg, by rw [clerkInput, BTreeMap.get_insert, if_pos rfl], hn⟩ h hkey
  exact absurd hheld (by decide +kernel)

end Engine.Deployment
end Openporch
