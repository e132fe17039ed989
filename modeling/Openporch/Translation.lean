import Openporch.Templates
import Openporch.Workload

/-!
# Translated documents

Each string of a workload document outside the content of `noExpand` files is translated where it stands, part by part
(`translated`, `joined_eq`).
-/

namespace Openporch
open List Fallible

section
variable {resources : IndexMap ResourceRequest} {types : List ResourceType} {at' ptr : List String} {v v' : Json}
  {paths : List String} {key s : String}

theorem translateFields_get {fields fields' : JsonMap} (h : translateFields resources types at' fields = .ok (fields', paths))
    (hv : JsonMap.get fields key = some v) :
    ∃ below v' more, translate resources types below v = .ok (v', more) ∧ JsonMap.get fields' key = some v' := by
  induction fields generalizing fields' paths with
  | nil => cases hv
  | cons f fields ih =>
    obtain ⟨k, x⟩ := f
    rw [translateFields] at h
    obtain ⟨⟨x', more⟩, hx, h⟩ := bind_eq_ok.1 h
    obtain ⟨⟨rest, more'⟩, hrest, h⟩ := bind_eq_ok.1 h
    cases h
    rw [JsonMap.get, lookup_cons] at hv ⊢
    split at hv
    · cases hv
      exact ⟨_, x', more, hx, rfl⟩
    · exact ih hrest hv

theorem translateItems_get {items items' : List Json} {i j : Nat}
    (h : translateItems resources types at' i items = .ok (items', paths)) (hv : items[j]? = some v) :
    ∃ below v' more, translate resources types below v = .ok (v', more) ∧ items'[j]? = some v' := by
  induction items generalizing items' paths i j with
  | nil => cases hv
  | cons x items ih =>
    rw [translateItems] at h
    obtain ⟨⟨x', more⟩, hx, h⟩ := bind_eq_ok.1 h
    obtain ⟨⟨rest, more'⟩, hrest, h⟩ := bind_eq_ok.1 h
    cases h
    cases j with
    | zero =>
      cases hv
      exact ⟨_, x', more, hx, rfl⟩
    | succ j => simpa using ih hrest (by simpa using hv)

theorem translate_pointer (h : translate resources types at' v = .ok (v', paths)) (hs : v.pointer ptr = some (.str s)) :
    ∃ below out secret, translateString resources types below s = .ok (out, secret) ∧ v'.pointer ptr = some (.str out) := by
  induction ptr generalizing at' v v' paths with
  | nil =>
    cases hs
    rw [translate] at h
    obtain ⟨⟨out, secret⟩, hout, h⟩ := bind_eq_ok.1 h
    cases h
    exact ⟨at', out, secret, hout, rfl⟩
  | cons key ptr ih =>
    cases v with
    | arr items =>
      rw [translate] at h
      obtain ⟨⟨items', more⟩, hitems, h⟩ := bind_eq_ok.1 h
      cases h
      obtain ⟨i, hi, hs⟩ := Option.bind_eq_some_iff.1 hs
      obtain ⟨x, hx, hs⟩ := Option.bind_eq_some_iff.1 hs
      obtain ⟨below, x', more', hx', hget⟩ := translateItems_get hitems hx
      obtain ⟨below', out, secret, hout, hptr⟩ := ih hx' hs
      exact ⟨below', out, secret, hout, by simp [Json.pointer, hi, hget, hptr]⟩
    | obj fields =>
      rw [translate] at h
      obtain ⟨⟨fields', more⟩, hfields, h⟩ := bind_eq_ok.1 h
      cases h
      obtain ⟨x, hx, hs⟩ := Option.bind_eq_some_iff.1 hs
      obtain ⟨below, x', more', hx', hget⟩ := translateFields_get hfields hx
      obtain ⟨below', out, secret, hout, hptr⟩ := ih hx' hs
      exact ⟨below', out, secret, hout, by simp [Json.pointer, hget, hptr]⟩
    | _ => cases hs

theorem field_modify (v : Json) (k : String) (f : Json → Json) :
    (v.modify k f).field? key = (v.field? key).map fun v => if key = k then f v else v := by
  cases v with
  | obj fields =>
    change List.lookup key (List.map _ fields) = (List.lookup key fields).map _
    induction fields with
    | nil => rfl
    | cons x fields ih =>
      obtain ⟨k', v⟩ := x
      rw [map_cons]
      by_cases hkey : key = k'
      · subst hkey
        by_cases hk : key = k <;> simp [hk]
      · have hne : (key == k') = false := by simpa using hkey
        by_cases hk : k' = k
        · rw [hk] at hne
          simp [hk, lookup_cons, hne, ih]
        · simp [hk, lookup_cons, hne, ih]
  | _ => rfl

theorem modify_obj (key : String) (f : Json → Json) (fields : List (String × Json)) :
    (Json.obj fields).modify key f = .obj (fields.map fun y => (y.1, if y.1 = key then f y.2 else y.2)) := by
  simp only [Json.modify, Json.obj.injEq]
  refine map_congr_left fun y _ => ?_
  split <;> rfl

def Json.isLeaf : Json → Bool
  | .obj fields => fields.isEmpty
  | .arr items => items.isEmpty
  | _ => true

variable {u : Json} {ps : List (List String)} {kept : SetAside}

theorem modify_leaf (hu : u.isLeaf = true) (k : String) (f : Json → Json) : u.modify k f = u := by
  cases u with
  | obj fields =>
    obtain rfl := List.isEmpty_iff.1 hu
    rfl
  | _ => rfl

variable {p : List String}

theorem pointer_setAt (x : Json) (hu : u.isLeaf = true) (hs : v.pointer ptr = some u) (hp : ¬ p <+: ptr) :
    (v.setAt p x).pointer ptr = some u := by
  induction ptr generalizing v p with
  | nil =>
    cases hs
    cases p with
    | nil => exact absurd nil_prefix hp
    | cons k p => exact congrArg some (modify_leaf hu k _)
  | cons key ptr ih =>
    cases p with
    | nil => exact absurd nil_prefix hp
    | cons k p =>
      cases v with
      | arr items => exact hs
      | obj fields =>
        obtain ⟨y, hy, hs⟩ := Option.bind_eq_some_iff.1 hs
        change (((Json.obj fields).modify k fun below => below.setAt p x).field? key).bind (Json.pointer ptr) = _
        rw [field_modify, show (Json.obj fields).field? key = some y from hy, Option.map_some, Option.bind_some]
        by_cases hkey : key = k
        · rw [if_pos hkey]
          refine ih hs fun hpre => hp ?_
          rw [hkey]
          exact (prefix_cons_inj k).2 hpre
        · rw [if_neg hkey]
          exact hs
      | _ => cases hs

theorem pointer_setAsideOne {x} (hp : ¬ p <+: ptr) (hx : x.1.pointer ptr = some (.str s) ∧ ∀ y ∈ x.2, ¬ y.1 <+: ptr) :
    (setAsideOne x p).1.pointer ptr = some (.str s) ∧ ∀ y ∈ (setAsideOne x p).2, ¬ y.1 <+: ptr := by
  unfold setAsideOne
  split
  · exact hx
  · refine ⟨pointer_setAt _ rfl hx.1 hp, fun y hy => ?_⟩
    rcases mem_append.1 hy with hy | hy
    · exact hx.2 y hy
    · rw [mem_singleton.1 hy]
      exact hp

theorem pointer_setAside (hs : v.pointer ptr = some (.str s)) (hp : ∀ p ∈ ps, ¬ p <+: ptr) :
    (setAside v ps).1.pointer ptr = some (.str s) ∧ ∀ y ∈ (setAside v ps).2, ¬ y.1 <+: ptr := by
  have hfold : ∀ x : Json × SetAside, x.1.pointer ptr = some (.str s) ∧ (∀ y ∈ x.2, ¬ y.1 <+: ptr) →
      (ps.foldl setAsideOne x).1.pointer ptr = some (.str s) ∧ ∀ y ∈ (ps.foldl setAsideOne x).2, ¬ y.1 <+: ptr := by
    induction ps with
    | nil => exact fun _ hx => hx
    | cons p ps ih =>
      intro x hx
      obtain ⟨hp, hps⟩ := forall_mem_cons.1 hp
      exact ih hps _ (pointer_setAsideOne hp hx)
  exact hfold (v, []) ⟨hs, by simp⟩

theorem pointer_putBack (hs : v.pointer ptr = some (.str s)) (hp : ∀ y ∈ kept, ¬ y.1 <+: ptr) :
    (kept.foldl (fun v x => v.setAt x.1 x.2) v).pointer ptr = some (.str s) := by
  induction kept generalizing v with
  | nil => exact hs
  | cons y kept ih =>
    obtain ⟨hy, hkept⟩ := forall_mem_cons.1 hp
    exact ih (pointer_setAt _ rfl hs hy) hkept

theorem asObject_setAt (v x : Json) (hp : ¬ p <+: ptr) : (v.setAt p x).asObject?.isSome = v.asObject?.isSome := by
  cases p with
  | nil => exact absurd nil_prefix hp
  | cons k p => cases v <;> rfl

theorem asObject_setAside (hp : ∀ p ∈ ps, ¬ p <+: ptr) :
    (setAside v ps).1.asObject?.isSome = v.asObject?.isSome := by
  have hfold : ∀ x : Json × SetAside, (ps.foldl setAsideOne x).1.asObject?.isSome = x.1.asObject?.isSome := by
    induction ps with
    | nil => exact fun _ => rfl
    | cons p ps ih =>
      intro x
      obtain ⟨hp, hps⟩ := forall_mem_cons.1 hp
      rw [foldl_cons, ih hps]
      unfold setAsideOne
      split
      · rfl
      · exact asObject_setAt _ _ hp
  exact hfold (v, [])

theorem asObject_putBack (hp : ∀ y ∈ kept, ¬ y.1 <+: ptr) :
    (kept.foldl (fun v x => v.setAt x.1 x.2) v).asObject?.isSome = v.asObject?.isSome := by
  induction kept generalizing v with
  | nil => rfl
  | cons y kept ih =>
    obtain ⟨hy, hkept⟩ := forall_mem_cons.1 hp
    rw [foldl_cons, ih hkept, asObject_setAt _ _ hy]

theorem asObject_translate (h : translate resources types at' v = .ok (v', paths)) :
    v'.asObject?.isSome = v.asObject?.isSome := by
  cases v with
  | null | bool | num =>
    cases h
    rfl
  | str | arr | obj =>
    rw [translate] at h
    obtain ⟨_, -, h⟩ := bind_eq_ok.1 h
    cases h
    rfl

end

/-- A string of the workload's spec, outside the content of `noExpand` files. -/
structure Workload.StringAt (w : Workload) (ptr : List String) (s : String) : Prop where
  outside : ∀ p ∈ w.noExpandPointers, ¬ p <+: ptr
  pointer : w.spec.pointer ptr = some (.str s)

variable {w : Workload} {types : List ResourceType} {c : ConvertedWorkload}

theorem Workload.toModule_eq (h : w.toModule types = .ok c) :
    ∃ translated, (∃ paths, translate w.resources types [] (setAside w.spec w.noExpandPointers).1 = .ok (translated, paths)) ∧
      c.id = w.metadata.name ∧ c.module.cls = w.cls ∧ c.module.externals = w.externals ∧ c.module.spec =
        (((setAside w.spec w.noExpandPointers).2.foldl (fun v x => v.setAt x.1 x.2) translated).asObject?).getD [] := by
  obtain ⟨⟨translated, paths⟩, htranslate, h⟩ := bind_eq_ok.1 h
  cases h
  exact ⟨translated, ⟨paths, htranslate⟩, rfl, rfl, rfl, rfl⟩

theorem Workload.StringAt.translated {ptr : List String}
    {s : String} (h : w.StringAt ptr s) (hc : w.toModule types = .ok c) : ∃ at' out secret,
      translateString w.resources types at' s = .ok (out, secret) ∧ (Json.obj c.module.spec).pointer ptr = some (.str out) := by
  obtain ⟨translated, ⟨paths, htranslate⟩, -, -, -, hspec⟩ := Workload.toModule_eq hc
  obtain ⟨haside, hkept⟩ := pointer_setAside h.pointer h.outside
  obtain ⟨at', out, secret, hout, hptr⟩ := translate_pointer htranslate haside
  have hback := pointer_putBack hptr hkept
  have hobj : ((setAside w.spec w.noExpandPointers).2.foldl (fun v x => v.setAt x.1 x.2) translated).asObject?.isSome = true := by
    rw [asObject_putBack hkept, asObject_translate htranslate, asObject_setAside h.outside]
    rfl
  refine ⟨at', out, secret, hout, ?_⟩
  rw [hspec]
  revert hback hobj
  generalize (setAside w.spec w.noExpandPointers).2.foldl (fun v x => v.setAt x.1 x.2) translated = final
  intro hback hobj
  cases final with
  | obj fields => exact hback
  | _ => cases hobj

section
variable {resources : IndexMap ResourceRequest} {types : List ResourceType} {p : RawPlaceholder}

/-- A placeholder of the document and what it names: the key of a dependency with its request, and a path of outputs. -/
structure Names (resources : IndexMap ResourceRequest) (p : RawPlaceholder) (key : String) (r : ResourceRequest)
    (second : Segment)
    (output : String) (rest : List Segment) : Prop where
  root : p.root = "resources"
  segments : ∃ root first, p.segments = root :: first :: second :: rest ∧ first.key = some key
  output : second.key = some output
  request : resources.get key = some r

variable {secret : Bool} {body : List Char} {out : String}

theorem translateResourcePlaceholder_eq {text : String} (hroot : p.root = "resources")
    (h : translateResourcePlaceholder resources types p = .ok (text, secret)) : ∃ key r second output rest,
      Names resources p key r second output rest ∧
        text = String.ofList (['$', '{'] ++ outputBody key r output rest ++ ['}']) := by
  unfold translateResourcePlaceholder at h
  dsimp only at h
  split at h
  · rename_i root first second rest hsegments
    split at h
    · rename_i key output hkey houtput
      split at h
      · cases h
      · rename_i r hr
        obtain ⟨kind, -, h⟩ := bind_eq_ok.1 h
        cases h
        exact ⟨key, r, second, output, rest, ⟨hroot, ⟨root, first, hsegments, hkey⟩, houtput, hr⟩, rfl⟩
    · cases h
  · cases h

def translatedBody (resources : IndexMap ResourceRequest) (types : List ResourceType) (p : RawPlaceholder) : List Char :=
  ((((translatePart resources types (.placeholder p)).toOption.map (·.1)).getD "").toList.drop 2).dropLast

theorem body_of_text (body : List Char) : ((String.ofList (['$', '{'] ++ body ++ ['}'])).toList.drop 2).dropLast = body := by
  simp

theorem translatedBody_spec {out} (hread : p.Read body) (h : translatePart resources types (.placeholder p) = .ok out) :
    out.1 = String.ofList (['$', '{'] ++ translatedBody resources types p ++ ['}']) ∧
      ((p.root ≠ "resources" ∧ translatedBody resources types p = body) ∨ ∃ key r second output rest,
        Names resources p key r second output rest ∧ translatedBody resources types p = outputBody key r output rest) := by
  have hbody : translatedBody resources types p = (out.1.toList.drop 2).dropLast := by
    unfold translatedBody
    rw [h]
    rfl
  rw [hbody]
  rw [translatePart] at h
  split at h
  · rename_i hroot
    obtain ⟨⟨text, secret⟩, htext, h⟩ := bind_eq_ok.1 h
    cases h
    obtain ⟨key, r, second, output, rest, hnames, rfl⟩ := translateResourcePlaceholder_eq hroot htext
    refine ⟨by rw [body_of_text], .inr ⟨key, r, second, output, rest, hnames, body_of_text _⟩⟩
  · rename_i hroot
    cases h
    rw [hread.1]
    exact ⟨by rw [body_of_text], .inl ⟨hroot, body_of_text _⟩⟩

variable {at' : List String} {s : String} {parts : List Part}

theorem translateString_eq (h : translateString resources types at' s = .ok (out, secret))
    (hparts : parseTemplate s = .ok parts) : (placeholders parts = [] ∧ out = s) ∨
      ∃ outs, parts.mapM (translatePart resources types) = .ok outs ∧ out = String.join (outs.map (·.1)) := by
  unfold translateString at h
  rw [hparts] at h
  obtain ⟨parts', hparts', h⟩ := bind_eq_ok.1 h
  cases hparts'
  split at h
  · rename_i hempty
    cases h
    exact .inl ⟨List.isEmpty_iff.1 hempty, rfl⟩
  · obtain ⟨outs, houts, h⟩ := bind_eq_ok.1 h
    refine .inr ⟨outs, mapError_eq_ok.1 houts, ?_⟩
    split at h
    · cases h
      rfl
    · split at h
      · cases h
        rfl
      · cases h

def pieceChars (resources : IndexMap ResourceRequest) (types : List ResourceType) : Part → List Char
  | .literal l => escapeOpens l.toList
  | .placeholder p => '$' :: '{' :: (translatedBody resources types p ++ ['}'])

theorem joined_eq {outs} (hread : ∀ p, .placeholder p ∈ parts → ∃ body, p.Read body)
    (h : parts.mapM (translatePart resources types) = .ok outs) :
    (String.join (outs.map (·.1))).toList = parts.flatMap (pieceChars resources types) := by
  induction parts generalizing outs with
  | nil =>
    cases h
    rfl
  | cons part parts ih =>
    rw [mapM_cons] at h
    obtain ⟨out, hout, h⟩ := bind_eq_ok.1 h
    obtain ⟨more, hmore, h⟩ := bind_eq_ok.1 h
    cases h
    have hrest := ih (fun p hp => hread p (mem_cons_of_mem _ hp)) hmore
    have hpart : out.1.toList = pieceChars resources types part := by
      cases part with
      | literal l =>
        cases hout
        simp [pieceChars]
      | placeholder p =>
        obtain ⟨body, hbody⟩ := hread p mem_cons_self
        rw [(translatedBody_spec hbody hout).1]
        simp [pieceChars]
    rw [map_cons, String.join_cons, String.toList_append, hrest, hpart, flatMap_cons]

theorem flatMap_partsOf (items : List (List Char × RawPlaceholder)) (last : List Char) :
    (partsOf items last).flatMap (pieceChars resources types) = rewritten (translatedBody resources types) items last := by
  have hliteral : ∀ lit, (literalPart lit).flatMap (pieceChars resources types) = escapeOpens lit := by
    intro lit
    unfold literalPart
    split
    · rename_i hempty
      rw [List.isEmpty_iff.1 hempty]
      rfl
    · simp [pieceChars]
  unfold partsOf rewritten
  rw [flatMap_append, hliteral, flatMap_assoc]
  congr 1
  refine flatMap_congr fun x _ => ?_
  rw [flatMap_append, hliteral]
  simp [pieceChars]

theorem placeholders_partsOf (items : List (List Char × RawPlaceholder)) (last : List Char) :
    placeholders (partsOf items last) = items.map (·.2) := by
  have hliteral : ∀ lit, placeholders (literalPart lit) = [] := by
    intro lit
    unfold literalPart
    split <;> rfl
  induction items with
  | nil => exact hliteral last
  | cons x items ih =>
    rw [partsOf_cons, map_cons, ← ih]
    unfold placeholders at hliteral ⊢
    rw [filterMap_append, hliteral]
    rfl

theorem RawPlaceholder.Read.respelled {R Good} (hread : p.Read body) (h : R p p ∧ Good p) :
    Respelled R Good p body := by
  obtain ⟨htext, hcloses, hsegs⟩ := hread
  exact ⟨fun _ => ⟨hcloses, p.segments, hsegs, by rw [RawPlaceholder.of, ← htext]; exact h.1⟩, fun _ _ _ => h.2⟩

/-- A string is translated part by part, for a relation between the placeholders of the document and of the module, exactly
when every placeholder is good. -/
theorem translated_iff {R Good} (hparts : parseTemplate s = .ok parts)
    (hout : translateString resources types at' s = .ok (out, secret))
    (hother : ∀ p, p.root ≠ "resources" → R p p ∧ Good p)
    (hnamed : ∀ p body key r second output rest, p.Read body → Names resources p key r second output rest →
      Respelled R Good p (outputBody key r output rest)) :
    (∃ parts', parseTemplate out = .ok parts' ∧ List.Forall₂ (PartRel R) parts parts') ↔ ∀ p ∈ placeholders parts, Good p := by
  obtain ⟨items, last, has⟩ := parseTemplate_readAs hparts
  have hplaceholders : placeholders parts = items.map (·.2) := by rw [has.parts_eq, placeholders_partsOf]
  rcases translateString_eq hout hparts with ⟨hnone, rfl⟩ | ⟨outs, houts, rfl⟩
  · -- text stays as it is
    rw [hnone]
    refine iff_of_true ⟨parts, hparts, ?_⟩ (by simp)
    have hitems : items = [] := map_eq_nil_iff.1 (hplaceholders.symm.trans hnone)
    rw [has.parts_eq, hitems]
    exact forall₂_literalPart _ last
  · have hmem : ∀ x ∈ items, ∃ out, translatePart resources types (.placeholder x.2) = .ok out := by
      intro x hx
      have hpart : .placeholder x.2 ∈ parts := by
        rw [has.parts_eq]
        exact mem_append_left _ (mem_flatMap.2 ⟨x, hx, by simp⟩)
      exact mapM_ok_of_mem houts hpart
    have hread : ∀ p, .placeholder p ∈ parts → ∃ body, p.Read body := by
      intro p hp
      have hp' : p ∈ placeholders parts := mem_filterMap.2 ⟨_, hp, rfl⟩
      rw [hplaceholders] at hp'
      obtain ⟨x, hx, rfl⟩ := mem_map.1 hp'
      exact has.read x hx
    have htext : (String.join (outs.map (·.1))).toList = rewritten (translatedBody resources types) items last := by
      rw [joined_eq hread houts, has.parts_eq, flatMap_partsOf]
    have hparse : ∀ parts', parseTemplate (String.join (outs.map (·.1))) = .ok parts' ↔
        partsFrom [] 0 (rewritten (translatedBody resources types) items last) = .ok parts' := by
      intro parts'
      rw [← htext]
      exact mapError_eq_ok
    simp only [hparse]
    rw [hplaceholders, forall_mem_map, has.parts_eq]
    refine rewritten_iff has.unescaped has.last fun x hx => ?_
    obtain ⟨body, hbody⟩ := has.read x hx
    obtain ⟨out, hpart⟩ := hmem x hx
    rcases (translatedBody_spec hbody hpart).2 with ⟨hroot, heq⟩ | ⟨key, r, second, output, rest, hnames, heq⟩
    · rw [heq]
      exact hbody.respelled (hother x.2 hroot)
    · rw [heq]
      exact hnamed x.2 body key r second output rest hbody hnames

theorem parsePath_printable {segs : List Segment} (h : parsePath body = .ok segs) : ∀ seg ∈ segs, seg.Printable := by
  unfold parsePath at h
  split at h
  · cases h
  · exact segmentsFrom_printable h

theorem RawPlaceholder.Read.printable {p : RawPlaceholder} (h : p.Read body) :
    ∀ seg ∈ p.segments, seg.Printable := parsePath_printable h.2.2

theorem Segment.Printable.key_no_bracket {seg : Segment} {k : String} (h : seg.Printable) (hk : seg.key = some k) :
    ']' ∉ k.toList := by
  cases seg with
  | name s =>
    cases hk
    intro hmem
    have hchar := h.2 _ hmem
    cases hchar
  | quoted s =>
    cases hk
    exact h
  | index i => cases hk

theorem Names.printable {key output : String} {second : Segment} {rest : List Segment} (hread : p.Read body)
    (h : Names resources p key r second output rest) :
    ']' ∉ key.toList ∧ ']' ∉ output.toList ∧ ∀ seg ∈ rest, seg.Printable := by
  obtain ⟨root, first, hsegs, hkey⟩ := h.segments
  have hprintable := hread.printable
  rw [hsegs] at hprintable
  simp only [forall_mem_cons] at hprintable
  obtain ⟨-, hfirst, hsecond, hrest⟩ := hprintable
  exact ⟨hfirst.key_no_bracket hkey, hsecond.key_no_bracket h.output, hrest⟩

theorem Names.unique {resources} {p : RawPlaceholder} {key key' : String} {r r'} {second second' : Segment}
    {output output' : String} {rest rest' : List Segment} (h : Names resources p key r second output rest)
    (h' : Names resources p key' r' second' output' rest') :
    key = key' ∧ r = r' ∧ second = second' ∧ output = output' ∧ rest = rest' := by
  obtain ⟨root, first, hsegs, hkey⟩ := h.segments
  obtain ⟨root', first', hsegs', hkey'⟩ := h'.segments
  rw [hsegs] at hsegs'
  cases hsegs'
  rw [hkey] at hkey'
  cases hkey'
  have hr := h.request.symm.trans h'.request
  cases hr
  have houtput := h.output.symm.trans h'.output
  cases houtput
  exact ⟨rfl, rfl, rfl, rfl, rfl⟩

end

def IdText (name : String) : Prop := name ≠ "" ∧ ∀ c ∈ name.toList, isResIdChar c = true ∨ c = '.'

variable {name : String}

theorem segmentText_printable (hne : name ≠ "") (hnot : ']' ∉ name.toList) : (segmentText name).Printable := by
  unfold segmentText
  split
  · rename_i hall
    refine ⟨hne, fun c hc => (isResIdChar_spec ?_).1⟩
    exact all_eq_true.1 hall c hc
  · exact hnot

theorem IdText.no_bracket (h : IdText name) : ']' ∉ name.toList := fun hmem => by
  rcases h.2 _ hmem with hc | hc <;> cases hc

section
variable {key output : String} {r : ResourceRequest} {rest segs : List Segment}

def outputRoot (r : ResourceRequest) : String := if r.id.isSome then "shared" else "externals"

def dependencyName (key : String) (r : ResourceRequest) : String := r.id.getD key

def outputHead (key : String) (r : ResourceRequest) : List Char :=
  (outputRoot r).toList ++ (segmentText (dependencyName key r)).text.toList

theorem outputBody_eq (key : String) (r : ResourceRequest) (output : String) (rest : List Segment) :
    outputBody key r output rest = outputHead key r ++ pathChars (segmentText output :: rest) := by
  unfold outputBody outputHead outputRoot dependencyName
  cases r.id <;> rfl

theorem outputRoot_chars (r : ResourceRequest) :
    outputRoot r ≠ "" ∧ (∀ c ∈ (outputRoot r).toList, isNameChar c = true) ∧ Passes (outputRoot r).toList := by
  unfold outputRoot
  split <;> exact ⟨by decide, all_eq_true.1 rfl, passes_plain (by simp)⟩

variable {u after : List Char}

theorem parsePath_outputHead (h : (segmentText (dependencyName key r)).Printable) (hu : ∀ c ∈ u.head?, isNameChar c = false) :
    parsePath (outputHead key r ++ u) = (segmentsFrom false 0 u).map fun segs =>
      .name (outputRoot r) :: segmentText (dependencyName key r) :: segs := by
  obtain ⟨hne, hall, -⟩ := outputRoot_chars r
  have hstop : ∀ c ∈ ((segmentText (dependencyName key r)).text.toList ++ u).head?, isNameChar c = false := by
    obtain ⟨c, cs, htext, hc⟩ := (segmentText (dependencyName key r)).text_head
    intro x hx
    rw [htext] at hx
    cases hx
    rcases hc with rfl | rfl <;> decide
  unfold outputHead
  rw [append_assoc, parsePath_root (by simpa using hne) hall hstop, segmentsFrom_text h hu]
  cases segmentsFrom false 0 u with
  | error e => rfl
  | ok segs => simp [Except.map]

theorem parsePath_outputBody (h : (segmentText (dependencyName key r)).Printable) (hne : output ≠ "")
    (hnot : ']' ∉ output.toList) (hrest : ∀ seg ∈ rest, seg.Printable) : parsePath (outputBody key r output rest) =
      .ok (.name (outputRoot r) :: segmentText (dependencyName key r) :: segmentText output :: rest) := by
  rw [outputBody_eq, parsePath_outputHead h (pathChars_head _),
    segmentsFrom_pathChars (forall_mem_cons.2 ⟨segmentText_printable hne hnot, hrest⟩)]
  rfl

end

end Openporch
