import Openporch.Templates

/-!
# The two spellings of a resource reference

`resources['<reference>'].outputs.<path>` quotes the text of a reference, `resources.<reference>.outputs.<path>` writes
it out. The dotted spelling is cut at the dots, and the reference ends where a segment is first named like a field.
-/

namespace Openporch
open List Fallible Segment

namespace ResourceRef

variable (r : ResourceRef)

/-- What stands before the `#` of the ID. -/
def head : List Char := r.ty.text.toList ++ r.cls.elim [] fun c => '.' :: c.text.toList

theorem toList_text : r.text.toList = r.head ++ r.id.elim [] fun id => '#' :: id.text.toList := by
  obtain ⟨ty, cls, id⟩ := r
  cases cls <;> cases id <;> simp [text, head]

theorem no_dot_ty : '.' ∉ r.ty.text.toList := fun h => by
  rcases r.ty.chars_spec.1 _ h with h | h | h <;> cases h

theorem head_chars : ∀ c ∈ r.head, isLowerAlnum c = true ∨ c = '-' ∨ c = '/' ∨ c = '.' := by
  intro c hc
  rcases mem_append.1 hc with hc | hc
  · rcases r.ty.chars_spec.1 c hc with h | h | h
    · exact .inl h
    · exact .inr (.inl h)
    · exact .inr (.inr (.inl h))
  · cases hcls : r.cls with
    | none => simp [hcls] at hc
    | some cls =>
      rw [hcls] at hc
      rcases mem_cons.1 hc with hc | hc
      · exact .inr (.inr (.inr hc))
      · rcases cls.chars_spec c hc with h | h
        · exact .inl h
        · exact .inr (.inl h)

theorem no_hash_head : '#' ∉ r.head := fun h => by
  rcases r.head_chars _ h with h | h | h | h <;> cases h

theorem splitOnce_head :
    splitOnce '.' r.head = r.cls.map fun c => (r.ty.text.toList, c.text.toList) := by
  cases hcls : r.cls with
  | none => simp [head, hcls, splitOnce_of_not_mem r.no_dot_ty]
  | some cls => simp [head, hcls, splitOnce_append r.no_dot_ty]

theorem splitOnce_text : splitOnce '#' r.text.toList = r.id.map fun id => (r.head, id.text.toList) := by
  cases hid : r.id with
  | none => simp [toList_text, hid, splitOnce_of_not_mem r.no_hash_head]
  | some id => simp [toList_text, hid, splitOnce_append r.no_hash_head]

/-- What `parse` does once the ID is read. -/
def parseHead (head : List Char) (id : Option ResId) : Except IdError ResourceRef :=
  match splitOnce '.' head with
  | some (t, c) => do
    let cls ← ClassId.new (String.ofList c)
    return { ty := ← ResourceTypeId.new (String.ofList t), cls := some cls, id }
  | none => do return { ty := ← ResourceTypeId.new (String.ofList head), cls := none, id }

theorem parse_eq (s : String) : parse s = match splitOnce '#' s.toList with
    | some (h, id) => do parseHead h (some (← ResId.new (String.ofList id)))
    | none => parseHead s.toList none := by
  unfold parse
  cases splitOnce '#' s.toList with
  | none =>
    simp only [pure_bind]
    unfold parseHead
    cases splitOnce '.' s.toList <;> simp
  | some parts =>
    simp only [pure_bind]
    refine bind_congr fun id => ?_
    unfold parseHead
    cases splitOnce '.' parts.1 <;> simp

theorem parseHead_head : parseHead r.head r.id = .ok r := by
  have hty : ResourceTypeId.new r.ty.text = .ok r.ty := dif_pos r.ty.valid
  have hcls : ∀ c : ClassId, ClassId.new c.text = .ok c := fun c => dif_pos c.valid
  rw [parseHead, splitOnce_head]
  obtain ⟨ty, cls, id⟩ := r
  cases cls with
  | none => simp [head, hty, ok_bind, pure, Except.pure]
  | some cls => simp [hty, hcls, ok_bind, pure, Except.pure]

theorem parse_text : parse r.text = .ok r := by
  have hid : ∀ i : ResId, ResId.new i.text = .ok i := fun i => dif_pos i.valid
  have hhead := r.parseHead_head
  rw [parse_eq, splitOnce_text]
  cases h : r.id with
  | none => simpa [toList_text, h] using hhead
  | some id => simpa [h, hid, ok_bind] using hhead

theorem parseHead_eq_ok {hd : List Char} {id : Option ResId} {r : ResourceRef} (h : parseHead hd id = .ok r) :
    r.head = hd ∧ r.id = id := by
  have hty : ∀ {s ty}, ResourceTypeId.new s = .ok ty → ty.text = s := by
    intro s ty h
    rw [ResourceTypeId.new] at h
    split at h <;> cases h
    rfl
  have hcls : ∀ {s cls}, ClassId.new s = .ok cls → cls.text = s := by
    intro s cls h
    rw [ClassId.new] at h
    split at h <;> cases h
    rfl
  rw [parseHead] at h
  split at h
  · rename_i t c hdot
    obtain ⟨cls, hc, h⟩ := bind_eq_ok.1 h
    obtain ⟨ty, ht, h⟩ := bind_eq_ok.1 h
    cases h
    simp [head, hty ht, hcls hc, splitOnce_eq hdot]
  · obtain ⟨ty, ht, h⟩ := bind_eq_ok.1 h
    cases h
    simp [head, hty ht]

theorem parse_eq_ok {s : String} {r : ResourceRef} : parse s = .ok r ↔ r.text = s := by
  refine ⟨fun h => ?_, fun h => h ▸ r.parse_text⟩
  apply String.toList_injective
  rw [parse_eq] at h
  split at h
  · rename_i hd text hhash
    obtain ⟨id, hnew, h⟩ := bind_eq_ok.1 h
    obtain ⟨hhead, hid⟩ := parseHead_eq_ok h
    rw [ResId.new] at hnew
    split at hnew <;> cases hnew
    simp [toList_text, hhead, hid, splitOnce_eq hhash]
  · obtain ⟨hhead, hid⟩ := parseHead_eq_ok h
    simp [toList_text, hhead, hid]

end ResourceRef

theorem flatMap_splitAll (c : Char) (s : List Char) : (splitAll c s).flatMap (c :: ·) = c :: s := by
  induction s with
  | nil => rfl
  | cons x xs ih =>
    rw [splitAll]
    split
    · rename_i hx
      rw [flatMap_cons, ih, hx]
      rfl
    · cases hxs : splitAll c xs with
      | nil => exact absurd hxs (splitAll_ne_nil c xs)
      | cons seg segs =>
        rw [hxs] at ih
        simpa using ih

theorem cons_intercalate (c : Char) {parts} (h : parts ≠ []) :
    c :: [c].intercalate parts = parts.flatMap (c :: ·) := by
  induction parts with
  | nil => exact absurd rfl h
  | cons part parts ih =>
    cases parts with
    | nil => simp
    | cons part' parts =>
      rw [intercalate_cons_cons, flatMap_cons, ← ih (by simp)]
      simp

theorem pathChars_names (ns : List String) : pathChars (ns.map .name) = (ns.map String.toList).flatMap ('.' :: ·) := by
  induction ns with
  | nil => rfl
  | cons n ns ih => simp [pathChars_cons, ih, text]

theorem names_map_name (ns : List String) : names (ns.map .name) = some ns := by
  induction ns with
  | nil => rfl
  | cons n ns ih => simp [names, ih]

namespace ResourceRef

variable (r : ResourceRef)

def pieces : List String := (splitAll '.' r.text.toList).map String.ofList

theorem map_toList_pieces : r.pieces.map String.toList = splitAll '.' r.text.toList := by
  simp [pieces, map_map, Function.comp_def]

theorem pieces_ne_nil : r.pieces ≠ [] := by
  simpa [pieces] using splitAll_ne_nil '.' r.text.toList

theorem pathChars_pieces : pathChars (r.pieces.map .name) = '.' :: r.text.toList := by
  rw [pathChars_names, map_toList_pieces, flatMap_splitAll]

theorem intercalate_take {n : Nat} (hn : n < r.pieces.length) (hpos : r.pieces.take n ≠ []) :
    ".".intercalate (r.pieces.take n) ≠ r.text := by
  intro h
  have htake : '.' :: r.text.toList = ((r.pieces.take n).map String.toList).flatMap ('.' :: ·) := by
    rw [← h, String.toList_intercalate]
    exact cons_intercalate '.' (by simpa using hpos)
  have hall : '.' :: r.text.toList = ((r.pieces.take n ++ r.pieces.drop n).map String.toList).flatMap ('.' :: ·) := by
    rw [take_append_drop, map_toList_pieces, flatMap_splitAll]
  rw [htake, map_append, flatMap_append, self_eq_append_right] at hall
  have hdrop : r.pieces.drop n ≠ [] := by simpa using hn
  obtain ⟨piece, rest, hpieces⟩ := exists_cons_of_ne_nil hdrop
  rw [hpieces] at hall
  simp at hall

theorem intercalate_pieces : ".".intercalate r.pieces = r.text := by
  apply String.toList_injective
  have hcons : '.' :: ['.'].intercalate (r.pieces.map String.toList) = _ := cons_intercalate '.' (by simpa using r.pieces_ne_nil)
  rw [map_toList_pieces, flatMap_splitAll] at hcons
  rw [String.toList_intercalate, map_toList_pieces]
  exact (List.cons.inj hcons).2

end ResourceRef

variable {c : Char} {ns : List String} {segs below : List Segment} {target : ResourceRef}

theorem splitAll_chars {s seg : List Char} (h : seg ∈ splitAll c s) : ∀ x ∈ seg, x ∈ s ∧ x ≠ c := by
  induction s generalizing seg with
  | nil =>
    obtain rfl := mem_singleton.1 h
    simp
  | cons y ys ih =>
    have hkeep : ∀ {x}, x ∈ ys ∧ x ≠ c → x ∈ y :: ys ∧ x ≠ c := fun hx => ⟨mem_cons_of_mem _ hx.1, hx.2⟩
    rw [splitAll] at h
    split at h
    · rcases mem_cons.1 h with rfl | h
      · simp
      · exact fun x hx => hkeep (ih h x hx)
    · rename_i hy
      cases hys : splitAll c ys with
      | nil => exact absurd hys (splitAll_ne_nil c ys)
      | cons first rest =>
        rw [hys] at h ih
        rcases mem_cons.1 h with rfl | h
        · intro x hx
          rcases mem_cons.1 hx with rfl | hx
          · exact ⟨mem_cons_self, hy⟩
          · exact hkeep (ih mem_cons_self x hx)
        · exact fun x hx => hkeep (ih (mem_cons_of_mem _ h) x hx)

theorem splitAll_prepend {a : List Char} (h : c ∉ a) (b : List Char) :
    ∃ seg segs, splitAll c b = seg :: segs ∧ splitAll c (a ++ b) = (a ++ seg) :: segs := by
  induction a with
  | nil =>
    obtain ⟨seg, segs, hb⟩ := exists_cons_of_ne_nil (splitAll_ne_nil c b)
    exact ⟨seg, segs, hb, hb⟩
  | cons x xs ih =>
    simp only [mem_cons, not_or] at h
    obtain ⟨seg, segs, hb, hxs⟩ := ih h.2
    refine ⟨seg, segs, hb, ?_⟩
    rw [cons_append, splitAll, if_neg fun e => h.1 e.symm, hxs]
    rfl

namespace ResourceRef

/-- The ID with the `#` before it. -/
def idText (id : Option ResId) : List Char := id.elim [] fun id => '#' :: id.text.toList

theorem splitAll_idText {a : List Char} (hdot : '.' ∉ a) (hne : a ≠ []) (id : Option ResId) :
    (∀ seg ∈ splitAll '.' (a ++ idText id), seg ≠ []) ∧ (id = none → (splitAll '.' (a ++ idText id)).length = 1) := by
  cases id with
  | none => simp [idText, splitAll_of_not_mem hdot, hne]
  | some id =>
    have hid := id.valid
    simp only [isResId, Bool.and_eq_true, all_eq_true, Bool.not_eq_true', isEmpty_eq_false_iff] at hid
    have hhash : '.' ∉ a ++ ['#'] := by simp [hdot]
    obtain ⟨seg, segs, hsegs, hall⟩ := splitAll_prepend hhash id.text.toList
    have hsplit : splitAll '.' (a ++ idText (some id)) = (a ++ ['#'] ++ seg) :: segs := by simpa [idText] using hall
    rw [hsplit]
    refine ⟨forall_mem_cons.2 ⟨by simp, fun seg' hseg' => ?_⟩, by simp⟩
    exact (hid.2 seg' (hsegs ▸ mem_cons_of_mem _ hseg')).1

variable (r : ResourceRef)

theorem splitAll_text : (∀ seg ∈ splitAll '.' r.text.toList, seg ≠ []) ∧
    (r.id = none → (splitAll '.' r.text.toList).length ≤ 2) := by
  have hty := r.ty.chars_spec.2.1
  cases hcls : r.cls with
  | none =>
    have htext : r.text.toList = r.ty.text.toList ++ idText r.id := by simp [toList_text, head, hcls, idText]
    obtain ⟨hne, hlen⟩ := splitAll_idText r.no_dot_ty hty r.id
    rw [htext]
    exact ⟨hne, fun hid => by rw [hlen hid]; omega⟩
  | some cls =>
    have htext : r.text.toList = r.ty.text.toList ++ '.' :: (cls.text.toList ++ idText r.id) := by
      simp [toList_text, head, hcls, idText]
    have hdot : '.' ∉ cls.text.toList := fun h => by
      rcases cls.chars_spec _ h with h | h <;> cases h
    have hcls : cls.text.toList ≠ [] := fun h => by
      have hvalid := cls.valid
      simp [isValidObjectId, isValidObjectIdChars, h] at hvalid
    obtain ⟨hne, hlen⟩ := splitAll_idText hdot hcls r.id
    rw [htext, splitAll_append r.no_dot_ty]
    exact ⟨forall_mem_cons.2 ⟨hty, hne⟩, fun hid => by rw [length_cons, hlen hid]⟩

theorem text_chars : ∀ c ∈ r.text.toList, c ≠ '.' → isNameChar c = true ∧ c ≠ '}' := by
  have hres : ∀ {c}, isResIdChar c = true → isNameChar c = true ∧ c ≠ '}' := fun h =>
    ⟨(isResIdChar_spec h).1, (isResIdChar_spec h).2.1⟩
  intro c hc hdot
  rw [toList_text] at hc
  rcases mem_append.1 hc with hc | hc
  · rcases r.head_chars c hc with h | rfl | rfl | h
    · exact hres (isResIdChar_of_lowerAlnum h)
    · decide
    · decide
    · exact absurd h hdot
  · cases hid : r.id with
    | none => simp [hid] at hc
    | some id =>
      rw [hid] at hc
      rcases mem_cons.1 hc with rfl | hc
      · decide
      · rcases id.chars_spec c hc with h | h
        · exact hres h
        · exact absurd h hdot

theorem pieces_name : ∀ n ∈ r.pieces, IsPathName n := by
  intro n hn
  obtain ⟨seg, hseg, rfl⟩ := mem_map.1 hn
  have hne := r.splitAll_text.1 seg hseg
  refine ⟨by simpa using hne, fun c hc => ?_⟩
  rw [String.toList_ofList] at hc
  obtain ⟨hmem, hdot⟩ := splitAll_chars hseg c hc
  exact r.text_chars c hmem hdot

theorem pieces_guard : (!r.pieces.any (·.toList.contains '#') && decide (2 < r.pieces.length)) = false := by
  cases hid : r.id with
  | none =>
    have hlen := r.splitAll_text.2 hid
    have : ¬2 < r.pieces.length := by simpa [pieces] using hlen
    simp [this]
  | some id =>
    have hhash : '#' ∈ r.text.toList := by simp [toList_text, hid]
    rcases mem_splitAll (c := '.') hhash with h | ⟨seg, hseg, hc⟩
    · cases h
    · have hany : r.pieces.any (·.toList.contains '#') = true :=
        any_eq_true.2 ⟨String.ofList seg, mem_map_of_mem hseg, by simpa using hc⟩
      rw [hany]
      rfl

end ResourceRef

def fieldNames : List String := ["outputs", "guresid", "account"]

theorem isField_name (n : String) : isField (.name n) = true ↔ n ∈ fieldNames := by
  simp [isField, fieldNames, or_assoc]

/-- `${resources.<reference>.outputs.<path>}`. -/
def dottedText (r : ResourceRef) (path : List String) : String :=
  "$\x7bresources." ++ r.text ++ ".outputs." ++ ".".intercalate path ++ "\x7d"

/-- `${resources['<reference>'].outputs.<path>}`. -/
def quotedText (r : ResourceRef) (path : List String) : String :=
  "$\x7bresources['" ++ r.text ++ "'].outputs." ++ ".".intercalate path ++ "\x7d"

/-- The string is one placeholder, read as `e` in definitions. -/
def ReadAsExpr (s : String) (e : Expr) : Prop :=
  ∃ raw, parseTemplate s = .ok [.placeholder raw] ∧ Expr.interpret raw .definition = .ok e

variable {r : ResourceRef} {path : List String}

theorem pathChars_append (segs segs' : List Segment) : pathChars (segs ++ segs') = pathChars segs ++ pathChars segs' :=
  flatMap_append

theorem pathChars_path (hpath : path ≠ []) : pathChars (path.map .name) = '.' :: (".".intercalate path).toList := by
  rw [pathChars_names, String.toList_intercalate]
  exact (cons_intercalate '.' (by simpa using hpath)).symm

theorem dottedText_eq (r : ResourceRef) (hpath : path ≠ []) :
    dottedText r path = pathText "resources" (r.pieces.map .name ++ .name "outputs" :: path.map .name) := by
  apply String.toList_injective
  rw [pathText, String.toList_ofList, pathChars_append, r.pathChars_pieces, pathChars_cons, pathChars_path hpath]
  simp [dottedText, text]

theorem quotedText_eq (r : ResourceRef) (hpath : path ≠ []) :
    quotedText r path = pathText "resources" (.quoted r.text :: .name "outputs" :: path.map .name) := by
  apply String.toList_injective
  rw [pathText, String.toList_ofList, pathChars_cons, pathChars_cons, pathChars_path hpath]
  simp [quotedText, text]

theorem writable_names (h : ∀ n ∈ ns, IsPathName n) : ∀ seg ∈ ns.map name, seg.Writable := by
  intro seg hseg
  obtain ⟨n, hn, rfl⟩ := mem_map.1 hseg
  exact h n hn

theorem isPathName_outputs : IsPathName "outputs" := ⟨by decide, by simp; decide⟩

theorem isPathName_resources : IsPathName "resources" := ⟨by decide, by simp; decide⟩

theorem readAsExpr_path (h : ∀ seg ∈ segs, seg.Writable) :
    ReadAsExpr (pathText "resources" segs) (.resource target (.outputs below)) ↔
      parseResourceRef segs = .ok (target, .outputs below) := by
  have hparse := parse_path isPathName_resources h
  have hinterpret : Expr.interpret ⟨pathText "resources" segs, .name "resources" :: segs⟩ .definition =
      (parseResourceRef segs).mapError .syntaxError >>= fun x =>
        if x.2 = .account ∧ Dialect.definition ≠ .driverAccount then
          .error (.notAllowed "`.account` is only allowed in `driver_account`")
        else .ok (.resource x.1 x.2) := rfl
  have hiff : ReadAsExpr (pathText "resources" segs) (.resource target (.outputs below)) ↔
      Expr.interpret ⟨pathText "resources" segs, .name "resources" :: segs⟩ .definition =
        .ok (.resource target (.outputs below)) := by
    constructor
    · rintro ⟨raw, hraw, hread⟩
      rw [hparse] at hraw
      cases hraw
      exact hread
    · exact fun hread => ⟨_, hparse, hread⟩
  rw [hiff, hinterpret]
  cases parseResourceRef segs with
  | error e => simp [Except.mapError, bind, Except.bind]
  | ok x =>
    obtain ⟨target', field⟩ := x
    simp only [Except.mapError, ok_bind, Except.ok.injEq, Prod.mk.injEq]
    split
    · rename_i haccount
      simp [haccount.1]
    · simp

theorem parseResourceRef_eq_ok {field : ResourceField} :
    parseResourceRef segs = .ok (target, field) ↔
      ∃ rest, resourceRefText segs = .ok (target.text, rest) ∧ resourceField rest = .ok field := by
  have htarget : ∀ {text t}, (ResourceRef.parse text).mapError IdError.text = .ok t ↔ t.text = text := by
    intro text t
    rw [← ResourceRef.parse_eq_ok]
    cases ResourceRef.parse text <;> simp [Except.mapError]
  constructor
  · intro h
    obtain ⟨⟨text, rest⟩, htext, h⟩ := bind_eq_ok.1 h
    obtain ⟨t, ht, h⟩ := bind_eq_ok.1 h
    obtain ⟨f, hf, h⟩ := bind_eq_ok.1 h
    cases h
    exact ⟨rest, by rw [htext, htarget.1 ht], hf⟩
  · rintro ⟨rest, htext, hfield⟩
    exact bind_eq_ok.2 ⟨_, htext, bind_eq_ok.2 ⟨_, htarget.2 rfl, bind_eq_ok.2 ⟨_, hfield, rfl⟩⟩⟩

theorem resourceField_outputs (hpath : path ≠ []) :
    resourceField (.name "outputs" :: path.map .name) = .ok (.outputs (path.map .name)) := by
  obtain ⟨n, ns, rfl⟩ := exists_cons_of_ne_nil hpath
  rfl

theorem resourceRefText_names (hns : ns ≠ []) (below : List Segment) {k : Nat}
    (hk : (ns.map name ++ below).findIdx? isField = some k) (hle : k ≤ ns.length) :
    resourceRefText (ns.map .name ++ below) =
      if (ns.take k).isEmpty || !(ns.take k).any (·.toList.contains '#') && 2 < (ns.take k).length then .error resourceRefExpected
      else .ok (".".intercalate (ns.take k), (ns.map name ++ below).drop k) := by
  obtain ⟨n, ns, rfl⟩ := exists_cons_of_ne_nil hns
  have htake : ((n :: ns).map name ++ below).take k = ((n :: ns).take k).map .name := by
    rw [take_append_of_le_length (by simpa using hle), map_take]
  rw [map_cons, cons_append] at hk htake ⊢
  rw [resourceRefText, hk]
  simp only [htake, names_map_name]

theorem resourceRefText_pieces (hfields : ∀ n ∈ r.pieces, n ∉ fieldNames) (below : List Segment) :
    resourceRefText (r.pieces.map .name ++ .name "outputs" :: below) = .ok (r.text, .name "outputs" :: below) := by
  have hnone : (r.pieces.map name).findIdx? isField = none := by
    rw [findIdx?_eq_none_iff]
    intro seg hseg
    obtain ⟨n, hn, rfl⟩ := mem_map.1 hseg
    exact Bool.eq_false_iff.2 fun hfield => hfields n hn ((isField_name n).1 hfield)
  have hindex : (r.pieces.map name ++ .name "outputs" :: below).findIdx? isField = some r.pieces.length := by
    simp [findIdx?_append, hnone, findIdx?_cons, isField]
  rw [resourceRefText_names r.pieces_ne_nil _ hindex le_rfl, take_length, r.pieces_guard, r.intercalate_pieces,
    drop_left' (by simp)]
  simp [r.pieces_ne_nil]

theorem resourceRefText_cut {n : String} (hn : n ∈ r.pieces) (hfield : n ∈ fieldNames) {rest : List Segment} :
    resourceRefText (r.pieces.map .name ++ below) ≠ .ok (r.text, rest) := by
  have hsome : ((r.pieces.map name).findIdx? isField).isSome = true := by
    rw [findIdx?_isSome, any_eq_true]
    exact ⟨.name n, mem_map_of_mem hn, (isField_name n).2 hfield⟩
  obtain ⟨k, hk⟩ := Option.isSome_iff_exists.1 hsome
  have hlt : k < r.pieces.length := by
    obtain ⟨hlt, -⟩ := findIdx?_eq_some_iff_getElem.1 hk
    simpa using hlt
  have hindex : (r.pieces.map name ++ below).findIdx? isField = some k := by simp [findIdx?_append, hk]
  rw [resourceRefText_names r.pieces_ne_nil _ hindex hlt.le]
  split
  · simp
  · rename_i hguard
    intro h
    simp only [Bool.or_eq_true, not_or, List.isEmpty_iff] at hguard
    exact r.intercalate_take hlt hguard.1 (Prod.mk.inj (Except.ok.inj h)).1

theorem writable_outputs (hpath : ∀ n ∈ path, IsPathName n) :
    ∀ seg ∈ name "outputs" :: path.map .name, seg.Writable :=
  forall_mem_cons.2 ⟨isPathName_outputs, writable_names hpath⟩

theorem readAsExpr_quoted (r : ResourceRef) (hne : path ≠ []) (hpath : ∀ n ∈ path, IsPathName n) :
    ReadAsExpr (quotedText r path) (.resource r (.outputs (path.map .name))) := by
  have hquoted : (quoted r.text).Writable := by
    constructor <;> exact fun h => absurd (r.text_chars _ h (by decide)).1 (by decide)
  rw [quotedText_eq r hne, readAsExpr_path (forall_mem_cons.2 ⟨hquoted, writable_outputs hpath⟩)]
  exact parseResourceRef_eq_ok.2 ⟨_, rfl, resourceField_outputs hne⟩

theorem readAsExpr_dotted (r : ResourceRef) (hne : path ≠ []) (hpath : ∀ n ∈ path, IsPathName n) :
    ReadAsExpr (dottedText r path) (.resource r (.outputs (path.map .name))) ↔ ∀ n ∈ r.pieces, n ∉ fieldNames := by
  have hsegs := forall_mem_append.2 ⟨writable_names r.pieces_name, writable_outputs hpath⟩
  rw [dottedText_eq r hne, readAsExpr_path hsegs]
  constructor
  · intro h n hn hfield
    obtain ⟨rest, htext, -⟩ := parseResourceRef_eq_ok.1 h
    exact resourceRefText_cut hn hfield htext
  · intro hfields
    exact parseResourceRef_eq_ok.2 ⟨_, resourceRefText_pieces hfields _, resourceField_outputs hne⟩

/-- Reading a reference inverts its display. The quoted spelling of an output is read as that output, the dotted one
exactly when no segment of the reference between dots is named like a field. -/
theorem reference_spellings (r : ResourceRef) (path : List String) (hne : path ≠ []) (hpath : ∀ n ∈ path, IsPathName n) :
    ResourceRef.parse r.text = .ok r ∧
    ReadAsExpr (quotedText r path) (.resource r (.outputs (path.map .name))) ∧
    (ReadAsExpr (dottedText r path) (.resource r (.outputs (path.map .name))) ↔
      ∀ seg ∈ splitAll '.' r.text.toList, String.ofList seg ∉ fieldNames) := by
  refine ⟨r.parse_text, readAsExpr_quoted r hne hpath, ?_⟩
  rw [readAsExpr_dotted r hne hpath]
  exact forall_mem_map (P := (· ∉ fieldNames))

theorem postgres_valid : isResourceType "postgres" = true := by decide +kernel

def dependencyRef : ResourceRef :=
  ⟨⟨"postgres", postgres_valid⟩, some .default, some ⟨"modules.api.externals.db", by decide +kernel⟩⟩

/-- The ID of a dependency of a workload `outputs`. -/
def fieldRef : ResourceRef := ⟨⟨"postgres", postgres_valid⟩, none, some ⟨"modules.outputs.externals.db", by decide +kernel⟩⟩

theorem isPathName_host : ∀ n ∈ ["host"], IsPathName n := by
  simp only [mem_singleton, forall_eq]
  exact ⟨by decide, by simp; decide⟩

theorem dependencyRef_spellings :
    ReadAsExpr (quotedText dependencyRef ["host"]) (.resource dependencyRef (.outputs [.name "host"])) ∧
    ReadAsExpr (dottedText dependencyRef ["host"]) (.resource dependencyRef (.outputs [.name "host"])) := by
  obtain ⟨-, hquoted, hdotted⟩ := reference_spellings dependencyRef ["host"] (by simp) isPathName_host
  exact ⟨hquoted, hdotted.2 (by decide +kernel)⟩

/-- The dotted spelling ends the ID at the workload's name, and reads another resource. -/
theorem fieldRef_cut :
    ReadAsExpr (dottedText fieldRef ["host"]) (.resource ⟨⟨"postgres", postgres_valid⟩, none, some ⟨"modules", by decide +kernel⟩⟩
      (.outputs [.name "externals", .name "db", .name "outputs", .name "host"])) ∧
    ¬ReadAsExpr (dottedText fieldRef ["host"]) (.resource fieldRef (.outputs [.name "host"])) := by
  refine ⟨⟨⟨dottedText fieldRef ["host"], [.name "resources", .name "postgres#modules", .name "outputs", .name "externals",
    .name "db", .name "outputs", .name "host"]⟩, by decide +kernel, by decide +kernel⟩, ?_⟩
  intro h
  exact (readAsExpr_dotted fieldRef (by simp) isPathName_host).1 h "outputs" (by decide +kernel) (by decide +kernel)

end Openporch
