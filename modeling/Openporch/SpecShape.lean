import Openporch.SetSyntax

/-!
# The shape of a converted spec

Converting a document changes text only: the spec of the module has the shape of the document's, which is the value with
its text erased, and the content of `noExpand` files is put back as it was.
-/

namespace Openporch
open List Fallible JsonMap Json

def Json.dig : List String → Json → Option Json
  | [], v => some v
  | key :: path, v => (v.field? key).bind (dig path)

section
variable {v u x : Json} {p q : List String} {key : String}

theorem pointer_of_dig (h : v.dig p = some u) : v.pointer p = some u := by
  induction p generalizing v with
  | nil => exact h
  | cons key p ih =>
    obtain ⟨below, hbelow, hrest⟩ := Option.bind_eq_some_iff.1 h
    cases v with
    | obj fields => exact Option.bind_eq_some_iff.2 ⟨below, hbelow, ih hrest⟩
    | _ => cases hbelow

theorem dig_setAt_self (h : v.dig p = some u) (x : Json) : (v.setAt p x).dig p = some x := by
  induction p generalizing v with
  | nil => rfl
  | cons key p ih =>
    obtain ⟨below, hbelow, h⟩ := Option.bind_eq_some_iff.1 h
    change ((v.modify key fun below => below.setAt p x).field? key).bind (dig p) = some x
    rw [field_modify, hbelow, Option.map_some, if_pos rfl, Option.bind_some]
    exact ih h

theorem dig_setAt_other (hu : u.isLeaf = true) (h : v.dig q = some u) (hp : ¬ p <+: q) (x : Json) :
    (v.setAt p x).dig q = some u := by
  induction q generalizing v p with
  | nil =>
    cases h
    cases p with
    | nil => exact absurd nil_prefix hp
    | cons k p => exact congrArg some (modify_leaf hu k _)
  | cons key q ih =>
    cases p with
    | nil => exact absurd nil_prefix hp
    | cons k p =>
      obtain ⟨below, hbelow, h⟩ := Option.bind_eq_some_iff.1 h
      change ((v.modify k fun below => below.setAt p x).field? key).bind (dig q) = some u
      rw [field_modify, hbelow, Option.map_some, Option.bind_some]
      by_cases hkey : key = k
      · rw [if_pos hkey]
        refine ih h fun hpre => hp ?_
        rw [hkey]
        exact (prefix_cons_inj k).2 hpre
      · rw [if_neg hkey]
        exact h

end

mutual

def Json.shape : Json → Json
  | .str _ => .null
  | .arr items => .arr (shapeItems items)
  | .obj fields => .obj (shapeFields fields)
  | v => v

def shapeItems : List Json → List Json
  | [] => []
  | v :: rest => v.shape :: shapeItems rest

def shapeFields : List (String × Json) → List (String × Json)
  | [] => []
  | (k, v) :: rest => (k, v.shape) :: shapeFields rest

end

theorem shapeFields_eq (fields : List (String × Json)) : shapeFields fields = fields.map fun f => (f.1, f.2.shape) := by
  induction fields with
  | nil => rfl
  | cons f fields ih => simp [shapeFields, ih]

theorem field_shape (v : Json) (key : String) : v.shape.field? key = (v.field? key).map shape := by
  cases v with
  | obj fields =>
    change List.lookup key (shapeFields fields) = (List.lookup key fields).map shape
    induction fields with
    | nil => rfl
    | cons f fields ih =>
      obtain ⟨k, v⟩ := f
      rw [shapeFields, lookup_cons, lookup_cons]
      split
      · rfl
      · exact ih
  | _ => rfl

theorem dig_shape (p : List String) (v : Json) : v.shape.dig p = (v.dig p).map shape := by
  induction p generalizing v with
  | nil => rfl
  | cons key p ih =>
    rw [dig, dig, field_shape]
    cases v.field? key with
    | none => rfl
    | some below => exact ih below

mutual

theorem translate_shape {resources : IndexMap ResourceRequest} {types : List ResourceType} {at' paths : List String} {v' : Json} :
    {v : Json} → translate resources types at' v = .ok (v', paths) → v'.shape = v.shape
  | .str s, h => by
    rw [translate] at h
    obtain ⟨_, -, h⟩ := bind_eq_ok.1 h
    cases h
    rfl
  | .arr items, h => by
    rw [translate] at h
    obtain ⟨⟨items', _⟩, hitems, h⟩ := bind_eq_ok.1 h
    cases h
    rw [shape, shape, translateItems_shape hitems]
  | .obj fields, h => by
    rw [translate] at h
    obtain ⟨⟨fields', _⟩, hfields, h⟩ := bind_eq_ok.1 h
    cases h
    rw [shape, shape, translateFields_shape hfields]
  | .null, h | .bool _, h | .num _, h => by
    cases h
    rfl

theorem translateItems_shape {resources types} {at' paths : List String} {i : Nat} {items' : List Json} :
    {items : List Json} → translateItems resources types at' i items = .ok (items', paths) →
      shapeItems items' = shapeItems items
  | [], h => by
    cases h
    rfl
  | v :: rest, h => by
    rw [translateItems] at h
    obtain ⟨⟨v', _⟩, hv, h⟩ := bind_eq_ok.1 h
    obtain ⟨⟨rest', _⟩, hrest, h⟩ := bind_eq_ok.1 h
    cases h
    rw [shapeItems, shapeItems, translate_shape hv, translateItems_shape hrest]

theorem translateFields_shape {resources : IndexMap ResourceRequest} {types : List ResourceType} {at' paths : List String}
    {fields' : List (String × Json)} : {fields : List (String × Json)} →
      translateFields resources types at' fields = .ok (fields', paths) → shapeFields fields' = shapeFields fields
  | [], h => by
    cases h
    rfl
  | (k, v) :: rest, h => by
    rw [translateFields] at h
    obtain ⟨⟨v', _⟩, hv, h⟩ := bind_eq_ok.1 h
    obtain ⟨⟨rest', _⟩, hrest, h⟩ := bind_eq_ok.1 h
    cases h
    rw [shapeFields, shapeFields, translate_shape hv, translateFields_shape hrest]

end

def OnceAlong : List String → Json → Prop
  | [], _ => True
  | key :: path, v => (∀ fields, v = .obj fields → (fields.map (·.1)).Nodup) ∧ ∀ u, v.field? key = some u → OnceAlong path u

variable {p : List String} {v u : Json}

theorem onceAlong_shape : OnceAlong p v.shape ↔ OnceAlong p v := by
  induction p generalizing v with
  | nil => exact Iff.rfl
  | cons key p ih =>
    have hkeys : (∀ fields, v.shape = .obj fields → (fields.map (·.1)).Nodup) ↔
        ∀ fields, v = .obj fields → (fields.map (·.1)).Nodup := by
      cases v with
      | obj fields =>
        have hsame : (shapeFields fields).map (·.1) = fields.map (·.1) := by simp [shapeFields_eq, Function.comp_def]
        simp [shape, hsame]
      | _ => simp [shape]
    rw [OnceAlong, OnceAlong, hkeys, field_shape]
    refine and_congr_right fun _ => ?_
    simp [ih]

theorem OnceAlong.congr {w : Json} (h : OnceAlong p v) (hs : w.shape = v.shape) : OnceAlong p w :=
  onceAlong_shape.1 (hs ▸ onceAlong_shape.2 h)

theorem shape_setAt {x : Json} (hone : OnceAlong p v) (h : v.dig p = some u) (hx : x.shape = u.shape) :
    (v.setAt p x).shape = v.shape := by
  induction p generalizing v with
  | nil =>
    cases h
    exact hx
  | cons key p ih =>
    obtain ⟨below, hbelow, hrest⟩ := Option.bind_eq_some_iff.1 h
    cases v with
    | obj fields =>
      obtain ⟨hkeys, hone⟩ := hone
      rw [setAt, modify_obj, shape, shape, shapeFields_eq, shapeFields_eq, map_map, obj.injEq]
      refine map_congr_left fun y hy => ?_
      dsimp only [Function.comp_apply]
      split
      · rename_i hkey
        have hsame : get fields key = some y.2 := (get_eq_some (hkeys fields rfl)).2 (hkey ▸ hy)
        cases hbelow.symm.trans hsame
        rw [ih (hone _ hbelow) hrest]
      · rfl
    | _ => cases hbelow

def Parted (p q : List String) : Prop := ¬ p <+: q ∧ ¬ q <+: p

theorem setAside_spec {ps : List (List String)} (hps : ps.Pairwise Parted) (acc : SetAside)
    (h : ∀ p ∈ ps, OnceAlong p v ∧ ∃ s, v.dig p = some (.str s)) : (ps.foldl setAsideOne (v, acc)).1.shape = v.shape ∧
      (ps.foldl setAsideOne (v, acc)).2 = acc ++ ps.map fun p => (p, (v.dig p).getD .null) := by
  induction ps generalizing v acc with
  | nil => exact ⟨rfl, by simp⟩
  | cons p ps ih =>
    obtain ⟨hp, hps⟩ := pairwise_cons.1 hps
    obtain ⟨⟨hone, s, hs⟩, hrest⟩ := forall_mem_cons.1 h
    have hshape : (v.setAt p .null).shape = v.shape := shape_setAt hone hs rfl
    have hother : ∀ q ∈ ps, (v.setAt p .null).dig q = v.dig q := by
      intro q hq
      obtain ⟨-, t, ht⟩ := hrest q hq
      rw [ht, dig_setAt_other rfl ht (hp q hq).1]
    have hstep : setAsideOne (v, acc) p = (v.setAt p .null, acc ++ [(p, .str s)]) := by
      rw [setAsideOne, pointer_of_dig hs]
    obtain ⟨hshape', hkept⟩ := ih hps (acc ++ [(p, .str s)]) fun q hq => by
      obtain ⟨hone', t, ht⟩ := hrest q hq
      exact ⟨hone'.congr hshape, t, by rw [hother q hq, ht]⟩
    rw [foldl_cons, hstep]
    refine ⟨hshape'.trans hshape, ?_⟩
    rw [hkept, append_assoc, map_cons, hs]
    refine congrArg (acc ++ ·) (congrArg _ (map_congr_left fun q hq => ?_))
    rw [hother q hq]

theorem isLeaf_of_shape (h : u.shape = .null) : u.isLeaf = true := by
  cases u <;> first | rfl | cases h

theorem dig_putBack {kept : SetAside} {q : List String} (hu : u.isLeaf = true) (h : v.dig q = some u)
    (hq : ∀ x ∈ kept, ¬ x.1 <+: q) : (kept.foldl (fun v x => v.setAt x.1 x.2) v).dig q = some u := by
  induction kept generalizing v with
  | nil => exact h
  | cons x kept ih =>
    obtain ⟨hx, hkept⟩ := forall_mem_cons.1 hq
    exact ih (dig_setAt_other hu h hx x.2) hkept

theorem putBack_spec {kept : SetAside} (hkept : (kept.map (·.1)).Pairwise Parted)
    (h : ∀ x ∈ kept, OnceAlong x.1 v ∧ x.2.shape = .null ∧ ∃ u, v.dig x.1 = some u ∧ u.shape = .null) :
    (kept.foldl (fun v x => v.setAt x.1 x.2) v).shape = v.shape ∧
      ∀ x ∈ kept, (kept.foldl (fun v x => v.setAt x.1 x.2) v).dig x.1 = some x.2 := by
  induction kept generalizing v with
  | nil => exact ⟨rfl, by simp⟩
  | cons x kept ih =>
    rw [map_cons, pairwise_cons] at hkept
    obtain ⟨hx, hkept⟩ := hkept
    have hparted : ∀ y ∈ kept, Parted x.1 y.1 := fun y hy => hx y.1 (mem_map_of_mem hy)
    obtain ⟨⟨hone, hnull, u, hu, hunull⟩, hrest⟩ := forall_mem_cons.1 h
    have hshape : (v.setAt x.1 x.2).shape = v.shape := shape_setAt hone hu (hnull.trans hunull.symm)
    obtain ⟨hshape', hdigs⟩ := ih hkept fun y hy => by
      obtain ⟨hone', hnull', u', hu', hunull'⟩ := hrest y hy
      exact ⟨hone'.congr hshape, hnull', u', dig_setAt_other (isLeaf_of_shape hunull') hu' (hparted y hy).1 x.2, hunull'⟩
    refine ⟨hshape'.trans hshape, forall_mem_cons.2 ⟨?_, hdigs⟩⟩
    rw [foldl_cons]
    exact dig_putBack (isLeaf_of_shape hnull) (dig_setAt_self hu x.2) fun y hy => (hparted y hy).2

theorem keys_optional (key : String) (v : Option Json) : ((optional key v).map (·.1)).Sublist [key] := by
  cases v <;> simp [optional]

theorem keys_nonEmpty (key : String) (m : JsonMap) : ((nonEmpty key m).map (·.1)).Sublist [key] := by
  unfold nonEmpty
  split <;> simp

theorem get_append (a b : JsonMap) (k : String) : get (a ++ b) k = (a.get k).or (b.get k) := lookup_append

theorem get_nil (k : String) : get [] k = none := rfl

theorem get_field (key k : String) (v : Json) (m : JsonMap) :
    JsonMap.get ((key, v) :: m) k = if k = key then some v else m.get k := by
  rw [JsonMap.get, lookup_cons]
  by_cases hk : k = key
  · simp [hk]
  · rw [show (k == key) = false by simpa using hk, if_neg hk]
    rfl

theorem get_optional (key k : String) (v : Option Json) : JsonMap.get (optional key v) k = if k = key then v else none := by
  cases v with
  | none => simp [optional, JsonMap.get]
  | some v => exact get_field key k v []

theorem get_nonEmpty (key k : String) (m : JsonMap) :
    JsonMap.get (nonEmpty key m) k = if k = key ∧ m ≠ [] then some (.obj m) else none := by
  cases m with
  | nil => simp [nonEmpty, JsonMap.get]
  | cons f m =>
    change JsonMap.get [(key, obj (f :: m))] k = _
    rw [get_field]
    simp [JsonMap.get]

theorem keys_append {a b : List (String × Json)} {k : String} {ks : List String} (ha : (a.map (·.1)).Sublist [k])
    (hb : (b.map (·.1)).Sublist ks) : ((a ++ b).map (·.1)).Sublist (k :: ks) := by
  rw [map_append]
  exact ha.append hb

section
variable {α : Type} (g : α → Json) (m : IndexMap α)

theorem keys_json : (m.json g).map (·.1) = m.entries.map (·.1) := by simp [IndexMap.json, Function.comp_def]

theorem get_json {k : String} {a : α} (h : (k, a) ∈ m.entries) : get (m.json g) k = some (g a) := by
  have hkeys : ((m.json g).map (·.1)).Nodup := by
    rw [keys_json]
    exact m.nodup
  exact (get_eq_some hkeys).2 (mem_map.2 ⟨_, h, rfl⟩)

theorem onceAlong_json {k : String} {a : α} {p : List String} (h : (k, a) ∈ m.entries) (ha : OnceAlong p (g a)) :
    OnceAlong (k :: p) (.obj (m.json g)) := by
  refine ⟨fun fields hfields => ?_, fun u hu => ?_⟩
  · cases hfields
    rw [keys_json]
    exact m.nodup
  · cases (get_json g m h).symm.trans hu
    exact ha

end

def Keyed (v : Json) : Prop := ∃ fields, v = .obj fields ∧ (fields.map (·.1)).Nodup

theorem Keyed.onceAlong {key : String} (hv : Keyed v) (hu : v.field? key = some u) (h : OnceAlong p u) :
    OnceAlong (key :: p) v := by
  obtain ⟨fields, rfl, hkeys⟩ := hv
  refine ⟨fun fields' hfields => ?_, fun u' hu' => ?_⟩
  · cases hfields
    exact hkeys
  · cases hu.symm.trans hu'
    exact h

theorem File.keyed (f : File) : Keyed f.json := by
  refine ⟨_, rfl, ?_⟩
  have hkeys : _ := keys_append (keys_optional "mode" (f.mode.map .str)) (keys_append (keys_optional "source" (f.source.map .str))
    (keys_append (keys_optional "content" (f.content.map .str)) (keys_optional "noExpand" (f.noExpand.map .bool))))
  simp only [← append_assoc] at hkeys
  exact hkeys.nodup (by decide)

theorem File.field_content (f : File) : f.json.field? "content" = f.content.map .str := by
  change JsonMap.get _ _ = _
  simp [get_append, get_optional]

theorem File.field_noExpand (f : File) : f.json.field? "noExpand" = f.noExpand.map .bool := by
  change JsonMap.get _ _ = _
  simp [get_append, get_optional]

theorem Container.keyed (c : Container) : Keyed c.json := by
  refine ⟨_, rfl, ?_⟩
  have himage : ([("image", str c.image)].map (·.1)).Sublist ["image"] := List.Sublist.refl _
  have hkeys : _ := keys_append himage (keys_append (keys_optional "command" (c.command.map strings))
    (keys_append (keys_optional "args" (c.args.map strings)) (keys_append (keys_nonEmpty "variables" (c.vars.json .str))
      (keys_append (keys_nonEmpty "files" (c.files.json File.json))
        (keys_append (keys_optional "resources" (c.resources.map (·.json)))
          (keys_append (keys_optional "livenessProbe" (c.livenessProbe.map (·.json)))
            (keys_optional "readinessProbe" (c.readinessProbe.map (·.json)))))))))
  simp only [← append_assoc] at hkeys
  exact hkeys.nodup (by decide)

theorem Container.field_files (c : Container) : c.json.field? "files" =
    if c.files.json File.json = [] then none else some (.obj (c.files.json File.json)) := by
  change JsonMap.get _ _ = _
  simp [get_append, get_field, get_optional, get_nonEmpty, ite_not]

namespace Workload
variable {w : Workload}

theorem spec_keyed (w : Workload) : Keyed w.spec := by
  refine ⟨_, rfl, ?_⟩
  have hdeploy : ([("deploy", w.deployJson)].map (·.1)).Sublist ["deploy"] := List.Sublist.refl _
  have hkeys : _ := keys_append (keys_optional "containers" (w.containers.map fun c => .obj (c.json Container.json)))
    (keys_append (keys_optional "function" (w.function.map (·.json)))
      (keys_append (keys_optional "service" (w.service.map (·.json)))
        (keys_append (keys_nonEmpty "triggers" (w.effectiveTriggers.map fun p => (p.1, p.2.json)))
          (keys_append hdeploy
            (keys_append (keys_optional "target" (w.target.map .obj))
              (keys_nonEmpty "annotations" (texts w.metadata.annotations)))))))
  simp only [← append_assoc] at hkeys
  exact hkeys.nodup (by decide)

theorem field_containers (w : Workload) :
    w.spec.field? "containers" = w.containers.map fun c => .obj (c.json Container.json) := by
  change JsonMap.get _ _ = _
  simp [get_append, get_field, get_optional, get_nonEmpty]

/-- A file with `noExpand` and its content. -/
def NoExpand (w : Workload) (id target text : String) : Prop :=
  ∃ ct f, (id, ct) ∈ w.containerEntries ∧ (target, f) ∈ ct.files.entries ∧ f.noExpand = some true ∧ f.content = some text

end Workload

def contentPath (id target : String) : List String := ["containers", id, "files", target, "content"]

namespace Workload
variable {w : Workload} {id target text : String}

theorem mem_noExpandPointers {p : List String} :
    p ∈ w.noExpandPointers ↔ ∃ id target text, w.NoExpand id target text ∧ p = contentPath id target := by
  unfold noExpandPointers NoExpand
  rw [mem_flatMap]
  constructor
  · rintro ⟨⟨id, ct⟩, hct, hp⟩
    obtain ⟨⟨target, f⟩, hf, hp⟩ := mem_filterMap.1 hp
    obtain ⟨⟨hexpand, hcontent⟩, ⟨⟩⟩ := Option.ite_none_right_eq_some.1 hp
    obtain ⟨text, htext⟩ := Option.isSome_iff_exists.1 hcontent
    exact ⟨id, target, text, ⟨ct, f, hct, hf, hexpand, htext⟩, rfl⟩
  · rintro ⟨id, target, text, ⟨ct, f, hct, hf, hexpand, htext⟩, rfl⟩
    exact ⟨(id, ct), hct, mem_filterMap.2 ⟨(target, f), hf, by simp [hexpand, htext, contentPath]⟩⟩

theorem spec_containers {ct : Container} (h : (id, ct) ∈ w.containerEntries) :
    ∃ containers : IndexMap Container, (id, ct) ∈ containers.entries ∧
      w.spec.field? "containers" = some (.obj (containers.json Container.json)) := by
  unfold containerEntries at h
  rw [field_containers]
  cases hcontainers : w.containers with
  | none =>
    rw [hcontainers] at h
    cases h
  | some containers =>
    rw [hcontainers] at h
    exact ⟨containers, h, rfl⟩

theorem container_files {ct : Container} {f : File} (h : (target, f) ∈ ct.files.entries) :
    ct.json.field? "files" = some (.obj (ct.files.json File.json)) := by
  rw [ct.field_files, if_neg]
  intro hnil
  rw [IndexMap.json, map_eq_nil_iff] at hnil
  rw [hnil] at h
  cases h

theorem NoExpand.dig (h : w.NoExpand id target text) : w.spec.dig (contentPath id target) = some (.str text) := by
  obtain ⟨ct, f, hct, hf, -, htext⟩ := h
  obtain ⟨containers, hmem, hcontainers⟩ := spec_containers hct
  refine Option.bind_eq_some_iff.2 ⟨_, hcontainers, Option.bind_eq_some_iff.2 ⟨_, get_json _ containers hmem, ?_⟩⟩
  refine Option.bind_eq_some_iff.2 ⟨_, container_files hf, Option.bind_eq_some_iff.2 ⟨_, get_json _ ct.files hf, ?_⟩⟩
  refine Option.bind_eq_some_iff.2 ⟨.str text, ?_, rfl⟩
  rw [f.field_content, htext]
  rfl

theorem NoExpand.once (h : w.NoExpand id target text) : OnceAlong (contentPath id target) w.spec := by
  obtain ⟨ct, f, hct, hf, -, htext⟩ := h
  obtain ⟨containers, hmem, hcontainers⟩ := spec_containers hct
  have hcontent : f.json.field? "content" = some (.str text) := by
    rw [f.field_content, htext]
    rfl
  have hfile : OnceAlong ["content"] f.json := f.keyed.onceAlong hcontent trivial
  have hfiles := onceAlong_json File.json ct.files hf hfile
  have hcontainer := ct.keyed.onceAlong (container_files hf) hfiles
  exact (spec_keyed w).onceAlong hcontainers (onceAlong_json Container.json containers hmem hcontainer)

theorem parted_contentPath {id target id' target' : String} (h : ¬ (id = id' ∧ target = target')) :
    Parted (contentPath id target) (contentPath id' target') := by
  unfold Parted contentPath
  simp only [cons_prefix_cons, prefix_nil]
  tauto

theorem noExpandPointers_parted (w : Workload) : w.noExpandPointers.Pairwise Parted := by
  have hentries : (w.containerEntries.map (·.1)).Nodup := by
    unfold containerEntries
    cases w.containers with
    | none => exact .nil
    | some containers => exact containers.nodup
  unfold noExpandPointers
  refine pairwise_flatMap.2 ⟨fun x hx => ?_, ?_⟩
  · refine List.Pairwise.filterMap _ ?_ (pairwise_map.1 x.2.files.nodup)
    intro a b hab p hp q hq
    obtain ⟨-, ⟨⟩⟩ := Option.ite_none_right_eq_some.1 hp
    obtain ⟨-, ⟨⟩⟩ := Option.ite_none_right_eq_some.1 hq
    exact parted_contentPath fun h => hab h.2
  · refine (pairwise_map.1 hentries).imp fun hab p hp q hq => ?_
    obtain ⟨_, -, hp⟩ := mem_filterMap.1 hp
    obtain ⟨_, -, hq⟩ := mem_filterMap.1 hq
    obtain ⟨-, ⟨⟩⟩ := Option.ite_none_right_eq_some.1 hp
    obtain ⟨-, ⟨⟩⟩ := Option.ite_none_right_eq_some.1 hq
    exact parted_contentPath fun h => hab h.1

theorem body_outputs (t : Trigger) : get t.body "outputs" = none := by
  cases t <;> simp [Trigger.body, get_append, get_field, get_optional, get_nil]

theorem no_trigger_outputs (w : Workload) (name kind : String) : w.spec.dig ["triggers", name, kind, "outputs"] = none := by
  refine Option.eq_none_iff_forall_ne_some.2 fun u h => ?_
  obtain ⟨triggers, htriggers, h⟩ := Option.bind_eq_some_iff.1 h
  obtain ⟨trigger, htrigger, h⟩ := Option.bind_eq_some_iff.1 h
  obtain ⟨body, hbody, h⟩ := Option.bind_eq_some_iff.1 h
  obtain ⟨outputs, houtputs, -⟩ := Option.bind_eq_some_iff.1 h
  have hfield : triggers = .obj (w.effectiveTriggers.map fun p => (p.1, p.2.json)) := by
    change get _ "triggers" = some triggers at htriggers
    simp [get_append, get_field, get_optional, get_nonEmpty] at htriggers
    exact htriggers.2.symm
  rw [hfield] at htrigger
  obtain ⟨⟨_, t⟩, -, heq⟩ := mem_map.1 (mem_of_get htrigger)
  obtain ⟨rfl, rfl⟩ := Prod.mk.inj heq
  obtain ⟨rfl, rfl⟩ := Prod.mk.inj (mem_singleton.1 (mem_of_get hbody))
  rw [show (obj t.body).field? "outputs" = none from body_outputs t] at houtputs
  cases houtputs

theorem obj_of_shape {v : Json} (h : v.shape = w.spec.shape) : .obj (v.asObject?.getD []) = v := by
  cases v with
  | obj fields => rfl
  | _ => cases h

theorem module_spec {types : List ResourceType} {c : ConvertedWorkload} (hc : w.toModule types = .ok c) :
    (obj c.module.spec).shape = w.spec.shape ∧
      ∀ id target text, w.NoExpand id target text → (obj c.module.spec).dig (contentPath id target) = some (.str text) := by
  obtain ⟨translated, ⟨paths, htranslate⟩, -, -, -, hspec⟩ := Workload.toModule_eq hc
  have hdigs : ∀ p ∈ w.noExpandPointers, OnceAlong p w.spec ∧ ∃ s, w.spec.dig p = some (.str s) := by
    intro p hp
    obtain ⟨id, target, text, h, rfl⟩ := mem_noExpandPointers.1 hp
    exact ⟨h.once, text, h.dig⟩
  obtain ⟨haside, hkept⟩ := setAside_spec (noExpandPointers_parted w) [] hdigs
  rw [nil_append] at hkept
  change (setAside w.spec w.noExpandPointers).1.shape = _ at haside
  change (setAside w.spec w.noExpandPointers).2 = _ at hkept
  have htranslated : translated.shape = w.spec.shape := (translate_shape htranslate).trans haside
  rw [hkept] at hspec
  have hkeptPaths : ((w.noExpandPointers.map fun p => (p, (w.spec.dig p).getD .null)).map (·.1)).Pairwise Parted := by
    simpa [Function.comp_def] using noExpandPointers_parted w
  obtain ⟨hback, hcontents⟩ := putBack_spec hkeptPaths (v := translated) fun x hx => by
    obtain ⟨p, hp, rfl⟩ := mem_map.1 hx
    obtain ⟨hone, s, hs⟩ := hdigs p hp
    have hnull : translated.shape.dig p = some .null := by
      rw [htranslated, dig_shape, hs]
      rfl
    rw [dig_shape] at hnull
    obtain ⟨u, hu, hshape⟩ := Option.map_eq_some_iff.1 hnull
    exact ⟨hone.congr htranslated, by rw [hs]; rfl, u, hu, hshape⟩
  have hfinal := obj_of_shape (hback.trans htranslated)
  rw [hspec, hfinal]
  refine ⟨hback.trans htranslated, fun id target text h => ?_⟩
  have hmem := mem_noExpandPointers.2 ⟨id, target, text, h, rfl⟩
  have hdig := hcontents _ (mem_map_of_mem hmem)
  rw [h.dig] at hdig
  exact hdig

end Workload
end Openporch
