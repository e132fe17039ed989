import Openporch.Rendering
import Openporch.Tofu.Resource
import Mathlib.Data.List.Nodup

/-!
# Secret values stay in the secret part

A resolved input is rendered with what was read for its secrets. Taking the secrets out of the rendered input one by one
is rendering a resolved input with ever fewer secrets: once there are none, what is left is the same whatever was read.
-/

namespace Openporch.Tofu.Inputs
open Json List JsonMap AlikeOff

section
variable {α β : Type} {key : String} {fields : List (String × α)}

theorem swapRemove_perm (hkeys : (fields.map (·.1)).Nodup) :
    (swapRemove key fields).Perm (fields.filter fun f => f.1 ≠ key) := by
  rcases eq_nil_or_concat fields with rfl | ⟨init, last, rfl⟩
  · exact .nil
  · rw [concat_eq_append, map_append, nodup_append] at hkeys
    obtain ⟨hinit, -, hlast⟩ := hkeys
    have hkeep : ∀ l : List (String × α), (∀ f ∈ l, f.1 ≠ key) → (l.filter fun f => f.1 ≠ key) = l :=
      fun l hl => filter_eq_self.2 fun f hf => by simpa using hl f hf
    simp only [swapRemove, concat_eq_append, getLast?_concat, dropLast_concat, filter_append]
    split
    · rename_i hkey
      rw [hkeep init fun f hf heq => hlast f.1 (mem_map_of_mem hf) last.1 (by simp) (by rw [heq, hkey])]
      simp [hkey]
    · rename_i hkey
      split
      · rename_i hany
        obtain ⟨f, hf, hfkey⟩ : ∃ f ∈ init, f.1 = key := by simpa [hkey] using hany
        -- the place of the key, which no other field has
        obtain ⟨pre, post, rfl⟩ := append_of_mem hf
        rw [map_append, map_cons, nodup_append] at hinit
        obtain ⟨-, hpost, hpre⟩ := hinit
        have hpre' : ∀ g ∈ pre, g.1 ≠ key := fun g hg heq =>
          hpre g.1 (mem_map_of_mem hg) f.1 mem_cons_self (by rw [heq, hfkey])
        have hpost' : ∀ g ∈ post, g.1 ≠ key := fun g hg heq =>
          (nodup_cons.1 hpost).1 (mem_map.2 ⟨g, hg, by rw [heq, hfkey]⟩)
        have hmap : ∀ l : List (String × α), (∀ g ∈ l, g.1 ≠ key) → (l.map fun g => if g.1 = key then last else g) = l :=
          fun l hl => (map_congr_left fun g hg => if_neg (hl g hg)).trans (map_id l)
        rw [map_append, map_cons, if_pos hfkey, hmap pre hpre', hmap post hpost', filter_append,
          filter_cons_of_neg (by simp [hfkey]), hkeep pre hpre', hkeep post hpost', hkeep [last] (by simpa using hkey),
          append_assoc]
        have hcomm : ([last] ++ post).Perm (post ++ [last]) := perm_append_comm
        exact hcomm.append_left pre
      · rename_i hany
        have hinit' : ∀ f ∈ init, f.1 ≠ key := fun f hf heq =>
          hany (any_eq_true.2 ⟨f, mem_append_left _ hf, by simpa using heq⟩)
        rw [hkeep init hinit', hkeep [last] (by simpa using hkey)]

theorem mem_swapRemove (hkeys : (fields.map (·.1)).Nodup) {f : String × α} :
    f ∈ swapRemove key fields ↔ f ∈ fields ∧ f.1 ≠ key := by
  rw [(swapRemove_perm hkeys).mem_iff, mem_filter, decide_eq_true_iff]

theorem nodup_swapRemove (hkeys : (fields.map (·.1)).Nodup) : ((swapRemove key fields).map (·.1)).Nodup := by
  rw [((swapRemove_perm hkeys).map _).nodup_iff]
  exact hkeys.sublist (filter_sublist.map _)

theorem swapRemove_map (g : α → β) (fields : List (String × α)) :
    swapRemove key (fields.map fun f => (f.1, g f.2)) = (swapRemove key fields).map fun f => (f.1, g f.2) := by
  unfold swapRemove
  rw [getLast?_map]
  cases fields.getLast? with
  | none => rfl
  | some last =>
    dsimp only [Option.map_some]
    split
    · rw [map_dropLast]
    · rw [any_map, Function.comp_def]
      split
      · rw [← map_dropLast, map_map, map_map]
        refine map_congr_left fun f _ => ?_
        dsimp only [Function.comp_apply]
        split <;> rfl
      · rfl

end

theorem descend_objectAt (m : JsonMap) (key next : String) (path : List String) :
    (obj (objectAt m key)).descend (next :: path) = (obj m).descend (key :: next :: path) := by
  rw [descend_cons key]
  unfold objectAt
  cases m.get key with
  | none => rfl
  | some v => cases v <;> rfl

variable {p : List String} {r : Resolved} {ps : List (List String)}
  {x : Json} {paths : List (List String)} {m₁ m₂ : JsonMap}

theorem descend_put (hp : p ≠ []) (m : JsonMap) : (obj (put x p m)).descend p = some x := by
  induction p generalizing m with
  | nil => exact absurd rfl hp
  | cons key p ih =>
    cases p with
    | nil =>
      rw [put, descend_cons, get_insert_self]
      rfl
    | cons next p =>
      rw [put, descend_cons, get_insert_self]
      exact ih (by simp) _

theorem descend_put_of_apart {q : List String} (h : Apart p q) (m : JsonMap) :
    (obj (put x p m)).descend q = (obj m).descend q := by
  induction p generalizing m q with
  | nil => exact absurd nil_prefix h.1
  | cons key p ih =>
    cases q with
    | nil => exact absurd nil_prefix h.2
    | cons k q =>
      by_cases hk : k = key
      · subst hk
        have hrest : Apart p q := ⟨fun hpq => h.1 (cons_prefix_cons.2 ⟨rfl, hpq⟩),
          fun hqp => h.2 (cons_prefix_cons.2 ⟨rfl, hqp⟩)⟩
        cases p with
        | nil => exact absurd nil_prefix hrest.1
        | cons next p =>
          cases q with
          | nil => exact absurd nil_prefix hrest.2
          | cons l q =>
            rw [put, descend_cons, get_insert_self, Option.bind_some, ih hrest, descend_objectAt]
      · rw [descend_cons, descend_cons]
        cases p with
        | nil => rw [put, get_insert_of_ne _ _ hk]
        | cons next p => rw [put, get_insert_of_ne _ _ hk]

theorem alikeOff_put (h : AlikeOff paths (.obj m₁) (.obj m₂)) (hp : p ∈ paths)
    (x₁ x₂ : Json) : AlikeOff paths (.obj (put x₁ p m₁)) (.obj (put x₂ p m₂)) := by
  induction p generalizing paths m₁ m₂ with
  | nil => exact h
  | cons key p ih =>
    by_cases hroot : [] ∈ paths
    · exact fun q hq => absurd nil_prefix (hq [] hroot)
    refine of_children rfl fun k hk => ?_
    have hchild : ∀ w₁ w₂, (k = key → AlikeOff (pathsBelow k paths) w₁ w₂) →
        ((m₁.insert key w₁).get k = none ∧ (m₂.insert key w₂).get k = none) ∨
        ∃ v w, (m₁.insert key w₁).get k = some v ∧ (m₂.insert key w₂).get k = some w ∧
          AlikeOff (pathsBelow k paths) v w := by
      intro w₁ w₂ hw
      by_cases hkey : k = key
      · subst hkey
        exact .inr ⟨w₁, w₂, get_insert_self _ _ _, get_insert_self _ _ _, hw rfl⟩
      · rw [get_insert_of_ne _ _ hkey, get_insert_of_ne _ _ hkey]
        exact h.child hroot hk
    cases p with
    | nil => exact hchild x₁ x₂ fun hkey => absurd (hkey ▸ hp) hk
    | cons next p =>
      refine hchild _ _ fun hkey => ?_
      subst hkey
      refine ih ?_ (mem_pathsBelow.2 hp)
      -- the objects to go on in are alike: both were there, or both are new
      rcases h.child hroot hk with ⟨h₁, h₂⟩ | ⟨v, w, h₁, h₂, hvw⟩
      · have hnew : objectAt m₁ k = objectAt m₂ k := by
          unfold objectAt
          rw [show m₁.get k = none from h₁, show m₂.get k = none from h₂]
        rw [hnew]
        exact refl _ _
      · have hhead : v.head = w.head := Option.some.inj (hvw [] fun p hp hnil => by
          rw [prefix_nil.1 hnil, mem_pathsBelow] at hp
          exact hk hp)
        unfold objectAt
        rw [show m₁.get k = some v from h₁, show m₂.get k = some w from h₂]
        cases v with
        | obj c =>
          cases w with
          | obj c' => exact hvw
          | _ => cases hhead
        | _ =>
          cases w with
          | obj c' => cases hhead
          | _ => exact refl _ _

theorem setAt_obj (x : Json) (key : String) (p : List String) (m : JsonMap) (k : String) :
    (setAt x (key :: p) (.obj m)).children.get k =
      if k = key then some (setAt x p ((m.get key).getD .null)) else m.get k := by
  rw [setAt]
  exact get_insert _ _ _ _

theorem setAt_arr (x : Json) (key : String) (p : List String) (items : List Json) (k : String) :
    (setAt x (key :: p) (.arr items)).children.get k =
      ((arr items).children.get k).map fun v => if k = key then setAt x p v else v := by
  have hchildren : (setAt x (key :: p) (.arr items)).children =
      (arr items).children.map fun f => (f.1, if f.1 = key then setAt x p f.2 else f.2) := by
    unfold children
    rw [setAt]
    exact ext_getElem (by simp) fun i _ _ => by simp
  rw [hchildren]
  exact get_map _ (fun k v => if k = key then setAt x p v else v) k

theorem head_arr (items : List Json) : (arr items).head = .arr (replicate items.length .null) := by
  rw [Json.head, map_const']

theorem head_setAt_arr (x : Json) (key : String) (p : List String) (items : List Json) :
    (setAt x (key :: p) (.arr items)).head = (arr items).head := by
  rw [setAt, head_arr, head_arr, length_mapIdx]

theorem alike_setAt {a b : Json} (h : a.Alike b) (x : Json) (p : List String) : (setAt x p a).Alike (setAt x p b) := by
  induction p generalizing a b with
  | nil => exact refl _ _
  | cons key p ih =>
    have hhead : a.head = b.head := Option.some.inj (h [] (by simp))
    have hchild : ∀ k, (a.children.get k = none ∧ b.children.get k = none) ∨
        ∃ v w, a.children.get k = some v ∧ b.children.get k = some w ∧ v.Alike w :=
      fun k => h.child (by simp) (by simp)
    cases a with
    | obj m =>
      cases b with
      | obj m' =>
        refine of_children rfl fun k _ => ?_
        rw [setAt_obj, setAt_obj]
        by_cases hk : k = key
        · subst hk
          rw [if_pos rfl, if_pos rfl]
          refine .inr ⟨_, _, rfl, rfl, ih ?_⟩
          rcases hchild k with ⟨h₁, h₂⟩ | ⟨v, w, h₁, h₂, hvw⟩
          · rw [show JsonMap.get m k = none from h₁, show JsonMap.get m' k = none from h₂]
            exact refl _ _
          · rw [show JsonMap.get m k = some v from h₁, show JsonMap.get m' k = some w from h₂]
            exact hvw
        · rw [if_neg hk, if_neg hk]
          exact hchild k
      | _ => cases hhead
    | arr items =>
      cases b with
      | arr items' =>
        refine of_children (by rw [head_setAt_arr, head_setAt_arr, hhead]) fun k _ => ?_
        rw [setAt_arr, setAt_arr]
        rcases hchild k with ⟨h₁, h₂⟩ | ⟨v, w, h₁, h₂, hvw⟩
        · exact .inl ⟨by rw [h₁]; rfl, by rw [h₂]; rfl⟩
        · refine .inr ⟨_, _, by rw [h₁]; rfl, by rw [h₂]; rfl, ?_⟩
          split
          · exact ih hvw
          · exact hvw
      | _ => cases hhead
    | _ =>
      cases b with
      | obj | arr => cases hhead
      | _ => exact h

/-- `r'` is `r` without the secret at the path: its other secrets stay, and it renders to what is left after taking the
secret out of what `r` renders to. -/
structure Taken (p : List String) (r r' : Resolved) : Prop where
  representable : r'.Representable
  paths : ∀ q, q ∈ r'.secretPaths [] ↔ q ∈ r.secretPaths [] ∧ q ≠ p
  render : ∀ read v, r.render read = .ok v →
    ∃ x v', take p v = some (x, v') ∧ r'.render read = .ok v' ∧ (setAt x p v').Alike v

theorem paths_change {r' : Resolved} {key : String} (hr : ∀ e, r ≠ .secret e) (hr' : ∀ e, r' ≠ .secret e)
    (hother : ∀ c : String × Resolved, c.1 ≠ key → (c ∈ r'.children ↔ c ∈ r.children))
    (hat : ∀ q, (∃ f, (key, f) ∈ r'.children ∧ q ∈ f.secretPaths []) ↔
      (∃ f, (key, f) ∈ r.children ∧ q ∈ f.secretPaths []) ∧ q ≠ p)
    (q : List String) : q ∈ r'.secretPaths [] ↔ q ∈ r.secretPaths [] ∧ q ≠ key :: p := by
  have hmem : ∀ r : Resolved, (∀ e, r ≠ .secret e) → ∀ k s, k :: s ∈ r.secretPaths [] ↔
      ∃ f, (k, f) ∈ r.children ∧ s ∈ f.secretPaths [] := by
    intro r hr k s
    rw [Resolved.mem_secretPaths]
    constructor
    · rintro (⟨h, -⟩ | ⟨c, hc, s', hs', heq⟩)
      · cases h
      · cases heq
        exact ⟨c.2, hc, hs'⟩
    · rintro ⟨f, hf, hs⟩
      exact .inr ⟨(k, f), hf, s, hs, rfl⟩
  cases q with
  | nil =>
    rw [Resolved.mem_secretPaths, Resolved.mem_secretPaths]
    simp [hr, hr']
  | cons k s =>
    rw [hmem r' hr', hmem r hr]
    by_cases hk : k = key
    · subst hk
      rw [hat]
      simp
    · simp only [hother (k, _) hk, ne_eq, cons.injEq, hk, false_and, not_false_eq_true, and_true]

section
variable {key : String} {p : List String} {f f' : Resolved} {fields : List (String × Resolved)}
  {read : SecretRef → Option String}

theorem get_congr {m m' : JsonMap} (hm : (m.map (·.1)).Nodup) (hm' : (m'.map (·.1)).Nodup)
    (h : ∀ v, (key, v) ∈ m ↔ (key, v) ∈ m') : m.get key = m'.get key := by
  refine Option.ext fun v => ?_
  rw [get_eq_some hm, get_eq_some hm', h]

theorem get_map_of_notMem (g : Resolved → Json) (hkey : key ∉ fields.map (·.1)) :
    JsonMap.get (fields.map fun f => (f.1, g f.2)) key = none := by
  rw [get_eq_none, JsonMap.keys, map_map]
  exact hkey

theorem nodup_rendered (hkeys : (fields.map (·.1)).Nodup) :
    ((fields.map fun g => (g.1, g.2.out read)).map (·.1)).Nodup := by
  rwa [map_map]

theorem get_rendered (hkeys : (fields.map (·.1)).Nodup) (hf : (key, f) ∈ fields) :
    JsonMap.get (fields.map fun g => (g.1, g.2.out read)) key = some (f.out read) := by
  rw [get_eq_some (nodup_rendered hkeys)]
  exact mem_map.2 ⟨(key, f), hf, rfl⟩

theorem eq_of_key (hkeys : (fields.map (·.1)).Nodup) (hf : (key, f) ∈ fields) (hf' : (key, f') ∈ fields) : f' = f := by
  have heq := inj_on_of_nodup_map hkeys hf' hf rfl
  cases heq
  rfl

theorem taken_remove (hr : (Resolved.object fields).Representable) {e : SecretExpr} (hf : (key, .secret e) ∈ fields) :
    Taken [key] (.object fields) (.object (swapRemove key fields)) := by
  cases hr with
  | object hkeys hall =>
    refine ⟨.object (nodup_swapRemove hkeys) fun g hg => hall g ((mem_swapRemove hkeys).1 hg).1, ?_, fun read v hv => ?_⟩
    · refine paths_change (by simp) (by simp) (fun c hc => ?_) fun q => ?_
      · exact (mem_swapRemove hkeys).trans (and_iff_left hc)
      · constructor
        · rintro ⟨g, hg, -⟩
          exact absurd rfl ((mem_swapRemove hkeys).1 hg).2
        · rintro ⟨⟨g, hg, hq⟩, hne⟩
          rw [eq_of_key hkeys hf hg] at hq
          exact absurd (mem_singleton.1 hq) hne
    · obtain ⟨hrenders, rfl⟩ := Resolved.render_object.1 hv
      refine ⟨(Resolved.secret e).out read, _, ?_, Resolved.render_object.2 ⟨fun g hg => ?_, rfl⟩, ?_⟩
      · rw [take, if_pos rfl, get_rendered hkeys hf, Option.map_some, swapRemove_map]
      · exact hrenders g ((mem_swapRemove hkeys).1 hg).1
      · refine of_children rfl fun k _ => ?_
        rw [setAt_obj]
        by_cases hk : k = key
        · subst hk
          rw [if_pos rfl]
          exact .inr ⟨_, _, rfl, get_rendered hkeys hf, refl _ _⟩
        · rw [if_neg hk]
          have hsame : JsonMap.get ((swapRemove key fields).map fun g => (g.1, g.2.out read)) k =
              JsonMap.get (fields.map fun g => (g.1, g.2.out read)) k := by
            refine get_congr (nodup_rendered (nodup_swapRemove hkeys)) (nodup_rendered hkeys) fun w => ?_
            simp only [mem_map, mem_swapRemove hkeys]
            constructor
            · rintro ⟨g, ⟨hg, -⟩, heq⟩
              exact ⟨g, hg, heq⟩
            · rintro ⟨g, hg, heq⟩
              exact ⟨g, ⟨hg, fun hgk => hk ((congrArg Prod.fst heq).symm.trans hgk)⟩, heq⟩
          rw [hsame]
          exact child_refl _ _

def replaced (key : String) (f' : Resolved) (fields : List (String × Resolved)) : List (String × Resolved) :=
  fields.map fun g => if g.1 = key then (key, f') else g

theorem keys_replaced : (replaced key f' fields).map (·.1) = fields.map (·.1) := by
  unfold replaced
  rw [map_map]
  refine map_congr_left fun g _ => ?_
  dsimp only [Function.comp_apply]
  split
  · rename_i hg
    exact hg.symm
  · rfl

theorem mem_replaced (hf : (key, f) ∈ fields) {g} :
    g ∈ replaced key f' fields ↔ (g ∈ fields ∧ g.1 ≠ key) ∨ g = (key, f') := by
  unfold replaced
  rw [mem_map]
  constructor
  · rintro ⟨h, hh, rfl⟩
    split
    · exact .inr rfl
    · rename_i hne
      exact .inl ⟨hh, hne⟩
  · rintro (⟨hg, hne⟩ | rfl)
    · exact ⟨g, hg, if_neg hne⟩
    · exact ⟨(key, f), hf, if_pos rfl⟩

theorem rendered_replaced (hf : (key, f) ∈ fields) :
    (replaced key f' fields).map (fun g => (g.1, g.2.out read)) =
      JsonMap.insert (fields.map fun g => (g.1, g.2.out read)) key (f'.out read) := by
  have hany : (fields.map fun g => (g.1, g.2.out read)).any (·.1 = key) = true :=
    any_eq_true.2 ⟨_, mem_map.2 ⟨_, hf, rfl⟩, by simp⟩
  rw [JsonMap.insert, if_pos hany]
  unfold replaced
  rw [map_map, map_map]
  refine map_congr_left fun g _ => ?_
  dsimp only [Function.comp_apply]
  split <;> rfl

theorem taken_field (hr : (Resolved.object fields).Representable) (hf : (key, f) ∈ fields) (hp : p ≠ [])
    (h : Taken p f f') : Taken (key :: p) (.object fields) (.object (replaced key f' fields)) := by
  cases hr with
  | object hkeys hall =>
    refine ⟨.object (by rwa [keys_replaced]) fun g hg => ?_, ?_, fun read v hv => ?_⟩
    · rcases (mem_replaced hf).1 hg with ⟨hg, -⟩ | rfl
      · exact hall g hg
      · exact h.representable
    · refine paths_change (by simp) (by simp) (fun c hc => ?_) fun q => ?_
      · exact (mem_replaced hf).trans (by simp [Prod.ext_iff, hc, Resolved.children])
      · have hnew : ∀ g, (key, g) ∈ (Resolved.object (replaced key f' fields)).children ↔ g = f' :=
          fun g => (mem_replaced hf).trans (by simp)
        have hold : ∀ g, (key, g) ∈ (Resolved.object fields).children ↔ g = f :=
          fun g => ⟨eq_of_key hkeys hf, fun heq => heq ▸ hf⟩
        simp only [hnew, hold, exists_eq_left, h.paths q]
    · obtain ⟨hrenders, rfl⟩ := Resolved.render_object.1 hv
      obtain ⟨x, v', htake, hrender, halike⟩ := h.render read _ (hrenders _ hf)
      obtain ⟨hf', rfl⟩ := Resolved.renders_of_eq hrender
      refine ⟨x, _, ?_, Resolved.render_object.2 ⟨fun g hg => ?_, rfl⟩, ?_⟩
      · rw [take, if_neg hp, get_rendered hkeys hf, Option.bind_some, htake, Option.map_some, rendered_replaced hf]
      · rcases (mem_replaced hf).1 hg with ⟨hg, -⟩ | rfl
        · exact hrenders g hg
        · exact hf'
      · refine of_children rfl fun k _ => ?_
        rw [setAt_obj, rendered_replaced hf, get_insert_self, Option.getD_some]
        by_cases hk : k = key
        · subst hk
          rw [if_pos rfl]
          exact .inr ⟨_, _, rfl, get_rendered hkeys hf, halike⟩
        · rw [if_neg hk, get_insert_of_ne _ _ hk]
          exact child_refl _ _

end

theorem taken_item {items : List Resolved} {i : Nat} {f f' : Resolved} (hr : (Resolved.array items).Representable)
    (hi : items[i]? = some f) (h : Taken p f f') : Taken (toString i :: p) (.array items) (.array (items.set i f')) := by
  have hlt : i < items.length := (List.getElem?_eq_some_iff.1 hi).1
  cases hr with
  | array hlen hall =>
    refine ⟨.array (by rwa [length_set]) fun g hg => ?_, ?_, fun read v hv => ?_⟩
    · rcases mem_or_eq_of_mem_set hg with hg | rfl
      · exact hall g hg
      · exact h.representable
    · have hat : ∀ (l : List Resolved) g, (toString i, g) ∈ (Resolved.array l).children ↔ l[i]? = some g := by
        intro l g
        rw [Resolved.mem_children_array]
        constructor
        · rintro ⟨j, heq, hget⟩
          rwa [toString_nat_inj (congrArg String.toList heq)]
        · exact fun hget => ⟨i, rfl, hget⟩
      refine paths_change (by simp) (by simp) (fun c hc => ?_) fun q => ?_
      · rw [Resolved.mem_children_array, Resolved.mem_children_array]
        refine exists_congr fun j => and_congr_right fun hj => ?_
        rw [getElem?_set_ne fun hij => hc (by rw [hj, hij])]
      · simp only [hat, getElem?_set_self hlt, hi, Option.some.injEq, exists_eq_left', h.paths q]
    · obtain ⟨hrenders, rfl⟩ := Resolved.render_array.1 hv
      obtain ⟨x, v', htake, hrender, halike⟩ := h.render read _ (hrenders _ (mem_of_getElem? hi))
      obtain ⟨hf', rfl⟩ := Resolved.renders_of_eq hrender
      refine ⟨x, _, ?_, Resolved.render_array.2 ⟨fun g hg => ?_, rfl⟩, ?_⟩
      · rw [take, parseU64_toString (by omega), Option.bind_some, getElem?_map, hi, Option.map_some,
          Option.bind_some, htake, Option.map_some, map_set]
      · rcases mem_or_eq_of_mem_set hg with hg | rfl
        · exact hrenders g hg
        · exact hf'
      · refine of_children ?_ fun k _ => ?_
        · rw [head_setAt_arr, head_arr, head_arr, length_map, length_map, length_set]
        · rw [setAt_arr]
          by_cases hk : k = toString i
          · rw [hk, get_children_arr, get_children_arr, getElem?_map, getElem?_map, getElem?_set_self hlt, hi]
            exact .inr ⟨_, _, by simp only [Option.map_some, if_pos], rfl, halike⟩
          · have hsame : (arr ((items.set i f').map (Resolved.out read))).children.get k =
                (arr (items.map (Resolved.out read))).children.get k := by
              refine get_children_arr_congr fun j hj => ?_
              rw [getElem?_map, getElem?_map, getElem?_set_ne fun hij => hk (by rw [hj, hij])]
            simp only [if_neg hk, Option.map_id', hsame]
            exact child_refl _ _

theorem take_spec (hr : r.Representable) (hp : p ∈ r.secretPaths []) : ∃ r', Taken p r r' := by
  induction p generalizing r with
  | nil =>
    obtain ⟨e, rfl⟩ : ∃ e, r = .secret e := by
      rcases Resolved.mem_secretPaths.1 hp with ⟨-, he⟩ | ⟨c, -, q, -, heq⟩
      · exact he
      · cases heq
    refine ⟨.value .null, .value .null, fun q => ?_, fun read v hv => ⟨v, .null, rfl, rfl, refl _ _⟩⟩
    simp [Resolved.secretPaths]
  | cons key p ih =>
    obtain ⟨f, hf, hbelow⟩ : ∃ f, (key, f) ∈ r.children ∧ p ∈ f.secretPaths [] := by
      rcases Resolved.mem_secretPaths.1 hp with ⟨hnil, -⟩ | ⟨c, hc, q, hq, heq⟩
      · cases hnil
      · cases heq
        exact ⟨c.2, hc, hq⟩
    obtain ⟨f', h⟩ := ih (hr.child hf) hbelow
    cases r with
    | value | secret => cases hf
    | array items =>
      obtain ⟨i, rfl, hi⟩ := Resolved.mem_children_array.1 hf
      exact ⟨_, taken_item hr hi h⟩
    | object fields =>
      cases p with
      | cons next p => exact ⟨_, taken_field hr hf (by simp) h⟩
      | nil =>
        rcases Resolved.mem_secretPaths.1 hbelow with ⟨-, e, rfl⟩ | ⟨c, -, q, -, heq⟩
        · exact ⟨_, taken_remove hr hf⟩
        · cases heq

/-- Taking the secrets at the paths one by one: what is left renders without them, and with what was put among the
secrets it is the input again. -/
theorem move_spec (hr : r.Representable) (hps : ∀ p ∈ ps, p ∈ r.secretPaths []) (hne : [] ∉ ps) (hapart : ps.Pairwise Apart) :
    ∃ r' : Resolved, r'.Representable ∧ (∀ q, q ∈ r'.secretPaths [] ↔ q ∈ r.secretPaths [] ∧ q ∉ ps) ∧
      ∀ read v m, r.render read = .ok v → ∃ v' m', ps.foldlM move (v, m) = some (v', m') ∧ r'.render read = .ok v' ∧
        (∀ q, (∀ p ∈ ps, Apart p q) → (obj m').descend q = (obj m).descend q) ∧
        (overlayInput ps (.obj m') v').Alike v := by
  induction ps generalizing r with
  | nil => exact ⟨r, hr, by simp, fun read v m hv => ⟨v, m, rfl, hv, fun _ _ => rfl, refl _ _⟩⟩
  | cons p ps ih =>
    rw [pairwise_cons] at hapart
    rw [mem_cons, not_or] at hne
    obtain ⟨hp, hrest⟩ := forall_mem_cons.1 hps
    obtain ⟨r₁, htaken⟩ := take_spec hr hp
    have hps₁ : ∀ q ∈ ps, q ∈ r₁.secretPaths [] := fun q hq =>
      (htaken.paths q).2 ⟨hrest q hq, fun heq => (hapart.1 q hq).1 (heq ▸ prefix_refl _)⟩
    obtain ⟨r', hr', hpaths, hmove⟩ := ih htaken.representable hps₁ hne.2 hapart.2
    refine ⟨r', hr', fun q => ?_, fun read v m hv => ?_⟩
    · rw [hpaths, htaken.paths, mem_cons, not_or, and_assoc]
    · obtain ⟨x, v₁, htake, hv₁, hset⟩ := htaken.render read v hv
      obtain ⟨v', m', hfold, hv', hother, halike⟩ := hmove read v₁ (put x p m) hv₁
      have hstep : move (v, m) p = some (v₁, put x p m) := by rw [move, htake]; rfl
      refine ⟨v', m', ?_, hv', fun q hq => ?_, ?_⟩
      · rw [foldlM_cons, hstep]
        exact hfold
      · obtain ⟨hpq, hq⟩ := forall_mem_cons.1 hq
        rw [hother q hq, descend_put_of_apart hpq]
      · -- the secret is still where it was put
        have hat : (obj m').descend p = some x := by
          rw [hother p fun q hq => (hapart.1 q hq).symm, descend_put (Ne.symm hne.1)]
        have hover : overlayInput (p :: ps) (.obj m') v' = setAt x p (overlayInput ps (.obj m') v') := by
          unfold overlayInput
          rw [foldr_cons, hat]
          rfl
        rw [hover]
        exact (alike_setAt halike x p).trans hset

theorem alikeOff_move (hps : ∀ p ∈ ps, p ∈ paths) {v₁ v₂ v₁' v₂' : Json} {m₁' m₂' : JsonMap}
    (h₁ : ps.foldlM move (v₁, m₁) = some (v₁', m₁')) (h₂ : ps.foldlM move (v₂, m₂) = some (v₂', m₂'))
    (h : AlikeOff paths (.obj m₁) (.obj m₂)) : AlikeOff paths (.obj m₁') (.obj m₂') := by
  induction ps generalizing v₁ v₂ m₁ m₂ with
  | nil =>
    cases h₁
    cases h₂
    exact h
  | cons p ps ih =>
    obtain ⟨hp, hrest⟩ := forall_mem_cons.1 hps
    rw [foldlM_cons] at h₁ h₂
    obtain ⟨⟨w₁, n₁⟩, hmove₁, h₁⟩ := Option.bind_eq_some_iff.1 h₁
    obtain ⟨⟨w₂, n₂⟩, hmove₂, h₂⟩ := Option.bind_eq_some_iff.1 h₂
    obtain ⟨⟨x₁, u₁⟩, -, heq₁⟩ := Option.map_eq_some_iff.1 hmove₁
    obtain ⟨⟨x₂, u₂⟩, -, heq₂⟩ := Option.map_eq_some_iff.1 hmove₂
    cases heq₁
    cases heq₂
    exact ih hrest h₁ h₂ (alikeOff_put h hp x₁ x₂)

def pieces (ps : List (List String)) (v : Json) : Option Json × Json :=
  match ps.foldlM move (v, []) with
  | some (v', moved) => if !ps.isEmpty && !ps.any isEmpty then (some v', .obj moved) else (none, v)
  | none => (none, v)

theorem splitInput_eq (paths : List (List String)) (out : JsonMap × JsonMap) (input : String × Json) :
    splitInput paths out input =
      ((pieces (pathsOf paths input.1) input.2).1.elim out.1 (out.1.insert input.1),
        out.2.insert input.1 (pieces (pathsOf paths input.1) input.2).2) := by
  unfold splitInput pieces
  dsimp only
  generalize (pathsOf paths input.1).foldlM move (input.2, []) = moved
  rcases moved with _ | ⟨v, m⟩
  · rfl
  · dsimp only
    split <;> rfl

theorem pieces_whole (h : ps = [] ∨ [] ∈ ps) (v : Json) : pieces ps v = (none, v) := by
  have hcond : (!ps.isEmpty && !ps.any isEmpty) = false := by
    rcases h with rfl | h
    · rfl
    · have hany : ps.any isEmpty = true := any_eq_true.2 ⟨[], h, rfl⟩
      rw [hany, Bool.not_true, Bool.and_false]
  unfold pieces
  rw [hcond]
  split <;> rfl

theorem pieces_moved (hne : ps ≠ []) (hroot : [] ∉ ps) {v v' : Json} {m : JsonMap} (h : ps.foldlM move (v, []) = some (v', m)) :
    pieces ps v = (some v', .obj m) := by
  have hcond : (!ps.isEmpty && !ps.any isEmpty) = true := by
    rw [Bool.and_eq_true, Bool.not_eq_true', Bool.not_eq_true']
    refine ⟨by simpa using hne, any_eq_false.2 fun p hp hnil => hroot ?_⟩
    rwa [isEmpty_iff.1 hnil] at hp
  unfold pieces
  rw [h]
  dsimp only
  rw [if_pos hcond]

section
variable {f : Resolved} {read read₁ read₂ : SecretRef → Option String}

theorem alikeOff_fields {paths : List (List String)} {fields : List (String × Resolved)} (g₁ g₂ : Resolved → Json)
    (hkeys : (fields.map (·.1)).Nodup) (hpaths : ∀ c ∈ fields, ∀ p ∈ c.2.secretPaths [], c.1 :: p ∈ paths)
    (h : ∀ c ∈ fields, AlikeOff (c.2.secretPaths []) (g₁ c.2) (g₂ c.2)) {a b : Json} (hhead : a.head = b.head)
    (ha : a.children = fields.map fun c => (c.1, g₁ c.2)) (hb : b.children = fields.map fun c => (c.1, g₂ c.2)) :
    AlikeOff paths a b := by
  refine of_children hhead fun k _ => ?_
  rw [ha, hb]
  by_cases hk : k ∈ fields.map (·.1)
  · obtain ⟨⟨k, c⟩, hc, rfl⟩ := mem_map.1 hk
    have hget : ∀ g : Resolved → Json, JsonMap.get (fields.map fun c => (c.1, g c.2)) k = some (g c) := fun g =>
      (get_eq_some (by rwa [map_map])).2 (mem_map.2 ⟨_, hc, rfl⟩)
    exact .inr ⟨_, _, hget g₁, hget g₂, (h _ hc).mono fun p hp => mem_pathsBelow.2 (hpaths _ hc p hp)⟩
  · exact .inl ⟨get_map_of_notMem g₁ hk, get_map_of_notMem g₂ hk⟩

theorem alikeOff_render (hf : f.Representable) (h₁ : f.Renders read₁) (h₂ : f.Renders read₂) :
    AlikeOff (f.secretPaths []) (f.out read₁) (f.out read₂) := by
  have hbelow : ∀ (r : Resolved) (c : String × Resolved), c ∈ r.children → ∀ p ∈ c.2.secretPaths [],
      c.1 :: p ∈ r.secretPaths [] := fun r c hc p hp => Resolved.mem_secretPaths.2 (.inr ⟨c, hc, p, hp, rfl⟩)
  induction hf with
  | value v => exact refl _ _
  | secret e => exact fun q hq => absurd nil_prefix (hq [] mem_cons_self)
  | @object fields hkeys hall ih =>
    obtain ⟨hr₁, hout₁⟩ := Resolved.render_object.1 h₁
    obtain ⟨hr₂, hout₂⟩ := Resolved.render_object.1 h₂
    rw [hout₁, hout₂]
    exact alikeOff_fields _ _ hkeys (hbelow (.object fields)) (fun c hc => ih c hc (hr₁ c hc) (hr₂ c hc)) rfl rfl rfl
  | @array items hlen hall ih =>
    obtain ⟨hr₁, hout₁⟩ := Resolved.render_array.1 h₁
    obtain ⟨hr₂, hout₂⟩ := Resolved.render_array.1 h₂
    have hchildren : ∀ read, (arr (items.map (Resolved.out read))).children =
        (Resolved.array items).children.map fun c => (c.1, c.2.out read) :=
      fun read => ext_getElem (by simp [children, Resolved.children])
        fun i _ _ => by simp [children, Resolved.children]
    rw [hout₁, hout₂]
    refine alikeOff_fields _ _ (Resolved.Representable.array hlen hall).nodup (hbelow _) (fun c hc => ?_)
      (by rw [head_arr, head_arr, length_map, length_map]) (hchildren _) (hchildren _)
    obtain ⟨i, -, hi⟩ := Resolved.mem_children_array.1 hc
    have hmem := mem_of_getElem? hi
    exact ih _ hmem (hr₁ _ hmem) (hr₂ _ hmem)

theorem pieces_plain_eq (hf : f.Representable) (h₁ : f.Renders read₁) (h₂ : f.Renders read₂) :
    (pieces (f.secretPaths []) (f.out read₁)).1 = (pieces (f.secretPaths []) (f.out read₂)).1 := by
  by_cases hwhole : f.secretPaths [] = [] ∨ [] ∈ f.secretPaths []
  · rw [pieces_whole hwhole, pieces_whole hwhole]
  · rw [not_or] at hwhole
    obtain ⟨r', hr', hpaths, hmove⟩ := move_spec hf (fun p hp => hp) hwhole.2 hf.apart
    obtain ⟨v₁, m₁, hfold₁, hv₁, -, -⟩ := hmove read₁ _ [] h₁
    obtain ⟨v₂, m₂, hfold₂, hv₂, -, -⟩ := hmove read₂ _ [] h₂
    have hnone : ∀ q, q ∉ r'.secretPaths [] := fun q hq => ((hpaths q).1 hq).2 ((hpaths q).1 hq).1
    rw [hr'.render_eq hnone read₁ read₂, hv₂] at hv₁
    rw [pieces_moved hwhole.1 hwhole.2 hfold₁, pieces_moved hwhole.1 hwhole.2 hfold₂, Except.ok.inj hv₁]

theorem pieces_secret_alike (hf : f.Representable) (h₁ : f.Renders read₁) (h₂ : f.Renders read₂) :
    AlikeOff (f.secretPaths []) (pieces (f.secretPaths []) (f.out read₁)).2 (pieces (f.secretPaths []) (f.out read₂)).2 := by
  by_cases hwhole : f.secretPaths [] = [] ∨ [] ∈ f.secretPaths []
  · rw [pieces_whole hwhole, pieces_whole hwhole]
    exact alikeOff_render hf h₁ h₂
  · rw [not_or] at hwhole
    obtain ⟨r', -, -, hmove⟩ := move_spec hf (fun p hp => hp) hwhole.2 hf.apart
    obtain ⟨v₁, m₁, hfold₁, -, -, -⟩ := hmove read₁ _ [] h₁
    obtain ⟨v₂, m₂, hfold₂, -, -, -⟩ := hmove read₂ _ [] h₂
    rw [pieces_moved hwhole.1 hwhole.2 hfold₁, pieces_moved hwhole.1 hwhole.2 hfold₂]
    exact alikeOff_move (fun p hp => hp) hfold₁ hfold₂ (refl _ _)

theorem pieces_overlay (hf : f.Representable) (hsome : f.secretPaths [] ≠ []) (h : f.Renders read) :
    (overlayInput (f.secretPaths []) (pieces (f.secretPaths []) (f.out read)).2
      ((pieces (f.secretPaths []) (f.out read)).1.getD .null)).Alike (f.out read) := by
  by_cases hwhole : [] ∈ f.secretPaths []
  · rw [pieces_whole (.inr hwhole)]
    -- only a secret is one at its own place
    rcases Resolved.mem_secretPaths.1 hwhole with ⟨-, e, rfl⟩ | ⟨_, _, _, _, heq⟩
    · exact refl _ _
    · cases heq
  · obtain ⟨r', -, -, hmove⟩ := move_spec hf (fun p hp => hp) hwhole hf.apart
    obtain ⟨v', m, hfold, -, -, halike⟩ := hmove read _ [] h
    rw [pieces_moved hsome hwhole hfold]
    exact halike

end

end Openporch.Tofu.Inputs
