import Openporch.Planner.Job
import Openporch.SecretLayout
import Openporch.Store.Secrets

/-!
# Secret inputs

`crates/server/src/secret_inputs.rs`: a definition gives its secrets inline, as placeholder templates or as literals, or
under `secret_refs`, as references or as `{value}`. `PlannedInputs.new` checks them and `PlannedInputs.write` writes the
literals to the built-in store.
-/

namespace Openporch
open List Fallible JsonMap

inductive ApiError where
  | invalid (message : String)
  /-- `internal`: checked secret layout changed. -/
  | layoutChanged
  /-- `internal`, for what the secret store reports. -/
  | secretStore (e : SecretError)
deriving DecidableEq

def storeError (e : SecretError) : ApiError :=
  match e with
  | .invalidReference _ _ => .invalid e.text
  | other => .secretStore other

def isLiteral (parts : List Part) : Bool := parts.all fun | .literal _ => true | .placeholder _ => false

def literalText (s : String) : String :=
  match parseTemplate s with
  | .ok parts => if isLiteral parts then String.join (parts.map fun | .literal l => l | .placeholder p => p.text) else s
  | .error _ => s

def isTemplate (s : String) : Bool :=
  match parseTemplate s with
  | .ok parts => !isLiteral parts && (placeholders parts).all fun p => (Expr.interpret p .definition).isOk
  | .error _ => false

def isWhole (s : String) : Bool :=
  match parseTemplate s with
  | .ok [.placeholder _] => true
  | _ => false

/-- What to put at one path of `secret_refs`. -/
inductive PlannedSecret where
  | ref (r : SecretRef)
  | write (value : String)
deriving DecidableEq

/-- The value in `{value}`; unknown fields are denied. -/
def NewSecret.read (fields : JsonMap) : Option String := do
  guard (fields.all fun f => f.1 = "value")
  (fields.get "value").bind Json.asStr?

/-- `PlannedSecret::new`: checks one secret input. `what` names it in errors. -/
def PlannedSecret.new (what : String) (input : JsonMap) : Except ApiError PlannedSecret :=
  match SecretRef.read input, NewSecret.read input with
  | some r, _ => ((validateReference r).mapError storeError).map fun _ => .ref r
  | none, some value =>
    if isTemplate value then
      .error (.invalid (what ++ " is a `\x7bvalue\x7d` with a placeholder; secret values cannot hold " ++
        "placeholders (a definition takes templates under `driver_inputs.secrets`)"))
    else .ok (.write value)
  | none, none =>
    .error (.invalid (what ++ " must be a secret reference `\x7bstore, ref, version?\x7d` or `\x7bvalue\x7d`"))

def Json.isContainer : Json → Bool
  | .obj _ | .arr _ => true
  | _ => false

def Json.isString : Json → Bool
  | .str _ => true
  | _ => false

/-- Whether an object in `secret_refs` is a single secret input. -/
def isSecretLeaf (m : JsonMap) : Bool :=
  let isRef := m.length ≤ 3 && (m.get "store").isSome && (m.get "ref").isSome &&
    (m.all fun f => f.1 = "store" || f.1 = "ref" || f.1 = "version") && m.all fun f => !f.2.isContainer
  let isValue := m.length = 1 && (m.get "value").any Json.isString
  isRef || isValue

def display (path : List String) : String := ".".intercalate path

mutual

/-- The secret inputs of `secret_refs`, each with its path. -/
def collectRefs (path : List String) : JsonMap → Except ApiError (List (List String × PlannedSecret))
  | [] => .ok []
  | (k, v) :: rest => do
    let found ← collectRef (path ++ [k]) v
    return found ++ (← collectRefs path rest)

def collectRef (path : List String) : Json → Except ApiError (List (List String × PlannedSecret))
  | .obj m =>
    if isSecretLeaf m then (PlannedSecret.new ("driver_inputs.secret_refs." ++ display path) m).map fun p => [(path, p)]
    else collectRefs path m
  | _ => .error (.invalid ("driver_inputs.secret_refs." ++ display path ++ " must be an object of secret references"))

end

structure Inline where
  templates : List (List String × String)
  secrets : List (List String × PlannedSecret)

def Inline.append (a b : Inline) : Inline :=
  { templates := a.templates ++ b.templates, secrets := a.secrets ++ b.secrets }

def inlineSecret (path : List String) (s : String) : Except ApiError Inline :=
  if isTemplate s then
    if isWhole s then .ok { templates := [(path, s)], secrets := [] }
    else .error (.invalid ("driver_inputs.secrets." ++ display path ++ " mixes literal text with placeholders; a " ++
      "secret template must be a single placeholder, with literal parts in their own secret input"))
  else .ok { templates := [], secrets := [(path, .write (literalText s))] }

mutual

def collectInline (path : List String) : JsonMap → Except ApiError Inline
  | [] => .ok { templates := [], secrets := [] }
  | (k, v) :: rest => do
    let found ← collectInlineValue (path ++ [k]) v
    return found.append (← collectInline path rest)

def collectInlineValue (path : List String) : Json → Except ApiError Inline
  | .str s => inlineSecret path s
  | .obj m => collectInline path m
  | _ => .error (.invalid ("driver_inputs.secrets." ++ display path ++ " must be a string or an object of strings"))

end

structure PlannedInputs where
  values : JsonMap
  templates : List (List String × String)
  secrets : List (List String × PlannedSecret)
deriving DecidableEq

namespace PlannedInputs

def marker : Json := .obj [("store", .null), ("ref", .null)]

def paths (p : PlannedInputs) : List (List String) := p.templates.map (·.1) ++ p.secrets.map (·.1)

def layPath (layout : JsonMap) (path : List String) : Except ApiError JsonMap :=
  (insertWith isSecretLeaf marker path layout).elim
    (.error (.invalid ("secret input `" ++ display path ++
      "` is given more than once or overlaps another secret input"))) .ok

def new (inputs : DriverInputs) : Except ApiError PlannedInputs := do
  let refs ← collectRefs [] inputs.secretRefs
  let inline ← collectInline [] inputs.secrets
  let planned : PlannedInputs :=
    { values := inputs.values, templates := inline.templates, secrets := refs ++ inline.secrets }
  -- dry run of the final layout: every path must be its own leaf
  let _ ← planned.paths.foldlM layPath []
  return planned

end PlannedInputs

structure WriteState where
  db : SecretDb
  written : List SecretRef

abbrev WriteM := EStateM ApiError WriteState

/-- Writes a value under `name`, or passes a reference through. -/
def PlannedSecret.materialize (b : BuiltinSecretStore) (name : String) : PlannedSecret → WriteM SecretRef
  | .ref r => pure r
  | .write value => fun st =>
    match b.write name value st.db with
    | .ok (r, db) => .ok r { db, written := st.written ++ [r] }
    | .error e => .error (storeError e) st

namespace PlannedInputs

def nameFor (under : String) (path : List String) : String := under ++ "/" ++ "/".intercalate path

def layTemplate (m : JsonMap) (template : List String × String) : WriteM JsonMap :=
  (insertWith (fun _ => false) (.str template.2) template.1 m).elim (throw .layoutChanged) pure

def laySecret (b : BuiltinSecretStore) (under : String) (m : JsonMap) (secret : List String × PlannedSecret) :
    WriteM JsonMap := do
  let reference ← secret.2.materialize b (nameFor under secret.1)
  (insertWith isSecretLeaf reference.json secret.1 m).elim (throw .layoutChanged) pure

def write (b : BuiltinSecretStore) (under : String) (p : PlannedInputs) : WriteM DriverInputs := do
  let secrets ← p.templates.foldlM layTemplate []
  let secretRefs ← p.secrets.foldlM (laySecret b under) []
  return { values := p.values, secrets, secretRefs }

end PlannedInputs

inductive SecretLeaf where
  | template (s : String)
  | text (s : String)
  | reference (r : SecretRef)

inductive RefLeaf (c : JsonMap) : PlannedSecret → Prop
  | ref {r} : SecretRef.read c = some r → RefLeaf c (.ref r)
  | write {s} : NewSecret.read c = some s → RefLeaf c (.write s)

/-- The driver inputs give the leaf at the path: inline, as a template or a literal, or under `secret_refs`, as a
reference or a `{value}`. -/
inductive Given (inputs : DriverInputs) : List String → SecretLeaf → Prop
  | template {p s} :
    (Json.obj inputs.secrets).Has p (.str s) → isTemplate s = true →
    Given inputs p (.template s)
  | literal {p s} :
    (Json.obj inputs.secrets).Has p (.str s) → isTemplate s = false →
    Given inputs p (.text (literalText s))
  | reference {p c r} :
    (Json.obj inputs.secretRefs).Has p (.obj c) →
    SecretRef.read c = some r → Given inputs p (.reference r)
  | value {p c s} :
    (Json.obj inputs.secretRefs).Has p (.obj c) →
    NewSecret.read c = some s → Given inputs p (.text s)

variable {s : String} {c : JsonMap} {v : Json}

theorem asStr?_eq_some {v : Option Json} (h : v.bind Json.asStr? = some s) : v = some (.str s) := by
  obtain ⟨w, rfl, hw⟩ := Option.bind_eq_some_iff.1 h
  cases w with
  | str t =>
    cases hw
    rfl
  | _ => cases hw

theorem read_fields {r : SecretRef} (h : SecretRef.read c = some r) :
    c.get "store" = some (.str r.store) ∧ ∀ k v, c.get k = some v → v.isContainer = false := by
  unfold SecretRef.read at h
  obtain ⟨⟨⟩, hguard, h⟩ := Option.bind_eq_some_iff.1 h
  obtain ⟨store, hstore, h⟩ := Option.bind_eq_some_iff.1 h
  obtain ⟨reference, href, h⟩ := Option.bind_eq_some_iff.1 h
  have hstore := asStr?_eq_some hstore
  have href := asStr?_eq_some href
  have hversion : ∀ v, c.get "version" = some v → v.isContainer = false := by
    intro v hv
    rw [hv] at h
    cases v with
    | null | str => rfl
    | _ => cases h
  have hr : r.store = store := by
    split at h <;> cases h <;> rfl
  refine ⟨hr ▸ hstore, fun k v hv => ?_⟩
  have hkeys : c.all (fun f => f.1 = "store" || f.1 = "ref" || f.1 = "version") = true := by
    by_contra hall
    rw [guard, if_neg hall] at hguard
    cases hguard
  have hk := all_eq_true.1 hkeys _ (mem_of_get hv)
  simp only [Bool.or_eq_true, decide_eq_true_eq] at hk
  rcases hk with (rfl | rfl) | rfl
  · rw [hstore] at hv
    cases hv
    rfl
  · rw [href] at hv
    cases hv
    rfl
  · exact hversion v hv

theorem newSecret_fields (h : NewSecret.read c = some s) : c.get "value" = some (.str s) ∧ ∀ f ∈ c, f.1 = "value" := by
  unfold NewSecret.read at h
  obtain ⟨⟨⟩, hguard, h⟩ := Option.bind_eq_some_iff.1 h
  refine ⟨asStr?_eq_some h, fun f hf => ?_⟩
  have hkeys : c.all (fun f => f.1 = "value") = true := by
    by_contra hall
    rw [guard, if_neg hall] at hguard
    cases hguard
  simpa using all_eq_true.1 hkeys f hf

variable {k : String} {x : PlannedSecret} {p path : List String}

theorem isSecretLeaf_eq_false (hmem : (k, v) ∈ c) (hv : v.isContainer = true) : isSecretLeaf c = false := by
  have href : (c.all fun f => !f.2.isContainer) = false := by
    rw [all_eq_false]
    exact ⟨(k, v), hmem, by simp [hv]⟩
  have hvalue : (decide (c.length = 1) && (c.get "value").any Json.isString) = false := by
    rw [Bool.eq_false_iff]
    intro hval
    rw [Bool.and_eq_true, decide_eq_true_eq] at hval
    obtain ⟨f, rfl⟩ := length_eq_one_iff.1 hval.1
    rw [mem_singleton] at hmem
    subst hmem
    have hstr := hval.2
    rw [JsonMap.get, lookup_cons] at hstr
    split at hstr
    · cases v with
      | obj | arr => cases hstr
      | _ => cases hv
    · cases hstr
  unfold isSecretLeaf
  dsimp only
  rw [href, hvalue]
  simp

theorem RefLeaf.has_string (h : RefLeaf c x) : ∃ k s, (k, .str s) ∈ c := by
  cases h with
  | ref h => exact ⟨_, _, mem_of_get (read_fields h).1⟩
  | write h => exact ⟨_, _, mem_of_get (newSecret_fields h).1⟩

theorem Json.Has.of_cons {w : Json} (h : v.Has (k :: p) w) :
    ∃ fields x, v = .obj fields ∧ (k, x) ∈ fields ∧ x.Has p w := by
  cases h with
  | field hmem h => exact ⟨_, _, rfl, hmem, h⟩

theorem Json.Has.isContainer (h : v.Has p (.obj c)) : v.isContainer = true := by
  cases h <;> rfl

theorem str_not_mem_of_collectRefs (m : JsonMap) {out} (h : collectRefs path m = .ok out) (k s : String) :
    (k, .str s) ∉ m := by
  induction m generalizing out with
  | nil => simp
  | cons f m ih =>
    rw [collectRefs] at h
    obtain ⟨found, hfound, h⟩ := bind_eq_ok.1 h
    obtain ⟨more, hmore, -⟩ := bind_eq_ok.1 h
    rw [mem_cons, not_or]
    refine ⟨?_, ih hmore⟩
    rintro rfl
    cases hfound

theorem PlannedSecret.new_iff {what : String} (h : PlannedSecret.new what c = .ok x) (y : PlannedSecret) :
    RefLeaf c y ↔ y = x := by
  unfold PlannedSecret.new at h
  split at h
  · rename_i r hr
    obtain ⟨_, -, rfl⟩ := map_eq_ok.1 h
    constructor
    · intro hy
      cases hy with
      | ref hy =>
        rw [hr] at hy
        cases hy
        rfl
      | write hy =>
        -- no object is both: `{value}` has no field `store`
        have hstore := (newSecret_fields hy).2 _ (mem_of_get (read_fields hr).1)
        exact absurd (show "store" = "value" from hstore) (by decide)
    · rintro rfl
      exact .ref hr
  · rename_i value hr hvalue
    split at h
    · cases h
    · cases h
      constructor
      · intro hy
        cases hy with
        | ref hy =>
          rw [hr] at hy
          cases hy
        | write hy =>
          rw [hvalue] at hy
          cases hy
          rfl
      · rintro rfl
        exact .write hvalue
  · cases h

mutual

theorem collectRef_mem {path : List String} : (v : Json) → {out : List (List String × PlannedSecret)} →
    collectRef path v = .ok out → ∀ q x, (q, x) ∈ out ↔ ∃ p c, v.Has p (.obj c) ∧ RefLeaf c x ∧ q = path ++ p
  | .obj m, out, h, q, x => by
    rw [collectRef] at h
    split at h
    · rename_i hleaf
      obtain ⟨y, hy, rfl⟩ := map_eq_ok.1 h
      rw [mem_singleton, Prod.mk.injEq]
      constructor
      · rintro ⟨rfl, rfl⟩
        exact ⟨[], m, .here _, (PlannedSecret.new_iff hy _).2 rfl, by simp⟩
      · rintro ⟨p, c, hhas, hc, rfl⟩
        cases p with
        | nil =>
          cases hhas
          exact ⟨by simp, (PlannedSecret.new_iff hy _).1 hc⟩
        | cons k p =>
          -- a leaf has no objects in it
          obtain ⟨fields, w, heq, hmem, hhas⟩ := hhas.of_cons
          cases heq
          rw [isSecretLeaf_eq_false hmem hhas.isContainer] at hleaf
          cases hleaf
    · rename_i hleaf
      rw [collectRefs_mem m h]
      constructor
      · rintro ⟨f, hf, p, c, hhas, hc, rfl⟩
        exact ⟨f.1 :: p, c, .field hf hhas, hc, rfl⟩
      · rintro ⟨p, c, hhas, hc, rfl⟩
        cases p with
        | nil =>
          cases hhas
          obtain ⟨k, s, hmem⟩ := hc.has_string
          exact absurd hmem (str_not_mem_of_collectRefs m h k s)
        | cons k p =>
          obtain ⟨fields, w, heq, hmem, hhas⟩ := hhas.of_cons
          cases heq
          exact ⟨(k, w), hmem, p, c, hhas, hc, rfl⟩
  | .null, out, h, q, x | .bool _, out, h, q, x | .num _, out, h, q, x | .str _, out, h, q, x
  | .arr _, out, h, q, x => by cases h

theorem collectRefs_mem {path : List String} : (m : JsonMap) → {out : List (List String × PlannedSecret)} →
    collectRefs path m = .ok out →
    ∀ q x, (q, x) ∈ out ↔ ∃ f ∈ m, ∃ p c, f.2.Has p (.obj c) ∧ RefLeaf c x ∧ q = path ++ f.1 :: p
  | [], out, h, q, x => by
    cases h
    simp
  | (k, v) :: rest, out, h, q, x => by
    rw [collectRefs] at h
    obtain ⟨found, hfound, h⟩ := bind_eq_ok.1 h
    obtain ⟨more, hmore, h⟩ := bind_eq_ok.1 h
    cases h
    rw [mem_append, collectRef_mem v hfound, collectRefs_mem rest hmore]
    simp [append_assoc]

end

theorem inlineSecret_mem {out : Inline} (h : inlineSecret path s = .ok out) :
    (∀ q t, (q, t) ∈ out.templates ↔ t = s ∧ isTemplate s = true ∧ q = path) ∧
    ∀ q x, (q, x) ∈ out.secrets ↔ isTemplate s = false ∧ x = .write (literalText s) ∧ q = path := by
  unfold inlineSecret at h
  split at h
  · rename_i htemplate
    split at h
    · cases h
      simp [htemplate, and_comm]
    · cases h
  · rename_i htemplate
    cases h
    simp [htemplate, and_comm]

mutual

theorem collectInlineValue_mem {path : List String} : (v : Json) → {out : Inline} →
    collectInlineValue path v = .ok out →
    (∀ q s, (q, s) ∈ out.templates ↔ ∃ p, v.Has p (.str s) ∧ isTemplate s = true ∧ q = path ++ p) ∧
    ∀ q x, (q, x) ∈ out.secrets ↔
      ∃ p s, v.Has p (.str s) ∧ isTemplate s = false ∧ x = .write (literalText s) ∧ q = path ++ p
  | .str s, out, h => by
    obtain ⟨ht, hs⟩ := inlineSecret_mem (show inlineSecret path s = .ok out from h)
    constructor
    · intro q t
      rw [ht]
      constructor
      · rintro ⟨rfl, htemplate, rfl⟩
        exact ⟨[], .here _, htemplate, by simp⟩
      · rintro ⟨p, hhas, htemplate, rfl⟩
        cases hhas
        exact ⟨rfl, htemplate, by simp⟩
    · intro q x
      rw [hs]
      constructor
      · rintro ⟨htemplate, rfl, rfl⟩
        exact ⟨[], s, .here _, htemplate, rfl, by simp⟩
      · rintro ⟨p, t, hhas, htemplate, rfl, rfl⟩
        cases hhas
        exact ⟨htemplate, rfl, by simp⟩
  | .obj m, out, h => by
    obtain ⟨ht, hs⟩ := collectInline_mem m (show collectInline path m = .ok out from h)
    constructor
    · intro q s
      rw [ht]
      constructor
      · rintro ⟨f, hf, p, hhas, htemplate, rfl⟩
        exact ⟨f.1 :: p, .field hf hhas, htemplate, rfl⟩
      · rintro ⟨p, hhas, htemplate, rfl⟩
        cases hhas with
        | field hmem hhas => exact ⟨_, hmem, _, hhas, htemplate, rfl⟩
    · intro q x
      rw [hs]
      constructor
      · rintro ⟨f, hf, p, s, hhas, htemplate, rfl, rfl⟩
        exact ⟨f.1 :: p, s, .field hf hhas, htemplate, rfl, rfl⟩
      · rintro ⟨p, s, hhas, htemplate, rfl, rfl⟩
        cases hhas with
        | field hmem hhas => exact ⟨_, hmem, _, _, hhas, htemplate, rfl, rfl⟩
  | .null, out, h | .bool _, out, h | .num _, out, h | .arr _, out, h => by cases h

theorem collectInline_mem {path : List String} : (m : JsonMap) → {out : Inline} → collectInline path m = .ok out →
    (∀ q s, (q, s) ∈ out.templates ↔ ∃ f ∈ m, ∃ p, f.2.Has p (.str s) ∧ isTemplate s = true ∧ q = path ++ f.1 :: p) ∧
    ∀ q x, (q, x) ∈ out.secrets ↔
      ∃ f ∈ m, ∃ p s, f.2.Has p (.str s) ∧ isTemplate s = false ∧ x = .write (literalText s) ∧ q = path ++ f.1 :: p
  | [], out, h => by
    cases h
    simp
  | (k, v) :: rest, out, h => by
    rw [collectInline] at h
    obtain ⟨found, hfound, h⟩ := bind_eq_ok.1 h
    obtain ⟨more, hmore, h⟩ := bind_eq_ok.1 h
    cases h
    obtain ⟨ht, hs⟩ := collectInlineValue_mem v hfound
    obtain ⟨ht', hs'⟩ := collectInline_mem rest hmore
    constructor
    · intro q s
      rw [Inline.append, mem_append, ht, ht']
      simp [append_assoc]
    · intro q x
      rw [Inline.append, mem_append, hs, hs']
      simp [append_assoc]

end

def PlannedSecret.leaf : PlannedSecret → SecretLeaf
  | .ref r => .reference r
  | .write s => .text s

namespace PlannedInputs

theorem refRule : LeafRule isSecretLeaf fun v => ∃ c, v = .obj c ∧ isSecretLeaf c = true where
  fresh := rfl
  closed c h := by
    obtain ⟨c', heq, hc⟩ := h
    cases heq
    exact hc
  container c k w hw h := by
    have hobj : ∃ c', w = .obj c' := by
      rcases h with ⟨c', rfl, -⟩ | h
      · exact ⟨c', rfl⟩
      · exact h
    obtain ⟨c', rfl⟩ := hobj
    exact isSecretLeaf_eq_false (mem_of_get hw) rfl

theorem layout_apart {paths : List (List String)} {layout : JsonMap} (h : paths.foldlM layPath [] = .ok layout) :
    paths.Pairwise Apart ∧ ∀ p ∈ paths, p ≠ [] := by
  let Inv (seen : List (List String)) (m : JsonMap) : Prop :=
    Laid (fun p (_ : Unit) => p ∈ seen) (fun _ v => v = marker) m ∧ seen.Pairwise Apart
  have hend : Inv ([] ++ paths) layout := by
    refine foldlM_ok Inv ?_ paths [] ⟨Laid.empty (by simp), List.Pairwise.nil⟩ h
    rintro seen path m m' ⟨hl, hseen⟩ hstep
    have hinsert : insertWith isSecretLeaf marker path m = some m' := by
      unfold layPath at hstep
      cases hi : insertWith isSecretLeaf marker path m with
      | none =>
        rw [hi] at hstep
        cases hstep
      | some m1 =>
        rw [hi] at hstep
        cases hstep
        rfl
    obtain ⟨-, hapart⟩ := (hl.insert_iff refRule (by rintro p i v - rfl; exact ⟨_, rfl, rfl⟩)).1
      (show (insertWith isSecretLeaf marker path m).isSome = true by rw [hinsert]; rfl)
    refine ⟨hl.insert hinsert hapart (j := ()) rfl (by simp), ?_⟩
    rw [pairwise_append]
    exact ⟨hseen, pairwise_singleton .., fun p hp q hq => by
      rw [mem_singleton.1 hq]
      exact hapart p () hp⟩
  rw [nil_append] at hend
  exact ⟨hend.2, fun p hp => hend.1.nonempty p () hp⟩

variable {inputs : DriverInputs} {planned : PlannedInputs}

theorem new_spec (h : new inputs = .ok planned) :
    (∀ p s, Given inputs p (.template s) ↔ (p, s) ∈ planned.templates) ∧
    (∀ p x, Given inputs p (PlannedSecret.leaf x) ↔ (p, x) ∈ planned.secrets) ∧
    planned.paths.Pairwise Apart ∧ ∀ p ∈ planned.paths, p ≠ [] := by
  unfold new at h
  obtain ⟨refs, hrefs, h⟩ := bind_eq_ok.1 h
  obtain ⟨inline, hinline, h⟩ := bind_eq_ok.1 h
  obtain ⟨layout, hlayout, h⟩ := bind_eq_ok.1 h
  cases h
  obtain ⟨htemplates, hliterals⟩ := collectInline_mem _ hinline
  have hsecretRefs := collectRefs_mem _ hrefs
  -- neither map is a secret itself
  have hroot : ∀ p c x, (Json.obj inputs.secretRefs).Has p (.obj c) → RefLeaf c x →
      ∃ f ∈ inputs.secretRefs, ∃ p', f.2.Has p' (.obj c) ∧ p = f.1 :: p' := by
    intro p c x hhas hx
    cases hhas with
    | here =>
      obtain ⟨k, s, hmem⟩ := hx.has_string
      exact absurd hmem (str_not_mem_of_collectRefs _ hrefs k s)
    | field hmem hhas => exact ⟨_, hmem, _, hhas, rfl⟩
  have hinner : ∀ p s, (Json.obj inputs.secrets).Has p (.str s) →
      ∃ f ∈ inputs.secrets, ∃ p', f.2.Has p' (.str s) ∧ p = f.1 :: p' := by
    intro p s hhas
    cases hhas with
    | field hmem hhas => exact ⟨_, hmem, _, hhas, rfl⟩
  refine ⟨fun p s => ?_, fun p x => ?_, (layout_apart hlayout).1, (layout_apart hlayout).2⟩
  · rw [htemplates]
    constructor
    · intro hgiven
      cases hgiven with
      | template hhas htemplate =>
        obtain ⟨f, hf, p', hbelow, rfl⟩ := hinner p s hhas
        exact ⟨f, hf, p', hbelow, htemplate, rfl⟩
    · rintro ⟨f, hf, p', hhas, htemplate, rfl⟩
      exact .template (.field hf hhas) htemplate
  · rw [mem_append, hsecretRefs, hliterals]
    constructor
    · intro hgiven
      cases x with
      | ref r =>
        cases hgiven with
        | reference hhas hr =>
          obtain ⟨f, hf, p', hbelow, rfl⟩ := hroot p _ _ hhas (.ref hr)
          exact .inl ⟨f, hf, p', _, hbelow, .ref hr, rfl⟩
      | write s =>
        rw [PlannedSecret.leaf] at hgiven
        generalize hleaf : SecretLeaf.text s = leaf at hgiven
        cases hgiven with
        | template | reference => cases hleaf
        | literal hhas htemplate =>
          cases hleaf
          obtain ⟨f, hf, p', hbelow, rfl⟩ := hinner p _ hhas
          exact .inr ⟨f, hf, p', _, hbelow, htemplate, rfl, rfl⟩
        | value hhas hs =>
          cases hleaf
          obtain ⟨f, hf, p', hbelow, rfl⟩ := hroot p _ _ hhas (.write hs)
          exact .inl ⟨f, hf, p', _, hbelow, .write hs, rfl⟩
    · rintro (⟨f, hf, p', c, hhas, hx, rfl⟩ | ⟨f, hf, p', s, hhas, htemplate, rfl, rfl⟩)
      · cases hx with
        | ref hr => exact .reference (.field hf hhas) hr
        | write hs => exact .value (.field hf hhas) hs
      · exact .literal (.field hf hhas) htemplate

end PlannedInputs
end Openporch
