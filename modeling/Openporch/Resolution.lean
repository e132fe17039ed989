import Openporch.Lib.Fallible
import Openporch.Scope

/-!
# What resolving asks

Facts about `resolve_value` that hold in every scope: it asks for the placeholders of the value in order (`reads`) and
an error that a look-up is to blame for names the placeholder, as it is spelled (`told`).
-/

namespace Openporch
open Asking List Fallible Ask Expr

/-- The body of a placeholder written with `${` and `}`. -/
def placeholderPath (text : String) : Except String (List Segment) := parsePath (text.toList.drop 2).dropLast

def RawPlaceholder.Spelled (p : RawPlaceholder) : Prop := placeholderPath p.text = .ok p.segments

variable {p : RawPlaceholder} {dialect : Dialect}
  {lit : List Char} {parts : List Part} {s location : String} {sink : Sink} {v : Json} {e : Expr}

theorem mem_literalPart : .placeholder p ∉ literalPart lit := by
  unfold literalPart
  split <;> simp

theorem partsFrom_spelled {cs : List Char} {skip : Nat} (h : partsFrom lit skip cs = .ok parts)
    (hp : .placeholder p ∈ parts) : p.Spelled := by
  fun_induction partsFrom lit skip cs generalizing parts with
  | case1 lit skip =>
    cases h
    exact absurd hp mem_literalPart
  | case2 lit skip c rest ih => exact ih h hp
  | case3 lit c rest hc ih => exact ih h hp
  | case4 => cases h
  | case5 lit c rest hc hc' body hbody ih =>
    obtain ⟨segments, hsegments, h⟩ := bind_eq_ok.1 h
    obtain ⟨more, hmore, h⟩ := bind_eq_ok.1 h
    cases h
    rcases mem_append.1 hp with hp | hp
    · exact absurd hp mem_literalPart
    · rcases mem_cons.1 hp with hp | hp
      · cases hp
        simpa [RawPlaceholder.Spelled, placeholderPath] using hsegments
      · exact ih hmore hp
  | case6 lit c rest hc hc' ih => exact ih h hp

theorem parseTemplate_spelled (h : parseTemplate s = .ok parts) (hp : p ∈ placeholders parts) : p.Spelled := by
  obtain ⟨part, hpart, hp⟩ := mem_filterMap.1 hp
  cases part with
  | literal s => cases hp
  | placeholder p' =>
    cases hp
    exact partsFrom_spelled (mapError_eq_ok.1 h) hpart

def told (dialect : Dialect) (err : PlaceholderError) : Option (Expr × Reason) :=
  match err.kind with
  | .unresolvable r => do
    let segments ← (placeholderPath err.placeholder).toOption
    let e ← (interpret { text := err.placeholder, segments } dialect).toOption
    return (e, r)
  | _ => none

theorem told_eq_none {err} (h : ∀ r, err.kind ≠ .unresolvable r) : told dialect err = none := by
  unfold told
  split
  · rename_i r hr
    exact absurd hr (h r)
  · rfl

theorem interpret_error {k} (h : interpret p dialect = .error k) (r : Reason) : k ≠ .unresolvable r := by
  rintro rfl
  unfold interpret at h
  dsimp only at h
  split at h <;> try cases h
  · unfold interpretContext at h
    grind
  · unfold interpretOutput at h
    grind
  · unfold interpretOutput at h
    grind
  · unfold interpretValues at h
    grind
  · unfold interpretPod at h
    grind
  · rcases bind_eq_error.1 h with h | ⟨_, -, h⟩
    · obtain ⟨_, -, h⟩ := mapError_eq_error.1 h
      cases h
    · split at h <;> cases h

def Dialect.Within (dialect dialect' : Dialect) : Prop :=
  ∀ p e, interpret p dialect = .ok e → interpret p dialect' = .ok e

theorem Dialect.Within.refl (dialect : Dialect) : dialect.Within dialect := fun _ _ h => h

theorem definition_within : Dialect.definition.Within .driverAccount := by
  intro p e h
  unfold interpret at h ⊢
  dsimp only at h ⊢
  by_cases hcontext : p.root = "context"
  · rw [hcontext] at h ⊢
    exact h
  · by_cases hresources : p.root = "resources"
    · rw [hresources] at h ⊢
      obtain ⟨⟨target, field⟩, hparse, h⟩ := bind_eq_ok.1 h
      refine bind_eq_ok.2 ⟨(target, field), hparse, ?_⟩
      dsimp only at h ⊢
      split at h
      · cases h
      · rw [if_neg (by simp)]
        exact h
    · split at h <;> contradiction

section
variable {dialect dialect' : Dialect} {sink : Sink} {location : String}

theorem lookUp_blames (hle : dialect.Within dialect') {p : RawPlaceholder} (hp : p.Spelled) :
    (lookUp dialect sink location p).Blames (told dialect') := by
  unfold lookUp
  dsimp only
  split
  · rename_i k hk
    exact told_eq_none (interpret_error hk)
  · rename_i e he
    refine ⟨fun r => ?_, fun found => ?_⟩
    · unfold told
      rw [show placeholderPath p.text = .ok p.segments from hp]
      simp [Except.toOption, hle p e he]
    · dsimp only
      split
      · rfl
      · trivial

theorem lookUps_blames (hle : dialect.Within dialect') {ps} (hps : ∀ p ∈ ps, p.Spelled) :
    (lookUps dialect sink location ps).Blames (told dialect') := by
  induction ps with
  | nil => trivial
  | cons p ps ih =>
    refine (lookUp_blames hle (hps p mem_cons_self)).bind fun l => ?_
    exact (ih fun p' hp' => hps p' (mem_cons_of_mem _ hp')).bind fun _ => trivial

theorem resolveString_blames (hle : dialect.Within dialect') (s : String) :
    (resolveString dialect sink location s).Blames (told dialect') := by
  unfold resolveString
  split
  · rename_i k hk
    obtain ⟨m, -, rfl⟩ := mapError_eq_error.1 hk
    rfl
  · rename_i parts hparts
    exact (lookUps_blames hle fun p hp => parseTemplate_spelled hparts hp).bind fun _ => trivial

end

def readsString (dialect : Dialect) (s : String) : List (Option Expr) :=
  match parseTemplate s with
  | .error _ => [none]
  | .ok parts => (placeholders parts).map fun p => (interpret p dialect).toOption

namespace Json

mutual

/-- The strings of the value, in the order they are resolved in. -/
def texts : Json → List String
  | .str s => [s]
  | .arr items => textsItems items
  | .obj fields => textsFields fields
  | _ => []

def textsItems : List Json → List String
  | [] => []
  | v :: rest => v.texts ++ textsItems rest

def textsFields : List (String × Json) → List String
  | [] => []
  | (_, v) :: rest => v.texts ++ textsFields rest

end

end Json

/-- What the placeholders of the value read; `none` for text that is no template or no placeholder of the dialect. -/
def reads (dialect : Dialect) (v : Json) : List (Option Expr) := v.texts.flatMap (readsString dialect)

theorem mem_readsFields {fields} {x : Option Expr} :
    x ∈ reads dialect (.obj fields) ↔ ∃ f ∈ fields, x ∈ reads dialect f.2 := by
  unfold reads
  rw [Json.texts]
  induction fields with
  | nil => simp [Json.textsFields]
  | cons f fields ih => simp [Json.textsFields, or_and_right, exists_or, ih]

/-- What relates the resolutions of a value's strings relates those of the value. -/
theorem resolveValue_related {t : Sink} {L : String → String → Prop} {Q : ∀ α, ResolveM α → ResolveM α → Prop}
    (hQ : Through Q) (hL : ∀ l l' x, L l l' → L (l ++ x) (l' ++ x))
    (hs : ∀ s ∈ v.texts, ∀ l l', L l l' → Q _ (resolveString dialect sink l s) (resolveString dialect t l' s))
    {l m : String} (hl : L l m) : Q _ (resolveValue dialect sink l v) (resolveValue dialect t m v) := by
  induction v generalizing l m with
  | null | bool | num => exact hQ.pure _
  | str s => exact hs s (mem_singleton.2 rfl) l m hl
  | arr items ih =>
    refine hQ.bind ?_ fun _ => hQ.pure _
    generalize 0 = i
    induction items generalizing i with
    | nil => exact hQ.pure _
    | cons v rest ih' =>
      obtain ⟨hv, hrest⟩ := forall_mem_append.1 hs
      obtain ⟨ihv, ih⟩ := forall_mem_cons.1 ih
      exact hQ.bind (ihv hv (hL _ _ _ (hL _ _ _ (hL _ _ _ hl)))) fun _ => hQ.bind (ih' ih hrest _) fun _ => hQ.pure _
  | obj fields ih =>
    refine hQ.bind ?_ fun _ => hQ.pure _
    induction fields with
    | nil => exact hQ.pure _
    | cons f rest ih' =>
      obtain ⟨hv, hrest⟩ := forall_mem_append.1 hs
      obtain ⟨ihv, ih⟩ := forall_mem_cons.1 ih
      exact hQ.bind (ihv hv (hL _ _ _ (hL _ _ _ hl))) fun _ => hQ.bind (ih' ih hrest) fun _ => hQ.pure _

theorem resolveValue_blames {dialect' : Dialect} (hle : dialect.Within dialect') (sink : Sink) (location : String) (v : Json) :
    (resolveValue dialect sink location v).Blames (told dialect') :=
  resolveValue_related (t := sink) (L := fun _ _ => True) (Q := fun _ q _ => q.Blames (told dialect'))
    ⟨fun _ => trivial, .bind⟩ (fun _ _ _ h => h) (fun s _ _ _ _ => resolveString_blames hle s) (m := location) trivial

section
variable {dialect : Dialect} {location : String}

theorem lookUps_script (ps : List RawPlaceholder) :
    (lookUps dialect .secret location ps).Script (ps.map fun p => (interpret p dialect).toOption) := by
  induction ps with
  | nil => trivial
  | cons p ps ih =>
    refine Ask.Script.bind (l := [_]) ?_ fun _ => ih.map
    unfold lookUp
    dsimp only
    split
    · rename_i k hk
      rw [hk]
      trivial
    · rename_i e he
      rw [he]
      refine ⟨rfl, fun _ => ?_⟩
      dsimp only
      split <;> trivial

theorem resolveString_script (s : String) : (resolveString dialect .secret location s).Script (readsString dialect s) := by
  unfold resolveString readsString
  cases parseTemplate s with
  | error k => trivial
  | ok parts => exact (lookUps_script _).map

end

theorem resolveValue_script (dialect : Dialect) (location : String) (v : Json) :
    (resolveValue dialect .secret location v).Script (reads dialect v) := by
  induction v generalizing location with
  | null | bool | num => trivial
  | str s =>
    rw [reads, Json.texts, flatMap_singleton]
    exact resolveString_script s
  | arr items ih =>
    refine Script.map (l := (Json.textsItems items).flatMap _) ?_
    generalize 0 = i
    induction items generalizing i with
    | nil => trivial
    | cons v rest ih' =>
      obtain ⟨hv, ih⟩ := forall_mem_cons.1 ih
      rw [Json.textsItems, flatMap_append]
      exact (hv _).bind fun _ => (ih' ih _).map
  | obj fields ih =>
    refine Script.map (l := (Json.textsFields fields).flatMap _) ?_
    induction fields with
    | nil => trivial
    | cons f rest ih' =>
      obtain ⟨hv, ih⟩ := forall_mem_cons.1 ih
      rw [Json.textsFields, flatMap_append]
      exact (hv _).bind fun _ => (ih' ih).map

/-- What was collected is what is read, and an error is one of a text that reads nothing. -/
def Collects (collected : Except PlaceholderError (List (String × RawPlaceholder × Expr))) (reads : List (Option Expr)) : Prop :=
  match collected with
  | .ok l => reads = l.map fun x => some x.2.2
  | .error _ => none ∈ reads

theorem Collects.append {r r' l l'} (h : Collects r l) (h' : Collects r' l') :
    Collects (do let found ← r; return found ++ (← r')) (l ++ l') := by
  cases r with
  | error => exact mem_append_left _ h
  | ok found =>
    cases r' with
    | error => exact mem_append_right _ h'
    | ok more =>
      change l ++ l' = map _ (found ++ more)
      rw [map_append, ← show l = _ from h, ← show l' = _ from h']

theorem collect_mapM (ps : List RawPlaceholder) :
    Collects (ps.mapM (collectOne dialect location)) (ps.map fun p => (interpret p dialect).toOption) := by
  induction ps with
  | nil => rfl
  | cons p ps ih =>
    rw [mapM_cons, map_cons, collectOne]
    cases interpret p dialect with
    | error k => exact mem_cons_self
    | ok e =>
      cases hps : ps.mapM (collectOne dialect location) <;> rw [hps] at ih
      · exact mem_cons_of_mem _ ih
      · exact congrArg (some e :: ·) ih

theorem collect_spec (location : String) (v : Json) : Collects (collectPlaceholders dialect location v) (reads dialect v) := by
  induction v generalizing location with
  | null | bool | num => rfl
  | str s =>
    rw [reads, Json.texts, flatMap_singleton, collectPlaceholders, collectString, readsString]
    cases parseTemplate s with
    | error k => exact mem_cons_self
    | ok parts => exact collect_mapM _
  | arr items ih =>
    rw [reads, Json.texts, collectPlaceholders]
    generalize 0 = i
    induction items generalizing i with
    | nil => rfl
    | cons v rest ih' =>
      obtain ⟨hv, ih⟩ := forall_mem_cons.1 ih
      rw [Json.textsItems, flatMap_append]
      exact (hv _).append (ih' ih _)
  | obj fields ih =>
    rw [reads, Json.texts, collectPlaceholders]
    induction fields with
    | nil => rfl
    | cons f rest ih' =>
      obtain ⟨hv, ih⟩ := forall_mem_cons.1 ih
      rw [Json.textsFields, flatMap_append]
      exact (hv _).append (ih' ih)

theorem collect_reads {l} (h : collectPlaceholders dialect location v = .ok l) :
    reads dialect v = l.map fun x => some x.2.2 := by
  have hspec : Collects _ (reads dialect v) := collect_spec location v
  rwa [h] at hspec

theorem collect_total (location : String) (h : none ∉ reads dialect v) :
    ∃ l, collectPlaceholders dialect location v = .ok l := by
  have hspec : Collects _ (reads dialect v) := collect_spec location v
  cases hl : collectPlaceholders dialect location v with
  | ok l => exact ⟨l, rfl⟩
  | error k =>
    rw [hl] at hspec
    exact absurd hspec h

section
variable {dialect : Dialect} {sink : Sink} {location : String}

theorem lookUps_only (ps : List RawPlaceholder) : (lookUps dialect sink location ps).Only
    fun e => some e ∈ ps.map fun p => (interpret p dialect).toOption := by
  induction ps with
  | nil => trivial
  | cons p ps ih =>
    refine Ask.Only.bind ?_ fun _ => (ih.mono fun e he => mem_cons_of_mem _ he).bind fun _ => trivial
    unfold lookUp
    dsimp only
    split
    · trivial
    · rename_i e he
      refine ⟨by simp [he, Except.toOption], fun _ => ?_⟩
      dsimp only
      split <;> trivial

theorem resolveString_only (s : String) :
    (resolveString dialect sink location s).Only fun e => some e ∈ readsString dialect s := by
  unfold resolveString readsString
  cases parseTemplate s with
  | error k => trivial
  | ok parts => exact (lookUps_only _).bind fun _ => trivial

end

theorem resolveValue_only (dialect : Dialect) (sink : Sink) (location : String) (v : Json) :
    (resolveValue dialect sink location v).Only fun e => some e ∈ reads dialect v :=
  resolveValue_related (t := sink) (L := fun _ _ => True) (Q := fun _ q _ => q.Only fun e => some e ∈ reads dialect v)
    ⟨fun _ => trivial, .bind⟩ (fun _ _ _ h => h)
    (fun s hs _ _ _ => (resolveString_only s).mono fun _ he => mem_flatMap.2 ⟨s, hs, he⟩) (m := location) trivial

def Expr.ofSet : Expr → Bool
  | .context _ | .resource _ _ => false
  | .externals _ _ | .shared _ _ | .values _ _ | .pod _ => true

theorem interpret_ofSet (h : interpret p dialect = .ok e) : e.ofSet = decide (dialect = .set) := by
  unfold interpret at h
  dsimp only at h
  split at h <;> try cases h
  · unfold interpretContext at h
    split at h
    · cases h
    · dsimp only at h
      split at h <;> cases h
      exact (decide_eq_false (by assumption)).symm
  · unfold interpretOutput at h
    split at h <;> cases h
    rfl
  · unfold interpretOutput at h
    split at h <;> cases h
    rfl
  · unfold interpretValues at h
    split at h <;> cases h
    rfl
  · unfold interpretPod at h
    split at h <;> cases h
    rfl
  · obtain ⟨⟨target, field⟩, -, h⟩ := bind_eq_ok.1 h
    dsimp only at h
    split at h
    · cases h
    · cases h
      exact (decide_eq_false (by assumption)).symm

theorem readsString_ofSet (h : some e ∈ readsString dialect s) :
    e.ofSet = decide (dialect = .set) := by
  unfold readsString at h
  split at h
  · simp at h
  · obtain ⟨p, -, hp⟩ := mem_map.1 h
    cases hi : interpret p dialect with
    | error k => simp [hi, Except.toOption] at hp
    | ok e' =>
      obtain rfl : e' = e := by simpa [hi, Except.toOption] using hp
      exact interpret_ofSet hi

theorem reads_ofSet (h : some e ∈ reads dialect v) : e.ofSet = decide (dialect = .set) := by
  obtain ⟨s, -, hs⟩ := mem_flatMap.1 h
  exact readsString_ofSet hs

theorem resolveValue_ofDefinition (hd : dialect ≠ .set) (sink : Sink) (location : String) (v : Json) :
    (resolveValue dialect sink location v).Only fun e => e.ofSet = false :=
  (resolveValue_only dialect sink location v).mono fun _ he => (reads_ofSet he).trans (decide_eq_false hd)

section
variable {scope : Expr → Except Reason Found} {dialect : Dialect} {sink : Sink} {location location' : String}

theorem lookUp_location {p : RawPlaceholder} {l : Lookup}
    (h : (lookUp dialect sink location p).run scope = .ok l) : (lookUp dialect sink location' p).run scope = .ok l := by
  unfold lookUp at h ⊢
  dsimp only at h ⊢
  split at h
  · cases h
  · rename_i e he
    rw [Ask.run] at h ⊢
    cases hs : scope e with
    | error r =>
      rw [hs] at h
      cases h
    | ok found =>
      rw [hs] at h
      dsimp only at h ⊢
      split at h
      · cases h
      · exact h

theorem lookUps_location {ps} {ls : List Lookup} (h : (lookUps dialect sink location ps).run scope = .ok ls) :
    (lookUps dialect sink location' ps).run scope = .ok ls := by
  induction ps generalizing ls with
  | nil => exact h
  | cons p ps ih =>
    rw [lookUps, run_bind] at h ⊢
    obtain ⟨l, hl, h⟩ := bind_eq_ok.1 h
    rw [run_bind] at h
    obtain ⟨rest, hrest, h⟩ := bind_eq_ok.1 h
    rw [lookUp_location hl, ok_bind, run_bind, ih hrest, ok_bind]
    exact h

theorem resolveString_location {s : String} {r : Resolved}
    (h : (resolveString dialect sink location s).run scope = .ok r) :
    (resolveString dialect sink location' s).run scope = .ok r := by
  unfold resolveString at h ⊢
  split at h
  · cases h
  · rw [run_bind] at h ⊢
    obtain ⟨ls, hls, h⟩ := bind_eq_ok.1 h
    rw [lookUps_location hls, ok_bind]
    exact h

end

theorem resolveValue_location {scope : Expr → Except Reason Found} {location' : String} {r : Resolved}
    (h : (resolveValue dialect sink location v).run scope = .ok r) :
    (resolveValue dialect sink location' v).run scope = .ok r := by
  refine resolveValue_related (L := fun _ _ => True) (Q := fun _ q q' => ∀ r, q.run scope = .ok r → q'.run scope = .ok r)
    ⟨fun _ _ h => h, fun hq hf r h => ?_⟩ (fun _ _ _ h => h) (fun _ _ _ _ _ _ h => resolveString_location h) trivial r h
  obtain ⟨a, ha, h⟩ := run_bind_eq_ok.1 h
  exact run_bind_eq_ok.2 ⟨a, hq a ha, hf a r h⟩

namespace MapScope
variable {s t : MapScope}

theorem answer_congr {e : Expr} (hlookup : s.lookup e = t.lookup e) (houtput : s.outputOf e = t.outputOf e) :
    s.answer e = t.answer e := by
  unfold answer
  rw [hlookup]
  cases t.lookup e with
  | error r => rfl
  | ok l =>
    cases l with
    | value v => rfl
    | secret r =>
      have hsource : ∀ o o' : Option Guresid, o = o' → (pure { lookup := .secret r, source := o.map .output } :
        Except Reason Found) =
          pure { lookup := .secret r, source := o'.map .output } := by
        rintro o _ rfl
        rfl
      cases e with
      | values key path => rfl
      | _ => exact hsource _ _ houtput

theorem answer_context {key : ContextKey} (h : s.context key = t.context key) :
    s.answer (.context key) = t.answer (.context key) := by
  refine answer_congr ?_ rfl
  simp only [lookup, h]

theorem answer_resource {target : ResourceRef} {field : ResourceField} {d : Descriptor}
    (hs : s.descriptorFor target = .ok d) (ht : t.descriptorFor target = .ok d) (h : s.resources[d]? = t.resources[d]?) :
    s.answer (.resource target field) = t.answer (.resource target field) := by
  refine answer_congr ?_ ?_
  · simp only [lookup, lookupResource, hs, ht, ok_bind, h]
  · simp only [outputOf, outputsFor, hs, ht, ok_bind, h]

variable {key : String} {path : List Segment}

theorem answer_externals (h : s.externals[key]? = t.externals[key]?) :
    s.answer (.externals key path) = t.answer (.externals key path) := by
  refine answer_congr ?_ ?_
  · simp only [lookup, h]
  · simp only [outputOf, outputsFor, h]

theorem answer_shared {id : String} (h : s.shared[id]? = t.shared[id]?) :
    s.answer (.shared id path) = t.answer (.shared id path) := by
  refine answer_congr ?_ ?_
  · simp only [lookup, h]
  · simp only [outputOf, outputsFor, h]

theorem answer_values (h : s.values[key]? = t.values[key]?) :
    s.answer (.values key path) = t.answer (.values key path) := by
  refine answer_congr ?_ rfl
  simp only [lookup, lookupValue, h]

end MapScope
end Openporch
