import Openporch.Deferred
import Openporch.ExecutorSpec
import Openporch.SecretInputs

/-!
# Secret inputs on their way to the driver

The leaves of a definition's secrets are split on write, into templates under `secrets` and references under
`secret_refs`; the planner resolves the two maps separately. The executor's merge replaces whole fields, so a template
is lost where a reference's path starts with the same field.
-/

namespace Openporch
open Asking Hoare List Fallible Ask

def PlannedSecret.Stored (b : BuiltinSecretStore) (db : SecretDb) : PlannedSecret → Json → Prop
  | .ref r, v => v = r.json
  | .write s, v => ∃ r : SecretRef, r.version.isSome = true ∧ b.read r db = .ok s ∧ v = r.json

theorem isSecretLeaf_json (r : SecretRef) : ∃ c, r.json = .obj c ∧ isSecretLeaf c = true := by
  refine ⟨_, rfl, ?_⟩
  cases r.version <;> rfl

theorem read_json (r : SecretRef) : ∃ c, r.json = .obj c ∧ SecretRef.read c = some r := by
  refine ⟨_, rfl, ?_⟩
  obtain ⟨store, reference, version⟩ := r
  cases version <;> rfl

namespace PlannedInputs
variable {b : BuiltinSecretStore} {under : String}

theorem templateRule : LeafRule (fun _ => false) fun v => ∃ s, v = .str s where
  fresh := rfl
  closed c h := by
    obtain ⟨s, heq⟩ := h
    cases heq
  container _ _ _ _ _ := rfl

structure Inlined (seen : List (List String × String)) (m : JsonMap) : Prop where
  laid : Laid (fun p s => (p, s) ∈ seen) (fun s v => v = .str s) m
  strings : ∀ p w, (Json.obj m).Has p w → (∃ c, w = .obj c) ∨ ∃ t ∈ seen, w = .str t.2

variable {m : JsonMap} {db : SecretDb}

theorem layTemplate_spec {seen t} (hne : t.1 ≠ []) (hapart : ∀ x ∈ seen, Apart x.1 t.1) :
    Triple (fun _ : WriteState => Inlined seen m) (layTemplate m t) (fun m' _ => Inlined (seen ++ [t]) m')
      (fun _ _ => False) := by
  rintro st ⟨hl, hstrings⟩
  have hsome : (insertWith (fun _ => false) (.str t.2) t.1 m).isSome = true :=
    (hl.insert_iff templateRule (by rintro p s v - rfl; exact ⟨s, rfl⟩)).2 ⟨hne, fun p s hp => hapart _ hp⟩
  obtain ⟨m', hm'⟩ := Option.isSome_iff_exists.1 hsome
  unfold layTemplate
  rw [hm']
  refine ⟨hl.insert hm' (fun p s hp => hapart _ hp) (j := t.2) rfl (by simp [Prod.ext_iff]), fun p w hw => ?_⟩
  rcases has_insertWith hm' hw with hobj | hold | ⟨q, hnew⟩
  · exact .inl hobj
  · rcases hstrings p w hold with hobj | ⟨t', ht', hw'⟩
    · exact .inl hobj
    · exact .inr ⟨t', mem_append_left _ ht', hw'⟩
  · cases hnew
    exact .inr ⟨t, by simp, rfl⟩

def NameOk (under : String) (path : List String) : Prop :=
  validateReference (BuiltinSecretStore.named (nameFor under path)) = .ok ()

def Unwritten (under : String) (secrets : List (List String × PlannedSecret)) (e : ApiError) : Prop :=
  (∃ p s, (p, PlannedSecret.write s) ∈ secrets ∧ ¬ NameOk under p) ∨ ∃ message, e = .secretStore (.store message)

theorem write_eq_error {name value : String} {e : SecretError} (h : b.write name value db = .error e) :
    validateReference (BuiltinSecretStore.named name) ≠ .ok () ∨ ∃ message, e = .store message := by
  unfold BuiltinSecretStore.write at h
  rcases bind_eq_error.1 h with hinvalid | ⟨_, -, h⟩
  · exact .inl (by rw [hinvalid]; simp)
  · rcases bind_eq_error.1 h with hinsert | ⟨_, -, h⟩
    · unfold SecretDb.insert at hinsert
      split at hinsert
      · cases hinsert
        exact .inr ⟨_, rfl⟩
      · cases hinsert
    · cases h

theorem materialize_spec (b : BuiltinSecretStore) (under : String) (path : List String) (x : PlannedSecret)
    (st : WriteState) :
    match x.materialize b (nameFor under path) st with
    | .ok r st' => x.Stored b st'.db r.json ∧ (∀ y v, PlannedSecret.Stored b st.db y v → y.Stored b st'.db v) ∧
        ∀ s, x = .write s → NameOk under path
    | .error e _ => ∃ s, x = .write s ∧ (¬ NameOk under path ∨ ∃ message, e = .secretStore (.store message)) := by
  cases x with
  | ref r => exact ⟨rfl, fun _ _ h => h, fun s hs => by cases hs⟩
  | write s =>
    unfold PlannedSecret.materialize
    dsimp only
    cases hw : b.write (nameFor under path) s st.db with
    | ok res =>
      obtain ⟨r, db⟩ := res
      have hvalid := (BuiltinSecretStore.write_eq_ok.1 hw).1
      have hpin : r.version.isSome = true := by
        rw [(BuiltinSecretStore.write_eq_ok.1 hw).2.2]
        rfl
      refine ⟨⟨r, hpin, BuiltinSecretStore.read_write hw, rfl⟩, fun y v hy => ?_, fun _ _ => hvalid⟩
      cases y with
      | ref r' => exact hy
      | write s' =>
        obtain ⟨r', hr', hread, rfl⟩ := hy
        exact ⟨r', hr', BuiltinSecretStore.read_later hw hr' hread, rfl⟩
    | error e =>
      refine ⟨s, rfl, ?_⟩
      rcases write_eq_error hw with hinvalid | ⟨message, rfl⟩
      · exact .inl hinvalid
      · exact .inr ⟨message, rfl⟩

structure Written (b : BuiltinSecretStore) (under : String) (seen : List (List String × PlannedSecret)) (m : JsonMap)
    (st : WriteState) : Prop where
  laid : Laid (fun p x => (p, x) ∈ seen) (PlannedSecret.Stored b st.db) m
  nodup : m.keys.Nodup
  names : ∀ p s, (p, PlannedSecret.write s) ∈ seen → NameOk under p

theorem stored_isLeaf {x : PlannedSecret} {v : Json} (h : x.Stored b db v) :
    ∃ c, v = .obj c ∧ isSecretLeaf c = true := by
  cases x with
  | ref r =>
    cases h
    exact isSecretLeaf_json r
  | write s =>
    obtain ⟨r, -, -, rfl⟩ := h
    exact isSecretLeaf_json r

theorem laySecret_spec {seen t} (hne : t.1 ≠ []) (hapart : ∀ x ∈ seen, Apart x.1 t.1) :
    Triple (Written b under seen m) (laySecret b under m t) (Written b under (seen ++ [t]))
      (fun e _ => Unwritten under [t] e) := by
  intro st hw
  have hspec := materialize_spec b under t.1 t.2 st
  cases hr : t.2.materialize b (nameFor under t.1) st with
  | error e st' =>
    rw [hr] at hspec
    obtain ⟨s, hs, hwhy⟩ := hspec
    rw [laySecret, bind_error hr]
    exact hwhy.imp_left fun hinvalid => ⟨t.1, s, by simp [← hs], hinvalid⟩
  | ok r st' =>
    rw [hr] at hspec
    obtain ⟨hstored, hkept, hname⟩ := hspec
    have hl : Laid (fun p x => (p, x) ∈ seen) (PlannedSecret.Stored b st'.db) m :=
      hw.laid.rename (fun p x hx => ⟨x, hx, hkept x⟩) fun p x hx => ⟨x, hx⟩
    have hsome : (insertWith isSecretLeaf r.json t.1 m).isSome = true :=
      (hl.insert_iff refRule fun _ _ _ _ hv => stored_isLeaf hv).2 ⟨hne, fun p s hp => hapart _ hp⟩
    obtain ⟨m', hm'⟩ := Option.isSome_iff_exists.1 hsome
    rw [laySecret, bind_ok hr]
    dsimp only
    rw [hm']
    refine ⟨hl.insert hm' (fun p s hp => hapart _ hp) (j := t.2) hstored (by simp [Prod.ext_iff]),
      nodup_insertWith hm' hw.nodup, fun p s hp => ?_⟩
    rcases mem_append.1 hp with hp | hp
    · exact hw.names p s hp
    · rw [← mem_singleton.1 hp] at hname
      exact hname s rfl

theorem apart_before {α : Type} {l pre post : List (List String × α)} {a : List String × α}
    (h : (l.map (·.1)).Pairwise Apart) (hl : l = pre ++ a :: post) : ∀ x ∈ pre, Apart x.1 a.1 := by
  rw [hl, map_append, pairwise_append] at h
  exact fun x hx => h.2.2 x.1 (mem_map_of_mem hx) a.1 (by simp)

theorem layTemplates_spec {templates : List (List String × String)} (hapart : (templates.map (·.1)).Pairwise Apart)
    (hne : ∀ t ∈ templates, t.1 ≠ []) :
    Triple (fun _ => True) (templates.foldlM layTemplate []) (fun m _ => Inlined templates m) (fun _ _ => False) := by
  refine (Triple.foldlM (fun seen m _ => Inlined seen m) templates [] (fun pre a post hl m => ?_) []).weaken ?_ ?_ fun _ _ h => h
  · exact layTemplate_spec (hne a (by simp [hl])) (apart_before hapart hl)
  · refine fun st _ => ⟨Laid.empty (by simp), fun p w hw => ?_⟩
    cases hw with
    | here => exact .inl ⟨_, rfl⟩
    | field hmem => cases hmem
  · exact fun m st h => h

theorem laySecrets_spec {secrets : List (List String × PlannedSecret)} (hapart : (secrets.map (·.1)).Pairwise Apart)
    (hne : ∀ t ∈ secrets, t.1 ≠ []) :
    Triple (fun _ => True) (secrets.foldlM (laySecret b under) []) (Written b under secrets)
      (fun e _ => Unwritten under secrets e) := by
  refine (Triple.foldlM (Written b under) secrets [] (fun pre a post hl m => ?_) []).weaken ?_ ?_ fun _ _ h => h
  · refine (laySecret_spec (hne a (by simp [hl])) (apart_before hapart hl)).weaken (fun _ h => h) (fun _ _ h => h) ?_
    rintro e st (⟨p, s, hp, hname⟩ | hmessage)
    · refine .inl ⟨p, s, ?_, hname⟩
      rw [hl, mem_singleton.1 hp]
      simp
    · exact .inr hmessage
  · exact fun st _ => ⟨Laid.empty (by simp), nodup_nil, by simp⟩
  · exact fun m st h => h

theorem write_spec {p : PlannedInputs} (hapart : p.paths.Pairwise Apart) (hne : ∀ path ∈ p.paths, path ≠ []) :
    Triple (fun _ => True) (p.write b under)
      (fun out st => Inlined p.templates out.secrets ∧ Written b under p.secrets out.secretRefs st)
      (fun e _ => Unwritten under p.secrets e) := by
  rw [paths, pairwise_append] at hapart
  have htemplates := layTemplates_spec hapart.1 fun t ht => hne t.1 (mem_append_left _ (mem_map_of_mem ht))
  have hsecrets : Triple (fun _ => True) (p.secrets.foldlM (laySecret b under) []) (Written b under p.secrets)
      (fun e _ => Unwritten under p.secrets e) :=
    laySecrets_spec hapart.2.1 fun t ht => hne t.1 (mem_append_right _ (mem_map_of_mem ht))
  refine .bind (htemplates.weaken (fun _ h => h) (fun _ _ h => h) fun _ _ h => False.elim h) fun m st hm => ?_
  exact Triple.bind hsecrets (fun m' => .pure fun st h => ⟨hm, h⟩) st trivial

end PlannedInputs

section
variable {scope : Expr → Except Reason Found} {read : SecretRef → Option String} {v : Json}

theorem fieldwise_cons {T : Json → Json → Prop} {k : String} {v' : Json} {c c' : JsonMap} (hv : T v v')
    (hkeys : c'.keys = c.keys) (hfield : ∀ l w, c.get l = some w → ∃ w', c'.get l = some w' ∧ T w w') :
    JsonMap.keys ((k, v') :: c') = JsonMap.keys ((k, v) :: c) ∧
      ∀ l w, JsonMap.get ((k, v) :: c) l = some w → ∃ w', JsonMap.get ((k, v') :: c') l = some w' ∧ T w w' := by
  refine ⟨congrArg (k :: ·) hkeys, fun l w hw => ?_⟩
  unfold JsonMap.get at hw hfield ⊢
  rw [lookup_cons] at hw ⊢
  split at hw
  · cases hw
    exact ⟨v', rfl, hv⟩
  · exact hfield l w hw

def ResolvesTo (scope : Expr → Except Reason Found) (read : SecretRef → Option String) (v v' : Json) : Prop :=
  ∃ location r, (resolveValue .definition .secret location v).run scope = .ok r ∧ r.render read = .ok v'

theorem resolve_fieldwise : Fieldwise (fun _ => True) (ResolvesTo scope read) where
  obj c j _ h := by
    obtain ⟨location, r, hrun, hrender⟩ := h
    rw [resolveValue, run_bind] at hrun
    obtain ⟨fields, hfields, hrun⟩ := bind_eq_ok.1 hrun
    cases hrun
    rw [Resolved.render_ofFields] at hrender
    obtain ⟨c', hc', rfl⟩ := map_eq_ok.1 hrender
    refine ⟨c', rfl, ?_⟩
    clear hrender hrun
    induction c generalizing fields c' with
    | nil =>
      cases hfields
      cases hc'
      exact ⟨rfl, fun k v hv => by cases hv⟩
    | cons f c ih =>
      obtain ⟨k, v⟩ := f
      rw [resolveFields, run_bind] at hfields
      obtain ⟨r, hr, hfields⟩ := bind_eq_ok.1 hfields
      rw [run_bind] at hfields
      obtain ⟨rest, hrest, hfields⟩ := bind_eq_ok.1 hfields
      cases hfields
      obtain ⟨v', m', hv', hm', rfl⟩ := renderFields_cons hc'
      obtain ⟨hkeys, hfield⟩ := ih rest hrest m' hm'
      exact fieldwise_cons ⟨_, r, hr, hv'⟩ hkeys hfield

def ReadsTo (read : SecretRef → Option String) (v v' : Json) : Prop := (references v).render read = .ok v'

theorem references_eq_value (h : (references v).isTainted = false) : references v = .value v := by
  cases v with
  | obj fields =>
    unfold references at h ⊢
    split at h
    · cases h
    · dsimp only at h ⊢
      split at h
      · rename_i hall
        rw [if_pos hall]
      · cases h
  | arr items =>
    unfold references at h ⊢
    dsimp only at h ⊢
    split at h
    · rename_i hall
      rw [if_pos hall]
    · cases h
  | _ => rfl

theorem render_references {c : JsonMap} (hc : SecretRef.read c = none) :
    (references (.obj c)).render read = (Resolved.renderFields read (referencesFields c)).map .obj := by
  rw [references, hc]
  dsimp only
  split
  · rename_i hall
    have hplain : Resolved.renderFields read (referencesFields c) = .ok c := by
      clear hc
      induction c with
      | nil => rfl
      | cons f c ih =>
        obtain ⟨k, v⟩ := f
        rw [referencesFields, all_cons, Bool.and_eq_true] at hall
        rw [referencesFields, Resolved.renderFields, ih hall.2, references_eq_value (by simpa using hall.1)]
        rfl
    rw [hplain]
    rfl
  · rfl

theorem references_fieldwise : Fieldwise (fun c => SecretRef.read c = none) (ReadsTo read) where
  obj c j hc h := by
    unfold ReadsTo at h
    rw [render_references hc] at h
    obtain ⟨c', hc', rfl⟩ := map_eq_ok.1 h
    refine ⟨c', rfl, ?_⟩
    clear h hc
    induction c generalizing c' with
    | nil =>
      cases hc'
      exact ⟨rfl, fun k v hv => by cases hv⟩
    | cons f c ih =>
      obtain ⟨k, v⟩ := f
      obtain ⟨v', m', hv', hm', rfl⟩ := renderFields_cons hc'
      obtain ⟨hkeys, hfield⟩ := ih m' hm'
      exact fieldwise_cons hv' hkeys hfield

theorem readsTo_json {r : SecretRef} (h : ReadsTo read r.json v) : ∃ t, read r = some t ∧ v = .str t := by
  obtain ⟨c, hjson, hc⟩ := read_json r
  unfold ReadsTo at h
  rw [hjson, references, hc] at h
  dsimp only at h
  rw [Resolved.render] at h
  obtain ⟨t, ht, rfl⟩ := map_eq_ok.1 h
  refine ⟨t, ?_, rfl⟩
  cases hr : read r with
  | none => simp [SecretExpr.render, hr, Except.map] at ht
  | some s => simpa [SecretExpr.render, hr, Except.map] using ht

end

/-- The leaf has the value in the scope, where `read` has read the secrets. -/
inductive SecretLeaf.Value (scope : Expr → Except Reason Found) (read : SecretRef → Option String) :
    SecretLeaf → Json → Prop
  | template {s v} : ResolvesTo scope read (.str s) v → Value scope read (.template s) v
  | text (s : String) : Value scope read (.text s) (.str s)
  | reference {r t} : read r = some t → Value scope read (.reference r) (.str t)

def PassedSecrets (secrets secretRefs : Resolved) (read : SecretRef → Option String) (m : JsonMap) : Prop :=
  ∃ a b, object secrets read "`driver_inputs.secrets`" = .ok a ∧
    object secretRefs read "`driver_inputs.secret_refs`" = .ok b ∧ m = a.extend b

theorem request_passes {W : Type} {sv : Services W} {job : ProvisionJob} {sources} {chk : Bool} {s s' : Exec W}
    {call : DriverJob W} (h : request sv job sources chk s = .ok call s') :
    ∃ read, PassedSecrets job.inputs.secrets job.inputs.secretRefs read call.req.secrets := by
  have hspec := request_spec job (keep_calls (C := fun _ _ => True) sv) sources chk s trivial
  rw [h] at hspec
  obtain ⟨⟨read, hrequested⟩, -⟩ := hspec
  exact ⟨read, hrequested.secrets⟩

theorem jobInputs_secrets {node : Node} {dfn externals scope} {inputs : JobInputs} {account}
    (h : (jobInputs node dfn externals).run scope = .ok (inputs, account)) :
    (resolveValue .definition .secret "driver_inputs.secrets" (.obj dfn.driverInputs.secrets)).run scope =
      .ok inputs.secrets ∧ inputs.secretRefs = references (.obj dfn.driverInputs.secretRefs) := by
  obtain ⟨⟨values, secrets, found⟩, hinputs, h⟩ := run_bind_eq_ok.1 h
  obtain ⟨_, -, h⟩ := run_bind_eq_ok.1 h
  obtain ⟨_, -, h⟩ := run_bind_eq_ok.1 h
  cases h
  obtain ⟨_, -, h⟩ := run_bind_eq_ok.1 hinputs
  obtain ⟨_, -, h⟩ := run_bind_eq_ok.1 h
  obtain ⟨_, hsecrets, h⟩ := run_bind_eq_ok.1 h
  cases h
  have hresolved := run_of_record hsecrets
  rw [run_mapError] at hresolved
  exact ⟨mapError_eq_ok.1 hresolved, rfl⟩

variable {r : Resolved} {read : SecretRef → Option String}
  {fields : Except Resolved.Missing JsonMap} {scope : Expr → Except Reason Found}

theorem object_eq_ok {what : String} {a : JsonMap}
    (h : r.render read = fields.map .obj) : object r read what = .ok a ↔ r.render read = .ok (.obj a) := by
  unfold object renderInput
  rw [h]
  cases fields with
  | error e =>
    constructor
    · intro ha
      cases ha
    · intro ha
      cases ha
  | ok m =>
    constructor
    · intro ha
      cases ha
      rfl
    · intro ha
      cases ha
      rfl

theorem exists_object (hread : ∀ r, (read r).isSome = true)
    (h : r.render read = fields.map .obj) : ∃ a, r.render read = .ok (.obj a) := by
  obtain ⟨v, hv⟩ := r.render_total hread
  rw [hv] at h
  obtain ⟨a, -, rfl⟩ := map_eq_ok.1 h.symm
  exact ⟨a, hv⟩

theorem render_resolved {location : String} {c : JsonMap}
    (h : (resolveValue .definition .secret location (.obj c)).run scope = .ok r) :
    ∃ fields, r.render read = Except.map Json.obj fields := by
  rw [resolveValue, run_bind] at h
  obtain ⟨fields, -, h⟩ := bind_eq_ok.1 h
  cases h
  exact ⟨_, Resolved.render_ofFields read fields⟩

def Resolves (scope : Expr → Except Reason Found) (s : String) : Prop :=
  ∃ r, (resolveString .definition .secret "driver_inputs.secrets" s).run scope = .ok r

theorem resolveValue_of_strings (location : String) (v : Json)
    (h : ∀ p w, v.Has p w → (∃ c, w = .obj c) ∨ ∃ s, w = .str s ∧ Resolves scope s) :
    ∃ r, (resolveValue .definition .secret location v).run scope = .ok r := by
  induction v generalizing location with
  | str s =>
    rcases h [] _ (.here _) with ⟨c, hc⟩ | ⟨s', heq, r, hr⟩
    · cases hc
    · cases heq
      exact ⟨r, resolveString_location hr⟩
  | obj fields ih =>
    have hfields : ∃ rs, (resolveFields .definition .secret location fields).run scope = .ok rs := by
      replace h := fun f (hf : f ∈ fields) p w hw => h (f.1 :: p) w (.field hf hw)
      induction fields with
      | nil => exact ⟨[], rfl⟩
      | cons f rest ih' =>
        obtain ⟨hv, h⟩ := forall_mem_cons.1 h
        obtain ⟨ihv, ih⟩ := forall_mem_cons.1 ih
        obtain ⟨r, hr⟩ := ihv (location ++ "." ++ f.1) hv
        obtain ⟨rs, hrs⟩ := ih' ih h
        exact ⟨(f.1, r) :: rs, run_bind_eq_ok.2 ⟨r, hr, run_bind_eq_ok.2 ⟨rs, hrs, rfl⟩⟩⟩
    obtain ⟨rs, hrs⟩ := hfields
    exact ⟨.ofFields rs, run_bind_eq_ok.2 ⟨rs, hrs, rfl⟩⟩
  | _ =>
    rcases h [] _ (.here _) with ⟨c, hc⟩ | ⟨s', heq, -⟩
    · cases hc
    · cases heq

section
variable {b : BuiltinSecretStore} {under : String} {scope : Expr → Except Reason Found}
  {read : SecretRef → Option String} {inputs : DriverInputs} {planned : PlannedInputs}

/-- The definition with the planned inputs is written, and whatever map the executor passes to the driver for it, in
the scope and with what the store reads, has the leaves given and no others. -/
def SecretsPassed (b : BuiltinSecretStore) (under : String) (st : WriteState) (scope : Expr → Except Reason Found)
    (inputs : DriverInputs) (planned : PlannedInputs) : Prop :=
  ∃ out st', planned.write b under st = .ok out st' ∧
    ∀ read secrets m, (∀ r t, b.read r st'.db = .ok t → read r = some t) →
      (resolveValue .definition .secret "driver_inputs.secrets" (.obj out.secrets)).run scope = .ok secrets →
      PassedSecrets secrets (references (.obj out.secretRefs)) read m →
      Laid (Given inputs) (SecretLeaf.Value scope read) m

def GivenInline (inputs : DriverInputs) (p : List String) (leaf : SecretLeaf) : Prop :=
  Given inputs p leaf ∧ ∃ s, leaf = .template s

def GivenStored (inputs : DriverInputs) (p : List String) (leaf : SecretLeaf) : Prop :=
  Given inputs p leaf ∧ ∃ x, leaf = PlannedSecret.leaf x

theorem given_iff (p : List String) (leaf : SecretLeaf) :
    Given inputs p leaf ↔ GivenInline inputs p leaf ∨ GivenStored inputs p leaf := by
  constructor
  · intro h
    cases leaf with
    | template s => exact .inl ⟨h, s, rfl⟩
    | text s => exact .inr ⟨h, .write s, rfl⟩
    | reference r => exact .inr ⟨h, .ref r, rfl⟩
  · rintro (h | h)
    · exact h.1
    · exact h.1

variable {m a : JsonMap} {st : WriteState} {secrets : Resolved} {d : JsonMap} {k : String}

theorem laid_inline (hnew : PlannedInputs.new inputs = .ok planned)
    (hl : PlannedInputs.Inlined planned.templates m)
    (hrun : (resolveValue .definition .secret "driver_inputs.secrets" (.obj m)).run scope = .ok secrets)
    (ha : secrets.render read = .ok (.obj a)) : Laid (GivenInline inputs) (SecretLeaf.Value scope read) a := by
  have hgiven := (PlannedInputs.new_spec hnew).1
  have hchange : ResolvesTo scope read (.obj m) (.obj a) := ⟨_, secrets, hrun, ha⟩
  have hlaid := hl.laid.change resolve_fieldwise hchange trivial fun _ _ _ _ _ _ _ _ => trivial
  refine hlaid.rename ?_ fun p s hs => ⟨.template s, (hgiven p s).2 hs, s, rfl⟩
  rintro p _ ⟨hp, s, rfl⟩
  refine ⟨s, (hgiven p s).1 hp, ?_⟩
  rintro v ⟨w, rfl, hv⟩
  exact .template hv

theorem read_eq_none {c : JsonMap} (h : d.get k = some (.obj c)) :
    SecretRef.read d = none := by
  by_contra hsome
  obtain ⟨r, hr⟩ := Option.ne_none_iff_exists'.1 hsome
  have hcontainer := (read_fields hr).2 k _ h
  cases hcontainer

theorem stored_below {db : SecretDb} {x : PlannedSecret} {v : Json} (hv : d.get k = some v)
    (h : x.Stored b db v ∨ ∃ c, v = .obj c) : SecretRef.read d = none := by
  have hobj : ∃ c, v = .obj c := by
    rcases h with h | h
    · exact (PlannedInputs.stored_isLeaf h).imp fun c hc => hc.1
    · exact h
  obtain ⟨c, rfl⟩ := hobj
  exact read_eq_none hv

theorem written_root {secrets} (hl : PlannedInputs.Written b under secrets m st) : SecretRef.read m = none := by
  by_contra hsome
  obtain ⟨r, hr⟩ := Option.ne_none_iff_exists'.1 hsome
  have hat : (Json.obj m).descend ["store"] = some (.str r.store) := by
    rw [Json.descend_cons, (read_fields hr).1]
    rfl
  obtain ⟨p, x, hx, -⟩ := hl.laid.only _ _ (by simp) hat
  obtain ⟨d, k, v, hd, hv, hbelow⟩ := hl.laid.above hx nil_prefix (hl.laid.nonempty p x hx).symm
  cases hd
  exact hsome (stored_below hv hbelow)

theorem laid_stored (hnew : PlannedInputs.new inputs = .ok planned) (hl : PlannedInputs.Written b under planned.secrets m st)
    (hread : ∀ r t, b.read r st.db = .ok t → read r = some t) (ha : (references (.obj m)).render read = .ok (.obj a)) :
    Laid (GivenStored inputs) (SecretLeaf.Value scope read) a ∧ a.keys.Nodup := by
  have hgiven := (PlannedInputs.new_spec hnew).2.1
  have hroot := written_root hl
  constructor
  · have hchange : ReadsTo read (.obj m) (.obj a) := ha
    have hlaid := hl.laid.change references_fieldwise hchange hroot
      fun p x d k v _ hv hbelow => stored_below hv hbelow
    refine hlaid.rename ?_ fun p x hx => ⟨x.leaf, (hgiven p x).2 hx, x, rfl⟩
    rintro p _ ⟨hp, x, rfl⟩
    refine ⟨x, (hgiven p x).1 hp, ?_⟩
    rintro v ⟨w, hw, hv⟩
    cases x with
    | ref r =>
      cases hw
      obtain ⟨t, ht, rfl⟩ := readsTo_json hv
      exact .reference ht
    | write s =>
      obtain ⟨r, -, hr, rfl⟩ := hw
      obtain ⟨t, ht, rfl⟩ := readsTo_json hv
      rw [hread r s hr] at ht
      cases ht
      exact .text s
  · obtain ⟨a', heq, hkeys, -⟩ := references_fieldwise.obj m _ hroot ha
    cases heq
    rw [hkeys]
    exact hl.nodup

theorem given_apart (hnew : PlannedInputs.new inputs = .ok planned) (p : List String) (i : SecretLeaf)
    (q : List String) (j : SecretLeaf) (hp : GivenInline inputs p i) (hq : GivenStored inputs q j) : Apart p q := by
  obtain ⟨htemplates, hsecrets, hapart, -⟩ := PlannedInputs.new_spec hnew
  obtain ⟨hp, s, rfl⟩ := hp
  obtain ⟨hq, x, rfl⟩ := hq
  rw [PlannedInputs.paths, pairwise_append] at hapart
  exact hapart.2.2 p (mem_map.2 ⟨_, (htemplates p s).1 hp, rfl⟩) q (mem_map.2 ⟨_, (hsecrets q x).1 hq, rfl⟩)

/-- The executor's merge of the two maps keeps the leaves given exactly when no leaf of the one starts with the same
field as one of the other. -/
theorem merged_iff {m' a' : JsonMap} (hnew : PlannedInputs.new inputs = .ok planned)
    (hm : PlannedInputs.Inlined planned.templates m) (hm' : PlannedInputs.Written b under planned.secrets m' st)
    (hread : ∀ r t, b.read r st.db = .ok t → read r = some t)
    (hrun : (resolveValue .definition .secret "driver_inputs.secrets" (.obj m)).run scope = .ok secrets)
    (ha : secrets.render read = .ok (.obj a)) (ha' : (references (.obj m')).render read = .ok (.obj a')) :
    Laid (Given inputs) (SecretLeaf.Value scope read) (a.extend a') ↔
      ∀ p i q j, GivenInline inputs p i → GivenStored inputs q j → p.head? ≠ q.head? := by
  have hinline := laid_inline hnew hm hrun ha
  obtain ⟨hstored, hnodup⟩ : Laid (GivenStored inputs) (SecretLeaf.Value scope read) a' ∧ a'.keys.Nodup :=
    laid_stored hnew hm' hread ha'
  rw [← hinline.extend_iff hstored hnodup (given_apart hnew)]
  constructor
  · exact fun h => h.rename (fun p i hi => ⟨i, (given_iff p i).2 hi, fun _ hv => hv⟩)
      fun p i hi => ⟨i, (given_iff p i).1 hi⟩
  · exact fun h => h.rename (fun p i hi => ⟨i, (given_iff p i).1 hi, fun _ hv => hv⟩)
      fun p i hi => ⟨i, (given_iff p i).2 hi⟩

end

/-- Where the database does not fail and the templates resolve, no secret input is lost exactly when the values' names
are valid references and no template starts with the field of a secret that becomes a reference. -/
theorem secrets_passed_iff (b : BuiltinSecretStore) (under : String) (st : WriteState)
    (scope : Expr → Except Reason Found) {inputs : DriverInputs} {planned : PlannedInputs}
    (hnew : PlannedInputs.new inputs = .ok planned)
    (hdb : ∀ message st', planned.write b under st ≠ .error (.secretStore (.store message)) st')
    (hscope : ∀ p s, Given inputs p (.template s) → Resolves scope s) :
    SecretsPassed b under st scope inputs planned ↔
      (∀ p s, Given inputs p (.text s) → PlannedInputs.NameOk under p) ∧
      ∀ p i q j, GivenInline inputs p i → GivenStored inputs q j → p.head? ≠ q.head? := by
  obtain ⟨htemplates, hsecrets, hapart, hne⟩ := PlannedInputs.new_spec hnew
  have hspec : Triple (fun _ => True) (planned.write b under) _ _ := PlannedInputs.write_spec hapart hne
  constructor
  · rintro ⟨out, st', hwrite, hpassed⟩
    obtain ⟨hm, hm'⟩ := hspec.ok trivial hwrite
    refine ⟨fun p s hp => hm'.names p s ((hsecrets p (.write s)).1 hp), ?_⟩
    -- a read that has everything, and for the store's own references what the store has
    let read (r : SecretRef) : Option String := some ((b.read r st'.db).toOption.getD "")
    have hread : ∀ r t, b.read r st'.db = .ok t → read r = some t := by
      intro r t ht
      simp [read, ht, Except.toOption]
    have hstrings : ∀ p w, (Json.obj out.secrets).Has p w → (∃ c, w = .obj c) ∨ ∃ s, w = .str s ∧ Resolves scope s := by
      intro p w hw
      rcases hm.strings p w hw with hobj | ⟨t, ht, rfl⟩
      · exact .inl hobj
      · exact .inr ⟨t.2, rfl, hscope t.1 t.2 ((htemplates _ _).2 ht)⟩
    obtain ⟨secrets, hrun⟩ := resolveValue_of_strings "driver_inputs.secrets" (.obj out.secrets) hstrings
    have htotal : ∀ r, (read r).isSome = true := fun r => rfl
    obtain ⟨fields, hfields⟩ : ∃ fields, secrets.render read = Except.map Json.obj fields := render_resolved hrun
    have hrefs : (references (.obj out.secretRefs)).render read = Except.map Json.obj _ :=
      render_references (written_root hm')
    obtain ⟨a, ha⟩ := exists_object htotal hfields
    obtain ⟨a', ha'⟩ := exists_object htotal hrefs
    refine (merged_iff hnew hm hm' hread hrun ha ha').1 (hpassed read secrets _ hread hrun ⟨a, a', ?_, ?_, rfl⟩)
    · exact (object_eq_ok hfields).2 ha
    · exact (object_eq_ok hrefs).2 ha'
  · rintro ⟨hnames, hfields⟩
    cases hwrite : planned.write b under st with
    | error e st' =>
      rcases hspec.error trivial hwrite with ⟨p, s, hp, hname⟩ | ⟨message, rfl⟩
      · exact absurd (hnames p s ((hsecrets p (.write s)).2 hp)) hname
      · exact absurd hwrite (hdb message st')
    | ok out st' =>
      obtain ⟨hm, hm'⟩ := hspec.ok trivial hwrite
      refine ⟨out, st', hwrite, ?_⟩
      rintro read secrets _ hread hrun ⟨a, a', ha, ha', rfl⟩
      obtain ⟨fields, hrender⟩ : ∃ fields, secrets.render read = Except.map Json.obj fields := render_resolved hrun
      rw [object_eq_ok hrender] at ha
      rw [object_eq_ok (render_references (written_root hm'))] at ha'
      exact (merged_iff hnew hm hm' hread hrun ha ha').2 hfields

def plainCipher : Cipher where
  encrypt _ _ _ text := text.toUTF8.data.toList
  decrypt _ _ _ bytes := String.fromUTF8? ⟨⟨bytes⟩⟩
  decrypt_encrypt key nonce aad text := by
    simp only [String.fromUTF8?, Array.toArray_toList, Option.dite_none_right_eq_some, Option.some.injEq]
    exact ⟨text.isValidUTF8, rfl⟩

def porchStore : BuiltinSecretStore where
  cipher := plainCipher
  keyring := { active := "mk-1", keys := (∅ : BTreeMap String Bytes).insert "mk-1" [1], key := [1],
               active_key := by rw [BTreeMap.get_insert, if_pos rfl] }
  org := "porch"
  nonce _ := List.replicate 12 0
  nonce_length _ := rfl

def freshWrite : WriteState := { db := .empty, written := [] }

def shopScope (_ : Expr) : Except Reason Found := .ok { lookup := .value (.str "shop"), source := none }

def accountInputs : DriverInputs where
  secrets := [("user", .str "$\x7bcontext.app.id\x7d"), ("token", .str "t0")]
  secretRefs := [("db", .obj [("password", .obj [("store", .str "openporch"), ("ref", .str "values/db")]),
    ("salt", .obj [("value", .str "s0")])])]

def accountPlanned : PlannedInputs where
  values := []
  templates := [(["user"], "$\x7bcontext.app.id\x7d")]
  secrets := [(["db", "password"], .ref { store := "openporch", reference := "values/db", version := none }),
    (["db", "salt"], .write "s0"), (["token"], .write "t0")]

theorem new_account : PlannedInputs.new accountInputs = .ok accountPlanned := by
  decide +kernel

theorem account_secrets_passed : SecretsPassed porchStore "defs/account" freshWrite shopScope accountInputs accountPlanned := by
  obtain ⟨htemplates, hsecrets, -, -⟩ := PlannedInputs.new_spec new_account
  refine (secrets_passed_iff porchStore "defs/account" freshWrite shopScope new_account ?_ ?_).2 ⟨?_, ?_⟩
  · intro message st' h
    cases h
  · intro p s hp
    rw [htemplates, accountPlanned, mem_singleton] at hp
    cases hp
    exact ⟨_, rfl⟩
  · intro p s hp
    have hmem := (hsecrets p (.write s)).1 hp
    simp only [accountPlanned, mem_cons, Prod.mk.injEq, reduceCtorEq, and_false, false_or, not_mem_nil,
      or_false] at hmem
    rcases hmem with ⟨rfl, -⟩ | ⟨rfl, -⟩ <;> rfl
  · rintro p _ q _ ⟨hp, s, rfl⟩ ⟨hq, x, rfl⟩
    rw [htemplates, accountPlanned, mem_singleton] at hp
    cases hp
    rw [hsecrets] at hq
    simp only [accountPlanned, mem_cons, Prod.mk.injEq, not_mem_nil, or_false] at hq
    rcases hq with ⟨rfl, -⟩ | ⟨rfl, -⟩ | ⟨rfl, -⟩ <;> simp

def databaseInputs : DriverInputs where
  secrets := [("db", .obj [("user", .str "$\x7bcontext.app.id\x7d")])]
  secretRefs := [("db", .obj [("password", .obj [("store", .str "openporch"), ("ref", .str "values/db")])])]

def databasePlanned : PlannedInputs where
  values := []
  templates := [(["db", "user"], "$\x7bcontext.app.id\x7d")]
  secrets := [(["db", "password"], .ref { store := "openporch", reference := "values/db", version := none })]

theorem new_database : PlannedInputs.new databaseInputs = .ok databasePlanned := by
  decide +kernel

def databaseStored : DriverInputs where
  secrets := [("db", .obj [("user", .str "$\x7bcontext.app.id\x7d")])]
  secretRefs := [("db", .obj [("password", .obj [("store", .str "openporch"), ("ref", .str "values/db")])])]

/-- The driver gets the password without the user. -/
theorem common_field_loses_template :
    PlannedInputs.new databaseInputs = .ok databasePlanned ∧
    databasePlanned.write porchStore "defs/db" freshWrite = .ok databaseStored freshWrite ∧
    (∃ secrets, (resolveValue .definition .secret "driver_inputs.secrets" (.obj databaseStored.secrets)).run shopScope =
        .ok secrets ∧
      PassedSecrets secrets (references (.obj databaseStored.secretRefs)) (fun _ => some "hunter2")
        [("db", .obj [("password", .str "hunter2")])]) ∧
    ¬ SecretsPassed porchStore "defs/db" freshWrite shopScope databaseInputs databasePlanned := by
  have hwrite : databasePlanned.write porchStore "defs/db" freshWrite = .ok databaseStored freshWrite := rfl
  have hrun : (resolveValue .definition .secret "driver_inputs.secrets" (.obj databaseStored.secrets)).run shopScope =
      .ok (.value (.obj [("db", .obj [("user", .str "shop")])])) := by rfl
  have hpassed : PassedSecrets (.value (.obj [("db", .obj [("user", .str "shop")])]))
      (references (.obj databaseStored.secretRefs)) (fun _ => some "hunter2")
      [("db", .obj [("password", .str "hunter2")])] := ⟨_, _, rfl, rfl, rfl⟩
  refine ⟨new_database, hwrite, ⟨_, hrun, hpassed⟩, ?_⟩
  rintro ⟨out, st', hwrite', h⟩
  rw [hwrite] at hwrite'
  cases hwrite'
  have hlaid := h (fun _ => some "hunter2") _ _ ?_ hrun hpassed
  · obtain ⟨v, -, hat⟩ := hlaid.at_leaf ["db", "user"] (.template "$\x7bcontext.app.id\x7d")
      (.template (.field (.head _) (.field (.head _) (.here _))) (by decide +kernel))
    cases hat
  · intro r t ht
    obtain ⟨-, -, version, row, -, hrow, -⟩ := BuiltinSecretStore.read_eq_ok.1 ht
    cases (BuiltinSecretStore.mem_of_rowFor hrow).1

end Openporch
