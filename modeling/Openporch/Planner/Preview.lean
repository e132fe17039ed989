import Openporch.Planner.Job
import Openporch.Resolution
import Openporch.Sets

/-!
# The preview digest

`referenced_values` and `digest` of `crates/engine/src/preview.rs`. A permit is bound to a digest of what a resource is
provisioned from, and of the shared values only those whose `values.KEY` occurs in the node's text are in it.
-/

namespace Openporch
open Asking List Ask MapScope BTreeMap

def SharedValue.json : SharedValue → Json
  | .value v => .obj [("value", v)]
  | .secret r => .obj [("secret_ref", r.json)]

/-- Whether the text of the node has `values.KEY`. -/
def Node.mentions (node : Node) (key : String) : Bool := containsText ("values." ++ key).toList node.json.text.toList

namespace Engine.Deployment
variable (dep : Engine.Deployment)

def referencedValues (node : Node) : BTreeMap String SharedValue := dep.values.filter fun key _ => node.mentions key

def config (node : Node) : Json :=
  .obj [("node", node.json),
    ("definition", dep.definitions[node.definition]?.elim .null fun d => .arr [.num (.ofInt d.1), d.2.json]),
    ("values", .obj ((dep.referencedValues node).toList.map fun (key, v) => (key, v.json))),
    ("pin", dep.pins[node.descriptor.text]?.getD .null)]

def digest (sha256 : String → String) (node : Node) : String := sha256 (toCanonicalString (dep.config node))

def withValues (values : BTreeMap String SharedValue)
    (text : ∀ (key : String) (v : SharedValue), values[key]? = some v → v.isText = true) : Engine.Deployment :=
  { dep with values, textValues := text }

end Engine.Deployment

@[simp]
theorem Json.canonicalForm_str (s : String) : (Json.str s).canonicalForm = .str s := rfl

theorem SecretRef.json_inj {r r' : SecretRef} (h : r.json.canonicalForm = r'.json.canonicalForm) : r = r' := by
  have hkeys : ∀ r : SecretRef, ((([("store", .str r.store), ("ref", .str r.reference)] ++
      optional "version" (r.version.map .str)) : JsonMap).map (·.1)).Nodup := by
    intro r
    cases h : r.version <;> simp [optional]
  have hget := Json.canonicalForm_get (hkeys r) (hkeys r') h
  have hstore := hget "store"
  have href := hget "ref"
  have hversion := hget "version"
  obtain ⟨store, reference, version⟩ := r
  obtain ⟨store', reference', version'⟩ := r'
  cases version <;> cases version' <;>
    simp_all [JsonMap.get, optional, lookup_cons]

theorem SharedValue.json_inj {v v' : SharedValue} (hv : v.isText = true) (hv' : v'.isText = true)
    (h : v.json.canonicalForm = v'.json.canonicalForm) : v = v' := by
  match v, v', hv, hv' with
  | .value (.str s), .value (.str s'), _, _ =>
    have hget := Json.canonicalForm_get (by simp) (by simp) h "value"
    simpa [JsonMap.get, lookup_cons] using hget
  | .value (.str s), .secret r, _, _ =>
    have hget := Json.canonicalForm_get (by simp) (by simp) h "value"
    simp [JsonMap.get, lookup_cons] at hget
  | .secret r, .value (.str s), _, _ =>
    have hget := Json.canonicalForm_get (by simp) (by simp) h "value"
    simp [JsonMap.get, lookup_cons] at hget
  | .secret r, .secret r', _, _ =>
    have hget := Json.canonicalForm_get (by simp) (by simp) h "secret_ref"
    have hjson : r.json.canonicalForm = r'.json.canonicalForm := by simpa [JsonMap.get, lookup_cons] using hget
    rw [SecretRef.json_inj hjson]

section
variable {K V : Type} [Ord K] [Std.TransOrd K] [Std.LawfulEqOrd K] {name : K → String} {f : V → Json} {m m' : BTreeMap K V}

theorem fields_canonicalForm (hname : Function.Injective name)
    (h : (Json.obj (m.toList.map fun x => (name x.1, f x.2))).canonicalForm =
      (Json.obj (m'.toList.map fun x => (name x.1, f x.2))).canonicalForm) (k : K) :
    m[k]?.map (fun v => (f v).canonicalForm) = m'[k]?.map fun v => (f v).canonicalForm := by
  have hget := Json.canonicalForm_get (json_nodup (m := m) (f := f) hname) (json_nodup (m := m') hname) h
    (name k)
  rw [json_get hname, json_get hname, Option.map_map, Option.map_map] at hget
  exact hget

end

namespace Engine.Deployment
variable {dep dep' : Engine.Deployment} {node : Node} {key : String}

theorem values_eq_of_digest {sha256} (hsha : Function.Injective sha256)
    (h : dep.digest sha256 node = dep'.digest sha256 node) (hkey : node.mentions key = true) :
    dep.values[key]? = dep'.values[key]? := by
  have hconfig := Json.canonicalForm_get (by simp) (by simp) (canonical_inj (hsha h)) "values"
  have hvalues := fields_canonicalForm Function.injective_id (Option.some.inj hconfig) key
  have hfilter : ∀ dep : Engine.Deployment, (dep.referencedValues node)[key]? = dep.values[key]? := by
    intro dep
    rw [referencedValues, get_filter]
    cases dep.values[key]? <;> simp [hkey]
  rw [hfilter, hfilter] at hvalues
  cases hv : dep.values[key]? with
  | none =>
    rw [hv] at hvalues
    exact (Option.map_eq_none_iff.1 hvalues.symm).symm
  | some v =>
    rw [hv] at hvalues
    obtain ⟨v', hv', hform⟩ := Option.map_eq_some_iff.1 hvalues.symm
    rw [hv', SharedValue.json_inj (dep'.textValues key v' hv') (dep.textValues key v hv) hform]

theorem digest_withValues (sha256 : String → String) {values values' text text'}
    (h : ∀ key, node.mentions key = true → values[key]? = values'[key]?) :
    (dep.withValues values text).digest sha256 node = (dep.withValues values' text').digest sha256 node := by
  have hvalues : (dep.withValues values text).referencedValues node =
      (dep.withValues values' text').referencedValues node := by
    refine Std.ExtTreeMap.ext_getElem? fun key => ?_
    unfold referencedValues withValues
    rw [get_filter, get_filter]
    cases hkey : node.mentions key with
    | true => rw [h key hkey]
    | false => simp
  unfold digest config
  rw [hvalues]
  rfl

end Engine.Deployment

theorem MapScope.answer_withValues {s : MapScope} {values values'} {e : Expr}
    (h : ∀ key path, e = .values key path → values[key]? = values'[key]?) :
    { s with values }.answer e = { s with values := values' }.answer e := by
  cases e with
  | values key path => exact answer_values (h key path rfl)
  | _ => rfl

theorem driverInputs_only (dfn : ResourceDefinition) : (driverInputs dfn).Only fun e => e.ofSet = false := by
  refine Ask.Only.bind ?_ fun _ => Ask.Only.bind Ask.Only.ofExcept fun _ => Ask.Only.bind ?_ fun _ => trivial
  · exact (resolveValue_ofDefinition (by decide) _ _ _).mapError
  · exact (resolveValue_ofDefinition (by decide) _ _ _).mapError.record

theorem driverAccount_only (dfn : ResourceDefinition) : (driverAccount dfn).Only fun e => e.ofSet = false := by
  unfold driverAccount
  split
  · trivial
  · refine Ask.Only.bind ?_ fun _ => Ask.Only.bind Ask.Only.ofExcept fun _ => trivial
    exact (resolveValue_ofDefinition (by decide) _ _ _).mapError

theorem resolveParams_script (node : Node) (externals : BTreeMap String ResourceOutputs) :
    (resolveParams node externals).Script (reads (paramsDialect node) (jobParams node externals).1) :=
  (resolveValue_script _ _ _).mapError.record.map

def MapScope.CanAnswer (s : MapScope) : Expr → Prop
  | .values _ path => path = []
  | e => ∃ found, s.answer e = .ok found

section
variable {s : MapScope} {values : BTreeMap String SharedValue}

theorem MapScope.answer_values_none {key : String} (path : List Segment) (h : values[key]? = none) :
    { s with values }.answer (.values key path) = .error (.noValue key) := by
  simp only [answer, lookup, lookupValue, h]
  rfl

theorem MapScope.answer_values_text {key t : String} {path : List Segment} (h : values[key]? = some (.value (.str t))) :
    (path = [] → ∃ found, { s with values }.answer (.values key path) = .ok found) ∧
      { s with values }.answer (.values key path) ≠ .error (.noValue key) := by
  simp only [answer, lookup, lookupValue, h]
  cases path with
  | nil => exact ⟨fun _ => ⟨_, rfl⟩, by rintro ⟨⟩⟩
  | cons seg path => cases seg <;> exact ⟨by rintro ⟨⟩, by rintro ⟨⟩⟩

theorem MapScope.canAnswer_of_answer {e : Expr} {found : Found}
    (text : ∀ (key : String) (v : SharedValue), values[key]? = some v → v.isText = true)
    (h : { s with values }.answer e = .ok found) : s.CanAnswer e := by
  cases e with
  | values key path =>
    simp only [answer, lookup, lookupValue] at h
    cases hv : values[key]? with
    | none =>
      rw [hv] at h
      cases h
    | some v =>
      rw [hv] at h
      cases v with
      | value t =>
        cases t with
        | str t =>
          cases path with
          | nil => rfl
          | cons seg path => cases seg <;> cases h
        | _ => cases text key _ hv
      | secret r =>
        cases path with
        | nil => rfl
        | cons seg path => cases h
  | _ => exact ⟨found, h⟩

end

def emptyTexts (keys : List String) : BTreeMap String SharedValue :=
  keys.foldl (fun m key => m.insert key (.value (.str ""))) ∅

theorem emptyTexts_get (keys : List String) (key : String) :
    (emptyTexts keys)[key]? = if key ∈ keys then some (.value (.str "")) else none := by
  have hfold : ∀ m : BTreeMap String SharedValue,
      (keys.foldl (fun m key => m.insert key (.value (.str ""))) m)[key]? =
        if key ∈ keys then some (.value (.str "")) else m[key]? := by
    induction keys with
    | nil => intro m; simp
    | cons k keys ih =>
      intro m
      rw [foldl_cons, ih, get_insert]
      by_cases hk : k = key
      · simp [hk]
      · simp [hk, Ne.symm hk]
  simpa [emptyTexts] using hfold ∅

namespace Engine.Deployment
variable (dep : Engine.Deployment)

def DigestCovers (sha256 : String → String) (node : Node) (dfn : ResourceDefinition)
    (done : BTreeMap Descriptor ResourceOutputs) (guresid : Option Guresid) : Prop :=
  ∀ (values values' : BTreeMap String SharedValue)
    (text : ∀ (key : String) (v : SharedValue), values[key]? = some v → v.isText = true)
    (text' : ∀ (key : String) (v : SharedValue), values'[key]? = some v → v.isText = true),
    (dep.withValues values text).digest sha256 node = (dep.withValues values' text').digest sha256 node →
    let s := (dep.withValues values text).scopeFor node done guresid
    let s' := (dep.withValues values' text').scopeFor node done guresid
    (resolveParams node s.externals).trace s.answer = (resolveParams node s'.externals).trace s'.answer ∧
      (resolveParams node s.externals).run s.answer = (resolveParams node s'.externals).run s'.answer ∧
      (jobInputs node dfn s.externals).run s.answer = (jobInputs node dfn s'.externals).run s'.answer

/-- Every value placeholder of the params that can be resolved after those before it has its `values.KEY` in the node's
text. -/
def MentionsValues (node : Node) (done : BTreeMap Descriptor ResourceOutputs) (guresid : Option Guresid) : Prop :=
  ∀ (before : List (Option Expr)) (key : String) (path : List Segment) (after : List (Option Expr)),
    reads (paramsDialect node) (jobParams node (dep.externalScope node done)).1 =
      before ++ some (.values key path) :: after →
    (∀ x ∈ before, ∃ e, x = some e ∧ (dep.scopeFor node done guresid).CanAnswer e) → node.mentions key = true

variable {dep} {sha256 : String → String} {node : Node} {dfn : ResourceDefinition}
  {done : BTreeMap Descriptor ResourceOutputs} {guresid : Option Guresid}

theorem digestCovers_of_mentions (hsha : Function.Injective sha256) (h : dep.MentionsValues node done guresid) :
    dep.DigestCovers sha256 node dfn done guresid := by
  intro values values' text text' hdigest s s'
  have hvalues : ∀ key, node.mentions key = true → values[key]? = values'[key]? :=
    fun key hkey => values_eq_of_digest hsha hdigest hkey
  have hset : ∀ e, e.ofSet = false → s.answer e = s'.answer e := by
    intro e he
    refine answer_withValues (s := dep.scopeFor node done guresid) fun key path heq => ?_
    rw [heq] at he
    cases he
  have hparams : ∀ e ∈ (resolveParams node s.externals).asked s.answer, s.answer e = s'.answer e := by
    intro e he
    refine answer_withValues (s := dep.scopeFor node done guresid) fun key path heq => hvalues key ?_
    subst heq
    obtain ⟨before, after, hreads, hbefore⟩ := (resolveParams_script node _).mem_asked.1 he
    refine h before key path after hreads fun x hx => ?_
    obtain ⟨e, found, rfl, hanswer⟩ := hbefore x hx
    exact ⟨e, rfl, canAnswer_of_answer text hanswer⟩
  obtain ⟨hrun, htrace⟩ := run_congr _ hparams
  refine ⟨htrace, hrun, ?_⟩
  have hinputs := (run_congr (driverInputs dfn) fun e he => hset e ((driverInputs_only dfn).asked he)).1
  have haccount := (run_congr (driverAccount dfn) fun e he => hset e ((driverAccount_only dfn).asked he)).1
  unfold jobInputs
  simp only [run_bind, hinputs, haccount, hrun]
  rfl

def valueKeys (found : List (Option Expr)) : List String :=
  found.filterMap fun
    | some (.values key _) => some key
    | _ => none

theorem emptyTexts_text (keys : List String) (key : String) (v : SharedValue) (h : (emptyTexts keys)[key]? = some v) :
    v.isText = true := by
  rw [emptyTexts_get] at h
  split at h <;> cases h
  rfl

theorem mentions_of_digestCovers (h : dep.DigestCovers sha256 node dfn done guresid) :
    dep.MentionsValues node done guresid := by
  intro before key path after hreads hbefore
  by_contra hkey
  -- one map has every key read so far, the other all but this one, which the digest does not tell apart
  let keys := key :: valueKeys before
  have hdigest : (dep.withValues (emptyTexts keys) (emptyTexts_text keys)).digest sha256 node =
      (dep.withValues (emptyTexts (keys.filter (· ≠ key))) (emptyTexts_text _)).digest sha256 node := by
    refine digest_withValues sha256 fun k hk => ?_
    have hne : k ≠ key := fun heq => hkey (heq ▸ hk)
    rw [emptyTexts_get, emptyTexts_get]
    simp [hne]
  obtain ⟨htrace, -, -⟩ := h _ _ _ _ hdigest
  have hanswered : ∀ x ∈ before, ∃ e found, x = some e ∧
      { dep.scopeFor node done guresid with values := emptyTexts keys }.answer e = .ok found := by
    intro x hx
    obtain ⟨e, rfl, he⟩ := hbefore x hx
    cases e with
    | values k p =>
      have hk : (emptyTexts keys)[k]? = some (.value (.str "")) := by
        rw [emptyTexts_get, if_pos]
        exact mem_cons_of_mem _ (mem_filterMap.2 ⟨_, hx, rfl⟩)
      obtain ⟨found, hfound⟩ := (answer_values_text hk).1 he
      exact ⟨_, found, rfl, hfound⟩
    | _ =>
      obtain ⟨found, hfound⟩ := he
      exact ⟨_, found, rfl, hfound⟩
  have hasked := (resolveParams_script node (dep.externalScope node done)).mem_asked.2 ⟨before, after, hreads, hanswered⟩
  have hmem := mem_trace.2 ⟨hasked, rfl⟩
  have hsame := (mem_trace.1 (htrace ▸ hmem)).2
  have hnone : (emptyTexts (keys.filter (· ≠ key)))[key]? = none := by
    rw [emptyTexts_get]
    simp
  have hsome : (emptyTexts keys)[key]? = some (.value (.str "")) := by
    rw [emptyTexts_get, if_pos mem_cons_self]
  have hrefused := answer_values_none (s := dep.scopeFor node done guresid) path hnone
  exact (answer_values_text hsome).2 (hsame.trans hrefused)

/-- The digest covers the shared values that a resource reads exactly when the node's text has a `values.KEY` for each
of them that can be resolved. -/
theorem digest_covers_iff (sha256 : String → String) (hsha : Function.Injective sha256) (dep : Engine.Deployment)
    (node : Node) (dfn : ResourceDefinition) (done : BTreeMap Descriptor ResourceOutputs) (guresid : Option Guresid) :
    dep.DigestCovers sha256 node dfn done guresid ↔ dep.MentionsValues node done guresid :=
  ⟨mentions_of_digestCovers, digestCovers_of_mentions hsha⟩

end Engine.Deployment

def greeterDefinition : ResourceDefinition :=
  { id := ⟨"greeter", by decide⟩, name := "", ty := .workload, driverType := "openporch/echo", driverAccount := none
    driverInputs := {}, provision := ∅, criteria := [{}] }

def greeterNode (text : String) : Node :=
  let params := GraphInput.workloadParams greeterDefinition.id { spec := [("greeting", .str text)] }
  { descriptor := GraphInput.workload greeterDefinition.id {}, definition := greeterDefinition.id
    driverType := "openporch/echo", params := some params
    requests := [{ path := "modules.greeter", params := some (toCanonicalString params) }], dependsOn := ∅ }

def greeter (text greeting : String) : Engine.Deployment where
  org := ⟨"north", by decide⟩
  app := ⟨"mail", by decide⟩
  env := ⟨"staging", by decide⟩
  envType := ⟨"test", by decide⟩
  id := "d1"
  setId := "s1"
  graph := { nodes := .ofList [((greeterNode text).descriptor, greeterNode text)] _, layers := [[(greeterNode text).descriptor]] }
  definitions := .ofList [(greeterDefinition.id, 1, greeterDefinition)] _
  values := (∅ : BTreeMap String SharedValue).insert "GREETING" (.value (.str greeting))
  textValues := by
    intro key v h
    rw [get_insert] at h
    split at h
    · cases h
      rfl
    · simp at h
  permits := []
  pins := ∅
  types := ∅
  teardown := false

def Engine.Deployment.greeting (dep : Engine.Deployment) (node : Node) : Option Json :=
  let s := dep.scopeFor node ∅ none
  match (resolveParams node s.externals).run s.answer with
  | .ok (.value v, _) => (v.field? "spec").bind (·.field? "greeting")
  | _ => none

def inBrackets : String := "$\x7bvalues['GREETING']\x7d"

def afterDot : String := "Say $\x7bvalues.GREETING\x7d!"

/-- The value in brackets is read, and the digest stays the same when it changes. -/
theorem quoted_value_uncovered :
    (∀ sha256, (greeter inBrackets "hello").digest sha256 (greeterNode inBrackets) =
      (greeter inBrackets "goodbye").digest sha256 (greeterNode inBrackets)) ∧
    (greeter inBrackets "hello").greeting (greeterNode inBrackets) = some (.str "hello") ∧
    (greeter inBrackets "goodbye").greeting (greeterNode inBrackets) = some (.str "goodbye") := by
  refine ⟨fun sha256 => congrArg sha256 ?_, by decide +kernel, by decide +kernel⟩
  decide +kernel

theorem dotted_value_covered :
    (greeter afterDot "hello").DigestCovers id (greeterNode afterDot) greeterDefinition ∅ none := by
  refine (Engine.Deployment.digest_covers_iff id Function.injective_id _ _ _ _ _).2 ?_
  intro before key path after hreads _
  have hall : reads (paramsDialect (greeterNode afterDot))
      (jobParams (greeterNode afterDot) ((greeter afterDot "hello").externalScope (greeterNode afterDot) ∅)).1 =
        [some (.values "GREETING" [])] := by decide +kernel
  rw [hall] at hreads
  cases before with
  | cons x before => simp at hreads
  | nil =>
    obtain ⟨⟨rfl, -⟩, -⟩ : ("GREETING" = key ∧ [] = path) ∧ [] = after := by simpa using hreads
    decide +kernel

end Openporch
