import Openporch.GraphRequests
import Openporch.Lib.Table

/-!
# Graphs in any order

What is built does not depend on the order of the definitions and types, of the set's entries and a definition's
`provision`, or of the queue.
-/

namespace Openporch
open Op Fallible Relation List

variable {input : GraphInput} {b b' : Builder} {d x t : Descriptor} {order : List Descriptor}

def ofWeight (ctx : ResourceContext) (w : Nat) (defs : List ResourceDefinition) : List ResourceDefinition :=
  defs.filter fun dfn => definitionWeight dfn ctx = some w

def Kept (ctx : ResourceContext) (seen : List ResourceDefinition) (best : List ResourceDefinition × Nat) : Prop :=
  (best.1 = [] ∧ ∀ dfn ∈ seen, definitionWeight dfn ctx = none) ∨
    (best.1 ≠ [] ∧ best.1 = ofWeight ctx best.2 seen ∧
      ∀ dfn ∈ seen, ∀ w, definitionWeight dfn ctx = some w → w ≤ best.2)

variable {defs : List ResourceDefinition} {ctx : ResourceContext} {dfn : ResourceDefinition} {n n' : Node}

theorem ofWeight_append_one {w : Nat} :
    ofWeight ctx w (defs ++ [dfn]) = ofWeight ctx w defs ++ if definitionWeight dfn ctx = some w then [dfn] else [] := by
  simp [ofWeight, filter_append, filter_cons]

theorem Kept.keepBest {seen best} (h : Kept ctx seen best) (dfn : ResourceDefinition) :
    Kept ctx (seen ++ [dfn]) (keepBest ctx best dfn) := by
  unfold Openporch.keepBest
  cases hw : definitionWeight dfn ctx with
  | none =>
    rcases h with ⟨hnil, hnone⟩ | ⟨hne, hbest, hle⟩
    · exact .inl ⟨hnil, by simpa [or_imp, forall_and, hw] using hnone⟩
    · refine .inr ⟨hne, by simpa [ofWeight_append_one, hw] using hbest, ?_⟩
      simpa [or_imp, forall_and, hw] using hle
  | some w =>
    dsimp only
    rcases h with ⟨hnil, hnone⟩ | ⟨hne, hbest, hle⟩
    · have hof : ofWeight ctx w seen = [] := filter_eq_nil_iff.2 fun x hx => by simp [hnone x hx]
      rw [if_pos (by simp [hnil])]
      refine .inr ⟨by simp, by simp [ofWeight_append_one, hof, hw], ?_⟩
      simp +contextual [or_imp, hw, hnone]
    · have hempty : best.1.isEmpty = false := by simpa [List.isEmpty_iff] using hne
      rw [hempty, Bool.false_or]
      split
      · rename_i hgt
        have hgt : best.2 < w := by simpa using hgt
        have hof : ofWeight ctx w seen = [] := filter_eq_nil_iff.2 fun x hx hxw => by
          have := hle x hx w (by simpa using hxw)
          omega
        refine .inr ⟨by simp, by simp [ofWeight_append_one, hof, hw], fun x hx v hv => ?_⟩
        rcases mem_append.1 hx with hx | hx
        · exact (hle x hx v hv).trans hgt.le
        · obtain rfl := mem_singleton.1 hx
          exact (Option.some.inj (hw.symm.trans hv)).ge
      · rename_i hgt
        have hgt : w ≤ best.2 := by simpa using hgt
        have hall : ∀ x ∈ seen ++ [dfn], ∀ v, definitionWeight x ctx = some v → v ≤ best.2 := by
          intro x hx v hv
          rcases mem_append.1 hx with hx | hx
          · exact hle x hx v hv
          · obtain rfl := mem_singleton.1 hx
            exact (Option.some.inj (hw.symm.trans hv)) ▸ hgt
        split
        · rename_i heq
          exact .inr ⟨by simp, by simp [ofWeight_append_one, hw, heq, ← hbest], hall⟩
        · rename_i hlt
          exact .inr ⟨hne, by simp [ofWeight_append_one, hw, hlt, ← hbest], hall⟩

theorem kept_foldl (ctx : ResourceContext) (defs : List ResourceDefinition) :
    Kept ctx defs (defs.foldl (keepBest ctx) ([], 0)) := by
  have hfold : ∀ (l seen : List ResourceDefinition) (best : List ResourceDefinition × Nat), Kept ctx seen best →
      Kept ctx (seen ++ l) (l.foldl (keepBest ctx) best) := by
    intro l
    induction l with
    | nil =>
      intro seen best h
      simpa using h
    | cons dfn l ih =>
      intro seen best h
      rw [append_cons]
      exact ih _ _ (h.keepBest dfn)
  exact hfold defs [] ([], 0) (.inl ⟨rfl, by simp⟩)

theorem selectDefinition_ok_iff : selectDefinition defs ctx = .ok dfn ↔
      ∃ w, ofWeight ctx w defs = [dfn] ∧ ∀ x ∈ defs, ∀ v, definitionWeight x ctx = some v → v ≤ w := by
  have hkept := kept_foldl ctx defs
  unfold selectDefinition
  generalize defs.foldl (keepBest ctx) ([], 0) = best at hkept
  constructor
  · intro h
    split at h
    · cases h
    · rename_i dfn' w
      cases h
      rcases hkept with ⟨hnil, -⟩ | ⟨-, hbest, hle⟩
      · cases hnil
      · exact ⟨w, hbest.symm, hle⟩
    · cases h
  · rintro ⟨w, hof, hmax⟩
    have hmem : dfn ∈ ofWeight ctx w defs := by simp [hof]
    obtain ⟨hdefs, hw⟩ := mem_filter.1 hmem
    have hw : definitionWeight dfn ctx = some w := by simpa using hw
    rcases hkept with ⟨-, hnone⟩ | ⟨hne, hbest, hle⟩
    · rw [hnone dfn hdefs] at hw
      cases hw
    · obtain ⟨x, hx⟩ := exists_mem_of_ne_nil _ hne
      obtain ⟨hxdefs, hxw⟩ := mem_filter.1 (hbest ▸ hx)
      have heq : best.2 = w := Nat.le_antisymm (hmax x hxdefs _ (by simpa using hxw)) (hle dfn hdefs w hw)
      obtain ⟨l, w'⟩ := best
      obtain rfl : w' = w := heq
      obtain rfl : l = [dfn] := hbest.trans hof
      rfl

theorem selectDefinition_perm {defs'} (hperm : defs'.Perm defs) :
    selectDefinition defs' ctx = .ok dfn ↔ selectDefinition defs ctx = .ok dfn := by
  have hof : ∀ w, ofWeight ctx w defs' = [dfn] ↔ ofWeight ctx w defs = [dfn] := fun w => by
    have hfilter : (ofWeight ctx w defs').Perm (ofWeight ctx w defs) := hperm.filter _
    rw [← perm_singleton, ← perm_singleton]
    exact ⟨hfilter.symm.trans, hfilter.trans⟩
  simp only [selectDefinition_ok_iff, hof, hperm.mem_iff]

namespace GraphInput
variable {definitions : List ResourceDefinition} {types : List ResourceType}

theorem Refused.transfer {input input' : GraphInput}
    (hty : ∀ ty, input.resourceType ty = none → input'.resourceType ty = none)
    (hcls : ∀ ty cls, input.classes.contains ty cls = false → input'.classes.contains ty cls = false)
    (hselect : ∀ d, (∃ e, selectDefinition input.definitions (input.contextFor d) = .error e) →
      ∃ e, selectDefinition input'.definitions (input'.contextFor d) = .error e)
    (hmakes : ∀ op, input.Makes op → input'.Makes op) :
    (∃ g, input.Refused input.Makes g) → ∃ g, input'.Refused input'.Makes g := by
  rintro ⟨g, hg⟩
  cases hg with
  | failed hmade => exact ⟨_, .failed (hmakes _ hmade)⟩
  | unknownType hmade hunknown => exact ⟨_, .unknownType (hmakes _ hmade) (hty _ hunknown)⟩
  | missingClass hmade hmissing => exact ⟨_, .missingClass (hmakes _ hmade) (hcls _ _ hmissing)⟩
  | noDefinition hmade he =>
    obtain ⟨e, he⟩ := hselect _ ⟨_, he⟩
    exact ⟨_, .noDefinition (hmakes _ hmade) he⟩
  | conflict hp hq hne hle => exact ⟨_, .conflict (hmakes _ hp) (hmakes _ hq) hne hle⟩

/-- The same types and definitions, each of its own ID, in another order. -/
structure Reordered (input : GraphInput) (definitions : List ResourceDefinition) (types : List ResourceType) : Prop where
  typesUnique : (input.types.map (·.id)).Nodup
  definitionsUnique : (input.definitions.map (·.id)).Nodup
  definitions : definitions.Perm input.definitions
  types : types.Perm input.types

namespace Reordered
variable (h : input.Reordered definitions types)
include h

theorem resourceType (ty : ResourceTypeId) :
    { input with definitions, types : GraphInput }.resourceType ty = input.resourceType ty :=
  Table.find?_perm h.typesUnique h.types

theorem resolveRef (target : ResourceRef) (d : Descriptor) :
    { input with definitions, types : GraphInput }.resolveRef target d = input.resolveRef target d := by
  simp only [GraphInput.resolveRef, isImplicit, h.resourceType]

theorem definitionOf (d : Descriptor) :
    { input with definitions, types : GraphInput }.definitionOf d = input.definitionOf d := by
  have hfind : ∀ dfn : ResourceDefinition, definitions.find? (·.id = dfn.id) = input.definitions.find? (·.id = dfn.id) :=
    fun dfn => Table.find?_perm h.definitionsUnique h.definitions
  have hselect : (selectDefinition definitions (input.contextFor d)).toOption =
      (selectDefinition input.definitions (input.contextFor d)).toOption := by
    refine Option.ext fun dfn => ?_
    rw [toOption_eq_some, toOption_eq_some, selectDefinition_perm h.definitions]
  change (selectDefinition definitions (input.contextFor d)).toOption.bind _ = _
  rw [hselect]
  simp only [hfind, GraphInput.definitionOf]

theorem expansion (d : Descriptor) (dfn : ResourceDefinition) :
    { input with definitions, types : GraphInput }.expansion d dfn = input.expansion d dfn := by
  have hreference : ∀ loc e, { input with definitions, types : GraphInput }.referenceOps d dfn loc e =
      input.referenceOps d dfn loc e := by
    intro loc e
    cases e <;> simp [referenceOps, h.resolveRef]
  have hparam : ∀ co loc e, { input with definitions, types : GraphInput }.paramOps d co dfn loc e =
      input.paramOps d co dfn loc e := by
    intro co loc e
    cases e <;> simp [paramOps, h.resolveRef]
  have hprovision : ∀ key prov, { input with definitions, types : GraphInput }.provisionOps d dfn key prov =
      input.provisionOps d dfn key prov := by
    intro key prov
    simp only [provisionOps, provisionParamOps, h.resolveRef, hparam]
  simp only [GraphInput.expansion, hreference, hprovision]

theorem opsOf (d : Descriptor) : { input with definitions, types : GraphInput }.opsOf d = input.opsOf d := by
  simp only [GraphInput.opsOf, h.definitionOf]
  cases input.definitionOf d with
  | none => rfl
  | some dfn => exact h.expansion d dfn

theorem demanded : { input with definitions, types : GraphInput }.Demanded d ↔ input.Demanded d := by
  constructor
  · intro hd
    induction hd with
    | seed hreq => exact .seed hreq
    | expanded _ hreq ih => exact .expanded ih (h.opsOf _ ▸ hreq)
  · intro hd
    induction hd with
    | seed hreq => exact .seed hreq
    | expanded _ hreq ih => exact .expanded ih ((h.opsOf _).symm ▸ hreq)

theorem makes {op : Op} : { input with definitions, types : GraphInput }.Makes op ↔ input.Makes op := by
  simp only [Makes, h.demanded, h.opsOf]
  rfl

theorem selects (d : Descriptor) : (∃ e, selectDefinition definitions (input.contextFor d) = .error e) ↔
    ∃ e, selectDefinition input.definitions (input.contextFor d) = .error e := by
  have hnot : ∀ r : Except MatchError ResourceDefinition, (∃ e, r = .error e) ↔ ∀ dfn, r ≠ .ok dfn := by
    intro r
    cases r <;> simp
  rw [hnot, hnot]
  simp only [ne_eq, selectDefinition_perm h.definitions]

theorem refused : (∃ g, { input with definitions, types : GraphInput }.Refused
    { input with definitions, types : GraphInput }.Makes g) ↔
    ∃ g, input.Refused input.Makes g :=
  ⟨Refused.transfer (fun ty => (h.resourceType ty).symm.trans) (fun _ _ => id) (fun d => (h.selects d).1) fun _ => h.makes.1,
    Refused.transfer (fun ty => (h.resourceType ty).trans) (fun _ _ => id) (fun d => (h.selects d).2) fun _ => h.makes.2⟩

end Reordered
end GraphInput

def Builder.MatchClosed (b : Builder) (E : Descriptor → Descriptor → Prop) : Prop :=
  ∀ c ∈ b.co, c.matchDependents = true → ∀ x, E x c.source → x ≠ c.co → x ≠ c.source → E x c.co

theorem Builder.waits_isLeast (b : Builder) : IsLeast {E | b.Edge ≤ E ∧ b.MatchClosed E} b.Waits := by
  refine ⟨⟨fun x t => .of_edge, fun c hc hmatch x hx hco hsource => ?_⟩, fun E hE x t hw => ?_⟩
  · have hmem : (⟨c.source, c.co, true⟩ : CoProvision) ∈ b.co := hmatch ▸ hc
    exact hx.matched ⟨hmem, hco, hsource⟩
  · obtain ⟨a, ha, hpath⟩ := hw
    -- Along the matched sources, from the one that `x` depends on.
    induction hpath with
    | refl => exact hE.1 x a ha
    | tail _ hm ih => exact hE.2 _ hm.1 rfl x ih hm.2.1 hm.2.2

/-- `build_graph` once the queue is empty. -/
def Builder.finish (b : Builder) : Except Stop ResourceGraph := do
  let b ← b.matchDependents (b.nodes.size * b.nodes.size + 1)
  return { nodes := b.nodes, layers := ← topologicalLayers b.nodes }

theorem buildGraph_finish (input : GraphInput) : buildGraph input = expandInput input >>= Builder.finish := by
  unfold buildGraph wireInput
  rw [bind_assoc]
  rfl

def Builds (input : GraphInput) (r : Except Stop ResourceGraph) : Prop := ∃ r₀, Expands input r₀ ∧ r = r₀ >>= Builder.finish

structure Node.Same (n n' : Node) : Prop where
  descriptor : n.descriptor = n'.descriptor
  definition : n.definition = n'.definition
  driverType : n.driverType = n'.driverType
  params : toCanonicalString (n.params.getD .null) = toCanonicalString (n'.params.getD .null)
  requests : n.requests = n'.requests
  dependsOn : n.dependsOn = n'.dependsOn

inductive SameResult : Except Stop ResourceGraph → Except Stop ResourceGraph → Prop where
  | failed (e e' : GraphError) : SameResult (.error (.error e)) (.error (.error e'))
  | built {g g'} (hnodes : ∀ d : Descriptor, Option.Rel Node.Same g.nodes[d]? g'.nodes[d]?)
      (hlayers : g.layers = g'.layers) : SameResult (.ok g) (.ok g')

theorem Request.eq_of_le {r s : Request} (h : (cmp r s).isLE = true) (h' : (cmp s r).isLE = true) : r = s := by
  have heq : cmp r s = .eq := Std.OrientedCmp.isLE_antisymm h h'
  simp only [cmp, compareLex_eq_eq, compareOn] at heq
  obtain ⟨hpath, hparams⟩ := heq
  cases r
  cases s
  cases Std.LawfulEqOrd.eq_of_compare hpath
  cases Std.LawfulEqOrd.eq_of_compare hparams
  rfl

theorem Node.Listed.ext (h : n.Listed) (h' : n'.Listed) (hmem : ∀ r, r ∈ n.requests ↔ r ∈ n'.requests) :
    n.requests = n'.requests :=
  List.Perm.eq_of_pairwise (fun _ _ _ _ => Request.eq_of_le) h.1 h'.1 ((perm_ext_iff_of_nodup h.2 h'.2).2 hmem)

theorem ParamsOf.same {asked} {params params' : Option Json} {explicit explicit'} (h : ParamsOf asked params explicit)
    (h' : ParamsOf asked params' explicit') :
    toCanonicalString (params.getD .null) = toCanonicalString (params'.getD .null) := by
  by_cases hsome : ∃ path p, (path, some p) ∈ asked
  · obtain ⟨path, p, hp⟩ := hsome
    exact (h.agrees hp).symm.trans (h'.agrees hp)
  · have hnone : ∀ path p, (path, some p) ∉ asked := fun path p hp => hsome ⟨path, p, hp⟩
    rw [h.eq_none hnone, h'.eq_none hnone]

theorem Expanded.mem_opsFor_iff (h : Expanded input order b) (hd : ∀ d, input.Demanded d ↔ d ∈ b.nodes) {op : Op} :
    op ∈ input.opsFor order ↔ input.Makes op := by
  simp only [GraphInput.mem_opsFor, GraphInput.Makes, hd, h.mem]

theorem Expanded.not_refused (h : Expanded input order b) (hd : ∀ d, input.Demanded d ↔ d ∈ b.nodes) (g : GraphError) :
    ¬ input.Refused input.Makes g := by
  have hnode : ∀ {d path params}, input.Makes (.request d path params) → ∃ n, b.nodes[d]? = some n ∧
      NodeOf input (input.opsFor order) d n := by
    intro d path params hmade
    obtain ⟨n, hn⟩ := BTreeMap.mem_iff.1 ((h.built.mem d).2 ⟨path, params, (h.mem_opsFor_iff hd).2 hmade⟩)
    exact ⟨n, hn, h.built.node d n hn⟩
  intro hg
  cases hg with
  | failed hmade => exact h.built.fails _ ((h.mem_opsFor_iff hd).2 hmade)
  | unknownType hmade hty =>
    obtain ⟨n, -, hof⟩ := hnode hmade
    have htyped := hof.typed
    rw [hty] at htyped
    cases htyped
  | missingClass hmade hcls =>
    obtain ⟨n, -, hof⟩ := hnode hmade
    rw [hof.classed] at hcls
    cases hcls
  | noDefinition hmade he =>
    obtain ⟨n, -, hof⟩ := hnode hmade
    obtain ⟨dfn, hdfn, -⟩ := hof.matched
    rw [hdfn] at he
    cases he
  | conflict hp hq hne hle =>
    obtain ⟨n, hn, -⟩ := hnode hp
    have hof := h.built.params _ n hn
    have hagree := fun {path p} (hmade : input.Makes (.request _ path (some p))) =>
      hof.agrees (mem_asked.2 ((h.mem_opsFor_iff hd).2 hmade))
    exact hne ((hagree hp).trans (hagree hq).symm)

theorem Built.same {input' : GraphInput} {ops : List Op} (h : Built input ops b) (h' : Built input' ops b')
    (hselect : ∀ d dfn, selectDefinition input'.definitions (input'.contextFor d) = .ok dfn ↔
      selectDefinition input.definitions (input.contextFor d) = .ok dfn)
    (hlisted : b.Listed) (hlisted' : b'.Listed) (hn : b.nodes[d]? = some n) (hn' : b'.nodes[d]? = some n') : n.Same n' := by
  have hof := h.node d n hn
  have hof' := h'.node d n' hn'
  obtain ⟨dfn, hdfn, hid, htype⟩ := hof.matched
  obtain ⟨dfn', hdfn', hid', htype'⟩ := hof'.matched
  obtain rfl : dfn = dfn' := Except.ok.inj (hdfn.symm.trans ((hselect d dfn').1 hdfn'))
  refine ⟨hof.descriptor.trans hof'.descriptor.symm, hid.trans hid'.symm, htype.trans htype'.symm,
    (h.params d n hn).same (h'.params d n' hn'), ?_, ?_⟩
  · exact (hlisted d n hn).ext (hlisted' d n' hn') fun r => (hof.requests r).trans (hof'.requests r).symm
  · exact Std.ExtTreeSet.ext_mem fun t => (hof.dependsOn t).trans (hof'.dependsOn t).symm

theorem Expanded.finish (h : Expanded input order b) : ∃ b1, Builder.SameNodes b b1 ∧
    (∀ x t, b1.Edge x t ↔ Op.Waits (input.opsFor order) x t) ∧
    b.finish = (topologicalLayers b1.nodes).map (fun layers => { nodes := b1.nodes, layers }) ∧
    ((∃ l, topologicalLayers b1.nodes = .ok l) ∨ ∃ c, topologicalLayers b1.nodes = .error (.error (.cycle c))) := by
  obtain ⟨b1, hmatch, hsame, hwired⟩ := h.matchDependents
  refine ⟨b1, hsame, hwired.edge, ?_, ?_⟩
  · unfold Builder.finish
    rw [hmatch, ok_bind]
    cases topologicalLayers b1.nodes <;> rfl
  · rcases hwired.layers with ⟨l, hl, -⟩ | ⟨c, hc, -⟩
    · exact .inl ⟨l, hl⟩
    · exact .inr ⟨c, hc⟩

theorem Builder.dependsOn_ext {b b' : Builder} (hedge : ∀ x t, b.Edge x t ↔ b'.Edge x t) (hn : b.nodes[d]? = some n)
    (hn' : b'.nodes[d]? = some n') : n.dependsOn = n'.dependsOn := by
  have hmem : ∀ {b : Builder} {n : Node} {t}, b.nodes[d]? = some n → (b.Edge d t ↔ t ∈ n.dependsOn) := by
    intro b n t hn
    refine ⟨?_, fun ht => ⟨n, hn, ht⟩⟩
    rintro ⟨m, hm, ht⟩
    cases hn.symm.trans hm
    exact ht
  exact Std.ExtTreeSet.ext_mem fun t => (hmem hn).symm.trans ((hedge d t).trans (hmem hn'))

theorem topologicalLayers_ext {nodes nodes'}
    (h : ∀ d : Descriptor, nodes[d]?.map (·.dependsOn) = nodes'[d]?.map (·.dependsOn)) :
    topologicalLayers nodes = topologicalLayers nodes' := by
  have hmap : (nodes.map fun _ n => n.dependsOn) = nodes'.map fun _ n => n.dependsOn := by
    refine Std.ExtTreeMap.ext_getElem? fun d => ?_
    rw [Std.ExtTreeMap.getElem?_map, Std.ExtTreeMap.getElem?_map]
    exact h d
  have hsize : nodes.size = nodes'.size := by
    rw [← Std.ExtTreeMap.size_map, hmap, Std.ExtTreeMap.size_map]
  rw [topologicalLayers, topologicalLayers, hmap, hsize]

theorem Expanded.same {input' : GraphInput} {order'} (h : Expanded input order b) (h' : Expanded input' order' b')
    (hops : ∀ op, op ∈ input'.opsFor order' ↔ op ∈ input.opsFor order)
    (hselect : ∀ d dfn, selectDefinition input'.definitions (input'.contextFor d) = .ok dfn ↔
      selectDefinition input.definitions (input.contextFor d) = .ok dfn) (hlisted : b.Listed) (hlisted' : b'.Listed) :
    SameResult b.finish b'.finish := by
  obtain ⟨b1, hsame, hedge, hfinish, hlayers⟩ := h.finish
  obtain ⟨b1', hsame', hedge', hfinish', -⟩ := h'.finish
  have hbuilt' := h'.built.congr hops
  have hmem : ∀ d, d ∈ b1.nodes ↔ d ∈ b1'.nodes := fun d => by
    rw [hsame.mem, hsame'.mem, h.built.mem, hbuilt'.mem]
  have hwaits : ∀ x t, b1.Edge x t ↔ b1'.Edge x t := fun x t => by
    rw [hedge, hedge']
    simp only [Op.Waits, hops]
  have hnodes : ∀ d : Descriptor, Option.Rel Node.Same b1.nodes[d]? b1'.nodes[d]? := by
    intro d
    cases hn : b1.nodes[d]? with
    | none =>
      have hnot : d ∉ b1'.nodes := fun hd => by
        obtain ⟨n, hn'⟩ := BTreeMap.mem_iff.1 ((hmem d).2 hd)
        cases hn.symm.trans hn'
      rw [Std.ExtTreeMap.getElem?_eq_none hnot]
      exact .none
    | some n =>
      obtain ⟨n', hn'⟩ := BTreeMap.mem_iff.1 ((hmem d).1 (BTreeMap.mem_iff.2 ⟨n, hn⟩))
      obtain ⟨n0, hn0, hbare⟩ := hsame.get hn
      obtain ⟨n0', hn0', hbare'⟩ := hsame'.get hn'
      obtain ⟨hdescriptor, hdefinition, htype, hparams, hrequests, -⟩ :=
        h.built.same hbuilt' hselect hlisted hlisted' hn0 hn0'
      obtain ⟨e1, e2, e3, e4, e5, -⟩ := Node.mk.inj hbare
      obtain ⟨e1', e2', e3', e4', e5', -⟩ := Node.mk.inj hbare'
      rw [hn']
      refine .some ⟨?_, ?_, ?_, ?_, ?_, Builder.dependsOn_ext hwaits hn hn'⟩
      · rw [e1, e1', hdescriptor]
      · rw [e2, e2', hdefinition]
      · rw [e3, e3', htype]
      · rw [e4, e4', hparams]
      · rw [e5, e5', hrequests]
  have htopological : topologicalLayers b1'.nodes = topologicalLayers b1.nodes := by
    refine topologicalLayers_ext fun d => ?_
    have hrel := hnodes d
    cases hn : b1.nodes[d]? with
    | none =>
      rw [hn] at hrel
      generalize b1'.nodes[d]? = n' at hrel
      cases hrel
      rfl
    | some n =>
      rw [hn] at hrel
      generalize b1'.nodes[d]? = n' at hrel
      cases hrel with
      | some hsame => exact congrArg some hsame.dependsOn.symm
  rw [hfinish, hfinish', htopological]
  rcases hlayers with ⟨l, hl⟩ | ⟨c, hc⟩
  · rw [hl]
    exact .built hnodes rfl
  · rw [hc]
    exact .failed _ _

/-- The expansion ends, within the bound, in every order; every order gives the same graph or fails; and the edges that
`match_dependents` adds are those its rule asks for. -/
theorem build_confluent (input : GraphInput) :
    (∀ (es : List GraphInput.Entry) (reads : List (WorkloadId × Module)) (b b' : Builder) (n : Nat),
      es.Perm input.entries → reads.Perm input.set.modules.toList →
      (input.seedsIn es reads).foldlM (Builder.apply input) .empty = .ok b → Builder.Turns input n b b' →
        n ≤ input.nodeBound ∧ b'.nodes.size ≤ input.nodeBound) ∧
    Builds input (buildGraph input) ∧
    (∀ definitions types, input.Reordered definitions types → ∀ r r', Builds input r →
      Builds { input with definitions, types } r' → SameResult r r') ∧
    ∀ b, Expands input (.ok b) → ∃ b', b.matchDependents (b.nodes.size * b.nodes.size + 1) = .ok b' ∧
      IsLeast {E | b.Edge ≤ E ∧ b.MatchClosed E} b'.Edge := by
  refine ⟨?_, ⟨_, expandInput_expands input, buildGraph_finish input⟩, ?_, fun b hb => ?_⟩
  · intro es reads b b' n hes hreads hseeds hturns
    obtain ⟨done, hunder, hlen⟩ := (Underway.start hes hreads hseeds).turns hturns
    have hsize := hunder.size_le
    have hdone := hunder.length_done_le
    rw [length_nil, Nat.zero_add] at hlen
    exact ⟨hlen ▸ hdone.trans hsize, hsize⟩
  · rintro definitions types hre r r' ⟨r₀, hr0, rfl⟩ ⟨r0', hr0', rfl⟩
    rcases hr0.cases with ⟨order, b, rfl, hb, hd⟩ | ⟨g, rfl, hg⟩
    · rcases hr0'.cases with ⟨order', b', rfl, hb', hd'⟩ | ⟨g', rfl, hg'⟩
      · refine hb.same hb' (fun op => ?_) (fun d dfn => selectDefinition_perm hre.definitions) hr0.listed hr0'.listed
        rw [hb'.mem_opsFor_iff hd', hb.mem_opsFor_iff hd]
        exact hre.makes
      · obtain ⟨g, hg⟩ := hre.refused.1 ⟨g', hg'⟩
        exact absurd hg (hb.not_refused hd g)
    · rcases hr0'.cases with ⟨order', b', rfl, hb', hd'⟩ | ⟨g', rfl, -⟩
      · obtain ⟨g', hg'⟩ := hre.refused.2 ⟨g, hg⟩
        exact absurd hg' (hb'.not_refused hd' g')
      · exact .failed g g'
  · rcases hb.cases with ⟨order, b', heq, hexpanded, -⟩ | ⟨g, heq, -⟩
    · cases heq
      obtain ⟨b', hmatch, -, hwired⟩ := hexpanded.matchDependents
      refine ⟨b', hmatch, ?_⟩
      have hwaits : b'.Edge = b.Waits := by
        funext x t
        exact propext ((hwired.edge x t).trans hexpanded.built.waits_iff.symm)
      exact hwaits ▸ b.waits_isLeast
    · cases heq

theorem companions_reversed_confluent : ∃ definitions types, (companions ["aws-policy"]).Reordered definitions types ∧
    definitions ≠ (companions ["aws-policy"]).definitions ∧
    ∀ r r', Builds (companions ["aws-policy"]) r → Builds { companions ["aws-policy"] with definitions, types } r' →
      SameResult r r' := by
  have hre : (companions ["aws-policy"]).Reordered (companions ["aws-policy"]).definitions.reverse
      (companions ["aws-policy"]).types.reverse :=
    ⟨by decide +kernel, by decide +kernel, reverse_perm _, reverse_perm _⟩
  refine ⟨_, _, hre, fun h => ?_, (build_confluent (companions ["aws-policy"])).2.2.1 _ _ hre⟩
  have hhead := congrArg (fun l => l.head?.map (·.id.text)) h
  revert hhead
  decide

end Openporch
