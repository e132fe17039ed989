import Openporch.GraphBuilt

/-!
# Conflicting requests

The requests of a node are kept sorted and without duplicates. Those that supply inputs agree in every graph that is
built, and the ones that do not are what a `Conflict` names.
-/

namespace Openporch
open Op Fallible List

variable {input : GraphInput} {b b' : Builder} {g : ResourceGraph} {d : Descriptor} {path : String} {params : Option Json}

namespace Request

instance : Std.TransCmp cmp :=
  inferInstanceAs (Std.TransCmp (compareLex (compareOn Request.path) (compareOn Request.params)))

instance : Std.Total fun r s : Request => (cmp r s).isLE = true where
  total r s := by
    have hswap : cmp s r = (cmp r s).swap := Std.OrientedCmp.eq_swap
    rw [hswap]
    cases cmp r s <;> simp

instance : IsTrans Request fun r s => (cmp r s).isLE = true := ⟨fun _ _ _ => Std.TransCmp.isLE_trans⟩

end Request

def Node.Listed (n : Node) : Prop := n.requests.Pairwise (fun r s => (Request.cmp r s).isLE = true) ∧ n.requests.Nodup

variable {n : Node} {order : List Descriptor} {explicit : Option (String × String)}

theorem Builder.insertRequest_listed (h : n.Listed) (r : Request) :
    (insertRequest r n.requests).Pairwise (fun r s => (Request.cmp r s).isLE = true) ∧
      (insertRequest r n.requests).Nodup := by
  unfold insertRequest
  split
  · exact h
  · rename_i hr
    refine ⟨h.1.orderedInsert r n.requests, ?_⟩
    exact (perm_orderedInsert _ r n.requests).nodup_iff.2 (nodup_cons.2 ⟨hr, h.2⟩)

def Builder.Listed (b : Builder) : Prop := ∀ (d : Descriptor) (n : Node), b.nodes[d]? = some n → n.Listed

theorem Builder.Listed.insert (h : b.Listed) (hnodes : b'.nodes = b.nodes.insert d n) (hn : n.Listed) :
    b'.Listed := by
  intro d' n' hn'
  rw [hnodes, BTreeMap.get_insert] at hn'
  split at hn'
  · cases hn'
    exact hn
  · exact h d' n' hn'

theorem Builder.Listed.apply (h : b.Listed) {op : Op} (hb : b.apply input op = .ok b') : b'.Listed := by
  cases op with
  | request d path params =>
    obtain ⟨-, -, ⟨n, hn, hagain⟩ | ⟨dfn, hn, -, rfl⟩⟩ := Builder.request_cases (mapError_eq_ok.1 hb)
    · obtain ⟨params', hnodes, -⟩ := Builder.again_cases hagain
      exact h.insert hnodes (insertRequest_listed (h d n hn) _)
    · exact h.insert rfl ⟨pairwise_singleton _ _, nodup_singleton _⟩
  | edge a t =>
    obtain ⟨⟨b1, new⟩, hedge, rfl⟩ := map_eq_ok.1 hb
    unfold Builder.edge at hedge
    split at hedge
    · cases hedge
    · rename_i n hn
      cases hedge
      exact h.insert rfl (h a n hn)
  | coProvision c =>
    cases hb
    exact h
  | fail e => cases hb

theorem Expands.listed (h : Expands input (.ok b)) : b.Listed :=
  h.inv (fun d n hn => by simp [Builder.empty] at hn) (fun _ _ h => h) fun h hb => h.apply hb

inductive GraphInput.Reaches (input : GraphInput) : Descriptor → Prop where
  | requested {known d path params} (hknown : ∀ x, known x → Reaches input x)
      (h : input.Requested known d path params) : Reaches input d

theorem GraphInput.Makes.requested (h : input.Makes (.request d path params)) :
    input.Requested input.Reaches d path params := by
  have hreaches : ∀ {x}, input.Demanded x → input.Reaches x := by
    intro x hx
    induction hx with
    | seed hreq =>
      obtain ⟨path, params, hreq⟩ := hreq
      exact .requested (fun _ => False.elim) (seeds_requested hreq)
    | @expanded x d hx hreq ih =>
      obtain ⟨path, params, hreq⟩ := hreq
      have hknown : ∀ y, y = x → input.Reaches y := fun y hy => hy ▸ ih
      exact .requested hknown (opsOf_requested rfl hreq)
  rcases h with h | ⟨x, hx, h⟩
  · exact seeds_requested h
  · exact opsOf_requested (hreaches hx) h

theorem GraphInput.Requested.mono {known known'} (hle : ∀ x, known x → known' x)
    (h : input.Requested known d path params) : input.Requested known' d path params := by
  cases h with
  | baseEnv => exact .baseEnv
  | workload hm => exact .workload hm
  | external hm hext hid => exact .external hm hext hid
  | shared hs hid => exact .shared hs hid
  | reference hx hdfn hfound h => exact .reference (hle _ hx) hdfn hfound h
  | provision hx hdfn hprov hkey => exact .provision (hle _ hx) hdfn hprov hkey
  | param hx hdfn hprov hkey hfound h => exact .param (hle _ hx) hdfn hprov hkey hfound h

theorem Expanded.reaches (h : Expanded input order b) (hd : input.Reaches d) : d ∈ b.nodes := by
  induction hd with
  | requested _ hreq ih => exact (h.built.mem _).2 ⟨_, _, h.requested (hreq.mono ih)⟩

theorem Expanded.requested_iff (h : Expanded input order b) :
    input.Requested (· ∈ b.nodes) d path params ↔ (path, params) ∈ asked (input.opsFor order) d := by
  rw [mem_asked]
  exact ⟨h.requested, GraphInput.opsFor_requested fun x hx => (h.mem x).2 hx⟩

theorem built_node (hg : buildGraph input = .ok g) : ∃ order b, expandInput input = .ok b ∧ Expanded input order b ∧
    (∀ d, d ∈ g.nodes ↔ d ∈ b.nodes) ∧ ∀ (d : Descriptor) (n : Node), g.nodes[d]? = some n →
      ∃ n0, b.nodes[d]? = some n0 ∧ Builder.bare n = Builder.bare n0 := by
  obtain ⟨b, hb⟩ := built_expanded hg
  obtain ⟨order, b', hexpanded, hsame, -, hnodes⟩ := built_wired hg hb
  refine ⟨order, b, hb, hexpanded, fun d => ?_, fun d n hn => hsame.get (hnodes ▸ hn)⟩
  rw [hnodes, hsame.mem]

theorem ParamsOf.agrees {asked} (h : ParamsOf asked params explicit) {p : Json} (hp : (path, some p) ∈ asked) :
    toCanonicalString p = toCanonicalString (params.getD .null) := by
  cases h with
  | unset hnone => cases hnone _ hp
  | @fixed first q hq hall =>
    rw [hall _ hp p rfl]
    unfold Builder.given
    by_cases hnull : q = .null <;> simp [Option.filter_some, hnull]

theorem ParamsOf.eq_none {asked} (h : ParamsOf asked params explicit) (hnone : ∀ path p, (path, some p) ∉ asked) :
    params = none := by
  cases h with
  | unset => rfl
  | fixed hq _ => exact absurd hq (hnone _ _)

namespace GraphInput
variable {e : GraphError}

theorem seeds_fail (h : .fail e ∈ input.seeds) : ∃ path source, e = .invalidId path source := by
  cases mem_seeds.1 h with
  | badExternal | badShared => exact ⟨_, _, rfl⟩

theorem opsOf_fail (h : .fail e ∈ input.opsOf d) : ∃ definition source, e = .placeholder definition source := by
  obtain ⟨dfn, -, ⟨source, h⟩ | ⟨found, -, h⟩⟩ := opsOf_cases h
  · cases h
    exact ⟨_, _, rfl⟩
  · cases h with
    | badKey | badParams => exact ⟨_, _, rfl⟩

theorem Refused.conflict_of (h : input.Refused input.Makes e) {first second : String} (he : e = .conflict d first second) :
    ∃ p q, input.Makes (.request d first (some p)) ∧
      input.Makes (.request d second (some q)) ∧ toCanonicalString p ≠ toCanonicalString q ∧ first ≤ second := by
  cases h with
  | failed hfail =>
    subst he
    rcases hfail with hfail | ⟨x, -, hfail⟩
    · obtain ⟨path, source, hkind⟩ := seeds_fail hfail
      cases hkind
    · obtain ⟨definition, source, hkind⟩ := opsOf_fail hfail
      cases hkind
  | conflict hp hq hne hle =>
    cases he
    exact ⟨_, _, hp, hq, hne, hle⟩
  | unknownType | missingClass | noDefinition => cases he

end GraphInput

/-- A graph is built only of requests that agree, each node lists its requests in order, and a conflict names two
requests that do not agree. -/
theorem conflicts_exact (input : GraphInput) :
    (∀ g, buildGraph input = .ok g → ∀ (d : Descriptor) (n : Node), g.nodes[d]? = some n →
      (∀ path p, input.Requested (· ∈ g.nodes) d path (some p) →
        toCanonicalString p = toCanonicalString (n.params.getD .null)) ∧
      ((∀ path p, ¬ input.Requested (· ∈ g.nodes) d path (some p)) → n.params = none) ∧
      n.requests.Pairwise (fun r s => (Request.cmp r s).isLE = true) ∧ n.requests.Nodup ∧
      ∀ r, r ∈ n.requests ↔
        ∃ path params, input.Requested (· ∈ g.nodes) d path params ∧ r = Request.of (path, params)) ∧
    (∀ d first second, buildGraph input = .error (.error (.conflict d first second)) → first ≤ second ∧
      ∃ p q, input.Requested input.Reaches d first (some p) ∧ input.Requested input.Reaches d second (some q) ∧
        toCanonicalString p ≠ toCanonicalString q) ∧
    ∀ d first second p q, input.Requested input.Reaches d first (some p) →
      input.Requested input.Reaches d second (some q) → toCanonicalString p ≠ toCanonicalString q →
        ∃ e, buildGraph input = .error (.error e) := by
  refine ⟨fun g hg d n hn => ?_, fun d first second he => ?_, fun d first second p q hp hq hne => ?_⟩
  · obtain ⟨order, b, hb, hexpanded, hmem, hnode⟩ := built_node hg
    obtain ⟨n0, hn0, hbare⟩ := hnode d n hn
    have hparams : n.params = n0.params := (Node.mk.inj hbare).2.2.2.1
    have hrequests : n.requests = n0.requests := (Node.mk.inj hbare).2.2.2.2.1
    have hlisted : n0.Listed := (hb ▸ expandInput_expands input).listed d n0 hn0
    have hof := hexpanded.built.params d n0 hn0
    simp only [hmem, hexpanded.requested_iff, hparams, hrequests]
    refine ⟨fun path p hp => hof.agrees hp, hof.eq_none, hlisted.1, hlisted.2, fun r => ?_⟩
    rw [(hexpanded.built.node d n0 hn0).requests]
    exact Prod.exists
  · rcases buildGraph_error he with ⟨e, heq, hrefused⟩ | ⟨b, c, -, hcycle, -⟩
    · cases heq
      obtain ⟨p, q, hp, hq, hne, hle⟩ := hrefused.conflict_of rfl
      exact ⟨hle, p, q, hp.requested, hq.requested, hne⟩
    · cases hcycle
  · cases hresult : buildGraph input with
    | ok g =>
      exfalso
      obtain ⟨order, b, -, hexpanded, -, -⟩ := built_node hresult
      have hp := hexpanded.requested_iff.1 (hp.mono fun x => hexpanded.reaches)
      have hq := hexpanded.requested_iff.1 (hq.mono fun x => hexpanded.reaches)
      obtain ⟨n, hn⟩ := BTreeMap.mem_iff.1 ((hexpanded.built.mem d).2 ⟨first, some p, mem_asked.1 hp⟩)
      have hof := hexpanded.built.params d n hn
      exact hne ((hof.agrees hp).trans (hof.agrees hq).symm)
    | error e =>
      rcases buildGraph_error hresult with ⟨g, rfl, -⟩ | ⟨b, c, -, rfl, -⟩
      · exact ⟨g, rfl⟩
      · exact ⟨.cycle c, rfl⟩

end Openporch
