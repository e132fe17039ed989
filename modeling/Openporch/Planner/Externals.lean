import Openporch.GraphBuilt
import Openporch.Planner.Job

/-!
# The scope of a node of a built graph

`scope_for` finds a workload's dependencies and the shared resources by the paths of requests. In a built graph these
paths come from the set (`Asks`), so they can be read back.
-/

namespace Openporch
open Engine.Deployment List GraphInput

variable {input : GraphInput} {g : ResourceGraph} {b : Builder} {d x : Descriptor} {n : Node} {path own key id : String}
  {pre s rest : String} {r : Request}

theorem afterPrefix_eq_some : afterPrefix pre s = some rest ↔ s = pre ++ rest := by
  unfold afterPrefix
  rw [Option.map_eq_some_iff]
  constructor
  · rintro ⟨cs, hcs, rfl⟩
    rw [stripPrefix_eq_some] at hcs
    exact String.toList_injective (by simp [hcs])
  · rintro rfl
    exact ⟨rest.toList, by simp [stripPrefix_eq_some], by simp⟩

theorem hasPrefix_iff : hasPrefix pre s = true ↔ ∃ rest, s = pre ++ rest := by
  unfold hasPrefix
  rw [Option.isSome_iff_exists]
  constructor
  · rintro ⟨cs, hcs⟩
    rw [stripPrefix_eq_some] at hcs
    exact ⟨String.ofList cs, String.toList_injective (by simp [hcs])⟩
  · rintro ⟨rest, rfl⟩
    exact ⟨rest.toList, by simp [stripPrefix_eq_some]⟩

theorem ObjectId.no_dot (w : ObjectId) : '.' ∉ w.text.toList := fun h => by
  rcases w.chars_spec.1 _ h with h | h <;> cases h

theorem Asks.modules (h : input.Asks x path) (hpath : path = "modules." ++ rest) :
    (∃ wid m, input.set.modules[wid]? = some m ∧ x = workload wid m ∧ rest = wid.text) ∨
    ∃ wid m key ext id, input.set.modules[wid]? = some m ∧ m.externals[key]? = some ext ∧
      externalId wid key ext = .ok id ∧ x = { ty := ext.ty, cls := ext.cls, id } ∧
      rest = wid.text ++ ".externals." ++ key := by
  cases h with
  | baseEnv =>
    have hhead := congrArg (·.toList.head?) hpath
    simp at hhead
  | workload hm => exact .inl ⟨_, _, hm, rfl, (by simpa using hpath.symm)⟩
  | external hm hext hid =>
    refine .inr ⟨_, _, _, _, _, hm, hext, hid, rfl, ?_⟩
    simpa [externalPath, String.append_assoc] using hpath.symm
  | shared hs hid =>
    have hhead := congrArg (·.toList.head?) hpath
    simp at hhead
  | definition =>
    have hhead := congrArg (·.toList.head?) hpath
    simp [definitionPath] at hhead

theorem workload_path_no_externals (w : WorkloadId) :
    containsText ".externals.".toList ("modules." ++ w.text).toList = false := by
  rw [← Bool.not_eq_true, containsText_iff]
  intro hinfix
  -- the path has one dot, and `.externals.` two
  have hle := hinfix.sublist.count_le '.'
  have hdots : w.text.toList.count '.' = 0 := count_eq_zero.2 w.no_dot
  rw [String.toList_append, count_append, hdots] at hle
  revert hle
  decide

variable {wid : WorkloadId} {m : Module}

theorem mem_ownPaths (hg : buildGraph input = .ok g) (hn : g.nodes[d]? = some n) : own ∈ ownPaths n ↔
    ∃ wid m, input.set.modules[wid]? = some m ∧ d = workload wid m ∧ own = "modules." ++ wid.text := by
  simp only [ownPaths, mem_map, mem_filter, Bool.and_eq_true, Bool.not_eq_true']
  constructor
  · rintro ⟨r, ⟨hr, hpre, hno⟩, rfl⟩
    obtain ⟨rest, hrest⟩ := hasPrefix_iff.1 hpre
    rcases Asks.modules (built_asks hg hn hr) hrest with ⟨wid, m, hm, hd, rfl⟩ | ⟨wid, m, key, ext, id, -, -, -, -, rfl⟩
    · exact ⟨wid, m, hm, hd, hrest⟩
    · have hyes : containsText ".externals.".toList r.path.toList = true := by
        rw [hrest, containsText_iff]
        exact ⟨("modules." ++ wid.text).toList, key.toList, by simp⟩
      rw [hno] at hyes
      cases hyes
  · rintro ⟨wid, m, hm, rfl, rfl⟩
    obtain ⟨n', hn', hr⟩ := built_seed hg (.workload hm)
    rw [hn] at hn'
    cases hn'
    exact ⟨_, ⟨hr, hasPrefix_iff.2 ⟨_, rfl⟩, workload_path_no_externals wid⟩, rfl⟩

theorem externalKey_eq_some : externalKey own r = some key ↔ r.path = own ++ (".externals." ++ key) := by
  simp only [externalKey, Option.bind_eq_some_iff, afterPrefix_eq_some]
  constructor
  · rintro ⟨rest, hrest, rfl⟩
    exact hrest
  · intro h
    exact ⟨_, h, rfl⟩

theorem workload_injective {wid' : WorkloadId} {m' : Module} (h : workload wid m = workload wid' m') :
    wid = wid' := by
  have hid : (workload wid m).id.text = (workload wid' m').id.text := by rw [h]
  have htext : wid.text = wid'.text := by simpa [workload, ResId.workload] using hid
  cases wid
  cases wid'
  cases htext
  rfl

theorem Asks.external_of (h : input.Asks x path) (hpath : path = "modules." ++ wid.text ++ (".externals." ++ key)) :
    ∃ m ext id, input.set.modules[wid]? = some m ∧
      m.externals[key]? = some ext ∧ externalId wid key ext = .ok id ∧
      x = { ty := ext.ty, cls := ext.cls, id } := by
  have hrest : path = "modules." ++ (wid.text ++ (".externals." ++ key)) := by rw [hpath, String.append_assoc]
  have hsplit : ∀ (w : WorkloadId) (k : String), splitOnce '.' (w.text ++ (".externals." ++ k)).toList =
      some (w.text.toList, ("externals." ++ k).toList) := by
    intro w k
    rw [← splitOnce_append w.no_dot]
    simp
  rcases Asks.modules h hrest with ⟨wid', m, -, -, heq⟩ | ⟨wid', m, key', ext, id, hm, hext, hid, hx, heq⟩
  · have hdot : '.' ∈ wid'.text.toList := by
      rw [← heq]
      simp
    exact absurd hdot wid'.no_dot
  · rw [String.append_assoc] at heq
    have hboth := (hsplit wid key).symm.trans ((congrArg (splitOnce '.' ·.toList) heq).trans (hsplit wid' key'))
    obtain ⟨hwid, hkey⟩ := Prod.mk.inj (Option.some.inj hboth)
    obtain rfl : wid = wid' := by
      cases wid
      cases wid'
      cases String.toList_injective hwid
      rfl
    obtain rfl : key = key' := by simpa using String.toList_injective hkey
    exact ⟨m, ext, id, hm, hext, hid, hx⟩

theorem edge_of_external (hg : buildGraph input = .ok g) (hb : expandInput input = .ok b) {ext : External} {rid : ResId}
    (hn : g.nodes[workload wid m]? = some n) (hm : input.set.modules[wid]? = some m)
    (hext : m.externals[key]? = some ext) (hid : externalId wid key ext = .ok rid) :
    { ty := ext.ty, cls := ext.cls, id := rid } ∈ n.dependsOn :=
  (built_dependsOn_iff hg hb hn).2 (.inl (.inl (.set (mem_seeds.2 (.needs hm hext hid)))))

theorem mem_dependsOn_of_key (hg : buildGraph input = .ok g) (hb : expandInput input = .ok b) (hn : g.nodes[d]? = some n)
    {other : Node} (hother : g.nodes[x]? = some other) (hr : r ∈ other.requests) (hown : own ∈ ownPaths n)
    (hkey : externalKey own r = some key) : x ∈ n.dependsOn := by
  obtain ⟨wid, m, hm, rfl, rfl⟩ := (mem_ownPaths hg hn).1 hown
  obtain ⟨m', ext, rid, hm', hext, hid, rfl⟩ := Asks.external_of (built_asks hg hother hr) (externalKey_eq_some.1 hkey)
  rw [hm] at hm'
  cases hm'
  exact edge_of_external hg hb hn hm hext hid

section
variable {dep : Engine.Deployment} {done done' : BTreeMap Descriptor ResourceOutputs}

theorem keyedExternals_congr (hg : buildGraph input = .ok dep.graph) (hb : expandInput input = .ok b)
    (hn : dep.graph.nodes[d]? = some n) (h : ∀ t ∈ n.dependsOn, done[t]? = done'[t]?) :
    dep.keyedExternals n done = dep.keyedExternals n done' := by
  unfold keyedExternals finished
  rw [flatMap_assoc, flatMap_assoc]
  refine flatMap_congr fun ⟨x, other⟩ hmem => ?_
  have hother := Std.ExtTreeMap.mem_toList_iff_getElem?_eq_some.1 hmem
  have hdesc := built_descriptor hg hother
  dsimp only
  by_cases hx : x ∈ n.dependsOn
  · have hsame : done[other.descriptor]? = done'[other.descriptor]? := by rw [hdesc, h x hx]
    rw [hsame]
  · have hnone : ∀ outputs : ResourceOutputs, ((other.requests.map fun r => (other, r, outputs)).flatMap fun y =>
        (ownPaths n).filterMap fun own => (externalKey own y.2.1).map fun key => (key, y.1.descriptor, y.2.2)) = [] := by
      intro outputs
      simp only [flatMap_eq_nil_iff, filterMap_eq_nil_iff, mem_map, Option.map_eq_none_iff]
      rintro _ ⟨r, hr, rfl⟩ own hown
      cases hkey : externalKey own r with
      | none => rfl
      | some key => exact absurd (mem_dependsOn_of_key hg hb hn hother hr hown hkey) hx
    cases done[other.descriptor]? with
    | none =>
      cases done'[other.descriptor]? with
      | none => rfl
      | some outputs => exact (hnone outputs).symm
    | some outputs =>
      cases done'[other.descriptor]? with
      | none => exact hnone outputs
      | some outputs' => exact (hnone outputs).trans (hnone outputs').symm

theorem externalScope_congr (hg : buildGraph input = .ok dep.graph) (hb : expandInput input = .ok b)
    (hn : dep.graph.nodes[d]? = some n) (h : ∀ t ∈ n.dependsOn, done[t]? = done'[t]?) :
    dep.externalScope n done = dep.externalScope n done' := by
  have hkeyed := keyedExternals_congr hg hb hn h
  have hco : dep.coExternals n done = dep.coExternals n done' := by
    unfold coExternals
    rw [hkeyed]
    split
    · rfl
    · refine filterMap_congr fun t ht => ?_
      rw [h t (Std.ExtTreeSet.mem_toList.1 ht)]
  unfold externalScope
  rw [hkeyed, hco]

def provides (id : String) (other : Node) : Bool := other.requests.any fun r => sharedId other r = some id

def Engine.Deployment.providers (dep : Engine.Deployment) (id : String) : List Descriptor :=
  ((dep.graph.nodes.toList.map (·.2)).filter (provides id)).map (·.descriptor)

/-- The step of `scope_for`'s loop that files outputs under a shared ID. -/
def fileShared (m : BTreeMap String ResourceOutputs) (x : Node × Request × ResourceOutputs) : BTreeMap String ResourceOutputs :=
  (sharedId x.1 x.2.1).elim m fun id => m.insert id x.2.2

theorem foldl_fileShared (id : String) (other : Node) (outputs : ResourceOutputs) (m : BTreeMap String ResourceOutputs) :
    ((other.requests.map fun r => (other, r, outputs)).foldl fileShared m)[id]? =
      if provides id other then some outputs else m[id]? := by
  unfold provides
  induction other.requests generalizing m with
  | nil => rfl
  | cons r rs ih =>
    rw [map_cons, foldl_cons, ih, any_cons]
    cases hid : sharedId other r with
    | none => simp [fileShared, hid]
    | some id' =>
      simp only [fileShared, hid, Option.elim_some, BTreeMap.get_insert]
      by_cases heq : id' = id
      · simp [heq]
      · simp [heq]

theorem sharedScope_get (dep : Engine.Deployment) (done : BTreeMap Descriptor ResourceOutputs) (id : String) :
    (dep.sharedScope done)[id]? = ((dep.providers id).filterMap (done[·]?)).getLast? := by
  have hfinished : dep.finished done = dep.graph.nodes.toList.flatMap fun x => (done[x.2.descriptor]?).elim [] fun outputs =>
      x.2.requests.map fun r => (x.2, r, outputs) := by
    refine flatMap_congr fun x _ => ?_
    obtain ⟨d, other⟩ := x
    dsimp only
    cases done[other.descriptor]? <;> rfl
  have hfold : ∀ (nodes : List (Descriptor × Node)) (m : BTreeMap String ResourceOutputs),
      ((nodes.flatMap fun x => (done[x.2.descriptor]?).elim [] fun outputs =>
        x.2.requests.map fun r => (x.2, r, outputs)).foldl fileShared m)[id]? =
      ((((nodes.map (·.2)).filter (provides id)).map (·.descriptor)).filterMap (done[·]?)).getLast?.or m[id]? := by
    intro nodes
    induction nodes with
    | nil => intro m; rfl
    | cons x nodes ih =>
      intro m
      rw [flatMap_cons, foldl_append, ih, map_cons, filter_cons]
      cases hdone : done[x.2.descriptor]? with
      | none =>
        rw [Option.elim_none, foldl_nil]
        split
        · rw [map_cons, filterMap_cons_none hdone]
        · rfl
      | some outputs =>
        rw [Option.elim_some, foldl_fileShared]
        by_cases hp : provides id x.2 = true
        · rw [if_pos hp, if_pos hp, map_cons, filterMap_cons_some hdone, getLast?_cons]
          cases List.getLast? _ <;> rfl
        · rw [if_neg hp, if_neg hp]
  have h := hfold dep.graph.nodes.toList ∅
  rw [Std.ExtTreeMap.getElem?_empty, Option.or_none, ← hfinished] at h
  exact h

end

end Openporch
