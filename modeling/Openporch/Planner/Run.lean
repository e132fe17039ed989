import Openporch.Planner.DeletionChecks
import Openporch.Planner.Preview

/-!
# A run of a deployment

`Planner::run`: the checks before anything runs, the loop that starts each node once what it depends on has provisioned,
the deletions of a deployment that converged, and the error that the deployment finishes with.
-/

namespace Openporch
open Loops Tasking List Std.ExtTreeMap BTreeMap

variable {W : Type}

/-- What a run meets: the clock, what the checks and the store answer, and how and in which order the tasks end. Time
does not go back, and a task is pending only when the time is up. -/
structure RunWorld (W : Type) where
  now : W → Nat
  /-- The world once the clock was read. -/
  read : W → W
  /-- Why an artifact that the node names is missing. -/
  artifact : Node → W → Option String × W
  /-- Why the version of the code that the node is pinned to is missing. -/
  pin : Node → W → Option String × W
  inventory : W → (Result Inventory × Result (List Tombstone)) × W
  decode : Json → Except String JobInputs
  retained : W → (Descriptor → Resource → Recorded → Except String Unit) × W
  pick : W → Nat × W
  /-- The task of a node, with what had provisioned when it was started. -/
  task : Nat → Descriptor × BTreeMap Descriptor ResourceOutputs → W → NodeEnd × W
  deletion : Nat → Descriptor → W → DeletionEnd × W
  /-- How many lines of the log could not be stored, given the world that the deletions start in. -/
  lost : W → Nat
  read_le : ∀ w, now w ≤ now (read w)
  pick_le : ∀ w, now w ≤ now (pick w).2
  task_le : ∀ deadline t w, now w ≤ now (task deadline t w).2
  task_pending : ∀ deadline t w error, (task deadline t w).1 = .pending error → deadline ≤ now (task deadline t w).2

structure NodeProgress where
  outcomes : BTreeMap Descriptor Outcome := ∅
  done : BTreeMap Descriptor ResourceOutputs := ∅

def NodeProgress.join (p : NodeProgress) (d : Descriptor) (e : NodeEnd) : NodeProgress :=
  { outcomes := p.outcomes.insert d e.outcome
    done := match e with
      | .provisioned outputs => p.done.insert d outputs
      | _ => p.done }

structure RunResult (W : Type) where
  outcomes : BTreeMap Descriptor Outcome
  /-- What the checks found missing. -/
  missing : BTreeMap Descriptor String
  /-- What the tasks of the nodes did, in order. -/
  log : List (Event Descriptor NodeEnd)
  deletions : List (Event Descriptor DeletionEnd)
  listed : Except String Unit
  lost : Nat
  error : Option String
  /-- Once the nodes are decided. -/
  world : W

namespace RunWorld
variable (world : RunWorld W) (deadline : Nat) (graph : ResourceGraph) (teardown : Bool)

def late (w : W) : Bool × W := (deadline ≤ world.now w, world.read w)

def checkNode (check : Node → W → Option String × W) (acc : BTreeMap Descriptor String × W) (x : Descriptor × Node) :
    BTreeMap Descriptor String × W :=
  match check x.2 acc.2 with
  | (some reason, w) => (acc.1.insert x.1 reason, w)
  | (none, w) => (acc.1, w)

def checkNodes (check : Node → W → Option String × W) (w : W) : BTreeMap Descriptor String × W :=
  graph.nodes.toList.foldl (checkNode check) (∅, w)

structure Checked (W : Type) where
  missing : BTreeMap Descriptor String
  why : String
  world : W

def checkAll (w : W) : Checked W :=
  let (missing, w) := checkNodes graph world.artifact w
  if !missing.isEmpty then ⟨missing, "not started: an artifact the deployment needs is missing", w⟩
  else
    let (missing, w) := checkNodes graph world.pin w
    if !missing.isEmpty then ⟨missing, "not started: a version of the code the deployment replays is missing", w⟩
    else
      let ((active, tombstones), w) := world.inventory w
      let (retained, w) := world.retained w
      ⟨checkDeletions graph teardown (active.map (·.rows)) tombstones world.decode retained,
        "not started: a resource the deployment deletes cannot be deleted", w⟩

def refuseNode (missing : BTreeMap Descriptor String) (why : String) (outcomes : BTreeMap Descriptor Outcome) (d : Descriptor) :
    BTreeMap Descriptor Outcome :=
  if missing.contains d then outcomes else outcomes.insert d (.pending why)

def refused (missing : BTreeMap Descriptor String) (why : String) : BTreeMap Descriptor Outcome :=
  graph.nodes.keys.foldl (refuseNode missing why) (missing.map fun _ reason => .failed reason)

def nodeReady (done : BTreeMap Descriptor ResourceOutputs) (n : Node) : Bool := n.dependsOn.toList.all done.contains

def nodeTasks : Tasks Descriptor (Descriptor × BTreeMap Descriptor ResourceOutputs) NodeEnd NodeProgress W where
  items := graph.nodes.keys
  ready p d := graph.nodes[d]?.any (nodeReady p.done)
  late := world.late deadline
  spawn p d := (d, p.done)
  pick := world.pick
  finish := world.task deadline
  join := NodeProgress.join

def runNodes (checked : Checked W) : State Descriptor (Descriptor × BTreeMap Descriptor ResourceOutputs) NodeEnd NodeProgress W :=
  if checked.missing.isEmpty then (world.nodeTasks deadline graph).run checked.world {}
  else { world := checked.world, acc := { outcomes := refused graph checked.missing checked.why } }

def waitsFor (outcomes : BTreeMap Descriptor Outcome) (n : Node) : Option Descriptor :=
  n.dependsOn.toList.find? fun dep => outcomes[dep]? ≠ some .provisioned

def leaveNode (acc : BTreeMap Descriptor Outcome × W) (x : Descriptor × Node) : BTreeMap Descriptor Outcome × W :=
  if acc.1.contains x.1 then acc
  else match waitsFor acc.1 x.2 with
    | some dep => (acc.1.insert x.1 (.pending ("waiting for `" ++ dep.text ++ "`")), acc.2)
    | none =>
      let (late, w) := world.late deadline acc.2
      (acc.1.insert x.1 (.pending (if late then "the deployment ran out of time" else "not started")), w)

def leaveNodes (acc : BTreeMap Descriptor Outcome × W) : BTreeMap Descriptor Outcome × W :=
  graph.nodes.toList.foldl (world.leaveNode deadline) acc

end RunWorld

variable (x : Descriptor × Outcome)

def failedText : Option String :=
  match x.2 with
  | .failed e => some ("`" ++ x.1.text ++ "` failed: " ++ e)
  | .cleanupPending e => some ("`" ++ x.1.text ++ "` failed: cleanup pending: " ++ e)
  | _ => none

def unknownText : Option String :=
  match x.2 with
  | .unknown e => some ("`" ++ x.1.text ++ "` has an unknown outcome and needs recovery: " ++ e)
  | _ => none

def Outcome.isPending : Outcome → Bool
  | .pending _ => true
  | _ => false

def summary (outcomes : BTreeMap Descriptor Outcome) : Option String :=
  let failed := outcomes.toList.filterMap failedText
  let unknown := outcomes.toList.filterMap unknownText
  let pending := outcomes.toList.countP (·.2.isPending)
  if failed.isEmpty && unknown.isEmpty && pending = 0 then none
  else some ("; ".intercalate (unknown ++ failed ++
    if 0 < pending then [toString pending ++ " resource(s) not started"] else []))

def withListed (error : Option String) (listed : Except String Unit) : Option String :=
  match error, listed with
  | error, .ok () => error
  | none, .error e => some e
  | some error, .error e => some (error ++ "; " ++ e)

def withLostLines (error : Option String) (lost : Nat) : Option String :=
  match error, lost with
  | error, 0 => error
  | none, n => some (toString n ++ " log lines could not be stored")
  | some e, n => some (e ++ "; " ++ toString n ++ " log lines could not be stored")

namespace RunWorld
variable (world : RunWorld W)

def deletions (deadline : Nat) : DeletionWorld W where
  late := world.late deadline
  pick := world.pick
  finish := world.deletion deadline

def converged (outcomes : BTreeMap Descriptor Outcome) : Bool := outcomes.toList.all (·.2 = .provisioned)

def run (limit : Nat) (graph : ResourceGraph) (teardown : Bool) (w : W) : RunResult W :=
  let deadline := world.now w + limit
  let checked := world.checkAll graph teardown (world.read w)
  let s := world.runNodes deadline graph checked
  let (outcomes, w) := world.leaveNodes deadline graph (s.acc.outcomes, s.world)
  let ((active, tombstones), w') := world.inventory w
  let d := deprovision (world.deletions deadline) graph teardown (active.map (·.rows)) tombstones (converged outcomes) outcomes w'
  let lost := world.lost w'
  { outcomes := d.outcomes, missing := checked.missing, log := s.log, deletions := d.log, listed := d.listed, lost
    error := withLostLines (withListed (summary d.outcomes) d.listed) lost, world := w }

end RunWorld

theorem NodeProgress.get_join (p : NodeProgress) (k d : Descriptor) (e : NodeEnd) :
    (p.join k e).outcomes[d]? = if k = d then some e.outcome else p.outcomes[d]? := get_insert

theorem NodeProgress.mem_done_join {p : NodeProgress} {k d : Descriptor} {e : NodeEnd} :
    d ∈ (p.join k e).done ↔ d ∈ p.done ∨ k = d ∧ ∃ outputs, e = .provisioned outputs := by
  cases e with
  | provisioned outputs =>
    have hjoin : (p.join k (.provisioned outputs)).done = p.done.insert k outputs := rfl
    rw [hjoin, mem_insert, Std.LawfulEqOrd.compare_eq_iff_eq, or_comm]
    simp
  | _ => simp [join]

namespace RunWorld

section Nodes
variable {world : RunWorld W} {deadline : Nat} {graph : ResourceGraph} {log : List (Event Descriptor NodeEnd)} {d : Descriptor}

theorem mem_done : d ∈ ((world.nodeTasks deadline graph).replay {} log).done ↔
    ∃ outputs, .ended d (.provisioned outputs) ∈ log := by
  have h := Tasks.holds_replay (t := world.nodeTasks deadline graph) (M := fun p => d ∈ p.done)
    (fun _ _ _ => NodeProgress.mem_done_join) {} log
  simpa [and_assoc] using h

theorem get_replay (h : (world.nodeTasks deadline graph).Lawful {} log) (d : Descriptor) :
    (∀ e, .ended d e ∈ log → ((world.nodeTasks deadline graph).replay {} log).outcomes[d]? = some e.outcome) ∧
      ((∀ e, .ended d e ∉ log) → ((world.nodeTasks deadline graph).replay {} log).outcomes[d]? = none) := by
  have hview := h.view (k := d) (fun p d => p.outcomes[d]?) NodeEnd.outcome
    (fun p k e => (p.get_join k k e).trans (if_pos rfl)) fun p k e k' hk => (p.get_join k k' e).trans (if_neg hk)
  exact ⟨hview.1, fun hnone => (hview.2 hnone).trans getElem?_empty⟩

theorem nodeReady_iff {done} {n : Node} : nodeReady done n = true ↔ ∀ dep ∈ n.dependsOn, dep ∈ done := by
  simp [nodeReady]

def TimeUp (world : RunWorld W) (deadline : Nat) (log : List (Event Descriptor NodeEnd)) (w : W) : Prop :=
  (∃ d, .late d ∈ log ∨ ∃ error, .ended d (.pending error) ∈ log) → deadline ≤ world.now w

theorem TimeUp.mono {w w' : W} (h : world.TimeUp deadline log w) (hle : world.now w ≤ world.now w') :
    world.TimeUp deadline log w' :=
  fun hlog => Nat.le_trans (h hlog) hle

theorem timeUp_kept (world : RunWorld W) (deadline : Nat) (graph : ResourceGraph) :
    (world.nodeTasks deadline graph).Kept fun s => world.TimeUp deadline s.log s.world where
  late := by
    intro s k _ _ _ hlate _ _
    exact Nat.le_trans (of_decide_eq_true hlate) (world.read_le s.world)
  spawned := by
    rintro s k - - - hs ⟨d, hd⟩
    refine hs.mono (world.read_le s.world) ⟨d, ?_⟩
    simpa using hd
  ended := by
    rintro s i hs ⟨d, hd⟩
    let w := (world.pick s.world).2
    have hle : world.now w ≤ world.now (world.task deadline (s.running.get i).2 w).2 := world.task_le _ _ _
    rcases hd with hd | ⟨error, hd⟩
    · refine hs.mono (Nat.le_trans (world.pick_le s.world) hle) ⟨d, .inl ?_⟩
      simpa [Tasks.joinAt] using hd
    · rcases mem_append.1 hd with hd | hd
      · exact hs.mono (Nat.le_trans (world.pick_le s.world) hle) ⟨d, .inr ⟨error, hd⟩⟩
      · obtain ⟨-, hend⟩ := Event.ended.inj (mem_singleton.1 hd)
        exact world.task_pending deadline _ w error hend.symm

end Nodes

section Refused
variable {missing : BTreeMap Descriptor String} {d : Descriptor} (graph : ResourceGraph) (why : String)

theorem foldl_refuseNode (l : List Descriptor) (outcomes : BTreeMap Descriptor Outcome) :
    (l.foldl (refuseNode missing why) outcomes)[d]? =
      if missing.contains d = false ∧ d ∈ l then some (.pending why) else outcomes[d]? := by
  induction l generalizing outcomes with
  | nil => simp
  | cons k l ih =>
    rw [foldl_cons, ih]
    unfold refuseNode
    by_cases hk : k = d
    · subst hk
      by_cases hl : k ∈ l <;> cases hmissing : missing.contains k <;> simp [hl]
    · have hne : d ≠ k := fun h => hk h.symm
      simp only [mem_cons, hne, false_or]
      split
      · rfl
      · split
        · rfl
        · rw [get_insert, if_neg hk]

theorem refused_of_missing {reason : String} (h : missing[d]? = some reason) :
    (refused graph missing why)[d]? = some (.failed reason) := by
  have hcontains : missing.contains d = true := contains_iff_mem.2 (mem_iff.2 ⟨reason, h⟩)
  simp [refused, foldl_refuseNode, hcontains, h]

theorem refused_of_node (h : missing[d]? = none) (hd : d ∈ graph.nodes) :
    (refused graph missing why)[d]? = some (.pending why) := by
  simp only [refused, foldl_refuseNode, get_eq_none.1 h, mem_keys.2 hd, and_self, if_true]

end Refused

section Leave
variable (world : RunWorld W) (deadline : Nat)

theorem leaveNode_spec (acc : BTreeMap Descriptor Outcome × W) (x : Descriptor × Node) :
    (∀ d ∈ acc.1, (world.leaveNode deadline acc x).1[d]? = acc.1[d]?) ∧
      (∀ d, d ≠ x.1 → (world.leaveNode deadline acc x).1[d]? = acc.1[d]?) ∧
      (x.1 ∉ acc.1 → ∃ reason, (world.leaveNode deadline acc x).1[x.1]? = some (.pending reason)) ∧
      world.now acc.2 ≤ world.now (world.leaveNode deadline acc x).2 := by
  have hinsert : ∀ (reason : String), x.1 ∉ acc.1 → (∀ d ∈ acc.1, (acc.1.insert x.1 (.pending reason))[d]? = acc.1[d]?) ∧
      (∀ d, d ≠ x.1 → (acc.1.insert x.1 (.pending reason))[d]? = acc.1[d]?) := by
    refine fun reason hx => ⟨fun d hd => ?_, fun d hd => ?_⟩
    · rw [get_insert, if_neg fun (h : x.1 = d) => hx (h ▸ hd)]
    · rw [get_insert, if_neg hd.symm]
  unfold leaveNode
  split
  · rename_i hx
    exact ⟨fun _ _ => rfl, fun _ _ => rfl, fun hnot => absurd (Std.ExtTreeMap.contains_iff_mem.1 hx) hnot, Nat.le_refl _⟩
  · rename_i hx
    rw [Std.ExtTreeMap.contains_iff_mem] at hx
    split
    · exact ⟨(hinsert _ hx).1, (hinsert _ hx).2, fun _ => ⟨_, get_insert.trans (if_pos rfl)⟩, Nat.le_refl _⟩
    · exact ⟨(hinsert _ hx).1, (hinsert _ hx).2, fun _ => ⟨_, get_insert.trans (if_pos rfl)⟩, world.read_le _⟩

theorem foldl_leaveNode (l : List (Descriptor × Node)) (acc : BTreeMap Descriptor Outcome × W) :
    (∀ d ∈ acc.1, (l.foldl (world.leaveNode deadline) acc).1[d]? = acc.1[d]?) ∧
      (∀ d, d ∉ acc.1 → d ∈ l.map (·.1) → ∃ reason, (l.foldl (world.leaveNode deadline) acc).1[d]? = some (.pending reason)) ∧
      (∀ d, d ∉ acc.1 → d ∉ l.map (·.1) → (l.foldl (world.leaveNode deadline) acc).1[d]? = none) ∧
      world.now acc.2 ≤ world.now (l.foldl (world.leaveNode deadline) acc).2 := by
  induction l generalizing acc with
  | nil => exact ⟨fun _ _ => rfl, by simp, fun d hd _ => getElem?_eq_none hd, Nat.le_refl _⟩
  | cons x l ih =>
    obtain ⟨hkeep, hother, hleft, hnow⟩ := world.leaveNode_spec deadline acc x
    obtain ⟨hkeeps, hlefts, habsent, hnows⟩ := ih (world.leaveNode deadline acc x)
    have hmem : ∀ {d o}, (world.leaveNode deadline acc x).1[d]? = some o → d ∈ (world.leaveNode deadline acc x).1 :=
      fun h => mem_iff.2 ⟨_, h⟩
    have hnotMem : ∀ {d}, d ∉ acc.1 → d ≠ x.1 → d ∉ (world.leaveNode deadline acc x).1 := fun hd hne hin => by
      obtain ⟨o, ho⟩ := mem_iff.1 hin
      exact hd (mem_iff.2 ⟨o, (hother _ hne).symm.trans ho⟩)
    rw [foldl_cons]
    refine ⟨fun d hd => ?_, fun d hd hin => ?_, fun d hd hout => ?_, Nat.le_trans hnow hnows⟩
    · obtain ⟨o, ho⟩ := mem_iff.1 hd
      exact (hkeeps d (hmem ((hkeep d hd).trans ho))).trans (hkeep d hd)
    · by_cases hx : d = x.1
      · subst hx
        obtain ⟨reason, hreason⟩ := hleft hd
        exact ⟨reason, (hkeeps _ (hmem hreason)).trans hreason⟩
      · exact hlefts d (hnotMem hd hx) ((mem_cons.1 hin).resolve_left hx)
    · rw [map_cons, mem_cons, not_or] at hout
      exact habsent d (hnotMem hd hout.1) hout.2

theorem leaveNodes_spec (graph : ResourceGraph) (acc : BTreeMap Descriptor Outcome × W) :
    (∀ (d : Descriptor) (o : Outcome), acc.1[d]? = some o → (world.leaveNodes deadline graph acc).1[d]? = some o) ∧
      (∀ d ∈ graph.nodes, acc.1[d]? = none → ∃ reason, (world.leaveNodes deadline graph acc).1[d]? = some (.pending reason)) ∧
      (∀ (d : Descriptor), d ∉ graph.nodes → acc.1[d]? = none → (world.leaveNodes deadline graph acc).1[d]? = none) ∧
      world.now acc.2 ≤ world.now (world.leaveNodes deadline graph acc).2 := by
  obtain ⟨hkeep, hleft, habsent, hnow⟩ := world.foldl_leaveNode deadline graph.nodes.toList acc
  rw [Std.ExtTreeMap.map_fst_toList_eq_keys] at hleft habsent
  have hnot : ∀ {d : Descriptor}, acc.1[d]? = none → d ∉ acc.1 := fun h hin => by
    rw [← Std.ExtTreeMap.contains_iff_mem, get_eq_none.1 h] at hin
    cases hin
  refine ⟨fun d o h => (hkeep d (mem_iff.2 ⟨o, h⟩)).trans h, fun d hd h => ?_, fun d hd h => ?_, hnow⟩
  · exact hleft d (hnot h) (Std.ExtTreeMap.mem_keys.2 hd)
  · exact habsent d (hnot h) fun hin => hd (Std.ExtTreeMap.mem_keys.1 hin)

end Leave

def decided (world : RunWorld W) (deadline : Nat) (graph : ResourceGraph) (checked : Checked W) :
    BTreeMap Descriptor Outcome × W :=
  world.leaveNodes deadline graph
    ((world.runNodes deadline graph checked).acc.outcomes, (world.runNodes deadline graph checked).world)

section Decided
variable (world : RunWorld W) (deadline : Nat) (graph : ResourceGraph) {checked : Checked W} {d : Descriptor}

theorem runNodes_empty (h : checked.missing = ∅) :
    world.runNodes deadline graph checked = (world.nodeTasks deadline graph).run checked.world {} := by
  simp [runNodes, h]

theorem runNodes_missing (h : checked.missing ≠ ∅) : world.runNodes deadline graph checked =
    { world := checked.world, acc := { outcomes := refused graph checked.missing checked.why } } := by
  have hempty : checked.missing.isEmpty = false := by
    rw [← Bool.not_eq_true, Std.ExtTreeMap.isEmpty_iff]
    exact h
  simp [runNodes, hempty]

theorem runNodes_ended (h : checked.missing = ∅) :
    (world.nodeTasks deadline graph).Ended {} (world.runNodes deadline graph checked) ∧
      world.TimeUp deadline (world.runNodes deadline graph checked).log (world.runNodes deadline graph checked).world := by
  rw [world.runNodes_empty deadline graph h]
  refine ⟨Tasks.run_ended _ _, ((timeUp_kept world deadline graph).run ?_).1⟩
  rintro ⟨d, hd⟩
  simp at hd

variable (checked) in
theorem decided_spec :
    (∀ (d : Descriptor) (o : Outcome), (world.runNodes deadline graph checked).acc.outcomes[d]? = some o →
        (world.decided deadline graph checked).1[d]? = some o) ∧
      (∀ d ∈ graph.nodes, (world.runNodes deadline graph checked).acc.outcomes[d]? = none →
        ∃ reason, (world.decided deadline graph checked).1[d]? = some (.pending reason)) ∧
      (∀ (d : Descriptor), d ∉ graph.nodes → (world.runNodes deadline graph checked).acc.outcomes[d]? = none →
        (world.decided deadline graph checked).1[d]? = none) ∧
      world.now (world.runNodes deadline graph checked).world ≤ world.now (world.decided deadline graph checked).2 :=
  world.leaveNodes_spec deadline graph
    ((world.runNodes deadline graph checked).acc.outcomes, (world.runNodes deadline graph checked).world)

theorem decided_missing {reason : String} (h : checked.missing[d]? = some reason) :
    (world.decided deadline graph checked).1[d]? = some (.failed reason) := by
  have hne : checked.missing ≠ ∅ := fun hempty => by simp [hempty] at h
  refine (world.decided_spec deadline graph checked).1 d _ ?_
  rw [world.runNodes_missing deadline graph hne]
  exact refused_of_missing graph checked.why h

theorem decided_refused (hne : checked.missing ≠ ∅) (h : checked.missing[d]? = none) (hd : d ∈ graph.nodes) :
    (world.decided deadline graph checked).1[d]? = some (.pending checked.why) := by
  refine (world.decided_spec deadline graph checked).1 d _ ?_
  rw [world.runNodes_missing deadline graph hne]
  exact refused_of_node graph checked.why h hd

theorem node_of_ended (h : checked.missing = ∅) {e : NodeEnd} (he : .ended d e ∈ (world.runNodes deadline graph checked).log) :
    d ∈ graph.nodes := by
  obtain ⟨hended, -⟩ := world.runNodes_ended deadline graph h
  obtain ⟨pre, post, -, hlog, -⟩ := hended.lawful.of_ended he
  exact mem_keys.1 (hlog ▸ hended.lawful).of_spawned.1

theorem decided_ended (h : checked.missing = ∅) {e : NodeEnd} (he : .ended d e ∈ (world.runNodes deadline graph checked).log) :
    (world.decided deadline graph checked).1[d]? = some e.outcome := by
  obtain ⟨hended, -⟩ := world.runNodes_ended deadline graph h
  refine (world.decided_spec deadline graph checked).1 d _ ?_
  rw [hended.replayed]
  exact (get_replay hended.lawful d).1 e he

theorem decided_never (h : checked.missing = ∅) (hd : d ∈ graph.nodes)
    (hnever : ∀ e, .ended d e ∉ (world.runNodes deadline graph checked).log) :
    ∃ reason, (world.decided deadline graph checked).1[d]? = some (.pending reason) := by
  obtain ⟨hended, -⟩ := world.runNodes_ended deadline graph h
  have hnone := (get_replay hended.lawful d).2 hnever
  rw [← hended.replayed] at hnone
  exact (world.decided_spec deadline graph checked).2.1 d hd hnone

theorem decided_node (checked : Checked W) (hd : d ∈ graph.nodes) :
    ∃ o, (world.decided deadline graph checked).1[d]? = some o := by
  cases hacc : (world.runNodes deadline graph checked).acc.outcomes[d]? with
  | some o => exact ⟨o, (world.decided_spec deadline graph checked).1 d o hacc⟩
  | none =>
    obtain ⟨reason, hreason⟩ := (world.decided_spec deadline graph checked).2.1 d hd hacc
    exact ⟨_, hreason⟩

theorem decided_timeUp (h : checked.missing = ∅) :
    world.TimeUp deadline (world.runNodes deadline graph checked).log (world.decided deadline graph checked).2 :=
  (world.runNodes_ended deadline graph h).2.mono (world.decided_spec deadline graph checked).2.2.2

theorem waits_of_not_spawned (h : checked.missing = ∅) {n : Node} (hn : graph.nodes[d]? = some n)
    (hnot : .spawned d ∉ (world.runNodes deadline graph checked).log) :
    (∃ dep ∈ n.dependsOn, dep ∈ graph.nodes → (world.decided deadline graph checked).1[dep]? ≠ some .provisioned) ∨
      deadline ≤ world.now (world.decided deadline graph checked).2 := by
  obtain ⟨hended, -⟩ := world.runNodes_ended deadline graph h
  by_cases hlate : .late d ∈ (world.runNodes deadline graph checked).log
  · exact .inr (world.decided_timeUp deadline graph h ⟨d, .inl hlate⟩)
  · have hitem : d ∈ graph.nodes.keys := mem_keys.2 (mem_iff.2 ⟨n, hn⟩)
    have hready := hended.stable d hitem fun hs => hs.elim hnot hlate
    change (graph.nodes[d]?.any _) = false at hready
    rw [hn, Option.any_some, ← Bool.not_eq_true, nodeReady_iff] at hready
    push Not at hready
    obtain ⟨dep, hdep, hdone⟩ := hready
    rw [hended.replayed, mem_done] at hdone
    refine .inl ⟨dep, hdep, fun hnode hprov => hdone ?_⟩
    by_cases hend : ∃ e, .ended dep e ∈ (world.runNodes deadline graph checked).log
    · obtain ⟨e, he⟩ := hend
      rw [world.decided_ended deadline graph h he] at hprov
      cases e <;> first | exact ⟨_, he⟩ | cases hprov
    · push Not at hend
      obtain ⟨reason, hreason⟩ := world.decided_never deadline graph h hnode hend
      rw [hreason] at hprov
      cases hprov

end Decided

theorem converged_iff {outcomes} :
    converged outcomes = true ↔ ∀ (d : Descriptor) (o : Outcome), outcomes[d]? = some o → o = .provisioned := by
  simp only [converged, all_eq_true, decide_eq_true_eq]
  refine ⟨fun h d o ho => h (d, o) (mem_toList_iff_getElem?_eq_some.2 ho), fun h x hx => ?_⟩
  exact h x.1 x.2 (mem_toList_iff_getElem?_eq_some.1 hx)

end RunWorld

def Outcome.Fine (o : Outcome) : Prop := o = .provisioned ∨ o = .deleted ∨ ∃ reason, o = .kept reason

theorem Outcome.fine_iff :
    x.2.Fine ↔ failedText x = none ∧ unknownText x = none ∧ x.2.isPending = false := by
  obtain ⟨d, o⟩ := x
  cases o <;> simp [Fine, failedText, unknownText, isPending]

theorem summary_eq_none {outcomes} :
    summary outcomes = none ↔ ∀ (d : Descriptor) (o : Outcome), outcomes[d]? = some o → o.Fine := by
  have hfine : summary outcomes = none ↔ ∀ x ∈ outcomes.toList, x.2.Fine := by
    simp only [summary, ite_eq_left_iff, reduceCtorEq, imp_false, not_not, Bool.and_eq_true, List.isEmpty_iff,
      filterMap_eq_nil_iff, decide_eq_true_eq, countP_eq_zero, Bool.not_eq_true, Outcome.fine_iff]
    exact ⟨fun h x hx => ⟨h.1.1 x hx, h.1.2 x hx, h.2 x hx⟩,
      fun h => ⟨⟨fun x hx => (h x hx).1, fun x hx => (h x hx).2.1⟩, fun x hx => (h x hx).2.2⟩⟩
  rw [hfine]
  refine ⟨fun h d o ho => h (d, o) (mem_toList_iff_getElem?_eq_some.2 ho), fun h x hx => ?_⟩
  exact h x.1 x.2 (mem_toList_iff_getElem?_eq_some.1 hx)

theorem withListed_eq_none {error : Option String} {listed} :
    withListed error listed = none ↔ error = none ∧ listed = .ok () := by
  cases error <;> cases listed <;> simp [withListed]

theorem withLostLines_eq_none {error : Option String} {lost : Nat} :
    withLostLines error lost = none ↔ error = none ∧ lost = 0 := by
  cases error <;> cases lost <;> simp [withLostLines]

structure RunRespects (world : RunWorld W) (deadline : Nat) (graph : ResourceGraph) (res : RunResult W) : Prop where
  /-- A node's task starts once, after all that the node depends on has provisioned. -/
  after : ∀ pre d post, res.log = pre ++ .spawned d :: post → .spawned d ∉ pre ∧ ∃ n, graph.nodes[d]? = some n ∧
    ∀ dep ∈ n.dependsOn, (∃ outputs, .ended dep (.provisioned outputs) ∈ pre) ∧ res.outcomes[dep]? = some .provisioned
  ended : ∀ d, .spawned d ∈ res.log → ∃ e, .ended d e ∈ res.log
  /-- Every node has an outcome, that of its task if there was one. -/
  outcome : ∀ d ∈ graph.nodes, ∃ o, res.outcomes[d]? = some o ∧ ∀ e, .ended d e ∈ res.log → o = e.outcome
  /-- What a check found missing has failed. -/
  refused : ∀ (d : Descriptor) (reason : String), res.missing[d]? = some reason → res.outcomes[d]? = some (.failed reason)
  /-- Any other node that was not started is pending, for a reason. -/
  waits : ∀ (d : Descriptor) (n : Node), graph.nodes[d]? = some n → d ∉ res.missing → .spawned d ∉ res.log →
    (∃ reason, res.outcomes[d]? = some (.pending reason)) ∧ (res.missing ≠ ∅ ∨
      (∃ dep ∈ n.dependsOn, dep ∈ graph.nodes → res.outcomes[dep]? ≠ some .provisioned) ∨ deadline ≤ world.now res.world)
  /-- One that was started is pending only when the time is up. -/
  pending : ∀ d reason, .spawned d ∈ res.log → res.outcomes[d]? = some (.pending reason) → deadline ≤ world.now res.world
  nothing : res.missing ≠ ∅ → res.log = [] ∧ res.deletions = []
  deletions : res.deletions ≠ [] → ∀ d ∈ graph.nodes, res.outcomes[d]? = some .provisioned
  error : res.error = none ↔
    (∀ (d : Descriptor) (o : Outcome), res.outcomes[d]? = some o → o.Fine) ∧ res.listed = .ok () ∧ res.lost = 0

theorem deprovision_idle (world : DeletionWorld W) (graph : ResourceGraph) (teardown : Bool) (active : Result Inventory)
    (tombstones : Result (List Tombstone)) (outcomes : BTreeMap Descriptor Outcome) (w : W) :
    (deprovision world graph teardown (active.map (·.rows)) tombstones false outcomes w).log = [] := by
  cases active with
  | error e => rfl
  | ok active =>
    change (deprovision world graph teardown (.ok active.rows) tombstones false outcomes w).log = []
    rw [deprovision_not_converged]

namespace RunWorld

theorem not_converged (world : RunWorld W) (deadline : Nat) (graph : ResourceGraph) {checked : Checked W}
    (hne : checked.missing ≠ ∅) :
    converged (world.decided deadline graph checked).1 = false := by
  rw [← Bool.not_eq_true, converged_iff]
  intro hall
  obtain ⟨d, reason, hreason⟩ := exists_of_ne_empty hne
  cases hall d _ (world.decided_missing deadline graph hreason)

section Run
variable (world : RunWorld W) (limit : Nat) (graph : ResourceGraph) (teardown : Bool) (w : W)

theorem run_outcomes {d : Descriptor} {o : Outcome}
    (h : (world.decided (world.now w + limit) graph (world.checkAll graph teardown (world.read w))).1[d]? = some o)
    (hd : d ∈ graph.nodes ∨ (world.run limit graph teardown w).missing ≠ ∅) :
    (world.run limit graph teardown w).outcomes[d]? = some o := by
  exact (deprovision_other _ graph teardown _ _ _ _ _ (mem_iff.2 ⟨o, h⟩)
    (hd.imp_right fun hne => world.not_converged _ graph hne)).trans h

theorem run_nothing (hne : (world.run limit graph teardown w).missing ≠ ∅) :
    (world.run limit graph teardown w).log = [] ∧ (world.run limit graph teardown w).deletions = [] := by
  refine ⟨congrArg State.log (world.runNodes_missing (world.now w + limit) graph hne), ?_⟩
  change (deprovision _ graph teardown _ _ (converged (world.decided _ graph _).1) _ _).log = []
  rw [world.not_converged _ graph hne]
  exact deprovision_idle _ graph teardown _ _ _ _

theorem run_deletions (h : (world.run limit graph teardown w).deletions ≠ []) :
    ∀ d ∈ graph.nodes, (world.run limit graph teardown w).outcomes[d]? = some .provisioned := by
  intro d hd
  let decided := world.decided (world.now w + limit) graph (world.checkAll graph teardown (world.read w))
  have hconverged : converged decided.1 = true := by
    by_contra hnot
    refine h ?_
    change (deprovision _ graph teardown _ _ (converged decided.1) _ _).log = []
    rw [Bool.eq_false_of_not_eq_true hnot]
    exact deprovision_idle _ graph teardown _ _ _ _
  obtain ⟨o, ho⟩ := world.decided_node (world.now w + limit) graph (world.checkAll graph teardown (world.read w)) hd
  rw [world.run_outcomes limit graph teardown w ho (.inl hd), converged_iff.1 hconverged d o ho]

theorem run_error : (world.run limit graph teardown w).error = none ↔
    (∀ (d : Descriptor) (o : Outcome), (world.run limit graph teardown w).outcomes[d]? = some o → o.Fine) ∧
      (world.run limit graph teardown w).listed = .ok () ∧ (world.run limit graph teardown w).lost = 0 := by
  rw [← summary_eq_none, ← and_assoc, ← withListed_eq_none, ← withLostLines_eq_none]
  rfl

/-- A run of a deployment respects its graph, whatever its tasks do and in whatever order they end. -/
theorem run_respects : RunRespects world (world.now w + limit) graph (world.run limit graph teardown w) := by
  let deadline := world.now w + limit
  let checked := world.checkAll graph teardown (world.read w)
  have hstarted : ∀ {d}, .spawned d ∈ (world.run limit graph teardown w).log → checked.missing = ∅ := fun hd => by
    by_contra hne
    rw [(world.run_nothing limit graph teardown w hne).1] at hd
    cases hd
  have houtcome : ∀ {d e}, .ended d e ∈ (world.run limit graph teardown w).log → checked.missing = ∅ →
      (world.run limit graph teardown w).outcomes[d]? = some e.outcome := fun he hempty =>
    world.run_outcomes limit graph teardown w (world.decided_ended deadline graph hempty he)
      (.inl (world.node_of_ended deadline graph hempty he))
  refine ⟨fun pre d post h => ?_, fun d hd => ?_, fun d hd => ?_, fun d reason h => ?_, fun d n hn hd hnot => ?_,
    fun d reason hd hout => ?_, world.run_nothing limit graph teardown w, world.run_deletions limit graph teardown w,
    world.run_error limit graph teardown w⟩
  · have hempty := hstarted (d := d) (by simp [h])
    obtain ⟨hended, -⟩ := world.runNodes_ended deadline graph hempty
    have hlog : (world.runNodes deadline graph checked).log = pre ++ .spawned d :: post := h
    obtain ⟨-, hnew, hready⟩ := (hlog ▸ hended.lawful).of_spawned
    obtain ⟨n, hn, hready⟩ := (Option.any_eq_true _ _).1 hready
    refine ⟨fun hpre => hnew (.inl hpre), n, hn, fun dep hdep => ?_⟩
    obtain ⟨outputs, hdone⟩ := mem_done.1 (nodeReady_iff.1 hready dep hdep)
    exact ⟨⟨outputs, hdone⟩, houtcome (h ▸ mem_append_left _ hdone) hempty⟩
  · exact (world.runNodes_ended deadline graph (hstarted hd)).1.joined d hd
  · obtain ⟨o, ho⟩ := world.decided_node deadline graph checked hd
    have hout := world.run_outcomes limit graph teardown w ho (.inl hd)
    refine ⟨o, hout, fun e he => ?_⟩
    by_cases hempty : checked.missing = ∅
    · exact Option.some.inj (hout.symm.trans (houtcome he hempty))
    · rw [(world.run_nothing limit graph teardown w hempty).1] at he
      cases he
  · have hne : checked.missing ≠ ∅ := fun hempty => by
      rw [show (world.run limit graph teardown w).missing = ∅ from hempty] at h
      cases h
    exact world.run_outcomes limit graph teardown w (world.decided_missing deadline graph h) (.inr hne)
  · have hnode : d ∈ graph.nodes := BTreeMap.mem_iff.2 ⟨n, hn⟩
    by_cases hempty : checked.missing = ∅
    · have hnever : ∀ e, .ended d e ∉ (world.runNodes deadline graph checked).log := fun e he =>
        hnot ((world.runNodes_ended deadline graph hempty).1.lawful.spawned_of_ended he)
      obtain ⟨reason, hreason⟩ := world.decided_never deadline graph hempty hnode hnever
      refine ⟨⟨reason, world.run_outcomes limit graph teardown w hreason (.inl hnode)⟩, .inr ?_⟩
      refine (world.waits_of_not_spawned deadline graph hempty hn hnot).imp_left fun ⟨dep, hdep, hwaits⟩ => ?_
      refine ⟨dep, hdep, fun hin hprov => hwaits hin ?_⟩
      obtain ⟨o, ho⟩ := world.decided_node deadline graph checked hin
      rw [ho, ← world.run_outcomes limit graph teardown w ho (.inl hin), hprov]
    · have hnone : checked.missing[d]? = none := Std.ExtTreeMap.getElem?_eq_none hd
      exact ⟨⟨_, world.run_outcomes limit graph teardown w (world.decided_refused deadline graph hempty hnone hnode)
        (.inl hnode)⟩, .inl hempty⟩
  · have hempty := hstarted hd
    obtain ⟨e, he⟩ := (world.runNodes_ended deadline graph hempty).1.joined d hd
    rw [houtcome he hempty] at hout
    cases e with
    | pending error => exact world.decided_timeUp deadline graph hempty ⟨d, .inr ⟨error, he⟩⟩
    | _ => cases hout

end Run
end RunWorld

def PendingExactly (world : RunWorld W) (deadline : Nat) (graph : ResourceGraph) (res : RunResult W) : Prop :=
  ∀ (d : Descriptor) (n : Node), graph.nodes[d]? = some n → ((∃ reason, res.outcomes[d]? = some (.pending reason)) ↔
    .spawned d ∉ res.log ∧ ((∃ dep ∈ n.dependsOn, res.outcomes[dep]? ≠ some .provisioned) ∨ deadline ≤ world.now res.world ∨
      res.missing ≠ ∅))

def unpinned : RunWorld Unit where
  now _ := 0
  read := id
  artifact _ w := (none, w)
  pin _ w := (some "the commit is gone", w)
  inventory w := ((.ok ⟨[], by simp⟩, .ok []), w)
  decode _ := .ok .absent
  retained w := (fun _ _ _ => .ok (), w)
  pick w := (0, w)
  task _ _ w := (.stopped, w)
  deletion _ _ w := (.deleted, w)
  lost _ := 0
  read_le _ := Nat.le_refl 0
  pick_le _ := Nat.le_refl 0
  task_le _ _ _ := Nat.le_refl 0
  task_pending := nofun

/-- The greeter was never started, and a check failed; but it has failed, and is not pending. -/
theorem unpinned_greeter_fails :
    ¬ PendingExactly unpinned (unpinned.now () + 60) (greeter "" "").graph (unpinned.run 60 (greeter "" "").graph false ()) := by
  intro h
  let d := (greeterNode "").descriptor
  have hmissing : (unpinned.checkAll (greeter "" "").graph false ()).missing[d]? = some "the commit is gone" := by decide +kernel
  have hne : (unpinned.run 60 (greeter "" "").graph false ()).missing ≠ ∅ := fun hempty => by
    rw [show (unpinned.checkAll (greeter "" "").graph false ()).missing = ∅ from hempty] at hmissing
    cases hmissing
  have hnode : (greeter "" "").graph.nodes[d]? = some (greeterNode "") := by simp [greeter, d]
  have hfailed := unpinned.run_outcomes 60 (greeter "" "").graph false ()
    (unpinned.decided_missing 60 (greeter "" "").graph hmissing) (.inr hne)
  obtain ⟨reason, hpending⟩ := (h d (greeterNode "") hnode).2
    ⟨by rw [(unpinned.run_nothing 60 _ false () hne).1]; simp, .inr (.inr hne)⟩
  rw [hfailed] at hpending
  cases hpending

end Openporch
