import Openporch.GraphLayers
import Openporch.GraphOrder

/-!
# The graph that is built

`match_dependents` closes the edges under one rule, so the graph that `build_graph` returns is known from the operations
of the input: its nodes, its edges, and its layers.
-/

namespace Openporch
open Fallible Relation List GraphInput Std.ExtTreeMap

namespace Builder
variable {b b' b1 b2 : Builder} {x y t : Descriptor}

def Edge (b : Builder) (x t : Descriptor) : Prop := ∃ n, b.nodes[x]? = some n ∧ t ∈ n.dependsOn

def bare (n : Node) : Node := { n with dependsOn := ∅ }

structure SameNodes (b b' : Builder) : Prop where
  nodes : ∀ d : Descriptor, b'.nodes[d]?.map bare = b.nodes[d]?.map bare
  co : b'.co = b.co

theorem SameNodes.refl (b : Builder) : SameNodes b b := ⟨fun _ => rfl, rfl⟩

theorem SameNodes.trans (h : SameNodes b b1) (h' : SameNodes b1 b2) : SameNodes b b2 :=
  ⟨fun d => (h'.nodes d).trans (h.nodes d), h'.co.trans h.co⟩

theorem SameNodes.get (h : SameNodes b b') {n' : Node} (hn : b'.nodes[x]? = some n') :
    ∃ n, b.nodes[x]? = some n ∧ bare n' = bare n := by
  have hx := h.nodes x
  rw [hn, Option.map_some] at hx
  obtain ⟨n, hn, heq⟩ := Option.map_eq_some_iff.1 hx.symm
  exact ⟨n, hn, heq.symm⟩

theorem SameNodes.mem (h : SameNodes b b') : x ∈ b'.nodes ↔ x ∈ b.nodes := by
  rw [mem_iff_isSome_getElem?, mem_iff_isSome_getElem?, ← Option.isSome_map, h.nodes,
    Option.isSome_map]

def Filed (b : Builder) : Prop := ∀ (d : Descriptor) (n : Node), b.nodes[d]? = some n → n.descriptor = d

theorem Filed.same (h : b.Filed) (hs : SameNodes b b') : b'.Filed := fun d n' hn' => by
  obtain ⟨n, hn, heq⟩ := hs.get hn'
  have hdescriptor : (bare n').descriptor = (bare n).descriptor := heq ▸ rfl
  exact hdescriptor.trans (h d n hn)

theorem edge_spec (hx : x ∈ b.nodes) : ∃ b' new, b.edge x t = .ok (b', new) ∧ SameNodes b b' ∧
    (∀ y u, b'.Edge y u ↔ b.Edge y u ∨ y = x ∧ u = t) ∧ (new = true ↔ ¬ b.Edge x t) := by
  obtain ⟨n, hn⟩ := BTreeMap.mem_iff.1 hx
  have hedge : b.edge x t = .ok ({ b with nodes := b.nodes.insert x { n with dependsOn := n.dependsOn.insert t } },
      !n.dependsOn.contains t) := by
    simp only [edge, hn]
  refine ⟨_, _, hedge, ⟨fun d => ?_, rfl⟩, fun y u => ?_, ?_⟩
  · by_cases hd : x = d
    · subst hd
      simp [hn, bare]
    · simp [BTreeMap.get_insert, hd]
  · simp only [Edge, BTreeMap.get_insert]
    by_cases hy : x = y
    · subst hy
      simp only [if_true, Option.some.injEq, exists_eq_left', BTreeSet.mem_insert_iff, hn, true_and]
      constructor
      · rintro (rfl | h)
        · exact .inr rfl
        · exact .inl h
      · rintro (h | rfl)
        · exact .inr h
        · exact .inl rfl
    · simp [hy, Ne.symm hy]
  · simp only [Edge, hn, Option.some.injEq, exists_eq_left', Std.ExtTreeSet.mem_iff_contains, Bool.not_eq_true',
      Bool.not_eq_true]

theorem mem_consumers (hfiled : b.Filed) {c : CoProvision} :
    x ∈ b.consumers c ↔ b.Edge x c.source ∧ x ≠ c.co ∧ x ≠ c.source := by
  have hvalues : ∀ n, n ∈ b.nodes.toList.map (·.2) ↔ b.nodes[n.descriptor]? = some n := by
    intro n
    rw [mem_map]
    constructor
    · rintro ⟨⟨d, n'⟩, hd, rfl⟩
      have hget := mem_toList_iff_getElem?_eq_some.1 hd
      exact (hfiled d n' hget) ▸ hget
    · intro hget
      exact ⟨(n.descriptor, n), mem_toList_iff_getElem?_eq_some.2 hget, rfl⟩
  rw [consumers, mem_map]
  simp only [mem_filter, hvalues, Bool.and_eq_true, decide_eq_true_eq, ← Std.ExtTreeSet.mem_iff_contains]
  constructor
  · rintro ⟨n, ⟨hget, ⟨hsource, hco⟩, hne⟩, rfl⟩
    exact ⟨⟨n, hget, hsource⟩, hco, hne⟩
  · rintro ⟨⟨n, hget, hsource⟩, hco, hne⟩
    obtain rfl := hfiled x n hget
    exact ⟨n, ⟨hget, ⟨hsource, hco⟩, hne⟩, rfl⟩

theorem addEdges_spec {l} (hl : ∀ x ∈ l, x ∈ b.nodes) (added : Bool) :
    ∃ b' added', addEdges t l (b, added) = .ok (b', added') ∧ SameNodes b b' ∧
      (∀ y u, b'.Edge y u ↔ b.Edge y u ∨ y ∈ l ∧ u = t) ∧
      (added' = true ↔ added = true ∨ ∃ x ∈ l, ¬ b.Edge x t) := by
  induction l generalizing b added with
  | nil => exact ⟨b, added, rfl, .refl b, by simp, by simp⟩
  | cons a l ih =>
    obtain ⟨b1, new, hedge, hsame, hedges, hnew⟩ := edge_spec (t := t) (hl a mem_cons_self)
    obtain ⟨b', added', hrest, hsame', hedges', hadded⟩ :=
      ih (b := b1) (fun x hx => hsame.mem.2 (hl x (mem_cons_of_mem _ hx))) (added || new)
    refine ⟨b', added', ?_, hsame.trans hsame', fun y u => ?_, ?_⟩
    · rw [addEdges, hedge]
      exact hrest
    · rw [hedges', hedges, mem_cons]
      tauto
    · rw [hadded, Bool.or_eq_true, hnew]
      simp only [hedges, mem_cons, exists_eq_or_imp, and_true]
      constructor
      · rintro ((h | h) | ⟨x, hx, h⟩)
        · exact .inl h
        · exact .inr (.inl h)
        · exact .inr (.inr ⟨x, hx, fun he => h (.inl he)⟩)
      · rintro (h | h | ⟨x, hx, h⟩)
        · exact .inl (.inl h)
        · exact .inl (.inr h)
        · by_cases hxa : x = a
          · exact .inl (.inr (hxa ▸ h))
          · exact .inr ⟨x, hx, fun he => he.elim h hxa⟩

/-- `t` is co-provisioned with `a` for its consumers, and `x` is another resource. -/
def Matches (b : Builder) (x a t : Descriptor) : Prop := (⟨a, t, true⟩ : CoProvision) ∈ b.co ∧ x ≠ t ∧ x ≠ a

/-- What `x` depends on once it also waits for what is matched. -/
def Waits (b : Builder) (x t : Descriptor) : Prop := ∃ a, b.Edge x a ∧ ReflTransGen (b.Matches x) a t

theorem Waits.of_edge (h : b.Edge x t) : b.Waits x t := ⟨t, h, .refl⟩

theorem Waits.matched {a : Descriptor} (h : b.Waits x a) (hm : b.Matches x a t) : b.Waits x t := by
  obtain ⟨a0, hedge, hpath⟩ := h
  exact ⟨a0, hedge, hpath.tail hm⟩

theorem Waits.trans (hco : b'.co = b.co) (hsub : ∀ y u, b'.Edge y u → b.Waits y u) (h : b'.Waits x t) : b.Waits x t := by
  obtain ⟨a, hedge, hpath⟩ := h
  have hmatches : b'.Matches x = b.Matches x := by
    funext y u
    rw [Matches, Matches, hco]
  rw [hmatches] at hpath
  induction hpath with
  | refl => exact hsub x a hedge
  | tail _ hm ih => exact ih.matched hm

theorem matchRound_spec {cs} (hfiled : b.Filed) (hcs : ∀ c ∈ cs, c ∈ b.co ∧ c.matchDependents = true) (added : Bool) :
    ∃ b' added', matchRound cs (b, added) = .ok (b', added') ∧ SameNodes b b' ∧
      (∀ y u, b.Edge y u → b'.Edge y u) ∧ (∀ y u, b'.Edge y u → b.Waits y u) ∧
      (added' = false → added = false ∧ (∀ y u, b'.Edge y u → b.Edge y u) ∧
        ∀ c ∈ cs, ∀ y, b.Edge y c.source → y ≠ c.co → y ≠ c.source → b.Edge y c.co) ∧
      (added' = true → added = true ∨ ∃ y, ∃ c ∈ cs, y ∈ b.nodes ∧ b'.Edge y c.co ∧ ¬ b.Edge y c.co) := by
  induction cs generalizing b added with
  | nil => exact ⟨b, added, rfl, .refl b, fun _ _ => id, fun _ _ => .of_edge, by simp, .inl⟩
  | cons c cs ih =>
    have hmem : ∀ y, y ∈ b.consumers c ↔ b.Edge y c.source ∧ y ≠ c.co ∧ y ≠ c.source := fun y => mem_consumers hfiled
    have hnodes : ∀ y ∈ b.consumers c, y ∈ b.nodes := fun y hy => by
      obtain ⟨⟨n, hn, -⟩, -⟩ := (hmem y).1 hy
      exact BTreeMap.mem_iff.2 ⟨n, hn⟩
    obtain ⟨b1, added1, hadd, hsame, hedges, hadded⟩ := addEdges_spec (t := c.co) hnodes added
    obtain ⟨b', added', hrest, hsame', hmono, hsound, hfalse, htrue⟩ := ih (hfiled.same hsame)
      (fun c' hc' => hsame.co ▸ hcs c' (mem_cons_of_mem _ hc')) added1
    have hmono1 : ∀ y u, b.Edge y u → b1.Edge y u := fun y u h => (hedges y u).2 (.inl h)
    have hsound1 : ∀ y u, b1.Edge y u → b.Waits y u := by
      intro y u hyu
      rcases (hedges y u).1 hyu with hyu | ⟨hy, rfl⟩
      · exact .of_edge hyu
      · obtain ⟨hsource, hco, hne⟩ := (hmem y).1 hy
        obtain ⟨hc, hmatch⟩ := hcs c mem_cons_self
        exact (Waits.of_edge hsource).matched ⟨hmatch ▸ hc, hco, hne⟩
    refine ⟨b', added', ?_, hsame.trans hsame', fun y u h => hmono y u (hmono1 y u h),
      fun y u h => (hsound y u h).trans hsame.co hsound1, fun hf => ?_, fun ht => ?_⟩
    · rw [matchRound, hadd]
      exact hrest
    · obtain ⟨hadded1, hback, hall⟩ := hfalse hf
      have hnone : ¬ (added = true ∨ ∃ x ∈ b.consumers c, ¬ b.Edge x c.co) := by
        rw [← hadded, hadded1]
        decide
      have hold : ∀ y ∈ b.consumers c, b.Edge y c.co := fun y hy =>
        Classical.byContradiction fun h => hnone (.inr ⟨y, hy, h⟩)
      have hback1 : ∀ y u, b1.Edge y u → b.Edge y u := by
        intro y u hyu
        rcases (hedges y u).1 hyu with hyu | ⟨hy, rfl⟩
        · exact hyu
        · exact hold y hy
      refine ⟨by simpa using fun h => hnone (.inl h), fun y u h => hback1 y u (hback y u h), ?_⟩
      intro c' hc' y hy hco hne
      rcases mem_cons.1 hc' with rfl | hc'
      · exact hold y ((hmem y).2 ⟨hy, hco, hne⟩)
      · exact hback1 y _ (hall c' hc' y (hmono1 y _ hy) hco hne)
    · rcases htrue ht with h | ⟨y, c', hc', hy, hnew, hnot⟩
      · rcases hadded.1 h with h | ⟨y, hy, hnot⟩
        · exact .inl h
        · exact .inr ⟨y, c, mem_cons_self, hnodes y hy, hmono y _ ((hedges y _).2 (.inr ⟨hy, rfl⟩)), hnot⟩
      · exact .inr ⟨y, c', mem_cons_of_mem _ hc', hsame.mem.1 hy, hnew, fun h => hnot (hmono1 y _ h)⟩

open Classical in
noncomputable def missing (b : Builder) : Finset (Descriptor × Descriptor) :=
  (b.nodes.keys.toFinset ×ˢ b.nodes.keys.toFinset).filter fun p => ¬ b.Edge p.1 p.2

theorem mem_missing : (x, t) ∈ b.missing ↔ x ∈ b.nodes ∧ t ∈ b.nodes ∧ ¬ b.Edge x t := by
  simp [missing, and_assoc]

theorem missing_lt (hs : SameNodes b b') (hmono : ∀ y u, b.Edge y u → b'.Edge y u) (hx : x ∈ b.nodes) (ht : t ∈ b.nodes)
    (hnew : b'.Edge x t) (hnot : ¬ b.Edge x t) : b'.missing.card < b.missing.card := by
  refine Finset.card_lt_card (Finset.ssubset_iff_of_subset ?_ |>.2 ⟨(x, t), mem_missing.2 ⟨hx, ht, hnot⟩, ?_⟩)
  · rintro ⟨y, u⟩ h
    obtain ⟨hy, hu, hyu⟩ := mem_missing.1 h
    exact mem_missing.2 ⟨hs.mem.1 hy, hs.mem.1 hu, fun h => hyu (hmono y u h)⟩
  · exact fun h => (mem_missing.1 h).2.2 hnew

theorem missing_le (b : Builder) : b.missing.card ≤ b.nodes.size * b.nodes.size := by
  classical
  calc b.missing.card
      ≤ (b.nodes.keys.toFinset ×ˢ b.nodes.keys.toFinset).card := Finset.card_filter_le _ _
    _ = b.nodes.keys.toFinset.card * b.nodes.keys.toFinset.card := Finset.card_product _ _
    _ ≤ b.nodes.size * b.nodes.size := by
      have h : b.nodes.keys.toFinset.card ≤ b.nodes.size :=
        (toFinset_card_le _).trans length_keys.le
      exact Nat.mul_le_mul h h

theorem matchDependents_spec {bound : Nat} (hfiled : b.Filed) (hco : ∀ c ∈ b.co, c.co ∈ b.nodes)
    (hbound : b.missing.card < bound) :
    ∃ b', matchDependents bound b = .ok b' ∧ SameNodes b b' ∧ ∀ y u, b'.Edge y u ↔ b.Waits y u := by
  induction bound generalizing b with
  | zero => omega
  | succ bound ih =>
    have hcs : ∀ c, c ∈ b.co.toList.filter (·.matchDependents) ↔ c ∈ b.co ∧ c.matchDependents = true := fun c => by
      rw [mem_filter, Std.ExtTreeSet.mem_toList]
    obtain ⟨b1, added, hround, hsame, hmono, hsound, hfalse, htrue⟩ :=
      matchRound_spec hfiled (fun c hc => (hcs c).1 hc) false
    cases added with
    | false =>
      obtain ⟨-, hback, hall⟩ := hfalse rfl
      refine ⟨b1, by simp [matchDependents, hround, bind, Except.bind, pure, Except.pure], hsame,
        fun y u => ⟨hsound y u, ?_⟩⟩
      rintro ⟨a, hedge, hpath⟩
      induction hpath with
      | refl => exact hmono y a hedge
      | @tail a' u _ hm ih' =>
        obtain ⟨hm, hne, hsource⟩ := hm
        exact hmono y u (hall ⟨a', u, true⟩ ((hcs _).2 ⟨hm, rfl⟩) y (hback y a' ih') hne hsource)
    | true =>
      rcases htrue rfl with h | ⟨y, c, hc, hy, hnew, hnot⟩
      · cases h
      · have hless := missing_lt hsame hmono hy (hco c ((hcs c).1 hc).1) hnew hnot
        obtain ⟨b', hrest, hsame', hedges⟩ := ih (hfiled.same hsame)
          (fun c hc => hsame.mem.2 (hco c (hsame.co ▸ hc))) (by omega)
        refine ⟨b', ?_, hsame.trans hsame', fun y u => ?_⟩
        · simp only [matchDependents, hround, bind, Except.bind]
          exact hrest
        · rw [hedges]
          constructor
          · exact fun h => h.trans hsame.co hsound
          · rintro ⟨a, hedge, hpath⟩
            have hmatches : b1.Matches y = b.Matches y := by
              funext v w
              rw [Matches, Matches, hsame.co]
            exact ⟨a, hmono y a hedge, hmatches ▸ hpath⟩

end Builder

open Op

/-- What `x` waits for, given the operations: its own edges, and what is matched with them. -/
def Op.Waits (ops : List Op) (x t : Descriptor) : Prop :=
  ∃ a, .edge x a ∈ ops ∧ ReflTransGen (fun a t => .coProvision ⟨a, t, true⟩ ∈ ops ∧ x ≠ t ∧ x ≠ a) a t

variable {input : GraphInput} {ops : List Op} {b b' : Builder} {order : List Descriptor} {x t : Descriptor}

theorem Built.filed (h : Built input ops b) : b.Filed := fun d n hn => (h.node d n hn).descriptor

theorem Built.edge_iff (h : Built input ops b) : b.Edge x t ↔ .edge x t ∈ ops := by
  constructor
  · rintro ⟨n, hn, ht⟩
    exact ((h.node x n hn).dependsOn t).1 ht
  · intro ht
    obtain ⟨n, hn⟩ := BTreeMap.mem_iff.1 (h.edge x t ht)
    exact ⟨n, hn, ((h.node x n hn).dependsOn t).2 ht⟩

theorem Built.waits_iff (h : Built input ops b) : b.Waits x t ↔ Op.Waits ops x t := by
  simp only [Builder.Waits, Op.Waits, h.edge_iff]
  have hmatches : b.Matches x = fun a t => .coProvision ⟨a, t, true⟩ ∈ ops ∧ x ≠ t ∧ x ≠ a := by
    funext a t
    rw [Builder.Matches, h.co]
  rw [hmatches]

theorem expandInput_ok (h : expandInput input = .ok b) : ∃ order, Expanded input order b := by
  rcases (expandInput_expands input).cases with ⟨order, b', hb', hexpanded, -⟩ | ⟨g, hg, -⟩
  · cases h.symm.trans hb'
    exact ⟨order, hexpanded⟩
  · cases h.symm.trans hg

theorem expandInput_error {e : Stop} (h : expandInput input = .error e) :
    ∃ g, e = .error g ∧ input.Refused input.Makes g := by
  rcases (expandInput_expands input).cases with ⟨order, b', hb', -⟩ | ⟨g, hg, hrefused⟩
  · cases h.symm.trans hb'
  · cases h.symm.trans hg
    exact ⟨g, rfl, hrefused⟩

theorem Expanded.target (h : Expanded input order b) (ht : .edge x t ∈ input.opsFor order) : t ∈ b.nodes := by
  rw [h.built.mem]
  rcases mem_append.1 ht with ht | ht
  · rcases seeds_sound.target ht with hf | hr
    · cases hf
    · exact hr.append_left
  · obtain ⟨d, hd, ht⟩ := mem_flatMap.1 ht
    rcases (opsOf_sound d).target ht with rfl | ⟨path, params, hr⟩
    · exact (h.built.mem t).1 ((h.mem t).2 hd)
    · exact ⟨path, params, mem_append_right _ (mem_flatMap.2 ⟨d, hd, hr⟩)⟩

namespace GraphInput

theorem mem_opsFor_co {c : CoProvision} (h : .coProvision c ∈ input.opsFor order) :
    c.source ∈ order ∧ ∃ dfn found key prov co, input.definitionOf c.source = some dfn ∧ inputPlaceholders dfn = .ok found ∧
      dfn.provision[key]? = some prov ∧ ResourceRef.parse key = .ok co ∧ c.co = input.resolveRef co c.source := by
  rcases mem_opsFor.1 h with h | ⟨d, hd, h⟩
  · cases mem_seeds.1 h
  · obtain ⟨dfn, hdfn, ⟨e, h⟩ | ⟨found, hfound, h⟩⟩ := opsOf_cases h
    · cases h
    · cases h with
      | coProvision hprov hkey => exact ⟨hd, dfn, found, _, _, _, hdfn, hfound, hprov, hkey, rfl⟩

end GraphInput

theorem Expanded.co_mem (h : Expanded input order b) {c : CoProvision} (hc : .coProvision c ∈ input.opsFor order) :
    c.co ∈ b.nodes := by
  obtain ⟨hd, dfn, found, key, prov, co, hdfn, hfound, hprov, hkey, hco⟩ := mem_opsFor_co hc
  have hop := mem_opsOf.2 ⟨dfn, hdfn, (mem_expansion hfound).2 (.provision hprov hkey)⟩
  exact (h.built.mem c.co).2 ⟨_, _, hco ▸ mem_opsFor.2 (.inr ⟨_, hd, hop⟩)⟩

theorem Expanded.waits_mem (h : Expanded input order b) (ht : Op.Waits (input.opsFor order) x t) : t ∈ b.nodes := by
  obtain ⟨a, ha, hpath⟩ := ht
  rcases hpath.cases_tail with rfl | ⟨a', -, hco, -⟩
  · exact h.target ha
  · exact h.co_mem hco

/-- The builder once `match_dependents` is done. -/
structure Wired (input : GraphInput) (order : List Descriptor) (b : Builder) : Prop where
  expanded : ∃ b₀, Expanded input order b₀ ∧ Builder.SameNodes b₀ b
  edge : ∀ x t, b.Edge x t ↔ Op.Waits (input.opsFor order) x t

theorem Expanded.matchDependents (h : Expanded input order b) :
    ∃ b', Builder.matchDependents (b.nodes.size * b.nodes.size + 1) b = .ok b' ∧ Builder.SameNodes b b' ∧
      Wired input order b' := by
  obtain ⟨b', hb', hsame, hedges⟩ := Builder.matchDependents_spec h.built.filed
    (fun c hc => h.co_mem ((h.built.co c).1 hc)) (Nat.lt_add_one_of_le b.missing_le)
  exact ⟨b', hb', hsame, ⟨b, h, hsame⟩, fun x t => (hedges x t).trans h.built.waits_iff⟩

theorem wireInput_ok (h : wireInput input = .ok b) : ∃ order, Wired input order b := by
  obtain ⟨b₀, hexpand, hmatch⟩ := bind_eq_ok.1 h
  obtain ⟨order, hexpanded⟩ := expandInput_ok hexpand
  obtain ⟨b', hb', -, hwired⟩ := hexpanded.matchDependents
  rw [hmatch] at hb'
  cases hb'
  exact ⟨order, hwired⟩

theorem wireInput_error {e : Stop} (h : wireInput input = .error e) :
    ∃ g, e = .error g ∧ input.Refused input.Makes g := by
  rcases bind_eq_error.1 h with hexpand | ⟨b₀, hexpand, hmatch⟩
  · exact expandInput_error hexpand
  · obtain ⟨order, hexpanded⟩ := expandInput_ok hexpand
    obtain ⟨b', hb', -⟩ := hexpanded.matchDependents
    rw [hmatch] at hb'
    cases hb'

theorem Wired.target (h : Wired input order b) (ht : b.Edge x t) : t ∈ b.nodes := by
  obtain ⟨b₀, hexpanded, hsame⟩ := h.expanded
  exact hsame.mem.2 (hexpanded.waits_mem ((h.edge x t).1 ht))

theorem remaining_edge : Remaining.Edge (b.nodes.map fun _ n => n.dependsOn) x t ↔ b.Edge x t := by
  simp only [Remaining.Edge, Builder.Edge, Std.ExtTreeMap.getElem?_map, Option.map_eq_some_iff]
  constructor
  · rintro ⟨_, ⟨n, hn, rfl⟩, ht⟩
    exact ⟨n, hn, ht⟩
  · rintro ⟨n, hn, ht⟩
    exact ⟨_, ⟨n, hn, rfl⟩, ht⟩

theorem Wired.layers (h : Wired input order b) :
    (∃ l, topologicalLayers b.nodes = .ok l ∧ Remaining.Layered (b.nodes.map fun _ n => n.dependsOn) l) ∨
      ∃ c, topologicalLayers b.nodes = .error (.error (.cycle c)) ∧ Remaining.IsCycle b.Edge c := by
  have hclosed : Remaining.Closed (b.nodes.map fun _ n => n.dependsOn) := fun x t hxt =>
    mem_map.2 (h.target (remaining_edge.1 hxt))
  have hsize : (b.nodes.map fun _ n => n.dependsOn).size ≤ b.nodes.size := by simp
  rcases Remaining.layers_spec hclosed hsize with hl | ⟨c, hc, hcycle⟩
  · exact .inl hl
  · exact .inr ⟨c, hc, hcycle.mono fun x t => remaining_edge.1⟩

theorem buildGraph_eq : buildGraph input =
    (wireInput input).bind fun b => (topologicalLayers b.nodes).map fun layers => { nodes := b.nodes, layers } := by
  unfold buildGraph
  cases wireInput input with
  | error e => rfl
  | ok b =>
    simp only [bind, Except.bind]
    cases topologicalLayers b.nodes <;> rfl

theorem buildGraph_ok {g : ResourceGraph} (h : buildGraph input = .ok g) : ∃ order b, Wired input order b ∧
    g.nodes = b.nodes ∧ Remaining.Layered (b.nodes.map fun _ n => n.dependsOn) g.layers := by
  rw [buildGraph_eq] at h
  obtain ⟨b, hb, h⟩ := bind_eq_ok.1 h
  obtain ⟨layers, hlayers, rfl⟩ := map_eq_ok.1 h
  obtain ⟨order, hwired⟩ := wireInput_ok hb
  rcases hwired.layers with ⟨l, hl, hlayered⟩ | ⟨c, hc, -⟩
  · rw [hlayers] at hl
    cases hl
    exact ⟨order, b, hwired, rfl, hlayered⟩
  · rw [hlayers] at hc
    cases hc

theorem buildGraph_error {e : Stop} (h : buildGraph input = .error e) :
    (∃ g, e = .error g ∧ input.Refused input.Makes g) ∨
    ∃ b c, wireInput input = .ok b ∧ e = .error (.cycle c) ∧ Remaining.IsCycle b.Edge c := by
  rw [buildGraph_eq] at h
  rcases bind_eq_error.1 h with hwire | ⟨b, hb, h⟩
  · exact .inl (wireInput_error hwire)
  · obtain ⟨order, hwired⟩ := wireInput_ok hb
    have herr := map_eq_error.1 h
    rcases hwired.layers with ⟨l, hl, -⟩ | ⟨c, hc, hcycle⟩
    · rw [herr] at hl
      cases hl
    · rw [herr] at hc
      cases hc
      exact .inr ⟨b, c, hb, rfl, hcycle⟩

/-- A graph that is built has its dependencies among its nodes, and every node in one layer, after its dependencies. A
reported cycle is one of the edges, closed. Nothing else can go wrong than a `GraphError`. -/
theorem buildGraph_wellFormed (input : GraphInput) :
    (∀ g, buildGraph input = .ok g →
      (∀ (d t : Descriptor) (n : Node), g.nodes[d]? = some n → t ∈ n.dependsOn → t ∈ g.nodes) ∧
      g.layers.flatten.Nodup ∧ (∀ d, d ∈ g.layers.flatten ↔ d ∈ g.nodes) ∧
      ∀ (i : Nat) (layer : List Descriptor) (d t : Descriptor) (n : Node), g.layers[i]? = some layer → d ∈ layer →
        g.nodes[d]? = some n → t ∈ n.dependsOn → ∃ j layer', j < i ∧ g.layers[j]? = some layer' ∧ t ∈ layer') ∧
    (∀ path, buildGraph input = .error (.error (.cycle path)) → ∃ b, wireInput input = .ok b ∧
      2 ≤ path.length ∧ path.head? = path.getLast? ∧
      ∀ (i : Nat) (x y : Descriptor), path[i]? = some x → path[i + 1]? = some y →
        ∃ n, b.nodes[x]? = some n ∧ y ∈ n.dependsOn) ∧
    buildGraph input ≠ .error .panic ∧ buildGraph input ≠ .error .spin := by
  refine ⟨fun g hg => ?_, fun c hc => ?_, fun h => ?_, fun h => ?_⟩
  · obtain ⟨order, b, hwired, hnodes, hlayered⟩ := buildGraph_ok hg
    rw [hnodes]
    refine ⟨fun d t n hn ht => hwired.target ⟨n, hn, ht⟩, hlayered.nodup, fun d => ?_, ?_⟩
    · rw [hlayered.mem, Std.ExtTreeMap.mem_map]
    · intro i layer d t n hlayer hd hn ht
      exact hlayered.earlier i layer d t hlayer hd (remaining_edge.2 ⟨n, hn, ht⟩)
  · rcases buildGraph_error hc with ⟨g, hg, hrefused⟩ | ⟨b, c', hb, hc', hcycle⟩
    · cases hg
      exact absurd rfl (hrefused.not_cycle c)
    · cases hc'
      refine ⟨b, hb, hcycle.length, hcycle.ends, fun i x y hx hy => ?_⟩
      obtain ⟨hi, rfl⟩ := List.getElem?_eq_some_iff.1 hx
      obtain ⟨hi', rfl⟩ := List.getElem?_eq_some_iff.1 hy
      exact isChain_iff_getElem.1 hcycle.edges i hi'
  · rcases buildGraph_error h with ⟨g, hg, -⟩ | ⟨b, c, -, hc, -⟩
    · cases hg
    · cases hc
  · rcases buildGraph_error h with ⟨g, hg, -⟩ | ⟨b, c, -, hc, -⟩
    · cases hg
    · cases hc

end Openporch
