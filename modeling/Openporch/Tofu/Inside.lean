import Openporch.Tofu.Override

/-!
# Generated files stay in the module

`inside` looks at every part of a path: a link on it is followed once more and has to lead into the base. The parts
after the first that does not exist are directories that `write_private` makes below it.
-/

namespace Openporch.Tofu
open Files List Fallible

section
variable {t t' : Tree} {base p : Place} {names : List String} {rel : String}

theorem lstat_link {n : String} {r : Place} {target : Target} (hr : t.canonicalize base names = .ok r)
    (hlink : t.get (n :: r) = some (.link target)) : t.lstat base (n :: names) = .ok (.link target) := by
  rw [Tree.lstat, hr, ok_bind, hlink]
  rfl

theorem checkLink_ok {target : Target} (hlink : t.lstat base names = .ok (.link target))
    (h : checkLink t base rel names = .ok ()) :
    ∃ real, t.canonicalize base names = .ok real ∧ base <:+ real := by
  unfold checkLink at h
  rw [hlink] at h
  dsimp only at h
  split at h
  · cases h
  · rename_i real hreal
    split at h
    · rename_i hinside
      exact ⟨real, hreal, hinside⟩
    · cases h

theorem leads_inside (hwf : t.Wf) (hwf' : t'.Wf) (hgrows : Grows t t') (hbase : t.isDir base = true)
    (hchecked : ∀ ds, ds <:+ names → ds ≠ [] → checkLink t base rel ds = .ok ()) (hp : t'.canonicalize base names = .ok p) :
    base <:+ p ∧ (t.canonicalize base names = .ok p ∨ t.get p = none ∧ t.isDir p = false) := by
  induction names generalizing p with
  | nil =>
    cases hp
    exact ⟨suffix_rfl, .inl rfl⟩
  | cons n parents ih =>
    have hparents : ∀ ds, ds <:+ parents → ds ≠ [] → checkLink t base rel ds = .ok () := fun ds hds =>
      hchecked ds (hds.trans (suffix_cons n parents))
    rw [Tree.canonicalize, movesTo_cons] at hp
    obtain ⟨r, hr, -, hlast⟩ := walk_snoc hwf' (hgrows.isDir hbase) hp
    obtain ⟨hin, hbefore⟩ := ih hparents hr
    -- What was in the directory before is reached as before.
    have hold : (t.get (n :: r)).isSome = true → t.canonicalize base parents = .ok r ∧ t.isDir r = true := by
      intro hsome
      have hdir := hwf n r hsome
      rcases hbefore with hbefore | ⟨-, hnone⟩
      · exact ⟨hbefore, hdir⟩
      · rw [hdir] at hnone
        cases hnone
    -- A link that is there was there before and was checked.
    have hlinked : ∀ target, t'.get (n :: r) = some (.link target) → base <:+ p ∧ t.canonicalize base (n :: parents) = .ok p := by
      intro target htarget
      have hlink := hgrows.link.1 htarget
      obtain ⟨hreach, -⟩ := hold (by rw [hlink]; rfl)
      obtain ⟨real, hreal, hinside⟩ := checkLink_ok (lstat_link hreach hlink)
        (hchecked (n :: parents) suffix_rfl (cons_ne_nil _ _))
      have hsame := walk_grows hgrows hreal
      rw [movesTo_cons] at hsame
      cases hp.symm.trans hsame
      exact ⟨hinside, hreal⟩
    rcases hlast with rfl | ⟨target, htarget⟩
    · refine ⟨hin.trans (suffix_cons n r), ?_⟩
      cases hget : t.get (n :: r) with
      | none => exact .inr ⟨rfl, by simp [Tree.isDir, hget]⟩
      | some e =>
        obtain ⟨hreach, hdir⟩ := hold (by rw [hget]; rfl)
        by_cases hlink : ∃ target, e = .link target
        · obtain ⟨target, rfl⟩ := hlink
          exact .inl (hlinked target (hgrows.link.2 hget)).2
        · refine .inl ?_
          rw [Tree.canonicalize, movesTo_cons]
          exact walk_concat hreach hdir hget fun target heq => hlink ⟨target, heq⟩
    · obtain ⟨hinside, hreach⟩ := hlinked target htarget
      exact ⟨hinside, .inl hreach⟩

theorem inside_ok {l target : Location} (h : inside t l rel = .ok target) : ∃ base names, canonicalize t l = .ok base ∧
    relative rel = some names ∧ target = ⟨base, names⟩ ∧ ∀ ds, ds <:+ names → ds ≠ [] → checkLink t base rel ds = .ok () := by
  unfold inside at h
  split at h
  · cases h
  · rename_i names hnames
    obtain ⟨base, hbase, h⟩ := bind_eq_ok.1 h
    obtain ⟨_, hchecked, h⟩ := bind_eq_ok.1 h
    cases h
    refine ⟨base, names, mapError_eq_ok.1 hbase, hnames, rfl, fun ds hds hne => ?_⟩
    refine forM_eq_ok.1 hchecked ds ?_
    -- The paths that are checked are the parts of the path without the empty one.
    have hmem : ds ∈ names.tails.reverse := mem_reverse.2 ((mem_tails _ _).2 hds)
    have htails : ∀ names : List String, names.tails.reverse = [] :: names.tails.reverse.drop 1 := by
      intro names
      induction names with
      | nil => rfl
      | cons n names ih =>
        rw [tails_cons, reverse_cons, ih]
        rfl
    rw [htails names, mem_cons] at hmem
    exact hmem.resolve_left hne

end

def Unharmed (base : Place) (t t' : Tree) (q : Place) : Prop :=
  t'.get q = t.get q ∨ t.get q = none ∧ t'.get q = some .dir ∧ base <:+ q

section
variable {t t' : Tree} {base : Place} {names : List String}

theorem made_unharmed (h : Made base names t t') (hin : ∀ ds, ds <:+ names → ∀ p, t'.canonicalize base ds = .ok p → base <:+ p)
    (n : String) (d : Place) : Unharmed base t t' (n :: d) := by
  cases hget : t.get (n :: d) with
  | some e =>
    refine .inl ?_
    cases e with
    | dir => rw [h.grows.dir hget, hget]
    | file c => rw [h.files hget, hget]
    | link target => rw [h.grows.link.2 hget, hget]
  | none =>
    cases hget' : t'.get (n :: d) with
    | none => exact .inl (hget'.trans hget.symm)
    | some e =>
      have hdir : e = .dir := by
        by_contra hne
        obtain ⟨e', he', -⟩ := (h.holds (n :: d)).1 ⟨e, hget', hne⟩
        cases hget.symm.trans he'
      subst hdir
      rcases h.only _ (isDir_cons hget') with hold | ⟨m, ds, d', hds, hleads, -⟩
      · simp [Tree.isDir, hget] at hold
      · exact .inr ⟨hget, hget', hin _ hds _ hleads⟩

end

/-- A file written where `inside` says is in the base, and nothing outside changes. Where there are no links, `inside`
refuses no relative path. -/
theorem written_inside (t : Tree) (hwf : t.Wf) (l : Location) (hdir : isDirectory t l = true) (rel content : String) :
    (∀ target t', inside t l rel = .ok target → writePrivate t target content = .ok t' → ∃ base p,
      canonicalize t l = .ok base ∧ canonicalize t' target = .ok p ∧ base <:+ p ∧ t'.get p = some (.file content) ∧
      (t.get p = none ∨ ∃ c, t.get p = some (.file c)) ∧ ∀ n d, n :: d ≠ p → Unharmed base t t' (n :: d)) ∧
    ((∀ p target, t.get p ≠ some (.link target)) → (relative rel).isSome = true → ∃ target, inside t l rel = .ok target) := by
  constructor
  · intro target t' htarget hwrite
    obtain ⟨base, names, hbase, hnames, rfl, hchecked⟩ := inside_ok htarget
    have hbasedir : t.isDir base = true := by
      unfold isDirectory at hdir
      rwa [hbase] at hdir
    obtain ⟨n, parents, rfl⟩ := exists_cons_of_ne_nil (relative_ne_nil hnames)
    obtain ⟨t1, d, hmade, hd, hwritten⟩ := writePrivate_spec hwf hbasedir rfl hwrite
    have hin : ∀ ds, ds <:+ parents → ∀ p, t1.canonicalize base ds = .ok p → base <:+ p := fun ds hds p hp =>
      (leads_inside hwf hmade.wf hmade.grows hbasedir
        (fun ds' hds' => hchecked ds' (hds'.trans (hds.trans (suffix_cons n parents)))) hp).1
    have hddir : t'.isDir d = true := hwritten.wf n d (by rw [hwritten.here]; rfl)
    refine ⟨base, n :: d, hbase, ?_, (hin parents suffix_rfl d hd).trans (suffix_cons n d), hwritten.here, ?_,
      fun m e hne => ?_⟩
    · rw [canonicalize, Tree.canonicalize, movesTo_cons]
      exact walk_concat (walk_grows hwritten.grows hd) hddir hwritten.here fun _ => Entry.noConfusion
    · cases hget : t.get (n :: d) with
      | none => exact .inl rfl
      | some e =>
        cases e with
        | dir => cases (hwritten.grows.dir (hmade.grows.dir hget)).symm.trans hwritten.here
        | file c => exact .inr ⟨c, rfl⟩
        | link target => cases (hwritten.grows.link.2 (hmade.grows.link.2 hget)).symm.trans hwritten.here
    · unfold Unharmed
      rw [hwritten.others hne]
      exact made_unharmed hmade hin m e
  · intro hlinks hrel
    obtain ⟨names, hnames⟩ := Option.isSome_iff_exists.1 hrel
    unfold isDirectory at hdir
    split at hdir
    · rename_i base hbase
      have hunchecked : ∀ ds, checkLink t base rel ds = .ok () := by
        intro ds
        unfold checkLink
        split
        · rename_i target hlstat
          cases ds with
          | nil => cases hlstat
          | cons n parents =>
            obtain ⟨d, -, hlstat⟩ := bind_eq_ok.1 hlstat
            split at hlstat
            · rename_i e he
              cases hlstat
              exact absurd he (hlinks _ _)
            · cases hlstat
        · rfl
      refine ⟨⟨base, names⟩, ?_⟩
      unfold inside
      rw [hnames, hbase]
      dsimp only [Except.mapError]
      rw [ok_bind, (forM_eq_ok (u := ())).2 fun ds _ => hunchecked ds]
      rfl
    · cases hdir

def linkedTree : Tree := [(["module"], .dir), (["data", "module"], .dir), (["here", "module"], .link ⟨false, [.down "data"]⟩)]

theorem linked_inside : ∃ target t' p, inside linkedTree ⟨[], ["module"]⟩ "here/seed/a.json" = .ok target ∧
    writePrivate linkedTree target "seed" = .ok t' ∧ canonicalize linkedTree ⟨[], ["module"]⟩ = .ok ["module"] ∧
    canonicalize t' target = .ok p ∧ ["module"] <:+ p ∧ t'.get p = some (.file "seed") := by
  have hwf : linkedTree.Wf := wf_of_allInside (by decide)
  have hmodule : canonicalize linkedTree ⟨[], ["module"]⟩ = .ok ["module"] := rfl
  obtain ⟨hwritten, -⟩ := written_inside linkedTree hwf ⟨[], ["module"]⟩ (by decide) "here/seed/a.json" "seed"
  obtain ⟨t', ht'⟩ := isOk_elim (x := writeFile ⟨[], ["module"]⟩ linkedTree ("here/seed/a.json", "seed", false))
    (by decide +kernel)
  obtain ⟨target, htarget, hwrite⟩ := bind_eq_ok.1 ht'
  have hinside := mapError_eq_ok.1 htarget
  obtain ⟨base, p, hbase, hp, hin, hfile, -⟩ := hwritten target t' hinside hwrite
  cases hmodule.symm.trans hbase
  exact ⟨target, t', p, hinside, hwrite, hmodule, hp, hin, hfile⟩

end Openporch.Tofu
