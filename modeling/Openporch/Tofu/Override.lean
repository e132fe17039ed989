import Openporch.Tofu.Prepare

/-!
# The backend of a prepared module

OpenTofu merges override files in the order of their names, the last one winning, and loads `x.tofu` instead of `x.tf`.
The orchestrator's is to be the last. `is_override` knows two of the four extensions; a path may also lead to the
module's own directory through a link of the checkout.
-/

namespace Openporch.Tofu
open Files List Fallible

def loadsAsOverride (name : String) : Bool :=
  [".tf", ".tf.json", ".tofu", ".tofu.json"].any fun extension =>
    (stripSuffix extension.toList name.toList).any fun stem => stem = "override".toList || "_override".toList.isSuffixOf stem

def outranks (name : String) : Bool :=
  loadsAsOverride name && decide (backendOverride < name) || name = "zzzz_openporch_backend_override.tofu"

structure BackendWins (m : Machine) (req : DriverRequest) (root : Place) (t : Tree) : Prop where
  configured : t.get (backendOverride :: root) = some (.file (m.overrideFile req))
  last : ∀ n, outranks n = true → ¬ t.Holds (n :: root)

section
variable {t t' : Tree} {l module : Location} {root : Place} {content : String}

theorem privateDir_eq_ok : privateDir t l = .ok t' ↔ t.mkdirs l.base l.names = .ok t' := mapError_eq_ok

theorem writePrivate_spec (hwf : t.Wf) (hbase : t.isDir l.base = true) {n : String} {parents : List String}
    (hnames : l.names = n :: parents) (h : writePrivate t l content = .ok t') :
    ∃ t1 d, Made l.base parents t t1 ∧ t1.canonicalize l.base parents = .ok d ∧ Written (n :: d) content t1 t' := by
  obtain ⟨t1, hdir, h⟩ := bind_eq_ok.1 h
  rw [hnames] at hdir
  have hmkdirs : t.mkdirs l.base parents = .ok t1 := privateDir_eq_ok.1 hdir
  have hmade := mkdirs_spec hwf hbase hmkdirs
  split at h
  · cases h
  · have h := mapError_eq_ok.1 h
    rw [hnames] at h
    obtain ⟨d, hd, hwritten⟩ := write_spec hmade.wf h
    exact ⟨t1, d, hmade, hd, hwritten⟩

theorem writePrivate_join (hwf : t.Wf) (hroot : canonicalize t module = .ok root) (hdir : t.isDir root = true) {n : String}
    (h : writePrivate t (module.join n) content = .ok t') : Written (n :: root) content t t' := by
  obtain ⟨t1, hmkdirs, h⟩ := bind_eq_ok.1 h
  have hsame : t.mkdirs module.base module.names = .ok t := mkdirs_of_dir hroot hdir
  cases hsame.symm.trans (privateDir_eq_ok.1 hmkdirs)
  split at h
  · cases h
  · obtain ⟨d, hd, hwritten⟩ := write_spec hwf (mapError_eq_ok.1 h)
    cases hroot.symm.trans hd
    exact hwritten

theorem relative_ne_nil {path : String} {names : List String} (h : relative path = some names) : names ≠ [] := by
  unfold relative at h
  dsimp only at h
  split at h
  · cases h
  · rename_i hno
    cases h
    obtain ⟨part, parts, hparts⟩ := exists_cons_of_ne_nil (splitAll_ne_nil '/' path.toList)
    rw [hparts] at hno ⊢
    simp only [map_cons, head?_cons, Option.some.injEq, Bool.or_eq_true, decide_eq_true_eq, not_or] at hno
    simp [hno.1.1, hno.1.2]

theorem writeFile_spec {file} (hwf : t.Wf) (hroot : canonicalize t module = .ok root) (hdir : t.isDir root = true)
    (h : writeFile module t file = .ok t') : ∃ n parents t1 d, relative file.1 = some (n :: parents) ∧
      Made root parents t t1 ∧ t1.canonicalize root parents = .ok d ∧ Written (n :: d) file.2.1 t1 t' := by
  obtain ⟨target, htarget, h⟩ := bind_eq_ok.1 h
  have htarget := mapError_eq_ok.1 htarget
  unfold inside at htarget
  split at htarget
  · cases htarget
  · rename_i names hnames
    rw [hroot] at htarget
    obtain ⟨base, hbase, htarget⟩ := bind_eq_ok.1 htarget
    obtain ⟨_, -, htarget⟩ := bind_eq_ok.1 htarget
    cases hbase
    cases htarget
    obtain ⟨n, parents, rfl⟩ := exists_cons_of_ne_nil (relative_ne_nil hnames)
    obtain ⟨t1, d, hmade, hd, hwritten⟩ := writePrivate_spec hwf hdir rfl h
    exact ⟨n, parents, t1, d, hnames, hmade, hd, hwritten⟩

end

def LandsAt (t : Tree) (root : Place) (file : String × String × Bool) (q : Place) : Prop :=
  ∃ n parents d, relative file.1 = some (n :: parents) ∧ t.leads root parents = .ok d ∧ q = n :: d

def OnTheWay (t : Tree) (root : Place) (file : String × String × Bool) (q : Place) : Prop :=
  ∃ n parents m ds, relative file.1 = some (n :: parents) ∧ m :: ds <:+ parents ∧ t.leads root (m :: ds) = .ok q

section
variable {t₀ t t' : Tree} {module : Location} {root : Place}

/-- What writing files into the module does, in terms of the tree before any of them. -/
structure Filled (t₀ : Tree) (root : Place) (files : List (String × String × Bool)) (t t' : Tree) : Prop where
  wf : t'.Wf
  grows : Grows t t'
  holds : ∀ q, t'.Holds q ↔ t.Holds q ∨ ∃ file ∈ files, LandsAt t₀ root file q
  dirs : ∀ q, t'.isDir q = true ↔ t.isDir q = true ∨ ∃ file ∈ files, OnTheWay t₀ root file q

theorem filled_one (hgrows : Grows t₀ t) {file} (hwf : t.Wf) (hroot : canonicalize t module = .ok root)
    (hdir : t.isDir root = true) (h : writeFile module t file = .ok t') : Filled t₀ root [file] t t' := by
  obtain ⟨n, parents, t1, d, hrel, hmade, hd, hwritten⟩ := writeFile_spec hwf hroot hdir h
  have hgrows1 := hgrows.trans hmade.grows
  have hleads : t₀.leads root parents = .ok d := walk_before hgrows1 hd
  refine ⟨hwritten.wf, hmade.grows.trans hwritten.grows, fun q => ?_, fun q => ?_⟩
  · rw [hwritten.holds, hmade.holds]
    refine or_congr Iff.rfl ?_
    simp only [mem_singleton, exists_eq_left, LandsAt, hrel, Option.some.injEq]
    constructor
    · rintro rfl
      exact ⟨n, parents, d, rfl, hleads, rfl⟩
    · rintro ⟨n', parents', d', heq, hd', rfl⟩
      obtain ⟨rfl, rfl⟩ := cons.inj heq
      cases hleads.symm.trans hd'
      rfl
  · rw [hwritten.dirs]
    simp only [mem_singleton, exists_eq_left, OnTheWay, hrel, Option.some.injEq]
    constructor
    · intro hq
      rcases hmade.only q hq with hq | ⟨m, ds, -, hds, hcanonical, -⟩
      · exact .inl hq
      · exact .inr ⟨n, parents, m, ds, rfl, hds, walk_before hgrows1 hcanonical⟩
    · rintro (hq | ⟨n', parents', m, ds, heq, hds, hq⟩)
      · exact hmade.grows.isDir hq
      · obtain ⟨rfl, rfl⟩ := cons.inj heq
        obtain ⟨p, hp, hpdir⟩ := hmade.made _ hds
        cases hq.symm.trans (walk_before hgrows1 hp)
        exact hpdir

theorem writeFiles_spec {files} (hgrows : Grows t₀ t) (hwf : t.Wf) (hroot : canonicalize t module = .ok root)
    (hdir : t.isDir root = true) (h : files.foldlM (writeFile module) t = .ok t') : Filled t₀ root files t t' := by
  induction files generalizing t with
  | nil =>
    cases h
    exact ⟨hwf, .refl _, by simp, by simp⟩
  | cons file files ih =>
    rw [foldlM_cons] at h
    obtain ⟨t1, hfile, h⟩ := bind_eq_ok.1 h
    have hone := filled_one hgrows hwf hroot hdir hfile
    have hrest := ih (hgrows.trans hone.grows) hone.wf (walk_grows hone.grows hroot) (hone.grows.isDir hdir) h
    refine ⟨hrest.wf, hone.grows.trans hrest.grows, fun q => ?_, fun q => ?_⟩
    · rw [hrest.holds, hone.holds, or_assoc]
      simp
    · rw [hrest.dirs, hone.dirs, or_assoc]
      simp

end

/-- Nothing is done to what outranks the backend in the module's directory, nor to the backend. -/
structure Beside (root : Place) (t t' : Tree) : Prop where
  wf : t'.Wf
  grows : Grows t t'
  holds : ∀ n, outranks n = true → (t'.Holds (n :: root) ↔ t.Holds (n :: root))
  dirs : ∀ n, outranks n = true → t'.isDir (n :: root) = t.isDir (n :: root)
  backend : ∀ c, t.get (backendOverride :: root) = some (.file c) → t'.get (backendOverride :: root) = some (.file c)

section
variable {t t' t'' : Tree} {root d base : Place} {n content : String} {module : Location} {run : Run} {m : Machine}
  {req : DriverRequest}

theorem Beside.refl (hwf : t.Wf) : Beside root t t := ⟨hwf, .refl t, fun _ _ => Iff.rfl, fun _ _ => rfl, fun _ => id⟩

theorem Beside.trans (h : Beside root t t') (h' : Beside root t' t'') : Beside root t t'' where
  wf := h'.wf
  grows := h.grows.trans h'.grows
  holds n hn := (h'.holds n hn).trans (h.holds n hn)
  dirs n hn := (h'.dirs n hn).trans (h.dirs n hn)
  backend c hc := h'.backend c (h.backend c hc)

theorem Beside.written (h : Written (n :: d) content t t') (hn : outranks n = false) (hb : n ≠ backendOverride) :
    Beside root t t' where
  wf := h.wf
  grows := h.grows
  holds k hk := by
    rw [h.holds, or_iff_left]
    rintro heq
    rw [(cons.inj heq).1, hn] at hk
    cases hk
  dirs k _ := h.dirs (k :: root)
  backend c hc := by
    rw [h.others]
    · exact hc
    · intro heq
      exact hb (cons.inj heq).1.symm

theorem Beside.made {names : List String} (h : Made base names t t') (hnames : ∀ k ∈ names, outranks k = false) :
    Beside root t t' where
  wf := h.wf
  grows := h.grows
  holds k _ := h.holds (k :: root)
  dirs k hk := by
    cases hdir : t'.isDir (k :: root) with
    | false =>
      cases hold : t.isDir (k :: root) with
      | false => rfl
      | true => rw [h.grows.isDir hold] at hdir; cases hdir
    | true =>
      rcases h.only _ hdir with hold | ⟨m, ds, d, hds, -, heq⟩
      · exact hold.symm
      · rw [(cons.inj heq).1, hnames m (hds.mem mem_cons_self)] at hk
        cases hk
  backend c hc := h.files hc

theorem Beside.private {k : String} (hwf : t.Wf) (h : writePrivate t ⟨base, [k]⟩ content = .ok t') (hk : outranks k = false)
    (hb : k ≠ backendOverride) : Beside root t t' := by
  obtain ⟨t1, hdir, h⟩ := bind_eq_ok.1 h
  cases privateDir_eq_ok.1 hdir
  split at h
  · cases h
  · obtain ⟨d, -, hwritten⟩ := write_spec hwf (mapError_eq_ok.1 h)
    exact .written hwritten hk hb

theorem writeScript_beside {script : Option String} {fetched : Bool} (hwf : t.Wf) (hroot : canonicalize t module = .ok root)
    (hdir : t.isDir root = true) (h : writeScript script fetched module t = .ok t') : Beside root t t' := by
  unfold writeScript at h
  split at h
  · cases h
    exact .refl hwf
  · refine .written (writePrivate_join hwf hroot hdir h) ?_ ?_
    · cases fetched <;> decide +kernel
    · cases fetched <;> decide

theorem prepareBackend_spec (hwf : t.Wf) (hroot : canonicalize t module = .ok root) (hdir : t.isDir root = true)
    (hrun : t.isDir run.root = true) (h : prepareBackend m run req module t = .ok t') : ∃ t1,
      Written (backendOverride :: root) (m.overrideFile req) t t1 ∧ Beside root t1 t' := by
  obtain ⟨_, -, h⟩ := bind_eq_ok.1 h
  obtain ⟨t1, hwrite, h⟩ := bind_eq_ok.1 h
  obtain ⟨creds, -, h⟩ := bind_eq_ok.1 h
  obtain ⟨t2, hcreds, h⟩ := bind_eq_ok.1 h
  have hwritten := writePrivate_join hwf hroot hdir hwrite
  have hbeside : Beside root t1 t2 := by
    unfold writeBackendCredentials at hcreds
    split at hcreds
    · exact .private hwritten.wf hcreds (by decide +kernel) (by decide)
    · cases hcreds
      exact .refl hwritten.wf
  have hcache := mkdirs_spec hbeside.wf (hbeside.grows.isDir (hwritten.grows.isDir hrun)) (privateDir_eq_ok.1 h)
  refine ⟨t1, hwritten, hbeside.trans (.made hcache fun k hk => ?_)⟩
  obtain rfl := mem_singleton.1 hk
  decide +kernel

theorem writeVars_beside {name : String} {vars : JsonMap} (hwf : t.Wf) (hn : outranks name = false) (hb : name ≠ backendOverride)
    (h : writeVars m run name vars t = .ok t') : Beside root t t' := by
  unfold writeVars at h
  split at h
  · cases h
    exact .refl hwf
  · exact .private hwf h hn hb

theorem credentials_beside {inputs : Inputs} {filled : JsonMap} (hwf : t.Wf)
    (h : credentials m run inputs req t = .ok (t', filled)) : Beside root t t' := by
  unfold credentials at h
  dsimp only at h
  split at h
  · obtain ⟨_, -, h⟩ := bind_eq_ok.1 h
    obtain ⟨_, -, h⟩ := bind_eq_ok.1 h
    split at h
    · cases h
      exact .refl hwf
    · obtain ⟨t1, hwrite, h⟩ := bind_eq_ok.1 h
      cases h
      exact .private hwf hwrite (by decide +kernel) (by decide)
  · cases h
    exact .refl hwf

theorem writeOutside_beside {inputs : Inputs} (hwf : t.Wf) (h : writeOutside m run req inputs t = .ok t') : Beside root t t' := by
  obtain ⟨⟨t1, filled⟩, hcreds, h⟩ := bind_eq_ok.1 h
  obtain ⟨t2, hvalues, h⟩ := bind_eq_ok.1 h
  have hbeside : Beside root t t1 := by
    unfold fillCredentials at hcreds
    split at hcreds
    · exact credentials_beside hwf hcreds
    · split at hcreds
      · cases hcreds
      · cases hcreds
        exact .refl hwf
  have hvalues : Beside root t1 t2 := writeVars_beside hbeside.wf (by decide +kernel) (by decide) hvalues
  exact hbeside.trans (hvalues.trans (writeVars_beside hvalues.wf (by decide +kernel) (by decide) h))

end

section
variable {m : Machine} {run : Run} {kept : Kept} {req : DriverRequest} {at' : SourceAt} {t t' : Tree} {c : Checkout}
  {root : Place}

theorem fetchModule_root {pinned : Option Pinned} {s : GitSource} {path : Option String} {module : Location}
    (h : fetchModule m run pinned s path t = .ok (t', module)) : ∃ root, canonicalize t' module = .ok root ∧
      t'.isDir root = true := by
  obtain ⟨⟨t1, _⟩, -, h⟩ := bind_eq_ok.1 h
  obtain ⟨module, -, h⟩ := bind_eq_ok.1 h
  obtain ⟨_, hdir, h⟩ := bind_eq_ok.1 h
  obtain ⟨root, hroot, h⟩ := bind_eq_ok.1 h
  obtain ⟨_, -, h⟩ := bind_eq_ok.1 h
  cases h
  have hroot := mapError_eq_ok.1 hroot
  refine ⟨root, hroot, ?_⟩
  unfold checkDirectory isDirectory at hdir
  rw [hroot] at hdir
  dsimp only at hdir
  split at hdir
  · assumption
  · cases hdir

theorem privateDir_root {base : Place} {name : String} (h : privateDir t ⟨base, [name]⟩ = .ok t') :
    ∃ root, t'.canonicalize base [name] = .ok root ∧ t'.isDir root = true := by
  have h := privateDir_eq_ok.1 h
  rw [Tree.mkdirs] at h
  split at h
  · rename_i p hp
    split at h
    · rename_i hdir
      cases h
      exact ⟨p, hp, hdir⟩
    · cases h
  · obtain ⟨t1, ht1, h⟩ := bind_eq_ok.1 h
    obtain ⟨d, hd, h⟩ := bind_eq_ok.1 h
    cases hd
    split at h
    · cases h
      have hget : (t1.put (name :: base) .dir).get (name :: base) = some .dir := by rw [get_put, if_pos rfl]
      refine ⟨name :: base, ?_, isDir_cons hget⟩
      change (t1.put (name :: base) .dir).follow (fun _ => false) _ base [.down name] = .ok (name :: base)
      rw [Tree.follow, hget]
      rfl
    · cases h
  · cases h

theorem checkOut_spec (h : checkOut m run kept req at' t = .ok c) :
    (∃ root, canonicalize c.tree c.module = .ok root ∧ c.tree.isDir root = true) ∧ (at' ≠ .current → c.pinned = none) := by
  obtain ⟨inputs, -, h⟩ := bind_eq_ok.1 h
  obtain ⟨pinned, hpinned, h⟩ := bind_eq_ok.1 h
  obtain ⟨_, -, h⟩ := bind_eq_ok.1 h
  obtain ⟨t1, -, h⟩ := bind_eq_ok.1 h
  obtain ⟨script, -, h⟩ := bind_eq_ok.1 h
  obtain ⟨source, -, h⟩ := bind_eq_ok.1 h
  have hnone : at' ≠ .current → pinned = none := by
    intro hat
    cases at' with
    | current => exact absurd rfl hat
    | retained s =>
      cases hpinned
      rfl
  split at h
  · obtain ⟨⟨tree, module⟩, hfetch, h⟩ := bind_eq_ok.1 h
    cases h
    exact ⟨fetchModule_root hfetch, hnone⟩
  · obtain ⟨tree, hdir, h⟩ := bind_eq_ok.1 h
    cases h
    exact ⟨privateDir_root hdir, hnone⟩

end

structure Run.Ready (run : Run) (t : Tree) : Prop where
  wf : t.Wf
  root : t.isDir run.root = true

/-- Nothing that the checkout and the inputs bring outranks the backend, in the module's directory `root`. -/
structure Unopposed (m : Machine) (kept : Kept) (req : DriverRequest) (at' : SourceAt) (c : Checkout) (root : Place) : Prop where
  checkout : ∀ n, outranks n = true → ¬ c.tree.Holds (n :: root)
  files : ∀ n, outranks n = true → ∀ file ∈ c.inputs.files, ¬ LandsAt c.tree root file (n :: root)
  /-- The lock file applied last is not copied through a link to such a name, unless that is a directory, nor over the
  backend. -/
  lock : ∀ lock n, kept.lock = some lock → c.tree.leads c.module.base (lockFile :: c.module.names) = .ok (n :: root) →
    (c.pinned = none → outranks n = true →
      c.tree.isDir (n :: root) = true ∨ ∃ file ∈ c.inputs.files, OnTheWay c.tree root file (n :: root)) ∧
    (at' ≠ .current → n = backendOverride → lock = m.overrideFile req)

/-- The tree once the backend is written, seen from the checkout. -/
structure Backed (m : Machine) (req : DriverRequest) (c : Checkout) (root : Place) (t : Tree) : Prop where
  wf : t.Wf
  grows : Grows c.tree t
  holds : ∀ n, outranks n = true →
    (t.Holds (n :: root) ↔ c.tree.Holds (n :: root) ∨ ∃ file ∈ c.inputs.files, LandsAt c.tree root file (n :: root))
  dirs : ∀ n, outranks n = true → (t.isDir (n :: root) = true ↔
    c.tree.isDir (n :: root) = true ∨ ∃ file ∈ c.inputs.files, OnTheWay c.tree root file (n :: root))
  backend : t.get (backendOverride :: root) = some (.file (m.overrideFile req))

section
variable {m : Machine} {run : Run} {kept : Kept} {req : DriverRequest} {at' : SourceAt} {t t' : Tree} {c : Checkout}
  {root : Place}

theorem outranks_backend : outranks backendOverride = false := by decide +kernel

variable {t1 t2 : Tree} {module : Location}

theorem backed_of_filled {script t3 : Tree} (hscript : Beside root c.tree script)
    (hfilled : Filled c.tree root c.inputs.files script t1)
    (hwritten : Written (backendOverride :: root) (m.overrideFile req) t1 t2) (hbeside : Beside root t2 t3) :
    Backed m req c root t3 where
  wf := hbeside.wf
  grows := hscript.grows.trans (hfilled.grows.trans (hwritten.grows.trans hbeside.grows))
  holds n hn := by
    have hne : n :: root ≠ backendOverride :: root := by
      intro heq
      rw [(cons.inj heq).1, outranks_backend] at hn
      cases hn
    rw [hbeside.holds n hn, hwritten.holds, or_iff_left hne, hfilled.holds, hscript.holds n hn]
  dirs n hn := by rw [hbeside.dirs n hn, hwritten.dirs, hfilled.dirs, hscript.dirs n hn]
  backend := hbeside.backend _ hwritten.here

theorem fillModule_spec (hready : run.Ready c.tree) (hroot : canonicalize c.tree c.module = .ok root)
    (hdir : c.tree.isDir root = true) (h : fillModule m run kept req at' c = .ok t') : ∃ t1 t2, Backed m req c root t1 ∧
      copyLock kept at' c.pinned c.module t1 = .ok t2 ∧ writePinnedLock c.pinned c.module t2 = .ok t' := by
  obtain ⟨script, hscript, h⟩ := bind_eq_ok.1 h
  obtain ⟨files, hfiles, h⟩ := bind_eq_ok.1 h
  obtain ⟨backend, hbackend, h⟩ := bind_eq_ok.1 h
  obtain ⟨locked, hlock, h⟩ := bind_eq_ok.1 h
  have hscript := writeScript_beside hready.wf hroot hdir hscript
  have hfilled := writeFiles_spec hscript.grows hscript.wf (walk_grows hscript.grows hroot) (hscript.grows.isDir hdir) hfiles
  have hgrows := hscript.grows.trans hfilled.grows
  obtain ⟨t1, hwritten, hbeside⟩ := prepareBackend_spec hfilled.wf (walk_grows hgrows hroot) (hgrows.isDir hdir)
    (hgrows.isDir hready.root) hbackend
  exact ⟨backend, locked, backed_of_filled hscript hfilled hwritten hbeside, hlock, h⟩

variable {pinned : Option Pinned}

theorem copyLock_cases (hwf : t.Wf) (hbase : t.isDir module.base = true) (h : copyLock kept at' pinned module t = .ok t') :
    (t' = t ∧ ∀ lock, kept.lock = some lock → useRetained at' pinned module t = false) ∨
    ∃ lock p, kept.lock = some lock ∧ useRetained at' pinned module t = true ∧
      t.opened module.base (lockFile :: module.names) = .ok p ∧ t.isDir p = false ∧ Written p lock t t' := by
  unfold copyLock at h
  split at h
  · rename_i lock hlock
    split at h
    · rename_i huse
      obtain ⟨p, hp, hdir, hwritten⟩ := writeThrough_spec hwf hbase (mapError_eq_ok.1 h)
      exact .inr ⟨lock, p, hlock, huse, hp, hdir, hwritten⟩
    · rename_i huse
      cases h
      exact .inl ⟨rfl, fun _ _ => by simpa using huse⟩
  · rename_i hnone
    cases h
    exact .inl ⟨rfl, fun lock hlock => by rw [hnone] at hlock; cases hlock⟩

theorem writePinnedLock_beside (hwf : t.Wf) (hroot : canonicalize t module = .ok root) (hdir : t.isDir root = true)
    (h : writePinnedLock pinned module t = .ok t') : Beside root t t' := by
  unfold writePinnedLock at h
  split at h
  · exact .written (writePrivate_join hwf hroot hdir h) (by decide +kernel) (by decide)
  · cases h
    exact .refl hwf

theorem useRetained_pinned (hpinned : at' ≠ .current → pinned = none) (h : useRetained at' pinned module t = true) :
    pinned = none := by
  cases at' with
  | current =>
    simp only [useRetained, Bool.and_eq_true] at h
    exact Option.isNone_iff_eq_none.1 h.1
  | retained => exact hpinned (by simp)

theorem wins_of_unopposed (hbacked : Backed m req c root t1) (hbase : t1.isDir c.module.base = true)
    (hpinned : at' ≠ .current → c.pinned = none) (hlock : copyLock kept at' c.pinned c.module t1 = .ok t2)
    (hbeside : Beside root t2 t') (h : Unopposed m kept req at' c root) : BackendWins m req root t' := by
  have hfree : ∀ n, outranks n = true → ¬ t1.Holds (n :: root) := by
    intro n hn
    rw [hbacked.holds n hn, not_or]
    exact ⟨h.checkout n hn, fun ⟨file, hfile, hlands⟩ => h.files n hn file hfile hlands⟩
  rcases copyLock_cases hbacked.wf hbase hlock with ⟨rfl, -⟩ | ⟨lock, p, hkept, huse, hp, hdir, hwritten⟩
  · exact ⟨hbeside.backend _ hbacked.backend, fun n hn => by rw [hbeside.holds n hn]; exact hfree n hn⟩
  · have hleads : c.tree.leads c.module.base (lockFile :: c.module.names) = .ok p := walk_before hbacked.grows hp
    constructor
    · refine hbeside.backend _ ?_
      by_cases hb : p = backendOverride :: root
      · -- only a repeated apply copies over a file that is there
        have hretained : at' ≠ .current := by
          rintro rfl
          have hexists : (t1.get p).isSome = true := by
            rw [hb, hbacked.backend]
            rfl
          have hcanonical := canonicalize_of_opened hp hexists
          simp only [useRetained, canonicalize, Location.join, hcanonical] at huse
          simp [Except.isOk, Except.toBool] at huse
        rw [hb] at hleads hwritten
        rw [hwritten.here, (h.lock lock _ hkept hleads).2 hretained rfl]
      · rw [hwritten.others (Ne.symm hb), hbacked.backend]
    · intro n hn
      rw [hbeside.holds n hn, hwritten.holds, not_or]
      refine ⟨hfree n hn, ?_⟩
      rintro rfl
      have hthere := (h.lock lock n hkept hleads).1 (useRetained_pinned hpinned huse) hn
      rw [(hbacked.dirs n hn).2 hthere] at hdir
      cases hdir

theorem unopposed_of_wins (hbacked : Backed m req c root t1) (hbase : t1.isDir c.module.base = true)
    (hlock : copyLock kept at' c.pinned c.module t1 = .ok t2) (hbeside : Beside root t2 t') (hgrows : Grows t1 t2)
    (h : BackendWins m req root t') : Unopposed m kept req at' c root := by
  have hfree : ∀ n, outranks n = true → ¬ t1.Holds (n :: root) := by
    intro n hn hholds
    exact h.last n hn (hbeside.grows.holds (hgrows.holds hholds))
  refine ⟨fun n hn hholds => ?_, fun n hn file hfile hlands => ?_, fun lock n hkept hleads =>
    ⟨fun hpinned hn => ?_, fun hat hb => ?_⟩⟩
  · exact hfree n hn ((hbacked.holds n hn).2 (.inl hholds))
  · exact hfree n hn ((hbacked.holds n hn).2 (.inr ⟨file, hfile, hlands⟩))
  · rcases copyLock_cases hbacked.wf hbase hlock with ⟨-, huse⟩ | ⟨lock', p, -, -, hp, -, hwritten⟩
    · -- the lock file is not copied because there is something where its path leads
      have huse := huse lock hkept
      cases at' with
      | retained => cases huse
      | current =>
        rw [useRetained, hpinned] at huse
        obtain ⟨q, hq⟩ := isOk_elim (show (canonicalize t1 (c.module.join lockFile)).isOk = true by simpa using huse)
        cases hleads.symm.trans (walk_before hbacked.grows hq)
        rcases canonicalize_place hbacked.wf hbase hq with hdir | hholds
        · exact (hbacked.dirs n hn).1 hdir
        · exact absurd hholds (hfree n hn)
    · cases hleads.symm.trans (walk_before hbacked.grows hp)
      exact absurd (hbeside.grows.holds (hwritten.holds.2 (.inr rfl))) (h.last n hn)
  · rcases copyLock_cases hbacked.wf hbase hlock with ⟨-, huse⟩ | ⟨lock', p, hkept', -, hp, -, hwritten⟩
    · have huse := huse lock hkept
      cases at' with
      | current => exact absurd rfl hat
      | retained => cases huse
    · cases hkept.symm.trans hkept'
      cases hleads.symm.trans (walk_before hbacked.grows hp)
      subst hb
      have hover := hbeside.backend _ hwritten.here
      rw [h.configured] at hover
      cases hover
      rfl

theorem copyLock_grows (hwf : t.Wf) (hbase : t.isDir module.base = true) (h : copyLock kept at' pinned module t = .ok t') :
    Grows t t' ∧ t'.Wf := by
  rcases copyLock_cases hwf hbase h with ⟨rfl, -⟩ | ⟨_, _, -, -, -, -, hwritten⟩
  · exact ⟨.refl _, hwf⟩
  · exact ⟨hwritten.grows, hwritten.wf⟩

theorem prepare_spec (hc : checkOut m run kept req at' t = .ok c) (hready : run.Ready c.tree)
    (h : prepare m run kept req at' t = .ok (t', module)) :
    module = c.module ∧ ∃ root, canonicalize c.tree c.module = .ok root ∧
      canonicalize t' c.module = .ok root ∧ ∃ t1 t2, Backed m req c root t1 ∧ t1.isDir c.module.base = true ∧
        copyLock kept at' c.pinned c.module t1 = .ok t2 ∧ Grows t1 t2 ∧ Beside root t2 t' := by
  obtain ⟨⟨root, hroot, hdir⟩, -⟩ := checkOut_spec hc
  obtain ⟨c', hc', h⟩ := bind_eq_ok.1 h
  cases hc.symm.trans hc'
  obtain ⟨filled, hfilled, h⟩ := bind_eq_ok.1 h
  obtain ⟨outside, houtside, h⟩ := bind_eq_ok.1 h
  cases h
  obtain ⟨t1, t2, hbacked, hlock, hpinned⟩ := fillModule_spec hready hroot hdir hfilled
  have hbase := hbacked.grows.isDir (base_isDir hready.wf hroot hdir)
  obtain ⟨hgrows, hwf⟩ := copyLock_grows hbacked.wf hbase hlock
  have hall := hbacked.grows.trans hgrows
  have hbeside := writePinnedLock_beside hwf (walk_grows hall hroot) (hall.isDir hdir) hpinned
  have houtside : Beside root filled t' := writeOutside_beside hbeside.wf houtside
  have hlast := hbeside.trans houtside
  exact ⟨rfl, root, hroot, walk_grows (hall.trans hlast.grows) hroot, t1, t2, hbacked, hbase, hlock, hgrows, hlast⟩

end

/-- The orchestrator's backend is the effective one of a prepared module exactly when nothing in the checkout, the files of the
definition and the copied lock file outranks it. -/
theorem backend_wins_iff (m : Machine) (run : Run) (kept : Kept) (req : DriverRequest) (at' : SourceAt) (t : Tree) (c : Checkout)
    (hc : checkOut m run kept req at' t = .ok c) (hready : run.Ready c.tree) (t' : Tree) (module : Location)
    (h : prepare m run kept req at' t = .ok (t', module)) : ∃ root, canonicalize t' module = .ok root ∧
      (BackendWins m req root t' ↔ Unopposed m kept req at' c root) := by
  obtain ⟨rfl, root, -, hroot, t1, t2, hbacked, hbase, hlock, hgrows, hbeside⟩ := prepare_spec hc hready h
  exact ⟨root, hroot, unopposed_of_wins hbacked hbase hlock hbeside hgrows,
    wins_of_unopposed hbacked hbase (checkOut_spec hc).2 hlock hbeside⟩

def tableRun : Run := { root := ["tofu"], dir := ["run", "tofu"] }

def tableTree : Tree := [(["tofu"], .dir), (["run", "tofu"], .dir)]

variable (entries : List (String × Entry))

def tableMachine : Machine where
  allowFileSources := false
  readCredentialsConfig _ := none
  readPinned _ := none
  fetch _ p t := .ok (entries.map (fun x => (x.1 :: p, x.2)) ++ (p, .dir) :: t, "c0ffee")
  checkBackend := .ok ()
  overrideFile _ := "the configured backend"
  credentialsFile := .ok none
  jsonText _ := ""

theorem tableGuresid_valid : isGuresid "00112233445566778899aabbccddeeff" = true := by decide

def tableRequest (files : JsonMap) : DriverRequest where
  guresid := ⟨"00112233445566778899aabbccddeeff", tableGuresid_valid⟩
  operation := { id := "o1", fingerprint := "f1" }
  resourceType := "dynamodb-table"
  resource := [("name", .str "orders")]
  resourceSecrets := []
  resourceSecretPaths := []
  values := [("source", .obj [("url", .str "https://placeholder.invalid/m")]), ("files", .obj files)]
  secrets := []
  credentials := none
  context := { org := "acme", app := "shop", env := "dev", envType := "development", resId := "x", resClass := "default" }
  cookie := none
  permit := none
  pin := none

def tableKept : Kept := { script := .error .noEnt, lock := some "the lock file" }

def loses (files : JsonMap) (at' : SourceAt) : Bool :=
  (prepare (tableMachine entries) tableRun tableKept (tableRequest files) at' tableTree).toOption.any fun x =>
    (canonicalize x.1 x.2).toOption.any fun root =>
      x.1.get (backendOverride :: root) ≠ some (.file "the configured backend") ||
        (x.1.names root).any fun n => outranks n && x.1.get (n :: root) ≠ some .dir

def Loses (files : JsonMap) (at' : SourceAt) : Prop :=
  ∃ t' module root, prepare (tableMachine entries) tableRun tableKept (tableRequest files) at' tableTree = .ok (t', module) ∧
    canonicalize t' module = .ok root ∧ ¬ BackendWins (tableMachine entries) (tableRequest files) root t'

theorem loses_spec {entries} {files : JsonMap} {at' : SourceAt} (h : loses entries files at' = true) :
    Loses entries files at' := by
  obtain ⟨⟨t', module⟩, hprepare, h⟩ := toOption_any h
  obtain ⟨root, hroot, h⟩ := toOption_any h
  refine ⟨t', module, root, hprepare, hroot, fun hwins => ?_⟩
  rcases Bool.or_eq_true_iff.1 h with h | h
  · exact of_decide_eq_true h hwins.configured
  · obtain ⟨n, hn, h⟩ := any_eq_true.1 h
    obtain ⟨hout, hdir⟩ := Bool.and_eq_true_iff.1 h
    obtain ⟨e, he⟩ := Option.isSome_iff_exists.1 (Files.mem_names.1 hn)
    refine hwins.last n hout ⟨e, he, fun hd => of_decide_eq_true hdir ?_⟩
    rw [he, hd]

def linkHere : Entry := .link ⟨false, []⟩

def linkTo (name : String) : Entry := .link ⟨false, [.down name]⟩

def retainedTable : SourceAt := .retained (some { url := "https://placeholder.invalid/m", path := none, commit := "c0ffee" })

/-- An override file with an extension that `is_override` does not know; a file written through a link to the module
itself; the lock file copied through a link that leads nowhere yet, or to the backend. -/
theorem override_loses : Loses [("zzzzz_override.tofu", .file "")] [] .current ∧
    Loses [] [("zzzzz_override.tofu", .str "")] .current ∧
    Loses [("here", linkHere)] [("here/zzzzz_override.tf", .str "")] .current ∧
    Loses [(lockFile, linkTo "zzzzz_override.tf")] [] .current ∧ Loses [(lockFile, linkTo backendOverride)] [] retainedTable := by
  refine ⟨loses_spec ?_, loses_spec ?_, loses_spec ?_, loses_spec ?_, loses_spec ?_⟩ <;> decide +kernel

def allInside (t : Tree) : Bool := t.all fun x => x.1.isEmpty || t.isDir x.1.tail

theorem wf_of_allInside {t : Tree} (h : allInside t = true) : t.Wf := by
  intro n d hsome
  obtain ⟨e, he⟩ := Option.isSome_iff_exists.1 hsome
  obtain ⟨before, after, hentries, -⟩ := lookup_eq_some_iff.1 he
  have hinside := all_eq_true.1 h (n :: d, e) (by simp [hentries])
  simpa using hinside

def tableEntries : List (String × Entry) := [("main.tf", .file ""), ("data", .dir), ("here", linkHere)]

def tableFiles : JsonMap := [("here/data/seed.json", .str "seed")]

theorem table_wins_iff : ∃ c t' module root,
    checkOut (tableMachine tableEntries) tableRun tableKept (tableRequest tableFiles) .current tableTree = .ok c ∧
    prepare (tableMachine tableEntries) tableRun tableKept (tableRequest tableFiles) .current tableTree = .ok (t', module) ∧
    (BackendWins (tableMachine tableEntries) (tableRequest tableFiles) root t' ↔
      Unopposed (tableMachine tableEntries) tableKept (tableRequest tableFiles) .current c root) := by
  have hchecked : (checkOut (tableMachine tableEntries) tableRun tableKept (tableRequest tableFiles) .current
      tableTree).toOption.any (fun c => allInside c.tree && c.tree.isDir tableRun.root) = true := by decide +kernel
  have hprepared : (prepare (tableMachine tableEntries) tableRun tableKept (tableRequest tableFiles) .current tableTree).isOk =
      true := by decide +kernel
  obtain ⟨c, hc, hready⟩ := toOption_any hchecked
  obtain ⟨hinside, hroot⟩ := Bool.and_eq_true_iff.1 hready
  obtain ⟨⟨t', module⟩, hprepare⟩ := isOk_elim hprepared
  obtain ⟨root, -, hiff⟩ := backend_wins_iff _ _ _ _ _ _ c hc ⟨wf_of_allInside hinside, hroot⟩ t' module hprepare
  exact ⟨c, t', module, root, hc, hprepare, hiff⟩

end Openporch.Tofu
