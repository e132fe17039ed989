import Openporch.Lib.Fallible

/-!
# File trees

Directories, files and symbolic links as a POSIX system has them. A place is the names that lead to it, the deepest
first. `walk` follows a path through the links on its way.
-/

namespace Files
open List Fallible

abbrev Place := List String

inductive Move where
  | up
  | down (name : String)
deriving DecidableEq

structure Target where
  absolute : Bool
  moves : List Move
deriving DecidableEq

inductive Entry where
  | dir
  | file (content : String)
  | link (target : Target)
deriving DecidableEq

inductive Errno where
  | noEnt
  | exist
  | notDir
  | isDir
  | loop
deriving DecidableEq

def Errno.text : Errno → String
  | noEnt => "No such file or directory (os error 2)"
  | exist => "File exists (os error 17)"
  | notDir => "Not a directory (os error 20)"
  | isDir => "Is a directory (os error 21)"
  | loop => "Too many levels of symbolic links (os error 40)"

abbrev Tree := List (Place × Entry)

namespace Tree

def get (t : Tree) (p : Place) : Option Entry := t.lookup p

def put (t : Tree) (p : Place) (e : Entry) : Tree := (p, e) :: t

def isDir (t : Tree) (p : Place) : Bool := p.isEmpty || t.get p = some .dir

def names (t : Tree) (p : Place) : List String :=
  t.filterMap fun x => match x.1 with
    | n :: d => if d = p then some n else none
    | [] => none

/-- Follows a path up to the next link, which `jump` follows. What does not exist is passed where `missing` says so
of the rest. -/
def follow (t : Tree) (missing : List Move → Bool) (jump : Place → List Move → Except Errno Place) :
    Place → List Move → Except Errno Place
  | p, [] => .ok p
  | p, .up :: rest => follow t missing jump p.tail rest
  | p, .down n :: rest =>
    match t.get (n :: p) with
    | some .dir => follow t missing jump (n :: p) rest
    | some (.file _) => if rest.isEmpty then .ok (n :: p) else .error .notDir
    | some (.link target) => jump (if target.absolute then [] else p) (target.moves ++ rest)
    | none => if missing rest then follow t missing jump (n :: p) rest else .error .noEnt

def walk (t : Tree) (missing : List Move → Bool) : Nat → Place → List Move → Except Errno Place
  | 0 => follow t missing fun _ _ => .error .loop
  | links + 1 => follow t missing (walk t missing links)

end Tree

def maxLinks : Nat := 40

def movesTo (names : List String) : List Move := names.reverse.map .down

namespace Tree

variable (t : Tree) (base : Place) (names : List String)

def canonicalize : Except Errno Place :=
  t.walk (fun _ => false) maxLinks base (movesTo names)

def leads : Except Errno Place :=
  t.walk (fun _ => true) maxLinks base (movesTo names)

def opened : Except Errno Place :=
  t.walk isEmpty maxLinks base (movesTo names)

def lstat : List String → Except Errno Entry
  | [] => .ok .dir
  | n :: parents => do
    let d ← t.canonicalize base parents
    match t.get (n :: d) with
    | some e => return e
    | none => throw .noEnt

def mkdirs (t : Tree) (base : Place) : List String → Except Errno Tree
  | [] => .ok t
  | n :: parents =>
    match t.canonicalize base (n :: parents) with
    | .ok p => if t.isDir p then .ok t else .error .exist
    | .error .noEnt => do
      let t ← t.mkdirs base parents
      let d ← t.canonicalize base parents
      match t.get (n :: d) with
      | none => return t.put (n :: d) .dir
      | some _ => throw .exist
    | .error e => .error e

def write (content : String) : List String → Except Errno Tree
  | [] => .error .isDir
  | n :: parents => do
    let d ← t.canonicalize base parents
    if t.isDir d then
      match t.get (n :: d) with
      | none | some (.file _) => return t.put (n :: d) (.file content)
      | some .dir => throw .isDir
      | some (.link _) => throw .loop
    else throw .notDir

def writeThrough (content : String) (names : List String) : Except Errno Tree := do
  let p ← t.opened base names
  if t.isDir p then throw .isDir else return t.put p (.file content)

end Tree

structure Grows (t t' : Tree) : Prop where
  dir : ∀ {p}, t.get p = some .dir → t'.get p = some .dir
  file : ∀ {p c}, t.get p = some (.file c) → ∃ c', t'.get p = some (.file c')
  link : ∀ {p target}, t'.get p = some (.link target) ↔ t.get p = some (.link target)

def Tree.Holds (t : Tree) (p : Place) : Prop := ∃ e, t.get p = some e ∧ e ≠ .dir

section
variable {t t' t'' : Tree} {p q base : Place} {moves : List Move} {names : List String} {n : String}

theorem Grows.refl (t : Tree) : Grows t t := ⟨id, fun h => ⟨_, h⟩, Iff.rfl⟩

theorem Grows.trans (h : Grows t t') (h' : Grows t' t'') : Grows t t'' where
  dir hp := h'.dir (h.dir hp)
  file hp := by
    obtain ⟨c, hc⟩ := h.file hp
    exact h'.file hc
  link := h'.link.trans h.link

theorem Grows.holds (h : Grows t t') (hp : t.Holds p) : t'.Holds p := by
  obtain ⟨e, he, hne⟩ := hp
  cases e with
  | dir => exact absurd rfl hne
  | file c =>
    obtain ⟨c', hc'⟩ := h.file he
    exact ⟨_, hc', by simp⟩
  | link target => exact ⟨_, h.link.2 he, by simp⟩

theorem Grows.get_none (h : Grows t t') (hp : t'.get p = none) : t.get p = none := by
  cases hget : t.get p with
  | none => rfl
  | some e =>
    cases e with
    | dir => cases hp.symm.trans (h.dir hget)
    | file c =>
      obtain ⟨c', hc'⟩ := h.file hget
      cases hp.symm.trans hc'
    | link target => cases hp.symm.trans (h.link.2 hget)

/-- Where a path leads, link by link. -/
inductive Leads (t : Tree) (missing : List Move → Bool) : Nat → Place → List Move → Place → Prop
  | done {links p} : Leads t missing links p [] p
  | up {links p q rest} :
    Leads t missing links p.tail rest q → Leads t missing links p (.up :: rest) q
  | dir {links p q n rest} :
    t.get (n :: p) = some .dir →
    Leads t missing links (n :: p) rest q → Leads t missing links p (.down n :: rest) q
  | file {links p n c} :
    t.get (n :: p) = some (.file c) → Leads t missing links p [.down n] (n :: p)
  | link {links p q n rest target} :
    t.get (n :: p) = some (.link target) →
    Leads t missing links (if target.absolute then [] else p) (target.moves ++ rest) q →
    Leads t missing (links + 1) p (.down n :: rest) q
  | missing {links p q n rest} :
    t.get (n :: p) = none → missing rest = true →
    Leads t missing links (n :: p) rest q → Leads t missing links p (.down n :: rest) q

variable {links : Nat} {content : String} {missing : List Move → Bool}

theorem Leads.of_walk (h : t.walk missing links p moves = .ok q) : Leads t missing links p moves q := by
  have hfollow : ∀ links (jump : Place → List Move → Except Errno Place),
    (∀ p n rest target, t.get (n :: p) = some (.link target) →
      jump (if target.absolute then [] else p) (target.moves ++ rest) = .ok q → Leads t missing links p (.down n :: rest) q) →
      ∀ p moves, t.follow missing jump p moves = .ok q → Leads t missing links p moves q := by
    intro links jump hjump p moves
    fun_induction Tree.follow t missing jump p moves with
    | case1 p =>
      intro h
      cases h
      exact .done
    | case2 p rest ih => exact fun h => .up (ih h)
    | case3 p n rest hdir ih => exact fun h => .dir hdir (ih h)
    | case4 p n rest c hfile hrest =>
      intro h
      obtain rfl := isEmpty_iff.1 hrest
      cases h
      exact .file hfile
    | case6 p n rest target hlink => exact hjump p n rest target hlink
    | case7 p n rest hnone hmissing ih => exact fun h => .missing hnone hmissing (ih h)
    | case5 | case8 =>
      intro h
      cases h
  induction links generalizing p moves with
  | zero => exact hfollow _ _ (fun _ _ _ _ _ h => by cases h) p moves h
  | succ links ih => exact hfollow _ _ (fun _ _ _ _ hlink h => .link hlink (ih h)) p moves h

theorem Leads.walk (h : Leads t missing links p moves q) : t.walk missing links p moves = .ok q := by
  -- with any number of links left, the walk follows the path in the same way
  have hwalk : ∀ links p moves, t.walk missing links p moves = t.follow missing (fun p moves => match links with
      | 0 => .error .loop
      | links + 1 => t.walk missing links p moves) p moves := fun links _ _ => by cases links <;> rfl
  induction h with
  | done => rw [hwalk, Tree.follow]
  | up _ ih => rw [hwalk, Tree.follow, ← hwalk, ih]
  | dir hdir _ ih =>
    rw [hwalk, Tree.follow, hdir]
    exact (hwalk _ _ _).symm.trans ih
  | file hfile =>
    rw [hwalk, Tree.follow, hfile]
    rfl
  | link hlink _ ih =>
    rw [hwalk, Tree.follow, hlink]
    exact ih
  | missing hnone hmissing _ ih =>
    rw [hwalk, Tree.follow, hnone]
    exact (if_pos hmissing).trans ((hwalk _ _ _).symm.trans ih)

theorem walk_grows (h : Grows t t') (hq : t.walk (fun _ => false) links p moves = .ok q) :
    t'.walk (fun _ => false) links p moves = .ok q := by
  refine Leads.walk ?_
  replace hq := Leads.of_walk hq
  induction hq with
  | done => exact .done
  | up _ ih => exact .up ih
  | dir hdir _ ih => exact .dir (h.dir hdir) ih
  | file hfile =>
    obtain ⟨c, hc⟩ := h.file hfile
    exact .file hc
  | link hlink _ ih => exact .link (h.link.2 hlink) ih
  | missing _ hmissing => cases hmissing

theorem walk_before (h : Grows t t') (hq : t'.walk missing links p moves = .ok q) :
    t.walk (fun _ => true) links p moves = .ok q := by
  refine Leads.walk ?_
  replace hq := Leads.of_walk hq
  induction hq with
  | done => exact .done
  | up _ ih => exact .up ih
  | @dir links p q n rest hdir _ ih =>
    cases hget : t.get (n :: p) with
    | none => exact .missing hget rfl ih
    | some e =>
      cases e with
      | dir => exact .dir hget ih
      | file c =>
        obtain ⟨c', hc'⟩ := h.file hget
        cases hdir.symm.trans hc'
      | link target => cases hdir.symm.trans (h.link.2 hget)
  | @file links p n c hfile =>
    cases hget : t.get (n :: p) with
    | none => exact .missing hget rfl .done
    | some e =>
      cases e with
      | dir => cases hfile.symm.trans (h.dir hget)
      | file c => exact .file hget
      | link target => cases hfile.symm.trans (h.link.2 hget)
  | link hlink _ ih => exact .link (h.link.1 hlink) ih
  | missing hnone _ _ ih => exact .missing (h.get_none hnone) rfl ih

theorem get_put (t : Tree) (p q : Place) (e : Entry) : (t.put p e).get q = if q = p then some e else t.get q := by
  rw [Tree.put, Tree.get, lookup_cons]
  by_cases hq : q = p
  · simp [hq]
  · rw [show (q == p) = false by simpa using hq, if_neg hq]
    rfl

theorem Grows.put_dir (h : t.get p = none) : Grows t (t.put p .dir) where
  dir {q} hq := by
    rw [get_put]
    split <;> simp_all
  file {q c} hq := by
    rw [get_put, if_neg]
    · exact ⟨c, hq⟩
    · rintro rfl
      cases h.symm.trans hq
  link {q target} := by
    rw [get_put]
    split <;> simp_all

theorem Grows.put_file {c : String} (h : t.get p = none ∨ ∃ c', t.get p = some (.file c')) : Grows t (t.put p (.file c)) where
  dir {q} hq := by
    rw [get_put, if_neg]
    · exact hq
    · rintro rfl
      rcases h with h | ⟨c', h⟩ <;> cases h.symm.trans hq
  file {q c'} hq := by
    rw [get_put]
    split
    · exact ⟨c, rfl⟩
    · exact ⟨c', hq⟩
  link {q target} := by
    rw [get_put]
    split
    · rename_i hq
      subst hq
      rcases h with h | ⟨c', h⟩ <;> simp [h]
    · rfl

def Tree.Wf (t : Tree) : Prop := ∀ n d, (t.get (n :: d)).isSome = true → t.isDir d = true

theorem Tree.Wf.tail (h : t.Wf) (hp : t.isDir p = true) : t.isDir p.tail = true := by
  cases p with
  | nil => rfl
  | cons n d =>
    refine h n d ?_
    rw [show t.get (n :: d) = some .dir by simpa [Tree.isDir] using hp]
    rfl

theorem Grows.isDir (h : Grows t t') (hp : t.isDir p = true) : t'.isDir p = true := by
  simp only [Tree.isDir, Bool.or_eq_true, decide_eq_true_eq] at hp ⊢
  exact hp.imp_right h.dir

variable {e : Entry} {a : List Move}

theorem Tree.Wf.put (h : t.Wf) (hd : t.isDir p = true) (hgrows : Grows t (t.put (n :: p) e)) : (t.put (n :: p) e).Wf := by
  intro m d hm
  rw [get_put] at hm
  split at hm
  · rename_i heq
    obtain ⟨rfl, rfl⟩ := cons.inj heq
    exact hgrows.isDir hd
  · exact hgrows.isDir (h m d hm)

theorem isDir_cons (hdir : t.get (n :: p) = some .dir) : t.isDir (n :: p) = true := by simp [Tree.isDir, hdir]

theorem walk_snoc (hwf : t.Wf) (hp : t.isDir p = true)
    (hq : t.walk (fun _ => false) links p (a ++ [.down n]) = .ok q) :
    ∃ r, t.walk (fun _ => false) links p a = .ok r ∧ t.isDir r = true ∧
      (q = n :: r ∨ ∃ target, t.get (n :: r) = some (.link target)) := by
  suffices h : ∀ {links p moves q}, Leads t (fun _ => false) links p moves q → ∀ {a}, moves = a ++ [.down n] →
      t.isDir p = true → ∃ r, Leads t (fun _ => false) links p a r ∧ t.isDir r = true ∧
        (q = n :: r ∨ ∃ target, t.get (n :: r) = some (.link target)) by
    obtain ⟨r, hr, hrest⟩ := h (Leads.of_walk hq) rfl hp
    exact ⟨r, hr.walk, hrest⟩
  intro links p moves q h
  induction h with
  | done => exact fun heq => absurd heq (by simp)
  | @up links p q rest _ ih =>
    intro a heq hp
    cases a with
    | nil => cases heq
    | cons move a =>
      obtain ⟨rfl, rfl⟩ := cons.inj heq
      obtain ⟨r, hr, hrest⟩ := ih rfl (hwf.tail hp)
      exact ⟨r, .up hr, hrest⟩
  | @dir links p q m rest hdir hnext ih =>
    intro a heq hp
    cases a with
    | nil =>
      cases heq
      cases hnext
      exact ⟨p, .done, hp, .inl rfl⟩
    | cons move a =>
      obtain ⟨rfl, rfl⟩ := cons.inj heq
      obtain ⟨r, hr, hrest⟩ := ih rfl (isDir_cons hdir)
      exact ⟨r, .dir hdir hr, hrest⟩
  | @file links p m c hfile =>
    intro a heq hp
    cases a with
    | nil =>
      cases heq
      exact ⟨p, .done, hp, .inl rfl⟩
    | cons move a => exact absurd (cons.inj heq).2 (by simp)
  | @link links p q m rest target hlink _ ih =>
    intro a heq hp
    cases a with
    | nil =>
      cases heq
      exact ⟨p, .done, hp, .inr ⟨target, hlink⟩⟩
    | cons move a =>
      obtain ⟨rfl, rfl⟩ := cons.inj heq
      have hstart : t.isDir (if target.absolute then [] else p) = true := by
        split
        · rfl
        · exact hp
      obtain ⟨r, hr, hrest⟩ := ih (append_assoc _ _ _).symm hstart
      exact ⟨r, .link hlink hr, hrest⟩
  | missing _ hmissing => cases hmissing

theorem walk_concat (hq : t.walk (fun _ => false) links p a = .ok q) (hdir : t.isDir q = true)
    (hn : t.get (n :: q) = some e) (he : ∀ target, e ≠ .link target) :
    t.walk (fun _ => false) links p (a ++ [.down n]) = .ok (n :: q) := by
  refine Leads.walk ?_
  replace hq := Leads.of_walk hq
  induction hq with
  | done =>
    cases e with
    | dir => exact .dir hn .done
    | file c => exact .file hn
    | link target => exact absurd rfl (he target)
  | up _ ih => exact .up (ih hdir hn)
  | dir hdir' _ ih => exact .dir hdir' (ih hdir hn)
  | file hfile => simp [Tree.isDir, hfile] at hdir
  | link hlink _ ih => exact .link hlink (by simpa using ih hdir hn)
  | missing _ hmissing => cases hmissing

theorem movesTo_cons (n : String) (names : List String) : movesTo (n :: names) = movesTo names ++ [.down n] := by
  simp [movesTo]

theorem canonicalize_suffix (hwf : t.Wf) (hbase : t.isDir base = true) (hq : t.canonicalize base names = .ok q)
    (hdir : t.isDir q = true) {ds : List String} (hds : ds <:+ names) : ∃ p, t.canonicalize base ds = .ok p ∧
      t.isDir p = true := by
  induction names generalizing q with
  | nil => exact ⟨q, suffix_nil.1 hds ▸ hq, hdir⟩
  | cons n parents ih =>
    rcases suffix_cons_iff.1 hds with rfl | hds
    · exact ⟨q, hq, hdir⟩
    · rw [Tree.canonicalize, movesTo_cons] at hq
      obtain ⟨r, hr, hrdir, -⟩ := walk_snoc hwf hbase hq
      exact ih hr hrdir hds

structure Made (base : Place) (names : List String) (t t' : Tree) : Prop where
  wf : t'.Wf
  grows : Grows t t'
  holds : ∀ p, t'.Holds p ↔ t.Holds p
  made : ∀ ds, ds <:+ names → ∃ p, t'.canonicalize base ds = .ok p ∧ t'.isDir p = true
  only : ∀ p, t'.isDir p = true → t.isDir p = true ∨ ∃ m ds d, m :: ds <:+ names ∧
    t'.canonicalize base (m :: ds) = .ok p ∧ p = m :: d
  files : ∀ {p c}, t.get p = some (.file c) → t'.get p = some (.file c)

theorem mkdirs_spec (hwf : t.Wf) (hbase : t.isDir base = true) (h : t.mkdirs base names = .ok t') : Made base names t t' := by
  induction names generalizing t' with
  | nil =>
    cases h
    refine ⟨hwf, .refl t, fun _ => Iff.rfl, fun ds hds => ?_, fun p hp => .inl hp, id⟩
    rw [suffix_nil.1 hds]
    exact ⟨base, rfl, hbase⟩
  | cons n parents ih =>
    rw [Tree.mkdirs] at h
    split at h
    · rename_i q hq
      split at h
      · rename_i hdir
        cases h
        refine ⟨hwf, .refl t, fun _ => Iff.rfl, fun ds hds => ?_, fun p hp => .inl hp, id⟩
        exact canonicalize_suffix hwf hbase hq hdir hds
      · cases h
    · rename_i herror
      obtain ⟨t1, hparents, h⟩ := bind_eq_ok.1 h
      obtain ⟨d, hd, h⟩ := bind_eq_ok.1 h
      have hmade := ih hparents
      obtain ⟨d', hd', hdir⟩ := hmade.made parents suffix_rfl
      cases hd.symm.trans hd'
      split at h
      · rename_i hnone
        cases h
        have hgrows : Grows t1 (t1.put (n :: d) .dir) := .put_dir hnone
        have hnew : (t1.put (n :: d) .dir).canonicalize base (n :: parents) = .ok (n :: d) := by
          unfold Tree.canonicalize
          rw [movesTo_cons]
          exact walk_concat (walk_grows hgrows hd) (hgrows.isDir hdir) (by rw [get_put, if_pos rfl]) fun _ => Entry.noConfusion
        refine ⟨hmade.wf.put hdir hgrows, hmade.grows.trans hgrows, fun p => ?_, fun ds hds => ?_, fun p hp => ?_,
          fun {p c} hp => ?_⟩
        · rw [← hmade.holds, Tree.Holds, Tree.Holds, get_put]
          by_cases hp : p = n :: d
          · simp [hp, hnone]
          · rw [if_neg hp]
        · rcases suffix_cons_iff.1 hds with rfl | hds
          · exact ⟨n :: d, hnew, isDir_cons (by rw [get_put, if_pos rfl])⟩
          · obtain ⟨p, hp, hpdir⟩ := hmade.made ds hds
            exact ⟨p, walk_grows hgrows hp, hgrows.isDir hpdir⟩
        · by_cases heq : p = n :: d
          · exact .inr ⟨n, parents, d, suffix_rfl, heq ▸ hnew, heq⟩
          · have hp1 : t1.isDir p = true := by
              rw [Tree.isDir, get_put, if_neg heq] at hp
              exact hp
            rcases hmade.only p hp1 with hold | ⟨m, ds, d', hds, hcanonical, hm⟩
            · exact .inl hold
            · exact .inr ⟨m, ds, d', hds.trans (suffix_cons n parents), walk_grows hgrows hcanonical, hm⟩
        · have hfile := hmade.files hp
          rw [get_put, if_neg]
          · exact hfile
          · rintro rfl
            cases hnone.symm.trans hfile
      · cases h
    · cases h

structure Written (p : Place) (content : String) (t t' : Tree) : Prop where
  wf : t'.Wf
  grows : Grows t t'
  here : t'.get p = some (.file content)
  others : ∀ {q}, q ≠ p → t'.get q = t.get q
  dirs : ∀ q, t'.isDir q = t.isDir q

theorem Written.holds (h : Written p content t t') : t'.Holds q ↔ t.Holds q ∨ q = p := by
  by_cases hq : q = p
  · subst hq
    simp [Tree.Holds, h.here]
  · simp [Tree.Holds, h.others hq, hq]

theorem written_put (hwf : t.Wf) (hd : t.isDir p = true) (h : t.get (n :: p) = none ∨ ∃ c, t.get (n :: p) = some (.file c)) :
    Written (n :: p) content t (t.put (n :: p) (.file content)) := by
  have hgrows : Grows t (t.put (n :: p) (.file content)) := .put_file h
  refine ⟨hwf.put hd hgrows, hgrows, by rw [get_put, if_pos rfl], fun hq => by rw [get_put, if_neg hq], fun q => ?_⟩
  unfold Tree.isDir
  rw [get_put]
  by_cases hq : q = n :: p
  · rcases h with h | ⟨c, h⟩ <;> simp [hq, h]
  · rw [if_neg hq]

theorem write_spec (hwf : t.Wf) (h : t.write base content (n :: names) = .ok t') :
    ∃ d, t.canonicalize base names = .ok d ∧ Written (n :: d) content t t' := by
  rw [Tree.write] at h
  obtain ⟨d, hd, h⟩ := bind_eq_ok.1 h
  refine ⟨d, hd, ?_⟩
  split at h
  · rename_i hdir
    split at h
    · rename_i hnone
      cases h
      exact written_put hwf hdir (.inl hnone)
    · rename_i c hfile
      cases h
      exact written_put hwf hdir (.inr ⟨c, hfile⟩)
    · cases h
    · cases h
  · cases h

theorem walk_place (hwf : t.Wf) (hmissing : ∀ rest, missing rest = true → rest = []) (hp : t.isDir p = true)
    (hq : t.walk missing links p moves = .ok q) : t.isDir q = true ∨
      ∃ n d, q = n :: d ∧ t.isDir d = true ∧ (t.get q = none ∧ missing [] = true ∨ ∃ c, t.get q = some (.file c)) := by
  replace hq := Leads.of_walk hq
  induction hq with
  | done => exact .inl hp
  | up _ ih => exact ih (hwf.tail hp)
  | dir hdir _ ih => exact ih (isDir_cons hdir)
  | @file links p n c hfile => exact .inr ⟨n, p, rfl, hp, .inr ⟨c, hfile⟩⟩
  | link _ _ ih =>
    refine ih ?_
    split
    · rfl
    · exact hp
  | @missing links p q n rest hnone hrest hnext =>
    obtain rfl := hmissing rest hrest
    cases hnext
    exact .inr ⟨n, p, rfl, hp, .inl ⟨hnone, hrest⟩⟩

theorem canonicalize_place (hwf : t.Wf) (hbase : t.isDir base = true) (hq : t.canonicalize base names = .ok q) :
    t.isDir q = true ∨ t.Holds q := by
  refine (walk_place hwf (fun _ h => Bool.noConfusion h) hbase hq).imp_right ?_
  rintro ⟨n, d, -, -, ⟨-, h⟩ | ⟨c, hc⟩⟩
  · cases h
  · exact ⟨_, hc, by simp⟩

theorem writeThrough_spec (hwf : t.Wf) (hbase : t.isDir base = true) (h : t.writeThrough base content names = .ok t') :
    ∃ p, t.opened base names = .ok p ∧ t.isDir p = false ∧ Written p content t t' := by
  rw [Tree.writeThrough] at h
  obtain ⟨p, hp, h⟩ := bind_eq_ok.1 h
  split at h
  · cases h
  · rename_i hdir
    cases h
    refine ⟨p, hp, by simpa using hdir, ?_⟩
    rcases walk_place hwf (fun _ => isEmpty_iff.1) hbase hp with hp' | ⟨n, d, rfl, hd, hget⟩
    · exact absurd hp' hdir
    · exact written_put hwf hd (hget.imp_left And.left)

theorem canonicalize_of_opened (hq : t.opened base names = .ok q) (hsome : (t.get q).isSome = true) :
    t.canonicalize base names = .ok q := by
  refine Leads.walk ?_
  replace hq := Leads.of_walk hq
  generalize maxLinks = links at hq ⊢
  generalize movesTo names = moves at hq ⊢
  induction hq with
  | done => exact .done
  | up _ ih => exact .up (ih hsome)
  | dir hdir _ ih => exact .dir hdir (ih hsome)
  | file hfile => exact .file hfile
  | link hlink _ ih => exact .link hlink (ih hsome)
  | missing hnone hrest hnext =>
    obtain rfl := isEmpty_iff.1 hrest
    cases hnext
    rw [hnone] at hsome
    cases hsome

theorem base_isDir (hwf : t.Wf) (hq : t.canonicalize base names = .ok q) (hdir : t.isDir q = true) : t.isDir base = true := by
  change t.follow (fun _ => false) (t.walk (fun _ => false) 39) base (names.reverse.map .down) = .ok q at hq
  cases hnames : names.reverse with
  | nil =>
    rw [hnames] at hq
    cases hq
    exact hdir
  | cons n rest =>
    refine hwf n base ?_
    rw [hnames, map_cons, Tree.follow] at hq
    cases hget : t.get (n :: base) with
    | none =>
      rw [hget] at hq
      cases hq
    | some e => rfl

theorem mkdirs_of_dir {base : Place} (hp : t.canonicalize base names = .ok p) (hdir : t.isDir p = true) :
    t.mkdirs base names = .ok t := by
  cases names with
  | nil => rfl
  | cons n parents =>
    rw [Tree.mkdirs, hp]
    exact if_pos hdir

theorem mem_names : n ∈ t.names p ↔ (t.get (n :: p)).isSome = true := by
  unfold Tree.names Tree.get
  induction t with
  | nil => simp
  | cons x t ih =>
    obtain ⟨q, e⟩ := x
    rw [filterMap_cons, lookup_cons]
    by_cases hq : n :: p = q
    · subst hq
      simp
    · rw [show (n :: p == q) = false by simpa using hq, ← ih]
      cases q with
      | nil => rfl
      | cons m d =>
        by_cases hd : d = p
        · have hm : n ≠ m := fun h => hq (by rw [h, hd])
          simp [hd, hm]
        · simp [hd]

end

end Files
