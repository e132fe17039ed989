import Openporch.Lib.Journal
import Openporch.Store.Outcomes

/-!
# The store's journal of operations

`Db.journal` reads the two tables as a journal: an operation is armed when the records do not show that its driver was
never called. `Sound` is what every transaction keeps of the two tables, and `Evolves` adds that the transaction's
writes are moves of the journal.
-/

namespace Openporch
open List Table
open Journal (Status Phase Rights Writes Move Moves Agree)

def ResourceStatus.journal (s : ResourceStatus) : Status :=
  if s.isRunning then .running else if s.isBlocked then .blocked else .idle

def OperationState.status : OperationState → Status
  | started => .running
  | unknown => .blocked
  | succeeded | failed => .idle

def Resource.key (r : Resource) : String × String × String := (r.app, r.env, r.descriptor)

namespace Db
variable (db : Db)

def armed (o : OperationRow) : Bool :=
  match o.kind with
  | .put => hasInputs o.recovery
  | .delete => !(db.resourceOf? o.guresid).any (·.cleanupPending)

def phase (o : OperationRow) : Phase :=
  match o.state with
  | .started => .running (db.armed o)
  | .unknown => .uncertain
  | .succeeded => .succeeded
  | .failed => .failed

def journal : Journal String String where
  status g := (db.resourceOf? g).map (·.status.journal)
  entry i := (db.operation? i).map fun o => (o.guresid, db.phase o)

structure Rows : Prop where
  ids : (db.operations.map (·.id)).Nodup
  guresids : (db.resources.map (·.guresid)).Nodup
  keys : (db.resources.map (·.key)).Nodup
  /-- An operation belongs to its resource's environment. -/
  home : ∀ o ∈ db.operations, ∀ r ∈ db.resources, r.guresid = o.guresid → r.app = o.app ∧ r.env = o.env
  /-- A restored operation remembers a status its resource can return to. -/
  restored : ∀ o ∈ db.operations, isRestored o.recovery = true →
    ∃ st : ResourceStatus, st.journal = .idle ∧ restoredStatus o.recovery = .ok st.text

structure Sound : Prop extends db.Rows where
  agree : db.journal.Agree

variable {db db' : Db} {rights : Rights String String}

structure Evolves (rights : Rights String String) (db db' : Db) : Prop where
  sound : db'.Sound
  moves : Moves rights db.journal db'.journal

theorem Evolves.refl (h : db.Sound) : Evolves rights db db := ⟨h, .refl⟩

theorem Evolves.trans {db1 db2 db3 : Db} (h : Evolves rights db1 db2) (h' : Evolves rights db2 db3) :
    Evolves rights db1 db3 :=
  ⟨h'.sound, h.moves.trans h'.moves⟩

theorem Sound.move (h : db.Sound) (hrows : db'.Rows) (hmove : Move rights db.journal db'.journal) :
    Evolves rights db db' :=
  ⟨⟨hrows, h.agree.move hmove⟩, .single hmove⟩

theorem phase_isOpen (o : OperationRow) : (db.phase o).isOpen = o.isOpen := by
  rcases o with ⟨_, _, _, _, _, _, _, state⟩
  cases state <;> rfl

theorem phase_status (o : OperationRow) : (db.phase o).status = o.state.status := by
  rcases o with ⟨_, _, _, _, _, _, _, state⟩
  cases state <;> rfl

variable {o op : OperationRow} {g : String} {r : Resource} {p : OperationRow → Bool} {q : Resource → Bool}

theorem phase_running {b : Bool} : db.phase o = .running b ↔ o.state = .started ∧ db.armed o = b := by
  rcases o with ⟨_, _, _, _, _, _, _, state⟩
  cases state <;> simp [phase]

theorem phase_failed : db.phase o = .failed ↔ o.state = .failed := by
  rcases o with ⟨_, _, _, _, _, _, _, state⟩
  cases state <;> simp [phase]

theorem phase_succeeded : db.phase o = .succeeded ↔ o.state = .succeeded := by
  rcases o with ⟨_, _, _, _, _, _, _, state⟩
  cases state <;> simp [phase]

theorem phase_congr (h : o.state = .started → db'.resourceOf? o.guresid = db.resourceOf? o.guresid) :
    db'.phase o = db.phase o := by
  cases hs : o.state with
  | started => simp only [phase, hs, armed, h hs]
  | succeeded | failed | unknown => simp only [phase, hs]

variable {id : String} {u : Resource → Resource}

theorem entry_eq (h : db.operation? id = some o) : db.journal.entry id = some (o.guresid, db.phase o) := by
  simp [journal, h]

theorem entry_eq_some {p : Phase} :
    db.journal.entry id = some (g, p) ↔ ∃ o, db.operation? id = some o ∧ o.guresid = g ∧ db.phase o = p := by
  simp [journal]

theorem status_eq (h : db.resourceOf? g = some r) : db.journal.status g = some r.status.journal := by
  simp [journal, h]

theorem operation?_id (h : db.operation? id = some o) : o.id = id := by
  simpa using find?_some h

theorem resourceOf?_guresid (h : db.resourceOf? g = some r) : r.guresid = g := by
  simpa using find?_some h

theorem Rows.operation?_iff (h : db.Rows) : db.operation? id = some o ↔ o ∈ db.operations ∧ o.id = id :=
  find?_key_iff h.ids

theorem Rows.resourceOf?_iff (h : db.Rows) : db.resourceOf? g = some r ↔ r ∈ db.resources ∧ r.guresid = g :=
  find?_key_iff h.guresids

theorem Rows.operation? (h : db.Rows) (ho : o ∈ db.operations) : db.operation? o.id = some o :=
  h.operation?_iff.2 ⟨ho, rfl⟩

theorem Rows.resourceOf? (h : db.Rows) (hr : r ∈ db.resources) : db.resourceOf? r.guresid = some r :=
  h.resourceOf?_iff.2 ⟨hr, rfl⟩

section
variable {id g : String} {f : OperationRow → OperationRow} {u : Resource → Resource}

theorem operation?_setOperation_self (hf : ∀ o, (f o).id = o.id) :
    (db.setOperation id f).operation? id = (db.operation? id).map f := by
  unfold operation? setOperation
  rw [find?_update fun o _ => hf o]
  cases h : db.operations.find? fun o => o.id = id with
  | none => rfl
  | some o => simp [by simpa using find?_some h]

theorem operation?_setOperation_ne (hf : ∀ o, (f o).id = o.id) {i : String} (hi : i ≠ id) :
    (db.setOperation id f).operation? i = db.operation? i := by
  unfold operation? setOperation
  rw [find?_update fun o _ => hf o]
  cases h : db.operations.find? fun o => o.id = i with
  | none => rfl
  | some o =>
    have : o.id = i := by simpa using find?_some h
    simp [this, hi]

theorem resourceOf?_setResource_self (hu : ∀ r, (u r).guresid = r.guresid) :
    (db.setResource g u).resourceOf? g = (db.resourceOf? g).map u := by
  unfold resourceOf? setResource
  rw [find?_update fun r _ => hu r]
  cases h : db.resources.find? fun r => r.guresid = g with
  | none => rfl
  | some r => simp [by simpa using find?_some h]

theorem resourceOf?_setResource_ne (hu : ∀ r, (u r).guresid = r.guresid) {g' : String} (hg : g' ≠ g) :
    (db.setResource g u).resourceOf? g' = db.resourceOf? g' := by
  unfold resourceOf? setResource
  rw [find?_update fun r _ => hu r]
  cases h : db.resources.find? fun r => r.guresid = g' with
  | none => rfl
  | some r =>
    have : r.guresid = g' := by simpa using find?_some h
    simp [this, hg]

end

def KeepsOperation (f : OperationRow → OperationRow) : Prop :=
  ∀ o, (f o).id = o.id ∧ (f o).guresid = o.guresid ∧ (f o).app = o.app ∧ (f o).env = o.env ∧
    (isRestored (f o).recovery = true → (f o).recovery = o.recovery)

def KeepsResource (u : Resource → Resource) : Prop := ∀ r, (u r).guresid = r.guresid ∧ (u r).key = r.key

theorem KeepsResource.home (hu : KeepsResource u) (r : Resource) :
    (u r).app = r.app ∧ (u r).env = r.env := by
  have h := (hu r).2
  simp only [Resource.key, Prod.mk.injEq] at h
  exact ⟨h.1, h.2.1⟩

theorem Rows.congr (h : db.Rows) (hops : db'.operations = db.operations) (hres : db'.resources = db.resources) :
    db'.Rows :=
  ⟨by rw [hops]; exact h.ids, by rw [hres]; exact h.guresids, by rw [hres]; exact h.keys,
    by rw [hops, hres]; exact h.home, by rw [hops]; exact h.restored⟩

theorem Rows.updateOperations (h : db.Rows) {f} (hf : KeepsOperation f)
    (hops : db'.operations = update p f db.operations) (hres : db'.resources = db.resources) : db'.Rows := by
  have hold : ∀ o' ∈ db'.operations, ∃ o ∈ db.operations, o' = o ∨ o' = f o := by
    intro o' ho'
    rw [hops] at ho'
    obtain ⟨o, ho, rfl⟩ := mem_update.1 ho'
    refine ⟨o, ho, ?_⟩
    split
    · exact .inr rfl
    · exact .inl rfl
  refine ⟨?_, by rw [hres]; exact h.guresids, by rw [hres]; exact h.keys, ?_, ?_⟩
  · rw [hops, keys_update fun o _ => (hf o).1]
    exact h.ids
  · intro o' ho' r hr hg
    rw [hres] at hr
    obtain ⟨o, ho, rfl | rfl⟩ := hold o' ho'
    · exact h.home o' ho r hr hg
    · obtain ⟨_, hg', happ, henv, _⟩ := hf o
      rw [happ, henv]
      exact h.home o ho r hr (hg.trans hg')
  · intro o' ho' hrestored
    obtain ⟨o, ho, rfl | rfl⟩ := hold o' ho'
    · exact h.restored o' ho hrestored
    · have hrec := (hf o).2.2.2.2 hrestored
      rw [hrec] at hrestored ⊢
      exact h.restored o ho hrestored

theorem Rows.updateResources (h : db.Rows) {p} (hu : KeepsResource u) (hres : db'.resources = update p u db.resources)
    (hops : db'.operations = db.operations) : db'.Rows := by
  refine ⟨by rw [hops]; exact h.ids, ?_, ?_, ?_, by rw [hops]; exact h.restored⟩
  · rw [hres, keys_update fun r _ => (hu r).1]
    exact h.guresids
  · rw [hres, keys_update fun r _ => (hu r).2]
    exact h.keys
  · intro o ho r' hr' hg
    rw [hops] at ho
    rw [hres] at hr'
    obtain ⟨r, hr, rfl⟩ := mem_update.1 hr'
    by_cases hp : p r = true
    · simp only [hp, if_true] at hg ⊢
      rw [(hu.home r).1, (hu.home r).2]
      exact h.home o ho r hr ((hu r).1 ▸ hg)
    · simp only [hp, if_false, Bool.false_eq_true] at hg ⊢
      exact h.home o ho r hr hg

theorem Rows.deleteResources (h : db.Rows) (hops : db'.operations = db.operations)
    (hres : db'.resources = delete q db.resources) : db'.Rows := by
  refine ⟨by rw [hops]; exact h.ids, by rw [hres]; exact nodup_delete h.guresids,
    by rw [hres]; exact nodup_delete h.keys, ?_, by rw [hops]; exact h.restored⟩
  intro o ho r hr
  rw [hops] at ho
  rw [hres, mem_delete] at hr
  exact h.home o ho r hr.1

theorem Rows.deleteRows (h : db.Rows) (hops : db'.operations = delete p db.operations)
    (hres : db'.resources = delete q db.resources) : db'.Rows := by
  refine ⟨by rw [hops]; exact nodup_delete h.ids, by rw [hres]; exact nodup_delete h.guresids,
    by rw [hres]; exact nodup_delete h.keys, ?_, ?_⟩
  · intro o ho r hr
    rw [hops, mem_delete] at ho
    rw [hres, mem_delete] at hr
    exact h.home o ho.1 r hr.1
  · intro o ho
    rw [hops, mem_delete] at ho
    exact h.restored o ho.1

theorem Rows.addOperation (h : db.Rows) (hid : db.operation? op.id = none)
    (hhome : ∀ r ∈ db.resources, r.guresid = op.guresid → r.app = op.app ∧ r.env = op.env)
    (hrestored : isRestored op.recovery = true → ∃ st : ResourceStatus, st.journal = .idle ∧
      restoredStatus op.recovery = .ok st.text)
    (hops : db'.operations = db.operations ++ [op]) (hres : db'.resources = db.resources) : db'.Rows := by
  have hnew : op.id ∉ db.operations.map (·.id) := by
    intro hmem
    obtain ⟨o, ho, hoid⟩ := mem_map.1 hmem
    exact absurd (find?_eq_none.1 hid o ho) (by simp [hoid])
  refine ⟨by rw [hops]; exact nodup_append_one h.ids hnew, by rw [hres]; exact h.guresids,
    by rw [hres]; exact h.keys, ?_, ?_⟩
  · intro o ho r hr hg
    rw [hres] at hr
    rw [hops, mem_append, mem_singleton] at ho
    rcases ho with ho | rfl
    · exact h.home o ho r hr hg
    · exact hhome r hr hg
  · intro o ho hr
    rw [hops, mem_append, mem_singleton] at ho
    rcases ho with ho | rfl
    · exact h.restored o ho hr
    · exact hrestored hr

theorem Rows.addResource (h : db.Rows) (hkey : db.resource? r.app r.env r.descriptor = none)
    (hg : db.resourceOf? r.guresid = none) (hunused : ∀ o ∈ db.operations, o.guresid ≠ r.guresid)
    (hres : db'.resources = db.resources ++ [r]) (hops : db'.operations = db.operations) : db'.Rows := by
  refine ⟨by rw [hops]; exact h.ids, ?_, ?_, ?_, by rw [hops]; exact h.restored⟩
  · rw [hres]
    refine nodup_append_one h.guresids ?_
    intro hmem
    obtain ⟨r', hr', hg'⟩ := mem_map.1 hmem
    exact absurd (find?_eq_none.1 hg r' hr') (by simp [hg'])
  · rw [hres]
    refine nodup_append_one h.keys ?_
    intro hmem
    obtain ⟨r', hr', hk⟩ := mem_map.1 hmem
    simp only [Resource.key, Prod.mk.injEq] at hk
    exact absurd (find?_eq_none.1 hkey r' hr') (by simp [hk])
  · intro o ho r' hr' hg'
    rw [hops] at ho
    rw [hres, mem_append, mem_singleton] at hr'
    rcases hr' with hr' | rfl
    · exact h.home o ho r' hr' hg'
    · exact absurd hg'.symm (hunused o ho)

theorem Sound.same (h : db.Sound) (hops : db'.operations = db.operations) (hres : db'.resources = db.resources) :
    Evolves rights db db' := by
  have hjournal : db'.journal = db.journal := by
    simp only [journal, phase, armed, operation?, resourceOf?, hops, hres]
  refine ⟨⟨h.toRows.congr hops hres, ?_⟩, ?_⟩
  · rw [hjournal]
    exact h.agree
  · rw [hjournal]

theorem Sound.columns (h : db.Sound) {p} (u : Resource → Resource) (hu : KeepsResource u)
    (hstatus : ∀ r, (u r).status = r.status) (hcleanup : ∀ r, (u r).cleanupPending = r.cleanupPending)
    (hres : db'.resources = update p u db.resources) (hops : db'.operations = db.operations) :
    Evolves rights db db' := by
  have hr : ∀ g, db'.resourceOf? g = (db.resourceOf? g).map fun r => if p r then u r else r := by
    intro g
    rw [resourceOf?, hres]
    exact find?_update fun r _ => (hu r).1
  have hkeep : ∀ r, (if p r then u r else r).status = r.status ∧
      (if p r then u r else r).cleanupPending = r.cleanupPending := by
    intro r
    split
    · exact ⟨hstatus r, hcleanup r⟩
    · exact ⟨rfl, rfl⟩
  have hjournal : db'.journal = db.journal := by
    simp only [journal, phase, armed, operation?, hops, hr, Option.map_map, Option.any_map]
    simp only [Function.comp_def, hkeep]
  refine ⟨⟨h.toRows.updateResources hu hres hops, ?_⟩, ?_⟩
  · rw [hjournal]
    exact h.agree
  · rw [hjournal]

/-- A step writes one operation and one resource if no other operation runs on that resource. -/
theorem writes {id : String} (hop : db'.operation? id = some op) (hothers : ∀ i, i ≠ id → db'.operation? i = db.operation? i)
    (hres : ∀ g, g ≠ op.guresid → db'.resourceOf? g = db.resourceOf? g)
    (hstatus : db'.journal.status op.guresid = some op.state.status ∨ db'.journal.status op.guresid = none ∧ op.isOpen = false)
    (hclosed : ∀ i p, i ≠ id → db.journal.entry i = some (op.guresid, p) → p.isOpen = false) :
    Journal.Writes db.journal db'.journal id op.guresid (db'.phase op) := by
  refine ⟨entry_eq hop, ?_, fun i hi => ?_, fun g hne => by simp only [journal, hres g hne]⟩
  · rw [phase_status, phase_isOpen]
    exact hstatus
  · cases ho : db.operation? i with
    | none => simp [journal, hothers i hi, ho]
    | some o =>
      rw [entry_eq (hothers i hi ▸ ho), entry_eq ho, phase_congr]
      intro hst
      refine hres o.guresid fun hsame => ?_
      have hphase := hclosed i _ hi (hsame ▸ entry_eq ho)
      rw [phase_isOpen, OperationRow.isOpen, hst] at hphase
      cases hphase

theorem Sound.turn (h : db.Sound) (hrows : db'.Rows) (op' : OperationRow) (hop : db.operation? op.id = some op)
    (hopen : op.isOpen = true) (hop' : db'.operation? op.id = some op') (hg : op'.guresid = op.guresid)
    (hothers : ∀ i, i ≠ op.id → db'.operation? i = db.operation? i)
    (hres : ∀ g, g ≠ op.guresid → db'.resourceOf? g = db.resourceOf? g)
    (hstatus : db'.journal.status op.guresid = some op'.state.status ∨ db'.journal.status op.guresid = none ∧ op'.isOpen = false)
    (hrunning : op'.state = .started → op.state = .started ∧ (db.armed op = true → db'.armed op' = true))
    (hfailed : op'.state = .failed → rights.own op.id ∨ op.state = .started ∧ db.armed op = false) :
    Evolves rights db db' := by
  have hentry := entry_eq hop
  have hphase : (db.phase op).isOpen = true := by rw [phase_isOpen, hopen]
  refine h.move hrows (.turn op.id op.guresid (db.phase op) (db'.phase op') hentry hphase ?_ ?_ ?_)
  · intro b hb
    obtain ⟨hst, rfl⟩ := phase_running.1 hb
    obtain ⟨hst', harmed⟩ := hrunning hst
    exact ⟨db.armed op, phase_running.2 ⟨hst', rfl⟩, harmed⟩
  · intro hf
    rcases hfailed (phase_failed.1 hf) with hown | hquiet
    · exact .inl hown
    · exact .inr (phase_running.2 hquiet)
  · rw [← hg] at hentry hres hstatus ⊢
    refine writes hop' hothers hres hstatus fun i p hi hentry' => ?_
    by_contra hopen'
    exact hi (h.agree.unique hentry' hentry (by simpa using hopen') hphase)

theorem Sound.begin (h : db.Sound) (hrows : db'.Rows) (hfresh : rights.fresh op.id) (hnone : db.operation? op.id = none)
    (hop : db'.operation? op.id = some op) (hopen : op.isOpen = true)
    (hfree : db.journal.status op.guresid = some .idle ∨ db.journal.status op.guresid = none ∧ rights.unused op.guresid)
    (hothers : ∀ i, i ≠ op.id → db'.operation? i = db.operation? i)
    (hres : ∀ g, g ≠ op.guresid → db'.resourceOf? g = db.resourceOf? g)
    (hstatus : db'.journal.status op.guresid = some op.state.status) : Evolves rights db db' := by
  refine h.move hrows (.begin op.id op.guresid (db'.phase op) hfresh ?_ hfree ?_ ?_)
  · simp [journal, hnone]
  · rw [phase_isOpen, hopen]
  · exact writes hop hothers hres (.inl hstatus) fun i p _ hentry => h.agree.closed (hfree.imp_right And.left) hentry

theorem Sound.drop (h : db.Sound) (hops : db'.operations = delete p db.operations)
    (hres : db'.resources = delete q db.resources)
    (hdropped : ∀ o ∈ db.operations, ∀ r ∈ db.resources, r.guresid = o.guresid → p o = true → q r = true)
    (hopen : ∀ o ∈ db.operations, ∀ r ∈ db.resources, r.guresid = o.guresid → o.isOpen = true → q r = true → p o = true) :
    Evolves rights db db' := by
  have hrows := h.toRows
  have hop : ∀ i, db'.operation? i = (db.operation? i).filter fun o => !p o := by
    intro i
    rw [operation?, hops]
    exact find?_delete hrows.ids
  have hr : ∀ g, db'.resourceOf? g = (db.resourceOf? g).filter fun r => !q r := by
    intro g
    rw [resourceOf?, hres]
    exact find?_delete hrows.guresids
  refine h.move (hrows.deleteRows hops hres) (.drop (fun i => ∃ o, db.operation? i = some o ∧ p o = true)
    (fun g => ∃ r, db.resourceOf? g = some r ∧ q r = true) ?_ ?_ ?_ ?_ ?_ ?_)
  · rintro i g ph hentry ⟨o, ho, hp⟩
    obtain ⟨o', ho', rfl, _⟩ := entry_eq_some.1 hentry
    obtain rfl : o' = o := Option.some.inj (ho'.symm.trans ho)
    cases hrg : db.resourceOf? o'.guresid with
    | none => exact .inr (by simp [journal, hrg])
    | some r =>
      obtain ⟨hmem, hg⟩ := hrows.resourceOf?_iff.1 hrg
      exact .inl ⟨r, rfl, hdropped o' (hrows.operation?_iff.1 ho').1 r hmem hg hp⟩
  · rintro i g ph hentry ho ⟨r, hrg, hq⟩
    obtain ⟨o, ho', rfl, rfl⟩ := entry_eq_some.1 hentry
    rw [phase_isOpen] at ho
    obtain ⟨hmem, hg⟩ := hrows.resourceOf?_iff.1 hrg
    exact ⟨o, ho', hopen o (hrows.operation?_iff.1 ho').1 r hmem hg ho hq⟩
  · rintro g ⟨r, hrg, hq⟩
    simp [journal, hr, hrg, hq]
  · intro g hK
    have : db'.resourceOf? g = db.resourceOf? g := by
      rw [hr]
      cases hrg : db.resourceOf? g with
      | none => rfl
      | some r => simpa [hrg] using hK
    simp only [journal, this]
  · rintro i ⟨o, ho, hp⟩
    simp [journal, hop, ho, hp]
  · intro i hI
    have hsame : db'.operation? i = db.operation? i := by
      rw [hop]
      cases ho : db.operation? i with
      | none => rfl
      | some o => simpa [ho] using hI
    cases ho : db.operation? i with
    | none => simp [journal, hsame, ho]
    | some o =>
      rw [entry_eq (hsame ▸ ho), entry_eq ho, phase_congr]
      intro hst
      rw [hr]
      cases hrg : db.resourceOf? o.guresid with
      | none => rfl
      | some r =>
        obtain ⟨hmem, hg⟩ := hrows.resourceOf?_iff.1 hrg
        have hopen' : o.isOpen = true := by
          rw [OperationRow.isOpen, hst]
          rfl
        have hq : q r = false := by
          by_contra hq
          exact hI ⟨o, ho, hopen o (hrows.operation?_iff.1 ho).1 r hmem hg hopen' (by simpa using hq)⟩
        simp [hq]

theorem Sound.dropResources (h : db.Sound) (hops : db'.operations = db.operations)
    (hres : db'.resources = delete q db.resources)
    (hclosed : ∀ o ∈ db.operations, ∀ r ∈ db.resources, r.guresid = o.guresid → o.isOpen = true → q r ≠ true) :
    Evolves rights db db' := by
  refine h.drop (p := fun _ => false) ?_ hres ?_ ?_
  · simp [delete, hops]
  · intro _ _ _ _ _ hp
    cases hp
  · intro o ho r hr hg hopen hq
    exact absurd hq (hclosed o ho r hr hg hopen)

theorem Sound.update (h : db.Sound) (f : OperationRow → OperationRow) (u : Resource → Resource)
    (hop : db.operation? op.id = some op) (hopen : op.isOpen = true) (hf : KeepsOperation f) (hu : KeepsResource u)
    (hops : db'.operations = (db.setOperation op.id f).operations)
    (hres : db'.resources = (db.setResource op.guresid u).resources)
    (hstatus : ∀ r, (u r).status.journal = (f op).state.status) (hstopped : (f op).state ≠ .started)
    (hfailed : (f op).state = .failed → rights.own op.id ∨ op.state = .started ∧ db.armed op = false) :
    Evolves rights db db' := by
  have hrows : (db.setOperation op.id f).Rows := h.toRows.updateOperations hf rfl rfl
  have hoperation : ∀ i, db'.operation? i = (db.setOperation op.id f).operation? i := by
    intro i
    rw [operation?, operation?, hops]
  have hresource : ∀ g, db'.resourceOf? g = (db.setResource op.guresid u).resourceOf? g := by
    intro g
    rw [resourceOf?, resourceOf?, hres]
  refine h.turn (hrows.updateResources hu hres hops) (f op) hop hopen ?_ (hf op).2.1 ?_ ?_ ?_
    (fun hst => absurd hst hstopped) hfailed
  · rw [hoperation, operation?_setOperation_self fun o => (hf o).1, hop]
    rfl
  · intro i hi
    rw [hoperation, operation?_setOperation_ne (fun o => (hf o).1) hi]
  · intro g hg
    rw [hresource, resourceOf?_setResource_ne (fun r => (hu r).1) hg]
  · -- the resource exists, since its operation is open
    left
    have hmirror := h.agree.mirrored (entry_eq hop) (by rw [phase_isOpen, hopen])
    cases hr : db.resourceOf? op.guresid with
    | none => simp [journal, hr] at hmirror
    | some r => simp [journal, hresource, resourceOf?_setResource_self fun r => (hu r).1, hr, hstatus]

end Db
end Openporch
