import Openporch.GraphRun

/-!
# The expansion never fails unexpectedly

Every edge the builder is made to add joins resources requested before it (`Op.Sound`), so no `expect` fails: the
builder stops only because a request is refused or a definition does not parse.
-/

namespace Openporch
open Fallible List

namespace Op

/-- Each edge joins resources that are in `known` or requested before it, and no failure is a cycle. -/
def Sound (known : Descriptor → Prop) : List Op → Prop
  | [] => True
  | .request d _ _ :: rest => Sound (fun x => known x ∨ x = d) rest
  | .edge a t :: rest => known a ∧ known t ∧ Sound known rest
  | .coProvision _ :: rest => Sound known rest
  | .fail e :: rest => (∀ c, e ≠ .cycle c) ∧ Sound known rest

def Requests (ops : List Op) (d : Descriptor) : Prop := ∃ path params, .request d path params ∈ ops

variable {known known' : Descriptor → Prop} {ops ops' : List Op}

theorem Sound.mono (hle : ∀ d, known d → known' d) (h : Sound known ops) : Sound known' ops := by
  induction ops generalizing known known' with
  | nil => trivial
  | cons op ops ih =>
    cases op with
    | request d path params => exact ih (fun x hx => hx.imp_left (hle x)) h
    | edge a t => exact ⟨hle a h.1, hle t h.2.1, ih hle h.2.2⟩
    | coProvision c => exact ih hle h
    | fail e => exact ⟨h.1, ih hle h.2⟩

theorem Requests.append_left {d : Descriptor} (h : Requests ops d) : Requests (ops ++ ops') d := by
  obtain ⟨path, params, h⟩ := h
  exact ⟨path, params, mem_append_left _ h⟩

theorem Requests.append_right {d : Descriptor} (h : Requests ops' d) : Requests (ops ++ ops') d := by
  obtain ⟨path, params, h⟩ := h
  exact ⟨path, params, mem_append_right _ h⟩

theorem Sound.append (h : Sound known ops) (h' : Sound (fun d => known d ∨ Requests ops d) ops') :
    Sound known (ops ++ ops') := by
  induction ops generalizing known with
  | nil => exact h'.mono fun d hd => hd.resolve_right (by rintro ⟨_, _, h⟩; cases h)
  | cons op ops ih =>
    cases op with
    | request d path params =>
      refine ih h (h'.mono fun x hx => ?_)
      rcases hx with hx | ⟨path', params', hx⟩
      · exact .inl (.inl hx)
      · rcases mem_cons.1 hx with heq | hx
        · cases heq
          exact .inl (.inr rfl)
        · exact .inr ⟨path', params', hx⟩
    | edge a t => exact ⟨h.1, h.2.1, ih h.2.2 (h'.mono fun x hx => hx.imp_right fun ⟨p, q, hx⟩ => ⟨p, q, by simpa using hx⟩)⟩
    | coProvision c => exact ih h (h'.mono fun x hx => hx.imp_right fun ⟨p, q, hx⟩ => ⟨p, q, by simpa using hx⟩)
    | fail e => exact ⟨h.1, ih h.2 (h'.mono fun x hx => hx.imp_right fun ⟨p, q, hx⟩ => ⟨p, q, by simpa using hx⟩)⟩

theorem Sound.flatMap {α : Type} {l : List α} {f : α → List Op} (h : ∀ x ∈ l, Sound known (f x)) :
    Sound known (l.flatMap f) := by
  induction l with
  | nil => trivial
  | cons x l ih =>
    rw [flatMap_cons]
    refine (h x mem_cons_self).append ((ih fun y hy => h y (mem_cons_of_mem _ hy)).mono fun _ => .inl)

theorem Sound.target (h : Sound known ops) {a t : Descriptor} (ht : .edge a t ∈ ops) : known t ∨ Requests ops t := by
  induction ops generalizing known with
  | nil => cases ht
  | cons op ops ih =>
    have hcons : Requests ops t → Requests (op :: ops) t := fun h => (h.append_right : Requests ([op] ++ ops) t)
    rcases mem_cons.1 ht with rfl | hrest
    · exact .inl h.2.1
    · cases op with
      | request d path params =>
        rcases ih h hrest with (hk | rfl) | hr
        · exact .inl hk
        · exact .inr ⟨path, params, mem_cons_self⟩
        · exact .inr (hcons hr)
      | edge a' t' => exact (ih h.2.2 hrest).imp_right hcons
      | coProvision c => exact (ih h hrest).imp_right hcons
      | fail e => exact (ih h.2 hrest).imp_right hcons

theorem Sound.fail {e : GraphError} (h : Sound known ops) (he : .fail e ∈ ops)
    (c : List Descriptor) : e ≠ .cycle c := by
  induction ops generalizing known with
  | nil => cases he
  | cons op ops ih =>
    rcases mem_cons.1 he with rfl | hrest
    · exact h.1 c
    · cases op with
      | request => exact ih h hrest
      | edge => exact ih h.2.2 hrest
      | coProvision => exact ih h hrest
      | fail => exact ih h.2 hrest

end Op

open Op

namespace GraphInput
variable (input : GraphInput)

theorem moduleOps_sound (wid : WorkloadId) (m : Module) : Sound (fun _ => False) (moduleOps wid m) := by
  refine Sound.flatMap fun ⟨key, ext⟩ _ => ?_
  dsimp only
  unfold externalOps
  split
  · exact ⟨nofun, trivial⟩
  · exact ⟨.inl (.inr rfl), .inr rfl, trivial⟩

theorem sharedOps_sound (id : String) (s : SharedResource) : Sound (fun _ => False) (sharedOps id s) := by
  unfold sharedOps
  split
  · exact ⟨nofun, trivial⟩
  · trivial

theorem sharedTarget_requested {id : String} {t : Descriptor} (h : sharedTarget input.set id = some t) :
    Requests (input.set.shared.toList.flatMap fun (id, s) => sharedOps id s) t := by
  simp only [sharedTarget, bind, Option.bind_eq_some_iff] at h
  obtain ⟨s, hs, rid, hrid, ht⟩ := h
  cases ht
  have hok : ResId.shared id = .ok rid := by
    cases hres : ResId.shared id with
    | ok r => rw [hres] at hrid; cases hrid; rfl
    | error e => rw [hres] at hrid; cases hrid
  refine ⟨"shared." ++ id, some (s.params.getD .null), mem_flatMap.2 ⟨(id, s), ?_, ?_⟩⟩
  · exact Std.ExtTreeMap.mem_toList_iff_getElem?_eq_some.2 hs
  · simp [sharedOps, hok]

theorem sharedReads_sound {known} {wid : WorkloadId} {m : Module} (hw : known (workload wid m))
    (ht : ∀ id t, sharedTarget input.set id = some t → known t) : Sound known (input.sharedReads wid m) := by
  refine Sound.flatMap fun found _ => ?_
  obtain ⟨loc, raw, expr⟩ := found
  cases expr with
  | shared id path =>
    dsimp only
    cases htarget : sharedTarget input.set id with
    | none => trivial
    | some t => exact ⟨hw, ht id t htarget, trivial⟩
  | _ => trivial

theorem referenceOps_sound (d : Descriptor) (dfn : ResourceDefinition) (loc : String) (e : Expr) :
    Sound (· = d) (input.referenceOps d dfn loc e) := by
  cases e with
  | resource target field => exact ⟨.inl rfl, .inr rfl, trivial⟩
  | _ => trivial

theorem paramOps_sound (d co : Descriptor) (dfn : ResourceDefinition) (loc : String) (e : Expr) :
    Sound (fun x => x = d ∨ x = co) (input.paramOps d co dfn loc e) := by
  cases e with
  | resource target field =>
    unfold paramOps
    dsimp only
    split
    · exact ⟨.inl (.inr rfl), .inr rfl, trivial⟩
    · trivial
  | _ => trivial

theorem provisionOps_sound (d : Descriptor) (dfn : ResourceDefinition) (key : String) (prov : Provision) :
    Sound (· = d) (input.provisionOps d dfn key prov) := by
  unfold provisionOps
  dsimp only
  split
  · exact ⟨nofun, trivial⟩
  · rename_i target _
    generalize input.resolveRef target d = co
    refine Sound.append (Sound.append ?_ ?_) ?_
    · unfold coEdge
      split
      · exact ⟨.inl rfl, .inr rfl, trivial⟩
      · exact ⟨.inr rfl, .inl rfl, trivial⟩
    · unfold provisionParamOps
      cases collectPlaceholders .definition ("provision." ++ key ++ ".params") (prov.params.getD .null) with
      | error e => exact ⟨nofun, trivial⟩
      | ok found =>
        refine Sound.flatMap fun ⟨loc, _, e⟩ _ => (input.paramOps_sound d co dfn loc e).mono fun x hx => ?_
        rcases hx with rfl | rfl
        · exact .inl rfl
        · exact .inr ⟨_, _, mem_cons_self⟩
    · trivial

end GraphInput

variable {input : GraphInput} {ops : List Op} {b b' : Builder} {done : List Descriptor} {d : Descriptor}

theorem Built.apply_mem (h : Built input ops b) {op : Op} (hb : b.apply input op = .ok b') {x : Descriptor}
    (hx : x ∈ b.nodes ∨ ∃ path params, op = .request x path params) : x ∈ b'.nodes := by
  refine ((h.apply hb).mem x).2 ?_
  rcases hx with hx | ⟨path, params, rfl⟩
  · obtain ⟨path, params, hreq⟩ := (h.mem x).1 hx
    exact ⟨path, params, mem_append_left _ hreq⟩
  · exact ⟨path, params, by simp⟩

/-- Why operations of `made` stop the builder. -/
inductive GraphInput.Refused (input : GraphInput) (made : Op → Prop) : GraphError → Prop where
  | failed {e} (h : made (.fail e)) : Refused input made e
  | unknownType {d path params} (h : made (.request d path params))
      (hty : input.resourceType d.ty = none) : Refused input made (.unknownType path d.ty)
  | missingClass {d path params} (h : made (.request d path params))
      (hcls : input.classes.contains d.ty d.cls = false) :
    Refused input made (.missingClass path d.ty d.cls)
  | noDefinition {d path params e} (h : made (.request d path params))
      (he : selectDefinition input.definitions (input.contextFor d) = .error e) :
    Refused input made (.noDefinition path e)
  | conflict {d first second p q} (h : made (.request d first (some p)))
      (h' : made (.request d second (some q))) (hne : toCanonicalString p ≠ toCanonicalString q)
      (hle : first ≤ second) : Refused input made (.conflict d first second)

variable {g : GraphError}

theorem GraphInput.Refused.mono {made made' : Op → Prop} (hle : ∀ op, made op → made' op) (h : input.Refused made g) :
    input.Refused made' g := by
  cases h with
  | failed h => exact .failed (hle _ h)
  | unknownType h hty => exact .unknownType (hle _ h) hty
  | missingClass h hcls => exact .missingClass (hle _ h) hcls
  | noDefinition h he => exact .noDefinition (hle _ h) he
  | conflict h h' hne hfirst => exact .conflict (hle _ h) (hle _ h') hne hfirst

variable {path : String} {params : Option Json}

theorem Builder.again_error {n : Node} (h : b.again d n path params = .error g) :
    ∃ p first existing, params = some p ∧
      b.explicit[d]? = some (first, existing) ∧ existing ≠ toCanonicalString p ∧
      g = if first ≤ path then .conflict d first path else .conflict d path first := by
  cases params with
  | none => cases h
  | some p =>
    simp only [again, Option.map_some] at h
    split at h
    · rename_i first existing hexplicit
      split at h
      · rename_i hne
        exact ⟨p, first, existing, rfl, hexplicit, hne, (Except.error.inj h).symm⟩
      · cases h
    · cases h

theorem Built.request_error (h : Built input ops b)
    (hb : b.request input d path params = .error g) : input.Refused (· ∈ ops ++ [.request d path params]) g := by
  have hlast : Op.request d path params ∈ ops ++ [.request d path params] := by simp
  unfold Builder.request at hb
  split at hb
  · rename_i hty
    cases hb
    exact .unknownType hlast (by simpa using hty)
  · split at hb
    · rename_i hcls
      cases hb
      exact .missingClass hlast (by simpa using hcls)
    · split at hb
      · rename_i n hn
        obtain ⟨p, first, existing, rfl, hexplicit, hne, rfl⟩ := Builder.again_error hb
        have hparams := h.params d n hn
        rw [hexplicit] at hparams
        obtain ⟨q, hq, rfl⟩ := hparams.fixed_of
        have hfirst : Op.request d first (some q) ∈ ops ++ [.request d path (some p)] :=
          mem_append_left _ (mem_asked.1 hq)
        split
        · rename_i hle
          exact .conflict hfirst hlast hne hle
        · rename_i hle
          exact .conflict hlast hfirst (Ne.symm hne) (Std.le_of_not_ge hle)
      · split at hb
        · rename_i e he
          cases hb
          exact .noDefinition hlast he
        · cases hb

theorem Built.foldlM_error (h : Built input ops b) {known} {ops' : List Op} (hs : Sound known ops')
    (hk : ∀ d, known d → d ∈ b.nodes) {e : Stop} (he : ops'.foldlM (Builder.apply input) b = .error e) :
    ∃ g, e = .error g ∧ input.Refused (· ∈ ops ++ ops') g := by
  induction ops' generalizing ops b known with
  | nil => cases he
  | cons op ops' ih =>
    rw [foldlM_cons] at he
    rcases bind_eq_error.1 he with hop | ⟨b1, hop, hrest⟩
    · have hsub : ∀ op' ∈ ops ++ [op], op' ∈ ops ++ op :: ops' := by
        intro op' hop'
        rw [append_cons]
        exact mem_append_left _ hop'
      cases op with
      | request d path params =>
        obtain ⟨g, hg, rfl⟩ := mapError_eq_error.1 hop
        exact ⟨g, rfl, (h.request_error hg).mono hsub⟩
      | edge a t =>
        obtain ⟨n, hn⟩ := BTreeMap.mem_iff.1 (hk a hs.1)
        simp [Builder.apply, Builder.edge, hn, Except.map] at hop
      | coProvision c => cases hop
      | fail g => exact ⟨g, (Except.error.inj hop).symm, .failed (by simp)⟩
    · have hmem := fun x => h.apply_mem hop (x := x)
      rw [append_cons]
      cases op with
      | request d path params =>
        refine ih (h.apply hop) hs (fun x hx => hmem x ?_) hrest
        rcases hx with hx | rfl
        · exact .inl (hk x hx)
        · exact .inr ⟨path, params, rfl⟩
      | edge a t => exact ih (h.apply hop) hs.2.2 (fun x hx => hmem x (.inl (hk x hx))) hrest
      | coProvision c => exact ih (h.apply hop) hs (fun x hx => hmem x (.inl (hk x hx))) hrest
      | fail g => cases hop

namespace GraphInput

theorem mem_targets {found} {loc : String} {raw : RawPlaceholder} {target : ResourceRef} {field : ResourceField}
    (h : (loc, raw, Expr.resource target field) ∈ found) : target ∈ targets found :=
  mem_filterMap.2 ⟨_, h, rfl⟩

variable {dfn : ResourceDefinition} {x : Descriptor}

theorem opsOf_requests (h : Requests (input.opsOf d) x) :
    ∃ dfn, input.definitionOf d = some dfn ∧ ∃ target ∈ definitionRefs dfn, x = input.resolveRef target d := by
  obtain ⟨path, params, h⟩ := h
  obtain ⟨dfn, hdfn, ⟨e, h⟩ | ⟨found, hfound, h⟩⟩ := opsOf_cases h
  · cases h
  refine ⟨dfn, hdfn, ?_⟩
  have hprovision : ∀ {key prov target}, dfn.provision[key]? = some prov →
      target ∈ (ResourceRef.parse key).toOption.toList ++ targets ((paramPlaceholders key prov).toOption.getD []) →
      target ∈ definitionRefs dfn := fun hprov ht =>
    mem_append_right _ (mem_flatMap.2 ⟨_, Std.ExtTreeMap.mem_toList_iff_getElem?_eq_some.2 hprov, ht⟩)
  cases h with
  | reference hmem => exact ⟨_, mem_append_left _ (by rw [hfound]; exact mem_targets hmem), rfl⟩
  | provision hprov hkey => exact ⟨_, hprovision hprov (by simp [hkey, Except.toOption]), rfl⟩
  | param hprov hkey hparams hmem =>
    exact ⟨_, hprovision hprov (mem_append_right _ (by rw [hparams]; exact mem_targets hmem)), rfl⟩

theorem definitionOf_mem (h : input.definitionOf d = some dfn) : dfn ∈ input.definitions := by
  obtain ⟨_, _, h⟩ := Option.bind_eq_some_iff.1 h
  exact mem_of_find?_eq_some h

theorem ClassRegistry.mem_of_contains {r : ClassRegistry} {ty : ResourceTypeId} {cls : ClassId}
    (h : r.contains ty cls = true) : cls ∈ ClassId.default :: r.classes.map (·.2) := by
  simp only [ClassRegistry.contains, Bool.or_eq_true, ClassId.isDefault, decide_eq_true_eq] at h
  rcases h with h | h
  · obtain ⟨text, valid⟩ := cls
    cases h
    exact mem_cons_self
  · exact mem_cons_of_mem _ (mem_map.2 ⟨(ty, cls), by simpa using h, rfl⟩)

end GraphInput
end Openporch
