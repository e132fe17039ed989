import Openporch.ExecutorSpec
import Openporch.Tofu.ResourceSplit
import Mathlib.Data.List.Pairwise

/-!
# The two resource variables

A request carries the rendered fields of the resource's inputs, those with a secret inside apart, and the paths of the
secrets. `splitResource` takes the secrets out of each field alone.
-/

namespace Openporch.Tofu.Inputs
open Json List Fallible JsonMap

variable {R : Resolved} {read read₁ read₂ : SecretRef → Option String} {req req₁ req₂ : DriverRequest}

structure Rendered (R : Resolved) (read : SecretRef → Option String) (req : DriverRequest) : Prop where
  parts : split R read = .ok (req.resource, req.resourceSecrets)
  paths : req.resourceSecretPaths = R.secretPaths []

instance : Std.Symm Apart := ⟨fun _ _ => Apart.symm⟩

variable {paths : List (List String)} {fields : List (String × Resolved)}

theorem pathsOf_eq (hapart : paths.Pairwise Apart) (key : String) : pathsOf paths key = pathsBelow key paths := by
  have hkeep : ((paths.filter fun p => p.head? = some key).filter fun p =>
      !paths.any fun q => q.length < p.length && q.isPrefixOf p) = paths.filter fun p => p.head? = some key := by
    refine filter_eq_self.2 fun p hp => ?_
    have hp := (mem_filter.1 hp).1
    rw [Bool.not_eq_true', any_eq_false]
    intro q hq hpre
    rw [Bool.and_eq_true, decide_eq_true_iff, isPrefixOf_iff_prefix] at hpre
    have hne : q ≠ p := fun heq => absurd hpre.1 (by rw [heq]; exact Nat.lt_irrefl _)
    exact (hapart.forall hq hp hne).1 hpre.2
  unfold pathsOf
  rw [hkeep]
  clear hkeep hapart
  unfold pathsBelow
  induction paths with
  | nil => rfl
  | cons p paths ih =>
    cases p with
    | nil => simpa using ih
    | cons k p =>
      by_cases hk : k = key
      · simpa [hk] using ih
      · simpa [hk] using ih

theorem pathsBelow_map (key k : String) (ps : List (List String)) :
    pathsBelow key (ps.map (k :: ·)) = if k = key then ps else [] := by
  unfold pathsBelow
  rw [filterMap_map]
  split
  · rename_i hk
    simp [hk]
  · rename_i hk
    simp [hk]

variable {f : String × Resolved} {plain : JsonMap}

theorem pathsBelow_field (hkeys : (fields.map (·.1)).Nodup) (hf : f ∈ fields) :
    pathsBelow f.1 ((Resolved.object fields).secretPaths []) = f.2.secretPaths [] := by
  have hflat : ∀ l : List (String × Resolved), pathsBelow f.1 (l.flatMap fun c => (c.2.secretPaths []).map (c.1 :: ·)) =
      l.flatMap fun c => if c.1 = f.1 then c.2.secretPaths [] else [] := by
    intro l
    rw [pathsBelow, filterMap_flatMap]
    exact flatMap_congr fun c _ => pathsBelow_map f.1 c.1 _
  have hnone : ∀ l : List (String × Resolved), f.1 ∉ l.map (·.1) →
      (l.flatMap fun c => if c.1 = f.1 then c.2.secretPaths [] else []) = [] := by
    intro l hl
    rw [flatMap_eq_nil_iff]
    exact fun c hc => if_neg fun heq => hl (mem_map.2 ⟨c, hc, heq⟩)
  rw [Resolved.secretPaths_children (by simp), hflat]
  unfold Resolved.children
  obtain ⟨pre, post, rfl⟩ := append_of_mem hf
  rw [map_append, map_cons, nodup_middle, nodup_cons, mem_append, not_or] at hkeys
  rw [flatMap_append, flatMap_cons, hnone pre hkeys.1.1, hnone post hkeys.1.2, if_pos rfl]
  simp

def rendered (read : SecretRef → Option String) (fields : List (String × Resolved)) : JsonMap :=
  fields.map fun f => (f.1, f.2.out read)

theorem splitFields_eq_ok {secret plain' secret' : JsonMap}
    (h : splitFields read plain secret fields = .ok (plain', secret')) : (∀ f ∈ fields, f.2.Renders read) ∧
      plain' = plain.extend (rendered read (fields.filter fun f => !f.2.isTainted)) ∧
      secret' = secret.extend (rendered read (fields.filter fun f => f.2.isTainted)) := by
  induction fields generalizing plain secret with
  | nil =>
    cases h
    exact ⟨by simp, rfl, rfl⟩
  | cons f fields ih =>
    obtain ⟨k, f⟩ := f
    rw [splitFields] at h
    obtain ⟨v, hv, h⟩ := bind_eq_ok.1 h
    obtain ⟨hf, rfl⟩ := Resolved.renders_of_eq (mapError_eq_ok.1 hv)
    rw [filter_cons, filter_cons]
    split at h
    · rename_i htainted
      obtain ⟨hall, rfl, rfl⟩ := ih h
      refine ⟨forall_mem_cons.2 ⟨hf, hall⟩, ?_, ?_⟩
      · rw [if_neg (by simp [htainted])]
      · rw [if_pos htainted]
        rfl
    · rename_i htainted
      obtain ⟨hall, rfl, rfl⟩ := ih h
      refine ⟨forall_mem_cons.2 ⟨hf, hall⟩, ?_, ?_⟩
      · rw [if_pos (by simp [htainted])]
        rfl
      · rw [if_neg (by simp [htainted])]

theorem extend_nil {m : JsonMap} (hm : m.keys.Nodup) : JsonMap.extend [] m = m := by
  suffices h : ∀ n : JsonMap, (n.keys ++ m.keys).Nodup → JsonMap.extend n m = n ++ m from h [] hm
  clear hm
  intro n hn
  induction m generalizing n with
  | nil => exact (append_nil n).symm
  | cons f m ih =>
    have hnew : f.1 ∉ n.keys := fun hmem => by
      simp only [JsonMap.keys, map_cons] at hn hmem
      exact (nodup_append.1 hn).2.2 f.1 hmem f.1 mem_cons_self rfl
    have hinsert : JsonMap.insert n f.1 f.2 = n ++ [f] := by
      rw [JsonMap.insert, if_neg]
      intro hany
      obtain ⟨g, hg, heq⟩ := any_eq_true.1 hany
      exact hnew (mem_map.2 ⟨g, hg, by simpa using heq⟩)
    rw [JsonMap.extend, foldl_cons, hinsert]
    have hrest := ih (n ++ [f]) (by simpa [JsonMap.keys] using hn)
    rw [JsonMap.extend] at hrest
    rw [hrest, append_assoc]
    rfl

def pieceOf (read : SecretRef → Option String) (f : Resolved) : Option Json × Json := pieces (f.secretPaths []) (f.out read)

def plainPart (read : SecretRef → Option String) (plain : JsonMap) (tainted : List (String × Resolved)) : JsonMap :=
  tainted.foldl (fun m f => (pieceOf read f.2).1.elim m (m.insert f.1)) plain

variable {tainted : List (String × Resolved)}

theorem splitInputs_eq (hpaths : ∀ f ∈ tainted, pathsOf paths f.1 = f.2.secretPaths []) (out : JsonMap × JsonMap) :
    (rendered read tainted).foldl (splitInput paths) out =
      (plainPart read out.1 tainted, out.2.extend (tainted.map fun f => (f.1, (pieceOf read f.2).2))) := by
  induction tainted generalizing out with
  | nil => rfl
  | cons f tainted ih =>
    obtain ⟨hf, hrest⟩ := forall_mem_cons.1 hpaths
    rw [rendered, map_cons, foldl_cons]
    have htail := ih hrest (splitInput paths out (f.1, f.2.out read))
    rw [rendered] at htail
    rw [htail, splitInput_eq, hf]
    rfl

theorem plainPart_congr (h : ∀ f ∈ tainted, (pieceOf read₁ f.2).1 = (pieceOf read₂ f.2).1) (plain : JsonMap) :
    plainPart read₁ plain tainted = plainPart read₂ plain tainted :=
  foldl_ext _ _ plain fun m f hf => by rw [h f hf]

theorem plainPart_get_of_notMem (read : SecretRef → Option String) {k : String} (hk : k ∉ tainted.map (·.1)) (plain : JsonMap) :
    (plainPart read plain tainted).get k = plain.get k := by
  induction tainted generalizing plain with
  | nil => rfl
  | cons f tainted ih =>
    rw [map_cons, mem_cons, not_or] at hk
    rw [plainPart, foldl_cons]
    have hrest := ih hk.2 ((pieceOf read f.2).1.elim plain (plain.insert f.1))
    rw [plainPart] at hrest
    rw [hrest]
    cases (pieceOf read f.2).1 with
    | none => rfl
    | some v => exact get_insert_of_ne _ _ hk.1

theorem plainPart_get (hkeys : (tainted.map (·.1)).Nodup) (hf : f ∈ tainted)
    (hplain : plain.get f.1 = none) : (plainPart read plain tainted).get f.1 = (pieceOf read f.2).1 := by
  induction tainted generalizing plain with
  | nil => cases hf
  | cons g tainted ih =>
    rw [map_cons, nodup_cons] at hkeys
    rw [plainPart, foldl_cons]
    rcases mem_cons.1 hf with rfl | hf
    · have hrest := plainPart_get_of_notMem read hkeys.1 ((pieceOf read f.2).1.elim plain (plain.insert f.1))
      rw [plainPart] at hrest
      rw [hrest]
      cases (pieceOf read f.2).1 with
      | none => exact hplain
      | some v => exact get_insert_self _ _ _
    · refine ih hkeys.2 hf ?_
      have hne : f.1 ≠ g.1 := fun heq => hkeys.1 (heq ▸ mem_map_of_mem hf)
      cases (pieceOf read g.2).1 with
      | none => exact hplain
      | some v => exact (get_insert_of_ne _ _ hne).trans hplain

structure Parts (fields : List (String × Resolved)) (read : SecretRef → Option String) (req : DriverRequest) : Prop where
  renders : ∀ f ∈ fields, f.2.Renders read
  plain : req.resource = rendered read (fields.filter fun f => !f.2.isTainted)
  secrets : req.resourceSecrets = rendered read (fields.filter fun f => f.2.isTainted)
  split : splitResource req = (plainPart read req.resource (fields.filter fun f => f.2.isTainted),
    (fields.filter fun f => f.2.isTainted).map fun f => (f.1, (pieceOf read f.2).2))

theorem Rendered.of_object (hR : (Resolved.object fields).Representable) (h : Rendered (.object fields) read req) :
    Parts fields read req := by
  have hkeys : (fields.map (·.1)).Nodup := hR.nodup
  have hsub : ∀ c : String × Resolved → Bool, ((fields.filter c).map (·.1)).Nodup :=
    fun c => hkeys.sublist (filter_sublist.map _)
  obtain ⟨hall, hplain, hsecrets⟩ := splitFields_eq_ok h.parts
  rw [extend_nil (by rw [JsonMap.keys, rendered, map_map]; exact hsub _)] at hplain hsecrets
  refine ⟨hall, hplain, hsecrets, ?_⟩
  have hpaths : ∀ f ∈ fields.filter fun f => f.2.isTainted, pathsOf req.resourceSecretPaths f.1 = f.2.secretPaths [] := by
    intro f hf
    rw [h.paths, pathsOf_eq hR.apart, pathsBelow_field hkeys (mem_filter.1 hf).1]
  rw [splitResource, hsecrets, splitInputs_eq hpaths]
  dsimp only
  rw [extend_nil (by rw [JsonMap.keys, map_map]; exact hsub _)]

theorem Rendered.cases (h : Rendered R read req) : (∃ fields, R = .object fields) ∨
    ∃ v, R = .value v ∧ Json.obj req.resource = (if v = .null then .obj [] else v) ∧ req.resourceSecrets = [] ∧
      req.resourceSecretPaths = [] ∧ ∀ what, object R read what = .ok req.resource := by
  have hparts := h.parts
  unfold Openporch.split at hparts
  split at hparts
  · rename_i plain
    obtain ⟨hplain, hsecrets⟩ := Prod.mk.inj (Except.ok.inj hparts)
    exact .inr ⟨_, rfl, by simp [hplain], hsecrets.symm, h.paths, fun _ => congrArg _ hplain⟩
  · obtain ⟨hplain, hsecrets⟩ := Prod.mk.inj (Except.ok.inj hparts)
    exact .inr ⟨_, rfl, by simp [hplain], hsecrets.symm, h.paths, fun _ => congrArg _ hplain⟩
  · exact .inl ⟨_, rfl⟩
  · cases hparts

theorem splitResource_nil (h : req.resourceSecrets = []) : splitResource req = (req.resource, []) := by
  rw [splitResource, h]
  rfl

theorem plain_eq (hR : R.Representable) (h₁ : Rendered R read₁ req₁) (h₂ : Rendered R read₂ req₂) :
    req₁.resource = req₂.resource ∧ (splitResource req₁).1 = (splitResource req₂).1 := by
  rcases h₁.cases with ⟨fields, rfl⟩ | ⟨v, rfl, hv₁, hsecrets₁, -⟩
  · have hparts₁ := h₁.of_object hR
    have hparts₂ := h₂.of_object hR
    have hplain : req₁.resource = req₂.resource := by
      rw [hparts₁.plain, hparts₂.plain]
      refine map_congr_left fun f hf => ?_
      have htaint : f.2.isTainted = false := by simpa using (mem_filter.1 hf).2
      cases hf2 : f.2 with
      | value v => rfl
      | secret | array | object => rw [hf2] at htaint; cases htaint
    refine ⟨hplain, ?_⟩
    rw [hparts₁.split, hparts₂.split, hplain]
    refine plainPart_congr (fun f hf => ?_) _
    have hmem := (mem_filter.1 hf).1
    exact pieces_plain_eq (hR.child hmem) (hparts₁.renders f hmem) (hparts₂.renders f hmem)
  · rcases h₂.cases with ⟨fields, heq⟩ | ⟨w, heq, hv₂, hsecrets₂, -⟩
    · cases heq
    · cases heq
      rw [splitResource_nil hsecrets₁, splitResource_nil hsecrets₂]
      have hplain : req₁.resource = req₂.resource := Json.obj.inj (hv₁.trans hv₂.symm)
      exact ⟨hplain, hplain⟩

theorem secrets_alike (hR : R.Representable) (h₁ : Rendered R read₁ req₁) (h₂ : Rendered R read₂ req₂) :
    AlikeOff (R.secretPaths []) (.obj req₁.resourceSecrets) (.obj req₂.resourceSecrets) ∧
      AlikeOff (R.secretPaths []) (.obj (splitResource req₁).2) (.obj (splitResource req₂).2) := by
  rcases h₁.cases with ⟨fields, rfl⟩ | ⟨v, rfl, -, hsecrets₁, -⟩
  · have hparts₁ := h₁.of_object hR
    have hparts₂ := h₂.of_object hR
    have hkeys : ((fields.filter fun f => f.2.isTainted).map (·.1)).Nodup :=
      List.Nodup.sublist (filter_sublist.map _) hR.nodup
    have hmem : ∀ f ∈ fields.filter fun f => f.2.isTainted, f ∈ fields := fun f hf => (mem_filter.1 hf).1
    have hpaths : ∀ f ∈ fields.filter fun f => f.2.isTainted, ∀ p ∈ f.2.secretPaths [],
        f.1 :: p ∈ (Resolved.object fields).secretPaths [] :=
      fun f hf p hp => Resolved.mem_secretPaths.2 (.inr ⟨f, hmem f hf, p, hp, rfl⟩)
    constructor
    · rw [hparts₁.secrets, hparts₂.secrets]
      refine alikeOff_fields _ _ hkeys hpaths (fun f hf => ?_) rfl rfl rfl
      exact alikeOff_render (hR.child (hmem f hf)) (hparts₁.renders f (hmem f hf)) (hparts₂.renders f (hmem f hf))
    · rw [hparts₁.split, hparts₂.split]
      refine alikeOff_fields (fun f => (pieceOf read₁ f).2) (fun f => (pieceOf read₂ f).2) hkeys hpaths (fun f hf => ?_)
        rfl rfl rfl
      exact pieces_secret_alike (hR.child (hmem f hf)) (hparts₁.renders f (hmem f hf)) (hparts₂.renders f (hmem f hf))
  · rcases h₂.cases with ⟨fields, heq⟩ | ⟨w, heq, -, hsecrets₂, -⟩
    · cases heq
    · rw [splitResource_nil hsecrets₁, splitResource_nil hsecrets₂, hsecrets₁, hsecrets₂]
      exact ⟨AlikeOff.refl _ _, AlikeOff.refl _ _⟩

theorem overlay_get (plain : JsonMap) {secrets : JsonMap} (hkeys : secrets.keys.Nodup) (k : String) :
    (overlay paths plain secrets).get k =
      ((secrets.get k).map fun v => overlayInput (pathsBelow k paths) v ((plain.get k).getD .null)).or (plain.get k) := by
  have hextend : overlay paths plain secrets = plain.extend (secrets.map fun f =>
      (f.1, overlayInput (pathsBelow f.1 paths) f.2 ((plain.get f.1).getD .null))) := by
    unfold overlay extend
    rw [foldl_map]
  rw [hextend, get_extend _ (by rw [JsonMap.keys, map_map]; exact hkeys),
    get_map secrets fun k v => overlayInput (pathsBelow k paths) v ((plain.get k).getD .null)]

section
variable {fields : List (String × Resolved)} {k : String} {f : Resolved}

theorem nodup_filter (hkeys : (fields.map (·.1)).Nodup) (c : String × Resolved → Bool) :
    ((fields.filter c).map (·.1)).Nodup := hkeys.sublist (filter_sublist.map _)

theorem key_notMem_filter {c} (hc : ∀ f, (k, f) ∈ fields → c (k, f) = false) : k ∉ (fields.filter c).map (·.1) := by
  intro hmem
  obtain ⟨⟨l, g⟩, hg, rfl⟩ := mem_map.1 hmem
  obtain ⟨hg, hcg⟩ := mem_filter.1 hg
  rw [hc g hg] at hcg
  cases hcg

variable (hR : (Resolved.object fields).Representable) (hparts : Parts fields read req)

include hR hparts

theorem overlay_get_tainted (hf : (k, f) ∈ fields) (htainted : f.isTainted = true) (hsome : f.secretPaths [] ≠ []) :
    ∃ v, (overlay ((Resolved.object fields).secretPaths []) (splitResource req).1 (splitResource req).2).get k = some v ∧
      v.Alike (f.out read) := by
  have hkeys : (fields.map (·.1)).Nodup := hR.nodup
  have hin : (k, f) ∈ fields.filter fun f => f.2.isTainted := mem_filter.2 ⟨hf, htainted⟩
  have hsecret : JsonMap.get ((fields.filter fun f => f.2.isTainted).map fun f => (f.1, (pieceOf read f.2).2)) k =
      some (pieceOf read f).2 :=
    (get_eq_some (by rw [map_map]; exact nodup_filter hkeys _)).2 (mem_map.2 ⟨_, hin, rfl⟩)
  have hplain : req.resource.get k = none := by
    rw [hparts.plain]
    refine get_map_of_notMem _ (key_notMem_filter fun g hg => ?_)
    rw [eq_of_key hkeys hf hg]
    simp [htainted]
  rw [hparts.split, overlay_get _ (by rw [JsonMap.keys, map_map]; exact nodup_filter hkeys _), hsecret,
    plainPart_get (nodup_filter hkeys _) hin hplain, pathsBelow_field hkeys hf]
  exact ⟨_, rfl, pieces_overlay (hR.child hf) hsome (hparts.renders _ hf)⟩

theorem overlay_get_plain (hk : ∀ f, (k, f) ∈ fields → f.isTainted = false) :
    (overlay ((Resolved.object fields).secretPaths []) (splitResource req).1 (splitResource req).2).get k =
      (rendered read fields).get k := by
  have hkeys : (fields.map (·.1)).Nodup := hR.nodup
  have hnot := key_notMem_filter (c := fun f => f.2.isTainted) hk
  rw [hparts.split, overlay_get _ (by rw [JsonMap.keys, map_map]; exact nodup_filter hkeys _),
    get_map_of_notMem (fun f => (pieceOf read f).2) hnot, plainPart_get_of_notMem read hnot, hparts.plain]
  refine get_congr (nodup_rendered (nodup_filter hkeys _)) (nodup_rendered hkeys) fun v => ?_
  rw [rendered, mem_map, rendered, mem_map]
  constructor
  · rintro ⟨g, hg, heq⟩
    exact ⟨g, (mem_filter.1 hg).1, heq⟩
  · rintro ⟨⟨l, g⟩, hg, heq⟩
    cases heq
    exact ⟨(l, g), mem_filter.2 ⟨hg, by simp [hk g hg]⟩, rfl⟩

end

theorem overlay_alike (hR : R.Representable) (hsecrets : R.HoldsSecrets) (h : Rendered R read req) (what : String) :
    ∃ full, object R read what = .ok full ∧
      (Json.obj (overlay req.resourceSecretPaths (splitResource req).1 (splitResource req).2)).Alike (.obj full) := by
  rcases h.cases with ⟨fields, rfl⟩ | ⟨v, rfl, -, hnone, hpaths, hobject⟩
  · have hparts := h.of_object hR
    refine ⟨rendered read fields, ?_, AlikeOff.of_children rfl fun k _ => ?_⟩
    · unfold object renderInput
      rw [Resolved.render_object.2 ⟨hparts.renders, rfl⟩]
      rfl
    · rw [h.paths]
      by_cases hk : ∃ f, (k, f) ∈ fields ∧ f.isTainted = true
      · obtain ⟨f, hf, htainted⟩ := hk
        obtain ⟨v, hv, halike⟩ := overlay_get_tainted hR hparts hf htainted (hsecrets _ hf htainted)
        exact .inr ⟨v, _, hv, get_rendered hR.nodup hf, halike⟩
      · have hplain := overlay_get_plain hR hparts fun f hf => by
          by_contra htainted
          exact hk ⟨f, hf, by simpa using htainted⟩
        unfold children
        rw [hplain]
        exact child_refl _ _
  · rw [splitResource_nil hnone]
    exact ⟨_, hobject what, AlikeOff.refl _ _⟩

/-- Secret values stay in the secret part, at the paths of the secrets, and the plain part with the secrets put at those
paths, and nowhere else, is the rendered input. -/
theorem secrets_stay_at_paths (hR : R.Representable) (h₁ : Rendered R read₁ req₁) (h₂ : Rendered R read₂ req₂)
    (what : String) :
    (req₁.resource = req₂.resource ∧ req₁.resourceSecretPaths = req₂.resourceSecretPaths ∧
      (splitResource req₁).1 = (splitResource req₂).1) ∧
    (AlikeOff req₁.resourceSecretPaths (.obj req₁.resourceSecrets) (.obj req₂.resourceSecrets) ∧
      AlikeOff req₁.resourceSecretPaths (.obj (splitResource req₁).2) (.obj (splitResource req₂).2)) ∧
    (R.HoldsSecrets → ∃ full, object R read₁ what = .ok full ∧
      (Json.obj (overlay req₁.resourceSecretPaths (splitResource req₁).1 (splitResource req₁).2)).Alike (.obj full)) := by
  obtain ⟨hplain, hsplit⟩ := plain_eq hR h₁ h₂
  have hsecrets := secrets_alike hR h₁ h₂
  rw [← h₁.paths] at hsecrets
  exact ⟨⟨hplain, h₁.paths.trans h₂.paths.symm, hsplit⟩, hsecrets, fun h => overlay_alike hR h h₁ what⟩

def userPassword : SecretRef := { store := "builtin", reference := "acme/shop/pool", version := some "1" }

def poolInputs : Resolved :=
  .object [("name", .value (.str "pool")),
    ("users", .array [.value (.str "admin"), .object [("0", .secret ⟨[.literal "pw:", .secret userPassword]⟩),
      ("role", .value (.str "reader"))]])]

theorem poolInputs_representable : poolInputs.Representable := by
  refine .object (by decide) fun f hf => ?_
  simp only [mem_cons, not_mem_nil, or_false] at hf
  rcases hf with rfl | rfl
  · exact .value _
  · refine .array (by decide) fun r hr => ?_
    simp only [mem_cons, not_mem_nil, or_false] at hr
    rcases hr with rfl | rfl
    · exact .value _
    · refine .object (by decide) fun f hf => ?_
      simp only [mem_cons, not_mem_nil, or_false] at hf
      rcases hf with rfl | rfl
      · exact .secret _
      · exact .value _

def poolRequest (password : String) : DriverRequest where
  guresid := ⟨"ffeeddccbbaa99887766554433221100", by decide⟩
  operation := { id := "o1", fingerprint := "f1" }
  resourceType := "users"
  resource := [("name", .str "pool")]
  resourceSecrets := [("users", .arr [.str "admin", .obj [("0", .str ("pw:" ++ password)), ("role", .str "reader")]])]
  resourceSecretPaths := [["users", "1", "0"]]
  values := []
  secrets := []
  credentials := none
  context := { org := "acme", app := "shop", env := "dev", envType := "development", resId := "x", resClass := "default" }
  cookie := none
  permit := none
  pin := none

theorem poolRequest_rendered (password : String) : Rendered poolInputs (fun _ => some password) (poolRequest password) :=
  ⟨rfl, rfl⟩

theorem poolRequest_secrets_stay :
    (splitResource (poolRequest "swordfish")).1 = (splitResource (poolRequest "sesame")).1 ∧
    (splitResource (poolRequest "swordfish")).1.get "users" =
      some (.arr [.str "admin", .obj [("role", .str "reader")]]) ∧
    ∃ full, object poolInputs (fun _ => some "swordfish") "the resource" = .ok full ∧
      (Json.obj (overlay [["users", "1", "0"]] (splitResource (poolRequest "swordfish")).1
        (splitResource (poolRequest "swordfish")).2)).Alike (.obj full) := by
  obtain ⟨⟨-, -, hplain⟩, -, hoverlay⟩ := secrets_stay_at_paths poolInputs_representable
    (poolRequest_rendered "swordfish") (poolRequest_rendered "sesame") "the resource"
  exact ⟨hplain, by decide, hoverlay (by decide)⟩

end Openporch.Tofu.Inputs
