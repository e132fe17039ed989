import Openporch.Rendering
import Openporch.Resolution

/-!
# Deferred secrets

With the sink `Secret` a value resolves to an expression over the secrets it found; with `Plain` finding one is an
error. The two ask the same questions, so they differ in what they make of a secret only.
-/

namespace Openporch
open Asking List Fallible Ask

def Found.isSecret (found : Found) : Bool :=
  match found.lookup with
  | .secret _ => true
  | .value _ => false

def PlaceholderError.RefusesSecret (err : PlaceholderError) : Prop := err.kind = .secretInNonSecret

abbrev SinksAgree {α : Type} (q q' : ResolveM α) : Prop := Guarded Found.isSecret PlaceholderError.RefusesSecret q q'

section
variable {dialect : Dialect} {location : String}

theorem lookUp_guarded (p : RawPlaceholder) :
    SinksAgree (lookUp dialect .plain location p) (lookUp dialect .secret location p) := by
  unfold lookUp
  dsimp only
  cases Expr.interpret p dialect with
  | error k => rfl
  | ok e =>
    refine ⟨rfl, rfl, fun found => ?_⟩
    obtain ⟨lookup, source⟩ := found
    cases lookup with
    | value v => exact ⟨fun h => absurd h (by simp [Found.isSecret]), fun _ => rfl⟩
    | secret r => exact ⟨fun _ => ⟨_, rfl, rfl⟩, fun h => absurd h (by simp [Found.isSecret])⟩

theorem lookUps_guarded (ps : List RawPlaceholder) :
    SinksAgree (lookUps dialect .plain location ps) (lookUps dialect .secret location ps) := by
  induction ps with
  | nil => rfl
  | cons p ps ih => exact (lookUp_guarded p).bind fun l => ih.bind fun ls => rfl

theorem resolveString_guarded (s : String) :
    SinksAgree (resolveString dialect .plain location s) (resolveString dialect .secret location s) := by
  unfold resolveString
  cases parseTemplate s with
  | error k => rfl
  | ok parts => exact (lookUps_guarded _).bind fun ls => rfl

end

theorem resolveValue_guarded (dialect : Dialect) (location : String) (v : Json) :
    SinksAgree (resolveValue dialect .plain location v) (resolveValue dialect .secret location v) :=
  resolveValue_related (L := Eq) (Q := fun _ => SinksAgree) ⟨fun _ => rfl, Guarded.bind⟩ (fun _ _ _ h => h ▸ rfl)
    (fun s _ _ _ h => h ▸ resolveString_guarded s) rfl

def Lookup.secret? : Lookup → Option SecretRef
  | .secret r => some r
  | .value _ => none

def secretsTold (trace : List (Expr × Except Reason Found)) : List SecretRef :=
  trace.filterMap fun q => q.2.toOption.bind fun found => found.lookup.secret?

theorem secretsTold_append (t t' : List (Expr × Except Reason Found)) :
    secretsTold (t ++ t') = secretsTold t ++ secretsTold t' := filterMap_append

theorem secretsTold_ne_nil {t} : secretsTold t ≠ [] ↔ ∃ e found, (e, .ok found) ∈ t ∧ found.isSecret = true := by
  unfold secretsTold
  rw [ne_eq, filterMap_eq_nil_iff, not_forall]
  constructor
  · rintro ⟨⟨e, answer⟩, hq⟩
    rw [Classical.not_imp] at hq
    obtain ⟨hmem, hq⟩ := hq
    cases answer with
    | error r => exact absurd rfl hq
    | ok found =>
      refine ⟨e, found, hmem, ?_⟩
      obtain ⟨lookup, source⟩ := found
      cases lookup with
      | value v => exact absurd rfl hq
      | secret r => rfl
  · rintro ⟨e, ⟨lookup, source⟩, hmem, hsecret⟩
    refine ⟨(e, .ok ⟨lookup, source⟩), fun h => ?_⟩
    have hnone := h hmem
    cases lookup with
    | value v => cases hsecret
    | secret r => cases hnone

/-- No expression, array or object is without a secret inside. -/
inductive Resolved.Tight : Resolved → Prop
  | value (v : Json) : Tight (.value v)
  | secret {e} : e.references ≠ [] → Tight (.secret e)
  | array {items} : (array items).references ≠ [] → (∀ r ∈ items, Tight r) → Tight (.array items)
  | object {fields} :
    (object fields).references ≠ [] → (∀ f ∈ fields, Tight f.2) →
    Tight (.object fields)

namespace Resolved

variable {r : Resolved} {ref : SecretRef} {items : List Resolved} {fields : List (String × Resolved)}

theorem Tight.isTainted_iff (h : r.Tight) : r.isTainted = true ↔ r.references ≠ [] := by
  cases h with
  | value v => simp [isTainted, references]
  | secret h | array h | object h => exact ⟨fun _ => h, fun _ => rfl⟩

theorem mem_referencesItems :
    ref ∈ referencesItems items ↔ ∃ r ∈ items, ref ∈ r.references := by
  induction items with
  | nil => simp [referencesItems]
  | cons r items ih => simp [referencesItems, ih]

theorem mem_referencesFields :
    ref ∈ referencesFields fields ↔ ∃ f ∈ fields, ref ∈ f.2.references := by
  induction fields with
  | nil => simp [referencesFields]
  | cons f fields ih => simp [referencesFields, ih]

theorem Tight.child (h : r.Tight) {c} (hc : c ∈ r.children) : c.2.Tight := by
  cases h with
  | value | secret => cases hc
  | array _ hall =>
    obtain ⟨i, -, hget⟩ := mem_children_array.1 hc
    exact hall _ (mem_of_getElem? hget)
  | object _ hall => exact hall c hc

theorem Tight.secretPaths_ne_nil (h : r.Tight) (htainted : r.isTainted = true) : r.secretPaths [] ≠ [] := by
  have hbelow : ∀ {r c}, c ∈ children r → c.2.secretPaths [] ≠ [] → r.secretPaths [] ≠ [] := by
    intro r c hc hne
    obtain ⟨p, hp⟩ := exists_mem_of_ne_nil _ hne
    exact ne_nil_of_mem (mem_secretPaths.2 (.inr ⟨c, hc, p, hp, rfl⟩))
  induction h with
  | value => cases htainted
  | secret => exact cons_ne_nil _ _
  | array hrefs hall ih =>
    obtain ⟨ref, href⟩ := exists_mem_of_ne_nil _ hrefs
    obtain ⟨r, hr, href⟩ := mem_referencesItems.1 href
    obtain ⟨i, hi⟩ := mem_iff_getElem?.1 hr
    exact hbelow (c := (toString i, r)) (mem_children_array.2 ⟨i, rfl, hi⟩)
      (ih r hr ((hall r hr).isTainted_iff.2 (ne_nil_of_mem href)))
  | object hrefs hall ih =>
    obtain ⟨ref, href⟩ := exists_mem_of_ne_nil _ hrefs
    obtain ⟨f, hf, href⟩ := mem_referencesFields.1 href
    exact hbelow hf (ih f hf ((hall f hf).isTainted_iff.2 (ne_nil_of_mem href)))

theorem mapM_cases {α β : Type} {f} {g : β → α} (hg : ∀ a b, f a = some b → a = g b) {l : List α} {bs}
    (h : l.mapM f = bs) : bs.elim (∃ a ∈ l, f a = none) fun bs => l = bs.map g := by
  induction l generalizing bs with
  | nil => exact h ▸ rfl
  | cons a l ih =>
    rw [mapM_cons] at h
    cases ha : f a with
    | none =>
      rw [ha] at h
      exact h ▸ ⟨a, mem_cons_self, ha⟩
    | some b =>
      rw [ha] at h
      cases hl : l.mapM f with
      | none =>
        rw [hl] at h
        obtain ⟨a', ha', hnone⟩ := ih hl
        exact h ▸ ⟨a', mem_cons_of_mem _ ha', hnone⟩
      | some bs' =>
        rw [hl] at h
        exact h ▸ congrArg₂ cons (hg a b ha) (ih hl)

theorem ofItems_cases (items : List Resolved) :
    (∃ vs, items = vs.map .value ∧ ofItems items = .value (.arr vs)) ∨
      (∃ r ∈ items, r.isTainted = true) ∧ ofItems items = .array items := by
  unfold ofItems
  split
  · rename_i vs h
    exact .inl ⟨vs, mapM_cases (by rintro (_ | _ | _ | _) _ ⟨⟩; rfl) h, rfl⟩
  · rename_i h
    obtain ⟨r, hr, hnone⟩ := mapM_cases (g := value) (by rintro (_ | _ | _ | _) _ ⟨⟩; rfl) h
    refine .inr ⟨⟨r, hr, ?_⟩, rfl⟩
    cases r with
    | value v => cases hnone
    | secret | array | object => rfl

theorem ofFields_cases (fields : List (String × Resolved)) :
    (∃ m : JsonMap, fields = m.map (fun f => (f.1, .value f.2)) ∧ ofFields fields = .value (.obj m)) ∨
      (∃ f ∈ fields, f.2.isTainted = true) ∧ ofFields fields = .object fields := by
  unfold ofFields
  split
  · rename_i m h
    exact .inl ⟨m, mapM_cases (by rintro ⟨_, _ | _ | _ | _⟩ _ ⟨⟩; rfl) h, rfl⟩
  · rename_i h
    obtain ⟨⟨k, r⟩, hr, hnone⟩ := mapM_cases (g := fun f : String × Json => (f.1, value f.2))
      (by rintro ⟨_, _ | _ | _ | _⟩ _ ⟨⟩; rfl) h
    refine .inr ⟨⟨_, hr, ?_⟩, rfl⟩
    cases r with
    | value v => cases hnone
    | secret | array | object => rfl

variable (read : SecretRef → Option String)

theorem renderItems_values (vs : List Json) : renderItems read (vs.map .value) = .ok vs := by
  induction vs with
  | nil => rfl
  | cons v vs ih =>
    rw [map_cons, renderItems, ih]
    rfl

theorem renderFields_values (m : JsonMap) : renderFields read (m.map fun f => (f.1, .value f.2)) = .ok m := by
  induction m with
  | nil => rfl
  | cons f m ih =>
    rw [map_cons, renderFields, ih]
    rfl

theorem render_ofItems (items : List Resolved) : (ofItems items).render read = (renderItems read items).map .arr := by
  rcases ofItems_cases items with ⟨vs, rfl, heq⟩ | ⟨-, heq⟩
  · rw [heq, renderItems_values]
    rfl
  · rw [heq, render]

theorem render_ofFields (fields : List (String × Resolved)) :
    (ofFields fields).render read = (renderFields read fields).map .obj := by
  rcases ofFields_cases fields with ⟨m, rfl, heq⟩ | ⟨-, heq⟩
  · rw [heq, renderFields_values]
    rfl
  · rw [heq, render]

theorem ofItems_values (vs : List Json) : ofItems (vs.map .value) = .value (.arr vs) := by
  rcases ofItems_cases (vs.map .value) with ⟨vs', hvs, heq⟩ | ⟨⟨r, hr, htainted⟩, -⟩
  · rw [heq, map_injective_iff.2 (fun _ _ h => value.inj h) hvs]
  · obtain ⟨v, -, rfl⟩ := mem_map.1 hr
    cases htainted

theorem ofFields_values (m : JsonMap) : ofFields (m.map fun f => (f.1, .value f.2)) = .value (.obj m) := by
  rcases ofFields_cases (m.map fun f => (f.1, .value f.2)) with ⟨m', hm, heq⟩ | ⟨⟨f, hf, htainted⟩, -⟩
  · have hinj : Function.Injective fun f : String × Json => (f.1, value f.2) := fun f g h => by
      obtain ⟨hk, hv⟩ := Prod.mk.inj h
      exact Prod.ext hk (value.inj hv)
    rw [heq, map_injective_iff.2 hinj hm]
  · obtain ⟨v, -, rfl⟩ := mem_map.1 hf
    cases htainted

theorem ofItems_spec (h : ∀ r ∈ items, r.Tight) :
    (ofItems items).Tight ∧ (ofItems items).references = referencesItems items := by
  rcases ofItems_cases items with ⟨vs, rfl, heq⟩ | ⟨⟨r, hr, htainted⟩, heq⟩
  · rw [heq]
    refine ⟨.value _, Eq.symm (eq_nil_iff_forall_not_mem.2 fun ref href => ?_)⟩
    obtain ⟨r, hr, href⟩ := mem_referencesItems.1 href
    obtain ⟨v, -, rfl⟩ := mem_map.1 hr
    cases href
  · rw [heq]
    refine ⟨.array ?_ h, rfl⟩
    obtain ⟨ref, href⟩ := exists_mem_of_ne_nil _ ((h r hr).isTainted_iff.1 htainted)
    exact ne_nil_of_mem (mem_referencesItems.2 ⟨r, hr, href⟩)

theorem ofFields_spec (h : ∀ f ∈ fields, f.2.Tight) :
    (ofFields fields).Tight ∧ (ofFields fields).references = referencesFields fields := by
  rcases ofFields_cases fields with ⟨m, rfl, heq⟩ | ⟨⟨f, hf, htainted⟩, heq⟩
  · rw [heq]
    refine ⟨.value _, Eq.symm (eq_nil_iff_forall_not_mem.2 fun ref href => ?_)⟩
    obtain ⟨f, hf, href⟩ := mem_referencesFields.1 href
    obtain ⟨v, -, rfl⟩ := mem_map.1 hf
    cases href
  · rw [heq]
    refine ⟨.object ?_ h, rfl⟩
    obtain ⟨ref, href⟩ := exists_mem_of_ne_nil _ ((h f hf).isTainted_iff.1 htainted)
    exact ne_nil_of_mem (mem_referencesFields.2 ⟨f, hf, href⟩)

end Resolved

def secretsAmong (ls : List Lookup) : List SecretRef := ls.filterMap Lookup.secret?

section
variable {dialect : Dialect} {location : String} {s : Expr → Except Reason Found}

theorem lookUp_found {p : RawPlaceholder} {l : Lookup} (h : (lookUp dialect .secret location p).run s = .ok l) :
    secretsTold ((lookUp dialect .secret location p).trace s) = l.secret?.toList ∧
      ∃ e found, Expr.interpret p dialect = .ok e ∧ s e = .ok found ∧ found.lookup = l := by
  unfold lookUp at h ⊢
  dsimp only at h ⊢
  cases hp : Expr.interpret p dialect with
  | error k =>
    rw [hp] at h
    cases h
  | ok e =>
    rw [hp] at h
    simp only [run, trace] at h ⊢
    cases hs : s e with
    | error r =>
      rw [hs] at h
      cases h
    | ok found =>
      rw [hs] at h
      obtain ⟨lookup, source⟩ := found
      cases lookup with
      | value v =>
        cases h
        exact ⟨rfl, e, _, rfl, hs, rfl⟩
      | secret r =>
        cases h
        exact ⟨rfl, e, _, rfl, hs, rfl⟩

theorem lookUps_found {ps} {ls : List Lookup} (h : (lookUps dialect .secret location ps).run s = .ok ls) :
    secretsTold ((lookUps dialect .secret location ps).trace s) = secretsAmong ls ∧ ls.length = ps.length := by
  induction ps generalizing ls with
  | nil =>
    cases h
    exact ⟨rfl, rfl⟩
  | cons p ps ih =>
    rw [lookUps] at h ⊢
    obtain ⟨l, hl, h⟩ := run_bind_eq_ok.1 h
    obtain ⟨ls', hls', h⟩ := run_bind_eq_ok.1 h
    cases h
    obtain ⟨htold, hlen⟩ := ih hls'
    rw [trace_bind hl, trace_bind hls', secretsTold_append, secretsTold_append, (lookUp_found hl).1, htold]
    refine ⟨?_, by simp [hlen]⟩
    unfold secretsAmong
    rw [filterMap_cons]
    cases l with
    | value v => simp [Lookup.secret?, secretsTold, trace, pure]
    | secret r => simp [Lookup.secret?, secretsTold, trace, pure]

end

variable (a : SecretRef → String)

def partsText (parts : List SecretPart) : String :=
  String.join (parts.map fun | .literal s => s | .secret r => a r)

theorem references_pushLiteral (parts : List SecretPart) (s : String) :
    (⟨pushLiteral parts s⟩ : SecretExpr).references = (⟨parts⟩ : SecretExpr).references := by
  unfold pushLiteral SecretExpr.references
  split
  · rename_i last hlast
    obtain ⟨init, rfl⟩ := getLast?_eq_some_iff.1 hlast
    simp
  · split <;> simp

theorem partsText_append (parts parts' : List SecretPart) :
    partsText a (parts ++ parts') = partsText a parts ++ partsText a parts' := by
  unfold partsText
  rw [map_append]
  induction parts with
  | nil => simp
  | cons p parts ih => rw [map_cons, cons_append, String.join_cons, String.join_cons, ih, String.append_assoc]

theorem partsText_pushLiteral (parts : List SecretPart) (s : String) :
    partsText a (pushLiteral parts s) = partsText a parts ++ s := by
  have hlit : ∀ s, partsText a [.literal s] = s := fun s => by simp [partsText]
  unfold pushLiteral
  split
  · rename_i last hlast
    obtain ⟨init, rfl⟩ := getLast?_eq_some_iff.1 hlast
    rw [dropLast_concat, partsText_append, partsText_append, hlit, hlit, String.append_assoc]
  · split
    · rename_i hs
      rw [String.isEmpty_iff.1 hs, String.append_empty]
    · rw [partsText_append, hlit]

def Lookup.text : Lookup → String
  | .value (.str v) => v
  | .value v => v.text
  | .secret r => a r

theorem partsText_pushLookup (parts : List SecretPart) (l : Lookup) :
    partsText a (pushLookup parts l) = partsText a parts ++ l.text a := by
  cases l with
  | value v => cases v <;> exact partsText_pushLiteral a parts _
  | secret r =>
    rw [pushLookup, partsText_append]
    simp [partsText, Lookup.text]

theorem references_pushLookup (parts : List SecretPart) (l : Lookup) :
    (⟨pushLookup parts l⟩ : SecretExpr).references = (⟨parts⟩ : SecretExpr).references ++ l.secret?.toList := by
  cases l with
  | value v => cases v <;> exact (references_pushLiteral parts _).trans (append_nil _).symm
  | secret r => simp [pushLookup, SecretExpr.references, Lookup.secret?]

variable {ls : List Lookup} {parts : List Part}

theorem references_fillIn (hlen : ls.length = (placeholders parts).length) (filled : List SecretPart) :
    (⟨fillIn filled parts ls⟩ : SecretExpr).references = (⟨filled⟩ : SecretExpr).references ++ secretsAmong ls := by
  induction parts generalizing filled ls with
  | nil =>
    obtain rfl : ls = [] := length_eq_zero_iff.1 hlen
    simp [fillIn, secretsAmong]
  | cons part parts ih =>
    cases part with
    | literal t => rw [fillIn, ih hlen, references_pushLiteral]
    | placeholder p =>
      cases ls with
      | nil => simp [placeholders] at hlen
      | cons l ls =>
        rw [fillIn, ih (by simpa [placeholders] using hlen), references_pushLookup, append_assoc]
        unfold secretsAmong
        rw [filterMap_cons]
        cases l with
        | value v => rfl
        | secret r => rfl

theorem any_secret_iff (parts : List SecretPart) :
    (parts.any fun | .secret _ => true | .literal _ => false) = true ↔ (⟨parts⟩ : SecretExpr).references ≠ [] := by
  unfold SecretExpr.references
  rw [any_eq_true, ne_eq, filterMap_eq_nil_iff]
  constructor
  · rintro ⟨p, hp, h⟩ hnone
    cases p with
    | literal s => cases h
    | secret r => cases hnone _ hp
  · intro h
    by_contra hnone
    refine h fun p hp => ?_
    cases p with
    | literal s => rfl
    | secret r => exact absurd ⟨_, hp, rfl⟩ hnone

theorem assemble_cases (hlen : ls.length = (placeholders parts).length) :
    (∃ p l, parts = [.placeholder p] ∧ ls = [l]) ∨ ∀ ls' : List Lookup,
      ((⟨fillIn [] parts ls'⟩ : SecretExpr).references ≠ [] ∧ assemble parts ls' = .secret ⟨fillIn [] parts ls'⟩) ∨
      ((⟨fillIn [] parts ls'⟩ : SecretExpr).references = [] ∧
        assemble parts ls' = .value (.str (partsText (fun _ => "") (fillIn [] parts ls')))) := by
  by_cases hwhole : ∃ p, parts = [.placeholder p]
  · obtain ⟨p, rfl⟩ := hwhole
    obtain ⟨l, rfl⟩ := length_eq_one_iff.1 hlen
    exact .inl ⟨p, l, rfl, rfl⟩
  · refine .inr fun ls' => ?_
    unfold assemble
    split
    · exact absurd ⟨_, rfl⟩ hwhole
    · exact absurd ⟨_, rfl⟩ hwhole
    · dsimp only
      split
      · rename_i hany
        exact .inl ⟨(any_secret_iff _).1 hany, rfl⟩
      · rename_i hany
        exact .inr ⟨by_contra fun hne => hany ((any_secret_iff _).2 hne), rfl⟩

theorem assemble_spec (hlen : ls.length = (placeholders parts).length) :
    (assemble parts ls).Tight ∧ (assemble parts ls).references = secretsAmong ls := by
  have hrefs := references_fillIn hlen []
  rcases assemble_cases hlen with ⟨p, l, rfl, rfl⟩ | htext
  · cases l with
    | value v => exact ⟨.value v, rfl⟩
    | secret r => exact ⟨.secret (by simp [SecretExpr.references]), rfl⟩
  · rcases htext ls with ⟨hne, heq⟩ | ⟨hnil, heq⟩
    · rw [heq]
      exact ⟨.secret hne, hrefs⟩
    · rw [heq]
      exact ⟨.value _, hnil.symm.trans hrefs⟩

section
variable {dialect : Dialect} {location : String} {s : Expr → Except Reason Found}

theorem resolveString_found {t : String} {r : Resolved} (h : (resolveString dialect .secret location t).run s = .ok r) :
    ∃ parts ls, parseTemplate t = .ok parts ∧ (lookUps dialect .secret location (placeholders parts)).run s = .ok ls ∧
      r = assemble parts ls ∧ secretsTold ((resolveString dialect .secret location t).trace s) = secretsAmong ls ∧
      ls.length = (placeholders parts).length := by
  unfold resolveString at h ⊢
  cases hparts : parseTemplate t with
  | error k =>
    rw [hparts] at h
    cases h
  | ok parts =>
    rw [hparts] at h
    dsimp only at h ⊢
    obtain ⟨ls, hls, h⟩ := run_bind_eq_ok.1 h
    cases h
    obtain ⟨htold, hlen⟩ := lookUps_found hls
    refine ⟨parts, ls, rfl, hls, rfl, ?_, hlen⟩
    rw [trace_bind hls, secretsTold_append, htold]
    exact append_nil _

end

def Lookup.tell : Lookup → Lookup
  | .value v => .value v
  | .secret r => .value (.str (a r))

variable (s : Expr → Except Reason Found)

def tellSecrets (e : Expr) : Except Reason Found :=
  (s e).map fun found => { found with lookup := found.lookup.tell a }

section
variable {dialect : Dialect} {location : String} {s : Expr → Except Reason Found}

theorem text_tell (a a' : SecretRef → String) (l : Lookup) : (l.tell a).text a' = l.text a := by
  cases l with
  | value v => cases v <;> rfl
  | secret r => rfl

variable (a : SecretRef → String)

theorem secretsAmong_tell (ls : List Lookup) : secretsAmong (ls.map (·.tell a)) = [] := by
  unfold secretsAmong
  rw [filterMap_eq_nil_iff]
  intro l hl
  obtain ⟨l, -, rfl⟩ := mem_map.1 hl
  cases l <;> rfl

theorem partsText_fillIn_tell (a a' : SecretRef → String) (parts : List Part) (ls : List Lookup) {filled filled'}
    (h : partsText a filled = partsText a' filled') :
    partsText a (fillIn filled parts ls) = partsText a' (fillIn filled' parts (ls.map (·.tell a))) := by
  induction parts generalizing filled filled' ls with
  | nil => exact h
  | cons part parts ih =>
    cases part with
    | literal t =>
      rw [fillIn, fillIn]
      refine ih _ ?_
      rw [partsText_pushLiteral, partsText_pushLiteral, h]
    | placeholder p =>
      cases ls with
      | nil => exact h
      | cons l ls =>
        rw [map_cons, fillIn, fillIn]
        refine ih _ ?_
        rw [partsText_pushLookup, partsText_pushLookup, h, text_tell]

theorem render_expr (parts : List SecretPart) :
    (Resolved.secret ⟨parts⟩).render (fun r => some (a r)) = .ok (.str (partsText a parts)) := by
  rw [Resolved.render, show partsText a parts = "" ++ partsText a parts from String.empty_append.symm]
  unfold SecretExpr.render
  dsimp only
  generalize "" = out
  induction parts generalizing out with
  | nil => simp [partsText, pure, Except.pure, Except.map]
  | cons p parts ih =>
    have htext : ∀ t, partsText a (p :: parts) = t ++ partsText a parts →
        out ++ partsText a (p :: parts) = out ++ t ++ partsText a parts := fun t ht => by rw [ht, String.append_assoc]
    rw [foldlM_cons]
    cases p with
    | literal t =>
      rw [htext t (by simp [partsText])]
      exact ih (out ++ t)
    | secret r =>
      rw [htext (a r) (by simp [partsText])]
      exact ih (out ++ a r)

theorem partsText_congr {parts} (h : (⟨parts⟩ : SecretExpr).references = []) (a a' : SecretRef → String) :
    partsText a parts = partsText a' parts := by
  unfold partsText
  congr 1
  refine map_congr_left fun p hp => ?_
  cases p with
  | literal t => rfl
  | secret r => cases filterMap_eq_nil_iff.1 h _ hp

theorem assemble_tell {parts : List Part} {ls : List Lookup} (hlen : ls.length = (placeholders parts).length) :
    ∃ v, (assemble parts ls).render (fun r => some (a r)) = .ok v ∧ assemble parts (ls.map (·.tell a)) = .value v := by
  rcases assemble_cases hlen with ⟨p, l, rfl, rfl⟩ | htext
  · cases l with
    | value v => exact ⟨v, rfl, rfl⟩
    | secret r => exact ⟨.str (a r), by rw [assemble, render_expr]; simp [partsText], rfl⟩
  · have htold : assemble parts (ls.map (·.tell a)) = .value (.str (partsText a (fillIn [] parts ls))) := by
      rcases htext (ls.map (·.tell a)) with ⟨hne, -⟩ | ⟨-, heq⟩
      · rw [references_fillIn (by simpa using hlen), secretsAmong_tell] at hne
        exact absurd rfl hne
      · have hempty : partsText a [] = partsText (fun _ => "") [] := rfl
        rw [heq, ← partsText_fillIn_tell a (fun _ => "") parts ls hempty]
    refine ⟨_, ?_, htold⟩
    rcases htext ls with ⟨-, heq⟩ | ⟨hnil, heq⟩
    · rw [heq, render_expr]
    · rw [heq, Resolved.render, partsText_congr hnil (fun _ => "") a]

theorem lookUp_tell (sink : Sink) {p : RawPlaceholder} {l : Lookup} (h : (lookUp dialect .secret location p).run s = .ok l) :
    (lookUp dialect sink location p).run (tellSecrets a s) = .ok (l.tell a) := by
  obtain ⟨-, e, found, he, hs, rfl⟩ := lookUp_found h
  have htold : tellSecrets a s e = .ok { found with lookup := found.lookup.tell a } := by rw [tellSecrets, hs]; rfl
  unfold lookUp
  dsimp only
  rw [he]
  simp only [run, htold]
  cases found.lookup with
  | value v => rfl
  | secret r => rfl

theorem lookUps_tell (sink : Sink) {ps} {ls : List Lookup} (h : (lookUps dialect .secret location ps).run s = .ok ls) :
    (lookUps dialect sink location ps).run (tellSecrets a s) = .ok (ls.map (·.tell a)) := by
  induction ps generalizing ls with
  | nil =>
    cases h
    rfl
  | cons p ps ih =>
    rw [lookUps] at h ⊢
    obtain ⟨l, hl, h⟩ := run_bind_eq_ok.1 h
    obtain ⟨ls', hls', h⟩ := run_bind_eq_ok.1 h
    cases h
    rw [run_bind, lookUp_tell a sink hl, ok_bind, run_bind, ih hls']
    rfl

theorem resolveString_tell (sink : Sink) {t : String} {r : Resolved}
    (h : (resolveString dialect .secret location t).run s = .ok r) :
    ∃ v, r.render (fun r => some (a r)) = .ok v ∧ (resolveString dialect sink location t).run (tellSecrets a s) =
      .ok (.value v) := by
  obtain ⟨parts, ls, hparts, hls, rfl, -, hlen⟩ := resolveString_found h
  obtain ⟨v, hrender, htold⟩ := assemble_tell a hlen
  refine ⟨v, hrender, ?_⟩
  unfold resolveString
  rw [hparts]
  dsimp only
  rw [run_bind, lookUps_tell a sink hls, ok_bind, htold]
  rfl

end

/-- What a value resolved to: it holds the secrets told and renders to what resolving with their values gives. -/
structure Keeps (r : Resolved) (told : List SecretRef) (resolve : Sink → ResolveM Resolved)
    (s : Expr → Except Reason Found) : Prop where
  tight : r.Tight
  references : r.references = told
  rendered : ∀ (a : SecretRef → String) (sink : Sink), ∃ v, r.render (fun r => some (a r)) = .ok v ∧
    (resolve sink).run (tellSecrets a s) = .ok (.value v)

mutual

theorem resolveValue_spec {dialect : Dialect} {s : Expr → Except Reason Found} {location : String} {r : Resolved} :
    {v : Json} → (resolveValue dialect .secret location v).run s = .ok r →
      Keeps r (secretsTold ((resolveValue dialect .secret location v).trace s)) (resolveValue dialect · location v) s
  | .str t, h => by
    obtain ⟨parts, ls, -, -, rfl, htold, hlen⟩ := resolveString_found h
    obtain ⟨htight, hrefs⟩ := assemble_spec hlen
    exact ⟨htight, hrefs.trans htold.symm, fun a sink => resolveString_tell a sink h⟩
  | .arr items, h => by
    rw [resolveValue] at h ⊢
    obtain ⟨rs, hrs, h⟩ := run_bind_eq_ok.1 h
    cases h
    obtain ⟨hall, hrefs, htell⟩ := resolveItems_spec hrs
    obtain ⟨htight, hof⟩ := Resolved.ofItems_spec hall
    rw [trace_bind hrs, secretsTold_append]
    refine ⟨htight, hof.trans (hrefs.trans (append_nil _).symm), fun a sink => ?_⟩
    obtain ⟨vs, hrender, htold⟩ := htell a sink
    refine ⟨.arr vs, by rw [Resolved.render_ofItems, hrender]; rfl, ?_⟩
    rw [resolveValue, run_bind, htold, ok_bind, Resolved.ofItems_values]
    rfl
  | .obj fields, h => by
    rw [resolveValue] at h ⊢
    obtain ⟨rs, hrs, h⟩ := run_bind_eq_ok.1 h
    cases h
    obtain ⟨hall, hrefs, htell⟩ := resolveFields_spec hrs
    obtain ⟨htight, hof⟩ := Resolved.ofFields_spec hall
    rw [trace_bind hrs, secretsTold_append]
    refine ⟨htight, hof.trans (hrefs.trans (append_nil _).symm), fun a sink => ?_⟩
    obtain ⟨m, hrender, htold⟩ := htell a sink
    refine ⟨.obj m, by rw [Resolved.render_ofFields, hrender]; rfl, ?_⟩
    rw [resolveValue, run_bind, htold, ok_bind, Resolved.ofFields_values]
    rfl
  | .null, h | .bool _, h | .num _, h => by
    cases h
    exact ⟨.value _, rfl, fun _ _ => ⟨_, rfl, rfl⟩⟩

theorem resolveItems_spec {dialect : Dialect} {s} {location : String} {i : Nat} {rs : List Resolved} :
    {items : List Json} → (resolveItems dialect .secret location i items).run s = .ok rs →
      (∀ r ∈ rs, r.Tight) ∧
        Resolved.referencesItems rs = secretsTold ((resolveItems dialect .secret location i items).trace s) ∧
        ∀ (a : SecretRef → String) (sink : Sink), ∃ vs, Resolved.renderItems (fun r => some (a r)) rs = .ok vs ∧
          (resolveItems dialect sink location i items).run (tellSecrets a s) = .ok (vs.map .value)
  | [], h => by
    cases h
    exact ⟨by simp, rfl, fun _ _ => ⟨[], rfl, rfl⟩⟩
  | v :: rest, h => by
    rw [resolveItems] at h ⊢
    obtain ⟨r, hr, h⟩ := run_bind_eq_ok.1 h
    obtain ⟨rs', hrs', h⟩ := run_bind_eq_ok.1 h
    cases h
    obtain ⟨htight, hrefs, htell⟩ := resolveValue_spec hr
    obtain ⟨hall, hrefs', htells⟩ := resolveItems_spec hrs'
    rw [trace_bind hr, trace_bind hrs', secretsTold_append, secretsTold_append, Resolved.referencesItems, hrefs, hrefs']
    refine ⟨forall_mem_cons.2 ⟨htight, hall⟩, congrArg _ (append_nil _).symm, fun a sink => ?_⟩
    obtain ⟨v', hv', htold⟩ := htell a sink
    obtain ⟨vs, hvs, htolds⟩ := htells a sink
    refine ⟨v' :: vs, by rw [Resolved.renderItems, hv', hvs]; rfl, ?_⟩
    rw [resolveItems, run_bind, htold, ok_bind, run_bind, htolds]
    rfl

theorem resolveFields_spec {dialect : Dialect} {s : Expr → Except Reason Found} {location : String}
    {rs : List (String × Resolved)} : {fields : List (String × Json)} →
      (resolveFields dialect .secret location fields).run s = .ok rs →
      (∀ f ∈ rs, f.2.Tight) ∧
        Resolved.referencesFields rs = secretsTold ((resolveFields dialect .secret location fields).trace s) ∧
        ∀ (a : SecretRef → String) (sink : Sink), ∃ m : JsonMap, Resolved.renderFields (fun r => some (a r)) rs = .ok m ∧
          (resolveFields dialect sink location fields).run (tellSecrets a s) = .ok (m.map fun f => (f.1, .value f.2))
  | [], h => by
    cases h
    exact ⟨by simp, rfl, fun _ _ => ⟨[], rfl, rfl⟩⟩
  | (k, v) :: rest, h => by
    rw [resolveFields] at h ⊢
    obtain ⟨r, hr, h⟩ := run_bind_eq_ok.1 h
    obtain ⟨rs', hrs', h⟩ := run_bind_eq_ok.1 h
    cases h
    obtain ⟨htight, hrefs, htell⟩ := resolveValue_spec hr
    obtain ⟨hall, hrefs', htells⟩ := resolveFields_spec hrs'
    rw [trace_bind hr, trace_bind hrs', secretsTold_append, secretsTold_append, Resolved.referencesFields, hrefs, hrefs']
    refine ⟨forall_mem_cons.2 ⟨htight, hall⟩, congrArg _ (append_nil _).symm, fun a sink => ?_⟩
    obtain ⟨v', hv', htold⟩ := htell a sink
    obtain ⟨m, hm, htolds⟩ := htells a sink
    refine ⟨(k, v') :: m, by rw [Resolved.renderFields, hv', hm]; rfl, ?_⟩
    rw [resolveFields, run_bind, htold, ok_bind, run_bind, htolds]
    rfl

end

def resolveIn (dialect : Dialect) (sink : Sink) (location : String) (v : Json) :
    Except PlaceholderError Resolved := (resolveValue dialect sink location v).run s

def lookedUp (dialect : Dialect) (sink : Sink) (location : String) (v : Json) :
    List (Expr × Except Reason Found) := (resolveValue dialect sink location v).trace s

section
variable (s : Expr → Except Reason Found) (dialect : Dialect) (location : String) (v : Json)

theorem sinks_agree :
    (secretsTold (lookedUp s dialect .secret location v) = [] ∧
      resolveIn s dialect .plain location v = resolveIn s dialect .secret location v ∧
      lookedUp s dialect .plain location v = lookedUp s dialect .secret location v) ∨
    (secretsTold (lookedUp s dialect .secret location v) ≠ [] ∧
      lookedUp s dialect .plain location v <+: lookedUp s dialect .secret location v ∧
      ∃ err, resolveIn s dialect .plain location v = .error err ∧ err.kind = .secretInNonSecret) := by
  rcases (resolveValue_guarded dialect location v).run with ⟨hnone, hrun, htrace⟩ | ⟨hsome, htrace, hrefused⟩
  · refine .inl ⟨by_contra fun hne => ?_, hrun, htrace⟩
    obtain ⟨e, found, hmem, hsecret⟩ := secretsTold_ne_nil.1 hne
    rw [hnone e found hmem] at hsecret
    cases hsecret
  · exact .inr ⟨secretsTold_ne_nil.2 hsome, htrace, hrefused⟩

/-- What resolves with the sink `Secret` holds the secrets found and renders to what they stand for. -/
structure Deferred (r : Resolved) : Prop where
  tainted : r.isTainted = true ↔
    ∃ e found, (e, .ok found) ∈ lookedUp s dialect .secret location v ∧ found.isSecret = true
  references : r.references = secretsTold (lookedUp s dialect .secret location v)
  tight : r.Tight
  rendered : ∀ (a : SecretRef → String) (sink : Sink), ∃ v', r.render (fun r => some (a r)) = .ok v' ∧
    resolveIn (tellSecrets a s) dialect sink location v = .ok (.value v')

variable {r : Resolved}

theorem deferred_of_resolveIn (h : resolveIn s dialect .secret location v = .ok r) :
    Deferred s dialect location v r := by
  obtain ⟨htight, hrefs, htell⟩ := resolveValue_spec h
  refine ⟨?_, hrefs, htight, htell⟩
  rw [htight.isTainted_iff, hrefs]
  exact secretsTold_ne_nil

/-- What resolves is "at least one secret inside" as the type says. -/
theorem holdsSecrets_of_resolveIn (h : resolveIn s dialect .secret location v = .ok r) : r.HoldsSecrets :=
  fun _ hc => ((deferred_of_resolveIn s dialect location v h).tight.child hc).secretPaths_ne_nil

theorem lookedUp_initial (sink : Sink) {l} (h : collectPlaceholders dialect location v = .ok l) :
    (lookedUp s dialect sink location v).map (·.1) <+: l.map fun x => x.2.2 := by
  have hsecret : (lookedUp s dialect .secret location v).map (·.1) <+: l.map fun x => x.2.2 := by
    have hscript : ((resolveValue dialect .secret location v).asked s).map some <+: reads dialect v :=
      (resolveValue_script dialect location v).asked_initial
    rw [collect_reads h] at hscript
    simpa [filterMap_map, Function.comp_def, asked, lookedUp] using hscript.filterMap id
  cases sink with
  | secret => exact hsecret
  | plain =>
    rcases sinks_agree s dialect location v with ⟨-, -, htrace⟩ | ⟨-, htrace, -⟩
    · rw [htrace]
      exact hsecret
    · exact (htrace.map _).trans hsecret

theorem lookedUp_of_ok {sink : Sink} (h : resolveIn s dialect sink location v = .ok r) :
    ∃ l, collectPlaceholders dialect location v = .ok l ∧
      (lookedUp s dialect sink location v).map (·.1) = l.map fun x => x.2.2 := by
  have hsecret : resolveIn s dialect .secret location v = .ok r ∧
      lookedUp s dialect sink location v = lookedUp s dialect .secret location v := by
    cases sink with
    | secret => exact ⟨h, rfl⟩
    | plain =>
      rcases sinks_agree s dialect location v with ⟨-, hrun, htrace⟩ | ⟨-, -, err, herr, -⟩
      · exact ⟨hrun ▸ h, htrace⟩
      · rw [h] at herr
        cases herr
  obtain ⟨h, htrace⟩ := hsecret
  have hscript : ((resolveValue dialect .secret location v).asked s).map some = reads dialect v :=
    (resolveValue_script dialect location v).asked_of_run h
  have hnone : none ∉ reads dialect v := by
    rw [← hscript]
    simp
  obtain ⟨l, hl⟩ := collect_total location hnone
  refine ⟨l, hl, ?_⟩
  rw [htrace]
  rw [collect_reads hl] at hscript
  simpa [filterMap_map, Function.comp_def, asked, lookedUp] using congrArg (List.filterMap id) hscript

end

/-- Deferring secrets is faithful: the two sinks differ in what they make of a secret only, what is kept holds exactly
the secrets found and renders to what resolving with their values gives, and both look up the placeholders that are
collected. -/
theorem deferred_resolution (s : Expr → Except Reason Found) (dialect : Dialect) (location : String) (v : Json) :
    (∀ r, resolveIn s dialect .plain location v = .ok r ↔
      resolveIn s dialect .secret location v = .ok r ∧ r.isTainted = false) ∧
    (∀ r, resolveIn s dialect .secret location v = .ok r → r.isTainted = true →
      ∃ err, resolveIn s dialect .plain location v = .error err ∧ err.kind = .secretInNonSecret) ∧
    (∀ err, resolveIn s dialect .secret location v = .error err →
      ∃ err', resolveIn s dialect .plain location v = .error err' ∧ (err' = err ∨ err'.kind = .secretInNonSecret)) ∧
    (∀ r, resolveIn s dialect .secret location v = .ok r → Deferred s dialect location v r) ∧
    (∀ sink l, collectPlaceholders dialect location v = .ok l →
      (lookedUp s dialect sink location v).map (·.1) <+: l.map fun x => x.2.2) ∧
    (∀ sink r, resolveIn s dialect sink location v = .ok r → ∃ l, collectPlaceholders dialect location v = .ok l ∧
      (lookedUp s dialect sink location v).map (·.1) = l.map fun x => x.2.2) := by
  have hsecrets : ∀ r, resolveIn s dialect .secret location v = .ok r →
      (r.isTainted = true ↔ secretsTold (lookedUp s dialect .secret location v) ≠ []) := fun r h =>
    (deferred_of_resolveIn s dialect location v h).tainted.trans secretsTold_ne_nil.symm
  refine ⟨fun r => ?_, fun r h htainted => ?_, fun err h => ?_, fun r => deferred_of_resolveIn s dialect location v,
    fun sink l => lookedUp_initial s dialect location v sink, fun sink r => lookedUp_of_ok s dialect location v⟩
  · rcases sinks_agree s dialect location v with ⟨hnone, hrun, -⟩ | ⟨hsome, -, err, herr, -⟩
    · rw [hrun]
      refine ⟨fun h => ⟨h, ?_⟩, fun h => h.1⟩
      rw [← Bool.not_eq_true, hsecrets r h]
      exact fun hne => hne hnone
    · rw [herr]
      refine ⟨fun h => absurd h (by simp), fun h => ?_⟩
      rw [(hsecrets r h.1).2 hsome] at h
      cases h.2
  · rcases sinks_agree s dialect location v with ⟨hnone, -, -⟩ | ⟨-, -, hrefused⟩
    · exact absurd hnone ((hsecrets r h).1 htainted)
    · exact hrefused
  · rcases sinks_agree s dialect location v with ⟨-, hrun, -⟩ | ⟨-, -, err', herr', hkind⟩
    · exact ⟨err, hrun.trans h, .inl rfl⟩
    · exact ⟨err', herr', .inr hkind⟩

end Openporch
