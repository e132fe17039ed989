import Openporch.JsonText
import Openporch.Tofu.Plan
import Mathlib.Data.List.Perm.Basic

/-!
# What a plan's fingerprint determines

The fingerprint is a hash of lines, and those can be read back from the last one: the changes' lines are JSON arrays,
the line of the state's version is none, and what is left below it begins with an identity and a mode.
-/

namespace Openporch.Tofu
open Code List

/-- The plans agree in what a permit covers. -/
structure Saved.Agree (p q : Saved) : Prop where
  guresid : p.guresid = q.guresid
  destroy : p.destroy = q.destroy
  inputs : p.inputs = q.inputs
  state : p.state.map (fun s => (s.at "lineage", s.at "serial")) = q.state.map fun s => (s.at "lineage", s.at "serial")
  changes : (p.effects.map (·.2)).Perm (q.effects.map (·.2))

theorem guresid_no_newline (g : Guresid) : '\n' ∉ g.text.toList := by
  intro h
  have hvalid := g.valid
  simp only [isGuresid, Bool.and_eq_true, all_eq_true] at hvalid
  have hhex := hvalid.2 _ h
  cases hhex

theorem stateVersion_no_newline (state : Option Json) : '\n' ∉ (stateVersion state).toList := by
  cases state with
  | none => decide
  | some s =>
    simp only [stateVersion, Json.text, String.toList_append, String.toList_ofList, mem_append, not_or]
    exact ⟨⟨chars_no_newline _, by decide⟩, chars_no_newline _⟩

theorem stateVersion_ne_chars (state : Option Json) (v : Json) (hv : v.kind = .array) :
    (stateVersion state).toList ≠ v.chars := by
  intro h
  cases state with
  | none =>
    obtain ⟨c, t, hchars, hc⟩ := v.chars_kind
    rw [hchars, show (stateVersion none).toList = 'n' :: "one".toList from rfl, List.cons.injEq] at h
    rw [← h.1, hv] at hc
    cases hc
  | some s =>
    simp only [stateVersion, Json.text, String.toList_append, String.toList_ofList, append_assoc] at h
    have hread := Json.chars_reads (s.at "lineage") v (" ".toList ++ (s.at "serial").chars) [] (stops_cons rfl _)
      (stops_nil _) (by rw [h, append_nil])
    cases hread.2

theorem stateVersion_inj {s t : Option Json} (h : stateVersion s = stateVersion t) :
    s.map (fun s => (s.at "lineage", s.at "serial")) = t.map fun s => (s.at "lineage", s.at "serial") := by
  have htext := congrArg String.toList h
  have hspace : ∀ s : Json, ' ' ∈ (stateVersion (some s)).toList := by
    intro s
    simp [stateVersion]
  have hnone : ∀ s : Json, (stateVersion none).toList ≠ (stateVersion (some s)).toList := by
    intro s heq
    have hmem := hspace s
    rw [← heq] at hmem
    revert hmem
    decide
  match s, t, htext with
  | none, none, _ => rfl
  | none, some t, htext => exact absurd htext (hnone t)
  | some s, none, htext => exact absurd htext.symm (hnone s)
  | some s, some t, htext =>
    simp only [stateVersion, Json.text, String.toList_append, String.toList_ofList, append_assoc] at htext
    obtain ⟨hlineage, hrest⟩ := Json.chars_reads _ _ (" ".toList ++ (s.at "serial").chars)
      (" ".toList ++ (t.at "serial").chars) (stops_cons rfl _) (stops_cons rfl _) htext
    simp only [Option.map_some, hlineage, Json.chars_injective (append_cancel_left hrest)]

theorem Change.text_injective : Function.Injective Change.text := by
  intro c d h
  have hlist := Json.arr.inj (Json.text_injective h)
  cases c
  cases d
  simpa using hlist

def Saved.header (p : Saved) : List Char :=
  p.guresid.text.toList ++ '\n' :: ((if p.destroy then "destroy" else "apply").toList ++ '\n' :: p.inputs.toList)

def Saved.lines (p : Saved) : List (List Char) :=
  ((p.effects.map (·.2.text)).insertionSort (· ≤ ·)).reverse.map String.toList

theorem covered_stack (p : Saved) :
    (String.join (p.covered.map (· ++ "\n"))).toList = stack '\n' p.header (p.lines ++ [(stateVersion p.state).toList]) := by
  rw [stack_eq, String.toList_join]
  simp [Saved.covered, Saved.header, Saved.lines, flatMap_map]

theorem lines_spec (p : Saved) : ∀ l ∈ p.lines, '\n' ∉ l ∧ ∃ v : Json, v.kind = .array ∧ l = v.chars := by
  intro l hl
  obtain ⟨text, htext, rfl⟩ := mem_map.1 hl
  rw [mem_reverse, (perm_insertionSort _ _).mem_iff] at htext
  obtain ⟨e, _, rfl⟩ := mem_map.1 htext
  simp only [Change.text, Json.text, String.toList_ofList]
  exact ⟨chars_no_newline _, _, rfl, rfl⟩

theorem header_inj {p q : Saved} (h : p.header = q.header) :
    p.guresid = q.guresid ∧ p.destroy = q.destroy ∧ p.inputs = q.inputs := by
  have hline : ∀ {l : List Char}, '\n' ∉ l → ∀ c ∈ l, decide (c ≠ '\n') = true := by
    intro l hl c hc
    simp only [ne_eq, decide_not, Bool.not_eq_true', decide_eq_false_iff_not]
    rintro rfl
    exact hl hc
  have hmode : ∀ b : Bool, '\n' ∉ (if b then "destroy" else "apply").toList := by decide
  obtain ⟨hguresid, hrest⟩ := append_inj_of_stops (hline (guresid_no_newline _)) (hline (guresid_no_newline _))
    (stops_cons (by decide) _) (stops_cons (by decide) _) h
  obtain ⟨hdestroy, hinputs⟩ := append_inj_of_stops (hline (hmode _)) (hline (hmode _)) (stops_cons (by decide) _)
    (stops_cons (by decide) _) (List.cons.inj hrest).2
  refine ⟨?_, ?_, String.toList_injective (List.cons.inj hinputs).2⟩
  · have htext := String.toList_injective hguresid
    cases hp : p.guresid
    cases hq : q.guresid
    simp_all
  · revert hdestroy
    cases p.destroy <;> cases q.destroy <;> decide

theorem fingerprint_agree {sha256} (hsha : Function.Injective sha256) {p q : Saved}
    (h : p.fingerprint sha256 = q.fingerprint sha256) : p.Agree q := by
  have htext := congrArg String.toList (hsha h)
  rw [covered_stack, covered_stack] at htext
  have hversion : ∀ s : Option Json, '\n' ∉ (stateVersion s).toList ∧
      ¬ ∃ v : Json, v.kind = .array ∧ (stateVersion s).toList = v.chars := by
    refine fun s => ⟨stateVersion_no_newline s, ?_⟩
    rintro ⟨v, hv, heq⟩
    exact stateVersion_ne_chars s v hv heq
  obtain ⟨hheader, hstate, hlines⟩ := stack_inj (lines_spec p) (lines_spec q) (hversion _) (hversion _) htext
  obtain ⟨hguresid, hdestroy, hinputs⟩ := header_inj hheader
  refine ⟨hguresid, hdestroy, hinputs, stateVersion_inj (String.toList_injective hstate), ?_⟩
  -- the sorted lines are the changes' texts in another order, and each text is of one change
  have hinj : Function.Injective String.toList := fun _ _ => String.toList_injective
  have hsorted := reverse_injective (map_injective_iff.2 hinj hlines)
  have hperm : (p.effects.map (·.2.text)).Perm (q.effects.map (·.2.text)) :=
    (perm_insertionSort (· ≤ ·) _).symm.trans (hsorted ▸ perm_insertionSort (· ≤ ·) _)
  rw [← map_perm_map_iff Change.text_injective, map_map, map_map]
  exact hperm

end Openporch.Tofu
