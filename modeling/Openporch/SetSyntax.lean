import Openporch.Translation

/-!
# Documents in the set's syntax

A placeholder of a document that names an output of a dependency has a translation, `setPlaceholder`. A string of the
document is read, once translated, as the same parts with these placeholders in their places exactly when the
translations survive being printed.
-/

namespace Openporch
open List

variable (resources : IndexMap ResourceRequest)

def setPlaceholder (p : RawPlaceholder) : RawPlaceholder :=
  if p.root = "resources" then
    match p.segments with
    | _ :: first :: second :: rest =>
      match first.key, second.key with
      | some key, some output =>
        match resources.get key with
        | some r => {
            text := String.ofList (['$', '{'] ++ outputBody key r output rest ++ ['}'])
            segments := .name (outputRoot r) :: segmentText (dependencyName key r) :: segmentText output :: rest }
        | none => p
      | _, _ => p
    | _ => p
  else p

def setPart : Part → Part
  | .literal s => .literal s
  | .placeholder p => .placeholder (setPlaceholder resources p)

def Survives (p : RawPlaceholder) : Prop :=
  ∀ key r second output rest, Names resources p key r second output rest →
    dependencyName key r ≠ "" ∧ output ≠ "" ∧ closes (outputBody key r output rest) = true

section
variable {resources : IndexMap ResourceRequest} {types : List ResourceType} {p : RawPlaceholder} {key output : String}
  {r : ResourceRequest} {second : Segment} {rest : List Segment}

theorem Names.setPlaceholder_eq (h : Names resources p key r second output rest) : setPlaceholder resources p =
    .of (outputBody key r output rest)
      (.name (outputRoot r) :: segmentText (dependencyName key r) :: segmentText output :: rest) := by
  obtain ⟨root, first, hsegs, hkey⟩ := h.segments
  simp [setPlaceholder, h.root, hsegs, hkey, h.output, h.request]

theorem setPlaceholder_of_root (h : p.root ≠ "resources") : setPlaceholder resources p = p := if_neg h

variable {parts : List Part} {body : List Char} {out : String × Option String}

theorem forall₂_setPart {parts' : List Part} :
    List.Forall₂ (PartRel fun p q => q = setPlaceholder resources p) parts parts' ↔ parts' = parts.map (setPart resources) := by
  have hpart : ∀ a b : Part, PartRel (fun p q => q = setPlaceholder resources p) a b ↔ b = setPart resources a := by
    intro a b
    constructor
    · rintro (_ | rfl) <;> rfl
    · rintro rfl
      cases a with
      | literal s => exact .literal s
      | placeholder p => exact .placeholder rfl
  induction parts generalizing parts' with
  | nil => cases parts' <;> simp
  | cons part parts ih => cases parts' <;> simp [hpart, ih]

def SharedIds (resources : IndexMap ResourceRequest) : Prop :=
  ∀ key r id, resources.get key = some r → r.id = some id → isValidObjectId id = true

theorem Names.no_bracket (hids : SharedIds resources) (hread : p.Read body)
    (h : Names resources p key r second output rest) :
    ']' ∉ (dependencyName key r).toList := by
  unfold dependencyName
  cases hid : r.id with
  | none => exact (h.printable hread).1
  | some id =>
    intro hmem
    have hchar := (ObjectId.chars_spec ⟨id, hids key r id h.request hid⟩).1 _ hmem
    rcases hchar with hchar | hchar <;> cases hchar

theorem segmentText_ne_empty {name : String} (h : (segmentText name).Printable) : name ≠ "" := by
  rintro rfl
  exact h.1 rfl

theorem Names.respelled (hids : SharedIds resources) (hread : p.Read body) (h : Names resources p key r second output rest) :
    Respelled (fun p q => q = setPlaceholder resources p) (Survives resources) p (outputBody key r output rest) := by
  constructor
  · intro hgood
    obtain ⟨hname, hne, hcloses⟩ := hgood key r second output rest h
    obtain ⟨-, hnot, hrest⟩ := h.printable hread
    exact ⟨hcloses, _, parsePath_outputBody (segmentText_printable hname (h.no_bracket hids hread)) hne hnot hrest,
      h.setPlaceholder_eq.symm⟩
  · intro found segs after hfound hsegs heq key' r' second' output' rest' hnames
    obtain ⟨rfl, rfl, rfl, rfl, rfl⟩ := h.unique hnames
    rw [h.setPlaceholder_eq, RawPlaceholder.mk.injEq] at heq
    obtain ⟨htext, rfl⟩ := heq
    obtain rfl : found = outputBody key r output rest := by
      rw [String.ofList_inj] at htext
      exact append_cancel_left (append_cancel_right htext)
    have hprintable := parsePath_printable hsegs
    simp only [forall_mem_cons] at hprintable
    exact ⟨segmentText_ne_empty hprintable.2.1, segmentText_ne_empty hprintable.2.2.1, closes_iff.1 hfound⟩

theorem string_translated_iff (hids : SharedIds resources) {at' : List String} {s out : String} {secret : Bool}
    (hparts : parseTemplate s = .ok parts) (hout : translateString resources types at' s = .ok (out, secret)) :
    parseTemplate out = .ok (parts.map (setPart resources)) ↔ ∀ p ∈ placeholders parts, Survives resources p := by
  have hiff : (∃ parts', parseTemplate out = .ok parts' ∧
      List.Forall₂ (PartRel fun p q => q = setPlaceholder resources p) parts parts') ↔
        ∀ p ∈ placeholders parts, Survives resources p :=
    translated_iff hparts hout
      (fun p hroot => ⟨(setPlaceholder_of_root hroot).symm, fun _ _ _ _ _ hnames => absurd hnames.root hroot⟩)
      fun p body key r second output rest hread hnames => hnames.respelled hids hread
  rw [← hiff]
  simp only [forall₂_setPart, exists_eq_right]

end

end Openporch
