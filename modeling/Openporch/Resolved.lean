import Openporch.Json

/-!
# Resolved values with secrets

The results of placeholder resolution in `crates/core/src/placeholder.rs`: a `Resolved` value keeps a
secret as an unevaluated `SecretExpr`, and only the executor renders it.
-/

namespace Openporch

structure SecretRef where
  store : String
  reference : String
  version : Option String
deriving DecidableEq, Repr

inductive SecretPart where
  | literal (text : String)
  | secret (ref : SecretRef)
deriving DecidableEq

structure SecretExpr where
  parts : List SecretPart
deriving DecidableEq

inductive Resolved where
  | value (v : Json)
  | secret (e : SecretExpr)
  | array (items : List Resolved)
  | object (fields : List (String × Resolved))

namespace SecretExpr

def references (e : SecretExpr) : List SecretRef :=
  e.parts.filterMap fun
    | .secret r => some r
    | .literal _ => none

def render {ε : Type} (e : SecretExpr) (read : SecretRef → Except ε String) : Except ε String :=
  e.parts.foldlM (fun out p => match p with
    | .literal s => .ok (out ++ s)
    | .secret r => (read r).map (out ++ ·)) ""

end SecretExpr

namespace Resolved

@[elab_as_elim, induction_eliminator]
theorem induct {P : Resolved → Prop} (value : ∀ v, P (value v)) (secret : ∀ e, P (secret e))
    (array : ∀ items : List Resolved, (∀ r ∈ items, P r) → P (array items))
    (object : ∀ fields : List (String × Resolved), (∀ f ∈ fields, P f.2) → P (object fields)) (r : Resolved) : P r :=
  @Resolved.rec P (fun items => ∀ r ∈ items, P r) (fun fields => ∀ f ∈ fields, P f.2) (fun f => P f.2) value secret array object
    (List.forall_mem_nil _) (fun _ _ hr hrs => List.forall_mem_cons.2 ⟨hr, hrs⟩)
    (List.forall_mem_nil _) (fun _ _ hf hfs => List.forall_mem_cons.2 ⟨hf, hfs⟩) (fun _ _ h => h) r

def isTainted : Resolved → Bool
  | value _ => false
  | _ => true

mutual

def references : Resolved → List SecretRef
  | value _ => []
  | secret e => e.references
  | array items => referencesItems items
  | object fields => referencesFields fields

def referencesItems : List Resolved → List SecretRef
  | [] => []
  | r :: rest => r.references ++ referencesItems rest

def referencesFields : List (String × Resolved) → List SecretRef
  | [] => []
  | (_, r) :: rest => r.references ++ referencesFields rest

end

abbrev Missing := SecretRef

mutual

def render (read : SecretRef → Option String) : Resolved → Except Missing Json
  | value v => .ok v
  | secret e => (e.render fun r => (read r).elim (.error r) .ok).map .str
  | array items => (renderItems read items).map .arr
  | object fields => (renderFields read fields).map .obj

def renderItems (read : SecretRef → Option String) : List Resolved → Except Missing (List Json)
  | [] => .ok []
  | r :: rest => do return (← render read r) :: (← renderItems read rest)

/-- The fields in order, as `collect` into a map builds them. -/
def renderFields (read : SecretRef → Option String) : List (String × Resolved) → Except Missing JsonMap
  | [] => .ok []
  | (k, r) :: rest => do return (k, ← render read r) :: (← renderFields read rest)

end

mutual

def secretPaths (path : List String) : Resolved → List (List String)
  | value _ => []
  | secret _ => [path]
  | array items => secretPathsItems path 0 items
  | object fields => secretPathsFields path fields

def secretPathsItems (path : List String) (i : Nat) : List Resolved → List (List String)
  | [] => []
  | r :: rest => r.secretPaths (path ++ [toString i]) ++ secretPathsItems path (i + 1) rest

def secretPathsFields (path : List String) : List (String × Resolved) → List (List String)
  | [] => []
  | (k, r) :: rest => r.secretPaths (path ++ [k]) ++ secretPathsFields path rest

end

end Resolved
end Openporch
