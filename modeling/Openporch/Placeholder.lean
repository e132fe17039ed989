import Openporch.Ids
import Openporch.Json
import Openporch.Text
import Mathlib.Tactic.Common

/-!
# Placeholders

The syntax of `crates/core/src/placeholder.rs`: a string is literal text and `${…}` placeholders, a placeholder is a
path of segments, and `Expr.interpret` says what the path reads in one dialect.
-/

namespace Openporch

inductive Reason where
  | noContext (path : String)
  | notInGraph (descriptor : String)
  | noGuresid (descriptor : String)
  | noAccount (descriptor : String)
  | noDependency (key : String)
  | noShared (id : String)
  | noValue (key : String)
  | secretValueFields (key : String)
  | noOutputName
  | outputNamesAreStrings
  | secretOutputFields (name : String)
  | noOutput (name : String)
  | noField (segment : String)
  | needsClassAndId (target : String)
  | pod (path : String)
deriving DecidableEq

def Reason.text : Reason → String
  | noContext path => "`context." ++ path ++ "` is not available here"
  | notInGraph d => "resource `" ++ d ++ "` is not in the graph"
  | noGuresid d => "resource `" ++ d ++ "` has no GUResID yet"
  | noAccount d => "resource `" ++ d ++ "` has no cloud account"
  | noDependency key => "no dependency `" ++ key ++ "`"
  | noShared id => "no shared resource `" ++ id ++ "`"
  | noValue key => "no shared value `" ++ key ++ "`"
  | secretValueFields key => "secret value `" ++ key ++ "` has no fields"
  | noOutputName => "an output name is required"
  | outputNamesAreStrings => "output names are strings"
  | secretOutputFields name => "secret output `" ++ name ++ "` has no fields"
  | noOutput name => "no output `" ++ name ++ "`"
  | noField seg => "no field `" ++ seg ++ "`"
  | needsClassAndId target => "`" ++ target ++ "` needs a class and ID here"
  | pod path => "`pod." ++ path ++ "` needs a workload target that supports pod references"

inductive PlaceholderErrorKind where
  | syntaxError (message : String)
  | unknownRoot (root : String)
  | notAllowed (message : String)
  /-- `Unresolvable`, before anything is looked up. -/
  | unknownContext (path : String)
  /-- `Unresolvable`, by the look-up. -/
  | unresolvable (reason : Reason)
  | secretInNonSecret
deriving DecidableEq

def PlaceholderErrorKind.text : PlaceholderErrorKind → String
  | syntaxError m => "invalid placeholder syntax: " ++ m
  | unknownRoot root => "unknown placeholder root `" ++ root ++ "`"
  | notAllowed m => "placeholder not allowed here: " ++ m
  | unknownContext path => "cannot resolve placeholder: unknown context value `context." ++ path ++ "`"
  | unresolvable reason => "cannot resolve placeholder: " ++ reason.text
  | secretInNonSecret => "a secret cannot be used in a non-secret input"

structure PlaceholderError where
  placeholder : String
  location : String
  kind : PlaceholderErrorKind
deriving DecidableEq

def PlaceholderError.text (e : PlaceholderError) : String :=
  e.kind.text ++ " in `" ++ e.placeholder ++ "` at " ++ e.location

inductive Segment where
  /-- `.host` -/
  | name (s : String)
  /-- `['dns.public#shared.api-dns']` -/
  | quoted (s : String)
  /-- `[0]` -/
  | index (i : Nat)
deriving DecidableEq

def Segment.key : Segment → Option String
  | name s | quoted s => some s
  | index _ => none

def Segment.text : Segment → String
  | name s => "." ++ s
  | quoted s => "['" ++ s ++ "']"
  | index i => "[" ++ toString i ++ "]"

structure RawPlaceholder where
  /-- As written, with `${` and `}`. -/
  text : String
  segments : List Segment
deriving DecidableEq

def RawPlaceholder.root (p : RawPlaceholder) : String := (p.segments.head?.bind Segment.key).getD ""

def isNameChar (c : Char) : Bool := c ≠ '.' && c ≠ '[' && c ≠ ']' && c ≠ '\'' && c ≠ '"' && !isWhitespace c

def bracketed (inner : List Char) : Except String Segment :=
  match ((stripPrefix ['\''] inner).bind (stripSuffix ['\''])).or
      ((stripPrefix ['"'] inner).bind (stripSuffix ['"'])) with
  | some q => .ok (.quoted (String.ofList q))
  | none =>
    match parseU64 inner with
    | some i => .ok (.index i)
    | none => .error "brackets hold a quoted string or a non-negative index"

/-- The segments of what is left of a body, after `skip` characters that belong to the segment before; `first` while
there is none yet. -/
def segmentsFrom (first : Bool) : Nat → List Char → Except String (List Segment)
  | _, [] => .ok []
  | skip + 1, _ :: rest => segmentsFrom first skip rest
  | 0, c :: rest =>
    if c = '[' then
      let inner := rest.takeWhile (· ≠ ']')
      if inner.length = rest.length then .error "unterminated `[`"
      else do
        let seg ← bracketed inner
        return seg :: (← segmentsFrom false (inner.length + 1) rest)
    else if c = '.' && !first then
      let name := rest.takeWhile isNameChar
      if name.isEmpty then .error "empty path segment"
      else do return .name (String.ofList name) :: (← segmentsFrom false name.length rest)
    else if first && isNameChar c then
      let name := rest.takeWhile isNameChar
      do return .name (String.ofList (c :: name)) :: (← segmentsFrom false name.length rest)
    else .error ("unexpected `" ++ String.singleton c ++ "`")

def parsePath (body : List Char) : Except String (List Segment) :=
  if body.isEmpty then .error "empty placeholder" else segmentsFrom true 0 body

inductive Part where
  /-- Text, with escapes already applied. -/
  | literal (s : String)
  | placeholder (p : RawPlaceholder)
deriving DecidableEq

/-- The body of a placeholder up to the `}` that closes it, which is not inside quotes. -/
def placeholderBody (quote : Option Char) : List Char → Option (List Char)
  | [] => none
  | c :: rest =>
    match quote with
    | some q => (placeholderBody (if c = q then none else some q) rest).map (c :: ·)
    | none =>
      if c = '\'' || c = '"' then (placeholderBody (some c) rest).map (c :: ·)
      else if c = '}' then some []
      else (placeholderBody none rest).map (c :: ·)

def literalPart (lit : List Char) : List Part := if lit.isEmpty then [] else [.literal (String.ofList lit)]

/-- The parts of what is left of a string: `lit` is the text since the last placeholder, and `skip` characters belong
to an escape or a placeholder already read. -/
def partsFrom (lit : List Char) : Nat → List Char → Except String (List Part)
  | _, [] => .ok (literalPart lit)
  | skip + 1, _ :: rest => partsFrom lit skip rest
  | 0, c :: rest =>
    if c = '$' && ['\\', '{'].isPrefixOf rest then partsFrom (lit ++ ['$', '{']) 2 rest
    else if c = '$' && ['{'].isPrefixOf rest then
      match placeholderBody none rest.tail with
      | none => .error "unterminated `$\x7b`"
      | some body => do
        let segments ← parsePath body
        let p : RawPlaceholder := { text := String.ofList (['$', '{'] ++ body ++ ['}']), segments }
        return literalPart lit ++ .placeholder p :: (← partsFrom [] (body.length + 2) rest)
    else partsFrom (lit ++ [c]) 0 rest

def parseTemplate (s : String) : Except PlaceholderErrorKind (List Part) := (partsFrom [] 0 s.toList).mapError .syntaxError

def placeholders (parts : List Part) : List RawPlaceholder :=
  parts.filterMap fun
    | .placeholder p => some p
    | .literal _ => none

inductive ContextKey where
  | orgId | appId | envId | envType | resId | resClass | resType | resGuresid | deployId | deploySetId
deriving DecidableEq

/-- The dotted path after `context.`. -/
def ContextKey.path : ContextKey → String
  | orgId => "org.id"
  | appId => "app.id"
  | envId => "env.id"
  | envType => "env.type"
  | resId => "res.id"
  | resClass => "res.class"
  | resType => "res.type"
  | resGuresid => "res.guresid"
  | deployId => "deploy.id"
  | deploySetId => "deploy.set.id"

def ContextKey.all : List ContextKey :=
  [orgId, appId, envId, envType, resId, resClass, resType, resGuresid, deployId, deploySetId]

/-- `<type>[.<class>][#<id>]`. -/
structure ResourceRef where
  ty : ResourceTypeId
  cls : Option ClassId
  id : Option ResId
deriving DecidableEq

namespace ResourceRef

def parse (s : String) : Except IdError ResourceRef := do
  let (head, id) ← match splitOnce '#' s.toList with
    | some (h, id) => do pure (h, some (← ResId.new (String.ofList id)))
    | none => pure (s.toList, none)
  let (ty, cls) ← match splitOnce '.' head with
    | some (t, c) => do pure (t, some (← ClassId.new (String.ofList c)))
    | none => pure (head, none)
  return { ty := ← ResourceTypeId.new (String.ofList ty), cls, id }

/-- The full descriptor, taking omitted parts from `referrer`. A resource of an implicit type exists once per
environment: an omitted class is `default` and an omitted ID the type name. -/
def resolve (r : ResourceRef) (referrer : Descriptor) (implicit : Bool) : Descriptor :=
  if implicit then { ty := r.ty, cls := r.cls.getD .default, id := r.id.getD r.ty.asResId }
  else { ty := r.ty, cls := r.cls.getD referrer.cls, id := r.id.getD referrer.id }

def text (r : ResourceRef) : String :=
  r.ty.text ++ (r.cls.elim "" fun c => "." ++ c.text) ++ (r.id.elim "" fun id => "#" ++ id.text)

end ResourceRef

inductive ResourceField where
  | outputs (path : List Segment)
  | guresid
  /-- Only in `driver_account`. -/
  | account
deriving DecidableEq

inductive Expr where
  | context (key : ContextKey)
  | resource (target : ResourceRef) (field : ResourceField)
  | externals (key : String) (path : List Segment)
  | shared (id : String) (path : List Segment)
  | values (key : String) (path : List Segment)
  | pod (path : List String)
deriving DecidableEq

inductive Dialect where
  /-- Driver inputs and provision params. -/
  | definition
  | driverAccount
  /-- Workload specs and params of a deployment set. -/
  | set
deriving DecidableEq

def names : List Segment → Option (List String)
  | [] => some []
  | .name n :: rest => (names rest).map (n :: ·)
  | _ :: _ => none

def isField : Segment → Bool
  | .name n => n = "outputs" || n = "guresid" || n = "account"
  | _ => false

def resourceRefExpected : String :=
  "expected `resources.<type>[.<class>][#<id>].outputs.<name>`"

def resourceRefText : List Segment → Except String (String × List Segment)
  | .quoted q :: rest => .ok (q, rest)
  | segs@(.name _ :: _) =>
    -- the type comes first, a class may follow unless the type carries `#<id>`, and an ID runs until the field name
    match segs.findIdx? isField with
    | none => .error resourceRefExpected
    | some n =>
      match names (segs.take n) with
      | none => .error resourceRefExpected
      | some parts =>
        if parts.isEmpty || !parts.any (·.toList.contains '#') && 2 < parts.length then .error resourceRefExpected
        else .ok (".".intercalate parts, segs.drop n)
  | _ => .error resourceRefExpected

def resourceField : List Segment → Except String ResourceField
  | .name "outputs" :: seg :: path => .ok (.outputs (seg :: path))
  | [.name "guresid"] => .ok .guresid
  | [.name "account"] => .ok .account
  | _ => .error resourceRefExpected

def parseResourceRef (segs : List Segment) : Except String (ResourceRef × ResourceField) := do
  let (text, rest) ← resourceRefText segs
  let target ← (ResourceRef.parse text).mapError IdError.text
  let field ← resourceField rest
  return (target, field)

namespace Expr

variable (segs : List Segment)

def keyed : Option (String × List Segment) :=
  match segs with
  | seg :: path => seg.key.map fun k => (k, path)
  | [] => none

def interpretContext : Except PlaceholderErrorKind Expr :=
  match names segs with
  | none => .error (.syntaxError "context paths are names")
  | some path =>
    let path := ".".intercalate path
    match ContextKey.all.find? (·.path = path) with
    | some key => .ok (.context key)
    | none => .error (.unknownContext path)

/-- `externals.<key>.<path>` or `shared.<id>.<path>`. -/
def interpretOutput (root : String) (build : String → List Segment → Expr) (segs : List Segment) :
    Except PlaceholderErrorKind Expr :=
  match keyed segs with
  | some (key, seg :: path) => .ok (build key (seg :: path))
  | _ => .error (.syntaxError ("expected `" ++ root ++ ".<id>.<output>`"))

def interpretValues : Except PlaceholderErrorKind Expr :=
  match keyed segs with
  | some (key, path) => .ok (.values key path)
  | none => .error (.syntaxError "expected `values.<key>`")

def interpretPod : Except PlaceholderErrorKind Expr :=
  match names segs with
  | none => .error (.syntaxError "pod paths are names")
  | some [] => .error (.syntaxError "expected `pod.<path>`")
  | some path => .ok (.pod path)

def interpret (raw : RawPlaceholder) (dialect : Dialect) : Except PlaceholderErrorKind Expr :=
  let segs := raw.segments.tail
  match raw.root, dialect with
  | "context", .set => .error (.notAllowed
      "workloads cannot use `context` placeholders; use `values` for environment configuration")
  | "context", _ => interpretContext segs
  | "externals", .set => interpretOutput "externals" .externals segs
  | "shared", .set => interpretOutput "shared" .shared segs
  | "values", .set => interpretValues segs
  | "pod", .set => interpretPod segs
  | root, .set => .error (.unknownRoot root)
  | "resources", _ => do
    let (target, field) ← (parseResourceRef segs).mapError .syntaxError
    if field = .account ∧ dialect ≠ .driverAccount then
      .error (.notAllowed "`.account` is only allowed in `driver_account`")
    else .ok (.resource target field)
  | root, _ => .error (.unknownRoot root)

end Expr
end Openporch
