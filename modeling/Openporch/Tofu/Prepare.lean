import Openporch.Lib.FileTree
import Openporch.Maps
import Openporch.Tofu.Driver
import Openporch.Tofu.Resource

/-!
# Preparing a run

`parse` and `prepare` of `crates/drivers/src/opentofu/mod.rs`, `check_url` of `git.rs` and the writing of files in
`files.rs`: the module is fetched or written, the definition's files are written into it, and the file that points it at
the orchestrator's state comes last. The environment and the arguments of the commands are left out.
-/

namespace Openporch.Tofu
open Files

def backendOverride : String := "zzzz_openporch_backend_override.tf"
def lockFile : String := ".terraform.lock.hcl"

structure Location where
  base : Place
  names : List String

def Location.join (l : Location) (name : String) : Location := ⟨l.base, name :: l.names⟩

def Failure.ofErrno (e : Errno) : Failure := .io e.text

def canonicalize (t : Tree) (l : Location) : Except Errno Place := t.canonicalize l.base l.names

def isDirectory (t : Tree) (l : Location) : Bool :=
  match canonicalize t l with
  | .ok p => t.isDir p
  | .error _ => false

def privateDir (t : Tree) (l : Location) : Except Failure Tree := (t.mkdirs l.base l.names).mapError .ofErrno

def relative (path : String) : Option (List String) :=
  let parts := (splitAll '/' path.toList).map String.ofList
  let names := parts.filter fun part => part ≠ "" ∧ part ≠ "."
  if parts.head? = some "" || parts.head? = some "." || names.contains ".." then none else some names.reverse

def checkLink (t : Tree) (base : Place) (rel : String) (names : List String) : Except String Unit :=
  match t.lstat base names with
  | .ok (.link _) =>
    match t.canonicalize base names with
    | .error _ => .error ("`" ++ rel ++ "` is a dangling symlink")
    | .ok real => if base <:+ real then .ok () else .error ("`" ++ rel ++ "` leaves the module through a symlink")
  | _ => .ok ()

/-- `base/rel`, refusing a path that leaves the base, also through a link that is in the tree. -/
def inside (t : Tree) (l : Location) (rel : String) : Except String Location :=
  match relative rel with
  | none => .error ("`" ++ rel ++ "` must be a relative path inside the module")
  | some names => do
    let base ← (canonicalize t l).mapError fun e => "cannot open the module directory: " ++ e.text
    (names.tails.reverse.drop 1).forM (checkLink t base rel)
    return ⟨base, names⟩

def isLink (t : Tree) (l : Location) : Bool :=
  match t.lstat l.base l.names with
  | .ok (.link _) => true
  | _ => false

def writePrivate (t : Tree) (l : Location) (content : String) : Except Failure Tree := do
  let t ← privateDir t ⟨l.base, l.names.tail⟩
  if isLink t l then .error (.io "refusing to write through a symlink")
  else (t.write l.base content l.names).mapError .ofErrno

structure GitSource where
  url : String
  /-- A branch, tag or commit. -/
  rev : String
  username : Option String
  password : Option String
  sshKey : Option String

structure CredentialsConfig where
  environment : BTreeMap String String
  file : Option String
  vars : BTreeMap String String

structure Inputs where
  source : Option (GitSource × Option String)
  script : Option String
  vars : JsonMap
  secretVars : JsonMap
  /-- The path, the content and whether it is secret. -/
  files : List (String × String × Bool)
  credentialsConfig : Option CredentialsConfig
  tokens : BTreeMap String String

structure RetainedSource where
  url : String
  path : Option String
  commit : String

structure Pinned where
  source : Option RetainedSource
  lock : Option String

/-- What a run is given: the reading of JSON into these records, `git`, and the configured state backend. -/
structure Machine where
  allowFileSources : Bool
  readCredentialsConfig : Json → Option CredentialsConfig
  readPinned : Json → Option Pinned
  /-- Checks the revision out at a place, and tells its commit. -/
  fetch : GitSource → Place → Tree → Except Failure (Tree × String)
  checkBackend : Except String Unit
  overrideFile : DriverRequest → String
  credentialsFile : Except String (Option String)
  jsonText : Json → String

def stringMap (v : Option Json) (what : String) : Except Failure JsonMap :=
  match v with
  | none | some .null => .ok []
  | some (.obj m) => .ok m
  | some _ => .error (.input ("`" ++ what ++ "` must be a map"))

def optionalString (m : JsonMap) (key what : String) : Except Failure (Option String) :=
  match m.get key with
  | none | some .null => .ok none
  | some (.str s) => .ok (some s)
  | some _ => .error (.input ("`" ++ what ++ "` must be a string"))

def credentialsInUrl : String :=
  "`source.url` must not contain credentials; use `source.username` and the `source.password` or `source.ssh_key` secret"

/-- A source URL: `https`, `ssh` or `user@host:path`, and `file` only where it is allowed; without credentials. -/
def checkUrl (url : String) (allowFile : Bool) : Except String Unit :=
  match splitOnceAt "://".toList url.toList with
  | some (scheme, rest) =>
    let https := scheme = "https".toList
    if https || scheme = "ssh".toList || scheme = "file".toList && allowFile then
      let authority := ((splitAll '/' rest).head?).getD []
      let userinfo := (rsplitOnceAt ['@'] authority).map (·.1)
      if https && userinfo.isSome || userinfo.any (·.contains ':') then .error credentialsInUrl else .ok ()
    else .error ("`source.url` must use https or ssh, not `" ++ String.ofList scheme ++ "`")
  | none =>
    match splitOnce '@' url.toList with
    | some (user, host) =>
      if host.contains ':' && !"-".toList.isPrefixOf url.toList then
        if user.contains ':' then .error credentialsInUrl else .ok ()
      else .error "`source.url` must be an https, ssh or `user@host:path` URL"
    | none => .error "`source.url` must be an https, ssh or `user@host:path` URL"

def isOverride (name : String) : Bool :=
  ((stripSuffix ".tf".toList name.toList).or (stripSuffix ".tf.json".toList name.toList)).any fun stem =>
    stem = "override".toList || "_override".toList.isSuffixOf stem

def parseFile (secret : Bool) (file : String × Json) : Except Failure (String × String × Bool) :=
  match file.2 with
  | .str content =>
    match relative file.1 with
    | none => .error (.input ("file `" ++ file.1 ++ "` must be a relative path inside the module"))
    | some names =>
      let name := names.headD ""
      let tofuOwned := names.any fun part => ".terraform".toList.isPrefixOf part.toList
      if names.length = 1 && (name = "main.tf" || isOverride name) || tofuOwned then
        .error (.input ("file `" ++ file.1 ++ "` would replace the script, the backend or OpenTofu's own files"))
      else .ok (file.1, content, secret)
  | _ => .error (.input ("file `" ++ file.1 ++ "` must be a string"))

def isRev (rev : String) : Bool :=
  !"-".toList.isPrefixOf rev.toList && rev.toList.all fun c => c.isAlphanum || "-._/".toList.contains c

variable (m : Machine)

def parseSource (values secrets : JsonMap) : Except Failure (Option (GitSource × Option String)) := do
  let sourceValues ← stringMap (values.get "source") "source"
  let sourceSecrets ← stringMap (secrets.get "source") "secrets.source"
  match ← optionalString sourceValues "url" "source.url" with
  | none =>
    if sourceValues.isEmpty then return none
    else throw (.input "`source.url` is required when `source` is set")
  | some url => do
    (checkUrl url m.allowFileSources).mapError .input
    let rev := (← optionalString sourceValues "rev" "source.rev").getD "HEAD"
    if !isRev rev then throw (.input "`source.rev` must be a branch, tag or commit")
    let path ← optionalString sourceValues "path" "source.path"
    if path.any fun p => (relative p).isNone then
      throw (.input "`source.path` must be a relative path inside the repository")
    return some ({
      url, rev
      username := ← optionalString sourceValues "username" "source.username"
      password := ← optionalString sourceSecrets "password" "secrets.source.password"
      sshKey := ← optionalString sourceSecrets "ssh_key" "secrets.source.ssh_key" }, path)

def parseToken (token : String × Json) : Except Failure (String × String) :=
  match token.2 with
  | .str text =>
    if token.1.isEmpty || !token.1.toList.all fun c => c.isAlphanum || ".-".toList.contains c then
      .error (.input ("`" ++ token.1 ++ "` is not a host name"))
    else .ok (token.1, text)
  | _ => .error (.input ("token for `" ++ token.1 ++ "` must be a string"))

def inputKeys : List String :=
  ["source", "script", "variables", "files", "credentials_config", "backend", "append_logs_to_error", "timeout"]

def resourceVariables : List String := ["resource", "resource_secrets"]

def parse (values secrets : JsonMap) : Except Failure Inputs := do
  values.forM fun (key, _) =>
    if inputKeys.contains key then .ok () else .error (.input ("unknown OpenTofu driver input `" ++ key ++ "`"))
  if (values.get "backend").any (· ≠ .null) then
    throw (.input "`backend` is not supported yet: state is always orchestrator-managed")
  let source ← parseSource m values secrets
  let script ← optionalString values "script" "script"
  if source.isNone && script.isNone then throw (.input "set `source`, `script` or both")
  let plainFiles ← stringMap (values.get "files") "files"
  let secretFiles ← stringMap (secrets.get "files") "secrets.files"
  let plain ← plainFiles.mapM (parseFile false)
  let secret ← secretFiles.mapM (parseFile true)
  let credentialsConfig ← match values.get "credentials_config" with
    | none | some .null => pure none
    | some v =>
      match m.readCredentialsConfig v with
      | some config => pure (some config)
      | none => throw (.input "`credentials_config` takes `environment`, `file` and `variables`")
  let tokens ← (← stringMap (secrets.get "tokens") "secrets.tokens").mapM parseToken
  let vars ← stringMap (values.get "variables") "variables"
  let secretVars ← stringMap (secrets.get "variables") "secrets.variables"
  let credentialVars := (credentialsConfig.map fun c => c.vars.keys ++ c.file.toList).getD []
  match (vars.keys ++ secretVars.keys ++ credentialVars).find? resourceVariables.contains with
  | some name => throw (.input ("the variable `" ++ name ++ "` is reserved for the resource's inputs"))
  | none => return {
      source, script, vars, secretVars, files := plain ++ secret, credentialsConfig
      tokens := tokens.foldl (fun m (host, token) => m.insert host token) ∅ }

inductive SourceAt where
  | current
  | retained (source : Option RetainedSource)

structure Kept where
  script : Except Errno String
  lock : Option String

structure Run where
  root : Place
  dir : Place

def isCommit (commit : String) : Bool :=
  (commit.utf8ByteSize = 40 || commit.utf8ByteSize = 64) &&
    commit.toList.all fun c => c.isDigit || ('a' ≤ c && c ≤ 'f') || ('A' ≤ c && c ≤ 'F')

def pinned (inputs : Inputs) (req : DriverRequest) : Except Failure (Option Pinned) :=
  match req.pin with
  | none => .ok none
  | some pin =>
    match m.readPinned pin with
    | none => .error (.input "the pinned module version is unreadable")
    | some pinned =>
      if inputs.source.map (fun (s, path) => (s.url, path)) ≠ pinned.source.map fun s => (s.url, s.path) then
        .error (.input "the definition's `source` is not the one the pinned version came from")
      else if pinned.source.any fun s => !isCommit s.commit then
        .error (.input "the pinned module version names no commit")
      else .ok (some pinned)

def unfetchable (source : GitSource) : Failure → Failure
  | .command _ stderr => .input ("the pinned commit `" ++ source.rev ++ "` of `" ++ source.url ++
      "` can no longer be fetched; deploy the current configuration instead: " ++
        ((lines stderr).getLast?.map String.ofList).getD "")
  | f => f

def scriptOf (kept : Kept) (inputs : Inputs) : SourceAt → Except Failure (Option String)
  | .current => .ok inputs.script
  | .retained source =>
    match kept.script with
    | .ok script => .ok (some script)
    | .error e =>
      if e = .noEnt && source.isSome then .ok none
      else .error (.input "the script this resource was applied with is not retained; its state is kept")

def sourceOf (inputs : Inputs) (pinned : Option Pinned) : SourceAt → Except Failure (Option (GitSource × Option String))
  | .retained (some s) =>
    match inputs.source with
    | none => .error (.input ("the definition no longer has a `source`; its credentials are needed to fetch the retained " ++
        "commit"))
    | some (current, _) => .ok (some ({ current with url := s.url, rev := s.commit }, s.path))
  -- applied from a script alone: never the definition's newer source
  | .retained none => .ok none
  | .current => .ok (inputs.source.map fun (s, path) =>
      ({ s with rev := ((pinned.bind (·.source)).map (·.commit)).getD s.rev }, path))

def checkDirectory (t : Tree) (module : Location) : Except Failure Unit :=
  if isDirectory t module then .ok () else .error (.input "`source.path` is not a directory in the repository")

def moduleIn (t : Tree) (checkout : Location) (path : Option String) : Except Failure Location :=
  match path with
  | some p => (inside t checkout p).mapError .input
  | none => (canonicalize t checkout).mapError .ofErrno |>.map fun p => ⟨p, []⟩

variable (run : Run)

def fetchModule (pinned : Option Pinned) (s : GitSource) (path : Option String) (t : Tree) :
    Except Failure (Tree × Location) := do
  let (t, _) ← (m.fetch s ("source" :: run.dir) t).mapError fun f => if pinned.isSome then unfetchable s f else f
  let module ← moduleIn t ⟨run.dir, ["source"]⟩ path
  checkDirectory t module
  let root ← (canonicalize t module).mapError .ofErrno
  (t.names root).forM fun name =>
    if isOverride name then .error (.input ("the module has an override file `" ++ name ++
      "`; it could replace the orchestrator's backend"))
    else .ok ()
  return (t, module)

def writeScript (script : Option String) (fetched : Bool) (module : Location) (t : Tree) : Except Failure Tree :=
  match script with
  | none => .ok t
  | some script => writePrivate t (module.join (if fetched then "override.tf" else "main.tf")) script

def writeFile (module : Location) (t : Tree) (file : String × String × Bool) : Except Failure Tree := do
  let target ← (inside t module file.1).mapError .input
  writePrivate t target file.2.1

def writeBackendCredentials (creds : Option String) (t : Tree) : Except Failure Tree :=
  match creds with
  | some creds => writePrivate t ⟨run.dir, ["backend.tfbackend"]⟩ creds
  | none => .ok t

def prepareBackend (req : DriverRequest) (module : Location) (t : Tree) : Except Failure Tree := do
  m.checkBackend.mapError .io
  let t ← writePrivate t (module.join backendOverride) (m.overrideFile req)
  let creds ← m.credentialsFile.mapError .io
  let t ← writeBackendCredentials run creds t
  privateDir t ⟨run.root, ["plugin-cache"]⟩

def useRetained (at' : SourceAt) (pinned : Option Pinned) (module : Location) (t : Tree) : Bool :=
  match at' with
  | .retained _ => true
  | .current => pinned.isNone && !(canonicalize t (module.join lockFile)).isOk

/-- `fs::copy`, through links. -/
def copyLock (kept : Kept) (at' : SourceAt) (pinned : Option Pinned) (module : Location) (t : Tree) : Except Failure Tree :=
  match kept.lock with
  | some lock =>
    if useRetained at' pinned module t then (t.writeThrough module.base lock (lockFile :: module.names)).mapError .ofErrno
    else .ok t
  | none => .ok t

def writePinnedLock (pinned : Option Pinned) (module : Location) (t : Tree) : Except Failure Tree :=
  match pinned.bind (·.lock) with
  | some lock => writePrivate t (module.join lockFile) lock
  | none => .ok t

def checkEnvName (name : String) : Except Failure Unit :=
  if !name.isEmpty && name.toList.all (fun c => c.isAlphanum || c = '_') && !name.toList.head?.any Char.isDigit &&
      !(["PATH", "HOME", "AWS_EC2_METADATA_DISABLED", "AWS_CA_BUNDLE", "AWS_S3_ENDPOINT", "AWS_STS_ENDPOINT", "AWS_PROFILE",
        "AWS_CONFIG_FILE", "AWS_SHARED_CREDENTIALS_FILE"].contains name) &&
      !"AWS_ENDPOINT_URL".toList.isPrefixOf name.toList && !"TF_".toList.isPrefixOf name.toList then .ok ()
  else .error (.input ("`" ++ name ++ "` cannot be set by `credentials_config`"))

def credentials (run : Run) (inputs : Inputs) (req : DriverRequest) (t : Tree) : Except Failure (Tree × JsonMap) :=
  let field (creds : JsonMap) (name : String) : Except Failure Json :=
    match creds.get name with
    | some (.str s) => .ok (.str s)
    | _ => .error (.input ("the cloud account has no credential field `" ++ name ++ "`"))
  match req.credentials, inputs.credentialsConfig with
  | some creds, some config => do
    config.environment.toList.forM fun (env, name) => do
      checkEnvName env
      discard (field creds name)
    let vars ← config.vars.toList.mapM fun (var, name) => do return (var, ← field creds name)
    match config.file with
    | none => return (t, JsonMap.extend [] vars)
    | some var => do
      let t ← writePrivate t ⟨run.dir, ["credentials.json"]⟩ (m.jsonText (.obj creds))
      return (t, (JsonMap.extend [] vars).insert var (.str ("/" ++ "/".intercalate (("credentials.json" :: run.dir).reverse))))
  | _, _ => .ok (t, [])

def writeVars (name : String) (vars : JsonMap) (t : Tree) : Except Failure Tree :=
  if vars.isEmpty then .ok t else writePrivate t ⟨run.dir, [name]⟩ (m.jsonText (.obj vars))

structure Checkout where
  inputs : Inputs
  pinned : Option Pinned
  script : Option String
  fetched : Bool
  tree : Tree
  module : Location

def pinnedAt (inputs : Inputs) (req : DriverRequest) : SourceAt → Except Failure (Option Pinned)
  | .current => pinned m inputs req
  | .retained _ => .ok none

/-- The beginning of `prepare`, up to the source. -/
def checkOut (kept : Kept) (req : DriverRequest) (at' : SourceAt) (t : Tree) : Except Failure Checkout := do
  let inputs ← parse m req.values req.secrets
  let pinned ← pinnedAt m inputs req at'
  let t ← privateDir t ⟨run.dir, ["home"]⟩
  let t ← privateDir t ⟨run.root, [req.guresid.text, "state"]⟩
  let script ← scriptOf kept inputs at'
  match ← sourceOf inputs pinned at' with
  | some (s, path) => do
    let (tree, module) ← fetchModule m run pinned s path t
    return { inputs, pinned, script, fetched := true, tree, module }
  | none => do
    let tree ← privateDir t ⟨run.dir, ["module"]⟩
    return { inputs, pinned, script, fetched := false, tree, module := ⟨run.dir, ["module"]⟩ }

def fillModule (kept : Kept) (req : DriverRequest) (at' : SourceAt) (c : Checkout) : Except Failure Tree := do
  let t ← writeScript c.script c.fetched c.module c.tree
  let t ← c.inputs.files.foldlM (writeFile c.module) t
  let t ← prepareBackend m run req c.module t
  let t ← copyLock kept at' c.pinned c.module t
  writePinnedLock c.pinned c.module t

def fillCredentials (inputs : Inputs) (req : DriverRequest) (t : Tree) : Except Failure (Tree × JsonMap) :=
  if req.credentials.isSome then credentials m run inputs req t
  else if inputs.credentialsConfig.isSome then .error (.input "`credentials_config` needs a `driver_account`")
  else .ok (t, [])

def writeOutside (req : DriverRequest) (inputs : Inputs) (t : Tree) : Except Failure Tree := do
  let (t, filled) ← fillCredentials m run inputs req t
  -- the resource's inputs, with each secret value moved to the secret variable at its path
  let (resource, resourceSecrets) := Inputs.splitResource req
  let vars := if resource.isEmpty then inputs.vars else inputs.vars.insert "resource" (.obj resource)
  let secretVars := inputs.secretVars.extend filled
  let secretVars := if resourceSecrets.isEmpty then secretVars else secretVars.insert "resource_secrets" (.obj resourceSecrets)
  let t ← writeVars m run "values.tfvars.json" vars t
  writeVars m run "secrets.tfvars.json" secretVars t

def prepare (kept : Kept) (req : DriverRequest) (at' : SourceAt) (t : Tree) :
    Except Failure (Tree × Location) := do
  let c ← checkOut m run kept req at' t
  let t ← fillModule m run kept req at' c
  let t ← writeOutside m run req c.inputs t
  return (t, c.module)

end Openporch.Tofu
