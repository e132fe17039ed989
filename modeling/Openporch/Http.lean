import Openporch.Catalog
import Openporch.DriverTrace
import Openporch.Lib.Fallible

/-!
# The external HTTP driver

`crates/drivers/src/http.rs`: the adapter that maps the driver calls onto requests to a peer. The peer
may answer anything; `Sent` is what comes of sending one request. Reading base64 and redacting secret
values from messages are parameters of the driver.
-/

namespace Openporch
open Loops Fallible DriverError

variable {W : Type}

def protocolVersion : String := "openporch-http/1"
def defaultPoll : Nat := secs 10
def maxRetryAfter : Nat := secs 3600
def maxMessageChars : Nat := 1000

inductive Method where
  | put
  | get
  | delete
  | cancel
deriving DecidableEq

inductive Body where
  | tooLarge
  | broken
  | whole (json : Option Json) (line column : Nat)

structure Response where
  status : Nat
  protocol : Option String
  setCookie : Option String
  retryAfter : Option String
  body : Body

inductive Sent where
  /-- No connection, so nothing reached the driver. -/
  | unreached
  | failed
  | response (res : Response)

structure HttpDriver (W : Type) where
  info : DriverInfo
  decode : List Char → Option String
  redact : DriverRequest → String → String
  send : Method → DriverRequest → W → Call W Sent

structure Reply where
  status : Nat
  /-- The response carried the protocol header, so it came from a driver. -/
  spoken : Bool
  retryAfter : Option Nat
  cookie : Option Cookie
  json : Option Json
  line : Nat
  column : Nat
  mutation : Bool

def Reply.pollAfter (r : Reply) : Nat := r.retryAfter.getD defaultPoll

/-- `Retry-After` in seconds; dates are ignored. -/
def parseRetryAfter (header : Option String) : Option Nat := do
  let seconds ← parseU64 (trim (← header).toList)
  return min (secs seconds) maxRetryAfter

def lost (mutation : Bool) (what : String) : DriverError :=
  if mutation then .uncertain (what ++ "; the driver may have acted") else .transient what none

namespace HttpDriver
variable (h : HttpDriver W)

def parseCookie (v : String) : Option Cookie := do
  let (version, data) ← splitOnce '.' (trim v.toList)
  let data ← h.decode data
  let version ← (parseU64 version).filter (· < 2 ^ 32)
  let cookie : Cookie := { version, data }
  match cookie.check with
  | .ok () => some cookie
  | .error _ => none

def call (mutation : Bool) : Sent → Except DriverError Reply
  | .unreached => .error (.transient "cannot connect to the driver" none)
  | .failed => .error (lost mutation "the request to the driver failed")
  | .response res =>
    let cookie := res.setCookie.map h.parseCookie
    -- a cookie that arrived is kept even with a response rejected below
    let arrived := cookie.bind id
    if res.protocol.any (· ≠ protocolVersion) then
      let message := "the driver answered with protocol `" ++ res.protocol.getD "" ++ "`; expected `"
        ++ protocolVersion ++ "`"
      .error ((if mutation then uncertain message else .invalid none message).attach arrived)
    else if cookie = some none then .error (.uncertain "the driver returned a malformed cookie")
    else match res.body with
      | .tooLarge => .error ((lost mutation "the driver's response is larger than 4 MiB").attach arrived)
      | .broken => .error ((lost mutation "reading the driver's response failed").attach arrived)
      | .whole json line column => .ok { status := res.status, spoken := res.protocol.isSome,
                                         retryAfter := parseRetryAfter res.retryAfter, cookie := arrived,
                                         json, line, column, mutation }

def mapField (v : Json) (key : String) : Option JsonMap :=
  match v.field? key with
  | none => some []
  | some fields => fields.asObject?

def isManifest (v : Json) : Bool := ((v.field? "location").bind Json.asStr?).isSome && (v.field? "data").isSome

/-- The `id` and the outputs of a resource body. -/
def resourceBody (v : Json) : Option (String × DriverOutputs) := do
  let id ← (← v.field? "id").asStr?
  let resource ← match v.field? "resource" with
    | none => some (.obj [])
    | some r => r.asObject?.map .obj
  let values ← mapField resource "values"
  let secrets ← mapField resource "secrets"
  let manifests ← match v.field? "manifests" with
    | none => some []
    | some m => m.asArray?
  if manifests.all isManifest then some (id, { values, secrets }) else none

def outputs (req : DriverRequest) (reply : Reply) : Except DriverError DriverOutputs :=
  let bad (message : String) : DriverError :=
    if reply.mutation then .uncertain message else .invalid none message
  match reply.json.bind resourceBody with
  | none => .error (bad ("the driver's response is not a resource (line " ++ toString reply.line ++ ", column "
      ++ toString reply.column ++ ")"))
  | some (id, outputs) =>
    if id ≠ req.guresid.text then
      .error (bad "the driver's response names a different resource ID than the GUResID")
    else .ok outputs

/-- An optional text field of an error body; `none` when the body is not one. -/
def textField (v : Json) (key : String) : Option (Option String) :=
  match v.field? key with
  | none | some .null => some none
  | some (.str s) => some (some s)
  | some _ => none

/-- The `error` and `message` of an error body. -/
def errorBody (json : Option Json) : Option String × Option String :=
  match json with
  | some (.obj fields) =>
    match textField (.obj fields) "error", textField (.obj fields) "message" with
    | some error, some message => (error, message)
    | _, _ => (none, none)
  | _ => (none, none)

def takeChars (n : Nat) (s : String) : String := String.ofList (s.toList.take n)

def failure (req : DriverRequest) (reply : Reply) : DriverError :=
  let (error, message) := errorBody reply.json
  let message := (message.map fun m => takeChars maxMessageChars (h.redact req m)).getD
    ("the driver answered " ++ toString reply.status)
  if reply.status = 400 ∨ reply.status = 422 then
    .invalid (error.map fun c => takeChars 64 (h.redact req c)) message
  else if reply.status = 401 ∨ reply.status = 403 then
    .invalid none ("the driver refused the credentials (" ++ toString reply.status ++ ")")
  else if reply.status = 409 then
    -- a conflicting operation may be this one, retried after its response was lost
    if reply.mutation then .uncertain ("the driver reports a conflicting operation (409), so the resource is "
      ++ "observed before it is changed again: " ++ message)
    else .conflict message
  else if reply.status = 429 then .transient message reply.retryAfter
  else if 500 ≤ reply.status ∧ reply.status ≤ 599 ∧ (!reply.mutation || h.info.capabilities.recover) then
    .transient message reply.retryAfter
  else if reply.mutation then
    .uncertain ("the driver answered " ++ toString reply.status ++ " to a mutation: " ++ message)
  else .invalid none ("the driver answered " ++ toString reply.status ++ ": " ++ message)

def notADriver404 : String := "the target answered 404 without `Openporch-Protocol`, so it may not be the driver; "
  ++ "check the driver's target"

def observe (req : DriverRequest) (reply : Reply) : Except DriverError Observation :=
  if reply.status = 200 then
    match outputs req reply with
    | .ok outputs => .ok (.ready outputs reply.cookie)
    | .error e => .error (e.attach reply.cookie)
  else if reply.status = 202 then .ok (.inProgress reply.pollAfter reply.cookie)
  else if reply.status = 404 then
    -- only a driver's own 404 means absent
    if reply.spoken then .ok (.absent reply.cookie) else .ok (.unknown notADriver404 reply.cookie)
  else if reply.status = 400 ∨ reply.status = 422 then .ok (.failed ((h.failure req reply).attach reply.cookie))
  else .error ((h.failure req reply).attach reply.cookie)

def onPut (req : DriverRequest) (reply : Reply) : Except DriverError PutOutcome :=
  if reply.status = 200 then
    match outputs req reply with
    | .ok outputs => .ok (.ready outputs reply.cookie)
    | .error e => .error (e.attach reply.cookie)
  else if reply.status = 202 then .ok (.inProgress reply.pollAfter reply.cookie)
  else if reply.status = 204 then .ok (.ready {} reply.cookie)
  else .error ((h.failure req reply).attach reply.cookie)

def onDelete (req : DriverRequest) (reply : Reply) : Except DriverError DeleteOutcome :=
  if reply.status = 200 ∨ reply.status = 204 then .ok .deleted
  else if reply.status = 404 then
    if reply.spoken then .ok .deleted
    else .error ((uncertain notADriver404).attach reply.cookie)
  else if reply.status = 202 then .ok (.inProgress reply.pollAfter reply.cookie)
  else .error ((h.failure req reply).attach reply.cookie)

def toDriver : Driver W where
  info := h.info
  put req w := (h.send .put req w).map fun sent => h.call true sent >>= h.onPut req
  get req w := (h.send .get req w).map fun sent => h.call false sent >>= h.observe req
  delete req w := (h.send .delete req w).map fun sent => h.call true sent >>= h.onDelete req
  cancel req w :=
    if h.info.capabilities.cancel then (h.send .cancel req w).map fun sent => h.call false sent >>= h.observe req
    else .now (.error (.unsupported "cancellation")) w
  plan _ w := .now (.ok .unknown) w
  planDelete _ w := .now (.ok .unknown) w

def arrived : Sent → Option Cookie
  | .response res => res.setCookie.bind h.parseCookie
  | .unreached | .failed => none

inductive Reported : Sent → DriverError → Prop
  | unreached (message : String) (retryAfter : Option Nat) : Reported .unreached (.transient message retryAfter)
  | busy {res} (message : String) (retryAfter : Option Nat) :
    res.status = 429 ∨ 500 ≤ res.status ∧ res.status ≤ 599 ∧ h.info.capabilities.recover = true →
    Reported (.response res) (.transient message retryAfter)
  | refused {res} (code : Option String) (message : String) :
    res.status ∈ [400, 422, 401, 403] →
    Reported (.response res) (.invalid code message)
  | uncertain (sent : Sent) (reason : String) : Reported sent (.uncertain reason)

def Named (req : DriverRequest) (res : Response) : Prop :=
  ∃ json line column outputs, res.body = .whole (some json) line column ∧ resourceBody json = some (req.guresid.text, outputs)

variable {h} {req : DriverRequest} {sent : Sent} {res : Response} {reply : Reply}

theorem bare_uncertain (reason : String) : (uncertain reason).split = (.uncertain reason, none) := rfl

theorem call_error {e : DriverError} (he : h.call true sent = .error e) :
    h.Reported sent e.split.1 ∧ e.split.2 = h.arrived sent := by
  cases sent with
  | unreached =>
    cases he
    exact ⟨.unreached _ _, rfl⟩
  | failed =>
    cases he
    exact ⟨.uncertain _ _, rfl⟩
  | response res =>
    have hcookie : (res.setCookie.map h.parseCookie).bind id = h.arrived (.response res) := by
      cases hset : res.setCookie <;> simp [arrived, hset]
    -- The error is uncertain, and the cookie that arrived is attached to it.
    have hattached : ∀ reason, e = (uncertain reason).attach (h.arrived (.response res)) →
        h.Reported (.response res) e.split.1 ∧ e.split.2 = h.arrived (.response res) := by
      rintro reason rfl
      rw [split_attach_fst, split_attach_snd, bare_uncertain, Option.or_none]
      exact ⟨.uncertain _ _, rfl⟩
    unfold call at he
    dsimp only at he
    rw [hcookie] at he
    split at he
    · exact hattached _ (Except.error.inj he).symm
    · split at he
      · rename_i hmalformed
        cases he
        rw [← hcookie, hmalformed]
        exact ⟨.uncertain _ _, rfl⟩
      · split at he
        · exact hattached _ (Except.error.inj he).symm
        · exact hattached _ (Except.error.inj he).symm
        · cases he

theorem call_ok {mutation : Bool} (hreply : h.call mutation sent = .ok reply) : ∃ res, sent = .response res ∧
    reply.status = res.status ∧ reply.spoken = res.protocol.isSome ∧ reply.cookie = h.arrived sent ∧
    reply.mutation = mutation ∧ ∃ line column, res.body = .whole reply.json line column := by
  cases sent with
  | unreached | failed => cases hreply
  | response res =>
    unfold call at hreply
    dsimp only at hreply
    split at hreply
    · cases hreply
    · split at hreply
      · cases hreply
      · split at hreply
        · cases hreply
        · cases hreply
        · rename_i json line column hbody
          cases hreply
          refine ⟨res, rfl, rfl, rfl, ?_, rfl, line, column, hbody⟩
          cases hset : res.setCookie <;> simp [arrived, hset]

theorem failure_reported (hstatus : reply.status = res.status) (hmutation : reply.mutation = true) :
    h.Reported (.response res) (h.failure req reply) := by
  unfold failure
  dsimp only
  rw [hmutation, hstatus]
  split
  · rename_i hbad
    exact .refused _ _ (by rcases hbad with hbad | hbad <;> simp [hbad])
  · split
    · rename_i hcredentials
      exact .refused _ _ (by rcases hcredentials with hbad | hbad <;> simp [hbad])
    · split
      · exact .uncertain _ _
      · split
        · rename_i hbusy
          exact .busy _ _ (.inl hbusy)
        · split
          · rename_i hserver
            exact .busy _ _ (.inr (by simpa using hserver))
          · exact .uncertain _ _

theorem failure_bare : (h.failure req reply).split = (h.failure req reply, none) := by
  unfold failure
  dsimp only
  split_ifs <;> rfl

theorem failure_attached (hsent : sent = .response res) (hstatus : reply.status = res.status)
    (hmutation : reply.mutation = true) (hcookie : reply.cookie = h.arrived sent) :
    h.Reported sent ((h.failure req reply).attach reply.cookie).split.1 ∧
      ((h.failure req reply).attach reply.cookie).split.2 = h.arrived sent := by
  rw [split_attach_fst, split_attach_snd, failure_bare, Option.or_none]
  exact ⟨hsent ▸ failure_reported hstatus hmutation, hcookie⟩

theorem outputs_named {line column : Nat} (hbody : res.body = .whole reply.json line column) {o : DriverOutputs}
    (ho : outputs req reply = .ok o) : Named req res := by
  unfold outputs at ho
  dsimp only at ho
  split at ho
  · cases ho
  · rename_i id o' hresource
    split at ho
    · cases ho
    · rename_i hid
      obtain ⟨json, hjson, hresource⟩ := Option.bind_eq_some_iff.1 hresource
      exact ⟨json, line, column, o', hjson ▸ hbody, not_not.1 hid ▸ hresource⟩

theorem outputs_error (hmutation : reply.mutation = true) {e : DriverError} (he : outputs req reply = .error e) :
    ∃ reason, e = .uncertain reason := by
  unfold outputs at he
  dsimp only at he
  rw [hmutation] at he
  split at he
  · exact ⟨_, (Except.error.inj he).symm⟩
  · split at he
    · exact ⟨_, (Except.error.inj he).symm⟩
    · cases he

variable (h req)

/-- What a `PUT` may report. -/
def PutReported (sent : Sent) : Except DriverError PutOutcome → Prop
  | .error e => h.Reported sent e.split.1 ∧ e.split.2 = h.arrived sent
  | .ok (.ready _ cookie) => cookie = h.arrived sent ∧ ∃ res, sent = .response res ∧ (Named req res ∨ res.status = 204)
  | .ok (.inProgress _ cookie) => cookie = h.arrived sent

/-- What a `DELETE` may report; that a resource is deleted comes without a cookie. -/
def DeleteReported (sent : Sent) : Except DriverError DeleteOutcome → Prop
  | .error e => h.Reported sent e.split.1 ∧ e.split.2 = h.arrived sent
  | .ok .deleted => ∃ res, sent = .response res ∧
    (200 ≤ res.status ∧ res.status ≤ 299 ∨ res.status = 404 ∧ res.protocol.isSome = true)
  | .ok (.inProgress _ cookie) => cookie = h.arrived sent

theorem put_reported (sent : Sent) : h.PutReported req sent (h.call true sent >>= h.onPut req) := by
  cases hcall : h.call true sent with
  | error e => exact call_error hcall
  | ok reply =>
    obtain ⟨res, rfl, hstatus, -, hcookie, hmutation, line, column, hbody⟩ := call_ok hcall
    rw [ok_bind, onPut]
    split
    · cases ho : outputs req reply with
      | ok o => exact ⟨hcookie, res, rfl, .inl (outputs_named hbody ho)⟩
      | error e =>
        obtain ⟨reason, rfl⟩ := outputs_error hmutation ho
        show h.Reported _ _ ∧ _
        rw [split_attach_fst, split_attach_snd, bare_uncertain, Option.or_none]
        exact ⟨.uncertain _ _, hcookie⟩
    · split
      · exact hcookie
      · split
        · rename_i hnone
          exact ⟨hcookie, res, rfl, .inr (hstatus ▸ hnone)⟩
        · exact failure_attached rfl hstatus hmutation hcookie

theorem delete_reported (sent : Sent) : h.DeleteReported sent (h.call true sent >>= h.onDelete req) := by
  cases hcall : h.call true sent with
  | error e => exact call_error hcall
  | ok reply =>
    obtain ⟨res, rfl, hstatus, hspoken, hcookie, hmutation, -⟩ := call_ok hcall
    rw [ok_bind, onDelete]
    split
    · rename_i hdone
      exact ⟨res, rfl, .inl (by omega)⟩
    · split
      · rename_i hgone
        split
        · rename_i hdriver
          exact ⟨res, rfl, .inr ⟨hstatus ▸ hgone, hspoken ▸ hdriver⟩⟩
        · show h.Reported _ _ ∧ _
          rw [split_attach_fst, split_attach_snd, bare_uncertain, Option.or_none]
          exact ⟨.uncertain _ _, hcookie⟩
      · split
        · exact hcookie
        · exact failure_attached rfl hstatus hmutation hcookie

theorem observe_absent {cookie : Option Cookie} (hget : (h.call false sent >>= h.observe req) = .ok (.absent cookie)) :
    ∃ res, sent = .response res ∧ res.status = 404 ∧ res.protocol.isSome = true := by
  obtain ⟨reply, hcall, hobserve⟩ := bind_eq_ok.1 hget
  obtain ⟨res, rfl, hstatus, hspoken, -⟩ := call_ok hcall
  unfold observe at hobserve
  split at hobserve
  · split at hobserve <;> cases hobserve
  · split at hobserve
    · cases hobserve
    · split at hobserve
      · rename_i hgone
        split at hobserve
        · rename_i hdriver
          exact ⟨res, rfl, hstatus ▸ hgone, hspoken ▸ hdriver⟩
        · cases hobserve
      · split at hobserve <;> cases hobserve

/-- Whatever the peer answers, a mutation that may have been performed is not reported as a clean failure. -/
theorem mutations_reported (w : W) :
    h.PutReported req (h.send .put req w).answer (h.toDriver.put req w).answer ∧
      h.DeleteReported (h.send .delete req w).answer (h.toDriver.delete req w).answer ∧
      ∀ cookie, (h.toDriver.get req w).answer = .ok (.absent cookie) → ∃ res, (h.send .get req w).answer = .response res ∧
        res.status = 404 ∧ res.protocol.isSome = true :=
  ⟨h.put_reported req _, h.delete_reported req _, fun _ hget => h.observe_absent req hget⟩

end HttpDriver

/-- Answers `200` with a cookie to anything. -/
def partingPeer : HttpDriver Unit where
  info := { id := "acme/dns", protocolVersion, cookieVersion := 1, capabilities := {} }
  decode cs := if cs = "c3RhdGU".toList then some "state" else none
  redact _ m := m
  send _ _ w := .now (.response { status := 200, protocol := some protocolVersion, setCookie := some "1.c3RhdGU"
                                  retryAfter := none, body := .whole none 1 0 }) w

def partingRequest : DriverRequest where
  guresid := ⟨"fedcba9876543210fedcba9876543210", by decide⟩
  operation := ⟨"op-1", "f-1"⟩
  resourceType := "dns"
  resource := []
  resourceSecrets := []
  resourceSecretPaths := []
  values := []
  secrets := []
  credentials := none
  context := ⟨"acme", "shop", "dev", "development", "shared.api-dns", "default"⟩
  cookie := none
  permit := none
  pin := none

/-- A deleted resource is reported without the cookie that arrived. -/
theorem partingPeer_deleted :
    partingPeer.arrived (partingPeer.send .delete partingRequest ()).answer = some ⟨1, "state"⟩ ∧
      (partingPeer.toDriver.delete partingRequest ()).answer = .ok .deleted := by
  have harrived : partingPeer.parseCookie "1.c3RhdGU" = some ⟨1, "state"⟩ := by decide +kernel
  exact ⟨harrived, rfl⟩

end Openporch
