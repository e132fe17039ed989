import Openporch.Cloud.Resolver
import Openporch.JsonText
import Openporch.Lib.Fallible

/-!
# Forgotten sessions

A session is kept only if nothing was forgotten since its account was read, and `forget` removes it under the lock that
keeping takes, so no session read before a `forget` outlives it (`Inv`).
-/

namespace Openporch.Cloud
open Fallible Code List

structure Debug.Proper (debug : Debug) : Prop where
  injective : Function.Injective debug.text
  oneLine : ∀ r, '\n' ∉ (debug.text r).toList

theorem append_line_inj {u v r s : List Char} (hu : '\n' ∉ u) (hv : '\n' ∉ v) (h : u ++ '\n' :: r = v ++ '\n' :: s) :
    u = v ∧ r = s := by
  have hline : ∀ {l : List Char}, '\n' ∉ l → ∀ c ∈ l, (decide (c ≠ '\n')) = true := by
    intro l hl c hc
    simpa using fun heq : c = '\n' => hl (heq ▸ hc)
  obtain ⟨huv, hrs⟩ := append_inj_of_stops (hline hu) (hline hv) (stops_cons (by simp) r) (stops_cons (by simp) s) h
  exact ⟨huv, (List.cons.inj hrs).2⟩

theorem digits_no_newline {ds : List Char} (h : Digits ds) : '\n' ∉ ds := fun hmem => by
  have := h _ hmem
  revert this
  decide

theorem fingerprint_inj {debug : Debug} (hdebug : debug.Proper) {r s : AssumeRole} (hr : '\n' ∉ r.roleArn.toList)
    (hs : '\n' ∉ s.roleArn.toList) (h : fingerprint debug r = fingerprint debug s) :
    r.roleArn = s.roleArn ∧ r.externalId = s.externalId ∧ r.duration / second = s.duration / second ∧
      r.region = s.region := by
  have hsplit : ∀ q : AssumeRole, (fingerprint debug q).toList = q.roleArn.toList ++ '\n' :: (q.externalId.toList ++
      '\n' :: ((toString (q.duration / second)).toList ++ '\n' :: (debug.text q.region).toList)) := by
    intro q
    simp [fingerprint]
  have htext := congrArg String.toList h
  rw [hsplit, hsplit] at htext
  obtain ⟨harn, hrest⟩ := append_line_inj hr hs htext
  have hback := congrArg List.reverse hrest
  simp only [reverse_append, reverse_cons, append_assoc, singleton_append] at hback
  have hregion : ∀ q : AssumeRole, '\n' ∉ (debug.text q.region).toList.reverse := fun q => by
    rw [mem_reverse]
    exact hdebug.oneLine q.region
  have hsecs : ∀ q : AssumeRole, '\n' ∉ (toString (q.duration / second)).toList.reverse := fun q => by
    rw [mem_reverse]
    exact digits_no_newline (digits_toString _)
  obtain ⟨hreg, hback⟩ := append_line_inj (hregion r) (hregion s) hback
  obtain ⟨hdur, hext⟩ := append_line_inj (hsecs r) (hsecs s) hback
  refine ⟨String.toList_injective harn, String.toList_injective (reverse_injective hext), ?_, ?_⟩
  · exact toString_nat_inj (reverse_injective hdur)
  · exact hdebug.injective (String.toList_injective (reverse_injective hreg))

variable {account account' : CloudAccount} {request request' : AssumeRole}

theorem roleRequest_spec (h : account.roleRequest = .ok request) :
    account.configText "role_arn" = some request.roleArn ∧ request.duration % second = 0 ∧
      request.sessionName = String.ofList (("openporch-" ++ account.id.text).toList.take 64) := by
  unfold CloudAccount.roleRequest at h
  obtain ⟨duration, hduration, h⟩ := bind_eq_ok.1 h
  obtain ⟨arn, harn, h⟩ := bind_eq_ok.1 h
  obtain ⟨ext, -, h⟩ := bind_eq_ok.1 h
  cases h
  refine ⟨?_, ?_, rfl⟩
  · unfold CloudAccount.configStr at harn
    split at harn
    · rename_i s hs
      cases harn
      exact hs
    · cases harn
  · unfold CloudAccount.sessionDuration at hduration
    split at hduration
    · cases hduration
      exact Nat.mul_mod_left _ _
    · cases hduration
      exact Nat.mul_mod_left _ _
    · cases hduration

def CloudAccount.Plain (account : CloudAccount) : Prop := ∀ arn, account.configText "role_arn" = some arn → '\n' ∉ arn.toList

theorem request_eq {debug : Debug} (hdebug : debug.Proper) (h : account.roleRequest = .ok request)
    (h' : account'.roleRequest = .ok request') (hplain : account.Plain) (hplain' : account'.Plain)
    (hid : account.id = account'.id) (hprint : fingerprint debug request = fingerprint debug request') :
    request = request' := by
  obtain ⟨harn, hwhole, hname⟩ := roleRequest_spec h
  obtain ⟨harn', hwhole', hname'⟩ := roleRequest_spec h'
  obtain ⟨hroleArn, hext, hdur, hregion⟩ := fingerprint_inj hdebug (hplain _ harn) (hplain' _ harn') hprint
  have hduration : request.duration = request'.duration := by
    rw [← Nat.div_add_mod request.duration second, ← Nat.div_add_mod request'.duration second, hdur, hwhole, hwhole']
  have hsession : request.sessionName = request'.sessionName := by rw [hname, hname', hid]
  cases request
  cases request'
  simp_all

def Event.reads : Event → Option CloudAccount
  | .read _ account _ => some account
  | _ => none

variable {debug : Debug} {P : CloudAccount → Prop} {w : World} {r : Reading} {k : Nat}

/-- The counter wraps around, so a generation is taken again after `2 ^ 64` calls of `forget`. -/
def World.Few (w : World) : Prop := w.forgets.length < 2 ^ 64

/-- The generation was taken when `n` accounts were forgotten. -/
def World.Taken (w : World) (generation : UInt64) (n : Nat) : Prop := n ≤ w.forgets.length ∧ generation = .ofNat n

structure ReadingInv (P : CloudAccount → Prop) (w : World) (r : Reading) : Prop where
  account : P r.account
  current : ∃ n, w.Taken r.generation n ∧ (n = w.forgets.length → ∀ f ∈ w.forgets, f.countedAt < r.readAt)

structure SessionInv (debug : Debug) (P : CloudAccount → Prop) (w : World) (key : String) (s : Session) : Prop where
  known : P s.source.account
  account : s.source.account.id.text = key
  request : s.source.account.roleRequest = .ok s.source.request
  fingerprint : s.fingerprint = Cloud.fingerprint debug s.source.request
  past : s.source.keptAt < w.time
  /-- What was forgotten was so before the account was read or after the session was kept. In the second case it was not
  this account, or it is only about to be removed. -/
  forgets : w.Few → ∀ f ∈ w.forgets, f.countedAt < s.source.readAt ∨
    s.source.keptAt < f.countedAt ∧ (f.account = key → f.returnedAt = none)

structure HitInv (debug : Debug) (P : CloudAccount → Prop) (w : World) (c : AwsCredentials) (hit : Hit) : Prop where
  known : P hit.reading.account ∧ P hit.session.source.account
  credentials : c = hit.session.credentials
  valid : c.validFor hit.now hit.reading.window = true
  account : hit.session.source.account.id = hit.reading.account.id
  request : hit.reading.account.roleRequest = .ok hit.request
  source : hit.session.source.account.roleRequest = .ok hit.session.source.request
  fingerprint : Cloud.fingerprint debug hit.request = Cloud.fingerprint debug hit.session.source.request
  past : hit.foundAt < w.time
  forgets : w.Few → ∀ f ∈ w.forgets, f.account = hit.reading.account.id.text →
    f.countedAt < hit.session.source.readAt ∨ hit.foundAt < f.countedAt

def CallInv (debug : Debug) (P : CloudAccount → Prop) (w : World) : Call → Prop
  | .idle | .failed _ | .returned _ none => True
  | .took generation => ∃ n, w.Taken generation n
  | .read r => ReadingInv P w r
  | .asking r request | .obtained r request _ | .pruned r request _ =>
    ReadingInv P w r ∧ r.account.roleRequest = .ok request
  | .returned c (some hit) => HitInv debug P w c hit

structure Inv (debug : Debug) (P : CloudAccount → Prop) (w : World) : Prop where
  count : w.forgotten = .ofNat w.forgets.length
  /-- Only the newest `forget` can hold the lock. -/
  lock : ∀ f ∈ w.forgets.tail, f.returnedAt.isSome = true
  past : ∀ f ∈ w.forgets, f.countedAt < w.time
  returned : ∀ f ∈ w.forgets, ∀ t, f.returnedAt = some t → f.countedAt < t
  session : ∀ key s, w.sessions[key]? = some s → SessionInv debug P w key s
  call : ∀ k, CallInv debug P w (w.calls k)

/-- The same `forget` calls, at a later time. -/
structure Later (w w' : World) : Prop where
  forgotten : w'.forgotten = w.forgotten
  forgets : w'.forgets = w.forgets
  time : w.time ≤ w'.time

variable {w' : World} {s : Session} {key : String} {c : Call}

theorem Later.few (h : Later w w') (hfew : w'.Few) : w.Few := by
  unfold World.Few at *
  rwa [h.forgets] at hfew

theorem World.Taken.later {generation : UInt64} {n : Nat} (h : w.Taken generation n)
    (hforgets : w.forgets.length ≤ w'.forgets.length) : w'.Taken generation n :=
  ⟨h.1.trans hforgets, h.2⟩

theorem SessionInv.later (h : SessionInv debug P w key s) (hw : Later w w') : SessionInv debug P w' key s := by
  refine { h with past := h.past.trans_le hw.time, forgets := fun hfew => ?_ }
  rw [hw.forgets]
  exact h.forgets (hw.few hfew)

theorem ReadingInv.later (h : ReadingInv P w r) (hw : Later w w') : ReadingInv P w' r := by
  obtain ⟨n, htaken, hcurrent⟩ := h.current
  exact ⟨h.account, n, htaken.later (hw.forgets ▸ le_rfl), hw.forgets ▸ hcurrent⟩

theorem CallInv.imp (hforgets : w.forgets.length ≤ w'.forgets.length) (hreading : ∀ {r}, ReadingInv P w r → ReadingInv P w' r)
    (hhit : ∀ {c hit}, HitInv debug P w c hit → HitInv debug P w' c hit) (h : CallInv debug P w c) : CallInv debug P w' c := by
  cases c with
  | idle | failed => trivial
  | took =>
    obtain ⟨n, htaken⟩ := h
    exact ⟨n, htaken.later hforgets⟩
  | read => exact hreading h
  | asking | obtained | pruned => exact ⟨hreading h.1, h.2⟩
  | returned c hit =>
    cases hit with
    | none => trivial
    | some hit => exact hhit h

theorem CallInv.later (h : CallInv debug P w c) (hw : Later w w') : CallInv debug P w' c := by
  refine h.imp (hw.forgets ▸ le_rfl) (fun hr => hr.later hw) fun {c hit} hcall => ?_
  refine { hcall with past := hcall.past.trans_le hw.time, forgets := fun hfew => ?_ }
  rw [hw.forgets]
  exact hcall.forgets (hw.few hfew)

theorem Inv.later (h : Inv debug P w) (hw : Later w w')
    (hsessions : ∀ key s, w'.sessions[key]? = some s → w.sessions[key]? = some s ∨ SessionInv debug P w' key s)
    (hcalls : ∀ k, w'.calls k = w.calls k ∨ CallInv debug P w' (w'.calls k)) : Inv debug P w' where
  count := by rw [hw.forgotten, hw.forgets, h.count]
  lock := hw.forgets ▸ h.lock
  past f hf := (h.past f (hw.forgets ▸ hf)).trans_le hw.time
  returned := hw.forgets ▸ h.returned
  session key s hs := by
    rcases hsessions key s hs with hold | hnew
    · exact (h.session key s hold).later hw
    · exact hnew
  call k := by
    rcases hcalls k with hold | hnew
    · exact hold ▸ (h.call k).later hw
    · exact hnew

theorem Inv.set (h : Inv debug P w) (hw : Later w w') (hsessions : w'.sessions = w.sessions)
    (hcalls : w'.calls = (w.set k c).calls) (hc : CallInv debug P w' c) : Inv debug P w' := by
  refine h.later hw (fun key s hs => .inl (hsessions ▸ hs)) fun j => ?_
  rw [hcalls]
  unfold World.set
  dsimp only
  split
  · exact .inr hc
  · exact .inl rfl

theorem ReadingInv.before (h : ReadingInv P w r) (hcount : w.forgotten = .ofNat w.forgets.length) (hfew : w.Few)
    (hcurrent : w.forgotten = r.generation) : ∀ f ∈ w.forgets, f.countedAt < r.readAt := by
  obtain ⟨n, ⟨hn, hgeneration⟩, hbefore⟩ := h.current
  refine hbefore ?_
  rw [hcount, hgeneration, ← UInt64.toNat_inj, UInt64.toNat_ofNat_of_lt' hfew,
    UInt64.toNat_ofNat_of_lt' (hn.trans_lt hfew)] at hcurrent
  exact hcurrent.symm

theorem get_prune {sessions : Sessions} {now : Nat} (h : (sessions.prune now)[key]? = some s) : sessions[key]? = some s := by
  unfold Sessions.prune at h
  rw [BTreeMap.get_filter, Option.filter_eq_some_iff] at h
  exact h.1

theorem unlocked_iff : w.unlocked = true ↔ ∀ f ∈ w.forgets, f.returnedAt.isSome = true := by
  simp [World.unlocked]

theorem SessionInv.fresh (h : SessionInv debug P w key s) (hfew : w.Few) (hlock : w.unlocked = true) {f : Forget}
    (hf : f ∈ w.forgets) (haccount : f.account = key) : f.countedAt < s.source.readAt := by
  rcases h.forgets hfew f hf with hbefore | ⟨-, hnone⟩
  · exact hbefore
  · have hsome := unlocked_iff.1 hlock f hf
    rw [hnone haccount] at hsome
    cases hsome

theorem id_eq {a b : AccountId} (h : a.text = b.text) : a = b := by
  cases a
  cases b
  cases h
  rfl

theorem checkedRequest_ok {window : Nat} (h : checkedRequest account window = .ok request) :
    account.roleRequest = .ok request := by
  obtain ⟨request', hrequest, h⟩ := bind_eq_ok.1 h
  split at h
  · cases h
  · cases h
    exact hrequest

theorem Inv.call_of (h : Inv debug P w) (hk : w.calls k = c) : CallInv debug P w c := hk ▸ h.call k

theorem Inv.start (h : Inv debug P w) (hlock : w.unlocked = true) (hr : ReadingInv P w r) (now : Nat) {time : Nat}
    (htime : w.time < time) : CallInv debug P { w with time } (w.start debug r now) := by
  unfold World.start
  split
  · trivial
  · rename_i request hrequest
    split
    · rename_i s hs
      obtain ⟨hget, hfits⟩ := Option.filter_eq_some_iff.1 hs
      have hsession := h.session _ _ hget
      rw [Bool.and_eq_true, decide_eq_true_eq] at hfits
      refine ⟨⟨hr.account, hsession.known⟩, rfl, hfits.2, ?_, checkedRequest_ok hrequest, hsession.request, ?_, htime,
        fun hfew f hf haccount => ?_⟩
      · exact id_eq hsession.account
      · rw [← hfits.1, hsession.fingerprint]
      · exact .inl (hsession.fresh hfew hlock hf haccount)
    · exact ⟨⟨hr.account, hr.current⟩, checkedRequest_ok hrequest⟩

theorem Inv.forget (h : Inv debug P w) (hlock : w.unlocked = true) (account : String) (hw' : w' = { w with
    forgotten := w.forgotten + 1, forgets := { account, countedAt := w.time, returnedAt := none } :: w.forgets
    time := w.time + 1 }) : Inv debug P w' := by
  have hreading : ∀ {r}, ReadingInv P w r → ReadingInv P w' r := by
    intro r hr
    subst hw'
    obtain ⟨n, htaken, -⟩ := hr.current
    exact ⟨hr.account, n, htaken.later (Nat.le_succ _), fun heq => absurd (heq ▸ htaken.1) (Nat.not_succ_le_self _)⟩
  subst hw'
  refine ⟨?_, unlocked_iff.1 hlock, ?_, ?_, fun key s hs => ?_, fun k => ?_⟩
  · rw [List.length_cons, UInt64.ofNat_add, ← h.count]
    rfl
  · intro f hf
    rcases mem_cons.1 hf with rfl | hf
    · exact Nat.lt_succ_self _
    · exact Nat.lt_succ_of_lt (h.past f hf)
  · intro f hf t ht
    rcases mem_cons.1 hf with rfl | hf
    · cases ht
    · exact h.returned f hf t ht
  · have hsession := h.session key s hs
    refine { hsession with past := Nat.lt_succ_of_lt hsession.past, forgets := fun hfew f hf => ?_ }
    rcases mem_cons.1 hf with rfl | hf
    · exact .inr ⟨hsession.past, fun _ => rfl⟩
    · exact hsession.forgets (Nat.lt_of_succ_lt hfew) f hf
  · refine (h.call k).imp (Nat.le_succ _) hreading fun {c hit} hcall => ?_
    refine { hcall with past := Nat.lt_succ_of_lt hcall.past, forgets := fun hfew f hf haccount => ?_ }
    rcases mem_cons.1 hf with rfl | hf
    · exact .inr hcall.past
    · exact hcall.forgets (Nat.lt_of_succ_lt hfew) f hf haccount

theorem Inv.forgotten (h : Inv debug P w) {account : String} {countedAt : Nat} {earlier : List Forget}
    (hforgets : w.forgets = { account, countedAt, returnedAt := none } :: earlier) (hw' : w' = { w with
      sessions := w.sessions.erase account
      forgets := { account, countedAt, returnedAt := some w.time } :: earlier, time := w.time + 1 }) : Inv debug P w' := by
  have hmem : ∀ {f : Forget}, f ∈ w'.forgets → (f.account = account ∧ f.countedAt = countedAt ∧
    f.returnedAt = some w.time) ∨ f ∈ earlier := by
    intro f hf
    subst hw'
    rcases mem_cons.1 hf with rfl | hf
    · exact .inl ⟨rfl, rfl, rfl⟩
    · exact .inr hf
  have hhead : ({ account, countedAt, returnedAt := none } : Forget) ∈ w.forgets := hforgets ▸ mem_cons_self
  have hlength : w'.forgets.length = w.forgets.length := by
    rw [hforgets, hw']
    rfl
  have hkeeps : w'.Few → w.Few := hlength.symm.trans_lt
  have htail : ∀ f ∈ earlier, f ∈ w.forgets := fun f hf => hforgets ▸ mem_cons_of_mem _ hf
  -- Only the time the newest `forget` returned is new.
  have hcounted : ∀ f ∈ w'.forgets, ∃ f0 ∈ w.forgets, f0.account = f.account ∧ f0.countedAt = f.countedAt := by
    intro f hf
    rcases hmem hf with ⟨haccount, hcount, -⟩ | hf
    · exact ⟨_, hhead, haccount.symm, hcount.symm⟩
    · exact ⟨f, htail f hf, rfl, rfl⟩
  have hreading : ∀ {r}, ReadingInv P w r → ReadingInv P w' r := by
    intro r hr
    obtain ⟨n, htaken, hcurrent⟩ := hr.current
    refine ⟨hr.account, n, htaken.later hlength.ge, fun heq f hf => ?_⟩
    obtain ⟨f0, hf0, -, hcount⟩ := hcounted f hf
    exact hcount ▸ hcurrent (heq.trans hlength) f0 hf0
  subst hw'
  refine ⟨?_, ?_, fun f hf => ?_, fun f hf t ht => ?_, fun key s hs => ?_, fun k => ?_⟩
  · rw [hlength]
    exact h.count
  · have hlock := h.lock
    rwa [hforgets] at hlock
  · obtain ⟨f0, hf0, -, hcount⟩ := hcounted f hf
    exact hcount ▸ Nat.lt_succ_of_lt (h.past f0 hf0)
  · rcases hmem hf with ⟨-, hcount, hreturned⟩ | hf
    · cases hreturned.symm.trans ht
      exact hcount ▸ h.past _ hhead
    · exact h.returned f (htail f hf) t ht
  · change (w.sessions.erase account)[key]? = some s at hs
    rw [Std.ExtTreeMap.getElem?_erase] at hs
    split at hs
    · cases hs
    · rename_i hkey
      have hkey : account ≠ key := fun heq => hkey (heq ▸ Std.ReflOrd.compare_self)
      have hsession := h.session key s hs
      refine { hsession with past := Nat.lt_succ_of_lt hsession.past, forgets := fun hfew f hf => ?_ }
      have hfew := hkeeps hfew
      rcases hmem hf with ⟨haccount, hcount, -⟩ | hf
      · rcases hsession.forgets hfew _ hhead with hbefore | ⟨hafter, -⟩
        · exact .inl (hcount ▸ hbefore)
        · exact .inr ⟨hcount ▸ hafter, fun heq => absurd (haccount.symm.trans heq) hkey⟩
      · exact hsession.forgets hfew f (htail f hf)
  · refine CallInv.imp (w := w) hlength.ge hreading (fun {c hit} hcall => ?_) (h.call k)
    refine { hcall with past := Nat.lt_succ_of_lt hcall.past, forgets := fun hfew f hf haccount => ?_ }
    obtain ⟨f0, hf0, hsame, hcount⟩ := hcounted f hf
    exact hcount ▸ hcall.forgets (hkeeps hfew) f0 hf0 (hsame.trans haccount)

theorem Inv.step (h : Inv debug P w) {e : Event} (he : ∀ account, e.reads = some account → P account) :
    Inv debug P (w.step debug e) := by
  have hidle : Inv debug P { w with time := w.time + 1 } :=
    h.later ⟨rfl, rfl, Nat.le_succ _⟩ (fun _ _ hs => .inl hs) fun _ => .inl rfl
  unfold World.step
  generalize hact : w.act debug e = w'
  cases e with
  | take k =>
    rw [World.act] at hact
    split at hact <;> subst hact
    · exact h.set ⟨rfl, rfl, Nat.le_succ _⟩ rfl rfl ⟨_, le_rfl, h.count⟩
    · exact hidle
  | read k account window =>
    rw [World.act] at hact
    split at hact <;> subst hact
    · rename_i generation hk
      obtain ⟨n, htook⟩ : ∃ n, w.Taken generation n := h.call_of hk
      exact h.set ⟨rfl, rfl, Nat.le_succ _⟩ rfl rfl ⟨he account rfl, n, htook, fun _ => h.past⟩
    · exact hidle
  | lookUp k now =>
    rw [World.act] at hact
    split at hact
    · rename_i r hk
      have hr : ReadingInv P w r := h.call_of hk
      split at hact <;> subst hact
      · rename_i hlock
        exact h.set ⟨rfl, rfl, Nat.le_succ _⟩ rfl rfl ((h.start hlock hr now (Nat.lt_succ_self _)).later ⟨rfl, rfl, le_rfl⟩)
      · exact hidle
    · exact hact ▸ hidle
  | answer k result now =>
    rw [World.act] at hact
    split at hact <;> subst hact
    · rename_i r request hk
      have hr : ReadingInv P w r ∧ r.account.roleRequest = .ok request := h.call_of hk
      refine h.set ⟨rfl, rfl, Nat.le_succ _⟩ rfl rfl ?_
      unfold World.answered
      split
      · trivial
      · exact ⟨hr.1.later ⟨rfl, rfl, Nat.le_succ _⟩, hr.2⟩
    · exact hidle
  | pruneIn k now =>
    rw [World.act] at hact
    split at hact
    · rename_i r request c hk
      have hr : ReadingInv P w r ∧ r.account.roleRequest = .ok request := h.call_of hk
      split at hact <;> subst hact
      · have hset : Inv debug P { w.set k (.pruned r request c) with time := w.time + 1 } :=
          h.set ⟨rfl, rfl, Nat.le_succ _⟩ rfl rfl ⟨hr.1.later ⟨rfl, rfl, Nat.le_succ _⟩, hr.2⟩
        exact hset.later ⟨rfl, rfl, le_rfl⟩ (fun _ _ hs => .inl (get_prune hs)) fun _ => .inl rfl
      · exact hidle
    · exact hact ▸ hidle
  | keep k =>
    rw [World.act] at hact
    split at hact
    · rename_i r request c hk
      have hr : ReadingInv P w r ∧ r.account.roleRequest = .ok request := h.call_of hk
      split at hact <;> subst hact
      · have hset : Inv debug P { w.set k (.returned c none) with time := w.time + 1 } :=
          h.set ⟨rfl, rfl, Nat.le_succ _⟩ rfl rfl trivial
        refine hset.later ⟨rfl, rfl, le_rfl⟩ (fun key s hs => ?_) fun _ => .inl rfl
        change (w.kept debug r request c)[key]? = some s at hs
        unfold World.kept at hs
        split at hs
        · rename_i hcurrent
          rw [BTreeMap.get_insert] at hs
          split at hs
          · rename_i hkey
            cases hs
            exact .inr ⟨hr.1.account, hkey, hr.2, rfl, Nat.lt_succ_self _, fun hfew f hf =>
              .inl (hr.1.before h.count hfew hcurrent f hf)⟩
          · exact .inl hs
        · exact .inl hs
      · exact hidle
    · exact hact ▸ hidle
  | dropCall k =>
    rw [World.act] at hact
    split at hact <;> subst hact
    · exact h.set ⟨rfl, rfl, Nat.le_succ _⟩ rfl rfl trivial
    · exact hidle
  | prune now =>
    rw [World.act] at hact
    split at hact <;> subst hact
    · exact hidle.later ⟨rfl, rfl, le_rfl⟩ (fun _ _ hs => .inl (get_prune hs)) fun _ => .inl rfl
    · exact hidle
  | forget account =>
    rw [World.act] at hact
    split at hact <;> subst hact
    · rename_i hlock
      exact h.forget hlock account rfl
    · exact hidle
  | forgotten =>
    rw [World.act] at hact
    split at hact <;> subst hact
    · rename_i account countedAt earlier hforgets
      exact h.forgotten hforgets rfl
    · exact hidle

theorem inv_after {events : List Event} (h : ∀ e ∈ events, ∀ account, e.reads = some account → P account) :
    Inv debug P (after debug events) := by
  induction events with
  | nil =>
    have hsessions : ∀ key s, (after debug []).sessions[key]? = some s → SessionInv debug P (after debug []) key s := by
      intro key s hs
      simp [after, Transition.after] at hs
    exact ⟨rfl, by simp [after, Transition.after], by simp [after, Transition.after], by simp [after, Transition.after],
      hsessions, fun _ => trivial⟩
  | cons e earlier ih =>
    exact (ih fun e' he' => h e' (mem_cons_of_mem _ he')).step (h e mem_cons_self)

/-- A cached session was obtained for the account it is kept under, with the configuration its fingerprint names, and
nothing was forgotten between the read of the account and its keeping. -/
def Session.Cached (debug : Debug) (w : World) (key : String) (s : Session) : Prop :=
  s.source.account.id.text = key ∧ s.source.account.roleRequest = .ok s.source.request ∧
    s.fingerprint = Cloud.fingerprint debug s.source.request ∧
    ∀ f ∈ w.forgets, ¬ (s.source.readAt ≤ f.countedAt ∧ f.countedAt ≤ s.source.keptAt)

/-- A session found is one of the account asked for, stays valid for the window, and was read after every `forget` of the
account that had returned. -/
def Hit.Fresh (w : World) (c : AwsCredentials) (hit : Hit) : Prop :=
  c = hit.session.credentials ∧ c.validFor hit.now hit.reading.window = true ∧
    hit.session.source.account.id = hit.reading.account.id ∧
    ∀ f ∈ w.forgets, f.account = hit.reading.account.id.text → ∀ t, f.returnedAt = some t → t < hit.foundAt →
      f.countedAt < hit.session.source.readAt

def Hit.SameConfig (hit : Hit) : Prop :=
  hit.reading.account.roleRequest = .ok hit.request ∧
    hit.session.source.account.roleRequest = .ok hit.session.source.request ∧ hit.request = hit.session.source.request

theorem SessionInv.cached (h : SessionInv debug P w key s) (hfew : w.Few) : s.Cached debug w key := by
  refine ⟨h.account, h.request, h.fingerprint, fun f hf hbetween => ?_⟩
  rcases h.forgets hfew f hf with hbefore | ⟨hafter, -⟩ <;> omega

theorem Inv.fresh (h : Inv debug P w) (hfew : w.Few) {c : AwsCredentials} {hit : Hit} (hhit : HitInv debug P w c hit) :
    hit.Fresh w c := by
  refine ⟨hhit.credentials, hhit.valid, hhit.account, fun f hf haccount t ht hfound => ?_⟩
  rcases hhit.forgets hfew f hf haccount with hbefore | hafter
  · exact hbefore
  · have hcounted := h.returned f hf t ht
    omega

/-- Whatever happens in between, a session in the cache is current and a session found is fresh, for fewer than `2 ^ 64`
calls of `forget`. It is found for an equal configuration when no role ARN that is read has a line break. -/
theorem sessions_current (debug : Debug) (hdebug : debug.Proper) (events : List Event) :
    let w := after debug events
    (w.Few → (∀ key (s : Session), w.sessions[key]? = some s → s.Cached debug w key) ∧
      ∀ k c hit, w.calls k = .returned c (some hit) → hit.Fresh w c) ∧
      ((∀ e ∈ events, ∀ account, e.reads = some account → account.Plain) →
        ∀ k c hit, w.calls k = .returned c (some hit) → hit.SameConfig) := by
  have h : Inv debug (fun _ => True) (after debug events) := inv_after fun _ _ _ _ => trivial
  refine ⟨fun hfew => ⟨fun key s hs => (h.session key s hs).cached hfew, fun k c hit hk => h.fresh hfew (h.call_of hk)⟩,
    fun hplain k c hit hk => ?_⟩
  have hread : Inv debug CloudAccount.Plain (after debug events) := inv_after hplain
  have hhit : HitInv debug CloudAccount.Plain (after debug events) c hit := hread.call_of hk
  have hsame := request_eq hdebug hhit.request hhit.source hhit.known.1 hhit.known.2 hhit.account.symm hhit.fingerprint
  exact ⟨hhit.request, hhit.source, hsame⟩

def jsonDebug : Debug where
  text region := region.elim "None" fun r => "Some(" ++ (Json.str r).text ++ ")"

theorem jsonDebug_proper : jsonDebug.Proper where
  injective r s h := by
    have hchars := congrArg String.toList h
    cases r with
    | none => cases s with
      | none => rfl
      | some s => simp [jsonDebug] at hchars
    | some r => cases s with
      | none => simp [jsonDebug] at hchars
      | some s =>
        have htext : (Json.str r).text = (Json.str s).text := String.toList_injective (by simpa [jsonDebug] using hchars)
        exact congrArg some (Json.str.inj (Json.text_injective htext))
  oneLine r := by
    cases r with
    | none => simp [jsonDebug]
    | some r =>
      have htext := chars_no_newline (.str r)
      simpa [jsonDebug, Json.text] using htext

def sandboxAccount (roleArn externalId : String) : CloudAccount where
  id := ⟨"sandbox", by decide⟩
  config := [("role_arn", .str roleArn), ("external_id", .str externalId)]

def reuse (first second : CloudAccount) : List Event :=
  [.lookUp 1 0, .read 1 second 0, .take 1, .keep 0, .pruneIn 0 0,
    .answer 0 (.ok ⟨"ASIA", "secret", some "token", none, some (3600 * Cloud.second)⟩) 0, .lookUp 0 0, .read 0 first 0,
    .take 0]

def Call.requests : Call → Option (AssumeRole × AssumeRole)
  | .returned _ (some hit) => some (hit.request, hit.session.source.request)
  | _ => none

theorem requests_eq_some {q} (h : c.requests = some q) :
    ∃ found hit, c = .returned found (some hit) ∧ hit.request = q.1 ∧ hit.session.source.request = q.2 := by
  unfold Call.requests at h
  split at h
  · rename_i found hit
    cases h
    exact ⟨found, hit, rfl, rfl, rfl⟩
  · cases h

/-- The line break between the two moves from one to the other. -/
theorem sandbox_confused : ¬ ∀ k c hit,
    (after jsonDebug (reuse (sandboxAccount "arn:a" "b\nc") (sandboxAccount "arn:a\nb" "c"))).calls k =
      .returned c (some hit) → hit.SameConfig := by
  intro h
  have hrequests : ((after jsonDebug (reuse (sandboxAccount "arn:a" "b\nc") (sandboxAccount "arn:a\nb" "c"))).calls
      1).requests = some (⟨"arn:a\nb", "c", "openporch-sandbox", defaultSession, none⟩,
        ⟨"arn:a", "b\nc", "openporch-sandbox", defaultSession, none⟩) := by
    decide +kernel
  obtain ⟨c, hit, hk, hasked, hobtained⟩ := requests_eq_some hrequests
  obtain ⟨-, -, hsame⟩ := h 1 c hit hk
  rw [hasked, hobtained] at hsame
  revert hsame
  decide

theorem sandbox_plain : (sandboxAccount "arn:r" "e").Plain := by
  intro arn harn
  have hread : (sandboxAccount "arn:r" "e").configText "role_arn" = some "arn:r" := by decide +kernel
  rw [hread] at harn
  cases harn
  decide

/-- A session of one account is found again. -/
theorem sandbox_reused :
    let w := after jsonDebug (reuse (sandboxAccount "arn:r" "e") (sandboxAccount "arn:r" "e"))
    ∃ c hit, w.calls 1 = .returned c (some hit) ∧ hit.Fresh w c ∧ hit.SameConfig := by
  obtain ⟨hcurrent, hsame⟩ := sessions_current jsonDebug jsonDebug_proper
    (reuse (sandboxAccount "arn:r" "e") (sandboxAccount "arn:r" "e"))
  have hrequests : ((after jsonDebug (reuse (sandboxAccount "arn:r" "e") (sandboxAccount "arn:r" "e"))).calls
      1).requests = some (⟨"arn:r", "e", "openporch-sandbox", defaultSession, none⟩,
        ⟨"arn:r", "e", "openporch-sandbox", defaultSession, none⟩) := by
    decide +kernel
  obtain ⟨c, hit, hk, -, -⟩ := requests_eq_some hrequests
  have hplain : ∀ e ∈ reuse (sandboxAccount "arn:r" "e") (sandboxAccount "arn:r" "e"), ∀ account,
      e.reads = some account → account.Plain := by
    intro e he account hreads
    simp only [reuse, mem_cons, not_mem_nil, or_false] at he
    rcases he with rfl | rfl | rfl | rfl | rfl | rfl | rfl | rfl | rfl <;> cases hreads <;> exact sandbox_plain
  have hfew : (after jsonDebug (reuse (sandboxAccount "arn:r" "e") (sandboxAccount "arn:r" "e"))).Few := by
    unfold World.Few
    decide +kernel
  exact ⟨c, hit, hk, (hcurrent hfew).2 1 c hit hk, hsame hplain 1 c hit hk⟩

end Openporch.Cloud
