import Cortana.Auth.Policy
import Cortana.Core.Runs
import Cortana.Store.Sample
import Cortana.Text.Search

/-!
# Admission of requests

The `authorize` middleware of the HTTP server, and the reloads of its policy.
Beside the running policy stands the configuration that it was built from.
-/

namespace Cortana

/-- What `authorize` reads of a request: its path, and the text of its
`Authorization` header. -/
structure HttpRequest where
  path : String
  authorization : Option String

structure AuthRuntime where
  policy : AuthPolicy
  remoteListener : Bool

/-- The token of an `Authorization` header. -/
def bearerToken (header : String) : Option String :=
  (ByteText.stripPrefix "Bearer ".toList header.toList).map String.ofList

theorem bearerToken_eq_some_iff {header token : String} :
    bearerToken header = some token ↔ header = "Bearer " ++ token := by
  simp only [bearerToken, Option.map_eq_some_iff, ByteText.stripPrefix_eq_some_iff]
  rw [← String.toList_inj, String.toList_append]
  constructor
  · rintro ⟨rest, hheader, rfl⟩
    exact hheader.trans (congrArg _ String.toList_ofList.symm)
  · exact fun h ↦ ⟨token.toList, h, String.ofList_toList⟩

/-- The scope that `authorize` asks for. -/
def requiredScope (path : String) : String :=
  if path ∈ ["/metrics", "/v1/audit", "/v1/auth/reload"] then adminScope
  else if "/v1/sync/".toList.isPrefixOf path.toList then adminScope
  else if path ∈ ["/v1/memory", "/v1/memory/recall", "/v1/memory/forget", "/v1/memory/export",
      "/v1/memory/derived", "/v1/memory/reflect", "/v1/memory/candidates",
      "/v1/memory/consolidation/pause", "/v1/memory/consolidation/resume",
      "/v1/memory/consolidation/status"] then memoryScope
  else if "/v1/memory/candidates/".toList.isPrefixOf path.toList then memoryScope
  else if path ∈ ["/v1/status", "/v1/provider/capabilities", "/readyz"] then statusScope
  else queryScope

/-- What becomes of a request. -/
inductive Admission where
  | unguarded
  | unauthorized
  | forbidden (principal : Principal)
  | handler (principal : Principal)
deriving DecidableEq

namespace AuthRuntime

/-- The paths that are served to anyone. -/
def Public (auth : AuthRuntime) (path : String) : Prop :=
  path = "/healthz" ∨ (path = "/readyz" ∧ auth.remoteListener = false)

instance (auth : AuthRuntime) (path : String) : Decidable (auth.Public path) :=
  inferInstanceAs (Decidable (_ ∨ _))

/-- The principal of a request. -/
def principalOf (codec : Codec) (auth : AuthRuntime) (now : ℤ) (request : HttpRequest) :
    Option Principal :=
  if auth.policy.requiresToken then
    (request.authorization.bind bearerToken).bind fun token ↦
      auth.policy.authenticateAtTime codec token now
  else some (.localOwner "local-http")

/-- `authorize`. -/
def authorize (codec : Codec) (auth : AuthRuntime) (now : ℤ) (request : HttpRequest) : Admission :=
  if auth.Public request.path then .unguarded
  else
    match auth.principalOf codec now request with
    | none => .unauthorized
    | some principal =>
        if principal.hasScope (requiredScope request.path) then .handler principal
        else .forbidden principal

def remoteError : String :=
  "remote listeners must retain at least one configured bearer principal"

/-- `replace_auth_policy`. -/
def replaceAuthPolicy (auth : AuthRuntime) (policy : AuthPolicy) : Except String AuthRuntime := do
  Except.require (auth.remoteListener = false ∨ policy.requiresToken) remoteError
  return { auth with policy := policy }

/-- `set_remote_listener`. -/
def setRemoteListener (auth : AuthRuntime) (remote : Bool) : Except String AuthRuntime := do
  Except.require (remote = false ∨ auth.policy.requiresToken) remoteError
  return { auth with remoteListener := remote }

theorem authorize_eq_handler {codec : Codec} {auth : AuthRuntime} {now : ℤ} {request : HttpRequest}
    {p : Principal} :
    auth.authorize codec now request = .handler p ↔ ¬ auth.Public request.path ∧
      auth.principalOf codec now request = some p ∧
        p.hasScope (requiredScope request.path) = true := by
  rw [authorize]
  split_ifs with hpublic
  · simp [hpublic]
  · cases hprincipal : auth.principalOf codec now request with
    | none => simp
    | some q =>
        dsimp only
        by_cases hscope : q.hasScope (requiredScope request.path) = true
        · rw [if_pos hscope]
          constructor
          · rintro ⟨⟩
            exact ⟨hpublic, rfl, hscope⟩
          · rintro ⟨-, ⟨⟩, -⟩
            rfl
        · rw [if_neg hscope]
          constructor
          · rintro ⟨⟩
          · rintro ⟨-, ⟨⟩, hp⟩
            exact absurd hp hscope

end AuthRuntime

/-! ## The running server -/

/-- A server with the configuration, and the environment, that its policy was
built from. -/
structure Server where
  runtime : AuthRuntime
  config : AuthConfig
  valueFor : String → Option String

/-- Reloads, from a file that may be unreadable, and changes of the listener. -/
inductive AuthEvent where
  | reload (config : AuthConfig) (valueFor : String → Option String)
  | unreadable
  | listen (remote : Bool)

namespace Server

/-- A server is started with a policy from its configuration. -/
def start (codec : Codec) (config : AuthConfig) (valueFor : String → Option String) :
    Except String Server := do
  let policy ← AuthPolicy.fromConfig codec valueFor config
  return ⟨⟨policy, false⟩, config, valueFor⟩

/-- One event; an error is reported to the caller. -/
def perform (codec : Codec) (s : Server) : AuthEvent → Except String Server
  | .reload config valueFor => do
      let policy ← AuthPolicy.fromConfig codec valueFor config
      let runtime ← s.runtime.replaceAuthPolicy policy
      return ⟨runtime, config, valueFor⟩
  | .unreadable => .error "auth policy reload failed validation"
  | .listen remote => do
      let runtime ← s.runtime.setRemoteListener remote
      return { s with runtime := runtime }

/-- The server after an event, whether or not it succeeded. -/
def after (codec : Codec) (s : Server) (event : AuthEvent) : Server :=
  match s.perform codec event with
  | .ok t => t
  | .error _ => s

/-- The configurations that are loaded have a token. -/
def Configured (_ : Server) : AuthEvent → Prop
  | .reload config _ => config.tokens ≠ []
  | _ => True

/-- The runs of a server. -/
abbrev Run (codec : Codec) : Server → Server → Prop :=
  Transition.Run (fun s event t ↦ t = s.after codec event) Configured

/-- The policy in force is the one of its configuration. -/
def InForce (codec : Codec) (s : Server) : Prop :=
  s.runtime.policy.BuiltFrom codec s.valueFor s.config ∧ s.config.tokens ≠ []

variable {codec : Codec} {s t : Server}

theorem inForce_start {config : AuthConfig} {valueFor : String → Option String}
    (hconfig : config.tokens ≠ []) (h : start codec config valueFor = .ok s) :
    s.InForce codec := by
  obtain ⟨policy, hpolicy, h⟩ := Iff.mp Except.bind_ok_iff h
  obtain rfl := Iff.mp Except.pure_ok_iff h
  exact ⟨AuthPolicy.builtFrom_of_fromConfig hpolicy, hconfig⟩

theorem InForce.after (h : s.InForce codec) {event : AuthEvent} (hevent : s.Configured event) :
    (s.after codec event).InForce codec := by
  rw [Server.after]
  cases hperform : s.perform codec event with
  | error e => exact h
  | ok t =>
      dsimp only
      cases event with
      | reload config valueFor =>
          obtain ⟨policy, hpolicy, hperform⟩ := Iff.mp Except.bind_ok_iff hperform
          obtain ⟨runtime, hruntime, hperform⟩ := Iff.mp Except.bind_ok_iff hperform
          obtain rfl := Iff.mp Except.pure_ok_iff hperform
          obtain ⟨_, -, hruntime⟩ := Iff.mp Except.bind_ok_iff hruntime
          obtain rfl := Iff.mp Except.pure_ok_iff hruntime
          exact ⟨AuthPolicy.builtFrom_of_fromConfig hpolicy, hevent⟩
      | unreadable => cases hperform
      | listen remote =>
          obtain ⟨runtime, hruntime, hperform⟩ := Iff.mp Except.bind_ok_iff hperform
          obtain rfl := Iff.mp Except.pure_ok_iff hperform
          obtain ⟨_, -, hruntime⟩ := Iff.mp Except.bind_ok_iff hruntime
          obtain rfl := Iff.mp Except.pure_ok_iff hruntime
          exact h

theorem InForce.run (h : s.InForce codec) (hrun : Run codec s t) : t.InForce codec :=
  hrun.preserves (fun _ _ _ hs hevent ht ↦ ht ▸ hs.after hevent) h

/-! ## Who is admitted -/

/-- The request carries the value of a configured token, whose principal is not
disabled, has not expired and has the scope of the path, and is `p`. -/
def Genuine (codec : Codec) (s : Server) (now : ℤ) (request : HttpRequest) (p : Principal) :
    Prop :=
  ∃ token ∈ s.config.tokens, ∃ value, s.valueFor token.tokenEnv = some value ∧
    request.authorization = some ("Bearer " ++ value) ∧
    token.principal ∉ s.config.disabledPrincipals ∧
    (∃ stop, s.config.expiresAt codec token.principal = .ok stop ∧ ∀ instant ∈ stop, now < instant) ∧
    requiredScope request.path ∈ token.scopes ∧ p = token.asPrincipal

/-- Some token is configured for a principal that is not disabled. -/
def Enabled (config : AuthConfig) : Prop :=
  ∃ token ∈ config.tokens, token.principal ∉ config.disabledPrincipals

theorem principalOf_eq_some (h : s.InForce codec) (henabled : Enabled s.config) {now : ℤ}
    {request : HttpRequest} {p : Principal} :
    s.runtime.principalOf codec now request = some p ↔
      ∃ value, request.authorization = some ("Bearer " ++ value) ∧
        ∃ c ∈ s.runtime.policy.credentials, codec.sha256 value.toList = c.digest ∧
          (∀ stop ∈ c.expiresAt, now < stop) ∧ c.principal = p := by
  rw [AuthRuntime.principalOf, if_pos (h.1.requiresToken_iff.mpr henabled)]
  simp only [Option.bind_eq_some_iff, bearerToken_eq_some_iff, h.1.authenticate_iff]
  constructor
  · rintro ⟨value, ⟨text, htext, rfl⟩, hc⟩
    exact ⟨value, htext, hc⟩
  · rintro ⟨value, htext, hc⟩
    exact ⟨value, ⟨_, htext, rfl⟩, hc⟩

theorem genuine_of_handler (hsha : Function.Injective codec.sha256) (h : s.InForce codec)
    (henabled : Enabled s.config) {now : ℤ} {request : HttpRequest} {p : Principal}
    (hhandler : s.runtime.authorize codec now request = .handler p) :
    Genuine codec s now request p := by
  obtain ⟨-, hprincipal, hscope⟩ := Iff.mp AuthRuntime.authorize_eq_handler hhandler
  obtain ⟨value, htext, c, hc, hdigest, hlive, rfl⟩ :=
    (principalOf_eq_some h henabled).mp hprincipal
  obtain ⟨token, htoken, hissued⟩ := h.1.issued c hc
  obtain ⟨value', hvalue, hdigest'⟩ := hissued.value
  obtain rfl : value = value' := String.toList_injective (hsha (hdigest.trans hdigest'))
  refine ⟨token, htoken, value, hvalue, htext, hissued.enabled, ⟨_, hissued.expiry, hlive⟩, ?_,
    hissued.principal⟩
  rw [hissued.principal, Principal.hasScope, decide_eq_true_eq] at hscope
  exact List.mem_toFinset.mp hscope

/-- Without an enabled token anyone is taken for the local owner. -/
theorem handler_of_not_enabled (h : s.InForce codec) (henabled : ¬ Enabled s.config) (now : ℤ) :
    s.runtime.authorize codec now ⟨"/v1/search", none⟩ =
      .handler (.localOwner "local-http") := by
  refine Iff.mpr AuthRuntime.authorize_eq_handler ⟨?_, ?_, by decide⟩
  · rintro (hpath | ⟨hpath, -⟩)
    · exact absurd hpath (by decide)
    · exact absurd hpath (by decide)
  · rw [AuthRuntime.principalOf, if_neg fun hrequires ↦ henabled (h.1.requiresToken_iff.mp hrequires)]

/-- The same tokens, with more principals disabled or an expiry made earlier. -/
structure Tightens (codec : Codec) (config config' : AuthConfig) : Prop where
  tokens : config'.tokens = config.tokens
  disabled : ∀ name ∈ config.disabledPrincipals, name ∈ config'.disabledPrincipals
  expiry : ∀ name stop stop', config.expiresAt codec name = .ok stop →
    config'.expiresAt codec name = .ok stop' → ∀ instant ∈ stop, ∃ instant' ∈ stop', instant' ≤ instant

/-- A tightened configuration admits no request that was not admitted. -/
theorem handler_of_tightened (h : s.InForce codec) {config : AuthConfig} {policy : AuthPolicy}
    (htightens : Tightens codec s.config config)
    (hpolicy : AuthPolicy.fromConfig codec s.valueFor config = .ok policy)
    (henabled : Enabled config) {now : ℤ} {request : HttpRequest} {p : Principal}
    (hhandler : AuthRuntime.authorize codec ⟨policy, s.runtime.remoteListener⟩ now request =
      .handler p) :
    s.runtime.authorize codec now request = .handler p := by
  obtain ⟨hpublic, hprincipal, hscope⟩ := Iff.mp AuthRuntime.authorize_eq_handler hhandler
  refine Iff.mpr AuthRuntime.authorize_eq_handler ⟨hpublic, ?_, hscope⟩
  have hbuilt := AuthPolicy.builtFrom_of_fromConfig hpolicy
  have hinForce : InForce codec ⟨⟨policy, s.runtime.remoteListener⟩, config, s.valueFor⟩ :=
    ⟨hbuilt, by rw [htightens.tokens]; exact h.2⟩
  obtain ⟨value, htext, c, hc, hdigest, hlive, rfl⟩ :=
    (principalOf_eq_some hinForce henabled).mp hprincipal
  obtain ⟨token, htoken, hissued⟩ := hbuilt.issued c hc
  rw [htightens.tokens] at htoken
  have hbefore : token.principal ∉ s.config.disabledPrincipals :=
    fun hdisabled ↦ hissued.enabled (htightens.disabled _ hdisabled)
  obtain ⟨c', hc', hissued'⟩ := h.1.covered token htoken hbefore
  obtain ⟨value', hvalue, hdigest'⟩ := hissued.value
  obtain ⟨value'', hvalue', hdigest''⟩ := hissued'.value
  obtain rfl := Option.some.inj (hvalue.symm.trans hvalue')
  refine (principalOf_eq_some h ⟨token, htoken, hbefore⟩).mpr
    ⟨value, htext, c', hc', hdigest.trans (hdigest'.trans hdigest''.symm), ?_, ?_⟩
  · intro stop hstop
    obtain ⟨stop', hstop', hle⟩ :=
      htightens.expiry _ _ _ hissued'.expiry hissued.expiry stop hstop
    exact (hlive stop' hstop').trans_le hle
  · rw [hissued.principal, hissued'.principal]

/-- In every run, the requests that reach a handler are those of enabled
principals exactly when the configuration in force enables one; failed events
change nothing, and no tightened configuration that still enables a principal
admits a request that was rejected. -/
theorem admission_genuine {config : AuthConfig} {valueFor : String → Option String}
    (hsha : Function.Injective codec.sha256) (hconfig : config.tokens ≠ [])
    (hstart : start codec config valueFor = .ok s) (hrun : Run codec s t) :
    ((∀ now request p, t.runtime.authorize codec now request = .handler p →
        Genuine codec t now request p) ↔ Enabled t.config) ∧
      (∀ event e, t.perform codec event = .error e → t.after codec event = t) ∧
      (∀ config' policy, Tightens codec t.config config' →
        AuthPolicy.fromConfig codec t.valueFor config' = .ok policy → Enabled config' →
        ∀ now request p,
          AuthRuntime.authorize codec ⟨policy, t.runtime.remoteListener⟩ now request =
            .handler p → t.runtime.authorize codec now request = .handler p) := by
  have hinForce := (inForce_start hconfig hstart).run hrun
  refine ⟨⟨fun hgenuine ↦ ?_, fun henabled now request p ↦ ?_⟩, ?_, ?_⟩
  · by_contra henabled
    obtain ⟨_, -, value, -, htext, -⟩ :=
      hgenuine 0 _ _ (handler_of_not_enabled hinForce henabled 0)
    cases htext
  · exact genuine_of_handler hsha hinForce henabled
  · intro event e herror
    rw [Server.after, herror]
  · intro config' policy htightens hpolicy henabled now request p
    exact handler_of_tightened hinForce htightens hpolicy henabled

/-! ## One configured agent -/

/-- An agent that may query, disabled or not. -/
def workAgent (disabledPrincipals : List String) : AuthConfig where
  tokens := [⟨"work-agent", "WORK_TOKEN", [queryScope], ["work"]⟩]
  disabledPrincipals := disabledPrincipals
  principalExpiry := []

def workSecret (name : String) : Option String :=
  if name = "WORK_TOKEN" then some "work-secret" else none

/-- Both configurations of the agent are accepted. -/
theorem start_workAgent {disabledPrincipals : List String}
    (h : (start .sample (workAgent disabledPrincipals) workSecret).toOption.isSome = true) :
    ∃ s, start .sample (workAgent disabledPrincipals) workSecret = .ok s ∧
      s.config = workAgent disabledPrincipals := by
  cases hstart : start .sample (workAgent disabledPrincipals) workSecret with
  | error e => simp [hstart, Except.toOption] at h
  | ok s =>
      refine ⟨s, rfl, ?_⟩
      obtain ⟨policy, -, hs⟩ := Iff.mp Except.bind_ok_iff hstart
      obtain rfl := Iff.mp Except.pure_ok_iff hs
      rfl

theorem admission_genuine_workAgent :
    ∃ s, start .sample (workAgent []) workSecret = .ok s ∧
      ∀ now request p, s.runtime.authorize .sample now request = .handler p →
        Genuine .sample s now request p := by
  obtain ⟨s, hstart, hconfig⟩ := start_workAgent (by decide +kernel : (start .sample (workAgent []) workSecret).toOption.isSome = true)
  have henabled : Enabled s.config := by
    rw [hconfig]
    exact ⟨_, List.mem_singleton_self _, List.not_mem_nil⟩
  exact ⟨s, hstart, (admission_genuine Codec.sample_sha256_injective (List.cons_ne_nil _ _) hstart
    (Transition.Run.refl s)).1.mpr henabled⟩

/-- When the only principal is disabled every request is the local owner's. -/
theorem disabled_admits :
    ¬ ∀ (codec : Codec) (config : AuthConfig) (valueFor : String → Option String) (s t : Server),
      Function.Injective codec.sha256 → config.tokens ≠ [] →
      start codec config valueFor = .ok s → Run codec s t →
      ∀ now request p, t.runtime.authorize codec now request = .handler p →
        Genuine codec t now request p := by
  intro h
  obtain ⟨s, hstart, hconfig⟩ := start_workAgent
    (by decide +kernel :
      (start .sample (workAgent ["work-agent"]) workSecret).toOption.isSome = true)
  have hnone : ¬ Enabled s.config := by
    rw [hconfig]
    rintro ⟨token, htoken, henabled⟩
    obtain rfl := List.mem_singleton.mp htoken
    exact henabled (List.mem_singleton_self _)
  have hhandler := handler_of_not_enabled (inForce_start (List.cons_ne_nil _ _) hstart) hnone 0
  obtain ⟨_, -, value, -, htext, -⟩ := h .sample _ workSecret s s Codec.sample_sha256_injective
    (List.cons_ne_nil _ _) hstart (Transition.Run.refl s) 0 _ _ hhandler
  cases htext

end Server

end Cortana
