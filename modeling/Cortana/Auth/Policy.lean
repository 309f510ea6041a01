import Cortana.Core.Loops
import Cortana.Store.Rows
import Cortana.Text.Search
import Mathlib.Data.Finset.Insert
import Mathlib.Data.Finset.Dedup

/-!
# The bearer policy

`auth.rs`: how a policy is built from the `[auth]` section of a configuration,
and how a presented token is recognised.
-/

namespace Cortana

def queryScope : String := "query"
def statusScope : String := "status"
def adminScope : String := "admin"
def memoryScope : String := "memory"

structure Principal where
  name : String
  scopes : Finset String
  acl : Finset String
deriving DecidableEq

namespace Principal

/-- `Principal::local`. -/
def localOwner (name : String) : Principal :=
  ⟨name, {queryScope, statusScope, adminScope, memoryScope}, {"*"}⟩

def hasScope (p : Principal) (scope : String) : Bool := scope ∈ p.scopes

end Principal

/-- `AuthTokenConfig`. -/
structure AuthTokenConfig where
  principal : String
  tokenEnv : String
  scopes : List String
  acl : List String

/-- `AuthConfig`, without the bound on audit events. -/
structure AuthConfig where
  tokens : List AuthTokenConfig
  disabledPrincipals : List String
  principalExpiry : List (String × String)

/-- A token as the policy keeps it; the digest stands for the token. -/
structure Credential where
  digest : String
  principal : Principal
  expiresAt : Option ℤ

structure AuthPolicy where
  credentials : List Credential

/-- The principal a token is configured for. -/
def AuthTokenConfig.asPrincipal (token : AuthTokenConfig) : Principal :=
  ⟨token.principal, token.scopes.toFinset, token.acl.toFinset⟩

/-- The instant a principal expires at, if it has one. -/
def AuthConfig.expiresAt (codec : Codec) (config : AuthConfig) (principal : String) :
    Except String (Option ℤ) :=
  (config.principalExpiry.lookup principal).mapM fun text ↦
    match codec.instant text with
    | some instant => .ok instant
    | none => .error ("auth principal " ++ principal ++ " expiry must be RFC3339")

/-- One token of the loop of `from_config_with_value`. -/
def addToken (codec : Codec) (valueFor : String → Option String) (config : AuthConfig)
    (state : List Credential × Finset String) (token : AuthTokenConfig) :
    Except String (List Credential × Finset String) := do
  Except.require (ByteText.trim token.principal.toList ≠ [])
    "auth token principal must not be empty"
  Except.require (token.principal ∉ state.2) ("duplicate auth principal " ++ token.principal)
  let principals := insert token.principal state.2
  Except.require (token.asPrincipal.scopes ≠ ∅ ∧
    token.asPrincipal.scopes ⊆ {queryScope, statusScope, adminScope, memoryScope})
    ("auth principal " ++ token.principal ++ " has an invalid scope")
  Except.require ("*" ∉ token.asPrincipal.acl)
    ("auth principal " ++ token.principal ++ " cannot use reserved acl \"*\"")
  if token.principal ∈ config.disabledPrincipals then
    -- A disabled principal needs no value in the environment.
    return (state.1, principals)
  else
    let expiresAt ← config.expiresAt codec token.principal
    match valueFor token.tokenEnv with
    | none => .error ("auth token environment variable " ++ token.tokenEnv ++ " is not set")
    | some value => do
        Except.require (value ≠ "") "auth bearer token must not be empty"
        return (state.1 ++ [⟨codec.sha256 value.toList, token.asPrincipal, expiresAt⟩], principals)

namespace AuthPolicy

/-- `from_config_with_value`; the environment is the function `valueFor`. -/
def fromConfig (codec : Codec) (valueFor : String → Option String) (config : AuthConfig) :
    Except String AuthPolicy := do
  Except.require (config.disabledPrincipals.toFinset.card = config.disabledPrincipals.length)
    "disabled auth principals must be unique"
  let (credentials, principals) ← config.tokens.foldlM (addToken codec valueFor config) ([], ∅)
  Except.require (config.disabledPrincipals.toFinset ⊆ principals)
    "disabled auth principal does not match a configured token"
  Except.require ((config.principalExpiry.map Prod.fst).toFinset ⊆ principals)
    "auth principal expiry does not match a configured token"
  Except.require (credentials.map Credential.digest).Nodup
    "auth bearer token values must be unique"
  return ⟨credentials⟩

/-- `requires_token`. -/
def requiresToken (policy : AuthPolicy) : Bool := policy.credentials ≠ []

/-- `authenticate_at_time`. -/
def authenticateAtTime (codec : Codec) (policy : AuthPolicy) (token : String) (now : ℤ) :
    Option Principal :=
  (policy.credentials.find? fun c ↦
    codec.sha256 token.toList = c.digest ∧ c.expiresAt.all (now < ·)).map Credential.principal

end AuthPolicy

/-! ## What a policy holds -/

/-- The credential is the one of a token: its principal is not disabled, its
value is set and its expiry can be read. -/
structure Issued (codec : Codec) (valueFor : String → Option String) (config : AuthConfig)
    (token : AuthTokenConfig) (c : Credential) : Prop where
  enabled : token.principal ∉ config.disabledPrincipals
  value : ∃ value, valueFor token.tokenEnv = some value ∧ c.digest = codec.sha256 value.toList
  principal : c.principal = token.asPrincipal
  expiry : config.expiresAt codec token.principal = .ok c.expiresAt

variable {codec : Codec} {valueFor : String → Option String} {config : AuthConfig}

theorem addToken_eq_ok {token : AuthTokenConfig} {cs cs' : List Credential}
    {principals principals' : Finset String}
    (h : addToken codec valueFor config (cs, principals) token = .ok (cs', principals')) :
    (token.principal ∈ config.disabledPrincipals ∧ cs' = cs) ∨
      ∃ c, Issued codec valueFor config token c ∧ cs' = cs ++ [c] := by
  rw [addToken] at h
  obtain ⟨_, -, h⟩ := Iff.mp Except.bind_ok_iff h
  obtain ⟨_, -, h⟩ := Iff.mp Except.bind_ok_iff h
  obtain ⟨_, -, h⟩ := Iff.mp Except.bind_ok_iff h
  obtain ⟨_, -, h⟩ := Iff.mp Except.bind_ok_iff h
  split at h
  · rename_i hdisabled
    obtain ⟨rfl, -⟩ := Prod.mk.inj (Iff.mp Except.pure_ok_iff h)
    exact Or.inl ⟨hdisabled, rfl⟩
  · rename_i henabled
    obtain ⟨expiresAt, hexpiry, h⟩ := Iff.mp Except.bind_ok_iff h
    cases hvalue : valueFor token.tokenEnv with
    | none =>
        simp only [hvalue] at h
        cases h
    | some value =>
        simp only [hvalue] at h
        obtain ⟨_, -, h⟩ := Iff.mp Except.bind_ok_iff h
        obtain ⟨rfl, -⟩ := Prod.mk.inj (Iff.mp Except.pure_ok_iff h)
        exact Or.inr ⟨_, ⟨henabled, ⟨value, hvalue, rfl⟩, rfl, hexpiry⟩, rfl⟩

/-- The loop keeps the credentials it has, and issues one for every token that
is not disabled. -/
theorem foldlM_addToken {tokens : List AuthTokenConfig} {cs cs' : List Credential}
    {principals principals' : Finset String}
    (h : tokens.foldlM (addToken codec valueFor config) (cs, principals) =
      .ok (cs', principals')) :
    ∃ issued, cs' = cs ++ issued ∧
      (∀ c ∈ issued, ∃ token ∈ tokens, Issued codec valueFor config token c) ∧
      ∀ token ∈ tokens, token.principal ∉ config.disabledPrincipals →
        ∃ c ∈ issued, Issued codec valueFor config token c := by
  induction tokens generalizing cs principals with
  | nil =>
      obtain ⟨rfl, -⟩ := Prod.mk.inj (Iff.mp List.foldlM_nil_ok_iff h)
      exact ⟨[], by simp, by simp, by simp⟩
  | cons token rest ih =>
      obtain ⟨⟨cs'', principals''⟩, hadd, hrest⟩ := Iff.mp List.foldlM_cons_ok_iff h
      obtain ⟨issued, rfl, hissued, hcovered⟩ := ih hrest
      rcases addToken_eq_ok hadd with ⟨hdisabled, rfl⟩ | ⟨c, hc, rfl⟩
      · refine ⟨issued, rfl, ?_, ?_⟩
        · intro c hc
          obtain ⟨token', htoken', h'⟩ := hissued c hc
          exact ⟨token', List.mem_cons_of_mem _ htoken', h'⟩
        · intro token' htoken' henabled
          rcases List.mem_cons.mp htoken' with rfl | htoken'
          · exact absurd hdisabled henabled
          · exact hcovered token' htoken' henabled
      · refine ⟨c :: issued, by simp, ?_, ?_⟩
        · intro c' hc'
          rcases List.mem_cons.mp hc' with rfl | hc'
          · exact ⟨token, List.mem_cons_self, hc⟩
          · obtain ⟨token', htoken', h'⟩ := hissued c' hc'
            exact ⟨token', List.mem_cons_of_mem _ htoken', h'⟩
        · intro token' htoken' henabled
          rcases List.mem_cons.mp htoken' with rfl | htoken'
          · exact ⟨c, List.mem_cons_self, hc⟩
          · obtain ⟨c', hc', h'⟩ := hcovered token' htoken' henabled
            exact ⟨c', List.mem_cons_of_mem _ hc', h'⟩

/-- A policy built from a configuration: its credentials are those of the
enabled tokens, each under another digest. -/
structure AuthPolicy.BuiltFrom (codec : Codec) (valueFor : String → Option String)
    (config : AuthConfig) (policy : AuthPolicy) : Prop where
  issued : ∀ c ∈ policy.credentials, ∃ token ∈ config.tokens,
    Issued codec valueFor config token c
  covered : ∀ token ∈ config.tokens, token.principal ∉ config.disabledPrincipals →
    ∃ c ∈ policy.credentials, Issued codec valueFor config token c
  distinct : (policy.credentials.map Credential.digest).Nodup

theorem AuthPolicy.builtFrom_of_fromConfig {policy : AuthPolicy}
    (h : fromConfig codec valueFor config = .ok policy) :
    BuiltFrom codec valueFor config policy := by
  rw [fromConfig] at h
  obtain ⟨_, -, h⟩ := Iff.mp Except.bind_ok_iff h
  obtain ⟨⟨credentials, principals⟩, hloop, h⟩ := Iff.mp Except.bind_ok_iff h
  obtain ⟨_, -, h⟩ := Iff.mp Except.bind_ok_iff h
  obtain ⟨_, -, h⟩ := Iff.mp Except.bind_ok_iff h
  obtain ⟨_, hdistinct, h⟩ := Iff.mp Except.bind_ok_iff h
  obtain rfl := Iff.mp Except.pure_ok_iff h
  obtain ⟨issued, rfl, hissued, hcovered⟩ := foldlM_addToken hloop
  exact ⟨hissued, hcovered, Iff.mp Except.require_ok_iff hdistinct⟩

namespace AuthPolicy.BuiltFrom

variable {policy : AuthPolicy}

/-- A token is required exactly when one is configured that is not disabled. -/
theorem requiresToken_iff (h : BuiltFrom codec valueFor config policy) :
    policy.requiresToken = true ↔
      ∃ token ∈ config.tokens, token.principal ∉ config.disabledPrincipals := by
  rw [requiresToken, decide_eq_true_eq]
  constructor
  · intro hsome
    obtain ⟨c, hc⟩ := List.exists_mem_of_ne_nil _ hsome
    obtain ⟨token, htoken, hissued⟩ := h.issued c hc
    exact ⟨token, htoken, hissued.enabled⟩
  · rintro ⟨token, htoken, henabled⟩
    obtain ⟨c, hc, -⟩ := h.covered token htoken henabled
    exact List.ne_nil_of_mem hc

/-- A digest belongs to at most one credential. -/
theorem eq_of_digest (h : BuiltFrom codec valueFor config policy) {c c' : Credential}
    (hc : c ∈ policy.credentials) (hc' : c' ∈ policy.credentials) (heq : c.digest = c'.digest) :
    c = c' :=
  List.inj_on_of_nodup_map h.distinct hc hc' heq

/-- A token is recognised by the one credential with its digest. -/
theorem authenticate_iff (h : BuiltFrom codec valueFor config policy) {token : String} {now : ℤ}
    {p : Principal} :
    policy.authenticateAtTime codec token now = some p ↔
      ∃ c ∈ policy.credentials, codec.sha256 token.toList = c.digest ∧
        (∀ stop ∈ c.expiresAt, now < stop) ∧ c.principal = p := by
  rw [authenticateAtTime, Option.map_eq_some_iff]
  constructor
  · rintro ⟨c, hfind, rfl⟩
    have hmatch := List.find?_some hfind
    simp only [decide_eq_true_eq, Option.all_eq_true] at hmatch
    exact ⟨c, List.mem_of_find?_eq_some hfind, hmatch.1, hmatch.2, rfl⟩
  · rintro ⟨c, hc, hdigest, hlive, rfl⟩
    refine ⟨c, ?_, rfl⟩
    obtain ⟨c', hfind⟩ : ∃ c', policy.credentials.find? (fun c ↦
        codec.sha256 token.toList = c.digest ∧ c.expiresAt.all (now < ·)) = some c' := by
      refine Option.isSome_iff_exists.mp (List.find?_isSome.mpr ⟨c, hc, ?_⟩)
      simpa [Option.all_eq_true, hdigest] using hlive
    have hmatch' := List.find?_some hfind
    simp only [decide_eq_true_eq] at hmatch'
    rw [hfind, h.eq_of_digest (List.mem_of_find?_eq_some hfind) hc
      (hmatch'.1.symm.trans hdigest)]

end AuthPolicy.BuiltFrom

end Cortana
