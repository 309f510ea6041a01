import Cortana.Answer.Context
import Cortana.Consolidation.Classification
import Cortana.Core.Trimming
import Cortana.Text.JsonText

/-!
# Reflections within a token budget

`reflect_with_provider` and the trimming of what it returns.  The estimate of the
tokens of a response is written into the response after it was measured, and a
response whose deadline has passed is changed once more after its trimming.
-/

namespace Cortana

open ByteText JsonText

namespace Reflection

/-! ## Requests and outputs -/

inductive ProviderPolicy where
  | deterministicOnly
  | preferProvider
  | requireProvider
  deriving DecidableEq, Repr

def ProviderPolicy.text : ProviderPolicy → List Char
  | .deterministicOnly => "deterministic-only".toList
  | .preferProvider => "prefer-provider".toList
  | .requireProvider => "require-provider".toList

def minReflectionTokenBudget : ℕ := 256
def maxReflectionTokenBudget : ℕ := 8192
def maxReflectionObjectiveBytes : ℕ := 512
def maxReflectionProjectBytes : ℕ := 256
def maxReflectionClaims : ℕ := 32
def maxReflectionPatterns : ℕ := 16
def maxReflectionTensions : ℕ := 16
def maxReflectionRecommendations : ℕ := 16
def maxReflectionCandidates : ℕ := 8

/-- `validate_text`. -/
def ValidText (value : List Char) (maxBytes : ℕ) : Prop :=
  trim value ≠ [] ∧ byteLen value ≤ maxBytes ∧ ∀ c ∈ value, isControl c = false

/-- What a response depends on of a `ReflectRequest` that `validate_request` has
accepted. -/
structure ReflectRequest where
  objective : List Char
  project : Option (List Char)
  tokenBudget : ℕ
  providerPolicy : ProviderPolicy
  validObjective : ValidText objective maxReflectionObjectiveBytes
  validProject : ∀ text ∈ project, ValidText text maxReflectionProjectBytes
  validBudget : minReflectionTokenBudget ≤ tokenBudget ∧ tokenBudget ≤ maxReflectionTokenBudget

inductive ReflectStatus where
  | completed
  | fallback
  | providerUnavailable
  | providerFailed
  | deadlineExceeded
  deriving DecidableEq, Repr

def ReflectStatus.text : ReflectStatus → List Char
  | .completed => "completed".toList
  | .fallback => "fallback".toList
  | .providerUnavailable => "provider_unavailable".toList
  | .providerFailed => "provider_failed".toList
  | .deadlineExceeded => "deadline_exceeded".toList

structure ProviderOutcome where
  policy : ProviderPolicy
  selected : List Char
  status : List Char
  detail : Option (List Char)

structure ReflectClaim where
  text : List Char
  supportingMemoryIds : List (List Char)
  supportingEvidenceIds : List (List Char)

/-- `ReflectPattern`, `ReflectTension` and `ReflectRecommendation`. -/
structure ReflectStatement where
  statement : List Char
  supportingMemoryIds : List (List Char)

structure ReflectChronology where
  observedAt : List Char
  title : List Char
  memoryId : List Char

structure ProposedReflectCandidate where
  project : List Char
  title : List Char
  content : List Char
  contentType : List Char
  retentionTier : List Char
  scope : List Char
  supportingMemoryIds : List (List Char)
  approvalRequired : Bool

structure ProviderReflection where
  claims : List ReflectClaim
  patterns : List ReflectStatement
  tensions : List ReflectStatement
  chronology : List ReflectChronology
  recommendations : List ReflectStatement
  proposedCandidates : List ProposedReflectCandidate

structure ReflectMetrics where
  memoriesConsidered : ℕ
  memoriesIncluded : ℕ
  evidenceConsidered : ℕ
  evidenceIncluded : ℕ
  estimatedTokens : ℕ
  memoryRevision : ℕ
  canonicalMemoryMutated : Bool

/-- `ReflectResponse`, for the types of derived representations and of relations. -/
structure ReflectResponse (δ ρ : Type*) where
  contractVersion : List Char
  requestDigest : List Char
  status : ReflectStatus
  objective : List Char
  project : Option (List Char)
  privacyScopeDigest : List Char
  memoryRevision : ℕ
  provider : ProviderOutcome
  claims : List ReflectClaim
  patterns : List ReflectStatement
  tensions : List ReflectStatement
  chronology : List ReflectChronology
  recommendations : List ReflectStatement
  proposedCandidates : List ProposedReflectCandidate
  derivedRepresentations : List δ
  memoryRelations : List ρ
  evidenceIds : List (List Char)
  metrics : ReflectMetrics

/-! ## The text of a response -/

/-- An optional field, left out when it is empty. -/
def optionalField (name : String) (text : Option (List Char)) : List (String × List Char) :=
  text.toList.map fun t ↦ (name, string t)

def ProviderOutcome.json (provider : ProviderOutcome) : List Char :=
  object ([("policy", string provider.policy.text), ("selected", string provider.selected),
    ("status", string provider.status)] ++ optionalField "detail" provider.detail)

def ReflectClaim.json (claim : ReflectClaim) : List Char :=
  object [("text", string claim.text), ("supporting_memory_ids", strings claim.supportingMemoryIds),
    ("supporting_evidence_ids", strings claim.supportingEvidenceIds)]

def ReflectStatement.json (statement : ReflectStatement) : List Char :=
  object [("statement", string statement.statement),
    ("supporting_memory_ids", strings statement.supportingMemoryIds)]

def ReflectChronology.json (entry : ReflectChronology) : List Char :=
  object [("observed_at", string entry.observedAt), ("title", string entry.title),
    ("memory_id", string entry.memoryId)]

def ProposedReflectCandidate.json (candidate : ProposedReflectCandidate) : List Char :=
  object [("project", string candidate.project), ("title", string candidate.title),
    ("content", string candidate.content), ("content_type", string candidate.contentType),
    ("retention_tier", string candidate.retentionTier), ("scope", string candidate.scope),
    ("supporting_memory_ids", strings candidate.supportingMemoryIds),
    ("approval_required", bool candidate.approvalRequired)]

/-- The metrics, with so much written for the estimate. -/
def ReflectMetrics.jsonWith (metrics : ReflectMetrics) (estimated : List Char) : List Char :=
  object [("memories_considered", number metrics.memoriesConsidered),
    ("memories_included", number metrics.memoriesIncluded),
    ("evidence_considered", number metrics.evidenceConsidered),
    ("evidence_included", number metrics.evidenceIncluded), ("estimated_tokens", estimated),
    ("memory_revision", number metrics.memoryRevision),
    ("canonical_memory_mutated", bool metrics.canonicalMemoryMutated)]

/-- The serialization of the two types that are kept general. -/
structure Writer (δ ρ : Type*) where
  derivedRepresentation : δ → List Char
  memoryRelation : ρ → List Char

section Texts

variable {δ ρ : Type*} (w : Writer δ ρ)

/-- The fields of a response, with so much written for the estimate. -/
def ReflectResponse.entries (r : ReflectResponse δ ρ) (estimated : List Char) :
    List (String × List Char) :=
  [("contract_version", string r.contractVersion), ("request_digest", string r.requestDigest),
      ("status", string r.status.text), ("objective", string r.objective)] ++
    optionalField "project" r.project ++
    [("privacy_scope_digest", string r.privacyScopeDigest),
      ("memory_revision", number r.memoryRevision), ("provider", r.provider.json),
      ("claims", array (r.claims.map ReflectClaim.json)),
      ("patterns", array (r.patterns.map ReflectStatement.json)),
      ("tensions", array (r.tensions.map ReflectStatement.json)),
      ("chronology", array (r.chronology.map ReflectChronology.json)),
      ("recommendations", array (r.recommendations.map ReflectStatement.json)),
      ("proposed_candidates", array (r.proposedCandidates.map ProposedReflectCandidate.json)),
      ("derived_representations", array (r.derivedRepresentations.map w.derivedRepresentation)),
      ("memory_relations", array (r.memoryRelations.map w.memoryRelation)),
      ("evidence_ids", strings r.evidenceIds), ("metrics", r.metrics.jsonWith estimated)]

/-- `serde_json::to_string` of a response. -/
def ReflectResponse.json (r : ReflectResponse δ ρ) : List Char :=
  object (r.entries w (number r.metrics.estimatedTokens))

/-- The bytes of a response without the digits of its estimate. -/
def ReflectResponse.baseSize (r : ReflectResponse δ ρ) : ℕ := byteLen (object (r.entries w []))

/-- The estimate is written into a response. -/
def ReflectResponse.withEstimate (r : ReflectResponse δ ρ) (tokens : ℕ) : ReflectResponse δ ρ :=
  { r with metrics := { r.metrics with estimatedTokens := tokens } }

/-- The digits of a number. -/
def digitCount (n : ℕ) : ℕ := byteLen (number n)

theorem byteLen_jsonWith (metrics : ReflectMetrics) (estimated : List Char) :
    byteLen (metrics.jsonWith estimated) = byteLen (metrics.jsonWith []) + byteLen estimated := by
  simp only [ReflectMetrics.jsonWith, byteLen_object, List.map_cons, List.map_nil, List.sum_cons,
    List.sum_nil, byteLen_nil]
  omega

theorem byteLen_entries (r : ReflectResponse δ ρ) (estimated : List Char) :
    byteLen (object (r.entries w estimated)) = r.baseSize w + byteLen estimated := by
  simp only [ReflectResponse.baseSize, ReflectResponse.entries, byteLen_object, List.map_append,
    List.map_cons, List.map_nil, List.sum_append, List.sum_cons, List.sum_nil,
    byteLen_jsonWith r.metrics estimated]
  omega

theorem byteLen_json (r : ReflectResponse δ ρ) :
    byteLen (r.json w) = r.baseSize w + digitCount r.metrics.estimatedTokens :=
  byteLen_entries w r _

@[simp] theorem estimatedTokens_withEstimate (r : ReflectResponse δ ρ) (tokens : ℕ) :
    (r.withEstimate tokens).metrics.estimatedTokens = tokens := rfl

@[simp] theorem baseSize_withEstimate (r : ReflectResponse δ ρ) (tokens : ℕ) :
    (r.withEstimate tokens).baseSize w = r.baseSize w := rfl

end Texts

/-! ## Trimming -/

/-- `safe_excerpt`. -/
def safeExcerpt (value : List Char) (maxBytes : ℕ) : List Char :=
  let sanitized := value.filter fun c ↦ !isControl c
  if byteLen sanitized ≤ maxBytes then sanitized else takeBytes maxBytes sanitized

/-- `estimate_tokens`, by the bytes of the text. -/
def estimateBytes (bytes : ℕ) : ℕ := max ((bytes + Answer.charsPerToken - 1) / Answer.charsPerToken) 1

section Removal

variable {δ ρ : Type*}

namespace ReflectResponse

/-- What `response_from_output` removes first. -/
def removeLast (r : ReflectResponse δ ρ) : Option (ReflectResponse δ ρ) :=
  if r.proposedCandidates ≠ [] then
    some { r with proposedCandidates := r.proposedCandidates.dropLast }
  else if r.memoryRelations ≠ [] then some { r with memoryRelations := r.memoryRelations.dropLast }
  else if r.derivedRepresentations ≠ [] then
    some { r with derivedRepresentations := r.derivedRepresentations.dropLast }
  else if r.recommendations ≠ [] then some { r with recommendations := r.recommendations.dropLast }
  else if r.tensions ≠ [] then some { r with tensions := r.tensions.dropLast }
  else if r.patterns ≠ [] then some { r with patterns := r.patterns.dropLast }
  else if r.chronology ≠ [] then some { r with chronology := r.chronology.dropLast }
  else if r.claims ≠ [] then some { r with claims := r.claims.dropLast }
  else if r.evidenceIds ≠ [] then some { r with evidenceIds := r.evidenceIds.dropLast }
  else none

/-- The number of elements that can be removed. -/
def elementCount (r : ReflectResponse δ ρ) : ℕ :=
  r.proposedCandidates.length + r.memoryRelations.length + r.derivedRepresentations.length +
    r.recommendations.length + r.tensions.length + r.patterns.length + r.chronology.length +
    r.claims.length + r.evidenceIds.length

/-- What `empty_response` gives up first. -/
def shrink (r : ReflectResponse δ ρ) : Option (ReflectResponse δ ρ) :=
  if r.provider.detail.isSome then some { r with provider := { r.provider with detail := none } }
  else if r.project.isSome then some { r with project := none }
  else if r.objective ≠ [] then
    some { r with objective := safeExcerpt r.objective (byteLen r.objective / 2) }
  else none

/-- The optional parts and the bytes of the objective. -/
def shrinkable (r : ReflectResponse δ ρ) : ℕ :=
  r.provider.detail.toList.length + r.project.toList.length + byteLen r.objective

end ReflectResponse

theorem byteLen_takeBytes (n : ℕ) (s : List Char) : byteLen (takeBytes n s) ≤ n := by
  induction s generalizing n with
  | nil => simp [takeBytes]
  | cons c s ih =>
      rw [takeBytes]
      split_ifs with hc
      · have := ih (n - c.utf8Size)
        rw [byteLen_cons]
        omega
      · simp

theorem byteLen_safeExcerpt (value : List Char) (maxBytes : ℕ) :
    byteLen (safeExcerpt value maxBytes) ≤ maxBytes := by
  rw [safeExcerpt]
  split_ifs with hle
  · exact hle
  · exact byteLen_takeBytes maxBytes _

theorem estimatedTokens_of_removeLast {r t : ReflectResponse δ ρ} (h : r.removeLast = some t) :
    t.metrics = r.metrics := by
  simp only [ReflectResponse.removeLast] at h
  split_ifs at h <;> (obtain rfl := Option.some.inj h; rfl)

theorem length_dropLast_lt {α : Type*} {l : List α} (h : l ≠ []) : l.dropLast.length < l.length := by
  have := List.length_pos_iff.mpr h
  rw [List.length_dropLast]
  omega

theorem elementCount_of_removeLast {r t : ReflectResponse δ ρ} (h : r.removeLast = some t) :
    t.elementCount < r.elementCount := by
  simp only [ReflectResponse.removeLast] at h
  split_ifs at h with h₁ h₂ h₃ h₄ h₅ h₆ h₇ h₈ h₉ <;> obtain rfl := Option.some.inj h
  all_goals simp only [ReflectResponse.elementCount]
  · have := length_dropLast_lt h₁; omega
  · have := length_dropLast_lt h₂; omega
  · have := length_dropLast_lt h₃; omega
  · have := length_dropLast_lt h₄; omega
  · have := length_dropLast_lt h₅; omega
  · have := length_dropLast_lt h₆; omega
  · have := length_dropLast_lt h₇; omega
  · have := length_dropLast_lt h₈; omega
  · have := length_dropLast_lt h₉; omega

theorem metrics_of_shrink {r t : ReflectResponse δ ρ} (h : r.shrink = some t) :
    t.metrics = r.metrics := by
  simp only [ReflectResponse.shrink] at h
  split_ifs at h <;> (obtain rfl := Option.some.inj h; rfl)

theorem shrinkable_of_shrink {r t : ReflectResponse δ ρ} (h : r.shrink = some t) :
    t.shrinkable < r.shrinkable := by
  simp only [ReflectResponse.shrink] at h
  split_ifs at h with hdetail hproject hobjective <;> obtain rfl := Option.some.inj h
  · obtain ⟨detail, hsome⟩ := Option.isSome_iff_exists.mp hdetail
    simp [ReflectResponse.shrinkable, hsome]
  · obtain ⟨project, hsome⟩ := Option.isSome_iff_exists.mp hproject
    simp [ReflectResponse.shrinkable, hsome]
  · have hpos := byteLen_pos hobjective
    have hhalf := byteLen_safeExcerpt r.objective (byteLen r.objective / 2)
    simp only [ReflectResponse.shrinkable]
    omega

end Removal

section Responses

variable {δ ρ : Type*} (w : Writer δ ρ)

/-- A response that `response_from_output` trims. -/
def trimmed : Trimmable (ReflectResponse δ ρ) where
  size r := byteLen (r.json w)
  number r := r.metrics.estimatedTokens
  write := ReflectResponse.withEstimate
  drop := ReflectResponse.removeLast
  base := ReflectResponse.baseSize w
  weight := ReflectResponse.elementCount
  digits := digitCount
  digits_mono := monotone_byteLen_number
  size_eq := byteLen_json w
  number_write _ _ := rfl
  base_write _ _ := rfl
  weight_write _ _ := rfl
  number_drop _ _ h := congrArg ReflectMetrics.estimatedTokens (estimatedTokens_of_removeLast h)
  weight_drop _ _ := elementCount_of_removeLast

/-- A response that `empty_response` shrinks. -/
def shrunk : Trimmable (ReflectResponse δ ρ) where
  size r := byteLen (r.json w)
  number r := r.metrics.estimatedTokens
  write := ReflectResponse.withEstimate
  drop := ReflectResponse.shrink
  base := ReflectResponse.baseSize w
  weight := ReflectResponse.shrinkable
  digits := digitCount
  digits_mono := monotone_byteLen_number
  size_eq := byteLen_json w
  number_write _ _ := rfl
  base_write _ _ := rfl
  weight_write _ _ := rfl
  number_drop _ _ h := congrArg ReflectMetrics.estimatedTokens (metrics_of_shrink h)
  weight_drop _ _ := shrinkable_of_shrink

/-! ## Responses -/

def reflectionContractVersion : List Char := "cortana.reflection.v1".toList

/-- What a reflection has collected before it asks a provider. -/
structure ReflectionScope (δ ρ : Type*) where
  requestDigest : List Char
  scopeDigest : List Char
  memoryRevision : ℕ
  /-- The number of the selected memories. -/
  memories : ℕ
  /-- The ids of the selected evidence. -/
  evidenceIds : List (List Char)
  evidenceConsidered : ℕ
  derivedRepresentations : List δ
  memoryRelations : List ρ

variable (request : ReflectRequest) (scope : ReflectionScope δ ρ)

/-- The response before `response_from_output` trims it. -/
def untrimmedResponse (status : ReflectStatus) (provider : ProviderOutcome)
    (output : ProviderReflection) : ReflectResponse δ ρ where
  contractVersion := reflectionContractVersion
  requestDigest := scope.requestDigest
  status := status
  objective := request.objective
  project := request.project
  privacyScopeDigest := scope.scopeDigest
  memoryRevision := scope.memoryRevision
  provider := provider
  claims := output.claims.take maxReflectionClaims
  patterns := output.patterns.take maxReflectionPatterns
  tensions := output.tensions.take maxReflectionTensions
  chronology := output.chronology
  recommendations := output.recommendations.take maxReflectionRecommendations
  proposedCandidates := output.proposedCandidates.take maxReflectionCandidates
  derivedRepresentations := scope.derivedRepresentations
  memoryRelations := scope.memoryRelations
  evidenceIds := scope.evidenceIds
  metrics := {
    memoriesConsidered := scope.memories
    memoriesIncluded := scope.memories
    evidenceConsidered := scope.evidenceConsidered
    evidenceIncluded := scope.evidenceIds.length
    estimatedTokens := 0
    memoryRevision := scope.memoryRevision
    canonicalMemoryMutated := false }

/-- `response_from_output`. -/
def responseFromOutput (status : ReflectStatus) (provider : ProviderOutcome)
    (output : ProviderReflection) : Except String (ReflectResponse δ ρ) :=
  let response := (trimmed w).trim estimateBytes request.tokenBudget
    (untrimmedResponse request scope status provider output)
  if response.metrics.estimatedTokens ≤ request.tokenBudget then .ok response
  else .error "reflection response metadata exceeds token budget"

/-- The response before `empty_response` shrinks it. -/
def unshrunkResponse (status : ReflectStatus) (provider : ProviderOutcome)
    (memoriesConsidered evidenceConsidered evidenceIncluded : ℕ) : ReflectResponse δ ρ where
  contractVersion := reflectionContractVersion
  requestDigest := scope.requestDigest
  status := status
  objective := request.objective
  project := request.project
  privacyScopeDigest := scope.scopeDigest
  memoryRevision := scope.memoryRevision
  provider := provider
  claims := []
  patterns := []
  tensions := []
  chronology := []
  recommendations := []
  proposedCandidates := []
  derivedRepresentations := []
  memoryRelations := []
  evidenceIds := []
  metrics := {
    memoriesConsidered := memoriesConsidered
    memoriesIncluded := 0
    evidenceConsidered := evidenceConsidered
    evidenceIncluded := evidenceIncluded
    estimatedTokens := 0
    memoryRevision := scope.memoryRevision
    canonicalMemoryMutated := false }

/-- `empty_response`. -/
def emptyResponse (status : ReflectStatus) (provider : ProviderOutcome)
    (memoriesConsidered evidenceConsidered evidenceIncluded : ℕ) : ReflectResponse δ ρ :=
  (shrunk w).trim estimateBytes request.tokenBudget
    (unshrunkResponse request scope status provider memoriesConsidered evidenceConsidered
      evidenceIncluded)

/-- What is left of a response when the deadline has passed. -/
def ReflectResponse.afterDeadline (r : ReflectResponse δ ρ) : ReflectResponse δ ρ :=
  { r with
    status := .deadlineExceeded
    claims := []
    patterns := []
    tensions := []
    chronology := []
    recommendations := []
    proposedCandidates := []
    derivedRepresentations := []
    memoryRelations := [] }

/-! ## The way of a request -/

/-- What comes of asking the provider. -/
inductive ProviderAnswer where
  | busy
  | timedOut
  | disconnected
  /-- `validate_provider_output` has rejected the output. -/
  | rejected
  | failed
  | succeeded (output : ProviderReflection)

/-- What a request meets: its deadline passes before the synthesis, with that detail
and these counts, or it is reflected on, with a provider and its answer, the
deterministic output and whether that has run past the deadline. -/
inductive Synthesis where
  | expired (detail : List Char) (memoriesConsidered evidenceConsidered : ℕ)
  | reflected (provider : Option (List Char × ProviderAnswer)) (deterministic : ProviderReflection)
      (late : Bool)

/-- How the response is made. -/
inductive Route where
  | empty (status : ReflectStatus) (provider : ProviderOutcome)
      (memoriesConsidered evidenceConsidered evidenceIncluded : ℕ)
  | output (status : ReflectStatus) (provider : ProviderOutcome) (output : ProviderReflection)
      (late : Bool)

/-- The deterministic reflection, after what the provider has come to. -/
def fallbackRoute (outcome : ProviderOutcome) (deterministic : ProviderReflection) (late : Bool) :
    Route :=
  if request.providerPolicy = .deterministicOnly then
    .output .completed { outcome with selected := "deterministic".toList } deterministic late
  else
    .output .fallback { outcome with
      selected := "deterministic".toList, status := "fallback".toList } deterministic late

/-- A provider that has not answered: without it a required provider leaves nothing to say. -/
def withoutProvider (outcome : ProviderOutcome) (status : ReflectStatus)
    (deterministic : ProviderReflection) (late : Bool) : Route :=
  if request.providerPolicy = .requireProvider then
    .empty status outcome scope.memories scope.evidenceConsidered scope.evidenceIds.length
  else fallbackRoute request outcome deterministic late

/-- The branches of `reflect_with_provider`, and the responses that
`reflect_authorized` makes when the deadline has passed. -/
def route : Synthesis → Route
  | .expired detail memoriesConsidered evidenceConsidered =>
      .empty .deadlineExceeded ⟨request.providerPolicy, "deterministic".toList,
        "deadline_exceeded".toList, some detail⟩ memoriesConsidered evidenceConsidered 0
  | .reflected provider deterministic late =>
      let selected := (provider.map Prod.fst).getD "deterministic".toList
      let outcome (status : List Char) (detail : Option (List Char)) : ProviderOutcome :=
        ⟨request.providerPolicy, selected, status, detail⟩
      if request.providerPolicy = .deterministicOnly then
        fallbackRoute request (outcome "not_requested".toList none) deterministic late
      else
        match provider with
        | none =>
            withoutProvider request scope (outcome "unavailable".toList
              (some "no reflection provider is configured".toList)) .providerUnavailable
              deterministic late
        | some (_, .busy) =>
            withoutProvider request scope (outcome "busy".toList
              (some "reflection provider already has an active request".toList)) .providerFailed
              deterministic late
        | some (_, .timedOut) =>
            withoutProvider request scope (outcome "deadline_exceeded".toList
              (some "reflection provider exceeded deadline".toList)) .deadlineExceeded
              deterministic late
        -- A required provider that disconnects is replaced like a preferred one.
        | some (_, .disconnected) =>
            fallbackRoute request (outcome "failed".toList
              (some "reflection provider disconnected".toList)) deterministic late
        | some (_, .rejected) =>
            withoutProvider request scope (outcome "failed".toList
              (some "provider output rejected".toList)) .providerFailed deterministic late
        | some (_, .failed) =>
            withoutProvider request scope (outcome "failed".toList
              (some "reflection provider failed".toList)) .providerFailed deterministic late
        | some (_, .succeeded output) =>
            .output .completed (outcome "succeeded".toList none) output false

/-- The response of a route. -/
def respond : Route → Except String (ReflectResponse δ ρ)
  | .empty status provider memoriesConsidered evidenceConsidered evidenceIncluded =>
      .ok (emptyResponse w request scope status provider memoriesConsidered evidenceConsidered
        evidenceIncluded)
  | .output status provider output late => do
      let response ← responseFromOutput w request scope status provider output
      return if late then response.afterDeadline else response

/-- `reflect_authorized` and `reflect_with_provider`. -/
def reflectWithProvider (synthesis : Synthesis) : Except String (ReflectResponse δ ρ) :=
  respond w request scope (route request scope synthesis)

/-! ## The budget -/

/-- The bytes that the budget of a request allows. -/
def ReflectRequest.capacity : ℕ := Answer.charsPerToken * request.tokenBudget

theorem estimateBytes_le_iff (n : ℕ) :
    estimateBytes n ≤ request.tokenBudget ↔ n ≤ request.capacity := by
  have hbudget : 256 ≤ request.tokenBudget := request.validBudget.1
  simp only [estimateBytes, ReflectRequest.capacity, Answer.charsPerToken]
  omega

theorem estimateTokens_json_le_iff (r : ReflectResponse δ ρ) :
    Answer.estimateTokens (r.json w) ≤ request.tokenBudget ↔
      byteLen (r.json w) ≤ request.capacity :=
  estimateBytes_le_iff request _

/-- A response that is within the budget as it was measured, without an estimate,
and over it once its estimate is written. -/
def Outgrows (r : ReflectResponse δ ρ) : Prop :=
  byteLen (r.json w) ≤ request.capacity ∧
    request.capacity < r.baseSize w + digitCount (estimateBytes (byteLen (r.json w)))

theorem responseFromOutput_eq_ok_iff {status : ReflectStatus} {provider : ProviderOutcome}
    {output : ProviderReflection} {r : ReflectResponse δ ρ} :
    responseFromOutput w request scope status provider output = .ok r ↔
      (trimmed w).trim estimateBytes request.tokenBudget
          (untrimmedResponse request scope status provider output) = r ∧
        r.metrics.estimatedTokens ≤ request.tokenBudget := by
  rw [responseFromOutput]
  constructor
  · intro h
    split_ifs at h with hle
    obtain rfl := Except.ok.inj h
    exact ⟨rfl, hle⟩
  · rintro ⟨rfl, hle⟩
    rw [if_pos hle]

/-! ## What is removed -/

/-- An element that can be removed. -/
inductive Element (δ ρ : Type*) where
  | evidence (id : List Char)
  | claim (claim : ReflectClaim)
  | chronology (entry : ReflectChronology)
  | pattern (statement : ReflectStatement)
  | tension (statement : ReflectStatement)
  | recommendation (statement : ReflectStatement)
  | derived (representation : δ)
  | relation (relation : ρ)
  | candidate (candidate : ProposedReflectCandidate)

/-- The list of an element. -/
def Element.kind : Element δ ρ → ℕ
  | evidence _ => 0
  | claim _ => 1
  | chronology _ => 2
  | pattern _ => 3
  | tension _ => 4
  | recommendation _ => 5
  | derived _ => 6
  | relation _ => 7
  | candidate _ => 8

namespace ReflectResponse

/-- The elements of a response, those that are removed first at the end. -/
def inOrder (r : ReflectResponse δ ρ) : List (Element δ ρ) :=
  r.evidenceIds.map .evidence ++ (r.claims.map .claim ++ (r.chronology.map .chronology ++
    (r.patterns.map .pattern ++ (r.tensions.map .tension ++
      (r.recommendations.map .recommendation ++ (r.derivedRepresentations.map .derived ++
        (r.memoryRelations.map .relation ++ r.proposedCandidates.map .candidate)))))))

/-- A response without its elements and its estimate. -/
def rest (r : ReflectResponse δ ρ) : ReflectResponse δ ρ :=
  { r.afterDeadline with
    status := r.status
    evidenceIds := []
    metrics := { r.metrics with estimatedTokens := 0 } }

/-- A response with the first elements of another one, and otherwise equal to it up to
the estimate. -/
structure CutTo (start : ReflectResponse δ ρ) (n : ℕ) (r : ReflectResponse δ ρ) : Prop where
  inOrder : r.inOrder = start.inOrder.take n
  rest : r.rest = start.rest

/-- The response with its first `n` elements. -/
def cutAt (r : ReflectResponse δ ρ) (n : ℕ) : ReflectResponse δ ρ :=
  let afterEvidence := n - r.evidenceIds.length
  let afterClaims := afterEvidence - r.claims.length
  let afterChronology := afterClaims - r.chronology.length
  let afterPatterns := afterChronology - r.patterns.length
  let afterTensions := afterPatterns - r.tensions.length
  let afterRecommendations := afterTensions - r.recommendations.length
  let afterDerived := afterRecommendations - r.derivedRepresentations.length
  { r with
    evidenceIds := r.evidenceIds.take n
    claims := r.claims.take afterEvidence
    chronology := r.chronology.take afterClaims
    patterns := r.patterns.take afterChronology
    tensions := r.tensions.take afterPatterns
    recommendations := r.recommendations.take afterTensions
    derivedRepresentations := r.derivedRepresentations.take afterRecommendations
    memoryRelations := r.memoryRelations.take afterDerived
    proposedCandidates := r.proposedCandidates.take (afterDerived - r.memoryRelations.length) }

/-- What is measured after `k` removals, with the estimate that was written before the
last one. -/
def pass (start : ReflectResponse δ ρ) : ℕ → ReflectResponse δ ρ
  | 0 => start
  | k + 1 => (start.cutAt (start.inOrder.length - (k + 1))).withEstimate
      (estimateBytes (byteLen ((start.pass k).json w)))

/-- What is returned if nothing more is removed. -/
def measured (start : ReflectResponse δ ρ) (k : ℕ) : ReflectResponse δ ρ :=
  (start.pass w k).withEstimate (estimateBytes (byteLen ((start.pass w k).json w)))

/-- A response is given by its elements and the rest of it. -/
theorem eq_of_inOrder {r t : ReflectResponse δ ρ} (hinOrder : r.inOrder = t.inOrder)
    (hrest : r.rest = t.rest) (hmetrics : r.metrics = t.metrics) : r = t := by
  have hkind : ∀ k, r.inOrder.filter (fun e ↦ e.kind = k) = t.inOrder.filter fun e ↦ e.kind = k :=
    fun k ↦ by rw [hinOrder]
  simp only [inOrder, List.filter_append, List.filter_map, Function.comp_def, Element.kind] at hkind
  have hevidence : r.evidenceIds = t.evidenceIds := by simpa [List.map_inj_right] using hkind 0
  have hclaims : r.claims = t.claims := by simpa [List.map_inj_right] using hkind 1
  have hchronology : r.chronology = t.chronology := by simpa [List.map_inj_right] using hkind 2
  have hpatterns : r.patterns = t.patterns := by simpa [List.map_inj_right] using hkind 3
  have htensions : r.tensions = t.tensions := by simpa [List.map_inj_right] using hkind 4
  have hrecommendations : r.recommendations = t.recommendations := by
    simpa [List.map_inj_right] using hkind 5
  have hderived : r.derivedRepresentations = t.derivedRepresentations := by
    simpa [List.map_inj_right] using hkind 6
  have hrelations : r.memoryRelations = t.memoryRelations := by
    simpa [List.map_inj_right] using hkind 7
  have hcandidates : r.proposedCandidates = t.proposedCandidates := by
    simpa [List.map_inj_right] using hkind 8
  clear hkind hinOrder
  obtain ⟨⟩ := r
  obtain ⟨⟩ := t
  simp_all [rest, afterDeadline]

theorem inOrder_cutAt (r : ReflectResponse δ ρ) (n : ℕ) :
    (r.cutAt n).inOrder = r.inOrder.take n := by
  simp only [inOrder, cutAt, List.take_append, List.map_take, List.length_map]

theorem cutAt_length (r : ReflectResponse δ ρ) : r.cutAt r.inOrder.length = r := by
  refine eq_of_inOrder ?_ rfl rfl
  rw [inOrder_cutAt, List.take_length]

theorem exists_pass_eq (start : ReflectResponse δ ρ) (k : ℕ) :
    ∃ tokens, start.pass w k = (start.cutAt (start.inOrder.length - k)).withEstimate tokens := by
  cases k with
  | zero =>
      refine ⟨start.metrics.estimatedTokens, ?_⟩
      rw [Nat.sub_zero, cutAt_length]
      rfl
  | succ k => exact ⟨_, rfl⟩

theorem cutTo_measured (start : ReflectResponse δ ρ) (k : ℕ) :
    start.CutTo (start.inOrder.length - k) (start.measured w k) := by
  obtain ⟨tokens, htokens⟩ := start.exists_pass_eq w k
  rw [measured, htokens]
  exact ⟨start.inOrder_cutAt _, rfl⟩

theorem removeLast_withEstimate (r : ReflectResponse δ ρ) (tokens : ℕ) :
    (r.withEstimate tokens).removeLast =
      r.removeLast.map fun removed ↦ removed.withEstimate tokens := by
  rw [removeLast, removeLast]
  simp only [apply_ite (Option.map fun removed : ReflectResponse δ ρ ↦ removed.withEstimate tokens),
    Option.map_some, Option.map_none]
  rfl

/-- A removal takes the last element. -/
theorem inOrder_of_removeLast {r t : ReflectResponse δ ρ} (h : r.removeLast = some t) :
    t.inOrder = r.inOrder.dropLast ∧ t.rest = r.rest ∧ t.metrics = r.metrics := by
  simp only [removeLast] at h
  split_ifs at h <;> obtain rfl := Option.some.inj h
  all_goals
    refine ⟨?_, rfl, rfl⟩
    simp_all [inOrder, List.dropLast_append_of_ne_nil, List.map_dropLast]

theorem removeLast_eq_none_iff {r : ReflectResponse δ ρ} :
    r.removeLast = none ↔ r.inOrder = [] := by
  rw [removeLast]
  split_ifs <;> simp_all [inOrder]

theorem removeLast_cutAt_succ {r : ReflectResponse δ ρ} {n : ℕ} (h : n < r.inOrder.length) :
    (r.cutAt (n + 1)).removeLast = some (r.cutAt n) := by
  have hlonger := inOrder_cutAt r (n + 1)
  cases hremoved : (r.cutAt (n + 1)).removeLast with
  | none =>
      rw [Iff.mp removeLast_eq_none_iff hremoved] at hlonger
      have hlength := congrArg List.length hlonger
      rw [List.length_nil, List.length_take] at hlength
      omega
  | some t =>
      obtain ⟨hinOrder, hrest, hmetrics⟩ := inOrder_of_removeLast hremoved
      refine congrArg some (eq_of_inOrder ?_ hrest hmetrics)
      rw [hinOrder, hlonger, inOrder_cutAt, List.dropLast_eq_take, List.length_take, List.take_take]
      congr 1
      omega

end ReflectResponse

/-- The loop removes the last element of what is over the budget as it is measured. -/
theorem removeLast_measured (start : ReflectResponse δ ρ) {k : ℕ} (h : k < start.inOrder.length) :
    (start.measured w k).removeLast = some (start.pass w (k + 1)) := by
  obtain ⟨tokens, htokens⟩ := start.exists_pass_eq w k
  have hnext : start.inOrder.length - k = start.inOrder.length - (k + 1) + 1 := by omega
  have hcut : (start.cutAt (start.inOrder.length - (k + 1) + 1)).removeLast =
      some (start.cutAt (start.inOrder.length - (k + 1))) :=
    ReflectResponse.removeLast_cutAt_succ (by omega)
  have hpass : (start.pass w k).removeLast =
      some ((start.cutAt (start.inOrder.length - (k + 1))).withEstimate tokens) := by
    rw [htokens, ReflectResponse.removeLast_withEstimate, hnext, hcut]
    rfl
  rw [ReflectResponse.measured, ReflectResponse.removeLast_withEstimate, hpass]
  rfl

theorem removeLast_measured_length (start : ReflectResponse δ ρ) :
    (start.measured w start.inOrder.length).removeLast = none := by
  have hcut := (start.cutTo_measured w start.inOrder.length).inOrder
  rw [Nat.sub_self, List.take_zero] at hcut
  exact Iff.mpr ReflectResponse.removeLast_eq_none_iff hcut

/-- The response is within the budget as it is measured after `k` removals, and after
none before. -/
structure SettlesAfter (start : ReflectResponse δ ρ) (k : ℕ) : Prop where
  removable : k ≤ start.inOrder.length
  large : ∀ j < k, request.capacity < byteLen ((start.pass w j).json w)
  fits : byteLen ((start.pass w k).json w) ≤ request.capacity

/-- `response_from_output` removes elements from the end of one fixed order and nothing
else, until the response is within the budget as it is measured; it fails when it is
not without elements either. -/
theorem responseFromOutput_eq (status : ReflectStatus) (provider : ProviderOutcome)
    (output : ProviderReflection) :
    let start := untrimmedResponse request scope status provider output
    (∃ k, SettlesAfter w request start k ∧
        responseFromOutput w request scope status provider output = .ok (start.measured w k)) ∨
      (∀ j ≤ start.inOrder.length, request.capacity < byteLen ((start.pass w j).json w)) ∧
        responseFromOutput w request scope status provider output =
          .error "reflection response metadata exceeds token budget" := by
  intro start
  have hover : ∀ {n : ℕ}, request.tokenBudget < estimateBytes n ↔ request.capacity < n := by
    intro n
    rw [← Nat.not_le, estimateBytes_le_iff, Nat.not_le]
  have hdrop : ∀ k < start.inOrder.length,
      (trimmed w).drop ((trimmed w).measure estimateBytes (start.pass w k)) =
        some (start.pass w (k + 1)) :=
    fun k hk ↦ removeLast_measured w start hk
  rcases Trimmable.trim_eq_of_passes hdrop (removeLast_measured_length w start) with
    ⟨k, hk, hbefore, hfits, htrim⟩ | ⟨hall, htrim⟩
  · refine .inl ⟨k, ⟨hk, fun j hj ↦ Iff.mp hover (hbefore j hj),
      Iff.mp (estimateBytes_le_iff request _) hfits⟩, ?_⟩
    exact Iff.mpr (responseFromOutput_eq_ok_iff w request scope) ⟨htrim, hfits⟩
  · refine .inr ⟨fun j hj ↦ Iff.mp hover (hall j hj), ?_⟩
    have hlarge : ¬((trimmed w).trim estimateBytes request.tokenBudget
        start).metrics.estimatedTokens ≤ request.tokenBudget := by
      have hlast := hall _ le_rfl
      change (trimmed w).trim estimateBytes request.tokenBudget start = _ at htrim
      rw [htrim]
      exact Nat.not_le.mpr hlast
    rw [responseFromOutput, if_neg hlarge]

/-- What `response_from_output` returns, or that it fails, by what it measures. -/
theorem responseFromOutput_cut (status : ReflectStatus) (provider : ProviderOutcome)
    (output : ProviderReflection) :
    let start := untrimmedResponse request scope status provider output
    (∃ k, SettlesAfter w request start k ∧
        responseFromOutput w request scope status provider output = .ok (start.measured w k) ∧
        start.CutTo (start.inOrder.length - k) (start.measured w k)) ∨
      (∀ j ≤ start.inOrder.length, request.capacity < byteLen ((start.pass w j).json w)) ∧
        responseFromOutput w request scope status provider output =
          .error "reflection response metadata exceeds token budget" := by
  intro start
  rcases responseFromOutput_eq w request scope status provider output with
    ⟨k, hsettles, hresponse⟩ | hfails
  · exact .inl ⟨k, hsettles, hresponse, start.cutTo_measured w k⟩
  · exact .inr hfails

theorem responseFromOutput_of_settles {status : ReflectStatus} {provider : ProviderOutcome}
    {output : ProviderReflection} {k : ℕ}
    (h : SettlesAfter w request (untrimmedResponse request scope status provider output) k) :
    responseFromOutput w request scope status provider output =
      .ok ((untrimmedResponse request scope status provider output).measured w k) := by
  rcases responseFromOutput_eq w request scope status provider output with
    ⟨n, hsettles, hresponse⟩ | ⟨hall, -⟩
  · have hsame : n = k := by
      rcases Nat.lt_trichotomy n k with hless | heq | hgreater
      · exact absurd hsettles.fits (Nat.not_le.mpr (h.large n hless))
      · exact heq
      · exact absurd h.fits (Nat.not_le.mpr (hsettles.large k hgreater))
    rw [hresponse, hsame]
  · exact absurd h.fits (Nat.not_le.mpr (hall k h.removable))

/-- What is within the budget as it came is returned. -/
theorem exists_responseFromOutput_eq {status : ReflectStatus} {provider : ProviderOutcome}
    {output : ProviderReflection}
    (h : byteLen ((untrimmedResponse request scope status provider output).json w) ≤
      request.capacity) :
    ∃ r, responseFromOutput w request scope status provider output = .ok r :=
  ⟨_, responseFromOutput_of_settles w request scope
    ⟨Nat.zero_le _, fun j hj ↦ absurd hj (Nat.not_lt_zero j), h⟩⟩

/-! ## Within the budget -/

/-- What `response_from_output` returns is within the budget unless it was returned
as it came and has outgrown the budget by its estimate. -/
theorem responseFromOutput_fits_iff {status : ReflectStatus} {provider : ProviderOutcome}
    {output : ProviderReflection} {r : ReflectResponse δ ρ}
    (h : responseFromOutput w request scope status provider output = .ok r) :
    byteLen (r.json w) ≤ request.capacity ↔
      ¬Outgrows w request (untrimmedResponse request scope status provider output) := by
  obtain ⟨rfl, hle⟩ := Iff.mp (responseFromOutput_eq_ok_iff w request scope) h
  refine ((trimmed w).size_trim_le_iff (estimateBytes_le_iff request) hle).trans ?_
  rw [Outgrows, not_and, Nat.not_lt]
  refine imp_congr_right fun _ ↦ ?_
  rw [Trimmable.measure, Trimmable.size_write]
  rfl

/-- What the deadline leaves of the first `n` elements of a response: the ids of evidence
among them. -/
def ReflectResponse.late (start : ReflectResponse δ ρ) (n : ℕ) : ReflectResponse δ ρ :=
  { start.afterDeadline with evidenceIds := start.evidenceIds.take n }

/-- A response that has given up all that it can. -/
def ReflectResponse.bare (r : ReflectResponse δ ρ) : ReflectResponse δ ρ :=
  { r with provider := { r.provider with detail := none }, project := none, objective := [] }

/-- The condition on a route under which its response is within the budget. -/
def RouteFits : Route → Prop
  | .empty status provider memoriesConsidered evidenceConsidered evidenceIncluded =>
      let start : ReflectResponse δ ρ := unshrunkResponse request scope status provider
        memoriesConsidered evidenceConsidered evidenceIncluded
      ¬Outgrows w request start ∧
        -- If all is given up in vain, what is left fits with the digits of its own estimate.
        ∀ tokens, (shrunk w).Reaches estimateBytes request.tokenBudget start
            (start.bare.withEstimate tokens) →
          request.capacity < start.bare.baseSize w + digitCount tokens →
            start.bare.baseSize w +
              digitCount (estimateBytes (start.bare.baseSize w + digitCount tokens)) ≤
                request.capacity
  | .output status provider output false =>
      ¬Outgrows w request (untrimmedResponse request scope status provider output)
  | .output status provider output true =>
      let start : ReflectResponse δ ρ := untrimmedResponse request scope status provider output
      ∀ k, SettlesAfter w request start k →
        (start.late (start.inOrder.length - k)).baseSize w +
          digitCount (estimateBytes (byteLen ((start.pass w k).json w))) ≤ request.capacity

/-- Nothing is left to be given up. -/
theorem shrink_eq_none_iff {r : ReflectResponse δ ρ} :
    r.shrink = none ↔
      r.provider.detail.isSome = false ∧ r.project.isSome = false ∧ r.objective = [] := by
  rw [ReflectResponse.shrink]
  split_ifs with hdetail hproject hobjective <;> simp_all

theorem shrink_withEstimate_eq_none_iff {r : ReflectResponse δ ρ} {tokens : ℕ} :
    (r.withEstimate tokens).shrink = none ↔ r.shrink = none := by
  rw [shrink_eq_none_iff, shrink_eq_none_iff]
  rfl

/-- Only the estimate of what is left in the end depends on the loop. -/
theorem eq_bare_of_reaches {start r : ReflectResponse δ ρ}
    (h : (shrunk w).Reaches estimateBytes request.tokenBudget start r) (hnone : r.shrink = none) :
    r = start.bare.withEstimate r.metrics.estimatedTokens := by
  have hbare : ∀ {p}, (shrunk w).Reaches estimateBytes request.tokenBudget start p →
      p.bare = start.bare.withEstimate p.metrics.estimatedTokens := by
    intro p hp
    induction hp with
    | start => rfl
    | @remove p q _ _ hdrop ih =>
        have hsame : q.bare = (p.bare).withEstimate q.metrics.estimatedTokens := by
          change ReflectResponse.shrink (p.withEstimate _) = some q at hdrop
          simp only [ReflectResponse.shrink] at hdrop
          split_ifs at hdrop <;> obtain rfl := Option.some.inj hdrop <;> rfl
        rw [hsame, ih]
        rfl
  obtain ⟨hdetail, hproject, hobjective⟩ := Iff.mp shrink_eq_none_iff hnone
  rw [Option.isSome_eq_false_iff, Option.isNone_iff_eq_none] at hdetail hproject
  have hprovider : { r.provider with detail := none } = r.provider := by rw [← hdetail]
  rw [← hbare h, ReflectResponse.bare, hprovider, ← hproject, ← hobjective]

/-- A response that was emptied is within the budget exactly when its route says so. -/
theorem emptyResponse_fits_iff (start : ReflectResponse δ ρ) :
    byteLen (((shrunk w).trim estimateBytes request.tokenBudget start).json w) ≤
        request.capacity ↔
      ¬Outgrows w request start ∧
        ∀ tokens, (shrunk w).Reaches estimateBytes request.tokenBudget start
            (start.bare.withEstimate tokens) →
          request.capacity < start.bare.baseSize w + digitCount tokens →
            start.bare.baseSize w +
              digitCount (estimateBytes (start.bare.baseSize w + digitCount tokens)) ≤
                request.capacity := by
  have hsize : ∀ r : ReflectResponse δ ρ, (shrunk w).size r = r.baseSize w +
      digitCount r.metrics.estimatedTokens := byteLen_json w
  have hmeasured : ∀ r : ReflectResponse δ ρ, (shrunk w).size ((shrunk w).measure estimateBytes r) =
      r.baseSize w + digitCount (estimateBytes (byteLen (r.json w))) := by
    intro r
    rw [Trimmable.measure, Trimmable.size_write]
    rfl
  refine ((shrunk w).size_trim_le_iff_exhausted (estimateBytes_le_iff request)).trans ?_
  refine and_congr ?_ ⟨fun h tokens hreaches hover ↦ ?_, fun h r hreaches hover hnone ↦ ?_⟩
  · rw [Outgrows, not_and, Nat.not_lt, hmeasured]
    rfl
  · have hnone : ((shrunk w).measure estimateBytes (start.bare.withEstimate tokens)).shrink = none :=
      Iff.mpr shrink_eq_none_iff ⟨rfl, rfl, rfl⟩
    have hfits := h _ hreaches (by
      rw [← Nat.not_le, estimateBytes_le_iff, Nat.not_le, hsize]
      exact hover) hnone
    rw [hmeasured, byteLen_json] at hfits
    exact hfits
  · have hr := eq_bare_of_reaches w request hreaches
      (Iff.mp shrink_withEstimate_eq_none_iff hnone)
    rw [hr] at hreaches hover ⊢
    rw [← Nat.not_le, estimateBytes_le_iff, Nat.not_le, hsize] at hover
    rw [hmeasured, byteLen_json]
    exact h _ hreaches hover

/-- What the deadline leaves of what `response_from_output` returns. -/
theorem byteLen_afterDeadline (start : ReflectResponse δ ρ) (k : ℕ) :
    byteLen ((start.measured w k).afterDeadline.json w) =
      (start.late (start.inOrder.length - k)).baseSize w +
        digitCount (estimateBytes (byteLen ((start.pass w k).json w))) := by
  obtain ⟨tokens, htokens⟩ := start.exists_pass_eq w k
  rw [byteLen_json, ReflectResponse.measured]
  nth_rewrite 1 [htokens]
  rfl

/-- A request is answered within its token budget exactly when its route allows it. -/
theorem reflectWithProvider_fits_iff (synthesis : Synthesis) :
    (∀ response, reflectWithProvider w request scope synthesis = .ok response →
        Answer.estimateTokens (response.json w) ≤ request.tokenBudget) ↔
      RouteFits w request scope (route request scope synthesis) := by
  rw [reflectWithProvider]
  simp only [estimateTokens_json_le_iff]
  cases route request scope synthesis with
  | empty status provider memoriesConsidered evidenceConsidered evidenceIncluded =>
      simp only [respond, Except.ok.injEq, forall_eq', emptyResponse, RouteFits]
      exact emptyResponse_fits_iff w request _
  | output status provider output late =>
      cases late with
      | false =>
          simp only [respond, RouteFits]
          constructor
          · intro h houtgrows
            obtain ⟨r, hr⟩ := exists_responseFromOutput_eq w request scope houtgrows.1
            exact Iff.mp (responseFromOutput_fits_iff w request scope hr) (h r (by rw [hr]; rfl))
              houtgrows
          · intro h response hresponse
            cases hr : responseFromOutput w request scope status provider output with
            | error reason => rw [hr] at hresponse; cases hresponse
            | ok r =>
                rw [hr] at hresponse
                obtain rfl := Except.ok.inj hresponse
                exact Iff.mpr (responseFromOutput_fits_iff w request scope hr) h
      | true =>
          simp only [respond, RouteFits]
          constructor
          · intro h k hsettles
            have hr := responseFromOutput_of_settles w request scope hsettles
            have hfits := h _ (by rw [hr]; rfl)
            rwa [if_pos trivial, byteLen_afterDeadline] at hfits
          · intro h response hresponse
            rcases responseFromOutput_eq w request scope status provider output with
              ⟨k, hsettles, hr⟩ | ⟨-, hr⟩
            · rw [hr] at hresponse
              obtain rfl := Except.ok.inj hresponse
              rw [if_pos trivial, byteLen_afterDeadline]
              exact h k hsettles
            · rw [hr] at hresponse
              cases hresponse

end Responses

end Reflection

end Cortana
