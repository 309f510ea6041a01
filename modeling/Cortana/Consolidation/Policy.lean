import Cortana.Consolidation.Classification
import Cortana.Store.Sample
import Mathlib.Data.Rat.Floor

/-!
# The consolidation policy

`consolidation.rs`: whether a classified candidate is retained, reviewed or
rejected.  Numbers are exact.
-/

namespace Cortana

structure RetentionCeilings where
  maxWorkingDays : ℤ
  maxDurableDays : ℤ
  maxActive : ℕ

structure ConsolidationPreferences where
  allowAutoRetain : Bool
  allowWorkingRetention : Bool

structure ConsolidationPolicy where
  version : String
  enabled : Bool
  automaticRetentionReleaseAuthorized : Bool
  autoRetainMinConfidence : ℚ
  autoRetainMinImportance : ℚ
  maxQueue : ℕ
  maxRetries : ℕ
  retryBackoffSeconds : ℕ
  candidateExpiryDays : ℤ
  preferences : ConsolidationPreferences
  ceilings : RetentionCeilings

/-- What the consolidation uses of other crates besides what the store uses. -/
structure ConsolidationCodec extends Codec where
  /-- `to_rfc3339` of an instant in nanoseconds. -/
  rfc3339 : ℤ → String
  /-- The first 16 digits of `stable_json_digest` of a policy. -/
  policyDigest : ConsolidationPolicy → String
  /-- `to_rfc3339_opts(SecondsFormat::Millis, true)`. -/
  rfc3339Millis : ℤ → String
  /-- `julianday(a) <= julianday(b)` in SQLite. -/
  julianReached : String → String → Bool
  /-- `julianday(a) >= julianday(b, '-1 hour')` in SQLite. -/
  julianWithinHour : String → String → Bool
  /-- Whether `serde_json::from_str::<Value>` reads a text. -/
  validJson : String → Bool

/-- A codec to evaluate the consolidation with. -/
def ConsolidationCodec.sample : ConsolidationCodec where
  toCodec := .sample
  rfc3339 instant := toString instant
  rfc3339Millis instant := toString instant
  policyDigest _ := "0123456789abcdef"
  julianReached a b := plainSeconds a && plainSeconds b && decide (digitsOf a ≤ digitsOf b)
  julianWithinHour a b := plainSeconds a && plainSeconds b && decide (digitsOf b ≤ digitsOf a + 10000)
  validJson text := text.toList.head? == some '\x7b'

/-- Nanoseconds. -/
def secondsSpan (seconds : ℤ) : ℤ := seconds * 10 ^ 9

def daysSpan (days : ℤ) : ℤ := secondsSpan (days * 86400)

def consolidationPolicyVersion : String := "cortana.memory.consolidation.v1"
def defaultMaxQueue : ℕ := 1000
def defaultMaxWorkingDays : ℤ := 7
def defaultCandidateExpiryDays : ℤ := 7

namespace ConsolidationPolicy

/-- `validate`. -/
def validate (policy : ConsolidationPolicy) : Except String Unit := do
  Except.require (policy.version = consolidationPolicyVersion)
    "unsupported consolidation policy version"
  Except.require (0 ≤ policy.autoRetainMinConfidence ∧ policy.autoRetainMinConfidence ≤ 1)
    "auto-retain confidence threshold must be between 0 and 1"
  Except.require (0 ≤ policy.autoRetainMinImportance ∧ policy.autoRetainMinImportance ≤ 1)
    "auto-retain importance threshold must be between 0 and 1"
  Except.require (1 ≤ policy.maxQueue ∧ policy.maxQueue ≤ defaultMaxQueue)
    "consolidation queue is outside its bound"
  Except.require (policy.maxRetries ≤ 10) "consolidation retries are outside their bound"
  Except.require (0 < policy.ceilings.maxWorkingDays ∧
      policy.ceilings.maxWorkingDays ≤ defaultMaxWorkingDays)
    "working retention exceeds its ceiling"
  Except.require (0 < policy.ceilings.maxDurableDays ∧ policy.ceilings.maxDurableDays ≤ 3650)
    "durable retention exceeds its ceiling"
  Except.require (0 < policy.ceilings.maxActive ∧ policy.ceilings.maxActive ≤ 1000000)
    "active retention capacity is outside its bound"
  Except.require (1 ≤ policy.candidateExpiryDays ∧
      policy.candidateExpiryDays ≤ defaultCandidateExpiryDays)
    "candidate expiry is outside its bound"

/-- `identity`. -/
def identity (codec : ConsolidationCodec) (policy : ConsolidationPolicy) : Except String String := do
  policy.validate
  return policy.version ++ ":" ++ codec.policyDigest policy

end ConsolidationPolicy

/-- A policy to evaluate the consolidation with. -/
def ConsolidationPolicy.sample : ConsolidationPolicy where
  version := consolidationPolicyVersion
  enabled := true
  automaticRetentionReleaseAuthorized := false
  autoRetainMinConfidence := 8 / 10
  autoRetainMinImportance := 6 / 10
  maxQueue := 100
  maxRetries := 3
  retryBackoffSeconds := 60
  candidateExpiryDays := 7
  preferences := { allowAutoRetain := true, allowWorkingRetention := true }
  ceilings := { maxWorkingDays := 7, maxDurableDays := 365, maxActive := 1000 }

inductive ConsolidationDecision where
  | autoRetain
  | approve
  | review
  | reject
  | working
deriving DecidableEq

namespace ConsolidationDecision

def asStr : ConsolidationDecision → String
  | autoRetain => "auto-retain"
  | approve => "approve"
  | review => "review"
  | reject => "reject"
  | working => "working"

/-- The decisions that make a candidate a memory. -/
def retains : ConsolidationDecision → Bool
  | autoRetain | approve | working => true
  | review | reject => false

end ConsolidationDecision

structure PolicyContext where
  explicitApproval : Bool
  explicitSupersession : Bool
  sameScope : Bool

structure ConsolidationDecisionReport where
  candidateId : String
  policyVersion : String
  decision : ConsolidationDecision
  classification : String
  reasonCode : String
  explanation : String
  queuePriority : ℕ
  expiresAt : Option String

/-- A decision with its reason, its explanation and, where it is raised, its
priority. -/
structure Verdict where
  decision : ConsolidationDecision
  reasonCode : String
  explanation : String
  urgent : Bool

/-- The cascade of `evaluate`. -/
def verdictFor (codec : Codec) (now : ℤ) (candidate : MemoryCandidate) (classification : String)
    (policy : ConsolidationPolicy) (context : PolicyContext) : Verdict :=
  let retainable := classification ∈ ["new", "reinforcement", "semantic-duplicate", "exact-duplicate"]
  if !policy.enabled then
    ⟨.review, "disabled",
      "consolidation is disabled; explicit memory writes and retrieval remain available", false⟩
  else if candidate.status ≠ "pending" then
    ⟨.reject, "candidate-not-pending", "only pending candidates can be consolidated", false⟩
  else if (codec.instant candidate.expiresAt).any (· ≤ now) then
    ⟨.reject, "candidate-expired", "candidate expiry has elapsed", false⟩
  else if (codec.instant candidate.createdAt).any (· + daysSpan policy.candidateExpiryDays ≤ now) then
    ⟨.reject, "candidate-review-window-expired",
      "candidate exceeded the configured review window", false⟩
  else if candidate.sensitivity ≠ "normal" then
    ⟨.review, "sensitive",
      "sensitive candidates require explicit user approval and cannot auto-commit", true⟩
  else if !context.sameScope then
    ⟨.review, "cross-scope", "cross-scope candidates require an owner-approved review", true⟩
  else if classification = "supersession" ∧ context.explicitSupersession then
    ⟨.approve, "explicit-supersession",
      "an authorized reviewer explicitly approved replacement of the matched canonical memory", true⟩
  else if classification ∈ ["contradiction", "supersession"] then
    ⟨.review, "conflict", "contradictory or superseding candidates never auto-commit", true⟩
  else if classification = ClassificationKind.discard.asStr then
    ⟨.reject, "classification-discard",
      "classification marked the candidate as unsafe or below the retention floor", false⟩
  else if realValue candidate.confidence < policy.autoRetainMinConfidence then
    ⟨if context.explicitApproval then .approve else .review, "low-confidence",
      "confidence is below the automatic retention threshold", false⟩
  else if candidate.retentionTier = "working" ∧ !policy.preferences.allowWorkingRetention then
    ⟨.review, "preference-working-disabled",
      "user preferences require review before retaining working memory", false⟩
  else if candidate.retentionTier = "working" ∧ !context.explicitApproval ∧
      !policy.automaticRetentionReleaseAuthorized then
    ⟨.review, "automatic-retention-release-gate",
      "automatic working retention remains disabled until approved private evidence and a reviewed runtime release gate exist", false⟩
  else if candidate.retentionTier = "working" then
    ⟨.working, "working-retention",
      "working memory remains temporary and bounded even when approved", false⟩
  else if retainable ∧ policy.autoRetainMinImportance ≤ realValue candidate.importance ∧
      policy.preferences.allowAutoRetain ∧ !context.explicitApproval ∧
      !policy.automaticRetentionReleaseAuthorized then
    ⟨.review, "automatic-retention-release-gate",
      "automatic retention remains disabled until approved private evidence and a reviewed runtime release gate exist", false⟩
  else if retainable ∧ policy.autoRetainMinImportance ≤ realValue candidate.importance ∧
      policy.preferences.allowAutoRetain ∧ policy.automaticRetentionReleaseAuthorized then
    ⟨.autoRetain, "thresholds-met",
      "candidate is non-sensitive, in-scope, non-conflicting, and meets automatic retention thresholds", false⟩
  else if context.explicitApproval then
    ⟨.approve, "explicit-approval",
      "an authorized reviewer explicitly approved canonical retention", false⟩
  else
    ⟨.review, "review-required",
      "candidate requires explicit review before canonical retention", false⟩

/-- The priority of a candidate in the queue. -/
def queuePriority (candidate : MemoryCandidate) : ℕ :=
  max 1 (min 8 (⌊realValue candidate.importance * 4 + realValue candidate.confidence * 4 +
    1 / 2⌋).toNat)

/-- `evaluate`. -/
def evaluate (codec : ConsolidationCodec) (now : ℤ) (candidate : MemoryCandidate)
    (classification : CandidateClassification) (policy : ConsolidationPolicy)
    (context : PolicyContext) : Except String ConsolidationDecisionReport := do
  policy.validate
  let verdict := verdictFor codec.toCodec now candidate classification.classification policy context
  let expiry := match verdict.decision with
    | .working => some (codec.rfc3339 (now + daysSpan policy.ceilings.maxWorkingDays))
    | .autoRetain | .approve => some (codec.rfc3339 (now + daysSpan policy.ceilings.maxDurableDays))
    | .review | .reject => (codec.instant candidate.expiresAt).map codec.rfc3339
  let policyVersion ← policy.identity codec
  return {
    candidateId := candidate.id
    policyVersion := policyVersion
    decision := verdict.decision
    classification := classification.classification
    reasonCode := verdict.reasonCode
    explanation := verdict.explanation
    queuePriority := if verdict.urgent then 8 else queuePriority candidate
    expiresAt := expiry }

end Cortana
