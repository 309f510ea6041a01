import Cortana.Consolidation.Policy

/-!
# Candidates and their jobs

The tables `memory_candidates`, `memory_consolidation_jobs` and
`memory_consolidation_control` beside the store, and the operations of
`observation.rs` and `store.rs` on them other than the consolidation itself.
-/

namespace Cortana

open ByteText

/-! ## Rows -/

/-- `status` of `memory_consolidation_jobs`. -/
inductive JobStatus where
  | queued
  | running
  | retry
  | paused
  | complete
  | cancelled
  | deadLetter
deriving DecidableEq

namespace JobStatus

def asStr : JobStatus → String
  | queued => "queued"
  | running => "running"
  | retry => "retry"
  | paused => "paused"
  | complete => "complete"
  | cancelled => "cancelled"
  | deadLetter => "dead-letter"

/-- `status IN ('queued','running','retry','paused')`. -/
def active : JobStatus → Bool
  | queued | running | retry | paused => true
  | complete | cancelled | deadLetter => false

/-- `status IN ('queued','retry')`. -/
def claimable : JobStatus → Bool
  | queued | retry => true
  | running | paused | complete | cancelled | deadLetter => false

end JobStatus

/-- The columns of a job that are updated. -/
structure JobState where
  classification : String
  decision : ConsolidationDecision
  status : JobStatus
  attempts : ℕ
  lastError : Option String
  memoryId : Option String
  reasonCode : String
  explanation : String
  supportingMemoryIds : List String
  updatedAt : String

/-- A row of `memory_consolidation_jobs`. -/
structure ConsolidationJob extends JobState where
  id : String
  candidateId : String
  policyVersion : String
  priority : ℕ
  createdAt : String

namespace ConsolidationJob

/-- `UPDATE` of one row. -/
def updateIf (p : ConsolidationJob → Bool) (f : JobState → JobState) (job : ConsolidationJob) :
    ConsolidationJob :=
  ⟨if p job then f job.toJobState else job.toJobState, job.id, job.candidateId,
    job.policyVersion, job.priority, job.createdAt⟩

theorem id_updateIf (p : ConsolidationJob → Bool) (f : JobState → JobState)
    (job : ConsolidationJob) : (updateIf p f job).id = job.id := rfl

end ConsolidationJob

/-- The tables; the flag is `paused` of `memory_consolidation_control`. -/
structure CandidateStore where
  store : Store
  candidates : Table MemoryCandidate.id
  jobs : Table ConsolidationJob.id
  paused : Bool

/-- The principal on whose behalf a candidate is reviewed. -/
structure Reviewer where
  principalId : String
  principalAcl : List String
  owner : Bool

/-- A reading of the clock, as a text and in nanoseconds. -/
structure Moment where
  text : String
  instant : ℤ

/-! ## Observations -/

inductive ObservationKind where
  | harnessScratchpad
  | executionEvent
  | evidenceBacked
  | userAuthored
deriving DecidableEq

def ObservationKind.asStr : ObservationKind → String
  | harnessScratchpad => "harness-scratchpad"
  | executionEvent => "execution-event"
  | evidenceBacked => "evidence-backed"
  | userAuthored => "user-authored"

def ObservationKind.parse (value : String) : Except String ObservationKind :=
  match normalizedName value with
  | "harness-scratchpad" | "scratchpad" => .ok harnessScratchpad
  | "execution-event" | "execution" => .ok executionEvent
  | "evidence-backed" | "evidence" => .ok evidenceBacked
  | "user-authored" | "user" => .ok userAuthored
  | other => .error ("unsupported observation kind `" ++ other ++
      "`; expected harness-scratchpad, execution-event, evidence-backed, or user-authored")

inductive CandidateSensitivity where
  | normal
  | sensitive
  | restricted
deriving DecidableEq

def CandidateSensitivity.asStr : CandidateSensitivity → String
  | normal => "normal"
  | sensitive => "sensitive"
  | restricted => "restricted"

def CandidateSensitivity.parse (value : String) : Except String CandidateSensitivity :=
  match normalizedName value with
  | "normal" | "standard" => .ok normal
  | "sensitive" => .ok sensitive
  | "restricted" => .ok restricted
  | other => .error ("unsupported candidate sensitivity `" ++ other ++
      "`; expected normal, sensitive, or restricted")

/-- `ObservationCandidateInput`. -/
structure ObservationCandidateInput where
  observationKind : String
  contentType : String
  retentionTier : String
  scope : String
  project : String
  title : String
  content : String
  source : String
  sourceId : String
  dedupeKey : Option String
  confidence : UInt64
  importance : UInt64
  sensitivity : String
  acl : List String
  provenance : Value
  expiresAt : String

structure ValidatedCandidate where
  observationKind : ObservationKind
  contentType : MemoryContentType
  retentionTier : MemoryRetentionTier
  scope : MemoryScope
  sensitivity : CandidateSensitivity
  acl : List String
  provenance : Value
  expiresAt : String

/-- `Value::is_object`. -/
def Value.isObject : Value → Bool
  | .object _ => true
  | _ => false

/-- The instant of `expires_at`. -/
def parseExpiry (codec : Codec) (expiresAt : String) : Except String ℤ :=
  match codec.normalizeInstant expiresAt, codec.instant expiresAt with
  | .ok _, some instant => .ok instant
  | .error e, _ => .error ("expires_at must be RFC3339: " ++ e)
  | .ok _, none => .error "expires_at must be RFC3339: premature end of input"

/-- `validate_input` of `observation.rs`. -/
def validateObservation (codec : ConsolidationCodec) (input : ObservationCandidateInput)
    (now : ℤ) : Except String ValidatedCandidate := do
  let observationKind ← ObservationKind.parse input.observationKind
  let contentType ← MemoryContentType.parse input.contentType
  let retentionTier ← MemoryRetentionTier.parse input.retentionTier
  let scope ← MemoryScope.parse input.scope
  let sensitivity ← CandidateSensitivity.parse input.sensitivity
  validateText "project" input.project 256
  validateText "title" input.title 256
  validateText "content" input.content 8192
  validateText "source" input.source 128
  validateText "source_id" input.sourceId 512
  validateOptionalText "dedupe_key" input.dedupeKey 512
  Except.require (inUnitInterval input.confidence)
    "confidence must be a finite number between 0 and 1"
  Except.require (inUnitInterval input.importance)
    "importance must be a finite number between 0 and 1"
  Except.require (input.provenance.isObject) "candidate provenance must be a JSON object"
  Except.require ((codec.jsonText input.provenance).utf8ByteSize ≤ 4096)
    "candidate provenance exceeds 4096 bytes"
  let acl ← normalizeAcl input.project input.acl
  let expiresAt ← parseExpiry codec.toCodec input.expiresAt
  Except.require (now < expiresAt) "expires_at must be in the future"
  Except.require (expiresAt ≤ now + daysSpan 7) "candidate expiry cannot exceed 7 days"
  return {
    observationKind := observationKind
    contentType := contentType
    retentionTier := retentionTier
    scope := scope
    sensitivity := sensitivity
    acl := acl
    provenance := input.provenance
    expiresAt := codec.rfc3339Millis expiresAt }

/-- The pending row of a proposal. -/
def proposedCandidate (id principalId now : String) (input : ObservationCandidateInput)
    (valid : ValidatedCandidate) : MemoryCandidate where
  id := id
  observationKind := valid.observationKind.asStr
  contentType := valid.contentType.asStr
  retentionTier := valid.retentionTier.asStr
  scope := valid.scope.asStr
  createdBy := principalId
  project := input.project
  title := input.title
  content := input.content
  source := input.source
  sourceId := input.sourceId
  dedupeKey := input.dedupeKey
  confidence := input.confidence
  importance := input.importance
  sensitivity := valid.sensitivity.asStr
  status := "pending"
  acl := valid.acl
  provenance := valid.provenance
  expiresAt := valid.expiresAt
  rejectionReason := none
  createdAt := now
  updatedAt := now

namespace CandidateStore

/-- A store without candidates. -/
def new (store : Store) : CandidateStore where
  store := store
  candidates := Table.empty _
  jobs := Table.empty _
  paused := false

/-! ## Updates -/

/-- `UPDATE memory_consolidation_jobs … WHERE`. -/
def updateJobs (s : CandidateStore) (p : ConsolidationJob → Bool) (f : JobState → JobState) :
    CandidateStore :=
  { s with jobs := s.jobs.modify (ConsolidationJob.updateIf p f) (ConsolidationJob.id_updateIf p f) }

/-- `UPDATE memory_candidates … WHERE id=?1 AND status='pending'`; nothing when no
row was changed. -/
def updatePending (s : CandidateStore) (id : String) (f : MemoryCandidate → MemoryCandidate) :
    Option CandidateStore :=
  match s.candidates.get id with
  | none => none
  | some candidate =>
      if candidate.status = "pending" then
        some { s with candidates := s.candidates.put (f candidate) }
      else none

/-- Close the open jobs of a candidate. -/
def cancelJobs (s : CandidateStore) (id lastError now : String) : CandidateStore :=
  s.updateJobs (fun job ↦ job.candidateId = id ∧ job.status.active) fun job ↦
    { job with status := .cancelled, lastError := some lastError, updatedAt := now }

/-- A pending candidate that has expired. -/
def overdue (codec : ConsolidationCodec) (now : String) (candidate : MemoryCandidate) : Bool :=
  candidate.status = "pending" ∧ codec.julianReached candidate.expiresAt now

/-- `expire_memory_candidates`. -/
def expireMemoryCandidates (codec : ConsolidationCodec) (s : CandidateStore) (now : String) :
    CandidateStore :=
  let closed := s.updateJobs
    (fun job ↦ job.status.active ∧ (s.candidates.get job.candidateId).any (overdue codec now))
    fun job ↦ { job with
      status := .deadLetter, lastError := some "candidate-expired", updatedAt := now }
  { closed with
    candidates := s.candidates.modify
      (fun candidate ↦
        if overdue codec now candidate then { candidate with status := "expired", updatedAt := now }
        else candidate)
      (fun candidate ↦ by split <;> rfl) }

/-! ## Authorization -/

/-- Who may review a candidate. -/
def checkReviewer (candidate : MemoryCandidate) (reviewer : Reviewer) : Except String Unit := do
  Except.require (reviewer.owner ∨ aclAllows candidate.acl reviewer.principalAcl)
    "candidate ACL denied"
  let scope ← MemoryScope.parse candidate.scope
  Except.require
    (scope ≠ .principal ∨ candidate.createdBy = reviewer.principalId ∨ reviewer.owner)
    "candidate ACL denied"
  Except.require (scope ≠ .ownerGlobal ∨ reviewer.owner)
    "owner-global candidate scope requires owner authorization"

/-- `memory_candidate` and the check that its callers make. -/
def readCandidate (s : CandidateStore) (id : String) (reviewer : Reviewer) :
    Except String MemoryCandidate :=
  match s.candidates.get id with
  | none => .error "memory candidate not found"
  | some candidate => do
      checkReviewer candidate reviewer
      return candidate

/-! ## Operations -/

/-- The proposal is the one the stored candidate was made from. -/
def sameProposal (codec : Codec) (existing proposed : MemoryCandidate) : Bool :=
  existing.status = "pending" ∧ existing.observationKind = proposed.observationKind ∧
    existing.contentType = proposed.contentType ∧
    existing.retentionTier = proposed.retentionTier ∧ existing.scope = proposed.scope ∧
    existing.title = proposed.title ∧ existing.content = proposed.content ∧
    existing.source = proposed.source ∧ existing.sourceId = proposed.sourceId ∧
    realEq existing.confidence proposed.confidence ∧
    realEq existing.importance proposed.importance ∧
    existing.sensitivity = proposed.sensitivity ∧ existing.acl = proposed.acl ∧
    codec.jsonText existing.provenance = codec.jsonText proposed.provenance ∧
    existing.expiresAt = proposed.expiresAt

/-- The candidate with the dedupe key of a proposal. -/
def candidateByDedupeKey (s : CandidateStore) (proposed : MemoryCandidate) :
    Option MemoryCandidate :=
  match proposed.dedupeKey with
  | none => none
  | some key => s.candidates.rows.find? fun c ↦
      c.project = proposed.project ∧ c.scope = proposed.scope ∧
        c.createdBy = proposed.createdBy ∧ c.dedupeKey = some key

/-- `propose_memory_candidate` with a fresh id. -/
def proposeMemoryCandidate (codec : ConsolidationCodec) (s : CandidateStore)
    (input : ObservationCandidateInput) (reviewer : Reviewer) (id : String) (now : Moment) :
    Except String CandidateStore := do
  let valid ← validateObservation codec input now.instant
  Except.require (valid.sensitivity = .normal)
    "candidate rejected: sensitive observations require explicit review and are not accepted by the bounded capture path"
  Except.require (valid.scope ≠ .ownerGlobal ∨ reviewer.owner)
    "owner-global candidate scope requires owner authorization"
  Except.require (valid.scope ≠ .session)
    "session candidate scope requires a session identity binding and is not yet supported"
  Except.require (trim reviewer.principalId.toList ≠ []) "candidate principal is required"
  Except.require (reviewer.owner ∨ aclAllows valid.acl reviewer.principalAcl)
    "candidate ACL denied"
  let s := s.expireMemoryCandidates codec now.text
  let proposed := proposedCandidate id reviewer.principalId now.text input valid
  match s.candidateByDedupeKey proposed with
  | some existing => do
      Except.require (sameProposal codec.toCodec existing proposed)
        "candidate dedupe key already belongs to a different proposal"
      return s
  | none => do
      let activeCount := s.candidates.rows.countP fun c ↦
        c.project = input.project ∧ c.status = "pending" ∧
          codec.julianAfter c.expiresAt now.text
      Except.require (activeCount < 1000)
        "candidate limit reached for project; review, cancel, or expire pending observations"
      let recentCount := s.candidates.rows.countP fun c ↦
        c.createdBy = reviewer.principalId ∧ codec.julianWithinHour c.createdAt now.text
      Except.require (recentCount < 100)
        "candidate rate limit reached; retry after the bounded review window"
      Except.require ((s.candidates.get id).isNone)
        "UNIQUE constraint failed: memory_candidates.id"
      return { s with candidates := s.candidates.put proposed }

/-- What an edit makes of the candidate, for its validation. -/
def editedInput (candidate : MemoryCandidate) (title content : String) :
    ObservationCandidateInput where
  observationKind := candidate.observationKind
  contentType := candidate.contentType
  retentionTier := candidate.retentionTier
  scope := candidate.scope
  project := candidate.project
  title := title
  content := content
  source := candidate.source
  sourceId := candidate.sourceId
  dedupeKey := candidate.dedupeKey
  confidence := candidate.confidence
  importance := candidate.importance
  sensitivity := candidate.sensitivity
  acl := candidate.acl
  provenance := candidate.provenance
  expiresAt := candidate.expiresAt

/-- `edit_memory_candidate_scoped`. -/
def editMemoryCandidateScoped (codec : ConsolidationCodec) (s : CandidateStore)
    (id title content : String) (reviewer : Reviewer) (now : Moment) :
    Except String CandidateStore :=
  let s := s.expireMemoryCandidates codec now.text
  match s.candidates.get id with
  | none => .ok s
  | some candidate => do
      checkReviewer candidate reviewer
      let _ ← validateObservation codec (editedInput candidate title content) now.instant
      match s.updatePending id fun c ↦
          { c with title := title, content := content, updatedAt := now.text } with
      | none => return s
      | some edited => return edited.cancelJobs id "candidate-edited" now.text

/-- `set_memory_candidate_working_scoped`. -/
def setMemoryCandidateWorkingScoped (codec : ConsolidationCodec) (s : CandidateStore)
    (id : String) (reviewer : Reviewer) (now : String) : Except String CandidateStore :=
  let s := s.expireMemoryCandidates codec now
  match s.candidates.get id with
  | none => .ok s
  | some candidate => do
      checkReviewer candidate reviewer
      match s.updatePending id fun c ↦ { c with retentionTier := "working", updatedAt := now } with
      | none => return s
      | some changed => return changed.cancelJobs id "candidate-retention-changed" now

/-- The job that a retry picks: the one of the candidate that was updated last. -/
def retriedJob (s : CandidateStore) (id : String) : Option ConsolidationJob :=
  ((s.jobs.rows.filter fun job ↦
    job.candidateId = id ∧ (job.status = .deadLetter ∨ job.status = .retry)).insertionSort
      fun a b ↦ b.updatedAt < a.updatedAt ∨ (b.updatedAt = a.updatedAt ∧ b.id ≤ a.id)).head?

/-- `retry_memory_candidate_scoped`. -/
def retryMemoryCandidateScoped (codec : ConsolidationCodec) (s : CandidateStore) (id : String)
    (reviewer : Reviewer) (now : Moment) : Except String CandidateStore := do
  Except.require (s.paused = false) "memory consolidation is paused"
  match s.candidates.get id with
  | none => .error "memory candidate not found"
  | some candidate => do
      Except.require (candidate.status = "pending") "candidate is no longer pending"
      Except.require ((codec.instant candidate.expiresAt).isSome) "candidate expiry is invalid"
      Except.require ((codec.instant candidate.expiresAt).any (now.instant < ·))
        "candidate is expired"
      checkReviewer candidate reviewer
      match s.retriedJob id with
      | none => return s
      | some job => return s.updateJobs (fun j ↦ j.id = job.id) fun j ↦
          { j with status := .queued, attempts := 0, lastError := none, updatedAt := now.text }

/-- `update_memory_candidate_status`. -/
def updateMemoryCandidateStatus (s : CandidateStore) (id status : String) (reviewer : Reviewer)
    (redact : Bool) (now : String) : Except String CandidateStore :=
  match s.candidates.get id with
  | none => .ok s
  | some candidate =>
      if candidate.status ≠ "pending" then .ok s
      else do
        -- Unlike the other reviews, the owner is not let through to the
        -- principal scope of someone else.
        Except.require ((reviewer.owner ∨ candidate.scope ≠ "owner-global") ∧
            (candidate.scope ≠ "principal" ∨ candidate.createdBy = reviewer.principalId) ∧
            (reviewer.owner ∨ aclAllows candidate.acl reviewer.principalAcl))
          "candidate ACL denied"
        let changed := s.updatePending id fun c ↦
          if redact then
            { c with
              status := status, content := "", provenance := .object []
              rejectionReason := some "redacted", updatedAt := now }
          else { c with status := status, updatedAt := now }
        match changed with
        | none => return s
        | some closed => return closed.cancelJobs id status now

/-- `cancel_memory_candidate_scoped`. -/
def cancelMemoryCandidateScoped (s : CandidateStore) (id : String) (reviewer : Reviewer)
    (now : String) : Except String CandidateStore :=
  s.updateMemoryCandidateStatus id "cancelled" reviewer false now

/-- `redact_memory_candidate_scoped`. -/
def redactMemoryCandidateScoped (s : CandidateStore) (id : String) (reviewer : Reviewer)
    (now : String) : Except String CandidateStore :=
  s.updateMemoryCandidateStatus id "redacted" reviewer true now

/-- `pause_memory_consolidation`. -/
def pauseMemoryConsolidation (s : CandidateStore) (now : String) : CandidateStore :=
  let gated : CandidateStore := { s with paused := true }
  gated.updateJobs (fun job ↦ job.status = .queued ∨ job.status = .retry ∨ job.status = .running)
    fun job ↦ { job with status := .paused, updatedAt := now }

/-- `resume_memory_consolidation`. -/
def resumeMemoryConsolidation (s : CandidateStore) (now : String) : CandidateStore :=
  let released : CandidateStore := { s with paused := false }
  released.updateJobs (fun job ↦ job.status = .paused)
    fun job ↦ { job with status := .queued, updatedAt := now }

end CandidateStore

end Cortana
