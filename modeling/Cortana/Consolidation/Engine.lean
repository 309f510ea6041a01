import Cortana.Consolidation.Jobs

/-!
# Consolidation

`consolidate_memory_candidate_with_action` of `store.rs`: the reads that review
a candidate, the transaction that schedules its job, the one that promotes it,
and the write after a promotion that failed.  Other calls may come between any
two of them.
-/

namespace Cortana

open Store (ObservationCandidate PromotingDecision ConsolidationReport MemoryCall promotedInput)

/-! ## A call -/

/-- The arguments of a call, the ids it draws and its readings of the clock. -/
structure ConsolidateCall where
  id : String
  policy : ConsolidationPolicy
  reviewer : Reviewer
  explicitApproval : Bool
  explicitSupersession : Bool
  jobId : String
  memoryId : String
  expiredAt : String
  classifiedAt : Moment
  evaluatedAt : ℤ
  now : Moment
  rememberedAt : String
  changedAt : String
  failedAt : String

/-- What the reads of a call yield. -/
structure Review where
  candidate : MemoryCandidate
  classification : CandidateClassification
  report : ConsolidationDecisionReport

/-- `ConsolidationOutcome`. -/
structure ConsolidationOutcome where
  candidateId : String
  status : String
  decision : ConsolidationDecisionReport
  memoryId : Option String
  attempts : ℕ

/-- The call is over, or its job is scheduled. -/
inductive Scheduled where
  | finished (outcome : ConsolidationOutcome)
  | scheduled (jobId : String)

/-- The call is over, or its memory was refused on this attempt. -/
inductive Promoted where
  | finished (outcome : ConsolidationOutcome)
  | refused (nextAttempt : ℕ)

namespace ConsolidationDecision

/-- A decision that makes a memory. -/
def promoting : ConsolidationDecision → Option PromotingDecision
  | autoRetain => some .autoRetain
  | approve => some .approve
  | working => some .working
  | review | reject => none

end ConsolidationDecision

/-- The candidate as its promotion reads it. -/
def MemoryCandidate.observed (candidate : MemoryCandidate) : ObservationCandidate where
  contentType := candidate.contentType
  retentionTier := candidate.retentionTier
  scope := candidate.scope
  project := candidate.project
  title := candidate.title
  content := candidate.content
  source := candidate.source
  sourceId := candidate.sourceId
  dedupeKey := candidate.dedupeKey
  confidence := candidate.confidence
  importance := candidate.importance
  acl := candidate.acl
  provenance := candidate.provenance
  pending := candidate.status = "pending"

/-- Who remembers the memory of a call. -/
def ConsolidateCall.memoryCall (call : ConsolidateCall) : MemoryCall where
  principalAcl := call.reviewer.principalAcl
  owner := call.reviewer.owner
  freshId := call.memoryId
  now := call.rememberedAt
  changedAt := call.changedAt

/-- The memory of a review. -/
def Review.consolidation (review : Review) (decision : PromotingDecision) : ConsolidationReport where
  policyVersion := review.report.policyVersion
  classification := review.classification.classification
  decision := decision
  reasonCode := review.report.reasonCode
  supportingMemoryIds := review.classification.supportingMemoryIds
  expiresAt := review.report.expiresAt

/-- The axes of the memory of a review. -/
def Review.axes (review : Review) : Except String MemoryAxes :=
  MemoryAxes.withOverrides review.candidate.contentType review.candidate.contentType
    (if review.report.decision = .working then "working" else review.candidate.retentionTier)
    review.candidate.scope

/-! ## The reads -/

/-- `memory_record_from_row` of a row whose ACL is an array of texts. -/
def MemoryRow.record (row : MemoryRow) (acl : List String) : MemoryRecord where
  id := row.id
  contentType := row.contentType
  retentionTier := row.retentionTier
  scope := row.scope
  project := row.project
  title := row.title
  content := row.content
  status := row.status
  acl := acl
  validFrom := row.validFrom
  validUntil := row.validUntil

/-- `export_memories_with_axes` and `export_memories_with_axes_as_owner`, which
sees every ACL. -/
def Store.exportMemoriesWithAxes (codec : ConsolidationCodec) (s : Store)
    (project contentType retentionTier scope : String) (principalAcl : List String) (owner : Bool) :
    Except String (List MemoryRecord) := do
  let contentType ← MemoryContentType.parse contentType
  let retentionTier ← MemoryRetentionTier.parse retentionTier
  let scope ← MemoryScope.parse scope
  Except.require (scope ≠ .ownerGlobal ∨ owner)
    "owner-global memory scope requires owner authorization"
  let acl := if owner then ["*"] else principalAcl
  let rows := (s.memories.rows.filter fun m ↦
    m.project = project ∧ m.contentType = contentType.asStr ∧
      m.retentionTier = retentionTier.asStr ∧ m.scope = scope.asStr ∧
      (owner ∨ m.scope ≠ "owner-global") ∧
      (codec.parseAcl m.aclJson).toOption.any (aclAllows · acl)).insertionSort
        fun a b ↦ b.updatedAt < a.updatedAt ∨ (b.updatedAt = a.updatedAt ∧ b.id ≤ a.id)
  (rows.take 100000).mapM fun m ↦ do
    let acl ← codec.parseAcl m.aclJson
    Except.require (codec.validJson m.provenanceJson) "invalid memory provenance"
    return m.record acl

namespace CandidateStore

/-- `classify_memory_candidate` after its expiry of candidates. -/
def classifyMemoryCandidate (codec : ConsolidationCodec) (s : CandidateStore) (id : String)
    (reviewer : Reviewer) (now : ℤ) : Except String CandidateClassification :=
  match s.candidates.get id with
  | none => .error "memory candidate not found"
  | some candidate => do
      Except.require (reviewer.owner ∨ aclAllows candidate.acl reviewer.principalAcl)
        "candidate ACL denied"
      Except.require (candidate.sensitivity = CandidateSensitivity.normal.asStr)
        "sensitive candidates require explicit review and cannot be classified"
      let scope ← MemoryScope.parse candidate.scope
      Except.require
        (scope ≠ .principal ∨ candidate.createdBy = reviewer.principalId ∨ reviewer.owner)
        "candidate ACL denied"
      Except.require (scope ≠ .ownerGlobal ∨ reviewer.owner)
        "owner-global candidate scope requires owner authorization"
      let memories ← s.store.exportMemoriesWithAxes codec candidate.project candidate.contentType
        candidate.retentionTier candidate.scope reviewer.principalAcl reviewer.owner
      return classify codec.toCodec now candidate memories

/-- The classification and the decision about a candidate that was read before. -/
def reviewCandidate (codec : ConsolidationCodec) (s : CandidateStore) (call : ConsolidateCall)
    (candidate : MemoryCandidate) : Except String Review := do
  let classification ←
    s.classifyMemoryCandidate codec call.id call.reviewer call.classifiedAt.instant
  let scope ← MemoryScope.parse candidate.scope
  let report ← evaluate codec call.evaluatedAt candidate classification call.policy
    { explicitApproval := call.explicitApproval
      explicitSupersession := call.explicitSupersession
      sameScope := scope ≠ .principal ∨ candidate.createdBy = call.reviewer.principalId }
  return ⟨candidate, classification, report⟩

/-! ## The scheduling transaction -/

/-- A full memory turns a promotion into a review. -/
def withinCapacity (codec : ConsolidationCodec) (s : CandidateStore) (call : ConsolidateCall)
    (report : ConsolidationDecisionReport) : ConsolidationDecisionReport :=
  let activeCeiling := min call.policy.ceilings.maxActive s.store.memoryMaxActive
  if activeCeiling ≤ s.store.activeCount codec.toCodec call.now.text ∧ report.decision.retains then
    { report with
      decision := .review
      reasonCode := "capacity"
      explanation := "active memory capacity is full; review, expire, forget, or supersede a record first" }
  else report

/-- The job of a candidate under a policy identity. -/
def jobOf (s : CandidateStore) (id policyVersion : String) : Option ConsolidationJob :=
  s.jobs.rows.find? fun job ↦ job.candidateId = id ∧ job.policyVersion = policyVersion

/-- The finished job of a candidate under a policy identity. -/
def terminalJobOf (s : CandidateStore) (id policyVersion : String) : Option ConsolidationJob :=
  s.jobs.rows.find? fun job ↦
    job.candidateId = id ∧ job.policyVersion = policyVersion ∧ job.status.active = false

/-- `INSERT INTO memory_consolidation_jobs`. -/
def insertJob (s : CandidateStore) (job : ConsolidationJob) : Except String CandidateStore := do
  Except.require ((s.jobs.get job.id).isNone) "UNIQUE constraint failed: memory_consolidation_jobs.id"
  Except.require ((s.jobOf job.candidateId job.policyVersion).isNone)
    "UNIQUE constraint failed: memory_consolidation_jobs.candidate_id, memory_consolidation_jobs.policy_version"
  return { s with jobs := s.jobs.put job }

/-- The job of a report. -/
def reportedJob (call : ConsolidateCall) (review : Review) (report : ConsolidationDecisionReport)
    (policyIdentity : String) (status : JobStatus) (lastError : Option String) :
    ConsolidationJob where
  id := call.jobId
  candidateId := call.id
  policyVersion := policyIdentity
  classification := report.classification
  decision := report.decision
  status := status
  priority := report.queuePriority
  attempts := 0
  lastError := lastError
  memoryId := none
  reasonCode := report.reasonCode
  explanation := report.explanation
  supportingMemoryIds := review.classification.supportingMemoryIds
  createdAt := call.now.text
  updatedAt := call.now.text

/-- Close the open jobs of the candidate under other policies. -/
def cancelStaleJobs (s : CandidateStore) (call : ConsolidateCall) (policyIdentity : String) :
    CandidateStore :=
  s.updateJobs
    (fun job ↦ job.candidateId = call.id ∧ job.policyVersion ≠ policyIdentity ∧ job.status.active)
    fun job ↦ { job with
      status := .cancelled, lastError := some "superseded-policy", updatedAt := call.now.text }

/-- Give the open jobs of the candidate under a policy identity another status. -/
def closeJobs (s : CandidateStore) (call : ConsolidateCall) (policyVersion : String)
    (status : JobStatus) (lastError : String) : CandidateStore :=
  s.updateJobs
    (fun job ↦ job.candidateId = call.id ∧ job.policyVersion = policyVersion ∧ job.status.active)
    fun job ↦ { job with
      status := status, lastError := some lastError, updatedAt := call.now.text }

/-- A candidate that is no longer pending: its job is closed, or a closed one is
left for it. -/
def reconcile (s : CandidateStore) (call : ConsolidateCall) (review : Review)
    (report : ConsolidationDecisionReport) (policyIdentity : String) :
    Except String (CandidateStore × ConsolidationOutcome) :=
  let legacyTerminal := s.terminalJobOf call.id call.policy.version
  let reconciledStatus : JobStatus :=
    if review.candidate.status = "accepted" then .cancelled else .deadLetter
  let lastError := "candidate-terminal:" ++ review.candidate.status
  let s := s.closeJobs call policyIdentity reconciledStatus lastError
  match legacyTerminal with
  | some job => .ok (s, ⟨call.id, job.status.asStr, report, job.memoryId, job.attempts⟩)
  | none =>
      -- The first update has left no open job for this one.
      let reconciled := s.jobs.rows.countP fun job ↦
        job.candidateId = call.id ∧ job.policyVersion = policyIdentity ∧ job.status.active
      let s := s.closeJobs call policyIdentity reconciledStatus lastError
      if 0 < reconciled then .ok (s, ⟨call.id, reconciledStatus.asStr, report, none, 0⟩)
      else
        match s.terminalJobOf call.id policyIdentity with
        | some job => .ok (s, ⟨call.id, job.status.asStr, report, job.memoryId, job.attempts⟩)
        | none => do
            let s ← s.insertJob (reportedJob call review report policyIdentity reconciledStatus
              (some lastError))
            return (s, ⟨call.id, reconciledStatus.asStr, report, none, 0⟩)

/-- The time of waiting after a failure is over. -/
def retryReady (codec : ConsolidationCodec) (call : ConsolidateCall) (job : ConsolidationJob) :
    Bool :=
  (codec.instant job.updatedAt).any fun instant ↦
    instant + secondsSpan call.policy.retryBackoffSeconds ≤ call.now.instant

/-- The job is returned as it is. -/
def existingOutcome (call : ConsolidateCall) (report : ConsolidationDecisionReport)
    (job : ConsolidationJob) : ConsolidationOutcome :=
  ⟨call.id, job.status.asStr, report, job.memoryId, job.attempts⟩

/-- The job is queued again with the new report. -/
def requeueJob (s : CandidateStore) (call : ConsolidateCall) (review : Review)
    (report : ConsolidationDecisionReport) (jobId : String) : CandidateStore :=
  s.updateJobs (fun job ↦ job.id = jobId) fun job ↦
    { job with
      status := .queued
      classification := report.classification
      decision := report.decision
      lastError := none
      updatedAt := call.now.text
      reasonCode := report.reasonCode
      explanation := report.explanation
      supportingMemoryIds := review.classification.supportingMemoryIds }

/-- The review of a scheduled job goes to a person, and otherwise the call goes
on with the job. -/
def parkReview (s : CandidateStore) (call : ConsolidateCall) (review : Review)
    (report : ConsolidationDecisionReport) (jobId : String) : CandidateStore × Scheduled :=
  if report.decision = .review then
    (s.updateJobs (fun job ↦ job.id = jobId ∧ job.status.active) fun job ↦
      { job with
        status := .paused
        classification := report.classification
        decision := report.decision
        updatedAt := call.now.text
        reasonCode := report.reasonCode
        explanation := report.explanation
        supportingMemoryIds := review.classification.supportingMemoryIds },
      .finished ⟨call.id, "review", report, none, 0⟩)
  else (s, .scheduled jobId)

/-- The job of a pending candidate is queued again, made, or left as it is. -/
def schedulePending (codec : ConsolidationCodec) (s : CandidateStore) (call : ConsolidateCall)
    (review : Review) (report : ConsolidationDecisionReport) (policyIdentity : String) :
    Except String (CandidateStore × Scheduled) :=
  let s := s.closeJobs call call.policy.version .cancelled "legacy-policy-identity-unknown"
  match s.jobOf call.id policyIdentity with
  | some job =>
      if job.status = .retry ∧ report.decision ≠ .review ∧ !retryReady codec call job then
        .ok (s, .finished (existingOutcome call report job))
      else if job.status = .retry ∨ job.status = .queued ∨ job.status = .running ∨
          (call.explicitApproval ∧ job.status = .paused ∧ report.decision.retains) then
        .ok ((s.requeueJob call review report job.id).parkReview call review report job.id)
      else .ok (s, .finished (existingOutcome call report job))
  | none => do
      let queuedCount := s.jobs.rows.countP fun job ↦ job.status.active
      Except.require (queuedCount < call.policy.maxQueue) "consolidation queue is full"
      let s ← s.insertJob (reportedJob call review report policyIdentity
        (if report.decision = .review then .paused else .queued) none)
      return s.parkReview call review report call.jobId

/-- The first transaction of a call. -/
def schedule (codec : ConsolidationCodec) (s : CandidateStore) (call : ConsolidateCall)
    (review : Review) : Except String (CandidateStore × Scheduled) := do
  let policyIdentity ← call.policy.identity codec
  Except.require (s.paused = false) "memory consolidation is paused"
  let report := s.withinCapacity codec call review.report
  let s := s.cancelStaleJobs call policyIdentity
  if review.candidate.status ≠ "pending" then
    let (s, outcome) ← s.reconcile call review report policyIdentity
    return (s, .finished outcome)
  else s.schedulePending codec call review report policyIdentity

/-! ## The promotion transaction -/

/-- Start the next attempt of a job; its number is returned. -/
def claimJob (s : CandidateStore) (jobId now : String) : Except String (CandidateStore × ℕ) :=
  match s.jobs.get jobId with
  | none => .error "Query returned no rows"
  | some job => do
      let nextAttempt := job.attempts + 1
      Except.require job.status.claimable
        "consolidation job was paused or cancelled before execution"
      return (s.updateJobs (fun j ↦ j.id = jobId ∧ j.status.claimable) fun j ↦
        { j with status := .running, attempts := nextAttempt, updatedAt := now }, nextAttempt)

/-- Take a pending candidate out of review. -/
def closeCandidate (s : CandidateStore) (id : String)
    (f : MemoryCandidate → MemoryCandidate) : Except String CandidateStore :=
  match s.updatePending id f with
  | none => .error "candidate changed state before consolidation committed"
  | some s => .ok s

/-- The second transaction of a call.  A memory that is refused rolls it back. -/
def promote (codec : ConsolidationCodec) (s : CandidateStore) (call : ConsolidateCall)
    (review : Review) (jobId : String) : Except String (CandidateStore × Promoted) := do
  let (claimed, nextAttempt) ← s.claimJob jobId call.now.text
  match review.report.decision.promoting with
  | some decision => do
      let axes ← review.axes
      match claimed.store.rememberInTransaction codec.toCodec call.memoryCall
          (promotedInput review.candidate.observed (review.consolidation decision) axes)
          axes with
      | .error _ => return (s, .refused nextAttempt)
      | .ok (store, memoryId) => do
          let accepted ← { claimed with store := store }.closeCandidate call.id fun c ↦
            { c with status := "accepted", updatedAt := call.now.text }
          let completed := accepted.updateJobs (fun j ↦ j.id = jobId) fun j ↦
            { j with status := .complete, memoryId := some memoryId, updatedAt := call.now.text }
          return (completed,
            .finished ⟨call.id, "accepted", review.report, some memoryId, nextAttempt⟩)
  | none =>
      if review.report.decision = .reject then do
        let rejected ← claimed.closeCandidate call.id fun c ↦
          { c with
            status := "rejected"
            rejectionReason := some review.report.reasonCode
            updatedAt := call.now.text }
        let closed := rejected.updateJobs (fun j ↦ j.id = jobId) fun j ↦
          { j with
            status := .deadLetter
            lastError := some review.report.reasonCode
            updatedAt := call.now.text }
        return (closed, .finished ⟨call.id, "rejected", review.report, none, nextAttempt⟩)
      else return (claimed, .finished ⟨call.id, "review", review.report, none, nextAttempt⟩)

/-- The status of a job after an attempt that failed. -/
def retryStatus (policy : ConsolidationPolicy) (nextAttempt : ℕ) : JobStatus :=
  if policy.maxRetries < nextAttempt then .deadLetter else .retry

/-- The write after a promotion that was rolled back. -/
def recordFailure (s : CandidateStore) (call : ConsolidateCall) (jobId : String)
    (nextAttempt : ℕ) : CandidateStore :=
  s.updateJobs (fun j ↦ j.id = jobId) fun j ↦
    { j with
      status := retryStatus call.policy nextAttempt
      lastError := some "canonical-write-failed"
      updatedAt := call.failedAt }

/-! ## Whole calls -/

/-- The two transactions of a call one right after the other, and the write
after a refused memory. -/
def execute (codec : ConsolidationCodec) (s : CandidateStore) (call : ConsolidateCall)
    (review : Review) : CandidateStore × Except String ConsolidationOutcome :=
  match s.schedule codec call review with
  | .error e => (s, .error e)
  | .ok (s, .finished outcome) => (s, .ok outcome)
  | .ok (s, .scheduled jobId) =>
      match s.promote codec call review jobId with
      | .error e => (s, .error e)
      | .ok (s, .finished outcome) => (s, .ok outcome)
      | .ok (s, .refused nextAttempt) =>
          (s.recordFailure call jobId nextAttempt,
            .ok ⟨call.id, (retryStatus call.policy nextAttempt).asStr, review.report, none,
              nextAttempt⟩)

/-- The reads of a call, each after an expiry of candidates. -/
def prepare (codec : ConsolidationCodec) (s : CandidateStore) (call : ConsolidateCall) :
    CandidateStore × Except String Review :=
  match call.policy.validate with
  | .error e => (s, .error e)
  | .ok () =>
      let s := s.expireMemoryCandidates codec call.expiredAt
      match s.readCandidate call.id call.reviewer with
      | .error e => (s, .error e)
      | .ok candidate =>
          let s := s.expireMemoryCandidates codec call.classifiedAt.text
          (s, s.reviewCandidate codec call candidate)

/-- `consolidate_memory_candidate_with_action` without another call in between. -/
def consolidateMemoryCandidateWithAction (codec : ConsolidationCodec) (s : CandidateStore)
    (call : ConsolidateCall) : CandidateStore × Except String ConsolidationOutcome :=
  match s.prepare codec call with
  | (s, .error e) => (s, .error e)
  | (s, .ok review) => s.execute codec call review

/-- `consolidate_memory_candidate`. -/
def consolidateMemoryCandidate (codec : ConsolidationCodec) (s : CandidateStore)
    (call : ConsolidateCall) : CandidateStore × Except String ConsolidationOutcome :=
  s.consolidateMemoryCandidateWithAction codec { call with explicitSupersession := false }

/-- `supersede_memory_candidate`. -/
def supersedeMemoryCandidate (codec : ConsolidationCodec) (s : CandidateStore)
    (call : ConsolidateCall) : CandidateStore × Except String ConsolidationOutcome :=
  s.consolidateMemoryCandidateWithAction codec
    { call with explicitApproval := true, explicitSupersession := true }

/-- The jobs a worker picks up, with the candidates and decisions it reads. -/
def pendingJobs (s : CandidateStore) (policyIdentity : String) (limit : ℕ) :
    List (String × ConsolidationDecision) :=
  (((s.jobs.rows.filter fun job ↦
      job.policyVersion = policyIdentity ∧
        (job.status = .queued ∨ job.status = .retry ∨ job.status = .running)).insertionSort
      fun a b ↦ b.priority < a.priority ∨ (b.priority = a.priority ∧
        (a.createdAt < b.createdAt ∨ (a.createdAt = b.createdAt ∧ a.id ≤ b.id)))).take limit).map
    fun job ↦ (job.candidateId, job.decision)

/-- Consolidate candidates in turn, until a call fails. -/
def consolidateAll (codec : ConsolidationCodec) (s : CandidateStore) :
    List ConsolidateCall → CandidateStore × Except String (List ConsolidationOutcome)
  | [] => (s, .ok [])
  | call :: rest =>
      match s.consolidateMemoryCandidate codec call with
      | (s, .error e) => (s, .error e)
      | (s, .ok outcome) =>
          match s.consolidateAll codec rest with
          | (s, .error e) => (s, .error e)
          | (s, .ok outcomes) => (s, .ok (outcome :: outcomes))

/-- The calls of a worker, each completed with what it takes from its job. -/
def pickedCalls (codec : ConsolidationCodec) (s : CandidateStore) (policy : ConsolidationPolicy)
    (reviewer : Reviewer) (limit : ℕ) (calls : ℕ → ConsolidateCall) :
    Except String (List ConsolidateCall) := do
  Except.require (reviewer.owner = true) "consolidation recovery requires owner authorization"
  let policyIdentity ← policy.identity codec
  let picked := s.pendingJobs policyIdentity (max 1 (min limit policy.maxQueue))
  return picked.mapIdx fun i job ↦ { calls i with
    id := job.1
    policy := policy
    reviewer := reviewer
    explicitApproval := job.2 = .approve }

/-- `process_pending_memory_consolidation`. -/
def processPendingMemoryConsolidation (codec : ConsolidationCodec) (s : CandidateStore)
    (policy : ConsolidationPolicy) (reviewer : Reviewer) (limit : ℕ)
    (calls : ℕ → ConsolidateCall) :
    CandidateStore × Except String (List ConsolidationOutcome) :=
  match s.pickedCalls codec policy reviewer limit calls with
  | .error e => (s, .error e)
  | .ok calls => s.consolidateAll codec calls

end CandidateStore

end Cortana
