import Cortana.Consolidation.Effects

/-!
# The transactions of a consolidation

What the scheduling transaction, the promotion transaction and the write after
a failure leave behind, each said once.
-/

namespace Cortana

open Store (promotedInput)

namespace CandidateStore

variable {codec : ConsolidationCodec} {s t u : CandidateStore} {call : ConsolidateCall}
  {review : Review} {jobId : String}

/-! ## Scheduling -/

/-- What scheduling does to a stored job: a closed one stays as it is. -/
structure Rescheduled (call : ConsolidateCall) (review : Review) (old job : ConsolidationJob) :
    Prop where
  candidateId : job.candidateId = old.candidateId
  policyVersion : job.policyVersion = old.policyVersion
  attempts : job.attempts = old.attempts
  frozen : old.status.active = false → job = old
  dead : job.status = .deadLetter →
    old.status = .deadLetter ∨ (job.candidateId = call.id ∧ review.candidate.status ≠ "pending")
  complete : job.status = .complete → old.status = .complete

theorem Rescheduled.refl (job : ConsolidationJob) : Rescheduled call review job job :=
  ⟨rfl, rfl, rfl, fun _ ↦ rfl, Or.inl, id⟩

theorem Rescheduled.trans {a b c : ConsolidationJob} (hab : Rescheduled call review a b)
    (hbc : Rescheduled call review b c) : Rescheduled call review a c where
  candidateId := hbc.candidateId.trans hab.candidateId
  policyVersion := hbc.policyVersion.trans hab.policyVersion
  attempts := hbc.attempts.trans hab.attempts
  frozen h := by
    obtain rfl := hab.frozen h
    exact hbc.frozen h
  dead h := by
    rcases hbc.dead h with hdead | hclosed
    · rcases hab.dead hdead with hdead | ⟨hid, hclosed⟩
      · exact Or.inl hdead
      · exact Or.inr ⟨hbc.candidateId.trans hid, hclosed⟩
    · exact Or.inr hclosed
  complete h := hab.complete (hbc.complete h)

/-- A job that scheduling makes. -/
structure Inserted (codec : ConsolidationCodec) (call : ConsolidateCall) (review : Review)
    (job : ConsolidationJob) : Prop where
  id : job.id = call.jobId
  candidateId : job.candidateId = call.id
  policyVersion : call.policy.identity codec = .ok job.policyVersion
  attempts : job.attempts = 0
  dead : job.status = .deadLetter → review.candidate.status ≠ "pending"
  complete : job.status ≠ .complete

theorem Inserted.rescheduled {a b : ConsolidationJob} (h : Inserted codec call review a)
    (hid : b.id = a.id) (hab : Rescheduled call review a b) : Inserted codec call review b where
  id := hid.trans h.id
  candidateId := hab.candidateId.trans h.candidateId
  policyVersion := h.policyVersion.trans (congrArg Except.ok hab.policyVersion.symm)
  attempts := hab.attempts.trans h.attempts
  dead hdead := (hab.dead hdead).elim h.dead fun hclosed ↦ hclosed.2
  complete hcomplete := h.complete (hab.complete hcomplete)

/-- Only jobs are changed, as scheduling does. -/
structure Schedules (codec : ConsolidationCodec) (call : ConsolidateCall) (review : Review)
    (s t : CandidateStore) : Prop where
  store : t.store = s.store
  candidates : t.candidates = s.candidates
  paused : t.paused = s.paused
  kept : ∀ id old, s.jobs.get id = some old →
    ∃ job, t.jobs.get id = some job ∧ Rescheduled call review old job
  inserted : ∀ id job, s.jobs.get id = none → t.jobs.get id = some job →
    Inserted codec call review job

theorem Schedules.refl (s : CandidateStore) : Schedules codec call review s s where
  store := rfl
  candidates := rfl
  paused := rfl
  kept _ old h := ⟨old, h, .refl old⟩
  inserted _ job hnone h := by simp [hnone] at h

theorem Schedules.trans (hst : Schedules codec call review s t)
    (htu : Schedules codec call review t u) : Schedules codec call review s u where
  store := htu.store.trans hst.store
  candidates := htu.candidates.trans hst.candidates
  paused := htu.paused.trans hst.paused
  kept id old h := by
    obtain ⟨mid, hmid, hresched⟩ := hst.kept id old h
    obtain ⟨job, hjob, hresched'⟩ := htu.kept id mid hmid
    exact ⟨job, hjob, hresched.trans hresched'⟩
  inserted id job hnone h := by
    cases hmid : t.jobs.get id with
    | none => exact htu.inserted id job hmid h
    | some mid =>
        obtain ⟨job', hjob', hresched⟩ := htu.kept id mid hmid
        obtain rfl : job' = job := Option.some.inj (hjob'.symm.trans h)
        have hid : job'.id = mid.id := (Table.key_of_get hjob').trans (Table.key_of_get hmid).symm
        exact (hst.inserted id mid hnone hmid).rescheduled hid hresched

theorem Schedules.evolves (h : Schedules codec call review s t) : Evolves s t where
  job id old hold := by
    obtain ⟨job, hjob, hresched⟩ := h.kept id old hold
    exact ⟨job, hjob, hresched.candidateId⟩
  candidate id old hold := ⟨old, h.candidates ▸ hold, .refl old⟩
  proposed id new hnone hnew := by
    rw [h.candidates, hnone] at hnew
    cases hnew

/-- An update of open jobs that does not finish them as a success. -/
theorem schedules_updateJobs {p : ConsolidationJob → Bool} {f : JobState → JobState}
    (hp : ∀ id job, s.jobs.get id = some job → p job = true → job.status.active = true)
    (hattempts : ∀ state, (f state).attempts = state.attempts)
    (hdead : ∀ job, p job = true → (f job.toJobState).status = .deadLetter →
      job.candidateId = call.id ∧ review.candidate.status ≠ "pending")
    (hcomplete : ∀ state, (f state).status ≠ .complete) :
    Schedules codec call review s (s.updateJobs p f) where
  store := rfl
  candidates := rfl
  paused := rfl
  kept id old h := by
    refine ⟨old.updateIf p f, by rw [get_updateJobs, h]; rfl, ?_⟩
    by_cases hpold : p old = true
    · refine ⟨rfl, rfl, ?_, fun hclosed ↦ ?_, fun hstatus ↦ ?_, fun hstatus ↦ ?_⟩
      · simp [ConsolidationJob.updateIf, hpold, hattempts]
      · rw [hp id old h hpold] at hclosed
        cases hclosed
      · rw [status_updateIf, if_pos hpold] at hstatus
        exact Or.inr (hdead old hpold hstatus)
      · rw [status_updateIf, if_pos hpold] at hstatus
        exact absurd hstatus (hcomplete _)
    · have hsame : old.updateIf p f = old := by simp [ConsolidationJob.updateIf, hpold]
      rw [hsame]
      exact .refl old
  inserted id job hnone h := by
    rw [get_updateJobs, hnone] at h
    cases h

theorem schedules_closeJobs {policyVersion lastError : String} {status : JobStatus}
    (hdead : status = .deadLetter → review.candidate.status ≠ "pending")
    (hcomplete : status ≠ .complete) :
    Schedules codec call review s (s.closeJobs call policyVersion status lastError) := by
  refine schedules_updateJobs (fun id job _ hjob ↦ ?_) (fun _ ↦ rfl) (fun job hjob h ↦ ?_)
    fun _ ↦ hcomplete
  · exact (of_decide_eq_true hjob).2.2
  · exact ⟨(of_decide_eq_true hjob).1, hdead h⟩

theorem schedules_cancelStaleJobs {policyIdentity : String} :
    Schedules codec call review s (s.cancelStaleJobs call policyIdentity) := by
  refine schedules_updateJobs (fun id job _ hjob ↦ ?_) (fun _ ↦ rfl) (fun _ _ h ↦ ?_) fun _ h ↦ ?_
  · exact (of_decide_eq_true hjob).2.2
  · cases h
  · cases h

theorem insertJob_eq_ok {job : ConsolidationJob} (h : s.insertJob job = .ok t) :
    s.jobs.get job.id = none ∧ s.jobOf job.candidateId job.policyVersion = none ∧
      t = { s with jobs := s.jobs.put job } := by
  rw [insertJob] at h
  obtain ⟨_, hfree, h⟩ := Iff.mp Except.bind_ok_iff h
  obtain ⟨_, hsingle, h⟩ := Iff.mp Except.bind_ok_iff h
  exact ⟨Option.isNone_iff_eq_none.mp (Iff.mp Except.require_ok_iff hfree),
    Option.isNone_iff_eq_none.mp (Iff.mp Except.require_ok_iff hsingle),
    (Iff.mp Except.pure_ok_iff h).symm⟩

theorem schedules_insertJob {report : ConsolidationDecisionReport} {policyIdentity : String}
    {status : JobStatus} {lastError : Option String}
    (hidentity : call.policy.identity codec = .ok policyIdentity)
    (hdead : status = .deadLetter → review.candidate.status ≠ "pending")
    (hcomplete : status ≠ .complete)
    (h : s.insertJob (reportedJob call review report policyIdentity status lastError) = .ok t) :
    Schedules codec call review s t ∧ t.jobs.get call.jobId =
      some (reportedJob call review report policyIdentity status lastError) := by
  obtain ⟨hfree, -, rfl⟩ := insertJob_eq_ok h
  refine ⟨⟨rfl, rfl, rfl, fun id old hold ↦ ⟨old, ?_, .refl old⟩, fun id job hnone hjob ↦ ?_⟩,
    Table.get_put_self _ _⟩
  · have hother : id ≠ (reportedJob call review report policyIdentity status lastError).id := by
      rintro rfl
      rw [hfree] at hold
      cases hold
    exact (Table.get_put_of_ne hother).trans hold
  · change (s.jobs.put _).get id = some job at hjob
    rw [Table.get_put] at hjob
    split at hjob
    · obtain rfl := Option.some.inj hjob
      exact ⟨rfl, rfl, hidentity, rfl, hdead, hcomplete⟩
    · rw [hnone] at hjob
      cases hjob

theorem jobOf_eq_some {id policyVersion : String} {job : ConsolidationJob}
    (h : s.jobOf id policyVersion = some job) :
    s.jobs.get job.id = some job ∧ job.candidateId = id ∧ job.policyVersion = policyVersion := by
  rw [jobOf] at h
  have hmem := List.mem_of_find?_eq_some h
  have hfound := List.find?_some h
  have hjob := of_decide_eq_true hfound
  exact ⟨Iff.mpr Table.get_eq_some_iff ⟨hmem, rfl⟩, hjob.1, hjob.2⟩

theorem schedules_reconcile {report : ConsolidationDecisionReport} {policyIdentity : String}
    {outcome : ConsolidationOutcome} (hidentity : call.policy.identity codec = .ok policyIdentity)
    (hclosed : review.candidate.status ≠ "pending")
    (h : s.reconcile call review report policyIdentity = .ok (t, outcome)) :
    Schedules codec call review s t := by
  rw [reconcile] at h
  dsimp only at h
  have hcomplete : (if review.candidate.status = "accepted" then JobStatus.cancelled
      else .deadLetter) ≠ .complete := by
    split <;> simp
  generalize (if review.candidate.status = "accepted" then JobStatus.cancelled
    else .deadLetter) = status at h hcomplete
  have hclose : ∀ v : CandidateStore, Schedules codec call review v (v.closeJobs call
      policyIdentity status ("candidate-terminal:" ++ review.candidate.status)) :=
    fun v ↦ schedules_closeJobs (fun _ ↦ hclosed) hcomplete
  split at h
  · obtain ⟨rfl, -⟩ := Prod.mk.inj (Except.ok.inj h)
    exact hclose s
  · split at h
    · obtain ⟨rfl, -⟩ := Prod.mk.inj (Except.ok.inj h)
      exact (hclose s).trans (hclose _)
    · split at h
      · obtain ⟨rfl, -⟩ := Prod.mk.inj (Except.ok.inj h)
        exact (hclose s).trans (hclose _)
      · obtain ⟨v, hv, h⟩ := Iff.mp Except.bind_ok_iff h
        obtain ⟨rfl, -⟩ := Prod.mk.inj (Iff.mp Except.pure_ok_iff h)
        exact ((hclose s).trans (hclose _)).trans
          (schedules_insertJob hidentity (fun _ ↦ hclosed) hcomplete hv).1

/-- An open job is queued again. -/
theorem schedules_requeueJob (codec : ConsolidationCodec) (call : ConsolidateCall)
    (review : Review) (report : ConsolidationDecisionReport) {job : ConsolidationJob}
    (hjob : s.jobs.get job.id = some job) (hactive : job.status.active = true) :
    Schedules codec call review s (s.requeueJob call review report job.id) ∧
      ∃ queued, (s.requeueJob call review report job.id).jobs.get job.id = some queued ∧
        queued.status = .queued ∧ queued.candidateId = job.candidateId ∧
        queued.policyVersion = job.policyVersion ∧ queued.attempts = job.attempts := by
  constructor
  · refine schedules_updateJobs (fun id j hj hid ↦ ?_) (fun _ ↦ rfl) (fun _ _ h ↦ ?_) fun _ h ↦ ?_
    · rw [← Table.key_of_get hj, of_decide_eq_true hid, hjob] at hj
      exact Option.some.inj hj ▸ hactive
    · cases h
    · cases h
  · rw [requeueJob, get_updateJobs, hjob]
    refine ⟨_, rfl, ?_, rfl, rfl, ?_⟩ <;> simp [ConsolidationJob.updateIf]

/-- The job of a call that goes on. -/
def Scheduling (codec : ConsolidationCodec) (call : ConsolidateCall) (t : CandidateStore)
    (jobId : String) : Prop :=
  ∃ job, t.jobs.get jobId = some job ∧ job.status = .queued ∧ job.candidateId = call.id ∧
    call.policy.identity codec = .ok job.policyVersion

/-- A job that was just queued goes to review, or the call goes on with it. -/
theorem parkReview_eq {report : ConsolidationDecisionReport} {r : Scheduled}
    (h : s.parkReview call review report jobId = (t, r)) :
    Schedules codec call review s t ∧
      ∀ jobId', r = .scheduled jobId' → t = s ∧ jobId' = jobId ∧ report.decision ≠ .review := by
  rw [parkReview] at h
  split at h
  · obtain ⟨rfl, rfl⟩ := Prod.mk.inj h
    refine ⟨?_, fun jobId' h ↦ by cases h⟩
    refine schedules_updateJobs (fun id j _ hj ↦ ?_) (fun _ ↦ rfl) (fun _ _ h ↦ ?_) fun _ h ↦ ?_
    · exact (of_decide_eq_true hj).2
    · cases h
    · cases h
  · rename_i hdecision
    obtain ⟨rfl, rfl⟩ := Prod.mk.inj h
    refine ⟨.refl s, fun jobId' h ↦ ?_⟩
    cases h
    exact ⟨rfl, rfl, hdecision⟩

theorem schedulePending_eq_ok {report : ConsolidationDecisionReport} {policyIdentity : String}
    {r : Scheduled} (hidentity : call.policy.identity codec = .ok policyIdentity)
    (h : s.schedulePending codec call review report policyIdentity = .ok (t, r)) :
    Schedules codec call review s t ∧ ∀ jobId, r = .scheduled jobId →
      Scheduling codec call t jobId ∧ report.decision ≠ .review := by
  have hlegacy : Schedules codec call review s
      (s.closeJobs call call.policy.version .cancelled "legacy-policy-identity-unknown") :=
    schedules_closeJobs (fun h ↦ by cases h) (fun h ↦ by cases h)
  rw [schedulePending] at h
  dsimp only at h
  generalize s.closeJobs call call.policy.version .cancelled "legacy-policy-identity-unknown" = v
    at h hlegacy
  split at h
  · rename_i job hjobOf
    obtain ⟨hget, hcandidate, hpolicy⟩ := jobOf_eq_some hjobOf
    split at h
    · obtain ⟨rfl, rfl⟩ := Prod.mk.inj (Except.ok.inj h)
      exact ⟨hlegacy, fun jobId h ↦ by cases h⟩
    · split at h
      · rename_i hopen
        have hactive : job.status.active = true := by
          rcases hopen with h | h | h | ⟨-, h, -⟩ <;> rw [h] <;> rfl
        obtain ⟨hrequeue, queued, hqueued, hstatus, hcandidate', hpolicy', -⟩ :=
          schedules_requeueJob codec call review report hget hactive
        obtain ⟨hpark, hgoes⟩ := parkReview_eq (Except.ok.inj h)
        refine ⟨(hlegacy.trans hrequeue).trans hpark, fun jobId hr ↦ ?_⟩
        obtain ⟨rfl, rfl, hdecision⟩ := hgoes jobId hr
        refine ⟨⟨queued, hqueued, hstatus, hcandidate'.trans hcandidate, ?_⟩, hdecision⟩
        rw [hidentity, hpolicy', hpolicy]
      · obtain ⟨rfl, rfl⟩ := Prod.mk.inj (Except.ok.inj h)
        exact ⟨hlegacy, fun jobId h ↦ by cases h⟩
  · obtain ⟨_, -, h⟩ := Iff.mp Except.bind_ok_iff h
    obtain ⟨w, hw, h⟩ := Iff.mp Except.bind_ok_iff h
    have hstatus : (if report.decision = .review then JobStatus.paused else .queued) ≠ .complete := by
      split <;> simp
    obtain ⟨hinserted, hjob⟩ := schedules_insertJob hidentity
      (fun h ↦ by split at h <;> cases h) hstatus hw
    obtain ⟨hpark, hgoes⟩ := parkReview_eq (Iff.mp Except.pure_ok_iff h)
    refine ⟨(hlegacy.trans hinserted).trans hpark, fun jobId hr ↦ ?_⟩
    obtain ⟨rfl, rfl, hdecision⟩ := hgoes jobId hr
    exact ⟨⟨_, hjob, if_neg hdecision, rfl, hidentity⟩, hdecision⟩

theorem withinCapacity_eq {report : ConsolidationDecisionReport}
    (h : (s.withinCapacity codec call report).decision ≠ .review) :
    s.withinCapacity codec call report = report := by
  rw [withinCapacity] at h ⊢
  split at h
  · exact absurd rfl h
  · rename_i hroom
    rw [if_neg hroom]

/-- What a scheduling transaction that succeeds leaves behind. -/
theorem schedule_eq_ok {r : Scheduled} (h : s.schedule codec call review = .ok (t, r)) :
    Schedules codec call review s t ∧ ∀ jobId, r = .scheduled jobId →
      Scheduling codec call t jobId ∧ review.candidate.status = "pending" ∧
        review.report.decision ≠ .review := by
  rw [schedule] at h
  obtain ⟨policyIdentity, hidentity, h⟩ := Iff.mp Except.bind_ok_iff h
  obtain ⟨_, -, h⟩ := Iff.mp Except.bind_ok_iff h
  dsimp only at h
  split at h
  · rename_i hclosed
    obtain ⟨⟨v, outcome⟩, hv, h⟩ := Iff.mp Except.bind_ok_iff h
    obtain ⟨rfl, rfl⟩ := Prod.mk.inj (Iff.mp Except.pure_ok_iff h)
    exact ⟨schedules_cancelStaleJobs.trans (schedules_reconcile hidentity hclosed hv),
      fun jobId h ↦ by cases h⟩
  · rename_i hpending
    obtain ⟨hschedules, hgoes⟩ := schedulePending_eq_ok hidentity h
    refine ⟨schedules_cancelStaleJobs.trans hschedules, fun jobId hr ↦ ?_⟩
    obtain ⟨hjob, hdecision⟩ := hgoes jobId hr
    exact ⟨hjob, not_not.mp hpending, withinCapacity_eq hdecision ▸ hdecision⟩

/-! ## Promotion -/

/-- An update of the job with one id. -/
theorem get_updateJobs_one {p : ConsolidationJob → Bool} {f : JobState → JobState}
    {job : ConsolidationJob} (hjob : s.jobs.get jobId = some job)
    (hone : ∀ job, p job = true → job.id = jobId) (id : String) :
    (s.updateJobs p f).jobs.get id =
      if id = jobId then some (job.updateIf p f) else s.jobs.get id := by
  rw [get_updateJobs]
  split_ifs with hid
  · rw [hid, hjob]
    rfl
  · cases hother : s.jobs.get id with
    | none => rfl
    | some other =>
        have hskip : p other ≠ true :=
          fun h ↦ hid ((Table.key_of_get hother).symm.trans (hone other h))
        simp [ConsolidationJob.updateIf, hskip]

/-- A claim starts the next attempt of a job that waits. -/
theorem claimJob_eq_ok {now : String} {nextAttempt : ℕ}
    (h : s.claimJob jobId now = .ok (t, nextAttempt)) :
    t.store = s.store ∧ t.candidates = s.candidates ∧ ∃ job claimed,
      s.jobs.get jobId = some job ∧ job.status.claimable = true ∧
      nextAttempt = job.attempts + 1 ∧ claimed.candidateId = job.candidateId ∧
      claimed.policyVersion = job.policyVersion ∧ claimed.status = .running ∧
      claimed.attempts = nextAttempt ∧
      ∀ id, t.jobs.get id = if id = jobId then some claimed else s.jobs.get id := by
  rw [claimJob] at h
  split at h
  · cases h
  · rename_i job hjob
    obtain ⟨_, hrequire, h⟩ := Iff.mp Except.bind_ok_iff h
    have hclaimable := Iff.mp Except.require_ok_iff hrequire
    have hid := Table.key_of_get hjob
    obtain ⟨rfl, rfl⟩ := Prod.mk.inj (Iff.mp Except.pure_ok_iff h)
    refine ⟨rfl, rfl, job, _, hjob, hclaimable, rfl, ?_, ?_, ?_, ?_, get_updateJobs_one hjob ?_⟩
    · rfl
    · rfl
    · simp [status_updateIf, hid, hclaimable]
    · simp [ConsolidationJob.updateIf, hid, hclaimable]
    · exact fun j hj ↦ (of_decide_eq_true hj).1

/-- A pending candidate and its waiting job are closed together. -/
structure Closes (s t : CandidateStore) (id jobId status : String) (jobStatus : JobStatus) : Prop
    where
  candidate : ∃ row new, s.candidates.get id = some row ∧ row.status = "pending" ∧
    row.Follows new ∧ new.status = status ∧
    ∀ id', t.candidates.get id' = if id' = id then some new else s.candidates.get id'
  job : ∃ job closed, s.jobs.get jobId = some job ∧ job.status.claimable = true ∧
    closed.candidateId = job.candidateId ∧ closed.policyVersion = job.policyVersion ∧
    closed.status = jobStatus ∧ closed.attempts = job.attempts + 1 ∧
    ∀ id', t.jobs.get id' = if id' = jobId then some closed else s.jobs.get id'

theorem closeCandidate_eq_ok {id : String} {g : MemoryCandidate → MemoryCandidate}
    (h : s.closeCandidate id g = .ok t) : s.updatePending id g = some t := by
  rw [closeCandidate] at h
  split at h
  · cases h
  · obtain rfl := Except.ok.inj h
    assumption

/-- A claimed job and its candidate are closed in the same transaction. -/
theorem closes_of_claim {claimed closed : CandidateStore} {now status : String}
    {jobStatus : JobStatus} {nextAttempt : ℕ} {store : Store}
    {g : MemoryCandidate → MemoryCandidate} {f : JobState → JobState}
    (hclaim : s.claimJob jobId now = .ok (claimed, nextAttempt))
    (hclose : { claimed with store := store }.updatePending call.id g = some closed)
    (hid : ∀ c : MemoryCandidate, (g c).id = c.id)
    (hfollows : ∀ c : MemoryCandidate, c.status = "pending" → c.Follows (g c))
    (hstatus : ∀ c : MemoryCandidate, (g c).status = status)
    (hjobStatus : ∀ state, (f state).status = jobStatus)
    (hattempts : ∀ state, (f state).attempts = state.attempts) :
    Closes s (closed.updateJobs (fun j ↦ j.id = jobId) f) call.id jobId status jobStatus := by
  obtain ⟨-, hcandidates, job, running, hjob, hclaimable, hnext, hcandidate, hpolicy, -, hattempt,
    hget⟩ := claimJob_eq_ok hclaim
  obtain ⟨row, hrow, hpending, rfl⟩ := Iff.mp updatePending_eq_some hclose
  change claimed.candidates.get call.id = some row at hrow
  have hrunning : claimed.jobs.get jobId = some running := by rw [hget, if_pos rfl]
  have hid' : running.id = jobId := Table.key_of_get hrunning
  refine ⟨⟨row, g row, hcandidates ▸ hrow, hpending, hfollows row hpending, hstatus row,
    fun id ↦ ?_⟩, job, running.updateIf (fun j ↦ j.id = jobId) f, hjob, hclaimable, hcandidate,
    hpolicy, ?_, ?_, fun id ↦ ?_⟩
  · rw [← hcandidates]
    exact get_put_updated (hid row) hrow id
  · rw [status_updateIf, if_pos (decide_eq_true hid'), hjobStatus]
  · simp [ConsolidationJob.updateIf, hid', hattempts, hattempt, hnext]
  · have hone : ∀ j : ConsolidationJob, decide (j.id = jobId) = true → j.id = jobId :=
      fun _ hj ↦ of_decide_eq_true hj
    refine (get_updateJobs_one hrunning hone id).trans ?_
    split_ifs with hother
    · rfl
    · exact (hget id).trans (if_neg hother)

/-- The memory that a review writes. -/
def Remembers (codec : ConsolidationCodec) (s : CandidateStore) (call : ConsolidateCall)
    (review : Review) (result : Except String (Store × String)) : Prop :=
  ∃ decision axes, review.report.decision.promoting = some decision ∧ review.axes = .ok axes ∧
    s.store.rememberInTransaction codec.toCodec call.memoryCall
      (promotedInput review.candidate.observed (review.consolidation decision) axes) axes = result

/-- What a promotion that does not fail leaves behind: the memory is written and
its candidate accepted, the memory is refused, or the candidate is rejected. -/
theorem promote_eq_ok {r : Promoted} (h : s.promote codec call review jobId = .ok (t, r))
    (hdecision : review.report.decision ≠ .review) :
    (∃ memoryId nextAttempt, Remembers codec s call review (.ok (t.store, memoryId)) ∧
        Closes s t call.id jobId "accepted" .complete ∧
        r = .finished ⟨call.id, "accepted", review.report, some memoryId, nextAttempt⟩) ∨
      (∃ e job, Remembers codec s call review (.error e) ∧ t = s ∧ s.jobs.get jobId = some job ∧
        job.status.claimable = true ∧ r = .refused (job.attempts + 1)) ∨
      (review.report.decision = .reject ∧ t.store = s.store ∧
        Closes s t call.id jobId "rejected" .deadLetter ∧
        ∃ nextAttempt, r = .finished ⟨call.id, "rejected", review.report, none, nextAttempt⟩) := by
  rw [promote] at h
  obtain ⟨⟨claimed, nextAttempt⟩, hclaim, h⟩ := Iff.mp Except.bind_ok_iff h
  obtain ⟨hstore, -, job, -, hjob, hclaimable, hnext, -⟩ := claimJob_eq_ok hclaim
  dsimp only at h
  split at h
  · rename_i decision hpromoting
    obtain ⟨axes, haxes, h⟩ := Iff.mp Except.bind_ok_iff h
    rw [hstore] at h
    split at h
    · rename_i e hrefused
      obtain ⟨rfl, rfl⟩ := Prod.mk.inj (Iff.mp Except.pure_ok_iff h)
      exact Or.inr (Or.inl ⟨e, job, ⟨decision, axes, hpromoting, haxes, hrefused⟩, rfl, hjob,
        hclaimable, by rw [hnext]⟩)
    · rename_i store memoryId hremember
      obtain ⟨accepted, haccepted, h⟩ := Iff.mp Except.bind_ok_iff h
      obtain ⟨rfl, rfl⟩ := Prod.mk.inj (Iff.mp Except.pure_ok_iff h)
      have hclose := closeCandidate_eq_ok haccepted
      have hwritten : accepted.store = store := by
        obtain ⟨_, -, -, rfl⟩ := Iff.mp updatePending_eq_some hclose
        rfl
      refine Or.inl ⟨memoryId, nextAttempt, ⟨decision, axes, hpromoting, haxes, ?_⟩, ?_, rfl⟩
      · rw [hremember, updateJobs_store, hwritten]
      · exact closes_of_claim hclaim hclose (fun _ ↦ rfl)
          (fun c hc ↦ ⟨rfl, rfl, Or.inl rfl, fun h ↦ absurd hc h⟩) (fun _ ↦ rfl) (fun _ ↦ rfl)
          (fun _ ↦ rfl)
  · split at h
    · rename_i hreject
      obtain ⟨rejected, hrejected, h⟩ := Iff.mp Except.bind_ok_iff h
      obtain ⟨rfl, rfl⟩ := Prod.mk.inj (Iff.mp Except.pure_ok_iff h)
      have hclose := closeCandidate_eq_ok hrejected
      have hkept : rejected.store = s.store := by
        obtain ⟨_, -, -, rfl⟩ := Iff.mp updatePending_eq_some hclose
        exact hstore
      refine Or.inr (Or.inr ⟨hreject, hkept, ?_, nextAttempt, rfl⟩)
      exact closes_of_claim hclaim hclose (fun _ ↦ rfl)
        (fun c hc ↦ ⟨rfl, rfl, Or.inl rfl, fun h ↦ absurd hc h⟩) (fun _ ↦ rfl) (fun _ ↦ rfl)
        (fun _ ↦ rfl)
    · rename_i hnone hreject
      exfalso
      cases hcases : review.report.decision <;> simp_all [ConsolidationDecision.promoting]

theorem evolves_of_candidates {id : String} {row new : MemoryCandidate}
    (hrow : s.candidates.get id = some row) (hfollows : row.Follows new)
    (hcandidates : ∀ id', t.candidates.get id' = if id' = id then some new else s.candidates.get id')
    (hjobs : ∀ id' old, s.jobs.get id' = some old →
      ∃ job, t.jobs.get id' = some job ∧ job.candidateId = old.candidateId) : Evolves s t where
  job := hjobs
  candidate id' old hold := by
    rw [hcandidates]
    split_ifs with hid
    · rw [hid, hrow] at hold
      exact ⟨new, rfl, Option.some.inj hold ▸ hfollows⟩
    · exact ⟨old, hold, .refl old⟩
  proposed id' new' hnone hnew := by
    rw [hcandidates] at hnew
    split_ifs at hnew with hid
    · rw [hid, hrow] at hnone
      cases hnone
    · rw [hnone] at hnew
      cases hnew

theorem Closes.evolves {id status : String} {jobStatus : JobStatus}
    (h : Closes s t id jobId status jobStatus) : Evolves s t := by
  obtain ⟨⟨row, new, hrow, -, hfollows, -, hcandidates⟩, job, closed, hjob, -, hcandidate, -, -, -,
    hjobs⟩ := h
  refine evolves_of_candidates hrow hfollows hcandidates fun id' old hold ↦ ?_
  rw [hjobs]
  split_ifs with hid
  · rw [hid, hjob] at hold
    exact ⟨closed, rfl, Option.some.inj hold ▸ hcandidate⟩
  · exact ⟨old, hold, rfl⟩

/-- The write after a failure changes the status of its job, and not its attempts. -/
theorem jobs_recordFailure (call : ConsolidateCall) (nextAttempt : ℕ) {job : ConsolidationJob}
    (hjob : s.jobs.get jobId = some job) :
    ∃ failed, failed.candidateId = job.candidateId ∧ failed.policyVersion = job.policyVersion ∧
      failed.attempts = job.attempts ∧ failed.status = retryStatus call.policy nextAttempt ∧
      ∀ id, (s.recordFailure call jobId nextAttempt).jobs.get id =
        if id = jobId then some failed else s.jobs.get id := by
  have hid : job.id = jobId := Table.key_of_get hjob
  refine ⟨_, ?_, ?_, ?_, ?_, get_updateJobs_one hjob fun j hj ↦ of_decide_eq_true hj⟩
  · rfl
  · rfl
  · simp [ConsolidationJob.updateIf, hid]
  · simp [status_updateIf, hid]

/-! ## The reads -/

theorem reviewCandidate_eq_ok {candidate : MemoryCandidate}
    (h : s.reviewCandidate codec call candidate = .ok review) :
    review.candidate = candidate ∧
      s.classifyMemoryCandidate codec call.id call.reviewer call.classifiedAt.instant =
        .ok review.classification ∧
      ∃ context, evaluate codec call.evaluatedAt candidate review.classification call.policy
        context = .ok review.report := by
  rw [reviewCandidate] at h
  obtain ⟨classification, hclassification, h⟩ := Iff.mp Except.bind_ok_iff h
  obtain ⟨scope, -, h⟩ := Iff.mp Except.bind_ok_iff h
  obtain ⟨report, hreport, h⟩ := Iff.mp Except.bind_ok_iff h
  obtain rfl := Iff.mp Except.pure_ok_iff h
  exact ⟨rfl, hclassification, _, hreport⟩

theorem readCandidate_eq_ok {id : String} {reviewer : Reviewer} {candidate : MemoryCandidate}
    (h : s.readCandidate id reviewer = .ok candidate) :
    s.candidates.get id = some candidate ∧ checkReviewer candidate reviewer = .ok () := by
  rw [readCandidate] at h
  split at h
  · cases h
  · rename_i row hrow
    obtain ⟨_, hcheck, h⟩ := Iff.mp Except.bind_ok_iff h
    obtain rfl := Iff.mp Except.pure_ok_iff h
    exact ⟨hrow, hcheck⟩

/-- What the reads of a call leave behind, whether they succeed or not. -/
theorem prepare_fst (codec : ConsolidationCodec) (s : CandidateStore) (call : ConsolidateCall) :
    (s.prepare codec call).1 = s ∨
      (s.prepare codec call).1 = s.expireMemoryCandidates codec call.expiredAt ∨
      (s.prepare codec call).1 = (s.expireMemoryCandidates codec call.expiredAt).expireMemoryCandidates
        codec call.classifiedAt.text := by
  rw [prepare]
  split
  · exact Or.inl rfl
  · dsimp only
    split
    · exact Or.inr (Or.inl rfl)
    · exact Or.inr (Or.inr rfl)

theorem prepare_eq_ok (h : s.prepare codec call = (t, .ok review)) :
    t = (s.expireMemoryCandidates codec call.expiredAt).expireMemoryCandidates codec
        call.classifiedAt.text ∧
      (s.expireMemoryCandidates codec call.expiredAt).readCandidate call.id call.reviewer =
        .ok review.candidate ∧
      t.reviewCandidate codec call review.candidate = .ok review := by
  rw [prepare] at h
  split at h
  · cases h
  · dsimp only at h
    split at h
    · cases h
    · rename_i candidate hcandidate
      obtain ⟨rfl, hreview⟩ := Prod.mk.inj h
      obtain ⟨hsame, -⟩ := reviewCandidate_eq_ok hreview
      exact ⟨rfl, hsame ▸ hcandidate, hsame ▸ hreview⟩

/-- The stored row of the candidate follows the one that was read. -/
theorem follows_of_prepare (h : s.prepare codec call = (t, .ok review)) :
    ∃ row, t.candidates.get call.id = some row ∧ review.candidate.Follows row := by
  obtain ⟨rfl, hread, -⟩ := prepare_eq_ok h
  exact quiet_expire.candidate call.id review.candidate (readCandidate_eq_ok hread).1

end CandidateStore

end Cortana
