import Cortana.Core.Runs
import Cortana.Consolidation.Transactions
import Cortana.Store.Operations

/-!
# Attempts of a job

A worker calls the consolidation again and again.  How often it tried a job,
and how often the memory was refused, is kept beside the store and compared
with what the job says of it.
-/

namespace Cortana

/-! ## Workers -/

/-- The store, and for each job the attempts and the failures since it was made
or retried. -/
structure Worker where
  store : CandidateStore
  made : String → ℕ
  failed : String → ℕ

/-- What a worker does. -/
inductive WorkEvent where
  | consolidate (call : ConsolidateCall)
  | processPending (reviewer : Reviewer) (limit : ℕ) (calls : ℕ → ConsolidateCall)
  | retry (id : String) (reviewer : Reviewer) (now : Moment)

namespace CandidateStore

/-- The job whose memory a call writes, and whether it was refused. -/
def attempted (codec : ConsolidationCodec) (s : CandidateStore) (call : ConsolidateCall) :
    Option (String × Bool) :=
  match s.prepare codec call with
  | (_, .error _) => none
  | (s, .ok review) =>
      match s.schedule codec call review with
      | .error _ | .ok (_, .finished _) => none
      | .ok (s, .scheduled jobId) =>
          match s.promote codec call review jobId with
          | .error _ => none
          | .ok (_, .finished _) => some (jobId, false)
          | .ok (_, .refused _) => some (jobId, true)

end CandidateStore

namespace Worker

/-- A worker that has done nothing. -/
def new (store : CandidateStore) : Worker := ⟨store, fun _ ↦ 0, fun _ ↦ 0⟩

/-- Count one attempt. -/
def count (tally : String → ℕ) (jobId : String) : String → ℕ :=
  Function.update tally jobId (tally jobId + 1)

def consolidate (codec : ConsolidationCodec) (w : Worker) (call : ConsolidateCall) : Worker :=
  let store := (w.store.consolidateMemoryCandidateWithAction codec call).1
  match w.store.attempted codec call with
  | none => { w with store := store }
  | some (jobId, false) => { w with store := store, made := count w.made jobId }
  | some (jobId, true) => ⟨store, count w.made jobId, count w.failed jobId⟩

/-- `consolidateAll`, counted. -/
def consolidateAll (codec : ConsolidationCodec) (w : Worker) : List ConsolidateCall → Worker
  | [] => w
  | call :: rest =>
      let next := w.consolidate codec { call with explicitSupersession := false }
      match (w.store.consolidateMemoryCandidate codec call).2 with
      | .error _ => next
      | .ok _ => next.consolidateAll codec rest

/-- A retry starts the count of its job anew. -/
def retry (codec : ConsolidationCodec) (w : Worker) (id : String) (reviewer : Reviewer)
    (now : Moment) : Worker :=
  match w.store.retryMemoryCandidateScoped codec id reviewer now, w.store.retriedJob id with
  | .ok store, some job =>
      ⟨store, Function.update w.made job.id 0, Function.update w.failed job.id 0⟩
  | _, _ => w

/-- One call of a worker under a policy. -/
def step (codec : ConsolidationCodec) (policy : ConsolidationPolicy) (w : Worker) :
    WorkEvent → Worker
  | .consolidate call => w.consolidate codec { call with policy := policy }
  | .processPending reviewer limit calls =>
      match w.store.pickedCalls codec policy reviewer limit calls with
      | .error _ => w
      | .ok calls => w.consolidateAll codec calls
  | .retry id reviewer now => w.retry codec id reviewer now

theorem store_consolidate (codec : ConsolidationCodec) (w : Worker) (call : ConsolidateCall) :
    (w.consolidate codec call).store =
      (w.store.consolidateMemoryCandidateWithAction codec call).1 := by
  rw [consolidate]
  split <;> rfl

theorem store_consolidateAll (codec : ConsolidationCodec) (w : Worker)
    (calls : List ConsolidateCall) :
    (w.consolidateAll codec calls).store = (w.store.consolidateAll codec calls).1 := by
  induction calls generalizing w with
  | nil => rfl
  | cons call rest ih =>
      rw [consolidateAll, CandidateStore.consolidateAll]
      have hstore := store_consolidate codec w { call with explicitSupersession := false }
      rw [← CandidateStore.consolidateMemoryCandidate] at hstore
      rcases hcall : w.store.consolidateMemoryCandidate codec call with ⟨s, e | outcome⟩
      · rw [hcall] at hstore
        exact hstore
      · rw [hcall] at hstore
        dsimp only at hstore ⊢
        rw [ih, hstore]
        rcases s.consolidateAll codec rest with ⟨t, e | outcomes⟩ <;> rfl

/-- The worker calls what the store offers. -/
theorem store_processPending (codec : ConsolidationCodec) (policy : ConsolidationPolicy)
    (w : Worker) (reviewer : Reviewer) (limit : ℕ) (calls : ℕ → ConsolidateCall) :
    (w.step codec policy (.processPending reviewer limit calls)).store =
      (w.store.processPendingMemoryConsolidation codec policy reviewer limit calls).1 := by
  rw [step, CandidateStore.processPendingMemoryConsolidation]
  cases w.store.pickedCalls codec policy reviewer limit calls with
  | error e => rfl
  | ok picked => exact store_consolidateAll codec w picked

theorem store_retry (codec : ConsolidationCodec) (policy : ConsolidationPolicy) (w : Worker)
    (id : String) (reviewer : Reviewer) (now : Moment) {t : CandidateStore}
    (h : w.store.retryMemoryCandidateScoped codec id reviewer now = .ok t) :
    (w.step codec policy (.retry id reviewer now)).store = t := by
  rw [step, retry, h]
  rcases CandidateStore.retryMemoryCandidateScoped_eq_ok h with ⟨hnone, heq⟩ | ⟨job, hjob, -⟩
  · rw [hnone, heq]
  · rw [hjob]

/-! ## What the tallies say -/

/-- What a job that was made on the way says of its attempts. -/
structure JobTally (policy : ConsolidationPolicy) (made failed : ℕ) (job : ConsolidationJob)
    (candidates : Table MemoryCandidate.id) : Prop where
  total : job.attempts + failed = made
  exhausted : policy.maxRetries = 0 → 0 < failed → job.status = .deadLetter
  waiting : job.status.active = true → job.attempts = 0
  dead : job.status = .deadLetter → policy.maxRetries = 0 ∨
    ∃ row, candidates.get job.candidateId = some row ∧ row.status ≠ "pending"

/-- The tallies of all jobs that were made since the start. -/
structure Tallied (policy : ConsolidationPolicy) (start : CandidateStore) (made failed : String → ℕ)
    (s : CandidateStore) : Prop where
  job : ∀ id job, s.jobs.get id = some job → start.jobs.get id = none →
    JobTally policy (made id) (failed id) job s.candidates
  absent : ∀ id, s.jobs.get id = none → made id = 0 ∧ failed id = 0 ∧ start.jobs.get id = none

variable {codec : ConsolidationCodec} {policy : ConsolidationPolicy} {start s t : CandidateStore}
  {made failed : String → ℕ} {call : ConsolidateCall} {review : Review} {jobId : String}

/-- A closed candidate stays closed. -/
theorem closed_of_evolves (h : s.Evolves t) {id : String}
    (hclosed : ∃ row, s.candidates.get id = some row ∧ row.status ≠ "pending") :
    ∃ row, t.candidates.get id = some row ∧ row.status ≠ "pending" := by
  obtain ⟨row, hrow, hstatus⟩ := hclosed
  obtain ⟨new, hnew, hfollows⟩ := h.candidate id row hrow
  exact ⟨new, hnew, (hfollows.final hstatus).symm ▸ hstatus⟩

/-- A change that leaves the attempts and the closed jobs alone. -/
theorem JobTally.carry {m n : ℕ} {old job : ConsolidationJob}
    (h : JobTally policy m n old s.candidates) (hevolves : s.Evolves t)
    (hcandidate : job.candidateId = old.candidateId) (hattempts : job.attempts = old.attempts)
    (hfrozen : old.status.active = false → job.status = old.status)
    (hdead : job.status = .deadLetter → old.status = .deadLetter ∨
      ∃ row, t.candidates.get job.candidateId = some row ∧ row.status ≠ "pending") :
    JobTally policy m n job t.candidates where
  total := by rw [hattempts, h.total]
  exhausted hzero hfailed := by
    have hold := h.exhausted hzero hfailed
    rw [hfrozen (by rw [hold]; rfl), hold]
  waiting hactive := by
    rw [hattempts]
    refine h.waiting ?_
    by_contra hclosed
    rw [hfrozen (Bool.eq_false_of_not_eq_true hclosed)] at hactive
    exact hclosed hactive
  dead hstatus := by
    rcases hdead hstatus with hold | hclosed
    · rcases h.dead hold with hzero | hclosed
      · exact Or.inl hzero
      · exact Or.inr (hcandidate ▸ closed_of_evolves hevolves hclosed)
    · exact Or.inr hclosed

theorem Tallied.new (policy : ConsolidationPolicy) (start : CandidateStore) :
    Tallied policy start (fun _ ↦ 0) (fun _ ↦ 0) start where
  job id job hjob hnone := by
    rw [hjob] at hnone
    cases hnone
  absent id hnone := ⟨rfl, rfl, hnone⟩

theorem Tallied.expire {now : String} (h : Tallied policy start made failed s) :
    Tallied policy start made failed (s.expireMemoryCandidates codec now) where
  job id job hjob hnone := by
    obtain ⟨old, hold, hcandidate, hattempts, hfrozen, hdead⟩ := CandidateStore.job_of_expire hjob
    exact (h.job id old hold hnone).carry CandidateStore.quiet_expire.toEvolves hcandidate
      hattempts hfrozen hdead
  absent id hnone := h.absent id (Iff.mp CandidateStore.get_jobs_expire_eq_none hnone)

/-- A scheduling transaction does not count. -/
theorem Tallied.schedules (h : Tallied policy start made failed s)
    (hschedules : CandidateStore.Schedules codec call review s t)
    (hclosed : review.candidate.status ≠ "pending" →
      ∃ row, s.candidates.get call.id = some row ∧ row.status ≠ "pending") :
    Tallied policy start made failed t where
  job id job hjob hnone := by
    cases hold : s.jobs.get id with
    | none =>
        have hinserted := hschedules.inserted id job hold hjob
        obtain ⟨hmade, hfailed, -⟩ := h.absent id hold
        refine ⟨?_, fun _ hpos ↦ ?_, fun _ ↦ hinserted.attempts, fun hdead ↦ Or.inr ?_⟩
        · rw [hinserted.attempts, hmade, hfailed]
        · rw [hfailed] at hpos
          exact absurd hpos (lt_irrefl 0)
        · rw [hinserted.candidateId, hschedules.candidates]
          exact hclosed (hinserted.dead hdead)
    | some old =>
        obtain ⟨job', hjob', hresched⟩ := hschedules.kept id old hold
        obtain rfl : job' = job := Option.some.inj (hjob'.symm.trans hjob)
        refine (h.job id old hold hnone).carry hschedules.evolves hresched.candidateId
          hresched.attempts (fun hfrozen ↦ by rw [hresched.frozen hfrozen]) fun hstatus ↦ ?_
        rcases hresched.dead hstatus with hdead | ⟨hid, hpending⟩
        · exact Or.inl hdead
        · rw [hid, hschedules.candidates]
          exact Or.inr (hclosed hpending)
  absent id hnone := by
    cases hold : s.jobs.get id with
    | none => exact h.absent id hold
    | some old =>
        obtain ⟨job, hjob, -⟩ := hschedules.kept id old hold
        rw [hnone] at hjob
        cases hjob

theorem count_self (tally : String → ℕ) : count tally jobId jobId = tally jobId + 1 :=
  Function.update_self ..

theorem count_of_ne {tally : String → ℕ} {id : String} (h : id ≠ jobId) :
    count tally jobId id = tally id :=
  Function.update_of_ne h ..

/-- An attempt that closes the job. -/
theorem Tallied.closes {status : String} {jobStatus : JobStatus}
    (h : Tallied policy start made failed s)
    (hcloses : CandidateStore.Closes s t call.id jobId status jobStatus)
    (hjob : ∃ job, s.jobs.get jobId = some job ∧ job.candidateId = call.id)
    (hactive : jobStatus.active = false) (hstatus : status ≠ "pending") :
    Tallied policy start (count made jobId) failed t := by
  have hevolves := hcloses.evolves
  obtain ⟨⟨row, new, -, -, -, hnew, hcandidates⟩, job, closed, hold, hclaimable, hcandidate, -,
    hclosed, hattempts, hjobs⟩ := hcloses
  obtain ⟨job', hjob', hid⟩ := hjob
  obtain rfl : job' = job := Option.some.inj (hjob'.symm.trans hold)
  refine ⟨fun id j hj hnone ↦ ?_, fun id hnone ↦ ?_⟩
  · rw [hjobs] at hj
    split_ifs at hj with heq
    · obtain rfl := Option.some.inj hj
      subst heq
      obtain ⟨htotal, hexhausted, -, -⟩ := h.job id job' hold hnone
      refine ⟨?_, fun hzero hpos ↦ ?_, fun h ↦ ?_, fun _ ↦ Or.inr ⟨new, ?_, hnew ▸ hstatus⟩⟩
      · rw [hattempts, count_self]
        omega
      · rw [hexhausted hzero hpos] at hclaimable
        cases hclaimable
      · rw [hclosed, hactive] at h
        cases h
      · rw [hcandidates, hcandidate, hid, if_pos rfl]
    · rw [count_of_ne heq]
      exact (h.job id j hj hnone).carry hevolves rfl rfl (fun _ ↦ rfl) Or.inl
  · rw [hjobs] at hnone
    split_ifs at hnone with heq
    rw [count_of_ne heq]
    exact h.absent id hnone

/-- An attempt whose memory is refused. -/
theorem Tallied.refused {job : ConsolidationJob} (h : Tallied policy start made failed s)
    (hpolicy : call.policy = policy) (hjob : s.jobs.get jobId = some job)
    (hclaimable : job.status.claimable = true) :
    Tallied policy start (count made jobId) (count failed jobId)
      (s.recordFailure call jobId (job.attempts + 1)) := by
  obtain ⟨refused, hcandidate, -, hattempts, hstatus, hjobs⟩ :=
    CandidateStore.jobs_recordFailure call (job.attempts + 1) hjob
  have hactive : job.status.active = true := by
    cases hcases : job.status <;> simp_all [JobStatus.claimable, JobStatus.active]
  refine ⟨fun id j hj hnone ↦ ?_, fun id hnone ↦ ?_⟩
  · rw [hjobs] at hj
    split_ifs at hj with heq
    · obtain rfl := Option.some.inj hj
      subst heq
      obtain ⟨htotal, -, hwaiting, -⟩ := h.job id job hjob hnone
      -- The attempts were rolled back, so that each attempt is the first one.
      rw [hwaiting hactive, hpolicy, CandidateStore.retryStatus] at hstatus
      refine ⟨?_, fun hzero _ ↦ ?_, fun _ ↦ ?_, fun hdead ↦ Or.inl ?_⟩
      · rw [hattempts, count_self, count_self]
        omega
      · rw [hstatus, if_pos (by omega)]
      · rw [hattempts, hwaiting hactive]
      · by_contra hpos
        rw [hstatus, if_neg (by omega)] at hdead
        cases hdead
    · rw [count_of_ne heq, count_of_ne heq]
      exact h.job id j hj hnone
  · rw [hjobs] at hnone
    split_ifs at hnone with heq
    rw [count_of_ne heq, count_of_ne heq]
    exact h.absent id hnone

theorem Tallied.prepare (h : Tallied policy start made failed s) (call : ConsolidateCall) :
    Tallied policy start made failed (s.prepare codec call).1 := by
  rcases CandidateStore.prepare_fst codec s call with heq | heq | heq
  · rw [heq]
    exact h
  · rw [heq]
    exact h.expire
  · rw [heq]
    exact h.expire.expire

/-- One call of the consolidation keeps the tallies. -/
theorem Tallied.consolidate {w : Worker} (h : Tallied policy start w.made w.failed w.store)
    (hpolicy : call.policy = policy) :
    Tallied policy start (w.consolidate codec call).made (w.consolidate codec call).failed
      (w.consolidate codec call).store := by
  have hprepare : Tallied policy start w.made w.failed (w.store.prepare codec call).1 :=
    h.prepare call
  rw [Worker.consolidate, CandidateStore.consolidateMemoryCandidateWithAction,
    CandidateStore.attempted]
  rcases hs : w.store.prepare codec call with ⟨s, e | review⟩
  · rw [hs] at hprepare
    exact hprepare
  rw [hs] at hprepare
  dsimp only at hprepare ⊢
  rw [CandidateStore.execute]
  have hclosed : review.candidate.status ≠ "pending" →
      ∃ row, s.candidates.get call.id = some row ∧ row.status ≠ "pending" := by
    obtain ⟨row, hrow, hfollows⟩ := CandidateStore.follows_of_prepare hs
    exact fun h ↦ ⟨row, hrow, (hfollows.final h).symm ▸ h⟩
  rcases ht : s.schedule codec call review with e | ⟨t, r⟩
  · exact hprepare
  obtain ⟨hschedules, hgoes⟩ := CandidateStore.schedule_eq_ok ht
  have hscheduled := hprepare.schedules hschedules hclosed
  cases r with
  | finished outcome => exact hscheduled
  | scheduled jobId =>
      obtain ⟨⟨job, hjob, -, hid, -⟩, -, hdecision⟩ := hgoes jobId rfl
      dsimp only
      rcases hu : t.promote codec call review jobId with e | ⟨u, r⟩
      · exact hscheduled
      rcases CandidateStore.promote_eq_ok hu hdecision with
        ⟨memoryId, nextAttempt, -, hcloses, rfl⟩ | ⟨e, job', -, rfl, hjob', hclaimable, rfl⟩ |
        ⟨-, -, hcloses, nextAttempt, rfl⟩
      · exact hscheduled.closes hcloses ⟨job, hjob, hid⟩ rfl (by decide)
      · exact hscheduled.refused hpolicy hjob' hclaimable
      · exact hscheduled.closes hcloses ⟨job, hjob, hid⟩ rfl (by decide)

theorem Tallied.consolidateAll {w : Worker} {calls : List ConsolidateCall}
    (h : Tallied policy start w.made w.failed w.store)
    (hpolicy : ∀ call ∈ calls, call.policy = policy) :
    Tallied policy start (w.consolidateAll codec calls).made (w.consolidateAll codec calls).failed
      (w.consolidateAll codec calls).store := by
  induction calls generalizing w with
  | nil => exact h
  | cons call rest ih =>
      have hcall := hpolicy call List.mem_cons_self
      let retried : ConsolidateCall := { call with explicitSupersession := false }
      have hnext : Tallied policy start (w.consolidate codec retried).made
          (w.consolidate codec retried).failed (w.consolidate codec retried).store :=
        h.consolidate hcall
      rw [Worker.consolidateAll]
      split
      · exact hnext
      · exact ih hnext fun c hc ↦ hpolicy c (List.mem_cons_of_mem call hc)

/-- A job that waits with no attempt counted yet. -/
theorem JobTally.zero {job : ConsolidationJob} (hattempts : job.attempts = 0)
    (hactive : job.status.active = true) : JobTally policy 0 0 job s.candidates where
  total := by rw [hattempts]
  exhausted _ hpos := absurd hpos (lt_irrefl 0)
  waiting _ := hattempts
  dead hdead := by
    rw [hdead] at hactive
    cases hactive

/-- A retry starts the count of a job anew, with no attempts. -/
theorem Tallied.retry {w : Worker} {id : String} {reviewer : Reviewer} {now : Moment}
    (h : Tallied policy start w.made w.failed w.store) :
    Tallied policy start (w.retry codec id reviewer now).made (w.retry codec id reviewer now).failed
      (w.retry codec id reviewer now).store := by
  rw [Worker.retry]
  split
  · rename_i store job hstore hpicked
    obtain ⟨hget, -, -⟩ := CandidateStore.retriedJob_eq_some hpicked
    rcases CandidateStore.retryMemoryCandidateScoped_eq_ok hstore with
      ⟨hnone, -⟩ | ⟨job', hjob', rfl⟩
    · rw [hpicked] at hnone
      cases hnone
    obtain rfl : job' = job := Option.some.inj (hjob'.symm.trans hpicked)
    have hjobs := CandidateStore.get_updateJobs_one (p := fun j ↦ j.id = job'.id) (f := fun j ↦
      { j with status := .queued, attempts := 0, lastError := none, updatedAt := now.text })
      hget fun j hj ↦ of_decide_eq_true hj
    refine ⟨fun id' j hj hnone ↦ ?_, fun id' hnone ↦ ?_⟩
    · rw [hjobs] at hj
      split_ifs at hj with heq
      · obtain rfl := Option.some.inj hj
        dsimp only
        rw [heq, Function.update_self, Function.update_self]
        apply JobTally.zero (s := w.store) <;> simp [ConsolidationJob.updateIf, JobStatus.active]
      · dsimp only
        rw [Function.update_of_ne heq, Function.update_of_ne heq]
        exact h.job id' j hj hnone
    · rw [hjobs] at hnone
      split_ifs at hnone with heq
      dsimp only
      rw [Function.update_of_ne heq, Function.update_of_ne heq]
      exact h.absent id' hnone
  · exact h

theorem policy_of_mem_pickedCalls {reviewer : Reviewer} {limit : ℕ} {calls : ℕ → ConsolidateCall}
    {picked : List ConsolidateCall}
    (h : s.pickedCalls codec policy reviewer limit calls = .ok picked) :
    ∀ call ∈ picked, call.policy = policy := by
  rw [CandidateStore.pickedCalls] at h
  obtain ⟨_, -, h⟩ := Iff.mp Except.bind_ok_iff h
  obtain ⟨_, -, h⟩ := Iff.mp Except.bind_ok_iff h
  obtain rfl := Iff.mp Except.pure_ok_iff h
  intro call hcall
  obtain ⟨i, hi, rfl⟩ := List.mem_mapIdx.mp hcall
  rfl

theorem Tallied.step {w : Worker} (h : Tallied policy start w.made w.failed w.store)
    (event : WorkEvent) :
    Tallied policy start (w.step codec policy event).made (w.step codec policy event).failed
      (w.step codec policy event).store := by
  cases event with
  | consolidate call => exact h.consolidate rfl
  | processPending reviewer limit calls =>
      rw [Worker.step]
      split
      · exact h
      · rename_i picked hpicked
        exact h.consolidateAll (policy_of_mem_pickedCalls hpicked)
  | retry id reviewer now => exact h.retry

/-- A run of a worker under one policy. -/
abbrev Run (codec : ConsolidationCodec) (policy : ConsolidationPolicy) : Worker → Worker → Prop :=
  Transition.Run (fun w event w' ↦ w.step codec policy event = w') fun _ _ ↦ True

theorem tallied_run {w : Worker} (h : Run codec policy (.new start) w) :
    Tallied policy start w.made w.failed w.store := by
  have hstep : ∀ (w : Worker) (event : WorkEvent) (w' : Worker),
      Tallied policy start w.made w.failed w.store → True → w.step codec policy event = w' →
      Tallied policy start w'.made w'.failed w'.store := by
    rintro w event w' hw - rfl
    exact hw.step event
  exact Transition.Run.preserves hstep h (.new policy start)

/-- After any calls under a policy, a job that was made on the way counts its
attempts rightly, and is dead when they are used up, exactly when no memory of
it was refused since it was made or retried.  As long as its candidate is
pending, the bound on the attempts holds by itself only when it is zero or not
reached. -/
theorem attempts_counted_iff {w : Worker} {job : ConsolidationJob}
    (hrun : Run codec policy (.new start) w) (hjob : w.store.jobs.get job.id = some job)
    (hnew : start.jobs.get job.id = none) :
    ((job.attempts = w.made job.id ∧
        (policy.maxRetries + 1 ≤ w.failed job.id → job.status = .deadLetter)) ↔
      w.failed job.id = 0) ∧
    ((∀ row, w.store.candidates.get job.candidateId = some row → row.status = "pending") →
      ((policy.maxRetries + 1 ≤ w.failed job.id → job.status = .deadLetter) ↔
        policy.maxRetries = 0 ∨ w.failed job.id ≤ policy.maxRetries)) := by
  obtain ⟨htotal, hexhausted, -, hdead⟩ := (tallied_run hrun).job job.id job hjob hnew
  refine ⟨⟨fun h ↦ by omega, fun h ↦ ⟨by omega, fun hbound ↦ by omega⟩⟩, fun hpending ↦ ?_⟩
  constructor
  · intro hbound
    by_contra hboth
    obtain ⟨hpos, hmore⟩ := not_or.mp hboth
    rcases hdead (hbound (by omega)) with hzero | ⟨row, hrow, hclosed⟩
    · exact hpos hzero
    · exact hclosed (hpending row hrow)
  · rintro (hzero | hfew) hbound
    · exact hexhausted hzero (by omega)
    · omega

/-! ## A memory that is always refused -/

theorem run_foldl (codec : ConsolidationCodec) (policy : ConsolidationPolicy)
    (events : List WorkEvent) (w : Worker) :
    Run codec policy w (events.foldl (step codec policy) w) := by
  induction events generalizing w with
  | nil => exact Transition.Run.refl w
  | cons event rest ih =>
      exact Relation.ReflTransGen.head ⟨event, trivial, rfl⟩ (ih (w.step codec policy event))

def owner : Reviewer := ⟨"owner", ["*"], true⟩

def firstMoment : Moment := ⟨"2026-01-01T00:00:00Z", 20260101000000⟩

/-- A proposal under the dedupe key of a memory that was retracted. -/
def retiredProposal : ObservationCandidateInput where
  observationKind := "user-authored"
  contentType := "semantic"
  retentionTier := "durable"
  scope := "workspace"
  project := "work"
  title := "Deployment"
  content := "The deploy runs at noon"
  source := "chat"
  sourceId := "s1"
  dedupeKey := some "k"
  confidence := 0x3ff0000000000000
  importance := 0x3ff0000000000000
  sensitivity := "normal"
  acl := []
  provenance := .object []
  expiresAt := "2026-01-02T00:00:00Z"

/-- The store with the retracted memory and the proposal. -/
def retiredStart : Except String CandidateStore := do
  let store ← Store.performAll Codec.sample (Store.adopted none) [
    .remember (Store.ownerCall "m1") (Store.fact "Old" (some "k") none none) Store.factAxes,
    .forget (Store.ownerCall "m1") "m1"]
  (CandidateStore.new store).proposeMemoryCandidate .sample retiredProposal owner "c1" firstMoment

/-- One retry, without a time of waiting. -/
def oneRetry : ConsolidationPolicy :=
  { ConsolidationPolicy.sample with maxRetries := 1, retryBackoffSeconds := 0 }

def approvingCall (jobId : String) : ConsolidateCall where
  id := "c1"
  policy := oneRetry
  reviewer := owner
  explicitApproval := true
  explicitSupersession := false
  jobId := jobId
  memoryId := "m2"
  expiredAt := firstMoment.text
  classifiedAt := firstMoment
  evaluatedAt := firstMoment.instant
  now := firstMoment
  rememberedAt := firstMoment.text
  changedAt := firstMoment.text
  failedAt := firstMoment.text

/-- The worker after two calls. -/
def refusedTwice (start : CandidateStore) : Worker :=
  [.consolidate (approvingCall "j1"), .consolidate (approvingCall "j2")].foldl
    (step .sample oneRetry) (.new start)

theorem refusedTwice_eq : retiredStart.toOption.map (fun start ↦
    let w := refusedTwice start
    (w.made "j1", w.failed "j1", (start.jobs.get "j1").isNone,
      (w.store.jobs.get "j1").map fun job ↦ (job.attempts, job.status))) =
      some (2, 2, true, some (0, .retry)) := by
  decide +kernel

/-- A job after two attempts that were refused. -/
theorem exists_refusedTwice : ∃ start w job, Run .sample oneRetry (.new start) w ∧
    w.store.jobs.get job.id = some job ∧ start.jobs.get job.id = none ∧
    w.made job.id = 2 ∧ w.failed job.id = 2 ∧ job.attempts = 0 ∧ job.status = .retry := by
  obtain ⟨start, -, h⟩ := Option.map_eq_some_iff.mp refusedTwice_eq
  simp only [Prod.mk.injEq, Option.map_eq_some_iff] at h
  obtain ⟨hmade, hfailed, hnone, job, hjob, hattempts, hstatus⟩ := h
  have hid : job.id = "j1" := Table.key_of_get hjob
  refine ⟨start, refusedTwice start, job, run_foldl _ _ _ _, ?_, ?_, ?_, ?_, hattempts, hstatus⟩
  · rw [hid, hjob]
  · rw [hid]
    exact Option.isNone_iff_eq_none.mp hnone
  · rw [hid, hmade]
  · rw [hid, hfailed]

/-- Where the theorem applies: a job that was tried twice. -/
theorem attempts_counted_iff_refusedTwice : ∃ (w : Worker) (job : ConsolidationJob),
    w.failed job.id = 2 ∧
    (((job.attempts = w.made job.id ∧
        (oneRetry.maxRetries + 1 ≤ w.failed job.id → job.status = .deadLetter)) ↔
      w.failed job.id = 0) ∧
    ((∀ row, w.store.candidates.get job.candidateId = some row → row.status = "pending") →
      ((oneRetry.maxRetries + 1 ≤ w.failed job.id → job.status = .deadLetter) ↔
        oneRetry.maxRetries = 0 ∨ w.failed job.id ≤ oneRetry.maxRetries))) := by
  obtain ⟨start, w, job, hrun, hjob, hnew, -, hfailed, -⟩ := exists_refusedTwice
  exact ⟨w, job, hfailed, attempts_counted_iff hrun hjob hnew⟩

/-- Both attempts that one retry allows were refused, and the job waits for a
first retry as if none had been made. -/
theorem attempts_lost : ∃ start w job, Run .sample oneRetry (.new start) w ∧
    w.store.jobs.get job.id = some job ∧ start.jobs.get job.id = none ∧
    w.failed job.id = w.made job.id ∧ oneRetry.maxRetries + 1 ≤ w.failed job.id ∧
    job.attempts ≠ w.made job.id ∧ job.status ≠ .deadLetter := by
  obtain ⟨start, w, job, hrun, hjob, hnew, hmade, hfailed, hattempts, hstatus⟩ :=
    exists_refusedTwice
  refine ⟨start, w, job, hrun, hjob, hnew, by rw [hfailed, hmade], ?_, ?_, ?_⟩
  · rw [hfailed]
    exact Nat.le_refl 2
  · rw [hattempts, hmade]
    decide
  · rw [hstatus]
    decide

end Worker

end Cortana
