import Cortana.Core.Runs
import Cortana.Desktop.SourceJobs

/-!
# Runs of source jobs

Any number of callers plan, execute and cancel while the events of processes
come in.  An execution takes the locks of jobs and plans one after the other,
so that its steps mix with those of the others.
-/

namespace Cortana

namespace SourceJobs

/-! ## The system -/

/-- How far an execution has come.  One that is confirmed is overtaken once
another execution of its plan has a job and the plan is still there, or was
when this one was confirmed. -/
inductive Phase where
  | checked
  | confirmed (overtaken : Bool)
  | started
deriving DecidableEq

structure Call where
  caller : ℕ
  request : ExecuteRequest
  phase : Phase
deriving DecidableEq

/-- Another execution of a plan has got its job. -/
def Call.overtake (planId : String) (call : Call) : Call :=
  match call.phase with
  | .confirmed _ =>
      if call.request.planId = planId then { call with phase := .confirmed true } else call
  | _ => call

theorem Call.overtake_caller (planId : String) (call : Call) :
    (call.overtake planId).caller = call.caller := by
  rw [overtake]
  split
  · split <;> rfl
  · rfl

theorem Call.overtake_request (planId : String) (call : Call) :
    (call.overtake planId).request = call.request := by
  rw [overtake]
  split
  · split <;> rfl
  · rfl

theorem Call.overtake_checked (planId : String) {call : Call} (h : call.phase = .checked) :
    (call.overtake planId).phase = .checked := by
  rw [overtake, h]
  exact h

theorem Call.overtake_started (planId : String) {call : Call} (h : call.phase = .started) :
    call.overtake planId = call := by
  rw [overtake, h]

/-- Only an execution of another plan is not overtaken. -/
theorem Call.confirmed_of_overtake {planId : String} {call : Call}
    (h : (call.overtake planId).phase = .confirmed false) :
    call.phase = .confirmed false ∧ call.request.planId ≠ planId := by
  rw [overtake] at h
  split at h
  next =>
      split at h
      next => cases h
      next hother => exact ⟨h, hother⟩
  next hphase => exact absurd h (hphase false)

/-- A process that was spawned for a job. -/
structure Process where
  job : String
  args : List String
  /-- Whether its termination has been reported. -/
  reported : Bool
  /-- Whether its events have ended. -/
  finished : Bool
deriving DecidableEq

/-- A job that was started for a plan. -/
structure Launch where
  planId : String
  job : Snapshot
  args : List String
deriving DecidableEq

/-- The component with what surrounds it: executions under way, processes, and
what has been issued, started and cancelled. -/
structure System where
  state : SourceJobState
  calls : Table Call.caller
  processes : Table Process.job
  issued : List PendingPlan
  launches : List Launch
  cancelled : List String

def System.initial : System := ⟨.initial, .empty _, .empty _, [], [], []⟩

inductive Event where
  | plan (source : Source) (budget : Budget)
      (coverage : Except String (Option Bool × Option Bool)) (clock : PlanClock)
  | confirmJobs (caller : ℕ) (request : ExecuteRequest) (approved : Bool)
      (coverage : Except String (Option Bool))
  | confirmPlan (caller now : ℕ)
  /-- `start` in `execute_initial_sync`. -/
  | execute (caller : ℕ) (spawn : Spawn)
  | consume (caller : ℕ)
  /-- `start` of the other operations. -/
  | start (source : Source) (operation : Operation) (args : List String)
      (writesIndexedData : Bool) (spawn : Spawn)
  | cancel (id : String) (kill : Kill) (now : ℕ)
  | event (id : String) (event : CommandEvent) (now : ℕ)
  | disconnect (id : String) (now : ℕ)

namespace System

/-- Whether an execution of a plan is between its start and its consume. -/
def inUse (s : System) (planId : String) : Bool :=
  s.calls.rows.any fun call ↦ call.phase = .started ∧ call.request.planId = planId

/-- One event; what is not enabled changes nothing. -/
def next (s : System) : Event → System
  | .plan source budget coverage clock =>
      match buildInitialSyncPlan s.state source budget coverage clock with
      | (state, .ok plan) =>
          { s with
            state := state
            issued := s.issued ++ [⟨plan.planId, plan.source, plan.budget, clock.created⟩] }
      | (state, .error _) => { s with state := state }
  | .confirmJobs caller request approved coverage =>
      match s.calls.get caller, confirmJobs s.state request approved coverage with
      | none, .ok () => { s with calls := s.calls.put ⟨caller, request, .checked⟩ }
      | _, _ => s
  | .confirmPlan caller now =>
      match s.calls.get caller with
      | some ⟨_, request, .checked⟩ =>
          match confirmPlan s.state request now with
          | (state, .ok ()) =>
              { s with
                state := state
                calls := s.calls.put ⟨caller, request, .confirmed (s.inUse request.planId)⟩ }
          | (state, .error _) => { s with state := state, calls := s.calls.erase caller }
      | _ => s
  | .execute caller spawn =>
      match s.calls.get caller with
      | some ⟨_, request, .confirmed _⟩ =>
          match SourceJobs.start s.state request.source .initialSync (some request.budget) true
            spawn with
          | (state, .ok snapshot) =>
              { s with
                state := state
                calls := (s.calls.modify (Call.overtake request.planId)
                  (Call.overtake_caller _)).put ⟨caller, request, .started⟩
                processes := s.processes.put
                  ⟨snapshot.id, initialSyncArgs request.source.name request.budget, false, false⟩
                launches := s.launches ++ [⟨request.planId, snapshot,
                  initialSyncArgs request.source.name request.budget⟩] }
          | (state, .error _) => { s with state := state, calls := s.calls.erase caller }
      | _ => s
  | .consume caller =>
      match s.calls.get caller with
      | some ⟨_, request, .started⟩ =>
          { s with
            state := consumeInitialSyncPlan s.state request.planId
            calls := s.calls.erase caller }
      | _ => s
  | .start source operation args writesIndexedData spawn =>
      match SourceJobs.start s.state source operation none writesIndexedData spawn with
      | (state, .ok snapshot) =>
          { s with
            state := state
            processes := s.processes.put ⟨snapshot.id, args, false, false⟩ }
      | (state, .error _) => { s with state := state }
  | .cancel id kill now =>
      { s with
        state := (cancel s.state id kill now).1
        cancelled := if s.state.accepts id then s.cancelled ++ [id] else s.cancelled }
  | .event id event now =>
      match s.processes.get id with
      | some ⟨_, args, false, false⟩ =>
          { s with
            state := handleEvent s.state id event now
            processes :=
              match event with
              | .output => s.processes
              | .terminated _ => s.processes.put ⟨id, args, true, false⟩ }
      | _ => s
  | .disconnect id now =>
      match s.processes.get id with
      | some ⟨_, args, reported, false⟩ =>
          { s with
            state := finishDisconnected s.state id now
            processes := s.processes.put ⟨id, args, reported, true⟩ }
      | _ => s

def Step (s : System) (event : Event) (t : System) : Prop := t = s.next event

/-- What keeps the steps of the component from getting in each other's way: a
running job that is cancelled is killed, events do not end before termination
is reported, and a job starts for a plan only before it expires and if its
execution has not been overtaken. -/
def Permitted (s : System) : Event → Prop
  | .execute caller spawn =>
      s.state.busy = false → spawn.outcome .initialSync = .ok () →
        ∀ call ∈ s.calls.get caller, call.phase ≠ .confirmed true ∧
          ∀ plan ∈ s.issued, plan.id = call.request.planId →
            spawn.startedAt ≤ plan.createdAt + planTtlSeconds
  | .cancel id kill _ => ∀ job ∈ s.state.jobs.get id, job.snapshot.status = .running →
      terminateSourceProcess kill = .ok ()
  | .disconnect id _ => ∀ job ∈ s.state.jobs.get id, job.active = false
  | _ => True

instance (s : System) : (event : Event) → Decidable (s.Permitted event)
  | .execute caller spawn =>
      inferInstanceAs (Decidable (s.state.busy = false → spawn.outcome .initialSync = .ok () →
        ∀ call ∈ s.calls.get caller, call.phase ≠ .confirmed true ∧
          ∀ plan ∈ s.issued, plan.id = call.request.planId →
            spawn.startedAt ≤ plan.createdAt + planTtlSeconds))
  | .cancel id kill _ =>
      inferInstanceAs (Decidable (∀ job ∈ s.state.jobs.get id,
        job.snapshot.status = .running → terminateSourceProcess kill = .ok ()))
  | .disconnect id _ =>
      inferInstanceAs (Decidable (∀ job ∈ s.state.jobs.get id, job.active = false))
  | .plan .. | .confirmJobs .. | .confirmPlan .. | .consume .. | .start .. | .event .. =>
      inferInstanceAs (Decidable True)

end System

/-! ## What holds in every state -/

/-- At most one job runs or is being cancelled, at most one process has not
been reported, twenty jobs are kept, no cancelled job has succeeded, and a plan
has started at most one job, which is for its source and budget and before it
expired. -/
structure SingleFlight (s : System) : Prop where
  active : ∀ job ∈ s.state.jobs.rows, ∀ job' ∈ s.state.jobs.rows,
    job.active = true → job'.active = true → job = job'
  processes : ∀ process ∈ s.processes.rows, ∀ process' ∈ s.processes.rows,
    process.reported = false → process'.reported = false → process = process'
  kept : s.state.jobs.rows.length ≤ maxJobs
  cancelled : ∀ job ∈ s.state.jobs.rows, job.id ∈ s.cancelled →
    job.snapshot.status ≠ .succeeded
  once : (s.launches.map Launch.planId).Nodup
  own : ∀ l ∈ s.launches, ∃ plan ∈ s.issued, plan.id = l.planId ∧
    l.job.operation = .initialSync ∧ l.job.source = plan.source ∧
    l.job.budget = some plan.budget ∧ l.args = initialSyncArgs plan.source plan.budget ∧
    l.job.startedAt ≤ plan.createdAt + planTtlSeconds

/-- A job that is over has the same status later. -/
def Settles (s t : System) : Prop :=
  ∀ job ∈ s.state.jobs.rows, job.active = false →
    ∀ job' ∈ t.state.jobs.rows, job'.id = job.id → job'.snapshot.status = job.snapshot.status

/-- A job that runs or is being cancelled is there after a step. -/
def KeepsActive (s t : System) : Prop :=
  ∀ job ∈ s.state.jobs.rows, job.active = true → ∃ job' ∈ t.state.jobs.rows, job'.id = job.id

/-! ## What a step does to jobs and processes -/

theorem start_eq_ok {state state' : SourceJobState} {source : Source} {operation : Operation}
    {budget : Option Budget} {writes : Bool} {spawn : Spawn} {snapshot : Snapshot}
    (h : SourceJobs.start state source operation budget writes spawn = (state', .ok snapshot)) :
    state.busy = false ∧ spawn.outcome operation = .ok () ∧
      snapshot = ⟨jobId spawn.startedAt state.nextJob, operation, source.name, source.kind,
        source.project, source.acl, .running, spawn.startedAt, none, none, false, writes,
        budget⟩ ∧
      state' = { state with
        jobs := (pruneJobs state.jobs).put ⟨snapshot, true⟩, nextJob := state.nextJob + 1 } := by
  rw [SourceJobs.start] at h
  split at h
  next => cases (Prod.mk.inj h).2
  next hidle =>
      dsimp only at h
      split at h
      next => cases (Prod.mk.inj h).2
      next houtcome =>
          obtain ⟨hstate, hsnapshot⟩ := Prod.mk.inj h
          obtain rfl := Except.ok.inj hsnapshot
          exact ⟨by simpa using hidle, houtcome, rfl, hstate.symm⟩

theorem start_eq_error {state state' : SourceJobState} {source : Source} {operation : Operation}
    {budget : Option Budget} {writes : Bool} {spawn : Spawn} {message : String}
    (h : SourceJobs.start state source operation budget writes spawn = (state', .error message)) :
    state' = state ∨
      (state.busy = false ∧ state' = { state with jobs := pruneJobs state.jobs }) := by
  rw [SourceJobs.start] at h
  split at h
  next => exact .inl (Prod.mk.inj h).1.symm
  next hidle =>
      dsimp only at h
      split at h
      next => exact .inr ⟨by simpa using hidle, (Prod.mk.inj h).1.symm⟩
      next => cases (Prod.mk.inj h).2

/-- The kinds of steps, as jobs and processes see them. -/
inductive JobStep (s t : System) : Prop where
  | unchanged (jobs : t.state.jobs = s.state.jobs) (processes : t.processes = s.processes)
      (cancelled : t.cancelled = s.cancelled) (next : s.state.nextJob ≤ t.state.nextJob)
  | pruned (idle : s.state.busy = false) (jobs : t.state.jobs = pruneJobs s.state.jobs)
      (processes : t.processes = s.processes) (cancelled : t.cancelled = s.cancelled)
      (next : t.state.nextJob = s.state.nextJob)
  | launched (snapshot : Snapshot) (args : List String) (idle : s.state.busy = false)
      (id : snapshot.id = jobId snapshot.startedAt s.state.nextJob)
      (running : snapshot.status = .running)
      (jobs : t.state.jobs = (pruneJobs s.state.jobs).put ⟨snapshot, true⟩)
      (processes : t.processes = s.processes.put ⟨snapshot.id, args, false, false⟩)
      (cancelled : t.cancelled = s.cancelled) (next : t.state.nextJob = s.state.nextJob + 1)
  | cancelled (job : SourceJob) (kill : Kill) (now : ℕ)
      (found : s.state.jobs.get job.id = some job) (running : job.snapshot.status = .running)
      (killed : terminateSourceProcess kill = .ok ())
      (jobs : t.state.jobs = s.state.jobs.put (job.cancel kill now))
      (processes : t.processes = s.processes) (cancelled : t.cancelled = s.cancelled ++ [job.id])
      (next : t.state.nextJob = s.state.nextJob)
  | reported (process : Process) (code : Option ℤ) (now : ℕ)
      (found : s.processes.get process.job = some process)
      (jobs : t.state.jobs = match s.state.jobs.get process.job with
        | none => s.state.jobs
        | some job => s.state.jobs.put (job.terminated code now))
      (processes : t.processes = s.processes.put { process with reported := true })
      (cancelled : t.cancelled = s.cancelled) (next : t.state.nextJob = s.state.nextJob)
  | finished (process : Process) (found : s.processes.get process.job = some process)
      (jobs : t.state.jobs = s.state.jobs)
      (processes : t.processes = s.processes.put { process with finished := true })
      (cancelled : t.cancelled = s.cancelled) (next : t.state.nextJob = s.state.nextJob)

theorem disconnected_of_settled {job : SourceJob} (h : job.active = false) (now : ℕ) :
    job.disconnected now = job := by
  rw [SourceJob.disconnected, if_neg (by simp [h])]

/-- A start as jobs and processes see it. -/
theorem jobStep_start {s t : System} {state : SourceJobState} {source : Source}
    {operation : Operation} {budget : Option Budget} {writes : Bool} {spawn : Spawn}
    {answer : Except String Snapshot} {args : List String}
    (h : SourceJobs.start s.state source operation budget writes spawn = (state, answer))
    (hstate : t.state = state) (hcancelled : t.cancelled = s.cancelled)
    (hprocesses : t.processes = match answer with
      | .ok snapshot => s.processes.put ⟨snapshot.id, args, false, false⟩
      | .error _ => s.processes) : JobStep s t := by
  cases answer with
  | ok snapshot =>
      obtain ⟨hidle, -, hsnapshot, rfl⟩ := start_eq_ok h
      refine .launched snapshot args hidle ?_ ?_ ?_ hprocesses hcancelled ?_
      · rw [hsnapshot]
      · rw [hsnapshot]
      · rw [hstate]
      · rw [hstate]
  | error message =>
      rcases start_eq_error h with rfl | ⟨hidle, rfl⟩
      · exact .unchanged (by rw [hstate]) hprocesses hcancelled (by rw [hstate])
      · exact .pruned hidle (by rw [hstate]) hprocesses hcancelled (by rw [hstate])

/-- A step that is permitted is of one of the kinds. -/
theorem jobStep_next {s : System} {event : Event} (hok : s.Permitted event) :
    JobStep s (s.next event) := by
  cases event with
  | plan source budget coverage clock =>
      rw [System.next]
      cases coverage with
      | error => exact .unchanged rfl rfl rfl le_rfl
      | ok => exact .unchanged rfl rfl rfl (Nat.le_succ _)
  | confirmJobs caller request approved coverage =>
      rw [System.next]
      split
      · exact .unchanged rfl rfl rfl le_rfl
      · exact .unchanged rfl rfl rfl le_rfl
  | confirmPlan caller now =>
      rw [System.next]
      split
      next =>
          split
          next hconfirm =>
              rw [← (Prod.mk.inj hconfirm).1]
              exact .unchanged rfl rfl rfl le_rfl
          next hconfirm =>
              rw [← (Prod.mk.inj hconfirm).1]
              exact .unchanged rfl rfl rfl le_rfl
      next => exact .unchanged rfl rfl rfl le_rfl
  | execute caller spawn =>
      rw [System.next]
      split
      next =>
          split
          next hstart => exact jobStep_start hstart rfl rfl rfl
          next hstart =>
              exact @jobStep_start _ _ _ _ _ _ _ _ _ [] hstart rfl rfl rfl
      next => exact .unchanged rfl rfl rfl le_rfl
  | consume caller =>
      rw [System.next]
      split
      · exact .unchanged rfl rfl rfl le_rfl
      · exact .unchanged rfl rfl rfl le_rfl
  | start source operation args writes spawn =>
      rw [System.next]
      split
      next hstart => exact jobStep_start hstart rfl rfl rfl
      next hstart => exact @jobStep_start _ _ _ _ _ _ _ _ _ [] hstart rfl rfl rfl
  | cancel id kill now =>
      rw [System.next]
      cases haccepts : s.state.accepts id with
      | true =>
          obtain ⟨job, hjob, hrunning, hstate⟩ := cancel_of_accepts haccepts kill now
          obtain rfl := Table.key_of_get hjob
          rw [hstate]
          exact .cancelled job kill now hjob hrunning (hok job hjob hrunning) rfl rfl rfl rfl
      | false =>
          rw [cancel_of_not_accepts haccepts]
          exact .unchanged rfl rfl rfl le_rfl
  | event id event now =>
      rw [System.next]
      split
      next job args hprocess =>
          obtain rfl : job = id := Table.key_of_get hprocess
          cases event with
          | output =>
              have hstate : handleEvent s.state job .output now = s.state := by
                rw [handleEvent]
                split <;> rfl
              rw [hstate]
              exact .unchanged rfl rfl rfl le_rfl
          | terminated code =>
              refine .reported ⟨job, args, false, false⟩ code now hprocess ?_ rfl rfl ?_
              · dsimp only
                rw [handleEvent]
                split <;> simp_all only
              · dsimp only
                rw [handleEvent]
                split <;> rfl
      next => exact .unchanged rfl rfl rfl le_rfl
  | disconnect id now =>
      rw [System.next]
      split
      next job args reported hprocess =>
          obtain rfl : job = id := Table.key_of_get hprocess
          have hstate : finishDisconnected s.state job now = s.state := by
            rw [finishDisconnected]
            split
            next => rfl
            next found hfound =>
                rw [disconnected_of_settled (hok found hfound)]
                obtain rfl := Table.key_of_get hfound
                rw [Table.put_self hfound]
          rw [hstate]
          exact .finished ⟨job, args, reported, false⟩ hprocess rfl rfl rfl rfl
      next => exact .unchanged rfl rfl rfl le_rfl

/-! ## Jobs and processes in a run -/

theorem mem_pruneJobs {jobs : Table SourceJob.id} {job : SourceJob}
    (h : job ∈ (pruneJobs jobs).rows) : job ∈ jobs.rows :=
  Table.mem_of_mem_prune h

/-- Without an active job there is room for one more after pruning. -/
theorem length_pruneJobs_lt {jobs : Table SourceJob.id}
    (hidle : ∀ job ∈ jobs.rows, job.active = false) :
    (pruneJobs jobs).rows.length < maxJobs := by
  have hgoes : ∀ job ∈ jobs.rows, (!job.active) = true := by
    intro job hjob
    rw [hidle job hjob]
    rfl
  have hnot := @Table.not_full_prune _ _ _ _ (fun n ↦ decide (maxJobs ≤ n))
    (fun job ↦ !job.active)
    (fun job job' ↦ compareJobOrder job.snapshot job'.snapshot == .lt) _ jobs rfl hgoes le_rfl
  rw [pruneJobs]
  simpa using hnot

theorem idle_iff {state : SourceJobState} :
    state.busy = false ↔ ∀ job ∈ state.jobs.rows, job.active = false := by
  simp [SourceJobState.busy]

/-- An id that has been given out. -/
def Numbered (bound : ℕ) (id : String) : Prop :=
  ∃ time number, id = jobId time number ∧ number < bound

theorem Numbered.mono {bound bound' : ℕ} {id : String} (h : Numbered bound id)
    (hle : bound ≤ bound') : Numbered bound' id := by
  obtain ⟨time, number, hid, hlt⟩ := h
  exact ⟨time, number, hid, hlt.trans_le hle⟩

theorem Numbered.ne_next {bound time : ℕ} {id : String} (h : Numbered bound id) :
    id ≠ jobId time bound := by
  obtain ⟨time', number, rfl, hlt⟩ := h
  intro heq
  exact absurd (numberedId_injective heq) hlt.ne

/-- What is kept about jobs and processes. -/
structure JobInv (s : System) : Prop where
  jobs : ∀ job ∈ s.state.jobs.rows, Numbered s.state.nextJob job.id
  processes : ∀ process ∈ s.processes.rows, Numbered s.state.nextJob process.job
  cancelled : ∀ id ∈ s.cancelled, Numbered s.state.nextJob id
  active : ∀ job ∈ s.state.jobs.rows, ∀ job' ∈ s.state.jobs.rows,
    job.active = true → job'.active = true → job = job'
  kept : s.state.jobs.rows.length ≤ maxJobs
  unreported : ∀ process ∈ s.processes.rows, process.reported = false →
    ∃ job ∈ s.state.jobs.rows, job.id = process.job ∧ job.active = true
  settled : ∀ job ∈ s.state.jobs.rows, job.id ∈ s.cancelled →
    job.snapshot.status ≠ .running ∧ job.snapshot.status ≠ .succeeded

/-- A job is replaced by one that is active only if the old one was. -/
theorem active_put {jobs : Table SourceJob.id} {job job' : SourceJob}
    (hactive : ∀ a ∈ jobs.rows, ∀ b ∈ jobs.rows, a.active = true → b.active = true → a = b)
    (hfound : jobs.get job.id = some job) (hid : job'.id = job.id)
    (hless : job'.active = true → job.active = true) :
    ∀ a ∈ (jobs.put job').rows, ∀ b ∈ (jobs.put job').rows,
      a.active = true → b.active = true → a = b := by
  have hmem := (Iff.mp Table.get_eq_some_iff hfound).1
  have hother : ∀ a ∈ jobs.rows, a.id ≠ job'.id → job'.active = true → a.active = false := by
    intro a ha hne hnew
    by_contra hold
    have heq := hactive a ha job hmem (by simpa using hold) (hless hnew)
    exact hne (by rw [heq, hid])
  intro a ha b hb haactive hbactive
  rcases Iff.mp Table.mem_put ha with rfl | ⟨haold, hane⟩
  · rcases Iff.mp Table.mem_put hb with rfl | ⟨hbold, hbne⟩
    · rfl
    · rw [hother b hbold hbne haactive] at hbactive
      cases hbactive
  · rcases Iff.mp Table.mem_put hb with rfl | ⟨hbold, -⟩
    · rw [hother a haold hane hbactive] at haactive
      cases haactive
    · exact hactive a haold b hbold haactive hbactive

/-- What may become of a job whose process is cancelled. -/
theorem cancel_killed {job : SourceJob} {kill : Kill}
    (hkilled : terminateSourceProcess kill = .ok ()) (now : ℕ) :
    job.cancel kill now = ⟨{ job.snapshot with status := .cancelling }, false⟩ := by
  rw [SourceJob.cancel, hkilled]
  split <;> rfl

theorem terminated_id (job : SourceJob) (code : Option ℤ) (now : ℕ) :
    (job.terminated code now).id = job.id := by
  rw [SourceJob.terminated]
  split <;> rfl

/-- A job whose process has terminated is over, as it was if it was. -/
theorem terminated_status (job : SourceJob) (code : Option ℤ) (now : ℕ) :
    (job.terminated code now).active = false ∧
      (job.active = false → (job.terminated code now).snapshot.status = job.snapshot.status) ∧
      ((job.terminated code now).snapshot.status = .succeeded →
        job.snapshot.status = .succeeded ∨ job.snapshot.status = .running) ∧
      (job.terminated code now).snapshot.status ≠ .running := by
  obtain ⟨snapshot, child⟩ := job
  rw [SourceJob.terminated, SourceJob.active, SourceJob.active]
  cases hstatus : snapshot.status with
  | running =>
      by_cases hcode : code = some 0 <;> simp [Status.active, hcode]
  | cancelling => simp [Status.active]
  | succeeded => simp [Status.active, hstatus]
  | failed => simp [Status.active, hstatus]
  | cancelled => simp [Status.active, hstatus]

/-- The rows of a table with one row replaced by a row with its key. -/
theorem numbered_put {bound : ℕ} {jobs : Table SourceJob.id} {job : SourceJob}
    (hjobs : ∀ a ∈ jobs.rows, Numbered bound a.id) (hjob : Numbered bound job.id) :
    ∀ a ∈ (jobs.put job).rows, Numbered bound a.id := by
  intro a ha
  rcases Iff.mp Table.mem_put ha with rfl | ⟨ha, -⟩
  · exact hjob
  · exact hjobs a ha

section JobSteps

variable {s t : System}

/-- The jobs are those of before, and so are the processes that have not reported. -/
theorem JobInv.of_jobs_eq (hinv : JobInv s) (hjobs : t.state.jobs = s.state.jobs)
    (hcancelled : t.cancelled = s.cancelled) (hnext : s.state.nextJob ≤ t.state.nextJob)
    (hprocesses : ∀ process ∈ t.processes.rows, ∃ old ∈ s.processes.rows,
      old.job = process.job ∧ (process.reported = false → old.reported = false)) :
    JobInv t where
  jobs := by
    rw [hjobs]
    exact fun job hjob ↦ (hinv.jobs job hjob).mono hnext
  processes := by
    intro process hprocess
    obtain ⟨old, hold, hid, -⟩ := hprocesses process hprocess
    exact hid ▸ (hinv.processes old hold).mono hnext
  cancelled := by
    rw [hcancelled]
    exact fun id hid ↦ (hinv.cancelled id hid).mono hnext
  active := hjobs ▸ hinv.active
  kept := hjobs ▸ hinv.kept
  unreported := by
    intro process hprocess hreported
    obtain ⟨old, hold, hid, hless⟩ := hprocesses process hprocess
    rw [hjobs, ← hid]
    exact hinv.unreported old hold (hless hreported)
  settled := by
    rw [hjobs, hcancelled]
    exact hinv.settled

/-- Jobs are dropped when none is active. -/
theorem JobInv.pruned (hinv : JobInv s) (hidle : s.state.busy = false)
    (hjobs : t.state.jobs = pruneJobs s.state.jobs) (hprocesses : t.processes = s.processes)
    (hcancelled : t.cancelled = s.cancelled) (hnext : t.state.nextJob = s.state.nextJob) :
    JobInv t := by
  have hall := Iff.mp idle_iff hidle
  refine ⟨?_, ?_, ?_, ?_, ?_, ?_, ?_⟩
  · intro job hjob
    rw [hjobs] at hjob
    rw [hnext]
    exact hinv.jobs job (mem_pruneJobs hjob)
  · rw [hprocesses, hnext]
    exact hinv.processes
  · rw [hcancelled, hnext]
    exact hinv.cancelled
  · rw [hjobs]
    intro a ha b hb
    exact hinv.active a (mem_pruneJobs ha) b (mem_pruneJobs hb)
  · rw [hjobs]
    exact (length_pruneJobs_lt hall).le
  · intro process hprocess hreported
    rw [hprocesses] at hprocess
    obtain ⟨job, hjob, -, hactive⟩ := hinv.unreported process hprocess hreported
    rw [hall job hjob] at hactive
    cases hactive
  · rw [hjobs, hcancelled]
    intro job hjob
    exact hinv.settled job (mem_pruneJobs hjob)

/-- A job is added to jobs that are over. -/
theorem active_put_of_idle {jobs : Table SourceJob.id} (job : SourceJob)
    (hidle : ∀ old ∈ jobs.rows, old.active = false) :
    ∀ a ∈ (jobs.put job).rows, ∀ b ∈ (jobs.put job).rows,
      a.active = true → b.active = true → a = b := by
  have hnew : ∀ a ∈ (jobs.put job).rows, a.active = true → a = job := by
    intro a ha hactive
    rcases Iff.mp Table.mem_put ha with rfl | ⟨hold, -⟩
    · rfl
    · rw [hidle a hold] at hactive
      cases hactive
  intro a ha b hb haactive hbactive
  rw [hnew a ha haactive, hnew b hb hbactive]

/-- A job with a new number is started when none is active. -/
theorem JobInv.launched (hinv : JobInv s) {snapshot : Snapshot} {args : List String}
    (hidle : s.state.busy = false) (hid : snapshot.id = jobId snapshot.startedAt s.state.nextJob)
    (hrunning : snapshot.status = .running)
    (hjobs : t.state.jobs = (pruneJobs s.state.jobs).put ⟨snapshot, true⟩)
    (hprocesses : t.processes = s.processes.put ⟨snapshot.id, args, false, false⟩)
    (hcancelled : t.cancelled = s.cancelled) (hnext : t.state.nextJob = s.state.nextJob + 1) :
    JobInv t := by
  have hall := Iff.mp idle_iff hidle
  have hold : ∀ job ∈ (pruneJobs s.state.jobs).rows, job.active = false := fun job hjob ↦
    hall job (mem_pruneJobs hjob)
  have hnew : Numbered t.state.nextJob snapshot.id :=
    ⟨snapshot.startedAt, s.state.nextJob, hid, by omega⟩
  have hgrows : s.state.nextJob ≤ t.state.nextJob := by omega
  have hfree : (pruneJobs s.state.jobs).get snapshot.id = none := by
    apply Iff.mpr Table.get_eq_none_iff
    intro job hjob
    rw [hid]
    exact (hinv.jobs job (mem_pruneJobs hjob)).ne_next
  refine ⟨?_, ?_, ?_, ?_, ?_, ?_, ?_⟩
  · rw [hjobs]
    refine numbered_put (fun job hjob ↦ ?_) hnew
    exact (hinv.jobs job (mem_pruneJobs hjob)).mono hgrows
  · intro process hprocess
    rw [hprocesses] at hprocess
    rcases Iff.mp Table.mem_put hprocess with rfl | ⟨hprocess, -⟩
    · exact hnew
    · exact (hinv.processes process hprocess).mono hgrows
  · intro id hid
    rw [hcancelled] at hid
    exact (hinv.cancelled id hid).mono hgrows
  · rw [hjobs]
    exact active_put_of_idle _ hold
  · have hrows : ((pruneJobs s.state.jobs).put ⟨snapshot, true⟩).rows =
        (pruneJobs s.state.jobs).rows ++ [⟨snapshot, true⟩] :=
      Table.rows_put_of_get_eq_none hfree
    rw [hjobs, hrows, List.length_append]
    exact length_pruneJobs_lt hall
  · intro process hprocess hreported
    rw [hprocesses] at hprocess
    rcases Iff.mp Table.mem_put hprocess with rfl | ⟨hprocess, -⟩
    · refine ⟨⟨snapshot, true⟩, ?_, rfl, ?_⟩
      · rw [hjobs]
        exact Iff.mpr Table.mem_put (.inl rfl)
      · rw [SourceJob.active, hrunning]
        rfl
    · obtain ⟨job, hjob, -, hactive⟩ := hinv.unreported process hprocess hreported
      rw [hall job hjob] at hactive
      cases hactive
  · intro job hjob hmem
    rw [hcancelled] at hmem
    rw [hjobs] at hjob
    rcases Iff.mp Table.mem_put hjob with rfl | ⟨hjob, -⟩
    · exact absurd hid (hinv.cancelled _ hmem).ne_next
    · exact hinv.settled job (mem_pruneJobs hjob) hmem

/-- A job is replaced by what has become of it: only the process that it was
waiting for may stop counting, and a cancelled job does not run or succeed. -/
theorem JobInv.replaced (hinv : JobInv s) {job job' : SourceJob}
    (hfound : s.state.jobs.get job.id = some job) (hid : job'.id = job.id)
    (hless : job'.active = true → job.active = true)
    (hjobs : t.state.jobs = s.state.jobs.put job')
    (hnext : t.state.nextJob = s.state.nextJob)
    (hprocesses : ∀ process ∈ t.processes.rows, ∃ old ∈ s.processes.rows, old.job = process.job ∧
      (process.reported = false → old.reported = false ∧
        (process.job = job.id → job'.active = true)))
    (hcancelled : ∀ id ∈ t.cancelled, id = job.id ∨ id ∈ s.cancelled)
    (hsettled : job.id ∈ t.cancelled →
      job'.snapshot.status ≠ .running ∧ job'.snapshot.status ≠ .succeeded) :
    JobInv t where
  jobs := by
    rw [hjobs, hnext]
    exact numbered_put hinv.jobs (hid ▸ hinv.jobs job (Iff.mp Table.get_eq_some_iff hfound).1)
  processes := by
    intro process hprocess
    obtain ⟨old, hold, hjob, -⟩ := hprocesses process hprocess
    rw [hnext, ← hjob]
    exact hinv.processes old hold
  cancelled := by
    rw [hnext]
    intro id hmem
    rcases hcancelled id hmem with rfl | hold
    · exact hinv.jobs job (Iff.mp Table.get_eq_some_iff hfound).1
    · exact hinv.cancelled id hold
  active := hjobs ▸ active_put hinv.active hfound hid hless
  kept := by
    rw [hjobs]
    exact (Table.length_put_of_get_eq_some (hid ▸ hfound)).trans_le hinv.kept
  unreported := by
    intro process hprocess hreported
    obtain ⟨old, hold, hjob, hkept⟩ := hprocesses process hprocess
    obtain ⟨hreported, hstill⟩ := hkept hreported
    obtain ⟨other, hother, hotherId, hactive⟩ := hinv.unreported old hold hreported
    rw [hjobs]
    by_cases hsame : other.id = job.id
    · have hmine : job.id = process.job := hsame.symm.trans (hotherId.trans hjob)
      exact ⟨job', Iff.mpr Table.mem_put (.inl rfl), hid.trans hmine, hstill hmine.symm⟩
    · refine ⟨other, Iff.mpr Table.mem_put (.inr ⟨hother, ?_⟩), hotherId.trans hjob, hactive⟩
      rwa [hid]
  settled := by
    rw [hjobs]
    intro other hother hmem
    rcases Iff.mp Table.mem_put hother with rfl | ⟨hold, hne⟩
    · exact hsettled (hid ▸ hmem)
    · refine hinv.settled other hold ((hcancelled _ hmem).resolve_left fun heq ↦ hne ?_)
      rw [heq, hid]

/-- A running job is cancelled. -/
theorem JobInv.cancel (hinv : JobInv s) {job : SourceJob} {kill : Kill} {now : ℕ}
    (hfound : s.state.jobs.get job.id = some job) (hrunning : job.snapshot.status = .running)
    (hkilled : terminateSourceProcess kill = .ok ())
    (hjobs : t.state.jobs = s.state.jobs.put (job.cancel kill now))
    (hprocesses : t.processes = s.processes) (hcancelled : t.cancelled = s.cancelled ++ [job.id])
    (hnext : t.state.nextJob = s.state.nextJob) : JobInv t := by
  rw [cancel_killed hkilled] at hjobs
  refine hinv.replaced hfound ?_ ?_ hjobs hnext ?_ ?_ ?_
  · rfl
  · intro _
    rw [SourceJob.active, hrunning]
    rfl
  · rw [hprocesses]
    exact fun process hprocess ↦ ⟨process, hprocess, rfl, fun h ↦ ⟨h, fun _ ↦ rfl⟩⟩
  · intro id hid
    rw [hcancelled] at hid
    rcases List.mem_append.mp hid with hid | hid
    · exact .inr hid
    · exact .inl (List.mem_singleton.mp hid)
  · exact fun _ ↦ ⟨Status.noConfusion, Status.noConfusion⟩

/-- The end of a process is reported. -/
theorem JobInv.report (hinv : JobInv s) {process : Process} {code : Option ℤ} {now : ℕ}
    (hfound : s.processes.get process.job = some process)
    (hjobs : t.state.jobs = match s.state.jobs.get process.job with
      | none => s.state.jobs
      | some job => s.state.jobs.put (job.terminated code now))
    (hprocesses : t.processes = s.processes.put { process with reported := true })
    (hcancelled : t.cancelled = s.cancelled) (hnext : t.state.nextJob = s.state.nextJob) :
    JobInv t := by
  have hrows : ∀ other ∈ t.processes.rows, ∃ old ∈ s.processes.rows, old.job = other.job ∧
      (other.reported = false → old.reported = false ∧ other.job ≠ process.job) := by
    intro other hother
    rw [hprocesses] at hother
    rcases Iff.mp Table.mem_put hother with rfl | ⟨hold, hne⟩
    · exact ⟨process, (Iff.mp Table.get_eq_some_iff hfound).1, rfl, Bool.noConfusion⟩
    · exact ⟨other, hold, rfl, fun h ↦ ⟨h, hne⟩⟩
  cases hget : s.state.jobs.get process.job with
  | none =>
      rw [hget] at hjobs
      refine hinv.of_jobs_eq hjobs hcancelled hnext.ge fun other hother ↦ ?_
      obtain ⟨old, hold, hid, hkept⟩ := hrows other hother
      exact ⟨old, hold, hid, fun h ↦ (hkept h).1⟩
  | some job =>
      rw [hget] at hjobs
      obtain ⟨hmem, hkey⟩ := Iff.mp Table.get_eq_some_iff hget
      obtain ⟨hover, -, hsucceeded, hrunning⟩ := terminated_status job code now
      refine hinv.replaced (hkey ▸ hget) (terminated_id job code now) ?_ hjobs hnext ?_ ?_ ?_
      · intro hactive
        rw [hover] at hactive
        cases hactive
      · intro other hother
        obtain ⟨old, hold, hid, hkept⟩ := hrows other hother
        refine ⟨old, hold, hid, fun h ↦ ⟨(hkept h).1, fun hsame ↦ ?_⟩⟩
        exact absurd (hsame.trans hkey) (hkept h).2
      · rw [hcancelled]
        exact fun id hid ↦ .inr hid
      · rw [hcancelled]
        intro hcancel
        obtain ⟨hnotRunning, hnotSucceeded⟩ := hinv.settled job hmem hcancel
        exact ⟨hrunning, fun h ↦ (hsucceeded h).elim hnotSucceeded hnotRunning⟩

/-- One step of a kind keeps the invariant. -/
theorem JobInv.step (hinv : JobInv s) (hstep : JobStep s t) : JobInv t := by
  cases hstep with
  | unchanged hjobs hprocesses hcancelled hnext =>
      refine hinv.of_jobs_eq hjobs hcancelled hnext ?_
      rw [hprocesses]
      exact fun process hprocess ↦ ⟨process, hprocess, rfl, id⟩
  | pruned hidle hjobs hprocesses hcancelled hnext =>
      exact hinv.pruned hidle hjobs hprocesses hcancelled hnext
  | launched snapshot args hidle hid hrunning hjobs hprocesses hcancelled hnext =>
      exact hinv.launched hidle hid hrunning hjobs hprocesses hcancelled hnext
  | cancelled job kill now hfound hrunning hkilled hjobs hprocesses hcancelled hnext =>
      exact hinv.cancel hfound hrunning hkilled hjobs hprocesses hcancelled hnext
  | reported process code now hfound hjobs hprocesses hcancelled hnext =>
      exact hinv.report hfound hjobs hprocesses hcancelled hnext
  | finished process hfound hjobs hprocesses hcancelled hnext =>
      refine hinv.of_jobs_eq hjobs hcancelled hnext.ge ?_
      rw [hprocesses]
      intro other hother
      rcases Iff.mp Table.mem_put hother with rfl | ⟨hold, -⟩
      · exact ⟨process, (Iff.mp Table.get_eq_some_iff hfound).1, rfl, id⟩
      · exact ⟨other, hold, rfl, id⟩

end JobSteps

theorem JobInv.initial : JobInv System.initial where
  jobs := by rintro _ ⟨⟩
  processes := by rintro _ ⟨⟩
  cancelled := by rintro _ ⟨⟩
  active := by rintro _ ⟨⟩
  kept := Nat.zero_le _
  unreported := by rintro _ ⟨⟩
  settled := by rintro _ ⟨⟩

/-! ## Jobs that are over, and jobs that are not -/

/-- Jobs are those of before, which have their status if they were over, or have
new ids. -/
def Continues (s t : System) : Prop :=
  s.state.nextJob ≤ t.state.nextJob ∧
    ∀ job' ∈ t.state.jobs.rows, (∀ bound ≤ s.state.nextJob, ¬ Numbered bound job'.id) ∨
      ∃ job ∈ s.state.jobs.rows, job.id = job'.id ∧
        (job.active = false → job'.snapshot.status = job.snapshot.status)

theorem Continues.refl (s : System) : Continues s s :=
  ⟨le_rfl, fun job hjob ↦ .inr ⟨job, hjob, rfl, fun _ ↦ rfl⟩⟩

theorem Continues.trans {s t u : System} (h : Continues s t) (h' : Continues t u) :
    Continues s u := by
  refine ⟨h.1.trans h'.1, ?_⟩
  intro last hlast
  rcases h'.2 last hlast with hnew | ⟨middle, hmiddle, hid, hstatus⟩
  · exact .inl fun bound hbound ↦ hnew bound (hbound.trans h.1)
  · rcases h.2 middle hmiddle with hnew | ⟨first, hfirst, hid', hstatus'⟩
    · exact .inl (hid ▸ hnew)
    · refine .inr ⟨first, hfirst, hid'.trans hid, ?_⟩
      intro hover
      have hmiddleStatus := hstatus' hover
      have hmiddleOver : middle.active = false := by
        rw [SourceJob.active, hmiddleStatus]
        exact hover
      rw [hstatus hmiddleOver, hmiddleStatus]

/-- The rows of a table with one job replaced by a later state of it. -/
theorem continues_put {jobs : Table SourceJob.id} {job job' : SourceJob}
    (hfound : jobs.get job.id = some job) (hid : job'.id = job.id)
    (hstatus : job.active = false → job'.snapshot.status = job.snapshot.status) :
    ∀ a ∈ (jobs.put job').rows, ∃ b ∈ jobs.rows, b.id = a.id ∧
      (b.active = false → a.snapshot.status = b.snapshot.status) := by
  intro a ha
  rcases Iff.mp Table.mem_put ha with rfl | ⟨hold, -⟩
  · exact ⟨job, (Iff.mp Table.get_eq_some_iff hfound).1, hid.symm, hstatus⟩
  · exact ⟨a, hold, rfl, fun _ ↦ rfl⟩

theorem continues_of_step {s t : System} (hstep : JobStep s t) : Continues s t := by
  have hsame : t.state.jobs = s.state.jobs → s.state.nextJob ≤ t.state.nextJob →
      Continues s t := by
    intro hjobs hnext
    refine ⟨hnext, ?_⟩
    rw [hjobs]
    exact fun job hjob ↦ .inr ⟨job, hjob, rfl, fun _ ↦ rfl⟩
  cases hstep with
  | unchanged hjobs _ _ hnext => exact hsame hjobs hnext
  | pruned _ hjobs _ _ hnext =>
      refine ⟨hnext.ge, ?_⟩
      rw [hjobs]
      exact fun job hjob ↦ .inr ⟨job, mem_pruneJobs hjob, rfl, fun _ ↦ rfl⟩
  | launched snapshot args _ hid _ hjobs _ _ hnext =>
      refine ⟨by omega, ?_⟩
      rw [hjobs]
      intro job hjob
      rcases Iff.mp Table.mem_put hjob with rfl | ⟨hold, -⟩
      · refine .inl fun bound hbound hnumbered ↦ ?_
        exact (hnumbered.mono hbound).ne_next hid
      · exact .inr ⟨job, mem_pruneJobs hold, rfl, fun _ ↦ rfl⟩
  | cancelled job kill now hfound hrunning hkilled hjobs _ _ hnext =>
      refine ⟨hnext.ge, ?_⟩
      rw [hjobs, cancel_killed hkilled]
      intro later hlater
      refine .inr (continues_put hfound ?_ ?_ later hlater)
      · rfl
      · intro hover
        rw [SourceJob.active, hrunning] at hover
        cases hover
  | reported process code now _ hjobs _ _ hnext =>
      cases hget : s.state.jobs.get process.job with
      | none =>
          rw [hget] at hjobs
          exact hsame hjobs hnext.ge
      | some job =>
          rw [hget] at hjobs
          refine ⟨hnext.ge, ?_⟩
          rw [hjobs]
          intro later hlater
          have hkey : SourceJob.id job = process.job := Table.key_of_get hget
          rw [← hkey] at hget
          exact .inr (continues_put hget (terminated_id job code now)
            (terminated_status job code now).2.1 later hlater)
  | finished _ _ hjobs _ _ hnext => exact hsame hjobs hnext.ge

theorem keepsActive_of_step {s t : System} (hstep : JobStep s t) : KeepsActive s t := by
  have hidle : s.state.busy = false → KeepsActive s t := by
    intro hbusy job hjob hactive
    rw [Iff.mp idle_iff hbusy job hjob] at hactive
    cases hactive
  have hput : ∀ job' : SourceJob, t.state.jobs = s.state.jobs.put job' → KeepsActive s t := by
    intro job' hjobs job hjob _
    rw [hjobs]
    by_cases hid : job.id = job'.id
    · exact ⟨job', Iff.mpr Table.mem_put (.inl rfl), hid.symm⟩
    · exact ⟨job, Iff.mpr Table.mem_put (.inr ⟨hjob, hid⟩), rfl⟩
  have hsame : t.state.jobs = s.state.jobs → KeepsActive s t := by
    intro hjobs job hjob _
    rw [hjobs]
    exact ⟨job, hjob, rfl⟩
  cases hstep with
  | unchanged hjobs => exact hsame hjobs
  | pruned hbusy => exact hidle hbusy
  | launched _ _ hbusy => exact hidle hbusy
  | cancelled job kill now _ _ _ hjobs => exact hput _ hjobs
  | reported process code now _ hjobs =>
      split at hjobs
      next => exact hsame hjobs
      next => exact hput _ hjobs
  | finished _ _ hjobs => exact hsame hjobs

/-! ## Plans in a run -/

theorem mem_prunePlans {now : ℕ} {plans : Table PendingPlan.id} {plan : PendingPlan}
    (h : plan ∈ (prunePlans now plans).rows) : plan ∈ plans.rows :=
  (Iff.mp Table.mem_keep (Table.mem_of_mem_prune h)).1

/-- A plan as an execution asks for it. -/
def ForRequest (plan : PendingPlan) (request : ExecuteRequest) : Prop :=
  plan.id = request.planId ∧ plan.source = request.source.name ∧ plan.budget = request.budget

theorem confirmPlan_ok {state state' : SourceJobState} {request : ExecuteRequest} {now : ℕ}
    (h : confirmPlan state request now = (state', .ok ())) :
    ∃ plan ∈ (prunePlans now state.plans).rows, ForRequest plan request := by
  rw [confirmPlan] at h
  have hanswer := (Prod.mk.inj h).2
  split at hanswer
  next => cases hanswer
  next plan hplan =>
      obtain ⟨hsource, hbudget⟩ := Iff.mp Except.require_ok_iff hanswer
      obtain ⟨hmem, hid⟩ := Iff.mp Table.get_eq_some_iff hplan
      exact ⟨plan, hmem, hid, hsource, hbudget⟩

/-- The kinds of steps, as plans and executions see them. -/
inductive PlanStep (s t : System) : Prop where
  | unchanged (plans : ∀ plan ∈ t.state.plans.rows, plan ∈ s.state.plans.rows)
      (calls : t.calls = s.calls) (issued : t.issued = s.issued)
      (launches : t.launches = s.launches) (next : s.state.nextJob ≤ t.state.nextJob)
  | issued (plan : PendingPlan) (time : ℕ) (id : plan.id = planId time s.state.nextJob)
      (plans : ∀ other ∈ t.state.plans.rows, other = plan ∨ other ∈ s.state.plans.rows)
      (calls : t.calls = s.calls) (issued : t.issued = s.issued ++ [plan])
      (launches : t.launches = s.launches) (next : t.state.nextJob = s.state.nextJob + 1)
  | checked (caller : ℕ) (request : ExecuteRequest) (plans : t.state.plans = s.state.plans)
      (free : s.calls.get caller = none)
      (calls : t.calls = s.calls.put ⟨caller, request, .checked⟩) (issued : t.issued = s.issued)
      (launches : t.launches = s.launches) (next : t.state.nextJob = s.state.nextJob)
  | confirmed (caller : ℕ) (request : ExecuteRequest) (plan : PendingPlan)
      (found : s.calls.get caller = some ⟨caller, request, .checked⟩)
      (plans : ∀ plan ∈ t.state.plans.rows, plan ∈ s.state.plans.rows)
      (pending : plan ∈ s.state.plans.rows) (asked : ForRequest plan request)
      (calls : t.calls = s.calls.put ⟨caller, request, .confirmed (s.inUse request.planId)⟩)
      (issued : t.issued = s.issued) (launches : t.launches = s.launches)
      (next : t.state.nextJob = s.state.nextJob)
  | dropped (call : Call) (found : s.calls.get call.caller = some call)
      (phase : call.phase ≠ .started)
      (plans : ∀ plan ∈ t.state.plans.rows, plan ∈ s.state.plans.rows)
      (calls : t.calls = s.calls.erase call.caller) (issued : t.issued = s.issued)
      (launches : t.launches = s.launches) (next : s.state.nextJob ≤ t.state.nextJob)
  | launched (caller : ℕ) (request : ExecuteRequest) (snapshot : Snapshot)
      (found : s.calls.get caller = some ⟨caller, request, .confirmed false⟩)
      (plans : t.state.plans = s.state.plans)
      (job : snapshot.operation = .initialSync ∧ snapshot.source = request.source.name ∧
        snapshot.budget = some request.budget)
      (expiry : ∀ plan ∈ s.issued, plan.id = request.planId →
        snapshot.startedAt ≤ plan.createdAt + planTtlSeconds)
      (calls : t.calls = (s.calls.modify (Call.overtake request.planId)
        (Call.overtake_caller _)).put ⟨caller, request, .started⟩)
      (issued : t.issued = s.issued)
      (launches : t.launches = s.launches ++ [⟨request.planId, snapshot,
        initialSyncArgs request.source.name request.budget⟩])
      (next : s.state.nextJob ≤ t.state.nextJob)
  | consumed (caller : ℕ) (request : ExecuteRequest)
      (found : s.calls.get caller = some ⟨caller, request, .started⟩)
      (plans : t.state.plans = s.state.plans.erase request.planId)
      (calls : t.calls = s.calls.erase caller) (issued : t.issued = s.issued)
      (launches : t.launches = s.launches) (next : t.state.nextJob = s.state.nextJob)

theorem plans_start {state state' : SourceJobState} {source : Source} {operation : Operation}
    {budget : Option Budget} {writes : Bool} {spawn : Spawn} {answer : Except String Snapshot}
    (h : SourceJobs.start state source operation budget writes spawn = (state', answer)) :
    state'.plans = state.plans ∧ state.nextJob ≤ state'.nextJob := by
  cases answer with
  | ok snapshot =>
      obtain ⟨-, -, -, rfl⟩ := start_eq_ok h
      exact ⟨rfl, Nat.le_succ _⟩
  | error message =>
      rcases start_eq_error h with rfl | ⟨-, rfl⟩
      · exact ⟨rfl, le_rfl⟩
      · exact ⟨rfl, le_rfl⟩

/-- A step that leaves plans and executions alone. -/
theorem planStep_of_plans_eq {s t : System} (hplans : t.state.plans = s.state.plans)
    (hcalls : t.calls = s.calls) (hissued : t.issued = s.issued)
    (hlaunches : t.launches = s.launches) (hnext : s.state.nextJob ≤ t.state.nextJob) :
    PlanStep s t :=
  .unchanged (fun _ hplan ↦ hplans ▸ hplan) hcalls hissued hlaunches hnext

theorem cancel_plans (state : SourceJobState) (id : String) (kill : Kill) (now : ℕ) :
    (cancel state id kill now).1.plans = state.plans ∧
      (cancel state id kill now).1.nextJob = state.nextJob := by
  cases haccepts : state.accepts id with
  | true =>
      obtain ⟨job, -, -, hstate⟩ := cancel_of_accepts haccepts kill now
      rw [hstate]
      exact ⟨rfl, rfl⟩
  | false =>
      rw [cancel_of_not_accepts haccepts]
      exact ⟨rfl, rfl⟩

theorem handleEvent_plans (state : SourceJobState) (id : String) (event : CommandEvent)
    (now : ℕ) : (handleEvent state id event now).plans = state.plans ∧
      (handleEvent state id event now).nextJob = state.nextJob := by
  rw [handleEvent]
  split
  · exact ⟨rfl, rfl⟩
  · split <;> exact ⟨rfl, rfl⟩

theorem finishDisconnected_plans (state : SourceJobState) (id : String) (now : ℕ) :
    (finishDisconnected state id now).plans = state.plans ∧
      (finishDisconnected state id now).nextJob = state.nextJob := by
  rw [finishDisconnected]
  split <;> exact ⟨rfl, rfl⟩

/-- A step that is permitted is of one of the kinds. -/
theorem planStep_next {s : System} {event : Event} (hok : s.Permitted event) :
    PlanStep s (s.next event) := by
  cases event with
  | plan source budget coverage clock =>
      rw [System.next]
      cases coverage with
      | error => exact planStep_of_plans_eq rfl rfl rfl rfl le_rfl
      | ok covered =>
          refine .issued ⟨planId clock.id s.state.nextJob, source.name, budget, clock.created⟩
            clock.id rfl ?_ rfl rfl rfl rfl
          intro other hother
          rcases Iff.mp Table.mem_put hother with rfl | ⟨hold, -⟩
          · exact .inl rfl
          · exact .inr (mem_prunePlans hold)
  | confirmJobs caller request approved coverage =>
      rw [System.next]
      split
      next hfree _ => exact .checked caller request rfl hfree rfl rfl rfl rfl
      next => exact planStep_of_plans_eq rfl rfl rfl rfl le_rfl
  | confirmPlan caller now =>
      rw [System.next]
      split
      next found request hcall =>
          obtain rfl : found = caller := Table.key_of_get hcall
          split
          next hconfirm =>
              obtain ⟨plan, hplan, hasked⟩ := confirmPlan_ok hconfirm
              rw [← (Prod.mk.inj hconfirm).1]
              exact .confirmed found request plan hcall (fun _ ↦ mem_prunePlans)
                (mem_prunePlans hplan) hasked rfl rfl rfl rfl
          next hconfirm =>
              rw [← (Prod.mk.inj hconfirm).1]
              exact .dropped ⟨found, request, .checked⟩ hcall Phase.noConfusion
                (fun _ ↦ mem_prunePlans) rfl rfl rfl le_rfl
      next => exact planStep_of_plans_eq rfl rfl rfl rfl le_rfl
  | execute caller spawn =>
      rw [System.next]
      split
      next found request overtaken hcall =>
          obtain rfl : found = caller := Table.key_of_get hcall
          split
          next state snapshot hstart =>
              obtain ⟨hplans, hnext⟩ := plans_start hstart
              obtain ⟨hidle, houtcome, rfl, -⟩ := start_eq_ok hstart
              obtain ⟨hovertaken, hexpiry⟩ := hok hidle houtcome _ hcall
              have hfalse : overtaken = false := by
                cases overtaken
                · rfl
                · exact absurd rfl hovertaken
              rw [hfalse] at hcall
              exact .launched found request _ hcall hplans ⟨rfl, rfl, rfl⟩ hexpiry rfl rfl rfl hnext
          next state message hstart =>
              obtain ⟨hplans, hnext⟩ := plans_start hstart
              exact .dropped ⟨found, request, .confirmed overtaken⟩ hcall Phase.noConfusion
                (fun _ hplan ↦ hplans ▸ hplan) rfl rfl rfl hnext
      next => exact planStep_of_plans_eq rfl rfl rfl rfl le_rfl
  | consume caller =>
      rw [System.next]
      split
      next found request hcall =>
          obtain rfl : found = caller := Table.key_of_get hcall
          exact .consumed found request hcall rfl rfl rfl rfl rfl
      next => exact planStep_of_plans_eq rfl rfl rfl rfl le_rfl
  | start source operation args writes spawn =>
      rw [System.next]
      split
      next hstart =>
          obtain ⟨hplans, hnext⟩ := plans_start hstart
          exact planStep_of_plans_eq hplans rfl rfl rfl hnext
      next hstart =>
          obtain ⟨hplans, hnext⟩ := plans_start hstart
          exact planStep_of_plans_eq hplans rfl rfl rfl hnext
  | cancel id kill now =>
      obtain ⟨hplans, hnext⟩ := cancel_plans s.state id kill now
      exact planStep_of_plans_eq hplans rfl rfl rfl hnext.ge
  | event id event now =>
      rw [System.next]
      split
      next =>
          obtain ⟨hplans, hnext⟩ := handleEvent_plans s.state id event now
          exact planStep_of_plans_eq hplans rfl rfl rfl hnext.ge
      next => exact planStep_of_plans_eq rfl rfl rfl rfl le_rfl
  | disconnect id now =>
      rw [System.next]
      split
      next =>
          obtain ⟨hplans, hnext⟩ := finishDisconnected_plans s.state id now
          exact planStep_of_plans_eq hplans rfl rfl rfl hnext.ge
      next => exact planStep_of_plans_eq rfl rfl rfl rfl le_rfl

/-- A launch is for its plan. -/
def Launch.Own (issued : List PendingPlan) (l : Launch) : Prop :=
  ∃ plan ∈ issued, plan.id = l.planId ∧ l.job.operation = .initialSync ∧
    l.job.source = plan.source ∧ l.job.budget = some plan.budget ∧
    l.args = initialSyncArgs plan.source plan.budget ∧
    l.job.startedAt ≤ plan.createdAt + planTtlSeconds

/-- What is kept about plans and executions. -/
structure PlanInv (s : System) : Prop where
  numbered : ∀ plan ∈ s.issued, ∃ time number, plan.id = planId time number ∧
    number < s.state.nextJob
  pending : ∀ plan ∈ s.state.plans.rows, plan ∈ s.issued
  asked : ∀ call ∈ s.calls.rows, call.phase ≠ .checked →
    ∃ plan ∈ s.issued, ForRequest plan call.request
  fresh : ∀ call ∈ s.calls.rows, call.phase = .confirmed false →
    ∀ l ∈ s.launches, l.planId ≠ call.request.planId
  inUse : ∀ plan ∈ s.state.plans.rows, ∀ l ∈ s.launches, l.planId = plan.id →
    ∃ call ∈ s.calls.rows, call.phase = .started ∧ call.request.planId = plan.id
  once : (s.launches.map Launch.planId).Nodup
  own : ∀ l ∈ s.launches, l.Own s.issued

theorem PlanInv.initial : PlanInv System.initial where
  numbered := by rintro _ ⟨⟩
  pending := by rintro _ ⟨⟩
  asked := by rintro _ ⟨⟩
  fresh := by rintro _ ⟨⟩
  inUse := by rintro _ ⟨⟩
  once := List.nodup_nil
  own := by rintro _ ⟨⟩

/-- Executions that are not there any more, or are new and not confirmed, are no
matter to what has been launched. -/
theorem PlanInv.of_calls {s t : System} (hinv : PlanInv s)
    (hplans : ∀ plan ∈ t.state.plans.rows, plan ∈ s.state.plans.rows)
    (hissued : t.issued = s.issued) (hlaunches : t.launches = s.launches)
    (hnext : s.state.nextJob ≤ t.state.nextJob)
    (hold : ∀ call ∈ t.calls.rows, call ∈ s.calls.rows ∨
      (call.phase ≠ .checked → ∃ plan ∈ s.issued, ForRequest plan call.request) ∧
        (call.phase = .confirmed false → ∀ l ∈ s.launches, l.planId ≠ call.request.planId))
    (hstarted : ∀ call ∈ s.calls.rows, call.phase = .started →
      call ∈ t.calls.rows ∨ ∀ plan ∈ t.state.plans.rows, plan.id ≠ call.request.planId) :
    PlanInv t where
  numbered := by
    rw [hissued]
    intro plan hplan
    obtain ⟨time, number, hid, hlt⟩ := hinv.numbered plan hplan
    exact ⟨time, number, hid, hlt.trans_le hnext⟩
  pending := by
    rw [hissued]
    exact fun plan hplan ↦ hinv.pending plan (hplans plan hplan)
  asked := by
    rw [hissued]
    intro call hcall hphase
    rcases hold call hcall with hcall | ⟨hnew, -⟩
    · exact hinv.asked call hcall hphase
    · exact hnew hphase
  fresh := by
    rw [hlaunches]
    intro call hcall hphase
    rcases hold call hcall with hcall | ⟨-, hnew⟩
    · exact hinv.fresh call hcall hphase
    · exact hnew hphase
  inUse := by
    rw [hlaunches]
    intro plan hplan l hl hid
    obtain ⟨call, hcall, hphase, hplanId⟩ := hinv.inUse plan (hplans plan hplan) l hl hid
    rcases hstarted call hcall hphase with hkept | hgone
    · exact ⟨call, hkept, hphase, hplanId⟩
    · exact absurd hplanId.symm (hgone plan hplan)
  once := hlaunches ▸ hinv.once
  own := by
    rw [hissued, hlaunches]
    exact hinv.own

section PlanSteps

variable {s t : System}

/-- A plan gets a number that no plan has. -/
theorem PlanInv.planned (hinv : PlanInv s) {plan : PendingPlan} {time : ℕ}
    (hid : plan.id = planId time s.state.nextJob)
    (hplans : ∀ other ∈ t.state.plans.rows, other = plan ∨ other ∈ s.state.plans.rows)
    (hcalls : t.calls = s.calls) (hissued : t.issued = s.issued ++ [plan])
    (hlaunches : t.launches = s.launches) (hnext : t.state.nextJob = s.state.nextJob + 1) :
    PlanInv t := by
  have hfresh : ∀ l ∈ s.launches, l.planId ≠ plan.id := by
    intro l hl heq
    obtain ⟨own, hown, hownId, -⟩ := hinv.own l hl
    obtain ⟨time', number, hnumber, hlt⟩ := hinv.numbered own hown
    rw [hownId, heq, hid] at hnumber
    exact absurd (numberedId_injective hnumber) hlt.ne'
  have hmore : ∀ old ∈ s.issued, old ∈ t.issued := by
    rw [hissued]
    exact fun old hold ↦ List.mem_append_left _ hold
  refine ⟨?_, ?_, ?_, ?_, ?_, ?_, ?_⟩
  · rw [hissued, hnext]
    intro other hother
    rcases List.mem_append.mp hother with hother | hother
    · obtain ⟨time', number, hnumber, hlt⟩ := hinv.numbered other hother
      exact ⟨time', number, hnumber, by omega⟩
    · rw [List.mem_singleton.mp hother]
      exact ⟨time, s.state.nextJob, hid, Nat.lt_succ_self _⟩
  · intro other hother
    rcases hplans other hother with rfl | hold
    · rw [hissued]
      exact List.mem_append_right _ (List.mem_singleton_self other)
    · exact hmore other (hinv.pending other hold)
  · rw [hcalls]
    intro call hcall hphase
    obtain ⟨asked, hasked, hfor⟩ := hinv.asked call hcall hphase
    exact ⟨asked, hmore asked hasked, hfor⟩
  · rw [hcalls, hlaunches]
    exact hinv.fresh
  · rw [hcalls, hlaunches]
    intro other hother l hl hlid
    rcases hplans other hother with rfl | hold
    · exact absurd hlid (hfresh l hl)
    · exact hinv.inUse other hold l hl hlid
  · rw [hlaunches]
    exact hinv.once
  · rw [hlaunches]
    intro l hl
    obtain ⟨own, hown, hrest⟩ := hinv.own l hl
    exact ⟨own, hmore own hown, hrest⟩

/-- An execution has the phase that it was found in. -/
theorem phase_of_found {calls : Table Call.caller} {call other : Call} {caller : ℕ}
    (hfound : calls.get caller = some call) (hother : other ∈ calls.rows)
    (hcaller : other.caller = caller) : other = call := by
  have hsame := Iff.mpr Table.get_eq_some_iff ⟨hother, hcaller⟩
  rw [hfound] at hsame
  exact (Option.some.inj hsame).symm

/-- An execution is confirmed by a pending plan. -/
theorem PlanInv.confirmed (hinv : PlanInv s) {caller : ℕ} {request : ExecuteRequest}
    {plan : PendingPlan} (hfound : s.calls.get caller = some ⟨caller, request, .checked⟩)
    (hplans : ∀ plan ∈ t.state.plans.rows, plan ∈ s.state.plans.rows)
    (hpending : plan ∈ s.state.plans.rows) (hasked : ForRequest plan request)
    (hcalls : t.calls = s.calls.put ⟨caller, request, .confirmed (s.inUse request.planId)⟩)
    (hissued : t.issued = s.issued) (hlaunches : t.launches = s.launches)
    (hnext : t.state.nextJob = s.state.nextJob) : PlanInv t := by
  -- no execution of the plan has a job, so the plan has none
  have hunused : s.inUse request.planId = false → ∀ l ∈ s.launches, l.planId ≠ request.planId := by
    intro hnot l hl hid
    obtain ⟨other, hother, hstarted, hotherId⟩ :=
      hinv.inUse plan hpending l hl (hid.trans hasked.1.symm)
    have hused : s.inUse request.planId = true := by
      rw [System.inUse, List.any_eq_true]
      exact ⟨other, hother, by simp [hstarted, hotherId, hasked.1]⟩
    rw [hused] at hnot
    cases hnot
  refine hinv.of_calls hplans hissued hlaunches hnext.ge ?_ ?_
  · rw [hcalls]
    intro call hcall
    rcases Iff.mp Table.mem_put hcall with rfl | ⟨hold, -⟩
    · refine .inr ⟨fun _ ↦ ⟨plan, hinv.pending plan hpending, hasked⟩, fun hphase ↦ ?_⟩
      exact hunused (Phase.confirmed.inj hphase)
    · exact .inl hold
  · rw [hcalls]
    intro call hcall hphase
    refine .inl (Iff.mpr Table.mem_put (.inr ⟨hcall, fun heq ↦ ?_⟩))
    rw [phase_of_found hfound hcall heq] at hphase
    cases hphase

/-- A job is started for a plan, and the other executions of it are overtaken. -/
theorem PlanInv.launched (hinv : PlanInv s) {caller : ℕ} {request : ExecuteRequest}
    {snapshot : Snapshot}
    (hfound : s.calls.get caller = some ⟨caller, request, .confirmed false⟩)
    (hplans : t.state.plans = s.state.plans)
    (hjob : snapshot.operation = .initialSync ∧ snapshot.source = request.source.name ∧
      snapshot.budget = some request.budget)
    (hexpiry : ∀ plan ∈ s.issued, plan.id = request.planId →
      snapshot.startedAt ≤ plan.createdAt + planTtlSeconds)
    (hcalls : t.calls = (s.calls.modify (Call.overtake request.planId)
      (Call.overtake_caller _)).put ⟨caller, request, .started⟩)
    (hissued : t.issued = s.issued)
    (hlaunches : t.launches = s.launches ++ [⟨request.planId, snapshot,
      initialSyncArgs request.source.name request.budget⟩])
    (hnext : s.state.nextJob ≤ t.state.nextJob) : PlanInv t := by
  obtain ⟨hmem, -⟩ := Iff.mp Table.get_eq_some_iff hfound
  obtain ⟨plan, hplan, hasked⟩ := hinv.asked _ hmem Phase.noConfusion
  have hcases : ∀ call ∈ t.calls.rows, call = ⟨caller, request, .started⟩ ∨
      ∃ old ∈ s.calls.rows, old.overtake request.planId = call := by
    intro call hcall
    rw [hcalls] at hcall
    rcases Iff.mp Table.mem_put hcall with rfl | ⟨hold, -⟩
    · exact .inl rfl
    · exact .inr (List.mem_map.mp hold)
  refine ⟨?_, ?_, ?_, ?_, ?_, ?_, ?_⟩
  · rw [hissued]
    intro other hother
    obtain ⟨time, number, hid, hlt⟩ := hinv.numbered other hother
    exact ⟨time, number, hid, hlt.trans_le hnext⟩
  · rw [hissued, hplans]
    exact hinv.pending
  · rw [hissued]
    intro call hcall hphase
    rcases hcases call hcall with rfl | ⟨old, hold, rfl⟩
    · exact ⟨plan, hplan, hasked⟩
    · rw [Call.overtake_request]
      exact hinv.asked old hold fun h ↦ hphase (Call.overtake_checked _ h)
  · rw [hlaunches]
    intro call hcall hphase l hl
    rcases hcases call hcall with rfl | ⟨old, hold, rfl⟩
    · cases hphase
    · obtain ⟨hconfirmed, hother⟩ := Call.confirmed_of_overtake hphase
      rw [Call.overtake_request]
      rcases List.mem_append.mp hl with hl | hl
      · exact hinv.fresh old hold hconfirmed l hl
      · rw [List.mem_singleton.mp hl]
        exact hother.symm
  · rw [hlaunches, hplans, hcalls]
    intro other hother l hl hid
    rcases List.mem_append.mp hl with hl | hl
    · obtain ⟨call, hcall, hstarted, hcallId⟩ := hinv.inUse other hother l hl hid
      refine ⟨call, Iff.mpr Table.mem_put (.inr ⟨?_, fun heq ↦ ?_⟩), hstarted, hcallId⟩
      · exact List.mem_map.mpr ⟨call, hcall, Call.overtake_started _ hstarted⟩
      · rw [phase_of_found hfound hcall heq] at hstarted
        cases hstarted
    · rw [List.mem_singleton.mp hl] at hid
      exact ⟨_, Iff.mpr Table.mem_put (.inl rfl), rfl, hid⟩
  · rw [hlaunches, List.map_append, List.nodup_append]
    refine ⟨hinv.once, List.nodup_singleton _, ?_⟩
    rintro a ha b hb rfl
    obtain ⟨l, hl, heq⟩ := List.mem_map.mp ha
    exact hinv.fresh _ hmem rfl l hl (heq.trans (List.mem_singleton.mp hb))
  · rw [hlaunches, hissued]
    intro l hl
    rcases List.mem_append.mp hl with hl | hl
    · exact hinv.own l hl
    · rw [List.mem_singleton.mp hl]
      obtain ⟨hid, hsource, hbudget⟩ := hasked
      obtain ⟨hoperation, hjobSource, hjobBudget⟩ := hjob
      refine ⟨plan, hplan, hid, hoperation, ?_, ?_, ?_, hexpiry plan hplan hid⟩
      · rw [hjobSource, hsource]
      · rw [hjobBudget, hbudget]
      · rw [hsource, hbudget]

/-- One step of a kind keeps the invariant. -/
theorem PlanInv.step (hinv : PlanInv s) (hstep : PlanStep s t) : PlanInv t := by
  cases hstep with
  | unchanged hplans hcalls hissued hlaunches hnext =>
      refine hinv.of_calls hplans hissued hlaunches hnext ?_ ?_
      · rw [hcalls]
        exact fun call hcall ↦ .inl hcall
      · rw [hcalls]
        exact fun call hcall _ ↦ .inl hcall
  | issued plan time hid hplans hcalls hissued hlaunches hnext =>
      exact hinv.planned hid hplans hcalls hissued hlaunches hnext
  | checked caller request hplans hfree hcalls hissued hlaunches hnext =>
      refine hinv.of_calls (fun plan hplan ↦ hplans ▸ hplan) hissued hlaunches hnext.ge ?_ ?_
      · rw [hcalls]
        intro call hcall
        rcases Iff.mp Table.mem_put hcall with rfl | ⟨hold, -⟩
        · exact .inr ⟨fun h ↦ absurd rfl h, Phase.noConfusion⟩
        · exact .inl hold
      · rw [hcalls]
        intro call hcall _
        refine .inl (Iff.mpr Table.mem_put (.inr ⟨hcall, ?_⟩))
        exact Iff.mp Table.get_eq_none_iff hfree call hcall
  | confirmed caller request plan hfound hplans hpending hasked hcalls hissued hlaunches hnext =>
      exact hinv.confirmed hfound hplans hpending hasked hcalls hissued hlaunches hnext
  | dropped call hfound hphase hplans hcalls hissued hlaunches hnext =>
      refine hinv.of_calls hplans hissued hlaunches hnext ?_ ?_
      · rw [hcalls]
        exact fun other hother ↦ .inl (Iff.mp Table.mem_erase hother).1
      · rw [hcalls]
        intro other hother hstarted
        refine .inl (Iff.mpr Table.mem_erase ⟨hother, fun heq ↦ ?_⟩)
        exact hphase (phase_of_found hfound hother heq ▸ hstarted)
  | launched caller request snapshot hfound hplans hjob hexpiry hcalls hissued hlaunches hnext =>
      exact hinv.launched hfound hplans hjob hexpiry hcalls hissued hlaunches hnext
  | consumed caller request hfound hplans hcalls hissued hlaunches hnext =>
      refine hinv.of_calls ?_ hissued hlaunches hnext.ge ?_ ?_
      · rw [hplans]
        exact fun plan hplan ↦ (Iff.mp Table.mem_erase hplan).1
      · rw [hcalls]
        exact fun other hother ↦ .inl (Iff.mp Table.mem_erase hother).1
      · rw [hcalls, hplans]
        intro other hother _
        by_cases heq : other.caller = caller
        · rw [phase_of_found hfound hother heq]
          exact .inr fun plan hplan ↦ (Iff.mp Table.mem_erase hplan).2
        · exact .inl (Iff.mpr Table.mem_erase ⟨hother, heq⟩)

end PlanSteps

/-! ## Every run -/

section Run

open Transition

/-- In a run of steps that are permitted, source jobs are a single-flight state
machine. -/
theorem singleFlight_of_run {s t u : System} {event : Event}
    (hs : Run System.Step System.Permitted .initial s)
    (ht : Run System.Step System.Permitted s t) (hok : t.Permitted event)
    (hu : t.Step event u) :
    SingleFlight t ∧ Settles s t ∧ KeepsActive t u := by
  have hjobStep : ∀ a e b, JobInv a → a.Permitted e → a.Step e b → JobInv b := by
    rintro a e b hinv he rfl
    exact hinv.step (jobStep_next he)
  have hplanStep : ∀ a e b, PlanInv a → a.Permitted e → a.Step e b → PlanInv b := by
    rintro a e b hinv he rfl
    exact hinv.step (planStep_next he)
  have hjobsStart := hs.preserves hjobStep JobInv.initial
  have hjobs := ht.preserves hjobStep hjobsStart
  have hplans := ht.preserves hplanStep (hs.preserves hplanStep PlanInv.initial)
  refine ⟨⟨hjobs.active, ?_, hjobs.kept, ?_, hplans.once, hplans.own⟩, ?_, ?_⟩
  · intro process hprocess process' hprocess' hreported hreported'
    obtain ⟨job, hjob, hid, hactive⟩ := hjobs.unreported process hprocess hreported
    obtain ⟨job', hjob', hid', hactive'⟩ := hjobs.unreported process' hprocess' hreported'
    have heq := hjobs.active job hjob job' hjob' hactive hactive'
    refine List.inj_on_of_nodup_map t.processes.nodup hprocess hprocess' ?_
    rw [← hid, ← hid', heq]
  · exact fun job hjob hid ↦ (hjobs.settled job hjob hid).2
  · intro job hjob hover job' hjob' hid
    have hcontinues : Continues s t := by
      refine Run.relates Continues.refl (fun _ _ _ ↦ Continues.trans) hjobStep ?_ ht hjobsStart
      rintro a e b - he rfl
      exact continues_of_step (jobStep_next he)
    rcases hcontinues.2 job' hjob' with hnew | ⟨old, hold, holdId, hstatus⟩
    · exact absurd (hid ▸ hjobsStart.jobs job hjob) (hnew _ le_rfl)
    · obtain rfl : old = job :=
        List.inj_on_of_nodup_map s.state.jobs.nodup hold hjob (holdId.trans hid)
      exact hstatus hover
  · obtain rfl : u = t.next event := hu
    exact keepsActive_of_step (jobStep_next hok)

end Run

/-! ## Two executions of one plan -/

def sampleSource : Source := ⟨"notes", "filesystem", "default", [], true⟩

def sampleRequest : ExecuteRequest := ⟨sampleSource, .small, "plan-100-1"⟩

/-- A plan is made, confirmed and executed. -/
def executed : List Event :=
  [.plan sampleSource .small (.ok (some true, some true)) ⟨100, 100, 100⟩,
    .confirmJobs 0 sampleRequest true (.ok (some true)), .confirmPlan 0 101,
    .execute 0 ⟨.ok (), .ok (), 102⟩, .consume 0]

/-- Its job is cancelled, and the process terminates. -/
def cancelledLater : List Event :=
  [.cancel "source-102-2" ⟨42, true, .ok ()⟩ 103, .event "source-102-2" (.terminated none) 104]

theorem singleFlight_executed :
    SingleFlight (cancelledLater.foldl System.next (executed.foldl System.next .initial)) ∧
      Settles (executed.foldl System.next .initial)
        (cancelledLater.foldl System.next (executed.foldl System.next .initial)) ∧
      KeepsActive (cancelledLater.foldl System.next (executed.foldl System.next .initial))
        ((cancelledLater.foldl System.next (executed.foldl System.next .initial)).next
          (.disconnect "source-102-2" 104)) := by
  have hstep : ∀ s event, System.Step s event (System.next s event) := fun _ _ ↦ rfl
  refine singleFlight_of_run (Transition.Run.of_along hstep ?_)
    (Transition.Run.of_along hstep ?_) ?_ rfl
  · exact ⟨trivial, trivial, trivial, by decide +kernel, trivial, trivial⟩
  · exact ⟨by decide +kernel, trivial, trivial⟩
  · decide +kernel

/-- Two executions confirm one plan before either of them starts. -/
def raced : List Event :=
  [.plan sampleSource .small (.ok (some true, some true)) ⟨100, 100, 100⟩,
    .confirmJobs 0 sampleRequest true (.ok (some true)), .confirmPlan 0 101,
    .confirmJobs 1 sampleRequest true (.ok (some true)), .confirmPlan 1 101,
    .execute 0 ⟨.ok (), .ok (), 102⟩, .consume 0,
    .event "source-102-2" (.terminated (some 0)) 103, .disconnect "source-102-2" 103,
    .execute 1 ⟨.ok (), .ok (), 104⟩]

/-- The second one starts another job for the plan. -/
theorem plan_starts_twice :
    Transition.Run System.Step (fun _ _ ↦ True) .initial (raced.foldl System.next .initial) ∧
      ¬ SingleFlight (raced.foldl System.next .initial) := by
  have hstep : ∀ s event, System.Step s event (System.next s event) := fun _ _ ↦ rfl
  refine ⟨Transition.Run.of_along hstep ?_, ?_⟩
  · simp [raced, Transition.Along]
  · intro hsingle
    exact absurd hsingle.once (by decide +kernel)

end SourceJobs

end Cortana
