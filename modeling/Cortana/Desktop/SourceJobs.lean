import Cortana.Core.Loops
import Cortana.Core.Pruning
import Cortana.Text.Search

/-!
# Source jobs of the desktop

`source_jobs.rs`: the jobs that run the bundled program for one source at a
time, and the plans that an initial sync has to be confirmed with.  A function
returns what it makes of the jobs and plans, and its answer; summaries and logs
are texts for the renderer that nothing reads back.
-/

namespace Cortana

open ByteText

namespace SourceJobs

/-! ## Jobs and plans -/

inductive Operation where
  | validation
  | connectionCheck
  | authorization
  | trialSync
  | initialSync
deriving DecidableEq

def Operation.asStr : Operation → String
  | validation => "validation"
  | connectionCheck => "connection-check"
  | authorization => "authorization"
  | trialSync => "trial-sync"
  | initialSync => "initial-sync"

inductive Budget where
  | small
  | medium
  | large
deriving DecidableEq

/-- Documents, bytes and seconds. -/
def Budget.limits : Budget → ℕ × ℕ × ℕ
  | small => (100, 25 * 1024 * 1024, 15 * 60)
  | medium => (500, 64 * 1024 * 1024, 30 * 60)
  | large => (2000, 128 * 1024 * 1024, 60 * 60)

inductive Status where
  | running
  | cancelling
  | succeeded
  | failed
  | cancelled
deriving DecidableEq

/-- `matches!(status, "running" | "cancelling")`. -/
def Status.active : Status → Bool
  | running | cancelling => true
  | succeeded | failed | cancelled => false

/-- The settings of a source that jobs read. -/
structure Source where
  name : String
  kind : String
  project : String
  acl : List String
  enabled : Bool
deriving DecidableEq

structure Snapshot where
  id : String
  operation : Operation
  source : String
  kind : String
  project : String
  acl : List String
  status : Status
  startedAt : ℕ
  completedAt : Option ℕ
  exitCode : Option ℤ
  retryable : Bool
  writesIndexedData : Bool
  budget : Option Budget
deriving DecidableEq

structure SourceJob where
  snapshot : Snapshot
  /-- Whether the handle of the process is held. -/
  child : Bool
deriving DecidableEq

namespace SourceJob

def id (job : SourceJob) : String := job.snapshot.id

def active (job : SourceJob) : Bool := job.snapshot.status.active

end SourceJob

structure PendingPlan where
  id : String
  source : String
  budget : Budget
  createdAt : ℕ
deriving DecidableEq

structure InitialSyncPlan where
  source : String
  kind : String
  project : String
  acl : List String
  enabled : Bool
  budget : Budget
  budgetDocuments : ℕ
  budgetBytes : ℕ
  budgetSeconds : ℕ
  writesIndexedData : Bool
  requiresValidation : Bool
  validationCoversBudget : Option Bool
  validationComplete : Option Bool
  planId : String
deriving DecidableEq

/-- The two guarded maps, and the counter that all ids share. -/
structure SourceJobState where
  jobs : Table SourceJob.id
  plans : Table PendingPlan.id
  nextJob : ℕ

def SourceJobState.initial : SourceJobState := ⟨.empty _, .empty _, 1⟩

def maxJobs : ℕ := 20

def maxPendingPlans : ℕ := 8

def planTtlSeconds : ℕ := 600

/-! ## Ids and their order -/

/-- An id of a kind: when it was made, and its number. -/
def numberedId (kind : String) (time number : ℕ) : String :=
  kind ++ "-" ++ toString time ++ "-" ++ toString number

def jobId (time number : ℕ) : String := numberedId "source" time number

def planId (time number : ℕ) : String := numberedId "plan" time number

/-- Ids of one kind with different numbers are different. -/
theorem numberedId_injective {kind : String} {time time' number number' : ℕ}
    (h : numberedId kind time number = numberedId kind time' number') : number = number' := by
  have htext := congrArg String.toList h
  have hdash : ("-" : String).toList = ['-'] := rfl
  have hdigits : ∀ n : ℕ, (toString n).toList = Nat.toDigits 10 n := fun n ↦
    String.toList_ofList
  simp only [numberedId, String.toList_append, hdash, hdigits, List.append_assoc,
    List.singleton_append] at htext
  have hrest := (List.cons.inj (List.append_cancel_left htext)).2
  have hparts := append_cons_inj_of_notMem (notMem_toDigits (by decide) time)
    (notMem_toDigits (by decide) time') hrest
  exact toDigits_injective hparts.2

/-- `str::parse::<u64>`. -/
def parseU64 (text : List Char) : Option ℕ :=
  let digits := if text.head? = some '+' then text.tail else text
  if digits ≠ [] ∧ digits.all Char.isDigit then
    some (Nat.ofDigitChars 10 digits 0) |>.filter (· < 2 ^ 64)
  else none

/-- `job_sequence`. -/
def jobSequence (id : String) : Option ℕ :=
  if id.toList.contains '-' then parseU64 (id.toList.rtakeWhile (· ≠ '-')) else none

/-- `compare_job_order`. -/
def compareJobOrder (left right : Snapshot) : Ordering :=
  ((compare left.startedAt right.startedAt).then
    (match jobSequence left.id, jobSequence right.id with
    | some l, some r => compare l r
    | _, _ => compare left.id right.id)).then (compare left.id right.id)

/-- `prune_jobs`: only jobs that are over go, the earliest first. -/
def pruneJobs (jobs : Table SourceJob.id) : Table SourceJob.id :=
  jobs.prune (fun n ↦ maxJobs ≤ n) (fun job ↦ !job.active)
    (fun job job' ↦ compareJobOrder job.snapshot job'.snapshot == .lt) jobs.rows.length

/-- `prune_plans`: expired plans go, and the oldest of more than eight. -/
def prunePlans (now : ℕ) (plans : Table PendingPlan.id) : Table PendingPlan.id :=
  let kept := plans.keep fun plan ↦ now - planTtlSeconds ≤ plan.createdAt
  kept.prune (fun n ↦ maxPendingPlans < n) (fun _ ↦ true)
    (fun plan plan' ↦ plan.createdAt < plan'.createdAt ∨
      (plan.createdAt = plan'.createdAt ∧ plan.id < plan'.id)) kept.rows.length

/-- The check that both kinds of ids share. -/
def validateId (message id : String) : Except String Unit :=
  Except.require (id.utf8ByteSize ≤ 96 ∧
    id.toList.all fun c ↦ c.isAlphanum || c = '-') message

/-- `validate_job_id`. -/
def validateJobId (id : String) : Except String Unit :=
  validateId "source validation job id is invalid" id

/-- `validate_plan_id`. -/
def validatePlanId (id : String) : Except String Unit :=
  validateId "initial sync plan id is invalid" id

/-! ## Plans -/

/-- The readings of the clock in `build_initial_sync_plan`. -/
structure PlanClock where
  id : ℕ
  prune : ℕ
  created : ℕ

/-- `build_initial_sync_plan`; the coverage is `validation_coverage_at`. -/
def buildInitialSyncPlan (state : SourceJobState) (source : Source) (budget : Budget)
    (coverage : Except String (Option Bool × Option Bool)) (clock : PlanClock) :
    SourceJobState × Except String InitialSyncPlan :=
  match coverage with
  | .error message => (state, .error message)
  | .ok (covers, complete) =>
      let id := planId clock.id state.nextJob
      ({ state with
          plans := (prunePlans clock.prune state.plans).put ⟨id, source.name, budget, clock.created⟩
          nextJob := state.nextJob + 1 },
        .ok
          { source := source.name
            kind := source.kind
            project := source.project
            acl := source.acl
            enabled := source.enabled
            budget := budget
            budgetDocuments := budget.limits.1
            budgetBytes := budget.limits.2.1
            budgetSeconds := budget.limits.2.2
            writesIndexedData := true
            requiresValidation := true
            validationCoversBudget := covers
            validationComplete := complete
            planId := id })

/-- An execution that is asked for. -/
structure ExecuteRequest where
  source : Source
  budget : Budget
  planId : String
deriving DecidableEq

/-- Whether a job runs or is being cancelled. -/
def SourceJobState.busy (state : SourceJobState) : Bool :=
  state.jobs.rows.any SourceJob.active

/-- The first half of `confirm_initial_sync_execution`, up to where it lets go
of the jobs. -/
def confirmJobs (state : SourceJobState) (request : ExecuteRequest) (approved : Bool)
    (coverage : Except String (Option Bool)) : Except String Unit := do
  Except.require (approved = true) "initial sync requires explicit plan confirmation"
  Except.require (request.source.enabled = true)
    "save and enable this source before an initial sync"
  validatePlanId request.planId
  let covers ← coverage
  Except.require (covers = some true)
    "initial sync requires a successful validation at equal or larger limits; validate with this budget first"
  Except.require (state.busy = false) "another source operation is already running"

/-- The second half of `confirm_initial_sync_execution`, with the plans held. -/
def confirmPlan (state : SourceJobState) (request : ExecuteRequest) (now : ℕ) :
    SourceJobState × Except String Unit :=
  let plans := prunePlans now state.plans
  ({ state with plans := plans },
    match plans.get request.planId with
    | none => .error "initial sync plan was not found or has expired; request a new plan"
    | some pending =>
        Except.require (pending.source = request.source.name ∧ pending.budget = request.budget)
          "initial sync plan does not match this source and budget")

/-- `consume_initial_sync_plan`. -/
def consumeInitialSyncPlan (state : SourceJobState) (planId : String) : SourceJobState :=
  { state with plans := state.plans.erase planId }

/-! ## Jobs -/

/-- What the shell makes of a command. -/
structure Spawn where
  sidecar : Except String Unit
  spawn : Except String Unit
  startedAt : ℕ

def Spawn.outcome (spawn : Spawn) (operation : Operation) : Except String Unit := do
  spawn.sidecar.mapError fun error ↦ "locate bundled Cortana runtime: " ++ error
  spawn.spawn.mapError fun error ↦ "start source " ++ operation.asStr ++ ": " ++ error

/-- `start`. -/
def start (state : SourceJobState) (source : Source) (operation : Operation)
    (budget : Option Budget) (writesIndexedData : Bool) (spawn : Spawn) :
    SourceJobState × Except String Snapshot :=
  if state.busy then (state, .error "another source operation is already running")
  else
    let jobs := pruneJobs state.jobs
    match spawn.outcome operation with
    | .error message => ({ state with jobs := jobs }, .error message)
    | .ok () =>
        let snapshot : Snapshot :=
          { id := jobId spawn.startedAt state.nextJob
            operation := operation
            source := source.name
            kind := source.kind
            project := source.project
            acl := source.acl
            status := .running
            startedAt := spawn.startedAt
            completedAt := none
            exitCode := none
            retryable := false
            writesIndexedData := writesIndexedData
            budget := budget }
        ({ state with jobs := jobs.put ⟨snapshot, true⟩, nextJob := state.nextJob + 1 },
          .ok snapshot)

/-- `initial_sync_args`. -/
def initialSyncArgs (source : String) (budget : Budget) : List String :=
  ["sync", "--source", source, "--require-validation", "--no-reconcile", "--max-documents",
    toString budget.limits.1, "--max-bytes", toString budget.limits.2.1, "--max-seconds",
    toString budget.limits.2.2]

/-- What the system makes of killing a process. -/
structure Kill where
  pid : ℕ
  /-- Whether the process group was killed. -/
  group : Bool
  child : Except String Unit

/-- `terminate_source_process`. -/
def terminateSourceProcess (kill : Kill) : Except String Unit :=
  if 0 < kill.pid ∧ kill.pid ≤ 2147483647 ∧ kill.group then .ok ()
  else kill.child.mapError fun error ↦ "kill source process: " ++ error

/-- What becomes of a running job that is cancelled. -/
def SourceJob.cancel (job : SourceJob) (kill : Kill) (now : ℕ) : SourceJob :=
  let cancelling := { job.snapshot with status := .cancelling }
  if job.child then
    match terminateSourceProcess kill with
    | .ok () => ⟨cancelling, false⟩
    | .error _ => ⟨{ cancelling with
        status := .failed, completedAt := some now, retryable := true }, false⟩
  else ⟨cancelling, false⟩

/-- `cancel`. -/
def cancel (state : SourceJobState) (id : String) (kill : Kill) (now : ℕ) :
    SourceJobState × Except String Snapshot :=
  match validateJobId id with
  | .error message => (state, .error message)
  | .ok () =>
      match state.jobs.get id with
      | none => (state, .error "source job was not found")
      | some job =>
          if job.snapshot.status = .running then
            let job' := job.cancel kill now
            ({ state with jobs := state.jobs.put job' }, .ok job'.snapshot)
          else (state, .ok job.snapshot)

/-- Whether `cancel` finds a running job. -/
def SourceJobState.accepts (state : SourceJobState) (id : String) : Bool :=
  (validateJobId id).isOk && (state.jobs.get id).any fun job ↦ job.snapshot.status = .running

theorem cancel_of_accepts {state : SourceJobState} {id : String} (h : state.accepts id = true)
    (kill : Kill) (now : ℕ) :
    ∃ job, state.jobs.get id = some job ∧ job.snapshot.status = .running ∧
      (cancel state id kill now).1 = { state with jobs := state.jobs.put (job.cancel kill now) } := by
  rw [SourceJobState.accepts, Bool.and_eq_true] at h
  obtain ⟨hvalid, hrunning⟩ := h
  obtain ⟨job, hjob, hrunning⟩ := (Option.any_eq_true _ _).mp hrunning
  have hstatus : job.snapshot.status = .running := by simpa using hrunning
  refine ⟨job, hjob, hstatus, ?_⟩
  rw [cancel]
  split
  next herror =>
      rw [herror] at hvalid
      cases hvalid
  next =>
      rw [hjob]
      dsimp only
      rw [if_pos hstatus]

theorem cancel_of_not_accepts {state : SourceJobState} {id : String}
    (h : state.accepts id = false) (kill : Kill) (now : ℕ) :
    (cancel state id kill now).1 = state := by
  rw [cancel]
  split
  next => rfl
  next hvalid =>
      split
      next => rfl
      next job hjob =>
          rw [if_neg]
          intro hrunning
          rw [SourceJobState.accepts, hvalid, hjob] at h
          simp [Except.isOk, Except.toBool, hrunning] at h

inductive CommandEvent where
  /-- `Stdout`, `Stderr` and `Error`: bytes for the log. -/
  | output
  | terminated (code : Option ℤ)

/-- What becomes of a job whose process has terminated. -/
def SourceJob.terminated (job : SourceJob) (code : Option ℤ) (now : ℕ) : SourceJob :=
  if job.active then
    let status :=
      if job.snapshot.status = .cancelling then .cancelled
      else if code = some 0 then .succeeded
      else .failed
    ⟨{ job.snapshot with
      exitCode := code
      completedAt := some now
      status := status
      retryable := status = .failed ∨ status = .cancelled }, false⟩
  else ⟨job.snapshot, false⟩

/-- `handle_event`. -/
def handleEvent (state : SourceJobState) (id : String) (event : CommandEvent) (now : ℕ) :
    SourceJobState :=
  match state.jobs.get id with
  | none => state
  | some job =>
      match event with
      | .output => state
      | .terminated code => { state with jobs := state.jobs.put (job.terminated code now) }

/-- What becomes of a job whose events have ended. -/
def SourceJob.disconnected (job : SourceJob) (now : ℕ) : SourceJob :=
  if job.active then
    ⟨{ job.snapshot with
      completedAt := some now
      status := if job.snapshot.status = .cancelling then .cancelled else .failed
      retryable := true }, false⟩
  else job

/-- `finish_disconnected`. -/
def finishDisconnected (state : SourceJobState) (id : String) (now : ℕ) : SourceJobState :=
  match state.jobs.get id with
  | none => state
  | some job => { state with jobs := state.jobs.put (job.disconnected now) }

end SourceJobs

end Cortana
