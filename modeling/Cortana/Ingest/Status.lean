import Cortana.Ingest.Course

/-!
# The recorded status of a run

`sync_configured_sources` records for every source how its run has ended.  The
status of a failed run is read off the text of its error: which texts make it
name the wrong cause is determined here.
-/

namespace Cortana

open ByteText

namespace Course

/-- `SyncRunStatus`. -/
inductive SyncRunStatus where
  | succeeded
  | failed
  | cancelled
  | budgetExceeded
  deriving DecidableEq, Repr

/-! ## The text of an error -/

namespace BoundKind

/-- The message names the source. -/
def namesSource : BoundKind → Bool
  | .planning | .plannedDocuments | .plannedBytes => false
  | _ => true

/-- The message of an exceeded bound. -/
def message (name : List Char) (limit : ℕ) : BoundKind → List (List Char)
  | .seconds => ["source".toList, name, "exceeded the".toList, Nat.toDigits 10 (limit / 1000),
      "second budget before reconciliation".toList]
  | .planning => ["filesystem planning exceeded the".toList, Nat.toDigits 10 (limit / 1000),
      "second source budget".toList]
  | .plannedDocuments => ["filesystem source exceeds the".toList, Nat.toDigits 10 limit,
      "document budget".toList]
  | .plannedBytes => ["filesystem source exceeds the".toList, Nat.toDigits 10 limit,
      "byte budget".toList]
  | .output => ["connector".toList, name, "exceeded its live output safety bound".toList]
  | .timeout => ["connector".toList, name, "timed out after".toList,
      Nat.toDigits 10 (limit / 1000), "seconds".toList]
  | .spool => ["source".toList, name, "spool exceeds the".toList, Nat.toDigits 10 limit,
      "byte safety bound".toList]
  | .documents => ["source".toList, name, "exceeds the".toList, Nat.toDigits 10 limit,
      "document budget".toList]
  | .bytes => ["source".toList, name, "exceeds the".toList, Nat.toDigits 10 limit,
      "byte budget".toList]
  | .embedding => ["source".toList, name, "exceeded its duration budget during embedding".toList]

end BoundKind

/-- The message of a run that saw the flag. -/
def Place.message (name : List Char) : Place → List (List Char)
  | .check => ["source".toList, name, "cancelled before reconciliation".toList]
  | .connector => ["connector".toList, name, "cancelled before reconciliation".toList]
  | .embedding => ["source".toList, name,
      "cancelled during embedding before reconciliation".toList]

/-- `{:#}` of an error. -/
def alternate (chain : Chain) : List Char := ": ".toList.intercalate chain

namespace Failure

/-- The error that is returned, with what caused it. -/
def chain (name : List Char) : Failure → Chain
  | .cancelled place => [spaced (place.message name)]
  | .bound b =>
      match b.kind with
      | .embedding => [spaced (b.kind.message name b.limit), "deadline has elapsed".toList]
      | kind => [spaced (kind.message name b.limit)]
  | .connector message => [spaced ["connector".toList, name, "failed:".toList, message]]
  | .outside chain => chain

/-- The run has seen the flag. -/
def IsCancelled (failure : Failure) : Prop := ∃ place, failure = .cancelled place

/-- The run has exceeded a bound. -/
def IsBound (failure : Failure) : Prop := ∃ b, failure = .bound b

end Failure

/-! ## The status -/

/-- `is_cancelled_status`. -/
def isCancelledStatus (message : List Char) : Bool := containsText message "cancel".toList

/-- `BUDGET_EXCEEDED_MARKERS`. -/
def budgetExceededMarkers : List (List Char) :=
  ["budget".toList, "safety bound".toList, "timed out after".toList, "timed out before".toList,
    "exceeded duration budget".toList, "connector timed out".toList]

/-- `is_budget_exceeded`. -/
def isBudgetExceeded (message : List Char) : Bool :=
  budgetExceededMarkers.any (containsText message)

section Status

variable (lower : Lowercase)

/-- `failure_status`. -/
def failureStatus (error : Chain) : SyncRunStatus :=
  let message := lower.toLowercase (alternate error)
  if isCancelledStatus message then .cancelled
  else if isBudgetExceeded message then .budgetExceeded
  else .failed

/-! ## The loop over the sources -/

/-- `SourceConfig`, with the limits that it resolves to. -/
structure Source where
  name : List Char
  enabled : Bool
  limits : Except Chain SourceLimits
  input : Input

/-- The run of one source, with what `finish_sync` records of it: the status, and
the counts of a run that has succeeded. -/
structure SyncRun (env : Surroundings) where
  name : List Char
  outcome : Except (Stopped env) (Clock × Scope × ℕ)
  status : SyncRunStatus
  counts : Option (Scope × ℕ)

/-- What is recorded of a run that has ended. -/
def finishSync {env : Surroundings} (name : List Char)
    (outcome : Except (Stopped env) (Clock × Scope × ℕ)) : SyncRun env :=
  match outcome with
  | .ok (_, scope, deleted) => ⟨name, outcome, .succeeded, some (scope, deleted)⟩
  | .error stopped => ⟨name, outcome, failureStatus lower (stopped.failure.chain name), none⟩

/-- When the run ended. -/
def SyncRun.ended {env : Surroundings} (run : SyncRun env) : Clock :=
  match run.outcome with
  | .ok (clock, _) => clock
  | .error stopped => stopped.clock

variable (env : Surroundings) (timeoutSeconds : ℕ) (reconcile : Bool)

/-- The loop of `sync_configured_sources`: the runs that are recorded, and the
names of the sources that failed or the error that ends the loop. -/
def syncSources : List Source → Clock → List (SyncRun env) × Except Chain (List (List Char))
  | [], _ => ([], .ok [])
  | source :: rest, clock =>
      match source.limits, env.outside clock.step with
      | .error chain, _ | .ok _, some chain => ([], .error chain)
      | .ok limits, none =>
          let clock := env.tick clock
          let run := finishSync lower source.name
            (syncSource env ⟨source.name, limits, clock.time⟩ timeoutSeconds source.input reconcile
              clock)
          match env.outside run.ended.step with
          | some chain => ([], .error chain)
          | none =>
              let (runs, failures) := syncSources rest (env.tick run.ended)
              (run :: runs, failures.map fun names ↦
                if run.status = .succeeded then names else source.name :: names)

/-- `sync_configured_sources`. -/
def syncConfiguredSources (sources : List Source) (selected : Option (List Char)) (clock : Clock) :
    List (SyncRun env) × Except Chain Unit :=
  match env.outside clock.step with
  | some chain => ([], .error chain)
  | none =>
      let chosen := sources.filter fun source ↦
        source.enabled && selected.all fun name ↦ source.name == name
      if chosen = [] then
        ([], .error ["no enabled configured sources matched the selection".toList])
      else
        let (runs, failures) :=
          syncSources lower env timeoutSeconds reconcile chosen (env.tick clock)
        (runs, failures.bind fun names ↦
          if names = [] then .ok ()
          else .error ["source sync failed for: ".toList ++ ", ".toList.intercalate names])

end Status

/-! ## What is read off a text -/

section Texts

variable {lower : Lowercase} {name : List Char}

@[simp] theorem alternate_singleton (text : List Char) : alternate [text] = text := by
  simp [alternate]

/-- A piece of ASCII letters that does not speak of a cancellation. -/
theorem isCancelledStatus_literal {piece : List Char}
    (h : (piece.all (fun c ↦ decide (c.toNat < 128)) &&
      !isCancelledStatus (toAsciiLowercase piece)) = true) :
    isCancelledStatus (lower.toLowercase piece) = false := by
  rw [Bool.and_eq_true, List.all_eq_true, Bool.not_eq_true'] at h
  rw [lower.ascii piece fun c hc ↦ of_decide_eq_true (h.1 c hc)]
  exact h.2

@[simp] theorem isCancelledStatus_toDigits (n : ℕ) :
    isCancelledStatus (lower.toLowercase (Nat.toDigits 10 n)) = false :=
  lower.not_contains_toDigits n (by decide)

theorem isCancelledStatus_spaced (pieces : List (List Char)) :
    isCancelledStatus (lower.toLowercase (spaced pieces)) = true ↔
      ∃ piece ∈ pieces, isCancelledStatus (lower.toLowercase piece) = true :=
  lower.contains_spaced_iff (by decide) (by decide) pieces

/-- A piece of ASCII letters with a marker makes the message speak of a bound. -/
theorem isBudgetExceeded_spaced (piece marker : List Char) {pieces : List (List Char)}
    (hmarker : marker ∈ budgetExceededMarkers) (hpiece : piece ∈ pieces)
    (h : (piece.all (fun c ↦ decide (c.toNat < 128)) &&
      containsText (toAsciiLowercase piece) marker) = true) :
    isBudgetExceeded (lower.toLowercase (spaced pieces)) = true := by
  rw [Bool.and_eq_true, List.all_eq_true] at h
  refine List.any_eq_true.mpr ⟨marker, hmarker, ?_⟩
  exact lower.contains_spaced (fun c hc ↦ of_decide_eq_true (h.1 c hc)) h.2 hpiece

/-- The cause of the embedding deadline is one more piece of its message. -/
theorem alternate_embedding (first name : List Char) :
    alternate [spaced [first, name, "exceeded its duration budget during embedding".toList],
        "deadline has elapsed".toList] =
      spaced [first, name, "exceeded its duration budget during embedding:".toList,
        "deadline has elapsed".toList] := by
  simp [alternate, spaced, List.intercalate_cons_cons]

/-- The message of a bound speaks of a cancellation only through the name of the
source. -/
theorem isCancelledStatus_bound (b : Bound) :
    isCancelledStatus (lower.toLowercase (alternate ((Failure.bound b).chain name))) = true ↔
      b.kind.namesSource = true ∧ isCancelledStatus (lower.toLowercase name) = true := by
  obtain ⟨kind, limit, measured, hexceeded⟩ := b
  cases kind <;>
    simp (disch := decide) only [Failure.chain, BoundKind.message, BoundKind.namesSource,
      alternate_singleton, alternate_embedding, isCancelledStatus_spaced, List.mem_cons,
      List.not_mem_nil, exists_eq_or_imp, exists_eq_left, isCancelledStatus_literal,
      isCancelledStatus_toDigits, Bool.false_eq_true, or_false, false_or, true_and, false_and]

/-- Every message of a bound has a marker. -/
theorem isBudgetExceeded_bound (b : Bound) :
    isBudgetExceeded (lower.toLowercase (alternate ((Failure.bound b).chain name))) = true := by
  obtain ⟨kind, limit, measured, hexceeded⟩ := b
  have hmarked : ∀ {pieces : List (List Char)} (piece marker : String),
      marker.toList ∈ budgetExceededMarkers → piece.toList ∈ pieces →
      (piece.toList.all (fun c ↦ decide (c.toNat < 128)) &&
        containsText (toAsciiLowercase piece.toList) marker.toList) = true →
      isBudgetExceeded (lower.toLowercase (alternate [spaced pieces])) = true := by
    intro pieces piece marker hmarker hpiece htext
    rw [alternate_singleton]
    exact isBudgetExceeded_spaced _ _ hmarker hpiece htext
  cases kind with
  | seconds =>
      exact hmarked "second budget before reconciliation" "budget" (by decide)
        (by simp [BoundKind.message]) (by decide)
  | planning =>
      exact hmarked "second source budget" "budget" (by decide) (by simp [BoundKind.message])
        (by decide)
  | plannedDocuments | documents =>
      exact hmarked "document budget" "budget" (by decide) (by simp [BoundKind.message]) (by decide)
  | plannedBytes | bytes =>
      exact hmarked "byte budget" "budget" (by decide) (by simp [BoundKind.message]) (by decide)
  | output =>
      exact hmarked "exceeded its live output safety bound" "safety bound" (by decide)
        (by simp [BoundKind.message]) (by decide)
  | timeout =>
      exact hmarked "timed out after" "timed out after" (by decide) (by simp [BoundKind.message])
        (by decide)
  | spool =>
      exact hmarked "byte safety bound" "safety bound" (by decide) (by simp [BoundKind.message])
        (by decide)
  | embedding =>
      simp only [Failure.chain, BoundKind.message, alternate_embedding]
      exact isBudgetExceeded_spaced "exceeded its duration budget during embedding:".toList
        "budget".toList (by decide) (by simp) (by decide)

theorem isCancelledStatus_cancelled (place : Place) :
    isCancelledStatus (lower.toLowercase (alternate ((Failure.cancelled place).chain name))) =
      true := by
  have hspeaks : ∀ piece : List Char, (piece.all (fun c ↦ decide (c.toNat < 128)) &&
      isCancelledStatus (toAsciiLowercase piece)) = true →
      isCancelledStatus (lower.toLowercase piece) = true := by
    intro piece h
    rw [Bool.and_eq_true, List.all_eq_true] at h
    rw [lower.ascii piece fun c hc ↦ of_decide_eq_true (h.1 c hc)]
    exact h.2
  have hpieces : ∃ piece ∈ place.message name, isCancelledStatus (lower.toLowercase piece) = true := by
    cases place with
    | check | connector =>
        exact ⟨"cancelled before reconciliation".toList, by simp [Place.message],
          hspeaks _ (by decide)⟩
    | embedding =>
        exact ⟨"cancelled during embedding before reconciliation".toList, by simp [Place.message],
          hspeaks _ (by decide)⟩
  rw [Failure.chain, alternate_singleton, isCancelledStatus_spaced]
  exact hpieces

/-- The message of a failed connector speaks of a cancellation when the name of the
source does, or what the connector printed. -/
theorem isCancelledStatus_connector (message : List Char) :
    isCancelledStatus (lower.toLowercase (alternate ((Failure.connector message).chain name))) =
        true ↔
      isCancelledStatus (lower.toLowercase name) = true ∨
        isCancelledStatus (lower.toLowercase message) = true := by
  simp (disch := decide) only [Failure.chain, alternate_singleton, isCancelledStatus_spaced,
    List.mem_cons, List.not_mem_nil, exists_eq_or_imp, exists_eq_left, isCancelledStatus_literal,
    Bool.false_eq_true, or_false, false_or]

end Texts

/-! ## Which runs tell their cause -/

namespace Failure

/-- The texts that come into the message of a failure from outside. -/
def quoted (name : List Char) : Failure → List (List Char)
  | .cancelled _ => [name]
  | .bound b => if b.kind.namesSource then [name] else []
  | .connector message => [name, message]
  | .outside chain => [alternate chain]

theorem isCancelledStatus_chain {lower : Lowercase} {name : List Char} {failure : Failure}
    (h : ¬failure.IsCancelled) :
    isCancelledStatus (lower.toLowercase (alternate (failure.chain name))) = true ↔
      ∃ text ∈ failure.quoted name, isCancelledStatus (lower.toLowercase text) = true := by
  cases failure with
  | cancelled place => exact absurd ⟨place, rfl⟩ h
  | bound b =>
      rw [isCancelledStatus_bound, quoted]
      cases b.kind.namesSource <;> simp
  | connector message =>
      rw [isCancelledStatus_connector, quoted]
      simp
  | outside chain => simp [Failure.chain, quoted]

end Failure

namespace SyncRun

variable {env : Surroundings}

/-- The run has failed for such a reason. -/
def FailedBy (run : SyncRun env) (reason : Failure → Prop) : Prop :=
  ∃ stopped, run.outcome = .error stopped ∧ reason stopped.failure

/-- The recorded status tells the cause: a cancellation that was requested before
the run ended comes first, then an exceeded bound, then any other error. -/
structure TellsCause (run : SyncRun env) : Prop where
  cancelled : run.status = .cancelled ↔ env.requested run.ended
  budgetExceeded : run.status = .budgetExceeded ↔
    ¬env.requested run.ended ∧ run.FailedBy Failure.IsBound
  failed : run.status = .failed ↔
    ¬env.requested run.ended ∧ run.FailedBy fun failure ↦ ¬failure.IsBound

/-- What the outside hands to the run does not mislead: a request is seen, no
quoted text speaks of a cancellation unless it is requested, and the text of an
error from outside speaks of no bound. -/
def Legible (lower : Lowercase) (run : SyncRun env) : Prop :=
  match run.outcome with
  | .ok (clock, _) => ¬env.requested clock
  | .error stopped =>
      stopped.failure.IsCancelled ∨
        ((env.requested stopped.clock ↔ ∃ text ∈ stopped.failure.quoted run.name,
            isCancelledStatus (lower.toLowercase text) = true) ∧
          (¬env.requested stopped.clock → stopped.failure.IsBound ∨
            isBudgetExceeded (lower.toLowercase (alternate (stopped.failure.chain run.name))) =
              false))

end SyncRun

section Runs

variable {lower : Lowercase} {env : Surroundings} {timeoutSeconds : ℕ} {reconcile : Bool}

theorem failureStatus_eq_cancelled_iff {error : Chain} :
    failureStatus lower error = .cancelled ↔
      isCancelledStatus (lower.toLowercase (alternate error)) = true := by
  simp only [failureStatus]
  split_ifs <;> simp_all

theorem failureStatus_eq_budgetExceeded_iff {error : Chain} :
    failureStatus lower error = .budgetExceeded ↔
      isCancelledStatus (lower.toLowercase (alternate error)) = false ∧
        isBudgetExceeded (lower.toLowercase (alternate error)) = true := by
  simp only [failureStatus]
  split_ifs <;> simp_all

theorem failureStatus_eq_failed_iff {error : Chain} :
    failureStatus lower error = .failed ↔
      isCancelledStatus (lower.toLowercase (alternate error)) = false ∧
        isBudgetExceeded (lower.toLowercase (alternate error)) = false := by
  simp only [failureStatus]
  split_ifs <;> simp_all

/-- A run that did not fail tells its cause when nobody asked for its end. -/
theorem tellsCause_finishSync_ok {name : List Char} {result : Clock × Scope × ℕ} :
    (finishSync lower name (.ok result) : SyncRun env).TellsCause ↔
      ¬env.requested result.1 := by
  obtain ⟨clock, scope, deleted⟩ := result
  constructor
  · intro h hrequested
    exact absurd (h.cancelled.mpr hrequested) (by simp [finishSync])
  · intro h
    exact {
      cancelled := by simpa [finishSync, SyncRun.ended] using h
      budgetExceeded := by simp [finishSync, SyncRun.FailedBy]
      failed := by simp [finishSync, SyncRun.FailedBy] }

/-- A failed run tells its cause when it saw the flag, or when the texts that it
quotes do not mislead. -/
theorem tellsCause_finishSync_error {name : List Char} {stopped : Stopped env} :
    (finishSync lower name (.error stopped) : SyncRun env).TellsCause ↔
      (finishSync lower name (.error stopped) : SyncRun env).Legible lower := by
  have hby : ∀ reason : Failure → Prop,
      (finishSync lower name (.error stopped) : SyncRun env).FailedBy reason ↔
        reason stopped.failure := by
    intro reason
    simp [finishSync, SyncRun.FailedBy]
  by_cases hcancelled : stopped.failure.IsCancelled
  · obtain ⟨place, hplace⟩ := hcancelled
    have hrequested : env.requested stopped.clock := stopped.noticed place hplace
    have hstatus : failureStatus lower (stopped.failure.chain name) = .cancelled := by
      rw [failureStatus_eq_cancelled_iff, hplace]
      exact isCancelledStatus_cancelled place
    refine iff_of_true ⟨?_, ?_, ?_⟩ (.inl ⟨place, hplace⟩)
    · exact iff_of_true hstatus hrequested
    · exact iff_of_false (fun h ↦ by cases hstatus.symm.trans h) fun h ↦ h.1 hrequested
    · exact iff_of_false (fun h ↦ by cases hstatus.symm.trans h) fun h ↦ h.1 hrequested
  · have htext : isCancelledStatus (lower.toLowercase (alternate (stopped.failure.chain name))) =
          true ↔
        ∃ text ∈ stopped.failure.quoted name, isCancelledStatus (lower.toLowercase text) = true :=
      Failure.isCancelledStatus_chain hcancelled
    have hbudget : stopped.failure.IsBound →
        isBudgetExceeded (lower.toLowercase (alternate (stopped.failure.chain name))) = true := by
      rintro ⟨b, hb⟩
      rw [hb]
      exact isBudgetExceeded_bound b
    constructor
    · intro h
      refine .inr ⟨?_, fun hnot ↦ ?_⟩
      · exact (h.cancelled.symm.trans failureStatus_eq_cancelled_iff).trans htext
      · by_cases hbound : stopped.failure.IsBound
        · exact .inl hbound
        · refine .inr (Iff.mp failureStatus_eq_failed_iff (h.failed.mpr ⟨hnot, ?_⟩)).2
          exact Iff.mpr (hby _) hbound
    · rintro (h | ⟨hrequested, hother⟩)
      · exact absurd h hcancelled
      have hcancel : isCancelledStatus (lower.toLowercase
          (alternate (stopped.failure.chain name))) = true ↔ env.requested stopped.clock :=
        htext.trans hrequested.symm
      refine ⟨failureStatus_eq_cancelled_iff.trans hcancel, ?_, ?_⟩
      · refine failureStatus_eq_budgetExceeded_iff.trans ?_
        rw [hby, ← Bool.not_eq_true, hcancel]
        refine and_congr_right fun hnot ↦ ⟨fun hmarked ↦ ?_, hbudget⟩
        exact (hother hnot).resolve_right fun hunmarked ↦ by cases hunmarked.symm.trans hmarked
      · refine failureStatus_eq_failed_iff.trans ?_
        rw [hby, ← Bool.not_eq_true, hcancel]
        refine and_congr_right fun hnot ↦ ⟨fun hunmarked hbound ↦ ?_, fun hbound ↦ ?_⟩
        · cases hunmarked.symm.trans (hbudget hbound)
        · exact (hother hnot).resolve_left hbound

/-- What is recorded is what the runs of the sources have ended with. -/
theorem eq_finishSync_of_mem_syncSources {sources : List Source} {clock : Clock}
    {run : SyncRun env}
    (h : run ∈ (syncSources lower env timeoutSeconds reconcile sources clock).1) :
    ∃ name outcome, run = finishSync lower name outcome := by
  induction sources generalizing clock with
  | nil => cases h
  | cons source rest ih =>
      rw [syncSources] at h
      split at h
      · cases h
      · cases h
      · dsimp only at h
        split at h
        · cases h
        · rcases List.mem_cons.mp h with rfl | h
          · exact ⟨_, _, rfl⟩
          · exact ih h

/-- A connector that ends at once and prints a message. -/
def printing (success : Bool) (message : String) : Surroundings where
  requestedAt := none
  delay := fun _ ↦ 1
  outside := fun _ ↦ none
  needsUpdate := fun _ ↦ false
  chunks := fun _ ↦ 1
  embedding := fun _ ↦ .finished (.ok ())
  poll := fun _ ↦ ⟨0, 0, .ok (some success)⟩
  diagnostics := fun _ ↦ message.toList
  deleted := fun _ ↦ 0

def orders : Source where
  name := "orders".toList
  enabled := true
  limits := .ok ⟨⟨10, 1000, 4, 1⟩, 60⟩
  input := .connector 0 []

end Runs

end Course

end Cortana
