import Cortana.Ingest.Run
import Cortana.Text.Words

/-!
# The course of a source run

`sync_configured_sources` as far as the end of a run depends on it: the checks
of the cancellation flag and of the bounds, in the order in which the run meets
them, and the steps that can fail outside of this code.  A stopped run carries
the reason why it stopped, with the proof that the flag was set or the bound was
exceeded.
-/

namespace Cortana

open ByteText

namespace Course

/-! ## What a run meets -/

/-- The texts of an error and of what caused it, the outermost first. -/
abbrev Chain := List (List Char)

/-- The time in milliseconds, and the number of steps that were made. -/
structure Clock where
  step : ℕ
  time : ℕ
  deriving DecidableEq, Repr

/-- How the wait for the embeddings of a batch ends: the provider and the store
are done with it, the remaining time is over, or the flag is seen. -/
inductive Embedding (requestedAt : Option ℕ) where
  | finished (result : Except Chain Unit)
  | deadline (late : ℕ)
  | cancelled (at' : ℕ) (requested : requestedAt = some at') (late : ℕ)

/-- A look at a running connector: the lengths of its two files, and the answer
of `try_wait`, with the success of an exit status. -/
structure Poll where
  spoolBytes : ℕ
  diagnosticBytes : ℕ
  status : Except Chain (Option Bool)

/-- Everything outside of the run, by the number of the step that meets it. -/
structure Surroundings where
  /-- The time at which the cancellation flag is set. -/
  requestedAt : Option ℕ
  /-- How long a step takes. -/
  delay : ℕ → ℕ
  /-- The error of a step that depends on the file system, the store or a process. -/
  outside : ℕ → Option Chain
  /-- `needs_structured_update`. -/
  needsUpdate : ℕ → Bool
  /-- The number of chunks of a document. -/
  chunks : ℕ → ℕ
  embedding : ℕ → Embedding requestedAt
  poll : ℕ → Poll
  /-- What a connector has printed to stderr, empty when it cannot be read. -/
  diagnostics : ℕ → List Char
  /-- The number of documents that `reconcile` deletes. -/
  deleted : ℕ → ℕ

namespace Surroundings

/-- `Cancellation::is_requested`. -/
def requested (env : Surroundings) (clock : Clock) : Prop := ∃ t ∈ env.requestedAt, t ≤ clock.time

instance (env : Surroundings) (clock : Clock) : Decidable (env.requested clock) :=
  inferInstanceAs (Decidable (∃ t ∈ env.requestedAt, t ≤ clock.time))

/-- One step passes. -/
def tick (env : Surroundings) (clock : Clock) : Clock :=
  ⟨clock.step + 1, clock.time + env.delay clock.step⟩

end Surroundings

/-! ## Why a run stops -/

/-- The bounds of a run. -/
inductive BoundKind where
  /-- The duration of a source, at a check. -/
  | seconds
  /-- The duration of a source, while its files are planned. -/
  | planning
  | plannedDocuments
  | plannedBytes
  /-- The live output of a connector. -/
  | output
  /-- The duration of a connector. -/
  | timeout
  | spool
  | documents
  | bytes
  /-- The duration of a source, while it waits for embeddings. -/
  | embedding
  deriving DecidableEq, Repr

/-- A duration that is waited for is over when it is reached; everything else
may reach its limit. -/
def BoundKind.Exceeded (kind : BoundKind) (limit measured : ℕ) : Prop :=
  match kind with
  | .timeout | .embedding => limit ≤ measured
  | _ => limit < measured

/-- A bound that was exceeded, with durations in milliseconds. -/
structure Bound where
  kind : BoundKind
  limit : ℕ
  measured : ℕ
  exceeded : kind.Exceeded limit measured

/-- Where the flag is looked at. -/
inductive Place where
  | check
  | connector
  | embedding
  deriving DecidableEq, Repr

/-- The reason of a failed run. -/
inductive Failure where
  | cancelled (place : Place)
  | bound (bound : Bound)
  /-- A connector has ended without success, with this on stderr. -/
  | connector (message : List Char)
  /-- Any other error. -/
  | outside (chain : Chain)

/-- A run that has stopped; it is cancelled only after the flag was set. -/
structure Stopped (env : Surroundings) where
  clock : Clock
  failure : Failure
  noticed : ∀ place, failure = .cancelled place → env.requested clock

namespace Stopped

variable {env : Surroundings}

def cancelled (place : Place) (clock : Clock) (h : env.requested clock) : Stopped env :=
  ⟨clock, .cancelled place, fun _ _ ↦ h⟩

def bound (kind : BoundKind) (limit measured : ℕ) (clock : Clock)
    (h : kind.Exceeded limit measured) : Stopped env :=
  ⟨clock, .bound ⟨kind, limit, measured, h⟩, fun _ h ↦ nomatch h⟩

def connector (message : List Char) (clock : Clock) : Stopped env :=
  ⟨clock, .connector message, fun _ h ↦ nomatch h⟩

def outside (chain : Chain) (clock : Clock) : Stopped env :=
  ⟨clock, .outside chain, fun _ h ↦ nomatch h⟩

end Stopped

/-! ## The checks of a run -/

/-- `SourceLimits`. -/
structure SourceLimits extends Cortana.SourceLimits where
  maxSeconds : ℕ

/-- `SourceControl`, with the name of the source that is handed to its checks. -/
structure SourceControl where
  name : List Char
  limits : SourceLimits
  started : ℕ

namespace SourceControl

/-- The time budget in milliseconds. -/
def duration (control : SourceControl) : ℕ := control.limits.maxSeconds * 1000

/-- `started.elapsed()`. -/
def elapsed (control : SourceControl) (clock : Clock) : ℕ := clock.time - control.started

/-- `SourceControl::check`. -/
def check (env : Surroundings) (control : SourceControl) (clock : Clock) :
    Except (Stopped env) Clock :=
  if h : env.requested clock then .error (.cancelled .check clock h)
  else
    let clock := env.tick clock
    if h : control.duration < control.elapsed clock then
      .error (.bound .seconds control.duration (control.elapsed clock) clock h)
    else .ok clock

/-- `SourceControl::remaining`. -/
def remaining (env : Surroundings) (control : SourceControl) (clock : Clock) :
    Except (Stopped env) (Clock × ℕ) := do
  let clock ← control.check env clock
  let clock := env.tick clock
  return (clock, control.duration - control.elapsed clock)

end SourceControl

/-- A step outside of this code. -/
def outside (env : Surroundings) (clock : Clock) : Except (Stopped env) Clock :=
  match env.outside clock.step with
  | some chain => .error (.outside chain (env.tick clock))
  | none => .ok (env.tick clock)

/-! ## Ingesting a batch -/

/-- The `select!` of `flush_ingest_batch`: the deadline is the end of the
duration of the source. -/
def embedAndCommit (env : Surroundings) (control : SourceControl) (clock : Clock) :
    Except (Stopped env) Clock :=
  match env.embedding clock.step with
  | .finished (.ok _) => .ok (env.tick clock)
  | .finished (.error chain) => .error (.outside chain (env.tick clock))
  | .deadline late =>
      let clock : Clock :=
        ⟨clock.step + 1, max clock.time (control.started + control.duration) + late⟩
      .error (.bound .embedding control.duration (control.elapsed clock) clock (by
        change control.duration ≤ max _ _ + late - control.started
        omega))
  | .cancelled t requested late =>
      let clock : Clock := ⟨clock.step + 1, max clock.time t + late⟩
      .error (.cancelled .embedding clock ⟨t, requested, by
        change t ≤ max _ t + late
        omega⟩)

/-- `flush_ingest_batch`, for the number of documents in the batch. -/
def flushIngestBatch (env : Surroundings) (control : SourceControl) (pending : ℕ) (clock : Clock) :
    Except (Stopped env) Clock :=
  if pending = 0 then .ok clock
  else do
    let clock ← control.check env clock
    let (clock, _) ← control.remaining env clock
    let clock ← embedAndCommit env control clock
    control.check env clock

/-- What is counted while documents are ingested. -/
structure Ingestion where
  processed : ℕ
  pending : ℕ
  pendingChunks : ℕ

/-- `EMBEDDING_REQUEST_SIZE`. -/
def requestSize : ℕ := 8

/-- One document of `ingest_documents_controlled`. -/
def ingestDocument (env : Surroundings) (control : SourceControl) :
    Clock × Ingestion → ℕ → Except (Stopped env) (Clock × Ingestion)
  | (clock, progress), _ => do
      let clock ← control.check env clock
      let progress := { progress with processed := progress.processed + 1 }
      let needed := env.needsUpdate clock.step
      let clock ← outside env clock
      if !needed then
        -- The timestamp is refreshed, and every 64 documents the progress is recorded.
        let clock ← outside env clock
        let clock ← if progress.processed % 64 = 0 then outside env clock else pure clock
        return (clock, progress)
      else
        let chunks := progress.pendingChunks + env.chunks clock.step
        let clock := env.tick clock
        if requestSize * control.limits.requestConcurrency ≤ chunks then
          let clock ← flushIngestBatch env control (progress.pending + 1) clock
          let clock ← outside env clock
          return (clock, { progress with pending := 0, pendingChunks := 0 })
        else
          return (clock, { progress with pending := progress.pending + 1, pendingChunks := chunks })

/-- `ingest_documents_controlled`. -/
def ingestDocumentsControlled (env : Surroundings) (control : SourceControl)
    (documents : List ℕ) (clock : Clock) : Except (Stopped env) Clock := do
  let (clock, progress) ← documents.foldlM (ingestDocument env control) (clock, ⟨0, 0, 0⟩)
  let clock ← flushIngestBatch env control progress.pending clock
  outside env clock

/-- The documents that a source has handed over: those in the batch, and the
counts of all of them. -/
structure Walk where
  clock : Clock
  batch : List ℕ
  seen : ℕ
  bytes : ℕ

/-- A document joins the batch, which is ingested when it is full. -/
def push (env : Surroundings) (control : SourceControl) (w : Walk) (document : ℕ) :
    Except (Stopped env) Walk :=
  let batch := w.batch ++ [document]
  if control.limits.documentBatchSize ≤ batch.length then do
    let clock ← ingestDocumentsControlled env control batch w.clock
    return { w with clock := clock, batch := [], seen := w.seen + 1 }
  else .ok { w with batch := batch, seen := w.seen + 1 }

/-- What is left in the batch is ingested. -/
def finish (env : Surroundings) (control : SourceControl) (w : Walk) :
    Except (Stopped env) Clock :=
  if w.batch = [] then .ok w.clock else ingestDocumentsControlled env control w.batch w.clock

/-- The number of documents and of their bytes. -/
structure Scope where
  documents : ℕ
  bytes : ℕ
  deriving DecidableEq, Repr

/-! ## A filesystem source -/

/-- The loop of `filesystem_plan` over the lengths of the text files of a walk. -/
def filesystemPlan (env : Surroundings) (limits : SourceLimits) (allowed started : ℕ)
    (sample : Bool) : List (Except Chain (Option ℕ)) → Scope → Clock → Except (Stopped env) Clock
  | [], _, clock => .ok clock
  | entry :: rest, plan, clock =>
      let clock := env.tick clock
      if h : allowed < clock.time - started then
        .error (.bound .planning allowed (clock.time - started) clock h)
      else
        match entry with
        | .error chain => .error (.outside chain clock)
        | .ok none => filesystemPlan env limits allowed started sample rest plan clock
        | .ok (some length) =>
            let counted := plan.documents + 1
            let bytes := Ingest.saturatingAdd plan.bytes length
            if length = 0 ∨ FileEntry.maxFileBytes < length then
              filesystemPlan env limits allowed started sample rest plan clock
            else if sample ∧ (limits.maxDocuments < counted ∨ limits.maxBytes < bytes) then
              .ok clock
            else if h : limits.maxDocuments < counted then
              .error (.bound .plannedDocuments limits.maxDocuments counted clock h)
            else if h : limits.maxBytes < bytes then
              .error (.bound .plannedBytes limits.maxBytes bytes clock h)
            else filesystemPlan env limits allowed started sample rest ⟨counted, bytes⟩ clock

/-- The loop over the documents of a filesystem source, by their lengths.  A run
that does not reconcile stops at its budgets. -/
def syncFiles (env : Surroundings) (control : SourceControl) (reconcile : Bool) :
    List (Except Chain ℕ) → Walk → Except (Stopped env) Walk
  | [], w => .ok w
  | item :: rest, w => do
      let clock ← control.check env w.clock
      match item with
      | .error chain => .error (.outside chain clock)
      | .ok length =>
          let counted := w.seen + 1
          let bytes := Ingest.saturatingAdd w.bytes length
          if !reconcile ∧ (control.limits.maxDocuments < counted ∨ control.limits.maxBytes < bytes) then
            .ok { w with clock := clock }
          else if h : control.limits.maxDocuments < counted then
            .error (.bound .documents control.limits.maxDocuments counted clock h)
          else if h : control.limits.maxBytes < bytes then
            .error (.bound .bytes control.limits.maxBytes bytes clock h)
          else do
            let w ← push env control { w with clock := clock, bytes := bytes } length
            syncFiles env control reconcile rest w

/-! ## A connector source -/

/-- A line of a spool. -/
inductive Line where
  | unreadable (chain : Chain)
  | blank
  | invalid (reason : List Char)
  /-- A document, by the length of its content. -/
  | document (length : ℕ)

def invalidLine (name reason : List Char) : Chain :=
  [spaced ["connector".toList, name, "emitted invalid Document JSONL".toList], reason]

/-- `MAXIMUM_DIAGNOSTIC_BYTES`. -/
def maximumDiagnosticBytes : ℕ := 16 * 1024 * 1024

/-- The loop that waits for the end of a connector, with the success of its
exit status. -/
def waitForConnector (env : Surroundings) (limits : SourceLimits) (timeout started : ℕ)
    (clock : Clock) : Except (Stopped env) (Clock × Bool) :=
  if h : env.requested clock then .error (.cancelled .connector clock h)
  else
    let poll := env.poll clock.step
    let maximumSpoolBytes := Ingest.maximumConnectorSpoolBytes limits.toSourceLimits
    if h : maximumSpoolBytes < poll.spoolBytes then
      .error (.bound .output maximumSpoolBytes poll.spoolBytes (env.tick clock) h)
    else if h : maximumDiagnosticBytes < poll.diagnosticBytes then
      .error (.bound .output maximumDiagnosticBytes poll.diagnosticBytes (env.tick clock) h)
    else
      match poll.status with
      | .error chain => .error (.outside chain (env.tick clock))
      | .ok (some success) => .ok (env.tick clock, success)
      | .ok none =>
          let looked := (env.tick clock).time
          if h : timeout ≤ looked - started then
            .error (.bound .timeout timeout (looked - started) (env.tick clock) h)
          else waitForConnector env limits timeout started ⟨clock.step + 1, looked + 100⟩
termination_by started + timeout - clock.time
decreasing_by
  have hlater : clock.time ≤ (env.tick clock).time := Nat.le_add_right _ _
  omega

/-- `run_connector_to_spool`; the files are created and the process is started
in one step. -/
def runConnectorToSpool (env : Surroundings) (control : SourceControl) (timeoutSeconds : ℕ)
    (clock : Clock) : Except (Stopped env) Clock := do
  let clock ← outside env clock
  let (clock, remaining) ← control.remaining env clock
  let timeout := min (max timeoutSeconds 1 * 1000) remaining
  let clock := env.tick clock
  let (clock, success) ← waitForConnector env control.limits timeout clock.time clock
  if success then return clock
  else .error (.connector ((trim (env.diagnostics clock.step)).take 16384) (env.tick clock))

/-- The loop of `validate_connector_spool`. -/
def validateLines (env : Surroundings) (control : SourceControl) :
    List Line → Scope → Clock → Except (Stopped env) (Clock × Scope)
  | [], scope, clock => .ok (clock, scope)
  | line :: rest, scope, clock => do
      let clock ← control.check env clock
      match line with
      | .unreadable chain => .error (.outside chain clock)
      | .blank => validateLines env control rest scope clock
      | .invalid reason => .error (.outside (invalidLine control.name reason) clock)
      | .document length =>
          let counted := scope.documents + 1
          let bytes := Ingest.saturatingAdd scope.bytes length
          if h : control.limits.maxDocuments < counted then
            .error (.bound .documents control.limits.maxDocuments counted clock h)
          else if h : control.limits.maxBytes < bytes then
            .error (.bound .bytes control.limits.maxBytes bytes clock h)
          else validateLines env control rest ⟨counted, bytes⟩ clock

/-- `validate_connector_spool`. -/
def validateConnectorSpool (env : Surroundings) (control : SourceControl) (spoolBytes : ℕ)
    (lines : List Line) (clock : Clock) : Except (Stopped env) (Clock × Scope) := do
  let clock ← outside env clock
  let maximumSpoolBytes := Ingest.maximumConnectorSpoolBytes control.limits.toSourceLimits
  if h : maximumSpoolBytes < spoolBytes then
    .error (.bound .spool maximumSpoolBytes spoolBytes clock h)
  else do
    let clock ← outside env clock
    validateLines env control lines ⟨0, 0⟩ clock

/-- The loop over the lines of a spool. -/
def syncLines (env : Surroundings) (control : SourceControl) :
    List Line → Walk → Except (Stopped env) Walk
  | [], w => .ok w
  | line :: rest, w => do
      let clock ← control.check env w.clock
      match line with
      | .unreadable chain => .error (.outside chain clock)
      | .blank => syncLines env control rest { w with clock := clock }
      | .invalid reason => .error (.outside (invalidLine control.name reason) clock)
      | .document length => do
          let w ← push env control { w with clock := clock } length
          syncLines env control rest w

/-! ## The run of one source -/

/-- What a source is read from: the walks of a filesystem source, when it has a
root, or the spool of a connector. -/
inductive Input where
  | filesystem (walks : Option (List (Except Chain (Option ℕ)) × List (Except Chain ℕ)))
  | connector (spoolBytes : ℕ) (lines : List Line)

/-- `sync_source_documents`. -/
def syncSourceDocuments (env : Surroundings) (control : SourceControl) (timeoutSeconds : ℕ)
    (input : Input) (reconcile : Bool) (clock : Clock) :
    Except (Stopped env) (Clock × Scope) :=
  match input with
  | .filesystem none =>
      .error (.outside [spaced ["source".toList, control.name, "requires root".toList]] clock)
  | .filesystem (some (entries, documents)) => do
      let (clock, allowed) ← control.remaining env clock
      -- The root is resolved.
      let clock ← outside env clock
      let clock ← filesystemPlan env control.limits allowed clock.time (!reconcile) entries ⟨0, 0⟩
        clock
      let clock ← control.check env clock
      let clock ← outside env clock
      let w ← syncFiles env control reconcile documents ⟨clock, [], 0, 0⟩
      let clock ← finish env control w
      return (clock, ⟨w.seen, w.bytes⟩)
  | .connector spoolBytes lines => do
      let clock ← runConnectorToSpool env control timeoutSeconds clock
      let (clock, scope) ← validateConnectorSpool env control spoolBytes lines clock
      let clock ← outside env clock
      let w ← syncLines env control lines ⟨clock, [], 0, 0⟩
      let clock ← finish env control w
      return (clock, scope)

/-- The run of one source in `sync_configured_sources`, up to its end, with the
number of documents that it deleted. -/
def syncSource (env : Surroundings) (control : SourceControl) (timeoutSeconds : ℕ) (input : Input)
    (reconcile : Bool) (clock : Clock) : Except (Stopped env) (Clock × Scope × ℕ) := do
  let (clock, scope) ← syncSourceDocuments env control timeoutSeconds input reconcile clock
  let clock ← control.check env clock
  if reconcile then
    let deleted := env.deleted clock.step
    let clock ← outside env clock
    return (clock, scope, deleted)
  else return (clock, scope, 0)

end Course

end Cortana
