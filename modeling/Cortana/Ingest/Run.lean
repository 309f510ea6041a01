import Cortana.Ingest.Emission

/-!
# A run of a source

`sync_configured_sources` for one source: what it emits is ingested, and when
that has ended the documents of the source that were not seen are deleted.
-/

namespace Cortana

namespace Ingest

/-- `u64::saturating_add`. -/
def saturatingAdd (a b : ℕ) : ℕ := min (a + b) (2 ^ 64 - 1)

def documentBudget (limits : SourceLimits) (config : SourceConfig) : String :=
  s!"source {config.name} exceeds the {limits.maxDocuments} document budget"

def byteBudget (limits : SourceLimits) (config : SourceConfig) : String :=
  s!"source {config.name} exceeds the {limits.maxBytes} byte budget"

/-! ## The preflight of a filesystem source -/

/-- `FilesystemPlan`. -/
structure FilesystemPlan where
  documents : ℕ
  bytes : ℕ
  complete : Bool

/-- The loop of `filesystem_plan`. -/
def filesystemPlan (env : Environment) (limits : SourceLimits) (rootName : String) (sample : Bool) :
    List (Except String FileEntry) → FilesystemPlan → IngestState →
      Except Stopped (IngestState × FilesystemPlan)
  | [], plan, state => .ok (state, plan)
  | entry :: rest, plan, state => do
      let state ← check env state
      match entry with
      | .error reason => .error ⟨state.store, reason⟩
      | .ok file =>
          if !file.isFile || !file.isText env.lowercase rootName then
            filesystemPlan env limits rootName sample rest plan state
          else
            match file.length with
            | .error reason => .error ⟨state.store, reason⟩
            | .ok bytes =>
                if bytes = 0 ∨ FileEntry.maxFileBytes < bytes then
                  filesystemPlan env limits rootName sample rest plan state
                else
                  let documentsOver := limits.maxDocuments ≤ plan.documents
                  let bytesOver := limits.maxBytes < saturatingAdd plan.bytes bytes
                  if sample ∧ (documentsOver ∨ bytesOver) then
                    .ok (state, { plan with complete := false })
                  else if documentsOver then
                    .error ⟨state.store,
                      s!"filesystem source exceeds the {limits.maxDocuments} document budget"⟩
                  else if bytesOver then
                    .error ⟨state.store,
                      s!"filesystem source exceeds the {limits.maxBytes} byte budget"⟩
                  else
                    filesystemPlan env limits rootName sample rest
                      { plan with
                        documents := plan.documents + 1
                        bytes := saturatingAdd plan.bytes bytes } state

/-! ## The preflight of a connector -/

/-- `SyncScope`. -/
structure SyncScope where
  seen : List String
  documents : ℕ
  bytes : ℕ

/-- `maximum_connector_spool_bytes`. -/
def maximumConnectorSpoolBytes (limits : SourceLimits) : ℕ :=
  saturatingAdd limits.maxBytes (min (limits.maxDocuments * (64 * 1024)) (2 ^ 64 - 1))

def invalidLine (config : SourceConfig) : String :=
  s!"connector {config.name} emitted invalid Document JSONL"

/-- The loop of `validate_connector_spool`. -/
def validateLines (env : Environment) (limits : SourceLimits) (config : SourceConfig) :
    List (Except String String) → SyncScope → IngestState →
      Except Stopped (IngestState × SyncScope)
  | [], scope, state => .ok (state, scope)
  | line :: rest, scope, state => do
      let state ← check env state
      match line with
      | .error reason => .error ⟨state.store, reason⟩
      | .ok text =>
          if ByteText.trim text.toList = [] then
            validateLines env limits config rest scope state
          else
            match env.parseDocument text with
            | none => .error ⟨state.store, invalidLine config⟩
            | some document =>
                let scope := { scope with
                  documents := scope.documents + 1
                  bytes := saturatingAdd scope.bytes document.content.utf8ByteSize }
                if limits.maxDocuments < scope.documents then
                  .error ⟨state.store, documentBudget limits config⟩
                else if limits.maxBytes < scope.bytes then
                  .error ⟨state.store, byteBudget limits config⟩
                else validateLines env limits config rest scope state

/-- `validate_connector_spool`. -/
def validateConnectorSpool (env : Environment) (limits : SourceLimits) (config : SourceConfig)
    (spool : Spool) (state : IngestState) : Except Stopped (IngestState × SyncScope) :=
  if maximumConnectorSpoolBytes limits < spool.bytes then
    .error ⟨state.store,
      s!"source {config.name} spool exceeds the {maximumConnectorSpoolBytes limits} byte safety bound"⟩
  else validateLines env limits config spool.lines ⟨[], 0, 0⟩ state

/-! ## Reading and ingesting -/

/-- The loop over the documents: what was seen, and the batch that is filled. -/
structure WalkState where
  state : IngestState
  seen : List String
  batch : List Document
  bytes : ℕ

/-- A document joins the batch, which is ingested when it is full. -/
def push (env : Environment) (limits : SourceLimits) (w : WalkState) (state : IngestState)
    (document : Document) (bytes : ℕ) : Except Stopped WalkState :=
  let seen := w.seen ++ [document.sourceId]
  let batch := w.batch ++ [document]
  if limits.documentBatchSize ≤ batch.length then do
    let state ← ingestDocumentsControlled env limits batch state
    return ⟨state, seen, [], bytes⟩
  else .ok ⟨state, seen, batch, bytes⟩

/-- What is left in the batch after the loop. -/
def finish (env : Environment) (limits : SourceLimits) (w : WalkState) :
    Except Stopped IngestState :=
  if w.batch = [] then .ok w.state else ingestDocumentsControlled env limits w.batch w.state

/-- The loop over the files of a walk.  A run that does not reconcile stops at
its budgets; one that does fails there. -/
def syncFiles (env : Environment) (limits : SourceLimits) (config : SourceConfig)
    (reconcile : Bool) : List (Except String Document) → WalkState → Except Stopped WalkState
  | [], w => .ok w
  | item :: rest, w => do
      let state ← check env w.state
      match item with
      | .error reason => .error ⟨state.store, reason⟩
      | .ok document =>
          let bytes := saturatingAdd w.bytes document.content.utf8ByteSize
          let documentsOver := limits.maxDocuments ≤ w.seen.length
          let bytesOver := limits.maxBytes < bytes
          if !reconcile ∧ (documentsOver ∨ bytesOver) then .ok { w with state := state }
          else if documentsOver then .error ⟨state.store, documentBudget limits config⟩
          else if bytesOver then .error ⟨state.store, byteBudget limits config⟩
          else do
            let w ← push env limits w state (normalizeDocument config document) bytes
            syncFiles env limits config reconcile rest w

/-- The loop over the lines of a spool. -/
def syncLines (env : Environment) (limits : SourceLimits) (config : SourceConfig) :
    List (Except String String) → WalkState → Except Stopped WalkState
  | [], w => .ok w
  | line :: rest, w => do
      let state ← check env w.state
      match line with
      | .error reason => .error ⟨state.store, reason⟩
      | .ok text =>
          if ByteText.trim text.toList = [] then
            syncLines env limits config rest { w with state := state }
          else
            match env.parseDocument text with
            | none => .error ⟨state.store, invalidLine config⟩
            | some document => do
                let w ← push env limits w state (normalizeDocument config document) w.bytes
                syncLines env limits config rest w

/-- `sync_source_documents`. -/
def syncSourceDocuments (env : Environment) (limits : SourceLimits) (config : SourceConfig)
    (emission : Emission) (reconcile : Bool) (state : IngestState) :
    Except Stopped (IngestState × SyncScope) := do
  let state ← check env state
  match emission with
  | .filesystem (.error reason) | .connector (.error reason) => .error ⟨state.store, reason⟩
  | .filesystem (.ok source) => do
      let (state, _) ← filesystemPlan env limits source.rootName (!reconcile)
        (source.visible source.planned) ⟨0, 0, true⟩ state
      let state ← check env state
      let w ← syncFiles env limits config reconcile (source.filesystemDocumentIter env config)
        ⟨state, [], [], 0⟩
      let state ← finish env limits w
      return (state, ⟨w.seen, w.seen.length, w.bytes⟩)
  | .connector (.ok spool) => do
      let (state, scope) ← validateConnectorSpool env limits config spool state
      let w ← syncLines env limits config spool.lines ⟨state, [], [], 0⟩
      let state ← finish env limits w
      return (state, { scope with seen := w.seen })

/-- The deletion at the end of a run that reconciles. -/
def deleteUnseen (env : Environment) (config : SourceConfig) (reconcile : Bool)
    (state : IngestState) (scope : SyncScope) : Except Stopped (Store × ℕ) :=
  if reconcile then
    match state.store.reconcile env.codec config.canonicalSource config.project scope.seen
        (fun _ ↦ env.now state.clock) with
    | .error reason => .error ⟨state.store, reason⟩
    | .ok (store, deleted) => .ok (store, deleted)
  else .ok (state.store, 0)

/-- `finish_sync`, when the deletion has been committed. -/
def finishRun (env : Environment) (done : Store × ℕ) : Except Stopped (Store × ℕ) :=
  match env.finishSync with
  | .error reason => .error ⟨done.1, reason⟩
  | .ok () => .ok done

/-- One source of `sync_configured_sources`, with the number of documents that it
deleted. -/
def syncConfiguredSource (env : Environment) (limits : SourceLimits) (config : SourceConfig)
    (emission : Emission) (reconcile : Bool) (s : Store) : Except Stopped (Store × ℕ) := do
  let (state, scope) ← syncSourceDocuments env limits config emission reconcile ⟨s, 0⟩
  let state ← check env state
  let done ← deleteUnseen env config reconcile state scope
  finishRun env done

end Ingest

end Cortana
