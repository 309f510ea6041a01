import Cortana.Store.Documents
import Cortana.Store.Memories

/-!
# The synchronisation engine

`sync_engine.rs`, function by function: what is exported for a peer, how a
bundle is imported, and how a recorded conflict is resolved.
-/

namespace Cortana

open Replication

/-- `ApplyReport`. -/
structure ApplyReport where
  applied : ℕ
  acknowledged : ℕ
  tombstonesApplied : ℕ
  conflictsResolvedRemote : ℕ
  conflictsRecordedLocal : ℕ
  entries : ℕ
  upToJournalId : ℤ
deriving DecidableEq

def ApplyReport.start (entries : ℕ) (upTo : ℤ) : ApplyReport := ⟨0, 0, 0, 0, 0, entries, upTo⟩

namespace Store

/-! ## Export and acknowledgement -/

/-- A journal row as it is sent, with the live row of its object. -/
def exportEntry (s : Store) (change : JournalRow) : Except String SyncEntry :=
  if change.tombstone then .ok { change with payload := none }
  else
    match change.object.kind with
    | .other name => .error (unsupportedKind name)
    | .document | .memory =>
        .ok { change with payload := (s.row change.object).map ObjectRow.payload }

/-- `sync_export_entries`. -/
def syncExportEntries (s : Store) (peer : String) (limit : ℕ) :
    Except String (List SyncEntry × ℤ) := do
  let watermark := s.watermarks.acked peer
  let entries ← ((s.journal.after watermark).take limit).mapM s.exportEntry
  return (entries, ((entries.getLast?).map fun e ↦ e.journalId).getD watermark)

/-- `sync_imported_watermark`. -/
def syncImportedWatermark (s : Store) (peer : String) : ℤ := s.watermarks.imported peer

/-- `sync_acknowledge_peer`. -/
def syncAcknowledgePeer (s : Store) (peer : String) (ack : ℤ) : Store :=
  { s with watermarks := s.watermarks.acknowledge peer ack }

/-- `sync_compact`. -/
def syncCompact (s : Store) : Store :=
  { s with journal := s.journal.compact s.watermarks.minAcked }

/-! ## Import -/

/-- `require_payload`. -/
def requirePayload (entry : SyncEntry) : Except String Payload :=
  match entry.payload with
  | some payload => .ok payload
  | none => .error ("bundle entry " ++ entry.object.kind.asStr ++ ":" ++ entry.object.id ++
      " is missing its payload")

/-- `apply_payload`: write the row of a payload and drop what was derived from
the old one.  The row takes its columns from the payload, and the index what
`as_str` reads there. -/
def applyPayload (s : Store) (kind : ObjectKind) (payload : Payload) : Except String Store :=
  match kind, payload.row with
  | .document, .document row =>
      if documentClash s.documents row then .error documentClashError
      else
        let s := { s with documents := s.documents.put row }
        let objectId := asStrOrDefault payload.strings.id row.id
        .ok ((s.deleteChunksFts objectId).deleteChunks objectId)
  | .memory, .memory row =>
      if memoryClash s.memories row then .error memoryClashError
      else
        let s := { s with memories := s.memories.put row }
        .ok (s.replaceMemoryFts (asStrOrDefault payload.strings.id row.id)
          (asStrOrDefault payload.strings.title row.title)
          (asStrOrDefault payload.strings.content row.content))
  | .other name, _ => .error (unsupportedKind name)
  | _, _ => .error "NOT NULL constraint failed"

/-- Journal a change that was made elsewhere, under the next local revision. -/
def journalReceived (s : Store) (entry : SyncEntry) (fingerprint : String) (tombstone : Bool) :
    Store :=
  { s with journal :=
      s.journal.append entry.object entry.origin fingerprint tombstone entry.changedAt }

/-- The deletions of a tombstone: rows of either table with its id. -/
def deleteObject (s : Store) (id : String) : Store :=
  let s := ((s.deleteChunksFts id).deleteChunks id).deleteMemoryFts id
  let s := s.deleteDocument id
  { s with memories := s.memories.erase id }

/-- `apply_incoming`. -/
def applyIncoming (s : Store) (entry : SyncEntry) : Except String Store :=
  if entry.tombstone then
    .ok ((s.deleteObject entry.object.id).journalReceived entry "deleted" true)
  else do
    let payload ← requirePayload entry
    let s ← s.applyPayload entry.object.kind payload
    return s.journalReceived entry entry.fingerprint false

/-- `record_conflict`; the column of the payload is `NOT NULL`. -/
def recordConflict (s : Store) (entry : SyncEntry) (latest : JournalRow) (resolution : String)
    (now : String) : Except String Store :=
  match entry.payload with
  | none => .error "NOT NULL constraint failed: sync_conflicts.payload_json"
  | some payload =>
      let id := s.conflictSequence + 1
      .ok { s with
        conflicts := s.conflicts ++ [⟨id, entry.object, latest.revision, entry.revision,
          latest.origin, entry.origin, resolution, payload, now, none⟩]
        conflictSequence := id }

/-- One entry of `sync_import_entries`. -/
def importEntry (now : String) (state : Store × ApplyReport) (entry : SyncEntry) :
    Except String (Store × ApplyReport) :=
  let (s, report) := state
  match s.journal.latest entry.object with
  | none =>
      -- Unknown object here: apply unless the entry is a tombstone.
      if entry.tombstone then .ok (s, { report with acknowledged := report.acknowledged + 1 })
      else do
        let payload ← requirePayload entry
        let s ← s.applyPayload entry.object.kind payload
        return (s.journalReceived entry entry.fingerprint false,
          { report with applied := report.applied + 1 })
  | some latest =>
      if latest.fingerprint = entry.fingerprint then
        .ok (s, { report with acknowledged := report.acknowledged + 1 })
      else if latest.OwnLive s.selfDevice then
        -- Concurrent edit: the later change wins, ties go to the larger device.
        if entry.toChange.Newer latest then do
          let s ← s.recordConflict entry latest "remote-wins-by-recency" now
          let s ← s.applyIncoming entry
          return (s, { report with
            conflictsResolvedRemote := report.conflictsResolvedRemote + 1
            applied := report.applied + 1 })
        else do
          let s ← s.recordConflict entry latest "local-wins-by-recency-remote-preserved" now
          return (s, { report with
            conflictsRecordedLocal := report.conflictsRecordedLocal + 1 })
      else do
        -- Plain catch-up: the local copy has not diverged.
        let s ← s.applyIncoming entry
        return (s, if entry.tombstone then
            { report with tombstonesApplied := report.tombstonesApplied + 1 }
          else { report with applied := report.applied + 1 })

/-- `sync_import_entries`: the whole bundle in one transaction, then a
compaction. -/
def syncImportEntries (s : Store) (peer : String) (entries : List SyncEntry) (upTo : ℤ)
    (now : String) : Except String (Store × ApplyReport) := do
  let (s, report) ← entries.foldlM (importEntry now) (s, .start entries.length upTo)
  let s := { s with watermarks := s.watermarks.markImported peer upTo }
  return (s.syncCompact, report)

/-! ## Conflicts -/

/-- `sync_resolve_conflict`. -/
def syncResolveConflict (codec : Codec) (s : Store) (conflictId : ℤ) (acceptRemote : Bool)
    (now changedAt : String) : Except String Store :=
  match s.conflicts.find? fun c ↦ c.conflictId = conflictId ∧ c.resolvedAt = none with
  | none => .error "unknown or already-resolved conflict"
  | some conflict => do
      let s ← if acceptRemote then do
          let s ← s.applyPayload conflict.object.kind conflict.payload
          s.journalInTransaction codec conflict.object changedAt
        else pure s
      return { s with conflicts := s.conflicts.map fun c ↦
        if c.conflictId = conflictId then { c with resolvedAt := some now } else c }

end Store

end Cortana
