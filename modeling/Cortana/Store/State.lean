import Cortana.Chunking.Model
import Cortana.Embed.Model
import Cortana.Store.Rows

/-!
# The store

The tables of `store.rs` that documents, memories and their synchronisation
live in, with the rows of `meta` they use.  A transaction is a function to
`Except`: one that fails leaves the store as it was.
-/

namespace Cortana

open Replication

/-! ## Derived rows -/

/-- A row of `chunks`.  The legacy policy leaves the lineage columns empty. -/
structure ChunkRow where
  id : String
  documentId : String
  ordinal : ℕ
  content : String
  embedding : Option Embedding
  chunkKey : Option String
  strategy : Option String
  parentKey : Option String
  previousKey : Option String
  nextKey : Option String
  startByte : Option ℕ
  endByte : Option ℕ
  policyVersion : Option String
deriving DecidableEq

/-- A row of `code_indexes`. -/
structure CodeIndexRow where
  documentId : String
  outputJson : String
deriving DecidableEq

/-- A row of `embedding_rebuild`. -/
structure StagedVector where
  chunkId : String
  embedding : Embedding
deriving DecidableEq

/-- A row of the full-text table `chunks_fts`. -/
structure ChunkFts where
  chunkId : String
  title : String
  content : String
deriving DecidableEq

/-- A row of the full-text table `memories_fts`. -/
structure MemoryFts where
  memoryId : String
  title : String
  content : String
deriving DecidableEq

/-! ## Synchronisation rows -/

/-- A row of `sync_journal`. -/
abbrev JournalRow := Change ObjectKey String String String

/-- `SyncEntry`. -/
abbrev SyncEntry := Entry ObjectKey String String String Payload

/-- The entry with the row that its payload is stored as. -/
def SyncEntry.stored (entry : SyncEntry) : Entry ObjectKey String String String ObjectRow :=
  entry.map Payload.row

@[simp] theorem SyncEntry.toChange_stored (entry : SyncEntry) :
    entry.stored.toChange = entry.toChange := rfl

@[simp] theorem SyncEntry.payload_stored (entry : SyncEntry) :
    entry.stored.payload = entry.payload.map Payload.row := rfl

/-- A row of `sync_conflicts`. -/
structure ConflictRow where
  conflictId : ℤ
  object : ObjectKey
  localRevision : ℤ
  remoteRevision : ℤ
  localOrigin : String
  remoteOrigin : String
  resolution : String
  payload : Payload
  createdAt : String
  resolvedAt : Option String
deriving DecidableEq

/-! ## The store -/

/-- The tables, the sequence of `sync_conflicts`, and the rows of `meta`:
`sync.self_device`, the two revisions, the embedding generation and the
tenant's quota. -/
structure Store where
  selfDevice : Option String
  documents : Table DocumentRow.id
  chunks : Table ChunkRow.id
  chunksFts : List ChunkFts
  codeIndexes : Table CodeIndexRow.documentId
  memories : Table MemoryRow.id
  memoriesFts : List MemoryFts
  journal : Journal ObjectKey String String String
  watermarks : Watermarks String
  conflicts : List ConflictRow
  conflictSequence : ℤ
  corpusRevision : ℕ
  memoryRevision : ℕ
  embeddingFingerprint : Option String
  embeddingRebuild : Option (Table StagedVector.chunkId)
  maxDocuments : Option ℕ
  storageQuotaBytes : Option ℕ
  bytesUsed : Option ℕ
  memoryMaxActive : ℕ

namespace Store

/-- A new store that operates as the given device. -/
def adopted (device : Option String) : Store where
  selfDevice := device
  documents := Table.empty _
  chunks := Table.empty _
  chunksFts := []
  codeIndexes := Table.empty _
  memories := Table.empty _
  memoriesFts := []
  journal := Journal.empty
  watermarks := Table.empty _
  conflicts := []
  conflictSequence := 0
  corpusRevision := 0
  memoryRevision := 0
  embeddingFingerprint := none
  embeddingRebuild := none
  maxDocuments := none
  storageQuotaBytes := none
  bytesUsed := none
  memoryMaxActive := 100000

/-- The live row of an object. -/
def row (s : Store) (key : ObjectKey) : Option ObjectRow :=
  match key.kind with
  | .document => (s.documents.get key.id).map .document
  | .memory => (s.memories.get key.id).map .memory
  | .other _ => none

def bumpCorpusRevision (s : Store) : Store := { s with corpusRevision := s.corpusRevision + 1 }

def bumpMemoryRevision (s : Store) : Store := { s with memoryRevision := s.memoryRevision + 1 }

/-- The error of `columns_for_kind`. -/
def unsupportedKind (name : String) : String := "unsupported sync object kind " ++ name

/-- The journal after `journal_in_transaction` has looked at an object. -/
def journaled (codec : Codec) (s : Store) (key : ObjectKey) (now : String) : Store :=
  { s with
    journal := s.journal.record s.selfDevice key (codec.digest.state (s.row key)) now }

/-- `journal_in_transaction`. -/
def journalInTransaction (codec : Codec) (s : Store) (key : ObjectKey) (now : String) :
    Except String Store :=
  match s.selfDevice, key.kind with
  | some _, .other name => .error (unsupportedKind name)
  | _, _ => .ok (s.journaled codec key now)

theorem journalInTransaction_document (codec : Codec) (s : Store) (id now : String) :
    s.journalInTransaction codec ⟨.document, id⟩ now = .ok (s.journaled codec ⟨.document, id⟩ now) := by
  rw [journalInTransaction]
  cases s.selfDevice <;> rfl

theorem journalInTransaction_memory (codec : Codec) (s : Store) (id now : String) :
    s.journalInTransaction codec ⟨.memory, id⟩ now = .ok (s.journaled codec ⟨.memory, id⟩ now) := by
  rw [journalInTransaction]
  cases s.selfDevice <;> rfl

/-! ## The replica behind a store -/

/-- What the synchronisation of a store depends on. -/
def replica (s : Store) : Replica ObjectKey String String String ObjectRow where
  self := s.selfDevice
  row := s.row
  journal := s.journal
  watermarks := s.watermarks
  conflicts := s.conflicts.map fun c ↦ (c.object, c.payload.row)

@[simp] theorem self_replica (s : Store) : s.replica.self = s.selfDevice := rfl

@[simp] theorem row_replica (s : Store) : s.replica.row = s.row := rfl

@[simp] theorem journal_replica (s : Store) : s.replica.journal = s.journal := rfl

@[simp] theorem watermarks_replica (s : Store) : s.replica.watermarks = s.watermarks := rfl

end Store

end Cortana
