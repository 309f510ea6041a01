import Cortana.Store.State

/-!
# Document operations

`upsert`, `upsert_structured`, `insert_evaluation_corpus`, `refresh_timestamp`,
`reconcile`, `backfill_project_acls` and the embedding rebuild of `store.rs`.
-/

namespace Cortana

open Replication

/-! ## Identity and content of a document -/

/-- `stable_id`. -/
def stableId (codec : Codec) (source sourceId : String) : String :=
  codec.sha256 (source.toList ++ '\x00' :: sourceId.toList)

/-- Remove a member of an object. -/
def Value.remove (value : Value) (key : String) : Value :=
  match value with
  | .object members => .object (members.filter fun m ↦ m.1 != key)
  | other => other

/-- The metadata without `code.observed_at`. -/
def Document.hashedMetadata (document : Document) : Value :=
  match document.metadata with
  | .object members =>
      .object (members.map fun m ↦ if m.1 = "code" then (m.1, m.2.remove "observed_at") else m)
  | other => other

def Document.aclValue (document : Document) : Value := .array (document.acl.map .string)

/-- `document_hash`. -/
def documentHash (codec : Codec) (document : Document) : String :=
  codec.sha256 (codec.jsonText (.object [
    ("title", .string document.title),
    ("content", .string document.content),
    ("uri", nullableText document.uri),
    ("project", .string document.project),
    ("acl", document.aclValue),
    ("metadata", document.hashedMetadata)])).toList

/-- The row an upsert writes. -/
def documentRow (codec : Codec) (document : Document) : DocumentRow where
  id := stableId codec document.source document.sourceId
  source := document.source
  sourceId := document.sourceId
  title := document.title
  uri := document.uri
  contentHash := documentHash codec document
  updatedAt := document.updatedAt
  project := document.project
  aclJson := codec.jsonText document.aclValue
  metadataJson := codec.jsonText document.metadata
  content := document.content

/-- `code_index_current`. -/
def codeIndexCurrent (codec : Codec) (document : Document) (outputJson : Option String) : Bool :=
  if document.metadata.containsKey "code" then outputJson.any (codec.outputCurrent document)
  else outputJson.isNone

/-- `length` of SQLite: the characters before the first NUL. -/
def sqlLength (text : String) : ℕ := (text.toList.takeWhile (· ≠ '\x00')).length

namespace Store

/-! ## Parts of a transaction -/

/-- `enforce_tenant_quota`. -/
def enforceTenantQuota (s : Store) (documentId : String) (incomingBytes : ℕ) :
    Except String Store :=
  match s.maxDocuments with
  | none => .ok s
  | some maxDocuments =>
      let count := s.documents.rows.length
      if (s.documents.get documentId).isNone ∧ maxDocuments ≤ count then
        .error s!"tenant document quota exceeded: {count} of {maxDocuments} documents"
      else
        match s.storageQuotaBytes with
        | none => .ok s
        | some storageQuota =>
            let oldBytes := ((s.documents.get documentId).map fun r ↦ sqlLength r.content).getD 0
            let newUsed := min (s.bytesUsed.getD 0 + incomingBytes) (2 ^ 64 - 1) - oldBytes
            if storageQuota < newUsed then
              .error s!"tenant storage quota exceeded: {newUsed} of {storageQuota} bytes"
            else .ok { s with bytesUsed := some newUsed }

/-- `release_tenant_bytes`. -/
def releaseTenantBytes (s : Store) (documentId : String) : Store :=
  match s.maxDocuments with
  | none => s
  | some _ =>
      let freed := ((s.documents.get documentId).map fun r ↦ sqlLength r.content).getD 0
      { s with bytesUsed := some (s.bytesUsed.getD 0 - freed) }

/-- `DELETE FROM chunks_fts` for the chunks of a document. -/
def deleteChunksFts (s : Store) (documentId : String) : Store :=
  { s with chunksFts := s.chunksFts.filter fun f ↦
      !s.chunks.rows.any fun c ↦ c.id = f.chunkId ∧ c.documentId = documentId }

def deleteChunks (s : Store) (documentId : String) : Store :=
  { s with chunks := s.chunks.keep fun c ↦ c.documentId != documentId }

/-- `DELETE FROM documents`, with the rows that refer to it. -/
def deleteDocument (s : Store) (id : String) : Store :=
  { s with
    documents := s.documents.erase id
    chunks := s.chunks.keep fun c ↦ c.documentId != id
    codeIndexes := s.codeIndexes.erase id }

/-- Another row has the source and the source id of this one. -/
def documentClash (t : Table DocumentRow.id) (row : DocumentRow) : Bool :=
  t.rows.any fun r ↦ r.id ≠ row.id ∧ r.source = row.source ∧ r.sourceId = row.sourceId

def documentClashError : String := "UNIQUE constraint failed: documents.source, documents.source_id"

/-- The row an upsert leaves: the source of a stored row stays. -/
def mergedDocument (t : Table DocumentRow.id) (row : DocumentRow) : DocumentRow :=
  match t.get row.id with
  | none => row
  | some old => { row with source := old.source, sourceId := old.sourceId }

/-- `INSERT … ON CONFLICT(id) DO UPDATE` of `upsert`. -/
def upsertDocumentRow (s : Store) (row : DocumentRow) : Except String Store :=
  if documentClash s.documents row then .error documentClashError
  else .ok { s with documents := s.documents.put (mergedDocument s.documents row) }

/-- Insert a chunk and its full-text row. -/
def insertChunk (title : String) (s : Store) (chunk : ChunkRow) : Except String Store :=
  if (s.chunks.get chunk.id).isSome then .error "UNIQUE constraint failed: chunks.id"
  else .ok { s with
    chunks := s.chunks.put chunk
    chunksFts := s.chunksFts ++ [⟨chunk.id, title, chunk.content⟩] }

def insertChunks (s : Store) (title : String) (chunks : List ChunkRow) : Except String Store :=
  chunks.foldlM (insertChunk title) s

/-- `replace_code_index`. -/
def replaceCodeIndex (codec : Codec) (s : Store) (documentId : String) (document : Document) :
    Store :=
  if document.metadata.containsKey "code" then
    { s with codeIndexes :=
        (s.codeIndexes.erase documentId).put ⟨documentId, codec.parseOutput document⟩ }
  else { s with codeIndexes := s.codeIndexes.erase documentId }

/-- The first chunk of a document by its ordinal. -/
def firstChunk (s : Store) (documentId : String) : Option ChunkRow :=
  (s.chunks.rows.filter fun c ↦ c.documentId = documentId).foldl
    (fun best c ↦ match best with
      | none => some c
      | some b => if c.ordinal < b.ordinal then some c else some b) none

/-- The stored row has the hash and the code index of the document. -/
def unchanged (codec : Codec) (s : Store) (document : Document) : Bool :=
  let id := stableId codec document.source document.sourceId
  (s.documents.get id).any fun previous ↦
    previous.contentHash = documentHash codec document ∧ 0 < sqlLength previous.content ∧
      codeIndexCurrent codec document ((s.codeIndexes.get id).map CodeIndexRow.outputJson)

/-- The writes that `upsert` and `upsert_structured` share. -/
def writeDocument (codec : Codec) (s : Store) (document : Document) (chunks : List ChunkRow)
    (now : String) : Except String Store := do
  let id := stableId codec document.source document.sourceId
  let s ← s.enforceTenantQuota id document.content.utf8ByteSize
  let s := (s.deleteChunksFts id).deleteChunks id
  let s ← s.upsertDocumentRow (documentRow codec document)
  let s ← s.insertChunks document.title chunks
  let s ← (s.replaceCodeIndex codec id document).journalInTransaction codec ⟨.document, id⟩ now
  return s.bumpCorpusRevision

/-! ## Public operations -/

/-- The chunk rows of `upsert`: `{id}:{ordinal}`. -/
def legacyChunkRows (id : String) (chunks : List (String × Embedding)) : List ChunkRow :=
  chunks.zipIdx.map fun c ↦
    ⟨id ++ ":" ++ toString c.2, id, c.2, c.1.1, some c.1.2, none, none, none, none, none, none,
      none, none⟩

/-- `upsert`; the flag says whether the document was written. -/
def upsert (codec : Codec) (s : Store) (document : Document) (chunks : List (String × Embedding))
    (now : String) : Except String (Store × Bool) :=
  if s.unchanged codec document then .ok (s, false)
  else
    (s.writeDocument codec document
      (legacyChunkRows (stableId codec document.source document.sourceId) chunks) now).map (·, true)

/-- The chunk rows of `upsert_structured`: `{id}:{key}`. -/
def structuredChunkRows (id : String) (chunks : List (ChunkSpec × Embedding)) : List ChunkRow :=
  chunks.map fun (spec, embedding) ↦
    ⟨id ++ ":" ++ spec.key, id, spec.ordinal, String.ofList spec.content, some embedding,
      some spec.key, some spec.strategy.asStr, some spec.parentKey, spec.previousKey,
      spec.nextKey, some spec.startByte, some spec.endByte, some spec.policyVersion⟩

/-- `upsert_structured`: an unchanged document is rewritten once when its
chunks were made under another policy. -/
def upsertStructured (codec : Codec) (s : Store) (document : Document)
    (chunks : List (ChunkSpec × Embedding)) (now : String) : Except String (Store × Bool) :=
  let id := stableId codec document.source document.sourceId
  if s.unchanged codec document ∧
      ((s.firstChunk id).bind ChunkRow.policyVersion) = some chunkingContractVersion then
    .ok (s, false)
  else (s.writeDocument codec document (structuredChunkRows id chunks) now).map (·, true)

/-- One document of `insert_evaluation_corpus`, which neither replaces rows
nor journals them. -/
def insertEvaluationDocument (codec : Codec) (embedding : Embedding) (s : Store)
    (document : Document) : Except String Store := do
  let row := documentRow codec document
  if (s.documents.get row.id).isSome then .error "UNIQUE constraint failed: documents.id"
  else
    let s ← s.upsertDocumentRow row
    let s ← s.insertChunk document.title ⟨row.id ++ ":0", row.id, 0, document.content,
      some embedding, none, none, none, none, none, none, none, none⟩
    return (s.replaceCodeIndex codec row.id document).bumpCorpusRevision

/-- `insert_evaluation_corpus`. -/
def insertEvaluationCorpus (codec : Codec) (s : Store) (documents : List Document)
    (embedding : Embedding) : Except String Store :=
  if embedding = [] then .error "evaluation embedding is empty"
  else documents.foldlM (insertEvaluationDocument codec embedding) s

/-- `refresh_timestamp`. -/
def refreshTimestamp (codec : Codec) (s : Store) (document : Document) : Store :=
  let id := stableId codec document.source document.sourceId
  match s.documents.get id with
  | none => s
  | some row =>
      if row.updatedAt = document.updatedAt then s
      else bumpCorpusRevision
        { s with documents := s.documents.put { row with updatedAt := document.updatedAt } }

/-- The ids of the documents of a source and project that were not seen. -/
def staleDocuments (s : Store) (source project : String) (seenSourceIds : List String) :
    List String :=
  (s.documents.rows.filter fun d ↦
    d.source = source ∧ d.project = project ∧ d.sourceId ∉ seenSourceIds).map DocumentRow.id

/-- One deletion of `reconcile`. -/
def removeStale (codec : Codec) (now : String → String) (s : Store) (id : String) :
    Except String Store :=
  let s := ((s.deleteChunksFts id).releaseTenantBytes id).deleteDocument id
  s.journalInTransaction codec ⟨.document, id⟩ (now id)

/-- `reconcile`; the clock is read once for each document. -/
def reconcile (codec : Codec) (s : Store) (source project : String) (seenSourceIds : List String)
    (now : String → String) : Except String (Store × ℕ) := do
  let stale := s.staleDocuments source project seenSourceIds
  let s ← stale.foldlM (removeStale codec now) s
  return (if stale = [] then s else s.bumpCorpusRevision, stale.length)

/-- A document of the project that has no ACL yet. -/
def lacksAcl (project : String) (d : DocumentRow) : Bool := d.project = project ∧ d.aclJson = "[]"

/-- `SET acl_json=?2 WHERE project=?1 AND acl_json='[]'`. -/
def setAcl (project aclJson : String) (d : DocumentRow) : DocumentRow :=
  if lacksAcl project d then { d with aclJson := aclJson } else d

theorem id_setAcl (project aclJson : String) (d : DocumentRow) :
    (setAcl project aclJson d).id = d.id := by
  rw [setAcl]
  split <;> rfl

/-- One mapping of `backfill_project_acls`, with the number of rows changed. -/
def backfillProjectAcl (codec : Codec) (s : Store × ℕ) (mapping : String × List String) :
    Except String (Store × ℕ) :=
  if mapping.2 = [] then .error "ACL labels must not be empty"
  else
    let aclJson := codec.jsonText (.array (mapping.2.map .string))
    let documents := s.1.documents.modify (setAcl mapping.1 aclJson) (id_setAcl mapping.1 aclJson)
    .ok ({ s.1 with documents := documents },
      s.2 + (s.1.documents.rows.filter (lacksAcl mapping.1)).length)

/-- `backfill_project_acls`. -/
def backfillProjectAcls (codec : Codec) (s : Store) (mappings : List (String × List String)) :
    Except String (Store × ℕ) := do
  let (s, changed) ← mappings.foldlM (backfillProjectAcl codec) (s, 0)
  return (if 0 < changed then s.bumpCorpusRevision else s, changed)

/-! ## Embedding rebuild -/

/-- `begin_embedding_rebuild`. -/
def beginEmbeddingRebuild (s : Store) (oldGeneration newGeneration : String) :
    Except String (Store × ℕ) :=
  if ByteText.trimStart oldGeneration.toList = [] then
    .error "source embedding fingerprint is empty"
  else if ByteText.trimStart newGeneration.toList = [] then
    .error "target embedding fingerprint is empty"
  else if oldGeneration = newGeneration then
    .error "source and target embedding generations are identical"
  else
    match s.embeddingFingerprint with
    | none =>
        .error
          "the index has no embedding generation; initialize it with the configured provider first"
    | some current =>
        if current = oldGeneration then
          .ok ({ s with embeddingRebuild := some (Table.empty _) }, s.chunks.rows.length)
        else
          .error ("embedding generation changed while preparing rebuild (expected: " ++
            oldGeneration ++ "; actual: " ++ current ++ ")")

/-- One vector of `stage_embedding_rebuild`. -/
def stageVector (s : Store) (staged : Table StagedVector.chunkId) (vector : StagedVector) :
    Except String (Table StagedVector.chunkId) :=
  if vector.embedding = [] then .error "embedding rebuild produced an empty vector"
  else if (s.chunks.get vector.chunkId).isNone then
    .error "embedding rebuild referenced an unknown chunk"
  else .ok (staged.put vector)

/-- `stage_embedding_rebuild`. -/
def stageEmbeddingRebuild (s : Store) (vectors : List StagedVector) : Except String Store :=
  match s.embeddingRebuild with
  | none =>
      match vectors with
      | [] => .ok s
      | vector :: _ =>
          (s.stageVector (Table.empty _) vector).bind fun _ ↦
            .error "no such table: embedding_rebuild"
  | some staged =>
      (vectors.foldlM (s.stageVector) staged).map fun staged ↦
        { s with embeddingRebuild := some staged }

/-- `commit_embedding_rebuild`: the staged vectors replace those of all chunks
at once. -/
def commitEmbeddingRebuild (s : Store) (oldGeneration newGeneration : String) :
    Except String (Store × ℕ) :=
  if s.embeddingFingerprint = some oldGeneration then
    match s.embeddingRebuild with
    | none => .error "no such table: embedding_rebuild"
    | some stagedVectors =>
        let total := s.chunks.rows.length
        let staged := stagedVectors.rows.length
        if staged = total then
          .ok (bumpCorpusRevision { s with
            chunks := s.chunks.modify (fun c ↦
              { c with embedding := (stagedVectors.get c.id).map StagedVector.embedding })
              (fun _ ↦ rfl)
            embeddingFingerprint := some newGeneration
            embeddingRebuild := none }, total)
        else
          .error s!"embedding rebuild is incomplete: staged {staged} of {total} chunks"
  else .error "embedding generation changed while committing rebuild"

end Store

end Cortana
