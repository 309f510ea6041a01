import Cortana.Core.Loops
import Cortana.Store.Documents
import Cortana.Store.Memories

/-!
# What the operations write

For each operation the store it leaves behind, as the old store with the
tables it writes replaced.  Everything that is not named is unchanged, so the
invariants below need not look into the operations again.
-/

namespace Cortana

open Replication

namespace Store

variable {codec : Codec} {s t : Store}

/-! ## Live rows -/

theorem row_document (s : Store) (id : String) :
    s.row ⟨.document, id⟩ = (s.documents.get id).map .document := rfl

theorem row_memory (s : Store) (id : String) :
    s.row ⟨.memory, id⟩ = (s.memories.get id).map .memory := rfl

theorem row_other (s : Store) (name id : String) : s.row ⟨.other name, id⟩ = none := rfl

theorem row_put_document {r : DocumentRow} (hdocuments : t.documents = s.documents.put r)
    (hmemories : t.memories = s.memories) :
    t.row = Function.update s.row ⟨.document, r.id⟩ (some (.document r)) := by
  funext ⟨kind, id⟩
  cases kind with
  | document =>
      rw [row_document, hdocuments, Table.get_put]
      by_cases hid : id = r.id
      · simp [hid]
      · rw [Function.update_of_ne (by simpa using hid), if_neg hid, row_document]
  | memory => rw [row_memory, hmemories, Function.update_of_ne (by simp), row_memory]
  | other name => rw [Function.update_of_ne (by simp), row_other, row_other]

theorem row_put_memory {r : MemoryRow} (hdocuments : t.documents = s.documents)
    (hmemories : t.memories = s.memories.put r) :
    t.row = Function.update s.row ⟨.memory, r.id⟩ (some (.memory r)) := by
  funext ⟨kind, id⟩
  cases kind with
  | document => rw [row_document, hdocuments, Function.update_of_ne (by simp), row_document]
  | memory =>
      rw [row_memory, hmemories, Table.get_put]
      by_cases hid : id = r.id
      · simp [hid]
      · rw [Function.update_of_ne (by simpa using hid), if_neg hid, row_memory]
  | other name => rw [Function.update_of_ne (by simp), row_other, row_other]

theorem row_erase_document {id : String} (hdocuments : t.documents = s.documents.erase id)
    (hmemories : t.memories = s.memories) :
    t.row = Function.update s.row ⟨.document, id⟩ none := by
  funext ⟨kind, id'⟩
  cases kind with
  | document =>
      rw [row_document, hdocuments, Table.get_erase]
      by_cases hid : id' = id
      · simp [hid]
      · rw [Function.update_of_ne (by simpa using hid), if_neg hid, row_document]
  | memory => rw [row_memory, hmemories, Function.update_of_ne (by simp), row_memory]
  | other name => rw [Function.update_of_ne (by simp), row_other, row_other]

/-! ## Writing a document -/

theorem enforceTenantQuota_eq_ok {id : String} {bytes : ℕ}
    (h : s.enforceTenantQuota id bytes = .ok t) : ∃ used, t = { s with bytesUsed := used } := by
  rw [enforceTenantQuota] at h
  split at h
  · obtain rfl : s = t := by simpa using h
    exact ⟨s.bytesUsed, rfl⟩
  · dsimp only at h
    split at h
    · cases h
    · split at h
      · obtain rfl : s = t := by simpa using h
        exact ⟨s.bytesUsed, rfl⟩
      · split at h
        · cases h
        · exact ⟨_, (Except.ok.inj h).symm⟩

theorem upsertDocumentRow_eq_ok {row : DocumentRow} (h : s.upsertDocumentRow row = .ok t) :
    documentClash s.documents row = false ∧
      t = { s with documents := s.documents.put (mergedDocument s.documents row) } := by
  rw [upsertDocumentRow] at h
  split at h
  · cases h
  · rename_i hclash
    exact ⟨by simpa using hclash, (Except.ok.inj h).symm⟩

theorem insertChunk_eq_ok {title : String} {chunk : ChunkRow}
    (h : s.insertChunk title chunk = .ok t) :
    s.chunks.get chunk.id = none ∧
      t = { s with
        chunks := s.chunks.put chunk
        chunksFts := s.chunksFts ++ [⟨chunk.id, title, chunk.content⟩] } := by
  rw [insertChunk] at h
  split at h
  · cases h
  · rename_i hfree
    exact ⟨by simpa using hfree, (Except.ok.inj h).symm⟩

theorem insertChunks_eq_ok {title : String} {chunks : List ChunkRow}
    (h : s.insertChunks title chunks = .ok t) :
    ∃ chunks chunksFts, t = { s with chunks := chunks, chunksFts := chunksFts } := by
  refine List.foldlM_relates (R := fun s t : Store ↦
    ∃ chunks chunksFts, t = { s with chunks := chunks, chunksFts := chunksFts })
    (fun s ↦ ⟨_, _, rfl⟩) ?_ ?_ h
  · rintro s - - ⟨c, f, rfl⟩ ⟨c', f', rfl⟩
    exact ⟨c', f', rfl⟩
  · intro chunk _ s t hchunk
    exact ⟨_, _, (insertChunk_eq_ok hchunk).2⟩

theorem replaceCodeIndex_eq (codec : Codec) (s : Store) (id : String) (document : Document) :
    ∃ codeIndexes, s.replaceCodeIndex codec id document = { s with codeIndexes := codeIndexes } := by
  rw [replaceCodeIndex]
  split
  · exact ⟨_, rfl⟩
  · exact ⟨_, rfl⟩

/-- The row of the document after it has been written. -/
def writtenDocument (codec : Codec) (s : Store) (document : Document) : DocumentRow :=
  mergedDocument s.documents (documentRow codec document)

theorem id_mergedDocument (t : Table DocumentRow.id) (row : DocumentRow) :
    (mergedDocument t row).id = row.id := by
  rw [mergedDocument]
  split <;> rfl

/-- The steps of the transaction that writes a document. -/
theorem writeDocument_cases {document : Document} {chunks : List ChunkRow} {now : String}
    (h : s.writeDocument codec document chunks now = .ok t) :
    ∃ used u, s.enforceTenantQuota (stableId codec document.source document.sourceId)
        document.content.utf8ByteSize = .ok { s with bytesUsed := used } ∧
      documentClash s.documents (documentRow codec document) = false ∧
      insertChunks { (s.deleteChunksFts (documentRow codec document).id).deleteChunks
          (documentRow codec document).id with
        bytesUsed := used
        documents := s.documents.put (s.writtenDocument codec document) }
        document.title chunks = .ok u ∧
      t = ((u.replaceCodeIndex codec (stableId codec document.source document.sourceId)
        document).journaled codec ⟨.document, (documentRow codec document).id⟩
          now).bumpCorpusRevision := by
  rw [writeDocument] at h
  obtain ⟨q, hq, h⟩ := Iff.mp Except.bind_ok_iff h
  obtain ⟨used, rfl⟩ := enforceTenantQuota_eq_ok hq
  obtain ⟨v, hv, h⟩ := Iff.mp Except.bind_ok_iff h
  obtain ⟨hclash, rfl⟩ := upsertDocumentRow_eq_ok hv
  obtain ⟨u, hu, h⟩ := Iff.mp Except.bind_ok_iff h
  obtain ⟨w, hw, h⟩ := Iff.mp Except.bind_ok_iff h
  rw [journalInTransaction_document] at hw
  obtain rfl := Except.ok.inj hw
  exact ⟨used, u, hq, hclash, hu, (Iff.mp Except.pure_ok_iff h).symm⟩

/-- A document that is written: its row is put, its object is journaled and
the corpus revision moves. -/
theorem writeDocument_eq_ok {document : Document} {chunks : List ChunkRow} {now : String}
    (h : s.writeDocument codec document chunks now = .ok t) :
    ∃ used chunks chunksFts codeIndexes,
      s.enforceTenantQuota (stableId codec document.source document.sourceId)
        document.content.utf8ByteSize = .ok { s with bytesUsed := used } ∧
      t = { s with
        documents := s.documents.put (s.writtenDocument codec document)
        chunks := chunks
        chunksFts := chunksFts
        codeIndexes := codeIndexes
        bytesUsed := used
        journal := s.journal.record s.selfDevice
          ⟨.document, stableId codec document.source document.sourceId⟩
          (codec.digest.state (some (.document (s.writtenDocument codec document)))) now
        corpusRevision := s.corpusRevision + 1 } := by
  obtain ⟨used, u, hquota, -, hu, rfl⟩ := writeDocument_cases h
  obtain ⟨codeIndexes, hcode⟩ := replaceCodeIndex_eq codec u
    (stableId codec document.source document.sourceId) document
  obtain ⟨chunks, chunksFts, rfl⟩ := insertChunks_eq_ok hu
  rw [hcode, journaled]
  refine ⟨used, chunks, chunksFts, codeIndexes, hquota, ?_⟩
  have hget : (s.documents.put (s.writtenDocument codec document)).get
      (documentRow codec document).id = some (s.writtenDocument codec document) := by
    rw [← id_mergedDocument s.documents (documentRow codec document)]
    exact Table.get_put_self _ _
  rw [row_document]
  simp only [hget]
  rfl

theorem upsert_eq_ok {document : Document} {chunks : List (String × Embedding)} {now : String}
    {written : Bool} (h : s.upsert codec document chunks now = .ok (t, written)) :
    (s.unchanged codec document = true ∧ t = s ∧ written = false) ∨
      (s.unchanged codec document = false ∧ written = true ∧
        s.writeDocument codec document
          (legacyChunkRows (stableId codec document.source document.sourceId) chunks) now = .ok t) := by
  rw [upsert] at h
  split at h
  · obtain ⟨rfl, rfl⟩ := Prod.mk.inj (Except.ok.inj h)
    exact Or.inl ⟨by assumption, rfl, rfl⟩
  · rename_i hchanged
    obtain ⟨u, hu, heq⟩ := Iff.mp Except.map_ok_iff h
    obtain ⟨rfl, rfl⟩ := Prod.mk.inj heq
    exact Or.inr ⟨by simpa using hchanged, rfl, hu⟩

theorem upsertStructured_eq_ok {document : Document} {chunks : List (ChunkSpec × Embedding)}
    {now : String} {written : Bool}
    (h : s.upsertStructured codec document chunks now = .ok (t, written)) :
    ((s.unchanged codec document ∧
        (s.firstChunk (stableId codec document.source document.sourceId)).bind
          ChunkRow.policyVersion = some chunkingContractVersion) ∧ t = s ∧ written = false) ∨
      (¬(s.unchanged codec document ∧
        (s.firstChunk (stableId codec document.source document.sourceId)).bind
          ChunkRow.policyVersion = some chunkingContractVersion) ∧ written = true ∧
        s.writeDocument codec document
        (structuredChunkRows (stableId codec document.source document.sourceId) chunks) now =
          .ok t) := by
  rw [upsertStructured] at h
  split at h
  · obtain ⟨rfl, rfl⟩ := Prod.mk.inj (Except.ok.inj h)
    exact Or.inl ⟨by assumption, rfl, rfl⟩
  · rename_i hchanged
    obtain ⟨u, hu, heq⟩ := Iff.mp Except.map_ok_iff h
    obtain ⟨rfl, rfl⟩ := Prod.mk.inj heq
    exact Or.inr ⟨hchanged, rfl, hu⟩

/-! ## Other document operations -/

theorem insertEvaluationDocument_eq_ok {document : Document} {embedding : Embedding}
    (h : insertEvaluationDocument codec embedding s document = .ok t) :
    ∃ chunks chunksFts codeIndexes, s.documents.get (documentRow codec document).id = none ∧
      t = { s with
        documents := s.documents.put (documentRow codec document)
        chunks := chunks
        chunksFts := chunksFts
        codeIndexes := codeIndexes
        corpusRevision := s.corpusRevision + 1 } := by
  rw [insertEvaluationDocument] at h
  split at h
  · cases h
  · rename_i hfree
    have hnone : s.documents.get (documentRow codec document).id = none := by simpa using hfree
    obtain ⟨u, hu, h⟩ := Iff.mp Except.bind_ok_iff h
    obtain ⟨-, rfl⟩ := upsertDocumentRow_eq_ok hu
    obtain ⟨v, hv, h⟩ := Iff.mp Except.bind_ok_iff h
    obtain ⟨-, rfl⟩ := insertChunk_eq_ok hv
    obtain rfl := Iff.mp Except.pure_ok_iff h
    obtain ⟨codeIndexes, hcode⟩ := replaceCodeIndex_eq codec _ (documentRow codec document).id
      document
    rw [hcode, mergedDocument, hnone]
    exact ⟨_, _, codeIndexes, rfl, rfl⟩

theorem refreshTimestamp_cases (codec : Codec) (s : Store) (document : Document) :
    s.refreshTimestamp codec document = s ∨
      ∃ row, s.documents.get (stableId codec document.source document.sourceId) = some row ∧
        row.updatedAt ≠ document.updatedAt ∧
        s.refreshTimestamp codec document = { s with
          documents := s.documents.put { row with updatedAt := document.updatedAt }
          corpusRevision := s.corpusRevision + 1 } := by
  rw [refreshTimestamp]
  cases hrow : s.documents.get (stableId codec document.source document.sourceId) with
  | none => exact Or.inl rfl
  | some row =>
      by_cases hsame : row.updatedAt = document.updatedAt
      · exact Or.inl (if_pos hsame)
      · exact Or.inr ⟨row, rfl, hsame, if_neg hsame⟩

theorem releaseTenantBytes_eq (s : Store) (id : String) :
    ∃ used, s.releaseTenantBytes id = { s with bytesUsed := used } := by
  rw [releaseTenantBytes]
  split
  · exact ⟨_, rfl⟩
  · exact ⟨_, rfl⟩

/-- A stale document is deleted with its chunks, and its object is journaled. -/
theorem removeStale_eq_ok {now : String → String} {id : String}
    (h : removeStale codec now s id = .ok t) :
    ∃ used, t = { s with
      documents := s.documents.erase id
      chunks := s.chunks.keep fun c ↦ c.documentId != id
      chunksFts := (s.deleteChunksFts id).chunksFts
      codeIndexes := s.codeIndexes.erase id
      bytesUsed := used
      journal := s.journal.record s.selfDevice ⟨.document, id⟩ (codec.digest.state none)
        (now id) } := by
  rw [removeStale] at h
  rw [journalInTransaction_document] at h
  obtain rfl := Except.ok.inj h
  obtain ⟨used, hused⟩ := releaseTenantBytes_eq (s.deleteChunksFts id) id
  refine ⟨used, ?_⟩
  rw [hused, journaled, row_document]
  simp only [deleteDocument, Table.get_erase, if_pos, Option.map_none]
  rfl

theorem reconcile_eq_ok {source project : String} {seen : List String} {now : String → String}
    {n : ℕ} (h : s.reconcile codec source project seen now = .ok (t, n)) :
    ∃ u, (s.staleDocuments source project seen).foldlM (removeStale codec now) s = .ok u ∧
      t = (if s.staleDocuments source project seen = [] then u else u.bumpCorpusRevision) := by
  rw [reconcile] at h
  obtain ⟨u, hu, h⟩ := Iff.mp Except.bind_ok_iff h
  exact ⟨u, hu, (Prod.mk.inj (Iff.mp Except.pure_ok_iff h)).1.symm⟩

/-- One mapping of a backfill sets the ACL of the project's documents that have
none, and counts them. -/
theorem backfillProjectAcl_eq_ok {n m : ℕ} {mapping : String × List String}
    (h : backfillProjectAcl codec (s, n) mapping = .ok (t, m)) :
    ∃ aclJson, t = { s with
        documents :=
          s.documents.modify (setAcl mapping.1 aclJson) (id_setAcl mapping.1 aclJson) } ∧
      m = n + (s.documents.rows.filter (lacksAcl mapping.1)).length := by
  rw [backfillProjectAcl] at h
  split_ifs at h
  obtain ⟨rfl, rfl⟩ := Prod.mk.inj (Except.ok.inj h)
  exact ⟨_, rfl, rfl⟩

theorem backfillProjectAcls_eq_ok {mappings : List (String × List String)} {n : ℕ}
    (h : s.backfillProjectAcls codec mappings = .ok (t, n)) :
    ∃ u, mappings.foldlM (backfillProjectAcl codec) (s, 0) = .ok (u, n) ∧
      t = (if 0 < n then u.bumpCorpusRevision else u) := by
  rw [backfillProjectAcls] at h
  obtain ⟨⟨u, changed⟩, hu, h⟩ := Iff.mp Except.bind_ok_iff h
  obtain ⟨rfl, rfl⟩ := Prod.mk.inj (Iff.mp Except.pure_ok_iff h)
  exact ⟨u, hu, rfl⟩

theorem beginEmbeddingRebuild_eq_ok {oldGeneration newGeneration : String} {n : ℕ}
    (h : s.beginEmbeddingRebuild oldGeneration newGeneration = .ok (t, n)) :
    t = { s with embeddingRebuild := some (Table.empty _) } := by
  rw [beginEmbeddingRebuild] at h
  split_ifs at h
  split at h
  · cases h
  · split_ifs at h
    exact (Prod.mk.inj (Except.ok.inj h)).1.symm

/-- A staged row was staged before or is one of the new vectors. -/
theorem stageEmbeddingRebuild_eq_ok {vectors : List StagedVector}
    (h : s.stageEmbeddingRebuild vectors = .ok t) :
    ∃ rebuild, t = { s with embeddingRebuild := rebuild } ∧
      ∀ staged' ∈ rebuild, ∀ row ∈ staged'.rows,
        row ∈ vectors ∨ ∃ staged ∈ s.embeddingRebuild, row ∈ staged.rows := by
  unfold stageEmbeddingRebuild at h
  cases hrebuild : s.embeddingRebuild with
  | none =>
      simp only [hrebuild] at h
      split at h
      · obtain rfl := Except.ok.inj h
        exact ⟨none, by rw [← hrebuild], by simp⟩
      · rename_i vector _
        cases hvector : s.stageVector (Table.empty _) vector <;>
          simp [hvector, Except.bind] at h
  | some staged =>
      simp only [hrebuild] at h
      obtain ⟨staged', hstaged, rfl⟩ := Iff.mp Except.map_ok_iff h
      refine ⟨some staged', rfl, ?_⟩
      rintro _ ⟨⟩
      refine List.foldlM_preserves (P := fun u : Table StagedVector.chunkId ↦ ∀ row ∈ u.rows,
        row ∈ vectors ∨ ∃ staged' ∈ some staged, row ∈ staged'.rows) ?_
        (fun row hrow ↦ Or.inr ⟨staged, rfl, hrow⟩) hstaged
      intro vector hvector u u' hu hstage row hrow
      rw [stageVector] at hstage
      split_ifs at hstage
      obtain rfl := Except.ok.inj hstage
      rcases Iff.mp Table.mem_put hrow with rfl | ⟨hold, -⟩
      · exact Or.inl hvector
      · exact hu row hold

theorem commitEmbeddingRebuild_eq_ok {oldGeneration newGeneration : String} {n : ℕ}
    (h : s.commitEmbeddingRebuild oldGeneration newGeneration = .ok (t, n)) :
    ∃ staged, s.embeddingRebuild = some staged ∧ staged.rows.length = s.chunks.rows.length ∧
      t = { s with
        chunks := s.chunks.modify (fun c ↦
          { c with embedding := (staged.get c.id).map StagedVector.embedding }) (fun _ ↦ rfl)
        embeddingFingerprint := some newGeneration
        embeddingRebuild := none
        corpusRevision := s.corpusRevision + 1 } := by
  rw [commitEmbeddingRebuild] at h
  split at h
  · split at h
    · cases h
    · rename_i staged hstaged
      dsimp only at h
      split at h
      · rename_i hlength
        exact ⟨staged, hstaged, hlength, (Prod.mk.inj (Except.ok.inj h)).1.symm⟩
      · cases h
  · cases h

/-! ## Writing a memory -/

theorem upsertMemoryRow_eq_ok {row : MemoryRow} (h : s.upsertMemoryRow row = .ok t) :
    memoryClash s.memories row = false ∧
      t = { s with memories := s.memories.put (mergedMemory s.memories row) } := by
  rw [upsertMemoryRow] at h
  split at h
  · cases h
  · rename_i hclash
    exact ⟨by simpa using hclash, (Except.ok.inj h).symm⟩

theorem id_mergedMemory (t : Table MemoryRow.id) (row : MemoryRow) :
    (mergedMemory t row).id = row.id := by
  rw [mergedMemory]
  split <;> rfl

theorem activeMemory_eq_some {id : String} {m : MemoryRow} :
    s.activeMemory id = some m ↔ s.memories.get id = some m ∧ m.status = "active" := by
  simp [activeMemory, Option.filter_eq_some_iff]

/-- The store after the memory to be superseded has been marked. -/
def superseded (s : Store) (call : MemoryCall) (row : MemoryRow) : Store :=
  match row.supersedesId.bind s.activeMemory with
  | none => s
  | some previous => s.supersede previous call.now

theorem superseded_cases (s : Store) (call : MemoryCall) (row : MemoryRow) :
    s.superseded call row = s ∨ ∃ previous,
      row.supersedesId.bind s.activeMemory = some previous ∧
      s.superseded call row = s.supersede previous call.now := by
  rw [superseded]
  split
  · exact Or.inl rfl
  · exact Or.inr ⟨_, by assumption, rfl⟩

/-- The steps of the writes of `remember`. -/
theorem writeMemory_cases {call : MemoryCall} {row : MemoryRow}
    (h : s.writeMemory codec call row = .ok t) :
    (∀ previousId, row.supersedesId = some previousId → (s.activeMemory previousId).isSome) ∧
      memoryClash (s.superseded call row).memories row = false ∧
      t = (({ s.superseded call row with
          memories := (s.superseded call row).memories.put
            (mergedMemory (s.superseded call row).memories row) }.replaceMemoryFts row.id row.title
              row.content).journaled codec ⟨.memory, row.id⟩ call.changedAt).bumpMemoryRevision := by
  have hwrite : ∀ u : Store, (do
      let s ← u.upsertMemoryRow row
      let s := s.replaceMemoryFts row.id row.title row.content
      let s ← s.journalInTransaction codec ⟨.memory, row.id⟩ call.changedAt
      return s.bumpMemoryRevision) = Except.ok t →
      memoryClash u.memories row = false ∧
        t = (({ u with memories := u.memories.put (mergedMemory u.memories row) }.replaceMemoryFts
          row.id row.title row.content).journaled codec ⟨.memory, row.id⟩
            call.changedAt).bumpMemoryRevision := by
    intro u h
    obtain ⟨v, hv, h⟩ := Iff.mp Except.bind_ok_iff h
    obtain ⟨hclash, rfl⟩ := upsertMemoryRow_eq_ok hv
    obtain ⟨w, hw, h⟩ := Iff.mp Except.bind_ok_iff h
    rw [journalInTransaction_memory] at hw
    obtain rfl := Except.ok.inj hw
    exact ⟨hclash, (Iff.mp Except.pure_ok_iff h).symm⟩
  rw [writeMemory] at h
  rw [superseded]
  cases hid : row.supersedesId with
  | none =>
      simp only [hid] at h
      exact ⟨by simp, hwrite s h⟩
  | some previousId =>
      cases hprevious : s.activeMemory previousId with
      | none => simp [hid, hprevious, bind, Except.bind] at h
      | some previous =>
          simp only [hid, hprevious] at h
          refine ⟨?_, by simpa [hprevious] using hwrite (s.supersede previous call.now) h⟩
          rintro _ ⟨⟩
          simp [hprevious]

/-- A memory that is written: the one it supersedes is marked without being
journaled, its own row is put and journaled, and the memory revision moves. -/
theorem writeMemory_eq_ok {call : MemoryCall} {row : MemoryRow}
    (h : s.writeMemory codec call row = .ok t) :
    ∃ memoriesFts,
      t = { s.superseded call row with
        memories := (s.superseded call row).memories.put
          (mergedMemory (s.superseded call row).memories row)
        memoriesFts := memoriesFts
        journal := s.journal.record s.selfDevice ⟨.memory, row.id⟩
          (codec.digest.state (some (.memory
            (mergedMemory (s.superseded call row).memories row)))) call.changedAt
        memoryRevision := s.memoryRevision + 1 } := by
  obtain ⟨-, -, rfl⟩ := writeMemory_cases h
  have hget : ((s.superseded call row).memories.put
      (mergedMemory (s.superseded call row).memories row)).get row.id =
        some (mergedMemory (s.superseded call row).memories row) := by
    rw [← id_mergedMemory (s.superseded call row).memories row]
    exact Table.get_put_self _ _
  have hframe : (s.superseded call row).journal = s.journal ∧
      (s.superseded call row).selfDevice = s.selfDevice ∧
      (s.superseded call row).memoryRevision = s.memoryRevision := by
    rw [superseded]
    split <;> exact ⟨rfl, rfl, rfl⟩
  refine ⟨((s.superseded call row).deleteMemoryFts row.id).memoriesFts ++
    [⟨row.id, row.title, row.content⟩], ?_⟩
  simp only [bumpMemoryRevision, journaled, replaceMemoryFts, deleteMemoryFts, row_memory, hget,
    hframe.1, hframe.2.1, hframe.2.2]
  rfl

/-- What `remember` has checked when it succeeds, and what it then did. -/
structure Remembered (codec : Codec) (s : Store) (call : MemoryCall) (input : MemoryInput)
    (axes : MemoryAxes) (valid : ValidInput) (existingAcl : Option (List String)) (t : Store)
    (id : String) : Prop where
  checked : validateInput codec input = .ok valid
  allowed : (s.memoryByDedupeKey input.project input.dedupeKey).mapM (fun m ↦
    checkExisting codec m input call.principalAcl call.owner) = .ok existingAcl
  identity : id = ((s.memoryByDedupeKey input.project input.dedupeKey).map MemoryRow.id).getD call.freshId
  written :
    let sourceId := if ByteText.trim input.sourceId.toList = [] then id else input.sourceId
    let same := (s.memoryByDedupeKey input.project input.dedupeKey).any fun m ↦
      sameMemory m (existingAcl.getD []) input valid axes sourceId
    (same = true ∧ t = s) ∨
      (same = false ∧ input.supersedesId ≠ some id ∧
        s.hasCapacity codec (s.memoryByDedupeKey input.project input.dedupeKey)
          (input.supersedesId.bind s.activeMemory) call.now = true ∧
        s.writeMemory codec call (memoryRow codec id sourceId call.now input valid axes) = .ok t)

theorem rememberInTransaction_cases {call : MemoryCall} {input : MemoryInput} {axes : MemoryAxes}
    {id : String} (h : s.rememberInTransaction codec call input axes = .ok (t, id)) :
    ∃ valid existingAcl, Remembered codec s call input axes valid existingAcl t id := by
  rw [rememberInTransaction] at h
  obtain ⟨valid, hvalid, h⟩ := Iff.mp Except.bind_ok_iff h
  obtain ⟨existingAcl, hacl, h⟩ := Iff.mp Except.bind_ok_iff h
  dsimp only at h
  let key := ((s.memoryByDedupeKey input.project input.dedupeKey).map MemoryRow.id).getD call.freshId
  by_cases hsame : ((s.memoryByDedupeKey input.project input.dedupeKey).any fun m ↦
      sameMemory m (existingAcl.getD []) input valid axes
        (if ByteText.trim input.sourceId.toList = [] then key else input.sourceId)) = true
  · rw [if_pos hsame] at h
    obtain ⟨rfl, rfl⟩ := Prod.mk.inj (Except.ok.inj h)
    exact ⟨valid, existingAcl, hvalid, hacl, rfl, Or.inl ⟨hsame, rfl⟩⟩
  · rw [if_neg hsame] at h
    obtain ⟨_, -, h⟩ := Iff.mp Except.bind_ok_iff h
    obtain ⟨_, hself, h⟩ := Iff.mp Except.bind_ok_iff h
    obtain ⟨_, hcapacity, h⟩ := Iff.mp Except.bind_ok_iff h
    obtain ⟨u, hu, h⟩ := Iff.mp Except.bind_ok_iff h
    obtain ⟨rfl, rfl⟩ := Prod.mk.inj (Iff.mp Except.pure_ok_iff h)
    refine ⟨valid, existingAcl, hvalid, hacl, rfl, Or.inr ⟨Bool.eq_false_of_not_eq_true hsame, ?_, ?_, hu⟩⟩
    · exact Iff.mp Except.require_ok_iff hself
    · exact Iff.mp Except.require_ok_iff hcapacity

theorem rememberScopedWithAxes_eq_ok {call : MemoryCall} {input : MemoryInput} {axes : MemoryAxes}
    {id : String} (h : s.rememberScopedWithAxes codec call input axes = .ok (t, id)) :
    s.rememberInTransaction codec call input axes = .ok (t, id) := by
  rw [rememberScopedWithAxes] at h
  split_ifs at h
  exact h

/-- The row `forget` leaves of a memory. -/
def retracted (memory : MemoryRow) (now : String) : MemoryRow :=
  { memory with
    status := "retracted"
    content := ""
    provenanceJson := "{}"
    validUntil := some (memory.validUntil.getD now)
    updatedAt := now }

theorem forgetMemoryScoped_eq_ok {call : MemoryCall} {id : String} {found : Bool}
    (h : s.forgetMemoryScoped codec call id = .ok (t, found)) :
    (s.activeMemory id = none ∧ t = s ∧ found = false) ∨
      ∃ memory, s.activeMemory id = some memory ∧ found = true ∧
        t = { s with
          memories := s.memories.put (retracted memory call.now)
          memoriesFts := (s.deleteMemoryFts id).memoriesFts
          journal := s.journal.record s.selfDevice ⟨.memory, id⟩
            (codec.digest.state (some (.memory (retracted memory call.now)))) call.changedAt
          memoryRevision := s.memoryRevision + 1 } := by
  rw [forgetMemoryScoped] at h
  cases hactive : s.activeMemory id with
  | none =>
      simp only [hactive] at h
      obtain ⟨rfl, rfl⟩ := Prod.mk.inj (Except.ok.inj h)
      exact Or.inl ⟨rfl, rfl, rfl⟩
  | some memory =>
      simp only [hactive] at h
      obtain ⟨_, -, h⟩ := Iff.mp Except.bind_ok_iff h
      obtain ⟨_, -, h⟩ := Iff.mp Except.bind_ok_iff h
      obtain ⟨_, -, h⟩ := Iff.mp Except.bind_ok_iff h
      obtain ⟨u, hu, h⟩ := Iff.mp Except.bind_ok_iff h
      rw [journalInTransaction_memory] at hu
      obtain rfl := Except.ok.inj hu
      obtain ⟨rfl, rfl⟩ := Prod.mk.inj (Iff.mp Except.pure_ok_iff h)
      refine Or.inr ⟨memory, rfl, rfl, ?_⟩
      have hid : memory.id = id := Table.key_of_get (Iff.mp activeMemory_eq_some hactive).1
      have hrow : some (ObjectRow.memory (retracted memory call.now)) =
          ((s.memories.put (retracted memory call.now)).get id).map .memory := by
        rw [← hid]
        exact (congrArg (Option.map ObjectRow.memory)
          (Table.get_put_self s.memories (retracted memory call.now))).symm
      rw [hrow]
      rfl

theorem promoteCandidate_eq_ok {call : MemoryCall} {candidate : ObservationCandidate}
    {report : ConsolidationReport} (h : s.promoteCandidate codec call candidate report = .ok t) :
    t = s ∨ ∃ axes id,
      (MemoryAxes.withOverrides candidate.contentType candidate.contentType
        (if report.decision = .working then "working" else candidate.retentionTier)
        candidate.scope = .ok axes ∧ candidate.pending = true) ∧
      s.rememberInTransaction codec call (promotedInput candidate report axes) axes =
        .ok (t, id) := by
  rw [promoteCandidate] at h
  obtain ⟨axes, haxes, h⟩ := Iff.mp Except.bind_ok_iff h
  cases hremember : s.rememberInTransaction codec call (promotedInput candidate report axes)
      axes with
  | error e =>
      simp only [hremember] at h
      exact Or.inl (Iff.mp Except.pure_ok_iff h).symm
  | ok result =>
      obtain ⟨u, id⟩ := result
      simp only [hremember] at h
      split at h
      · rename_i hpending
        obtain rfl := Iff.mp Except.pure_ok_iff h
        exact Or.inr ⟨axes, id, ⟨haxes, hpending⟩, hremember⟩
      · cases h

end Store

end Cortana
