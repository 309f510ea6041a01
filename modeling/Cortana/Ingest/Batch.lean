import Cortana.Core.Outcomes
import Cortana.Ingest.Source
import Cortana.Store.Effects
import Mathlib.Logic.Relation

/-!
# Ingesting documents

`ingest_documents_controlled` and `flush_ingest_batch` of `main.rs`.  A batch
writes its documents one by one, so that a failure leaves the ones that were
committed before it: every function here fails with the store it leaves.
-/

namespace Cortana

/-! ## The surroundings of a run -/

/-- What a run meets outside the store.  It passes numbered points at which it
can be cancelled, exceed its time or fail on something that it waits for. -/
structure Environment where
  codec : Codec
  /-- `chunk_document`. -/
  chunk : Document → List ChunkSpec
  /-- The vector of a chunk. -/
  embed : List Char → Embedding
  /-- Why the run stops at a point. -/
  stops : ℕ → Option String
  /-- The clock at a point. -/
  now : ℕ → String
  /-- `serde_json::from_str::<Document>`. -/
  parseDocument : String → Option Document
  /-- `str::to_lowercase`. -/
  lowercase : String → String
  /-- A URI with path segments. -/
  uri : String → List String → Except String String
  /-- `finish_sync`, which fails where the record of the run is gone or completed. -/
  finishSync : Except String Unit

/-- A run that stopped, and the store that it leaves. -/
structure Stopped where
  store : Store
  reason : String

/-- The store and the number of points that were passed. -/
structure IngestState where
  store : Store
  clock : ℕ

/-- `SourceLimits`; the time budget is part of the surroundings. -/
structure SourceLimits where
  maxDocuments : ℕ
  maxBytes : ℕ
  documentBatchSize : ℕ
  requestConcurrency : ℕ

/-- `EMBEDDING_REQUEST_SIZE`. -/
def embeddingRequestSize : ℕ := 8

namespace Ingest

/-- A point at which the run can stop, such as `SourceControl::check`. -/
def check (env : Environment) (state : IngestState) : Except Stopped IngestState :=
  match env.stops state.clock with
  | some reason => .error ⟨state.store, reason⟩
  | none => .ok { state with clock := state.clock + 1 }

/-- `needs_structured_update`. -/
def needsStructuredUpdate (codec : Codec) (s : Store) (document : Document) : Bool :=
  !(s.unchanged codec document &&
    ((s.firstChunk (stableId codec document.source document.sourceId)).bind
      ChunkRow.policyVersion) == some chunkingContractVersion)

/-- The commit of one document, once the vectors of its chunks have arrived. -/
def commit (env : Environment) (state : IngestState) (item : Document × List ChunkSpec) :
    Except Stopped IngestState := do
  let state ← check env state
  let chunks := item.2.map fun spec ↦ (spec, env.embed spec.content)
  match state.store.upsertStructured env.codec item.1 chunks (env.now state.clock) with
  | .error reason => .error ⟨state.store, reason⟩
  | .ok (store, _) => .ok { state with store := store }

/-- `flush_ingest_batch`. -/
def flushIngestBatch (env : Environment) (pending : List (Document × List ChunkSpec))
    (state : IngestState) : Except Stopped IngestState :=
  if pending = [] then .ok state
  else do
    let state ← check env state
    let state ← pending.foldlM (commit env) state
    check env state

/-- The loop of `ingest_documents_controlled`: the documents that wait for
their vectors, and the number of documents that were looked at. -/
structure BatchState where
  state : IngestState
  pending : List (Document × List ChunkSpec)
  processed : ℕ

/-- One document of `ingest_documents_controlled`. -/
def ingestDocument (env : Environment) (limits : SourceLimits) (batch : BatchState)
    (document : Document) : Except Stopped BatchState := do
  let state ← check env batch.state
  let processed := batch.processed + 1
  if needsStructuredUpdate env.codec state.store document then
    let pending := batch.pending ++ [(document, env.chunk document)]
    if embeddingRequestSize * limits.requestConcurrency ≤
        (pending.map fun item ↦ item.2.length).sum then do
      let state ← flushIngestBatch env pending state
      let state ← check env state
      return ⟨state, [], processed⟩
    else return ⟨state, pending, processed⟩
  else
    let state := { state with store := state.store.refreshTimestamp env.codec document }
    -- The progress of the run is recorded at every 64th document.
    if processed % 64 = 0 then do
      let state ← check env state
      return ⟨state, batch.pending, processed⟩
    else return ⟨state, batch.pending, processed⟩

/-- `ingest_documents_controlled`. -/
def ingestDocumentsControlled (env : Environment) (limits : SourceLimits)
    (documents : List Document) (state : IngestState) : Except Stopped IngestState := do
  let batch ← documents.foldlM (ingestDocument env limits) ⟨state, [], 0⟩
  let state ← flushIngestBatch env batch.pending batch.state
  check env state

/-! ## What the writes do to the rows -/

variable {codec : Codec} {documents : List Document}

/-- The writes of an ingestion of some documents. -/
def Writes (codec : Codec) (documents : List Document) (s t : Store) : Prop :=
  ∃ document ∈ documents, t = s.refreshTimestamp codec document ∨
    ∃ chunks now written, s.upsertStructured codec document chunks now = .ok (t, written)

/-- Any number of writes. -/
abbrev Written (codec : Codec) (documents : List Document) : Store → Store → Prop :=
  Relation.ReflTransGen (Writes codec documents)

/-- What becomes of the row of an id: it stays, or one of the documents is
written to it; then a stored row keeps its source and its source id. -/
def Rewrites (codec : Codec) (documents : List Document) (id : String)
    (old new : Option DocumentRow) : Prop :=
  new = old ∨ ∃ document ∈ documents, id = stableId codec document.source document.sourceId ∧
    ∃ row ∈ new, (∀ r ∈ old, row.source = r.source ∧ row.sourceId = r.sourceId ∧
        (row.project = r.project ∨ row.project = document.project)) ∧
      (old = none → row.source = document.source ∧ row.sourceId = document.sourceId ∧
        row.project = document.project)

theorem Writes.rewrites {s t : Store} (h : Writes codec documents s t) (id : String) :
    Rewrites codec documents id (s.documents.get id) (t.documents.get id) := by
  obtain ⟨document, hdocument, rfl | ⟨chunks, now, written, hupsert⟩⟩ := h
  · rcases Store.refreshTimestamp_cases codec s document with hsame | ⟨row, hrow, -, heq⟩
    · rw [hsame]
      exact Or.inl rfl
    · have hid : row.id = stableId codec document.source document.sourceId := Table.key_of_get hrow
      rw [heq]
      change Rewrites codec documents id _ ((s.documents.put _).get id)
      rw [Table.get_put]
      split_ifs with heqid
      · refine Or.inr ⟨document, hdocument, heqid.trans hid, _, rfl, ?_, ?_⟩
        · intro r hr
          rw [heqid.trans hid, hrow] at hr
          obtain rfl := Option.some.inj hr
          exact ⟨rfl, rfl, Or.inl rfl⟩
        · intro hnone
          rw [heqid.trans hid, hrow] at hnone
          cases hnone
      · exact Or.inl rfl
  · rcases Store.upsertStructured_eq_ok hupsert with ⟨-, rfl, -⟩ | ⟨-, -, hwrite⟩
    · exact Or.inl rfl
    · obtain ⟨used, chunkRows, chunksFts, codeIndexes, -, rfl⟩ := Store.writeDocument_eq_ok hwrite
      change Rewrites codec documents id _ ((s.documents.put (s.writtenDocument codec document)).get id)
      have hid : (s.writtenDocument codec document).id =
          stableId codec document.source document.sourceId := Store.id_mergedDocument _ _
      rw [Table.get_put, hid]
      split_ifs with heqid
      · subst heqid
        refine Or.inr ⟨document, hdocument, rfl, _, rfl, ?_, ?_⟩
        · intro r hr
          have hget : s.documents.get (documentRow codec document).id = some r := hr
          rw [Store.writtenDocument, Store.mergedDocument, hget]
          exact ⟨rfl, rfl, Or.inr rfl⟩
        · intro hnone
          have hget : s.documents.get (documentRow codec document).id = none := hnone
          rw [Store.writtenDocument, Store.mergedDocument, hget]
          exact ⟨rfl, rfl, rfl⟩
      · exact Or.inl rfl

/-- No write deletes a document. -/
theorem Written.isSome {s t : Store} (h : Written codec documents s t) {id : String}
    (hid : (s.documents.get id).isSome) : (t.documents.get id).isSome := by
  induction h with
  | refl => exact hid
  | tail _ hlast ih =>
      rcases hlast.rewrites id with hsame | ⟨-, -, -, row, hrow, -⟩
      · rwa [hsame]
      · rw [hrow]
        rfl

/-- Rows under other ids stay. -/
theorem Written.get_of_forall_ne {s t : Store} (h : Written codec documents s t) {id : String}
    (hid : ∀ document ∈ documents, id ≠ stableId codec document.source document.sourceId) :
    t.documents.get id = s.documents.get id := by
  induction h with
  | refl => rfl
  | tail _ hlast ih =>
      rcases hlast.rewrites id with hsame | ⟨document, hdocument, heq, -⟩
      · rw [hsame, ih]
      · exact absurd heq (hid document hdocument)

/-- A new row has the source id of one of the documents. -/
theorem Written.sourceId_of_new {s t : Store} (h : Written codec documents s t) {id : String}
    {row : DocumentRow} (hrow : t.documents.get id = some row) (hnew : s.documents.get id = none) :
    row.sourceId ∈ documents.map Document.sourceId := by
  induction h generalizing row with
  | refl =>
      rw [hnew] at hrow
      cases hrow
  | tail _ hlast ih =>
      rcases hlast.rewrites id with hsame | ⟨document, hdocument, -, row', hrow', hkept, hfresh⟩
      · exact ih (hsame ▸ hrow)
      · rw [Option.mem_def, hrow] at hrow'
        obtain rfl := Option.some.inj hrow'
        cases hold : (Store.documents _).get id with
        | none =>
            rw [(hfresh hold).2.1]
            exact List.mem_map_of_mem hdocument
        | some old =>
            rw [(hkept old hold).2.1]
            exact ih hold

theorem Written.mono {documents' : List Document} (hsub : documents ⊆ documents') {s t : Store}
    (h : Written codec documents s t) : Written codec documents' s t := by
  refine Relation.ReflTransGen.mono ?_ s t h
  rintro u v ⟨document, hdocument, hwrite⟩
  exact ⟨document, hsub hdocument, hwrite⟩

/-- The store has a row under the id of a document. -/
def Held (codec : Codec) (s : Store) (document : Document) : Prop :=
  (s.documents.get (stableId codec document.source document.sourceId)).isSome

theorem Written.held {s t : Store} (h : Written codec documents s t) {document : Document}
    (hheld : Held codec s document) : Held codec t document :=
  h.isSome hheld

theorem held_of_upsertStructured {s t : Store} {document : Document}
    {chunks : List (ChunkSpec × Embedding)} {now : String} {written : Bool}
    (h : s.upsertStructured codec document chunks now = .ok (t, written)) :
    Held codec t document := by
  rcases Store.upsertStructured_eq_ok h with ⟨⟨hsame, -⟩, rfl, -⟩ | ⟨-, -, hwrite⟩
  · rw [Held]
    rw [Store.unchanged] at hsame
    cases hget : t.documents.get (stableId codec document.source document.sourceId) with
    | none => simp [hget] at hsame
    | some row => rfl
  · obtain ⟨used, chunkRows, chunksFts, codeIndexes, -, rfl⟩ := Store.writeDocument_eq_ok hwrite
    have hid : (s.writtenDocument codec document).id =
        stableId codec document.source document.sourceId := Store.id_mergedDocument _ _
    rw [Held, ← hid]
    exact Option.isSome_iff_exists.mpr ⟨_, Table.get_put_self _ _⟩

/-! ## What an ingestion does -/

variable {env : Environment} {limits : SourceLimits}

theorem check_ends (state : IngestState) :
    (check env state).Ends (fun stopped ↦ stopped.store = state.store)
      fun state' ↦ state'.store = state.store := by
  rw [check]
  split <;> simp

theorem commit_ends (state : IngestState) {item : Document × List ChunkSpec}
    (hitem : item.1 ∈ documents) :
    (commit env state item).Ends
      (fun stopped ↦ Written env.codec documents state.store stopped.store)
      fun state' ↦ Written env.codec documents state.store state'.store ∧
        Held env.codec state'.store item.1 := by
  rw [commit]
  refine Except.Ends.bind (Q := fun passed ↦ passed.store = state.store) ?_ ?_
  · refine (check_ends state).mono (fun stopped hstopped ↦ ?_) fun _ h ↦ h
    rw [hstopped]
  · intro passed hpassed
    dsimp only
    split
    · rw [Except.ends_error, hpassed]
    · rename_i store written hupsert
      rw [Except.ends_ok, ← hpassed]
      refine ⟨Relation.ReflTransGen.single ?_, held_of_upsertStructured hupsert⟩
      exact ⟨item.1, hitem, Or.inr ⟨_, _, _, hupsert⟩⟩

theorem flushIngestBatch_ends {pending : List (Document × List ChunkSpec)} (state : IngestState)
    (hpending : ∀ item ∈ pending, item.1 ∈ documents) :
    (flushIngestBatch env pending state).Ends
      (fun stopped ↦ Written env.codec documents state.store stopped.store)
      fun state' ↦ Written env.codec documents state.store state'.store ∧
        ∀ item ∈ pending, Held env.codec state'.store item.1 := by
  rw [flushIngestBatch]
  split
  · rename_i hnil
    simp [hnil, Relation.ReflTransGen.refl]
  · refine Except.Ends.bind (Q := fun passed ↦ passed.store = state.store) ?_ ?_
    · refine (check_ends state).mono (fun stopped hstopped ↦ ?_) fun _ h ↦ h
      rw [hstopped]
    · intro passed hpassed
      have hcommits : (pending.foldlM (commit env) passed).Ends
          (fun stopped ↦ Written env.codec documents state.store stopped.store)
          fun state' ↦ Written env.codec documents state.store state'.store ∧
            ∀ item ∈ pending, Held env.codec state'.store item.1 := by
        refine List.foldlM_ends (I := fun (done : List (Document × List ChunkSpec))
            (state' : IngestState) ↦ Written env.codec documents state.store state'.store ∧
            ∀ item ∈ done, Held env.codec state'.store item.1) ?_ ?_
        · rw [hpassed]
          exact ⟨Relation.ReflTransGen.refl, by simp⟩
        · rintro before item current ⟨after, hsplit⟩ ⟨hwritten, hheld⟩
          have hitem : item.1 ∈ documents := hpending item (by simp [hsplit])
          refine (commit_ends current hitem).mono (fun stopped h ↦ hwritten.trans h) ?_
          rintro next ⟨hnext, hitemHeld⟩
          refine ⟨hwritten.trans hnext, fun other hother ↦ ?_⟩
          rcases List.mem_append.mp hother with hold | hnew
          · exact hnext.held (hheld other hold)
          · rwa [List.mem_singleton.mp hnew]
      refine hcommits.bind ?_
      rintro committed ⟨hwritten, hheld⟩
      refine (check_ends committed).mono ?_ ?_
      · rintro stopped hstopped
        rwa [hstopped]
      · rintro last hlast
        rw [hlast]
        exact ⟨hwritten, hheld⟩

/-- The documents that were looked at are held, or wait for their vectors. -/
structure Progressed (codec : Codec) (documents : List Document) (s : Store)
    (done : List Document) (batch : BatchState) : Prop where
  written : Written codec documents s batch.state.store
  pending : ∀ item ∈ batch.pending, item.1 ∈ documents
  held : ∀ document ∈ done,
    Held codec batch.state.store document ∨ ∃ item ∈ batch.pending, item.1 = document

theorem held_of_not_needsStructuredUpdate {s : Store} {document : Document}
    (h : needsStructuredUpdate codec s document = false) : Held codec s document := by
  rw [needsStructuredUpdate, Bool.not_eq_false', Bool.and_eq_true] at h
  rw [Held]
  have hsame := h.1
  rw [Store.unchanged] at hsame
  cases hget : s.documents.get (stableId codec document.source document.sourceId) with
  | none => simp [hget] at hsame
  | some row => rfl

theorem ingestDocument_ends {s : Store} {done : List Document} {batch : BatchState}
    {document : Document} (hdocument : document ∈ documents)
    (hbatch : Progressed env.codec documents s done batch) :
    (ingestDocument env limits batch document).Ends
      (fun stopped ↦ Written env.codec documents s stopped.store)
      (Progressed env.codec documents s (done ++ [document])) := by
  rw [ingestDocument]
  refine Except.Ends.bind (Q := fun passed ↦ passed.store = batch.state.store) ?_ ?_
  · refine (check_ends batch.state).mono (fun stopped hstopped ↦ ?_) fun _ h ↦ h
    rw [hstopped]
    exact hbatch.written
  · intro passed hpassed
    have hwritten : Written env.codec documents s passed.store := by
      rw [hpassed]
      exact hbatch.written
    have hpending : ∀ item ∈ batch.pending ++ [(document, env.chunk document)],
        item.1 ∈ documents := by
      intro item hitem
      rcases List.mem_append.mp hitem with hold | hnew
      · exact hbatch.pending item hold
      · rwa [List.mem_singleton.mp hnew]
    have hheld : ∀ other ∈ done, Held env.codec passed.store other ∨
        ∃ item ∈ batch.pending, item.1 = other := by
      rw [hpassed]
      exact hbatch.held
    have hrefreshed : ∀ state : IngestState,
        Written env.codec documents s (passed.store.refreshTimestamp env.codec document) ∧
        (state.store = passed.store.refreshTimestamp env.codec document →
          needsStructuredUpdate env.codec passed.store document = false →
          Progressed env.codec documents s (done ++ [document])
            ⟨state, batch.pending, batch.processed + 1⟩) := by
      intro state
      have hwrite : Writes env.codec documents passed.store
          (passed.store.refreshTimestamp env.codec document) :=
        ⟨document, hdocument, Or.inl rfl⟩
      refine ⟨hwritten.tail hwrite, fun hstate hcurrent ↦ ⟨?_, hbatch.pending, ?_⟩⟩
      · change Written env.codec documents s state.store
        rw [hstate]
        exact hwritten.tail hwrite
      · intro other hother
        change Held env.codec state.store other ∨ _
        rw [hstate]
        have hsingle : Written env.codec documents passed.store
            (passed.store.refreshTimestamp env.codec document) :=
          Relation.ReflTransGen.single hwrite
        rcases List.mem_append.mp hother with hold | hnew
        · exact (hheld other hold).imp_left hsingle.held
        · obtain rfl := List.mem_singleton.mp hnew
          exact Or.inl (hsingle.held (held_of_not_needsStructuredUpdate hcurrent))
    dsimp only
    split_ifs with hneeds hfull hrecord
    · refine (flushIngestBatch_ends passed hpending).mono (fun _ h ↦ hwritten.trans h) (fun _ h ↦ h)
        |>.bind ?_
      rintro flushed ⟨hflushed, hpendingHeld⟩
      refine ((check_ends flushed).mono (fun stopped hstopped ↦ ?_) fun _ h ↦ h).bind ?_
      · rw [hstopped]
        exact hwritten.trans hflushed
      · intro last hlast
        refine ⟨?_, by simp, fun other hother ↦ Or.inl ?_⟩
        · change Written env.codec documents s last.store
          rw [hlast]
          exact hwritten.trans hflushed
        · change Held env.codec last.store other
          rw [hlast]
          rcases List.mem_append.mp hother with hold | hnew
          · rcases hheld other hold with hother | ⟨item, hitem, rfl⟩
            · exact hflushed.held hother
            · exact hpendingHeld item (List.mem_append_left _ hitem)
          · obtain rfl := List.mem_singleton.mp hnew
            exact hpendingHeld (other, env.chunk other) (by simp)
    · refine ⟨hwritten, hpending, fun other hother ↦ ?_⟩
      rcases List.mem_append.mp hother with hold | hnew
      · rcases hheld other hold with hother | ⟨item, hitem, rfl⟩
        · exact Or.inl hother
        · exact Or.inr ⟨item, List.mem_append_left _ hitem, rfl⟩
      · obtain rfl := List.mem_singleton.mp hnew
        exact Or.inr ⟨(other, env.chunk other), by simp, rfl⟩
    · refine ((check_ends { passed with
        store := passed.store.refreshTimestamp env.codec document }).mono (fun stopped hstopped ↦ ?_)
          fun _ h ↦ h).bind ?_
      · rw [hstopped]
        exact (hrefreshed passed).1
      · intro last hlast
        exact (hrefreshed last).2 hlast (by simpa using hneeds)
    · exact (hrefreshed { passed with
        store := passed.store.refreshTimestamp env.codec document }).2 rfl (by simpa using hneeds)

/-- An ingestion writes nothing but its documents, and one that ends has a row
for each. -/
theorem ingestDocumentsControlled_ends (state : IngestState) :
    (ingestDocumentsControlled env limits documents state).Ends
      (fun stopped ↦ Written env.codec documents state.store stopped.store)
      fun state' ↦ Written env.codec documents state.store state'.store ∧
        ∀ document ∈ documents, Held env.codec state'.store document := by
  rw [ingestDocumentsControlled]
  have hloop : (documents.foldlM (ingestDocument env limits) ⟨state, [], 0⟩).Ends
      (fun stopped ↦ Written env.codec documents state.store stopped.store)
      (Progressed env.codec documents state.store documents) := by
    refine List.foldlM_ends (I := Progressed env.codec documents state.store) ?_ ?_
    · exact ⟨Relation.ReflTransGen.refl, by simp, by simp⟩
    · rintro before document batch ⟨after, hsplit⟩ hbatch
      exact ingestDocument_ends (by simp [hsplit]) hbatch
  refine hloop.bind fun batch hbatch ↦ ?_
  refine ((flushIngestBatch_ends batch.state hbatch.pending).mono
    (fun _ h ↦ hbatch.written.trans h) fun _ h ↦ h).bind ?_
  rintro flushed ⟨hflushed, hpendingHeld⟩
  refine (check_ends flushed).mono (fun stopped hstopped ↦ ?_) fun last hlast ↦ ?_
  · rw [hstopped]
    exact hbatch.written.trans hflushed
  · rw [hlast]
    refine ⟨hbatch.written.trans hflushed, fun document hdocument ↦ ?_⟩
    rcases hbatch.held document hdocument with hheld | ⟨item, hitem, rfl⟩
    · exact hflushed.held hheld
    · exact hpendingHeld item hitem

end Ingest

end Cortana
