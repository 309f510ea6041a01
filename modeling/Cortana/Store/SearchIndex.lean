import Cortana.Store.Operations
import Cortana.Sync.Steps

/-!
# The full-text index

`chunks_fts` and `memories_fts` are filled by hand in every operation that
writes chunks or memories.  Each part of an operation is shown to keep them in
step with the rows they mirror, first for the tables alone.
-/

namespace Cortana

open Replication

/-! ## Chunks -/

/-- The full-text row of a chunk, with the title of its document. -/
def chunkEntry (documents : Table DocumentRow.id) (c : ChunkRow) : ChunkFts :=
  ⟨c.id, ((documents.get c.documentId).map DocumentRow.title).getD "", c.content⟩

/-- Every chunk belongs to a document, and the index has one row for each. -/
structure ChunksIndexed (documents : Table DocumentRow.id) (chunks : Table ChunkRow.id)
    (fts : List ChunkFts) : Prop where
  owned : ∀ c ∈ chunks.rows, (documents.get c.documentId).isSome
  rows : fts = chunks.rows.map (chunkEntry documents)

namespace ChunksIndexed

variable {documents documents' : Table DocumentRow.id} {chunks : Table ChunkRow.id}
  {fts : List ChunkFts}

/-- Documents may change as long as the owners of chunks keep their titles. -/
theorem congr_documents (h : ChunksIndexed documents chunks fts)
    (htitles : ∀ c ∈ chunks.rows, (documents'.get c.documentId).map DocumentRow.title =
      (documents.get c.documentId).map DocumentRow.title) :
    ChunksIndexed documents' chunks fts := by
  constructor
  · intro c hc
    rw [← Option.isSome_map, htitles c hc, Option.isSome_map]
    exact h.owned c hc
  · rw [h.rows]
    refine List.map_congr_left fun c hc ↦ ?_
    rw [chunkEntry, chunkEntry, htitles c hc]

/-- Deleting the index rows of a document's chunks, and then the chunks. -/
theorem delete (h : ChunksIndexed documents chunks fts) (id : String) :
    ChunksIndexed documents (chunks.keep fun c ↦ c.documentId != id)
      (fts.filter fun f ↦ !chunks.rows.any fun c ↦ c.id = f.chunkId ∧ c.documentId = id) := by
  constructor
  · intro c hc
    exact h.owned c (Iff.mp Table.mem_keep hc).1
  · rw [h.rows, List.filter_map, Table.keep]
    refine congrArg (List.map (chunkEntry documents)) (List.filter_congr fun c hc ↦ ?_)
    have howner : (chunks.rows.any fun d ↦ d.id = c.id ∧ d.documentId = id) =
        (c.documentId == id) := by
      rw [Bool.eq_iff_iff, List.any_eq_true]
      constructor
      · rintro ⟨d, hd, heq⟩
        obtain ⟨hid, howner⟩ := of_decide_eq_true heq
        obtain rfl : d = c := List.inj_on_of_nodup_map chunks.nodup hd hc hid
        exact beq_iff_eq.mpr howner
      · intro howner
        exact ⟨c, hc, decide_eq_true ⟨rfl, beq_iff_eq.mp howner⟩⟩
    exact congrArg not howner

/-- Writing a document that owns no chunk. -/
theorem put (h : ChunksIndexed documents chunks fts) (row : DocumentRow)
    (hfree : ∀ c ∈ chunks.rows, c.documentId ≠ row.id) :
    ChunksIndexed (documents.put row) chunks fts :=
  h.congr_documents fun c hc ↦ by rw [Table.get_put_of_ne (hfree c hc)]

/-- Deleting a document that owns no chunk. -/
theorem erase (h : ChunksIndexed documents chunks fts) {id : String}
    (hfree : ∀ c ∈ chunks.rows, c.documentId ≠ id) :
    ChunksIndexed (documents.erase id) chunks fts :=
  h.congr_documents fun c hc ↦ by rw [Table.get_erase, if_neg (hfree c hc)]

/-- A document that is changed but keeps its title. -/
theorem retitle (h : ChunksIndexed documents chunks fts) {old row : DocumentRow}
    (hold : documents.get row.id = some old) (htitle : row.title = old.title) :
    ChunksIndexed (documents.put row) chunks fts := by
  refine h.congr_documents fun c _ ↦ ?_
  rw [Table.get_put]
  split_ifs with hid
  · rw [hid, hold, Option.map_some, Option.map_some, htitle]
  · rfl

/-- Inserting a chunk of a stored document with its index row. -/
theorem insert (h : ChunksIndexed documents chunks fts) (chunk : ChunkRow) {row : DocumentRow}
    (hnew : chunks.get chunk.id = none) (hrow : documents.get chunk.documentId = some row) :
    ChunksIndexed documents (chunks.put chunk)
      (fts ++ [⟨chunk.id, row.title, chunk.content⟩]) := by
  constructor
  · intro c hc
    rcases Iff.mp Table.mem_put hc with rfl | ⟨hc, -⟩
    · simp [hrow]
    · exact h.owned c hc
  · rw [h.rows, Table.rows_put_of_get_eq_none hnew, List.map_append, List.map_singleton, chunkEntry,
      hrow]
    rfl

/-- New vectors do not change the index. -/
theorem modify (h : ChunksIndexed documents chunks fts) (f : ChunkRow → ChunkRow)
    (hid : ∀ c, (f c).id = c.id) (howner : ∀ c, (f c).documentId = c.documentId)
    (hcontent : ∀ c, (f c).content = c.content) :
    ChunksIndexed documents (chunks.modify f hid) fts := by
  constructor
  · intro c hc
    obtain ⟨d, hd, rfl⟩ := List.mem_map.mp hc
    rw [howner]
    exact h.owned d hd
  · rw [h.rows, Table.modify, List.map_map]
    refine List.map_congr_left fun c _ ↦ ?_
    simp only [Function.comp_apply, chunkEntry, hid, howner, hcontent]

end ChunksIndexed

/-! ## Memories -/

/-- The index has one row, the current one, for each active memory, and none
for a memory that is gone. -/
structure MemoriesIndexed (memories : Table MemoryRow.id) (fts : List MemoryFts) : Prop where
  active : ∀ m ∈ memories.rows, m.status = "active" →
    fts.filter (fun f ↦ f.memoryId = m.id) = [⟨m.id, m.title, m.content⟩]
  stored : ∀ f ∈ fts, (memories.get f.memoryId).isSome

namespace MemoriesIndexed

variable {memories : Table MemoryRow.id} {fts : List MemoryFts}

/-- What is filtered out of the index does not show up under another id. -/
theorem filter_filter_of_ne {id id' : String} (h : id' ≠ id) (fts : List MemoryFts) :
    (fts.filter fun f ↦ f.memoryId != id).filter (fun f ↦ f.memoryId = id') =
      fts.filter fun f ↦ f.memoryId = id' := by
  rw [List.filter_filter]
  refine List.filter_congr fun f _ ↦ ?_
  by_cases hf : f.memoryId = id' <;> simp [hf, h]

/-- Writing a memory and replacing its index row, which says what an active one says. -/
theorem replace_read (h : MemoriesIndexed memories fts) (row : MemoryRow) {title content : String}
    (hread : row.status = "active" → title = row.title ∧ content = row.content) :
    MemoriesIndexed (memories.put row)
      ((fts.filter fun f ↦ f.memoryId != row.id) ++ [⟨row.id, title, content⟩]) := by
  constructor
  · intro m hm hactive
    rw [List.filter_append]
    rcases Iff.mp Table.mem_put hm with rfl | ⟨hm, hne⟩
    · obtain ⟨rfl, rfl⟩ := hread hactive
      rw [List.filter_filter, List.filter_eq_nil_iff.mpr (by simp)]
      simp
    · rw [filter_filter_of_ne hne, h.active m hm hactive]
      simp [hne.symm]
  · intro f hf
    rw [Table.get_put]
    split_ifs with hid
    · rfl
    · rcases List.mem_append.mp hf with hold | hnew
      · exact h.stored f (List.mem_of_mem_filter hold)
      · exact absurd (by simpa using congrArg MemoryFts.memoryId (List.mem_singleton.mp hnew)) hid

theorem replace (h : MemoriesIndexed memories fts) (row : MemoryRow) :
    MemoriesIndexed (memories.put row)
      ((fts.filter fun f ↦ f.memoryId != row.id) ++ [⟨row.id, row.title, row.content⟩]) :=
  h.replace_read row fun _ ↦ ⟨rfl, rfl⟩

/-- A memory that is no longer active may keep its index row. -/
theorem retire (h : MemoriesIndexed memories fts) {row : MemoryRow}
    (hstatus : row.status ≠ "active") : MemoriesIndexed (memories.put row) fts := by
  constructor
  · intro m hm hactive
    rcases Iff.mp Table.mem_put hm with rfl | ⟨hm, -⟩
    · exact absurd hactive hstatus
    · exact h.active m hm hactive
  · intro f hf
    rw [Table.get_put]
    split_ifs
    · rfl
    · exact h.stored f hf

/-- Dropping the index row of a memory that is not active, or not stored. -/
theorem drop (h : MemoriesIndexed memories fts) {id : String}
    (hstatus : ∀ m ∈ memories.get id, m.status ≠ "active") :
    MemoriesIndexed memories (fts.filter fun f ↦ f.memoryId != id) := by
  constructor
  · intro m hm hactive
    have hne : m.id ≠ id := fun hid ↦
      hstatus m (Iff.mpr Table.get_eq_some_iff ⟨hm, hid⟩) hactive
    rw [filter_filter_of_ne hne, h.active m hm hactive]
  · exact fun f hf ↦ h.stored f (List.mem_of_mem_filter hf)

/-- Deleting a memory and its index row. -/
theorem erase (h : MemoriesIndexed memories fts) (id : String) :
    MemoriesIndexed (memories.erase id) (fts.filter fun f ↦ f.memoryId != id) := by
  constructor
  · intro m hm hactive
    obtain ⟨hm, hne⟩ := Iff.mp Table.mem_erase hm
    rw [filter_filter_of_ne hne, h.active m hm hactive]
  · intro f hf
    obtain ⟨hf, hne⟩ := List.mem_filter.mp hf
    rw [Table.get_erase, if_neg (by simpa using hne)]
    exact h.stored f hf

end MemoriesIndexed

/-! ## Parts of the operations -/

namespace Store

/-- Both indexes mirror the canonical rows. -/
structure Indexed (s : Store) : Prop where
  chunks : ChunksIndexed s.documents s.chunks s.chunksFts
  memories : MemoriesIndexed s.memories s.memoriesFts

variable {codec : Codec} {s t : Store}

theorem indexed_adopted (device : Option String) : (adopted device).Indexed :=
  ⟨⟨by simp [adopted, Table.empty], rfl⟩, ⟨by simp [adopted, Table.empty], by simp [adopted]⟩⟩

/-- What the index depends on. -/
theorem Indexed.congr (h : s.Indexed) (hdocuments : t.documents = s.documents)
    (hchunks : t.chunks = s.chunks) (hchunksFts : t.chunksFts = s.chunksFts)
    (hmemories : t.memories = s.memories) (hmemoriesFts : t.memoriesFts = s.memoriesFts) :
    t.Indexed := by
  constructor
  · rw [hdocuments, hchunks, hchunksFts]
    exact h.chunks
  · rw [hmemories, hmemoriesFts]
    exact h.memories

theorem notOwned_deleteChunks (s : Store) (id : String) :
    ∀ c ∈ (s.deleteChunks id).chunks.rows, c.documentId ≠ id := fun c hc ↦ by
  simpa using (Iff.mp Table.mem_keep hc).2

theorem title_mergedDocument (t : Table DocumentRow.id) (row : DocumentRow) :
    (mergedDocument t row).title = row.title := by
  rw [mergedDocument]
  split <;> rfl

theorem title_setAcl (project aclJson : String) (d : DocumentRow) :
    (setAcl project aclJson d).title = d.title := by
  rw [setAcl]
  split <;> rfl

theorem Indexed.insertChunks (h : s.Indexed) {id title : String} {row : DocumentRow}
    {chunks : List ChunkRow} (hrow : s.documents.get id = some row) (htitle : row.title = title)
    (howner : ∀ c ∈ chunks, c.documentId = id)
    (hinsert : s.insertChunks title chunks = .ok t) : t.Indexed := by
  have hloop : t.Indexed ∧ t.documents = s.documents := by
    refine List.foldlM_preserves (P := fun u : Store ↦ u.Indexed ∧ u.documents = s.documents)
      ?_ ⟨h, rfl⟩ hinsert
    rintro c hc u u' ⟨hu, hdocuments⟩ hstep
    obtain ⟨hnew, rfl⟩ := insertChunk_eq_ok hstep
    refine ⟨⟨?_, hu.memories⟩, hdocuments⟩
    rw [← htitle]
    refine hu.chunks.insert c hnew ?_
    rw [hdocuments, howner c hc, hrow]
  exact hloop.1

theorem Indexed.writeDocument (h : s.Indexed) {document : Document} {chunks : List ChunkRow}
    {now : String}
    (howner : ∀ c ∈ chunks, c.documentId = stableId codec document.source document.sourceId)
    (hwrite : s.writeDocument codec document chunks now = .ok t) : t.Indexed := by
  obtain ⟨used, u, -, -, hinsert, rfl⟩ := writeDocument_cases hwrite
  have hid : (s.writtenDocument codec document).id = (documentRow codec document).id :=
    id_mergedDocument _ _
  have hput : Indexed { (s.deleteChunksFts (documentRow codec document).id).deleteChunks
      (documentRow codec document).id with
        bytesUsed := used
        documents := s.documents.put (s.writtenDocument codec document) } := by
    refine ⟨(h.chunks.delete (documentRow codec document).id).put _ ?_, h.memories⟩
    rw [hid]
    exact s.notOwned_deleteChunks (documentRow codec document).id
  have hu : u.Indexed := by
    have hrow : (s.documents.put (s.writtenDocument codec document)).get
        (documentRow codec document).id = some (s.writtenDocument codec document) := by
      rw [← hid, Table.get_put_self]
    exact hput.insertChunks hrow (title_mergedDocument _ _) howner hinsert
  obtain ⟨codeIndexes, hcode⟩ := replaceCodeIndex_eq codec u
    (stableId codec document.source document.sourceId) document
  rw [hcode]
  exact hu.congr rfl rfl rfl rfl rfl

theorem Indexed.removeStale (h : s.Indexed) {now : String → String} {id : String}
    (hremove : removeStale codec now s id = .ok t) : t.Indexed := by
  obtain ⟨used, rfl⟩ := removeStale_eq_ok hremove
  exact ⟨(h.chunks.delete id).erase (s.notOwned_deleteChunks id), h.memories⟩

theorem Indexed.insertEvaluationDocument (h : s.Indexed) {document : Document}
    {embedding : Embedding}
    (hinsert : insertEvaluationDocument codec embedding s document = .ok t) :
    t.Indexed := by
  rw [Store.insertEvaluationDocument] at hinsert
  split at hinsert
  · cases hinsert
  · rename_i hfree
    have hnone : s.documents.get (documentRow codec document).id = none := by simpa using hfree
    obtain ⟨u, hu, hrest⟩ := Iff.mp Except.bind_ok_iff hinsert
    obtain ⟨-, rfl⟩ := upsertDocumentRow_eq_ok hu
    obtain ⟨v, hv, hrest⟩ := Iff.mp Except.bind_ok_iff hrest
    obtain ⟨hnew, rfl⟩ := insertChunk_eq_ok hv
    obtain rfl := Iff.mp Except.pure_ok_iff hrest
    obtain ⟨codeIndexes, hcode⟩ := replaceCodeIndex_eq codec _ (documentRow codec document).id
      document
    rw [hcode]
    have hput := h.chunks.put (documentRow codec document) fun c hc hid ↦ by
      have howned := h.chunks.owned c hc
      rw [hid, hnone] at howned
      cases howned
    have hmerged : mergedDocument s.documents (documentRow codec document) =
        documentRow codec document := by
      rw [mergedDocument, hnone]
    simp only [hmerged] at hnew ⊢
    exact ⟨hput.insert ⟨_, (documentRow codec document).id, _, _, _, _, _, _, _, _, _, _, _⟩ hnew
      (Table.get_put_self s.documents (documentRow codec document)), h.memories⟩

/-- Where the index depends on what `as_str` reads of a payload, it reads what
the row holds: the id of a document with chunks under another title, the id of a
memory, and the title and the content of an active one. -/
def Mirrored (s : Store) (payload : Payload) : Prop :=
  match payload.row with
  | .document row => asStrOrDefault payload.strings.id row.id = row.id ∨
      ∀ c ∈ s.chunks.rows, c.documentId = row.id →
        (s.documents.get row.id).map DocumentRow.title = some row.title
  | .memory row => asStrOrDefault payload.strings.id row.id = row.id ∧
      (row.status = "active" → asStrOrDefault payload.strings.title row.title = row.title ∧
        asStrOrDefault payload.strings.content row.content = row.content)
  | .malformed => True

theorem Indexed.applyPayload (h : s.Indexed) {kind : ObjectKind} {payload : Payload}
    (hmirrored : s.Mirrored payload) (happly : s.applyPayload kind payload = .ok t) :
    t.Indexed := by
  obtain ⟨row, strings⟩ := payload
  unfold Store.applyPayload at happly
  split at happly
  · rename_i row heq
    obtain rfl : _ = ObjectRow.document row := heq
    split_ifs at happly
    obtain rfl := Except.ok.inj happly
    refine ⟨?_, h.memories⟩
    have hdelete := h.chunks.delete (asStrOrDefault strings.id row.id)
    rcases hmirrored with hid | hsame
    · rw [hid] at hdelete ⊢
      exact hdelete.put row (s.notOwned_deleteChunks row.id)
    · refine hdelete.congr_documents fun c hc ↦ ?_
      change ((s.documents.put row).get c.documentId).map DocumentRow.title = _
      rw [Table.get_put]
      split_ifs with hid
      · rw [hid, hsame c (Iff.mp Table.mem_keep hc).1 hid]
        rfl
      · rfl
  · rename_i row heq
    obtain rfl : _ = ObjectRow.memory row := heq
    split_ifs at happly
    obtain rfl := Except.ok.inj happly
    obtain ⟨hid, htexts⟩ := hmirrored
    have hreplaced := h.memories.replace_read row fun hactive ↦ htexts hactive
    refine ⟨h.chunks, ?_⟩
    change MemoriesIndexed (s.memories.put row)
      ((s.memoriesFts.filter fun f ↦ f.memoryId != asStrOrDefault strings.id row.id) ++
        [⟨asStrOrDefault strings.id row.id, _, _⟩])
    rw [hid]
    exact hreplaced
  · cases happly
  · cases happly

theorem Indexed.deleteObject (h : s.Indexed) (id : String) : (s.deleteObject id).Indexed := by
  refine ⟨?_, h.memories.erase id⟩
  have hdelete := h.chunks.delete id
  have hkept : (s.chunks.keep fun c ↦ c.documentId != id).keep (fun c ↦ c.documentId != id) =
      s.chunks.keep fun c ↦ c.documentId != id :=
    Table.keep_eq_self fun c hc ↦ (Iff.mp Table.mem_keep hc).2
  change ChunksIndexed (s.documents.erase id)
    ((s.chunks.keep fun c ↦ c.documentId != id).keep fun c ↦ c.documentId != id) _
  rw [hkept]
  exact hdelete.erase (s.notOwned_deleteChunks id)

theorem Indexed.applyIncoming (h : s.Indexed) {entry : SyncEntry}
    (hmirrored : entry.tombstone = false → ∀ payload ∈ entry.payload, s.Mirrored payload)
    (happly : s.applyIncoming entry = .ok t) : t.Indexed := by
  rw [Store.applyIncoming] at happly
  split_ifs at happly with htomb
  · obtain rfl := Except.ok.inj happly
    exact (h.deleteObject entry.object.id).congr rfl rfl rfl rfl rfl
  · obtain ⟨payload, hpayload, happly⟩ := Iff.mp Except.bind_ok_iff happly
    obtain ⟨u, hu, happly⟩ := Iff.mp Except.bind_ok_iff happly
    obtain rfl := Iff.mp Except.pure_ok_iff happly
    have hread := hmirrored (by simpa using htomb) payload (requirePayload_eq_ok hpayload)
    exact (h.applyPayload hread hu).congr rfl rfl rfl rfl rfl

/-- The entry is not applied, or deletes, or the index reads of it what the row holds. -/
def EntryMirrored (s : Store) (entry : SyncEntry) : Prop :=
  (s.replica.outcomeOf entry.stored).applies → entry.tombstone = false →
    ∀ payload ∈ entry.payload, s.Mirrored payload

/-- The entries of a bundle, each where the earlier ones have been imported. -/
def ImportMirrored (now : String) : Store × ApplyReport → List SyncEntry → Prop
  | _, [] => True
  | state, entry :: rest =>
      EntryMirrored state.1 entry ∧
        ∀ state', importEntry now state entry = .ok state' → ImportMirrored now state' rest

/-- What a call applies of another store can be read as it is stored. -/
def Mirrors (s : Store) : Operation → Prop
  | .importEntries _ entries upTo now =>
      ImportMirrored now (s, .start entries.length upTo) entries
  | .resolveConflict conflictId acceptRemote _ _ => acceptRemote = true →
      ∀ conflict ∈ s.conflicts.find? fun c ↦ c.conflictId = conflictId ∧ c.resolvedAt = none,
        s.Mirrored conflict.payload
  | _ => True

theorem Indexed.importEntry (h : s.Indexed) {now : String} {report report' : ApplyReport}
    {entry : SyncEntry} (hmirrored : s.EntryMirrored entry)
    (himport : importEntry now (s, report) entry = .ok (t, report')) : t.Indexed := by
  obtain ⟨conflicts, sequence, -, -, hresult⟩ := importEntry_eq_ok himport
  have hput : Indexed { s with conflicts := conflicts, conflictSequence := sequence } :=
    h.congr rfl rfl rfl rfl rfl
  split at hresult
  · rename_i happlies
    exact hput.applyIncoming
      (fun htomb payload hpayload ↦ hmirrored happlies htomb payload hpayload) hresult
  · rw [hresult]
    exact hput

theorem Indexed.importEntries (h : s.Indexed) {now : String} {entries : List SyncEntry}
    {report report' : ApplyReport} (hmirrored : ImportMirrored now (s, report) entries)
    (himport : entries.foldlM (Store.importEntry now) (s, report) = .ok (t, report')) :
    t.Indexed := by
  induction entries generalizing s report with
  | nil =>
      obtain ⟨rfl, -⟩ := Prod.mk.inj (Iff.mp List.foldlM_nil_ok_iff himport)
      exact h
  | cons entry rest ih =>
      obtain ⟨⟨u, report''⟩, hu, hrest⟩ := Iff.mp List.foldlM_cons_ok_iff himport
      exact ih (h.importEntry hmirrored.1 hu) (hmirrored.2 _ hu) hrest

theorem title_content_mergedMemory (t : Table MemoryRow.id) (row : MemoryRow) :
    (mergedMemory t row).title = row.title ∧ (mergedMemory t row).content = row.content := by
  rw [mergedMemory]
  split <;> exact ⟨rfl, rfl⟩

theorem Indexed.writeMemory (h : s.Indexed) {call : MemoryCall} {row : MemoryRow}
    (hwrite : s.writeMemory codec call row = .ok t) : t.Indexed := by
  obtain ⟨-, -, rfl⟩ := writeMemory_cases hwrite
  have hsuperseded : (s.superseded call row).Indexed := by
    rcases s.superseded_cases call row with hsame | ⟨previous, -, heq⟩
    · rwa [hsame]
    · rw [heq]
      exact ⟨h.chunks, h.memories.retire (show "superseded" ≠ "active" by decide)⟩
  have hreplaced := hsuperseded.memories.replace
    (mergedMemory (s.superseded call row).memories row)
  rw [id_mergedMemory, (title_content_mergedMemory _ row).1,
    (title_content_mergedMemory _ row).2] at hreplaced
  exact ⟨hsuperseded.chunks, hreplaced⟩

theorem Indexed.rememberInTransaction (h : s.Indexed) {call : MemoryCall} {input : MemoryInput}
    {axes : MemoryAxes} {id : String}
    (hremember : s.rememberInTransaction codec call input axes = .ok (t, id)) : t.Indexed := by
  obtain ⟨valid, existingAcl, hremembered⟩ := rememberInTransaction_cases hremember
  rcases hremembered.written with ⟨-, rfl⟩ | ⟨-, -, -, hwrite⟩
  · exact h
  · exact h.writeMemory hwrite

theorem Indexed.forgetMemoryScoped (h : s.Indexed) {call : MemoryCall} {id : String} {found : Bool}
    (hforget : s.forgetMemoryScoped codec call id = .ok (t, found)) : t.Indexed := by
  rcases forgetMemoryScoped_eq_ok hforget with ⟨-, rfl, -⟩ | ⟨memory, hactive, -, rfl⟩
  · exact h
  · have hretired : (retracted memory call.now).status ≠ "active" :=
      show "retracted" ≠ "active" by decide
    refine ⟨h.chunks, (h.memories.retire hretired).drop ?_⟩
    intro m hm
    have hid : memory.id = id := Table.key_of_get (Iff.mp activeMemory_eq_some hactive).1
    rw [← hid, show memory.id = (retracted memory call.now).id from rfl,
      Table.get_put_self] at hm
    rwa [← Option.some.inj hm]

/-! ## Runs -/

theorem Indexed.step (h : s.Indexed) {op : Operation} (hmirrors : s.Mirrors op)
    (hstep : s.Step codec op t) : t.Indexed := by
  rw [Step] at hstep
  cases op with
  | upsert document chunks now =>
      obtain ⟨⟨u, written⟩, hu, rfl⟩ := Iff.mp Except.map_ok_iff hstep
      rcases upsert_eq_ok hu with ⟨-, rfl, -⟩ | ⟨-, -, hwrite⟩
      · exact h
      · refine h.writeDocument (fun c hc ↦ ?_) hwrite
        obtain ⟨p, -, rfl⟩ := List.mem_map.mp hc
        rfl
  | upsertStructured document chunks now =>
      obtain ⟨⟨u, written⟩, hu, rfl⟩ := Iff.mp Except.map_ok_iff hstep
      rcases upsertStructured_eq_ok hu with ⟨-, rfl, -⟩ | ⟨-, -, hwrite⟩
      · exact h
      · refine h.writeDocument (fun c hc ↦ ?_) hwrite
        obtain ⟨p, -, rfl⟩ := List.mem_map.mp hc
        rfl
  | insertEvaluationCorpus documents embedding =>
      rw [perform, insertEvaluationCorpus] at hstep
      split_ifs at hstep
      refine List.foldlM_preserves (P := Indexed) ?_ h hstep
      exact fun document _ u u' hu hinsert ↦ hu.insertEvaluationDocument hinsert
  | refreshTimestamp document =>
      obtain rfl := Except.ok.inj hstep
      rcases refreshTimestamp_cases codec s document with hsame | ⟨row, hrow, -, heq⟩
      · rwa [hsame]
      · rw [heq]
        have hget : s.documents.get row.id = some row := by rwa [Table.key_of_get hrow]
        have hchunks : ChunksIndexed (s.documents.put { row with updatedAt := document.updatedAt })
            s.chunks s.chunksFts := h.chunks.retitle hget rfl
        exact ⟨hchunks, h.memories⟩
  | reconcile source project seenSourceIds now =>
      obtain ⟨⟨u, n⟩, hu, rfl⟩ := Iff.mp Except.map_ok_iff hstep
      obtain ⟨v, hv, rfl⟩ := reconcile_eq_ok hu
      have hloop : v.Indexed := by
        refine List.foldlM_preserves (P := Indexed) ?_ h hv
        exact fun id _ u u' hu hremove ↦ hu.removeStale hremove
      split
      · exact hloop
      · exact hloop.congr rfl rfl rfl rfl rfl
  | backfillProjectAcls mappings =>
      obtain ⟨⟨u, n⟩, hu, rfl⟩ := Iff.mp Except.map_ok_iff hstep
      obtain ⟨v, hv, rfl⟩ := backfillProjectAcls_eq_ok hu
      have hloop : v.Indexed := by
        refine List.foldlM_preserves (P := fun state : Store × ℕ ↦ state.1.Indexed) ?_ h hv
        rintro mapping _ ⟨u, m⟩ ⟨u', m'⟩ hu hmapping
        obtain ⟨aclJson, rfl, -⟩ := backfillProjectAcl_eq_ok hmapping
        refine ⟨hu.chunks.congr_documents fun c _ ↦ ?_, hu.memories⟩
        rw [Table.get_modify, Option.map_map]
        exact congrArg (Option.map · _) (funext (title_setAcl mapping.1 aclJson))
      split
      · exact hloop.congr rfl rfl rfl rfl rfl
      · exact hloop
  | beginEmbeddingRebuild oldGeneration newGeneration =>
      obtain ⟨⟨u, n⟩, hu, rfl⟩ := Iff.mp Except.map_ok_iff hstep
      obtain rfl := beginEmbeddingRebuild_eq_ok hu
      exact h.congr rfl rfl rfl rfl rfl
  | stageEmbeddingRebuild vectors =>
      obtain ⟨rebuild, rfl, -⟩ := stageEmbeddingRebuild_eq_ok hstep
      exact h.congr rfl rfl rfl rfl rfl
  | commitEmbeddingRebuild oldGeneration newGeneration =>
      obtain ⟨⟨u, n⟩, hu, rfl⟩ := Iff.mp Except.map_ok_iff hstep
      obtain ⟨staged, -, -, rfl⟩ := commitEmbeddingRebuild_eq_ok hu
      exact ⟨h.chunks.modify
        (fun c ↦ { c with embedding := (staged.get c.id).map StagedVector.embedding })
        (fun _ ↦ rfl) (fun _ ↦ rfl) (fun _ ↦ rfl), h.memories⟩
  | remember call input axes =>
      obtain ⟨⟨u, id⟩, hu, rfl⟩ := Iff.mp Except.map_ok_iff hstep
      exact h.rememberInTransaction (rememberScopedWithAxes_eq_ok hu)
  | forget call id =>
      obtain ⟨⟨u, found⟩, hu, rfl⟩ := Iff.mp Except.map_ok_iff hstep
      exact h.forgetMemoryScoped hu
  | promote call candidate report =>
      have hpromote : s.promoteCandidate codec call candidate report = .ok t := hstep
      rcases promoteCandidate_eq_ok hpromote with rfl | ⟨axes, id, -, hremember⟩
      · exact h
      · exact h.rememberInTransaction hremember
  | acknowledge peer ack =>
      obtain rfl := Except.ok.inj hstep
      exact h.congr rfl rfl rfl rfl rfl
  | compact =>
      obtain rfl := Except.ok.inj hstep
      exact h.congr rfl rfl rfl rfl rfl
  | importEntries peer entries upTo now =>
      obtain ⟨⟨u, report⟩, hu, rfl⟩ := Iff.mp Except.map_ok_iff hstep
      obtain ⟨v, hv, rfl⟩ := syncImportEntries_eq_ok hu
      exact (h.importEntries hmirrors hv).congr rfl rfl rfl rfl rfl
  | resolveConflict conflictId acceptRemote now changedAt =>
      obtain ⟨u, conflicts, -, rfl, hu⟩ := syncResolveConflict_eq_ok hstep
      rcases hu with ⟨-, rfl⟩ | ⟨conflict, hfind, v, haccept, hv, rfl⟩
      · exact h.congr rfl rfl rfl rfl rfl
      · exact (h.applyPayload (hmirrors haccept conflict hfind) hv).congr rfl rfl rfl rfl rfl

/-- In every state that is reached from a new store, by calls that can read what
they apply of another store as it is stored, the full-text index holds the
chunks with the titles of their documents, and each active memory once as it is
now, and nothing of what is gone. -/
theorem fullText_mirrors (device : Option String) (hrun : Run codec Mirrors (adopted device) t) :
    t.chunksFts.Perm (t.chunks.rows.map (chunkEntry t.documents)) ∧
      (∀ c ∈ t.chunks.rows, (t.documents.get c.documentId).isSome) ∧
      (∀ m ∈ t.memories.rows, m.status = "active" →
        t.memoriesFts.filter (fun f ↦ f.memoryId = m.id) = [⟨m.id, m.title, m.content⟩]) ∧
      ∀ f ∈ t.memoriesFts, (t.memories.get f.memoryId).isSome := by
  have hindexed : t.Indexed :=
    hrun.preserves (fun _ _ _ hs hok hstep ↦ hs.step hok hstep) (indexed_adopted device)
  exact ⟨.of_eq hindexed.chunks.rows, hindexed.chunks.owned, hindexed.memories.active,
    hindexed.memories.stored⟩

/-! ## A memory that is called 2026 -/

/-- A memory of another device. -/
def remoteMemory : MemoryRow where
  id := "m1"
  kind := "semantic"
  contentType := "semantic"
  retentionTier := "durable"
  scope := "workspace"
  project := "work"
  title := "2026"
  content := "tea"
  source := "chat"
  sourceId := "m1"
  dedupeKey := none
  confidence := 0x3FF0000000000000
  importance := 0x3FE0000000000000
  status := "active"
  aclJson := "[]"
  provenanceJson := "null"
  observedAt := "2026-01-01T00:00:00+00:00"
  validFrom := "2026-01-01T00:00:00+00:00"
  validUntil := none
  supersedesId := none
  createdAt := "2026-01-01T00:00:00+00:00"
  updatedAt := "2026-01-01T00:00:00+00:00"

/-- The entry that brings it, with its title as a string or as a number. -/
def memoryEntry (titled : Bool) : SyncEntry where
  journalId := 1
  object := ⟨.memory, "m1"⟩
  revision := 1
  origin := "desk"
  fingerprint := "sha256:1"
  tombstone := false
  changedAt := "2026-01-01T00:00:00+00:00"
  payload := some ⟨.memory remoteMemory, ⟨true, titled, true⟩⟩

/-- A title that arrives as a number is stored and not indexed. -/
theorem fullText_misread :
    ¬∀ t, Run .sample (fun _ _ ↦ True) (adopted none) t →
      ∀ m ∈ t.memories.rows, m.status = "active" →
        t.memoriesFts.filter (fun f ↦ f.memoryId = m.id) = [⟨m.id, m.title, m.content⟩] := by
  intro h
  obtain ⟨t, ht, hvalues⟩ := exists_of_performAll .sample (adopted none)
    [.importEntries "desk" [memoryEntry false] 1 "2026-01-02T00:00:00+00:00"]
    (fun t ↦ (t.memories.rows, t.memoriesFts)) (a := ([remoteMemory], [⟨"m1", "", "tea"⟩]))
    (by decide +kernel)
  obtain ⟨hrows, hfts⟩ := Prod.mk.inj hvalues
  have hindexed := h t (run_of_performAll (fun _ _ _ ↦ trivial) ht) remoteMemory
    (by rw [hrows]; exact List.mem_cons_self) rfl
  rw [hfts] at hindexed
  exact absurd hindexed (by decide)

theorem fullText_mirrors_note :
    ∃ t, (adopted none).performAll .sample
        [.upsert (note "menu.md" "tea") [("tea", [])] "2026-01-01T00:00:00+00:00",
          .importEntries "desk" [memoryEntry true] 1 "2026-01-02T00:00:00+00:00",
          .forget (ownerCall "") "m1",
          .upsert (note "menu.md" "hot tea") [("hot", []), ("tea", [])]
            "2026-01-03T00:00:00+00:00"] = .ok t ∧
      t.chunks.rows.length = 2 ∧ t.memories.rows.length = 1 ∧ t.memoriesFts = [] ∧
      t.chunksFts.Perm (t.chunks.rows.map (chunkEntry t.documents)) := by
  obtain ⟨t, ht, hlength⟩ := exists_of_performAll .sample (adopted none)
    [.upsert (note "menu.md" "tea") [("tea", [])] "2026-01-01T00:00:00+00:00",
      .importEntries "desk" [memoryEntry true] 1 "2026-01-02T00:00:00+00:00",
      .forget (ownerCall "") "m1",
      .upsert (note "menu.md" "hot tea") [("hot", []), ("tea", [])] "2026-01-03T00:00:00+00:00"]
    (fun t ↦ (t.chunks.rows.length, t.memories.rows.length, t.memoriesFts)) (a := (2, 1, []))
    (by decide +kernel)
  obtain ⟨hchunks, hmemories⟩ := Prod.mk.inj hlength
  have hread : ∀ s : Store, s.EntryMirrored (memoryEntry true) := by
    rintro s - - payload ⟨⟩
    exact ⟨rfl, fun _ ↦ ⟨rfl, rfl⟩⟩
  have hmirrors : ∀ op ∈ ([.upsert (note "menu.md" "tea") [("tea", [])] "2026-01-01T00:00:00+00:00",
      .importEntries "desk" [memoryEntry true] 1 "2026-01-02T00:00:00+00:00",
      .forget (ownerCall "") "m1", .upsert (note "menu.md" "hot tea") [("hot", []), ("tea", [])]
        "2026-01-03T00:00:00+00:00"] : List Operation), ∀ s : Store, s.Mirrors op := by
    simp [Mirrors, ImportMirrored, hread]
  exact ⟨t, ht, hchunks, (Prod.mk.inj hmemories).1, (Prod.mk.inj hmemories).2,
    (fullText_mirrors none (run_of_performAll hmirrors ht)).1⟩

end Store

end Cortana
