import Cortana.Store.Operations
import Cortana.Sync.Steps

/-!
# Links and code indexes

`document_links` and `code_indexes` are derived from the metadata and the
content of a document.  Local ingestion rebuilds both by hand; the import of a
bundle writes the same rows of `documents` and leaves them alone.
-/

namespace Cortana

open Replication

/-! ## References in metadata -/

/-- The bound on the references of one document. -/
def maxReferences : ℕ := 256

/-- `collect_reference_values`; the set is a list without repetitions. -/
def collectReferenceValues (value : Value) (values : List String) : List String :=
  if maxReferences ≤ values.length then values
  else
    match value with
    | .string text => if text ≠ "" ∧ text.utf8ByteSize ≤ 4096 then values.insert text else values
    | .array items => collectItems items values
    | .object members => collectMembers members values
    | _ => values
where
  collectItems : List Value → List String → List String
    | [], values => values
    | item :: rest, values => collectItems rest (collectReferenceValues item values)
  collectMembers : List (String × Value) → List String → List String
    | [], values => values
    | (_, item) :: rest, values => collectMembers rest (collectReferenceValues item values)

/-- `to_ascii_lowercase`. -/
def asciiLowercase (text : String) : String :=
  String.ofList (text.toList.map fun c ↦ if 'A' ≤ c ∧ c ≤ 'Z' then Char.ofNat (c.toNat + 32) else c)

/-- `is_reference_metadata_key`. -/
def isReferenceMetadataKey (key : String) : Bool :=
  ["uri", "url", "link", "links", "ref", "refs", "reference", "references", "related", "source_id",
    "document_id", "parent_uri", "parent_id"].contains (asciiLowercase key)

/-- `collect_metadata_reference_strings`. -/
def collectMetadataReferenceStrings (value : Value) (values : List String) : List String :=
  if maxReferences ≤ values.length then values
  else
    match value with
    | .array items => collectItems items values
    | .object members => collectMembers members values
    | _ => values
where
  collectItems : List Value → List String → List String
    | [], values => values
    | item :: rest, values => collectItems rest (collectMetadataReferenceStrings item values)
  collectMembers : List (String × Value) → List String → List String
    | [], values => values
    | (key, item) :: rest, values =>
        collectMembers rest
          (if isReferenceMetadataKey key then collectReferenceValues item values
          else collectMetadataReferenceStrings item values)

/-- `metadata_reference_strings`. -/
def metadataReferenceStrings (value : Value) : List String :=
  (collectMetadataReferenceStrings value []).insertionSort (· ≤ ·)

example : metadataReferenceStrings (.object [("Links", .array [.string "b", .string "a"]),
    ("note", .string "c"), ("part", .object [("uri", .string "b")])]) = ["a", "b"] := by
  decide +kernel

/-! ## The store with its links -/

/-- A store with the rows of `document_links`: a document and a target. -/
structure LinkedStore where
  store : Store
  documentLinks : List (String × String)

namespace LinkedStore

def adopted (device : Option String) : LinkedStore := ⟨Store.adopted device, []⟩

/-- A statement on the other tables; the links of a document that it deletes go
with the document. -/
def cascade (l : LinkedStore) (t : Store) : LinkedStore where
  store := t
  documentLinks := l.documentLinks.filter fun link ↦
    (l.store.documents.get link.1).isNone || (t.documents.get link.1).isSome

/-- Links are compared as they are. -/
local instance lawfulBEqLink : LawfulBEq (String × String) := inferInstance

/-- `INSERT OR IGNORE` for each reference of a document. -/
def insertLinks (links : List (String × String)) (id : String) (document : Document) :
    List (String × String) :=
  ((metadataReferenceStrings document.metadata).map fun target ↦ (id, target)).foldl
    (fun links link ↦ if link ∈ links then links else links ++ [link]) links

/-- The links after `upsert` or `upsert_structured`: only a document that is
written gets new ones. -/
def upserted (codec : Codec) (l : LinkedStore) (document : Document) (result : Store × Bool) :
    LinkedStore where
  store := result.1
  documentLinks :=
    if result.2 then
      let id := stableId codec document.source document.sourceId
      insertLinks (l.documentLinks.filter fun link ↦ link.1 ≠ id) id document
    else l.documentLinks

/-- One document of `insert_evaluation_corpus`. -/
def insertEvaluationDocument (codec : Codec) (embedding : Embedding) (l : LinkedStore)
    (document : Document) : Except String LinkedStore :=
  (Store.insertEvaluationDocument codec embedding l.store document).map fun t ↦
    ⟨t, insertLinks l.documentLinks (stableId codec document.source document.sourceId) document⟩

/-- One deletion of `reconcile`. -/
def removeStale (codec : Codec) (now : String → String) (l : LinkedStore) (id : String) :
    Except String LinkedStore :=
  (Store.removeStale codec now l.store id).map l.cascade

/-- One entry of `sync_import_entries`. -/
def importEntry (now : String) (state : LinkedStore × ApplyReport) (entry : SyncEntry) :
    Except String (LinkedStore × ApplyReport) :=
  (Store.importEntry now (state.1.store, state.2) entry).map fun result ↦
    (state.1.cascade result.1, result.2)

/-- A call of a public operation, with what it does to the links. -/
def perform (codec : Codec) (l : LinkedStore) : Store.Operation → Except String LinkedStore
  | .upsert document chunks now =>
      (l.store.upsert codec document chunks now).map (l.upserted codec document)
  | .upsertStructured document chunks now =>
      (l.store.upsertStructured codec document chunks now).map (l.upserted codec document)
  | .insertEvaluationCorpus documents embedding =>
      if embedding = [] then .error "evaluation embedding is empty"
      else documents.foldlM (insertEvaluationDocument codec embedding) l
  | .reconcile source project seenSourceIds now => do
      let stale := l.store.staleDocuments source project seenSourceIds
      let l ← stale.foldlM (removeStale codec now) l
      return { l with store := if stale = [] then l.store else l.store.bumpCorpusRevision }
  | .importEntries peer entries upTo now => do
      let (l, _) ← entries.foldlM (importEntry now) (l, .start entries.length upTo)
      let store := { l.store with watermarks := l.store.watermarks.markImported peer upTo }
      return { l with store := store.syncCompact }
  | op => (l.store.perform codec op).map l.cascade

/-- A call that succeeds. -/
def Step (codec : Codec) (l : LinkedStore) (op : Store.Operation) (m : LinkedStore) : Prop :=
  l.perform codec op = .ok m

/-! ## The links do not influence the store -/

theorem store_perform (codec : Codec) (l : LinkedStore) (op : Store.Operation) :
    (l.perform codec op).map LinkedStore.store = l.store.perform codec op := by
  have hmap : ∀ {α : Type} (x : Except String α) (f : α → LinkedStore),
      (x.map f).map LinkedStore.store = x.map fun a ↦ (f a).store := by
    intro α x f
    cases x <;> rfl
  have hcascade : ∀ x : Except String Store, (x.map l.cascade).map LinkedStore.store = x := by
    intro x
    cases x <;> rfl
  cases op with
  | upsert document chunks now => exact hmap _ _
  | upsertStructured document chunks now => exact hmap _ _
  | insertEvaluationCorpus documents embedding =>
      rw [perform, Store.perform, Store.insertEvaluationCorpus]
      split_ifs with hempty
      · rfl
      · refine List.foldlM_project (fun m document ↦ ?_) documents l
        cases h : Store.insertEvaluationDocument codec embedding m.store document <;>
          simp [insertEvaluationDocument, h, Except.map]
  | reconcile source project seenSourceIds now =>
      have hloop := List.foldlM_project (π := LinkedStore.store) (f := removeStale codec now)
        (g := Store.removeStale codec now) (fun m id ↦ by
          cases h : Store.removeStale codec now m.store id <;>
            simp [removeStale, h, Except.map, cascade])
        (l.store.staleDocuments source project seenSourceIds) l
      rw [perform, Store.perform, Store.reconcile, ← hloop]
      cases (l.store.staleDocuments source project seenSourceIds).foldlM (removeStale codec now) l
        <;> rfl
  | importEntries peer entries upTo now =>
      have hloop := List.foldlM_project (π := fun r : LinkedStore × ApplyReport ↦ (r.1.store, r.2))
        (f := importEntry now) (g := Store.importEntry now) (fun r entry ↦ by
          cases h : Store.importEntry now (r.1.store, r.2) entry <;>
            simp [importEntry, h, Except.map, cascade])
        entries (l, .start entries.length upTo)
      rw [perform, Store.perform, Store.syncImportEntries, ← hloop]
      cases entries.foldlM (importEntry now) (l, .start entries.length upTo) <;> rfl
  | refreshTimestamp document => rfl
  | backfillProjectAcls mappings => exact hcascade _
  | beginEmbeddingRebuild oldGeneration newGeneration => exact hcascade _
  | stageEmbeddingRebuild vectors => exact hcascade _
  | commitEmbeddingRebuild oldGeneration newGeneration => exact hcascade _
  | remember call input axes => exact hcascade _
  | forget call id => exact hcascade _
  | promote call candidate report => exact hcascade _
  | acknowledge peer ack => rfl
  | compact => rfl
  | resolveConflict conflictId acceptRemote now changedAt => exact hcascade _

/-! ## Derived rows -/

variable {codec : Codec}

/-- The derived tables hold, for a row of `documents`, the references of its
metadata and the parse of its content. -/
def Derives (codec : Codec) (codeIndexes : Table CodeIndexRow.documentId)
    (links : List (String × String)) (row : DocumentRow) : Prop :=
  ∃ document : Document, document.sourceId = row.sourceId ∧ document.content = row.content ∧
    codec.jsonText document.metadata = row.metadataJson ∧
    (∀ target, (row.id, target) ∈ links ↔ target ∈ metadataReferenceStrings document.metadata) ∧
    (codeIndexes.get row.id).map CodeIndexRow.outputJson =
      if document.metadata.containsKey "code" then some (codec.parseOutput document) else none

theorem Derives.congr {codeIndexes codeIndexes' : Table CodeIndexRow.documentId}
    {links links' : List (String × String)} {row row' : DocumentRow}
    (h : Derives codec codeIndexes links row) (hid : row'.id = row.id)
    (hsourceId : row'.sourceId = row.sourceId) (hcontent : row'.content = row.content)
    (hmetadata : row'.metadataJson = row.metadataJson)
    (hcode : codeIndexes'.get row.id = codeIndexes.get row.id)
    (hlinks : ∀ target, (row.id, target) ∈ links' ↔ (row.id, target) ∈ links) :
    Derives codec codeIndexes' links' row' := by
  obtain ⟨document, hd, hc, hm, htargets, hindex⟩ := h
  refine ⟨document, hd.trans hsourceId.symm, hc.trans hcontent.symm, hm.trans hmetadata.symm, ?_, ?_⟩
  · intro target
    rw [hid, hlinks, htargets]
  · rw [hid, hcode, hindex]

/-- Every document has its own derived rows, and no derived row is left of a
document that is gone. -/
structure Derived (codec : Codec) (documents : Table DocumentRow.id)
    (codeIndexes : Table CodeIndexRow.documentId) (links : List (String × String)) : Prop where
  rows : ∀ row ∈ documents.rows, Derives codec codeIndexes links row
  links : ∀ link ∈ links, (documents.get link.1).isSome
  codeIndexes : ∀ index ∈ codeIndexes.rows, (documents.get index.documentId).isSome

namespace Derived

variable {documents : Table DocumentRow.id} {codeIndexes codeIndexes' : Table CodeIndexRow.documentId}
  {links links' : List (String × String)}

/-- Writing a document whose derived rows are as they should be, when those of
other documents stay. -/
theorem put (h : Derived codec documents codeIndexes links) {row : DocumentRow}
    (hrow : Derives codec codeIndexes' links' row)
    (hcode : ∀ id, id ≠ row.id → codeIndexes'.get id = codeIndexes.get id)
    (hlinks : ∀ link, link.1 ≠ row.id → (link ∈ links' ↔ link ∈ links)) :
    Derived codec (documents.put row) codeIndexes' links' := by
  constructor
  · intro other hother
    rcases Iff.mp Table.mem_put hother with rfl | ⟨hold, hne⟩
    · exact hrow
    · exact (h.rows other hold).congr rfl rfl rfl rfl (hcode other.id hne)
        fun target ↦ hlinks (other.id, target) hne
  · intro link hlink
    rw [Table.get_put]
    split_ifs with hid
    · rfl
    · exact h.links link (Iff.mp (hlinks link hid) hlink)
  · intro index hindex
    rw [Table.get_put]
    split_ifs with hid
    · rfl
    · have hget : codeIndexes'.get index.documentId = some index :=
        Iff.mpr Table.get_eq_some_iff ⟨hindex, rfl⟩
      rw [hcode _ hid] at hget
      exact h.codeIndexes index (Iff.mp Table.get_eq_some_iff hget).1

/-- Deleting a document with its derived rows. -/
theorem erase (h : Derived codec documents codeIndexes links) (id : String)
    (hlinks : ∀ link, link ∈ links' ↔ link ∈ links ∧ link.1 ≠ id) :
    Derived codec (documents.erase id) (codeIndexes.erase id) links' := by
  constructor
  · intro row hrow
    obtain ⟨hrow, hne⟩ := Iff.mp Table.mem_erase hrow
    refine (h.rows row hrow).congr rfl rfl rfl rfl ?_ ?_
    · rw [Table.get_erase, if_neg hne]
    · intro target
      rw [hlinks]
      exact and_iff_left hne
  · intro link hlink
    obtain ⟨hold, hne⟩ := Iff.mp (hlinks link) hlink
    rw [Table.get_erase, if_neg hne]
    exact h.links link hold
  · intro index hindex
    obtain ⟨hold, hne⟩ := Iff.mp Table.mem_erase hindex
    rw [Table.get_erase, if_neg hne]
    exact h.codeIndexes index hold

/-- Changes to columns that nothing is derived from. -/
theorem modify (h : Derived codec documents codeIndexes links) (f : DocumentRow → DocumentRow)
    (hid : ∀ row, (f row).id = row.id) (hsourceId : ∀ row, (f row).sourceId = row.sourceId)
    (hcontent : ∀ row, (f row).content = row.content)
    (hmetadata : ∀ row, (f row).metadataJson = row.metadataJson) :
    Derived codec (documents.modify f hid) codeIndexes links := by
  have hget : ∀ id, ((documents.modify f hid).get id).isSome = (documents.get id).isSome := by
    intro id
    rw [Table.get_modify, Option.isSome_map]
  constructor
  · intro row hrow
    obtain ⟨old, hold, rfl⟩ := List.mem_map.mp hrow
    exact (h.rows old hold).congr (hid old) (hsourceId old) (hcontent old) (hmetadata old) rfl
      fun _ ↦ Iff.rfl
  · intro link hlink
    rw [hget]
    exact h.links link hlink
  · intro index hindex
    rw [hget]
    exact h.codeIndexes index hindex

end Derived

/-- The derived tables of a store follow its documents. -/
def Current (codec : Codec) (l : LinkedStore) : Prop :=
  Derived codec l.store.documents l.store.codeIndexes l.documentLinks

theorem current_adopted (device : Option String) : (adopted device).Current codec := by
  constructor <;> simp [adopted, Store.adopted, Table.empty]

/-! ## Parts of the operations -/

/-- `INSERT OR IGNORE` adds what is missing. -/
theorem mem_foldl_insertOrIgnore {links news : List (String × String)} {link : String × String} :
    link ∈ news.foldl (fun links link ↦ if link ∈ links then links else links ++ [link]) links ↔
      link ∈ links ∨ link ∈ news := by
  induction news generalizing links with
  | nil => simp
  | cons new rest ih =>
      rw [List.foldl_cons, ih, List.mem_cons]
      split_ifs with hold
      · constructor
        · rintro (hlink | hrest)
          · exact Or.inl hlink
          · exact Or.inr (Or.inr hrest)
        · rintro (hlink | rfl | hrest)
          · exact Or.inl hlink
          · exact Or.inl hold
          · exact Or.inr hrest
      · rw [List.mem_append, List.mem_singleton, or_assoc]

theorem mem_insertLinks {links : List (String × String)} {id : String} {document : Document}
    {link : String × String} :
    link ∈ insertLinks links id document ↔
      link ∈ links ∨ link.1 = id ∧ link.2 ∈ metadataReferenceStrings document.metadata := by
  rw [insertLinks, mem_foldl_insertOrIgnore, List.mem_map]
  constructor
  · rintro (hlink | ⟨target, htarget, rfl⟩)
    · exact Or.inl hlink
    · exact Or.inr ⟨rfl, htarget⟩
  · rintro (hlink | ⟨rfl, htarget⟩)
    · exact Or.inl hlink
    · exact Or.inr ⟨link.2, htarget, rfl⟩

/-- No document is deleted: the links stay. -/
theorem documentLinks_cascade_of_isSome {l : LinkedStore} {t : Store}
    (h : ∀ id, (l.store.documents.get id).isSome → (t.documents.get id).isSome) :
    (l.cascade t).documentLinks = l.documentLinks := by
  refine List.filter_eq_self.mpr fun link _ ↦ ?_
  cases hget : l.store.documents.get link.1 with
  | none => rfl
  | some row => simp [h link.1 (by simp [hget])]

/-- A document is deleted, and its links with it. -/
theorem mem_documentLinks_cascade_erase {l : LinkedStore} (hl : l.Current codec) {t : Store}
    {id : String} (ht : t.documents = l.store.documents.erase id) (link : String × String) :
    link ∈ (l.cascade t).documentLinks ↔ link ∈ l.documentLinks ∧ link.1 ≠ id := by
  rw [cascade, List.mem_filter]
  refine and_congr_right fun hlink ↦ ?_
  obtain ⟨row, hrow⟩ := Option.isSome_iff_exists.mp (hl.links link hlink)
  rw [ht, Table.get_erase, hrow]
  split_ifs with hid
  · simp [hid]
  · simp [hid]

theorem Current.cascade_congr {l : LinkedStore} (hl : l.Current codec) {t : Store}
    (hdocuments : t.documents = l.store.documents)
    (hcodeIndexes : t.codeIndexes = l.store.codeIndexes) : (l.cascade t).Current codec := by
  have hlinks : (l.cascade t).documentLinks = l.documentLinks :=
    documentLinks_cascade_of_isSome fun id hid ↦ by rwa [hdocuments]
  rw [Current, hlinks]
  change Derived codec t.documents t.codeIndexes l.documentLinks
  rw [hdocuments, hcodeIndexes]
  exact hl

theorem Current.cascade_put {l : LinkedStore} (hl : l.Current codec) {t : Store} {row : DocumentRow}
    (hdocuments : t.documents = l.store.documents.put row)
    (hcodeIndexes : t.codeIndexes = l.store.codeIndexes)
    (hrow : Derives codec l.store.codeIndexes l.documentLinks row) :
    (l.cascade t).Current codec := by
  have hlinks : (l.cascade t).documentLinks = l.documentLinks := by
    refine documentLinks_cascade_of_isSome fun id hid ↦ ?_
    rw [hdocuments, Table.get_put]
    split_ifs
    · rfl
    · exact hid
  rw [Current, hlinks]
  change Derived codec t.documents t.codeIndexes l.documentLinks
  rw [hdocuments, hcodeIndexes]
  exact hl.put hrow (fun _ _ ↦ rfl) fun _ _ ↦ Iff.rfl

theorem Current.cascade_erase {l : LinkedStore} (hl : l.Current codec) {t : Store} {id : String}
    (hdocuments : t.documents = l.store.documents.erase id)
    (hcodeIndexes : t.codeIndexes = l.store.codeIndexes.erase id) :
    (l.cascade t).Current codec := by
  have herase := Derived.erase hl id (mem_documentLinks_cascade_erase hl hdocuments)
  rw [Current]
  change Derived codec t.documents t.codeIndexes _
  rw [hdocuments, hcodeIndexes]
  exact herase

/-- `replace_code_index` leaves the row of the document, or none. -/
theorem get_replaceCodeIndex (s : Store) (id : String) (document : Document) :
    ((s.replaceCodeIndex codec id document).codeIndexes.get id).map CodeIndexRow.outputJson =
      if document.metadata.containsKey "code" then some (codec.parseOutput document) else none := by
  rw [Store.replaceCodeIndex]
  split_ifs
  · exact congrArg (Option.map CodeIndexRow.outputJson)
      (Table.get_put_self _ (⟨id, codec.parseOutput document⟩ : CodeIndexRow))
  · rw [Table.get_erase, if_pos rfl, Option.map_none]

theorem get_replaceCodeIndex_of_ne (s : Store) {id id' : String} (document : Document)
    (h : id' ≠ id) :
    (s.replaceCodeIndex codec id document).codeIndexes.get id' = s.codeIndexes.get id' := by
  rw [Store.replaceCodeIndex]
  split_ifs
  · rw [Table.get_put_of_ne h, Table.get_erase, if_neg h]
  · rw [Table.get_erase, if_neg h]

theorem replaceCodeIndex_congr {s u : Store} (h : u.codeIndexes = s.codeIndexes) (id : String)
    (document : Document) :
    (u.replaceCodeIndex codec id document).codeIndexes =
      (s.replaceCodeIndex codec id document).codeIndexes := by
  rw [Store.replaceCodeIndex, Store.replaceCodeIndex, h]
  split_ifs <;> rfl

theorem writeDocument_derived {s t : Store} {document : Document} {chunks : List ChunkRow}
    {now : String} (h : s.writeDocument codec document chunks now = .ok t) :
    t.documents = s.documents.put (s.writtenDocument codec document) ∧
      t.codeIndexes = (s.replaceCodeIndex codec
        (stableId codec document.source document.sourceId) document).codeIndexes := by
  obtain ⟨used, u, -, -, hu, rfl⟩ := Store.writeDocument_cases h
  obtain ⟨chunks, chunksFts, hu⟩ := Store.insertChunks_eq_ok hu
  have hcodes : u.codeIndexes = s.codeIndexes := by
    rw [hu]
    rfl
  constructor
  · obtain ⟨codeIndexes, hcode⟩ := Store.replaceCodeIndex_eq codec u
      (stableId codec document.source document.sourceId) document
    rw [hcode, hu]
    rfl
  · exact replaceCodeIndex_congr hcodes (stableId codec document.source document.sourceId) document

/-- A document, its links and its code index are written together. -/
theorem Current.written {l : LinkedStore} (hl : l.Current codec) {document : Document}
    {row : DocumentRow} {t : Store} {links : List (String × String)}
    (hsourceId : document.sourceId = row.sourceId) (hcontent : document.content = row.content)
    (hmetadata : codec.jsonText document.metadata = row.metadataJson)
    (hdocuments : t.documents = l.store.documents.put row)
    (hcodeIndexes : t.codeIndexes = (l.store.replaceCodeIndex codec row.id document).codeIndexes)
    (hlinks : ∀ link, link ∈ links ↔ link.1 ≠ row.id ∧ link ∈ l.documentLinks ∨
      link.1 = row.id ∧ link.2 ∈ metadataReferenceStrings document.metadata) :
    Current codec ⟨t, links⟩ := by
  have hrow : Derives codec (l.store.replaceCodeIndex codec row.id document).codeIndexes links
      row := by
    refine ⟨document, hsourceId, hcontent, hmetadata, fun target ↦ ?_, ?_⟩
    · simp [hlinks]
    · exact get_replaceCodeIndex l.store row.id document
  rw [Current]
  change Derived codec t.documents t.codeIndexes links
  rw [hdocuments, hcodeIndexes]
  refine Derived.put hl hrow ?_ ?_
  · exact fun id hne ↦ get_replaceCodeIndex_of_ne l.store document hne
  · intro link hne
    rw [hlinks]
    simp [hne]

theorem Current.upserted {l : LinkedStore} (hl : l.Current codec) {document : Document}
    {chunks : List ChunkRow} {now : String} {t : Store}
    (hkept : ∀ row ∈ l.store.documents.get (stableId codec document.source document.sourceId),
      row.sourceId = document.sourceId)
    (hwrite : l.store.writeDocument codec document chunks now = .ok t) :
    (l.upserted codec document (t, true)).Current codec := by
  obtain ⟨hdocuments, hcodeIndexes⟩ := writeDocument_derived hwrite
  have hid : (l.store.writtenDocument codec document).id =
      stableId codec document.source document.sourceId := Store.id_mergedDocument _ _
  have hsourceId : document.sourceId = (l.store.writtenDocument codec document).sourceId := by
    rw [Store.writtenDocument, Store.mergedDocument]
    cases hget : l.store.documents.get (documentRow codec document).id with
    | none => rfl
    | some old => exact (hkept old hget).symm
  have hcolumns : (l.store.writtenDocument codec document).content = document.content ∧
      (l.store.writtenDocument codec document).metadataJson =
        codec.jsonText document.metadata := by
    rw [Store.writtenDocument, Store.mergedDocument]
    split <;> exact ⟨rfl, rfl⟩
  refine hl.written hsourceId hcolumns.1.symm hcolumns.2.symm hdocuments ?_ ?_
  · rw [hid]
    exact hcodeIndexes
  · intro link
    rw [hid]
    simp only [if_true, mem_insertLinks, List.mem_filter, decide_eq_true_eq]
    tauto

theorem Current.insertEvaluationDocument {l m : LinkedStore} (hl : l.Current codec)
    {document : Document} {embedding : Embedding}
    (h : insertEvaluationDocument codec embedding l document = .ok m) : m.Current codec := by
  obtain ⟨t, ht, rfl⟩ := Iff.mp Except.map_ok_iff h
  rw [Store.insertEvaluationDocument] at ht
  split at ht
  · cases ht
  · rename_i hfree
    have hnone : l.store.documents.get (documentRow codec document).id = none := by
      simpa using hfree
    have hmerged : Store.mergedDocument l.store.documents (documentRow codec document) =
        documentRow codec document := by
      rw [Store.mergedDocument, hnone]
    obtain ⟨u, hu, hrest⟩ := Iff.mp Except.bind_ok_iff ht
    obtain ⟨-, rfl⟩ := Store.upsertDocumentRow_eq_ok hu
    obtain ⟨v, hv, hrest⟩ := Iff.mp Except.bind_ok_iff hrest
    obtain ⟨-, rfl⟩ := Store.insertChunk_eq_ok hv
    obtain rfl := Iff.mp Except.pure_ok_iff hrest
    rw [hmerged]
    refine hl.written (show document.sourceId = (documentRow codec document).sourceId from rfl) rfl
      rfl ?_ ?_ ?_
    · obtain ⟨codeIndexes, hcode⟩ := Store.replaceCodeIndex_eq codec _
        (documentRow codec document).id document
      rw [hcode]
      rfl
    · apply replaceCodeIndex_congr
      rfl
    · intro link
      rw [mem_insertLinks]
      have hnew : link ∈ l.documentLinks → link.1 ≠ (documentRow codec document).id := by
        intro hlink hid
        have hstored := hl.links link hlink
        rw [hid, hnone] at hstored
        cases hstored
      constructor
      · rintro (hlink | hlink)
        · exact Or.inl ⟨hnew hlink, hlink⟩
        · exact Or.inr hlink
      · rintro (⟨-, hlink⟩ | hlink)
        · exact Or.inl hlink
        · exact Or.inr hlink

theorem Current.removeStale {l m : LinkedStore} (hl : l.Current codec) {now : String → String}
    {id : String} (h : removeStale codec now l id = .ok m) : m.Current codec := by
  obtain ⟨t, ht, rfl⟩ := Iff.mp Except.map_ok_iff h
  obtain ⟨used, rfl⟩ := Store.removeStale_eq_ok ht
  exact hl.cascade_erase rfl rfl

/-- A payload is applied: a document row is put, and nothing derived but the
chunks is touched. -/
theorem Current.applyPayload {l : LinkedStore} (hl : l.Current codec) {s t : Store}
    {kind : ObjectKind} {payload : Payload} (happly : s.applyPayload kind payload = .ok t)
    (hdocuments : s.documents = l.store.documents)
    (hcodeIndexes : s.codeIndexes = l.store.codeIndexes)
    (hquiet : ∀ row, kind = .document → payload.row = .document row →
      Derives codec l.store.codeIndexes l.documentLinks row) : (l.cascade t).Current codec := by
  unfold Store.applyPayload at happly
  split at happly
  · rename_i row hrow
    split_ifs at happly
    obtain rfl := Except.ok.inj happly
    refine hl.cascade_put ?_ hcodeIndexes (hquiet row rfl hrow)
    rw [← hdocuments]
    rfl
  · split_ifs at happly
    obtain rfl := Except.ok.inj happly
    exact hl.cascade_congr hdocuments hcodeIndexes
  · cases happly
  · cases happly

/-! ## When the derived rows follow -/

/-- The entry leaves alone what is derived from a document: it is not applied,
or it deletes, or the row it writes has the references and the parse that the
store already holds for its id. -/
def EntryQuiet (codec : Codec) (l : LinkedStore) (entry : SyncEntry) : Prop :=
  ∀ row, (l.store.replica.outcomeOf entry.stored).applies → entry.tombstone = false →
    entry.object.kind = .document → entry.stored.payload = some (.document row) →
      Derives codec l.store.codeIndexes l.documentLinks row

/-- The entries of a bundle, each where the earlier ones have been imported. -/
def ImportQuiet (codec : Codec) (now : String) : LinkedStore × ApplyReport → List SyncEntry → Prop
  | _, [] => True
  | state, entry :: rest =>
      EntryQuiet codec state.1 entry ∧
        ∀ state', importEntry now state entry = .ok state' → ImportQuiet codec now state' rest

/-- No row of another store is written over derived rows of another version,
and the id of a document that is ingested is not held by another one. -/
def Quiet (codec : Codec) (l : LinkedStore) : Store.Operation → Prop
  | .upsert document _ _ | .upsertStructured document _ _ =>
      ∀ row ∈ l.store.documents.get (stableId codec document.source document.sourceId),
        row.sourceId = document.sourceId
  | .importEntries _ entries upTo now =>
      ImportQuiet codec now (l, .start entries.length upTo) entries
  | .resolveConflict conflictId acceptRemote _ _ =>
      ∀ conflict ∈ l.store.conflicts.find? fun c ↦ c.conflictId = conflictId ∧ c.resolvedAt = none,
        ∀ row, acceptRemote = true → conflict.object.kind = .document →
          conflict.payload.row = .document row → Derives codec l.store.codeIndexes l.documentLinks row
  | _ => True

theorem Current.importEntry {l m : LinkedStore} (hl : l.Current codec) {now : String}
    {report report' : ApplyReport} {entry : SyncEntry} (hquiet : EntryQuiet codec l entry)
    (h : importEntry now (l, report) entry = .ok (m, report')) : m.Current codec := by
  obtain ⟨⟨t, r⟩, ht, heq⟩ := Iff.mp Except.map_ok_iff h
  obtain ⟨rfl, rfl⟩ := Prod.mk.inj heq
  obtain ⟨conflicts, sequence, -, -, hresult⟩ := Store.importEntry_eq_ok ht
  split_ifs at hresult with happlies
  · rw [Store.applyIncoming] at hresult
    split_ifs at hresult with htomb
    · obtain rfl := Except.ok.inj hresult
      exact hl.cascade_erase rfl rfl
    · obtain ⟨payload, hpayload, hresult⟩ := Iff.mp Except.bind_ok_iff hresult
      obtain ⟨u, hu, hresult⟩ := Iff.mp Except.bind_ok_iff hresult
      obtain rfl := Iff.mp Except.pure_ok_iff hresult
      have happlied : (l.cascade u).Current codec := by
        refine hl.applyPayload hu rfl rfl ?_
        intro row hkind hrow
        refine hquiet row happlies (by simpa using htomb) hkind ?_
        rw [SyncEntry.payload_stored, Store.requirePayload_eq_ok hpayload, Option.map_some, hrow]
      exact happlied
  · rw [hresult]
    exact hl.cascade_congr rfl rfl

theorem Current.importEntries {l m : LinkedStore} (hl : l.Current codec) {now : String}
    {entries : List SyncEntry} {report report' : ApplyReport}
    (hquiet : ImportQuiet codec now (l, report) entries)
    (h : entries.foldlM (LinkedStore.importEntry now) (l, report) = .ok (m, report')) :
    m.Current codec := by
  induction entries generalizing l report with
  | nil =>
      obtain ⟨rfl, -⟩ := Prod.mk.inj (Iff.mp List.foldlM_nil_ok_iff h)
      exact hl
  | cons entry rest ih =>
      obtain ⟨⟨u, report''⟩, hu, hrest⟩ := Iff.mp List.foldlM_cons_ok_iff h
      exact ih (hl.importEntry hquiet.1 hu) (hquiet.2 _ hu) hrest

theorem columns_setAcl (project aclJson : String) (row : DocumentRow) :
    (Store.setAcl project aclJson row).sourceId = row.sourceId ∧
      (Store.setAcl project aclJson row).content = row.content ∧
      (Store.setAcl project aclJson row).metadataJson = row.metadataJson := by
  rw [Store.setAcl]
  split <;> exact ⟨rfl, rfl, rfl⟩

/-- Memories are written beside the documents. -/
theorem documents_rememberInTransaction {s t : Store} {call : Store.MemoryCall} {input : MemoryInput}
    {axes : MemoryAxes} {id : String}
    (h : s.rememberInTransaction codec call input axes = .ok (t, id)) :
    t.documents = s.documents ∧ t.codeIndexes = s.codeIndexes := by
  obtain ⟨valid, existingAcl, hremembered⟩ := Store.rememberInTransaction_cases h
  rcases hremembered.written with ⟨-, rfl⟩ | ⟨-, -, -, hwrite⟩
  · exact ⟨rfl, rfl⟩
  · obtain ⟨memoriesFts, rfl⟩ := Store.writeMemory_eq_ok hwrite
    rw [Store.superseded]
    constructor
    · split <;> rfl
    · split <;> rfl

theorem Current.backfillProjectAcls {l : LinkedStore} (hl : l.Current codec) {t : Store}
    {mappings : List (String × List String)} {n : ℕ}
    (h : l.store.backfillProjectAcls codec mappings = .ok (t, n)) : (l.cascade t).Current codec := by
  obtain ⟨w, hw, rfl⟩ := Store.backfillProjectAcls_eq_ok h
  -- The loop only labels documents, so that no link is lost at its end.
  have hloop : Derived codec w.documents w.codeIndexes l.documentLinks ∧
      ∀ id, (l.store.documents.get id).isSome → (w.documents.get id).isSome := by
    refine List.foldlM_preserves (P := fun state : Store × ℕ ↦
      Derived codec state.1.documents state.1.codeIndexes l.documentLinks ∧
        ∀ id, (l.store.documents.get id).isSome → (state.1.documents.get id).isSome)
      ?_ (And.intro (show Derived codec l.store.documents _ _ from hl) fun _ hid ↦ hid) hw
    rintro mapping _ ⟨u, k⟩ ⟨u', k'⟩ ⟨hu, hstored⟩ hmapping
    obtain ⟨aclJson, rfl, -⟩ := Store.backfillProjectAcl_eq_ok hmapping
    refine ⟨hu.modify (Store.setAcl mapping.1 aclJson) (Store.id_setAcl mapping.1 aclJson) ?_ ?_ ?_,
      fun id hid ↦ ?_⟩
    · exact fun row ↦ (columns_setAcl mapping.1 aclJson row).1
    · exact fun row ↦ (columns_setAcl mapping.1 aclJson row).2.1
    · exact fun row ↦ (columns_setAcl mapping.1 aclJson row).2.2
    · rw [Table.get_modify, Option.isSome_map]
      exact hstored id hid
  have hlinks : (l.cascade (if 0 < n then w.bumpCorpusRevision else w)).documentLinks =
      l.documentLinks := by
    refine documentLinks_cascade_of_isSome fun id hid ↦ ?_
    split <;> exact hloop.2 id hid
  rw [Current, hlinks]
  change Derived codec (if 0 < n then w.bumpCorpusRevision else w).documents
    (if 0 < n then w.bumpCorpusRevision else w).codeIndexes _
  split <;> exact hloop.1

theorem Current.resolveConflict {l : LinkedStore} (hl : l.Current codec) {t : Store}
    {conflictId : ℤ} {acceptRemote : Bool} {now changedAt : String}
    (hquiet : Quiet codec l (.resolveConflict conflictId acceptRemote now changedAt))
    (h : l.store.syncResolveConflict codec conflictId acceptRemote now changedAt = .ok t) :
    (l.cascade t).Current codec := by
  obtain ⟨u, conflicts, -, rfl, hu⟩ := Store.syncResolveConflict_eq_ok h
  rcases hu with ⟨-, rfl⟩ | ⟨conflict, hfind, v, haccept, hv, rfl⟩
  · exact hl.cascade_congr rfl rfl
  · have happlied : (l.cascade v).Current codec := hl.applyPayload hv rfl rfl
      fun row hkind hrow ↦ hquiet conflict hfind row haccept hkind hrow
    exact happlied

theorem Current.step {l m : LinkedStore} (hl : l.Current codec) {op : Store.Operation}
    (hquiet : Quiet codec l op) (hstep : l.Step codec op m) : m.Current codec := by
  rw [Step] at hstep
  cases op with
  | upsert document chunks now =>
      obtain ⟨⟨t, written⟩, ht, rfl⟩ := Iff.mp Except.map_ok_iff hstep
      rcases Store.upsert_eq_ok ht with ⟨-, rfl, rfl⟩ | ⟨-, rfl, hwrite⟩
      · exact hl
      · exact hl.upserted hquiet hwrite
  | upsertStructured document chunks now =>
      obtain ⟨⟨t, written⟩, ht, rfl⟩ := Iff.mp Except.map_ok_iff hstep
      rcases Store.upsertStructured_eq_ok ht with ⟨-, rfl, rfl⟩ | ⟨-, rfl, hwrite⟩
      · exact hl
      · exact hl.upserted hquiet hwrite
  | insertEvaluationCorpus documents embedding =>
      rw [perform] at hstep
      split_ifs at hstep
      refine List.foldlM_preserves (P := Current codec) ?_ hl hstep
      exact fun document _ u u' hu hinsert ↦ hu.insertEvaluationDocument hinsert
  | refreshTimestamp document =>
      obtain rfl := Except.ok.inj hstep
      rcases Store.refreshTimestamp_cases codec l.store document with hsame | ⟨row, hrow, -, heq⟩
      · rw [hsame]
        exact hl.cascade_congr rfl rfl
      · rw [heq]
        have hstored : row ∈ l.store.documents.rows := (Iff.mp Table.get_eq_some_iff hrow).1
        exact hl.cascade_put rfl rfl
          ((hl.rows row hstored).congr rfl rfl rfl rfl rfl fun _ ↦ Iff.rfl)
  | reconcile source project seenSourceIds now =>
      obtain ⟨u, hu, hrest⟩ := Iff.mp Except.bind_ok_iff hstep
      obtain rfl := Iff.mp Except.pure_ok_iff hrest
      have hloop : u.Current codec := by
        refine List.foldlM_preserves (P := Current codec) ?_ hl hu
        exact fun id _ v v' hv hremove ↦ hv.removeStale hremove
      rw [Current]
      split <;> exact hloop
  | backfillProjectAcls mappings =>
      obtain ⟨t, ht, rfl⟩ := Iff.mp Except.map_ok_iff hstep
      obtain ⟨⟨v, n⟩, hv, rfl⟩ := Iff.mp Except.map_ok_iff ht
      exact hl.backfillProjectAcls hv
  | beginEmbeddingRebuild oldGeneration newGeneration =>
      obtain ⟨t, ht, rfl⟩ := Iff.mp Except.map_ok_iff hstep
      obtain ⟨⟨v, n⟩, hv, rfl⟩ := Iff.mp Except.map_ok_iff ht
      rw [Store.beginEmbeddingRebuild_eq_ok hv]
      exact hl.cascade_congr rfl rfl
  | stageEmbeddingRebuild vectors =>
      obtain ⟨t, ht, rfl⟩ := Iff.mp Except.map_ok_iff hstep
      obtain ⟨rebuild, rfl, -⟩ := Store.stageEmbeddingRebuild_eq_ok ht
      exact hl.cascade_congr rfl rfl
  | commitEmbeddingRebuild oldGeneration newGeneration =>
      obtain ⟨t, ht, rfl⟩ := Iff.mp Except.map_ok_iff hstep
      obtain ⟨⟨v, n⟩, hv, rfl⟩ := Iff.mp Except.map_ok_iff ht
      obtain ⟨staged, -, -, rfl⟩ := Store.commitEmbeddingRebuild_eq_ok hv
      exact hl.cascade_congr rfl rfl
  | remember call input axes =>
      obtain ⟨t, ht, rfl⟩ := Iff.mp Except.map_ok_iff hstep
      obtain ⟨⟨v, id⟩, hv, rfl⟩ := Iff.mp Except.map_ok_iff ht
      obtain ⟨hdocuments, hcodeIndexes⟩ :=
        documents_rememberInTransaction (Store.rememberScopedWithAxes_eq_ok hv)
      exact hl.cascade_congr hdocuments hcodeIndexes
  | forget call id =>
      obtain ⟨t, ht, rfl⟩ := Iff.mp Except.map_ok_iff hstep
      obtain ⟨⟨v, found⟩, hv, rfl⟩ := Iff.mp Except.map_ok_iff ht
      rcases Store.forgetMemoryScoped_eq_ok hv with ⟨-, rfl, -⟩ | ⟨memory, -, -, rfl⟩
      · exact hl.cascade_congr rfl rfl
      · exact hl.cascade_congr rfl rfl
  | promote call candidate report =>
      obtain ⟨t, ht, rfl⟩ := Iff.mp Except.map_ok_iff hstep
      have hpromote : l.store.promoteCandidate codec call candidate report = .ok t := ht
      rcases Store.promoteCandidate_eq_ok hpromote with rfl | ⟨axes, id, -, hremember⟩
      · exact hl.cascade_congr rfl rfl
      · obtain ⟨hdocuments, hcodeIndexes⟩ := documents_rememberInTransaction hremember
        exact hl.cascade_congr hdocuments hcodeIndexes
  | acknowledge peer ack =>
      obtain rfl := Except.ok.inj hstep
      exact hl.cascade_congr rfl rfl
  | compact =>
      obtain rfl := Except.ok.inj hstep
      exact hl.cascade_congr rfl rfl
  | importEntries peer entries upTo now =>
      obtain ⟨⟨u, report⟩, hu, hrest⟩ := Iff.mp Except.bind_ok_iff hstep
      obtain rfl := Iff.mp Except.pure_ok_iff hrest
      have himported : u.Current codec := hl.importEntries hquiet hu
      exact himported
  | resolveConflict conflictId acceptRemote now changedAt =>
      obtain ⟨t, ht, rfl⟩ := Iff.mp Except.map_ok_iff hstep
      exact hl.resolveConflict hquiet ht

/-- A run of successful calls that meet a condition. -/
abbrev Run (codec : Codec) (ok : LinkedStore → Store.Operation → Prop) :
    LinkedStore → LinkedStore → Prop :=
  Transition.Run (Step codec) ok

/-- In every state that is reached without writing a row of another store over
derived rows of another version, links and code indexes follow the documents. -/
theorem derived_follow (device : Option String) {l : LinkedStore}
    (hrun : Run codec (Quiet codec) (adopted device) l) :
    (∀ row ∈ l.store.documents.rows, Derives codec l.store.codeIndexes l.documentLinks row) ∧
      (∀ link ∈ l.documentLinks, (l.store.documents.get link.1).isSome) ∧
      ∀ index ∈ l.store.codeIndexes.rows, (l.store.documents.get index.documentId).isSome := by
  have hcurrent : l.Current codec :=
    hrun.preserves (fun _ _ _ hl hok hstep ↦ hl.step hok hstep) (current_adopted device)
  exact ⟨hcurrent.rows, hcurrent.links, hcurrent.codeIndexes⟩

/-! ## A code document -/

/-- A codec whose parse of a document is its content. -/
def contentCodec : Codec := { Codec.sample with parseOutput := Document.content }

/-- A source file with one reference. -/
def sourceFile (content : String) : Document :=
  { Store.note "main.rs" content with
    metadata := .object [("code", .object []), ("uri", .string "menu.md")] }

/-- The entry that brings a document from another store. -/
def documentEntry (document : Document) : SyncEntry where
  journalId := 1
  object := ⟨.document, stableId contentCodec document.source document.sourceId⟩
  revision := 1
  origin := "device-b"
  fingerprint := fingerprintValue contentCodec (documentRow contentCodec document).columns
  tombstone := false
  changedAt := "2026-01-02T00:00:00+00:00"
  payload := some (ObjectRow.document (documentRow contentCodec document)).payload

/-- Calls one after the other, all of which succeed. -/
def performAll (codec : Codec) (l : LinkedStore) (ops : List Store.Operation) :
    Option LinkedStore :=
  ops.foldlM (fun l op ↦ (l.perform codec op).toOption) l

theorem step_of_toOption {l m : LinkedStore} {op : Store.Operation}
    (h : (l.perform codec op).toOption = some m) : l.Step codec op m := by
  rw [Step]
  exact Iff.mp Except.toOption_eq_some_iff h

/-- A file is ingested, and then a newer version of it is imported: the code
index is that of the old version. -/
theorem derived_follow_stale :
    ∃ l, Run contentCodec (fun _ _ ↦ True) (adopted none) l ∧
      ¬∀ row ∈ l.store.documents.rows,
        Derives contentCodec l.store.codeIndexes l.documentLinks row := by
  have hvalues : (performAll contentCodec (adopted none)
      [.upsert (sourceFile "old") [] "2026-01-01T00:00:00+00:00",
        .importEntries "device-b" [documentEntry (sourceFile "new")] 1
          "2026-01-02T00:00:00+00:00"]).map (fun l ↦
        (l.store.documents.rows, (l.store.codeIndexes.get
          (documentRow contentCodec (sourceFile "new")).id).map CodeIndexRow.outputJson)) =
      some ([documentRow contentCodec (sourceFile "new")], some "old") := by
    decide +kernel
  obtain ⟨l, hl, hvalue⟩ := Option.map_eq_some_iff.mp hvalues
  obtain ⟨hrows, hindex⟩ := Prod.mk.inj hvalue
  refine ⟨l, Transition.Run.of_foldlM (fun _ _ _ ↦ step_of_toOption) (fun _ _ _ ↦ trivial) hl, ?_⟩
  intro hderived
  obtain ⟨document, -, hcontent, -, -, hcode⟩ :=
    hderived (documentRow contentCodec (sourceFile "new")) (by simp [hrows])
  rw [hindex] at hcode
  split_ifs at hcode
  have hstale : "old" = document.content := Option.some.inj hcode
  rw [hcontent] at hstale
  exact absurd hstale (by decide)

theorem derived_follow_sourceFile :
    ∃ l : LinkedStore, l.store.documents.rows.length = 2 ∧
      (∀ row ∈ l.store.documents.rows,
        Derives contentCodec l.store.codeIndexes l.documentLinks row) ∧
      (∀ link ∈ l.documentLinks, (l.store.documents.get link.1).isSome) ∧
      ∀ index ∈ l.store.codeIndexes.rows, (l.store.documents.get index.documentId).isSome := by
  have hfirst : ((adopted none).perform contentCodec
      (.upsert (sourceFile "old") [] "2026-01-01T00:00:00+00:00")).toOption.map (fun l ↦
        (l.documentLinks, (l.store.codeIndexes.get
          (documentRow contentCodec (Store.note "menu.md" "tea")).id).map CodeIndexRow.outputJson,
          ((l.perform contentCodec (.importEntries "device-b"
            [documentEntry (Store.note "menu.md" "tea")] 1
              "2026-01-02T00:00:00+00:00")).toOption.map fun m ↦ m.store.documents.rows.length))) =
      some ([((documentRow contentCodec (sourceFile "old")).id, "menu.md")], none, some 2) := by
    decide +kernel
  obtain ⟨l, hl, hvalue⟩ := Option.map_eq_some_iff.mp hfirst
  obtain ⟨hlinks, hvalue⟩ := Prod.mk.inj hvalue
  obtain ⟨hindex, hsecond⟩ := Prod.mk.inj hvalue
  obtain ⟨m, hm, hlength⟩ := Option.map_eq_some_iff.mp hsecond
  have hfresh : Derives contentCodec l.store.codeIndexes l.documentLinks
      (documentRow contentCodec (Store.note "menu.md" "tea")) := by
    refine ⟨Store.note "menu.md" "tea", rfl, rfl, rfl, fun target ↦ ?_, ?_⟩
    · rw [hlinks, show metadataReferenceStrings (Store.note "menu.md" "tea").metadata = [] by
        decide +kernel]
      have hne : (documentRow contentCodec (Store.note "menu.md" "tea")).id ≠
          (documentRow contentCodec (sourceFile "old")).id := by
        decide +kernel
      simp [hne]
    · rw [hindex]
      rfl
  have hquiet : Quiet contentCodec l (.importEntries "device-b"
      [documentEntry (Store.note "menu.md" "tea")] 1 "2026-01-02T00:00:00+00:00") := by
    refine ⟨?_, fun _ _ ↦ trivial⟩
    rintro row - - - hpayload
    obtain rfl := ObjectRow.document.inj (Option.some.inj hpayload)
    exact hfresh
  have hupsert : Quiet contentCodec (adopted none)
      (.upsert (sourceFile "old") [] "2026-01-01T00:00:00+00:00") := by
    rintro row ⟨⟩
  have hrun : Run contentCodec (Quiet contentCodec) (adopted none) m :=
    ((Transition.Run.refl _).snoc hupsert (step_of_toOption hl)).snoc hquiet (step_of_toOption hm)
  exact ⟨m, hlength, derived_follow none hrun⟩

end LinkedStore

end Cortana
