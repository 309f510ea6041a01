import Cortana.Replication.Exchange
import Cortana.Store.Operations
import Cortana.Sync.Refinement

/-!
# Two stores converge

Two devices upsert and reconcile documents and send each other their exports.
An exchange of the stores is an exchange of the replicas behind them: an export
never fails, and an import fails exactly when an entry of the bundle cannot be
received.  From this the stores come to have the same documents, as long as
every entry settles where it arrives.
-/

namespace Cortana

open Replication

namespace Store

variable {codec : Codec} {s t u : Store}

/-! ## Stores of documents -/

/-- A row of documents has the id of its source and source id. -/
def Addressed (codec : Codec) (d : DocumentRow) : Prop :=
  d.id = stableId codec d.source d.sourceId

/-- A store that has only ever held documents. -/
structure Filed (codec : Codec) (s : Store) : Prop where
  memories : ∀ id, s.memories.get id = none
  kinds : ∀ change ∈ s.journal.rows, change.object.kind = .document
  addressed : ∀ d ∈ s.documents.rows, Addressed codec d

/-- An entry that such a store exports. -/
structure FiledEntry (codec : Codec) (e : SyncEntry) : Prop where
  kind : e.object.kind = .document
  payload : ∀ payload ∈ e.payload, ∃ d, payload = (ObjectRow.document d).payload ∧
    d.id = e.object.id ∧ Addressed codec d

theorem filed_adopted (codec : Codec) (device : Option String) : Filed codec (adopted device) where
  memories _ := rfl
  kinds _ h := absurd h List.not_mem_nil
  addressed _ h := absurd h List.not_mem_nil

/-- The parts of a store that matter here. -/
theorem Filed.of (h : Filed codec s) (hmemories : t.memories = s.memories)
    (hkinds : ∀ change ∈ t.journal.rows, change ∈ s.journal.rows ∨ change.object.kind = .document)
    (haddressed : ∀ d ∈ t.documents.rows, d ∈ s.documents.rows ∨ Addressed codec d) :
    Filed codec t where
  memories := by rw [hmemories]; exact h.memories
  kinds change hmem := (hkinds change hmem).elim (h.kinds change) id
  addressed d hmem := (haddressed d hmem).elim (h.addressed d) id

theorem kinds_append {j : Journal ObjectKey String String String} {key : ObjectKey}
    {origin fingerprint : String} {tombstone : Bool} {now : String} (hkey : key.kind = .document) :
    ∀ change ∈ (j.append key origin fingerprint tombstone now).rows,
      change ∈ j.rows ∨ change.object.kind = .document := by
  intro change hmem
  rw [Journal.rows_append] at hmem
  rcases List.mem_append.mp hmem with hmem | hmem
  · exact .inl hmem
  · rw [List.mem_singleton.mp hmem]
    exact .inr hkey

theorem kinds_record {j : Journal ObjectKey String String String} {self : Option String}
    {key : ObjectKey} {state : String × Bool} {now : String} (hkey : key.kind = .document) :
    ∀ change ∈ (j.record self key state now).rows,
      change ∈ j.rows ∨ change.object.kind = .document := by
  intro change hmem
  cases self with
  | none => exact .inl hmem
  | some device =>
      rw [Journal.record] at hmem
      split at hmem
      · exact .inl hmem
      · exact kinds_append hkey change hmem

/-- The row an upsert leaves has the id of its source and source id. -/
theorem Filed.addressed_written (h : Filed codec s) (document : Document) :
    Addressed codec (s.writtenDocument codec document) := by
  rw [writtenDocument, mergedDocument]
  split
  · rfl
  · rename_i old hold
    obtain ⟨hmem, hid⟩ := Iff.mp Table.get_eq_some_iff hold
    have haddressed := h.addressed old hmem
    rw [Addressed, hid] at haddressed
    exact haddressed

/-- No two rows of such tables are of the same source and source id. -/
theorem Filed.documentClash_eq_false (h : Filed codec s) {row : DocumentRow}
    (hrow : Addressed codec row) : documentClash s.documents row = false := by
  rw [documentClash, List.any_eq_false]
  intro d hmem hclash
  obtain ⟨hid, hsource, hsourceId⟩ := of_decide_eq_true hclash
  apply hid
  rw [hrow, h.addressed d hmem, hsource, hsourceId]

/-! ## Local writes -/

/-- The calls that change documents on one device. -/
def OfDocuments : Operation → Prop
  | .upsert _ _ _ | .upsertStructured _ _ _ | .reconcile _ _ _ _ => True
  | _ => False

/-- A condition of the replica that every write of a document keeps. -/
def Kept (codec : Codec) (I : Replica ObjectKey String String String ObjectRow → Prop) : Prop :=
  ∀ r key row now, I r → I (r.edit codec.digest key row now)

theorem Filed.writeDocument (h : Filed codec s) {document : Document} {chunks : List ChunkRow}
    {now : String} (hwrite : s.writeDocument codec document chunks now = .ok t) :
    Filed codec t := by
  obtain ⟨used, chunks, chunksFts, codeIndexes, -, rfl⟩ := writeDocument_eq_ok hwrite
  refine h.of rfl (kinds_record rfl) fun d hmem ↦ ?_
  rcases Iff.mp Table.mem_put hmem with rfl | ⟨hmem, -⟩
  · exact .inr (h.addressed_written document)
  · exact .inl hmem

theorem Filed.removeStale (h : Filed codec s) {now : String → String} {id : String}
    (hremove : removeStale codec now s id = .ok t) : Filed codec t := by
  obtain ⟨used, rfl⟩ := removeStale_eq_ok hremove
  exact h.of rfl (kinds_record rfl) fun d hmem ↦ .inl (Iff.mp Table.mem_erase hmem).1

/-- A call that changes documents is a number of edits of the replica. -/
theorem Filed.perform (h : Filed codec s) {op : Operation} (hop : OfDocuments op)
    (hstep : s.perform codec op = .ok t) : Filed codec t ∧
      ∀ I, Kept codec I → I s.replica → I t.replica := by
  cases op with
  | upsert document chunks now =>
      obtain ⟨⟨u, written⟩, hu, rfl⟩ := Iff.mp Except.map_ok_iff hstep
      rcases upsert_eq_ok hu with ⟨-, rfl, -⟩ | ⟨-, -, hwrite⟩
      · exact ⟨h, fun _ _ hI ↦ hI⟩
      · refine ⟨h.writeDocument hwrite, fun I hkept hI ↦ ?_⟩
        rw [replica_writeDocument hwrite]
        exact hkept _ _ _ _ hI
  | upsertStructured document chunks now =>
      obtain ⟨⟨u, written⟩, hu, rfl⟩ := Iff.mp Except.map_ok_iff hstep
      rcases upsertStructured_eq_ok hu with ⟨-, rfl, -⟩ | ⟨-, -, hwrite⟩
      · exact ⟨h, fun _ _ hI ↦ hI⟩
      · refine ⟨h.writeDocument hwrite, fun I hkept hI ↦ ?_⟩
        rw [replica_writeDocument hwrite]
        exact hkept _ _ _ _ hI
  | reconcile source project seenSourceIds now =>
      obtain ⟨⟨u, n⟩, hu, rfl⟩ := Iff.mp Except.map_ok_iff hstep
      obtain ⟨v, hv, rfl⟩ := reconcile_eq_ok hu
      have hloop : Filed codec v ∧ ∀ I, Kept codec I → I s.replica → I v.replica := by
        refine List.foldlM_preserves (P := fun v ↦ Filed codec v ∧
          ∀ I, Kept codec I → I s.replica → I v.replica) ?_ ⟨h, fun _ _ hI ↦ hI⟩ hv
        rintro id - w w' ⟨hw, hkeep⟩ hremove
        refine ⟨hw.removeStale hremove, fun I hkept hI ↦ ?_⟩
        rw [replica_removeStale hremove]
        exact hkept _ _ _ _ (hkeep I hkept hI)
      split
      · exact hloop
      · refine ⟨hloop.1.of rfl (fun _ hmem ↦ .inl hmem) fun _ hmem ↦ .inl hmem, ?_⟩
        exact hloop.2
  | _ => exact hop.elim

/-! ## Sending -/

/-- An entry of the replica, with the payload of its row. -/
def sent (e : Entry ObjectKey String String String ObjectRow) : SyncEntry := e.map ObjectRow.payload

@[simp] theorem stored_sent (e : Entry ObjectKey String String String ObjectRow) :
    (sent e).stored = e := by
  rw [SyncEntry.stored, sent, Entry.map, Entry.map]
  simp only [Option.map_map]
  exact congrArg (Entry.mk e.toChange) (congrFun Option.map_id e.payload)

@[simp] theorem map_stored_sent (entries : List (Entry ObjectKey String String String ObjectRow)) :
    (entries.map sent).map SyncEntry.stored = entries := by
  rw [List.map_map]
  exact (List.map_congr_left fun e _ ↦ stored_sent e).trans (List.map_id _)

/-- Every change of such a store can be sent, with the row of its object. -/
theorem Filed.exportEntry (h : Filed codec s) {change : JournalRow}
    (hmem : change ∈ s.journal.rows) :
    s.exportEntry change = .ok (sent (s.replica.entry change)) ∧
      FiledEntry codec (sent (s.replica.entry change)) := by
  have hkind := h.kinds change hmem
  refine ⟨?_, hkind, fun payload hpayload ↦ ?_⟩
  · rw [Store.exportEntry, sent, Replica.entry, Entry.map]
    split
    · rfl
    · simp only [hkind, row_replica]
  · obtain ⟨row, hrow, rfl⟩ := Option.map_eq_some_iff.mp hpayload
    change (if change.tombstone then none else s.row change.object) = some row at hrow
    split at hrow
    · cases hrow
    · rw [Store.row, hkind] at hrow
      obtain ⟨d, hget, rfl⟩ := Option.map_eq_some_iff.mp hrow
      obtain ⟨hmem, hid⟩ := Iff.mp Table.get_eq_some_iff hget
      exact ⟨d, rfl, hid, h.addressed d hmem⟩

/-- The export of such a store is the export of the replica. -/
theorem Filed.syncExportEntries (h : Filed codec s) (peer : String) (limit : ℕ) :
    s.syncExportEntries peer limit = .ok ((s.replica.exportEntries peer limit).map sent,
      s.replica.upTo peer (s.replica.exportEntries peer limit)) := by
  have hentries : ((s.journal.after (s.watermarks.acked peer)).take limit).mapM s.exportEntry =
      .ok ((s.replica.exportEntries peer limit).map sent) := by
    rw [Replica.exportEntries, List.map_map]
    refine List.mapM_eq_ok fun change hmem ↦ (h.exportEntry ?_).1
    exact List.mem_of_mem_filter (List.mem_of_mem_take hmem)
  rw [Store.syncExportEntries]
  simp only [hentries, bind, Except.bind, List.getLast?_map, Option.map_map]
  rfl

theorem Filed.filedEntry_of_mem (h : Filed codec s) {peer : String} {limit : ℕ} {e : SyncEntry}
    (hmem : e ∈ (s.replica.exportEntries peer limit).map sent) : FiledEntry codec e := by
  obtain ⟨_, hentry, rfl⟩ := List.mem_map.mp hmem
  obtain ⟨change, hchange, rfl⟩ := List.mem_map.mp hentry
  exact (h.exportEntry (List.mem_of_mem_filter (List.mem_of_mem_take hchange))).2

/-! ## Receiving -/

/-- What such an entry would write or delete is the row of its object. -/
theorem FiledEntry.fits {e : SyncEntry} (he : FiledEntry codec e)
    {r : Replica ObjectKey String String String ObjectRow}
    (hr : ∀ id, r.row ⟨.memory, id⟩ = none) : Fits r e.stored := by
  intro _
  split
  · exact ⟨fun hkind ↦ absurd he.kind hkind, fun _ ↦ hr _⟩
  · intro row hrow
    obtain ⟨payload, hpayload, rfl⟩ := Option.map_eq_some_iff.mp hrow
    obtain ⟨d, rfl, hid, -⟩ := he.payload payload hpayload
    change some ⟨.document, d.id⟩ = some e.object
    rw [hid, ← he.kind]

theorem walk_fits {entries : List SyncEntry} (hentries : ∀ e ∈ entries, FiledEntry codec e)
    {r : Replica ObjectKey String String String ObjectRow}
    (hr : ∀ id, r.row ⟨.memory, id⟩ = none) :
    Replica.Walk codec.digest Fits r (entries.map SyncEntry.stored) := by
  induction entries generalizing r with
  | nil => trivial
  | cons e rest ih =>
      rw [List.forall_mem_cons] at hentries
      refine ⟨hentries.1.fits hr, fun r' hr' ↦ ih hentries.2 fun id ↦ ?_⟩
      rw [(Replica.received_of_receive hr').row]
      split
      · rw [Function.update_of_ne, hr]
        intro heq
        have hkind := congrArg ObjectKey.kind heq
        rw [SyncEntry.toChange_stored, hentries.1.kind] at hkind
        cases hkind
      · exact hr id

theorem Filed.row_memory (h : Filed codec s) (id : String) :
    s.replica.row ⟨.memory, id⟩ = none := by
  rw [row_replica, Store.row_memory, h.memories]
  rfl

/-- The payload of a document replaces the row, and drops the chunks. -/
theorem applyPayload_document (s : Store) (d : DocumentRow) :
    s.applyPayload .document (ObjectRow.document d).payload =
      if documentClash s.documents d then .error documentClashError
      else .ok (({ s with documents := s.documents.put d }.deleteChunksFts d.id).deleteChunks
        d.id) := rfl

/-- An entry that is received leaves a store of documents. -/
theorem Filed.importEntry (h : Filed codec s) {e : SyncEntry} (he : FiledEntry codec e)
    {now : String} {report report' : ApplyReport}
    (himport : importEntry now (s, report) e = .ok (t, report')) : Filed codec t := by
  obtain ⟨conflicts, sequence, -, -, hresult⟩ := importEntry_eq_ok himport
  have hsame : Filed codec { s with conflicts := conflicts, conflictSequence := sequence } :=
    h.of rfl (fun _ hmem ↦ .inl hmem) fun _ hmem ↦ .inl hmem
  split at hresult
  · rw [applyIncoming] at hresult
    split at hresult
    · obtain rfl := Except.ok.inj hresult
      refine hsame.of ?_ (kinds_append he.kind) fun d hmem ↦ .inl (Iff.mp Table.mem_erase hmem).1
      exact Table.erase_of_get_eq_none (h.memories _)
    · obtain ⟨payload, hrequire, hresult⟩ := Iff.mp Except.bind_ok_iff hresult
      obtain ⟨v, hv, hresult⟩ := Iff.mp Except.bind_ok_iff hresult
      obtain rfl := Iff.mp Except.pure_ok_iff hresult
      obtain ⟨d, rfl, hid, haddressed⟩ := he.payload payload (requirePayload_eq_ok hrequire)
      rw [he.kind, applyPayload_document] at hv
      split at hv
      · cases hv
      · obtain rfl := Except.ok.inj hv
        refine hsame.of rfl (kinds_append he.kind) fun d' hmem ↦ ?_
        rcases Iff.mp Table.mem_put hmem with rfl | ⟨hmem, -⟩
        · exact .inr haddressed
        · exact .inl hmem
  · rw [hresult]
    exact hsame

/-- The rows of a document that arrives are written. -/
theorem Filed.applyPayload (h : Filed codec s) {e : SyncEntry} (he : FiledEntry codec e)
    {payload : Payload} (hpayload : e.payload = some payload) :
    ∃ t, s.applyPayload e.object.kind payload = .ok t := by
  obtain ⟨d, rfl, -, haddressed⟩ := he.payload payload hpayload
  rw [he.kind, applyPayload_document, h.documentClash_eq_false haddressed,
    if_neg Bool.false_ne_true]
  exact ⟨_, rfl⟩

theorem Filed.applyIncoming (h : Filed codec s) {e : SyncEntry} (he : FiledEntry codec e)
    (hpayload : e.tombstone = true ∨ e.payload.isSome) : ∃ t, s.applyIncoming e = .ok t := by
  cases htomb : e.tombstone with
  | true => exact ⟨_, by rw [Store.applyIncoming, if_pos htomb]⟩
  | false =>
      rw [htomb] at hpayload
      obtain ⟨payload, hpayload⟩ := Option.isSome_iff_exists.mp
        (hpayload.resolve_left Bool.false_ne_true)
      obtain ⟨t, ht⟩ := h.applyPayload he hpayload
      refine ⟨t.journalReceived e e.fingerprint false, ?_⟩
      rw [Store.applyIncoming, if_neg (by simp [htomb]), requirePayload, hpayload]
      exact Iff.mpr Except.bind_ok_iff ⟨payload, rfl, Iff.mpr Except.bind_ok_iff ⟨t, ht, rfl⟩⟩

theorem outcome_stored (self : Option String) (latest : Option JournalRow) (e : SyncEntry) :
    Replica.outcome self latest e.stored = Replica.outcome self latest e := rfl

/-- An entry that the replica can receive is imported. -/
theorem Filed.importEntry_of_receivable (h : Filed codec s) {e : SyncEntry}
    (he : FiledEntry codec e) (hreceivable : s.replica.Receivable e.stored) (now : String)
    (report : ApplyReport) : ∃ q, Store.importEntry now (s, report) e = .ok q := by
  rw [Replica.Receivable, Replica.outcomeOf, self_replica, journal_replica,
    SyncEntry.payload_stored, Option.isSome_map, SyncEntry.toChange_stored,
    outcome_stored] at hreceivable
  unfold Store.importEntry
  cases hlatest : s.journal.latest e.object with
  | none =>
      simp only [hlatest]
      by_cases htomb : e.tombstone = true
      · rw [if_pos htomb]
        exact ⟨_, rfl⟩
      · have hsome : e.payload.isSome := by
          simpa [Replica.outcome, hlatest, htomb] using hreceivable
        obtain ⟨payload, hpayload⟩ := Option.isSome_iff_exists.mp hsome
        obtain ⟨t, ht⟩ := h.applyPayload he hpayload
        rw [if_neg htomb, requirePayload, hpayload]
        exact ⟨_, Iff.mpr Except.bind_ok_iff ⟨payload, rfl,
          Iff.mpr Except.bind_ok_iff ⟨t, ht, rfl⟩⟩⟩
  | some latest =>
      simp only [hlatest]
      rw [hlatest, Replica.outcome] at hreceivable
      by_cases hsame : latest.fingerprint = e.fingerprint
      · rw [if_pos hsame]
        exact ⟨_, rfl⟩
      · rw [if_neg hsame] at hreceivable ⊢
        by_cases hown : latest.OwnLive s.selfDevice
        · rw [if_pos hown] at hreceivable ⊢
          have hsome : e.payload.isSome := by
            split at hreceivable <;> simpa using hreceivable
          obtain ⟨payload, hpayload⟩ := Option.isSome_iff_exists.mp hsome
          have hconflict : ∀ resolution, ∃ conflicts sequence,
              s.recordConflict e latest resolution now = .ok
                { s with conflicts := conflicts, conflictSequence := sequence } := by
            intro resolution
            rw [recordConflict, hpayload]
            exact ⟨_, _, rfl⟩
          split
          · obtain ⟨conflicts, sequence, hconflict⟩ := hconflict "remote-wins-by-recency"
            have hfiled : Filed codec
                { s with conflicts := conflicts, conflictSequence := sequence } :=
              h.of rfl (fun _ hmem ↦ .inl hmem) fun _ hmem ↦ .inl hmem
            obtain ⟨t, ht⟩ := hfiled.applyIncoming he (.inr hsome)
            exact ⟨_, Iff.mpr Except.bind_ok_iff ⟨_, hconflict,
              Iff.mpr Except.bind_ok_iff ⟨t, ht, rfl⟩⟩⟩
          · obtain ⟨conflicts, sequence, hconflict⟩ :=
              hconflict "local-wins-by-recency-remote-preserved"
            exact ⟨_, Iff.mpr Except.bind_ok_iff ⟨_, hconflict, rfl⟩⟩
        · rw [if_neg hown] at hreceivable ⊢
          have hpayload : e.tombstone = true ∨ e.payload.isSome := by
            simpa [or_comm] using hreceivable
          obtain ⟨t, ht⟩ := h.applyIncoming he hpayload
          exact ⟨_, Iff.mpr Except.bind_ok_iff ⟨t, ht, rfl⟩⟩

/-- A bundle that the replica can receive is imported entry by entry. -/
theorem Filed.importEntries_of_importable (h : Filed codec s) {entries : List SyncEntry}
    (hentries : ∀ e ∈ entries, FiledEntry codec e)
    (himportable : Replica.Importable codec.digest s.replica (entries.map SyncEntry.stored))
    (now : String) (report : ApplyReport) :
    ∃ q, entries.foldlM (Store.importEntry now) (s, report) = .ok q := by
  induction entries generalizing s report with
  | nil => exact ⟨_, rfl⟩
  | cons e rest ih =>
      rw [List.forall_mem_cons] at hentries
      obtain ⟨⟨u, report'⟩, hu⟩ :=
        h.importEntry_of_receivable hentries.1 himportable.1 now report
      have hreceive : s.replica.receive codec.digest e.stored = some u.replica :=
        receive_of_importEntry (hentries.1.fits h.row_memory) hu
      obtain ⟨q, hq⟩ := ih (h.importEntry hentries.1 hu) hentries.2
        (himportable.2 _ hreceive) report'
      exact ⟨q, Iff.mpr List.foldlM_cons_ok_iff ⟨_, hu, hq⟩⟩

theorem Filed.syncImportEntries (h : Filed codec s) {entries : List SyncEntry}
    (hentries : ∀ e ∈ entries, FiledEntry codec e) {peer : String} {upTo : ℤ} {now : String}
    {report : ApplyReport} (himport : s.syncImportEntries peer entries upTo now = .ok (t, report)) :
    Filed codec t := by
  obtain ⟨u, hu, rfl⟩ := syncImportEntries_eq_ok himport
  have hloop : Filed codec u := by
    refine List.foldlM_preserves (P := fun q : Store × ApplyReport ↦ Filed codec q.1) ?_ h hu
    rintro e hmem ⟨v, report⟩ ⟨v', report'⟩ hv hentry
    exact hv.importEntry (hentries e hmem) hentry
  refine hloop.of rfl (fun _ hmem ↦ .inl ?_) fun _ hmem ↦ .inl hmem
  exact (Iff.mp Journal.mem_compact hmem).1

/-- An import of such entries is an import of the replica. -/
theorem Filed.importEntries (h : Filed codec s) {entries : List SyncEntry}
    (hentries : ∀ e ∈ entries, FiledEntry codec e) {peer : String} {upTo : ℤ} {now : String}
    {report : ApplyReport} (himport : s.syncImportEntries peer entries upTo now = .ok (t, report)) :
    s.replica.importEntries codec.digest peer (entries.map SyncEntry.stored) upTo =
      some t.replica := by
  apply importEntries_of_syncImportEntries _ himport
  exact walk_fits hentries h.row_memory

/-! ## Two paired stores -/

/-- A store after a call; one that fails changes nothing. -/
def attempt (codec : Codec) (s : Store) (op : Operation) : Store :=
  match s.perform codec op with
  | .ok t => t
  | .error _ => s

/-- Device `a` seals its export for device `b`, with what it has imported itself as
`ack_for_peer`.  Device `b` imports the bundle and then takes the acknowledgement. -/
def exchange (a b : String) (limit : ℕ) (now : String) (s t : Store) : Store :=
  match s.syncExportEntries b limit with
  | .error _ => t
  | .ok (entries, upTo) =>
      match t.syncImportEntries a entries upTo now with
      | .error _ => t
      | .ok (t', _) => t'.syncAcknowledgePeer a (s.syncImportedWatermark b)

/-- An exchange of the stores is an exchange of the replicas behind them. -/
theorem Filed.exchange (hs : Filed codec s) (ht : Filed codec t) (a b : String) (limit : ℕ)
    (now : String) : Filed codec (exchange a b limit now s t) ∧
      (exchange a b limit now s t).replica =
        Replica.exchange codec.digest a b limit s.replica t.replica := by
  have hentries : ∀ e ∈ (s.replica.exportEntries b limit).map sent, FiledEntry codec e :=
    fun _ hmem ↦ hs.filedEntry_of_mem hmem
  rw [Store.exchange, hs.syncExportEntries]
  dsimp only
  cases himport : t.syncImportEntries a ((s.replica.exportEntries b limit).map sent)
      (s.replica.upTo b (s.replica.exportEntries b limit)) now with
  | ok q =>
      obtain ⟨t', report⟩ := q
      have hfiled := ht.syncImportEntries hentries himport
      have hreceive := ht.importEntries hentries himport
      rw [map_stored_sent] at hreceive
      refine ⟨⟨hfiled.memories, hfiled.kinds, hfiled.addressed⟩, ?_⟩
      rw [Replica.exchange]
      simp only [hreceive, Option.map_some, Option.getD_some]
      rfl
  | error message =>
      have hrefused :
          t.replica.receiveAll codec.digest (s.replica.exportEntries b limit) = none := by
        by_contra hsome
        have himportable := Iff.mp Replica.receiveAll_isSome_iff
          (Option.isSome_iff_ne_none.mpr hsome)
        rw [← map_stored_sent (s.replica.exportEntries b limit)] at himportable
        obtain ⟨⟨u, report⟩, hu⟩ := ht.importEntries_of_importable hentries himportable now
          (.start ((s.replica.exportEntries b limit).map sent).length
            (s.replica.upTo b (s.replica.exportEntries b limit)))
        rw [Store.syncImportEntries, hu] at himport
        cases himport
      exact ⟨ht, (Replica.exchange_of_refused hrefused).symm⟩

/-- What happens to two paired stores. -/
inductive PairEvent where
  | edit (left : Bool) (op : Operation)
  | send (bundle : Send) (now : String)

/-- The replicas behind two stores. -/
def replicas (p : Store × Store) : Replica ObjectKey String String String ObjectRow ×
    Replica ObjectKey String String String ObjectRow :=
  (p.1.replica, p.2.replica)

namespace PairEvent

def apply (codec : Codec) (a b : String) (p : Store × Store) : PairEvent → Store × Store
  | edit true op => (p.1.attempt codec op, p.2)
  | edit false op => (p.1, p.2.attempt codec op)
  | send (.left limit) now => (p.1, exchange a b limit now p.1 p.2)
  | send (.right limit) now => (exchange b a limit now p.2 p.1, p.2)

/-- The calls change documents, and a bundle has room for an entry and its entries settle. -/
def Allowed (codec : Codec) (a b : String) (p : Store × Store) : PairEvent → Prop
  | edit _ op => OfDocuments op
  | send bundle _ => 0 < bundle.limit ∧ bundle.Settles codec.digest a b (replicas p)

def IsEdit : PairEvent → Prop
  | edit _ _ => True
  | send _ _ => False

end PairEvent

/-- The import of an export returns `Ok`. -/
def accepts (a b : String) (limit : ℕ) (now : String) (s t : Store) : Bool :=
  match s.syncExportEntries b limit with
  | .error _ => false
  | .ok (entries, upTo) => (t.syncImportEntries a entries upTo now).toOption.isSome

/-- Two stores of documents whose replicas keep the invariant of an exchange. -/
structure PairedStores (codec : Codec) (a b : String) (p : Store × Store) : Prop where
  left : Filed codec p.1
  right : Filed codec p.2
  paired : Replica.Paired codec.digest a b p.1.replica p.2.replica

variable {a b : String} {p : Store × Store}

theorem PairedStores.symm (h : PairedStores codec a b p) : PairedStores codec b a p.swap :=
  ⟨h.right, h.left, h.paired.symm⟩

theorem pairedStores_adopted (codec : Codec) (a b : String) :
    PairedStores codec a b (adopted (some a), adopted (some b)) := by
  refine ⟨filed_adopted _ _, filed_adopted _ _, ?_⟩
  have hrow : ∀ device key, (adopted device).row key = none := by
    intro device key
    rw [row]
    cases key.kind <;> rfl
  exact Replica.paired_empty rfl rfl rfl rfl (hrow _) (hrow _) rfl rfl

/-- A call on the left device keeps the invariant. -/
theorem PairedStores.attempt (h : PairedStores codec a b p)
    {op : Operation} (hop : OfDocuments op) :
    PairedStores codec a b (p.1.attempt codec op, p.2) := by
  rw [Store.attempt]
  cases hstep : p.1.perform codec op with
  | error message => exact h
  | ok t =>
      obtain ⟨hfiled, hkeep⟩ := h.left.perform hop hstep
      refine ⟨hfiled, h.right,
        hkeep (fun r ↦ Replica.Paired codec.digest a b r p.2.replica) ?_ h.paired⟩
      intro r key row now hr
      exact hr.edit codec.digest_marks key row now

theorem PairEvent.replicas_send (h : PairedStores codec a b p) (bundle : Send) (now : String) :
    (Filed codec ((send bundle now).apply codec a b p).1 ∧
        Filed codec ((send bundle now).apply codec a b p).2) ∧
      replicas ((send bundle now).apply codec a b p) =
        bundle.apply codec.digest a b (replicas p) := by
  cases bundle with
  | left limit =>
      obtain ⟨hfiled, hreplica⟩ := h.left.exchange h.right a b limit now
      exact ⟨⟨h.left, hfiled⟩, congrArg (Prod.mk p.1.replica) hreplica⟩
  | right limit =>
      obtain ⟨hfiled, hreplica⟩ := h.right.exchange h.left b a limit now
      exact ⟨⟨hfiled, h.right⟩, congrArg (fun r ↦ (r, p.2.replica)) hreplica⟩

/-- An event keeps the invariant. -/
theorem PairedStores.apply (h : PairedStores codec a b p)
    {event : PairEvent} (hallowed : event.Allowed codec a b p) :
    PairedStores codec a b (event.apply codec a b p) := by
  cases event with
  | edit left op =>
      cases left with
      | true => exact h.attempt hallowed
      | false => exact (h.symm.attempt hallowed).symm
  | send bundle now =>
      obtain ⟨⟨hleft, hright⟩, hreplicas⟩ := PairEvent.replicas_send h bundle now
      refine ⟨hleft, hright, ?_⟩
      have hpaired : Replica.Paired codec.digest a b
          (bundle.apply codec.digest a b (replicas p)).1
          (bundle.apply codec.digest a b (replicas p)).2 := by
        cases bundle with
        | left limit => exact h.paired.exchange hallowed.2
        | right limit => exact (h.paired.symm.exchange hallowed.2).symm
      rw [← hreplicas] at hpaired
      exact hpaired

/-- A bundle that is accepted could be received by the replica. -/
theorem importable_of_accepts (hs : Filed codec s) (ht : Filed codec t) {limit : ℕ} {now : String}
    (h : accepts a b limit now s t = true) :
    Replica.Importable codec.digest t.replica (s.replica.exportEntries b limit) := by
  rw [accepts, hs.syncExportEntries] at h
  dsimp only at h
  cases himport : t.syncImportEntries a ((s.replica.exportEntries b limit).map sent)
      (s.replica.upTo b (s.replica.exportEntries b limit)) now with
  | error message =>
      rw [himport] at h
      cases h
  | ok q =>
      have hreceive := ht.importEntries (fun _ hmem ↦ hs.filedEntry_of_mem hmem) himport
      rw [map_stored_sent, Replica.importEntries] at hreceive
      obtain ⟨r, hr, -⟩ := Option.map_eq_some_iff.mp hreceive
      exact Iff.mp Replica.receiveAll_isSome_iff (by rw [hr]; rfl)

/-- Two paired stores on which documents are written and removed, and which
exchange bundles whose entries settle.  When the devices are no longer written
on, and each goes on to have a bundle accepted by the other one, they come to
have the same documents and keep them. -/
theorem documents_converge {states : ℕ → Store × Store} {events : ℕ → PairEvent}
    (hcodec : ∀ n key, codec.FaithfulOn
      {row | (states n).1.row key = some row ∨ (states n).2.row key = some row})
    (hstart : states 0 = (adopted (some a), adopted (some b)))
    (hstep : ∀ n, states (n + 1) = (events n).apply codec a b (states n))
    (hallowed : ∀ n, (events n).Allowed codec a b (states n))
    (hquiet : ∃ N, ∀ n ≥ N, ¬(events n).IsEdit)
    (hleft : ∀ n, ∃ m ≥ n, ∃ limit now, events m = .send (.left limit) now ∧
      accepts a b limit now (states m).1 (states m).2 = true)
    (hright : ∀ n, ∃ m ≥ n, ∃ limit now, events m = .send (.right limit) now ∧
      accepts b a limit now (states m).2 (states m).1 = true) :
    ∃ N, ∀ n ≥ N, ∀ id, (states n).1.documents.get id = (states n).2.documents.get id := by
  have hpaired : ∀ n, PairedStores codec a b (states n) := by
    intro n
    induction n with
    | zero =>
        rw [hstart]
        exact pairedStores_adopted codec a b
    | succ n ih =>
        rw [hstep]
        exact ih.apply (hallowed n)
  obtain ⟨Q, hquiet⟩ := hquiet
  -- From the last write on, the events are bundles.
  have hsend : ∀ n, ∃ bundle now, events (Q + n) = .send bundle now := by
    intro n
    have hedit := hquiet (Q + n) (Nat.le_add_right Q n)
    cases hevent : events (Q + n) with
    | edit left op =>
        rw [hevent] at hedit
        exact absurd trivial hedit
    | send bundle now => exact ⟨bundle, now, rfl⟩
  choose sends nows hsends using hsend
  have hbundle : ∀ n, 0 < (sends n).limit ∧
      (sends n).Settles codec.digest a b (replicas (states (Q + n))) := by
    intro n
    have hevent := hallowed (Q + n)
    rw [hsends] at hevent
    exact hevent
  have hheard : ∀ {bundle : ℕ → Send}, (∀ n, ∃ m ≥ n, ∃ limit now,
      events m = .send (bundle limit) now ∧
        (bundle limit).Importable codec.digest a b (replicas (states m))) →
      ∀ n, ∃ m ≥ n, ∃ limit, sends m = bundle limit ∧
        (sends m).Importable codec.digest a b (replicas (states (Q + m))) := by
    intro bundle hheard n
    obtain ⟨m, hm, limit, now, hevent, himportable⟩ := hheard (Q + n)
    obtain ⟨k, rfl⟩ := Nat.exists_eq_add_of_le (Nat.le_trans (Nat.le_add_right Q n) hm)
    have hsame : sends k = bundle limit := by
      have heq := (hsends k).symm.trans hevent
      injection heq
    refine ⟨k, Nat.le_of_add_le_add_left hm, limit, hsame, ?_⟩
    rw [hsame]
    exact himportable
  have hconversation : Conversation codec.digest a b (fun n ↦ replicas (states (Q + n))) sends :=
    { start := (hpaired Q).paired
      step := by
        intro n
        rw [← Nat.add_assoc, hstep, hsends]
        exact (PairEvent.replicas_send (hpaired _) _ _).2
      settles := fun n ↦ (hbundle n).2
      limit := fun n ↦ (hbundle n).1
      left := hheard fun n ↦ by
        obtain ⟨m, hm, limit, now, hevent, haccepts⟩ := hleft n
        exact ⟨m, hm, limit, now, hevent,
          importable_of_accepts (hpaired m).left (hpaired m).right haccepts⟩
      right := hheard fun n ↦ by
        obtain ⟨m, hm, limit, now, hevent, haccepts⟩ := hright n
        exact ⟨m, hm, limit, now, hevent,
          importable_of_accepts (hpaired m).right (hpaired m).left haccepts⟩ }
  obtain ⟨N, hN⟩ := hconversation.converge fun n key row hrow row' hrow' ↦
    (hcodec (Q + n) key).injOn (.inl hrow) (.inr hrow')
  refine ⟨Q + N, fun n hn id ↦ ?_⟩
  obtain ⟨k, rfl⟩ := Nat.exists_eq_add_of_le (Nat.le_trans (Nat.le_add_right Q N) hn)
  have hrow := hN k (Nat.le_of_add_le_add_left hn) ⟨.document, id⟩
  change (states (Q + k)).1.row ⟨.document, id⟩ = (states (Q + k)).2.row ⟨.document, id⟩ at hrow
  rw [row_document, row_document] at hrow
  exact Option.map_injective (fun _ _ ↦ ObjectRow.document.inj) hrow

/-! ## A note that arrives -/

/-- A note is written on one device, and bundles go to and fro. -/
def noteEvents : ℕ → PairEvent
  | 0 => .edit true (.upsert (note "m" "tea") [("tea", [])] "2026-01-01T00:00:00+00:00")
  | n + 1 => .send (if n % 2 = 0 then .left 5 else .right 5) "2026-01-02T00:00:00+00:00"

def noteStates : ℕ → Store × Store
  | 0 => (adopted (some "a"), adopted (some "b"))
  | n + 1 => (noteEvents n).apply .sample "a" "b" (noteStates n)

/-- Neither of the two has anything to deliver. -/
def Delivered (a b : String) (p : Store × Store) : Prop :=
  p.1.journal.after (p.1.watermarks.acked b) = [] ∧
    p.2.journal.after (p.2.watermarks.acked a) = []

instance (p : Store × Store) : Decidable (Delivered a b p) :=
  inferInstanceAs (Decidable (_ ∧ _))

/-- A store with nothing to deliver sends an empty bundle, which is accepted. -/
theorem exchange_of_delivered (h : Delivered a b (s, t)) (limit : ℕ) (now : String) :
    Delivered a b (s, exchange a b limit now s t) ∧ accepts a b limit now s t = true := by
  have hexport : s.syncExportEntries b limit = .ok ([], s.watermarks.acked b) := by
    rw [syncExportEntries]
    simp only [h.1, List.take_nil, List.mapM_nil]
    rfl
  have himport : t.syncImportEntries a [] (s.watermarks.acked b) now =
      .ok (({ t with watermarks := t.watermarks.markImported a (s.watermarks.acked b) } :
        Store).syncCompact, .start 0 (s.watermarks.acked b)) := rfl
  rw [exchange, accepts, hexport]
  dsimp only
  rw [himport]
  refine ⟨⟨h.1, ?_⟩, rfl⟩
  -- what has been acknowledged stays so
  have hacked : t.watermarks.acked a ≤ ((t.watermarks.markImported a
      (s.watermarks.acked b)).acknowledge a (s.watermarks.imported b)).acked a := by
    conv_rhs => rw [Watermarks.acked, Watermarks.get_acknowledge_self,
      Watermarks.get_markImported_self]
    exact le_max_left _ _
  refine List.filter_eq_nil_iff.mpr fun change hmem hafter ↦ ?_
  exact List.filter_eq_nil_iff.mp h.2 change (Iff.mp Journal.mem_compact hmem).1
    (decide_eq_true (hacked.trans_lt (of_decide_eq_true hafter)))

section Walk

variable {digest : Digest ObjectRow String}
  {sender r : Replica ObjectKey String String String ObjectRow} {w : ℤ}
  {entries : List (Entry ObjectKey String String String ObjectRow)}

theorem settles_left_of_eq_nil {limit : ℕ} (h : p.1.replica.exportEntries b limit = []) :
    (Send.left limit).Settles digest a b (replicas p) := by
  change Replica.Walk digest _ _ (p.1.replica.exportEntries b limit)
  rw [h]
  trivial

theorem settles_right_of_eq_nil {limit : ℕ} (h : p.2.replica.exportEntries a limit = []) :
    (Send.right limit).Settles digest a b (replicas p) := by
  change Replica.Walk digest _ _ (p.2.replica.exportEntries a limit)
  rw [h]
  trivial

/-- A bundle of one entry settles when it does not bring back a change of the
receiver, which does not insist on its own. -/
theorem walk_settles_of_single (hlength : entries.length ≤ 1)
    (h : ∀ e ∈ entries, e.origin = b → (r.outcomeOf e).applies = false)
    (hlocal : ∀ e ∈ entries, r.outcomeOf e ≠ .localWins) :
    Replica.Walk digest (Replica.Settles b sender w) r entries := by
  cases entries with
  | nil => trivial
  | cons e rest =>
      obtain rfl : rest = [] :=
        List.length_eq_zero_iff.mp (Nat.le_zero.mp (Nat.le_of_succ_le_succ hlength))
      refine ⟨⟨h e List.mem_cons_self, fun _ houtcome ↦ ?_⟩, fun _ _ ↦ trivial⟩
      exact absurd houtcome (hlocal e List.mem_cons_self)

end Walk

/-- The note arrives, is acknowledged, and so is the acknowledgement. -/
theorem note_bundles :
    ((noteStates 1).1.replica.exportEntries "b" 5).length ≤ 1 ∧
      (∀ e ∈ (noteStates 1).1.replica.exportEntries "b" 5, e.origin = "a" ∧
        (noteStates 1).2.replica.outcomeOf e = .created) ∧
      ((noteStates 2).2.replica.exportEntries "a" 5).length ≤ 1 ∧
      (∀ e ∈ (noteStates 2).2.replica.exportEntries "a" 5,
        (noteStates 2).1.replica.outcomeOf e = .acknowledged) ∧
      (noteStates 3).1.replica.exportEntries "b" 5 = [] ∧
      (noteStates 3).1.documents.rows.length = 1 ∧ Delivered "a" "b" (noteStates 4) := by
  decide +kernel

theorem noteStates_delivered (n : ℕ) : Delivered "a" "b" (noteStates (n + 4)) := by
  induction n with
  | zero => exact note_bundles.2.2.2.2.2.2
  | succ n ih =>
      have hstep : noteStates (n + 1 + 4) =
          (noteEvents (n + 4)).apply .sample "a" "b" (noteStates (n + 4)) := rfl
      rw [hstep, noteEvents]
      split
      · exact (exchange_of_delivered ih 5 _).1
      · exact (exchange_of_delivered ih.symm 5 _).1.symm

theorem documents_converge_note : ∃ N, ∀ n ≥ N, ∀ id,
    (noteStates n).1.documents.get id = (noteStates n).2.documents.get id := by
  obtain ⟨hone, houtcome, hback, hsame, hnone, -, -⟩ := note_bundles
  have hempty : ∀ n, (noteStates (n + 4)).1.replica.exportEntries "b" 5 = [] ∧
      (noteStates (n + 4)).2.replica.exportEntries "a" 5 = [] := by
    intro n
    obtain ⟨hleft, hright⟩ := noteStates_delivered n
    constructor
    · rw [Replica.exportEntries, journal_replica, watermarks_replica, hleft]
      rfl
    · rw [Replica.exportEntries, journal_replica, watermarks_replica, hright]
      rfl
  have hstart : noteStates 0 = (adopted (some "a"), adopted (some "b")) := rfl
  have hstep : ∀ n, noteStates (n + 1) = (noteEvents n).apply .sample "a" "b" (noteStates n) :=
    fun _ ↦ rfl
  refine documents_converge (fun _ _ ↦ Codec.sample_faithfulOn _) hstart hstep ?_ ⟨1, ?_⟩ ?_ ?_
  · intro n
    obtain rfl | rfl | rfl | rfl | ⟨n, rfl⟩ :
        n = 0 ∨ n = 1 ∨ n = 2 ∨ n = 3 ∨ ∃ m, n = m + 4 := by
      rcases Nat.lt_or_ge n 4 with hlt | hge
      · omega
      · exact .inr (.inr (.inr (.inr (Nat.exists_eq_add_of_le' hge))))
    · trivial
    · refine ⟨by decide, walk_settles_of_single hone (fun e he horigin ↦ ?_) fun e he hlocal ↦ ?_⟩
      · rw [(houtcome e he).1] at horigin
        exact absurd horigin (by decide)
      · exact absurd (hlocal.symm.trans (houtcome e he).2) (by decide)
    · refine ⟨by decide, walk_settles_of_single hback (fun e he _ ↦ ?_) fun e he hlocal ↦ ?_⟩
      · exact congrArg Replica.Outcome.applies (hsame e he)
      · exact absurd (hlocal.symm.trans (hsame e he)) (by decide)
    · generalize noteStates 3 = p at hnone ⊢
      exact ⟨Nat.succ_pos 4, settles_left_of_eq_nil hnone⟩
    · obtain ⟨hleft, hright⟩ := hempty n
      rw [noteEvents]
      split
      · exact ⟨Nat.succ_pos 4, settles_left_of_eq_nil hleft⟩
      · exact ⟨Nat.succ_pos 4, settles_right_of_eq_nil hright⟩
  · intro n hn
    obtain ⟨m, rfl⟩ := Nat.exists_eq_add_of_le' hn
    exact id
  · intro n
    refine ⟨2 * n + 5, by omega, 5, "2026-01-02T00:00:00+00:00", ?_, ?_⟩
    · rw [noteEvents, if_pos (by omega)]
    · exact (exchange_of_delivered (noteStates_delivered (2 * n + 1)) 5 _).2
  · intro n
    refine ⟨2 * n + 4, by omega, 5, "2026-01-02T00:00:00+00:00", ?_, ?_⟩
    · rw [noteEvents, if_neg (by omega)]
    · exact (exchange_of_delivered (noteStates_delivered (2 * n)).symm 5 _).2

end Store

end Cortana
