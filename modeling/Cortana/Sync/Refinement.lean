import Cortana.Replication.Tracking
import Cortana.Sync.Steps

/-!
# The replica behind a store

The writes of a store are edits of the replica behind it, and an import
receives a bundle there, as long as a payload is a row of its own object and a
tombstone names no row of the other table.
-/

namespace Cortana

open Replication

namespace Store

variable {codec : Codec} {s t u : Store}

theorem replica_eq_of {r : Replica ObjectKey String String String ObjectRow}
    (hself : t.selfDevice = r.self) (hrow : t.row = r.row) (hjournal : t.journal = r.journal)
    (hwatermarks : t.watermarks = r.watermarks)
    (hconflicts : (t.conflicts.map fun c ↦ (c.object, c.payload.row)) = r.conflicts) :
    t.replica = r := by
  cases r
  simp only at hself hrow hjournal hwatermarks hconflicts
  rw [replica, hself, hrow, hjournal, hwatermarks, hconflicts]

/-! ## Local writes -/

theorem id_writtenDocument (codec : Codec) (s : Store) (document : Document) :
    (s.writtenDocument codec document).id = stableId codec document.source document.sourceId := by
  rw [writtenDocument, id_mergedDocument]
  rfl

theorem replica_writeDocument {document : Document} {chunks : List ChunkRow} {now : String}
    (h : s.writeDocument codec document chunks now = .ok t) :
    t.replica = s.replica.edit codec.digest
      ⟨.document, stableId codec document.source document.sourceId⟩
      (some (.document (s.writtenDocument codec document))) now := by
  obtain ⟨used, chunks, chunksFts, codeIndexes, -, rfl⟩ := writeDocument_eq_ok h
  refine replica_eq_of rfl ?_ rfl rfl rfl
  rw [← id_writtenDocument codec s document]
  exact row_put_document rfl rfl

theorem replica_removeStale {now : String → String} {id : String}
    (h : removeStale codec now s id = .ok t) :
    t.replica = s.replica.edit codec.digest ⟨.document, id⟩ none (now id) := by
  obtain ⟨used, rfl⟩ := removeStale_eq_ok h
  exact replica_eq_of rfl (row_erase_document rfl rfl) rfl rfl rfl

/-- A memory is written; the one it supersedes is another matter. -/
theorem replica_writeMemory {call : MemoryCall} {row : MemoryRow}
    (hsuperseded : s.superseded call row = s) (h : s.writeMemory codec call row = .ok t) :
    t.replica = s.replica.edit codec.digest ⟨.memory, row.id⟩
      (some (.memory (mergedMemory s.memories row))) call.changedAt := by
  obtain ⟨memoriesFts, rfl⟩ := writeMemory_eq_ok h
  rw [hsuperseded]
  refine replica_eq_of rfl ?_ rfl rfl rfl
  rw [← id_mergedMemory s.memories row]
  exact row_put_memory rfl rfl

theorem replica_forgetMemoryScoped {call : MemoryCall} {id : String} {found : Bool}
    (h : s.forgetMemoryScoped codec call id = .ok (t, found)) :
    t = s ∨ ∃ memory, t.replica = s.replica.edit codec.digest ⟨.memory, id⟩
      (some (.memory (retracted memory call.now))) call.changedAt := by
  rcases forgetMemoryScoped_eq_ok h with ⟨-, rfl, -⟩ | ⟨memory, hactive, -, rfl⟩
  · exact Or.inl rfl
  · refine Or.inr ⟨memory, replica_eq_of rfl ?_ rfl rfl rfl⟩
    obtain rfl : memory.id = id := Table.key_of_get (Iff.mp activeMemory_eq_some hactive).1
    exact row_put_memory (r := retracted memory call.now) rfl rfl

/-! ## Received entries -/

/-- What an entry would write is the row of its object, and what it would
delete is no row of the other table. -/
def Fits (r : Replica ObjectKey String String String ObjectRow)
    (e : Entry ObjectKey String String String ObjectRow) : Prop :=
  (r.outcomeOf e).applies = true →
    if e.tombstone then
      (e.object.kind ≠ .document → r.row ⟨.document, e.object.id⟩ = none) ∧
        (e.object.kind ≠ .memory → r.row ⟨.memory, e.object.id⟩ = none)
    else ∀ row ∈ e.payload, row.key = some e.object

theorem row_applyPayload {key : ObjectKey} {payload : Payload} (hkey : payload.row.key = some key)
    (h : s.applyPayload key.kind payload = .ok t) :
    t.row = Function.update s.row key (some payload.row) := by
  obtain ⟨row, strings⟩ := payload
  cases row with
  | document row =>
      obtain rfl : _ = key := Option.some.inj hkey
      simp only [applyPayload] at h
      split_ifs at h
      obtain rfl := Except.ok.inj h
      exact row_put_document rfl rfl
  | memory row =>
      obtain rfl : _ = key := Option.some.inj hkey
      simp only [applyPayload] at h
      split_ifs at h
      obtain rfl := Except.ok.inj h
      exact row_put_memory rfl rfl
  | malformed => cases hkey

theorem row_deleteObject (s : Store) {key : ObjectKey}
    (hdocument : key.kind ≠ .document → s.row ⟨.document, key.id⟩ = none)
    (hmemory : key.kind ≠ .memory → s.row ⟨.memory, key.id⟩ = none) :
    (s.deleteObject key.id).row = Function.update s.row key none := by
  funext ⟨kind, id⟩
  by_cases hkey : (⟨kind, id⟩ : ObjectKey) = key
  · subst hkey
    rw [Function.update_self]
    cases kind with
    | document => simp [row_document, deleteObject, deleteDocument, Table.get_erase]
    | memory => simp [row_memory, deleteObject, Table.get_erase]
    | other name => rfl
  · rw [Function.update_of_ne hkey]
    by_cases hid : id = key.id
    · subst hid
      cases kind with
      | document =>
          rw [hdocument fun hkind ↦ hkey (by rw [← hkind])]
          simp [row_document, deleteObject, deleteDocument, Table.get_erase]
      | memory =>
          rw [hmemory fun hkind ↦ hkey (by rw [← hkind])]
          simp [row_memory, deleteObject, Table.get_erase]
      | other name => rfl
    · cases kind with
      | document => simp [row_document, deleteObject, deleteDocument, Table.get_erase, hid,
          deleteMemoryFts, deleteChunks, deleteChunksFts]
      | memory => simp [row_memory, deleteObject, deleteDocument, Table.get_erase, hid,
          deleteMemoryFts, deleteChunks, deleteChunksFts]
      | other name => rfl

/-- An entry that fits is applied to the row of its object, under the change it
comes with. -/
theorem applyIncoming_eq_ok {e : SyncEntry} (codec : Codec)
    (hfits : if e.tombstone then
      (e.object.kind ≠ .document → s.row ⟨.document, e.object.id⟩ = none) ∧
        (e.object.kind ≠ .memory → s.row ⟨.memory, e.object.id⟩ = none)
      else ∀ row ∈ e.stored.payload, row.key = some e.object)
    (h : s.applyIncoming e = .ok t) :
    t.selfDevice = s.selfDevice ∧ t.watermarks = s.watermarks ∧ t.conflicts = s.conflicts ∧
      t.row = Function.update s.row e.object e.stored.resulting ∧
      t.journal = s.journal.append e.object e.origin (e.stored.stamp codec.digest) e.tombstone
        e.changedAt ∧
      (e.tombstone = false → e.stored.payload.isSome) := by
  rw [applyIncoming] at h
  rw [Entry.resulting, Entry.stamp, SyncEntry.toChange_stored]
  cases htomb : e.tombstone with
  | true =>
      rw [htomb, if_pos rfl] at h hfits
      obtain rfl := Except.ok.inj h
      exact ⟨rfl, rfl, rfl, row_deleteObject s hfits.1 hfits.2, rfl, by simp⟩
  | false =>
      rw [htomb, if_neg Bool.false_ne_true] at h hfits
      obtain ⟨payload, hrequire, h⟩ := Iff.mp Except.bind_ok_iff h
      obtain ⟨v, hv, h⟩ := Iff.mp Except.bind_ok_iff h
      obtain rfl := Iff.mp Except.pure_ok_iff h
      have hpayload := requirePayload_eq_ok hrequire
      obtain ⟨hself, hjournal, hwatermarks, hconflicts⟩ := applyPayload_frame hv
      have hrow := row_applyPayload (hfits payload.row (by simp [hpayload])) hv
      refine ⟨hself, hwatermarks, hconflicts, ?_, ?_, fun _ ↦ by simp [hpayload]⟩
      · rw [SyncEntry.payload_stored, hpayload]
        exact hrow
      · simp [journalReceived, hjournal]

/-- Importing an entry that fits is receiving it. -/
theorem receive_of_importEntry {e : SyncEntry} {now : String} {report report' : ApplyReport}
    (hfits : Fits s.replica e.stored) (h : importEntry now (s, report) e = .ok (t, report')) :
    s.replica.receive codec.digest e.stored = some t.replica := by
  obtain ⟨conflicts, sequence, hconflicts, hpreserved, hresult⟩ := importEntry_eq_ok h
  have hreceivable : s.replica.Receivable e.stored ∧ t.selfDevice = s.selfDevice ∧
      t.watermarks = s.watermarks ∧ t.conflicts = conflicts ∧
      (t.row = if (s.replica.outcomeOf e.stored).applies then Function.update s.row e.object e.stored.resulting
        else s.row) ∧
      (t.journal = if (s.replica.outcomeOf e.stored).applies then
        s.journal.append e.object e.origin (e.stored.stamp codec.digest) e.tombstone e.changedAt
        else s.journal) := by
    cases happlies : (s.replica.outcomeOf e.stored).applies with
    | false =>
        rw [happlies, if_neg Bool.false_ne_true] at hresult
        subst hresult
        refine ⟨?_, rfl, rfl, rfl, rfl, rfl⟩
        cases ho : s.replica.outcomeOf e.stored with
        | unknownTombstone => exact Or.inr (Or.inl ho)
        | acknowledged => exact Or.inr (Or.inr (Or.inl ho))
        | localWins => exact Or.inl (hpreserved (Or.inr ho))
        | created | remoteWins | caughtUp => simp [ho, Replica.Outcome.applies] at happlies
    | true =>
        rw [happlies, if_pos rfl] at hresult
        obtain ⟨hself, hwatermarks, hkept, hrow, hjournal, hpayload⟩ :=
          applyIncoming_eq_ok
            (s := { s with conflicts := conflicts, conflictSequence := sequence })
            codec (hfits happlies) hresult
        refine ⟨?_, hself, hwatermarks, hkept, hrow, hjournal⟩
        cases htomb : e.tombstone with
        | false => exact Or.inl (hpayload htomb)
        | true =>
            cases ho : s.replica.outcomeOf e.stored with
            | remoteWins => exact Or.inl (hpreserved (Or.inl ho))
            | caughtUp => exact Or.inr (Or.inr (Or.inr ⟨htomb, ho⟩))
            | created =>
                have hlive := Replica.tombstone_of_created ho
                rw [SyncEntry.toChange_stored, htomb] at hlive
                cases hlive
            | unknownTombstone | acknowledged | localWins =>
                simp [ho, Replica.Outcome.applies] at happlies
  obtain ⟨hreceivable, hself, hwatermarks, hkept, hrow, hjournal⟩ := hreceivable
  have hsome : (s.replica.receive codec.digest e.stored).isSome :=
    Iff.mpr Replica.receive_isSome_iff hreceivable
  obtain ⟨r, hr⟩ := Option.isSome_iff_exists.mp hsome
  have hreceived := Replica.received_of_receive hr
  rw [hr, replica_eq_of (r := r)]
  · exact hself.trans hreceived.self.symm
  · rw [hrow, hreceived.row]
    rfl
  · rw [hjournal, hreceived.journal]
    rfl
  · exact hwatermarks.trans hreceived.watermarks.symm
  · rw [hkept, hconflicts, hreceived.conflicts]
    rfl

/-- A bundle is imported entry by entry. -/
theorem receiveAll_of_importEntries {entries : List SyncEntry} {now : String}
    {report report' : ApplyReport}
    (hfits : Replica.Walk codec.digest Fits s.replica (entries.map SyncEntry.stored))
    (h : entries.foldlM (importEntry now) (s, report) = .ok (t, report')) :
    s.replica.receiveAll codec.digest (entries.map SyncEntry.stored) = some t.replica := by
  induction entries generalizing s report with
  | nil =>
      obtain ⟨rfl, -⟩ := Prod.mk.inj (Iff.mp List.foldlM_nil_ok_iff h)
      rfl
  | cons e rest ih =>
      obtain ⟨⟨u, report''⟩, hu, hrest⟩ := Iff.mp List.foldlM_cons_ok_iff h
      have hreceive : s.replica.receive codec.digest e.stored = some u.replica :=
        receive_of_importEntry hfits.1 hu
      rw [List.map_cons, Replica.receiveAll_cons, hreceive]
      exact ih (hfits.2 _ hreceive) hrest

/-- An import receives the bundle in the replica behind the store. -/
theorem importEntries_of_syncImportEntries {peer : String} {entries : List SyncEntry} {upTo : ℤ}
    {now : String} {report : ApplyReport}
    (hfits : Replica.Walk codec.digest Fits s.replica (entries.map SyncEntry.stored))
    (h : s.syncImportEntries peer entries upTo now = .ok (t, report)) :
    s.replica.importEntries codec.digest peer (entries.map SyncEntry.stored) upTo =
      some t.replica := by
  obtain ⟨u, hu, rfl⟩ := syncImportEntries_eq_ok h
  rw [Replica.importEntries, receiveAll_of_importEntries hfits hu]
  rfl

/-- Accepting the remote side of a conflict writes the row that was put aside. -/
theorem replica_syncResolveConflict {conflictId : ℤ} {acceptRemote : Bool} {now changedAt : String}
    (hkey : acceptRemote = true → ∀ conflict ∈ s.conflicts.find? fun c ↦
      c.conflictId = conflictId ∧ c.resolvedAt = none,
        conflict.payload.row.key = some conflict.object)
    (h : s.syncResolveConflict codec conflictId acceptRemote now changedAt = .ok t) :
    t.replica = s.replica ∨ ∃ conflict ∈ s.conflicts.find? fun c ↦
        c.conflictId = conflictId ∧ c.resolvedAt = none,
      t.replica =
        s.replica.edit codec.digest conflict.object (some conflict.payload.row) changedAt := by
  obtain ⟨u, conflicts, hconflicts, rfl, hu⟩ := syncResolveConflict_eq_ok h
  rcases hu with ⟨-, rfl⟩ | ⟨conflict, hfind, v, haccept, hv, rfl⟩
  · exact Or.inl (replica_eq_of rfl rfl rfl rfl hconflicts)
  · obtain ⟨hself, hjournal, hwatermarks, -⟩ := applyPayload_frame hv
    have hrow := row_applyPayload (hkey haccept conflict hfind) hv
    refine Or.inr ⟨conflict, hfind, replica_eq_of hself hrow ?_ hwatermarks hconflicts⟩
    simp only [journaled, hself, hjournal, hrow, Function.update_self]
    rfl

end Store

end Cortana
