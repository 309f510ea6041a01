import Cortana.Store.Effects
import Cortana.Sync.Engine

/-!
# What an import does to a store

The steps of `sync_import_entries` and `sync_resolve_conflict`, by the outcome
that the entry has in the replica behind the store.
-/

namespace Cortana

open Replication

namespace Store

variable {s t : Store}

theorem requirePayload_eq_ok {entry : SyncEntry} {payload : Payload}
    (h : requirePayload entry = .ok payload) : entry.payload = some payload := by
  rw [requirePayload] at h
  split at h
  · rename_i p hp
    rw [hp, Except.ok.inj h]
  · cases h

/-- A conflict that is recorded: the payload of the entry is appended. -/
theorem recordConflict_eq_ok {entry : SyncEntry} {latest : JournalRow} {resolution now : String}
    (h : s.recordConflict entry latest resolution now = .ok t) :
    ∃ conflict : ConflictRow, conflict.object = entry.object ∧
      entry.payload = some conflict.payload ∧
      t = { s with
        conflicts := s.conflicts ++ [conflict]
        conflictSequence := s.conflictSequence + 1 } := by
  rw [recordConflict] at h
  split at h
  · cases h
  · rename_i payload hpayload
    exact ⟨_, rfl, hpayload, (Except.ok.inj h).symm⟩

/-- What one entry of a bundle does: its payload is put aside if its outcome
says so, and then it is applied if its outcome says so. -/
theorem importEntry_eq_ok {now : String} {report report' : ApplyReport} {entry : SyncEntry}
    (h : importEntry now (s, report) entry = .ok (t, report')) :
    ∃ conflicts sequence,
      (conflicts.map fun c : ConflictRow ↦ (c.object, c.payload.row)) =
        (s.conflicts.map fun c ↦ (c.object, c.payload.row)) ++
          (s.replica.outcomeOf entry.stored).preserved entry.stored ∧
      (s.replica.outcomeOf entry.stored = .remoteWins ∨
        s.replica.outcomeOf entry.stored = .localWins → entry.stored.payload.isSome) ∧
      (if (s.replica.outcomeOf entry.stored).applies then
        { s with conflicts := conflicts, conflictSequence := sequence }.applyIncoming entry = .ok t
      else t = { s with conflicts := conflicts, conflictSequence := sequence }) := by
  rw [Replica.outcomeOf, self_replica, journal_replica, SyncEntry.toChange_stored]
  unfold importEntry at h
  cases hlatest : s.journal.latest entry.object with
  | none =>
      simp only [hlatest] at h
      by_cases htomb : entry.tombstone = true
      · rw [if_pos htomb] at h
        obtain ⟨rfl, -⟩ := Prod.mk.inj (Except.ok.inj h)
        refine ⟨s.conflicts, s.conflictSequence, ?_, ?_, ?_⟩ <;>
          simp [Replica.outcome, htomb, Replica.Outcome.preserved, Replica.Outcome.applies]
      · rw [if_neg htomb] at h
        obtain ⟨payload, hpayload, h⟩ := Iff.mp Except.bind_ok_iff h
        obtain ⟨u, hu, h⟩ := Iff.mp Except.bind_ok_iff h
        obtain ⟨rfl, -⟩ := Prod.mk.inj (Iff.mp Except.pure_ok_iff h)
        refine ⟨s.conflicts, s.conflictSequence, ?_, ?_, ?_⟩
        · simp [Replica.outcome, htomb, Replica.Outcome.preserved]
        · simp [Replica.outcome, htomb]
        · rw [Replica.outcome, SyncEntry.toChange_stored, if_neg htomb]
          simp only [Replica.Outcome.applies, if_true, applyIncoming, if_neg htomb, hpayload]
          exact Iff.mpr Except.bind_ok_iff ⟨payload, rfl, Iff.mpr Except.bind_ok_iff ⟨u, hu, rfl⟩⟩
  | some latest =>
      simp only [hlatest] at h
      rw [Replica.outcome, SyncEntry.toChange_stored]
      by_cases hsame : latest.fingerprint = entry.fingerprint
      · rw [if_pos hsame] at h ⊢
        obtain ⟨rfl, -⟩ := Prod.mk.inj (Except.ok.inj h)
        exact ⟨s.conflicts, s.conflictSequence,
          by simp [Replica.Outcome.preserved], by simp, by simp [Replica.Outcome.applies]⟩
      · rw [if_neg hsame] at h ⊢
        by_cases hown : latest.OwnLive s.selfDevice
        · rw [if_pos hown] at h ⊢
          by_cases hnewer : entry.toChange.Newer latest
          · rw [if_pos hnewer] at h ⊢
            obtain ⟨u, hu, h⟩ := Iff.mp Except.bind_ok_iff h
            obtain ⟨v, hv, h⟩ := Iff.mp Except.bind_ok_iff h
            obtain ⟨rfl, -⟩ := Prod.mk.inj (Iff.mp Except.pure_ok_iff h)
            obtain ⟨conflict, hobject, hpayload, rfl⟩ := recordConflict_eq_ok hu
            exact ⟨_, _, by simp [Replica.Outcome.preserved, hpayload, hobject],
              by simp [hpayload], hv⟩
          · rw [if_neg hnewer] at h ⊢
            obtain ⟨u, hu, h⟩ := Iff.mp Except.bind_ok_iff h
            obtain ⟨rfl, -⟩ := Prod.mk.inj (Iff.mp Except.pure_ok_iff h)
            obtain ⟨conflict, hobject, hpayload, rfl⟩ := recordConflict_eq_ok hu
            exact ⟨s.conflicts ++ [conflict], s.conflictSequence + 1,
              by simp [Replica.Outcome.preserved, hpayload, hobject], by simp [hpayload],
              by simp [Replica.Outcome.applies]⟩
        · rw [if_neg hown] at h ⊢
          obtain ⟨v, hv, h⟩ := Iff.mp Except.bind_ok_iff h
          obtain ⟨rfl, -⟩ := Prod.mk.inj (Iff.mp Except.pure_ok_iff h)
          exact ⟨s.conflicts, s.conflictSequence, by simp [Replica.Outcome.preserved], by simp, hv⟩

theorem syncImportEntries_eq_ok {peer : String} {entries : List SyncEntry} {upTo : ℤ} {now : String}
    {report : ApplyReport} (h : s.syncImportEntries peer entries upTo now = .ok (t, report)) :
    ∃ u, entries.foldlM (importEntry now) (s, .start entries.length upTo) = .ok (u, report) ∧
      t = ({ u with watermarks := u.watermarks.markImported peer upTo } : Store).syncCompact := by
  rw [syncImportEntries] at h
  obtain ⟨⟨u, report'⟩, hu, h⟩ := Iff.mp Except.bind_ok_iff h
  obtain ⟨rfl, rfl⟩ := Prod.mk.inj (Iff.mp Except.pure_ok_iff h)
  exact ⟨u, hu, rfl⟩

/-- Everything of the synchronisation but the rows. -/
def SameSync (s t : Store) : Prop :=
  t.selfDevice = s.selfDevice ∧ t.journal = s.journal ∧ t.watermarks = s.watermarks ∧
    t.conflicts = s.conflicts

theorem applyPayload_frame {kind : ObjectKind} {payload : Payload}
    (h : s.applyPayload kind payload = .ok t) : SameSync s t := by
  unfold applyPayload at h
  split at h
  · split_ifs at h
    obtain rfl := Except.ok.inj h
    exact ⟨rfl, rfl, rfl, rfl⟩
  · split_ifs at h
    obtain rfl := Except.ok.inj h
    exact ⟨rfl, rfl, rfl, rfl⟩
  · cases h
  · cases h

theorem journalInTransaction_eq_ok {codec : Codec} {key : ObjectKey} {now : String}
    (h : s.journalInTransaction codec key now = .ok t) : t = s.journaled codec key now := by
  rw [journalInTransaction] at h
  split at h
  · cases h
  · exact (Except.ok.inj h).symm

/-- A conflict that is resolved: its payload is applied and journaled when the
remote side is accepted. -/
theorem syncResolveConflict_eq_ok {codec : Codec} {conflictId : ℤ} {acceptRemote : Bool}
    {now changedAt : String}
    (h : s.syncResolveConflict codec conflictId acceptRemote now changedAt = .ok t) :
    ∃ u conflicts, (conflicts.map fun c : ConflictRow ↦ (c.object, c.payload.row)) =
        (s.conflicts.map fun c ↦ (c.object, c.payload.row)) ∧
      t = { u with conflicts := conflicts } ∧
      ((acceptRemote = false ∧ u = s) ∨
        ∃ conflict ∈ s.conflicts.find? fun c ↦ c.conflictId = conflictId ∧ c.resolvedAt = none,
          ∃ v, acceptRemote = true ∧
          s.applyPayload conflict.object.kind conflict.payload = .ok v ∧
          u = v.journaled codec conflict.object changedAt) := by
  rw [syncResolveConflict] at h
  split at h
  · cases h
  · rename_i conflict hfind
    dsimp only at h
    have hmarked : ∀ conflicts : List ConflictRow,
        ((conflicts.map fun c ↦
          if c.conflictId = conflictId then { c with resolvedAt := some now } else c).map
            fun c ↦ (c.object, c.payload.row)) =
          conflicts.map fun c ↦ (c.object, c.payload.row) := by
      intro conflicts
      rw [List.map_map]
      refine List.map_congr_left fun c _ ↦ ?_
      rw [Function.comp_apply]
      split <;> rfl
    cases acceptRemote with
    | false =>
        obtain rfl := Iff.mp Except.pure_ok_iff h
        exact ⟨s, _, hmarked s.conflicts, rfl, Or.inl ⟨rfl, rfl⟩⟩
    | true =>
        obtain ⟨v, hv, h⟩ := Iff.mp Except.bind_ok_iff h
        obtain ⟨u, hu, h⟩ := Iff.mp Except.bind_ok_iff h
        obtain rfl := Iff.mp Except.pure_ok_iff h
        obtain rfl := journalInTransaction_eq_ok hu
        have hconflicts := (applyPayload_frame hv).2.2.2
        refine ⟨_, _, ?_, rfl, Or.inr ⟨conflict, hfind, v, rfl, hv, rfl⟩⟩
        rw [hmarked]
        exact congrArg _ hconflicts

end Store

end Cortana
