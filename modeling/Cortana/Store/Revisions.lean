import Cortana.Store.Operations
import Cortana.Sync.Steps

/-!
# Cache revisions

The answer cache is keyed by two counters.  They move with the documents, the
chunks and the memories in every operation but those of the synchronisation,
which write rows and leave the counters alone.
-/

namespace Cortana

open Replication

namespace Store

/-- The counters have not gone back, and have moved with what changed. -/
structure Tracked (s t : Store) : Prop where
  corpus : s.corpusRevision ≤ t.corpusRevision
  memory : s.memoryRevision ≤ t.memoryRevision
  documents : s.corpusRevision = t.corpusRevision → t.documents = s.documents
  chunks : s.corpusRevision = t.corpusRevision → t.chunks = s.chunks
  memories : s.memoryRevision = t.memoryRevision → t.memories = s.memories

variable {codec : Codec} {s t u : Store}

theorem Tracked.refl (s : Store) : s.Tracked s :=
  ⟨le_rfl, le_rfl, fun _ ↦ rfl, fun _ ↦ rfl, fun _ ↦ rfl⟩

theorem Tracked.trans (h : s.Tracked t) (h' : t.Tracked u) : s.Tracked u := by
  have hcorpus := h.corpus
  have hcorpus' := h'.corpus
  have hmemory := h.memory
  have hmemory' := h'.memory
  refine ⟨by omega, by omega, fun heq ↦ ?_, fun heq ↦ ?_, fun heq ↦ ?_⟩
  · rw [h'.documents (by omega), h.documents (by omega)]
  · rw [h'.chunks (by omega), h.chunks (by omega)]
  · rw [h'.memories (by omega), h.memories (by omega)]

/-- Nothing that is read has changed. -/
theorem Tracked.of_eq (hcorpus : t.corpusRevision = s.corpusRevision)
    (hmemory : t.memoryRevision = s.memoryRevision) (hdocuments : t.documents = s.documents)
    (hchunks : t.chunks = s.chunks) (hmemories : t.memories = s.memories) : s.Tracked t :=
  ⟨hcorpus.ge, hmemory.ge, fun _ ↦ hdocuments, fun _ ↦ hchunks, fun _ ↦ hmemories⟩

/-- Documents and chunks may have changed: their counter has moved. -/
theorem Tracked.of_corpus (hcorpus : s.corpusRevision < t.corpusRevision)
    (hmemory : t.memoryRevision = s.memoryRevision) (hmemories : t.memories = s.memories) :
    s.Tracked t :=
  ⟨hcorpus.le, hmemory.ge, fun h ↦ absurd h hcorpus.ne, fun h ↦ absurd h hcorpus.ne,
    fun _ ↦ hmemories⟩

/-- Memories may have changed: their counter has moved. -/
theorem Tracked.of_memory (hmemory : s.memoryRevision < t.memoryRevision)
    (hcorpus : t.corpusRevision = s.corpusRevision) (hdocuments : t.documents = s.documents)
    (hchunks : t.chunks = s.chunks) : s.Tracked t :=
  ⟨hcorpus.ge, hmemory.le, fun _ ↦ hdocuments, fun _ ↦ hchunks, fun h ↦ absurd h hmemory.ne⟩

/-! ## The operations -/

theorem tracked_writeDocument {document : Document} {chunks : List ChunkRow} {now : String}
    (h : s.writeDocument codec document chunks now = .ok t) : s.Tracked t := by
  obtain ⟨_, _, _, _, -, rfl⟩ := writeDocument_eq_ok h
  exact .of_corpus (Nat.lt_succ_self _) rfl rfl

/-- The deletions of `reconcile` are counted once at its end. -/
theorem tracked_reconcile {source project : String} {seen : List String} {now : String → String}
    {n : ℕ} (h : s.reconcile codec source project seen now = .ok (t, n)) : s.Tracked t := by
  obtain ⟨u, hu, rfl⟩ := reconcile_eq_ok h
  have hloop : u.corpusRevision = s.corpusRevision ∧ u.memoryRevision = s.memoryRevision ∧
      u.memories = s.memories := by
    refine List.foldlM_preserves (P := fun u : Store ↦ u.corpusRevision = s.corpusRevision ∧
      u.memoryRevision = s.memoryRevision ∧ u.memories = s.memories) ?_ ⟨rfl, rfl, rfl⟩ hu
    rintro id _ v v' hv hremove
    obtain ⟨_, rfl⟩ := removeStale_eq_ok hremove
    exact hv
  obtain ⟨hcorpus, hmemory, hmemories⟩ := hloop
  split
  · rename_i hnone
    rw [hnone] at hu
    obtain rfl := Iff.mp List.foldlM_nil_ok_iff hu
    exact .refl _
  · refine .of_corpus ?_ hmemory hmemories
    rw [bumpCorpusRevision, hcorpus]
    exact Nat.lt_succ_self _

/-- The changes of `backfill_project_acls` are counted once at its end. -/
theorem tracked_backfillProjectAcls {mappings : List (String × List String)} {n : ℕ}
    (h : s.backfillProjectAcls codec mappings = .ok (t, n)) : s.Tracked t := by
  obtain ⟨u, hu, rfl⟩ := backfillProjectAcls_eq_ok h
  have hloop : (u, n).1.corpusRevision = s.corpusRevision ∧
      (u, n).1.memoryRevision = s.memoryRevision ∧ (u, n).1.memories = s.memories ∧
      (u, n).1.chunks = s.chunks ∧ ((u, n).2 = 0 → (u, n).1.documents = s.documents) := by
    refine List.foldlM_preserves (P := fun p : Store × ℕ ↦
      p.1.corpusRevision = s.corpusRevision ∧ p.1.memoryRevision = s.memoryRevision ∧
      p.1.memories = s.memories ∧ p.1.chunks = s.chunks ∧
      (p.2 = 0 → p.1.documents = s.documents)) ?_ ⟨rfl, rfl, rfl, rfl, fun _ ↦ rfl⟩ hu
    rintro mapping _ ⟨v, m⟩ ⟨v', m'⟩ ⟨hcorpus, hmemory, hmemories, hchunks, hdocuments⟩ hmapping
    obtain ⟨aclJson, rfl, hcount⟩ := backfillProjectAcl_eq_ok hmapping
    refine ⟨hcorpus, hmemory, hmemories, hchunks, fun hzero ↦ ?_⟩
    change m' = 0 at hzero
    have hempty : v.documents.rows.filter (lacksAcl mapping.1) = [] :=
      List.eq_nil_of_length_eq_zero (by omega)
    rw [← hdocuments (show m = 0 by omega)]
    change v.documents.modify (setAcl mapping.1 aclJson) (id_setAcl mapping.1 aclJson) = v.documents
    refine Table.modify_eq_self fun d hd ↦ ?_
    have hlacks := List.filter_eq_nil_iff.mp hempty d hd
    rw [setAcl, if_neg hlacks]
  obtain ⟨hcorpus, hmemory, hmemories, hchunks, hdocuments⟩ := hloop
  split
  · refine .of_corpus ?_ hmemory hmemories
    rw [bumpCorpusRevision, hcorpus]
    exact Nat.lt_succ_self _
  · exact .of_eq hcorpus hmemory (hdocuments (by simp only; omega)) hchunks hmemories

theorem tracked_insertEvaluationDocument {document : Document} {embedding : Embedding}
    (h : insertEvaluationDocument codec embedding s document = .ok t) : s.Tracked t := by
  obtain ⟨_, _, _, -, rfl⟩ := insertEvaluationDocument_eq_ok h
  exact .of_corpus (Nat.lt_succ_self _) rfl rfl

theorem tracked_rememberInTransaction {call : MemoryCall} {input : MemoryInput} {axes : MemoryAxes}
    {id : String} (h : s.rememberInTransaction codec call input axes = .ok (t, id)) :
    s.Tracked t := by
  obtain ⟨valid, existingAcl, hremembered⟩ := rememberInTransaction_cases h
  rcases hremembered.written with ⟨-, rfl⟩ | ⟨-, -, -, hwrite⟩
  · exact .refl _
  · obtain ⟨memoriesFts, rfl⟩ := writeMemory_eq_ok hwrite
    rcases s.superseded_cases call _ with hsame | ⟨previous, -, hsuperseded⟩
    · rw [hsame]
      exact .of_memory (Nat.lt_succ_self _) rfl rfl rfl
    · rw [hsuperseded]
      exact .of_memory (Nat.lt_succ_self _) rfl rfl rfl

/-- An import none of whose entries is applied, and a conflict that is resolved
for the local side. -/
def RowsKept (s : Store) : Operation → Prop
  | .importEntries _ entries _ _ => ∀ e ∈ entries, (s.replica.outcomeOf e.stored).applies = false
  | .resolveConflict _ acceptRemote _ _ => acceptRemote = false
  | _ => True

theorem tracked_syncImportEntries {peer : String} {entries : List SyncEntry} {upTo : ℤ}
    {now : String} {report : ApplyReport}
    (hkept : ∀ e ∈ entries, (s.replica.outcomeOf e.stored).applies = false)
    (h : s.syncImportEntries peer entries upTo now = .ok (t, report)) : s.Tracked t := by
  obtain ⟨u, hu, rfl⟩ := syncImportEntries_eq_ok h
  -- Nothing is applied, so the journal that decides the outcomes stays as it is.
  have hloop : s.Tracked u ∧ u.journal = s.journal ∧ u.selfDevice = s.selfDevice := by
    refine List.foldlM_preserves (P := fun p : Store × ApplyReport ↦
      s.Tracked p.1 ∧ p.1.journal = s.journal ∧ p.1.selfDevice = s.selfDevice)
      ?_ ⟨.refl s, rfl, rfl⟩ hu
    rintro e he ⟨v, r⟩ ⟨v', r'⟩ ⟨htracked, hjournal, hself⟩ himport
    have hsame : v.replica.outcomeOf e.stored = s.replica.outcomeOf e.stored := by
      rw [Replica.outcomeOf, Replica.outcomeOf, self_replica, self_replica, journal_replica,
        journal_replica, hjournal, hself]
    obtain ⟨conflicts, sequence, -, -, hresult⟩ := importEntry_eq_ok himport
    rw [hsame, if_neg (by simp [hkept e he])] at hresult
    subst hresult
    exact ⟨htracked.trans (.of_eq rfl rfl rfl rfl rfl), hjournal, hself⟩
  exact hloop.1.trans (.of_eq rfl rfl rfl rfl rfl)

theorem tracked_step {op : Operation} (hop : s.RowsKept op) (hstep : s.Step codec op t) :
    s.Tracked t := by
  rw [Step] at hstep
  cases op with
  | upsert document chunks now =>
      obtain ⟨⟨u, written⟩, hu, rfl⟩ := Iff.mp Except.map_ok_iff hstep
      rcases upsert_eq_ok hu with ⟨-, rfl, -⟩ | ⟨-, -, hwrite⟩
      · exact .refl _
      · exact tracked_writeDocument hwrite
  | upsertStructured document chunks now =>
      obtain ⟨⟨u, written⟩, hu, rfl⟩ := Iff.mp Except.map_ok_iff hstep
      rcases upsertStructured_eq_ok hu with ⟨-, rfl, -⟩ | ⟨-, -, hwrite⟩
      · exact .refl _
      · exact tracked_writeDocument hwrite
  | insertEvaluationCorpus documents embedding =>
      rw [perform, insertEvaluationCorpus] at hstep
      split_ifs at hstep
      exact List.foldlM_relates Tracked.refl (fun _ _ _ ↦ Tracked.trans)
        (fun _ _ _ _ ↦ tracked_insertEvaluationDocument) hstep
  | refreshTimestamp document =>
      obtain rfl := Except.ok.inj hstep
      rcases refreshTimestamp_cases codec s document with hsame | ⟨row, -, -, heq⟩
      · rw [hsame]
        exact .refl _
      · rw [heq]
        exact .of_corpus (Nat.lt_succ_self _) rfl rfl
  | reconcile source project seenSourceIds now =>
      obtain ⟨⟨u, n⟩, hu, rfl⟩ := Iff.mp Except.map_ok_iff hstep
      exact tracked_reconcile hu
  | backfillProjectAcls mappings =>
      obtain ⟨⟨u, n⟩, hu, rfl⟩ := Iff.mp Except.map_ok_iff hstep
      exact tracked_backfillProjectAcls hu
  | beginEmbeddingRebuild oldGeneration newGeneration =>
      obtain ⟨⟨u, n⟩, hu, rfl⟩ := Iff.mp Except.map_ok_iff hstep
      obtain rfl := beginEmbeddingRebuild_eq_ok hu
      exact .of_eq rfl rfl rfl rfl rfl
  | stageEmbeddingRebuild vectors =>
      obtain ⟨rebuild, rfl, -⟩ := stageEmbeddingRebuild_eq_ok hstep
      exact .of_eq rfl rfl rfl rfl rfl
  | commitEmbeddingRebuild oldGeneration newGeneration =>
      obtain ⟨⟨u, n⟩, hu, rfl⟩ := Iff.mp Except.map_ok_iff hstep
      obtain ⟨staged, -, -, rfl⟩ := commitEmbeddingRebuild_eq_ok hu
      exact .of_corpus (Nat.lt_succ_self _) rfl rfl
  | remember call input axes =>
      obtain ⟨⟨u, id⟩, hu, rfl⟩ := Iff.mp Except.map_ok_iff hstep
      exact tracked_rememberInTransaction (rememberScopedWithAxes_eq_ok hu)
  | forget call id =>
      obtain ⟨⟨u, found⟩, hu, rfl⟩ := Iff.mp Except.map_ok_iff hstep
      rcases forgetMemoryScoped_eq_ok hu with ⟨-, rfl, -⟩ | ⟨memory, -, -, rfl⟩
      · exact .refl _
      · exact .of_memory (Nat.lt_succ_self _) rfl rfl rfl
  | promote call candidate report =>
      have hpromote : s.promoteCandidate codec call candidate report = .ok t := hstep
      rcases promoteCandidate_eq_ok hpromote with rfl | ⟨axes, id, -, hremember⟩
      · exact .refl _
      · exact tracked_rememberInTransaction hremember
  | acknowledge peer ack =>
      obtain rfl := Except.ok.inj hstep
      exact .of_eq rfl rfl rfl rfl rfl
  | compact =>
      obtain rfl := Except.ok.inj hstep
      exact .of_eq rfl rfl rfl rfl rfl
  | importEntries peer entries upTo now =>
      obtain ⟨⟨u, report⟩, hu, rfl⟩ := Iff.mp Except.map_ok_iff hstep
      exact tracked_syncImportEntries hop hu
  | resolveConflict conflictId acceptRemote now changedAt =>
      obtain ⟨u, conflicts, -, rfl, hu⟩ := syncResolveConflict_eq_ok hstep
      rcases hu with ⟨-, rfl⟩ | ⟨conflict, -, v, haccept, -, -⟩
      · exact .of_eq rfl rfl rfl rfl rfl
      · rw [show acceptRemote = false from hop] at haccept
        cases haccept

/-- In every run without synchronised changes, two states with the same
counters hold the same documents, chunks and memories, and the counters never
go back. -/
theorem revisions_track (hrun : Run codec RowsKept s t) :
    s.corpusRevision ≤ t.corpusRevision ∧ s.memoryRevision ≤ t.memoryRevision ∧
      (t.documents ≠ s.documents ∨ t.chunks ≠ s.chunks → s.corpusRevision < t.corpusRevision) ∧
      (t.memories ≠ s.memories → s.memoryRevision < t.memoryRevision) := by
  have htracked : s.Tracked t :=
    Transition.Run.relates Tracked.refl (fun _ _ _ ↦ Tracked.trans)
      (fun (_ : Store) _ _ (_ : True) _ _ ↦ trivial)
      (fun _ _ _ _ hop hstep ↦ tracked_step hop hstep) hrun trivial
  refine ⟨htracked.corpus, htracked.memory, fun hchanged ↦ ?_, fun hchanged ↦ ?_⟩
  · refine lt_of_le_of_ne htracked.corpus fun heq ↦ ?_
    rcases hchanged with hdocuments | hchunks
    · exact hdocuments (htracked.documents heq)
    · exact hchunks (htracked.chunks heq)
  · exact lt_of_le_of_ne htracked.memory fun heq ↦ hchanged (htracked.memories heq)

/-- A note is written and updated, then deleted, and a memory is remembered. -/
theorem revisions_track_note :
    ∃ s t u, Run .sample RowsKept (adopted none) s ∧ Run .sample RowsKept s t ∧
      Run .sample RowsKept t u ∧ s.documents.rows.length = 1 ∧ t.documents.rows.length = 0 ∧
      u.memories.rows.length = 1 ∧ s.corpusRevision < t.corpusRevision ∧
      t.memoryRevision < u.memoryRevision := by
  obtain ⟨s, hs, hvalues⟩ := exists_of_performAll .sample (adopted none)
    [.upsert (note "menu.md" "tea") [("tea", [])] "2026-01-01T00:00:00+00:00",
      .upsert (note "menu.md" "coffee") [("coffee", [])] "2026-01-02T00:00:00+00:00"]
    (fun s ↦ (s.documents.rows.length, (s.performAll .sample
      [.reconcile "notes" "work" [] fun _ ↦ "2026-01-03T00:00:00+00:00"]).toOption.map fun t ↦
        (t.documents.rows.length, t.memories.rows.length, (t.performAll .sample
          [.remember (ownerCall "m1") (fact "tea" none none none) factAxes]).toOption.map
            fun u ↦ u.memories.rows.length)))
    (a := (1, some (0, 0, some 1))) (by decide +kernel)
  simp only [Prod.mk.injEq, Option.map_eq_some_iff, Except.toOption_eq_some_iff] at hvalues
  obtain ⟨hwritten, t, ht, hdeleted, hnone, u, hu, hremembered⟩ := hvalues
  have hst : Run .sample RowsKept s t := run_of_performAll (by simp [RowsKept]) ht
  have htu : Run .sample RowsKept t u := run_of_performAll (by simp [RowsKept]) hu
  refine ⟨s, t, u, run_of_performAll (by simp [RowsKept]) hs, hst, htu, hwritten, hdeleted,
    hremembered, (revisions_track hst).2.2.1 (.inl fun hsame ↦ ?_),
    (revisions_track htu).2.2.2 fun hsame ↦ ?_⟩
  · rw [hsame, hwritten] at hdeleted
    cases hdeleted
  · rw [hsame, hnone] at hremembered
    cases hremembered

/-- A document of another device. -/
def remoteRow : DocumentRow where
  id := "d1"
  source := "notes"
  sourceId := "menu.md"
  title := "Note"
  uri := none
  contentHash := ""
  updatedAt := "2026-01-01T00:00:00+00:00"
  project := "work"
  aclJson := "[]"
  metadataJson := "\x7b\x7d"
  content := "tea"

/-- The entry it is first sent with. -/
def remoteEntry : SyncEntry where
  journalId := 1
  object := ⟨.document, "d1"⟩
  revision := 1
  origin := "desk"
  fingerprint := Codec.sample.digest.row (.document remoteRow)
  tombstone := false
  changedAt := "2026-01-01T00:00:00+00:00"
  payload := some (ObjectRow.document remoteRow).payload

/-- A document that arrives in a bundle is readable under the old counter. -/
theorem revisions_stale :
    ¬ ∀ (codec : Codec) (device : Option String) (s t : Store) (op : Operation),
      Run codec (fun _ _ ↦ True) (adopted device) s → s.Step codec op t →
        t.documents ≠ s.documents → s.corpusRevision < t.corpusRevision := by
  intro h
  obtain ⟨s, hs, hcounts⟩ := exists_of_performAll .sample (adopted (some "laptop"))
    [.importEntries "desk" [remoteEntry] 1 "2026-01-02T00:00:00+00:00"]
    (fun s ↦ (s.documents.rows.length, s.corpusRevision)) (a := (1, 0)) (by decide +kernel)
  obtain ⟨t, ht, hrest⟩ := Iff.mp List.foldlM_cons_ok_iff hs
  obtain rfl := Iff.mp List.foldlM_nil_ok_iff hrest
  obtain ⟨hlength, hcorpus⟩ := Prod.mk.inj hcounts
  have hmoved := h .sample (some "laptop") _ t _ (Transition.Run.refl _) ht fun heq ↦ by
    rw [heq] at hlength
    cases hlength
  rw [hcorpus] at hmoved
  exact absurd hmoved (Nat.not_lt_zero _)

end Store

end Cortana
