import Cortana.Store.Operations
import Cortana.Sync.Refinement

/-!
# The journal misses nothing

Every row is the one its latest change was journaled with, in runs without the
calls that write rows behind the journal: a refreshed timestamp, a backfilled
ACL, a superseded memory, and bundles that bring rows of another digest or
reach the rows of another object.
-/

namespace Cortana

open Replication

namespace Store

variable {codec : Codec} {s t u : Store}

/-- On an adopted device, the journal has the current state of every row. -/
structure Tracks (codec : Codec) (s : Store) : Prop where
  device : s.selfDevice ≠ none
  matched : ∀ key, Replica.Matched codec.digest s.replica key

/-- The journal went on, and has the current state of every row. -/
structure Follows (codec : Codec) (s t : Store) : Prop where
  tracks : Tracks codec t
  journal : s.journal.Extends t.journal

theorem tracks_adopted (codec : Codec) (device : String) : Tracks codec (adopted (some device)) :=
  ⟨Option.some_ne_none device, fun ⟨kind, _⟩ ↦ by cases kind <;> rfl⟩

theorem Tracks.refl (h : Tracks codec s) : Follows codec s s := ⟨h, .refl _⟩

theorem Follows.trans (h : Follows codec s t) (h' : Follows codec t u) : Follows codec s u :=
  ⟨h'.tracks, h.journal.trans h'.journal⟩

/-- Nothing that is synchronised has changed. -/
theorem Tracks.same (h : Tracks codec s) (heq : t.replica = s.replica) : Follows codec s t := by
  have hself : t.selfDevice = s.selfDevice := congrArg Replica.self heq
  have hjournal : t.journal = s.journal := congrArg Replica.journal heq
  refine ⟨⟨by rw [hself]; exact h.device, ?_⟩, by rw [hjournal]; exact .refl _⟩
  rw [heq]
  exact h.matched

/-- A row was written and journaled. -/
theorem Tracks.edit (h : Tracks codec s) {key : ObjectKey} {row : Option ObjectRow} {now : String}
    (heq : t.replica = s.replica.edit codec.digest key row now) : Follows codec s t := by
  have hself : t.selfDevice = s.selfDevice := congrArg Replica.self heq
  have hjournal : t.journal = s.journal.record s.selfDevice key (codec.digest.state row) now :=
    congrArg Replica.journal heq
  refine ⟨⟨by rw [hself]; exact h.device, ?_⟩, by rw [hjournal]; exact Journal.extends_record ..⟩
  rw [heq]
  exact Replica.matched_edit h.matched h.device key row now

/-- The journal was compacted. -/
theorem Tracks.compact (h : Tracks codec s) (hself : t.selfDevice = s.selfDevice)
    (hrow : t.row = s.row) {watermark : ℤ} (hjournal : t.journal = s.journal.compact watermark) :
    Follows codec s t := by
  refine ⟨⟨by rw [hself]; exact h.device, fun key ↦ ?_⟩, ?_⟩
  · refine (h.matched key).congr ?_ (congrFun hrow key)
    rw [journal_replica, hjournal, Journal.latest_compact, journal_replica]
  · rw [hjournal]
    exact Journal.extends_compact ..

/-! ## The operations -/

/-- The stored memory with the dedupe key of the input says what it says. -/
def Repeats (codec : Codec) (s : Store) (input : MemoryInput) (axes : MemoryAxes) : Prop :=
  ∃ valid, validateInput codec input = .ok valid ∧
    ∃ m ∈ s.memoryByDedupeKey input.project input.dedupeKey, ∃ acl,
      codec.parseAcl m.aclJson = .ok acl ∧
        sameMemory m acl input valid axes
          (if ByteText.trim input.sourceId.toList = [] then m.id else input.sourceId) = true

/-- The calls that write no row behind the journal. -/
def Journals (codec : Codec) (s : Store) : Operation → Prop
  | .insertEvaluationCorpus _ _ => False
  | .refreshTimestamp document =>
      ∀ row ∈ s.documents.get (stableId codec document.source document.sourceId),
        row.updatedAt = document.updatedAt
  | .backfillProjectAcls mappings =>
      ∀ mapping ∈ mappings, ∀ d ∈ s.documents.rows, lacksAcl mapping.1 d = false
  | .remember _ input axes => input.supersedesId = none ∨ s.Repeats codec input axes
  | .promote _ candidate report => ∀ axes,
      MemoryAxes.withOverrides candidate.contentType candidate.contentType
        (if report.decision = .working then "working" else candidate.retentionTier)
        candidate.scope = .ok axes →
      (promotedInput candidate report axes).supersedesId = none ∨
        s.Repeats codec (promotedInput candidate report axes) axes
  | .importEntries _ entries _ _ =>
      Replica.Walk codec.digest Fits s.replica (entries.map SyncEntry.stored) ∧
        Replica.Restores codec.digest s.replica (entries.map SyncEntry.stored) ∅
  | .resolveConflict conflictId acceptRemote _ _ => acceptRemote = true →
      ∀ conflict ∈ s.conflicts.find? fun c ↦ c.conflictId = conflictId ∧ c.resolvedAt = none,
        conflict.payload.row.key = some conflict.object
  | _ => True

theorem parseAcl_of_checkExisting {existing : MemoryRow} {input : MemoryInput}
    {principalAcl acl : List String} {owner : Bool}
    (h : checkExisting codec existing input principalAcl owner = .ok acl) :
    codec.parseAcl existing.aclJson = .ok acl := by
  rw [checkExisting] at h
  obtain ⟨acl', hacl, h⟩ := Iff.mp Except.bind_ok_iff h
  obtain ⟨_, -, h⟩ := Iff.mp Except.bind_ok_iff h
  obtain ⟨_, -, h⟩ := Iff.mp Except.bind_ok_iff h
  obtain ⟨_, -, h⟩ := Iff.mp Except.bind_ok_iff h
  obtain ⟨_, -, h⟩ := Iff.mp Except.bind_ok_iff h
  rwa [Iff.mp Except.pure_ok_iff h] at hacl

/-- A memory that is remembered and supersedes nothing is one edit. -/
theorem Tracks.rememberInTransaction (h : Tracks codec s) {call : MemoryCall} {input : MemoryInput}
    {axes : MemoryAxes} {id : String}
    (hplain : input.supersedesId = none ∨ s.Repeats codec input axes)
    (hremember : s.rememberInTransaction codec call input axes = .ok (t, id)) :
    Follows codec s t := by
  obtain ⟨valid, existingAcl, hremembered⟩ := rememberInTransaction_cases hremember
  rcases hremembered.written with ⟨-, rfl⟩ | ⟨hsame, -, -, hwrite⟩
  · exact h.refl
  · have hnone : input.supersedesId = none := by
      refine hplain.resolve_right ?_
      rintro ⟨valid', hvalid, m, hm, acl, hacl, hrepeats⟩
      obtain rfl := Except.ok.inj (hremembered.checked.symm.trans hvalid)
      have hallowed := hremembered.allowed
      have hid := hremembered.identity
      rw [Option.mem_def.mp hm] at hsame hallowed hid
      obtain rfl : id = m.id := hid
      obtain ⟨acl', hcheck, hexisting⟩ := Iff.mp Except.bind_ok_iff hallowed
      obtain rfl := Iff.mp Except.pure_ok_iff hexisting
      obtain rfl := Except.ok.inj ((parseAcl_of_checkExisting hcheck).symm.trans hacl)
      rw [Option.any_some, Option.getD_some, hrepeats] at hsame
      cases hsame
    refine h.edit (replica_writeMemory ?_ hwrite)
    rw [superseded]
    simp only [memoryRow, hnone, Option.bind_none]

theorem Tracks.syncImportEntries (h : Tracks codec s) {peer : String} {entries : List SyncEntry}
    {upTo : ℤ} {now : String} {report : ApplyReport}
    (hfits : Replica.Walk codec.digest Fits s.replica (entries.map SyncEntry.stored))
    (hrestores : Replica.Restores codec.digest s.replica (entries.map SyncEntry.stored) ∅)
    (himport : s.syncImportEntries peer entries upTo now = .ok (t, report)) :
    Follows codec s t := by
  obtain ⟨u, hu, rfl⟩ := syncImportEntries_eq_ok himport
  have hreceive := receiveAll_of_importEntries hfits hu
  have htracks : Tracks codec u := by
    refine ⟨?_, hrestores.matched hreceive fun key _ ↦ h.matched key⟩
    have hself : u.selfDevice = s.selfDevice := Replica.self_of_receiveAll hreceive
    rw [hself]
    exact h.device
  refine Follows.trans ⟨htracks, Replica.receiveAll_extends hreceive⟩ ?_
  exact htracks.compact rfl rfl rfl

theorem Tracks.reconcile (h : Tracks codec s) {source project : String} {seen : List String}
    {now : String → String} {n : ℕ}
    (hreconcile : s.reconcile codec source project seen now = .ok (t, n)) :
    Follows codec s t := by
  obtain ⟨u, hu, rfl⟩ := reconcile_eq_ok hreconcile
  have hloop : Follows codec s u := by
    refine List.foldlM_preserves (P := Follows codec s) ?_ h.refl hu
    intro id _ v v' hv hremove
    exact hv.trans (hv.tracks.edit (replica_removeStale hremove))
  split
  · exact hloop
  · exact hloop.trans (hloop.tracks.same rfl)

/-- Where no document of a mapped project lacks an ACL, nothing is filled in. -/
theorem Tracks.backfillProjectAcls (h : Tracks codec s) {mappings : List (String × List String)}
    {n : ℕ} (hfilled : ∀ mapping ∈ mappings, ∀ d ∈ s.documents.rows, lacksAcl mapping.1 d = false)
    (hbackfill : s.backfillProjectAcls codec mappings = .ok (t, n)) : Follows codec s t := by
  obtain ⟨u, hu, rfl⟩ := backfillProjectAcls_eq_ok hbackfill
  have hloop : (u, n).1 = s := by
    refine List.foldlM_preserves (P := fun p : Store × ℕ ↦ p.1 = s) ?_ rfl hu
    rintro mapping hmapping ⟨v, m⟩ ⟨v', m'⟩ rfl hround
    obtain ⟨aclJson, rfl, -⟩ := backfillProjectAcl_eq_ok hround
    have hsame : v.documents.modify (setAcl mapping.1 aclJson) (id_setAcl mapping.1 aclJson) =
        v.documents := by
      refine Table.modify_eq_self fun d hd ↦ ?_
      rw [setAcl, if_neg (by simp [hfilled mapping hmapping d hd])]
    simp only [hsame]
  obtain rfl : u = s := hloop
  split
  · exact h.same rfl
  · exact h.refl

theorem Tracks.step (h : Tracks codec s) {op : Operation} (hop : s.Journals codec op)
    (hstep : s.Step codec op t) : Follows codec s t := by
  rw [Step] at hstep
  cases op with
  | upsert document chunks now =>
      obtain ⟨⟨u, written⟩, hu, rfl⟩ := Iff.mp Except.map_ok_iff hstep
      rcases upsert_eq_ok hu with ⟨-, rfl, -⟩ | ⟨-, -, hwrite⟩
      · exact h.refl
      · exact h.edit (replica_writeDocument hwrite)
  | upsertStructured document chunks now =>
      obtain ⟨⟨u, written⟩, hu, rfl⟩ := Iff.mp Except.map_ok_iff hstep
      rcases upsertStructured_eq_ok hu with ⟨-, rfl, -⟩ | ⟨-, -, hwrite⟩
      · exact h.refl
      · exact h.edit (replica_writeDocument hwrite)
  | insertEvaluationCorpus documents embedding => exact hop.elim
  | refreshTimestamp document =>
      obtain rfl := Except.ok.inj hstep
      rcases refreshTimestamp_cases codec s document with hsame | ⟨row, hrow, hne, -⟩
      · rw [hsame]
        exact h.refl
      · exact absurd (hop row hrow) hne
  | reconcile source project seenSourceIds now =>
      obtain ⟨⟨u, n⟩, hu, rfl⟩ := Iff.mp Except.map_ok_iff hstep
      exact h.reconcile hu
  | backfillProjectAcls mappings =>
      obtain ⟨⟨u, n⟩, hu, rfl⟩ := Iff.mp Except.map_ok_iff hstep
      exact h.backfillProjectAcls hop hu
  | beginEmbeddingRebuild oldGeneration newGeneration =>
      obtain ⟨⟨u, n⟩, hu, rfl⟩ := Iff.mp Except.map_ok_iff hstep
      obtain rfl := beginEmbeddingRebuild_eq_ok hu
      exact h.same rfl
  | stageEmbeddingRebuild vectors =>
      obtain ⟨rebuild, rfl, -⟩ := stageEmbeddingRebuild_eq_ok hstep
      exact h.same rfl
  | commitEmbeddingRebuild oldGeneration newGeneration =>
      obtain ⟨⟨u, n⟩, hu, rfl⟩ := Iff.mp Except.map_ok_iff hstep
      obtain ⟨staged, -, -, rfl⟩ := commitEmbeddingRebuild_eq_ok hu
      exact h.same rfl
  | remember call input axes =>
      obtain ⟨⟨u, id⟩, hu, rfl⟩ := Iff.mp Except.map_ok_iff hstep
      exact h.rememberInTransaction hop (rememberScopedWithAxes_eq_ok hu)
  | forget call id =>
      obtain ⟨⟨u, found⟩, hu, rfl⟩ := Iff.mp Except.map_ok_iff hstep
      rcases replica_forgetMemoryScoped hu with rfl | ⟨memory, hedit⟩
      · exact h.refl
      · exact h.edit hedit
  | promote call candidate report =>
      have hpromote : s.promoteCandidate codec call candidate report = .ok t := hstep
      rcases promoteCandidate_eq_ok hpromote with rfl | ⟨axes, id, ⟨haxes, -⟩, hremember⟩
      · exact h.refl
      · exact h.rememberInTransaction (hop axes haxes) hremember
  | acknowledge peer ack =>
      obtain rfl := Except.ok.inj hstep
      exact ⟨⟨h.device, h.matched⟩, .refl _⟩
  | compact =>
      obtain rfl := Except.ok.inj hstep
      exact h.compact rfl rfl rfl
  | importEntries peer entries upTo now =>
      obtain ⟨⟨u, report⟩, hu, rfl⟩ := Iff.mp Except.map_ok_iff hstep
      exact h.syncImportEntries hop.1 hop.2 hu
  | resolveConflict conflictId acceptRemote now changedAt =>
      rcases replica_syncResolveConflict hop hstep with hsame | ⟨conflict, -, hedit⟩
      · exact h.same hsame
      · exact h.edit hedit

theorem Tracks.run (h : Tracks codec s) (hrun : Run codec (Journals codec) s t) :
    Follows codec s t := by
  have hstep : ∀ (u : Store) (op : Operation) (v : Store), Follows codec s u →
      Journals codec u op → u.Step codec op v → Follows codec s v :=
    fun _ _ _ hs hop hstep ↦ hs.trans (hs.tracks.step hop hstep)
  exact Transition.Run.preserves hstep hrun h.refl

/-! ## What is exported -/

theorem mem_syncExportEntries {peer : String} {limit : ℕ} {entries : List SyncEntry} {upTo : ℤ}
    {change : JournalRow} (h : s.syncExportEntries peer limit = .ok (entries, upTo))
    (hlimit : s.journal.rows.length ≤ limit) (hmem : change ∈ s.journal.rows)
    (hnew : s.watermarks.acked peer < change.journalId) :
    ∃ e ∈ entries, s.exportEntry change = .ok e := by
  rw [syncExportEntries] at h
  obtain ⟨entries', hentries, h⟩ := Iff.mp Except.bind_ok_iff h
  obtain ⟨rfl, -⟩ := Prod.mk.inj (Iff.mp Except.pure_ok_iff h)
  refine List.exists_mem_of_mapM_ok hentries ?_
  rw [List.take_of_length_le]
  · simpa [Journal.after] using ⟨hmem, hnew⟩
  · exact (List.length_filter_le _ _).trans hlimit

theorem exportEntry_eq_ok {change : JournalRow} {e : SyncEntry}
    (h : s.exportEntry change = .ok e) :
    e.toChange = change ∧ e.payload =
      if change.tombstone then none else (s.row change.object).map ObjectRow.payload := by
  rw [exportEntry] at h
  split_ifs at h with htomb
  · obtain rfl := Except.ok.inj h
    simp [htomb]
  · split at h
    · cases h
    · obtain rfl := Except.ok.inj h
      simp [htomb]
    · obtain rfl := Except.ok.inj h
      simp [htomb]

/-- In every run of an adopted device in which no row is written behind the
journal, the latest change of a row that was ever stored says what the row is
now, and a row that has changed is sent to every peer that has not yet
acknowledged more than there was. -/
theorem journal_current {device : String}
    (hs : Run codec (Journals codec) (adopted (some device)) s)
    (ht : Run codec (Journals codec) s t) (key : ObjectKey) :
    ((t.journal.history key).Pairwise fun c c' ↦
        c.journalId < c'.journalId ∧ c.revision < c'.revision) ∧
      (s.row key ≠ none ∨ t.row key ≠ none → ∃ ℓ, t.journal.latest key = some ℓ ∧
        (ℓ.fingerprint, ℓ.tombstone) = codec.digest.state (t.row key)) ∧
      (codec.FaithfulOn {row | s.row key = some row ∨ t.row key = some row} →
        t.row key ≠ s.row key → ∀ peer limit entries upTo,
        t.watermarks.acked peer ≤ s.journal.sequence → t.journal.rows.length ≤ limit →
        t.syncExportEntries peer limit = .ok (entries, upTo) →
          ∃ e ∈ entries, e.object = key ∧ e.payload = (t.row key).map ObjectRow.payload ∧
            e.tombstone = (t.row key).isNone) := by
  have htracks : Tracks codec s := ((tracks_adopted codec device).run hs).tracks
  have hfollows : Follows codec s t := htracks.run ht
  have hmatched := hfollows.tracks.matched key
  have hstored := htracks.matched key
  rw [Replica.Matched, journal_replica, row_replica] at hmatched hstored
  refine ⟨?_, ?_, ?_⟩
  · exact (t.journal.history_ids key).and (t.journal.history_revisions key)
  · intro hrow
    have hsome : t.journal.latest key ≠ none := by
      intro hnone
      rw [hnone] at hmatched
      have hbefore : s.journal.latest key ≠ none := by
        intro hnone'
        rw [hnone'] at hstored
        exact hrow.elim (fun h ↦ h hstored) fun h ↦ h hmatched
      exact hfollows.journal.latest_ne_none hbefore hnone
    obtain ⟨ℓ, hℓ⟩ := Option.ne_none_iff_exists'.mp hsome
    rw [hℓ] at hmatched
    exact ⟨ℓ, hℓ, hmatched.symm⟩
  · intro hfaithful hchanged peer limit entries upTo hacked hlimit hexport
    rcases hfollows.journal.latest key with hsame | ⟨ℓ, hℓ, hnew⟩
    · rw [hsame] at hmatched
      cases hlatest : s.journal.latest key with
      | none =>
          rw [hlatest] at hmatched hstored
          exact absurd (hmatched.trans hstored.symm) hchanged
      | some ℓ =>
          rw [hlatest] at hmatched hstored
          exact absurd (Digest.eq_of_state_eq hfaithful.injOn (fun _ ↦ .inr) (fun _ ↦ .inl)
            (hmatched.trans hstored.symm)) hchanged
    · obtain ⟨hmem, hobject⟩ := Journal.mem_of_latest hℓ
      obtain ⟨e, he, hentry⟩ := mem_syncExportEntries hexport hlimit hmem (hacked.trans_lt hnew)
      obtain ⟨hchange, hpayload⟩ := exportEntry_eq_ok hentry
      rw [hℓ] at hmatched
      refine ⟨e, he, by rw [hchange, hobject], ?_, ?_⟩
      · rw [hpayload, hobject]
        cases hrow : t.row key with
        | none => split <;> rfl
        | some payload =>
            rw [hrow] at hmatched
            rw [← (Prod.mk.inj hmatched).2]
            rfl
      · rw [hchange]
        cases hrow : t.row key with
        | none =>
            rw [hrow] at hmatched
            exact (Prod.mk.inj hmatched).2.symm
        | some payload =>
            rw [hrow] at hmatched
            exact (Prod.mk.inj hmatched).2.symm

/-- A note that is written and updated is deleted, and a peer that has acknowledged
nothing is told so. -/
theorem journal_current_note :
    let key : ObjectKey := ⟨.document, stableId .sample "notes" "menu.md"⟩
    ∃ s t entries upTo, Run .sample (Journals .sample) (adopted (some "laptop")) s ∧
      Run .sample (Journals .sample) s t ∧ s.row key ≠ none ∧ t.row key = none ∧
      t.syncExportEntries "desk" 10 = .ok (entries, upTo) ∧
      ∃ e ∈ entries, e.object = key ∧ e.payload = none ∧ e.tombstone = true := by
  intro key
  obtain ⟨s, hs, hvalues⟩ := exists_of_performAll .sample (adopted (some "laptop"))
    [.upsert (note "menu.md" "tea") [("tea", [])] "2026-01-01T00:00:00+00:00",
      .upsert (note "menu.md" "coffee") [("coffee", [])] "2026-01-02T00:00:00+00:00"]
    (fun s ↦ ((s.row key).isSome, s.journal.sequence, (s.performAll .sample
      [.reconcile "notes" "work" [] fun _ ↦ "2026-01-03T00:00:00+00:00"]).toOption.map fun t : Store ↦
        ((t.row key).isNone && decide (t.watermarks.acked "desk" = 0) &&
            (t.syncExportEntries "desk" 10).isOk,
          t.journal.rows.length)))
    (a := (true, 2, some (true, 3))) (by decide +kernel)
  simp only [Prod.mk.injEq, Option.map_eq_some_iff, Except.toOption_eq_some_iff, Bool.and_eq_true,
    decide_eq_true_eq] at hvalues
  obtain ⟨hstored, hsequence, t, ht, ⟨⟨hdeleted, hacked⟩, hok⟩, hlength⟩ := hvalues
  obtain ⟨entries, upTo, hexport⟩ : ∃ entries upTo,
      t.syncExportEntries "desk" 10 = .ok (entries, upTo) := by
    cases h : t.syncExportEntries "desk" 10 with
    | error e => simp [h, Except.isOk, Except.toBool] at hok
    | ok r => exact ⟨r.1, r.2, rfl⟩
  rw [Option.isNone_iff_eq_none] at hdeleted
  have hsome : s.row key ≠ none := Option.isSome_iff_ne_none.mp hstored
  have hs' : Run .sample (Journals .sample) (adopted (some "laptop")) s :=
    run_of_performAll (by simp [Journals]) hs
  have ht' : Run .sample (Journals .sample) s t := run_of_performAll (by simp [Journals]) ht
  obtain ⟨e, he, hobject, hpayload, htombstone⟩ := (journal_current hs' ht' key).2.2
    (Codec.sample_faithfulOn _) (hdeleted ▸ hsome.symm) "desk" 10 entries upTo (by omega) (by omega)
    hexport
  rw [hdeleted] at hpayload htombstone
  exact ⟨s, t, entries, upTo, hs', ht', hsome, hdeleted, hexport, e, he, hobject, hpayload,
    htombstone⟩

/-- A memory that is superseded changes behind the journal. -/
theorem journal_outdated :
    ¬ ∀ (codec : Codec) (device : String) (t : Store),
      Run codec (fun _ op ↦ ∃ call input axes, op = .remember call input axes)
        (adopted (some device)) t →
      ∀ key, t.row key ≠ none → ∃ ℓ, t.journal.latest key = some ℓ ∧
        (ℓ.fingerprint, ℓ.tombstone) = codec.digest.state (t.row key) := by
  intro h
  obtain ⟨t, ht, hcomputed⟩ := exists_of_performAll .sample (adopted (some "laptop"))
    [.remember (ownerCall "m1") (fact "tea" none none none) factAxes,
      .remember (ownerCall "m2") (fact "coffee" none (some "m1") none) factAxes]
    (fun t ↦ ((t.row ⟨.memory, "m1"⟩).isSome, decide (t.journal.Says ⟨.memory, "m1"⟩
      (Codec.sample.digest.state (t.row ⟨.memory, "m1"⟩))))) (a := (true, false))
    (by decide +kernel)
  obtain ⟨hrow, hsays⟩ := Prod.mk.inj hcomputed
  obtain ⟨ℓ, hℓ, hstate⟩ := h .sample "laptop" t (run_of_performAll (by simp) ht) ⟨.memory, "m1"⟩
    (by simpa [Option.isSome_iff_ne_none] using hrow)
  obtain ⟨hfingerprint, htombstone⟩ := Prod.ext_iff.mp hstate
  exact absurd ⟨ℓ, hℓ, hfingerprint, htombstone⟩ (of_decide_eq_false hsays)

end Store

end Cortana
