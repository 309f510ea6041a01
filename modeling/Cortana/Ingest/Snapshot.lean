import Cortana.Ingest.Run
import Cortana.Store.Sample

/-!
# What a run writes and what it deletes

Until its last step a run writes only the documents that its source emits, and
deletes nothing; the last step deletes what a complete snapshot lacks.  A file
that cannot be read is not in the snapshot.
-/

namespace Cortana

/-- The documents of a line. -/
def Spool.lineDocument (env : Environment) (line : Except String String) : Option Document :=
  line.toOption.bind fun text ↦
    if ByteText.trim text.toList = [] then none else env.parseDocument text

/-- The documents that a source emits, as the run writes them. -/
def Emission.documents (env : Environment) (config : SourceConfig) : Emission → List Document
  | .filesystem (.ok source) =>
      ((source.filesystemDocumentIter env config).filterMap Except.toOption).map
        (normalizeDocument config)
  | .connector (.ok spool) =>
      (spool.lines.filterMap (Spool.lineDocument env)).map (normalizeDocument config)
  | _ => []

/-- The documents that fit the budgets, after some that were counted before. -/
def SourceLimits.withinBudgets (limits : SourceLimits) : ℕ → ℕ → List Document → List Document
  | _, _, [] => []
  | count, bytes, document :: rest =>
      let total := Ingest.saturatingAdd bytes document.content.utf8ByteSize
      if limits.maxDocuments ≤ count ∨ limits.maxBytes < total then []
      else document :: limits.withinBudgets (count + 1) total rest

/-- The documents of a walk that a run takes: all of them, or those within its budgets
where it does not reconcile. -/
def SourceLimits.takes (limits : SourceLimits) (reconcile : Bool) (count bytes : ℕ)
    (documents : List Document) : List Document :=
  if reconcile then documents else limits.withinBudgets count bytes documents

/-- The documents that a successful run has to store. -/
def Emission.taken (env : Environment) (limits : SourceLimits) (config : SourceConfig)
    (reconcile : Bool) : Emission → List Document
  | .filesystem (.ok source) =>
      (limits.takes reconcile 0 0
        ((source.filesystemDocumentIter env config).filterMap Except.toOption)).map
          (normalizeDocument config)
  | emission => emission.documents env config

namespace Ingest

variable {env : Environment} {limits : SourceLimits} {config : SourceConfig}
  {documents done : List Document} {s : Store}

/-! ## The loops -/

/-- The loop over the documents has passed some of them: each is held, or waits
in the batch. -/
structure Walked (codec : Codec) (documents : List Document) (s : Store) (done : List Document)
    (w : WalkState) : Prop where
  written : Written codec documents s w.state.store
  seen : w.seen = done.map Document.sourceId
  emitted : done ⊆ documents
  batch : w.batch ⊆ documents
  held : ∀ document ∈ done, Held codec w.state.store document ∨ document ∈ w.batch

theorem Walked.state {w : WalkState} (h : Walked env.codec documents s done w)
    {state : IngestState} (hstate : state.store = w.state.store) :
    Walked env.codec documents s done { w with state := state } := by
  refine ⟨?_, h.seen, h.emitted, h.batch, ?_⟩
  · change Written env.codec documents s state.store
    rw [hstate]
    exact h.written
  · intro document hdocument
    change Held env.codec state.store document ∨ _
    rw [hstate]
    exact h.held document hdocument

theorem ingestBatch_ends {w : WalkState} (h : Walked env.codec documents s done w) :
    (ingestDocumentsControlled env limits w.batch w.state).Ends
      (fun stopped ↦ Written env.codec documents s stopped.store)
      fun state ↦ Written env.codec documents s state.store ∧
        ∀ document ∈ done, Held env.codec state.store document := by
  refine (show (ingestDocumentsControlled env limits w.batch w.state).Ends _ _ from
    ingestDocumentsControlled_ends w.state).mono ?_ ?_
  · exact fun stopped hstopped ↦ h.written.trans (hstopped.mono h.batch)
  · rintro state ⟨hwritten, hheld⟩
    refine ⟨h.written.trans (hwritten.mono h.batch), fun document hdocument ↦ ?_⟩
    rcases h.held document hdocument with hold | hwaits
    · exact hwritten.held hold
    · exact hheld document hwaits

theorem push_ends {w : WalkState} (h : Walked env.codec documents s done w) {state : IngestState}
    (hstate : state.store = w.state.store) {document : Document} (hdocument : document ∈ documents)
    (bytes : ℕ) :
    (push env limits w state document bytes).Ends
      (fun stopped ↦ Written env.codec documents s stopped.store)
      fun w' ↦ Walked env.codec documents s (done ++ [document]) w' ∧ w'.bytes = bytes := by
  have hpushed : Walked env.codec documents s (done ++ [document])
      ⟨state, w.seen ++ [document.sourceId], w.batch ++ [document], bytes⟩ := by
    have hw := h.state hstate
    refine ⟨hw.written, ?_, ?_, ?_, ?_⟩
    · simp [h.seen]
    · simp [h.emitted, hdocument]
    · simp [h.batch, hdocument]
    · intro other hother
      rcases List.mem_append.mp hother with hold | hnew
      · exact (hw.held other hold).imp_right (List.mem_append_left _)
      · exact Or.inr (List.mem_append_right _ hnew)
  rw [push]
  split
  · refine (ingestBatch_ends hpushed).bind ?_
    rintro last ⟨hwritten, hheld⟩
    exact ⟨⟨hwritten, hpushed.seen, hpushed.emitted, by simp,
      fun other hother ↦ Or.inl (hheld other hother)⟩, rfl⟩
  · exact ⟨hpushed, rfl⟩

theorem finish_ends {w : WalkState} (h : Walked env.codec documents s done w) :
    (finish env limits w).Ends (fun stopped ↦ Written env.codec documents s stopped.store)
      fun state ↦ Written env.codec documents s state.store ∧
        ∀ document ∈ done, Held env.codec state.store document := by
  rw [finish]
  split
  · rename_i hnil
    refine ⟨h.written, fun document hdocument ↦ ?_⟩
    simpa [hnil] using h.held document hdocument
  · exact ingestBatch_ends h

theorem check_walked {w : WalkState} (h : Walked env.codec documents s done w) :
    (check env w.state).Ends (fun stopped ↦ Written env.codec documents s stopped.store)
      fun state ↦ state.store = w.state.store := by
  refine (check_ends w.state).mono (fun stopped hstopped ↦ ?_) fun _ hstate ↦ hstate
  rw [hstopped]
  exact h.written

theorem syncFiles_ends (reconcile : Bool) {items : List (Except String Document)} {w : WalkState}
    (h : Walked env.codec documents s done w)
    (hitems : (items.filterMap Except.toOption).map (normalizeDocument config) ⊆ documents) :
    (syncFiles env limits config reconcile items w).Ends
      (fun stopped ↦ Written env.codec documents s stopped.store)
      (Walked env.codec documents s (done ++ (limits.takes reconcile done.length w.bytes
        (items.filterMap Except.toOption)).map (normalizeDocument config))) := by
  have hcount : w.seen.length = done.length := by rw [h.seen, List.length_map]
  induction items generalizing done w with
  | nil => simpa [syncFiles, SourceLimits.takes, SourceLimits.withinBudgets] using h
  | cons item rest ih =>
      rw [syncFiles]
      refine (check_walked h).bind fun state hstate ↦ ?_
      cases item with
      | error reason =>
          change Written env.codec documents s state.store
          rw [hstate]
          exact h.written
      | ok document =>
          have hwritten : Written env.codec documents s state.store := by
            rw [hstate]
            exact h.written
          have hcons : (Except.ok document :: rest).filterMap Except.toOption =
              document :: rest.filterMap Except.toOption := rfl
          have hmem : ∀ other ∈ normalizeDocument config document ::
              (rest.filterMap Except.toOption).map (normalizeDocument config),
              other ∈ documents :=
            fun other hother ↦ hitems hother
          dsimp only
          rw [hcount, hcons]
          split_ifs with hbounded hdocuments hbytes
          · -- a run that does not reconcile ends at its budgets
            have hnone : limits.takes reconcile done.length w.bytes
                (document :: rest.filterMap Except.toOption) = [] := by
              rw [SourceLimits.takes, if_neg (by simpa using hbounded.1),
                SourceLimits.withinBudgets, if_pos hbounded.2]
            rw [hnone, List.map_nil, List.append_nil]
            exact h.state hstate
          · exact hwritten
          · exact hwritten
          · have htakes : limits.takes reconcile done.length w.bytes
                (document :: rest.filterMap Except.toOption) =
                document :: limits.takes reconcile (done.length + 1)
                  (saturatingAdd w.bytes document.content.utf8ByteSize)
                  (rest.filterMap Except.toOption) := by
              rw [SourceLimits.takes, SourceLimits.takes]
              split
              · rfl
              · rw [SourceLimits.withinBudgets, if_neg (not_or.mpr ⟨hdocuments, hbytes⟩)]
            refine (push_ends h hstate (hmem _ List.mem_cons_self) _).bind ?_
            rintro w' ⟨hw', hbytes'⟩
            have hrest := ih hw' (fun other hother ↦ hmem other (List.mem_cons_of_mem _ hother))
              (by rw [hw'.seen, List.length_map])
            rw [hbytes', List.length_append, List.length_singleton, ← List.append_cons] at hrest
            rw [htakes, List.map_cons]
            exact hrest

theorem syncLines_ends {lines : List (Except String String)} {w : WalkState}
    (h : Walked env.codec documents s done w)
    (hlines : (lines.filterMap (Spool.lineDocument env)).map (normalizeDocument config) ⊆
      documents) :
    (syncLines env limits config lines w).Ends
      (fun stopped ↦ Written env.codec documents s stopped.store)
      (Walked env.codec documents s
        (done ++ (lines.filterMap (Spool.lineDocument env)).map (normalizeDocument config))) := by
  induction lines generalizing done w with
  | nil => simpa [syncLines] using h
  | cons line rest ih =>
      rw [syncLines]
      refine (check_walked h).bind fun state hstate ↦ ?_
      have hwritten : Written env.codec documents s state.store := by
        rw [hstate]
        exact h.written
      cases line with
      | error reason => exact hwritten
      | ok text =>
          dsimp only
          by_cases hblank : ByteText.trim text.toList = []
          · rw [if_pos hblank]
            have hline : Spool.lineDocument env (.ok text) = none := by
              simp [Spool.lineDocument, Except.toOption, hblank]
            rw [List.filterMap_cons_none hline] at hlines ⊢
            exact ih (h.state hstate) hlines
          · rw [if_neg hblank]
            have hline : Spool.lineDocument env (.ok text) = env.parseDocument text := by
              simp [Spool.lineDocument, Except.toOption, hblank]
            cases hparse : env.parseDocument text with
            | none => exact hwritten
            | some document =>
                rw [hparse] at hline
                rw [List.filterMap_cons_some hline, List.map_cons] at hlines ⊢
                refine (push_ends h hstate (hlines List.mem_cons_self) _).bind ?_
                rintro w' ⟨hw', -⟩
                rw [List.append_cons]
                exact ih hw' fun other hother ↦ hlines (List.mem_cons_of_mem _ hother)

/-! ## The preflights -/

theorem filesystemPlan_ends (rootName : String) (sample : Bool)
    (entries : List (Except String FileEntry)) (plan : FilesystemPlan) (state : IngestState) :
    (filesystemPlan env limits rootName sample entries plan state).Ends
      (fun stopped ↦ stopped.store = state.store) fun r ↦ r.1.store = state.store := by
  induction entries generalizing plan state with
  | nil => rfl
  | cons entry rest ih =>
      rw [filesystemPlan]
      refine (check_ends state).bind fun passed hpassed ↦ ?_
      rw [← hpassed]
      cases entry with
      | error reason => rfl
      | ok file =>
          dsimp only
          split
          · exact ih plan passed
          · cases file.length with
            | error reason => rfl
            | ok bytes =>
                dsimp only
                split_ifs
                · exact ih plan passed
                · rfl
                · rfl
                · rfl
                · exact ih _ passed

theorem validateConnectorSpool_ends (spool : Spool) (state : IngestState) :
    (validateConnectorSpool env limits config spool state).Ends
      (fun stopped ↦ stopped.store = state.store) fun r ↦ r.1.store = state.store := by
  have hlines : ∀ (lines : List (Except String String)) (scope : SyncScope) (state : IngestState),
      (validateLines env limits config lines scope state).Ends
        (fun stopped ↦ stopped.store = state.store) fun r ↦ r.1.store = state.store := by
    intro lines
    induction lines with
    | nil => exact fun _ _ ↦ rfl
    | cons line rest ih =>
        intro scope state
        rw [validateLines]
        refine (check_ends state).bind fun passed hpassed ↦ ?_
        rw [← hpassed]
        cases line with
        | error reason => rfl
        | ok text =>
            dsimp only
            split
            · exact ih scope passed
            · cases env.parseDocument text with
              | none => rfl
              | some document =>
                  dsimp only
                  split_ifs
                  · rfl
                  · rfl
                  · exact ih _ passed
  rw [validateConnectorSpool]
  split
  · rfl
  · exact hlines spool.lines _ state

/-! ## The whole snapshot -/

/-- What a source emitted has been written, and nothing else; what the run had to take
was seen, and is held. -/
structure Snapshot (codec : Codec) (documents taken : List Document) (s : Store)
    (r : IngestState × SyncScope) : Prop where
  written : Written codec documents s r.1.store
  subset : taken ⊆ documents
  seen : r.2.seen = taken.map Document.sourceId
  held : ∀ document ∈ taken, Held codec r.1.store document

theorem taken_reconcile (emission : Emission) :
    emission.taken env limits config true = emission.documents env config := by
  match emission with
  | .filesystem (.ok source) => rfl
  | .filesystem (.error reason) => rfl
  | .connector spool => rfl

theorem syncSourceDocuments_ends (emission : Emission) (reconcile : Bool) (state : IngestState) :
    (syncSourceDocuments env limits config emission reconcile state).Ends
      (fun stopped ↦ Written env.codec (emission.documents env config) state.store stopped.store)
      (Snapshot env.codec (emission.documents env config)
        (emission.taken env limits config reconcile) state.store) := by
  have hunwritten : ∀ {t : Store}, t = state.store →
      Written env.codec (emission.documents env config) state.store t := by
    rintro _ rfl
    exact Relation.ReflTransGen.refl
  have hstart : ∀ {state' : IngestState}, state'.store = state.store →
      Walked env.codec (emission.documents env config) state.store [] ⟨state', [], [], 0⟩ :=
    fun h ↦ ⟨hunwritten h, rfl, by simp, by simp, by simp⟩
  rw [syncSourceDocuments]
  refine ((check_ends state).mono (fun _ h ↦ hunwritten h) fun _ h ↦ h).bind fun passed hpassed ↦ ?_
  match emission with
  | .filesystem (.error reason) => exact hunwritten hpassed
  | .connector (.error reason) => exact hunwritten hpassed
  | .filesystem (.ok source) =>
      refine ((filesystemPlan_ends source.rootName (!reconcile) (source.visible source.planned)
        ⟨0, 0, true⟩ passed).mono (fun _ h ↦ hunwritten (h.trans hpassed)) fun _ h ↦ h).bind ?_
      rintro ⟨planned, plan⟩ hplanned
      refine ((check_ends planned).mono
        (fun _ h ↦ hunwritten (h.trans (hplanned.trans hpassed))) fun _ h ↦ h).bind ?_
      intro checked hchecked
      refine (syncFiles_ends reconcile (hstart (hchecked.trans (hplanned.trans hpassed)))
        (List.Subset.refl _)).bind ?_
      intro w hw
      rw [List.nil_append] at hw
      refine (finish_ends hw).bind ?_
      rintro last ⟨hwritten, hheld⟩
      exact ⟨hwritten, hw.emitted, hw.seen, hheld⟩
  | .connector (.ok spool) =>
      refine ((validateConnectorSpool_ends spool passed).mono
        (fun _ h ↦ hunwritten (h.trans hpassed)) fun _ h ↦ h).bind ?_
      rintro ⟨validated, scope⟩ hvalidated
      refine (syncLines_ends (hstart (hvalidated.trans hpassed)) (List.Subset.refl _)).bind ?_
      intro w hw
      rw [List.nil_append] at hw
      refine (finish_ends hw).bind ?_
      rintro last ⟨hwritten, hheld⟩
      exact ⟨hwritten, hw.emitted, hw.seen, hheld⟩

/-! ## The deletion -/

theorem get_removeStale {codec : Codec} {now : String → String} {ids : List String} {t : Store}
    (h : ids.foldlM (Store.removeStale codec now) s = .ok t) (id : String) :
    t.documents.get id = if id ∈ ids then none else s.documents.get id := by
  induction ids generalizing s with
  | nil => simp [Iff.mp List.foldlM_nil_ok_iff h]
  | cons first rest ih =>
      obtain ⟨u, hu, hrest⟩ := Iff.mp List.foldlM_cons_ok_iff h
      obtain ⟨used, rfl⟩ := Store.removeStale_eq_ok hu
      rw [ih hrest]
      change (if id ∈ rest then none else (s.documents.erase first).get id) = _
      rw [Table.get_erase]
      by_cases hfirst : id = first
      · simp [hfirst]
      · simp [hfirst]

/-- Reconciliation deletes the documents of the source and project that were
not seen, and no other. -/
theorem get_reconcile {codec : Codec} {source project : String} {seen : List String}
    {now : String → String} {t : Store} {n : ℕ}
    (h : s.reconcile codec source project seen now = .ok (t, n)) (id : String) :
    t.documents.get id = (s.documents.get id).filter fun row ↦
      ¬(row.source = source ∧ row.project = project ∧ row.sourceId ∉ seen) := by
  obtain ⟨u, hu, rfl⟩ := Store.reconcile_eq_ok h
  have hstale : id ∈ s.staleDocuments source project seen ↔ ∃ row ∈ s.documents.get id,
      row.source = source ∧ row.project = project ∧ row.sourceId ∉ seen := by
    rw [Store.staleDocuments, List.mem_map]
    constructor
    · rintro ⟨row, hrow, rfl⟩
      obtain ⟨hstored, hcond⟩ := List.mem_filter.mp hrow
      exact ⟨row, Iff.mpr Table.get_eq_some_iff ⟨hstored, rfl⟩, of_decide_eq_true hcond⟩
    · rintro ⟨row, hrow, hcond⟩
      obtain ⟨hstored, rfl⟩ := Iff.mp Table.get_eq_some_iff hrow
      exact ⟨row, List.mem_filter.mpr ⟨hstored, decide_eq_true hcond⟩, rfl⟩
  have hget : u.documents.get id = (s.documents.get id).filter fun row ↦
      ¬(row.source = source ∧ row.project = project ∧ row.sourceId ∉ seen) := by
    rw [get_removeStale hu id]
    cases hrow : s.documents.get id with
    | none => simp
    | some row =>
        rw [hrow] at hstale
        have hcond : id ∈ s.staleDocuments source project seen ↔
            row.source = source ∧ row.project = project ∧ row.sourceId ∉ seen := by
          simpa using hstale
        rw [Option.filter_some]
        by_cases hunseen : row.source = source ∧ row.project = project ∧ row.sourceId ∉ seen
        · rw [if_pos (Iff.mpr hcond hunseen), if_neg (by simpa using hunseen)]
        · rw [if_neg (mt (Iff.mp hcond) hunseen), if_pos (decide_eq_true hunseen)]
  split <;> exact hget

theorem reconcile_total (codec : Codec) (s : Store) (source project : String) (seen : List String)
    (now : String → String) :
    ∃ t n, s.reconcile codec source project seen now = .ok (t, n) := by
  have hloop : ∀ (ids : List String) (u : Store),
      ∃ v, ids.foldlM (Store.removeStale codec now) u = .ok v := by
    intro ids
    induction ids with
    | nil => exact fun u ↦ ⟨u, rfl⟩
    | cons id rest ih =>
        intro u
        obtain ⟨v, hv⟩ := ih (((u.deleteChunksFts id).releaseTenantBytes id).deleteDocument id
          |>.journaled codec ⟨.document, id⟩ (now id))
        refine ⟨v, Iff.mpr List.foldlM_cons_ok_iff ⟨_, ?_, hv⟩⟩
        rw [Store.removeStale, Store.journalInTransaction_document]
  obtain ⟨u, hu⟩ := hloop (s.staleDocuments source project seen) s
  rw [Store.reconcile, hu]
  exact ⟨_, _, rfl⟩

/-! ## What exists in a source -/

end Ingest

namespace FilesystemSource

/-- The regular files of the walk. -/
def files (source : FilesystemSource) : List FileEntry :=
  ((source.visible source.entries).filterMap Except.toOption).filter FileEntry.isFile

/-- The file exists and is passed over: it is no text file, too long, blank, or cannot be
read. -/
def skips (env : Environment) (source : FilesystemSource) (file : FileEntry) : Bool :=
  !file.isText env.lowercase source.rootName ||
    (match file.length with
      | .error _ => false
      | .ok length => FileEntry.maxFileBytes < length) ||
    (match file.content with
      | .error _ => true
      | .ok content => ByteText.trim content.toList = [])

end FilesystemSource

/-- The source ids of the items that exist in a source. -/
def Emission.items (env : Environment) : Emission → List String
  | .filesystem (.ok source) => source.files.map source.fileSourceId
  | .connector (.ok spool) =>
      (spool.lines.filterMap (Spool.lineDocument env)).map Document.sourceId
  | _ => []

/-- The source ids of the files that exist and are passed over. -/
def Emission.skipped (env : Environment) : Emission → List String
  | .filesystem (.ok source) => (source.files.filter (source.skips env)).map source.fileSourceId
  | _ => []

namespace Ingest

/-- What a walk yields for a file, when it is not an error. -/
theorem filesystemDocument_cases {source : FilesystemSource} {file : FileEntry}
    {result : Option Document} (h : source.filesystemDocument env config file = .ok result) :
    (∃ document, result = some document ∧ document.sourceId = source.fileSourceId file ∧
        file.isFile = true) ∨
      (result = none ∧ (file.isFile = true → source.skips env file = true)) := by
  rw [FilesystemSource.filesystemDocument] at h
  rw [FilesystemSource.skips]
  split at h
  · rename_i hskipped
    obtain rfl := Except.ok.inj h
    refine Or.inr ⟨rfl, fun hfile ↦ ?_⟩
    have htext : file.isText env.lowercase source.rootName = false := by
      simpa [hfile] using hskipped
    simp [htext]
  · rename_i hkept
    have hkind : file.isFile = true ∧ file.isText env.lowercase source.rootName = true := by
      simpa using hkept
    obtain ⟨length, hlength, h⟩ := Iff.mp Except.bind_ok_iff h
    split_ifs at h with hlong
    · obtain rfl := Iff.mp Except.pure_ok_iff h
      exact Or.inr ⟨rfl, fun _ ↦ by simp [hlength, hlong]⟩
    · cases hcontent : file.content with
      | error reason =>
          rw [hcontent] at h
          obtain rfl := Iff.mp Except.pure_ok_iff h
          exact Or.inr ⟨rfl, fun _ ↦ by simp⟩
      | ok content =>
          rw [hcontent] at h
          dsimp only at h
          by_cases hblank : ByteText.trim content.toList = []
          · rw [if_pos hblank] at h
            obtain rfl := Iff.mp Except.pure_ok_iff h
            exact Or.inr ⟨rfl, fun _ ↦ by simp [hblank]⟩
          · rw [if_neg hblank] at h
            obtain ⟨uri, -, h⟩ := Iff.mp Except.bind_ok_iff h
            obtain rfl := Iff.mp Except.pure_ok_iff h
            exact Or.inl ⟨_, rfl, rfl, hkind.1⟩

/-- A run that reconciles passes no error of the walk. -/
theorem syncFiles_complete {items : List (Except String Document)} {w w' : WalkState}
    (h : syncFiles env limits config true items w = .ok w') :
    ∀ item ∈ items, ∃ document, item = .ok document := by
  induction items generalizing w with
  | nil => simp
  | cons item rest ih =>
      rw [syncFiles] at h
      obtain ⟨state, -, h⟩ := Iff.mp Except.bind_ok_iff h
      cases item with
      | error reason => cases h
      | ok document =>
          dsimp only at h
          split_ifs at h
          · simp_all
          · obtain ⟨w'', -, hrest⟩ := Iff.mp Except.bind_ok_iff h
            rw [List.forall_mem_cons]
            exact ⟨⟨document, rfl⟩, ih hrest⟩

theorem mem_filterMap_toOption {α : Type} {l : List (Except String α)} {a : α} :
    a ∈ l.filterMap Except.toOption ↔ .ok a ∈ l := by
  rw [List.mem_filterMap]
  constructor
  · rintro ⟨item, hitem, heq⟩
    cases item with
    | error reason => cases heq
    | ok b =>
        obtain rfl := Option.some.inj heq
        exact hitem
  · exact fun hitem ↦ ⟨.ok a, hitem, rfl⟩

theorem ok_mem_filesystemDocumentIter {source : FilesystemSource} {document : Document} :
    .ok document ∈ source.filesystemDocumentIter env config ↔
      ∃ file, .ok file ∈ source.visible source.entries ∧
        source.filesystemDocument env config file = .ok (some document) := by
  rw [FilesystemSource.filesystemDocumentIter, List.mem_filterMap]
  constructor
  · rintro ⟨entry, hentry, heq⟩
    cases entry with
    | error reason => simp at heq
    | ok file =>
        refine ⟨file, hentry, ?_⟩
        cases hresult : source.filesystemDocument env config file with
        | error reason => simp [hresult] at heq
        | ok result =>
            cases result with
            | none => simp [hresult] at heq
            | some other => simpa [hresult] using heq
  · rintro ⟨file, hfile, hresult⟩
    exact ⟨.ok file, hfile, by simp [hresult]⟩

/-- The items of a walk without errors are the documents it yields and the files that it
passes over. -/
theorem mem_items_filesystem {source : FilesystemSource}
    (hcomplete : ∀ item ∈ source.filesystemDocumentIter env config, ∃ document, item = .ok document)
    (x : String) :
    x ∈ (Emission.filesystem (.ok source)).items env ↔
      x ∈ ((Emission.filesystem (.ok source)).documents env config).map Document.sourceId ∨
        x ∈ (Emission.filesystem (.ok source)).skipped env := by
  have hdocuments : x ∈ ((Emission.filesystem (.ok source)).documents env config).map
      Document.sourceId ↔ ∃ file document, .ok file ∈ source.visible source.entries ∧
        source.filesystemDocument env config file = .ok (some document) ∧
          document.sourceId = x := by
    rw [Emission.documents, List.map_map, List.mem_map]
    constructor
    · rintro ⟨document, hdocument, rfl⟩
      rw [mem_filterMap_toOption, ok_mem_filesystemDocumentIter] at hdocument
      obtain ⟨file, hfile, hresult⟩ := hdocument
      exact ⟨file, document, hfile, hresult, rfl⟩
    · rintro ⟨file, document, hfile, hresult, rfl⟩
      refine ⟨document, ?_, rfl⟩
      rw [mem_filterMap_toOption, ok_mem_filesystemDocumentIter]
      exact ⟨file, hfile, hresult⟩
  have hfiles : ∀ file, file ∈ source.files ↔
      .ok file ∈ source.visible source.entries ∧ file.isFile = true := by
    intro file
    rw [FilesystemSource.files, List.mem_filter, mem_filterMap_toOption]
  rw [hdocuments, Emission.items, Emission.skipped, List.mem_map, List.mem_map]
  constructor
  · rintro ⟨file, hfile, rfl⟩
    obtain ⟨hvisible, hregular⟩ := Iff.mp (hfiles file) hfile
    cases hresult : source.filesystemDocument env config file with
    | error reason =>
        obtain ⟨document, hdocument⟩ := hcomplete (.error reason)
          (List.mem_filterMap.mpr ⟨.ok file, hvisible, by simp [hresult]⟩)
        cases hdocument
    | ok result =>
        rcases filesystemDocument_cases hresult with
          ⟨document, rfl, hsourceId, -⟩ | ⟨-, hskips⟩
        · exact Or.inl ⟨file, document, hvisible, hresult, hsourceId⟩
        · exact Or.inr ⟨file, List.mem_filter.mpr ⟨hfile, hskips hregular⟩, rfl⟩
  · rintro (⟨file, document, hvisible, hresult, rfl⟩ | ⟨file, hfile, rfl⟩)
    · rcases filesystemDocument_cases hresult with ⟨other, heq, hsourceId, hregular⟩ | ⟨heq, -⟩
      · obtain rfl := Option.some.inj heq
        exact ⟨file, Iff.mpr (hfiles file) ⟨hvisible, hregular⟩, hsourceId.symm⟩
      · cases heq
    · exact ⟨file, (List.mem_filter.mp hfile).1, rfl⟩

/-- What a run that reconciles has seen: every item that it has not passed over. -/
theorem mem_items_of_syncSourceDocuments {emission : Emission} {state : IngestState}
    {r : IngestState × SyncScope}
    (h : syncSourceDocuments env limits config emission true state = .ok r) (x : String) :
    x ∈ emission.items env ↔ x ∈ r.2.seen ∨ x ∈ emission.skipped env := by
  rw [((syncSourceDocuments_ends emission true state).of_ok h).seen, taken_reconcile]
  match emission with
  | .filesystem (.error reason) => simp [Emission.items, Emission.documents, Emission.skipped]
  | .connector (.error reason) => simp [Emission.items, Emission.documents, Emission.skipped]
  | .filesystem (.ok source) =>
      rw [syncSourceDocuments] at h
      obtain ⟨passed, -, h⟩ := Iff.mp Except.bind_ok_iff h
      obtain ⟨planned, -, h⟩ := Iff.mp Except.bind_ok_iff h
      obtain ⟨checked, -, h⟩ := Iff.mp Except.bind_ok_iff h
      obtain ⟨w, hw, -⟩ := Iff.mp Except.bind_ok_iff h
      exact mem_items_filesystem (syncFiles_complete hw) x
  | .connector (.ok spool) =>
      simp [Emission.items, Emission.documents, Emission.skipped]

/-! ## A run deletes what its snapshot lacks -/

/-- No document of `s` is gone in `t`. -/
def Keeps (s t : Store) : Prop := ∀ id, (s.documents.get id).isSome → (t.documents.get id).isSome

/-- A run that fails, or does not reconcile, deletes nothing; one that succeeds
deletes, of the documents that are stored when the snapshot is complete, those
of its source and project that do not exist in the source. -/
structure DeletesMissing (env : Environment) (limits : SourceLimits) (config : SourceConfig)
    (emission : Emission) (reconcile : Bool) (s : Store) : Prop where
  failed : ∀ stopped, syncConfiguredSource env limits config emission reconcile s = .error stopped →
    Keeps s stopped.store
  bounded : reconcile = false → ∀ t n,
    syncConfiguredSource env limits config emission reconcile s = .ok (t, n) → Keeps s t
  exact : reconcile = true → ∀ t n,
    syncConfiguredSource env limits config emission reconcile s = .ok (t, n) →
      ∀ state scope, syncSourceDocuments env limits config emission reconcile ⟨s, 0⟩ =
        .ok (state, scope) → Keeps s state.store ∧
          ∀ row ∈ state.store.documents.rows, t.documents.get row.id = none ↔
            row.source = config.canonicalSource ∧ row.project = config.project ∧
              row.sourceId ∉ emission.items env

/-- Where a run reaches its deletion, no document of its source and project is stored under
the source id of a file that exists and is passed over, or, if the record of the run cannot be
finished, under any other, unless the source emitted a document under that id. -/
def SkippedUnheld (env : Environment) (limits : SourceLimits) (config : SourceConfig)
    (emission : Emission) (reconcile : Bool) (s : Store) : Prop :=
  reconcile = true → ∀ state scope,
    syncSourceDocuments env limits config emission reconcile ⟨s, 0⟩ = .ok (state, scope) →
      env.stops state.clock = none →
        ∀ row ∈ state.store.documents.rows, row.source = config.canonicalSource →
          row.project = config.project →
            row.sourceId ∈ emission.skipped env ∨ env.finishSync ≠ .ok () →
              row.sourceId ∈ (emission.documents env config).map Document.sourceId

theorem Written.keeps {codec : Codec} {t : Store} (h : Written codec documents s t) : Keeps s t :=
  fun _ hid ↦ h.isSome hid

/-- The store that a run leaves behind, whether it succeeds or not. -/
def leaves : Except Stopped (Store × ℕ) → Store
  | .error stopped => stopped.store
  | .ok (t, _) => t

/-- The run has reached its deletion, if it makes one, from a complete snapshot. -/
def Deleted (env : Environment) (limits : SourceLimits) (config : SourceConfig)
    (emission : Emission) (reconcile : Bool) (s t : Store) : Prop :=
  ∃ state scope, syncSourceDocuments env limits config emission reconcile ⟨s, 0⟩ =
      .ok (state, scope) ∧ env.stops state.clock = none ∧
    (reconcile = false ∧ t = state.store ∨ reconcile = true ∧ ∃ n,
      state.store.reconcile env.codec config.canonicalSource config.project scope.seen
        (fun _ ↦ env.now (state.clock + 1)) = .ok (t, n))

/-- A run stops with what it has written before its deletion, or makes the deletion; then it
succeeds exactly when its record can be finished. -/
theorem syncConfiguredSource_cases (env : Environment) (limits : SourceLimits)
    (config : SourceConfig) (emission : Emission) (reconcile : Bool) (s : Store) :
    let result := syncConfiguredSource env limits config emission reconcile s
    (result.isOk = false ∧ Written env.codec (emission.documents env config) s (leaves result) ∧
        ∀ state scope, syncSourceDocuments env limits config emission reconcile ⟨s, 0⟩ =
          .ok (state, scope) → env.stops state.clock ≠ none) ∨
      (Deleted env limits config emission reconcile s (leaves result) ∧
        (result.isOk = true ↔ env.finishSync = .ok ())) := by
  have hends := @syncSourceDocuments_ends env limits config emission reconcile ⟨s, 0⟩
  rw [syncConfiguredSource]
  cases hsnapshot : syncSourceDocuments env limits config emission reconcile ⟨s, 0⟩ with
  | error stopped =>
      rw [hsnapshot] at hends
      exact .inl ⟨rfl, hends, fun _ _ h ↦ by cases h⟩
  | ok r =>
      obtain ⟨state, scope⟩ := r
      have hwritten := (hends.of_ok hsnapshot).written
      change (let result := check env state >>= fun state ↦
          deleteUnseen env config reconcile state scope >>= finishRun env
        (result.isOk = false ∧ Written env.codec (emission.documents env config) s
            (leaves result) ∧ ∀ state' scope', Except.ok (state, scope) =
              (.ok (state', scope') : Except Stopped (IngestState × SyncScope)) →
                env.stops state'.clock ≠ none) ∨
          (Deleted env limits config emission reconcile s (leaves result) ∧
            (result.isOk = true ↔ env.finishSync = .ok ())))
      rw [check]
      cases hstops : env.stops state.clock with
      | some reason =>
          refine .inl ⟨rfl, hwritten, fun state' scope' h ↦ ?_⟩
          obtain ⟨rfl, rfl⟩ := Prod.mk.inj (Except.ok.inj h)
          simp [hstops]
      | none =>
          have hfinish : ∀ t n, (reconcile = false ∧ t = state.store ∨ reconcile = true ∧
                state.store.reconcile env.codec config.canonicalSource config.project scope.seen
                  (fun _ ↦ env.now (state.clock + 1)) = .ok (t, n)) →
              Deleted env limits config emission reconcile s (leaves (finishRun env (t, n))) ∧
                ((finishRun env (t, n)).isOk = true ↔ env.finishSync = .ok ()) := by
            intro t n hdeleted
            have hthere : Deleted env limits config emission reconcile s t :=
              ⟨state, scope, hsnapshot, hstops, hdeleted.imp_right fun h ↦ ⟨h.1, n, h.2⟩⟩
            rw [finishRun]
            cases hfinished : env.finishSync with
            | error reason => exact ⟨hthere, by simp [Except.isOk, Except.toBool]⟩
            | ok u => exact ⟨hthere, by simp [Except.isOk, Except.toBool]⟩
          refine .inr ?_
          dsimp only [bind, Except.bind]
          rw [deleteUnseen]
          cases reconcile with
          | false => exact hfinish state.store 0 (.inl ⟨rfl, rfl⟩)
          | true =>
              obtain ⟨t, n, hreconcile⟩ := reconcile_total env.codec state.store
                config.canonicalSource config.project scope.seen fun _ ↦ env.now (state.clock + 1)
              rw [if_pos rfl, hreconcile]
              exact hfinish t n (.inr ⟨rfl, hreconcile⟩)

/-- What a run that reconciles deletes: the documents of its source and project that the
source has not emitted. -/
theorem Deleted.get_eq_none_iff {emission : Emission} {t : Store}
    (h : Deleted env limits config emission true s t) {state : IngestState} {scope : SyncScope}
    (hsnapshot : syncSourceDocuments env limits config emission true ⟨s, 0⟩ = .ok (state, scope))
    {row : DocumentRow} (hrow : row ∈ state.store.documents.rows) :
    t.documents.get row.id = none ↔ row.source = config.canonicalSource ∧
      row.project = config.project ∧
        row.sourceId ∉ (emission.documents env config).map Document.sourceId := by
  obtain ⟨state', scope', hsnapshot', -, ⟨hfalse, -⟩ | ⟨-, n, hreconcile⟩⟩ := h
  · cases hfalse
  · rw [hsnapshot] at hsnapshot'
    obtain ⟨rfl, rfl⟩ := Prod.mk.inj (Except.ok.inj hsnapshot')
    have hseen := ((syncSourceDocuments_ends emission true ⟨s, 0⟩).of_ok hsnapshot).seen
    have hget : state.store.documents.get row.id = some row :=
      Iff.mpr Table.get_eq_some_iff ⟨hrow, rfl⟩
    rw [taken_reconcile] at hseen
    rw [get_reconcile hreconcile, hget, Option.filter_some, hseen]
    split_ifs with hkept
    · simpa using of_decide_eq_true hkept
    · simpa using hkept

/-- A run deletes only what a complete snapshot of its source lacks, and nothing when it
fails, exactly when no stored document belongs to a file that it passes over, and none is to
be deleted that it cannot record. -/
theorem deletesMissing_iff (env : Environment) (limits : SourceLimits) (config : SourceConfig)
    (emission : Emission) (reconcile : Bool) (s : Store) :
    DeletesMissing env limits config emission reconcile s ↔
      SkippedUnheld env limits config emission reconcile s := by
  have hcases := syncConfiguredSource_cases env limits config emission reconcile s
  constructor
  · intro h hreconcile state scope hsnapshot hstops row hrow hsource hproject hskipped
    subst hreconcile
    by_contra hunseen
    obtain ⟨hdeleted, hok⟩ : Deleted env limits config emission true s
        (leaves (syncConfiguredSource env limits config emission true s)) ∧
        ((syncConfiguredSource env limits config emission true s).isOk = true ↔
          env.finishSync = .ok ()) :=
      hcases.resolve_left fun hstopped ↦ hstopped.2.2 state scope hsnapshot hstops
    have hgone := (hdeleted.get_eq_none_iff hsnapshot hrow).mpr ⟨hsource, hproject, hunseen⟩
    cases hrun : syncConfiguredSource env limits config emission true s with
    | error stopped =>
        rw [hrun] at hgone
        -- a row that is new was emitted
        obtain ⟨old, hold⟩ : ∃ old, s.documents.get row.id = some old := by
          cases hget : s.documents.get row.id with
          | some old => exact ⟨old, rfl⟩
          | none =>
              exact absurd (((syncSourceDocuments_ends emission true ⟨s, 0⟩).of_ok
                hsnapshot).written.sourceId_of_new
                  (Iff.mpr Table.get_eq_some_iff ⟨hrow, rfl⟩) hget) hunseen
        have hkept := h.failed stopped hrun row.id (by rw [hold]; rfl)
        change stopped.store.documents.get row.id = none at hgone
        rw [hgone] at hkept
        cases hkept
    | ok result =>
        obtain ⟨t, n⟩ := result
        rw [hrun] at hgone hok
        have hitem : row.sourceId ∈ emission.items env :=
          Iff.mpr (mem_items_of_syncSourceDocuments hsnapshot row.sourceId)
            (.inr (hskipped.resolve_right fun hne ↦ hne (hok.mp rfl)))
        exact (((h.exact rfl t n hrun state scope hsnapshot).2 row hrow).mp hgone).2.2 hitem
  · intro h
    refine ⟨fun stopped hrun ↦ ?_, ?_, ?_⟩
    · rw [hrun] at hcases
      rcases hcases with ⟨-, hwritten, -⟩ | ⟨hdeleted, hok⟩
      · exact hwritten.keeps
      · have hunfinished : env.finishSync ≠ .ok () := fun heq ↦ by
          have htrue := hok.mpr heq
          cases htrue
        obtain ⟨state, scope, hsnapshot, hstops, hend⟩ := hdeleted
        have hkeeps := ((syncSourceDocuments_ends emission reconcile ⟨s, 0⟩).of_ok
          hsnapshot).written.keeps
        intro id hid
        rcases hend with ⟨-, heq⟩ | ⟨rfl, n, hreconcile⟩
        · change stopped.store = state.store at heq
          rw [heq]
          exact hkeeps id hid
        · obtain ⟨row, hget⟩ := Option.isSome_iff_exists.mp (hkeeps id hid)
          obtain ⟨hrow, rfl⟩ := Iff.mp Table.get_eq_some_iff hget
          rw [Option.isSome_iff_ne_none]
          intro hgone
          obtain ⟨hsource, hproject, hunseen⟩ := (Deleted.get_eq_none_iff
            ⟨state, scope, hsnapshot, hstops, .inr ⟨rfl, n, hreconcile⟩⟩ hsnapshot hrow).mp hgone
          exact hunseen (h rfl state scope hsnapshot hstops row hrow hsource hproject
            (.inr hunfinished))
    · rintro rfl t n hrun
      rw [hrun] at hcases
      rcases hcases with ⟨hfalse, -⟩ | ⟨⟨state, scope, hsnapshot, -, hend⟩, -⟩
      · cases hfalse
      · rcases hend with ⟨-, rfl⟩ | ⟨htrue, -⟩
        · exact ((syncSourceDocuments_ends emission false ⟨s, 0⟩).of_ok hsnapshot).written.keeps
        · cases htrue
    · rintro rfl t n hrun state scope hsnapshot
      rw [hrun] at hcases
      rcases hcases with ⟨hfalse, -⟩ | ⟨hdeleted, -⟩
      · cases hfalse
      have hstart := (syncSourceDocuments_ends emission true ⟨s, 0⟩).of_ok hsnapshot
      refine ⟨hstart.written.keeps, fun row hrow ↦ ?_⟩
      refine (hdeleted.get_eq_none_iff hsnapshot hrow).trans ?_
      refine and_congr_right fun hsource ↦ and_congr_right fun hproject ↦ not_congr ?_
      rw [mem_items_of_syncSourceDocuments hsnapshot, hstart.seen, taken_reconcile]
      refine ⟨.inl, fun hitem ↦ hitem.elim id fun hskipped ↦ ?_⟩
      obtain ⟨state', scope', hsnapshot', hstops, -⟩ := hdeleted
      rw [hsnapshot] at hsnapshot'
      obtain ⟨rfl, rfl⟩ := Prod.mk.inj (Except.ok.inj hsnapshot')
      exact h rfl state scope hsnapshot hstops row hrow hsource hproject (.inl hskipped)

/-! ## A file that cannot be read -/

/-- Surroundings in which nothing goes wrong. -/
def calm : Environment where
  codec := .sample
  chunk _ := []
  embed _ := []
  stops _ := none
  now _ := "2026-01-01T00:00:00+00:00"
  parseDocument _ := none
  lowercase := id
  uri base _ := .ok base
  finishSync := .ok ()

def calmLimits : SourceLimits := ⟨100, 1000, 10, 1⟩

/-- A filesystem source of notes. -/
def notesConfig (name project : String) : SourceConfig := ⟨name, "filesystem", some "notes", project, []⟩

/-- A walk over one note. -/
def noteWalk (content : Except String String) : Emission :=
  let entries := [.ok ⟨["menu.md"], true, .ok 3, content, "2026-01-01T00:00:00+00:00"⟩]
  .filesystem (.ok ⟨"notes", [], "repository", [], entries, entries⟩)

/-- A note is read in one run and cannot be read in the next, which deletes it. -/
theorem deletesMissing_unreadable :
    ∃ s n, syncConfiguredSource calm calmLimits (notesConfig "notes" "work") (noteWalk (.ok "tea"))
        true (Store.adopted none) = .ok (s, n) ∧
      ¬DeletesMissing calm calmLimits (notesConfig "notes" "work")
        (noteWalk (.error "permission denied")) true s := by
  have hvalues : ((syncConfiguredSource calm calmLimits (notesConfig "notes" "work")
      (noteWalk (.ok "tea")) true (Store.adopted none)).toOption.bind fun first ↦
        (syncSourceDocuments calm calmLimits (notesConfig "notes" "work")
          (noteWalk (.error "permission denied")) true ⟨first.1, 0⟩).toOption.bind fun snapshot ↦
            (syncConfiguredSource calm calmLimits (notesConfig "notes" "work")
              (noteWalk (.error "permission denied")) true first.1).toOption.map fun second ↦
                (snapshot.1.store.documents.rows.map DocumentRow.sourceId,
                  second.1.documents.rows)) = some (["menu.md"], []) := by
    decide +kernel
  obtain ⟨first, hfirst, hvalues⟩ := Option.bind_eq_some_iff.mp hvalues
  obtain ⟨snapshot, hsnapshot, hvalues⟩ := Option.bind_eq_some_iff.mp hvalues
  obtain ⟨second, hsecond, hvalues⟩ := Option.map_eq_some_iff.mp hvalues
  obtain ⟨hids, hgone⟩ := Prod.mk.inj hvalues
  refine ⟨first.1, first.2, Iff.mp Except.toOption_eq_some_iff hfirst, fun h ↦ ?_⟩
  obtain ⟨row, hrow, hid⟩ := List.mem_map.mp (hids ▸ List.mem_singleton_self "menu.md" :
    "menu.md" ∈ snapshot.1.store.documents.rows.map DocumentRow.sourceId)
  have hexact := (h.exact rfl second.1 second.2 (Iff.mp Except.toOption_eq_some_iff hsecond) snapshot.1 snapshot.2
    (Iff.mp Except.toOption_eq_some_iff hsnapshot)).2 row hrow
  have hdeleted : second.1.documents.get row.id = none := by
    rw [Table.get, hgone]
    rfl
  refine (Iff.mp hexact hdeleted).2.2 ?_
  rw [hid]
  decide +kernel

end Ingest

end Cortana
