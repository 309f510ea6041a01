import Cortana.Core.Runs
import Cortana.Ingest.Snapshot

/-!
# Projects that share a source identifier

A document is stored under its source identifier and source id, and labelled
with its project.  The configuration only keeps identifiers apart within a
project, so that a run can write over the document of another project.
-/

namespace Cortana

/-- A run of a configured source, with its surroundings and what it emits. -/
structure SyncRun where
  config : SourceConfig
  env : Environment
  limits : SourceLimits
  emission : Emission
  reconcile : Bool

namespace SyncRun

open Ingest

variable {codec : Codec} {s t : Store} {r : SyncRun}

/-- What the run emits, as it is written. -/
def documents (r : SyncRun) : List Document := r.emission.documents r.env r.config

/-- The source ids of what the run emits. -/
def sourceIds (r : SyncRun) : List String := r.documents.map Document.sourceId

def outcome (s : Store) (r : SyncRun) : Except Stopped (Store × ℕ) :=
  syncConfiguredSource r.env r.limits r.config r.emission r.reconcile s

/-- The store that the run leaves, whether it succeeds or not. -/
def next (s : Store) (r : SyncRun) : Store := leaves (r.outcome s)

/-- The source ids of what the run has to store: of all that it emits, unless it is a walk that
may stop at its budgets. -/
def taken (r : SyncRun) : List String :=
  (r.emission.taken r.env r.limits r.config r.reconcile).map Document.sourceId

/-- The row under the id of an emitted document, if there is one, is that of
the document: its source, its source id and its project. -/
def Quiet (codec : Codec) (s : Store) (r : SyncRun) : Prop :=
  ∀ document ∈ r.documents,
    ∀ row ∈ s.documents.get (stableId codec document.source document.sourceId),
      row.source = r.config.canonicalSource ∧ row.sourceId = document.sourceId ∧
        row.project = r.config.project

theorem labels_of_mem_documents {document : Document} (h : document ∈ r.documents) :
    document.source = r.config.canonicalSource ∧ document.project = r.config.project := by
  rw [documents] at h
  unfold Emission.documents at h
  split at h
  · obtain ⟨raw, -, rfl⟩ := List.mem_map.mp h
    exact ⟨rfl, rfl⟩
  · obtain ⟨raw, -, rfl⟩ := List.mem_map.mp h
    exact ⟨rfl, rfl⟩
  · cases h

/-! ## The rows of a run -/

/-- Rows under the ids of emitted documents are those of the run. -/
def Owned (codec : Codec) (r : SyncRun) (s : Store) : Prop :=
  ∀ document ∈ r.documents,
    ∀ row ∈ s.documents.get (stableId codec document.source document.sourceId),
      row.source = r.config.canonicalSource ∧ row.sourceId ∈ r.sourceIds ∧
        row.project = r.config.project

theorem Quiet.owned (h : Quiet codec s r) : Owned codec r s := by
  intro document hdocument row hrow
  obtain ⟨hsource, hsourceId, hproject⟩ := h document hdocument row hrow
  refine ⟨hsource, ?_, hproject⟩
  rw [hsourceId]
  exact List.mem_map_of_mem hdocument

theorem Owned.written (h : Owned codec r s) (hwritten : Written codec r.documents s t) :
    Owned codec r t := by
  induction hwritten with
  | refl => exact h
  | tail _ hlast ih =>
      intro document hdocument row hrow
      rcases hlast.rewrites (stableId codec document.source document.sourceId) with
        hsame | ⟨other, hother, -, row', hrow', hkept, hnew⟩
      · rw [hsame] at hrow
        exact ih document hdocument row hrow
      · rw [Option.mem_def] at hrow hrow'
        rw [hrow] at hrow'
        obtain rfl := Option.some.inj hrow'
        obtain ⟨hsource, hproject⟩ := labels_of_mem_documents hother
        cases hold : (Store.documents _).get (stableId codec document.source document.sourceId) with
        | none =>
            obtain ⟨hs, hid, hp⟩ := hnew hold
            exact ⟨hs.trans hsource, hid ▸ List.mem_map_of_mem hother, hp.trans hproject⟩
        | some old =>
            obtain ⟨hs, hid, hp⟩ := hkept old hold
            obtain ⟨hs', hid', hp'⟩ := ih document hdocument old hold
            refine ⟨hs.trans hs', hid ▸ hid', ?_⟩
            rcases hp with hp | hp
            · exact hp.trans hp'
            · exact hp.trans hproject

/-- A run that reaches its deletion has held what it has to store, and then deletes nothing or
what it does not emit. -/
theorem deleted_cases (h : Deleted r.env r.limits r.config r.emission r.reconcile s t) :
    ∃ mid, Written r.env.codec r.documents s mid ∧
      (∀ sourceId ∈ r.taken, ∃ document ∈ r.documents, document.sourceId = sourceId ∧
        Held r.env.codec mid document) ∧
      (t = mid ∨ ∃ now n, mid.reconcile r.env.codec r.config.canonicalSource r.config.project
        r.sourceIds now = .ok (t, n)) := by
  obtain ⟨state, scope, hsnapshot, -, hend⟩ := h
  have hends := (syncSourceDocuments_ends r.emission r.reconcile ⟨s, 0⟩).of_ok hsnapshot
  refine ⟨state.store, hends.written, fun sourceId htaken ↦ ?_, ?_⟩
  · obtain ⟨document, hdocument, rfl⟩ := List.mem_map.mp htaken
    exact ⟨document, hends.subset hdocument, rfl, hends.held document hdocument⟩
  · rcases hend with ⟨-, rfl⟩ | ⟨hreconcile, n, hdelete⟩
    · exact .inl rfl
    · have hseen := hends.seen
      rw [hreconcile, taken_reconcile] at hseen
      rw [hseen] at hdelete
      exact .inr ⟨_, n, hdelete⟩

/-- A run writes what it emits, and may then delete what it does not emit. -/
theorem next_cases (hcodec : r.env.codec = codec) (s : Store) :
    ∃ mid, Written codec r.documents s mid ∧ (r.next s = mid ∨ ∃ now n,
      mid.reconcile codec r.config.canonicalSource r.config.project r.sourceIds now =
        .ok (r.next s, n)) := by
  subst hcodec
  rcases syncConfiguredSource_cases r.env r.limits r.config r.emission r.reconcile s with
    ⟨-, hwritten, -⟩ | ⟨hdeleted, -⟩
  · exact ⟨r.next s, hwritten, .inl rfl⟩
  · obtain ⟨mid, hwritten, -, hend⟩ := deleted_cases hdeleted
    exact ⟨mid, hwritten, hend⟩

/-- A row that is not under the id of an emitted document stays, unless it is of
the source and the project of the run. -/
theorem get_next_of_not_emitted (hcodec : r.env.codec = codec) {row : DocumentRow}
    (hrow : s.documents.get row.id = some row)
    (hid : ∀ document ∈ r.documents, row.id ≠ stableId codec document.source document.sourceId)
    (hscope : row.source ≠ r.config.canonicalSource ∨ row.project ≠ r.config.project) :
    (r.next s).documents.get row.id = some row := by
  obtain ⟨mid, hwritten, hsame | ⟨now, n, hreconcile⟩⟩ := next_cases hcodec s
  · rw [hsame, hwritten.get_of_forall_ne hid, hrow]
  · rw [get_reconcile hreconcile, hwritten.get_of_forall_ne hid, hrow, Option.filter_some]
    refine if_pos (decide_eq_true ?_)
    rintro ⟨hsource, hproject, -⟩
    exact hscope.elim (fun hne ↦ hne hsource) fun hne ↦ hne hproject

/-- A run leaves the documents of other projects as they are. -/
theorem Quiet.mem_next (h : Quiet codec s r) (hcodec : r.env.codec = codec) {row : DocumentRow}
    (hrow : row ∈ s.documents.rows) (hproject : row.project ≠ r.config.project) :
    row ∈ (r.next s).documents.rows := by
  have hget : s.documents.get row.id = some row := Iff.mpr Table.get_eq_some_iff ⟨hrow, rfl⟩
  have hkept : (r.next s).documents.get row.id = some row := by
    refine get_next_of_not_emitted hcodec hget (fun document hdocument hid ↦ ?_) (Or.inr hproject)
    rw [hid] at hget
    exact hproject (h document hdocument row hget).2.2
  exact (Iff.mp Table.get_eq_some_iff hkept).1

/-! ## What a source has stored -/

/-- The store has a document of the source under an id, in its project. -/
def Stored (codec : Codec) (config : SourceConfig) (sourceIds : List String) (sourceId : String)
    (s : Store) : Prop :=
  ∃ row ∈ s.documents.get (stableId codec config.canonicalSource sourceId),
    row.source = config.canonicalSource ∧ row.sourceId ∈ sourceIds ∧ row.project = config.project

/-- What the run may not delete is stored in the end if it is stored when the
snapshot is complete. -/
theorem Owned.stored {mid : Store} (h : Owned codec r mid) {document : Document}
    (hdocument : document ∈ r.documents) (hheld : Held codec mid document)
    (hmid : r.next s = mid ∨ ∃ now n,
      mid.reconcile codec r.config.canonicalSource r.config.project r.sourceIds now =
        .ok (r.next s, n)) :
    Stored codec r.config r.sourceIds document.sourceId (r.next s) := by
  obtain ⟨row, hrow⟩ := Option.isSome_iff_exists.mp hheld
  have hlabels := h document hdocument row hrow
  rw [(labels_of_mem_documents hdocument).1] at hrow
  refine ⟨row, ?_, hlabels⟩
  rcases hmid with hsame | ⟨now, n, hreconcile⟩
  · rw [hsame]
    exact hrow
  · rw [get_reconcile hreconcile, hrow, Option.filter_some]
    refine if_pos (decide_eq_true ?_)
    exact fun hunseen ↦ hunseen.2.2 hlabels.2.1

/-- A run that succeeds stores what it has to store, which is among what it emits. -/
theorem Quiet.stored_of_isOk (h : Quiet codec s r) (hcodec : r.env.codec = codec)
    (hok : (r.outcome s).isOk) {sourceId : String} (htaken : sourceId ∈ r.taken) :
    sourceId ∈ r.sourceIds ∧ Stored codec r.config r.sourceIds sourceId (r.next s) := by
  subst hcodec
  rcases syncConfiguredSource_cases r.env r.limits r.config r.emission r.reconcile s with
    ⟨hfailed, -⟩ | ⟨hdeleted, -⟩
  · rw [outcome, hfailed] at hok
    cases hok
  · obtain ⟨mid, hwritten, hheld, hend⟩ := deleted_cases hdeleted
    obtain ⟨document, hdocument, rfl, hdocumentHeld⟩ := hheld sourceId htaken
    exact ⟨List.mem_map_of_mem hdocument,
      (h.owned.written hwritten).stored hdocument hdocumentHeld hend⟩

/-- A later run of the same source, with the same source ids, keeps its
documents. -/
theorem Quiet.stored_same (h : Quiet codec s r) (hcodec : r.env.codec = codec) {sourceId : String}
    (hmem : sourceId ∈ r.sourceIds) (hstored : Stored codec r.config r.sourceIds sourceId s) :
    Stored codec r.config r.sourceIds sourceId (r.next s) := by
  obtain ⟨document, hdocument, rfl⟩ := List.mem_map.mp hmem
  obtain ⟨mid, hwritten, hmid⟩ := next_cases hcodec s
  refine (h.owned.written hwritten).stored hdocument (hwritten.held ?_) hmid
  obtain ⟨row, hrow, -⟩ := hstored
  rw [Held, (labels_of_mem_documents hdocument).1]
  exact Option.isSome_iff_exists.mpr ⟨row, hrow⟩

/-- So does a later run of another source. -/
theorem Quiet.stored_other (h : Quiet codec s r) (hcodec : r.env.codec = codec)
    {config : SourceConfig} (hne : config.canonicalSource ≠ r.config.canonicalSource ∨
      config.project ≠ r.config.project) {sourceIds : List String} {sourceId : String}
    (hstored : Stored codec config sourceIds sourceId s) :
    Stored codec config sourceIds sourceId (r.next s) := by
  obtain ⟨row, hrow, hsource, hsourceId, hproject⟩ := hstored
  have hid : row.id = stableId codec config.canonicalSource sourceId := Table.key_of_get hrow
  have hget : s.documents.get row.id = some row := by rwa [hid]
  refine ⟨row, ?_, hsource, hsourceId, hproject⟩
  rw [← hid]
  refine get_next_of_not_emitted hcodec hget (fun document hdocument heq ↦ ?_) ?_
  · rw [heq] at hget
    obtain ⟨hs, -, hp⟩ := h document hdocument row hget
    exact hne.elim (fun hne ↦ hne (hsource.symm.trans hs)) fun hne ↦ hne (hproject.symm.trans hp)
  · rw [hsource, hproject]
    exact hne

theorem taken_eq_sourceIds (h : r.reconcile = true) : r.taken = r.sourceIds := by
  rw [taken, h, taken_reconcile]
  rfl

/-! ## Sequences of runs -/

/-- A document that is stored stays in any sequence of runs that emit the same
source ids. -/
theorem stored_along {sources : List SourceConfig}
    (hvalid : SourceConfig.validateSourceDefinitions sources = true)
    {corpus : SourceConfig → List String} {config : SourceConfig} {sourceId : String}
    (hmem : sourceId ∈ corpus config) (hconfig : config ∈ sources) {runs : List SyncRun}
    (hruns : ∀ r ∈ runs, r.config ∈ sources ∧ r.env.codec = codec)
    (hcorpus : ∀ r ∈ runs, r.sourceIds = corpus r.config)
    (hquiet : Transition.Along next (Quiet codec) s runs)
    (hstored : Stored codec config (corpus config) sourceId s) :
    Stored codec config (corpus config) sourceId (runs.foldl next s) := by
  induction runs generalizing s with
  | nil => exact hstored
  | cons r rest ih =>
      obtain ⟨hsource, hcodec⟩ := hruns r List.mem_cons_self
      refine ih (fun r' hr' ↦ hruns r' (List.mem_cons_of_mem r hr'))
        (fun r' hr' ↦ hcorpus r' (List.mem_cons_of_mem r hr')) hquiet.2 ?_
      by_cases hsame : config = r.config
      · subst hsame
        rw [← hcorpus r List.mem_cons_self] at hmem hstored ⊢
        exact Quiet.stored_same hquiet.1 hcodec hmem hstored
      · refine Quiet.stored_other hquiet.1 hcodec ?_ hstored
        by_contra! hboth
        exact hsame (SourceConfig.eq_of_validateSourceDefinitions hvalid hconfig hsource
          hboth.2 hboth.1)


/-- In every sequence of runs of configured sources, none of which emits a
document under the id of a document of another project, each run leaves the
documents of other projects as they are; and if the sources emit the same
source ids each time, what a successful run has to store, which is all that the source emits
when it reconciles, is still there in the end, in its project. -/
theorem projects_isolated {sources : List SourceConfig}
    (hvalid : SourceConfig.validateSourceDefinitions sources = true) {runs : List SyncRun}
    (hruns : ∀ r ∈ runs, r.config ∈ sources ∧ r.env.codec = codec)
    (hquiet : Transition.Along next (Quiet codec) s runs) :
    (∀ before r after, runs = before ++ r :: after →
        ∀ row ∈ (before.foldl next s).documents.rows,
          row.project ≠ r.config.project →
            row ∈ (r.next (before.foldl next s)).documents.rows) ∧
      ∀ corpus : SourceConfig → List String, (∀ r ∈ runs, r.sourceIds = corpus r.config) →
        ∀ before r after, runs = before ++ r :: after → (r.outcome (before.foldl next s)).isOk →
          ∀ sourceId, sourceId ∈ r.taken ∨ r.reconcile = true ∧ sourceId ∈ corpus r.config →
            Stored codec r.config (corpus r.config) sourceId (runs.foldl next s) := by
  constructor
  · rintro before r after rfl row hrow hproject
    have hsplit := hquiet.of_append
    exact Quiet.mem_next hsplit.1 (hruns r (by simp)).2 hrow hproject
  · rintro corpus hcorpus before r after rfl hok sourceId hsourceId
    have hsplit := hquiet.of_append
    have hr : r ∈ before ++ r :: after := by simp
    have htaken : sourceId ∈ r.taken := by
      refine hsourceId.elim id fun hall ↦ ?_
      rw [taken_eq_sourceIds hall.1, hcorpus r hr]
      exact hall.2
    obtain ⟨hmem, hstored⟩ := Quiet.stored_of_isOk hsplit.1 (hruns r hr).2 hok htaken
    rw [hcorpus r hr] at hmem hstored
    rw [List.foldl_append, List.foldl_cons]
    refine stored_along hvalid hmem (hruns r hr).1 (fun r' hr' ↦ ?_) (fun r' hr' ↦ ?_) hsplit.2
      hstored
    · exact hruns r' (List.mem_append_right _ (List.mem_cons_of_mem r hr'))
    · exact hcorpus r' (List.mem_append_right _ (List.mem_cons_of_mem r hr'))

/-! ## Two projects with notes -/

instance (codec : Codec) (s : Store) (r : SyncRun) : Decidable (Quiet codec s r) :=
  inferInstanceAs (Decidable (∀ document ∈ r.documents,
    ∀ row ∈ s.documents.get (stableId codec document.source document.sourceId),
      row.source = r.config.canonicalSource ∧ row.sourceId = document.sourceId ∧
        row.project = r.config.project))

/-- A run of a connector that emits one message. -/
def messageRun (config : SourceConfig) : SyncRun where
  config := config
  env := { calm with
    parseDocument := fun text ↦ some ⟨"", text, "", "tea", none, "", "", [], .null⟩ }
  limits := calmLimits
  emission := .connector (.ok ⟨1, [.ok "m"]⟩)
  reconcile := true

/-- Messages of two projects under one identifier. -/
def workConfig : SourceConfig := ⟨"a", "slack", some "chat", "work", []⟩

def homeConfig : SourceConfig := ⟨"b", "slack", some "chat", "home", []⟩

def letterConfig : SourceConfig := ⟨"b", "slack", none, "home", []⟩

/-- Two projects have a source with the same identifier; the run of the second
takes the document of the first over. -/
theorem projects_isolated_shared :
    SourceConfig.validateSourceDefinitions [workConfig, homeConfig] = true ∧
      ∃ row ∈ (next (Store.adopted none) (messageRun workConfig)).documents.rows,
        row.project ≠ "home" ∧
          row ∉ (next (next (Store.adopted none) (messageRun workConfig))
            (messageRun homeConfig)).documents.rows := by
  refine ⟨by decide +kernel, ?_⟩
  have hfirst : (next (Store.adopted none)
      (messageRun workConfig)).documents.rows.map DocumentRow.project = ["work"] := by
    decide +kernel
  have hsecond : (next (next (Store.adopted none) (messageRun workConfig))
      (messageRun homeConfig)).documents.rows.map DocumentRow.project = ["home"] := by
    decide +kernel
  obtain ⟨row, hrow, hproject⟩ := List.mem_map.mp (hfirst ▸ List.mem_singleton_self "work" :
    "work" ∈ (next (Store.adopted none)
      (messageRun workConfig)).documents.rows.map DocumentRow.project)
  refine ⟨row, hrow, by simp [hproject], fun hkept ↦ ?_⟩
  have hhome := List.mem_map_of_mem (f := DocumentRow.project) hkept
  rw [hsecond, hproject] at hhome
  exact absurd hhome (by decide)

theorem projects_isolated_apart :
    ∃ row ∈ ([messageRun workConfig, messageRun letterConfig].foldl next
        (Store.adopted none)).documents.get (stableId .sample "chat" "m"),
      row.project = "work" := by
  have hquiet : Transition.Along next (Quiet .sample) (Store.adopted none)
      [messageRun workConfig, messageRun letterConfig] :=
    ⟨by decide +kernel, by decide +kernel, trivial⟩
  have hvalid : SourceConfig.validateSourceDefinitions [workConfig, letterConfig] = true := by
    decide +kernel
  have hok : ((messageRun workConfig).outcome (Store.adopted none)).isOk := by
    decide +kernel
  have hisolated := (projects_isolated hvalid (by simp [messageRun, calm]) hquiet).2
    (fun _ ↦ ["m"]) (by decide +kernel) [] _ _ rfl hok "m" (.inr ⟨rfl, by simp⟩)
  obtain ⟨row, hrow, -, -, hproject⟩ := hisolated
  exact ⟨row, hrow, hproject⟩

end SyncRun

end Cortana
