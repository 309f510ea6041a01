import Cortana.Store.Operations
import Mathlib.Data.List.Sort

/-!
# Rebuilding the embeddings

A rebuild reads the chunks in pages, stages a vector for each and installs
them all at once, while other writers change the chunks between its
transactions.  The text that each staged vector was computed for is kept
beside the store; the store itself does not have it.
-/

namespace Cortana

namespace Store

/-- `embedding_rebuild_chunks`: a page of chunk texts in the order of their
ids. -/
def embeddingRebuildChunks (s : Store) (afterId : Option String) (limit : ℕ) :
    List (String × String) :=
  (((s.chunks.rows.filter fun c ↦ afterId.all fun id ↦ decide (id < c.id)).insertionSort
    fun c d ↦ c.id ≤ d.id).take (max limit 1)).map fun c ↦ (c.id, c.content)

end Store

/-- A vector with the chunk and the text it was computed for. -/
structure ComputedVector where
  chunkId : String
  text : String
  embedding : Embedding
deriving DecidableEq

/-- A store under rebuild: the texts the rebuild has read and the vectors it
has staged since it began. -/
structure Rebuild where
  store : Store
  read : List (String × String)
  computed : List ComputedVector

namespace Rebuild

/-- The transactions of the rebuild and of the other writers. -/
inductive Event where
  | begin (oldGeneration newGeneration : String)
  | page (afterId : Option String) (limit : ℕ)
  | stage (vectors : List ComputedVector)
  | commit (oldGeneration newGeneration : String)
  | write (op : Store.Operation)

/-- The writes of documents. -/
def DocumentWrite : Store.Operation → Prop
  | .upsert _ _ _ | .upsertStructured _ _ _ | .reconcile _ _ _ _ => True
  | _ => False

/-- One transaction that succeeds.  A vector is computed for a text that was
read of its chunk. -/
inductive Step (codec : Codec) : Rebuild → Event → Rebuild → Prop where
  | begin {r : Rebuild} {oldGeneration newGeneration : String} {store : Store} {n : ℕ}
      (h : r.store.beginEmbeddingRebuild oldGeneration newGeneration = .ok (store, n)) :
      Step codec r (.begin oldGeneration newGeneration) ⟨store, [], []⟩
  | page {r : Rebuild} {afterId : Option String} {limit : ℕ} :
      Step codec r (.page afterId limit)
        { r with read := r.read ++ r.store.embeddingRebuildChunks afterId limit }
  | stage {r : Rebuild} {vectors : List ComputedVector} {store : Store}
      (hread : ∀ v ∈ vectors, (v.chunkId, v.text) ∈ r.read)
      (h : r.store.stageEmbeddingRebuild (vectors.map fun v ↦ ⟨v.chunkId, v.embedding⟩) =
        .ok store) :
      Step codec r (.stage vectors) ⟨store, r.read, r.computed ++ vectors⟩
  | commit {r : Rebuild} {oldGeneration newGeneration : String} {store : Store} {n : ℕ}
      (h : r.store.commitEmbeddingRebuild oldGeneration newGeneration = .ok (store, n)) :
      Step codec r (.commit oldGeneration newGeneration) { r with store := store }
  | write {r : Rebuild} {op : Store.Operation} {store : Store} (hop : DocumentWrite op)
      (h : r.store.Step codec op store) : Step codec r (.write op) { r with store := store }

/-- Every chunk has a vector that was staged for it with its present text. -/
def Installed (r : Rebuild) : Prop :=
  ∀ c ∈ r.store.chunks.rows, ∃ v, c.embedding = some v ∧ ⟨c.id, c.content, v⟩ ∈ r.computed

/-- Every staged vector belongs to a chunk that still has a text the vector
was computed for. -/
def StagedCurrent (r : Rebuild) : Prop :=
  ∀ staged ∈ r.store.embeddingRebuild, ∀ row ∈ staged.rows,
    ∃ c ∈ r.store.chunks.rows, c.id = row.chunkId ∧
      ⟨c.id, c.content, row.embedding⟩ ∈ r.computed

/-- Every chunk that was read is still there with the text that was read. -/
def ReadKept (read : List (String × String)) (s : Store) : Prop :=
  ∀ p ∈ read, ∃ c ∈ s.chunks.rows, (c.id, c.content) = p

/-- Other writers leave the chunks alone that the rebuild has read. -/
def Undisturbed (codec : Codec) (r : Rebuild) : Event → Prop
  | .write op => ∀ store, r.store.Step codec op store → ReadKept r.read store
  | _ => True

variable {codec : Codec} {r r' : Rebuild}

/-- A rebuild that installs as many vectors as there are chunks installs
current ones exactly when every staged vector is current. -/
theorem installed_iff_of_commit {oldGeneration newGeneration : String}
    (hcommit : Step codec r (.commit oldGeneration newGeneration) r') :
    Installed r' ↔ StagedCurrent r := by
  cases hcommit with
  | commit h =>
      obtain ⟨staged, hstaged, hlength, rfl⟩ := Store.commitEmbeddingRebuild_eq_ok h
      refine Iff.trans (b := ∀ c ∈ r.store.chunks.rows, ∃ row, staged.get c.id = some row ∧
        ⟨c.id, c.content, row.embedding⟩ ∈ r.computed) ?_
        ⟨fun hinstalled ↦ ?_, fun hcurrent ↦ ?_⟩
      · simp [Installed, Table.modify]
      · intro staged' hmem row hrow
        obtain rfl : staged = staged' := Option.some.inj (hstaged.symm.trans hmem)
        have hkeys := Table.keys_of_length_eq hlength.symm fun c hc ↦ by
          obtain ⟨row, hget, -⟩ := hinstalled c hc
          exact ⟨row, Iff.mp Table.get_eq_some_iff hget⟩
        obtain ⟨c, hc, hid⟩ := hkeys row hrow
        obtain ⟨row', hget, hcomputed⟩ := hinstalled c hc
        obtain rfl : row = row' := Option.some.inj
          ((Iff.mpr Table.get_eq_some_iff ⟨hrow, hid.symm⟩).symm.trans hget)
        exact ⟨c, hc, hid, hcomputed⟩
      · intro c hc
        have hkeys := Table.keys_of_length_eq hlength fun row hrow ↦ by
          obtain ⟨c, hc, hid, -⟩ := hcurrent staged hstaged row hrow
          exact ⟨c, hc, hid⟩
        obtain ⟨row, hrow, hid⟩ := hkeys c hc
        obtain ⟨d, hd, hid', hcomputed⟩ := hcurrent staged hstaged row hrow
        obtain rfl : d = c := List.inj_on_of_nodup_map r.store.chunks.nodup hd hc (hid'.trans hid)
        exact ⟨row, Iff.mpr Table.get_eq_some_iff ⟨hrow, hid⟩, hcomputed⟩

/-! ## Runs that are left alone -/

theorem mem_embeddingRebuildChunks {s : Store} {afterId : Option String} {limit : ℕ}
    {p : String × String} (h : p ∈ s.embeddingRebuildChunks afterId limit) :
    ∃ c ∈ s.chunks.rows, (c.id, c.content) = p := by
  obtain ⟨c, hc, rfl⟩ := List.mem_map.mp h
  have hsorted := List.mem_of_mem_take hc
  rw [List.mem_insertionSort] at hsorted
  exact ⟨c, List.mem_of_mem_filter hsorted, rfl⟩

/-- Other writers do not touch what is staged. -/
theorem embeddingRebuild_of_write {s t : Store} {op : Store.Operation} (hop : DocumentWrite op)
    (h : s.Step codec op t) : t.embeddingRebuild = s.embeddingRebuild := by
  rw [Store.Step] at h
  cases op with
  | upsert document chunks now =>
      obtain ⟨⟨u, written⟩, hu, rfl⟩ := Iff.mp Except.map_ok_iff h
      rcases Store.upsert_eq_ok hu with ⟨-, rfl, -⟩ | ⟨-, -, hwrite⟩
      · rfl
      · obtain ⟨_, _, _, _, -, rfl⟩ := Store.writeDocument_eq_ok hwrite
        rfl
  | upsertStructured document chunks now =>
      obtain ⟨⟨u, written⟩, hu, rfl⟩ := Iff.mp Except.map_ok_iff h
      rcases Store.upsertStructured_eq_ok hu with ⟨-, rfl, -⟩ | ⟨-, -, hwrite⟩
      · rfl
      · obtain ⟨_, _, _, _, -, rfl⟩ := Store.writeDocument_eq_ok hwrite
        rfl
  | reconcile source project seenSourceIds now =>
      obtain ⟨⟨u, n⟩, hu, rfl⟩ := Iff.mp Except.map_ok_iff h
      obtain ⟨v, hv, rfl⟩ := Store.reconcile_eq_ok hu
      have hloop : v.embeddingRebuild = s.embeddingRebuild := by
        refine List.foldlM_preserves (P := fun u : Store ↦
          u.embeddingRebuild = s.embeddingRebuild) ?_ rfl hv
        intro id _ u u' hu hremove
        obtain ⟨_, rfl⟩ := Store.removeStale_eq_ok hremove
        exact hu
      split
      · exact hloop
      · exact hloop
  | _ => exact hop.elim

/-- What was read is still there, and every staged vector was computed for a
text that was read. -/
structure Following (r : Rebuild) : Prop where
  kept : ReadKept r.read r.store
  staged : ∀ staged ∈ r.store.embeddingRebuild, ∀ row ∈ staged.rows, ∃ v ∈ r.computed,
    v.chunkId = row.chunkId ∧ v.embedding = row.embedding ∧ (v.chunkId, v.text) ∈ r.read

theorem Following.stagedCurrent (h : r.Following) : r.StagedCurrent := by
  intro staged hstaged row hrow
  obtain ⟨v, hv, hid, hembedding, hread⟩ := h.staged staged hstaged row hrow
  obtain ⟨c, hc, heq⟩ := h.kept _ hread
  obtain ⟨hcid, htext⟩ := Prod.mk.inj heq
  exact ⟨c, hc, hcid.trans hid, by rwa [hcid, htext, ← hembedding]⟩

theorem Following.step (h : r.Following) {event : Event} (hok : Undisturbed codec r event)
    (hstep : Step codec r event r') : r'.Following := by
  cases hstep with
  | begin hbegin =>
      obtain rfl := Store.beginEmbeddingRebuild_eq_ok hbegin
      refine ⟨by simp [ReadKept], ?_⟩
      rintro _ ⟨⟩ row hrow
      simp [Table.empty] at hrow
  | page =>
      refine ⟨?_, ?_⟩
      · intro p hp
        rcases List.mem_append.mp hp with hold | hnew
        · exact h.kept p hold
        · exact mem_embeddingRebuildChunks hnew
      · intro staged hstaged row hrow
        obtain ⟨v, hv, hid, hembedding, hread⟩ := h.staged staged hstaged row hrow
        exact ⟨v, hv, hid, hembedding, List.mem_append_left _ hread⟩
  | stage hread hstage =>
      obtain ⟨rebuild, rfl, hrows⟩ := Store.stageEmbeddingRebuild_eq_ok hstage
      refine ⟨h.kept, ?_⟩
      intro staged hstaged row hrow
      rcases hrows staged hstaged row hrow with hnew | ⟨old, hold, hrow⟩
      · obtain ⟨v, hv, rfl⟩ := List.mem_map.mp hnew
        exact ⟨v, List.mem_append_right _ hv, rfl, rfl, hread v hv⟩
      · obtain ⟨v, hv, hid, hembedding, hread⟩ := h.staged old hold row hrow
        exact ⟨v, List.mem_append_left _ hv, hid, hembedding, hread⟩
  | commit hcommit =>
      obtain ⟨staged, -, -, rfl⟩ := Store.commitEmbeddingRebuild_eq_ok hcommit
      refine ⟨?_, by simp⟩
      intro p hp
      obtain ⟨c, hc, rfl⟩ := h.kept p hp
      exact ⟨_, List.mem_map.mpr ⟨c, hc, rfl⟩, rfl⟩
  | write hop hwrite =>
      refine ⟨hok _ hwrite, ?_⟩
      rw [embeddingRebuild_of_write hop hwrite]
      exact h.staged

/-- A rebuild right after it began. -/
def begun (s : Store) : Rebuild := ⟨s, [], []⟩

/-- In every interleaving, a rebuild that commits installs vectors computed for
the present texts exactly when every staged vector is current; it does so
whenever the other writers left alone what the rebuild had read. -/
theorem commit_installs {s t : Store} {n : ℕ} {oldGeneration newGeneration : String}
    (hbegin : s.beginEmbeddingRebuild oldGeneration newGeneration = .ok (t, n)) :
    (∀ r r', Transition.Run (Step codec) (fun _ _ ↦ True) (begun t) r →
      Step codec r (.commit oldGeneration newGeneration) r' →
        (Installed r' ↔ StagedCurrent r)) ∧
    (∀ r r', Transition.Run (Step codec) (Undisturbed codec) (begun t) r →
      Step codec r (.commit oldGeneration newGeneration) r' → Installed r') := by
  obtain rfl := Store.beginEmbeddingRebuild_eq_ok hbegin
  refine ⟨fun r r' _ hcommit ↦ installed_iff_of_commit hcommit, fun r r' hrun hcommit ↦ ?_⟩
  have hfollowing : r.Following := by
    refine hrun.preserves (fun r event r' hr hok hstep ↦ hr.step hok hstep) ⟨?_, ?_⟩
    · simp [begun, ReadKept]
    · rintro _ ⟨⟩ row hrow
      simp [Table.empty] at hrow
  exact (installed_iff_of_commit hcommit).mpr hfollowing.stagedCurrent

/-! ## Evaluation -/

instance : DecidablePred DocumentWrite := fun op ↦
  match op with
  | .upsert _ _ _ | .upsertStructured _ _ _ | .reconcile _ _ _ _ => isTrue trivial
  | .insertEvaluationCorpus _ _ | .refreshTimestamp _ | .backfillProjectAcls _
  | .beginEmbeddingRebuild _ _ | .stageEmbeddingRebuild _ | .commitEmbeddingRebuild _ _
  | .remember _ _ _ | .forget _ _ | .promote _ _ _ | .acknowledge _ _ | .compact
  | .importEntries _ _ _ _ | .resolveConflict _ _ _ _ => isFalse id

/-- Chunks are compared with their texts as they are. -/
local instance lawfulBEqChunkText : LawfulBEq (String × String) := inferInstance

/-- The transaction of an event, if it succeeds. -/
def next (codec : Codec) (r : Rebuild) : Event → Option Rebuild
  | .begin oldGeneration newGeneration =>
      (r.store.beginEmbeddingRebuild oldGeneration newGeneration).toOption.map fun t ↦
        ⟨t.1, [], []⟩
  | .page afterId limit =>
      some { r with read := r.read ++ r.store.embeddingRebuildChunks afterId limit }
  | .stage vectors =>
      if ∀ v ∈ vectors, (v.chunkId, v.text) ∈ r.read then
        (r.store.stageEmbeddingRebuild (vectors.map fun v ↦
          ⟨v.chunkId, v.embedding⟩)).toOption.map fun t ↦ ⟨t, r.read, r.computed ++ vectors⟩
      else none
  | .commit oldGeneration newGeneration =>
      (r.store.commitEmbeddingRebuild oldGeneration newGeneration).toOption.map fun t ↦
        { r with store := t.1 }
  | .write op =>
      if DocumentWrite op then (r.store.perform codec op).toOption.map fun t ↦ { r with store := t }
      else none

theorem step_of_next (event : Event) (h : next codec r event = some r') :
    Step codec r event r' := by
  have hok : ∀ {α : Type} {x : Except String α} {f : α → Rebuild},
      x.toOption.map f = some r' → ∃ a, x = .ok a ∧ r' = f a := by
    intro α x f hx
    cases x with
    | error e => simp [Except.toOption] at hx
    | ok a => exact ⟨a, rfl, by simpa [Except.toOption, eq_comm] using hx⟩
  cases event with
  | begin oldGeneration newGeneration =>
      obtain ⟨⟨t, n⟩, ht, rfl⟩ := hok h
      exact .begin ht
  | page afterId limit =>
      obtain rfl := Option.some.inj h
      exact .page
  | stage vectors =>
      rw [next] at h
      split_ifs at h with hread
      obtain ⟨t, ht, rfl⟩ := hok h
      exact .stage hread ht
  | commit oldGeneration newGeneration =>
      obtain ⟨⟨t, n⟩, ht, rfl⟩ := hok h
      exact .commit ht
  | write op =>
      rw [next] at h
      split_ifs at h with hop
      obtain ⟨t, ht, rfl⟩ := hok h
      exact .write hop ht

def draftId : String := stableId .sample "notes" "draft.md"

/-- A store that holds the first draft. -/
def firstDraft : Store :=
  ((Store.perform .sample { Store.adopted none with embeddingFingerprint := some "old:model:2" }
    (.upsert (Store.note "draft.md" "first") [("first", [1, 2])] "2026-01-01T00:00:00+00:00")).toOption).getD
      (Store.adopted none)

/-- The store after the rebuild of the first draft has begun. -/
def openDraft : Store := { firstDraft with embeddingRebuild := some (Table.empty _) }

theorem begin_firstDraft :
    firstDraft.beginEmbeddingRebuild "old:model:2" "new:model:2" = .ok (openDraft, 1) := by
  have hcount : ((firstDraft.beginEmbeddingRebuild "old:model:2" "new:model:2").toOption.map
      Prod.snd) = some 1 := by decide +kernel
  cases h : firstDraft.beginEmbeddingRebuild "old:model:2" "new:model:2" with
  | error e => simp [h, Except.toOption] at hcount
  | ok result =>
      obtain ⟨t, n⟩ := result
      obtain rfl : n = 1 := by simpa [h, Except.toOption] using hcount
      rw [Store.beginEmbeddingRebuild_eq_ok h]
      rfl

/-- A rebuild that nobody disturbs installs the vector of the draft. -/
theorem commit_installs_firstDraft :
    ∃ r r', Step .sample r (.commit "old:model:2" "new:model:2") r' ∧
      r'.store.chunks.rows.length = 1 ∧ Installed r' := by
  obtain ⟨r, hrun, hcommit⟩ := Option.map_eq_some_iff.mp (show
    (List.foldlM (next .sample) (begun openDraft)
      [.page none 10, .stage [⟨draftId ++ ":0", "first", [3, 4]⟩]]).map (fun r ↦
        (next .sample r (.commit "old:model:2" "new:model:2")).map fun r' ↦
          r'.store.chunks.rows.length) = some (some 1) by decide +kernel)
  obtain ⟨r', hr', hlength⟩ := Option.map_eq_some_iff.mp hcommit
  have hstep := step_of_next _ hr'
  refine ⟨r, r', hstep, hlength, (commit_installs begin_firstDraft).2 r r' ?_ hstep⟩
  exact Transition.Run.of_foldlM (fun _ event _ ↦ step_of_next event)
    (by simp [Undisturbed]) hrun

/-- The draft is changed after its text was read: the vector of the old text is
installed for the new one. -/
theorem commit_installs_stale :
    ¬ ∀ (codec : Codec) (s t : Store) (n : ℕ) (oldGeneration newGeneration : String),
      s.beginEmbeddingRebuild oldGeneration newGeneration = .ok (t, n) →
      ∀ r r', Transition.Run (Step codec) (fun _ _ ↦ True) (begun t) r →
        Step codec r (.commit oldGeneration newGeneration) r' → Installed r' := by
  intro h
  obtain ⟨r, hrun, hcommit⟩ := Option.map_eq_some_iff.mp (show
    (List.foldlM (next .sample) (begun openDraft)
      [.page none 10,
        .write (.upsert (Store.note "draft.md" "second") [("second", [5, 6])] "2026-01-02T00:00:00+00:00"),
        .stage [⟨draftId ++ ":0", "first", [3, 4]⟩]]).map (fun r ↦
          (next .sample r (.commit "old:model:2" "new:model:2")).map fun r' ↦
            (r'.store.chunks.rows.map ChunkRow.content,
              r'.computed.map ComputedVector.text)) =
      some (some (["second"], ["first"])) by decide +kernel)
  obtain ⟨r', hr', hresult⟩ := Option.map_eq_some_iff.mp hcommit
  have hrun' : Transition.Run (Step .sample) (fun _ _ ↦ True) (begun openDraft) r :=
    Transition.Run.of_foldlM (fun _ event _ ↦ step_of_next event) (fun _ _ _ ↦ trivial) hrun
  have hinstalled := h .sample firstDraft openDraft 1 _ _ begin_firstDraft r r' hrun'
    (step_of_next _ hr')
  obtain ⟨hchunks, htexts⟩ := Prod.mk.inj hresult
  obtain ⟨c, hc, hcontent⟩ := List.mem_map.mp (hchunks ▸ List.mem_cons_self)
  obtain ⟨v, -, hv⟩ := hinstalled c hc
  have htext := List.mem_map_of_mem (f := ComputedVector.text) hv
  rw [htexts] at htext
  have hfirst : c.content = "first" := by simpa using htext
  exact absurd (hfirst.symm.trans hcontent) (by decide)

end Rebuild

end Cortana
