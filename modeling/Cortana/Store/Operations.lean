import Cortana.Core.Runs
import Cortana.Store.Effects
import Cortana.Store.Sample
import Cortana.Sync.Engine

/-!
# Runs of a store

The public operations that write documents, memories, their journal or the
embedding generation, with their arguments, and the runs they form.  What is
returned besides the store is dropped here.
-/

namespace Cortana

open Replication

namespace Store

/-- A call of a public operation. -/
inductive Operation where
  | upsert (document : Document) (chunks : List (String × Embedding)) (now : String)
  | upsertStructured (document : Document) (chunks : List (ChunkSpec × Embedding)) (now : String)
  | insertEvaluationCorpus (documents : List Document) (embedding : Embedding)
  | refreshTimestamp (document : Document)
  | reconcile (source project : String) (seenSourceIds : List String) (now : String → String)
  | backfillProjectAcls (mappings : List (String × List String))
  | beginEmbeddingRebuild (oldGeneration newGeneration : String)
  | stageEmbeddingRebuild (vectors : List StagedVector)
  | commitEmbeddingRebuild (oldGeneration newGeneration : String)
  | remember (call : MemoryCall) (input : MemoryInput) (axes : MemoryAxes)
  | forget (call : MemoryCall) (id : String)
  | promote (call : MemoryCall) (candidate : ObservationCandidate) (report : ConsolidationReport)
  | acknowledge (peer : String) (ack : ℤ)
  | compact
  | importEntries (peer : String) (entries : List SyncEntry) (upTo : ℤ) (now : String)
  | resolveConflict (conflictId : ℤ) (acceptRemote : Bool) (now changedAt : String)

/-- The store a call leaves behind. -/
def perform (codec : Codec) (s : Store) : Operation → Except String Store
  | .upsert document chunks now => (s.upsert codec document chunks now).map Prod.fst
  | .upsertStructured document chunks now =>
      (s.upsertStructured codec document chunks now).map Prod.fst
  | .insertEvaluationCorpus documents embedding =>
      s.insertEvaluationCorpus codec documents embedding
  | .refreshTimestamp document => .ok (s.refreshTimestamp codec document)
  | .reconcile source project seenSourceIds now =>
      (s.reconcile codec source project seenSourceIds now).map Prod.fst
  | .backfillProjectAcls mappings => (s.backfillProjectAcls codec mappings).map Prod.fst
  | .beginEmbeddingRebuild oldGeneration newGeneration =>
      (s.beginEmbeddingRebuild oldGeneration newGeneration).map Prod.fst
  | .stageEmbeddingRebuild vectors => s.stageEmbeddingRebuild vectors
  | .commitEmbeddingRebuild oldGeneration newGeneration =>
      (s.commitEmbeddingRebuild oldGeneration newGeneration).map Prod.fst
  | .remember call input axes => (s.rememberScopedWithAxes codec call input axes).map Prod.fst
  | .forget call id => (s.forgetMemoryScoped codec call id).map Prod.fst
  | .promote call candidate report => s.promoteCandidate codec call candidate report
  | .acknowledge peer ack => .ok (s.syncAcknowledgePeer peer ack)
  | .compact => .ok s.syncCompact
  | .importEntries peer entries upTo now =>
      (s.syncImportEntries peer entries upTo now).map Prod.fst
  | .resolveConflict conflictId acceptRemote now changedAt =>
      s.syncResolveConflict codec conflictId acceptRemote now changedAt

/-- A call that succeeds.  One that fails leaves the store as it was. -/
def Step (codec : Codec) (s : Store) (op : Operation) (t : Store) : Prop :=
  s.perform codec op = .ok t

/-- A run of successful calls that meet a condition. -/
abbrev Run (codec : Codec) (ok : Store → Operation → Prop) : Store → Store → Prop :=
  Transition.Run (Step codec) ok

/-- Calls one after the other, all of which succeed. -/
def performAll (codec : Codec) (s : Store) (ops : List Operation) : Except String Store :=
  ops.foldlM (perform codec) s

theorem run_of_performAll {codec : Codec} {ok : Store → Operation → Prop} {s t : Store}
    {ops : List Operation} (hok : ∀ op ∈ ops, ∀ s, ok s op)
    (h : s.performAll codec ops = .ok t) : Run codec ok s t := by
  refine List.foldlM_preserves (P := fun u ↦ Run codec ok s u) ?_ (Transition.Run.refl s) h
  intro op hop u u' hrun hstep
  exact hrun.snoc (hok op hop u) hstep

/-- A note to evaluate the operations with. -/
def note (sourceId content : String) : Document where
  source := "notes"
  sourceId := sourceId
  title := "Note"
  content := content
  uri := none
  updatedAt := "2026-01-01T00:00:00+00:00"
  project := "work"
  acl := ["work"]
  metadata := .object []

/-- A call by the owner. -/
def ownerCall (freshId : String) : MemoryCall where
  principalAcl := []
  owner := true
  freshId := freshId
  now := "2026-01-01T00:00:00Z"
  changedAt := "2026-01-01T00:00:00+00:00"

/-- A fact with a title, and what it supersedes or how long it holds. -/
def fact (title : String) (dedupeKey supersedesId validUntil : Option String) : MemoryInput where
  kind := "semantic"
  project := "work"
  title := title
  content := title
  source := "chat"
  sourceId := ""
  dedupeKey := dedupeKey
  confidence := 0x3FF0000000000000
  importance := 0x3FE0000000000000
  acl := []
  provenance := .null
  supersedesId := supersedesId
  validUntil := validUntil

def factAxes : MemoryAxes := ⟨.semantic, .durable, .workspace⟩

/-- What is computed from the store after some calls. -/
theorem exists_of_performAll {α : Type} (codec : Codec) (s : Store) (ops : List Operation)
    (f : Store → α) {a : α} (h : (s.performAll codec ops).toOption.map f = some a) :
    ∃ t, s.performAll codec ops = .ok t ∧ f t = a := by
  cases hrun : s.performAll codec ops with
  | error e => simp [hrun, Except.toOption] at h
  | ok t => exact ⟨t, rfl, by simpa [hrun, Except.toOption] using h⟩

/-- A call that meets a condition. -/
def performIf (codec : Codec) (ok : Store → Operation → Bool) (s : Store) (op : Operation) :
    Option Store :=
  if ok s op then (s.perform codec op).toOption else none

/-- A run of calls that meet a condition, and what is computed from its end. -/
theorem exists_of_performIf {α : Type} (codec : Codec) (ok : Store → Operation → Bool) (s : Store)
    (ops : List Operation) (f : Store → α) {a : α}
    (h : (ops.foldlM (performIf codec ok) s).map f = some a) :
    ∃ t, Run codec (fun s op ↦ ok s op) s t ∧ f t = a := by
  obtain ⟨t, ht, hf⟩ := Option.map_eq_some_iff.mp h
  refine ⟨t, ?_, hf⟩
  clear h hf
  induction ops generalizing s with
  | nil =>
      obtain rfl : s = t := by simpa using ht
      exact Transition.Run.refl s
  | cons op rest ih =>
      rw [List.foldlM_cons] at ht
      obtain ⟨u, hu, hrest⟩ := Option.bind_eq_some_iff.mp ht
      rw [performIf] at hu
      split_ifs at hu with hok
      cases hstep : s.perform codec op with
      | error e => simp [hstep, Except.toOption] at hu
      | ok v =>
          obtain rfl : v = u := by simpa [hstep, Except.toOption] using hu
          exact Relation.ReflTransGen.head ⟨op, hok, hstep⟩ (ih v hrest)

end Store

end Cortana
