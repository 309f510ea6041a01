import Cortana.Replication.Delivery
import Cortana.Sync.Journaling
import Cortana.Sync.Relay

/-!
# Acknowledged means delivered

Two paired stores send each other bundles through files and through a relay
that loses, repeats and evicts them.  A bundle carries how far its sender has
imported the other journal.  Whatever a store takes as acknowledged by the
other one was in a bundle that the other one has imported.
-/

namespace Cortana

open Replication

namespace Store

variable {codec : Codec} {s t : Store}

/-! ## The journal under the operations -/

/-- The journal goes on, loses what every known peer has at most, and nothing
else is known of the peers. -/
structure Continues (s t : Store) : Prop where
  journal : s.journal.Prolongs t.journal
  kept : ∀ r ∈ s.journal.rows, s.watermarks.minAcked < r.journalId → r ∈ t.journal.rows
  watermarks : t.watermarks = s.watermarks

theorem Continues.refl (s : Store) : Continues s s := ⟨.refl _, fun _ hr _ ↦ hr, rfl⟩

theorem Continues.trans {u : Store} (h : Continues s t) (h' : Continues t u) : Continues s u := by
  refine ⟨h.journal.trans h'.journal, fun r hr hlater ↦ ?_, h'.watermarks.trans h.watermarks⟩
  apply h'.kept r (h.kept r hr hlater)
  rwa [h.watermarks]

/-- Journal and watermarks are as they were. -/
theorem Continues.same (hjournal : t.journal = s.journal) (hwatermarks : t.watermarks = s.watermarks) :
    Continues s t := by
  refine ⟨?_, fun r hr _ ↦ ?_, hwatermarks⟩
  · rw [hjournal]
    exact .refl _
  · rwa [hjournal]

/-- A change was added to the journal. -/
theorem Continues.append {key : ObjectKey} {origin fingerprint : String} {tombstone : Bool}
    {now : String}
    (hjournal : t.journal = s.journal.append key origin fingerprint tombstone now)
    (hwatermarks : t.watermarks = s.watermarks) : Continues s t := by
  refine ⟨?_, fun r hr _ ↦ ?_, hwatermarks⟩
  · rw [hjournal]
    exact Journal.prolongs_append ..
  · rw [hjournal, Journal.rows_append]
    exact List.mem_append_left _ hr

/-- A change was journaled, if the device has an identity and it is one. -/
theorem Continues.record {self : Option String} {key : ObjectKey} {state : String × Bool}
    {now : String} (hjournal : t.journal = s.journal.record self key state now)
    (hwatermarks : t.watermarks = s.watermarks) : Continues s t := by
  cases self with
  | none => exact .same hjournal hwatermarks
  | some device =>
      rw [Journal.record] at hjournal
      split at hjournal
      · exact .same hjournal hwatermarks
      · exact .append hjournal hwatermarks

theorem continues_compact (s : Store) : Continues s s.syncCompact := by
  refine ⟨Journal.prolongs_compact .., fun r hr hlater ↦ ?_, rfl⟩
  exact Iff.mpr Journal.mem_compact ⟨hr, .inl hlater⟩

/-- The calls that exchange nothing with a peer. -/
def Local : Operation → Prop
  | .acknowledge _ _ | .importEntries _ _ _ _ => False
  | _ => True

instance (op : Operation) : Decidable (Local op) := by
  unfold Local
  cases op <;> infer_instance

theorem continues_writeDocument {document : Document} {chunks : List ChunkRow} {now : String}
    (h : s.writeDocument codec document chunks now = .ok t) : Continues s t := by
  obtain ⟨used, chunks, chunksFts, codeIndexes, -, rfl⟩ := writeDocument_eq_ok h
  exact .record rfl rfl

theorem continues_rememberInTransaction {call : MemoryCall} {input : MemoryInput}
    {axes : MemoryAxes} {id : String}
    (h : s.rememberInTransaction codec call input axes = .ok (t, id)) : Continues s t := by
  obtain ⟨valid, existingAcl, hremembered⟩ := rememberInTransaction_cases h
  rcases hremembered.written with ⟨-, rfl⟩ | ⟨-, -, -, hwrite⟩
  · exact .refl _
  · obtain ⟨memoriesFts, rfl⟩ := writeMemory_eq_ok hwrite
    refine .record rfl ?_
    rw [superseded]
    split <;> rfl

theorem continues_applyIncoming {entry : SyncEntry} (h : s.applyIncoming entry = .ok t) :
    Continues s t := by
  rw [applyIncoming] at h
  split at h
  · obtain rfl := Except.ok.inj h
    exact .append rfl rfl
  · obtain ⟨payload, -, h⟩ := Iff.mp Except.bind_ok_iff h
    obtain ⟨u, hu, h⟩ := Iff.mp Except.bind_ok_iff h
    obtain rfl := Iff.mp Except.pure_ok_iff h
    obtain ⟨-, hjournal, hwatermarks, -⟩ := applyPayload_frame hu
    exact Continues.trans (.same hjournal hwatermarks) (.append rfl rfl)

theorem continues_importEntry {now : String} {report report' : ApplyReport} {entry : SyncEntry}
    (h : importEntry now (s, report) entry = .ok (t, report')) : Continues s t := by
  obtain ⟨conflicts, sequence, -, -, happlied⟩ := importEntry_eq_ok h
  split at happlied
  · have happly := continues_applyIncoming happlied
    exact ⟨happly.journal, happly.kept, happly.watermarks⟩
  · rw [happlied]
    exact .same rfl rfl

/-- An import from a peer marks how far it has come. -/
theorem syncImportEntries_spec {peer : String} {entries : List SyncEntry} {upTo : ℤ}
    {now : String} {report : ApplyReport}
    (h : s.syncImportEntries peer entries upTo now = .ok (t, report)) :
    ∃ u, Continues s u ∧ t.watermarks = s.watermarks.markImported peer upTo ∧
      t.journal = u.journal.compact t.watermarks.minAcked := by
  obtain ⟨u, hu, rfl⟩ := syncImportEntries_eq_ok h
  have hloop : Continues s u := by
    refine List.foldlM_relates (R := fun p q : Store × ApplyReport ↦ Continues p.1 q.1)
      (fun p ↦ .refl p.1) (fun _ _ _ ↦ .trans) ?_ hu
    rintro entry - ⟨u, report⟩ ⟨v, report'⟩ hentry
    exact continues_importEntry hentry
  refine ⟨u, hloop, ?_, rfl⟩
  change u.watermarks.markImported peer upTo = _
  rw [hloop.watermarks]

/-- A call that exchanges nothing with a peer only takes the journal on. -/
theorem continues_perform {op : Operation} (hlocal : Local op)
    (h : s.perform codec op = .ok t) : Continues s t := by
  cases op with
  | upsert document chunks now =>
      obtain ⟨⟨u, written⟩, hu, rfl⟩ := Iff.mp Except.map_ok_iff h
      rcases upsert_eq_ok hu with ⟨-, rfl, -⟩ | ⟨-, -, hwrite⟩
      · exact .refl _
      · exact continues_writeDocument hwrite
  | upsertStructured document chunks now =>
      obtain ⟨⟨u, written⟩, hu, rfl⟩ := Iff.mp Except.map_ok_iff h
      rcases upsertStructured_eq_ok hu with ⟨-, rfl, -⟩ | ⟨-, -, hwrite⟩
      · exact .refl _
      · exact continues_writeDocument hwrite
  | insertEvaluationCorpus documents embedding =>
      change s.insertEvaluationCorpus codec documents embedding = .ok t at h
      rw [insertEvaluationCorpus] at h
      split at h
      · cases h
      · refine List.foldlM_relates (R := Continues) .refl (fun _ _ _ ↦ .trans) ?_ h
        intro document _ u v hinsert
        obtain ⟨chunks, chunksFts, codeIndexes, -, rfl⟩ := insertEvaluationDocument_eq_ok hinsert
        exact .same rfl rfl
  | refreshTimestamp document =>
      obtain rfl := Except.ok.inj h
      rcases refreshTimestamp_cases codec s document with hsame | ⟨row, -, -, hsame⟩
      · rw [hsame]
        exact .refl s
      · rw [hsame]
        exact .same rfl rfl
  | reconcile source project seenSourceIds now =>
      obtain ⟨⟨u, n⟩, hu, rfl⟩ := Iff.mp Except.map_ok_iff h
      obtain ⟨v, hv, rfl⟩ := reconcile_eq_ok hu
      have hloop : Continues s v := by
        refine List.foldlM_relates (R := Continues) .refl (fun _ _ _ ↦ .trans) ?_ hv
        intro id _ u u' hremove
        obtain ⟨used, rfl⟩ := removeStale_eq_ok hremove
        exact .record rfl rfl
      split
      · exact hloop
      · exact hloop.trans (.same rfl rfl)
  | backfillProjectAcls mappings =>
      obtain ⟨⟨u, n⟩, hu, rfl⟩ := Iff.mp Except.map_ok_iff h
      obtain ⟨v, hv, rfl⟩ := backfillProjectAcls_eq_ok hu
      have hloop : Continues s v := by
        refine List.foldlM_relates
          (R := fun p q : Store × ℕ ↦ Continues p.1 q.1) (fun p ↦ .refl p.1)
          (fun _ _ _ ↦ .trans) ?_ hv
        rintro mapping - ⟨u, m⟩ ⟨u', m'⟩ hround
        obtain ⟨aclJson, rfl, -⟩ := backfillProjectAcl_eq_ok hround
        exact .same rfl rfl
      split
      · exact hloop.trans (.same rfl rfl)
      · exact hloop
  | beginEmbeddingRebuild oldGeneration newGeneration =>
      obtain ⟨⟨u, n⟩, hu, rfl⟩ := Iff.mp Except.map_ok_iff h
      obtain rfl := beginEmbeddingRebuild_eq_ok hu
      exact .same rfl rfl
  | stageEmbeddingRebuild vectors =>
      obtain ⟨rebuild, rfl, -⟩ := stageEmbeddingRebuild_eq_ok h
      exact .same rfl rfl
  | commitEmbeddingRebuild oldGeneration newGeneration =>
      obtain ⟨⟨u, n⟩, hu, rfl⟩ := Iff.mp Except.map_ok_iff h
      obtain ⟨staged, -, -, rfl⟩ := commitEmbeddingRebuild_eq_ok hu
      exact .same rfl rfl
  | remember call input axes =>
      obtain ⟨⟨u, id⟩, hu, rfl⟩ := Iff.mp Except.map_ok_iff h
      exact continues_rememberInTransaction (rememberScopedWithAxes_eq_ok hu)
  | forget call id =>
      obtain ⟨⟨u, found⟩, hu, rfl⟩ := Iff.mp Except.map_ok_iff h
      rcases forgetMemoryScoped_eq_ok hu with ⟨-, rfl, -⟩ | ⟨memory, -, -, rfl⟩
      · exact .refl _
      · exact .record rfl rfl
  | promote call candidate report =>
      rcases promoteCandidate_eq_ok h with rfl | ⟨axes, id, -, hremember⟩
      · exact .refl _
      · exact continues_rememberInTransaction hremember
  | acknowledge peer ack => exact hlocal.elim
  | compact =>
      obtain rfl := Except.ok.inj h
      exact continues_compact s
  | importEntries peer entries upTo now => exact hlocal.elim
  | resolveConflict conflictId acceptRemote now changedAt =>
      obtain ⟨u, conflicts, -, rfl, hu⟩ := syncResolveConflict_eq_ok h
      suffices hbefore : Continues s u from hbefore.trans (.same rfl rfl)
      rcases hu with ⟨-, rfl⟩ | ⟨conflict, -, v, -, hv, rfl⟩
      · exact .refl _
      · obtain ⟨-, hjournal, hwatermarks, -⟩ := applyPayload_frame hv
        refine Continues.trans (.same hjournal hwatermarks) (.record rfl rfl)

/-- A bundle has the first changes that the peer has not acknowledged. -/
theorem syncExportEntries_spec {peer : String} {limit : ℕ} {entries : List SyncEntry} {upTo : ℤ}
    (h : s.syncExportEntries peer limit = .ok (entries, upTo)) :
    entries.map (fun e ↦ e.toChange) =
        (s.journal.after (s.watermarks.acked peer)).take limit ∧
      upTo = s.journal.reached (s.watermarks.acked peer) limit := by
  rw [syncExportEntries] at h
  obtain ⟨entries', hentries, h⟩ := Iff.mp Except.bind_ok_iff h
  obtain ⟨rfl, rfl⟩ := Prod.mk.inj (Iff.mp Except.pure_ok_iff h)
  have hmap := List.map_of_mapM_ok (r := fun e : SyncEntry ↦ e.toChange)
    (fun _ _ he ↦ (exportEntry_eq_ok he).1) hentries
  refine ⟨hmap, ?_⟩
  rw [Journal.reached, ← hmap, List.getLast?_map, Option.map_map]
  rfl

end Store

/-! ## The devices and what is between them -/

/-- The entries that `sync_export_entries` gives for a peer, before the bundle is
sealed.  `since` and `journal` are what the export has seen, and are kept for
the proofs only. -/
structure Draft where
  sender : String
  target : String
  entries : List SyncEntry
  upTo : ℤ
  since : ℤ
  journal : Journal ObjectKey String String String

/-- A sealed bundle: the payload, and `ack_for_peer` of the header. -/
structure Bundle where
  draft : Draft
  ackForPeer : ℤ

/-- The stores of the devices, the bundles outside the relay (files, and what a
push or a pull holds), the relay, and the imports that were committed.  A bundle
that is lost is one that is never imported. -/
structure Fleet where
  stores : String → Store
  drafts : List Draft
  held : List Bundle
  relay : Relay Bundle
  imported : List (String × Bundle)

/-- What a command of a device does between two points where it can be
interrupted, and the requests to the relay. -/
inductive Exchange where
  | edit (device : String) (op : Store.Operation)
  | exportFor (device target : String) (limit : ℕ)
  | sealSyncBundle (draft : ℕ)
  | push (bundle bytes : ℕ) (expired : String → Bool) (now : String)
  | listBundles (recipient : String) (expired : String → Bool)
  | fetchBundle (recipient : String) (id : ℤ)
  | deleteBundle (recipient : String) (id : ℤ)
  | importBundle (device : String) (bundle : ℕ) (now : String)
  | acknowledge (imported : ℕ)

/-- The item that a command goes on with. -/
def itemAt {α : Type} (items : List α) (i : ℕ) : Except String α :=
  match items[i]? with
  | some item => .ok item
  | none => .error "no such item"

theorem mem_of_itemAt {α : Type} {items : List α} {i : ℕ} {item : α}
    (h : itemAt items i = .ok item) : item ∈ items := by
  rw [itemAt] at h
  split at h
  next found hfound =>
      obtain rfl := Except.ok.inj h
      exact List.mem_of_getElem? hfound
  next => cases h

namespace Fleet

/-- Devices that have adopted their identity and hold nothing yet. -/
def start : Fleet where
  stores := fun device ↦ Store.adopted (some device)
  drafts := []
  held := []
  relay := .empty
  imported := []

/-- The store of one device is replaced. -/
def set (f : Fleet) (device : String) (s : Store) : Fleet :=
  { f with stores := Function.update f.stores device s }

/-- One step, if it succeeds.  One that fails changes nothing. -/
def next (codec : Codec) (f : Fleet) : Exchange → Except String Fleet
  | .edit device op => do
      Except.require (Store.Local op) "not an edit"
      let s ← (f.stores device).perform codec op
      return f.set device s
  | .exportFor device target limit => do
      let s := f.stores device
      let (entries, upTo) ← s.syncExportEntries target limit
      return { f with drafts := f.drafts ++
        [⟨device, target, entries, upTo, s.watermarks.acked target, s.journal⟩] }
  | .sealSyncBundle i => do
      let draft ← itemAt f.drafts i
      let ack := (f.stores draft.sender).syncImportedWatermark draft.target
      return { f with held := f.held ++ [⟨draft, ack⟩] }
  | .push i bytes expired now => do
      let bundle ← itemAt f.held i
      let relay ← f.relay.uploadBundle bundle.draft.target bytes bundle expired now
      return { f with relay := relay }
  | .listBundles recipient expired =>
      .ok { f with relay := (f.relay.listBundles recipient expired).1 }
  | .fetchBundle recipient id => do
      let bundle ← f.relay.fetchBundle recipient id
      return { f with held := f.held ++ [bundle] }
  | .deleteBundle recipient id => do
      let relay ← f.relay.deleteBundle recipient id
      return { f with relay := relay }
  | .importBundle device i now => do
      let bundle ← itemAt f.held i
      Except.require (bundle.draft.target = device)
        "sync bundle is addressed to a different device"
      let (s, _) ← (f.stores device).syncImportEntries bundle.draft.sender bundle.draft.entries
        bundle.draft.upTo now
      return { f.set device s with imported := f.imported ++ [(device, bundle)] }
  | .acknowledge i => do
      -- The import is committed: a crash may come before this.
      let (device, bundle) ← itemAt f.imported i
      return f.set device
        ((f.stores device).syncAcknowledgePeer bundle.draft.sender bundle.ackForPeer)

def Step (codec : Codec) (f : Fleet) (event : Exchange) (g : Fleet) : Prop :=
  f.next codec event = .ok g

/-- Every sealed bundle that there is a copy of. -/
def Holds (f : Fleet) (bundle : Bundle) : Prop :=
  bundle ∈ f.held ∨ (∃ p ∈ f.relay.rows, p.ciphertext = bundle) ∨
    ∃ p ∈ f.imported, p.2 = bundle

variable {codec : Codec} {f g : Fleet} {event : Exchange}

/-- What a step does to the stores and to the record of the imports. -/
inductive Moves (codec : Codec) (f g : Fleet) : Prop where
  | onward (himported : g.imported = f.imported)
      (hstores : ∀ device, Store.Continues (f.stores device) (g.stores device))
  | received (bundle : Bundle) (now : String) (report : ApplyReport) (s : Store)
      (hholds : f.Holds bundle)
      (himport : (f.stores bundle.draft.target).syncImportEntries bundle.draft.sender
        bundle.draft.entries bundle.draft.upTo now = .ok (s, report))
      (hstores : g.stores = Function.update f.stores bundle.draft.target s)
      (himported : g.imported = f.imported ++ [(bundle.draft.target, bundle)])
  | acknowledged (device : String) (bundle : Bundle) (hmem : (device, bundle) ∈ f.imported)
      (hstores : g.stores = Function.update f.stores device
        ((f.stores device).syncAcknowledgePeer bundle.draft.sender bundle.ackForPeer))
      (himported : g.imported = f.imported)

theorem moves_of_next (h : f.next codec event = .ok g) : Moves codec f g := by
  cases event with
  | edit device op =>
      obtain ⟨_, hlocal, h⟩ := Iff.mp Except.bind_ok_iff h
      obtain ⟨s, hs, h⟩ := Iff.mp Except.bind_ok_iff h
      obtain rfl := Iff.mp Except.pure_ok_iff h
      refine .onward rfl fun device' ↦ ?_
      by_cases hdevice : device' = device
      · subst hdevice
        have hset : (f.set device' s).stores device' = s := Function.update_self ..
        rw [hset]
        exact Store.continues_perform (Iff.mp Except.require_ok_iff hlocal) hs
      · have hset : (f.set device s).stores device' = f.stores device' :=
          Function.update_of_ne hdevice ..
        rw [hset]
        exact .refl _
  | exportFor device target limit =>
      obtain ⟨⟨entries, upTo⟩, -, h⟩ := Iff.mp Except.bind_ok_iff h
      obtain rfl := Iff.mp Except.pure_ok_iff h
      exact .onward rfl fun device ↦ .refl _
  | sealSyncBundle i =>
      obtain ⟨draft, -, h⟩ := Iff.mp Except.bind_ok_iff h
      obtain rfl := Iff.mp Except.pure_ok_iff h
      exact .onward rfl fun device ↦ .refl _
  | push i bytes expired now =>
      obtain ⟨bundle, -, h⟩ := Iff.mp Except.bind_ok_iff h
      obtain ⟨relay, -, h⟩ := Iff.mp Except.bind_ok_iff h
      obtain rfl := Iff.mp Except.pure_ok_iff h
      exact .onward rfl fun device ↦ .refl _
  | listBundles recipient expired =>
      obtain rfl := Except.ok.inj h
      exact .onward rfl fun device ↦ .refl _
  | fetchBundle recipient id =>
      obtain ⟨bundle, -, h⟩ := Iff.mp Except.bind_ok_iff h
      obtain rfl := Iff.mp Except.pure_ok_iff h
      exact .onward rfl fun device ↦ .refl _
  | deleteBundle recipient id =>
      obtain ⟨relay, -, h⟩ := Iff.mp Except.bind_ok_iff h
      obtain rfl := Iff.mp Except.pure_ok_iff h
      exact .onward rfl fun device ↦ .refl _
  | importBundle device i now =>
      obtain ⟨bundle, hbundle, h⟩ := Iff.mp Except.bind_ok_iff h
      obtain ⟨_, htarget, h⟩ := Iff.mp Except.bind_ok_iff h
      obtain rfl := Iff.mp Except.require_ok_iff htarget
      obtain ⟨⟨s, report⟩, himport, h⟩ := Iff.mp Except.bind_ok_iff h
      obtain rfl := Iff.mp Except.pure_ok_iff h
      exact .received bundle now report s (.inl (mem_of_itemAt hbundle)) himport rfl rfl
  | acknowledge i =>
      obtain ⟨⟨device, bundle⟩, hbundle, h⟩ := Iff.mp Except.bind_ok_iff h
      obtain rfl := Iff.mp Except.pure_ok_iff h
      exact .acknowledged device bundle (mem_of_itemAt hbundle) rfl rfl

/-- A draft is there before the step, or the step is the export that made it. -/
theorem drafts_of_next (h : f.next codec event = .ok g) {d : Draft} (hd : d ∈ g.drafts) :
    d ∈ f.drafts ∨ ∃ limit, event = .exportFor d.sender d.target limit ∧
      (f.stores d.sender).syncExportEntries d.target limit = .ok (d.entries, d.upTo) ∧
      d.since = (f.stores d.sender).watermarks.acked d.target ∧
      d.journal = (f.stores d.sender).journal ∧ g.stores = f.stores := by
  cases event with
  | exportFor device target limit =>
      obtain ⟨⟨entries, upTo⟩, hexport, h⟩ := Iff.mp Except.bind_ok_iff h
      obtain rfl := Iff.mp Except.pure_ok_iff h
      rcases List.mem_append.mp hd with hd | hd
      · exact .inl hd
      · obtain rfl := List.mem_singleton.mp hd
        exact .inr ⟨limit, rfl, hexport, rfl, rfl, rfl⟩
  | edit device op =>
      obtain ⟨_, -, h⟩ := Iff.mp Except.bind_ok_iff h
      obtain ⟨s, -, h⟩ := Iff.mp Except.bind_ok_iff h
      obtain rfl := Iff.mp Except.pure_ok_iff h
      exact .inl hd
  | sealSyncBundle i =>
      obtain ⟨draft, -, h⟩ := Iff.mp Except.bind_ok_iff h
      obtain rfl := Iff.mp Except.pure_ok_iff h
      exact .inl hd
  | push i bytes expired now =>
      obtain ⟨bundle, -, h⟩ := Iff.mp Except.bind_ok_iff h
      obtain ⟨relay, -, h⟩ := Iff.mp Except.bind_ok_iff h
      obtain rfl := Iff.mp Except.pure_ok_iff h
      exact .inl hd
  | listBundles recipient expired =>
      obtain rfl := Except.ok.inj h
      exact .inl hd
  | fetchBundle recipient id =>
      obtain ⟨bundle, -, h⟩ := Iff.mp Except.bind_ok_iff h
      obtain rfl := Iff.mp Except.pure_ok_iff h
      exact .inl hd
  | deleteBundle recipient id =>
      obtain ⟨relay, -, h⟩ := Iff.mp Except.bind_ok_iff h
      obtain rfl := Iff.mp Except.pure_ok_iff h
      exact .inl hd
  | importBundle device i now =>
      obtain ⟨bundle, -, h⟩ := Iff.mp Except.bind_ok_iff h
      obtain ⟨_, -, h⟩ := Iff.mp Except.bind_ok_iff h
      obtain ⟨⟨s, report⟩, -, h⟩ := Iff.mp Except.bind_ok_iff h
      obtain rfl := Iff.mp Except.pure_ok_iff h
      exact .inl hd
  | acknowledge i =>
      obtain ⟨⟨device, bundle⟩, -, h⟩ := Iff.mp Except.bind_ok_iff h
      obtain rfl := Iff.mp Except.pure_ok_iff h
      exact .inl hd

/-- A bundle is there before the step, or the step has sealed it. -/
theorem holds_of_next (h : f.next codec event = .ok g) {bundle : Bundle} (hb : g.Holds bundle) :
    f.Holds bundle ∨ bundle.draft ∈ f.drafts ∧ bundle.ackForPeer =
      (f.stores bundle.draft.sender).syncImportedWatermark bundle.draft.target := by
  cases event with
  | edit device op =>
      obtain ⟨_, -, h⟩ := Iff.mp Except.bind_ok_iff h
      obtain ⟨s, -, h⟩ := Iff.mp Except.bind_ok_iff h
      obtain rfl := Iff.mp Except.pure_ok_iff h
      exact .inl hb
  | exportFor device target limit =>
      obtain ⟨⟨entries, upTo⟩, -, h⟩ := Iff.mp Except.bind_ok_iff h
      obtain rfl := Iff.mp Except.pure_ok_iff h
      exact .inl hb
  | sealSyncBundle i =>
      obtain ⟨draft, hdraft, h⟩ := Iff.mp Except.bind_ok_iff h
      obtain rfl := Iff.mp Except.pure_ok_iff h
      rcases hb with hb | hb
      · rcases List.mem_append.mp hb with hb | hb
        · exact .inl (.inl hb)
        · obtain rfl := List.mem_singleton.mp hb
          exact .inr ⟨mem_of_itemAt hdraft, rfl⟩
      · exact .inl (.inr hb)
  | push i bytes expired now =>
      obtain ⟨pushed, hpushed, h⟩ := Iff.mp Except.bind_ok_iff h
      obtain ⟨relay, hrelay, h⟩ := Iff.mp Except.bind_ok_iff h
      obtain rfl := Iff.mp Except.pure_ok_iff h
      rcases hb with hb | ⟨p, hp, rfl⟩ | hb
      · exact .inl (.inl hb)
      · rcases Relay.mem_of_uploadBundle hrelay hp with hp | hp
        · exact .inl (.inr (.inl ⟨p, hp, rfl⟩))
        · rw [hp]
          exact .inl (.inl (mem_of_itemAt hpushed))
      · exact .inl (.inr (.inr hb))
  | listBundles recipient expired =>
      obtain rfl := Except.ok.inj h
      rcases hb with hb | ⟨p, hp, rfl⟩ | hb
      · exact .inl (.inl hb)
      · exact .inl (.inr (.inl ⟨p, (Iff.mp Relay.mem_keep hp).1, rfl⟩))
      · exact .inl (.inr (.inr hb))
  | fetchBundle recipient id =>
      obtain ⟨fetched, hfetched, h⟩ := Iff.mp Except.bind_ok_iff h
      obtain rfl := Iff.mp Except.pure_ok_iff h
      rcases hb with hb | hb
      · rcases List.mem_append.mp hb with hb | hb
        · exact .inl (.inl hb)
        · obtain rfl := List.mem_singleton.mp hb
          exact .inl (.inr (.inl (Relay.mem_of_fetchBundle hfetched)))
      · exact .inl (.inr hb)
  | deleteBundle recipient id =>
      obtain ⟨relay, hrelay, h⟩ := Iff.mp Except.bind_ok_iff h
      obtain rfl := Iff.mp Except.pure_ok_iff h
      rcases hb with hb | ⟨p, hp, rfl⟩ | hb
      · exact .inl (.inl hb)
      · exact .inl (.inr (.inl ⟨p, Relay.mem_of_deleteBundle hrelay hp, rfl⟩))
      · exact .inl (.inr (.inr hb))
  | importBundle device i now =>
      obtain ⟨imported, himported, h⟩ := Iff.mp Except.bind_ok_iff h
      obtain ⟨_, -, h⟩ := Iff.mp Except.bind_ok_iff h
      obtain ⟨⟨s, report⟩, -, h⟩ := Iff.mp Except.bind_ok_iff h
      obtain rfl := Iff.mp Except.pure_ok_iff h
      rcases hb with hb | hb | ⟨p, hp, rfl⟩
      · exact .inl (.inl hb)
      · exact .inl (.inr (.inl hb))
      · rcases List.mem_append.mp hp with hp | hp
        · exact .inl (.inr (.inr ⟨p, hp, rfl⟩))
        · obtain rfl := List.mem_singleton.mp hp
          exact .inl (.inl (mem_of_itemAt himported))
  | acknowledge i =>
      obtain ⟨⟨device, acknowledged⟩, -, h⟩ := Iff.mp Except.bind_ok_iff h
      obtain rfl := Iff.mp Except.pure_ok_iff h
      exact .inl hb

/-! ## Delivered journal ids -/

/-- The device `b` has imported a bundle of `a` that spans the id, and has the
change of that number if the journal had it at the export. -/
def Covered (f : Fleet) (a b : String) (j : ℤ) : Prop :=
  ∃ bundle, (b, bundle) ∈ f.imported ∧ bundle.draft.sender = a ∧
    bundle.draft.since < j ∧ j ≤ bundle.draft.upTo ∧
    ∀ r ∈ bundle.draft.journal.rows, r.journalId = j →
      ∃ e ∈ bundle.draft.entries, e.toChange = r

/-- All ids up to a point are covered. -/
def Reaches (f : Fleet) (a b : String) (v : ℤ) : Prop := ∀ j, 0 < j → j ≤ v → f.Covered a b j

/-- The change was in a bundle of `a` that `b` has imported. -/
def Delivered (f : Fleet) (a b : String) (r : JournalRow) : Prop :=
  ∃ bundle, (b, bundle) ∈ f.imported ∧ bundle.draft.sender = a ∧
    ∃ e ∈ bundle.draft.entries, e.toChange = r

theorem Reaches.mono {a b : String} {v : ℤ} (h : f.Reaches a b v)
    (himported : ∀ p ∈ f.imported, p ∈ g.imported) : g.Reaches a b v := by
  intro j hpos hj
  obtain ⟨bundle, hmem, hrest⟩ := h j hpos hj
  exact ⟨bundle, himported _ hmem, hrest⟩

theorem Delivered.mono {a b : String} {r : JournalRow} (h : f.Delivered a b r)
    (himported : ∀ p ∈ f.imported, p ∈ g.imported) : g.Delivered a b r := by
  obtain ⟨bundle, hmem, hrest⟩ := h
  exact ⟨bundle, himported _ hmem, hrest⟩

theorem reaches_zero (f : Fleet) (a b : String) : f.Reaches a b 0 :=
  fun _ hpos hj ↦ absurd hj (not_le.mpr hpos)

/-- What a bundle says is true of the journal of its sender. -/
structure Sound (f : Fleet) (d : Draft) : Prop where
  bounded : d.upTo ≤ d.journal.sequence
  journal : d.journal.Prolongs (f.stores d.sender).journal
  complete : ∀ r ∈ d.journal.rows, d.since < r.journalId → r.journalId ≤ d.upTo →
    ∃ e ∈ d.entries, e.toChange = r
  reached : f.Reaches d.sender d.target d.since

/-- Nothing is marked or acknowledged that was not imported, in any store and
in any header under way. -/
structure Consistent (f : Fleet) : Prop where
  drafts : ∀ d ∈ f.drafts, f.Sound d
  bundles : ∀ bundle, f.Holds bundle → f.Sound bundle.draft ∧
    f.Reaches bundle.draft.target bundle.draft.sender bundle.ackForPeer
  targets : ∀ p ∈ f.imported, p.2.draft.target = p.1
  started : ∀ a, Journal.empty.Prolongs (f.stores a).journal
  acked : ∀ a b, f.Reaches a b ((f.stores a).watermarks.acked b)
  marked : ∀ a b, f.Reaches a b ((f.stores b).watermarks.imported a)

/-- Once a bundle is imported, its recipient has all ids the bundle spans. -/
theorem Sound.reaches {bundle : Bundle} (h : f.Sound bundle.draft)
    (himported : ∀ p ∈ f.imported, p ∈ g.imported)
    (hmem : (bundle.draft.target, bundle) ∈ g.imported) :
    g.Reaches bundle.draft.sender bundle.draft.target bundle.draft.upTo := by
  intro j hpos hj
  by_cases hsince : j ≤ bundle.draft.since
  · exact (h.reached.mono himported) j hpos hsince
  · refine ⟨bundle, hmem, rfl, not_le.mp hsince, hj, fun r hr hid ↦ ?_⟩
    subst hid
    exact h.complete r hr (not_le.mp hsince) hj

/-- A change of the journal whose id is reached was delivered. -/
theorem Consistent.delivered (h : f.Consistent) {a b : String} {v : ℤ} (hv : f.Reaches a b v)
    {r : JournalRow} (hr : r ∈ (f.stores a).journal.rows) (hle : r.journalId ≤ v) :
    f.Delivered a b r := by
  have hpos : 0 < r.journalId := by
    refine ((h.started a).rows r hr).resolve_left ?_
    exact List.not_mem_nil
  obtain ⟨bundle, hmem, rfl, -, hupTo, hcovers⟩ := hv r.journalId hpos hle
  have hsound := (h.bundles bundle (.inr (.inr ⟨_, hmem, rfl⟩))).1
  have hold : r ∈ bundle.draft.journal.rows :=
    hsound.journal.mem hr (hupTo.trans hsound.bounded)
  exact ⟨bundle, hmem, rfl, hcovers r hold rfl⟩

/-- A reached id is one that the journal has given out. -/
theorem Consistent.acked_le (h : f.Consistent) (a b : String) :
    (f.stores a).watermarks.acked b ≤ (f.stores a).journal.sequence := by
  set v := (f.stores a).watermarks.acked b with hv
  by_cases hpos : 0 < v
  · obtain ⟨bundle, hmem, rfl, -, hupTo, -⟩ := h.acked a b v hpos le_rfl
    have hsound := (h.bundles bundle (.inr (.inr ⟨_, hmem, rfl⟩))).1
    exact hupTo.trans (hsound.bounded.trans hsound.journal.sequence)
  · exact (not_lt.mp hpos).trans (h.started a).sequence

theorem consistent_start : start.Consistent := by
  refine ⟨by simp [start], ?_, by simp [start], fun a ↦ .refl _, ?_, ?_⟩
  · rintro bundle (hmem | ⟨p, hmem, -⟩ | ⟨p, hmem, -⟩)
    · cases hmem
    · cases hmem
    · cases hmem
  · exact fun a b ↦ reaches_zero start a b
  · exact fun a b ↦ reaches_zero start a b

/-! ## One step -/

theorem Moves.imported (h : Moves codec f g) : ∀ p ∈ f.imported, p ∈ g.imported := by
  intro p hp
  cases h with
  | onward himported _ => rwa [himported]
  | received bundle now report s _ _ _ himported =>
      rw [himported]
      exact List.mem_append_left _ hp
  | acknowledged device bundle _ _ himported => rwa [himported]

theorem Moves.journal (h : Moves codec f g) (a : String) :
    (f.stores a).journal.Prolongs (g.stores a).journal := by
  cases h with
  | onward _ hstores => exact (hstores a).journal
  | received bundle now report s _ himport hstores _ =>
      rw [hstores]
      by_cases ha : a = bundle.draft.target
      · subst ha
        rw [Function.update_self]
        obtain ⟨u, hu, -, hjournal⟩ := Store.syncImportEntries_spec himport
        rw [hjournal]
        exact hu.journal.trans (Journal.prolongs_compact ..)
      · rw [Function.update_of_ne ha]
        exact .refl _
  | acknowledged device bundle _ hstores _ =>
      rw [hstores]
      by_cases ha : a = device
      · subst ha
        rw [Function.update_self]
        exact .refl _
      · rw [Function.update_of_ne ha]
        exact .refl _

theorem Sound.mono {d : Draft} (h : f.Sound d) (hmoves : Moves codec f g) : g.Sound d := by
  refine ⟨h.bounded, ?_, h.complete, h.reached.mono hmoves.imported⟩
  exact h.journal.trans (hmoves.journal d.sender)

/-- The acknowledged watermark only takes over what a bundle carries. -/
theorem Consistent.acked_of_moves (h : f.Consistent) (hmoves : Moves codec f g) (a b : String) :
    g.Reaches a b ((g.stores a).watermarks.acked b) := by
  refine Reaches.mono (f := f) ?_ hmoves.imported
  cases hmoves with
  | onward _ hstores =>
      rw [(hstores a).watermarks]
      exact h.acked a b
  | received bundle now report s _ himport hstores _ =>
      rw [hstores]
      by_cases ha : a = bundle.draft.target
      · subst ha
        obtain ⟨u, -, hwatermarks, -⟩ := Store.syncImportEntries_spec himport
        rw [Function.update_self, hwatermarks, Watermarks.acked_markImported]
        exact h.acked _ b
      · rw [Function.update_of_ne ha]
        exact h.acked a b
  | acknowledged device bundle hmem hstores _ =>
      rw [hstores]
      by_cases ha : a = device
      · subst ha
        rw [Function.update_self]
        change f.Reaches a b
          (((f.stores a).watermarks.acknowledge bundle.draft.sender bundle.ackForPeer).acked b)
        by_cases hb : b = bundle.draft.sender
        · subst hb
          have hack := (h.bundles bundle (.inr (.inr ⟨_, hmem, rfl⟩))).2
          rw [h.targets _ hmem] at hack
          rcases Watermarks.acked_acknowledge_cases (f.stores a).watermarks bundle.draft.sender
            bundle.ackForPeer with hsame | hsame
          · rw [hsame]
            exact h.acked a _
          · rw [hsame]
            exact hack
        · rw [Watermarks.acked_acknowledge_of_ne _ hb]
          exact h.acked a b
      · rw [Function.update_of_ne ha]
        exact h.acked a b

/-- The imported watermark is where the last imported bundle ends. -/
theorem Consistent.marked_of_moves (h : f.Consistent) (hmoves : Moves codec f g)
    (a b : String) : g.Reaches a b ((g.stores b).watermarks.imported a) := by
  have himported := hmoves.imported
  cases hmoves with
  | onward _ hstores =>
      rw [(hstores b).watermarks]
      exact (h.marked a b).mono himported
  | received bundle now report s hholds himport hstores hgrown =>
      rw [hstores]
      by_cases hb : b = bundle.draft.target
      · subst hb
        obtain ⟨u, -, hwatermarks, -⟩ := Store.syncImportEntries_spec himport
        rw [Function.update_self, hwatermarks]
        by_cases ha : a = bundle.draft.sender
        · subst ha
          rw [Watermarks.imported_markImported_self]
          apply (h.bundles bundle hholds).1.reaches himported
          rw [hgrown]
          exact List.mem_append_right _ List.mem_cons_self
        · rw [Watermarks.imported_markImported_of_ne _ ha]
          exact (h.marked a _).mono himported
      · rw [Function.update_of_ne hb]
        exact (h.marked a b).mono himported
  | acknowledged device bundle _ hstores _ =>
      rw [hstores]
      by_cases hb : b = device
      · subst hb
        rw [Function.update_self]
        change g.Reaches a b
          (((f.stores b).watermarks.acknowledge bundle.draft.sender bundle.ackForPeer).imported a)
        rw [Watermarks.imported_acknowledge]
        exact (h.marked a b).mono himported
      · rw [Function.update_of_ne hb]
        exact (h.marked a b).mono himported

/-- An export from a consistent store is sound. -/
theorem Consistent.sound_of_export (h : f.Consistent) (hmoves : Moves codec f g) {d : Draft}
    {limit : ℕ}
    (hexport : (f.stores d.sender).syncExportEntries d.target limit = .ok (d.entries, d.upTo))
    (hsince : d.since = (f.stores d.sender).watermarks.acked d.target)
    (hjournal : d.journal = (f.stores d.sender).journal) : g.Sound d := by
  obtain ⟨hentries, hupTo⟩ := Store.syncExportEntries_spec hexport
  refine ⟨?_, ?_, fun r hr hlater hle ↦ ?_, ?_⟩
  · rw [hupTo, hjournal]
    exact Journal.reached_le _ (h.acked_le _ _) limit
  · rw [hjournal]
    exact hmoves.journal d.sender
  · rw [hjournal] at hr
    rw [hsince] at hlater
    rw [hupTo] at hle
    have hmem := Journal.mem_take_after hr hlater hle
    rw [← hentries] at hmem
    exact List.mem_map.mp hmem
  · rw [hsince]
    exact (h.acked _ _).mono hmoves.imported

theorem Consistent.next (h : f.Consistent) (hstep : Step codec f event g) : g.Consistent := by
  have hmoves := moves_of_next hstep
  have hdrafts : ∀ d ∈ g.drafts, g.Sound d := by
    intro d hd
    rcases drafts_of_next hstep hd with hd | ⟨limit, -, hexport, hsince, hjournal, -⟩
    · exact (h.drafts d hd).mono hmoves
    · exact h.sound_of_export hmoves hexport hsince hjournal
  refine ⟨hdrafts, ?_, ?_, fun a ↦ (h.started a).trans (hmoves.journal a),
    h.acked_of_moves hmoves, h.marked_of_moves hmoves⟩
  · intro bundle hbundle
    rcases holds_of_next hstep hbundle with hbundle | ⟨hdraft, hack⟩
    · obtain ⟨hsound, hreaches⟩ := h.bundles bundle hbundle
      exact ⟨hsound.mono hmoves, hreaches.mono hmoves.imported⟩
    · refine ⟨(h.drafts _ hdraft).mono hmoves, ?_⟩
      rw [hack]
      exact (h.marked _ _).mono hmoves.imported
  · intro p hp
    cases hmoves with
    | onward himported _ =>
        rw [himported] at hp
        exact h.targets p hp
    | received bundle now report s _ _ _ himported =>
        rw [himported] at hp
        rcases List.mem_append.mp hp with hp | hp
        · exact h.targets p hp
        · obtain rfl := List.mem_singleton.mp hp
          rfl
    | acknowledged device bundle _ _ himported =>
        rw [himported] at hp
        exact h.targets p hp

/-! ## Two paired stores -/

/-- Bundles go from one of the two devices to the other. -/
def Draft.Pairs (a b : String) (d : Draft) : Prop :=
  (d.sender = a ∧ d.target = b) ∨ (d.sender = b ∧ d.target = a)

/-- The steps of two devices that are paired with each other. -/
def Between (a b : String) : Exchange → Prop
  | .edit device _ => device = a ∨ device = b
  | .exportFor device target _ => (device = a ∧ target = b) ∨ (device = b ∧ target = a)
  | _ => True

/-- All bundles are of the two devices, and each knows the other one at most. -/
structure Paired (a b : String) (f : Fleet) : Prop where
  drafts : ∀ d ∈ f.drafts, Draft.Pairs a b d
  bundles : ∀ bundle, f.Holds bundle → Draft.Pairs a b bundle.draft
  known : ∀ row ∈ (f.stores a).watermarks.rows, row.peer = b

theorem sender_of_pairs {a b : String} (hab : a ≠ b) {d : Draft} (h : Draft.Pairs a b d)
    (htarget : d.target = a) : d.sender = b := by
  rcases h with ⟨-, htarget'⟩ | ⟨hsender, -⟩
  · exact absurd (htarget.symm.trans htarget') hab
  · exact hsender

theorem Paired.next {a b : String} (hab : a ≠ b) (h : Paired a b f) (hf : f.Consistent)
    (hevent : Between a b event) (hstep : Step codec f event g) : Paired a b g := by
  refine ⟨fun d hd ↦ ?_, fun bundle hbundle ↦ ?_, fun row hrow ↦ ?_⟩
  · rcases drafts_of_next hstep hd with hd | ⟨limit, rfl, -⟩
    · exact h.drafts d hd
    · exact hevent
  · rcases holds_of_next hstep hbundle with hbundle | ⟨hdraft, -⟩
    · exact h.bundles bundle hbundle
    · exact h.drafts _ hdraft
  · cases moves_of_next hstep with
    | onward _ hstores =>
        rw [(hstores a).watermarks] at hrow
        exact h.known row hrow
    | received bundle now report s hholds himport hstores _ =>
        rw [hstores] at hrow
        by_cases ha : a = bundle.draft.target
        · obtain ⟨u, -, hwatermarks, -⟩ := Store.syncImportEntries_spec himport
          rw [ha, Function.update_self, hwatermarks, ← ha] at hrow
          have hsender := sender_of_pairs hab (h.bundles bundle hholds) ha.symm
          rw [← hsender]
          rcases Watermarks.mem_markImported hrow with hpeer | hrow
          · exact hpeer
          · rw [hsender]
            exact h.known row hrow
        · rw [Function.update_of_ne ha] at hrow
          exact h.known row hrow
    | acknowledged device bundle hmem hstores _ =>
        rw [hstores] at hrow
        by_cases ha : a = device
        · subst ha
          have hsender := sender_of_pairs hab
            (h.bundles bundle (.inr (.inr ⟨_, hmem, rfl⟩))) (hf.targets _ hmem)
          rw [Function.update_self] at hrow
          rw [← hsender]
          rcases Watermarks.mem_acknowledge hrow with hpeer | hrow
          · exact hpeer
          · rw [hsender]
            exact h.known row hrow
        · rw [Function.update_of_ne ha] at hrow
          exact h.known row hrow

theorem paired_of_run {a b : String} (hab : a ≠ b)
    (h : Transition.Run (Step codec) (fun _ ↦ Between a b) start f) :
    f.Consistent ∧ Paired a b f := by
  refine Transition.Run.preserves (I := fun f ↦ f.Consistent ∧ Paired a b f) ?_ h
    ⟨consistent_start, ?_⟩
  · rintro f event g ⟨hf, hpaired⟩ hevent hstep
    exact ⟨hf.next hstep, hpaired.next hab hf hevent hstep⟩
  · refine ⟨by simp [start], ?_, ?_⟩
    · rintro bundle (hmem | ⟨p, hmem, -⟩ | ⟨p, hmem, -⟩)
      · cases hmem
      · cases hmem
      · cases hmem
    · rintro row hrow
      cases hrow

/-- A step takes nothing out of a journal that the other device has not got. -/
theorem kept_of_moves {a b : String} (hf : f.Consistent) (hpaired : Paired a b f)
    (hpaired' : Paired a b g) (hmoves : Moves codec f g) {r : JournalRow}
    (hr : r ∈ (f.stores a).journal.rows) :
    r ∈ (g.stores a).journal.rows ∨ g.Delivered a b r := by
  by_cases hdelivered : r.journalId ≤ (f.stores a).watermarks.acked b
  · exact .inr ((hf.delivered (hf.acked a b) hr hdelivered).mono hmoves.imported)
  · left
    rw [← Watermarks.minAcked_eq_acked hpaired.known] at hdelivered
    cases hmoves with
    | onward _ hstores => exact (hstores a).kept r hr (not_le.mp hdelivered)
    | received bundle now report s hholds himport hstores _ =>
        rw [hstores]
        by_cases ha : a = bundle.draft.target
        · subst ha
          have hknown := hpaired'.known
          rw [hstores, Function.update_self] at hknown
          obtain ⟨u, hu, hwatermarks, hjournal⟩ := Store.syncImportEntries_spec himport
          have hmin : s.watermarks.minAcked =
              (f.stores bundle.draft.target).watermarks.minAcked := by
            rw [Watermarks.minAcked_eq_acked hknown, hwatermarks, Watermarks.acked_markImported,
              Watermarks.minAcked_eq_acked hpaired.known]
          rw [Function.update_self, hjournal, hmin]
          refine Iff.mpr Journal.mem_compact ⟨?_, .inl (not_le.mp hdelivered)⟩
          exact hu.kept r hr (not_le.mp hdelivered)
        · rwa [Function.update_of_ne ha]
    | acknowledged device bundle _ hstores _ =>
        rw [hstores]
        by_cases ha : a = device
        · subst ha
          rwa [Function.update_self]
        · rwa [Function.update_of_ne ha]

/-- In every run of two paired stores, over a transport that loses, repeats,
delays, reorders and evicts bundles:

* every journal id of `a` that counts as acknowledged by `b` is spanned by a
  bundle that `b` has imported, with the change of that number if there was one
  at the export;
* a bundle has the first changes that are not acknowledged, and the changes it
  passes over were delivered;
* a change that was ever journaled is delivered or still to be exported. -/
theorem delivered_of_run {a b : String} (hab : a ≠ b)
    (hrun : Transition.Run (Step codec) (fun _ ↦ Between a b) start f) :
    (∀ j, 0 < j → j ≤ (f.stores a).watermarks.acked b → f.Covered a b j) ∧
      (∀ limit entries upTo, (f.stores a).syncExportEntries b limit = .ok (entries, upTo) →
        entries.map (fun e ↦ e.toChange) =
            ((f.stores a).journal.after ((f.stores a).watermarks.acked b)).take limit ∧
          ∀ r ∈ (f.stores a).journal.rows, r.journalId ≤ upTo →
            (∃ e ∈ entries, e.toChange = r) ∨ f.Delivered a b r) ∧
      ∀ g, Transition.Run (Step codec) (fun _ ↦ Between a b) f g →
        ∀ r ∈ (f.stores a).journal.rows, g.Delivered a b r ∨
          r ∈ (g.stores a).journal.after ((g.stores a).watermarks.acked b) := by
  obtain ⟨hf, hpaired⟩ := paired_of_run hab hrun
  refine ⟨hf.acked a b, fun limit entries upTo hexport ↦ ?_, fun g hg r hr ↦ ?_⟩
  · obtain ⟨hentries, hupTo⟩ := Store.syncExportEntries_spec hexport
    refine ⟨hentries, fun r hr hle ↦ ?_⟩
    by_cases hlater : (f.stores a).watermarks.acked b < r.journalId
    · left
      rw [hupTo] at hle
      have hmem := Journal.mem_take_after hr hlater hle
      rw [← hentries] at hmem
      exact List.mem_map.mp hmem
    · exact .inr (hf.delivered (hf.acked a b) hr (not_lt.mp hlater))
  · -- The change is in the journal until it was delivered, and stays delivered.
    have hinv : (g.Consistent ∧ Paired a b g) ∧
        (g.Delivered a b r ∨ r ∈ (g.stores a).journal.rows) := by
      refine Transition.Run.preserves (I := fun g ↦ (g.Consistent ∧ Paired a b g) ∧
        (g.Delivered a b r ∨ r ∈ (g.stores a).journal.rows)) ?_ hg ⟨⟨hf, hpaired⟩, .inr hr⟩
      rintro g event g' ⟨⟨hg, hpaired⟩, hr⟩ hevent hstep
      have hmoves := moves_of_next hstep
      have hpaired' := hpaired.next hab hg hevent hstep
      refine ⟨⟨hg.next hstep, hpaired'⟩, ?_⟩
      rcases hr with hr | hr
      · exact .inl (hr.mono hmoves.imported)
      · exact (kept_of_moves hg hpaired hpaired' hmoves hr).symm
    obtain ⟨⟨hg, -⟩, hdelivered | hr⟩ := hinv
    · exact .inl hdelivered
    · by_cases hlater : (g.stores a).watermarks.acked b < r.journalId
      · exact .inr (List.mem_filter.mpr ⟨hr, decide_eq_true hlater⟩)
      · exact .inl (hg.delivered (hg.acked a b) hr (not_lt.mp hlater))

/-- A note that travels through the relay, and its acknowledgement in a file. -/
def sampleExchange : List Exchange :=
  [.edit "a" (.upsert (Store.note "m" "tea") [("tea", [])] "2026-01-01T00:00:00+00:00"),
    .exportFor "a" "b" 5, .sealSyncBundle 0, .push 0 9 (fun _ ↦ false) "2026-01-02",
    .listBundles "b" (fun _ ↦ false), .fetchBundle "b" 1,
    .importBundle "b" 1 "2026-01-02T00:00:00+00:00", .deleteBundle "b" 1,
    .exportFor "b" "a" 0, .sealSyncBundle 1, .importBundle "a" 2 "2026-01-03T00:00:00+00:00",
    .acknowledge 1]

theorem delivered_sample :
    ∃ f : Fleet, (f.stores "a").watermarks.acked "b" = 1 ∧ f.Covered "a" "b" 1 := by
  have hcomputed : (sampleExchange.foldlM (fun (f : Fleet) event ↦ (f.next .sample event).toOption)
      start).map (fun f ↦ (f.stores "a").watermarks.acked "b") = some 1 := by
    decide +kernel
  obtain ⟨f, hf, hacked⟩ := Option.map_eq_some_iff.mp hcomputed
  have hrun : Transition.Run (Step .sample) (fun _ ↦ Between "a" "b") start f := by
    refine Transition.Run.of_foldlM ?_ ?_ hf
    · intro f event g hg
      change f.next .sample event = .ok g
      cases hnext : f.next .sample event with
      | error e => simp [hnext, Except.toOption] at hg
      | ok g' =>
          rw [hnext] at hg
          rw [Option.some.inj hg]
    · simp [sampleExchange, Between]
  exact ⟨f, hacked, (delivered_of_run (by decide) hrun).1 1 (by decide) (by rw [hacked])⟩

end Fleet

end Cortana
