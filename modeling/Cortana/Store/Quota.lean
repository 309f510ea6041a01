import Cortana.Store.Operations

/-!
# The storage quota of a tenant

A tenant's data plane counts the bytes of its documents one write at a time.
What comes in is counted in bytes; what goes out is counted by `length` of
SQLite, in characters up to the first NUL.
-/

namespace Cortana

/-- Both counts of a content agree. -/
def Measured (content : String) : Prop := sqlLength content = content.utf8ByteSize

instance (content : String) : Decidable (Measured content) :=
  inferInstanceAs (Decidable (sqlLength content = content.utf8ByteSize))

namespace Store

/-- The bytes of all stored contents. -/
def contentBytes (t : Table DocumentRow.id) : ℕ :=
  (t.rows.map fun d ↦ d.content.utf8ByteSize).sum

/-- A data plane whose counter is exact. -/
structure Metered (s : Store) : Prop where
  documents : s.maxDocuments.isSome
  storage : s.storageQuotaBytes.isSome
  exact : s.bytesUsed.getD 0 = contentBytes s.documents

/-- The document may be counted: the content it replaces is measured, and the
counter does not saturate. -/
def Chargeable (codec : Codec) (s : Store) (document : Document) : Prop :=
  (∀ d ∈ s.documents.get (stableId codec document.source document.sourceId),
    Measured d.content) ∧ s.bytesUsed.getD 0 + document.content.utf8ByteSize < 2 ^ 64

/-- The write, update or deletion of documents counts exactly. -/
def Accountable (codec : Codec) (s : Store) : Operation → Prop
  | .upsert document _ _ => s.unchanged codec document ∨ s.Chargeable codec document
  | .upsertStructured document _ _ =>
      (s.unchanged codec document ∧
        (s.firstChunk (stableId codec document.source document.sourceId)).bind
          ChunkRow.policyVersion = some chunkingContractVersion) ∨ s.Chargeable codec document
  | .reconcile source project seenSourceIds _ =>
      ∀ d ∈ s.documents.rows, d.id ∈ s.staleDocuments source project seenSourceIds →
        Measured d.content
  | _ => False

/-- An empty data plane with its quota. -/
def tenantPlane (device : Option String) (maxDocuments storageQuotaBytes : ℕ) : Store :=
  { adopted device with
    maxDocuments := some maxDocuments
    storageQuotaBytes := some storageQuotaBytes }

variable {codec : Codec} {s t : Store}

theorem metered_tenantPlane (device : Option String) (maxDocuments storageQuotaBytes : ℕ) :
    (tenantPlane device maxDocuments storageQuotaBytes).Metered :=
  ⟨rfl, rfl, rfl⟩

/-! ## One write -/

theorem content_mergedDocument (t : Table DocumentRow.id) (row : DocumentRow) :
    (mergedDocument t row).content = row.content := by
  rw [mergedDocument]
  split <;> rfl

/-- The old content counts as much as it holds. -/
theorem sqlLength_of_measured {t : Table DocumentRow.id} {id : String}
    (h : ∀ d ∈ t.get id, Measured d.content) :
    ((t.get id).map fun d ↦ sqlLength d.content).getD 0 =
      ((t.get id).map fun d ↦ d.content.utf8ByteSize).getD 0 := by
  cases hrow : t.get id with
  | none => rfl
  | some d => exact h d hrow

/-- The storage quota refuses a document exactly when the contents would
exceed it, and otherwise counts them. -/
theorem Metered.enforceTenantQuota (h : s.Metered) {document : Document}
    (hcharge : s.Chargeable codec document)
    (hroom : s.documents.rows.length < s.maxDocuments.getD 0 ∨
      (s.documents.get (stableId codec document.source document.sourceId)).isSome) :
    s.enforceTenantQuota (stableId codec document.source document.sourceId)
        document.content.utf8ByteSize =
      let used := contentBytes (s.documents.put (s.writtenDocument codec document))
      if s.storageQuotaBytes.getD 0 < used then
        .error s!"tenant storage quota exceeded: {used} of {s.storageQuotaBytes.getD 0} bytes"
      else .ok { s with bytesUsed := some used } := by
  obtain ⟨limit, hlimit⟩ := Option.isSome_iff_exists.mp h.documents
  obtain ⟨quota, hquota⟩ := Option.isSome_iff_exists.mp h.storage
  have hput := Table.sum_put s.documents (s.writtenDocument codec document)
    fun d ↦ d.content.utf8ByteSize
  have hkey : (s.writtenDocument codec document).id =
      stableId codec document.source document.sourceId := id_mergedDocument _ _
  have hcontent : (s.writtenDocument codec document).content = document.content :=
    content_mergedDocument _ _
  have hused : min (s.bytesUsed.getD 0 + document.content.utf8ByteSize) (2 ^ 64 - 1) -
      ((s.documents.get (stableId codec document.source document.sourceId)).map fun d ↦
        sqlLength d.content).getD 0 =
      contentBytes (s.documents.put (s.writtenDocument codec document)) := by
    rw [sqlLength_of_measured hcharge.1, Nat.min_eq_left (by have := hcharge.2; omega), h.exact,
      contentBytes, contentBytes]
    rw [hkey, hcontent] at hput
    omega
  have hopen : ¬((s.documents.get (stableId codec document.source document.sourceId)).isNone ∧
      limit ≤ s.documents.rows.length) := by
    rintro ⟨hnone, hfull⟩
    rcases hroom with hroom | hsome
    · rw [hlimit, Option.getD_some] at hroom
      omega
    · simp_all
  simp only [Store.enforceTenantQuota, hlimit, hquota, if_neg hopen, hused, Option.getD_some]

/-- A document that passes the quota has room among the documents. -/
theorem room_of_enforceTenantQuota {id : String} {bytes : ℕ} (hlimit : s.maxDocuments.isSome)
    (h : s.enforceTenantQuota id bytes = .ok t) :
    s.documents.rows.length < s.maxDocuments.getD 0 ∨ (s.documents.get id).isSome := by
  obtain ⟨limit, hlimit⟩ := Option.isSome_iff_exists.mp hlimit
  simp only [Store.enforceTenantQuota, hlimit] at h
  split at h
  · cases h
  · rename_i hopen
    rw [hlimit, Option.getD_some]
    cases hrow : s.documents.get id with
    | none => exact Or.inl (by simpa [hrow] using hopen)
    | some d => exact Or.inr rfl

theorem Metered.writeDocument (h : s.Metered) {document : Document} {chunks : List ChunkRow}
    {now : String} (hcharge : s.Chargeable codec document)
    (hwrite : s.writeDocument codec document chunks now = .ok t) : t.Metered := by
  obtain ⟨used, chunks, chunksFts, codeIndexes, hquota, rfl⟩ := writeDocument_eq_ok hwrite
  have hroom := room_of_enforceTenantQuota h.documents hquota
  rw [h.enforceTenantQuota hcharge hroom] at hquota
  dsimp only at hquota
  split at hquota
  · cases hquota
  · refine ⟨h.documents, h.storage, ?_⟩
    have hused := congrArg Store.bytesUsed (Except.ok.inj hquota)
    simp only at hused
    rw [← hused, Option.getD_some]

theorem Metered.removeStale (h : s.Metered) {now : String → String} {id : String}
    (hmeasured : ∀ d ∈ s.documents.get id, Measured d.content)
    (hremove : removeStale codec now s id = .ok t) : t.Metered := by
  obtain ⟨limit, hlimit⟩ := Option.isSome_iff_exists.mp h.documents
  have hfreed : (((s.deleteChunksFts id).releaseTenantBytes id).bytesUsed).getD 0 =
      contentBytes (s.documents.erase id) := by
    have herase := Table.sum_erase s.documents id fun d ↦ d.content.utf8ByteSize
    have hexact := h.exact
    simp only [releaseTenantBytes, deleteChunksFts, hlimit, Option.getD_some,
      sqlLength_of_measured hmeasured]
    simp only [contentBytes] at hexact ⊢
    omega
  rw [Store.removeStale, journalInTransaction_document] at hremove
  obtain rfl := Except.ok.inj hremove
  obtain ⟨used, hused⟩ := releaseTenantBytes_eq (s.deleteChunksFts id) id
  rw [hused] at hfreed ⊢
  exact ⟨h.documents, h.storage, hfreed⟩

/-! ## Runs -/

theorem Metered.step (h : s.Metered) {op : Operation} (hop : s.Accountable codec op)
    (hstep : s.Step codec op t) : t.Metered := by
  rw [Step] at hstep
  cases op with
  | upsert document chunks now =>
      obtain ⟨⟨u, written⟩, hu, rfl⟩ := Iff.mp Except.map_ok_iff hstep
      rcases upsert_eq_ok hu with ⟨-, rfl, -⟩ | ⟨hchanged, -, hwrite⟩
      · exact h
      · refine h.writeDocument (hop.resolve_left ?_) hwrite
        simpa using hchanged
  | upsertStructured document chunks now =>
      obtain ⟨⟨u, written⟩, hu, rfl⟩ := Iff.mp Except.map_ok_iff hstep
      rcases upsertStructured_eq_ok hu with ⟨-, rfl, -⟩ | ⟨hchanged, -, hwrite⟩
      · exact h
      · exact h.writeDocument (hop.resolve_left hchanged) hwrite
  | reconcile source project seenSourceIds now =>
      obtain ⟨⟨u, n⟩, hu, rfl⟩ := Iff.mp Except.map_ok_iff hstep
      obtain ⟨v, hv, rfl⟩ := reconcile_eq_ok hu
      -- The loop only removes documents, so what is left was there at its start.
      have hloop : v.Metered ∧ ∀ d ∈ v.documents.rows, d ∈ s.documents.rows := by
        refine List.foldlM_preserves (P := fun u : Store ↦
          u.Metered ∧ ∀ d ∈ u.documents.rows, d ∈ s.documents.rows) ?_ ⟨h, fun d hd ↦ hd⟩ hv
        rintro id hid u u' ⟨hu, hkept⟩ hremove
        refine ⟨hu.removeStale (fun d hd ↦ ?_) hremove, ?_⟩
        · obtain ⟨hmem, rfl⟩ := Iff.mp Table.get_eq_some_iff hd
          exact hop d (hkept d hmem) hid
        · obtain ⟨used, rfl⟩ := removeStale_eq_ok hremove
          exact fun d hd ↦ hkept d (Iff.mp Table.mem_erase hd).1
      have hmetered := hloop.1
      split
      · exact hmetered
      · exact ⟨hmetered.documents, hmetered.storage, hmetered.exact⟩
  | _ => exact hop.elim

/-- The counter of a tenant is exact after every run whose writes count
exactly: the storage quota refuses a document when the contents would exceed
it and only then, and a plane without documents has nothing counted. -/
theorem tenant_bytes_exact (device : Option String) (maxDocuments storageQuotaBytes : ℕ)
    (hrun : Run codec (Accountable codec)
      (tenantPlane device maxDocuments storageQuotaBytes) t) :
    t.bytesUsed.getD 0 = contentBytes t.documents ∧
      (∀ document : Document, t.Chargeable codec document →
        (t.documents.rows.length < t.maxDocuments.getD 0 ∨
          (t.documents.get (stableId codec document.source document.sourceId)).isSome) →
        ((∃ e, t.enforceTenantQuota (stableId codec document.source document.sourceId)
            document.content.utf8ByteSize = .error e) ↔
          t.storageQuotaBytes.getD 0 <
            contentBytes (t.documents.put (t.writtenDocument codec document)))) ∧
      (t.documents.rows = [] → t.bytesUsed.getD 0 = 0) := by
  have hmetered : t.Metered := hrun.preserves (fun s op t hs hop hstep ↦ hs.step hop hstep)
    (metered_tenantPlane device maxDocuments storageQuotaBytes)
  refine ⟨hmetered.exact, ?_, ?_⟩
  · intro document hcharge hroom
    rw [hmetered.enforceTenantQuota hcharge hroom]
    dsimp only
    split <;> simp [*]
  · intro hempty
    rw [hmetered.exact, contentBytes, hempty]
    rfl

/-- A write or deletion that counts exactly as everything stored is measured. -/
def accountable (s : Store) : Operation → Bool
  | .upsert document _ _ => decide ((∀ d ∈ s.documents.rows, Measured d.content) ∧
      s.bytesUsed.getD 0 + document.content.utf8ByteSize < 2 ^ 64)
  | .reconcile _ _ _ _ => decide (∀ d ∈ s.documents.rows, Measured d.content)
  | _ => false

theorem accountable_sound {op : Operation} (h : s.accountable op = true) :
    Accountable codec s op := by
  cases op with
  | upsert document chunks now =>
      obtain ⟨hmeasured, hbound⟩ := of_decide_eq_true h
      exact .inr ⟨fun d hd ↦ hmeasured d (Iff.mp Table.get_eq_some_iff hd).1, hbound⟩
  | reconcile source project seenSourceIds now => exact fun d hd _ ↦ of_decide_eq_true h d hd
  | _ => cases h

/-- One note is updated, and another one is deleted. -/
theorem tenant_bytes_exact_plainNote :
    ∃ t, Run .sample (Accountable .sample) (tenantPlane none 10 1000) t ∧
      t.documents.rows.length = 1 ∧ t.bytesUsed.getD 0 = 6 := by
  obtain ⟨t, hrun, hvalues⟩ := exists_of_performIf .sample accountable (tenantPlane none 10 1000)
    [.upsert (note "menu.md" "tea") [("tea", [])] "2026-01-01T00:00:00+00:00",
      .upsert (note "menu.md" "coffee") [("coffee", [])] "2026-01-02T00:00:00+00:00",
      .upsert (note "shop.md" "sugar") [("sugar", [])] "2026-01-02T00:00:00+00:00",
      .reconcile "notes" "work" ["menu.md"] fun _ ↦ "2026-01-03T00:00:00+00:00"]
    (fun t ↦ (t.documents.rows.length, contentBytes t.documents)) (a := (1, 6)) (by decide +kernel)
  obtain ⟨hlength, hbytes⟩ := Prod.mk.inj hvalues
  have haccountable : Run .sample (Accountable .sample) (tenantPlane none 10 1000) t :=
    hrun.mono fun _ _ hop ↦ accountable_sound hop
  exact ⟨t, haccountable, hlength, (tenant_bytes_exact none 10 1000 haccountable).1.trans hbytes⟩

/-- The writes and deletions of a data plane. -/
def TenantOperation : Store → Operation → Prop
  | _, .upsert _ _ _ | _, .upsertStructured _ _ _ | _, .reconcile _ _ _ _ => True
  | _, _ => False

/-- A note that is written and deleted leaves a byte behind. -/
theorem tenant_bytes_drift :
    ¬ ∀ (codec : Codec) (device : Option String) (maxDocuments storageQuotaBytes : ℕ) (t : Store),
      Run codec TenantOperation (tenantPlane device maxDocuments storageQuotaBytes) t →
        t.bytesUsed.getD 0 = contentBytes t.documents := by
  intro h
  obtain ⟨t, hrun, hcounts⟩ := exists_of_performAll .sample (tenantPlane none 10 1000)
    [.upsert (note "menu.md" "café") [("café", [])] "2026-01-01T00:00:00+00:00",
      .reconcile "notes" "work" [] fun _ ↦ "2026-01-02T00:00:00+00:00"]
    (fun t ↦ (t.bytesUsed.getD 0, contentBytes t.documents)) (a := (1, 0))
    (by decide +kernel)
  have hexact := h Codec.sample none 10 1000 t
    (run_of_performAll (by simp [TenantOperation]) hrun)
  simp [hexact] at hcounts
  omega

end Store

end Cortana
