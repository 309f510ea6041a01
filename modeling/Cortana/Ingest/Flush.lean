import Cortana.Core.Outcomes
import Cortana.Ingest.Batch
import Cortana.Store.Sample

/-!
# Flushing a batch

`flush_ingest_batch` request by request.  The chunks of all documents are
embedded in requests of a fixed size that are answered in any order; documents
are committed in their own order, each as soon as its vectors are there.
-/

namespace Cortana

namespace Flush

/-! ## Requests -/

/-- A document that waits for its vectors. -/
abbrev Pending := Document × List ChunkSpec

/-- `EMBEDDING_REQUEST_SIZE`. -/
def requestSize : ℕ := 8

/-- The texts of all chunks, in the order of the documents. -/
def inputOf (documents : List Pending) : List (List Char) :=
  documents.flatMap fun item ↦ item.2.map ChunkSpec.content

/-- The requests that the input is cut into. -/
def request (input : List (List Char)) (index : ℕ) : List (List Char) :=
  (input.drop (index * requestSize)).take requestSize

def requestCount (input : List (List Char)) : ℕ := (input.length + (requestSize - 1)) / requestSize

/-- The order in which the requests are answered, and why the run stops while
it waits for the next answer; without a reason it waits for all of them. -/
structure Schedule (count : ℕ) where
  order : List ℕ
  stop : Option String
  nodup : order.Nodup
  bound : ∀ index ∈ order, index < count
  all : stop = none → ∀ index < count, index ∈ order

/-- What a flush meets: the clock of its writes, the answers of the embedding
provider, and why it stops at the first check, at the one in `remaining`,
before it starts to embed, and at the last check. -/
structure Surroundings where
  codec : Codec
  now : ℕ → String
  embed : ℕ → List (List Char) → Except String (List Embedding)
  check : Option String
  remaining : Option String
  start : Option String
  last : Option String

/-! ## Embedding and committing -/

/-- The locals of a flush, the store and the two counters. -/
structure Progress where
  store : Store
  changed : ℕ
  unchanged : ℕ
  committed : ℕ
  offset : ℕ
  vectors : ℕ → Option Embedding

/-- `vectors[start + offset] = Some(vector)` for all vectors of an answer. -/
def place (vectors : ℕ → Option Embedding) (start : ℕ) (answer : List Embedding) (k : ℕ) :
    Option Embedding :=
  if start ≤ k ∧ k < start + answer.length then answer[k - start]? else vectors k

/-- The vectors of a document are taken. -/
def clear (vectors : ℕ → Option Embedding) (offset length k : ℕ) : Option Embedding :=
  if offset ≤ k ∧ k < offset + length then none else vectors k

/-- The chunks of a document with the vectors from an offset on. -/
def ownChunks (vectors : ℕ → Option Embedding) (offset : ℕ) (specs : List ChunkSpec) :
    Except String (List (ChunkSpec × Embedding)) :=
  specs.zipIdx.mapM fun item ↦
    match vectors (offset + item.2) with
    | some vector => .ok (item.1, vector)
    | none => .error "embedding vector disappeared before commit"

/-- The commit of one document. -/
def Progress.write (env : Surroundings) (p : Progress) (document : Document)
    (chunks : List (ChunkSpec × Embedding)) : Except (Progress × String) Progress :=
  match p.store.upsertStructured env.codec document chunks (env.now p.committed) with
  | .error reason => .error (p, reason)
  | .ok (store, written) =>
      .ok { p with
        store := store
        changed := if written then p.changed + 1 else p.changed
        unchanged := if written then p.unchanged else p.unchanged + 1
        committed := p.committed + 1 }

/-- The documents without chunks at the head of the batch. -/
def commitEmpty (env : Surroundings) : List Pending → Progress → Except (Progress × String) Progress
  | [], p => .ok p
  | item :: rest, p =>
      if item.2 = [] then do
        let p ← p.write env item.1 []
        commitEmpty env rest p
      else .ok p

/-- The documents whose vectors are all there. -/
def commitReady (env : Surroundings) (size : ℕ) :
    List Pending → Progress → Except (Progress × String) Progress
  | [], p => .ok p
  | item :: rest, p =>
      let stop := p.offset + item.2.length
      if size < stop then
        .error (p, "embedding provider returned vectors outside the input range")
      else if (List.range item.2.length).any fun i ↦ (p.vectors (p.offset + i)).isNone then .ok p
      else
        match ownChunks p.vectors p.offset item.2 with
        | .error reason => .error (p, reason)
        | .ok chunks => do
            let p ← Progress.write env { p with
              vectors := clear p.vectors p.offset item.2.length } item.1 chunks
            commitReady env size rest { p with offset := stop }

/-- One answer, with the commits it makes possible. -/
def receive (env : Surroundings) (documents : List Pending) (p : Progress) (index : ℕ) :
    Except (Progress × String) Progress :=
  let input := inputOf documents
  match env.embed index (request input index) with
  | .error reason => .error (p, reason)
  | .ok answer =>
      if answer.length = (request input index).length then
        commitReady env input.length (documents.drop p.committed)
          { p with vectors := place p.vectors (index * requestSize) answer }
      else .error (p, "embedding provider returned " ++ toString answer.length ++
        " vectors for a request containing " ++ toString (request input index).length ++
        " inputs")

/-- `embed_and_commit`, as far as the schedule lets it run. -/
def embedAndCommit (env : Surroundings) (documents : List Pending)
    (schedule : Schedule (requestCount (inputOf documents))) (p : Progress) :
    Except (Progress × String) Progress := do
  let p ← commitEmpty env documents p
  let p ← schedule.order.foldlM (receive env documents) p
  match schedule.stop with
  | some reason => .error (p, reason)
  | none =>
      if p.committed = documents.length then .ok p
      else .error (p, "embedding provider completed without enough vectors for every document")

/-- What the caller lends to a flush. -/
structure Batch where
  store : Store
  pending : List Pending
  changed : ℕ
  unchanged : ℕ

/-- `flush_ingest_batch`, with the reason of its error. -/
def flushIngestBatch (env : Surroundings) (batch : Batch)
    (schedule : Schedule (requestCount (inputOf batch.pending))) : Batch × Option String :=
  if batch.pending = [] then (batch, none)
  else
    match env.check with
    | some reason => (batch, some reason)
    | none =>
        -- From here on the batch is moved out of the pending list.
        match env.remaining with
        | some reason => ({ batch with pending := [] }, some reason)
        | none =>
            let p : Progress := ⟨batch.store, batch.changed, batch.unchanged, 0, 0, fun _ ↦ none⟩
            match env.start with
            | some reason => (batch, some reason)
            | none =>
                match embedAndCommit env batch.pending schedule p with
                | .ok p => (⟨p.store, [], p.changed, p.unchanged⟩, env.last)
                | .error (p, reason) =>
                    (⟨p.store, batch.pending.drop p.committed, p.changed, p.unchanged⟩,
                      some reason)

/-! ## Committed prefixes -/

/-- The vector that the provider has computed for a chunk: the one at its place
in the answer to the request that its text is in. -/
def vectorFor (env : Surroundings) (documents : List Pending) (k : ℕ) : Option Embedding :=
  match env.embed (k / requestSize) (request (inputOf documents) (k / requestSize)) with
  | .ok answer => answer[k % requestSize]?
  | .error _ => none

/-- The number of chunks of some documents. -/
def chunkCount (items : List Pending) : ℕ := (items.map fun item ↦ item.2.length).sum

/-- Documents were committed in their order, each with its chunks and the
vectors of these, and counted. -/
inductive Commits (env : Surroundings) (documents : List Pending) (s : Store)
    (changed unchanged : ℕ) : List Pending → Store → ℕ → ℕ → Prop where
  | nil : Commits env documents s changed unchanged [] s changed unchanged
  | snoc {items : List Pending} {t u : Store} {c d : ℕ} {item : Pending}
      {chunks : List (ChunkSpec × Embedding)} {written : Bool}
      (before : Commits env documents s changed unchanged items t c d)
      (specs : chunks.map Prod.fst = item.2)
      (vectors : ∀ i chunk, chunks[i]? = some chunk →
        vectorFor env documents (chunkCount items + i) = some chunk.2)
      (upsert : t.upsertStructured env.codec item.1 chunks (env.now items.length) =
        .ok (u, written)) :
      Commits env documents s changed unchanged (items ++ [item]) u
        (if written then c + 1 else c) (if written then d else d + 1)

/-- An exact prefix of the batch was committed and counted, the rest is pending
again; without an error the whole batch was. -/
def CommitsPrefix (env : Surroundings) (before after : Batch) (error : Option String) : Prop :=
  ∃ k ≤ before.pending.length,
    Commits env before.pending before.store before.changed before.unchanged
      (before.pending.take k) after.store after.changed after.unchanged ∧
    after.changed + after.unchanged = before.changed + before.unchanged + k ∧
    after.pending = before.pending.drop k ∧ (error = none → k = before.pending.length)

/-- The run stops between the two checks at the start. -/
def StopsBetweenChecks (env : Surroundings) (batch : Batch) : Prop :=
  batch.pending ≠ [] ∧ env.check = none ∧ env.remaining ≠ none

/-! ## The requests cover the input -/

theorem index_lt_requestCount {input : List (List Char)} {k : ℕ} (hk : k < input.length) :
    k / requestSize < requestCount input := by
  rw [requestCount, requestSize]
  omega

theorem length_inputOf (documents : List Pending) :
    (inputOf documents).length = chunkCount documents := by
  rw [inputOf, List.length_flatMap, chunkCount]
  congr 1
  exact List.map_congr_left fun item _ ↦ List.length_map _

theorem chunkCount_append (items : List Pending) (item : Pending) :
    chunkCount (items ++ [item]) = chunkCount items + item.2.length := by
  simp [chunkCount]

theorem chunkCount_take_le (documents : List Pending) (n : ℕ) :
    chunkCount (documents.take n) ≤ (inputOf documents).length := by
  rw [length_inputOf, chunkCount, chunkCount, List.map_take]
  conv_rhs => rw [← List.take_append_drop n (documents.map fun item ↦ item.2.length)]
  rw [List.sum_append]
  exact Nat.le_add_right _ _

theorem take_succ_of_drop {documents rest : List Pending} {n : ℕ} {item : Pending}
    (h : documents.drop n = item :: rest) :
    documents.take (n + 1) = documents.take n ++ [item] ∧ documents.drop (n + 1) = rest ∧
      n < documents.length := by
  have hlt : n < documents.length := by
    by_contra hnot
    rw [List.drop_eq_nil_of_le (not_lt.mp hnot)] at h
    cases h
  rw [List.drop_eq_getElem_cons hlt] at h
  obtain ⟨hitem, hrest⟩ := List.cons.inj h
  refine ⟨?_, hrest, hlt⟩
  rw [← hitem, List.take_append_getElem hlt]

/-! ## What the loops keep -/

section Invariant

variable {env : Surroundings} {documents : List Pending} {s : Store} {changed unchanged : ℕ}

/-- The documents that were committed, and their count. -/
structure Counted (env : Surroundings) (documents : List Pending) (s : Store)
    (changed unchanged : ℕ) (p : Progress) : Prop where
  le : p.committed ≤ documents.length
  commits : Commits env documents s changed unchanged (documents.take p.committed) p.store
    p.changed p.unchanged
  count : p.changed + p.unchanged = changed + unchanged + p.committed

/-- From the offset on, the vectors of the answered requests are there. -/
structure Inv (env : Surroundings) (documents : List Pending) (s : Store)
    (changed unchanged : ℕ) (arrived : List ℕ) (p : Progress) : Prop
    extends Counted env documents s changed unchanged p where
  offset : p.offset = chunkCount (documents.take p.committed)
  vectors : ∀ k, p.offset ≤ k → k < (inputOf documents).length →
    p.vectors k = if k / requestSize ∈ arrived then vectorFor env documents k else none
  answered : ∀ k < (inputOf documents).length, k / requestSize ∈ arrived →
    vectorFor env documents k ≠ none

/-- Everything is committed, or a vector is missing. -/
def Waits (documents : List Pending) (arrived : List ℕ) (p : Progress) : Prop :=
  p.committed = documents.length ∨
    ∃ k < (inputOf documents).length, p.offset ≤ k ∧ k / requestSize ∉ arrived

theorem ownChunks_spec {vectors : ℕ → Option Embedding} {offset : ℕ} {specs : List ChunkSpec}
    (h : ∀ i < specs.length, vectors (offset + i) ≠ none) :
    ∃ chunks, ownChunks vectors offset specs = .ok chunks ∧ chunks.map Prod.fst = specs ∧
      ∀ i chunk, chunks[i]? = some chunk → vectors (offset + i) = some chunk.2 := by
  have hsome : ∀ item ∈ specs.zipIdx,
      vectors (offset + item.2) = some ((vectors (offset + item.2)).getD []) := by
    intro item hitem
    have hlt : item.2 < specs.length := by
      have := List.snd_lt_of_mem_zipIdx hitem
      omega
    cases hv : vectors (offset + item.2) with
    | none => exact absurd hv (h item.2 hlt)
    | some v => rfl
  refine ⟨specs.zipIdx.map fun item ↦ (item.1, (vectors (offset + item.2)).getD []), ?_, ?_, ?_⟩
  · refine List.mapM_eq_ok fun item hitem ↦ ?_
    rw [hsome item hitem]
    rfl
  · rw [List.map_map]
    exact List.zipIdx_map_fst 0 specs
  · intro i chunk hchunk
    rw [List.getElem?_map, List.getElem?_zipIdx, Option.map_map, Option.map_eq_some_iff] at hchunk
    obtain ⟨spec, hspec, rfl⟩ := hchunk
    have hmem : (spec, i) ∈ specs.zipIdx := by
      rw [List.mem_zipIdx_iff_getElem?]
      exact hspec
    simpa using hsome _ hmem

/-- A commit adds the next document. -/
theorem Counted.write {p : Progress} (h : Counted env documents s changed unchanged p)
    {item : Pending} {rest : List Pending} (hnext : documents.drop p.committed = item :: rest)
    {chunks : List (ChunkSpec × Embedding)} (hspecs : chunks.map Prod.fst = item.2)
    (hvectors : ∀ i chunk, chunks[i]? = some chunk →
      vectorFor env documents (chunkCount (documents.take p.committed) + i) = some chunk.2) :
    (p.write env item.1 chunks).Ends (fun failed ↦ failed.1 = p) fun p' ↦
      Counted env documents s changed unchanged p' ∧ p'.committed = p.committed + 1 ∧
        p'.offset = p.offset ∧ p'.vectors = p.vectors := by
  obtain ⟨htake, -, hlt⟩ := take_succ_of_drop hnext
  rw [Progress.write]
  split
  next => rfl
  next store written hupsert =>
      have hlength : (documents.take p.committed).length = p.committed :=
        List.length_take_of_le h.le
      refine ⟨⟨hlt, ?_, ?_⟩, rfl, rfl, rfl⟩
      · rw [htake]
        refine .snoc h.commits hspecs hvectors ?_
        rw [hlength]
        exact hupsert
      · have hcount := h.count
        cases written
        · change p.changed + (p.unchanged + 1) = changed + unchanged + (p.committed + 1)
          omega
        · change p.changed + 1 + p.unchanged = changed + unchanged + (p.committed + 1)
          omega

theorem commitEmpty_ends {p : Progress} (h : Inv env documents s changed unchanged [] p)
    {rest : List Pending} (hrest : documents.drop p.committed = rest) :
    (commitEmpty env rest p).Ends (fun failed ↦ Counted env documents s changed unchanged failed.1)
      fun p' ↦ Inv env documents s changed unchanged [] p' ∧ Waits documents [] p' := by
  induction rest generalizing p with
  | nil =>
      rw [commitEmpty]
      have hge : documents.length ≤ p.committed := List.drop_eq_nil_iff.mp hrest
      exact ⟨h, .inl (le_antisymm h.le hge)⟩
  | cons item rest ih =>
      obtain ⟨htake, hdrop, hlt⟩ := take_succ_of_drop hrest
      have hoffset : chunkCount (documents.take (p.committed + 1)) =
          p.offset + item.2.length := by rw [htake, chunkCount_append, h.offset]
      rw [commitEmpty]
      split
      next hempty =>
          refine Except.Ends.bind (Q := fun p' ↦ Counted env documents s changed unchanged p' ∧
            p'.committed = p.committed + 1 ∧ p'.offset = p.offset ∧ p'.vectors = p.vectors) ?_ ?_
          · refine (h.toCounted.write hrest (by simp [hempty]) (by simp)).mono ?_ fun _ hp ↦ hp
            rintro failed rfl
            exact h.toCounted
          · rintro p' ⟨hcounted, hcommitted, hsame, hvectors⟩
            refine ih ⟨hcounted, ?_, ?_, h.answered⟩ (by rw [hcommitted, hdrop])
            · rw [hcommitted, hoffset, hsame, hempty]
              rfl
            · rw [hsame, hvectors]
              exact h.vectors
      next hfull =>
          have hsize := chunkCount_take_le documents (p.committed + 1)
          have hpos : 0 < item.2.length := List.length_pos_iff.mpr hfull
          exact ⟨h, .inr ⟨p.offset, by omega, le_rfl, List.not_mem_nil⟩⟩

theorem commitReady_ends {arrived : List ℕ} {p : Progress}
    (h : Inv env documents s changed unchanged arrived p) {rest : List Pending}
    (hrest : documents.drop p.committed = rest) :
    (commitReady env (inputOf documents).length rest p).Ends
      (fun failed ↦ Counted env documents s changed unchanged failed.1)
      fun p' ↦ Inv env documents s changed unchanged arrived p' ∧ Waits documents arrived p' := by
  induction rest generalizing p with
  | nil =>
      rw [commitReady]
      have hge : documents.length ≤ p.committed := List.drop_eq_nil_iff.mp hrest
      exact ⟨h, .inl (le_antisymm h.le hge)⟩
  | cons item rest ih =>
      obtain ⟨htake, hdrop, hlt⟩ := take_succ_of_drop hrest
      have hoffset : chunkCount (documents.take (p.committed + 1)) =
          p.offset + item.2.length := by rw [htake, chunkCount_append, h.offset]
      have hsize : p.offset + item.2.length ≤ (inputOf documents).length :=
        hoffset ▸ chunkCount_take_le documents (p.committed + 1)
      rw [commitReady, if_neg (not_lt.mpr hsize)]
      split
      next hmissing =>
          obtain ⟨i, hi, hnone⟩ := List.any_eq_true.mp hmissing
          rw [List.mem_range] at hi
          rw [Option.isNone_iff_eq_none, h.vectors _ (Nat.le_add_right _ _) (by omega)] at hnone
          refine ⟨h, .inr ⟨p.offset + i, by omega, Nat.le_add_right _ _, fun harrived ↦ ?_⟩⟩
          rw [if_pos harrived] at hnone
          exact h.answered _ (by omega) harrived hnone
      next hthere =>
          have hall : ∀ i < item.2.length, p.vectors (p.offset + i) ≠ none := by
            intro i hi hnone
            exact hthere (List.any_eq_true.mpr ⟨i, List.mem_range.mpr hi, by simp [hnone]⟩)
          obtain ⟨chunks, hchunks, hspecs, hown⟩ := ownChunks_spec hall
          rw [hchunks]
          have hvectors : ∀ i chunk, chunks[i]? = some chunk →
              vectorFor env documents (chunkCount (documents.take p.committed) + i) =
                some chunk.2 := by
            intro i chunk hchunk
            have hi : i < item.2.length := by
              rw [← hspecs, List.length_map]
              exact (List.getElem?_eq_some_iff.mp hchunk).1
            have hvector := h.vectors (p.offset + i) (Nat.le_add_right _ _) (by omega)
            rw [hown i chunk hchunk] at hvector
            split at hvector
            · rw [← h.offset]
              exact hvector.symm
            · cases hvector
          have hcleared : Counted env documents s changed unchanged
              { p with vectors := clear p.vectors p.offset item.2.length } :=
            ⟨h.le, h.commits, h.count⟩
          refine Except.Ends.bind (Q := fun p' ↦ Counted env documents s changed unchanged p' ∧
            p'.committed = p.committed + 1 ∧ p'.offset = p.offset ∧
              p'.vectors = clear p.vectors p.offset item.2.length) ?_ ?_
          · refine (hcleared.write hrest hspecs hvectors).mono ?_ fun _ hp ↦ hp
            intro failed hfailed
            rw [hfailed]
            exact hcleared
          · rintro p' ⟨hcounted, hcommitted, -, hclear⟩
            refine ih ⟨⟨hcounted.le, hcounted.commits, hcounted.count⟩, ?_, ?_, h.answered⟩ ?_
            · change p.offset + item.2.length = chunkCount (documents.take p'.committed)
              rw [hcommitted, hoffset]
            · intro k hk hlt
              change p'.vectors k = _
              change p.offset + item.2.length ≤ k at hk
              rw [hclear, clear, if_neg (by omega)]
              exact h.vectors k (by omega) hlt
            · change documents.drop p'.committed = rest
              rw [hcommitted, hdrop]

/-- An answer brings the vectors of its request. -/
theorem receive_ends {arrived : List ℕ} {p : Progress}
    (h : Inv env documents s changed unchanged arrived p) {index : ℕ} :
    (receive env documents p index).Ends
      (fun failed ↦ Counted env documents s changed unchanged failed.1)
      fun p' ↦ Inv env documents s changed unchanged (arrived ++ [index]) p' ∧
        Waits documents (arrived ++ [index]) p' := by
  rw [receive]
  cases hanswer : env.embed index (request (inputOf documents) index) with
  | error reason => exact h.toCounted
  | ok answer =>
      dsimp only
      split
      next hlength =>
          have hvector : ∀ k, k / requestSize = index →
              vectorFor env documents k = answer[k % requestSize]? := by
            rintro k rfl
            rw [vectorFor, hanswer]
          have hcount : answer.length =
              min requestSize ((inputOf documents).length - index * requestSize) := by
            rw [hlength, request, List.length_take, List.length_drop]
          have hplace : ∀ k < (inputOf documents).length,
              (index * requestSize ≤ k ∧ k < index * requestSize + answer.length ↔
                k / requestSize = index) ∧
              (k / requestSize = index → k - index * requestSize = k % requestSize ∧
                k % requestSize < answer.length) := by
            intro k hk
            rw [hcount, requestSize]
            omega
          have hplaced : Inv env documents s changed unchanged (arrived ++ [index])
              { p with vectors := place p.vectors (index * requestSize) answer } := by
            refine ⟨⟨h.le, h.commits, h.count⟩, h.offset, ?_, ?_⟩
            · intro k hk hlt
              obtain ⟨hrange, hindex⟩ := hplace k hlt
              change place p.vectors (index * requestSize) answer k = _
              rw [place]
              by_cases hsame : k / requestSize = index
              · rw [if_pos (hrange.mpr hsame), if_pos (by simp [hsame]), (hindex hsame).1,
                  hvector k hsame]
              · rw [if_neg fun hin ↦ hsame (hrange.mp hin), h.vectors k hk hlt]
                simp [hsame]
            · intro k hlt harrived
              by_cases hsame : k / requestSize = index
              · rw [hvector k hsame, ne_eq, List.getElem?_eq_none_iff, not_le]
                exact ((hplace k hlt).2 hsame).2
              · exact h.answered k hlt (by simpa [hsame] using harrived)
          exact commitReady_ends hplaced rfl
      next => exact h.toCounted

end Invariant

/-! ## The flush -/

section Whole

variable {env : Surroundings}

theorem embedAndCommit_ends (documents : List Pending) (s : Store) (changed unchanged : ℕ)
    (schedule : Schedule (requestCount (inputOf documents))) :
    (embedAndCommit env documents schedule ⟨s, changed, unchanged, 0, 0, fun _ ↦ none⟩).Ends
      (fun failed ↦ Counted env documents s changed unchanged failed.1)
      fun p ↦ Counted env documents s changed unchanged p ∧ p.committed = documents.length := by
  have hstart : Inv env documents s changed unchanged []
      ⟨s, changed, unchanged, 0, 0, fun _ ↦ none⟩ :=
    ⟨⟨Nat.zero_le _, .nil, rfl⟩, rfl, by simp, by simp⟩
  rw [embedAndCommit]
  refine (commitEmpty_ends hstart (by simp)).bind fun p hp ↦ ?_
  have hloop : (schedule.order.foldlM (receive env documents) p).Ends
      (fun failed ↦ Counted env documents s changed unchanged failed.1)
      fun p' ↦ Inv env documents s changed unchanged schedule.order p' ∧
        Waits documents schedule.order p' :=
    List.foldlM_ends (I := fun arrived p' ↦ Inv env documents s changed unchanged arrived p' ∧
      Waits documents arrived p') hp fun arrived index p' _ hp' ↦ receive_ends hp'.1
  refine hloop.bind fun p' ⟨hinv, hwaits⟩ ↦ ?_
  cases hstop : schedule.stop with
  | some reason => exact hinv.toCounted
  | none =>
      -- All requests are answered, so no vector is missing.
      have hall : p'.committed = documents.length := by
        rcases hwaits with hall | ⟨k, hk, -, hmissing⟩
        · exact hall
        · exact absurd (schedule.all hstop _ (index_lt_requestCount hk)) hmissing
      dsimp only
      rw [if_pos hall]
      exact ⟨hinv.toCounted, hall⟩

theorem commitsPrefix_refl (batch : Batch) (reason : String) :
    CommitsPrefix env batch batch (some reason) :=
  ⟨0, Nat.zero_le _, .nil, rfl, rfl, fun h ↦ nomatch h⟩

/-- A flush that gets past both checks commits an exact prefix. -/
theorem commitsPrefix_of_counted {batch : Batch} {p : Progress} {error : Option String}
    (h : Counted env batch.pending batch.store batch.changed batch.unchanged p)
    (herror : error = none → p.committed = batch.pending.length) :
    CommitsPrefix env batch
      ⟨p.store, batch.pending.drop p.committed, p.changed, p.unchanged⟩ error :=
  ⟨p.committed, h.le, h.commits, h.count, rfl, herror⟩

theorem commitsPrefix_of_not_stops {batch : Batch}
    (schedule : Schedule (requestCount (inputOf batch.pending)))
    (h : ¬ StopsBetweenChecks env batch) :
    CommitsPrefix env batch (flushIngestBatch env batch schedule).1
      (flushIngestBatch env batch schedule).2 := by
  rw [flushIngestBatch]
  split
  next hempty =>
      refine ⟨0, Nat.zero_le _, .nil, rfl, rfl, fun _ ↦ ?_⟩
      rw [hempty]
      rfl
  next hne =>
      split
      next => exact commitsPrefix_refl batch _
      next hcheck =>
          split
          next reason hremaining =>
              exact absurd ⟨hne, hcheck, by simp [hremaining]⟩ h
          next =>
              dsimp only
              split
              next => exact commitsPrefix_refl batch _
              next =>
                  have hends := @embedAndCommit_ends env batch.pending batch.store
                    batch.changed batch.unchanged schedule
                  split
                  next p hok =>
                      obtain ⟨hcounted, hall⟩ := hends.of_ok hok
                      have hprefix : CommitsPrefix env batch ⟨p.store,
                          batch.pending.drop p.committed, p.changed, p.unchanged⟩ env.last :=
                        commitsPrefix_of_counted hcounted fun _ ↦ hall
                      rwa [hall, List.drop_length] at hprefix
                  next p reason herror =>
                      exact commitsPrefix_of_counted (hends.of_error herror) fun h ↦ nomatch h

/-- A flush that stops between the checks drops the batch: nothing is committed
and nothing is pending. -/
theorem not_commitsPrefix_of_stops {batch : Batch}
    (schedule : Schedule (requestCount (inputOf batch.pending)))
    (h : StopsBetweenChecks env batch) :
    ¬ CommitsPrefix env batch (flushIngestBatch env batch schedule).1
      (flushIngestBatch env batch schedule).2 := by
  obtain ⟨hne, hcheck, hremaining⟩ := h
  obtain ⟨reason, hreason⟩ := Option.ne_none_iff_exists'.mp hremaining
  rw [flushIngestBatch, if_neg hne, hcheck, hreason]
  rintro ⟨k, hk, -, hcount, hpending, -⟩
  have hzero : k = 0 := by
    change batch.changed + batch.unchanged = batch.changed + batch.unchanged + k at hcount
    omega
  rw [hzero, List.drop_zero] at hpending
  exact hne hpending.symm

/-- A flush commits an exact prefix of the batch and leaves the rest pending if
and only if it is not stopped between the two checks at its start. -/
theorem flushIngestBatch_commitsPrefix_iff (env : Surroundings) (batch : Batch)
    (schedule : Schedule (requestCount (inputOf batch.pending))) :
    CommitsPrefix env batch (flushIngestBatch env batch schedule).1
        (flushIngestBatch env batch schedule).2 ↔
      ¬ StopsBetweenChecks env batch :=
  ⟨fun h hstops ↦ not_commitsPrefix_of_stops schedule hstops h,
    commitsPrefix_of_not_stops schedule⟩

end Whole

/-! ## A dropped batch -/

def blankNote : Document where
  source := "notes"
  sourceId := "a.md"
  title := "Note"
  content := ""
  uri := none
  updatedAt := "2026-01-01T00:00:00+00:00"
  project := "work"
  acl := []
  metadata := .object []

/-- A run that is cancelled right after its first check. -/
def cancelledEarly : Surroundings where
  codec := .sample
  now _ := "2026-01-01T00:00:00+00:00"
  embed _ texts := .ok (texts.map fun _ ↦ [])
  check := none
  remaining := some "source notes cancelled before reconciliation"
  start := none
  last := none

def noRequests : Schedule 0 where
  order := []
  stop := none
  nodup := List.nodup_nil
  bound := by simp
  all := by simp

theorem batch_dropped :
    ¬ CommitsPrefix cancelledEarly ⟨.adopted none, [(blankNote, [])], 0, 0⟩
      (flushIngestBatch cancelledEarly ⟨.adopted none, [(blankNote, [])], 0, 0⟩ noRequests).1
      (flushIngestBatch cancelledEarly ⟨.adopted none, [(blankNote, [])], 0, 0⟩ noRequests).2 :=
  not_commitsPrefix_of_stops _ ⟨by simp, rfl, by simp [cancelledEarly]⟩

end Flush

end Cortana
