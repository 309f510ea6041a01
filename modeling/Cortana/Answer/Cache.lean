import Cortana.Answer.Planner
import Cortana.Answer.Synthesis
import Cortana.Core.OrderedSet
import Cortana.Core.Runs
import Cortana.Core.Table
import Mathlib.Data.String.Basic

/-!
# The answer cache

`answer_scoped_with_memory_authorized` as a sequence of accesses to the shared
store: the two revisions, the cache, the searches and the recall, and the
revisions again.  Calls and writes interleave between any two accesses.  A
response that is served from the cache was computed by a call of the same key,
all of whose accesses saw the revisions that the served call has seen itself: of
all writes, only those that are imported from another device can have come
between, for they leave the revisions as they are.
-/

namespace Cortana

open ByteText

namespace Answer

/-! ## Requests and responses -/

/-- `AnswerRequest`, with what the principal may read. -/
structure AnswerRequest where
  query : List Char
  project : Option String
  source : Option String
  principalAcl : List String
  memoryAcl : Option (List String)
  memoryOwner : Bool

/-- `RetrievalTuning`; the weights by their bits. -/
structure RetrievalTuning where
  candidateMultiplier : ℕ
  semanticWeight : UInt32
  lexicalWeight : UInt32
  idfWeight : UInt32
  recencyWeight : UInt32
  rerankerEnabled : Bool
deriving DecidableEq

/-- What an answer depends on besides the request and the store. -/
structure Engine where
  modelConfigured : Bool
  model : String
  baseUrl : String
  fingerprint : String
  retrievalTuning : RetrievalTuning
  maxPlannedQueries : ℕ
  retrievalLimit : ℕ
  resultLimit : ℕ
  contextTokens : ℕ
  outputTokens : ℕ
  answerTimeoutSeconds : ℕ
  cacheTtlSeconds : ℕ
  cacheMaxEntries : ℕ

/-- `QueryPlan`. -/
structure QueryPlan where
  queries : List (List Char)
  modelGenerated : Bool

/-- `DegradationState`. -/
structure DegradationState where
  code : String
  detail : Option String

/-- `AnswerResponse` with the fields around the answer. -/
structure CachedResponse extends AnswerResponse where
  query : List Char
  plan : QueryPlan
  cached : Bool
  latencyMs : ℕ
  retrievalMode : String
  retrievalDegraded : Bool
  corpusRevision : ℕ
  memoryRevision : Option ℕ
  degradation : Option DegradationState

/-! ## The key -/

/-- `normalize_query_for_cache`. -/
def normalizeQueryForCache (query : List Char) : List Char :=
  [' '].intercalate (splitWhitespace query)

/-- The members of the object that `cache_key_for_contract` hashes. -/
structure KeyMaterial where
  contract : String
  revision : ℕ
  memoryRevision : Option ℕ
  model : Option String
  modelUrl : Option String
  embedding : String
  retrievalRanking : String
  retrievalTuning : RetrievalTuning
  query : List Char
  project : Option String
  source : Option String
  acl : List String
  memoryAcl : List String
  memoryOwner : Bool
  maxPlannedQueries : ℕ
  retrievalLimit : ℕ
  resultLimit : ℕ
  contextTokens : ℕ
  outputTokens : ℕ
  answerTimeoutSeconds : ℕ
deriving DecidableEq

def contractVersion : String := "answer-v6-expiry-safe-cache"

/-- `cache_key_for_contract` before it hashes. -/
def keyMaterial (ranking : String) (engine : Engine) (request : AnswerRequest) (revision : ℕ)
    (memoryRevision : Option ℕ) : KeyMaterial where
  contract := contractVersion
  revision := revision
  memoryRevision := memoryRevision
  model := if engine.modelConfigured then some engine.model else none
  modelUrl := if engine.modelConfigured then some engine.baseUrl else none
  embedding := engine.fingerprint
  retrievalRanking := ranking
  retrievalTuning := engine.retrievalTuning
  query := normalizeQueryForCache request.query
  project := request.project
  source := request.source
  acl := request.principalAcl.orderedSet
  memoryAcl := (request.memoryAcl.getD []).orderedSet
  memoryOwner := request.memoryOwner
  maxPlannedQueries := engine.maxPlannedQueries
  retrievalLimit := engine.retrievalLimit
  resultLimit := engine.resultLimit
  contextTokens := engine.contextTokens
  outputTokens := engine.outputTokens
  answerTimeoutSeconds := engine.answerTimeoutSeconds

/-! ## Putting a response together -/

/-- What a planned search comes to. -/
inductive SearchOutcome where
  | found (evidence : List Evidence) (degraded : Bool) (warning : Option String)
  | failed (message : String)

def SearchOutcome.degraded : SearchOutcome → Bool
  | found _ degraded _ => degraded
  | failed _ => false

def SearchOutcome.evidence : SearchOutcome → Option (List Evidence)
  | found evidence _ _ => some evidence
  | failed _ => none

def SearchOutcome.warnings : SearchOutcome → List String
  | found _ degraded warning => if degraded then warning.toList else []
  | failed message => ["retrieval fallback: " ++ message]

/-- What the stages of an answer come to; no searches at the deadline. -/
structure Stages where
  planned : Completion
  searches : Option (List SearchOutcome)
  recalled : Except String (List RecalledMemory)
  complete : List Char → Completion
  latencyMs : ℕ

section Respond

variable (unicode : Unicode) (twoDecimals : UInt32 → List Char)
  (hashOrder : List (Evidence × ℚ) → List (Evidence × ℚ))
  (decodePlan : List Char → Except String (List (List Char)))

/-- `plan`, with the fallback at the deadline, and the warnings it adds. -/
def planQuery (engine : Engine) (query : List Char) (planned : Completion) :
    QueryPlan × List String :=
  let fallback : QueryPlan := ⟨[query], false⟩
  if engine.modelConfigured then
    match planned with
    | .answer content =>
        match parsePlan unicode decodePlan content query engine.maxPlannedQueries with
        | .ok queries => (⟨queries, true⟩, [])
        | .error message => (fallback, ["planner fallback: " ++ message])
    | .error message => (fallback, ["planner unavailable: " ++ message])
    | .late => (fallback, ["planner fallback: answer deadline reached"])
  else (fallback, [])

/-- The response of `answer_scoped_with_memory_authorized` from its stages. -/
def answerResponse (engine : Engine) (request : AnswerRequest) (revision : ℕ)
    (memoryRevision : Option ℕ) (stages : Stages) : CachedResponse :=
  let (plan, planWarnings) := planQuery unicode decodePlan engine request.query stages.planned
  let searches := stages.searches.getD []
  let lateWarnings :=
    if stages.searches.isNone then ["retrieval fallback: answer deadline reached"] else []
  let retrievalDegraded := searches.any SearchOutcome.degraded
  let fused := fuse hashOrder (searches.filterMap SearchOutcome.evidence) (min engine.resultLimit 50)
  let recalled := if request.memoryAcl.isSome then stages.recalled else .ok []
  let response := respond unicode twoDecimals
    (if engine.modelConfigured then some stages.complete else none) engine.contextTokens
    request.query fused recalled
    (planWarnings ++ lateWarnings ++ searches.flatMap SearchOutcome.warnings)
  { response with
    query := request.query
    plan := plan
    cached := false
    latencyMs := stages.latencyMs
    retrievalMode := if retrievalDegraded then "lexical-fallback" else "hybrid"
    retrievalDegraded := retrievalDegraded
    corpusRevision := revision
    memoryRevision := memoryRevision
    degradation :=
      if retrievalDegraded then some ⟨"answer_degraded", response.warnings.head?⟩ else none }

end Respond

/-- The last part of the condition to store a response. -/
def admits (engine : Engine) (response : CachedResponse) : Bool :=
  !engine.modelConfigured || (response.mode == .synthesized && !response.retrievalDegraded)

/-! ## Rows of the cache -/

/-- A row of `query_cache`; an instant in nanoseconds, none where it is malformed. -/
structure CacheRow (κ τ : Type) where
  cacheKey : κ
  responseJson : τ
  createdAt : Option ℤ
  lastUsedAt : ℤ
  hits : ℕ

/-- `query_cache`. -/
abbrev CacheTable (κ τ : Type) := Table (CacheRow.cacheKey (κ := κ) (τ := τ))

/-- `cached_query`: the response, and the rows with one evicted or counted. -/
def cachedQuery {κ τ : Type} [DecidableEq κ] (rows : CacheTable κ τ) (key : κ)
    (ttlSeconds : ℕ) (now : ℤ) : Option τ × CacheTable κ τ :=
  if ttlSeconds = 0 then (none, rows)
  else
    match rows.get key with
    | none => (none, rows)
    | some row =>
        match row.createdAt with
        | none => (none, rows.erase key)
        | some createdAt =>
            if (ttlSeconds : ℤ).bmod (2 ^ 64) < (now - createdAt).tdiv 1000000000 then
              (none, rows.erase key)
            else
              (some row.responseJson, rows.put { row with hits := row.hits + 1, lastUsedAt := now })

/-- `cache_query`: write the row, and keep those that were used last. -/
def cacheQuery {κ τ : Type} [DecidableEq κ] (rows : CacheTable κ τ) (key : κ) (response : τ)
    (now : ℤ) (maxEntries : ℕ) : CacheTable κ τ :=
  if maxEntries = 0 then rows
  else
    let rows := rows.put ⟨key, response, some now, now, ((rows.get key).map CacheRow.hits).getD 0⟩
    let kept := ((rows.rows.insertionSort fun a b ↦ b.lastUsedAt ≤ a.lastUsedAt).take
      maxEntries).map CacheRow.cacheKey
    rows.keep fun row ↦ row.cacheKey ∈ kept

/-! ## Calls and their accesses -/

/-- What the answers of a host depend on outside the store: the hash of a key,
the JSON of a response, and how texts are read and ordered. -/
structure Host (κ τ : Type) where
  digest : KeyMaterial → κ
  rankingVersion : String
  encode : CachedResponse → τ
  decode : τ → Option CachedResponse
  unicode : Unicode
  twoDecimals : UInt32 → List Char
  hashOrder : List (Evidence × ℚ) → List (Evidence × ℚ)
  decodePlan : List Char → Except String (List (List Char))

/-- The access that a call makes next, with what it holds. -/
inductive Stage (τ : Type) where
  | memoryRevision
  | expiry
  | lookup
  | confirmCorpus (text : τ)
  | confirmMemory (text : τ)
  | gather
  | expiryAgain (stages : Stages)
  | currentCorpus (stages : Stages)
  | currentMemory (stages : Stages)
  | store (stages : Stages)
  | returned (response : CachedResponse)

/-- A revision counter.  How many writes of what it counts have been committed, and
how many of them by `sync_import_entries` or `sync_resolve_conflict`, is kept for
the proofs only. -/
structure Version where
  revision : ℕ
  writes : ℕ
  imports : ℕ

/-- A write with the bump of its counter. -/
def Version.written (v : Version) : Version := ⟨v.revision + 1, v.writes + 1, v.imports⟩

/-- `apply_payload` and `apply_incoming` bump no counter. -/
def Version.imported (v : Version) : Version := ⟨v.revision, v.writes + 1, v.imports + 1⟩

/-- A call of `answer_scoped_with_memory_authorized`.  The versions that its
accesses have seen are kept for the proofs only. -/
structure Call (τ : Type) where
  engine : Engine
  request : AnswerRequest
  revision : ℕ
  memoryRevision : Option ℕ
  eligible : Bool
  stage : Stage τ
  corpusSeen : List Version
  memorySeen : List Version

/-- The store as the calls share it; what was stored and what was served is kept
for the proofs only. -/
structure Shared (κ τ : Type) where
  corpus : Version
  memories : Version
  rows : CacheTable κ τ
  calls : ℕ → Option (Call τ)
  stored : List (Call τ × Stages)
  served : List (Call τ × CachedResponse)

/-- What happens next: an access of a call, or a write of something else. -/
inductive Access where
  | begin (id : ℕ) (engine : Engine) (request : AnswerRequest)
  | proceed (id : ℕ) (expiring : Bool) (now : ℤ) (elapsedMs : ℕ)
  | readCorpus (id : ℕ)
  | readMemories (id : ℕ)
  | answer (id : ℕ) (stages : Stages)
  | fail (id : ℕ)
  | writeCorpus
  | writeMemories
  | imports (corpus memories : Bool)

section Machine

variable {κ τ : Type} (host : Host κ τ)

def Host.key (call : Call τ) : κ :=
  host.digest (keyMaterial host.rankingVersion call.engine call.request call.revision
    call.memoryRevision)

def Host.response (call : Call τ) (stages : Stages) : CachedResponse :=
  answerResponse host.unicode host.twoDecimals host.hashOrder host.decodePlan call.engine
    call.request call.revision call.memoryRevision stages

/-- A response as it is served from the cache. -/
def CachedResponse.served (response : CachedResponse) (request : AnswerRequest) (elapsedMs : ℕ) :
    CachedResponse :=
  { response with cached := true, query := request.query, latencyMs := elapsedMs }

def Shared.start : Shared κ τ := ⟨⟨0, 0, 0⟩, ⟨0, 0, 0⟩, Table.empty _, fun _ ↦ none, [], []⟩

def Shared.set (w : Shared κ τ) (id : ℕ) (call : Call τ) : Shared κ τ :=
  { w with calls := Function.update w.calls id (some call) }

def Call.at (call : Call τ) (stage : Stage τ) : Call τ := { call with stage := stage }

/-- An access that compares the corpus revision. -/
def Call.seesCorpus (call : Call τ) (w : Shared κ τ) : Call τ :=
  { call with corpusSeen := call.corpusSeen ++ [w.corpus] }

/-- An access that compares the memory revision, when the call has one. -/
def Call.seesMemory (call : Call τ) (w : Shared κ τ) : Call τ :=
  if call.memoryRevision.isSome then
    { call with memorySeen := call.memorySeen ++ [w.memories] }
  else call

/-- `cache_snapshot_is_current`, its second part. -/
def Call.memoryCurrent (call : Call τ) (w : Shared κ τ) : Bool :=
  call.memoryRevision.all fun revision ↦ w.memories.revision = revision

/-- No visible memory expires in the future, or the call reads none. -/
def Call.expirySafe (call : Call τ) (expiring : Bool) : Bool :=
  call.request.memoryAcl.isNone || !expiring

variable [DecidableEq κ]

/-- The next access of a call.  What it learns besides the shared state is
whether a visible memory will expire, the time, and how long it has taken. -/
def Shared.proceed (w : Shared κ τ) (id : ℕ) (call : Call τ) (expiring : Bool) (now : ℤ)
    (elapsedMs : ℕ) : Shared κ τ :=
  match call.stage with
  | .memoryRevision =>
      w.set id (if call.request.memoryAcl.isSome then
        { call with
          memoryRevision := some w.memories.revision
          memorySeen := [w.memories]
          stage := .expiry }
        else call.at .expiry)
  | .expiry => w.set id { call with eligible := call.expirySafe expiring, stage := .lookup }
  | .lookup =>
      if call.eligible then
        let found := cachedQuery w.rows (host.key call) call.engine.cacheTtlSeconds now
        { w with rows := found.2 }.set id (call.at (found.1.elim .gather .confirmCorpus))
      else w.set id (call.at .gather)
  | .confirmCorpus text =>
      w.set id ((call.seesCorpus w).at
        (if w.corpus.revision = call.revision then .confirmMemory text else .gather))
  | .confirmMemory text =>
      let call := call.seesMemory w
      if call.memoryCurrent w then
        match host.decode text with
        | some response =>
            let response := response.served call.request elapsedMs
            { w with served := w.served ++ [(call, response)] }.set id (call.at (.returned response))
        | none => { w with rows := w.rows.erase (host.key call) }.set id (call.at .gather)
      else w.set id (call.at .gather)
  | .gather => w
  | .expiryAgain stages =>
      w.set id (call.at (if call.eligible && call.expirySafe expiring then .currentCorpus stages
        else .returned (host.response call stages)))
  | .currentCorpus stages =>
      w.set id ((call.seesCorpus w).at
        (if w.corpus.revision = call.revision then .currentMemory stages
          else .returned (host.response call stages)))
  | .currentMemory stages =>
      w.set id ((call.seesMemory w).at
        (if call.memoryCurrent w && admits call.engine (host.response call stages) then
          .store stages
        else .returned (host.response call stages)))
  | .store stages =>
      { w with
        rows := cacheQuery w.rows (host.key call) (host.encode (host.response call stages)) now
          call.engine.cacheMaxEntries
        stored := w.stored ++ [(call, stages)] }.set id
          (call.at (.returned (host.response call stages)))
  | .returned _ => w

/-- One access.  One that a call does not make where it is changes nothing. -/
def Shared.next (w : Shared κ τ) : Access → Shared κ τ
  | .begin id engine request =>
      w.set id ⟨engine, request, w.corpus.revision, none, false, .memoryRevision,
        [w.corpus], []⟩
  | .proceed id expiring now elapsedMs =>
      (w.calls id).elim w fun call ↦ w.proceed host id call expiring now elapsedMs
  | .readCorpus id =>
      (w.calls id).elim w fun call ↦
        match call.stage with
        | .gather => w.set id (call.seesCorpus w)
        | _ => w
  | .readMemories id =>
      (w.calls id).elim w fun call ↦
        match call.stage with
        | .gather => w.set id (call.seesMemory w)
        | _ => w
  | .answer id stages =>
      (w.calls id).elim w fun call ↦
        match call.stage with
        | .gather => w.set id (call.at (.expiryAgain stages))
        | _ => w
  | .fail id => { w with calls := Function.update w.calls id none }
  | .writeCorpus => { w with corpus := w.corpus.written }
  | .writeMemories => { w with memories := w.memories.written }
  | .imports corpus memories =>
      { w with
        corpus := if corpus then w.corpus.imported else w.corpus
        memories := if memories then w.memories.imported else w.memories }

def Shared.Step (w : Shared κ τ) (access : Access) (w' : Shared κ τ) : Prop :=
  w.next host access = w'

end Machine

/-! ## What a call has seen -/

section Seen

variable {κ τ : Type} {host : Host κ τ} {w w' : Shared κ τ} {call : Call τ}

/-- Every write was an import or bumped the revision. -/
def Version.Counted (v : Version) : Prop := v.revision + v.imports = v.writes

theorem Version.Counted.written {v : Version} (h : v.Counted) : v.written.Counted := by
  rw [Counted] at h ⊢
  simp only [Version.written]
  omega

theorem Version.Counted.imported {v : Version} (h : v.Counted) : v.imported.Counted := by
  rw [Counted] at h ⊢
  simp only [Version.imported]
  omega

/-- All accesses of the call have seen the revisions of its key. -/
structure Call.Steady (call : Call τ) : Prop where
  corpus : ∀ v ∈ call.corpusSeen, v.revision = call.revision ∧ v.Counted
  memory : ∀ v ∈ call.memorySeen, call.memoryRevision = some v.revision ∧ v.Counted
  versioned : call.memoryRevision.isSome = call.request.memoryAcl.isSome

/-- The text is the response of a stored computation with the key of the call. -/
def FromStored (host : Host κ τ) (w : Shared κ τ) (call : Call τ) (text : τ) : Prop :=
  ∃ c ∈ w.stored, text = host.encode (host.response c.1 c.2) ∧ host.key c.1 = host.key call

/-- What a call knows where it is. -/
def Call.Holds (host : Host κ τ) (w : Shared κ τ) (call : Call τ) : Prop :=
  match call.stage with
  | .memoryRevision => call.memoryRevision = none ∧ call.memorySeen = []
  | .confirmCorpus text =>
      call.memoryRevision.isSome = call.request.memoryAcl.isSome ∧ FromStored host w call text
  | .confirmMemory text =>
      call.memoryRevision.isSome = call.request.memoryAcl.isSome ∧
        FromStored host w call text ∧ ∀ v ∈ call.corpusSeen, v.revision = call.revision ∧ v.Counted
  | .currentMemory _ =>
      call.memoryRevision.isSome = call.request.memoryAcl.isSome ∧
        ∀ v ∈ call.corpusSeen, v.revision = call.revision ∧ v.Counted
  | .store stages => call.Steady ∧ admits call.engine (host.response call stages) = true
  | _ => call.memoryRevision.isSome = call.request.memoryAcl.isSome

/-- The revisions have only gone up since the call began. -/
structure Call.Bounded (w : Shared κ τ) (call : Call τ) : Prop where
  begun : call.revision ≤ w.corpus.revision
  corpus : ∀ v ∈ call.corpusSeen,
    (call.revision ≤ v.revision ∧ v.revision ≤ w.corpus.revision) ∧ v.Counted
  memoryBegun : ∀ m ∈ call.memoryRevision, m ≤ w.memories.revision
  memory : ∀ v ∈ call.memorySeen,
    (∃ m ∈ call.memoryRevision, m ≤ v.revision ∧ v.revision ≤ w.memories.revision) ∧ v.Counted

theorem FromStored.mono {text : τ} (h : FromStored host w call text)
    (hstored : ∀ c ∈ w.stored, c ∈ w'.stored) : FromStored host w' call text := by
  obtain ⟨c, hc, htext, hkey⟩ := h
  exact ⟨c, hstored c hc, htext, hkey⟩

theorem Call.Bounded.mono (h : call.Bounded w) (hcorpus : w.corpus.revision ≤ w'.corpus.revision)
    (hmemory : w.memories.revision ≤ w'.memories.revision) : call.Bounded w' where
  begun := h.begun.trans hcorpus
  corpus v hv := by
    obtain ⟨⟨hle, hv⟩, hcounted⟩ := h.corpus v hv
    exact ⟨⟨hle, hv.trans hcorpus⟩, hcounted⟩
  memoryBegun m hm := (h.memoryBegun m hm).trans hmemory
  memory v hv := by
    obtain ⟨⟨m, hm, hle, hv⟩, hcounted⟩ := h.memory v hv
    exact ⟨⟨m, hm, hle, hv.trans hmemory⟩, hcounted⟩

theorem Call.Holds.mono (h : call.Holds host w) (hstored : ∀ c ∈ w.stored, c ∈ w'.stored) :
    call.Holds host w' := by
  rw [Call.Holds] at h ⊢
  split at h
  · exact h
  · exact ⟨h.1, h.2.mono hstored⟩
  · exact ⟨h.1, h.2.1.mono hstored, h.2.2⟩
  · exact h
  · exact h
  · exact h

theorem Call.Bounded.at (h : call.Bounded w) (stage : Stage τ) : (call.at stage).Bounded w :=
  ⟨h.begun, h.corpus, h.memoryBegun, h.memory⟩

theorem Call.Bounded.seesCorpus (h : call.Bounded w) (hcounted : w.corpus.Counted) :
    (call.seesCorpus w).Bounded w where
  begun := h.begun
  corpus v hv := by
    rcases List.mem_append.mp hv with hv | hv
    · exact h.corpus v hv
    · rw [List.mem_singleton.mp hv]
      exact ⟨⟨h.begun, le_rfl⟩, hcounted⟩
  memoryBegun := h.memoryBegun
  memory := h.memory

theorem Call.Bounded.seesMemory (h : call.Bounded w) (hcounted : w.memories.Counted) :
    (call.seesMemory w).Bounded w := by
  rw [Call.seesMemory]
  split
  · rename_i hsome
    refine ⟨h.begun, h.corpus, h.memoryBegun, fun v hv ↦ ?_⟩
    rcases List.mem_append.mp hv with hv | hv
    · exact h.memory v hv
    · obtain ⟨m, hm⟩ := Option.isSome_iff_exists.mp hsome
      rw [List.mem_singleton.mp hv]
      exact ⟨⟨m, hm, h.memoryBegun m hm, le_rfl⟩, hcounted⟩
  · exact h

/-- A call that sees its own revision again has seen no other. -/
theorem Call.Bounded.corpus_steady (h : call.Bounded w) (hcounted : w.corpus.Counted)
    (hcurrent : w.corpus.revision = call.revision) :
    ∀ v ∈ (call.seesCorpus w).corpusSeen, v.revision = call.revision ∧ v.Counted := by
  intro v hv
  obtain ⟨⟨hle, hv⟩, hseen⟩ := (h.seesCorpus hcounted).corpus v hv
  change call.revision ≤ v.revision at hle
  exact ⟨by omega, hseen⟩

theorem Call.Bounded.memory_steady (h : call.Bounded w) (hcounted : w.memories.Counted)
    (hcurrent : call.memoryCurrent w = true) :
    ∀ v ∈ (call.seesMemory w).memorySeen,
      call.memoryRevision = some v.revision ∧ v.Counted := by
  intro v hv
  obtain ⟨⟨m, hm, hle, hv⟩, hseen⟩ := (h.seesMemory hcounted).memory v hv
  have hrevision : call.memoryRevision = some m := by
    rw [Call.seesMemory] at hm
    split at hm <;> exact hm
  rw [Call.memoryCurrent, hrevision] at hcurrent
  have hcurrent : w.memories.revision = m := of_decide_eq_true hcurrent
  rw [hrevision]
  exact ⟨congrArg some (by omega), hseen⟩

/-! ## The invariant -/

/-- A row has the response of a stored computation under its key. -/
def RowFromStored (host : Host κ τ) (w : Shared κ τ) (row : CacheRow κ τ) : Prop :=
  ∃ c ∈ w.stored, row.cacheKey = host.key c.1 ∧
    row.responseJson = host.encode (host.response c.1 c.2)

/-- What was served is the response of a stored computation with the same key. -/
def ServedFromStored (host : Host κ τ) (w : Shared κ τ) (p : Call τ × CachedResponse) : Prop :=
  p.1.Steady ∧ ∃ c ∈ w.stored, host.key c.1 = host.key p.1 ∧
    ∃ elapsedMs, p.2 = (host.response c.1 c.2).served p.1.request elapsedMs

structure Sound (host : Host κ τ) (w : Shared κ τ) : Prop where
  counted : w.corpus.Counted ∧ w.memories.Counted
  calls : ∀ id call, w.calls id = some call → call.Bounded w ∧ call.Holds host w
  rows : ∀ row ∈ w.rows.rows, RowFromStored host w row
  stored : ∀ c ∈ w.stored, c.1.Steady ∧ admits c.1.engine (host.response c.1 c.2) = true
  served : ∀ p ∈ w.served, ServedFromStored host w p

theorem sound_start (host : Host κ τ) : Sound host Shared.start where
  counted := ⟨rfl, rfl⟩
  calls _ _ h := nomatch h
  rows _ h := absurd h List.not_mem_nil
  stored _ h := absurd h List.not_mem_nil
  served _ h := absurd h List.not_mem_nil

theorem Sound.set (h : Sound host w) {id : ℕ} (hbounded : call.Bounded w)
    (hholds : call.Holds host w) : Sound host (w.set id call) where
  counted := h.counted
  calls id' call' hcall := by
    change Function.update w.calls id (some call) id' = some call' at hcall
    by_cases hid : id' = id
    · subst hid
      rw [Function.update_self] at hcall
      obtain rfl := Option.some.inj hcall
      exact ⟨⟨hbounded.begun, hbounded.corpus, hbounded.memoryBegun, hbounded.memory⟩,
        hholds.mono fun _ hc ↦ hc⟩
    · rw [Function.update_of_ne hid] at hcall
      obtain ⟨hbounded, hholds⟩ := h.calls id' call' hcall
      exact ⟨⟨hbounded.begun, hbounded.corpus, hbounded.memoryBegun, hbounded.memory⟩,
        hholds.mono fun _ hc ↦ hc⟩
  rows := h.rows
  stored := h.stored
  served := h.served

/-- The calls after time has gone on. -/
theorem Sound.calls_of (h : Sound host w) (hcorpus : w.corpus.revision ≤ w'.corpus.revision)
    (hmemory : w.memories.revision ≤ w'.memories.revision) (hstored : ∀ c ∈ w.stored, c ∈ w'.stored)
    (hcalls : ∀ id call, w'.calls id = some call → w.calls id = some call) :
    ∀ id call, w'.calls id = some call → call.Bounded w' ∧ call.Holds host w' := by
  intro id call hcall
  obtain ⟨hbounded, hholds⟩ := h.calls id call (hcalls id call hcall)
  exact ⟨hbounded.mono hcorpus hmemory, hholds.mono hstored⟩

/-- Rows are dropped, or changed in what is not their response. -/
theorem Sound.withRows (h : Sound host w) {rows : CacheTable κ τ}
    (hrows : ∀ row ∈ rows.rows, RowFromStored host w row) : Sound host { w with rows := rows } where
  counted := h.counted
  calls := h.calls_of le_rfl le_rfl (fun _ hc ↦ hc) fun _ _ hcall ↦ hcall
  rows := hrows
  stored := h.stored
  served := h.served

theorem Sound.withServed (h : Sound host w) {p : Call τ × CachedResponse}
    (hp : ServedFromStored host w p) : Sound host { w with served := w.served ++ [p] } where
  counted := h.counted
  calls := h.calls_of le_rfl le_rfl (fun _ hc ↦ hc) fun _ _ hcall ↦ hcall
  rows := h.rows
  stored := h.stored
  served q hq := by
    rcases List.mem_append.mp hq with hq | hq
    · exact h.served q hq
    · rw [List.mem_singleton.mp hq]
      exact hp

theorem Sound.withStored (h : Sound host w) {c : Call τ × Stages} (hsteady : c.1.Steady)
    (hadmits : admits c.1.engine (host.response c.1 c.2) = true) :
    Sound host { w with stored := w.stored ++ [c] } where
  counted := h.counted
  calls := h.calls_of le_rfl le_rfl (fun _ hc ↦ List.mem_append_left _ hc) fun _ _ hcall ↦ hcall
  rows row hrow := by
    obtain ⟨c', hc', hrow⟩ := h.rows row hrow
    exact ⟨c', List.mem_append_left _ hc', hrow⟩
  stored c' hc' := by
    rcases List.mem_append.mp hc' with hc' | hc'
    · exact h.stored c' hc'
    · rw [List.mem_singleton.mp hc']
      exact ⟨hsteady, hadmits⟩
  served p hp := by
    obtain ⟨hsteady, c', hc', hp⟩ := h.served p hp
    exact ⟨hsteady, c', List.mem_append_left _ hc', hp⟩

/-- Something else is written, or a call is given up. -/
theorem Sound.withRevisions (h : Sound host w) (hcorpus : w.corpus.revision ≤ w'.corpus.revision)
    (hmemory : w.memories.revision ≤ w'.memories.revision)
    (hcounted : w'.corpus.Counted ∧ w'.memories.Counted) (hrows : w'.rows = w.rows)
    (hstored : w'.stored = w.stored) (hserved : w'.served = w.served)
    (hcalls : ∀ id call, w'.calls id = some call → w.calls id = some call) : Sound host w' where
  counted := hcounted
  calls := h.calls_of hcorpus hmemory (by rw [hstored]; exact fun _ hc ↦ hc) hcalls
  rows := by
    rw [hrows]
    simp only [RowFromStored, hstored]
    exact h.rows
  stored := by rw [hstored]; exact h.stored
  served := by
    rw [hserved]
    simp only [ServedFromStored, hstored]
    exact h.served

/-! ## Every access keeps it -/

variable [DecidableEq κ]

/-- A look at the cache changes no response. -/
theorem cachedQuery_spec (rows : CacheTable κ τ) (key : κ)
    (ttlSeconds : ℕ) (now : ℤ) :
    (∀ row' ∈ (cachedQuery rows key ttlSeconds now).2.rows, ∃ row ∈ rows.rows,
        row'.cacheKey = row.cacheKey ∧ row'.responseJson = row.responseJson) ∧
      ∀ text, (cachedQuery rows key ttlSeconds now).1 = some text →
        ∃ row ∈ rows.rows, row.cacheKey = key ∧ row.responseJson = text := by
  have hsame : ∀ row' ∈ rows.rows, ∃ row ∈ rows.rows,
      row'.cacheKey = row.cacheKey ∧ row'.responseJson = row.responseJson :=
    fun row hrow ↦ ⟨row, hrow, rfl, rfl⟩
  have herased : ∀ row' ∈ (rows.erase key).rows, ∃ row ∈ rows.rows,
      row'.cacheKey = row.cacheKey ∧ row'.responseJson = row.responseJson :=
    fun row hrow ↦ ⟨row, (Iff.mp Table.mem_erase hrow).1, rfl, rfl⟩
  rw [cachedQuery]
  split
  · exact ⟨hsame, by simp⟩
  · split
    · exact ⟨hsame, by simp⟩
    · rename_i row hget
      obtain ⟨hrow, hkey⟩ := Iff.mp Table.get_eq_some_iff hget
      split
      · exact ⟨herased, by simp⟩
      · split
        · exact ⟨herased, by simp⟩
        · refine ⟨fun row' hrow' ↦ ?_, fun text h ↦ ⟨row, hrow, hkey, Option.some.inj h⟩⟩
          rcases Iff.mp Table.mem_put hrow' with rfl | ⟨hrow', -⟩
          · exact ⟨row, hrow, rfl, rfl⟩
          · exact hsame row' hrow'

theorem mem_cacheQuery {rows : CacheTable κ τ} {key : κ} {response : τ}
    {now : ℤ} {maxEntries : ℕ} {row : CacheRow κ τ}
    (h : row ∈ (cacheQuery rows key response now maxEntries).rows) :
    row ∈ rows.rows ∨ (row.cacheKey = key ∧ row.responseJson = response) := by
  rw [cacheQuery] at h
  split at h
  · exact .inl h
  · rcases Iff.mp Table.mem_put (Iff.mp Table.mem_keep h).1 with rfl | ⟨hrow, -⟩
    · exact .inr ⟨rfl, rfl⟩
    · exact .inl hrow

omit [DecidableEq κ] in
theorem Call.exists_seesMemory (call : Call τ) (w : Shared κ τ) :
    ∃ seen, call.seesMemory w = { call with memorySeen := seen } := by
  rw [Call.seesMemory]
  split
  · exact ⟨_, rfl⟩
  · exact ⟨call.memorySeen, rfl⟩

omit [DecidableEq κ] in
theorem Call.memoryCurrent_seesMemory (call : Call τ) (w : Shared κ τ) :
    (call.seesMemory w).memoryCurrent w = call.memoryCurrent w := by
  obtain ⟨seen, hseen⟩ := call.exists_seesMemory w
  rw [hseen]
  rfl

omit [DecidableEq κ] in
/-- The call reads the revision of the memories when it will read memories. -/
theorem Sound.memoryRevision (h : Sound host w) {id : ℕ} (hcall : w.calls id = some call)
    (hstage : call.stage = .memoryRevision) :
    Sound host (w.set id (if call.request.memoryAcl.isSome then
      { call with
        memoryRevision := some w.memories.revision
        memorySeen := [w.memories]
        stage := .expiry }
      else call.at .expiry)) := by
  obtain ⟨hbounded, hholds⟩ := h.calls id call hcall
  rw [Call.Holds, hstage] at hholds
  split
  · rename_i hacl
    refine h.set ⟨hbounded.begun, hbounded.corpus, ?_, ?_⟩ hacl.symm
    · rintro m hm
      rw [← Option.some.inj hm]
    · intro v hv
      rw [List.mem_singleton.mp hv]
      exact ⟨⟨_, rfl, le_rfl, le_rfl⟩, h.counted.2⟩
  · rename_i hacl
    refine h.set (hbounded.at _) ?_
    change call.memoryRevision.isSome = call.request.memoryAcl.isSome
    rw [hholds.1]
    exact (Bool.eq_false_iff.mpr hacl).symm

/-- What the call finds in the cache was stored. -/
theorem Sound.lookup (h : Sound host w) {id : ℕ} (hcall : w.calls id = some call)
    (hstage : call.stage = .lookup) (now : ℤ) :
    let found := cachedQuery w.rows (host.key call) call.engine.cacheTtlSeconds now
    Sound host ({ w with rows := found.2 }.set id
      (call.at (found.1.elim .gather .confirmCorpus))) := by
  obtain ⟨hbounded, hholds⟩ := h.calls id call hcall
  rw [Call.Holds, hstage] at hholds
  obtain ⟨hkept, hfound⟩ := cachedQuery_spec w.rows (host.key call) call.engine.cacheTtlSeconds now
  have hrows : ∀ row ∈ (cachedQuery w.rows (host.key call) call.engine.cacheTtlSeconds
      now).2.rows, RowFromStored host w row := by
    intro row' hrow'
    obtain ⟨row, hrow, hkey, htext⟩ := hkept row' hrow'
    rw [RowFromStored, hkey, htext]
    exact h.rows row hrow
  refine (h.withRows hrows).set ((hbounded.at _).mono le_rfl le_rfl) ?_
  cases htext : (cachedQuery w.rows (host.key call) call.engine.cacheTtlSeconds now).1 with
  | none => exact hholds
  | some text =>
      obtain ⟨row, hrow, hkey, rfl⟩ := hfound text htext
      obtain ⟨c, hc, hkey', htext'⟩ := h.rows row hrow
      exact ⟨hholds, c, hc, htext', hkey'.symm.trans hkey⟩

omit [DecidableEq κ] in
/-- A call that sees both of its revisions again has seen no other. -/
theorem Sound.steady_of_confirmed (h : Sound host w) {id : ℕ} (hcall : w.calls id = some call)
    {text : τ} (hstage : call.stage = .confirmMemory text)
    (hcurrent : call.memoryCurrent w = true) : (call.seesMemory w).Steady := by
  obtain ⟨hbounded, hholds⟩ := h.calls id call hcall
  rw [Call.Holds, hstage] at hholds
  obtain ⟨hversioned, -, hcorpus⟩ := hholds
  obtain ⟨seen, hseen⟩ := call.exists_seesMemory w
  have hmemory := hbounded.memory_steady h.counted.2 hcurrent
  rw [hseen] at hmemory ⊢
  exact ⟨hcorpus, hmemory, hversioned⟩

omit [DecidableEq κ] in
/-- What the call serves was stored under its key. -/
theorem Sound.serve (hdecode : ∀ response, host.decode (host.encode response) = some response)
    (h : Sound host w) {id : ℕ} (hcall : w.calls id = some call) {text : τ}
    (hstage : call.stage = .confirmMemory text) (hcurrent : call.memoryCurrent w = true)
    {response : CachedResponse} (hdecoded : host.decode text = some response) (elapsedMs : ℕ) :
    let served := response.served (call.seesMemory w).request elapsedMs
    Sound host ({ w with served := w.served ++ [(call.seesMemory w, served)] }.set id
      ((call.seesMemory w).at (.returned served))) := by
  have hsteady := h.steady_of_confirmed hcall hstage hcurrent
  obtain ⟨hbounded, hholds⟩ := h.calls id call hcall
  rw [Call.Holds, hstage] at hholds
  obtain ⟨-, ⟨c, hc, rfl, hkey⟩, -⟩ := hholds
  rw [hdecode] at hdecoded
  obtain rfl := Option.some.inj hdecoded
  have hserved : ServedFromStored host w (call.seesMemory w,
      (host.response c.1 c.2).served (call.seesMemory w).request elapsedMs) := by
    refine ⟨hsteady, c, hc, ?_, elapsedMs, rfl⟩
    obtain ⟨seen, hseen⟩ := call.exists_seesMemory w
    rw [hseen]
    exact hkey
  exact (h.withServed hserved).set (((hbounded.seesMemory h.counted.2).at _).mono le_rfl le_rfl)
    hsteady.versioned

/-- The call checks the memories and serves what it has found, or drops it. -/
theorem Sound.confirmMemory (hdecode : ∀ response, host.decode (host.encode response) = some response)
    (h : Sound host w) {id : ℕ} (hcall : w.calls id = some call) {text : τ}
    (hstage : call.stage = .confirmMemory text) (expiring : Bool) (now : ℤ) (elapsedMs : ℕ) :
    Sound host (w.proceed host id call expiring now elapsedMs) := by
  have hversioned : (call.seesMemory w).memoryRevision.isSome =
      (call.seesMemory w).request.memoryAcl.isSome := by
    have hholds := (h.calls id call hcall).2
    rw [Call.Holds, hstage] at hholds
    obtain ⟨seen, hseen⟩ := call.exists_seesMemory w
    rw [hseen]
    exact hholds.1
  have hbounded := (h.calls id call hcall).1.seesMemory h.counted.2
  rw [Shared.proceed, hstage]
  dsimp only
  split
  · rename_i hcurrent
    rw [Call.memoryCurrent_seesMemory] at hcurrent
    split
    · rename_i response hdecoded
      exact h.serve hdecode hcall hstage hcurrent hdecoded elapsedMs
    · refine (h.withRows fun row hrow ↦ ?_).set ((hbounded.at _).mono le_rfl le_rfl) hversioned
      exact h.rows row (Iff.mp Table.mem_erase hrow).1
  · exact h.set (hbounded.at _) hversioned

omit [DecidableEq κ] in
/-- A call that sees its revisions again before it stores has seen no other. -/
theorem Sound.currentMemory (h : Sound host w) {id : ℕ} (hcall : w.calls id = some call)
    {stages : Stages} (hstage : call.stage = .currentMemory stages) :
    Sound host (w.set id ((call.seesMemory w).at
      (if call.memoryCurrent w && admits call.engine (host.response call stages) then
        .store stages
      else .returned (host.response call stages)))) := by
  obtain ⟨hbounded, hholds⟩ := h.calls id call hcall
  rw [Call.Holds, hstage] at hholds
  obtain ⟨seen, hseen⟩ := call.exists_seesMemory w
  refine h.set ((hbounded.seesMemory h.counted.2).at _) ?_
  split
  · rename_i hcurrent
    obtain ⟨hcurrent, hadmits⟩ := Bool.and_eq_true_iff.mp hcurrent
    have hmemory := hbounded.memory_steady h.counted.2 hcurrent
    rw [hseen] at hmemory ⊢
    exact ⟨⟨hholds.2, hmemory, hholds.1⟩, hadmits⟩
  · rw [hseen]
    exact hholds.1

/-- The call writes its response, under its key. -/
theorem Sound.store (h : Sound host w) {id : ℕ} (hcall : w.calls id = some call)
    {stages : Stages} (hstage : call.stage = .store stages) (now : ℤ) :
    Sound host ({ w with
      rows := cacheQuery w.rows (host.key call) (host.encode (host.response call stages)) now
        call.engine.cacheMaxEntries
      stored := w.stored ++ [(call, stages)] }.set id
        (call.at (.returned (host.response call stages)))) := by
  obtain ⟨hbounded, hholds⟩ := h.calls id call hcall
  rw [Call.Holds, hstage] at hholds
  obtain ⟨hsteady, hadmits⟩ := hholds
  have hstored := h.withStored (c := (call, stages)) hsteady hadmits
  refine (hstored.withRows fun row hrow ↦ ?_).set ((hbounded.at _).mono le_rfl le_rfl)
    hsteady.versioned
  rcases mem_cacheQuery hrow with hrow | ⟨hkey, htext⟩
  · exact hstored.rows row hrow
  · exact ⟨(call, stages), List.mem_append_right _ List.mem_cons_self, hkey, htext⟩

/-- The next access of a call keeps the invariant. -/
theorem Sound.proceed (hdecode : ∀ response, host.decode (host.encode response) = some response)
    (h : Sound host w) {id : ℕ} (hcall : w.calls id = some call)
    (expiring : Bool) (now : ℤ) (elapsedMs : ℕ) :
    Sound host (w.proceed host id call expiring now elapsedMs) := by
  obtain ⟨hbounded, hholds⟩ := h.calls id call hcall
  rw [Call.Holds] at hholds
  rw [Shared.proceed]
  cases hstage : call.stage with
  | memoryRevision => exact h.memoryRevision hcall hstage
  | expiry =>
      rw [hstage] at hholds
      exact h.set ⟨hbounded.begun, hbounded.corpus, hbounded.memoryBegun, hbounded.memory⟩ hholds
  | lookup =>
      rw [hstage] at hholds
      dsimp only
      split
      · exact h.lookup hcall hstage now
      · exact h.set (hbounded.at _) hholds
  | confirmCorpus text =>
      rw [hstage] at hholds
      refine h.set ((hbounded.seesCorpus h.counted.1).at _) ?_
      split
      · rename_i hcurrent
        exact ⟨hholds.1, hholds.2, hbounded.corpus_steady h.counted.1 hcurrent⟩
      · exact hholds.1
  | confirmMemory text =>
      have hnext := h.confirmMemory hdecode hcall hstage expiring now elapsedMs
      rwa [Shared.proceed, hstage] at hnext
  | gather => exact h
  | expiryAgain stages =>
      rw [hstage] at hholds
      refine h.set (hbounded.at _) ?_
      split <;> exact hholds
  | currentCorpus stages =>
      rw [hstage] at hholds
      refine h.set ((hbounded.seesCorpus h.counted.1).at _) ?_
      split
      · rename_i hcurrent
        exact ⟨hholds, hbounded.corpus_steady h.counted.1 hcurrent⟩
      · exact hholds
  | currentMemory stages => exact h.currentMemory hcall hstage
  | store stages => exact h.store hcall hstage now
  | returned response => exact h

omit [DecidableEq κ] in
/-- A call of the shared state, after an access that keeps the invariant. -/
theorem Sound.elim (h : Sound host w) {id : ℕ} {f : Call τ → Shared κ τ}
    (hf : ∀ call, w.calls id = some call → Sound host (f call)) :
    Sound host ((w.calls id).elim w f) := by
  cases hcall : w.calls id with
  | none => exact h
  | some call => exact hf call hcall

theorem Sound.next (hdecode : ∀ response, host.decode (host.encode response) = some response)
    (h : Sound host w) (access : Access) : Sound host (w.next host access) := by
  cases access with
  | begin id engine request =>
      refine h.set ⟨le_rfl, fun v hv ↦ ?_, by simp, by simp⟩ ⟨rfl, rfl⟩
      rw [List.mem_singleton.mp hv]
      exact ⟨⟨le_rfl, le_rfl⟩, h.counted.1⟩
  | proceed id expiring now elapsedMs =>
      exact h.elim fun call hcall ↦ h.proceed hdecode hcall expiring now elapsedMs
  | readCorpus id =>
      refine h.elim fun call hcall ↦ ?_
      obtain ⟨hbounded, hholds⟩ := h.calls id call hcall
      rw [Call.Holds] at hholds
      split
      · rename_i hstage
        rw [hstage] at hholds
        refine h.set (hbounded.seesCorpus h.counted.1) ?_
        rw [Call.Holds, Call.seesCorpus, hstage]
        exact hholds
      · exact h
  | readMemories id =>
      refine h.elim fun call hcall ↦ ?_
      obtain ⟨hbounded, hholds⟩ := h.calls id call hcall
      obtain ⟨seen, hseen⟩ := call.exists_seesMemory w
      rw [Call.Holds] at hholds
      split
      · rename_i hstage
        rw [hstage] at hholds
        refine h.set (hbounded.seesMemory h.counted.2) ?_
        rw [hseen, Call.Holds, hstage]
        exact hholds
      · exact h
  | answer id stages =>
      refine h.elim fun call hcall ↦ ?_
      obtain ⟨hbounded, hholds⟩ := h.calls id call hcall
      rw [Call.Holds] at hholds
      split
      · rename_i hstage
        rw [hstage] at hholds
        exact h.set (hbounded.at _) hholds
      · exact h
  | fail id =>
      refine h.withRevisions le_rfl le_rfl h.counted rfl rfl rfl fun id' call hcall ↦ ?_
      change Function.update w.calls id none id' = some call at hcall
      by_cases hid : id' = id
      · rw [hid, Function.update_self] at hcall
        cases hcall
      · rwa [Function.update_of_ne hid] at hcall
  | writeCorpus =>
      exact h.withRevisions (Nat.le_succ _) le_rfl ⟨h.counted.1.written, h.counted.2⟩ rfl rfl rfl
        fun _ _ hcall ↦ hcall
  | writeMemories =>
      exact h.withRevisions le_rfl (Nat.le_succ _) ⟨h.counted.1, h.counted.2.written⟩ rfl rfl rfl
        fun _ _ hcall ↦ hcall
  | imports corpus memories =>
      have hsame : ∀ (written : Bool) (v : Version), v.revision ≤
          (if written then v.imported else v).revision := by
        rintro (_ | _) v <;> exact le_rfl
      have hcounted : ∀ (written : Bool) {v : Version}, v.Counted →
          (if written then v.imported else v).Counted := by
        rintro (_ | _) v hv
        · exact hv
        · exact hv.imported
      exact h.withRevisions (hsame corpus w.corpus) (hsame memories w.memories)
        ⟨hcounted corpus h.counted.1, hcounted memories h.counted.2⟩ rfl rfl rfl
        fun _ _ hcall ↦ hcall

theorem sound_of_run (hdecode : ∀ response, host.decode (host.encode response) = some response)
    {ok : Shared κ τ → Access → Prop} (hrun : Transition.Run (Shared.Step host) ok Shared.start w) :
    Sound host w := by
  refine Transition.Run.preserves (I := Sound host) ?_ hrun (sound_start host)
  rintro w access w' h - rfl
  exact h.next hdecode access

/-! ## What is served -/

/-- Two calls ask the same question of the same configuration with the same
rights. -/
structure SameQuestion (c call : Call τ) : Prop where
  query : normalizeQueryForCache c.request.query = normalizeQueryForCache call.request.query
  project : c.request.project = call.request.project
  source : c.request.source = call.request.source
  principalAcl : ∀ label, label ∈ c.request.principalAcl ↔ label ∈ call.request.principalAcl
  readsMemory : c.request.memoryAcl.isSome = call.request.memoryAcl.isSome
  memoryAcl : ∀ label, (∃ acl ∈ c.request.memoryAcl, label ∈ acl) ↔
    ∃ acl ∈ call.request.memoryAcl, label ∈ acl
  memoryOwner : c.request.memoryOwner = call.request.memoryOwner
  modelConfigured : c.engine.modelConfigured = call.engine.modelConfigured
  model : c.engine.modelConfigured = true → c.engine.model = call.engine.model ∧
    c.engine.baseUrl = call.engine.baseUrl
  fingerprint : c.engine.fingerprint = call.engine.fingerprint
  retrievalTuning : c.engine.retrievalTuning = call.engine.retrievalTuning
  limits : c.engine.maxPlannedQueries = call.engine.maxPlannedQueries ∧
    c.engine.retrievalLimit = call.engine.retrievalLimit ∧
    c.engine.resultLimit = call.engine.resultLimit ∧
    c.engine.contextTokens = call.engine.contextTokens ∧
    c.engine.outputTokens = call.engine.outputTokens ∧
    c.engine.answerTimeoutSeconds = call.engine.answerTimeoutSeconds

theorem mem_iff_of_orderedSet_eq {l l' : List String} (h : l.orderedSet = l'.orderedSet)
    (label : String) : label ∈ l ↔ label ∈ l' := by
  rw [← List.mem_orderedSet, h, List.mem_orderedSet]

theorem exists_mem_iff (acl : Option (List String)) (label : String) :
    (∃ labels ∈ acl, label ∈ labels) ↔ label ∈ acl.getD [] := by
  cases acl with
  | none => simp
  | some labels => simp

omit [DecidableEq κ] in
/-- Equal keys are keys of the same question at the same revisions. -/
theorem sameQuestion_of_key (hdigest : Function.Injective host.digest) {c call : Call τ}
    (hc : c.Steady) (hcall : call.Steady) (h : host.key c = host.key call) :
    SameQuestion c call ∧ c.revision = call.revision ∧ c.memoryRevision = call.memoryRevision := by
  have hmaterial := hdigest h
  simp only [keyMaterial, KeyMaterial.mk.injEq, true_and] at hmaterial
  obtain ⟨hrevision, hmemoryRevision, hmodel, hmodelUrl, hembedding, htuning, hquery, hproject,
    hsource, hacl, hmemoryAcl, howner, hplanned, hretrieval, hresult, hcontext, houtput, htimeout⟩ :=
    hmaterial
  have hconfigured : c.engine.modelConfigured = call.engine.modelConfigured := by
    cases hfirst : c.engine.modelConfigured <;> cases hsecond : call.engine.modelConfigured <;>
      simp [hfirst, hsecond] at hmodel ⊢
  refine ⟨⟨hquery, hproject, hsource, mem_iff_of_orderedSet_eq hacl, ?_, fun label ↦ ?_, howner,
    hconfigured, fun hset ↦ ?_, hembedding, htuning, hplanned, hretrieval, hresult, hcontext,
    houtput, htimeout⟩, hrevision, hmemoryRevision⟩
  · rw [← hc.versioned, ← hcall.versioned, hmemoryRevision]
  · rw [exists_mem_iff, exists_mem_iff]
    exact mem_iff_of_orderedSet_eq hmemoryAcl label
  · rw [hset] at hconfigured
    rw [hset, ← hconfigured] at hmodel hmodelUrl
    exact ⟨Option.some.inj hmodel, Option.some.inj hmodelUrl⟩

omit [DecidableEq κ] in
theorem undegraded_of_admits {call : Call τ} {stages : Stages}
    (h : admits call.engine (host.response call stages) = true)
    (hmodel : call.engine.modelConfigured = true) :
    (host.response call stages).mode = .synthesized ∧
      ∀ outcome ∈ stages.searches.getD [], outcome.degraded = false := by
  rw [admits, hmodel, Bool.not_true, Bool.false_or, Bool.and_eq_true, Bool.not_eq_true'] at h
  refine ⟨of_decide_eq_true h.1, fun outcome hmem ↦ ?_⟩
  have hdegraded : (stages.searches.getD []).any SearchOutcome.degraded = false := h.2
  simpa using List.any_eq_false.mp hdegraded outcome hmem

/-- All writes between these two accesses, whichever came first, were imports. -/
def Version.OnlyImports (v v' : Version) : Prop := v.writes + v'.imports = v'.writes + v.imports

theorem Version.onlyImports_of_revision {v v' : Version} (hv : v.Counted) (hv' : v'.Counted)
    (h : v.revision = v'.revision) : v.OnlyImports v' := by
  rw [Counted] at hv hv'
  rw [OnlyImports]
  omega

/-- Whatever is served from the cache, in any interleaving of calls and writes,
was stored by a call that asked the same question with the same rights at the
same revisions.  All accesses of both calls saw these revisions, so that no write
but imports was committed between any two of them; and when a model is configured
the answer is the model's, and no search it rests on had fallen back. -/
theorem cache_sound (hdigest : Function.Injective host.digest)
    (hdecode : ∀ response, host.decode (host.encode response) = some response)
    {ok : Shared κ τ → Access → Prop} (hrun : Transition.Run (Shared.Step host) ok Shared.start w)
    {call : Call τ} {response : CachedResponse} (h : (call, response) ∈ w.served) :
    call.Steady ∧ ∃ c stages, (c, stages) ∈ w.stored ∧ c.Steady ∧ SameQuestion c call ∧
      c.revision = call.revision ∧ c.memoryRevision = call.memoryRevision ∧
      (∀ v ∈ c.corpusSeen ++ call.corpusSeen, ∀ v' ∈ c.corpusSeen ++ call.corpusSeen,
        v.OnlyImports v') ∧
      (∀ v ∈ c.memorySeen ++ call.memorySeen, ∀ v' ∈ c.memorySeen ++ call.memorySeen,
        v.OnlyImports v') ∧
      (∃ elapsedMs, response = (host.response c stages).served call.request elapsedMs) ∧
      (c.engine.modelConfigured = true → (host.response c stages).mode = .synthesized ∧
        ∀ outcome ∈ stages.searches.getD [], outcome.degraded = false) := by
  have hsound := sound_of_run hdecode hrun
  obtain ⟨hcall, ⟨c, stages⟩, hmem, hkey, hresponse⟩ := hsound.served _ h
  obtain ⟨hc, hadmits⟩ := hsound.stored _ hmem
  obtain ⟨hquestion, hrevision, hmemory⟩ := sameQuestion_of_key hdigest hc hcall hkey
  have hcorpusSeen : ∀ v ∈ c.corpusSeen ++ call.corpusSeen,
      v.revision = call.revision ∧ v.Counted := by
    intro v hv
    rcases List.mem_append.mp hv with hv | hv
    · exact ⟨(hc.corpus v hv).1.trans hrevision, (hc.corpus v hv).2⟩
    · exact hcall.corpus v hv
  have hmemorySeen : ∀ v ∈ c.memorySeen ++ call.memorySeen,
      call.memoryRevision = some v.revision ∧ v.Counted := by
    intro v hv
    rcases List.mem_append.mp hv with hv | hv
    · exact ⟨hmemory.symm.trans (hc.memory v hv).1, (hc.memory v hv).2⟩
    · exact hcall.memory v hv
  refine ⟨hcall, c, stages, hmem, hc, hquestion, hrevision, hmemory, ?_, ?_, hresponse,
    undegraded_of_admits hadmits⟩
  · intro v hv v' hv'
    exact Version.onlyImports_of_revision (hcorpusSeen v hv).2 (hcorpusSeen v' hv').2
      ((hcorpusSeen v hv).1.trans (hcorpusSeen v' hv').1.symm)
  · intro v hv v' hv'
    exact Version.onlyImports_of_revision (hmemorySeen v hv).2 (hmemorySeen v' hv').2
      (Option.some.inj ((hmemorySeen v hv).1.symm.trans (hmemorySeen v' hv').1))

end Seen

/-! ## A question asked twice -/

/-- A host that keeps keys and responses as they are. -/
def plainHost : Host KeyMaterial CachedResponse where
  digest := id
  rankingVersion := "v1"
  encode := id
  decode := some
  unicode := Unicode.ascii
  twoDecimals := fun _ ↦ []
  hashOrder := id
  decodePlan := fun _ ↦ .ok []

def plainEngine : Engine where
  modelConfigured := false
  model := "m"
  baseUrl := "http://localhost"
  fingerprint := "f"
  retrievalTuning := ⟨4, 0, 0, 0, 0, false⟩
  maxPlannedQueries := 3
  retrievalLimit := 10
  resultLimit := 5
  contextTokens := 256
  outputTokens := 256
  answerTimeoutSeconds := 30
  cacheTtlSeconds := 60
  cacheMaxEntries := 10

def plainRequest (query : String) : AnswerRequest :=
  ⟨query.toList, none, none, ["work"], none, false⟩

def plainStages : Stages := ⟨.late, some [.found [noteRow "x"] false none], .ok [], fun _ ↦ .late, 5⟩

/-- A question is answered, and asked again with other spaces after a document has
been imported. -/
def askedTwice : List Access :=
  [.begin 0 plainEngine (plainRequest "a  b"), .proceed 0 false 0 0, .proceed 0 false 0 0,
    .proceed 0 false 0 0, .readCorpus 0, .answer 0 plainStages, .proceed 0 false 0 0,
    .proceed 0 false 0 0, .proceed 0 false 0 0, .proceed 0 false 0 0, .imports true false,
    .begin 1 plainEngine (plainRequest " a b"), .proceed 1 false 9 0, .proceed 1 false 9 0,
    .proceed 1 false 9 0, .proceed 1 false 9 0, .proceed 1 false 9 1]

theorem cache_sound_twice : ∃ (w : Shared KeyMaterial CachedResponse) (p : _ × CachedResponse),
    p ∈ w.served ∧ ∃ c stages, (c, stages) ∈ w.stored ∧ SameQuestion c p.1 := by
  have hserved : (askedTwice.foldl (Shared.next plainHost) Shared.start).served.length = 1 := by
    decide +kernel
  obtain ⟨p, hp⟩ := List.length_eq_one_iff.mp hserved
  have hmem : p ∈ (askedTwice.foldl (Shared.next plainHost) Shared.start).served := by
    rw [hp]
    exact List.mem_cons_self
  have hrun : Transition.Run (Shared.Step plainHost) (fun _ _ ↦ True) Shared.start
      (askedTwice.foldl (Shared.next plainHost) Shared.start) := by
    refine Transition.Run.of_along (fun _ _ ↦ rfl) ?_
    simp [Transition.Along, askedTwice]
  obtain ⟨-, c, stages, hstored, -, hquestion, -⟩ :=
    cache_sound Function.injective_id (fun _ ↦ rfl) hrun hmem
  exact ⟨_, p, hmem, c, stages, hstored, hquestion⟩

end Answer

end Cortana
