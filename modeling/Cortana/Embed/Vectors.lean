import Cortana.Embed.Sections

/-!
# Where the vectors come from

Every vector a call carries or returns, and every row of the cache, is what a
provider returned for exactly that text.
-/

namespace Cortana

open EmbedState

variable {e : CachedEmbedder} {s s' : EmbedState} {call call' : Call} {action : EmbedAction}

/-! ## What the calls carry -/

/-- The texts a batch found in no cache, before it takes the lock. -/
def BatchPc.missing : BatchPc → List String
  | scanning _ missing | entering missing => missing
  | _ => []

/-- The texts with vectors that a leader carries to its end. -/
def LeaderPc.pairs : LeaderPc → List (String × Embedding)
  | writing _ pairs rest => pairs ++ rest
  | cleaning _ (.ok pairs) | ended (.ok pairs) => pairs
  | _ => []

def BatchPc.pairs : BatchPc → List (String × Embedding)
  | joining _ leader => leader.pairs
  | _ => []

def SinglePc.vector : SinglePc → Option Embedding
  | writing vector | pruning vector | cleaning (.ok vector) => some vector
  | _ => none

/-- One vector for each text, where there is one, and the provider's for it. -/
def Answers (e : CachedEmbedder) (provided : List (String × String × Embedding))
    (input : List String) (output : List (Option Embedding)) : Prop :=
  output.length = input.length ∧ ∀ (n : ℕ) (text : String) (vector : Embedding),
    input[n]? = some text → output[n]? = some (some vector) →
      (e.fingerprint, text, vector) ∈ provided

/-- Every vector a call carries is the provider's for its text. -/
def Call.Sound (e : CachedEmbedder) (provided : List (String × String × Embedding)) :
    Call → Prop
  | single text pc => ∀ vector ∈ pc.vector, (e.fingerprint, text, vector) ∈ provided
  | batch input resolved output pc =>
      (∀ p ∈ resolved, (e.fingerprint, p.1, p.2) ∈ provided) ∧
        Answers e provided input output ∧ pc.missing.Nodup ∧
        ∀ p ∈ pc.pairs, (e.fingerprint, p.1, p.2) ∈ provided
  | returned input (.ok vectors) => Answers e provided input (vectors.map some)
  | _ => True

/-- Every row of the cache is some provider's vector for the text it is
addressed by. -/
def CacheSound (e : CachedEmbedder) (s : EmbedState) : Prop :=
  ∀ row ∈ s.cache, ∀ text, row.contentHash = e.hexDigest text →
    (row.fingerprint, text, row.embedding) ∈ s.provided

theorem Answers.mono {provided provided' : List (String × String × Embedding)}
    {input : List String} {output : List (Option Embedding)}
    (h : Answers e provided input output) (hle : ∀ p ∈ provided, p ∈ provided') :
    Answers e provided' input output :=
  ⟨h.1, fun n text vector hn ho ↦ hle _ (h.2 n text vector hn ho)⟩

theorem Answers.set {provided : List (String × String × Embedding)} {input : List String}
    {output : List (Option Embedding)} {index : ℕ} {text : String} {vector : Embedding}
    (h : Answers e provided input output) (hindex : input[index]? = some text)
    (hvector : (e.fingerprint, text, vector) ∈ provided) :
    Answers e provided input (output.set index (some vector)) := by
  refine ⟨by simpa using h.1, fun n text' vector' hn ho ↦ ?_⟩
  rw [List.getElem?_set] at ho
  split_ifs at ho with heq hlt
  · subst heq
    rw [hindex, Option.some.injEq] at hn
    simp only [Option.some.injEq] at ho
    exact hn ▸ ho ▸ hvector
  · exact h.2 n text' vector' hn ho

theorem answers_replicate (provided : List (String × String × Embedding)) (input : List String) :
    Answers e provided input (List.replicate input.length none) := by
  refine ⟨by simp, fun n text vector _ ho ↦ ?_⟩
  rw [List.getElem?_replicate] at ho
  split_ifs at ho
  simp at ho

theorem answers_singleton {provided : List (String × String × Embedding)} {text : String}
    {vector : Embedding} (h : (e.fingerprint, text, vector) ∈ provided) :
    Answers e provided [text] ([vector].map some) := by
  refine ⟨rfl, fun n text' vector' hn ho ↦ ?_⟩
  cases n with
  | zero =>
      simp only [List.map_singleton, List.getElem?_cons_zero, Option.some.injEq] at hn ho
      exact hn ▸ ho ▸ h
  | succ n => simp at hn

theorem collectOutput_ok {output : List (Option Embedding)} {vectors : List Embedding}
    (h : collectOutput output = .ok vectors) : output = vectors.map some := by
  induction output generalizing vectors with
  | nil =>
      simp only [collectOutput, Except.ok.injEq] at h
      simp [← h]
  | cons vector output ih =>
      cases vector with
      | none => simp [collectOutput] at h
      | some vector =>
          rw [collectOutput] at h
          cases hrest : collectOutput output with
          | error error => simp [hrest, Except.map] at h
          | ok rest =>
              simp only [hrest, Except.map, Except.ok.injEq] at h
              simp [← h, ih hrest]

theorem addMissing_nodup {missing : List String} (h : missing.Nodup) (text : String) :
    (addMissing missing text).Nodup := by
  rw [addMissing]
  split_ifs with hmem
  · exact h
  · exact List.nodup_append.mpr ⟨h, List.nodup_singleton _, by
      rintro a ha b hb rfl
      exact hmem (List.mem_singleton.mp hb ▸ ha)⟩

theorem CacheSound.hit (h : CacheSound e s) {text : String} {vector : Embedding}
    (hhit : s.cachedEmbedding e text = some vector) :
    (e.fingerprint, text, vector) ∈ s.provided := by
  obtain ⟨row, hrow, rfl⟩ := Option.map_eq_some_iff.mp hhit
  have hfound := List.find?_some hrow
  simp only [Bool.and_eq_true, beq_iff_eq] at hfound
  rw [← hfound.1]
  exact h row (List.mem_of_find?_eq_some hrow) text hfound.2

theorem CacheSound.write (hinj : Function.Injective e.hexDigest) (h : CacheSound e s)
    {fingerprint text : String} {vector : Embedding}
    (hvector : (fingerprint, text, vector) ∈ s.provided) :
    CacheSound e (s.cacheEmbedding ⟨fingerprint, e.hexDigest text, vector⟩) := by
  intro row hrow text' hhash
  rcases List.mem_append.mp hrow with hold | hnew
  · exact h row (List.mem_filter.mp hold).1 text' hhash
  · obtain rfl := List.mem_singleton.mp hnew
    exact hinj hhash ▸ hvector

theorem CacheSound.sublist (h : CacheSound e s) {kept : List CacheRow}
    (hkept : kept.Sublist s.cache) : CacheSound e { s with cache := kept } :=
  fun row hrow ↦ h row (hkept.subset hrow)

theorem CacheSound.writeCache (hinj : Function.Injective e.hexDigest) (h : CacheSound e s)
    {text : String} {vector : Embedding}
    (hvector : (e.fingerprint, text, vector) ∈ s.provided) (written : Bool) :
    CacheSound e (Cortana.writeCache s e text vector written) := by
  cases written with
  | true => exact h.write hinj hvector
  | false => exact h

theorem resolvedGet_mem {resolved : List (String × Embedding)} {text : String}
    {vector : Embedding} (h : resolvedGet resolved text = some vector) :
    (text, vector) ∈ resolved := by
  obtain ⟨p, hp, rfl⟩ := Option.map_eq_some_iff.mp h
  have htext := List.find?_some hp
  rw [beq_iff_eq] at htext
  exact htext ▸ List.mem_of_find?_eq_some hp

theorem mem_provide {pairs : List (String × Embedding)} {p : String × Embedding}
    (hp : p ∈ pairs) : (e.fingerprint, p.1, p.2) ∈ (s.provide e pairs).provided :=
  List.mem_append_right _ (List.mem_map.mpr ⟨p, hp, rfl⟩)

theorem Call.Sound.mono {provided provided' : List (String × String × Embedding)}
    (h : call.Sound e provided) (hle : ∀ p ∈ provided, p ∈ provided') :
    call.Sound e provided' := by
  cases call with
  | idle => trivial
  | cancelled => trivial
  | single text pc => exact fun vector hvector ↦ hle _ (h vector hvector)
  | batch input resolved output pc =>
      obtain ⟨hresolved, houtput, hmissing, hpairs⟩ := h
      exact ⟨fun p hp ↦ hle _ (hresolved p hp), houtput.mono hle, hmissing,
        fun p hp ↦ hle _ (hpairs p hp)⟩
  | returned input result =>
      cases result with
      | error error => trivial
      | ok vectors => exact Answers.mono h hle

/-! ## Steps -/

theorem writeCache_frame (s : EmbedState) (e : CachedEmbedder) (text : String)
    (vector : Embedding) (written : Bool) :
    (writeCache s e text vector written).calls = s.calls ∧
      (writeCache s e text vector written).inflight = s.inflight ∧
      (writeCache s e text vector written).signalled = s.signalled ∧
      (writeCache s e text vector written).provided = s.provided := by
  cases written <;> exact ⟨rfl, rfl, rfl, rfl⟩

/-- A step of a call leaves all calls to the system step. -/
theorem CallStep.calls_eq (h : CallStep e s call action s' call') : s'.calls = s.calls := by
  cases h with
  | cleans text => exact (releaseOwn_releases e s text).calls
  | writes text vector written => exact (writeCache_frame s e text vector written).1
  | batchWrites _ _ _ _ _ _ text vector _ written =>
      exact (writeCache_frame s e text vector written).1
  | enterBatchWaits _ h => exact (enterBatch_spec h).calls
  | enterBatchLeads _ h => exact (enterBatch_spec h).calls
  | batchCleans _ _ _ _ leaders => exact (releaseAll_frame e s leaders).2.1
  | _ => rfl

/-- A step of a call only adds to what providers returned. -/
theorem CallStep.provided_subset (h : CallStep e s call action s' call') :
    ∀ p ∈ s.provided, p ∈ s'.provided := by
  intro p hp
  cases h with
  | cleans text => rwa [(releaseOwn_releases e s text).provided]
  | writes text vector written => rwa [(writeCache_frame s e text vector written).2.2.2]
  | batchWrites _ _ _ _ _ _ text vector _ written =>
      rwa [(writeCache_frame s e text vector written).2.2.2]
  | enterBatchWaits _ h => rwa [(enterBatch_spec h).provided]
  | enterBatchLeads _ h => rwa [(enterBatch_spec h).provided]
  | batchCleans _ _ _ _ leaders => rwa [(releaseAll_frame e s leaders).2.2]
  | answers => exact List.mem_append_left _ hp
  | batchAnswers => exact List.mem_append_left _ hp
  | _ => exact hp

theorem CallStep.cacheSound (hinj : Function.Injective e.hexDigest) (hcache : CacheSound e s)
    (hcall : call.Sound e s.provided) (h : CallStep e s call action s' call') :
    CacheSound e s' := by
  -- a step that leaves the cache alone only adds to what justifies its rows
  have hsame : s'.cache = s.cache → CacheSound e s' := fun heq row hrow text hhash ↦
    h.provided_subset _ (hcache row (heq ▸ hrow) text hhash)
  cases h with
  | writes text vector written => exact hcache.writeCache hinj (hcall vector rfl) written
  | batchWrites _ _ _ _ _ pairs text vector rest written =>
      refine hcache.writeCache hinj (hcall.2.2.2 (text, vector) ?_) written
      exact List.mem_append_right pairs List.mem_cons_self
  | prunes _ _ h => exact hcache.sublist h.1
  | batchPrunes _ _ _ _ _ _ h => exact hcache.sublist h.1
  | cleans text => exact hsame (releaseOwn_releases e s text).cache
  | enterBatchWaits _ h => exact hsame (enterBatch_spec h).cache
  | enterBatchLeads _ h => exact hsame (enterBatch_spec h).cache
  | batchCleans _ _ _ _ leaders => exact hsame (releaseAll_frame e s leaders).1
  | _ => exact hsame rfl

theorem afterAnswer_vector {text : String} {result : Except String (List Embedding)}
    {vector : Embedding} (h : (afterAnswer e result).vector = some vector) :
    (text, vector) ∈ providedPairs [text] result := by
  unfold afterAnswer at h
  split at h
  · simp [SinglePc.vector] at h
  · split_ifs at h <;> simp_all [SinglePc.vector, providedPairs]
  · simp [SinglePc.vector] at h

theorem afterBatchAnswer_pairs {leaders : List (String × ℕ)}
    {result : Except String (List Embedding)} {p : String × Embedding}
    (h : p ∈ (afterBatchAnswer e leaders result).pairs) :
    p ∈ providedPairs (leaders.map Prod.fst) result := by
  unfold afterBatchAnswer at h
  split at h
  · simp [LeaderPc.pairs] at h
  · split_ifs at h with hlen <;>
      simp_all [LeaderPc.pairs, providedPairs]

theorem CallStep.sound (hcache : CacheSound e s) (hcall : call.Sound e s.provided)
    (h : CallStep e s call action s' call') : call'.Sound e s'.provided := by
  have hmono := hcall.mono h.provided_subset
  cases h with
  | startSingle text => simp [Call.Sound, SinglePc.vector]
  | startBatch input =>
      exact ⟨by simp, answers_replicate _ input, List.nodup_nil, by simp [BatchPc.pairs]⟩
  | lookupHit h => exact answers_singleton (hcache.hit h)
  | answers text result =>
      intro vector hvector
      exact mem_provide (afterAnswer_vector hvector)
  | cleans text result =>
      cases result with
      | error error => trivial
      | ok vector => exact answers_singleton (hmono vector rfl)
  | scanResolved hindex h =>
      obtain ⟨hresolved, houtput, hmissing, hpairs⟩ := hcall
      exact ⟨hresolved, houtput.set hindex (hresolved _ (resolvedGet_mem h)), hmissing, hpairs⟩
  | scanHit hindex _ h =>
      obtain ⟨hresolved, houtput, hmissing, hpairs⟩ := hcall
      exact ⟨hresolved, houtput.set hindex (hcache.hit h), hmissing, hpairs⟩
  | scanMiss =>
      obtain ⟨hresolved, houtput, hmissing, hpairs⟩ := hcall
      exact ⟨hresolved, houtput, addMissing_nodup hmissing _, hpairs⟩
  | @scanReturns _ _ output =>
      cases hcollect : collectOutput output with
      | error error => trivial
      | ok vectors =>
          obtain ⟨-, houtput, -⟩ := hcall
          rw [collectOutput_ok hcollect] at houtput
          exact houtput
  | enterBatchWaits =>
      obtain ⟨hresolved, houtput, -, -⟩ := hmono
      exact ⟨hresolved, houtput, List.nodup_nil, by simp [BatchPc.pairs]⟩
  | enterBatchLeads =>
      obtain ⟨hresolved, houtput, -, -⟩ := hmono
      exact ⟨hresolved, houtput, List.nodup_nil, by simp [BatchPc.pairs, LeaderPc.pairs]⟩
  | batchWakes =>
      obtain ⟨hresolved, houtput, -, -⟩ := hcall
      exact ⟨hresolved, houtput, List.nodup_nil, by simp [BatchPc.pairs]⟩
  | batchAnswers input resolved output waiters leaders result =>
      obtain ⟨hresolved, houtput, -, -⟩ := hmono
      exact ⟨hresolved, houtput, List.nodup_nil, fun p hp ↦ mem_provide (afterBatchAnswer_pairs hp)⟩
  | batchWrites =>
      obtain ⟨hresolved, houtput, -, hpairs⟩ := hmono
      refine ⟨hresolved, houtput, List.nodup_nil, fun p hp ↦ hpairs p ?_⟩
      rcases List.mem_append.mp hp with hp | hp
      · exact List.mem_append_left _ hp
      · exact List.mem_append_right _ (List.mem_cons_of_mem _ hp)
  | batchWriteFails =>
      obtain ⟨hresolved, houtput, -, -⟩ := hcall
      exact ⟨hresolved, houtput, List.nodup_nil, by simp [BatchPc.pairs, LeaderPc.pairs]⟩
  | batchPruneFails =>
      obtain ⟨hresolved, houtput, -, -⟩ := hcall
      exact ⟨hresolved, houtput, List.nodup_nil, by simp [BatchPc.pairs, LeaderPc.pairs]⟩
  | batchPrunes =>
      obtain ⟨hresolved, houtput, -, hpairs⟩ := hcall
      exact ⟨hresolved, houtput, List.nodup_nil, fun p hp ↦ hpairs p (List.mem_append_left _ hp)⟩
  | batchCleans _ _ _ _ _ result =>
      obtain ⟨hresolved, houtput, -, hpairs⟩ := hmono
      refine ⟨hresolved, houtput, List.nodup_nil, ?_⟩
      cases result <;> exact hpairs
  | batchJoins _ _ _ pairs =>
      obtain ⟨hresolved, houtput, -, hpairs⟩ := hcall
      refine ⟨fun p hp ↦ ?_, houtput, List.nodup_nil, by simp [BatchPc.pairs]⟩
      rcases List.mem_append.mp hp with hp | hp
      · exact hpairs p (List.mem_reverse.mp hp)
      · exact hresolved p hp
  | lookupMiss | enterWaits | enterLeads | wakes | writeFails | pruneFails =>
      simp [Call.Sound, SinglePc.vector]
  | lookupFails | scanFails | batchFails | cancels => trivial
  | scanEnds => exact hcall
  | writes | prunes => exact hmono

end Cortana
