import Mathlib.Data.List.Basic
import Cortana.Core.Runs

/-!
# The single-flight embedding cache

`CachedEmbedder` of `embed.rs` as a step relation.  Any number of calls of
`embed` run concurrently.  A step is one lock section of the shared map or of
the store, or the end of one `await`; a call can be cancelled wherever it
awaits.  Error texts are those of the source.
-/

namespace Cortana

/-- `Vec<f32>`, as the bit patterns of its numbers: vectors are only stored
and returned. -/
abbrev Embedding := List UInt32

/-- The fields of `CachedEmbedder` that stay fixed, and the hash the store
addresses cached texts by. -/
structure CachedEmbedder where
  fingerprint : String
  maxEntries : ℕ
  hexDigest : String → String

/-- The key of a text in the map of texts being embedded. -/
def CachedEmbedder.key (e : CachedEmbedder) (text : String) : String :=
  e.fingerprint ++ "\x00" ++ text

/-- A row of the table `embedding_cache`. -/
structure CacheRow where
  fingerprint : String
  contentHash : String
  embedding : Embedding

/-! ## Calls -/

/-- Where a call of `embed_single_cached` is. -/
inductive SinglePc where
  | lookup
  | entering
  | waiting (channel : ℕ)
  | requesting
  | writing (vector : Embedding)
  | pruning (vector : Embedding)
  | cleaning (result : Except String Embedding)

/-- The call has put its key into the map and not yet taken it out. -/
def SinglePc.leads : SinglePc → Bool
  | lookup | entering | waiting _ => false
  | requesting | writing _ | pruning _ | cleaning _ => true

/-- Where the future `leader_result` of `embed_batch_cached` is.  It carries
the leading texts with their channels until it has cleaned up; an early exit
goes to `ended` at once. -/
inductive LeaderPc where
  | requesting (leaders : List (String × ℕ))
  | writing (leaders : List (String × ℕ)) (pairs rest : List (String × Embedding))
  | cleaning (leaders : List (String × ℕ)) (result : Except String (List (String × Embedding)))
  | ended (result : Except String (List (String × Embedding)))

def LeaderPc.leaders : LeaderPc → List (String × ℕ)
  | requesting leaders | writing leaders _ _ | cleaning leaders _ => leaders
  | ended _ => []

/-- Where a call of `embed_batch_cached` is. -/
inductive BatchPc where
  | scanning (index : ℕ) (missing : List String)
  | entering (missing : List String)
  | waiting (waiters : List ℕ)
  | joining (waiters : List ℕ) (leader : LeaderPc)

def BatchPc.leaders : BatchPc → List (String × ℕ)
  | joining _ leader => leader.leaders
  | _ => []

/-- A call of `embed`: before it starts, running with its local variables,
returned, or dropped. -/
inductive Call where
  | idle
  | single (text : String) (pc : SinglePc)
  | batch (input : List String) (resolved : List (String × Embedding))
      (output : List (Option Embedding)) (pc : BatchPc)
  | returned (input : List String) (result : Except String (List Embedding))
  | cancelled

namespace Call

/-- The texts whose keys the call has put into the map and not yet taken out. -/
def led : Call → List String
  | single text pc => if pc.leads then [text] else []
  | batch _ _ _ pc => pc.leaders.map Prod.fst
  | _ => []

/-- The texts of the provider request the call is awaiting. -/
def requested : Call → List String
  | single text .requesting => [text]
  | batch _ _ _ (.joining _ (.requesting leaders)) => leaders.map Prod.fst
  | _ => []

/-- The channels the call is waiting for. -/
def watched : Call → List ℕ
  | single _ (.waiting channel) => [channel]
  | batch _ _ _ (.waiting waiters) => waiters
  | batch _ _ _ (.joining waiters _) => waiters
  | _ => []

/-- The call stands at an `await`, where its future can be dropped. -/
def awaits : Call → Bool
  | single _ (.entering) | single _ (.waiting _) | single _ .requesting
  | single _ (.cleaning _) => true
  | batch _ _ _ (.entering _) | batch _ _ _ (.waiting _) => true
  | batch _ _ _ (.joining _ (.requesting _)) | batch _ _ _ (.joining _ (.cleaning _ _))
  | batch _ _ _ (.joining _ (.ended _)) => true
  | _ => false

def isBatch : Call → Bool
  | batch _ _ _ _ => true
  | _ => false

end Call

/-! ## The shared state -/

/-- The map of texts being embedded with the channel of each, the channels
that were signalled, the cache table, and all calls.  `provided` records every
vector a provider returned, with its fingerprint and text; no step reads it. -/
structure EmbedState where
  inflight : String → Option ℕ
  signalled : ℕ → Bool
  nextChannel : ℕ
  cache : List CacheRow
  calls : ℕ → Call
  provided : List (String × String × Embedding)

namespace EmbedState

def initial : EmbedState where
  inflight := fun _ ↦ none
  signalled := fun _ ↦ false
  nextChannel := 0
  cache := []
  calls := fun _ ↦ .idle
  provided := []

def setCall (s : EmbedState) (i : ℕ) (call : Call) : EmbedState :=
  { s with calls := Function.update s.calls i call }

/-- `Store::cached_embedding`, the counting of hits apart. -/
def cachedEmbedding (s : EmbedState) (e : CachedEmbedder) (text : String) : Option Embedding :=
  (s.cache.find? fun row ↦
    row.fingerprint == e.fingerprint && row.contentHash == e.hexDigest text).map
      CacheRow.embedding

/-- `Store::cache_embedding`: insert the row or replace it. -/
def cacheEmbedding (s : EmbedState) (row : CacheRow) : EmbedState :=
  { s with cache := s.cache.filter (fun old ↦
      !(old.fingerprint == row.fingerprint && old.contentHash == row.contentHash)) ++ [row] }

/-- Put a new channel for the key into the map. -/
def insertKey (s : EmbedState) (key : String) : EmbedState :=
  { s with
    inflight := Function.update s.inflight key (some s.nextChannel)
    nextChannel := s.nextChannel + 1 }

/-- Take the key out of the map and signal a channel. -/
def release (s : EmbedState) (key : String) (channel : ℕ) : EmbedState :=
  { s with
    inflight := Function.update s.inflight key none
    signalled := Function.update s.signalled channel true }

/-- The lock section of `embed_batch_cached` over the missing texts: a key in
the map is waited for, a new one is led. -/
def enterBatch (e : CachedEmbedder) :
    EmbedState → List String → EmbedState × List (String × ℕ) × List ℕ
  | s, [] => (s, [], [])
  | s, text :: rest =>
      match s.inflight (e.key text) with
      | some channel =>
          let (s', leaders, waiters) := enterBatch e s rest
          (s', leaders, channel :: waiters)
      | none =>
          let (s', leaders, waiters) := enterBatch e (s.insertKey (e.key text)) rest
          (s', (text, s.nextChannel) :: leaders, waiters)

/-- The lock section of `embed_batch_cached` that takes its keys out again. -/
def releaseAll (e : CachedEmbedder) : EmbedState → List (String × ℕ) → EmbedState
  | s, [] => s
  | s, (text, channel) :: rest => releaseAll e (s.release (e.key text) channel) rest

/-- `inflight.remove(&key)` of the single path, signalling what was there. -/
def releaseOwn (s : EmbedState) (key : String) : EmbedState :=
  match s.inflight key with
  | some channel => s.release key channel
  | none => s

/-- Record what the provider returned for some texts. -/
def provide (s : EmbedState) (e : CachedEmbedder) (pairs : List (String × Embedding)) :
    EmbedState :=
  { s with provided := s.provided ++ pairs.map fun p ↦ (e.fingerprint, p.1, p.2) }

end EmbedState

/-! ## Steps -/

/-- What happens to a call.  The outcomes of the store and of the provider are
part of the event. -/
inductive EmbedAction where
  | start (input : List String)
  /-- `cached_embedding`, which may fail. -/
  | lookup (failure : Option String)
  | scanned
  | enter (order : List String)
  | wake
  | answer (result : Except String (List Embedding))
  /-- `cache_embedding_if_available`: written, skipped or failed. -/
  | write (result : Except String Bool)
  /-- `prune_embedding_cache`: what it keeps, unless it fails. -/
  | prune (result : Except String (List CacheRow))
  | clean
  | joined
  | cancel

inductive EmbedEvent where
  | caller (i : ℕ) (action : EmbedAction)
  /-- Another embedder on the same store writes a vector of its provider. -/
  | otherWrite (fingerprint text : String) (vector : Embedding)
  | otherEvict (kept : List CacheRow)

def countError : String := "embedding provider returned an unexpected vector count"

def missingError : String := "embedding cache left a missing vector"

/-- `resolved.get(text)`. -/
def resolvedGet (resolved : List (String × Embedding)) (text : String) : Option Embedding :=
  (resolved.find? fun p ↦ p.1 == text).map Prod.snd

/-- `missing.entry(text)`: the keys of the map, each once. -/
def addMissing (missing : List String) (text : String) : List String :=
  if text ∈ missing then missing else missing ++ [text]

/-- `output.into_iter().map(|vector| vector.context(..)).collect()`. -/
def collectOutput : List (Option Embedding) → Except String (List Embedding)
  | [] => .ok []
  | none :: _ => .error missingError
  | some vector :: rest => (collectOutput rest).map (vector :: ·)

open EmbedState

/-- The part of `embed_single_cached` between the provider's answer and the
clean-up, up to the first access to the store. -/
def afterAnswer (e : CachedEmbedder) (result : Except String (List Embedding)) : SinglePc :=
  match result with
  | .error error => .cleaning (.error error)
  | .ok [vector] => if e.maxEntries > 0 then .writing vector else .cleaning (.ok vector)
  | .ok _ => .cleaning (.error countError)

/-- The same part of `embed_batch_cached`.  A wrong number of vectors leaves
the whole future at once, past the clean-up. -/
def afterBatchAnswer (e : CachedEmbedder) (leaders : List (String × ℕ))
    (result : Except String (List Embedding)) : LeaderPc :=
  match result with
  | .error error => .cleaning leaders (.error error)
  | .ok vectors =>
      if vectors.length = leaders.length then
        let pairs := (leaders.map Prod.fst).zip vectors
        if e.maxEntries > 0 then .writing leaders pairs pairs else .cleaning leaders (.ok pairs)
      else .ended (.error countError)

/-- What the provider returned, when it returned one vector for each text. -/
def providedPairs (texts : List String) : Except String (List Embedding) →
    List (String × Embedding)
  | .ok vectors => if vectors.length = texts.length then texts.zip vectors else []
  | .error _ => []

/-- A write into the cache; `false` means that it was skipped. -/
def writeCache (s : EmbedState) (e : CachedEmbedder) (text : String) (vector : Embedding)
    (written : Bool) : EmbedState :=
  if written then s.cacheEmbedding ⟨e.fingerprint, e.hexDigest text, vector⟩ else s

/-- Rows a pruning to `maxEntries` rows can keep. -/
def Keeps (e : CachedEmbedder) (s : EmbedState) (kept : List CacheRow) : Prop :=
  kept.Sublist s.cache ∧ kept.length = min s.cache.length e.maxEntries

/-- The steps of one call, as what becomes of the shared state and of the call.
The sender of a watched channel stays in the map until the channel is signalled,
so waiting never ends in any other way. -/
inductive CallStep (e : CachedEmbedder) (s : EmbedState) :
    Call → EmbedAction → EmbedState → Call → Prop
  | startSingle (text : String) :
      CallStep e s .idle (.start [text]) s (.single text .lookup)
  | startBatch (input : List String) (h : input.length ≠ 1) :
      CallStep e s .idle (.start input) s
        (.batch input [] (List.replicate input.length none) (.scanning 0 []))
  -- the single path
  | lookupHit {text : String} {vector : Embedding} (h : s.cachedEmbedding e text = some vector) :
      CallStep e s (.single text .lookup) (.lookup none) s (.returned [text] (.ok [vector]))
  | lookupMiss {text : String} (h : s.cachedEmbedding e text = none) :
      CallStep e s (.single text .lookup) (.lookup none) s (.single text .entering)
  | lookupFails (text error : String) :
      CallStep e s (.single text .lookup) (.lookup (some error)) s
        (.returned [text] (.error error))
  | enterWaits {text : String} {channel : ℕ} (h : s.inflight (e.key text) = some channel) :
      CallStep e s (.single text .entering) (.enter [text]) s (.single text (.waiting channel))
  | enterLeads {text : String} (h : s.inflight (e.key text) = none) :
      CallStep e s (.single text .entering) (.enter [text]) (s.insertKey (e.key text))
        (.single text .requesting)
  | wakes (text : String) {channel : ℕ} (h : s.signalled channel = true) :
      CallStep e s (.single text (.waiting channel)) .wake s (.single text .lookup)
  | answers (text : String) (result : Except String (List Embedding)) :
      CallStep e s (.single text .requesting) (.answer result)
        (s.provide e (providedPairs [text] result)) (.single text (afterAnswer e result))
  | writes (text : String) (vector : Embedding) (written : Bool) :
      CallStep e s (.single text (.writing vector)) (.write (.ok written))
        (writeCache s e text vector written) (.single text (.pruning vector))
  | writeFails (text : String) (vector : Embedding) (error : String) :
      CallStep e s (.single text (.writing vector)) (.write (.error error)) s
        (.single text (.cleaning (.error error)))
  | prunes (text : String) (vector : Embedding) {kept : List CacheRow} (h : Keeps e s kept) :
      CallStep e s (.single text (.pruning vector)) (.prune (.ok kept)) { s with cache := kept }
        (.single text (.cleaning (.ok vector)))
  | pruneFails (text : String) (vector : Embedding) (error : String) :
      CallStep e s (.single text (.pruning vector)) (.prune (.error error)) s
        (.single text (.cleaning (.error error)))
  | cleans (text : String) (result : Except String Embedding) :
      CallStep e s (.single text (.cleaning result)) .clean (s.releaseOwn (e.key text))
        (.returned [text] (result.map fun vector ↦ [vector]))
  -- the batch path
  | scanResolved {input : List String} {resolved output index missing text vector}
      (hindex : input[index]? = some text) (h : resolvedGet resolved text = some vector) :
      CallStep e s (.batch input resolved output (.scanning index missing)) (.lookup none) s
        (.batch input resolved (output.set index (some vector)) (.scanning (index + 1) missing))
  | scanHit {input : List String} {resolved output index missing text vector}
      (hindex : input[index]? = some text) (hres : resolvedGet resolved text = none)
      (h : s.cachedEmbedding e text = some vector) :
      CallStep e s (.batch input resolved output (.scanning index missing)) (.lookup none) s
        (.batch input resolved (output.set index (some vector)) (.scanning (index + 1) missing))
  | scanMiss {input : List String} {resolved output index missing text}
      (hindex : input[index]? = some text) (hres : resolvedGet resolved text = none)
      (h : s.cachedEmbedding e text = none) :
      CallStep e s (.batch input resolved output (.scanning index missing)) (.lookup none) s
        (.batch input resolved output (.scanning (index + 1) (addMissing missing text)))
  | scanFails {input : List String} {resolved output index missing text}
      (hindex : input[index]? = some text) (hres : resolvedGet resolved text = none)
      (error : String) :
      CallStep e s (.batch input resolved output (.scanning index missing))
        (.lookup (some error)) s (.returned input (.error error))
  | scanReturns {input : List String} {resolved output index}
      (hindex : input[index]? = none) :
      CallStep e s (.batch input resolved output (.scanning index [])) .scanned s
        (.returned input (collectOutput output))
  | scanEnds {input : List String} {resolved output index missing}
      (hindex : input[index]? = none) (h : missing ≠ []) :
      CallStep e s (.batch input resolved output (.scanning index missing)) .scanned s
        (.batch input resolved output (.entering missing))
  | enterBatchWaits {input resolved output missing order s' waiters}
      (horder : order.Perm missing) (h : enterBatch e s order = (s', [], waiters)) :
      CallStep e s (.batch input resolved output (.entering missing)) (.enter order) s'
        (.batch input resolved output (.waiting waiters))
  | enterBatchLeads {input resolved output missing order s' leaders waiters}
      (horder : order.Perm missing) (h : enterBatch e s order = (s', leaders, waiters))
      (hne : leaders ≠ []) :
      CallStep e s (.batch input resolved output (.entering missing)) (.enter order) s'
        (.batch input resolved output (.joining waiters (.requesting leaders)))
  | batchWakes {waiters : List ℕ} (input resolved output)
      (h : ∀ channel ∈ waiters, s.signalled channel = true) :
      CallStep e s (.batch input resolved output (.waiting waiters)) .wake s
        (.batch input resolved output (.scanning 0 []))
  | batchAnswers (input resolved output waiters leaders)
      (result : Except String (List Embedding)) :
      CallStep e s (.batch input resolved output (.joining waiters (.requesting leaders)))
        (.answer result) (s.provide e (providedPairs (leaders.map Prod.fst) result))
        (.batch input resolved output (.joining waiters (afterBatchAnswer e leaders result)))
  | batchWrites (input resolved output waiters leaders pairs text vector rest)
      (written : Bool) :
      CallStep e s (.batch input resolved output
          (.joining waiters (.writing leaders pairs ((text, vector) :: rest))))
        (.write (.ok written)) (writeCache s e text vector written)
        (.batch input resolved output (.joining waiters (.writing leaders pairs rest)))
  | batchWriteFails (input resolved output waiters leaders pairs pair rest) (error : String) :
      CallStep e s (.batch input resolved output
          (.joining waiters (.writing leaders pairs (pair :: rest))))
        (.write (.error error)) s
        (.batch input resolved output (.joining waiters (.ended (.error error))))
  | batchPrunes (input resolved output waiters leaders pairs) {kept : List CacheRow}
      (h : Keeps e s kept) :
      CallStep e s (.batch input resolved output
          (.joining waiters (.writing leaders pairs [])))
        (.prune (.ok kept)) { s with cache := kept }
        (.batch input resolved output (.joining waiters (.cleaning leaders (.ok pairs))))
  | batchPruneFails (input resolved output waiters leaders pairs) (error : String) :
      CallStep e s (.batch input resolved output
          (.joining waiters (.writing leaders pairs [])))
        (.prune (.error error)) s
        (.batch input resolved output (.joining waiters (.ended (.error error))))
  | batchCleans (input resolved output waiters leaders result) :
      CallStep e s (.batch input resolved output (.joining waiters (.cleaning leaders result)))
        .clean (releaseAll e s leaders)
        (.batch input resolved output (.joining waiters (.ended result)))
  | batchJoins {waiters : List ℕ} (input resolved output pairs)
      (h : ∀ channel ∈ waiters, s.signalled channel = true) :
      CallStep e s (.batch input resolved output (.joining waiters (.ended (.ok pairs))))
        .joined s (.batch input (pairs.reverse ++ resolved) output (.scanning 0 []))
  | batchFails {waiters : List ℕ} (input resolved output) (error : String)
      (h : ∀ channel ∈ waiters, s.signalled channel = true) :
      CallStep e s (.batch input resolved output (.joining waiters (.ended (.error error))))
        .joined s (.returned input (.error error))
  -- a dropped future
  | cancels {call : Call} (h : call.awaits = true) : CallStep e s call .cancel s .cancelled

/-- The steps of the whole system. -/
inductive EmbedStep (e : CachedEmbedder) : EmbedState → EmbedEvent → EmbedState → Prop
  | call {s s' : EmbedState} {i : ℕ} {action : EmbedAction} {call' : Call}
      (h : CallStep e s (s.calls i) action s' call') :
      EmbedStep e s (.caller i action) (s'.setCall i call')
  | otherWrite (s : EmbedState) (fingerprint text : String) (vector : Embedding) :
      EmbedStep e s (.otherWrite fingerprint text vector)
        { s.cacheEmbedding ⟨fingerprint, e.hexDigest text, vector⟩ with
          provided := s.provided ++ [(fingerprint, text, vector)] }
  | otherEvict {s : EmbedState} {kept : List CacheRow} (h : kept.Sublist s.cache) :
      EmbedStep e s (.otherEvict kept) { s with cache := kept }

/-- The states some run of the system reaches, all of whose events meet the
condition. -/
def EmbedReachable (e : CachedEmbedder) (ok : EmbedState → EmbedEvent → Prop)
    (s : EmbedState) : Prop :=
  Transition.Run (EmbedStep e) ok EmbedState.initial s

end Cortana
