import Cortana.Core.Sorting
import Cortana.Store.Memories
import Mathlib.Data.Rat.Defs

/-!
# Classification of candidates

`classification.rs`: how a candidate is compared with the memories that are
already there.  Similarities are exact fractions.
-/

namespace Cortana

open ByteText

/-! ## Records -/

/-- `ObservationCandidate`, as it is read from its row. -/
structure MemoryCandidate where
  id : String
  observationKind : String
  contentType : String
  retentionTier : String
  scope : String
  createdBy : String
  project : String
  title : String
  content : String
  source : String
  sourceId : String
  dedupeKey : Option String
  confidence : UInt64
  importance : UInt64
  sensitivity : String
  status : String
  acl : List String
  provenance : Value
  expiresAt : String
  rejectionReason : Option String
  createdAt : String
  updatedAt : String

/-- What the classification reads of a `MemoryRecord`. -/
structure MemoryRecord where
  id : String
  contentType : String
  retentionTier : String
  scope : String
  project : String
  title : String
  content : String
  status : String
  acl : List String
  validFrom : String
  validUntil : Option String
deriving DecidableEq

/-- The value of a finite number by its bit pattern. -/
def realValue (bits : UInt64) : ℚ :=
  let exponent : ℕ := bits.toNat / 2 ^ 52 % 2 ^ 11
  let fraction : ℕ := bits.toNat % 2 ^ 52
  let magnitude : ℚ :=
    if exponent = 0 then fraction / 2 ^ 1074
    else (2 ^ 52 + fraction) * 2 ^ exponent / 2 ^ 1075
  if bits.toNat < 2 ^ 63 then magnitude else -magnitude

/-! ## Texts -/

/-- `trim_matches`. -/
def trimMatches (p : Char → Bool) (s : List Char) : List Char :=
  (s.dropWhile p).rdropWhile p

def isAsciiAlphanumeric (c : Char) : Bool := c.isAlphanum

/-- `normalized_text`. -/
def normalizedText (title content : String) : List Char :=
  [' '].intercalate (((splitWhitespace (toAsciiLowercase
    (title.toList ++ ' ' :: content.toList))).map
      (trimMatches fun c ↦ !isAsciiAlphanumeric c)).filter (· ≠ []))

/-- `token_similarity`. -/
def tokenSimilarity (left right : List Char) : ℚ :=
  let left := (splitWhitespace left).toFinset
  let right := (splitWhitespace right).toFinset
  let shared := (left ∩ right).card
  let total := left.card + right.card
  if total = 0 then 0 else (2 * shared : ℕ) / total

/-- `has_negation`. -/
def hasNegation (value : List Char) : Bool :=
  (splitWhitespace value).any fun word ↦
    String.ofList word ∈ ["no", "not", "never", "dont", "don't", "cannot", "can't"]

/-- `has_change_marker`. -/
def hasChangeMarker (value : List Char) : Bool :=
  (splitWhitespace value).any fun word ↦
    String.ofList word ∈ ["changed", "change", "now", "instead", "replace", "replaced",
      "supersede", "supersedes", "updated"]

/-- `polarity_conflict`. -/
def polarityConflict (left right : List Char) : Bool :=
  hasNegation left ≠ hasNegation right ∧ 35 / 100 ≤ tokenSimilarity left right

namespace MemoryCandidate

def text (c : MemoryCandidate) : List Char := normalizedText c.title c.content

end MemoryCandidate

namespace MemoryRecord

def text (m : MemoryRecord) : List Char := normalizedText m.title m.content

/-- `memory_is_stale`. -/
def isStale (codec : Codec) (now : ℤ) (m : MemoryRecord) : Bool :=
  m.validUntil.any fun text ↦ (codec.instant text).any (· ≤ now)

/-- `memory_is_active`. -/
def isActive (codec : Codec) (now : ℤ) (m : MemoryRecord) : Bool :=
  m.status = "active" ∧ m.isStale codec now = false ∧ (codec.instant m.validFrom).any (· ≤ now)

end MemoryRecord

/-- `preference_value_conflict`. -/
def preferenceValueConflict (candidate : MemoryCandidate) (memory : MemoryRecord)
    (similarity : ℚ) : Bool :=
  candidate.contentType = "preference" ∧ 35 / 100 ≤ similarity ∧
    (hasChangeMarker candidate.text ∨ hasChangeMarker memory.text) ∧ candidate.text ≠ memory.text

/-! ## Reports -/

inductive ClassificationKind where
  | new
  | exactDuplicate
  | semanticDuplicate
  | reinforcement
  | contradiction
  | supersession
  | temporaryWorking
  | discard
deriving DecidableEq

def ClassificationKind.asStr : ClassificationKind → String
  | new => "new"
  | exactDuplicate => "exact-duplicate"
  | semanticDuplicate => "semantic-duplicate"
  | reinforcement => "reinforcement"
  | contradiction => "contradiction"
  | supersession => "supersession"
  | temporaryWorking => "temporary-working"
  | discard => "discard"

inductive ProposedAction where
  | retainForReview
  | mergeWithExisting
  | reinforceExisting
  | replaceExistingAfterReview
  | keepTemporary
  | discard
deriving DecidableEq

def ProposedAction.asStr : ProposedAction → String
  | retainForReview => "retain-for-review"
  | mergeWithExisting => "merge-with-existing"
  | reinforceExisting => "reinforce-existing"
  | replaceExistingAfterReview => "replace-existing-after-review"
  | keepTemporary => "keep-temporary"
  | discard => "discard"

structure CandidateClassification where
  candidateId : String
  classification : String
  supportingMemoryIds : List String
  explanation : String
  confidence : ℚ
  proposedAction : String
  unresolvedAmbiguity : Option String
  comparedMemoryCount : ℕ

/-- The longest start of a text of at most so many bytes. -/
def takeBytes : ℕ → List Char → List Char
  | _, [] => []
  | n, c :: rest => if c.utf8Size ≤ n then c :: takeBytes (n - c.utf8Size) rest else []

/-- `bounded_text`. -/
def boundedText (value : String) (maxBytes : ℕ) : String :=
  if value.utf8ByteSize ≤ maxBytes then value else String.ofList (takeBytes maxBytes value.toList)

def maxExplanationBytes : ℕ := 512

/-- `report`. -/
def classificationReport (candidate : MemoryCandidate) (classification : ClassificationKind)
    (supportingMemoryIds : List String) (explanation : String) (confidence : ℚ)
    (proposedAction : ProposedAction) (unresolvedAmbiguity : Option String)
    (comparedMemoryCount : ℕ) : CandidateClassification where
  candidateId := candidate.id
  classification := classification.asStr
  supportingMemoryIds := supportingMemoryIds
  explanation := boundedText explanation maxExplanationBytes
  confidence := max 0 (min 1 confidence)
  proposedAction := proposedAction.asStr
  unresolvedAmbiguity := unresolvedAmbiguity.map fun text ↦ boundedText text maxExplanationBytes
  comparedMemoryCount := comparedMemoryCount

/-! ## Matches -/

/-- `Match`. -/
structure Match where
  memory : MemoryRecord
  similarity : ℚ
  exactText : Bool
  contradiction : Bool
  supersession : Bool

/-- Of the same project, ACL and axes as the candidate, and active. -/
def eligible (codec : Codec) (now : ℤ) (candidate : MemoryCandidate) (m : MemoryRecord) : Bool :=
  m.isActive codec now ∧ m.project = candidate.project ∧ m.acl = candidate.acl ∧
    m.contentType = candidate.contentType ∧ m.retentionTier = candidate.retentionTier ∧
    m.scope = candidate.scope

/-- The comparison of the candidate with one memory. -/
def compareWith (candidate : MemoryCandidate) (memory : MemoryRecord) : Match :=
  let similarity := tokenSimilarity candidate.text memory.text
  let contradiction := polarityConflict candidate.text memory.text ||
    preferenceValueConflict candidate memory similarity
  { memory := memory
    similarity := similarity
    exactText := candidate.text = memory.text
    contradiction := contradiction
    supersession :=
      contradiction && (hasChangeMarker candidate.text || hasChangeMarker memory.text) }

/-- A comparison that is kept. -/
def Match.relevant (m : Match) : Bool :=
  m.exactText || 45 / 100 ≤ m.similarity || m.contradiction

/-- The more similar match goes first, then the smaller id. -/
def Match.Precedes (a b : Match) : Prop :=
  b.similarity < a.similarity ∨ (b.similarity = a.similarity ∧ a.memory.id ≤ b.memory.id)

instance : DecidableRel Match.Precedes := fun a b ↦
  inferInstanceAs (Decidable (b.similarity < a.similarity ∨
    (b.similarity = a.similarity ∧ a.memory.id ≤ b.memory.id)))

/-- The matches in the order of the memories. -/
def candidateMatches (codec : Codec) (now : ℤ) (candidate : MemoryCandidate)
    (memories : List MemoryRecord) : List Match :=
  ((memories.filter (eligible codec now candidate)).map (compareWith candidate)).filter
    Match.relevant

/-- What is reported for the best match. -/
def classifyMatch (candidate : MemoryCandidate) (best : Match) (comparedMemoryCount : ℕ) :
    CandidateClassification :=
  let supporting := [best.memory.id]
  if best.exactText then
    classificationReport candidate .exactDuplicate supporting
      "normalized title and content exactly match visible canonical memory"
      (99 / 100) .mergeWithExisting none comparedMemoryCount
  else if best.supersession then
    classificationReport candidate .supersession supporting
      "candidate conflicts with a visible memory and contains a change marker; replacement requires review"
      (65 / 100 + best.similarity * (3 / 10)) .replaceExistingAfterReview
      (some "conflicting decisions are never auto-committed") comparedMemoryCount
  else if best.contradiction then
    classificationReport candidate .contradiction supporting
      "candidate conflicts with visible canonical memory; retain for explicit review"
      (55 / 100 + best.similarity * (35 / 100)) .retainForReview
      (some "polarity or preference values conflict") comparedMemoryCount
  else if 72 / 100 ≤ best.similarity then
    classificationReport candidate .semanticDuplicate supporting
      "high deterministic token similarity indicates a paraphrase of visible canonical memory"
      (7 / 10 + best.similarity * (25 / 100)) .mergeWithExisting none comparedMemoryCount
  else if candidate.retentionTier = "working" then
    classificationReport candidate .temporaryWorking supporting
      "working candidate is related to visible memory but remains temporary and review-only"
      (7 / 10) .keepTemporary none comparedMemoryCount
  else
    classificationReport candidate .reinforcement supporting
      "candidate provides related evidence without an exact or semantic duplicate"
      (55 / 100 + best.similarity * (35 / 100)) .reinforceExisting none comparedMemoryCount

/-- The candidate is below the floor under which it is discarded. -/
def belowFloor (candidate : MemoryCandidate) : Bool :=
  realValue candidate.confidence < 2 / 10 || byteLen (trim candidate.content.toList) < 3

/-- `classify`. -/
def classify (codec : Codec) (now : ℤ) (candidate : MemoryCandidate)
    (memories : List MemoryRecord) : CandidateClassification :=
  let comparedMemoryCount := (memories.filter (eligible codec now candidate)).length
  if candidate.status ≠ "pending" then
    classificationReport candidate .discard []
      "candidate is no longer pending and cannot be promoted" 1 .discard none comparedMemoryCount
  else if belowFloor candidate then
    classificationReport candidate .discard []
      "candidate confidence or content is below the bounded retention floor"
      (98 / 100) .discard none comparedMemoryCount
  else
    match ((candidateMatches codec now candidate memories).insertionSort Match.Precedes).head? with
    | some best => classifyMatch candidate best comparedMemoryCount
    | none =>
        if candidate.retentionTier = "working" then
          classificationReport candidate .temporaryWorking []
            "no visible canonical match; retain only within the candidate working window"
            (9 / 10) .keepTemporary none comparedMemoryCount
        else
          classificationReport candidate .new []
            "no visible canonical memory matched within the same project, ACL, and memory axes"
            (9 / 10) .retainForReview none comparedMemoryCount

end Cortana
