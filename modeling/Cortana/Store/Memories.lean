import Cortana.Core.Loops
import Cortana.Store.State
import Mathlib.Data.List.Sort
import Mathlib.Data.List.Dedup

/-!
# Memory operations

`memory.rs` as far as a write needs it, and `remember`, `forget` and the
promotion of a consolidation candidate of `store.rs`.
-/

namespace Cortana

open Replication ByteText

/-! ## Axes -/

inductive MemoryContentType where
  | episodic
  | semantic
  | procedural
  | preference
deriving DecidableEq

def MemoryContentType.asStr : MemoryContentType → String
  | episodic => "episodic"
  | semantic => "semantic"
  | procedural => "procedural"
  | preference => "preference"

inductive MemoryRetentionTier where
  | working
  | durable
deriving DecidableEq

def MemoryRetentionTier.asStr : MemoryRetentionTier → String
  | working => "working"
  | durable => "durable"

inductive MemoryScope where
  | session
  | principal
  | workspace
  | ownerGlobal
deriving DecidableEq

def MemoryScope.asStr : MemoryScope → String
  | session => "session"
  | principal => "principal"
  | workspace => "workspace"
  | ownerGlobal => "owner-global"

/-- The trimmed text in lower case, as the `parse` functions read it. -/
def normalizedName (value : String) : String := String.ofList (toAsciiLowercase (trim value.toList))

def MemoryContentType.parse (value : String) : Except String MemoryContentType :=
  match normalizedName value with
  | "episodic" => .ok episodic
  | "semantic" => .ok semantic
  | "procedural" => .ok procedural
  | "preference" => .ok preference
  | other => .error ("unsupported memory content type `" ++ other ++
      "`; expected episodic, semantic, procedural, or preference")

def MemoryRetentionTier.parse (value : String) : Except String MemoryRetentionTier :=
  match normalizedName value with
  | "working" => .ok working
  | "durable" => .ok durable
  | other => .error ("unsupported memory retention tier `" ++ other ++
      "`; expected working or durable")

def MemoryScope.parse (value : String) : Except String MemoryScope :=
  match normalizedName value with
  | "session" => .ok session
  | "principal" => .ok principal
  | "workspace" | "project" => .ok workspace
  | "owner-global" | "global" => .ok ownerGlobal
  | other => .error ("unsupported memory scope `" ++ other ++
      "`; expected session, principal, workspace, or owner-global")

structure MemoryAxes where
  contentType : MemoryContentType
  retentionTier : MemoryRetentionTier
  scope : MemoryScope
deriving DecidableEq

namespace MemoryAxes

/-- `MemoryKind::parse` and `from_legacy_kind`. -/
def fromLegacyKind (kind : String) : Except String MemoryAxes :=
  match normalizedName kind with
  | "working" => .ok ⟨.semantic, .working, .workspace⟩
  | "episodic" => .ok ⟨.episodic, .durable, .workspace⟩
  | "semantic" => .ok ⟨.semantic, .durable, .workspace⟩
  | "procedural" => .ok ⟨.procedural, .durable, .workspace⟩
  | "preference" => .ok ⟨.preference, .durable, .workspace⟩
  | other => .error ("unsupported memory kind `" ++ other ++
      "`; expected episodic, semantic, procedural, preference, or working")

/-- `with_overrides` with all three overrides given. -/
def withOverrides (legacyKind contentType retentionTier scope : String) :
    Except String MemoryAxes := do
  let _ ← fromLegacyKind legacyKind
  let contentType ← MemoryContentType.parse contentType
  let retentionTier ← MemoryRetentionTier.parse retentionTier
  let scope ← MemoryScope.parse scope
  return ⟨contentType, retentionTier, scope⟩

def legacyKind (axes : MemoryAxes) : String :=
  if axes.retentionTier = .working then "working" else axes.contentType.asStr

end MemoryAxes

/-! ## Input -/

/-- `MemoryInput`; the two numbers are the bit patterns of their `f64` values. -/
structure MemoryInput where
  kind : String
  project : String
  title : String
  content : String
  source : String
  sourceId : String
  dedupeKey : Option String
  confidence : UInt64
  importance : UInt64
  acl : List String
  provenance : Value
  supersedesId : Option String
  validUntil : Option String

/-- `validate_text`. -/
def validateText (name value : String) (maxBytes : ℕ) : Except String Unit :=
  if trim value.toList = [] then .error (name ++ " must not be empty")
  else if maxBytes < value.utf8ByteSize then
    .error (name ++ " exceeds " ++ toString maxBytes ++ " bytes")
  else if value.toList.any isControl then
    .error (name ++ " must not contain control characters")
  else .ok ()

def validateOptionalText (name : String) (value : Option String) (maxBytes : ℕ) :
    Except String Unit :=
  match value with
  | none => .ok ()
  | some text => validateText name text maxBytes

/-- `normalize_valid_until`. -/
def normalizeValidUntil (codec : Codec) (value : String) : Except String String := do
  validateText "valid_until" value 64
  (codec.normalizeInstant value).mapError ("valid_until must be RFC3339: " ++ ·)

/-- The bit patterns from `0.0` to `1.0`, and `-0.0`. -/
def inUnitInterval (bits : UInt64) : Bool :=
  bits.toNat ≤ 0x3FF0000000000000 || bits.toNat == 0x8000000000000000

/-- Equality of two numbers of the unit interval. -/
def realEq (a b : UInt64) : Bool :=
  a = b || (a.toNat % 2 ^ 63 == 0 && b.toNat % 2 ^ 63 == 0)

/-- `normalize_acl`. -/
def normalizeAcl (project : String) (acl : List String) : Except String (List String) := do
  let values := if acl = [] then [project] else acl
  Except.require (values.length ≤ 32) "memory ACL exceeds 32 entries"
  let values := (values.insertionSort (· ≤ ·)).dedup
  let _ ← values.mapM fun value ↦ do
    validateText "memory ACL label" value 256
    Except.require (value ≠ "*") "memory ACL cannot contain the reserved `*` label"
  return values

/-- What `validate_input` returns. -/
structure ValidInput where
  acl : List String
  provenanceJson : String
  validUntil : Option String

/-- `validate_input`. -/
def validateInput (codec : Codec) (input : MemoryInput) : Except String ValidInput := do
  let _ ← MemoryAxes.fromLegacyKind input.kind
  validateText "project" input.project 256
  validateText "title" input.title 512
  validateText "content" input.content 65536
  validateText "source" input.source 128
  validateOptionalText "source_id" (if input.sourceId = "" then none else some input.sourceId) 512
  validateOptionalText "dedupe_key" input.dedupeKey 512
  validateOptionalText "supersedes_id" input.supersedesId 128
  let validUntil ← input.validUntil.mapM (normalizeValidUntil codec)
  Except.require (inUnitInterval input.confidence)
    "confidence must be a finite number between 0 and 1"
  Except.require (inUnitInterval input.importance)
    "importance must be a finite number between 0 and 1"
  let acl ← normalizeAcl input.project input.acl
  let provenance := match input.provenance with
    | .null => .object []
    | value => value
  let provenanceJson := codec.jsonText provenance
  Except.require (provenanceJson.utf8ByteSize ≤ 16384) "provenance exceeds 16384 bytes"
  return ⟨acl, provenanceJson, validUntil⟩

/-- `valid_until_is_active`. -/
def validUntilIsActive (codec : Codec) (validUntil : Option String) (now : String) : Bool :=
  match validUntil with
  | none => true
  | some text =>
      match codec.instant text, codec.instant now with
      | some stop, some instant => instant < stop
      | _, _ => false

/-- `acl_allows`. -/
def aclAllows (documentAcl principalAcl : List String) : Bool :=
  documentAcl = [] || principalAcl.any (· = "*") ||
    documentAcl.any fun required ↦ principalAcl.any (· = required)

namespace Store

/-! ## Parts of a transaction -/

/-- Another memory of the project has the dedupe key of this one. -/
def memoryClash (t : Table MemoryRow.id) (row : MemoryRow) : Bool :=
  row.dedupeKey.isSome && t.rows.any fun r ↦
    r.id ≠ row.id ∧ r.project = row.project ∧ r.dedupeKey = row.dedupeKey

def memoryClashError : String := "UNIQUE constraint failed: memories.project, memories.dedupe_key"

/-- The row an upsert leaves: the creation time of a stored row stays. -/
def mergedMemory (t : Table MemoryRow.id) (row : MemoryRow) : MemoryRow :=
  match t.get row.id with
  | none => row
  | some old => { row with createdAt := old.createdAt }

/-- `INSERT … ON CONFLICT(id) DO UPDATE` of `remember`. -/
def upsertMemoryRow (s : Store) (row : MemoryRow) : Except String Store :=
  if memoryClash s.memories row then .error memoryClashError
  else .ok { s with memories := s.memories.put (mergedMemory s.memories row) }

def deleteMemoryFts (s : Store) (id : String) : Store :=
  { s with memoriesFts := s.memoriesFts.filter fun f ↦ f.memoryId != id }

/-- Delete the full-text row of a memory and insert the current one. -/
def replaceMemoryFts (s : Store) (id title content : String) : Store :=
  { s.deleteMemoryFts id with
    memoriesFts := (s.deleteMemoryFts id).memoriesFts ++ [⟨id, title, content⟩] }

/-- The memory with this dedupe key in the project. -/
def memoryByDedupeKey (s : Store) (project : String) (dedupeKey : Option String) :
    Option MemoryRow :=
  match dedupeKey with
  | none => none
  | some key => s.memories.rows.find? fun m ↦ m.project = project ∧ m.dedupeKey = some key

/-- The active memory with this id. -/
def activeMemory (s : Store) (id : String) : Option MemoryRow :=
  (s.memories.get id).filter fun m ↦ m.status = "active"

def activeCount (codec : Codec) (s : Store) (now : String) : ℕ :=
  (s.memories.rows.filter fun m ↦
    m.status = "active" ∧ m.validUntil.all fun v ↦ codec.julianAfter v now).length

/-- `UPDATE memories SET status='superseded' …`. -/
def supersede (s : Store) (previous : MemoryRow) (now : String) : Store :=
  let row := { previous with status := "superseded", validUntil := some now, updatedAt := now }
  { s with memories := s.memories.put row }

def ownerGlobalError : String := "owner-global memory scope requires owner authorization"

/-- What is checked of a memory that shares the dedupe key. -/
def checkExisting (codec : Codec) (existing : MemoryRow) (input : MemoryInput)
    (principalAcl : List String) (owner : Bool) : Except String (List String) := do
  let acl ← codec.parseAcl existing.aclJson
  Except.require (existing.scope ≠ "owner-global" ∨ owner) ownerGlobalError
  Except.require (owner ∨ aclAllows acl principalAcl)
    "memory dedupe key is outside principal visibility"
  Except.require (existing.project = input.project)
    "memory dedupe key must stay within its project"
  Except.require (existing.status = "active")
    "memory dedupe key belongs to a retired memory; choose a new key"
  return acl

/-- What is checked of the memory to be superseded. -/
def checkSuperseded (codec : Codec) (previous : MemoryRow) (input : MemoryInput)
    (principalAcl : List String) (owner : Bool) : Except String Unit := do
  let acl ← codec.parseAcl previous.aclJson
  Except.require (previous.scope ≠ "owner-global" ∨ owner) ownerGlobalError
  Except.require (owner ∨ aclAllows acl principalAcl)
    "memory supersession target is outside principal visibility"
  Except.require (previous.project = input.project)
    "memory supersession target must stay within its project"

/-- The stored memory already says what the input says. -/
def sameMemory (existing : MemoryRow) (existingAcl : List String) (input : MemoryInput)
    (valid : ValidInput) (axes : MemoryAxes) (sourceId : String) : Bool :=
  existing.status = "active" ∧ existing.kind = axes.legacyKind ∧
    existing.contentType = axes.contentType.asStr ∧
    existing.retentionTier = axes.retentionTier.asStr ∧ existing.scope = axes.scope.asStr ∧
    existing.project = input.project ∧ existing.title = input.title ∧
    existing.content = input.content ∧ existing.source = input.source ∧
    existing.sourceId = sourceId ∧ realEq existing.confidence input.confidence ∧
    realEq existing.importance input.importance ∧ existingAcl = valid.acl ∧
    existing.provenanceJson = valid.provenanceJson ∧ existing.validUntil = valid.validUntil ∧
    existing.supersedesId = input.supersedesId

/-- The row `remember` writes. -/
def memoryRow (codec : Codec) (id sourceId now : String) (input : MemoryInput)
    (valid : ValidInput) (axes : MemoryAxes) : MemoryRow where
  id := id
  kind := axes.legacyKind
  contentType := axes.contentType.asStr
  retentionTier := axes.retentionTier.asStr
  scope := axes.scope.asStr
  project := input.project
  title := input.title
  content := input.content
  source := input.source
  sourceId := sourceId
  dedupeKey := input.dedupeKey
  confidence := input.confidence
  importance := input.importance
  status := "active"
  aclJson := codec.jsonText (.array (valid.acl.map .string))
  provenanceJson := valid.provenanceJson
  observedAt := now
  validFrom := now
  validUntil := valid.validUntil
  supersedesId := input.supersedesId
  createdAt := now
  updatedAt := now

/-- Who remembers, when, and the id of a memory that is new. -/
structure MemoryCall where
  principalAcl : List String
  owner : Bool
  freshId : String
  now : String
  changedAt : String

/-- The writes of `remember_in_transaction`. -/
def writeMemory (codec : Codec) (s : Store) (call : MemoryCall) (row : MemoryRow) :
    Except String Store := do
  let s ← match row.supersedesId with
    | none => pure s
    | some previousId =>
        match s.activeMemory previousId with
        | none => .error "supersedes_id does not identify an active memory"
        | some previous => pure (s.supersede previous call.now)
  let s ← s.upsertMemoryRow row
  let s := s.replaceMemoryFts row.id row.title row.content
  let s ← s.journalInTransaction codec ⟨.memory, row.id⟩ call.changedAt
  return s.bumpMemoryRevision

/-- The memory that an input supersedes passes its checks. -/
def checkTarget (codec : Codec) (target : Option MemoryRow) (input : MemoryInput)
    (principalAcl : List String) (owner : Bool) : Except String Unit :=
  match target with
  | none => .ok ()
  | some previous => checkSuperseded codec previous input principalAcl owner

/-- The write replaces an active memory, supersedes one, or finds room. -/
def hasCapacity (codec : Codec) (s : Store) (existing target : Option MemoryRow) (now : String) :
    Bool :=
  let replacesActive := existing.any fun m ↦
    m.status = "active" ∧ validUntilIsActive codec m.validUntil now
  let supersedesActive := target.any fun m ↦ validUntilIsActive codec m.validUntil now
  replacesActive || supersedesActive || s.activeCount codec now < s.memoryMaxActive

/-- `remember_in_transaction`; the id of the memory is returned. -/
def rememberInTransaction (codec : Codec) (s : Store) (call : MemoryCall) (input : MemoryInput)
    (axes : MemoryAxes) : Except String (Store × String) := do
  let valid ← validateInput codec input
  let existing := s.memoryByDedupeKey input.project input.dedupeKey
  let existingAcl ← existing.mapM fun m ↦
    checkExisting codec m input call.principalAcl call.owner
  let id := (existing.map MemoryRow.id).getD call.freshId
  let sourceId := if trim input.sourceId.toList = [] then id else input.sourceId
  if existing.any fun m ↦ sameMemory m (existingAcl.getD []) input valid axes sourceId then
    -- A retry with the same payload writes nothing.
    .ok (s, id)
  else do
    let target := input.supersedesId.bind s.activeMemory
    checkTarget codec target input call.principalAcl call.owner
    Except.require (input.supersedesId ≠ some id) "memory cannot supersede itself"
    Except.require (s.hasCapacity codec existing target call.now)
      ("active memory limit reached (" ++ toString s.memoryMaxActive ++
        "); retract or supersede an existing memory before adding another")
    let s ← s.writeMemory codec call (memoryRow codec id sourceId call.now input valid axes)
    return (s, id)

/-! ## Public operations -/

/-- `remember_scoped_with_axes`. -/
def rememberScopedWithAxes (codec : Codec) (s : Store) (call : MemoryCall) (input : MemoryInput)
    (axes : MemoryAxes) : Except String (Store × String) :=
  if axes.scope = .ownerGlobal ∧ call.owner = false then .error ownerGlobalError
  else if axes.scope ≠ .workspace ∧ axes.scope ≠ .ownerGlobal then
    .error ("session and principal memory scopes require an identity binding and are not yet " ++
      "supported")
  else s.rememberInTransaction codec call input axes

/-- `forget_memory_scoped`; the flag says whether an active memory was found. -/
def forgetMemoryScoped (codec : Codec) (s : Store) (call : MemoryCall) (id : String) :
    Except String (Store × Bool) :=
  match s.activeMemory id with
  | none => .ok (s, false)
  | some memory => do
      Except.require (memory.scope ≠ "owner-global" ∨ call.owner) ownerGlobalError
      let acl ← codec.parseAcl memory.aclJson
      Except.require (call.owner ∨ aclAllows acl call.principalAcl) "memory ACL denied"
      let retracted := { memory with
        status := "retracted"
        content := ""
        provenanceJson := "{}"
        validUntil := some (memory.validUntil.getD call.now)
        updatedAt := call.now }
      let s := { s with memories := s.memories.put retracted }
      let s := s.deleteMemoryFts id
      let s ← s.journalInTransaction codec ⟨.memory, id⟩ call.changedAt
      return (s.bumpMemoryRevision, true)

/-! ## Consolidation -/

/-- What the promotion of a candidate reads of it. -/
structure ObservationCandidate where
  contentType : String
  retentionTier : String
  scope : String
  project : String
  title : String
  content : String
  source : String
  sourceId : String
  dedupeKey : Option String
  confidence : UInt64
  importance : UInt64
  acl : List String
  provenance : Value
  pending : Bool

/-- The decisions that promote a candidate. -/
inductive PromotingDecision where
  | autoRetain
  | approve
  | working
deriving DecidableEq

def PromotingDecision.asStr : PromotingDecision → String
  | autoRetain => "auto-retain"
  | approve => "approve"
  | working => "working"

/-- What the promotion of a candidate reads of the policy's report. -/
structure ConsolidationReport where
  policyVersion : String
  classification : String
  decision : PromotingDecision
  reasonCode : String
  supportingMemoryIds : List String
  expiresAt : Option String

/-- The memory a promoted candidate becomes. -/
def promotedInput (candidate : ObservationCandidate) (report : ConsolidationReport)
    (axes : MemoryAxes) : MemoryInput where
  kind := axes.legacyKind
  project := candidate.project
  title := candidate.title
  content := candidate.content
  source := candidate.source
  sourceId := candidate.sourceId
  dedupeKey := candidate.dedupeKey
  confidence := candidate.confidence
  importance := candidate.importance
  acl := candidate.acl
  provenance := .object [
    ("candidate", candidate.provenance),
    ("cortana_consolidation", .object [
      ("policy_version", .string report.policyVersion),
      ("classification", .string report.classification),
      ("decision", .string report.decision.asStr),
      ("reason_code", .string report.reasonCode)])]
  supersedesId :=
    if report.classification = "supersession" then report.supportingMemoryIds.head? else none
  validUntil := report.expiresAt

/-- The transaction of a consolidation that promotes its candidate.  A memory
that is refused is rolled back and the job is retried later. -/
def promoteCandidate (codec : Codec) (s : Store) (call : MemoryCall)
    (candidate : ObservationCandidate) (report : ConsolidationReport) : Except String Store := do
  let axes ← MemoryAxes.withOverrides candidate.contentType candidate.contentType
    (if report.decision = .working then "working" else candidate.retentionTier) candidate.scope
  match s.rememberInTransaction codec call (promotedInput candidate report axes) axes with
  | .error _ => return s
  | .ok (written, _) =>
      if candidate.pending then return written
      else .error "candidate changed state before consolidation committed"

end Store

end Cortana
