import Cortana.Model.Document
import Cortana.Replication.Replica
import Mathlib.Data.String.Basic

/-!
# Synchronised rows and their fingerprints

The columns of `documents` and `memories` that `sync_engine.rs` exchanges, in
the order of `DOCUMENT_COLUMNS` and `MEMORY_COLUMNS`, and the fingerprint that
the journal keeps of a row.  What comes from other crates (SHA-256, the text
of a JSON value, RFC 3339 instants, `julianday`, the code parser) is the
parameter `Codec`.
-/

namespace Cortana

open Replication

/-- The functions of other crates that the store calls. -/
structure Codec where
  /-- The lower-case hex digits of the SHA-256 of a text. -/
  sha256 : List Char → String
  /-- `serde_json::to_string`. -/
  jsonText : Value → String
  /-- `serde_json::from_str::<Vec<String>>`. -/
  parseAcl : String → Except String (List String)
  /-- `DateTime::parse_from_rfc3339`, rewritten in UTC with `AutoSi` digits. -/
  normalizeInstant : String → Except String String
  /-- `DateTime::parse_from_rfc3339`. -/
  instant : String → Option ℤ
  /-- `julianday(a) > julianday(b)` in SQLite. -/
  julianAfter : String → String → Bool
  /-- `serde_json::to_string(&parse_document(document, …))`. -/
  parseOutput : Document → String
  /-- Whether a stored parse output has the parser version and the cache key
  of the document. -/
  outputCurrent : Document → String → Bool

/-- `object_kind` of the journal. -/
inductive ObjectKind where
  | document
  | memory
  | other (name : String)
deriving DecidableEq

def ObjectKind.asStr : ObjectKind → String
  | document => "document"
  | memory => "memory"
  | other name => name

/-- What a journal row is about: `object_kind` and `object_id`. -/
structure ObjectKey where
  kind : ObjectKind
  id : String
deriving DecidableEq

/-- A row of `documents`. -/
structure DocumentRow where
  id : String
  source : String
  sourceId : String
  title : String
  uri : Option String
  contentHash : String
  updatedAt : String
  project : String
  aclJson : String
  metadataJson : String
  content : String
deriving DecidableEq

/-- A row of `memories`.  The two `REAL` columns are bit patterns of `f64`. -/
structure MemoryRow where
  id : String
  kind : String
  contentType : String
  retentionTier : String
  scope : String
  project : String
  title : String
  content : String
  source : String
  sourceId : String
  dedupeKey : Option String
  confidence : UInt64
  importance : UInt64
  status : String
  aclJson : String
  provenanceJson : String
  observedAt : String
  validFrom : String
  validUntil : Option String
  supersedesId : Option String
  createdAt : String
  updatedAt : String
deriving DecidableEq

/-- `json_value_from_column` for a nullable text column. -/
def nullableText : Option String → Value
  | none => .null
  | some text => .string text

/-- The row under `DOCUMENT_COLUMNS`, as JSON values. -/
def DocumentRow.columns (row : DocumentRow) : List Value :=
  [.string row.id, .string row.source, .string row.sourceId, .string row.title,
    nullableText row.uri, .string row.contentHash, .string row.updatedAt, .string row.project,
    .string row.aclJson, .string row.metadataJson, .string row.content]

/-- The row under `MEMORY_COLUMNS`, as JSON values. -/
def MemoryRow.columns (row : MemoryRow) : List Value :=
  [.string row.id, .string row.kind, .string row.contentType, .string row.retentionTier,
    .string row.scope, .string row.project, .string row.title, .string row.content,
    .string row.source, .string row.sourceId, nullableText row.dedupeKey, .real row.confidence,
    .real row.importance, .string row.status, .string row.aclJson, .string row.provenanceJson,
    .string row.observedAt, .string row.validFrom, nullableText row.validUntil,
    nullableText row.supersedesId, .string row.createdAt, .string row.updatedAt]

/-- What the columns of its kind hold of an object; a payload that leaves a
`NOT NULL` column empty is malformed: no insert takes it. -/
inductive ObjectRow where
  | document (row : DocumentRow)
  | memory (row : MemoryRow)
  | malformed
deriving DecidableEq

/-- Which of the members `id`, `title` and `content` of a payload are JSON strings. -/
structure TextMembers where
  id : Bool
  title : Bool
  content : Bool
deriving DecidableEq

/-- The payload of a bundle entry: the row that `column_value` and the affinity
of the columns make of it, a number becoming its text and an array its JSON, and
which of the members that `as_str` reads are strings.  A payload without an
`id`, of which SQLite would make a row under NULL, is left out. -/
structure Payload where
  row : ObjectRow
  strings : TextMembers
deriving DecidableEq

/-- `as_str().unwrap_or_default()` on a member that its column holds as a text. -/
def asStrOrDefault (isString : Bool) (text : String) : String := if isString then text else ""

/-- The payload an export writes: text columns become JSON strings. -/
def ObjectRow.payload (row : ObjectRow) : Payload := ⟨row, ⟨true, true, true⟩⟩

def ObjectRow.columns : ObjectRow → List Value
  | document row => row.columns
  | memory row => row.columns
  | malformed => []

/-- The object a row belongs to. -/
def ObjectRow.key : ObjectRow → Option ObjectKey
  | document row => some ⟨.document, row.id⟩
  | memory row => some ⟨.memory, row.id⟩
  | malformed => none

/-- What `fingerprint_value` hashes. -/
def fingerprintText (codec : Codec) (parts : List Value) : List Char :=
  "cortana.sync.fingerprint.v1".toList ++
    parts.flatMap fun part ↦ '\x1f' :: (codec.jsonText part).toList

/-- `fingerprint_value`. -/
def fingerprintValue (codec : Codec) (parts : List Value) : String :=
  "sha256:" ++ codec.sha256 (fingerprintText codec parts)

/-- `row_fingerprint_in_transaction`, with the text `journal_in_transaction`
writes for a row that is gone. -/
def Codec.digest (codec : Codec) : Digest ObjectRow String where
  row object := fingerprintValue codec object.columns
  deleted := "deleted"

/-- The labels of an ACL are read back as they were written. -/
def Codec.ReadsLabels (codec : Codec) : Prop :=
  ∀ labels : List String, codec.parseAcl (codec.jsonText (.array (labels.map .string))) = .ok labels

/-! ## Distinct rows have distinct fingerprints -/

/-- The columns that occur in rows. -/
def Value.Scalar : Value → Prop
  | .null | .string _ | .real _ => True
  | _ => False

/-- The texts of these rows are told apart: SHA-256 does not collide on what is
hashed for them, two of their columns with one JSON text are equal, and JSON
escapes the separator of the fingerprint. -/
structure Codec.FaithfulOn (codec : Codec) (rows : Set ObjectRow) : Prop where
  sha256 : Set.InjOn codec.sha256 ((fun row ↦ fingerprintText codec row.columns) '' rows)
  jsonText : Set.InjOn codec.jsonText {v : Value | ∃ row ∈ rows, v ∈ row.columns}
  separator : ∀ row ∈ rows, ∀ v ∈ row.columns, '\x1f' ∉ (codec.jsonText v).toList

theorem Codec.FaithfulOn.mono {codec : Codec} {rows rows' : Set ObjectRow}
    (h : codec.FaithfulOn rows) (hsub : rows' ⊆ rows) : codec.FaithfulOn rows' where
  sha256 := h.sha256.mono (Set.image_mono hsub)
  jsonText := by
    refine h.jsonText.mono ?_
    rintro v ⟨row, hrow, hv⟩
    exact ⟨row, hsub hrow, hv⟩
  separator row hrow := h.separator row (hsub hrow)

/-- The text before the first separator. -/
theorem takeWhile_separated {c : Char} {t : List Char} (ht : c ∉ t) (rest : List (List Char)) :
    (t ++ rest.flatMap (c :: ·)).takeWhile (· ≠ c) = t := by
  rw [List.takeWhile_append_of_pos]
  · cases rest with
    | nil => simp
    | cons u rest => simp
  · intro d hd
    simpa using fun heq : d = c ↦ ht (heq ▸ hd)

/-- Texts without the separator can be told from their separated list. -/
theorem separated_injective {c : Char} {l l' : List (List Char)} (hl : ∀ t ∈ l, c ∉ t)
    (hl' : ∀ t ∈ l', c ∉ t) (h : l.flatMap (c :: ·) = l'.flatMap (c :: ·)) : l = l' := by
  induction l generalizing l' with
  | nil =>
      cases l' with
      | nil => rfl
      | cons t rest => simp at h
  | cons t rest ih =>
      cases l' with
      | nil => simp at h
      | cons t' rest' =>
          have htail : t ++ rest.flatMap (c :: ·) = t' ++ rest'.flatMap (c :: ·) := by
            simpa using h
          obtain rfl : t = t' := by
            rw [← takeWhile_separated (hl t List.mem_cons_self) rest, htail,
              takeWhile_separated (hl' t' List.mem_cons_self)]
          rw [ih (fun u hu ↦ hl u (List.mem_cons_of_mem t hu))
            (fun u hu ↦ hl' u (List.mem_cons_of_mem t hu)) (List.append_cancel_left htail)]

theorem nullableText_injective : Function.Injective nullableText := by
  rintro (_ | a) (_ | b) h <;> simp_all [nullableText]

theorem scalar_nullableText (text : Option String) : (nullableText text).Scalar := by
  cases text <;> trivial

@[simp] theorem Value.scalar_string (text : String) : (Value.string text).Scalar := trivial

@[simp] theorem Value.scalar_real (bits : UInt64) : (Value.real bits).Scalar := trivial

theorem ObjectRow.scalar_columns (object : ObjectRow) : ∀ v ∈ object.columns, v.Scalar := by
  cases object with
  | document row => simp [ObjectRow.columns, DocumentRow.columns, scalar_nullableText]
  | memory row => simp [ObjectRow.columns, MemoryRow.columns, scalar_nullableText]
  | malformed => simp [ObjectRow.columns]

theorem DocumentRow.columns_injective : Function.Injective DocumentRow.columns := by
  rintro ⟨⟩ ⟨⟩ h
  simp only [DocumentRow.columns, List.cons.injEq, Value.string.injEq,
    nullableText_injective.eq_iff, and_true] at h
  simp [h]

theorem MemoryRow.columns_injective : Function.Injective MemoryRow.columns := by
  rintro ⟨⟩ ⟨⟩ h
  simp only [MemoryRow.columns, List.cons.injEq, Value.string.injEq, Value.real.injEq,
    nullableText_injective.eq_iff, and_true] at h
  simp [h]

theorem ObjectRow.columns_injective : Function.Injective ObjectRow.columns := by
  rintro (row | row | _) (row' | row' | _) h
  · exact congrArg ObjectRow.document (DocumentRow.columns_injective h)
  · simpa [ObjectRow.columns, DocumentRow.columns, MemoryRow.columns] using
      congrArg List.length h
  · simp [ObjectRow.columns, DocumentRow.columns] at h
  · simpa [ObjectRow.columns, DocumentRow.columns, MemoryRow.columns] using
      congrArg List.length h
  · exact congrArg ObjectRow.memory (MemoryRow.columns_injective h)
  · simp [ObjectRow.columns, MemoryRow.columns] at h
  · simp [ObjectRow.columns, DocumentRow.columns] at h
  · simp [ObjectRow.columns, MemoryRow.columns] at h
  · rfl

theorem jsonTexts_injective {codec : Codec} {values : Set Value}
    (h : values.InjOn codec.jsonText) {parts parts' : List Value}
    (hparts : ∀ v ∈ parts, v ∈ values) (hparts' : ∀ v ∈ parts', v ∈ values)
    (heq : (parts.map fun part ↦ (codec.jsonText part).toList) =
      parts'.map fun part ↦ (codec.jsonText part).toList) : parts = parts' := by
  induction parts generalizing parts' with
  | nil => exact (List.map_eq_nil_iff.mp heq.symm).symm
  | cons v rest ih =>
      cases parts' with
      | nil => simp at heq
      | cons v' rest' =>
          rw [List.map_cons, List.map_cons, List.cons.injEq] at heq
          rw [List.forall_mem_cons] at hparts hparts'
          rw [h hparts.1 hparts'.1 (String.toList_injective heq.1),
            ih hparts.2 hparts'.2 heq.2]

/-- What is hashed for two rows differs where the rows do. -/
theorem fingerprintText_injOn {codec : Codec} {rows : Set ObjectRow}
    (h : codec.FaithfulOn rows) : rows.InjOn fun row ↦ fingerprintText codec row.columns := by
  intro row hrow row' hrow' heq
  have htexts := List.append_cancel_left heq
  have hmap : ∀ l : List Value, (l.flatMap fun part ↦ '\x1f' :: (codec.jsonText part).toList) =
      (l.map fun part ↦ (codec.jsonText part).toList).flatMap ('\x1f' :: ·) := by
    intro l
    rw [List.flatMap_map]
  rw [hmap, hmap] at htexts
  have hseparated : ∀ object ∈ rows,
      ∀ t ∈ object.columns.map fun part ↦ (codec.jsonText part).toList, '\x1f' ∉ t := by
    intro object hobject t ht
    obtain ⟨v, hv, rfl⟩ := List.mem_map.mp ht
    exact h.separator object hobject v hv
  exact ObjectRow.columns_injective
    (jsonTexts_injective h.jsonText (fun v hv ↦ ⟨row, hrow, hv⟩) (fun v hv ↦ ⟨row', hrow', hv⟩)
      (separated_injective (hseparated row hrow) (hseparated row' hrow') htexts))

/-- The journal tells such rows apart. -/
theorem Codec.FaithfulOn.injOn {codec : Codec} {rows : Set ObjectRow} (h : codec.FaithfulOn rows) :
    rows.InjOn codec.digest.row := by
  intro row hrow row' hrow' heq
  exact fingerprintText_injOn h hrow hrow'
    (h.sha256 (Set.mem_image_of_mem _ hrow) (Set.mem_image_of_mem _ hrow')
      ((String.append_right_inj _).mp heq))

/-- No row is journaled as a deletion. -/
theorem Codec.digest_marks (codec : Codec) : codec.digest.Marks := by
  intro object heq
  have hchars := congrArg String.toList heq
  simp [Codec.digest, fingerprintValue] at hchars

end Cortana
