import Cortana.Text.Search
import Cortana.Store.Sample

/-!
# Metadata of evidence

`sanitize_evidence_metadata`: members under sensitive keys are dropped at every
depth, and depth, counts, strings and the size of the whole are bounded.  The
JSON text of a value is a parameter.
-/

namespace Cortana

open ByteText

namespace Retrieval

def maxEvidenceMetadataBytes : ℕ := 16 * 1024
def maxEvidenceMetadataDepth : ℕ := 8
def maxEvidenceMetadataItems : ℕ := 64
def maxEvidenceMetadataStringBytes : ℕ := 4 * 1024

def sensitiveMarkers : List String :=
  ["accesskey", "apikey", "authorization", "cookie", "credential", "password", "privatekey",
    "refreshtoken", "secret", "token"]

/-- `sensitive`. -/
def sensitive (key : String) : Bool :=
  sensitiveMarkers.any fun marker ↦
    containsText (toAsciiLowercase (key.toList.filter Char.isAlphanum)) marker.toList

/-- The characters that start before an offset. -/
def takeWithin (limit : ℕ) : ℕ → List Char → List Char
  | _, [] => []
  | offset, c :: rest =>
      if offset < limit then c :: takeWithin limit (offset + c.utf8Size) rest else []

/-- `visit`, by how many levels are left. -/
def visit : ℕ → Value → Value
  | 0, _ => .string "[truncated]"
  | levels + 1, value =>
      match value with
      | .object members =>
          .object (((members.filter fun m ↦ !sensitive m.1).take maxEvidenceMetadataItems).map
            fun m ↦ (m.1, visit levels m.2))
      | .array values => .array ((values.take maxEvidenceMetadataItems).map (visit levels))
      | .string text =>
          .string (String.ofList (takeWithin maxEvidenceMetadataStringBytes 0 text.toList))
      | other => other

/-- What stands for metadata that is too large. -/
def truncatedMetadata : Value := .object [("metadata_truncated", .bool true)]

/-- `sanitize_evidence_metadata`. -/
def sanitizeEvidenceMetadata (encode : Value → String) (value : Value) : Value :=
  let sanitized := visit maxEvidenceMetadataDepth value
  if (encode sanitized).utf8ByteSize ≤ maxEvidenceMetadataBytes then sanitized
  else truncatedMetadata

/-! ## What a value shows -/

/-- A value at some depth of another. -/
inductive Occurs : Value → Value → Prop where
  | refl (value : Value) : Occurs value value
  | array {items : List Value} {item value : Value} (mem : item ∈ items)
      (occurs : Occurs item value) : Occurs (.array items) value
  | object {members : List (String × Value)} {m : String × Value} {value : Value}
      (mem : m ∈ members) (occurs : Occurs m.2 value) : Occurs (.object members) value

/-- Two values that differ only in members under sensitive keys. -/
inductive SameElsewhere : Value → Value → Prop where
  | refl (value : Value) : SameElsewhere value value
  | array {items items' : List Value} (same : List.Forall₂ SameElsewhere items items') :
      SameElsewhere (.array items) (.array items')
  | object {members members' : List (String × Value)}
      (keys : (members.filter fun m ↦ !sensitive m.1).map Prod.fst =
        (members'.filter fun m ↦ !sensitive m.1).map Prod.fst)
      (same : List.Forall₂ SameElsewhere
        ((members.filter fun m ↦ !sensitive m.1).map Prod.snd)
        ((members'.filter fun m ↦ !sensitive m.1).map Prod.snd)) :
      SameElsewhere (.object members) (.object members')

/-- At most so many containers are nested in each other. -/
def NestsWithin : ℕ → Value → Prop
  | 0, value => (∀ items, value ≠ .array items) ∧ ∀ members, value ≠ .object members
  | levels + 1, value =>
      (∀ items, value = .array items → ∀ item ∈ items, NestsWithin levels item) ∧
        ∀ members, value = .object members → ∀ m ∈ members, NestsWithin levels m.2

/-! ## A visit -/

attribute [local simp] visit

theorem takeWithin_takeWithin (limit offset : ℕ) (s : List Char) :
    takeWithin limit offset (takeWithin limit offset s) = takeWithin limit offset s := by
  induction s generalizing offset with
  | nil => rfl
  | cons c rest ih =>
      rw [takeWithin]
      split
      next hbefore => rw [takeWithin, if_pos hbefore, ih]
      next => rfl

/-- No key of what is kept is sensitive. -/
theorem not_sensitive_of_occurs_visit (levels : ℕ) (value : Value)
    {members : List (String × Value)} (h : Occurs (visit levels value) (.object members)) :
    ∀ m ∈ members, sensitive m.1 = false := by
  induction levels generalizing value with
  | zero => cases h
  | succ levels ih =>
      cases value with
      | object all =>
          rw [visit] at h
          cases h with
          | refl =>
              intro m hm
              obtain ⟨kept, hkept, rfl⟩ := List.mem_map.mp hm
              simpa using (List.mem_filter.mp (List.mem_of_mem_take hkept)).2
          | object hmem hoccurs =>
              obtain ⟨kept, -, rfl⟩ := List.mem_map.mp hmem
              exact ih kept.2 hoccurs
      | array items =>
          rw [visit] at h
          cases h with
          | array hmem hoccurs =>
              obtain ⟨kept, -, rfl⟩ := List.mem_map.mp hmem
              exact ih kept hoccurs
      | null => cases h
      | bool => cases h
      | integer => cases h
      | real => cases h
      | string => cases h

theorem map_visit_eq_zip (levels : ℕ) (members : List (String × Value)) :
    (members.map fun m ↦ (m.1, visit levels m.2)) =
      (members.map Prod.fst).zip ((members.map Prod.snd).map (visit levels)) := by
  induction members with
  | nil => rfl
  | cons m rest ih => rw [List.map_cons, ih]; rfl

/-- What is visited is the same for values that differ in secrets. -/
theorem visit_eq_of_sameElsewhere (levels : ℕ) {value value' : Value}
    (h : SameElsewhere value value') : visit levels value = visit levels value' := by
  induction levels generalizing value value' with
  | zero => rfl
  | succ levels ih =>
      have hmap : ∀ {items items' : List Value}, List.Forall₂ SameElsewhere items items' →
          items.map (visit levels) = items'.map (visit levels) := by
        intro items items' hsame
        induction hsame with
        | nil => rfl
        | cons hfirst _ ihrest => rw [List.map_cons, List.map_cons, ih hfirst, ihrest]
      cases h with
      | refl => rfl
      | array hsame => rw [visit, visit, List.map_take, List.map_take, hmap hsame]
      | object hkeys hsame =>
          rw [visit, visit, List.map_take, List.map_take, map_visit_eq_zip, map_visit_eq_zip, hkeys,
            hmap hsame]

theorem nestsWithin_visit (levels : ℕ) (value : Value) : NestsWithin levels (visit levels value) := by
  induction levels generalizing value with
  | zero => exact ⟨fun _ ↦ Value.noConfusion, fun _ ↦ Value.noConfusion⟩
  | succ levels ih =>
      refine ⟨?_, ?_⟩
      · intro items hitems item hitem
        cases value <;> rw [visit] at hitems <;> cases hitems
        obtain ⟨kept, -, rfl⟩ := List.mem_map.mp hitem
        exact ih kept
      · intro members hmembers m hm
        cases value <;> rw [visit] at hmembers <;> cases hmembers
        obtain ⟨kept, -, rfl⟩ := List.mem_map.mp hm
        exact ih kept.2

theorem visit_visit (levels : ℕ) (value : Value) :
    visit levels (visit levels value) = visit levels value := by
  induction levels generalizing value with
  | zero => rfl
  | succ levels ih =>
      cases value with
      | object members =>
          have hkept : ((((members.filter fun m ↦ !sensitive m.1).take
              maxEvidenceMetadataItems).map fun m ↦ (m.1, visit levels m.2)).filter
                fun m ↦ !sensitive m.1) =
              (((members.filter fun m ↦ !sensitive m.1).take maxEvidenceMetadataItems).map
                fun m ↦ (m.1, visit levels m.2)) := by
            refine List.filter_eq_self.mpr fun m hm ↦ ?_
            obtain ⟨kept, hkept, rfl⟩ := List.mem_map.mp hm
            exact (List.mem_filter.mp (List.mem_of_mem_take hkept)).2
          rw [visit, visit, hkept, ← List.map_take, List.take_take, min_self, List.map_map]
          congr 1
          exact List.map_congr_left fun m _ ↦ Prod.ext rfl (ih m.2)
      | array items =>
          rw [visit, visit, ← List.map_take, List.take_take, min_self, List.map_map]
          congr 1
          exact List.map_congr_left fun item _ ↦ ih item
      | string text =>
          rw [visit, visit, String.toList_ofList, takeWithin_takeWithin]
      | null => rfl
      | bool => rfl
      | integer => rfl
      | real => rfl

/-! ## The whole -/

section Sanitize

variable {encode : Value → String}

/-- The fallback is what it is after another visit. -/
theorem visit_truncatedMetadata : visit maxEvidenceMetadataDepth truncatedMetadata =
    truncatedMetadata := by
  have hkey : sensitive "metadata_truncated" = false := by decide +kernel
  simp [truncatedMetadata, maxEvidenceMetadataDepth, maxEvidenceMetadataItems, hkey]

theorem sanitize_cases (value : Value) :
    sanitizeEvidenceMetadata encode value = visit maxEvidenceMetadataDepth value ∧
        (encode (visit maxEvidenceMetadataDepth value)).utf8ByteSize ≤ maxEvidenceMetadataBytes ∨
      sanitizeEvidenceMetadata encode value = visit maxEvidenceMetadataDepth truncatedMetadata := by
  rw [sanitizeEvidenceMetadata]
  split
  next hsmall => exact .inl ⟨rfl, hsmall⟩
  next => exact .inr visit_truncatedMetadata.symm

/-- Sanitised metadata has no sensitive key, says nothing about the members under
such keys, is bounded in size and depth, and is sanitised. -/
theorem sanitize_safe (hencode : encode truncatedMetadata = "\x7b\"metadata_truncated\":true\x7d")
    (value : Value) :
    (∀ members, Occurs (sanitizeEvidenceMetadata encode value) (.object members) →
        ∀ m ∈ members, sensitive m.1 = false) ∧
      (∀ value', SameElsewhere value value' →
        sanitizeEvidenceMetadata encode value = sanitizeEvidenceMetadata encode value') ∧
      (encode (sanitizeEvidenceMetadata encode value)).utf8ByteSize ≤ maxEvidenceMetadataBytes ∧
      NestsWithin maxEvidenceMetadataDepth (sanitizeEvidenceMetadata encode value) ∧
      sanitizeEvidenceMetadata encode (sanitizeEvidenceMetadata encode value) =
        sanitizeEvidenceMetadata encode value := by
  have hfallback : (encode truncatedMetadata).utf8ByteSize ≤ maxEvidenceMetadataBytes := by
    rw [hencode]
    decide +kernel
  have hsame : ∀ value', SameElsewhere value value' →
      sanitizeEvidenceMetadata encode value = sanitizeEvidenceMetadata encode value' := by
    intro value' h
    rw [sanitizeEvidenceMetadata, sanitizeEvidenceMetadata, visit_eq_of_sameElsewhere _ h]
  have hvisited : ∃ source, sanitizeEvidenceMetadata encode value =
      visit maxEvidenceMetadataDepth source ∧
        (encode (visit maxEvidenceMetadataDepth source)).utf8ByteSize ≤
          maxEvidenceMetadataBytes := by
    rcases sanitize_cases value with ⟨hvisit, hsize⟩ | htruncated
    · exact ⟨value, hvisit, hsize⟩
    · exact ⟨truncatedMetadata, htruncated, by rwa [visit_truncatedMetadata]⟩
  obtain ⟨source, hsource, hsize⟩ := hvisited
  refine ⟨?_, hsame, ?_, ?_, ?_⟩
  · rw [hsource]
    exact fun members h ↦ not_sensitive_of_occurs_visit _ source h
  · rwa [hsource]
  · rw [hsource]
    exact nestsWithin_visit _ source
  · rw [hsource, sanitizeEvidenceMetadata, visit_visit, if_pos hsize]

end Sanitize

/-- A token in a list of accounts is dropped, and so says nothing. -/
theorem sanitize_safe_account :
    sanitizeEvidenceMetadata Codec.sample.jsonText
        (.object [("accounts", .array [.object [("Access-Token", .string "t"), ("id", .null)]])]) =
      sanitizeEvidenceMetadata Codec.sample.jsonText
        (.object [("accounts", .array [.object [("id", .null)]])]) := by
  have hsecret : sensitive "Access-Token" = true := by decide +kernel
  have haccounts : sensitive "accounts" = false := by decide +kernel
  have hid : sensitive "id" = false := by decide +kernel
  refine (@sanitize_safe Codec.sample.jsonText (by decide +kernel) _).2.1 _ ?_
  refine .object (by simp [haccounts]) ?_
  simp only [haccounts, List.filter_cons, List.filter_nil, Bool.not_false, if_true, List.map_cons,
    List.map_nil]
  refine .cons (.array (.cons (.object ?_ ?_) .nil)) .nil
  · simp [hsecret, hid]
  · simpa [hsecret, hid] using List.Forall₂.cons (SameElsewhere.refl Value.null) .nil

end Retrieval

end Cortana
