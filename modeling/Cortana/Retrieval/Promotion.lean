import Cortana.Answer.Fusion
import Cortana.Chunking.Windows
import Cortana.Retrieval.Metadata
import Cortana.Store.Memories
import Mathlib.Data.String.Basic
import Mathlib.Data.List.Sort

/-!
# Promotion of exact symbols

`promote_exact_code_symbols`: rows of files that define a symbol of the query's
name go to the front and carry the symbol in their metadata.
-/

namespace Cortana

open ByteText

/-- Assignment through an index; it panics on what is neither an object nor null. -/
def Value.setIndex (value : Value) (key : String) (new : Value) : Option Value :=
  match value with
  | .null => some (.object [(key, new)])
  | .object members =>
      some (.object (if members.any (·.1 == key) then
        members.map fun m ↦ if m.1 == key then (key, new) else m
        else members ++ [(key, new)]))
  | _ => none

namespace Retrieval

/-- `SourceSpan`: the bytes are a range. -/
structure SourceSpan where
  startByte : ℕ
  endByte : ℕ
  startLine : ℕ
  endLine : ℕ
  ordered : startByte ≤ endByte

/-- What promotion reads of a `SymbolSearchHit`. -/
structure SymbolHit where
  symbolId : String
  qualifiedName : String
  repositoryId : Option String
  revision : Option String
  file : String
  span : SourceSpan
  exact : Bool
  ambiguous : Bool

def optionText (text : Option String) : Value := text.elim .null .string

/-- The JSON that is put into the metadata. -/
def marker (hit : SymbolHit) : Value :=
  .object [("symbol_id", .string hit.symbolId), ("qualified_name", .string hit.qualifiedName),
    ("repository_id", optionText hit.repositoryId), ("revision", optionText hit.revision),
    ("file", .string hit.file),
    ("span", .object [("start_byte", .integer hit.span.startByte),
      ("end_byte", .integer hit.span.endByte), ("start_line", .integer hit.span.startLine),
      ("end_line", .integer hit.span.endLine)]),
    ("exact", .bool true), ("ambiguous", .bool hit.ambiguous)]

/-- `code_document_by_source_id_scoped`. -/
def codeDocumentBySourceIdScoped (documents : List Document) (sourceId : String)
    (project : Option String) (principalAcl : List String) : Option Document :=
  (((documents.filter fun d ↦ d.sourceId = sourceId ∧ project.all (d.project = ·)).insertionSort
    fun a b ↦ b.updatedAt ≤ a.updatedAt).take 8).find? fun d ↦ aclAllows d.acl principalAcl

/-- The content around a span; `none` is a panic. -/
def contentAround (content : List Char) (span : SourceSpan) : Option (List Char) :=
  slice content (charBoundaryAtOrBefore.go content (span.startByte - 512))
    (nextCharBoundary content (span.endByte + 512))

/-- What tells rows apart. -/
structure Place where
  source : String
  sourceId : String
  uri : Option String
deriving DecidableEq

def placeOf (row : Evidence) : Place := ⟨row.source, row.sourceId, row.uri⟩

/-- `evidence_dedupe_key`. -/
def evidenceDedupeKey (place : Place) : String :=
  place.source ++ "\x00" ++ place.uri.getD place.sourceId

/-- `retain` of what is new to a set of keys. -/
def retainNew {α κ : Type*} [DecidableEq κ] (key : α → κ) : List κ → List α → List α
  | _, [] => []
  | seen, row :: rest =>
      if key row ∈ seen then retainNew key seen rest
      else row :: retainNew key (key row :: seen) rest

/-- A row of the evidence with the marker in its metadata. -/
def markedRow (row : Evidence) (metadata : Value) : Evidence :=
  { row with score := row.score + 10, metadata := metadata }

/-- A row for a symbol whose document is not in the evidence. -/
def symbolRow (document : Document) (hit : SymbolHit) (content : List Char) (metadata : Value) :
    Evidence where
  chunkId := "symbol:" ++ hit.symbolId
  source := document.source
  sourceId := document.sourceId
  title := document.title
  uri := document.uri
  content := String.ofList content
  score := 10
  semanticRank := none
  lexicalRank := none
  updatedAt := document.updatedAt
  metadata := metadata

section Promote

variable (encode : Value → String) (documents : List Document) (project : Option String)
  (principalAcl : List String)

/-- One round of the loop; `none` is a panic. -/
def promoteHit (evidence : List Evidence) (hit : SymbolHit) : Option (List Evidence) :=
  match evidence.find? (·.sourceId = hit.file) with
  | some row =>
      (row.metadata.setIndex "code_evidence" (marker hit)).map fun metadata ↦
        markedRow row metadata :: evidence.eraseP (·.sourceId = hit.file)
  | none =>
      match codeDocumentBySourceIdScoped documents hit.file project principalAcl with
      | none => some evidence
      | some document =>
          (contentAround document.content.toList hit.span).bind fun content ↦
            ((sanitizeEvidenceMetadata encode document.metadata).setIndex "code_evidence"
              (marker hit)).map fun metadata ↦ symbolRow document hit content metadata :: evidence

/-- `promote_exact_code_symbols` after the search for hits. -/
def promoteExactCodeSymbols (limit : ℕ) (hits : List SymbolHit) (evidence : List Evidence) :
    Option (List Evidence) :=
  let exact := hits.filter (·.exact)
  if exact.isEmpty then some evidence
  else
    (exact.reverse.foldlM (promoteHit encode documents project principalAcl) evidence).map
      fun rows ↦ (retainNew (fun row ↦ evidenceDedupeKey (placeOf row)) [] rows).take limit

end Promote

/-! ## Where hits are put -/

/-- The first hit of each file. -/
def leaders : List SymbolHit → List SymbolHit
  | [] => []
  | hit :: rest => hit :: (leaders rest).filter (·.file ≠ hit.file)

/-- The rows that are not the first one of a file. -/
def unpromoted : Finset String → List Evidence → List Evidence
  | _, [] => []
  | files, row :: rest =>
      if row.sourceId ∈ files then unpromoted (files.erase row.sourceId) rest
      else row :: unpromoted files rest

/-- The metadata can be assigned to. -/
def Indexable (value : Value) : Prop := value = .null ∨ ∃ members, value = .object members

/-- A row as it is put in front, or as it was. -/
inductive Entry where
  | promoted (hit : SymbolHit) (place : Place)
  | kept (row : Evidence)

def Entry.place : Entry → Place
  | promoted _ place => place
  | kept row => placeOf row

section Plan

variable (encode : Value → String) (documents : List Document) (project : Option String)
  (principalAcl : List String) (evidence : List Evidence)

/-- The row or document that a file is matched with. -/
def matchedPlace (file : String) : Option Place :=
  match evidence.find? (·.sourceId = file) with
  | some row => some (placeOf row)
  | none =>
      (codeDocumentBySourceIdScoped documents file project principalAcl).map fun document ↦
        ⟨document.source, document.sourceId, document.uri⟩

/-- The metadata of what a file is matched with can be assigned to. -/
def Markable (file : String) : Prop :=
  match evidence.find? (·.sourceId = file) with
  | some row => Indexable row.metadata
  | none => ∀ document,
      codeDocumentBySourceIdScoped documents file project principalAcl = some document →
        Indexable (sanitizeEvidenceMetadata encode document.metadata)

/-- The first hit of each file that is matched, with its place. -/
def placed (hits : List SymbolHit) : List (SymbolHit × Place) :=
  (leaders hits).filterMap fun hit ↦
    (matchedPlace documents project principalAcl evidence hit.file).map (hit, ·)

/-- The files of hits. -/
def filesOf (hits : List SymbolHit) : Finset String := (hits.map SymbolHit.file).toFinset

/-- The rows in the order of promotion, before they are cut. -/
def entries (hits : List SymbolHit) : List Entry :=
  ((placed documents project principalAcl evidence hits).map fun p ↦ .promoted p.1 p.2) ++
    (unpromoted (filesOf hits) evidence).map .kept

/-- What is left of them. -/
def survivors (limit : ℕ) (hits : List SymbolHit) : List Entry :=
  (retainNew (fun entry ↦ evidenceDedupeKey entry.place) []
    (entries documents project principalAcl evidence hits)).take limit

end Plan

/-! ## Assignment -/

theorem setIndex_of_indexable {value : Value} (h : Indexable value) (key : String) (new : Value) :
    ∃ result, value.setIndex key new = some result ∧ result.get key = some new ∧
      Indexable result := by
  rcases h with rfl | ⟨members, rfl⟩
  · exact ⟨_, rfl, by simp [Value.get], .inr ⟨_, rfl⟩⟩
  · refine ⟨_, rfl, ?_, .inr ⟨_, rfl⟩⟩
    rw [Value.get]
    by_cases hkey : members.any (·.1 == key) = true
    · obtain ⟨m, hm, hmkey⟩ := List.any_eq_true.mp hkey
      have hsame : ((fun m : String × Value ↦ m.1 == key) ∘
          fun m ↦ if m.1 == key then (key, new) else m) = fun m ↦ m.1 == key := by
        funext m
        by_cases hm : m.1 = key <;> simp [hm]
      have hsome : (members.find? fun m ↦ m.1 == key).isSome = true :=
        List.find?_isSome.mpr ⟨m, hm, hmkey⟩
      obtain ⟨found, hfound⟩ := Option.isSome_iff_exists.mp hsome
      have hfound_key : (found.1 == key) = true := by simpa using List.find?_some hfound
      rw [if_pos hkey, List.find?_map, hsame, hfound, Option.map_some, Option.map_some,
        if_pos hfound_key]
    · have hnone : (members.find? fun m ↦ m.1 == key) = none :=
        List.find?_eq_none.mpr fun m hm hmkey ↦ hkey (List.any_eq_true.mpr ⟨m, hm, hmkey⟩)
      rw [if_neg hkey, List.find?_append, hnone]
      simp

theorem setIndex_of_not_indexable {value : Value} (h : ¬Indexable value) (key : String)
    (new : Value) : value.setIndex key new = none := by
  cases value with
  | null => exact absurd (.inl rfl) h
  | object members => exact absurd (.inr ⟨members, rfl⟩) h
  | bool => rfl
  | integer => rfl
  | real => rfl
  | string => rfl
  | array => rfl

/-! ## Lookups -/

section Lookup

variable {documents : List Document} {project : Option String} {principalAcl : List String}

theorem codeDocument_spec {file : String} {document : Document}
    (h : codeDocumentBySourceIdScoped documents file project principalAcl = some document) :
    document ∈ documents ∧ document.sourceId = file ∧
      aclAllows document.acl principalAcl = true := by
  have hmem := List.mem_of_mem_take (List.mem_of_find?_eq_some h)
  rw [List.mem_insertionSort] at hmem
  obtain ⟨hdocument, hscope⟩ := List.mem_filter.mp hmem
  have hallowed := List.find?_some h
  exact ⟨hdocument, (of_decide_eq_true hscope).1, hallowed⟩

theorem nextCharBoundary_spec (content : List Char) (offset : ℕ) :
    isCharBoundary content (nextCharBoundary content offset) = true ∧
      min offset (byteLen content) ≤ nextCharBoundary content offset := by
  have hgo : ∀ room start, start + room = byteLen content →
      isCharBoundary content (nextCharBoundary.go content room start) = true ∧
        start ≤ nextCharBoundary.go content room start := by
    intro room
    induction room with
    | zero =>
        rintro start hstart
        rw [nextCharBoundary.go, ← isCharBoundary_byteLen content, ← hstart]
        exact ⟨rfl, le_rfl⟩
    | succ room ih =>
        intro start hstart
        rw [nextCharBoundary.go]
        split
        next hboundary => exact ⟨hboundary, le_rfl⟩
        next =>
          obtain ⟨hboundary, hle⟩ := ih (start + 1) (by omega)
          exact ⟨hboundary, by omega⟩
  rw [nextCharBoundary]
  exact hgo _ _ (by omega)

/-- The content around a span is there. -/
theorem contentAround_spec (content : List Char) (span : SourceSpan) :
    ∃ text, contentAround content span = some text ∧ text <:+: content := by
  obtain ⟨hstart, hstart_le, -⟩ := charBoundaryAtOrBefore_go content (span.startByte - 512)
  obtain ⟨hstop, hstop_le⟩ := nextCharBoundary_spec content (span.endByte + 512)
  have hlength := le_byteLen_of_isCharBoundary hstart
  have hordered := span.ordered
  obtain ⟨text, htext⟩ := slice_isSome_of_boundaries hstart hstop (by omega)
  obtain ⟨p, q, hcontent, -, -⟩ := Iff.mp slice_eq_some_iff htext
  exact ⟨text, htext, p, q, hcontent.symm⟩

end Lookup

/-! ## The rows that stay -/

theorem unpromoted_sublist (files : Finset String) (rows : List Evidence) :
    (unpromoted files rows).Sublist rows := by
  fun_induction unpromoted files rows with
  | case1 => exact .slnil
  | case2 _ _ _ _ ih => exact ih.cons _
  | case3 _ _ _ _ ih => exact ih.cons_cons _

theorem unpromoted_insert {file : String} {files : Finset String} (hfile : file ∉ files)
    (rows : List Evidence) : unpromoted (insert file files) rows =
      (unpromoted files rows).eraseP (·.sourceId = file) := by
  induction rows generalizing files with
  | nil => rfl
  | cons row rest ih =>
      by_cases hrow : row.sourceId = file
      · subst hrow
        rw [unpromoted, if_pos (Finset.mem_insert_self _ _), Finset.erase_insert hfile, unpromoted,
          if_neg hfile, List.eraseP_cons_of_pos (by simp)]
      · by_cases hmem : row.sourceId ∈ files
        · rw [unpromoted, if_pos (Finset.mem_insert_of_mem hmem), unpromoted, if_pos hmem,
            Finset.erase_insert_of_ne (Ne.symm hrow)]
          exact ih fun h ↦ hfile (Finset.mem_of_mem_erase h)
        · rw [unpromoted, if_neg (by simp [hrow, hmem]), unpromoted, if_neg hmem,
            List.eraseP_cons_of_neg (by simpa using hrow), ih hfile]

theorem find_unpromoted {file : String} {files : Finset String} (hfile : file ∉ files)
    (rows : List Evidence) : (unpromoted files rows).find? (·.sourceId = file) =
      rows.find? (·.sourceId = file) := by
  induction rows generalizing files with
  | nil => rfl
  | cons row rest ih =>
      rw [unpromoted]
      split
      next hmem =>
        have hrow : row.sourceId ≠ file := fun h ↦ hfile (h ▸ hmem)
        rw [List.find?_cons_of_neg (by simpa using hrow)]
        exact ih fun h ↦ hfile (Finset.mem_of_mem_erase h)
      next =>
        rw [List.find?_cons, List.find?_cons, ih hfile]

/-- With different keys, the first of a key is the only one. -/
theorem eraseP_eq_filter {α κ : Type*} [DecidableEq κ] {key : α → κ} {k : κ} {l : List α}
    (h : (l.map key).Nodup) :
    l.eraseP (fun a ↦ key a = k) = l.filter fun a ↦ key a ≠ k := by
  induction l with
  | nil => rfl
  | cons a l ih =>
      rw [List.map_cons, List.nodup_cons] at h
      by_cases hk : key a = k
      · rw [List.eraseP_cons_of_pos (by simpa using hk), List.filter_cons_of_neg (by simpa using hk)]
        refine (List.filter_eq_self.mpr fun b hb ↦ decide_eq_true ?_).symm
        rintro hsame
        exact h.1 (hk.trans hsame.symm ▸ List.mem_map_of_mem hb)
      · rw [List.eraseP_cons_of_neg (by simpa using hk), List.filter_cons_of_pos (by simpa using hk),
          ih h.2]

/-! ## The loop -/

theorem mem_leaders_of_mem {hits : List SymbolHit} {hit : SymbolHit} (h : hit ∈ hits) :
    ∃ leader ∈ leaders hits, leader.file = hit.file := by
  induction hits with
  | nil => cases h
  | cons first rest ih =>
      by_cases hfile : hit.file = first.file
      · exact ⟨first, List.mem_cons_self, hfile.symm⟩
      · have hrest : hit ∈ rest := (List.mem_cons.mp h).resolve_left fun heq ↦ hfile (heq ▸ rfl)
        obtain ⟨leader, hleader, hsame⟩ := ih hrest
        refine ⟨leader, List.mem_cons_of_mem _ (List.mem_filter.mpr ⟨hleader, ?_⟩), hsame⟩
        simpa [hsame] using hfile

theorem leaders_subset {hits : List SymbolHit} : leaders hits ⊆ hits := by
  induction hits with
  | nil => exact List.Subset.refl _
  | cons first rest ih =>
      refine List.cons_subset_cons _ fun hit hhit ↦ ih (List.mem_filter.mp hhit).1

theorem nodup_leaders (hits : List SymbolHit) : ((leaders hits).map SymbolHit.file).Nodup := by
  induction hits with
  | nil => exact List.nodup_nil
  | cons first rest ih =>
      rw [leaders, List.map_cons, List.nodup_cons]
      refine ⟨fun hmem ↦ ?_, ih.sublist (List.filter_sublist.map _)⟩
      obtain ⟨hit, hhit, hfile⟩ := List.mem_map.mp hmem
      simpa [hfile] using (List.mem_filter.mp hhit).2

section Loop

variable {encode : Value → String} {documents : List Document} {project : Option String}
  {principalAcl : List String} {evidence : List Evidence}

theorem matchedPlace_sourceId {file : String} {place : Place}
    (h : matchedPlace documents project principalAcl evidence file = some place) :
    place.sourceId = file := by
  rw [matchedPlace] at h
  split at h
  next row hrow =>
    obtain rfl := Option.some.inj h
    have hfile := List.find?_some hrow
    exact of_decide_eq_true hfile
  next =>
    obtain ⟨document, hdocument, rfl⟩ := Option.map_eq_some_iff.mp h
    exact (codeDocument_spec hdocument).2.1

theorem mem_placed_iff {hits : List SymbolHit} {hit : SymbolHit} {place : Place} :
    (hit, place) ∈ placed documents project principalAcl evidence hits ↔ hit ∈ leaders hits ∧
      matchedPlace documents project principalAcl evidence hit.file = some place := by
  rw [placed, List.mem_filterMap]
  constructor
  · rintro ⟨leader, hleader, h⟩
    obtain ⟨_, hplace, heq⟩ := Option.map_eq_some_iff.mp h
    obtain ⟨rfl, rfl⟩ := Prod.mk.inj heq
    exact ⟨hleader, hplace⟩
  · rintro ⟨hleader, hplace⟩
    exact ⟨hit, hleader, by rw [hplace]; rfl⟩

theorem placed_cons (hit : SymbolHit) (rest : List SymbolHit) :
    placed documents project principalAcl evidence (hit :: rest) =
      ((matchedPlace documents project principalAcl evidence hit.file).map (hit, ·)).toList ++
        (placed documents project principalAcl evidence rest).filter fun p ↦
          p.1.file ≠ hit.file := by
  have hfilter : ((leaders rest).filter (·.file ≠ hit.file)).filterMap (fun leader ↦
      (matchedPlace documents project principalAcl evidence leader.file).map (leader, ·)) =
        (placed documents project principalAcl evidence rest).filter fun p ↦
          p.1.file ≠ hit.file := by
    rw [placed]
    induction leaders rest with
    | nil => rfl
    | cons leader more ih =>
        cases hplace : matchedPlace documents project principalAcl evidence leader.file <;>
          by_cases hfile : leader.file = hit.file <;> simp_all
  rw [placed, leaders, List.filterMap_cons, hfilter]
  cases matchedPlace documents project principalAcl evidence hit.file <;> rfl

/-- Where the content of a row comes from. -/
def Visible (documents : List Document) (principalAcl : List String) (evidence : List Evidence)
    (row : Evidence) : Prop :=
  (∃ given ∈ evidence, placeOf given = placeOf row ∧ given.content = row.content) ∨
    ∃ document ∈ documents, aclAllows document.acl principalAcl = true ∧
      placeOf row = ⟨document.source, document.sourceId, document.uri⟩ ∧
        row.content.toList <:+: document.content.toList

/-- A row in front, with the hit that put it there. -/
structure Marked (documents : List Document) (principalAcl : List String)
    (evidence : List Evidence) (row : Evidence) (mark : SymbolHit × Place) : Prop where
  place : placeOf row = mark.2
  code : row.metadata.get "code_evidence" = some (marker mark.1)
  indexable : Indexable row.metadata
  visible : Visible documents principalAcl evidence row

/-- What the loop has made of the evidence: rows in front, each with its hit, and
the rows that stay. -/
structure Tagged (documents : List Document) (project : Option String)
    (principalAcl : List String) (evidence : List Evidence) (hits : List SymbolHit)
    (rows : List Evidence) (tagged : List (Evidence × SymbolHit × Place)) : Prop where
  rows : rows = tagged.map Prod.fst ++ unpromoted (filesOf hits) evidence
  marks : tagged.map Prod.snd = placed documents project principalAcl evidence hits
  marked : ∀ t ∈ tagged, Marked documents principalAcl evidence t.1 t.2

theorem filesOf_cons (hit : SymbolHit) (rest : List SymbolHit) :
    filesOf (hit :: rest) = insert hit.file (filesOf rest) := by
  rw [filesOf, List.map_cons, List.toFinset_cons, filesOf]

theorem mem_filesOf {hits : List SymbolHit} {file : String} :
    file ∈ filesOf hits ↔ ∃ hit ∈ hits, hit.file = file := by
  rw [filesOf, List.mem_toFinset, List.mem_map]

theorem nodup_placed (hits : List SymbolHit) :
    ((placed documents project principalAcl evidence hits).map fun p ↦ p.1.file).Nodup := by
  have hsub : ((placed documents project principalAcl evidence hits).map fun p ↦ p.1.file).Sublist
      ((leaders hits).map SymbolHit.file) := by
    rw [placed]
    induction leaders hits with
    | nil => exact .slnil
    | cons leader more ih =>
        rw [List.filterMap_cons, List.map_cons]
        cases matchedPlace documents project principalAcl evidence leader.file with
        | none => exact ih.cons _
        | some place => exact ih.cons_cons _
  exact (nodup_leaders hits).sublist hsub

section State

variable {hits : List SymbolHit} {hit : SymbolHit} {rows : List Evidence}
  {tagged : List (Evidence × SymbolHit × Place)}

/-- The rows in front are those of matched files. -/
theorem Tagged.file (h : Tagged documents project principalAcl evidence hits rows tagged)
    {t : Evidence × SymbolHit × Place} (ht : t ∈ tagged) :
    t.1.sourceId = t.2.1.file ∧ t.2.1 ∈ leaders hits ∧
      matchedPlace documents project principalAcl evidence t.2.1.file = some t.2.2 := by
  have hmem : (t.2.1, t.2.2) ∈ placed documents project principalAcl evidence hits :=
    h.marks ▸ List.mem_map_of_mem ht
  obtain ⟨hleader, hplace⟩ := Iff.mp mem_placed_iff hmem
  refine ⟨?_, hleader, hplace⟩
  rw [← matchedPlace_sourceId hplace, ← (h.marked t ht).place]
  rfl

theorem Tagged.nodup (h : Tagged documents project principalAcl evidence hits rows tagged) :
    (tagged.map fun t ↦ t.1.sourceId).Nodup := by
  have hfiles : (tagged.map fun t ↦ t.1.sourceId) =
      (placed documents project principalAcl evidence hits).map fun p ↦ p.1.file := by
    rw [← h.marks, List.map_map]
    exact List.map_congr_left fun t ht ↦ (h.file ht).1
  rw [hfiles]
  exact nodup_placed hits

theorem Tagged.find_of_notMem
    (h : Tagged documents project principalAcl evidence hits rows tagged) {file : String}
    (hfile : file ∉ filesOf hits) :
    (∀ row ∈ tagged.map Prod.fst, ¬decide (row.sourceId = file) = true) ∧
      rows.find? (·.sourceId = file) = evidence.find? (·.sourceId = file) := by
  have hnone : ∀ row ∈ tagged.map Prod.fst, ¬decide (row.sourceId = file) = true := by
    intro row hrow hsame
    obtain ⟨t, ht, rfl⟩ := List.mem_map.mp hrow
    obtain ⟨hsource, hleader, -⟩ := h.file ht
    exact hfile (Iff.mpr mem_filesOf ⟨t.2.1, leaders_subset hleader,
      hsource.symm.trans (of_decide_eq_true hsame)⟩)
  refine ⟨hnone, ?_⟩
  rw [h.rows, List.find?_append, List.find?_eq_none.mpr hnone, find_unpromoted hfile]
  rfl

/-- The marks of other files stay. -/
theorem filter_placed_of_notMem (hfile : hit.file ∉ filesOf hits) :
    (placed documents project principalAcl evidence hits).filter (fun p ↦ p.1.file ≠ hit.file) =
      placed documents project principalAcl evidence hits := by
  refine List.filter_eq_self.mpr fun p hp ↦ ?_
  obtain ⟨hleader, -⟩ := Iff.mp mem_placed_iff hp
  exact decide_eq_true fun heq ↦
    hfile (Iff.mpr mem_filesOf ⟨p.1, leaders_subset hleader, heq⟩)

/-- A file without a row in the evidence takes none away. -/
theorem unpromoted_cons_of_find_eq_none (hnone : evidence.find? (·.sourceId = hit.file) = none) :
    unpromoted (filesOf (hit :: hits)) evidence = unpromoted (filesOf hits) evidence := by
  rw [filesOf_cons]
  by_cases hmem : hit.file ∈ filesOf hits
  · rw [Finset.insert_eq_of_mem hmem]
  · rw [unpromoted_insert hmem, List.eraseP_of_forall_not]
    intro row hrow
    exact List.find?_eq_none.mp hnone row ((unpromoted_sublist _ _).mem hrow)

/-- A hit whose file is not matched changes nothing. -/
theorem Tagged.unmatched (encode : Value → String)
    (h : Tagged documents project principalAcl evidence hits rows tagged)
    (hplace : matchedPlace documents project principalAcl evidence hit.file = none) :
    promoteHit encode documents project principalAcl rows hit = some rows ∧
      Tagged documents project principalAcl evidence (hit :: hits) rows tagged := by
  obtain ⟨hrow, hdocument⟩ : evidence.find? (·.sourceId = hit.file) = none ∧
      codeDocumentBySourceIdScoped documents hit.file project principalAcl = none := by
    rw [matchedPlace] at hplace
    split at hplace
    next => cases hplace
    next hnone => exact ⟨hnone, Option.map_eq_none_iff.mp hplace⟩
  have hother : ∀ p ∈ placed documents project principalAcl evidence hits,
      p.1.file ≠ hit.file := by
    intro p hp hfile
    have hmatched := (Iff.mp mem_placed_iff hp).2
    rw [hfile, hplace] at hmatched
    cases hmatched
  have hfind : rows.find? (·.sourceId = hit.file) = none := by
    rw [List.find?_eq_none]
    intro row hmem
    rw [h.rows] at hmem
    rcases List.mem_append.mp hmem with hmem | hmem
    · obtain ⟨t, ht, rfl⟩ := List.mem_map.mp hmem
      have hmark : t.2 ∈ placed documents project principalAcl evidence hits :=
        h.marks ▸ List.mem_map_of_mem ht
      simpa [(h.file ht).1] using hother t.2 hmark
    · exact List.find?_eq_none.mp hrow row ((unpromoted_sublist _ _).mem hmem)
  refine ⟨?_, ?_, ?_, h.marked⟩
  · rw [promoteHit, hfind, hdocument]
  · rw [unpromoted_cons_of_find_eq_none hrow]
    exact h.rows
  · rw [placed_cons, hplace, h.marks]
    exact (List.filter_eq_self.mpr fun p hp ↦ decide_eq_true (hother p hp)).symm

/-- A hit whose file is in front already moves its row and marks it anew. -/
theorem Tagged.again (h : Tagged documents project principalAcl evidence hits rows tagged)
    (hfile : hit.file ∈ filesOf hits) {place : Place}
    (hplace : matchedPlace documents project principalAcl evidence hit.file = some place) :
    ∃ rows' tagged', promoteHit encode documents project principalAcl rows hit = some rows' ∧
      Tagged documents project principalAcl evidence (hit :: hits) rows' tagged' := by
  have hexists : ∃ row ∈ tagged.map Prod.fst, decide (row.sourceId = hit.file) = true := by
    obtain ⟨other, hother, hsame⟩ := Iff.mp mem_filesOf hfile
    obtain ⟨leader, hleader, hleader_file⟩ := mem_leaders_of_mem hother
    have hmark : (leader, place) ∈ tagged.map Prod.snd := by
      rw [h.marks]
      exact Iff.mpr mem_placed_iff ⟨hleader, by rw [hleader_file, hsame, hplace]⟩
    obtain ⟨t, ht, hmark⟩ := List.mem_map.mp hmark
    refine ⟨t.1, List.mem_map_of_mem ht, decide_eq_true ?_⟩
    rw [(h.file ht).1, hmark, hleader_file, hsame]
  obtain ⟨row, hrow⟩ := Option.isSome_iff_exists.mp (List.find?_isSome.mpr hexists)
  have hfind : rows.find? (·.sourceId = hit.file) = some row := by
    rw [h.rows, List.find?_append, hrow, Option.some_or]
  obtain ⟨t, ht, rfl⟩ := List.mem_map.mp (List.mem_of_find?_eq_some hrow)
  have hsource : t.1.sourceId = hit.file := by
    have hfile := List.find?_some hrow
    exact of_decide_eq_true hfile
  obtain ⟨metadata, hmetadata, hcode, hindexable⟩ :=
    setIndex_of_indexable (h.marked t ht).indexable "code_evidence" (marker hit)
  have herase : rows.eraseP (·.sourceId = hit.file) =
      (tagged.filter fun t ↦ t.1.sourceId ≠ hit.file).map Prod.fst ++
        unpromoted (filesOf hits) evidence := by
    obtain ⟨first, hfirst, hfirst_source⟩ := hexists
    have hleft := List.eraseP_append_left (p := fun row : Evidence ↦ row.sourceId = hit.file)
      hfirst_source (unpromoted (filesOf hits) evidence) hfirst
    rw [h.rows, hleft, List.eraseP_map]
    congr 2
    exact eraseP_eq_filter h.nodup
  refine ⟨markedRow t.1 metadata :: rows.eraseP (·.sourceId = hit.file),
    (markedRow t.1 metadata, hit, place) :: tagged.filter fun t ↦ t.1.sourceId ≠ hit.file,
    ?_, ?_, ?_, ?_⟩
  · rw [promoteHit, hfind]
    dsimp only
    rw [hmetadata]
    rfl
  · rw [herase, filesOf_cons, Finset.insert_eq_of_mem hfile]
    rfl
  · rw [placed_cons, hplace, ← h.marks, List.filter_map]
    refine congrArg (List.cons _) (congrArg (List.map Prod.snd) ?_)
    exact List.filter_congr fun t ht ↦ by simp [(h.file ht).1]
  · intro t' ht'
    rcases List.mem_cons.mp ht' with rfl | ht'
    · refine ⟨?_, hcode, hindexable, (h.marked t ht).visible⟩
      have hmatched := (h.file ht).2.2
      rw [← (h.file ht).1, hsource, hplace] at hmatched
      exact (h.marked t ht).place.trans (Option.some.inj hmatched).symm
    · exact h.marked t' (List.mem_filter.mp ht').1

/-- A hit whose file is new goes to the front if its metadata can be assigned to. -/
theorem Tagged.new (h : Tagged documents project principalAcl evidence hits rows tagged)
    (hfile : hit.file ∉ filesOf hits) {place : Place}
    (hplace : matchedPlace documents project principalAcl evidence hit.file = some place) :
    (Markable encode documents project principalAcl evidence hit.file ∧
      ∃ rows' tagged', promoteHit encode documents project principalAcl rows hit = some rows' ∧
        Tagged documents project principalAcl evidence (hit :: hits) rows' tagged') ∨
      (¬Markable encode documents project principalAcl evidence hit.file ∧
        promoteHit encode documents project principalAcl rows hit = none) := by
  obtain ⟨hnone, hfind⟩ := h.find_of_notMem hfile
  rw [matchedPlace] at hplace
  split at hplace
  next row hrow =>
    obtain rfl := Option.some.inj hplace
    rw [promoteHit, hfind, Markable, hrow]
    dsimp only
    by_cases hindexable : Indexable row.metadata
    · obtain ⟨metadata, hmetadata, hcode, hresult⟩ :=
        setIndex_of_indexable hindexable "code_evidence" (marker hit)
      refine .inl ⟨hindexable, markedRow row metadata :: rows.eraseP (·.sourceId = hit.file),
        (markedRow row metadata, hit, placeOf row) :: tagged, ?_, ?_, ?_, ?_⟩
      · rw [hmetadata]
        rfl
      · rw [h.rows, List.eraseP_append_right _ hnone, filesOf_cons, unpromoted_insert hfile]
        rfl
      · rw [placed_cons, filter_placed_of_notMem hfile, List.map_cons, h.marks, matchedPlace, hrow]
        rfl
      · refine List.forall_mem_cons.mpr ⟨⟨rfl, hcode, hresult, ?_⟩, h.marked⟩
        exact .inl ⟨row, List.mem_of_find?_eq_some hrow, rfl, rfl⟩
    · refine .inr ⟨hindexable, ?_⟩
      rw [setIndex_of_not_indexable hindexable]
      rfl
  next hrow =>
    obtain ⟨document, hdocument, rfl⟩ := Option.map_eq_some_iff.mp hplace
    obtain ⟨hmem, hsource, hallowed⟩ := codeDocument_spec hdocument
    obtain ⟨text, htext, hinfix⟩ := contentAround_spec document.content.toList hit.span
    rw [promoteHit, hfind, Markable, hrow]
    dsimp only
    rw [hdocument]
    dsimp only
    rw [htext, Option.bind_some]
    by_cases hindexable : Indexable (sanitizeEvidenceMetadata encode document.metadata)
    · obtain ⟨metadata, hmetadata, hcode, hresult⟩ :=
        setIndex_of_indexable hindexable "code_evidence" (marker hit)
      rw [hmetadata]
      refine .inl ⟨fun d hd ↦ Option.some.inj hd ▸ hindexable,
        symbolRow document hit text metadata :: rows,
        (symbolRow document hit text metadata, hit,
          ⟨document.source, document.sourceId, document.uri⟩) :: tagged, rfl, ?_, ?_, ?_⟩
      · rw [unpromoted_cons_of_find_eq_none hrow, List.map_cons, List.cons_append, ← h.rows]
      · rw [placed_cons, filter_placed_of_notMem hfile, List.map_cons, h.marks, matchedPlace, hrow]
        dsimp only
        rw [hdocument]
        rfl
      · refine List.forall_mem_cons.mpr ⟨⟨rfl, hcode, hresult, ?_⟩, h.marked⟩
        exact .inr ⟨document, hmem, hallowed, rfl, by simpa [symbolRow] using hinfix⟩
    · refine .inr ⟨fun hall ↦ hindexable (hall document rfl), ?_⟩
      rw [setIndex_of_not_indexable hindexable]
      rfl

end State

theorem unpromoted_empty (rows : List Evidence) : unpromoted ∅ rows = rows := by
  induction rows with
  | nil => rfl
  | cons row rest ih => rw [unpromoted, if_neg (Finset.notMem_empty _), ih]

/-- The loop ends unless some hit meets metadata that cannot be assigned to. -/
theorem foldlM_promoteHit (encode : Value → String) (documents : List Document)
    (project : Option String) (principalAcl : List String) (evidence : List Evidence)
    (hits : List SymbolHit) :
    ((∀ hit ∈ hits, Markable encode documents project principalAcl evidence hit.file) ∧
      ∃ rows tagged,
        hits.reverse.foldlM (promoteHit encode documents project principalAcl) evidence =
          some rows ∧ Tagged documents project principalAcl evidence hits rows tagged) ∨
      (¬(∀ hit ∈ hits, Markable encode documents project principalAcl evidence hit.file) ∧
        hits.reverse.foldlM (promoteHit encode documents project principalAcl) evidence =
          none) := by
  induction hits with
  | nil =>
      refine .inl ⟨fun _ h ↦ absurd h List.not_mem_nil, evidence, [], rfl, ?_, rfl, ?_⟩
      · exact (unpromoted_empty evidence).symm
      · exact fun _ h ↦ absurd h List.not_mem_nil
  | cons hit hits ih =>
      have hstep : ∀ result, hits.reverse.foldlM
          (promoteHit encode documents project principalAcl) evidence = result →
            (hit :: hits).reverse.foldlM (promoteHit encode documents project principalAcl)
              evidence = result.bind (promoteHit encode documents project principalAcl · hit) := by
        rintro result rfl
        rw [List.reverse_cons, List.foldlM_append]
        refine bind_congr fun rows ↦ ?_
        simp only [List.foldlM_cons, List.foldlM_nil, bind_pure]
      rw [List.forall_mem_cons]
      rcases ih with ⟨hmarkable, rows, tagged, hrows, htagged⟩ | ⟨hnot, hnone⟩
      · rw [hstep _ hrows, Option.bind_some]
        cases hplace : matchedPlace documents project principalAcl evidence hit.file with
        | none =>
            obtain ⟨hsame, htagged'⟩ := htagged.unmatched encode hplace
            refine .inl ⟨⟨?_, hmarkable⟩, rows, tagged, hsame, htagged'⟩
            rw [matchedPlace] at hplace
            rw [Markable]
            split at hplace
            next => cases hplace
            next =>
              intro document hdocument
              rw [hdocument] at hplace
              cases hplace
        | some place =>
            by_cases hfile : hit.file ∈ filesOf hits
            · obtain ⟨other, hother, hsame⟩ := Iff.mp mem_filesOf hfile
              exact .inl ⟨⟨hsame ▸ hmarkable other hother, hmarkable⟩, htagged.again hfile hplace⟩
            · exact (htagged.new hfile hplace).imp (fun h ↦ ⟨⟨h.1, hmarkable⟩, h.2⟩)
                fun h ↦ ⟨fun hall ↦ h.1 hall.1, h.2⟩
      · rw [hstep _ hnone]
        exact .inr ⟨fun hall ↦ hnot hall.2, rfl⟩

end Loop

/-! ## What is left -/

section Retain

variable {α β κ : Type*} [DecidableEq κ]

theorem retainNew_sublist (key : α → κ) (seen : List κ) (rows : List α) :
    (retainNew key seen rows).Sublist rows := by
  fun_induction retainNew key seen rows with
  | case1 => exact .slnil
  | case2 _ _ _ _ ih => exact ih.cons _
  | case3 _ _ _ _ ih => exact ih.cons_cons _

theorem nodup_retainNew (key : α → κ) (seen : List κ) (rows : List α) :
    ((retainNew key seen rows).map key).Nodup ∧ ∀ row ∈ retainNew key seen rows, key row ∉ seen := by
  fun_induction retainNew key seen rows with
  | case1 => exact ⟨List.nodup_nil, fun _ h ↦ absurd h List.not_mem_nil⟩
  | case2 _ _ _ _ ih => exact ih
  | case3 seen row rest hnew ih =>
      refine ⟨List.nodup_cons.mpr ⟨fun hmem ↦ ?_, ih.1⟩, List.forall_mem_cons.mpr ⟨hnew, ?_⟩⟩
      · obtain ⟨other, hother, hsame⟩ := List.mem_map.mp hmem
        exact ih.2 other hother (hsame ▸ List.mem_cons_self)
      · exact fun other hother hseen ↦ ih.2 other hother (List.mem_cons_of_mem _ hseen)

/-- What is retained depends on the keys. -/
theorem forall₂_retainNew {R : α → β → Prop} {key : α → κ} {key' : β → κ}
    (hkey : ∀ a b, R a b → key a = key' b) {rows : List α} {rows' : List β} (seen : List κ)
    (h : List.Forall₂ R rows rows') :
    List.Forall₂ R (retainNew key seen rows) (retainNew key' seen rows') := by
  induction h generalizing seen with
  | nil => exact .nil
  | cons hfirst _ ih =>
      rw [retainNew, retainNew, hkey _ _ hfirst]
      split
      · exact ih seen
      · exact .cons hfirst (ih _)

/-- An element of two lists put together stands in the first or in the second. -/
theorem append_eq_append_cons_iff {first second before after : List α} {a : α} :
    first ++ second = before ++ a :: after ↔
      (∃ middle, first = before ++ a :: middle ∧ after = middle ++ second) ∨
        ∃ middle, before = first ++ middle ∧ second = middle ++ a :: after := by
  constructor
  · intro h
    rcases List.append_eq_append_iff.mp h with ⟨middle, rfl, hrest⟩ | ⟨middle, rfl, hrest⟩
    · exact .inr ⟨middle, rfl, hrest⟩
    · rcases middle with _ | ⟨b, middle⟩
      · exact .inr ⟨[], by rw [List.append_nil, List.append_nil], hrest.symm⟩
      · obtain ⟨rfl, rfl⟩ := List.cons.inj hrest
        exact .inl ⟨middle, rfl, rfl⟩
  · rintro (⟨middle, rfl, rfl⟩ | ⟨middle, rfl, rfl⟩) <;> simp

theorem retainNew_congr {key : α → κ} {seen seen' : List κ} (h : ∀ k, k ∈ seen ↔ k ∈ seen')
    (rows : List α) : retainNew key seen rows = retainNew key seen' rows := by
  induction rows generalizing seen seen' with
  | nil => rfl
  | cons row rest ih =>
      have hcons : ∀ k, k ∈ key row :: seen ↔ k ∈ key row :: seen' := by
        intro k
        rw [List.mem_cons, List.mem_cons, h]
      rw [retainNew, retainNew, ih h, ih hcons]
      simp only [h]

theorem retainNew_append (key : α → κ) (seen : List κ) (rows rows' : List α) :
    retainNew key seen (rows ++ rows') =
      retainNew key seen rows ++ retainNew key (seen ++ rows.map key) rows' := by
  induction rows generalizing seen with
  | nil => simp [retainNew]
  | cons row rest ih =>
      rw [List.cons_append, retainNew, retainNew]
      split
      next hseen =>
        rw [ih]
        refine congrArg _ (retainNew_congr (fun k ↦ ?_) rows')
        simp only [List.mem_append, List.map_cons, List.mem_cons]
        grind
      next =>
        rw [ih, List.cons_append]
        refine congrArg _ (congrArg _ (retainNew_congr (fun k ↦ ?_) rows'))
        simp only [List.mem_append, List.map_cons, List.mem_cons]
        grind

/-- Rows whose key has been seen are of no account. -/
theorem retainNew_filter {key : α → κ} {p : α → Bool} {seen : List κ} {rows : List α}
    (h : ∀ row ∈ rows, p row = false → key row ∈ seen) :
    retainNew key seen (rows.filter p) = retainNew key seen rows := by
  induction rows generalizing seen with
  | nil => rfl
  | cons row rest ih =>
      rw [List.forall_mem_cons] at h
      have hrest : ∀ other ∈ rest, p other = false → key other ∈ key row :: seen :=
        fun other hother hp ↦ List.mem_cons_of_mem _ (h.2 other hother hp)
      cases hp : p row with
      | true =>
          rw [List.filter_cons_of_pos hp, retainNew, retainNew, ih h.2, ih hrest]
      | false =>
          rw [List.filter_cons_of_neg (by simp [hp]), retainNew, if_pos (h.1 hp), ih h.2]

theorem mem_map_retainNew {key : α → κ} {seen : List κ} {rows : List α} {k : κ} :
    k ∈ (retainNew key seen rows).map key ↔ k ∈ rows.map key ∧ k ∉ seen := by
  induction rows generalizing seen with
  | nil => simp [retainNew]
  | cons row rest ih =>
      rw [retainNew]
      split
      · rw [ih, List.map_cons, List.mem_cons]
        grind
      · rw [List.map_cons, List.map_cons, List.mem_cons, List.mem_cons, ih]
        grind

theorem length_retainNew (key : α → κ) (rows : List α) :
    (retainNew key [] rows).length = (rows.map key).dedup.length := by
  rw [← List.length_map key]
  refine List.Perm.length_eq ?_
  refine (List.perm_ext_iff_of_nodup (nodup_retainNew key [] rows).1 (List.nodup_dedup _)).mpr ?_
  intro k
  rw [mem_map_retainNew, List.mem_dedup]
  simp

/-- A row is among the first `n` that are retained if, somewhere, its key is new and
fewer than `n` others have come before it. -/
theorem mem_take_retainNew_iff {key : α → κ} {n : ℕ} {rows : List α} {row : α} :
    row ∈ (retainNew key [] rows).take n ↔ ∃ before after, rows = before ++ row :: after ∧
      key row ∉ before.map key ∧ (before.map key).dedup.length < n := by
  induction rows using List.reverseRecOn with
  | nil => simp [retainNew]
  | append_singleton rows last ih =>
      have hone : retainNew key ([] ++ rows.map key) [last] =
          if key last ∈ rows.map key then [] else [last] := by
        rw [List.nil_append, retainNew]
        rfl
      rw [retainNew_append, hone, List.take_append, List.mem_append, ih, length_retainNew]
      constructor
      · rintro (⟨before, after, rfl, hnew, hless⟩ | h)
        · exact ⟨before, after ++ [last], by simp, hnew, hless⟩
        · have hmem := List.mem_of_mem_take h
          split at hmem
          next => cases hmem
          next hnew =>
            obtain rfl := List.mem_singleton.mp hmem
            refine ⟨rows, [], rfl, hnew, ?_⟩
            by_contra hfull
            rw [Nat.sub_eq_zero_of_le (not_lt.mp hfull), List.take_zero] at h
            cases h
      · rintro ⟨before, after, hsplit, hnew, hless⟩
        rcases List.eq_nil_or_concat after with rfl | ⟨start, last', rfl⟩
        · obtain ⟨rfl, hlast⟩ := List.append_inj' hsplit rfl
          obtain rfl := List.singleton_inj.mp hlast
          rw [if_neg hnew]
          refine .inr ?_
          rw [List.take_of_length_le (by rw [List.length_singleton]; omega)]
          exact List.mem_singleton_self _
        · rw [List.concat_eq_append, ← List.cons_append, ← List.append_assoc] at hsplit
          obtain ⟨hrows, -⟩ := List.append_inj' hsplit rfl
          exact .inl ⟨before, start, hrows, hnew, hless⟩

theorem forall_mem_iff_of_forall₂ {R : α → β → Prop} {p : α → Prop} {q : β → Prop} {rows : List α}
    {rows' : List β} (h : List.Forall₂ R rows rows') (hiff : ∀ a b, R a b → (p a ↔ q b)) :
    (∀ a ∈ rows, p a) ↔ ∀ b ∈ rows', q b := by
  induction h with
  | nil => simp
  | cons hfirst _ ih => rw [List.forall_mem_cons, List.forall_mem_cons, hiff _ _ hfirst, ih]

end Retain

/-! ## The right evidence -/

/-- Some hit with this marker is defined in a document. -/
def DefinedIn (home : SymbolHit → String × String) (hits : List SymbolHit) (code : Value)
    (document : String × String) : Prop :=
  ∃ hit ∈ hits, marker hit = code ∧ home hit = document

/-- What the metadata of a row says about symbols is right; `home` is the
document whose index has a symbol. -/
def MarksRight (home : SymbolHit → String × String) (hits : List SymbolHit) (row : Evidence) :
    Prop :=
  ∀ hit ∈ hits, row.metadata.get "code_evidence" = some (marker hit) →
    DefinedIn home hits (marker hit) (row.source, row.sourceId)

/-- What promotion is for. -/
structure PromotionRight (documents : List Document) (principalAcl : List String)
    (home : SymbolHit → String × String) (limit : ℕ) (hits : List SymbolHit)
    (evidence result : List Evidence) : Prop where
  bounded : result.length ≤ limit
  distinct : (result.map fun row ↦ (row.source, row.uri.getD row.sourceId)).Nodup
  visible : ∀ row ∈ result, Visible documents principalAcl evidence row
  marks : ∀ row ∈ result, MarksRight home hits row
  order : ∃ promoted kept, result = promoted ++ kept ∧
    (∀ row ∈ promoted, ∃ hit ∈ hits, row.metadata.get "code_evidence" = some (marker hit)) ∧
      kept.Sublist evidence

/-- An entry says the right thing about symbols. -/
def Entry.Right (home : SymbolHit → String × String) (hits : List SymbolHit) : Entry → Prop
  | promoted hit place => DefinedIn home hits (marker hit) (place.source, place.sourceId)
  | kept row => MarksRight home hits row

/-- The keys of what hits are matched with. -/
def matchedKeys (documents : List Document) (project : Option String) (principalAcl : List String)
    (evidence : List Evidence) (hits : List SymbolHit) : List String :=
  hits.filterMap fun hit ↦
    (matchedPlace documents project principalAcl evidence hit.file).map evidenceDedupeKey

/-- After rows with these keys there is room for one with a new key. -/
def HasRoom (limit : ℕ) (keys : List String) (key : String) : Prop :=
  key ∉ keys ∧ keys.dedup.length < limit

/-- When promotion does that.  The metadata of what the file of a hit is matched
with can be assigned to.  Without a hit the evidence, which is then returned as it
came, is bounded and distinct.  What a hit is matched with, and no hit before it, is
the document of a symbol with its marker, as far as there is room.  And a row with a
new key, for which there is room after all of these and the rows before it, came
without the marker of a symbol of another document. -/
structure PromotionSafe (encode : Value → String) (documents : List Document)
    (project : Option String) (principalAcl : List String) (home : SymbolHit → String × String)
    (limit : ℕ) (hits : List SymbolHit) (evidence : List Evidence) : Prop where
  markable : ∀ hit ∈ hits, Markable encode documents project principalAcl evidence hit.file
  bounded : hits = [] → evidence.length ≤ limit ∧
    (evidence.map fun row ↦ (row.source, row.uri.getD row.sourceId)).Nodup
  matched : ∀ before hit after place, hits = before ++ hit :: after →
    matchedPlace documents project principalAcl evidence hit.file = some place →
    HasRoom limit (matchedKeys documents project principalAcl evidence before)
      (evidenceDedupeKey place) →
    DefinedIn home hits (marker hit) (place.source, place.sourceId)
  unmarked : ∀ before row after, evidence = before ++ row :: after →
    HasRoom limit (matchedKeys documents project principalAcl evidence hits ++
      before.map fun other ↦ evidenceDedupeKey (placeOf other)) (evidenceDedupeKey (placeOf row)) →
    MarksRight home hits row

/-! ## What is offered -/

section Offered

variable {documents : List Document} {project : Option String} {principalAcl : List String}
  {evidence : List Evidence}

/-- What all hits are matched with, and all rows of the evidence. -/
def offered (documents : List Document) (project : Option String) (principalAcl : List String)
    (evidence : List Evidence) (hits : List SymbolHit) : List Entry :=
  (hits.filterMap fun hit ↦
      (matchedPlace documents project principalAcl evidence hit.file).map (.promoted hit)) ++
    evidence.map .kept

def Entry.key (entry : Entry) : String := evidenceDedupeKey entry.place

/-- The hits after the first one of a file are of no account. -/
theorem retainNew_placed (hits : List SymbolHit) (seen : List String) :
    retainNew Entry.key seen ((placed documents project principalAcl evidence hits).map
        fun p ↦ Entry.promoted p.1 p.2) =
      retainNew Entry.key seen (hits.filterMap fun hit ↦
        (matchedPlace documents project principalAcl evidence hit.file).map (.promoted hit)) := by
  induction hits generalizing seen with
  | nil => rfl
  | cons hit rest ih =>
      rw [placed_cons, List.filterMap_cons]
      cases hplace : matchedPlace documents project principalAcl evidence hit.file with
      | none =>
          have hall : (placed documents project principalAcl evidence rest).filter
              (fun p ↦ p.1.file ≠ hit.file) = placed documents project principalAcl evidence rest := by
            refine List.filter_eq_self.mpr fun p hp ↦ decide_eq_true fun hfile ↦ ?_
            have hmatched := (Iff.mp mem_placed_iff hp).2
            rw [hfile, hplace] at hmatched
            cases hmatched
          rw [hall]
          exact ih seen
      | some place =>
          have hfilter : ((placed documents project principalAcl evidence rest).filter
              fun p ↦ p.1.file ≠ hit.file).map (fun p ↦ Entry.promoted p.1 p.2) =
              ((placed documents project principalAcl evidence rest).map
                fun p ↦ Entry.promoted p.1 p.2).filter
                  fun entry ↦ entry.place.sourceId ≠ hit.file := by
            rw [List.filter_map]
            refine congrArg _ (List.filter_congr fun p hp ↦ ?_)
            have hfile := matchedPlace_sourceId (Iff.mp mem_placed_iff hp).2
            simp [Entry.place, hfile]
          have hseen : ∀ {keys : List String}, evidenceDedupeKey place ∈ keys →
              retainNew Entry.key keys (((placed documents project principalAcl evidence rest).filter
                fun p ↦ p.1.file ≠ hit.file).map fun p ↦ Entry.promoted p.1 p.2) =
              retainNew Entry.key keys ((placed documents project principalAcl evidence rest).map
                fun p ↦ Entry.promoted p.1 p.2) := by
            intro keys hkey
            rw [hfilter]
            refine retainNew_filter fun entry hentry hfile ↦ ?_
            obtain ⟨⟨other, place'⟩, hp, rfl⟩ := List.mem_map.mp hentry
            have hmatched := (Iff.mp mem_placed_iff hp).2
            have hsame : other.file = hit.file := by
              rw [← matchedPlace_sourceId hmatched]
              exact not_not.mp (of_decide_eq_false hfile)
            rw [hsame, hplace] at hmatched
            rwa [Entry.key, Entry.place, ← Option.some.inj hmatched]
          change retainNew Entry.key seen (Entry.promoted hit place ::
            ((placed documents project principalAcl evidence rest).filter
              fun p ↦ p.1.file ≠ hit.file).map fun p ↦ Entry.promoted p.1 p.2) =
            retainNew Entry.key seen (Entry.promoted hit place :: rest.filterMap fun hit ↦
              (matchedPlace documents project principalAcl evidence hit.file).map (.promoted hit))
          rw [retainNew, retainNew]
          split
          next hkey => rw [hseen hkey, ih]
          next => exact congrArg _ ((hseen List.mem_cons_self).trans (ih _))

/-- The rows that were taken to the front are of no account where they were. -/
theorem retainNew_unpromoted {files : Finset String} {rows : List Evidence} {seen : List String}
    (h : ∀ file ∈ files, ∀ row, rows.find? (·.sourceId = file) = some row →
      evidenceDedupeKey (placeOf row) ∈ seen) :
    retainNew Entry.key seen ((unpromoted files rows).map .kept) =
      retainNew Entry.key seen (rows.map .kept) := by
  induction rows generalizing files seen with
  | nil => rfl
  | cons row rest ih =>
      have hother : ∀ file ∈ files, file ≠ row.sourceId → ∀ found,
          rest.find? (·.sourceId = file) = some found →
            evidenceDedupeKey (placeOf found) ∈ seen := by
        intro file hfile hne found hfound
        refine h file hfile found ?_
        rwa [List.find?_cons_of_neg (by simpa using Ne.symm hne)]
      rw [unpromoted]
      split
      next hmem =>
        have hkey : Entry.key (.kept row) ∈ seen :=
          h row.sourceId hmem row (List.find?_cons_of_pos (by simp))
        rw [List.map_cons, retainNew, if_pos hkey]
        refine ih fun file hfile found hfound ↦ ?_
        obtain ⟨hne, hfile⟩ := Finset.mem_erase.mp hfile
        exact hother file hfile hne found hfound
      next hmem =>
        have hne : ∀ file ∈ files, file ≠ row.sourceId := fun file hfile heq ↦ hmem (heq ▸ hfile)
        rw [List.map_cons, List.map_cons, retainNew, retainNew]
        split
        next => exact ih fun file hfile ↦ hother file hfile (hne file hfile)
        next =>
          refine congrArg _ (ih fun file hfile found hfound ↦ ?_)
          exact List.mem_cons_of_mem _ (hother file hfile (hne file hfile) found hfound)

theorem mem_matchedKeys {hits : List SymbolHit} {key : String} :
    key ∈ matchedKeys documents project principalAcl evidence hits ↔ ∃ hit ∈ hits, ∃ place,
      matchedPlace documents project principalAcl evidence hit.file = some place ∧
        evidenceDedupeKey place = key := by
  rw [matchedKeys, List.mem_filterMap]
  simp only [Option.map_eq_some_iff]

theorem map_key_promoted (hits : List SymbolHit) :
    (hits.filterMap fun hit ↦ (matchedPlace documents project principalAcl evidence
        hit.file).map (Entry.promoted hit)).map Entry.key =
      matchedKeys documents project principalAcl evidence hits := by
  rw [matchedKeys, List.map_filterMap]
  refine List.filterMap_congr fun hit _ ↦ ?_
  rw [Option.map_map]
  rfl

theorem map_key_kept (rows : List Evidence) : (rows.map Entry.kept).map Entry.key =
    rows.map fun row ↦ evidenceDedupeKey (placeOf row) := by
  rw [List.map_map]
  rfl

/-- What is left is left of all that is offered. -/
theorem survivors_eq (limit : ℕ) (hits : List SymbolHit) :
    survivors documents project principalAcl evidence limit hits =
      (retainNew Entry.key [] (offered documents project principalAcl evidence hits)).take limit := by
  have hkeys : ∀ k, k ∈ ((placed documents project principalAcl evidence hits).map
      fun p ↦ Entry.promoted p.1 p.2).map Entry.key ↔
        k ∈ matchedKeys documents project principalAcl evidence hits := by
    intro k
    rw [mem_matchedKeys, List.map_map, List.mem_map]
    constructor
    · rintro ⟨⟨hit, place⟩, hp, rfl⟩
      obtain ⟨hleader, hplace⟩ := Iff.mp mem_placed_iff hp
      exact ⟨hit, leaders_subset hleader, place, hplace, rfl⟩
    · rintro ⟨hit, hhit, place, hplace, rfl⟩
      obtain ⟨leader, hleader, hfile⟩ := mem_leaders_of_mem hhit
      exact ⟨(leader, place), Iff.mpr mem_placed_iff ⟨hleader, hfile ▸ hplace⟩, rfl⟩
  have hrows : ∀ file ∈ filesOf hits, ∀ row, evidence.find? (·.sourceId = file) = some row →
      evidenceDedupeKey (placeOf row) ∈
        matchedKeys documents project principalAcl evidence hits := by
    intro file hfile row hrow
    obtain ⟨hit, hhit, rfl⟩ := Iff.mp mem_filesOf hfile
    exact Iff.mpr mem_matchedKeys ⟨hit, hhit, placeOf row, by rw [matchedPlace, hrow], rfl⟩
  change (retainNew Entry.key [] (entries documents project principalAcl evidence hits)).take
    limit = _
  rw [entries, offered, retainNew_append, retainNew_append, retainNew_placed, List.nil_append,
    List.nil_append, map_key_promoted, retainNew_congr hkeys, retainNew_unpromoted hrows]

/-- A condition on what is left, by what is offered. -/
theorem forall_survivors_iff {limit : ℕ} {hits : List SymbolHit} {P : Entry → Prop} :
    (∀ entry ∈ survivors documents project principalAcl evidence limit hits, P entry) ↔
      (∀ before hit after place, hits = before ++ hit :: after →
          matchedPlace documents project principalAcl evidence hit.file = some place →
          HasRoom limit (matchedKeys documents project principalAcl evidence before)
            (evidenceDedupeKey place) → P (.promoted hit place)) ∧
        ∀ before row after, evidence = before ++ row :: after →
          HasRoom limit (matchedKeys documents project principalAcl evidence hits ++
            before.map fun other ↦ evidenceDedupeKey (placeOf other))
            (evidenceDedupeKey (placeOf row)) → P (.kept row) := by
  simp only [survivors_eq, mem_take_retainNew_iff]
  constructor
  · intro h
    refine ⟨?_, ?_⟩
    · rintro before hit after place rfl hplace ⟨hnew, hroom⟩
      refine h _ ⟨before.filterMap fun hit ↦ (matchedPlace documents project principalAcl evidence
        hit.file).map (.promoted hit), after.filterMap (fun hit ↦ (matchedPlace documents project
          principalAcl evidence hit.file).map (.promoted hit)) ++ evidence.map .kept, ?_, ?_, ?_⟩
      · rw [offered, List.filterMap_append, List.filterMap_cons, hplace, List.append_assoc]
        rfl
      · rwa [map_key_promoted]
      · rwa [map_key_promoted]
    · rintro before row after hsplit ⟨hnew, hroom⟩
      refine h _ ⟨(hits.filterMap fun hit ↦ (matchedPlace documents project principalAcl evidence
        hit.file).map (.promoted hit)) ++ before.map .kept, after.map .kept, ?_, ?_, ?_⟩
      · rw [offered, List.append_assoc, ← List.map_cons, ← List.map_append, ← hsplit]
      · rwa [List.map_append, map_key_promoted, map_key_kept]
      · rwa [List.map_append, map_key_promoted, map_key_kept]
  · rintro ⟨hmatched, hunmarked⟩ entry ⟨before, after, hsplit, hnew, hroom⟩
    rcases Iff.mp append_eq_append_cons_iff hsplit with ⟨middle, hfirst, -⟩ | ⟨middle, rfl, hrest⟩
    · obtain ⟨hits₁, hits₂, rfl, hbefore, hmiddle⟩ := List.filterMap_eq_append_iff.mp hfirst
      obtain ⟨skipped, hit, hits₃, rfl, hskipped, hhit, -⟩ := List.filterMap_eq_cons_iff.mp hmiddle
      obtain ⟨place, hplace, rfl⟩ := Option.map_eq_some_iff.mp hhit
      refine hmatched (hits₁ ++ skipped) hit hits₃ place (by rw [List.append_assoc]) hplace ?_
      have hkeys : matchedKeys documents project principalAcl evidence (hits₁ ++ skipped) =
          before.map Entry.key := by
        rw [← map_key_promoted, List.filterMap_append, hbefore,
          List.filterMap_eq_nil_iff.mpr hskipped, List.append_nil]
      rw [HasRoom, hkeys]
      exact ⟨hnew, hroom⟩
    · obtain ⟨rows, rest, rfl, hmiddle, hentry⟩ := List.map_eq_append_iff.mp hrest
      obtain ⟨row, rows', rfl, rfl, -⟩ := List.map_eq_cons_iff.mp hentry
      refine hunmarked rows row rows' rfl ?_
      rw [HasRoom, ← map_key_promoted, ← map_key_kept, hmiddle, ← List.map_append]
      exact ⟨hnew, hroom⟩

end Offered

section Main

variable {encode : Value → String} {documents : List Document} {project : Option String}
  {principalAcl : List String} {evidence : List Evidence} {hits : List SymbolHit}
  {home : SymbolHit → String × String} {limit : ℕ}

/-- A row of the result and its entry. -/
def Related (documents : List Document) (principalAcl : List String) (evidence : List Evidence)
    (hits : List SymbolHit) (row : Evidence) : Entry → Prop
  | .promoted hit place => hit ∈ hits ∧ Marked documents principalAcl evidence row (hit, place)
  | .kept given => row = given ∧ given ∈ evidence

theorem Tagged.related {rows : List Evidence} {tagged : List (Evidence × SymbolHit × Place)}
    (h : Tagged documents project principalAcl evidence hits rows tagged) :
    List.Forall₂ (Related documents principalAcl evidence hits) rows
      (entries documents project principalAcl evidence hits) := by
  rw [h.rows, entries, ← h.marks, List.map_map]
  refine List.rel_append ?_ ?_
  · rw [List.forall₂_map_left_iff, List.forall₂_map_right_iff, List.forall₂_same]
    exact fun t ht ↦ ⟨leaders_subset (h.file ht).2.1, h.marked t ht⟩
  · rw [List.forall₂_map_right_iff, List.forall₂_same]
    exact fun row hrow ↦ ⟨rfl, (unpromoted_sublist _ _).mem hrow⟩

theorem marksRight_iff {row : Evidence} {entry : Entry}
    (h : Related documents principalAcl evidence hits row entry) :
    MarksRight home hits row ↔ entry.Right home hits := by
  cases entry with
  | kept given => rw [h.1]; rfl
  | promoted hit place =>
      obtain ⟨hmem, hmarked⟩ := h
      obtain rfl : placeOf row = place := hmarked.place
      constructor
      · exact fun hright ↦ hright hit hmem hmarked.code
      · intro hright other _ hcode
        have hsame : marker hit = marker other := by
          rw [hmarked.code] at hcode
          exact Option.some.inj hcode
        exact hsame ▸ hright

theorem dedupeKey_of_related {row : Evidence} {entry : Entry}
    (h : Related documents principalAcl evidence hits row entry) :
    evidenceDedupeKey (placeOf row) = evidenceDedupeKey entry.place := by
  cases entry with
  | kept given => rw [h.1]; rfl
  | promoted hit place => exact congrArg evidenceDedupeKey h.2.place

theorem visible_of_related {row : Evidence} {entry : Entry}
    (h : Related documents principalAcl evidence hits row entry) :
    Visible documents principalAcl evidence row := by
  cases entry with
  | kept given => exact .inl ⟨row, h.1 ▸ h.2, rfl, rfl⟩
  | promoted hit place => exact h.2.visible

/-- What is left after the loop has all that promotion is for, if its marks are right. -/
theorem promotionRight_iff {rows : List Evidence}
    {tagged : List (Evidence × SymbolHit × Place)}
    (h : Tagged documents project principalAcl evidence hits rows tagged) :
    PromotionRight documents principalAcl home limit hits evidence
        ((retainNew (fun row ↦ evidenceDedupeKey (placeOf row)) [] rows).take limit) ↔
      ∀ entry ∈ survivors documents project principalAcl evidence limit hits,
        entry.Right home hits := by
  have hkeys : ∀ row entry, Related documents principalAcl evidence hits row entry →
      evidenceDedupeKey (placeOf row) = evidenceDedupeKey entry.place :=
    fun _ _ ↦ dedupeKey_of_related
  have hleft : List.Forall₂ (Related documents principalAcl evidence hits)
      ((retainNew (fun row ↦ evidenceDedupeKey (placeOf row)) [] rows).take limit)
      (survivors documents project principalAcl evidence limit hits) :=
    List.forall₂_take limit (forall₂_retainNew hkeys [] h.related)
  have hiff : ∀ row entry, Related documents principalAcl evidence hits row entry →
      (MarksRight home hits row ↔ entry.Right home hits) := fun _ _ ↦ marksRight_iff
  rw [← forall_mem_iff_of_forall₂ hleft hiff]
  refine ⟨fun hright ↦ hright.marks, fun hright ↦ ⟨List.length_take_le _ _, ?_, ?_, hright, ?_⟩⟩
  · have hnodup := (nodup_retainNew (fun row ↦ evidenceDedupeKey (placeOf row)) [] rows).1
    refine List.Nodup.of_map (fun pair ↦ pair.1 ++ "\x00" ++ pair.2) ?_
    rw [List.map_map]
    exact hnodup.sublist ((List.take_sublist _ _).map _)
  · exact (forall_mem_iff_of_forall₂ hleft fun _ _ hrelated ↦
      (iff_true_intro (visible_of_related hrelated))).mpr fun _ _ ↦ trivial
  · have hsub := (List.take_sublist limit _).trans
      (retainNew_sublist (fun row ↦ evidenceDedupeKey (placeOf row)) [] rows)
    rw [h.rows] at hsub
    obtain ⟨promoted, kept, hsplit, hpromoted, hkept⟩ := List.sublist_append_iff.mp hsub
    refine ⟨promoted, kept, h.rows ▸ hsplit, fun row hrow ↦ ?_,
      hkept.trans (unpromoted_sublist _ _)⟩
    obtain ⟨t, ht, rfl⟩ := List.mem_map.mp (hpromoted.mem hrow)
    exact ⟨t.2.1, leaders_subset (h.file ht).2.1, (h.marked t ht).code⟩

end Main

/-- A row of a file of code. -/
def codeRow (source : String) (metadata : Value) : Evidence :=
  ⟨"code:0", source, "lib.rs", "lib.rs", none, "struct Cache;", 0, none, none,
    "2024-01-01T00:00:00Z", metadata⟩

/-- A symbol of that file. -/
def cacheHit : SymbolHit :=
  ⟨"cache", "Cache", none, none, "lib.rs", ⟨0, 13, 1, 1, by decide⟩, true, false⟩

end Retrieval

end Cortana
