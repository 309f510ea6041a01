import Cortana.Core.Paging
import Cortana.Store.Documents
import Cortana.Store.Memories

/-!
# The listing of documents

`list_documents_scoped`: the documents that match a filter and are visible to
a principal, newest first, page by page.  The rows are read in batches with a
cursor of their own until the page is full or no row is left.
-/

namespace Cortana

open ByteText

/-! ## Cursors and filters -/

/-- `DocumentCursor`. -/
structure DocumentCursor where
  updatedAt : String
  id : String

/-- Newer documents come first, then larger ids. -/
def DocumentCursor.Before (a b : DocumentCursor) : Prop :=
  b.updatedAt < a.updatedAt ∨ (b.updatedAt = a.updatedAt ∧ b.id < a.id)

instance : DecidableRel DocumentCursor.Before := fun a b ↦
  inferInstanceAs (Decidable (b.updatedAt < a.updatedAt ∨
    (b.updatedAt = a.updatedAt ∧ b.id < a.id)))

instance : IsStrictOrder DocumentCursor DocumentCursor.Before where
  irrefl a := by simp [DocumentCursor.Before]
  trans a b c := by
    rintro (hab | ⟨hab, hid⟩) (hbc | ⟨hbc, hid'⟩)
    · exact .inl (hbc.trans hab)
    · exact .inl (hbc ▸ hab)
    · exact .inl (hab ▸ hbc)
    · exact .inr ⟨hbc.trans hab, hid'.trans hid⟩

namespace DocumentRow

/-- The place of a row in the listing. -/
def cursor (row : DocumentRow) : DocumentCursor := ⟨row.updatedAt, row.id⟩

/-- `ORDER BY updated_at DESC,id DESC`. -/
def NewestFirst (a b : DocumentRow) : Prop :=
  b.updatedAt < a.updatedAt ∨ (b.updatedAt = a.updatedAt ∧ b.id ≤ a.id)

end DocumentRow

instance : DecidableRel DocumentRow.NewestFirst := fun a b ↦
  inferInstanceAs (Decidable (b.updatedAt < a.updatedAt ∨
    (b.updatedAt = a.updatedAt ∧ b.id ≤ a.id)))

/-- `instr(lower(text),lower(query))>0`. -/
def instrLower (text query : String) : Bool :=
  containsText (toAsciiLowercase text.toList) (toAsciiLowercase query.toList)

/-- The project, the source and the query of a listing. -/
structure DocumentFilter where
  project : Option String
  source : Option String
  query : Option String

def DocumentFilter.admits (filter : DocumentFilter) (row : DocumentRow) : Bool :=
  filter.project.all (row.project = ·) && filter.source.all (row.source = ·) &&
    filter.query.all fun query ↦ instrLower row.title query || instrLower row.source query ||
      instrLower row.sourceId query

/-! ## The listing -/

/-- A row that a scan has read: its id, its update and its ACL. -/
structure ListCandidate where
  id : String
  updatedAt : String
  acl : List String

def ListCandidate.cursor (candidate : ListCandidate) : DocumentCursor :=
  ⟨candidate.updatedAt, candidate.id⟩

/-- `DocumentSummary`. -/
structure DocumentSummary where
  id : String
  source : String
  sourceId : String
  title : String
  uri : Option String
  updatedAt : String
  project : String
  chunkCount : ℕ
  contentChars : ℕ
  acl : List String
  contentRevision : String

def DocumentSummary.cursor (summary : DocumentSummary) : DocumentCursor :=
  ⟨summary.updatedAt, summary.id⟩

/-- `DocumentPage`. -/
structure DocumentPage where
  documents : List DocumentSummary
  hasMore : Bool

def readCandidate (codec : Codec) (row : DocumentRow) : Except String ListCandidate := do
  let acl ← codec.parseAcl row.aclJson
  return ⟨row.id, row.updatedAt, acl⟩

/-- The loop over the rows of one batch: the cursor moves to every row, a
visible row is kept, and the loop ends when the page overflows. -/
def scanRows (principalAcl : List String) (pageSize : ℕ) :
    List ListCandidate → Option DocumentCursor × List ListCandidate →
      Option DocumentCursor × List ListCandidate
  | [], state => state
  | candidate :: rest, (_, found) =>
      let cursor := some candidate.cursor
      if aclAllows candidate.acl principalAcl then
        let found := found ++ [candidate]
        if pageSize < found.length then (cursor, found)
        else scanRows principalAcl pageSize rest (cursor, found)
      else scanRows principalAcl pageSize rest (cursor, found)

namespace Store

/-- The rows of one batch of a scan. -/
def scanBatch (s : Store) (filter : DocumentFilter) (cursor : Option DocumentCursor)
    (scanLimit : ℕ) : List DocumentRow :=
  ((s.documents.rows.filter fun row ↦ filter.admits row &&
    cursor.all fun c ↦ c.Before row.cursor).insertionSort DocumentRow.NewestFirst).take scanLimit

def scanLimit (pageSize : ℕ) : ℕ := max (4 * pageSize) 64

/-- The scan loop, for at most so many rounds. -/
def scan (codec : Codec) (s : Store) (filter : DocumentFilter) (principalAcl : List String)
    (pageSize : ℕ) :
    ℕ → Option DocumentCursor → List ListCandidate → Option (Except String (List ListCandidate))
  | 0, _, _ => none
  | rounds + 1, cursor, found =>
      match (s.scanBatch filter cursor (scanLimit pageSize)).mapM (readCandidate codec) with
      | .error e => some (.error e)
      | .ok rows =>
          let state := scanRows principalAcl pageSize rows (cursor, found)
          if pageSize < state.2.length ∨ rows.length < scanLimit pageSize then some (.ok state.2)
          else scan codec s filter principalAcl pageSize rounds state.1 state.2

/-- The summary of a row with its ACL; without its content the chunks are
measured. -/
def summaryWith (s : Store) (row : DocumentRow) (acl : List String) : DocumentSummary :=
  let chunks := s.chunks.rows.filter fun chunk ↦ chunk.documentId = row.id
  { id := row.id
    source := row.source
    sourceId := row.sourceId
    title := row.title
    uri := row.uri
    updatedAt := row.updatedAt
    project := row.project
    chunkCount := chunks.length
    contentChars := if 0 < sqlLength row.content then sqlLength row.content
      else (chunks.map fun chunk ↦ sqlLength chunk.content).sum
    acl := acl
    contentRevision := row.contentHash }

def summarize (codec : Codec) (s : Store) (row : DocumentRow) : Except String DocumentSummary := do
  let acl ← codec.parseAcl row.aclJson
  return s.summaryWith row acl

/-- `WHERE d.id IN (…) ORDER BY d.updated_at DESC,d.id DESC`. -/
def documentsIn (s : Store) (ids : List String) : List DocumentRow :=
  (s.documents.rows.filter fun row ↦ row.id ∈ ids).insertionSort DocumentRow.NewestFirst

def listingPageSize (limit : ℕ) : ℕ := max 1 (min limit 100)

/-- `list_documents_scoped`. -/
def listDocumentsScoped (codec : Codec) (s : Store) (filter : DocumentFilter)
    (cursor : Option DocumentCursor) (limit : ℕ) (principalAcl : List String) (rounds : ℕ) :
    Option (Except String DocumentPage) :=
  let pageSize := listingPageSize limit
  (s.scan codec filter principalAcl pageSize rounds cursor []).map fun scanned ↦ do
    let candidates ← scanned
    let shown := candidates.take pageSize
    let documents ←
      if shown = [] then pure []
      else (s.documentsIn (shown.map ListCandidate.id)).mapM (s.summarize codec)
    return ⟨documents, pageSize < candidates.length⟩

/-- A page with the cursor that a client asks for the next one with. -/
def listPage (codec : Codec) (s : Store) (filter : DocumentFilter) (limit : ℕ)
    (principalAcl : List String) (rounds : ℕ) (cursor : Option DocumentCursor) :
    Option (Except String (List DocumentSummary × Option DocumentCursor)) :=
  (s.listDocumentsScoped codec filter cursor limit principalAcl rounds).map fun result ↦
    result.map fun page ↦ (page.documents,
      if page.hasMore then page.documents.getLast?.map DocumentSummary.cursor else none)

/-! ## What is listed -/

variable (codec : Codec) (s : Store) (filter : DocumentFilter) (principalAcl : List String)

/-- A document of the listing: it matches the filter and its ACL admits the
principal. -/
def Listed (d : DocumentSummary) : Prop :=
  ∃ row ∈ s.documents.rows, filter.admits row = true ∧ s.summarize codec row = .ok d ∧
    aclAllows d.acl principalAcl = true

/-- All documents of the listing, each once and in its order. -/
def ListsAll (documents : List DocumentSummary) : Prop :=
  (∀ d, d ∈ documents ↔ s.Listed codec filter principalAcl d) ∧
    documents.Pairwise fun a b ↦ a.cursor.Before b.cursor

/-- A document of the listing after a cursor and after all documents of a page. -/
def ListedBeyond (cursor : Option DocumentCursor) (page : DocumentPage) : Prop :=
  ∃ d, s.Listed codec filter principalAcl d ∧ (∀ c ∈ cursor, c.Before d.cursor) ∧
    ∀ d' ∈ page.documents, d'.cursor.Before d.cursor

/-- A matching document whose ACL cannot be read, with the error. -/
def Unreadable (e : String) : Prop :=
  ∃ row ∈ s.documents.rows, filter.admits row = true ∧ codec.parseAcl row.aclJson = .error e

/-- The matching rows in the order of the listing. -/
def matching : List DocumentRow :=
  (s.documents.rows.filter filter.admits).insertionSort DocumentRow.NewestFirst

/-- The labels of a row that can be read. -/
def aclOf (row : DocumentRow) : List String := (codec.parseAcl row.aclJson).toOption.getD []

def visible (row : DocumentRow) : Bool :=
  (codec.parseAcl row.aclJson).toOption.any (aclAllows · principalAcl)

variable {codec s filter principalAcl}

theorem parseAcl_of_visible {row : DocumentRow} (h : visible codec principalAcl row = true) :
    codec.parseAcl row.aclJson = .ok (aclOf codec row) ∧
      aclAllows (aclOf codec row) principalAcl = true := by
  rw [visible] at h
  rw [aclOf]
  cases hacl : codec.parseAcl row.aclJson with
  | error e =>
      rw [hacl] at h
      cases h
  | ok acl =>
      rw [hacl] at h
      exact ⟨rfl, h⟩

theorem visible_of_parseAcl (principalAcl : List String) {row : DocumentRow} {acl : List String}
    (h : codec.parseAcl row.aclJson = .ok acl) :
    visible codec principalAcl row = aclAllows acl principalAcl ∧ aclOf codec row = acl := by
  rw [visible, aclOf, h]
  exact ⟨rfl, rfl⟩

end Store

/-! ## The order of the rows -/

namespace DocumentRow

instance : Std.Total NewestFirst where
  total a b := by
    rcases lt_trichotomy a.updatedAt b.updatedAt with hlt | heq | hgt
    · exact .inr (.inl hlt)
    · rcases le_total a.id b.id with hle | hle
      · exact .inr (.inr ⟨heq, hle⟩)
      · exact .inl (.inr ⟨heq.symm, hle⟩)
    · exact .inl (.inl hgt)

instance : IsTrans DocumentRow NewestFirst where
  trans a b c := by
    rintro (hab | ⟨hab, hid⟩) (hbc | ⟨hbc, hid'⟩)
    · exact .inl (hbc.trans hab)
    · exact .inl (hbc ▸ hab)
    · exact .inl (hab ▸ hbc)
    · exact .inr ⟨hbc.trans hab, hid'.trans hid⟩

/-- Rows with distinct ids are strictly ordered. -/
theorem NewestFirst.before {a b : DocumentRow} (h : a.NewestFirst b) (hid : a.id ≠ b.id) :
    a.cursor.Before b.cursor := by
  rcases h with h | ⟨hdate, hle⟩
  · exact .inl h
  · exact .inr ⟨hdate, lt_of_le_of_ne hle hid.symm⟩

theorem NewestFirst.antisymm_id {a b : DocumentRow} (h : a.NewestFirst b)
    (h' : b.NewestFirst a) : a.id = b.id := by
  rcases h with h | ⟨hdate, hle⟩
  · rcases h' with h' | ⟨hdate', -⟩
    · exact absurd h' h.not_gt
    · exact absurd hdate' h.ne'
  · rcases h' with h' | ⟨-, hle'⟩
    · exact absurd hdate h'.ne'
    · exact le_antisymm hle' hle

end DocumentRow

namespace Store

variable {codec : Codec} {s : Store} {filter : DocumentFilter} {principalAcl : List String}

/-- A sorted list of rows of the table is determined by its rows. -/
theorem eq_of_newestFirst {l l' : List DocumentRow} (hl : ∀ row ∈ l, row ∈ s.documents.rows)
    (hl' : ∀ row ∈ l', row ∈ s.documents.rows) (hsorted : l.Pairwise DocumentRow.NewestFirst)
    (hsorted' : l'.Pairwise DocumentRow.NewestFirst) (hperm : l.Perm l') : l = l' := by
  refine List.Perm.eq_of_pairwise (fun a b ha hb hab hba ↦ ?_) hsorted hsorted' hperm
  exact List.inj_on_of_nodup_map s.documents.nodup (hl a ha) (hl' b hb)
    (DocumentRow.NewestFirst.antisymm_id hab hba)

theorem mem_matching {row : DocumentRow} :
    row ∈ s.matching filter ↔ row ∈ s.documents.rows ∧ filter.admits row = true := by
  rw [matching, List.mem_insertionSort, List.mem_filter]

theorem pairwise_matching : (s.matching filter).Pairwise DocumentRow.NewestFirst :=
  List.pairwise_insertionSort _ _

theorem nodup_matching : ((s.matching filter).map DocumentRow.id).Nodup := by
  have hperm : (s.matching filter).Perm (s.documents.rows.filter filter.admits) :=
    List.perm_insertionSort _ _
  rw [(hperm.map DocumentRow.id).nodup_iff]
  exact s.documents.nodup.sublist (List.filter_sublist.map _)

theorem sorted_matching :
    Paging.Sorted DocumentRow.cursor DocumentCursor.Before (s.matching filter) := by
  have hdistinct : (s.matching filter).Pairwise fun a b ↦ a.id ≠ b.id :=
    List.pairwise_map.mp nodup_matching
  exact pairwise_matching.imp₂ (fun _ _ h hid ↦ h.before hid) hdistinct

/-- A batch is a page of the matching rows. -/
theorem scanBatch_eq (cursor : Option DocumentCursor) (n : ℕ) :
    s.scanBatch filter cursor n =
      (Paging.after DocumentRow.cursor DocumentCursor.Before (s.matching filter) cursor).take n := by
  have hperm : ((s.documents.rows.filter fun row ↦ filter.admits row &&
        cursor.all fun c ↦ c.Before row.cursor).insertionSort DocumentRow.NewestFirst).Perm
      (Paging.after DocumentRow.cursor DocumentCursor.Before (s.matching filter) cursor) := by
    refine (List.perm_insertionSort _ _).trans ?_
    rw [Paging.after, matching]
    refine .trans (.of_eq ?_) ((List.perm_insertionSort _ _).symm.filter _)
    rw [List.filter_filter]
    exact List.filter_congr fun row _ ↦ Bool.and_comm _ _
  rw [scanBatch]
  congr 1
  refine eq_of_newestFirst (s := s) ?_ ?_ (List.pairwise_insertionSort _ _)
    (pairwise_matching.filter _) hperm
  · intro row hrow
    exact (List.mem_filter.mp ((List.mem_insertionSort _).mp hrow)).1
  · intro row hrow
    exact (Iff.mp mem_matching (List.mem_filter.mp hrow).1).1

/-! ## The scan -/

def candidateOf (codec : Codec) (row : DocumentRow) : ListCandidate :=
  ⟨row.id, row.updatedAt, aclOf codec row⟩

/-- A batch is read, or one of its rows is unreadable. -/
theorem mapM_readCandidate (codec : Codec) (principalAcl : List String) (rows : List DocumentRow) :
    (∃ row ∈ rows, ∃ e, codec.parseAcl row.aclJson = .error e ∧
        rows.mapM (readCandidate codec) = .error e) ∨
      (rows.mapM (readCandidate codec) = .ok (rows.map (candidateOf codec)) ∧
        (rows.map (candidateOf codec)).filter (fun c ↦ aclAllows c.acl principalAcl) =
          (rows.filter (visible codec principalAcl)).map (candidateOf codec)) := by
  rcases List.mapM_error_or_ok (readCandidate codec) rows with ⟨row, hrow, e, he, herror⟩ | hok
  · refine .inl ⟨row, hrow, e, ?_, herror⟩
    rw [readCandidate] at he
    cases hacl : codec.parseAcl row.aclJson with
    | error e' =>
        rw [hacl] at he
        exact congrArg _ (Except.error.inj he)
    | ok acl =>
        rw [hacl] at he
        cases he
  · have hread : ∀ row ∈ rows, codec.parseAcl row.aclJson = .ok (aclOf codec row) := by
      intro row hrow
      obtain ⟨c, hc⟩ := hok row hrow
      rw [readCandidate] at hc
      obtain ⟨acl, hacl, -⟩ := Iff.mp Except.bind_ok_iff hc
      rw [hacl, (visible_of_parseAcl [] hacl).2]
    refine .inr ⟨List.mapM_eq_ok fun row hrow ↦ ?_, ?_⟩
    · rw [readCandidate, hread row hrow]
      rfl
    · rw [List.filter_map]
      congr 1
      refine List.filter_congr fun row hrow ↦ ?_
      exact (visible_of_parseAcl principalAcl (hread row hrow)).1.symm

/-- The loop over a batch keeps the visible rows until the page overflows;
if it does not, the cursor ends at the last row. -/
theorem scanRows_spec (principalAcl : List String) {pageSize : ℕ} (rows : List ListCandidate)
    (cursor : Option DocumentCursor) {found : List ListCandidate} (hfound : found.length ≤ pageSize) :
    (scanRows principalAcl pageSize rows (cursor, found)).2 =
        found ++ (rows.filter fun c ↦ aclAllows c.acl principalAcl).take
          (pageSize + 1 - found.length) ∧
      ((scanRows principalAcl pageSize rows (cursor, found)).2.length ≤ pageSize →
        (scanRows principalAcl pageSize rows (cursor, found)).1 =
          ((rows.getLast?).map ListCandidate.cursor).or cursor) := by
  induction rows generalizing cursor found with
  | nil => simp [scanRows]
  | cons c rest ih =>
      have hlast : ∀ previous : Option DocumentCursor,
          ((rest.getLast?).map ListCandidate.cursor).or (some c.cursor) =
            (((c :: rest).getLast?).map ListCandidate.cursor).or previous := by
        intro previous
        rw [List.getLast?_cons]
        cases rest.getLast? <;> rfl
      rw [scanRows]
      dsimp only
      by_cases hallowed : aclAllows c.acl principalAcl = true
      · have hfilter : (c :: rest).filter (fun c ↦ aclAllows c.acl principalAcl) =
            c :: rest.filter fun c ↦ aclAllows c.acl principalAcl :=
          List.filter_cons_of_pos hallowed
        rw [if_pos hallowed, hfilter]
        by_cases hfull : pageSize < (found ++ [c]).length
        · rw [if_pos hfull]
          rw [List.length_append, List.length_singleton] at hfull
          have hone : pageSize + 1 - found.length = 1 := by omega
          refine ⟨by rw [hone]; rfl, fun hle ↦ ?_⟩
          rw [List.length_append, List.length_singleton] at hle
          omega
        · rw [if_neg hfull]
          have hroom : (found ++ [c]).length ≤ pageSize := not_lt.mp hfull
          obtain ⟨hkept, hcursor⟩ := ih (some c.cursor) hroom
          rw [List.length_append, List.length_singleton] at hkept hroom
          refine ⟨?_, fun hle ↦ (hcursor hle).trans (hlast cursor)⟩
          have hcount : pageSize + 1 - found.length = (pageSize + 1 - (found.length + 1)) + 1 := by
            omega
          rw [hkept, hcount, List.take_succ_cons, List.append_assoc, List.singleton_append]
      · have hfilter : (c :: rest).filter (fun c ↦ aclAllows c.acl principalAcl) =
            rest.filter fun c ↦ aclAllows c.acl principalAcl :=
          List.filter_cons_of_neg hallowed
        rw [if_neg hallowed, hfilter]
        obtain ⟨hkept, hcursor⟩ := ih (some c.cursor) hfound
        exact ⟨hkept, fun hle ↦ (hcursor hle).trans (hlast cursor)⟩

/-- The scan finds the visible ones of the rows after its cursor, up to one
more than the page takes, or it meets an unreadable row. -/
theorem scan_spec (codec : Codec) (principalAcl : List String) {pageSize rounds : ℕ}
    {cursor : Option DocumentCursor} (found : List ListCandidate) (hfound : found.length ≤ pageSize) {rows : List DocumentRow}
    (hrows : Paging.after DocumentRow.cursor DocumentCursor.Before (s.matching filter) cursor = rows)
    (hrounds : rows.length < rounds) :
    (∃ e, s.scan codec filter principalAcl pageSize rounds cursor found = some (.error e) ∧
        s.Unreadable codec filter e) ∨
      s.scan codec filter principalAcl pageSize rounds cursor found =
        some (.ok (found ++ ((rows.filter (visible codec principalAcl)).take
          (pageSize + 1 - found.length)).map (candidateOf codec))) := by
  induction rounds generalizing cursor found rows with
  | zero => omega
  | succ rounds ih =>
      have hbatch : s.scanBatch filter cursor (scanLimit pageSize) =
          rows.take (scanLimit pageSize) := by rw [scanBatch_eq, hrows]
      set batch := rows.take (scanLimit pageSize) with hdef
      rcases mapM_readCandidate codec principalAcl batch with
        ⟨row, hrow, e, he, herror⟩ | ⟨hread, hvisible⟩
      · refine .inl ⟨e, by rw [scan, hbatch, herror], row, ?_⟩
        have hmem : row ∈ s.matching filter := by
          have hafter := List.mem_of_mem_take hrow
          rw [← hrows] at hafter
          exact (List.mem_filter.mp hafter).1
        exact ⟨(Iff.mp mem_matching hmem).1, (Iff.mp mem_matching hmem).2, he⟩
      · obtain ⟨hkept, hcursor⟩ := scanRows_spec principalAcl
          (batch.map (candidateOf codec)) cursor hfound
        rw [hvisible, ← List.map_take] at hkept
        have hscan : s.scan codec filter principalAcl pageSize (rounds + 1) cursor found =
            if pageSize < (found ++ ((batch.filter (visible codec principalAcl)).take
                (pageSize + 1 - found.length)).map (candidateOf codec)).length ∨
                batch.length < scanLimit pageSize then
              some (.ok (found ++ ((batch.filter (visible codec principalAcl)).take
                (pageSize + 1 - found.length)).map (candidateOf codec)))
            else s.scan codec filter principalAcl pageSize rounds
              (scanRows principalAcl pageSize (batch.map (candidateOf codec)) (cursor, found)).1
              (found ++ ((batch.filter (visible codec principalAcl)).take
                (pageSize + 1 - found.length)).map (candidateOf codec)) := by
          rw [scan, hbatch, hread]
          simp only [hkept, List.length_map]
        have hsplit : rows.filter (visible codec principalAcl) =
            batch.filter (visible codec principalAcl) ++
              (rows.drop (scanLimit pageSize)).filter (visible codec principalAcl) := by
          rw [← List.filter_append, hdef, List.take_append_drop]
        rw [hscan, hsplit]
        split
        next hend =>
            refine .inr ?_
            congr 4
            rcases hend with hfull | hshort
            · rw [List.length_append, List.length_map, List.length_take] at hfull
              rw [List.take_append_of_le_length (by omega)]
            · have hall : rows.drop (scanLimit pageSize) = [] := by
                rw [hdef, List.length_take] at hshort
                exact List.drop_eq_nil_of_le (by omega)
              rw [hall, List.filter_nil, List.append_nil]
        next hgo =>
            rw [not_or, not_lt, not_lt] at hgo
            obtain ⟨hroom, hlong⟩ := hgo
            have hlimit : 0 < scanLimit pageSize := by
              rw [scanLimit]
              omega
            rw [List.length_append, List.length_map, List.length_take] at hroom
            have htaken : (batch.filter (visible codec principalAcl)).take
                (pageSize + 1 - found.length) = batch.filter (visible codec principalAcl) :=
              List.take_of_length_le (by omega)
            have hne : batch ≠ [] := List.length_pos_iff.mp (hlimit.trans_le hlong)
            have hlast := List.getLast?_eq_some_getLast hne
            set x := batch.getLast hne
            have hnext : (scanRows principalAcl pageSize (batch.map (candidateOf codec))
                (cursor, found)).1 = some x.cursor := by
              rw [hcursor ?_, List.getLast?_map, hlast]
              · rfl
              · rw [hkept, List.length_append, List.length_map, List.length_take]
                exact hroom
            have hrest : Paging.after DocumentRow.cursor DocumentCursor.Before (s.matching filter)
                (some x.cursor) = rows.drop (scanLimit pageSize) := by
              rw [← hrows]
              refine Paging.after_getLast_take sorted_matching ?_
              rw [hrows]
              exact hlast
            rw [hnext, htaken]
            have hfound' : (found ++ (batch.filter (visible codec principalAcl)).map
                (candidateOf codec)).length ≤ pageSize := by
              rw [List.length_append, List.length_map]
              omega
            have hfewer : (rows.drop (scanLimit pageSize)).length < rounds := by
              rw [List.length_drop]
              rw [hdef, List.length_take] at hlong
              omega
            rcases ih _ hfound' hrest hfewer with herror | hok
            · exact .inl herror
            · refine .inr ?_
              rw [hok, List.append_assoc, ← List.map_append, List.take_append,
                List.take_of_length_le (by omega : (batch.filter _).length ≤ _)]
              congr 6
              rw [List.length_append, List.length_map]
              omega

/-! ## The pages -/

/-- The visible matching documents, newest first. -/
def listing (codec : Codec) (s : Store) (filter : DocumentFilter) (principalAcl : List String) :
    List DocumentSummary :=
  ((s.matching filter).filter (visible codec principalAcl)).map fun row ↦
    s.summaryWith row (aclOf codec row)

theorem sorted_listing : Paging.Sorted DocumentSummary.cursor DocumentCursor.Before
    (s.listing codec filter principalAcl) :=
  List.pairwise_map.mpr (sorted_matching.filter _)

theorem after_listing (cursor : Option DocumentCursor) :
    Paging.after DocumentSummary.cursor DocumentCursor.Before (s.listing codec filter principalAcl)
        cursor =
      ((Paging.after DocumentRow.cursor DocumentCursor.Before (s.matching filter) cursor).filter
        (visible codec principalAcl)).map fun row ↦ s.summaryWith row (aclOf codec row) := by
  rw [Paging.after, Paging.after, listing, List.filter_map, List.filter_filter, List.filter_filter]
  congr 1
  exact List.filter_congr fun row _ ↦ Bool.and_comm _ _

theorem summarize_of_visible {row : DocumentRow} (h : visible codec principalAcl row = true) :
    s.summarize codec row = .ok (s.summaryWith row (aclOf codec row)) := by
  rw [summarize, (parseAcl_of_visible h).1]
  rfl

theorem mem_listing {d : DocumentSummary} :
    d ∈ s.listing codec filter principalAcl ↔ s.Listed codec filter principalAcl d := by
  rw [listing, List.mem_map, Listed]
  constructor
  · rintro ⟨row, hrow, rfl⟩
    obtain ⟨hrow, hvisible⟩ := List.mem_filter.mp hrow
    obtain ⟨hrow, hadmits⟩ := Iff.mp mem_matching hrow
    exact ⟨row, hrow, hadmits, summarize_of_visible hvisible, (parseAcl_of_visible hvisible).2⟩
  · rintro ⟨row, hrow, hadmits, hsummary, hallowed⟩
    obtain ⟨acl, hacl, hd⟩ := Iff.mp Except.bind_ok_iff hsummary
    obtain rfl := Iff.mp Except.pure_ok_iff hd
    obtain ⟨hvisible, hlabels⟩ := visible_of_parseAcl principalAcl hacl
    refine ⟨row, List.mem_filter.mpr ⟨Iff.mpr mem_matching ⟨hrow, hadmits⟩, ?_⟩, ?_⟩
    · exact hvisible.trans hallowed
    · rw [hlabels]

/-- The documents of the listing are read back by their ids. -/
theorem documentsIn_eq {rows : List DocumentRow} (h : rows.Sublist (s.matching filter)) :
    s.documentsIn (rows.map DocumentRow.id) = rows := by
  have hrows : ∀ row ∈ rows, row ∈ s.documents.rows := fun row hrow ↦
    (Iff.mp mem_matching (h.subset hrow)).1
  refine eq_of_newestFirst (s := s) ?_ hrows (List.pairwise_insertionSort _ _)
    (pairwise_matching.sublist h) ?_
  · intro row hrow
    exact (List.mem_filter.mp ((List.mem_insertionSort _).mp hrow)).1
  · have hnodup : (s.documents.rows.filter fun row ↦ row.id ∈ rows.map DocumentRow.id).Nodup :=
      s.documents.nodup.of_map.filter _
    have hnodup' : rows.Nodup := (nodup_matching.of_map).sublist h
    refine (List.perm_insertionSort _ _).trans ((List.perm_ext_iff_of_nodup hnodup hnodup').mpr ?_)
    intro row
    rw [List.mem_filter, decide_eq_true_iff, List.mem_map]
    constructor
    · rintro ⟨hrow, row', hrow', hid⟩
      rwa [← List.inj_on_of_nodup_map s.documents.nodup (hrows row' hrow') hrow hid]
    · exact fun hrow ↦ ⟨hrows row hrow, row, hrow, rfl⟩

/-- A page has the first documents after its cursor, unless a row it reads is
unreadable. -/
theorem listDocumentsScoped_spec (codec : Codec) (s : Store) (filter : DocumentFilter)
    (principalAcl : List String) (cursor : Option DocumentCursor) (limit extra : ℕ) :
    (∃ e, s.listDocumentsScoped codec filter cursor limit principalAcl
        (s.documents.rows.length + 1 + extra) = some (.error e) ∧ s.Unreadable codec filter e) ∨
      s.listDocumentsScoped codec filter cursor limit principalAcl
          (s.documents.rows.length + 1 + extra) =
        let rest := Paging.after DocumentSummary.cursor DocumentCursor.Before
          (s.listing codec filter principalAcl) cursor
        some (.ok ⟨rest.take (listingPageSize limit), listingPageSize limit < rest.length⟩) := by
  set pageSize := listingPageSize limit with hsize
  set rows := Paging.after DocumentRow.cursor DocumentCursor.Before (s.matching filter) cursor
    with hrows
  have hlength : rows.length < s.documents.rows.length + 1 + extra := by
    have hafter : rows.length ≤ (s.matching filter).length := List.length_filter_le _ _
    have hall : (s.matching filter).length ≤ s.documents.rows.length := by
      rw [matching, List.length_insertionSort]
      exact List.length_filter_le _ _
    omega
  have hempty : ([] : List ListCandidate).length ≤ pageSize := Nat.zero_le _
  rcases scan_spec codec principalAcl [] hempty hrows.symm hlength with ⟨e, herror, he⟩ | hok
  · refine .inl ⟨e, ?_, he⟩
    rw [listDocumentsScoped, ← hsize, herror]
    rfl
  · refine .inr ?_
    rw [after_listing, ← hrows]
    set shown := rows.filter (visible codec principalAcl) with hshown
    rw [List.nil_append, List.length_nil, Nat.sub_zero] at hok
    have htake : ((shown.take (pageSize + 1)).map (candidateOf codec)).take pageSize =
        (shown.take pageSize).map (candidateOf codec) := by
      rw [← List.map_take, List.take_take, Nat.min_eq_left (Nat.le_succ pageSize)]
    have hsublist : (shown.take pageSize).Sublist (s.matching filter) :=
      (List.take_sublist _ _).trans (List.filter_sublist.trans List.filter_sublist)
    have hdocuments : s.documentsIn (((shown.take pageSize).map (candidateOf codec)).map
        ListCandidate.id) = shown.take pageSize := by
      rw [List.map_map]
      exact documentsIn_eq hsublist
    have hsummaries : (shown.take pageSize).mapM (s.summarize codec) =
        .ok ((shown.take pageSize).map fun row ↦ s.summaryWith row (aclOf codec row)) :=
      List.mapM_eq_ok fun row hrow ↦
        summarize_of_visible (List.mem_filter.mp (List.mem_of_mem_take hrow)).2
    have hmore : (pageSize < ((shown.take (pageSize + 1)).map (candidateOf codec)).length) ↔
        pageSize < shown.length := by
      rw [List.length_map, List.length_take]
      omega
    rw [listDocumentsScoped, ← hsize, hok, Option.map_some]
    dsimp only [bind, Except.bind, pure, Except.pure]
    have hcount : (shown.map fun row ↦ s.summaryWith row (aclOf codec row)).length =
        shown.length := List.length_map _
    rw [htake, hcount, ← List.map_take]
    congr 1
    by_cases hempty : (shown.take pageSize).map (candidateOf codec) = []
    · have hnone : shown.take pageSize = [] := List.map_eq_nil_iff.mp hempty
      rw [if_pos hempty, hnone]
      simp only [hmore, List.map_nil]
    · rw [if_neg hempty, hdocuments, hsummaries]
      simp only [hmore]

/-- A page leaves a document out exactly if there are more after its cursor
than it takes. -/
theorem listedBeyond_iff {cursor : Option DocumentCursor} {n : ℕ} {more : Bool} :
    let rest := Paging.after DocumentSummary.cursor DocumentCursor.Before
      (s.listing codec filter principalAcl) cursor
    s.ListedBeyond codec filter principalAcl cursor ⟨rest.take n, more⟩ ↔ n < rest.length := by
  intro rest
  have hmem : ∀ d, d ∈ rest ↔ s.Listed codec filter principalAcl d ∧
      ∀ c ∈ cursor, c.Before d.cursor := by
    intro d
    rw [← mem_listing]
    exact Paging.mem_after
  have hsorted : Paging.Sorted DocumentSummary.cursor DocumentCursor.Before rest :=
    sorted_listing.after cursor
  constructor
  · rintro ⟨d, hlisted, hafter, hbeyond⟩
    by_contra hfits
    have hd : d ∈ rest.take n := by
      rw [List.take_of_length_le (not_lt.mp hfits)]
      exact (hmem d).mpr ⟨hlisted, hafter⟩
    exact irrefl d.cursor (hbeyond d hd)
  · intro hmore
    have hd : rest[n] ∈ rest.drop n := by
      rw [List.drop_eq_getElem_cons hmore]
      exact List.mem_cons_self
    obtain ⟨hlisted, hafter⟩ := (hmem rest[n]).mp (List.getElem_mem hmore)
    refine ⟨rest[n], hlisted, hafter, fun d' hd' ↦ ?_⟩
    have hsplit : Paging.Sorted DocumentSummary.cursor DocumentCursor.Before
        (rest.take n ++ rest.drop n) := by rwa [List.take_append_drop]
    exact (List.pairwise_append.mp hsplit).2.2 d' hd' rest[n] hd

theorem listsAll_listing :
    s.ListsAll codec filter principalAcl (s.listing codec filter principalAcl) :=
  ⟨fun _ ↦ mem_listing, sorted_listing⟩

/-- A client's page is a page of the listing. -/
theorem listPage_spec (limit extra : ℕ) (cursor : Option DocumentCursor) :
    (∃ e, s.listPage codec filter limit principalAcl (s.documents.rows.length + 1 + extra) cursor =
        some (.error e) ∧ s.Unreadable codec filter e) ∨
      s.listPage codec filter limit principalAcl (s.documents.rows.length + 1 + extra) cursor =
        some (.ok (Paging.page DocumentSummary.cursor DocumentCursor.Before
          (s.listing codec filter principalAcl) (listingPageSize limit) cursor)) := by
  rcases listDocumentsScoped_spec codec s filter principalAcl cursor limit extra with
    ⟨e, herror, he⟩ | hok
  · refine .inl ⟨e, ?_, he⟩
    rw [listPage, herror]
    rfl
  · refine .inr ?_
    rw [listPage, hok, Paging.page]
    simp [Except.map]

/-- A page fails only for a matching row with an unreadable ACL; otherwise it
says whether a document of the listing is left.  The pages from the start on,
with the last document of one as the cursor of the next, are finitely many and
list every document once and in order. -/
theorem listDocuments_exact (codec : Codec) (s : Store) (filter : DocumentFilter) (limit : ℕ)
    (principalAcl : List String) (extra : ℕ) :
    (∀ cursor,
      (∃ e, s.listDocumentsScoped codec filter cursor limit principalAcl
          (s.documents.rows.length + 1 + extra) = some (.error e) ∧ s.Unreadable codec filter e) ∨
        ∃ page, s.listDocumentsScoped codec filter cursor limit principalAcl
            (s.documents.rows.length + 1 + extra) = some (.ok page) ∧
          (page.hasMore = true ↔ s.ListedBeyond codec filter principalAcl cursor page)) ∧
      ((∃ e, Paging.collect (s.listPage codec filter limit principalAcl
          (s.documents.rows.length + 1 + extra)) (s.documents.rows.length + 1 + extra) none =
            some (.error e) ∧ s.Unreadable codec filter e) ∨
        ∃ pages, Paging.collect (s.listPage codec filter limit principalAcl
            (s.documents.rows.length + 1 + extra)) (s.documents.rows.length + 1 + extra) none =
              some (.ok pages) ∧
          s.ListsAll codec filter principalAcl pages.flatten) := by
  constructor
  · intro cursor
    rcases listDocumentsScoped_spec codec s filter principalAcl cursor limit extra with
      herror | hok
    · exact .inl herror
    · refine .inr ⟨_, hok, ?_⟩
      rw [decide_eq_true_iff]
      exact listedBeyond_iff.symm
  · have hsize : 0 < listingPageSize limit := by
      rw [listingPageSize]
      omega
    have hrounds : (Paging.after DocumentSummary.cursor DocumentCursor.Before
        (s.listing codec filter principalAcl) none).length <
          s.documents.rows.length + 1 + extra := by
      rw [Paging.after_none, listing, List.length_map]
      have hvisible : ((s.matching filter).filter (visible codec principalAcl)).length ≤
          (s.matching filter).length := List.length_filter_le _ _
      have hall : (s.matching filter).length ≤ s.documents.rows.length := by
        rw [matching, List.length_insertionSort]
        exact List.length_filter_le _ _
      omega
    rcases Paging.collect_spec sorted_listing hsize (fun c _ ↦ listPage_spec limit extra c)
      (by simp) hrounds with herror | ⟨pages, hpages, hflatten⟩
    · exact .inl herror
    · refine .inr ⟨pages, hpages, ?_⟩
      rw [hflatten, Paging.after_none]
      exact listsAll_listing

end Store

end Cortana
