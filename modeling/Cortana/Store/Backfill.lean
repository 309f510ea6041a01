import Cortana.Core.TopK
import Cortana.Store.Links
import Cortana.Text.Case

/-!
# The backfill of links

`backfill_document_links` derives the links of every stored document with one
statement over `json_tree`, ingestion with `metadata_reference_strings`.  How a
member's name is written in a path of `json_tree` is a parameter.
-/

namespace Cortana

/-! ## `json_tree` -/

/-- From a container to one of its elements. -/
inductive TreeStep where
  | index (i : ℕ)
  | member (key : String)

/-- A row of `json_tree`: a value and the steps to it, the last one first. -/
structure TreeRow where
  trail : List TreeStep
  value : Value

/-- `json_tree`, in the order of the document. -/
def jsonTree (trail : List TreeStep) (value : Value) : List TreeRow :=
  ⟨trail, value⟩ ::
    match value with
    | .array items => itemRows trail 0 items
    | .object members => memberRows trail members
    | _ => []
where
  itemRows (trail : List TreeStep) : ℕ → List Value → List TreeRow
    | _, [] => []
    | i, item :: rest => jsonTree (.index i :: trail) item ++ itemRows trail (i + 1) rest
  memberRows (trail : List TreeStep) : List (String × Value) → List TreeRow
    | [] => []
    | (key, item) :: rest => jsonTree (.member key :: trail) item ++ memberRows trail rest

/-- How `json_tree` writes the name of a member in a path: names of letters as
they are, others perhaps in quotes. -/
structure PathNames where
  label : String → String
  letters : ∀ key, key ≠ "" → (∀ c ∈ key.toList, c.isAlpha) → label key = key
  plain_or_quoted : ∀ key, (label key = key ∧ ∀ c ∈ key.toList, c.isAlphanum) ∨
    ∃ body, label key = "\"" ++ body ++ "\""

namespace TreeStep

/-- The column `key`, as text. -/
def key : TreeStep → String
  | index i => String.ofList (Nat.toDigits 10 i)
  | member key => key

def segment (names : PathNames) : TreeStep → String
  | index i => "[" ++ String.ofList (Nat.toDigits 10 i) ++ "]"
  | member key => "." ++ names.label key

end TreeStep

/-- A path of `json_tree`. -/
def renderPath (names : PathNames) : List TreeStep → String
  | [] => "$"
  | step :: outer => renderPath names outer ++ step.segment names

/-- `LIKE '%…'` on a text in lower case. -/
def likeSuffix (text ending : String) : Bool := ending.toList.isSuffixOf text.toList

namespace TreeRow

/-- The value of a row of `type='text'`. -/
def text (row : TreeRow) : Option String := row.value.asStr

def fullkey (names : PathNames) (row : TreeRow) : String := renderPath names row.trail

def path (names : PathNames) (row : TreeRow) : String := renderPath names row.trail.tail

/-- The `WHERE` clause of the backfill. -/
def selected (names : PathNames) (row : TreeRow) : Bool :=
  let path := asciiLowercase (row.path names)
  (row.text.any fun text ↦ 1 ≤ sqlLength text && sqlLength text ≤ 4096) &&
    ((row.trail.head?.any fun step ↦ isReferenceMetadataKey step.key) ||
      ["$.links", "$.refs", "$.references", "$.related"].contains path ||
      likeSuffix path ".links" || likeSuffix path ".refs" || likeSuffix path ".references" ||
      likeSuffix path ".related")

end TreeRow

/-- The targets that the backfill inserts for a document: `row_number` counts
by `fullkey`. -/
def backfillTargets (names : PathNames) (metadata : Value) : List String :=
  ((((jsonTree [] metadata).filter (TreeRow.selected names)).insertionSort
    fun a b ↦ a.fullkey names ≤ b.fullkey names).take maxReferences).filterMap TreeRow.text

/-- `backfill_document_links`, with `document_links_version`. -/
def backfillDocumentLinks (names : PathNames) (parse : String → Option Value)
    (version : Option String) (l : LinkedStore) : Except String (LinkedStore × Option String) :=
  if version = some "1" then .ok (l, version)
  else do
    let links ← l.store.documents.rows.mapM fun row ↦
      match parse row.metadataJson with
      | some metadata => .ok ((backfillTargets names metadata).map fun target ↦ (row.id, target))
      | none => .error "malformed JSON"
    return ({ l with
      documentLinks := links.flatten.foldl
        (fun links link ↦ if link ∈ links then links else links ++ [link]) l.documentLinks },
      some "1")

/-! ## Where the two derivations look -/

/-- A step to a member under a reference key. -/
def TreeStep.isReference : TreeStep → Bool
  | index _ => false
  | member key => isReferenceMetadataKey key

/-- A step to a member whose elements the query takes. -/
def TreeStep.isCollection : TreeStep → Bool
  | index _ => false
  | member key => ["links", "refs", "references", "related"].contains (asciiLowercase key)

/-- The backfill looks at a string's own key and at the key of its container,
and counts characters. -/
def TreeRow.queried (row : TreeRow) : Bool :=
  (row.text.any fun text ↦ 1 ≤ sqlLength text && sqlLength text ≤ 4096) &&
    (row.trail.head?.any TreeStep.isReference || row.trail.tail.head?.any TreeStep.isCollection)

/-- Ingestion looks at all keys above a string, and counts bytes. -/
def TreeRow.collected (row : TreeRow) : Bool :=
  (row.text.any fun text ↦ text ≠ "" && text.utf8ByteSize ≤ 4096) &&
    row.trail.any TreeStep.isReference

/-- The strings of some rows of a tree. -/
def textsOf (p : TreeRow → Bool) (rows : List TreeRow) : List String :=
  (rows.filter p).filterMap TreeRow.text

/-- The query looks at a string, and at fewer than 256 before it: at those whose
path is less, and at those before it in the document whose path is the same. -/
def EarlyByPath (names : PathNames) (metadata : Value) (row : TreeRow) : Prop :=
  ∃ before after, jsonTree [] metadata = before ++ row :: after ∧ row.queried = true ∧
    (before.filter fun b ↦ b.queried ∧ b.fullkey names ≤ row.fullkey names).length +
      (after.filter fun b ↦ b.queried ∧ b.fullkey names < row.fullkey names).length < maxReferences

/-- Ingestion looks at a string, and at fewer than 256 distinct ones before it in
the document. -/
def EarlyInDocument (metadata : Value) (row : TreeRow) : Prop :=
  ∃ before after, jsonTree [] metadata = before ++ row :: after ∧ row.collected = true ∧
    (textsOf TreeRow.collected before).dedup.length < maxReferences

/-- All strings that ingestion looks at. -/
def collectedTexts (metadata : Value) : List String :=
  textsOf TreeRow.collected (jsonTree [] metadata)

/-! ## The query -/

theorem toList_asciiLowercase (text : String) :
    (asciiLowercase text).toList = text.toList.map Char.toLower := by
  rw [asciiLowercase, String.toList_ofList]
  apply List.map_congr_left
  intro c _
  have hupper : ('A' ≤ c ∧ c ≤ 'Z') ↔ c.isUpper = true := by
    simp [Char.isUpper, Char.le_def]
  by_cases h : c.isUpper = true
  · rw [if_pos (Iff.mpr hupper h), Char.toLower_eq_of_isUpper h]
  · rw [if_neg (h ∘ Iff.mp hupper), Char.toLower_eq_of_not_isUpper h]

theorem mem_map_toLower_iff {c : Char} (hc : c.isAlpha = false) {s : List Char} :
    c ∈ s.map Char.toLower ↔ c ∈ s := by
  rw [List.mem_map]
  constructor
  · rintro ⟨d, hd, hlower⟩
    have hsame := ByteText.beq_toLower hc d
    rw [hlower, beq_self_eq_true, eq_comm, beq_iff_eq] at hsame
    exact hsame ▸ hd
  · intro hmem
    refine ⟨c, hmem, ?_⟩
    have hsame := ByteText.beq_toLower hc c
    rwa [beq_self_eq_true, beq_iff_eq] at hsame

/-- The number of an element of an array is no key. -/
theorem isReferenceMetadataKey_toDigits (i : ℕ) :
    isReferenceMetadataKey (String.ofList (Nat.toDigits 10 i)) = false := by
  have hletter : ∀ key ∈ ["uri", "url", "link", "links", "ref", "refs", "reference", "references",
      "related", "source_id", "document_id", "parent_uri", "parent_id"],
      (key.toList.any fun c ↦ !c.isDigit) = true := by
    decide
  rw [isReferenceMetadataKey, List.contains_eq_any_beq, List.any_eq_false]
  intro key hkey hequal
  obtain ⟨c, hc, hdigit⟩ := List.any_eq_true.mp (hletter key hkey)
  rw [← beq_iff_eq.mp hequal, toList_asciiLowercase, String.toList_ofList] at hc
  obtain ⟨d, hd, rfl⟩ := List.mem_map.mp hc
  rw [ByteText.isDigit_toLower, Bool.not_eq_true'] at hdigit
  exact ByteText.notMem_toDigits hdigit i hd

theorem isReferenceMetadataKey_key (step : TreeStep) :
    isReferenceMetadataKey step.key = step.isReference := by
  cases step with
  | index i => exact isReferenceMetadataKey_toDigits i
  | member key => rfl

theorem mem_of_suffix_append_singleton {α : Type*} {sep c : α} {name l : List α} (hname : name ≠ [])
    (h : sep :: name <:+ l ++ [c]) : c ∈ name := by
  obtain ⟨before, hbefore⟩ := h
  rcases List.eq_nil_or_concat name with rfl | ⟨start, last, rfl⟩
  · exact absurd rfl hname
  · rw [List.concat_eq_append, ← List.cons_append, ← List.append_assoc] at hbefore
    obtain ⟨-, hlast⟩ := List.append_inj' hbefore rfl
    rw [← List.singleton_inj.mp hlast, List.concat_eq_append]
    exact List.mem_append_right start List.mem_cons_self

/-- A path ends in a plain name only after a step to a member of that name. -/
theorem likeSuffix_renderPath (names : PathNames) (trail : List TreeStep) {name : String}
    (hname : name ≠ "") (hletters : ∀ c ∈ name.toList, c.isAlpha) :
    likeSuffix (asciiLowercase (renderPath names trail)) ("." ++ name) = true ↔
      ∃ key, trail.head? = some (.member key) ∧ asciiLowercase key = name := by
  have hnil : name.toList ≠ [] := by simpa using hname
  have hnot : ∀ {c : Char}, c.isAlpha = false → c ∉ name.toList := by
    intro c hc hmem
    rw [hletters c hmem] at hc
    cases hc
  have hsplit : ("." ++ name).toList = '.' :: name.toList := by
    rw [String.toList_append]
    rfl
  rw [likeSuffix, List.isSuffixOf_iff_suffix, toList_asciiLowercase, hsplit]
  cases trail with
  | nil =>
      constructor
      · intro h
        have hlength := h.length_le
        have hpos := List.length_pos_iff.mpr hnil
        rw [List.length_cons, List.length_map, renderPath] at hlength
        have hroot : "$".toList.length = 1 := by decide
        omega
      · rintro ⟨key, hhead, -⟩
        cases hhead
  | cons step outer =>
      rw [renderPath, String.toList_append, List.map_append]
      cases step with
      | index i =>
          rw [TreeStep.segment, String.toList_append, List.map_append, ← List.append_assoc]
          constructor
          · intro h
            exact absurd (mem_of_suffix_append_singleton hnil h) (hnot rfl)
          · rintro ⟨key, hhead, -⟩
            cases hhead
      | member key =>
          have hmember : (TreeStep.segment names (.member key)).toList =
              '.' :: (names.label key).toList := by
            rw [TreeStep.segment, String.toList_append]
            rfl
          have hdot : Char.toLower '.' = '.' := rfl
          rw [hmember, List.map_cons, hdot]
          constructor
          · intro h
            rcases names.plain_or_quoted key with ⟨hplain, halnum⟩ | ⟨body, hquoted⟩
            · obtain ⟨before, hbefore⟩ := h
              rw [hplain] at hbefore
              have hfree : '.' ∉ key.toList.map Char.toLower := by
                rw [mem_map_toLower_iff rfl]
                intro hmem
                cases halnum '.' hmem
              obtain rfl := ByteText.append_cons_inj_of_notMem_right (hnot rfl) hfree hbefore
              refine ⟨key, rfl, ?_⟩
              rw [← String.toList_inj, toList_asciiLowercase]
              exact (List.cons.inj (List.append_cancel_left hbefore)).2.symm
            · rw [hquoted, String.toList_append, List.map_append, ← List.cons_append,
                ← List.append_assoc] at h
              exact absurd (mem_of_suffix_append_singleton hnil h) (hnot rfl)
          · rintro ⟨key', hhead, rfl⟩
            obtain rfl : key = key' := by simpa using hhead
            have hlabel : names.label key = key := by
              apply names.letters
              · rintro rfl
                exact hname rfl
              · intro c hc
                have hlower := hletters c.toLower (by
                  rw [toList_asciiLowercase]
                  exact List.mem_map_of_mem hc)
                rwa [ByteText.apply_toLower (p := Char.isAlpha) (a := true) (by
                  intro d hd
                  simp [Char.isAlpha, Char.isUpper, Char.isLower, UInt32.le_iff_toNat_le]
                  omega)] at hlower
            rw [hlabel, toList_asciiLowercase]
            exact List.suffix_append _ _

theorem isCollection_head_iff (trail : List TreeStep) :
    trail.head?.any TreeStep.isCollection = true ↔
      ∃ name ∈ ["links", "refs", "references", "related"], ∃ key,
        trail.head? = some (.member key) ∧ asciiLowercase key = name := by
  cases trail with
  | nil => simp
  | cons step outer =>
      cases step with
      | index i => simp [TreeStep.isCollection]
      | member key => simp [TreeStep.isCollection]

/-- The conditions on `path`. -/
theorem path_conditions (names : PathNames) (trail : List TreeStep) {path : String}
    (hpath : asciiLowercase (renderPath names trail) = path) :
    (["$.links", "$.refs", "$.references", "$.related"].contains path ||
      likeSuffix path ".links" || likeSuffix path ".refs" || likeSuffix path ".references" ||
      likeSuffix path ".related") = trail.head?.any TreeStep.isCollection := by
  have hnames : ∀ name ∈ ["links", "refs", "references", "related"],
      name ≠ "" ∧ name.toList.all Char.isAlpha = true := by
    decide
  have hending : ∀ name ∈ ["links", "refs", "references", "related"],
      (likeSuffix path ("." ++ name) = true ↔
        ∃ key, trail.head? = some (.member key) ∧ asciiLowercase key = name) := by
    intro name hname
    rw [← hpath]
    exact likeSuffix_renderPath names trail (hnames name hname).1
      (List.all_eq_true.mp (hnames name hname).2)
  have hwhole : path ∈ ["$.links", "$.refs", "$.references", "$.related"] →
      ∃ name ∈ ["links", "refs", "references", "related"], likeSuffix path ("." ++ name) = true := by
    clear hpath hending
    revert path
    decide
  rw [Bool.eq_iff_iff, isCollection_head_iff]
  simp only [Bool.or_eq_true, List.contains_iff_mem]
  constructor
  · intro h
    have hsome : ∃ name ∈ ["links", "refs", "references", "related"],
        likeSuffix path ("." ++ name) = true := by
      rcases h with (((h | h) | h) | h) | h
      · exact hwhole h
      · exact ⟨"links", by simp, h⟩
      · exact ⟨"refs", by simp, h⟩
      · exact ⟨"references", by simp, h⟩
      · exact ⟨"related", by simp, h⟩
    obtain ⟨name, hname, hlike⟩ := hsome
    exact ⟨name, hname, Iff.mp (hending name hname) hlike⟩
  · rintro ⟨name, hname, hkey⟩
    have hlike := Iff.mpr (hending name hname) hkey
    fin_cases hname
    · exact .inl (.inl (.inl (.inr hlike)))
    · exact .inl (.inl (.inr hlike))
    · exact .inl (.inr hlike)
    · exact .inr hlike

/-- The `WHERE` clause in terms of the steps to a row. -/
theorem selected_eq_queried (names : PathNames) (row : TreeRow) :
    row.selected names = row.queried := by
  have hkey : (row.trail.head?.any fun step ↦ isReferenceMetadataKey step.key) =
      row.trail.head?.any TreeStep.isReference := by
    cases row.trail.head? with
    | none => rfl
    | some step => exact isReferenceMetadataKey_key step
  have hpath := path_conditions names row.trail.tail rfl
  rw [TreeRow.selected, TreeRow.queried, ← hpath, hkey, TreeRow.path]
  simp only [Bool.or_assoc]

/-- The places of a filtered list are those of the list that are not filtered out. -/
theorem filter_eq_append_cons_iff {α : Type*} {p : α → Bool} {l before after : List α} {a : α} :
    l.filter p = before ++ a :: after ↔ ∃ before' after', l = before' ++ a :: after' ∧ p a = true ∧
      before'.filter p = before ∧ after'.filter p = after := by
  constructor
  · intro h
    obtain ⟨first, rest, rfl, hfirst, hrest⟩ := List.filter_eq_append_iff.mp h
    obtain ⟨skipped, after', rfl, hskipped, ha, hafter⟩ := List.filter_eq_cons_iff.mp hrest
    refine ⟨first ++ skipped, after', by rw [List.append_assoc], ha, ?_, hafter⟩
    rw [List.filter_append, hfirst, List.filter_eq_nil_iff.mpr hskipped, List.append_nil]
  · rintro ⟨before', after', rfl, ha, rfl, rfl⟩
    rw [List.filter_append, List.filter_cons_of_pos ha]

/-- The rows of the query, cut at 256 by path. -/
theorem mem_take_queried_iff {names : PathNames} {metadata : Value} {row : TreeRow} :
    row ∈ (((jsonTree [] metadata).filter TreeRow.queried).insertionSort
        fun a b ↦ a.fullkey names ≤ b.fullkey names).take maxReferences ↔
      EarlyByPath names metadata row := by
  have : Std.Total fun a b : TreeRow ↦ a.fullkey names ≤ b.fullkey names :=
    ⟨fun a b ↦ le_total (a.fullkey names) (b.fullkey names)⟩
  have : IsTrans TreeRow fun a b : TreeRow ↦ a.fullkey names ≤ b.fullkey names :=
    ⟨fun _ _ _ hab hbc ↦ le_trans hab hbc⟩
  rw [List.mem_take_insertionSort_iff]
  have hrank : ∀ before after : List TreeRow,
      List.sortRank (fun a b : TreeRow ↦ a.fullkey names ≤ b.fullkey names)
        (before.filter TreeRow.queried) row (after.filter TreeRow.queried) =
      (before.filter fun b ↦ b.queried ∧ b.fullkey names ≤ row.fullkey names).length +
        (after.filter fun b ↦ b.queried ∧ b.fullkey names < row.fullkey names).length := by
    intro before after
    rw [List.sortRank, List.filter_filter, List.filter_filter]
    congr 2
    · exact List.filter_congr fun b _ ↦ by simp [Bool.and_comm]
    · exact List.filter_congr fun b _ ↦ by simp [Bool.and_comm]
  constructor
  · rintro ⟨before, after, hsplit, hless⟩
    obtain ⟨before', after', htree, hqueried, rfl, rfl⟩ := Iff.mp filter_eq_append_cons_iff hsplit
    exact ⟨before', after', htree, hqueried, hrank before' after' ▸ hless⟩
  · rintro ⟨before, after, htree, hqueried, hless⟩
    exact ⟨_, _, Iff.mpr filter_eq_append_cons_iff ⟨before, after, htree, hqueried, rfl, rfl⟩,
      (hrank before after).trans_lt hless⟩

theorem mem_backfillTargets {names : PathNames} {metadata : Value} {target : String} :
    target ∈ backfillTargets names metadata ↔
      ∃ row, EarlyByPath names metadata row ∧ row.text = some target := by
  have hfilter : TreeRow.selected names = TreeRow.queried := funext (selected_eq_queried names)
  rw [backfillTargets, hfilter, List.mem_filterMap]
  simp only [mem_take_queried_iff]

/-- A run of the backfill adds the targets of every stored document and
nothing else. -/
theorem mem_documentLinks_of_backfill {names : PathNames} {parse : String → Option Value}
    {version version' : Option String} {l m : LinkedStore} (hversion : version ≠ some "1")
    (h : backfillDocumentLinks names parse version l = .ok (m, version'))
    (link : String × String) :
    link ∈ m.documentLinks ↔ link ∈ l.documentLinks ∨
      ∃ row ∈ l.store.documents.rows, ∃ metadata, parse row.metadataJson = some metadata ∧
        link.1 = row.id ∧ link.2 ∈ backfillTargets names metadata := by
  rw [backfillDocumentLinks, if_neg hversion] at h
  obtain ⟨links, hlinks, hm⟩ := Iff.mp Except.bind_ok_iff h
  obtain ⟨rfl, -⟩ := Prod.mk.inj (Iff.mp Except.pure_ok_iff hm)
  rw [LinkedStore.mem_foldl_insertOrIgnore, List.mem_flatten]
  apply or_congr_right
  constructor
  · rintro ⟨part, hpart, hlink⟩
    obtain ⟨row, hrow, hrowLinks⟩ := List.exists_of_mem_mapM_ok hlinks hpart
    cases hparse : parse row.metadataJson with
    | none =>
        rw [hparse] at hrowLinks
        cases hrowLinks
    | some metadata =>
        rw [hparse] at hrowLinks
        obtain rfl := Except.ok.inj hrowLinks
        obtain ⟨target, htarget, rfl⟩ := List.mem_map.mp hlink
        exact ⟨row, hrow, metadata, hparse, rfl, htarget⟩
  · rintro ⟨row, hrow, metadata, hparse, hid, htarget⟩
    obtain ⟨part, hpart, hrowLinks⟩ := List.exists_mem_of_mapM_ok hlinks hrow
    rw [hparse] at hrowLinks
    obtain rfl := Except.ok.inj hrowLinks
    exact ⟨_, hpart, List.mem_map.mpr ⟨link.2, htarget, by rw [← hid]⟩⟩

/-! ## The recursion -/

theorem Value.induction {P : Value → Prop} (null : P .null) (bool : ∀ flag, P (.bool flag))
    (integer : ∀ n, P (.integer n)) (real : ∀ bits, P (.real bits))
    (string : ∀ text, P (.string text))
    (array : ∀ items, (∀ item ∈ items, P item) → P (.array items))
    (object : ∀ members, (∀ m ∈ members, P m.2) → P (.object members)) : ∀ value, P value
  | .null => null
  | .bool flag => bool flag
  | .integer n => integer n
  | .real bits => real bits
  | .string text => string text
  | .array items => array items fun item hitem ↦
      have := List.sizeOf_lt_of_mem hitem
      Value.induction null bool integer real string array object item
  | .object members => object members fun (key, item) hmember ↦
      have := List.sizeOf_lt_of_mem hmember
      have : sizeOf item < sizeOf (key, item) := by simp
      Value.induction null bool integer real string array object item

/-- What `collect_reference_values` takes. -/
def TreeRow.taken (row : TreeRow) : Bool :=
  row.text.any fun text ↦ text ≠ "" && text.utf8ByteSize ≤ 4096

theorem textsOf_append (p : TreeRow → Bool) (rows rows' : List TreeRow) :
    textsOf p (rows ++ rows') = textsOf p rows ++ textsOf p rows' := by
  rw [textsOf, List.filter_append, List.filterMap_append]
  rfl

theorem textsOf_cons_of_text_eq_none {p : TreeRow → Bool} {row : TreeRow} (h : row.text = none)
    (rows : List TreeRow) : textsOf p (row :: rows) = textsOf p rows := by
  rw [textsOf, List.filter_cons]
  split
  next => rw [List.filterMap_cons_none h]; rfl
  next => rfl

/-- The strings of a value go into the set one after the other. -/
theorem collectReferenceValues_eq_foldl (value : Value) :
    ∀ (trail : List TreeStep) (values : List String), collectReferenceValues value values =
      (textsOf TreeRow.taken (jsonTree trail value)).foldl
        (List.insertBelow maxReferences) values := by
  have hstart : ∀ {value : Value} {trail : List TreeStep} {values result : List String},
      (¬maxReferences ≤ values.length → result =
        (textsOf TreeRow.taken (jsonTree trail value)).foldl
          (List.insertBelow maxReferences) values) →
      (if maxReferences ≤ values.length then values else result) =
        (textsOf TreeRow.taken (jsonTree trail value)).foldl
          (List.insertBelow maxReferences) values := by
    intro value trail values result h
    split
    next hfull => rw [List.foldl_insertBelow_full hfull]
    next hroom => exact h hroom
  induction value using Value.induction with
  | null => exact fun trail values ↦ ite_self values
  | bool flag => exact fun trail values ↦ ite_self values
  | integer n => exact fun trail values ↦ ite_self values
  | real bits => exact fun trail values ↦ ite_self values
  | string text =>
      intro trail values
      unfold collectReferenceValues
      refine hstart fun hroom ↦ ?_
      have hrow : jsonTree trail (.string text) = [⟨trail, .string text⟩] := by
        unfold jsonTree
        rfl
      rw [hrow]
      by_cases htext : text ≠ "" ∧ text.utf8ByteSize ≤ 4096
      · have htexts : textsOf TreeRow.taken [⟨trail, .string text⟩] = [text] := by
          simp [textsOf, TreeRow.taken, TreeRow.text, Value.asStr, htext]
        rw [htexts, List.foldl_cons, List.insertBelow, if_neg hroom]
        exact if_pos htext
      · have htexts : textsOf TreeRow.taken [⟨trail, .string text⟩] = [] := by
          simpa [textsOf, TreeRow.taken, TreeRow.text, Value.asStr] using htext
        rw [htexts]
        exact if_neg htext
  | array items ih =>
      intro trail values
      unfold collectReferenceValues
      refine hstart fun hroom ↦ ?_
      rw [jsonTree, textsOf_cons_of_text_eq_none rfl]
      change collectReferenceValues.collectItems items values = _
      clear hroom
      generalize 0 = i
      induction items generalizing values i with
      | nil => rfl
      | cons item rest ihrest =>
          rw [collectReferenceValues.collectItems, jsonTree.itemRows, textsOf_append,
            List.foldl_append, ← ih item List.mem_cons_self]
          exact ihrest (fun other hother ↦ ih other (List.mem_cons_of_mem item hother)) _ _
  | object members ih =>
      intro trail values
      unfold collectReferenceValues
      refine hstart fun hroom ↦ ?_
      rw [jsonTree, textsOf_cons_of_text_eq_none rfl]
      change collectReferenceValues.collectMembers members values = _
      clear hroom
      induction members generalizing values with
      | nil => rfl
      | cons m rest ihrest =>
          rw [collectReferenceValues.collectMembers, jsonTree.memberRows, textsOf_append,
            List.foldl_append, ← ih m List.mem_cons_self]
          exact ihrest (fun other hother ↦ ih other (List.mem_cons_of_mem m hother)) _

/-- The rows of a value are under the steps to it. -/
theorem suffix_of_mem_jsonTree (value : Value) :
    ∀ (trail : List TreeStep), ∀ row ∈ jsonTree trail value, trail <:+ row.trail := by
  have hroot : ∀ {trail : List TreeStep} {value : Value} {rows : List TreeRow},
      (∀ row ∈ rows, trail <:+ row.trail) → ∀ row ∈ (⟨trail, value⟩ : TreeRow) :: rows,
        trail <:+ row.trail := by
    intro trail value rows hrows row hrow
    rcases List.mem_cons.mp hrow with rfl | hrow
    · exact List.suffix_refl trail
    · exact hrows row hrow
  induction value using Value.induction with
  | null => unfold jsonTree; exact fun trail ↦ hroot (List.forall_mem_nil _)
  | bool flag => unfold jsonTree; exact fun trail ↦ hroot (List.forall_mem_nil _)
  | integer n => unfold jsonTree; exact fun trail ↦ hroot (List.forall_mem_nil _)
  | real bits => unfold jsonTree; exact fun trail ↦ hroot (List.forall_mem_nil _)
  | string text => unfold jsonTree; exact fun trail ↦ hroot (List.forall_mem_nil _)
  | array items ih =>
      intro trail
      unfold jsonTree
      apply hroot
      change ∀ row ∈ jsonTree.itemRows trail 0 items, _
      generalize 0 = i
      induction items generalizing i with
      | nil => exact List.forall_mem_nil _
      | cons item rest ihrest =>
          intro row hrow
          rw [jsonTree.itemRows] at hrow
          rcases List.mem_append.mp hrow with hrow | hrow
          · exact (List.suffix_cons _ trail).trans (ih item List.mem_cons_self _ row hrow)
          · exact ihrest (fun other hother ↦ ih other (List.mem_cons_of_mem item hother)) _ row hrow
  | object members ih =>
      intro trail
      unfold jsonTree
      apply hroot
      change ∀ row ∈ jsonTree.memberRows trail members, _
      induction members with
      | nil => exact List.forall_mem_nil _
      | cons m rest ihrest =>
          intro row hrow
          rw [jsonTree.memberRows] at hrow
          rcases List.mem_append.mp hrow with hrow | hrow
          · exact (List.suffix_cons _ trail).trans (ih m List.mem_cons_self _ row hrow)
          · exact ihrest (fun other hother ↦ ih other (List.mem_cons_of_mem m hother)) row hrow

theorem collected_eq (row : TreeRow) :
    row.collected = (row.taken && row.trail.any TreeStep.isReference) := rfl

theorem textsOf_collected_of_reference {trail : List TreeStep}
    (h : trail.any TreeStep.isReference = true) (value : Value) :
    textsOf TreeRow.collected (jsonTree trail value) =
      textsOf TreeRow.taken (jsonTree trail value) := by
  have hfilter : (jsonTree trail value).filter TreeRow.collected =
      (jsonTree trail value).filter TreeRow.taken := by
    apply List.filter_congr
    intro row hrow
    obtain ⟨step, hstep, href⟩ := List.any_eq_true.mp h
    have hany : row.trail.any TreeStep.isReference = true :=
      List.any_eq_true.mpr ⟨step, (suffix_of_mem_jsonTree value trail row hrow).subset hstep, href⟩
    rw [collected_eq, hany, Bool.and_true]
  rw [textsOf, hfilter]
  rfl

/-- The strings under reference keys go into the set one after the other. -/
theorem collectMetadataReferenceStrings_eq_foldl (value : Value) :
    ∀ (trail : List TreeStep) (values : List String), trail.any TreeStep.isReference = false →
      collectMetadataReferenceStrings value values =
        (textsOf TreeRow.collected (jsonTree trail value)).foldl
          (List.insertBelow maxReferences) values := by
  have hscalar : ∀ {value : Value} {trail : List TreeStep} {values : List String},
      trail.any TreeStep.isReference = false →
      collectMetadataReferenceStrings value values = values →
      jsonTree trail value = [⟨trail, value⟩] → collectMetadataReferenceStrings value values =
        (textsOf TreeRow.collected (jsonTree trail value)).foldl
          (List.insertBelow maxReferences) values := by
    intro value trail values htrail hvalues hrow
    have hnot : TreeRow.collected ⟨trail, value⟩ = false := by
      rw [collected_eq, htrail, Bool.and_false]
    rw [hvalues, hrow, textsOf, List.filter_cons, hnot]
    rfl
  have hstart : ∀ {texts values result : List String},
      result = texts.foldl (List.insertBelow maxReferences) values →
      (if maxReferences ≤ values.length then values else result) =
        texts.foldl (List.insertBelow maxReferences) values := by
    intro texts values result h
    split
    next hfull => rw [List.foldl_insertBelow_full hfull]
    next hroom => exact h
  induction value using Value.induction with
  | null =>
      exact fun trail values htrail ↦ hscalar htrail (ite_self values) (by unfold jsonTree; rfl)
  | bool flag =>
      exact fun trail values htrail ↦ hscalar htrail (ite_self values) (by unfold jsonTree; rfl)
  | integer n =>
      exact fun trail values htrail ↦ hscalar htrail (ite_self values) (by unfold jsonTree; rfl)
  | real bits =>
      exact fun trail values htrail ↦ hscalar htrail (ite_self values) (by unfold jsonTree; rfl)
  | string text =>
      exact fun trail values htrail ↦ hscalar htrail (ite_self values) (by unfold jsonTree; rfl)
  | array items ih =>
      intro trail values htrail
      unfold collectMetadataReferenceStrings
      apply hstart
      rw [jsonTree, textsOf_cons_of_text_eq_none rfl]
      change collectMetadataReferenceStrings.collectItems items values = _
      generalize 0 = i
      induction items generalizing values i with
      | nil => rfl
      | cons item rest ihrest =>
          rw [collectMetadataReferenceStrings.collectItems, jsonTree.itemRows, textsOf_append,
            List.foldl_append, ← ih item List.mem_cons_self (.index i :: trail) _ htrail]
          exact ihrest (fun other hother ↦ ih other (List.mem_cons_of_mem item hother)) _ _
  | object members ih =>
      intro trail values htrail
      unfold collectMetadataReferenceStrings
      apply hstart
      rw [jsonTree, textsOf_cons_of_text_eq_none rfl]
      change collectMetadataReferenceStrings.collectMembers members values = _
      induction members generalizing values with
      | nil => rfl
      | cons m rest ihrest =>
          have hfirst : (if isReferenceMetadataKey m.1 then collectReferenceValues m.2 values
              else collectMetadataReferenceStrings m.2 values) =
              (textsOf TreeRow.collected (jsonTree (.member m.1 :: trail) m.2)).foldl
                (List.insertBelow maxReferences) values := by
            cases hkey : isReferenceMetadataKey m.1 with
            | true =>
                rw [if_pos rfl, textsOf_collected_of_reference (by
                  rw [List.any_cons, TreeStep.isReference, hkey, Bool.true_or])]
                exact collectReferenceValues_eq_foldl _ _ _
            | false =>
                rw [if_neg Bool.false_ne_true]
                refine ih m List.mem_cons_self _ _ ?_
                rw [List.any_cons, TreeStep.isReference, hkey, htrail, Bool.false_or]
          rw [collectMetadataReferenceStrings.collectMembers, jsonTree.memberRows, textsOf_append,
            List.foldl_append, ← hfirst]
          exact ihrest (fun other hother ↦ ih other (List.mem_cons_of_mem m hother)) _

/-! ## Strings that both look at -/

theorem exists_text_of_queried {row : TreeRow} (h : row.queried = true) :
    ∃ text, row.text = some text ∧ 1 ≤ sqlLength text ∧ sqlLength text ≤ 4096 := by
  rw [TreeRow.queried, Bool.and_eq_true, Option.any_eq_true] at h
  obtain ⟨⟨text, htext, hlength⟩, -⟩ := h
  rw [Bool.and_eq_true, decide_eq_true_eq, decide_eq_true_eq] at hlength
  exact ⟨text, htext, hlength⟩

theorem exists_text_of_collected {row : TreeRow} (h : row.collected = true) :
    ∃ text, row.text = some text ∧ text ≠ "" ∧ text.utf8ByteSize ≤ 4096 := by
  rw [TreeRow.collected, Bool.and_eq_true, Option.any_eq_true] at h
  obtain ⟨⟨text, htext, hlength⟩, -⟩ := h
  rw [Bool.and_eq_true, decide_eq_true_eq, decide_eq_true_eq] at hlength
  exact ⟨text, htext, hlength⟩

theorem sqlLength_eq_zero_iff {text : String} :
    sqlLength text = 0 ↔ text = "" ∨ text.toList.head? = some '\x00' := by
  rw [sqlLength, List.length_eq_zero_iff, ← String.toList_inj]
  cases text.toList with
  | nil => simp
  | cons c rest => by_cases hc : c = '\x00' <;> simp [hc]

/-- A place that the query looks at is a place that ingestion looks at. -/
theorem collected_of_queried {row : TreeRow} (h : row.queried = true)
    (hshort : ∀ text ∈ row.text, text.utf8ByteSize ≤ 4096) : row.collected = true := by
  obtain ⟨text, htext, hlength, -⟩ := exists_text_of_queried h
  have hne : text ≠ "" := fun hempty ↦ by
    rw [Iff.mpr sqlLength_eq_zero_iff (.inl hempty)] at hlength
    cases hlength
  rw [TreeRow.queried, Bool.and_eq_true] at h
  rw [TreeRow.collected, Bool.and_eq_true]
  refine ⟨by simpa [htext, hne] using hshort text htext, List.any_eq_true.mpr ?_⟩
  rcases Bool.or_eq_true_iff.mp h.2 with hown | hcontainer
  · obtain ⟨step, hstep, href⟩ := (Option.any_eq_true _ _).mp hown
    exact ⟨step, List.mem_of_head? hstep, href⟩
  · obtain ⟨step, hstep, hcollection⟩ := (Option.any_eq_true _ _).mp hcontainer
    refine ⟨step, List.mem_of_mem_tail (List.mem_of_head? hstep), ?_⟩
    cases step with
    | index i => cases hcollection
    | member key =>
        rw [TreeStep.isCollection, List.contains_iff_mem] at hcollection
        rw [TreeStep.isReference, isReferenceMetadataKey, List.contains_iff_mem]
        revert hcollection
        generalize asciiLowercase key = name
        simp only [List.mem_cons, List.not_mem_nil, or_false]
        rintro (rfl | rfl | rfl | rfl) <;> simp

theorem mem_collectedTexts {metadata : Value} {target : String} :
    target ∈ collectedTexts metadata ↔
      ∃ row ∈ jsonTree [] metadata, row.collected = true ∧ row.text = some target := by
  rw [collectedTexts, textsOf, List.mem_filterMap]
  simp only [List.mem_filter, and_assoc]

theorem metadataReferenceStrings_perm (metadata : Value) :
    (metadataReferenceStrings metadata).Perm
      ((collectedTexts metadata).foldl (List.insertBelow maxReferences) []) := by
  rw [metadataReferenceStrings, collectMetadataReferenceStrings_eq_foldl metadata [] [] rfl]
  exact List.perm_insertionSort _ _

theorem mem_metadataReferenceStrings {metadata : Value} {target : String} :
    target ∈ metadataReferenceStrings metadata ↔
      ∃ row, EarlyInDocument metadata row ∧ row.text = some target := by
  rw [(metadataReferenceStrings_perm metadata).mem_iff, List.mem_foldl_insertBelow]
  constructor
  · rintro ⟨before, after, hsplit, hless⟩
    obtain ⟨rows, rest, hrows, hbefore, hrest⟩ := List.filterMap_eq_append_iff.mp hsplit
    obtain ⟨skipped, row, others, rfl, hskipped, hrow, -⟩ := List.filterMap_eq_cons_iff.mp hrest
    rw [← List.append_assoc] at hrows
    obtain ⟨before', after', htree, hcollected, hfilter, -⟩ :=
      Iff.mp filter_eq_append_cons_iff hrows
    refine ⟨row, ⟨before', after', htree, hcollected, ?_⟩, hrow⟩
    rw [textsOf, hfilter, List.filterMap_append, hbefore, List.filterMap_eq_nil_iff.mpr hskipped,
      List.append_nil]
    exact hless
  · rintro ⟨row, ⟨before, after, htree, hcollected, hless⟩, hrow⟩
    refine ⟨textsOf TreeRow.collected before, textsOf TreeRow.collected after, ?_, hless⟩
    rw [collectedTexts, htree, textsOf_append, textsOf, textsOf, List.filter_cons_of_pos hcollected,
      List.filterMap_cons_some hrow]
    rfl

/-! ## Where they agree -/

/-- When both derivations give the same.  Where no more than 256 distinct strings are
collected: the query reaches no string of more than 4096 bytes, no collected string
begins with NUL, and one that the query does not reach, as it does not look there or
has had 256 before, stands again where the query reaches it.  Where there are more: the
query reaches 256 distinct strings, each of which has fewer than 256 distinct collected
ones before it in the document. -/
structure DerivesAlike (names : PathNames) (metadata : Value) : Prop where
  short : (collectedTexts metadata).dedup.length ≤ maxReferences →
    ∀ row, EarlyByPath names metadata row → ∀ text ∈ row.text, text.utf8ByteSize ≤ 4096
  started : (collectedTexts metadata).dedup.length ≤ maxReferences →
    ∀ row ∈ jsonTree [] metadata, row.collected = true →
      ∀ text ∈ row.text, text.toList.head? ≠ some '\x00'
  repeated : (collectedTexts metadata).dedup.length ≤ maxReferences →
    ∀ row ∈ jsonTree [] metadata, row.collected = true → ¬EarlyByPath names metadata row →
      ∃ other, EarlyByPath names metadata other ∧ other.text = row.text
  reached : maxReferences < (collectedTexts metadata).dedup.length →
    ∀ row, EarlyByPath names metadata row →
      ∃ other, EarlyInDocument metadata other ∧ other.text = row.text
  distinct : maxReferences < (collectedTexts metadata).dedup.length →
    ∃ texts : List String, texts.Nodup ∧ texts.length = maxReferences ∧
      ∀ text ∈ texts, ∃ row, EarlyByPath names metadata row ∧ row.text = some text

section Agree

variable {names : PathNames} {metadata : Value}

theorem EarlyByPath.queried {row : TreeRow} (h : EarlyByPath names metadata row) :
    row ∈ jsonTree [] metadata ∧ row.queried = true := by
  obtain ⟨before, after, htree, hqueried, -⟩ := h
  rw [htree]
  exact ⟨List.mem_append_right before List.mem_cons_self, hqueried⟩

theorem EarlyInDocument.collected {row : TreeRow} (h : EarlyInDocument metadata row) :
    row ∈ jsonTree [] metadata ∧ row.collected = true := by
  obtain ⟨before, after, htree, hcollected, -⟩ := h
  rw [htree]
  exact ⟨List.mem_append_right before List.mem_cons_self, hcollected⟩

/-- With room for all, ingestion takes every collected string. -/
theorem mem_metadataReferenceStrings_of_few
    (hfew : (collectedTexts metadata).dedup.length ≤ maxReferences) {target : String} :
    target ∈ metadataReferenceStrings metadata ↔ target ∈ collectedTexts metadata := by
  rw [(metadataReferenceStrings_perm metadata).mem_iff]
  exact ⟨fun h ↦ List.foldl_insertBelow_subset _ _ h, List.mem_foldl_insertBelow_of_le hfew⟩

theorem derivesAlike_of_agree (h : ∀ target, target ∈ backfillTargets names metadata ↔
    target ∈ metadataReferenceStrings metadata) : DerivesAlike names metadata := by
  have hbackfill : ∀ {row text}, EarlyByPath names metadata row → row.text = some text →
      text ∈ metadataReferenceStrings metadata :=
    fun {_ text} hrow htext ↦ (h text).mp (Iff.mpr mem_backfillTargets ⟨_, hrow, htext⟩)
  have hcollected : (collectedTexts metadata).dedup.length ≤ maxReferences →
      ∀ row ∈ jsonTree [] metadata, row.collected = true → ∀ text ∈ row.text,
        ∃ other, EarlyByPath names metadata other ∧ other.text = some text := by
    intro hfew row hrow hcollected text htext
    exact Iff.mp mem_backfillTargets ((h text).mpr (Iff.mpr
      (mem_metadataReferenceStrings_of_few hfew)
      (Iff.mpr mem_collectedTexts ⟨row, hrow, hcollected, htext⟩)))
  refine ⟨fun _ row hrow text htext ↦ ?_, fun hfew row hrow hrowCollected text htext ↦ ?_,
    fun hfew row hrow hrowCollected _ ↦ ?_, fun _ row hrow ↦ ?_, fun hmany ↦ ?_⟩
  · obtain ⟨other, hother, hsame⟩ := Iff.mp mem_metadataReferenceStrings (hbackfill hrow htext)
    obtain ⟨text', htext', -, hshort⟩ := exists_text_of_collected hother.collected.2
    obtain rfl := Option.some.inj (hsame.symm.trans htext')
    exact hshort
  · obtain ⟨other, hother, hsame⟩ := hcollected hfew row hrow hrowCollected text htext
    obtain ⟨text', htext', hlength, -⟩ := exists_text_of_queried hother.queried.2
    obtain rfl := Option.some.inj (hsame.symm.trans htext')
    intro hnul
    rw [Iff.mpr sqlLength_eq_zero_iff (.inr hnul)] at hlength
    cases hlength
  · obtain ⟨text, htext, -⟩ := exists_text_of_collected hrowCollected
    obtain ⟨other, hother, hsame⟩ := hcollected hfew row hrow hrowCollected text htext
    exact ⟨other, hother, hsame.trans htext.symm⟩
  · obtain ⟨text, htext, -⟩ := exists_text_of_queried hrow.queried.2
    obtain ⟨other, hother, hsame⟩ := Iff.mp mem_metadataReferenceStrings (hbackfill hrow htext)
    exact ⟨other, hother, hsame.trans htext.symm⟩
  · have hperm := metadataReferenceStrings_perm metadata
    refine ⟨metadataReferenceStrings metadata, ?_, ?_, fun text htext ↦ ?_⟩
    · exact hperm.nodup_iff.mpr (List.nodup_foldl_insertBelow _ _)
    · exact hperm.length_eq.trans (List.length_foldl_insertBelow_of_lt hmany)
    · exact Iff.mp mem_backfillTargets ((h text).mpr htext)

/-- Whatever the query reaches is taken by ingestion. -/
theorem DerivesAlike.subset (h : DerivesAlike names metadata) {target : String}
    (htarget : target ∈ backfillTargets names metadata) :
    target ∈ metadataReferenceStrings metadata := by
  obtain ⟨row, hrow, htext⟩ := Iff.mp mem_backfillTargets htarget
  rcases Nat.lt_or_ge maxReferences (collectedTexts metadata).dedup.length with hmany | hfew
  · obtain ⟨other, hother, hsame⟩ := h.reached hmany row hrow
    exact Iff.mpr mem_metadataReferenceStrings ⟨other, hother, hsame.trans htext⟩
  · refine Iff.mpr (mem_metadataReferenceStrings_of_few hfew) ?_
    exact Iff.mpr mem_collectedTexts ⟨row, hrow.queried.1,
      collected_of_queried hrow.queried.2 (h.short hfew row hrow), htext⟩

/-- The backfill and ingestion derive the same targets exactly from such metadata. -/
theorem backfill_agrees_iff (names : PathNames) (metadata : Value) :
    (∀ target, target ∈ backfillTargets names metadata ↔
        target ∈ metadataReferenceStrings metadata) ↔ DerivesAlike names metadata := by
  refine ⟨derivesAlike_of_agree, fun h target ↦ ⟨h.subset, fun htarget ↦ ?_⟩⟩
  rcases Nat.lt_or_ge maxReferences (collectedTexts metadata).dedup.length with hmany | hfew
  · -- 256 strings that the query reaches are all that ingestion has room for
    obtain ⟨texts, hnodup, hlength, hreached⟩ := h.distinct hmany
    have hbackfill : ∀ text ∈ texts, text ∈ backfillTargets names metadata :=
      fun text htext ↦ Iff.mpr mem_backfillTargets (hreached text htext)
    have hperm := metadataReferenceStrings_perm metadata
    have hall : texts.Perm (metadataReferenceStrings metadata) := by
      refine (List.subperm_of_subset hnodup fun text htext ↦
        h.subset (hbackfill text htext)).perm_of_length_le ?_
      rw [hlength, hperm.length_eq, List.length_foldl_insertBelow_of_lt hmany]
    exact hbackfill target (hall.mem_iff.mpr htarget)
  · obtain ⟨row, hrow, hcollected, htext⟩ := Iff.mp mem_collectedTexts
      (Iff.mp (mem_metadataReferenceStrings_of_few hfew) htarget)
    rw [mem_backfillTargets]
    by_cases hearly : EarlyByPath names metadata row
    · exact ⟨row, hearly, htext⟩
    · obtain ⟨other, hother, hsame⟩ := h.repeated hfew row hrow hcollected hearly
      exact ⟨other, hother, hsame.trans htext⟩

end Agree

/-- Names of letters as they are, all others in quotes. -/
def PathNames.sample : PathNames where
  label key := if key ≠ "" ∧ key.toList.all Char.isAlpha then key else "\"" ++ key ++ "\""
  letters key hkey hletters := if_pos ⟨hkey, List.all_eq_true.mpr hletters⟩
  plain_or_quoted key := by
    split
    next h =>
      refine .inl ⟨rfl, fun c hc ↦ ?_⟩
      rw [Char.isAlphanum, List.all_eq_true.mp h.2 c hc, Bool.true_or]
    next => exact .inr ⟨key, rfl⟩

/-- A list in a list of links is a reference for ingestion only. -/
theorem backfill_nested :
    ¬∀ (names : PathNames) (metadata : Value) (target : String),
      target ∈ backfillTargets names metadata ↔ target ∈ metadataReferenceStrings metadata := by
  intro h
  have hnested := h PathNames.sample (.object [("links", .array [.array [.string "notes/a"]])])
    "notes/a"
  revert hnested
  decide +kernel

end Cortana
