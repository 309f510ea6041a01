import Cortana.Core.TopK
import Cortana.Store.Listing
import Cortana.Store.Sample

/-!
# Semantic candidates

`semantic_ids_scoped`: the chunks that are closest to a query, from a queue of
bounded size.  Scores are the elements of any linear order.
-/

namespace Cortana

/-- `SemanticCandidate`, in its order: by score, then by id. -/
abbrev SemanticCandidate (α : Type*) := α ×ₗ String

namespace SemanticCandidate

variable {α : Type*}

def score (candidate : SemanticCandidate α) : α := (ofLex candidate).1

def id (candidate : SemanticCandidate α) : String := (ofLex candidate).2

theorem eq_of_score_of_id {a b : SemanticCandidate α} (hscore : a.score = b.score)
    (hid : a.id = b.id) : a = b :=
  ofLex.injective (Prod.ext hscore hid)

variable [LinearOrder α]

/-- The order of the answer: the higher score goes first, then the smaller id. -/
def Ranks (a b : SemanticCandidate α) : Prop :=
  b.score < a.score ∨ (b.score = a.score ∧ a.id ≤ b.id)

instance : DecidableRel (Ranks (α := α)) := fun a b ↦
  inferInstanceAs (Decidable (b.score < a.score ∨ (b.score = a.score ∧ a.id ≤ b.id)))

instance : Std.Total (Ranks (α := α)) where
  total a b := by
    rcases lt_trichotomy a.score b.score with h | h | h
    · exact .inr (.inl h)
    · rcases le_total a.id b.id with hid | hid
      · exact .inl (.inr ⟨h.symm, hid⟩)
      · exact .inr (.inr ⟨h, hid⟩)
    · exact .inl (.inl h)

instance : IsTrans (SemanticCandidate α) Ranks where
  trans a b c := by
    rintro (hab | ⟨hab, hid⟩) (hbc | ⟨hbc, hid'⟩)
    · exact .inl (hbc.trans hab)
    · exact .inl (hbc ▸ hab)
    · exact .inl (hab ▸ hbc)
    · exact .inr ⟨hbc.trans hab, hid.trans hid'⟩

instance : Std.Antisymm (Ranks (α := α)) where
  antisymm a b := by
    rintro (hab | ⟨hab, hid⟩) (hba | ⟨hba, hid'⟩)
    · exact absurd hab hba.asymm
    · exact absurd hba hab.ne'
    · exact absurd hab hba.ne'
    · exact eq_of_score_of_id hba (le_antisymm hid hid')

theorem le_of_score_lt {a b : SemanticCandidate α} (h : b.score < a.score) : b ≤ a :=
  Prod.Lex.le_iff.mpr (.inl h)

/-- The order of the queue puts the larger of two ids with one score first. -/
theorem id_le_of_le {a b : SemanticCandidate α} (h : b ≤ a) (hscore : a.score = b.score) :
    b.id ≤ a.id := by
  rcases Prod.Lex.le_iff.mp h with hlt | ⟨-, hid⟩
  · exact absurd hscore hlt.ne'
  · exact hid

end SemanticCandidate

namespace Store

variable {α : Type} [LinearOrder α]

/-- The chunks that a project and a source admit, with their documents. -/
def semanticRows (s : Store) (project source : Option String) : List (ChunkRow × DocumentRow) :=
  s.chunks.rows.filterMap fun chunk ↦
    ((s.documents.get chunk.documentId).filter fun row ↦
      project.all (· = row.project) && source.all (· = row.source)).map fun row ↦ (chunk, row)

/-- One row of the loop. -/
def semanticStep (codec : Codec) (score : ChunkRow → Except String α) (principalAcl : List String)
    (limit : ℕ) (best : List (SemanticCandidate α)) (row : ChunkRow × DocumentRow) :
    Except String (List (SemanticCandidate α)) := do
  let acl ← codec.parseAcl row.2.aclJson
  let value ← score row.1
  if aclAllows acl principalAcl then return TopK.push limit best (toLex (value, row.1.id))
  else return best

/-- `semantic_ids_scoped`, on rows that come in some order; the score of a chunk
is the cosine of the query and the embedding that is decoded from its columns. -/
def semanticIdsScoped (codec : Codec) (score : ChunkRow → Except String α)
    (principalAcl : List String) (limit : ℕ) (rows : List (ChunkRow × DocumentRow)) :
    Except String (List (SemanticCandidate α)) := do
  let best ← rows.foldlM (semanticStep codec score principalAcl limit) []
  return best.insertionSort SemanticCandidate.Ranks

/-! ## The full ranking -/

/-- The candidate of a row that is visible. -/
def semanticCandidate (codec : Codec) (score : ChunkRow → Except String α)
    (principalAcl : List String) (row : ChunkRow × DocumentRow) : Option (SemanticCandidate α) :=
  if visible codec principalAcl row.2 then
    (score row.1).toOption.map fun value ↦ toLex (value, row.1.id)
  else none

/-- All visible chunks by score descending and id ascending. -/
def semanticRanking (codec : Codec) (score : ChunkRow → Except String α)
    (principalAcl : List String) (s : Store) (project source : Option String) :
    List (SemanticCandidate α) :=
  ((s.semanticRows project source).filterMap (semanticCandidate codec score principalAcl)).insertionSort
    SemanticCandidate.Ranks

/-- No chunk within the limit has the score of one that is beyond it. -/
def CutsCleanly (ranking : List (SemanticCandidate α)) (limit : ℕ) : Prop :=
  ∀ a ∈ ranking.take limit, ∀ b ∈ ranking.drop limit, a.score ≠ b.score

/-- What a search with a limit has to return, and that a higher limit only
appends. -/
structure SemanticExact (codec : Codec) (score : ChunkRow → Except String α)
    (principalAcl : List String) (s : Store) (project source : Option String) (limit : ℕ)
    (shown : List (SemanticCandidate α)) : Prop where
  ranked : shown = (semanticRanking codec score principalAcl s project source).take limit
  appends : ∀ limit' ≥ limit, ∀ rows', rows'.Perm (s.semanticRows project source) →
    ∀ shown', semanticIdsScoped codec score principalAcl limit' rows' = .ok shown' →
      shown <+: shown'

variable {codec : Codec} {score : ChunkRow → Except String α} {principalAcl : List String}
  {limit : ℕ}

/-- A row that can be read is added if it is visible. -/
theorem semanticStep_eq_ok {best best' : List (SemanticCandidate α)}
    {row : ChunkRow × DocumentRow}
    (h : semanticStep codec score principalAcl limit best row = .ok best') :
    best' = ((semanticCandidate codec score principalAcl row).toList).foldl (TopK.push limit)
      best := by
  obtain ⟨acl, hacl, h⟩ := Iff.mp Except.bind_ok_iff h
  obtain ⟨value, hvalue, h⟩ := Iff.mp Except.bind_ok_iff h
  have hvisible : visible codec principalAcl row.2 = aclAllows acl principalAcl := by
    rw [visible, hacl]
    rfl
  rw [semanticCandidate, hvisible, hvalue]
  split at h
  next hallows =>
      rw [if_pos hallows]
      exact (Iff.mp Except.pure_ok_iff h).symm
  next hnot =>
      rw [if_neg hnot]
      exact (Iff.mp Except.pure_ok_iff h).symm

theorem semanticFold_eq_ok {rows : List (ChunkRow × DocumentRow)}
    {best best' : List (SemanticCandidate α)}
    (h : rows.foldlM (semanticStep codec score principalAcl limit) best = .ok best') :
    best' = (rows.filterMap (semanticCandidate codec score principalAcl)).foldl
      (TopK.push limit) best := by
  induction rows generalizing best with
  | nil => exact (Iff.mp List.foldlM_nil_ok_iff h).symm
  | cons row rest ih =>
      obtain ⟨middle, hfirst, hrest⟩ := Iff.mp List.foldlM_cons_ok_iff h
      rw [ih hrest, semanticStep_eq_ok hfirst, List.filterMap_cons]
      cases semanticCandidate codec score principalAcl row <;> rfl

/-- The answer is what the queue keeps of the visible chunks, whatever the order
in which they come. -/
theorem semanticIds_eq_ok {s : Store} {project source : Option String}
    {rows : List (ChunkRow × DocumentRow)} (hrows : rows.Perm (s.semanticRows project source))
    {shown : List (SemanticCandidate α)}
    (h : semanticIdsScoped codec score principalAcl limit rows = .ok shown) :
    shown.Pairwise SemanticCandidate.Ranks ∧
      shown.Perm (((semanticRanking codec score principalAcl s project source).insertionSort
        (· ≥ ·)).take limit) := by
  obtain ⟨best, hbest, h⟩ := Iff.mp Except.bind_ok_iff h
  rw [← Iff.mp Except.pure_ok_iff h]
  refine ⟨List.pairwise_insertionSort _ _, (List.perm_insertionSort _ _).trans ?_⟩
  rw [semanticFold_eq_ok hbest]
  refine (TopK.foldl_push_perm limit _).trans (.of_eq ?_)
  congr 1
  refine List.Perm.eq_of_pairwise' (List.pairwise_insertionSort (· ≥ ·) _)
    (List.pairwise_insertionSort (· ≥ ·) _) ?_
  refine (List.perm_insertionSort _ _).trans (.trans ?_ (List.perm_insertionSort _ _).symm)
  exact (hrows.filterMap _).trans (List.perm_insertionSort _ _).symm

/-- No chunk is ranked twice. -/
theorem semanticRanking_ids_nodup (s : Store) (project source : Option String) :
    ((semanticRanking codec score principalAcl s project source).map
      SemanticCandidate.id).Nodup := by
  have hperm := (List.perm_insertionSort SemanticCandidate.Ranks
    ((s.semanticRows project source).filterMap
      (semanticCandidate codec score principalAcl))).map SemanticCandidate.id
  refine hperm.nodup_iff.mpr ?_
  have hsub : ∀ chunks : List ChunkRow,
      (((chunks.filterMap fun chunk ↦
        ((s.documents.get chunk.documentId).filter fun row ↦
          project.all (· = row.project) && source.all (· = row.source)).map
            fun row ↦ (chunk, row)).filterMap
        (semanticCandidate codec score principalAcl)).map SemanticCandidate.id).Sublist
      (chunks.map ChunkRow.id) := by
    intro chunks
    induction chunks with
    | nil => exact .slnil
    | cons chunk rest ih =>
        rw [List.filterMap_cons]
        cases (s.documents.get chunk.documentId).filter fun row ↦
            project.all (· = row.project) && source.all (· = row.source) with
        | none => exact ih.cons _
        | some row =>
            dsimp only [Option.map_some]
            rw [List.filterMap_cons]
            cases hcandidate : semanticCandidate codec score principalAcl (chunk, row) with
            | none => exact ih.cons _
            | some candidate =>
                have hid : candidate.id = chunk.id := by
                  rw [semanticCandidate] at hcandidate
                  split at hcandidate
                  next =>
                      obtain ⟨value, -, rfl⟩ := Option.map_eq_some_iff.mp hcandidate
                      rfl
                  next => cases hcandidate
                dsimp only
                rw [List.map_cons, List.map_cons, hid]
                exact ih.cons_cons _
  exact (hsub s.chunks.rows).nodup s.chunks.nodup

/-- The queue keeps what the ranking puts first if no tie is cut. -/
theorem ranking_take_perm {ranking : List (SemanticCandidate α)}
    (hsorted : ranking.Pairwise SemanticCandidate.Ranks) (hclean : CutsCleanly ranking limit) :
    (ranking.take limit).Perm ((ranking.insertionSort (· ≥ ·)).take limit) := by
  have hsplit : ranking.Perm (ranking.take limit ++ ranking.drop limit) :=
    .of_eq (List.take_append_drop limit ranking).symm
  have hgreatest : ∀ a ∈ ranking.take limit, ∀ b ∈ ranking.drop limit, a ≥ b := by
    intro a ha b hb
    have hranks : SemanticCandidate.Ranks a b := by
      rw [← List.take_append_drop limit ranking] at hsorted
      exact (List.pairwise_append.mp hsorted).2.2 a ha b hb
    rcases hranks with hlt | ⟨heq, -⟩
    · exact SemanticCandidate.le_of_score_lt hlt
    · exact absurd heq.symm (hclean a ha b hb)
  have htake := List.take_insertionSort_of_split hsplit hgreatest
  rw [List.length_take] at htake
  have hmin : (ranking.insertionSort (· ≥ ·)).take (min limit ranking.length) =
      (ranking.insertionSort (· ≥ ·)).take limit := by
    rw [← List.take_take, List.take_of_length_le (le_of_eq (List.length_insertionSort _ _))]
  rw [← hmin, htake]
  exact (List.perm_insertionSort _ _).symm

/-- If the queue keeps what the ranking puts first, it drops what comes after. -/
theorem ranking_drop_perm {ranking : List (SemanticCandidate α)}
    (h : (ranking.take limit).Perm ((ranking.insertionSort (· ≥ ·)).take limit)) :
    (ranking.drop limit).Perm ((ranking.insertionSort (· ≥ ·)).drop limit) := by
  have hall : (ranking.take limit ++ ranking.drop limit).Perm
      ((ranking.insertionSort (· ≥ ·)).take limit ++
        (ranking.insertionSort (· ≥ ·)).drop limit) := by
    rw [List.take_append_drop, List.take_append_drop]
    exact (List.perm_insertionSort _ _).symm
  exact (List.perm_append_left_iff _).mp ((h.append_right _).symm.trans hall)

/-- If the queue keeps what the ranking puts first, no tie is cut. -/
theorem cutsCleanly_of_perm {ranking : List (SemanticCandidate α)}
    (hsorted : ranking.Pairwise SemanticCandidate.Ranks)
    (hids : (ranking.map SemanticCandidate.id).Nodup)
    (h : (ranking.take limit).Perm ((ranking.insertionSort (· ≥ ·)).take limit)) :
    CutsCleanly ranking limit := by
  intro a ha b hb hscore
  have hdescending := List.pairwise_insertionSort (· ≥ ·) ranking
  rw [← List.take_append_drop limit (ranking.insertionSort (· ≥ ·))] at hdescending
  have hle : b ≤ a := (List.pairwise_append.mp hdescending).2.2 a (h.mem_iff.mp ha) b
    ((ranking_drop_perm h).mem_iff.mp hb)
  have hlast : b.id ≤ a.id := SemanticCandidate.id_le_of_le hle hscore
  rw [← List.take_append_drop limit ranking] at hsorted hids
  have hfirst : a.id ≤ b.id := by
    rcases (List.pairwise_append.mp hsorted).2.2 a ha b hb with hlt | ⟨-, hid⟩
    · exact absurd hscore hlt.ne'
    · exact hid
  rw [List.map_append] at hids
  exact (List.nodup_append.mp hids).2.2 a.id (List.mem_map_of_mem ha) b.id
    (List.mem_map_of_mem hb) (le_antisymm hfirst hlast)

/-- A search with a limit is exact if and only if the limit does not cut a tie. -/
theorem semanticIds_exact_iff {s : Store} {project source : Option String}
    {rows : List (ChunkRow × DocumentRow)} (hrows : rows.Perm (s.semanticRows project source))
    {shown : List (SemanticCandidate α)}
    (h : semanticIdsScoped codec score principalAcl limit rows = .ok shown) :
    SemanticExact codec score principalAcl s project source limit shown ↔
      CutsCleanly (semanticRanking codec score principalAcl s project source) limit := by
  have hranking : (semanticRanking codec score principalAcl s project source).Pairwise
      SemanticCandidate.Ranks := List.pairwise_insertionSort _ _
  obtain ⟨hsorted, hperm⟩ := semanticIds_eq_ok hrows h
  have hids := @semanticRanking_ids_nodup _ _ codec score principalAcl s project source
  refine ⟨?_, ?_⟩
  · intro hexact
    exact cutsCleanly_of_perm hranking hids (hexact.ranked ▸ hperm)
  · intro hclean
    have htake := ranking_take_perm hranking hclean
    have hparts := hranking
    rw [← List.take_append_drop limit (semanticRanking _ _ _ _ _ _)] at hparts
    have hranked := (hperm.trans htake.symm).eq_of_pairwise' hsorted
      (List.pairwise_append.mp hparts).1
    refine ⟨hranked, ?_⟩
    intro limit' hlimit' rows' hrows' shown' h'
    obtain ⟨hsorted', hperm'⟩ := semanticIds_eq_ok hrows' h'
    obtain ⟨more, rfl⟩ := Nat.exists_eq_add_of_le hlimit'
    rw [List.take_add] at hperm'
    -- what is appended is beyond the limit in the full ranking
    have hbeyond : ∀ a ∈ shown, ∀ b ∈ ((List.insertionSort (· ≥ ·)
        (semanticRanking codec score principalAcl s project source)).drop limit).take more,
        SemanticCandidate.Ranks a b := by
      intro a ha b hb
      rw [hranked] at ha
      exact (List.pairwise_append.mp hparts).2.2 a ha b
        ((ranking_drop_perm htake).mem_iff.mpr (List.mem_of_mem_take hb))
    have happended : (shown ++ List.insertionSort SemanticCandidate.Ranks
        (((List.insertionSort (· ≥ ·) (semanticRanking codec score principalAcl s project
          source)).drop limit).take more)).Pairwise SemanticCandidate.Ranks := by
      refine List.pairwise_append.mpr ⟨hsorted, List.pairwise_insertionSort _ _, ?_⟩
      intro a ha b hb
      exact hbeyond a ha b ((List.mem_insertionSort _).mp hb)
    have heq := (hperm'.trans (.append hperm.symm
      (List.perm_insertionSort SemanticCandidate.Ranks _).symm)).eq_of_pairwise'
        hsorted' happended
    rw [heq]
    exact List.prefix_append _ _

/-! ## Two chunks with one embedding -/

def tiedDocument : DocumentRow where
  id := "d"
  source := "notes"
  sourceId := "n"
  title := "N"
  uri := none
  contentHash := "h"
  updatedAt := "2026-08-01T12:00:00Z"
  project := "default"
  aclJson := "[]"
  metadataJson := "\x7b\x7d"
  content := "same\n\nsame"

def tiedChunk (id : String) (ordinal : ℕ) : ChunkRow where
  id := id
  documentId := "d"
  ordinal := ordinal
  content := "same"
  embedding := some [1]
  chunkKey := none
  strategy := none
  parentKey := none
  previousKey := none
  nextKey := none
  startByte := none
  endByte := none
  policyVersion := none

/-- A store with two chunks that score alike for every query. -/
def tiedStore : Store :=
  { adopted none with
    documents := (Table.empty _).put tiedDocument
    chunks := ((Table.empty _).put (tiedChunk "a" 0)).put (tiedChunk "b" 1) }

/-- With different scores the least one of three has to go. -/
theorem semanticIds_untied :
    let score : ChunkRow → Except String ℤ := fun chunk ↦ .ok chunk.ordinal
    let s := { tiedStore with chunks := tiedStore.chunks.put (tiedChunk "c" 2) }
    semanticIdsScoped Codec.sample score ["*"] 2 (s.semanticRows none none) =
        .ok [toLex (2, "c"), toLex (1, "b")] ∧
      SemanticExact Codec.sample score ["*"] s none none 2 [toLex (2, "c"), toLex (1, "b")] := by
  intro score s
  have hfound : semanticIdsScoped Codec.sample score ["*"] 2 (s.semanticRows none none) =
      .ok [toLex (2, "c"), toLex (1, "b")] := by
    decide +kernel
  have hclean : CutsCleanly (semanticRanking Codec.sample score ["*"] s none none) 2 := by
    unfold CutsCleanly
    decide +kernel
  exact ⟨hfound, (semanticIds_exact_iff (.refl _) hfound).mpr hclean⟩

/-- With a limit of one the chunk with the larger id is returned. -/
theorem semanticIds_tied :
    semanticIdsScoped Codec.sample (fun _ ↦ .ok (1 : ℤ)) ["*"] 1
        (tiedStore.semanticRows none none) = .ok [toLex (1, "b")] ∧
      ¬ SemanticExact Codec.sample (fun _ ↦ .ok (1 : ℤ)) ["*"] tiedStore none none 1
        [toLex (1, "b")] := by
  refine ⟨by decide +kernel, ?_⟩
  intro hexact
  have hranked := hexact.ranked
  revert hranked
  decide +kernel

end Store

end Cortana
