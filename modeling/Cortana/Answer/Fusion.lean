import Cortana.Core.Table
import Cortana.Model.Document
import Cortana.Text.Unicode
import Mathlib.Algebra.BigOperators.Group.List.Basic
import Mathlib.Algebra.Order.Ring.Rat
import Mathlib.Data.Finset.Card
import Mathlib.Data.Finset.Lattice.Basic
import Mathlib.Data.List.Induction
import Mathlib.Data.List.Sort
import Mathlib.Data.String.Basic

/-!
# Fusion and focus of evidence

`answer.rs`: the results of several queries are fused by the sum of their
reciprocal ranks, and rows that share fewer terms with the query than others
do are dropped.  Scores are exact rationals.
-/

namespace Cortana

open ByteText

structure Evidence where
  chunkId : String
  source : String
  sourceId : String
  title : String
  uri : Option String
  content : String
  score : ℚ
  semanticRank : Option ℕ
  lexicalRank : Option ℕ
  updatedAt : String
  metadata : Value

namespace Answer

/-! ## Fusion -/

/-- What a rank adds to the score of a row. -/
def contribution (rank : ℕ) : ℚ := 1 / (60 + rank + 1)

/-- The rows seen so far, each with its sum. -/
abbrev Combined := Table fun entry : Evidence × ℚ ↦ entry.1.chunkId

/-- One row of a result set with its rank. -/
def addRow (combined : Combined) (row : Evidence × ℕ) : Combined :=
  match combined.get row.1.chunkId with
  | some (first, score) => combined.put (first, score + contribution row.2)
  | none => combined.put (row.1, contribution row.2)

def combine (resultSets : List (List Evidence)) : Combined :=
  (resultSets.flatMap List.zipIdx).foldl addRow (.empty _)

/-- The higher sum goes first, then the smaller id. -/
def Ranked (left right : Evidence × ℚ) : Prop :=
  right.2 < left.2 ∨ (right.2 = left.2 ∧ left.1.chunkId ≤ right.1.chunkId)

instance : DecidableRel Ranked := fun left right ↦
  inferInstanceAs (Decidable (right.2 < left.2 ∨
    (right.2 = left.2 ∧ left.1.chunkId ≤ right.1.chunkId)))

/-- `fuse`; the values of the map come in some order. -/
def fuse (hashOrder : List (Evidence × ℚ) → List (Evidence × ℚ))
    (resultSets : List (List Evidence)) (limit : ℕ) : List Evidence :=
  (((hashOrder (combine resultSets).rows).insertionSort Ranked).take limit).map fun entry ↦
    { entry.1 with score := entry.2 }

/-! ## Focus -/

def stopwords : List String :=
  ["a", "an", "and", "are", "be", "can", "did", "do", "does", "for", "from", "how", "i", "in",
    "is", "it", "my", "of", "on", "or", "our", "should", "the", "this", "to", "was", "were",
    "what", "when", "with", "you", "your"]

/-- `meaningful_terms`. -/
def meaningfulTerms (unicode : Unicode) (value : List Char) : Finset String :=
  ((((unicode.words value).map unicode.toLowercase).filter fun token ↦
    1 < byteLen token && String.ofList token ∉ stopwords).map fun token ↦
      String.ofList (if 4 < byteLen token && ['l', 'y'].isSuffixOf token then
        token.take (token.length - 2) else token)).toFinset

/-- How many terms of the query a row has in its title or content. -/
def overlap (unicode : Unicode) (query : List Char) (item : Evidence) : ℕ :=
  (meaningfulTerms unicode query ∩
    meaningfulTerms unicode (item.title.toList ++ ' ' :: item.content.toList)).card

/-- The greatest overlap, zero without a row. -/
def maximumOverlap (unicode : Unicode) (query : List Char) (evidence : List Evidence) : ℕ :=
  (evidence.map (overlap unicode query)).foldr max 0

/-- `focus_evidence`. -/
def focusEvidence (unicode : Unicode) (query : List Char) (evidence : List Evidence) :
    List Evidence × ℕ :=
  if meaningfulTerms unicode query = ∅ then (evidence, 0)
  else
    let maximum := maximumOverlap unicode query evidence
    if maximum < 2 then (evidence, 0)
    else
      let focused := evidence.filter fun item ↦ overlap unicode query item = maximum
      (focused, evidence.length - focused.length)

/-! ## What is fused -/

/-- The sum of the reciprocal ranks of a chunk over all sets. -/
def reciprocalRank (resultSets : List (List Evidence)) (chunkId : String) : ℚ :=
  ((resultSets.flatMap List.zipIdx).map fun row ↦
    if row.1.chunkId = chunkId then contribution row.2 else 0).sum

/-- The order of chunk ids by their sums. -/
def Above (total : String → ℚ) (a b : String) : Prop :=
  total b < total a ∨ (total b = total a ∧ a ≤ b)

instance (total : String → ℚ) : DecidableRel (Above total) := fun a b ↦
  inferInstanceAs (Decidable (total b < total a ∨ (total b = total a ∧ a ≤ b)))

instance (total : String → ℚ) : Std.Total (Above total) where
  total a b := by
    rcases lt_trichotomy (total a) (total b) with h | h | h
    · exact .inr (.inl h)
    · rcases le_total a b with hab | hba
      · exact .inl (.inr ⟨h.symm, hab⟩)
      · exact .inr (.inr ⟨h, hba⟩)
    · exact .inl (.inl h)

instance (total : String → ℚ) : IsTrans String (Above total) where
  trans a b c := by
    rintro (hab | ⟨hab, hid⟩) (hbc | ⟨hbc, hid'⟩)
    · exact .inl (hbc.trans hab)
    · exact .inl (hbc ▸ hab)
    · exact .inl (hab ▸ hbc)
    · exact .inr ⟨hbc.trans hab, hid.trans hid'⟩

instance (total : String → ℚ) : Std.Antisymm (Above total) where
  antisymm a b := by
    rintro (hab | ⟨hab, hid⟩) (hba | ⟨hba, hid'⟩)
    · exact absurd hab hba.asymm
    · exact absurd hba hab.ne'
    · exact absurd hab hba.ne'
    · exact le_antisymm hid hid'

/-- The first ids by their sums, each once and with its sum as the score, for
every order of the sets and of the map. -/
structure FusionExact (resultSets : List (List Evidence)) (limit : ℕ) (fused : List Evidence) :
    Prop where
  ids : fused.map Evidence.chunkId =
    ((resultSets.flatten.map Evidence.chunkId).dedup.insertionSort
      (Above (reciprocalRank resultSets))).take limit
  scores : ∀ row ∈ fused, row.score = reciprocalRank resultSets row.chunkId
  permuted : ∀ resultSets', resultSets'.Perm resultSets → ∀ hashOrder,
    (∀ l, (hashOrder l).Perm l) →
      (fuse hashOrder resultSets' limit).map Evidence.chunkId = fused.map Evidence.chunkId

/-- What is kept is a part that is not empty unless there is no row, loses no row
whose overlap is greatest, is kept as it is by another focus, and lacks as many
rows as are said to be dropped. -/
structure FocusSafe (unicode : Unicode) (query : List Char) (evidence : List Evidence) :
    Prop where
  sublist : (focusEvidence unicode query evidence).1.Sublist evidence
  nonempty : evidence ≠ [] → (focusEvidence unicode query evidence).1 ≠ []
  dropped : (focusEvidence unicode query evidence).1.length +
    (focusEvidence unicode query evidence).2 = evidence.length
  idempotent : focusEvidence unicode query (focusEvidence unicode query evidence).1 =
    ((focusEvidence unicode query evidence).1, 0)
  greatest : (evidence.filter fun item ↦
    evidence.all fun other ↦ overlap unicode query other ≤ overlap unicode query item).Sublist
      (focusEvidence unicode query evidence).1

/-- One row more puts an entry with its id, whose sum grows by its rank. -/
theorem addRow_eq (combined : Combined) (row : Evidence × ℕ) :
    ∃ entry, entry.1.chunkId = row.1.chunkId ∧ addRow combined row = combined.put entry ∧
      ((∃ old ∈ combined.rows, old.1.chunkId = row.1.chunkId ∧
          entry.2 = old.2 + contribution row.2) ∨
        (∀ old ∈ combined.rows, old.1.chunkId ≠ row.1.chunkId) ∧
          entry.2 = contribution row.2) := by
  rw [addRow]
  split
  next first score hget =>
      obtain ⟨hmem, hid⟩ := Iff.mp Table.get_eq_some_iff hget
      exact ⟨(first, score + contribution row.2), hid, rfl,
        .inl ⟨(first, score), hmem, hid, rfl⟩⟩
  next hget =>
      exact ⟨(row.1, contribution row.2), rfl, rfl,
        .inr ⟨Iff.mp Table.get_eq_none_iff hget, rfl⟩⟩

/-- The table after some rows has their ids. -/
theorem foldl_addRow_ids (rows : List (Evidence × ℕ)) (id : String) :
    (∃ entry ∈ (rows.foldl addRow (.empty _)).rows, entry.1.chunkId = id) ↔
      ∃ row ∈ rows, row.1.chunkId = id := by
  induction rows using List.reverseRecOn with
  | nil => simp [Table.empty]
  | append_singleton rows row ih =>
      rw [List.foldl_append, List.foldl_cons, List.foldl_nil]
      obtain ⟨entry, hid, hput, -⟩ := addRow_eq (rows.foldl addRow (.empty _)) row
      rw [hput]
      constructor
      · rintro ⟨found, hfound, rfl⟩
        rcases Iff.mp Table.mem_put hfound with rfl | ⟨hold, -⟩
        · exact ⟨row, by simp, hid.symm⟩
        · obtain ⟨old, hold, heq⟩ := ih.mp ⟨found, hold, rfl⟩
          exact ⟨old, by simp [hold], heq⟩
      · rintro ⟨found, hfound, rfl⟩
        by_cases heq : found.1.chunkId = entry.1.chunkId
        · exact ⟨entry, Iff.mpr Table.mem_put (.inl rfl), heq.symm⟩
        · have hold : found ∈ rows := by
            rcases List.mem_append.mp hfound with hold | hnew
            · exact hold
            · rw [List.mem_singleton.mp hnew] at heq
              exact absurd hid.symm heq
          obtain ⟨kept, hkept, hkeptId⟩ := ih.mpr ⟨found, hold, rfl⟩
          exact ⟨kept, Iff.mpr Table.mem_put (.inr ⟨hkept, hkeptId ▸ heq⟩), hkeptId⟩

/-- The table after some rows has the sum of the ranks of each id. -/
theorem foldl_addRow_sums (rows : List (Evidence × ℕ)) :
    ∀ entry ∈ (rows.foldl addRow (.empty _)).rows, entry.2 =
      (rows.map fun row ↦ if row.1.chunkId = entry.1.chunkId then contribution row.2 else 0).sum := by
  induction rows using List.reverseRecOn with
  | nil => simp [Table.empty]
  | append_singleton rows row ih =>
      rw [List.foldl_append, List.foldl_cons, List.foldl_nil]
      obtain ⟨entry, hid, hput, hcases⟩ := addRow_eq (rows.foldl addRow (.empty _)) row
      rw [hput]
      intro found hfound
      rw [List.map_append, List.sum_append, List.map_singleton, List.sum_singleton]
      rcases Iff.mp Table.mem_put hfound with rfl | ⟨hold, hne⟩
      · rw [if_pos hid.symm]
        rcases hcases with ⟨old, hold, holdId, hsum⟩ | ⟨hfresh, hsum⟩
        · rw [hsum, ih old hold, holdId, hid]
        · have hzero : rows.map (fun row ↦
              if row.1.chunkId = found.1.chunkId then contribution row.2 else 0) =
                rows.map fun _ ↦ 0 := by
            refine List.map_congr_left fun other hother ↦ if_neg fun heq ↦ ?_
            obtain ⟨old, hold, holdId⟩ := (foldl_addRow_ids rows _).mpr ⟨other, hother, heq⟩
            exact hfresh old hold (holdId.trans hid)
          rw [hsum, hzero]
          simp
      · rw [if_neg (fun heq ↦ hne (heq.symm.trans hid.symm)), add_zero]
        exact ih found hold

/-- The ids of all rows, each once. -/
theorem combine_ids_perm (resultSets : List (List Evidence)) :
    ((combine resultSets).rows.map fun entry ↦ entry.1.chunkId).Perm
      (resultSets.flatten.map Evidence.chunkId).dedup := by
  refine (List.perm_ext_iff_of_nodup (combine resultSets).nodup (List.nodup_dedup _)).mpr ?_
  intro id
  rw [List.mem_dedup, List.mem_map, combine, foldl_addRow_ids]
  constructor
  · rintro ⟨row, hrow, rfl⟩
    obtain ⟨set, hset, hrow⟩ := List.mem_flatMap.mp hrow
    refine List.mem_map_of_mem (List.mem_flatten.mpr ⟨set, hset, ?_⟩)
    exact List.fst_mem_of_mem_zipIdx hrow
  · intro hid
    obtain ⟨row, hrow, rfl⟩ := List.mem_map.mp hid
    obtain ⟨set, hset, hrow⟩ := List.mem_flatten.mp hrow
    obtain ⟨i, hi, rfl⟩ := List.mem_iff_getElem.mp hrow
    refine ⟨(set[i], i), List.mem_flatMap.mpr ⟨set, hset, ?_⟩, rfl⟩
    exact List.mem_zipIdx_iff_getElem?.mpr (List.getElem?_eq_getElem hi)

/-- The sums do not depend on the order of the sets. -/
theorem reciprocalRank_perm {resultSets resultSets' : List (List Evidence)}
    (h : resultSets'.Perm resultSets) : reciprocalRank resultSets' = reciprocalRank resultSets := by
  funext id
  exact ((h.flatMap_right List.zipIdx).map _).sum_eq

theorem fuse_ids {hashOrder : List (Evidence × ℚ) → List (Evidence × ℚ)}
    (hhash : ∀ l, (hashOrder l).Perm l) (resultSets : List (List Evidence)) (limit : ℕ) :
    (fuse hashOrder resultSets limit).map Evidence.chunkId =
      ((resultSets.flatten.map Evidence.chunkId).dedup.insertionSort
        (Above (reciprocalRank resultSets))).take limit := by
  have hsums := foldl_addRow_sums (resultSets.flatMap List.zipIdx)
  have hrows := hhash (combine resultSets).rows
  have hmap : (fuse hashOrder resultSets limit).map Evidence.chunkId =
      (((hashOrder (combine resultSets).rows).insertionSort Ranked).map
        fun entry ↦ entry.1.chunkId).take limit := by
    rw [fuse, List.map_map, ← List.map_take]
    rfl
  rw [hmap, List.map_insertionSort Ranked (Above (reciprocalRank resultSets))]
  · congr 1
    refine List.Perm.eq_of_pairwise'
      (List.pairwise_insertionSort (Above (reciprocalRank resultSets)) _)
      (List.pairwise_insertionSort (Above (reciprocalRank resultSets)) _) ?_
    refine (List.perm_insertionSort _ _).trans (.trans ?_ (List.perm_insertionSort _ _).symm)
    exact (hrows.map _).trans (combine_ids_perm resultSets)
  · intro a ha b hb
    have hsumA : a.2 = reciprocalRank resultSets a.1.chunkId := hsums a (hrows.mem_iff.mp ha)
    have hsumB : b.2 = reciprocalRank resultSets b.1.chunkId := hsums b (hrows.mem_iff.mp hb)
    rw [Ranked, Above, hsumA, hsumB]

theorem fuse_scores {hashOrder : List (Evidence × ℚ) → List (Evidence × ℚ)}
    (hhash : ∀ l, (hashOrder l).Perm l) (resultSets : List (List Evidence)) (limit : ℕ) :
    ∀ row ∈ fuse hashOrder resultSets limit, row.score = reciprocalRank resultSets row.chunkId := by
  intro row hrow
  obtain ⟨entry, hentry, rfl⟩ := List.mem_map.mp hrow
  have hmem := (List.mem_insertionSort _).mp (List.mem_of_mem_take hentry)
  exact foldl_addRow_sums (resultSets.flatMap List.zipIdx) entry ((hhash _).mem_iff.mp hmem)

theorem fusionExact {hashOrder : List (Evidence × ℚ) → List (Evidence × ℚ)}
    (hhash : ∀ l, (hashOrder l).Perm l) (resultSets : List (List Evidence)) (limit : ℕ) :
    FusionExact resultSets limit (fuse hashOrder resultSets limit) where
  ids := fuse_ids hhash resultSets limit
  scores := fuse_scores hhash resultSets limit
  permuted := by
    intro resultSets' hsets hashOrder' hhash'
    rw [fuse_ids hhash, fuse_ids hhash', reciprocalRank_perm hsets]
    congr 1
    refine List.Perm.eq_of_pairwise'
      (List.pairwise_insertionSort (Above (reciprocalRank resultSets)) _)
      (List.pairwise_insertionSort (Above (reciprocalRank resultSets)) _) ?_
    refine (List.perm_insertionSort _ _).trans (.trans ?_ (List.perm_insertionSort _ _).symm)
    exact ((hsets.flatten).map _).dedup

/-! ## What is kept in focus -/

section Focus

variable {unicode : Unicode} {query : List Char} {evidence : List Evidence}

theorem overlap_le_maximum {item : Evidence} (h : item ∈ evidence) :
    overlap unicode query item ≤ maximumOverlap unicode query evidence := by
  rw [maximumOverlap]
  induction evidence with
  | nil => cases h
  | cons first rest ih =>
      rw [List.map_cons, List.foldr_cons]
      rcases List.mem_cons.mp h with rfl | h
      · exact le_max_left _ _
      · exact (ih h).trans (le_max_right _ _)

/-- A greatest overlap that is not zero is that of a row. -/
theorem exists_overlap_eq_maximum (h : maximumOverlap unicode query evidence ≠ 0) :
    ∃ item ∈ evidence, overlap unicode query item = maximumOverlap unicode query evidence := by
  induction evidence with
  | nil => exact absurd rfl h
  | cons first rest ih =>
      have hcons : maximumOverlap unicode query (first :: rest) =
          max (overlap unicode query first) (maximumOverlap unicode query rest) := rfl
      rw [hcons] at h ⊢
      rcases le_total (maximumOverlap unicode query rest) (overlap unicode query first) with
        hle | hle
      · exact ⟨first, List.mem_cons_self, (max_eq_left hle).symm⟩
      · rw [max_eq_right hle] at h ⊢
        obtain ⟨item, hitem, heq⟩ := ih h
        exact ⟨item, List.mem_cons_of_mem _ hitem, heq⟩

/-- Of rows that all have one overlap nothing is dropped. -/
theorem focusEvidence_of_uniform {n : ℕ} (h : ∀ item ∈ evidence, overlap unicode query item = n) :
    focusEvidence unicode query evidence = (evidence, 0) := by
  rw [focusEvidence]
  split
  · rfl
  · dsimp only
    split
    next => rfl
    next hsignal =>
        obtain ⟨item, hitem, heq⟩ :=
          @exists_overlap_eq_maximum unicode query evidence (by omega)
        have hall : (evidence.filter fun item ↦
            overlap unicode query item = maximumOverlap unicode query evidence) = evidence := by
          refine List.filter_eq_self.mpr fun other hother ↦ ?_
          rw [decide_eq_true_eq, h other hother, ← heq, h item hitem]
        rw [hall, Nat.sub_self]

/-- The two ways a focus ends. -/
theorem focusEvidence_cases (unicode : Unicode) (query : List Char) (evidence : List Evidence) :
    focusEvidence unicode query evidence = (evidence, 0) ∨
      maximumOverlap unicode query evidence ≠ 0 ∧
        focusEvidence unicode query evidence =
          (evidence.filter fun item ↦
            overlap unicode query item = maximumOverlap unicode query evidence,
          evidence.length - (evidence.filter fun item ↦
            overlap unicode query item = maximumOverlap unicode query evidence).length) := by
  rw [focusEvidence]
  split
  · exact .inl rfl
  · dsimp only
    split
    next => exact .inl rfl
    next hsignal => exact .inr ⟨by omega, rfl⟩

theorem focusSafe (unicode : Unicode) (query : List Char) (evidence : List Evidence) :
    FocusSafe unicode query evidence := by
  rcases focusEvidence_cases unicode query evidence with hall | ⟨hsignal, hsome⟩
  · refine ⟨?_, ?_, ?_, ?_, ?_⟩ <;> rw [hall]
    · exact id
    · rfl
    · exact hall
    · exact List.filter_sublist
  · refine ⟨?_, ?_, ?_, ?_, ?_⟩ <;> rw [hsome]
    · exact List.filter_sublist
    · intro _
      obtain ⟨item, hitem, heq⟩ := exists_overlap_eq_maximum hsignal
      exact List.ne_nil_of_mem (List.mem_filter.mpr ⟨hitem, by simpa using heq⟩)
    · have hle := List.length_filter_le (fun item ↦ decide
        (overlap unicode query item = maximumOverlap unicode query evidence)) evidence
      dsimp only
      omega
    · refine focusEvidence_of_uniform (n := maximumOverlap unicode query evidence) ?_
      intro item hitem
      simpa using (List.mem_filter.mp hitem).2
    · have hsame : (evidence.filter fun item ↦ evidence.all fun other ↦
          overlap unicode query other ≤ overlap unicode query item) =
            evidence.filter fun item ↦
              overlap unicode query item = maximumOverlap unicode query evidence := by
        refine List.filter_congr fun item hitem ↦ ?_
        rw [Bool.eq_iff_iff, List.all_eq_true, decide_eq_true_eq]
        constructor
        · intro hgreatest
          obtain ⟨most, hmost, heq⟩ := exists_overlap_eq_maximum hsignal
          refine le_antisymm (overlap_le_maximum hitem) ?_
          rw [← heq]
          simpa using hgreatest most hmost
        · intro heq other hother
          rw [heq]
          simpa using overlap_le_maximum hother
      rw [hsame]

end Focus

/-! ## Both together -/

/-- Fusion does not depend on an order, and focus is safe. -/
theorem fusion_and_focus {hashOrder : List (Evidence × ℚ) → List (Evidence × ℚ)}
    (hhash : ∀ l, (hashOrder l).Perm l) :
    (∀ resultSets limit, FusionExact resultSets limit (fuse hashOrder resultSets limit)) ∧
      ∀ unicode query evidence, FocusSafe unicode query evidence :=
  ⟨fusionExact hhash, focusSafe⟩

theorem fusion_and_focus_reversed :
    (∀ resultSets limit,
        FusionExact resultSets limit (fuse List.reverse resultSets limit)) ∧
      ∀ unicode query evidence, FocusSafe unicode query evidence :=
  fusion_and_focus List.reverse_perm

end Answer

end Cortana
