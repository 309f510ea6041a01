import Cortana.Consolidation.Conflicts
import Mathlib.Tactic.Ring

/-!
# Exact duplicates

What the classification takes for an exact duplicate, and what is one: the
same title and the same content, up to ASCII case, white space between words
and ASCII punctuation around them.
-/

namespace Cortana

open ByteText

/-! ## Words -/

/-- ASCII characters that are printed and are no letters or digits. -/
def isAsciiPunctuation (c : Char) : Bool :=
  33 ≤ c.toNat && c.toNat ≤ 126 && !isAsciiAlphanumeric c

/-- The words of a text without the ASCII punctuation around them. -/
def plainWords (text : String) : List (List Char) :=
  ((splitWhitespace (toAsciiLowercase text.toList)).map (trimMatches isAsciiPunctuation)).filter
    (· ≠ [])

/-- What `normalized_text` keeps of the words of a text. -/
def keptWords (text : String) : List (List Char) :=
  ((splitWhitespace (toAsciiLowercase text.toList)).map
    (trimMatches fun c ↦ !isAsciiAlphanumeric c)).filter (· ≠ [])

theorem splitWhitespace_append_space (a b : List Char) :
    splitWhitespace (a ++ ' ' :: b) = splitWhitespace a ++ splitWhitespace b := by
  rw [splitWhitespace, List.splitOnP_append_cons _ _ (by decide), List.filter_append]
  rfl

theorem normalizedText_eq (title content : String) :
    normalizedText title content = [' '].intercalate (keptWords title ++ keptWords content) := by
  have hlower : toAsciiLowercase (title.toList ++ ' ' :: content.toList) =
      toAsciiLowercase title.toList ++ ' ' :: toAsciiLowercase content.toList := by
    rw [toAsciiLowercase, List.map_append, List.map_cons]
    rfl
  rw [normalizedText, hlower, splitWhitespace_append_space, List.map_append, List.filter_append]
  rfl

/-- Trimming is not changed by what it cuts off anyway. -/
theorem trimMatches_between {p : Char → Bool} {l r : List Char} (u : List Char)
    (hl : ∀ c ∈ l, p c = true) (hr : ∀ c ∈ r, p c = true) :
    trimMatches p (l ++ u ++ r) = trimMatches p u := by
  have hright : ∀ x : List Char, (x ++ r).rdropWhile p = x.rdropWhile p := by
    intro x
    rw [List.rdropWhile, List.reverse_append,
      List.dropWhile_append_of_pos (by simpa using hr), List.rdropWhile]
  rw [trimMatches, List.append_assoc, List.dropWhile_append_of_pos hl, List.dropWhile_append]
  split
  next hempty =>
      rw [List.isEmpty_iff] at hempty
      rw [trimMatches, hempty, List.dropWhile_eq_nil_iff.mpr hr]
  next => rw [hright, trimMatches]

theorem trimMatches_decomposition (p : Char → Bool) (s : List Char) :
    ∃ l r, s = l ++ trimMatches p s ++ r ∧ (∀ c ∈ l, p c = true) ∧ ∀ c ∈ r, p c = true := by
  refine ⟨s.takeWhile p, (s.dropWhile p).rtakeWhile p, ?_, fun c hc ↦ List.mem_takeWhile_imp hc,
    fun c hc ↦ List.mem_rtakeWhile_imp hc⟩
  rw [List.append_assoc, trimMatches, List.rdropWhile_append_rtakeWhile,
    List.takeWhile_append_dropWhile]

/-- Trimming more after trimming less. -/
theorem trimMatches_trimMatches {p q : Char → Bool} (h : ∀ c, q c = true → p c = true)
    (s : List Char) : trimMatches p (trimMatches q s) = trimMatches p s := by
  obtain ⟨l, r, hs, hl, hr⟩ := trimMatches_decomposition q s
  conv_rhs => rw [hs]
  exact (trimMatches_between _ (fun c hc ↦ h c (hl c hc)) fun c hc ↦ h c (hr c hc)).symm

/-- The kept words are kept of the plain words. -/
theorem keptWords_eq (text : String) :
    keptWords text = ((plainWords text).map (trimMatches fun c ↦ !isAsciiAlphanumeric c)).filter
      (· ≠ []) := by
  have hmore : ∀ c, isAsciiPunctuation c = true → (!isAsciiAlphanumeric c) = true := by
    intro c hc
    rw [isAsciiPunctuation, Bool.and_eq_true] at hc
    exact hc.2
  rw [keptWords, plainWords]
  induction splitWhitespace (toAsciiLowercase text.toList) with
  | nil => rfl
  | cons word rest ih =>
      have hword := trimMatches_trimMatches hmore word
      by_cases hplain : trimMatches isAsciiPunctuation word = []
      · have hkept : trimMatches (fun c ↦ !isAsciiAlphanumeric c) word = [] := by
          rw [← hword, hplain]
          rfl
        simpa [hplain, hkept] using ih
      · have hcons : ((word :: rest).map (trimMatches isAsciiPunctuation)).filter (· ≠ []) =
            trimMatches isAsciiPunctuation word ::
              (rest.map (trimMatches isAsciiPunctuation)).filter (· ≠ []) := by
          simp [hplain]
        rw [hcons, List.map_cons, List.map_cons, hword, List.filter_cons, List.filter_cons, ih]

/-- A word has no white space. -/
theorem not_whitespace_of_mem_splitWhitespace {s word : List Char}
    (hword : word ∈ splitWhitespace s) : ∀ c ∈ word, isWhitespace c = false := by
  have hmem : word ∈ s.splitOnP isWhitespace := (List.mem_filter.mp hword).1
  clear hword
  induction s generalizing word with
  | nil =>
      rw [List.splitOnP_nil, List.mem_singleton] at hmem
      simp [hmem]
  | cons d s ih =>
      rw [List.splitOnP_cons_eq_if_modifyHead] at hmem
      split at hmem
      · rcases List.mem_cons.mp hmem with rfl | hmem
        · simp
        · exact ih hmem
      next hd =>
          obtain ⟨first, rest, hsplit⟩ :=
            List.exists_cons_of_ne_nil (List.splitOnP_ne_nil isWhitespace s)
          rw [hsplit, List.modifyHead_cons, List.mem_cons] at hmem
          rw [hsplit] at ih
          rcases hmem with rfl | hmem
          · intro c hc
            rcases List.mem_cons.mp hc with rfl | hc
            · exact Bool.eq_false_of_not_eq_true hd
            · exact ih List.mem_cons_self c hc
          · exact ih (List.mem_cons_of_mem first hmem)

theorem splitWhitespace_of_word {w : List Char} (hne : w ≠ [])
    (hw : ∀ c ∈ w, isWhitespace c = false) : splitWhitespace w = [w] := by
  rw [splitWhitespace, List.splitOnP_eq_singleton hw]
  simp [hne]

/-- Words that are joined by spaces come apart again. -/
theorem splitWhitespace_intercalate {ws : List (List Char)}
    (hws : ∀ w ∈ ws, w ≠ [] ∧ ∀ c ∈ w, isWhitespace c = false) :
    splitWhitespace ([' '].intercalate ws) = ws := by
  induction ws with
  | nil => rfl
  | cons w ws ih =>
      have hword := splitWhitespace_of_word (hws w (by simp)).1 (hws w (by simp)).2
      have hrest := ih fun v hv ↦ hws v (List.mem_cons_of_mem w hv)
      cases ws with
      | nil => simpa [List.intercalate] using hword
      | cons v vs =>
          have hjoin : [' '].intercalate (w :: v :: vs) = w ++ ' ' :: [' '].intercalate (v :: vs) := by
            simp [List.intercalate, List.intersperse]
          rw [hjoin, splitWhitespace_append_space, hword, hrest]
          rfl

theorem keptWords_are_words {text : String} :
    ∀ w ∈ keptWords text, w ≠ [] ∧ ∀ c ∈ w, isWhitespace c = false := by
  intro w hw
  rw [keptWords, List.mem_filter, List.mem_map] at hw
  obtain ⟨⟨word, hword, rfl⟩, hne⟩ := hw
  refine ⟨of_decide_eq_true hne, fun c hc ↦ ?_⟩
  have hin : c ∈ word := by
    obtain ⟨l, r, hs, -, -⟩ := trimMatches_decomposition (fun c ↦ !isAsciiAlphanumeric c) word
    rw [hs]
    simp [hc]
  exact not_whitespace_of_mem_splitWhitespace hword c hin

/-- Only a text without words has nothing to split. -/
theorem normalizedText_eq_nil {title content : String}
    (h : splitWhitespace (normalizedText title content) = []) :
    normalizedText title content = [] := by
  rw [normalizedText_eq] at h ⊢
  rw [splitWhitespace_intercalate] at h
  · rw [h]
    rfl
  · intro w hw
    exact (List.mem_append.mp hw).elim (keptWords_are_words w) (keptWords_are_words w)

/-! ## Duplicates -/

/-- The same words up to ASCII case and the ASCII punctuation around them. -/
def SameWords (a b : String) : Prop := plainWords a = plainWords b

instance (a b : String) : Decidable (SameWords a b) :=
  inferInstanceAs (Decidable (plainWords a = plainWords b))

variable (codec : Codec) (now : ℤ) (candidate : MemoryCandidate) (memories : List MemoryRecord)

/-- An eligible memory with the title and the content of the candidate. -/
def TrueDuplicate (m : MemoryRecord) : Prop :=
  eligible codec now candidate m = true ∧ SameWords candidate.title m.title ∧
    SameWords candidate.content m.content

instance (m : MemoryRecord) : Decidable (TrueDuplicate codec now candidate m) :=
  inferInstanceAs (Decidable (_ ∧ _ ∧ _))

/-- A candidate is reported as an exact duplicate if and only if there is one,
and the report names one. -/
def RecognisesDuplicates : Prop :=
  ((classify codec now candidate memories).classification = ClassificationKind.exactDuplicate.asStr ↔
      ∃ m ∈ memories, TrueDuplicate codec now candidate m) ∧
    ((classify codec now candidate memories).classification =
        ClassificationKind.exactDuplicate.asStr →
      ∃ m ∈ memories, TrueDuplicate codec now candidate m ∧
        (classify codec now candidate memories).supportingMemoryIds = [m.id])

/-- An eligible memory with the normalised words of the candidate, in any order
and number. -/
def rival (m : MemoryRecord) : Bool :=
  eligible codec now candidate m &&
    (splitWhitespace candidate.text).toFinset = (splitWhitespace m.text).toFinset

/-- The rival with the least id. -/
def firstRival : Option MemoryRecord :=
  ((memories.filter (rival codec now candidate)).insertionSort fun a b ↦ a.id ≤ b.id).head?

/-- The first rival is what it is taken for: if it has the normalised text of
the candidate, or if there is a duplicate at all, then it has that text and is
named like a duplicate. -/
def FirstRivalTrue : Prop :=
  ∀ r ∈ firstRival codec now candidate memories,
    candidate.text = r.text ∨ (∃ m ∈ memories, TrueDuplicate codec now candidate m) →
      candidate.text = r.text ∧
        ∃ m ∈ memories, TrueDuplicate codec now candidate m ∧ m.id = r.id

variable {codec now candidate memories}

/-- A duplicate has the normalised text of the candidate. -/
theorem text_of_trueDuplicate {m : MemoryRecord} (h : TrueDuplicate codec now candidate m) :
    candidate.text = m.text := by
  rw [MemoryCandidate.text, MemoryRecord.text, normalizedText_eq, normalizedText_eq, keptWords_eq,
    keptWords_eq candidate.content, keptWords_eq m.title, keptWords_eq m.content]
  have htitle : plainWords candidate.title = plainWords m.title := h.2.1
  have hcontent : plainWords candidate.content = plainWords m.content := h.2.2
  rw [htitle, hcontent]

theorem rival_of_text {m : MemoryRecord} (heligible : eligible codec now candidate m = true)
    (htext : candidate.text = m.text) : rival codec now candidate m = true := by
  rw [rival, heligible, htext]
  simp

/-! ## The best match -/

theorem tokenSimilarity_le_one (left right : List Char) : tokenSimilarity left right ≤ 1 := by
  set l := (splitWhitespace left).toFinset with hl
  set r := (splitWhitespace right).toFinset with hr
  have hleft : (l ∩ r).card ≤ l.card := Finset.card_le_card Finset.inter_subset_left
  have hright : (l ∩ r).card ≤ r.card := Finset.card_le_card Finset.inter_subset_right
  rw [tokenSimilarity]
  simp only [← hl, ← hr]
  split
  · exact zero_le_one
  next hpos =>
      have hpos' : (0 : ℚ) < (l.card : ℚ) + r.card := by
        exact_mod_cast Nat.pos_of_ne_zero hpos
      rw [Nat.cast_add, div_le_one hpos']
      exact_mod_cast (by omega : 2 * (l ∩ r).card ≤ l.card + r.card)

/-- The similarity is whole exactly for the same words, unless there are none. -/
theorem tokenSimilarity_eq_one_iff {left right : List Char}
    (hwords : (splitWhitespace left).toFinset.Nonempty) :
    tokenSimilarity left right = 1 ↔
      (splitWhitespace left).toFinset = (splitWhitespace right).toFinset := by
  set l := (splitWhitespace left).toFinset with hl
  set r := (splitWhitespace right).toFinset with hr
  have hleft : (l ∩ r).card ≤ l.card := Finset.card_le_card Finset.inter_subset_left
  have hright : (l ∩ r).card ≤ r.card := Finset.card_le_card Finset.inter_subset_right
  have hcard : 0 < l.card := Finset.card_pos.mpr hwords
  have hpos' : (0 : ℚ) < (l.card : ℚ) + r.card := by
    exact_mod_cast Nat.add_pos_left hcard r.card
  rw [tokenSimilarity]
  simp only [← hl, ← hr]
  rw [if_neg (by omega), Nat.cast_add, div_eq_one_iff_eq hpos'.ne']
  constructor
  · intro h
    have hsum : 2 * (l ∩ r).card = l.card + r.card := by exact_mod_cast h
    have hl' : l ∩ r = l := Finset.eq_of_subset_of_card_le Finset.inter_subset_left (by omega)
    have hr' : l ∩ r = r := Finset.eq_of_subset_of_card_le Finset.inter_subset_right (by omega)
    exact hl'.symm.trans hr'
  · intro h
    rw [← h, Finset.inter_self]
    push_cast
    ring

theorem tokenSimilarity_of_empty {left right : List Char}
    (hwords : (splitWhitespace left).toFinset = ∅) : tokenSimilarity left right = 0 := by
  rw [tokenSimilarity, hwords]
  simp

theorem similarity_compareWith (m : MemoryRecord) :
    (compareWith candidate m).similarity = tokenSimilarity candidate.text m.text := by
  rw [compareWith]

/-- A match that is kept is as similar as all rivals if it is one, and less
similar otherwise. -/
theorem similarity_of_rival {r m : MemoryRecord} (hr : rival codec now candidate r = true)
    (heligible : eligible codec now candidate m = true)
    (hrelevant : (compareWith candidate m).relevant = true) :
    if rival codec now candidate m then
      (compareWith candidate m).similarity = (compareWith candidate r).similarity
    else (compareWith candidate m).similarity < (compareWith candidate r).similarity := by
  have hwords : ∀ x, rival codec now candidate x = true →
      (splitWhitespace candidate.text).toFinset = (splitWhitespace x.text).toFinset := by
    intro x hx
    rw [rival, Bool.and_eq_true] at hx
    exact of_decide_eq_true hx.2
  rw [similarity_compareWith, similarity_compareWith]
  rcases (splitWhitespace candidate.text).toFinset.eq_empty_or_nonempty with hempty | hnonempty
  · -- Without words nothing is similar, and only an equal text is kept.
    have hzero : ∀ x : MemoryRecord, tokenSimilarity candidate.text x.text = 0 :=
      fun x ↦ tokenSimilarity_of_empty hempty
    have hexact : candidate.text = m.text := by
      rw [Match.relevant, compareWith] at hrelevant
      simp only [hzero, polarityConflict, preferenceValueConflict] at hrelevant
      norm_num at hrelevant
      exact hrelevant
    rw [if_pos (rival_of_text heligible hexact), hzero, hzero]
  · rw [Iff.mpr (tokenSimilarity_eq_one_iff hnonempty) (hwords r hr)]
    split
    next hm => exact Iff.mpr (tokenSimilarity_eq_one_iff hnonempty) (hwords m hm)
    next hm =>
        refine lt_of_le_of_ne (tokenSimilarity_le_one _ _) fun hone ↦ hm ?_
        have hsame := Iff.mp (tokenSimilarity_eq_one_iff hnonempty) hone
        rw [rival, heligible, hsame]
        simp

theorem candidateMatches_append (l l' : List MemoryRecord) :
    candidateMatches codec now candidate (l ++ l') =
      candidateMatches codec now candidate l ++ candidateMatches codec now candidate l' := by
  simp [candidateMatches]

theorem mem_candidateMatches {c : Match} (h : c ∈ candidateMatches codec now candidate memories) :
    ∃ m ∈ memories, eligible codec now candidate m = true ∧
      (compareWith candidate m).relevant = true ∧ c = compareWith candidate m := by
  obtain ⟨hmem, hrelevant⟩ := List.mem_filter.mp h
  obtain ⟨m, hm, rfl⟩ := List.mem_map.mp hmem
  obtain ⟨hm, heligible⟩ := List.mem_filter.mp hm
  exact ⟨m, hm, heligible, hrelevant, rfl⟩

/-- The best match is the first rival, if there is a rival. -/
theorem best_of_firstRival {r : MemoryRecord}
    (h : firstRival codec now candidate memories = some r)
    (hrelevant : (compareWith candidate r).relevant = true) :
    ((candidateMatches codec now candidate memories).insertionSort Match.Precedes).head? =
      some (compareWith candidate r) := by
  rw [firstRival] at h
  have htotal : ∀ a b : MemoryRecord, a.id ≤ b.id ∨ b.id ≤ a.id := fun a b ↦ le_total a.id b.id
  have htrans : ∀ a b c : MemoryRecord, a.id ≤ b.id → b.id ≤ c.id → a.id ≤ c.id :=
    fun a b c hab hbc ↦ hab.trans hbc
  obtain ⟨before, after, hsplit, hbefore, hafter⟩ :=
    List.exists_split_of_head?_insertionSort (r := fun a b : MemoryRecord ↦ a.id ≤ b.id) htotal
      htrans h
  obtain ⟨front, back, rfl, hfront, hback⟩ := List.filter_eq_append_iff.mp hsplit
  obtain ⟨middle, rest, rfl, hmiddle, hr, hrest⟩ := List.filter_eq_cons_iff.mp hback
  have heligible : eligible codec now candidate r = true := by
    rw [rival, Bool.and_eq_true] at hr
    exact hr.1
  have hone : candidateMatches codec now candidate [r] = [compareWith candidate r] := by
    simp [candidateMatches, heligible, hrelevant]
  have hmatches : candidateMatches codec now candidate (front ++ (middle ++ r :: rest)) =
      candidateMatches codec now candidate (front ++ middle) ++
        compareWith candidate r :: candidateMatches codec now candidate rest := by
    have hlist : front ++ (middle ++ r :: rest) = (front ++ middle) ++ ([r] ++ rest) := by simp
    rw [hlist, candidateMatches_append, candidateMatches_append [r], hone]
    rfl
  rw [hmatches]
  apply List.head?_insertionSort_eq_some Match.precedes_total Match.precedes_trans
  · intro c hc
    obtain ⟨m, hm, hmeligible, hmrelevant, rfl⟩ := mem_candidateMatches hc
    have hsimilar := similarity_of_rival hr hmeligible hmrelevant
    rintro (hmore | ⟨hsame, hid⟩)
    · split at hsimilar
      · exact absurd hsimilar hmore.ne'
      · exact absurd hmore hsimilar.not_gt
    · split at hsimilar
      next hrival =>
          have hmem : m ∈ before := by
            rw [← hfront]
            refine List.mem_filter.mpr ⟨?_, hrival⟩
            exact (List.mem_append.mp hm).resolve_right fun hm ↦ hmiddle m hm hrival
          exact hbefore m hmem hid
      · exact absurd hsame hsimilar.ne'
  · intro c hc
    obtain ⟨m, hm, hmeligible, hmrelevant, rfl⟩ := mem_candidateMatches hc
    have hsimilar := similarity_of_rival hr hmeligible hmrelevant
    split at hsimilar
    next hrival =>
        have hmem : m ∈ after := by
          rw [← hrest]
          exact List.mem_filter.mpr ⟨hm, hrival⟩
        exact .inr ⟨hsimilar, hafter m hmem⟩
    · exact .inl hsimilar

theorem exactDuplicate_iff_classifyMatch {best : Match} {count : ℕ} :
    (classifyMatch candidate best count).classification = ClassificationKind.exactDuplicate.asStr ↔
      best.exactText = true := by
  rw [classifyMatch]
  by_cases hexact : best.exactText = true
  · simp [hexact]
  · simp only [hexact, Bool.false_eq_true, if_false]
    split_ifs <;> simp [ClassificationKind.asStr]

/-- A pending candidate above the floor is reported for its best match. -/
theorem classify_of_best (hpending : candidate.status = "pending")
    (hfloor : belowFloor candidate = false) {best : Match}
    (hbest : ((candidateMatches codec now candidate memories).insertionSort
      Match.Precedes).head? = some best) :
    ∃ count, classify codec now candidate memories = classifyMatch candidate best count := by
  refine ⟨(memories.filter (eligible codec now candidate)).length, ?_⟩
  rw [classify, if_neg (by simp [hpending]), if_neg (by simp [hfloor]), hbest]

/-- Without a best match nothing is reported as a duplicate. -/
theorem classify_of_no_match (hpending : candidate.status = "pending")
    (hfloor : belowFloor candidate = false)
    (hbest : ((candidateMatches codec now candidate memories).insertionSort
      Match.Precedes).head? = none) :
    (classify codec now candidate memories).classification ≠
      ClassificationKind.exactDuplicate.asStr := by
  rw [classify, if_neg (by simp [hpending]), if_neg (by simp [hfloor]), hbest]
  simp only
  split_ifs <;> simp [ClassificationKind.asStr]

/-- An exact match that is reported is of a rival. -/
theorem exists_rival_of_best {best : Match}
    (hbest : ((candidateMatches codec now candidate memories).insertionSort
      Match.Precedes).head? = some best) (hexact : best.exactText = true) :
    ∃ m ∈ memories, rival codec now candidate m = true := by
  have hmem : best ∈ candidateMatches codec now candidate memories :=
    (List.mem_insertionSort Match.Precedes).mp (List.mem_of_mem_head? hbest)
  obtain ⟨m, hm, heligible, -, rfl⟩ := mem_candidateMatches hmem
  refine ⟨m, hm, rival_of_text heligible ?_⟩
  rw [compareWith] at hexact
  exact of_decide_eq_true hexact

/-- Without a rival there is no duplicate and none is reported. -/
theorem recognises_of_no_rival (hpending : candidate.status = "pending")
    (hfloor : belowFloor candidate = false)
    (hnone : firstRival codec now candidate memories = none) :
    RecognisesDuplicates codec now candidate memories := by
  have hrivals : ∀ m ∈ memories, rival codec now candidate m ≠ true := by
    intro m hm hrival
    rw [firstRival, List.head?_eq_none_iff] at hnone
    have hmem : m ∈ (memories.filter (rival codec now candidate)).insertionSort
        fun a b ↦ a.id ≤ b.id :=
      (List.mem_insertionSort _).mpr (List.mem_filter.mpr ⟨hm, hrival⟩)
    rw [hnone] at hmem
    cases hmem
  have hreport : (classify codec now candidate memories).classification ≠
      ClassificationKind.exactDuplicate.asStr := by
    cases hbest : ((candidateMatches codec now candidate memories).insertionSort
        Match.Precedes).head? with
    | none => exact classify_of_no_match hpending hfloor hbest
    | some best =>
        obtain ⟨count, hclassify⟩ := classify_of_best hpending hfloor hbest
        rw [hclassify, ne_eq, exactDuplicate_iff_classifyMatch]
        intro hexact
        obtain ⟨m, hm, hrival⟩ := exists_rival_of_best hbest hexact
        exact hrivals m hm hrival
  refine ⟨⟨fun h ↦ absurd h hreport, ?_⟩, fun h ↦ absurd h hreport⟩
  rintro ⟨m, hm, htrue⟩
  exact absurd (rival_of_text htrue.1 (text_of_trueDuplicate htrue)) (hrivals m hm)

theorem supporting_of_exact {best : Match} {count : ℕ} (hexact : best.exactText = true) :
    (classifyMatch candidate best count).supportingMemoryIds = [best.memory.id] := by
  rw [classifyMatch, if_pos hexact]
  rfl

/-- If the first rival is kept, the report is about it. -/
theorem recognises_of_rival (hpending : candidate.status = "pending")
    (hfloor : belowFloor candidate = false) {r : MemoryRecord}
    (hr : firstRival codec now candidate memories = some r)
    (hrelevant : (compareWith candidate r).relevant = true) :
    RecognisesDuplicates codec now candidate memories ↔
      FirstRivalTrue codec now candidate memories := by
  obtain ⟨count, hclassify⟩ := classify_of_best hpending hfloor
    (best_of_firstRival hr hrelevant)
  have hexact : (compareWith candidate r).exactText = true ↔ candidate.text = r.text := by
    rw [compareWith]
    exact decide_eq_true_iff
  have hmemory : (compareWith candidate r).memory = r := by rw [compareWith]
  rw [RecognisesDuplicates, FirstRivalTrue, hclassify, exactDuplicate_iff_classifyMatch, hexact, hr]
  constructor
  · rintro ⟨hiff, hnamed⟩ r' hr' hsuspect
    obtain rfl := Option.some.inj hr'
    have htext : candidate.text = r.text := by
      rcases hsuspect with htext | hsome
      · exact htext
      · exact hiff.mpr hsome
    obtain ⟨m, hm, htrue, hids⟩ := hnamed htext
    rw [supporting_of_exact (hexact.mpr htext), hmemory] at hids
    exact ⟨htext, m, hm, htrue, (List.cons.inj hids).1.symm⟩
  · intro htrue
    refine ⟨⟨fun htext ↦ ?_, fun hsome ↦ (htrue r rfl (.inr hsome)).1⟩, fun htext ↦ ?_⟩
    · obtain ⟨-, m, hm, hduplicate, -⟩ := htrue r rfl (.inl htext)
      exact ⟨m, hm, hduplicate⟩
    · obtain ⟨-, m, hm, hduplicate, hid⟩ := htrue r rfl (.inl htext)
      refine ⟨m, hm, hduplicate, ?_⟩
      rw [supporting_of_exact (hexact.mpr htext), hmemory, hid]

/-- A rival is kept among the matches. -/
theorem relevant_of_rival {r : MemoryRecord} (hr : rival codec now candidate r = true) :
    (compareWith candidate r).relevant = true := by
  rw [rival, Bool.and_eq_true, decide_eq_true_iff] at hr
  rcases (splitWhitespace candidate.text).toFinset.eq_empty_or_nonempty with hempty | hnonempty
  · have hcandidate : candidate.text = [] :=
      normalizedText_eq_nil (List.toFinset_eq_empty_iff _ |>.mp hempty)
    have hmemory : r.text = [] :=
      normalizedText_eq_nil (List.toFinset_eq_empty_iff _ |>.mp (hr.2 ▸ hempty))
    rw [Match.relevant, compareWith, hcandidate, hmemory]
    simp
  · have hone := Iff.mpr (tokenSimilarity_eq_one_iff hnonempty) hr.2
    rw [Match.relevant, similarity_compareWith, hone]
    norm_num

/-- Duplicates are recognised exactly if the first rival is what it is taken
for. -/
theorem recognises_iff (hpending : candidate.status = "pending")
    (hfloor : belowFloor candidate = false) :
    RecognisesDuplicates codec now candidate memories ↔
      FirstRivalTrue codec now candidate memories := by
  cases hr : firstRival codec now candidate memories with
  | none =>
      refine iff_of_true (recognises_of_no_rival hpending hfloor hr) fun r hmem ↦ ?_
      rw [hr] at hmem
      cases hmem
  | some r =>
      have hmem : r ∈ memories.filter (rival codec now candidate) := by
        rw [firstRival] at hr
        exact (List.mem_insertionSort _).mp (List.mem_of_mem_head? hr)
      exact recognises_of_rival hpending hfloor hr
        (relevant_of_rival (List.mem_filter.mp hmem).2)

/-- A memory that says what the candidate says, with other spaces. -/
def restatement : MemoryRecord := sampleMemory "m1" "Always use  tabs in the editor."

theorem recognises_restatement :
    RecognisesDuplicates ConsolidationCodec.sample.toCodec sampleNow sampleCandidate
        [restatement] ↔
      FirstRivalTrue ConsolidationCodec.sample.toCodec sampleNow sampleCandidate [restatement] :=
  recognises_iff rfl (by decide +kernel)

example : TrueDuplicate ConsolidationCodec.sample.toCodec sampleNow sampleCandidate
    restatement := by
  decide +kernel

/-- Of two texts in another script nothing is left to compare. -/
theorem duplicate_of_other_letters :
    let candidate := { sampleCandidate with title := "Имя", content := "Алиса" }
    let memory := { sampleMemory "m1" "Борис" with title := "Имя" }
    candidate.status = "pending" ∧ belowFloor candidate = false ∧
      ¬ RecognisesDuplicates ConsolidationCodec.sample.toCodec sampleNow candidate [memory] := by
  unfold RecognisesDuplicates
  decide +kernel

end Cortana
