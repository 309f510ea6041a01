import Cortana.Chunking.Windows

/-!
# The pieces of a document

Every strategy first splits the document into consecutive ranges and then
runs the bounded splitter on each one.  `documentRanges` names these ranges,
`chunkDocument_eq` says that the chunks of a document are the chunks of its
ranges, moved to their place and linked.
-/

namespace Cortana

open ByteText OffsetRange

variable {content : List Char}

/-- The endpoints of every range are character boundaries. -/
def OnBoundaries (content : List Char) (ranges : List (ℕ × ℕ)) : Prop :=
  ∀ r ∈ ranges, isCharBoundary content r.1 = true ∧ isCharBoundary content r.2 = true

/-- Consecutive ranges that make up the whole text. -/
structure Pieces (content : List Char) (ranges : List (ℕ × ℕ)) : Prop where
  tiles : Tiles 0 (byteLen content) ranges
  boundaries : OnBoundaries content ranges

theorem pieces_whole (content : List Char) : Pieces content [(0, byteLen content)] :=
  ⟨.cons (Nat.zero_le _) (.nil _), by simp [OnBoundaries]⟩

/-! ## Ranges of lines -/

/-- The state of the line loop after the first lines: the closed ranges tile
the text up to `start`, and `offset` is where the next line begins. -/
structure LineState (content : List Char) (ranges : List (ℕ × ℕ)) (start offset : ℕ) :
    Prop where
  tiles : Tiles 0 start ranges
  boundaries : OnBoundaries content ranges
  start_boundary : isCharBoundary content start = true
  start_le : start ≤ offset

theorem LineState.fold (cut : List Char → Bool) (lines : List (List Char)) :
    ∀ {ranges : List (ℕ × ℕ)} {start : ℕ} (before : List Char),
      content = before ++ lines.flatten →
      LineState content ranges start (byteLen before) →
      ∃ ranges' start', (withOffsets (byteLen before) lines).foldl
          (fun (ranges, start) (offset, line) ↦
            if cut line && decide (start < offset) then (ranges ++ [(start, offset)], offset)
            else (ranges, start)) (ranges, start) = (ranges', start') ∧
        LineState content ranges' start' (byteLen content) := by
  induction lines with
  | nil =>
      intro ranges start before hcontent h
      have hbefore : content = before := by simpa using hcontent
      exact ⟨ranges, start, rfl, hbefore ▸ h⟩
  | cons line lines ih =>
      intro ranges start before hcontent h
      have hcontent' : content = (before ++ line) ++ lines.flatten := by simpa using hcontent
      have hoffset : byteLen before + byteLen line = byteLen (before ++ line) :=
        (byteLen_append before line).symm
      rw [withOffsets, List.foldl_cons, hoffset]
      by_cases hcut : (cut line && decide (start < byteLen before)) = true
      · simp only [hcut, if_true]
        have hboundary : isCharBoundary content (byteLen before) = true :=
          Iff.mpr isCharBoundary_iff ⟨before, line ++ lines.flatten, by simpa using hcontent, rfl⟩
        refine ih _ hcontent' ⟨h.tiles.snoc h.start_le, ?_, hboundary, by simp⟩
        intro r hr
        rcases List.mem_append.mp hr with hr | hr
        · exact h.boundaries r hr
        · obtain rfl : r = (start, byteLen before) := by simpa using hr
          exact ⟨h.start_boundary, hboundary⟩
      · simp only [hcut]
        exact ih _ hcontent' ⟨h.tiles, h.boundaries, h.start_boundary,
          h.start_le.trans (by simp)⟩

/-- The line-based strategies cut the text into consecutive pieces. -/
theorem lineRanges_pieces (cut : List Char → Bool) (content : List Char) :
    Pieces content (lineRanges cut content) := by
  have hstart : LineState content [] 0 (byteLen []) :=
    ⟨.nil 0, by simp [OnBoundaries], isCharBoundary_zero content, le_rfl⟩
  obtain ⟨ranges, start, hfold, h⟩ := LineState.fold cut (splitInclusive '\n' content) []
    (by simp [flatten_splitInclusive]) hstart
  rw [byteLen_nil] at hfold
  rw [lineRanges, hfold]
  simp only
  split_ifs with hlt
  · refine ⟨h.tiles.snoc hlt.le, fun r hr ↦ ?_⟩
    rcases List.mem_append.mp hr with hr | hr
    · exact h.boundaries r hr
    · obtain rfl : r = (start, byteLen content) := by simpa using hr
      exact ⟨h.start_boundary, isCharBoundary_byteLen content⟩
  · have hall : start = byteLen content := le_antisymm h.start_le (not_lt.mp hlt)
    exact ⟨hall ▸ h.tiles, h.boundaries⟩

/-! ## Ranges of symbols -/

theorem mem_dedupConsecutive {l : List ℕ} {a : ℕ} : a ∈ dedupConsecutive l ↔ a ∈ l := by
  induction l using dedupConsecutive.induct with
  | case1 b rest ih =>
      rw [dedupConsecutive, if_pos rfl, ih]
      simp
  | case2 b c rest hne ih =>
      rw [dedupConsecutive, if_neg hne, List.mem_cons, ih, ← List.mem_cons]
  | case3 short _ => simp [dedupConsecutive]

theorem pairwise_dedupConsecutive {l : List ℕ} (h : l.Pairwise (· ≤ ·)) :
    (dedupConsecutive l).Pairwise (· ≤ ·) := by
  induction l using dedupConsecutive.induct with
  | case1 b rest ih =>
      rw [dedupConsecutive, if_pos rfl]
      exact ih h.of_cons
  | case2 b c rest hne ih =>
      rw [dedupConsecutive, if_neg hne]
      refine List.pairwise_cons.mpr ⟨fun d hd ↦ ?_, ih h.of_cons⟩
      exact (List.pairwise_cons.mp h).1 d (Iff.mp mem_dedupConsecutive hd)
  | case3 short _ => simpa [dedupConsecutive] using h

theorem startRanges_tiles {stop first : ℕ} {rest : List ℕ}
    (hsorted : (first :: rest).Pairwise (· ≤ ·)) (hle : ∀ a ∈ first :: rest, a ≤ stop) :
    Tiles first stop (startRanges stop (first :: rest)) := by
  induction rest generalizing first with
  | nil => exact .cons (hle first (by simp)) (.nil stop)
  | cons next rest ih =>
      obtain ⟨hfirst, htail⟩ := List.pairwise_cons.mp hsorted
      exact .cons (hfirst next (by simp)) (ih htail fun a ha ↦ hle a (by simp [ha]))

theorem startRanges_boundaries {starts : List ℕ}
    (h : ∀ a ∈ starts, isCharBoundary content a = true) :
    OnBoundaries content (startRanges (byteLen content) starts) := by
  induction starts with
  | nil => simp [startRanges, OnBoundaries]
  | cons first rest ih =>
      cases rest with
      | nil =>
          intro r hr
          obtain rfl : r = (first, byteLen content) := by simpa [startRanges] using hr
          exact ⟨h first (by simp), isCharBoundary_byteLen content⟩
      | cons next rest =>
          intro r hr
          rw [startRanges, List.mem_cons] at hr
          rcases hr with rfl | hr
          · exact ⟨h first (by simp), h next (by simp)⟩
          · exact ih (fun a ha ↦ h a (by simp [ha])) r hr

/-- Symbol starts that are character boundaries cut the text into
consecutive pieces, whatever their order and however often they repeat. -/
theorem symbolRanges_pieces {symbols : List ℕ} (hne : symbols ≠ [])
    (h : ∀ a ∈ symbols, isCharBoundary content a = true) :
    Pieces content (symbolRanges content symbols) := by
  set starts := dedupConsecutive (symbols.mergeSort (· ≤ ·)) with hstarts
  have hmem : ∀ a, a ∈ starts ↔ a ∈ symbols := fun a ↦ by
    rw [hstarts, mem_dedupConsecutive, List.mem_mergeSort]
  have hsorted : starts.Pairwise (· ≤ ·) :=
    pairwise_dedupConsecutive (List.pairwise_mergeSort' (· ≤ ·) symbols)
  obtain ⟨a, ha⟩ := List.exists_mem_of_ne_nil symbols hne
  obtain ⟨first, rest, hcons⟩ :=
    List.exists_cons_of_ne_nil (List.ne_nil_of_mem ((hmem a).mpr ha))
  -- the list that `startRanges` sees is sorted, starts at 0 and stays on boundaries
  have hall : ∃ tail, (if 0 < starts.head?.getD 0 then 0 :: starts else starts) = 0 :: tail ∧
      (0 :: tail).Pairwise (· ≤ ·) ∧ ∀ b ∈ 0 :: tail, isCharBoundary content b = true := by
    have hboundary : ∀ b ∈ starts, isCharBoundary content b = true := fun b hb ↦
      h b ((hmem b).mp hb)
    rw [hcons] at hsorted hboundary ⊢
    simp only [List.head?_cons, Option.getD_some]
    by_cases hpos : 0 < first
    · refine ⟨first :: rest, if_pos hpos, List.pairwise_cons.mpr ⟨fun _ _ ↦ Nat.zero_le _, hsorted⟩, ?_⟩
      intro b hb
      rcases List.mem_cons.mp hb with rfl | hb
      · exact isCharBoundary_zero content
      · exact hboundary b hb
    · obtain rfl : first = 0 := by omega
      exact ⟨rest, if_neg hpos, hsorted, hboundary⟩
  obtain ⟨tail, htail, hpairwise, hboundary⟩ := hall
  have hrw : symbolRanges content symbols = startRanges (byteLen content) (0 :: tail) := by
    rw [symbolRanges, ← hstarts]
    simp only [htail]
  rw [hrw]
  exact ⟨startRanges_tiles hpairwise fun b hb ↦ le_byteLen_of_isCharBoundary (hboundary b hb),
    startRanges_boundaries hboundary⟩

/-! ## Chunks of ranges -/

/-- The places of the chunks of one range, relative to its start. -/
def rangeSites (policy : ChunkingPolicy) (content : List Char) (r : ℕ × ℕ) :
    List (ℕ × List Char) :=
  textSites policy ((slice content r.1 r.2).getD [])

/-- Move a place by the start of its range. -/
def shiftSite (start : ℕ) (site : ℕ × List Char) : ℕ × List Char := (site.1 + start, site.2)

@[simp] theorem shiftSite_zero : shiftSite 0 = id := rfl

/-- What is known of the chunks of some ranges before they are linked: where
their texts are, and that each key was taken at the place relative to its
range. -/
structure RangesChunks (sha256 : List Char → String) (policy : ChunkingPolicy)
    (content : List Char) (strategy : ChunkStrategy) (ranges : List (ℕ × ℕ))
    (chunks : List ChunkSpec) : Prop where
  sites_eq : chunks.map ChunkSpec.site =
    ranges.flatMap fun r ↦ (rangeSites policy content r).map (shiftSite r.1)
  keys_eq : chunks.map ChunkSpec.key =
    ranges.flatMap fun r ↦ (rangeSites policy content r).map (siteKey sha256 strategy)
  endByte_eq : ∀ c ∈ chunks, c.endByte = c.startByte + byteLen c.content

theorem ChunkOk.keys_eq {sha256 : List Char → String} {strategy : ChunkStrategy}
    {chunks : List ChunkSpec} (h : ∀ c ∈ chunks, ChunkOk sha256 strategy c) :
    chunks.map ChunkSpec.key =
      (chunks.map ChunkSpec.site).map (siteKey sha256 strategy) := by
  rw [List.map_map]
  exact List.map_congr_left fun c hc ↦ (h c hc).key_eq

variable (sha256 : List Char → String) (policy : ChunkingPolicy)
  (hfits : policy.Fits content) (strategy : ChunkStrategy) {rounds : ℕ}
  (hrounds : byteLen content < rounds)

include hfits hrounds

/-- A text that is not split at all is one range. -/
theorem boundedRanges_chunks :
    ∃ chunks, boundedRanges sha256 rounds content policy strategy = some chunks ∧
      RangesChunks sha256 policy content strategy [(0, byteLen content)] chunks := by
  obtain ⟨chunks, heq, hsites, hok⟩ :=
    boundedRanges_eq sha256 hfits strategy hrounds
  have hwhole : slice content 0 (byteLen content) = some content :=
    Iff.mpr slice_eq_some_iff ⟨[], [], by simp, rfl, by simp⟩
  have hrange : rangeSites policy content (0, byteLen content) = textSites policy content := by
    simp [rangeSites, hwhole]
  refine ⟨chunks, heq, ?_, ?_, fun c hc ↦ (hok c hc).endByte_eq⟩
  · simp [hrange, hsites]
  · rw [ChunkOk.keys_eq hok, hsites]
    simp [hrange]

theorem rangesChunks_eq (parent : ℕ → ℕ → String) {ranges : List (ℕ × ℕ)} {lo : ℕ}
    (htiles : Tiles lo (byteLen content) ranges) (hboundaries : OnBoundaries content ranges) :
    ∃ chunks, rangesChunks sha256 rounds content policy strategy parent ranges = some chunks ∧
      RangesChunks sha256 policy content strategy ranges chunks := by
  induction ranges generalizing lo with
  | nil => exact ⟨[], rfl, rfl, rfl, by simp⟩
  | cons r ranges ih =>
      obtain ⟨start, stop⟩ := r
      obtain ⟨hstart, hstop⟩ := hboundaries (start, stop) List.mem_cons_self
      have hle : start ≤ stop := (htiles.chain.bounds (start, stop) List.mem_cons_self).2.1
      obtain ⟨piece, hpiece⟩ := slice_isSome_of_boundaries hstart hstop hle
      have hshort : byteLen piece < rounds := by
        have hlen := (slice_boundaries hpiece).2.2
        have hstop' := le_byteLen_of_isCharBoundary hstop
        omega
      obtain ⟨chunks, heq, hsites, hok⟩ :=
        boundedRanges_eq sha256 (hfits.slice hpiece) strategy hshort
      cases htiles with
      | cons hlo tail =>
          obtain ⟨rest, hrest, hspec⟩ := ih tail fun r hr ↦
            hboundaries r (List.mem_cons_of_mem _ hr)
          have hrange : rangeSites policy content (lo, stop) = textSites policy piece := by
            simp [rangeSites, hpiece]
          refine ⟨chunks.map (fun c ↦ c.shift lo (parent lo stop)) ++ rest, ?_, ?_, ?_, ?_⟩
          · rw [rangesChunks, hpiece, Option.bind_some, heq, Option.bind_some, hrest,
              Option.map_some]
          · rw [List.map_append, hspec.sites_eq, List.flatMap_cons, hrange, ← hsites,
              List.map_map, List.map_map]
            rfl
          · rw [List.map_append, hspec.keys_eq, List.flatMap_cons, hrange, ← hsites,
              ← ChunkOk.keys_eq hok, List.map_map]
            rfl
          · intro c hc
            rcases List.mem_append.mp hc with hc | hc
            · obtain ⟨d, hd, rfl⟩ := List.mem_map.mp hc
              have hend := (hok d hd).endByte_eq
              simp only [ChunkSpec.shift]
              omega
            · exact hspec.endByte_eq c hc

omit hfits hrounds

theorem rangesChunks_mono {parent : ℕ → ℕ → String} {ranges : List (ℕ × ℕ)} {more : ℕ}
    {chunks : List ChunkSpec} (hle : rounds ≤ more)
    (h : rangesChunks sha256 rounds content policy strategy parent ranges = some chunks) :
    rangesChunks sha256 more content policy strategy parent ranges = some chunks := by
  induction ranges generalizing chunks with
  | nil => exact h
  | cons r ranges ih =>
      rw [rangesChunks] at h ⊢
      obtain ⟨piece, hpiece, h⟩ := Option.bind_eq_some_iff.mp h
      obtain ⟨head, hhead, h⟩ := Option.bind_eq_some_iff.mp h
      obtain ⟨rest, hrest, rfl⟩ := Option.map_eq_some_iff.mp h
      have hhead' : boundedRanges sha256 more piece policy strategy = some head :=
        boundedRangesLoop_mono hhead hle
      rw [hpiece, Option.bind_some, hhead', Option.bind_some, ih hrest, Option.map_some]

/-! ## The document -/

/-- The ranges of a line-based strategy; `few` of them or less are not worth
splitting. -/
def splitUnless (few : ℕ) (cut : List Char → Bool) (content : List Char) : List (ℕ × ℕ) :=
  if (lineRanges cut content).length ≤ few then [(0, byteLen content)]
  else lineRanges cut content

/-- The consecutive ranges that the bounded splitter is run on. -/
def documentRanges (parse : Document → ParsedSymbols) (document : Document) : List (ℕ × ℕ) :=
  let content := document.content.toList
  match strategyFor document with
  | .markdownSection => splitUnless 0 isMarkdownHeading content
  | .htmlSection => splitUnless 0 isHtmlHeading content
  | .messageThread => splitUnless 1 isMessageMarker content
  | .calendarEvent => splitUnless 1 isFieldLine content
  | .structuredRecord => splitUnless 1 isFieldLine content
  | .codeSymbol =>
      if !(parse document).complete || (parse document).starts.isEmpty then
        [(0, byteLen content)]
      else symbolRanges content (parse document).starts
  | .generic => [(0, byteLen content)]

/-- The strategy recorded in the chunks: code that was not parsed completely
is split like a generic text. -/
def documentStrategy (parse : Document → ParsedSymbols) (document : Document) : ChunkStrategy :=
  if strategyFor document = .codeSymbol ∧
      (!(parse document).complete || (parse document).starts.isEmpty) = true then .generic
  else strategyFor document

/-- The parser reports symbols at character boundaries of the text. -/
def SymbolsOnBoundaries (parse : Document → ParsedSymbols) (document : Document) : Prop :=
  ∀ a ∈ (parse document).starts, isCharBoundary document.content.toList a = true

theorem splitUnless_pieces (few : ℕ) (cut : List Char → Bool) (content : List Char) :
    Pieces content (splitUnless few cut content) := by
  rw [splitUnless]
  split_ifs
  · exact pieces_whole content
  · exact lineRanges_pieces cut content

theorem documentRanges_pieces {parse : Document → ParsedSymbols} {document : Document}
    (hsymbols : SymbolsOnBoundaries parse document) :
    Pieces document.content.toList (documentRanges parse document) := by
  rw [documentRanges]
  split
  case h_6 =>
    split_ifs with hfallback
    · exact pieces_whole _
    · have hne : (parse document).starts ≠ [] := by
        rintro hnil
        simp [hnil] at hfallback
      exact symbolRanges_pieces hne hsymbols
  case h_7 => exact pieces_whole _
  all_goals exact splitUnless_pieces _ _ _

/-- A strategy that splits at lines runs the bounded splitter on its ranges. -/
theorem splitUnless_chunks (parent : ℕ → ℕ → String) (few : ℕ) (cut : List Char → Bool)
    (hfits : policy.Fits content) (hrounds : byteLen content < rounds) :
    ∃ chunks,
      (if (lineRanges cut content).length ≤ few then
        boundedRanges sha256 rounds content policy strategy
      else rangesChunks sha256 rounds content policy strategy parent (lineRanges cut content)) =
        some chunks ∧
      RangesChunks sha256 policy content strategy (splitUnless few cut content) chunks := by
  have hpieces := lineRanges_pieces cut content
  rw [splitUnless]
  split_ifs
  · exact boundedRanges_chunks sha256 policy hfits strategy hrounds
  · exact rangesChunks_eq sha256 policy hfits strategy hrounds parent hpieces.tiles
      hpieces.boundaries

/-- The chunks of a document are the chunks of its ranges. -/
theorem strategyChunks_eq {parse : Document → ParsedSymbols} {document : Document}
    (hsymbols : SymbolsOnBoundaries parse document) (hfits : policy.Fits document.content.toList)
    (hrounds : byteLen document.content.toList < rounds) :
    ∃ chunks, strategyChunks sha256 parse rounds document policy = some chunks ∧
      RangesChunks sha256 policy document.content.toList (documentStrategy parse document)
        (documentRanges parse document) chunks := by
  have hlines := fun strategy parent few cut ↦ splitUnless_chunks sha256 policy strategy
    parent few cut hfits hrounds
  rw [strategyChunks, documentRanges, documentStrategy]
  cases hstrategy : strategyFor document with
  | generic => exact boundedRanges_chunks sha256 policy hfits .generic hrounds
  | markdownSection =>
      simpa [sectionChunks, List.isEmpty_iff] using hlines .markdownSection _ 0 isMarkdownHeading
  | htmlSection =>
      simpa [sectionChunks, List.isEmpty_iff] using hlines .htmlSection _ 0 isHtmlHeading
  | messageThread => exact hlines .messageThread _ 1 isMessageMarker
  | calendarEvent => exact hlines .calendarEvent _ 1 isFieldLine
  | structuredRecord => exact hlines .structuredRecord _ 1 isFieldLine
  | codeSymbol =>
      by_cases hfallback : (!(parse document).complete || (parse document).starts.isEmpty) = true
      · simp only [codeChunks, hfallback, and_self, if_true]
        exact boundedRanges_chunks sha256 policy hfits .generic hrounds
      · simp only [codeChunks, hfallback]
        have hne : (parse document).starts ≠ [] := by
          rintro hnil
          simp [hnil] at hfallback
        have hpieces := symbolRanges_pieces hne hsymbols
        exact rangesChunks_eq sha256 policy hfits .codeSymbol hrounds _ hpieces.tiles
          hpieces.boundaries

theorem strategyChunks_mono {parse : Document → ParsedSymbols} {document : Document}
    {more : ℕ} {chunks : List ChunkSpec} (hle : rounds ≤ more)
    (h : strategyChunks sha256 parse rounds document policy = some chunks) :
    strategyChunks sha256 parse more document policy = some chunks := by
  have hbounded : ∀ {content strategy},
      boundedRanges sha256 rounds content policy strategy = some chunks →
      boundedRanges sha256 more content policy strategy = some chunks := fun h ↦
    boundedRangesLoop_mono h hle
  rw [strategyChunks] at h ⊢
  cases hstrategy : strategyFor document <;>
    simp only [hstrategy, sectionChunks, messageChunks, structuredChunks, codeChunks,
      genericChunks] at h ⊢
  case generic => exact hbounded h
  all_goals
    split_ifs at h ⊢
    · exact hbounded h
    · exact rangesChunks_mono sha256 policy _ hle h

/-- Chunking returns if the target has room for every character, and more
rounds do not change what it returns. -/
theorem chunkDocumentWithPolicy_eq {parse : Document → ParsedSymbols} {document : Document}
    (hsymbols : SymbolsOnBoundaries parse document)
    (hfits : policy.Fits document.content.toList) :
    ∃ chunks, (∀ rounds, byteLen document.content.toList < rounds →
        chunkDocumentWithPolicy sha256 parse rounds document policy = some (linkChunks chunks)) ∧
      RangesChunks sha256 policy document.content.toList (documentStrategy parse document)
        (documentRanges parse document) chunks := by
  obtain ⟨chunks, heq, hspec⟩ := strategyChunks_eq sha256 policy hsymbols hfits
    (Nat.lt_succ_self (byteLen document.content.toList))
  refine ⟨chunks, fun rounds hrounds ↦ ?_, hspec⟩
  rw [chunkDocumentWithPolicy,
    strategyChunks_mono sha256 policy (Nat.succ_le_of_lt hrounds) heq, Option.map_some]

/-- `chunk_document` returns, and more rounds do not change what it returns. -/
theorem chunkDocument_eq {parse : Document → ParsedSymbols} {document : Document}
    (hsymbols : SymbolsOnBoundaries parse document) :
    ∃ chunks, (∀ rounds, byteLen document.content.toList < rounds →
        chunkDocument sha256 parse rounds document = some (linkChunks chunks)) ∧
      RangesChunks sha256 .default document.content.toList (documentStrategy parse document)
        (documentRanges parse document) chunks :=
  chunkDocumentWithPolicy_eq sha256 .default hsymbols (fits_of_four_le (by decide) _)

end Cortana
