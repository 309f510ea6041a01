import Cortana.Chunking.Spans

/-!
# When chunking ends

A window grows by whole characters, and the fallback of a window that cannot
grow is the boundary it starts at.  A character that is larger than the target
is therefore never passed: the loop stays before it.
-/

namespace Cortana

open ByteText OffsetRange

variable {content : List Char} {policy : ChunkingPolicy}

/-- No window that starts before a character that is larger than the target
ends after its start, and so does none of the next windows. -/
theorem windowEnd_stuck {target start p : ℕ} {c : Char} (hc : charAt content p = some c)
    (hlarge : target < c.utf8Size) (hstart : isCharBoundary content start = true)
    (hle : start ≤ p) {stop : ℕ} (h : windowEnd content target start = some stop) :
    isCharBoundary content stop = true ∧ stop ≤ p := by
  obtain ⟨hhard, hhardLe, -⟩ := charBoundaryAtOrBefore_spec content (start + target)
  have hbefore : charBoundaryAtOrBefore content (start + target) ≤ p :=
    boundary_le_of_charAt hc hhard (by omega)
  have hnext := nextCharBoundary_of_boundary hstart
  rw [windowEnd] at h
  simp only [hnext] at h
  split at h
  · obtain ⟨window, hwindow, rfl⟩ := Option.map_eq_some_iff.mp h
    have hlen := (slice_boundaries hwindow).2.2
    obtain ⟨hcut, hcutLe, -⟩ := charBoundaryAtOrBefore_spec content
      (((rfind ['\n', '\n'] window).filter fun position ↦ byteLen window / 2 ≤ position).elim
        (max (charBoundaryAtOrBefore content (start + target)) start)
        fun position ↦ start + position + 2)
    refine ⟨hcut, hcutLe.trans ?_⟩
    cases hbreak : (rfind ['\n', '\n'] window).filter
        fun position ↦ byteLen window / 2 ≤ position with
    | none => exact max_le hbefore hle
    | some position =>
        obtain ⟨hfind, -⟩ := Option.filter_eq_some_iff.mp hbreak
        obtain ⟨l, r, rfl, hl⟩ := rfind_eq_some hfind
        have htwo : byteLen ['\n', '\n'] = 2 := rfl
        rw [byteLen_append, byteLen_append, hl, htwo] at hlen
        have hmax := max_le hbefore hle
        rw [Option.elim_some]
        omega
  · obtain rfl := Option.some.inj h
    refine ⟨?_, max_le hbefore hle⟩
    rcases max_choice (charBoundaryAtOrBefore content (start + target)) start with heq | heq
    · rw [heq]
      exact hhard
    · rw [heq]
      exact hstart

theorem windowNext_stuck {overlap start stop p : ℕ} (hstop : isCharBoundary content stop = true)
    (hle : stop ≤ p) :
    isCharBoundary content (windowNext content overlap start stop) = true ∧
      windowNext content overlap start stop ≤ p := by
  obtain ⟨hboundary, hback, -⟩ := charBoundaryAtOrBefore_spec content (stop - overlap)
  rw [windowNext]
  split
  · rw [nextCharBoundary_of_boundary hstop]
    exact ⟨hstop, hle⟩
  · exact ⟨hboundary, hback.trans ((Nat.sub_le _ _).trans hle)⟩

/-- The loop never returns from a start before a character that is larger than
the target. -/
theorem boundedRangesLoop_stuck (sha256 : List Char → String) (strategy : ChunkStrategy)
    {p : ℕ} {c : Char} (hc : charAt content p = some c) (hlarge : policy.target < c.utf8Size)
    (rounds : ℕ) : ∀ {start : ℕ} (output : List ChunkSpec),
      isCharBoundary content start = true → start ≤ p →
        boundedRangesLoop sha256 content policy strategy rounds start output = none := by
  induction rounds with
  | zero => exact fun _ _ _ ↦ rfl
  | succ rounds ih =>
      intro start output hstart hle
      have hp := lt_byteLen_of_charAt hc
      rw [boundedRangesLoop, if_pos (hle.trans_lt hp), Option.bind_eq_none_iff]
      intro stop hend
      obtain ⟨hstop, hstopLe⟩ := windowEnd_stuck hc hlarge hstart hle hend
      rw [Option.bind_eq_none_iff]
      intro chunk _
      obtain ⟨hnext, hnextLe⟩ := @windowNext_stuck _ policy.overlap start
        _ _ hstop hstopLe
      rw [if_neg (hstopLe.trans_lt hp).ne]
      exact ih _ hnext hnextLe

/-- The bounded splitter returns only if the target has room for every
character. -/
theorem fits_of_boundedRanges {sha256 : List Char → String} {strategy : ChunkStrategy}
    {rounds : ℕ} {chunks : List ChunkSpec}
    (h : boundedRanges sha256 rounds content policy strategy = some chunks) :
    policy.Fits content := by
  intro c hc
  by_contra hlarge
  obtain ⟨l, r, rfl⟩ := List.append_of_mem hc
  have hchar : charAt (l ++ c :: r) (byteLen l) = some c :=
    Iff.mpr charAt_eq_some_iff ⟨l, r, rfl, rfl⟩
  rw [boundedRanges, boundedRangesLoop_stuck sha256 strategy hchar (not_le.mp hlarge) rounds []
    (isCharBoundary_zero _) (Nat.zero_le _)] at h
  cases h

/-- The splitter was run on every range. -/
theorem boundedRanges_of_rangesChunks {sha256 : List Char → String} {strategy : ChunkStrategy}
    {rounds : ℕ} {parent : ℕ → ℕ → String} {ranges : List (ℕ × ℕ)} {chunks : List ChunkSpec}
    (h : rangesChunks sha256 rounds content policy strategy parent ranges = some chunks) :
    ∀ r ∈ ranges, ∃ piece, slice content r.1 r.2 = some piece ∧ policy.Fits piece := by
  induction ranges generalizing chunks with
  | nil => simp
  | cons r ranges ih =>
      rw [rangesChunks] at h
      obtain ⟨piece, hpiece, h⟩ := Option.bind_eq_some_iff.mp h
      obtain ⟨head, hhead, h⟩ := Option.bind_eq_some_iff.mp h
      obtain ⟨rest, hrest, -⟩ := Option.map_eq_some_iff.mp h
      intro r' hr'
      rcases List.mem_cons.mp hr' with rfl | hr'
      · exact ⟨piece, hpiece, fits_of_boundedRanges hhead⟩
      · exact ih hrest r' hr'

/-- What fits piece by piece fits as a whole. -/
theorem fits_of_pieces {ranges : List (ℕ × ℕ)} (hpieces : Pieces content ranges)
    (h : ∀ r ∈ ranges, ∃ piece, slice content r.1 r.2 = some piece ∧ policy.Fits piece) :
    policy.Fits content := by
  intro c hc
  obtain ⟨l, rest, rfl⟩ := List.append_of_mem hc
  have hchar : charAt (l ++ c :: rest) (byteLen l) = some c :=
    Iff.mpr charAt_eq_some_iff ⟨l, rest, rfl, rfl⟩
  obtain ⟨r, hr, hlo, hhi⟩ :=
    hpieces.tiles.chain.exists_mem (Nat.zero_le _) (lt_byteLen_of_charAt hchar)
  obtain ⟨piece, hpiece, hfits⟩ := h r hr
  exact hfits c (mem_of_charAt (charAt_slice hpiece hchar hlo hhi).1)

theorem fits_of_splitUnless {sha256 : List Char → String} {strategy : ChunkStrategy}
    {rounds m : ℕ} {cut : List Char → Bool} {parent : ℕ → ℕ → String} {chunks : List ChunkSpec}
    (h : (if (lineRanges cut content).length ≤ m then
        boundedRanges sha256 rounds content policy strategy
      else rangesChunks sha256 rounds content policy strategy parent (lineRanges cut content)) =
        some chunks) : policy.Fits content := by
  split at h
  · exact fits_of_boundedRanges h
  · exact fits_of_pieces (lineRanges_pieces cut content) (boundedRanges_of_rangesChunks h)

/-- A document whose chunks are returned has no character that is larger than
the target. -/
theorem fits_of_strategyChunks {sha256 : List Char → String} {parse : Document → ParsedSymbols}
    {document : Document} (hsymbols : SymbolsOnBoundaries parse document) {rounds : ℕ}
    {chunks : List ChunkSpec}
    (h : strategyChunks sha256 parse rounds document policy = some chunks) :
    policy.Fits document.content.toList := by
  rw [strategyChunks] at h
  cases hstrategy : strategyFor document with
  | generic =>
      rw [hstrategy] at h
      exact fits_of_boundedRanges h
  | markdownSection =>
      rw [hstrategy] at h
      exact fits_of_splitUnless (m := 0) (by simpa [sectionChunks, List.isEmpty_iff] using h)
  | htmlSection =>
      rw [hstrategy] at h
      exact fits_of_splitUnless (m := 0) (by simpa [sectionChunks, List.isEmpty_iff] using h)
  | messageThread =>
      rw [hstrategy] at h
      exact fits_of_splitUnless h
  | calendarEvent =>
      rw [hstrategy] at h
      exact fits_of_splitUnless h
  | structuredRecord =>
      rw [hstrategy] at h
      exact fits_of_splitUnless h
  | codeSymbol =>
      rw [hstrategy] at h
      simp only [codeChunks] at h
      split at h
      · exact fits_of_boundedRanges h
      next hfallback =>
          have hne : (parse document).starts ≠ [] := by
            rintro hnil
            simp [hnil] at hfallback
          exact fits_of_pieces (symbolRanges_pieces hne hsymbols)
            (boundedRanges_of_rangesChunks h)

/-- Chunking a document ends, with chunks that lose nothing, exactly if the
target has room for every character of it; otherwise it never returns. -/
theorem chunkDocumentWithPolicy_ends_iff (sha256 : List Char → String)
    (parse : Document → ParsedSymbols) (document : Document)
    (hsymbols : SymbolsOnBoundaries parse document) (policy : ChunkingPolicy) :
    ((∃ chunks, (∀ rounds, byteLen document.content.toList < rounds →
          chunkDocumentWithPolicy sha256 parse rounds document policy = some chunks) ∧
        LosslessChunks document.content.toList policy.target chunks) ↔
      policy.Fits document.content.toList) ∧
    (¬ policy.Fits document.content.toList → ∀ rounds,
      chunkDocumentWithPolicy sha256 parse rounds document policy = none) := by
  have hstuck : ∀ {rounds chunks},
      chunkDocumentWithPolicy sha256 parse rounds document policy = some chunks →
      policy.Fits document.content.toList := by
    intro rounds chunks h
    rw [chunkDocumentWithPolicy] at h
    obtain ⟨unlinked, hunlinked, -⟩ := Option.map_eq_some_iff.mp h
    exact fits_of_strategyChunks hsymbols hunlinked
  refine ⟨⟨?_, fun hfits ↦ ?_⟩, fun hlarge rounds ↦ ?_⟩
  · rintro ⟨chunks, h, -⟩
    exact hstuck (h _ (Nat.lt_succ_self _))
  · obtain ⟨chunks, heq, hspec⟩ := chunkDocumentWithPolicy_eq sha256 policy hsymbols hfits
    refine ⟨linkChunks chunks, heq, losslessChunks_link ?_ hspec.endByte_eq⟩
    rw [hspec.sites_eq]
    exact sitesOk_of_pieces hfits (documentRanges_pieces hsymbols)
  · cases h : chunkDocumentWithPolicy sha256 parse rounds document policy with
    | none => rfl
    | some chunks => exact absurd (hstuck h) hlarge

/-- A source file with a character of three bytes, and no symbols. -/
def sampleWide : Document := { sampleCode with content := "a€" }

theorem chunkDocumentWithPolicy_ends_sample :
    ∃ chunks, (∀ rounds, byteLen sampleWide.content.toList < rounds →
        chunkDocumentWithPolicy String.ofList (fun _ ↦ ⟨true, []⟩) rounds sampleWide ⟨3, 2⟩ =
          some chunks) ∧
      LosslessChunks sampleWide.content.toList 3 chunks :=
  Iff.mpr (chunkDocumentWithPolicy_ends_iff String.ofList (fun _ ↦ ⟨true, []⟩) sampleWide
    (by simp [SymbolsOnBoundaries]) ⟨3, 2⟩).1 (by decide)

/-- With a target of one byte the loop never gets past the character. -/
theorem chunking_spins :
    ¬ ∃ rounds chunks, chunkDocumentWithPolicy String.ofList (fun _ ↦ ⟨true, []⟩) rounds
      sampleWide ⟨1, 0⟩ = some chunks := by
  rintro ⟨rounds, chunks, hchunks⟩
  rw [chunkDocumentWithPolicy] at hchunks
  obtain ⟨unlinked, hunlinked, -⟩ := Option.map_eq_some_iff.mp hchunks
  have hfits := @fits_of_strategyChunks _ _ _ sampleWide
    (by simp [SymbolsOnBoundaries]) _ _ hunlinked
  revert hfits
  decide

end Cortana
