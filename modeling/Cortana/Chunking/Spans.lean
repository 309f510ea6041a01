import Cortana.Chunking.Pieces

/-!
# Chunks lose nothing

The chunks of a document are true spans of its content, in order, and every
character that is not white space lies in one of them.  The argument goes up
from one window to the chain of windows of one text, and from there over the
consecutive ranges of the document.
-/

namespace Cortana

open ByteText OffsetRange

variable {content : List Char} {policy : ChunkingPolicy}

/-! ## One window -/

/-- A text `text` that starts at `start` is everything of the window that is
not white space. -/
structure SiteOf (content : List Char) (w : ℕ × ℕ) (site : ℕ × List Char) : Prop where
  exact : slice content site.1 (site.1 + byteLen site.2) = some site.2
  nonempty : site.2 ≠ []
  trimmed : Trimmed site.2
  start_le : w.1 ≤ site.1
  le_stop : site.1 + byteLen site.2 ≤ w.2
  covers : ∀ o c, charAt content o = some c → isWhitespace c = false → w.1 ≤ o → o < w.2 →
    site.1 ≤ o ∧ o + c.utf8Size ≤ site.1 + byteLen site.2

theorem windowSite_some {w : ℕ × ℕ} {site : ℕ × List Char} (hw : WindowOk content policy w)
    (h : windowSite content w = some site) : SiteOf content w site := by
  obtain ⟨window, hwindow⟩ :=
    slice_isSome_of_boundaries hw.start_boundary hw.stop_boundary hw.nonempty.le
  have hlen := (slice_boundaries hwindow).2.2
  simp only [windowSite, hwindow, Option.getD_some] at h
  split_ifs at h with hblank
  obtain ⟨l, r, hsplit, hfind, hl, hr⟩ := find_trim hblank
  rw [hfind, Option.getD_some, Option.some.injEq] at h
  subst h
  set text := trim window with htext
  -- the three parts of the window as slices of it
  have hslice : slice window (byteLen l) (byteLen l + byteLen text) = some text :=
    Iff.mpr slice_eq_some_iff ⟨l, r, hsplit, rfl, rfl⟩
  have hleft : slice window 0 (byteLen l) = some l :=
    Iff.mpr slice_eq_some_iff ⟨[], text ++ r, by simpa using hsplit, rfl, by simp⟩
  have hright : slice window (byteLen l + byteLen text) (byteLen window) = some r :=
    Iff.mpr slice_eq_some_iff ⟨l ++ text, [], by simpa using hsplit, by simp, by
      rw [hsplit]
      simp [Nat.add_assoc]⟩
  have htotal : byteLen window = byteLen l + byteLen text + byteLen r := by
    rw [hsplit]
    simp [Nat.add_assoc]
  have hshift := slice_slice hwindow hslice
  refine ⟨by simpa [Nat.add_assoc] using hshift, hblank, trim_trimmed window, by simp,
    by simp only; omega, ?_⟩
  intro o c hc hword hlo hhi
  obtain ⟨hin, hend⟩ := charAt_slice hwindow hc hlo hhi
  by_cases hbefore : o - w.1 < byteLen l
  · have hmem := mem_of_charAt (charAt_slice hleft hin (Nat.zero_le _) hbefore).1
    simp [hl c hmem] at hword
  · by_cases hafter : byteLen l + byteLen text ≤ o - w.1
    · have hmem := mem_of_charAt (charAt_slice hright hin hafter (by omega)).1
      simp [hr c hmem] at hword
    · have hstop := (charAt_slice hslice hin (by omega) (by omega)).2
      simp only
      omega

theorem windowSite_none {w : ℕ × ℕ} (hw : WindowOk content policy w)
    (h : windowSite content w = none) {o : ℕ} {c : Char} (hc : charAt content o = some c)
    (hlo : w.1 ≤ o) (hhi : o < w.2) : isWhitespace c = true := by
  obtain ⟨window, hwindow⟩ :=
    slice_isSome_of_boundaries hw.start_boundary hw.stop_boundary hw.nonempty.le
  simp only [windowSite, hwindow, Option.getD_some] at h
  split_ifs at h with hblank
  exact Iff.mp trim_eq_nil_iff hblank c (mem_of_charAt (charAt_slice hwindow hc hlo hhi).1)

/-- The first character of a trimmed text that is not empty is no white
space, so it is where the place of the text says. -/
theorem SiteOf.first_char {w : ℕ × ℕ} {site : ℕ × List Char} (h : SiteOf content w site) :
    ∃ c, charAt content site.1 = some c ∧ isWhitespace c = false := by
  obtain ⟨c, t, hct⟩ := List.exists_cons_of_ne_nil h.nonempty
  refine ⟨c, ?_, h.trimmed.1 c (by simp [hct])⟩
  have hfirst : charAt site.2 0 = some c := Iff.mpr charAt_eq_some_iff ⟨[], t, hct, rfl⟩
  simpa using charAt_of_slice h.exact hfirst

/-- A later window has a later text. -/
theorem SiteOf.le {v w : ℕ × ℕ} {s t : ℕ × List Char} (hs : SiteOf content v s)
    (ht : SiteOf content w t) (hle : v.1 ≤ w.1) : s.1 ≤ t.1 := by
  by_contra hlt
  obtain ⟨c, hc, hword⟩ := ht.first_char
  have hstart := ht.start_le
  have hstop := hs.le_stop
  have := (hs.covers t.1 c hc hword (by omega) (by omega)).1
  omega

/-! ## One text -/

/-- The places of a text are spans of it, in order, and leave out only white
space. -/
structure SitesOk (content : List Char) (target : ℕ) (sites : List (ℕ × List Char)) :
    Prop where
  exact : ∀ s ∈ sites, slice content s.1 (s.1 + byteLen s.2) = some s.2
  nonempty : ∀ s ∈ sites, s.2 ≠ []
  trimmed : ∀ s ∈ sites, Trimmed s.2
  bounded : ∀ s ∈ sites, byteLen s.2 ≤ target
  ordered : sites.Pairwise fun s t ↦ s.1 ≤ t.1
  covered : ∀ o c, charAt content o = some c → isWhitespace c = false →
    ∃ s ∈ sites, s.1 ≤ o ∧ o + c.utf8Size ≤ s.1 + byteLen s.2

theorem textSites_ok (hfits : policy.Fits content) :
    SitesOk content policy.target (textSites policy content) := by
  obtain ⟨ws, -, hsites, hchain, hok⟩ := windows_whole hfits
  rw [hsites]
  have hfrom : ∀ s ∈ ws.filterMap (windowSite content),
      ∃ w ∈ ws, SiteOf content w s ∧ w.2 ≤ w.1 + policy.target := by
    intro s hs
    obtain ⟨w, hw, hsite⟩ := List.mem_filterMap.mp hs
    exact ⟨w, hw, windowSite_some (hok w hw) hsite, (hok w hw).bounded⟩
  refine ⟨?_, ?_, ?_, ?_, ?_, ?_⟩
  · intro s hs
    obtain ⟨w, -, hsite, -⟩ := hfrom s hs
    exact hsite.exact
  · intro s hs
    obtain ⟨w, -, hsite, -⟩ := hfrom s hs
    exact hsite.nonempty
  · intro s hs
    obtain ⟨w, -, hsite, -⟩ := hfrom s hs
    exact hsite.trimmed
  · intro s hs
    obtain ⟨w, -, hsite, hbound⟩ := hfrom s hs
    have hstart := hsite.start_le
    have hstop := hsite.le_stop
    omega
  · refine List.pairwise_filterMap.mpr (hchain.pairwise.imp_of_mem ?_)
    intro v w hv hw hle s hs t ht
    exact (windowSite_some (hok v hv) hs).le (windowSite_some (hok w hw) ht) hle
  · intro o c hc hword
    obtain ⟨w, hw, hlo, hhi⟩ := hchain.exists_mem (Nat.zero_le o) (lt_byteLen_of_charAt hc)
    cases hsite : windowSite content w with
    | none => simp [windowSite_none (hok w hw) hsite hc hlo hhi] at hword
    | some s =>
        exact ⟨s, List.mem_filterMap.mpr ⟨w, hw, hsite⟩,
          (windowSite_some (hok w hw) hsite).covers o c hc hword hlo hhi⟩

/-! ## Consecutive pieces -/

theorem sitesOk_of_pieces (hfits : policy.Fits content) {ranges : List (ℕ × ℕ)}
    (hpieces : Pieces content ranges) :
    SitesOk content policy.target
      (ranges.flatMap fun r ↦ (rangeSites policy content r).map (shiftSite r.1)) := by
  have hbounds := hpieces.tiles.chain.bounds
  have hpiece : ∀ r ∈ ranges, ∃ piece, slice content r.1 r.2 = some piece ∧
      SitesOk piece policy.target (rangeSites policy content r) := by
    intro r hr
    obtain ⟨hstart, hstop⟩ := hpieces.boundaries r hr
    obtain ⟨piece, heq⟩ := slice_isSome_of_boundaries hstart hstop (hbounds r hr).2.1
    refine ⟨piece, heq, ?_⟩
    rw [rangeSites, heq, Option.getD_some]
    exact textSites_ok (hfits.slice heq)
  -- a place of the document comes from a place of one of its pieces
  have hfrom : ∀ s ∈ ranges.flatMap fun r ↦ (rangeSites policy content r).map (shiftSite r.1),
      ∃ r ∈ ranges, ∃ piece, slice content r.1 r.2 = some piece ∧
        SitesOk piece policy.target (rangeSites policy content r) ∧
        ∃ t ∈ rangeSites policy content r, shiftSite r.1 t = s := by
    intro s hs
    obtain ⟨r, hr, hs⟩ := List.mem_flatMap.mp hs
    obtain ⟨t, ht, rfl⟩ := List.mem_map.mp hs
    obtain ⟨piece, heq, hok⟩ := hpiece r hr
    exact ⟨r, hr, piece, heq, hok, t, ht, rfl⟩
  -- and lies inside its range
  have hinside : ∀ r ∈ ranges, ∀ t ∈ rangeSites policy content r,
      r.1 ≤ (shiftSite r.1 t).1 ∧ (shiftSite r.1 t).1 ≤ r.2 := by
    intro r hr t ht
    obtain ⟨piece, heq, hok⟩ := hpiece r hr
    have hlen := (slice_boundaries heq).2.2
    have hle := le_byteLen_of_isCharBoundary (slice_boundaries (hok.exact t ht)).1
    simp only [shiftSite]
    omega
  refine ⟨?_, ?_, ?_, ?_, ?_, ?_⟩
  · intro s hs
    obtain ⟨r, -, piece, heq, hok, t, ht, rfl⟩ := hfrom s hs
    have hslice := slice_slice heq (hok.exact t ht)
    simpa [shiftSite, Nat.add_comm, Nat.add_left_comm] using hslice
  · intro s hs
    obtain ⟨r, -, piece, -, hok, t, ht, rfl⟩ := hfrom s hs
    exact hok.nonempty t ht
  · intro s hs
    obtain ⟨r, -, piece, -, hok, t, ht, rfl⟩ := hfrom s hs
    exact hok.trimmed t ht
  · intro s hs
    obtain ⟨r, -, piece, -, hok, t, ht, rfl⟩ := hfrom s hs
    exact hok.bounded t ht
  · refine List.pairwise_flatMap.mpr ⟨fun r hr ↦ ?_, ?_⟩
    · obtain ⟨piece, -, hok⟩ := hpiece r hr
      refine List.pairwise_map.mpr (hok.ordered.imp ?_)
      intro s t hst
      simp only [shiftSite]
      omega
    · refine hpieces.tiles.pairwise.imp_of_mem ?_
      intro r r' hr hr' hle s hs s' hs'
      obtain ⟨t, ht, rfl⟩ := List.mem_map.mp hs
      obtain ⟨t', ht', rfl⟩ := List.mem_map.mp hs'
      exact ((hinside r hr t ht).2.trans hle).trans (hinside r' hr' t' ht').1
  · intro o c hc hword
    obtain ⟨r, hr, hlo, hhi⟩ :=
      hpieces.tiles.chain.exists_mem (Nat.zero_le o) (lt_byteLen_of_charAt hc)
    obtain ⟨piece, heq, hok⟩ := hpiece r hr
    obtain ⟨hin, -⟩ := charAt_slice heq hc hlo hhi
    obtain ⟨t, ht, hstart, hstop⟩ := hok.covered (o - r.1) c hin hword
    refine ⟨shiftSite r.1 t, List.mem_flatMap.mpr ⟨r, hr, List.mem_map_of_mem ht⟩, ?_, ?_⟩
    · simp only [shiftSite]
      omega
    · simp only [shiftSite]
      omega

/-! ## Linking -/

@[simp] theorem length_linkChunks (chunks : List ChunkSpec) :
    (linkChunks chunks).length = chunks.length := by
  simp [linkChunks]

theorem getElem_linkChunks (chunks : List ChunkSpec) {i : ℕ} (h : i < (linkChunks chunks).length) :
    (linkChunks chunks)[i] =
      { chunks.get ⟨i, by simpa using h⟩ with
        ordinal := i
        previousKey := if i = 0 then none else (chunks[i - 1]?).map ChunkSpec.key
        nextKey := (chunks[i + 1]?).map ChunkSpec.key } := by
  simp [linkChunks]

/-- Linking changes only the ordinal and the two links of a chunk. -/
theorem map_linkChunks {α : Type*} (f : ChunkSpec → α)
    (hf : ∀ c ordinal previous next,
      f { c with ordinal := ordinal, previousKey := previous, nextKey := next } = f c)
    (chunks : List ChunkSpec) : (linkChunks chunks).map f = chunks.map f := by
  apply List.ext_getElem (by simp)
  intro i h _
  have h' : i < (linkChunks chunks).length := by simpa using h
  rw [List.getElem_map, List.getElem_map, getElem_linkChunks chunks h', hf, List.get_eq_getElem]

/-! ## The chunks of a document -/

/-- What the chunks of a document promise to its readers. -/
structure LosslessChunks (content : List Char) (target : ℕ) (chunks : List ChunkSpec) :
    Prop where
  span : ∀ c ∈ chunks, slice content c.startByte c.endByte = some c.content
  boundaries : ∀ c ∈ chunks,
    isCharBoundary content c.startByte = true ∧ isCharBoundary content c.endByte = true
  nonempty : ∀ c ∈ chunks, c.content ≠ []
  trimmed : ∀ c ∈ chunks, Trimmed c.content
  bounded : ∀ c ∈ chunks, byteLen c.content ≤ target
  ordinals : chunks.map ChunkSpec.ordinal = List.range chunks.length
  previous : ∀ i (h : i < chunks.length), chunks[i].previousKey =
    if i = 0 then none else (chunks[i - 1]?).map ChunkSpec.key
  next : ∀ i (h : i < chunks.length), chunks[i].nextKey = (chunks[i + 1]?).map ChunkSpec.key
  ordered : chunks.Pairwise fun c d ↦ c.startByte ≤ d.startByte
  covered : ∀ o ch, charAt content o = some ch → isWhitespace ch = false →
    ∃ c ∈ chunks, c.startByte ≤ o ∧ o + ch.utf8Size ≤ c.endByte

theorem losslessChunks_link {target : ℕ} {chunks : List ChunkSpec}
    (hsites : SitesOk content target (chunks.map ChunkSpec.site))
    (hend : ∀ c ∈ chunks, c.endByte = c.startByte + byteLen c.content) :
    LosslessChunks content target (linkChunks chunks) := by
  have hmap : (linkChunks chunks).map ChunkSpec.site = chunks.map ChunkSpec.site :=
    map_linkChunks _ (fun _ _ _ _ ↦ rfl) chunks
  have hkeys : (linkChunks chunks).map ChunkSpec.key = chunks.map ChunkSpec.key :=
    map_linkChunks _ (fun _ _ _ _ ↦ rfl) chunks
  have hkey : ∀ i : ℕ, ((linkChunks chunks)[i]?).map ChunkSpec.key =
      (chunks[i]?).map ChunkSpec.key := fun i ↦ by
    rw [← List.getElem?_map, ← List.getElem?_map, hkeys]
  have hend' : ∀ c ∈ linkChunks chunks, c.endByte = c.startByte + byteLen c.content := by
    have hall : (linkChunks chunks).map (fun c ↦ (c.startByte, c.content, c.endByte)) =
        chunks.map fun c ↦ (c.startByte, c.content, c.endByte) :=
      map_linkChunks _ (fun _ _ _ _ ↦ rfl) chunks
    intro c hc
    have hmem := List.mem_map_of_mem (f := fun c ↦ (c.startByte, c.content, c.endByte)) hc
    rw [hall] at hmem
    obtain ⟨d, hd, heq⟩ := List.mem_map.mp hmem
    simp only [Prod.mk.injEq] at heq
    rw [← heq.1, ← heq.2.1, ← heq.2.2]
    exact hend d hd
  rw [← hmap] at hsites
  have hmem : ∀ c ∈ linkChunks chunks, c.site ∈ (linkChunks chunks).map ChunkSpec.site :=
    fun c hc ↦ List.mem_map_of_mem hc
  have hspan : ∀ c ∈ linkChunks chunks,
      slice content c.startByte c.endByte = some c.content := fun c hc ↦ by
    rw [hend' c hc]
    exact hsites.exact _ (hmem c hc)
  refine ⟨hspan, ?_, ?_, ?_, ?_, ?_, ?_, ?_, ?_, ?_⟩
  · intro c hc
    obtain ⟨hstart, hstop, -⟩ := slice_boundaries (hspan c hc)
    exact ⟨hstart, hstop⟩
  · exact fun c hc ↦ hsites.nonempty _ (hmem c hc)
  · exact fun c hc ↦ hsites.trimmed _ (hmem c hc)
  · exact fun c hc ↦ hsites.bounded _ (hmem c hc)
  · apply List.ext_getElem (by simp)
    intro i h _
    have h' : i < (linkChunks chunks).length := by simpa using h
    rw [List.getElem_map, getElem_linkChunks chunks h', List.getElem_range]
  · intro i h
    rw [getElem_linkChunks chunks h, hkey]
  · intro i h
    rw [getElem_linkChunks chunks h, hkey]
  · exact List.pairwise_map (f := ChunkSpec.site).mp hsites.ordered
  · intro o ch hch hword
    obtain ⟨s, hs, hlo, hhi⟩ := hsites.covered o ch hch hword
    obtain ⟨c, hc, rfl⟩ := List.mem_map.mp hs
    refine ⟨c, hc, hlo, ?_⟩
    rw [hend' c hc]
    exact hhi

/-- Chunking a document with the default policy ends, and its chunks lose
nothing and report true spans, whichever strategy the document selects and
wherever its symbols start. -/
theorem chunkDocument_lossless (sha256 : List Char → String)
    (parse : Document → ParsedSymbols) (document : Document)
    (hsymbols : SymbolsOnBoundaries parse document) :
    ∃ chunks, (∀ rounds, byteLen document.content.toList < rounds →
        chunkDocument sha256 parse rounds document = some chunks) ∧
      LosslessChunks document.content.toList ChunkingPolicy.default.targetBytes chunks := by
  obtain ⟨chunks, heq, hspec⟩ := chunkDocument_eq sha256 hsymbols
  refine ⟨linkChunks chunks, heq, losslessChunks_link ?_ hspec.endByte_eq⟩
  have htarget : 4 ≤ ChunkingPolicy.default.target := by decide
  rw [hspec.sites_eq]
  exact sitesOk_of_pieces (fits_of_four_le htarget _) (documentRanges_pieces hsymbols)

/-- A small source file with two symbols, for the runs below. -/
def sampleCode : Document where
  source := "code"
  sourceId := "repo:src/lib.rs"
  title := "lib.rs"
  content := "fn a() {}\nfn b() {}\n"
  uri := none
  updatedAt := "2026-01-01T00:00:00+00:00"
  project := "work"
  acl := []
  metadata := .object [("code", .object [])]

/-- The symbols of `sampleCode`, reported out of order and twice. -/
def sampleSymbols : Document → ParsedSymbols := fun _ ↦ ⟨true, [10, 0, 10]⟩

theorem chunkDocument_lossless_sample :
    ∃ chunks, (∀ rounds, byteLen sampleCode.content.toList < rounds →
        chunkDocument String.ofList sampleSymbols rounds sampleCode = some chunks) ∧
      LosslessChunks sampleCode.content.toList ChunkingPolicy.default.targetBytes chunks :=
  chunkDocument_lossless String.ofList sampleSymbols sampleCode (by
    unfold SymbolsOnBoundaries
    decide)

end Cortana
