import Cortana.Text.Ranges
import Cortana.Chunking.Model

/-!
# The windows of the bounded splitter

`bounded_ranges` walks over a text in windows.  This module separates where
the windows are cut from what is made of each one: the windows form a gapless
chain over the text if the target holds each of its characters, and the chunks are exactly the trimmed texts of the windows that are not blank.
-/

namespace Cortana

open ByteText OffsetRange

variable {content : List Char}

/-! ## Character boundaries -/

theorem charBoundaryAtOrBefore_go (content : List Char) (o : ℕ) :
    isCharBoundary content (charBoundaryAtOrBefore.go content o) = true ∧
      charBoundaryAtOrBefore.go content o ≤ o ∧
      ∀ b, isCharBoundary content b = true → b ≤ o →
        b ≤ charBoundaryAtOrBefore.go content o := by
  induction o with
  | zero => simp [charBoundaryAtOrBefore.go]
  | succ o ih =>
      obtain ⟨hboundary, hle, hmax⟩ := ih
      rw [charBoundaryAtOrBefore.go]
      split_ifs with ho
      · exact ⟨ho, le_rfl, fun b _ hb ↦ hb⟩
      · refine ⟨hboundary, by omega, fun b hb hbo ↦ hmax b hb ?_⟩
        rcases Nat.lt_or_eq_of_le hbo with hlt | rfl
        · omega
        · exact absurd hb ho

/-- The greatest boundary that is not above the offset. -/
theorem charBoundaryAtOrBefore_spec (content : List Char) (o : ℕ) :
    isCharBoundary content (charBoundaryAtOrBefore content o) = true ∧
      charBoundaryAtOrBefore content o ≤ o ∧
      ∀ b, isCharBoundary content b = true → b ≤ o →
        b ≤ charBoundaryAtOrBefore content o := by
  obtain ⟨hboundary, hle, hmax⟩ :=
    charBoundaryAtOrBefore_go content (min o (byteLen content))
  exact ⟨hboundary, hle.trans (min_le_left _ _), fun b hb hbo ↦
    hmax b hb (le_min hbo (le_byteLen_of_isCharBoundary hb))⟩

theorem charBoundaryAtOrBefore_of_boundary {o : ℕ} (h : isCharBoundary content o = true) :
    charBoundaryAtOrBefore content o = o := by
  obtain ⟨_, hle, hmax⟩ := charBoundaryAtOrBefore_spec content o
  exact le_antisymm hle (hmax o h le_rfl)

theorem le_charBoundaryAtOrBefore_add (content : List Char) {o : ℕ}
    (ho : o ≤ byteLen content) :
    o ≤ charBoundaryAtOrBefore content o + 3 := by
  obtain ⟨b, hb, hbo, hob⟩ := exists_boundary_near content ho
  have := (charBoundaryAtOrBefore_spec content o).2.2 b hb hbo
  omega

theorem nextCharBoundary_of_boundary {o : ℕ} (h : isCharBoundary content o = true) :
    nextCharBoundary content o = o := by
  have hle := le_byteLen_of_isCharBoundary h
  rw [nextCharBoundary, min_eq_left hle]
  cases byteLen content - o with
  | zero => rfl
  | succ room => simp [nextCharBoundary.go, h]

/-! ## One window -/

/-- The target has room for every character of a text. -/
def ChunkingPolicy.Fits (policy : ChunkingPolicy) (content : List Char) : Prop :=
  ∀ c ∈ content, c.utf8Size ≤ policy.target

instance (policy : ChunkingPolicy) (content : List Char) : Decidable (policy.Fits content) :=
  List.decidableBAll (fun c : Char ↦ c.utf8Size ≤ policy.target) content

theorem fits_of_four_le {policy : ChunkingPolicy} (htarget : 4 ≤ policy.target)
    (content : List Char) : policy.Fits content :=
  fun c _ ↦ c.utf8Size_le_four.trans htarget

theorem ChunkingPolicy.Fits.slice {policy : ChunkingPolicy} (hfits : policy.Fits content)
    {a b : ℕ} {piece : List Char} (hpiece : ByteText.slice content a b = some piece) :
    policy.Fits piece := by
  obtain ⟨p, q, rfl, -, -⟩ := Iff.mp slice_eq_some_iff hpiece
  exact fun c hc ↦ hfits c (by simp [hc])

/-- A window that starts at a boundary ends at a later one within the target;
unless it reaches the end of the text it is about half the target long. -/
theorem windowEnd_spec {policy : ChunkingPolicy} {start : ℕ} (hfits : policy.Fits content)
    (hstart : isCharBoundary content start = true) (hlt : start < byteLen content) :
    ∃ stop, windowEnd content policy.target start = some stop ∧
      isCharBoundary content stop = true ∧ start < stop ∧ stop ≤ start + policy.target ∧
      (stop = byteLen content ∨ start + (policy.target - 3) / 2 ≤ stop) := by
  set target := policy.target with htarget
  obtain ⟨hhard, hhardLe, hhardMax⟩ :=
    charBoundaryAtOrBefore_spec content (start + target)
  set hardEnd := charBoundaryAtOrBefore content (start + target) with hhardEnd
  have hge : start ≤ hardEnd := hhardMax start hstart (by omega)
  have hlong : hardEnd = byteLen content ∨ start + (target - 3) ≤ hardEnd := by
    by_cases hall : byteLen content ≤ start + target
    · left
      exact le_antisymm (le_byteLen_of_isCharBoundary hhard)
        (hhardMax _ (isCharBoundary_byteLen content) hall)
    · right
      have := le_charBoundaryAtOrBefore_add content (o := start + target) (by omega)
      omega
  have hmax : max hardEnd (nextCharBoundary content start) = hardEnd := by
    rw [nextCharBoundary_of_boundary hstart, max_eq_left hge]
  have hgt : start < hardEnd := by
    obtain ⟨c, hc, hnext⟩ := exists_charAt_of_boundary hstart hlt
    have hroom := hfits c (mem_of_charAt hc)
    have hpos := c.utf8Size_pos
    exact lt_of_lt_of_le (by omega) (hhardMax _ hnext (by omega))
  by_cases hfull : hardEnd < byteLen content
  · obtain ⟨window, hwindow⟩ := slice_isSome_of_boundaries hstart hhard hge
    have hlen : byteLen window = hardEnd - start := by
      have := (slice_boundaries hwindow).2.2
      omega
    cases hbreak : (rfind ['\n', '\n'] window).filter
        fun position ↦ byteLen window / 2 ≤ position with
    | none =>
        refine ⟨hardEnd, ?_, hhard, hgt, hhardLe, by omega⟩
        simp only [windowEnd, ← hhardEnd, hmax, if_pos hfull, hwindow, Option.map_some,
          hbreak, Option.elim_none, charBoundaryAtOrBefore_of_boundary hhard]
    | some position =>
        obtain ⟨hfind, hfloor⟩ := Option.filter_eq_some_iff.mp hbreak
        obtain ⟨p, q, hpq, hp⟩ := rfind_eq_some hfind
        have hcut : isCharBoundary content (start + position + 2) = true := by
          obtain ⟨l, r, hcontent, hl, -⟩ := Iff.mp slice_eq_some_iff hwindow
          refine Iff.mpr isCharBoundary_iff ⟨l ++ p ++ ['\n', '\n'], q ++ r, ?_, ?_⟩
          · rw [hcontent, hpq]
            simp
          · simp only [byteLen_append, hl, hp]
            rfl
        have hinside : position + 2 ≤ byteLen window := by
          have htwo : byteLen ['\n', '\n'] = 2 := rfl
          rw [hpq, byteLen_append, byteLen_append, hp, htwo]
          omega
        have hfloor' : byteLen window / 2 ≤ position := by simpa using hfloor
        refine ⟨start + position + 2, ?_, hcut, by omega, by omega, by omega⟩
        simp only [windowEnd, ← hhardEnd, hmax, if_pos hfull, hwindow, Option.map_some,
          hbreak, Option.elim_some, charBoundaryAtOrBefore_of_boundary hcut]
  · have hend : hardEnd = byteLen content :=
      le_antisymm (le_byteLen_of_isCharBoundary hhard) (not_lt.mp hfull)
    refine ⟨hardEnd, ?_, hhard, hgt, hhardLe, Or.inl hend⟩
    simp only [windowEnd, ← hhardEnd, hmax, if_neg hfull]

/-- The next window starts later and leaves no gap; it overlaps the window by
the overlap and at most three bytes more. -/
theorem windowNext_spec (overlap : ℕ) {start stop : ℕ}
    (hstop : isCharBoundary content stop = true) (hlt : start < stop) :
    isCharBoundary content (windowNext content overlap start stop) = true ∧
      start < windowNext content overlap start stop ∧
      windowNext content overlap start stop ≤ stop ∧
      stop ≤ windowNext content overlap start stop + (overlap + 3) := by
  obtain ⟨hboundary, hle, -⟩ := charBoundaryAtOrBefore_spec content (stop - overlap)
  have hnear := le_charBoundaryAtOrBefore_add content (o := stop - overlap)
    ((Nat.sub_le _ _).trans (le_byteLen_of_isCharBoundary hstop))
  rw [windowNext]
  split_ifs with hstuck
  · rw [nextCharBoundary_of_boundary hstop]
    exact ⟨hstop, hlt, le_rfl, by omega⟩
  · exact ⟨hboundary, by omega, by omega, by omega⟩

/-! ## All windows -/

/-- The windows the loop of `bounded_ranges` cuts from `start` on. -/
def windows (content : List Char) (policy : ChunkingPolicy) : ℕ → ℕ → Option (List (ℕ × ℕ))
  | 0, _ => none
  | rounds + 1, start =>
      if start < byteLen content then
        (windowEnd content policy.target start).bind fun stop ↦
          if stop = byteLen content then some [(start, stop)]
          else
            (windows content policy rounds (windowNext content policy.overlap start stop)).map
              fun rest ↦ (start, stop) :: rest
      else some []

/-- What every window satisfies on its own. -/
structure WindowOk (content : List Char) (policy : ChunkingPolicy) (w : ℕ × ℕ) : Prop where
  start_boundary : isCharBoundary content w.1 = true
  stop_boundary : isCharBoundary content w.2 = true
  nonempty : w.1 < w.2
  bounded : w.2 ≤ w.1 + policy.target

/-- With room for every character in the target the windows exist, and they
form a chain from the start to the end of the text. -/
theorem windows_spec {policy : ChunkingPolicy} (hfits : policy.Fits content) (rounds : ℕ) :
    ∀ start, isCharBoundary content start = true → byteLen content < start + rounds →
      ∃ ws, windows content policy rounds start = some ws ∧
        Chain start (byteLen content) ws ∧ ∀ w ∈ ws, WindowOk content policy w := by
  induction rounds with
  | zero =>
      intro start hstart hrounds
      have := le_byteLen_of_isCharBoundary hstart
      omega
  | succ rounds ih =>
      intro start hstart hrounds
      by_cases hlt : start < byteLen content
      · obtain ⟨stop, hend, hstop, hgt, hle, -⟩ := windowEnd_spec hfits hstart hlt
        have hok : WindowOk content policy (start, stop) := ⟨hstart, hstop, hgt, hle⟩
        by_cases hlast : stop = byteLen content
        · refine ⟨[(start, stop)], ?_, ?_, by simpa using hok⟩
          · simp [windows, hlt, hend, hlast]
          · exact hlast ▸ .cons hgt.le le_rfl le_rfl (.nil stop)
        · obtain ⟨hnext, hprogress, hgapless, -⟩ :=
            windowNext_spec policy.overlap hstop hgt
          obtain ⟨ws, hws, hchain, hall⟩ := ih _ hnext (by omega)
          refine ⟨(start, stop) :: ws, ?_, ?_, ?_⟩
          · simp [windows, hlt, hend, hlast, hws]
          · exact .cons hprogress.le hgapless (le_byteLen_of_isCharBoundary hstop) hchain
          · intro w hw
            rcases List.mem_cons.mp hw with rfl | hw
            · exact hok
            · exact hall w hw
      · have hstart' : start = byteLen content :=
          le_antisymm (le_byteLen_of_isCharBoundary hstart) (not_lt.mp hlt)
        exact ⟨[], by simp [windows, hlt], hstart' ▸ .nil start, by simp⟩

/-- More rounds do not change the windows. -/
theorem windows_mono {policy : ChunkingPolicy} {rounds more start : ℕ}
    {ws : List (ℕ × ℕ)} (h : windows content policy rounds start = some ws)
    (hle : rounds ≤ more) : windows content policy more start = some ws := by
  induction rounds generalizing more start ws with
  | zero => simp [windows] at h
  | succ rounds ih =>
      obtain ⟨more, rfl⟩ : ∃ m, more = m + 1 := ⟨more - 1, by omega⟩
      rw [windows] at h ⊢
      split_ifs at h ⊢ with hlt
      · obtain ⟨stop, hend, h⟩ := Option.bind_eq_some_iff.mp h
        rw [hend, Option.bind_some]
        split_ifs at h ⊢ with hlast
        · exact h
        · obtain ⟨rest, hrest, rfl⟩ := Option.map_eq_some_iff.mp h
          rw [ih hrest (by omega), Option.map_some]
      · exact h

/-- More rounds do not change the outcome of the loop. -/
theorem boundedRangesLoop_mono {sha256 : List Char → String} {policy : ChunkingPolicy}
    {strategy : ChunkStrategy} {rounds more start : ℕ} {output chunks : List ChunkSpec}
    (h : boundedRangesLoop sha256 content policy strategy rounds start output = some chunks)
    (hle : rounds ≤ more) :
    boundedRangesLoop sha256 content policy strategy more start output = some chunks := by
  induction rounds generalizing more start output with
  | zero => simp [boundedRangesLoop] at h
  | succ rounds ih =>
      obtain ⟨more, rfl⟩ : ∃ m, more = m + 1 := ⟨more - 1, by omega⟩
      rw [boundedRangesLoop] at h ⊢
      split_ifs at h ⊢ with hlt
      · obtain ⟨stop, hend, h⟩ := Option.bind_eq_some_iff.mp h
        obtain ⟨chunk, hchunk, h⟩ := Option.bind_eq_some_iff.mp h
        rw [hend, Option.bind_some, hchunk, Option.bind_some]
        split_ifs at h ⊢ with hlast
        · exact h
        · exact ih h (by omega)
      · exact h

/-! ## From windows to chunks -/

/-- The place and the trimmed text of a window that is not blank. -/
def windowSite (content : List Char) (w : ℕ × ℕ) : Option (ℕ × List Char) :=
  let window := (slice content w.1 w.2).getD []
  let text := trim window
  if text = [] then none else some (w.1 + (find text window).getD 0, text)

/-- The place of a chunk: where its text starts, and the text. -/
def ChunkSpec.site (chunk : ChunkSpec) : ℕ × List Char := (chunk.startByte, chunk.content)

/-- The key `bounded_ranges` gives to the chunk at a place. -/
def siteKey (sha256 : List Char → String) (strategy : ChunkStrategy)
    (site : ℕ × List Char) : String :=
  sha256 (chunkKeyText strategy site.1 (site.1 + byteLen site.2) site.2)

/-- What every chunk of `bounded_ranges` satisfies on its own. -/
structure ChunkOk (sha256 : List Char → String) (strategy : ChunkStrategy)
    (chunk : ChunkSpec) : Prop where
  key_eq : chunk.key = siteKey sha256 strategy chunk.site
  endByte_eq : chunk.endByte = chunk.startByte + byteLen chunk.content
  strategy_eq : chunk.strategy = strategy

theorem windowChunk_eq (sha256 : List Char → String) (strategy : ChunkStrategy)
    {policy : ChunkingPolicy} {w : ℕ × ℕ} (hw : WindowOk content policy w) (ordinal : ℕ) :
    ∃ chunk, windowChunk sha256 strategy content w.1 w.2 ordinal = some chunk ∧
      chunk.map ChunkSpec.site = windowSite content w ∧
      ∀ c ∈ chunk, ChunkOk sha256 strategy c := by
  obtain ⟨window, hwindow⟩ :=
    slice_isSome_of_boundaries hw.start_boundary hw.stop_boundary hw.nonempty.le
  rw [windowChunk, hwindow, Option.map_some]
  refine ⟨_, rfl, ?_, ?_⟩
  · simp only [windowSite, hwindow, Option.getD_some]
    split_ifs <;> rfl
  · intro c hc
    by_cases hblank : trim window = []
    · simp [hblank] at hc
    · simp only [if_neg hblank, Option.mem_def, Option.some.injEq] at hc
      subst hc
      exact ⟨rfl, rfl, rfl⟩

/-- The loop appends one chunk for every window that is not blank. -/
theorem boundedRangesLoop_eq (sha256 : List Char → String) (policy : ChunkingPolicy)
    (strategy : ChunkStrategy) {rounds start : ℕ} {ws : List (ℕ × ℕ)}
    (hws : windows content policy rounds start = some ws)
    (hok : ∀ w ∈ ws, WindowOk content policy w) (output : List ChunkSpec) :
    ∃ chunks,
      boundedRangesLoop sha256 content policy strategy rounds start output =
        some (output ++ chunks) ∧
      chunks.map ChunkSpec.site = ws.filterMap (windowSite content) ∧
      ∀ c ∈ chunks, ChunkOk sha256 strategy c := by
  induction rounds generalizing start ws output with
  | zero => simp [windows] at hws
  | succ rounds ih =>
      rw [windows] at hws
      rw [boundedRangesLoop]
      split_ifs at hws ⊢ with hlt
      · obtain ⟨stop, hend, hrest⟩ := Option.bind_eq_some_iff.mp hws
        rw [hend, Option.bind_some]
        -- in both cases the window `start..stop` is the first one of `ws`
        have hfirst : ∃ rest, ws = (start, stop) :: rest := by
          split_ifs at hrest
          · exact ⟨[], (Option.some.inj hrest).symm⟩
          · obtain ⟨rest, -, rfl⟩ := Option.map_eq_some_iff.mp hrest
            exact ⟨rest, rfl⟩
        obtain ⟨rest, rfl⟩ := hfirst
        obtain ⟨chunk, hchunk, hsite, hwell⟩ :=
          windowChunk_eq sha256 strategy (hok _ List.mem_cons_self) output.length
        rw [hchunk, Option.bind_some]
        have hsites : (chunk.toList.map ChunkSpec.site) ++ rest.filterMap (windowSite content) =
            ((start, stop) :: rest).filterMap (windowSite content) := by
          rw [List.filterMap_cons, ← hsite]
          cases chunk <;> rfl
        have hwell' : ∀ c ∈ chunk.toList, ChunkOk sha256 strategy c := fun c hc ↦
          hwell c (Option.mem_toList.mp hc)
        split_ifs at hrest ⊢ with hlast
        · obtain rfl : rest = [] := by simpa using (Option.some.inj hrest).symm
          exact ⟨chunk.toList, rfl, by simpa using hsites, hwell'⟩
        · obtain ⟨rest', hrest', heq⟩ := Option.map_eq_some_iff.mp hrest
          obtain rfl : rest' = rest := by simpa using heq
          obtain ⟨chunks, hloop, hmap, hall⟩ := ih hrest'
            (fun w hw ↦ hok w (List.mem_cons_of_mem _ hw)) (output ++ chunk.toList)
          refine ⟨chunk.toList ++ chunks, by simpa using hloop, ?_, ?_⟩
          · rw [List.map_append, hmap, hsites]
          · intro c hc
            exact (List.mem_append.mp hc).elim (hwell' c) (hall c)
      · obtain rfl : ws = [] := (Option.some.inj hws).symm
        exact ⟨[], by simp, rfl, by simp⟩

/-- The places of the chunks of one text. -/
def textSites (policy : ChunkingPolicy) (content : List Char) : List (ℕ × List Char) :=
  ((windows content policy (byteLen content + 1) 0).getD []).filterMap (windowSite content)

/-- The windows of one text, with as many rounds as it has bytes and one more. -/
theorem windows_whole {policy : ChunkingPolicy} (hfits : policy.Fits content) :
    ∃ ws, windows content policy (byteLen content + 1) 0 = some ws ∧
      textSites policy content = ws.filterMap (windowSite content) ∧
      Chain 0 (byteLen content) ws ∧ ∀ w ∈ ws, WindowOk content policy w := by
  obtain ⟨ws, hws, hchain, hok⟩ := windows_spec hfits (byteLen content + 1) 0
    (isCharBoundary_zero content) (by omega)
  exact ⟨ws, hws, by rw [textSites, hws, Option.getD_some], hchain, hok⟩

/-- The bounded splitter in terms of the places of its chunks. -/
theorem boundedRanges_eq (sha256 : List Char → String) {policy : ChunkingPolicy}
    (hfits : policy.Fits content) (strategy : ChunkStrategy) {rounds : ℕ}
    (hrounds : byteLen content < rounds) :
    ∃ chunks, boundedRanges sha256 rounds content policy strategy = some chunks ∧
      chunks.map ChunkSpec.site = textSites policy content ∧
      ∀ c ∈ chunks, ChunkOk sha256 strategy c := by
  obtain ⟨ws, hws, hsites, -, hok⟩ := windows_whole hfits
  obtain ⟨chunks, hloop, hmap, hall⟩ :=
    boundedRangesLoop_eq sha256 policy strategy (windows_mono hws hrounds) hok []
  exact ⟨chunks, by simpa [boundedRanges] using hloop, hmap.trans hsites.symm, hall⟩

end Cortana
