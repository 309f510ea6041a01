import Cortana.Chunking.Spans

/-!
# When chunk keys identify chunks

A key is the hash of a chunk's strategy, its span and its text, but the span
is the one relative to the section the chunk was cut from.  With a hash that
never collides, two chunks share a key exactly in two situations: two
sections show the same text at the same distance from their start, or all
that two consecutive windows of one section contain, white space apart, lies
in their overlap.
-/

namespace Cortana

open ByteText OffsetRange

variable {content : List Char} {policy : ChunkingPolicy}

/-! ## The hashed text determines the place -/

/-- Without collisions of the hash, chunks of one strategy with the same key
were cut at the same relative place. -/
theorem siteKey_injective {sha256 : List Char → String} (hinj : Function.Injective sha256)
    (strategy : ChunkStrategy) : Function.Injective (siteKey sha256 strategy) := by
  intro s t h
  have htext := hinj h
  simp only [chunkKeyText] at htext
  have hspan := List.append_cancel_left htext
  simp only [List.cons.injEq, true_and] at hspan
  obtain ⟨hstart, hrest⟩ := append_cons_inj_of_notMem (notMem_toDigits (by decide) _)
    (notMem_toDigits (by decide) _) hspan
  obtain ⟨-, hcontent⟩ := append_cons_inj_of_notMem (notMem_toDigits (by decide) _)
    (notMem_toDigits (by decide) _) hrest
  exact Prod.ext (toDigits_injective hstart) hcontent

/-! ## Windows that show the same text -/

/-- Everything of the window that is not white space lies in the span `a..b`,
which is part of the window. -/
structure WordsWithin (content : List Char) (w : ℕ × ℕ) (a b : ℕ) : Prop where
  start_le : w.1 ≤ a
  le_stop : b ≤ w.2
  inside : ∀ o c, charAt content o = some c → isWhitespace c = false → w.1 ≤ o → o < w.2 →
    a ≤ o ∧ o < b

/-- A window of `x` and a window of `y` contain the same text at the same
offsets and, white space apart, nothing else. -/
def SameText (x y : List Char) (v w : ℕ × ℕ) : Prop :=
  ∃ a b text, slice x a b = some text ∧ slice y a b = some text ∧
    WordsWithin x v a b ∧ WordsWithin y w a b ∧ ∃ c ∈ text, isWhitespace c = false

theorem SiteOf.last_char {w : ℕ × ℕ} {site : ℕ × List Char} (h : SiteOf content w site) :
    ∃ o c, charAt content o = some c ∧ isWhitespace c = false ∧ site.1 ≤ o ∧
      o + c.utf8Size = site.1 + byteLen site.2 := by
  have hlast : site.2.dropLast ++ [site.2.getLast h.nonempty] = site.2 :=
    List.dropLast_append_getLast h.nonempty
  have hat : charAt site.2 (byteLen site.2.dropLast) = some (site.2.getLast h.nonempty) :=
    Iff.mpr charAt_eq_some_iff ⟨site.2.dropLast, [], hlast.symm, rfl⟩
  refine ⟨_, _, charAt_of_slice h.exact hat, ?_, Nat.le_add_right _ _, ?_⟩
  · exact h.trimmed.2 _ (List.getLast_mem_getLast? h.nonempty)
  · have hlen := congrArg byteLen hlast
    rw [byteLen_append, byteLen_cons, byteLen_nil] at hlen
    omega

theorem SiteOf.wordsWithin {w : ℕ × ℕ} {site : ℕ × List Char} (h : SiteOf content w site) :
    WordsWithin content w site.1 (site.1 + byteLen site.2) := by
  refine ⟨h.start_le, h.le_stop, fun o c hc hword hlo hhi ↦ ?_⟩
  obtain ⟨hstart, hstop⟩ := h.covers o c hc hword hlo hhi
  have hpos := c.utf8Size_pos
  exact ⟨hstart, by omega⟩

/-- The text of a window is cut out of any span that has all its words. -/
theorem SiteOf.within {w : ℕ × ℕ} {site : ℕ × List Char} (h : SiteOf content w site)
    {a b : ℕ} {text : List Char} (htext : slice content a b = some text)
    (hwords : WordsWithin content w a b) :
    a ≤ site.1 ∧ site.1 + byteLen site.2 ≤ b ∧
      slice text (site.1 - a) (site.1 + byteLen site.2 - a) = some site.2 := by
  have hstart := h.start_le
  have hstop := h.le_stop
  have hlen := byteLen_pos h.nonempty
  obtain ⟨c, hc, hword⟩ := h.first_char
  have hfirst := (hwords.inside _ c hc hword hstart (by omega)).1
  obtain ⟨o, d, hd, hdword, hge, hend⟩ := h.last_char
  have hpos := d.utf8Size_pos
  have ho := hwords.inside o d hd hdword (by omega) (by omega)
  have hlast := (charAt_slice htext hd ho.1 ho.2).2
  rw [hend] at hlast
  exact ⟨hfirst, hlast, slice_within htext h.exact hfirst hlast⟩

theorem SiteOf.eq_of_sameText {x y : List Char} {v w : ℕ × ℕ} {s t : ℕ × List Char}
    (hs : SiteOf x v s) (ht : SiteOf y w t) (h : SameText x y v w) : s.1 = t.1 ∧
      s.1 + byteLen s.2 = t.1 + byteLen t.2 := by
  obtain ⟨a, b, text, hx, hy, hv, hw, -⟩ := h
  obtain ⟨hsa, hsb, hsin⟩ := hs.within hx hv
  obtain ⟨hta, htb, htin⟩ := ht.within hy hw
  have hvstart := hv.start_le
  have hvstop := hv.le_stop
  have hwstart := hw.start_le
  have hwstop := hw.le_stop
  have hspos := byteLen_pos hs.nonempty
  have htpos := byteLen_pos ht.nonempty
  -- a word of one window is a word of the other, at the same offset
  have htransfer : ∀ {x y : List Char}, slice x a b = some text → slice y a b = some text →
      ∀ o c, charAt x o = some c → a ≤ o → o < b → charAt y o = some c := by
    intro x y hx hy o c hc hlo hhi
    have hin := charAt_of_slice hy (charAt_slice hx hc hlo hhi).1
    rwa [Nat.add_sub_cancel' hlo] at hin
  obtain ⟨c, hc, hcword⟩ := hs.first_char
  have hc' := htransfer hx hy s.1 c hc hsa (by omega)
  have hts := (ht.covers s.1 c hc' hcword (by omega) (by omega)).1
  obtain ⟨d, hd, hdword⟩ := ht.first_char
  have hd' := htransfer hy hx t.1 d hd hta (by omega)
  have hst := (hs.covers t.1 d hd' hdword (by omega) (by omega)).1
  obtain ⟨o, e, he, heword, hoge, hoend⟩ := hs.last_char
  have hepos := e.utf8Size_pos
  have he' := htransfer hx hy o e he (by omega) (by omega)
  have hset := (ht.covers o e he' heword (by omega) (by omega)).2
  obtain ⟨p, f, hf, hfword, hpge, hpend⟩ := ht.last_char
  have hfpos := f.utf8Size_pos
  have hf' := htransfer hy hx p f hf (by omega) (by omega)
  have htes := (hs.covers p f hf' hfword (by omega) (by omega)).2
  omega

/-- Two windows give the same place exactly when they show the same text. -/
theorem same_site_iff_sameText {x y : List Char} {v w : ℕ × ℕ} (hv : WindowOk x policy v)
    (hw : WindowOk y policy w) :
    (∃ s, windowSite x v = some s ∧ windowSite y w = some s) ↔ SameText x y v w := by
  constructor
  · rintro ⟨s, hsv, hsw⟩
    have sv := windowSite_some hv hsv
    have sw := windowSite_some hw hsw
    obtain ⟨c, hc, hword⟩ := sv.first_char
    obtain ⟨d, t, hdt⟩ := List.exists_cons_of_ne_nil sv.nonempty
    exact ⟨s.1, s.1 + byteLen s.2, s.2, sv.exact, sw.exact, sv.wordsWithin, sw.wordsWithin,
      d, by simp [hdt], sv.trimmed.1 d (by simp [hdt])⟩
  · intro hsame
    obtain ⟨a, b, text, hx, hy, hxv, hyw, c, hc, hword⟩ := id hsame
    obtain ⟨l, r, hlr⟩ := List.append_of_mem hc
    have hat : charAt text (byteLen l) = some c := Iff.mpr charAt_eq_some_iff ⟨l, r, hlr, rfl⟩
    have hlt := lt_byteLen_of_charAt hat
    have hlen := (slice_boundaries hx).2.2
    -- neither window is blank
    have hsome : ∀ {z : List Char} {u : ℕ × ℕ}, WindowOk z policy u → slice z a b = some text →
        WordsWithin z u a b → ∃ s, windowSite z u = some s := by
      intro z u hu hz hwords
      have hstart := hwords.start_le
      have hstop := hwords.le_stop
      cases hsite : windowSite z u with
      | none =>
          have hblank := windowSite_none hu hsite (charAt_of_slice hz hat) (by omega) (by omega)
          simp [hblank] at hword
      | some s => exact ⟨s, rfl⟩
    obtain ⟨s, hs⟩ := hsome hv hx hxv
    obtain ⟨t, ht⟩ := hsome hw hy hyw
    have sv := windowSite_some hv hs
    have tw := windowSite_some hw ht
    obtain ⟨hfirst, hlast⟩ := sv.eq_of_sameText tw hsame
    have hst := (sv.within hx hxv).2.2
    rw [hlast, hfirst] at hst
    have htext : s.2 = t.2 := Option.some.inj (hst.symm.trans (tw.within hy hyw).2.2)
    exact ⟨s, hs, by rw [ht, Prod.ext hfirst htext]⟩

/-! ## Consecutive windows -/

/-- Whatever two windows contain, white space apart, lies in their overlap,
and there is something in it. -/
def IslandInOverlap (content : List Char) (v w : ℕ × ℕ) : Prop :=
  (∀ o c, charAt content o = some c → (v.1 ≤ o ∧ o < w.1) ∨ (v.2 ≤ o ∧ o < w.2) →
    isWhitespace c = true) ∧
  ∃ o c, charAt content o = some c ∧ isWhitespace c = false ∧ w.1 ≤ o ∧ o < v.2

theorem sameText_iff_island {v w : ℕ × ℕ} (hv : WindowOk content policy v)
    (hw : WindowOk content policy w) (hstart : v.1 ≤ w.1) (hstop : v.2 ≤ w.2) :
    SameText content content v w ↔ IslandInOverlap content v w := by
  constructor
  · rintro ⟨a, b, text, htext, -, hvin, hwin, c, hc, hword⟩
    have hwstart := hwin.start_le
    have hvstop := hvin.le_stop
    obtain ⟨l, r, hlr⟩ := List.append_of_mem hc
    have hat : charAt text (byteLen l) = some c := Iff.mpr charAt_eq_some_iff ⟨l, r, hlr, rfl⟩
    have hlt := lt_byteLen_of_charAt hat
    have hlen := (slice_boundaries htext).2.2
    refine ⟨fun o d hd ho ↦ ?_, ?_⟩
    · by_contra hblank
      rw [Bool.not_eq_true] at hblank
      rcases ho with ⟨hlo, hhi⟩ | ⟨hlo, hhi⟩
      · have := (hvin.inside o d hd hblank hlo (by omega)).1
        omega
      · have := (hwin.inside o d hd hblank (by omega) hhi).2
        omega
    · exact ⟨a + byteLen l, c, charAt_of_slice htext hat, hword, by omega, by omega⟩
  · rintro ⟨hblank, o, c, hc, hword, hlo, hhi⟩
    obtain ⟨text, htext⟩ := slice_isSome_of_boundaries hw.start_boundary hv.stop_boundary
      (by omega)
    have hin := (charAt_slice htext hc hlo hhi).1
    refine ⟨w.1, v.2, text, htext, htext, ⟨hstart, le_rfl, ?_⟩, ⟨le_rfl, hstop, ?_⟩,
      c, mem_of_charAt hin, hword⟩
    · intro p d hd hdword hplo hphi
      refine ⟨?_, hphi⟩
      by_contra hlt
      simp [hblank p d hd (Or.inl ⟨hplo, by omega⟩)] at hdword
    · intro p d hd hdword hplo hphi
      refine ⟨hplo, ?_⟩
      by_contra hge
      simp [hblank p d hd (Or.inr ⟨by omega, hphi⟩)] at hdword

/-! ## All windows of a text -/

/-- Only neighbours overlap: a window ends before the one after the next
begins, and neighbours are in order at both ends. -/
def Spaced : List (ℕ × ℕ) → Prop
  | v :: w :: rest => v.1 ≤ w.1 ∧ v.2 ≤ w.2 ∧ (∀ x ∈ rest, v.2 ≤ x.1) ∧ Spaced (w :: rest)
  | _ => True

/-- The overlap is small against the target: two overlaps fit into the
shortest window. -/
def ChunkingPolicy.SmallOverlap (policy : ChunkingPolicy) : Prop :=
  2 * (policy.overlap + 3) ≤ (policy.target - 3) / 2

theorem windows_spaced (hsmall : policy.SmallOverlap) (rounds : ℕ) :
    ∀ {start : ℕ} {ws : List (ℕ × ℕ)}, isCharBoundary content start = true →
      windows content policy rounds start = some ws →
      Spaced ws ∧ (∀ w ∈ ws.head?, w.1 = start ∧
        (w.2 = byteLen content ∨ start + (policy.target - 3) / 2 ≤ w.2)) ∧
      ∀ w ∈ ws.tail, start + (policy.overlap + 3) ≤ w.1 := by
  have htarget : 4 ≤ policy.target := by
    unfold ChunkingPolicy.SmallOverlap at hsmall
    omega
  unfold ChunkingPolicy.SmallOverlap at hsmall
  induction rounds with
  | zero => simp [windows]
  | succ rounds ih =>
      intro start ws hstart hws
      rw [windows] at hws
      split_ifs at hws with hlt
      · obtain ⟨stop, hend, hstop, hgt, -, hlong⟩ := windowEnd_spec (fits_of_four_le htarget content) hstart hlt
        rw [hend, Option.bind_some] at hws
        split_ifs at hws with hlast
        · obtain rfl := Option.some.inj hws
          exact ⟨trivial, by simp [hlast], by simp⟩
        · obtain ⟨rest, hrest, rfl⟩ := Option.map_eq_some_iff.mp hws
          obtain ⟨hnext, hprogress, -, hback⟩ :=
            windowNext_spec policy.overlap hstop hgt
          obtain ⟨hspaced, hhead, htail⟩ := ih hnext hrest
          have hlong' : start + (policy.target - 3) / 2 ≤ stop := hlong.resolve_left hlast
          have hstopLe := le_byteLen_of_isCharBoundary hstop
          refine ⟨?_, by simp [hlong'], ?_⟩
          · cases rest with
            | nil => trivial
            | cons w rest =>
                obtain ⟨hw, hwlong⟩ := hhead w rfl
                refine ⟨by simp only; omega, by simp only; omega, fun x hx ↦ ?_, hspaced⟩
                have := htail x hx
                simp only
                omega
          · intro w hw
            cases rest with
            | nil => simp at hw
            | cons x rest =>
                rcases List.mem_cons.mp hw with rfl | hw
                · obtain ⟨hw, -⟩ := hhead w rfl
                  omega
                · have := htail w hw
                  omega
      · obtain rfl := Option.some.inj hws
        exact ⟨trivial, by simp, by simp⟩

/-- No two consecutive windows see the same text in their overlap. -/
def NoIsland (content : List Char) : List (ℕ × ℕ) → Prop
  | v :: w :: rest => ¬ IslandInOverlap content v w ∧ NoIsland content (w :: rest)
  | _ => True

theorem pairwise_windows_iff {ws : List (ℕ × ℕ)} (hok : ∀ w ∈ ws, WindowOk content policy w)
    (hspaced : Spaced ws) :
    ws.Pairwise (fun v w ↦ ¬ ∃ s, windowSite content v = some s ∧ windowSite content w = some s) ↔
      NoIsland content ws := by
  induction ws with
  | nil => simp [NoIsland]
  | cons v ws ih =>
      cases ws with
      | nil => simp [NoIsland]
      | cons w rest =>
          obtain ⟨hstart, hstop, hfar, hspaced'⟩ := hspaced
          have hokv := hok v List.mem_cons_self
          have hokrest : ∀ x ∈ w :: rest, WindowOk content policy x := fun x hx ↦
            hok x (List.mem_cons_of_mem _ hx)
          rw [List.pairwise_cons, List.forall_mem_cons, NoIsland,
            ← sameText_iff_island hokv (hokrest w List.mem_cons_self) hstart hstop,
            ← same_site_iff_sameText hokv (hokrest w List.mem_cons_self),
            ← ih hokrest hspaced']
          constructor
          · rintro ⟨⟨hvw, -⟩, hrest⟩
            exact ⟨hvw, hrest⟩
          · rintro ⟨hvw, hrest⟩
            refine ⟨⟨hvw, fun x hx ↦ ?_⟩, hrest⟩
            rintro ⟨s, hsv, hsx⟩
            have sv := windowSite_some hokv hsv
            have sx := windowSite_some (hokrest x (List.mem_cons_of_mem _ hx)) hsx
            have hgap := hfar x hx
            have hstart' := sx.start_le
            have hstop' := sv.le_stop
            have hpos := byteLen_pos sv.nonempty
            omega

theorem nodup_sites_iff {ws : List (ℕ × ℕ)} (hok : ∀ w ∈ ws, WindowOk content policy w)
    (hspaced : Spaced ws) :
    (ws.filterMap (windowSite content)).Nodup ↔ NoIsland content ws := by
  rw [← pairwise_windows_iff hok hspaced, List.Nodup, List.pairwise_filterMap]
  refine iff_of_eq (congrArg (fun R ↦ List.Pairwise R ws) ?_)
  funext v w
  simp only [eq_iff_iff]
  constructor
  · rintro h ⟨s, hv, hw⟩
    exact h s hv s hw rfl
  · rintro h s hv t hw rfl
    exact h ⟨s, hv, hw⟩

/-! ## The keys of a document -/

/-- The windows of one of the consecutive ranges, relative to its start. -/
def rangeWindows (policy : ChunkingPolicy) (content : List Char) (r : ℕ × ℕ) : List (ℕ × ℕ) :=
  let piece := (slice content r.1 r.2).getD []
  (windows piece policy (byteLen piece + 1) 0).getD []

/-- What keeps the keys of a document apart: no two sections show the same
text at the same distance from their start, and no two consecutive windows of
one section show only what lies in their overlap. -/
structure DistinctTexts (policy : ChunkingPolicy) (content : List Char)
    (ranges : List (ℕ × ℕ)) : Prop where
  sections : ranges.Pairwise fun r r' ↦
    ∀ v ∈ rangeWindows policy content r, ∀ w ∈ rangeWindows policy content r',
      ¬ SameText ((slice content r.1 r.2).getD []) ((slice content r'.1 r'.2).getD []) v w
  overlaps : ∀ r ∈ ranges,
    NoIsland ((slice content r.1 r.2).getD []) (rangeWindows policy content r)

theorem rangeWindows_spec (hsmall : policy.SmallOverlap) (content : List Char) (r : ℕ × ℕ) :
    rangeSites policy content r = (rangeWindows policy content r).filterMap
        (windowSite ((slice content r.1 r.2).getD [])) ∧
      (∀ w ∈ rangeWindows policy content r,
        WindowOk ((slice content r.1 r.2).getD []) policy w) ∧
      Spaced (rangeWindows policy content r) := by
  have htarget : 4 ≤ policy.target := by
    unfold ChunkingPolicy.SmallOverlap at hsmall
    omega
  obtain ⟨ws, hws, hsites, -, hok⟩ :=
    windows_whole (fits_of_four_le htarget ((slice content r.1 r.2).getD []))
  have heq : rangeWindows policy content r = ws := by
    simp only [rangeWindows, hws, Option.getD_some]
  rw [heq]
  exact ⟨hsites, hok, (windows_spaced hsmall _ (isCharBoundary_zero _) hws).1⟩

theorem nodup_rangeSites_iff (hsmall : policy.SmallOverlap) (content : List Char)
    (ranges : List (ℕ × ℕ)) :
    (ranges.flatMap (rangeSites policy content)).Nodup ↔
      DistinctTexts policy content ranges := by
  have hspec := rangeWindows_spec hsmall content
  have hinside : (∀ r ∈ ranges, (rangeSites policy content r).Nodup) ↔ ∀ r ∈ ranges,
      NoIsland ((slice content r.1 r.2).getD []) (rangeWindows policy content r) := by
    refine forall₂_congr fun r _ ↦ ?_
    rw [(hspec r).1]
    exact nodup_sites_iff (hspec r).2.1 (hspec r).2.2
  have hacross : ∀ r r', (rangeSites policy content r).Disjoint (rangeSites policy content r') ↔
      ∀ v ∈ rangeWindows policy content r, ∀ w ∈ rangeWindows policy content r',
        ¬ SameText ((slice content r.1 r.2).getD []) ((slice content r'.1 r'.2).getD []) v w := by
    intro r r'
    obtain ⟨hr, hrok, -⟩ := hspec r
    obtain ⟨hr', hrok', -⟩ := hspec r'
    constructor
    · intro hdisjoint v hv w hw hsame
      obtain ⟨s, hs, hs'⟩ := (same_site_iff_sameText (hrok v hv) (hrok' w hw)).mpr hsame
      exact hdisjoint (hr ▸ List.mem_filterMap.mpr ⟨v, hv, hs⟩)
        (hr' ▸ List.mem_filterMap.mpr ⟨w, hw, hs'⟩)
    · intro hnone s hs hs'
      rw [hr] at hs
      rw [hr'] at hs'
      obtain ⟨v, hv, hsv⟩ := List.mem_filterMap.mp hs
      obtain ⟨w, hw, hsw⟩ := List.mem_filterMap.mp hs'
      exact hnone v hv w hw
        ((same_site_iff_sameText (hrok v hv) (hrok' w hw)).mp ⟨s, hsv, hsw⟩)
  rw [List.nodup_flatMap, hinside]
  constructor
  · rintro ⟨hoverlaps, hsections⟩
    exact ⟨hsections.imp (fun {r r'} h ↦ (hacross r r').mp h), hoverlaps⟩
  · rintro ⟨hsections, hoverlaps⟩
    exact ⟨hoverlaps, hsections.imp (fun {r r'} h ↦ (hacross r r').mpr h)⟩

/-- With a hash that never collides, the keys of a document's chunks are
pairwise distinct exactly when its sections show distinct texts. -/
theorem chunkDocument_keys_nodup_iff {sha256 : List Char → String}
    (hinj : Function.Injective sha256) (parse : Document → ParsedSymbols)
    (document : Document) (hsymbols : SymbolsOnBoundaries parse document) :
    ∃ chunks, (∀ rounds, byteLen document.content.toList < rounds →
        chunkDocument sha256 parse rounds document = some chunks) ∧
      ((chunks.map ChunkSpec.key).Nodup ↔
        DistinctTexts .default document.content.toList (documentRanges parse document)) := by
  obtain ⟨chunks, heq, hspec⟩ := chunkDocument_eq sha256 hsymbols
  refine ⟨linkChunks chunks, heq, ?_⟩
  have hkeys : (linkChunks chunks).map ChunkSpec.key =
      ((documentRanges parse document).flatMap
        (rangeSites .default document.content.toList)).map
          (siteKey sha256 (documentStrategy parse document)) := by
    rw [map_linkChunks ChunkSpec.key (fun _ _ _ _ ↦ rfl), hspec.keys_eq, List.map_flatMap]
  have hsmall : ChunkingPolicy.default.SmallOverlap := by
    unfold ChunkingPolicy.SmallOverlap
    decide
  rw [hkeys, List.nodup_map_iff (siteKey_injective hinj _)]
  exact nodup_rangeSites_iff hsmall _ _

/-- A note with two equal sections. -/
def sampleNote : Document where
  source := "notes"
  sourceId := "daily.md"
  title := "daily"
  content := "# Todo
x
# Todo
x
"
  uri := none
  updatedAt := "2026-01-01T00:00:00+00:00"
  project := "work"
  acl := []
  metadata := .object [("mime_type", .string "text/markdown")]

/-- A parser that reports no symbols. -/
def noSymbols : Document → ParsedSymbols := fun _ ↦ ⟨true, []⟩

theorem chunkDocument_keys_nodup_iff_sampleNote :
    ∃ chunks, (∀ rounds, byteLen sampleNote.content.toList < rounds →
        chunkDocument String.ofList noSymbols rounds sampleNote = some chunks) ∧
      ((chunks.map ChunkSpec.key).Nodup ↔
        DistinctTexts .default sampleNote.content.toList
          (documentRanges noSymbols sampleNote)) :=
  chunkDocument_keys_nodup_iff (fun _ _ heq ↦ String.ofList_injective heq) noSymbols sampleNote
    (by simp [SymbolsOnBoundaries, noSymbols])

/-- The two sections of `sampleNote` get the same key. -/
theorem chunkDocument_keys_collide :
    ¬ ∀ sha256 : List Char → String, Function.Injective sha256 →
      ∀ (parse : Document → ParsedSymbols) (document : Document),
        SymbolsOnBoundaries parse document →
        ∀ rounds chunks, chunkDocument sha256 parse rounds document = some chunks →
          (chunks.map ChunkSpec.key).Nodup := by
  intro h
  have hcollide : ∃ chunks, chunkDocument String.ofList noSymbols 20 sampleNote = some chunks ∧
      ¬ (chunks.map ChunkSpec.key).Nodup := by
    refine ⟨_, rfl, ?_⟩
    decide +kernel
  obtain ⟨chunks, hchunks, hdup⟩ := hcollide
  exact hdup (h String.ofList (fun _ _ heq ↦ String.ofList_injective heq) noSymbols sampleNote
    (by simp [SymbolsOnBoundaries, noSymbols]) 20 chunks hchunks)

end Cortana
