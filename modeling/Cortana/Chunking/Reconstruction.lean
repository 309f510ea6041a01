import Cortana.Chunking.Keys

/-!
# Putting chunks together again

`append_reconstructed_chunk` finds the overlap of a chunk with what precedes it
by comparing texts.  The overlap it finds is never shorter than the one between
the places of the two chunks; where it is longer, text is lost.
-/

namespace Cortana

open ByteText OffsetRange

variable {content : List Char} {policy : ChunkingPolicy}

/-- The longest overlap that is looked for, in bytes. -/
def maxReconstructedOverlap : ℕ := 512

/-- What is pushed between chunks without an overlap. -/
def chunkSeparator : List Char := ['\n', '\n']

/-- The closure of `append_reconstructed_chunk`. -/
def overlapsBy (content chunk : List Char) (size : ℕ) : Bool :=
  isCharBoundary content (byteLen content - size) && isCharBoundary chunk size &&
    slice content (byteLen content - size) (byteLen content) == slice chunk 0 size

/-- `append_reconstructed_chunk`. -/
def appendReconstructedChunk (content chunk : List Char) : List Char :=
  if content = [] then chunk
  else
    let maximum := min (min (byteLen content) (byteLen chunk)) maxReconstructedOverlap
    let overlap := ((List.range' 1 maximum).reverse.find? (overlapsBy content chunk)).getD 0
    content ++ (if overlap = 0 then chunkSeparator else []) ++
      (slice chunk overlap (byteLen chunk)).getD []

/-- The characters that are not white space. -/
def words (s : List Char) : List Char := s.filter fun c ↦ !isWhitespace c

@[simp] theorem words_nil : words [] = [] := rfl

@[simp] theorem words_append (s t : List Char) : words (s ++ t) = words s ++ words t :=
  List.filter_append s t

theorem words_eq_nil_iff {s : List Char} : words s = [] ↔ ∀ c ∈ s, isWhitespace c = true := by
  rw [words, List.filter_eq_nil_iff]
  simp only [Bool.not_eq_true', Bool.not_eq_false]

/-! ## One chunk -/

theorem overlapsBy_iff {content chunk : List Char} {size : ℕ} (hsize : size ≤ byteLen content) :
    overlapsBy content chunk size = true ↔
      ∃ x, byteLen x = size ∧ x <+: chunk ∧ x <:+ content := by
  rw [overlapsBy, Bool.and_eq_true, Bool.and_eq_true, beq_iff_eq]
  constructor
  · rintro ⟨⟨hcontent, hchunk⟩, hslice⟩
    obtain ⟨x, hx⟩ := slice_isSome_of_boundaries (isCharBoundary_zero chunk) hchunk (Nat.zero_le _)
    obtain ⟨before, after, hafter, hbefore, hlen⟩ := Iff.mp slice_eq_some_iff (hslice.trans hx)
    obtain ⟨start, rest, hrest, hstart, hx'⟩ := Iff.mp slice_eq_some_iff hx
    obtain rfl : start = [] := Iff.mp byteLen_eq_zero hstart
    obtain rfl : after = [] := by
      have htotal := congrArg byteLen hafter
      rw [byteLen_append, byteLen_append] at htotal
      apply Iff.mp byteLen_eq_zero
      omega
    refine ⟨x, by omega, ⟨rest, hrest.symm⟩, ⟨before, ?_⟩⟩
    rw [hafter, List.append_nil]
  · rintro ⟨x, rfl, ⟨rest, rfl⟩, ⟨before, rfl⟩⟩
    have hstart : byteLen (before ++ x) - byteLen x = byteLen before := by
      rw [byteLen_append, Nat.add_sub_cancel]
    rw [hstart]
    have hcontent : slice (before ++ x) (byteLen before) (byteLen (before ++ x)) = some x :=
      Iff.mpr slice_eq_some_iff ⟨before, [], by simp, rfl, (byteLen_append _ _).symm⟩
    have hchunk : slice (x ++ rest) 0 (byteLen x) = some x :=
      Iff.mpr slice_eq_some_iff ⟨[], rest, rfl, rfl, by simp⟩
    refine ⟨⟨(slice_boundaries hcontent).1, (slice_boundaries hchunk).2.1⟩, ?_⟩
    rw [hcontent, hchunk]

/-- A search from the greatest size down. -/
theorem find?_reverse_range' (p : ℕ → Bool) (maximum : ℕ) :
    (((List.range' 1 maximum).reverse.find? p).getD 0 = 0 ∨
        p (((List.range' 1 maximum).reverse.find? p).getD 0) = true) ∧
      ((List.range' 1 maximum).reverse.find? p).getD 0 ≤ maximum ∧
      ∀ size, ((List.range' 1 maximum).reverse.find? p).getD 0 < size → size ≤ maximum →
        p size = false := by
  induction maximum with
  | zero => exact ⟨.inl rfl, le_rfl, fun size hpos hle ↦ by omega⟩
  | succ maximum ih =>
      obtain ⟨hfound, hle, hlonger⟩ := ih
      rw [List.range'_1_concat, List.reverse_append, List.reverse_singleton, List.singleton_append,
        List.find?_cons, Nat.add_comm 1 maximum]
      cases hp : p (maximum + 1) with
      | true => exact ⟨.inr hp, le_rfl, fun size hgt hsize ↦ by rw [Option.getD_some] at hgt; omega⟩
      | false =>
          refine ⟨hfound, by simp only; omega, fun size hgt hsize ↦ ?_⟩
          rcases Nat.lt_or_eq_of_le hsize with hlt | rfl
          · exact hlonger size hgt (by omega)
          · exact hp

/-- The longest text of at most 512 bytes that ends the content and begins the
chunk is not repeated. -/
theorem appendReconstructedChunk_spec {content chunk : List Char} (hne : content ≠ []) :
    ∃ x rest, chunk = x ++ rest ∧ x <:+ content ∧ byteLen x ≤ maxReconstructedOverlap ∧
      (∀ y, y <+: chunk → y <:+ content → byteLen y ≤ maxReconstructedOverlap →
        byteLen y ≤ byteLen x) ∧
      appendReconstructedChunk content chunk =
        content ++ (if x = [] then chunkSeparator else []) ++ rest := by
  obtain ⟨hfound, hle, hlonger⟩ := find?_reverse_range' (overlapsBy content chunk)
    (min (min (byteLen content) (byteLen chunk)) maxReconstructedOverlap)
  rw [appendReconstructedChunk, if_neg hne]
  simp only
  set overlap := (((List.range' 1 (min (min (byteLen content) (byteLen chunk))
    maxReconstructedOverlap)).reverse.find? (overlapsBy content chunk)).getD 0) with hoverlap
  have hx : ∃ x, byteLen x = overlap ∧ x <+: chunk ∧ x <:+ content := by
    rcases hfound with hzero | hfound
    · exact ⟨[], hzero.symm, List.nil_prefix, List.nil_suffix⟩
    · exact Iff.mp (overlapsBy_iff (by omega)) hfound
  obtain ⟨x, hlen, ⟨rest, rfl⟩, hsuffix⟩ := hx
  refine ⟨x, rest, rfl, hsuffix, by omega, ?_, ?_⟩
  · intro y hprefix hysuffix hy
    by_contra hlt
    have hcontent : byteLen y ≤ byteLen content := by
      obtain ⟨before, rfl⟩ := hysuffix
      simp
    have hchunk : byteLen y ≤ byteLen (x ++ rest) := by
      obtain ⟨after, hafter⟩ := hprefix
      rw [← hafter]
      simp
    have hnot := hlonger (byteLen y) (by omega) (by omega)
    rw [Iff.mpr (overlapsBy_iff hcontent) ⟨y, rfl, hprefix, hysuffix⟩] at hnot
    cases hnot
  · have hrest : slice (x ++ rest) overlap (byteLen (x ++ rest)) = some rest :=
      Iff.mpr slice_eq_some_iff ⟨x, [], by simp, hlen, by rw [byteLen_append, hlen]⟩
    have hzero : overlap = 0 ↔ x = [] := by rw [← hlen, byteLen_eq_zero]
    rw [hrest, Option.getD_some]
    simp only [hzero]

theorem words_chunkSeparator : words chunkSeparator = [] := by
  decide

theorem words_append_of_trimmed_suffix {x e text content : List Char} (hsuffix : x ++ e <:+ content)
    (htext : text <:+ content) (hne : text ≠ []) (htrimmed : Trimmed text) (he : e ≠ []) :
    words e ≠ [] := by
  obtain ⟨before, hbefore⟩ := hsuffix
  obtain ⟨before', hbefore'⟩ := htext
  have hlast : e.getLast? = text.getLast? := by
    have hcontent : content.getLast? = e.getLast? := by
      rw [← hbefore, ← List.append_assoc, List.getLast?_append_of_ne_nil _ he]
    rw [← hcontent, ← hbefore', List.getLast?_append_of_ne_nil _ hne]
  intro hwords
  have hend := List.getLast?_eq_some_getLast he
  have hword := htrimmed.2 (e.getLast he) (by rw [← hlast, hend]; rfl)
  have hblank := Iff.mp words_eq_nil_iff hwords _ (List.getLast_mem he)
  rw [hword] at hblank
  cases hblank

/-! ## Places that follow each other -/

/-- The place of a chunk is exact, and its text is trimmed. -/
structure SiteAt (content : List Char) (site : ℕ × List Char) : Prop where
  exact : slice content site.1 (site.1 + byteLen site.2) = some site.2
  nonempty : site.2 ≠ []
  trimmed : Trimmed site.2

/-- What comes next begins and ends no earlier, overlaps in at most 512 bytes
and leaves only white space in between. -/
structure NextSite (content : List Char) (s t : ℕ × List Char) : Prop where
  start_le : s.1 ≤ t.1
  stop_le : s.1 + byteLen s.2 ≤ t.1 + byteLen t.2
  overlap_le : s.1 + byteLen s.2 ≤ t.1 + maxReconstructedOverlap
  gap : ∀ o c, charAt content o = some c → s.1 + byteLen s.2 ≤ o → o < t.1 →
    isWhitespace c = true

/-- The places from one on, to the end of the text. -/
inductive SitesFrom (content : List Char) : ℕ × List Char → List (ℕ × List Char) → Prop where
  | last {s : ℕ × List Char} (site : SiteAt content s)
      (rest : ∀ o c, charAt content o = some c → s.1 + byteLen s.2 ≤ o → isWhitespace c = true) :
      SitesFrom content s []
  | next {s t : ℕ × List Char} {rest : List (ℕ × List Char)} (site : SiteAt content s)
      (follows : NextSite content s t) (tail : SitesFrom content t rest) :
      SitesFrom content s (t :: rest)

theorem SitesFrom.siteAt {s : ℕ × List Char} {rest : List (ℕ × List Char)}
    (h : SitesFrom content s rest) : SiteAt content s := by
  cases h with
  | last site _ => exact site
  | next site _ _ => exact site

/-- A chunk after a text that ends at an offset, put there by its place. -/
def appendByPlace (joined : List Char) (stop : ℕ) (t : ℕ × List Char) : List Char :=
  joined ++ (if stop ≤ t.1 then chunkSeparator else []) ++
    (slice t.2 (stop - t.1) (byteLen t.2)).getD []

/-- Nothing longer than the overlap of the places ends a text and begins the
next chunk. -/
def OverlapExact (joined : List Char) (stop : ℕ) (t : ℕ × List Char) : Prop :=
  ∀ x, x <+: t.2 → x <:+ joined → byteLen x ≤ maxReconstructedOverlap → byteLen x ≤ stop - t.1

/-- The overlap of the places is the longest one at every chunk. -/
def OverlapsExact : List Char → ℕ → List (ℕ × List Char) → Prop
  | _, _, [] => True
  | joined, stop, t :: rest =>
      OverlapExact joined stop t ∧
        OverlapsExact (appendByPlace joined stop t) (t.1 + byteLen t.2) rest

/-- The overlap of two places as a text, and what comes after it. -/
theorem NextSite.split {s t : ℕ × List Char} (h : NextSite content s t) (hs : SiteAt content s)
    (ht : SiteAt content t) {p q : List Char} (hcontent : content = p ++ q)
    (hp : byteLen p = s.1 + byteLen s.2) :
    ∃ o beyond p' q', t.2 = o ++ beyond ∧ byteLen o = s.1 + byteLen s.2 - t.1 ∧ o <:+ s.2 ∧
      content = p' ++ q' ∧ byteLen p' = t.1 + byteLen t.2 ∧ words p' = words p ++ words beyond := by
  obtain ⟨ps, qs, hps, hslen, -⟩ := Iff.mp slice_eq_some_iff hs.exact
  obtain ⟨pt, qt, hpt, htlen, -⟩ := Iff.mp slice_eq_some_iff ht.exact
  have hp' : byteLen (pt ++ t.2) = t.1 + byteLen t.2 := by rw [byteLen_append, htlen]
  obtain ⟨rfl, rfl⟩ := append_inj_of_byteLen_eq (hcontent.symm.trans hps) (by
    rw [hp, byteLen_append, hslen])
  by_cases hgap : s.1 + byteLen s.2 ≤ t.1
  · -- the chunks are apart
    have hends : (ps ++ s.2) ++ q = pt ++ (t.2 ++ qt) := by rw [← hps, hpt, List.append_assoc]
    obtain ⟨gap, hpt', hq⟩ := exists_append_of_byteLen_le hends (by rw [hp, htlen]; exact hgap)
    refine ⟨[], t.2, pt ++ t.2, qt, rfl, ?_, List.nil_suffix, hpt, hp', ?_⟩
    · rw [byteLen_nil]
      omega
    · have hblank : words gap = [] := by
        refine Iff.mpr words_eq_nil_iff fun c hc ↦ ?_
        obtain ⟨l, r, rfl⟩ := List.append_of_mem hc
        have hat : charAt content (byteLen (ps ++ s.2 ++ l)) = some c :=
          Iff.mpr charAt_eq_some_iff ⟨_, r ++ (t.2 ++ qt), by rw [hps, hq]; simp, rfl⟩
        refine h.gap _ c hat ?_ ?_
        · rw [byteLen_append, hp]
          exact Nat.le_add_right _ _
        · have hpos := c.utf8Size_pos
          rw [← htlen, hpt', byteLen_append _ l, byteLen_append, byteLen_append (ps ++ s.2),
            byteLen_append ps, byteLen_append l, byteLen_cons]
          omega
      rw [hpt', words_append, words_append, hblank, List.append_nil]
  · -- the second begins inside the first
    have hstart := h.start_le
    have hstop := h.stop_le
    have hends : pt ++ (t.2 ++ qt) = (ps ++ s.2) ++ q := by rw [← hps, hpt, List.append_assoc]
    obtain ⟨o, ho, hto⟩ := exists_append_of_byteLen_le hends (by rw [hp, htlen]; omega)
    have holen : byteLen o = s.1 + byteLen s.2 - t.1 := by
      have htotal := congrArg byteLen ho
      rw [hp, byteLen_append, htlen] at htotal
      omega
    obtain ⟨beyond, hbeyond, -⟩ := exists_append_of_byteLen_le hto.symm (by omega)
    obtain ⟨m, -, hm⟩ := exists_append_of_byteLen_le ho (by rw [hslen, htlen]; exact hstart)
    refine ⟨o, beyond, pt ++ t.2, qt, hbeyond, holen, ⟨m, hm.symm⟩, hpt, hp', ?_⟩
    rw [hbeyond, ho]
    simp only [words_append, List.append_assoc]

/-! ## One join -/

/-- What appending a chunk does: it puts the same text there as the places
do, or it drops words. -/
theorem append_step {s t : ℕ × List Char} (h : NextSite content s t) (hs : SiteAt content s)
    (ht : SiteAt content t) {p q result : List Char} (hcontent : content = p ++ q)
    (hp : byteLen p = s.1 + byteLen s.2) (hresult : s.2 <:+ result) :
    ∃ p' q', content = p' ++ q' ∧ byteLen p' = t.1 + byteLen t.2 ∧
      t.2 <:+ appendReconstructedChunk result t.2 ∧
      ∃ dropped kept, words p' = words p ++ (dropped ++ kept) ∧
        words (appendReconstructedChunk result t.2) = words result ++ kept ∧
        (OverlapExact result (s.1 + byteLen s.2) t ↔ dropped = []) ∧
        (dropped = [] → appendReconstructedChunk result t.2 =
          appendByPlace result (s.1 + byteLen s.2) t) := by
  obtain ⟨o, beyond, p', q', hbeyond, holen, hosuffix, hcontent', hp', hwords⟩ :=
    h.split hs ht hcontent hp
  have hne : result ≠ [] := by
    rintro rfl
    exact hs.nonempty (List.suffix_nil.mp hresult)
  have hnear := h.overlap_le
  obtain ⟨x, rest, hchunk, hxsuffix, hxlen, hlongest, hresult'⟩ :=
    @appendReconstructedChunk_spec result t.2 hne
  -- the overlap of the places is a candidate
  have hle : byteLen o ≤ byteLen x :=
    hlongest o ⟨beyond, hbeyond.symm⟩ (hosuffix.trans hresult) (by omega)
  obtain ⟨e, rfl, he⟩ := exists_append_of_byteLen_le (hbeyond.symm.trans hchunk) hle
  have hsep : words (if o ++ e = [] then chunkSeparator else []) = [] := by
    split
    next => exact words_chunkSeparator
    next => rfl
  have hexact : OverlapExact result (s.1 + byteLen s.2) t ↔ e = [] := by
    constructor
    · intro hall
      have hxle := hall (o ++ e) ⟨rest, hchunk.symm⟩ hxsuffix hxlen
      rw [byteLen_append, ← holen] at hxle
      apply Iff.mp byteLen_eq_zero
      omega
    · rintro rfl y hyprefix hysuffix hy
      rw [← holen, ← List.append_nil o]
      exact hlongest y hyprefix hysuffix hy
  have hdropped : words e = [] ↔ e = [] := by
    constructor
    · intro hblank
      by_contra hne'
      exact words_append_of_trimmed_suffix hxsuffix hresult hs.nonempty hs.trimmed hne' hblank
    · rintro rfl
      rfl
  refine ⟨p', q', hcontent', hp', ?_, words e, words rest, ?_, ?_, ?_, ?_⟩
  · rw [hresult']
    by_cases hx : o ++ e = []
    · rw [hx, List.nil_append] at hchunk
      rw [hchunk]
      exact List.suffix_append _ _
    · obtain ⟨before, hbefore⟩ := hxsuffix
      rw [if_neg hx, List.append_nil, hchunk, ← hbefore]
      exact ⟨before, by simp only [List.append_assoc]⟩
  · rw [hwords, he, words_append]
  · rw [hresult', words_append, words_append, hsep, List.append_nil]
  · rw [hexact, hdropped]
  · intro hnone
    obtain rfl := Iff.mp hdropped hnone
    have hzero : o ++ [] = [] ↔ s.1 + byteLen s.2 ≤ t.1 := by
      rw [List.append_nil, ← byteLen_eq_zero, holen]
      omega
    have hrest : slice t.2 (s.1 + byteLen s.2 - t.1) (byteLen t.2) = some rest :=
      Iff.mpr slice_eq_some_iff ⟨o, [], by simpa using hchunk, holen, by
        rw [hchunk, byteLen_append, List.append_nil, holen]⟩
    rw [hresult', appendByPlace, hrest, Option.getD_some]
    simp only [hzero]

/-! ## All joins -/

/-- Words that are lost stay lost. -/
theorem SitesFrom.length_words_le {s : ℕ × List Char} {rest : List (ℕ × List Char)}
    (h : SitesFrom content s rest) {p q result : List Char} (hcontent : content = p ++ q)
    (hp : byteLen p = s.1 + byteLen s.2) (hresult : s.2 <:+ result) :
    (words (rest.foldl (fun r t ↦ appendReconstructedChunk r t.2) result)).length +
      (words p).length ≤ (words result).length + (words content).length := by
  induction h generalizing p q result with
  | last site rest =>
      rw [hcontent, words_append, List.length_append, List.foldl_nil]
      omega
  | next site follows tail ih =>
      obtain ⟨p', q', hcontent', hp', hresult', dropped, kept, hwords, happend, -, -⟩ :=
        append_step follows site tail.siteAt hcontent hp hresult
      have hrest := ih hcontent' hp' hresult'
      rw [hwords, happend] at hrest
      simp only [List.length_append] at hrest
      rw [List.foldl_cons]
      omega

/-- All words are there again if and only if no text is longer than the
overlap of the places. -/
theorem SitesFrom.words_foldl_iff {s : ℕ × List Char} {rest : List (ℕ × List Char)}
    (h : SitesFrom content s rest) {p q result : List Char} (hcontent : content = p ++ q)
    (hp : byteLen p = s.1 + byteLen s.2) (hresult : s.2 <:+ result)
    (hwords : words result = words p) :
    words (rest.foldl (fun r t ↦ appendReconstructedChunk r t.2) result) = words content ↔
      OverlapsExact result (s.1 + byteLen s.2) rest := by
  induction h generalizing p q result with
  | last site hblank =>
      have htail : words q = [] := by
        refine Iff.mpr words_eq_nil_iff fun c hc ↦ ?_
        obtain ⟨l, r, rfl⟩ := List.append_of_mem hc
        refine hblank (byteLen (p ++ l)) c ?_ ?_
        · exact Iff.mpr charAt_eq_some_iff ⟨p ++ l, r, by rw [hcontent]; simp, rfl⟩
        · rw [byteLen_append, hp]
          exact Nat.le_add_right _ _
      rw [List.foldl_nil, hwords, hcontent, words_append, htail, List.append_nil]
      exact iff_of_true rfl trivial
  | @next s t rest site follows tail ih =>
      obtain ⟨p', q', hcontent', hp', hresult', dropped, kept, hwords', happend, hexact, hsame⟩ :=
        append_step follows site tail.siteAt hcontent hp hresult
      rw [List.foldl_cons, OverlapsExact]
      by_cases hdropped : dropped = []
      · have hkept : words (appendReconstructedChunk result t.2) = words p' := by
          rw [happend, hwords', hdropped, hwords, List.nil_append]
        rw [ih hcontent' hp' hresult' hkept, hsame hdropped]
        exact (and_iff_right (Iff.mpr hexact hdropped)).symm
      · refine iff_of_false ?_ (fun hall ↦ hdropped (Iff.mp hexact hall.1))
        intro hall
        have hle := tail.length_words_le hcontent' hp' hresult'
        have hpos := List.length_pos_iff.mpr hdropped
        rw [hall, happend, hwords', hwords] at hle
        simp only [List.length_append] at hle
        omega

/-! ## The chunks of a text -/

/-- The windows of a policy with a small overlap are in order at both ends. -/
theorem windows_ordered (hsmall : policy.SmallOverlap) (rounds : ℕ) :
    ∀ {start : ℕ} {ws : List (ℕ × ℕ)}, isCharBoundary content start = true →
      windows content policy rounds start = some ws →
      (∀ w ∈ ws, start ≤ w.1 ∧ w.2 ≤ byteLen content ∧
        (w.2 = byteLen content ∨ start + (policy.target - 3) / 2 ≤ w.2)) ∧
      ws.Pairwise fun v w ↦ v.1 ≤ w.1 ∧ v.2 ≤ w.2 ∧ v.2 ≤ w.1 + (policy.overlap + 3) := by
  have htarget : 4 ≤ policy.target := by
    unfold ChunkingPolicy.SmallOverlap at hsmall
    omega
  unfold ChunkingPolicy.SmallOverlap at hsmall
  induction rounds with
  | zero => simp [windows]
  | succ rounds ih =>
      intro start ws hstart hws
      rw [windows] at hws
      split_ifs at hws with hlt
      · obtain ⟨stop, hend, hstop, hgt, -, hlong⟩ :=
          windowEnd_spec (fits_of_four_le htarget content) hstart hlt
        have hstopLe := le_byteLen_of_isCharBoundary hstop
        rw [hend, Option.bind_some] at hws
        split_ifs at hws with hlast
        · obtain rfl := Option.some.inj hws
          refine ⟨fun w hw ↦ ?_, List.pairwise_singleton _ _⟩
          obtain rfl := List.mem_singleton.mp hw
          exact ⟨le_rfl, hstopLe, .inl hlast⟩
        · obtain ⟨rest, hrest, rfl⟩ := Option.map_eq_some_iff.mp hws
          obtain ⟨hnext, hprogress, -, hback⟩ := windowNext_spec policy.overlap hstop hgt
          obtain ⟨hall, hpairwise⟩ := ih hnext hrest
          refine ⟨fun w hw ↦ ?_, List.pairwise_cons.mpr ⟨fun w hw ↦ ?_, hpairwise⟩⟩
          · rcases List.mem_cons.mp hw with rfl | hw
            · exact ⟨le_rfl, hstopLe, hlong⟩
            · obtain ⟨hw1, hw2, hw3⟩ := hall w hw
              exact ⟨by omega, hw2, by omega⟩
          · obtain ⟨hw1, hw2, hw3⟩ := hall w hw
            have hlong' := hlong.resolve_left hlast
            exact ⟨by simp only; omega, by simp only; omega, by simp only; omega⟩
      · obtain rfl := Option.some.inj hws
        exact ⟨by simp, .nil⟩

/-- A later window has a text that ends later. -/
theorem SiteOf.stop_le_stop {v w : ℕ × ℕ} {s t : ℕ × List Char} (hs : SiteOf content v s)
    (ht : SiteOf content w t) (hle : v.2 ≤ w.2) :
    s.1 + byteLen s.2 ≤ t.1 + byteLen t.2 := by
  obtain ⟨o, c, hc, hword, -, hend⟩ := hs.last_char
  have hpos := c.utf8Size_pos
  have hstop := hs.le_stop
  have hstart := ht.start_le
  by_cases hbefore : w.1 ≤ o
  · have hin := (ht.covers o c hc hword hbefore (by omega)).2
    omega
  · by_contra hlt
    have hin := boundary_le_of_charAt hc (slice_boundaries ht.exact).1 (by omega)
    omega

/-- Places in order that cover all words follow each other. -/
theorem sitesFrom_of_pairwise {sites : List (ℕ × List Char)} (hsite : ∀ s ∈ sites, SiteAt content s)
    (hordered : sites.Pairwise fun s t ↦ s.1 ≤ t.1 ∧
      s.1 + byteLen s.2 ≤ t.1 + byteLen t.2 ∧ s.1 + byteLen s.2 ≤ t.1 + maxReconstructedOverlap)
    (hcovered : ∀ o c, charAt content o = some c → isWhitespace c = false →
      ∃ s ∈ sites, s.1 ≤ o ∧ o + c.utf8Size ≤ s.1 + byteLen s.2)
    (rest : List (ℕ × List Char)) :
    ∀ before s, sites = before ++ s :: rest → SitesFrom content s rest := by
  -- a word after the text of `s` is at a later place
  have hlater : ∀ {before : List (ℕ × List Char)} {s : ℕ × List Char} {rest : List (ℕ × List Char)},
      sites = before ++ s :: rest → ∀ o c, charAt content o = some c → isWhitespace c = false →
      s.1 + byteLen s.2 ≤ o → ∃ u ∈ rest, u.1 ≤ o := by
    intro before s rest hsites o c hc hword hafter
    obtain ⟨u, hu, hstart, hstop⟩ := hcovered o c hc hword
    have hpos := c.utf8Size_pos
    rw [hsites] at hu hordered
    rcases List.mem_append.mp hu with hu | hu
    · have hle := (List.pairwise_append.mp hordered).2.2 u hu s List.mem_cons_self
      omega
    · rcases List.mem_cons.mp hu with rfl | hu
      · omega
      · exact ⟨u, hu, hstart⟩
  induction rest with
  | nil =>
      intro before s hsites
      refine .last (hsite s (by simp [hsites])) fun o c hc hafter ↦ ?_
      by_contra hword
      obtain ⟨u, hu, -⟩ := hlater hsites o c hc (Bool.eq_false_iff.mpr hword) hafter
      cases hu
  | cons t rest ih =>
      intro before s hsites
      have hpair := hordered
      rw [hsites] at hpair
      have hrest := (List.pairwise_append.mp hpair).2.1
      obtain ⟨hstart, hstop, hnear⟩ := (List.pairwise_cons.mp hrest).1 t List.mem_cons_self
      refine .next (hsite s (by simp [hsites])) ⟨hstart, hstop, hnear, ?_⟩
        (ih (before ++ [s]) t (by rw [hsites, List.append_assoc]; rfl))
      intro o c hc hafter hbefore
      by_contra hword
      obtain ⟨u, hu, hle⟩ := hlater hsites o c hc (Bool.eq_false_iff.mpr hword) hafter
      have hnext := List.pairwise_cons.mp (List.pairwise_cons.mp hrest).2
      rcases List.mem_cons.mp hu with rfl | hu
      · omega
      · have hle' := (hnext.1 u hu).1
        omega

/-- The texts of some chunks, put together. -/
def reconstruct (texts : List (List Char)) : List Char := texts.foldl appendReconstructedChunk []

/-- The overlap of each chunk with what precedes it is the longest one. -/
def ReconstructsExactly : List (ℕ × List Char) → Prop
  | [] => True
  | s :: rest => OverlapsExact s.2 (s.1 + byteLen s.2) rest

theorem foldl_reconstruct (rest : List (ℕ × List Char)) (result : List Char) :
    (rest.map Prod.snd).foldl appendReconstructedChunk result =
      rest.foldl (fun r t ↦ appendReconstructedChunk r t.2) result := by
  rw [List.foldl_map]

/-- The chunks of a text give all its words if and only if no join finds a
longer overlap than the one there is. -/
theorem words_reconstruct_iff (hsmall : policy.SmallOverlap)
    (hnear : policy.overlap + 3 ≤ maxReconstructedOverlap) (content : List Char) :
    words (reconstruct ((textSites policy content).map Prod.snd)) = words content ↔
      ReconstructsExactly (textSites policy content) := by
  have hfits : policy.Fits content := by
    unfold ChunkingPolicy.SmallOverlap at hsmall
    exact fits_of_four_le (by omega) content
  have hok := textSites_ok hfits
  obtain ⟨ws, hws, hsites, -, hwindow⟩ := windows_whole hfits
  obtain ⟨-, hordered⟩ := windows_ordered hsmall _ (isCharBoundary_zero content) hws
  have hpair : (textSites policy content).Pairwise fun s t ↦ s.1 ≤ t.1 ∧
      s.1 + byteLen s.2 ≤ t.1 + byteLen t.2 ∧
      s.1 + byteLen s.2 ≤ t.1 + maxReconstructedOverlap := by
    rw [hsites]
    refine List.pairwise_filterMap.mpr (hordered.imp_of_mem ?_)
    rintro v w hv hw ⟨hstart, hstop, hback⟩ s hs t ht
    have hsv := windowSite_some (hwindow v hv) hs
    have htw := windowSite_some (hwindow w hw) ht
    refine ⟨hsv.le htw hstart, hsv.stop_le_stop htw hstop, ?_⟩
    have hle := hsv.le_stop
    have hge := htw.start_le
    omega
  have hsite : ∀ s ∈ textSites policy content, SiteAt content s := fun s hs ↦
    ⟨hok.exact s hs, hok.nonempty s hs, hok.trimmed s hs⟩
  cases hlist : textSites policy content with
  | nil =>
      refine iff_of_true ?_ trivial
      symm
      refine Iff.mpr words_eq_nil_iff fun c hc ↦ ?_
      obtain ⟨l, r, hsplit⟩ := List.append_of_mem hc
      by_contra hword
      obtain ⟨s, hs, -⟩ := hok.covered (byteLen l) c
        (Iff.mpr charAt_eq_some_iff ⟨l, r, hsplit, rfl⟩) (Bool.eq_false_iff.mpr hword)
      rw [hlist] at hs
      cases hs
  | cons s rest =>
      have hfrom := sitesFrom_of_pairwise hsite hpair hok.covered rest [] s hlist
      obtain ⟨p, q, hcontent, hp, -⟩ := Iff.mp slice_eq_some_iff hfrom.siteAt.exact
      have hblank : words p = [] := by
        refine Iff.mpr words_eq_nil_iff fun c hc ↦ ?_
        obtain ⟨l, r, rfl⟩ := List.append_of_mem hc
        have hpos := c.utf8Size_pos
        by_contra hword
        obtain ⟨u, hu, hstart, -⟩ := hok.covered (byteLen l) c
          (Iff.mpr charAt_eq_some_iff ⟨l, r ++ (s.2 ++ q), by rw [hcontent]; simp, rfl⟩)
          (Bool.eq_false_iff.mpr hword)
        rw [byteLen_append, byteLen_cons] at hp
        rw [hlist] at hu hpair
        rcases List.mem_cons.mp hu with rfl | hu
        · omega
        · have hle := ((List.pairwise_cons.mp hpair).1 u hu).1
          omega
      rw [reconstruct, List.map_cons, List.foldl_cons, foldl_reconstruct]
      exact hfrom.words_foldl_iff (p := p ++ s.2) (q := q) hcontent (by rw [byteLen_append, hp])
        (List.suffix_refl _) (by rw [words_append, hblank]; rfl)

end Cortana
