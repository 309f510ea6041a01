import Cortana.Text.Case

/-!
# Citations

Numbers in brackets, the check that a synthesised answer has to pass, and the
paragraphs a reader sees.
-/

namespace Cortana

open ByteText

namespace Answer

/-! ## The check -/

/-- The number that a text of digits is read as; zero when it is too large. -/
def parseCitation (digits : List Char) : ℕ :=
  let n := Nat.ofDigitChars 10 digits 0
  if n < 2 ^ 64 then n else 0

/-- The loop of `paragraph_has_valid_citation`, which skips what it has read. -/
def scanCitations (evidenceCount : ℕ) : (skip : ℕ) → (found : Bool) → List Char → Bool
  | _, found, [] => found
  | skip + 1, found, _ :: rest => scanCitations evidenceCount skip found rest
  | 0, found, c :: rest =>
      let digits := rest.takeWhile Char.isDigit
      if c = '[' ∧ digits ≠ [] ∧ (rest.drop digits.length).head? = some ']' then
        if parseCitation digits = 0 ∨ evidenceCount < parseCitation digits then false
        else scanCitations evidenceCount (digits.length + 1) true rest
      else scanCitations evidenceCount 0 found rest

/-- `paragraph_has_valid_citation`. -/
def paragraphHasValidCitation (paragraph : List Char) (evidenceCount : ℕ) : Bool :=
  scanCitations evidenceCount 0 false paragraph

/-- `split` at two newlines. -/
def splitDoubleNewline : List Char → List (List Char)
  | [] => [[]]
  | '\n' :: '\n' :: rest => [] :: splitDoubleNewline rest
  | c :: rest => (splitDoubleNewline rest).modifyHead (c :: ·)

/-- `valid_citations`. -/
def validCitations (answer : List Char) (evidenceCount : ℕ) : Bool :=
  let paragraphs := ((splitDoubleNewline answer).map trim).filter (· ≠ [])
  if paragraphs = [] then false
  else paragraphs.all (paragraphHasValidCitation · evidenceCount)

/-! ## What a reader sees -/

/-- A text has a number in brackets. -/
inductive Cites : List Char → ℕ → Prop where
  | here {digits rest : List Char} (hne : digits ≠ []) (hdigits : ∀ d ∈ digits, d.isDigit = true) :
      Cites ('[' :: digits ++ ']' :: rest) (Nat.ofDigitChars 10 digits 0)
  | later {rest : List Char} {n : ℕ} (c : Char) (h : Cites rest n) : Cites (c :: rest) n

/-- A line of nothing but spaces, tabs and carriage returns. -/
def blankLine (line : List Char) : Bool := line.all fun c ↦ c == ' ' || c == '\t' || c == '\x0d'

/-- The paragraphs of a text by their lines: what blank lines separate, unless it
is all white space. -/
def visibleParagraphs (text : List Char) : List (List (List Char)) :=
  ((text.splitOn '\n').splitOnP blankLine).filter fun lines ↦ lines.any fun line ↦ trim line ≠ []

/-- No number in brackets but those of rows. -/
def CitesWithin (count : ℕ) (text : List Char) : Prop := ∀ n, Cites text n → 1 ≤ n ∧ n ≤ count

/-- A paragraph has the number of a row. -/
def HasCitation (count : ℕ) (paragraph : List (List Char)) : Prop :=
  ∃ line ∈ paragraph, ∃ n, Cites line n ∧ 1 ≤ n ∧ n ≤ count

/-- Every paragraph cites a row, and nothing but rows is cited. -/
def Grounded (count : ℕ) (text : List Char) : Prop :=
  CitesWithin count text ∧ ∀ paragraph ∈ visibleParagraphs text, HasCitation count paragraph

/-! ## Numbers in brackets -/

/-- A character that stands in no number in brackets. -/
def Outside (c : Char) : Prop := c ≠ '[' ∧ c ≠ ']' ∧ c.isDigit = false

theorem Cites.append_left {s : List Char} {n : ℕ} (l : List Char) (h : Cites s n) :
    Cites (l ++ s) n := by
  induction l with
  | nil => exact h
  | cons c l ih => exact .later c ih

theorem Cites.append_right {s : List Char} {n : ℕ} (h : Cites s n) (r : List Char) :
    Cites (s ++ r) n := by
  induction h with
  | here hne hdigits => simpa using Cites.here hne hdigits
  | later c _ ih => exact .later c ih

theorem not_cites_nil {n : ℕ} : ¬Cites [] n := by
  rintro ⟨⟩

theorem cites_cons_of_ne {c : Char} {rest : List Char} {n : ℕ} (hc : c ≠ '[') :
    Cites (c :: rest) n ↔ Cites rest n := by
  constructor
  · intro h
    cases h with
    | here => exact absurd rfl hc
    | later _ h => exact h
  · exact .later c

/-- What separates two texts separates their numbers. -/
theorem cites_append_cons {a b : List Char} {c : Char} {n : ℕ} (hc : Outside c) :
    Cites (a ++ c :: b) n ↔ Cites a n ∨ Cites b n := by
  constructor
  · induction a with
    | nil => exact fun h ↦ .inr (Iff.mp (cites_cons_of_ne hc.1) h)
    | cons d a ih =>
        intro h
        generalize htext : d :: a ++ c :: b = text at h
        cases h with
        | later e h =>
            obtain ⟨rfl, rfl⟩ := List.cons.inj htext
            exact (ih h).imp_left (.later d)
        | @here digits rest hne hdigits =>
            obtain ⟨rfl, heq⟩ := List.cons.inj htext
            left
            rcases List.append_eq_append_iff.mp heq with ⟨a', rfl, hrest⟩ | ⟨c', rfl, hrest⟩
            · cases a' with
              | nil => exact absurd (List.cons.inj hrest).1 hc.2.1
              | cons e a' =>
                  obtain ⟨rfl, -⟩ := List.cons.inj hrest
                  have hdigit := hdigits c (List.mem_append_right _ List.mem_cons_self)
                  rw [hc.2.2] at hdigit
                  cases hdigit
            · cases c' with
              | nil => exact absurd (List.cons.inj hrest).1.symm hc.2.1
              | cons e c' =>
                  obtain ⟨rfl, -⟩ := List.cons.inj hrest
                  exact .here hne hdigits
  · rintro (h | h)
    · exact h.append_right _
    · exact (Cites.later c h).append_left a

theorem not_cites_of_outside {s : List Char} {n : ℕ} (h : ∀ c ∈ s, c ≠ '[') : ¬Cites s n := by
  induction s with
  | nil => exact not_cites_nil
  | cons c s ih =>
      rw [cites_cons_of_ne (h c List.mem_cons_self)]
      exact ih fun d hd ↦ h d (List.mem_cons_of_mem c hd)

theorem outside_of_isWhitespace {c : Char} (hc : isWhitespace c = true) : Outside c := by
  refine ⟨?_, ?_, ?_⟩
  · rintro rfl
    exact absurd hc (by decide)
  · rintro rfl
    exact absurd hc (by decide)
  · by_contra hdigit
    simp only [Char.isDigit, UInt32.le_iff_toNat_le, Bool.not_eq_false, Bool.and_eq_true,
      decide_eq_true_eq] at hdigit
    have hlow : 48 ≤ c.toNat := hdigit.1
    have hhigh : c.toNat ≤ 57 := hdigit.2
    simp [isWhitespace] at hc
    omega

/-- White space around a text holds no numbers. -/
theorem cites_trim (s : List Char) (n : ℕ) : Cites (trim s) n ↔ Cites s n := by
  have hleft : ∀ l t : List Char, (∀ c ∈ l, isWhitespace c = true) →
      (Cites (l ++ t) n ↔ Cites t n) := by
    intro l t hl
    induction l with
    | nil => rfl
    | cons c l ih =>
        rw [List.cons_append, cites_cons_of_ne (outside_of_isWhitespace (hl c List.mem_cons_self)).1]
        exact ih fun d hd ↦ hl d (List.mem_cons_of_mem c hd)
  have hright : ∀ r t : List Char, (∀ c ∈ r, isWhitespace c = true) →
      (Cites (t ++ r) n ↔ Cites t n) := by
    intro r t hr
    cases r with
    | nil => rw [List.append_nil]
    | cons c r =>
        have hnone : ¬Cites r n := not_cites_of_outside fun d hd ↦
          (outside_of_isWhitespace (hr d (List.mem_cons_of_mem c hd))).1
        rw [cites_append_cons (outside_of_isWhitespace (hr c List.mem_cons_self))]
        exact or_iff_left hnone
  obtain ⟨l, r, hs, hl, hr⟩ := trim_decomposition s
  conv_rhs => rw [hs]
  rw [hright r _ hr, hleft l _ hl]

/-! ## The scanner -/

/-- The number in brackets at the start of a text is the only one that starts there. -/
theorem cites_open {digits rest : List Char} {n : ℕ} (hne : digits ≠ [])
    (hdigits : ∀ d ∈ digits, d.isDigit = true) :
    Cites ('[' :: digits ++ ']' :: rest) n ↔ n = Nat.ofDigitChars 10 digits 0 ∨ Cites rest n := by
  constructor
  · intro h
    generalize htext : '[' :: digits ++ ']' :: rest = text at h
    cases h with
    | @here digits' rest' hne' hdigits' =>
        left
        obtain ⟨-, heq⟩ := List.cons.inj htext
        have hnot : ∀ ds : List Char, (∀ d ∈ ds, d.isDigit = true) → ']' ∉ ds :=
          fun ds hds hmem ↦ absurd (hds _ hmem) (by decide)
        rw [(append_cons_inj_of_notMem (hnot _ hdigits) (hnot _ hdigits') heq).1]
    | later c h =>
        right
        obtain ⟨rfl, rfl⟩ := List.cons.inj htext
        clear htext hne
        induction digits with
        | nil => exact Iff.mp (cites_cons_of_ne (by decide)) h
        | cons d digits ih =>
            refine ih (fun e he ↦ hdigits e (List.mem_cons_of_mem d he)) ?_
            refine Iff.mp (cites_cons_of_ne ?_) h
            rintro rfl
            exact absurd (hdigits _ List.mem_cons_self) (by decide)
  · rintro (rfl | h)
    · exact .here hne hdigits
    · exact Cites.append_left ('[' :: digits) (.later ']' h)

theorem takeWhile_digits {digits rest : List Char} (hdigits : ∀ d ∈ digits, d.isDigit = true) :
    (digits ++ ']' :: rest).takeWhile Char.isDigit = digits := by
  rw [List.takeWhile_append_of_pos hdigits, List.takeWhile_cons_of_neg (by decide), List.append_nil]

theorem eq_digits_append {rest : List Char}
    (h : (rest.drop (rest.takeWhile Char.isDigit).length).head? = some ']') :
    rest = rest.takeWhile Char.isDigit ++ ']' ::
      rest.drop ((rest.takeWhile Char.isDigit).length + 1) := by
  obtain ⟨tail, htail⟩ := List.head?_eq_some_iff.mp h
  have hdrop : rest.drop ((rest.takeWhile Char.isDigit).length + 1) = tail := by
    rw [← List.tail_drop, htail, List.tail_cons]
  have htake := List.prefix_iff_eq_take.mp (List.takeWhile_prefix (l := rest) Char.isDigit)
  rw [hdrop, ← htail]
  conv_rhs => rw [htake]
  rw [List.length_take_of_le (List.takeWhile_prefix Char.isDigit).length_le, List.take_append_drop]

theorem parseCitation_of_ne_zero {digits : List Char} (h : parseCitation digits ≠ 0) :
    parseCitation digits = Nat.ofDigitChars 10 digits 0 := by
  rw [parseCitation] at h ⊢
  split
  · rfl
  next hlarge => rw [if_neg hlarge] at h; exact absurd rfl h

/-- What the scanner accepts has numbers of rows only, and one if none was found. -/
theorem scanCitations_sound {count skip : ℕ} {found : Bool} {text : List Char}
    (h : scanCitations count skip found text = true) :
    CitesWithin count (text.drop skip) ∧ (found = false → ∃ n, Cites (text.drop skip) n) := by
  induction text generalizing skip found with
  | nil =>
      rw [List.drop_nil]
      refine ⟨fun n hn ↦ absurd hn not_cites_nil, fun hfound ↦ ?_⟩
      subst hfound
      cases skip <;> exact absurd h (by simp [scanCitations])
  | cons c rest ih =>
      cases skip with
      | succ skip => exact ih h
      | zero =>
          rw [scanCitations] at h
          rw [List.drop_zero]
          split at h
          next hcitation =>
            obtain ⟨rfl, hne, hclose⟩ := hcitation
            split at h
            next => cases h
            next hrange =>
              obtain ⟨hwithin, -⟩ := ih h
              have hdigits : ∀ d ∈ rest.takeWhile Char.isDigit, d.isDigit = true :=
                fun d hd ↦ List.mem_takeWhile_imp hd
              have htext := eq_digits_append hclose
              have hlater : ∀ n, Cites ('[' :: rest) n ↔
                  n = Nat.ofDigitChars 10 (rest.takeWhile Char.isDigit) 0 ∨
                    Cites (rest.drop ((rest.takeWhile Char.isDigit).length + 1)) n := by
                intro n
                conv_lhs => rw [htext]
                exact cites_open hne hdigits
              have hread := parseCitation_of_ne_zero fun h ↦ hrange (.inl h)
              refine ⟨fun n hn ↦ ?_, fun _ ↦ ⟨_, Iff.mpr (hlater _) (.inl rfl)⟩⟩
              rcases Iff.mp (hlater n) hn with rfl | hn
              · omega
              · exact hwithin n hn
          next hcitation =>
            obtain ⟨hwithin, hsome⟩ := ih h
            have hlater : ∀ n, Cites (c :: rest) n ↔ Cites rest n := by
              intro n
              refine ⟨fun hn ↦ ?_, .later c⟩
              generalize htext : c :: rest = text at hn
              cases hn with
              | later _ hn => exact (List.cons.inj htext).2 ▸ hn
              | @here digits after hne hdigits =>
                  have hrest : rest = digits ++ ']' :: after := (List.cons.inj htext).2
                  refine absurd ⟨(List.cons.inj htext).1, ?_⟩ hcitation
                  rw [hrest, takeWhile_digits hdigits]
                  simpa using hne
            exact ⟨fun n hn ↦ hwithin n (Iff.mp (hlater n) hn),
              fun hfound ↦ (hsome hfound).imp fun n hn ↦ Iff.mpr (hlater n) hn⟩

theorem paragraphHasValidCitation_sound {paragraph : List Char} {count : ℕ}
    (h : paragraphHasValidCitation paragraph count = true) :
    CitesWithin count paragraph ∧ ∃ n, Cites paragraph n := by
  obtain ⟨hwithin, hsome⟩ := scanCitations_sound h
  exact ⟨hwithin, hsome rfl⟩

/-! ## Paragraphs -/

/-- Numbers do not cross lines. -/
theorem cites_iff_line {text : List Char} {n : ℕ} :
    Cites text n ↔ ∃ line ∈ text.splitOn '\n', Cites line n := by
  have hlines : ∀ lines : List (List Char), Cites (['\n'].intercalate lines) n ↔
      ∃ line ∈ lines, Cites line n := by
    intro lines
    induction lines with
    | nil => simp [List.intercalate_nil, not_cites_nil]
    | cons line rest ih =>
        cases rest with
        | nil => simp
        | cons next rest =>
            rw [List.intercalate_cons_cons, List.append_assoc, List.singleton_append,
              cites_append_cons (outside_of_isWhitespace (by decide)), ih]
            simp
  have hwhole : ['\n'].intercalate (text.splitOn '\n') = text := List.intercalate_splitOn '\n'
  conv_lhs => rw [← hwhole]
  exact hlines _

theorem exists_mem_splitOnP {α : Type*} {p : α → Bool} {l : List α} {a : α} (ha : a ∈ l)
    (hp : p a = false) : ∃ part ∈ l.splitOnP p, a ∈ part := by
  induction l with
  | nil => cases ha
  | cons b l ih =>
      obtain ⟨first, rest, hsplit⟩ := List.exists_cons_of_ne_nil (List.splitOnP_ne_nil p l)
      rw [List.splitOnP_cons_eq_if_modifyHead, hsplit]
      rw [hsplit] at ih
      rcases List.mem_cons.mp ha with rfl | ha
      · rw [hp, if_neg Bool.false_ne_true, List.modifyHead_cons]
        exact ⟨_, List.mem_cons_self, List.mem_cons_self⟩
      · obtain ⟨part, hpart, hmem⟩ := ih ha
        split
        · exact ⟨part, List.mem_cons_of_mem _ hpart, hmem⟩
        · rw [List.modifyHead_cons]
          rcases List.mem_cons.mp hpart with rfl | hpart
          · exact ⟨_, List.mem_cons_self, List.mem_cons_of_mem _ hmem⟩
          · exact ⟨part, List.mem_cons_of_mem _ hpart, hmem⟩

theorem isWhitespace_of_blankLine {line : List Char} (h : blankLine line = true) :
    ∀ c ∈ line, isWhitespace c = true := by
  intro c hc
  have hblank := List.all_eq_true.mp h c hc
  simp only [Bool.or_eq_true, beq_iff_eq] at hblank
  rcases hblank with (rfl | rfl) | rfl <;> decide

/-- Numbers are seen. -/
theorem cites_iff_visible {text : List Char} {n : ℕ} :
    Cites text n ↔ ∃ paragraph ∈ visibleParagraphs text, ∃ line ∈ paragraph, Cites line n := by
  rw [cites_iff_line]
  constructor
  · rintro ⟨line, hline, hcites⟩
    have hseen : trim line ≠ [] := by
      intro hnil
      rw [← cites_trim, hnil] at hcites
      exact not_cites_nil hcites
    have hnot : blankLine line = false := by
      by_contra hblank
      exact hseen (Iff.mpr trim_eq_nil_iff
        (isWhitespace_of_blankLine (Bool.eq_true_of_not_eq_false hblank)))
    obtain ⟨paragraph, hparagraph, hmem⟩ := exists_mem_splitOnP hline hnot
    refine ⟨paragraph, List.mem_filter.mpr ⟨hparagraph, ?_⟩, line, hmem, hcites⟩
    exact List.any_eq_true.mpr ⟨line, hmem, by simpa using hseen⟩
  · rintro ⟨paragraph, hparagraph, line, hline, hcites⟩
    exact ⟨line, mem_of_mem_splitOnP (List.mem_filter.mp hparagraph).1 hline, hcites⟩

theorem visibleParagraphs_nil : visibleParagraphs [] = [] := rfl

/-- An empty line separates paragraphs. -/
theorem visibleParagraphs_append (a b : List Char) :
    visibleParagraphs (a ++ '\n' :: '\n' :: b) = visibleParagraphs a ++ visibleParagraphs b := by
  have hlines : (a ++ '\n' :: '\n' :: b).splitOn '\n' = a.splitOn '\n' ++ [] :: b.splitOn '\n' := by
    rw [List.splitOn_eq_splitOnP, List.splitOnP_append_cons _ _ (by decide)]
    congr 1
  rw [visibleParagraphs, hlines, List.splitOnP_append_cons _ _ (by decide), List.filter_append]
  rfl

theorem visibleParagraphs_intercalate (parts : List (List Char)) :
    visibleParagraphs (['\n', '\n'].intercalate parts) = parts.flatMap visibleParagraphs := by
  induction parts with
  | nil => rfl
  | cons part rest ih =>
      cases rest with
      | nil => simp
      | cons next rest =>
          rw [List.intercalate_cons_cons, List.append_assoc, List.flatMap_cons, ← ih]
          exact visibleParagraphs_append _ _

theorem cites_intercalate {parts : List (List Char)} {n : ℕ} :
    Cites (['\n', '\n'].intercalate parts) n ↔ ∃ part ∈ parts, Cites part n := by
  rw [cites_iff_visible, visibleParagraphs_intercalate]
  constructor
  · rintro ⟨paragraph, hparagraph, hcites⟩
    obtain ⟨part, hpart, hmem⟩ := List.mem_flatMap.mp hparagraph
    exact ⟨part, hpart, Iff.mpr cites_iff_visible ⟨paragraph, hmem, hcites⟩⟩
  · rintro ⟨part, hpart, hcites⟩
    obtain ⟨paragraph, hmem, hline⟩ := Iff.mp cites_iff_visible hcites
    exact ⟨paragraph, List.mem_flatMap.mpr ⟨part, hpart, hmem⟩, hline⟩

theorem grounded_intercalate {count : ℕ} {parts : List (List Char)} :
    Grounded count (['\n', '\n'].intercalate parts) ↔ ∀ part ∈ parts, Grounded count part := by
  constructor
  · rintro ⟨hwithin, hcited⟩ part hpart
    refine ⟨fun n hn ↦ hwithin n (Iff.mpr cites_intercalate ⟨part, hpart, hn⟩), fun p hp ↦ ?_⟩
    refine hcited p ?_
    rw [visibleParagraphs_intercalate]
    exact List.mem_flatMap.mpr ⟨part, hpart, hp⟩
  · intro h
    refine ⟨fun n hn ↦ ?_, fun p hp ↦ ?_⟩
    · obtain ⟨part, hpart, hcites⟩ := Iff.mp cites_intercalate hn
      exact (h part hpart).1 n hcites
    · rw [visibleParagraphs_intercalate] at hp
      obtain ⟨part, hpart, hmem⟩ := List.mem_flatMap.mp hp
      exact (h part hpart).2 p hmem

theorem splitDoubleNewline_ne_nil (text : List Char) : splitDoubleNewline text ≠ [] := by
  fun_induction splitDoubleNewline text with
  | case1 => exact List.cons_ne_nil _ _
  | case2 => exact List.cons_ne_nil _ _
  | case3 c rest _ ih =>
      obtain ⟨first, more, hsplit⟩ := List.exists_cons_of_ne_nil ih
      rw [hsplit]
      exact List.cons_ne_nil _ _

theorem intercalate_splitDoubleNewline (text : List Char) :
    ['\n', '\n'].intercalate (splitDoubleNewline text) = text := by
  fun_induction splitDoubleNewline text with
  | case1 => rfl
  | case2 rest ih =>
      rw [List.intercalate_cons_of_ne_nil (splitDoubleNewline_ne_nil rest), ih]
      rfl
  | case3 c rest _ ih =>
      obtain ⟨first, more, hsplit⟩ := List.exists_cons_of_ne_nil (splitDoubleNewline_ne_nil rest)
      rw [hsplit] at ih ⊢
      rw [← ih, List.modifyHead_cons]
      cases more with
      | nil => simp
      | cons next more => simp [List.intercalate_cons_cons]

/-! ## Accepted answers -/

/-- An accepted answer has numbers of rows only, and one in every part. -/
theorem validCitations_sound {answer : List Char} {count : ℕ}
    (h : validCitations answer count = true) :
    CitesWithin count answer ∧
      ∀ part ∈ splitDoubleNewline answer, trim part ≠ [] → ∃ n, Cites part n := by
  have hparts : ∀ part ∈ splitDoubleNewline answer, trim part ≠ [] →
      CitesWithin count part ∧ ∃ n, Cites part n := by
    intro part hpart hseen
    rw [validCitations] at h
    split at h
    next => cases h
    next =>
      have hmem : trim part ∈ ((splitDoubleNewline answer).map trim).filter (· ≠ []) :=
        List.mem_filter.mpr ⟨List.mem_map_of_mem hpart, by simpa using hseen⟩
      obtain ⟨hwithin, n, hn⟩ := paragraphHasValidCitation_sound (List.all_eq_true.mp h _ hmem)
      exact ⟨fun m hm ↦ hwithin m (Iff.mpr (cites_trim part m) hm), n,
        Iff.mp (cites_trim part n) hn⟩
  refine ⟨fun n hn ↦ ?_, fun part hpart hseen ↦ (hparts part hpart hseen).2⟩
  rw [← intercalate_splitDoubleNewline answer, cites_intercalate] at hn
  obtain ⟨part, hpart, hcites⟩ := hn
  refine (hparts part hpart ?_).1 n hcites
  intro hnil
  rw [← cites_trim, hnil] at hcites
  exact not_cites_nil hcites

/-- A part that is seen is not blank. -/
theorem trim_ne_nil_of_visible {text : List Char} {paragraph : List (List Char)}
    (h : paragraph ∈ visibleParagraphs text) : trim text ≠ [] := by
  obtain ⟨hparagraph, hseen⟩ := List.mem_filter.mp h
  obtain ⟨line, hline, hne⟩ := List.any_eq_true.mp hseen
  intro hnil
  have hwhite := Iff.mp trim_eq_nil_iff hnil
  refine (of_decide_eq_true hne) (Iff.mpr trim_eq_nil_iff fun c hc ↦ hwhite c ?_)
  have hmem := mem_of_mem_splitOnP hparagraph hline
  rw [List.splitOn_eq_splitOnP] at hmem
  exact mem_of_mem_splitOnP hmem hc

/-- An accepted answer is grounded exactly when every part that blank lines cut
into several paragraphs cites a row in each. -/
theorem grounded_iff_of_validCitations {answer : List Char} {included count : ℕ}
    (h : validCitations answer included = true) (hle : included ≤ count) :
    Grounded count answer ↔ ∀ part ∈ splitDoubleNewline answer,
      2 ≤ (visibleParagraphs part).length →
        ∀ paragraph ∈ visibleParagraphs part, HasCitation count paragraph := by
  obtain ⟨hwithin, hcited⟩ := validCitations_sound h
  have hparts := visibleParagraphs_intercalate (splitDoubleNewline answer)
  rw [intercalate_splitDoubleNewline] at hparts
  constructor
  · rintro ⟨-, hall⟩ part hpart - paragraph hparagraph
    exact hall paragraph (hparts ▸ List.mem_flatMap.mpr ⟨part, hpart, hparagraph⟩)
  · intro hseveral
    refine ⟨fun n hn ↦ (hwithin n hn).imp_right (·.trans hle), fun paragraph hparagraph ↦ ?_⟩
    rw [hparts] at hparagraph
    obtain ⟨part, hpart, hmem⟩ := List.mem_flatMap.mp hparagraph
    by_cases htwo : 2 ≤ (visibleParagraphs part).length
    · exact hseveral part hpart htwo paragraph hmem
    · obtain ⟨n, hn⟩ := hcited part hpart (trim_ne_nil_of_visible hmem)
      obtain ⟨only, honly, line, hline, hcites⟩ := Iff.mp cites_iff_visible hn
      have hone : (visibleParagraphs part).length = 1 := by
        have := List.length_pos_of_mem hmem
        omega
      obtain ⟨single, hsingle⟩ := List.length_eq_one_iff.mp hone
      rw [hsingle, List.mem_singleton] at hmem honly
      subst hmem honly
      have hwhole : Cites answer n := by
        rw [← intercalate_splitDoubleNewline answer, cites_intercalate]
        exact ⟨part, hpart, hn⟩
      have hrange := hwithin n hwhole
      exact ⟨line, hline, n, hcites, hrange.1, hrange.2.trans hle⟩

/-! ## Excerpts -/

/-- What is appended without a separator belongs to the last part. -/
theorem exists_splitOnP_append {α : Type*} (p : α → Bool) (l : List α) :
    ∃ parts last, (∀ t, (∀ a ∈ t, p a = false) → (l ++ t).splitOnP p = parts ++ [last ++ t]) ∧
      (l = last ∨ ∃ a sep, p sep = true ∧ l = a ++ sep :: last) := by
  induction l using List.reverseRecOn with
  | nil => exact ⟨[], [], fun t ht ↦ List.splitOnP_eq_singleton ht, .inl rfl⟩
  | append_singleton l x ih =>
      by_cases hx : p x = true
      · refine ⟨l.splitOnP p, [], fun t ht ↦ ?_, .inr ⟨l, x, hx, rfl⟩⟩
        rw [List.append_assoc, List.singleton_append, List.splitOnP_append_cons _ _ hx,
          List.splitOnP_eq_singleton ht, List.nil_append]
      · obtain ⟨parts, last, hsplit, hl⟩ := ih
        refine ⟨parts, last ++ [x], fun t ht ↦ ?_, ?_⟩
        · have hnone : ∀ a ∈ x :: t, p a = false :=
            List.forall_mem_cons.mpr ⟨Bool.eq_false_of_not_eq_true hx, ht⟩
          rw [List.append_assoc, List.append_assoc]
          exact hsplit (x :: t) hnone
        · rcases hl with rfl | ⟨a, sep, hsep, rfl⟩
          · exact .inl rfl
          · exact .inr ⟨a, sep, hsep, by simp⟩

/-- What is appended to the last line of a text belongs to its last paragraph. -/
theorem visibleParagraphs_append_line {excerpt : List Char} (htrimmed : Trimmed excerpt)
    {tail : List Char} (hline : '\n' ∉ tail) (hseen : trim tail ≠ []) :
    ∃ lines last, visibleParagraphs (excerpt ++ tail) =
      (visibleParagraphs excerpt).dropLast ++ [lines ++ [last ++ tail]] := by
  obtain ⟨inits, last, hlines, hlast⟩ := exists_splitOnP_append (· == '\n') excerpt
  obtain ⟨groups, lines, hgroups, -⟩ := exists_splitOnP_append blankLine inits
  have hlines_nil := hlines [] (fun _ h ↦ absurd h List.not_mem_nil)
  have hone_line : ∀ c ∈ tail, (c == '\n') = false := by
    intro c hc
    rw [beq_eq_false_iff_ne]
    rintro rfl
    exact hline hc
  have hlines_tail := hlines tail hone_line
  rw [List.append_nil, List.append_nil] at hlines_nil
  have hnot_blank : ∀ line : List Char, trim line ≠ [] → blankLine line = false := by
    intro line hne
    by_contra hblank
    exact hne (Iff.mpr trim_eq_nil_iff
      (isWhitespace_of_blankLine (Bool.eq_true_of_not_eq_false hblank)))
  have hvisible : ∀ line : List Char, trim line ≠ [] →
      ((inits ++ [line]).splitOnP blankLine).filter (fun lines ↦ lines.any fun line ↦ trim line ≠ []) =
        groups.filter (fun lines ↦ lines.any fun line ↦ trim line ≠ []) ++ [lines ++ [line]] := by
    intro line hne
    rw [hgroups [line] (by simpa using hnot_blank line hne), List.filter_append]
    congr 1
    simp [hne]
  have htail : trim (last ++ tail) ≠ [] := fun hnil ↦ hseen
    (Iff.mpr trim_eq_nil_iff fun c hc ↦
      Iff.mp trim_eq_nil_iff hnil c (List.mem_append_right _ hc))
  by_cases hempty : excerpt = []
  · subst hempty
    refine ⟨[], [], ?_⟩
    rw [List.nil_append, visibleParagraphs, List.splitOn_eq_splitOnP,
      List.splitOnP_eq_singleton hone_line, List.splitOnP_eq_singleton (by simpa using hnot_blank tail hseen)]
    simp [hseen, visibleParagraphs_nil]
  · have hseen_last : trim last ≠ [] := by
      intro hnil
      have hwhite := Iff.mp trim_eq_nil_iff hnil
      have hnot := htrimmed.2 _ (List.getLast?_eq_some_getLast hempty)
      rcases hlast with rfl | ⟨a, sep, hsep, rfl⟩
      · rw [hwhite _ (List.getLast_mem hempty)] at hnot
        cases hnot
      · have hmem := List.getLast_mem (List.cons_ne_nil sep last)
        rw [List.getLast_append_of_ne_nil _ (List.cons_ne_nil sep last)] at hnot
        rcases List.mem_cons.mp hmem with hsame | hmem
        · rw [hsame, beq_iff_eq.mp hsep] at hnot
          exact absurd hnot (by decide)
        · rw [hwhite _ hmem] at hnot
          cases hnot
    refine ⟨lines, last, ?_⟩
    rw [visibleParagraphs, visibleParagraphs, List.splitOn_eq_splitOnP, List.splitOn_eq_splitOnP,
      hlines_tail, hlines_nil, hvisible _ htail, hvisible _ hseen_last, List.dropLast_concat]

/-- The number of a row as it is appended to its excerpt. -/
def citationMark (number : ℕ) : List Char := ' ' :: '[' :: Nat.toDigits 10 number ++ [']']

theorem cites_append_mark {number n : ℕ} (s : List Char) :
    Cites (s ++ citationMark number) n ↔ Cites s n ∨ n = number := by
  have hdigits : ∀ d ∈ Nat.toDigits 10 number, d.isDigit = true :=
    fun d hd ↦ Nat.isDigit_of_mem_toDigits (by decide) (by decide) hd
  rw [citationMark, List.cons_append, cites_append_cons (outside_of_isWhitespace (by decide)),
    cites_open Nat.toDigits_ne_nil hdigits, Nat.ofDigitChars_ten_toDigits]
  exact or_congr_right (or_iff_left not_cites_nil)

theorem newline_notMem_citationMark (number : ℕ) : '\n' ∉ citationMark number := by
  intro hmem
  simp only [citationMark, List.cons_append, List.mem_cons, List.mem_append] at hmem
  rcases hmem with hmem | hmem | hmem | hmem | hmem
  · exact absurd hmem (by decide)
  · exact absurd hmem (by decide)
  · exact absurd (Nat.isDigit_of_mem_toDigits (by decide) (by decide) hmem) (by decide)
  · exact absurd hmem (by decide)
  · cases hmem

theorem trim_citationMark_ne_nil (number : ℕ) : trim (citationMark number) ≠ [] := fun hnil ↦
  absurd (Iff.mp trim_eq_nil_iff hnil '[' (by simp [citationMark])) (by decide)

/-- An excerpt with the number of its row is grounded exactly when the excerpt
cites rows only and all its paragraphs but the last one cite a row. -/
theorem grounded_excerpt {count number : ℕ} {excerpt : List Char} (htrimmed : Trimmed excerpt)
    (hnumber : 1 ≤ number ∧ number ≤ count) :
    Grounded count (excerpt ++ citationMark number) ↔ CitesWithin count excerpt ∧
      ∀ paragraph ∈ (visibleParagraphs excerpt).dropLast, HasCitation count paragraph := by
  obtain ⟨lines, last, hparagraphs⟩ := visibleParagraphs_append_line htrimmed
    (newline_notMem_citationMark number) (trim_citationMark_ne_nil number)
  rw [Grounded, hparagraphs]
  constructor
  · rintro ⟨hwithin, hcited⟩
    exact ⟨fun n hn ↦ hwithin n (hn.append_right _),
      fun paragraph hmem ↦ hcited paragraph (List.mem_append_left _ hmem)⟩
  · rintro ⟨hwithin, hcited⟩
    refine ⟨fun n hn ↦ ?_, fun paragraph hmem ↦ ?_⟩
    · rcases Iff.mp (cites_append_mark excerpt) hn with hn | rfl
      · exact hwithin n hn
      · exact hnumber
    · rcases List.mem_append.mp hmem with hmem | hmem
      · exact hcited paragraph hmem
      · obtain rfl := List.mem_singleton.mp hmem
        exact ⟨last ++ citationMark number, List.mem_append_right _ List.mem_cons_self, number,
          Iff.mpr (cites_append_mark last) (.inr rfl), hnumber⟩

end Answer

end Cortana
