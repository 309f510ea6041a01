import Mathlib.Algebra.Order.Field.Rat
import Cortana.Text.Case
import Cortana.Text.Unicode
import Cortana.Core.Loops

/-!
# Coverage of a query by a memory

`term_tokens` and the share of the terms that begin a word of a memory, next to
what the index matches.  The tables of characters and the tokenizer of the index
are parameters.
-/

namespace Cortana

open ByteText

namespace Store

def maxMemoryContentBytes : ℕ := 64 * 1024

def memoryStopwords : List String :=
  ["a", "an", "and", "are", "as", "at", "be", "been", "but", "by", "can", "could", "did", "do",
    "does", "for", "from", "had", "has", "have", "how", "i", "if", "in", "into", "is", "it", "its",
    "may", "me", "my", "of", "on", "or", "our", "should", "that", "the", "their", "there", "this",
    "to", "was", "what", "when", "where", "who", "will", "with", "would", "you", "your"]

/-- `is_stopword`. -/
def isStopword (term : List Char) : Bool :=
  memoryStopwords.any fun stopword ↦
    toAsciiLowercase term = toAsciiLowercase stopword.toList

section Terms

variable (unicode : Unicode)

/-- The terms of a query, before it is checked that there are some. -/
def searchableTerms (query : List Char) : List (List Char) :=
  (((splitWhitespace query).map fun term ↦
    term.filter fun c ↦ unicode.isAlphanumeric c || c == '_').filter fun term ↦
      term ≠ [] && !isStopword term).take 16

/-- `term_tokens`. -/
def termTokens (query : List Char) : Except String (List (List Char)) := do
  Except.require (byteLen query ≤ maxMemoryContentBytes) "memory query is too long"
  let terms := searchableTerms unicode query
  Except.require (terms ≠ []) "memory query must contain searchable terms"
  return terms

/-- `memory_contains_prefix_token`. -/
def memoryContainsPrefixToken (haystack term : List Char) : Bool :=
  ((unicode.words haystack).filter (· ≠ [])).any (term.isPrefixOf ·)

/-- The title and content of a memory as one text in lower case. -/
def haystack (title content : List Char) : List Char :=
  unicode.toLowercase (title ++ ' ' :: content)

/-- The terms that are counted. -/
def matched (title content : List Char) (queryTerms : List (List Char)) : ℕ :=
  (queryTerms.filter (memoryContainsPrefixToken unicode (haystack unicode title content))).length

/-- The coverage in `memory_relevance_score`. -/
def coverage (title content : List Char) (queryTerms : List (List Char)) : ℚ :=
  if queryTerms.isEmpty then 0
  else matched unicode title content queryTerms / queryTerms.length

end Terms

/-! ## The index -/

/-- The tokenizer of the index: which characters tokens are made of, and how a
token is folded. -/
structure Unicode61 where
  isToken : Char → Bool
  fold : List Char → List Char

def Unicode61.tokens (tokenizer : Unicode61) (text : List Char) : List (List Char) :=
  ((text.splitOnP fun c ↦ !tokenizer.isToken c).filter (· ≠ [])).map tokenizer.fold

/-- The tokens of a phrase stand in a column, the last one as the start of one. -/
def PhraseOccurs (phrase column : List (List Char)) : Prop :=
  ∃ before first last word after, phrase = first ++ [last] ∧
    column = before ++ first ++ word :: after ∧ last <+: word

/-- A quoted term with a star matches a row. -/
def Unicode61.Matches (tokenizer : Unicode61) (term title content : List Char) : Prop :=
  PhraseOccurs (tokenizer.tokens term) (tokenizer.tokens title) ∨
    PhraseOccurs (tokenizer.tokens term) (tokenizer.tokens content)

/-! ## Case -/

/-- What the tables say of ASCII letters. -/
structure AsciiTables (unicode : Unicode) : Prop where
  alphanumeric : ∀ c, unicode.isAlphanumeric c.toLower = unicode.isAlphanumeric c
  caseless : ∀ s t, SameCase s t → unicode.toLowercase s = unicode.toLowercase t
  lower : ∀ s, ∀ c ∈ unicode.toLowercase s, c.isUpper = false

/-- The tokenizer does not tell the cases of ASCII letters apart. -/
structure Unicode61.Caseless (tokenizer : Unicode61) : Prop where
  token : ∀ c, tokenizer.isToken c.toLower = tokenizer.isToken c
  fold : ∀ s, tokenizer.fold (toAsciiLowercase s) = tokenizer.fold s

/-- A term has an ASCII letter. -/
def HasLetter (term : List Char) : Prop := ∃ c ∈ term, c.isAlpha = true

/-- A term has an ASCII capital. -/
def HasCapital (term : List Char) : Prop := ∃ c ∈ term, c.isUpper = true

/-- A term begins a word of a memory when case does not count. -/
def BeginsWord (unicode : Unicode) (title content term : List Char) : Prop :=
  memoryContainsPrefixToken unicode (haystack unicode title content) (toAsciiLowercase term) = true

theorem isStopword_congr {s t : List Char} (h : SameCase s t) : isStopword s = isStopword t := by
  rw [isStopword, isStopword, h]

theorem hasLetter_congr {s t : List Char} (h : SameCase s t) : HasLetter s ↔ HasLetter t := by
  have hlower : ∀ u : List Char, HasLetter u ↔ HasLetter (toAsciiLowercase u) := by
    intro u
    simp [HasLetter, toAsciiLowercase]
  rw [hlower s, hlower t, h]

theorem toAsciiLowercase_of_not_hasCapital {s : List Char} (h : ¬HasCapital s) :
    toAsciiLowercase s = s := by
  refine toAsciiLowercase_eq_self fun c hc ↦ ?_
  by_contra hupper
  exact h ⟨c, hc, by simpa using hupper⟩

theorem hasLetter_of_hasCapital {s : List Char} (h : HasCapital s) : HasLetter s := by
  obtain ⟨c, hc, hupper⟩ := h
  exact ⟨c, hc, by simp [Char.isAlpha, hupper]⟩

/-- A text without ASCII letters has one case. -/
theorem eq_of_sameCase {s t : List Char} (h : SameCase s t) (hs : ¬HasLetter s) : s = t := by
  have ht : ¬HasLetter t := mt (Iff.mpr (hasLetter_congr h)) hs
  rw [← toAsciiLowercase_of_not_hasCapital (mt hasLetter_of_hasCapital hs),
    ← toAsciiLowercase_of_not_hasCapital (mt hasLetter_of_hasCapital ht)]
  exact h

theorem hasCapital_map_toUpper {s : List Char} (h : HasLetter s) : HasCapital (s.map Char.toUpper) := by
  obtain ⟨c, hc, hletter⟩ := h
  exact ⟨c.toUpper, List.mem_map_of_mem hc, by simpa using hletter⟩

section Query

variable {unicode : Unicode}

theorem searchableTerms_map (htables : AsciiTables unicode) {f : Char → Char} (hf : Recases f)
    (query : List Char) :
    searchableTerms unicode (query.map f) = (searchableTerms unicode query).map (List.map f) := by
  have hkept : ∀ c, (unicode.isAlphanumeric (f c) || f c == '_') =
      (unicode.isAlphanumeric c || c == '_') :=
    hf.apply_eq (p := fun c ↦ unicode.isAlphanumeric c || c == '_') fun c ↦ by
      rw [htables.alphanumeric, beq_toLower (by decide)]
  have hfilter : ∀ term : List Char,
      (term.map f).filter (fun c ↦ unicode.isAlphanumeric c || c == '_') =
        (term.filter fun c ↦ unicode.isAlphanumeric c || c == '_').map f := by
    intro term
    rw [List.filter_map]
    congr 1
    exact List.filter_congr fun c _ ↦ hkept c
  have hstop : ∀ term : List Char, (decide (term.map f ≠ []) && !isStopword (term.map f)) =
      (decide (term ≠ []) && !isStopword term) := by
    intro term
    rw [isStopword_congr (hf.sameCase term)]
    simp
  rw [searchableTerms, splitWhitespace, splitOnP_map_of_eq (hf.apply_eq isWhitespace_toLower),
    filter_ne_nil_map, List.map_map]
  have hmap : (((query.splitOnP isWhitespace).filter (· ≠ [])).map
      ((fun term : List Char ↦ term.filter fun c ↦ unicode.isAlphanumeric c || c == '_') ∘
        List.map f)) = ((splitWhitespace query).map fun term ↦
          term.filter fun c ↦ unicode.isAlphanumeric c || c == '_').map (List.map f) := by
    rw [List.map_map]
    exact List.map_congr_left fun term _ ↦ hfilter term
  rw [hmap, List.filter_map, ← List.map_take, searchableTerms]
  congr 2
  exact List.filter_congr fun term _ ↦ hstop term

theorem termTokens_ok_iff {query : List Char} {terms : List (List Char)} :
    termTokens unicode query = .ok terms ↔
      byteLen query ≤ maxMemoryContentBytes ∧ terms ≠ [] ∧ searchableTerms unicode query = terms := by
  rw [termTokens, Except.bind_ok_iff]
  constructor
  · rintro ⟨_, hlength, h⟩
    obtain ⟨_, hterms, h⟩ := Iff.mp Except.bind_ok_iff h
    obtain rfl := Except.ok.inj h
    exact ⟨Iff.mp Except.require_ok_iff hlength, Iff.mp Except.require_ok_iff hterms, rfl⟩
  · rintro ⟨hlength, hterms, rfl⟩
    exact ⟨(), Iff.mpr Except.require_ok_iff hlength,
      Iff.mpr Except.bind_ok_iff ⟨(), Iff.mpr Except.require_ok_iff hterms, rfl⟩⟩

theorem termTokens_map (htables : AsciiTables unicode) {f : Char → Char} (hf : Recases f)
    {query : List Char} {terms : List (List Char)} (h : termTokens unicode query = .ok terms) :
    termTokens unicode (query.map f) = .ok (terms.map (List.map f)) := by
  obtain ⟨hlength, hterms, rfl⟩ := Iff.mp termTokens_ok_iff h
  refine Iff.mpr termTokens_ok_iff ⟨?_, ?_, searchableTerms_map htables hf query⟩
  · rwa [hf.byteLen_map]
  · simpa using hterms

/-- Queries that differ in case have terms that differ in case. -/
theorem map_termTokens_congr (htables : AsciiTables unicode) {query query' : List Char}
    {terms terms' : List (List Char)} (hsame : SameCase query query')
    (h : termTokens unicode query = .ok terms) (h' : termTokens unicode query' = .ok terms') :
    terms.map toAsciiLowercase = terms'.map toAsciiLowercase := by
  have hlower := termTokens_map htables recases_toLower h
  have hlower' := termTokens_map htables recases_toLower h'
  have hquery : query.map Char.toLower = query'.map Char.toLower := hsame
  rw [hquery] at hlower
  exact Except.ok.inj (hlower.symm.trans hlower')

end Query

/-! ## What is covered -/

section Covered

variable {unicode : Unicode} {title content : List Char}

theorem haystack_congr (htables : AsciiTables unicode) {title' content' : List Char}
    (htitle : SameCase title title') (hcontent : SameCase content content') :
    haystack unicode title' content' = haystack unicode title content := by
  refine htables.caseless _ _ ?_
  rw [SameCase, toAsciiLowercase, toAsciiLowercase, List.map_append, List.map_append, List.map_cons,
    List.map_cons]
  rw [SameCase, toAsciiLowercase, toAsciiLowercase] at htitle hcontent
  rw [htitle, hcontent]

/-- A term with a capital is not found: the memory is in lower case. -/
theorem not_covered_of_hasCapital (htables : AsciiTables unicode) {term : List Char}
    (h : HasCapital term) :
    memoryContainsPrefixToken unicode (haystack unicode title content) term = false := by
  rw [memoryContainsPrefixToken, List.any_eq_false]
  intro token htoken hprefix
  obtain ⟨c, hc, hupper⟩ := h
  have hword := (List.mem_filter.mp htoken).1
  have hmem : c ∈ haystack unicode title content :=
    mem_of_mem_splitOnP hword ((List.isPrefixOf_iff_prefix.mp hprefix).subset hc)
  rw [htables.lower _ c hmem] at hupper
  cases hupper

/-- What is covered begins a word, and is without capitals. -/
theorem covered_iff (htables : AsciiTables unicode) (term : List Char) :
    memoryContainsPrefixToken unicode (haystack unicode title content) term = true ↔
      ¬HasCapital term ∧ BeginsWord unicode title content term := by
  by_cases hcapital : HasCapital term
  · simp [not_covered_of_hasCapital htables hcapital, hcapital]
  · rw [BeginsWord, toAsciiLowercase_of_not_hasCapital hcapital]
    simp [hcapital]

theorem beginsWord_congr (htables : AsciiTables unicode) {title' content' term term' : List Char}
    (htitle : SameCase title title') (hcontent : SameCase content content')
    (hterm : SameCase term term') :
    BeginsWord unicode title' content' term' ↔ BeginsWord unicode title content term := by
  rw [BeginsWord, BeginsWord, haystack_congr htables htitle hcontent, hterm]

theorem coverage_eq_iff {title' content' : List Char} {terms terms' : List (List Char)}
    (hterms : terms ≠ []) (hlength : terms.length = terms'.length) :
    coverage unicode title content terms = coverage unicode title' content' terms' ↔
      matched unicode title content terms = matched unicode title' content' terms' := by
  have hterms' : terms' ≠ [] := List.ne_nil_of_length_pos (hlength ▸ List.length_pos_of_ne_nil hterms)
  have hzero : (terms'.length : ℚ) ≠ 0 := by
    exact_mod_cast (List.length_pos_of_ne_nil hterms').ne'
  rw [coverage, coverage, List.isEmpty_eq_false_iff.mpr hterms, List.isEmpty_eq_false_iff.mpr hterms',
    if_neg Bool.false_ne_true, if_neg Bool.false_ne_true, hlength, div_left_inj' hzero, Nat.cast_inj]

theorem matched_map (f : List Char → List Char) (terms : List (List Char)) :
    matched unicode title content (terms.map f) = (terms.filter fun term ↦
      memoryContainsPrefixToken unicode (haystack unicode title content) (f term)).length := by
  rw [matched, List.filter_map, List.length_map]
  rfl

end Covered

/-! ## What the index matches -/

section Index

variable {tokenizer : Unicode61}

theorem tokens_congr (h : tokenizer.Caseless) {s t : List Char} (hsame : SameCase s t) :
    tokenizer.tokens s = tokenizer.tokens t := by
  have hlower : ∀ u, tokenizer.tokens (toAsciiLowercase u) = tokenizer.tokens u := by
    intro u
    have hsplit : ∀ c : Char, (!tokenizer.isToken c.toLower) = !tokenizer.isToken c :=
      fun c ↦ by rw [h.token]
    rw [Unicode61.tokens, toAsciiLowercase, splitOnP_map_of_eq hsplit, filter_ne_nil_map,
      List.map_map, Unicode61.tokens]
    exact List.map_congr_left fun token _ ↦ h.fold token
  rw [← hlower s, ← hlower t, hsame]

theorem matches_congr (h : tokenizer.Caseless) {term term' title title' content content' : List Char}
    (hterm : SameCase term term') (htitle : SameCase title title')
    (hcontent : SameCase content content') :
    tokenizer.Matches term' title' content' ↔ tokenizer.Matches term title content := by
  rw [Unicode61.Matches, Unicode61.Matches, tokens_congr h hterm, tokens_congr h htitle,
    tokens_congr h hcontent]

end Index

/-! ## When case does not count -/

/-- Two conditions that hold equally often, one of which implies the other. -/
theorem forall_of_length_filter_eq {α : Type*} {p q : α → Bool} {l : List α}
    (hmono : ∀ a ∈ l, p a = true → q a = true)
    (h : (l.filter p).length = (l.filter q).length) : ∀ a ∈ l, q a = true → p a = true := by
  have hsub : (l.filter q).filter p = l.filter p := by
    rw [List.filter_filter]
    refine List.filter_congr fun a ha ↦ ?_
    have := hmono a ha
    cases hp : p a <;> simp_all
  have hsame : l.filter p = l.filter q :=
    (hsub ▸ List.filter_sublist : (l.filter p).Sublist (l.filter q)).eq_of_length h
  intro a ha hq
  exact (List.mem_filter.mp (hsame ▸ List.mem_filter.mpr ⟨ha, hq⟩ : a ∈ l.filter p)).2

theorem length_filter_congr {α : Type*} {R : α → α → Prop} {p q : α → Bool} {l l' : List α}
    (hrel : List.Forall₂ R l l') (h : ∀ a ∈ l, ∀ b, R a b → p a = q b) :
    (l.filter p).length = (l'.filter q).length := by
  induction hrel with
  | nil => rfl
  | @cons a b l l' hab _ ih =>
      have hrest := ih fun a ha ↦ h a (List.mem_cons_of_mem _ ha)
      rw [List.filter_cons, List.filter_cons, h a List.mem_cons_self b hab]
      split
      · rw [List.length_cons, List.length_cons, hrest]
      · exact hrest

section Main

variable {unicode : Unicode} {tokenizer : Unicode61} {query title content : List Char}
  {terms : List (List Char)}

/-- A term for which case does not count: it has one case, or is in no case found. -/
def CaselessTerm (unicode : Unicode) (tokenizer : Unicode61) (title content term : List Char) :
    Prop :=
  (HasLetter term → ¬BeginsWord unicode title content term) ∧
    (tokenizer.Matches term title content →
      ¬HasLetter term ∧ BeginsWord unicode title content term)

/-- Neither the case of the query nor of the memory counts, and what the index
matches is covered. -/
def CaselessCoverage (unicode : Unicode) (tokenizer : Unicode61) (query title content : List Char)
    (terms : List (List Char)) : Prop :=
  ∀ query' title' content' terms', SameCase query query' → SameCase title title' →
    SameCase content content' → termTokens unicode query' = .ok terms' →
      coverage unicode title' content' terms' = coverage unicode title content terms ∧
        ∀ term ∈ terms', tokenizer.Matches term title' content' →
          memoryContainsPrefixToken unicode (haystack unicode title' content') term = true

theorem caselessTerm_of_caselessCoverage (htables : AsciiTables unicode)
    (htokenizer : tokenizer.Caseless) (hterms : termTokens unicode query = .ok terms)
    (h : CaselessCoverage unicode tokenizer query title content terms) :
    ∀ term ∈ terms, CaselessTerm unicode tokenizer title content term := by
  have hne := (Iff.mp termTokens_ok_iff hterms).2.1
  obtain ⟨hupper, hmatched⟩ := h _ title content _ (recases_toUpper.sameCase query).symm rfl rfl
    (termTokens_map htables recases_toUpper hterms)
  obtain ⟨hlower, -⟩ := h _ title content _ (recases_toLower.sameCase query).symm rfl rfl
    (termTokens_map htables recases_toLower hterms)
  have hcount := Iff.mp (coverage_eq_iff (by simpa using hne) (by simp))
    (hupper.trans hlower.symm)
  rw [matched_map, matched_map] at hcount
  have hbegins : ∀ term, BeginsWord unicode title content (term.map Char.toUpper) ↔
      BeginsWord unicode title content term :=
    fun term ↦ beginsWord_congr htables rfl rfl (recases_toUpper.sameCase term).symm
  have hfound := forall_of_length_filter_eq
    (fun term _ hterm ↦ Iff.mp (hbegins term) (Iff.mp (covered_iff htables _) hterm).2) hcount
  intro term hterm
  refine ⟨fun hletter hword ↦ ?_, fun hmatch ↦ ?_⟩
  · have hcovered := hfound term hterm hword
    exact (Iff.mp (covered_iff htables _) hcovered).1 (hasCapital_map_toUpper hletter)
  · have hcovered := hmatched (term.map Char.toUpper) (List.mem_map_of_mem hterm)
      (Iff.mpr (matches_congr htokenizer (recases_toUpper.sameCase term).symm rfl rfl) hmatch)
    obtain ⟨hcapital, hword⟩ := Iff.mp (covered_iff htables _) hcovered
    exact ⟨fun hletter ↦ hcapital (hasCapital_map_toUpper hletter), Iff.mp (hbegins term) hword⟩

theorem caselessCoverage_of_caselessTerm (htables : AsciiTables unicode)
    (htokenizer : tokenizer.Caseless) (hterms : termTokens unicode query = .ok terms)
    (h : ∀ term ∈ terms, CaselessTerm unicode tokenizer title content term) :
    CaselessCoverage unicode tokenizer query title content terms := by
  intro query' title' content' terms' hquery htitle hcontent hterms'
  have hmap := map_termTokens_congr htables hquery hterms hterms'
  have hpairs : List.Forall₂ SameCase terms terms' := by
    have hsame : List.Forall₂ (· = ·) (terms.map toAsciiLowercase) (terms'.map toAsciiLowercase) :=
      hmap ▸ List.forall₂_refl _
    rwa [List.forall₂_map_left_iff, List.forall₂_map_right_iff] at hsame
  have hcovered : ∀ term ∈ terms, ∀ term', SameCase term term' →
      memoryContainsPrefixToken unicode (haystack unicode title content) term =
        memoryContainsPrefixToken unicode (haystack unicode title' content') term' := by
    intro term hterm term' hsame
    by_cases hletter : HasLetter term
    · have hnot := (h term hterm).1 hletter
      have hnot' := mt (Iff.mp (beginsWord_congr htables htitle hcontent hsame)) hnot
      rw [Bool.eq_false_iff.mpr fun hc ↦ hnot (Iff.mp (covered_iff htables _) hc).2,
        Bool.eq_false_iff.mpr fun hc ↦ hnot' (Iff.mp (covered_iff htables _) hc).2]
    · obtain rfl := eq_of_sameCase hsame hletter
      rw [haystack_congr htables htitle hcontent]
  refine ⟨?_, fun term' hterm' hmatch ↦ ?_⟩
  · refine (Iff.mpr (coverage_eq_iff (Iff.mp termTokens_ok_iff hterms).2.1 hpairs.length_eq) ?_).symm
    exact length_filter_congr hpairs hcovered
  · obtain ⟨term, hterm, hsame⟩ := List.mem_map.mp (hmap ▸ List.mem_map_of_mem hterm')
    have hmatch' := Iff.mp (matches_congr htokenizer hsame htitle hcontent) hmatch
    obtain ⟨hletter, hword⟩ := (h term hterm).2 hmatch'
    rw [← hcovered term hterm term' hsame]
    exact Iff.mpr (covered_iff htables _) ⟨mt hasLetter_of_hasCapital hletter, hword⟩

/-- Case does not count exactly when no term with a letter is found in any case
and the other terms that are matched begin a word; a query is covered like the
same query in lower case exactly when no term with a capital begins a word. -/
theorem coverage_caseless_iff (htables : AsciiTables unicode) (htokenizer : tokenizer.Caseless)
    (hterms : termTokens unicode query = .ok terms) :
    (CaselessCoverage unicode tokenizer query title content terms ↔
        ∀ term ∈ terms, CaselessTerm unicode tokenizer title content term) ∧
      ∀ lowered, termTokens unicode (toAsciiLowercase query) = .ok lowered →
        (coverage unicode title content terms = coverage unicode title content lowered ↔
          ∀ term ∈ terms, HasCapital term → ¬BeginsWord unicode title content term) := by
  refine ⟨⟨caselessTerm_of_caselessCoverage htables htokenizer hterms,
    caselessCoverage_of_caselessTerm htables htokenizer hterms⟩, fun lowered hlowered ↦ ?_⟩
  obtain rfl := Except.ok.inj ((termTokens_map htables recases_toLower hterms).symm.trans hlowered)
  have hself := @matched_map unicode title content id terms
  rw [List.map_id] at hself
  rw [coverage_eq_iff (Iff.mp termTokens_ok_iff hterms).2.1 (by simp), hself, matched_map]
  constructor
  · intro hcount term hterm hcapital hword
    have hfound := forall_of_length_filter_eq
      (fun term _ hcovered ↦ (Iff.mp (covered_iff htables term) hcovered).2) hcount term hterm hword
    exact (Iff.mp (covered_iff htables term) hfound).1 hcapital
  · intro hcondition
    congr 1
    refine List.filter_congr fun term hterm ↦ Bool.eq_iff_iff.mpr ?_
    constructor
    · exact fun hcovered ↦ (Iff.mp (covered_iff htables term) hcovered).2
    · exact fun hword ↦ Iff.mpr (covered_iff htables term)
        ⟨fun hcapital ↦ hcondition term hterm hcapital hword, hword⟩

end Main

/-- The tokenizer as it is for ASCII. -/
def Unicode61.ascii : Unicode61 := ⟨Char.isAlphanum, toAsciiLowercase⟩

theorem asciiTables_ascii : AsciiTables Unicode.ascii where
  alphanumeric c := by simp [Unicode.ascii, Char.isAlphanum, isDigit_toLower]
  caseless _ _ h := h
  lower s c hc := by
    obtain ⟨d, -, rfl⟩ := List.mem_map.mp hc
    exact Char.isUpper_toLower_eq_false d

theorem caseless_ascii : Unicode61.ascii.Caseless where
  token c := by simp [Unicode61.ascii, Char.isAlphanum, isDigit_toLower]
  fold s := by simp [Unicode61.ascii, toAsciiLowercase]

/-- A query with a capital is not covered by a memory with the same word. -/
theorem coverage_capital :
    termTokens Unicode.ascii "Release".toList = .ok ["Release".toList] ∧
      ¬CaselessCoverage Unicode.ascii Unicode61.ascii "Release".toList "release".toList
        "notes".toList ["Release".toList] := by
  refine ⟨by decide +kernel, fun h ↦ ?_⟩
  have hlower := (h "release".toList "release".toList "notes".toList ["release".toList]
    (by unfold SameCase; decide +kernel) rfl rfl (by decide +kernel)).1
  revert hlower
  decide +kernel

/-- A query of a number is covered in any case. -/
theorem coverage_caseless_iff_number :
    CaselessCoverage Unicode.ascii Unicode61.ascii "2024".toList "plan 2024".toList
      "budget".toList ["2024".toList] := by
  refine (coverage_caseless_iff asciiTables_ascii caseless_ascii (by decide +kernel)).1.mpr ?_
  intro term hterm
  obtain rfl := List.mem_singleton.mp hterm
  have hletter : ¬HasLetter "2024".toList := by
    rintro ⟨c, hc, hletter⟩
    have hdigits : ("2024".toList.all fun c ↦ !c.isAlpha) = true := by decide +kernel
    simpa [hletter] using List.all_eq_true.mp hdigits c hc
  exact ⟨fun h ↦ absurd h hletter, fun _ ↦ ⟨hletter, by unfold BeginsWord; decide +kernel⟩⟩

end Store

end Cortana
