import Mathlib.Data.List.DropRight
import Cortana.Text.ByteOffsets

/-!
# Searching, trimming and splitting strings

The library functions of the string type that the chunker calls: substring
search from either end, trimming of Unicode white space, and splitting into
lines that keep their separator.
-/

namespace ByteText

/-- `char::is_control`. -/
def isControl (c : Char) : Bool := c.toNat < 32 || (127 ≤ c.toNat && c.toNat < 160)

/-! ## Prefixes -/

/-- `str::strip_prefix`. -/
def stripPrefix (pat s : List Char) : Option (List Char) :=
  if pat.isPrefixOf s then some (s.drop pat.length) else none

/-- `str::strip_suffix`. -/
def stripSuffix (pat s : List Char) : Option (List Char) :=
  if pat.isSuffixOf s then some (s.take (s.length - pat.length)) else none

theorem stripPrefix_eq_some_iff {pat s rest : List Char} :
    stripPrefix pat s = some rest ↔ s = pat ++ rest := by
  rw [stripPrefix]
  constructor
  · intro h
    split_ifs at h with hprefix
    obtain rfl := Option.some.inj h
    obtain ⟨tail, rfl⟩ := List.isPrefixOf_iff_prefix.mp hprefix
    rw [List.drop_left]
  · rintro rfl
    rw [if_pos (List.isPrefixOf_iff_prefix.mpr (List.prefix_append pat rest)), List.drop_left]

/-! ## Substring search -/

/-- `str::find`: the byte offset of the first occurrence. -/
def find (pat : List Char) : List Char → Option ℕ
  | [] => if pat = [] then some 0 else none
  | c :: s =>
      if pat.isPrefixOf (c :: s) then some 0
      else (find pat s).map (c.utf8Size + ·)

/-- `str::rfind`: the byte offset of the last occurrence. -/
def rfind (pat : List Char) : List Char → Option ℕ
  | [] => if pat = [] then some 0 else none
  | c :: s =>
      match rfind pat s with
      | some i => some (c.utf8Size + i)
      | none => if pat.isPrefixOf (c :: s) then some 0 else none

/-- `str::contains` for a substring. -/
def containsText (s pat : List Char) : Bool := (find pat s).isSome

theorem rfind_eq_some {pat s : List Char} {i : ℕ} (h : rfind pat s = some i) :
    ∃ p q, s = p ++ pat ++ q ∧ byteLen p = i := by
  induction s generalizing i with
  | nil =>
      by_cases hpat : pat = []
      · subst hpat
        obtain rfl : 0 = i := by simpa [rfind] using h
        exact ⟨[], [], rfl, rfl⟩
      · simp [rfind, hpat] at h
  | cons c s ih =>
      cases hrest : rfind pat s with
      | some j =>
          obtain rfl : c.utf8Size + j = i := by simpa [rfind, hrest] using h
          obtain ⟨p, q, rfl, rfl⟩ := ih hrest
          exact ⟨c :: p, q, rfl, by simp⟩
      | none =>
          by_cases hpre : pat.isPrefixOf (c :: s) = true
          · obtain rfl : 0 = i := by simpa [rfind, hrest, hpre] using h
            obtain ⟨q, hq⟩ := List.isPrefixOf_iff_prefix.mp hpre
            exact ⟨[], q, by simpa using hq.symm, rfl⟩
          · simp [rfind, hrest, hpre] at h

/-- The first occurrence cannot start inside a prefix none of whose characters
is the first one of the pattern. -/
theorem find_append_of_forall_ne {l : List Char} {c : Char} {t r : List Char}
    (hl : ∀ d ∈ l, d ≠ c) : find (c :: t) (l ++ (c :: t) ++ r) = some (byteLen l) := by
  induction l with
  | nil => simp [find]
  | cons d l ih =>
      have hd : c ≠ d := fun h ↦ hl d List.mem_cons_self h.symm
      have hrest := ih fun e he ↦ hl e (List.mem_cons_of_mem d he)
      simp only [List.append_assoc, List.cons_append] at hrest ⊢
      simp [find, hrest, hd]

/-! ## Trimming -/

/-- `char::is_whitespace`: the Unicode `White_Space` property. -/
def isWhitespace (c : Char) : Bool :=
  let n := c.toNat
  (9 ≤ n && n ≤ 13) || n == 32 || n == 133 || n == 160 || n == 5760 ||
    (8192 ≤ n && n ≤ 8202) || n == 8232 || n == 8233 || n == 8239 || n == 8287 ||
    n == 12288

/-- `str::trim_start`. -/
def trimStart (s : List Char) : List Char := s.dropWhile isWhitespace

/-- `str::trim`. -/
def trim (s : List Char) : List Char := (trimStart s).rdropWhile isWhitespace

/-- No white space at either end. -/
def Trimmed (t : List Char) : Prop :=
  (∀ c ∈ t.head?, isWhitespace c = false) ∧ ∀ c ∈ t.getLast?, isWhitespace c = false

/-- What trimming cuts off on either side is white space. -/
theorem trim_decomposition (s : List Char) :
    ∃ l r, s = l ++ trim s ++ r ∧ (∀ c ∈ l, isWhitespace c = true) ∧
      ∀ c ∈ r, isWhitespace c = true := by
  refine ⟨s.takeWhile isWhitespace, (trimStart s).rtakeWhile isWhitespace, ?_, ?_, ?_⟩
  · have hright : trim s ++ (trimStart s).rtakeWhile isWhitespace = trimStart s := by
      rw [trim, List.rdropWhile, List.rtakeWhile, ← List.reverse_append,
        List.takeWhile_append_dropWhile, List.reverse_reverse]
    rw [List.append_assoc, hright, trimStart, List.takeWhile_append_dropWhile]
  · exact fun c hc ↦ List.mem_takeWhile_imp hc
  · exact fun c hc ↦ List.mem_rtakeWhile_imp hc

theorem trim_trimmed (s : List Char) : Trimmed (trim s) := by
  constructor
  · intro c hc
    have hne : trim s ≠ [] := by
      rintro hnil
      simp [hnil] at hc
    have hpre : trim s <+: trimStart s := List.rdropWhile_prefix _ _
    obtain ⟨rest, hrest⟩ := hpre
    have hhead : (trimStart s).head? = some c := by
      rw [← hrest, List.head?_append_of_ne_nil _ hne]
      exact hc
    have hnot := List.head?_dropWhile_not isWhitespace s
    rw [show s.dropWhile isWhitespace = trimStart s from rfl, hhead] at hnot
    simpa using hnot
  · intro c hc
    have hne : trim s ≠ [] := by
      rintro hnil
      simp [hnil] at hc
    have hlast := List.rdropWhile_last_not isWhitespace (trimStart s) hne
    have hget : (trim s).getLast hne = c := by
      rw [List.getLast?_eq_some_getLast hne] at hc
      simpa using hc
    rw [← hget]
    simpa [trim] using hlast

/-- The trimmed text of a string is found where the leading white space
ends, and it is empty only when the string is blank. -/
theorem find_trim {s : List Char} (h : trim s ≠ []) :
    ∃ l r, s = l ++ trim s ++ r ∧ find (trim s) s = some (byteLen l) ∧
      (∀ c ∈ l, isWhitespace c = true) ∧ ∀ c ∈ r, isWhitespace c = true := by
  obtain ⟨l, r, hs, hl, hr⟩ := trim_decomposition s
  refine ⟨l, r, hs, ?_, hl, hr⟩
  obtain ⟨c, t, hct⟩ := List.exists_cons_of_ne_nil h
  have hc : isWhitespace c = false := (trim_trimmed s).1 c (by simp [hct])
  have hne : ∀ d ∈ l, d ≠ c := by
    rintro d hd rfl
    simp [hl d hd] at hc
  have hfind := find_append_of_forall_ne (t := t) (r := r) hne
  rw [← hct, ← hs] at hfind
  exact hfind

theorem trim_eq_nil_iff {s : List Char} :
    trim s = [] ↔ ∀ c ∈ s, isWhitespace c = true := by
  constructor
  · intro h c hc
    obtain ⟨l, r, hs, hl, hr⟩ := trim_decomposition s
    rw [hs, h, List.append_nil, List.mem_append] at hc
    exact hc.elim (hl c) (hr c)
  · intro h
    have hstart : trimStart s = [] := List.dropWhile_eq_nil_iff.mpr h
    simp [trim, hstart]

/-- `split_whitespace`. -/
def splitWhitespace (s : List Char) : List (List Char) :=
  (s.splitOnP isWhitespace).filter (· ≠ [])

/-! ## Lines -/

/-- `str::split_inclusive` at one character. -/
def splitInclusive (sep : Char) : List Char → List (List Char)
  | [] => []
  | c :: s =>
      if c = sep then [c] :: splitInclusive sep s
      else
        match splitInclusive sep s with
        | [] => [[c]]
        | line :: lines => (c :: line) :: lines

theorem flatten_splitInclusive (sep : Char) (s : List Char) :
    (splitInclusive sep s).flatten = s := by
  induction s with
  | nil => rfl
  | cons c s ih =>
      rw [splitInclusive]
      split_ifs with hc
      · simp [ih]
      · split
        · next h =>
            rw [h] at ih
            simp [← ih]
        · next line lines h =>
            rw [h] at ih
            simp [← ih]

/-- Pair every piece with the offset it starts at. -/
def withOffsets : ℕ → List (List Char) → List (ℕ × List Char)
  | _, [] => []
  | offset, line :: lines => (offset, line) :: withOffsets (offset + byteLen line) lines

/-- `str::to_ascii_lowercase`. -/
def toAsciiLowercase (s : List Char) : List Char := s.map Char.toLower

/-- The first separator tells a text apart from what follows. -/
theorem append_cons_inj_of_notMem {α : Type*} {sep : α} {l l' x y : List α}
    (hl : sep ∉ l) (hl' : sep ∉ l') (h : l ++ sep :: x = l' ++ sep :: y) : l = l' ∧ x = y := by
  induction l generalizing l' with
  | nil =>
      cases l' with
      | nil => simpa using h
      | cons b l' =>
          simp only [List.nil_append, List.cons_append, List.cons.injEq] at h
          exact absurd (h.1 ▸ List.mem_cons_self) hl'
  | cons a l ih =>
      cases l' with
      | nil =>
          simp only [List.nil_append, List.cons_append, List.cons.injEq] at h
          exact absurd (h.1 ▸ List.mem_cons_self) hl
      | cons b l' =>
          simp only [List.cons_append, List.cons.injEq] at h
          obtain ⟨rfl, hrest⟩ := h
          obtain ⟨rfl, hxy⟩ := ih (fun hm ↦ hl (List.mem_cons_of_mem _ hm))
            (fun hm ↦ hl' (List.mem_cons_of_mem _ hm)) hrest
          exact ⟨rfl, hxy⟩

/-- The last separator tells a text apart from what precedes. -/
theorem append_cons_inj_of_notMem_right {α : Type*} {sep : α} {l l' x y : List α}
    (hx : sep ∉ x) (hy : sep ∉ y) (h : l ++ sep :: x = l' ++ sep :: y) : l = l' := by
  have hreverse := congrArg List.reverse h
  simp only [List.reverse_append, List.reverse_cons, List.append_assoc, List.singleton_append]
    at hreverse
  exact List.reverse_injective
    (append_cons_inj_of_notMem (by simpa using hx) (by simpa using hy) hreverse).2

/-- The digits of a number have no other characters. -/
theorem notMem_toDigits {c : Char} (hc : c.isDigit = false) (n : ℕ) : c ∉ Nat.toDigits 10 n := by
  intro h
  have hdigit := Nat.isDigit_of_mem_toDigits (by omega) (by omega) h
  rw [hc] at hdigit
  cases hdigit

theorem toDigits_injective {m n : ℕ} (h : Nat.toDigits 10 m = Nat.toDigits 10 n) : m = n := by
  have hm := Nat.ofDigitChars_ten_toDigits (n := m)
  rw [h, Nat.ofDigitChars_ten_toDigits] at hm
  exact hm.symm

end ByteText
