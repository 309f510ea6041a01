import Cortana.Text.Search
import Mathlib.Data.List.Infix
import Mathlib.Data.Nat.Digits.Defs

/-!
# Texts made of pieces

Messages are pieces with spaces between them.  A word without a space is inside
such a message exactly when it is inside one of the pieces, and lowering the
case of a message lowers the case of its pieces.
-/

namespace List

variable {α : Type*} {c : α} {pat s t : List α}

/-- What does not contain a separator cannot lie across it. -/
theorem infix_append_cons_iff (hc : c ∉ pat) (hpat : pat ≠ []) :
    pat <:+: s ++ c :: t ↔ pat <:+: s ∨ pat <:+: t := by
  have hnot : ∀ l : List α, l ≠ [] → l <+: c :: t → c ∈ l := by
    intro l hl hpre
    obtain ⟨b, l, rfl⟩ := exists_cons_of_ne_nil hl
    rw [(cons_prefix_cons.mp hpre).1]
    exact mem_cons_self
  constructor
  · intro h
    rcases infix_append_iff_ne_nil.mp h with h | h | ⟨l, r, -, hr, rfl, -, hpre⟩
    · exact .inl h
    · rcases infix_cons_iff.mp h with h | h
      · exact absurd (hnot pat hpat h) hc
      · exact .inr h
    · exact absurd (mem_append_right l (hnot r hr hpre)) hc
  · rintro (h | h)
    · exact h.trans (prefix_append s (c :: t)).isInfix
    · exact h.trans ((suffix_cons c t).isInfix.trans (suffix_append s (c :: t)).isInfix)

end List

namespace ByteText

theorem isSome_find_iff {pat s : List Char} : (find pat s).isSome = true ↔ pat <:+: s := by
  induction s with
  | nil =>
      rw [find, List.infix_nil]
      split_ifs with hpat <;> simp [hpat]
  | cons c s ih =>
      rw [find, List.infix_cons_iff, ← List.isPrefixOf_iff_prefix]
      split_ifs with hpre
      · simp [hpre]
      · simp [hpre, ih]

/-- A text contains the texts that are found in it. -/
theorem containsText_iff {pat s : List Char} : containsText s pat = true ↔ pat <:+: s :=
  isSome_find_iff

/-! ## Pieces with spaces between them -/

/-- The pieces of a message, with the spaces between them. -/
def spaced (pieces : List (List Char)) : List Char := [' '].intercalate pieces

@[simp] theorem spaced_nil : spaced [] = [] := rfl

@[simp] theorem spaced_singleton (piece : List Char) : spaced [piece] = piece := by
  simp [spaced]

theorem spaced_cons_cons (piece next : List Char) (rest : List (List Char)) :
    spaced (piece :: next :: rest) = piece ++ ' ' :: spaced (next :: rest) := by
  simp [spaced, List.intercalate_cons_cons]

/-- A word without a space is inside one of the pieces. -/
theorem infix_spaced_iff {word : List Char} (hspace : ' ' ∉ word) (hword : word ≠ [])
    {pieces : List (List Char)} :
    word <:+: spaced pieces ↔ ∃ piece ∈ pieces, word <:+: piece := by
  induction pieces with
  | nil => simp [hword]
  | cons piece pieces ih =>
      cases pieces with
      | nil => simp
      | cons next rest =>
          rw [spaced_cons_cons, List.infix_append_cons_iff hspace hword, ih]
          simp

/-- Whatever is inside a piece is inside the message. -/
theorem infix_spaced {text : List Char} (piece : List Char) {pieces : List (List Char)} (h : text <:+: piece)
    (hpiece : piece ∈ pieces) : text <:+: spaced pieces := by
  refine h.trans ?_
  induction pieces with
  | nil => cases hpiece
  | cons first pieces ih =>
      cases pieces with
      | nil =>
          rw [List.mem_singleton.mp hpiece, spaced_singleton]
      | cons next rest =>
          rw [spaced_cons_cons]
          rcases List.mem_cons.mp hpiece with rfl | hpiece
          · exact (List.prefix_append _ _).isInfix
          · exact (ih hpiece).trans
              ((List.suffix_cons ' ' _).isInfix.trans (List.suffix_append first _).isInfix)

/-! ## Lowering the case -/

/-- `str::to_lowercase`: a space separates texts that are lowered on their own,
and ASCII texts are lowered letter by letter. -/
structure Lowercase where
  toLowercase : List Char → List Char
  append_space : ∀ s t, toLowercase (s ++ ' ' :: t) = toLowercase s ++ ' ' :: toLowercase t
  ascii : ∀ s : List Char, (∀ c ∈ s, c.toNat < 128) → toLowercase s = toAsciiLowercase s

/-- The function as it is for ASCII. -/
def Lowercase.ofAscii : Lowercase where
  toLowercase := toAsciiLowercase
  append_space := by simp [toAsciiLowercase]
  ascii := fun _ _ ↦ rfl

namespace Lowercase

variable (lower : Lowercase)

theorem toLowercase_nil : lower.toLowercase [] = [] := lower.ascii [] (by simp)

theorem toLowercase_spaced (pieces : List (List Char)) :
    lower.toLowercase (spaced pieces) = spaced (pieces.map lower.toLowercase) := by
  induction pieces with
  | nil => exact lower.toLowercase_nil
  | cons piece pieces ih =>
      cases pieces with
      | nil => simp
      | cons next rest =>
          rw [spaced_cons_cons, lower.append_space, ih]
          exact (spaced_cons_cons _ _ _).symm

/-- A word without a space is in a lowered message exactly when it is in one of
the lowered pieces. -/
theorem contains_spaced_iff {word : List Char} (hspace : ' ' ∉ word) (hword : word ≠ [])
    (pieces : List (List Char)) :
    containsText (lower.toLowercase (spaced pieces)) word = true ↔
      ∃ piece ∈ pieces, containsText (lower.toLowercase piece) word = true := by
  rw [containsText_iff, toLowercase_spaced, infix_spaced_iff hspace hword]
  simp [containsText_iff]

/-- What an ASCII piece contains, the lowered message contains. -/
theorem contains_spaced {text piece : List Char} {pieces : List (List Char)}
    (hascii : ∀ c ∈ piece, c.toNat < 128) (h : containsText (toAsciiLowercase piece) text = true)
    (hpiece : piece ∈ pieces) :
    containsText (lower.toLowercase (spaced pieces)) text = true := by
  rw [containsText_iff] at h ⊢
  rw [toLowercase_spaced]
  refine infix_spaced (lower.toLowercase piece) ?_ (List.mem_map_of_mem hpiece)
  rwa [lower.ascii piece hascii]

/-- The digits of a number do not contain a word that begins with no digit. -/
theorem not_contains_toDigits {c : Char} {word : List Char} (n : ℕ) (hdigit : c.isDigit = false) :
    containsText (lower.toLowercase (Nat.toDigits 10 n)) (c :: word) = false := by
  have hdigits : ∀ d ∈ Nat.toDigits 10 n, d.isDigit = true := fun d hd ↦
    Nat.isDigit_of_mem_toDigits (by decide) (by decide) hd
  have hrange : ∀ d : Char, d.isDigit = true → 48 ≤ d.toNat ∧ d.toNat ≤ 57 := fun d hd ↦ by
    simpa [Char.isDigit, UInt32.le_iff_toNat_le] using hd
  have hlower : toAsciiLowercase (Nat.toDigits 10 n) = Nat.toDigits 10 n := by
    refine (List.map_congr_left fun d hd ↦ ?_).trans (List.map_id' _)
    refine dif_neg fun hupper ↦ ?_
    have hletter : 65 ≤ d.toNat := hupper.1
    have := hrange d (hdigits d hd)
    omega
  rw [lower.ascii _ fun d hd ↦ by have := hrange d (hdigits d hd); omega, hlower,
    Bool.eq_false_iff]
  intro hcontains
  obtain ⟨s, t, heq⟩ := Iff.mp containsText_iff hcontains
  have hmem : c ∈ Nat.toDigits 10 n := by simp [← heq]
  rw [hdigits c hmem] at hdigit
  cases hdigit

end Lowercase

end ByteText
