import Cortana.Text.ByteOffsets
import Mathlib.Data.Nat.Digits.Defs
import Mathlib.Order.Monotone.Basic
import Mathlib.Order.Nat

/-!
# JSON texts and their sizes

A writer of compact JSON.  An object is one field after the other, so that the
size of its text is the sum of what its fields take.
-/

namespace JsonText

open ByteText

/-- A character inside a string. -/
def escaped (c : Char) : List Char :=
  if c = '"' then ['\\', '"']
  else if c = '\\' then ['\\', '\\']
  else if c.toNat = 8 then ['\\', 'b']
  else if c.toNat = 9 then ['\\', 't']
  else if c.toNat = 10 then ['\\', 'n']
  else if c.toNat = 12 then ['\\', 'f']
  else if c.toNat = 13 then ['\\', 'r']
  else if c.toNat < 32 then
    ['\\', 'u', '0', '0', Nat.digitChar (c.toNat / 16), Nat.digitChar (c.toNat % 16)]
  else [c]

def string (text : List Char) : List Char := '"' :: text.flatMap escaped ++ ['"']

def number (n : ℕ) : List Char := Nat.toDigits 10 n

def bool (flag : Bool) : List Char := (if flag then "true" else "false").toList

def commas (items : List (List Char)) : List Char := [','].intercalate items

def array (items : List (List Char)) : List Char := '[' :: commas items ++ [']']

def strings (texts : List (List Char)) : List Char := array (texts.map string)

/-- A name with its value. -/
def field (entry : String × List Char) : List Char := string entry.1.toList ++ ':' :: entry.2

def object (entries : List (String × List Char)) : List Char :=
  '\x7b' :: commas (entries.map field) ++ ['\x7d']

/-! ## Sizes -/

theorem byteLen_commas (items : List (List Char)) :
    byteLen (commas items) = (items.map byteLen).sum + (items.length - 1) := by
  induction items with
  | nil => rfl
  | cons item items ih =>
      cases items with
      | nil => simp [commas]
      | cons next rest =>
          have hsplit : commas (item :: next :: rest) = item ++ ',' :: commas (next :: rest) := by
            simp [commas, List.intercalate_cons_cons]
          have hcomma : (',' : Char).utf8Size = 1 := by decide
          rw [hsplit, byteLen_append, byteLen_cons, ih, hcomma]
          simp only [List.map_cons, List.sum_cons, List.length_cons]
          omega

theorem byteLen_field (entry : String × List Char) :
    byteLen (field entry) = byteLen (string entry.1.toList) + 1 + byteLen entry.2 := by
  have hcolon : (':' : Char).utf8Size = 1 := by decide
  rw [field, byteLen_append, byteLen_cons, hcolon]
  omega

/-- What the names of an object and its punctuation take. -/
def frame (names : List String) : ℕ :=
  2 + ((names.map fun name ↦ byteLen (string name.toList) + 1).sum + (names.length - 1))

/-- An object takes its frame and its values. -/
theorem byteLen_object (entries : List (String × List Char)) :
    byteLen (object entries) =
      frame (entries.map Prod.fst) + (entries.map fun entry ↦ byteLen entry.2).sum := by
  have hopen : ('\x7b' : Char).utf8Size = 1 := by decide
  have hclose : ('\x7d' : Char).utf8Size = 1 := by decide
  have hsum : (entries.map (byteLen ∘ field)).sum =
      (entries.map ((fun name ↦ byteLen (string name.toList) + 1) ∘ Prod.fst)).sum +
        (entries.map fun entry ↦ byteLen entry.2).sum := by
    induction entries with
    | nil => rfl
    | cons entry entries ih =>
        simp only [List.map_cons, List.sum_cons, ih, Function.comp_apply, byteLen_field]
        omega
  rw [object, List.cons_append, byteLen_cons, byteLen_append, byteLen_cons, byteLen_nil,
    byteLen_commas, hopen, hclose, frame, List.map_map, List.map_map, hsum, List.length_map,
    List.length_map]
  omega

/-! ## Numbers -/

theorem byteLen_number (n : ℕ) : byteLen (number n) = (number n).length := by
  have hdigits : ∀ c ∈ number n, c.utf8Size = 1 := by
    intro c hc
    have hdigit := Nat.isDigit_of_mem_toDigits (b := 10) (n := n) (by decide) (by decide) hc
    rw [Char.utf8Size_eq_one_iff, UInt32.le_iff_toNat_le]
    have hrange : 48 ≤ c.toNat ∧ c.toNat ≤ 57 := by
      simpa [Char.isDigit, UInt32.le_iff_toNat_le] using hdigit
    exact hrange.2.trans (by decide)
  rw [byteLen, List.map_congr_left hdigits]
  simp

/-- A greater number does not have fewer digits. -/
theorem monotone_byteLen_number : Monotone fun n ↦ byteLen (number n) := by
  intro m n hmn
  have hpos : 0 < (number n).length := Nat.length_toDigits_pos
  have hlt : n < 10 ^ (number n).length :=
    (Nat.length_toDigits_le_iff (by decide) hpos).mp le_rfl
  change byteLen (number m) ≤ byteLen (number n)
  rw [byteLen_number, byteLen_number]
  exact (Nat.length_toDigits_le_iff (by decide) hpos).mpr (hmn.trans_lt hlt)

end JsonText
