import Mathlib.Data.Char
import Mathlib.Data.List.Lex
import Mathlib.Data.Nat.Basic
import Mathlib.Tactic.Ring

/-!
# Decimals of a fixed width

Numbers written with leading zeros stand in the order of their values, also in
front of other text.
-/

namespace List

variable {α : Type*} [LinearOrder α]

/-- Texts are compared by their fronts where these are equally long. -/
theorem append_lt_append_iff_of_length_eq {a b x y : List α} (h : a.length = b.length) :
    a ++ x < b ++ y ↔ a < b ∨ a = b ∧ x < y := by
  induction a generalizing b with
  | nil =>
      obtain rfl := eq_nil_of_length_eq_zero h.symm
      simp
  | cons c a ih =>
      cases b with
      | nil => simp at h
      | cons d b =>
          rw [cons_append, cons_append, cons_lt_cons_iff, cons_lt_cons_iff,
            ih (Nat.succ.inj h)]
          constructor
          · rintro (hlt | ⟨rfl, hlt | ⟨rfl, hlt⟩⟩)
            · exact .inl (.inl hlt)
            · exact .inl (.inr ⟨rfl, hlt⟩)
            · exact .inr ⟨rfl, hlt⟩
          · rintro ((hlt | ⟨rfl, hlt⟩) | ⟨heq, hlt⟩)
            · exact .inl hlt
            · exact .inr ⟨rfl, .inl hlt⟩
            · obtain ⟨rfl, rfl⟩ := cons.inj heq
              exact .inr ⟨rfl, .inr ⟨rfl, hlt⟩⟩

theorem append_lt_append_left_iff {p x y : List α} : p ++ x < p ++ y ↔ x < y := by
  rw [append_lt_append_iff_of_length_eq rfl]
  simp

end List

namespace Decimal

/-- A number in so many digits; what does not fit is cut off on the left. -/
def padded : ℕ → ℕ → List Char
  | 0, _ => []
  | width + 1, n => padded width (n / 10) ++ [Nat.digitChar (n % 10)]

@[simp] theorem length_padded (width n : ℕ) : (padded width n).length = width := by
  induction width generalizing n with
  | zero => rfl
  | succ width ih => rw [padded, List.length_append, ih, List.length_singleton]

theorem isDigit_of_mem_padded {width n : ℕ} {c : Char} (h : c ∈ padded width n) :
    c.isDigit = true := by
  induction width generalizing n with
  | zero => cases h
  | succ width ih =>
      rcases List.mem_append.mp h with h | h
      · exact ih h
      · have hdigit : ∀ d < 10, (Nat.digitChar d).isDigit = true := by decide
        rw [List.mem_singleton.mp h]
        exact hdigit _ (Nat.mod_lt _ (by decide))

theorem digitChar_lt_digitChar_iff {a b : ℕ} (ha : a < 10) (hb : b < 10) :
    Nat.digitChar a < Nat.digitChar b ↔ a < b := by
  have h : ∀ a < 10, ∀ b < 10, (Nat.digitChar a < Nat.digitChar b ↔ a < b) := by decide
  exact h a ha b hb

theorem padded_lt_padded_iff {width m n : ℕ} (hm : m < 10 ^ width) (hn : n < 10 ^ width) :
    padded width m < padded width n ↔ m < n := by
  induction width generalizing m n with
  | zero =>
      obtain rfl : m = 0 := by simpa using hm
      obtain rfl : n = 0 := by simpa using hn
      simp [padded]
  | succ width ih =>
      rw [pow_succ] at hm hn
      have hm' : m / 10 < 10 ^ width := Nat.div_lt_of_lt_mul (by rwa [Nat.mul_comm])
      have hn' : n / 10 < 10 ^ width := Nat.div_lt_of_lt_mul (by rwa [Nat.mul_comm])
      have heq : padded width (m / 10) = padded width (n / 10) ↔ m / 10 = n / 10 := by
        refine ⟨fun h ↦ ?_, fun h ↦ by rw [h]⟩
        have hlt := ih hm' hn'
        have hgt := ih hn' hm'
        rw [h] at hlt hgt
        simp only [lt_self_iff_false, false_iff] at hlt hgt
        exact Nat.le_antisymm (Nat.le_of_not_lt hgt) (Nat.le_of_not_lt hlt)
      rw [padded, padded, List.append_lt_append_iff_of_length_eq (by simp), ih hm' hn', heq,
        List.cons_lt_cons_iff, digitChar_lt_digitChar_iff (Nat.mod_lt _ (by decide))
          (Nat.mod_lt _ (by decide))]
      simp only [lt_self_iff_false, and_false, or_false]
      omega

theorem padded_inj {width m n : ℕ} (hm : m < 10 ^ width) (hn : n < 10 ^ width)
    (h : padded width m = padded width n) : m = n := by
  have hlt := padded_lt_padded_iff hm hn
  have hgt := padded_lt_padded_iff hn hm
  rw [h] at hlt hgt
  simp only [lt_self_iff_false, false_iff] at hlt hgt
  exact Nat.le_antisymm (Nat.le_of_not_lt hgt) (Nat.le_of_not_lt hlt)

end Decimal
