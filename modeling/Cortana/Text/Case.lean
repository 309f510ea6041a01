import Mathlib
import Cortana.Text.Search

/-!
# The case of ASCII letters

Functions on texts that do not tell the cases of ASCII letters apart.
-/

namespace ByteText

/-- Texts that differ in the case of ASCII letters. -/
def SameCase (s t : List Char) : Prop := toAsciiLowercase s = toAsciiLowercase t

/-- A function that changes the case of ASCII letters only. -/
def Recases (f : Char → Char) : Prop := ∀ c, (f c).toLower = c.toLower

theorem recases_toLower : Recases Char.toLower := Char.toLower_toLower_eq_toLower

theorem recases_toUpper : Recases Char.toUpper := Char.toLower_toUpper_eq_toLower

/-! ## Characters -/

theorem toNat_toLower_of_isUpper {c : Char} (h : c.isUpper = true) :
    (65 ≤ c.toNat ∧ c.toNat ≤ 90) ∧ c.toLower.toNat = c.toNat + 32 := by
  have hrange : 65 ≤ c.toNat ∧ c.toNat ≤ 90 := by
    simpa [Char.isUpper, UInt32.le_iff_toNat_le] using h
  refine ⟨hrange, ?_⟩
  rw [Char.toLower_eq_of_isUpper h, Char.toNat_ofNat, if_pos (.inl (by omega))]

/-- What is the same of all letters is not changed by lowering their case. -/
theorem apply_toLower {α : Type*} {p : Char → α} {a : α}
    (hp : ∀ d : Char, (65 ≤ d.toNat ∧ d.toNat ≤ 90) ∨ (97 ≤ d.toNat ∧ d.toNat ≤ 122) → p d = a)
    (c : Char) : p c.toLower = p c := by
  by_cases hupper : c.isUpper = true
  · obtain ⟨hrange, hlower⟩ := toNat_toLower_of_isUpper hupper
    rw [hp c (.inl hrange), hp c.toLower (.inr (by omega))]
  · rw [Char.toLower_eq_of_not_isUpper hupper]

theorem isWhitespace_toLower (c : Char) : isWhitespace c.toLower = isWhitespace c := by
  refine apply_toLower (a := false) (fun d hd ↦ ?_) c
  simp [isWhitespace]
  omega

theorem utf8Size_toLower (c : Char) : c.toLower.utf8Size = c.utf8Size := by
  refine apply_toLower (a := 1) (fun d hd ↦ ?_) c
  rw [Char.utf8Size_eq_one_iff, UInt32.le_iff_toNat_le]
  have hsmall : d.toNat ≤ 127 := by omega
  exact hsmall

theorem isDigit_toLower (c : Char) : c.toLower.isDigit = c.isDigit := by
  refine apply_toLower (a := false) (fun d hd ↦ ?_) c
  simp only [Char.isDigit, UInt32.le_iff_toNat_le, Bool.and_eq_false_iff, decide_eq_false_iff_not]
  right
  change ¬d.toNat ≤ 57
  omega

theorem beq_toLower {letterless : Char} (h : letterless.isAlpha = false) (c : Char) :
    (c.toLower == letterless) = (c == letterless) := by
  refine apply_toLower (p := (· == letterless)) (a := false) (fun d hd ↦ ?_) c
  rw [beq_eq_false_iff_ne]
  rintro rfl
  simp [Char.isAlpha, Char.isUpper, Char.isLower, UInt32.le_iff_toNat_le] at h
  omega

/-! ## Texts -/

section Recase

variable {f : Char → Char}

theorem Recases.apply_eq {α : Type*} (hf : Recases f) {p : Char → α}
    (hp : ∀ c, p c.toLower = p c) (c : Char) : p (f c) = p c := by
  rw [← hp, hf, hp]

theorem Recases.sameCase (hf : Recases f) (s : List Char) : SameCase (s.map f) s := by
  rw [SameCase, toAsciiLowercase, toAsciiLowercase, List.map_map]
  exact List.map_congr_left fun c _ ↦ hf c

theorem Recases.byteLen_map (hf : Recases f) (s : List Char) : byteLen (s.map f) = byteLen s := by
  rw [byteLen, byteLen, List.map_map]
  congr 1
  exact List.map_congr_left fun c _ ↦ hf.apply_eq utf8Size_toLower c

/-- Lowering the case of a text without capitals changes nothing. -/
theorem toAsciiLowercase_eq_self {s : List Char} (h : ∀ c ∈ s, c.isUpper = false) :
    toAsciiLowercase s = s := by
  have hsame : s.map Char.toLower = s.map id := List.map_congr_left fun c hc ↦
    Char.toLower_eq_of_not_isUpper (by rw [h c hc]; exact Bool.false_ne_true)
  rw [toAsciiLowercase, hsame, List.map_id]

end Recase

/-! ## Parts -/

section Parts

variable {α : Type*}

theorem splitOnP_map_of_eq {g : α → α} {p : α → Bool} (hp : ∀ a, p (g a) = p a) (l : List α) :
    (l.map g).splitOnP p = (l.splitOnP p).map (List.map g) := by
  induction l with
  | nil => rfl
  | cons a l ih =>
      rw [List.map_cons, List.splitOnP_cons_eq_if_modifyHead, List.splitOnP_cons_eq_if_modifyHead,
        hp, ih]
      cases hsplit : l.splitOnP p with
      | nil => exact absurd hsplit (List.splitOnP_ne_nil p l)
      | cons first rest => split <;> rfl

theorem filter_ne_nil_map (g : α → α) (parts : List (List α)) [DecidableEq α] :
    (parts.map (List.map g)).filter (· ≠ []) = (parts.filter (· ≠ [])).map (List.map g) := by
  rw [List.filter_map]
  congr 1
  exact List.filter_congr fun part _ ↦ by simp

/-- A part has no other elements than the whole. -/
theorem mem_of_mem_splitOnP {p : α → Bool} {l part : List α} {a : α}
    (hpart : part ∈ l.splitOnP p) (ha : a ∈ part) : a ∈ l := by
  induction l generalizing part with
  | nil =>
      rw [List.splitOnP_nil, List.mem_singleton] at hpart
      exact hpart ▸ ha
  | cons b l ih =>
      rw [List.splitOnP_cons_eq_if_modifyHead] at hpart
      split at hpart
      next =>
        rcases List.mem_cons.mp hpart with rfl | hpart
        · cases ha
        · exact List.mem_cons_of_mem _ (ih hpart ha)
      next =>
        obtain ⟨first, rest, hsplit⟩ := List.exists_cons_of_ne_nil (List.splitOnP_ne_nil p l)
        rw [hsplit, List.modifyHead_cons] at hpart
        rw [hsplit] at ih
        rcases List.mem_cons.mp hpart with rfl | hpart
        · rcases List.mem_cons.mp ha with rfl | ha
          · exact List.mem_cons_self
          · exact List.mem_cons_of_mem _ (ih List.mem_cons_self ha)
        · exact List.mem_cons_of_mem _ (ih (List.mem_cons_of_mem _ hpart) ha)

end Parts

end ByteText
