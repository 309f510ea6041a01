import Mathlib.Data.List.Basic
import Mathlib.Data.List.Infix
import Mathlib.Tactic

/-!
# Byte offsets into a string of characters

A UTF-8 string is modelled by its list of scalar values; a byte offset is a
natural number, and it is a character boundary exactly when some prefix of the
list has that many bytes.  Slices, substring search and trimming are stated
over these offsets.  Every fact below is a statement about splitting the list
into a prefix and a rest.
-/

namespace ByteText

/-- Number of bytes of the UTF-8 encoding. -/
@[grind =] def byteLen (s : List Char) : ℕ := (s.map Char.utf8Size).sum

@[simp] theorem byteLen_nil : byteLen [] = 0 := rfl

@[simp] theorem byteLen_cons (c : Char) (s : List Char) :
    byteLen (c :: s) = c.utf8Size + byteLen s := by
  simp [byteLen]

@[simp] theorem byteLen_append (s t : List Char) :
    byteLen (s ++ t) = byteLen s + byteLen t := by
  simp [byteLen]

theorem byteLen_pos {s : List Char} (h : s ≠ []) : 0 < byteLen s := by
  cases s with
  | nil => exact absurd rfl h
  | cons c s =>
      have hc := c.utf8Size_pos
      simp only [byteLen_cons]
      omega

theorem byteLen_eq_zero {s : List Char} : byteLen s = 0 ↔ s = [] := by
  constructor
  · intro h
    by_contra hne
    have := byteLen_pos hne
    omega
  · rintro rfl
    rfl

/-! ## Splitting at an offset -/

/-- The prefix of `o` bytes and the rest, when `o` is a character boundary. -/
@[grind =] def splitAtByte : List Char → ℕ → Option (List Char × List Char)
  | s, 0 => some ([], s)
  | [], _ + 1 => none
  | c :: s, o + 1 =>
      if c.utf8Size ≤ o + 1 then
        (splitAtByte s (o + 1 - c.utf8Size)).map fun pq ↦ (c :: pq.1, pq.2)
      else none

/-- `str::is_char_boundary`. -/
@[grind =] def isCharBoundary (s : List Char) (o : ℕ) : Bool := (splitAtByte s o).isSome

@[simp] theorem splitAtByte_zero (s : List Char) : splitAtByte s 0 = some ([], s) := by
  cases s <;> rfl

theorem splitAtByte_append (p q : List Char) :
    splitAtByte (p ++ q) (byteLen p) = some (p, q) := by
  induction p with
  | nil => simp
  | cons c p ih =>
      have hc := c.utf8Size_pos
      obtain ⟨n, hn⟩ : ∃ n, byteLen (c :: p) = n + 1 := by
        refine ⟨byteLen (c :: p) - 1, ?_⟩
        simp only [byteLen_cons]
        omega
      have hrest : n + 1 - c.utf8Size = byteLen p := by
        simp only [byteLen_cons] at hn
        omega
      have hfits : c.utf8Size ≤ n + 1 := by
        simp only [byteLen_cons] at hn
        omega
      rw [hn, List.cons_append, splitAtByte, if_pos hfits, hrest, ih]
      rfl

/-- The split is the only decomposition whose first part has `o` bytes. -/
theorem splitAtByte_eq_some_iff {s p q : List Char} {o : ℕ} :
    splitAtByte s o = some (p, q) ↔ s = p ++ q ∧ byteLen p = o := by
  constructor
  · induction s, o using splitAtByte.induct generalizing p q with
    | case1 s =>
        intro h
        simp only [splitAtByte_zero, Option.some.injEq, Prod.mk.injEq] at h
        obtain ⟨rfl, rfl⟩ := h
        simp
    | case2 o => simp [splitAtByte]
    | case3 c s o hfits ih =>
        intro h
        rw [splitAtByte, if_pos hfits, Option.map_eq_some_iff] at h
        obtain ⟨⟨p', q'⟩, hsplit, heq⟩ := h
        obtain ⟨rfl, rfl⟩ := Prod.mk.inj heq
        obtain ⟨hs, hlen⟩ := ih hsplit
        refine ⟨by simp [hs], ?_⟩
        rw [byteLen_cons, hlen]
        omega
    | case4 c s o hfits => simp [splitAtByte, hfits]
  · rintro ⟨rfl, rfl⟩
    exact splitAtByte_append p q

theorem isCharBoundary_iff {s : List Char} {o : ℕ} :
    isCharBoundary s o = true ↔ ∃ p q, s = p ++ q ∧ byteLen p = o := by
  rw [isCharBoundary, Option.isSome_iff_exists]
  constructor
  · rintro ⟨⟨p, q⟩, h⟩
    exact ⟨p, q, Iff.mp splitAtByte_eq_some_iff h⟩
  · rintro ⟨p, q, h⟩
    exact ⟨(p, q), Iff.mpr splitAtByte_eq_some_iff h⟩

@[simp] theorem isCharBoundary_zero (s : List Char) : isCharBoundary s 0 = true :=
  Iff.mpr isCharBoundary_iff ⟨[], s, rfl, rfl⟩

@[simp] theorem isCharBoundary_byteLen (s : List Char) :
    isCharBoundary s (byteLen s) = true :=
  Iff.mpr isCharBoundary_iff ⟨s, [], (List.append_nil s).symm, rfl⟩

theorem le_byteLen_of_isCharBoundary {s : List Char} {o : ℕ}
    (h : isCharBoundary s o = true) : o ≤ byteLen s := by
  obtain ⟨p, q, rfl, rfl⟩ := Iff.mp isCharBoundary_iff h
  simp

/-- Two prefixes of one string are comparable, and their offsets say which
one is longer. -/
theorem exists_append_of_byteLen_le {p q p' q' : List Char}
    (h : p ++ q = p' ++ q') (hle : byteLen p ≤ byteLen p') :
    ∃ m, p' = p ++ m ∧ q = m ++ q' := by
  rcases List.append_eq_append_iff.mp h with ⟨m, hp', hq⟩ | ⟨m, hp, hq'⟩
  · exact ⟨m, hp', hq⟩
  · have hm : m = [] := by
      apply Iff.mp byteLen_eq_zero
      rw [hp, byteLen_append] at hle
      omega
    subst hm
    exact ⟨[], by simpa using hp.symm, by simpa using hq'.symm⟩

/-- A decomposition is determined by the offset of its cut. -/
theorem append_inj_of_byteLen_eq {p q p' q' : List Char}
    (h : p ++ q = p' ++ q') (hlen : byteLen p = byteLen p') : p = p' ∧ q = q' := by
  obtain ⟨m, hp', hq⟩ := exists_append_of_byteLen_le h hlen.le
  have hm : m = [] := by
    apply Iff.mp byteLen_eq_zero
    rw [hp', byteLen_append] at hlen
    omega
  subst hm
  exact ⟨by simpa using hp'.symm, by simpa using hq⟩

/-- Below every offset inside the string there is a boundary at most three
bytes away. -/
theorem exists_boundary_near (s : List Char) {o : ℕ} (ho : o ≤ byteLen s) :
    ∃ b, isCharBoundary s b = true ∧ b ≤ o ∧ o ≤ b + 3 := by
  induction s generalizing o with
  | nil =>
      have : o = 0 := by simpa using ho
      exact ⟨0, by simp, by omega, by omega⟩
  | cons c s ih =>
      have hsize := c.utf8Size_le_four
      by_cases hc : c.utf8Size ≤ o
      · obtain ⟨b, hb, hbo, hob⟩ := ih (o := o - c.utf8Size) (by
          rw [byteLen_cons] at ho
          omega)
        obtain ⟨p, q, hpq, hlen⟩ := Iff.mp isCharBoundary_iff hb
        refine ⟨c.utf8Size + b, ?_, by omega, by omega⟩
        exact Iff.mpr isCharBoundary_iff ⟨c :: p, q, by simp [hpq], by simp [hlen]⟩
      · exact ⟨0, by simp, by omega, by omega⟩

/-! ## Slices -/

/-- `&s[a..b]`; `none` is the panic at an offset that is no boundary. -/
@[grind =] def slice (s : List Char) (a b : ℕ) : Option (List Char) :=
  if a ≤ b then
    (splitAtByte s a).bind fun pq ↦
      (splitAtByte pq.2 (b - a)).map Prod.fst
  else none

theorem slice_eq_some_iff {s t : List Char} {a b : ℕ} :
    slice s a b = some t ↔
      ∃ p q, s = p ++ t ++ q ∧ byteLen p = a ∧ a + byteLen t = b := by
  constructor
  · intro h
    by_cases hab : a ≤ b
    · rw [slice, if_pos hab, Option.bind_eq_some_iff] at h
      obtain ⟨⟨p, r⟩, hsplit, h⟩ := h
      obtain ⟨⟨t', q⟩, hsplit', rfl⟩ := Option.map_eq_some_iff.mp h
      obtain ⟨rfl, rfl⟩ := Iff.mp splitAtByte_eq_some_iff hsplit
      obtain ⟨hr, hlen⟩ := Iff.mp splitAtByte_eq_some_iff hsplit'
      simp only at hr
      exact ⟨p, q, by simp [hr], rfl, by simp only; omega⟩
    · simp [slice, hab] at h
  · rintro ⟨p, q, rfl, rfl, rfl⟩
    simp [slice, splitAtByte_append]

/-- A slice between two boundaries in order does not panic. -/
theorem slice_isSome_of_boundaries {s : List Char} {a b : ℕ}
    (ha : isCharBoundary s a = true) (hb : isCharBoundary s b = true) (hab : a ≤ b) :
    ∃ t, slice s a b = some t := by
  obtain ⟨p, q, rfl, rfl⟩ := Iff.mp isCharBoundary_iff ha
  obtain ⟨p', q', hs, rfl⟩ := Iff.mp isCharBoundary_iff hb
  obtain ⟨m, rfl, rfl⟩ := exists_append_of_byteLen_le hs hab
  exact ⟨m, Iff.mpr slice_eq_some_iff ⟨p, q', by simp, rfl, by simp⟩⟩

theorem slice_boundaries {s t : List Char} {a b : ℕ} (h : slice s a b = some t) :
    isCharBoundary s a = true ∧ isCharBoundary s b = true ∧ a + byteLen t = b := by
  obtain ⟨p, q, rfl, rfl, rfl⟩ := Iff.mp slice_eq_some_iff h
  refine ⟨Iff.mpr isCharBoundary_iff ⟨p, t ++ q, by simp, rfl⟩, ?_, rfl⟩
  exact Iff.mpr isCharBoundary_iff ⟨p ++ t, q, by simp, by simp⟩

/-- A slice of a slice is a slice of the whole string, with the offsets
shifted. -/
theorem slice_slice {s t u : List Char} {a b c d : ℕ}
    (hst : slice s a b = some t) (htu : slice t c d = some u) :
    slice s (a + c) (a + d) = some u := by
  obtain ⟨p, q, rfl, rfl, rfl⟩ := Iff.mp slice_eq_some_iff hst
  obtain ⟨p', q', rfl, rfl, rfl⟩ := Iff.mp slice_eq_some_iff htu
  exact Iff.mpr slice_eq_some_iff ⟨p ++ p', q' ++ q, by simp, by simp, by omega⟩

/-- A slice inside another slice is cut out of it. -/
theorem slice_within {s t u : List Char} {a b c d : ℕ} (hst : slice s a b = some t)
    (hsu : slice s c d = some u) (hac : a ≤ c) (hdb : d ≤ b) :
    slice t (c - a) (d - a) = some u := by
  obtain ⟨p, q, rfl, rfl, rfl⟩ := Iff.mp slice_eq_some_iff hst
  obtain ⟨p', q', hs, rfl, rfl⟩ := Iff.mp slice_eq_some_iff hsu
  rw [List.append_assoc, List.append_assoc] at hs
  obtain ⟨m, rfl, hm⟩ := exists_append_of_byteLen_le hs hac
  have hprefix : (m ++ u) ++ q' = t ++ q := by simpa using hm.symm
  obtain ⟨n, rfl, -⟩ := exists_append_of_byteLen_le hprefix (by
    rw [byteLen_append] at hdb ⊢
    omega)
  exact Iff.mpr slice_eq_some_iff ⟨m, n, rfl, by simp, by simp [Nat.add_assoc]⟩


/-! ## Characters at offsets -/

/-- The character that starts at byte `o`. -/
@[grind =] def charAt (s : List Char) (o : ℕ) : Option Char :=
  (splitAtByte s o).bind fun pq ↦ pq.2.head?

theorem charAt_eq_some_iff {s : List Char} {o : ℕ} {c : Char} :
    charAt s o = some c ↔ ∃ p q, s = p ++ c :: q ∧ byteLen p = o := by
  rw [charAt, Option.bind_eq_some_iff]
  constructor
  · rintro ⟨⟨p, q⟩, hsplit, hhead⟩
    obtain ⟨rfl, rfl⟩ := Iff.mp splitAtByte_eq_some_iff hsplit
    obtain ⟨q', rfl⟩ := List.head?_eq_some_iff.mp hhead
    exact ⟨p, q', rfl, rfl⟩
  · rintro ⟨p, q, rfl, rfl⟩
    exact ⟨(p, c :: q), splitAtByte_append p (c :: q), rfl⟩

theorem mem_of_charAt {s : List Char} {o : ℕ} {c : Char} (h : charAt s o = some c) : c ∈ s := by
  obtain ⟨p, q, rfl, -⟩ := Iff.mp charAt_eq_some_iff h
  simp

theorem lt_byteLen_of_charAt {s : List Char} {o : ℕ} {c : Char} (h : charAt s o = some c) :
    o < byteLen s := by
  obtain ⟨p, q, rfl, rfl⟩ := Iff.mp charAt_eq_some_iff h
  have hc := c.utf8Size_pos
  simp only [byteLen_append, byteLen_cons]
  omega

/-- At a boundary before the end there is a character, and a boundary after it. -/
theorem exists_charAt_of_boundary {s : List Char} {o : ℕ} (ho : isCharBoundary s o = true)
    (hlt : o < byteLen s) :
    ∃ c, charAt s o = some c ∧ isCharBoundary s (o + c.utf8Size) = true := by
  obtain ⟨p, q, rfl, rfl⟩ := Iff.mp isCharBoundary_iff ho
  cases q with
  | nil => simp at hlt
  | cons c q =>
      refine ⟨c, Iff.mpr charAt_eq_some_iff ⟨p, q, rfl, rfl⟩, ?_⟩
      exact Iff.mpr isCharBoundary_iff ⟨p ++ [c], q, by simp, by simp⟩

/-- No boundary lies within a character. -/
theorem boundary_le_of_charAt {s : List Char} {o b : ℕ} {c : Char} (hc : charAt s o = some c)
    (hb : isCharBoundary s b = true) (hlt : b < o + c.utf8Size) : b ≤ o := by
  obtain ⟨p, q, hs, rfl⟩ := Iff.mp charAt_eq_some_iff hc
  obtain ⟨p', q', hs', rfl⟩ := Iff.mp isCharBoundary_iff hb
  by_contra hgt
  obtain ⟨m, rfl, hm⟩ := exists_append_of_byteLen_le (hs.symm.trans hs') (not_le.mp hgt).le
  cases m with
  | nil => simp at hgt
  | cons d m =>
      obtain ⟨rfl, -⟩ := List.cons.inj hm
      simp only [byteLen_append, byteLen_cons] at hlt
      omega

/-- A character that starts inside a slice ends inside it. -/
theorem charAt_slice {s t : List Char} {a b o : ℕ} {c : Char}
    (hst : slice s a b = some t) (hc : charAt s o = some c) (hao : a ≤ o) (hob : o < b) :
    charAt t (o - a) = some c ∧ o + c.utf8Size ≤ b := by
  obtain ⟨p, q, rfl, rfl, rfl⟩ := Iff.mp slice_eq_some_iff hst
  obtain ⟨p', q', hs, rfl⟩ := Iff.mp charAt_eq_some_iff hc
  rw [List.append_assoc] at hs
  obtain ⟨m, rfl, hm⟩ := exists_append_of_byteLen_le hs hao
  cases m with
  | nil =>
      cases t with
      | nil => simp at hob
      | cons d t =>
          simp only [List.nil_append, List.cons_append, List.cons.injEq] at hm
          obtain ⟨rfl, rfl⟩ := hm
          refine ⟨Iff.mpr charAt_eq_some_iff ⟨[], t, rfl, by simp⟩, ?_⟩
          simp
  | cons d m =>
      have hlt : byteLen (d :: m) < byteLen t := by
        rw [byteLen_append] at hob
        omega
      obtain ⟨r, hr, hr'⟩ := exists_append_of_byteLen_le hm.symm hlt.le
      cases r with
      | nil => simp [hr] at hlt
      | cons e r =>
          simp only [List.cons_append, List.cons.injEq] at hr'
          obtain ⟨rfl, rfl⟩ := hr'
          refine ⟨Iff.mpr charAt_eq_some_iff ⟨d :: m, r, hr, by simp⟩, ?_⟩
          rw [hr]
          simp only [byteLen_append, byteLen_cons]
          omega

theorem charAt_of_slice {s t : List Char} {a b o : ℕ} {c : Char}
    (hst : slice s a b = some t) (hc : charAt t o = some c) :
    charAt s (a + o) = some c := by
  obtain ⟨p, q, rfl, rfl, rfl⟩ := Iff.mp slice_eq_some_iff hst
  obtain ⟨p', q', rfl, rfl⟩ := Iff.mp charAt_eq_some_iff hc
  exact Iff.mpr charAt_eq_some_iff ⟨p ++ p', q' ++ q, by simp, by simp⟩

end ByteText
