import Cortana.Text.Decimal

/-!
# The calendar

The dates of the Gregorian calendar, day after day, and their texts.  Until the end
of the year 9999 the texts are in the order of the days.
-/

namespace Calendar

structure Date where
  year : ℕ
  month : ℕ
  day : ℕ
deriving DecidableEq

def isLeap (year : ℕ) : Bool :=
  year % 4 == 0 && (year % 100 != 0 || year % 400 == 0)

def daysInMonth (year month : ℕ) : ℕ :=
  if month = 2 then if isLeap year then 29 else 28
  else if month = 4 ∨ month = 6 ∨ month = 9 ∨ month = 11 then 30
  else 31

theorem daysInMonth_le (year month : ℕ) : daysInMonth year month ≤ 31 := by
  unfold daysInMonth
  split_ifs <;> decide

namespace Date

/-- The next day. -/
def next (date : Date) : Date :=
  if date.day < daysInMonth date.year date.month then { date with day := date.day + 1 }
  else if date.month < 12 then ⟨date.year, date.month + 1, 1⟩
  else ⟨date.year + 1, 1, 1⟩

def Before (s t : Date) : Prop :=
  s.year < t.year ∨ s.year = t.year ∧ (s.month < t.month ∨ s.month = t.month ∧ s.day < t.day)

theorem Before.trans {s t u : Date} (h : s.Before t) (h' : t.Before u) : s.Before u := by
  unfold Before at *
  omega

theorem Before.irrefl (s : Date) : ¬ s.Before s := by
  unfold Before
  omega

theorem before_next (date : Date) : date.Before date.next := by
  rw [next]
  split_ifs <;> simp [Before]

/-- The months and days of two digits. -/
structure Short (date : Date) : Prop where
  month : date.month ≤ 12
  day : date.day ≤ 31

theorem Short.next {date : Date} (h : date.Short) : date.next.Short := by
  rw [Date.next]
  split_ifs with hday hmonth
  · exact ⟨h.month, hday.trans_le (daysInMonth_le _ _)⟩
  · exact ⟨hmonth, by simp⟩
  · exact ⟨by simp, by simp⟩

/-- `%Y-%m-%d`. -/
def text (date : Date) : List Char :=
  Decimal.padded 4 date.year ++ '-' :: (Decimal.padded 2 date.month ++
    '-' :: Decimal.padded 2 date.day)

@[simp] theorem length_text (date : Date) : date.text.length = 10 := by
  simp [text]

/-- The texts of dates with four digits for the year are in the order of the dates. -/
theorem text_lt_text_iff {s t : Date} (hs : s.Short) (ht : t.Short) (hys : s.year < 10000)
    (hyt : t.year < 10000) : s.text < t.text ↔ s.Before t := by
  have hms : s.month < 10 ^ 2 := hs.month.trans_lt (by decide)
  have hmt : t.month < 10 ^ 2 := ht.month.trans_lt (by decide)
  have hds : s.day < 10 ^ 2 := hs.day.trans_lt (by decide)
  have hdt : t.day < 10 ^ 2 := ht.day.trans_lt (by decide)
  rw [text, text, List.append_lt_append_iff_of_length_eq (by simp),
    Decimal.padded_lt_padded_iff hys hyt, List.cons_lt_cons_iff,
    List.append_lt_append_iff_of_length_eq (by simp), Decimal.padded_lt_padded_iff hms hmt,
    List.cons_lt_cons_iff, Decimal.padded_lt_padded_iff hds hdt, Before]
  simp only [lt_self_iff_false, true_and, false_or]
  constructor
  · rintro (h | ⟨hyear, h | ⟨hmonth, h⟩⟩)
    · exact .inl h
    · exact .inr ⟨Decimal.padded_inj hys hyt hyear, .inl h⟩
    · exact .inr ⟨Decimal.padded_inj hys hyt hyear,
        .inr ⟨Decimal.padded_inj hms hmt hmonth, h⟩⟩
  · rintro (h | ⟨hyear, h | ⟨hmonth, h⟩⟩)
    · exact .inl h
    · exact .inr ⟨by rw [hyear], .inl h⟩
    · exact .inr ⟨by rw [hyear], .inr ⟨by rw [hmonth], h⟩⟩

end Date

/-- The date of a day, counted from the first of January 1970. -/
def dateOf : ℕ → Date
  | 0 => ⟨1970, 1, 1⟩
  | day + 1 => (dateOf day).next

example : dateOf 59 = ⟨1970, 3, 1⟩ ∧ dateOf 789 = ⟨1972, 2, 29⟩ := by decide +kernel

theorem short_dateOf (day : ℕ) : (dateOf day).Short := by
  induction day with
  | zero => exact ⟨by decide, by decide⟩
  | succ day ih => exact ih.next

theorem dateOf_before_of_lt {m n : ℕ} (h : m < n) : (dateOf m).Before (dateOf n) := by
  induction h with
  | refl => exact (dateOf m).before_next
  | step _ ih => exact ih.trans (dateOf _).before_next

theorem dateOf_before_iff {m n : ℕ} : (dateOf m).Before (dateOf n) ↔ m < n := by
  refine ⟨fun h ↦ ?_, dateOf_before_of_lt⟩
  rcases Nat.lt_trichotomy m n with hlt | rfl | hgt
  · exact hlt
  · exact absurd h (Date.Before.irrefl _)
  · exact absurd (h.trans (dateOf_before_of_lt hgt)) (Date.Before.irrefl _)

theorem year_dateOf_mono {m n : ℕ} (h : m ≤ n) : (dateOf m).year ≤ (dateOf n).year := by
  rcases h.eq_or_lt with rfl | hlt
  · exact le_refl _
  · rcases dateOf_before_of_lt hlt with hyear | ⟨hyear, -⟩
    · exact hyear.le
    · exact hyear.le

end Calendar
