import Cortana.Core.Calendar

/-!
# Times as texts

The two formats in which a time is written: RFC 3339 with as many digits of the
second as it has, and the date and time of day of SQLite.
-/

namespace Timestamps

open Calendar Decimal

def nanosPerSecond : ℕ := 10 ^ 9

def nanosPerDay : ℕ := 86400 * nanosPerSecond

/-- A time in nanoseconds since 1970, in a year of four digits. -/
structure Instant where
  nanos : ℕ
  year_lt : (dateOf (nanos / nanosPerDay)).year < 10000
deriving DecidableEq

namespace Instant

def dayNumber (t : Instant) : ℕ := t.nanos / nanosPerDay

def date (t : Instant) : Date := dateOf t.dayNumber

/-- The second of the day. -/
def second (t : Instant) : ℕ := t.nanos / nanosPerSecond % 86400

def fraction (t : Instant) : ℕ := t.nanos % nanosPerSecond

/-- A time some days earlier; before 1970 it is the beginning of 1970. -/
def daysBefore (t : Instant) (days : ℕ) : Instant where
  nanos := t.nanos - days * nanosPerDay
  year_lt := (year_dateOf_mono (Nat.div_le_div_right (Nat.sub_le _ _))).trans_lt t.year_lt

theorem ext_iff {s t : Instant} : s = t ↔ s.nanos = t.nanos := by
  refine ⟨fun h ↦ h ▸ rfl, fun h ↦ ?_⟩
  obtain ⟨nanos, hs⟩ := s
  obtain rfl : nanos = t.nanos := h
  rfl

/-- A time is put together from its day, second and fraction. -/
theorem nanos_eq (t : Instant) :
    t.nanos = (t.dayNumber * 86400 + t.second) * nanosPerSecond + t.fraction := by
  have hday : t.dayNumber = t.nanos / nanosPerSecond / 86400 := by
    rw [dayNumber, nanosPerDay, Nat.mul_comm, Nat.div_div_eq_div_mul]
  have hsecond := Nat.div_add_mod (t.nanos / nanosPerSecond) 86400
  have hnanos := Nat.div_add_mod t.nanos nanosPerSecond
  rw [hday, second, fraction, Nat.mul_comm _ 86400, hsecond, Nat.mul_comm, hnanos]

theorem dayNumber_le_of_nanos_le {s t : Instant} (h : s.nanos ≤ t.nanos) :
    s.dayNumber ≤ t.dayNumber :=
  Nat.div_le_div_right h

end Instant

/-- `%H:%M:%S`. -/
def timeOfDay (second : ℕ) : List Char :=
  padded 2 (second / 3600) ++ ':' :: (padded 2 (second / 60 % 60) ++
    ':' :: padded 2 (second % 60))

/-- The digits of the second, none, three, six or nine. -/
def fractionText (fraction : ℕ) : List Char :=
  if fraction = 0 then []
  else if fraction % 10 ^ 6 = 0 then '.' :: padded 3 (fraction / 10 ^ 6)
  else if fraction % 10 ^ 3 = 0 then '.' :: padded 6 (fraction / 10 ^ 3)
  else '.' :: padded 9 fraction

/-- `to_rfc3339` of a time in UTC. -/
def rfc3339 (t : Instant) : List Char :=
  t.date.text ++ 'T' :: (timeOfDay t.second ++ (fractionText t.fraction ++ "+00:00".toList))

/-- `datetime` of SQLite. -/
def sqliteDatetime (t : Instant) : List Char :=
  t.date.text ++ ' ' :: timeOfDay t.second

theorem Instant.second_lt (t : Instant) : t.second < 86400 := Nat.mod_lt _ (by decide)

theorem Instant.fraction_lt (t : Instant) : t.fraction < 10 ^ 9 := Nat.mod_lt _ (by decide)

theorem length_timeOfDay (second : ℕ) : (timeOfDay second).length = 8 := by
  simp [timeOfDay]

theorem text_date_lt_iff {s t : Instant} :
    s.date.text < t.date.text ↔ s.dayNumber < t.dayNumber := by
  have htext := Date.text_lt_text_iff (short_dateOf _) (short_dateOf _) s.year_lt t.year_lt
  exact htext.trans dateOf_before_iff

theorem dayNumber_eq_of_text {s t : Instant} (h : s.date.text = t.date.text) :
    s.dayNumber = t.dayNumber := by
  have hforth := text_date_lt_iff (s := s) (t := t)
  have hback := text_date_lt_iff (s := t) (t := s)
  rw [h] at hforth hback
  simp only [lt_self_iff_false, false_iff] at hforth hback
  exact Nat.le_antisymm (Nat.le_of_not_lt hback) (Nat.le_of_not_lt hforth)

theorem timeOfDay_injective {m n : ℕ} (hm : m < 86400) (hn : n < 86400)
    (h : timeOfDay m = timeOfDay n) : m = n := by
  obtain ⟨hhour, hrest⟩ := List.append_inj h (by simp)
  obtain ⟨hminute, hrest⟩ := List.append_inj (List.cons.inj hrest).2 (by simp)
  have hh := padded_inj (by omega) (by omega) hhour
  have hi := padded_inj (by omega) (by omega) hminute
  have hs := padded_inj (by omega) (by omega) (List.cons.inj hrest).2
  omega

theorem fractionText_injective {m n : ℕ} (hm : m < 10 ^ 9) (hn : n < 10 ^ 9)
    (h : fractionText m = fractionText n) : m = n := by
  have hlength := congrArg List.length h
  unfold fractionText at h hlength
  split_ifs at h hlength with hm0 hn0 hn6 hn3 hm6 hn0 hn6 hn3 hm3 hn0 hn6 hn3 hn0 hn6 hn3 <;>
    simp only [List.length_nil, List.length_cons, length_padded] at hlength <;> try omega
  · have heq := padded_inj (by omega) (by omega) (List.cons.inj h).2
    omega
  · have heq := padded_inj (by omega) (by omega) (List.cons.inj h).2
    omega
  · exact padded_inj hm hn (List.cons.inj h).2

theorem rfc3339_injective {s t : Instant} (h : rfc3339 s = rfc3339 t) : s = t := by
  obtain ⟨hdate, hrest⟩ := List.append_inj h (by simp)
  obtain ⟨htime, hrest⟩ := List.append_inj (List.cons.inj hrest).2 (by simp [length_timeOfDay])
  have hsecond := timeOfDay_injective s.second_lt t.second_lt htime
  have hfraction := fractionText_injective s.fraction_lt t.fraction_lt
    (List.append_cancel_right hrest)
  rw [Instant.ext_iff, s.nanos_eq, t.nanos_eq, dayNumber_eq_of_text hdate, hsecond, hfraction]

/-- Against a time of SQLite only the date of an RFC 3339 time counts: on the same
date the letter after it makes it the later one. -/
theorem rfc3339_lt_sqliteDatetime_iff {s t : Instant} :
    rfc3339 s < sqliteDatetime t ↔ s.dayNumber < t.dayNumber := by
  rw [rfc3339, sqliteDatetime, List.append_lt_append_iff_of_length_eq (by simp),
    text_date_lt_iff, List.cons_lt_cons_iff]
  have hletter : ¬ 'T' < ' ' := by decide
  have hne : 'T' ≠ ' ' := by decide
  simp [hletter, hne]

end Timestamps
