import Mathlib.Data.List.DropRight
import Cortana.Core.Loops

/-!
# Bounded samples of a text

`google.py`: what is kept of a text that is longer than its bound is its head and
its tail.  A stream is sampled piece by piece, a whole text with a marker in the
middle.
-/

namespace Cortana

/-! ## The ends of a list -/

section Ends

variable {α : Type*}

/-- A prefix of a list is not changed by what a longer cut leaves out. -/
theorem take_append_take (n : ℕ) (s t : List α) : (s ++ t.take n).take n = (s ++ t).take n := by
  rw [List.take_append, List.take_append, List.take_take, min_eq_left (Nat.sub_le n s.length)]

theorem take_take_append (n : ℕ) (s t : List α) : (s.take n ++ t).take n = (s ++ t).take n := by
  rcases Nat.le_total s.length n with h | h
  · rw [List.take_of_length_le h]
  · rw [List.take_append_of_le_length (by simp [h]), List.take_append_of_le_length h, List.take_take,
      min_self]

theorem rtake_rtake_append (n : ℕ) (s t : List α) : (s.rtake n ++ t).rtake n = (s ++ t).rtake n := by
  simp only [List.rtake_eq_reverse_take_reverse, List.reverse_append, List.reverse_reverse,
    take_append_take]

theorem rtake_append_rtake (n : ℕ) (s t : List α) : (s ++ t.rtake n).rtake n = (s ++ t).rtake n := by
  simp only [List.rtake_eq_reverse_take_reverse, List.reverse_append, List.reverse_reverse,
    take_take_append]

theorem length_rtake (n : ℕ) (s : List α) : (s.rtake n).length = min n s.length := by
  rw [List.rtake, List.length_drop]
  omega

theorem rtake_of_length_le {n : ℕ} {s : List α} (h : s.length ≤ n) : s.rtake n = s := by
  rw [List.rtake, Nat.sub_eq_zero_of_le h, List.drop_zero]

end Ends

namespace Google

/-- `_DriveContent`: a bounded text with the length of what it was taken from. -/
structure DriveContent where
  value : List Char
  originalChars : Option ℕ
  truncated : Bool
deriving DecidableEq

/-- `value[-n:]`; the whole of it where `n` is zero. -/
def lastChars (n : ℕ) (value : List Char) : List Char :=
  if n = 0 then value else value.rtake n

theorem lastChars_of_pos {n : ℕ} (h : 0 < n) (value : List Char) :
    lastChars n value = value.rtake n :=
  if_neg h.ne'

/-! ## The stream -/

/-- `_BoundedTextAccumulator`. -/
structure BoundedTextAccumulator where
  maximum : ℕ
  totalChars : ℕ := 0
  fullParts : List (List Char) := []
  fullChars : ℕ := 0
  overflowed : Bool := false
  headLimit : ℕ
  tailLimit : ℕ
  head : List Char := []
  tail : List (List Char) := []
  tailChars : ℕ := 0

namespace BoundedTextAccumulator

/-- `__init__`. -/
def init (maximum : ℤ) : Except String BoundedTextAccumulator :=
  if maximum ≤ 0 then .error "maximum must be greater than zero"
  else
    let headLimit := maximum.toNat / 2
    .ok { maximum := maximum.toNat, headLimit, tailLimit := maximum.toNat - headLimit }

/-- The loop of `_append_tail`. -/
def trimTail (limit : ℕ) : List (List Char) → ℕ → Except String (List (List Char) × ℕ)
  | [], chars =>
      if limit < chars then .error "deque index out of range" else .ok ([], chars)
  | first :: rest, chars =>
      if limit < chars then
        let excess := chars - limit
        if first.length ≤ excess then trimTail limit rest (chars - first.length)
        -- what is left is as long as the limit, so the loop ends here
        else .ok (first.drop excess :: rest, chars - excess)
      else .ok (first :: rest, chars)

/-- `_append_tail`. -/
def appendTail (acc : BoundedTextAccumulator) (value : List Char) :
    Except String BoundedTextAccumulator :=
  if value = [] then .ok acc
  else
    let value := if acc.tailLimit < value.length then lastChars acc.tailLimit value else value
    (trimTail acc.tailLimit (acc.tail ++ [value]) (acc.tailChars + value.length)).map
      fun (tail, tailChars) ↦ { acc with tail, tailChars }

/-- `append`. -/
def append (acc : BoundedTextAccumulator) (value : List Char) :
    Except String BoundedTextAccumulator :=
  if value = [] then .ok acc
  else
    let acc := { acc with totalChars := acc.totalChars + value.length }
    if acc.overflowed then acc.appendTail value
    else if acc.fullChars + value.length ≤ acc.maximum then
      .ok { acc with
        fullParts := acc.fullParts ++ [value]
        fullChars := acc.fullChars + value.length }
    else
      let combined := acc.fullParts.flatten ++ value
      let acc := { acc with head := combined.take acc.headLimit }
      (acc.appendTail (lastChars acc.tailLimit combined)).map
        fun acc ↦ { acc with fullParts := [], fullChars := 0, overflowed := true }

/-- `finish`. -/
def finish (acc : BoundedTextAccumulator) : DriveContent :=
  if acc.overflowed then ⟨acc.head ++ acc.tail.flatten, some acc.totalChars, true⟩
  else ⟨acc.fullParts.flatten, some acc.totalChars, false⟩

/-- The content of a stream that comes in pieces. -/
def contentOf (maximum : ℤ) (pieces : List (List Char)) : Except String DriveContent := do
  let acc ← init maximum
  let acc ← pieces.foldlM append acc
  return acc.finish

end BoundedTextAccumulator

/-- The sample of a whole text: the text, or its two ends. -/
def sampled (maximum : ℕ) (s : List Char) : DriveContent :=
  if s.length ≤ maximum then ⟨s, some s.length, false⟩
  else ⟨s.take (maximum / 2) ++ s.rtake (maximum - maximum / 2), some s.length, true⟩

namespace BoundedTextAccumulator

/-- An accumulator that has received a text: it holds all of it, or both its ends. -/
structure Received (maximum : ℕ) (acc : BoundedTextAccumulator) (s : List Char) : Prop where
  maximum_eq : acc.maximum = maximum
  headLimit_eq : acc.headLimit = maximum / 2
  tailLimit_eq : acc.tailLimit = maximum - maximum / 2
  totalChars_eq : acc.totalChars = s.length
  tailChars_eq : acc.tailChars = acc.tail.flatten.length
  full : acc.overflowed = false →
    s.length ≤ maximum ∧ acc.fullParts.flatten = s ∧ acc.fullChars = s.length ∧ acc.tail = []
  ends : acc.overflowed = true →
    maximum < s.length ∧ acc.head = s.take (maximum / 2) ∧
      acc.tail.flatten = s.rtake (maximum - maximum / 2)

/-- Trimming leaves the end of the tail, and its length in the counter. -/
theorem trimTail_spec (limit : ℕ) : ∀ tail : List (List Char), ∃ tail',
    trimTail limit tail tail.flatten.length = .ok (tail', tail'.flatten.length) ∧
      tail'.flatten = tail.flatten.rtake limit
  | [] => ⟨[], by simp [trimTail], by simp⟩
  | first :: rest => by
      rw [trimTail]
      by_cases hlimit : limit < (first :: rest).flatten.length
      · rw [if_pos hlimit]
        rw [List.flatten_cons, List.length_append] at hlimit ⊢
        simp only
        by_cases hfirst : first.length ≤ first.length + rest.flatten.length - limit
        · -- the whole first piece is beyond the limit
          obtain ⟨tail', htrim, htail⟩ := trimTail_spec limit rest
          rw [if_pos hfirst, Nat.add_sub_cancel_left]
          refine ⟨tail', htrim, ?_⟩
          rw [htail, List.rtake, List.rtake, List.length_append, List.drop_append,
            List.drop_of_length_le hfirst, List.nil_append]
          congr 1
          omega
        · -- the first piece is cut
          rw [if_neg hfirst]
          have hcut : (first.drop (first.length + rest.flatten.length - limit) ++
              rest.flatten).length = limit := by
            rw [List.length_append, List.length_drop]
            omega
          refine ⟨first.drop (first.length + rest.flatten.length - limit) :: rest, ?_, ?_⟩
          · rw [List.flatten_cons, hcut, Nat.sub_sub_self hlimit.le]
          · rw [List.flatten_cons, List.rtake, List.length_append,
              List.drop_append_of_le_length (Nat.le_of_not_le hfirst)]
      · rw [if_neg hlimit]
        exact ⟨first :: rest, rfl, (rtake_of_length_le (Nat.le_of_not_lt hlimit)).symm⟩

/-- Appending to the tail leaves the end of the tail and the piece together; nothing
else is changed. -/
theorem appendTail_spec (acc : BoundedTextAccumulator) (hpos : 0 < acc.tailLimit)
    (hchars : acc.tailChars = acc.tail.flatten.length)
    (hlimit : acc.tail.flatten.length ≤ acc.tailLimit) (value : List Char) :
    ∃ tail, acc.appendTail value = .ok { acc with tail, tailChars := tail.flatten.length } ∧
      tail.flatten = (acc.tail.flatten ++ value).rtake acc.tailLimit := by
  rw [appendTail]
  by_cases hvalue : value = []
  · rw [if_pos hvalue]
    refine ⟨acc.tail, by rw [← hchars], ?_⟩
    rw [hvalue, List.append_nil, rtake_of_length_le hlimit]
  · rw [if_neg hvalue]
    set kept := if acc.tailLimit < value.length then lastChars acc.tailLimit value else value
      with hkept
    have hrtake : kept = value.rtake acc.tailLimit := by
      rw [hkept]
      split
      next => exact lastChars_of_pos hpos value
      next h => exact (rtake_of_length_le (Nat.le_of_not_lt h)).symm
    obtain ⟨tail, htrim, htail⟩ := trimTail_spec acc.tailLimit (acc.tail ++ [kept])
    rw [List.flatten_append, List.flatten_singleton] at htail htrim
    refine ⟨tail, ?_, ?_⟩
    · dsimp only
      rw [hchars, ← List.length_append, htrim]
      rfl
    · rw [htail, hrtake, rtake_append_rtake]

/-- A fresh accumulator has received nothing. -/
theorem init_spec {maximum : ℤ} (h : 1 ≤ maximum) :
    ∃ acc, init maximum = .ok acc ∧ Received maximum.toNat acc [] := by
  rw [init, if_neg (by omega)]
  refine ⟨_, rfl, rfl, rfl, rfl, rfl, rfl, fun _ ↦ ⟨Nat.zero_le _, rfl, rfl, rfl⟩, ?_⟩
  intro h
  cases h

/-- One piece more: it is received behind what was. -/
theorem Received.append {maximum : ℕ} {acc : BoundedTextAccumulator} {s : List Char}
    (h : Received maximum acc s) (hmaximum : 1 ≤ maximum) (value : List Char) :
    ∃ acc', acc.append value = .ok acc' ∧ Received maximum acc' (s ++ value) := by
  rw [BoundedTextAccumulator.append]
  by_cases hvalue : value = []
  · rw [if_pos hvalue, hvalue, List.append_nil]
    exact ⟨acc, rfl, h⟩
  · rw [if_neg hvalue]
    have htotal : acc.totalChars + value.length = (s ++ value).length := by
      rw [h.totalChars_eq, List.length_append]
    have hpos : 0 < acc.tailLimit := by
      rw [h.tailLimit_eq]
      omega
    rcases Bool.eq_false_or_eq_true acc.overflowed with hover | hover
    · obtain ⟨hlong, hhead, htail⟩ := h.ends hover
      have hlimit : acc.tail.flatten.length ≤ acc.tailLimit := by
        rw [htail, length_rtake, h.tailLimit_eq]
        exact Nat.min_le_left _ _
      obtain ⟨tail, happend, hflat⟩ := appendTail_spec
        { acc with totalChars := acc.totalChars + value.length } hpos h.tailChars_eq hlimit value
      dsimp only
      rw [if_pos hover]
      refine ⟨_, happend, h.maximum_eq, h.headLimit_eq, h.tailLimit_eq, htotal, rfl, ?_, ?_⟩
      · intro hfull
        exact absurd (hover.symm.trans hfull) (by decide)
      · intro _
        refine ⟨?_, ?_, ?_⟩
        · rw [List.length_append]
          exact Nat.lt_add_right _ hlong
        · rw [List.take_append_of_le_length (by omega)]
          exact hhead
        · rw [hflat]
          change (acc.tail.flatten ++ value).rtake acc.tailLimit = _
          rw [htail, h.tailLimit_eq, rtake_rtake_append]
    · obtain ⟨hshort, hparts, hfull, htail⟩ := h.full hover
      have hchars : acc.fullChars + value.length = (s ++ value).length := by
        rw [hfull, List.length_append]
      dsimp only
      rw [if_neg (by simp [hover])]
      by_cases hfits : (s ++ value).length ≤ maximum
      · rw [if_pos (by rwa [hchars, h.maximum_eq])]
        refine ⟨_, rfl, h.maximum_eq, h.headLimit_eq, h.tailLimit_eq, htotal, h.tailChars_eq,
          fun _ ↦ ⟨hfits, ?_, hchars, htail⟩, fun hends ↦ ?_⟩
        · change (acc.fullParts ++ [value]).flatten = s ++ value
          rw [List.flatten_append, List.flatten_singleton, hparts]
        · exact absurd (hover.symm.trans hends) (by decide)
      · -- the first piece that does not fit: both ends are taken of all there is
        rw [if_neg (by rwa [hchars, h.maximum_eq]), hparts, lastChars_of_pos hpos]
        obtain ⟨tail, happend, hflat⟩ := appendTail_spec
          { acc with
            totalChars := acc.totalChars + value.length
            head := (s ++ value).take acc.headLimit } hpos h.tailChars_eq
          (by simp [htail]) ((s ++ value).rtake acc.tailLimit)
        rw [happend]
        refine ⟨_, rfl, h.maximum_eq, h.headLimit_eq, h.tailLimit_eq, htotal, rfl, ?_, ?_⟩
        · intro hfalse
          cases hfalse
        · intro _
          refine ⟨Nat.lt_of_not_le hfits, ?_, ?_⟩
          · change (s ++ value).take acc.headLimit = _
            rw [h.headLimit_eq]
          · rw [hflat]
            change (acc.tail.flatten ++ (s ++ value).rtake acc.tailLimit).rtake acc.tailLimit = _
            rw [rtake_append_rtake, htail, List.flatten_nil, List.nil_append, h.tailLimit_eq]

theorem Received.foldlM_append {maximum : ℕ} (hmaximum : 1 ≤ maximum) :
    ∀ (pieces : List (List Char)) {acc : BoundedTextAccumulator} {s : List Char},
      Received maximum acc s → ∃ acc', pieces.foldlM BoundedTextAccumulator.append acc = .ok acc' ∧
        Received maximum acc' (s ++ pieces.flatten)
  | [], acc, s, h => ⟨acc, rfl, by rwa [List.flatten_nil, List.append_nil]⟩
  | value :: pieces, acc, s, h => by
      obtain ⟨next, happend, hnext⟩ := h.append hmaximum value
      obtain ⟨acc', hrun, hacc'⟩ := hnext.foldlM_append hmaximum pieces
      refine ⟨acc', ?_, ?_⟩
      · rw [List.foldlM_cons, happend]
        exact hrun
      · rwa [List.flatten_cons, ← List.append_assoc]

/-- What is finished is the sample of what was received. -/
theorem Received.finish_eq {maximum : ℕ} {acc : BoundedTextAccumulator} {s : List Char}
    (h : Received maximum acc s) : acc.finish = sampled maximum s := by
  rw [finish, sampled]
  cases hover : acc.overflowed with
  | true =>
      obtain ⟨hlong, hhead, htail⟩ := h.ends hover
      rw [if_pos rfl, if_neg (Nat.not_le.mpr hlong), hhead, htail, h.totalChars_eq]
  | false =>
      obtain ⟨hshort, hparts, -, -⟩ := h.full hover
      rw [if_neg Bool.false_ne_true, if_pos hshort, hparts, h.totalChars_eq]

end BoundedTextAccumulator

/-! ## A whole text -/

/-- Commas between the groups of three digits, from the last digit on. -/
def groupThousands : List Char → List Char
  | a :: b :: c :: d :: rest => a :: b :: c :: ',' :: groupThousands (d :: rest)
  | digits => digits

/-- The marker in the middle, with a count such as `1,234`. -/
def omissionMarker (omitted : ℕ) : List Char :=
  "\n\n[Cortana omitted ".toList ++ (groupThousands (Nat.toDigits 10 omitted).reverse).reverse ++
    " middle characters]\n\n".toList

/-- `_bounded_content`. -/
def boundedContent (value : List Char) (maxChars : ℕ) : List Char × Bool :=
  if value.length ≤ maxChars then (value, false)
  else
    let marker := omissionMarker (value.length - maxChars)
    let available := maxChars - marker.length
    if available = 0 then (value.take maxChars, true)
    else
      let head := available / 2
      let tail := available - head
      (value.take head ++ marker ++ lastChars tail value, true)

/-- The bound is kept, with no character to spare where something is left out. -/
theorem length_boundedContent (value : List Char) (maxChars : ℕ) :
    (boundedContent value maxChars).1.length = min value.length maxChars := by
  rw [boundedContent]
  split_ifs with hfits
  · exact (min_eq_left hfits).symm
  · simp only
    rw [min_eq_right (Nat.le_of_not_le hfits)]
    generalize omissionMarker (value.length - maxChars) = marker
    split_ifs with havailable
    · rw [List.length_take, min_eq_left (Nat.le_of_not_le hfits)]
    · rw [lastChars_of_pos (by omega), List.length_append, List.length_append, List.length_take,
        length_rtake]
      omega

theorem boundedContent_eq_self_iff (value : List Char) (maxChars : ℕ) :
    (boundedContent value maxChars).1 = value ↔ value.length ≤ maxChars := by
  constructor
  · intro h
    have hlength := length_boundedContent value maxChars
    rw [h] at hlength
    exact hlength.trans_le (Nat.min_le_right _ _)
  · intro h
    rw [boundedContent, if_pos h]

/-- The sample of a stream is the sample of its text, whatever its pieces are; a
bounded text is within its bound, and is the text exactly when that fits. -/
theorem contentOf_and_boundedContent (maximum : ℤ) (hmaximum : 1 ≤ maximum)
    (pieces : List (List Char)) (value : List Char) (maxChars : ℕ) :
    BoundedTextAccumulator.contentOf maximum pieces =
        .ok (sampled maximum.toNat pieces.flatten) ∧
      (boundedContent value maxChars).1.length ≤ maxChars ∧
      ((boundedContent value maxChars).1 = value ↔ value.length ≤ maxChars) ∧
      ((boundedContent value maxChars).2 = false ↔ value.length ≤ maxChars) := by
  refine ⟨?_, ?_, boundedContent_eq_self_iff value maxChars, ?_⟩
  · obtain ⟨acc, hinit, hacc⟩ := BoundedTextAccumulator.init_spec hmaximum
    obtain ⟨acc', hrun, hacc'⟩ := hacc.foldlM_append (by omega) pieces
    rw [BoundedTextAccumulator.contentOf, hinit]
    change (pieces.foldlM BoundedTextAccumulator.append acc >>= fun acc ↦ pure acc.finish) = _
    rw [hrun, List.nil_append] at *
    exact congrArg Except.ok hacc'.finish_eq
  · rw [length_boundedContent]
    exact Nat.min_le_right _ _
  · rw [boundedContent]
    split_ifs with hfits
    · exact iff_of_true rfl hfits
    · simp only
      split_ifs <;> exact iff_of_false (by simp) hfits

/-- Seven letters in three pieces under a bound of four, and a text of two letters
under a bound of one. -/
theorem contentOf_and_boundedContent_abcdefg :
    BoundedTextAccumulator.contentOf 4 ["ab".toList, "cde".toList, "fg".toList] =
        .ok ⟨"abfg".toList, some 7, true⟩ ∧ boundedContent "ab".toList 1 = (['a'], true) := by
  have h := contentOf_and_boundedContent 4 (by decide) ["ab".toList, "cde".toList, "fg".toList]
    "ab".toList 1
  exact ⟨h.1, by decide +kernel⟩

end Google

end Cortana
