import Mathlib.Data.List.Sort

/-!
# The first of a sorted list

A stable sort puts first an element that no later one precedes and that
precedes every earlier one.
-/

namespace List

variable {α : Type*} {r : α → α → Prop} [DecidableRel r]

theorem head?_orderedInsert (a : α) (l : List α) :
    (l.orderedInsert r a).head? =
      some (match l.head? with
        | none => a
        | some h => if r a h then a else h) := by
  cases l with
  | nil => rfl
  | cons h rest =>
      rw [orderedInsert_cons]
      split_ifs with hle <;> simp [hle]

/-- Where the first of a sorted list stood before the sort. -/
theorem exists_split_of_head?_insertionSort (htotal : ∀ a b, r a b ∨ r b a)
    (htrans : ∀ a b c, r a b → r b c → r a c) {l : List α} {h : α}
    (hhead : (l.insertionSort r).head? = some h) :
    ∃ before after, l = before ++ h :: after ∧ (∀ c ∈ before, ¬ r c h) ∧ ∀ c ∈ after, r h c := by
  induction l generalizing h with
  | nil => cases hhead
  | cons a rest ih =>
      rw [insertionSort_cons, head?_orderedInsert] at hhead
      cases hrest : (rest.insertionSort r).head? with
      | none =>
          have hnil : rest = [] := by
            have hlength := congrArg length (head?_eq_none_iff.mp hrest)
            rw [length_insertionSort] at hlength
            exact eq_nil_of_length_eq_zero hlength
          rw [hrest] at hhead
          obtain rfl := Option.some.inj hhead
          exact ⟨[], rest, rfl, by simp, by simp [hnil]⟩
      | some b =>
          obtain ⟨before, after, rfl, hbefore, hafter⟩ := ih hrest
          rw [hrest] at hhead
          by_cases hab : r a b
          · obtain rfl : a = h := by simpa [hab] using hhead
            refine ⟨[], _, rfl, by simp, fun c hc ↦ ?_⟩
            rcases mem_append.mp hc with hc | hc
            · exact htrans a b c hab ((htotal b c).resolve_right (hbefore c hc))
            · rcases mem_cons.mp hc with rfl | hc
              · exact hab
              · exact htrans a b c hab (hafter c hc)
          · obtain rfl : b = h := by simpa [hab] using hhead
            refine ⟨a :: before, after, rfl, fun c hc ↦ ?_, hafter⟩
            rcases mem_cons.mp hc with rfl | hc
            · exact hab
            · exact hbefore c hc

/-- The first of a sorted list has a property exactly when some element with
it comes before every element without it. -/
theorem head?_insertionSort_iff (htotal : ∀ a b, r a b ∨ r b a)
    (htrans : ∀ a b c, r a b → r b c → r a c) {l : List α} {P : α → Prop} :
    (∃ h, (l.insertionSort r).head? = some h ∧ P h) ↔
      ∃ before a after, l = before ++ a :: after ∧ P a ∧
        (∀ c ∈ before, ¬ P c → ¬ r c a) ∧ ∀ c ∈ after, ¬ P c → r a c := by
  constructor
  · rintro ⟨h, hhead, hP⟩
    obtain ⟨before, after, rfl, hbefore, hafter⟩ :=
      exists_split_of_head?_insertionSort htotal htrans hhead
    exact ⟨before, h, after, rfl, hP, fun c hc _ ↦ hbefore c hc, fun c hc _ ↦ hafter c hc⟩
  · rintro ⟨before, a, after, rfl, hP, hbefore, hafter⟩
    obtain ⟨h, hhead⟩ : ∃ h, ((before ++ a :: after).insertionSort r).head? = some h := by
      cases hhead : ((before ++ a :: after).insertionSort r).head? with
      | some h => exact ⟨h, rfl⟩
      | none =>
          have hlength := congrArg length (head?_eq_none_iff.mp hhead)
          simp [length_insertionSort] at hlength
    refine ⟨h, hhead, ?_⟩
    by_contra hnot
    obtain ⟨before', after', hsplit, hbefore', hafter'⟩ :=
      exists_split_of_head?_insertionSort htotal htrans hhead
    rcases append_eq_append_iff.mp hsplit with ⟨middle, hfront, hback⟩ | ⟨middle, hfront, hback⟩
    · cases middle with
      | nil =>
          obtain ⟨rfl, -⟩ := cons.inj hback
          exact hnot hP
      | cons c middle =>
          obtain ⟨rfl, rfl⟩ := cons.inj hback
          exact hbefore' a (by simp [hfront]) (hafter h (by simp) hnot)
    · cases middle with
      | nil =>
          obtain ⟨rfl, -⟩ := cons.inj hback
          exact hnot hP
      | cons c middle =>
          obtain ⟨rfl, rfl⟩ := cons.inj hback
          exact hbefore h (by simp [hfront]) hnot (hafter' a (by simp))

/-- The first of a sorted list, by where it stands before the sort. -/
theorem head?_insertionSort_eq_some (htotal : ∀ a b, r a b ∨ r b a)
    (htrans : ∀ a b c, r a b → r b c → r a c) {before after : List α} {a : α}
    (hbefore : ∀ c ∈ before, ¬ r c a) (hafter : ∀ c ∈ after, r a c) :
    ((before ++ a :: after).insertionSort r).head? = some a := by
  obtain ⟨h, hhead, rfl⟩ := (head?_insertionSort_iff htotal htrans (P := fun h ↦ h = a)).mpr
    ⟨before, a, after, rfl, rfl, fun c hc _ ↦ hbefore c hc, fun c hc _ ↦ hafter c hc⟩
  exact hhead

end List
