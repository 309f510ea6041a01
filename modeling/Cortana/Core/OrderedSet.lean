import Mathlib.Data.Finset.Card
import Mathlib.Data.Finset.Dedup
import Mathlib.Data.List.Sort

/-!
# Ordered sets

A set that is read in its order: the elements of a list, each once, sorted.
-/

namespace List

variable {α : Type*} [LinearOrder α] {l : List α}

/-- The elements of a list as an ordered set lists them. -/
def orderedSet (l : List α) : List α :=
  l.dedup.insertionSort (· ≤ ·)

@[simp] theorem mem_orderedSet {a : α} : a ∈ l.orderedSet ↔ a ∈ l := by
  rw [orderedSet, mem_insertionSort, mem_dedup]

theorem nodup_orderedSet (l : List α) : l.orderedSet.Nodup :=
  (perm_insertionSort _ _).nodup_iff.mpr (nodup_dedup l)

theorem pairwise_orderedSet (l : List α) : l.orderedSet.Pairwise (· < ·) :=
  ((pairwise_insertionSort (· ≤ ·) l.dedup).and l.nodup_orderedSet).imp
    fun h ↦ lt_of_le_of_ne h.1 h.2

theorem orderedSet_eq_nil_iff : l.orderedSet = [] ↔ l = [] := by
  simp only [eq_nil_iff_forall_not_mem, mem_orderedSet]

/-- What stands among the first of a sorted list has few before it. -/
theorem mem_take_iff_of_pairwise {a : α} [DecidablePred fun b ↦ b < a] (h : l.Pairwise (· < ·))
    (n : ℕ) :
    a ∈ l.take n ↔ a ∈ l ∧ (l.filter (· < a)).length < n := by
  induction l generalizing n with
  | nil => simp
  | cons b rest ih =>
      obtain ⟨hb, hrest⟩ := pairwise_cons.mp h
      cases n with
      | zero => simp
      | succ n =>
          rw [take_succ_cons, mem_cons, mem_cons, ih hrest n]
          rcases eq_or_ne a b with rfl | hne
          · have hnone : (a :: rest).filter (· < a) = [] := by
              rw [filter_eq_nil_iff]
              intro c hc
              rcases mem_cons.mp hc with rfl | hc
              · simp
              · simpa using (hb c hc).le
            simp [hnone]
          · constructor
            · rintro (heq | ⟨ha, hlength⟩)
              · exact absurd heq hne
              · refine ⟨.inr ha, ?_⟩
                rw [filter_cons_of_pos (by simpa using hb a ha), length_cons]
                exact Nat.succ_lt_succ hlength
            · rintro ⟨heq | ha, hlength⟩
              · exact absurd heq hne
              · rw [filter_cons_of_pos (by simpa using hb a ha), length_cons] at hlength
                exact .inr ⟨ha, Nat.lt_of_succ_lt_succ hlength⟩

/-- Of the elements of a list, those before one, those after it and its copies are
all there is. -/
theorem length_filter_lt_add (l : List α) (a : α) [DecidablePred fun b ↦ b < a]
    [DecidablePred fun b ↦ a < b] :
    (l.filter (· < a)).length + (l.filter (a < ·)).length + l.count a = l.length := by
  induction l with
  | nil => rfl
  | cons b rest ih =>
      rcases lt_trichotomy b a with h | rfl | h
      · rw [filter_cons_of_pos (by simpa using h), filter_cons_of_neg (by simpa using h.le),
          count_cons_of_ne h.ne, length_cons, length_cons, ← ih]
        omega
      · rw [filter_cons_of_neg (by simp), filter_cons_of_neg (by simp), count_cons_self,
          length_cons, ← ih]
        omega
      · rw [filter_cons_of_neg (by simpa using h.le), filter_cons_of_pos (by simpa using h),
          count_cons_of_ne h.ne', length_cons, length_cons, ← ih]
        omega

/-- An element that is once in a list has all the others before or after it. -/
theorem length_filter_lt_add_of_mem {a : α} [DecidablePred fun b ↦ b < a]
    [DecidablePred fun b ↦ a < b] (h : l.Nodup) (ha : a ∈ l) :
    (l.filter (· < a)).length + (l.filter (a < ·)).length + 1 = l.length := by
  rw [← count_eq_one_of_mem h ha]
  exact length_filter_lt_add l a

omit [LinearOrder α] in
/-- Without its first elements a list is what comes after them. -/
theorem filter_notMem_take (h : l.Nodup) (n : ℕ) [DecidablePred fun a ↦ a ∉ l.take n] :
    l.filter (· ∉ l.take n) = l.drop n := by
  have hdisjoint := disjoint_take_drop h (le_refl n)
  have hfirst : (l.take n).filter (· ∉ l.take n) = [] := by
    rw [filter_eq_nil_iff]
    intro a ha
    simpa using ha
  have hrest : (l.drop n).filter (· ∉ l.take n) = l.drop n := by
    rw [filter_eq_self]
    intro a ha
    simpa using fun hmem ↦ hdisjoint hmem ha
  calc l.filter (· ∉ l.take n)
      = (l.take n ++ l.drop n).filter (· ∉ l.take n) :=
        congrArg (filter fun a ↦ decide (a ∉ l.take n)) (take_append_drop n l).symm
    _ = l.drop n := by rw [filter_append, hfirst, hrest, nil_append]

theorem mem_take_orderedSet {a : α} {n : ℕ} :
    a ∈ l.orderedSet.take n ↔ a ∈ l ∧ (l.toFinset.filter (· < a)).card < n := by
  have hcard : (l.toFinset.filter (· < a)).card = (l.orderedSet.filter (· < a)).length := by
    rw [← toFinset_card_of_nodup (l.nodup_orderedSet.filter _)]
    congr 1
    ext b
    simp
  rw [mem_take_iff_of_pairwise l.pairwise_orderedSet, mem_orderedSet, hcard]

end List
