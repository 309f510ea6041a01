import Cortana.Core.Table

/-!
# Pruning a table

While a table is too large, the least row among those that may go is removed.
-/

variable {κ ρ : Type*} {key : ρ → κ} [DecidableEq κ]

/-- The first of the least rows. -/
def leastRow (lt : ρ → ρ → Bool) : List ρ → Option ρ
  | [] => none
  | r :: rest => some (rest.foldl (fun best x ↦ if lt x best then x else best) r)

theorem leastRow_eq_none_iff {lt : ρ → ρ → Bool} {rows : List ρ} :
    leastRow lt rows = none ↔ rows = [] := by
  cases rows <;> simp [leastRow]

theorem mem_of_leastRow {lt : ρ → ρ → Bool} {rows : List ρ} {r : ρ}
    (h : leastRow lt rows = some r) : r ∈ rows := by
  have hfold : ∀ (rest : List ρ) (best : ρ),
      rest.foldl (fun best x ↦ if lt x best then x else best) best ∈ best :: rest := by
    intro rest
    induction rest with
    | nil => exact fun best ↦ List.mem_singleton_self best
    | cons x rest ih =>
        intro best
        rw [List.foldl_cons]
        have hmem := ih (if lt x best then x else best)
        rcases List.mem_cons.mp hmem with heq | hrest
        · rw [heq]
          split <;> simp
        · exact List.mem_cons_of_mem _ (List.mem_cons_of_mem _ hrest)
  cases rows with
  | nil => cases h
  | cons first rest =>
      rw [← Option.some.inj h]
      exact hfold rest first

namespace Table

/-- At most `fuel` removals. -/
def prune (full : ℕ → Bool) (goes : ρ → Bool) (lt : ρ → ρ → Bool) : ℕ → Table key → Table key
  | 0, t => t
  | fuel + 1, t =>
      if full t.rows.length then
        match leastRow lt (t.rows.filter goes) with
        | some r => prune full goes lt fuel (t.erase (key r))
        | none => t
      else t

variable {full : ℕ → Bool} {goes : ρ → Bool} {lt : ρ → ρ → Bool}

theorem mem_of_mem_prune {fuel : ℕ} {t : Table key} {r : ρ}
    (h : r ∈ (t.prune full goes lt fuel).rows) : r ∈ t.rows := by
  induction fuel generalizing t with
  | zero => exact h
  | succ fuel ih =>
      rw [prune] at h
      split at h
      next =>
          split at h
          next least hleast => exact (Iff.mp mem_erase (ih h)).1
          next => exact h
      next => exact h

theorem length_erase_lt {t : Table key} {r : ρ} (hr : r ∈ t.rows) :
    (t.erase (key r)).rows.length < t.rows.length := by
  apply List.length_filter_lt_length_iff_exists.mpr
  exact ⟨r, hr, by simp⟩

/-- If all rows may go, the table is no longer too large. -/
theorem not_full_prune {fuel : ℕ} {t : Table key} (hzero : full 0 = false)
    (hgoes : ∀ r ∈ t.rows, goes r = true) (hfuel : t.rows.length ≤ fuel) :
    full (t.prune full goes lt fuel).rows.length = false := by
  induction fuel generalizing t with
  | zero => rwa [prune, Nat.le_zero.mp hfuel]
  | succ fuel ih =>
      rw [prune]
      split
      next hfull =>
          rw [List.filter_eq_self.mpr hgoes]
          split
          next least hleast =>
              have hlt := length_erase_lt (mem_of_leastRow hleast)
              exact ih (fun r hr ↦ hgoes r (Iff.mp mem_erase hr).1) (by omega)
          next hnone =>
              rw [Iff.mp leastRow_eq_none_iff hnone]
              exact hzero
      next hnot => simpa using hnot

end Table
