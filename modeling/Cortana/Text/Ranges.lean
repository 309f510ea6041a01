import Mathlib.Data.List.Pairwise
import Mathlib.Tactic

/-!
# Chains of ranges

A range is a pair of offsets, its start and its stop.  `Chain lo hi ws` says
that the ranges `ws` run from `lo` to `hi` without a gap, each one starting
after the start and no later than the stop of the one before it.  `Tiles`
is the case without overlap.
-/

namespace OffsetRange

/-- Ranges that run from `lo` to `hi` without a gap. -/
inductive Chain : ℕ → ℕ → List (ℕ × ℕ) → Prop where
  | nil (o : ℕ) : Chain o o []
  | cons {lo stop next hi : ℕ} {ws : List (ℕ × ℕ)} (hstart : lo ≤ next)
      (hnext : next ≤ stop) (hstop : stop ≤ hi) (tail : Chain next hi ws) :
      Chain lo hi ((lo, stop) :: ws)

/-- Ranges that run from `lo` to `hi` without a gap or an overlap. -/
inductive Tiles : ℕ → ℕ → List (ℕ × ℕ) → Prop where
  | nil (o : ℕ) : Tiles o o []
  | cons {lo mid hi : ℕ} {ws : List (ℕ × ℕ)} (hle : lo ≤ mid)
      (tail : Tiles mid hi ws) : Tiles lo hi ((lo, mid) :: ws)

variable {lo hi : ℕ} {ws : List (ℕ × ℕ)}

theorem Tiles.le (h : Tiles lo hi ws) : lo ≤ hi := by
  induction h with
  | nil o => exact le_rfl
  | cons hle _ ih => exact hle.trans ih

theorem Tiles.chain (h : Tiles lo hi ws) : Chain lo hi ws := by
  induction h with
  | nil o => exact .nil o
  | cons hle tail ih => exact .cons hle le_rfl tail.le ih

/-- A tiling can be extended at its end. -/
theorem Tiles.snoc {stop : ℕ} (h : Tiles lo hi ws) (hle : hi ≤ stop) :
    Tiles lo stop (ws ++ [(hi, stop)]) := by
  induction h with
  | nil o => exact .cons hle (.nil stop)
  | cons hle' _ ih => exact .cons hle' (ih hle)

theorem Tiles.pairwise (h : Tiles lo hi ws) : ws.Pairwise fun v w ↦ v.2 ≤ w.1 := by
  suffices hall : (∀ w ∈ ws, lo ≤ w.1) ∧ ws.Pairwise fun v w ↦ v.2 ≤ w.1 from hall.2
  induction h with
  | nil o => simp
  | cons hle _ ih =>
      refine ⟨?_, List.pairwise_cons.mpr ⟨fun w hw ↦ ih.1 w hw, ih.2⟩⟩
      intro w hw
      rcases List.mem_cons.mp hw with rfl | hw
      · exact le_rfl
      · exact hle.trans (ih.1 w hw)

theorem Chain.bounds (h : Chain lo hi ws) : ∀ w ∈ ws, lo ≤ w.1 ∧ w.1 ≤ w.2 ∧ w.2 ≤ hi := by
  induction h with
  | nil o => simp
  | cons hstart hnext hstop _ ih =>
      intro w hw
      rcases List.mem_cons.mp hw with rfl | hw
      · exact ⟨le_rfl, hstart.trans hnext, hstop⟩
      · obtain ⟨hlo, hle, hhi⟩ := ih w hw
        exact ⟨hstart.trans hlo, hle, hhi⟩

/-- The starts of a chain never go back. -/
theorem Chain.pairwise (h : Chain lo hi ws) : ws.Pairwise fun v w ↦ v.1 ≤ w.1 := by
  induction h with
  | nil o => exact List.Pairwise.nil
  | cons hstart _ _ tail ih =>
      exact List.pairwise_cons.mpr ⟨fun w hw ↦ hstart.trans (tail.bounds w hw).1, ih⟩

/-- A chain leaves no offset out. -/
theorem Chain.exists_mem (h : Chain lo hi ws) {o : ℕ} (hlo : lo ≤ o) (hhi : o < hi) :
    ∃ w ∈ ws, w.1 ≤ o ∧ o < w.2 := by
  induction h with
  | nil p => omega
  | @cons lo stop next hi ws hstart hnext hstop tail ih =>
      by_cases hstop' : o < stop
      · exact ⟨(lo, stop), List.mem_cons_self, hlo, hstop'⟩
      · obtain ⟨w, hw, hrange⟩ := ih (by omega) hhi
        exact ⟨w, List.mem_cons_of_mem _ hw, hrange⟩

end OffsetRange
