import Cortana.Replication.Tracking

/-!
# Journals over time, and what a bundle reaches

A journal goes on by new changes and loses old ones.  A bundle has the first
changes after a watermark, and reaches as far as its last change: nothing that
is in the journal and not after that point is missing from it.
-/

namespace Replication

namespace Journal

variable {κ δ φ τ : Type*} {j j' j'' : Journal κ δ φ τ}

/-- What a later journal has is new, or was there before. -/
structure Prolongs (j j' : Journal κ δ φ τ) : Prop where
  sequence : j.sequence ≤ j'.sequence
  rows : ∀ r ∈ j'.rows, r ∈ j.rows ∨ j.sequence < r.journalId

theorem Prolongs.refl (j : Journal κ δ φ τ) : j.Prolongs j := ⟨le_rfl, fun _ hr ↦ .inl hr⟩

theorem Prolongs.trans (h : j.Prolongs j') (h' : j'.Prolongs j'') : j.Prolongs j'' := by
  refine ⟨h.sequence.trans h'.sequence, fun r hr ↦ ?_⟩
  rcases h'.rows r hr with hr | hnew
  · exact h.rows r hr
  · exact .inr (h.sequence.trans_lt hnew)

/-- A change that was numbered before is an old one. -/
theorem Prolongs.mem (h : j.Prolongs j') {r : Change κ δ φ τ} (hr : r ∈ j'.rows)
    (hold : r.journalId ≤ j.sequence) : r ∈ j.rows := by
  refine (h.rows r hr).resolve_right ?_
  omega

section

variable [DecidableEq κ]

theorem prolongs_append (j : Journal κ δ φ τ) (k : κ) (origin : δ) (fingerprint : φ)
    (tombstone : Bool) (changedAt : τ) :
    j.Prolongs (j.append k origin fingerprint tombstone changedAt) := by
  refine ⟨(Int.lt_succ _).le, fun r hr ↦ ?_⟩
  rw [rows_append] at hr
  rcases List.mem_append.mp hr with hr | hr
  · exact .inl hr
  · rw [List.mem_singleton.mp hr]
    exact .inr (Int.lt_succ _)

theorem prolongs_compact (j : Journal κ δ φ τ) (watermark : ℤ) :
    j.Prolongs (j.compact watermark) :=
  ⟨le_rfl, fun _ hr ↦ .inl (Iff.mp mem_compact hr).1⟩

end

/-- The last id among the first changes after a watermark, or the watermark. -/
def reached (j : Journal κ δ φ τ) (watermark : ℤ) (limit : ℕ) : ℤ :=
  ((((j.after watermark).take limit).getLast?).map Change.journalId).getD watermark

theorem reached_le (j : Journal κ δ φ τ) {watermark : ℤ} (h : watermark ≤ j.sequence)
    (limit : ℕ) : j.reached watermark limit ≤ j.sequence := by
  rw [reached]
  cases hlast : ((j.after watermark).take limit).getLast? with
  | none => exact h
  | some c =>
      have hmem : c ∈ j.after watermark := List.mem_of_mem_take (List.mem_of_getLast? hlast)
      exact j.bound c (List.mem_of_mem_filter hmem)

/-- A bundle has every change between its watermark and the point it reaches. -/
theorem mem_take_after {watermark : ℤ} {limit : ℕ} {r : Change κ δ φ τ} (hr : r ∈ j.rows)
    (hafter : watermark < r.journalId) (hreached : r.journalId ≤ j.reached watermark limit) :
    r ∈ (j.after watermark).take limit := by
  have hmem : r ∈ j.after watermark := by simpa [after] using ⟨hr, hafter⟩
  rw [reached] at hreached
  cases hlast : ((j.after watermark).take limit).getLast? with
  | none =>
      rw [hlast, Option.map_none, Option.getD_none] at hreached
      omega
  | some c =>
      rw [hlast, Option.map_some, Option.getD_some] at hreached
      have hids : (j.after watermark).Pairwise fun r r' ↦ r.journalId < r'.journalId :=
        j.ids.sublist List.filter_sublist
      rw [← List.take_append_drop limit (j.after watermark)] at hmem hids
      rcases List.mem_append.mp hmem with hmem | hmem
      · exact hmem
      · have hlt := (List.pairwise_append.mp hids).2.2 c (List.mem_of_getLast? hlast) r hmem
        omega

end Journal

end Replication
