import Mathlib.Data.List.Induction
import Mathlib.Data.List.Nodup
import Mathlib.Data.Int.Notation

/-!
# Journals of revisions

A journal lists the changes made to a set of objects, in the order they were
written.  Ids ascend along the whole journal and revisions ascend along the
changes of each object; both hold by construction.  The latest change of an
object is the one with the greatest revision, and compaction drops changes up
to a watermark that are not the newest of their object.
-/

namespace Replication

/-! ## Ends of filtered lists -/

theorem getLast?_filter_of_getLast? {α : Type*} {l : List α} {p : α → Bool} {x : α}
    (h : l.getLast? = some x) (hp : p x = true) : (l.filter p).getLast? = some x := by
  obtain ⟨init, rfl⟩ := List.getLast?_eq_some_iff.mp h
  simp [hp]

/-- A condition that passes from each element of a list to the later ones
selects an end of the list. -/
theorem filter_suffix {α : Type*} {l : List α} {p : α → Bool}
    (h : l.Pairwise fun x y ↦ p x = true → p y = true) : l.filter p <:+ l := by
  induction l with
  | nil => exact List.suffix_refl []
  | cons x rest ih =>
      rw [List.pairwise_cons] at h
      cases hx : p x with
      | true =>
          have hall : (x :: rest).filter p = x :: rest := by
            refine List.filter_eq_self.mpr fun y hy ↦ ?_
            rcases List.mem_cons.mp hy with rfl | hy
            · exact hx
            · exact h.1 y hy hx
          exact ⟨[], hall⟩
      | false =>
          rw [List.filter_cons_of_neg (by simp [hx])]
          exact (ih h.2).trans (List.suffix_cons x rest)

/-! ## Changes and journals -/

variable {κ δ φ τ : Type*}

/-- One change of an object: who made it, what the object then looked like,
and whether the object was deleted. -/
structure Change (κ δ φ τ : Type*) where
  journalId : ℤ
  object : κ
  revision : ℤ
  origin : δ
  fingerprint : φ
  tombstone : Bool
  changedAt : τ
deriving DecidableEq

/-- The changes made so far, and the last id handed out. -/
structure Journal (κ δ φ τ : Type*) where
  rows : List (Change κ δ φ τ)
  sequence : ℤ
  ids : rows.Pairwise fun r r' ↦ r.journalId < r'.journalId
  revisions : rows.Pairwise fun r r' ↦ r.object = r'.object → r.revision < r'.revision
  bound : ∀ r ∈ rows, r.journalId ≤ sequence

namespace Journal

def empty : Journal κ δ φ τ := ⟨[], 0, List.Pairwise.nil, List.Pairwise.nil, by simp⟩

/-- The changes after a watermark. -/
def after (j : Journal κ δ φ τ) (watermark : ℤ) : List (Change κ δ φ τ) :=
  j.rows.filter fun r ↦ watermark < r.journalId

/-- The change with the greater revision. -/
def laterRevision : Option (Change κ δ φ τ) → Change κ δ φ τ → Option (Change κ δ φ τ)
  | none, r => some r
  | some best, r => if best.revision < r.revision then some r else some best

theorem foldl_laterRevision {l : List (Change κ δ φ τ)}
    (h : l.Pairwise fun r r' ↦ r.revision < r'.revision) :
    l.foldl laterRevision none = l.getLast? := by
  induction l using List.reverseRecOn with
  | nil => rfl
  | append_singleton l r ih =>
      rw [List.pairwise_append] at h
      rw [List.foldl_append, ih h.1, List.getLast?_concat]
      cases hlast : l.getLast? with
      | none => rfl
      | some best =>
          have hmem : best ∈ l := List.mem_of_getLast? hlast
          have hlt := h.2.2 best hmem r (List.mem_singleton_self r)
          simp [laterRevision, hlt]

variable [DecidableEq κ]

/-- The changes of one object. -/
def history (j : Journal κ δ φ τ) (k : κ) : List (Change κ δ φ τ) :=
  j.rows.filter fun r ↦ r.object = k

/-- The change of an object with the greatest revision. -/
def latest (j : Journal κ δ φ τ) (k : κ) : Option (Change κ δ φ τ) :=
  (j.history k).foldl laterRevision none

theorem mem_history {j : Journal κ δ φ τ} {k : κ} {r : Change κ δ φ τ} :
    r ∈ j.history k ↔ r ∈ j.rows ∧ r.object = k := by
  simp [history]

theorem history_revisions (j : Journal κ δ φ τ) (k : κ) :
    (j.history k).Pairwise fun r r' ↦ r.revision < r'.revision := by
  refine (j.revisions.sublist List.filter_sublist).imp_of_mem fun hr hr' h ↦ ?_
  exact h ((Iff.mp mem_history hr).2.trans (Iff.mp mem_history hr').2.symm)

theorem history_ids (j : Journal κ δ φ τ) (k : κ) :
    (j.history k).Pairwise fun r r' ↦ r.journalId < r'.journalId :=
  j.ids.sublist List.filter_sublist

/-- Revisions ascend with the journal, so the latest change of an object is
its last one. -/
theorem latest_eq_getLast? (j : Journal κ δ φ τ) (k : κ) :
    j.latest k = (j.history k).getLast? :=
  foldl_laterRevision (j.history_revisions k)

theorem mem_of_latest {j : Journal κ δ φ τ} {k : κ} {r : Change κ δ φ τ}
    (h : j.latest k = some r) : r ∈ j.rows ∧ r.object = k := by
  rw [latest_eq_getLast?] at h
  exact Iff.mp mem_history (List.mem_of_getLast? h)

theorem latest_eq_none_iff {j : Journal κ δ φ τ} {k : κ} :
    j.latest k = none ↔ ∀ r ∈ j.rows, r.object ≠ k := by
  rw [latest_eq_getLast?, List.getLast?_eq_none_iff, history, List.filter_eq_nil_iff]
  simp

/-- No change of an object has a greater id than its latest one. -/
theorem journalId_le_latest {j : Journal κ δ φ τ} {k : κ} {r ℓ : Change κ δ φ τ}
    (hℓ : j.latest k = some ℓ) (hr : r ∈ j.rows) (hk : r.object = k) :
    r.journalId ≤ ℓ.journalId := by
  rw [latest_eq_getLast?, List.getLast?_eq_some_iff] at hℓ
  obtain ⟨l, hl⟩ := hℓ
  have hmem : r ∈ l ++ [ℓ] := hl ▸ Iff.mpr mem_history ⟨hr, hk⟩
  have hids := hl ▸ j.history_ids k
  rw [List.pairwise_append] at hids
  rcases List.mem_append.mp hmem with hr | hr
  · exact Int.le_of_lt (hids.2.2 r hr ℓ (List.mem_singleton_self ℓ))
  · exact Int.le_of_eq (congrArg Change.journalId (List.mem_singleton.mp hr))

/-! ## Appending -/

/-- The revision the next change of an object gets. -/
def nextRevision (j : Journal κ δ φ τ) (k : κ) : ℤ :=
  match j.latest k with
  | none => 1
  | some r => r.revision + 1

theorem revision_lt_nextRevision {j : Journal κ δ φ τ} {k : κ} {r : Change κ δ φ τ}
    (hr : r ∈ j.rows) (hk : r.object = k) : r.revision < j.nextRevision k := by
  have hmem : r ∈ j.history k := Iff.mpr mem_history ⟨hr, hk⟩
  rw [nextRevision]
  cases hlatest : j.latest k with
  | none => exact absurd hk (Iff.mp latest_eq_none_iff hlatest r hr)
  | some ℓ =>
      rw [latest_eq_getLast?, List.getLast?_eq_some_iff] at hlatest
      obtain ⟨l, hl⟩ := hlatest
      have hrevisions := hl ▸ j.history_revisions k
      rw [List.pairwise_append] at hrevisions
      rcases List.mem_append.mp (hl ▸ hmem) with hr | hr
      · have := hrevisions.2.2 r hr ℓ (List.mem_singleton_self ℓ)
        dsimp only
        omega
      · rw [List.mem_singleton.mp hr]
        dsimp only
        omega

/-- The change that is written next. -/
def draft (j : Journal κ δ φ τ) (k : κ) (origin : δ) (fingerprint : φ) (tombstone : Bool)
    (changedAt : τ) : Change κ δ φ τ :=
  ⟨j.sequence + 1, k, j.nextRevision k, origin, fingerprint, tombstone, changedAt⟩

/-- Write one more change of an object. -/
def append (j : Journal κ δ φ τ) (k : κ) (origin : δ) (fingerprint : φ) (tombstone : Bool)
    (changedAt : τ) : Journal κ δ φ τ where
  rows := j.rows ++ [j.draft k origin fingerprint tombstone changedAt]
  sequence := j.sequence + 1
  ids := by
    refine List.pairwise_append.mpr ⟨j.ids, List.pairwise_singleton _ _, ?_⟩
    intro r hr r' hr'
    rw [List.mem_singleton.mp hr']
    have := j.bound r hr
    simp only [draft]
    omega
  revisions := by
    refine List.pairwise_append.mpr ⟨j.revisions, List.pairwise_singleton _ _, ?_⟩
    intro r hr r' hr' hk
    rw [List.mem_singleton.mp hr'] at hk ⊢
    exact revision_lt_nextRevision hr hk
  bound := by
    intro r hr
    rcases List.mem_append.mp hr with hr | hr
    · have := j.bound r hr
      omega
    · rw [List.mem_singleton.mp hr]
      exact Int.le_refl _

section Append

variable (j : Journal κ δ φ τ) (k : κ) (origin : δ) (fingerprint : φ) (tombstone : Bool)
  (changedAt : τ)

theorem rows_append :
    (j.append k origin fingerprint tombstone changedAt).rows =
      j.rows ++ [j.draft k origin fingerprint tombstone changedAt] :=
  rfl

theorem history_append_self :
    (j.append k origin fingerprint tombstone changedAt).history k =
      j.history k ++ [j.draft k origin fingerprint tombstone changedAt] := by
  simp [history, rows_append, draft]

theorem history_append_of_ne {k' : κ} (h : k' ≠ k) :
    (j.append k origin fingerprint tombstone changedAt).history k' = j.history k' := by
  simp [history, rows_append, draft, h.symm]

theorem latest_append_self :
    (j.append k origin fingerprint tombstone changedAt).latest k =
      some (j.draft k origin fingerprint tombstone changedAt) := by
  rw [latest_eq_getLast?, history_append_self, List.getLast?_concat]

theorem latest_append_of_ne {k' : κ} (h : k' ≠ k) :
    (j.append k origin fingerprint tombstone changedAt).latest k' = j.latest k' := by
  rw [latest_eq_getLast?, history_append_of_ne _ _ _ _ _ _ h, ← latest_eq_getLast?]

end Append

/-! ## Compaction -/

/-- No change of the same object has a greater id. -/
def Newest (j : Journal κ δ φ τ) (r : Change κ δ φ τ) : Prop :=
  ∀ r' ∈ j.rows, r'.object = r.object → r'.journalId ≤ r.journalId

instance (j : Journal κ δ φ τ) (r : Change κ δ φ τ) : Decidable (j.Newest r) :=
  inferInstanceAs (Decidable (∀ r' ∈ j.rows, r'.object = r.object → r'.journalId ≤ r.journalId))

/-- Drop the changes up to the watermark that are not the newest of their
object. -/
def compact (j : Journal κ δ φ τ) (watermark : ℤ) : Journal κ δ φ τ where
  rows := j.rows.filter fun r ↦ watermark < r.journalId ∨ j.Newest r
  sequence := j.sequence
  ids := j.ids.sublist List.filter_sublist
  revisions := j.revisions.sublist List.filter_sublist
  bound := fun r hr ↦ j.bound r (List.mem_of_mem_filter hr)

theorem mem_compact {j : Journal κ δ φ τ} {watermark : ℤ} {r : Change κ δ φ τ} :
    r ∈ (j.compact watermark).rows ↔
      r ∈ j.rows ∧ (watermark < r.journalId ∨ j.Newest r) := by
  simp [compact]

theorem newest_of_latest {j : Journal κ δ φ τ} {k : κ} {ℓ : Change κ δ φ τ}
    (h : j.latest k = some ℓ) : j.Newest ℓ := by
  intro r hr hk
  exact journalId_le_latest h hr (hk.trans (mem_of_latest h).2)

theorem history_compact (j : Journal κ δ φ τ) (watermark : ℤ) (k : κ) :
    (j.compact watermark).history k =
      (j.history k).filter fun r ↦ watermark < r.journalId ∨ j.Newest r := by
  simp only [history, compact, List.filter_filter]
  congr 1
  funext r
  rw [Bool.and_comm]

/-- Compaction keeps the latest change of every object. -/
theorem latest_compact (j : Journal κ δ φ τ) (watermark : ℤ) (k : κ) :
    (j.compact watermark).latest k = j.latest k := by
  rw [latest_eq_getLast?, history_compact]
  cases hlatest : j.latest k with
  | none =>
      have hnil : j.history k = [] := by
        rwa [latest_eq_getLast?, List.getLast?_eq_none_iff] at hlatest
      rw [hnil]
      rfl
  | some ℓ =>
      have hnewest := newest_of_latest hlatest
      rw [latest_eq_getLast?] at hlatest
      exact getLast?_filter_of_getLast? hlatest (by simp [hnewest])

/-- Of every object compaction keeps an end of its history. -/
theorem history_compact_suffix (j : Journal κ δ φ τ) (watermark : ℤ) (k : κ) :
    (j.compact watermark).history k <:+ j.history k := by
  rw [history_compact]
  refine filter_suffix ((j.history_ids k).imp_of_mem fun {r r'} hr hr' hlt ↦ ?_)
  have hk : r'.object = r.object := (Iff.mp mem_history hr').2.trans (Iff.mp mem_history hr).2.symm
  simp only [decide_eq_true_eq]
  rintro (h | h)
  · exact Or.inl (by omega)
  · have := h r' (Iff.mp mem_history hr').1 hk
    omega

/-- What was written after the watermark stays. -/
theorem after_compact {j : Journal κ δ φ τ} {watermark w : ℤ} (h : watermark ≤ w) :
    (j.compact watermark).after w = j.after w := by
  simp only [after, compact, List.filter_filter]
  refine List.filter_congr fun r _ ↦ ?_
  by_cases hw : w < r.journalId
  · have : watermark < r.journalId := by omega
    simp [hw, this]
  · simp [hw]

end Journal

end Replication
