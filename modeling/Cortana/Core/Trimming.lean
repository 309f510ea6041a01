import Mathlib.Data.Nat.Notation
import Mathlib.Order.Monotone.Basic
import Mathlib.Order.Nat

/-!
# Trimming to a budget

Something that carries a number is measured, the estimate of its size is written
into it as that number, and while the estimate is over the budget something is
removed.  The size that is measured is the one with the number written before.
-/

/-- What is trimmed.  The size depends on the carried number through the length of
its digits; a removal keeps the number and makes the weight smaller. -/
structure Trimmable (σ : Type*) where
  size : σ → ℕ
  number : σ → ℕ
  write : σ → ℕ → σ
  drop : σ → Option σ
  base : σ → ℕ
  weight : σ → ℕ
  digits : ℕ → ℕ
  digits_mono : Monotone digits
  size_eq : ∀ s, size s = base s + digits (number s)
  number_write : ∀ s n, number (write s n) = n
  base_write : ∀ s n, base (write s n) = base s
  weight_write : ∀ s n, weight (write s n) = weight s
  number_drop : ∀ s t, drop s = some t → number t = number s
  weight_drop : ∀ s t, drop s = some t → weight t < weight s

namespace Trimmable

variable {σ : Type*} (T : Trimmable σ) (estimate : ℕ → ℕ) (budget : ℕ)

theorem size_write (s : σ) (n : ℕ) : T.size (T.write s n) = T.base s + T.digits n := by
  rw [T.size_eq, T.base_write, T.number_write]

/-- The estimate is written down. -/
def measure (s : σ) : σ := T.write s (estimate (T.size s))

/-- Measure, and remove while the estimate is over the budget and something is left
to be removed. -/
def trim (s : σ) : σ :=
  if estimate (T.size s) ≤ budget then T.measure estimate s
  else
    match h : T.drop (T.measure estimate s) with
    | some t =>
        have : T.weight t < T.weight s := by
          simpa only [measure, T.weight_write] using T.weight_drop _ _ h
        trim t
    | none => T.measure estimate s
termination_by T.weight s

/-- The states in which the loop measures. -/
inductive Reaches (s : σ) : σ → Prop where
  | start : Reaches s s
  | remove {p q : σ} (reached : Reaches s p) (large : budget < estimate (T.size p))
      (drop : T.drop (T.measure estimate p) = some q) : Reaches s q

variable {T estimate budget}

theorem trim_of_le {s : σ} (h : estimate (T.size s) ≤ budget) :
    T.trim estimate budget s = T.measure estimate s := by
  rw [trim, if_pos h]

theorem trim_of_drop {s t : σ} (h : budget < estimate (T.size s))
    (hdrop : T.drop (T.measure estimate s) = some t) :
    T.trim estimate budget s = T.trim estimate budget t := by
  rw [trim, if_neg (Nat.not_le.mpr h)]
  split
  · next t' h' =>
      obtain rfl := Option.some.inj (h'.symm.trans hdrop)
      rfl
  · next h' => cases h'.symm.trans hdrop

theorem trim_of_none {s : σ} (h : T.drop (T.measure estimate s) = none) :
    T.trim estimate budget s = T.measure estimate s := by
  rw [trim]
  split_ifs
  · rfl
  · split
    · next t' h' => cases h'.symm.trans h
    · rfl

theorem Reaches.trim_eq {s p : σ} (h : T.Reaches estimate budget s p) :
    T.trim estimate budget p = T.trim estimate budget s := by
  induction h with
  | start => rfl
  | remove _ hover hdrop ih => rw [← ih, trim_of_drop hover hdrop]

theorem Reaches.of_drop {s t p : σ} (hp : T.Reaches estimate budget t p)
    (hover : budget < estimate (T.size s)) (hdrop : T.drop (T.measure estimate s) = some t) :
    T.Reaches estimate budget s p := by
  induction hp with
  | start => exact .remove .start hover hdrop
  | remove _ hover' hdrop' ih => exact .remove ih hover' hdrop'

/-- The loop ends in a state that it has reached, within the budget or with nothing
left to be removed. -/
theorem exists_reaches (s : σ) :
    ∃ p, T.Reaches estimate budget s p ∧ T.trim estimate budget s = T.measure estimate p ∧
      (estimate (T.size p) ≤ budget ∨
        budget < estimate (T.size p) ∧ T.drop (T.measure estimate p) = none) := by
  induction hw : T.weight s using Nat.strong_induction_on generalizing s with
  | _ w ih =>
      rcases Nat.lt_or_ge budget (estimate (T.size s)) with hover | hle
      · cases hdrop : T.drop (T.measure estimate s) with
        | none => exact ⟨s, .start, trim_of_none hdrop, .inr ⟨hover, hdrop⟩⟩
        | some t =>
            have hweight := T.weight_drop _ _ hdrop
            rw [measure, T.weight_write, hw] at hweight
            obtain ⟨p, hp, htrim, hend⟩ := ih _ hweight t rfl
            exact ⟨p, hp.of_drop hover hdrop, (trim_of_drop hover hdrop).trans htrim, hend⟩
      · exact ⟨s, .start, trim_of_le hle, .inl hle⟩

/-- After a removal the number that is carried is an estimate over the budget. -/
theorem Reaches.eq_or_lt {s p : σ} (h : T.Reaches estimate budget s p) :
    p = s ∨ budget < T.number p ∧ budget < estimate (T.size s) := by
  induction h with
  | start => exact .inl rfl
  | @remove p q _ hover hdrop ih =>
      have hnumber : T.number q = estimate (T.size p) := by
        rw [T.number_drop _ _ hdrop, measure, T.number_write]
      refine .inr ⟨hnumber ▸ hover, ?_⟩
      rcases ih with rfl | ⟨-, hstart⟩
      · exact hover
      · exact hstart

/-- Where the states that are measured are known, the loop ends at the first of them
that is within the budget, or at the last one. -/
theorem trim_eq_of_passes {pass : ℕ → σ} {last : ℕ}
    (hdrop : ∀ k < last, T.drop (T.measure estimate (pass k)) = some (pass (k + 1)))
    (hlast : T.drop (T.measure estimate (pass last)) = none) :
    (∃ k ≤ last, (∀ j < k, budget < estimate (T.size (pass j))) ∧
        estimate (T.size (pass k)) ≤ budget ∧
        T.trim estimate budget (pass 0) = T.measure estimate (pass k)) ∨
      (∀ j ≤ last, budget < estimate (T.size (pass j))) ∧
        T.trim estimate budget (pass 0) = T.measure estimate (pass last) := by
  have hreached : ∀ {p}, T.Reaches estimate budget (pass 0) p →
      ∃ k ≤ last, p = pass k ∧ ∀ j < k, budget < estimate (T.size (pass j)) := by
    intro p hp
    induction hp with
    | start => exact ⟨0, Nat.zero_le _, rfl, fun j hj ↦ absurd hj (Nat.not_lt_zero j)⟩
    | @remove p q _ hover hq ih =>
        obtain ⟨k, hk, rfl, hbefore⟩ := ih
        have hless : k < last := by
          rcases Nat.lt_or_ge k last with hless | hge
          · exact hless
          · obtain rfl := Nat.le_antisymm hk hge
            cases hlast.symm.trans hq
        refine ⟨k + 1, hless, Option.some.inj (hq.symm.trans (hdrop k hless)), fun j hj ↦ ?_⟩
        rcases Nat.lt_succ_iff_lt_or_eq.mp hj with hj | rfl
        · exact hbefore j hj
        · exact hover
  obtain ⟨p, (hp : T.Reaches estimate budget (pass 0) p), htrim, hend⟩ := exists_reaches (pass 0)
  obtain ⟨k, hk, rfl, hbefore⟩ := hreached hp
  rcases hend with hfits | ⟨hover, hnone⟩
  · exact .inl ⟨k, hk, hbefore, hfits, htrim⟩
  · obtain rfl : k = last := by
      refine Nat.le_antisymm hk (Nat.not_lt.mp fun hless ↦ ?_)
      cases hnone.symm.trans (hdrop k hless)
    refine .inr ⟨fun j hj ↦ ?_, htrim⟩
    rcases Nat.lt_or_eq_of_le hj with hj | rfl
    · exact hbefore j hj
    · exact hover

section Cap

variable {cap : ℕ} (hcap : ∀ n, estimate n ≤ budget ↔ n ≤ cap)

include hcap

/-- A state within the budget has a measured size within the cap. -/
theorem size_measure_le {s p : σ} (hp : T.Reaches estimate budget s p)
    (hfits : estimate (T.size p) ≤ budget) (hne : p ≠ s) :
    T.size (T.measure estimate p) ≤ cap := by
  obtain ⟨hnumber, -⟩ := hp.eq_or_lt.resolve_left hne
  -- The number that was measured had at least as many digits as the one written now.
  have hdigits : T.digits (estimate (T.size p)) ≤ T.digits (T.number p) :=
    T.digits_mono (hfits.trans hnumber.le)
  have hsize := (hcap _).mp hfits
  rw [T.size_eq] at hsize
  rw [measure, T.size_write]
  omega

/-- What the loop leaves within its budget is within the cap, unless it was taken
as it came and its number has become longer. -/
theorem size_trim_le_iff {s : σ}
    (h : T.number (T.trim estimate budget s) ≤ budget) :
    T.size (T.trim estimate budget s) ≤ cap ↔
      (T.size s ≤ cap → T.size (T.measure estimate s) ≤ cap) := by
  obtain ⟨p, hp, htrim, hend⟩ := exists_reaches s
  rw [htrim] at h ⊢
  rw [measure, T.number_write] at h
  by_cases hps : p = s
  · subst hps
    exact ⟨fun hle _ ↦ hle, fun himp ↦ himp ((hcap _).mp h)⟩
  · obtain ⟨-, hstart⟩ := hp.eq_or_lt.resolve_left hps
    refine iff_of_true (size_measure_le hcap hp h hps) fun hle ↦ ?_
    exact absurd ((hcap _).mpr hle) (Nat.not_le.mpr hstart)

/-- What the loop leaves is within the cap exactly when neither the number of
something that was taken as it came nor an exhausted state is too large. -/
theorem size_trim_le_iff_exhausted {s : σ} :
    T.size (T.trim estimate budget s) ≤ cap ↔
      (T.size s ≤ cap → T.size (T.measure estimate s) ≤ cap) ∧
        ∀ p, T.Reaches estimate budget s p → budget < estimate (T.size p) →
          T.drop (T.measure estimate p) = none → T.size (T.measure estimate p) ≤ cap := by
  obtain ⟨p, hp, htrim, hfits | ⟨hover, hnone⟩⟩ := exists_reaches s
  · have hnumber : T.number (T.trim estimate budget s) ≤ budget := by
      rwa [htrim, measure, T.number_write]
    rw [size_trim_le_iff hcap hnumber, iff_self_and]
    intro _ q hq hover hnone
    rw [← hq.trim_eq, trim_of_none hnone, measure, T.number_write] at hnumber
    exact absurd hnumber (Nat.not_le.mpr hover)
  · constructor
    · intro hle
      refine ⟨fun hstart ↦ ?_, fun q hq _ hnone' ↦ ?_⟩
      · rw [trim_of_le ((hcap _).mpr hstart)] at hle
        exact hle
      · rwa [← hq.trim_eq, trim_of_none hnone'] at hle
    · rintro ⟨-, hexhausted⟩
      rw [htrim]
      exact hexhausted p hp hover hnone

end Cap

end Trimmable
