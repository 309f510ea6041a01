import Cortana.Core.Loops

/-!
# Outcomes of computations that fail with a state

A computation that leaves something behind when it fails needs a condition for
either end: one on what it returns, and one on what its error carries.
-/

universe u v w

namespace Except

variable {ε : Type u} {α : Type v} {β : Type v} {P : ε → Prop} {Q : α → Prop}

/-- The computation fails with an error, or returns a result, that meets its
condition. -/
def Ends (x : Except ε α) (P : ε → Prop) (Q : α → Prop) : Prop :=
  match x with
  | .error e => P e
  | .ok a => Q a

@[simp] theorem ends_ok {a : α} : Ends (.ok a) P Q ↔ Q a := Iff.rfl

@[simp] theorem ends_error {e : ε} : Ends (.error e) P Q ↔ P e := Iff.rfl

@[simp] theorem ends_pure {a : α} : Ends (pure a : Except ε α) P Q ↔ Q a := Iff.rfl

theorem Ends.of_ok {x : Except ε α} (h : x.Ends P Q) {a : α} (hx : x = .ok a) : Q a := by
  rwa [hx] at h

theorem Ends.of_error {x : Except ε α} (h : x.Ends P Q) {e : ε} (hx : x = .error e) :
    P e := by
  rwa [hx] at h

theorem Ends.mono {x : Except ε α} {P' : ε → Prop} {Q' : α → Prop} (h : x.Ends P Q)
    (hfailed : ∀ e, P e → P' e) (hdone : ∀ a, Q a → Q' a) :
    x.Ends P' Q' := by
  cases x with
  | error e => exact hfailed e h
  | ok a => exact hdone a h

/-- What the first part of a computation establishes, the rest may use. -/
theorem Ends.bind {x : Except ε α} {f : α → Except ε β} {Q' : β → Prop} (h : x.Ends P Q)
    (hf : ∀ a, Q a → (f a).Ends P Q') : (x >>= f).Ends P Q' := by
  cases x with
  | error e => exact h
  | ok a => exact hf a h

end Except

namespace List

variable {ε : Type u} {σ : Type v} {α : Type w} {f : σ → α → Except ε σ} {P : ε → Prop}

/-- A loop with an invariant on the elements it has passed. -/
theorem foldlM_ends {I : List α → σ → Prop} {l : List α} {s : σ} (hs : I [] s)
    (hstep : ∀ before a s, (∃ after, l = before ++ a :: after) → I before s →
      (f s a).Ends P (I (before ++ [a]))) :
    (l.foldlM f s).Ends P (I l) := by
  have hloop : ∀ rest before s, l = before ++ rest → I before s →
      (rest.foldlM f s).Ends P (I l) := by
    intro rest
    induction rest with
    | nil =>
        intro before s hl hbefore
        rw [append_nil] at hl
        rwa [foldlM_nil, hl]
    | cons a rest ih =>
        intro before s hl hbefore
        rw [foldlM_cons]
        refine (hstep before a s ⟨rest, hl⟩ hbefore).bind fun t ht ↦ ?_
        exact ih (before ++ [a]) t (by simpa using hl) ht
  exact hloop l [] s rfl hs

end List
