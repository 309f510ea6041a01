import Mathlib.Logic.Relation

/-!
# Relations without cycles

A relation has no cycle when nothing is above itself.  New edges that leave a
vertex into which no edge leads do not close one.
-/

variable {α : Type*} {r r' : α → α → Prop}

/-- Nothing can be reached from itself. -/
def Acyclic (r : α → α → Prop) : Prop := ∀ a, ¬Relation.TransGen r a a

theorem Acyclic.mono (h : Acyclic r) (hsub : ∀ a b, r' a b → r a b) : Acyclic r' :=
  fun a ha ↦ h a (Relation.TransGen.mono hsub a a ha)

/-- A path that does not start at `m` stays in the old relation. -/
theorem transGen_of_source {m a b : α} (hin : ∀ x, ¬r' x m)
    (hsub : ∀ a b, r' a b → a = m ∨ r a b) (h : Relation.TransGen r' a b) (ha : a ≠ m) :
    Relation.TransGen r a b := by
  induction h with
  | single hab => exact .single ((hsub a _ hab).resolve_left ha)
  | @tail b c hab hbc ih =>
      refine ih.tail ((hsub b c hbc).resolve_left ?_)
      rintro rfl
      obtain ⟨x, -, hx⟩ := Relation.TransGen.tail'_iff.mp hab
      exact hin x hx

theorem Acyclic.of_source {m : α} (h : Acyclic r) (hin : ∀ x, ¬r' x m)
    (hsub : ∀ a b, r' a b → a = m ∨ r a b) : Acyclic r' := by
  intro a ha
  have hne : a ≠ m := by
    rintro rfl
    obtain ⟨x, -, hx⟩ := Relation.TransGen.tail'_iff.mp ha
    exact hin x hx
  exact h a (transGen_of_source hin hsub ha hne)
