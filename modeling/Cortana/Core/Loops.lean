import Mathlib.Data.List.Basic
import Mathlib.Logic.Relation

/-!
# Computations that may fail

Inversion of a sequence of computations that may fail, and the rules for a
loop over a list: what every round keeps, the whole loop keeps, and what
relates the states before and after every round relates those of the loop.
-/

universe u v w

namespace Except

variable {ε : Type u} {α β : Type v}

theorem bind_ok_iff {x : Except ε α} {f : α → Except ε β} {b : β} :
    (x >>= f) = .ok b ↔ ∃ a, x = .ok a ∧ f a = .ok b := by
  cases x with
  | error e => simp [bind, Except.bind]
  | ok a => simp [bind, Except.bind]

theorem map_ok_iff {x : Except ε α} {f : α → β} {b : β} :
    x.map f = .ok b ↔ ∃ a, x = .ok a ∧ f a = b := by
  cases x <;> simp [Except.map]

theorem pure_ok_iff {a b : α} : (pure a : Except ε α) = .ok b ↔ a = b := by
  simp [pure, Except.pure]

theorem toOption_eq_some_iff {x : Except ε α} {a : α} : x.toOption = some a ↔ x = .ok a := by
  cases x <;> simp [Except.toOption]

/-- Fail with an error unless a condition holds. -/
def require (p : Prop) [Decidable p] (e : ε) : Except ε Unit := if p then .ok () else .error e

theorem require_ok_iff {p : Prop} [Decidable p] {e : ε} {u : Unit} :
    require p e = .ok u ↔ p := by
  rw [require]
  split <;> simp_all

end Except

namespace List

variable {ε : Type u} {σ : Type v} {α : Type w} {f : σ → α → Except ε σ}

theorem foldlM_cons_ok_iff {a : α} {l : List α} {s t : σ} :
    (a :: l).foldlM f s = .ok t ↔ ∃ u, f s a = .ok u ∧ l.foldlM f u = .ok t := by
  rw [List.foldlM_cons, Except.bind_ok_iff]

theorem foldlM_nil_ok_iff {s t : σ} : ([] : List α).foldlM f s = .ok t ↔ s = t := by
  rw [List.foldlM_nil, Except.pure_ok_iff]

/-- The results of a successful map show what they are the images of. -/
theorem map_of_mapM_ok {β : Type w} {g : α → Except ε β} {r : β → α}
    (hback : ∀ a b, g a = .ok b → r b = a) {l : List α} {l' : List β}
    (h : l.mapM g = .ok l') : l'.map r = l := by
  induction l generalizing l' with
  | nil =>
      rw [List.mapM_nil] at h
      rw [← Iff.mp Except.pure_ok_iff h, List.map_nil]
  | cons x rest ih =>
      rw [List.mapM_cons] at h
      obtain ⟨y, hy, h⟩ := Iff.mp Except.bind_ok_iff h
      obtain ⟨ys, hys, h⟩ := Iff.mp Except.bind_ok_iff h
      rw [← Iff.mp Except.pure_ok_iff h, List.map_cons, hback x y hy, ih hys]

/-- The result of a successful map has the image of every element. -/
theorem exists_mem_of_mapM_ok {β : Type w} {g : α → Except ε β} {l : List α} {l' : List β}
    (h : l.mapM g = .ok l') {a : α} (ha : a ∈ l) : ∃ b ∈ l', g a = .ok b := by
  induction l generalizing l' with
  | nil => cases ha
  | cons x rest ih =>
      rw [List.mapM_cons] at h
      obtain ⟨y, hy, h⟩ := Iff.mp Except.bind_ok_iff h
      obtain ⟨ys, hys, h⟩ := Iff.mp Except.bind_ok_iff h
      obtain rfl := Iff.mp Except.pure_ok_iff h
      rcases mem_cons.mp ha with rfl | ha
      · exact ⟨y, mem_cons_self, hy⟩
      · obtain ⟨b, hb, hgb⟩ := ih hys ha
        exact ⟨b, mem_cons_of_mem y hb, hgb⟩

/-- The result of a successful map has nothing else. -/
theorem exists_of_mem_mapM_ok {β : Type w} {g : α → Except ε β} {l : List α} {l' : List β}
    (h : l.mapM g = .ok l') {b : β} (hb : b ∈ l') : ∃ a ∈ l, g a = .ok b := by
  induction l generalizing l' with
  | nil =>
      rw [← Iff.mp Except.pure_ok_iff h] at hb
      cases hb
  | cons x rest ih =>
      rw [List.mapM_cons] at h
      obtain ⟨y, hy, h⟩ := Iff.mp Except.bind_ok_iff h
      obtain ⟨ys, hys, h⟩ := Iff.mp Except.bind_ok_iff h
      obtain rfl := Iff.mp Except.pure_ok_iff h
      rcases mem_cons.mp hb with rfl | hb
      · exact ⟨x, mem_cons_self, hy⟩
      · obtain ⟨a, ha, hga⟩ := ih hys hb
        exact ⟨a, mem_cons_of_mem x ha, hga⟩

/-- A map over a list fails on one of its elements or on none. -/
theorem mapM_error_or_ok {β : Type w} (g : α → Except ε β) (l : List α) :
    (∃ a ∈ l, ∃ e, g a = .error e ∧ l.mapM g = .error e) ∨ ∀ a ∈ l, ∃ b, g a = .ok b := by
  induction l with
  | nil => exact .inr (by simp)
  | cons x rest ih =>
      cases hx : g x with
      | error e => exact .inl ⟨x, mem_cons_self, e, hx, by rw [List.mapM_cons, hx]; rfl⟩
      | ok b =>
          rcases ih with ⟨a, ha, e, he, herror⟩ | hok
          · refine .inl ⟨a, mem_cons_of_mem x ha, e, he, ?_⟩
            rw [List.mapM_cons, hx, herror]
            rfl
          · refine .inr fun a ha ↦ ?_
            rcases mem_cons.mp ha with rfl | ha
            · exact ⟨b, hx⟩
            · exact hok a ha

theorem mapM_eq_ok {β : Type w} {g : α → Except ε β} {r : α → β} {l : List α}
    (h : ∀ a ∈ l, g a = .ok (r a)) : l.mapM g = .ok (l.map r) := by
  induction l with
  | nil => rfl
  | cons x rest ih =>
      have hrest := ih fun a ha ↦ h a (mem_cons_of_mem x ha)
      rw [List.mapM_cons, h x mem_cons_self, hrest]
      rfl

/-- What every round keeps, the loop keeps. -/
theorem foldlM_preserves {P : σ → Prop} {l : List α} {s t : σ}
    (hstep : ∀ a ∈ l, ∀ s s', P s → f s a = .ok s' → P s') (hs : P s)
    (h : l.foldlM f s = .ok t) : P t := by
  induction l generalizing s with
  | nil => rwa [← Iff.mp foldlM_nil_ok_iff h]
  | cons a rest ih =>
      obtain ⟨u, hu, hrest⟩ := Iff.mp foldlM_cons_ok_iff h
      refine ih (fun b hb ↦ hstep b (mem_cons_of_mem a hb)) ?_ hrest
      exact hstep a mem_cons_self s u hs hu

/-- A reflexive and transitive relation that holds across every round holds
across the loop. -/
theorem foldlM_relates {R : σ → σ → Prop} (hrefl : ∀ s, R s s)
    (htrans : ∀ s t u, R s t → R t u → R s u) {l : List α} {s t : σ}
    (hstep : ∀ a ∈ l, ∀ s s', f s a = .ok s' → R s s') (h : l.foldlM f s = .ok t) :
    R s t := by
  induction l generalizing s with
  | nil =>
      rw [← Iff.mp foldlM_nil_ok_iff h]
      exact hrefl s
  | cons a rest ih =>
      obtain ⟨u, hu, hrest⟩ := Iff.mp foldlM_cons_ok_iff h
      refine htrans s u t (hstep a mem_cons_self s u hu) ?_
      exact ih (fun b hb ↦ hstep b (mem_cons_of_mem a hb)) hrest

/-- A loop whose steps are those of another loop on a part of the state. -/
theorem foldlM_project {τ : Type*} {π : σ → τ} {g : τ → α → Except ε τ}
    (hstep : ∀ s a, (f s a).map π = g (π s) a) (l : List α) (s : σ) :
    (l.foldlM f s).map π = l.foldlM g (π s) := by
  induction l generalizing s with
  | nil => rfl
  | cons a rest ih =>
      rw [List.foldlM_cons, List.foldlM_cons, ← hstep]
      cases hfirst : f s a with
      | error e => rfl
      | ok t => exact ih t

end List
