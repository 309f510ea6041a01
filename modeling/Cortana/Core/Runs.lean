import Mathlib.Logic.Relation

/-!
# Runs of a labelled step relation

A system takes steps labelled by events.  A run may be restricted to events
that meet a condition in the state they happen in; what every such step
preserves holds in every state of the run.
-/

namespace Transition

variable {σ ε : Type*} {step : σ → ε → σ → Prop} {ok : σ → ε → Prop}

/-- One step whose event meets the condition. -/
def Guarded (step : σ → ε → σ → Prop) (ok : σ → ε → Prop) (s t : σ) : Prop :=
  ∃ event, ok s event ∧ step s event t

/-- A run of any length all of whose events meet the condition. -/
def Run (step : σ → ε → σ → Prop) (ok : σ → ε → Prop) : σ → σ → Prop :=
  Relation.ReflTransGen (Guarded step ok)

theorem Run.refl (s : σ) : Run step ok s s := Relation.ReflTransGen.refl

theorem Run.snoc {s t u : σ} (h : Run step ok s t) {event : ε} (hok : ok t event)
    (hstep : step t event u) : Run step ok s u :=
  Relation.ReflTransGen.tail h ⟨event, hok, hstep⟩

theorem Run.mono {ok' : σ → ε → Prop} (hok : ∀ s event, ok s event → ok' s event) {s t : σ}
    (h : Run step ok s t) : Run step ok' s t := by
  refine Relation.ReflTransGen.mono ?_ s t h
  rintro s t ⟨event, hevent, hstep⟩
  exact ⟨event, hok s event hevent, hstep⟩

/-- A sequence of events that are carried out one after the other is a run. -/
theorem Run.of_foldlM {next : σ → ε → Option σ}
    (hnext : ∀ s event t, next s event = some t → step s event t) {events : List ε} {s t : σ}
    (hok : ∀ event ∈ events, ∀ s, ok s event) (h : events.foldlM next s = some t) :
    Run step ok s t := by
  induction events generalizing s with
  | nil =>
      obtain rfl : s = t := by simpa using h
      exact Run.refl s
  | cons event rest ih =>
      rw [List.foldlM_cons] at h
      obtain ⟨u, hu, hrest⟩ := Option.bind_eq_some_iff.mp h
      refine Relation.ReflTransGen.head ⟨event, ?_, hnext s event u hu⟩ ?_
      · exact hok event List.mem_cons_self s
      · exact ih (fun e he ↦ hok e (List.mem_cons_of_mem event he)) hrest

/-- The events meet the condition one after the other. -/
def Along (next : σ → ε → σ) (ok : σ → ε → Prop) : σ → List ε → Prop
  | _, [] => True
  | s, event :: rest => ok s event ∧ Along next ok (next s event) rest

/-- Each event meets the condition where the earlier ones have led. -/
theorem Along.of_append {next : σ → ε → σ} {s : σ} {before after : List ε}
    (h : Along next ok s (before ++ after)) : Along next ok (before.foldl next s) after := by
  induction before generalizing s with
  | nil => exact h
  | cons event rest ih => exact ih h.2

/-- A sequence of events of a total step function is a run. -/
theorem Run.of_along {next : σ → ε → σ} (hstep : ∀ s event, step s event (next s event))
    {events : List ε} {s : σ} (h : Along next ok s events) :
    Run step ok s (events.foldl next s) := by
  induction events generalizing s with
  | nil => exact Run.refl s
  | cons event rest ih =>
      exact Relation.ReflTransGen.head ⟨event, h.1, hstep s event⟩ (ih h.2)

/-- What a step preserves, a run preserves. -/
theorem Run.preserves {I : σ → Prop}
    (hstep : ∀ s event t, I s → ok s event → step s event t → I t) {s t : σ}
    (h : Run step ok s t) (hs : I s) : I t := by
  induction h with
  | refl => exact hs
  | tail _ hlast ih =>
      obtain ⟨event, hok, hevent⟩ := hlast
      exact hstep _ event _ ih hok hevent

/-- A reflexive and transitive relation that holds across every step from a
state with the invariant holds across every run from such a state. -/
theorem Run.relates {inv : σ → Prop} {rel : σ → σ → Prop} (hrefl : ∀ s, rel s s)
    (htrans : ∀ s t u, rel s t → rel t u → rel s u)
    (hinv : ∀ s event t, inv s → ok s event → step s event t → inv t)
    (hstep : ∀ s event t, inv s → ok s event → step s event t → rel s t) {s t : σ}
    (h : Run step ok s t) (hs : inv s) : rel s t := by
  induction h with
  | refl => exact hrefl s
  | tail hrun hlast ih =>
      obtain ⟨event, hok, hevent⟩ := hlast
      have hmid := Run.preserves hinv hrun hs
      exact htrans _ _ _ ih (hstep _ event _ hmid hok hevent)

end Transition
