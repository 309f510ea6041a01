import Cortana.Replication.Convergence
import Mathlib.Data.Set.Insert

/-!
# Rows and the journal that tracks them

The row of an object is tracked when its latest change has the digest of that
row.  Local writes that are journaled keep every row tracked, and so does a
bundle that brings, for each object, the row of the last change it is applied
with.  Journals only go on: the latest change of an object stays or is
followed by one with a new id.
-/

namespace Replication

variable {κ δ φ τ β : Type*} [DecidableEq κ]

/-! ## Journals that go on -/

/-- The latest change of every object is the same, or it has a new id. -/
structure Journal.Extends (j j' : Journal κ δ φ τ) : Prop where
  sequence : j.sequence ≤ j'.sequence
  latest : ∀ k, j'.latest k = j.latest k ∨ ∃ ℓ, j'.latest k = some ℓ ∧ j.sequence < ℓ.journalId

namespace Journal

variable {j j' j'' : Journal κ δ φ τ}

theorem Extends.refl (j : Journal κ δ φ τ) : j.Extends j := ⟨le_rfl, fun _ ↦ Or.inl rfl⟩

theorem Extends.trans (h : j.Extends j') (h' : j'.Extends j'') : j.Extends j'' := by
  refine ⟨h.sequence.trans h'.sequence, fun k ↦ ?_⟩
  rcases h'.latest k with hsame | ⟨ℓ, hℓ, hnew⟩
  · rw [hsame]
    exact h.latest k
  · exact Or.inr ⟨ℓ, hℓ, h.sequence.trans_lt hnew⟩

theorem extends_append (j : Journal κ δ φ τ) (k : κ) (origin : δ) (fingerprint : φ)
    (tombstone : Bool) (changedAt : τ) :
    j.Extends (j.append k origin fingerprint tombstone changedAt) := by
  refine ⟨(Int.lt_succ _).le, fun k' ↦ ?_⟩
  by_cases hk : k' = k
  · subst hk
    exact Or.inr ⟨_, latest_append_self .., Int.lt_succ _⟩
  · exact Or.inl (latest_append_of_ne _ _ _ _ _ _ hk)

theorem extends_record [DecidableEq φ] (j : Journal κ δ φ τ) (self : Option δ) (k : κ)
    (state : φ × Bool) (changedAt : τ) : j.Extends (j.record self k state changedAt) := by
  cases self with
  | none => exact .refl j
  | some device =>
      rw [record]
      split
      · exact .refl j
      · exact extends_append ..

theorem extends_compact (j : Journal κ δ φ τ) (watermark : ℤ) : j.Extends (j.compact watermark) :=
  ⟨le_rfl, fun k ↦ Or.inl (latest_compact j watermark k)⟩

/-- An object that has a latest change keeps having one. -/
theorem Extends.latest_ne_none (h : j.Extends j') {k : κ} (hlatest : j.latest k ≠ none) :
    j'.latest k ≠ none := by
  rcases h.latest k with hsame | ⟨ℓ, hℓ, -⟩
  · rwa [hsame]
  · simp [hℓ]

end Journal

/-- The entry brings the row of its change, or deletes it. -/
def Entry.Coherent (digest : Digest β φ) (e : Entry κ δ φ τ β) : Prop :=
  e.tombstone = true ∨ e.payload.map digest.row = some e.fingerprint

instance [DecidableEq φ] (digest : Digest β φ) (e : Entry κ δ φ τ β) :
    Decidable (e.Coherent digest) :=
  inferInstanceAs (Decidable (_ ∨ _))

omit [DecidableEq κ] in
/-- The row a coherent entry leaves behind has the state it is journaled with. -/
theorem Entry.Coherent.state_resulting {digest : Digest β φ} {e : Entry κ δ φ τ β}
    (h : e.Coherent digest) : digest.state e.resulting = (e.stamp digest, e.tombstone) := by
  rw [Entry.resulting, Entry.stamp]
  cases htomb : e.tombstone with
  | true => rfl
  | false =>
      obtain ⟨b, hb, hfingerprint⟩ := Option.map_eq_some_iff.mp (h.resolve_left (by simp [htomb]))
      simp [hb, Digest.state, hfingerprint]

namespace Replica

variable {digest : Digest β φ} {r r' : Replica κ δ φ τ β}

/-! ## Local writes -/

/-- A write on an adopted device is tracked. -/
theorem matched_edit [DecidableEq φ] (h : ∀ k, Matched digest r k) (hself : r.self ≠ none) (k : κ)
    (row : Option β) (changedAt : τ) :
    ∀ k', Matched digest (r.edit digest k row changedAt) k' := by
  obtain ⟨device, hdevice⟩ := Option.ne_none_iff_exists'.mp hself
  intro k'
  by_cases hk : k' = k
  · subst hk
    by_cases hsaid : r.journal.Says k' (digest.state row)
    · obtain ⟨ℓ, hℓ, hfingerprint, htombstone⟩ := hsaid
      have hjournal : (r.edit digest k' row changedAt).journal = r.journal := by
        simp only [edit, Journal.record, hdevice]
        exact if_pos ⟨ℓ, hℓ, hfingerprint, htombstone⟩
      rw [Matched, hjournal, Option.mem_def.mp hℓ]
      simp [edit, hfingerprint, htombstone]
    · have hjournal : (r.edit digest k' row changedAt).journal =
          r.journal.append k' device (digest.state row).1 (digest.state row).2 changedAt := by
        simp only [edit, Journal.record, hdevice]
        exact if_neg hsaid
      rw [Matched, hjournal, Journal.latest_append_self]
      simp [edit, Journal.draft]
  · refine (h k').congr ?_ (Function.update_of_ne hk _ _)
    simp only [edit, Journal.record, hdevice]
    split
    · rfl
    · exact Journal.latest_append_of_ne _ _ _ _ _ _ hk

/-! ## Bundles -/

section Receive

variable [LinearOrder δ] [DecidableEq φ] [LinearOrder τ]

/-- At the end of the bundle every object has the row of its latest change.
The set holds the objects of which this is not so yet: the last entry that was
applied to them brought another row. -/
def Restores (digest : Digest β φ) :
    Replica κ δ φ τ β → List (Entry κ δ φ τ β) → Set κ → Prop
  | _, [], owed => owed = ∅
  | r, e :: rest, owed => ∀ r' ∈ r.receive digest e, Restores digest r' rest
      (if (r.outcomeOf e).applies then
        if e.Coherent digest then owed \ {e.object} else insert e.object owed
      else owed)

/-- What an entry does to the object it is about, and to the others. -/
theorem Received.matched {e : Entry κ δ φ τ β} {owed : Set κ} (h : Received digest r e r')
    (hmatched : ∀ k ∉ owed, Matched digest r k) :
    ∀ k ∉ (if (r.outcomeOf e).applies then
      if e.Coherent digest then owed \ {e.object} else insert e.object owed
      else owed), Matched digest r' k := by
  have hrow := h.row
  have hjournal := h.journal
  intro k hk
  cases happlies : (r.outcomeOf e).applies with
  | false =>
      rw [happlies, if_neg Bool.false_ne_true] at hrow hjournal hk
      exact (hmatched k hk).congr (by rw [hjournal]) (by rw [hrow])
  | true =>
      rw [happlies, if_pos rfl] at hrow hjournal hk
      by_cases hobject : k = e.object
      · subst hobject
        have hcoherent : e.Coherent digest := by
          by_contra hnot
          rw [if_neg hnot] at hk
          exact hk (Set.mem_insert _ _)
        rw [Matched, hjournal, Journal.latest_append_self, hrow, Function.update_self]
        exact hcoherent.state_resulting
      · have howed : k ∉ owed := by
          intro hin
          split_ifs at hk
          · exact hk ⟨hin, hobject⟩
          · exact hk (Set.mem_insert_of_mem _ hin)
        refine (hmatched k howed).congr ?_ ?_
        · rw [hjournal, Journal.latest_append_of_ne _ _ _ _ _ _ hobject]
        · rw [hrow, Function.update_of_ne hobject]

theorem Restores.matched {entries : List (Entry κ δ φ τ β)} {owed : Set κ}
    (h : Restores digest r entries owed) (hreceive : r.receiveAll digest entries = some r')
    (hmatched : ∀ k ∉ owed, Matched digest r k) : ∀ k, Matched digest r' k := by
  induction entries generalizing r owed with
  | nil =>
      obtain rfl : r = r' := by simpa [receiveAll] using hreceive
      intro k
      exact hmatched k (by rw [show owed = ∅ from h]; exact Set.notMem_empty k)
  | cons e rest ih =>
      rw [receiveAll_cons] at hreceive
      obtain ⟨u, hu, hrest⟩ := Option.bind_eq_some_iff.mp hreceive
      exact ih (h u hu) hrest ((received_of_receive hu).matched hmatched)

theorem self_of_receiveAll {entries : List (Entry κ δ φ τ β)}
    (h : r.receiveAll digest entries = some r') : r'.self = r.self := by
  induction entries generalizing r with
  | nil =>
      obtain rfl : r = r' := by simpa [receiveAll] using h
      rfl
  | cons e rest ih =>
      rw [receiveAll_cons] at h
      obtain ⟨u, hu, hrest⟩ := Option.bind_eq_some_iff.mp h
      exact (ih hrest).trans (received_of_receive hu).self

theorem Received.extends {e : Entry κ δ φ τ β} (h : Received digest r e r') :
    r.journal.Extends r'.journal := by
  rw [h.journal]
  split
  · exact Journal.extends_append ..
  · exact .refl _

theorem receiveAll_extends {entries : List (Entry κ δ φ τ β)}
    (h : r.receiveAll digest entries = some r') : r.journal.Extends r'.journal := by
  induction entries generalizing r with
  | nil =>
      obtain rfl : r = r' := by simpa [receiveAll] using h
      exact .refl _
  | cons e rest ih =>
      rw [receiveAll_cons] at h
      obtain ⟨u, hu, hrest⟩ := Option.bind_eq_some_iff.mp h
      exact (received_of_receive hu).extends.trans (ih hrest)

end Receive

end Replica

end Replication
