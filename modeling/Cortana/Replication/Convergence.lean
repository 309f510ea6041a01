import Cortana.Replication.Replica
import Mathlib.Data.List.Chain

/-!
# Two replicas that send each other their journals

The state of an exchange between two replicas is the two replicas and, for
each, the watermark up to which it has been delivered to the other.  The
invariant `Connected` says that two replicas that disagree about an object
still have something to deliver about it, and that a row which is not the one
of its latest change is about to be replaced by the other replica.  It is kept
by local writes, by compaction, and by every delivery that does not make the
receiver go back to a change of its own (`Replica.Settles`).
-/

namespace Replication

variable {κ δ φ τ β : Type*} [DecidableEq κ]

/-! ## What is still to be delivered -/

namespace Journal

/-- The changes of an object after a watermark. -/
def pendingOf (j : Journal κ δ φ τ) (w : ℤ) (k : κ) : List (Change κ δ φ τ) :=
  (j.history k).filter fun r ↦ w < r.journalId

/-- The latest change of the object is after the watermark. -/
def Pending (j : Journal κ δ φ τ) (w : ℤ) (k : κ) : Prop :=
  ∃ ℓ, j.latest k = some ℓ ∧ w < ℓ.journalId

theorem pendingOf_suffix (j : Journal κ δ φ τ) (w : ℤ) (k : κ) :
    j.pendingOf w k <:+ j.history k := by
  refine filter_suffix ((j.history_ids k).imp fun {r r'} hlt ↦ ?_)
  simp only [decide_eq_true_eq]
  omega

theorem pendingOf_eq_filter (j : Journal κ δ φ τ) (w : ℤ) (k : κ) :
    j.pendingOf w k = (j.after w).filter fun r ↦ r.object = k := by
  simp only [pendingOf, history, after, List.filter_filter]
  refine List.filter_congr fun r _ ↦ ?_
  rw [Bool.and_comm]

theorem pendingOf_append_self {j : Journal κ δ φ τ} {w : ℤ} (hw : w ≤ j.sequence) (k : κ)
    (origin : δ) (fingerprint : φ) (tombstone : Bool) (changedAt : τ) :
    (j.append k origin fingerprint tombstone changedAt).pendingOf w k =
      j.pendingOf w k ++ [j.draft k origin fingerprint tombstone changedAt] := by
  have hlt : w < j.sequence + 1 := by omega
  simp [pendingOf, history_append_self, draft, hlt]

theorem pendingOf_append_of_ne (j : Journal κ δ φ τ) (w : ℤ) {k k' : κ} (h : k' ≠ k)
    (origin : δ) (fingerprint : φ) (tombstone : Bool) (changedAt : τ) :
    (j.append k origin fingerprint tombstone changedAt).pendingOf w k' = j.pendingOf w k' := by
  rw [pendingOf, history_append_of_ne _ _ _ _ _ _ h, pendingOf]

theorem pendingOf_compact (j : Journal κ δ φ τ) {bound w : ℤ} (h : bound ≤ w) (k : κ) :
    (j.compact bound).pendingOf w k = j.pendingOf w k := by
  rw [pendingOf_eq_filter, after_compact h, ← pendingOf_eq_filter]

omit [DecidableEq κ] in
/-- The first undelivered change is delivered: what remains. -/
theorem after_of_after_cons {j : Journal κ δ φ τ} {w : ℤ} {c : Change κ δ φ τ}
    {rest : List (Change κ δ φ τ)} (h : j.after w = c :: rest) :
    c ∈ j.rows ∧ w < c.journalId ∧ j.after c.journalId = rest := by
  have hmem : c ∈ j.after w := h ▸ List.mem_cons_self
  simp only [after, List.mem_filter, decide_eq_true_eq] at hmem
  refine ⟨hmem.1, hmem.2, ?_⟩
  have hids : (j.after w).Pairwise fun r r' ↦ r.journalId < r'.journalId :=
    j.ids.sublist List.filter_sublist
  have hafter : j.after c.journalId = (j.after w).filter fun r ↦ c.journalId < r.journalId := by
    simp only [after, List.filter_filter]
    refine List.filter_congr fun r _ ↦ ?_
    by_cases hr : c.journalId < r.journalId
    · have : w < r.journalId := by omega
      simp [hr, this]
    · simp [hr]
  rw [h, List.pairwise_cons] at hids
  rw [hafter, h, List.filter_cons_of_neg (by simp)]
  exact List.filter_eq_self.mpr fun r hr ↦ by simpa using hids.1 r hr

/-- The first undelivered change is delivered: what remains of each object. -/
theorem pendingOf_of_after_cons {j : Journal κ δ φ τ} {w : ℤ} {c : Change κ δ φ τ}
    {rest : List (Change κ δ φ τ)} (h : j.after w = c :: rest) (k : κ) :
    j.pendingOf w k =
      if k = c.object then c :: j.pendingOf c.journalId k else j.pendingOf c.journalId k := by
  obtain ⟨-, -, hrest⟩ := after_of_after_cons h
  rw [pendingOf_eq_filter, pendingOf_eq_filter, h, hrest]
  split_ifs with hk
  · rw [List.filter_cons_of_pos (by simp [hk])]
  · rw [List.filter_cons_of_neg (by simpa using fun heq ↦ hk heq.symm)]

/-- The latest change of an object, when another one of it was the first to be
delivered, is still to be delivered. -/
theorem pending_of_ne {j : Journal κ δ φ τ} {w : ℤ} {c ℓ : Change κ δ φ τ}
    {rest : List (Change κ δ φ τ)} (h : j.after w = c :: rest) {k : κ}
    (hℓ : j.latest k = some ℓ) (hne : ℓ ≠ c) (hpending : w < ℓ.journalId ∨ k = c.object) :
    j.Pending c.journalId k := by
  obtain ⟨hc, hwc, hrest⟩ := after_of_after_cons h
  obtain ⟨hℓrows, hℓk⟩ := mem_of_latest hℓ
  refine ⟨ℓ, hℓ, ?_⟩
  have hw : w < ℓ.journalId := by
    rcases hpending with hw | rfl
    · exact hw
    · exact Int.lt_of_lt_of_le hwc (journalId_le_latest hℓ hc rfl)
  have hmem : ℓ ∈ c :: rest := by
    rw [← h]
    simpa [after] using ⟨hℓrows, hw⟩
  have hrestmem : ℓ ∈ j.after c.journalId := by
    rw [hrest]
    exact (List.mem_cons.mp hmem).resolve_left hne
  simpa [after] using (List.mem_filter.mp hrestmem).2

/-- The first change to be delivered is the latest of its object, or that one
is still to be delivered. -/
theorem latest_or_pending {j : Journal κ δ φ τ} {w : ℤ} {c : Change κ δ φ τ}
    {rest : List (Change κ δ φ τ)} (h : j.after w = c :: rest) :
    j.latest c.object = some c ∨ j.Pending c.journalId c.object := by
  obtain ⟨hc, -, -⟩ := after_of_after_cons h
  have hsome : j.latest c.object ≠ none := fun hnone ↦ Iff.mp latest_eq_none_iff hnone c hc rfl
  obtain ⟨ℓ, hℓ⟩ := Option.ne_none_iff_exists'.mp hsome
  by_cases heq : ℓ = c
  · exact Or.inl (heq ▸ hℓ)
  · exact Or.inr (pending_of_ne h hℓ heq (Or.inr rfl))

theorem pendingOf_ne_nil {j : Journal κ δ φ τ} {w : ℤ} {k : κ} (h : j.Pending w k) :
    j.pendingOf w k ≠ [] := by
  obtain ⟨ℓ, hℓ, hlt⟩ := h
  have hmem : ℓ ∈ j.pendingOf w k := by
    simpa [pendingOf, mem_history, hlt] using mem_of_latest hℓ
  exact List.ne_nil_of_mem hmem

/-- The digest of an object by its latest change, none when it is deleted. -/
def value (j : Journal κ δ φ τ) (k : κ) : Option φ :=
  (j.latest k).bind fun c ↦ if c.tombstone then none else some c.fingerprint

end Journal

/-! ## The invariant -/

namespace Replica

/-- The row of the object is the one of its latest change. -/
def Matched (digest : Digest β φ) (r : Replica κ δ φ τ β) (k : κ) : Prop :=
  match r.journal.latest k with
  | none => r.row k = none
  | some ℓ => digest.state (r.row k) = (ℓ.fingerprint, ℓ.tombstone)

/-- The latest change of the object at the receiver came from elsewhere, and
the sender has one of another digest to deliver. -/
def Stale (device : δ) (sender : Replica κ δ φ τ β) (w : ℤ) (r : Replica κ δ φ τ β) (k : κ) :
    Prop :=
  ∃ ℓ, r.journal.latest k = some ℓ ∧ ℓ.origin ≠ device ∧
    ∃ q ∈ sender.journal.pendingOf w k, q.fingerprint ≠ ℓ.fingerprint

/-- What holds of a replica on its own: its journal marks deletions by their
digest, no change of an object repeats the digest of the one before it, and
all changes were made by one of two devices. -/
structure Sound (digest : Digest β φ) (own other : δ) (r : Replica κ δ φ τ β) (w : ℤ) : Prop where
  self : r.self = some own
  marked : ∀ c ∈ r.journal.rows, c.fingerprint = digest.deleted ↔ c.tombstone = true
  changes : ∀ k, (r.journal.history k).IsChain fun c c' ↦ c.fingerprint ≠ c'.fingerprint
  origins : ∀ c ∈ r.journal.rows, c.origin = own ∨ c.origin = other
  sent : w ≤ r.journal.sequence

/-- The invariant of two replicas that deliver their journals to each other up
to the given watermarks. -/
structure Connected (digest : Digest β φ) (a b : δ) (p s : Replica κ δ φ τ β) (wp ws : ℤ) :
    Prop where
  left : Sound digest a b p wp
  right : Sound digest b a s ws
  agree : ∀ k, p.journal.value k = s.journal.value k ∨ p.journal.Pending wp k ∨
    s.journal.Pending ws k
  leftRow : ∀ k, Matched digest p k ∨ Stale a s ws p k
  rightRow : ∀ k, Matched digest s k ∨ Stale b p wp s k

variable {digest : Digest β φ} {a b : δ} {p s s' : Replica κ δ φ τ β} {wp ws : ℤ}

theorem Connected.symm (h : Connected digest a b p s wp ws) : Connected digest b a s p ws wp where
  left := h.right
  right := h.left
  agree k := by
    rcases h.agree k with heq | hp | hs
    · exact Or.inl heq.symm
    · exact Or.inr (Or.inr hp)
    · exact Or.inr (Or.inl hs)
  leftRow := h.rightRow
  rightRow := h.leftRow

/-- Two replicas with nothing left to deliver have the same rows. -/
theorem Connected.row_eq (h : Connected digest a b p s wp ws) (hp : p.journal.after wp = [])
    (hs : s.journal.after ws = []) (k : κ)
    (hdigest : ∀ r ∈ p.row k, ∀ r' ∈ s.row k, digest.row r = digest.row r' → r = r') :
    p.row k = s.row k := by
  have hnone : ∀ {r : Replica κ δ φ τ β} {w : ℤ}, r.journal.after w = [] →
      r.journal.pendingOf w k = [] ∧ ¬ r.journal.Pending w k := by
    intro r w hempty
    refine ⟨by rw [Journal.pendingOf_eq_filter, hempty, List.filter_nil], ?_⟩
    rintro ⟨ℓ, hℓ, hw⟩
    have hmem : ℓ ∈ r.journal.after w := by
      simpa [Journal.after] using ⟨(Journal.mem_of_latest hℓ).1, hw⟩
    simp [hempty] at hmem
  have hstate : ∀ {own other : δ} {r : Replica κ δ φ τ β} {w : ℤ}, Sound digest own other r w →
      Matched digest r k → r.journal.value k = (r.row k).map digest.row := by
    intro own other r w hsound hmatched
    rw [Matched] at hmatched
    rw [Journal.value]
    cases hlatest : r.journal.latest k with
    | none =>
        rw [hlatest] at hmatched
        rw [hmatched]
        rfl
    | some ℓ =>
        rw [hlatest] at hmatched
        cases hrow : r.row k with
        | none => simp_all [Digest.state, Prod.ext_iff]
        | some b => simp_all [Digest.state, Prod.ext_iff]
  have hpmatched : Matched digest p k := by
    refine (h.leftRow k).resolve_right ?_
    rintro ⟨ℓ, -, -, q, hq, -⟩
    simp [(hnone hs).1] at hq
  have hsmatched : Matched digest s k := by
    refine (h.rightRow k).resolve_right ?_
    rintro ⟨ℓ, -, -, q, hq, -⟩
    simp [(hnone hp).1] at hq
  have hvalue : p.journal.value k = s.journal.value k := by
    rcases h.agree k with heq | hpending | hpending
    · exact heq
    · exact absurd hpending (hnone hp).2
    · exact absurd hpending (hnone hs).2
  rw [hstate h.left hpmatched, hstate h.right hsmatched] at hvalue
  cases hprow : p.row k with
  | none =>
      rw [hprow, Option.map_none, eq_comm, Option.map_eq_none_iff] at hvalue
      rw [hvalue]
  | some r =>
      rw [hprow, Option.map_some] at hvalue
      obtain ⟨r', hr', heq⟩ := Option.map_eq_some_iff.mp hvalue.symm
      rw [hr', hdigest r hprow r' hr' heq.symm]

/-! ## Growing and compacting journals -/

theorem Matched.congr {r r' : Replica κ δ φ τ β} {k : κ} (h : Matched digest r k)
    (hlatest : r'.journal.latest k = r.journal.latest k) (hrow : r'.row k = r.row k) :
    Matched digest r' k := by
  rwa [Matched, hlatest, hrow]

theorem Stale.congr {device : δ} {r r' sender sender' : Replica κ δ φ τ β} {w w' : ℤ} {k : κ}
    (h : Stale device sender w r k) (hlatest : r'.journal.latest k = r.journal.latest k)
    (hpending : sender.journal.pendingOf w k ⊆ sender'.journal.pendingOf w' k) :
    Stale device sender' w' r' k := by
  obtain ⟨ℓ, hℓ, horigin, q, hq, hne⟩ := h
  exact ⟨ℓ, hlatest.trans hℓ, horigin, q, hpending hq, hne⟩

section Append

variable {r r' : Replica κ δ φ τ β} {k : κ} {own other origin : δ} {fingerprint : φ}
  {tombstone : Bool} {changedAt : τ} {w : ℤ}

theorem Sound.append (h : Sound digest own other r w) (hself : r'.self = r.self)
    (hjournal : r'.journal = r.journal.append k origin fingerprint tombstone changedAt)
    (hmarked : fingerprint = digest.deleted ↔ tombstone = true)
    (horigin : origin = own ∨ origin = other)
    (hchange : ∀ ℓ, r.journal.latest k = some ℓ → ℓ.fingerprint ≠ fingerprint) :
    Sound digest own other r' w := by
  refine ⟨hself.trans h.self, ?_, ?_, ?_, ?_⟩
  · intro c hc
    rw [hjournal, Journal.rows_append] at hc
    rcases List.mem_append.mp hc with hc | hc
    · exact h.marked c hc
    · rw [List.mem_singleton.mp hc]
      exact hmarked
  · intro k'
    by_cases hk : k' = k
    · subst hk
      rw [hjournal, Journal.history_append_self, List.isChain_append]
      refine ⟨h.changes k', List.isChain_singleton _, ?_⟩
      intro ℓ hℓ c hc
      obtain rfl : _ = c := by simpa using hc
      exact hchange ℓ (by rwa [Journal.latest_eq_getLast?])
    · rw [hjournal, Journal.history_append_of_ne _ _ _ _ _ _ hk]
      exact h.changes k'
  · intro c hc
    rw [hjournal, Journal.rows_append] at hc
    rcases List.mem_append.mp hc with hc | hc
    · exact h.origins c hc
    · rw [List.mem_singleton.mp hc]
      exact horigin
  · have := h.sent
    simp only [hjournal, Journal.append]
    omega

theorem pendingOf_subset_append (hw : w ≤ r.journal.sequence)
    (hjournal : r'.journal = r.journal.append k origin fingerprint tombstone changedAt) (k' : κ) :
    r.journal.pendingOf w k' ⊆ r'.journal.pendingOf w k' := by
  rw [hjournal]
  by_cases hk : k' = k
  · subst hk
    rw [Journal.pendingOf_append_self hw]
    exact List.subset_append_left _ _
  · rw [Journal.pendingOf_append_of_ne _ _ hk]
    exact List.Subset.refl _

theorem pending_append (hw : w ≤ r.journal.sequence)
    (hjournal : r'.journal = r.journal.append k origin fingerprint tombstone changedAt) :
    r'.journal.Pending w k := by
  refine ⟨_, by rw [hjournal, Journal.latest_append_self], ?_⟩
  simp only [Journal.draft]
  omega

theorem pending_append_of_ne
    (hjournal : r'.journal = r.journal.append k origin fingerprint tombstone changedAt) {k' : κ}
    (hk : k' ≠ k) (h : r.journal.Pending w k') : r'.journal.Pending w k' := by
  obtain ⟨ℓ, hℓ, hlt⟩ := h
  exact ⟨ℓ, by rwa [hjournal, Journal.latest_append_of_ne _ _ _ _ _ _ hk], hlt⟩

theorem value_append_of_ne
    (hjournal : r'.journal = r.journal.append k origin fingerprint tombstone changedAt) {k' : κ}
    (hk : k' ≠ k) : r'.journal.value k' = r.journal.value k' := by
  rw [hjournal, Journal.value, Journal.latest_append_of_ne _ _ _ _ _ _ hk, Journal.value]

end Append

/-- Compaction up to what has been delivered keeps the invariant. -/
theorem Connected.compact (h : Connected digest a b p s wp ws) {bound : ℤ} (hbound : bound ≤ ws)
    (hself : s'.self = s.self) (hrow : s'.row = s.row)
    (hjournal : s'.journal = s.journal.compact bound) : Connected digest a b p s' wp ws := by
  have hlatest : ∀ k, s'.journal.latest k = s.journal.latest k := by
    intro k
    rw [hjournal, Journal.latest_compact]
  have hpending : ∀ k, s'.journal.pendingOf ws k = s.journal.pendingOf ws k := by
    intro k
    rw [hjournal, Journal.pendingOf_compact _ hbound]
  refine ⟨h.left, ⟨hself.trans h.right.self, ?_, ?_, ?_, ?_⟩, ?_, ?_, ?_⟩
  · intro c hc
    rw [hjournal] at hc
    exact h.right.marked c (Iff.mp Journal.mem_compact hc).1
  · intro k
    rw [hjournal]
    exact (h.right.changes k).suffix (Journal.history_compact_suffix _ _ _)
  · intro c hc
    rw [hjournal] at hc
    exact h.right.origins c (Iff.mp Journal.mem_compact hc).1
  · rw [hjournal]
    exact h.right.sent
  · intro k
    rw [Journal.value, Journal.value, Journal.Pending, Journal.Pending, hlatest]
    exact h.agree k
  · intro k
    refine (h.leftRow k).imp_right fun hstale ↦ hstale.congr rfl ?_
    rw [hpending]
    exact List.Subset.refl _
  · intro k
    rcases h.rightRow k with hmatched | hstale
    · exact Or.inl (hmatched.congr (hlatest k) (congrFun hrow k))
    · exact Or.inr (hstale.congr (hlatest k) (List.Subset.refl _))

/-- What has been delivered may be sent again: the invariant holds of earlier watermarks. -/
theorem Connected.lower (h : Connected digest a b p s wp ws) {w : ℤ} (hw : w ≤ wp) :
    Connected digest a b p s w ws := by
  refine ⟨{ h.left with sent := hw.trans h.left.sent }, h.right, fun k ↦ ?_, h.leftRow, fun k ↦ ?_⟩
  · refine (h.agree k).imp_right (Or.imp_left ?_)
    rintro ⟨ℓ, hℓ, hlt⟩
    exact ⟨ℓ, hℓ, hw.trans_lt hlt⟩
  · refine (h.rightRow k).imp_right fun hstale ↦ hstale.congr rfl fun q hq ↦ ?_
    obtain ⟨hmem, hlt⟩ := List.mem_filter.mp hq
    exact List.mem_filter.mpr ⟨hmem, decide_eq_true (hw.trans_lt (of_decide_eq_true hlt))⟩

/-! ## Local writes -/

/-- Writing the row the journal already names keeps the invariant. -/
theorem Connected.write_said {p' : Replica κ δ φ τ β} (h : Connected digest a b p s wp ws)
    {k : κ} {row : Option β} (hsaid : p.journal.Says k (digest.state row))
    (hself : p'.self = p.self) (hrow : p'.row = Function.update p.row k row)
    (hjournal : p'.journal = p.journal) : Connected digest a b p' s wp ws := by
  refine ⟨⟨hself.trans h.left.self, ?_, ?_, ?_, ?_⟩, h.right, ?_, ?_, ?_⟩
  · rw [hjournal]
    exact h.left.marked
  · rw [hjournal]
    exact h.left.changes
  · rw [hjournal]
    exact h.left.origins
  · rw [hjournal]
    exact h.left.sent
  · rw [hjournal]
    exact h.agree
  · intro k'
    by_cases hk : k' = k
    · subst hk
      obtain ⟨ℓ, hℓ, hfingerprint, htombstone⟩ := hsaid
      refine Or.inl ?_
      rw [Matched, hjournal, Option.mem_def.mp hℓ, hrow, Function.update_self]
      exact Prod.ext hfingerprint.symm htombstone.symm
    · have hrow' : p'.row k' = p.row k' := by
        rw [hrow, Function.update_of_ne hk]
      rcases h.leftRow k' with hmatched | hstale
      · exact Or.inl (hmatched.congr (by rw [hjournal]) hrow')
      · exact Or.inr (hstale.congr (by rw [hjournal]) (List.Subset.refl _))
  · intro k'
    refine (h.rightRow k').imp_right fun hstale ↦ hstale.congr rfl ?_
    rw [hjournal]
    exact List.Subset.refl _

/-- Writing a row and journaling it keeps the invariant. -/
theorem Connected.write_append {p' : Replica κ δ φ τ β} (h : Connected digest a b p s wp ws)
    (hdigest : digest.Marks) {k : κ} {row : Option β} {changedAt : τ}
    (hsaid : ¬ p.journal.Says k (digest.state row)) (hself : p'.self = p.self)
    (hrow : p'.row = Function.update p.row k row)
    (hjournal : p'.journal =
      p.journal.append k a (digest.state row).1 (digest.state row).2 changedAt) :
    Connected digest a b p' s wp ws := by
  have hleft : Sound digest a b p' wp := by
    refine h.left.append hself hjournal (hdigest.marked row) (Or.inl rfl) fun ℓ hℓ heq ↦ ?_
    have hℓmarked := h.left.marked ℓ (Journal.mem_of_latest hℓ).1
    rw [heq, hdigest.marked row] at hℓmarked
    exact hsaid ⟨ℓ, hℓ, heq, (Bool.eq_iff_iff.mpr hℓmarked).symm⟩
  refine ⟨hleft, h.right, ?_, ?_, ?_⟩
  · intro k'
    by_cases hk : k' = k
    · subst hk
      exact Or.inr (Or.inl (pending_append h.left.sent hjournal))
    · rw [value_append_of_ne hjournal hk]
      exact (h.agree k').imp_right (Or.imp_left (pending_append_of_ne hjournal hk))
  · intro k'
    by_cases hk : k' = k
    · subst hk
      refine Or.inl ?_
      rw [Matched, hjournal, Journal.latest_append_self, hrow, Function.update_self]
      rfl
    · have hlatest : p'.journal.latest k' = p.journal.latest k' := by
        rw [hjournal, Journal.latest_append_of_ne _ _ _ _ _ _ hk]
      have hrow' : p'.row k' = p.row k' := by
        rw [hrow, Function.update_of_ne hk]
      rcases h.leftRow k' with hmatched | hstale
      · exact Or.inl (hmatched.congr hlatest hrow')
      · exact Or.inr (hstale.congr hlatest (List.Subset.refl _))
  · intro k'
    exact (h.rightRow k').imp_right fun hstale ↦
      hstale.congr rfl (pendingOf_subset_append h.left.sent hjournal k')

/-- A local write keeps the invariant. -/
theorem Connected.edit [DecidableEq φ] (h : Connected digest a b p s wp ws)
    (hdigest : digest.Marks) (k : κ) (row : Option β) (changedAt : τ) :
    Connected digest a b (p.edit digest k row changedAt) s wp ws := by
  by_cases hsaid : p.journal.Says k (digest.state row)
  · refine h.write_said hsaid rfl rfl ?_
    simp [Replica.edit, Journal.record, h.left.self, hsaid]
  · refine h.write_append hdigest hsaid rfl rfl (?_ : _ = p.journal.append k a _ _ changedAt)
    simp [Replica.edit, Journal.record, h.left.self, hsaid]

/-! ## Deliveries -/

section Deliver

variable {c : Change κ δ φ τ} {rest : List (Change κ δ φ τ)}

theorem stamp_entry (h : Sound digest a b p wp) (hc : c ∈ p.journal.rows) :
    (p.entry c).stamp digest = c.fingerprint := by
  rw [Entry.stamp]
  split_ifs with htomb
  · exact ((h.marked c hc).mpr htomb).symm
  · rfl

theorem Connected.left_of_delivered (h : Connected digest a b p s wp ws)
    (hc : p.journal.after wp = c :: rest) : Sound digest a b p c.journalId :=
  { h.left with sent := p.journal.bound c (Journal.after_of_after_cons hc).1 }

theorem pending_of_delivered (hc : p.journal.after wp = c :: rest) {k : κ} (hk : k ≠ c.object)
    (h : p.journal.Pending wp k) : p.journal.Pending c.journalId k := by
  obtain ⟨ℓ, hℓ, hlt⟩ := h
  refine Journal.pending_of_ne hc hℓ ?_ (Or.inl hlt)
  rintro rfl
  exact hk (Journal.mem_of_latest hℓ).2.symm

theorem pendingOf_subset_of_delivered (hc : p.journal.after wp = c :: rest) {k : κ}
    (hk : k ≠ c.object) : p.journal.pendingOf wp k ⊆ p.journal.pendingOf c.journalId k := by
  rw [Journal.pendingOf_of_after_cons hc, if_neg hk]
  exact List.Subset.refl _

variable [LinearOrder δ] [DecidableEq φ] [LinearOrder τ]

/-- The receiver does not go back to a change it made itself, and it keeps its
own row against the sender's latest change only as long as the sender has not
been sent that row. -/
def Settles (device : δ) (sender : Replica κ δ φ τ β) (w : ℤ) (r : Replica κ δ φ τ β)
    (e : Entry κ δ φ τ β) : Prop :=
  (e.origin = device → (r.outcomeOf e).applies = false) ∧
    (sender.journal.latest e.object = some e.toChange → r.outcomeOf e = .localWins →
      r.journal.Pending w e.object)

theorem outcomeOf_of_latest {r : Replica κ δ φ τ β} {e : Entry κ δ φ τ β} {ℓ : Change κ δ φ τ}
    (hℓ : r.journal.latest e.object = some ℓ) (hself : r.self = some a)
    (horigin : ℓ.origin ≠ a) (hne : ℓ.fingerprint ≠ e.fingerprint) :
    r.outcomeOf e = .caughtUp := by
  have hown : ¬ ℓ.OwnLive r.self := by
    rintro ⟨howner, -⟩
    rw [hself] at howner
    exact horigin (Option.some.inj howner)
  rw [outcomeOf, hℓ, outcome, if_neg hne, if_neg hown]

/-- What an entry that is applied differs from. -/
theorem fingerprint_ne_of_applies {r : Replica κ δ φ τ β} {e : Entry κ δ φ τ β}
    {ℓ : Change κ δ φ τ} (h : (r.outcomeOf e).applies = true)
    (hℓ : r.journal.latest e.object = some ℓ) : ℓ.fingerprint ≠ e.fingerprint := by
  intro heq
  rw [outcomeOf, hℓ, outcome, if_pos heq] at h
  simp [Outcome.applies] at h

/-- An entry that is not applied agrees with the latest change here, loses to
it, or deletes an object that is unknown here. -/
theorem outcomeOf_not_applies {r : Replica κ δ φ τ β} {e : Entry κ δ φ τ β}
    (h : (r.outcomeOf e).applies = false) :
    (r.journal.latest e.object = none ∧ e.tombstone = true) ∨
      (∃ ℓ, r.journal.latest e.object = some ℓ ∧ ℓ.fingerprint = e.fingerprint) ∨
        r.outcomeOf e = .localWins := by
  rw [outcomeOf] at h ⊢
  cases hℓ : r.journal.latest e.object with
  | none =>
      cases htomb : e.tombstone with
      | true => exact Or.inl ⟨rfl, rfl⟩
      | false => simp [hℓ, outcome, htomb, Outcome.applies] at h
  | some ℓ =>
      by_cases heq : ℓ.fingerprint = e.fingerprint
      · exact Or.inr (Or.inl ⟨ℓ, rfl, heq⟩)
      · refine Or.inr (Or.inr ?_)
        rw [hℓ, outcome, if_neg heq] at h
        rw [outcome, if_neg heq]
        split_ifs at h ⊢ <;> simp_all [Outcome.applies]

/-- A delivered change that is not applied leaves the receiver as it was; it
agrees with it, or the receiver still has to deliver its own. -/
theorem Connected.deliver_kept (h : Connected digest a b p s wp ws)
    (hc : p.journal.after wp = c :: rest) (hsettles : Settles b p ws s (p.entry c))
    (hkept : (s.outcomeOf (p.entry c)).applies = false) (hself : s'.self = s.self)
    (hjournal : s'.journal = s.journal) (hrow : s'.row = s.row) :
    Connected digest a b p s' c.journalId ws := by
  obtain ⟨hmem, -, -⟩ := Journal.after_of_after_cons hc
  refine ⟨h.left_of_delivered hc, ⟨hself.trans h.right.self, ?_, ?_, ?_, ?_⟩, ?_, ?_, ?_⟩
  · rw [hjournal]
    exact h.right.marked
  · rw [hjournal]
    exact h.right.changes
  · rw [hjournal]
    exact h.right.origins
  · rw [hjournal]
    exact h.right.sent
  · intro k
    rw [hjournal]
    by_cases hk : k = c.object
    · subst hk
      rcases Journal.latest_or_pending hc with hlatest | hpending
      · rcases outcomeOf_not_applies hkept with ⟨hnone, htomb⟩ | ⟨ℓ, hℓ, heq⟩ | hlocal
        · refine Or.inl ?_
          change s.journal.latest c.object = none at hnone
          rw [Journal.value, Journal.value, hlatest, hnone]
          exact if_pos htomb
        · refine Or.inl ?_
          change s.journal.latest c.object = some ℓ at hℓ
          change ℓ.fingerprint = c.fingerprint at heq
          have htomb : c.tombstone = ℓ.tombstone := by
            have hcmarked := h.left.marked c hmem
            have hℓmarked := h.right.marked ℓ (Journal.mem_of_latest hℓ).1
            rw [heq] at hℓmarked
            exact Bool.eq_iff_iff.mpr (hcmarked.symm.trans hℓmarked)
          rw [Journal.value, Journal.value, hlatest, hℓ, Option.bind_some, Option.bind_some,
            htomb, heq]
        · exact Or.inr (Or.inr (hsettles.2 hlatest hlocal))
      · exact Or.inr (Or.inl hpending)
    · exact (h.agree k).imp_right (Or.imp_left (pending_of_delivered hc hk))
  · intro k
    refine (h.leftRow k).imp_right fun hstale ↦ hstale.congr rfl ?_
    rw [hjournal]
    exact List.Subset.refl _
  · intro k
    rcases h.rightRow k with hmatched | hstale
    · exact Or.inl (hmatched.congr (by rw [hjournal]) (congrFun hrow k))
    · by_cases hk : k = c.object
      · subst hk
        obtain ⟨ℓ, hℓ, horigin, q, hq, hne⟩ := hstale
        rw [Journal.pendingOf_of_after_cons hc, if_pos rfl, List.mem_cons] at hq
        rcases hq with rfl | hq
        · rw [outcomeOf_of_latest hℓ h.right.self horigin hne.symm] at hkept
          simp [Outcome.applies] at hkept
        · exact Or.inr ⟨ℓ, by rw [hjournal, hℓ], horigin, q, hq, hne⟩
      · exact Or.inr (hstale.congr (by rw [hjournal]) (pendingOf_subset_of_delivered hc hk))

/-- A delivered change that is applied was not made by the receiver; the row
that comes with it is the one of the change, or a further change follows. -/
theorem Connected.deliver_applied (h : Connected digest a b p s wp ws)
    (hc : p.journal.after wp = c :: rest) (hforeign : c.origin ≠ b)
    (happlies : (s.outcomeOf (p.entry c)).applies = true) (hself : s'.self = s.self)
    (hjournal : s'.journal =
      s.journal.append c.object c.origin c.fingerprint c.tombstone c.changedAt)
    (hrow : s'.row = Function.update s.row c.object (p.entry c).resulting) :
    Connected digest a b p s' c.journalId ws := by
  obtain ⟨hmem, -, -⟩ := Journal.after_of_after_cons hc
  have hright : Sound digest b a s' ws := by
    refine h.right.append hself hjournal (h.left.marked c hmem) ?_ fun ℓ hℓ ↦ ?_
    · exact (h.left.origins c hmem).symm
    · exact fingerprint_ne_of_applies happlies hℓ
  refine ⟨h.left_of_delivered hc, hright, ?_, ?_, ?_⟩
  · intro k
    by_cases hk : k = c.object
    · subst hk
      exact Or.inr (Or.inr (pending_append h.right.sent hjournal))
    · rw [value_append_of_ne hjournal hk]
      refine (h.agree k).imp_right (Or.imp (pending_of_delivered hc hk) ?_)
      exact pending_append_of_ne hjournal hk
  · intro k
    exact (h.leftRow k).imp_right fun hstale ↦
      hstale.congr rfl (pendingOf_subset_append h.right.sent hjournal k)
  · intro k
    by_cases hk : k = c.object
    · subst hk
      have hlatest : s'.journal.latest c.object = some (s.journal.draft c.object c.origin
          c.fingerprint c.tombstone c.changedAt) := by
        rw [hjournal, Journal.latest_append_self]
      cases hnext : p.journal.pendingOf c.journalId c.object with
      | cons q _ =>
          have hchain := (h.left.changes c.object).suffix
            (Journal.pendingOf_suffix p.journal wp c.object)
          rw [Journal.pendingOf_of_after_cons hc, if_pos rfl, hnext] at hchain
          refine Or.inr ⟨_, hlatest, hforeign, q, by rw [hnext]; exact List.mem_cons_self, ?_⟩
          exact (List.isChain_cons_cons.mp hchain).1.symm
      | nil =>
          have hlast : p.journal.latest c.object = some c := by
            refine (Journal.latest_or_pending hc).resolve_right fun hpending ↦ ?_
            exact Journal.pendingOf_ne_nil hpending hnext
          have hmatched : Matched digest p c.object := by
            refine (h.leftRow c.object).resolve_right ?_
            rintro ⟨ℓ, hℓ, horigin, -⟩
            obtain rfl : c = ℓ := Option.some.inj (hlast.symm.trans hℓ)
            rcases h.left.origins c hmem with ha | hb
            · exact horigin ha
            · exact hforeign hb
          refine Or.inl ?_
          rw [Matched, hlatest, hrow, Function.update_self]
          rw [Matched, hlast] at hmatched
          rw [Entry.resulting]
          split_ifs with htomb
          · exact Prod.ext ((h.left.marked c hmem).mpr htomb).symm htomb.symm
          · have hpayload : (p.entry c).payload = p.row c.object := if_neg htomb
            rwa [hpayload]
    · have hlatest : s'.journal.latest k = s.journal.latest k := by
        rw [hjournal, Journal.latest_append_of_ne _ _ _ _ _ _ hk]
      rcases h.rightRow k with hmatched | hstale
      · refine Or.inl (hmatched.congr hlatest ?_)
        rw [hrow, Function.update_of_ne hk]
      · exact Or.inr (hstale.congr hlatest (pendingOf_subset_of_delivered hc hk))

/-- Delivering the next change keeps the invariant. -/
theorem Connected.deliver (h : Connected digest a b p s wp ws)
    (hc : p.journal.after wp = c :: rest) (hsettles : Settles b p ws s (p.entry c))
    (hreceive : s.receive digest (p.entry c) = some s') :
    Connected digest a b p s' c.journalId ws := by
  have hreceived := received_of_receive hreceive
  have hstamp := stamp_entry h.left (Journal.after_of_after_cons hc).1
  cases happlies : (s.outcomeOf (p.entry c)).applies with
  | false =>
      refine h.deliver_kept hc hsettles happlies hreceived.self ?_ ?_
      · simp [hreceived.journal, happlies]
      · simp [hreceived.row, happlies]
  | true =>
      refine h.deliver_applied hc ?_ happlies hreceived.self ?_ ?_
      · intro hb
        simp [hsettles.1 hb] at happlies
      · rw [hreceived.journal, happlies, if_pos rfl, hstamp]
        rfl
      · rw [hreceived.row, happlies, if_pos rfl]
        rfl

end Deliver

end Replica

end Replication
