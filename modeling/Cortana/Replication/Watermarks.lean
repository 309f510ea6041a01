import Cortana.Core.Table
import Mathlib.Data.Int.Notation

/-!
# What a replica knows about its peers

For every known peer, how far its journal has been imported here and how far
it has acknowledged the journal kept here.
-/

namespace Replication

variable {δ : Type*}

/-- What has been imported from a peer, and what the peer has acknowledged. -/
structure Watermark (δ : Type*) where
  peer : δ
  imported : ℤ
  acked : ℤ
deriving DecidableEq

abbrev Watermarks (δ : Type*) := Table (@Watermark.peer δ)

namespace Watermarks

variable [DecidableEq δ]

def imported (w : Watermarks δ) (peer : δ) : ℤ := ((w.get peer).map Watermark.imported).getD 0

def acked (w : Watermarks δ) (peer : δ) : ℤ := ((w.get peer).map Watermark.acked).getD 0

/-- An acknowledgement never moves back. -/
def acknowledge (w : Watermarks δ) (peer : δ) (ack : ℤ) : Watermarks δ :=
  match w.get peer with
  | none => w.put ⟨peer, 0, ack⟩
  | some row => w.put { row with acked := max row.acked ack }

/-- An import overwrites the imported watermark. -/
def markImported (w : Watermarks δ) (peer : δ) (upTo : ℤ) : Watermarks δ :=
  match w.get peer with
  | none => w.put ⟨peer, upTo, 0⟩
  | some row => w.put { row with imported := upTo }

omit [DecidableEq δ] in
/-- The least acknowledgement of all known peers. -/
def minAcked (w : Watermarks δ) : ℤ := ((w.rows.map Watermark.acked).min?).getD 0

theorem peer_of_get {w : Watermarks δ} {peer : δ} {row : Watermark δ}
    (h : w.get peer = some row) : row.peer = peer :=
  Table.key_of_get h

theorem get_acknowledge_of_ne (w : Watermarks δ) {peer peer' : δ} (h : peer' ≠ peer) (ack : ℤ) :
    (w.acknowledge peer ack).get peer' = w.get peer' := by
  rw [acknowledge]
  cases hrow : w.get peer with
  | none => exact Table.get_put_of_ne h
  | some row => exact Table.get_put_of_ne (by simpa [peer_of_get hrow] using h)

theorem get_acknowledge_self (w : Watermarks δ) (peer : δ) (ack : ℤ) :
    (w.acknowledge peer ack).get peer =
      some (match w.get peer with
        | none => ⟨peer, 0, ack⟩
        | some row => { row with acked := max row.acked ack }) := by
  rw [acknowledge]
  cases hrow : w.get peer with
  | none => simp
  | some row => simp [peer_of_get hrow]

theorem get_markImported_of_ne (w : Watermarks δ) {peer peer' : δ} (h : peer' ≠ peer)
    (upTo : ℤ) : (w.markImported peer upTo).get peer' = w.get peer' := by
  rw [markImported]
  cases hrow : w.get peer with
  | none => exact Table.get_put_of_ne h
  | some row => exact Table.get_put_of_ne (by simpa [peer_of_get hrow] using h)

theorem get_markImported_self (w : Watermarks δ) (peer : δ) (upTo : ℤ) :
    (w.markImported peer upTo).get peer = some ⟨peer, upTo, w.acked peer⟩ := by
  rw [markImported]
  cases hrow : w.get peer with
  | none => simp [acked, hrow]
  | some row => simp [peer_of_get hrow, acked, hrow]

@[simp] theorem imported_acknowledge (w : Watermarks δ) (peer peer' : δ) (ack : ℤ) :
    (w.acknowledge peer ack).imported peer' = w.imported peer' := by
  by_cases h : peer' = peer
  · subst h
    rw [imported, imported, get_acknowledge_self]
    cases w.get peer' <;> rfl
  · rw [imported, get_acknowledge_of_ne w h, imported]

theorem acked_acknowledge_of_ne (w : Watermarks δ) {peer peer' : δ} (h : peer' ≠ peer)
    (ack : ℤ) : (w.acknowledge peer ack).acked peer' = w.acked peer' := by
  rw [acked, get_acknowledge_of_ne w h, acked]

theorem acked_acknowledge_self {w : Watermarks δ} {peer : δ} {ack : ℤ} (h : 0 ≤ ack) :
    (w.acknowledge peer ack).acked peer = max (w.acked peer) ack := by
  rw [acked, acked, get_acknowledge_self]
  cases w.get peer with
  | none => exact (Int.max_eq_right h).symm
  | some row => rfl

/-- An acknowledgement leaves what was acknowledged before, or takes its place. -/
theorem acked_acknowledge_cases (w : Watermarks δ) (peer : δ) (ack : ℤ) :
    (w.acknowledge peer ack).acked peer = w.acked peer ∨
      (w.acknowledge peer ack).acked peer = ack := by
  rw [acked, acked, get_acknowledge_self]
  cases w.get peer with
  | none => exact .inr rfl
  | some row =>
      change max row.acked ack = row.acked ∨ max row.acked ack = ack
      omega

@[simp] theorem acked_markImported (w : Watermarks δ) (peer peer' : δ) (upTo : ℤ) :
    (w.markImported peer upTo).acked peer' = w.acked peer' := by
  by_cases h : peer' = peer
  · subst h
    rw [acked, get_markImported_self]
    rfl
  · rw [acked, get_markImported_of_ne w h, acked]

@[simp] theorem imported_markImported_self (w : Watermarks δ) (peer : δ) (upTo : ℤ) :
    (w.markImported peer upTo).imported peer = upTo := by
  rw [imported, get_markImported_self]
  rfl

theorem imported_markImported_of_ne (w : Watermarks δ) {peer peer' : δ} (h : peer' ≠ peer)
    (upTo : ℤ) : (w.markImported peer upTo).imported peer' = w.imported peer' := by
  rw [imported, get_markImported_of_ne w h, imported]

theorem mem_acknowledge {w : Watermarks δ} {peer : δ} {ack : ℤ} {row : Watermark δ}
    (h : row ∈ (w.acknowledge peer ack).rows) : row.peer = peer ∨ row ∈ w.rows := by
  rw [acknowledge] at h
  cases hrow : w.get peer with
  | none =>
      rw [hrow] at h
      rcases Iff.mp Table.mem_put h with rfl | ⟨h, -⟩
      · exact .inl rfl
      · exact .inr h
  | some known =>
      have hknown : known.peer = peer := peer_of_get hrow
      rw [hrow] at h
      rcases Iff.mp Table.mem_put h with rfl | ⟨h, -⟩
      · exact .inl hknown
      · exact .inr h

theorem mem_markImported {w : Watermarks δ} {peer : δ} {upTo : ℤ} {row : Watermark δ}
    (h : row ∈ (w.markImported peer upTo).rows) : row.peer = peer ∨ row ∈ w.rows := by
  rw [markImported] at h
  cases hrow : w.get peer with
  | none =>
      rw [hrow] at h
      rcases Iff.mp Table.mem_put h with rfl | ⟨h, -⟩
      · exact .inl rfl
      · exact .inr h
  | some known =>
      have hknown : known.peer = peer := peer_of_get hrow
      rw [hrow] at h
      rcases Iff.mp Table.mem_put h with rfl | ⟨h, -⟩
      · exact .inl hknown
      · exact .inr h

omit [DecidableEq δ] in
theorem minAcked_le {w : Watermarks δ} {row : Watermark δ} (h : row ∈ w.rows) :
    w.minAcked ≤ row.acked := by
  have hmem : row.acked ∈ w.rows.map Watermark.acked := List.mem_map_of_mem h
  rw [minAcked]
  cases hmin : (w.rows.map Watermark.acked).min? with
  | none =>
      rw [List.min?_eq_none_iff.mp hmin] at hmem
      simp at hmem
  | some least => exact (List.min?_eq_some_iff.mp hmin).2 _ hmem

theorem minAcked_le_acked {w : Watermarks δ} {peer : δ} (h : (w.get peer).isSome) :
    w.minAcked ≤ w.acked peer := by
  obtain ⟨row, hrow⟩ := Option.isSome_iff_exists.mp h
  rw [acked, hrow]
  exact minAcked_le (Iff.mp Table.get_eq_some_iff hrow).1

/-- With one known peer at most, the least acknowledgement is that peer's. -/
theorem minAcked_eq_acked {w : Watermarks δ} {peer : δ} (h : ∀ row ∈ w.rows, row.peer = peer) :
    w.minAcked = w.acked peer := by
  cases hrow : w.get peer with
  | none =>
      have hnil : w.rows = [] := by
        refine List.eq_nil_iff_forall_not_mem.mpr fun row hmem ↦ ?_
        exact Iff.mp Table.get_eq_none_iff hrow row hmem (h row hmem)
      rw [minAcked, acked, hrow, hnil]
      rfl
  | some row =>
      have hmem := (Iff.mp Table.get_eq_some_iff hrow).1
      refine Int.le_antisymm (minAcked_le_acked (by simp [hrow])) ?_
      rw [acked, hrow, minAcked]
      cases hmin : (w.rows.map Watermark.acked).min? with
      | none =>
          rw [List.map_eq_nil_iff.mp (List.min?_eq_none_iff.mp hmin)] at hmem
          cases hmem
      | some least =>
          obtain ⟨row', hrow', rfl⟩ := List.mem_map.mp (List.min?_eq_some_iff.mp hmin).1
          have hsame : row' = row :=
            List.inj_on_of_nodup_map w.nodup hrow' hmem ((h row' hrow').trans (h row hmem).symm)
          rw [hsame]
          exact Int.le_refl _

end Watermarks

end Replication
