import Cortana.Replication.Journal
import Cortana.Replication.Watermarks
import Mathlib.Data.Set.Function
import Mathlib.Logic.Function.Basic
import Mathlib.Order.Lattice

/-!
# Replicas that exchange their journals

A replica holds the current row of every object, a journal of the changes it
made or received, what it knows about its peers, and the rows it put aside
when two replicas changed the same object.  A local write is journaled when it
changes what the journal last said about the object.  An export is the part of
the journal a peer has not acknowledged, each change with the current row of
its object; a received entry is compared with the latest change here.
-/

namespace Replication

variable {κ δ φ τ β γ : Type*}

/-- How rows are digested, and what stands for a deleted row. -/
structure Digest (β φ : Type*) where
  row : β → φ
  deleted : φ

/-- What the journal says about a row: its digest and whether it is deleted. -/
def Digest.state (digest : Digest β φ) : Option β → φ × Bool
  | none => (digest.deleted, true)
  | some b => (digest.row b, false)

/-- These rows are told apart by their digests. -/
theorem Digest.eq_of_state_eq {digest : Digest β φ} {rows : Set β} (h : rows.InjOn digest.row)
    {row row' : Option β} (hrow : ∀ b ∈ row, b ∈ rows) (hrow' : ∀ b ∈ row', b ∈ rows)
    (heq : digest.state row = digest.state row') : row = row' := by
  cases row with
  | none =>
      cases row' with
      | none => rfl
      | some b' => simp [Digest.state] at heq
  | some b =>
      cases row' with
      | none => simp [Digest.state] at heq
      | some b' => exact congrArg some (h (hrow b rfl) (hrow' b' rfl) (Prod.ext_iff.mp heq).1)

/-- No row is taken for deleted. -/
def Digest.Marks (digest : Digest β φ) : Prop := ∀ b, digest.row b ≠ digest.deleted

theorem Digest.Marks.marked {digest : Digest β φ} (hdigest : digest.Marks) (row : Option β) :
    (digest.state row).1 = digest.deleted ↔ (digest.state row).2 = true := by
  cases row with
  | none => simp [Digest.state]
  | some b => simpa [Digest.state] using hdigest b

/-- A change with the row its object had when it was sent. -/
structure Entry (κ δ φ τ β : Type*) extends Change κ δ φ τ where
  payload : Option β

/-- The entry with its row read another way. -/
def Entry.map (f : β → γ) (e : Entry κ δ φ τ β) : Entry κ δ φ τ γ :=
  ⟨e.toChange, e.payload.map f⟩

/-- The row an entry leaves behind where it is applied. -/
def Entry.resulting (e : Entry κ δ φ τ β) : Option β := if e.tombstone then none else e.payload

/-- The digest an entry is journaled with where it is applied. -/
def Entry.stamp (digest : Digest β φ) (e : Entry κ δ φ τ β) : φ :=
  if e.tombstone then digest.deleted else e.fingerprint

structure Replica (κ δ φ τ β : Type*) where
  self : Option δ
  row : κ → Option β
  journal : Journal κ δ φ τ
  watermarks : Watermarks δ
  conflicts : List (κ × β)

/-! ## Local writes -/

/-- The latest change of the object has this state. -/
def Journal.Says [DecidableEq κ] (j : Journal κ δ φ τ) (k : κ) (state : φ × Bool) : Prop :=
  ∃ ℓ ∈ j.latest k, ℓ.fingerprint = state.1 ∧ ℓ.tombstone = state.2

instance [DecidableEq κ] [DecidableEq φ] (j : Journal κ δ φ τ) (k : κ) (state : φ × Bool) :
    Decidable (j.Says k state) :=
  inferInstanceAs (Decidable (∃ ℓ ∈ j.latest k, _))

/-- Journal the state of an object unless the latest change already has it. -/
def Journal.record [DecidableEq κ] [DecidableEq φ] (j : Journal κ δ φ τ) (self : Option δ)
    (k : κ) (state : φ × Bool) (changedAt : τ) : Journal κ δ φ τ :=
  match self with
  | none => j
  | some device =>
      if j.Says k state then j else j.append k device state.1 state.2 changedAt

namespace Replica

/-- Write or delete the row of an object and journal it. -/
def edit [DecidableEq κ] [DecidableEq φ] (digest : Digest β φ) (r : Replica κ δ φ τ β) (k : κ)
    (row : Option β) (changedAt : τ) : Replica κ δ φ τ β :=
  { r with
    row := Function.update r.row k row
    journal := r.journal.record r.self k (digest.state row) changedAt }

/-! ## Sending -/

/-- A change as it is sent: a live change with the current row of its object. -/
def entry (r : Replica κ δ φ τ β) (change : Change κ δ φ τ) : Entry κ δ φ τ β :=
  { change with payload := if change.tombstone then none else r.row change.object }

/-- What a peer has not acknowledged, up to a number of changes. -/
def exportEntries [DecidableEq δ] (r : Replica κ δ φ τ β) (peer : δ) (limit : ℕ) :
    List (Entry κ δ φ τ β) :=
  ((r.journal.after (r.watermarks.acked peer)).take limit).map r.entry

/-- The last id of a bundle, or what the peer has acknowledged when it is
empty. -/
def upTo [DecidableEq δ] (r : Replica κ δ φ τ β) (peer : δ) (entries : List (Entry κ δ φ τ β)) :
    ℤ :=
  ((entries.getLast?).map fun e ↦ e.journalId).getD (r.watermarks.acked peer)

def acknowledge [DecidableEq δ] (r : Replica κ δ φ τ β) (peer : δ) (ack : ℤ) :
    Replica κ δ φ τ β :=
  { r with watermarks := r.watermarks.acknowledge peer ack }

def compact [DecidableEq κ] (r : Replica κ δ φ τ β) : Replica κ δ φ τ β :=
  { r with journal := r.journal.compact r.watermarks.minAcked }

/-! ## Receiving -/

/-- What becomes of a received entry. -/
inductive Outcome where
  | unknownTombstone
  | created
  | acknowledged
  | remoteWins
  | localWins
  | caughtUp
deriving DecidableEq

/-- The outcomes that replace the row. -/
def Outcome.applies : Outcome → Bool
  | created | remoteWins | caughtUp => true
  | unknownTombstone | acknowledged | localWins => false

end Replica

section Receive

/-- The change was made later, ties going to the greater device. -/
def Change.Newer [LT δ] [LT τ] (incoming latest : Change κ δ φ τ) : Prop :=
  latest.changedAt < incoming.changedAt ∨
    (latest.changedAt = incoming.changedAt ∧ latest.origin < incoming.origin)

/-- The change was made by this device and did not delete the object. -/
def Change.OwnLive (change : Change κ δ φ τ) (self : Option δ) : Prop :=
  some change.origin = self ∧ change.tombstone = false

instance [DecidableEq δ] (change : Change κ δ φ τ) (self : Option δ) :
    Decidable (change.OwnLive self) :=
  inferInstanceAs (Decidable (some change.origin = self ∧ change.tombstone = false))

variable [DecidableEq κ] [LinearOrder δ] [DecidableEq φ] [LinearOrder τ]

instance (incoming latest : Change κ δ φ τ) : Decidable (incoming.Newer latest) :=
  inferInstanceAs (Decidable (latest.changedAt < incoming.changedAt ∨
    (latest.changedAt = incoming.changedAt ∧ latest.origin < incoming.origin)))

namespace Replica

/-- What becomes of an entry, by the latest change of its object here. -/
def outcome (self : Option δ) (latest : Option (Change κ δ φ τ)) (e : Entry κ δ φ τ β) :
    Outcome :=
  match latest with
  | none => if e.tombstone then .unknownTombstone else .created
  | some ℓ =>
      if ℓ.fingerprint = e.fingerprint then .acknowledged
      else if ℓ.OwnLive self then
        if e.toChange.Newer ℓ then .remoteWins else .localWins
      else .caughtUp

/-- What becomes of an entry in a replica. -/
def outcomeOf (r : Replica κ δ φ τ β) (e : Entry κ δ φ τ β) : Outcome :=
  outcome r.self (r.journal.latest e.object) e

/-- Give the object the row of an entry, and journal the change it came with. -/
def install (digest : Digest β φ) (r : Replica κ δ φ τ β) (e : Entry κ δ φ τ β) :
    Option (Replica κ δ φ τ β) :=
  if e.tombstone then
    some { r with
      row := Function.update r.row e.object none
      journal := r.journal.append e.object e.origin digest.deleted true e.changedAt }
  else
    e.payload.map fun b ↦ { r with
      row := Function.update r.row e.object (some b)
      journal := r.journal.append e.object e.origin e.fingerprint false e.changedAt }

/-- Put the row of an entry aside. -/
def preserve (r : Replica κ δ φ τ β) (e : Entry κ δ φ τ β) : Option (Replica κ δ φ τ β) :=
  e.payload.map fun b ↦ { r with conflicts := r.conflicts ++ [(e.object, b)] }

/-- Receive one entry; none when its row is needed and missing. -/
def receive (digest : Digest β φ) (r : Replica κ δ φ τ β) (e : Entry κ δ φ τ β) :
    Option (Replica κ δ φ τ β) :=
  match r.outcomeOf e with
  | .unknownTombstone | .acknowledged => some r
  | .created | .caughtUp => r.install digest e
  | .localWins => r.preserve e
  | .remoteWins => (r.preserve e).bind fun r' ↦ r'.install digest e

/-- Receive the entries of a bundle in their order, all or none. -/
def receiveAll (digest : Digest β φ) (r : Replica κ δ φ τ β) (entries : List (Entry κ δ φ τ β)) :
    Option (Replica κ δ φ τ β) :=
  entries.foldlM (receive digest) r

/-- Receive a bundle, note how far it reached, and compact the journal. -/
def importEntries (digest : Digest β φ) (r : Replica κ δ φ τ β) (peer : δ)
    (entries : List (Entry κ δ φ τ β)) (upTo : ℤ) : Option (Replica κ δ φ τ β) :=
  (r.receiveAll digest entries).map fun r' ↦
    compact { r' with watermarks := r'.watermarks.markImported peer upTo }

/-! ## What one entry does -/

/-- The rows an outcome puts aside. -/
def Outcome.preserved (o : Outcome) (e : Entry κ δ φ τ β) : List (κ × β) :=
  match o with
  | .remoteWins | .localWins => (e.payload.map fun b ↦ (e.object, b)).toList
  | _ => []

/-- Everything an entry does to the replica that accepts it. -/
structure Received (digest : Digest β φ) (r : Replica κ δ φ τ β) (e : Entry κ δ φ τ β)
    (r' : Replica κ δ φ τ β) : Prop where
  self : r'.self = r.self
  watermarks : r'.watermarks = r.watermarks
  conflicts : r'.conflicts = r.conflicts ++ (r.outcomeOf e).preserved e
  row : r'.row = if (r.outcomeOf e).applies then Function.update r.row e.object e.resulting
    else r.row
  journal : r'.journal = if (r.outcomeOf e).applies then
      r.journal.append e.object e.origin (e.stamp digest) e.tombstone e.changedAt
    else r.journal
  payload : (r.outcomeOf e).applies → e.tombstone = false → e.payload.isSome

/-- An entry that is accepted without its row, or brings it. -/
def Receivable (r : Replica κ δ φ τ β) (e : Entry κ δ φ τ β) : Prop :=
  e.payload.isSome ∨ r.outcomeOf e = .unknownTombstone ∨ r.outcomeOf e = .acknowledged ∨
    (e.tombstone = true ∧ r.outcomeOf e = .caughtUp)

instance (r : Replica κ δ φ τ β) (e : Entry κ δ φ τ β) : Decidable (r.Receivable e) :=
  inferInstanceAs (Decidable (_ ∨ _ ∨ _ ∨ _))

theorem tombstone_of_created {r : Replica κ δ φ τ β} {e : Entry κ δ φ τ β}
    (h : r.outcomeOf e = .created) : e.tombstone = false := by
  rw [outcomeOf] at h
  cases hlatest : r.journal.latest e.object with
  | none =>
      cases htomb : e.tombstone with
      | false => rfl
      | true => simp [outcome, hlatest, htomb] at h
  | some ℓ =>
      rw [hlatest, outcome] at h
      split_ifs at h

theorem receive_isSome_iff {digest : Digest β φ} {r : Replica κ δ φ τ β}
    {e : Entry κ δ φ τ β} : (r.receive digest e).isSome ↔ r.Receivable e := by
  rw [receive, Receivable]
  cases ho : r.outcomeOf e with
  | unknownTombstone => simp
  | acknowledged => simp
  | created => simp [install, tombstone_of_created ho]
  | caughtUp => cases htomb : e.tombstone <;> simp [install, htomb]
  | localWins => simp [preserve]
  | remoteWins =>
      cases hpayload : e.payload with
      | none => simp [preserve, hpayload]
      | some b => cases htomb : e.tombstone <;> simp [preserve, install, hpayload, htomb]

theorem received_of_receive {digest : Digest β φ} {r r' : Replica κ δ φ τ β}
    {e : Entry κ δ φ τ β} (h : r.receive digest e = some r') : Received digest r e r' := by
  rw [receive] at h
  cases ho : r.outcomeOf e with
  | unknownTombstone =>
      obtain rfl : r = r' := by simpa [ho] using h
      constructor <;> simp [ho, Outcome.applies, Outcome.preserved]
  | acknowledged =>
      obtain rfl : r = r' := by simpa [ho] using h
      constructor <;> simp [ho, Outcome.applies, Outcome.preserved]
  | localWins =>
      obtain ⟨b, hb, rfl⟩ : ∃ b, e.payload = some b ∧ _ = r' := by
        simpa [ho, preserve] using h
      constructor <;> simp [ho, hb, Outcome.applies, Outcome.preserved]
  | created =>
      have htomb := tombstone_of_created ho
      obtain ⟨b, hb, rfl⟩ : ∃ b, e.payload = some b ∧ _ = r' := by
        simpa [ho, install, htomb] using h
      constructor <;>
        simp [ho, hb, htomb, Outcome.applies, Outcome.preserved, Entry.resulting, Entry.stamp]
  | caughtUp =>
      cases htomb : e.tombstone with
      | true =>
          obtain rfl : _ = r' := by simpa [ho, install, htomb] using h
          constructor <;>
            simp [ho, htomb, Outcome.applies, Outcome.preserved, Entry.resulting, Entry.stamp]
      | false =>
          obtain ⟨b, hb, rfl⟩ : ∃ b, e.payload = some b ∧ _ = r' := by
            simpa [ho, install, htomb] using h
          constructor <;>
            simp [ho, hb, htomb, Outcome.applies, Outcome.preserved, Entry.resulting, Entry.stamp]
  | remoteWins =>
      obtain ⟨b, hb⟩ : ∃ b, e.payload = some b := by
        cases hb : e.payload with
        | none => simp [ho, preserve, hb] at h
        | some b => exact ⟨b, rfl⟩
      cases htomb : e.tombstone with
      | true =>
          obtain rfl : _ = r' := by simpa [ho, preserve, install, hb, htomb] using h
          constructor <;>
            simp [ho, hb, htomb, Outcome.applies, Outcome.preserved, Entry.resulting, Entry.stamp]
      | false =>
          obtain rfl : _ = r' := by simpa [ho, preserve, install, hb, htomb] using h
          constructor <;>
            simp [ho, hb, htomb, Outcome.applies, Outcome.preserved, Entry.resulting, Entry.stamp]

/-! ## Walking a bundle -/

/-- A condition that holds of every entry of a bundle when its turn comes. -/
def Walk (digest : Digest β φ) (ok : Replica κ δ φ τ β → Entry κ δ φ τ β → Prop) :
    Replica κ δ φ τ β → List (Entry κ δ φ τ β) → Prop
  | _, [] => True
  | r, e :: rest => ok r e ∧ ∀ r' ∈ r.receive digest e, Walk digest ok r' rest

/-- No entry of the bundle misses a row that is needed. -/
def Importable (digest : Digest β φ) (r : Replica κ δ φ τ β)
    (entries : List (Entry κ δ φ τ β)) : Prop :=
  Walk digest Receivable r entries

theorem receiveAll_cons (digest : Digest β φ) (r : Replica κ δ φ τ β) (e : Entry κ δ φ τ β)
    (rest : List (Entry κ δ φ τ β)) :
    r.receiveAll digest (e :: rest) =
      (r.receive digest e).bind fun r' ↦ r'.receiveAll digest rest :=
  List.foldlM_cons

/-- A bundle is accepted exactly when every entry can be received at its turn. -/
theorem receiveAll_isSome_iff {digest : Digest β φ} {r : Replica κ δ φ τ β}
    {entries : List (Entry κ δ φ τ β)} :
    (r.receiveAll digest entries).isSome ↔ Importable digest r entries := by
  rw [Importable]
  induction entries generalizing r with
  | nil => simp [receiveAll, Walk]
  | cons e rest ih =>
      have hreceive : (r.receive digest e).isSome ↔ r.Receivable e := receive_isSome_iff
      rw [receiveAll_cons, Walk, ← hreceive]
      cases h : r.receive digest e with
      | none => simp
      | some r' => simp [ih]

end Replica

end Receive

end Replication
