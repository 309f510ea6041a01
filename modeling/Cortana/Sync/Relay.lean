import Cortana.Core.Loops
import Cortana.Text.ByteOffsets
import Cortana.Text.Search
import Mathlib.Data.List.Sublists

/-!
# The relay

`relay.rs`: mailboxes of bundles that the relay cannot read.  A mailbox has a
bound, and what is older than the retention is swept on access.
-/

namespace Cortana

/-- A row of `relay_bundles`. -/
structure Parcel (β : Type*) where
  id : ℤ
  recipient : String
  bytes : ℕ
  ciphertext : β
  createdAt : String

/-- `relay_bundles`: rows in the order of their ids, which are never used again. -/
structure Relay (β : Type*) where
  rows : List (Parcel β)
  lastId : ℤ
  ids : rows.Pairwise fun p q ↦ p.id < q.id
  bound : ∀ p ∈ rows, p.id ≤ lastId

namespace Relay

variable {β : Type*}

def empty : Relay β := ⟨[], 0, List.Pairwise.nil, by simp⟩

/-- `MAILBOX_BUNDLE_LIMIT`. -/
def mailboxBundleLimit : ℕ := 64

/-- `BUNDLE_BYTE_LIMIT`. -/
def bundleByteLimit : ℕ := 8 * 1024 * 1024

/-- The rows of one recipient. -/
def mailbox (relay : Relay β) (recipient : String) : List (Parcel β) :=
  relay.rows.filter fun p ↦ p.recipient = recipient

/-- Delete the rows that do not meet a condition. -/
def keep (relay : Relay β) (p : Parcel β → Bool) : Relay β where
  rows := relay.rows.filter p
  lastId := relay.lastId
  ids := relay.ids.sublist List.filter_sublist
  bound := fun q hq ↦ relay.bound q (List.mem_of_mem_filter hq)

/-- Insert a row under the next id. -/
def insert (relay : Relay β) (recipient : String) (bytes : ℕ) (ciphertext : β)
    (createdAt : String) : Relay β where
  rows := relay.rows ++ [⟨relay.lastId + 1, recipient, bytes, ciphertext, createdAt⟩]
  lastId := relay.lastId + 1
  ids := by
    rw [List.pairwise_append]
    refine ⟨relay.ids, List.pairwise_singleton _ _, fun p hp q hq ↦ ?_⟩
    rw [List.mem_singleton.mp hq]
    exact Int.lt_add_one_of_le (relay.bound p hp)
  bound := by
    intro p hp
    rcases List.mem_append.mp hp with hp | hp
    · exact (relay.bound p hp).trans (Int.lt_succ _).le
    · rw [List.mem_singleton.mp hp]

/-- `sweep_expired`. -/
def sweepExpired (relay : Relay β) (expired : String → Bool) : Relay β :=
  relay.keep fun p ↦ !expired p.createdAt

/-- `enforce_mailbox_bound`: drop the oldest rows until there is room for one. -/
def enforceMailboxBound (relay : Relay β) (recipient : String) : Relay β :=
  let count := (relay.mailbox recipient).length
  if count < mailboxBundleLimit then relay
  else
    let excess := count - mailboxBundleLimit + 1
    let oldest := ((relay.mailbox recipient).take excess).map Parcel.id
    relay.keep fun p ↦ !oldest.contains p.id

/-- `upload_bundle`. -/
def uploadBundle (relay : Relay β) (recipient : String) (bytes : ℕ) (ciphertext : β)
    (expired : String → Bool) (now : String) : Except String (Relay β) :=
  if ByteText.trim recipient.toList = [] ∨ 128 < ByteText.byteLen recipient.toList then
    .error "400 Bad Request"
  else if bytes = 0 ∨ bundleByteLimit < bytes then .error "413 Payload Too Large"
  else .ok (((relay.sweepExpired expired).enforceMailboxBound recipient).insert recipient bytes
    ciphertext now)

/-- `list_bundles`. -/
def listBundles (relay : Relay β) (recipient : String) (expired : String → Bool) :
    Relay β × List (Parcel β) :=
  let swept := relay.sweepExpired expired
  (swept, swept.mailbox recipient)

/-- `fetch_bundle`. -/
def fetchBundle (relay : Relay β) (recipient : String) (id : ℤ) : Except String β :=
  match relay.rows.find? fun p ↦ p.recipient = recipient ∧ p.id = id with
  | some p => .ok p.ciphertext
  | none => .error "404 Not Found"

/-- `delete_bundle`. -/
def deleteBundle (relay : Relay β) (recipient : String) (id : ℤ) : Except String (Relay β) :=
  if relay.rows.any fun p ↦ p.recipient = recipient ∧ p.id = id then
    .ok (relay.keep fun p ↦ !decide (p.recipient = recipient ∧ p.id = id))
  else .error "404 Not Found"

/-! ## What a mailbox holds -/

theorem mem_keep {relay : Relay β} {keeps : Parcel β → Bool} {p : Parcel β} :
    p ∈ (relay.keep keeps).rows ↔ p ∈ relay.rows ∧ keeps p = true :=
  List.mem_filter

theorem mem_of_enforceMailboxBound {relay : Relay β} {recipient : String} {p : Parcel β}
    (h : p ∈ (relay.enforceMailboxBound recipient).rows) : p ∈ relay.rows := by
  rw [enforceMailboxBound] at h
  split at h
  · exact h
  · exact (Iff.mp mem_keep h).1

/-- An upload brings one bundle and keeps some of those that were there. -/
theorem mem_of_uploadBundle {relay relay' : Relay β} {recipient now : String} {bytes : ℕ}
    {ciphertext : β} {expired : String → Bool}
    (h : relay.uploadBundle recipient bytes ciphertext expired now = .ok relay') {p : Parcel β}
    (hp : p ∈ relay'.rows) : p ∈ relay.rows ∨ p.ciphertext = ciphertext := by
  rw [uploadBundle] at h
  split_ifs at h
  obtain rfl := Except.ok.inj h
  rcases List.mem_append.mp hp with hp | hp
  · exact .inl (Iff.mp mem_keep (mem_of_enforceMailboxBound hp)).1
  · rw [List.mem_singleton.mp hp]
    exact .inr rfl

theorem mem_of_fetchBundle {relay : Relay β} {recipient : String} {id : ℤ} {ciphertext : β}
    (h : relay.fetchBundle recipient id = .ok ciphertext) :
    ∃ p ∈ relay.rows, p.ciphertext = ciphertext := by
  rw [fetchBundle] at h
  split at h
  next p hfind => exact ⟨p, List.mem_of_find?_eq_some hfind, Except.ok.inj h⟩
  next => cases h

theorem mem_of_deleteBundle {relay relay' : Relay β} {recipient : String} {id : ℤ}
    (h : relay.deleteBundle recipient id = .ok relay') {p : Parcel β} (hp : p ∈ relay'.rows) :
    p ∈ relay.rows := by
  rw [deleteBundle] at h
  split_ifs at h
  obtain rfl := Except.ok.inj h
  exact (Iff.mp mem_keep hp).1

/-- Making room leaves a mailbox below its bound. -/
theorem length_enforceMailboxBound (relay : Relay β) (recipient : String) :
    ((relay.enforceMailboxBound recipient).mailbox recipient).length < mailboxBundleLimit := by
  rw [enforceMailboxBound]
  split
  next h => exact h
  next h =>
      set box := relay.mailbox recipient with hbox
      set excess := box.length - mailboxBundleLimit + 1 with hexcess
      have hids : box.Pairwise fun p q ↦ p.id < q.id := relay.ids.sublist List.filter_sublist
      have hsub : ((relay.keep fun p ↦ !((box.take excess).map Parcel.id).contains p.id).mailbox
          recipient).Sublist (box.drop excess) := by
        have hcomm : (relay.keep fun p ↦ !((box.take excess).map Parcel.id).contains p.id).mailbox
            recipient = box.filter fun p ↦ !((box.take excess).map Parcel.id).contains p.id := by
          rw [hbox, mailbox, mailbox, keep, List.filter_filter, List.filter_filter]
          simp only [Bool.and_comm]
        have hnone : (box.take excess).filter
            (fun p ↦ !((box.take excess).map Parcel.id).contains p.id) = [] := by
          rw [List.filter_eq_nil_iff]
          intro p hp
          have hmem : p.id ∈ (box.take excess).map Parcel.id := List.mem_map_of_mem hp
          simpa using hmem
        rw [hcomm]
        conv_lhs => rw [← List.take_append_drop excess box, List.filter_append]
        rw [List.take_append_drop, hnone, List.nil_append]
        exact List.filter_sublist
      have hlength := hsub.length_le
      rw [List.length_drop] at hlength
      have hpos : 0 < mailboxBundleLimit := by decide
      exact hlength.trans_lt (by omega)

end Relay

end Cortana
