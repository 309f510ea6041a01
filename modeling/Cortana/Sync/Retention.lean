import Cortana.Core.OrderedSet
import Cortana.Core.Runs
import Cortana.Sync.Relay
import Cortana.Text.Timestamps

/-!
# How long the relay keeps a bundle

The requests of a relay one after another, at any times.  A time is written in one
format and compared with another, so that an access sweeps by whole dates.
-/

namespace Cortana

open Timestamps

namespace Relay

variable {β : Type*}

/-- `RETENTION_DAYS`. -/
def retentionDays : ℕ := 14

/-- The condition of `sweep_expired` at a time. -/
def expired (now : Instant) (createdAt : String) : Bool :=
  createdAt.toList < sqliteDatetime (now.daysBefore retentionDays)

/-- A request with the times that it reads: the sweep has its own. -/
inductive Operation (β : Type*) where
  | upload (recipient : String) (bytes : ℕ) (ciphertext : β) (swept stored : Instant)
  | list (recipient : String) (swept : Instant)
  | fetch (recipient : String) (id : ℤ)
  | delete (recipient : String) (id : ℤ)

structure Call (β : Type*) where
  authorization : Option String
  operation : Operation β

/-- `authorize`. -/
def authorize (token authorization : Option String) : Bool :=
  match token with
  | none => true
  | some expected => authorization = some ("Bearer " ++ expected)

inductive Reply (β : Type*) where
  | refused (status : String)
  | stored (id : ℤ)
  | bundles (parcels : List (Parcel β))
  | bundle (ciphertext : β)
  | deleted (id : ℤ)

/-- The handler of a request. -/
def answer (token : Option String) (relay : Relay β) (call : Call β) : Relay β × Reply β :=
  if authorize token call.authorization then
    match call.operation with
    | .upload recipient bytes ciphertext swept stored =>
        match relay.uploadBundle recipient bytes ciphertext (expired swept)
            (String.ofList (rfc3339 stored)) with
        | .ok relay' => (relay', .stored relay'.lastId)
        | .error status => (relay, .refused status)
    | .list recipient swept =>
        let (relay', parcels) := relay.listBundles recipient (expired swept)
        (relay', .bundles parcels)
    | .fetch recipient id =>
        match relay.fetchBundle recipient id with
        | .ok ciphertext => (relay, .bundle ciphertext)
        | .error status => (relay, .refused status)
    | .delete recipient id =>
        match relay.deleteBundle recipient id with
        | .ok relay' => (relay', .deleted id)
        | .error status => (relay, .refused status)
  else (relay, .refused "401 Unauthorized")

/-! ## The age of a bundle -/

/-- A bundle was stored at a time. -/
def StoredAt (p : Parcel β) (t : Instant) : Prop := p.createdAt = String.ofList (rfc3339 t)

theorem storedAt_unique {p : Parcel β} {s t : Instant} (hs : StoredAt p s) (ht : StoredAt p t) :
    s = t :=
  rfc3339_injective (String.ofList_injective (hs.symm.trans ht))

/-- A bundle is older than the retention at a time. -/
def Older (p : Parcel β) (now : Instant) : Prop :=
  ∃ t, StoredAt p t ∧ t.nanos + retentionDays * nanosPerDay < now.nanos

/-- A bundle is swept when its date is before the one of fourteen days ago. -/
theorem expired_iff {p : Parcel β} {t now : Instant} (h : StoredAt p t) :
    expired now p.createdAt = true ↔ t.dayNumber < (now.daysBefore retentionDays).dayNumber := by
  rw [expired, decide_eq_true_eq, h, String.toList_ofList]
  exact rfc3339_lt_sqliteDatetime_iff

theorem older_of_expired {p : Parcel β} {t now : Instant} (h : StoredAt p t)
    (hexpired : expired now p.createdAt = true) : Older p now := by
  refine ⟨t, h, ?_⟩
  have hday := Iff.mp (expired_iff h) hexpired
  by_contra hle
  have hnanos : (now.daysBefore retentionDays).nanos ≤ t.nanos := by
    rw [Instant.daysBefore]
    exact Nat.sub_le_of_le_add (Nat.le_of_not_lt hle)
  exact absurd (Instant.dayNumber_le_of_nanos_le hnanos) (Nat.not_le.mpr hday)

/-! ## What a request does -/

/-- An upload that is not valid. -/
def Unfit (recipient : String) (bytes : ℕ) : Prop :=
  ByteText.trim recipient.toList = [] ∨ 128 < ByteText.byteLen recipient.toList ∨
    bytes = 0 ∨ bundleByteLimit < bytes

instance (recipient : String) (bytes : ℕ) : Decidable (Unfit recipient bytes) :=
  inferInstanceAs (Decidable (_ ∨ _ ∨ _ ∨ _))

/-- The bundle that an answer says has been stored. -/
def Operation.brings : Operation β → Reply β → List (Parcel β)
  | .upload recipient bytes ciphertext _ stored, .stored id =>
      [⟨id, recipient, bytes, ciphertext, String.ofList (rfc3339 stored)⟩]
  | _, _ => []

/-- The time of the sweep of a request that accesses the mailboxes. -/
def Call.accessedAt (token : Option String) (call : Call β) : Option Instant :=
  if authorize token call.authorization then
    match call.operation with
    | .upload recipient bytes _ swept _ =>
        if Unfit recipient bytes then none else some swept
    | .list _ swept => some swept
    | .fetch _ _ | .delete _ _ => none
  else none

/-- No bundle that is older than the retention has the date of fourteen days ago. -/
def SweepsOnTime (token : Option String) (relay : Relay β) (call : Call β) : Prop :=
  ∀ now, call.accessedAt token = some now → ∀ p ∈ relay.rows, ∀ t, StoredAt p t →
    t.nanos + retentionDays * nanosPerDay < now.nanos →
      t.dayNumber ≠ (now.daysBefore retentionDays).dayNumber

/-- The invariant: mailboxes are within their bound, and times are as they are written. -/
structure Kept (relay : Relay β) : Prop where
  bounded : ∀ recipient, (relay.mailbox recipient).length ≤ mailboxBundleLimit
  dated : ∀ p ∈ relay.rows, ∃ t, StoredAt p t

/-- What the law of the mailboxes says of one request. -/
structure Lawful (token : Option String) (relay : Relay β) (call : Call β) : Prop where
  bounded : ∀ recipient,
    ((relay.answer token call).1.mailbox recipient).length ≤ mailboxBundleLimit
  /-- A bundle disappears when it is deleted, when there are as many newer ones as the
  mailbox holds, or when it is too old at an access. -/
  disappears : ∀ p ∈ relay.rows, p ∉ (relay.answer token call).1.rows →
    call.operation = .delete p.recipient p.id ∨
    mailboxBundleLimit ≤ (((relay.answer token call).1.mailbox p.recipient).filter
      fun q ↦ decide (p.id < q.id)).length ∨
    ∃ now, call.accessedAt token = some now ∧ Older p now
  /-- At an access what is too old is gone. -/
  swept : ∀ now, call.accessedAt token = some now → ∀ p ∈ relay.rows, Older p now →
    p ∉ (relay.answer token call).1.rows
  /-- Nothing comes back; what an upload is told to be stored comes last, and nothing else. -/
  appended : ∃ kept : List (Parcel β), kept.Sublist relay.rows ∧
    (relay.answer token call).1.rows =
      kept ++ call.operation.brings (relay.answer token call).2 ∧
    ∀ q ∈ call.operation.brings (relay.answer token call).2, relay.lastId < q.id
  /-- Every valid upload is stored. -/
  accepted : ∀ recipient bytes ciphertext swept stored,
    call.operation = .upload recipient bytes ciphertext swept stored →
      authorize token call.authorization = true → ¬ Unfit recipient bytes →
        ∃ id, (relay.answer token call).2 = .stored id
  /-- What is deleted is not there any more. -/
  deleted : ∀ recipient id, call.operation = .delete recipient id →
    authorize token call.authorization = true →
      ∀ q ∈ (relay.answer token call).1.rows, ¬ (q.recipient = recipient ∧ q.id = id)
  /-- A list shows what is there in the order of the uploads. -/
  listed : ∀ recipient swept, call.operation = .list recipient swept →
    authorize token call.authorization = true →
      (relay.answer token call).2 = .bundles ((relay.answer token call).1.mailbox recipient) ∧
      ((relay.answer token call).1.mailbox recipient).Pairwise fun p q ↦ p.id < q.id

/-! ## The parts of a request -/

variable {relay : Relay β} {recipient : String}

theorem eq_of_id_eq {p q : Parcel β} (hp : p ∈ relay.rows) (hq : q ∈ relay.rows)
    (h : p.id = q.id) : p = q := by
  have hnodup : (relay.rows.map Parcel.id).Nodup := by
    refine List.Pairwise.imp (fun hlt ↦ ne_of_lt hlt) ?_
    rw [List.pairwise_map]
    exact relay.ids
  exact List.inj_on_of_nodup_map hnodup hp hq h

theorem mem_mailbox {p : Parcel β} :
    p ∈ relay.mailbox recipient ↔ p ∈ relay.rows ∧ p.recipient = recipient := by
  rw [mailbox, List.mem_filter, decide_eq_true_eq]

theorem enforceMailboxBound_sublist :
    (relay.enforceMailboxBound recipient).rows.Sublist relay.rows := by
  rw [enforceMailboxBound]
  split
  · exact List.Sublist.refl _
  · exact List.filter_sublist

/-- A bundle that makes room for another is of the recipient, and all newer ones of a
mailbox that was not too full are still there. -/
theorem evicted_of_enforceMailboxBound {p : Parcel β}
    (hbound : (relay.mailbox recipient).length ≤ mailboxBundleLimit) (hp : p ∈ relay.rows)
    (h : p ∉ (relay.enforceMailboxBound recipient).rows) :
    p.recipient = recipient ∧ mailboxBundleLimit ≤ (((relay.enforceMailboxBound recipient).mailbox
      recipient).filter fun q ↦ decide (p.id < q.id)).length + 1 := by
  rw [enforceMailboxBound] at h ⊢
  split at h
  · exact absurd hp h
  next hfull =>
      have hlength : (relay.mailbox recipient).length = mailboxBundleLimit :=
        Nat.le_antisymm hbound (Nat.le_of_not_lt hfull)
      rw [if_neg hfull]
      simp only [hlength, Nat.sub_self, Nat.zero_add] at h ⊢
      -- one bundle goes, the first of the mailbox
      obtain ⟨first, rest, hbox⟩ := List.exists_cons_of_length_pos
        (Nat.lt_of_lt_of_eq (by decide : 0 < mailboxBundleLimit) hlength.symm)
      have hfirst : first ∈ relay.rows ∧ first.recipient = recipient :=
        Iff.mp mem_mailbox (hbox ▸ List.mem_cons_self)
      rw [hbox] at h hlength ⊢
      have hids : (first :: rest).Pairwise fun p q ↦ p.id < q.id :=
        hbox ▸ relay.ids.sublist List.filter_sublist
      have hid : p.id = first.id := by
        by_contra hne
        exact h (Iff.mpr mem_keep ⟨hp, by simpa using hne⟩)
      obtain rfl := eq_of_id_eq hp hfirst.1 hid
      refine ⟨hfirst.2, ?_⟩
      have hrest : rest = ((relay.keep fun q ↦ !([p.id].contains q.id)).mailbox recipient).filter
          fun q ↦ decide (p.id < q.id) :=
        calc rest
            = (p :: rest).filter fun q ↦ decide (p.id < q.id) := by
              rw [List.filter_cons_of_neg (by simp), List.filter_eq_self.mpr]
              intro q hq
              exact decide_eq_true ((List.pairwise_cons.mp hids).1 q hq)
          _ = _ := by
              rw [← hbox, mailbox, mailbox, keep, List.filter_filter, List.filter_filter,
                List.filter_filter]
              refine List.filter_congr fun q _ ↦ ?_
              by_cases hlt : p.id < q.id
              · simp [hlt, hlt.ne']
              · simp [hlt]
      change _ ≤ (((relay.keep fun q ↦ !([p.id].contains q.id)).mailbox recipient).filter
        fun q ↦ decide (p.id < q.id)).length + 1
      rw [← hrest, ← hlength, List.length_cons]

/-! ## The law, request by request -/

theorem kept_empty : Kept (empty : Relay β) :=
  ⟨fun _ ↦ Nat.zero_le _, fun _ hp ↦ absurd hp List.not_mem_nil⟩

theorem Kept.of_sublist {relay' : Relay β} (h : Kept relay)
    (hsub : relay'.rows.Sublist relay.rows) : Kept relay' where
  bounded recipient := ((hsub.filter _).length_le).trans (h.bounded recipient)
  dated p hp := h.dated p (hsub.subset hp)

/-- What is older than the retention is swept, where the dates allow it. -/
theorem expired_of_older {now : Instant} {p : Parcel β} (hold : Older p now)
    (hdate : ∀ t, StoredAt p t → t.nanos + retentionDays * nanosPerDay < now.nanos →
      t.dayNumber ≠ (now.daysBefore retentionDays).dayNumber) :
    expired now p.createdAt = true := by
  obtain ⟨t, hstored, hnanos⟩ := hold
  refine Iff.mpr (expired_iff hstored) (lt_of_le_of_ne ?_ (hdate t hstored hnanos))
  refine Instant.dayNumber_le_of_nanos_le ?_
  change t.nanos ≤ now.nanos - retentionDays * nanosPerDay
  omega

/-- What is new was stored at a time. -/
theorem Operation.storedAt_of_brings {operation : Operation β} {reply : Reply β} {q : Parcel β}
    (h : q ∈ operation.brings reply) : ∃ t, StoredAt q t := by
  rw [Operation.brings.eq_def] at h
  split at h
  next stored _ =>
      rw [List.mem_singleton.mp h]
      exact ⟨stored, rfl⟩
  next => exact absurd h List.not_mem_nil

/-- A request that only looks at the relay, or is refused, is lawful. -/
theorem lawful_of_unchanged {token : Option String} {call : Call β} (hkept : Kept relay)
    (hsame : (relay.answer token call).1 = relay) (haccess : call.accessedAt token = none)
    (hbrings : call.operation.brings (relay.answer token call).2 = [])
    (hlist : ∀ recipient swept, call.operation = .list recipient swept →
      authorize token call.authorization = false)
    (hdelete : ∀ recipient id, call.operation = .delete recipient id →
      authorize token call.authorization = true →
        ∀ q ∈ relay.rows, ¬ (q.recipient = recipient ∧ q.id = id)) :
    Lawful token relay call where
  bounded recipient := by
    rw [hsame]
    exact hkept.bounded recipient
  disappears p hp hgone := by
    rw [hsame] at hgone
    exact absurd hp hgone
  swept now hnow := by
    rw [haccess] at hnow
    cases hnow
  appended := ⟨relay.rows, List.Sublist.refl _, by rw [hsame, hbrings, List.append_nil],
    by simp [hbrings]⟩
  accepted recipient bytes ciphertext swept stored hoperation hauthorized hfit := by
    rw [Call.accessedAt, if_pos hauthorized, hoperation] at haccess
    simp [hfit] at haccess
  deleted recipient id hoperation hauthorized := by
    rw [hsame]
    exact hdelete recipient id hoperation hauthorized
  listed recipient swept hoperation hauthorized := by
    rw [hlist recipient swept hoperation] at hauthorized
    cases hauthorized

theorem uploadBundle_of_unfit {bytes : ℕ} {ciphertext : β} {expires : String → Bool}
    {now : String} (h : Unfit recipient bytes) :
    ∃ status, relay.uploadBundle recipient bytes ciphertext expires now = .error status := by
  rw [uploadBundle]
  by_cases hname : ByteText.trim recipient.toList = [] ∨ 128 < ByteText.byteLen recipient.toList
  · exact ⟨_, if_pos hname⟩
  · rw [if_neg hname]
    refine ⟨_, if_pos ?_⟩
    rcases h with h | h | h
    · exact absurd (.inl h) hname
    · exact absurd (.inr h) hname
    · exact h

theorem uploadBundle_of_fit {bytes : ℕ} {ciphertext : β} {expires : String → Bool}
    {now : String} (h : ¬ Unfit recipient bytes) :
    relay.uploadBundle recipient bytes ciphertext expires now =
      .ok (((relay.sweepExpired expires).enforceMailboxBound recipient).insert recipient bytes
        ciphertext now) := by
  simp only [Unfit, not_or] at h
  rw [uploadBundle, if_neg (not_or.mpr ⟨h.1, h.2.1⟩), if_neg (not_or.mpr h.2.2)]

theorem sweepExpired_sublist (expires : String → Bool) :
    (relay.sweepExpired expires).rows.Sublist relay.rows :=
  List.filter_sublist

/-- What a sweep takes away has expired. -/
theorem expired_of_sweepExpired {expires : String → Bool} {p : Parcel β} (hp : p ∈ relay.rows)
    (h : p ∉ (relay.sweepExpired expires).rows) : expires p.createdAt = true := by
  by_contra hfresh
  exact h (Iff.mpr mem_keep ⟨hp, by simpa using hfresh⟩)

theorem notMem_sweepExpired {expires : String → Bool} {p : Parcel β}
    (h : expires p.createdAt = true) : p ∉ (relay.sweepExpired expires).rows := by
  intro hp
  simpa [h] using (Iff.mp mem_keep hp).2

section Insert

variable {bytes : ℕ} {ciphertext : β} {now : String}

theorem mailbox_insert_of_ne {other : String} (h : other ≠ recipient) :
    (relay.insert recipient bytes ciphertext now).mailbox other = relay.mailbox other := by
  rw [mailbox, mailbox, insert, List.filter_append,
    List.filter_cons_of_neg (by simpa using h.symm), List.filter_nil, List.append_nil]

theorem mailbox_insert_self :
    (relay.insert recipient bytes ciphertext now).mailbox recipient = relay.mailbox recipient ++
      [⟨relay.lastId + 1, recipient, bytes, ciphertext, now⟩] := by
  rw [mailbox, mailbox, insert, List.filter_append, List.filter_cons_of_pos (by simp),
    List.filter_nil]

end Insert

/-- An accepted upload sweeps, makes room and inserts, and tells the id of what it inserted. -/
theorem answer_upload {token authorization : Option String} {bytes : ℕ} {ciphertext : β}
    {swept stored : Instant} (hauthorized : authorize token authorization = true)
    (hfit : ¬ Unfit recipient bytes) :
    relay.answer token ⟨authorization, .upload recipient bytes ciphertext swept stored⟩ =
      (((relay.sweepExpired (expired swept)).enforceMailboxBound recipient).insert recipient bytes
          ciphertext (String.ofList (rfc3339 stored)),
        .stored (((relay.sweepExpired (expired swept)).enforceMailboxBound recipient).lastId +
          1)) := by
  rw [answer, if_pos hauthorized]
  change (match relay.uploadBundle recipient bytes ciphertext (expired swept)
    (String.ofList (rfc3339 stored)) with
    | .ok relay' => (relay', Reply.stored relay'.lastId)
    | .error status => (relay, Reply.refused status)) = _
  rw [uploadBundle_of_fit hfit]
  rfl

/-- An accepted upload is lawful. -/
theorem lawful_upload {token : Option String} {authorization : Option String} {bytes : ℕ}
    {ciphertext : β} {swept stored : Instant} (hkept : Kept relay)
    (hauthorized : authorize token authorization = true) (hfit : ¬ Unfit recipient bytes)
    (hok : SweepsOnTime token relay
      ⟨authorization, .upload recipient bytes ciphertext swept stored⟩) :
    Lawful token relay ⟨authorization, .upload recipient bytes ciphertext swept stored⟩ := by
  set call : Call β := ⟨authorization, .upload recipient bytes ciphertext swept stored⟩
  set clean := relay.sweepExpired (expired swept) with hclean
  set room := clean.enforceMailboxBound recipient with hroom
  have hserved : relay.answer token call =
      (room.insert recipient bytes ciphertext (String.ofList (rfc3339 stored)),
        .stored (room.lastId + 1)) :=
    answer_upload hauthorized hfit
  have hanswer : (relay.answer token call).1 =
      room.insert recipient bytes ciphertext (String.ofList (rfc3339 stored)) := by
    rw [hserved]
  have hbrings : call.operation.brings (relay.answer token call).2 =
      [⟨room.lastId + 1, recipient, bytes, ciphertext, String.ofList (rfc3339 stored)⟩] := by
    rw [hserved]
    rfl
  have haccess : call.accessedAt token = some swept := by
    rw [Call.accessedAt, if_pos hauthorized]
    exact if_neg hfit
  have hcleanSub : clean.rows.Sublist relay.rows := sweepExpired_sublist _
  have hroomSub : room.rows.Sublist clean.rows := enforceMailboxBound_sublist
  have hrows : (relay.answer token call).1.rows = room.rows ++
      [⟨room.lastId + 1, recipient, bytes, ciphertext, String.ofList (rfc3339 stored)⟩] := by
    rw [hanswer]
    rfl
  have hlast : room.lastId = relay.lastId := by
    rw [hroom, enforceMailboxBound]
    split <;> rfl
  refine ⟨fun other ↦ ?_, fun p hp hgone ↦ ?_, fun now hnow p hp hold ↦ ?_, ?_, ?_, ?_, ?_⟩
  · rw [hanswer]
    by_cases hother : other = recipient
    · rw [hother, mailbox_insert_self, List.length_append, List.length_singleton]
      exact clean.length_enforceMailboxBound recipient
    · rw [mailbox_insert_of_ne hother]
      exact (hkept.of_sublist (hroomSub.trans hcleanSub)).bounded other
  · rw [hrows, List.mem_append, not_or] at hgone
    by_cases hpclean : p ∈ clean.rows
    · -- it made room for the new one
      obtain ⟨hrecipient, hcount⟩ := evicted_of_enforceMailboxBound
        ((hkept.of_sublist hcleanSub).bounded recipient) hpclean hgone.1
      refine .inr (.inl ?_)
      have hnew : p.id < room.lastId + 1 :=
        Int.lt_add_one_of_le (hlast ▸ relay.bound p hp)
      rw [hanswer, hrecipient, mailbox_insert_self, List.filter_append,
        List.filter_cons_of_pos (by simpa using hnew), List.filter_nil, List.length_append,
        List.length_singleton]
      exact hcount
    · obtain ⟨t, hstored⟩ := hkept.dated p hp
      exact .inr (.inr ⟨swept, haccess,
        older_of_expired hstored (expired_of_sweepExpired hp hpclean)⟩)
  · obtain rfl := Option.some.inj (haccess.symm.trans hnow)
    have hexpired := expired_of_older hold (hok swept haccess p hp)
    rw [hrows, List.mem_append, not_or]
    refine ⟨fun hmem ↦ notMem_sweepExpired hexpired (hroomSub.subset hmem), fun hmem ↦ ?_⟩
    have hid := congrArg Parcel.id (List.mem_singleton.mp hmem)
    have hle := relay.bound p hp
    rw [hid, hlast] at hle
    exact absurd hle (by simp)
  · refine ⟨room.rows, hroomSub.trans hcleanSub, by rw [hbrings, hrows], fun q hq ↦ ?_⟩
    rw [hbrings] at hq
    rw [List.mem_singleton.mp hq, hlast]
    exact Int.lt_succ relay.lastId
  · intro _ _ _ _ _ _ _ _
    exact ⟨_, congrArg Prod.snd hserved⟩
  · intro _ _ hoperation
    cases hoperation
  · intro _ _ hoperation
    cases hoperation

/-- A list is lawful. -/
theorem lawful_list {token : Option String} {authorization : Option String} {swept : Instant}
    (hkept : Kept relay) (hauthorized : authorize token authorization = true)
    (hok : SweepsOnTime token relay ⟨authorization, .list recipient swept⟩) :
    Lawful token relay ⟨authorization, .list recipient swept⟩ := by
  set call : Call β := ⟨authorization, .list recipient swept⟩
  have hanswer : relay.answer token call = (relay.sweepExpired (expired swept),
      .bundles ((relay.sweepExpired (expired swept)).mailbox recipient)) := by
    rw [answer, if_pos hauthorized]
    rfl
  have haccess : call.accessedAt token = some swept := by
    rw [Call.accessedAt, if_pos hauthorized]
  have hsub : (relay.sweepExpired (expired swept)).rows.Sublist relay.rows :=
    sweepExpired_sublist _
  refine ⟨?_, fun p hp hgone ↦ ?_, fun now hnow p hp hold ↦ ?_, ?_, ?_, ?_, ?_⟩
  · rw [hanswer]
    exact (hkept.of_sublist hsub).bounded
  · rw [hanswer] at hgone
    obtain ⟨t, hstored⟩ := hkept.dated p hp
    exact .inr (.inr ⟨swept, haccess,
      older_of_expired hstored (expired_of_sweepExpired hp hgone)⟩)
  · obtain rfl := Option.some.inj (haccess.symm.trans hnow)
    rw [hanswer]
    exact notMem_sweepExpired (expired_of_older hold (hok swept haccess p hp))
  · rw [hanswer]
    exact ⟨_, hsub, (List.append_nil _).symm, fun q hq ↦ absurd hq List.not_mem_nil⟩
  · intro _ _ _ _ _ hoperation
    cases hoperation
  · intro _ _ hoperation
    cases hoperation
  · intro other time hoperation _
    cases hoperation
    rw [hanswer]
    exact ⟨rfl, (relay.sweepExpired (expired swept)).ids.sublist List.filter_sublist⟩

/-- A deletion is lawful. -/
theorem lawful_delete {token : Option String} {authorization : Option String} {id : ℤ}
    (hkept : Kept relay) : Lawful token relay ⟨authorization, .delete recipient id⟩ := by
  set call : Call β := ⟨authorization, .delete recipient id⟩
  by_cases hthere : authorize token authorization = true ∧
    (relay.rows.any fun p ↦ p.recipient = recipient ∧ p.id = id) = true
  · have hanswer : (relay.answer token call).1 =
        relay.keep fun p ↦ !decide (p.recipient = recipient ∧ p.id = id) := by
      rw [answer, if_pos hthere.1]
      change (match relay.deleteBundle recipient id with
        | .ok relay' => (relay', Reply.deleted id)
        | .error status => (relay, Reply.refused status)).1 = _
      rw [deleteBundle, if_pos hthere.2]
    have hbrings : call.operation.brings (relay.answer token call).2 = [] := by
      rw [Operation.brings.eq_def]
    have hsub : (relay.answer token call).1.rows.Sublist relay.rows := by
      rw [hanswer]
      exact List.filter_sublist
    have haccess : call.accessedAt token = none := by
      rw [Call.accessedAt]
      split <;> rfl
    refine ⟨(hkept.of_sublist hsub).bounded, fun p hp hgone ↦ .inl ?_, fun now hnow ↦ ?_,
      ⟨_, hsub, by rw [hbrings, List.append_nil], by simp [hbrings]⟩, ?_, ?_, ?_⟩
    · rw [hanswer] at hgone
      by_contra hother
      refine hgone (Iff.mpr mem_keep ⟨hp, ?_⟩)
      rw [Bool.not_eq_true', decide_eq_false_iff_not]
      rintro ⟨hrecipient, hid⟩
      exact hother (by rw [hrecipient, hid])
    · rw [haccess] at hnow
      cases hnow
    · intro _ _ _ _ _ hoperation
      cases hoperation
    · intro _ _ hoperation _ q hq
      obtain ⟨rfl, rfl⟩ := Operation.delete.inj hoperation
      rw [hanswer] at hq
      have hother := (Iff.mp mem_keep hq).2
      rwa [Bool.not_eq_true', decide_eq_false_iff_not] at hother
    · intro other time hoperation
      cases hoperation
  · refine lawful_of_unchanged hkept ?_ ?_ ?_ ?_ ?_
    · rw [answer]
      split_ifs with hauthorized
      · have hnone : ¬ (relay.rows.any fun p ↦ p.recipient = recipient ∧ p.id = id) = true :=
          fun h ↦ hthere ⟨hauthorized, h⟩
        change (match relay.deleteBundle recipient id with
          | .ok relay' => (relay', Reply.deleted id)
          | .error status => (relay, Reply.refused status)).1 = _
        rw [deleteBundle, if_neg hnone]
      · rfl
    · rw [Call.accessedAt]
      split <;> rfl
    · rw [Operation.brings.eq_def]
    · intro other time hoperation
      cases hoperation
    · intro _ _ hoperation hauthorized q hq hthis
      obtain ⟨rfl, rfl⟩ := Operation.delete.inj hoperation
      refine hthere ⟨hauthorized, List.any_eq_true.mpr ⟨q, hq, ?_⟩⟩
      simpa using hthis

/-- Every request that sweeps on time is lawful. -/
theorem lawful_of_sweepsOnTime {token : Option String} {call : Call β} (hkept : Kept relay)
    (hok : SweepsOnTime token relay call) : Lawful token relay call := by
  obtain ⟨authorization, operation⟩ := call
  by_cases hauthorized : authorize token authorization = true
  · cases operation with
    | upload recipient bytes ciphertext swept stored =>
        by_cases hfit : Unfit recipient bytes
        · obtain ⟨status, hstatus⟩ : ∃ status, relay.uploadBundle recipient bytes ciphertext
              (expired swept) (String.ofList (rfc3339 stored)) = .error status :=
            uploadBundle_of_unfit hfit
          have hserved : relay.answer token ⟨authorization, .upload recipient bytes ciphertext
              swept stored⟩ = (relay, .refused status) := by
            rw [answer, if_pos hauthorized]
            simp only [hstatus]
          refine lawful_of_unchanged hkept (by rw [hserved]) ?_ (by rw [hserved]; rfl) ?_ ?_
          · rw [Call.accessedAt, if_pos hauthorized]
            exact if_pos hfit
          · intro other time hoperation
            cases hoperation
          · intro _ _ hoperation
            cases hoperation
        · exact lawful_upload hkept hauthorized hfit hok
    | list recipient swept => exact lawful_list hkept hauthorized hok
    | fetch recipient id =>
        refine lawful_of_unchanged hkept ?_ ?_ ?_ ?_ ?_
        · rw [answer, if_pos hauthorized]
          dsimp only
          split <;> rfl
        · rw [Call.accessedAt, if_pos hauthorized]
        · rw [Operation.brings.eq_def]
        · intro other time hoperation
          cases hoperation
        · intro _ _ hoperation
          cases hoperation
    | delete recipient id => exact lawful_delete hkept
  · have hserved : relay.answer token ⟨authorization, operation⟩ =
        (relay, .refused "401 Unauthorized") := by
      rw [answer, if_neg hauthorized]
    refine lawful_of_unchanged hkept (by rw [hserved]) ?_ ?_ ?_ ?_
    · rw [Call.accessedAt, if_neg hauthorized]
    · rw [hserved, Operation.brings.eq_def]
      split
      next h => cases h
      next => rfl
    · intro other time _
      exact Bool.eq_false_iff.mpr hauthorized
    · intro _ _ _ h
      exact absurd h hauthorized

/-! ## Runs -/

/-- A relay answers a request. -/
def Serves (token : Option String) (relay : Relay β) (call : Call β) (relay' : Relay β) : Prop :=
  (relay.answer token call).1 = relay'

theorem Lawful.kept {token : Option String} {call : Call β} (h : Lawful token relay call)
    (hkept : Kept relay) : Kept (relay.answer token call).1 := by
  refine ⟨h.bounded, fun p hp ↦ ?_⟩
  obtain ⟨kept, hsub, hrows, -⟩ := h.appended
  rw [hrows, List.mem_append] at hp
  rcases hp with hp | hp
  · exact hkept.dated p (hsub.subset hp)
  · exact Operation.storedAt_of_brings hp

/-- In every run of a relay whose requests sweep on time the mailboxes are within
their bound, and each such request that follows is lawful. -/
theorem lawful_of_run {token : Option String}
    (h : Transition.Run (Serves token) (SweepsOnTime token) (empty : Relay β) relay) :
    (∀ recipient, (relay.mailbox recipient).length ≤ mailboxBundleLimit) ∧
      ∀ call, SweepsOnTime token relay call → Lawful token relay call := by
  have hkept : Kept relay := by
    refine h.preserves ?_ kept_empty
    rintro s call t hs hok rfl
    exact (lawful_of_sweepsOnTime hs hok).kept hs
  exact ⟨hkept.bounded, fun call hok ↦ lawful_of_sweepsOnTime hkept hok⟩

/-- A time on a day of January 1970. -/
def january (day hour : ℕ) (h : (Calendar.dateOf ((day * 24 + hour) * 3600 * nanosPerSecond /
    nanosPerDay)).year < 10000) : Instant :=
  ⟨(day * 24 + hour) * 3600 * nanosPerSecond, h⟩

def firstOfJanuary : Instant := january 0 0 (by decide +kernel)

/-- An upload on the first of January. -/
def firstUpload : Call Unit :=
  ⟨none, .upload "device-b" 5 () firstOfJanuary firstOfJanuary⟩

def afterFirstUpload : Relay Unit := ((empty : Relay Unit).answer none firstUpload).1

def firstParcel : Parcel Unit := ⟨1, "device-b", 5, (), String.ofList (rfc3339 firstOfJanuary)⟩

theorem rows_afterFirstUpload : afterFirstUpload.rows = [firstParcel] := by
  rw [afterFirstUpload, firstUpload, answer_upload rfl (by decide +kernel)]
  rfl

/-- A list on the seventeenth sweeps on time. -/
theorem lawful_of_run_january : Lawful none afterFirstUpload
    ⟨none, .list "device-b" (january 16 0 (by decide +kernel))⟩ := by
  have hrun : Transition.Run (Serves none) (SweepsOnTime none) (empty : Relay Unit)
      afterFirstUpload := by
    refine Transition.Run.snoc (Transition.Run.refl _)
      (?_ : SweepsOnTime none (empty : Relay Unit) firstUpload) rfl
    intro now _ p hp
    exact absurd hp List.not_mem_nil
  refine (lawful_of_run hrun).2 _ ?_
  intro now hnow p hp t ht _
  obtain rfl : january 16 0 (by decide +kernel) = now := Option.some.inj hnow
  rw [rows_afterFirstUpload, List.mem_singleton] at hp
  have hstored : StoredAt p firstOfJanuary := congrArg Parcel.createdAt hp
  obtain rfl := storedAt_unique hstored ht
  decide +kernel

/-- A list late on the fifteenth shows a bundle of the midnight of the first. -/
theorem list_keeps_older :
    ((⟨none, .list "device-b" (january 14 23 (by decide +kernel))⟩ : Call Unit).accessedAt none =
        some (january 14 23 (by decide +kernel))) ∧
      Older firstParcel (january 14 23 (by decide +kernel)) ∧
      firstParcel ∈ afterFirstUpload.rows ∧
      firstParcel ∈ (afterFirstUpload.answer none
        ⟨none, .list "device-b" (january 14 23 (by decide +kernel))⟩).1.rows := by
  have hrows : firstParcel ∈ afterFirstUpload.rows := by
    rw [rows_afterFirstUpload]
    exact List.mem_singleton_self _
  refine ⟨rfl, ⟨firstOfJanuary, rfl, by decide +kernel⟩, hrows, ?_⟩
  exact Iff.mpr mem_keep ⟨hrows, by decide +kernel⟩

end Relay

end Cortana
