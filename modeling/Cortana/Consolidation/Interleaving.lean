import Cortana.Consolidation.Attempts

/-!
# Interleaved consolidations

Any number of calls of `consolidate_memory_candidate_with_action` access the
store in turn, with every other operation on candidates and every other write
between any two accesses; a call can end wherever it is.  The store is compared
with a ledger in which a candidate is remembered at most once.
-/

namespace Cortana

open Store (promotedInput)

/-! ## The ledger -/

/-- A promotion that was committed. -/
structure Promotion where
  call : ConsolidateCall
  review : Review
  memoryId : String

/-- A change of the store: the memory of a candidate, or a write of something else. -/
inductive LedgerEntry where
  | promoted (promotion : Promotion)
  | written (op : Store.Operation)

namespace LedgerEntry

/-- What an entry makes of the store.  A promotion is one memory that is
remembered, under the id that the call has returned. -/
def apply (codec : Codec) (s : Store) : LedgerEntry → Option Store
  | promoted ⟨call, review, memoryId⟩ =>
      match review.report.decision.promoting, review.axes with
      | some decision, .ok axes =>
          match s.rememberInTransaction codec call.memoryCall
              (promotedInput review.candidate.observed (review.consolidation decision) axes)
              axes with
          | .ok (t, id) => if id = memoryId then some t else none
          | .error _ => none
      | _, _ => none
  | written op => some ((s.perform codec op).toOption.getD s)

/-- The candidate that an entry promotes. -/
def candidateId : LedgerEntry → Option String
  | promoted promotion => some promotion.call.id
  | written _ => none

end LedgerEntry

/-! ## Operations on candidates -/

/-- An operation on candidates other than their consolidation. -/
inductive CandidateOperation where
  | propose (input : ObservationCandidateInput) (reviewer : Reviewer) (id : String) (now : Moment)
  | edit (id title content : String) (reviewer : Reviewer) (now : Moment)
  | setWorking (id : String) (reviewer : Reviewer) (now : String)
  | cancel (id : String) (reviewer : Reviewer) (now : String)
  | redact (id : String) (reviewer : Reviewer) (now : String)
  | retry (id : String) (reviewer : Reviewer) (now : Moment)
  | pause (now : String)
  | resume (now : String)
  | expire (now : String)

def CandidateStore.operate (codec : ConsolidationCodec) (s : CandidateStore) :
    CandidateOperation → Except String CandidateStore
  | .propose input reviewer id now => s.proposeMemoryCandidate codec input reviewer id now
  | .edit id title content reviewer now =>
      s.editMemoryCandidateScoped codec id title content reviewer now
  | .setWorking id reviewer now => s.setMemoryCandidateWorkingScoped codec id reviewer now
  | .cancel id reviewer now => s.cancelMemoryCandidateScoped id reviewer now
  | .redact id reviewer now => s.redactMemoryCandidateScoped id reviewer now
  | .retry id reviewer now => s.retryMemoryCandidateScoped codec id reviewer now
  | .pause now => .ok (s.pauseMemoryConsolidation now)
  | .resume now => .ok (s.resumeMemoryConsolidation now)
  | .expire now => .ok (s.expireMemoryCandidates codec now)

/-! ## Calls in progress -/

/-- The last access of a call, with what it has read so far. -/
inductive ConsolidateStage where
  | begun
  | expired
  | read (candidate : MemoryCandidate)
  | expiredAgain (candidate : MemoryCandidate)
  | readAgain (candidate : MemoryCandidate) (seen : Table MemoryCandidate.id)
  | reviewed (review : Review)
  | scheduled (review : Review) (jobId : String)
  | refused (jobId : String) (nextAttempt : ℕ)

/-- The store and the calls in progress; the ledger is kept for the proofs only. -/
structure Desk where
  store : CandidateStore
  calls : ℕ → Option (ConsolidateCall × ConsolidateStage)
  ledger : List LedgerEntry

/-- What happens next: an access of a call, its end, or something else. -/
inductive DeskEvent where
  | begin (n : ℕ) (call : ConsolidateCall)
  | proceed (n : ℕ)
  | leave (n : ℕ)
  | operate (op : CandidateOperation)
  | write (op : Store.Operation)

/-- Writes of the store do not promote a candidate behind the back of the calls. -/
def DeskEvent.Apart : DeskEvent → Prop
  | write (.promote _ _ _) => False
  | _ => True

namespace Desk

def start (store : Store) : Desk := ⟨.new store, fun _ ↦ none, []⟩

/-- The store after an access, and where its call is then. -/
def move (w : Desk) (s : CandidateStore) (n : ℕ)
    (next : Option (ConsolidateCall × ConsolidateStage)) : Desk :=
  { w with store := s, calls := Function.update w.calls n next }

/-- The entries of a promotion transaction that has ended. -/
def entries (call : ConsolidateCall) (review : Review) (outcome : ConsolidationOutcome) :
    List LedgerEntry :=
  outcome.memoryId.toList.map fun memoryId ↦ .promoted ⟨call, review, memoryId⟩

/-- The next access of a call.  The classification reads the candidate and the
memories one after the other. -/
def proceed (codec : ConsolidationCodec) (w : Desk) (n : ℕ) (call : ConsolidateCall) :
    ConsolidateStage → Desk
  | .begun =>
      match call.policy.validate with
      | .error _ => w.move w.store n none
      | .ok () =>
          w.move (w.store.expireMemoryCandidates codec call.expiredAt) n (some (call, .expired))
  | .expired =>
      match w.store.readCandidate call.id call.reviewer with
      | .error _ => w.move w.store n none
      | .ok candidate => w.move w.store n (some (call, .read candidate))
  | .read candidate =>
      w.move (w.store.expireMemoryCandidates codec call.classifiedAt.text) n
        (some (call, .expiredAgain candidate))
  | .expiredAgain candidate =>
      w.move w.store n (some (call, .readAgain candidate w.store.candidates))
  | .readAgain candidate seen =>
      let read : CandidateStore := { w.store with candidates := seen }
      match read.reviewCandidate codec call candidate with
      | .error _ => w.move w.store n none
      | .ok review => w.move w.store n (some (call, .reviewed review))
  | .reviewed review =>
      match w.store.schedule codec call review with
      | .error _ => w.move w.store n none
      | .ok (s, .finished _) => w.move s n none
      | .ok (s, .scheduled jobId) => w.move s n (some (call, .scheduled review jobId))
  | .scheduled review jobId =>
      match w.store.promote codec call review jobId with
      | .error _ => w.move w.store n none
      | .ok (s, .finished outcome) =>
          Desk.move { w with ledger := w.ledger ++ entries call review outcome } s n none
      | .ok (s, .refused nextAttempt) => w.move s n (some (call, .refused jobId nextAttempt))
  | .refused jobId nextAttempt => w.move (w.store.recordFailure call jobId nextAttempt) n none

/-- One event.  An operation that fails changes nothing. -/
def next (codec : ConsolidationCodec) (w : Desk) : DeskEvent → Desk
  | .begin n call => w.move w.store n (some (call, .begun))
  | .proceed n => (w.calls n).elim w fun p ↦ w.proceed codec n p.1 p.2
  | .leave n => w.move w.store n none
  | .operate op => { w with store := (w.store.operate codec op).toOption.getD w.store }
  | .write op =>
      { w with
        store := { w.store with
          store := (w.store.store.perform codec.toCodec op).toOption.getD w.store.store }
        ledger := w.ledger ++ [.written op] }

/-- A run in which nothing is promoted outside of the calls. -/
abbrev Run (codec : ConsolidationCodec) : Desk → Desk → Prop :=
  Transition.Run (fun w event w' ↦ w.next codec event = w') fun _ event ↦ event.Apart

/-- The candidates that were promoted, in order. -/
def promotedIds (w : Desk) : List String := w.ledger.filterMap LedgerEntry.candidateId

end Desk

/-! ## What promotes nothing -/

namespace CandidateStore

variable {codec : ConsolidationCodec} {s t u : CandidateStore} {call : ConsolidateCall}
  {review : Review} {id : String}

/-- A candidate that is accepted. -/
def Accepted (s : CandidateStore) (id : String) : Prop :=
  ∃ row, s.candidates.get id = some row ∧ row.status = "accepted"

/-- Rows follow their old ones, and neither the store nor what is accepted has
changed. -/
structure Unpromoted (s t : CandidateStore) : Prop extends Evolves s t where
  store : t.store = s.store
  accepted : ∀ id, t.Accepted id → s.Accepted id

theorem Unpromoted.refl (s : CandidateStore) : Unpromoted s s :=
  ⟨.refl s, rfl, fun _ h ↦ h⟩

theorem Accepted.of_evolves (hevolves : Evolves s t) (h : s.Accepted id) : t.Accepted id := by
  obtain ⟨row, hrow, haccepted⟩ := h
  obtain ⟨new, hnew, hfollows⟩ := hevolves.candidate id row hrow
  refine ⟨new, hnew, ?_⟩
  rw [hfollows.final (by simp [haccepted]), haccepted]

theorem Unpromoted.accepted_iff (h : Unpromoted s t) : t.Accepted id ↔ s.Accepted id :=
  ⟨h.accepted id, .of_evolves h.toEvolves⟩

theorem Quiet.unpromoted (h : Quiet s t) (hstore : t.store = s.store) : Unpromoted s t := by
  refine ⟨h.toEvolves, hstore, fun id haccepted ↦ ?_⟩
  obtain ⟨row, hrow, hstatus⟩ := haccepted
  exact h.accepted id row hrow hstatus

theorem unpromoted_expire {now : String} : Unpromoted s (s.expireMemoryCandidates codec now) :=
  quiet_expire.unpromoted rfl

theorem Schedules.unpromoted (h : Schedules codec call review s t) : Unpromoted s t := by
  refine ⟨h.evolves, h.store, fun id haccepted ↦ ?_⟩
  rw [Accepted, h.candidates] at haccepted
  exact haccepted

theorem unpromoted_updateJobs {p : ConsolidationJob → Bool} {f : JobState → JobState} :
    Unpromoted s (s.updateJobs p f) :=
  ⟨evolves_updateJobs, rfl, fun _ h ↦ h⟩

/-- A candidate is closed as something else than accepted. -/
theorem Closes.unpromoted {jobId status : String} {jobStatus : JobStatus}
    (h : Closes s t id jobId status jobStatus) (hstore : t.store = s.store)
    (hstatus : status ≠ "accepted") : Unpromoted s t := by
  refine ⟨h.evolves, hstore, fun id' haccepted ↦ ?_⟩
  obtain ⟨-, new, -, -, -, hnew, hcandidates⟩ := h.candidate
  obtain ⟨row, hrow, hrowstatus⟩ := haccepted
  rw [hcandidates] at hrow
  split_ifs at hrow with hid
  · obtain rfl := Option.some.inj hrow
    exact absurd (hnew.symm.trans hrowstatus) hstatus
  · exact ⟨row, hrow, hrowstatus⟩

theorem store_updatePending {g : MemoryCandidate → MemoryCandidate}
    (h : s.updatePending id g = some t) : t.store = s.store := by
  obtain ⟨_, -, -, rfl⟩ := Iff.mp updatePending_eq_some h
  rfl

theorem unpromoted_propose {input : ObservationCandidateInput} {reviewer : Reviewer}
    {now : Moment} (h : s.proposeMemoryCandidate codec input reviewer id now = .ok t) :
    Unpromoted s t := by
  rcases proposeMemoryCandidate_eq_ok h with rfl | ⟨valid, hfree, rfl⟩
  · exact unpromoted_expire
  · exact (quiet_expire.trans (quiet_put hfree hasAxes_proposedCandidate rfl)).unpromoted rfl

theorem unpromoted_edit {title content : String} {reviewer : Reviewer} {now : Moment}
    (h : s.editMemoryCandidateScoped codec id title content reviewer now = .ok t) :
    Unpromoted s t := by
  refine (steady_edit h).toQuiet.unpromoted ?_
  rw [editMemoryCandidateScoped] at h
  split at h
  · obtain rfl := Except.ok.inj h
    rfl
  · obtain ⟨_, -, h⟩ := Iff.mp Except.bind_ok_iff h
    obtain ⟨_, -, h⟩ := Iff.mp Except.bind_ok_iff h
    split at h
    · obtain rfl := Iff.mp Except.pure_ok_iff h
      rfl
    · rename_i edited hedited
      obtain rfl := Iff.mp Except.pure_ok_iff h
      have hstore := store_updatePending hedited
      exact hstore

theorem unpromoted_working {reviewer : Reviewer} {now : String}
    (h : s.setMemoryCandidateWorkingScoped codec id reviewer now = .ok t) : Unpromoted s t := by
  refine (steady_working h).toQuiet.unpromoted ?_
  rw [setMemoryCandidateWorkingScoped] at h
  split at h
  · obtain rfl := Except.ok.inj h
    rfl
  · obtain ⟨_, -, h⟩ := Iff.mp Except.bind_ok_iff h
    split at h
    · obtain rfl := Iff.mp Except.pure_ok_iff h
      rfl
    · rename_i changed hchanged
      obtain rfl := Iff.mp Except.pure_ok_iff h
      have hstore := store_updatePending hchanged
      exact hstore

theorem unpromoted_status {status now : String} {reviewer : Reviewer} {redact : Bool}
    (hstatus : status ≠ "accepted")
    (h : s.updateMemoryCandidateStatus id status reviewer redact now = .ok t) :
    Unpromoted s t := by
  refine (steady_status hstatus h).toQuiet.unpromoted ?_
  rw [updateMemoryCandidateStatus] at h
  split at h
  · obtain rfl := Except.ok.inj h
    rfl
  · split at h
    · obtain rfl := Except.ok.inj h
      rfl
    · obtain ⟨_, -, h⟩ := Iff.mp Except.bind_ok_iff h
      dsimp only at h
      split at h
      · obtain rfl := Iff.mp Except.pure_ok_iff h
        rfl
      · rename_i closed hclosed
        obtain rfl := Iff.mp Except.pure_ok_iff h
        have hstore := store_updatePending hclosed
        exact hstore

theorem unpromoted_retry {reviewer : Reviewer} {now : Moment}
    (h : s.retryMemoryCandidateScoped codec id reviewer now = .ok t) : Unpromoted s t := by
  rcases retryMemoryCandidateScoped_eq_ok h with ⟨-, rfl⟩ | ⟨job, -, rfl⟩
  · exact .refl t
  · exact unpromoted_updateJobs

/-- No operation on candidates promotes one. -/
theorem unpromoted_operate {op : CandidateOperation} (h : s.operate codec op = .ok t) :
    Unpromoted s t := by
  cases op with
  | propose input reviewer id now => exact unpromoted_propose h
  | edit id title content reviewer now => exact unpromoted_edit h
  | setWorking id reviewer now => exact unpromoted_working h
  | cancel id reviewer now => exact unpromoted_status (by decide) h
  | redact id reviewer now => exact unpromoted_status (by decide) h
  | retry id reviewer now => exact unpromoted_retry h
  | pause now =>
      obtain rfl := Except.ok.inj h
      exact steady_pause.toQuiet.unpromoted rfl
  | resume now =>
      obtain rfl := Except.ok.inj h
      exact steady_resume.toQuiet.unpromoted rfl
  | expire now =>
      obtain rfl := Except.ok.inj h
      exact unpromoted_expire

theorem unpromoted_getD {op : CandidateOperation} :
    Unpromoted s ((s.operate codec op).toOption.getD s) := by
  cases h : s.operate codec op with
  | error e => exact .refl s
  | ok t => exact unpromoted_operate h

/-- A write of the store leaves the candidates alone. -/
theorem evolves_store (s : CandidateStore) (store : Store) :
    Evolves s { s with store := store } := by
  refine ⟨fun _ old hold ↦ ⟨old, hold, rfl⟩, fun _ old hold ↦ ⟨old, hold, .refl old⟩, ?_⟩
  exact (Evolves.refl s).proposed

end CandidateStore

/-! ## Every event -/

/-- A call that goes on to promote is not to be reviewed. -/
def ConsolidateStage.Ready : ConsolidateStage → Prop
  | scheduled review _ => review.report.decision ≠ .review
  | _ => True

namespace Desk

variable {codec : ConsolidationCodec} {first : Store} {w w' : Desk} {s t : CandidateStore}
  {call : ConsolidateCall} {review : Review} {n : ℕ}
  {stage : Option (ConsolidateCall × ConsolidateStage)}

/-- The store is what the ledger makes of the first one, with each candidate
promoted once and accepted then. -/
structure Balanced (codec : ConsolidationCodec) (first : Store) (w : Desk) : Prop where
  replays : w.ledger.foldlM (LedgerEntry.apply codec.toCodec) first = some w.store.store
  once : w.promotedIds.Nodup
  accepted : ∀ id, w.store.Accepted id ↔ id ∈ w.promotedIds
  ready : ∀ n p, w.calls n = some p → p.2.Ready

theorem balanced_start (codec : ConsolidationCodec) (first : Store) :
    Balanced codec first (.start first) where
  replays := rfl
  once := List.nodup_nil
  accepted id := by
    constructor
    · rintro ⟨row, hrow, -⟩
      cases hrow
    · exact fun h ↦ absurd h List.not_mem_nil
  ready n p h := by cases h

theorem ready_move (h : ∀ n p, w.calls n = some p → p.2.Ready) (hready : ∀ p ∈ stage, p.2.Ready) :
    ∀ m p, (w.move s n stage).calls m = some p → p.2.Ready := by
  intro m p hcall
  change Function.update w.calls n stage m = some p at hcall
  rw [Function.update_apply] at hcall
  split_ifs at hcall with hm
  · exact hready p hcall
  · exact h m p hcall

/-- What promotes nothing and leaves the ledger alone. -/
theorem Balanced.keep (h : Balanced codec first w) (hs : w.store.Unpromoted w'.store)
    (hledger : w'.ledger = w.ledger) (hready : ∀ n p, w'.calls n = some p → p.2.Ready) :
    Balanced codec first w' := by
  have hids : w'.promotedIds = w.promotedIds :=
    congrArg (List.filterMap LedgerEntry.candidateId) hledger
  refine ⟨?_, hids.symm ▸ h.once, fun id ↦ ?_, hready⟩
  · rw [hledger, h.replays, hs.store]
  · rw [hids]
    exact hs.accepted_iff.trans (h.accepted id)

theorem Balanced.move (h : Balanced codec first w) (hs : w.store.Unpromoted s)
    (hready : ∀ p ∈ stage, p.2.Ready) :
    Balanced codec first (w.move s n stage) ∧ w.store.Evolves (w.move s n stage).store :=
  ⟨h.keep hs rfl (ready_move h.ready hready), hs.toEvolves⟩

/-- A promotion that is committed: its candidate was pending, so that it is not in
the ledger yet. -/
theorem Balanced.promote (h : Balanced codec first w) {jobId memoryId : String}
    (hremembers : CandidateStore.Remembers codec w.store call review (.ok (t.store, memoryId)))
    (hcloses : CandidateStore.Closes w.store t call.id jobId "accepted" .complete) :
    Balanced codec first (Desk.move
      { w with ledger := w.ledger ++ [.promoted ⟨call, review, memoryId⟩] } t n none) := by
  obtain ⟨row, new, hrow, hpending, -, hnew, hcandidates⟩ := hcloses.candidate
  have hids : (Desk.move { w with ledger := w.ledger ++ [.promoted ⟨call, review, memoryId⟩] }
      t n none).promotedIds = w.promotedIds ++ [call.id] := by
    change (w.ledger ++ [_]).filterMap LedgerEntry.candidateId = _
    rw [List.filterMap_append]
    rfl
  have hfresh : call.id ∉ w.promotedIds := by
    intro hmem
    obtain ⟨row', hrow', haccepted⟩ := (h.accepted call.id).mpr hmem
    obtain rfl : row' = row := Option.some.inj (hrow'.symm.trans hrow)
    rw [hpending] at haccepted
    exact absurd haccepted (by decide)
  refine ⟨?_, ?_, fun id ↦ ?_, ready_move h.ready (by simp)⟩
  · obtain ⟨decision, axes, hpromoting, haxes, hremember⟩ := hremembers
    change (w.ledger ++ [LedgerEntry.promoted ⟨call, review, memoryId⟩]).foldlM _ _ = _
    rw [List.foldlM_append, h.replays]
    simp [LedgerEntry.apply, hpromoting, haxes, hremember]
    rfl
  · rw [hids]
    refine List.nodup_append.mpr ⟨h.once, List.nodup_singleton _, fun a ha b hb hab ↦ ?_⟩
    refine hfresh ?_
    rw [← List.mem_singleton.mp hb, ← hab]
    exact ha
  · rw [hids, List.mem_append, List.mem_singleton, ← h.accepted id]
    change (∃ row, t.candidates.get id = some row ∧ row.status = "accepted") ↔ _
    rw [hcandidates]
    by_cases hid : id = call.id
    · simp [hid, hnew]
    · simp [hid, CandidateStore.Accepted]

/-- One access of a call. -/
theorem Balanced.proceed (h : Balanced codec first w) {stage : ConsolidateStage}
    (hcall : w.calls n = some (call, stage)) :
    Balanced codec first (w.proceed codec n call stage) ∧
      w.store.Evolves (w.proceed codec n call stage).store := by
  have hleave : Balanced codec first (w.move w.store n none) ∧
      w.store.Evolves (w.move w.store n none).store := h.move (.refl w.store) (by simp)
  cases stage with
  | begun =>
      rw [Desk.proceed]
      split
      · exact hleave
      · exact h.move CandidateStore.unpromoted_expire (by simp [ConsolidateStage.Ready])
  | expired =>
      rw [Desk.proceed]
      split
      · exact hleave
      · exact h.move (.refl w.store) (by simp [ConsolidateStage.Ready])
  | read candidate =>
      exact h.move CandidateStore.unpromoted_expire (by simp [ConsolidateStage.Ready])
  | expiredAgain candidate => exact h.move (.refl w.store) (by simp [ConsolidateStage.Ready])
  | readAgain candidate seen =>
      rw [Desk.proceed]
      dsimp only
      split
      · exact hleave
      · exact h.move (.refl w.store) (by simp [ConsolidateStage.Ready])
  | reviewed review =>
      rw [Desk.proceed]
      split
      · exact hleave
      · rename_i s outcome hschedule
        obtain ⟨hschedules, -⟩ := CandidateStore.schedule_eq_ok hschedule
        exact h.move hschedules.unpromoted (by simp)
      · rename_i s jobId hschedule
        obtain ⟨hschedules, hgoes⟩ := CandidateStore.schedule_eq_ok hschedule
        obtain ⟨-, -, hdecision⟩ := hgoes jobId rfl
        exact h.move hschedules.unpromoted (by simpa [ConsolidateStage.Ready] using hdecision)
  | scheduled review jobId =>
      have hdecision : review.report.decision ≠ .review := h.ready n _ hcall
      rw [Desk.proceed]
      split
      · exact hleave
      · rename_i s outcome hpromote
        rcases CandidateStore.promote_eq_ok hpromote hdecision with
          ⟨memoryId, nextAttempt, hremembers, hcloses, heq⟩ | ⟨e, job, -, -, -, -, heq⟩ |
          ⟨-, hstore, hcloses, nextAttempt, heq⟩
        · obtain rfl := Promoted.finished.inj heq
          exact ⟨h.promote hremembers hcloses, hcloses.evolves⟩
        · cases heq
        · obtain rfl := Promoted.finished.inj heq
          have hmove : Balanced codec first (w.move s n none) ∧
              w.store.Evolves (w.move s n none).store :=
            h.move (hcloses.unpromoted hstore (by decide)) (by simp)
          simpa [entries] using hmove
      · rename_i s nextAttempt hpromote
        rcases CandidateStore.promote_eq_ok hpromote hdecision with
          ⟨memoryId, nextAttempt, -, -, heq⟩ | ⟨e, job, -, rfl, -, -, -⟩ |
          ⟨-, -, -, nextAttempt, heq⟩
        · cases heq
        · exact h.move (.refl w.store) (by simp [ConsolidateStage.Ready])
        · cases heq
  | refused jobId nextAttempt => exact h.move CandidateStore.unpromoted_updateJobs (by simp)

/-- A write of the store is an entry of its own. -/
theorem Balanced.write (h : Balanced codec first w) (op : Store.Operation) :
    Balanced codec first (w.next codec (.write op)) := by
  have hids : (w.ledger ++ [LedgerEntry.written op]).filterMap LedgerEntry.candidateId =
      w.promotedIds := by
    rw [List.filterMap_append]
    exact List.append_nil _
  have hsame : (w.next codec (.write op)).promotedIds = w.promotedIds := hids
  refine ⟨?_, hsame.symm ▸ h.once, fun id ↦ ?_, h.ready⟩
  · change (w.ledger ++ [LedgerEntry.written op]).foldlM _ _ = _
    rw [List.foldlM_append, h.replays]
    rfl
  · rw [hsame]
    exact h.accepted id

/-- What one event preserves. -/
theorem Balanced.next (h : Balanced codec first w) (event : DeskEvent) :
    Balanced codec first (w.next codec event) ∧ w.store.Evolves (w.next codec event).store := by
  cases event with
  | begin n call => exact h.move (.refl w.store) (by simp [ConsolidateStage.Ready])
  | proceed n =>
      rw [Desk.next]
      cases hcall : w.calls n with
      | none => exact ⟨h, .refl w.store⟩
      | some p => exact h.proceed hcall
  | leave n => exact h.move (.refl w.store) (by simp)
  | operate op =>
      have hop : w.store.Unpromoted ((w.store.operate codec op).toOption.getD w.store) :=
        CandidateStore.unpromoted_getD
      exact ⟨h.keep hop rfl h.ready, hop.toEvolves⟩
  | write op => exact ⟨h.write op, CandidateStore.evolves_store w.store _⟩

theorem balanced_of_run (h : Run codec w w') (hw : Balanced codec first w) :
    Balanced codec first w' := by
  have hstep : ∀ (w : Desk) (event : DeskEvent) (w' : Desk), Balanced codec first w →
      event.Apart → w.next codec event = w' → Balanced codec first w' := by
    rintro w event w' hw - rfl
    exact (hw.next event).1
  exact Transition.Run.preserves hstep h hw

theorem evolves_of_run (h : Run codec w w') (hw : Balanced codec first w) :
    w.store.Evolves w'.store := by
  refine @Transition.Run.relates Desk DeskEvent _ _ (Balanced codec first)
    (fun w w' ↦ w.store.Evolves w'.store) ?_ ?_ ?_ ?_ w w' h hw
  · exact fun w ↦ .refl w.store
  · exact fun _ _ _ ↦ .trans
  · rintro w event w' hw - rfl
    exact (hw.next event).1
  · rintro w event w' hw - rfl
    exact (hw.next event).2

/-- In every interleaving of consolidations, operations on candidates and writes
of the store, the store is what the writes and one memory for each promotion
make of the first one.  A candidate is promoted at most once, and it is accepted
exactly when it has been; once it is no longer pending its status stays, and it
is not promoted later. -/
theorem promoted_once (hrun : Run codec (.start first) w) (hlater : Run codec w w') :
    w.ledger.foldlM (LedgerEntry.apply codec.toCodec) first = some w.store.store ∧
      w.promotedIds.Nodup ∧ (∀ id, w.store.Accepted id ↔ id ∈ w.promotedIds) ∧
      ∀ id row, w.store.candidates.get id = some row → row.status ≠ "pending" →
        ∃ new, w'.store.candidates.get id = some new ∧ new.status = row.status ∧
          (id ∈ w'.promotedIds ↔ row.status = "accepted") := by
  have hw := balanced_of_run hrun (balanced_start codec first)
  have hw' := balanced_of_run hlater hw
  refine ⟨hw.replays, hw.once, hw.accepted, fun id row hrow hclosed ↦ ?_⟩
  obtain ⟨new, hnew, hfollows⟩ := (evolves_of_run hlater hw).candidate id row hrow
  have hstatus := hfollows.final hclosed
  refine ⟨new, hnew, hstatus, (hw'.accepted id).symm.trans ?_⟩
  simp [CandidateStore.Accepted, hnew, hstatus]

/-! ## Two calls for one candidate -/

/-- A proposal under no dedupe key. -/
def freeProposal : ObservationCandidateInput := { Worker.retiredProposal with dedupeKey := none }

def approval (jobId memoryId : String) : ConsolidateCall :=
  { Worker.approvingCall jobId with memoryId := memoryId }

/-- Two calls read the same candidate, and both go on to promote it. -/
def bothApprove : List DeskEvent :=
  [.operate (.propose freeProposal Worker.owner "c1" Worker.firstMoment),
    .begin 0 (approval "j1" "m1"), .begin 1 (approval "j2" "m2")] ++
    (List.replicate 7 [DeskEvent.proceed 0, .proceed 1]).flatten

theorem promoted_once_both : ∃ w : Desk, w.promotedIds = ["c1"] ∧ w.promotedIds.Nodup ∧
    ∀ id, w.store.Accepted id ↔ id ∈ w.promotedIds := by
  have hids : (bothApprove.foldl (Desk.next .sample)
      (.start (Store.adopted none))).promotedIds = ["c1"] := by
    decide +kernel
  have hrun : Run .sample (.start (Store.adopted none))
      (bothApprove.foldl (Desk.next .sample) (.start (Store.adopted none))) := by
    refine Transition.Run.of_along (fun _ _ ↦ rfl) ?_
    simp [Transition.Along, bothApprove, DeskEvent.Apart, List.replicate]
  obtain ⟨-, honce, haccepted, -⟩ := promoted_once hrun (Transition.Run.refl _)
  exact ⟨_, hids, honce, haccepted⟩

end Desk

end Cortana
