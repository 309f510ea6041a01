import Cortana.Consolidation.Engine

/-!
# What the operations on candidates can change

A candidate that is no longer pending stays as it is, a closed job is opened
again by a retry or by a failed promotion only, and a job that stays open
belongs to a candidate that was not changed.
-/

namespace Cortana

/-! ## Rows over time -/

/-- What every later row of a candidate has in common with it. -/
structure MemoryCandidate.Follows (old new : MemoryCandidate) : Prop where
  contentType : new.contentType = old.contentType
  scope : new.scope = old.scope
  retentionTier : new.retentionTier = old.retentionTier ∨ new.retentionTier = "working"
  final : old.status ≠ "pending" → new.status = old.status

theorem MemoryCandidate.Follows.refl (c : MemoryCandidate) : c.Follows c :=
  ⟨rfl, rfl, Or.inl rfl, fun _ ↦ rfl⟩

theorem MemoryCandidate.Follows.trans {a b c : MemoryCandidate} (hab : a.Follows b)
    (hbc : b.Follows c) : a.Follows c where
  contentType := hbc.contentType.trans hab.contentType
  scope := hbc.scope.trans hab.scope
  retentionTier := by
    rcases hbc.retentionTier with h | h
    · rcases hab.retentionTier with h' | h'
      · exact Or.inl (h.trans h')
      · exact Or.inr (h.trans h')
    · exact Or.inr h
  final h := by
    have hb := hab.final h
    exact (hbc.final (hb ▸ h)).trans hb

/-- A candidate says the same as another one. -/
def MemoryCandidate.Agrees (a b : MemoryCandidate) : Prop :=
  a.title = b.title ∧ a.content = b.content ∧ a.retentionTier = b.retentionTier

/-- The axes of a candidate are written as they are parsed. -/
structure MemoryCandidate.HasAxes (c : MemoryCandidate) : Prop where
  contentType : ∃ kind : MemoryContentType, c.contentType = kind.asStr
  retentionTier : ∃ tier : MemoryRetentionTier, c.retentionTier = tier.asStr
  scope : ∃ scope : MemoryScope, c.scope = scope.asStr

theorem MemoryCandidate.HasAxes.follows {old new : MemoryCandidate} (h : old.HasAxes)
    (hfollows : old.Follows new) : new.HasAxes where
  contentType := hfollows.contentType ▸ h.contentType
  retentionTier := by
    rcases hfollows.retentionTier with htier | htier
    · exact htier ▸ h.retentionTier
    · exact ⟨.working, htier⟩
  scope := hfollows.scope ▸ h.scope

namespace CandidateStore

variable {s t u : CandidateStore}

/-- Rows stay, jobs keep their candidate and policy. -/
structure Evolves (s t : CandidateStore) : Prop where
  job : ∀ id old, s.jobs.get id = some old →
    ∃ job, t.jobs.get id = some job ∧ job.candidateId = old.candidateId
  candidate : ∀ id old, s.candidates.get id = some old →
    ∃ new, t.candidates.get id = some new ∧ old.Follows new
  proposed : ∀ id new, s.candidates.get id = none → t.candidates.get id = some new → new.HasAxes

/-- Moreover nothing is accepted or completed. -/
structure Quiet (s t : CandidateStore) : Prop extends Evolves s t where
  accepted : ∀ id new, t.candidates.get id = some new → new.status = "accepted" →
    ∃ old, s.candidates.get id = some old ∧ old.status = "accepted"
  complete : ∀ id job, t.jobs.get id = some job → job.status = .complete →
    ∃ old, s.jobs.get id = some old ∧ old.status = .complete

/-- An open job of a pending candidate was open before, and its candidate says
what it said. -/
def Covers (s t : CandidateStore) : Prop :=
  ∀ id old job row, s.jobs.get id = some old → t.jobs.get id = some job →
    job.status.active = true → t.candidates.get job.candidateId = some row →
    row.status = "pending" → old.status.active = true ∧
      ∃ before, s.candidates.get job.candidateId = some before ∧ before.status = "pending" ∧
        row.Agrees before

theorem Evolves.refl (s : CandidateStore) : Evolves s s where
  job _ old h := ⟨old, h, rfl⟩
  candidate _ old h := ⟨old, h, .refl old⟩
  proposed _ new hnone hnew := by simp [hnone] at hnew

theorem Evolves.trans (hst : Evolves s t) (htu : Evolves t u) : Evolves s u where
  job id old h := by
    obtain ⟨mid, hmid, hcandidate⟩ := hst.job id old h
    obtain ⟨job, hjob, hcandidate'⟩ := htu.job id mid hmid
    exact ⟨job, hjob, hcandidate'.trans hcandidate⟩
  candidate id old h := by
    obtain ⟨mid, hmid, hfollows⟩ := hst.candidate id old h
    obtain ⟨new, hnew, hfollows'⟩ := htu.candidate id mid hmid
    exact ⟨new, hnew, hfollows.trans hfollows'⟩
  proposed id new hnone hnew := by
    cases hmid : t.candidates.get id with
    | none => exact htu.proposed id new hmid hnew
    | some mid =>
        obtain ⟨new', hnew', hfollows⟩ := htu.candidate id mid hmid
        obtain rfl : new' = new := by simpa [hnew'] using hnew
        exact (hst.proposed id mid hnone hmid).follows hfollows

theorem Quiet.refl (s : CandidateStore) : Quiet s s where
  toEvolves := .refl s
  accepted _ new h haccepted := ⟨new, h, haccepted⟩
  complete _ job h hcomplete := ⟨job, h, hcomplete⟩

theorem Quiet.trans (hst : Quiet s t) (htu : Quiet t u) : Quiet s u where
  toEvolves := hst.toEvolves.trans htu.toEvolves
  accepted id new h haccepted := by
    obtain ⟨mid, hmid, haccepted⟩ := htu.accepted id new h haccepted
    exact hst.accepted id mid hmid haccepted
  complete id job h hcomplete := by
    obtain ⟨mid, hmid, hcomplete⟩ := htu.complete id job h hcomplete
    exact hst.complete id mid hmid hcomplete

theorem Covers.refl (s : CandidateStore) : Covers s s := by
  intro id old job row hold hjob hactive hrow hpending
  obtain rfl : old = job := Option.some.inj (hold.symm.trans hjob)
  exact ⟨hactive, row, hrow, hpending, rfl, rfl, rfl⟩

theorem Covers.trans (hevolves : Evolves s t) (hevolves' : Evolves t u) (hst : Covers s t)
    (htu : Covers t u) : Covers s u := by
  intro id old job row hold hjob hactive hrow hpending
  obtain ⟨mid, hmid, -⟩ := hevolves.job id old hold
  obtain ⟨job', hjob', hcandidate⟩ := hevolves'.job id mid hmid
  obtain rfl : job' = job := Option.some.inj (hjob'.symm.trans hjob)
  obtain ⟨hmidactive, between, hbetween, hpending', hagrees⟩ :=
    htu id mid job' row hmid hjob hactive hrow hpending
  rw [hcandidate] at hbetween
  obtain ⟨holdactive, before, hbefore, hpending'', hagrees'⟩ :=
    hst id old mid between hold hmid hmidactive hbetween hpending'
  refine ⟨holdactive, before, hcandidate ▸ hbefore, hpending'', ?_⟩
  exact ⟨hagrees.1.trans hagrees'.1, hagrees.2.1.trans hagrees'.2.1,
    hagrees.2.2.trans hagrees'.2.2⟩

/-- Nothing is accepted, and no closed job is opened again. -/
structure Steady (s t : CandidateStore) : Prop extends Quiet s t where
  covers : Covers s t

theorem Steady.refl (s : CandidateStore) : Steady s s := ⟨.refl s, .refl s⟩

theorem Steady.trans (hst : Steady s t) (htu : Steady t u) : Steady s u :=
  ⟨hst.toQuiet.trans htu.toQuiet,
    Covers.trans hst.toEvolves htu.toEvolves hst.covers htu.covers⟩

/-! ## Updates -/

section Updates

variable {p : ConsolidationJob → Bool} {f : JobState → JobState} {id : String}

@[simp] theorem updateJobs_store : (s.updateJobs p f).store = s.store := rfl

@[simp] theorem updateJobs_candidates : (s.updateJobs p f).candidates = s.candidates := rfl

theorem get_updateJobs :
    (s.updateJobs p f).jobs.get id = (s.jobs.get id).map (ConsolidationJob.updateIf p f) :=
  Table.get_modify _ _ (ConsolidationJob.id_updateIf p f) _

theorem status_updateIf {job : ConsolidationJob} : (job.updateIf p f).status =
    if p job then (f job.toJobState).status else job.status := by
  rw [ConsolidationJob.updateIf]
  split <;> rfl

theorem evolves_updateJobs : Evolves s (s.updateJobs p f) where
  job id old h := by
    rw [get_updateJobs, h]
    exact ⟨old.updateIf p f, rfl, rfl⟩
  candidate id old h := ⟨old, h, .refl old⟩
  proposed id new hnone hnew := by
    rw [updateJobs_candidates, hnone] at hnew
    cases hnew

theorem quiet_updateJobs (hf : ∀ job : ConsolidationJob, p job = true →
    (f job.toJobState).status = .complete → job.status = .complete) :
    Quiet s (s.updateJobs p f) where
  toEvolves := evolves_updateJobs
  accepted id new h haccepted := ⟨new, h, haccepted⟩
  complete id job h hcomplete := by
    rw [get_updateJobs] at h
    obtain ⟨old, hold, rfl⟩ := Option.map_eq_some_iff.mp h
    refine ⟨old, hold, ?_⟩
    rw [status_updateIf] at hcomplete
    split at hcomplete
    · exact hf old ‹_› hcomplete
    · exact hcomplete

/-- An update that opens no closed job. -/
theorem covers_updateJobs (hf : ∀ job : ConsolidationJob, p job = true →
    (f job.toJobState).status.active = true → job.status.active = true) :
    Covers s (s.updateJobs p f) := by
  intro id old job row hold hjob hactive hrow hpending
  rw [get_updateJobs, hold] at hjob
  obtain rfl := Option.some.inj hjob
  refine ⟨?_, row, hrow, hpending, rfl, rfl, rfl⟩
  rw [status_updateIf] at hactive
  split at hactive
  · exact hf old ‹_› hactive
  · exact hactive

theorem updatePending_eq_some {g : MemoryCandidate → MemoryCandidate} :
    s.updatePending id g = some t ↔ ∃ c, s.candidates.get id = some c ∧ c.status = "pending" ∧
      { s with candidates := s.candidates.put (g c) } = t := by
  rw [updatePending]
  cases s.candidates.get id with
  | none => simp
  | some c => simp

theorem get_candidates_expire {codec : ConsolidationCodec} {now : String} :
    (s.expireMemoryCandidates codec now).candidates.get id = (s.candidates.get id).map fun c ↦
      if overdue codec now c then { c with status := "expired", updatedAt := now } else c :=
  Table.get_modify _ _ (fun c ↦ by split <;> rfl) _

/-- The row after the update of a pending candidate. -/
theorem get_put_updated {g : MemoryCandidate → MemoryCandidate} {c : MemoryCandidate}
    (hid : (g c).id = c.id) (hc : s.candidates.get id = some c) (id' : String) :
    (s.candidates.put (g c)).get id' = if id' = id then some (g c) else s.candidates.get id' := by
  rw [Table.get_put, hid, Table.key_of_get hc]

theorem evolves_updatePending {g : MemoryCandidate → MemoryCandidate}
    (hid : ∀ c : MemoryCandidate, (g c).id = c.id) (hfollows : ∀ c : MemoryCandidate, c.status = "pending" → c.Follows (g c))
    (h : s.updatePending id g = some t) : Evolves s t := by
  obtain ⟨c, hc, hpending, rfl⟩ := Iff.mp updatePending_eq_some h
  refine ⟨fun id' old hold ↦ ⟨old, hold, rfl⟩, fun id' old hold ↦ ?_, fun id' new hnone hnew ↦ ?_⟩
  · rw [get_put_updated (hid c) hc]
    by_cases hid' : id' = id
    · subst hid'
      obtain rfl : c = old := Option.some.inj (hc.symm.trans hold)
      exact ⟨g c, if_pos rfl, hfollows c hpending⟩
    · exact ⟨old, (if_neg hid').trans hold, .refl old⟩
  · rw [get_put_updated (hid c) hc] at hnew
    by_cases hid' : id' = id
    · rw [hid', hc] at hnone
      cases hnone
    · rw [if_neg hid', hnone] at hnew
      cases hnew

theorem quiet_updatePending {g : MemoryCandidate → MemoryCandidate}
    (hid : ∀ c : MemoryCandidate, (g c).id = c.id) (hfollows : ∀ c : MemoryCandidate, c.status = "pending" → c.Follows (g c))
    (hstatus : ∀ c : MemoryCandidate, c.status = "pending" → (g c).status ≠ "accepted")
    (h : s.updatePending id g = some t) : Quiet s t := by
  refine ⟨evolves_updatePending hid hfollows h, ?_, ?_⟩
  · obtain ⟨c, hc, hpending, rfl⟩ := Iff.mp updatePending_eq_some h
    intro id' new hnew haccepted
    rw [get_put_updated (hid c) hc] at hnew
    by_cases hid' : id' = id
    · rw [if_pos hid'] at hnew
      exact absurd (Option.some.inj hnew ▸ haccepted) (hstatus c hpending)
    · exact ⟨new, (if_neg hid').symm.trans hnew, haccepted⟩
  · obtain ⟨c, hc, hpending, rfl⟩ := Iff.mp updatePending_eq_some h
    exact fun id' job hjob hcomplete ↦ ⟨job, hjob, hcomplete⟩

theorem quiet_cancelJobs {e now : String} : Quiet s (s.cancelJobs id e now) :=
  quiet_updateJobs fun _ _ h ↦ by cases h

/-- A candidate is changed and its open jobs are closed. -/
theorem covers_cancelJobs {g : MemoryCandidate → MemoryCandidate} {e now : String}
    (hid : ∀ c : MemoryCandidate, (g c).id = c.id) (h : s.updatePending id g = some t) :
    Covers s (t.cancelJobs id e now) := by
  obtain ⟨c, hc, hpending, rfl⟩ := Iff.mp updatePending_eq_some h
  intro id' old job row hold hjob hactive hrow hrowpending
  rw [cancelJobs, get_updateJobs] at hjob
  change (s.jobs.get id').map _ = _ at hjob
  rw [hold] at hjob
  obtain rfl := Option.some.inj hjob
  rw [status_updateIf] at hactive
  split at hactive
  · cases hactive
  · rename_i hopen
    -- The job is open, so that it belongs to another candidate.
    have hother : old.candidateId ≠ id := by
      intro heq
      exact hopen (by simp [heq, hactive])
    refine ⟨hactive, row, ?_, hrowpending, rfl, rfl, rfl⟩
    change (s.candidates.put (g c)).get old.candidateId = some row at hrow
    rw [get_put_updated (hid c) hc, if_neg hother] at hrow
    exact hrow

end Updates

/-! ## Operations -/

section Operations

variable {codec : ConsolidationCodec} {id : String} {reviewer : Reviewer}

theorem quiet_expire {now : String} : Quiet s (s.expireMemoryCandidates codec now) := by
  refine ⟨⟨fun id old hold ↦ ?_, fun id old hold ↦ ?_, fun id new hnone hnew ↦ ?_⟩,
    fun id new hnew haccepted ↦ ?_, fun id job hjob hcomplete ↦ ?_⟩
  · exact evolves_updateJobs.job id old hold
  · rw [get_candidates_expire, hold]
    refine ⟨_, rfl, ?_⟩
    dsimp only
    split
    · rename_i hoverdue
      have hpending : old.status = "pending" := by
        rw [overdue] at hoverdue
        exact (of_decide_eq_true hoverdue).1
      exact ⟨rfl, rfl, Or.inl rfl, fun h ↦ absurd hpending h⟩
    · exact .refl old
  · rw [get_candidates_expire, hnone] at hnew
    cases hnew
  · rw [get_candidates_expire] at hnew
    obtain ⟨old, hold, rfl⟩ := Option.map_eq_some_iff.mp hnew
    refine ⟨old, hold, ?_⟩
    split at haccepted
    · simp at haccepted
    · exact haccepted
  · exact (quiet_updateJobs fun _ _ h ↦ by cases h).complete id job hjob hcomplete

theorem get_jobs_expire_eq_none {now : String} :
    (s.expireMemoryCandidates codec now).jobs.get id = none ↔ s.jobs.get id = none := by
  change (updateJobs s _ _).jobs.get id = none ↔ _
  rw [get_updateJobs, Option.map_eq_none_iff]

/-- The open jobs of overdue candidates are closed with them. -/
theorem job_of_expire {now : String} {job : ConsolidationJob}
    (h : (s.expireMemoryCandidates codec now).jobs.get id = some job) :
    ∃ old, s.jobs.get id = some old ∧ job.candidateId = old.candidateId ∧
      job.attempts = old.attempts ∧ (old.status.active = false → job.status = old.status) ∧
      (job.status = .deadLetter → old.status = .deadLetter ∨
        ∃ row, (s.expireMemoryCandidates codec now).candidates.get job.candidateId = some row ∧
          row.status ≠ "pending") := by
  change (updateJobs s _ _).jobs.get id = some job at h
  rw [get_updateJobs] at h
  obtain ⟨old, hold, rfl⟩ := Option.map_eq_some_iff.mp h
  refine ⟨old, hold, rfl, ?_, fun hclosed ↦ ?_, fun hdead ↦ ?_⟩
  · rw [ConsolidationJob.updateIf]
    split <;> rfl
  · rw [status_updateIf, if_neg]
    simp [hclosed]
  · rw [status_updateIf] at hdead
    split at hdead
    · rename_i hoverdue
      obtain ⟨row, hrow, hrowoverdue⟩ := (Option.any_eq_true _ _).mp (of_decide_eq_true hoverdue).2
      refine Or.inr ⟨{ row with status := "expired", updatedAt := now }, ?_, by simp⟩
      change (s.expireMemoryCandidates codec now).candidates.get old.candidateId = _
      rw [get_candidates_expire, hrow]
      simp [hrowoverdue]
    · exact Or.inl hdead

theorem covers_expire {now : String} : Covers s (s.expireMemoryCandidates codec now) := by
  intro id old job row hold hjob hactive hrow hpending
  change (updateJobs s _ _).jobs.get id = some job at hjob
  rw [get_updateJobs, hold] at hjob
  obtain rfl := Option.some.inj hjob
  rw [status_updateIf] at hactive
  split at hactive
  · cases hactive
  · refine ⟨hactive, ?_⟩
    rw [get_candidates_expire] at hrow
    obtain ⟨before, hbefore, rfl⟩ := Option.map_eq_some_iff.mp hrow
    refine ⟨before, hbefore, ?_⟩
    split at hpending
    · simp at hpending
    · rename_i hcurrent
      rw [if_neg hcurrent]
      exact ⟨hpending, rfl, rfl, rfl⟩

/-- A proposal adds one pending candidate, or is the one that is there. -/
theorem proposeMemoryCandidate_eq_ok {input : ObservationCandidateInput} {now : Moment}
    (h : s.proposeMemoryCandidate codec input reviewer id now = .ok t) :
    t = s.expireMemoryCandidates codec now.text ∨
      ∃ valid, (s.expireMemoryCandidates codec now.text).candidates.get id = none ∧
        t = { s.expireMemoryCandidates codec now.text with
          candidates := (s.expireMemoryCandidates codec now.text).candidates.put
            (proposedCandidate id reviewer.principalId now.text input valid) } := by
  rw [proposeMemoryCandidate] at h
  obtain ⟨valid, -, h⟩ := Iff.mp Except.bind_ok_iff h
  obtain ⟨_, -, h⟩ := Iff.mp Except.bind_ok_iff h
  obtain ⟨_, -, h⟩ := Iff.mp Except.bind_ok_iff h
  obtain ⟨_, -, h⟩ := Iff.mp Except.bind_ok_iff h
  obtain ⟨_, -, h⟩ := Iff.mp Except.bind_ok_iff h
  obtain ⟨_, -, h⟩ := Iff.mp Except.bind_ok_iff h
  dsimp only at h
  split at h
  · obtain ⟨_, -, h⟩ := Iff.mp Except.bind_ok_iff h
    exact Or.inl (Iff.mp Except.pure_ok_iff h).symm
  · obtain ⟨_, -, h⟩ := Iff.mp Except.bind_ok_iff h
    obtain ⟨_, -, h⟩ := Iff.mp Except.bind_ok_iff h
    obtain ⟨_, hfresh, h⟩ := Iff.mp Except.bind_ok_iff h
    refine Or.inr ⟨valid, ?_, (Iff.mp Except.pure_ok_iff h).symm⟩
    exact Option.isNone_iff_eq_none.mp (Iff.mp Except.require_ok_iff hfresh)

theorem hasAxes_proposedCandidate {principalId now : String} {input : ObservationCandidateInput}
    {valid : ValidatedCandidate} :
    (proposedCandidate id principalId now input valid).HasAxes :=
  ⟨⟨valid.contentType, rfl⟩, ⟨valid.retentionTier, rfl⟩, ⟨valid.scope, rfl⟩⟩

/-- A new pending candidate. -/
theorem quiet_put {c : MemoryCandidate} (hfree : s.candidates.get c.id = none) (haxes : c.HasAxes)
    (hpending : c.status = "pending") :
    Quiet s { s with candidates := s.candidates.put c } := by
  have hget : ∀ id', (s.candidates.put c).get id' =
      if id' = c.id then some c else s.candidates.get id' := Table.get_put s.candidates c
  refine ⟨⟨fun id' old hold ↦ ⟨old, hold, rfl⟩, fun id' old hold ↦ ?_, fun id' new hnone hnew ↦ ?_⟩,
    fun id' new hnew haccepted ↦ ?_, fun id' job hjob hcomplete ↦ ⟨job, hjob, hcomplete⟩⟩
  · have hother : id' ≠ c.id := by
      rintro rfl
      rw [hfree] at hold
      cases hold
    exact ⟨old, by rw [hget, if_neg hother, hold], .refl old⟩
  · rw [hget] at hnew
    split at hnew
    · exact Option.some.inj hnew ▸ haxes
    · rw [hnone] at hnew
      cases hnew
  · rw [hget] at hnew
    split at hnew
    · rw [← Option.some.inj hnew, hpending] at haccepted
      simp at haccepted
    · exact ⟨new, hnew, haccepted⟩

theorem steady_expire {now : String} : Steady s (s.expireMemoryCandidates codec now) :=
  ⟨quiet_expire, covers_expire⟩

/-- The changes of a pending candidate that close its jobs: an edit, a change of
its tier, a cancellation or a redaction. -/
theorem steady_change {g : MemoryCandidate → MemoryCandidate} {e now : String}
    (hid : ∀ c : MemoryCandidate, (g c).id = c.id)
    (hfollows : ∀ c : MemoryCandidate, c.status = "pending" → c.Follows (g c))
    (hstatus : ∀ c : MemoryCandidate, c.status = "pending" → (g c).status ≠ "accepted")
    (h : s.updatePending id g = some t) : Steady s (t.cancelJobs id e now) :=
  ⟨(quiet_updatePending hid hfollows hstatus h).trans quiet_cancelJobs, covers_cancelJobs hid h⟩

theorem steady_edit {title content : String} {now : Moment}
    (h : s.editMemoryCandidateScoped codec id title content reviewer now = .ok t) :
    Steady s t := by
  rw [editMemoryCandidateScoped] at h
  split at h
  · obtain rfl := Except.ok.inj h
    exact steady_expire
  · obtain ⟨_, -, h⟩ := Iff.mp Except.bind_ok_iff h
    obtain ⟨_, -, h⟩ := Iff.mp Except.bind_ok_iff h
    split at h
    · obtain rfl := Iff.mp Except.pure_ok_iff h
      exact steady_expire
    · rename_i edited hedited
      obtain rfl := Iff.mp Except.pure_ok_iff h
      refine steady_expire.trans (steady_change ?_ ?_ ?_ hedited)
      · exact fun c ↦ rfl
      · exact fun c _ ↦ ⟨rfl, rfl, Or.inl rfl, fun _ ↦ rfl⟩
      · exact fun c hc ↦ by simp [hc]

theorem steady_working {now : String}
    (h : s.setMemoryCandidateWorkingScoped codec id reviewer now = .ok t) : Steady s t := by
  rw [setMemoryCandidateWorkingScoped] at h
  split at h
  · obtain rfl := Except.ok.inj h
    exact steady_expire
  · obtain ⟨_, -, h⟩ := Iff.mp Except.bind_ok_iff h
    split at h
    · obtain rfl := Iff.mp Except.pure_ok_iff h
      exact steady_expire
    · rename_i changed hchanged
      obtain rfl := Iff.mp Except.pure_ok_iff h
      refine steady_expire.trans (steady_change ?_ ?_ ?_ hchanged)
      · exact fun c ↦ rfl
      · exact fun c _ ↦ ⟨rfl, rfl, Or.inr rfl, fun _ ↦ rfl⟩
      · exact fun c hc ↦ by simp [hc]

theorem steady_status {status now : String} {redact : Bool} (hstatus : status ≠ "accepted")
    (h : s.updateMemoryCandidateStatus id status reviewer redact now = .ok t) : Steady s t := by
  rw [updateMemoryCandidateStatus] at h
  split at h
  · obtain rfl := Except.ok.inj h
    exact .refl s
  · split at h
    · obtain rfl := Except.ok.inj h
      exact .refl s
    · obtain ⟨_, -, h⟩ := Iff.mp Except.bind_ok_iff h
      dsimp only at h
      split at h
      · obtain rfl := Iff.mp Except.pure_ok_iff h
        exact .refl s
      · rename_i closed hclosed
        obtain rfl := Iff.mp Except.pure_ok_iff h
        refine steady_change (fun c ↦ ?_) (fun c hc ↦ ?_) (fun c _ ↦ ?_) hclosed
        · split <;> rfl
        · split <;> exact ⟨rfl, rfl, Or.inl rfl, fun h ↦ absurd hc h⟩
        · split <;> exact hstatus

/-- The gate does not matter for the rows. -/
theorem Steady.gated {flag : Bool} (h : Steady { s with paused := flag } t) : Steady s t :=
  ⟨⟨⟨h.job, h.candidate, h.proposed⟩, h.accepted, h.complete⟩, h.covers⟩

theorem steady_pause {now : String} : Steady s (s.pauseMemoryConsolidation now) := by
  refine Steady.gated ⟨quiet_updateJobs fun job _ h ↦ ?_, covers_updateJobs fun job hjob _ ↦ ?_⟩
  · cases h
  · rcases of_decide_eq_true hjob with h | h | h <;> rw [h] <;> rfl

theorem steady_resume {now : String} : Steady s (s.resumeMemoryConsolidation now) := by
  refine Steady.gated ⟨quiet_updateJobs fun job _ h ↦ ?_, covers_updateJobs fun job hjob _ ↦ ?_⟩
  · cases h
  · rw [of_decide_eq_true hjob]
    rfl

/-- A retry queues the job it picks again, if there is one. -/
theorem retryMemoryCandidateScoped_eq_ok {now : Moment}
    (h : s.retryMemoryCandidateScoped codec id reviewer now = .ok t) :
    (s.retriedJob id = none ∧ t = s) ∨ ∃ job, s.retriedJob id = some job ∧
      t = s.updateJobs (fun j ↦ j.id = job.id) fun j ↦
        { j with status := .queued, attempts := 0, lastError := none, updatedAt := now.text } := by
  rw [retryMemoryCandidateScoped] at h
  obtain ⟨_, -, h⟩ := Iff.mp Except.bind_ok_iff h
  split at h
  · cases h
  · obtain ⟨_, -, h⟩ := Iff.mp Except.bind_ok_iff h
    obtain ⟨_, -, h⟩ := Iff.mp Except.bind_ok_iff h
    obtain ⟨_, -, h⟩ := Iff.mp Except.bind_ok_iff h
    obtain ⟨_, -, h⟩ := Iff.mp Except.bind_ok_iff h
    split at h
    · rename_i hnone
      exact Or.inl ⟨hnone, (Iff.mp Except.pure_ok_iff h).symm⟩
    · rename_i job hjob
      exact Or.inr ⟨job, hjob, (Iff.mp Except.pure_ok_iff h).symm⟩

/-- The picked job is a stored one that was closed or waits for its next attempt. -/
theorem retriedJob_eq_some {job : ConsolidationJob} (h : s.retriedJob id = some job) :
    s.jobs.get job.id = some job ∧ job.candidateId = id ∧
      (job.status = .deadLetter ∨ job.status = .retry) := by
  rw [retriedJob] at h
  have hmem := (List.mem_insertionSort _).mp (List.mem_of_mem_head? h)
  obtain ⟨hrow, hpicked⟩ := List.mem_filter.mp hmem
  have hpicked' := of_decide_eq_true hpicked
  exact ⟨Iff.mpr Table.get_eq_some_iff ⟨hrow, rfl⟩, hpicked'.1, hpicked'.2⟩

end Operations

end CandidateStore

end Cortana
