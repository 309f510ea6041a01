import Cortana.Consolidation.Policy

/-!
# Candidates in conflict with a memory

The decision about a candidate is made from its best match alone.  It is not
retained against a memory it conflicts with exactly when no harmless match
stands before all conflicting ones, or when it would not be retained anyway.
-/

namespace Cortana

/-! ## The best match -/

theorem Match.precedes_total (a b : Match) : a.Precedes b ∨ b.Precedes a := by
  rcases lt_trichotomy a.similarity b.similarity with hlt | heq | hgt
  · exact Or.inr (Or.inl hlt)
  · rcases le_total a.memory.id b.memory.id with hle | hle
    · exact Or.inl (Or.inr ⟨heq.symm, hle⟩)
    · exact Or.inr (Or.inr ⟨heq, hle⟩)
  · exact Or.inl (Or.inl hgt)

theorem Match.precedes_trans (a b c : Match) (hab : a.Precedes b) (hbc : b.Precedes c) :
    a.Precedes c := by
  rcases hab with hab | ⟨hab, hid⟩
  · rcases hbc with hbc | ⟨hbc, -⟩
    · exact Or.inl (hbc.trans hab)
    · exact Or.inl (hbc ▸ hab)
  · rcases hbc with hbc | ⟨hbc, hid'⟩
    · exact Or.inl (hab ▸ hbc)
    · exact Or.inr ⟨hbc.trans hab, hid.trans hid'⟩

/-- The memory says what the candidate says, or does not conflict with it. -/
def Match.Harmless (m : Match) : Prop := m.exactText = true ∨ m.contradiction = false

/-- A harmless match stands before all matches that are not. -/
def Hidden (codec : Codec) (now : ℤ) (candidate : MemoryCandidate) (memories : List MemoryRecord) :
    Prop :=
  ∃ before best after, candidateMatches codec now candidate memories = before ++ best :: after ∧
    best.Harmless ∧ (∀ c ∈ before, ¬ c.Harmless → ¬ c.Precedes best) ∧
    ∀ c ∈ after, ¬ c.Harmless → best.Precedes c

/-- The policy would retain the candidate if it had no conflict. -/
def Admits (codec : Codec) (now : ℤ) (candidate : MemoryCandidate) (policy : ConsolidationPolicy)
    (context : PolicyContext) : Prop :=
  policy.enabled = true ∧ (codec.instant candidate.expiresAt).any (· ≤ now) = false ∧
    (codec.instant candidate.createdAt).any (· + daysSpan policy.candidateExpiryDays ≤ now) = false ∧
    candidate.sensitivity = "normal" ∧ context.sameScope = true ∧ belowFloor candidate = false ∧
    if realValue candidate.confidence < policy.autoRetainMinConfidence then
      context.explicitApproval = true
    else if candidate.retentionTier = "working" then
      policy.preferences.allowWorkingRetention = true ∧
        (context.explicitApproval = true ∨ policy.automaticRetentionReleaseAuthorized = true)
    else context.explicitApproval = true ∨
      (policy.autoRetainMinImportance ≤ realValue candidate.importance ∧
        policy.preferences.allowAutoRetain = true ∧
        policy.automaticRetentionReleaseAuthorized = true)

variable {codec : Codec} {now : ℤ} {candidate : MemoryCandidate} {policy : ConsolidationPolicy}
  {context : PolicyContext} {label : String}

/-! ## The cascades -/

section Gates

variable {c : Prop} [Decidable c] {v w : Verdict}

/-- A gate that stops the candidate. -/
theorem retains_gate (hv : v.decision.retains = false) :
    (if c then v else w).decision.retains = true ↔ ¬c ∧ w.decision.retains = true := by
  split <;> simp_all

/-- A gate that lets the candidate through. -/
theorem retains_pass (hv : v.decision.retains = true) :
    (if c then v else w).decision.retains = true ↔ c ∨ w.decision.retains = true := by
  split <;> simp_all

end Gates

/-- A label of a conflict is never retained without its approval. -/
theorem retains_of_conflict (hsupersession : context.explicitSupersession = false)
    (hlabel : label ∈ ["contradiction", "supersession"]) :
    (verdictFor codec now candidate label policy context).decision.retains = false := by
  rw [verdictFor]
  simp only [hsupersession, hlabel, Bool.false_eq_true, and_false, if_false, if_true]
  split_ifs <;> rfl

theorem retains_of_discard (hsupersession : context.explicitSupersession = false) :
    (verdictFor codec now candidate "discard" policy context).decision.retains = false := by
  rw [verdictFor]
  simp only [hsupersession, Bool.false_eq_true, and_false, if_false,
    ClassificationKind.asStr, if_true]
  split_ifs <;> rfl

/-- Under any other label the gates of the policy decide. -/
theorem retains_iff (hpending : candidate.status = "pending")
    (hconflict : label ∉ ["contradiction", "supersession"]) (hdiscard : label ≠ ClassificationKind.discard.asStr)
    (hlabel : candidate.retentionTier ≠ "working" →
      label ∈ ["new", "reinforcement", "semantic-duplicate", "exact-duplicate"])
    (hfloor : belowFloor candidate = false) :
    (verdictFor codec now candidate label policy context).decision.retains = true ↔
      Admits codec now candidate policy context := by
  have hsupersession : label ≠ "supersession" := by
    rintro rfl
    simp at hconflict
  rw [verdictFor, Admits, retains_gate rfl, retains_gate rfl, retains_gate rfl, retains_gate rfl,
    retains_gate rfl, retains_gate rfl, if_neg (fun h ↦ hsupersession h.1), if_neg hconflict,
    if_neg hdiscard]
  simp only [hpending, hfloor, Bool.not_eq_true', Bool.not_eq_false, Bool.not_eq_true, not_not,
    true_and]
  refine and_congr_right fun _ ↦ and_congr_right fun _ ↦ and_congr_right fun _ ↦
    and_congr_right fun _ ↦ and_congr_right fun _ ↦ ?_
  by_cases hlow : realValue candidate.confidence < policy.autoRetainMinConfidence
  · rw [if_pos hlow, if_pos hlow]
    cases context.explicitApproval <;> simp [ConsolidationDecision.retains]
  · rw [if_neg hlow, if_neg hlow, retains_gate rfl, retains_gate rfl, retains_pass rfl]
    by_cases hworking : candidate.retentionTier = "working"
    · simp only [hworking, true_and, true_or, if_true, and_true]
      cases policy.preferences.allowWorkingRetention <;> cases context.explicitApproval <;> simp
    · rw [retains_gate rfl, retains_pass rfl, retains_pass rfl, if_neg hworking]
      simp only [hworking, hlabel hworking, false_and, not_false_eq_true, true_and, false_or]
      cases context.explicitApproval <;> cases policy.preferences.allowAutoRetain <;>
        cases policy.automaticRetentionReleaseAuthorized <;> simp [ConsolidationDecision.retains]

/-! ## Against a conflicting memory -/

@[simp]
theorem classification_classificationReport (kind : ClassificationKind) (supporting : List String)
    (explanation : String) (confidence : ℚ) (action : ProposedAction) (ambiguity : Option String)
    (count : ℕ) :
    (classificationReport candidate kind supporting explanation confidence action ambiguity
      count).classification = kind.asStr := rfl

/-- The label of a best match that conflicts. -/
theorem label_of_conflict {best : Match} {count : ℕ} (hbest : ¬ best.Harmless) :
    (classifyMatch candidate best count).classification ∈ ["contradiction", "supersession"] := by
  rw [Match.Harmless, not_or, Bool.not_eq_false] at hbest
  rw [classifyMatch, if_neg hbest.1, if_pos hbest.2]
  split_ifs <;> simp [ClassificationKind.asStr]

/-- The label of a harmless best match is retained like a new candidate's. -/
theorem label_of_harmless (candidate : MemoryCandidate) {best : Match} (count : ℕ)
    (hbest : best.Harmless)
    (hsupersession : best.supersession = true → best.contradiction = true) :
    (classifyMatch candidate best count).classification ∉ ["contradiction", "supersession"] ∧
      (classifyMatch candidate best count).classification ≠ ClassificationKind.discard.asStr ∧
      (candidate.retentionTier ≠ "working" →
        (classifyMatch candidate best count).classification ∈
          ["new", "reinforcement", "semantic-duplicate", "exact-duplicate"]) := by
  rw [classifyMatch]
  by_cases hexact : best.exactText = true
  · simp [hexact, ClassificationKind.asStr]
  · have hcontradiction : best.contradiction = false := hbest.resolve_left hexact
    have hplain : best.supersession = false := by
      rw [← Bool.not_eq_true]
      intro htrue
      rw [hsupersession htrue] at hcontradiction
      cases hcontradiction
    simp only [hexact, hplain, hcontradiction, Bool.false_eq_true, if_false]
    split_ifs with hsimilar hworking
    · simp [ClassificationKind.asStr]
    · simp [ClassificationKind.asStr, hworking]
    · simp [ClassificationKind.asStr]

/-- A match of `candidateMatches` is a comparison with the candidate. -/
theorem supersession_of_mem {memories : List MemoryRecord} {m : Match}
    (h : m ∈ candidateMatches codec now candidate memories) (hsupersession : m.supersession = true) :
    m.contradiction = true := by
  obtain ⟨memory, -, rfl⟩ := List.mem_map.mp (List.mem_filter.mp h).1
  rw [compareWith] at hsupersession ⊢
  dsimp only at hsupersession ⊢
  rw [Bool.and_eq_true] at hsupersession
  exact hsupersession.1

/-- A pending candidate with an eligible memory that it conflicts with is
retained without an explicit supersession exactly when a harmless match hides
the conflict and the policy admits the candidate. -/
theorem conflict_retained_iff {codec : ConsolidationCodec} {now' : ℤ} {memories : List MemoryRecord}
    {m : MemoryRecord} (hpending : candidate.status = "pending") (hvalid : policy.validate = .ok ())
    (hsupersession : context.explicitSupersession = false) (hm : m ∈ memories)
    (heligible : eligible codec.toCodec now candidate m = true)
    (hconflict : polarityConflict candidate.text m.text = true ∨
      preferenceValueConflict candidate m (tokenSimilarity candidate.text m.text) = true) :
    ∃ report, evaluate codec now' candidate (classify codec.toCodec now candidate memories) policy
        context = .ok report ∧
      (report.decision ∉ [.autoRetain, .approve, .working] ↔
        ¬ (Hidden codec.toCodec now candidate memories ∧
          Admits codec.toCodec now' candidate policy context)) := by
  have hcontradiction : (compareWith candidate m).contradiction = true := by
    simpa [compareWith] using hconflict
  have hmem : compareWith candidate m ∈ candidateMatches codec.toCodec now candidate memories := by
    refine List.mem_filter.mpr ⟨List.mem_map_of_mem (List.mem_filter.mpr ⟨hm, heligible⟩), ?_⟩
    simp [Match.relevant, hcontradiction]
  have hretains : ∀ d : ConsolidationDecision,
      d ∉ [.autoRetain, .approve, .working] ↔ d.retains = false := by
    intro d
    cases d <;> decide
  obtain ⟨report, hreport, hdecision⟩ : ∃ report, evaluate codec now' candidate
      (classify codec.toCodec now candidate memories) policy context = .ok report ∧
        report.decision = (verdictFor codec.toCodec now' candidate
          (classify codec.toCodec now candidate memories).classification policy context).decision := by
    rw [evaluate, ConsolidationPolicy.identity, hvalid]
    exact ⟨_, rfl, rfl⟩
  refine ⟨report, hreport, ?_⟩
  rw [hretains, hdecision, Bool.eq_false_iff, not_iff_not]
  by_cases hfloor : belowFloor candidate = true
  · -- Below the floor the candidate is discarded, whatever it matches.
    have hlabel : (classify codec.toCodec now candidate memories).classification = "discard" := by
      rw [classify, if_neg (by simp [hpending]), if_pos hfloor]
      rfl
    have hnot : ¬ Admits codec.toCodec now' candidate policy context := by
      rintro ⟨-, -, -, -, -, hkept, -⟩
      rw [hfloor] at hkept
      cases hkept
    rw [hlabel, retains_of_discard hsupersession]
    simp [hnot]
  · have hfloor' : belowFloor candidate = false := Bool.eq_false_of_not_eq_true hfloor
    have hclassify : ∃ best count,
        ((candidateMatches codec.toCodec now candidate memories).insertionSort
          Match.Precedes).head? = some best ∧
        classify codec.toCodec now candidate memories = classifyMatch candidate best count := by
      cases hhead : ((candidateMatches codec.toCodec now candidate memories).insertionSort
          Match.Precedes).head? with
      | none =>
          have hempty := List.head?_eq_none_iff.mp hhead
          have hin := (List.mem_insertionSort Match.Precedes).mpr hmem
          rw [hempty] at hin
          cases hin
      | some best =>
          refine ⟨best, (memories.filter (eligible codec.toCodec now candidate)).length, rfl, ?_⟩
          rw [classify, if_neg (by simp [hpending]), if_neg hfloor, hhead]
    obtain ⟨best, count, hhead, hclassify⟩ := hclassify
    have hhidden : Hidden codec.toCodec now candidate memories ↔ best.Harmless := by
      rw [Hidden, ← List.head?_insertionSort_iff Match.precedes_total Match.precedes_trans, hhead]
      exact ⟨fun ⟨h, heq, hharmless⟩ ↦ Option.some.inj heq ▸ hharmless, fun h ↦ ⟨best, rfl, h⟩⟩
    rw [hclassify, hhidden]
    by_cases hharmless : best.Harmless
    · have hbest : best ∈ candidateMatches codec.toCodec now candidate memories :=
        (List.mem_insertionSort Match.Precedes).mp (List.mem_of_mem_head? hhead)
      obtain ⟨hconflicts, hdiscard, hlabel⟩ :=
        label_of_harmless candidate count hharmless (supersession_of_mem hbest)
      rw [retains_iff hpending hconflicts hdiscard hlabel hfloor']
      simp [hharmless]
    · rw [retains_of_conflict hsupersession (label_of_conflict hharmless)]
      simp [hharmless]

/-! ## A hidden conflict -/

/-- An approval that does not supersede anything. -/
def approval : PolicyContext where
  explicitApproval := true
  explicitSupersession := false
  sameScope := true

/-- A candidate of confidence and importance 1 that cannot expire soon. -/
def sampleCandidate : MemoryCandidate where
  id := "c1"
  observationKind := "explicit-remember"
  contentType := "semantic"
  retentionTier := "durable"
  scope := "principal"
  createdBy := "owner"
  project := "p"
  title := "Indentation"
  content := "always use tabs in the editor"
  source := "chat"
  sourceId := "s1"
  dedupeKey := none
  confidence := 0x3ff0000000000000
  importance := 0x3ff0000000000000
  sensitivity := "normal"
  status := "pending"
  acl := ["principal:owner"]
  provenance := .object []
  expiresAt := "2024-01-08T00:00:00Z"
  rejectionReason := none
  createdAt := "2024-01-01T00:00:00Z"
  updatedAt := "2024-01-01T00:00:00Z"

/-- A memory with the axes of the candidate. -/
def sampleMemory (id content : String) : MemoryRecord where
  id := id
  contentType := "semantic"
  retentionTier := "durable"
  scope := "principal"
  project := "p"
  title := "Indentation"
  content := content
  status := "active"
  acl := ["principal:owner"]
  validFrom := "2023-12-01T00:00:00Z"
  validUntil := none

def opposite : MemoryRecord := sampleMemory "m1" "never use tabs in the editor please"

def paraphrase : MemoryRecord := sampleMemory "m2" "use tabs in the editor"

/-- An instant of the first of January 2024. -/
def sampleNow : ℤ := digitsOf "2024-01-01T00:00:01Z"

/-- With the opposite memory alone the candidate goes to review. -/
theorem conflict_retained_iff_opposite :
    ∃ report, evaluate .sample sampleNow sampleCandidate
        (classify ConsolidationCodec.sample.toCodec sampleNow sampleCandidate [opposite])
        .sample approval = .ok report ∧
      (report.decision ∉ [.autoRetain, .approve, .working] ↔
        ¬ (Hidden ConsolidationCodec.sample.toCodec sampleNow sampleCandidate [opposite] ∧
          Admits ConsolidationCodec.sample.toCodec sampleNow sampleCandidate .sample approval)) :=
  conflict_retained_iff (m := opposite) rfl (by decide +kernel) rfl (by simp) (by decide +kernel)
    (Or.inl (by decide +kernel))

/-- A paraphrase of the candidate hides the memory that says the opposite. -/
theorem conflict_hidden :
    eligible ConsolidationCodec.sample.toCodec sampleNow sampleCandidate opposite = true ∧
      polarityConflict sampleCandidate.text opposite.text = true ∧
      sampleCandidate.text ≠ opposite.text ∧
      (evaluate .sample sampleNow sampleCandidate
        (classify ConsolidationCodec.sample.toCodec sampleNow sampleCandidate
          [opposite, paraphrase]) .sample approval).map (·.decision) = .ok .approve := by
  decide +kernel

end Cortana
