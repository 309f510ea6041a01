import Cortana.Answer.Citations
import Cortana.Answer.Context

/-!
# Synthesis

The answer of the model where it is accepted, and the excerpts of the evidence
where it is not.  The model is a function of the context it is shown.
-/

namespace Cortana

open ByteText

namespace Answer

/-- What a completion comes to; it may also miss the deadline. -/
inductive Completion where
  | answer (text : List Char)
  | error (message : String)
  | late

inductive AnswerMode where
  | synthesized
  | extractive
deriving DecidableEq

/-- The excerpt of a row. -/
def excerpt (item : Evidence) : List Char := trim (item.content.toList.take 700)

/-- The rows that an extractive answer shows, each with its index. -/
def extractiveRows (unicode : Unicode) (query : List Char) (evidence : List Evidence) :
    List (Evidence × ℕ) :=
  (evidence.zipIdx.filter fun row ↦ maximumOverlap unicode query evidence < 2 ∨
    overlap unicode query row.1 = maximumOverlap unicode query evidence).take 4

/-- `extractive_answer`. -/
def extractiveAnswer (unicode : Unicode) (query : List Char) (evidence : List Evidence) :
    List Char :=
  ['\n', '\n'].intercalate ((extractiveRows unicode query evidence).map fun row ↦
    excerpt row.1 ++ citationMark (row.2 + 1))

section Engine

variable (unicode : Unicode) (twoDecimals : UInt32 → List Char)
  (model : Option (List Char → Completion)) (contextTokens : ℕ)

/-- `synthesize`, with the warnings it adds; nothing when the deadline is reached. -/
def synthesize (query : List Char) (evidence : List Evidence) (memories : List RecalledMemory) :
    Option (List Char × AnswerMode × List String) :=
  if evidence = [] then
    some ("I could not find enough indexed evidence to answer this question.".toList, .extractive,
      [])
  else
    match model with
    | none => some (extractiveAnswer unicode query evidence, .extractive, [])
    | some complete =>
        let bundle := buildContext twoDecimals query evidence memories contextTokens
        match complete bundle.context with
        | .answer text =>
            if validCitations text bundle.evidence.length then some (text, .synthesized, [])
            else
              some (extractiveAnswer unicode query evidence, .extractive,
                ["synthesis fallback: invalid or missing citations"])
        | .error message =>
            some (extractiveAnswer unicode query evidence, .extractive,
              ["synthesis unavailable: " ++ message])
        | .late => none

/-- The answer with the fallback at the deadline. -/
def answerWithin (query : List Char) (evidence : List Evidence) (memories : List RecalledMemory) :
    List Char × AnswerMode × List String :=
  (synthesize unicode twoDecimals model contextTokens query evidence memories).getD
    (extractiveAnswer unicode query evidence, .extractive,
      ["synthesis fallback: answer deadline reached"])

structure AnswerResponse where
  answer : List Char
  evidence : List Evidence
  memories : List RecalledMemory
  mode : AnswerMode
  warnings : List String

/-- The memories that were recalled, none with a warning after a failure. -/
def recalledOr (recalled : Except String (List RecalledMemory)) :
    List RecalledMemory × List String :=
  match recalled with
  | .ok memories => (memories, [])
  | .error message => ([], ["memory fallback: " ++ message])

/-- The answer to a query from its fused evidence and the recall of memories. -/
def respond (query : List Char) (fused : List Evidence)
    (recalled : Except String (List RecalledMemory)) (warnings : List String) : AnswerResponse :=
  let (evidence, dropped) := focusEvidence unicode query fused
  let focus := if 0 < dropped then
    ["evidence focus: dropped " ++ toString dropped ++ " low-relevance rows before synthesis"]
    else []
  let (memories, recallWarnings) := recalledOr recalled
  let (answer, mode, added) :=
    answerWithin unicode twoDecimals model contextTokens query evidence memories
  ⟨answer, evidence, memories, mode, warnings ++ focus ++ recallWarnings ++ added⟩

/-- The answer of the model, where the engine takes it. -/
def accepted (query : List Char) (evidence : List Evidence) (memories : List RecalledMemory) :
    Option (List Char) :=
  model.bind fun complete ↦
    let bundle := buildContext twoDecimals query evidence memories contextTokens
    match complete bundle.context with
    | .answer text => if validCitations text bundle.evidence.length then some text else none
    | _ => none

end Engine

/-! ## What an accepted answer cites -/

section Cited

variable {unicode : Unicode} {twoDecimals : UInt32 → List Char}
  {model : Option (List Char → Completion)} {contextTokens : ℕ} {query : List Char}
  {evidence : List Evidence} {memories : List RecalledMemory}

theorem answerWithin_cases (unicode : Unicode) (twoDecimals : UInt32 → List Char)
    (model : Option (List Char → Completion)) (contextTokens : ℕ) (query : List Char)
    (memories : List RecalledMemory) (hne : evidence ≠ []) :
    (∃ text, accepted twoDecimals model contextTokens query evidence memories = some text ∧
        ∃ warnings, answerWithin unicode twoDecimals model contextTokens query evidence memories =
          (text, .synthesized, warnings)) ∨
      (accepted twoDecimals model contextTokens query evidence memories = none ∧
        ∃ warnings, answerWithin unicode twoDecimals model contextTokens query evidence memories =
          (extractiveAnswer unicode query evidence, .extractive, warnings)) := by
  cases model with
  | none =>
      rw [answerWithin, synthesize, if_neg hne]
      exact .inr ⟨rfl, _, rfl⟩
  | some complete =>
      rw [answerWithin, synthesize, if_neg hne, accepted, Option.bind_some]
      dsimp only
      cases complete (buildContext twoDecimals query evidence memories contextTokens).context with
      | answer text =>
          dsimp only
          split
          · exact .inl ⟨text, rfl, _, rfl⟩
          · exact .inr ⟨rfl, _, rfl⟩
      | error message => exact .inr ⟨rfl, _, rfl⟩
      | late => exact .inr ⟨rfl, _, rfl⟩

/-- An accepted answer has passed the check against the rows it was shown. -/
theorem validCitations_of_accepted {text : List Char}
    (h : accepted twoDecimals model contextTokens query evidence memories = some text) :
    validCitations text
      (buildContext twoDecimals query evidence memories contextTokens).evidence.length = true := by
  cases model with
  | none => cases h
  | some complete =>
      rw [accepted, Option.bind_some] at h
      dsimp only at h
      split at h
      next =>
        split at h
        next hvalid => exact Option.some.inj h ▸ hvalid
        next => cases h
      next => cases h

theorem included_le : (buildContext twoDecimals query evidence memories contextTokens).evidence.length ≤
    evidence.length := by
  obtain ⟨head, rows, hrows, hshown, -⟩ :=
    buildContext_evidence twoDecimals query evidence memories contextTokens
  rw [hrows, hshown.length_eq]
  exact List.length_take_le' _ _

end Cited

/-- What the numbers of an answer stand for. -/
structure Supported (twoDecimals : UInt32 → List Char) (contextTokens : ℕ) (query : List Char)
    (evidence : List Evidence) (memories : List RecalledMemory) (answer : List Char) : Prop where
  numbers : CitesWithin
    (buildContext twoDecimals query evidence memories contextTokens).evidence.length answer
  rows : List.Forall₂ ShownRow
    (buildContext twoDecimals query evidence memories contextTokens).evidence
    (evidence.take (buildContext twoDecimals query evidence memories contextTokens).evidence.length)
  blocks : ∃ head, (buildContext twoDecimals query evidence memories contextTokens).context = head ++
    ((buildContext twoDecimals query evidence memories contextTokens).evidence.zipIdx 1).flatMap
      fun row ↦ block row.2 row.1
  parts : ∀ part ∈ splitDoubleNewline answer, trim part ≠ [] → ∃ n, Cites part n ∧ 1 ≤ n ∧
    n ≤ (buildContext twoDecimals query evidence memories contextTokens).evidence.length

section Supported

variable {unicode : Unicode} {twoDecimals : UInt32 → List Char}
  {model : Option (List Char → Completion)} {contextTokens : ℕ} {query : List Char}
  {evidence : List Evidence} {memories : List RecalledMemory}

theorem supported_of_accepted {text : List Char}
    (h : accepted twoDecimals model contextTokens query evidence memories = some text) :
    Supported twoDecimals contextTokens query evidence memories text := by
  obtain ⟨hwithin, hparts⟩ := validCitations_sound (validCitations_of_accepted h)
  obtain ⟨head, rows, hrows, hshown, hcontext⟩ :=
    buildContext_evidence twoDecimals query evidence memories contextTokens
  refine ⟨hwithin, hrows ▸ hshown, ⟨head, hrows ▸ hcontext⟩, fun part hpart hseen ↦ ?_⟩
  obtain ⟨n, hn⟩ := hparts part hpart hseen
  refine ⟨n, hn, hwithin n ?_⟩
  rw [← intercalate_splitDoubleNewline text, cites_intercalate]
  exact ⟨part, hpart, hn⟩

theorem supported_of_synthesized {text : List Char} {warnings : List String}
    (h : answerWithin unicode twoDecimals model contextTokens query evidence memories =
      (text, .synthesized, warnings)) :
    Supported twoDecimals contextTokens query evidence memories text := by
  by_cases hne : evidence = []
  · rw [answerWithin, synthesize.eq_def, if_pos hne] at h
    cases h
  · rcases answerWithin_cases unicode twoDecimals model contextTokens query memories hne with
      ⟨answer, haccepted, _, hanswer⟩ | ⟨-, _, hanswer⟩
    · rw [hanswer] at h
      cases h
      exact supported_of_accepted haccepted
    · rw [hanswer] at h
      cases h

/-- A synthesised answer cites what the model was shown, and this is the start of
the evidence that is returned with it. -/
theorem synthesized_supported (unicode : Unicode) (twoDecimals : UInt32 → List Char)
    (model : Option (List Char → Completion)) (contextTokens : ℕ) (query : List Char) :
    (∀ evidence memories text warnings,
        synthesize unicode twoDecimals model contextTokens query evidence memories =
          some (text, .synthesized, warnings) →
        Supported twoDecimals contextTokens query evidence memories text) ∧
      ∀ fused recalled warnings response,
        respond unicode twoDecimals model contextTokens query fused recalled warnings = response →
          response.mode = .synthesized →
        Supported twoDecimals contextTokens query response.evidence response.memories
          response.answer := by
  constructor
  · intro evidence memories text warnings h
    have hanswer : answerWithin unicode twoDecimals model contextTokens query evidence memories =
        (text, .synthesized, warnings) := by
      rw [answerWithin, h]
      rfl
    exact supported_of_synthesized hanswer
  · rintro fused recalled warnings response rfl h
    have hanswer : answerWithin unicode twoDecimals model contextTokens query
        (focusEvidence unicode query fused).1 (recalledOr recalled).1 =
          ((respond unicode twoDecimals model contextTokens query fused recalled warnings).answer,
            .synthesized, (answerWithin unicode twoDecimals model contextTokens query
              (focusEvidence unicode query fused).1 (recalledOr recalled).1).2.2) :=
      Prod.ext rfl (Prod.ext h rfl)
    exact supported_of_synthesized hanswer

/-- A model that cites the first of two rows. -/
theorem synthesized_supported_note :
    let model : Option (List Char → Completion) := some fun _ ↦ .answer "A [1]".toList
    let rows : List Evidence :=
      [⟨"note:0", "notes", "note", "Note", none, "x", 0, none, none, "2024-01-01T00:00:00Z", .null⟩,
        ⟨"note:1", "notes", "log", "Log", none, "y", 0, none, none, "2024-01-01T00:00:00Z", .null⟩]
    synthesize Unicode.ascii (fun _ ↦ []) model 256 "q".toList rows [] =
        some ("A [1]".toList, .synthesized, []) ∧
      Supported (fun _ ↦ []) 256 "q".toList rows [] "A [1]".toList := by
  intro model rows
  have hanswer : synthesize Unicode.ascii (fun _ ↦ []) model 256 "q".toList rows [] =
      some ("A [1]".toList, .synthesized, []) := by
    decide +kernel
  exact ⟨hanswer, (synthesized_supported Unicode.ascii (fun _ ↦ []) model 256 "q".toList).1 rows []
    _ _ hanswer⟩

end Supported

/-! ## Grounded answers -/

/-- The rows of an extractive answer are rows of the evidence. -/
theorem extractiveRows_get {unicode : Unicode} {query : List Char} {evidence : List Evidence}
    {row : Evidence × ℕ} (h : row ∈ extractiveRows unicode query evidence) :
    evidence[row.2]? = some row.1 := by
  have hmem := (List.mem_filter.mp (List.mem_of_mem_take h)).1
  exact List.mem_zipIdx_iff_getElem?.mp hmem

/-- When the answer to a query is grounded: if it is the model's, then every part
between double newlines that blank lines cut up cites a row in each paragraph;
else every excerpt cites rows only, and one in each paragraph before its last. -/
def GroundedInput (unicode : Unicode) (query : List Char) (evidence : List Evidence) :
    Option (List Char) → Prop
  | some text => ∀ part ∈ splitDoubleNewline text, 2 ≤ (visibleParagraphs part).length →
      ∀ paragraph ∈ visibleParagraphs part, HasCitation evidence.length paragraph
  | none => ∀ row ∈ extractiveRows unicode query evidence,
      CitesWithin evidence.length (excerpt row.1) ∧
        ∀ paragraph ∈ (visibleParagraphs (excerpt row.1)).dropLast,
          HasCitation evidence.length paragraph

theorem grounded_extractiveAnswer {unicode : Unicode} {query : List Char}
    {evidence : List Evidence} :
    Grounded evidence.length (extractiveAnswer unicode query evidence) ↔
      GroundedInput unicode query evidence none := by
  rw [extractiveAnswer, grounded_intercalate, List.forall_mem_map]
  refine forall₂_congr fun row hrow ↦ ?_
  obtain ⟨hindex, -⟩ := List.getElem?_eq_some_iff.mp (extractiveRows_get hrow)
  exact grounded_excerpt (trim_trimmed _) ⟨Nat.succ_pos _, hindex⟩

/-- The answer to evidence is grounded exactly under the condition above, and an
extractive one shows excerpts with the numbers of their rows. -/
theorem answer_grounded_iff (unicode : Unicode) (twoDecimals : UInt32 → List Char)
    (model : Option (List Char → Completion)) (contextTokens : ℕ) (query : List Char)
    {evidence : List Evidence} (memories : List RecalledMemory) (hne : evidence ≠ []) :
    (Grounded evidence.length
        (answerWithin unicode twoDecimals model contextTokens query evidence memories).1 ↔
      GroundedInput unicode query evidence
        (accepted twoDecimals model contextTokens query evidence memories)) ∧
      ((answerWithin unicode twoDecimals model contextTokens query evidence memories).2.1 =
          .extractive →
        ∃ rows : List (Evidence × ℕ), (∀ row ∈ rows, evidence[row.2]? = some row.1) ∧
          (answerWithin unicode twoDecimals model contextTokens query evidence memories).1 =
            ['\n', '\n'].intercalate (rows.map fun row ↦
              excerpt row.1 ++ citationMark (row.2 + 1))) := by
  rcases answerWithin_cases unicode twoDecimals model contextTokens query memories hne with
    ⟨text, haccepted, _, hanswer⟩ | ⟨haccepted, _, hanswer⟩
  · rw [haccepted, hanswer]
    refine ⟨?_, fun hmode ↦ AnswerMode.noConfusion hmode⟩
    exact grounded_iff_of_validCitations (validCitations_of_accepted haccepted) included_le
  · rw [haccepted, hanswer]
    refine ⟨grounded_extractiveAnswer, fun _ ↦ ?_⟩
    exact ⟨extractiveRows unicode query evidence, fun row hrow ↦ extractiveRows_get hrow, rfl⟩

/-- A row of a note. -/
def noteRow (content : String) : Evidence :=
  ⟨"note:0", "notes", "note", "Note", none, content, 0, none, none, "2024-01-01T00:00:00Z", .null⟩

/-- A paragraph of a single word is not cited. -/
theorem not_grounded_of_word {count : ℕ} {text : List Char} (word : List Char)
    (hparagraph : [word] ∈ visibleParagraphs text) (hword : ∀ c ∈ word, c ≠ '[') :
    ¬Grounded count text := by
  rintro ⟨-, hcited⟩
  obtain ⟨line, hline, n, hcites, -⟩ := hcited _ hparagraph
  rw [List.mem_singleton.mp hline] at hcites
  exact not_cites_of_outside hword hcites

/-- An answer whose paragraphs are separated by carriage returns is accepted with
an uncited paragraph, and an excerpt of two paragraphs is cited in the second. -/
theorem answer_ungrounded :
    ¬Grounded 1 (answerWithin Unicode.ascii (fun _ ↦ [])
        (some fun _ ↦ .answer "A [1]\x0d\n\x0d\nB".toList) 256 "q".toList [noteRow "x"] []).1 ∧
      ¬Grounded 1 (answerWithin Unicode.ascii (fun _ ↦ []) none 256 "q".toList
        [noteRow "x\n\ny"] []).1 := by
  have hsynthesized : (answerWithin Unicode.ascii (fun _ ↦ [])
      (some fun _ ↦ .answer "A [1]\x0d\n\x0d\nB".toList) 256 "q".toList [noteRow "x"] []).1 =
        "A [1]\x0d\n\x0d\nB".toList := by decide +kernel
  have hextractive : (answerWithin Unicode.ascii (fun _ ↦ []) none 256 "q".toList
      [noteRow "x\n\ny"] []).1 = "x\n\ny [1]".toList := by decide +kernel
  rw [hsynthesized, hextractive]
  exact ⟨not_grounded_of_word ['B'] (by decide +kernel) (by simp),
    not_grounded_of_word ['x'] (by decide +kernel) (by simp)⟩

/-- An answer of two paragraphs that the model has given, each with its citation. -/
theorem answer_grounded_note :
    let model : Option (List Char → Completion) := some fun _ ↦ .answer "A [1]\n\nB [2]".toList
    let answer := answerWithin Unicode.ascii (fun _ ↦ []) model 256 "q".toList
      [noteRow "x", noteRow "y"] []
    answer.2.1 = .synthesized ∧ answer.1 = "A [1]\n\nB [2]".toList ∧ Grounded 2 answer.1 := by
  intro model answer
  have hne : [noteRow "x", noteRow "y"] ≠ [] := List.cons_ne_nil _ _
  have haccepted : accepted (fun _ ↦ []) model 256 "q".toList [noteRow "x", noteRow "y"] [] =
      some "A [1]\n\nB [2]".toList := by decide +kernel
  refine ⟨by decide +kernel, by decide +kernel,
    (answer_grounded_iff Unicode.ascii (fun _ ↦ []) model 256 "q".toList [] hne).1.mpr ?_⟩
  rw [haccepted]
  have hparts : ∀ part ∈ splitDoubleNewline "A [1]\n\nB [2]".toList,
      (visibleParagraphs part).length = 1 := by decide +kernel
  intro part hpart htwo
  rw [hparts part hpart] at htwo
  exact absurd htwo (by decide)

end Answer

end Cortana
