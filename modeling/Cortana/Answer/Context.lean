import Cortana.Answer.Fusion

/-!
# The context pack

`build_with_retrieval_and_memory`: the query, recalled memories and evidence as
one text of bounded size.  How a number with two decimals is written is a
parameter.
-/

namespace Cortana

open ByteText

namespace Answer

def charsPerToken : ℕ := 4
def minContextTokens : ℕ := 256
def maxContextTokens : ℕ := 64000

/-- What the context shows of a `MemorySearchResult`; the numbers by their bits. -/
structure RecalledMemory where
  title : String
  kind : String
  project : String
  source : String
  observedAt : String
  confidence : UInt32
  importance : UInt32
  validUntil : Option String
  content : String

/-! ## Truncation -/

/-- The offsets of the characters of a text. -/
def charOffsets : ℕ → List Char → List ℕ
  | _, [] => []
  | offset, c :: rest => offset :: charOffsets (offset + c.utf8Size) rest

def truncationMarker : List Char := "\n[…truncated]".toList

/-- `truncate`. -/
def truncate (value : List Char) (maxBytes : ℕ) : List Char :=
  if byteLen value ≤ maxBytes then value
  else if maxBytes ≤ byteLen truncationMarker then []
  else
    let target := maxBytes - byteLen truncationMarker
    let keep := ((charOffsets 0 value).takeWhile (· ≤ target)).getLast?.getD 0
    (slice value 0 keep).getD [] ++ truncationMarker

/-! ## The parts of the context -/

/-- `evidence_prefix`. -/
def evidencePrefix (index : ℕ) (item : Evidence) : List Char :=
  "### [".toList ++ Nat.toDigits 10 index ++ "] ".toList ++ item.title.toList ++
    (item.uri.elim [] fun uri ↦ " (".toList ++ uri.toList ++ ")".toList) ++
      "\nSource: ".toList ++ item.source.toList ++ " · Updated: ".toList ++
        item.updatedAt.toList ++ "\n\n".toList

/-- `memory_prefix`. -/
def memoryPrefix (twoDecimals : UInt32 → List Char) (index : ℕ) (item : RecalledMemory) :
    List Char :=
  "### [memory ".toList ++ Nat.toDigits 10 index ++ "] ".toList ++ item.title.toList ++
    " (".toList ++ item.kind.toList ++ ")\nProject: ".toList ++ item.project.toList ++
      " · Source: ".toList ++ item.source.toList ++ " · Observed: ".toList ++
        item.observedAt.toList ++ " · Confidence: ".toList ++ twoDecimals item.confidence ++
          " · Importance: ".toList ++ twoDecimals item.importance ++
            (item.validUntil.elim [] fun value ↦ " · Expires: ".toList ++ value.toList) ++
              "\n\n".toList

def queryPrefix : List Char := "# Cortana evidence context\n\nQuery: ".toList

def instructions (memories : List RecalledMemory) : List Char :=
  if memories = [] then
    "\n\nUse only the evidence below for factual claims. Cite sources with [n].".toList
  else
    "\n\nUse source evidence for factual claims and cite it with [n]. Treat agent memory as scoped operational context, not an external citation.".toList

def memoryTitle : List Char := "\n\n## Agent memory\n\n".toList

/-- The loop over the memories; the section started at an offset. -/
def addMemories (twoDecimals : UInt32 → List Char) (maxChars memoryStart : ℕ) :
    List Char → List RecalledMemory → List RecalledMemory → List Char × List RecalledMemory
  | context, included, [] => (context, included)
  | context, included, memory :: rest =>
      let head := memoryPrefix twoDecimals (included.length + 1) memory
      let reserved := byteLen context + byteLen head + 4
      let memoryUsed := byteLen context - memoryStart
      if maxChars ≤ reserved ∨ maxChars / 3 ≤ memoryUsed then (context, included)
      else
        let available := min (maxChars - reserved) (maxChars / 3 - memoryUsed)
        let content := truncate memory.content.toList available
        if content = [] then (context, included)
        else addMemories twoDecimals maxChars memoryStart (context ++ head ++ content)
          (included ++ [memory]) rest

/-- The loop over the evidence. -/
def addEvidence (maxChars : ℕ) :
    List Char → List Evidence → List Evidence → List Char × List Evidence
  | context, included, [] => (context, included)
  | context, included, item :: rest =>
      let head := evidencePrefix (included.length + 1) item
      let reserved := byteLen context + byteLen head + 4
      if maxChars ≤ reserved then (context, included)
      else
        let content := truncate item.content.toList (maxChars - reserved)
        if content = [] then (context, included)
        else
          addEvidence maxChars (context ++ ("\n\n".toList ++ head ++ content))
            (included ++ [{ item with content := String.ofList content }]) rest

structure ContextBundle where
  context : List Char
  evidence : List Evidence
  memories : List RecalledMemory
  estimatedTokens : ℕ
  maxTokens : ℕ

/-- `estimate_tokens`. -/
def estimateTokens (value : List Char) : ℕ :=
  max ((byteLen value + charsPerToken - 1) / charsPerToken) 1

/-- The query in its frame, and the memories after it. -/
def contextStart (twoDecimals : UInt32 → List Char) (query : List Char)
    (memories : List RecalledMemory) (maxChars : ℕ) : List Char × List RecalledMemory :=
  let queryBudget := maxChars - (byteLen queryPrefix + byteLen (instructions memories))
  let head := queryPrefix ++ truncate query queryBudget ++ instructions memories
  if memories = [] then (head, [])
  else addMemories twoDecimals maxChars (byteLen head) (head ++ memoryTitle) [] memories

/-- The budget in the range of the contract. -/
def clampTokens (maxTokens : ℕ) : ℕ := max minContextTokens (min maxTokens maxContextTokens)

/-- `build_with_retrieval_and_memory`. -/
def buildContext (twoDecimals : UInt32 → List Char) (query : List Char) (evidence : List Evidence)
    (memories : List RecalledMemory) (maxTokens : ℕ) : ContextBundle :=
  let maxChars := clampTokens maxTokens * charsPerToken
  let start := contextStart twoDecimals query memories maxChars
  let filled := addEvidence maxChars start.1 [] evidence
  ⟨filled.1, filled.2, start.2, estimateTokens filled.1, clampTokens maxTokens⟩

/-! ## What is included -/

/-- The content that is shown: the whole, or a start of it with a mark. -/
def Shown (content whole : String) : Prop :=
  content = whole ∨ ∃ kept, kept <+: whole.toList ∧
    content = String.ofList (kept ++ truncationMarker)

/-- A row as its block stands in the context. -/
def block (index : ℕ) (row : Evidence) : List Char :=
  "\n\n".toList ++ evidencePrefix index row ++ row.content.toList

/-- A row with the content that is shown. -/
def ShownRow (row item : Evidence) : Prop :=
  ∃ content, row = { item with content := content } ∧ Shown content item.content

/-- Memories as their blocks stand in the context, with the texts that are shown. -/
def memoryBlocks (twoDecimals : UInt32 → List Char) (start : ℕ)
    (shown : List (RecalledMemory × List Char)) : List Char :=
  (shown.zipIdx start).flatMap fun entry ↦
    memoryPrefix twoDecimals entry.2 entry.1.1 ++ entry.1.2

/-- The section of the memories, if there are any. -/
def memorySection (twoDecimals : UInt32 → List Char) (memories : List RecalledMemory)
    (shown : List (RecalledMemory × List Char)) : List Char :=
  if memories = [] then [] else memoryTitle ++ memoryBlocks twoDecimals 1 shown

/-- The text of every memory ends within a third of the budget, when its own prefix is
not counted. -/
def WithinThird (twoDecimals : UInt32 → List Char) (maxChars : ℕ)
    (shown : List (RecalledMemory × List Char)) : Prop :=
  ∀ before memory text after, shown = before ++ (memory, text) :: after →
    byteLen memoryTitle + byteLen (memoryBlocks twoDecimals 1 before) + byteLen text ≤ maxChars / 3

theorem truncate_shown {value : String} {maxBytes : ℕ}
    (hne : truncate value.toList maxBytes ≠ []) :
    Shown (String.ofList (truncate value.toList maxBytes)) value := by
  rw [truncate] at hne ⊢
  split
  next => exact .inl String.ofList_toList
  next hlarge =>
    rw [if_neg hlarge] at hne
    split
    next hsmall => exact absurd (if_pos hsmall) hne
    next =>
      refine .inr ⟨_, ?_, rfl⟩
      cases hslice : slice value.toList 0 _ with
      | none => exact List.nil_prefix
      | some kept =>
          obtain ⟨p, q, hvalue, hp, -⟩ := Iff.mp slice_eq_some_iff hslice
          rw [Iff.mp byteLen_eq_zero hp] at hvalue
          exact ⟨q, hvalue.symm⟩

/-- The blocks of the evidence are those of its first rows, numbered on. -/
theorem addEvidence_spec (maxChars : ℕ) (context : List Char) (included evidence : List Evidence) :
    ∃ rows, List.Forall₂ ShownRow rows (evidence.take rows.length) ∧
      (addEvidence maxChars context included evidence).2 = included ++ rows ∧
        (addEvidence maxChars context included evidence).1 = context ++
          (rows.zipIdx (included.length + 1)).flatMap fun row ↦ block row.2 row.1 := by
  have hstop : ∃ rows : List Evidence, List.Forall₂ ShownRow rows (evidence.take rows.length) ∧
      included = included ++ rows ∧ context = context ++
        (rows.zipIdx (included.length + 1)).flatMap fun row ↦ block row.2 row.1 :=
    ⟨[], by simp, by simp, by simp⟩
  fun_induction addEvidence maxChars context included evidence with
  | case1 => exact hstop
  | case2 => exact hstop
  | case3 => exact hstop
  | case4 context included item rest head reserved hfits content hne ih =>
      obtain ⟨rows, hshown, hincluded, hcontext⟩ := ih ⟨[], by simp, by simp, by simp⟩
      refine ⟨{ item with content := String.ofList content } :: rows, ?_, ?_, ?_⟩
      · exact .cons ⟨_, rfl, truncate_shown hne⟩ hshown
      · rw [hincluded, List.append_assoc, List.singleton_append]
      · have hblock : block (included.length + 1) { item with content := String.ofList content } =
            "\n\n".toList ++ head ++ content := by
          simp only [block, String.toList_ofList]
          rfl
        rw [hcontext, List.zipIdx_cons, List.flatMap_cons, List.append_assoc, hblock,
          List.length_append, List.length_singleton]

/-- The context ends with the blocks of its evidence, in order. -/
theorem buildContext_evidence (twoDecimals : UInt32 → List Char) (query : List Char)
    (evidence : List Evidence) (memories : List RecalledMemory) (maxTokens : ℕ) :
    ∃ head rows, (buildContext twoDecimals query evidence memories maxTokens).evidence = rows ∧
      List.Forall₂ ShownRow rows (evidence.take rows.length) ∧
        (buildContext twoDecimals query evidence memories maxTokens).context =
          head ++ (rows.zipIdx 1).flatMap fun row ↦ block row.2 row.1 := by
  obtain ⟨rows, hshown, hrows, hcontext⟩ := addEvidence_spec
    (clampTokens maxTokens * charsPerToken)
    (contextStart twoDecimals query memories (clampTokens maxTokens * charsPerToken)).1 [] evidence
  exact ⟨_, rows, hrows, hshown, hcontext⟩

/-! ## How long it is -/

theorem byteLen_truncate_le (value : List Char) (maxBytes : ℕ) :
    byteLen (truncate value maxBytes) ≤ maxBytes := by
  rw [truncate]
  split
  next hfits => exact hfits
  next =>
    split
    next => exact Nat.zero_le _
    next hmarker =>
      dsimp only
      set target := maxBytes - byteLen truncationMarker with htarget
      set offsets := (charOffsets 0 value).takeWhile (· ≤ target) with hoffsets
      have hkeep : offsets.getLast?.getD 0 ≤ target := by
        cases hlast : offsets.getLast? with
        | none => exact Nat.zero_le _
        | some offset =>
            have hmem : offset ∈ offsets := List.mem_of_getLast? hlast
            simpa using List.mem_takeWhile_imp hmem
      have hslice : byteLen ((slice value 0 (offsets.getLast?.getD 0)).getD []) ≤ target := by
        cases hkept : slice value 0 (offsets.getLast?.getD 0) with
        | none => exact Nat.zero_le _
        | some kept =>
            obtain ⟨-, -, -, -, hlength⟩ := Iff.mp slice_eq_some_iff hkept
            rw [Option.getD_some]
            omega
      rw [byteLen_append]
      omega

/-- The query in its frame. -/
def contextHead (query : List Char) (memories : List RecalledMemory) (maxChars : ℕ) : List Char :=
  queryPrefix ++
    truncate query (maxChars - (byteLen queryPrefix + byteLen (instructions memories))) ++
      instructions memories

theorem byteLen_frame_le (memories : List RecalledMemory) :
    byteLen queryPrefix + byteLen (instructions memories) ≤ minContextTokens * charsPerToken := by
  rw [instructions]
  split <;> decide +kernel

theorem byteLen_contextHead_le (query : List Char) (memories : List RecalledMemory) {maxChars : ℕ}
    (h : minContextTokens * charsPerToken ≤ maxChars) :
    byteLen (contextHead query memories maxChars) ≤ maxChars := by
  have hframe := byteLen_frame_le memories
  have hquery := byteLen_truncate_le query
    (maxChars - (byteLen queryPrefix + byteLen (instructions memories)))
  rw [contextHead, byteLen_append, byteLen_append]
  omega

/-- The evidence fills what is left of the budget, and nothing beyond it. -/
theorem addEvidence_within (maxChars : ℕ) (context : List Char) (included evidence : List Evidence) :
    (byteLen context ≤ maxChars →
        byteLen (addEvidence maxChars context included evidence).1 ≤ maxChars) ∧
      (maxChars < byteLen context →
        (addEvidence maxChars context included evidence).1 = context) := by
  fun_induction addEvidence maxChars context included evidence with
  | case1 => exact ⟨id, fun _ ↦ rfl⟩
  | case2 => exact ⟨id, fun _ ↦ rfl⟩
  | case3 => exact ⟨id, fun _ ↦ rfl⟩
  | case4 context included item rest head reserved hfits content hne ih =>
      have hcontent : byteLen content ≤ maxChars - reserved := byteLen_truncate_le _ _
      have hnewlines : byteLen "\n\n".toList = 2 := by decide
      refine ⟨fun _ ↦ ih.1 ?_, fun hlarge ↦ ?_⟩
      · simp only [byteLen_append, hnewlines]
        omega
      · omega

theorem addMemories_within (twoDecimals : UInt32 → List Char) (maxChars memoryStart : ℕ)
    (context : List Char) (included memories : List RecalledMemory) :
    (byteLen context ≤ maxChars →
        byteLen (addMemories twoDecimals maxChars memoryStart context included memories).1 ≤
          maxChars) ∧
      (maxChars < byteLen context →
        (addMemories twoDecimals maxChars memoryStart context included memories).1 = context) := by
  fun_induction addMemories twoDecimals maxChars memoryStart context included memories with
  | case1 => exact ⟨id, fun _ ↦ rfl⟩
  | case2 => exact ⟨id, fun _ ↦ rfl⟩
  | case3 => exact ⟨id, fun _ ↦ rfl⟩
  | case4 context included memory rest head reserved memoryUsed hfits available content hne ih =>
      have hcontent : byteLen content ≤ available := byteLen_truncate_le _ _
      refine ⟨fun _ ↦ ih.1 ?_, fun hlarge ↦ ?_⟩
      · simp only [byteLen_append]
        omega
      · omega

/-- The blocks of the memories are those of the first of them, numbered on; each text
ends within a third of the budget after the start of the section, when its own prefix is
not counted. -/
theorem addMemories_spec (twoDecimals : UInt32 → List Char) (maxChars : ℕ) {memoryStart : ℕ}
    {context : List Char} (hstart : memoryStart ≤ byteLen context)
    (included memories : List RecalledMemory) :
    ∃ shown, (addMemories twoDecimals maxChars memoryStart context included memories).2 =
        included ++ shown.map Prod.fst ∧ shown.map Prod.fst <+: memories ∧
      (∀ entry ∈ shown, Shown (String.ofList entry.2) entry.1.content) ∧
      (addMemories twoDecimals maxChars memoryStart context included memories).1 =
        context ++ memoryBlocks twoDecimals (included.length + 1) shown ∧
      ∀ before memory text after, shown = before ++ (memory, text) :: after →
        byteLen context + byteLen (memoryBlocks twoDecimals (included.length + 1) before) +
          byteLen text ≤ memoryStart + maxChars / 3 := by
  fun_induction addMemories twoDecimals maxChars memoryStart context included memories with
  | case1 | case2 | case3 =>
      refine ⟨[], by simp, List.nil_prefix, by simp, by simp [memoryBlocks], ?_⟩
      intro before memory text after hnil
      exact absurd hnil.symm (List.append_ne_nil_of_right_ne_nil _ (List.cons_ne_nil _ _))
  | case4 context included memory rest head reserved memoryUsed hfits available content hne ih =>
      have hlonger : memoryStart ≤ byteLen (context ++ head ++ content) := by
        simp only [byteLen_append]
        omega
      obtain ⟨shown, hincluded, hprefix, hshown, hcontext, hthird⟩ := ih hlonger
      have hcons : ∀ later, memoryBlocks twoDecimals (included.length + 1)
          ((memory, content) :: later) =
            head ++ content ++ memoryBlocks twoDecimals (included.length + 1 + 1) later :=
        fun later ↦ by rw [memoryBlocks, List.zipIdx_cons, List.flatMap_cons]; rfl
      rw [List.length_append, List.length_singleton] at hcontext hthird
      refine ⟨(memory, content) :: shown, ?_, List.cons_prefix_cons.mpr ⟨rfl, hprefix⟩, ?_, ?_, ?_⟩
      · rw [hincluded, List.append_assoc, List.map_cons, List.singleton_append]
      · exact List.forall_mem_cons.mpr ⟨truncate_shown hne, hshown⟩
      · rw [hcontext, hcons]
        simp only [List.append_assoc]
      · intro before other text after hsplit
        rcases before with _ | ⟨first, before⟩
        · obtain ⟨hentry, -⟩ := List.cons.inj hsplit
          obtain ⟨rfl, rfl⟩ := Prod.mk.inj hentry
          have hcontent : byteLen content ≤ available := byteLen_truncate_le _ _
          simp only [memoryBlocks, List.zipIdx_nil, List.flatMap_nil, byteLen_nil]
          omega
        · obtain ⟨rfl, hrest⟩ := List.cons.inj hsplit
          have hlater := hthird before other text after hrest
          rw [hcons]
          simp only [byteLen_append] at hlater ⊢
          omega

theorem estimateTokens_le_iff {value : List Char} {tokens : ℕ} (h : 0 < tokens) :
    estimateTokens value ≤ tokens ↔ byteLen value ≤ tokens * charsPerToken := by
  rw [estimateTokens, charsPerToken]
  omega

/-- Whether the title of the memories still fits after the query. -/
def TitleFits (query : List Char) (memories : List RecalledMemory) (maxChars : ℕ) : Prop :=
  memories = [] ∨
    byteLen (contextHead query memories maxChars) + byteLen memoryTitle ≤ maxChars

theorem le_clampTokens (maxTokens : ℕ) : minContextTokens ≤ clampTokens maxTokens :=
  Nat.le_max_left _ _

/-- The text before the evidence. -/
theorem contextStart_within (twoDecimals : UInt32 → List Char) (query : List Char)
    (memories : List RecalledMemory) {maxChars : ℕ}
    (h : minContextTokens * charsPerToken ≤ maxChars) :
    (TitleFits query memories maxChars →
        byteLen (contextStart twoDecimals query memories maxChars).1 ≤ maxChars) ∧
      (¬TitleFits query memories maxChars →
        (contextStart twoDecimals query memories maxChars).1 =
            contextHead query memories maxChars ++ memoryTitle ∧
          maxChars < byteLen (contextStart twoDecimals query memories maxChars).1) := by
  have hhead := byteLen_contextHead_le query memories h
  by_cases hnone : memories = []
  · have hstart : (contextStart twoDecimals query memories maxChars).1 =
        contextHead query memories maxChars := by
      rw [contextStart]
      exact congrArg Prod.fst (if_pos hnone)
    rw [hstart]
    exact ⟨fun _ ↦ hhead, fun hnot ↦ absurd (.inl hnone) hnot⟩
  · have hstart : (contextStart twoDecimals query memories maxChars).1 =
        (addMemories twoDecimals maxChars (byteLen (contextHead query memories maxChars))
          (contextHead query memories maxChars ++ memoryTitle) [] memories).1 := by
      rw [contextStart]
      exact congrArg Prod.fst (if_neg hnone)
    obtain ⟨hwithin, hstop⟩ := addMemories_within twoDecimals maxChars
      (byteLen (contextHead query memories maxChars))
      (contextHead query memories maxChars ++ memoryTitle) [] memories
    rw [hstart]
    refine ⟨fun hfits ↦ hwithin ?_, fun hnot ↦ ?_⟩
    · rw [byteLen_append]
      exact hfits.resolve_left hnone
    · have hlarge : maxChars < byteLen (contextHead query memories maxChars ++ memoryTitle) := by
        rw [byteLen_append]
        exact not_le.mp fun hle ↦ hnot (.inr hle)
      rw [hstop hlarge]
      exact ⟨rfl, hlarge⟩

/-- The memories that are included, and their section. -/
theorem contextStart_spec (twoDecimals : UInt32 → List Char) (query : List Char)
    (memories : List RecalledMemory) (maxChars : ℕ) :
    ∃ shown, (contextStart twoDecimals query memories maxChars).2 = shown.map Prod.fst ∧
      shown.map Prod.fst <+: memories ∧
      (∀ entry ∈ shown, Shown (String.ofList entry.2) entry.1.content) ∧
      WithinThird twoDecimals maxChars shown ∧
      (contextStart twoDecimals query memories maxChars).1 =
        contextHead query memories maxChars ++ memorySection twoDecimals memories shown := by
  simp only [contextStart, memorySection]
  by_cases hnone : memories = []
  · simp only [if_pos hnone]
    refine ⟨[], rfl, List.nil_prefix, by simp, ?_, by rw [List.append_nil]; rfl⟩
    intro before memory text after hnil
    exact absurd hnil.symm (List.append_ne_nil_of_right_ne_nil _ (List.cons_ne_nil _ _))
  · simp only [if_neg hnone]
    have hstart : byteLen (contextHead query memories maxChars) ≤
        byteLen (contextHead query memories maxChars ++ memoryTitle) := by
      rw [byteLen_append]
      exact Nat.le_add_right _ _
    obtain ⟨shown, hincluded, hprefix, hshown, hcontext, hthird⟩ :=
      addMemories_spec twoDecimals maxChars hstart [] memories
    refine ⟨shown, hincluded, hprefix, hshown, fun before memory text after hsplit ↦ ?_,
      hcontext.trans (List.append_assoc _ _ _)⟩
    have hbound := hthird before memory text after hsplit
    rw [byteLen_append, List.length_nil, Nat.zero_add] at hbound
    omega

/-- A context pack is within its budget exactly when there are no memories or
their title still fits after the query; else it is the query and the title and
nothing more.  It consists of the query in its frame, the section of the included
memories, whose texts end within a third of the budget, and the blocks of the included
evidence. -/
theorem buildContext_budget (twoDecimals : UInt32 → List Char) (query : List Char)
    (evidence : List Evidence) (memories : List RecalledMemory) (maxTokens : ℕ) :
    let bundle := buildContext twoDecimals query evidence memories maxTokens
    let maxChars := bundle.maxTokens * charsPerToken
    (byteLen bundle.context ≤ maxChars ↔ TitleFits query memories maxChars) ∧
      (bundle.estimatedTokens ≤ bundle.maxTokens ↔ TitleFits query memories maxChars) ∧
      (¬TitleFits query memories maxChars →
        bundle.context = contextHead query memories maxChars ++ memoryTitle) ∧
      ∃ shown, shown.map Prod.fst = bundle.memories ∧ bundle.memories <+: memories ∧
        (∀ entry ∈ shown, Shown (String.ofList entry.2) entry.1.content) ∧
        WithinThird twoDecimals maxChars shown ∧
        bundle.context = contextHead query memories maxChars ++
          memorySection twoDecimals memories shown ++
            (bundle.evidence.zipIdx 1).flatMap fun row ↦ block row.2 row.1 := by
  intro bundle maxChars
  have hleast : minContextTokens * charsPerToken ≤ maxChars :=
    Nat.mul_le_mul_right _ (le_clampTokens maxTokens)
  obtain ⟨hfits, hlarge⟩ := contextStart_within twoDecimals query memories hleast
  obtain ⟨hwithin, hstop⟩ := addEvidence_within maxChars
    (contextStart twoDecimals query memories maxChars).1 [] evidence
  have hcontext : bundle.context = (addEvidence maxChars
      (contextStart twoDecimals query memories maxChars).1 [] evidence).1 := rfl
  have hbudget : byteLen bundle.context ≤ maxChars ↔ TitleFits query memories maxChars := by
    refine ⟨fun hle ↦ ?_, fun h ↦ hcontext ▸ hwithin (hfits h)⟩
    by_contra hnot
    obtain ⟨-, hover⟩ := hlarge hnot
    rw [hcontext, hstop hover] at hle
    omega
  refine ⟨hbudget, ?_, fun hnot ↦ ?_, ?_⟩
  · have htokens : 0 < bundle.maxTokens :=
      Nat.lt_of_lt_of_le (by decide) (le_clampTokens maxTokens)
    exact (estimateTokens_le_iff htokens).trans hbudget
  · obtain ⟨hstart, hover⟩ := hlarge hnot
    rw [hcontext, hstop hover, hstart]
  · obtain ⟨shown, hmemories, hprefix, hshown, hthird, hsection⟩ :=
      contextStart_spec twoDecimals query memories maxChars
    obtain ⟨rows, -, hrows, hrest⟩ := addEvidence_spec maxChars
      (contextStart twoDecimals query memories maxChars).1 [] evidence
    have hevidence : bundle.evidence = rows := hrows
    have hincluded : bundle.memories = shown.map Prod.fst := hmemories
    refine ⟨shown, hincluded.symm, hincluded ▸ hprefix, hshown, hthird, ?_⟩
    rw [hcontext, hrest, hsection, hevidence]
    rfl

end Answer

end Cortana
