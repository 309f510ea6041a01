import Cortana.Text.Search
import Cortana.Model.Document

/-!
# The chunker

`chunking.rs`, function by function.  Texts are lists of characters with byte
offsets.  A loop that may run for ever takes a number of rounds and answers
`none` when they are used up; a slice at an offset that is no character
boundary panics in the source and is `none` here as well.  The SHA-256 of the
`sha2` crate is the parameter `sha256`, and the symbols of a code document are
those of the parameter `parse`.
-/

namespace Cortana

open ByteText

def chunkingContractVersion : String := "cortana.chunking.v2"

inductive ChunkStrategy where
  | generic
  | markdownSection
  | htmlSection
  | messageThread
  | calendarEvent
  | structuredRecord
  | codeSymbol
  deriving DecidableEq, Repr

def ChunkStrategy.asStr : ChunkStrategy → String
  | generic => "generic"
  | markdownSection => "markdown_section"
  | htmlSection => "html_section"
  | messageThread => "message_thread"
  | calendarEvent => "calendar_event"
  | structuredRecord => "structured_record"
  | codeSymbol => "code_symbol"

structure ChunkingPolicy where
  targetBytes : ℕ
  overlapBytes : ℕ
  deriving DecidableEq, Repr

/-- `DEFAULT_TARGET_BYTES` and `DEFAULT_OVERLAP_BYTES`. -/
def ChunkingPolicy.default : ChunkingPolicy := ⟨1600, 200⟩

structure ChunkSpec where
  key : String
  content : List Char
  ordinal : ℕ
  strategy : ChunkStrategy
  parentKey : String
  previousKey : Option String
  nextKey : Option String
  startByte : ℕ
  endByte : ℕ
  policyVersion : String
  deriving DecidableEq, Repr

/-! ## Character boundaries -/

def charBoundaryAtOrBefore (value : List Char) (offset : ℕ) : ℕ :=
  go (min offset (byteLen value))
where
  go : ℕ → ℕ
    | 0 => 0
    | offset + 1 => if isCharBoundary value (offset + 1) then offset + 1 else go offset

def nextCharBoundary (value : List Char) (offset : ℕ) : ℕ :=
  let offset := min offset (byteLen value)
  go (byteLen value - offset) offset
where
  go : ℕ → ℕ → ℕ
    | 0, offset => offset
    | room + 1, offset =>
        if isCharBoundary value offset then offset else go room (offset + 1)

/-! ## The bounded splitter -/

/-- The text that `bounded_ranges` hashes into a chunk's key. -/
def chunkKeyText (strategy : ChunkStrategy) (startByte endByte : ℕ) (text : List Char) :
    List Char :=
  chunkingContractVersion.toList ++ ':' :: strategy.asStr.toList ++ ':' ::
    (Nat.toDigits 10 startByte ++ ':' :: (Nat.toDigits 10 endByte ++ ':' :: text))

/-- The text hashed into the parent key of a chunk or of a section: a label
and two offsets. -/
def spanKeyText (label : String) (start stop : ℕ) : List Char :=
  label.toList ++ ':' :: (Nat.toDigits 10 start ++ ':' :: Nat.toDigits 10 stop)

/-- Where the window that begins at `start` ends: at the target, or after the
last paragraph break in its second half. -/
def windowEnd (content : List Char) (target start : ℕ) : Option ℕ :=
  let hardEnd := charBoundaryAtOrBefore content (start + target)
  let stop := max hardEnd (nextCharBoundary content start)
  if stop < byteLen content then
    (slice content start stop).map fun window ↦
      let floor := byteLen window / 2
      let cut := ((rfind ['\n', '\n'] window).filter fun position ↦ floor ≤ position).elim stop
        fun position ↦ start + position + 2
      charBoundaryAtOrBefore content cut
  else some stop

/-- The chunk of one window, unless the window is blank. -/
def windowChunk (sha256 : List Char → String) (strategy : ChunkStrategy)
    (content : List Char) (start stop ordinal : ℕ) : Option (Option ChunkSpec) :=
  (slice content start stop).map fun window ↦
    let text := trim window
    if text = [] then none
    else
      let startByte := start + (find text window).getD 0
      let endByte := startByte + byteLen text
      some {
        key := sha256 (chunkKeyText strategy startByte endByte text)
        content := text
        ordinal := ordinal
        strategy := strategy
        parentKey := sha256 (spanKeyText (chunkingContractVersion ++ ":parent") start stop)
        previousKey := none
        nextKey := none
        startByte := startByte
        endByte := endByte
        policyVersion := chunkingContractVersion }

/-- Where the window after `start..stop` begins. -/
def windowNext (content : List Char) (overlap start stop : ℕ) : ℕ :=
  let next := charBoundaryAtOrBefore content (stop - overlap)
  if next ≤ start then nextCharBoundary content stop else next

def ChunkingPolicy.target (policy : ChunkingPolicy) : ℕ := max policy.targetBytes 1

def ChunkingPolicy.overlap (policy : ChunkingPolicy) : ℕ :=
  min policy.overlapBytes (policy.target - 1)

/-- The `while` loop of `bounded_ranges` from one value of `start`. -/
def boundedRangesLoop (sha256 : List Char → String) (content : List Char)
    (policy : ChunkingPolicy) (strategy : ChunkStrategy) :
    ℕ → ℕ → List ChunkSpec → Option (List ChunkSpec)
  | 0, _, _ => none
  | rounds + 1, start, output =>
      if start < byteLen content then
        (windowEnd content policy.target start).bind fun stop ↦
          (windowChunk sha256 strategy content start stop output.length).bind fun chunk ↦
            let output := output ++ chunk.toList
            if stop = byteLen content then some output
            else
              boundedRangesLoop sha256 content policy strategy rounds
                (windowNext content policy.overlap start stop) output
      else some output

def boundedRanges (sha256 : List Char → String) (rounds : ℕ) (content : List Char)
    (policy : ChunkingPolicy) (strategy : ChunkStrategy) : Option (List ChunkSpec) :=
  boundedRangesLoop sha256 content policy strategy rounds 0 []

/-! ## Sections, messages and records -/

/-- The loop shared by the line-based strategies: a new range starts at every
line that `cut` recognises, except at the start of the current one. -/
def lineRanges (cut : List Char → Bool) (content : List Char) : List (ℕ × ℕ) :=
  let (ranges, start) := (withOffsets 0 (splitInclusive '\n' content)).foldl
    (fun (ranges, start) (offset, line) ↦
      if cut line && decide (start < offset) then (ranges ++ [(start, offset)], offset)
      else (ranges, start)) ([], 0)
  if start < byteLen content then ranges ++ [(start, byteLen content)] else ranges

/-- Move a chunk of a section to its place in the document. -/
def ChunkSpec.shift (chunk : ChunkSpec) (start : ℕ) (parentKey : String) : ChunkSpec :=
  { chunk with
    startByte := chunk.startByte + start
    endByte := chunk.endByte + start
    parentKey := parentKey }

/-- The chunks of every range in turn, each range split on its own. -/
def rangesChunks (sha256 : List Char → String) (rounds : ℕ) (content : List Char)
    (policy : ChunkingPolicy) (strategy : ChunkStrategy) (parent : ℕ → ℕ → String) :
    List (ℕ × ℕ) → Option (List ChunkSpec)
  | [] => some []
  | (start, stop) :: ranges =>
      (slice content start stop).bind fun section_ ↦
        (boundedRanges sha256 rounds section_ policy strategy).bind fun chunks ↦
          (rangesChunks sha256 rounds content policy strategy parent ranges).map fun rest ↦
            chunks.map (fun chunk ↦ chunk.shift start (parent start stop)) ++ rest

def genericChunks (sha256 : List Char → String) (rounds : ℕ) (content : List Char)
    (policy : ChunkingPolicy) : Option (List ChunkSpec) :=
  boundedRanges sha256 rounds content policy .generic

def isMarkdownHeading (line : List Char) : Bool := ['#'].isPrefixOf (trimStart line)

def isHtmlHeading (line : List Char) : Bool :=
  let lower := toAsciiLowercase (trimStart line)
  ['1', '2', '3', '4', '5', '6'].any fun level ↦ ['<', 'h', level].isPrefixOf lower

def sectionChunks (sha256 : List Char → String) (rounds : ℕ) (content : List Char)
    (strategy : ChunkStrategy) (policy : ChunkingPolicy) (heading : List Char → Bool) :
    Option (List ChunkSpec) :=
  let sections := lineRanges heading content
  if sections.isEmpty then boundedRanges sha256 rounds content policy strategy
  else
    rangesChunks sha256 rounds content policy strategy
      (fun start stop ↦
        sha256 (spanKeyText (chunkingContractVersion ++ ":" ++ strategy.asStr) start stop))
      sections

/-- A line that opens a message of an exported transcript. -/
def isMessageMarker (line : List Char) : Bool :=
  let marker := trimStart line
  "From:".toList.isPrefixOf marker || ['>'].isPrefixOf marker || ['['].isPrefixOf marker

def messageChunks (sha256 : List Char → String) (rounds : ℕ) (content : List Char)
    (policy : ChunkingPolicy) : Option (List ChunkSpec) :=
  let records := lineRanges isMessageMarker content
  if records.length ≤ 1 then boundedRanges sha256 rounds content policy .messageThread
  else
    rangesChunks sha256 rounds content policy .messageThread
      (fun start stop ↦ sha256 (spanKeyText "message" start stop)) records

/-- A line that opens a field of a structured record. -/
def isFieldLine (line : List Char) : Bool :=
  line.contains ':' && line.head?.any Char.isAlpha

def structuredChunks (sha256 : List Char → String) (rounds : ℕ) (content : List Char)
    (strategy : ChunkStrategy) (policy : ChunkingPolicy) : Option (List ChunkSpec) :=
  let fields := lineRanges isFieldLine content
  if fields.length ≤ 1 then boundedRanges sha256 rounds content policy strategy
  else
    rangesChunks sha256 rounds content policy strategy
      (fun start stop ↦ sha256 (spanKeyText "record" start stop)) fields

/-! ## Code documents -/

/-- `Vec::dedup`: drop every element equal to the one before it. -/
def dedupConsecutive : List ℕ → List ℕ
  | a :: b :: rest =>
      if a = b then dedupConsecutive (b :: rest) else a :: dedupConsecutive (b :: rest)
  | short => short

/-- The ranges between consecutive starts, the last one up to the end. -/
def startRanges (stop : ℕ) : List ℕ → List (ℕ × ℕ)
  | [] => []
  | [start] => [(start, stop)]
  | start :: next :: rest => (start, next) :: startRanges stop (next :: rest)

/-- What `code_chunks` reads of `parse_document`: the starts of the symbols
when the parse is complete. -/
structure ParsedSymbols where
  complete : Bool
  starts : List ℕ

def symbolRanges (content : List Char) (symbols : List ℕ) : List (ℕ × ℕ) :=
  let starts := dedupConsecutive (symbols.mergeSort (· ≤ ·))
  let starts := if 0 < starts.head?.getD 0 then 0 :: starts else starts
  startRanges (byteLen content) starts

def codeChunks (sha256 : List Char → String) (parse : Document → ParsedSymbols) (rounds : ℕ)
    (document : Document) (policy : ChunkingPolicy) : Option (List ChunkSpec) :=
  let content := document.content.toList
  let parsed := parse document
  if !parsed.complete || parsed.starts.isEmpty then
    genericChunks sha256 rounds content policy
  else
    rangesChunks sha256 rounds content policy .codeSymbol
      (fun start stop ↦ sha256 (spanKeyText ("code:" ++ document.sourceId) start stop))
      (symbolRanges content parsed.starts)

/-! ## Choosing a strategy -/

/-- `Path::file_name` of a slash-separated path. -/
def fileName (path : List Char) : Option (List Char) :=
  let components := ((splitInclusive '/' path).map fun part ↦ part.filter (· ≠ '/')).filter
    fun part ↦ part ≠ [] && part ≠ ['.']
  components.getLast?.filter (· ≠ ['.', '.'])

/-- `Path::extension`. -/
def extension (path : List Char) : Option (List Char) :=
  (fileName path).bind fun name ↦
    match name.reverse.span (· ≠ '.') with
    | (_, []) => none
    | (after, _ :: before) => if before = [] then none else some after.reverse

/-- `code_intelligence::Language`. -/
inductive Language where
  | rust
  | python
  | typeScript
  | javaScript
  | go
  | java
  | cpp
  | swift
  | ruby
  | unknown
  deriving DecidableEq, Repr

def detectLanguage (path : String) : Language :=
  match String.ofList (toAsciiLowercase ((extension path.toList).getD [])) with
  | "rs" => .rust
  | "py" => .python
  | "ts" | "tsx" => .typeScript
  | "js" | "jsx" | "mjs" | "cjs" => .javaScript
  | "go" => .go
  | "java" | "kt" => .java
  | "c" | "cc" | "cpp" | "h" | "hpp" => .cpp
  | "swift" => .swift
  | "rb" => .ruby
  | _ => .unknown

def strategyFor (document : Document) : ChunkStrategy :=
  let value := fun key ↦ (document.metadata.get key).bind Value.asStr
  let kind := toAsciiLowercase ((value "mime_type" <|> value "mimeType" <|>
    value "content_type" <|> value "format" <|> value "extension").getD "").toList
  let has := fun (part : String) ↦ containsText kind part.toList
  let is := fun (whole : String) ↦ kind == whole.toList
  let key := document.metadata.containsKey
  if key "code" && detectLanguage document.sourceId != .unknown then .codeSymbol
  else if has "markdown" || has "google-apps.document" || has "wordprocessingml" ||
      has "opendocument.text" || is "md" || is ".md" then .markdownSection
  else if has "html" || is "htm" || is ".htm" || is "html" || is ".html" then .htmlSection
  else if key "thread_id" || key "message_id" || key "channel_id" || key "participants" ||
      ["gmail", "slack", "discord"].contains document.source then .messageThread
  else if key "event_id" || key "start" || key "start_time" || key "recurrence" ||
      containsText document.source.toList "calendar".toList then .calendarEvent
  else if key "fields" || key "record_type" then .structuredRecord
  else .generic

/-! ## The whole document -/

/-- `link_chunks`: number the chunks and link each one to its neighbours. -/
def linkChunks (chunks : List ChunkSpec) : List ChunkSpec :=
  chunks.zipIdx.map fun (chunk, index) ↦
    { chunk with
      ordinal := index
      previousKey := if index = 0 then none else (chunks[index - 1]?).map ChunkSpec.key
      nextKey := (chunks[index + 1]?).map ChunkSpec.key }

/-- The chunks of `chunk_document_with_policy` before they are linked. -/
def strategyChunks (sha256 : List Char → String) (parse : Document → ParsedSymbols)
    (rounds : ℕ) (document : Document) (policy : ChunkingPolicy) : Option (List ChunkSpec) :=
  let content := document.content.toList
  let strategy := strategyFor document
  match strategy with
  | .markdownSection => sectionChunks sha256 rounds content strategy policy isMarkdownHeading
  | .htmlSection => sectionChunks sha256 rounds content strategy policy isHtmlHeading
  | .messageThread => messageChunks sha256 rounds content policy
  | .calendarEvent => structuredChunks sha256 rounds content strategy policy
  | .structuredRecord => structuredChunks sha256 rounds content strategy policy
  | .codeSymbol => codeChunks sha256 parse rounds document policy
  | .generic => genericChunks sha256 rounds content policy

def chunkDocumentWithPolicy (sha256 : List Char → String) (parse : Document → ParsedSymbols)
    (rounds : ℕ) (document : Document) (policy : ChunkingPolicy) : Option (List ChunkSpec) :=
  (strategyChunks sha256 parse rounds document policy).map linkChunks

def chunkDocument (sha256 : List Char → String) (parse : Document → ParsedSymbols)
    (rounds : ℕ) (document : Document) : Option (List ChunkSpec) :=
  chunkDocumentWithPolicy sha256 parse rounds document .default

end Cortana
