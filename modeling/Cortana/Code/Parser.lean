import Cortana.Code.Syntax

/-!
# The bounded parser

`parse_document`: a first pass over the lines of a source records symbols, the
passes after it the relations, all within the budgets of the limits.  The hash
and the clock are parameters.
-/

namespace Cortana

open ByteText

namespace CodeParser

def codeIndexContractVersion : String := "cortana.code-index.v1"

def boundedParserVersion : String := "cortana.bounded-parser.v2"

/-! ## What a parse returns -/

/-- `ParseLimits`; the timeout in milliseconds. -/
structure ParseLimits where
  maxBytes : ℕ
  maxMemoryBytes : ℕ
  maxSymbols : ℕ
  maxRelations : ℕ
  timeout : ℕ

def ParseLimits.default : ParseLimits := ⟨2000000, 64 * 1024 * 1024, 20000, 40000, 250⟩

inductive ParseStatus where
  | complete
  | partly
  | unsupported
  | oversized
  | cancelled
  | timedOut
deriving DecidableEq

inductive SymbolRole where
  | definition
  | declaration
deriving DecidableEq

/-- `CodeSymbol`. -/
structure CodeSymbol where
  id : String
  name : String
  qualifiedName : String
  kind : SymbolKind
  role : SymbolRole
  language : Language
  repositoryId : Option String
  revision : Option String
  file : String
  span : SourceSpan
  signature : String
  visibility : Option String
  container : Option String
  documentation : Option String
  aliases : List String
  generated : Bool

/-- `ParseOutput`. -/
structure ParseOutput where
  contractVersion : String
  parserVersion : String
  language : Language
  status : ParseStatus
  contentHash : String
  cacheKey : String
  diagnostics : List String
  symbols : List CodeSymbol
  relations : List CodeRelation

/-- What the parser reads besides the document and the limits: whether it is
cancelled at the start, and whether it is cancelled or out of time at a line. -/
structure Clock where
  cancelled : Bool
  cancelledAt : ℕ → Bool
  elapsedAt : ℕ → Bool

/-- A clock that lets a parse run. -/
def Clock.still : Clock := ⟨false, fun _ ↦ false, fun _ ↦ false⟩

/-! ## Identities -/

/-- What all symbols and relations of a document carry. -/
structure Source where
  stableHash : List Char → String
  unicode : Unicode
  file : String
  language : Language
  repositoryId : Option String
  revision : Option String
  generated : Bool

/-- `code_value`. -/
def codeValue (document : Document) (key : String) : Option String :=
  ((document.metadata.get "code").bind fun value ↦ value.get key).bind Value.asStr

def Source.of (stableHash : List Char → String) (unicode : Unicode) (document : Document) :
    Source where
  stableHash := stableHash
  unicode := unicode
  file := document.sourceId
  language := detectLanguage document.sourceId
  repositoryId := codeValue document "repository_id"
  revision := codeValue document "revision"
  generated :=
    match (document.metadata.get "code").bind fun value ↦ value.get "generated" with
    | some (.bool flag) => flag
    | _ => false

/-- `symbol_id`. -/
def Source.symbolId (source : Source) (qualified : String) (kind : SymbolKind)
    (span : SourceSpan) : String :=
  source.stableHash ((source.repositoryId.getD "local" ++ ":" ++
    source.revision.getD "unknown" ++ ":" ++ source.file ++ ":" ++ qualified ++ ":" ++
    kind.debug).toList ++ ':' :: Nat.toDigits 10 span.startByte)

/-- `{:?}` of a kind. -/
def debugKind : RelationKind → String
  | .import => "Import"
  | .dependency => "Dependency"
  | .inheritance => "Inheritance"
  | .implementation => "Implementation"
  | .call => "Call"
  | .containment => "Containment"
  | .reference => "Reference"
  | .export => "Export"
  | .override => "Override"

/-- `relation`. -/
def Source.relation (source : Source) (kind : RelationKind) (fromSymbolId : Option String)
    (fromName : String) (toSymbolId : Option String) (toName : String) (span : SourceSpan)
    (confidence : ℚ) (origin : RelationOrigin) (dynamic : Bool) : CodeRelation where
  id := source.stableHash ((debugKind kind ++ ":" ++ source.repositoryId.getD "none" ++ ":" ++
    source.file ++ ":" ++ fromSymbolId.getD "none" ++ ":" ++ fromName ++ ":" ++ toName).toList ++
    ':' :: Nat.toDigits 10 span.startByte ++ ':' :: (source.revision.getD "none").toList)
  kind := kind
  fromSymbolId := fromSymbolId
  fromName := fromName
  toSymbolId := toSymbolId
  toName := toName
  repositoryId := source.repositoryId
  revision := source.revision
  file := source.file
  span := span
  parserVersion := boundedParserVersion
  confidence := confidence
  origin := origin
  resolved := toSymbolId.isSome
  dynamic := dynamic

/-- The text that `parser_cache_key` hashes after the content's hash. -/
def parserCacheKey (source : Source) (content : List Char) (limits : ParseLimits) : String :=
  let digits := fun n ↦ String.ofList (Nat.toDigits 10 n)
  source.stableHash (":".intercalate [source.stableHash content,
    match source.language with
    | .rust => "rust"
    | .python => "python"
    | .typeScript => "typescript"
    | .javaScript => "javascript"
    | .go => "go"
    | .java => "java"
    | .cpp => "cpp"
    | .swift => "swift"
    | .ruby => "ruby"
    | .unknown => "unknown",
    boundedParserVersion, digits limits.maxBytes, digits limits.maxMemoryBytes,
    digits limits.maxSymbols, digits limits.maxRelations, digits limits.timeout,
    source.repositoryId.getD "none", source.revision.getD "none"]).toList

/-! ## Lines -/

/-- A line with its number and the offset it starts at. -/
structure Line where
  index : ℕ
  offset : ℕ
  text : List Char

namespace Line

def bare (line : Line) : List Char := line.text.rdropWhile fun c ↦ c == '\x0d' || c == '\n'

def trimmed (line : Line) : List Char := trimStart line.bare

def indent (line : Line) : ℕ := byteLen line.bare - byteLen line.trimmed

/-- Where a declaration on the line stands. -/
def span (line : Line) : SourceSpan :=
  ⟨line.offset + line.indent, line.offset + byteLen line.bare, line.index + 1, line.index + 1⟩

/-- Where a relation of the line stands. -/
def wholeSpan (line : Line) : SourceSpan :=
  ⟨line.offset, line.offset + byteLen line.bare, line.index + 1, line.index + 1⟩

end Line

/-- The lines of a text. -/
def linesOf (content : List Char) : List Line :=
  (withOffsets 0 (splitInclusive '\n' content)).zipIdx.map fun entry ↦
    ⟨entry.2, entry.1.1, entry.1.2⟩

/-! ## Symbols -/

/-- The variables of the first pass; the innermost container comes first. -/
structure Scan where
  symbols : List CodeSymbol
  containers : List (ℕ × String)
  declarations : List (String × String)
  imports : List (String × SourceSpan)
  exports : List (String × SourceSpan)
  overrides : List (String × SourceSpan)
  pendingDocs : List String
  status : ParseStatus
  diagnostics : List String

def Scan.exhausted (scan : Scan) : Scan :=
  { scan with
    status := .partly
    diagnostics := scan.diagnostics ++ ["symbol budget exhausted"] }

/-- Record a symbol under its name. -/
def Scan.declare (scan : Scan) (symbol : CodeSymbol) : Scan :=
  { scan with
    symbols := scan.symbols ++ [symbol]
    declarations := scan.declarations ++ [(symbol.name, symbol.id)]
    pendingDocs := [] }

def SymbolKind.isContainer : SymbolKind → Bool
  | .class | .interface | .struct | .enum | .trait | .module => true
  | _ => false

/-- The name of a symbol in its container. -/
def qualify (container : Option String) (name : String) : String :=
  container.elim name fun parent ↦ parent ++ "::" ++ name

/-- The symbol of a declaration. -/
def Source.declared (source : Source) (scan : Scan) (line : Line) (d : Declaration) :
    CodeSymbol :=
  let container := scan.containers.head?.map Prod.snd
  let qualified := qualify container d.name
  { id := source.symbolId qualified d.kind line.span
    name := d.name
    qualifiedName := qualified
    kind := d.kind
    role := if d.kind = .interface ∨ d.kind = .trait then .declaration else .definition
    language := source.language
    repositoryId := source.repositoryId
    revision := source.revision
    file := source.file
    span := line.span
    signature := d.signature
    visibility := d.visibility
    container := container
    documentation :=
      if scan.pendingDocs = [] then none else some ("\n".intercalate scan.pendingDocs)
    aliases := []
    generated := source.generated }

/-- The symbol of an alias. -/
def Source.aliased (source : Source) (scan : Scan) (line : Line) (original name : String) :
    CodeSymbol where
  id := source.symbolId name .module line.span
  name := name
  qualifiedName := name
  kind := .module
  role := .declaration
  language := source.language
  repositoryId := source.repositoryId
  revision := source.revision
  file := source.file
  span := line.span
  signature := String.ofList line.trimmed
  visibility := none
  container := none
  documentation :=
    if scan.pendingDocs = [] then none else some ("\n".intercalate scan.pendingDocs)
  aliases := [original]
  generated := source.generated

/-- What a line adds to the imports, the exports and the overrides. -/
def Source.note (source : Source) (scan : Scan) (line : Line) : Scan :=
  let trimmed := line.trimmed
  { scan with
    imports := scan.imports ++
      ((importTarget source.unicode trimmed source.language).map fun name ↦
        (name, line.span)).toList
    exports := scan.exports ++
      (if startsWith trimmed "export " || startsWith trimmed "pub use " then
        ((exportedName source.unicode trimmed source.language).map fun name ↦
          (name, line.span)).toList
      else [])
    overrides := scan.overrides ++
      (if (splitWhitespace trimmed).contains "override".toList then
        ((declaration source.unicode trimmed source.language).map fun d ↦
          (d.name, line.span)).toList
      else []) }

/-- One round of the first pass; an error is a `break`. -/
def Source.scanLine (source : Source) (clock : Clock) (maxSymbols : ℕ) (scan : Scan)
    (line : Line) : Except Scan Scan :=
  if clock.cancelledAt line.index then .error { scan with status := .cancelled }
  else if clock.elapsedAt line.index then
    .error { scan with
      status := .timedOut
      diagnostics := scan.diagnostics ++ ["parser time budget exceeded"] }
  else
    let trimmed := line.trimmed
    let scan := { scan with
      containers := scan.containers.dropWhile fun container ↦ line.indent ≤ container.1 }
    if isDocComment trimmed source.language then
      .ok { scan with pendingDocs := scan.pendingDocs ++ [docText trimmed] }
    else
      let scan := source.note scan line
      match declaration source.unicode trimmed source.language with
      | some d =>
          if maxSymbols ≤ scan.symbols.length then .error scan.exhausted
          else
            let symbol := source.declared scan line d
            let scan := scan.declare symbol
            .ok { scan with
              containers :=
                if d.kind.isContainer then (line.indent, symbol.qualifiedName) :: scan.containers
                else scan.containers }
      | none =>
          match aliasDeclaration source.unicode trimmed source.language with
          | some (original, name) =>
              if maxSymbols ≤ scan.symbols.length then .error scan.exhausted
              else .ok (scan.declare (source.aliased scan line original name))
          | none => .ok { scan with pendingDocs := if trimmed = [] then scan.pendingDocs else [] }

/-- The value of a loop that may have ended by a `break`. -/
def settle {α : Type} : Except α α → α
  | .ok a => a
  | .error a => a

/-! ## Relations -/

/-- The relations and the status of the later passes. -/
structure Emission where
  relations : List CodeRelation
  status : ParseStatus
  diagnostics : List String

def Emission.exhausted (emission : Emission) : Emission :=
  { emission with
    status := .partly
    diagnostics := emission.diagnostics ++ ["relation budget exhausted"] }

/-- One round of a loop over relations: the budget is checked, and a relation is
pushed if the round makes one. -/
def Emission.push (maxRelations : ℕ) (emission : Emission) (made : Option CodeRelation) :
    Except Emission Emission :=
  if maxRelations ≤ emission.relations.length then .error emission.exhausted
  else .ok { emission with relations := emission.relations ++ made.toList }

/-- The ids under a name. -/
def candidates (declarations : List (String × String)) (name : String) : List String :=
  (declarations.filter fun entry ↦ entry.1 = name).map Prod.snd

/-- The target of a name that has one declaration. -/
def uniqueTarget (declarations : List (String × String)) (name : String) : Option String :=
  match candidates declarations name with
  | [id] => some id
  | _ => none

/-- The containment of a symbol. -/
def Source.containment (source : Source) (symbols : List CodeSymbol) (symbol : CodeSymbol) :
    Option CodeRelation :=
  symbol.container.map fun container ↦
    let parent := symbols.find? fun candidate ↦ candidate.qualifiedName = container
    source.relation .containment (some symbol.id) symbol.name (parent.map CodeSymbol.id) container
      symbol.span 1 .resolved false

/-- An export or an override. -/
def Source.surface (source : Source) (declarations : List (String × String))
    (kind : RelationKind) (entry : String × SourceSpan) : CodeRelation :=
  let target := uniqueTarget declarations entry.1
  let destination := if kind = .override then none else target
  source.relation kind target entry.1 destination entry.1 entry.2 (9 / 10)
    (if target.isSome then .resolved else .unresolved) false

/-- One round of the loop over the imports. -/
def Source.pushImport (source : Source) (declarations : List (String × String))
    (moduleId : String) (maxRelations : ℕ) (emission : Emission) (entry : String × SourceSpan) :
    Except Emission Emission :=
  let found := candidates declarations entry.1
  let ambiguous := decide (1 < found.length)
  (emission.push maxRelations (some (source.relation .import (some moduleId) source.file
    (uniqueTarget declarations entry.1) entry.1 entry.2 (if ambiguous then 1 / 2 else 1)
    (if ambiguous then .ambiguous else if found ≠ [] then .resolved else .directSyntax)
    false))).map fun emission ↦
      if emission.relations.length < maxRelations then
        { emission with relations := emission.relations ++ [source.relation .dependency
          (some moduleId) source.file none entry.1 entry.2 (3 / 4) .inferred false] }
      else emission

/-- The symbol a line belongs to. -/
def owner (symbols : List CodeSymbol) (line : Line) : Option CodeSymbol :=
  symbols.reverse.find? fun symbol ↦ symbol.span.startByte ≤ line.offset

/-- The call of a token on a line, unless it is the name that the line
declares. -/
def Source.call (source : Source) (symbols : List CodeSymbol)
    (declarations : List (String × String)) (line : Line) (token : String) :
    Option CodeRelation :=
  let owner := owner symbols line
  if owner.any fun symbol ↦ symbol.name = token ∧ symbol.span.startLine = line.index + 1 then none
  else
    let found := candidates declarations token
    let target := uniqueTarget declarations token
    let dynamic := isDynamicCall line.text token
    some (source.relation .call (owner.map CodeSymbol.id) (owner.elim source.file CodeSymbol.name)
      target token line.wholeSpan (if target.isSome then 19 / 20 else 1 / 2)
      (if dynamic then .dynamic else if 1 < found.length then .ambiguous
        else if target.isSome then .resolved else .unresolved) dynamic)

/-- An inheritance, an implementation or a reference on a line. -/
def Source.inheritance (source : Source) (symbols : List CodeSymbol)
    (declarations : List (String × String)) (line : Line) (entry : RelationKind × String) :
    CodeRelation :=
  let owner := owner symbols line
  let target := uniqueTarget declarations entry.2
  source.relation entry.1 (owner.map CodeSymbol.id) (owner.elim source.file CodeSymbol.name)
    target entry.2 line.wholeSpan (9 / 10) (if target.isSome then .resolved else .unresolved) false

/-- One round of the last pass. -/
def Source.pushLine (source : Source) (symbols : List CodeSymbol)
    (declarations : List (String × String)) (maxRelations : ℕ) (emission : Emission)
    (line : Line) : Except Emission Emission :=
  if maxRelations ≤ emission.relations.length then .error emission.exhausted
  else do
    let emission ← ((callTokens source.unicode line.text).map
      (source.call symbols declarations line)).foldlM (Emission.push maxRelations) emission
    ((inheritanceTargets line.text source.language).map fun entry ↦
      some (source.inheritance symbols declarations line entry)).foldlM
        (Emission.push maxRelations) emission

/-- All relations of a scanned source. -/
def Source.relate (source : Source) (content : List Char) (moduleId : String)
    (maxRelations : ℕ) (scan : Scan) : Emission :=
  let emission := Emission.mk [] scan.status scan.diagnostics
  let emission := settle ((scan.symbols.map (source.containment scan.symbols)).foldlM
    (Emission.push maxRelations) emission)
  let emission := settle ((scan.exports.map fun entry ↦
    some (source.surface scan.declarations .export entry)).foldlM
      (Emission.push maxRelations) emission)
  let emission := settle ((scan.overrides.map fun entry ↦
    some (source.surface scan.declarations .override entry)).foldlM
      (Emission.push maxRelations) emission)
  let emission := settle (scan.imports.foldlM
    (source.pushImport scan.declarations moduleId maxRelations) emission)
  settle ((linesOf content).foldlM
    (source.pushLine scan.symbols scan.declarations maxRelations) emission)

/-! ## The whole document -/

/-- `Path::file_stem`. -/
def fileStem (path : List Char) : Option (List Char) :=
  (fileName path).map fun name ↦
    match name.reverse.span (· ≠ '.') with
    | (_, []) => name
    | (_, _ :: before) => if before = [] then name else before.reverse

def moduleNameOf (file : String) : String :=
  ((fileStem file.toList).map String.ofList).getD file

def moduleSpan (content : List Char) : SourceSpan :=
  ⟨0, byteLen content, 1, max (splitInclusive '\n' content).length 1⟩

/-- The symbol of the document itself. -/
def Source.moduleSymbol (source : Source) (content : List Char) : CodeSymbol where
  id := source.symbolId source.file .module (moduleSpan content)
  name := moduleNameOf source.file
  qualifiedName := source.file
  kind := .module
  role := .definition
  language := source.language
  repositoryId := source.repositoryId
  revision := source.revision
  file := source.file
  span := moduleSpan content
  signature := "module " ++ source.file
  visibility := none
  container := none
  documentation := none
  aliases := []
  generated := source.generated

/-- What the first pass starts with. -/
def Source.start (source : Source) (content : List Char) (status : ParseStatus)
    (diagnostics : List String) : Scan :=
  { symbols := [source.moduleSymbol content]
    containers := []
    declarations := [(moduleNameOf source.file, (source.moduleSymbol content).id)]
    imports := []
    exports := []
    overrides := []
    pendingDocs := []
    status := status
    diagnostics := diagnostics }

/-- The symbols that fit into the budgets. -/
def ParseLimits.symbolBudget (limits : ParseLimits) (content : List Char) : ℕ :=
  min limits.maxSymbols ((limits.maxMemoryBytes - byteLen content) / 1024)

/-- The relations that fit into what the symbols leave. -/
def ParseLimits.relationBudget (limits : ParseLimits) (content : List Char) : ℕ :=
  min limits.maxRelations
    ((limits.maxMemoryBytes - byteLen content - limits.symbolBudget content * 1024) / 512)

/-- `parse_document`. -/
def parseDocument (stableHash : List Char → String) (unicode : Unicode) (clock : Clock)
    (limits : ParseLimits) (document : Document) : ParseOutput :=
  let source := Source.of stableHash unicode document
  let content := document.content.toList
  let output := fun status diagnostics symbols relations ↦ ({
    contractVersion := codeIndexContractVersion
    parserVersion := boundedParserVersion
    language := source.language
    status := status
    contentHash := stableHash content
    cacheKey := parserCacheKey source content limits
    diagnostics := diagnostics
    symbols := symbols
    relations := relations } : ParseOutput)
  if clock.cancelled then output .cancelled [] [] []
  else if limits.maxBytes < byteLen content then
    output .oversized ["file exceeds parser byte budget"] [] []
  else if limits.maxMemoryBytes < byteLen content then
    output .oversized ["file exceeds parser memory budget"] [] []
  else if source.language = .unknown then output .unsupported [] [] []
  else
    let balanced := delimitersBalanced content
    let status := if balanced then ParseStatus.complete else .partly
    let diagnostics := if balanced then [] else ["source contains unbalanced delimiters"]
    if limits.symbolBudget content = 0 then
      output .partly (diagnostics ++ ["symbol budget exhausted"]) [] []
    else
      let scan := settle ((linesOf content).foldlM
        (source.scanLine clock (limits.symbolBudget content))
        (source.start content status diagnostics))
      let emission := source.relate content (source.moduleSymbol content).id
        (limits.relationBudget content) scan
      output emission.status emission.diagnostics scan.symbols emission.relations

end CodeParser

end Cortana
