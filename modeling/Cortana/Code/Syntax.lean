import Cortana.Chunking.Model
import Cortana.Code.Relations
import Cortana.Text.Unicode

/-!
# Lines of source code

What the bounded parser reads off a single line: declarations, aliases,
imports, calls and inheritance.  The table of alphanumeric characters is a
parameter.
-/

namespace Cortana

open ByteText

namespace CodeParser

/-! ## Strings -/

/-- `trim_start_matches` of a text, for at most so many times. -/
def trimStartMatches (pat : List Char) : ℕ → List Char → List Char
  | 0, s => s
  | times + 1, s =>
      if pat.isPrefixOf s then trimStartMatches pat times (s.drop pat.length) else s

/-- `split_once`. -/
def splitOnce (pat : List Char) : List Char → Option (List Char × List Char)
  | [] => if pat = [] then some ([], []) else none
  | c :: s =>
      if pat.isPrefixOf (c :: s) then some ([], (c :: s).drop pat.length)
      else (splitOnce pat s).map fun parts ↦ (c :: parts.1, parts.2)

/-- `trim_matches` of characters. -/
def trimMatches (p : Char → Bool) (s : List Char) : List Char := (s.dropWhile p).rdropWhile p

def startsWith (s : List Char) (start : String) : Bool := start.toList.isPrefixOf s

/-! ## Declarations -/

inductive SymbolKind where
  | module
  | «class»
  | interface
  | struct
  | enum
  | trait
  | function
  | method
  | constant
  | variable
deriving DecidableEq

/-- `{:?}`. -/
def SymbolKind.debug : SymbolKind → String
  | .module => "Module"
  | .class => "Class"
  | .interface => "Interface"
  | .struct => "Struct"
  | .enum => "Enum"
  | .trait => "Trait"
  | .function => "Function"
  | .method => "Method"
  | .constant => "Constant"
  | .variable => "Variable"

/-- What `declaration` returns. -/
structure Declaration where
  name : String
  kind : SymbolKind
  signature : String
  visibility : Option String

def modifiers : List String :=
  ["export ", "async ", "public ", "private ", "protected ", "static ", "override "]

/-- The loop over the modifiers; every round but the last shortens the line. -/
def stripModifiers : ℕ → List Char → List Char
  | 0, line => line
  | rounds + 1, line =>
      let normalized := modifiers.foldl
        (fun s modifier ↦ trimStartMatches modifier.toList s.length s) line
      if normalized = line then line else stripModifiers rounds normalized

def patterns : Language → List (String × SymbolKind)
  | .rust =>
      [("pub fn ", .function), ("fn ", .function), ("pub struct ", .struct), ("struct ", .struct),
        ("pub enum ", .enum), ("enum ", .enum), ("pub trait ", .trait), ("trait ", .trait),
        ("mod ", .module), ("const ", .constant)]
  | .python => [("def ", .function), ("class ", .class)]
  | .typeScript | .javaScript =>
      [("function ", .function), ("class ", .class), ("interface ", .interface),
        ("type ", .struct), ("const ", .constant), ("let ", .variable)]
  | .go =>
      [("func ", .function), ("type ", .struct), ("const ", .constant), ("var ", .variable)]
  | .java | .cpp | .swift | .ruby =>
      [("class ", .class), ("interface ", .interface), ("struct ", .struct),
        ("func ", .function), ("def ", .function)]
  | .unknown => []

section Words

variable (unicode : Unicode)

/-- A character of a name. -/
def isWord (c : Char) : Bool := unicode.isAlphanumeric c || c == '_'

/-- `split` at all other characters. -/
def wordsOf (s : List Char) : List (List Char) := s.splitOnP fun c ↦ !isWord unicode c

/-- `declaration`. -/
def declaration (line : List Char) (language : Language) : Option Declaration :=
  let normalized := stripModifiers line.length line
  (patterns language).findSome? fun pattern ↦
    (stripPrefix pattern.1.toList normalized).bind fun rest ↦
      let name := rest.takeWhile (isWord unicode)
      if name = [] then none
      else some {
        name := String.ofList name
        kind := pattern.2
        signature := String.ofList (trim line)
        visibility :=
          if startsWith line "pub " || startsWith line "export " then some "public" else none }

/-- `alias_declaration`. -/
def aliasDeclaration (line : List Char) (language : Language) : Option (String × String) :=
  let eligible := match language with
    | .rust => startsWith line "use " || startsWith line "pub use "
    | .python => startsWith line "import " || startsWith line "from "
    | .typeScript | .javaScript => startsWith line "import " || startsWith line "export "
    | _ => false
  let bracket := fun c ↦ c == '\x7b' || c == '\x7d' || c == ';'
  if eligible then
    (splitOnce " as ".toList line).bind fun parts ↦
      ((wordsOf unicode (trimMatches bracket parts.1)).reverse.find? (· ≠ [])).bind fun original ↦
        ((wordsOf unicode (trimMatches bracket parts.2)).find? (· ≠ [])).map fun name ↦
          (String.ofList original, String.ofList name)
  else none

/-- `exported_name`. -/
def exportedName (line : List Char) (language : Language) : Option String :=
  (aliasDeclaration unicode line language).map Prod.snd <|>
    (declaration unicode line language).map Declaration.name

/-- `import_target`. -/
def importTarget (line : List Char) (language : Language) : Option String :=
  let target := match language with
    | .rust => stripPrefix "use ".toList line <|> stripPrefix "mod ".toList line
    | .python => stripPrefix "import ".toList line <|> stripPrefix "from ".toList line
    | .unknown => none
    | _ => stripPrefix "import ".toList line
  target.bind fun target ↦
    ((wordsOf unicode (trimMatches (fun c ↦ c == ';' || c == '\'' || c == '"') target)).reverse.find?
      fun part ↦ part ≠ [] && !(["as", "crate", "from", "import", "mod", "pub", "self", "super",
        "use"].contains (String.ofList part))).map String.ofList

/-! ## Calls and inheritance -/

/-- The name in front of each opening parenthesis. -/
def calledNames (before : List Char) : List Char → List (List Char)
  | [] => []
  | c :: rest =>
      let names := calledNames (before ++ [c]) rest
      if c = '(' then (before.rdropWhile isWhitespace).rtakeWhile (isWord unicode) :: names
      else names

/-- `call_tokens`, in the order of the set. -/
def callTokens (line : List Char) : List String :=
  ((((calledNames unicode [] line).filter (· ≠ [])).map String.ofList).filter fun name ↦
    !(["if", "for", "while", "match", "fn", "function", "def"].contains
      name)).dedup.insertionSort (· ≤ ·)

end Words

/-- `is_dynamic_call`. -/
def isDynamicCall (line : List Char) (token : String) : Bool :=
  ["eval", "exec", "getattr", "send", "apply", "invoke"].contains token ||
    containsText line ("[" ++ token ++ "]").toList

/-- `inheritance_targets`. -/
def inheritanceTargets (line : List Char) (language : Language) : List (RelationKind × String) :=
  let targets := [(" extends ", RelationKind.inheritance),
    (" implements ", RelationKind.implementation)].flatMap fun keyword ↦
      match splitOnce keyword.1.toList line with
      | none => []
      | some (_, rest) =>
          ((rest.splitOnP fun c ↦ c == ',' || c == '\x7b' || c == ':').map trim).filterMap
            fun target ↦ (splitWhitespace target).head?.map fun name ↦
              (keyword.2, String.ofList name)
  let start := trimStart line
  if language = .rust && startsWith start "impl " then
    match splitOnce " for ".toList (trimStartMatches "impl ".toList start.length start) with
    | none => targets
    | some (interface, target) =>
        let name := trimMatches (· == '\x7b') ((splitWhitespace target).headD [])
        targets ++ [(.implementation, String.ofList (trim interface))] ++
          (if name = [] then [] else [(.reference, String.ofList name)])
  else targets

/-! ## Comments and delimiters -/

/-- `is_doc_comment`. -/
def isDocComment (line : List Char) (language : Language) : Bool :=
  startsWith line "///" || startsWith line "/**" || (language == .python && startsWith line "#")

/-- What is kept of a documentation comment. -/
def docText (line : List Char) : String :=
  String.ofList (trim (line.dropWhile fun c ↦ c == '/' || c == '#' || c == '!' || c == '*'))

/-- The variables of `delimiters_balanced`. -/
structure Delimiters where
  stack : List Char
  quote : Option Char
  escaped : Bool

/-- One character of `delimiters_balanced`; `none` is the early return. -/
def Delimiters.read (state : Delimiters) (c : Char) : Option Delimiters :=
  match state.quote with
  | some active =>
      if state.escaped then some { state with escaped := false }
      else if c = '\\' then some { state with escaped := true }
      else if c = active then some { state with quote := none }
      else some state
  | none =>
      if c = '\'' || c = '"' || c = '\x60' then some { state with quote := some c }
      else if c = '(' || c = '[' || c = '\x7b' then some { state with stack := c :: state.stack }
      else
        let closes := fun (opening : Char) ↦
          if state.stack.head? = some opening then some { state with stack := state.stack.tail }
          else none
        if c = ')' then closes '('
        else if c = ']' then closes '['
        else if c = '\x7d' then closes '\x7b'
        else some state

/-- `delimiters_balanced`. -/
def delimitersBalanced (content : List Char) : Bool :=
  (content.foldlM Delimiters.read ⟨[], none, false⟩).any fun state ↦
    state.stack.isEmpty && state.quote.isNone

end CodeParser

end Cortana
