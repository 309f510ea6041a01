import Cortana.Ingest.Batch
import Cortana.Store.Links

/-!
# What a source emits

The walk of a filesystem source (`connectors.rs`) and the spool of a connector,
as they are read by a run: entries and lines in their order, each of which may
be an error.
-/

namespace Cortana

/-- An entry that the walk below a root yields, ignore files being honoured. -/
structure FileEntry where
  /-- The components below the root, none for the root itself. -/
  path : List String
  isFile : Bool
  /-- `metadata().len()`. -/
  length : Except String ℕ
  /-- `read_to_string`. -/
  content : Except String String
  modified : String

/-- A filesystem source, with the two walks that a run makes. -/
structure FilesystemSource where
  rootName : String
  exclude : List (List String)
  repositoryId : String
  /-- `RepositoryIdentity::metadata`. -/
  repository : List (String × Value)
  planned : List (Except String FileEntry)
  entries : List (Except String FileEntry)

/-- What a connector left when it ended well. -/
structure Spool where
  bytes : ℕ
  lines : List (Except String String)

/-- The input of a run. -/
inductive Emission where
  | filesystem (walk : Except String FilesystemSource)
  | connector (spool : Except String Spool)

namespace FileEntry

/-- `Path::extension` of a file name. -/
def extension (name : String) : Option String :=
  let reversed := name.toList.reverse
  match reversed.dropWhile (· ≠ '.') with
  | _ :: before =>
      if before = [] ∨ name = ".." then none
      else some (String.ofList (reversed.takeWhile (· ≠ '.')).reverse)
  | [] => none

/-- `TEXT_EXTENSIONS`. -/
def textExtensions : List String :=
  ["c", "cc", "cpp", "cs", "css", "go", "h", "hpp", "html", "java", "js", "jsx", "json", "kt", "md",
    "mdx", "mjs", "py", "rb", "rs", "rst", "sh", "sol", "sql", "swift", "toml", "ts", "tsx", "txt",
    "xml", "yaml", "yml", "zsh"]

/-- The extensions that `detect_language` knows. -/
def codeExtensions : List String :=
  ["rs", "py", "ts", "tsx", "js", "jsx", "mjs", "cjs", "go", "java", "kt", "c", "cc", "cpp", "h",
    "hpp", "swift", "rb"]

/-- The components that `is_generated` skips. -/
def skippedComponents : List String :=
  [".git", ".worktrees", ".venv", "Library", "build", "coverage", "dist", ".next", "node_modules",
    "target", "vendor"]

/-- The bound on the length of a file. -/
def maxFileBytes : ℕ := 2000000

def isGenerated (file : FileEntry) : Bool := file.path.any skippedComponents.contains

def isExcluded (exclude : List (List String)) (file : FileEntry) : Bool :=
  exclude.any fun excluded ↦ excluded ≠ [] && excluded.isPrefixOf file.path

/-- The path a document is named by; a root that is a file is named by itself. -/
def relative (rootName : String) (file : FileEntry) : List String :=
  if file.path = [] then [rootName] else file.path

def relativeText (rootName : String) (file : FileEntry) : String :=
  "/".intercalate (file.relative rootName)

/-- `is_text`. -/
def isText (lowercase : String → String) (rootName : String) (file : FileEntry) : Bool :=
  (((file.relative rootName).getLast?).bind extension).any fun e ↦
    textExtensions.contains (lowercase e)

/-- `detect_language` knows the file. -/
def isCode (rootName : String) (file : FileEntry) : Bool :=
  (((file.relative rootName).getLast?).bind extension).any fun e ↦
    codeExtensions.contains (asciiLowercase e)

/-- `is_generated_or_vendor`. -/
def generatedOrVendor (parts : List String) : Bool × Bool :=
  (parts.any fun part ↦
    ["dist", "build", "coverage", "target", ".next", ".worktrees"].contains part ||
      part.endsWith ".generated.rs" || part.endsWith ".generated.ts",
    parts.any ["vendor", "node_modules", ".venv"].contains)

end FileEntry

namespace FilesystemSource

/-- The entries that are neither generated nor excluded; errors stay. -/
def visible (source : FilesystemSource) (entries : List (Except String FileEntry)) :
    List (Except String FileEntry) :=
  entries.filter fun entry ↦ match entry with
    | .error _ => true
    | .ok file => !file.isGenerated && !file.isExcluded source.exclude

/-- The source id of the document of a file. -/
def fileSourceId (source : FilesystemSource) (file : FileEntry) : String :=
  if file.isCode source.rootName then
    source.repositoryId ++ ":" ++ file.relativeText source.rootName
  else file.relativeText source.rootName

/-- The metadata of the document of a file, in the order of its keys. -/
def fileMetadata (source : FilesystemSource) (file : FileEntry) (length : ℕ) : Value :=
  let parts := file.relative source.rootName
  let marks := FileEntry.generatedOrVendor parts
  let code := orInsert "vendor" (.bool marks.2) (orInsert "generated" (.bool marks.1) source.repository)
  .object (("bytes", .integer length) ::
    (if file.isCode source.rootName then [("code", .object code)] else []) ++
    [("extension", nullableText ((parts.getLast?).bind FileEntry.extension)),
      ("root", .string source.rootName)])

/-- `filesystem_document`: a file that cannot be read is passed over like a
blank one. -/
def filesystemDocument (env : Environment) (config : SourceConfig) (source : FilesystemSource)
    (file : FileEntry) : Except String (Option Document) :=
  if !file.isFile || !file.isText env.lowercase source.rootName then .ok none
  else do
    let length ← file.length
    if FileEntry.maxFileBytes < length then return none
    else
      match file.content with
      | .error _ => return none
      | .ok content =>
          if ByteText.trim content.toList = [] then return none
          else do
            let parts := file.relative source.rootName
            let code := file.isCode source.rootName
            let uri ← env.uri (if code then "code://repository" else "cortana://filesystem")
              (if code then source.repositoryId :: parts else parts)
            return some {
              source := config.canonicalSource
              sourceId := source.fileSourceId file
              title := file.relativeText source.rootName
              content := content
              uri := some uri
              updatedAt := file.modified
              project := config.project
              acl := []
              metadata := source.fileMetadata file length }

/-- `filesystem_document_iter`. -/
def filesystemDocumentIter (env : Environment) (config : SourceConfig)
    (source : FilesystemSource) : List (Except String Document) :=
  (source.visible source.entries).filterMap fun entry ↦ match entry with
    | .error reason => some (.error reason)
    | .ok file =>
        match source.filesystemDocument env config file with
        | .error reason => some (.error reason)
        | .ok none => none
        | .ok (some document) => some (.ok document)

end FilesystemSource

end Cortana
