import Mathlib.Data.List.Sort
import Cortana.Core.Escaping
import Cortana.Core.Paths
import Cortana.Model.Digest
import Cortana.Model.Document
import Cortana.Text.Search

/-!
# Vault exports

`vault_export.rs`: a document is rendered as one Markdown file below the
staging directory.  Its path is made of its workspace, its source, an optional
folder and its source id, each escaped to a file name.  Text is handled as its
UTF-8 bytes.
-/

namespace Cortana

namespace Vault

instance : Pathname.Letters UInt8 where
  sep := 47
  dot := 46
  sep_ne_dot := by decide

def upperHex (n : UInt8) : UInt8 := if n < 10 then 48 + n else 55 + n

def isAsciiAlphanumeric (b : UInt8) : Bool :=
  (48 ≤ b && b ≤ 57) || (65 ≤ b && b ≤ 90) || (97 ≤ b && b ≤ 122)

/-- `_` is both a byte written as it is and the mark before a hex code. -/
def fileNames : Escaping UInt8 where
  plain b := isAsciiAlphanumeric b || b == 45 || b == 95 || b == 46
  mark := 95
  code b := (upperHex (b / 16), upperHex (b % 16))
  plain_mark := by decide
  plain_code := forall_byte (by decide +kernel)
  code_ne_mark := forall_byte (by decide +kernel)
  code_injective := by
    -- the digits are read back
    let digit : UInt8 → UInt8 := fun h ↦ if h < 58 then h - 48 else h - 55
    have hread : ∀ b, digit (upperHex (b / 16)) * 16 + digit (upperHex (b % 16)) = b :=
      forall_byte (by decide +kernel)
    intro a b h
    simp only [Prod.mk.injEq] at h
    rw [← hread a, ← hread b, h.1, h.2]

def maxComponentBytes : ℕ := 96

/-- `path_component`. -/
@[grind =] def pathComponent (sha : Sha256) (value : String) : List UInt8 :=
  let encoded := fileNames.escape (bytes value)
  let encoded := if encoded = [] then bytes "unnamed" else encoded
  if maxComponentBytes < encoded.length then
    encoded.take 80 ++ 45 :: (hexDigest sha (bytes value)).take 15
  else encoded

/-- `safe_folder`. -/
@[grind =] def safeFolder (value : String) : Bool :=
  value ≠ "" && (bytes value).length ≤ 256 && !value.toList.any ByteText.isControl &&
    !Pathname.rooted (bytes value) &&
    !(Pathname.components (bytes value)).any fun component ↦
      component = .parentDir ∨ component = .rootDir

/-- The fields of `store::DocumentSummary` an export reads. -/
structure DocumentSummary where
  id : String
  source : String
  sourceId : String
  title : String
  uri : Option String
  updatedAt : String
  project : String
  acl : List String
  contentRevision : String

/-- The fields of `store::DocumentDetail` an export reads. -/
structure DocumentDetail where
  summary : DocumentSummary
  content : String
  metadata : Value

structure RenderedDocument where
  id : String
  relativePath : List UInt8
  markdown : List UInt8
  contentSha256 : List UInt8
  canonicalRevision : String

def hexChar (n : ℕ) : Char := if n < 10 then Char.ofNat (48 + n) else Char.ofNat (87 + n)

/-- How `serde_json` writes one character of a string. -/
def jsonChar (c : Char) : List Char :=
  if c = '"' then ['\\', '"']
  else if c = '\\' then ['\\', '\\']
  else if c.toNat = 8 then ['\\', 'b']
  else if c.toNat = 9 then ['\\', 't']
  else if c.toNat = 10 then ['\\', 'n']
  else if c.toNat = 12 then ['\\', 'f']
  else if c.toNat = 13 then ['\\', 'r']
  else if c.toNat < 32 then
    ['\\', 'u', '0', '0', hexChar (c.toNat / 16), hexChar (c.toNat % 16)]
  else [c]

/-- `yaml_string`: the JSON string. -/
def yamlString (value : String) : String :=
  String.ofList ('"' :: value.toList.flatMap jsonChar ++ ['"'])

/-- `uri.split_once(':')` with scheme `https` or `http`. -/
def isWebUri (uri : String) : Bool :=
  let scheme := uri.toList.takeWhile (· ≠ ':')
  ':' ∈ uri.toList && (scheme = "https".toList || scheme = "http".toList)

/-- `supported_attachment_uris`: at most 64 distinct ones, in order. -/
def supportedAttachmentUris (metadata : Value) : List String :=
  match metadata.get "attachments" with
  | some (.array items) =>
      (((items.filterMap Value.asStr).filter fun uri ↦
        (bytes uri).length ≤ 4096 && !uri.toList.any ByteText.isControl && isWebUri uri).dedup.insertionSort
          (· ≤ ·)).take 64
  | _ => []

/-- The folder of the metadata, where it is one a path may use. -/
@[grind =] def folderOf (metadata : Value) : Option String :=
  ((metadata.get "folder").bind Value.asStr).filter safeFolder

/-- The relative path `render_document` builds. -/
@[grind =] def relativePath (sha : Sha256) (detail : DocumentDetail) : List UInt8 :=
  let workspace := pathComponent sha detail.summary.project
  let source := pathComponent sha detail.summary.source
  let folder := (folderOf detail.metadata).map (pathComponent sha)
  let path := Pathname.join workspace source
  let path := folder.elim path (Pathname.join path)
  Pathname.join path (pathComponent sha detail.summary.sourceId ++ bytes ".md")

/-- `render_document`. -/
def renderDocument (sha : Sha256) (detail : DocumentDetail) : RenderedDocument :=
  let summary := detail.summary
  let attachments := supportedAttachmentUris detail.metadata
  let listed (values : List String) : String :=
    String.join (values.map fun value ↦ "  - " ++ yamlString value ++ "\n")
  let markdown := "---\n" ++
    "cortana_document_id: " ++ yamlString summary.id ++ "\n" ++
    "cortana_derived_read_only: true\n" ++
    "title: " ++ yamlString summary.title ++ "\n" ++
    "workspace: " ++ yamlString summary.project ++ "\n" ++
    "source: " ++ yamlString summary.source ++ "\n" ++
    "source_id: " ++ yamlString summary.sourceId ++ "\n" ++
    "updated_at: " ++ yamlString summary.updatedAt ++ "\n" ++
    "canonical_revision: " ++ yamlString summary.contentRevision ++ "\n" ++
    summary.uri.elim "" (fun uri ↦ "source_uri: " ++ yamlString uri ++ "\n") ++
    (if attachments = [] then "" else "attachments:\n" ++ listed attachments) ++
    (if summary.acl = [] then "acl: []\n" else "acl:\n" ++ listed summary.acl) ++
    "---\n\n" ++ detail.content ++
    (if detail.content.toList.getLast? = some '\n' then "" else "\n")
  { id := summary.id
    relativePath := relativePath sha detail
    markdown := bytes markdown
    contentSha256 := hexDigest sha (bytes markdown)
    canonicalRevision := summary.contentRevision }

open Pathname in
/-- One round of the loop that fills the staging directory: the parent
directories are made, then the file, which must not exist. -/
@[grind =] def stageDocument (stage : Location UInt8) (tree : FileTree UInt8)
    (document : RenderedDocument) : Option (FileTree UInt8) :=
  tree.createFile (resolve stage document.relativePath)

open Pathname in
/-- The writes of an export into a new staging directory, no earlier vault
being there to take unchanged files from. -/
@[grind =] def stageDocuments (stage : Location UInt8) (documents : List RenderedDocument) :
    Option (FileTree UInt8) :=
  documents.foldlM (stageDocument stage) { files := [], dirs := stage.inits }

end Vault

end Cortana
