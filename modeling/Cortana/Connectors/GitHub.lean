import Cortana.Core.Loops
import Cortana.Model.Document
import Cortana.Text.Search

/-!
# GitHub snapshots

`github.py`: the text files of selected repositories.  The listing of a
repository and every blob of it are asked of the provider, which is a
parameter; a repository is a tree of any depth.
-/

namespace Cortana

open ByteText

namespace GitHub

/-! ## The provider -/

/-- The requests of a snapshot; recursion is a parameter of the listing. -/
inductive Request where
  | metadata (repository : String)
  | tree (repository ref : String) (recursive : Bool)
  | blob (repository sha : String)
deriving DecidableEq

/-- A response, with what `json_payload` makes of its body. -/
structure Response where
  status : ℕ
  payload : Except String Value

/-- What a snapshot meets: the token, the responses to the attempts of a request
on an occasion, and functions of the Python library. -/
structure Session where
  /-- `_access_token`. -/
  access : Except String String
  respond : Request → ℕ → ℕ → Response
  /-- `base64.b64decode`. -/
  b64decode : String → Option (List UInt8)
  /-- `str.lower`. -/
  lower : String → String
  /-- `_parse_timestamp`. -/
  timestamp : Option Value → String
  /-- `urllib.parse.quote`, by the characters that are safe. -/
  quote : String → String → String
  /-- `str` of a value that is not a string. -/
  str : Value → String
  /-- `int` of a value that is not an integer. -/
  int : Value → Option ℤ

def Response.success (response : Response) : Prop :=
  200 ≤ response.status ∧ response.status < 300

instance (response : Response) : Decidable response.success :=
  inferInstanceAs (Decidable (200 ≤ response.status ∧ response.status < 300))

def Response.transient (response : Response) : Prop :=
  response.status ∈ [429, 500, 502, 503, 504]

instance (response : Response) : Decidable response.transient :=
  inferInstanceAs (Decidable (response.status ∈ [429, 500, 502, 503, 504]))

/-- The attempts of `_get_json`, with how many are left after this one. -/
def attemptJson (session : Session) (request : Request) (occasion : ℕ) : ℕ → Except String Value
  | 0 =>
      let response := session.respond request occasion 3
      if response.success then response.payload
      else .error ("GitHub API request failed (" ++ toString response.status ++ ")")
  | left + 1 =>
      let response := session.respond request occasion (3 - (left + 1))
      if response.transient then attemptJson session request occasion left
      else if response.success then response.payload
      else .error ("GitHub API request failed (" ++ toString response.status ++ ")")

/-- `_get_json`. -/
def getJson (session : Session) (request : Request) (occasion : ℕ) : Except String Value :=
  attemptJson session request occasion 3

/-- What is returned comes from a successful response. -/
theorem exists_response_of_getJson {session : Session} {request : Request} {occasion : ℕ}
    {payload : Value} (h : getJson session request occasion = .ok payload) :
    ∃ attempt, (session.respond request occasion attempt).success ∧
      (session.respond request occasion attempt).payload = .ok payload := by
  have hall : ∀ left, attemptJson session request occasion left = .ok payload →
      ∃ attempt, (session.respond request occasion attempt).success ∧
        (session.respond request occasion attempt).payload = .ok payload := by
    intro left
    induction left with
    | zero =>
        intro h
        rw [attemptJson] at h
        split at h
        next hsuccess => exact ⟨3, hsuccess, h⟩
        next => cases h
    | succ left ih =>
        intro h
        rw [attemptJson] at h
        split at h
        next => exact ih h
        next =>
            split at h
            next hsuccess => exact ⟨_, hsuccess, h⟩
            next => cases h
  exact hall 3 h

/-! ## Values and texts -/

/-- The truth of a value that may be missing. -/
def truthy : Option Value → Bool
  | none => false
  | some .null => false
  | some (.bool flag) => flag
  | some (.integer n) => n ≠ 0
  | some (.real bits) => bits ≠ 0 && bits ≠ 0x8000000000000000
  | some (.string text) => text ≠ ""
  | some (.array items) => !items.isEmpty
  | some (.object members) => !members.isEmpty

/-- `str(value or "")`. -/
def strOr (session : Session) (value : Option Value) : String :=
  if truthy value then
    match value with
    | some (.string text) => text
    | some other => session.str other
    | none => ""
  else ""

/-- `_positive_int`. -/
def positiveInt (session : Session) : Option Value → Option ℕ
  | some (.integer n) => if 0 ≤ n then some n.toNat else none
  | some other => (session.int other).bind fun n ↦ if 0 ≤ n then some n.toNat else none
  | none => none

/-- `str.isspace` of a character. -/
def isSpace (c : Char) : Bool := isWhitespace c || (28 ≤ c.toNat && c.toNat ≤ 31)

/-- `str.strip`. -/
def strip (text : String) : String :=
  String.ofList ((text.toList.dropWhile isSpace).rdropWhile isSpace)

/-- `strip("/")`. -/
def stripSlashes (text : String) : String :=
  String.ofList ((text.toList.dropWhile (· = '/')).rdropWhile (· = '/'))

/-- The characters of `_REPOSITORY`. -/
def isRepositoryChar (c : Char) : Bool := c.isAlphanum || c = '_' || c = '.' || c = '-'

/-- `_REPOSITORY.fullmatch`. -/
def isRepository (text : String) : Bool :=
  match text.toList.splitOn '/' with
  | [owner, name] =>
      owner ≠ [] && name ≠ [] && owner.all isRepositoryChar && name.all isRepositoryChar
  | _ => false

/-- `_normalize_repositories`. -/
def normalizeRepositories (repositories : List String) : Except String (List String) :=
  repositories.foldlM (fun result value ↦
    let repository := stripSlashes (strip value)
    if isRepository repository then
      let normalized := String.ofList (toAsciiLowercase repository.toList)
      .ok (if normalized ∈ result then result else result ++ [normalized])
    else .error ("GitHub repository must use owner/name form: " ++ value)) []

/-- `_safe_ref`. -/
def safeRef (value : String) : Bool :=
  value ≠ "" && !containsText value.toList ['.', '.'] && !value.toList.contains '\x00' &&
    !value.toList.contains '\\'

def textSuffixes : List String :=
  [".c", ".cc", ".cfg", ".cpp", ".cs", ".css", ".dart", ".ex", ".exs", ".go", ".h", ".hpp", ".html",
    ".ini", ".java", ".js", ".json", ".jsx", ".kt", ".kts", ".less", ".md", ".mjs", ".php", ".py",
    ".rb", ".rs", ".sass", ".scss", ".sh", ".sql", ".swift", ".toml", ".ts", ".tsx", ".vue", ".xml",
    ".yaml", ".yml", ".zsh"]

def textNames : List String := ["Dockerfile", "Makefile", "Procfile", "LICENSE", "NOTICE"]

def excludedParts : List String :=
  [".git", ".github", "__pycache__", "build", "coverage", "dist", "node_modules", "target", "vendor"]

/-- `_is_indexable_path`. -/
def isIndexablePath (session : Session) (path : String) : Bool :=
  let parts := (path.toList.splitOn '/').map String.ofList
  let name := parts.getLastD ""
  path ≠ "" && path.toList.head? ≠ some '/' && !path.toList.contains '\\' &&
    parts.all (fun part ↦ part ≠ "" && part ≠ "." && part ≠ ".." && part ∉ excludedParts) &&
    (name ∈ textNames || textSuffixes.any fun suffix ↦
      suffix.toList.isSuffixOf (session.lower name).toList)

def maxBlobBytes : ℕ := 512 * 1024

def maxTreeEntries : ℕ := 100000

def maxRepositories : ℕ := 32

/-- `bytes.decode("utf-8")`. -/
def decodeUtf8 (bytes : List UInt8) : Option String := String.fromUTF8? ⟨bytes.toArray⟩

/-! ## The snapshot -/

/-- The branch, the date and the entries of a repository. -/
def fetchTree (session : Session) (repository : String) :
    Except String (String × String × List Value) := do
  let metadata ← getJson session (.metadata repository) 0
  match metadata with
  | .object _ =>
      let branch := strip (strOr session (metadata.get "default_branch"))
      Except.require (branch ≠ "" ∧ safeRef branch)
        ("GitHub repository has no safe default branch: " ++ repository)
      let updatedAt := session.timestamp
        (if truthy (metadata.get "pushed_at") then metadata.get "pushed_at"
        else metadata.get "updated_at")
      let tree ← getJson session (.tree repository branch false) 0
      match tree with
      | .object _ =>
          match tree.get "tree" with
          | some (.array entries) =>
              Except.require (entries.length ≤ maxTreeEntries)
                ("GitHub repository tree is too large: " ++ repository)
              Except.require (truthy (tree.get "truncated") = false)
                ("GitHub repository tree is truncated: " ++ repository)
              return (branch, updatedAt, entries)
          | _ => .error ("GitHub repository tree has an invalid entry list: " ++ repository)
      | _ => .error ("GitHub repository tree is invalid: " ++ repository)
  | _ => .error ("GitHub repository metadata is invalid: " ++ repository)

/-- `_decode_blob`. -/
def decodeBlob (session : Session) (payload : Value) (repository path : String) :
    Except String String :=
  match payload with
  | .object _ =>
      if (payload.get "encoding").bind Value.asStr = some "base64" then
        match payload.get "content" with
        | some (.string encoded) =>
            match (session.b64decode encoded).bind decodeUtf8 with
            | some content =>
                if content.toList.contains '\x00' then
                  .error ("GitHub blob contains binary content: " ++ repository ++ ":" ++ path)
                else .ok content
            | none => .error ("GitHub blob is not UTF-8 text: " ++ repository ++ ":" ++ path)
        | _ => .error ("GitHub blob content is missing: " ++ repository ++ ":" ++ path)
      else .error ("GitHub blob has an unsupported encoding: " ++ repository ++ ":" ++ path)
  | _ => .error ("GitHub blob has an unsupported encoding: " ++ repository ++ ":" ++ path)

/-- The document of a file. -/
def documentOf (session : Session) (project repository branch updatedAt path sha content : String) :
    Document where
  source := "github"
  sourceId := repository ++ ":" ++ path ++ ":" ++ sha
  title := repository ++ ": " ++ path
  content := content
  uri := some ("https://github.com/" ++ repository ++ "/blob/" ++ session.quote "" branch ++ "/" ++
    session.quote "/" path)
  updatedAt := updatedAt
  project := project
  acl := []
  metadata := .object [("repository", .string repository), ("path", .string path),
    ("blob_sha", .string sha), ("default_branch", .string branch)]

/-- One entry of a listing, on the occasion of its place in it. -/
def fetchEntry (session : Session) (project : String) (limit : Option ℕ)
    (repository branch updatedAt : String) (documents : List Document) (item : Value × ℕ) :
    Except String (List Document) :=
  let entry := item.1
  if limit.any (· ≤ documents.length) then .ok documents
  else if (entry.get "type").bind Value.asStr = some "blob" then
    let path := strOr session (entry.get "path")
    let sha := strOr session (entry.get "sha")
    match positiveInt session (entry.get "size") with
    | none => .ok documents
    | some size =>
        if isIndexablePath session path && sha ≠ "" && decide (size ≤ maxBlobBytes) then do
          let payload ← getJson session (.blob repository sha) item.2
          let content ← decodeBlob session payload repository path
          if strip content = "" then return documents
          else return documents ++
            [documentOf session project repository branch updatedAt path sha content]
        else .ok documents
  else .ok documents

def fetchRepository (session : Session) (project : String) (limit : Option ℕ)
    (documents : List Document) (repository : String) : Except String (List Document) :=
  if limit.any (· ≤ documents.length) then .ok documents
  else do
    let (branch, updatedAt, entries) ← fetchTree session repository
    entries.zipIdx.foldlM (fetchEntry session project limit repository branch updatedAt) documents

/-- `fetch`; a strict run has no limit. -/
def fetch (session : Session) (repositories : List String) (project : String) (limit : Option ℕ) :
    Except String (List Document) := do
  let normalized ← normalizeRepositories repositories
  Except.require (normalized ≠ []) "GitHub source requires at least one repository"
  Except.require (normalized.length ≤ maxRepositories)
    ("GitHub source supports at most " ++ toString maxRepositories ++ " repositories")
  Except.require (limit ≠ some 0) "max_documents must be greater than zero"
  let token ← session.access
  Except.require (token ≠ "") "GitHub token is not configured"
  normalized.foldlM (fetchRepository session project limit) []

/-! ## Repositories -/

/-- A directory: its entries in their order, subdirectories and all. -/
inductive GitTree where
  | empty
  | blob (name sha : String) (bytes : List UInt8) (rest : GitTree)
  | tree (name : String) (sub rest : GitTree)
  | commit (name : String) (rest : GitTree)

/-- What a listing says of an entry. -/
inductive Item where
  | blob (sha : String) (bytes : List UInt8)
  | tree
  | commit

namespace GitTree

/-- The direct entries. -/
def children : GitTree → List (String × Item)
  | empty => []
  | blob name sha bytes rest => (name, .blob sha bytes) :: rest.children
  | tree name _ rest => (name, .tree) :: rest.children
  | commit name rest => (name, .commit) :: rest.children

/-- All entries at any depth, under the path of the directory. -/
def descendants (path : String) : GitTree → List (String × Item)
  | empty => []
  | blob name sha bytes rest => (path ++ name, .blob sha bytes) :: rest.descendants path
  | tree name sub rest =>
      (path ++ name, .tree) :: (sub.descendants (path ++ name ++ "/") ++ rest.descendants path)
  | commit name rest => (path ++ name, .commit) :: rest.descendants path

end GitTree

/-- A file of a repository. -/
structure File where
  path : String
  sha : String
  bytes : List UInt8

/-- The files among some entries. -/
def filesOf (items : List (String × Item)) : List File :=
  items.filterMap fun item ↦
    match item.2 with
    | .blob sha bytes => some ⟨item.1, sha, bytes⟩
    | _ => none

/-- The files below the top directory. -/
def GitTree.nested (path : String) : GitTree → List File
  | empty => []
  | blob _ _ _ rest => rest.nested path
  | tree name sub rest => filesOf (sub.descendants (path ++ name ++ "/")) ++ rest.nested path
  | commit _ rest => rest.nested path

/-- All files of a repository. -/
def GitTree.files (t : GitTree) : List File := filesOf (t.descendants "")

/-- Names at the top are distinct, and hashes are texts without a colon. -/
structure GitTree.WellFormed (t : GitTree) : Prop where
  names : (t.children.map Prod.fst).Nodup
  hashes : ∀ file ∈ t.files, file.sha ≠ "" ∧ ':' ∉ file.sha.toList

/-- The entry of a listing. -/
def Describes (item : String × Item) (entry : Value) : Prop :=
  entry.get "path" = some (.string item.1) ∧
    match item.2 with
    | .blob sha bytes => entry.get "type" = some (.string "blob") ∧
        entry.get "sha" = some (.string sha) ∧
        entry.get "size" = some (.integer bytes.length)
    | .tree => entry.get "type" = some (.string "tree")
    | .commit => entry.get "type" = some (.string "commit")

/-- The provider serves repositories: a listing has the direct entries, or all
descendants if recursion is requested, or says that it is truncated; a blob
has its bytes in Base64. -/
structure Serves (session : Session) (trees : String → GitTree) : Prop where
  listing : ∀ repository ref recursive occasion attempt payload,
    (session.respond (.tree repository ref recursive) occasion attempt).success →
    (session.respond (.tree repository ref recursive) occasion attempt).payload = .ok payload →
    truthy (payload.get "truncated") = true ∨
      ∃ entries, payload.get "tree" = some (.array entries) ∧
        List.Forall₂ Describes (if recursive then (trees repository).descendants ""
          else (trees repository).children) entries
  blob : ∀ repository, ∀ file ∈ (trees repository).files, ∀ occasion attempt payload,
    (session.respond (.blob repository file.sha) occasion attempt).success →
    (session.respond (.blob repository file.sha) occasion attempt).payload = .ok payload →
    ∃ encoded, payload.get "encoding" = some (.string "base64") ∧
      payload.get "content" = some (.string encoded) ∧
      session.b64decode encoded = some file.bytes

/-- The text of a file that a snapshot has to have: it is at an indexable path,
of bounded size, UTF-8 and not blank. -/
def textOf (session : Session) (file : File) : Option String :=
  if isIndexablePath session file.path && decide (file.bytes.length ≤ maxBlobBytes) then
    (decodeUtf8 file.bytes).filter fun text ↦ strip text ≠ ""
  else none

/-- What tells the documents of a snapshot apart. -/
structure Emitted where
  repository : String
  path : String
  sha : String
  content : String
deriving DecidableEq

/-- A file as the snapshot has to have it. -/
def wanted (session : Session) (repository : String) (file : File) : Option Emitted :=
  (textOf session file).map fun text ↦ ⟨repository, file.path, file.sha, text⟩

/-- A document says what it was made of. -/
def emitted (document : Document) : Emitted where
  repository := ((document.metadata.get "repository").bind Value.asStr).getD ""
  path := ((document.metadata.get "path").bind Value.asStr).getD ""
  sha := ((document.metadata.get "blob_sha").bind Value.asStr).getD ""
  content := document.content

/-- The listing of a repository does not say that it is truncated. -/
def Untruncated (session : Session) (repository : String) : Prop :=
  ∀ metadata payload, getJson session (.metadata repository) 0 = .ok metadata →
    getJson session (.tree repository (strip (strOr session (metadata.get "default_branch")))
      false) 0 = .ok payload →
    truthy (payload.get "truncated") = false

/-- A snapshot has exactly one document for each file that it has to have, their
source ids are distinct, and none of its listings was truncated. -/
structure SnapshotExact (session : Session) (trees : String → GitTree) (repositories : List String)
    (documents : List Document) : Prop where
  emitted : ∃ normalized, normalizeRepositories repositories = .ok normalized ∧
    (documents.map emitted).Perm
      (normalized.flatMap fun repository ↦
        (trees repository).files.filterMap (wanted session repository))
  sourceIds : (documents.map Document.sourceId).Nodup
  complete : ∀ normalized, normalizeRepositories repositories = .ok normalized →
    ∀ repository ∈ normalized, Untruncated session repository

/-- No file that the snapshot has to have lies below the top directory. -/
def FlatlyWanted (session : Session) (trees : String → GitTree) (repositories : List String) :
    Prop :=
  ∀ normalized, normalizeRepositories repositories = .ok normalized →
    ∀ repository ∈ normalized, ∀ file ∈ (trees repository).nested "", textOf session file = none

/-! ## Files at the top and below -/

theorem filesOf_append (items items' : List (String × Item)) :
    filesOf (items ++ items') = filesOf items ++ filesOf items' :=
  List.filterMap_append ..

/-- The files of a repository are those at the top and those below. -/
theorem files_perm (t : GitTree) (path : String) :
    (filesOf (t.descendants path)).Perm
      ((filesOf t.children).map (fun file ↦ ⟨path ++ file.path, file.sha, file.bytes⟩) ++
        t.nested path) := by
  induction t with
  | empty => exact .nil
  | blob name sha bytes rest ih => exact ih.cons _
  | tree name sub rest _ ih =>
      rw [GitTree.descendants, GitTree.children, GitTree.nested]
      have hsplit : filesOf ((path ++ name, Item.tree) ::
          (sub.descendants (path ++ name ++ "/") ++ rest.descendants path)) =
            filesOf (sub.descendants (path ++ name ++ "/")) ++ filesOf (rest.descendants path) :=
        filesOf_append _ _
      rw [hsplit]
      refine (ih.append_left _).trans ?_
      rw [← List.append_assoc]
      refine (List.perm_append_comm.append_right _).trans ?_
      rw [List.append_assoc]
      exact .refl _
  | commit name rest ih => exact ih

/-- The files at the top are files of the repository. -/
theorem files_perm_top (t : GitTree) : t.files.Perm (filesOf t.children ++ t.nested "") := by
  have hfiles := files_perm t ""
  have hmap : (filesOf t.children).map (fun file ↦ ⟨"" ++ file.path, file.sha, file.bytes⟩) =
      filesOf t.children := by
    simp only [String.empty_append]
    exact List.map_id _
  rwa [hmap] at hfiles

/-! ## What a run adds -/

/-- The source id of what was emitted. -/
def sourceIdOf (e : Emitted) : String := e.repository ++ ":" ++ e.path ++ ":" ++ e.sha

/-- Documents for the wanted ones of some files are added at the end. -/
def Adds (session : Session) (repository : String) (files : List File)
    (documents documents' : List Document) : Prop :=
  ∃ added, documents' = documents ++ added ∧
    added.map emitted = files.filterMap (wanted session repository) ∧
    ∀ d ∈ added, d.sourceId = sourceIdOf (emitted d)

section Run

variable {session : Session} {trees : String → GitTree} {repository project branch updatedAt : String}

theorem Adds.refl (documents : List Document) : Adds session repository [] documents documents :=
  ⟨[], (List.append_nil _).symm, rfl, by simp⟩

theorem Adds.of_unwanted {file : File} (h : wanted session repository file = none)
    (documents : List Document) : Adds session repository [file] documents documents :=
  ⟨[], (List.append_nil _).symm, by simp [h], by simp⟩

theorem Adds.trans {files files' : List File} {a b c : List Document}
    (h : Adds session repository files a b) (h' : Adds session repository files' b c) :
    Adds session repository (files ++ files') a c := by
  obtain ⟨added, rfl, hadded, hids⟩ := h
  obtain ⟨added', rfl, hadded', hids'⟩ := h'
  refine ⟨added ++ added', List.append_assoc .., ?_, ?_⟩
  · rw [List.map_append, hadded, hadded', List.filterMap_append]
  · intro d hd
    exact (List.mem_append.mp hd).elim (hids d) (hids' d)

theorem emitted_documentOf (path sha content : String) :
    emitted (documentOf session project repository branch updatedAt path sha content) =
      ⟨repository, path, sha, content⟩ := by
  simp [emitted, documentOf, Value.get, Value.asStr]

theorem strOr_string (text : String) : strOr session (some (.string text)) = text := by
  rw [strOr]
  by_cases h : text = "" <;> simp [truthy, h]

theorem positiveInt_natCast (n : ℕ) : positiveInt session (some (.integer n)) = some n := by
  simp [positiveInt]

/-- A blob that is served is decoded to its text, if it is at all. -/
theorem decodeBlob_eq_ok {payload : Value} {path encoded content : String} {bytes : List UInt8}
    (hencoding : payload.get "encoding" = some (.string "base64"))
    (hcontent : payload.get "content" = some (.string encoded))
    (hbytes : session.b64decode encoded = some bytes)
    (h : decodeBlob session payload repository path = .ok content) :
    decodeUtf8 bytes = some content := by
  unfold decodeBlob at h
  split at h
  next =>
      have hbase : (some (Value.string "base64")).bind Value.asStr = some "base64" := rfl
      rw [hencoding, hcontent, if_pos hbase] at h
      dsimp only at h
      rw [hbytes, Option.bind_some] at h
      split at h
      next text htext =>
          split at h
          · cases h
          · rw [htext, Except.ok.inj h]
      next => cases h
  next => cases h

/-- An entry of a listing adds its file, if it is one that is wanted. -/
theorem fetchEntry_adds (hserves : Serves session trees) {item : String × Item} {entry : Value}
    (hentry : Describes item entry)
    (hfiles : ∀ file ∈ filesOf [item], file ∈ (trees repository).files ∧ file.sha ≠ "")
    {documents documents' : List Document} {i : ℕ}
    (h : fetchEntry session project none repository branch updatedAt documents (entry, i) =
      .ok documents') : Adds session repository (filesOf [item]) documents documents' := by
  obtain ⟨path, kind⟩ := item
  obtain ⟨hpath, hkind⟩ := hentry
  rw [fetchEntry, Option.any_none, if_neg Bool.false_ne_true] at h
  cases kind with
  | tree =>
      rw [hkind, if_neg (by simp [Value.asStr])] at h
      rw [← Except.ok.inj h]
      exact .refl documents
  | commit =>
      rw [hkind, if_neg (by simp [Value.asStr])] at h
      rw [← Except.ok.inj h]
      exact .refl documents
  | blob sha bytes =>
      obtain ⟨htype, hsha, hsize⟩ := hkind
      have hfile : filesOf [(path, Item.blob sha bytes)] = [⟨path, sha, bytes⟩] := rfl
      obtain ⟨hmem, hne⟩ := hfiles ⟨path, sha, bytes⟩ (by simp [hfile])
      have hblob : (some (Value.string "blob")).bind Value.asStr = some "blob" := rfl
      dsimp only at htype hsha hsize hpath h
      rw [htype, if_pos hblob, hpath, hsha, hsize, positiveInt_natCast, strOr_string,
        strOr_string] at h
      rw [hfile]
      dsimp only at h
      split at h
      next hwanted =>
          obtain ⟨payload, hpayload, h⟩ := Iff.mp Except.bind_ok_iff h
          obtain ⟨content, hdecode, h⟩ := Iff.mp Except.bind_ok_iff h
          obtain ⟨attempt, hsuccess, hresponse⟩ := exists_response_of_getJson hpayload
          obtain ⟨encoded, hencoding, hcontent, hbytes⟩ :=
            hserves.blob repository _ hmem _ _ _ hsuccess hresponse
          have htext := decodeBlob_eq_ok hencoding hcontent hbytes hdecode
          simp only [Bool.and_eq_true, decide_eq_true_eq] at hwanted
          have hkept : textOf session ⟨path, sha, bytes⟩ =
              (some content).filter fun text ↦ strip text ≠ "" := by
            rw [textOf, if_pos (by simp [hwanted.1.1, hwanted.2]), htext]
          split at h
          next hblank =>
              rw [← Iff.mp Except.pure_ok_iff h]
              exact .of_unwanted (by simp [wanted, hkept, hblank]) documents
          next hnonblank =>
              refine ⟨_, (Iff.mp Except.pure_ok_iff h).symm, ?_, ?_⟩
              · simp [wanted, hkept, hnonblank, emitted_documentOf]
              · intro d hd
                rw [List.mem_singleton.mp hd, emitted_documentOf]
                rfl
      next hunwanted =>
          rw [← Except.ok.inj h]
          refine .of_unwanted ?_ documents
          have hnone : textOf session ⟨path, sha, bytes⟩ = none := by
            rw [textOf, if_neg]
            intro hwanted
            refine hunwanted ?_
            simp only [Bool.and_eq_true, decide_eq_true_eq] at hwanted ⊢
            exact ⟨⟨hwanted.1, by simpa using hne⟩, hwanted.2⟩
          rw [wanted, hnone, Option.map_none]

/-- The loop over a listing adds the files among its entries. -/
theorem entries_add (hserves : Serves session trees) {items : List (String × Item)}
    {entries : List Value} (hentries : List.Forall₂ Describes items entries)
    (hfiles : ∀ file ∈ filesOf items, file ∈ (trees repository).files ∧ file.sha ≠ "")
    {documents documents' : List Document} {n : ℕ}
    (h : (entries.zipIdx n).foldlM
      (fetchEntry session project none repository branch updatedAt) documents = .ok documents') :
    Adds session repository (filesOf items) documents documents' := by
  induction hentries generalizing documents n with
  | nil =>
      rw [← Iff.mp List.foldlM_nil_ok_iff h]
      exact .refl documents
  | @cons item entry items entries hentry _ ih =>
      rw [List.zipIdx_cons] at h
      obtain ⟨middle, hfirst, hrest⟩ := Iff.mp List.foldlM_cons_ok_iff h
      have hsplit : filesOf (item :: items) = filesOf [item] ++ filesOf items :=
        filesOf_append [item] items
      rw [hsplit] at hfiles ⊢
      exact (fetchEntry_adds hserves hentry (fun file hfile ↦
        hfiles file (List.mem_append_left _ hfile)) hfirst).trans
          (ih (fun file hfile ↦ hfiles file (List.mem_append_right _ hfile)) hrest)

/-- A listing that is accepted has the direct entries and was not truncated. -/
theorem fetchTree_eq_ok (hserves : Serves session trees) {entries : List Value}
    (h : fetchTree session repository = .ok (branch, updatedAt, entries)) :
    List.Forall₂ Describes (trees repository).children entries ∧
      ∃ metadata payload, getJson session (.metadata repository) 0 = .ok metadata ∧
        getJson session (.tree repository (strip (strOr session (metadata.get "default_branch")))
          false) 0 = .ok payload ∧ truthy (payload.get "truncated") = false := by
  rw [fetchTree] at h
  obtain ⟨metadata, hmetadata, h⟩ := Iff.mp Except.bind_ok_iff h
  split at h
  next members =>
      obtain ⟨_, -, h⟩ := Iff.mp Except.bind_ok_iff h
      obtain ⟨payload, hpayload, h⟩ := Iff.mp Except.bind_ok_iff h
      split at h
      next members' =>
          split at h
          next listed hlisted =>
              obtain ⟨_, -, h⟩ := Iff.mp Except.bind_ok_iff h
              obtain ⟨_, hcomplete, h⟩ := Iff.mp Except.bind_ok_iff h
              rw [Except.require_ok_iff] at hcomplete
              obtain ⟨-, hrest⟩ := Prod.mk.inj (Iff.mp Except.pure_ok_iff h)
              obtain ⟨-, rfl⟩ := Prod.mk.inj hrest
              refine ⟨?_, _, _, hmetadata, hpayload, hcomplete⟩
              obtain ⟨attempt, hsuccess, hresponse⟩ := exists_response_of_getJson hpayload
              rcases hserves.listing _ _ _ _ _ _ hsuccess hresponse with htruncated | hserved
              · rw [hcomplete] at htruncated
                cases htruncated
              · obtain ⟨entries', hentries', hdescribes⟩ := hserved
                rw [hlisted] at hentries'
                obtain rfl := Value.array.inj (Option.some.inj hentries')
                exact hdescribes
          next => cases h
      next => cases h
  next => cases h

/-- A repository adds the files at its top. -/
theorem fetchRepository_adds (hserves : Serves session trees)
    (hwell : (trees repository).WellFormed) {documents documents' : List Document}
    (h : fetchRepository session project none documents repository = .ok documents') :
    Adds session repository (filesOf (trees repository).children) documents documents' ∧
      Untruncated session repository := by
  rw [fetchRepository, Option.any_none, if_neg Bool.false_ne_true] at h
  obtain ⟨⟨branch, updatedAt, entries⟩, htree, h⟩ := Iff.mp Except.bind_ok_iff h
  obtain ⟨hentries, metadata, payload, hmetadata, hpayload, hcomplete⟩ :=
    fetchTree_eq_ok hserves htree
  refine ⟨?_, ?_⟩
  · apply entries_add hserves hentries _ h
    intro file hfile
    have hmem : file ∈ (trees repository).files :=
      (files_perm_top _).mem_iff.mpr (List.mem_append_left _ hfile)
    exact ⟨hmem, (hwell.hashes file hmem).1⟩
  · intro metadata' payload' hmetadata' hpayload'
    obtain rfl := Except.ok.inj (hmetadata.symm.trans hmetadata')
    obtain rfl := Except.ok.inj (hpayload.symm.trans hpayload')
    exact hcomplete

/-- The loop over the repositories. -/
theorem repositories_add (hserves : Serves session trees)
    (hwell : ∀ repository, (trees repository).WellFormed) {repositories : List String}
    {documents documents' : List Document}
    (h : repositories.foldlM (fetchRepository session project none) documents = .ok documents') :
    ∃ added, documents' = documents ++ added ∧
      added.map emitted = repositories.flatMap (fun repository ↦
        (filesOf (trees repository).children).filterMap (wanted session repository)) ∧
      (∀ d ∈ added, d.sourceId = sourceIdOf (emitted d)) ∧
      ∀ repository ∈ repositories, Untruncated session repository := by
  induction repositories generalizing documents with
  | nil =>
      rw [← Iff.mp List.foldlM_nil_ok_iff h]
      exact ⟨[], (List.append_nil _).symm, rfl, by simp, by simp⟩
  | cons repository rest ih =>
      obtain ⟨middle, hfirst, hrest⟩ := Iff.mp List.foldlM_cons_ok_iff h
      obtain ⟨⟨added, rfl, hadded, hids⟩, hcomplete⟩ :=
        fetchRepository_adds hserves (hwell repository) hfirst
      obtain ⟨added', rfl, hadded', hids', hcomplete'⟩ := ih hrest
      refine ⟨added ++ added', List.append_assoc .., ?_, ?_, ?_⟩
      · rw [List.map_append, hadded, hadded', List.flatMap_cons]
      · intro d hd
        exact (List.mem_append.mp hd).elim (hids d) (hids' d)
      · intro other hother
        rcases List.mem_cons.mp hother with rfl | hother
        · exact hcomplete
        · exact hcomplete' other hother

end Run

/-! ## Source ids -/

/-- The name of a repository has no colon. -/
theorem colon_notMem_of_isRepository {text : String} (h : isRepository text) :
    ':' ∉ text.toList := by
  rw [isRepository] at h
  split at h
  next owner name hsplit =>
      simp only [Bool.and_eq_true, List.all_eq_true] at h
      have htext : text.toList = owner ++ '/' :: name := by
        have hjoin : ['/'].intercalate (text.toList.splitOn '/') = text.toList :=
          List.intercalate_splitOn '/'
        rw [← hjoin, hsplit]
        simp [List.intercalate]
      rw [htext]
      intro hcolon
      rcases List.mem_append.mp hcolon with howner | hname
      · exact absurd (h.1.2 _ howner) (by decide)
      · rcases List.mem_cons.mp hname with heq | hname
        · cases heq
        · exact absurd (h.2 _ hname) (by decide)
  next => cases h

theorem colon_notMem_toAsciiLowercase {s : List Char} (h : ':' ∉ s) :
    ':' ∉ toAsciiLowercase s := by
  intro hcolon
  obtain ⟨c, hc, hlower⟩ := List.mem_map.mp hcolon
  delta Char.toLower at hlower
  split at hlower
  next hupper =>
      have hval := congrArg Char.toNat hlower
      have hfirst : 65 ≤ c.toNat := hupper.1
      have hlast : c.toNat ≤ 90 := hupper.2
      simp at hval
      omega
  next => exact h (hlower ▸ hc)

/-- Repositories are named once, without a colon. -/
theorem normalizeRepositories_spec {repositories normalized : List String}
    (h : normalizeRepositories repositories = .ok normalized) :
    normalized.Nodup ∧ ∀ repository ∈ normalized, ':' ∉ repository.toList := by
  refine List.foldlM_preserves
    (P := fun result ↦ result.Nodup ∧ ∀ repository ∈ result, ':' ∉ repository.toList)
    ?_ ⟨List.nodup_nil, by simp⟩ h
  rintro value - result result' ⟨hnodup, hcolon⟩ hround
  dsimp only at hround
  split at hround
  next hname =>
      have hlower := colon_notMem_toAsciiLowercase (colon_notMem_of_isRepository hname)
      split at hround
      next => exact Except.ok.inj hround ▸ ⟨hnodup, hcolon⟩
      next hfresh =>
          rw [← Except.ok.inj hround]
          refine ⟨List.nodup_append.mpr ⟨hnodup, List.nodup_singleton _, ?_⟩, ?_⟩
          · rintro a ha b hb rfl
            exact hfresh (List.mem_singleton.mp hb ▸ ha)
          · intro repository hmem
            rcases List.mem_append.mp hmem with hold | hnew
            · exact hcolon repository hold
            · rw [List.mem_singleton.mp hnew, String.toList_ofList]
              exact hlower
  next => cases hround

/-- The source id determines the repository and the path. -/
theorem sourceIdOf_injective {e e' : Emitted} (hrepository : ':' ∉ e.repository.toList)
    (hrepository' : ':' ∉ e'.repository.toList) (hsha : ':' ∉ e.sha.toList)
    (hsha' : ':' ∉ e'.sha.toList) (h : sourceIdOf e = sourceIdOf e') :
    (e.repository, e.path) = (e'.repository, e'.path) := by
  have htext := congrArg String.toList h
  have hcolon : (":" : String).toList = [':'] := rfl
  simp only [sourceIdOf, String.toList_append, hcolon, List.append_assoc,
    List.singleton_append] at htext
  obtain ⟨hfirst, hrest⟩ := append_cons_inj_of_notMem hrepository hrepository' htext
  have hlast := append_cons_inj_of_notMem_right hsha hsha' hrest
  rw [String.toList_inj.mp hfirst, String.toList_inj.mp hlast]

/-! ## Exactness -/

theorem filesOf_paths_sublist (items : List (String × Item)) :
    ((filesOf items).map File.path).Sublist (items.map Prod.fst) := by
  induction items with
  | nil => exact .slnil
  | cons item rest ih =>
      obtain ⟨name, kind⟩ := item
      cases kind with
      | blob => exact ih.cons_cons name
      | tree => exact ih.cons name
      | commit => exact ih.cons name

theorem wanted_keys_sublist (session : Session) (repository : String) (files : List File) :
    ((files.filterMap (wanted session repository)).map fun e ↦ (e.repository, e.path)).Sublist
      (files.map fun file ↦ (repository, file.path)) := by
  induction files with
  | nil => exact .slnil
  | cons file rest ih =>
      rw [List.filterMap_cons]
      cases htext : textOf session file with
      | none =>
          rw [wanted, htext]
          exact ih.cons _
      | some text =>
          rw [wanted, htext]
          exact ih.cons_cons _

theorem mem_wanted {session : Session} {repository : String} {files : List File} {e : Emitted}
    (h : e ∈ files.filterMap (wanted session repository)) :
    e.repository = repository ∧ ∃ file ∈ files, e.sha = file.sha := by
  obtain ⟨file, hfile, hwanted⟩ := List.mem_filterMap.mp h
  obtain ⟨text, -, rfl⟩ := Option.map_eq_some_iff.mp hwanted
  exact ⟨rfl, file, hfile, rfl⟩

section Exact

variable {session : Session} {trees : String → GitTree} {repositories normalized : List String}

/-- What is emitted of the tops of repositories has distinct source ids. -/
theorem sourceIds_nodup (hwell : ∀ repository, (trees repository).WellFormed)
    (hnodup : normalized.Nodup) (hcolon : ∀ repository ∈ normalized, ':' ∉ repository.toList) :
    ((normalized.flatMap fun repository ↦
      (filesOf (trees repository).children).filterMap (wanted session repository)).map
        sourceIdOf).Nodup := by
  have hkeys : ((normalized.flatMap fun repository ↦
      (filesOf (trees repository).children).filterMap (wanted session repository)).map
        fun e ↦ (e.repository, e.path)).Nodup := by
    rw [List.map_flatMap, List.nodup_flatMap]
    refine ⟨?_, ?_⟩
    · intro repository _
      apply (wanted_keys_sublist session repository _).nodup
      have hpaths := (filesOf_paths_sublist _).nodup (hwell repository).names
      have hmap : ((filesOf (trees repository).children).map fun file ↦ (repository, file.path)) =
          ((filesOf (trees repository).children).map File.path).map (Prod.mk repository) := by
        rw [List.map_map]
        rfl
      rw [hmap]
      exact hpaths.map (Prod.mk_right_injective repository)
    · refine hnodup.imp ?_
      rintro a b hne key ha hb
      obtain ⟨e, he, rfl⟩ := List.mem_map.mp ha
      obtain ⟨e', he', hkey⟩ := List.mem_map.mp hb
      apply hne
      rw [← (mem_wanted he).1, ← (mem_wanted he').1]
      exact (Prod.mk.inj hkey).1.symm
  have hplain : ∀ e ∈ normalized.flatMap fun repository ↦
      (filesOf (trees repository).children).filterMap (wanted session repository),
      ':' ∉ e.repository.toList ∧ ':' ∉ e.sha.toList := by
    intro e he
    obtain ⟨repository, hrepository, he⟩ := List.mem_flatMap.mp he
    obtain ⟨rfl, file, hfile, hsha⟩ := mem_wanted he
    refine ⟨hcolon _ hrepository, ?_⟩
    rw [hsha]
    have hmem := (files_perm_top (trees e.repository)).mem_iff.mpr (List.mem_append_left _ hfile)
    exact ((hwell _).hashes file hmem).2
  rw [List.Nodup, List.pairwise_map] at hkeys ⊢
  refine hkeys.imp_of_mem ?_
  intro e e' he he' hkey hid
  exact hkey (sourceIdOf_injective (hplain e he).1 (hplain e' he').1 (hplain e he).2
    (hplain e' he').2 hid)

/-- A snapshot is exact if and only if no file that it has to have lies below the
top directory. -/
theorem fetch_exact_iff {project : String} {documents : List Document}
    (hserves : Serves session trees) (hwell : ∀ repository, (trees repository).WellFormed)
    (h : fetch session repositories project none = .ok documents) :
    SnapshotExact session trees repositories documents ↔
      FlatlyWanted session trees repositories := by
  rw [fetch] at h
  obtain ⟨normalized, hnormalized, h⟩ := Iff.mp Except.bind_ok_iff h
  obtain ⟨_, -, h⟩ := Iff.mp Except.bind_ok_iff h
  obtain ⟨_, -, h⟩ := Iff.mp Except.bind_ok_iff h
  obtain ⟨_, -, h⟩ := Iff.mp Except.bind_ok_iff h
  obtain ⟨token, -, h⟩ := Iff.mp Except.bind_ok_iff h
  obtain ⟨_, -, h⟩ := Iff.mp Except.bind_ok_iff h
  obtain ⟨added, hdocuments, hadded, hids, hcomplete⟩ := repositories_add hserves hwell h
  rw [List.nil_append] at hdocuments
  subst hdocuments
  have hflat : FlatlyWanted session trees repositories ↔ ∀ repository ∈ normalized,
      ((trees repository).nested "").filterMap (wanted session repository) = [] := by
    simp only [FlatlyWanted, hnormalized, Except.ok.injEq, forall_eq', List.filterMap_eq_nil_iff,
      wanted, Option.map_eq_none_iff]
  have hperm : (normalized.flatMap fun repository ↦
      (trees repository).files.filterMap (wanted session repository)).Perm
        (documents.map emitted ++ normalized.flatMap fun repository ↦
          ((trees repository).nested "").filterMap (wanted session repository)) := by
    rw [hadded]
    refine .trans (List.Perm.flatMap_left normalized fun repository _ ↦ ?_)
      (List.flatMap_append_perm normalized _ _).symm
    rw [← List.filterMap_append]
    exact (files_perm_top (trees repository)).filterMap _
  rw [hflat]
  refine ⟨?_, ?_⟩
  · intro hexact
    obtain ⟨normalized', hnormalized', hemitted⟩ := hexact.emitted
    obtain rfl := Except.ok.inj (hnormalized.symm.trans hnormalized')
    have hlength := (hemitted.trans hperm).length_eq
    rw [List.length_append] at hlength
    exact List.flatMap_eq_nil_iff.mp (List.eq_nil_of_length_eq_zero (by omega))
  · intro hnone
    rw [List.flatMap_eq_nil_iff.mpr hnone, List.append_nil] at hperm
    obtain ⟨hnodup, hcolon⟩ := normalizeRepositories_spec hnormalized
    refine ⟨⟨normalized, hnormalized, hperm.symm⟩, ?_, ?_⟩
    · have hsource : documents.map Document.sourceId =
          (documents.map emitted).map sourceIdOf := by
        rw [List.map_map]
        exact List.map_congr_left hids
      rw [hsource, hadded]
      exact sourceIds_nodup hwell hnodup hcolon
    · intro normalized' hnormalized'
      obtain rfl := Except.ok.inj (hnormalized.symm.trans hnormalized')
      exact hcomplete

end Exact

/-! ## Two repositories -/

/-- The entry of a listing for an item. -/
def entryOf (item : String × Item) : Value :=
  match item.2 with
  | .blob sha bytes => .object [("path", .string item.1), ("type", .string "blob"),
      ("sha", .string sha), ("size", .integer bytes.length)]
  | .tree => .object [("path", .string item.1), ("type", .string "tree")]
  | .commit => .object [("path", .string item.1), ("type", .string "commit")]

theorem describes_entryOf (item : String × Item) : Describes item (entryOf item) := by
  obtain ⟨path, kind⟩ := item
  cases kind with
  | blob sha bytes => exact ⟨rfl, rfl, rfl, rfl⟩
  | tree => exact ⟨rfl, rfl⟩
  | commit => exact ⟨rfl, rfl⟩

theorem describes_map_entryOf (items : List (String × Item)) :
    List.Forall₂ Describes items (items.map entryOf) := by
  induction items with
  | nil => exact .nil
  | cons item rest ih => exact .cons (describes_entryOf item) ih

/-- A provider all of whose files are the one byte `x`. -/
def sampleSession (trees : String → GitTree) : Session where
  access := .ok "secret"
  respond
    | .metadata _, _, _ => ⟨200, .ok (.object [("default_branch", .string "main"),
        ("pushed_at", .string "2026-08-01T12:00:00+00:00")])⟩
    | .tree repository _ recursive, _, _ => ⟨200, .ok (.object [("truncated", .bool false),
        ("tree", .array ((if recursive then (trees repository).descendants ""
          else (trees repository).children).map entryOf))])⟩
    | .blob _ _, _, _ => ⟨200, .ok (.object [("encoding", .string "base64"),
        ("content", .string "eA==")])⟩
  b64decode encoded := if encoded = "eA==" then some [120] else none
  lower text := String.ofList (toAsciiLowercase text.toList)
  timestamp value := (value.bind Value.asStr).getD ""
  quote _ text := text
  str _ := ""
  int _ := none

theorem sampleSession_serves {trees : String → GitTree}
    (hbytes : ∀ repository, ∀ file ∈ (trees repository).files, file.bytes = [120]) :
    Serves (sampleSession trees) trees where
  listing := by
    intro repository ref recursive occasion attempt payload _ hpayload
    obtain rfl := Except.ok.inj hpayload
    exact .inr ⟨_, rfl, describes_map_entryOf _⟩
  blob := by
    intro repository file hfile occasion attempt payload _ hpayload
    obtain rfl := Except.ok.inj hpayload
    exact ⟨"eA==", rfl, rfl, by rw [hbytes repository file hfile]; rfl⟩

/-- Every repository has this one tree. -/
def sameTree (t : GitTree) (_ : String) : GitTree := t

/-- A file at the top. -/
def flatTree : GitTree := .blob "main.py" "abc" [120] .empty

/-- A file in a directory. -/
def deepTree : GitTree := .tree "src" flatTree .empty

theorem fetch_flat_exact :
    SnapshotExact (sampleSession (sameTree flatTree)) (sameTree flatTree) ["acme/project"]
        [documentOf (sampleSession (sameTree flatTree)) "work" "acme/project" "main"
          "2026-08-01T12:00:00+00:00" "main.py" "abc" "x"] ↔
      FlatlyWanted (sampleSession (sameTree flatTree)) (sameTree flatTree) ["acme/project"] := by
  have hfiles : flatTree.files = [⟨"main.py", "abc", [120]⟩] := rfl
  have hfetch : fetch (sampleSession (sameTree flatTree)) ["acme/project"] "work" none = .ok
      [documentOf (sampleSession (sameTree flatTree)) "work" "acme/project" "main"
        "2026-08-01T12:00:00+00:00" "main.py" "abc" "x"] := rfl
  refine fetch_exact_iff (sampleSession_serves ?_) ?_ hfetch
  · intro _ file hfile
    rw [sameTree, hfiles, List.mem_singleton] at hfile
    rw [hfile]
  · intro _
    refine ⟨List.nodup_singleton _, ?_⟩
    intro file hfile
    rw [sameTree, hfiles, List.mem_singleton] at hfile
    subst hfile
    decide

/-- A file in a directory is missing from the snapshot. -/
theorem nested_file_missing :
    Serves (sampleSession (sameTree deepTree)) (sameTree deepTree) ∧
      (∀ repository, (sameTree deepTree repository).WellFormed) ∧
      fetch (sampleSession (sameTree deepTree)) ["acme/project"] "work" none = .ok [] ∧
      ¬ SnapshotExact (sampleSession (sameTree deepTree)) (sameTree deepTree)
        ["acme/project"] [] := by
  have hfiles : deepTree.files = [⟨"src/main.py", "abc", [120]⟩] := rfl
  refine ⟨sampleSession_serves ?_, ?_, rfl, ?_⟩
  · intro _ file hfile
    rw [sameTree, hfiles, List.mem_singleton] at hfile
    rw [hfile]
  · intro _
    refine ⟨List.nodup_singleton _, ?_⟩
    intro file hfile
    rw [sameTree, hfiles, List.mem_singleton] at hfile
    subst hfile
    decide
  · intro hexact
    obtain ⟨normalized, hnormalized, hemitted⟩ := hexact.emitted
    have hone : normalizeRepositories ["acme/project"] = .ok ["acme/project"] := by
      decide +kernel
    obtain rfl := Except.ok.inj (hone.symm.trans hnormalized)
    have hwanted : (["acme/project"].flatMap fun repository ↦
        (sameTree deepTree repository).files.filterMap
          (wanted (sampleSession (sameTree deepTree)) repository)) =
        [⟨"acme/project", "src/main.py", "abc", "x"⟩] := by decide +kernel
    rw [hwanted] at hemitted
    exact absurd hemitted.length_eq (by simp)

end GitHub

end Cortana
