import Cortana.Store.Documents

/-!
# Configured sources

The part of a source's configuration that names its documents: the canonical
identifier, the project and the labels, what `validate_source_definitions` asks
of them, and how an emitted document is normalised.
-/

namespace Cortana

/-- The fields of `SourceConfig` that identify its documents. -/
structure SourceConfig where
  name : String
  kind : String
  source : Option String
  project : String
  acl : List String

namespace SourceConfig

/-- `canonical_source`. -/
def canonicalSource (c : SourceConfig) : String := c.source.getD c.name

/-- `effective_acl`. -/
def effectiveAcl (c : SourceConfig) : List String :=
  if c.acl = [] then [c.project] else c.acl.eraseDups

/-- The names that `validate_source_definitions` accepts. -/
def validName (name : String) : Bool :=
  let lower (c : Char) : Bool := 'a' ≤ c && c ≤ 'z' || '0' ≤ c && c ≤ '9'
  0 < name.utf8ByteSize && name.utf8ByteSize ≤ 64 &&
    name.toList.all (fun c ↦ lower c || c == '-' || c == '_') && name.toList.head?.any lower

/-- The canonical identifiers that `validate_source_definitions` accepts. -/
def validIdentifier (identifier : String) : Bool :=
  identifier ≠ "" && ByteText.trim identifier.toList = identifier.toList &&
    identifier.utf8ByteSize ≤ 128 && !identifier.toList.any ByteText.isControl

/-- `validate_source_definitions`, as far as names, identifiers and projects
go: no two sources share a name, or an identifier within a project. -/
def validateSourceDefinitions (sources : List SourceConfig) : Bool :=
  sources.all (fun c ↦ validName c.name && validIdentifier c.canonicalSource &&
    ByteText.trim c.project.toList ≠ []) &&
  (sources.map SourceConfig.name).Nodup &&
  (sources.map fun c ↦ (c.project, c.canonicalSource)).Nodup

/-- Sources that are configured together and share project and identifier are
the same. -/
theorem eq_of_validateSourceDefinitions {sources : List SourceConfig}
    (h : validateSourceDefinitions sources = true) {c d : SourceConfig} (hc : c ∈ sources)
    (hd : d ∈ sources) (hproject : c.project = d.project)
    (hsource : c.canonicalSource = d.canonicalSource) : c = d := by
  have hnodup : (sources.map fun c ↦ (c.project, c.canonicalSource)).Nodup := by
    simp only [validateSourceDefinitions, Bool.and_eq_true, decide_eq_true_eq] at h
    exact h.2
  exact List.inj_on_of_nodup_map hnodup hc hd (Prod.ext hproject hsource)

end SourceConfig

/-- `map.entry(key).or_insert(value)`, on members in the order of their keys. -/
def orInsert (key : String) (value : Value) : List (String × Value) → List (String × Value)
  | [] => [(key, value)]
  | member :: rest =>
      if member.1 = key then member :: rest
      else if key < member.1 then (key, value) :: member :: rest
      else member :: orInsert key value rest

/-- `normalize_documents`, for one document. -/
def normalizeDocument (c : SourceConfig) (document : Document) : Document :=
  let members := match document.metadata with
    | .object members => members
    | _ => []
  { document with
    source := c.canonicalSource
    project := c.project
    acl := if document.acl = [] then c.effectiveAcl else document.acl
    metadata := .object (orInsert "configured_source" (.string c.name)
      (orInsert "connector_kind" (.string document.source) members)) }

@[simp] theorem source_normalizeDocument (c : SourceConfig) (document : Document) :
    (normalizeDocument c document).source = c.canonicalSource := rfl

@[simp] theorem project_normalizeDocument (c : SourceConfig) (document : Document) :
    (normalizeDocument c document).project = c.project := rfl

@[simp] theorem sourceId_normalizeDocument (c : SourceConfig) (document : Document) :
    (normalizeDocument c document).sourceId = document.sourceId := rfl

@[simp] theorem content_normalizeDocument (c : SourceConfig) (document : Document) :
    (normalizeDocument c document).content = document.content := rfl

end Cortana
