import Cortana.Core.Loops
import Cortana.Core.OrderedSet
import Cortana.Store.Memories
import Cortana.Text.Search
import Mathlib.Data.String.Basic

/-!
# Relationships of the knowledge graph

`knowledge_graph.rs`: the edges and who sees them.  An access list without labels
is public, so a list must not become empty on its way into an edge.
-/

namespace Cortana

/-! ## Edges -/

inductive EdgeKind where
  | contains
  | references
  | backlink
  | nearby
  | sameThread
  | authoredBy
  | mentions
  | temporal
  | semanticallyRelated
  | supports
  | contradicts
  | reinforces
  | supersedes
  | observes
  | derives
  | dependsOn
  | defines
  | calls
  | imports
deriving DecidableEq

inductive EdgeOrigin where
  | explicit
  | derived
  | inferred
deriving DecidableEq

structure GraphNodeId where
  text : String
deriving DecidableEq

structure RelationshipSupport where
  recordIds : List String
  invalidationKeys : List String
deriving DecidableEq

structure GraphEdge where
  contractVersion : String
  source : GraphNodeId
  target : GraphNodeId
  kind : EdgeKind
  origin : EdgeOrigin
  derivationVersion : String
  confidence : Option ℚ
  citationAuthority : Bool
  updatedAt : String
  project : String
  acl : List String
  support : RelationshipSupport
deriving DecidableEq

/-- The labels of a list: trimmed, without the blank ones. -/
def labelsOf (values : List String) : List String :=
  (values.map fun value ↦ String.ofList (ByteText.trim value.toList)).filter (· ≠ "")

/-- `normalize_bounded`. -/
def normalizeBounded (values : List String) (maximum : ℕ) : List String :=
  (labelsOf values).orderedSet.take maximum

/-- `RelationshipSupport::normalize`. -/
def RelationshipSupport.normalize (support : RelationshipSupport) : RelationshipSupport where
  recordIds := normalizeBounded support.recordIds 64
  invalidationKeys := normalizeBounded support.invalidationKeys 64

/-- `GraphEdge::new`. -/
def GraphEdge.new (source target : GraphNodeId) (kind : EdgeKind) (origin : EdgeOrigin)
    (updatedAt project : String) (acl : List String) (support : RelationshipSupport) :
    Except String GraphEdge :=
  if ByteText.trim project.toList = [] then
    .error "graph relationships require a workspace scope"
  else
    .ok {
      contractVersion := "cortana.knowledge-graph.v1"
      source
      target
      kind
      origin
      derivationVersion := "cortana.graph-derivation.v1"
      confidence := none
      citationAuthority := origin = .explicit
      updatedAt
      project
      acl := normalizeBounded acl 64
      support := support.normalize }

/-- `require_acl_intersection`. -/
def requireAclIntersection (left right : List String) : Except String (List String) :=
  let left := left.orderedSet
  let right := right.orderedSet
  if left = [] then .ok right
  else if right = [] then .ok left
  else
    let intersection := left.filter (· ∈ right)
    if intersection = [] then .error "graph relationship support has no shared ACL visibility"
    else .ok intersection

/-! ## Who is admitted -/

/-- A principal is admitted by a public list, as the owner, or by a label. -/
theorem aclAllows_iff {acl principal : List String} :
    aclAllows acl principal = true ↔
      acl = [] ∨ "*" ∈ principal ∨ ∃ label ∈ acl, label ∈ principal := by
  simp [aclAllows, or_assoc]

/-- One list admits no one that another does not. -/
def Narrows (acl wider : List String) : Prop :=
  ∀ principal, aclAllows acl principal = true → aclAllows wider principal = true

/-- A list is narrower than another exactly when that is public, or the list has
labels and each of them is in the other or the owner's. -/
theorem narrows_iff {acl wider : List String} :
    Narrows acl wider ↔ wider = [] ∨ acl ≠ [] ∧ ∀ label ∈ acl, label ≠ "*" → label ∈ wider := by
  constructor
  · intro h
    by_cases hpublic : wider = []
    · exact .inl hpublic
    · refine .inr ⟨fun hacl ↦ ?_, fun label hlabel howner ↦ ?_⟩
      · -- everyone is admitted, a principal without labels too
        have hnobody := h [] (Iff.mpr aclAllows_iff (.inl hacl))
        rcases Iff.mp aclAllows_iff hnobody with hwider | howner | ⟨label, -, hlabel⟩
        · exact hpublic hwider
        · exact absurd howner List.not_mem_nil
        · exact absurd hlabel List.not_mem_nil
      · have hone := h [label]
          (Iff.mpr aclAllows_iff (.inr (.inr ⟨label, hlabel, List.mem_singleton_self label⟩)))
        rcases Iff.mp aclAllows_iff hone with hwider | hstar | ⟨shared, hshared, hmem⟩
        · exact absurd hwider hpublic
        · exact absurd (List.mem_singleton.mp hstar).symm howner
        · rwa [← List.mem_singleton.mp hmem]
  · rintro (hpublic | ⟨hacl, hlabels⟩) principal hallows
    · exact Iff.mpr aclAllows_iff (.inl hpublic)
    · refine Iff.mpr aclAllows_iff (.inr ?_)
      rcases Iff.mp aclAllows_iff hallows with hnil | howner | ⟨label, hlabel, hmem⟩
      · exact absurd hnil hacl
      · exact .inl howner
      · by_cases hstar : label = "*"
        · exact .inl (hstar ▸ hmem)
        · exact .inr ⟨label, hlabels label hlabel hstar, hmem⟩

theorem narrows_orderedSet (acl : List String) : Narrows acl.orderedSet acl := by
  rw [narrows_iff, ne_eq, List.orderedSet_eq_nil_iff]
  by_cases h : acl = []
  · exact .inl h
  · exact .inr ⟨h, fun label hlabel _ ↦ List.mem_orderedSet.mp hlabel⟩

/-- An intersection is narrower than both lists. -/
theorem narrows_of_requireAclIntersection {left right acl : List String}
    (h : requireAclIntersection left right = .ok acl) : Narrows acl left ∧ Narrows acl right := by
  rw [requireAclIntersection] at h
  dsimp only at h
  split_ifs at h with hleft hright hnone
  · obtain rfl := Except.ok.inj h
    exact ⟨Iff.mpr narrows_iff (.inl (List.orderedSet_eq_nil_iff.mp hleft)),
      narrows_orderedSet right⟩
  · obtain rfl := Except.ok.inj h
    exact ⟨narrows_orderedSet left,
      Iff.mpr narrows_iff (.inl (List.orderedSet_eq_nil_iff.mp hright))⟩
  · obtain rfl := Except.ok.inj h
    have hmem : ∀ label ∈ left.orderedSet.filter (· ∈ right.orderedSet),
        label ∈ left ∧ label ∈ right := by
      intro label hlabel
      simpa using hlabel
    exact ⟨Iff.mpr narrows_iff (.inr ⟨hnone, fun label hlabel _ ↦ (hmem label hlabel).1⟩),
      Iff.mpr narrows_iff (.inr ⟨hnone, fun label hlabel _ ↦ (hmem label hlabel).2⟩)⟩

/-- An intersection fails only when no label is admitted by both lists. -/
theorem not_allowed_of_requireAclIntersection {left right : List String} {error : String}
    (h : requireAclIntersection left right = .error error) {label : String}
    (howner : label ≠ "*") :
    ¬ (aclAllows left [label] = true ∧ aclAllows right [label] = true) := by
  rw [requireAclIntersection] at h
  dsimp only at h
  split_ifs at h with hleft hright hnone
  rintro ⟨hallowsLeft, hallowsRight⟩
  have hlabelOf : ∀ acl : List String, ¬ acl.orderedSet = [] → aclAllows acl [label] = true →
      label ∈ acl := by
    intro acl hacl hallows
    rcases Iff.mp aclAllows_iff hallows with hnil | hstar | ⟨shared, hshared, hmem⟩
    · exact absurd (List.orderedSet_eq_nil_iff.mpr hnil) hacl
    · exact absurd (List.mem_singleton.mp hstar).symm howner
    · rwa [← List.mem_singleton.mp hmem]
  have hboth : label ∈ left.orderedSet.filter (· ∈ right.orderedSet) := by
    simpa using ⟨hlabelOf left hleft hallowsLeft, hlabelOf right hright hallowsRight⟩
  rw [hnone] at hboth
  exact List.not_mem_nil hboth

/-! ## The list of an edge -/

/-- A list whose labels an edge may keep: it is public, or it has a label that is
not blank, and each of its first labels but the owner's is spelled without space
around it somewhere in the list. -/
def KeepsLabels (acl : List String) : Prop :=
  acl = [] ∨ labelsOf acl ≠ [] ∧ ∀ label ∈ labelsOf acl, label ≠ "*" →
    ((labelsOf acl).toFinset.filter (· < label)).card < 64 → label ∈ acl

theorem narrows_normalizeBounded_iff {acl : List String} :
    Narrows (normalizeBounded acl 64) acl ↔ KeepsLabels acl := by
  rw [narrows_iff, KeepsLabels, normalizeBounded]
  refine or_congr_right (and_congr ?_ ?_)
  · rw [ne_eq, ne_eq, List.take_eq_nil_iff, List.orderedSet_eq_nil_iff]
    simp
  · simp only [List.mem_take_orderedSet, and_imp]
    exact forall₂_congr fun label _ ↦ ⟨fun h howner hfirst ↦ h hfirst howner,
      fun h hfirst howner ↦ h howner hfirst⟩

/-- An intersection is never wider than its lists and fails only where no label is
admitted by both.  The list of an edge is never wider than the given one exactly
when that may keep its labels. -/
theorem visibility_never_widens_iff (left right acl : List String) :
    (∀ shared, requireAclIntersection left right = .ok shared →
        Narrows shared left ∧ Narrows shared right) ∧
      (∀ error, requireAclIntersection left right = .error error → ∀ label, label ≠ "*" →
        ¬ (aclAllows left [label] = true ∧ aclAllows right [label] = true)) ∧
      ((∀ source target kind origin updatedAt project support edge,
        GraphEdge.new source target kind origin updatedAt project acl support = .ok edge →
          Narrows edge.acl acl) ↔ KeepsLabels acl) := by
  refine ⟨fun shared h ↦ narrows_of_requireAclIntersection h,
    fun error h label howner ↦ not_allowed_of_requireAclIntersection h howner, ?_⟩
  rw [← narrows_normalizeBounded_iff]
  constructor
  · intro h
    exact h ⟨"a"⟩ ⟨"b"⟩ .contains .explicit "" "p" ⟨[], []⟩ _ (if_neg (by decide))
  · intro h source target kind origin updatedAt project support edge hedge
    rw [GraphEdge.new] at hedge
    split_ifs at hedge
    obtain rfl := Except.ok.inj hedge
    exact h

/-- An edge for those who have a label of one space is public. -/
theorem visibility_widens_blank :
    ∃ edge, GraphEdge.new ⟨"document:a"⟩ ⟨"document:b"⟩ .contains .explicit
        "2026-01-01T00:00:00Z" "work" [" "] ⟨["a"], ["document:a"]⟩ = .ok edge ∧
      aclAllows edge.acl [] = true ∧ aclAllows [" "] [] = false := by
  refine ⟨_, if_neg (by decide), ?_, by decide⟩
  decide +kernel

end Cortana
