import Cortana.Core.Paging
import Cortana.Store.Memories
import Cortana.Store.Sample
import Mathlib.Data.Finset.Insert
import Mathlib.Data.Finset.SDiff
import Mathlib.Data.Rat.Defs

/-!
# Relations between code symbols

`code_relations`: the relations of the code indexes a principal can see, their
targets resolved by name, the traversal from a symbol, and a page of what it
selects in the order of the ids.
-/

namespace Cortana

/-! ## Parse outputs -/

inductive RelationKind where
  | import
  | dependency
  | inheritance
  | implementation
  | call
  | containment
  | reference
  | export
  | override
deriving DecidableEq

inductive RelationOrigin where
  | directSyntax
  | resolved
  | inferred
  | dynamic
  | unresolved
  | ambiguous
deriving DecidableEq

structure SourceSpan where
  startByte : ℕ
  endByte : ℕ
  startLine : ℕ
  endLine : ℕ
deriving DecidableEq

/-- What the relations need of a `CodeSymbol`. -/
structure CodeSymbol where
  id : String
  name : String
  qualifiedName : String
  repositoryId : Option String
  revision : Option String

/-- `CodeRelation`; the confidence as an exact fraction. -/
structure CodeRelation where
  id : String
  kind : RelationKind
  fromSymbolId : Option String
  fromName : String
  toSymbolId : Option String
  toName : String
  repositoryId : Option String
  revision : Option String
  file : String
  span : SourceSpan
  parserVersion : String
  confidence : ℚ
  origin : RelationOrigin
  resolved : Bool
  dynamic : Bool
deriving DecidableEq

/-- The symbols and the relations of a `ParseOutput`. -/
structure ParseOutput where
  symbols : List CodeSymbol
  relations : List CodeRelation

inductive RelationQuery where
  | neighborhood
  | callers
  | callees
  | dependencies
  | impact
deriving DecidableEq

/-- `RelationPage`. -/
structure RelationPage where
  relations : List CodeRelation
  nextCursor : Option String
  truncated : Bool
deriving DecidableEq

/-! ## Loading the visible indexes -/

/-- What a name is looked up by: the repository, the revision and the name. -/
abbrev NameKey := Option String × Option String × String

/-- The relations of the visible indexes, and the entries of the map from names
to the ids of symbols. -/
structure CodeGraph where
  relations : List CodeRelation
  symbols : List (NameKey × String)

def CodeSymbol.entries (symbol : CodeSymbol) : List (NameKey × String) :=
  [symbol.name, symbol.qualifiedName].map fun name ↦
    ((symbol.repositoryId, symbol.revision, name), symbol.id)

def maxCodeIndexScan : ℕ := 10000

def maxCodeRelationScan : ℕ := 100000

namespace CodeGraph

/-- One row of the loop over the indexes: its output and the ACL of its document. -/
def load (codec : Codec) (readOutput : String → Except String ParseOutput)
    (principalAcl : List String) (graph : CodeGraph) (row : String × String) :
    Except String CodeGraph := do
  let acl ← codec.parseAcl row.2
  if aclAllows acl principalAcl then do
    let output ← readOutput row.1
    Except.require (graph.relations.length + output.relations.length ≤ maxCodeRelationScan)
      "code relation scan budget exceeded"
    return {
      relations := graph.relations ++ output.relations
      symbols := graph.symbols ++ output.symbols.flatMap CodeSymbol.entries }
  else return graph

/-- The ids of the visible symbols with a name. -/
def candidates (graph : CodeGraph) (key : NameKey) : Finset String :=
  ((graph.symbols.filter fun entry ↦ entry.1 = key).map Prod.snd).toFinset

/-- The relation with its target resolved, if its name has one candidate. -/
def resolve (graph : CodeGraph) (relation : CodeRelation) : CodeRelation :=
  if relation.toSymbolId.isSome then relation
  else
    let unique := graph.candidates (relation.repositoryId, relation.revision, relation.toName)
    if unique.card = 1 then
      { relation with
        toSymbolId := ((graph.symbols.find? fun entry ↦
          entry.1 = (relation.repositoryId, relation.revision, relation.toName)).map Prod.snd)
        resolved := true
        origin := .resolved
        confidence := max relation.confidence (9 / 10) }
    else if 1 < unique.card then
      { relation with
        origin := .ambiguous
        resolved := false
        confidence := min relation.confidence (1 / 2) }
    else relation

end CodeGraph

/-! ## Traversal -/

/-- An end of a relation that the frontier contains. -/
def meets (frontier : Finset String) (symbol : Option String) : Bool :=
  symbol.any (· ∈ frontier)

def RelationQuery.includes (query : RelationQuery) (frontier : Finset String)
    (relation : CodeRelation) : Bool :=
  match query with
  | neighborhood => meets frontier relation.fromSymbolId || meets frontier relation.toSymbolId
  | callers => relation.kind = .call && meets frontier relation.toSymbolId
  | callees => relation.kind = .call && meets frontier relation.fromSymbolId
  | dependencies =>
      (relation.kind = .import || relation.kind = .dependency) &&
        meets frontier relation.fromSymbolId
  | impact => meets frontier relation.toSymbolId

/-- One relation of a round: select it and collect its unvisited ends. -/
def RelationQuery.visit (query : RelationQuery) (frontier visited : Finset String)
    (state : List CodeRelation × Finset String) (relation : CodeRelation) :
    List CodeRelation × Finset String :=
  if query.includes frontier relation then
    (if relation.id ∈ state.1.map CodeRelation.id then state.1 else state.1 ++ [relation],
      state.2 ∪ (relation.fromSymbolId.toFinset ∪ relation.toSymbolId.toFinset) \ visited)
  else state

/-- The rounds of the traversal. -/
def RelationQuery.traverse (query : RelationQuery) (relations : List CodeRelation) :
    ℕ → Finset String → Finset String → List CodeRelation → List CodeRelation
  | 0, _, _, selected => selected
  | rounds + 1, frontier, visited, selected =>
      let state := relations.foldl (query.visit frontier visited) (selected, ∅)
      if state.2 = ∅ then state.1
      else query.traverse relations rounds state.2 (visited ∪ state.2) state.1

def RelationQuery.maxDepth (query : RelationQuery) (depth : ℕ) : ℕ :=
  match query with
  | impact => max 1 (min depth 3)
  | _ => 1

/-! ## Pages -/

/-- The page of the sorted relations after an id. -/
def relationPageAfter (selected : List CodeRelation) (afterId : Option String) (limit : ℕ) :
    RelationPage :=
  let start := (afterId.bind fun after ↦
    selected.findIdx? fun relation ↦ after < relation.id).getD 0
  let page := (selected.drop start).take limit
  let truncated : Bool := start + page.length < selected.length
  { relations := page
    nextCursor := if truncated then page.getLast?.map CodeRelation.id else none
    truncated := truncated }

def relationLimit (limit : ℕ) : ℕ := max 1 (min limit 50)

/-- The arguments of a query apart from the page. -/
structure RelationCall where
  symbolId : String
  project : Option String
  principalAcl : List String
  query : RelationQuery
  depth : ℕ

/-! ## Cursors of clients -/

/-- `RelationCursor`. -/
structure RelationCursor where
  afterId : Option String
  corpusRevision : ℕ
  scope : String

/-- What the cursors of clients are written with. -/
structure CursorCodec where
  /-- `stable_hash`. -/
  stableHash : String → String
  /-- The `Debug` text of a list of labels. -/
  debugLabels : List String → String
  /-- The URL-safe Base64 text of the JSON text. -/
  encode : RelationCursor → String
  decode : String → Except String RelationCursor

def RelationQuery.debug : RelationQuery → String
  | neighborhood => "Neighborhood"
  | callers => "Callers"
  | callees => "Callees"
  | dependencies => "Dependencies"
  | impact => "Impact"

/-- `relation_cursor_scope`. -/
def CursorCodec.scope (codec : CursorCodec) (call : RelationCall) : String :=
  codec.stableHash (call.symbolId ++ ":" ++ call.project.getD "*" ++ ":" ++
    codec.debugLabels (call.principalAcl.insertionSort (· ≤ ·)).dedup ++ ":" ++ call.query.debug ++
    ":" ++ toString (max 1 (min call.depth 3)))

/-- `encode_relation_cursor`. -/
def CursorCodec.encodeRelationCursor (codec : CursorCodec) (afterId : Option String)
    (corpusRevision : ℕ) (call : RelationCall) : String :=
  codec.encode ⟨afterId, corpusRevision, codec.scope call⟩

/-- `decode_relation_cursor`. -/
def CursorCodec.decodeRelationCursor (codec : CursorCodec) (cursor : String) (corpusRevision : ℕ)
    (call : RelationCall) : Except String (Option String) := do
  Except.require (cursor.utf8ByteSize ≤ 2048) "relation cursor is too large"
  let decoded ← codec.decode cursor
  Except.require (decoded.corpusRevision = corpusRevision) "relation cursor is stale"
  Except.require (decoded.scope = codec.scope call) "relation cursor scope does not match"
  return decoded.afterId

/-- A cursor is accepted for the revision and the scope it was written for, and
for every id it may name. -/
theorem CursorCodec.decodeRelationCursor_eq_ok_iff (codec : CursorCodec) {cursor : String}
    {corpusRevision : ℕ} {call : RelationCall} {afterId : Option String} :
    codec.decodeRelationCursor cursor corpusRevision call = .ok afterId ↔
      cursor.utf8ByteSize ≤ 2048 ∧
        codec.decode cursor = .ok ⟨afterId, corpusRevision, codec.scope call⟩ := by
  rw [decodeRelationCursor]
  constructor
  · intro h
    obtain ⟨_, hsize, hrest⟩ := Iff.mp Except.bind_ok_iff h
    obtain ⟨decoded, hdecoded, hchecks⟩ := Iff.mp Except.bind_ok_iff hrest
    obtain ⟨_, hrevision, hcheck⟩ := Iff.mp Except.bind_ok_iff hchecks
    obtain ⟨_, hscope, hid⟩ := Iff.mp Except.bind_ok_iff hcheck
    refine ⟨Iff.mp Except.require_ok_iff hsize, hdecoded.trans ?_⟩
    rw [← Iff.mp Except.require_ok_iff hscope, ← Iff.mp Except.require_ok_iff hrevision,
      ← Iff.mp Except.pure_ok_iff hid]
  · rintro ⟨hsize, hdecoded⟩
    simp [hdecoded, hsize, Except.require, bind, Except.bind, pure, Except.pure]

/-- The cursor that names an id is read back. -/
def CursorCodec.Returns (codec : CursorCodec) (corpusRevision : ℕ) (call : RelationCall)
    (id : String) : Prop :=
  codec.decodeRelationCursor (codec.encodeRelationCursor (some id) corpusRevision call)
    corpusRevision call = .ok (some id)

/-- It is when it is short enough and Base64 and JSON give back what was written. -/
theorem CursorCodec.returns_iff (codec : CursorCodec) {corpusRevision : ℕ} {call : RelationCall}
    {id : String} : codec.Returns corpusRevision call id ↔
      (codec.encodeRelationCursor (some id) corpusRevision call).utf8ByteSize ≤ 2048 ∧
        codec.decode (codec.encodeRelationCursor (some id) corpusRevision call) =
          .ok ⟨some id, corpusRevision, codec.scope call⟩ :=
  codec.decodeRelationCursor_eq_ok_iff

namespace Store

/-- `code_indexes` joined with the documents of a project: outputs and ACLs. -/
def codeRows (s : Store) (project : Option String) : List (String × String) :=
  s.codeIndexes.rows.filterMap fun index ↦
    ((s.documents.get index.documentId).filter fun document ↦
      project.all (document.project = ·)).map fun document ↦ (index.outputJson, document.aclJson)

/-- The selected relations, in the order of their ids. -/
def selectRelations (codec : Codec) (readOutput : String → Except String ParseOutput) (s : Store)
    (call : RelationCall) : Except String (List CodeRelation) := do
  let rows := s.codeRows call.project
  Except.require (rows.length ≤ maxCodeIndexScan) "code relation index scan budget exceeded"
  let graph ← rows.foldlM (CodeGraph.load codec readOutput call.principalAcl) ⟨[], []⟩
  let relations := graph.relations.map graph.resolve
  let selected := call.query.traverse relations (call.query.maxDepth call.depth)
    {call.symbolId} {call.symbolId} []
  return selected.insertionSort fun a b ↦ a.id ≤ b.id

/-- `code_relations`. -/
def codeRelations (codec : Codec) (readOutput : String → Except String ParseOutput) (s : Store)
    (call : RelationCall) (afterId : Option String) (limit : ℕ) : Except String RelationPage := do
  let selected ← s.selectRelations codec readOutput call
  return relationPageAfter selected afterId (relationLimit limit)

/-- The route of the server: the cursor of the client is decoded, and that of the page
encoded. -/
def codeRelationsRoute (cursors : CursorCodec) (codec : Codec)
    (readOutput : String → Except String ParseOutput) (s : Store) (call : RelationCall)
    (cursor : Option String) (limit : ℕ) : Except String RelationPage := do
  let afterId ← cursor.elim (.ok none) fun cursor ↦
    cursors.decodeRelationCursor cursor s.corpusRevision call
  let page ← s.codeRelations codec readOutput call afterId (min limit 50)
  return { page with
    nextCursor := page.nextCursor.map fun id ↦
      cursors.encodeRelationCursor (some id) s.corpusRevision call }

end Store

/-! ## Reaching a symbol backwards -/

/-- The symbols from which so many relations lead to the given one. -/
inductive ReachedIn (relations : List CodeRelation) (symbolId : String) : ℕ → String → Prop where
  | start : ReachedIn relations symbolId 0 symbolId
  | step {n : ℕ} {x y : String} {relation : CodeRelation} (hmem : relation ∈ relations)
      (hto : relation.toSymbolId = some y) (hfrom : relation.fromSymbolId = some x)
      (tail : ReachedIn relations symbolId n y) : ReachedIn relations symbolId (n + 1) x

/-- The relations that a query asks for. -/
def RelationQuery.OnPath (query : RelationQuery) (relations : List CodeRelation)
    (symbolId : String) (depth : ℕ) (relation : CodeRelation) : Prop :=
  match query with
  | neighborhood => relation.fromSymbolId = some symbolId ∨ relation.toSymbolId = some symbolId
  | callers => relation.kind = .call ∧ relation.toSymbolId = some symbolId
  | callees => relation.kind = .call ∧ relation.fromSymbolId = some symbolId
  | dependencies =>
      (relation.kind = .import ∨ relation.kind = .dependency) ∧
        relation.fromSymbolId = some symbolId
  | impact =>
      ∃ y n, relation.toSymbolId = some y ∧ n < max 1 (min depth 3) ∧
        ReachedIn relations symbolId n y

/-- Relations with a property, one of each id. -/
structure SelectedBy (relations : List CodeRelation) (P : CodeRelation → Prop)
    (selected : List CodeRelation) : Prop where
  sound : ∀ r ∈ selected, r ∈ relations ∧ P r
  complete : ∀ r ∈ relations, P r → r.id ∈ selected.map CodeRelation.id
  nodup : (selected.map CodeRelation.id).Nodup

theorem SelectedBy.congr {relations selected : List CodeRelation} {P Q : CodeRelation → Prop}
    (h : SelectedBy relations P selected) (hPQ : ∀ r ∈ relations, P r ↔ Q r) :
    SelectedBy relations Q selected where
  sound r hr := ⟨(h.sound r hr).1, (hPQ r (h.sound r hr).1).mp (h.sound r hr).2⟩
  complete r hr hQ := h.complete r hr ((hPQ r hr).mpr hQ)
  nodup := h.nodup

section Rounds

variable {query : RelationQuery} {frontier visited : Finset String}

/-- What a round over some of the relations does to the selected ones and to
the symbols it reaches. -/
structure RoundSpec (query : RelationQuery) (frontier visited : Finset String)
    (relations : List CodeRelation) (state result : List CodeRelation × Finset String) :
    Prop where
  sound : ∀ r ∈ result.1, r ∈ state.1 ∨ (r ∈ relations ∧ query.includes frontier r = true)
  kept : ∀ r ∈ state.1, r ∈ result.1
  complete : ∀ r ∈ relations, query.includes frontier r = true →
    r.id ∈ result.1.map CodeRelation.id
  nodup : (state.1.map CodeRelation.id).Nodup → (result.1.map CodeRelation.id).Nodup
  reached : ∀ x, x ∈ result.2 ↔ x ∈ state.2 ∨ ∃ r ∈ relations,
    query.includes frontier r = true ∧ (r.fromSymbolId = some x ∨ r.toSymbolId = some x) ∧
      x ∉ visited

theorem RoundSpec.nil (state : List CodeRelation × Finset String) :
    RoundSpec query frontier visited [] state state where
  sound r hr := .inl hr
  kept r hr := hr
  complete r hr := nomatch hr
  nodup h := h
  reached x := by simp

theorem RoundSpec.cons {relation : CodeRelation} {rest : List CodeRelation}
    {state middle result : List CodeRelation × Finset String}
    (h : RoundSpec query frontier visited [relation] state middle)
    (h' : RoundSpec query frontier visited rest middle result) :
    RoundSpec query frontier visited (relation :: rest) state result where
  sound r hr := by
    rcases h'.sound r hr with hr | ⟨hr, hin⟩
    · refine (h.sound r hr).imp_right fun ⟨hr, hin⟩ ↦ ⟨?_, hin⟩
      exact List.mem_cons.mpr (.inl (List.mem_singleton.mp hr))
    · exact .inr ⟨List.mem_cons_of_mem _ hr, hin⟩
  kept r hr := h'.kept r (h.kept r hr)
  complete r hr hin := by
    rcases List.mem_cons.mp hr with rfl | hr
    · obtain ⟨r', hr', hid⟩ := List.mem_map.mp (h.complete r (by simp) hin)
      exact List.mem_map.mpr ⟨r', h'.kept r' hr', hid⟩
    · exact h'.complete r hr hin
  nodup hnodup := h'.nodup (h.nodup hnodup)
  reached x := by
    rw [h'.reached x, h.reached x, or_assoc]
    simp only [List.mem_cons, List.not_mem_nil, or_false, exists_eq_left, or_and_right, exists_or]

theorem RoundSpec.visit (state : List CodeRelation × Finset String) (relation : CodeRelation) :
    RoundSpec query frontier visited [relation] state
      (query.visit frontier visited state relation) := by
  rw [RelationQuery.visit]
  by_cases hincludes : query.includes frontier relation = true
  · rw [if_pos hincludes]
    refine ⟨fun r hr ↦ ?_, fun r hr ↦ ?_, fun r hr _ ↦ ?_, fun hnodup ↦ ?_, fun x ↦ ?_⟩
    · dsimp only at hr
      split at hr
      · exact .inl hr
      · refine (List.mem_append.mp hr).imp_right fun hr ↦ ⟨hr, ?_⟩
        rwa [List.mem_singleton.mp hr]
    · dsimp only
      split
      · exact hr
      · exact List.mem_append_left _ hr
    · rw [List.mem_singleton.mp hr]
      dsimp only
      split
      next hknown => exact hknown
      next => simp
    · dsimp only
      split
      · exact hnodup
      next hnew =>
          rw [List.map_append, List.nodup_append]
          refine ⟨hnodup, by simp, fun a ha b hb hab ↦ hnew ?_⟩
          rw [List.map_singleton, List.mem_singleton] at hb
          rwa [← hb, ← hab]
    · simp [hincludes]
  · rw [if_neg hincludes]
    refine ⟨fun r hr ↦ .inl hr, fun r hr ↦ hr, fun r hr hin ↦ ?_, id, fun x ↦ ?_⟩
    · exact absurd (List.mem_singleton.mp hr ▸ hin) hincludes
    · simp [hincludes]

theorem RoundSpec.foldl (relations : List CodeRelation)
    (state : List CodeRelation × Finset String) :
    RoundSpec query frontier visited relations state
      (relations.foldl (query.visit frontier visited) state) := by
  induction relations generalizing state with
  | nil => exact .nil state
  | cons relation rest ih => exact .cons (.visit state relation) (ih _)

end Rounds

section Layers

variable {relations : List CodeRelation} {symbolId : String}

/-- The relations whose targets are reached in fewer steps. -/
def Within (relations : List CodeRelation) (symbolId : String) (n : ℕ)
    (relation : CodeRelation) : Prop :=
  ∃ y m, relation.toSymbolId = some y ∧ m < n ∧ ReachedIn relations symbolId m y

/-- The traversal after so many rounds: the frontier is reached in as many
steps, everything else that was visited in fewer. -/
structure Layer (relations : List CodeRelation) (symbolId : String) (n : ℕ)
    (frontier visited : Finset String) (selected : List CodeRelation) : Prop where
  steps : ∀ x ∈ frontier, ReachedIn relations symbolId n x
  seen : ∀ x, x ∈ visited ↔ ∃ m ≤ n, ReachedIn relations symbolId m x
  inner : ∀ x ∈ visited, x ∉ frontier → ∃ m < n, ReachedIn relations symbolId m x
  chosen : SelectedBy relations (Within relations symbolId n) selected

theorem meets_iff {frontier : Finset String} {symbol : Option String} :
    meets frontier symbol = true ↔ ∃ y, symbol = some y ∧ y ∈ frontier := by
  cases symbol <;> simp [meets]

theorem Layer.zero : Layer relations symbolId 0 {symbolId} {symbolId} [] where
  steps x hx := by
    rw [Finset.mem_singleton] at hx
    exact hx ▸ .start
  seen x := by
    rw [Finset.mem_singleton]
    constructor
    · rintro rfl
      exact ⟨0, le_rfl, .start⟩
    · rintro ⟨m, hm, hreached⟩
      cases hreached with
      | start => rfl
      | step => omega
  inner x hx hnot := absurd hx hnot
  chosen := by
    refine ⟨fun r hr ↦ absurd hr List.not_mem_nil, fun r _ hwithin ↦ ?_, List.nodup_nil⟩
    obtain ⟨-, m, -, hm, -⟩ := hwithin
    exact absurd hm m.not_lt_zero

theorem Layer.next {n : ℕ} {frontier visited : Finset String} {selected : List CodeRelation}
    (h : Layer relations symbolId n frontier visited selected) :
    let state := relations.foldl (RelationQuery.impact.visit frontier visited) (selected, ∅)
    Layer relations symbolId (n + 1) state.2 (visited ∪ state.2) state.1 := by
  intro state
  have hround : RoundSpec .impact frontier visited relations (selected, ∅) state :=
    .foldl relations (selected, ∅)
  have hincludes : ∀ r, RelationQuery.impact.includes frontier r = true ↔
      ∃ y, r.toSymbolId = some y ∧ y ∈ frontier := fun r ↦ meets_iff
  have hseen : ∀ y ∈ frontier, y ∈ visited := fun y hy ↦
    (h.seen y).mpr ⟨n, le_rfl, h.steps y hy⟩
  have hreached : ∀ x ∈ state.2, ReachedIn relations symbolId (n + 1) x ∧ x ∉ visited := by
    intro x hx
    rcases (hround.reached x).mp hx with hx | ⟨r, hr, hin, hend, hunseen⟩
    · exact absurd hx (Finset.notMem_empty x)
    · obtain ⟨y, hto, hy⟩ := (hincludes r).mp hin
      rcases hend with hfrom | hto'
      · exact ⟨.step hr hto hfrom (h.steps y hy), hunseen⟩
      · obtain rfl : y = x := Option.some.inj (hto.symm.trans hto')
        exact absurd (hseen y hy) hunseen
  -- What leads to a symbol that was visited before is visited, or is reached now.
  have hback : ∀ r ∈ relations, ∀ x y, r.fromSymbolId = some x → r.toSymbolId = some y →
      y ∈ visited → x ∈ visited ∪ state.2 := by
    intro r hr x y hfrom hto hy
    rw [Finset.mem_union]
    by_contra hnot
    rw [not_or] at hnot
    by_cases hfront : y ∈ frontier
    · exact hnot.2 ((hround.reached x).mpr
        (.inr ⟨r, hr, (hincludes r).mpr ⟨y, hto, hfront⟩, .inl hfrom, hnot.1⟩))
    · obtain ⟨m, hm, hreach⟩ := h.inner y hy hfront
      exact hnot.1 ((h.seen x).mpr ⟨m + 1, hm, .step hr hto hfrom hreach⟩)
  refine ⟨fun x hx ↦ (hreached x hx).1, fun x ↦ ?_, fun x hx hnot ↦ ?_, ?_⟩
  · constructor
    · intro hx
      rcases Finset.mem_union.mp hx with hx | hx
      · obtain ⟨m, hm, hreach⟩ := (h.seen x).mp hx
        exact ⟨m, hm.trans n.le_succ, hreach⟩
      · exact ⟨n + 1, le_rfl, (hreached x hx).1⟩
    · rintro ⟨m, hm, hreach⟩
      cases hreach with
      | start =>
          exact Finset.mem_union_left _ ((h.seen symbolId).mpr ⟨0, n.zero_le, .start⟩)
      | step hr hto hfrom htail =>
          exact hback _ hr x _ hfrom hto ((h.seen _).mpr ⟨_, Nat.le_of_succ_le_succ hm, htail⟩)
  · have hold : x ∈ visited := (Finset.mem_union.mp hx).resolve_right hnot
    obtain ⟨m, hm, hreach⟩ := (h.seen x).mp hold
    exact ⟨m, Nat.lt_succ_of_le hm, hreach⟩
  · refine ⟨fun r hr ↦ ?_, fun r hr hwithin ↦ ?_, hround.nodup h.chosen.nodup⟩
    · rcases hround.sound r hr with hr | ⟨hr, hin⟩
      · obtain ⟨hmem, y, m, hto, hm, hreach⟩ := h.chosen.sound r hr
        exact ⟨hmem, y, m, hto, hm.trans n.lt_succ_self, hreach⟩
      · obtain ⟨y, hto, hy⟩ := (hincludes r).mp hin
        exact ⟨hr, y, n, hto, n.lt_succ_self, h.steps y hy⟩
    · obtain ⟨y, m, hto, hm, hreach⟩ := hwithin
      by_cases hfront : y ∈ frontier
      · exact hround.complete r hr ((hincludes r).mpr ⟨y, hto, hfront⟩)
      · have hy : y ∈ visited := (h.seen y).mpr ⟨m, Nat.le_of_lt_succ hm, hreach⟩
        obtain ⟨m', hm', hreach'⟩ := h.inner y hy hfront
        obtain ⟨r', hr', hid⟩ := List.mem_map.mp
          (h.chosen.complete r hr ⟨y, m', hto, hm', hreach'⟩)
        exact List.mem_map.mpr ⟨r', hround.kept r' hr', hid⟩

/-- Without a frontier everything that can be reached has been. -/
theorem Layer.all {n : ℕ} {visited : Finset String} {selected : List CodeRelation}
    (h : Layer relations symbolId n ∅ visited selected) {m : ℕ} {x : String}
    (hreach : ReachedIn relations symbolId m x) : ∃ m' < n, ReachedIn relations symbolId m' x := by
  have hinner : ∀ x ∈ visited, ∃ m' < n, ReachedIn relations symbolId m' x :=
    fun x hx ↦ h.inner x hx (Finset.notMem_empty x)
  induction hreach with
  | start => exact hinner _ ((h.seen _).mpr ⟨0, n.zero_le, .start⟩)
  | step hr hto hfrom _ ih =>
      obtain ⟨m', hm', hreach'⟩ := ih
      exact hinner _ ((h.seen _).mpr ⟨m' + 1, hm', .step hr hto hfrom hreach'⟩)

theorem Layer.traverse {n rounds : ℕ} {frontier visited : Finset String}
    {selected : List CodeRelation} (h : Layer relations symbolId n frontier visited selected) :
    SelectedBy relations (Within relations symbolId (n + rounds))
      (RelationQuery.impact.traverse relations rounds frontier visited selected) := by
  induction rounds generalizing n frontier visited selected with
  | zero => exact h.chosen
  | succ rounds ih =>
      have hnext := h.next
      rw [RelationQuery.traverse]
      dsimp only at hnext ⊢
      split
      next hempty =>
          rw [hempty] at hnext
          refine hnext.chosen.congr fun r _ ↦ ⟨?_, ?_⟩
          · rintro ⟨y, m, hto, hm, hreach⟩
            exact ⟨y, m, hto, by omega, hreach⟩
          · rintro ⟨y, m, hto, -, hreach⟩
            obtain ⟨m', hm', hreach'⟩ := hnext.all hreach
            exact ⟨y, m', hto, hm', hreach'⟩
      next =>
          have hcount : n + (rounds + 1) = n + 1 + rounds := by omega
          rw [hcount]
          exact ih hnext

/-- The other queries take one round from the symbol. -/
theorem traverse_one (query : RelationQuery) :
    SelectedBy relations (fun r ↦ query.includes {symbolId} r = true)
      (query.traverse relations 1 {symbolId} {symbolId} []) := by
  have hround : RoundSpec query {symbolId} {symbolId} relations ([], ∅)
      (relations.foldl (query.visit {symbolId} {symbolId}) ([], ∅)) := .foldl relations ([], ∅)
  have htraverse : query.traverse relations 1 {symbolId} {symbolId} [] =
      (relations.foldl (query.visit {symbolId} {symbolId}) ([], ∅)).1 := by
    rw [RelationQuery.traverse]
    split
    · rfl
    · rw [RelationQuery.traverse]
  rw [htraverse]
  exact ⟨fun r hr ↦ (hround.sound r hr).resolve_left (List.not_mem_nil),
    hround.complete, hround.nodup List.nodup_nil⟩

theorem traverse_selects (query : RelationQuery) (depth : ℕ) :
    SelectedBy relations (query.OnPath relations symbolId depth)
      (query.traverse relations (query.maxDepth depth) {symbolId} {symbolId} []) := by
  cases query with
  | impact =>
      have hzero : Layer relations symbolId 0 {symbolId} {symbolId} [] := .zero
      have h := @Layer.traverse _ _ 0 (max 1 (min depth 3)) _ _ _ hzero
      rwa [Nat.zero_add] at h
  | _ =>
      refine (traverse_one _).congr fun r _ ↦ ?_
      simp [RelationQuery.includes, RelationQuery.OnPath, meets_iff]

end Layers

/-! ## The visible relations -/

section Visible

variable (codec : Codec) (readOutput : String → Except String ParseOutput)
  (principalAcl : List String)

/-- The output of a row that the principal can see. -/
def visibleOutput (row : String × String) : Option ParseOutput :=
  (codec.parseAcl row.2).toOption.bind fun acl ↦
    if aclAllows acl principalAcl then (readOutput row.1).toOption else none

/-- The relations and the names of some outputs. -/
def graphOf (outputs : List ParseOutput) : CodeGraph where
  relations := outputs.flatMap ParseOutput.relations
  symbols := outputs.flatMap fun output ↦ output.symbols.flatMap CodeSymbol.entries

/-- A symbol of some outputs has the name that a relation leads to, in its
repository and revision. -/
def Names (outputs : List ParseOutput) (relation : CodeRelation) (id : String) : Prop :=
  ∃ output ∈ outputs, ∃ symbol ∈ output.symbols, symbol.id = id ∧
    (symbol.name = relation.toName ∨ symbol.qualifiedName = relation.toName) ∧
    symbol.repositoryId = relation.repositoryId ∧ symbol.revision = relation.revision

/-- The relation with its target: the given one, or the only symbol of the name. -/
structure Resolves (outputs : List ParseOutput) (raw relation : CodeRelation) : Prop where
  id : relation.id = raw.id
  kind : relation.kind = raw.kind
  source : relation.fromSymbolId = raw.fromSymbolId
  target : ∀ id, relation.toSymbolId = some id ↔ raw.toSymbolId = some id ∨
    (raw.toSymbolId = none ∧ ∀ id', Names outputs raw id' ↔ id' = id)

theorem mem_candidates {outputs : List ParseOutput} {relation : CodeRelation} {id : String} :
    id ∈ (graphOf outputs).candidates
        (relation.repositoryId, relation.revision, relation.toName) ↔
      Names outputs relation id := by
  simp only [CodeGraph.candidates, graphOf, CodeSymbol.entries, Names, List.mem_toFinset,
    List.mem_map, List.mem_filter, List.mem_flatMap, decide_eq_true_eq]
  constructor
  · rintro ⟨entry, ⟨⟨output, houtput, symbol, hsymbol, name, hname, rfl⟩, hkey⟩, rfl⟩
    simp only [Prod.mk.injEq] at hkey
    obtain ⟨hrepository, hrevision, rfl⟩ := hkey
    refine ⟨output, houtput, symbol, hsymbol, rfl, ?_, hrepository, hrevision⟩
    simpa [eq_comm] using hname
  · rintro ⟨output, houtput, symbol, hsymbol, rfl, hname, hrepository, hrevision⟩
    refine ⟨_, ⟨⟨output, houtput, symbol, hsymbol, relation.toName, ?_, rfl⟩, ?_⟩, rfl⟩
    · simpa [eq_comm] using hname
    · rw [hrepository, hrevision]

theorem resolve_resolves (outputs : List ParseOutput) (raw : CodeRelation) :
    Resolves outputs raw ((graphOf outputs).resolve raw) := by
  set key : NameKey := (raw.repositoryId, raw.revision, raw.toName) with hkey
  set unique := (graphOf outputs).candidates key with hunique
  have hnames : ∀ id, id ∈ unique ↔ Names outputs raw id := fun id ↦ mem_candidates
  rw [CodeGraph.resolve]
  dsimp only
  rw [← hkey, ← hunique]
  cases hto : raw.toSymbolId with
  | some id =>
      rw [if_pos Option.isSome_some]
      exact ⟨rfl, rfl, rfl, fun id' ↦ by simp [hto]⟩
  | none =>
      rw [if_neg (by simp)]
      have hone : ∀ id, (∀ id', Names outputs raw id' ↔ id' = id) ↔ unique = {id} := by
        intro id
        rw [Finset.ext_iff]
        simp only [hnames, Finset.mem_singleton]
      split
      next hcard =>
          obtain ⟨id, hid⟩ := Finset.card_eq_one.mp hcard
          have hfind : ((graphOf outputs).symbols.find? fun entry ↦ entry.1 = key).map Prod.snd =
              some id := by
            have hmem : id ∈ unique := by simp [hid]
            rw [hunique, CodeGraph.candidates, List.mem_toFinset, List.mem_map] at hmem
            obtain ⟨entry, hentry, -⟩ := hmem
            obtain ⟨hentry, hname⟩ := List.mem_filter.mp hentry
            cases hfirst : (graphOf outputs).symbols.find? fun entry ↦ entry.1 = key with
            | none => exact absurd hname (List.find?_eq_none.mp hfirst entry hentry)
            | some first =>
                have hin : first.2 ∈ unique := by
                  rw [hunique, CodeGraph.candidates, List.mem_toFinset]
                  exact List.mem_map_of_mem (List.mem_filter.mpr
                    ⟨List.mem_of_find?_eq_some hfirst,
                      List.find?_some (p := fun entry : NameKey × String ↦ entry.1 = key) hfirst⟩)
                rw [hid, Finset.mem_singleton] at hin
                rw [Option.map_some, hin]
          refine ⟨rfl, rfl, rfl, fun id' ↦ ?_⟩
          dsimp only
          rw [hfind, hone, hid, Finset.singleton_inj]
          simp [hto]
      next hcard =>
          have hnone : ∀ id, unique ≠ {id} := by
            rintro id hid
            exact hcard (by rw [hid, Finset.card_singleton])
          split <;>
          exact ⟨rfl, rfl, rfl, fun id' ↦ by simp [hto, hone, hnone]⟩

/-- Why the visible indexes cannot be loaded. -/
def LoadRefused (rows : List (String × String)) (known : ℕ) (e : String) : Prop :=
  (∃ row ∈ rows, codec.parseAcl row.2 = .error e ∨ readOutput row.1 = .error e) ∨
    (e = "code relation scan budget exceeded" ∧ maxCodeRelationScan < known +
      ((rows.filterMap (visibleOutput codec readOutput principalAcl)).flatMap
        ParseOutput.relations).length)

/-- One row adds its output if it is visible. -/
theorem load_eq (graph : CodeGraph) (row : String × String) :
    (∃ e, graph.load codec readOutput principalAcl row = .error e ∧
        LoadRefused codec readOutput principalAcl [row] graph.relations.length e) ∨
      graph.load codec readOutput principalAcl row =
        .ok ⟨graph.relations ++ (graphOf (visibleOutput codec readOutput principalAcl
          row).toList).relations, graph.symbols ++ (graphOf (visibleOutput codec readOutput
            principalAcl row).toList).symbols⟩ := by
  rw [CodeGraph.load, visibleOutput]
  cases hacl : codec.parseAcl row.2 with
  | error e => exact .inl ⟨e, rfl, .inl ⟨row, by simp, .inl hacl⟩⟩
  | ok acl =>
      dsimp only [bind, Except.bind, Except.toOption, Option.bind]
      by_cases hallowed : aclAllows acl principalAcl = true
      · rw [if_pos hallowed, if_pos hallowed]
        cases hread : readOutput row.1 with
        | error e => exact .inl ⟨e, rfl, .inl ⟨row, by simp, .inr hread⟩⟩
        | ok output =>
            have hvisible : visibleOutput codec readOutput principalAcl row = some output := by
              simp [visibleOutput, hacl, hallowed, hread, Except.toOption]
            dsimp only [Except.require]
            by_cases hroom : graph.relations.length + output.relations.length ≤
                maxCodeRelationScan
            · rw [if_pos hroom]
              exact .inr (by simp [graphOf, pure, Except.pure])
            · rw [if_neg hroom]
              refine .inl ⟨_, rfl, .inr ⟨rfl, ?_⟩⟩
              simpa [hvisible] using hroom
      · rw [if_neg hallowed, if_neg hallowed]
        exact .inr (by simp [graphOf]; rfl)

/-- The loop collects the visible outputs, or is refused. -/
theorem load_foldlM (rows : List (String × String)) (graph : CodeGraph) :
    (∃ e, rows.foldlM (CodeGraph.load codec readOutput principalAcl) graph = .error e ∧
        LoadRefused codec readOutput principalAcl rows graph.relations.length e) ∨
      rows.foldlM (CodeGraph.load codec readOutput principalAcl) graph =
        .ok ⟨graph.relations ++ (graphOf (rows.filterMap (visibleOutput codec readOutput
          principalAcl))).relations, graph.symbols ++ (graphOf (rows.filterMap (visibleOutput
            codec readOutput principalAcl))).symbols⟩ := by
  induction rows generalizing graph with
  | nil => exact .inr (by simp [graphOf]; rfl)
  | cons row rest ih =>
      have hcons : (row :: rest).filterMap (visibleOutput codec readOutput principalAcl) =
          (visibleOutput codec readOutput principalAcl row).toList ++
            rest.filterMap (visibleOutput codec readOutput principalAcl) := by
        rw [List.filterMap_cons]
        cases visibleOutput codec readOutput principalAcl row <;> rfl
      have hone : [row].filterMap (visibleOutput codec readOutput principalAcl) =
          (visibleOutput codec readOutput principalAcl row).toList := by
        cases h : visibleOutput codec readOutput principalAcl row <;> simp [h]
      rw [List.foldlM_cons, hcons]
      rcases load_eq codec readOutput principalAcl graph row with ⟨e, herror, hrefused⟩ | hok
      · refine .inl ⟨e, by rw [herror]; rfl, ?_⟩
        rcases hrefused with ⟨r, hr, hunreadable⟩ | ⟨rfl, hfull⟩
        · exact .inl ⟨r, by simp_all, hunreadable⟩
        · refine .inr ⟨rfl, ?_⟩
          rw [hone] at hfull
          rw [hcons, List.flatMap_append, List.length_append]
          omega
      · rw [hok]
        rcases ih ⟨graph.relations ++ _, graph.symbols ++ _⟩ with ⟨e, herror, hrefused⟩ | hrest
        · refine .inl ⟨e, herror, ?_⟩
          rcases hrefused with ⟨r, hr, hunreadable⟩ | ⟨rfl, hfull⟩
          · exact .inl ⟨r, List.mem_cons_of_mem _ hr, hunreadable⟩
          · refine .inr ⟨rfl, ?_⟩
            rw [hcons, List.flatMap_append, List.length_append]
            dsimp only [graphOf] at hfull
            rw [List.length_append] at hfull
            omega
        · refine .inr (hrest.trans ?_)
          simp [graphOf]

end Visible

/-! ## Pages of sorted relations -/

section Pages

variable {selected : List CodeRelation}

/-- In a sorted list the relations after an id stand behind the first of them. -/
theorem findIdx?_after (hsorted : Paging.Sorted CodeRelation.id (· < ·) selected) {after : String}
    (h : ∃ r ∈ selected, after < r.id) :
    ∃ i, (selected.findIdx? fun r ↦ after < r.id) = some i ∧
      selected.drop i = selected.filter fun r ↦ after < r.id := by
  induction selected with
  | nil =>
      obtain ⟨r, hr, -⟩ := h
      cases hr
  | cons x rest ih =>
      obtain ⟨hx, hrest⟩ := List.pairwise_cons.mp hsorted
      by_cases hafter : after < x.id
      · refine ⟨0, by rw [List.findIdx?_cons, if_pos (decide_eq_true hafter)], ?_⟩
        rw [List.drop_zero, eq_comm, List.filter_eq_self]
        intro r hr
        rcases List.mem_cons.mp hr with rfl | hr
        · exact decide_eq_true hafter
        · exact decide_eq_true (hafter.trans (hx r hr))
      · have hsome : ∃ r ∈ rest, after < r.id := by
          obtain ⟨r, hr, hlt⟩ := h
          rcases List.mem_cons.mp hr with rfl | hr
          · exact absurd hlt hafter
          · exact ⟨r, hr, hlt⟩
        obtain ⟨i, hi, hdrop⟩ := ih hrest hsome
        refine ⟨i + 1, ?_, ?_⟩
        · rw [List.findIdx?_cons, if_neg (by simpa using hafter), hi]
          rfl
        · rw [List.drop_succ_cons, hdrop, List.filter_cons_of_neg (by simpa using hafter)]

/-- The page is what a cursor asks for unless nothing follows it. -/
theorem relationPageAfter_eq (hsorted : Paging.Sorted CodeRelation.id (· < ·) selected)
    {afterId : Option String} {n : ℕ}
    (h : ∀ after ∈ afterId, selected ≠ [] → ∃ r ∈ selected, after < r.id) :
    ((relationPageAfter selected afterId n).relations,
        (relationPageAfter selected afterId n).nextCursor) =
      Paging.page CodeRelation.id (· < ·) selected n afterId := by
  obtain ⟨start, hstart, hle, hdrop⟩ : ∃ start, ((afterId.bind fun after ↦
      selected.findIdx? fun r ↦ after < r.id).getD 0) = start ∧ start ≤ selected.length ∧
        selected.drop start = Paging.after CodeRelation.id (· < ·) selected afterId := by
    cases afterId with
    | none => exact ⟨0, rfl, Nat.zero_le _, by rw [Paging.after_none, List.drop_zero]⟩
    | some after =>
        by_cases hempty : selected = []
        · subst hempty
          exact ⟨0, rfl, le_rfl, rfl⟩
        · obtain ⟨i, hi, hdrop⟩ := findIdx?_after hsorted (h after rfl hempty)
          refine ⟨i, by rw [Option.bind_some, hi, Option.getD_some], ?_, hdrop⟩
          exact (List.findIdx?_eq_some_iff_getElem.mp hi).1.le
  rw [relationPageAfter, Paging.page, ← hdrop, hstart]
  dsimp only
  refine Prod.ext rfl ?_
  have htruncated : start + ((selected.drop start).take n).length < selected.length ↔
      n < (selected.drop start).length := by
    rw [List.length_take, List.length_drop]
    omega
  dsimp only
  by_cases hmore : n < (selected.drop start).length
  · rw [if_pos hmore, if_pos (decide_eq_true (htruncated.mpr hmore))]
  · rw [if_neg hmore, if_neg (by simpa using fun h ↦ hmore (htruncated.mp h))]

/-- A cursor that nothing follows starts again. -/
theorem relationPageAfter_restarts {after : String} {n : ℕ}
    (h : ∀ r ∈ selected, ¬ after < r.id) :
    relationPageAfter selected (some after) n = relationPageAfter selected none n := by
  have hnone : (selected.findIdx? fun r ↦ after < r.id) = none := by
    rw [List.findIdx?_eq_none_iff]
    intro r hr
    simpa using h r hr
  rw [relationPageAfter, relationPageAfter, Option.bind_some, hnone, Option.bind_none]

end Pages

namespace Store

variable (codec : Codec) (readOutput : String → Except String ParseOutput) (s : Store)
  (call : RelationCall)

def visibleOutputs : List ParseOutput :=
  (s.codeRows call.project).filterMap (visibleOutput codec readOutput call.principalAcl)

/-- The visible relations with their targets. -/
def resolvedRelations : List CodeRelation :=
  let graph := graphOf (s.visibleOutputs codec readOutput call)
  graph.relations.map graph.resolve

/-- The relations that the query asks for. -/
def Asked (relation : CodeRelation) : Prop :=
  relation ∈ s.resolvedRelations codec readOutput call ∧
    call.query.OnPath (s.resolvedRelations codec readOutput call) call.symbolId call.depth relation

/-- What the query selects: of the visible relations, resolved where one visible
symbol has the name, those on the paths, one of each id and in their order. -/
structure SelectsExactly (selected : List CodeRelation) : Prop where
  resolved : List.Forall₂ (Resolves (s.visibleOutputs codec readOutput call))
    ((s.visibleOutputs codec readOutput call).flatMap ParseOutput.relations)
    (s.resolvedRelations codec readOutput call)
  sound : ∀ r ∈ selected, s.Asked codec readOutput call r
  complete : ∀ r, s.Asked codec readOutput call r → r.id ∈ selected.map CodeRelation.id
  sorted : selected.Pairwise fun a b ↦ a.id < b.id

/-- The relations of a page and the cursor of the next one. -/
def relationPage (limit : ℕ) (cursor : Option String) :
    Option (Except String (List CodeRelation × Option String)) :=
  some ((s.codeRelations codec readOutput call cursor limit).map fun page ↦
    (page.relations, page.nextCursor))

/-- The page has the first selected relations after the id, and following the
cursors from the start meets every selected relation once. -/
def PageExact (afterId : Option String) (limit : ℕ) (page : RelationPage) : Prop :=
  ∃ selected, s.SelectsExactly codec readOutput call selected ∧
    page.relations =
      (selected.filter fun r ↦ afterId.all (· < r.id)).take (relationLimit limit) ∧
    ∃ rounds pages, Paging.collect (s.relationPage codec readOutput call limit) rounds none =
      some (.ok pages) ∧ pages.flatten = selected

/-- Something follows the id, if anything is asked for at all. -/
def Resumes (afterId : Option String) : Prop :=
  ∀ after ∈ afterId, ∀ r, s.Asked codec readOutput call r →
    ∃ r', s.Asked codec readOutput call r' ∧ after < r'.id

/-- Why the query is refused: too many indexes or relations, or a row that
cannot be read. -/
def RelationsRefused (e : String) : Prop :=
  (e = "code relation index scan budget exceeded" ∧
      maxCodeIndexScan < (s.codeRows call.project).length) ∨
    LoadRefused codec readOutput call.principalAcl (s.codeRows call.project) 0 e

theorem selectRelations_spec :
    (∃ e, s.selectRelations codec readOutput call = .error e ∧
        s.RelationsRefused codec readOutput call e) ∨
      ∃ selected, s.selectRelations codec readOutput call = .ok selected ∧
        s.SelectsExactly codec readOutput call selected := by
  by_cases hbudget : (s.codeRows call.project).length ≤ maxCodeIndexScan
  · rcases load_foldlM codec readOutput call.principalAcl (s.codeRows call.project) ⟨[], []⟩ with
      ⟨e, herror, hrefused⟩ | hok
    · refine .inl ⟨e, ?_, .inr hrefused⟩
      rw [selectRelations]
      dsimp only [bind, Except.bind, Except.require]
      rw [if_pos hbudget]
      dsimp only
      rw [herror]
    · have hselected := @traverse_selects (s.resolvedRelations codec readOutput call)
        call.symbolId call.query call.depth
      set traversed := call.query.traverse (s.resolvedRelations codec readOutput call)
        (call.query.maxDepth call.depth) {call.symbolId} {call.symbolId} [] with htraversed
      set sorted := traversed.insertionSort fun a b ↦ a.id ≤ b.id with hsorted
      have hmem : ∀ r, r ∈ sorted ↔ r ∈ traversed := fun r ↦ List.mem_insertionSort _
      refine .inr ⟨sorted, ?_, ?_, ?_, ?_, ?_⟩
      · rw [selectRelations]
        dsimp only [bind, Except.bind, Except.require]
        rw [if_pos hbudget]
        dsimp only
        rw [hok]
        rfl
      · have hgraph : (graphOf (s.visibleOutputs codec readOutput call)).relations =
            (s.visibleOutputs codec readOutput call).flatMap ParseOutput.relations := rfl
        rw [resolvedRelations, List.forall₂_map_right_iff, hgraph, List.forall₂_same]
        exact fun raw _ ↦ resolve_resolves _ raw
      · exact fun r hr ↦ hselected.sound r ((hmem r).mp hr)
      · intro r hr
        obtain ⟨r', hr', hid⟩ := List.mem_map.mp (hselected.complete r hr.1 hr.2)
        exact List.mem_map.mpr ⟨r', (hmem r').mpr hr', hid⟩
      · have hle : sorted.Pairwise fun a b ↦ a.id ≤ b.id := by
          have htotal : Std.Total fun a b : CodeRelation ↦ a.id ≤ b.id :=
            ⟨fun a b ↦ le_total a.id b.id⟩
          have htrans : IsTrans CodeRelation fun a b ↦ a.id ≤ b.id :=
            ⟨fun a b c hab hbc ↦ le_trans hab hbc⟩
          exact List.pairwise_insertionSort _ _
        have hdistinct : sorted.Pairwise fun a b ↦ a.id ≠ b.id := by
          have hperm : (sorted.map CodeRelation.id).Perm (traversed.map CodeRelation.id) :=
            (List.perm_insertionSort _ _).map _
          exact List.pairwise_map.mp (hperm.nodup_iff.mpr hselected.nodup)
        exact hle.imp₂ (fun _ _ h h' ↦ lt_of_le_of_ne h h') hdistinct
  · refine .inl ⟨"code relation index scan budget exceeded", ?_, .inl ⟨rfl, not_le.mp hbudget⟩⟩
    rw [selectRelations]
    dsimp only [bind, Except.bind, Except.require]
    rw [if_neg hbudget]

variable {codec readOutput s call}

theorem codeRelations_eq {selected : List CodeRelation}
    (h : s.selectRelations codec readOutput call = .ok selected) (afterId : Option String)
    (limit : ℕ) : s.codeRelations codec readOutput call afterId limit =
      .ok (relationPageAfter selected afterId (relationLimit limit)) := by
  rw [codeRelations, h]
  rfl

theorem relationLimit_pos (limit : ℕ) : 0 < relationLimit limit := by
  rw [relationLimit]
  omega

/-- The pages from the start on are finitely many and have what is selected. -/
theorem collect_relationPage {selected : List CodeRelation}
    (h : s.selectRelations codec readOutput call = .ok selected)
    (hsorted : Paging.Sorted CodeRelation.id (· < ·) selected) (limit : ℕ) :
    ∃ rounds pages, Paging.collect (s.relationPage codec readOutput call limit) rounds none =
      some (.ok pages) ∧ pages.flatten = selected := by
  have hfetch : ∀ cursor : Option String,
      (cursor.isSome = true → Paging.after CodeRelation.id (· < ·) selected cursor ≠ []) →
      (∃ e, s.relationPage codec readOutput call limit cursor = some (.error e) ∧ False) ∨
        s.relationPage codec readOutput call limit cursor =
          some (.ok (Paging.page CodeRelation.id (· < ·) selected (relationLimit limit)
            cursor)) := by
    intro cursor hcursor
    refine .inr ?_
    rw [relationPage, codeRelations_eq h, Except.map, relationPageAfter_eq hsorted]
    rintro after hafter -
    obtain ⟨r, hr⟩ := List.exists_mem_of_ne_nil _ (hcursor (by rw [hafter]; rfl))
    obtain ⟨hr, hlt⟩ := Iff.mp Paging.mem_after hr
    exact ⟨r, hr, hlt after hafter⟩
  have hrounds : (Paging.after CodeRelation.id (· < ·) selected none).length <
      selected.length + 1 := by
    rw [Paging.after_none]
    exact Nat.lt_succ_self _
  rcases Paging.collect_spec hsorted (relationLimit_pos limit) hfetch (by simp)
    hrounds with ⟨e, -, hfalse⟩ | ⟨pages, hpages, hflatten⟩
  · exact hfalse.elim
  · exact ⟨_, pages, hpages, by rw [hflatten, Paging.after_none]⟩

/-- The relations of a page of the server and the cursor for the client. -/
def routePage (cursors : CursorCodec) (codec : Codec)
    (readOutput : String → Except String ParseOutput) (s : Store) (call : RelationCall) (limit : ℕ)
    (cursor : Option String) : Option (Except String (List CodeRelation × Option String)) :=
  some ((s.codeRelationsRoute cursors codec readOutput call cursor limit).map fun page ↦
    (page.relations, page.nextCursor))

theorem codeRelationsRoute_eq {cursors : CursorCodec} {cursor afterId : Option String}
    (h : (cursor.elim (.ok none) fun cursor ↦
      cursors.decodeRelationCursor cursor s.corpusRevision call) = .ok afterId) (limit : ℕ) :
    s.codeRelationsRoute cursors codec readOutput call cursor limit =
      (s.codeRelations codec readOutput call afterId (min limit 50)).map fun page ↦
        { page with
          nextCursor := page.nextCursor.map fun id ↦
            cursors.encodeRelationCursor (some id) s.corpusRevision call } := by
  rw [codeRelationsRoute, h]
  rfl

/-- A client that follows the cursors of the server meets what is selected as well, if
those that name a selected relation are read back. -/
theorem collect_routePage {cursors : CursorCodec} {selected : List CodeRelation}
    (h : s.selectRelations codec readOutput call = .ok selected)
    (hsorted : Paging.Sorted CodeRelation.id (· < ·) selected)
    (hreturns : ∀ r ∈ selected, cursors.Returns s.corpusRevision call r.id) (limit : ℕ) :
    ∃ rounds pages, Paging.collect (s.routePage cursors codec readOutput call limit) rounds none =
      some (.ok pages) ∧ pages.flatten = selected := by
  obtain ⟨rounds, pages, hpages, hflatten⟩ := collect_relationPage h hsorted (min limit 50)
  refine ⟨rounds, pages, Eq.trans ?_ hpages, hflatten⟩
  have hencode : ∀ cursor : Option String,
      (∀ c ∈ cursor, cursors.Returns s.corpusRevision call c) →
      s.routePage cursors codec readOutput call limit (cursor.map fun id ↦
          cursors.encodeRelationCursor (some id) s.corpusRevision call) =
        (s.relationPage codec readOutput call (min limit 50) cursor).map fun result ↦
          result.map fun p ↦ (p.1, p.2.map fun id ↦
            cursors.encodeRelationCursor (some id) s.corpusRevision call) := by
    intro cursor hcursor
    have hdecoded : ((cursor.map fun id ↦
        cursors.encodeRelationCursor (some id) s.corpusRevision call).elim (.ok none) fun cursor ↦
          cursors.decodeRelationCursor cursor s.corpusRevision call) = .ok cursor := by
      cases cursor with
      | none => rfl
      | some id => exact hcursor id rfl
    rw [routePage, codeRelationsRoute_eq hdecoded, relationPage, Option.map_some]
    cases s.codeRelations codec readOutput call cursor (min limit 50) <;> rfl
  refine Paging.collect_encoded hencode (fun cursor items next hfetch ↦ ?_) rounds
    (fun c hc ↦ absurd hc (Option.not_mem_none c))
  rw [relationPage, codeRelations_eq h] at hfetch
  have hpage := (Prod.mk.inj (Except.ok.inj (Option.some.inj hfetch))).2
  rw [relationPageAfter] at hpage
  dsimp only at hpage
  split_ifs at hpage
  obtain ⟨r, hr, rfl⟩ := Option.map_eq_some_iff.mp hpage
  exact hreturns r (List.mem_of_mem_drop (List.mem_of_mem_take (List.mem_of_getLast? hr)))

/-- If something follows the id, the page is exact. -/
theorem pageExact_of_resumes {selected : List CodeRelation}
    (h : s.selectRelations codec readOutput call = .ok selected)
    (hselects : s.SelectsExactly codec readOutput call selected) {afterId : Option String}
    (hresumes : s.Resumes codec readOutput call afterId) (limit : ℕ) :
    s.PageExact codec readOutput call afterId limit
      (relationPageAfter selected afterId (relationLimit limit)) := by
  refine ⟨selected, hselects, ?_, collect_relationPage h hselects.sorted limit⟩
  have hfollows : ∀ after ∈ afterId, selected ≠ [] → ∃ r ∈ selected, after < r.id := by
    intro after hafter hne
    obtain ⟨r, hr⟩ := List.exists_mem_of_ne_nil _ hne
    obtain ⟨r', hr', hlt⟩ := hresumes after hafter r (hselects.sound r hr)
    obtain ⟨r'', hr'', hid⟩ := List.mem_map.mp (hselects.complete r' hr')
    exact ⟨r'', hr'', hid ▸ hlt⟩
  exact congrArg Prod.fst (relationPageAfter_eq (n := relationLimit limit) hselects.sorted hfollows)

/-- If nothing follows the id, the page starts again. -/
theorem resumes_of_pageExact {selected : List CodeRelation}
    (hselects : s.SelectsExactly codec readOutput call selected) {afterId : Option String}
    {limit : ℕ} (h : s.PageExact codec readOutput call afterId limit
      (relationPageAfter selected afterId (relationLimit limit))) :
    s.Resumes codec readOutput call afterId := by
  obtain ⟨selected', hselects', hpage, -⟩ := h
  rintro after rfl r hr
  by_contra hnone
  have hlast : ∀ r', s.Asked codec readOutput call r' → ¬ after < r'.id :=
    fun r' hr' hlt ↦ hnone ⟨r', hr', hlt⟩
  have hempty : selected'.filter (fun r ↦ (some after).all (· < r.id)) = [] := by
    rw [List.filter_eq_nil_iff]
    intro r' hr'
    simpa using hlast r' (hselects'.sound r' hr')
  rw [relationPageAfter_restarts fun r' hr' ↦ hlast r' (hselects.sound r' hr'), hempty,
    List.take_nil, relationPageAfter] at hpage
  have hselected : selected = [] := by
    have hlimit := relationLimit_pos limit
    have htake : selected.take (relationLimit limit) = [] := hpage
    rw [List.take_eq_nil_iff] at htake
    exact htake.resolve_left hlimit.ne'
  have hin := hselects.complete r hr
  rw [hselected] at hin
  cases hin

/-- A query is refused for its budget or for a row that cannot be read; otherwise
its page is exact if and only if something follows the given id, or nothing is
asked for. -/
theorem codeRelations_exact_iff (codec : Codec)
    (readOutput : String → Except String ParseOutput) (s : Store) (call : RelationCall)
    (afterId : Option String) (limit : ℕ) :
    (∃ e, s.codeRelations codec readOutput call afterId limit = .error e ∧
        s.RelationsRefused codec readOutput call e) ∨
      ∃ page, s.codeRelations codec readOutput call afterId limit = .ok page ∧
        (s.PageExact codec readOutput call afterId limit page ↔
          s.Resumes codec readOutput call afterId) := by
  rcases selectRelations_spec codec readOutput s call with ⟨e, herror, hrefused⟩ | ⟨selected, hok, hselects⟩
  · refine .inl ⟨e, ?_, hrefused⟩
    rw [codeRelations, herror]
    rfl
  · exact .inr ⟨_, codeRelations_eq hok afterId limit, resumes_of_pageExact hselects,
      fun hresumes ↦ pageExact_of_resumes hok hselects hresumes limit⟩

/-! ## A cursor behind the last relation -/

/-- A call that is the only relation of its file. -/
def soleRelation : CodeRelation where
  id := "r1"
  kind := .call
  fromSymbolId := some "a"
  fromName := "a"
  toSymbolId := some "b"
  toName := "b"
  repositoryId := none
  revision := none
  file := "a.rs"
  span := ⟨0, 3, 1, 1⟩
  parserVersion := "1"
  confidence := 1
  origin := .directSyntax
  resolved := true
  dynamic := false

/-- A store with one indexed document. -/
def indexedStore : Store :=
  { Store.adopted none with
    documents := ⟨[{
      id := "d1"
      source := "git"
      sourceId := "a.rs"
      title := "a.rs"
      uri := none
      contentHash := "h"
      updatedAt := "2024-01-01T00:00:00Z"
      project := "p"
      aclJson := "[]"
      metadataJson := "\x7b\x7d"
      content := "a()" }], by simp⟩
    codeIndexes := ⟨[⟨"d1", "output"⟩], by simp⟩ }

def callersOfB : RelationCall := ⟨"b", none, [], .callers, 1⟩

/-- After a relation that is gone the page starts again. -/
theorem relations_restart :
    ∃ page, indexedStore.codeRelations Codec.sample (fun _ ↦ .ok ⟨[], [soleRelation]⟩)
        callersOfB (some "r2") 10 = .ok page ∧
      ¬ indexedStore.PageExact Codec.sample (fun _ ↦ .ok ⟨[], [soleRelation]⟩) callersOfB
        (some "r2") 10 page := by
  have hrelations : indexedStore.resolvedRelations Codec.sample
      (fun _ ↦ .ok ⟨[], [soleRelation]⟩) callersOfB = [soleRelation] := by decide +kernel
  have hok : indexedStore.selectRelations Codec.sample (fun _ ↦ .ok ⟨[], [soleRelation]⟩)
      callersOfB = .ok [soleRelation] := by decide +kernel
  rcases selectRelations_spec Codec.sample (fun _ ↦ .ok ⟨[], [soleRelation]⟩) indexedStore
    callersOfB with
    ⟨e, herror, -⟩ | ⟨selected, hselected, hselects⟩
  · rw [hok] at herror
    cases herror
  · refine ⟨_, codeRelations_eq hselected _ _, fun hexact ↦ ?_⟩
    have hasked : indexedStore.Asked Codec.sample (fun _ ↦ .ok ⟨[], [soleRelation]⟩) callersOfB
        soleRelation := by
      refine ⟨by simp [hrelations], rfl, rfl⟩
    obtain ⟨r, hr, hlt⟩ := resumes_of_pageExact hselects hexact "r2" rfl soleRelation hasked
    obtain rfl : r = soleRelation := by simpa [hrelations] using hr.1
    exact absurd hlt (by decide)

end Store

end Cortana
