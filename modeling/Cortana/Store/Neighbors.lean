import Cortana.Chunking.Reconstruction
import Cortana.Core.Outcomes
import Cortana.Store.Memories
import Cortana.Store.Sample

/-!
# Neighbouring chunks

`neighboring_content_scoped` puts the chunks around each requested chunk
together, for the documents a principal may read.
-/

namespace Cortana

open ByteText

/-- A row of the query of `neighboring_content_scoped`. -/
structure NeighborRow where
  seedId : String
  content : String
  aclJson : String

/-- The maps of its loop. -/
structure Expansion where
  expanded : String → Option (List Char)
  complete : List String

/-- `truncate` at `previous_char_boundary`. -/
def truncateAt (maximum : ℕ) (value : List Char) : List Char :=
  (slice value 0 (charBoundaryAtOrBefore value maximum)).getD []

/-- One round of the loop. -/
def expandRow (codec : Codec) (maximum : ℕ) (principalAcl : List String) (state : Expansion)
    (row : NeighborRow) : Except String Expansion :=
  if row.seedId ∈ state.complete then .ok state
  else do
    let acl ← codec.parseAcl row.aclJson
    if aclAllows acl principalAcl then
      let value := appendReconstructedChunk ((state.expanded row.seedId).getD []) row.content.toList
      if maximum < byteLen value then
        return ⟨Function.update state.expanded row.seedId (some (truncateAt maximum value)),
          row.seedId :: state.complete⟩
      else return { state with expanded := Function.update state.expanded row.seedId (some value) }
    else return { state with complete := row.seedId :: state.complete }

namespace Store

/-- The chunks around a chunk, in their order. -/
def neighbors (s : Store) (radius : ℕ) (seed : ChunkRow) : List ChunkRow :=
  (s.chunks.rows.filter fun n ↦ n.documentId = seed.documentId ∧
    seed.ordinal ≤ n.ordinal + radius ∧ n.ordinal ≤ seed.ordinal + radius).insertionSort
      fun a b ↦ a.ordinal ≤ b.ordinal

/-- The rows for one requested chunk. -/
def seedRows (s : Store) (radius : ℕ) (seed : ChunkRow) : List NeighborRow :=
  match s.documents.get seed.documentId with
  | some document =>
      (s.neighbors radius seed).map fun n ↦ ⟨seed.id, n.content, document.aclJson⟩
  | none => []

/-- The requested chunks, in the order of their ids. -/
def seeds (s : Store) (ids : List String) : List ChunkRow :=
  (s.chunks.rows.filter fun seed ↦ seed.id ∈ ids).insertionSort fun a b ↦ a.id ≤ b.id

/-- `neighboring_content_scoped`. -/
def neighboringContentScoped (codec : Codec) (s : Store) (ids : List String)
    (radius maxContentBytes : ℕ) (principalAcl : List String) :
    Except String (String → Option (List Char)) :=
  if ids = [] ∨ maxContentBytes = 0 then .ok fun _ ↦ none
  else do
    let maximum := min maxContentBytes (64 * 1024)
    let rows := (s.seeds ids).flatMap (s.seedRows (min radius 4))
    let state ← rows.foldlM (expandRow codec maximum principalAcl) ⟨fun _ ↦ none, []⟩
    return state.expanded

/-- What is returned for a requested chunk. -/
def neighborText (codec : Codec) (s : Store) (radius maximum : ℕ) (principalAcl : List String)
    (seed : ChunkRow) : Option (List Char) :=
  (s.documents.get seed.documentId).bind fun document ↦
    (codec.parseAcl document.aclJson).toOption.bind fun acl ↦
      if aclAllows acl principalAcl then
        some (truncateAt maximum
          (reconstruct ((s.neighbors radius seed).map fun n ↦ n.content.toList)))
      else none

/-- The access list of the document of a chunk can be read. -/
def Parses (codec : Codec) (s : Store) (seed : ChunkRow) : Prop :=
  ∀ document ∈ s.documents.get seed.documentId, ∃ acl, codec.parseAcl document.aclJson = .ok acl

/-- A principal may read the document of a chunk. -/
def MayRead (codec : Codec) (s : Store) (principalAcl : List String) (seed : ChunkRow) : Prop :=
  ∃ document ∈ s.documents.get seed.documentId, ∃ acl,
    codec.parseAcl document.aclJson = .ok acl ∧ aclAllows acl principalAcl = true

end Store

/-! ## Truncation -/

theorem truncateAt_spec (maximum : ℕ) (value : List Char) :
    truncateAt maximum value <+: value ∧ byteLen (truncateAt maximum value) ≤ maximum ∧
      ∀ x, x <+: value → byteLen x ≤ maximum → x <+: truncateAt maximum value := by
  obtain ⟨hboundary, hle, hmax⟩ := charBoundaryAtOrBefore_spec value maximum
  obtain ⟨p, q, hvalue, hp⟩ := Iff.mp isCharBoundary_iff hboundary
  have htruncate : truncateAt maximum value = p := by
    have hslice : slice value 0 (charBoundaryAtOrBefore value maximum) = some p :=
      Iff.mpr slice_eq_some_iff ⟨[], q, hvalue, rfl, by rw [← hp, Nat.zero_add]⟩
    rw [truncateAt, hslice, Option.getD_some]
  rw [htruncate]
  refine ⟨⟨q, hvalue.symm⟩, by omega, ?_⟩
  rintro x ⟨rest, hrest⟩ hx
  have hxle := hmax (byteLen x) (Iff.mpr isCharBoundary_iff ⟨x, rest, hrest.symm, rfl⟩) hx
  obtain ⟨m, hm, -⟩ := exists_append_of_byteLen_le (hrest.trans hvalue) (by omega)
  exact ⟨m, hm.symm⟩

theorem eq_truncateAt {maximum : ℕ} {value : List Char} (h : byteLen value ≤ maximum) :
    truncateAt maximum value = value := by
  obtain ⟨hpre, -, hall⟩ := truncateAt_spec maximum value
  exact hpre.eq_of_length_le (hall value (List.prefix_refl value) h).length_le

/-- What comes after the limit does not matter. -/
theorem truncateAt_of_prefix {maximum : ℕ} {value longer : List Char} (h : value <+: longer)
    (hlong : maximum < byteLen value) : truncateAt maximum value = truncateAt maximum longer := by
  obtain ⟨hpre, hle, hall⟩ := truncateAt_spec maximum value
  obtain ⟨hpre', hle', hall'⟩ := truncateAt_spec maximum longer
  have hforth := hall' _ (hpre.trans h) hle
  refine hforth.eq_of_length_le (List.IsPrefix.length_le (hall _ ?_ hle'))
  -- a text within the limit is a prefix of the value as well
  obtain ⟨rest, hrest⟩ := hpre'
  obtain ⟨rest', hrest'⟩ := h
  obtain ⟨m, hm, -⟩ := exists_append_of_byteLen_le (hrest.trans hrest'.symm) (by omega)
  exact ⟨m, hm.symm⟩

theorem prefix_appendReconstructedChunk (content chunk : List Char) :
    content <+: appendReconstructedChunk content chunk := by
  by_cases hne : content = []
  · rw [hne]
    exact List.nil_prefix
  · rw [appendReconstructedChunk, if_neg hne]
    simp only [List.append_assoc]
    exact List.prefix_append _ _

theorem prefix_foldl_appendReconstructedChunk (texts : List (List Char)) (content : List Char) :
    content <+: texts.foldl appendReconstructedChunk content := by
  induction texts generalizing content with
  | nil => exact List.prefix_refl content
  | cons text rest ih =>
      rw [List.foldl_cons]
      exact (prefix_appendReconstructedChunk content text).trans (ih _)

/-! ## The loop over the rows of one chunk -/

variable {codec : Codec} {maximum : ℕ} {principalAcl : List String}

theorem foldlM_expandRow_complete {state : Expansion} {rows : List NeighborRow}
    (h : ∀ row ∈ rows, row.seedId ∈ state.complete) :
    rows.foldlM (expandRow codec maximum principalAcl) state = .ok state := by
  induction rows with
  | nil => rfl
  | cons row rest ih =>
      rw [List.foldlM_cons, expandRow, if_pos (h row List.mem_cons_self)]
      exact ih fun other hother ↦ h other (List.mem_cons_of_mem row hother)

variable (maximum) (principalAcl) in
theorem exists_expandRow_eq (state : Expansion) {row : NeighborRow} {acl : List String}
    (hacl : codec.parseAcl row.aclJson = .ok acl) :
    ∃ state', expandRow codec maximum principalAcl state row = .ok state' := by
  rw [expandRow, hacl]
  simp only [bind, Except.bind]
  split_ifs <;> exact ⟨_, rfl⟩

/-- A state in which only the entry of one chunk differs. -/
structure Expands (id : String) (value : Option (List Char)) (state state' : Expansion) : Prop where
  expanded : state'.expanded = Function.update state.expanded id value
  complete : ∀ other ∈ state'.complete, other = id ∨ other ∈ state.complete

variable (maximum) in
theorem expandRow_readable {id aclJson : String} {acl : List String}
    (hacl : codec.parseAcl aclJson = .ok acl) (hallowed : aclAllows acl principalAcl = true)
    (text : String) {state : Expansion} (hopen : id ∉ state.complete) {value : List Char}
    (hvalue : appendReconstructedChunk ((state.expanded id).getD []) text.toList = value) :
    ∃ state', expandRow codec maximum principalAcl state ⟨id, text, aclJson⟩ = .ok state' ∧
      Expands id (some (truncateAt maximum value)) state state' ∧
      (id ∈ state'.complete ↔ maximum < byteLen value) := by
  rw [expandRow, if_neg hopen, hacl]
  by_cases hlong : maximum < byteLen value
  · refine ⟨⟨Function.update state.expanded id (some (truncateAt maximum value)),
      id :: state.complete⟩, ?_, ⟨rfl, fun other hother ↦ List.mem_cons.mp hother⟩, ?_⟩
    · simp only [bind, Except.bind, hallowed, if_true, hvalue, if_pos hlong]
      rfl
    · exact iff_of_true List.mem_cons_self hlong
  · refine ⟨{ state with expanded := Function.update state.expanded id (some value) }, ?_, ?_, ?_⟩
    · simp only [bind, Except.bind, hallowed, if_true, hvalue, if_neg hlong]
      rfl
    · refine ⟨?_, fun other hother ↦ .inr hother⟩
      rw [eq_truncateAt (not_lt.mp hlong)]
    · exact iff_of_false hopen hlong

variable (maximum) in
/-- The rows of a readable document put its chunks together. -/
theorem foldlM_expandRow_readable {id aclJson : String} {acl : List String}
    (hacl : codec.parseAcl aclJson = .ok acl) (hallowed : aclAllows acl principalAcl = true)
    (texts : List String) (text : String) {state : Expansion} (hopen : id ∉ state.complete) :
    ∃ state', ((text :: texts).map fun content ↦ (⟨id, content, aclJson⟩ : NeighborRow)).foldlM
        (expandRow codec maximum principalAcl) state = .ok state' ∧
      Expands id (some (truncateAt maximum (((text :: texts).map String.toList).foldl
        appendReconstructedChunk ((state.expanded id).getD [])))) state state' := by
  induction texts generalizing text state with
  | nil =>
      obtain ⟨state', hrow, hexpands, -⟩ :=
        expandRow_readable maximum hacl hallowed text hopen rfl
      refine ⟨state', ?_, hexpands⟩
      rw [List.map_singleton, List.foldlM_cons, hrow]
      rfl
  | cons next rest ih =>
      obtain ⟨middle, hrow, hexpands, hcomplete⟩ :=
        expandRow_readable maximum hacl hallowed text hopen rfl
      set value := appendReconstructedChunk ((state.expanded id).getD []) text.toList with hvalue
      have hfold : ((text :: next :: rest).map String.toList).foldl appendReconstructedChunk
          ((state.expanded id).getD []) =
          ((next :: rest).map String.toList).foldl appendReconstructedChunk value := rfl
      rw [hfold, List.map_cons, List.foldlM_cons, hrow]
      by_cases hlong : maximum < byteLen value
      · -- nothing more is put there
        refine ⟨middle, foldlM_expandRow_complete ?_, ?_⟩
        · intro row hmem
          obtain ⟨content, -, rfl⟩ := List.mem_map.mp hmem
          exact Iff.mpr hcomplete hlong
        · rw [← truncateAt_of_prefix (prefix_foldl_appendReconstructedChunk _ value) hlong]
          exact hexpands
      · have hentry : (middle.expanded id).getD [] = value := by
          rw [hexpands.expanded, Function.update_self, Option.getD_some,
            eq_truncateAt (not_lt.mp hlong)]
        obtain ⟨state', hrest, hexpands'⟩ :=
          ih next (fun hmem ↦ hlong (Iff.mp hcomplete hmem) : id ∉ middle.complete)
        rw [hentry] at hexpands'
        refine ⟨state', hrest, ?_, ?_⟩
        · rw [hexpands'.expanded, hexpands.expanded, Function.update_idem]
        · intro other hother
          rcases hexpands'.complete other hother with hid | hmiddle
          · exact .inl hid
          · exact hexpands.complete other hmiddle

theorem Expands.rfl_of_none {id : String} {state : Expansion} (h : state.expanded id = none) :
    Expands id none state state :=
  ⟨by rw [← h, Function.update_eq_self], fun _ hother ↦ .inr hother⟩

namespace Store

variable {s : Store} {radius : ℕ}

theorem mem_neighbors_self {seed : ChunkRow} (h : seed ∈ s.chunks.rows) :
    seed ∈ s.neighbors radius seed := by
  rw [neighbors, List.mem_insertionSort, List.mem_filter]
  simp [h]

/-- The rows for one chunk set its entry and no other. -/
theorem foldlM_seedRows {seed : ChunkRow} (hseed : seed ∈ s.chunks.rows) {state state' : Expansion}
    (hopen : seed.id ∉ state.complete) (hnone : state.expanded seed.id = none)
    (h : (s.seedRows radius seed).foldlM (expandRow codec maximum principalAcl) state =
      .ok state') :
    Expands seed.id (s.neighborText codec radius maximum principalAcl seed) state state' := by
  rw [seedRows] at h
  rw [neighborText]
  cases hdocument : s.documents.get seed.documentId with
  | none =>
      rw [hdocument] at h
      obtain rfl := Iff.mp List.foldlM_nil_ok_iff h
      exact .rfl_of_none hnone
  | some document =>
      rw [hdocument] at h
      simp only at h
      have hrows : ((s.neighbors radius seed).map fun n ↦
          (⟨seed.id, n.content, document.aclJson⟩ : NeighborRow)) =
          ((s.neighbors radius seed).map ChunkRow.content).map fun content ↦
            ⟨seed.id, content, document.aclJson⟩ := by
        rw [List.map_map]
        rfl
      have htexts : ((s.neighbors radius seed).map fun n ↦ n.content.toList) =
          ((s.neighbors radius seed).map ChunkRow.content).map String.toList := by
        rw [List.map_map]
        rfl
      have hself : seed ∈ s.neighbors radius seed := mem_neighbors_self hseed
      have hmem := List.mem_map_of_mem (f := ChunkRow.content) hself
      rw [hrows] at h
      rw [htexts]
      cases hlist : (s.neighbors radius seed).map ChunkRow.content with
      | nil =>
          rw [hlist] at hmem
          cases hmem
      | cons text texts =>
          rw [hlist] at h
          cases hacl : codec.parseAcl document.aclJson with
          | error e =>
              rw [List.map_cons, List.foldlM_cons, expandRow, if_neg hopen, hacl] at h
              cases h
          | ok acl =>
              by_cases hallowed : aclAllows acl principalAcl = true
              · obtain ⟨state'', hrun, hexpands⟩ := foldlM_expandRow_readable maximum
                  hacl hallowed texts text hopen
                obtain rfl := Except.ok.inj (hrun.symm.trans h)
                rw [hnone] at hexpands
                simp only [Option.bind_some, hacl, Except.toOption, if_pos hallowed]
                exact hexpands
              · have hfirst : expandRow codec maximum principalAcl state
                    ⟨seed.id, text, document.aclJson⟩ =
                    .ok { state with complete := seed.id :: state.complete } := by
                  rw [expandRow, if_neg hopen, hacl]
                  simp only [bind, Except.bind, if_neg hallowed]
                  rfl
                rw [List.map_cons, List.foldlM_cons, hfirst] at h
                have hrest : (texts.map fun content ↦
                    (⟨seed.id, content, document.aclJson⟩ : NeighborRow)).foldlM
                    (expandRow codec maximum principalAcl)
                    { state with complete := seed.id :: state.complete } =
                    .ok { state with complete := seed.id :: state.complete } := by
                  apply foldlM_expandRow_complete
                  intro row hrow
                  obtain ⟨content, -, rfl⟩ := List.mem_map.mp hrow
                  exact List.mem_cons_self
                obtain rfl := Except.ok.inj (hrest.symm.trans h)
                simp only [Option.bind_some, hacl, Except.toOption, if_neg hallowed]
                refine ⟨?_, fun other hother ↦ List.mem_cons.mp hother⟩
                rw [← hnone, Function.update_eq_self]

/-- After all rows every requested chunk has its entry. -/
theorem foldlM_flatMap_seedRows {seeds : List ChunkRow} (hseeds : ∀ seed ∈ seeds, seed ∈ s.chunks.rows)
    (hnodup : (seeds.map ChunkRow.id).Nodup) {state state' : Expansion}
    (hopen : ∀ seed ∈ seeds, seed.id ∉ state.complete ∧ state.expanded seed.id = none)
    (h : (seeds.flatMap (s.seedRows radius)).foldlM (expandRow codec maximum principalAcl) state =
      .ok state') :
    (∀ seed ∈ seeds, state'.expanded seed.id =
        s.neighborText codec radius maximum principalAcl seed) ∧
      ∀ id, id ∉ seeds.map ChunkRow.id → state'.expanded id = state.expanded id := by
  induction seeds generalizing state with
  | nil =>
      obtain rfl := Iff.mp List.foldlM_nil_ok_iff h
      exact ⟨by simp, fun _ _ ↦ rfl⟩
  | cons seed rest ih =>
      rw [List.flatMap_cons, List.foldlM_append] at h
      obtain ⟨middle, hfirst, hrest⟩ := Iff.mp Except.bind_ok_iff h
      obtain ⟨hseedOpen, hseedNone⟩ := hopen seed List.mem_cons_self
      have hexpands := foldlM_seedRows (hseeds seed List.mem_cons_self) hseedOpen hseedNone hfirst
      rw [List.map_cons, List.nodup_cons] at hnodup
      have hother : ∀ other ∈ rest, other.id ≠ seed.id := fun other hmem heq ↦
        hnodup.1 (heq ▸ List.mem_map_of_mem hmem)
      obtain ⟨hentries, hsame⟩ := ih (fun other hmem ↦ hseeds other (List.mem_cons_of_mem seed hmem))
        hnodup.2 (fun other hmem ↦ by
          obtain ⟨hotherOpen, hotherNone⟩ := hopen other (List.mem_cons_of_mem seed hmem)
          refine ⟨fun hcomplete ↦ ?_, ?_⟩
          · rcases hexpands.complete _ hcomplete with heq | hbefore
            · exact hother other hmem heq
            · exact hotherOpen hbefore
          · rw [hexpands.expanded, Function.update_of_ne (hother other hmem), hotherNone]) hrest
      refine ⟨fun other hmem ↦ ?_, fun id hid ↦ ?_⟩
      · rcases List.mem_cons.mp hmem with rfl | hmem
        · rw [hsame _ hnodup.1, hexpands.expanded, Function.update_self]
        · exact hentries other hmem
      · rw [List.map_cons, List.mem_cons, not_or] at hid
        rw [hsame id hid.2, hexpands.expanded, Function.update_of_ne hid.1]

theorem mem_seeds {ids : List String} {seed : ChunkRow} :
    seed ∈ s.seeds ids ↔ seed ∈ s.chunks.rows ∧ seed.id ∈ ids := by
  rw [seeds, List.mem_insertionSort, List.mem_filter, decide_eq_true_eq]

/-- What is returned are the neighbouring chunks of every requested chunk in a
readable document, put together and truncated. -/
theorem neighboringContentScoped_spec {ids : List String} {maxContentBytes : ℕ}
    {expanded : String → Option (List Char)}
    (h : s.neighboringContentScoped codec ids radius maxContentBytes principalAcl = .ok expanded)
    (id : String) (text : List Char) :
    expanded id = some text ↔ maxContentBytes ≠ 0 ∧ id ∈ ids ∧ ∃ seed ∈ s.chunks.rows, seed.id = id ∧
      s.neighborText codec (min radius 4) (min maxContentBytes (64 * 1024)) principalAcl seed =
        some text := by
  rw [neighboringContentScoped] at h
  split at h
  next hempty =>
    obtain rfl := Except.ok.inj h
    refine iff_of_false (by simp) ?_
    rintro ⟨hmax, hid, -⟩
    rcases hempty with rfl | hzero
    · cases hid
    · exact hmax hzero
  next hcall =>
    rw [not_or] at hcall
    obtain ⟨state, hloop, hstate⟩ := Iff.mp Except.bind_ok_iff h
    obtain rfl := Iff.mp Except.pure_ok_iff hstate
    have hnodup : ((s.seeds ids).map ChunkRow.id).Nodup := by
      refine Iff.mpr ((List.perm_insertionSort _ _).map ChunkRow.id).nodup_iff ?_
      exact s.chunks.nodup.sublist (List.filter_sublist.map ChunkRow.id)
    obtain ⟨hentries, hsame⟩ := foldlM_flatMap_seedRows (fun seed hseed ↦ (Iff.mp mem_seeds hseed).1)
      hnodup (fun seed _ ↦ ⟨List.not_mem_nil, rfl⟩) hloop
    constructor
    · intro htext
      by_cases hid : id ∈ (s.seeds ids).map ChunkRow.id
      · obtain ⟨seed, hseed, rfl⟩ := List.mem_map.mp hid
        obtain ⟨hrow, hids⟩ := Iff.mp mem_seeds hseed
        exact ⟨hcall.2, hids, seed, hrow, rfl, (hentries seed hseed).symm.trans htext⟩
      · rw [hsame id hid] at htext
        cases htext
    · rintro ⟨-, hids, seed, hrow, rfl, htext⟩
      exact (hentries seed (Iff.mpr mem_seeds ⟨hrow, hids⟩)).trans htext

theorem isSome_neighborText_iff {seed : ChunkRow} :
    (s.neighborText codec radius maximum principalAcl seed).isSome = true ↔
      s.MayRead codec principalAcl seed := by
  rw [neighborText, MayRead]
  cases s.documents.get seed.documentId with
  | none => simp
  | some document =>
      cases hacl : codec.parseAcl document.aclJson with
      | error e => simp [Except.toOption, hacl]
      | ok acl => simp [Except.toOption, hacl]

/-- With access lists that can be read it succeeds. -/
theorem exists_neighboringContentScoped_eq {ids : List String}
    (h : ∀ seed ∈ s.chunks.rows, seed.id ∈ ids → s.Parses codec seed) (radius maxContentBytes : ℕ)
    (principalAcl : List String) : ∃ expanded,
      s.neighboringContentScoped codec ids radius maxContentBytes principalAcl = .ok expanded := by
  rw [neighboringContentScoped]
  split
  next => exact ⟨_, rfl⟩
  next =>
    set rows := (s.seeds ids).flatMap (s.seedRows (min radius 4)) with hrows
    have hparses : ∀ row ∈ rows, ∃ acl, codec.parseAcl row.aclJson = .ok acl := by
      intro row hrow
      obtain ⟨seed, hseed, hrow⟩ := List.mem_flatMap.mp hrow
      obtain ⟨hchunk, hid⟩ := Iff.mp mem_seeds hseed
      rw [seedRows] at hrow
      cases hdocument : s.documents.get seed.documentId with
      | none =>
          rw [hdocument] at hrow
          cases hrow
      | some document =>
          rw [hdocument] at hrow
          obtain ⟨n, -, rfl⟩ := List.mem_map.mp hrow
          exact h seed hchunk hid document hdocument
    have hends := List.foldlM_ends (P := fun _ : String ↦ False) (I := fun _ _ ↦ True) (l := rows)
      (f := expandRow codec (min maxContentBytes (64 * 1024)) principalAcl)
      (s := ⟨fun _ ↦ none, []⟩) trivial (by
        rintro before row state ⟨after, hsplit⟩ -
        obtain ⟨acl, hacl⟩ := hparses row (hsplit ▸ List.mem_append_right before List.mem_cons_self)
        obtain ⟨state', hstate⟩ := exists_expandRow_eq (min maxContentBytes (64 * 1024))
          principalAcl state hacl
        rw [hstate]
        trivial)
    cases hloop : rows.foldlM (expandRow codec (min maxContentBytes (64 * 1024)) principalAcl)
        ⟨fun _ ↦ none, []⟩ with
    | error e =>
        rw [hloop] at hends
        exact hends.elim
    | ok state => exact ⟨state.expanded, Iff.mpr Except.bind_ok_iff ⟨state, hloop, rfl⟩⟩

/-- It succeeds if all access lists that it reads can be read; then it returns
something for every requested chunk that the principal may read, and for no
other: the neighbouring chunks put together, within the limit and as long as that
allows. -/
structure ReturnsReconstructions (codec : Codec) (s : Store) (ids : List String)
    (radius maxContentBytes : ℕ) (principalAcl : List String) : Prop where
  succeeds : (∀ seed ∈ s.chunks.rows, seed.id ∈ ids → s.Parses codec seed) → ∃ expanded,
    s.neighboringContentScoped codec ids radius maxContentBytes principalAcl = .ok expanded
  returned : ∀ expanded, s.neighboringContentScoped codec ids radius maxContentBytes principalAcl =
    .ok expanded → ∀ id, (expanded id).isSome = true ↔ maxContentBytes ≠ 0 ∧ id ∈ ids ∧
      ∃ seed ∈ s.chunks.rows, seed.id = id ∧ s.MayRead codec principalAcl seed
  text : ∀ expanded, s.neighboringContentScoped codec ids radius maxContentBytes principalAcl =
    .ok expanded → ∀ id text, expanded id = some text →
      byteLen text ≤ maxContentBytes ∧ ∃ seed ∈ s.chunks.rows, seed.id = id ∧
        let whole := reconstruct ((s.neighbors (min radius 4) seed).map fun n ↦ n.content.toList)
        text <+: whole ∧ ∀ x, x <+: whole → byteLen x ≤ min maxContentBytes (64 * 1024) → x <+: text

theorem returnsReconstructions (codec : Codec) (s : Store) (ids : List String)
    (radius maxContentBytes : ℕ) (principalAcl : List String) :
    ReturnsReconstructions codec s ids radius maxContentBytes principalAcl := by
  refine ⟨fun hparses ↦ exists_neighboringContentScoped_eq hparses _ _ _, fun expanded h id ↦ ?_,
    fun expanded h id text htext ↦ ?_⟩
  · rw [Option.isSome_iff_exists]
    constructor
    · rintro ⟨text, htext⟩
      obtain ⟨hmax, hid, seed, hseed, rfl, hneighbor⟩ :=
        Iff.mp (neighboringContentScoped_spec h id text) htext
      exact ⟨hmax, hid, seed, hseed, rfl,
        Iff.mp isSome_neighborText_iff (Option.isSome_iff_exists.mpr ⟨text, hneighbor⟩)⟩
    · rintro ⟨hmax, hid, seed, hseed, rfl, hread⟩
      obtain ⟨text, hneighbor⟩ :=
        Option.isSome_iff_exists.mp (Iff.mpr isSome_neighborText_iff hread)
      exact ⟨text, Iff.mpr (neighboringContentScoped_spec h _ text)
        ⟨hmax, hid, seed, hseed, rfl, hneighbor⟩⟩
  obtain ⟨-, -, seed, hseed, hid, hneighbor⟩ := Iff.mp (neighboringContentScoped_spec h id text) htext
  obtain ⟨document, -, hneighbor⟩ := Option.bind_eq_some_iff.mp hneighbor
  obtain ⟨acl, -, hneighbor⟩ := Option.bind_eq_some_iff.mp hneighbor
  split at hneighbor
  next =>
    obtain rfl := Option.some.inj hneighbor
    obtain ⟨hpre, hle, hall⟩ := truncateAt_spec (min maxContentBytes (64 * 1024))
      (reconstruct ((s.neighbors (min radius 4) seed).map fun n ↦ n.content.toList))
    exact ⟨hle.trans (min_le_left _ _), seed, hseed, hid, hpre, hall⟩
  next => cases hneighbor

end Store

/-! ## Reconstruction -/

/-- Reconstruction undoes chunking under the default policy, and what
neighbouring chunks give is such a reconstruction, if and only if no join of
the text has an overlap longer than that of the places of its chunks. -/
theorem reconstruction_iff (sha256 : List Char → String) (strategy : ChunkStrategy)
    (content : List Char) (codec : Codec) (s : Store) (ids : List String)
    (radius maxContentBytes : ℕ) (principalAcl : List String) :
    ((∃ chunks, boundedRanges sha256 (byteLen content + 1) content .default strategy =
          some chunks ∧ words (reconstruct (chunks.map ChunkSpec.content)) = words content) ∧
        s.ReturnsReconstructions codec ids radius maxContentBytes principalAcl) ↔
      ReconstructsExactly (textSites .default content) := by
  have hsmall : ChunkingPolicy.default.SmallOverlap := by
    unfold ChunkingPolicy.SmallOverlap
    decide
  have hnear : ChunkingPolicy.default.overlap + 3 ≤ maxReconstructedOverlap := by decide
  rw [and_iff_left (Store.returnsReconstructions codec s ids radius maxContentBytes principalAcl),
    ← words_reconstruct_iff hsmall hnear]
  obtain ⟨chunks, hchunks, hsites, -⟩ := boundedRanges_eq sha256
    (fits_of_four_le (by decide : 4 ≤ ChunkingPolicy.default.target) content) strategy
    (Nat.lt_succ_self (byteLen content))
  have htexts : chunks.map ChunkSpec.content = (textSites .default content).map Prod.snd := by
    rw [← hsites, List.map_map]
    rfl
  rw [← htexts]
  constructor
  · rintro ⟨other, hother, hwords⟩
    obtain rfl := Option.some.inj (hchunks.symm.trans hother)
    exact hwords
  · exact fun hwords ↦ ⟨chunks, hchunks, hwords⟩

/-- Of 1700 times one letter, 100 are lost. -/
theorem reconstruction_periodic :
    ¬∀ (sha256 : List Char → String) (strategy : ChunkStrategy) (content : List Char),
      ∃ chunks, boundedRanges sha256 (byteLen content + 1) content .default strategy =
          some chunks ∧ words (reconstruct (chunks.map ChunkSpec.content)) = words content := by
  intro h
  obtain ⟨chunks, hchunks, hwords⟩ := h (fun _ ↦ "") .generic (List.replicate 1700 'a')
  have hlength : (boundedRanges (fun _ ↦ "") (byteLen (List.replicate 1700 'a') + 1)
      (List.replicate 1700 'a') .default .generic).map (fun chunks ↦
        (words (reconstruct (chunks.map ChunkSpec.content))).length) = some 1600 := by
    decide +kernel
  rw [hchunks, Option.map_some, hwords, Option.some.injEq] at hlength
  revert hlength
  decide +kernel

end Cortana
