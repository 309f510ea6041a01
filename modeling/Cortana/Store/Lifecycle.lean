import Cortana.Core.Acyclic
import Cortana.Store.Operations

/-!
# The lifecycle of memories

A memory is written once or rewritten under its dedupe key while it is active,
and retires when another one supersedes it or when it is forgotten.  The
invariant is kept by what ages the rows in place, and by the write of one row
into which no supersession leads.
-/

namespace Cortana

/-! ## Memories that age -/

/-- The same memory later: nothing but its validity and status may have
changed, and it may only have retired. -/
structure MemoryRow.Aged (m m' : MemoryRow) : Prop where
  id : m'.id = m.id
  project : m'.project = m.project
  dedupeKey : m'.dedupeKey = m.dedupeKey
  supersedesId : m'.supersedesId = m.supersedesId
  active : m'.status = "active" → m' = m

theorem MemoryRow.Aged.refl (m : MemoryRow) : m.Aged m := ⟨rfl, rfl, rfl, rfl, fun _ ↦ rfl⟩

theorem aged_superseded (m : MemoryRow) (now : String) :
    m.Aged { m with status := "superseded", validUntil := some now, updatedAt := now } :=
  ⟨rfl, rfl, rfl, rfl, fun h ↦ absurd h (show "superseded" ≠ "active" by decide)⟩

theorem aged_retracted (m : MemoryRow) (now : String) : m.Aged (Store.retracted m now) :=
  ⟨rfl, rfl, rfl, rfl, fun h ↦ absurd h (show "retracted" ≠ "active" by decide)⟩

/-- All memories of a table have aged into those of another. -/
def AgedInto (t u : Table MemoryRow.id) : Prop :=
  ∀ id, Option.Rel MemoryRow.Aged (t.get id) (u.get id)

namespace AgedInto

variable {t u : Table MemoryRow.id}

theorem refl (t : Table MemoryRow.id) : AgedInto t t := fun id ↦ by
  cases t.get id with
  | none => exact .none
  | some m => exact .some (.refl m)

theorem put {m m' : MemoryRow} (hm : t.get m.id = some m) (haged : m.Aged m') :
    AgedInto t (t.put m') := fun id ↦ by
  rw [Table.get_put, haged.id]
  split_ifs with hid
  · rw [hid, hm]
    exact .some haged
  · exact refl t id

theorem back (h : AgedInto t u) {id : String} {m' : MemoryRow} (hm' : u.get id = some m') :
    ∃ m, t.get id = some m ∧ m.Aged m' := by
  have hrel := h id
  rw [hm'] at hrel
  cases hm : t.get id with
  | none => rw [hm] at hrel; cases hrel
  | some m =>
      rw [hm] at hrel
      cases hrel with
      | some haged => exact ⟨m, rfl, haged⟩

theorem forth (h : AgedInto t u) {id : String} {m : MemoryRow} (hm : t.get id = some m) :
    ∃ m', u.get id = some m' ∧ m.Aged m' := by
  have hrel := h id
  rw [hm] at hrel
  cases hm' : u.get id with
  | none => rw [hm'] at hrel; cases hrel
  | some m' =>
      rw [hm'] at hrel
      cases hrel with
      | some haged => exact ⟨m', rfl, haged⟩

end AgedInto

/-! ## The invariant -/

/-- The first memory supersedes the second. -/
def Supersedes (t : Table MemoryRow.id) (a b : String) : Prop :=
  ∃ m, t.get a = some m ∧ m.supersedesId = some b

/-- One memory for each dedupe key of a project, supersessions without cycles,
and only retired memories superseded. -/
structure Lifecycle (t : Table MemoryRow.id) : Prop where
  dedupe : ∀ m ∈ t.rows, ∀ m' ∈ t.rows, m.dedupeKey.isSome → m.project = m'.project →
    m.dedupeKey = m'.dedupeKey → m = m'
  acyclic : Acyclic (Supersedes t)
  retired : ∀ a b, Supersedes t a b → ∃ m, t.get b = some m ∧ m.status ≠ "active"

namespace Lifecycle

variable {t u : Table MemoryRow.id}

theorem empty : Lifecycle (Table.empty _) where
  dedupe := by simp [Table.empty]
  acyclic := by
    intro a ha
    obtain ⟨b, -, m, hm, -⟩ := Relation.TransGen.tail'_iff.mp ha
    simp at hm
  retired := by simp [Supersedes]

/-- Aging keeps the invariant. -/
theorem aged (h : Lifecycle t) (haged : AgedInto t u) : Lifecycle u := by
  have hedges : ∀ a b, Supersedes u a b → Supersedes t a b := by
    rintro a b ⟨m', hm', hb⟩
    obtain ⟨m, hm, hage⟩ := haged.back hm'
    exact ⟨m, hm, hage.supersedesId ▸ hb⟩
  refine ⟨?_, h.acyclic.mono hedges, ?_⟩
  · intro m' hm' n' hn' hkey hproject hdedupe
    obtain ⟨m, hm, hage⟩ := haged.back (Iff.mpr Table.get_eq_some_iff ⟨hm', rfl⟩)
    obtain ⟨n, hn, hage'⟩ := haged.back (Iff.mpr Table.get_eq_some_iff ⟨hn', rfl⟩)
    have hmn : m = n := by
      refine h.dedupe m (Iff.mp Table.get_eq_some_iff hm).1 n (Iff.mp Table.get_eq_some_iff hn).1 ?_ ?_ ?_
      · rwa [← hage.dedupeKey]
      · rw [← hage.project, ← hage'.project, hproject]
      · rw [← hage.dedupeKey, ← hage'.dedupeKey, hdedupe]
    have hid : m'.id = n'.id :=
      hage.id.trans ((congrArg MemoryRow.id hmn).trans hage'.id.symm)
    exact List.inj_on_of_nodup_map u.nodup hm' hn' hid
  · intro a b hab
    obtain ⟨m, hm, hretired⟩ := h.retired a b (hedges a b hab)
    obtain ⟨m', hm', hage⟩ := haged.forth hm
    exact ⟨m', hm', fun hactive ↦ hretired (hage.active hactive ▸ hactive)⟩

/-- Writing a memory that is new or active, and that supersedes a retired one,
keeps the invariant. -/
theorem put (h : Lifecycle t) {row : MemoryRow}
    (hdedupe : ∀ m ∈ t.rows, m.id ≠ row.id → row.dedupeKey.isSome → m.project = row.project →
      m.dedupeKey ≠ row.dedupeKey)
    (hactive : ∀ m, t.get row.id = some m → m.status = "active")
    (hself : row.supersedesId ≠ some row.id)
    (htarget : ∀ b, row.supersedesId = some b → ∃ m, t.get b = some m ∧ m.status ≠ "active") :
    Lifecycle (t.put row) := by
  have hsource : ∀ a, ¬Supersedes t a row.id := by
    intro a ha
    obtain ⟨m, hm, hretired⟩ := h.retired a row.id ha
    exact hretired (hactive m hm)
  have hedges : ∀ a b, Supersedes (t.put row) a b →
      (a = row.id ∧ row.supersedesId = some b) ∨ Supersedes t a b := by
    rintro a b ⟨m, hm, hb⟩
    rw [Table.get_put] at hm
    split_ifs at hm with hid
    · obtain rfl := Option.some.inj hm
      exact Or.inl ⟨hid, hb⟩
    · exact Or.inr ⟨m, hm, hb⟩
  refine ⟨?_, ?_, ?_⟩
  · intro m hm m' hm' hkey hproject hsame
    rcases Iff.mp Table.mem_put hm with rfl | ⟨hold, hne⟩
    · rcases Iff.mp Table.mem_put hm' with rfl | ⟨hold', hne'⟩
      · rfl
      · exact absurd hsame.symm (hdedupe m' hold' hne' hkey hproject.symm)
    · rcases Iff.mp Table.mem_put hm' with rfl | ⟨hold', hne'⟩
      · exact absurd hsame (hdedupe m hold hne (hsame ▸ hkey) hproject)
      · exact h.dedupe m hold m' hold' hkey hproject hsame
  · refine h.acyclic.of_source (m := row.id) ?_ ?_
    · intro a ha
      rcases hedges a row.id ha with ⟨-, hb⟩ | hold
      · exact hself hb
      · exact hsource a hold
    · intro a b hab
      exact (hedges a b hab).imp And.left id
  · intro a b hab
    have hb : ∃ m, t.get b = some m ∧ m.status ≠ "active" := by
      rcases hedges a b hab with ⟨-, hb⟩ | hold
      · exact htarget b hb
      · exact h.retired a b hold
    obtain ⟨m, hm, hretired⟩ := hb
    have hne : b ≠ row.id := by
      rintro rfl
      exact hretired (hactive m hm)
    exact ⟨m, by rwa [Table.get_put_of_ne hne], hretired⟩

end Lifecycle

/-- Retired memories stay, and stay retired. -/
def StaysRetired (t u : Table MemoryRow.id) : Prop :=
  ∀ id m, t.get id = some m → m.status ≠ "active" → ∃ m', u.get id = some m' ∧ m'.status ≠ "active"

namespace StaysRetired

variable {t u v : Table MemoryRow.id}

theorem refl (t : Table MemoryRow.id) : StaysRetired t t := fun _ m hm h ↦ ⟨m, hm, h⟩

theorem trans (h : StaysRetired t u) (h' : StaysRetired u v) : StaysRetired t v := by
  intro id m hm hretired
  obtain ⟨m', hm', hretired'⟩ := h id m hm hretired
  exact h' id m' hm' hretired'

theorem of_agedInto (h : AgedInto t u) : StaysRetired t u := by
  intro id m hm hretired
  obtain ⟨m', hm', hage⟩ := h.forth hm
  exact ⟨m', hm', fun hactive ↦ hretired (hage.active hactive ▸ hactive)⟩

theorem put {row : MemoryRow} (hactive : ∀ m, t.get row.id = some m → m.status = "active") :
    StaysRetired t (t.put row) := by
  intro id m hm hretired
  have hne : id ≠ row.id := by
    rintro rfl
    exact hretired (hactive m hm)
  exact ⟨m, by rwa [Table.get_put_of_ne hne], hretired⟩

end StaysRetired

/-! ## One write -/

namespace Store

variable {codec : Codec} {s t : Store}

theorem memoryByDedupeKey_eq_some {project : String} {dedupeKey : Option String} {m : MemoryRow}
    (h : s.memoryByDedupeKey project dedupeKey = some m) :
    m ∈ s.memories.rows ∧ m.project = project ∧ dedupeKey.isSome ∧ m.dedupeKey = dedupeKey := by
  unfold memoryByDedupeKey at h
  split at h
  · cases h
  · have hfound := List.find?_some h
    obtain ⟨hproject, hkey⟩ := of_decide_eq_true hfound
    exact ⟨List.mem_of_find?_eq_some h, hproject, rfl, hkey⟩

theorem memoryByDedupeKey_eq_none {project key : String}
    (h : s.memoryByDedupeKey project (some key) = none) :
    ∀ m ∈ s.memories.rows, m.project = project → m.dedupeKey ≠ some key := by
  intro m hm hproject hkey
  have hnot := List.find?_eq_none.mp h m hm
  simp [hproject, hkey] at hnot

theorem checkExisting_eq_ok {existing : MemoryRow} {input : MemoryInput} {acl acl' : List String}
    {owner : Bool} (h : checkExisting codec existing input acl owner = .ok acl') :
    codec.parseAcl existing.aclJson = .ok acl' ∧ existing.status = "active" := by
  rw [checkExisting] at h
  obtain ⟨parsed, hparsed, h⟩ := Iff.mp Except.bind_ok_iff h
  obtain ⟨_, -, h⟩ := Iff.mp Except.bind_ok_iff h
  obtain ⟨_, -, h⟩ := Iff.mp Except.bind_ok_iff h
  obtain ⟨_, -, h⟩ := Iff.mp Except.bind_ok_iff h
  obtain ⟨_, hactive, h⟩ := Iff.mp Except.bind_ok_iff h
  obtain rfl := Iff.mp Except.pure_ok_iff h
  exact ⟨hparsed, Iff.mp Except.require_ok_iff hactive⟩

/-- The memory that is rewritten is active; any other has a new id. -/
theorem Remembered.identity_cases {call : MemoryCall} {input : MemoryInput} {axes : MemoryAxes}
    {valid : ValidInput} {existingAcl : Option (List String)} {id : String}
    (h : Remembered codec s call input axes valid existingAcl t id) :
    (∃ m, s.memoryByDedupeKey input.project input.dedupeKey = some m ∧ m.id = id ∧
        m.status = "active" ∧ ∃ acl, existingAcl = some acl ∧ codec.parseAcl m.aclJson = .ok acl) ∨
      (s.memoryByDedupeKey input.project input.dedupeKey = none ∧ id = call.freshId) := by
  have hid := h.identity
  have hallowed := h.allowed
  cases hexisting : s.memoryByDedupeKey input.project input.dedupeKey with
  | none =>
      rw [hexisting] at hid
      exact Or.inr ⟨rfl, hid⟩
  | some m =>
      rw [hexisting] at hid hallowed
      obtain ⟨acl, hacl, hsome⟩ := Iff.mp Except.map_ok_iff hallowed
      obtain ⟨hparsed, hactive⟩ := checkExisting_eq_ok hacl
      exact Or.inl ⟨m, rfl, hid.symm, hactive, acl, hsome.symm, hparsed⟩

theorem agedInto_superseded (s : Store) (call : MemoryCall) (row : MemoryRow) :
    AgedInto s.memories (s.superseded call row).memories := by
  rw [superseded]
  split
  · exact .refl _
  · rename_i previous hprevious
    obtain ⟨id, -, hactive⟩ := Option.bind_eq_some_iff.mp hprevious
    obtain ⟨hget, -⟩ := Iff.mp activeMemory_eq_some hactive
    have hid : s.memories.get previous.id = some previous := by rwa [Table.key_of_get hget]
    exact .put hid (aged_superseded previous call.now)

/-- Only the superseded memory is touched before the write. -/
theorem get_superseded_of_ne {call : MemoryCall} {row : MemoryRow} {id : String}
    (h : row.supersedesId ≠ some id) :
    (s.superseded call row).memories.get id = s.memories.get id := by
  rw [superseded]
  split
  · rfl
  · rename_i previous hprevious
    obtain ⟨id', hid', hactive⟩ := Option.bind_eq_some_iff.mp hprevious
    refine Table.get_put_of_ne fun heq ↦ h ?_
    rw [hid', heq]
    exact congrArg some (Table.key_of_get (Iff.mp activeMemory_eq_some hactive).1).symm

theorem mergedMemory_fields (t : Table MemoryRow.id) (row : MemoryRow) :
    ∃ createdAt, mergedMemory t row = { row with createdAt := createdAt } := by
  rw [mergedMemory]
  split
  · exact ⟨row.createdAt, rfl⟩
  · exact ⟨_, rfl⟩

/-- The row a write leaves is the one it was given, but for its creation. -/
theorem get_writeMemory {call : MemoryCall} {row : MemoryRow}
    (h : s.writeMemory codec call row = .ok t) :
    ∃ createdAt, t.memories.get row.id = some { row with createdAt := createdAt } := by
  obtain ⟨-, -, rfl⟩ := writeMemory_cases h
  obtain ⟨createdAt, hmerged⟩ := mergedMemory_fields (s.superseded call row).memories row
  refine ⟨createdAt, ?_⟩
  rw [← hmerged, ← id_mergedMemory (s.superseded call row).memories row]
  exact Table.get_put_self _ _

/-- What a successful call of `remember` does to the memories: nothing, or it
ages them, and then writes one that was active or is new. -/
theorem remembered_cases {call : MemoryCall} {input : MemoryInput} {axes : MemoryAxes}
    {id : String} (hfresh : s.memories.get call.freshId = none)
    (h : s.rememberInTransaction codec call input axes = .ok (t, id)) :
    t = s ∨ ∃ row : MemoryRow, row.id = id ∧ row.supersedesId = input.supersedesId ∧
      s.writeMemory codec call row = .ok t ∧ row.supersedesId ≠ some row.id ∧
      ∀ m, (s.superseded call row).memories.get row.id = some m → m.status = "active" := by
  obtain ⟨valid, existingAcl, hremembered⟩ := rememberInTransaction_cases h
  rcases hremembered.written with ⟨-, rfl⟩ | ⟨-, hself, -, hwrite⟩
  · exact Or.inl rfl
  · refine Or.inr ⟨_, rfl, rfl, hwrite, hself, ?_⟩
    intro m hm
    rw [get_superseded_of_ne hself] at hm
    rcases hremembered.identity_cases with ⟨m', hexisting, hid, hactive, -⟩ | ⟨-, hid⟩
    · have hmem := (memoryByDedupeKey_eq_some hexisting).1
      have hget : s.memories.get id = some m' := Iff.mpr Table.get_eq_some_iff ⟨hmem, hid⟩
      obtain rfl := Option.some.inj (hget.symm.trans hm)
      exact hactive
    · change s.memories.get id = some m at hm
      rw [hid, hfresh] at hm
      cases hm

/-- A write keeps the invariant, and retires but never revives. -/
theorem lifecycle_writeMemory {call : MemoryCall} {row : MemoryRow} (h : Lifecycle s.memories)
    (hwrite : s.writeMemory codec call row = .ok t) (hself : row.supersedesId ≠ some row.id)
    (hactive : ∀ m, (s.superseded call row).memories.get row.id = some m → m.status = "active") :
    Lifecycle t.memories ∧ StaysRetired s.memories t.memories := by
  obtain ⟨htarget, hclash, rfl⟩ := writeMemory_cases hwrite
  obtain ⟨createdAt, hmerged⟩ := mergedMemory_fields (s.superseded call row).memories row
  have haged := s.agedInto_superseded call row
  change Lifecycle ((s.superseded call row).memories.put _) ∧
    StaysRetired _ ((s.superseded call row).memories.put _)
  rw [hmerged]
  refine ⟨(h.aged haged).put ?_ hactive hself ?_, (StaysRetired.of_agedInto haged).trans
    (.put hactive)⟩
  · intro m hm hne hkey hproject hsame
    have hfree : memoryClash (s.superseded call row).memories row = true := by
      rw [memoryClash, Bool.and_eq_true, List.any_eq_true]
      exact ⟨hkey, m, hm, decide_eq_true ⟨hne, hproject, hsame⟩⟩
    rw [hclash] at hfree
    cases hfree
  · intro b hb
    obtain ⟨previous, hprevious⟩ := Option.isSome_iff_exists.mp (htarget b hb)
    have hid : previous.id = b := Table.key_of_get (Iff.mp activeMemory_eq_some hprevious).1
    have hsuperseded : s.superseded call row = s.supersede previous call.now := by
      rw [superseded, show row.supersedesId = some b from hb, Option.bind_some, hprevious]
    rw [hsuperseded, ← hid]
    exact ⟨_, Table.get_put_self s.memories
      { previous with status := "superseded", validUntil := some call.now, updatedAt := call.now },
      show "superseded" ≠ "active" by decide⟩

/-! ## Runs -/

/-- The call and the input with which an operation remembers. -/
def Operation.Remembers : Operation → MemoryCall → MemoryInput → Prop
  | .remember call input _, call', input' => call' = call ∧ input' = input
  | .promote call candidate report, call', input' =>
      call' = call ∧ ∃ axes, input' = promotedInput candidate report axes
  | _, _, _ => False

theorem Operation.Remembers.call_eq {op : Operation} {call call' : MemoryCall}
    {input input' : MemoryInput} (h : op.Remembers call input) (h' : op.Remembers call' input') :
    call = call' := by
  cases op with
  | remember => exact h.1.trans h'.1.symm
  | promote => exact h.1.trans h'.1.symm
  | _ => exact h.elim

/-- A call that writes or forgets a memory, with a new identifier for a memory
that is new. -/
def MemoryOperation (s : Store) : Operation → Prop
  | .remember call _ _ | .promote call _ _ => s.memories.get call.freshId = none
  | .forget _ _ => True
  | _ => False

/-- A call that remembers does it in one transaction, or does nothing. -/
theorem step_cases {op : Operation} (hop : s.MemoryOperation op) (hstep : s.Step codec op t) :
    t = s ∨
      (∃ call input axes id, op.Remembers call input ∧ s.memories.get call.freshId = none ∧
        s.rememberInTransaction codec call input axes = .ok (t, id)) ∨
      ∃ call id memory, op = .forget call id ∧ s.activeMemory id = some memory ∧
        t.memories = s.memories.put (retracted memory call.now) := by
  rw [Step] at hstep
  cases op with
  | remember call input axes =>
      obtain ⟨⟨u, id⟩, hu, rfl⟩ := Iff.mp Except.map_ok_iff hstep
      exact Or.inr (Or.inl ⟨call, input, axes, id, ⟨rfl, rfl⟩, hop, rememberScopedWithAxes_eq_ok hu⟩)
  | promote call candidate report =>
      have hpromote : s.promoteCandidate codec call candidate report = .ok t := hstep
      rcases promoteCandidate_eq_ok hpromote with rfl | ⟨axes, id, -, hremember⟩
      · exact Or.inl rfl
      · exact Or.inr (Or.inl ⟨call, _, axes, id, ⟨rfl, axes, rfl⟩, hop, hremember⟩)
  | forget call id =>
      obtain ⟨⟨u, found⟩, hu, rfl⟩ := Iff.mp Except.map_ok_iff hstep
      rcases forgetMemoryScoped_eq_ok hu with ⟨-, rfl, -⟩ | ⟨memory, hactive, -, rfl⟩
      · exact Or.inl rfl
      · exact Or.inr (Or.inr ⟨call, id, memory, rfl, hactive, rfl⟩)
  | _ => exact hop.elim

theorem lifecycle_step {op : Operation} (h : Lifecycle s.memories) (hop : s.MemoryOperation op)
    (hstep : s.Step codec op t) : Lifecycle t.memories ∧ StaysRetired s.memories t.memories := by
  rcases step_cases hop hstep with rfl | ⟨call, input, axes, id, -, hfresh, hremember⟩ |
    ⟨call, id, memory, -, hactive, hmemories⟩
  · exact ⟨h, .refl _⟩
  · rcases remembered_cases hfresh hremember with rfl | ⟨row, -, -, hwrite, hself, hfree⟩
    · exact ⟨h, .refl _⟩
    · exact lifecycle_writeMemory h hwrite hself hfree
  · obtain ⟨hget, -⟩ := Iff.mp activeMemory_eq_some hactive
    have hid : s.memories.get memory.id = some memory := by rwa [Table.key_of_get hget]
    have haged : AgedInto s.memories t.memories :=
      hmemories ▸ .put hid (aged_retracted memory call.now)
    exact ⟨h.aged haged, .of_agedInto haged⟩

theorem lifecycle_run (device : Option String) (limit : ℕ)
    (hrun : Run codec MemoryOperation { adopted device with memoryMaxActive := limit } s) :
    Lifecycle s.memories := by
  have hstep : ∀ (s : Store) (op : Operation) (t : Store), Lifecycle s.memories →
      s.MemoryOperation op → s.Step codec op t → Lifecycle t.memories :=
    fun _ _ _ h hop hstep ↦ (lifecycle_step h hop hstep).1
  exact Transition.Run.preserves hstep hrun Lifecycle.empty

theorem staysRetired_run (h : Lifecycle s.memories) (hrun : Run codec MemoryOperation s t) :
    StaysRetired s.memories t.memories := by
  have hstep : ∀ (s : Store) (op : Operation) (t : Store), Lifecycle s.memories →
      s.MemoryOperation op → s.Step codec op t →
        Lifecycle t.memories ∧ StaysRetired s.memories t.memories :=
    fun _ _ _ h hop hstep ↦ lifecycle_step h hop hstep
  have hrel := Transition.Run.relates (fun s : Store ↦ StaysRetired.refl s.memories)
    (fun _ _ _ ↦ .trans) (fun s op t h hop hs ↦ (hstep s op t h hop hs).1)
    (fun s op t h hop hs ↦ (hstep s op t h hop hs).2) hrun h
  exact hrel

/-! ## Capacity -/

/-- A memory that the count of active memories counts. -/
def counted (codec : Codec) (now : String) (m : MemoryRow) : Bool :=
  m.status = "active" ∧ m.validUntil.all fun v ↦ codec.julianAfter v now

/-- One for a memory that is counted. -/
def countOf (codec : Codec) (now : String) (m : Option MemoryRow) : ℕ :=
  (m.map fun m ↦ if counted codec now m then 1 else 0).getD 0

theorem countOf_some_of_counted {now : String} {m : MemoryRow} (h : counted codec now m) :
    countOf codec now (some m) = 1 := by
  simp [countOf, h]

theorem activeCount_eq_sum (s : Store) (now : String) :
    s.activeCount codec now =
      (s.memories.rows.map fun m ↦ if counted codec now m then 1 else 0).sum := by
  rw [activeCount]
  change (s.memories.rows.filter (counted codec now)).length = _
  induction s.memories.rows with
  | nil => rfl
  | cons m rest ih =>
      rw [List.map_cons, List.sum_cons, ← ih, List.filter_cons]
      split
      · rw [List.length_cons, Nat.add_comm]
      · rw [Nat.zero_add]

/-- Writing a memory, and what was there under its id, change the count. -/
theorem activeCount_put (codec : Codec) {row : MemoryRow}
    (hmemories : t.memories = s.memories.put row) (now : String) :
    t.activeCount codec now + countOf codec now (s.memories.get row.id) =
      s.activeCount codec now + countOf codec now (some row) := by
  rw [activeCount_eq_sum, activeCount_eq_sum, hmemories]
  exact Table.sum_put s.memories row _

/-- The memories an input replaces or supersedes. -/
def Concerned (s : Store) (input : MemoryInput) (m : MemoryRow) : Prop :=
  s.memoryByDedupeKey input.project input.dedupeKey = some m ∨
    input.supersedesId.bind s.activeMemory = some m

/-- When there is no room, what counts as active for the write is counted. -/
def CountedAlike (codec : Codec) (s : Store) (op : Operation) : Prop :=
  ∀ call input, op.Remembers call input → s.memoryMaxActive ≤ s.activeCount codec call.now →
    ∀ m, s.Concerned input m → validUntilIsActive codec m.validUntil call.now →
      counted codec call.now m

/-- A superseded memory is no longer counted. -/
theorem activeCount_superseded (s : Store) (call : MemoryCall) (row : MemoryRow) (now : String) :
    (s.superseded call row).activeCount codec now +
        countOf codec now (row.supersedesId.bind s.activeMemory) = s.activeCount codec now := by
  rw [superseded]
  cases hprevious : row.supersedesId.bind s.activeMemory with
  | none => rfl
  | some previous =>
      obtain ⟨id, -, hactive⟩ := Option.bind_eq_some_iff.mp hprevious
      obtain ⟨hget, -⟩ := Iff.mp activeMemory_eq_some hactive
      have hold : s.memories.get previous.id = some previous := by rwa [Table.key_of_get hget]
      have hput := activeCount_put (s := s) (t := s.supersede previous call.now) codec rfl now
      rw [hold] at hput
      rw [hput]
      simp [countOf, counted]

/-- A write adds at most one to the count, and takes away what it replaces and
what it supersedes. -/
theorem activeCount_writeMemory {call : MemoryCall} {row : MemoryRow} (now : String)
    (hwrite : s.writeMemory codec call row = .ok t) (hself : row.supersedesId ≠ some row.id) :
    t.activeCount codec now + countOf codec now (s.memories.get row.id) +
        countOf codec now (row.supersedesId.bind s.activeMemory) ≤
      s.activeCount codec now + 1 := by
  obtain ⟨-, -, heq⟩ := writeMemory_cases hwrite
  have hmemories : t.memories = (s.superseded call row).memories.put
      (mergedMemory (s.superseded call row).memories row) := by rw [heq]; rfl
  have hsuperseded : (s.superseded call row).activeCount codec now +
      countOf codec now (row.supersedesId.bind s.activeMemory) = s.activeCount codec now :=
    s.activeCount_superseded call row now
  have hput := activeCount_put codec hmemories now
  rw [id_mergedMemory, get_superseded_of_ne hself] at hput
  have hone : countOf codec now (some (mergedMemory (s.superseded call row).memories row)) ≤ 1 := by
    simp only [countOf, Option.map_some, Option.getD_some]
    split <;> omega
  omega

/-- A write raises the number of active memories at most to the limit. -/
theorem activeCount_remember {call : MemoryCall} {input : MemoryInput} {axes : MemoryAxes}
    {id : String} (hremember : s.rememberInTransaction codec call input axes = .ok (t, id))
    (halike : s.memoryMaxActive ≤ s.activeCount codec call.now → ∀ m, s.Concerned input m →
      validUntilIsActive codec m.validUntil call.now → counted codec call.now m) :
    t.activeCount codec call.now ≤ max (s.activeCount codec call.now) s.memoryMaxActive := by
  obtain ⟨valid, existingAcl, hremembered⟩ := rememberInTransaction_cases hremember
  rcases hremembered.written with ⟨-, rfl⟩ | ⟨-, hself, hcapacity, hwrite⟩
  · exact le_max_left _ _
  have hcount := activeCount_writeMemory call.now hwrite hself
  by_cases hroom : s.activeCount codec call.now < s.memoryMaxActive
  · omega
  have hlimit := halike (Nat.le_of_not_lt hroom)
  simp only [hasCapacity, Bool.or_eq_true, Option.any_eq_true, decide_eq_true_eq] at hcapacity
  rcases hcapacity with (⟨m, hexisting, hactive⟩ | ⟨m, htarget, hactive⟩) | hless
  · have hcounted := hlimit m (Or.inl hexisting) hactive.2
    have hid : id = m.id := by
      rw [hremembered.identity, hexisting]
      rfl
    have hget : s.memories.get id = some m :=
      Iff.mpr Table.get_eq_some_iff ⟨(memoryByDedupeKey_eq_some hexisting).1, hid.symm⟩
    have hone : countOf codec call.now (s.memories.get id) = 1 :=
      hget ▸ countOf_some_of_counted hcounted
    change _ + countOf codec call.now (s.memories.get id) + _ ≤ _ at hcount
    omega
  · have hcounted := hlimit m (Or.inr htarget) hactive
    have hone : countOf codec call.now (input.supersedesId.bind s.activeMemory) = 1 :=
      htarget ▸ countOf_some_of_counted hcounted
    change _ + _ + countOf codec call.now (input.supersedesId.bind s.activeMemory) ≤ _ at hcount
    omega
  · exact absurd hless hroom

/-! ## Retries -/

/-- The memory that a call of `remember` has stored says what its input says. -/
theorem sameMemory_of_remember (hlabels : codec.ReadsLabels) {call : MemoryCall}
    {input : MemoryInput} {axes : MemoryAxes} {id : String}
    (h : s.rememberInTransaction codec call input axes = .ok (t, id)) :
    ∃ m valid acl, t.memories.get id = some m ∧ validateInput codec input = .ok valid ∧
      m.project = input.project ∧ m.dedupeKey = input.dedupeKey ∧
      codec.parseAcl m.aclJson = .ok acl ∧
      sameMemory m acl input valid axes
        (if ByteText.trim input.sourceId.toList = [] then id else input.sourceId) = true := by
  obtain ⟨valid, existingAcl, hremembered⟩ := rememberInTransaction_cases h
  rcases hremembered.written with ⟨hsame, rfl⟩ | ⟨-, -, -, hwrite⟩
  · rcases hremembered.identity_cases with ⟨m, hexisting, hid, -, acl, hacl, hparsed⟩ | ⟨hnone, -⟩
    · obtain ⟨hmem, hproject, -, hdedupe⟩ := memoryByDedupeKey_eq_some hexisting
      rw [hexisting, hacl] at hsame
      exact ⟨m, valid, acl, Iff.mpr Table.get_eq_some_iff ⟨hmem, hid⟩, hremembered.checked, hproject,
        hdedupe, hparsed, hsame⟩
    · rw [hnone] at hsame
      cases hsame
  · obtain ⟨createdAt, hget⟩ := get_writeMemory hwrite
    refine ⟨_, valid, valid.acl, hget, hremembered.checked, rfl, rfl, hlabels valid.acl, ?_⟩
    simp [sameMemory, memoryRow, realEq]

/-- A retry of a call whose memory is still as it was stored changes nothing. -/
theorem remember_retry (hlabels : codec.ReadsLabels) {call call' : MemoryCall}
    {input : MemoryInput} {axes : MemoryAxes} {id id' : String} {u v : Store}
    (hkey : input.dedupeKey.isSome)
    (h : s.rememberInTransaction codec call input axes = .ok (t, id))
    (hu : Lifecycle u.memories) (hstored : u.memories.get id = t.memories.get id)
    (hretry : u.rememberInTransaction codec call' input axes = .ok (v, id')) :
    v = u ∧ id' = id := by
  obtain ⟨m, valid, acl, hget, hvalid, hproject, hdedupe, hparsed, hsame⟩ :=
    sameMemory_of_remember hlabels h
  obtain ⟨hmem, hid⟩ := Iff.mp Table.get_eq_some_iff (hstored.trans hget)
  have hexisting : u.memoryByDedupeKey input.project input.dedupeKey = some m := by
    obtain ⟨key, hkey'⟩ := Option.isSome_iff_exists.mp hkey
    cases hfind : u.memoryByDedupeKey input.project input.dedupeKey with
    | none =>
        rw [hkey'] at hfind
        exact absurd (hdedupe.trans hkey') (memoryByDedupeKey_eq_none hfind m hmem hproject)
    | some m' =>
        obtain ⟨hmem', hproject', -, hdedupe'⟩ := memoryByDedupeKey_eq_some hfind
        rw [hu.dedupe m hmem m' hmem' (hdedupe ▸ hkey) (hproject.trans hproject'.symm)
          (hdedupe.trans hdedupe'.symm)]
  obtain ⟨valid', existingAcl, hremembered⟩ := rememberInTransaction_cases hretry
  obtain rfl : valid = valid' := Except.ok.inj (hvalid.symm.trans hremembered.checked)
  have hid' : id' = id := by
    rw [hremembered.identity, hexisting, ← hid]
    rfl
  rcases hremembered.written with ⟨-, hunchanged⟩ | ⟨hdifferent, -⟩
  · exact ⟨hunchanged, hid'⟩
  · rcases hremembered.identity_cases with ⟨m', hexisting', -, -, acl', hacl', hparsed'⟩ | ⟨hnone, -⟩
    · obtain rfl := Option.some.inj (hexisting.symm.trans hexisting')
      obtain rfl : acl = acl' := Except.ok.inj (hparsed.symm.trans hparsed')
      rw [hexisting, hacl', hid', Option.any_some, Option.getD_some, hsame] at hdifferent
      cases hdifferent
    · rw [hexisting] at hnone
      cases hnone

/-! ## The lifecycle -/

/-- In every state reached by remembering, forgetting and promoting: one memory
for each dedupe key of a project, no cycle of supersessions, no way back for a
retired memory, and retries that change nothing; and a write raises the number
of active memories at most to the limit when, at the limit, what passes for
active is counted as active. -/
theorem memory_lifecycle (hlabels : codec.ReadsLabels) (device : Option String) (limit : ℕ)
    (hrun : Run codec MemoryOperation { adopted device with memoryMaxActive := limit } s) :
    (∀ m ∈ s.memories.rows, ∀ m' ∈ s.memories.rows, m.dedupeKey.isSome →
      m.project = m'.project → m.dedupeKey = m'.dedupeKey → m = m') ∧
    Acyclic (Supersedes s.memories) ∧
    (∀ t, Run codec MemoryOperation s t → StaysRetired s.memories t.memories) ∧
    (∀ call input axes t id, s.memories.get call.freshId = none → input.dedupeKey.isSome →
      s.rememberScopedWithAxes codec call input axes = .ok (t, id) →
      ∀ u, Run codec MemoryOperation t u → u.memories.get id = t.memories.get id →
      ∀ call' v id', u.rememberScopedWithAxes codec call' input axes = .ok (v, id') →
        v = u ∧ id' = id) ∧
    ∀ op t, s.MemoryOperation op → s.CountedAlike codec op → s.Step codec op t →
      ∀ call input, op.Remembers call input →
        t.activeCount codec call.now ≤ max (s.activeCount codec call.now) s.memoryMaxActive := by
  have hlife := lifecycle_run device limit hrun
  refine ⟨hlife.dedupe, hlife.acyclic, fun t ht ↦ staysRetired_run hlife ht, ?_, ?_⟩
  · intro call input axes t id hfresh hkey h u hu hstored call' v id' hretry
    have hstep : s.Step codec (.remember call input axes) t := by
      rw [Step, perform, h]
      rfl
    have hop : s.MemoryOperation (.remember call input axes) := hfresh
    have hrun' : Run codec MemoryOperation { adopted device with memoryMaxActive := limit } u :=
      Relation.ReflTransGen.trans (hrun.snoc hop hstep) hu
    exact remember_retry hlabels hkey (rememberScopedWithAxes_eq_ok h)
      (lifecycle_run device limit hrun') hstored (rememberScopedWithAxes_eq_ok hretry)
  · intro op t hop halike hstep call input hremembers
    rcases step_cases hop hstep with rfl | ⟨call', input', axes, id, hremembers', -, hremember⟩ |
      ⟨call', id, memory, rfl, -, -⟩
    · exact le_max_left _ _
    · obtain rfl := hremembers.call_eq hremembers'
      exact activeCount_remember hremember (halike call input' hremembers')
    · exact hremembers.elim

/-- A call that remembers under a new identifier. -/
def freshMemory (s : Store) : Operation → Bool
  | .remember call _ _ => (s.memories.get call.freshId).isNone
  | _ => false

theorem memoryOperation_of_freshMemory {op : Operation} (h : freshMemory s op = true) :
    s.MemoryOperation op := by
  cases op with
  | remember call input axes => exact Option.isNone_iff_eq_none.mp h
  | _ => cases h

theorem Concerned.mem {input : MemoryInput} {m : MemoryRow} (h : s.Concerned input m) :
    m ∈ s.memories.rows := by
  rcases h with hexisting | htarget
  · exact (memoryByDedupeKey_eq_some hexisting).1
  · obtain ⟨id, -, hactive⟩ := Option.bind_eq_some_iff.mp htarget
    exact (Iff.mp Table.get_eq_some_iff (Option.filter_eq_some_iff.mp hactive).1).1

/-- At a limit of one memory, a second one supersedes the first, and a retry of that
call changes nothing. -/
theorem memory_lifecycle_fact :
    let rent := fact "rent" (some "home") (some "m1") none
    ∃ s t v id, Run .sample MemoryOperation { adopted none with memoryMaxActive := 1 } s ∧
      s.activeCount .sample (ownerCall "m2").now = 1 ∧
      s.rememberScopedWithAxes .sample (ownerCall "m2") rent factAxes = .ok (t, "m2") ∧
      t.memories.rows.length = 2 ∧ t.activeCount .sample (ownerCall "m2").now ≤ 1 ∧
      Acyclic (Supersedes s.memories) ∧
      t.rememberScopedWithAxes .sample (ownerCall "m3") rent factAxes = .ok (v, id) ∧
      v = t ∧ id = "m2" := by
  intro rent
  obtain ⟨s, hrun, hvalues⟩ := exists_of_performIf .sample freshMemory
    { adopted none with memoryMaxActive := 1 }
    [.remember (ownerCall "m1") (fact "tea" (some "drink") none none) factAxes]
    (fun s ↦ (s.activeCount .sample (ownerCall "m2").now, s.memoryMaxActive,
      (s.rememberScopedWithAxes .sample (ownerCall "m2") rent factAxes).toOption.map fun r ↦
        (r.2, r.1.memories.rows.length, s.memories.rows.all (counted .sample (ownerCall "m2").now) &&
          (s.memories.get "m2").isNone &&
            (r.1.rememberScopedWithAxes .sample (ownerCall "m3") rent factAxes).isOk)))
    (a := (1, 1, some ("m2", 2, true))) (by decide +kernel)
  simp only [Prod.mk.injEq, Option.map_eq_some_iff, Bool.and_eq_true] at hvalues
  obtain ⟨hcount, hlimit, ⟨t, id⟩, hremember, rfl, hlength, ⟨hall, hfresh⟩, hretry⟩ := hvalues
  have hmemory : Run .sample MemoryOperation { adopted none with memoryMaxActive := 1 } s :=
    hrun.mono fun s op hop ↦ memoryOperation_of_freshMemory hop
  have hwritten : s.rememberScopedWithAxes .sample (ownerCall "m2") rent factAxes =
      .ok (t, "m2") := Iff.mp Except.toOption_eq_some_iff hremember
  obtain ⟨v, id, hagain⟩ : ∃ v id,
      t.rememberScopedWithAxes .sample (ownerCall "m3") rent factAxes = .ok (v, id) := by
    cases h : t.rememberScopedWithAxes .sample (ownerCall "m3") rent factAxes with
    | error e => simp [h, Except.isOk, Except.toBool] at hretry
    | ok r => exact ⟨r.1, r.2, rfl⟩
  have hstep : s.Step .sample (.remember (ownerCall "m2") rent factAxes) t := by
    rw [Step, perform, hwritten]
    rfl
  obtain ⟨-, hacyclic, -, hretries, hcapacity⟩ :=
    memory_lifecycle Codec.sample_readsLabels none 1 hmemory
  have halike : s.CountedAlike .sample (.remember (ownerCall "m2") rent factAxes) := by
    rintro call input ⟨rfl, rfl⟩ - m hm -
    exact List.all_eq_true.mp hall m hm.mem
  have hbound := hcapacity (.remember (ownerCall "m2") rent factAxes) t
    (Option.isNone_iff_eq_none.mp hfresh) halike hstep (ownerCall "m2") rent ⟨rfl, rfl⟩
  rw [hcount, hlimit] at hbound
  have hsame := hretries (ownerCall "m2") rent factAxes t "m2"
    (Option.isNone_iff_eq_none.mp hfresh) rfl hwritten t (Transition.Run.refl t) rfl
    (ownerCall "m3") v id hagain
  exact ⟨s, t, v, id, hmemory, hcount, hwritten, hlength, hbound, hacyclic, hagain, hsame⟩

/-- A memory that is valid until a leap second passes for active but is not
counted: superseding it raises the number of active memories above the limit. -/
theorem memory_limit_exceeded :
    ¬ ∀ (codec : Codec), codec.ReadsLabels → ∀ (device : Option String) (limit : ℕ) (s t : Store),
      Run codec MemoryOperation { adopted device with memoryMaxActive := limit } s →
      ∀ op, s.MemoryOperation op → s.Step codec op t →
      ∀ call input, op.Remembers call input →
        t.activeCount codec call.now ≤ max (s.activeCount codec call.now) s.memoryMaxActive := by
  intro h
  obtain ⟨s, hrun, hcounts⟩ := exists_of_performIf .sample freshMemory
    { adopted none with memoryMaxActive := 1 }
    [.remember (ownerCall "m1") (fact "lease" none none (some "2030-12-31T23:59:60Z")) factAxes,
      .remember (ownerCall "m2") (fact "tea" none none none) factAxes]
    (fun s ↦ (s.activeCount .sample "2026-01-01T00:00:00Z", s.memoryMaxActive,
      (performIf .sample freshMemory s (.remember (ownerCall "m3") (fact "rent" none (some "m1") none)
        factAxes)).map fun t ↦ t.activeCount .sample "2026-01-01T00:00:00Z"))
    (a := (1, 1, some 2)) (by decide +kernel)
  obtain ⟨hcount, hlimit, hafter⟩ : _ ∧ _ ∧ _ := by simpa using hcounts
  obtain ⟨t, ht, hcount'⟩ := hafter
  rw [performIf] at ht
  split_ifs at ht with hop
  cases hstep : s.perform .sample (.remember (ownerCall "m3") (fact "rent" none (some "m1") none)
      factAxes) with
  | error e => simp [hstep, Except.toOption] at ht
  | ok u =>
      obtain rfl : u = t := by simpa [hstep, Except.toOption] using ht
      have hbound := h .sample Codec.sample_readsLabels none 1 s u
        (hrun.mono fun s op hop ↦ memoryOperation_of_freshMemory hop) _
        (memoryOperation_of_freshMemory hop) hstep _ _ ⟨rfl, rfl⟩
      change u.activeCount .sample "2026-01-01T00:00:00Z" ≤
        max (s.activeCount .sample "2026-01-01T00:00:00Z") s.memoryMaxActive at hbound
      rw [hcount, hcount', hlimit] at hbound
      exact absurd hbound (by decide)

end Store

end Cortana
