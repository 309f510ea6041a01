import Mathlib.Logic.Function.Basic
import Cortana.Core.Runs

/-!
# Interleaved operations on shared cells

Operations run on shared cells, one atomic access at a time, and their accesses
may be interleaved.  An operation is undisturbed at an access when the cells it
has touched hold what it found or left in them, and no other operation that is
still running has written one of them.  Where every access is undisturbed, the
operations have had the results they have one after the other, in the order
they end.
-/

universe u v w

/-- An operation as a tree of accesses to cells. -/
inductive Program {κ : Type u} (V : κ → Type v) (α : Type w) where
  | done (result : α)
  | read (key : κ) (rest : V key → Program V α)
  | update (key : κ) (change : V key → V key) (rest : V key → Program V α)

namespace Program

variable {κ : Type u} [DecidableEq κ] {V : κ → Type v} {α : Type w}

/-- The value of a cell is replaced. -/
def write (key : κ) (value : V key) (rest : Program V α) : Program V α :=
  .update key (fun _ ↦ value) fun _ ↦ rest

/-- The operation alone, from its first access to its last. -/
def run : Program V α → (∀ k, V k) → (∀ k, V k) × α
  | .done result, cells => (cells, result)
  | .read key rest, cells => (rest (cells key)).run cells
  | .update key change rest, cells =>
      (rest (cells key)).run (Function.update cells key (change (cells key)))

/-- A cell is written by the last access only. -/
def WritesLast (key : κ) : Program V α → Prop
  | .done _ => True
  | .read _ rest => ∀ v, (rest v).WritesLast key
  | .update key' _ rest =>
      (key' = key → ∀ v, ∃ result, rest v = .done result) ∧ ∀ v, (rest v).WritesLast key

variable {cells : ∀ k, V k} {key : κ}

@[simp] theorem run_done (result : α) : (done result : Program V α).run cells = (cells, result) :=
  rfl

@[simp] theorem run_read (rest : V key → Program V α) :
    (read key rest).run cells = (rest (cells key)).run cells := rfl

@[simp] theorem run_update (change : V key → V key) (rest : V key → Program V α) :
    (update key change rest).run cells =
      (rest (cells key)).run (Function.update cells key (change (cells key))) := rfl

@[simp] theorem run_write (value : V key) (rest : Program V α) :
    (write key value rest).run cells = rest.run (Function.update cells key value) := rfl

end Program

namespace Serial

variable {κ : Type u} [DecidableEq κ] {V : κ → Type v} {α : Type w}

/-- An operation between its accesses: what it has found in the cells it has
touched, and what it has left in those it has written. -/
structure Running (V : κ → Type v) (Ω : Type*) (α : Type w) where
  op : Ω
  rest : Program V α
  seen : ∀ k, Option (V k)
  left : ∀ k, Option (V k)

/-- The cells, the operations that are running, and the results of those that
have ended, in the order they did. -/
structure System (V : κ → Type v) (Ω : Type*) (ι : Type*) (α : Type w) where
  cells : ∀ k, V k
  running : ι → Option (Running V Ω α)
  finished : List (Ω × α)

inductive Event (Ω : Type*) (ι : Type*) where
  | start (i : ι) (op : Ω)
  | access (i : ι)

variable {Ω : Type*} {ι : Type*} [DecidableEq ι]

namespace System

/-- Nothing has run on the cells. -/
def fresh (cells : ∀ k, V k) : System V Ω ι α := ⟨cells, fun _ ↦ none, []⟩

/-- An operation has come to a point. -/
def put (s : System V Ω ι α) (i : ι) (r : Running V Ω α) : System V Ω ι α :=
  { s with running := Function.update s.running i (some r) }

/-- An operation goes on, or ends when no access is left. -/
def settle (s : System V Ω ι α) (i : ι) (r : Running V Ω α) : System V Ω ι α :=
  match r.rest with
  | .done result =>
      { s with running := Function.update s.running i none, finished := s.finished ++ [(r.op, result)] }
  | _ => s.put i r

end System

/-- The operation finds a value in a cell, which it may have touched before. -/
def Running.find (r : Running V Ω α) (key : κ) (value : V key) (rest : Program V α) :
    Running V Ω α :=
  { r with rest := rest, seen := Function.update r.seen key ((r.seen key).or (some value)) }

/-- The operation leaves a value in a cell. -/
def Running.leave (r : Running V Ω α) (key : κ) (value : V key) : Running V Ω α :=
  { r with left := Function.update r.left key (some value) }

/-- One event: an operation starts, or makes its next access. -/
def next (program : Ω → Program V α) (s : System V Ω ι α) : Event Ω ι → Option (System V Ω ι α)
  | .start i op =>
      match s.running i with
      | some _ => none
      | none => some (s.settle i ⟨op, program op, fun _ ↦ none, fun _ ↦ none⟩)
  | .access i =>
      match s.running i with
      | none => none
      | some r =>
          match r.rest with
          | .done _ => none
          | .read key rest =>
              some (s.settle i (r.find key (s.cells key) (rest (s.cells key))))
          | .update key change rest =>
              let value := change (s.cells key)
              some ({ s with cells := Function.update s.cells key value }.settle i
                ((r.find key (s.cells key) (rest (s.cells key))).leave key value))

def Step (program : Ω → Program V α) (s : System V Ω ι α) (event : Event Ω ι)
    (t : System V Ω ι α) : Prop :=
  next program s event = some t

/-- The operation has touched the cell, or touches it with its next access. -/
def Running.Touches (r : Running V Ω α) (k : κ) : Prop :=
  r.seen k ≠ none ∨
    match r.rest with
    | .done _ => False
    | .read key _ => k = key
    | .update key _ _ => k = key

/-- At its next access the operation would find its cells as it found or left
them, and none of them in the hands of another one. -/
structure Undisturbed (s : System V Ω ι α) (i : ι) (r : Running V Ω α) : Prop where
  current : ∀ k v, r.seen k = some v → s.cells k = (r.left k).getD v
  alone : ∀ j q, j ≠ i → s.running j = some q → ∀ k, r.Touches k → q.left k = none

/-- An operation starts, or makes an access undisturbed. -/
def Clear (s : System V Ω ι α) : Event Ω ι → Prop
  | .start _ _ => True
  | .access i => ∀ r, s.running i = some r → Undisturbed s i r

/-- Operations one after the other, with their results. -/
def Sequential (program : Ω → Program V α) : (∀ k, V k) → List (Ω × α) → (∀ k, V k) → Prop
  | cells, [], cells' => cells = cells'
  | cells, (op, result) :: rest, cells' =>
      ∃ next, (program op).run cells = (next, result) ∧ Sequential program next rest cells'

theorem sequential_append {program : Ω → Program V α} {cells cells' : ∀ k, V k}
    {before after : List (Ω × α)} :
    Sequential program cells (before ++ after) cells' ↔
      ∃ between, Sequential program cells before between ∧
        Sequential program between after cells' := by
  induction before generalizing cells with
  | nil => simp [Sequential]
  | cons x before ih =>
      simp only [List.cons_append, Sequential, ih]
      constructor
      · rintro ⟨next, hrun, between, hbefore, hafter⟩
        exact ⟨between, ⟨next, hrun, hbefore⟩, hafter⟩
      · rintro ⟨between, ⟨next, hrun, hbefore⟩, hafter⟩
        exact ⟨next, hrun, between, hbefore, hafter⟩

theorem Sequential.snoc {program : Ω → Program V α} {cells cells' cells'' : ∀ k, V k}
    {before : List (Ω × α)} {op : Ω} {result : α} (h : Sequential program cells before cells')
    (hrun : (program op).run cells' = (cells'', result)) :
    Sequential program cells (before ++ [(op, result)]) cells'' :=
  Iff.mpr sequential_append ⟨cells', h, cells'', hrun, rfl⟩

/-- What every operation of a sequence preserves. -/
theorem Sequential.preserves {program : Ω → Program V α} {inv : (∀ k, V k) → Prop}
    {l : List (Ω × α)} {cells cells' : ∀ k, V k}
    (hstep : ∀ x ∈ l, ∀ c c', inv c → (program x.1).run c = (c', x.2) → inv c')
    (h : Sequential program cells l cells') (hcells : inv cells) : inv cells' := by
  induction l generalizing cells with
  | nil =>
      obtain rfl : cells = cells' := h
      exact hcells
  | cons x l ih =>
      obtain ⟨next, hrun, hrest⟩ := h
      refine ih (fun y hy ↦ hstep y (List.mem_cons_of_mem x hy)) hrest ?_
      exact hstep x List.mem_cons_self cells next hcells hrun

/-- Values that replace those of some cells. -/
def overlay (cells : ∀ k, V k) (left : ∀ k, Option (V k)) (k : κ) : V k := (left k).getD (cells k)

theorem overlay_update (cells : ∀ k, V k) (left : ∀ k, Option (V k)) (key : κ) (v : V key) :
    overlay cells (Function.update left key (some v)) =
      Function.update (overlay cells left) key v := by
  funext k
  by_cases hk : k = key
  · subst hk
    simp [overlay]
  · simp [overlay, Function.update_of_ne hk]

/-- The state is what the ended operations have made of the cells one after the
other, but for the cells that running operations have written. -/
structure Explained (program : Ω → Program V α) (cells : ∀ k, V k) (s : System V Ω ι α)
    (clean : ∀ k, V k) : Prop where
  sequential : Sequential program cells s.finished clean
  replay : ∀ i r, s.running i = some r → ∀ c : ∀ k, V k,
    (∀ k v, r.seen k = some v → c k = v) → (program r.op).run c = r.rest.run (overlay c r.left)
  exclusive : ∀ i j q r, i ≠ j → s.running i = some q → s.running j = some r →
    ∀ k, q.left k ≠ none → r.left k = none
  owned : ∀ i r, s.running i = some r → ∀ k v, r.left k = some v →
    s.cells k = v ∧ r.seen k = some (clean k)
  free : ∀ k, (∀ i r, s.running i = some r → r.left k = none) → s.cells k = clean k

variable {program : Ω → Program V α} {cells clean : ∀ k, V k} {s t : System V Ω ι α} {i : ι}
  {r : Running V Ω α} {key : κ}

omit [DecidableEq ι] in
theorem explained_fresh (program : Ω → Program V α) (cells : ∀ k, V k) :
    Explained (ι := ι) program cells (.fresh cells) cells where
  sequential := rfl
  replay _ _ h := by cases h
  exclusive _ _ _ _ _ h := by cases h
  owned _ _ h := by cases h
  free _ _ := rfl

theorem seen_find_self (value : V key) (rest : Program V α) :
    (r.find key value rest).seen key = (r.seen key).or (some value) :=
  Function.update_self ..

theorem seen_find_of_ne (value : V key) (rest : Program V α) {k : κ} (hk : k ≠ key) :
    (r.find key value rest).seen k = r.seen k :=
  Function.update_of_ne hk ..

theorem left_leave_self (value : V key) : (r.leave key value).left key = some value :=
  Function.update_self ..

theorem left_leave_of_ne (value : V key) {k : κ} (hk : k ≠ key) :
    (r.leave key value).left k = r.left k :=
  Function.update_of_ne hk ..

/-- A cell that an undisturbed operation touches and has not written is as the
ended operations have left it. -/
theorem Explained.cell (h : Explained program cells s clean) (hr : s.running i = some r)
    (hclear : Undisturbed s i r) (htouch : r.Touches key) (hleft : r.left key = none) :
    s.cells key = clean key := by
  apply h.free
  intro j q hq
  by_cases hj : j = i
  · subst hj
    obtain rfl := Option.some.inj (hr.symm.trans hq)
    exact hleft
  · exact hclear.alone j q hj hq key htouch

theorem Explained.seen (h : Explained program cells s clean) (hr : s.running i = some r)
    (hclear : Undisturbed s i r) {v : V key} (hv : r.seen key = some v) : clean key = v := by
  cases hleft : r.left key with
  | some x =>
      have hclean := (h.owned i r hr key x hleft).2
      rw [hv] at hclean
      exact (Option.some.inj hclean).symm
  | none =>
      have hcurrent := hclear.current key v hv
      rw [hleft, Option.getD_none] at hcurrent
      have htouch : r.Touches key := .inl (by simp [hv])
      exact (h.cell hr hclear htouch hleft).symm.trans hcurrent

/-- What an undisturbed operation has found, with its next access included, is
what the ended operations have left. -/
theorem Explained.known (h : Explained program cells s clean) (hr : s.running i = some r)
    (hclear : Undisturbed s i r) (htouch : r.Touches key) (rest : Program V α) (k : κ) (v : V k)
    (hv : (r.find key (s.cells key) rest).seen k = some v) : clean k = v := by
  by_cases hk : k = key
  · subst hk
    rw [seen_find_self] at hv
    cases hseen : r.seen k with
    | some w =>
        rw [hseen, Option.some_or] at hv
        obtain rfl := Option.some.inj hv
        exact h.seen hr hclear hseen
    | none =>
        rw [hseen, Option.none_or] at hv
        obtain rfl := Option.some.inj hv
        have hleft : r.left k = none := by
          cases hleft : r.left k with
          | none => rfl
          | some x => cases hseen.symm.trans (h.owned i r hr k x hleft).2
        exact (h.cell hr hclear htouch hleft).symm
  · rw [seen_find_of_ne _ _ hk] at hv
    exact h.seen hr hclear hv

omit [DecidableEq ι] in
/-- The value the next access finds, seen from cells that agree with all the
operation has found. -/
theorem Explained.view (h : Explained program cells s clean) (hr : s.running i = some r)
    (hclear : Undisturbed s i r) (rest : Program V α) {c : ∀ k, V k}
    (hc : ∀ k v, (r.find key (s.cells key) rest).seen k = some v → c k = v) :
    overlay c r.left key = s.cells key ∧ ∀ k v, r.seen k = some v → c k = v := by
  have hold : ∀ k v, r.seen k = some v → c k = v := by
    intro k v hv
    apply hc
    by_cases hk : k = key
    · subst hk
      rw [seen_find_self, hv, Option.some_or]
    · rwa [seen_find_of_ne _ _ hk]
  refine ⟨?_, hold⟩
  rw [overlay]
  cases hleft : r.left key with
  | some x => exact (h.owned i r hr key x hleft).1.symm
  | none =>
      rw [Option.getD_none]
      cases hseen : r.seen key with
      | some w =>
          have hcurrent := hclear.current key w hseen
          rw [hleft, Option.getD_none] at hcurrent
          exact (hold key w hseen).trans hcurrent.symm
      | none =>
          apply hc
          rw [seen_find_self, hseen, Option.none_or]

omit [DecidableEq κ] in
theorem running_put_self : (s.put i r).running i = some r := Function.update_self ..

omit [DecidableEq κ] in
theorem running_put_of_ne {j : ι} (hj : j ≠ i) : (s.put i r).running j = s.running j :=
  Function.update_of_ne hj ..

omit [DecidableEq κ] in
/-- The operations that run when one has ended. -/
theorem running_ended {j : ι} {q : Running V Ω α}
    (hq : Function.update s.running i none j = some q) : j ≠ i ∧ s.running j = some q := by
  by_cases hj : j = i
  · subst hj
    rw [Function.update_self] at hq
    cases hq
  · rw [Function.update_of_ne hj] at hq
    exact ⟨hj, hq⟩

omit [DecidableEq κ] in
theorem running_put {j : ι} {q : Running V Ω α} (hq : (s.put i r).running j = some q) :
    (j = i ∧ q = r) ∨ (j ≠ i ∧ s.running j = some q) := by
  by_cases hj : j = i
  · subst hj
    rw [running_put_self] at hq
    exact .inl ⟨rfl, (Option.some.inj hq).symm⟩
  · rw [running_put_of_ne hj] at hq
    exact .inr ⟨hj, hq⟩

/-- An operation that runs on, or ends with what the ended ones have left. -/
theorem Explained.settle (h : Explained program cells (s.put i r) clean)
    (hknown : ∀ k v, r.seen k = some v → clean k = v) :
    ∃ clean', Explained program cells (s.settle i r) clean' := by
  rw [System.settle]
  split
  · rename_i result hdone
    have hself : (s.put i r).running i = some r := running_put_self
    have hrun : (program r.op).run clean = (overlay clean r.left, result) := by
      rw [h.replay i r hself clean hknown, hdone, Program.run_done]
    have hother : ∀ j q, Function.update s.running i none j = some q →
        j ≠ i ∧ (s.put i r).running j = some q := by
      intro j q hq
      obtain ⟨hj, hq⟩ := running_ended hq
      exact ⟨hj, (running_put_of_ne hj).trans hq⟩
    refine ⟨overlay clean r.left, ⟨h.sequential.snoc hrun, ?_, ?_, ?_, ?_⟩⟩
    · intro j q hq
      exact h.replay j q (hother j q hq).2
    · intro j k q p hjk hq hp
      exact h.exclusive j k q p hjk (hother j q hq).2 (hother k p hp).2
    · intro j q hq k v hv
      obtain ⟨hj, hq⟩ := hother j q hq
      obtain ⟨hcell, hseen⟩ := h.owned j q hq k v hv
      have hleft := h.exclusive j i q r hj hq hself k (by simp [hv])
      rw [overlay, hleft, Option.getD_none]
      exact ⟨hcell, hseen⟩
    · intro k hfree
      cases hleft : r.left k with
      | some x =>
          rw [overlay, hleft, Option.getD_some]
          exact (h.owned i r hself k x hleft).1
      | none =>
          rw [overlay, hleft, Option.getD_none]
          apply h.free
          intro j q hq
          rcases running_put hq with ⟨rfl, rfl⟩ | ⟨hj, hq⟩
          · exact hleft
          · exact hfree j q ((Function.update_of_ne hj ..).trans hq)
  · exact ⟨clean, h⟩

theorem Explained.start {op : Ω} (h : Explained program cells s clean) (hi : s.running i = none) :
    Explained program cells (s.put i ⟨op, program op, fun _ ↦ none, fun _ ↦ none⟩) clean := by
  refine ⟨h.sequential, ?_, ?_, ?_, ?_⟩
  · intro j q hq c hc
    rcases running_put hq with ⟨-, rfl⟩ | ⟨-, hq⟩
    · rfl
    · exact h.replay j q hq c hc
  · intro j k q p hjk hq hp m hm
    rcases running_put hq with ⟨-, rfl⟩ | ⟨-, hq⟩
    · exact absurd rfl hm
    · rcases running_put hp with ⟨-, rfl⟩ | ⟨-, hp⟩
      · rfl
      · exact h.exclusive j k q p hjk hq hp m hm
  · intro j q hq k v hv
    rcases running_put hq with ⟨-, rfl⟩ | ⟨-, hq⟩
    · cases hv
    · exact h.owned j q hq k v hv
  · intro k hfree
    apply h.free
    intro j q hq
    have hj : j ≠ i := by
      rintro rfl
      cases hi.symm.trans hq
    exact hfree j q ((running_put_of_ne hj).trans hq)

/-- An operation comes from one point to the next: it writes only cells that no
other one has written, and its rest goes on as it would have. -/
theorem Explained.advance (r' : Running V Ω α) (cells' : ∀ k, V k)
    (h : Explained program cells s clean) (hr : s.running i = some r) (hop : r'.op = r.op)
    (hreplay : ∀ c : ∀ k, V k, (∀ k v, r'.seen k = some v → c k = v) →
      (∀ k v, r.seen k = some v → c k = v) ∧
        r.rest.run (overlay c r.left) = r'.rest.run (overlay c r'.left))
    (hexclusive : ∀ j q, j ≠ i → s.running j = some q → ∀ k, r'.left k ≠ none → q.left k = none)
    (howned : ∀ k v, r'.left k = some v → cells' k = v ∧ r'.seen k = some (clean k))
    (hframe : ∀ k, r'.left k = none → r.left k = none ∧ cells' k = s.cells k) :
    Explained program cells ({ s with cells := cells' }.put i r') clean := by
  refine ⟨h.sequential, ?_, ?_, ?_, ?_⟩
  · intro j q hq c hc
    rcases running_put hq with ⟨rfl, rfl⟩ | ⟨-, hq⟩
    · obtain ⟨hold, hrest⟩ := hreplay c hc
      rw [hop, h.replay j r hr c hold, hrest]
    · exact h.replay j q hq c hc
  · intro j k q p hjk hq hp m hm
    rcases running_put hq with ⟨rfl, rfl⟩ | ⟨hj, hold⟩
    · rcases running_put hp with ⟨rfl, rfl⟩ | ⟨hk, hold⟩
      · exact absurd rfl hjk
      · exact hexclusive k p hk hold m hm
    · rcases running_put hp with ⟨rfl, rfl⟩ | ⟨-, hother⟩
      · by_contra hleft
        exact hm (hexclusive j q hj hold m hleft)
      · exact h.exclusive j k q p hjk hold hother m hm
  · intro j q hq k v hv
    rcases running_put hq with ⟨-, rfl⟩ | ⟨hj, hq⟩
    · exact howned k v hv
    · have hleft : r'.left k = none := by
        by_contra hleft
        cases hv.symm.trans (hexclusive j q hj hq k hleft)
      obtain ⟨hcell, hseen⟩ := h.owned j q hq k v hv
      exact ⟨(hframe k hleft).2.trans hcell, hseen⟩
  · intro k hfree
    obtain ⟨hleft, hcell⟩ := hframe k (hfree i r' running_put_self)
    refine hcell.trans (h.free k ?_)
    intro j q hq
    by_cases hj : j = i
    · subst hj
      obtain rfl := Option.some.inj (hr.symm.trans hq)
      exact hleft
    · exact hfree j q ((running_put_of_ne hj).trans hq)

omit [DecidableEq ι] in
/-- What an operation has left in its cells stays known after another access. -/
theorem Explained.owned_find (h : Explained program cells s clean) (hr : s.running i = some r)
    (value : V key) (rest : Program V α) {k : κ} {v : V k} (hv : r.left k = some v) :
    s.cells k = v ∧ (r.find key value rest).seen k = some (clean k) := by
  obtain ⟨hcell, hseen⟩ := h.owned i r hr k v hv
  refine ⟨hcell, ?_⟩
  by_cases hk : k = key
  · subst hk
    rw [seen_find_self, hseen, Option.some_or]
  · rwa [seen_find_of_ne _ _ hk]

theorem Explained.read {rest : V key → Program V α} (h : Explained program cells s clean)
    (hr : s.running i = some r) (hrest : r.rest = .read key rest) (hclear : Undisturbed s i r) :
    Explained program cells
      (s.put i (r.find key (s.cells key) (rest (s.cells key)))) clean := by
  apply h.advance (r.find key (s.cells key) (rest (s.cells key))) s.cells hr rfl
  · intro c hc
    obtain ⟨hview, hold⟩ := h.view hr hclear (rest (s.cells key)) hc
    refine ⟨hold, ?_⟩
    rw [hrest, Program.run_read, hview]
    rfl
  · intro j q hj hq k hk
    exact h.exclusive i j r q hj.symm hr hq k hk
  · intro k v hv
    exact h.owned_find hr _ _ hv
  · intro k hk
    exact ⟨hk, rfl⟩

theorem Explained.update {change : V key → V key} {rest : V key → Program V α}
    (h : Explained program cells s clean) (hr : s.running i = some r)
    (hrest : r.rest = .update key change rest) (hclear : Undisturbed s i r) :
    Explained program cells
      ({ s with cells := Function.update s.cells key (change (s.cells key)) }.put i
        ((r.find key (s.cells key) (rest (s.cells key))).leave key (change (s.cells key))))
      clean := by
  have htouch : r.Touches key := .inr (by rw [hrest])
  apply h.advance ((r.find key (s.cells key) (rest (s.cells key))).leave key (change (s.cells key)))
    (Function.update s.cells key (change (s.cells key))) hr rfl
  · intro c hc
    obtain ⟨hview, hold⟩ := h.view hr hclear (rest (s.cells key)) hc
    refine ⟨hold, ?_⟩
    rw [hrest, Program.run_update, hview, ← overlay_update]
    rfl
  · intro j q hj hq k hk
    by_cases hkey : k = key
    · subst hkey
      exact hclear.alone j q hj hq k htouch
    · rw [left_leave_of_ne _ hkey] at hk
      exact h.exclusive i j r q hj.symm hr hq k hk
  · intro k v hv
    by_cases hkey : k = key
    · subst hkey
      rw [left_leave_self] at hv
      rw [Function.update_self]
      refine ⟨Option.some.inj hv, ?_⟩
      obtain ⟨w, hw⟩ : ∃ w, (r.find k (s.cells k) (rest (s.cells k))).seen k = some w := by
        rw [seen_find_self]
        cases r.seen k with
        | none => exact ⟨s.cells k, rfl⟩
        | some w => exact ⟨w, rfl⟩
      rw [h.known hr hclear htouch (rest (s.cells k)) k w hw]
      exact hw
    · rw [left_leave_of_ne _ hkey] at hv
      rw [Function.update_of_ne hkey]
      exact h.owned_find hr (s.cells key) (rest (s.cells key)) hv
  · intro k hk
    by_cases hkey : k = key
    · subst hkey
      rw [left_leave_self] at hk
      cases hk
    · rw [left_leave_of_ne _ hkey] at hk
      exact ⟨hk, Function.update_of_ne hkey ..⟩

/-- A step in which an operation starts or makes an access undisturbed. -/
theorem Explained.step {event : Event Ω ι} (h : Explained program cells s clean)
    (hclear : Clear s event) (hstep : Step program s event t) :
    ∃ clean', Explained program cells t clean' := by
  cases event with
  | start i op =>
      rw [Step, next] at hstep
      split at hstep
      · cases hstep
      · rename_i hi
        obtain rfl := Option.some.inj hstep
        refine (h.start hi).settle ?_
        rintro k v ⟨⟩
  | access i =>
      rw [Step, next] at hstep
      split at hstep
      · cases hstep
      · rename_i r hr
        have hundisturbed := hclear r hr
        split at hstep
        · cases hstep
        · rename_i key rest hrest
          obtain rfl := Option.some.inj hstep
          apply (h.read hr hrest hundisturbed).settle
          exact h.known hr hundisturbed (.inr (by rw [hrest])) (rest (s.cells key))
        · rename_i key change rest hrest
          obtain rfl := Option.some.inj hstep
          apply (h.update hr hrest hundisturbed).settle
          exact h.known hr hundisturbed (.inr (by rw [hrest])) (rest (s.cells key))

/-- Some sequence of the ended operations explains the state. -/
def Explicable (program : Ω → Program V α) (cells : ∀ k, V k) (s : System V Ω ι α) : Prop :=
  ∃ clean, Explained program cells s clean

/-- A run of undisturbed accesses has the results and the cells of a sequence. -/
theorem explicable_of_run (h : Transition.Run (Step program) Clear (.fresh cells) s) :
    Explicable program cells s := by
  have hfresh : Explicable program cells (.fresh cells : System V Ω ι α) :=
    ⟨cells, explained_fresh program cells⟩
  refine Transition.Run.preserves ?_ h hfresh
  rintro s event t ⟨clean, hs⟩ hclear hstep
  exact hs.step hclear hstep

/-- The last cell an operation writes is in nobody's hands while it runs. -/
def Unheld (key : κ) (s : System V Ω ι α) : Prop :=
  ∀ i r, s.running i = some r → r.rest.WritesLast key ∧ r.left key = none

omit [DecidableEq κ] in
theorem Unheld.settle (h : Unheld key s)
    (hr : (∃ result, r.rest = .done result) ∨ (r.rest.WritesLast key ∧ r.left key = none)) :
    Unheld key (s.settle i r) := by
  intro j q hq
  rw [System.settle] at hq
  split at hq
  · exact h j q (running_ended hq).2
  · rename_i hnot
    rcases running_put hq with ⟨-, rfl⟩ | ⟨-, hq⟩
    · exact hr.resolve_left fun ⟨result, hdone⟩ ↦ hnot result hdone
    · exact h j q hq

theorem Unheld.step {event : Event Ω ι} (hlast : ∀ op, (program op).WritesLast key)
    (h : Unheld key s) (hstep : Step program s event t) : Unheld key t := by
  cases event with
  | start i op =>
      rw [Step, next] at hstep
      split at hstep
      · cases hstep
      · obtain rfl := Option.some.inj hstep
        exact h.settle (.inr ⟨hlast op, rfl⟩)
  | access i =>
      rw [Step, next] at hstep
      split at hstep
      · cases hstep
      · rename_i r hr
        obtain ⟨hwrites, hleft⟩ := h i r hr
        split at hstep
        · cases hstep
        · rename_i key' rest hrest
          obtain rfl := Option.some.inj hstep
          rw [hrest] at hwrites
          exact h.settle (.inr ⟨hwrites _, hleft⟩)
        · rename_i key' change rest hrest
          obtain rfl := Option.some.inj hstep
          rw [hrest] at hwrites
          refine Unheld.settle (fun j q hq ↦ h j q hq) ?_
          by_cases hkey : key' = key
          · exact .inl (hwrites.1 hkey _)
          · refine .inr ⟨hwrites.2 _, ?_⟩
            rw [left_leave_of_ne _ (Ne.symm hkey)]
            exact hleft

/-- A cell that every operation writes last is at all times what the ended
operations have left in it. -/
theorem cell_eq_of_run (hlast : ∀ op, (program op).WritesLast key)
    (h : Transition.Run (Step program) Clear (.fresh cells) s)
    (hs : Explained program cells s clean) : s.cells key = clean key := by
  have hunheld : Unheld key s := by
    refine h.preserves ?_ ?_
    · intro s event t hs _ hstep
      exact hs.step hlast hstep
    · rintro i r ⟨⟩
  exact hs.free key fun i r hr ↦ (hunheld i r hr).2

end Serial
