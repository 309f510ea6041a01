import Mathlib.Algebra.GroupWithZero.Nat
import Mathlib.Data.List.Nodup
import Mathlib.Data.List.Perm.Subperm

/-!
# Tables with a primary key

A table is the list of its rows in the order they were inserted, no two of
them with the same key.  Inserting a row with a key that is taken replaces the
row in its place.
-/

variable {κ ρ : Type*}

/-- Rows with distinct keys. -/
structure Table (key : ρ → κ) where
  rows : List ρ
  nodup : (rows.map key).Nodup

namespace Table

variable {key : ρ → κ}

theorem ext_rows {t t' : Table key} (h : t.rows = t'.rows) : t = t' := by
  cases t
  cases t'
  simp_all

def empty (key : ρ → κ) : Table key := ⟨[], List.nodup_nil⟩

/-- If one of two tables of the same size has the keys of the other, then the
other has its keys. -/
theorem keys_of_length_eq {ρ' : Type*} {key' : ρ' → κ} {t : Table key} {u : Table key'}
    (hlength : t.rows.length = u.rows.length)
    (h : ∀ r ∈ t.rows, ∃ r' ∈ u.rows, key' r' = key r) :
    ∀ r' ∈ u.rows, ∃ r ∈ t.rows, key r = key' r' := by
  have hsubset : t.rows.map key ⊆ u.rows.map key' := by
    intro k hk
    obtain ⟨r, hr, rfl⟩ := List.mem_map.mp hk
    obtain ⟨r', hr', heq⟩ := h r hr
    exact List.mem_map.mpr ⟨r', hr', heq⟩
  have hperm : (t.rows.map key).Perm (u.rows.map key') :=
    (List.subperm_of_subset t.nodup hsubset).perm_of_length_le (by simp [hlength])
  intro r' hr'
  exact List.mem_map.mp (hperm.mem_iff.mpr (List.mem_map.mpr ⟨r', hr', rfl⟩))

variable [DecidableEq κ]

/-- The row with the given key. -/
def get (t : Table key) (k : κ) : Option ρ := t.rows.find? fun r ↦ key r == k

theorem get_eq_some_iff {t : Table key} {k : κ} {r : ρ} :
    t.get k = some r ↔ r ∈ t.rows ∧ key r = k := by
  constructor
  · intro h
    exact ⟨List.mem_of_find?_eq_some h, by simpa using List.find?_some h⟩
  · rintro ⟨hr, rfl⟩
    cases hfind : t.get (key r) with
    | none =>
        have := List.find?_eq_none.mp hfind r hr
        simp at this
    | some r' =>
        have hr' := List.mem_of_find?_eq_some hfind
        have hkey : key r' = key r := by simpa using List.find?_some hfind
        exact congrArg some (List.inj_on_of_nodup_map t.nodup hr' hr hkey)

theorem get_eq_none_iff {t : Table key} {k : κ} : t.get k = none ↔ ∀ r ∈ t.rows, key r ≠ k := by
  simp [get, List.find?_eq_none]

theorem key_of_get {t : Table key} {k : κ} {r : ρ} (h : t.get k = some r) : key r = k :=
  (Iff.mp get_eq_some_iff h).2

@[simp] theorem get_empty (k : κ) : (empty key).get k = none := rfl

/-- Two tables with the same rows give the same answers. -/
theorem get_congr {t t' : Table key} {k : κ}
    (h : ∀ r, key r = k → (r ∈ t.rows ↔ r ∈ t'.rows)) : t.get k = t'.get k := by
  ext r
  rw [get_eq_some_iff, get_eq_some_iff]
  exact ⟨fun ⟨hr, hk⟩ ↦ ⟨(h r hk).mp hr, hk⟩, fun ⟨hr, hk⟩ ↦ ⟨(h r hk).mpr hr, hk⟩⟩

/-! ## Inserting -/

/-- Replace the row with the key of `r`, or append `r`. -/
def putRow (key : ρ → κ) (r : ρ) : List ρ → List ρ
  | [] => [r]
  | x :: rest => if key x = key r then r :: rest else x :: putRow key r rest

theorem mem_putRow_of_nodup {r x : ρ} {rows : List ρ} (h : (rows.map key).Nodup) :
    x ∈ putRow key r rows ↔ x = r ∨ (x ∈ rows ∧ key x ≠ key r) := by
  induction rows with
  | nil => simp [putRow]
  | cons y rest ih =>
      rw [List.map_cons, List.nodup_cons] at h
      rw [putRow]
      split_ifs with hy
      · have hrest : ∀ z ∈ rest, key z ≠ key r := fun z hz heq ↦
          h.1 (List.mem_map.mpr ⟨z, hz, heq.trans hy.symm⟩)
        simp only [List.mem_cons]
        constructor
        · rintro (rfl | hx)
          · exact Or.inl rfl
          · exact Or.inr ⟨Or.inr hx, hrest x hx⟩
        · rintro (rfl | ⟨rfl | hx, hne⟩)
          · exact Or.inl rfl
          · exact absurd hy hne
          · exact Or.inr hx
      · rw [List.mem_cons, ih h.2, List.mem_cons]
        constructor
        · rintro (rfl | rfl | ⟨hx, hne⟩)
          · exact Or.inr ⟨Or.inl rfl, hy⟩
          · exact Or.inl rfl
          · exact Or.inr ⟨Or.inr hx, hne⟩
        · rintro (rfl | ⟨rfl | hx, hne⟩)
          · exact Or.inr (Or.inl rfl)
          · exact Or.inl rfl
          · exact Or.inr (Or.inr ⟨hx, hne⟩)

theorem nodup_putRow {r : ρ} {rows : List ρ} (h : (rows.map key).Nodup) :
    ((putRow key r rows).map key).Nodup := by
  induction rows with
  | nil => simp [putRow]
  | cons y rest ih =>
      have hcons := h
      rw [List.map_cons, List.nodup_cons] at h
      rw [putRow]
      split_ifs with hy
      · rwa [List.map_cons, ← hy, ← List.map_cons]
      · rw [List.map_cons, List.nodup_cons]
        refine ⟨fun hmem ↦ ?_, ih h.2⟩
        obtain ⟨z, hz, heq⟩ := List.mem_map.mp hmem
        rcases (mem_putRow_of_nodup h.2).mp hz with rfl | ⟨hz, -⟩
        · exact hy heq.symm
        · exact h.1 (List.mem_map.mpr ⟨z, hz, heq⟩)

/-- `INSERT … ON CONFLICT DO UPDATE` of a whole row. -/
def put (t : Table key) (r : ρ) : Table key := ⟨putRow key r t.rows, nodup_putRow t.nodup⟩

theorem mem_put {t : Table key} {r x : ρ} :
    x ∈ (t.put r).rows ↔ x = r ∨ (x ∈ t.rows ∧ key x ≠ key r) :=
  mem_putRow_of_nodup t.nodup

@[simp] theorem get_put_self (t : Table key) (r : ρ) : (t.put r).get (key r) = some r :=
  Iff.mpr get_eq_some_iff ⟨Iff.mpr mem_put (Or.inl rfl), rfl⟩

theorem get_put_of_ne {t : Table key} {r : ρ} {k : κ} (h : k ≠ key r) :
    (t.put r).get k = t.get k := by
  refine get_congr fun x hx ↦ ?_
  rw [mem_put]
  constructor
  · rintro (rfl | ⟨hmem, -⟩)
    · exact absurd hx.symm h
    · exact hmem
  · exact fun hmem ↦ Or.inr ⟨hmem, fun heq ↦ h (hx.symm.trans heq)⟩

theorem get_put (t : Table key) (r : ρ) (k : κ) :
    (t.put r).get k = if k = key r then some r else t.get k := by
  split_ifs with h
  · rw [h, get_put_self]
  · exact get_put_of_ne h

/-- A row with a new key comes last. -/
theorem rows_put_of_get_eq_none {t : Table key} {r : ρ} (h : t.get (key r) = none) :
    (t.put r).rows = t.rows ++ [r] := by
  obtain ⟨rows, hnodup⟩ := t
  have hfree : ∀ x ∈ rows, key x ≠ key r := Iff.mp get_eq_none_iff h
  simp only [put]
  clear h hnodup
  induction rows with
  | nil => rfl
  | cons x rest ih =>
      rw [List.forall_mem_cons] at hfree
      rw [putRow, if_neg hfree.1, ih hfree.2]
      rfl

/-- A sum over the rows after an insert. -/
theorem sum_put (t : Table key) (r : ρ) (f : ρ → ℕ) :
    ((t.put r).rows.map f).sum + ((t.get (key r)).map f).getD 0 = (t.rows.map f).sum + f r := by
  obtain ⟨rows, hnodup⟩ := t
  simp only [put, get]
  clear hnodup
  induction rows with
  | nil => simp [putRow]
  | cons x rest ih =>
      by_cases hx : key x = key r
      · rw [putRow, if_pos hx, List.find?_cons_of_pos (by simpa using hx)]
        simp only [List.map_cons, List.sum_cons, Option.map_some, Option.getD_some]
        omega
      · rw [putRow, if_neg hx, List.find?_cons_of_neg (by simpa using hx)]
        simp only [List.map_cons, List.sum_cons]
        omega

/-- Replacing a row keeps the size. -/
theorem length_put_of_get_eq_some {t : Table key} {r r' : ρ} (h : t.get (key r) = some r') :
    (t.put r).rows.length = t.rows.length := by
  have hsum := sum_put t r fun _ ↦ 1
  rw [h] at hsum
  simpa using hsum

theorem put_self {t : Table key} {r : ρ} (h : t.get (key r) = some r) : t.put r = t := by
  obtain ⟨rows, hnodup⟩ := t
  apply ext_rows
  simp only [put, get] at h ⊢
  clear hnodup
  induction rows with
  | nil => cases h
  | cons x rest ih =>
      rw [putRow]
      by_cases hx : key x = key r
      · rw [List.find?_cons_of_pos (by simpa using hx)] at h
        rw [if_pos hx, Option.some.inj h]
      · rw [List.find?_cons_of_neg (by simpa using hx)] at h
        rw [if_neg hx, ih h]

/-! ## Deleting and updating -/

/-- `DELETE … WHERE key = k`. -/
def erase (t : Table key) (k : κ) : Table key :=
  ⟨t.rows.filter fun r ↦ key r != k, t.nodup.sublist (List.filter_sublist.map key)⟩

theorem mem_erase {t : Table key} {k : κ} {x : ρ} :
    x ∈ (t.erase k).rows ↔ x ∈ t.rows ∧ key x ≠ k := by
  simp [erase]

theorem get_erase (t : Table key) (k k' : κ) :
    (t.erase k).get k' = if k' = k then none else t.get k' := by
  split_ifs with h
  · rw [get_eq_none_iff]
    exact fun r hr ↦ h ▸ (Iff.mp mem_erase hr).2
  · refine get_congr fun x hx ↦ ?_
    rw [mem_erase]
    exact ⟨And.left, fun hmem ↦ ⟨hmem, fun heq ↦ h (hx.symm.trans heq)⟩⟩

/-- A sum over the rows after a deletion. -/
theorem sum_erase (t : Table key) (k : κ) (f : ρ → ℕ) :
    ((t.erase k).rows.map f).sum + ((t.get k).map f).getD 0 = (t.rows.map f).sum := by
  obtain ⟨rows, hnodup⟩ := t
  simp only [erase, get]
  induction rows with
  | nil => simp
  | cons x rest ih =>
      rw [List.map_cons, List.nodup_cons] at hnodup
      by_cases hx : key x = k
      · have hrest : rest.filter (fun r ↦ key r != k) = rest := by
          refine List.filter_eq_self.mpr fun y hy ↦ ?_
          simpa using fun heq : key y = k ↦
            hnodup.1 (List.mem_map.mpr ⟨y, hy, heq.trans hx.symm⟩)
        rw [List.filter_cons_of_neg (by simpa using hx), List.find?_cons_of_pos (by simpa using hx),
          hrest]
        simp [Nat.add_comm]
      · rw [List.filter_cons_of_pos (by simpa using hx), List.find?_cons_of_neg (by simpa using hx)]
        simp only [List.map_cons, List.sum_cons, ← ih hnodup.2]
        omega

theorem erase_of_get_eq_none {t : Table key} {k : κ} (h : t.get k = none) : t.erase k = t := by
  apply ext_rows
  apply List.filter_eq_self.mpr
  simpa using Iff.mp get_eq_none_iff h

/-- `DELETE` of the rows that do not meet a condition. -/
def keep (t : Table key) (p : ρ → Bool) : Table key :=
  ⟨t.rows.filter p, t.nodup.sublist (List.filter_sublist.map key)⟩

omit [DecidableEq κ] in
theorem mem_keep {t : Table key} {p : ρ → Bool} {x : ρ} :
    x ∈ (t.keep p).rows ↔ x ∈ t.rows ∧ p x = true := by
  simp [keep]

omit [DecidableEq κ] in
theorem keep_eq_self {t : Table key} {p : ρ → Bool} (h : ∀ r ∈ t.rows, p r = true) :
    t.keep p = t :=
  ext_rows (List.filter_eq_self.mpr h)

/-- `UPDATE` of all rows by a function that keeps the key. -/
def modify (t : Table key) (f : ρ → ρ) (hf : ∀ r, key (f r) = key r) : Table key :=
  ⟨t.rows.map f, by
    rw [List.map_map, show key ∘ f = key from funext hf]
    exact t.nodup⟩

theorem get_modify (t : Table key) (f : ρ → ρ) (hf : ∀ r, key (f r) = key r) (k : κ) :
    (t.modify f hf).get k = (t.get k).map f := by
  simp only [get, modify, List.find?_map, Function.comp_def, hf]

omit [DecidableEq κ] in
theorem modify_eq_self {t : Table key} {f : ρ → ρ} {hf : ∀ r, key (f r) = key r}
    (h : ∀ r ∈ t.rows, f r = r) : t.modify f hf = t := by
  apply ext_rows
  exact (List.map_congr_left h).trans (List.map_id' t.rows)

end Table
