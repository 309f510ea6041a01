import Mathlib.Data.List.Dedup
import Mathlib.Data.List.Induction
import Mathlib.Data.List.Sort
import Mathlib.Data.Prod.Lex
import Mathlib.Order.Lattice

/-!
# The greatest elements of a list

A bounded priority queue keeps the greatest elements of what it is given, one
after the other.  What it keeps is what a full sort puts first.
-/

namespace List

variable {β : Type*} {r : β → β → Prop} [DecidableRel r]

/-- A sort puts first the part of a list that precedes the rest of it. -/
theorem take_insertionSort_of_split [Std.Total r] [IsTrans β r] [Std.Antisymm r]
    {l first rest : List β} (hperm : l.Perm (first ++ rest))
    (hsplit : ∀ a ∈ first, ∀ b ∈ rest, r a b) :
    (l.insertionSort r).take first.length = first.insertionSort r := by
  have hsorted : (first.insertionSort r ++ rest.insertionSort r).Pairwise r := by
    refine List.pairwise_append.mpr ⟨pairwise_insertionSort _ _, pairwise_insertionSort _ _, ?_⟩
    intro a ha b hb
    exact hsplit a ((mem_insertionSort _).mp ha) b ((mem_insertionSort _).mp hb)
  have hall : (first.insertionSort r ++ rest.insertionSort r).Perm (l.insertionSort r) := by
    refine .trans (.append (perm_insertionSort _ _) (perm_insertionSort _ _)) ?_
    exact hperm.symm.trans (perm_insertionSort _ _).symm
  have heq := hall.eq_of_pairwise' hsorted (pairwise_insertionSort _ _)
  rw [← heq, List.take_append_of_le_length (by rw [length_insertionSort]),
    List.take_of_length_le (by rw [length_insertionSort])]

/-! ## The place of an element in a sort -/

/-- How many elements a stable sort puts before one of them. -/
def sortRank (r : β → β → Prop) [DecidableRel r] (before : List β) (a : β) (after : List β) : ℕ :=
  (before.filter fun b ↦ r b a).length + (after.filter fun b ↦ ¬r a b).length

/-- In a sorted list nothing comes before an element that its first one follows. -/
theorem filter_eq_nil_of_rel [IsTrans β r] {x b : β} {l : List β} (h : (b :: l).Pairwise r)
    (hx : r x b) : ((b :: l).filter fun c ↦ ¬r x c) = [] := by
  rw [pairwise_cons] at h
  refine filter_eq_nil_iff.mpr (forall_mem_cons.mpr ⟨by simpa using hx, fun c hc ↦ ?_⟩)
  simpa using IsTrans.trans x b c hx (h.1 c hc)

theorem exists_orderedInsert_eq [IsTrans β r] (x : β) {l : List β} (h : l.Pairwise r) :
    ∃ u v, l.orderedInsert r x = u ++ x :: v ∧ u.length = (l.filter fun b ↦ ¬r x b).length := by
  induction l with
  | nil => exact ⟨[], [], rfl, rfl⟩
  | cons b l ih =>
      by_cases hx : r x b
      · refine ⟨[], b :: l, by simp [hx], ?_⟩
        rw [filter_eq_nil_of_rel h hx]
      · obtain ⟨u, v, hinsert, hlength⟩ := ih (pairwise_cons.mp h).2
        refine ⟨b :: u, v, ?_, ?_⟩
        · rw [orderedInsert, if_neg hx, hinsert, cons_append]
        · rw [filter_cons_of_pos (by simpa using hx), length_cons, length_cons, hlength]

/-- An element that precedes a given one is inserted somewhere before it. -/
theorem orderedInsert_append_cons_of_rel {x a : β} (h : r x a) (u v : List β) :
    (u ++ a :: v).orderedInsert r x = u.orderedInsert r x ++ a :: v := by
  induction u with
  | nil => simp [h]
  | cons b u ih =>
      rw [cons_append, orderedInsert, orderedInsert]
      split
      · rfl
      · rw [ih, cons_append]

theorem orderedInsert_append_cons_of_not_rel {x a : β} {u : List β} (h : ¬r x a)
    (hu : ∀ b ∈ u, ¬r x b) (v : List β) :
    (u ++ a :: v).orderedInsert r x = u ++ a :: v.orderedInsert r x := by
  induction u with
  | nil => simp [h]
  | cons b u ih =>
      rw [forall_mem_cons] at hu
      rw [cons_append, orderedInsert, if_neg hu.1, ih hu.2, cons_append]

/-- An element comes after as many others as its rank says. -/
theorem exists_insertionSort_eq [Std.Total r] [IsTrans β r] (before : List β) (a : β)
    (after : List β) : ∃ u v, (before ++ a :: after).insertionSort r = u ++ a :: v ∧
      u.length = sortRank r before a after := by
  induction before with
  | nil =>
      obtain ⟨u, v, hinsert, hlength⟩ :=
        exists_orderedInsert_eq a (pairwise_insertionSort r after)
      refine ⟨u, v, hinsert, ?_⟩
      rw [hlength, sortRank, filter_nil, length_nil, Nat.zero_add]
      exact ((perm_insertionSort r after).filter _).length_eq
  | cons x before ih =>
      obtain ⟨u, v, hsort, hlength⟩ := ih
      rw [cons_append, insertionSort_cons, hsort]
      by_cases hx : r x a
      · refine ⟨u.orderedInsert r x, v, orderedInsert_append_cons_of_rel hx u v, ?_⟩
        rw [orderedInsert_length, hlength, sortRank, sortRank, filter_cons_of_pos (by simpa using hx),
          length_cons]
        omega
      · refine ⟨u, v.orderedInsert r x, orderedInsert_append_cons_of_not_rel hx ?_ v, ?_⟩
        · intro b hb hxb
          have hsorted := pairwise_insertionSort r (before ++ a :: after)
          rw [hsort, pairwise_append] at hsorted
          exact hx (IsTrans.trans x b a hxb (hsorted.2.2 b hb a mem_cons_self))
        · rw [hlength, sortRank, sortRank, filter_cons_of_neg (by simpa using hx)]

/-- What stands at a place after an insertion was inserted there or stood there before. -/
theorem cases_of_orderedInsert_eq [IsTrans β r] {x a : β} {l u v : List β} (hsorted : l.Pairwise r)
    (h : l.orderedInsert r x = u ++ a :: v) :
    (a = x ∧ u.length = (l.filter fun b ↦ ¬r x b).length) ∨
      ∃ u' v', l = u' ++ a :: v' ∧ u.length = u'.length + if r x a then 1 else 0 := by
  induction l generalizing u with
  | nil =>
      rcases u with _ | ⟨c, u⟩
      · exact .inl ⟨(cons.inj h).1.symm, rfl⟩
      · exact absurd (cons.inj h).2.symm (append_ne_nil_of_right_ne_nil u (cons_ne_nil a v))
  | cons b l ih =>
      have hb := pairwise_cons.mp hsorted
      by_cases hx : r x b
      · rw [orderedInsert, if_pos hx] at h
        rcases u with _ | ⟨c, u⟩
        · exact .inl ⟨(cons.inj h).1.symm, by rw [filter_eq_nil_of_rel hsorted hx]⟩
        · obtain ⟨rfl, htail⟩ := cons.inj h
          have hxa : r x a := by
            have hmem : a ∈ b :: l := htail ▸ mem_append_right u mem_cons_self
            rcases mem_cons.mp hmem with rfl | hmem
            · exact hx
            · exact IsTrans.trans x b a hx (hb.1 a hmem)
          exact .inr ⟨u, v, htail, by rw [if_pos hxa, length_cons]⟩
      · rw [orderedInsert, if_neg hx] at h
        rcases u with _ | ⟨c, u⟩
        · obtain ⟨rfl, h⟩ := cons.inj h
          exact .inr ⟨[], l, rfl, by rw [if_neg hx]; rfl⟩
        · obtain ⟨rfl, htail⟩ := cons.inj h
          rcases ih hb.2 htail with ⟨rfl, hlength⟩ | ⟨u', v', rfl, hlength⟩
          · refine .inl ⟨rfl, ?_⟩
            rw [filter_cons_of_pos (by simpa using hx), length_cons, length_cons, hlength]
          · refine .inr ⟨b :: u', v', rfl, ?_⟩
            rw [length_cons, length_cons, hlength]
            omega

/-- What a sort puts somewhere has the rank of this place. -/
theorem exists_eq_of_insertionSort_eq [Std.Total r] [IsTrans β r] {l u v : List β} {a : β}
    (h : l.insertionSort r = u ++ a :: v) :
    ∃ before after, l = before ++ a :: after ∧ sortRank r before a after = u.length := by
  induction l generalizing u v with
  | nil => exact absurd h.symm (append_ne_nil_of_right_ne_nil u (cons_ne_nil a v))
  | cons x l ih =>
      rw [insertionSort_cons] at h
      rcases cases_of_orderedInsert_eq (pairwise_insertionSort r l) h with
        ⟨rfl, hlength⟩ | ⟨u', v', hsort, hlength⟩
      · refine ⟨[], l, rfl, ?_⟩
        rw [hlength, sortRank, filter_nil, length_nil, Nat.zero_add]
        exact ((perm_insertionSort r l).filter _).symm.length_eq
      · obtain ⟨before, after, rfl, hrank⟩ := ih hsort
        refine ⟨x :: before, after, rfl, ?_⟩
        rw [hlength, ← hrank, sortRank, sortRank]
        by_cases hx : r x a
        · rw [filter_cons_of_pos (by simpa using hx), if_pos hx, length_cons]
          omega
        · rw [filter_cons_of_neg (by simpa using hx), if_neg hx, Nat.add_zero]

theorem mem_take_insertionSort_iff [Std.Total r] [IsTrans β r] {l : List β} {n : ℕ} {a : β} :
    a ∈ (l.insertionSort r).take n ↔
      ∃ before after, l = before ++ a :: after ∧ sortRank r before a after < n := by
  constructor
  · intro h
    obtain ⟨u, v, huv⟩ := append_of_mem h
    have hsort : l.insertionSort r = u ++ a :: (v ++ (l.insertionSort r).drop n) := by
      calc l.insertionSort r = (l.insertionSort r).take n ++ (l.insertionSort r).drop n :=
            (take_append_drop n _).symm
        _ = _ := by rw [huv, append_assoc, cons_append]
    obtain ⟨before, after, hl, hrank⟩ := exists_eq_of_insertionSort_eq hsort
    refine ⟨before, after, hl, ?_⟩
    have hlength := congrArg length huv
    rw [length_take, length_append, length_cons] at hlength
    omega
  · rintro ⟨before, after, rfl, hrank⟩
    obtain ⟨u, v, hsort, hlength⟩ := @exists_insertionSort_eq _ r _ _ _ before a after
    rw [hsort, take_append, mem_append]
    refine .inr ?_
    obtain ⟨m, hm⟩ := Nat.exists_eq_add_of_lt (hlength.trans_lt hrank)
    rw [show n - u.length = m + 1 by omega, take_succ_cons]
    exact mem_cons_self

/-! ## The first distinct elements -/

variable {α : Type*} [DecidableEq α]

/-- Add an element to a set of at most `n`; a full set takes no more. -/
def insertBelow (n : ℕ) (kept : List α) (a : α) : List α :=
  if n ≤ kept.length then kept else kept.insert a

theorem foldl_insertBelow_full {n : ℕ} {kept : List α} (h : n ≤ kept.length) (l : List α) :
    l.foldl (insertBelow n) kept = kept := by
  induction l with
  | nil => rfl
  | cons a rest ih => rw [foldl_cons, insertBelow, if_pos h, ih]

theorem nodup_foldl_insertBelow (n : ℕ) (l : List α) : (l.foldl (insertBelow n) []).Nodup := by
  induction l using List.reverseRecOn with
  | nil => exact nodup_nil
  | append_singleton l a ih =>
      rw [foldl_append, foldl_cons, foldl_nil, insertBelow]
      split
      next => exact ih
      next => exact ih.insert

theorem foldl_insertBelow_subset (n : ℕ) (l : List α) : l.foldl (insertBelow n) [] ⊆ l := by
  induction l using List.reverseRecOn with
  | nil => exact nil_subset []
  | append_singleton l a ih =>
      rw [foldl_append, foldl_cons, foldl_nil, insertBelow]
      intro b hb
      split at hb
      next => exact mem_append_left _ (ih hb)
      next =>
        rcases mem_insert_iff.mp hb with rfl | hb
        · exact mem_append_right _ mem_cons_self
        · exact mem_append_left _ (ih hb)

/-- A set with room left has taken everything. -/
theorem subset_foldl_insertBelow {n : ℕ} {l : List α}
    (h : (l.foldl (insertBelow n) []).length < n) : l ⊆ l.foldl (insertBelow n) [] := by
  induction l using List.reverseRecOn with
  | nil => exact nil_subset _
  | append_singleton l a ih =>
      rw [foldl_append, foldl_cons, foldl_nil, insertBelow] at h ⊢
      split at h
      next hfull => omega
      next hroom =>
        rw [if_neg hroom]
        intro b hb
        rcases mem_append.mp hb with hb | hb
        · exact mem_insert_of_mem (ih (by omega) hb)
        · rw [mem_singleton.mp hb]
          exact mem_insert_self

theorem length_foldl_insertBelow_le (n : ℕ) (l : List α) :
    (l.foldl (insertBelow n) []).length ≤ l.dedup.length := by
  apply Subperm.length_le
  refine subperm_of_subset (nodup_foldl_insertBelow n l) ?_
  exact List.Subset.trans (foldl_insertBelow_subset n l) (subset_dedup l)

theorem length_foldl_insertBelow (n : ℕ) (l : List α) :
    (l.foldl (insertBelow n) []).length ≤ n := by
  induction l using List.reverseRecOn with
  | nil => exact Nat.zero_le n
  | append_singleton l a ih =>
      rw [foldl_append, foldl_cons, foldl_nil, insertBelow]
      split
      next => exact ih
      next hroom =>
        rw [length_insert]
        split <;> omega

theorem length_foldl_insertBelow_of_lt {n : ℕ} {l : List α} (h : n < l.dedup.length) :
    (l.foldl (insertBelow n) []).length = n := by
  refine le_antisymm (length_foldl_insertBelow n l) (not_lt.mp fun hless ↦ ?_)
  have hsubset := List.Subset.trans (dedup_subset l) (subset_foldl_insertBelow hless)
  have hle := (subperm_of_subset (nodup_dedup l) hsubset).length_le
  omega

/-- An element is taken if, somewhere in the list, fewer than `n` others have
come before it. -/
theorem mem_foldl_insertBelow {n : ℕ} {l : List α} {a : α} :
    a ∈ l.foldl (insertBelow n) [] ↔
      ∃ before after, l = before ++ a :: after ∧ before.dedup.length < n := by
  constructor
  · intro h
    induction l using List.reverseRecOn with
    | nil => cases h
    | append_singleton l b ih =>
        have hold : a ∈ l.foldl (insertBelow n) [] →
            ∃ before after, l ++ [b] = before ++ a :: after ∧ before.dedup.length < n := by
          intro hmem
          obtain ⟨before, after, rfl, hless⟩ := ih hmem
          exact ⟨before, after ++ [b], by simp, hless⟩
        rw [foldl_append, foldl_cons, foldl_nil, insertBelow] at h
        split at h
        next => exact hold h
        next hroom =>
          rcases mem_insert_iff.mp h with rfl | h
          · refine ⟨l, [], rfl, ?_⟩
            have hall := subset_foldl_insertBelow (not_le.mp hroom)
            have hle : l.dedup.length ≤ (l.foldl (insertBelow n) []).length :=
              (subperm_of_subset (nodup_dedup l)
                (List.Subset.trans (dedup_subset l) hall)).length_le
            omega
          · exact hold h
  · rintro ⟨before, after, rfl, hless⟩
    have hroom := (length_foldl_insertBelow_le n before).trans_lt hless
    have hkeeps : ∀ (rest : List α) (kept : List α), a ∈ kept →
        a ∈ rest.foldl (insertBelow n) kept := by
      intro rest
      induction rest with
      | nil => exact fun kept hmem ↦ hmem
      | cons b rest ih =>
          intro kept hmem
          rw [foldl_cons]
          apply ih
          rw [insertBelow]
          split
          next => exact hmem
          next => exact mem_insert_of_mem hmem
    rw [foldl_append, foldl_cons]
    apply hkeeps
    rw [insertBelow, if_neg (not_le.mpr hroom)]
    exact mem_insert_self

/-- All elements are taken where there are no more than `n`. -/
theorem mem_foldl_insertBelow_of_le {n : ℕ} {l : List α} (h : l.dedup.length ≤ n) {a : α}
    (ha : a ∈ l) : a ∈ l.foldl (insertBelow n) [] := by
  obtain ⟨before, after, rfl, hnew⟩ := eq_append_cons_of_mem ha
  refine mem_foldl_insertBelow.mpr ⟨before, after, rfl, lt_of_lt_of_le ?_ h⟩
  have hnodup : (a :: before.dedup).Nodup :=
    nodup_cons.mpr ⟨fun hmem ↦ hnew (mem_dedup.mp hmem), nodup_dedup before⟩
  have hsubset : a :: before.dedup ⊆ (before ++ a :: after).dedup := by
    intro b hb
    rw [mem_dedup, mem_append]
    rcases mem_cons.mp hb with rfl | hb
    · exact .inr mem_cons_self
    · exact .inl (mem_dedup.mp hb)
  exact (subperm_of_subset hnodup hsubset).length_le

end List

/-! ## The queue -/

namespace TopK

variable {β : Type*} [LinearOrder β]

/-- Add an element to a queue of at most `k`, given in ascending order: the
least one makes room if it is less. -/
def push (k : ℕ) (best : List β) (x : β) : List β :=
  if best.length < k then best.orderedInsert (· ≤ ·) x
  else
    match best with
    | least :: others => if least < x then others.orderedInsert (· ≤ ·) x else best
    | [] => best

/-- What is kept precedes nothing of what is not. -/
structure Splits (k : ℕ) (l best rest : List β) : Prop where
  perm : l.Perm (best ++ rest)
  sorted : best.Pairwise (· ≤ ·)
  length : best.length = min k l.length
  greatest : ∀ a ∈ best, ∀ b ∈ rest, b ≤ a

theorem Splits.nil (k : ℕ) : Splits k ([] : List β) [] [] :=
  ⟨.nil, .nil, by simp, by simp⟩

/-- One element more. -/
theorem Splits.push {k : ℕ} {l best rest : List β} (h : Splits k l best rest) (x : β) :
    ∃ rest', Splits k (l ++ [x]) (TopK.push k best x) rest' := by
  have hlength := h.length
  have hcount := h.perm.length_eq
  rw [List.length_append] at hcount
  unfold TopK.push
  split
  next hroom =>
      have hrest : rest = [] := List.eq_nil_of_length_eq_zero (by omega)
      subst hrest
      refine ⟨[], ?_, h.sorted.orderedInsert x best, ?_, by simp⟩
      · rw [List.append_nil]
        refine .trans ?_ (List.perm_orderedInsert _ _ _).symm
        refine (List.perm_append_singleton x l).trans (.cons x ?_)
        simpa using h.perm
      · rw [List.orderedInsert_length, List.length_append, List.length_singleton]
        omega
  next hfull =>
      split
      next least others =>
          have hleast := List.pairwise_cons.mp h.sorted
          have hmin : ∀ b ∈ rest, b ≤ least := h.greatest least List.mem_cons_self
          split
          next hless =>
              refine ⟨least :: rest, ?_, hleast.2.orderedInsert x others, ?_, ?_⟩
              · refine (List.perm_append_singleton x l).trans ?_
                refine .trans ?_ ((List.perm_orderedInsert _ _ _).symm.append_right _)
                refine .cons x (h.perm.trans ?_)
                exact List.perm_middle.symm
              · rw [List.orderedInsert_length, List.length_append, List.length_singleton]
                rw [List.length_cons] at hlength hfull
                omega
              · intro a ha b hb
                have hrest : b ≤ least := by
                  rcases List.mem_cons.mp hb with rfl | hb
                  · exact le_rfl
                  · exact hmin b hb
                rcases (List.mem_orderedInsert _).mp ha with rfl | ha
                · exact hrest.trans hless.le
                · exact hrest.trans (hleast.1 a ha)
          next hnot =>
              refine ⟨x :: rest, ?_, h.sorted, ?_, ?_⟩
              · refine (List.perm_append_singleton x l).trans ?_
                exact (h.perm.cons x).trans List.perm_middle.symm
              · rw [List.length_append, List.length_singleton]
                omega
              · intro a ha b hb
                have hb' : b ≤ least := by
                  rcases List.mem_cons.mp hb with rfl | hb
                  · exact not_lt.mp hnot
                  · exact hmin b hb
                rcases List.mem_cons.mp ha with rfl | ha
                · exact hb'
                · exact hb'.trans (hleast.1 a ha)
      next =>
          refine ⟨x :: rest, ?_, .nil, ?_, by simp⟩
          · refine (List.perm_append_singleton x l).trans (.cons x ?_)
            exact h.perm
          · rw [List.length_nil] at hlength hfull ⊢
            omega

/-- The queue after a list of elements. -/
theorem exists_splits (k : ℕ) (l : List β) : ∃ rest, Splits k l (l.foldl (push k) []) rest := by
  induction l using List.reverseRecOn with
  | nil => exact ⟨[], .nil k⟩
  | append_singleton l x ih =>
      obtain ⟨rest, hrest⟩ := ih
      rw [List.foldl_append]
      exact hrest.push x

/-- A queue keeps what a sort in descending order puts first. -/
theorem foldl_push_perm (k : ℕ) (l : List β) :
    (l.foldl (push k) []).Perm ((l.insertionSort (· ≥ ·)).take k) := by
  obtain ⟨rest, hsplits⟩ := exists_splits k l
  have htake := List.take_insertionSort_of_split hsplits.perm hsplits.greatest
  rw [hsplits.length] at htake
  have hmin : (l.insertionSort (· ≥ ·)).take (min k l.length) =
      (l.insertionSort (· ≥ ·)).take k := by
    rw [← List.take_take, List.take_of_length_le (le_of_eq (List.length_insertionSort _ _))]
  rw [← hmin, htake]
  exact (List.perm_insertionSort _ _).symm

end TopK
