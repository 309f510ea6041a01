import Mathlib.Data.List.Sort

/-!
# Pages of a sorted list

A page takes the first elements after a cursor, the key of an element, and
hands out the key of its last element as the next cursor if more elements
follow.  Following the cursors meets every element once, in order.
-/

namespace Paging

variable {α κ ε : Type*}

/-- The elements after a cursor. -/
def after (key : α → κ) (r : κ → κ → Prop) [DecidableRel r] (l : List α) (cursor : Option κ) :
    List α :=
  l.filter fun x ↦ cursor.all fun c ↦ r c (key x)

/-- The page after a cursor, and the next cursor. -/
def page (key : α → κ) (r : κ → κ → Prop) [DecidableRel r] (l : List α) (n : ℕ)
    (cursor : Option κ) : List α × Option κ :=
  let rest := after key r l cursor
  (rest.take n, if n < rest.length then (rest.take n).getLast?.map key else none)

/-- All pages from a cursor on, in at most so many rounds. -/
def collect (fetch : Option κ → Option (Except ε (List α × Option κ))) :
    ℕ → Option κ → Option (Except ε (List (List α)))
  | 0, _ => none
  | rounds + 1, cursor =>
      match fetch cursor with
      | none => none
      | some (.error e) => some (.error e)
      | some (.ok (items, none)) => some (.ok [items])
      | some (.ok (items, some next)) =>
          (collect fetch rounds (some next)).map fun result ↦ result.map (items :: ·)

/-- Cursors may be written in another form, if that is read back for those that come up. -/
theorem collect_encoded {κ' : Type*} {encode : κ → κ'} {P : κ → Prop}
    {fetch : Option κ → Option (Except ε (List α × Option κ))}
    {fetch' : Option κ' → Option (Except ε (List α × Option κ'))}
    (hencode : ∀ cursor, (∀ c ∈ cursor, P c) → fetch' (cursor.map encode) =
      (fetch cursor).map fun result ↦ result.map fun p ↦ (p.1, p.2.map encode))
    (hnext : ∀ cursor items next, fetch cursor = some (.ok (items, some next)) → P next)
    (rounds : ℕ) {cursor : Option κ} (hcursor : ∀ c ∈ cursor, P c) :
    collect fetch' rounds (cursor.map encode) = collect fetch rounds cursor := by
  induction rounds generalizing cursor with
  | zero => rfl
  | succ rounds ih =>
      rw [collect, collect, hencode cursor hcursor]
      rcases hfetch : fetch cursor with _ | (e | ⟨items, _ | next⟩)
      · rfl
      · rfl
      · rfl
      · have hrest : collect fetch' rounds ((some next).map encode) =
            collect fetch rounds (some next) :=
          ih fun c hc ↦ Option.mem_some.mp hc ▸ hnext cursor items next hfetch
        exact congrArg (Option.map fun result ↦ result.map (items :: ·)) hrest

variable {key : α → κ} {r : κ → κ → Prop} [DecidableRel r] {l : List α}

@[simp] theorem after_none : after key r l none = l := by simp [after]

theorem mem_after {cursor : Option κ} {x : α} :
    x ∈ after key r l cursor ↔ x ∈ l ∧ ∀ c ∈ cursor, r c (key x) := by
  rw [after, List.mem_filter]
  cases cursor <;> simp

/-- Keys grow along the list. -/
def Sorted (key : α → κ) (r : κ → κ → Prop) (l : List α) : Prop :=
  l.Pairwise fun a b ↦ r (key a) (key b)

/-- What follows a cursor is sorted. -/
theorem Sorted.after (h : Sorted key r l) (cursor : Option κ) :
    Sorted key r (after key r l cursor) :=
  h.filter _

section Strict

variable [IsStrictOrder κ r]

/-- After the key of an element come the elements behind it. -/
theorem after_key (h : Sorted key r l) {cursor : Option κ} {front back : List α} {x : α}
    (hsplit : after key r l cursor = front ++ x :: back) : after key r l (some (key x)) = back := by
  have hsorted : Sorted key r (front ++ x :: back) := hsplit ▸ h.after cursor
  obtain ⟨-, hback, hfront⟩ := List.pairwise_append.mp hsorted
  have hx : cursor.all (fun c ↦ r c (key x)) = true := by
    have hmem : x ∈ after key r l cursor := by
      rw [hsplit]
      simp
    exact (List.mem_filter.mp hmem).2
  -- What comes after the element comes after the cursor.
  have hlater : ∀ y, r (key x) (key y) → cursor.all (fun c ↦ r c (key y)) = true := by
    intro y hy
    cases cursor with
    | none => rfl
    | some c => simpa using IsTrans.trans _ _ _ (by simpa using hx : r c (key x)) hy
  have hfilter : after key r l (some (key x)) =
      (after key r l cursor).filter fun y ↦ r (key x) (key y) := by
    rw [after, after, List.filter_filter]
    refine List.filter_congr fun y _ ↦ ?_
    by_cases hy : r (key x) (key y)
    · simp [hy, hlater y hy]
    · simp [hy]
  rw [hfilter, hsplit, List.filter_append, List.filter_cons_of_neg (by simpa using irrefl (key x))]
  have hnone : front.filter (fun y ↦ r (key x) (key y)) = [] := by
    rw [List.filter_eq_nil_iff]
    intro y hy
    simpa using asymm (hfront y hy x List.mem_cons_self)
  have hall : back.filter (fun y ↦ r (key x) (key y)) = back := by
    rw [List.filter_eq_self]
    intro y hy
    simpa using (List.pairwise_cons.mp hback).1 y hy
  rw [hnone, hall, List.nil_append]

/-- After the last key of a page comes what the page has left. -/
theorem after_getLast_take (h : Sorted key r l) {cursor : Option κ} {n : ℕ} {x : α}
    (hx : ((after key r l cursor).take n).getLast? = some x) :
    after key r l (some (key x)) = (after key r l cursor).drop n := by
  obtain ⟨front, hfront⟩ := List.getLast?_eq_some_iff.mp hx
  have hsplit : after key r l cursor = front ++ x :: (after key r l cursor).drop n := by
    calc after key r l cursor
        = (after key r l cursor).take n ++ (after key r l cursor).drop n :=
          (List.take_append_drop n _).symm
      _ = front ++ x :: (after key r l cursor).drop n := by
          rw [hfront, List.append_assoc, List.singleton_append]
  exact after_key h hsplit

/-- If every page at a cursor with something behind it is a page of the list or
fails for a reason, then all pages together are the list, or one fails for that
reason; so many rounds are enough as elements are left. -/
theorem collect_spec (h : Sorted key r l) {n : ℕ} (hn : 0 < n)
    {fetch : Option κ → Option (Except ε (List α × Option κ))} {E : ε → Prop}
    (hfetch : ∀ cursor, (cursor.isSome = true → after key r l cursor ≠ []) →
      (∃ e, fetch cursor = some (.error e) ∧ E e) ∨
        fetch cursor = some (.ok (page key r l n cursor)))
    {rounds : ℕ} {cursor : Option κ} (hcursor : cursor.isSome = true → after key r l cursor ≠ [])
    (hrounds : (after key r l cursor).length < rounds) :
    (∃ e, collect fetch rounds cursor = some (.error e) ∧ E e) ∨
      ∃ pages, collect fetch rounds cursor = some (.ok pages) ∧
        pages.flatten = after key r l cursor := by
  induction rounds generalizing cursor with
  | zero => omega
  | succ rounds ih =>
      rcases hfetch cursor hcursor with ⟨e, herror, he⟩ | hpage
      · exact .inl ⟨e, by rw [collect, herror], he⟩
      by_cases hmore : n < (after key r l cursor).length
      · have htake : (after key r l cursor).take n ≠ [] := by
          rw [← List.length_pos_iff, List.length_take]
          omega
        have hx := List.getLast?_eq_some_getLast htake
        set x := ((after key r l cursor).take n).getLast htake
        have hrest := after_getLast_take h hx
        have hcollect : collect fetch (rounds + 1) cursor =
            (collect fetch rounds (some (key x))).map fun result ↦
              result.map ((after key r l cursor).take n :: ·) := by
          rw [collect, hpage, page, if_pos hmore, hx]
          rfl
        have hlength : (after key r l (some (key x))).length < rounds := by
          rw [hrest, List.length_drop]
          omega
        have hmore' : after key r l (some (key x)) ≠ [] := by
          rw [hrest, ← List.length_pos_iff, List.length_drop]
          omega
        rcases ih (fun _ ↦ hmore') hlength with ⟨e, herror, he⟩ | ⟨pages, hpages, hflatten⟩
        · exact .inl ⟨e, by rw [hcollect, herror]; rfl, he⟩
        · refine .inr ⟨_, by rw [hcollect, hpages]; rfl, ?_⟩
          rw [List.flatten_cons, hflatten, hrest, List.take_append_drop]
      · refine .inr ⟨[(after key r l cursor).take n], ?_, ?_⟩
        · rw [collect, hpage, page, if_neg hmore]
        · rw [List.flatten_singleton, List.take_of_length_le (not_lt.mp hmore)]

end Strict

end Paging
