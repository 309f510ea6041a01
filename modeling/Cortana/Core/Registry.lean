import Mathlib.Data.List.Forall2
import Mathlib.Data.List.Nodup
import Cortana.Core.Loops

/-!
# Registries

A registry is a list of rows that are changed in place, the first row with a
key at a time, and added at the end.  A relation between rows that every change
respects holds between the rows at one place at any two times.
-/

namespace Registry

variable {ρ β ε : Type*}

/-- Change the first row a predicate selects. -/
@[grind =] def updateFirst (p : ρ → Bool) (missing : ε) (f : ρ → Except ε (ρ × β)) :
    List ρ → Except ε (List ρ × β)
  | [] => .error missing
  | r :: rest =>
      if p r then (f r).map fun out ↦ (out.1 :: rest, out.2)
      else (updateFirst p missing f rest).map fun out ↦ (r :: out.1, out.2)

variable {p : ρ → Bool} {missing : ε} {f : ρ → Except ε (ρ × β)} {l l' : List ρ} {b : β}

theorem updateFirst_eq_ok :
    updateFirst p missing f l = .ok (l', b) ↔
      ∃ pre r post r', l = pre ++ r :: post ∧ (∀ x ∈ pre, p x = false) ∧ p r = true ∧
        f r = .ok (r', b) ∧ l' = pre ++ r' :: post := by
  induction l generalizing l' with
  | nil => simp [updateFirst]
  | cons x rest ih =>
      rw [updateFirst]
      cases hx : p x with
      | true =>
          rw [if_pos rfl, Except.map_ok_iff]
          constructor
          · rintro ⟨⟨r', b'⟩, hf, heq⟩
            obtain ⟨rfl, rfl⟩ := Prod.mk.inj heq
            exact ⟨[], x, rest, r', rfl, by simp, hx, hf, rfl⟩
          · rintro ⟨pre, r, post, r', hl, hpre, -, hf, rfl⟩
            cases pre with
            | nil =>
                obtain ⟨rfl, rfl⟩ := List.cons.inj hl
                exact ⟨(r', b), hf, rfl⟩
            | cons y pre =>
                obtain ⟨rfl, -⟩ := List.cons.inj hl
                have hy := hpre x List.mem_cons_self
                rw [hx] at hy
                cases hy
      | false =>
          rw [if_neg (by simp), Except.map_ok_iff]
          constructor
          · rintro ⟨⟨m, b'⟩, hrest, heq⟩
            obtain ⟨rfl, rfl⟩ := Prod.mk.inj heq
            obtain ⟨pre, r, post, r', rfl, hpre, hr, hf, rfl⟩ := ih.mp hrest
            exact ⟨x :: pre, r, post, r', rfl, List.forall_mem_cons.mpr ⟨hx, hpre⟩, hr, hf, rfl⟩
          · rintro ⟨pre, r, post, r', hl, hpre, hr, hf, rfl⟩
            cases pre with
            | nil =>
                obtain ⟨rfl, -⟩ := List.cons.inj hl
                rw [hx] at hr
                cases hr
            | cons y pre =>
                obtain ⟨rfl, rfl⟩ := List.cons.inj hl
                refine ⟨(pre ++ r' :: post, b), ih.mpr ?_, rfl⟩
                exact ⟨pre, r, post, r', rfl, fun z hz ↦ hpre z (List.mem_cons_of_mem _ hz), hr,
                  hf, rfl⟩

/-- Without a row to change the search has failed. -/
theorem updateFirst_of_find?_eq_none (h : l.find? p = none) :
    updateFirst p missing f l = .error missing := by
  induction l with
  | nil => rfl
  | cons x rest ih =>
      cases hx : p x with
      | true =>
          rw [List.find?_cons_of_pos hx] at h
          cases h
      | false =>
          rw [List.find?_cons_of_neg (by simp [hx])] at h
          rw [updateFirst, hx, if_neg (by simp), ih h]
          rfl

/-- The selected row is the one a search finds. -/
theorem find?_of_split {pre post : List ρ} {r : ρ} (hpre : ∀ x ∈ pre, p x = false)
    (hr : p r = true) : (pre ++ r :: post).find? p = some r := by
  rw [List.find?_append, List.find?_eq_none.mpr fun x hx ↦ by simp [hpre x hx], Option.none_or,
    List.find?_cons_of_pos hr]

/-- Rows keep their places and are related to what becomes of them. -/
def Grows (rel : ρ → ρ → Prop) (l m : List ρ) : Prop :=
  ∃ kept added, m = kept ++ added ∧ List.Forall₂ rel l kept

variable {rel : ρ → ρ → Prop}

theorem Grows.refl (hrefl : ∀ r, rel r r) (l : List ρ) : Grows rel l l :=
  ⟨l, [], (List.append_nil l).symm, List.forall₂_same.mpr fun r _ ↦ hrefl r⟩

theorem Grows.append (hrefl : ∀ r, rel r r) (l added : List ρ) : Grows rel l (l ++ added) :=
  ⟨l, added, rfl, List.forall₂_same.mpr fun r _ ↦ hrefl r⟩

theorem Grows.trans (htrans : ∀ q r s, rel q r → rel r s → rel q s) {l m n : List ρ}
    (h : Grows rel l m) (h' : Grows rel m n) : Grows rel l n := by
  obtain ⟨kept, added, rfl, hkept⟩ := h
  obtain ⟨both, more, rfl, hboth⟩ := h'
  obtain ⟨front, back, rfl, hfront⟩ : ∃ front back, both = front ++ back ∧
      List.Forall₂ rel l front := by
    induction hkept generalizing both with
    | nil => exact ⟨[], both, rfl, .nil⟩
    | cons hqr _ ih =>
        cases hboth with
        | cons hrs hrest =>
            obtain ⟨front, back, rfl, hfront⟩ := ih _ hrest
            exact ⟨_ :: front, back, rfl, .cons (htrans _ _ _ hqr hrs) hfront⟩
  exact ⟨front, back ++ more, by rw [List.append_assoc], hfront⟩

theorem Grows.mono {rel' : ρ → ρ → Prop} (hrel : ∀ q r, rel q r → rel' q r) {l m : List ρ}
    (h : Grows rel l m) : Grows rel' l m := by
  obtain ⟨kept, added, rfl, hkept⟩ := h
  exact ⟨kept, added, rfl, hkept.imp hrel⟩

/-- A change of one row that respects the relation. -/
theorem Grows.of_split (hrefl : ∀ r, rel r r) {pre post : List ρ} {r r' : ρ} (h : rel r r') :
    Grows rel (pre ++ r :: post) (pre ++ r' :: post) :=
  ⟨pre ++ r' :: post, [], (List.append_nil _).symm,
    List.rel_append (List.forall₂_same.mpr fun r _ ↦ hrefl r)
      (.cons h (List.forall₂_same.mpr fun r _ ↦ hrefl r))⟩

/-- What becomes of the row at a place. -/
theorem Grows.get {l m : List ρ} (h : Grows rel l m) {i : ℕ} {r : ρ} (hr : l[i]? = some r) :
    ∃ r', m[i]? = some r' ∧ rel r r' := by
  obtain ⟨kept, added, rfl, hkept⟩ := h
  induction hkept generalizing i with
  | nil => simp at hr
  | cons hab _ ih =>
      cases i with
      | zero =>
          simp only [List.getElem?_cons_zero, Option.some.injEq] at hr
          subst hr
          exact ⟨_, rfl, hab⟩
      | succ i => exact ih (by simpa using hr)

/-- What becomes of a row. -/
theorem Grows.exists_mem {l m : List ρ} (h : Grows rel l m) {r : ρ} (hr : r ∈ l) :
    ∃ r' ∈ m, rel r r' := by
  obtain ⟨i, hi⟩ := List.getElem?_of_mem hr
  obtain ⟨r', hr', hrel⟩ := h.get hi
  exact ⟨r', List.mem_of_getElem? hr', hrel⟩

theorem Grows.of_forall₂ {l m : List ρ} (h : List.Forall₂ rel l m) : Grows rel l m :=
  ⟨m, [], (List.append_nil m).symm, h⟩

/-- What becomes of the first row a predicate selects, when the relation keeps
the predicate. -/
theorem Grows.find {l m : List ρ} (h : Grows rel l m) (hp : ∀ r r', rel r r' → p r' = p r)
    {r : ρ} (hr : l.find? p = some r) : ∃ r', m.find? p = some r' ∧ rel r r' := by
  obtain ⟨kept, added, rfl, hkept⟩ := h
  induction hkept with
  | nil => simp at hr
  | @cons a b l kept hab _ ih =>
      cases ha : p a with
      | true =>
          rw [List.find?_cons_of_pos ha] at hr
          obtain rfl := Option.some.inj hr
          exact ⟨b, List.find?_cons_of_pos ((hp a b hab).trans ha), hab⟩
      | false =>
          rw [List.find?_cons_of_neg (by simp [ha])] at hr
          obtain ⟨r', hr', hrel⟩ := ih hr
          refine ⟨r', ?_, hrel⟩
          rw [List.cons_append, List.find?_cons_of_neg (by simp [hp a b hab, ha])]
          exact hr'

/-! ## Keyed rows -/

variable {κ : Type*} {key : ρ → κ} {pre post : List ρ} {r r' x : ρ}

/-- A row of a list with one row replaced is the new one, or an old one with
another key. -/
theorem mem_replaced (hkeys : (l.map key).Nodup) (hsplit : l = pre ++ r :: post)
    (hx : x ∈ pre ++ r' :: post) : x = r' ∨ (x ∈ l ∧ key x ≠ key r) := by
  subst hsplit
  rw [List.map_append, List.map_cons, List.nodup_middle, List.nodup_cons] at hkeys
  have hother : ∀ y ∈ pre ++ post, key y ≠ key r := fun y hy heq ↦
    hkeys.1 (by rw [← heq, ← List.map_append]; exact List.mem_map_of_mem hy)
  rcases List.mem_append.mp hx with hx | hx
  · exact .inr ⟨List.mem_append_left _ hx, hother x (List.mem_append_left _ hx)⟩
  · rcases List.mem_cons.mp hx with rfl | hx
    · exact .inl rfl
    · exact .inr ⟨List.mem_append_right _ (List.mem_cons_of_mem _ hx),
        hother x (List.mem_append_right _ hx)⟩

/-- Every old row has a row with its key. -/
theorem exists_replaced (key : ρ → κ) (r' : ρ) (hsplit : l = pre ++ r :: post)
    (hkey : key r' = key r) (hx : x ∈ l) :
    ∃ y ∈ pre ++ r' :: post, key y = key x := by
  subst hsplit
  rcases List.mem_append.mp hx with hx | hx
  · exact ⟨x, List.mem_append_left _ hx, rfl⟩
  · rcases List.mem_cons.mp hx with rfl | hx
    · exact ⟨r', by simp, hkey⟩
    · exact ⟨x, List.mem_append_right _ (List.mem_cons_of_mem _ hx), rfl⟩

theorem keys_replaced (key : ρ → κ) (r' : ρ) (hsplit : l = pre ++ r :: post)
    (hkey : key r' = key r) :
    (pre ++ r' :: post).map key = l.map key := by
  subst hsplit
  simp [hkey]

theorem eq_of_key (hkeys : (l.map key).Nodup) (hr : r ∈ l) (hx : x ∈ l) (h : key r = key x) :
    r = x :=
  List.inj_on_of_nodup_map hkeys hr hx h

end Registry
