import Mathlib.Data.List.Basic
import Mathlib.Tactic

/-!
# Escaping words

An escaping writes a word with plain letters only: a plain letter stands for
itself, and every other letter for a mark followed by its two-letter code.  When
the mark is itself plain, two words may come out the same.  Which ones do is
said by a relation between the words alone.
-/

/-- Plain letters, the mark, and the code of the other letters. -/
structure Escaping (α : Type*) where
  plain : α → Bool
  mark : α
  code : α → α × α
  plain_mark : plain mark = true
  plain_code : ∀ a, plain (code a).1 = true ∧ plain (code a).2 = true
  code_ne_mark : ∀ a, (code a).1 ≠ mark ∧ (code a).2 ≠ mark
  code_injective : Function.Injective code

namespace Escaping

variable {α : Type*} (e : Escaping α)

@[grind =] def letter (a : α) : List α :=
  if e.plain a then [a] else [e.mark, (e.code a).1, (e.code a).2]

@[grind =] def escape (s : List α) : List α := s.flatMap e.letter

/-- One word is had from the other by writing out some of its letters as
marked codes, and some codes as letters. -/
inductive Respells : List α → List α → Prop where
  | nil : Respells [] []
  | same {s t : List α} (a : α) : Respells s t → Respells (a :: s) (a :: t)
  | spelled {s t : List α} (a : α) : e.plain a = false → Respells s t →
      Respells (a :: s) (e.mark :: (e.code a).1 :: (e.code a).2 :: t)
  | read {s t : List α} (a : α) : e.plain a = false → Respells s t →
      Respells (e.mark :: (e.code a).1 :: (e.code a).2 :: s) (a :: t)

@[simp] theorem escape_nil : e.escape [] = [] := rfl

@[simp] theorem escape_cons (a : α) (s : List α) :
    e.escape (a :: s) = e.letter a ++ e.escape s := rfl

@[simp] theorem escape_append (s t : List α) : e.escape (s ++ t) = e.escape s ++ e.escape t := by
  simp [escape]

variable {e}

theorem letter_plain {a : α} (h : e.plain a = true) : e.letter a = [a] := by
  rw [letter, if_pos h]

theorem letter_coded {a : α} (h : e.plain a = false) :
    e.letter a = [e.mark, (e.code a).1, (e.code a).2] := by
  rw [letter, if_neg (by simp [h])]

theorem letter_ne_nil (a : α) : e.letter a ≠ [] := by
  cases h : e.plain a with
  | true => simp [letter_plain h]
  | false => simp [letter_coded h]

theorem plain_of_mem_letter {a b : α} (h : b ∈ e.letter a) : e.plain b = true := by
  cases hp : e.plain a with
  | true =>
      rw [letter_plain hp, List.mem_singleton] at h
      rwa [h]
  | false =>
      rw [letter_coded hp] at h
      simp only [List.mem_cons, List.not_mem_nil, or_false] at h
      rcases h with rfl | rfl | rfl
      · exact e.plain_mark
      · exact (e.plain_code a).1
      · exact (e.plain_code a).2

theorem plain_of_mem_escape {s : List α} {b : α} (h : b ∈ e.escape s) : e.plain b = true := by
  obtain ⟨a, -, hb⟩ := List.mem_flatMap.mp h
  exact plain_of_mem_letter hb

theorem escape_of_plain {s : List α} (h : ∀ a ∈ s, e.plain a = true) : e.escape s = s := by
  induction s with
  | nil => rfl
  | cons a s ih =>
      rw [escape_cons, letter_plain (h a List.mem_cons_self),
        ih fun b hb ↦ h b (List.mem_cons_of_mem a hb)]
      rfl

theorem escape_eq_nil {s : List α} : e.escape s = [] ↔ s = [] := by
  cases s with
  | nil => simp
  | cons a s => simp [letter_ne_nil]

/-- A plain letter other than the mark comes from itself only. -/
theorem escape_eq_cons {s t : List α} {a : α} (hmark : a ≠ e.mark) (h : e.escape s = a :: t) :
    ∃ rest, s = a :: rest ∧ e.escape rest = t := by
  cases s with
  | nil => simp at h
  | cons b rest =>
      rw [escape_cons] at h
      cases hb : e.plain b with
      | true =>
          rw [letter_plain hb, List.singleton_append, List.cons.injEq] at h
          exact ⟨rest, by rw [h.1], h.2⟩
      | false =>
          rw [letter_coded hb, List.cons_append, List.cons.injEq] at h
          exact absurd h.1.symm hmark

theorem escape_eq_append {s l t : List α} (hl : ∀ a ∈ l, a ≠ e.mark)
    (h : e.escape s = l ++ t) : ∃ rest, s = l ++ rest ∧ e.escape rest = t := by
  induction l generalizing s with
  | nil => exact ⟨s, rfl, h⟩
  | cons a l ih =>
      obtain ⟨next, rfl, hnext⟩ := escape_eq_cons (hl a List.mem_cons_self) h
      obtain ⟨rest, rfl, hrest⟩ := ih (fun b hb ↦ hl b (List.mem_cons_of_mem a hb)) hnext
      exact ⟨rest, rfl, hrest⟩

theorem Respells.symm {s t : List α} (h : e.Respells s t) : e.Respells t s := by
  induction h with
  | nil => exact .nil
  | same a _ ih => exact .same a ih
  | spelled a ha _ ih => exact .read a ha ih
  | read a ha _ ih => exact .spelled a ha ih

theorem Respells.refl (s : List α) : e.Respells s s := by
  induction s with
  | nil => exact .nil
  | cons a s ih => exact .same a ih

theorem Respells.escape_eq {s t : List α} (h : e.Respells s t) : e.escape s = e.escape t := by
  have hcode : ∀ (a : α) (r : List α), e.plain a = false →
      e.escape (e.mark :: (e.code a).1 :: (e.code a).2 :: r) = e.letter a ++ e.escape r := by
    intro a r ha
    simp [letter_coded ha, letter_plain e.plain_mark, letter_plain (e.plain_code a).1,
      letter_plain (e.plain_code a).2]
  induction h with
  | nil => rfl
  | same a _ ih => rw [escape_cons, escape_cons, ih]
  | spelled a ha _ ih => rw [hcode a _ ha, escape_cons, ih]
  | read a ha _ ih => rw [hcode a _ ha, escape_cons, ih]

/-- The letter before a marked code of another letter. -/
theorem respells_coded {a c : α} {s t : List α} (ha : e.plain a = false) (hc : e.plain c = true)
    (h : e.escape (a :: s) = e.escape (c :: t)) :
    ∃ rest, c :: t = e.mark :: (e.code a).1 :: (e.code a).2 :: rest ∧
      e.escape s = e.escape rest := by
  rw [escape_cons, escape_cons, letter_coded ha, letter_plain hc, List.singleton_append,
    List.cons_append, List.cons.injEq] at h
  obtain ⟨rest, rfl, hrest⟩ := escape_eq_append (l := [(e.code a).1, (e.code a).2])
    (by simpa using e.code_ne_mark a) h.2.symm
  exact ⟨rest, by rw [h.1]; rfl, hrest.symm⟩

/-- Two words are written the same way exactly when one respells the other. -/
theorem escape_eq_iff {s t : List α} : e.escape s = e.escape t ↔ e.Respells s t := by
  refine ⟨fun h ↦ ?_, Respells.escape_eq⟩
  -- the first letters decide the case; a marked code takes three letters of one word
  induction hn : s.length + t.length using Nat.strong_induction_on generalizing s t with
  | _ n ih =>
      cases s with
      | nil =>
          rw [escape_nil, eq_comm, escape_eq_nil] at h
          subst h
          exact .nil
      | cons a s =>
          cases t with
          | nil =>
              rw [escape_nil, escape_eq_nil] at h
              cases h
          | cons c t =>
              simp only [List.length_cons] at hn
              cases ha : e.plain a with
              | true =>
                  cases hc : e.plain c with
                  | true =>
                      rw [escape_cons, escape_cons, letter_plain ha, letter_plain hc] at h
                      obtain ⟨rfl, hrest⟩ := List.cons.inj h
                      exact .same a (ih _ (by omega) hrest rfl)
                  | false =>
                      obtain ⟨rest, hs, hrest⟩ := respells_coded hc ha h.symm
                      rw [hs]
                      have hlen := congrArg List.length hs
                      simp only [List.length_cons] at hlen
                      exact .read c hc (ih _ (by omega) hrest.symm rfl)
              | false =>
                  cases hc : e.plain c with
                  | true =>
                      obtain ⟨rest, ht, hrest⟩ := respells_coded ha hc h
                      rw [ht]
                      have hlen := congrArg List.length ht
                      simp only [List.length_cons] at hlen
                      exact .spelled a ha (ih _ (by omega) hrest rfl)
                  | false =>
                      rw [escape_cons, escape_cons, letter_coded ha, letter_coded hc] at h
                      simp only [List.cons_append, List.nil_append, List.cons.injEq,
                        true_and] at h
                      have hcode : e.code a = e.code c := Prod.ext h.1 h.2.1
                      obtain rfl := e.code_injective hcode
                      exact .same a (ih _ (by omega) h.2.2 rfl)

/-- A letter that no code uses is found where it stands. -/
theorem escape_eq_append_cons {s l t : List α} {a : α} (hmark : a ≠ e.mark)
    (hcode : ∀ b, e.plain b = false → a ≠ (e.code b).1 ∧ a ≠ (e.code b).2)
    (h : e.escape s = l ++ a :: t) :
    ∃ head rest, s = head ++ a :: rest ∧ e.escape head = l ∧ e.escape rest = t := by
  induction s generalizing l with
  | nil => simp at h
  | cons b s ih =>
      rw [escape_cons] at h
      have htail : ∀ l', l = e.letter b ++ l' → ∃ head rest,
          b :: s = head ++ a :: rest ∧ e.escape head = l ∧ e.escape rest = t := by
        rintro l' rfl
        rw [List.append_assoc, List.append_cancel_left_eq] at h
        obtain ⟨head, rest, rfl, hhead, hrest⟩ := ih h
        exact ⟨b :: head, rest, rfl, by rw [escape_cons, hhead], hrest⟩
      cases hb : e.plain b with
      | true =>
          rw [letter_plain hb] at h htail
          cases l with
          | nil =>
              obtain ⟨rfl, hrest⟩ := List.cons.inj h
              exact ⟨[], s, rfl, rfl, hrest⟩
          | cons c l =>
              obtain ⟨rfl, -⟩ := List.cons.inj h
              exact htail l rfl
      | false =>
          rw [letter_coded hb] at h htail
          obtain ⟨hfirst, hsecond⟩ := hcode b hb
          rcases l with _ | ⟨c, _ | ⟨d, _ | ⟨f, l⟩⟩⟩
          · exact absurd (List.cons.inj h).1.symm hmark
          · exact absurd (List.cons.inj (List.cons.inj h).2).1.symm hfirst
          · exact absurd (List.cons.inj (List.cons.inj (List.cons.inj h).2).2).1.symm hsecond
          · obtain ⟨rfl, h1⟩ := List.cons.inj h
            obtain ⟨rfl, h2⟩ := List.cons.inj h1
            obtain ⟨rfl, -⟩ := List.cons.inj h2
            exact htail l rfl

/-- A word that comes out as the beginning of another one: with some rest
behind it, it respells the other. -/
theorem escape_eq_take_iff {h s : List α} {n : ℕ} (hn : n ≤ (e.escape s).length) :
    e.escape h = (e.escape s).take n ↔
      (e.escape h).length = n ∧ ∃ rest, e.Respells (h ++ rest) s := by
  constructor
  · intro heq
    refine ⟨by rw [heq, List.length_take, min_eq_left hn], (e.escape s).drop n, ?_⟩
    have hplain : e.escape ((e.escape s).drop n) = (e.escape s).drop n :=
      escape_of_plain fun _ hb ↦ plain_of_mem_escape (List.mem_of_mem_drop hb)
    rw [← escape_eq_iff, escape_append, hplain, heq, List.take_append_drop]
  · rintro ⟨hlen, rest, hrest⟩
    rw [← hrest.escape_eq, escape_append, ← hlen, List.take_left]

end Escaping
