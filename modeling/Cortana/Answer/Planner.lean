import Cortana.Text.Search
import Cortana.Text.Braces
import Cortana.Text.Unicode
import Cortana.Core.Loops

/-!
# Queries of the planner

The answer of the planning model: its first JSON object is cut out of the text
around it, and the queries in it are trimmed, bounded and freed of duplicates.
The JSON decoder is a parameter.
-/

namespace Cortana

open ByteText

namespace Answer

/-- `first_json_object`. -/
def firstJsonObject (value : List Char) : Option (List Char) :=
  (find ['\x7b'] value).bind fun start ↦
    (slice value start (byteLen value)).bind fun tail ↦
      (scanBraces 0 false false 0 tail).bind fun stop ↦ slice value start (start + stop)

/-- The content without a code fence around it. -/
def withoutFence (content : List Char) : List Char :=
  let opened := ((stripPrefix "```json".toList (trim content)).or
    (stripPrefix "```".toList (trim content))).getD (trim content)
  trim ((stripSuffix "```".toList (trim opened)).getD (trim content))

/-- The queries that the lazy pipeline yields, and what it has seen then. -/
def takeQueries (toLowercase : List Char → List Char) :
    ℕ → List (List Char) → List (List Char) → List (List Char) × List (List Char)
  | 0, seen, _ => ([], seen)
  | _ + 1, seen, [] => ([], seen)
  | count + 1, seen, query :: rest =>
      if trim query ≠ [] ∧ byteLen (trim query) ≤ 500 ∧ toLowercase (trim query) ∉ seen then
        let taken := takeQueries toLowercase count (toLowercase (trim query) :: seen) rest
        (trim query :: taken.1, taken.2)
      else takeQueries toLowercase (count + 1) seen rest

section Plan

variable (unicode : Unicode) (decode : List Char → Except String (List (List Char)))

/-- `parse_plan`. -/
def parsePlan (content original : List Char) (limit : ℕ) : Except String (List (List Char)) := do
  let object ← (firstJsonObject (withoutFence content)).elim
    (.error "planner returned no JSON object") .ok
  let output ← decode object
  let (queries, seen) := takeQueries unicode.toLowercase (max 1 (min limit 8)) [] output
  let queries := if unicode.toLowercase original ∈ seen then queries
    else (original :: queries).take (max 1 (min limit 8))
  Except.require (!queries.isEmpty) "planner returned no usable queries"
  return queries

end Plan

/-! ## The object -/

theorem find_char_eq_some_iff {c : Char} {s : List Char} {i : ℕ} :
    find [c] s = some i ↔ ∃ p t, s = p ++ c :: t ∧ c ∉ p ∧ byteLen p = i := by
  induction s generalizing i with
  | nil => simp [find]
  | cons d s ih =>
      by_cases hd : c = d
      · subst hd
        simp only [find, List.isPrefixOf, beq_self_eq_true, Bool.true_and, if_true,
          Option.some.injEq]
        constructor
        · rintro rfl
          exact ⟨[], s, rfl, List.not_mem_nil, rfl⟩
        · rintro ⟨p, t, heq, hp, rfl⟩
          cases p with
          | nil => rfl
          | cons e p =>
              obtain ⟨rfl, -⟩ := List.cons.inj heq
              exact absurd List.mem_cons_self hp
      · have hnot : [c].isPrefixOf (d :: s) = false := by simp [List.isPrefixOf, hd]
        rw [find, hnot, if_neg Bool.false_ne_true, Option.map_eq_some_iff]
        constructor
        · rintro ⟨j, hj, rfl⟩
          obtain ⟨p, t, rfl, hp, rfl⟩ := Iff.mp ih hj
          exact ⟨d :: p, t, rfl, by simp [hd, hp], by simp⟩
        · rintro ⟨p, t, heq, hp, rfl⟩
          cases p with
          | nil => exact absurd (List.cons.inj heq).1.symm hd
          | cons e p =>
              obtain ⟨rfl, rfl⟩ := List.cons.inj heq
              exact ⟨byteLen p, Iff.mpr ih ⟨p, t, rfl, fun h ↦ hp (List.mem_cons_of_mem _ h), rfl⟩,
                by simp⟩

/-- The object is the text from the first brace to the one that closes it. -/
theorem firstJsonObject_eq_some_iff {value object : List Char} :
    firstJsonObject value = some object ↔
      ∃ p inner rest, value = p ++ ('\x7b' :: inner ++ ['\x7d']) ++ rest ∧ '\x7b' ∉ p ∧
        Balanced inner ∧ object = '\x7b' :: inner ++ ['\x7d'] := by
  have htail : ∀ p t, slice (p ++ '\x7b' :: t) (byteLen p) (byteLen (p ++ '\x7b' :: t)) =
      some ('\x7b' :: t) :=
    fun p t ↦ Iff.mpr slice_eq_some_iff ⟨p, [], by simp, rfl, by simp⟩
  have hobject : ∀ p inner rest, slice (p ++ '\x7b' :: (inner ++ '\x7d' :: rest)) (byteLen p)
      (byteLen p + (byteLen inner + 2)) = some ('\x7b' :: inner ++ ['\x7d']) := by
    intro p inner rest
    have hopen : '\x7b'.utf8Size = 1 := rfl
    have hclose : '\x7d'.utf8Size = 1 := rfl
    refine Iff.mpr slice_eq_some_iff ⟨p, rest, by simp, rfl, ?_⟩
    simp only [List.cons_append, byteLen_cons, byteLen_append, byteLen_nil, hopen, hclose]
    omega
  constructor
  · intro h
    obtain ⟨start, hstart, h⟩ := Option.bind_eq_some_iff.mp h
    obtain ⟨p, t, rfl, hp, rfl⟩ := Iff.mp find_char_eq_some_iff hstart
    rw [htail, Option.bind_some] at h
    obtain ⟨stop, hstop, h⟩ := Option.bind_eq_some_iff.mp h
    obtain ⟨inner, rest, hinner, rfl, rfl⟩ := Iff.mp scanBraces_open_iff hstop
    rw [hobject] at h
    exact ⟨p, inner, rest, by simp, hp, hinner, (Option.some.inj h).symm⟩
  · rintro ⟨p, inner, rest, rfl, hp, hinner, rfl⟩
    have htext : p ++ ('\x7b' :: inner ++ ['\x7d']) ++ rest =
        p ++ '\x7b' :: (inner ++ '\x7d' :: rest) := by simp
    have hstop := Iff.mpr scanBraces_open_iff ⟨inner, rest, hinner, rfl, rfl⟩
    rw [htext, firstJsonObject, Iff.mpr find_char_eq_some_iff ⟨p, _, rfl, hp, rfl⟩,
      Option.bind_some, htail, Option.bind_some, hstop, Option.bind_some, hobject]

theorem firstJsonObject_of_jsonObject {p object rest : List Char} (hp : '\x7b' ∉ p)
    (h : JsonObject object) : firstJsonObject (p ++ object ++ rest) = some object := by
  obtain ⟨inner, hinner, rfl⟩ := h.balanced
  exact Iff.mpr firstJsonObject_eq_some_iff ⟨p, inner, rest, rfl, hp, hinner, rfl⟩

theorem firstJsonObject_of_unclosed {p t : List Char} (hp : '\x7b' ∉ p)
    (h : ∀ inner rest, Balanced inner → t ≠ inner ++ '\x7d' :: rest) :
    firstJsonObject (p ++ '\x7b' :: t) = none := by
  rw [Option.eq_none_iff_forall_ne_some]
  intro object hobject
  obtain ⟨p', inner, rest, heq, hp', hinner, -⟩ := Iff.mp firstJsonObject_eq_some_iff hobject
  have heq' : p ++ '\x7b' :: t = p' ++ '\x7b' :: (inner ++ '\x7d' :: rest) := by simpa using heq
  exact h inner rest hinner (append_cons_inj_of_notMem hp hp' heq').2

/-! ## The queries -/

theorem trim_ne_nil_of_trim_ne_nil {s : List Char} (h : trim s ≠ []) : trim (trim s) ≠ [] := by
  intro hnil
  obtain ⟨c, t, hct⟩ := List.exists_cons_of_ne_nil h
  have hwhite := Iff.mp trim_eq_nil_iff hnil c (hct ▸ List.mem_cons_self)
  rw [(trim_trimmed s).1 c (by simp [hct])] at hwhite
  cases hwhite

theorem takeQueries_length (toLowercase : List Char → List Char) (count : ℕ) (seen output : List (List Char)) :
    (takeQueries toLowercase count seen output).1.length ≤ count := by
  fun_induction takeQueries toLowercase count seen output with
  | case1 => exact Nat.zero_le _
  | case2 => exact Nat.zero_le _
  | case3 _ _ _ _ _ _ ih => exact Nat.succ_le_succ ih
  | case4 _ _ _ _ _ ih => exact ih

/-- What is taken is usable, new, and what is seen besides. -/
theorem takeQueries_spec (toLowercase : List Char → List Char) (count : ℕ) (seen output : List (List Char)) (hseen : seen.Nodup) :
    (∀ query ∈ (takeQueries toLowercase count seen output).1, trim query ≠ []) ∧
      (takeQueries toLowercase count seen output).2.Nodup ∧
      (takeQueries toLowercase count seen output).2.Perm
        ((takeQueries toLowercase count seen output).1.map toLowercase ++ seen) := by
  fun_induction takeQueries toLowercase count seen output with
  | case1 => exact ⟨by simp, hseen, .refl _⟩
  | case2 => exact ⟨by simp, hseen, .refl _⟩
  | case3 seen count query rest hnew taken ih =>
      obtain ⟨husable, hnodup, hperm⟩ := ih (List.nodup_cons.mpr ⟨hnew.2.2, hseen⟩)
      refine ⟨?_, hnodup, hperm.trans ?_⟩
      · intro q hq
        rcases List.mem_cons.mp hq with rfl | hq
        · exact trim_ne_nil_of_trim_ne_nil hnew.1
        · exact husable q hq
      · exact List.perm_middle
  | case4 _ _ _ _ _ ih => exact ih hseen

/-- What a plan is for: a few queries, all different, and the one asked among them. -/
structure Planned (toLowercase : List Char → List Char) (original : List Char) (limit : ℕ)
    (queries : List (List Char)) : Prop where
  nonempty : 1 ≤ queries.length
  bounded : queries.length ≤ max 1 (min limit 8)
  visible : ∀ query ∈ queries, trim query ≠ []
  distinct : (queries.map toLowercase).Nodup
  original : ∃ query ∈ queries, toLowercase query = toLowercase original

section Plan

variable {unicode : Unicode} {decode : List Char → Except String (List (List Char))}

theorem planned_of_parsePlan {content original : List Char} {limit : ℕ}
    {queries : List (List Char)} (horiginal : trim original ≠ [])
    (h : parsePlan unicode decode content original limit = .ok queries) :
    Planned unicode.toLowercase original limit queries := by
  obtain ⟨object, -, h⟩ := Iff.mp Except.bind_ok_iff h
  obtain ⟨output, -, h⟩ := Iff.mp Except.bind_ok_iff h
  obtain ⟨-, -, h⟩ := Iff.mp Except.bind_ok_iff h
  have hlength := takeQueries_length unicode.toLowercase (max 1 (min limit 8)) []
    output
  obtain ⟨husable, hnodup, hperm⟩ := takeQueries_spec unicode.toLowercase
    (max 1 (min limit 8)) [] output List.nodup_nil
  rw [List.append_nil] at hperm
  obtain rfl := Except.ok.inj h
  split
  next hseen =>
    obtain ⟨query, hquery, hsame⟩ := List.mem_map.mp (hperm.mem_iff.mp hseen)
    exact ⟨List.length_pos_of_mem hquery, hlength, husable, hperm.nodup_iff.mp hnodup, query,
      hquery, hsame⟩
  next hseen =>
    obtain ⟨count, hcount⟩ : ∃ count, max 1 (min limit 8) = count + 1 :=
      Nat.exists_eq_add_of_le' (le_max_left 1 _)
    have hkept := List.take_sublist (max 1 (min limit 8))
      (original :: (takeQueries unicode.toLowercase (max 1 (min limit 8)) [] output).1)
    refine ⟨?_, List.length_take_le _ _, ?_, ?_, original, ?_, rfl⟩
    · simp [hcount]
    · intro query hquery
      rcases List.mem_cons.mp (hkept.mem hquery) with rfl | htaken
      · exact horiginal
      · exact husable query htaken
    · refine (hkept.map _).nodup (List.nodup_cons.mpr ⟨?_, hperm.nodup_iff.mp hnodup⟩)
      exact fun hmem ↦ hseen (hperm.mem_iff.mpr hmem)
    · rw [hcount]
      exact List.mem_cons_self

/-- The object is found exactly, and a plan for a question that is not blank has
what a plan is for. -/
theorem planner_exact (unicode : Unicode)
    (decode : List Char → Except String (List (List Char))) :
    (∀ p object rest, '\x7b' ∉ p → JsonObject object →
        firstJsonObject (p ++ object ++ rest) = some object) ∧
      (∀ p t, '\x7b' ∉ p → (∀ inner rest, Balanced inner → t ≠ inner ++ '\x7d' :: rest) →
        firstJsonObject (p ++ '\x7b' :: t) = none) ∧
      ∀ content original limit queries, trim original ≠ [] →
        parsePlan unicode decode content original limit = .ok queries →
          Planned unicode.toLowercase original limit queries :=
  ⟨fun _ _ _ ↦ firstJsonObject_of_jsonObject, fun _ _ ↦ firstJsonObject_of_unclosed,
    fun _ _ _ _ ↦ planned_of_parsePlan⟩

end Plan

/-- A decoder of plans without queries. -/
def decodeEmpty (object : List Char) : Except String (List (List Char)) :=
  if object = "\x7b\"queries\":[]\x7d".toList then .ok [] else .error "expected value"

/-- A blank question is a query of its plan. -/
theorem parsePlan_blank :
    ¬ ∀ content original limit queries,
      parsePlan Unicode.ascii decodeEmpty content original limit = .ok queries →
        Planned Unicode.ascii.toLowercase original limit queries := by
  intro h
  have hplan : parsePlan Unicode.ascii decodeEmpty "\x7b\"queries\":[]\x7d".toList [' '] 3 =
      .ok [[' ']] := by decide +kernel
  exact (h _ _ _ _ hplan).visible [' '] List.mem_cons_self (by decide)

end Answer

end Cortana
